import Undervest.EventQueue

/-!
# The run loop and its condition variable

One thread executes `run` of a scheduler `k`.  Other threads, and the events that
it executes, call `schedule`, `clear`, `cancel` and `stop`.

`Runner` says where the thread is.  It holds the mutex while it tests the flag and
looks at its queue.  It releases the mutex while it waits and while it executes an
event.  The others' calls that need the mutex of `k` are possible only then.  A
wait may end at any time, since condition variables wake up spuriously.

A call of `stop` has two steps: the flag is set without the mutex, then the
condition variable is notified under it, and the call returns.

A wait has a deadline, which is `none` for a wait on an empty queue.  No event of
the queue is earlier than it, unless a notification is pending
(`covered_of_reachable`).

`run` sets the flag to false when it starts.  A call of `stop` before that is
lost.  After a later one the thread waits no more and takes no more events, and
it has two steps left at most (`winds_down`).
-/

namespace Undervest

open Unordered Heap Transition

namespace EventQueue

/-! ## The thread -/

/-- Where the thread is. -/
inductive Runner (ε : Type) where
  /-- The thread is created, and `run` has not locked the mutex yet. -/
  | created
  /-- It tests `_stop`. -/
  | testing
  /-- It looks at the queue. -/
  | turning
  /-- It waits until a deadline.  A notification is pending or not. -/
  | waiting (deadline : Option ℤ) (notified : Bool)
  | executing (event : ε)
  | returned
deriving DecidableEq, Repr

namespace Runner

variable {ε : Type}

def holdsMutex : Runner ε → Bool
  | .testing => true
  | .turning => true
  | _ => false

/-- `notify_one`. -/
def notify : Runner ε → Runner ε
  | .waiting deadline _ => .waiting deadline true
  | r => r

/-- A bound on the steps that the thread has left when it is to stop. -/
def rank : Runner ε → Nat
  | .returned => 0
  | .testing => 1
  | .executing _ => 2
  | .waiting _ true => 2
  | _ => 3

theorem rank_notify_le (r : Runner ε) : r.notify.rank ≤ r.rank := by
  cases r with
  | waiting deadline notified =>
      cases notified with
      | false => exact Nat.le_succ 2
      | true => exact Nat.le_refl 2
  | _ => exact Nat.le_refl _

/-- A thread without the mutex that has entered `run` has two steps left when it has
been notified. -/
theorem rank_notify {r : Runner ε} (hm : r.holdsMutex = false) (hc : r ≠ .created) :
    r.notify.rank ≤ 2 := by
  cases r with
  | created => exact absurd rfl hc
  | testing => cases hm
  | turning => cases hm
  | waiting deadline notified => exact Nat.le_refl 2
  | executing event => exact Nat.le_refl 2
  | returned => exact Nat.zero_le 2

theorem notify_ne_created {r : Runner ε} (hc : r ≠ .created) : r.notify ≠ .created := by
  cases r with
  | waiting deadline notified => exact fun e => nomatch e
  | _ => exact hc

end Runner

/-- A scheduler's store, its flag and its thread. -/
structure Loop (σ ε : Type) where
  store : Store σ ε
  /-- `_stop`. -/
  stop : Bool
  runner : Runner ε
  /-- The calls of `stop` between their two steps. -/
  stopping : Nat
  /-- A call of `stop` has returned. -/
  stopped : Bool
  /-- The events taken and the waits begun so far. -/
  takes : Nat
  waits : Nat

namespace Loop

/-- What the threads can do. -/
inductive Act (σ ε : Type) where
  | schedule (k : σ) (te : ε) (t : Option ℤ)
  | cancel (te : ε)
  | clear (k : σ)
  /-- The clock shows another time. -/
  | clock (t : ℤ)
  /-- `stop` sets the flag. -/
  | setStop
  /-- `stop` notifies and returns. -/
  | notifyStop
  /-- The thread enters `run`. -/
  | enter
  | test
  | turn
  /-- A wait ends. -/
  | wake
  /-- An event has been executed. -/
  | finish
deriving DecidableEq, Repr

/-- The thread makes the step. -/
def Act.ofRunner {σ ε : Type} : Act σ ε → Bool
  | .enter => true
  | .test => true
  | .turn => true
  | .wake => true
  | .finish => true
  | _ => false

/-! ## What is to hold -/

variable {σ ε : Type}

/-- No event of a queue is earlier than a deadline. -/
def Covers (k : σ) (store : Store σ ε) (deadline : Option ℤ) : Prop :=
  ∀ te ∈ store.queue k, ∃ d ∈ deadline, d ≤ (store.event te).time

/-- The deadline of a wait covers the queue, unless a notification is pending. -/
def Covered (k : σ) (s : Loop σ ε) : Prop :=
  ∀ deadline, s.runner = .waiting deadline false → Covers k s.store deadline

/-- The queue has lost events at most, and the others have their times. -/
theorem Covers.mono {k : σ} {store store' : Store σ ε} {deadline : Option ℤ}
    (h : Covers k store deadline)
    (hsub : ∀ te ∈ store'.queue k, te ∈ store.queue k ∧
      (store'.event te).time = (store.event te).time) : Covers k store' deadline := by
  intro te hm
  obtain ⟨hm', ht⟩ := hsub te hm
  rw [ht]
  exact h te hm'

/-- A call of `stop` begins when the thread has entered `run`. -/
def AfterEntry (s : Loop σ ε) (a : Act σ ε) : Prop := a = .setStop → s.runner ≠ .created

/-- What holds of the flag and of the thread when calls of `stop` begin after its
entry. -/
structure Stopping (s : Loop σ ε) : Prop where
  flag : s.stopping ≠ 0 ∨ s.stopped = true → s.stop = true ∧ s.runner ≠ .created
  down : s.stopped = true → s.runner.rank ≤ 2

/-- Where the thread cannot be once a call of `stop` has returned. -/
theorem Stopping.runner_ne {s : Loop σ ε} (h : s.Stopping) (hd : s.stopped = true) {r : Runner ε}
    (hr : 2 < r.rank) : s.runner ≠ r := by
  intro e
  have hrank := h.down hd
  rw [e] at hrank
  exact absurd hrank (Nat.not_le_of_lt hr)

/-! ## The steps -/

variable [DecidableEq σ] [DecidableEq ε]

/-- The mutex of a scheduler cannot be locked. -/
def locked (k : σ) (s : Loop σ ε) (k' : σ) : Bool := decide (k' = k) && s.runner.holdsMutex

def step (H : HeapAlgorithms) (k : σ) (s : Loop σ ε) : Act σ ε → Option (Loop σ ε)
  | .schedule k' te t =>
      if s.locked k k' then none
      else
        let r := s.store.schedule H k' te t
        some
          { s with
            store := r.store
            runner := if k' = k ∧ r.notifies then s.runner.notify else s.runner }
  | .cancel te => some { s with store := s.store.cancel te }
  | .clear k' => if s.locked k k' then none else some { s with store := s.store.clear H k' }
  | .clock t => some { s with store := { s.store with now := t } }
  | .setStop => some { s with stop := true, stopping := s.stopping + 1 }
  | .notifyStop =>
      if s.stopping = 0 ∨ s.runner.holdsMutex then none
      else some
        { s with runner := s.runner.notify, stopping := s.stopping - 1, stopped := true }
  | .enter =>
      match s.runner with
      | .created => some { s with stop := false, runner := .testing }
      | _ => none
  | .test =>
      match s.runner with
      | .testing => some { s with runner := if s.stop then .returned else .turning }
      | _ => none
  | .turn =>
      match s.runner with
      | .turning =>
          match s.store.turn H k with
          | (.wait, store) =>
              some { s with store, runner := .waiting none false, waits := s.waits + 1 }
          | (.waitUntil t, store) =>
              some { s with store, runner := .waiting (some t) false, waits := s.waits + 1 }
          | (.take event runs, store) =>
              some
                { s with
                  store
                  runner := if runs then .executing event else .testing
                  takes := s.takes + 1 }
      | _ => none
  | .wake =>
      match s.runner with
      | .waiting _ _ => some { s with runner := .testing }
      | _ => none
  | .finish =>
      match s.runner with
      | .executing _ => some { s with runner := .testing }
      | _ => none

/-- Empty queues, and a flag that is not initialised. -/
def start (now : ℤ) (times : ε → ℤ) (stop : Bool) : Loop σ ε where
  store := ⟨now, fun te => ⟨times te, none, false⟩, fun _ => []⟩
  stop := stop
  runner := .created
  stopping := 0
  stopped := false
  takes := 0
  waits := 0

/-! ## What a step does -/

/-- The steps, one rule for each outcome. -/
inductive Step (H : HeapAlgorithms) (k : σ) (s : Loop σ ε) : Act σ ε → Loop σ ε → Prop where
  | schedule {k' : σ} {te : ε} {t : Option ℤ} : s.locked k k' = false →
      Step H k s (.schedule k' te t)
        { s with
          store := (s.store.schedule H k' te t).store
          runner := if k' = k ∧ (s.store.schedule H k' te t).notifies then s.runner.notify
            else s.runner }
  | cancel {te : ε} : Step H k s (.cancel te) { s with store := s.store.cancel te }
  | clear {k' : σ} : s.locked k k' = false →
      Step H k s (.clear k') { s with store := s.store.clear H k' }
  | clock {t : ℤ} : Step H k s (.clock t) { s with store := { s.store with now := t } }
  | setStop : Step H k s .setStop { s with stop := true, stopping := s.stopping + 1 }
  | notifyStop : s.stopping ≠ 0 → s.runner.holdsMutex = false →
      Step H k s .notifyStop
        { s with runner := s.runner.notify, stopping := s.stopping - 1, stopped := true }
  | enter : s.runner = .created →
      Step H k s .enter { s with stop := false, runner := .testing }
  | leave : s.runner = .testing → s.stop = true →
      Step H k s .test { s with runner := .returned }
  | goOn : s.runner = .testing → s.stop = false →
      Step H k s .test { s with runner := .turning }
  | wait : s.runner = .turning → s.store.queue k = [] →
      Step H k s .turn { s with runner := .waiting none false, waits := s.waits + 1 }
  | waitUntil {event : ε} {rest : List ε} : s.runner = .turning →
      s.store.queue k = event :: rest → s.store.now < (s.store.event event).time →
      Step H k s .turn
        { s with
          runner := .waiting (some (s.store.event event).time) false
          waits := s.waits + 1 }
  | take {event : ε} {rest : List ε} : s.runner = .turning →
      s.store.queue k = event :: rest → (s.store.event event).time ≤ s.store.now →
      Step H k s .turn
        { s with
          store := s.store.pop H k event
          runner := if !(s.store.event event).cancelled then .executing event else .testing
          takes := s.takes + 1 }
  | wake {deadline : Option ℤ} {notified : Bool} : s.runner = .waiting deadline notified →
      Step H k s .wake { s with runner := .testing }
  | finish {event : ε} : s.runner = .executing event →
      Step H k s .finish { s with runner := .testing }

theorem step_cases {H : HeapAlgorithms} {k : σ} {s s' : Loop σ ε} {a : Act σ ε}
    (h : s.step H k a = some s') : Step H k s a s' := by
  cases a with
  | schedule k' te t =>
      rw [step] at h
      split at h
      next => cases h
      next hl =>
        obtain rfl := Option.some.inj h
        exact .schedule (by simpa using hl)
  | cancel te =>
      obtain rfl := Option.some.inj h
      exact .cancel
  | clear k' =>
      rw [step] at h
      split at h
      next => cases h
      next hl =>
        obtain rfl := Option.some.inj h
        exact .clear (by simpa using hl)
  | clock t =>
      obtain rfl := Option.some.inj h
      exact .clock
  | setStop =>
      obtain rfl := Option.some.inj h
      exact .setStop
  | notifyStop =>
      rw [step] at h
      split at h
      next => cases h
      next hn =>
        obtain rfl := Option.some.inj h
        rw [not_or, Bool.not_eq_true] at hn
        exact .notifyStop hn.1 hn.2
  | enter =>
      rw [step] at h
      split at h
      next hr =>
        obtain rfl := Option.some.inj h
        exact .enter hr
      next => cases h
  | test =>
      rw [step] at h
      split at h
      next hr =>
        obtain rfl := Option.some.inj h
        cases hstop : s.stop with
        | false => simpa [hstop] using Step.goOn (H := H) (k := k) hr hstop
        | true => simpa [hstop] using Step.leave (H := H) (k := k) hr hstop
      next => cases h
  | turn =>
      rw [step] at h
      split at h
      next hr =>
        cases ht : s.store.turn H k with
        | mk r store =>
            rw [ht] at h
            obtain ⟨rfl, rfl, hq⟩ | ⟨event, rest, hq, ⟨rfl, rfl, hlt⟩ | ⟨rfl, rfl, hle⟩⟩ :=
              Store.turn_cases ht
            · obtain rfl := Option.some.inj h
              exact .wait hr hq
            · obtain rfl := Option.some.inj h
              exact .waitUntil hr hq hlt
            · obtain rfl := Option.some.inj h
              exact .take hr hq hle
      next => cases h
  | wake =>
      rw [step] at h
      split at h
      next hr =>
        obtain rfl := Option.some.inj h
        exact .wake hr
      next => cases h
  | finish =>
      rw [step] at h
      split at h
      next hr =>
        obtain rfl := Option.some.inj h
        exact .finish hr
      next => cases h

/-- Every step keeps the queues in order. -/
theorem good_step {H : HeapAlgorithms} {k : σ} {s s' : Loop σ ε} {a : Act σ ε}
    (hg : s.store.Good) (hs : s.step H k a = some s') : s'.store.Good := by
  cases step_cases hs with
  | schedule => exact hg.schedule H _ _ _
  | cancel => exact hg.cancel _
  | clear => exact (Store.clear_spec hg H _).1
  | clock => exact ⟨hg.nodup, hg.qued, hg.heap⟩
  | setStop => exact hg
  | notifyStop => exact hg
  | enter => exact hg
  | leave => exact hg
  | goOn => exact hg
  | wait => exact hg
  | waitUntil => exact hg
  | take _ hq => exact hg.pop H hq
  | wake => exact hg
  | finish => exact hg

/-! ## Deadlines -/

/-- A `schedule` that does not notify pushes an event that is later than one of the
queue. -/
theorem covers_schedule {H : HeapAlgorithms} {k k' : σ} {store : Store σ ε} {te : ε}
    {t deadline : Option ℤ} (hg : store.Good) (h : Covers k store deadline)
    (hn : ¬(k' = k ∧ (store.schedule H k' te t).notifies)) :
    Covers k (store.schedule H k' te t).store deadline := by
  by_cases hte : (store.event te).qued = none
  · have hold : ∀ te' ∈ store.queue k,
        ((store.schedule H k' te t).store.event te').time = (store.event te').time := by
      intro te' hm
      have hne : te' ≠ te := by
        rintro rfl
        exact hg.notMem hte k hm
      rw [Store.schedule_event hte, if_neg hne]
    by_cases hk : k' = k
    · subst hk
      obtain ⟨top, htop, hlt⟩ := Store.later_of_not_notifies hte (fun h => hn ⟨rfl, h⟩)
      obtain ⟨d, hd, hle⟩ := h top htop
      intro te' hm
      rw [Store.schedule_queue hte, if_pos rfl, (H.push_perm _ _ _).mem_iff, List.mem_cons] at hm
      cases hm with
      | inl he =>
          rw [he]
          exact ⟨d, hd, hle.trans hlt.le⟩
      | inr hm =>
          rw [hold te' hm]
          exact h te' hm
    · refine h.mono fun te' hm => ?_
      rw [Store.schedule_queue hte, if_neg (Ne.symm hk)] at hm
      exact ⟨hm, hold te' hm⟩
  · rw [Store.schedule_of_qued hte]
    exact h

/-- Every step keeps the deadline of a wait. -/
theorem covered_step {H : HeapAlgorithms} {k : σ} {s s' : Loop σ ε} {a : Act σ ε}
    (hg : s.store.Good) (h : s.Covered k) (hs : s.step H k a = some s') : s'.Covered k := by
  intro deadline hw
  cases step_cases hs with
  | schedule =>
      dsimp only at hw
      split at hw
      next =>
        -- a notification is pending
        cases hr : s.runner with
        | waiting deadline' notified =>
            rw [hr] at hw
            cases hw
        | _ =>
            rw [hr] at hw
            cases hw
      next hn => exact covers_schedule hg (h deadline hw) hn
  | @cancel te =>
      refine (h deadline hw).mono fun te' hm => ?_
      dsimp only at hm ⊢
      rw [Store.cancel_queue] at hm
      refine ⟨hm, ?_⟩
      rw [Store.cancel_event]
      split
      next he => rw [he.1]
      next => rfl
  | @clear k' =>
      obtain ⟨-, hempty, hcleared⟩ := Store.clear_spec hg H k'
      refine (h deadline hw).mono fun te hm => ?_
      dsimp only at hm ⊢
      by_cases hk : k = k'
      · rw [hk, hempty] at hm
        cases hm
      · rw [hcleared.queue k hk] at hm
        refine ⟨hm, ?_⟩
        cases hcleared.event te with
        | inl he => rw [he]
        | inr he => rw [he]
  | clock => exact h deadline hw
  | setStop => exact h deadline hw
  | notifyStop =>
      dsimp only at hw
      cases hr : s.runner with
      | waiting deadline' notified =>
          rw [hr] at hw
          cases hw
      | _ =>
          rw [hr] at hw
          cases hw
  | enter => cases hw
  | leave => cases hw
  | goOn => cases hw
  | wait hr hq =>
      intro te hm
      dsimp only at hm
      rw [hq] at hm
      cases hm
  | waitUntil hr hq =>
      cases hw
      exact fun te hm => ⟨_, rfl, hg.top hq te hm⟩
  | take =>
      dsimp only at hw
      split at hw
      next => cases hw
      next => cases hw
  | wake => cases hw
  | finish => cases hw

/-- **The thread never oversleeps.**  In every reachable state in which it waits
without a pending notification, no event of the queue is earlier than the
deadline, and the queue is empty when there is none. -/
theorem covered_of_reachable {H : HeapAlgorithms} {k : σ} {now : ℤ} {times : ε → ℤ} {stop : Bool}
    {s : Loop σ ε} (hr : Reachable (step H k) (fun _ _ => True) (start now times stop) s) :
    s.Covered k := by
  have hgood : ∀ s, Reachable (step H k) (fun _ _ => True) (start now times stop) s →
      s.store.Good := by
    intro s hr
    induction hr with
    | start => exact (History.good_start now times).store
    | next _ _ hs ih => exact good_step ih hs
  refine Reachable.strengthen hgood ?_ (fun _ _ _ hg hc _ hs => covered_step hg hc hs) hr
  intro deadline hw
  cases hw

/-- The thread waits for an event, and a later one is scheduled. -/
def laterEvent : List (Act Unit Nat) :=
  [.schedule () 0 (some 9), .enter, .test, .turn, .schedule () 1 (some 12)]

theorem covered_of_reachable_sample :
    ∃ s : Loop Unit Nat, s.runner = .waiting (some 9) false ∧ s.store.queue () = [0, 1] ∧
      s.Covered () := by
  have hrun : (run (step HeapAlgorithms.canonical ()) (start 0 (fun _ => 0) false) laterEvent).map
      (fun s => decide (s.runner = .waiting (some 9) false ∧ s.store.queue () = [0, 1])) =
        some true := by decide +kernel
  obtain ⟨s, hr, hw, hq⟩ := Reachable.exists_of_run (fun _ _ _ => trivial) hrun
  exact ⟨s, hw, hq, covered_of_reachable hr⟩

/-! ## Stopping -/

/-- The thread takes no event and begins no wait any more, makes two steps at most,
and can make one until it has returned. -/
def WindsDown (H : HeapAlgorithms) (k : σ) (s : Loop σ ε) : Prop :=
  ∀ acts s', run (step H k) s acts = some s' →
    s'.takes = s.takes ∧ s'.waits = s.waits ∧ acts.countP Act.ofRunner ≤ 2 ∧
      (s'.runner ≠ .returned → ∃ a, a.ofRunner = true ∧ (s'.step H k a).isSome)

theorem Stopping.step {H : HeapAlgorithms} {k : σ} {s s' : Loop σ ε} {a : Act σ ε}
    (h : s.Stopping) (hok : s.AfterEntry a) (hs : s.step H k a = some s') : s'.Stopping := by
  cases step_cases hs with
  | schedule =>
      have hne : ∀ b : Prop, [Decidable b] → s.runner ≠ .created →
          (if b then s.runner.notify else s.runner) ≠ .created := by
        intro b _ hc
        split
        next => exact Runner.notify_ne_created hc
        next => exact hc
      refine ⟨fun hf => ⟨(h.flag hf).1, hne _ (h.flag hf).2⟩, fun hd => ?_⟩
      dsimp only
      split
      next => exact (Runner.rank_notify_le _).trans (h.down hd)
      next => exact h.down hd
  | cancel => exact ⟨h.flag, h.down⟩
  | clear => exact ⟨h.flag, h.down⟩
  | clock => exact ⟨h.flag, h.down⟩
  | setStop => exact ⟨fun _ => ⟨rfl, hok rfl⟩, h.down⟩
  | notifyStop hn hm =>
      obtain ⟨hstop, hc⟩ := h.flag (Or.inl hn)
      exact ⟨fun _ => ⟨hstop, Runner.notify_ne_created hc⟩, fun _ => Runner.rank_notify hm hc⟩
  | enter hr => exact ⟨fun hf => absurd hr (h.flag hf).2, fun _ => Nat.le_succ 1⟩
  | leave => exact ⟨fun hf => ⟨(h.flag hf).1, fun e => nomatch e⟩, fun _ => Nat.zero_le 2⟩
  | goOn hr hstop =>
      refine ⟨fun hf => ⟨(h.flag hf).1, fun e => nomatch e⟩, fun hd => ?_⟩
      rw [(h.flag (Or.inr hd)).1] at hstop
      cases hstop
  | wait hr =>
      exact ⟨fun hf => ⟨(h.flag hf).1, fun e => nomatch e⟩,
        fun hd => absurd hr (h.runner_ne hd (Nat.lt_succ_self 2))⟩
  | waitUntil hr =>
      exact ⟨fun hf => ⟨(h.flag hf).1, fun e => nomatch e⟩,
        fun hd => absurd hr (h.runner_ne hd (Nat.lt_succ_self 2))⟩
  | take hr =>
      refine ⟨fun hf => ⟨(h.flag hf).1, ?_⟩,
        fun hd => absurd hr (h.runner_ne hd (Nat.lt_succ_self 2))⟩
      dsimp only
      split
      next => exact fun e => nomatch e
      next => exact fun e => nomatch e
  | wake => exact ⟨fun hf => ⟨(h.flag hf).1, fun e => nomatch e⟩, fun _ => Nat.le_succ 1⟩
  | finish => exact ⟨fun hf => ⟨(h.flag hf).1, fun e => nomatch e⟩, fun _ => Nat.le_succ 1⟩

/-- A step after a call of `stop` has returned.  The thread comes nearer to its
return with each of its steps. -/
theorem Stopping.step_stopped {H : HeapAlgorithms} {k : σ} {s s' : Loop σ ε} {a : Act σ ε}
    (h : s.Stopping) (hd : s.stopped = true) (hs : s.step H k a = some s') :
    s'.stopped = true ∧ s'.takes = s.takes ∧ s'.waits = s.waits ∧
      [a].countP Act.ofRunner + s'.runner.rank ≤ s.runner.rank := by
  obtain ⟨hstop, -⟩ := h.flag (Or.inr hd)
  cases step_cases hs with
  | schedule =>
      refine ⟨hd, rfl, rfl, ?_⟩
      rw [List.countP_singleton, if_neg (by simp [Act.ofRunner]), Nat.zero_add]
      dsimp only
      split
      next => exact Runner.rank_notify_le _
      next => exact Nat.le_refl _
  | cancel => exact ⟨hd, rfl, rfl, by simp [Act.ofRunner]⟩
  | clear => exact ⟨hd, rfl, rfl, by simp [Act.ofRunner]⟩
  | clock => exact ⟨hd, rfl, rfl, by simp [Act.ofRunner]⟩
  | setStop => exact ⟨hd, rfl, rfl, by simp [Act.ofRunner]⟩
  | notifyStop =>
      refine ⟨rfl, rfl, rfl, ?_⟩
      rw [List.countP_singleton, if_neg (by simp [Act.ofRunner]), Nat.zero_add]
      exact Runner.rank_notify_le _
  | enter hr => exact absurd hr (h.runner_ne hd (Nat.lt_succ_self 2))
  | leave hr => exact ⟨hd, rfl, rfl, by simp [Act.ofRunner, hr, Runner.rank]⟩
  | goOn hr hgo =>
      rw [hstop] at hgo
      cases hgo
  | wait hr => exact absurd hr (h.runner_ne hd (Nat.lt_succ_self 2))
  | waitUntil hr => exact absurd hr (h.runner_ne hd (Nat.lt_succ_self 2))
  | take hr => exact absurd hr (h.runner_ne hd (Nat.lt_succ_self 2))
  | @wake deadline notified hr =>
      cases notified with
      | false => exact absurd hr (h.runner_ne hd (Nat.lt_succ_self 2))
      | true => exact ⟨hd, rfl, rfl, by simp [Act.ofRunner, hr, Runner.rank]⟩
  | finish hr => exact ⟨hd, rfl, rfl, by simp [Act.ofRunner, hr, Runner.rank]⟩

/-- A thread that is to stop can make a step. -/
theorem Stopping.can_step {s : Loop σ ε} (h : s.Stopping) (hd : s.stopped = true)
    (hr : s.runner ≠ .returned) (H : HeapAlgorithms) (k : σ) :
    ∃ a, a.ofRunner = true ∧ (s.step H k a).isSome := by
  cases hrun : s.runner with
  | created => exact absurd hrun (h.runner_ne hd (Nat.lt_succ_self 2))
  | testing => exact ⟨.test, rfl, by simp [Loop.step, hrun]⟩
  | turning => exact absurd hrun (h.runner_ne hd (Nat.lt_succ_self 2))
  | waiting deadline notified => exact ⟨.wake, rfl, by simp [Loop.step, hrun]⟩
  | executing event => exact ⟨.finish, rfl, by simp [Loop.step, hrun]⟩
  | returned => exact absurd hrun hr

/-- Some steps after a call of `stop` has returned. -/
theorem Stopping.run_stopped {H : HeapAlgorithms} {k : σ} {acts : List (Act σ ε)}
    {s s' : Loop σ ε} (h : s.Stopping) (hd : s.stopped = true)
    (hrun : run (Loop.step H k) s acts = some s') :
    s'.Stopping ∧ s'.stopped = true ∧ s'.takes = s.takes ∧ s'.waits = s.waits ∧
      acts.countP Act.ofRunner + s'.runner.rank ≤ s.runner.rank := by
  induction acts generalizing s with
  | nil =>
      obtain rfl := Option.some.inj hrun
      exact ⟨h, hd, rfl, rfl, by simp⟩
  | cons a acts ih =>
      cases hs : Loop.step H k s a with
      | none =>
          rw [run, hs] at hrun
          cases hrun
      | some s₁ =>
          rw [run, hs, Option.bind_some] at hrun
          -- the thread has entered `run` long ago
          have hok : s.AfterEntry a := fun _ => (h.flag (Or.inr hd)).2
          obtain ⟨hd₁, htakes, hwaits, hrank⟩ := h.step_stopped hd hs
          obtain ⟨h', hd', htakes', hwaits', hrank'⟩ := ih (h.step hok hs) hd₁ hrun
          refine ⟨h', hd', htakes'.trans htakes, hwaits'.trans hwaits, ?_⟩
          rw [← List.singleton_append, List.countP_append]
          omega

/-- **The thread stops.**  In a run in which calls of `stop` begin after the thread
has entered `run`, the thread winds down as soon as one of them has returned. -/
theorem winds_down {H : HeapAlgorithms} {k : σ} {now : ℤ} {times : ε → ℤ} {stop : Bool}
    {s : Loop σ ε} (hr : Reachable (step H k) AfterEntry (start now times stop) s)
    (hd : s.stopped = true) : WindsDown H k s := by
  have hstart : (start now times stop : Loop σ ε).Stopping :=
    ⟨fun hf => by simp [start] at hf, fun hf => by simp [start] at hf⟩
  have h : s.Stopping := hr.invariant hstart fun _ _ _ hi hok hs => hi.step hok hs
  intro acts s' hrun
  obtain ⟨h', hd', htakes, hwaits, hrank⟩ := h.run_stopped hd hrun
  have htwo := h.down hd
  exact ⟨htakes, hwaits, by omega, fun hn => h'.can_step hd' hn H k⟩

theorem winds_down_sample :
    ∃ s : Loop Unit Nat, s.runner = .waiting none true ∧
      WindsDown HeapAlgorithms.canonical () s := by
  have hok : ∀ s : Loop Unit Nat, ∀ a ∈ [Act.enter, .test, .turn], s.AfterEntry a := by
    simp [AfterEntry]
  have hrun : (run (step HeapAlgorithms.canonical ())
      (start 0 (fun _ => 0) false : Loop Unit Nat) [.enter, .test, .turn]).map
        (fun s => decide (s.runner = .waiting none false)) = some true := by decide +kernel
  obtain ⟨s, hr, hw⟩ := Reachable.exists_of_run hok hrun
  -- the thread waits on an empty queue, and `stop` is called
  have hset := hr.next (a := .setStop) (fun _ => by rw [hw]; exact fun e => nomatch e) rfl
  have hnotify : step HeapAlgorithms.canonical ()
      { s with stop := true, stopping := s.stopping + 1 } .notifyStop =
        some
          { s with
            stop := true
            runner := .waiting none true
            stopping := s.stopping
            stopped := true } := by
    simp [step, hw, Runner.holdsMutex, Runner.notify]
  have hstopped := hset.next (a := .notifyStop) (fun e => nomatch e) hnotify
  exact ⟨_, rfl, winds_down hstopped rfl⟩

/-- `stop` is called before the thread enters `run`. -/
def earlyStop : List (Act Unit Nat) := [.setStop, .notifyStop]

/-- A call of `stop` that begins too early is lost: the thread waits for ever. -/
theorem early_stop_is_lost :
    ¬∀ (H : HeapAlgorithms) (s : Loop Unit Nat),
      Reachable (step H ()) (fun _ _ => True) (start 0 (fun _ => 0) false) s →
        s.stopped = true → WindsDown H () s := by
  intro h
  have hrun : (run (step HeapAlgorithms.canonical ()) (start 0 (fun _ => 0) false)
      earlyStop).map (fun s => decide (s.stopped = true ∧ s.waits = 0 ∧
        (run (step HeapAlgorithms.canonical ()) s [.enter, .test, .turn]).map
          (fun s => s.waits) = some 1)) = some true := by decide +kernel
  obtain ⟨s, hr, hd, h0, h1⟩ := Reachable.exists_of_run (fun _ _ _ => trivial) hrun
  obtain ⟨s', hs', hw⟩ := Option.map_eq_some_iff.mp h1
  have hwaits := (h _ s hr hd _ s' hs').2.1
  rw [hw, h0] at hwaits
  cases hwaits

end Loop

end EventQueue

end Undervest
