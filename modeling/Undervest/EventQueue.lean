import Undervest.Lib.Heap
import Undervest.Lib.Transition
import Mathlib.Logic.Function.Basic

/-!
# The event queues of schedulers

An event is an object that several schedulers and callers share.  It holds its
time, a pointer to the scheduler that has queued it (`qued`), and a flag that
`cancel` sets.  A scheduler holds a priority queue of events, ordered by the
times the events hold at the moment of a comparison.

`schedule`, `clear` and a turn of `run` are atomic, since they hold the mutex,
and `cancel` is one test and one assignment.  What an event does when it runs is
some more of these operations.  The clock may show any time.

`Store.Good` says that the queues and the pointers agree and that each queue is
a heap.  All operations keep it, because the time of an event is written only
while it is in no queue.

`History` adds to the store what has happened: each successful `schedule` has a
ticket, and an execution and a cancellation carry the ticket of the `schedule`
they belong to.
-/

namespace Undervest

open Unordered Heap Transition

namespace EventQueue

/-! ## The store -/

/-- `_TimedEventData`, without the routine.  `σ` are the schedulers. -/
structure TimedEventData (σ : Type) where
  time : ℤ
  qued : Option σ
  cancelled : Bool
deriving DecidableEq, Repr

/-- The schedulers and the events `ε`. -/
structure Store (σ ε : Type) where
  /-- What `Clock::now` returns. -/
  now : ℤ
  event : ε → TimedEventData σ
  /-- The vector of the priority queue. -/
  queue : σ → List ε

/-- What a call of `schedule` does. -/
structure Scheduled (σ ε : Type) where
  /-- The result. -/
  fails : Bool
  /-- The condition variable is notified. -/
  notifies : Bool
  store : Store σ ε

/-- What one turn of the loop of `run` does, behind the test of `_stop`. -/
inductive Turn (ε : Type) where
  | wait
  | waitUntil (t : ℤ)
  /-- The event is taken from the queue, and executed unless it was cancelled. -/
  | take (event : ε) (runs : Bool)
deriving DecidableEq, Repr

namespace Store

variable {σ ε : Type}

/-- `TimedEventGreater`. -/
def greater (s : Store σ ε) (p1 p2 : ε) : Bool := (s.event p1).time > (s.event p2).time

variable [DecidableEq σ] [DecidableEq ε]

def setEvent (s : Store σ ε) (te : ε) (d : TimedEventData σ) : Store σ ε :=
  { s with event := Function.update s.event te d }

def setQueue (s : Store σ ε) (k : σ) (q : List ε) : Store σ ε :=
  { s with queue := Function.update s.queue k q }

/-- `schedule`. -/
def schedule (H : HeapAlgorithms) (s : Store σ ε) (k : σ) (te : ε) (t : Option ℤ) :
    Scheduled σ ε :=
  if (s.event te).qued.isSome then ⟨true, false, s⟩
  else
    let s := s.setEvent te ⟨t.getD (s.event te).time, some k, false⟩
    let s := s.setQueue k (H.push s.greater (s.queue k) te)
    ⟨false, (s.queue k).head?.all fun top => (s.event te).time ≤ (s.event top).time, s⟩

/-- `reschedule` with a duration. -/
def reschedule (H : HeapAlgorithms) (s : Store σ ε) (k : σ) (te : ε) (d : ℤ) : Scheduled σ ε :=
  s.schedule H k te (some (s.now + d))

/-- `cancel`. -/
def cancel (s : Store σ ε) (te : ε) : Store σ ε :=
  if (s.event te).qued.isSome then s.setEvent te { s.event te with cancelled := true } else s

/-- Take the first event from a queue. -/
def pop (H : HeapAlgorithms) (s : Store σ ε) (k : σ) (event : ε) : Store σ ε :=
  (s.setQueue k (H.pop s.greater (s.queue k))).setEvent event { s.event event with qued := none }

/-- The loop of `clear`, with a bound on its turns. -/
def clearLoop (H : HeapAlgorithms) (k : σ) : Nat → Store σ ε → Store σ ε
  | 0, s => s
  | turns + 1, s =>
      match s.queue k with
      | [] => s
      | event :: _ => clearLoop H k turns (s.pop H k event)

/-- `clear`.  Each turn takes one event. -/
def clear (H : HeapAlgorithms) (s : Store σ ε) (k : σ) : Store σ ε :=
  clearLoop H k (s.queue k).length s

/-- One turn of the loop of `run`. -/
def turn (H : HeapAlgorithms) (s : Store σ ε) (k : σ) : Turn ε × Store σ ε :=
  match s.queue k with
  | [] => (.wait, s)
  | event :: _ =>
      if s.now < (s.event event).time then (.waitUntil (s.event event).time, s)
      else (.take event (!(s.event event).cancelled), s.pop H k event)

/-! ## Queues and pointers -/

section Good

variable {σ ε : Type} {s s' : Store σ ε}

/-- The queues and the pointers agree, and the queues are heaps. -/
structure Good (s : Store σ ε) : Prop where
  nodup : ∀ k, (s.queue k).Nodup
  qued : ∀ k te, te ∈ s.queue k ↔ (s.event te).qued = some k
  heap : ∀ k, IsHeap s.greater (s.queue k)

theorem greater_strictWeak (s : Store σ ε) : StrictWeak s.greater where
  asymm a b h := by
    simp only [greater, decide_eq_true_eq, decide_eq_false_iff_not] at h ⊢
    omega
  negTrans a b c hab hbc := by
    simp only [greater, decide_eq_false_iff_not] at hab hbc ⊢
    omega

/-- The first event of a queue is an earliest one. -/
theorem Good.top (h : s.Good) {k : σ} {top : ε} {rest : List ε}
    (hq : s.queue k = top :: rest) : ∀ te ∈ s.queue k, (s.event top).time ≤ (s.event te).time := by
  intro te hm
  have hheap := h.heap k
  rw [hq] at hheap hm
  have hle := hheap.top s.greater_strictWeak te hm
  simpa [greater] using hle

/-- A heap stays one while the times of its events stay. -/
theorem isHeap_of_times {q : List ε} (h : IsHeap s.greater q)
    (ht : ∀ te ∈ q, (s'.event te).time = (s.event te).time) : IsHeap s'.greater q := by
  refine h.congr fun a ha b hb => ?_
  rw [greater, greater, ht a ha, ht b hb]

/-- An event that points to no scheduler is in no queue. -/
theorem Good.notMem (h : s.Good) {te : ε} (hte : (s.event te).qued = none) (k : σ) :
    te ∉ s.queue k := by
  rw [h.qued, hte]
  exact fun e => nomatch e

end Good

/-! ## Cancelling -/

section Cancel

variable {σ ε : Type} [DecidableEq ε]

theorem cancel_event (s : Store σ ε) (te te' : ε) :
    (s.cancel te).event te' =
      if te' = te ∧ (s.event te).qued.isSome then { s.event te with cancelled := true }
      else s.event te' := by
  unfold cancel
  split
  next h => simp [setEvent, Function.update_apply, h]
  next h => simp [h]

theorem cancel_queue (s : Store σ ε) (te : ε) : (s.cancel te).queue = s.queue := by
  unfold cancel
  split
  next => rfl
  next => rfl

theorem Good.cancel {s : Store σ ε} (h : s.Good) (te : ε) : (s.cancel te).Good := by
  refine ⟨fun k => ?_, fun k te' => ?_, fun k => ?_⟩
  · rw [cancel_queue]
    exact h.nodup k
  · rw [cancel_queue, cancel_event, h.qued]
    split
    next he => rw [he.1]
    next => exact Iff.rfl
  · rw [cancel_queue]
    refine isHeap_of_times (h.heap k) fun te' _ => ?_
    rw [cancel_event]
    split
    next he => rw [he.1]
    next => rfl

end Cancel

/-! ## What the other operations do -/

section Operations

variable {s : Store σ ε} {te : ε}

theorem schedule_of_qued (h : (s.event te).qued ≠ none) (H : HeapAlgorithms) (k : σ)
    (t : Option ℤ) : s.schedule H k te t = ⟨true, false, s⟩ := by
  rw [schedule, if_pos (Option.isSome_iff_ne_none.mpr h)]

theorem schedule_fails (h : (s.event te).qued = none) (H : HeapAlgorithms) (k : σ)
    (t : Option ℤ) : (s.schedule H k te t).fails = false := by
  simp [schedule, h]

theorem schedule_event (h : (s.event te).qued = none) (H : HeapAlgorithms) (k : σ)
    (t : Option ℤ) (te' : ε) :
    (s.schedule H k te t).store.event te' =
      if te' = te then ⟨t.getD (s.event te).time, some k, false⟩ else s.event te' := by
  simp [schedule, h, setEvent, setQueue, Function.update_apply]

/-- The event is pushed into the queue of the scheduler. -/
theorem schedule_queue (h : (s.event te).qued = none) (H : HeapAlgorithms) (k : σ)
    (t : Option ℤ) (k' : σ) :
    (s.schedule H k te t).store.queue k' =
      if k' = k then H.push (s.schedule H k te t).store.greater (s.queue k) te
      else s.queue k' := by
  simp only [schedule, h, Option.isSome_none, Bool.false_eq_true, if_false, setQueue, setEvent,
    Function.update_apply]
  rfl

/-- A call that does not notify pushes an event behind an earlier one. -/
theorem later_of_not_notifies (h : (s.event te).qued = none) {H : HeapAlgorithms} {k : σ}
    {t : Option ℤ} (hn : ¬(s.schedule H k te t).notifies = true) :
    ∃ top ∈ s.queue k,
      (s.event top).time < ((s.schedule H k te t).store.event te).time := by
  have hnotifies : (s.schedule H k te t).notifies =
      ((s.schedule H k te t).store.queue k).head?.all fun top =>
        ((s.schedule H k te t).store.event te).time ≤
          ((s.schedule H k te t).store.event top).time := by
    simp [schedule, h]
  rw [hnotifies] at hn
  cases hq : (s.schedule H k te t).store.queue k with
  | nil =>
      rw [hq] at hn
      exact absurd rfl hn
  | cons top rest =>
      rw [hq] at hn
      have hlt : ((s.schedule H k te t).store.event top).time <
          ((s.schedule H k te t).store.event te).time := by
        simpa using hn
      have hne : top ≠ te := by
        rintro rfl
        exact lt_irrefl _ hlt
      have hmem : top ∈ (s.schedule H k te t).store.queue k := by simp [hq]
      rw [schedule_queue h, if_pos rfl, (H.push_perm _ _ _).mem_iff, List.mem_cons,
        or_iff_right hne] at hmem
      rw [schedule_event h H k t top, if_neg hne] at hlt
      exact ⟨top, hmem, hlt⟩

theorem pop_event (H : HeapAlgorithms) (s : Store σ ε) (k : σ) (event te : ε) :
    (s.pop H k event).event te =
      if te = event then { s.event event with qued := none } else s.event te := by
  simp [pop, setEvent, setQueue, Function.update_apply]

theorem pop_event_cases (H : HeapAlgorithms) (s : Store σ ε) (k : σ) (event te : ε) :
    (s.pop H k event).event te = s.event te ∨
      (s.pop H k event).event te = { s.event te with qued := none } := by
  rw [pop_event]
  split
  next h => exact Or.inr (by rw [h])
  next => exact Or.inl rfl

theorem pop_queue (H : HeapAlgorithms) (s : Store σ ε) (k k' : σ) (event : ε) :
    (s.pop H k event).queue k' = if k' = k then H.pop s.greater (s.queue k) else s.queue k' := by
  simp [pop, setEvent, setQueue, Function.update_apply]

/-- Taking an event leaves all times as they are. -/
theorem pop_time (H : HeapAlgorithms) (s : Store σ ε) (k : σ) (event te : ε) :
    ((s.pop H k event).event te).time = (s.event te).time := by
  cases pop_event_cases H s k event te with
  | inl h => rw [h]
  | inr h => rw [h]

end Operations

/-! ## They keep the queues in order -/

theorem Good.schedule {s : Store σ ε} (h : s.Good) (H : HeapAlgorithms) (k : σ) (te : ε)
    (t : Option ℤ) : (s.schedule H k te t).store.Good := by
  cases hte : (s.event te).qued with
  | some k' =>
      rw [schedule_of_qued (by simp [hte])]
      exact h
  | none =>
      have htimes : ∀ k', ∀ te' ∈ s.queue k',
          ((s.schedule H k te t).store.event te').time = (s.event te').time := by
        intro k' te' hm
        have hne : te' ≠ te := by
          rintro rfl
          exact h.notMem hte k' hm
        rw [schedule_event hte, if_neg hne]
      have hperm := H.push_perm (s.schedule H k te t).store.greater (s.queue k) te
      refine ⟨fun k' => ?_, fun k' te' => ?_, fun k' => ?_⟩
      · rw [schedule_queue hte]
        split
        next => exact hperm.nodup_iff.mpr (List.nodup_cons.mpr ⟨h.notMem hte k, h.nodup k⟩)
        next => exact h.nodup k'
      · rw [schedule_queue hte, schedule_event hte]
        split
        next hk =>
          rw [hperm.mem_iff, List.mem_cons, hk]
          split
          next he => simp [he]
          next he => rw [or_iff_right he, h.qued]
        next hk =>
          split
          next he =>
            rw [he]
            exact iff_of_false (h.notMem hte k') fun e => hk (Option.some.inj e).symm
          next => exact h.qued k' te'
      · rw [schedule_queue hte]
        split
        next =>
          exact H.push_isHeap te (greater_strictWeak _) (isHeap_of_times (h.heap k) (htimes k))
        next => exact isHeap_of_times (h.heap k') (htimes k')

theorem Good.pop {s : Store σ ε} (h : s.Good) (H : HeapAlgorithms) {k : σ} {event : ε}
    {rest : List ε} (hq : s.queue k = event :: rest) : (s.pop H k event).Good := by
  have hperm : (H.pop s.greater (s.queue k)).Perm rest := by
    simpa [hq] using H.pop_perm s.greater (s.queue k)
  have hnodup := h.nodup k
  rw [hq, List.nodup_cons] at hnodup
  have hqued : (s.event event).qued = some k := (h.qued k event).mp (by simp [hq])
  refine ⟨fun k' => ?_, fun k' te => ?_, fun k' => ?_⟩
  · rw [pop_queue]
    split
    next => exact hperm.nodup_iff.mpr hnodup.2
    next => exact h.nodup k'
  · rw [pop_queue, pop_event]
    split
    next hk =>
      subst hk
      rw [hperm.mem_iff]
      split
      next he => simp [he, hnodup.1]
      next he => rw [← h.qued, hq, List.mem_cons, or_iff_right he]
    next hk =>
      rw [h.qued]
      split
      next he => simp [he, hqued, Ne.symm hk]
      next => exact Iff.rfl
  · rw [pop_queue]
    split
    next =>
      exact isHeap_of_times (H.pop_isHeap s.greater_strictWeak (h.heap k)) fun te _ =>
        pop_time H s k event te
    next => exact isHeap_of_times (h.heap k') fun te _ => pop_time H s k event te

/-- What a loop that takes events does to a store. -/
structure Cleared (k : σ) (s s' : Store σ ε) : Prop where
  now : s'.now = s.now
  queue : ∀ k', k' ≠ k → s'.queue k' = s.queue k'
  event : ∀ te, s'.event te = s.event te ∨ s'.event te = { s.event te with qued := none }

theorem clearLoop_spec (H : HeapAlgorithms) (k : σ) {turns : Nat} {s : Store σ ε} (h : s.Good)
    (hlen : (s.queue k).length ≤ turns) :
    (clearLoop H k turns s).Good ∧ (clearLoop H k turns s).queue k = [] ∧
      Cleared k s (clearLoop H k turns s) := by
  induction turns generalizing s with
  | zero =>
      exact ⟨h, List.length_eq_zero_iff.mp (Nat.le_zero.mp hlen), rfl, fun _ _ => rfl,
        fun _ => Or.inl rfl⟩
  | succ turns ih =>
      cases hq : s.queue k with
      | nil =>
          rw [clearLoop, hq]
          exact ⟨h, hq, rfl, fun _ _ => rfl, fun _ => Or.inl rfl⟩
      | cons event rest =>
          rw [clearLoop, hq]
          have hpop : ((s.pop H k event).queue k).length ≤ turns := by
            rw [pop_queue, if_pos rfl, (H.pop_perm _ _).length_eq, hq]
            rw [hq] at hlen
            simpa using hlen
          obtain ⟨hgood, hempty, hcleared⟩ := ih (h.pop H hq) hpop
          refine ⟨hgood, hempty, hcleared.now, fun k' hk => ?_, fun te => ?_⟩
          · rw [hcleared.queue k' hk, pop_queue, if_neg hk]
          · have he := hcleared.event te
            rw [pop_event] at he
            split at he
            next hte => exact Or.inr (by simpa [hte] using he)
            next => exact he

theorem clear_spec {s : Store σ ε} (h : s.Good) (H : HeapAlgorithms) (k : σ) :
    (s.clear H k).Good ∧ (s.clear H k).queue k = [] ∧ Cleared k s (s.clear H k) :=
  clearLoop_spec H k h (Nat.le_refl _)

/-- What a turn does. -/
theorem turn_cases {s s' : Store σ ε} {H : HeapAlgorithms} {k : σ} {r : Turn ε}
    (h : s.turn H k = (r, s')) :
    (r = .wait ∧ s' = s ∧ s.queue k = []) ∨
      ∃ event rest, s.queue k = event :: rest ∧
        ((r = .waitUntil (s.event event).time ∧ s' = s ∧ s.now < (s.event event).time) ∨
          (r = .take event (!(s.event event).cancelled) ∧ s' = s.pop H k event ∧
            (s.event event).time ≤ s.now)) := by
  rw [turn] at h
  cases hq : s.queue k with
  | nil =>
      rw [hq] at h
      cases h
      exact Or.inl ⟨rfl, rfl, rfl⟩
  | cons event rest =>
      rw [hq] at h
      right
      refine ⟨event, rest, rfl, ?_⟩
      dsimp only at h
      split at h
      next hlt =>
        cases h
        exact Or.inl ⟨rfl, rfl, hlt⟩
      next hle =>
        cases h
        exact Or.inr ⟨rfl, rfl, Int.not_lt.mp hle⟩

end Store

/-! ## What has happened -/

/-- A successful call of `schedule`. -/
structure Schedule (σ ε : Type) where
  scheduler : σ
  event : ε
  time : ℤ
deriving DecidableEq, Repr

/-- An execution of an event, with the ticket of its `schedule`. -/
structure Execution (σ ε : Type) where
  ticket : Nat
  scheduler : σ
  event : ε
  now : ℤ
deriving DecidableEq, Repr

structure History (σ ε : Type) where
  store : Store σ ε
  /-- The successful calls of `schedule`, the first one first.  The ticket of a call
  is its position. -/
  schedules : List (Schedule σ ε)
  /-- The ticket of the last one for an event. -/
  ticket : ε → Nat
  /-- The tickets of the events that were cancelled in a queue. -/
  cancels : List Nat
  executions : List (Execution σ ε)

inductive Act (σ ε : Type) where
  | schedule (k : σ) (te : ε) (t : Option ℤ)
  | reschedule (k : σ) (te : ε) (d : ℤ)
  | cancel (te : ε)
  | clear (k : σ)
  /-- The clock shows another time. -/
  | clock (t : ℤ)
  /-- A turn of the loop of `run`. -/
  | turn (k : σ)

namespace History

section Good

variable {σ ε : Type} {h : History σ ε}

/-- Empty queues, and events that hold any times. -/
def start (now : ℤ) (times : ε → ℤ) : History σ ε where
  store := ⟨now, fun te => ⟨times te, none, false⟩, fun _ => []⟩
  schedules := []
  ticket := fun _ => 0
  cancels := []
  executions := []

/-- What holds of a history. -/
structure Good (h : History σ ε) : Prop where
  store : h.store.Good
  /-- The ticket of a queued event is the one of the `schedule` that queued it. -/
  queued : ∀ te k, (h.store.event te).qued = some k →
    h.schedules[h.ticket te]? = some ⟨k, te, (h.store.event te).time⟩
  /-- It has not been executed for that ticket. -/
  pending : ∀ te, (h.store.event te).qued ≠ none → ∀ x ∈ h.executions, x.ticket ≠ h.ticket te
  cancelled : ∀ te, (h.store.event te).qued ≠ none → h.ticket te ∈ h.cancels →
    (h.store.event te).cancelled = true
  cancels_lt : ∀ n ∈ h.cancels, n < h.schedules.length
  executions_nodup : (h.executions.map fun x => x.ticket).Nodup
  executions : ∀ x ∈ h.executions, x.ticket ∉ h.cancels ∧
    ∃ t, h.schedules[x.ticket]? = some ⟨x.scheduler, x.event, t⟩ ∧ t ≤ x.now

theorem good_start (now : ℤ) (times : ε → ℤ) : (start now times : History σ ε).Good where
  store := ⟨fun _ => List.nodup_nil, fun _ _ => by simp [start], fun _ => isHeap_nil⟩
  queued := fun _ _ h => nomatch h
  pending := fun _ h => absurd rfl h
  cancelled := fun _ h => absurd rfl h
  cancels_lt := fun _ h => nomatch h
  executions_nodup := List.nodup_nil
  executions := fun _ h => nomatch h

/-- A ticket names its event. -/
theorem Good.event_of_ticket (hg : h.Good) {te te' : ε} (hte : (h.store.event te).qued ≠ none)
    (hte' : (h.store.event te').qued ≠ none) (ht : h.ticket te = h.ticket te') : te = te' := by
  obtain ⟨k, hk⟩ := Option.ne_none_iff_exists'.mp hte
  obtain ⟨k', hk'⟩ := Option.ne_none_iff_exists'.mp hte'
  have hs := hg.queued te k hk
  rw [ht, hg.queued te' k' hk', Option.some.injEq, Schedule.mk.injEq] at hs
  exact hs.2.1.symm

/-- An operation that does no more than taking events out of queues. -/
theorem Good.frame (hg : h.Good) {store : Store σ ε} (hs : store.Good)
    (he : ∀ te, store.event te = h.store.event te ∨
      store.event te = { h.store.event te with qued := none }) :
    ({ h with store } : History σ ε).Good := by
  have hsame : ∀ te, (store.event te).qued ≠ none → store.event te = h.store.event te := by
    intro te hq
    cases he te with
    | inl he => exact he
    | inr he => exact absurd (by rw [he]) hq
  refine ⟨hs, fun te k hq => ?_, fun te hq => ?_, fun te hq hm => ?_, hg.cancels_lt,
    hg.executions_nodup, hg.executions⟩
  · dsimp only at hq ⊢
    have hte := hsame te (by simp [hq])
    rw [hte] at hq ⊢
    exact hg.queued te k hq
  · rw [hsame te hq] at hq
    exact hg.pending te hq
  · have hte := hsame te hq
    rw [hte] at hq ⊢
    exact hg.cancelled te hq hm

end Good

section Cancel

variable {σ ε : Type} [DecidableEq ε] {h : History σ ε}

theorem Good.cancel (hg : h.Good) (te : ε) :
    ({ h with
      store := h.store.cancel te
      cancels := if (h.store.event te).qued.isSome then h.ticket te :: h.cancels
        else h.cancels } : History σ ε).Good := by
  have hevent : ∀ te', ((h.store.cancel te).event te').qued = (h.store.event te').qued ∧
      ((h.store.cancel te).event te').time = (h.store.event te').time := by
    intro te'
    rw [Store.cancel_event]
    split
    next he => simp [he.1]
    next => exact ⟨rfl, rfl⟩
  -- only the ticket of a queued event is added
  have hcancels : ∀ n, n ∈ (if (h.store.event te).qued.isSome then h.ticket te :: h.cancels
      else h.cancels) → n ∈ h.cancels ∨ (h.store.event te).qued ≠ none ∧ n = h.ticket te := by
    intro n hn
    split at hn
    next hq =>
      rw [List.mem_cons] at hn
      exact hn.symm.imp_right fun e => ⟨Option.isSome_iff_ne_none.mp hq, e⟩
    next => exact Or.inl hn
  refine ⟨hg.store.cancel te, fun te' k hq => ?_, fun te' hq => ?_, fun te' hq hm => ?_,
    fun n hn => ?_, hg.executions_nodup, fun x hx => ?_⟩
  · rw [(hevent te').1] at hq
    rw [(hevent te').2]
    exact hg.queued te' k hq
  · rw [(hevent te').1] at hq
    exact hg.pending te' hq
  · rw [(hevent te').1] at hq
    rw [Store.cancel_event]
    split
    next => rfl
    next hne =>
      cases hcancels _ hm with
      | inl hold => exact hg.cancelled te' hq hold
      | inr hnew =>
          have he := hg.event_of_ticket hq hnew.1 hnew.2
          exact absurd ⟨he, Option.isSome_iff_ne_none.mpr hnew.1⟩ hne
  · cases hcancels n hn with
    | inl hold => exact hg.cancels_lt n hold
    | inr hnew =>
        obtain ⟨k, hk⟩ := Option.ne_none_iff_exists'.mp hnew.1
        rw [hnew.2]
        exact (List.getElem?_eq_some_iff.mp (hg.queued te k hk)).1
  · obtain ⟨hc, hs⟩ := hg.executions x hx
    refine ⟨fun hm => ?_, hs⟩
    cases hcancels _ hm with
    | inl hold => exact hc hold
    | inr hnew => exact hg.pending te hnew.1 x hx hnew.2

end Cancel

variable {σ ε : Type} [DecidableEq σ] [DecidableEq ε]

/-- A call of `schedule`, and what it adds to the history. -/
def scheduled (h : History σ ε) (k : σ) (te : ε) (r : Scheduled σ ε) : History σ ε :=
  if r.fails then { h with store := r.store }
  else
    { h with
      store := r.store
      schedules := h.schedules ++ [⟨k, te, (r.store.event te).time⟩]
      ticket := Function.update h.ticket te h.schedules.length }

def step (H : HeapAlgorithms) (h : History σ ε) : Act σ ε → Option (History σ ε)
  | .schedule k te t => some (h.scheduled k te (h.store.schedule H k te t))
  | .reschedule k te d => some (h.scheduled k te (h.store.reschedule H k te d))
  | .cancel te => some
      { h with
        store := h.store.cancel te
        cancels := if (h.store.event te).qued.isSome then h.ticket te :: h.cancels
          else h.cancels }
  | .clear k => some { h with store := h.store.clear H k }
  | .clock t => some { h with store := { h.store with now := t } }
  | .turn k =>
      match h.store.turn H k with
      | (.take event true, store) => some
          { h with
            store
            executions := ⟨h.ticket event, k, event, h.store.now⟩ :: h.executions }
      | (_, store) => some { h with store }

namespace Good

variable {h : History σ ε}

theorem scheduled (hg : h.Good) (H : HeapAlgorithms) (k : σ) (te : ε) (t : Option ℤ) :
    (h.scheduled k te (h.store.schedule H k te t)).Good := by
  by_cases hte : (h.store.event te).qued = none
  · have hevent := Store.schedule_event hte H k t
    have hlt : ∀ {n : Nat} {x : Schedule σ ε}, h.schedules[n]? = some x →
        n < h.schedules.length := fun hx => (List.getElem?_eq_some_iff.mp hx).1
    rw [History.scheduled, Store.schedule_fails hte, if_neg (by simp)]
    refine ⟨hg.store.schedule H k te t, fun te' k' hq => ?_, fun te' hq x hx => ?_,
      fun te' hq hm => ?_, fun n hn => ?_, hg.executions_nodup, fun x hx => ?_⟩
    · dsimp only at hq ⊢
      by_cases he : te' = te
      · subst he
        rw [hevent, if_pos rfl] at hq
        obtain rfl := Option.some.inj hq
        simp
      · have hsame := (hevent te').trans (if_neg he)
        rw [hsame] at hq ⊢
        have hs := hg.queued te' k' hq
        rw [Function.update_of_ne he, List.getElem?_append_left (hlt hs), hs]
    · dsimp only at hq ⊢
      by_cases he : te' = te
      · obtain ⟨-, t', ht', -⟩ := hg.executions x hx
        rw [he, Function.update_self]
        exact Nat.ne_of_lt (hlt ht')
      · rw [hevent, if_neg he] at hq
        rw [Function.update_of_ne he]
        exact hg.pending te' hq x hx
    · dsimp only at hq hm ⊢
      by_cases he : te' = te
      · rw [he, Function.update_self] at hm
        exact absurd (hg.cancels_lt _ hm) (Nat.lt_irrefl _)
      · rw [hevent, if_neg he] at hq ⊢
        rw [Function.update_of_ne he] at hm
        exact hg.cancelled te' hq hm
    · rw [List.length_append]
      exact Nat.lt_add_right _ (hg.cancels_lt n hn)
    · obtain ⟨hc, t', ht', hle⟩ := hg.executions x hx
      exact ⟨hc, t', by rw [List.getElem?_append_left (hlt ht'), ht'], hle⟩
  · rw [Store.schedule_of_qued hte, History.scheduled, if_pos rfl]
    exact hg

/-- A due event is taken and executed. -/
theorem execute (hg : h.Good) (H : HeapAlgorithms) {k : σ} {event : ε} {rest : List ε}
    (hq : h.store.queue k = event :: rest) (hc : (h.store.event event).cancelled = false)
    (hdue : (h.store.event event).time ≤ h.store.now) :
    ({ h with
      store := h.store.pop H k event
      executions := ⟨h.ticket event, k, event, h.store.now⟩ :: h.executions } :
        History σ ε).Good := by
  have hqued : (h.store.event event).qued = some k :=
    (hg.store.qued k event).mp (by simp [hq])
  have hne : (h.store.event event).qued ≠ none := by simp [hqued]
  have hframe := hg.frame (hg.store.pop H hq) (Store.pop_event_cases H h.store k event)
  refine ⟨hframe.store, hframe.queued, fun te hte x hx => ?_, hframe.cancelled,
    hframe.cancels_lt, ?_, fun x hx => ?_⟩
  · rw [List.mem_cons] at hx
    cases hx with
    | inl hx =>
        rw [hx]
        intro ht
        dsimp only at hte ht
        rw [Store.pop_event] at hte
        split at hte
        next => exact hte rfl
        next he => exact he (hg.event_of_ticket hte hne ht.symm)
    | inr hx => exact hframe.pending te hte x hx
  · rw [List.map_cons, List.nodup_cons, List.mem_map]
    refine ⟨?_, hg.executions_nodup⟩
    rintro ⟨x, hx, ht⟩
    exact hg.pending event hne x hx ht
  · rw [List.mem_cons] at hx
    cases hx with
    | inl hx =>
        rw [hx]
        refine ⟨fun hm => ?_, _, hg.queued event k hqued, hdue⟩
        have hcancelled := hg.cancelled event hne hm
        rw [hc] at hcancelled
        cases hcancelled
    | inr hx => exact hg.executions x hx

theorem step (hg : h.Good) {H : HeapAlgorithms} {a : Act σ ε} {h' : History σ ε}
    (hs : h.step H a = some h') : h'.Good := by
  cases a with
  | schedule k te t =>
      obtain rfl := Option.some.inj hs
      exact hg.scheduled H k te t
  | reschedule k te d =>
      obtain rfl := Option.some.inj hs
      exact hg.scheduled H k te (some (h.store.now + d))
  | cancel te =>
      obtain rfl := Option.some.inj hs
      exact hg.cancel te
  | clear k =>
      obtain rfl := Option.some.inj hs
      obtain ⟨hgood, -, hcleared⟩ := Store.clear_spec hg.store H k
      exact hg.frame hgood hcleared.event
  | clock t =>
      obtain rfl := Option.some.inj hs
      exact hg.frame ⟨hg.store.nodup, hg.store.qued, hg.store.heap⟩ fun _ => Or.inl rfl
  | turn k =>
      cases ht : h.store.turn H k with
      | mk r store =>
          rw [History.step, ht] at hs
          obtain ⟨rfl, rfl, -⟩ | ⟨event, rest, hq, ⟨rfl, rfl, -⟩ | ⟨rfl, rfl, hdue⟩⟩ :=
            Store.turn_cases ht
          · obtain rfl := Option.some.inj hs
            exact hg
          · obtain rfl := Option.some.inj hs
            exact hg
          · cases hc : (h.store.event event).cancelled with
            | true =>
                rw [hc] at hs
                obtain rfl := Option.some.inj hs
                exact hg.frame (hg.store.pop H hq) (Store.pop_event_cases H h.store k event)
            | false =>
                rw [hc] at hs
                obtain rfl := Option.some.inj hs
                exact hg.execute H hq hc hdue

end Good

/-! ## The laws -/

/-- What holds of the queues and of all that has happened. -/
structure Lawful (H : HeapAlgorithms) (h : History σ ε) : Prop where
  /-- An event is in a queue once, and just in the queue it points to. -/
  nodup : ∀ k, (h.store.queue k).Nodup
  qued : ∀ k te, te ∈ h.store.queue k ↔ (h.store.event te).qued = some k
  /-- The time of a queued event does not change. -/
  frozen : ∀ a h', h.step H a = some h' → ∀ te, (h.store.event te).qued ≠ none →
    (h'.store.event te).time = (h.store.event te).time
  /-- A queued event is not scheduled again. -/
  refuses : ∀ k te t, (h.store.event te).qued ≠ none →
    h.store.schedule H k te t = ⟨true, false, h.store⟩
  /-- An event that is taken is an earliest one. -/
  earliest : ∀ k te runs store, h.store.turn H k = (.take te runs, store) →
    te ∈ h.store.queue k ∧
      ∀ te' ∈ h.store.queue k, (h.store.event te).time ≤ (h.store.event te').time
  /-- Each execution has a `schedule` of its own, no later than its time, which was
  not cancelled in the queue. -/
  once : (h.executions.map fun x => x.ticket).Nodup
  executed : ∀ x ∈ h.executions, x.ticket ∉ h.cancels ∧
    ∃ t, h.schedules[x.ticket]? = some ⟨x.scheduler, x.event, t⟩ ∧ t ≤ x.now

theorem scheduled_time (h : History σ ε) (H : HeapAlgorithms) (k : σ) (te : ε) (t : Option ℤ)
    {te' : ε} (hq : (h.store.event te').qued ≠ none) :
    ((h.scheduled k te (h.store.schedule H k te t)).store.event te').time =
      (h.store.event te').time := by
  have hstore : (h.scheduled k te (h.store.schedule H k te t)).store =
      (h.store.schedule H k te t).store := by
    unfold scheduled
    split
    next => rfl
    next => rfl
  rw [hstore]
  by_cases hte : (h.store.event te).qued = none
  · have hne : te' ≠ te := by
      rintro rfl
      exact hq hte
    rw [Store.schedule_event hte, if_neg hne]
  · rw [Store.schedule_of_qued hte]

/-- A step leaves the times of the queued events as they are. -/
theorem step_time {h h' : History σ ε} (hg : h.Good) {H : HeapAlgorithms} {a : Act σ ε}
    (hs : h.step H a = some h') {te : ε} (hq : (h.store.event te).qued ≠ none) :
    (h'.store.event te).time = (h.store.event te).time := by
  cases a with
  | schedule k te' t =>
      obtain rfl := Option.some.inj hs
      exact h.scheduled_time H k te' t hq
  | reschedule k te' d =>
      obtain rfl := Option.some.inj hs
      exact h.scheduled_time H k te' (some (h.store.now + d)) hq
  | cancel te' =>
      obtain rfl := Option.some.inj hs
      dsimp only
      rw [Store.cancel_event]
      split
      next he => rw [he.1]
      next => rfl
  | clear k =>
      obtain rfl := Option.some.inj hs
      obtain ⟨-, -, hcleared⟩ := Store.clear_spec hg.store H k
      dsimp only
      cases hcleared.event te with
      | inl he => rw [he]
      | inr he => rw [he]
  | clock t =>
      obtain rfl := Option.some.inj hs
      rfl
  | turn k =>
      have hstore : h'.store = (h.store.turn H k).2 := by
        rw [step] at hs
        split at hs
        next he =>
          obtain rfl := Option.some.inj hs
          rw [he]
        next he =>
          obtain rfl := Option.some.inj hs
          rw [he]
      cases ht : h.store.turn H k with
      | mk r store =>
          rw [hstore, ht]
          obtain ⟨-, rfl, -⟩ | ⟨event, rest, -, ⟨-, rfl, -⟩ | ⟨-, rfl, -⟩⟩ :=
            Store.turn_cases ht
          · rfl
          · rfl
          · exact Store.pop_time H h.store k event te

theorem Good.lawful {h : History σ ε} (hg : h.Good) (H : HeapAlgorithms) : h.Lawful H where
  nodup := hg.store.nodup
  qued := hg.store.qued
  frozen _ _ hs _ hq := step_time hg hs hq
  refuses k _ t hq := Store.schedule_of_qued hq H k t
  earliest k te runs store ht := by
    obtain ⟨hr, -⟩ | ⟨event, rest, hq, ⟨hr, -⟩ | ⟨hr, -⟩⟩ := Store.turn_cases ht
    · cases hr
    · cases hr
    · cases hr
      exact ⟨by simp [hq], hg.store.top hq⟩
  once := hg.executions_nodup
  executed := hg.executions

/-- **The event queues.**  Whatever is called in whatever order, the queues and the
pointers agree, times are frozen in a queue, events are taken earliest first, and
each execution belongs to one `schedule` of its own. -/
theorem lawful_of_reachable {H : HeapAlgorithms} {now : ℤ} {times : ε → ℤ} {h : History σ ε}
    (hr : Reachable (step H) (fun _ _ => True) (start now times) h) : h.Lawful H :=
  (hr.invariant (good_start now times) fun _ _ _ hg _ hs => Good.step hg hs).lawful H

/-- Two events are scheduled and the earlier one is executed. -/
def sampleActs : List (Act Unit Nat) :=
  [.schedule () 0 (some 9), .reschedule () 1 5, .clock 7, .turn ()]

theorem lawful_of_reachable_sample :
    ∃ h : History Unit Nat, h.executions.map (fun x => x.event) = [1] ∧
      h.Lawful HeapAlgorithms.canonical := by
  have hrun : (run (step HeapAlgorithms.canonical) (start 0 fun _ => 0) sampleActs).map
      (fun h => decide (h.executions.map (fun x => x.event) = [1])) = some true := by
    decide +kernel
  obtain ⟨h, hr, he⟩ := Reachable.exists_of_run (fun _ _ _ => trivial) hrun
  exact ⟨h, he, lawful_of_reachable hr⟩

end History

end EventQueue

end Undervest
