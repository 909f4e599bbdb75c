import Undervest.RunLoop
import Undervest.Interleaving
import Undervest.Lib.Simulation

/-!
# Refreshes on the scheduler

`State` has an abstract queue, from which the first due event is taken in one step.  Here
the queue is that of the scheduler: the event objects with their times, the priority
queue, the mutex, the condition variable, and the thread that executes `run`.

A refresh makes an event object, whose constructor reads the clock, and passes it to
`schedule`, which may have to wait for the mutex.  `Deferred` is `State` with the time in
between.  Without a delay it is `State` (`Deferred.shared_reachable`).

`Service` has both.  Its threads are those of `Deferred`, but an event begins to execute
in a turn of `run`.  `Shows` relates it to a state with a queue of the same events.

The service is a refinement (`refreshes_on_schedule`): each of its runs shows a run of
`Deferred`.  While the thread sleeps, the abstract queue holds nothing that is due before
its deadline.  When something is due and the thread is in no refresh, it takes an event in
three steps of its own.
-/

namespace Undervest

open Unordered Heap Transition EventQueue

/-! ## Event objects that are not scheduled yet -/

/-- The step depends on the queue or on the clock. -/
def Act.usesQueue : Act → Bool
  | .tick _ => true
  | .fire _ => true
  | .schedule _ => true
  | _ => false

/-- The two threads, and the times of the event objects that they have made. -/
structure Deferred where
  shared : State
  /-- The time of the event object that a thread has made and not scheduled yet. -/
  made : Thread → Option Nat

inductive DeferredAct where
  | thread (a : Undervest.Act)
  /-- The constructor of an event object with a delay. -/
  | make (t : Thread)

/-- `Clock::now() + d`, for a refresh that is to be scheduled. -/
def State.makeEvent (s : State) (made : Thread → Option Nat) (t : Thread) :
    Option (Thread → Option Nat) :=
  match s.job t, made t with
  | some (_, .scheduling _ (some sec)), none =>
      some (Function.update made t (some (s.now + sec.toNat)))
  | _, _ => none

namespace Deferred

/-- Schedule the event object of a refresh. -/
def scheduleEvent (d : Deferred) (t : Thread) (j : Job) (result : Option Nat) (time : Nat) :
    Deferred where
  shared :=
    { d.shared.scheduleEvent t j result none with
      queue := d.shared.queue ++ [⟨time, j.conf, result.getD j.dom⟩] }
  made := Function.update d.made t none

def step (c : Choices) (d : Deferred) : DeferredAct → Option Deferred
  | .make t => (d.shared.makeEvent d.made t).map fun made => { d with made := made }
  | .thread (.schedule t) =>
      match d.shared.job t, d.made t with
      | some (j, .scheduling result none), _ =>
          some { d with shared := d.shared.scheduleEvent t j result none }
      | some (j, .scheduling result (some _)), some time => some (d.scheduleEvent t j result time)
      | _, _ => none
  | .thread a => (d.shared.step c a).map fun shared => { d with shared := shared }

/-- No event object has been made at the start. -/
def start (heap : Nat → DomainObject) : Deferred := ⟨State.start heap, fun _ => none⟩

/-- An event object is scheduled at the time when it was made. -/
def Prompt (d : Deferred) (a : DeferredAct) : Prop :=
  ∀ t j result sec, a = .thread (.schedule t) →
    d.shared.job t = some (j, .scheduling result (some sec)) →
    d.made t = some (d.shared.now + sec.toNat)

/-- Such a step is one of the two threads, or none. -/
theorem step_of_prompt {c : Choices} {d d' : Deferred} {a : DeferredAct} (hp : d.Prompt a)
    (hs : d.step c a = some d') :
    d'.shared = d.shared ∨ ∃ b, d.shared.step c b = some d'.shared := by
  cases a with
  | make t =>
      obtain ⟨made, -, rfl⟩ := Option.map_eq_some_iff.mp hs
      exact Or.inl rfl
  | thread a =>
      cases a with
      | schedule t =>
          refine Or.inr ⟨.schedule t, ?_⟩
          simp only [step] at hs
          split at hs
          next j result hj =>
              obtain rfl := Option.some.inj hs
              simp only [State.step, hj]
          next j result sec time hj hm =>
              obtain rfl := Option.some.inj hs
              obtain rfl := Option.some.inj (hm.symm.trans (hp t j result sec rfl hj))
              simp only [State.step, hj]
              rfl
          next => cases hs
      | _ =>
          simp only [step] at hs
          obtain ⟨shared, hshared, rfl⟩ := Option.map_eq_some_iff.mp hs
          exact Or.inr ⟨_, hshared⟩

/-- **Without a delay** between the constructor and the mutex the states are those of the
two threads that schedule in one step. -/
theorem shared_reachable {c : Choices} {heap : Nat → DomainObject} {d : Deferred}
    (h : Reachable (step c) Prompt (start heap) d) :
    Reachable (State.step c) (fun _ _ => True) (State.start heap) d.shared := by
  refine h.invariant (P := fun d =>
    Reachable (State.step c) (fun _ _ => True) (State.start heap) d.shared) .start ?_
  intro d a d' hd hp hs
  rcases step_of_prompt hp hs with he | ⟨b, hb⟩
  · exact he ▸ hd
  · exact hd.next trivial hb

/-- A step that leaves the queue alone is one of the two threads. -/
theorem step_thread {c : Choices} {d : Deferred} {a : Act} (ha : a.usesQueue = false) :
    d.step c (.thread a) = (d.shared.step c a).map fun shared => { d with shared := shared } := by
  cases a with
  | schedule t => cases ha
  | _ => rfl

end Deferred

/-! ## The service -/

structure Service where
  /-- The configurations and the threads.  The queue of this state is not used. -/
  shared : State
  made : Thread → Option Nat
  loop : Loop Unit Nat
  /-- The arguments that are bound in an event object: a configuration and a domain. -/
  target : Nat → Nat × Nat
  /-- The first free address of an event object. -/
  next : Nat

inductive ServiceAct where
  | tick (n : Nat)
  /-- A step of the threads that leaves the queue alone. -/
  | thread (a : Undervest.Act)
  /-- The constructor of an event object. -/
  | make (t : Thread)
  | schedule (t : Thread)
  /-- The thread of the scheduler looks at the queue. -/
  | turn
  /-- `domainRefresher` has returned. -/
  | finish
  /-- Another step of `run`, or one of `stop`. -/
  | loop (a : Loop.Act Unit Nat)

/-- The step leaves the queue and the event in execution. -/
def EventQueue.Loop.Act.plain : Loop.Act Unit Nat → Bool
  | .enter => true
  | .test => true
  | .wake => true
  | .setStop => true
  | .notifyStop => true
  | _ => false

namespace Service

/-- What an event object stands for. -/
def entry (m : Service) (te : Nat) : TimedEvent where
  time := (m.loop.store.event te).time.toNat
  conf := (m.target te).1
  dom := (m.target te).2

/-- The events in the queue. -/
def queue (m : Service) : List TimedEvent := (m.loop.store.queue ()).map m.entry

/-- The thread has entered the routine of an event. -/
def begin (m : Service) (loop : Loop Unit Nat) : Service :=
  { m with
    loop := loop
    shared :=
      match loop.runner with
      | .executing te => { m.shared with fired := some (m.entry te) }
      | _ => m.shared }

/-- A refresh schedules the event object for its next attempt. -/
def scheduleRefresh (H : HeapAlgorithms) (m : Service) (t : Thread) (j : Job)
    (result : Option Nat) (time : Nat) : Option Service :=
  -- nobody else has the object before, so it is enough that it has its time now
  (m.loop.step H () (.schedule () m.next (some (time : ℤ)))).map fun loop =>
    { shared := m.shared.scheduleEvent t j result none
      made := Function.update m.made t none
      loop := loop
      target := Function.update m.target m.next (j.conf, result.getD j.dom)
      next := m.next + 1 }

def step (H : HeapAlgorithms) (c : Choices) (m : Service) : ServiceAct → Option Service
  | .tick n =>
      (m.loop.step H () (.clock (m.shared.now + n : ℕ))).map fun loop =>
        { m with loop := loop, shared := { m.shared with now := m.shared.now + n } }
  | .thread a =>
      if a.usesQueue then none
      else (m.shared.step c a).map fun shared => { m with shared := shared }
  | .make t => (m.shared.makeEvent m.made t).map fun made => { m with made := made }
  | .schedule t =>
      match m.shared.job t, m.made t with
      | some (j, .scheduling result none), _ =>
          some { m with shared := m.shared.scheduleEvent t j result none }
      | some (j, .scheduling result (some _)), some time => m.scheduleRefresh H t j result time
      | _, _ => none
  | .turn => (m.loop.step H () .turn).map m.begin
  | .finish =>
      if m.shared.fired = none ∧ m.shared.job .scheduler = none then
        (m.loop.step H () .finish).map fun loop => { m with loop := loop }
      else none
  | .loop a =>
      if a.plain then (m.loop.step H () a).map fun loop => { m with loop := loop } else none

/-- The start.  The event objects have any times, and the flag any value. -/
def start (heap : Nat → DomainObject) (times : Nat → ℤ) (stop : Bool) : Service where
  shared := State.start heap
  made _ := none
  loop := Loop.start 0 times stop
  target _ := (0, 0)
  next := 0

/-- A state with a queue of the same events. -/
def Shows (m : Service) (d : Deferred) : Prop :=
  ∃ q, q.Perm m.queue ∧ d = ⟨{ m.shared with queue := q }, m.made⟩

end Service

/-! ## Steps of the threads -/

namespace State

variable {c : Choices} {s s' : State} {a : Act}

/-- A step that leaves the queue alone is the same with any queue. -/
theorem step_withQueue (ha : a.usesQueue = false) (q : List TimedEvent) :
    { s with queue := q }.step c a = (s.step c a).map fun s' => { s' with queue := q } := by
  cases a with
  | tick n => cases ha
  | startReload =>
      simp only [step]
      cases s.reload <;> rfl
  | finishGet loads file =>
      simp only [step]
      cases s.reload with
      | getting =>
          cases Configuration.get loads file with
          | ok cfg => rfl
          | error e => cases e <;> rfl
      | _ => rfl
  | nextDomain name =>
      simp only [step]
      cases s.reload with
      | loading conf todo =>
          cases s.job .reload with
          | none =>
              dsimp only
              cases s.domains conf name with
              | none => rfl
              | some d =>
                  dsimp only
                  split
                  next => rfl
                  next => rfl
          | some jp => rfl
      | _ => rfl
  | install =>
      simp only [step]
      cases s.reload with
      | loading conf todo =>
          cases todo with
          | nil => cases s.job .reload <;> rfl
          | cons name todo => rfl
      | _ => rfl
  | fire e => cases ha
  | check =>
      simp only [step]
      cases s.fired with
      | none => rfl
      | some e =>
          dsimp only
          by_cases h : s.conf = some e.conf ∧ s.domains e.conf (s.name e.dom) = some e.dom
          · refine (if_pos h).trans ?_
            rw [if_pos h]
            rfl
          · refine (if_neg h).trans ?_
            rw [if_neg h]
            rfl
  | load t feed =>
      simp only [step]
      cases s.job t with
      | none => rfl
      | some jp =>
          obtain ⟨j, p⟩ := jp
          cases p with
          | loading =>
              simp only [finishLoad]
              cases ((s.heap j.dom).domain.refresh c feed).result <;> rfl
          | _ => rfl
  | schedule t => cases ha
  | store t =>
      simp only [step]
      cases s.job t with
      | none => rfl
      | some jp =>
          obtain ⟨j, p⟩ := jp
          cases p with
          | storing result => cases result <;> rfl
          | _ => rfl

/-- While the scheduler executes no event, the other thread does not begin one. -/
theorem idle_step (hf : s.fired = none) (hj : s.job .scheduler = none)
    (ha : a.usesQueue = false) (hs : s.step c a = some s') :
    s'.fired = none ∧ s'.job .scheduler = none := by
  have hne : ∀ {t : Thread} {x : Job × Phase}, s.job t = some x → Thread.scheduler ≠ t := by
    rintro t x ht rfl
    rw [hj] at ht
    cases ht
  cases step_cases hs with
  | tick n => cases ha
  | startReload hr => exact ⟨hf, hj⟩
  | getReturns hr hg => exact ⟨hf, hj⟩
  | getThrows hr hg => exact ⟨hf, hj⟩
  | nextDomain hr hj' hd hn => exact ⟨hf, hj⟩
  | install hr hj' => exact ⟨hf, hj⟩
  | fire hf' hj' he ht => cases ha
  | accept hf' hc hd =>
      rw [hf] at hf'
      cases hf'
  | drop hf' hd =>
      rw [hf] at hf'
      cases hf'
  | load feed hj' =>
      have hupdate := hne hj'
      simp only [finishLoad]
      split
      next => exact ⟨hf, (Function.update_of_ne hupdate _ _).trans hj⟩
      next => exact ⟨hf, (Function.update_of_ne hupdate _ _).trans hj⟩
  | schedule hj' => cases ha
  | store hj' => exact ⟨hf, (Function.update_of_ne (hne hj') _ _).trans hj⟩

/-- Time stands still. -/
theorem now_step (ha : a.usesQueue = false) (hs : s.step c a = some s') : s'.now = s.now := by
  cases step_cases hs with
  | tick n => cases ha
  | fire hf hj he ht => cases ha
  | schedule hj => cases ha
  | load feed hj =>
      simp only [finishLoad]
      split
      next => rfl
      next => rfl
  | _ => rfl

end State

/-! ## Steps of the scheduler -/

namespace Service

/-- An event is in execution. -/
def Executes (r : Runner Nat) : Prop := ∃ te, r = .executing te

theorem executes_notify {r : Runner Nat} (h : Executes r) : Executes r.notify := by
  obtain ⟨te, rfl⟩ := h
  exact ⟨te, rfl⟩

theorem not_executes {r : Runner Nat} (hr : ∀ te, r ≠ .executing te) : ¬ Executes r := by
  rintro ⟨te, he⟩
  exact hr te he

/-- A step that is no call of `schedule` and no turn leaves the store. -/
theorem loop_plain {H : HeapAlgorithms} {l l' : Loop Unit Nat} {a : Loop.Act Unit Nat}
    (ha : a.plain = true) (hs : l.step H () a = some l') :
    l'.store = l.store ∧ (Executes l.runner → Executes l'.runner) := by
  cases Loop.step_cases hs with
  | schedule => cases ha
  | cancel => cases ha
  | clear => cases ha
  | clock => cases ha
  | setStop => exact ⟨rfl, id⟩
  | notifyStop => exact ⟨rfl, executes_notify⟩
  | enter hr => exact ⟨rfl, fun he => absurd he (not_executes (by simp [hr]))⟩
  | leave hr => exact ⟨rfl, fun he => absurd he (not_executes (by simp [hr]))⟩
  | goOn hr => exact ⟨rfl, fun he => absurd he (not_executes (by simp [hr]))⟩
  | wait => cases ha
  | waitUntil => cases ha
  | take => cases ha
  | wake hr => exact ⟨rfl, fun he => absurd he (not_executes (by simp [hr]))⟩
  | finish => cases ha

/-- What the service does. -/
inductive ServiceStep (H : HeapAlgorithms) (c : Choices) (m : Service) :
    ServiceAct → Service → Prop where
  | tick {n : Nat} {l : Loop Unit Nat}
      (hl : m.loop.step H () (.clock (m.shared.now + n : ℕ)) = some l) :
      ServiceStep H c m (.tick n)
        { m with loop := l, shared := { m.shared with now := m.shared.now + n } }
  | thread {a : Undervest.Act} {s : State} (ha : a.usesQueue = false)
      (hs : m.shared.step c a = some s) : ServiceStep H c m (.thread a) { m with shared := s }
  | make {t : Thread} {made : Thread → Option Nat}
      (hm : m.shared.makeEvent m.made t = some made) :
      ServiceStep H c m (.make t) { m with made := made }
  | unscheduled {t : Thread} {j : Job} {result : Option Nat}
      (hj : m.shared.job t = some (j, .scheduling result none)) :
      ServiceStep H c m (.schedule t) { m with shared := m.shared.scheduleEvent t j result none }
  | scheduled {t : Thread} {j : Job} {result : Option Nat} {sec : UInt32} {time : Nat}
      {l : Loop Unit Nat} (hj : m.shared.job t = some (j, .scheduling result (some sec)))
      (hm : m.made t = some time)
      (hl : m.loop.step H () (.schedule () m.next (some (time : ℤ))) = some l) :
      ServiceStep H c m (.schedule t)
        { shared := m.shared.scheduleEvent t j result none
          made := Function.update m.made t none
          loop := l
          target := Function.update m.target m.next (j.conf, result.getD j.dom)
          next := m.next + 1 }
  | turn {l : Loop Unit Nat} (hl : m.loop.step H () .turn = some l) :
      ServiceStep H c m .turn (m.begin l)
  | finish {l : Loop Unit Nat} (hf : m.shared.fired = none)
      (hj : m.shared.job .scheduler = none) (hl : m.loop.step H () .finish = some l) :
      ServiceStep H c m .finish { m with loop := l }
  | loop {a : Loop.Act Unit Nat} {l : Loop Unit Nat} (ha : a.plain = true)
      (hl : m.loop.step H () a = some l) : ServiceStep H c m (.loop a) { m with loop := l }

variable {H : HeapAlgorithms} {c : Choices} {m m' : Service} {a : ServiceAct}

theorem step_cases (hs : m.step H c a = some m') : ServiceStep H c m a m' := by
  cases a with
  | tick n =>
      simp only [step] at hs
      obtain ⟨l, hl, rfl⟩ := Option.map_eq_some_iff.mp hs
      exact .tick hl
  | thread a =>
      simp only [step] at hs
      split at hs
      next => cases hs
      next ha =>
          obtain ⟨s, hstep, rfl⟩ := Option.map_eq_some_iff.mp hs
          exact .thread (Bool.not_eq_true _ ▸ ha) hstep
  | make t =>
      obtain ⟨made, hm, rfl⟩ := Option.map_eq_some_iff.mp hs
      exact .make hm
  | schedule t =>
      simp only [step] at hs
      split at hs
      next j result hj =>
          obtain rfl := Option.some.inj hs
          exact .unscheduled hj
      next hj hm =>
          obtain ⟨l, hl, rfl⟩ := Option.map_eq_some_iff.mp hs
          exact .scheduled hj hm hl
      next => cases hs
  | turn =>
      simp only [step] at hs
      obtain ⟨l, hl, rfl⟩ := Option.map_eq_some_iff.mp hs
      exact .turn hl
  | finish =>
      simp only [step] at hs
      split at hs
      next h =>
          obtain ⟨l, hl, rfl⟩ := Option.map_eq_some_iff.mp hs
          exact .finish h.1 h.2 hl
      next => cases hs
  | loop a =>
      simp only [step] at hs
      split at hs
      next ha =>
          obtain ⟨l, hl, rfl⟩ := Option.map_eq_some_iff.mp hs
          exact .loop ha hl
      next => cases hs

/-- The scheduler makes one step or none. -/
theorem loop_step (hs : m.step H c a = some m') :
    m'.loop = m.loop ∨ ∃ b, m.loop.step H () b = some m'.loop := by
  cases step_cases hs with
  | tick hl => exact Or.inr ⟨_, hl⟩
  | thread => exact Or.inl rfl
  | make => exact Or.inl rfl
  | unscheduled => exact Or.inl rfl
  | scheduled hj hm hl => exact Or.inr ⟨_, hl⟩
  | turn hl => exact Or.inr ⟨_, hl⟩
  | finish hf hj hl => exact Or.inr ⟨_, hl⟩
  | loop ha hl => exact Or.inr ⟨_, hl⟩

/-! ## The invariant -/

/-- What the service keeps in order. -/
structure Sound (m : Service) : Prop where
  store : m.loop.store.Good
  covered : m.loop.Covered ()
  now : m.loop.store.now = (m.shared.now : ℤ)
  /-- An event object that has not been made is in no queue. -/
  fresh : ∀ te, m.next ≤ te → (m.loop.store.event te).qued = none
  events : ∀ te ∈ m.loop.store.queue (),
    (m.loop.store.event te).cancelled = false ∧ 0 ≤ (m.loop.store.event te).time
  /-- The scheduler refreshes nothing while no event is in execution. -/
  idle : ¬ Executes m.loop.runner → m.shared.fired = none ∧ m.shared.job .scheduler = none

theorem sound_start (heap : Nat → DomainObject) (times : Nat → ℤ) (stop : Bool) :
    (start heap times stop).Sound where
  store := (History.good_start 0 times).store
  covered deadline hw := by cases hw
  now := rfl
  fresh _ _ := rfl
  events te hm := by cases hm
  idle _ := ⟨rfl, rfl⟩

namespace Sound

/-- The store and the waits, after any step. -/
theorem loop (h : m.Sound) (hs : m.step H c a = some m') :
    m'.loop.store.Good ∧ m'.loop.Covered () := by
  cases loop_step hs with
  | inl he =>
      rw [he]
      exact ⟨h.store, h.covered⟩
  | inr hl =>
      obtain ⟨b, hl⟩ := hl
      exact ⟨Loop.good_step h.store hl, Loop.covered_step h.store h.covered hl⟩

/-- The queue after a call of `schedule` with a new event object. -/
theorem queue_perm (h : m.Sound) (t : ℤ) :
    ((m.loop.store.schedule H () m.next (some t)).store.queue ()).Perm
      (m.next :: m.loop.store.queue ()) := by
  rw [Store.schedule_queue (h.fresh _ le_rfl), if_pos rfl]
  exact H.push_perm _ _ _

theorem schedule_event (h : m.Sound) (t : ℤ) (te : Nat) :
    (m.loop.store.schedule H () m.next (some t)).store.event te =
      if te = m.next then ⟨t, some (), false⟩ else m.loop.store.event te :=
  Store.schedule_event (h.fresh _ le_rfl) H () (some t) te

/-- A queued event has been made before the next one. -/
theorem ne_next (h : m.Sound) {te : Nat} (hm : te ∈ m.loop.store.queue ()) : te ≠ m.next := by
  rintro rfl
  exact h.store.notMem (h.fresh _ le_rfl) () hm

/-- A refresh schedules its event while another one is in execution, or on the other
thread. -/
theorem idle_schedule (h : m.Sound) {t : Thread} {j : Job} {p : Phase}
    (hj : m.shared.job t = some (j, p)) (result : Option Nat) (hr : ¬ Executes m.loop.runner) :
    (m.shared.scheduleEvent t j result none).fired = none ∧
      (m.shared.scheduleEvent t j result none).job .scheduler = none := by
  obtain ⟨hf, hs⟩ := h.idle hr
  refine ⟨hf, (Function.update_of_ne ?_ _ _).trans hs⟩
  rintro rfl
  rw [hs] at hj
  cases hj

/-- The event that is taken has not been cancelled. -/
theorem take (h : m.Sound) {event : Nat} {rest : List Nat}
    (hq : m.loop.store.queue () = event :: rest) :
    (m.loop.store.event event).cancelled = false ∧
      (∀ te, m.next ≤ te → ((m.loop.store.pop H () event).event te).qued = none) ∧
      ∀ te ∈ (m.loop.store.pop H () event).queue (),
        ((m.loop.store.pop H () event).event te).cancelled = false ∧
          0 ≤ ((m.loop.store.pop H () event).event te).time := by
  refine ⟨(h.events event (by simp [hq])).1, fun te hte => ?_, fun te hm => ?_⟩
  · cases Store.pop_event_cases H m.loop.store () event te with
    | inl he =>
        rw [he]
        exact h.fresh te hte
    | inr he => rw [he]
  · rw [Store.pop_queue, if_pos rfl, (H.pop_perm _ _).mem_iff] at hm
    obtain ⟨hc, ht⟩ := h.events te (List.mem_of_mem_tail hm)
    cases Store.pop_event_cases H m.loop.store () event te with
    | inl he =>
        rw [he]
        exact ⟨hc, ht⟩
    | inr he =>
        rw [he]
        exact ⟨hc, ht⟩

theorem step (h : m.Sound) (hs : m.step H c a = some m') : m'.Sound := by
  obtain ⟨hstore, hcovered⟩ := h.loop hs
  cases step_cases hs with
  | tick hl =>
      obtain rfl := Option.some.inj hl
      exact ⟨hstore, hcovered, rfl, h.fresh, h.events, h.idle⟩
  | thread ha hthread =>
      refine ⟨hstore, hcovered, h.now.trans ?_, h.fresh, h.events, fun hr => ?_⟩
      · rw [State.now_step ha hthread]
      · exact State.idle_step (h.idle hr).1 (h.idle hr).2 ha hthread
  | make hm => exact ⟨hstore, hcovered, h.now, h.fresh, h.events, h.idle⟩
  | unscheduled hj =>
      exact ⟨hstore, hcovered, h.now, h.fresh, h.events, h.idle_schedule hj _⟩
  | @scheduled t j result sec time l hj hm hl =>
      cases Loop.step_cases hl with
      | schedule hlocked =>
          refine ⟨hstore, hcovered, ?_, fun te hte => ?_, fun te hm => ?_, fun hr => ?_⟩
          · refine Eq.trans ?_ h.now
            simp [Store.schedule, h.fresh _ le_rfl, Store.setEvent, Store.setQueue]
          · have hte : m.next + 1 ≤ te := hte
            rw [h.schedule_event, if_neg (by omega)]
            exact h.fresh te (by omega)
          · rw [h.schedule_event]
            split
            next => exact ⟨rfl, Int.natCast_nonneg _⟩
            next hne =>
                have hm := (h.queue_perm _).mem_iff.mp hm
                exact h.events te ((List.mem_cons.mp hm).resolve_left hne)
          · refine h.idle_schedule hj _ fun he => hr ?_
            dsimp only
            split
            next => exact executes_notify he
            next => exact he
  | turn hl =>
      cases Loop.step_cases hl with
      | wait hr hq => exact ⟨hstore, hcovered, h.now, h.fresh, h.events,
          fun _ => h.idle (not_executes (by simp [hr]))⟩
      | waitUntil hr hq hlt => exact ⟨hstore, hcovered, h.now, h.fresh, h.events,
          fun _ => h.idle (not_executes (by simp [hr]))⟩
      | @take event rest hr hq hle =>
          obtain ⟨hc, hfresh, hevents⟩ := @take H m h event rest hq
          refine ⟨hstore, hcovered, ?_, hfresh, hevents, fun hidle => ?_⟩
          · simp only [begin, hc, Bool.not_false, if_true]
            exact h.now
          · exact absurd ⟨event, by simp only [begin, hc, Bool.not_false, if_true]⟩ hidle
  | finish hf hj hl =>
      cases Loop.step_cases hl with
      | finish hr => exact ⟨hstore, hcovered, h.now, h.fresh, h.events, fun _ => ⟨hf, hj⟩⟩
  | loop ha hl =>
      obtain ⟨hsame, hexecutes⟩ := loop_plain ha hl
      refine ⟨hstore, hcovered, ?_, ?_, ?_, fun hr => h.idle fun he => hr (hexecutes he)⟩
      · exact hsame ▸ h.now
      · exact hsame ▸ h.fresh
      · exact hsame ▸ h.events

end Sound

theorem sound_run {heap : Nat → DomainObject} {times : Nat → ℤ} {stop : Bool}
    {as : List ServiceAct} (h : run (step H c) (start heap times stop) as = some m) : m.Sound :=
  (Reachable.of_run_start h).invariant (sound_start heap times stop) fun _ _ _ hm _ hs =>
    hm.step hs

/-! ## The refinement -/

/-- What an event object stands for depends on its time and its arguments. -/
theorem entry_eq {te : Nat}
    (htime : (m'.loop.store.event te).time = (m.loop.store.event te).time)
    (htarget : m'.target te = m.target te) : m'.entry te = m.entry te := by
  simp only [entry, htime, htarget]

theorem queue_of_store (hstore : m'.loop.store = m.loop.store) (htarget : m'.target = m.target) :
    m'.queue = m.queue := by
  rw [queue, queue, hstore]
  exact List.map_congr_left fun te _ => entry_eq (by rw [hstore]) (by rw [htarget])

/-- The queue has one more event when a refresh has scheduled its event object. -/
theorem queue_scheduled (h : m.Sound) {t conf dom : ℕ}
    (hstore : m'.loop.store = (m.loop.store.schedule H () m.next (some (t : ℤ))).store)
    (htarget : m'.target = Function.update m.target m.next (conf, dom)) :
    m'.queue.Perm (⟨t, conf, dom⟩ :: m.queue) := by
  have hnew : m'.entry m.next = ⟨t, conf, dom⟩ := by
    simp only [entry, hstore, htarget, h.schedule_event, if_true, Function.update_self,
      Int.toNat_natCast]
  rw [queue, hstore]
  refine ((h.queue_perm _).map _).trans ?_
  rw [List.map_cons, hnew]
  refine List.Perm.cons _ (List.Perm.of_eq (List.map_congr_left fun te hm => ?_))
  have hne := h.ne_next hm
  refine entry_eq ?_ ?_
  · rw [hstore, h.schedule_event, if_neg hne]
  · rw [htarget, Function.update_of_ne hne]

/-- The queue has one event less when the thread has taken one. -/
theorem queue_taken {event : Nat} {rest : List Nat}
    (hq : m.loop.store.queue () = event :: rest)
    (hstore : m'.loop.store = m.loop.store.pop H () event) (htarget : m'.target = m.target) :
    m'.queue.Perm (rest.map m.entry) := by
  rw [queue, hstore, Store.pop_queue, if_pos rfl]
  refine ((H.pop_perm _ _).map _).trans ?_
  rw [hq, List.tail_cons]
  exact List.Perm.of_eq (List.map_congr_left fun te _ =>
    entry_eq (by rw [hstore, Store.pop_time]) (by rw [htarget]))

/-- The event taken is the first due event of the abstract queue. -/
theorem Shows.fire {d : Deferred} (h : m.Sound) (hshow : m.Shows d) {event : Nat}
    {rest : List Nat} (hr : ¬ Executes m.loop.runner)
    (hq : m.loop.store.queue () = event :: rest)
    (hle : (m.loop.store.event event).time ≤ m.loop.store.now) :
    ∃ q, d.step c (.thread (.fire (m.entry event))) =
        some ⟨{ m.shared with queue := q, fired := some (m.entry event) }, m.made⟩ ∧
      q.Perm (rest.map m.entry) := by
  obtain ⟨q, hperm, rfl⟩ := hshow
  obtain ⟨hf, hj⟩ := h.idle hr
  have hqueue : m.queue = m.entry event :: rest.map m.entry := by rw [queue, hq, List.map_cons]
  rw [hqueue] at hperm
  refine ⟨q.erase (m.entry event), ?_, ?_⟩
  · have hmem : m.entry event ∈ q := hperm.mem_iff.mpr (List.mem_cons_self ..)
    have hdue : (m.entry event).time ≤ m.shared.now := by
      rw [h.now] at hle
      exact Int.toNat_le.mpr hle
    have hfirst : ∀ e' ∈ q, (m.entry event).time ≤ e'.time := by
      intro e' he'
      rw [hperm.mem_iff, ← hqueue] at he'
      obtain ⟨te, hte, rfl⟩ := List.mem_map.mp he'
      exact Int.toNat_le_toNat (h.store.top hq te hte)
    simp only [Deferred.step, State.step, hf, hj,
      if_pos (show _ ∧ _ ∧ _ from ⟨hmem, hdue, hfirst⟩), Option.map_some]
  · exact (hperm.erase _).trans (by rw [List.erase_cons_head])

/-- **A step of the service** is one of the two threads, or none. -/
theorem Shows.step {d : Deferred} (h : m.Sound) (hshow : m.Shows d)
    (hs : m.step H c a = some m') : ∃ d', m'.Shows d' ∧ (d' = d ∨ ∃ b, d.step c b = some d') := by
  obtain ⟨q, hperm, hd⟩ := hshow
  cases step_cases hs with
  | @tick n l hl =>
      obtain rfl := Option.some.inj hl
      subst hd
      exact ⟨_, ⟨q, hperm, rfl⟩, Or.inr ⟨.thread (.tick n), rfl⟩⟩
  | @thread b s' ha hthread =>
      subst hd
      refine ⟨_, ⟨q, hperm, rfl⟩, Or.inr ⟨.thread b, ?_⟩⟩
      rw [Deferred.step_thread ha, State.step_withQueue ha, hthread]
      rfl
  | @make t made hm =>
      subst hd
      refine ⟨_, ⟨q, hperm, rfl⟩, Or.inr ⟨.make t, ?_⟩⟩
      rw [Deferred.step]
      change (m.shared.makeEvent m.made t).map _ = _
      rw [hm]
      rfl
  | @unscheduled t j result hj =>
      subst hd
      refine ⟨_, ⟨q, hperm, rfl⟩, Or.inr ⟨.thread (.schedule t), ?_⟩⟩
      simp only [Deferred.step, hj]
      rfl
  | @scheduled t j result sec time l hj hm hl =>
      cases Loop.step_cases hl with
      | schedule hlocked =>
          subst hd
          refine ⟨_, ⟨q ++ [⟨time, j.conf, result.getD j.dom⟩], ?_, rfl⟩,
            Or.inr ⟨.thread (.schedule t), ?_⟩⟩
          · refine (List.perm_append_singleton _ q).trans ((hperm.cons _).trans ?_)
            refine List.Perm.symm (queue_scheduled (H := H) h ?_ ?_)
            · rfl
            · rfl
          · simp only [Deferred.step, hj, hm]
            rfl
  | turn hl =>
      cases Loop.step_cases hl with
      | wait hr hq => exact ⟨d, ⟨q, hperm, hd⟩, Or.inl rfl⟩
      | waitUntil hr hq hlt => exact ⟨d, ⟨q, hperm, hd⟩, Or.inl rfl⟩
      | @take event rest hr hq hle =>
          have hidle : ¬ Executes m.loop.runner := not_executes (by simp [hr])
          obtain ⟨hc, -⟩ := @Sound.take H m h event rest hq
          obtain ⟨q', hfire, hrest⟩ := Shows.fire (c := c) h ⟨q, hperm, hd⟩ hidle hq hle
          refine ⟨_, ⟨q', hrest.trans ?_, ?_⟩, Or.inr ⟨_, hfire⟩⟩
          · refine List.Perm.symm (queue_taken (H := H) hq ?_ ?_)
            · rfl
            · rfl
          · simp only [begin, hc, Bool.not_false, if_true]
  | finish hf hj hl =>
      cases Loop.step_cases hl with
      | finish hr => exact ⟨d, ⟨q, hperm, hd⟩, Or.inl rfl⟩
  | loop ha hl =>
      obtain ⟨hsame, -⟩ := loop_plain ha hl
      refine ⟨d, ⟨q, hperm.trans (List.Perm.of_eq ?_), hd⟩, Or.inl rfl⟩
      refine (queue_of_store ?_ ?_).symm
      · exact hsame
      · rfl

/-- Every run shows a run of the two threads. -/
theorem shows_run {heap : Nat → DomainObject} {times : Nat → ℤ} {stop : Bool}
    {as : List ServiceAct} (h : run (step H c) (start heap times stop) as = some m) :
    ∃ bs d, run (Deferred.step c) (Deferred.start heap) bs = some d ∧ m.Shows d := by
  refine run_induction
    (P := fun _ m => ∃ bs d, run (Deferred.step c) (Deferred.start heap) bs = some d ∧ m.Shows d)
    ⟨[], _, rfl, [], List.Perm.refl _, rfl⟩ ?_ h
  rintro as m a m' hr ⟨bs, d, hrun, hshow⟩ hs
  obtain ⟨d', hshow', hsame | ⟨b, hb⟩⟩ := Shows.step (sound_run hr) hshow hs
  · exact ⟨bs, d', hsame ▸ hrun, hshow'⟩
  · refine ⟨bs ++ [b], d', ?_, hshow'⟩
    rw [run_concat, hrun, Option.bind_some, hb]

/-! ## Due events -/

/-- The first event of an abstract queue is in execution. -/
def Takes (s : State) (m' : Service) : Prop :=
  ∃ e ∈ s.queue, m'.shared.fired = some e ∧ ∀ e' ∈ s.queue, e.time ≤ e'.time

/-- A turn takes the first event when one is due. -/
theorem turn_takes {d : Deferred} (h : m.Sound) (hshow : m.Shows d)
    (hr : m.loop.runner = .turning) (hdue : ∃ e ∈ d.shared.queue, e.time ≤ d.shared.now) :
    ∃ m', m.step H c .turn = some m' ∧ Takes d.shared m' := by
  obtain ⟨q, hperm, rfl⟩ := hshow
  obtain ⟨e, he, hle⟩ := hdue
  obtain ⟨te, hte, rfl⟩ := List.mem_map.mp (hperm.mem_iff.mp he)
  obtain ⟨event, rest, hq⟩ := List.exists_cons_of_ne_nil (List.ne_nil_of_mem hte)
  have htop := h.store.top hq
  have hnow : (m.loop.store.event event).time ≤ m.loop.store.now := by
    rw [h.now]
    exact (htop te hte).trans (Int.toNat_le.mp hle)
  obtain ⟨hc, -⟩ := @Sound.take H m h event rest hq
  have hturn : m.loop.step H () .turn = some { m.loop with
      store := m.loop.store.pop H () event
      runner := .executing event
      takes := m.loop.takes + 1 } := by
    simp only [Loop.step, hr, Store.turn, hq, if_neg (not_lt.mpr hnow), hc, Bool.not_false, if_true]
  refine ⟨_, by rw [step, hturn, Option.map_some], m.entry event, ?_, rfl, fun e' he' => ?_⟩
  · exact hperm.mem_iff.mpr (List.mem_map_of_mem (by simp [hq]))
  · obtain ⟨te', hte', rfl⟩ := List.mem_map.mp (hperm.mem_iff.mp he')
    exact Int.toNat_le_toNat (htop te' hte')

theorem test_takes {d : Deferred} (h : m.Sound) (hshow : m.Shows d)
    (hr : m.loop.runner = .testing) (hstop : m.loop.stop = false)
    (hdue : ∃ e ∈ d.shared.queue, e.time ≤ d.shared.now) :
    ∃ m', run (step H c) m [.loop .test, .turn] = some m' ∧ Takes d.shared m' := by
  have htest : m.step H c (.loop .test) =
      some { m with loop := { m.loop with runner := .turning } } := by
    simp [step, Loop.Act.plain, Loop.step, hr, hstop]
  obtain ⟨m', hm', htakes⟩ := turn_takes (H := H) (c := c) (h.step htest) hshow rfl hdue
  exact ⟨m', by rw [run, htest, Option.bind_some, run, hm']; rfl, htakes⟩

/-- A step that leads to the test of the flag. -/
theorem enters_takes {d : Deferred} {stop : Bool} (h : m.Sound) (hshow : m.Shows d)
    (hs : m.step H c a = some { m with loop := { m.loop with stop := stop, runner := .testing } })
    (hstop : stop = false) (hdue : ∃ e ∈ d.shared.queue, e.time ≤ d.shared.now) :
    ∃ m', run (step H c) m [a, .loop .test, .turn] = some m' ∧ Takes d.shared m' := by
  obtain ⟨m', hm', htakes⟩ := test_takes (H := H) (c := c) (h.step hs) hshow rfl hstop hdue
  exact ⟨m', by rw [run, hs, Option.bind_some, hm'], htakes⟩

/-- The thread of the scheduler is in no refresh and is not to stop.  A flag that is set
before it enters `run` does not matter. -/
structure Free (m : Service) : Prop where
  fired : m.shared.fired = none
  job : m.shared.job .scheduler = none
  runs : m.loop.runner ≠ .returned
  stop : m.loop.runner = .created ∨ m.loop.stop = false

/-- The thread of the scheduler takes the first event within three steps. -/
theorem takes_due {d : Deferred} (h : m.Sound) (hshow : m.Shows d) (hfree : m.Free)
    (hdue : ∃ e ∈ d.shared.queue, e.time ≤ d.shared.now) :
    ∃ as m', as ⊆ [.loop .enter, .finish, .loop .wake, .loop .test, .turn] ∧ as.length ≤ 3 ∧
      run (step H c) m as = some m' ∧ Takes d.shared m' := by
  have hstop : ∀ r, m.loop.runner = r → r ≠ .created → m.loop.stop = false := by
    rintro r hr hne
    exact hfree.stop.resolve_left (hr ▸ hne)
  cases hrunner : m.loop.runner with
  | created =>
      have henter : m.step H c (.loop .enter) =
          some { m with loop := { m.loop with stop := false, runner := .testing } } := by
        simp [step, Loop.Act.plain, Loop.step, hrunner]
      obtain ⟨m', hm', htakes⟩ := enters_takes h hshow henter rfl hdue
      exact ⟨_, m', by simp, by simp, hm', htakes⟩
  | testing =>
      obtain ⟨m', hm', htakes⟩ :=
        test_takes (H := H) (c := c) h hshow hrunner (hstop _ hrunner (by simp)) hdue
      exact ⟨_, m', by simp, by simp, hm', htakes⟩
  | turning =>
      obtain ⟨m', hm', htakes⟩ := turn_takes (H := H) (c := c) h hshow hrunner hdue
      exact ⟨[.turn], m', by simp, by simp, by rw [run, hm']; rfl, htakes⟩
  | waiting deadline notified =>
      have hwake : m.step H c (.loop .wake) =
          some { m with loop := { m.loop with stop := m.loop.stop, runner := .testing } } := by
        simp [step, Loop.Act.plain, Loop.step, hrunner]
      obtain ⟨m', hm', htakes⟩ := enters_takes h hshow hwake (hstop _ hrunner (by simp)) hdue
      exact ⟨_, m', by simp, by simp, hm', htakes⟩
  | executing te =>
      have hfinish : m.step H c .finish =
          some { m with loop := { m.loop with stop := m.loop.stop, runner := .testing } } := by
        simp [step, Loop.step, hrunner, hfree.fired, hfree.job]
      obtain ⟨m', hm', htakes⟩ := enters_takes h hshow hfinish (hstop _ hrunner (by simp)) hdue
      exact ⟨_, m', by simp, by simp, hm', htakes⟩
  | returned => exact absurd hrunner hfree.runs

end Service

/-- **Refreshes run on schedule.**  A run of the service, with its priority queue, mutex and
condition variable, shows a run of the two threads with their abstract queue, where an
event has the time that was computed when its object was made.  While the thread of the
scheduler sleeps unnotified, no event of that queue is due before its deadline.  In no
refresh, and not stopped, it can take a first event that is due within three steps. -/
theorem refreshes_on_schedule {H : HeapAlgorithms} {c : Choices} {heap : Nat → DomainObject}
    {times : Nat → ℤ} {stop : Bool} {as : List ServiceAct} {m : Service}
    (h : run (Service.step H c) (Service.start heap times stop) as = some m) :
    ∃ bs d, run (Deferred.step c) (Deferred.start heap) bs = some d ∧ m.Shows d ∧
      (∀ deadline, m.loop.runner = .waiting deadline false →
        ∀ e ∈ d.shared.queue, ∃ t ∈ deadline, t ≤ (e.time : ℤ)) ∧
      (m.Free → (∃ e ∈ d.shared.queue, e.time ≤ d.shared.now) →
        ∃ as' m', as' ⊆ [.loop .enter, .finish, .loop .wake, .loop .test, .turn] ∧
          as'.length ≤ 3 ∧ run (Service.step H c) m as' = some m' ∧
          Service.Takes d.shared m') := by
  have hm := Service.sound_run h
  obtain ⟨bs, d, hrun, hshow⟩ := Service.shows_run h
  refine ⟨bs, d, hrun, hshow, fun deadline hw e he => ?_, Service.takes_due hm hshow⟩
  obtain ⟨q, hperm, rfl⟩ := hshow
  obtain ⟨te, hte, rfl⟩ := List.mem_map.mp (hperm.mem_iff.mp he)
  obtain ⟨t, ht, hle⟩ := hm.covered deadline hw te hte
  exact ⟨t, ht, hle.trans (Int.self_le_toNat _)⟩

namespace Overtaken

/-- A refresh of the reload thread, with some steps before the event is scheduled. -/
def lateRefresh (name : Str) (late : List ServiceAct) : List ServiceAct :=
  [.thread (.nextDomain name), .thread (.load .reload (Domain.sampleFeed [str "john"]))] ++ late ++
    [.schedule .reload, .thread (.store .reload)]

/-- A reload, where the first event object waits a second for the mutex, and the first test
of the scheduler. -/
def lateReload : List ServiceAct :=
  [.thread .startReload, .thread (.finishGet (fun _ => true) file)] ++
    lateRefresh (str "a") [.make .reload, .tick 1] ++ lateRefresh (str "b") [] ++
    [.thread .install, .loop .enter, .loop .test]

end Overtaken

theorem refreshes_on_schedule_sample :
    ∃ m, run (Service.step .canonical .canonical)
        (Service.start Overtaken.heap (fun _ => 0) false) Overtaken.lateReload = some m ∧
      ∃ bs d, run (Deferred.step .canonical) (Deferred.start Overtaken.heap) bs = some d ∧
        m.Shows d ∧ ((∃ e ∈ d.shared.queue, e.time ≤ d.shared.now) →
          ∃ as' m', run (Service.step .canonical .canonical) m as' = some m' ∧
            Service.Takes d.shared m') := by
  have hrun : (run (Service.step .canonical .canonical)
      (Service.start Overtaken.heap (fun _ => 0) false) Overtaken.lateReload).map (fun m =>
        decide (m.shared.fired = none ∧ m.shared.job .scheduler = none ∧
          m.loop.runner = .turning ∧ m.loop.stop = false)) = some true := by decide +kernel
  obtain ⟨m, hm, hw⟩ := Option.map_eq_some_iff.mp hrun
  obtain ⟨hfired, hjob, hrunner, hstop⟩ := of_decide_eq_true hw
  obtain ⟨bs, d, hbs, hshow, -, htakes⟩ := refreshes_on_schedule hm
  have hfree : m.Free := ⟨hfired, hjob, by rw [hrunner]; simp, Or.inr hstop⟩
  refine ⟨m, hm, bs, d, hbs, hshow, fun hdue => ?_⟩
  obtain ⟨as', m', -, -, hr, ht⟩ := htakes hfree hdue
  exact ⟨as', m', hr, ht⟩

end Undervest
