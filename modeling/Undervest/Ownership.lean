import Undervest.Scheduler
import Mathlib.Data.Multiset.AddSub

/-!
# Who owns a domain object

A domain object that may be refreshed in the future has exactly one token: it is
the object of one queued event, or of the event the scheduler has taken, or of
one refresh under way, or it waits in the list of a reload.  Every step hands
tokens on, drops them, or makes one for a new object, so the tokens never repeat
(`WellFormed.tokens`).

The other fields of `WellFormed` tie the parts of the state together.  An object
is stored under its own name in its own configuration, an event carries the
configuration of its object, and the scheduler is never at work on the
configuration a reload builds.
-/

namespace Undervest

open Unordered Transition

/-! ## The steps as a relation -/

/-- One constructor for each thing a step can do. -/
inductive Step (c : Choices) (s : State) : Act → State → Prop where
  | tick (n : Nat) : Step c s (.tick n) { s with now := s.now + n }
  | startReload (hr : s.reload = .idle) : Step c s .startReload { s with reload := .getting }
  | getReturns {loads : Source → Bool} {file : ParsedFile} {cfg : Configuration}
      (hr : s.reload = .getting) (hg : Configuration.get loads file = .ok cfg) :
      Step c s (.finishGet loads file) (s.allocate cfg)
  | getThrows {loads : Source → Bool} {file : ParsedFile} {e : GetError}
      (hr : s.reload = .getting) (hg : Configuration.get loads file = .error e) :
      Step c s (.finishGet loads file) { s with reload := .idle }
  | nextDomain {name : Str} {conf d : Nat} {todo : List Str}
      (hr : s.reload = .loading conf todo) (hj : s.job .reload = none)
      (hd : s.domains conf name = some d) (hn : name ∈ todo) :
      Step c s (.nextDomain name)
        { s with
          reload := .loading conf (todo.erase name)
          job := Function.update s.job .reload (some (⟨conf, name, d⟩, .loading)) }
  | install {conf : Nat} (hr : s.reload = .loading conf []) (hj : s.job .reload = none) :
      Step c s .install { s with conf := some conf, reload := .idle }
  | fire {e : TimedEvent} (hf : s.fired = none) (hj : s.job .scheduler = none) (he : e ∈ s.queue)
      (ht : e.time ≤ s.now) :
      Step c s (.fire e) { s with queue := s.queue.erase e, fired := some e }
  | accept {e : TimedEvent} (hf : s.fired = some e) (hc : s.conf = some e.conf)
      (hd : s.domains e.conf (s.name e.dom) = some e.dom) :
      Step c s .check
        { s with
          fired := none
          job := Function.update s.job .scheduler
            (some (⟨e.conf, s.name e.dom, e.dom⟩, .loading)) }
  | drop {e : TimedEvent} (hf : s.fired = some e)
      (hd : ¬ (s.conf = some e.conf ∧ s.domains e.conf (s.name e.dom) = some e.dom)) :
      Step c s .check { s with fired := none }
  | load {t : Thread} {j : Job} (feed : Feed) (hj : s.job t = some (j, .loading)) :
      Step c s (.load t feed) (s.finishLoad c t j feed)
  | schedule {t : Thread} {j : Job} {result : Option Nat} {delay : Option UInt32}
      (hj : s.job t = some (j, .scheduling result delay)) :
      Step c s (.schedule t) (s.scheduleEvent t j result delay)
  | store {t : Thread} {j : Job} {result : Option Nat} (hj : s.job t = some (j, .storing result)) :
      Step c s (.store t) (s.storeResult t j result)

/-- A step does one of these things. -/
theorem step_cases {c : Choices} {s s' : State} {a : Act} (h : s.step c a = some s') :
    Step c s a s' := by
  cases a with
  | tick n =>
      obtain rfl := Option.some.inj h
      exact .tick n
  | startReload =>
      simp only [State.step] at h
      split at h
      next hr =>
          obtain rfl := Option.some.inj h
          exact .startReload hr
      next => cases h
  | finishGet loads file =>
      simp only [State.step] at h
      split at h
      next hr hg =>
          obtain rfl := Option.some.inj h
          exact .getReturns hr hg
      next => cases h
      next hr hg =>
          obtain rfl := Option.some.inj h
          exact .getThrows hr hg
      next => cases h
  | nextDomain name =>
      simp only [State.step] at h
      split at h
      next conf todo hr hj =>
          split at h
          next d hd =>
              split at h
              next hn =>
                  obtain rfl := Option.some.inj h
                  exact .nextDomain hr hj hd hn
              next => cases h
          next => cases h
      next => cases h
  | install =>
      simp only [State.step] at h
      split at h
      next hr hj =>
          obtain rfl := Option.some.inj h
          exact .install hr hj
      next => cases h
  | fire e =>
      simp only [State.step] at h
      split at h
      next hf hj =>
          split at h
          next he =>
              obtain rfl := Option.some.inj h
              exact .fire hf hj he.1 he.2.1
          next => cases h
      next => cases h
  | check =>
      simp only [State.step] at h
      split at h
      next => cases h
      next e hf =>
          split at h
          next hd =>
              obtain rfl := Option.some.inj h
              exact .accept hf hd.1 hd.2
          next hd =>
              obtain rfl := Option.some.inj h
              exact .drop hf hd
  | load t feed =>
      simp only [State.step] at h
      split at h
      next j hj =>
          obtain rfl := Option.some.inj h
          exact .load feed hj
      next => cases h
  | schedule t =>
      simp only [State.step] at h
      split at h
      next j result delay hj =>
          obtain rfl := Option.some.inj h
          exact .schedule hj
      next => cases h
  | store t =>
      simp only [State.step] at h
      split at h
      next j result hj =>
          obtain rfl := Option.some.inj h
          exact .store hj
      next => cases h

/-! ## Tokens -/

/-- The new object of a refresh. -/
def Phase.result : Phase → Option Nat
  | .loading => none
  | .scheduling result _ => result
  | .storing result => result

/-- The token of a refresh: the object its event will carry. -/
def jobToken : Option (Job × Phase) → Multiset Nat
  | some (j, .loading) => {j.dom}
  | some (j, .scheduling result _) => {result.getD j.dom}
  | some (_, .storing _) => 0
  | none => 0

theorem mem_jobToken {j : Job} {p : Phase} {d : Nat} (h : d ∈ jobToken (some (j, p))) :
    d = p.result.getD j.dom := by
  cases p with
  | loading => exact Multiset.mem_singleton.mp h
  | scheduling result delay => exact Multiset.mem_singleton.mp h
  | storing result => exact absurd h (Multiset.notMem_zero d)

def jobTokens (job : Thread → Option (Job × Phase)) : Multiset Nat :=
  jobToken (job .scheduler) + jobToken (job .reload)

/-- After one thread goes on, a refresh is the new one of that thread or the old
one of the other. -/
theorem job_update {job : Thread → Option (Job × Phase)} {t t' : Thread}
    {x y : Option (Job × Phase)} (h : Function.update job t x t' = y) :
    t' = t ∧ x = y ∨ t' ≠ t ∧ job t' = y := by
  by_cases htt : t' = t
  · subst htt
    rw [Function.update_self] at h
    exact Or.inl ⟨rfl, h⟩
  · rw [Function.update_of_ne htt] at h
    exact Or.inr ⟨htt, h⟩

/-- A thread without a refresh stays so when every refresh was there before. -/
theorem job_eq_none {x y : Option (Job × Phase)}
    (h : ∀ j p, y = some (j, p) → ∃ p', x = some (j, p')) (hx : x = none) : y = none := by
  rw [Option.eq_none_iff_forall_ne_some]
  rintro ⟨j, p⟩ hy
  obtain ⟨p', hp⟩ := h j p hy
  rw [hx] at hp
  cases hp

/-- When one refresh changes, its token is exchanged. -/
theorem count_jobTokens_update (job : Thread → Option (Job × Phase)) (t : Thread)
    (x : Option (Job × Phase)) (d : Nat) :
    (jobTokens (Function.update job t x)).count d + (jobToken (job t)).count d =
      (jobTokens job).count d + (jobToken x).count d := by
  cases t with
  | scheduler =>
      simp only [jobTokens, Function.update_self, Multiset.count_add,
        Function.update_of_ne (show Thread.reload ≠ .scheduler by decide)]
      omega
  | reload =>
      simp only [jobTokens, Function.update_self, Multiset.count_add,
        Function.update_of_ne (show Thread.scheduler ≠ .reload by decide)]
      omega

namespace State

/-- The objects a reload has not come to yet. -/
def todoTokens (s : State) : List Nat :=
  match s.reload with
  | .loading conf todo => todo.filterMap (s.domains conf)
  | _ => []

/-- The objects that have a refresh before them. -/
def tokens (s : State) : Multiset Nat :=
  ↑(s.queue.map fun e => e.dom) + ↑(s.fired.toList.map fun e => e.dom) + jobTokens s.job +
    ↑s.todoTokens

theorem count_tokens (s : State) (d : Nat) :
    s.tokens.count d = (s.queue.map fun e => e.dom).count d +
      (s.fired.toList.map fun e => e.dom).count d + (jobTokens s.job).count d +
      s.todoTokens.count d := by
  simp only [tokens, Multiset.count_add, Multiset.coe_count]

/-- A step that only drops tokens or hands them on repeats none. -/
theorem tokens_nodup_of_le {s s' : State} (h : s.tokens.Nodup)
    (htodo : s'.todoTokens = s.todoTokens)
    (hle : ∀ d, (s'.queue.map fun e => e.dom).count d +
        (s'.fired.toList.map fun e => e.dom).count d + (jobTokens s'.job).count d ≤
      (s.queue.map fun e => e.dom).count d + (s.fired.toList.map fun e => e.dom).count d +
        (jobTokens s.job).count d) : s'.tokens.Nodup := by
  refine Multiset.nodup_of_le (Multiset.le_iff_count.mpr fun d => ?_) h
  rw [count_tokens, count_tokens, htodo]
  exact Nat.add_le_add_right (hle d) _

/-! ## Outside the loop of a reload -/

theorem todo_of_building {s : State} (h : s.building = none) : s.todo = [] := by
  unfold building at h
  unfold todo
  split
  next hr =>
      rw [hr] at h
      cases h
  next => rfl

theorem todoTokens_of_building {s : State} (h : s.building = none) : s.todoTokens = [] := by
  unfold building at h
  unfold todoTokens
  split
  next hr =>
      rw [hr] at h
      cases h
  next => rfl

end State

/-! ## Well-formed states -/

structure WellFormed (s : State) : Prop where
  /-- An object belongs to a configuration and may be loaded. -/
  object : ∀ d, d < s.nextDom →
    (s.heap d).configuration < s.nextConf ∧ (s.heap d).domain.failureCount ≠ -2
  /-- An object is stored under its name in its configuration. -/
  mapped : ∀ conf name d, s.domains conf name = some d →
    d < s.nextDom ∧ (s.heap d).configuration = conf ∧ s.name d = name
  installed : ∀ conf, s.conf = some conf → conf < s.nextConf ∧ s.building ≠ some conf
  building : ∀ conf, s.building = some conf → conf < s.nextConf
  events : ∀ e, e ∈ s.queue ∨ s.fired = some e →
    e.dom < s.nextDom ∧ (s.heap e.dom).configuration = e.conf
  jobs : ∀ t j p, s.job t = some (j, p) → s.domains j.conf j.name = some j.dom ∧
    ∀ d, p.result = some d →
      d < s.nextDom ∧ (s.heap d).configuration = j.conf ∧ s.name d = j.name
  /-- The scheduler is not at work on the configuration a reload builds. -/
  apart : ∀ j p, s.job .scheduler = some (j, p) → s.building ≠ some j.conf
  reloading : ∀ j p, s.job .reload = some (j, p) → s.building = some j.conf ∧ j.name ∉ s.todo
  /-- The scheduler tests an event before it goes on. -/
  waiting : s.fired ≠ none → s.job .scheduler = none
  todo_nodup : s.todo.Nodup
  tokens : s.tokens.Nodup

namespace WellFormed

variable {c : Choices} {s : State}

/-- The object a refresh will schedule is one. -/
theorem target_lt (h : WellFormed s) {t : Thread} {j : Job} {p : Phase}
    (hj : s.job t = some (j, p)) : p.result.getD j.dom < s.nextDom := by
  obtain ⟨h1, h2⟩ := h.jobs t j p hj
  cases hres : p.result with
  | none => exact (h.mapped _ _ _ h1).1
  | some d => exact (h2 d hres).1

/-- A refresh belongs to a configuration. -/
theorem job_conf_lt (h : WellFormed s) {t : Thread} {j : Job} {p : Phase}
    (hj : s.job t = some (j, p)) : j.conf < s.nextConf := by
  obtain ⟨h1, h2, -⟩ := h.mapped _ _ _ (h.jobs t j p hj).1
  exact h2 ▸ (h.object _ h1).1

/-- Every token is an object. -/
theorem tokens_lt (h : WellFormed s) : ∀ d ∈ s.tokens, d < s.nextDom := by
  intro d hd
  have hjob : ∀ t, d ∈ jobToken (s.job t) → d < s.nextDom := by
    intro t ht
    cases hj : s.job t with
    | none =>
        rw [hj] at ht
        exact absurd ht (Multiset.notMem_zero d)
    | some jp =>
        rw [hj] at ht
        rw [mem_jobToken ht]
        exact h.target_lt hj
  simp only [State.tokens, jobTokens, Multiset.mem_add, Multiset.mem_coe, List.mem_map,
    Option.mem_toList] at hd
  rcases hd with ((⟨e, he, rfl⟩ | ⟨e, he, rfl⟩) | (ht | ht)) | ht
  · exact (h.events e (Or.inl he)).1
  · exact (h.events e (Or.inr he)).1
  · exact hjob _ ht
  · exact hjob _ ht
  · unfold State.todoTokens at ht
    split at ht
    next conf todo hr =>
        obtain ⟨name, -, hn⟩ := List.mem_filterMap.mp ht
        exact (h.mapped _ _ _ hn).1
    next => cases ht

/-- The reload thread goes from one state outside its loop to another. -/
theorem setReload (h : WellFormed s) {r : Reloader} (hs : s.building = none)
    (hr : State.building { s with reload := r } = none) : WellFormed { s with reload := r } := by
  refine ⟨h.object, h.mapped, fun conf hc => ⟨(h.installed conf hc).1, ?_⟩, ?_, h.events, h.jobs,
    ?_, ?_, h.waiting, ?_, ?_⟩
  · rw [hr]
    exact (Option.some_ne_none _).symm
  · intro conf hc
    rw [hr] at hc
    cases hc
  · intro j p _
    rw [hr]
    exact (Option.some_ne_none _).symm
  · intro j p hj
    have := (h.reloading j p hj).1
    rw [hs] at this
    cases this
  · rw [State.todo_of_building hr]
    exact List.nodup_nil
  · have := h.tokens
    rw [State.tokens, State.todoTokens_of_building hs] at this
    rwa [State.tokens, State.todoTokens_of_building hr]

theorem nextDomain (h : WellFormed s) {name : Str} {conf d : Nat} {todo : List Str}
    (hr : s.reload = .loading conf todo) (hj : s.job .reload = none)
    (hd : s.domains conf name = some d) (hn : name ∈ todo) :
    WellFormed { s with
      reload := .loading conf (todo.erase name)
      job := Function.update s.job .reload (some (⟨conf, name, d⟩, .loading)) } := by
  have hb : s.building = some conf := by rw [State.building, hr]
  have hnodup : todo.Nodup := by
    have := h.todo_nodup
    rwa [State.todo, hr] at this
  refine ⟨h.object, h.mapped, fun conf' hc => ⟨(h.installed conf' hc).1, ?_⟩, fun conf' hc =>
    h.building conf' (hb.trans hc), h.events, ?_, ?_, ?_, ?_, hnodup.erase name, ?_⟩
  · exact fun e => (h.installed conf' hc).2 (hb.trans e)
  · intro t j p ht
    cases t with
    | scheduler => exact h.jobs .scheduler j p ht
    | reload =>
        cases ht
        exact ⟨hd, fun d' hd' => by cases hd'⟩
  · exact fun j p ht e => h.apart j p ht (hb.trans e)
  · intro j p ht
    cases ht
    exact ⟨rfl, hnodup.not_mem_erase⟩
  · exact h.waiting
  · -- the token goes from the list to the refresh
    refine Multiset.nodup_of_le (Multiset.le_iff_count.mpr fun a => ?_) h.tokens
    have hperm := ((List.perm_cons_erase hn).filterMap (s.domains conf)).count_eq a
    rw [List.filterMap_cons_some hd, List.count_cons] at hperm
    have hjob := count_jobTokens_update s.job .reload (some (⟨conf, name, d⟩, .loading)) a
    have htodo : s.todoTokens = todo.filterMap (s.domains conf) := by rw [State.todoTokens, hr]
    simp only [State.count_tokens, htodo]
    change _ + List.count a ((todo.erase name).filterMap (s.domains conf)) ≤ _
    simp only [hj, jobToken, Multiset.count_zero, Multiset.count_singleton, beq_iff_eq,
      eq_comm (a := d)] at hjob hperm
    omega

theorem install (h : WellFormed s) {conf : Nat} (hr : s.reload = .loading conf [])
    (hj : s.job .reload = none) : WellFormed { s with conf := some conf, reload := .idle } := by
  have hb : s.building = some conf := by rw [State.building, hr]
  have htodo : s.todoTokens = [] := by rw [State.todoTokens, hr]; rfl
  refine ⟨h.object, h.mapped, ?_, ?_, h.events, h.jobs, ?_, ?_, h.waiting, List.nodup_nil, ?_⟩
  · intro conf' hc
    obtain rfl := Option.some.inj hc
    exact ⟨h.building conf hb, (Option.some_ne_none _).symm⟩
  · intro conf' hc
    cases hc
  · exact fun j p _ => (Option.some_ne_none _).symm
  · intro j p ht
    rw [hj] at ht
    cases ht
  · have htok := h.tokens
    rw [State.tokens, htodo] at htok
    exact htok

theorem fire (h : WellFormed s) {e : TimedEvent} (hf : s.fired = none)
    (hj : s.job .scheduler = none) (he : e ∈ s.queue) :
    WellFormed { s with queue := s.queue.erase e, fired := some e } := by
  refine ⟨h.object, h.mapped, h.installed, h.building, ?_, h.jobs, h.apart, h.reloading,
    fun _ => hj, h.todo_nodup, ?_⟩
  · rintro e' (hq | hq)
    · exact h.events e' (Or.inl (List.mem_of_mem_erase hq))
    · obtain rfl := Option.some.inj hq
      exact h.events e (Or.inl he)
  · refine State.tokens_nodup_of_le h.tokens rfl fun a => ?_
    have hperm := ((List.perm_cons_erase he).map fun e => e.dom).count_eq a
    rw [List.map_cons, List.count_cons] at hperm
    simp only [hf, Option.toList_none, Option.toList_some, List.map_nil, List.map_cons,
      List.count_cons, List.count_nil]
    omega

theorem accept (h : WellFormed s) {e : TimedEvent} (hf : s.fired = some e)
    (hc : s.conf = some e.conf) (hd : s.domains e.conf (s.name e.dom) = some e.dom) :
    WellFormed { s with
      fired := none
      job := Function.update s.job .scheduler
        (some (⟨e.conf, s.name e.dom, e.dom⟩, .loading)) } := by
  have hj := h.waiting (by rw [hf]; exact Option.some_ne_none e)
  refine ⟨h.object, h.mapped, h.installed, h.building, ?_, ?_, ?_, ?_, fun hn => absurd rfl hn,
    h.todo_nodup, ?_⟩
  · rintro e' (hq | hq)
    · exact h.events e' (Or.inl hq)
    · cases hq
  · intro t j p ht
    cases t with
    | scheduler =>
        cases ht
        exact ⟨hd, fun d hd' => by cases hd'⟩
    | reload => exact h.jobs .reload j p ht
  · intro j p ht
    cases ht
    exact (h.installed _ hc).2
  · exact fun j p ht => h.reloading j p ht
  · refine State.tokens_nodup_of_le h.tokens rfl fun a => ?_
    have hjob := count_jobTokens_update s.job .scheduler
      (some (⟨e.conf, s.name e.dom, e.dom⟩, .loading)) a
    simp only [hj, jobToken, Multiset.count_zero, Multiset.count_singleton] at hjob
    simp only [hf, Option.toList_none, Option.toList_some, List.map_nil, List.map_cons,
      List.count_cons, List.count_nil, beq_iff_eq, eq_comm (b := a)]
    omega

theorem drop (h : WellFormed s) {e : TimedEvent} (hf : s.fired = some e) :
    WellFormed { s with fired := none } := by
  refine ⟨h.object, h.mapped, h.installed, h.building, ?_, h.jobs, h.apart, h.reloading,
    fun hn => absurd rfl hn, h.todo_nodup, ?_⟩
  · rintro e' (hq | hq)
    · exact h.events e' (Or.inl hq)
    · cases hq
  · refine State.tokens_nodup_of_le h.tokens rfl fun a => ?_
    simp only [hf, Option.toList_none, Option.toList_some, List.map_nil, List.map_cons,
      List.count_cons, List.count_nil]
    omega

theorem scheduleEvent (h : WellFormed s) {t : Thread} {j : Job} {result : Option Nat}
    {delay : Option UInt32} (hj : s.job t = some (j, .scheduling result delay)) :
    WellFormed (s.scheduleEvent t j result delay) := by
  have hjob := h.jobs t j _ hj
  have howner : (s.heap (result.getD j.dom)).configuration = j.conf := by
    cases result with
    | none => exact (h.mapped _ _ _ hjob.1).2.1
    | some d => exact (hjob.2 d rfl).2.1
  have hsame : ∀ t' j' p', (s.scheduleEvent t j result delay).job t' = some (j', p') →
      ∃ p, s.job t' = some (j', p) ∧ p.result = p'.result := by
    intro t' j' p' ht
    simp only [State.scheduleEvent] at ht
    rcases job_update ht with ⟨rfl, hx⟩ | ⟨-, ht⟩
    · cases hx
      exact ⟨_, hj, rfl⟩
    · exact ⟨p', ht, rfl⟩
  refine ⟨h.object, h.mapped, h.installed, h.building, ?_, ?_, ?_, ?_, ?_, h.todo_nodup, ?_⟩
  · rintro e (hq | hq)
    · cases delay with
      | none => exact h.events e (Or.inl hq)
      | some sec =>
          cases List.mem_append.mp hq with
          | inl hq => exact h.events e (Or.inl hq)
          | inr hq =>
              rw [List.mem_singleton.mp hq]
              exact ⟨h.target_lt hj, howner⟩
    · exact h.events e (Or.inr hq)
  · intro t' j' p' ht
    obtain ⟨p, hp, hres⟩ := hsame t' j' p' ht
    rw [← hres]
    exact h.jobs t' j' p hp
  · intro j' p' ht
    obtain ⟨p, hp, -⟩ := hsame _ _ _ ht
    exact h.apart j' p hp
  · intro j' p' ht
    obtain ⟨p, hp, -⟩ := hsame _ _ _ ht
    exact h.reloading j' p hp
  · intro hf
    refine job_eq_none (fun j' p' ht => ?_) (h.waiting hf)
    obtain ⟨p, hp, -⟩ := hsame _ _ _ ht
    exact ⟨p, hp⟩
  · -- the token goes from the refresh to the event, if there is one
    refine State.tokens_nodup_of_le h.tokens rfl fun a => ?_
    have hupd := count_jobTokens_update s.job t (some (j, .storing result)) a
    simp only [hj, jobToken, Multiset.count_zero, Multiset.count_singleton] at hupd
    cases delay with
    | none =>
        simp only [State.scheduleEvent]
        omega
    | some sec =>
        simp only [State.scheduleEvent, List.map_append, List.map_cons, List.map_nil,
          List.count_append, List.count_cons, List.count_nil, beq_iff_eq, eq_comm (b := a)]
        omega

theorem storeResult_domains (s : State) (t : Thread) (j : Job) (result : Option Nat) (conf : Nat)
    (name : Str) :
    (s.storeResult t j result).domains conf name =
      if conf = j.conf ∧ name = j.name then result.or (s.domains conf name)
      else s.domains conf name := by
  cases result with
  | none => simp [State.storeResult]
  | some d =>
      by_cases hc : conf = j.conf
      · subst hc
        by_cases hn : name = j.name
        · subst hn
          simp [State.storeResult]
        · simp [State.storeResult, hn]
      · simp [State.storeResult, hc]

/-- The two threads are at work on different configurations. -/
theorem conf_ne (h : WellFormed s) {t t' : Thread} {j j' : Job} {p p' : Phase} (ht : t' ≠ t)
    (hj : s.job t = some (j, p)) (hj' : s.job t' = some (j', p')) : j'.conf ≠ j.conf := by
  intro e
  cases t with
  | scheduler =>
      cases t' with
      | scheduler => exact ht rfl
      | reload => exact h.apart j p hj (e ▸ (h.reloading j' p' hj').1)
  | reload =>
      cases t' with
      | scheduler => exact h.apart j' p' hj' (e ▸ (h.reloading j p hj).1)
      | reload => exact ht rfl

theorem storeResult (h : WellFormed s) {t : Thread} {j : Job} {result : Option Nat}
    (hj : s.job t = some (j, .storing result)) : WellFormed (s.storeResult t j result) := by
  have hjob := h.jobs t j _ hj
  have hother : ∀ t' j' p', (s.storeResult t j result).job t' = some (j', p') →
      t' ≠ t ∧ s.job t' = some (j', p') := by
    intro t' j' p' ht
    simp only [State.storeResult] at ht
    rcases job_update ht with ⟨-, ht⟩ | ht
    · cases ht
    · exact ht
  have htodo : (s.storeResult t j result).todoTokens = s.todoTokens := by
    change (match s.reload with
      | .loading conf todo => todo.filterMap ((s.storeResult t j result).domains conf)
      | _ => []) = _
    unfold State.todoTokens
    split
    next conf todo hr =>
        apply List.filterMap_congr
        intro name hname
        rw [storeResult_domains, if_neg]
        rintro ⟨rfl, rfl⟩
        -- the scheduler is at work elsewhere, the reload has taken the name off its list
        cases t with
        | scheduler => exact h.apart j _ hj (by rw [State.building, hr])
        | reload => exact (h.reloading j _ hj).2 (by rw [State.todo, hr]; exact hname)
    next => rfl
  refine ⟨h.object, ?_, h.installed, h.building, h.events, ?_, ?_, ?_, ?_, h.todo_nodup, ?_⟩
  · intro conf name d hd
    rw [storeResult_domains] at hd
    split at hd
    next hcn =>
        obtain ⟨rfl, rfl⟩ := hcn
        cases result with
        | none => exact h.mapped _ _ _ hd
        | some r =>
            obtain rfl := Option.some.inj hd
            exact hjob.2 r rfl
    next => exact h.mapped _ _ _ hd
  · intro t' j' p' ht
    obtain ⟨htt, hj'⟩ := hother t' j' p' ht
    have hne := h.conf_ne htt hj hj'
    refine ⟨?_, (h.jobs t' j' p' hj').2⟩
    rw [storeResult_domains, if_neg fun hcn => hne hcn.1]
    exact (h.jobs t' j' p' hj').1
  · exact fun j' p' ht => h.apart j' p' (hother _ _ _ ht).2
  · exact fun j' p' ht => h.reloading j' p' (hother _ _ _ ht).2
  · exact fun hf => job_eq_none (fun j' p' ht => ⟨p', (hother _ _ _ ht).2⟩) (h.waiting hf)
  · refine State.tokens_nodup_of_le h.tokens htodo fun a => ?_
    have hupd := count_jobTokens_update s.job t none a
    simp only [hj, jobToken, Multiset.count_zero] at hupd
    simp only [State.storeResult]
    omega

/-! ## The end of a load -/

/-- What the end of a load does. -/
theorem finishLoad_cases (h : WellFormed s) {t : Thread} {j : Job} (feed : Feed)
    (hj : s.job t = some (j, .loading)) :
    (∃ n : Domain, n.failureCount = 0 ∧ n.config = (s.heap j.dom).domain.config ∧
        s.finishLoad c t j feed =
          { s with
            heap := Function.update s.heap s.nextDom ⟨j.conf, n⟩
            nextDom := s.nextDom + 1
            job := Function.update s.job t (some (j, .scheduling (some s.nextDom)
              (if n.refreshSec ≠ 0 then some n.refreshSec else none)))
            lastLoad := Function.update s.lastLoad j.conf
              (Function.update (s.lastLoad j.conf) j.name (some ⟨.returns, n.refreshSec⟩)) }) ∨
      s.finishLoad c t j feed =
        { s with
          heap := Function.update s.heap j.dom ⟨j.conf, (s.heap j.dom).domain.fail⟩
          job := Function.update s.job t (some (j, .scheduling none
            (if (s.heap j.dom).domain.nxttime ≠ 0 then some (s.heap j.dom).domain.nxttime
             else none)))
          lastLoad := Function.update s.lastLoad j.conf
            (Function.update (s.lastLoad j.conf) j.name
              (some ⟨.throws, (s.heap j.dom).domain.nxttime⟩)) } := by
  obtain ⟨hlt, hconf, -⟩ := h.mapped _ _ _ (h.jobs t j _ hj).1
  have hen := (h.object _ hlt).2
  cases Domain.refresh_cases c feed hen with
  | inl hs =>
      obtain ⟨n, hr, hf, -, -, hcfg⟩ := hs
      have hsec : n.refreshSec = (s.heap j.dom).domain.refreshSec :=
        show n.config.refreshSec = (s.heap j.dom).domain.config.refreshSec by rw [hcfg]
      refine Or.inl ⟨n, hf, hcfg, ?_⟩
      simp only [State.finishLoad, hr, hsec]
  | inr hs =>
      right
      rw [State.finishLoad, hs, hconf]

/-- What a step keeps of the objects that were there before it. -/
structure Keeps (s s' : State) : Prop where
  nextDom : s.nextDom ≤ s'.nextDom
  configuration : ∀ d, d < s.nextDom → (s'.heap d).configuration = (s.heap d).configuration
  name : ∀ d, d < s.nextDom → s'.name d = s.name d

/-- An object stays under its name in its configuration. -/
theorem Keeps.object {s' : State} (hk : Keeps s s') {conf : Nat} {name : Str} {d : Nat}
    (hd : d < s.nextDom ∧ (s.heap d).configuration = conf ∧ s.name d = name) :
    d < s'.nextDom ∧ (s'.heap d).configuration = conf ∧ s'.name d = name :=
  ⟨hd.1.trans_le hk.nextDom, (hk.configuration d hd.1).trans hd.2.1, (hk.name d hd.1).trans hd.2.2⟩

/-- A refresh goes on from its load. -/
theorem goOn (h : WellFormed s) {t : Thread} {j : Job} (hj : s.job t = some (j, .loading))
    {p : Phase} {s' : State} (hk : Keeps s s') (hdomains : s'.domains = s.domains)
    (hnextConf : s'.nextConf = s.nextConf) (hconf : s'.conf = s.conf) (hqueue : s'.queue = s.queue)
    (hfired : s'.fired = s.fired) (hreload : s'.reload = s.reload)
    (hjob : s'.job = Function.update s.job t (some (j, p)))
    (hobject : ∀ d, d < s'.nextDom →
      (s'.heap d).configuration < s.nextConf ∧ (s'.heap d).domain.failureCount ≠ -2)
    (hresult : ∀ d, p.result = some d →
      d < s'.nextDom ∧ (s'.heap d).configuration = j.conf ∧ s'.name d = j.name)
    (htokens : s'.tokens.Nodup) : WellFormed s' := by
  have hb : s'.building = s.building := by rw [State.building, hreload, State.building]
  have htodo : s'.todo = s.todo := by rw [State.todo, hreload, State.todo]
  have hold : ∀ {t' j' p'}, s'.job t' = some (j', p') →
      j' = j ∧ p' = p ∧ t' = t ∨ s.job t' = some (j', p') := by
    intro t' j' p' ht
    rw [hjob] at ht
    rcases job_update ht with ⟨htt, hx⟩ | ⟨-, ht⟩
    · cases hx
      exact Or.inl ⟨rfl, rfl, htt⟩
    · exact Or.inr ht
  -- the job of a thread has a job of that thread before it
  have hjobs : ∀ {t' j' p'}, s'.job t' = some (j', p') → ∃ p'', s.job t' = some (j', p'') := by
    intro t' j' p' ht
    rcases hold ht with ⟨rfl, -, rfl⟩ | ht
    · exact ⟨_, hj⟩
    · exact ⟨_, ht⟩
  refine ⟨?_, ?_, ?_, ?_, ?_, ?_, ?_, ?_, ?_, by rw [htodo]; exact h.todo_nodup, htokens⟩
  · rw [hnextConf]
    exact hobject
  · intro conf name d hd
    rw [hdomains] at hd
    exact hk.object (h.mapped conf name d hd)
  · rw [hconf, hnextConf, hb]
    exact h.installed
  · rw [hnextConf, hb]
    exact h.building
  · intro e he
    rw [hqueue, hfired] at he
    obtain ⟨h1, h2⟩ := h.events e he
    exact ⟨h1.trans_le hk.nextDom, (hk.configuration _ h1).trans h2⟩
  · intro t' j' p' ht
    rw [hdomains]
    rcases hold ht with ⟨rfl, rfl, -⟩ | ht
    · exact ⟨(h.jobs t j' _ hj).1, hresult⟩
    · exact ⟨(h.jobs t' j' p' ht).1, fun d hd => hk.object ((h.jobs t' j' p' ht).2 d hd)⟩
  · intro j' p' ht
    obtain ⟨p'', ht⟩ := hjobs ht
    rw [hb]
    exact h.apart j' p'' ht
  · intro j' p' ht
    obtain ⟨p'', ht⟩ := hjobs ht
    rw [hb, htodo]
    exact h.reloading j' p'' ht
  · intro hf
    rw [hfired] at hf
    exact job_eq_none (fun j' p' ht => hjobs ht) (h.waiting hf)

theorem finishLoad (h : WellFormed s) {t : Thread} {j : Job} (feed : Feed)
    (hj : s.job t = some (j, .loading)) : WellFormed (s.finishLoad c t j feed) := by
  obtain ⟨hlt, hconf, hname⟩ := h.mapped _ _ _ (h.jobs t j _ hj).1
  rcases finishLoad_cases (c := c) h feed hj with ⟨n, hf, hcfg, heq⟩ | heq
  · -- a new object at a free address
    have hold : ∀ d, d < s.nextDom →
        Function.update s.heap s.nextDom ⟨j.conf, n⟩ d = s.heap d := fun d hd =>
      Function.update_of_ne hd.ne _ _
    have hnn : n.name = j.name :=
      show n.config.name = j.name by rw [hcfg]; exact hname
    rw [heq]
    refine h.goOn hj ⟨Nat.le_succ _, ?_, ?_⟩ rfl rfl rfl rfl rfl rfl rfl ?_ ?_ ?_
    · intro d hd
      simp only [hold d hd]
    · intro d hd
      simp only [State.name, hold d hd]
    · intro d hd
      by_cases hdn : d = s.nextDom
      · subst hdn
        simp only [Function.update_self, hf]
        exact ⟨hconf ▸ (h.object _ hlt).1, by decide⟩
      · have hds : d < s.nextDom := lt_of_le_of_ne (Nat.le_of_lt_succ hd) hdn
        simp only [hold d hds]
        exact h.object d hds
    · intro d hd
      obtain rfl := Option.some.inj hd
      exact ⟨Nat.lt_succ_self _, by simp only [Function.update_self],
        by simp only [State.name, Function.update_self, hnn]⟩
    · -- the token of the old object is exchanged for the new one
      have hfresh : s.nextDom ∉ s.tokens := fun hm => absurd (h.tokens_lt _ hm) (lt_irrefl _)
      refine Multiset.nodup_of_le (Multiset.le_iff_count.mpr fun a => ?_)
        (Multiset.nodup_cons.mpr ⟨hfresh, h.tokens⟩)
      have hupd := count_jobTokens_update s.job t (some (j, .scheduling (some s.nextDom)
        (if n.refreshSec ≠ 0 then some n.refreshSec else none))) a
      simp only [hj, jobToken, Option.getD_some, Multiset.count_singleton] at hupd
      simp only [State.count_tokens, Multiset.count_cons]
      change _ + _ + _ + List.count a s.todoTokens ≤ _
      omega
  · -- a failure counted in the old object
    have hupdate : ∀ d, (Function.update s.heap j.dom
        ⟨j.conf, (s.heap j.dom).domain.fail⟩ d).configuration = (s.heap d).configuration ∧
        (Function.update s.heap j.dom ⟨j.conf, (s.heap j.dom).domain.fail⟩ d).domain.name =
          (s.heap d).domain.name := by
      intro d
      by_cases hd : d = j.dom
      · subst hd
        rw [Function.update_self]
        exact ⟨hconf.symm, rfl⟩
      · rw [Function.update_of_ne hd]
        exact ⟨rfl, rfl⟩
    rw [heq]
    refine h.goOn hj ⟨le_rfl, fun d _ => (hupdate d).1, fun d _ => (hupdate d).2⟩ rfl rfl rfl rfl
      rfl rfl rfl ?_ (fun d hd => by cases hd) ?_
    · intro d hd
      refine ⟨(hupdate d).1 ▸ (h.object d hd).1, ?_⟩
      by_cases hdj : d = j.dom
      · subst hdj
        simp only [Function.update_self]
        exact (Domain.cnt_fail _).2.2
      · simp only [Function.update_of_ne hdj]
        exact (h.object d hd).2
    · refine State.tokens_nodup_of_le h.tokens rfl fun a => ?_
      have hupd := count_jobTokens_update s.job t (some (j, .scheduling none
        (if (s.heap j.dom).domain.nxttime ≠ 0 then some (s.heap j.dom).domain.nxttime
         else none))) a
      simp only [hj, jobToken, Option.getD_none] at hupd
      simp only
      omega

/-! ## A new configuration -/

/-- What a new configuration maps a name to. -/
theorem allocate_domains_self {cfg : Configuration} {name : Str} {d : Nat} :
    (s.allocate cfg).domains s.nextConf name = some d ↔
      ∃ i e, cfg.domains.entries[i]? = some e ∧ e.1 = name ∧ d = s.nextDom + i := by
  simp only [State.allocate, Function.update_self, Option.map_eq_some_iff,
    List.findIdx?_eq_some_iff_getElem, decide_eq_true_eq]
  constructor
  · rintro ⟨i, ⟨hi, hname, -⟩, rfl⟩
    exact ⟨i, _, List.getElem?_eq_getElem hi, hname, rfl⟩
  · rintro ⟨i, e, he, hname, rfl⟩
    obtain ⟨hi, rfl⟩ := List.getElem?_eq_some_iff.mp he
    refine ⟨i, ⟨hi, hname, fun k hk hkname => ?_⟩, rfl⟩
    -- a key occurs once
    have hkeys : cfg.domains.entries.keys.Nodup := cfg.domains.nodupKeys
    rw [List.keys, List.Nodup, List.pairwise_map, List.pairwise_iff_getElem] at hkeys
    exact hkeys k i (by omega) hi hk (hkname.trans hname.symm)

theorem allocate_domains_of_ne {cfg : Configuration} {conf : Nat} (h : conf ≠ s.nextConf) :
    (s.allocate cfg).domains conf = s.domains conf := by
  simp only [State.allocate, Function.update_of_ne h]

theorem allocate_heap_old {cfg : Configuration} {d : Nat} (h : d < s.nextDom) :
    (s.allocate cfg).heap d = s.heap d := by
  simp only [State.allocate, if_neg (not_le.mpr h)]

theorem allocate_heap_new {cfg : Configuration} {i : Nat} {e : Sigma fun _ : Str => Domain}
    (h : cfg.domains.entries[i]? = some e) :
    (s.allocate cfg).heap (s.nextDom + i) = ⟨s.nextConf, e.2⟩ := by
  simp [State.allocate, h]

/-- The tokens of the new objects are new. -/
theorem le_of_mem_allocate {cfg : Configuration} {d : Nat}
    (hd : d ∈ (s.allocate cfg).todoTokens) : s.nextDom ≤ d := by
  obtain ⟨n, -, hn⟩ := List.mem_filterMap.mp hd
  obtain ⟨i, -, -, -, rfl⟩ := allocate_domains_self.mp hn
  exact Nat.le_add_right _ _

/-- They differ. -/
theorem nodup_allocate (s : State) (cfg : Configuration) :
    (s.allocate cfg).todoTokens.Nodup := by
  have hkeys : cfg.domains.entries.keys.Nodup := cfg.domains.nodupKeys
  refine List.Nodup.filterMap ?_ hkeys
  intro n n' d hd hd'
  obtain ⟨i, e, he, rfl, rfl⟩ := allocate_domains_self.mp hd
  obtain ⟨i', e', he', rfl, hi⟩ := allocate_domains_self.mp hd'
  obtain rfl : i = i' := by omega
  rw [he, Option.some.injEq] at he'
  rw [he']

theorem allocate_tokens (h : WellFormed s) {cfg : Configuration} (hb : s.building = none) :
    (s.allocate cfg).tokens.Nodup := by
  have htok : (s.allocate cfg).tokens = s.tokens + ↑(s.allocate cfg).todoTokens := by
    simp only [State.tokens, State.todoTokens_of_building hb, Multiset.coe_nil, add_zero]
    rfl
  rw [htok, Multiset.nodup_add]
  refine ⟨h.tokens, nodup_allocate s cfg, ?_⟩
  rw [Multiset.disjoint_left]
  intro d hd hd'
  exact absurd (h.tokens_lt d hd) (not_lt.mpr (le_of_mem_allocate hd'))

theorem allocate (h : WellFormed s) {loads : Source → Bool} {file : ParsedFile}
    {cfg : Configuration} (hr : s.reload = .getting)
    (hg : Configuration.get loads file = .ok cfg) : WellFormed (s.allocate cfg) := by
  have hentry : ∀ {i : Nat} {e : Sigma fun _ : Str => Domain},
      cfg.domains.entries[i]? = some e → e.2.name = e.1 ∧ e.2.failureCount = -1 := by
    intro i e he
    exact Configuration.get_domains hg e.1 e.2
      (AList.mem_lookup_iff.mpr (List.mem_of_getElem? he))
  have hnone : ∀ name, s.domains s.nextConf name = none := by
    intro name
    by_contra hne
    obtain ⟨d, hd⟩ := Option.ne_none_iff_exists'.mp hne
    obtain ⟨hlt, hconf, -⟩ := h.mapped _ _ _ hd
    exact absurd (h.object d hlt).1 (by rw [hconf]; exact lt_irrefl _)
  have hb : s.building = none := by rw [State.building, hr]
  have hbuilding : (s.allocate cfg).building = some s.nextConf := rfl
  have hk : Keeps s (s.allocate cfg) :=
    ⟨Nat.le_add_right _ _, fun d hd => by rw [allocate_heap_old hd],
      fun d hd => by rw [State.name, allocate_heap_old hd, State.name]⟩
  -- the objects of a configuration that is not the new one
  have hold : ∀ conf name d, conf ≠ s.nextConf →
      (s.allocate cfg).domains conf name = some d → s.domains conf name = some d := by
    intro conf name d hne hd
    rwa [allocate_domains_of_ne hne] at hd
  refine ⟨?_, ?_, ?_, ?_, ?_, ?_, ?_, ?_, h.waiting, cfg.domains.nodupKeys, ?_⟩
  · intro d hd
    by_cases hdn : d < s.nextDom
    · rw [allocate_heap_old hdn]
      exact ⟨Nat.lt_succ_of_lt (h.object d hdn).1, (h.object d hdn).2⟩
    · obtain ⟨i, rfl⟩ := Nat.exists_eq_add_of_le (not_lt.mp hdn)
      have hi : i < cfg.domains.entries.length := by
        change s.nextDom + i < s.nextDom + _ at hd
        omega
      have he := List.getElem?_eq_getElem hi
      rw [allocate_heap_new he, (hentry he).2]
      exact ⟨Nat.lt_succ_self _, by decide⟩
  · intro conf name d hd
    by_cases hc : conf = s.nextConf
    · subst hc
      obtain ⟨i, e, he, hname, rfl⟩ := allocate_domains_self.mp hd
      have hi : i < cfg.domains.entries.length := (List.getElem?_eq_some_iff.mp he).1
      refine ⟨Nat.add_lt_add_left hi _, ?_, ?_⟩
      · rw [allocate_heap_new he]
      · rw [State.name, allocate_heap_new he, (hentry he).1, hname]
    · exact hk.object (h.mapped conf name d (hold _ _ _ hc hd))
  · intro conf hc
    have hci := (h.installed conf hc).1
    refine ⟨Nat.lt_succ_of_lt hci, fun e => ?_⟩
    exact absurd (Option.some.inj (hbuilding.symm.trans e)) hci.ne'
  · intro conf hc
    obtain rfl := Option.some.inj (hbuilding.symm.trans hc)
    exact Nat.lt_succ_self _
  · intro e he
    obtain ⟨h1, h2⟩ := h.events e he
    exact ⟨h1.trans_le hk.nextDom, (hk.configuration _ h1).trans h2⟩
  · intro t j p ht
    refine ⟨?_, fun d hd => hk.object ((h.jobs t j p ht).2 d hd)⟩
    rw [allocate_domains_of_ne (h.job_conf_lt ht).ne]
    exact (h.jobs t j p ht).1
  · intro j p ht e
    exact absurd (Option.some.inj (hbuilding.symm.trans e)) (h.job_conf_lt ht).ne'
  · intro j p ht
    have := (h.reloading j p ht).1
    rw [hb] at this
    cases this
  · exact h.allocate_tokens hb

end WellFormed

/-! ## Every run -/

namespace State

/-- The state at the start.  The memory holds anything. -/
def start (heap : Nat → DomainObject) : State where
  now := 0
  heap := heap
  nextDom := 0
  domains _ _ := none
  nextConf := 0
  conf := none
  queue := []
  fired := none
  reload := .idle
  job _ := none
  lastLoad _ _ := none

end State

theorem wellFormed_start (heap : Nat → DomainObject) : WellFormed (State.start heap) where
  object d hd := absurd hd (Nat.not_lt_zero d)
  mapped conf name d hd := by cases hd
  installed conf hc := by cases hc
  building conf hc := by cases hc
  events e he := by cases he with
    | inl h => cases h
    | inr h => cases h
  jobs t j p ht := by cases ht
  apart j p ht := by cases ht
  reloading j p ht := by cases ht
  waiting _ := rfl
  todo_nodup := List.nodup_nil
  tokens := Multiset.nodup_zero

/-- Every step preserves well-formedness. -/
theorem WellFormed.step {c : Choices} {s s' : State} {a : Act} (h : WellFormed s)
    (hs : s.step c a = some s') : WellFormed s' := by
  cases step_cases hs with
  | tick n =>
      exact ⟨h.object, h.mapped, h.installed, h.building, h.events, h.jobs, h.apart, h.reloading,
        h.waiting, h.todo_nodup, h.tokens⟩
  | startReload hr => exact h.setReload (by rw [State.building, hr]) rfl
  | getReturns hr hg => exact h.allocate hr hg
  | getThrows hr hg => exact h.setReload (by rw [State.building, hr]) rfl
  | nextDomain hr hj hd hn => exact h.nextDomain hr hj hd hn
  | install hr hj => exact h.install hr hj
  | fire hf hj he ht => exact h.fire hf hj he
  | accept hf hc hd => exact h.accept hf hc hd
  | drop hf hd => exact h.drop hf
  | load feed hj => exact h.finishLoad feed hj
  | schedule hj => exact h.scheduleEvent hj
  | store hj => exact h.storeResult hj

/-- **Every reachable state is well-formed.** -/
theorem wellFormed_reachable {c : Choices} {heap : Nat → DomainObject} {ok : State → Act → Prop}
    {s : State} (h : Reachable (State.step c) ok (State.start heap) s) : WellFormed s :=
  h.invariant (wellFormed_start heap) fun _ _ _ hw _ hs => hw.step hs

end Undervest
