import Undervest.Ownership

/-!
# What any interleaving preserves

Two laws of the two threads.  The first holds of every run and says that a
configuration is not disturbed from outside (`undisturbed`): no domain object
has two events, an outdated event does nothing, a reload that fails leaves no
trace, and a refresh changes the configuration it belongs to only.

The second says that no domain loses its periodic refresh
(`refresh_not_lost`).  It needs a condition, `ChecksInstalled`.  The events of a
new configuration are scheduled while it is built, and the test of
`domainRefresher` takes an event of a configuration that is not installed yet
for an outdated one.  `refresh_lost` is a run in which that happens.
`Served` is the invariant: it follows an event from the end of a load through
the queue to the test.
-/

namespace Undervest

open Unordered Transition

/-! ## Configurations are not disturbed -/

/-- The actions of the scheduler thread, and time. -/
def OfScheduler : Act → Prop
  | .tick _ | .fire _ | .check => True
  | .load t _ | .schedule t | .store t => t = .scheduler
  | _ => False

/-- The scheduler does not look at the reload. -/
theorem step_setReload (c : Choices) (r : Reloader) (s : State) (a : Act) (h : OfScheduler a) :
    State.step c { s with reload := r } a =
      (s.step c a).map fun s => { s with reload := r } := by
  cases a with
  | tick n => rfl
  | startReload => cases h
  | finishGet loads file => cases h
  | nextDomain name => cases h
  | install => cases h
  | fire e =>
      simp only [State.step]
      split
      · split <;> rfl
      · rfl
  | check =>
      simp only [State.step]
      split
      next => rfl
      next e he =>
          change (if s.conf = some e.conf ∧ s.domains e.conf (s.name e.dom) = some e.dom then
            _ else _) = _
          split <;> rfl
  | load t feed =>
      simp only [State.step]
      split
      · simp only [Option.map_some, State.finishLoad]
        split <;> rfl
      · rfl
  | schedule t =>
      simp only [State.step]
      split <;> rfl
  | store t =>
      simp only [State.step]
      split <;> rfl

/-- **A reload that fails leaves no trace.**  The run ends in the same state
without it. -/
theorem run_failing_reload (c : Choices) {s : State} (hs : s.reload = .idle) {as : List Act}
    (has : ∀ a ∈ as, OfScheduler a) {loads : Source → Bool} {file : ParsedFile} {e : GetError}
    (hg : Configuration.get loads file = .error e) (he : e ≠ .undefined) :
    run (State.step c) s (.startReload :: as ++ [.finishGet loads file]) =
      run (State.step c) s as := by
  have hstart : s.step c .startReload = some { s with reload := .getting } := by
    simp only [State.step, hs]
  have hend : ∀ s' : State, State.step c { s' with reload := .getting } (.finishGet loads file) =
      some { s' with reload := .idle } := by
    intro s'
    simp only [State.step, hg]
  have hidle : { s with reload := .idle } = s := by rw [← hs]
  have hrun : ∀ r, run (State.step c) { s with reload := r } as =
      (run (State.step c) s as).map fun s => { s with reload := r } := fun r =>
    run_map (step_setReload c r) as s has
  rw [List.cons_append, run, hstart, Option.bind_some, run_append, hrun .getting]
  conv_rhs => rw [← hidle, hrun .idle]
  cases hr : run (State.step c) s as with
  | none => rfl
  | some s' =>
      simp only [Option.map_some, Option.bind_some, run, hend]

theorem count_queue_le_one {s : State} (h : WellFormed s) (d : Nat) :
    (s.queue.filter fun e => e.dom = d).length ≤ 1 := by
  have hle : (↑(s.queue.map fun e => e.dom) : Multiset Nat) ≤ s.tokens := by
    rw [State.tokens, add_assoc, add_assoc]
    exact Multiset.le_add_right _ _
  have hcount := Multiset.nodup_iff_count_le_one.mp (Multiset.nodup_of_le hle h.tokens) d
  rwa [Multiset.coe_count, List.count_eq_countP, List.countP_map, List.countP_eq_length_filter]
    at hcount

/-- The actions of a refresh. -/
def OfRefresh (t : Thread) : Act → Prop
  | .load t' _ | .schedule t' | .store t' => t' = t
  | _ => False

/-- The part of the state that belongs to a configuration is the same. -/
structure SameFor (conf : Nat) (s s' : State) : Prop where
  installed : s'.conf = s.conf
  domains : s'.domains conf = s.domains conf
  heap : ∀ name d, s.domains conf name = some d → s'.heap d = s.heap d
  queue : s'.queue.filter (fun e => e.conf = conf) = s.queue.filter fun e => e.conf = conf

/-- A refresh changes its own configuration only. -/
theorem sameFor_refresh {c : Choices} {s s' : State} {a : Act} (h : WellFormed s)
    (hs : s.step c a = some s') {t : Thread} (ha : OfRefresh t a) {j : Job} {p : Phase}
    (hj : s.job t = some (j, p)) {conf : Nat} (hconf : j.conf ≠ conf) : SameFor conf s s' := by
  have hother : ∀ {name d}, s.domains conf name = some d → d < s.nextDom ∧ d ≠ j.dom := by
    intro name d hd
    obtain ⟨h1, h2, -⟩ := h.mapped _ _ _ hd
    obtain ⟨-, h3, -⟩ := h.mapped _ _ _ (h.jobs t j p hj).1
    exact ⟨h1, fun e => hconf (by rw [← h3, ← h2, e])⟩
  cases step_cases hs with
  | tick n => cases ha
  | startReload hr => cases ha
  | getReturns hr hg => cases ha
  | getThrows hr hg => cases ha
  | nextDomain hr hj hd hn => cases ha
  | install hr hj => cases ha
  | fire hf hj he ht => cases ha
  | accept hf hc hd => cases ha
  | drop hf hd => cases ha
  | load feed hj' =>
      obtain rfl := ha
      rw [hj] at hj'
      cases hj'
      rcases h.finishLoad_cases (c := c) feed hj with ⟨n, -, -, heq⟩ | heq
      · rw [heq]
        exact ⟨rfl, rfl, fun name d hd => Function.update_of_ne (hother hd).1.ne _ _, rfl⟩
      · rw [heq]
        exact ⟨rfl, rfl, fun name d hd => Function.update_of_ne (hother hd).2 _ _, rfl⟩
  | @schedule _ j' result delay hj' =>
      obtain rfl := ha
      rw [hj] at hj'
      cases hj'
      refine ⟨rfl, rfl, fun _ _ _ => rfl, ?_⟩
      cases delay with
      | none => rfl
      | some sec => simp [State.scheduleEvent, hconf]
  | @store _ j' result hj' =>
      obtain rfl := ha
      rw [hj] at hj'
      cases hj'
      refine ⟨rfl, ?_, fun _ _ _ => rfl, rfl⟩
      funext name
      rw [WellFormed.storeResult_domains, if_neg fun hc => hconf hc.1.symm]

/-- **A configuration is not disturbed from outside.** -/
theorem undisturbed (c : Choices) (heap : Nat → DomainObject) :
    -- no domain object of the installed configuration has two events
    (∀ s, Reachable (State.step c) (fun _ _ => True) (State.start heap) s →
      ∀ conf name d, s.conf = some conf → s.domains conf name = some d →
        (s.queue.filter fun e => e.dom = d).length ≤ 1) ∧
    -- an event that is outdated when it is tested changes nothing
    (∀ s, Reachable (State.step c) (fun _ _ => True) (State.start heap) s →
      (∀ e s', s.step c (.fire e) = some s' →
        s' = { s with queue := s.queue.erase e, fired := some e }) ∧
      ∀ e, s.fired = some e →
        s.conf ≠ some e.conf ∨ s.domains e.conf (s.name e.dom) ≠ some e.dom →
        s.step c .check = some { s with fired := none }) ∧
    -- a reload that fails leaves no trace
    (∀ s, Reachable (State.step c) (fun _ _ => True) (State.start heap) s → s.reload = .idle →
      ∀ as, (∀ a ∈ as, OfScheduler a) →
      ∀ loads file e, Configuration.get loads file = .error e → e ≠ .undefined →
        run (State.step c) s (.startReload :: as ++ [.finishGet loads file]) =
          run (State.step c) s as) ∧
    -- a refresh of another configuration does not touch the installed one
    ∀ s, Reachable (State.step c) (fun _ _ => True) (State.start heap) s →
      ∀ conf, s.conf = some conf → ∀ t j p, s.job t = some (j, p) → j.conf ≠ conf →
        ∀ a s', OfRefresh t a → s.step c a = some s' → SameFor conf s s' := by
  refine ⟨?_, ?_, ?_, ?_⟩
  · exact fun s hs _ _ d _ _ => count_queue_le_one (wellFormed_reachable hs) d
  · refine fun s _ => ⟨fun e s' hs => ?_, fun e he hout => ?_⟩
    · cases step_cases hs
      rfl
    · simp only [State.step, he]
      rw [if_neg]
      rintro ⟨hc, hd⟩
      exact hout.elim (fun hne => hne hc) fun hne => hne hd
  · exact fun s _ hidle as has loads file e hg he => run_failing_reload c hidle has hg he
  · exact fun s hs conf _ t j p hj hne a s' ha hstep =>
      sameFor_refresh (wellFormed_reachable hs) hstep ha hj hne

/-! ## Periodic refreshes -/

namespace State

/-- The last load calls for another one, for the object `d`. -/
def Needs (s : State) (d : Nat) (r : LoadRecord) : Prop :=
  match r.completion with
  | .returns => (s.heap d).domain.refreshSec ≠ 0
  | .throws => r.nxttime ≠ 0

/-- The queue holds the event of an object. -/
def Queued (s : State) (conf d : Nat) : Prop := ∃ e ∈ s.queue, e.conf = conf ∧ e.dom = d

/-- The scheduler has taken the event of an object. -/
def Fired (s : State) (conf d : Nat) : Prop :=
  ∃ e, s.fired = some e ∧ e.conf = conf ∧ e.dom = d

/-- A refresh of a domain is under way. -/
def Refreshing (s : State) (conf : Nat) (name : Str) : Prop :=
  ∃ t j p, s.job t = some (j, p) ∧ j.conf = conf ∧ j.name = name

/-- A load of a domain with object `d` is in progress, from the expiry of its
event to the store of its result. -/
def InProgress (s : State) (conf : Nat) (name : Str) (d : Nat) : Prop :=
  s.Fired conf d ∨ s.Refreshing conf name

/-- No domain of the installed configuration has lost its periodic refresh. -/
def NoLostRefresh (s : State) : Prop :=
  ∀ conf name d, s.conf = some conf → s.domains conf name = some d →
    ¬ s.InProgress conf name d →
    ∀ r, s.lastLoad conf name = some r → s.Needs d r → s.Queued conf d

/-- No event is tested while a reload builds its configuration. -/
def ChecksInstalled (s : State) : Act → Prop
  | .check => ∀ e, s.fired = some e → s.building ≠ some e.conf
  | _ => True

/-- A configuration is installed or will be. -/
def Live (s : State) (conf : Nat) : Prop := s.conf = some conf ∨ s.building = some conf

/-- A reload has not come to a domain yet. -/
def Waiting (s : State) (conf : Nat) (name : Str) : Prop :=
  s.building = some conf ∧ name ∈ s.todo

end State

/-- Where the event of a domain is, from the end of a load to the next one. -/
structure Served (s : State) : Prop where
  settled : ∀ conf name d, s.Live conf → s.domains conf name = some d → ¬ s.Waiting conf name →
    ¬ s.InProgress conf name d → ∀ r, s.lastLoad conf name = some r → s.Needs d r →
    s.Queued conf d
  scheduling : ∀ t j result delay, s.job t = some (j, .scheduling result delay) →
    ∀ r, s.lastLoad j.conf j.name = some r → s.Needs (result.getD j.dom) r → delay ≠ none
  storing : ∀ t j result, s.job t = some (j, .storing result) →
    ∀ r, s.lastLoad j.conf j.name = some r → s.Needs (result.getD j.dom) r →
    s.Queued j.conf (result.getD j.dom) ∨ s.Fired j.conf (result.getD j.dom)

namespace Served

variable {c : Choices} {s : State}

/-- The invariant gives the law. -/
theorem noLostRefresh (h : Served s) (hw : WellFormed s) : s.NoLostRefresh :=
  fun conf name d hc hd hp r hr hn => h.settled conf name d (Or.inl hc) hd
    (fun hwait => (hw.installed conf hc).2 hwait.1) hp r hr hn

/-- The reload thread goes from one state outside its loop to another. -/
theorem setReload (h : Served s) {r : Reloader} (hs : s.building = none)
    (hr : State.building { s with reload := r } = none) : Served { s with reload := r } := by
  refine ⟨fun conf name d hl hd _ hp => ?_, h.scheduling, h.storing⟩
  have hc : s.conf = some conf := hl.resolve_right fun hb => by
    rw [hr] at hb
    cases hb
  refine h.settled conf name d (Or.inl hc) hd (fun hw => ?_) hp
  have := hw.1
  rw [hs] at this
  cases this

theorem install (h : Served s) {conf : Nat} (hr : s.reload = .loading conf []) :
    Served { s with conf := some conf, reload := .idle } := by
  refine ⟨fun conf' name d hl hd _ hp => ?_, h.scheduling, h.storing⟩
  have hc : conf = conf' := Option.some.inj (hl.resolve_right fun hb => by cases hb)
  subst hc
  refine h.settled conf name d (Or.inr (by rw [State.building, hr])) hd (fun hw => ?_) hp
  have := hw.2
  rw [State.todo, hr] at this
  cases this

theorem nextDomain (h : Served s) {name : Str} {conf d : Nat} {todo : List Str}
    (hr : s.reload = .loading conf todo) (hj : s.job .reload = none) :
    Served { s with
      reload := .loading conf (todo.erase name)
      job := Function.update s.job .reload (some (⟨conf, name, d⟩, .loading)) } := by
  have hb : s.building = some conf := by rw [State.building, hr]
  have htodo : s.todo = todo := by rw [State.todo, hr]
  refine ⟨fun conf' name' d' hl hd hwait hp => ?_, ?_, ?_⟩
  · refine h.settled conf' name' d' (hl.imp_right fun e => hb.trans e) hd (fun hw => ?_)
      fun hp' => hp ?_
    · -- a name that has just left the list is being refreshed
      obtain rfl := Option.some.inj (hb.symm.trans hw.1)
      by_cases hn : name' = name
      · exact hp (Or.inr ⟨.reload, _, _, rfl, rfl, hn.symm⟩)
      · exact hwait ⟨rfl, (List.mem_erase_of_ne hn).mpr (htodo ▸ hw.2)⟩
    · refine hp'.imp_right ?_
      rintro ⟨t, j, p, ht, hjc, hjn⟩
      cases t with
      | scheduler => exact ⟨.scheduler, j, p, ht, hjc, hjn⟩
      | reload =>
          rw [hj] at ht
          cases ht
  · intro t j result delay ht
    cases t with
    | scheduler => exact h.scheduling .scheduler j result delay ht
    | reload => cases ht
  · intro t j result ht
    cases t with
    | scheduler => exact h.storing .scheduler j result ht
    | reload => cases ht

theorem fire (h : Served s) {e : TimedEvent} (hf : s.fired = none) :
    Served { s with queue := s.queue.erase e, fired := some e } := by
  have hqueue : ∀ {conf d}, s.Queued conf d → ¬ (e.conf = conf ∧ e.dom = d) →
      ∃ e' ∈ s.queue.erase e, e'.conf = conf ∧ e'.dom = d := by
    rintro conf d ⟨e', he', hc, hd⟩ hne
    have hee : e' ≠ e := by
      rintro rfl
      exact hne ⟨hc, hd⟩
    exact ⟨e', (List.mem_erase_of_ne hee).mpr he', hc, hd⟩
  refine ⟨fun conf name d hl hd hwait hp r hr hn => ?_, h.scheduling, ?_⟩
  · refine hqueue (h.settled conf name d hl hd hwait (fun hp' => hp ?_) r hr hn)
      fun he => hp (Or.inl ⟨e, rfl, he⟩)
    refine hp'.imp_left fun ⟨e', he', _⟩ => ?_
    rw [hf] at he'
    cases he'
  · intro t j result ht r hr hn
    by_cases he : e.conf = j.conf ∧ e.dom = result.getD j.dom
    · exact Or.inr ⟨e, rfl, he⟩
    · refine Or.inl (hqueue ((h.storing t j result ht r hr hn).resolve_right ?_) he)
      rintro ⟨e', he', -⟩
      rw [hf] at he'
      cases he'

/-- A stored event of the reload thread is not the one that is tested. -/
theorem storing_check (h : Served s) (hw : WellFormed s) (hok : s.ChecksInstalled .check)
    {e : TimedEvent} (hf : s.fired = some e) {t : Thread} {j : Job} {result : Option Nat}
    (ht : s.job t = some (j, .storing result)) {r : LoadRecord}
    (hr : s.lastLoad j.conf j.name = some r) (hn : s.Needs (result.getD j.dom) r) :
    s.Queued j.conf (result.getD j.dom) := by
  refine (h.storing t j result ht r hr hn).resolve_right ?_
  rintro ⟨e', he', hc, -⟩
  rw [hf, Option.some.injEq] at he'
  subst he'
  cases t with
  | scheduler =>
      have := hw.waiting (by rw [hf]; exact Option.some_ne_none e)
      rw [this] at ht
      cases ht
  | reload => exact hok e hf (hc ▸ (hw.reloading j _ ht).1)

theorem accept (h : Served s) (hw : WellFormed s) (hok : s.ChecksInstalled .check)
    {e : TimedEvent} (hf : s.fired = some e) :
    Served { s with
      fired := none
      job := Function.update s.job .scheduler
        (some (⟨e.conf, s.name e.dom, e.dom⟩, .loading)) } := by
  have hj := hw.waiting (by rw [hf]; exact Option.some_ne_none e)
  refine ⟨fun conf name d hl hd hwait hp => ?_, ?_, ?_⟩
  · refine h.settled conf name d hl hd hwait fun hp' => hp (Or.inr ?_)
    rcases hp' with ⟨e', he', hc, hed⟩ | ⟨t, j, p, ht, hjc, hjn⟩
    · rw [hf, Option.some.injEq] at he'
      subst he'
      refine ⟨.scheduler, _, _, rfl, hc, ?_⟩
      rw [hed]
      exact (hw.mapped _ _ _ hd).2.2
    · cases t with
      | scheduler =>
          rw [hj] at ht
          cases ht
      | reload => exact ⟨.reload, j, p, ht, hjc, hjn⟩
  · intro t j result delay ht
    cases t with
    | scheduler => cases ht
    | reload => exact h.scheduling .reload j result delay ht
  · intro t j result ht r hr hn
    cases t with
    | scheduler => cases ht
    | reload => exact Or.inl (h.storing_check hw hok hf ht hr hn)

theorem drop (h : Served s) (hw : WellFormed s) (hok : s.ChecksInstalled .check)
    {e : TimedEvent} (hf : s.fired = some e)
    (hout : ¬ (s.conf = some e.conf ∧ s.domains e.conf (s.name e.dom) = some e.dom)) :
    Served { s with fired := none } := by
  refine ⟨fun conf name d hl hd hwait hp => ?_, h.scheduling, ?_⟩
  · refine h.settled conf name d hl hd hwait fun hp' => ?_
    rcases hp' with ⟨e', he', rfl, rfl⟩ | hrefresh
    · -- an event of a live configuration is not outdated
      rw [hf, Option.some.injEq] at he'
      subst he'
      cases hl with
      | inl hc => exact hout ⟨hc, by rw [(hw.mapped _ _ _ hd).2.2]; exact hd⟩
      | inr hb => exact hok e hf hb
    · exact hp (Or.inr hrefresh)
  · exact fun t j result ht r hr hn => Or.inl (h.storing_check hw hok hf ht hr hn)

/-! ## The steps of a refresh -/

/-- A refresh that goes on is still under way. -/
theorem refreshing_update {job : Thread → Option (Job × Phase)} {t : Thread} {j : Job}
    {p p' : Phase} (hj : job t = some (j, p)) {conf : Nat} {name : Str}
    (h : ∃ t' j' p', job t' = some (j', p') ∧ j'.conf = conf ∧ j'.name = name) :
    ∃ t' j' x, Function.update job t (some (j, p')) t' = some (j', x) ∧
      j'.conf = conf ∧ j'.name = name := by
  obtain ⟨t', j', x, ht, hc, hn⟩ := h
  by_cases htt : t' = t
  · subst htt
    rw [hj, Option.some.injEq, Prod.mk.injEq] at ht
    exact ⟨t', j, p', Function.update_self .., ht.1 ▸ hc, ht.1 ▸ hn⟩
  · exact ⟨t', j', x, by rw [Function.update_of_ne htt, ht], hc, hn⟩

theorem lastLoad_of_ne {conf conf' : Nat} {name name' : Str} {r : LoadRecord}
    (h : ¬ (conf' = conf ∧ name' = name)) :
    Function.update s.lastLoad conf (Function.update (s.lastLoad conf) name (some r)) conf' name' =
      s.lastLoad conf' name' := by
  by_cases hc : conf' = conf
  · subst hc
    rw [Function.update_self, Function.update_of_ne fun hn => h ⟨rfl, hn⟩]
  · rw [Function.update_of_ne hc]

/-- What an object needs depends on its period. -/
theorem needs_of_eq {s' : State} {d : Nat} {r : LoadRecord}
    (h : (s'.heap d).domain.refreshSec = (s.heap d).domain.refreshSec) (hn : s'.Needs d r) :
    s.Needs d r := by
  unfold State.Needs at hn ⊢
  rwa [h] at hn

/-- A refresh goes on from its load, and has an event to schedule if the result
of the load calls for one. -/
theorem goOn (h : Served s) (hw : WellFormed s) {t : Thread} {j : Job}
    (hj : s.job t = some (j, .loading)) {result₀ : Option Nat} {delay₀ : Option UInt32}
    {r₀ : LoadRecord} {s' : State}
    (hjob : s'.job = Function.update s.job t (some (j, .scheduling result₀ delay₀)))
    (hqueue : s'.queue = s.queue) (hfired : s'.fired = s.fired) (hconf : s'.conf = s.conf)
    (hreload : s'.reload = s.reload) (hdomains : s'.domains = s.domains)
    (hlast : s'.lastLoad = Function.update s.lastLoad j.conf
      (Function.update (s.lastLoad j.conf) j.name (some r₀)))
    (hsec : ∀ d, d < s.nextDom → (s'.heap d).domain.refreshSec = (s.heap d).domain.refreshSec)
    (hdelay : s'.Needs (result₀.getD j.dom) r₀ → delay₀ ≠ none) : Served s' := by
  refine ⟨fun conf name d hl hd hwait hp r hr hn => ?_, ?_, ?_⟩
  · have hcn : ¬ (conf = j.conf ∧ name = j.name) := by
      rintro ⟨rfl, rfl⟩
      exact hp (Or.inr ⟨t, j, _, by rw [hjob, Function.update_self], rfl, rfl⟩)
    rw [hlast, lastLoad_of_ne hcn] at hr
    rw [hdomains] at hd
    rw [State.Queued, hqueue]
    refine h.settled conf name d ?_ hd (fun hw' => hwait ?_) (fun hp' => hp ?_) r hr
      (needs_of_eq (hsec d (hw.mapped _ _ _ hd).1) hn)
    · rwa [State.Live, State.building, hconf, hreload] at hl
    · rwa [State.Waiting, State.building, State.todo, hreload]
    · refine hp'.imp (fun hf => ?_) fun href => ?_
      · rwa [State.Fired, hfired]
      · rw [State.Refreshing, hjob]
        exact refreshing_update hj href
  · intro t' j' result delay ht r hr hn
    rw [hjob] at ht
    rcases job_update ht with ⟨-, hx⟩ | ⟨htt, ht⟩
    · cases hx
      rw [hlast, Function.update_self, Function.update_self, Option.some.injEq] at hr
      rw [← hr] at hn
      exact hdelay hn
    · rw [hlast, lastLoad_of_ne fun hc => hw.conf_ne htt hj ht hc.1] at hr
      exact h.scheduling t' j' result delay ht r hr
        (needs_of_eq (hsec _ (hw.target_lt ht)) hn)
  · intro t' j' result ht r hr hn
    rw [hjob] at ht
    rcases job_update ht with ⟨-, hx⟩ | ⟨htt, ht⟩
    · cases hx
    · rw [hlast, lastLoad_of_ne fun hc => hw.conf_ne htt hj ht hc.1] at hr
      rw [State.Queued, State.Fired, hqueue, hfired]
      exact h.storing t' j' result ht r hr (needs_of_eq (hsec _ (hw.target_lt ht)) hn)

theorem finishLoad (h : Served s) (hw : WellFormed s) {t : Thread} {j : Job} (feed : Feed)
    (hj : s.job t = some (j, .loading)) : Served (s.finishLoad c t j feed) := by
  rcases hw.finishLoad_cases (c := c) feed hj with ⟨n, -, -, heq⟩ | heq
  · rw [heq]
    refine h.goOn hw hj rfl rfl rfl rfl rfl rfl rfl (fun d hd => ?_) fun hn => ?_
    · simp only [Function.update_of_ne hd.ne]
    · simp only [State.Needs, Option.getD_some, Function.update_self] at hn
      rw [if_pos hn]
      exact Option.some_ne_none _
  · rw [heq]
    refine h.goOn hw hj rfl rfl rfl rfl rfl rfl rfl (fun d hd => ?_) fun hn => ?_
    · by_cases hdj : d = j.dom
      · subst hdj
        simp only [Function.update_self]
        rfl
      · simp only [Function.update_of_ne hdj]
    · simp only [State.Needs] at hn
      rw [if_pos hn]
      exact Option.some_ne_none _

theorem scheduleEvent (h : Served s) {t : Thread} {j : Job} {result : Option Nat}
    {delay : Option UInt32} (hj : s.job t = some (j, .scheduling result delay)) :
    Served (s.scheduleEvent t j result delay) := by
  have hqueue : ∀ {conf d}, s.Queued conf d → (s.scheduleEvent t j result delay).Queued conf d := by
    rintro conf d ⟨e, he, hed⟩
    refine ⟨e, ?_, hed⟩
    cases delay with
    | none => exact he
    | some sec => exact List.mem_append_left _ he
  refine ⟨fun conf name d hl hd hwait hp r hr hn => ?_, ?_, ?_⟩
  · exact hqueue (h.settled conf name d hl hd hwait
      (fun hp' => hp (hp'.imp_right fun hr => refreshing_update hj hr)) r hr hn)
  · intro t' j' result' delay' ht
    simp only [State.scheduleEvent] at ht
    rcases job_update ht with ⟨-, hx⟩ | ⟨-, ht⟩
    · cases hx
    · exact h.scheduling t' j' result' delay' ht
  · intro t' j' result' ht r hr hn
    simp only [State.scheduleEvent] at ht
    rcases job_update ht with ⟨-, hx⟩ | ⟨-, ht⟩
    · cases hx
      have hdelay := h.scheduling t j result delay hj r hr hn
      cases delay with
      | none => exact absurd rfl hdelay
      | some sec =>
          exact Or.inl ⟨_, List.mem_append_right _ (List.mem_singleton.mpr rfl), rfl, rfl⟩
    · exact (h.storing t' j' result' ht r hr hn).imp_left hqueue

theorem storeResult (h : Served s) (hw : WellFormed s) {t : Thread} {j : Job}
    {result : Option Nat} (hj : s.job t = some (j, .storing result)) :
    Served (s.storeResult t j result) := by
  refine ⟨fun conf name d hl hd hwait hp r hr hn => ?_, ?_, ?_⟩
  · rw [WellFormed.storeResult_domains] at hd
    split at hd
    next hcn =>
        obtain ⟨rfl, rfl⟩ := hcn
        have hdom : result.getD j.dom = d := by
          cases result with
          | none => exact Option.some.inj ((hw.jobs t j _ hj).1.symm.trans hd)
          | some d' => exact Option.some.inj hd
        rw [← hdom] at hn ⊢
        refine (h.storing t j result hj r hr hn).resolve_right fun hf => hp (Or.inl ?_)
        rwa [← hdom]
    next hcn =>
        refine h.settled conf name d hl hd hwait (fun hp' => hp ?_) r hr hn
        refine hp'.imp_right fun ⟨t', j', p', ht, hc, hname⟩ => ?_
        by_cases htt : t' = t
        · subst htt
          rw [hj] at ht
          cases ht
          exact absurd ⟨hc.symm, hname.symm⟩ hcn
        · exact ⟨t', j', p', by simp only [State.storeResult, Function.update_of_ne htt, ht],
            hc, hname⟩
  · intro t' j' result' delay' ht
    simp only [State.storeResult] at ht
    rcases job_update ht with ⟨-, hx⟩ | ⟨-, ht⟩
    · cases hx
    · exact h.scheduling t' j' result' delay' ht
  · intro t' j' result' ht
    simp only [State.storeResult] at ht
    rcases job_update ht with ⟨-, hx⟩ | ⟨-, ht⟩
    · cases hx
    · exact h.storing t' j' result' ht

theorem allocate (h : Served s) (hw : WellFormed s) {cfg : Configuration}
    (hr : s.reload = .getting) : Served (s.allocate cfg) := by
  have hneeds : ∀ {d r}, d < s.nextDom → (s.allocate cfg).Needs d r → s.Needs d r := fun hd hn =>
    needs_of_eq (by rw [WellFormed.allocate_heap_old hd]) hn
  refine ⟨fun conf name d hl hd hwait hp r hlast hn => ?_, ?_, ?_⟩
  · by_cases hc : conf = s.nextConf
    · -- the reload has not come to any domain of the new configuration
      subst hc
      obtain ⟨i, e, he, rfl, -⟩ := WellFormed.allocate_domains_self.mp hd
      exact absurd ⟨rfl, List.mem_map_of_mem (List.mem_of_getElem? he)⟩ hwait
    · rw [WellFormed.allocate_domains_of_ne hc] at hd
      have hconf : s.conf = some conf := hl.resolve_right fun hb => hc (Option.some.inj hb).symm
      refine h.settled conf name d (Or.inl hconf) hd (fun hw' => ?_) hp r hlast
        (hneeds (hw.mapped _ _ _ hd).1 hn)
      have := hw'.1
      rw [State.building, hr] at this
      cases this
  · exact fun t j result delay ht r hlast hn =>
      h.scheduling t j result delay ht r hlast (hneeds (hw.target_lt ht) hn)
  · exact fun t j result ht r hlast hn =>
      h.storing t j result ht r hlast (hneeds (hw.target_lt ht) hn)

/-- Every step that meets the condition preserves the invariant. -/
theorem step {s' : State} {a : Act} (h : Served s) (hw : WellFormed s)
    (hok : s.ChecksInstalled a) (hs : s.step c a = some s') : Served s' := by
  cases step_cases hs with
  | tick n => exact ⟨h.settled, h.scheduling, h.storing⟩
  | startReload hr => exact h.setReload (by rw [State.building, hr]) rfl
  | getReturns hr hg => exact h.allocate hw hr
  | getThrows hr hg => exact h.setReload (by rw [State.building, hr]) rfl
  | nextDomain hr hj hd hn => exact h.nextDomain hr hj
  | install hr hj => exact h.install hr
  | fire hf hj he ht => exact h.fire hf
  | accept hf hc hd => exact h.accept hw hok hf
  | drop hf hd => exact h.drop hw hok hf hd
  | load feed hj => exact h.finishLoad hw feed hj
  | schedule hj => exact h.scheduleEvent hj
  | store hj => exact h.storeResult hw hj

end Served

theorem served_start (heap : Nat → DomainObject) : Served (State.start heap) where
  settled conf name d hl hd := by cases hd
  scheduling t j result delay ht := by cases ht
  storing t j result ht := by cases ht

/-- **No domain loses its periodic refresh** in a run in which no event is tested
while its configuration is built. -/
theorem refresh_not_lost {c : Choices} {heap : Nat → DomainObject} {s : State}
    (h : Reachable (State.step c) State.ChecksInstalled (State.start heap) s) :
    s.NoLostRefresh :=
  (h.strengthen (fun _ hr => wellFormed_reachable hr) (served_start heap)
    fun _ _ _ hw hsv hok hs => hsv.step hw hok hs).noLostRefresh (wellFormed_reachable h)

/-! ## A refresh that is lost -/

namespace Overtaken

/-- Two domains, the first of which is refreshed every second. -/
def file : ParsedFile := .success
  { domains := [{ title := str "a", refresh := 1 }, { title := str "b" }]
    titles_nodup := by decide }

def heap (_d : Nat) : DomainObject := ⟨0, Domain.sample 1 1⟩

/-- A refresh of the reload thread, of a domain that has one recipient. -/
def refresh (name : Str) : List Act :=
  [.nextDomain name, .load .reload (Domain.sampleFeed [str "john"]), .schedule .reload,
    .store .reload]

/-- A reload. -/
def reload : List Act :=
  [.startReload, .finishGet (fun _ => true) file] ++ refresh (str "a") ++ refresh (str "b") ++
    [.install]

/-- The same reload, with the event of the first domain tested before the second
domain is refreshed. -/
def slowReload : List Act :=
  [.startReload, .finishGet (fun _ => true) file] ++ refresh (str "a") ++
    [.tick 1, .fire ⟨1, 0, 2⟩, .check] ++ refresh (str "b") ++ [.install]

/-- The first domain is installed and has loaded, and nothing is in progress. -/
structure Settled (s : State) : Prop where
  installed : s.conf = some 0 ∧ s.domains 0 (str "a") = some 2
  loaded : s.lastLoad 0 (str "a") = some ⟨.returns, 1⟩ ∧ (s.heap 2).domain.refreshSec = 1
  idle : s.fired = none ∧ s.job .scheduler = none ∧ s.job .reload = none

instance : DecidablePred Settled := fun s =>
  decidable_of_iff ((s.conf = some 0 ∧ s.domains 0 (str "a") = some 2) ∧
      (s.lastLoad 0 (str "a") = some ⟨.returns, 1⟩ ∧ (s.heap 2).domain.refreshSec = 1) ∧
      s.fired = none ∧ s.job .scheduler = none ∧ s.job .reload = none)
    ⟨fun h => ⟨h.1, h.2.1, h.2.2⟩, fun h => ⟨h.installed, h.loaded, h.idle⟩⟩

/-- The law gives the first domain an event. -/
theorem Settled.queued {s : State} (h : Settled s) (hlost : s.NoLostRefresh) : s.Queued 0 2 := by
  refine hlost 0 (str "a") 2 h.installed.1 h.installed.2 ?_ ⟨.returns, 1⟩ h.loaded.1 ?_
  · rintro (⟨e, he, -⟩ | ⟨t, j, p, ht, -⟩)
    · rw [h.idle.1] at he
      cases he
    · cases t with
      | scheduler =>
          rw [h.idle.2.1] at ht
          cases ht
      | reload =>
          rw [h.idle.2.2] at ht
          cases ht
  · rw [State.Needs, h.loaded.2]
    decide

end Overtaken

open Overtaken in
/-- After a reload the event of the first domain waits in the queue. -/
theorem refresh_not_lost_sample :
    ∃ s, Reachable (State.step .canonical) State.ChecksInstalled (State.start heap) s ∧
      Settled s ∧ s.Queued 0 2 := by
  have hok : ∀ s, ∀ a ∈ reload, State.ChecksInstalled s a := by
    simp [reload, Overtaken.refresh, State.ChecksInstalled]
  have hrun : (run (State.step .canonical) (State.start heap) reload).map
      (fun s => decide (Settled s)) = some true := by decide +kernel
  obtain ⟨s, hs, hset⟩ := Reachable.exists_of_run hok hrun
  exact ⟨s, hs, hset, hset.queued (refresh_not_lost hs)⟩

open Overtaken in
/-- **A refresh that is lost.**  The first domain has loaded and has a refresh
period, nothing is in progress, and the queue is empty. -/
theorem refresh_lost :
    ∃ s, Reachable (State.step .canonical) (fun _ _ => True) (State.start heap) s ∧
      s.queue = [] ∧ ¬ s.NoLostRefresh := by
  have hrun : (run (State.step .canonical) (State.start heap) slowReload).map
      (fun s => decide (Settled s ∧ s.queue = [])) = some true := by decide +kernel
  obtain ⟨s, hs, hset, hqueue⟩ := Reachable.exists_of_run (fun _ _ _ => trivial) hrun
  refine ⟨s, hs, hqueue, fun hlost => ?_⟩
  obtain ⟨e, he, -⟩ := hset.queued hlost
  rw [hqueue] at he
  cases he

end Undervest
