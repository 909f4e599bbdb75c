import Undervest.Objects
import Undervest.Interleaving

/-!
# A reload comes to an end

Once the configuration file has been read, a reload refreshes the domains one after the
other and installs the new configuration.  A domain whose load fails does not stop it.

`State.work` counts the steps that are left: four for a domain, and one to install.  Each
step of the loop takes one away, the scheduler none, and one of them is possible as long
as some are left.  So a reload ends after as many steps as it has, whatever the scheduler
does in between and whatever the sources deliver (`reload_ends`).
-/

namespace Undervest

open Unordered Transition

variable {c : Choices} {s s' : State} {a : Act}

/-! ## The steps that are left -/

/-- A step of the loop of a reload. -/
def Act.ofLoop : Act → Bool
  | .nextDomain _ | .install => true
  | .load t _ | .schedule t | .store t => t = .reload
  | _ => false

/-- A step that begins a reload or the loop of one. -/
def Act.begins : Act → Prop
  | .startReload | .finishGet _ _ => True
  | _ => False

/-- The steps that are left of a refresh. -/
def jobWork : Option (Job × Phase) → Nat
  | none => 0
  | some (_, .loading) => 3
  | some (_, .scheduling _ _) => 2
  | some (_, .storing _) => 1

/-- The steps that are left of a reload. -/
def State.work (s : State) : Nat :=
  match s.reload with
  | .loading _ todo => 4 * todo.length + jobWork (s.job .reload) + 1
  | _ => 0

theorem work_of_loading {conf : Nat} {todo : List Str} (h : s.reload = .loading conf todo) :
    s.work = 4 * todo.length + jobWork (s.job .reload) + 1 := by
  rw [State.work, h]

/-- The state of the reload thread determines the work. -/
theorem work_congr (hr : s'.reload = s.reload) (hj : s'.job .reload = s.job .reload) :
    s'.work = s.work := by
  rw [State.work, hr, hj, State.work]

/-- The names left are names of the configuration. -/
def TodoMapped (s : State) : Prop :=
  ∀ conf todo, s.reload = .loading conf todo → ∀ name ∈ todo, ∃ d, s.domains conf name = some d

theorem TodoMapped.step (h : TodoMapped s) (hs : s.step c a = some s') : TodoMapped s' := by
  intro conf todo hr name hn
  cases step_cases hs with
  | startReload hr' => cases hr
  | getReturns hr' hg =>
      cases hr
      obtain ⟨e, he, rfl⟩ := List.mem_map.mp hn
      obtain ⟨i, hi⟩ := List.getElem?_of_mem he
      exact ⟨_, WellFormed.allocate_domains_self.mpr ⟨i, e, hi, rfl, rfl⟩⟩
  | getThrows hr' hg => cases hr
  | nextDomain hr' hj hd hn' =>
      cases hr
      exact h _ _ hr' name (List.mem_of_mem_erase hn)
  | install hr' hj => cases hr
  | @load t j feed hj =>
      obtain ⟨hdom, hreload, -⟩ := finishLoad_frame c s t j feed
      rw [hreload] at hr
      rw [hdom]
      exact h conf todo hr name hn
  | @store t j result hj =>
      obtain ⟨d, hd⟩ := h conf todo hr name hn
      rw [WellFormed.storeResult_domains]
      split
      next =>
          cases result with
          | none => exact ⟨d, hd⟩
          | some r => exact ⟨r, rfl⟩
      next => exact ⟨d, hd⟩
  | _ => exact h conf todo hr name hn

/-- What is known of the states of a reload of a configuration: it is being built, or it
has been installed. -/
structure Reloads (s : State) (conf : Nat) : Prop where
  wellFormed : WellFormed s
  mapped : TodoMapped s
  stage : s.building = some conf ∨ s.building = none ∧ s.conf = some conf

variable {conf : Nat}

/-- A job of the reload thread has steps left. -/
theorem loading_of_job (h : WellFormed s) {j : Job} {p : Phase}
    (hj : s.job .reload = some (j, p)) : ∃ todo, s.reload = .loading j.conf todo := by
  have hb := (h.reloading j p hj).1
  unfold State.building at hb
  split at hb
  next conf todo hr =>
      obtain rfl := Option.some.inj hb
      exact ⟨todo, hr⟩
  next => cases hb

/-- **A step of the loop takes one step away.** -/
theorem work_down (h : WellFormed s) (ha : a.ofLoop = true) (hs : s.step c a = some s') :
    s'.work + 1 = s.work := by
  -- a refresh of the reload thread goes on
  have hjob : ∀ {j p x} {s' : State}, s.job .reload = some (j, p) → s'.reload = s.reload →
      s'.job .reload = x → jobWork x + 1 = jobWork (some (j, p)) → s'.work + 1 = s.work := by
    intro j p x s' hj hr hx hw
    obtain ⟨todo, hload⟩ := loading_of_job h hj
    rw [work_of_loading (hr.trans hload), work_of_loading hload, hj, hx]
    omega
  cases step_cases hs with
  | nextDomain hr hj hd hn =>
      rw [work_of_loading rfl, work_of_loading hr, hj, List.length_erase_of_mem hn]
      have := List.length_pos_of_mem hn
      change 4 * (_ - 1) + 3 + 1 + 1 = _
      simp only [jobWork]
      omega
  | install hr hj =>
      rw [work_of_loading hr, hj]
      rfl
  | @load t j feed hj =>
      obtain rfl : t = .reload := by simpa [Act.ofLoop] using ha
      obtain ⟨-, hr, -⟩ := finishLoad_frame c s .reload j feed
      have hphase : ∃ result delay,
          (s.finishLoad c .reload j feed).job .reload = some (j, .scheduling result delay) := by
        simp only [State.finishLoad]
        split
        next => exact ⟨_, _, rfl⟩
        next => exact ⟨_, _, rfl⟩
      obtain ⟨result, delay, hx⟩ := hphase
      exact hjob hj hr hx rfl
  | @schedule t j result delay hj =>
      obtain rfl : t = .reload := by simpa [Act.ofLoop] using ha
      exact hjob hj rfl rfl rfl
  | @store t j result hj =>
      obtain rfl : t = .reload := by simpa [Act.ofLoop] using ha
      exact hjob hj rfl rfl rfl
  | _ => cases ha

/-- The scheduler leaves the work as it is. -/
theorem work_stay (hb : ¬ a.begins) (ha : a.ofLoop = false) (hs : s.step c a = some s') :
    s'.work = s.work := by
  have hne : ∀ {t : Thread}, t ≠ .reload → ∀ {x : Option (Job × Phase)},
      Function.update s.job t x .reload = s.job .reload :=
    fun ht _ => Function.update_of_ne ht.symm _ _
  cases step_cases hs with
  | startReload hr => exact (hb trivial).elim
  | getReturns hr hg => exact (hb trivial).elim
  | getThrows hr hg => exact (hb trivial).elim
  | nextDomain hr hj hd hn => cases ha
  | install hr hj => cases ha
  | @load t j feed hj =>
      have ht : t ≠ .reload := by simpa [Act.ofLoop] using ha
      refine work_congr (finishLoad_frame c s t j feed).2.1 ?_
      simp only [State.finishLoad]
      split
      next => exact hne ht
      next => exact hne ht
  | @schedule t j result delay hj => exact work_congr rfl (hne (by simpa [Act.ofLoop] using ha))
  | @store t j result hj => exact work_congr rfl (hne (by simpa [Act.ofLoop] using ha))
  | _ => exact work_congr rfl rfl

theorem Reloads.step (h : Reloads s conf) (hb : ¬ a.begins) (hs : s.step c a = some s') :
    Reloads s' conf := by
  refine ⟨h.wellFormed.step hs, h.mapped.step hs, ?_⟩
  cases step_cases hs with
  | startReload hr => exact (hb trivial).elim
  | getReturns hr hg => exact (hb trivial).elim
  | getThrows hr hg => exact (hb trivial).elim
  | nextDomain hr hj hd hn =>
      refine h.stage.imp (fun hb => ?_) fun hb => ?_
      · rwa [State.building, hr] at hb
      · rw [State.building, hr] at hb
        cases hb.1
  | install hr hj =>
      refine Or.inr ⟨rfl, ?_⟩
      refine h.stage.elim (fun hb => ?_) fun hb => ?_
      · rwa [State.building, hr] at hb
      · rw [State.building, hr] at hb
        cases hb.1
  | @load t j feed hj =>
      obtain ⟨-, hr, hc, -⟩ := finishLoad_frame c s t j feed
      rw [State.building, hr, hc]
      exact h.stage
  | _ => exact h.stage

/-- As long as steps are left one of them is possible, whatever the source delivers. -/
theorem Reloads.possible (c : Choices) (h : Reloads s conf) (hw : 0 < s.work) (feed : Feed) :
    ∃ a s', a.ofLoop = true ∧ (∀ t f, a = .load t f → f = feed) ∧ s.step c a = some s' := by
  unfold State.work at hw
  split at hw
  next conf todo hr =>
      cases hj : s.job .reload with
      | none =>
          cases todo with
          | nil =>
              refine ⟨.install, { s with conf := some conf, reload := .idle }, rfl, by simp, ?_⟩
              simp only [State.step, hr, hj]
          | cons name todo =>
              obtain ⟨d, hd⟩ := h.mapped _ _ hr name (List.mem_cons_self ..)
              have hn : name ∈ name :: todo := List.mem_cons_self ..
              refine ⟨.nextDomain name, { s with
                reload := .loading conf ((name :: todo).erase name)
                job := Function.update s.job .reload (some (⟨conf, name, d⟩, .loading)) },
                rfl, by simp, ?_⟩
              simp only [State.step, hr, hj, hd]
              exact if_pos hn
      | some jp =>
          obtain ⟨j, p⟩ := jp
          cases p with
          | loading =>
              refine ⟨.load .reload feed, s.finishLoad c .reload j feed, rfl, by simp, ?_⟩
              simp only [State.step, hj]
          | scheduling result delay =>
              refine ⟨.schedule .reload, s.scheduleEvent .reload j result delay, rfl, by simp, ?_⟩
              simp only [State.step, hj]
          | storing result =>
              refine ⟨.store .reload, s.storeResult .reload j result, rfl, by simp, ?_⟩
              simp only [State.step, hj]
  next => cases hw

theorem not_begins_of_ofLoop (h : a.ofLoop = true) : ¬ a.begins := by
  cases a with
  | startReload => cases h
  | finishGet loads file => cases h
  | _ => exact id

/-- The configuration is installed when no steps are left, and not before. -/
theorem Reloads.installed_iff (h : Reloads s conf) : s.conf = some conf ↔ s.work = 0 := by
  refine ⟨fun hc => ?_, fun hw => ?_⟩
  · have hb := (h.wellFormed.installed conf hc).2
    have hnone := (h.stage.resolve_left hb).1
    unfold State.work
    split
    next conf todo hr =>
        rw [State.building, hr] at hnone
        cases hnone
    next => rfl
  · refine h.stage.elim (fun hb => ?_) fun hb => hb.2
    unfold State.building at hb
    split at hb
    next conf todo hr =>
        rw [work_of_loading hr] at hw
        cases hw
    next => cases hb

/-! ## The reload -/

/-- A reload is at its first domain when the file has been read. -/
theorem Reloads.allocate (h : WellFormed s) (hr : s.reload = .getting) {loads : Source → Bool}
    {file : ParsedFile} {cfg : Configuration} (hg : Configuration.get loads file = .ok cfg) :
    s.step c (.finishGet loads file) = some (s.allocate cfg) ∧
      Reloads (s.allocate cfg) s.nextConf ∧
      (s.allocate cfg).work = 4 * cfg.domains.entries.length + 1 := by
  have hstep : s.step c (.finishGet loads file) = some (s.allocate cfg) := by
    simp only [State.step, hr, hg]
  have hnone : s.job .reload = none := by
    cases hj : s.job .reload with
    | none => rfl
    | some jp =>
        obtain ⟨todo, hload⟩ := loading_of_job h hj
        rw [hr] at hload
        cases hload
  have hmapped : TodoMapped s := by
    intro conf todo hload
    rw [hr] at hload
    cases hload
  refine ⟨hstep, ⟨h.step hstep, hmapped.step hstep, Or.inl rfl⟩, ?_⟩
  rw [work_of_loading rfl, List.length_map]
  change _ + jobWork (s.job .reload) + 1 = _
  rw [hnone]
  rfl

/-- **A reload comes to an end.**  From the moment the configuration file has been read it
takes four steps for a domain and one more, whatever the scheduler does in between.  The new
configuration is installed with the last of them and not before.  Whatever the sources
deliver a step is possible until then, and the reload can end by its own steps. -/
theorem reload_ends (c : Choices) {heap : Nat → DomainObject} {s : State}
    (h : Reachable (State.step c) (fun _ _ => True) (State.start heap) s)
    (hr : s.reload = .getting) {loads : Source → Bool} {file : ParsedFile} {cfg : Configuration}
    (hg : Configuration.get loads file = .ok cfg) (feed : Feed) :
    (∀ (as : List Act) (s' : State), (∀ a ∈ as, ¬ a.begins) →
        run (State.step c) s (.finishGet loads file :: as) = some s' →
          (as.filter Act.ofLoop).length ≤ 4 * cfg.domains.entries.length + 1 ∧
          (s'.conf = some s.nextConf ↔
            (as.filter Act.ofLoop).length = 4 * cfg.domains.entries.length + 1) ∧
          (s'.conf ≠ some s.nextConf → ∃ a s'', a.ofLoop = true ∧
            (∀ t f, a = .load t f → f = feed) ∧ s'.step c a = some s'')) ∧
      ∃ (as : List Act) (s' : State), run (State.step c) s (.finishGet loads file :: as) = some s' ∧
        (∀ a ∈ as, a.ofLoop = true ∧ ∀ t f, a = .load t f → f = feed) ∧
        as.length = 4 * cfg.domains.entries.length + 1 ∧ s'.conf = some s.nextConf := by
  obtain ⟨hstep, hstart, hwork⟩ :=
    Reloads.allocate (c := c) (wellFormed_reachable h) hr hg
  refine ⟨fun as s' hb hrun => ?_, ?_⟩
  · rw [run, hstep, Option.bind_some] at hrun
    obtain ⟨hcount, hs'⟩ := filter_length_add (p := Act.ofLoop) (m := State.work)
      (P := fun s => Reloads s _)
      (fun _ _ _ hs hok ha => hs.step hok ha)
      (fun _ _ _ hs _ hp ha => work_down hs.wellFormed hp ha)
      (fun _ _ _ _ hok hp ha => work_stay hok hp ha) as hb hstart hrun
    rw [hwork] at hcount
    rw [hs'.installed_iff]
    refine ⟨by omega, by omega, fun hne => hs'.possible c (Nat.pos_of_ne_zero fun hz => ?_) feed⟩
    exact hne (hs'.installed_iff.mpr hz)
  · obtain ⟨as, s', hrun, hall, hs', hz, hlen⟩ := exists_run_zero (m := State.work)
      (P := fun s => Reloads s _)
      (p := fun a : Act => a.ofLoop = true ∧ ∀ t f, a = .load t f → f = feed)
      (fun s hs hw => by
        obtain ⟨a, s', ha, hfeed, hstep⟩ := Reloads.possible c hs hw feed
        exact ⟨a, s', ⟨ha, hfeed⟩, hstep, hs.step (not_begins_of_ofLoop ha) hstep,
          work_down hs.wellFormed ha hstep⟩) hstart
    refine ⟨as, s', ?_, hall, hlen.trans hwork, hs'.installed_iff.mpr hz⟩
    rw [run, hstep, Option.bind_some, hrun]

open Overtaken in
/-- A reload of two domains takes nine steps, also if no source opens. -/
theorem reload_ends_sample : ∃ (as : List Act) (s' : State),
    run (State.step .canonical) (State.start heap)
      (.startReload :: .finishGet (fun _ => true) file :: as) = some s' ∧
    (∀ a ∈ as, a.ofLoop = true ∧ ∀ t f, a = .load t f → f = fun _ => ⟨false, [], true⟩) ∧
    as.length = 9 ∧ s'.conf = some 0 := by
  have hstart : State.step .canonical (State.start heap) .startReload =
      some { State.start heap with reload := .getting } := rfl
  obtain ⟨cfg, hcfg⟩ : ∃ cfg, Configuration.get (fun _ => true) file = .ok cfg := ⟨_, rfl⟩
  obtain ⟨as, s', hrun, hall, hlen, hc⟩ := (reload_ends .canonical
    (Reachable.start.next trivial hstart) rfl hcfg fun _ => ⟨false, [], true⟩).2
  refine ⟨as, s', ?_, hall, ?_, hc⟩
  · rw [run, hstart]
    exact hrun
  · cases hcfg
    exact hlen

end Undervest
