import Undervest.Ownership
import Undervest.Lib.Simulation

/-!
# What happens to domain objects

Five things happen to the domain objects in a step: nothing, a configuration brings new
ones, a load that succeeds makes a new one, a load that fails counts in the old one, and
the result of a refresh takes the place of an object in a map.

`ObjectStep` says where an object of the state after a step comes from.  The histories of
this module and the next ones are inductions over it.

A domain object has its parameters from a section of a file that was read, and, when it
has loaded, its recipients from the names that one load delivered (`grounded`).
-/

namespace Undervest

open Unordered Transition

variable {c : Choices} {heap : Nat → DomainObject} {s s' : State} {a : Act}

/-! ## Where objects come from -/

/-- Where a domain object of the next state comes from. -/
inductive ObjectStep (c : Choices) (s : State) (a : Act) (d : Nat) : DomainObject → Prop where
  | same (hd : d < s.nextDom) : ObjectStep c s a d (s.heap d)
  | failed {t : Thread} {feed : Feed} {j : Job} (hd : d < s.nextDom) (ha : a = .load t feed)
      (hj : s.job t = some (j, .loading)) (he : j.dom = d) :
      ObjectStep c s a d ⟨(s.heap d).configuration, (s.heap d).domain.fail⟩
  | loaded {t : Thread} {feed : Feed} {j : Job} {n : Domain} (ha : a = .load t feed)
      (hj : s.job t = some (j, .loading)) (he : d = s.nextDom) (hd : j.dom < s.nextDom)
      (hn : ((s.heap j.dom).domain.refresh c feed).result = some n) :
      ObjectStep c s a d ⟨j.conf, n⟩
  | configured {loads : Source → Bool} {file : ParsedFile} {cfg : Configuration} {name : Str}
      {n : Domain} (ha : a = .finishGet loads file) (hg : Configuration.get loads file = .ok cfg)
      (hd : s.nextDom ≤ d) (hn : cfg.domains.lookup name = some n) :
      ObjectStep c s a d ⟨s.nextConf, n⟩

theorem object_step (h : WellFormed s) (hs : s.step c a = some s') {d : Nat}
    (hd : d < s'.nextDom) : ObjectStep c s a d (s'.heap d) := by
  cases step_cases hs with
  | tick n => exact .same hd
  | startReload hr => exact .same hd
  | @getReturns loads file cfg hr hg =>
      by_cases hold : d < s.nextDom
      · rw [WellFormed.allocate_heap_old hold]
        exact .same hold
      · obtain ⟨i, rfl⟩ := Nat.exists_eq_add_of_le (not_lt.mp hold)
        have hi : i < cfg.domains.entries.length := by
          change s.nextDom + i < s.nextDom + _ at hd
          omega
        have he := List.getElem?_eq_getElem hi
        rw [WellFormed.allocate_heap_new he]
        exact .configured rfl hg (Nat.le_add_right _ _)
          (AList.mem_lookup_iff.mpr (List.mem_of_getElem? he))
  | getThrows hr hg => exact .same hd
  | nextDomain hr hj hd' hn => exact .same hd
  | install hr hj => exact .same hd
  | fire hf hj he ht => exact .same hd
  | accept hf hc hd' => exact .same hd
  | drop hf hd' => exact .same hd
  | @load t j feed hj =>
      obtain ⟨hlt, hconf, -⟩ := h.mapped _ _ _ (h.jobs t j _ hj).1
      cases Domain.refresh_cases c feed (h.object _ hlt).2 with
      | inl hr =>
          obtain ⟨n, hr, -⟩ := hr
          rw [State.finishLoad, hr] at hd ⊢
          by_cases hnew : d = s.nextDom
          · subst hnew
            simp only [Function.update_self]
            exact .loaded rfl hj rfl hlt (by rw [hr])
          · simp only [Function.update_of_ne hnew]
            exact .same (lt_of_le_of_ne (Nat.le_of_lt_succ hd) hnew)
      | inr hr =>
          rw [State.finishLoad, hr] at hd ⊢
          by_cases hdj : d = j.dom
          · subst hdj
            simp only [Function.update_self]
            exact .failed hlt rfl hj rfl
          · simp only [Function.update_of_ne hdj]
            exact .same hd
  | schedule hj => exact .same hd
  | store hj => exact .same hd

/-- What the end of a load leaves alone. -/
theorem finishLoad_frame (c : Choices) (s : State) (t : Thread) (j : Job) (feed : Feed) :
    (s.finishLoad c t j feed).domains = s.domains ∧
      (s.finishLoad c t j feed).reload = s.reload ∧ (s.finishLoad c t j feed).conf = s.conf ∧
      (s.finishLoad c t j feed).nextConf = s.nextConf ∧
      s.nextDom ≤ (s.finishLoad c t j feed).nextDom := by
  simp only [State.finishLoad]
  split
  next => exact ⟨rfl, rfl, rfl, rfl, Nat.le_succ _⟩
  next => exact ⟨rfl, rfl, rfl, rfl, le_rfl⟩

/-- Objects stay where they are. -/
theorem nextDom_le (hs : s.step c a = some s') : s.nextDom ≤ s'.nextDom := by
  cases step_cases hs with
  | getReturns hr hg => exact Nat.le_add_right _ _
  | load feed hj => exact (finishLoad_frame c s _ _ feed).2.2.2.2
  | _ => exact le_rfl

/-! ## The history of an object -/

/-- A refresh that returns an object has loaded it. -/
theorem Domain.refresh_loaded {c : Choices} {feed : Feed} {d n : Domain}
    (hd : d.failureCount ≠ -2) (h : (d.refresh c feed).result = some n) :
    n.Loaded c ∧ n.recipients.toFinset = n.collected feed ∧ n.config = d.config := by
  have hload : loadData c feed d.clone = (n, .returns) := by
    simp only [refresh, if_neg hd] at h
    split at h
    next m hl =>
        obtain rfl := Option.some.inj h
        exact hl
    next => cases h
  have hcfg : n.config = d.clone.config := loadData_config hload
  obtain ⟨-, -, hrec⟩ := loadData_returns (d := d.clone) hd hload
  refine ⟨⟨d.clone, feed, hd, hload⟩, ?_, hcfg⟩
  rw [hrec, Held.collected_of_config hcfg]
  exact Finset.empty_union _

/-- There is a load in a run, of an object with the parameters of another. -/
def Fed (c : Choices) (heap : Nat → DomainObject) (as : List Act) (feed : Feed) (d : Domain) :
    Prop :=
  ∃ before t after s j, as = before ++ .load t feed :: after ∧
    run (State.step c) (State.start heap) before = some s ∧ s.job t = some (j, .loading) ∧
    (s.heap j.dom).domain.config = d.config

theorem Fed.mono {as : List Act} {feed : Feed} {d : Domain} (h : Fed c heap as feed d) (a : Act) :
    Fed c heap (as ++ [a]) feed d := by
  obtain ⟨before, t, after, s, j, rfl, h⟩ := h
  exact ⟨before, t, after ++ [a], s, j, by rw [List.append_assoc, List.cons_append], h⟩

/-- What a run says about a domain object. -/
structure Grounded (c : Choices) (heap : Nat → DomainObject) (as : List Act) (d : Domain) :
    Prop where
  /-- Its parameters are those of a section that was read. -/
  configured : ∃ loads file cfg d₀, Act.finishGet loads file ∈ as ∧
    Configuration.get loads file = .ok cfg ∧ cfg.domains.lookup d.name = some d₀ ∧
    d.config = d₀.config
  /-- Its recipients are what one load with these parameters delivered. -/
  loaded : d.failureCount = 0 → d.Loaded c ∧ ∃ feed, Fed c heap as feed d ∧
    d.recipients.toFinset = d.collected feed

namespace Grounded

variable {as : List Act} {d : Domain}

/-- More actions do not matter. -/
theorem mono (h : Grounded c heap as d) (a : Act) : Grounded c heap (as ++ [a]) d := by
  obtain ⟨⟨loads, file, cfg, d₀, hm, hr⟩, hl⟩ := h
  refine ⟨⟨loads, file, cfg, d₀, List.mem_append_left _ hm, hr⟩, fun h0 => ?_⟩
  obtain ⟨hloaded, feed, hfed, hrec⟩ := hl h0
  exact ⟨hloaded, feed, hfed.mono a, hrec⟩

end Grounded

/-- **Every domain object is grounded in the run.** -/
theorem grounded {as : List Act} {s : State}
    (h : run (State.step c) (State.start heap) as = some s) {d : Nat} (hd : d < s.nextDom) :
    Grounded c heap as (s.heap d).domain := by
  refine run_induction
    (P := fun as s => ∀ d, d < s.nextDom → Grounded c heap as (s.heap d).domain)
    (fun d hd => absurd hd (Nat.not_lt_zero d)) (fun as s a s' hr ih hs d hd => ?_) h d hd
  have hw := wellFormed_reachable (Reachable.of_run_start hr)
  have ha : a ∈ as ++ [a] := List.mem_append_right _ (List.mem_singleton.mpr rfl)
  have hstep := object_step hw hs hd
  generalize s'.heap d = o at hstep
  cases hstep with
  | same hd => exact (ih d hd).mono a
  | failed hd =>
      -- the parameters stay and the count is not zero
      have hg := (ih d hd).mono a
      exact ⟨hg.configured, fun h0 => absurd h0 (Domain.cnt_fail _).2.1⟩
  | @loaded t feed j n hact hj he hlt hn =>
      obtain ⟨hl, hrec, hcfg⟩ := Domain.refresh_loaded (hw.object _ hlt).2 hn
      obtain ⟨loads, file, cfg, d₀, hm, hget, hlookup, heq⟩ := ((ih _ hlt).mono a).configured
      have hname : n.name = (s.heap j.dom).domain.name :=
        show n.config.name = (s.heap j.dom).domain.config.name by rw [hcfg]
      exact ⟨⟨loads, file, cfg, d₀, hm, hget, hname ▸ hlookup, hcfg.trans heq⟩,
        fun _ => ⟨hl, feed, ⟨as, t, [], s, j, by rw [hact], hr, hj, hcfg.symm⟩, hrec⟩⟩
  | @configured loads file cfg name n hact hg hle hn =>
      obtain ⟨hname, hcount⟩ := Configuration.get_domains hg _ _ hn
      refine ⟨⟨loads, file, cfg, n, hact ▸ ha, hg, hname ▸ hn, rfl⟩, fun h0 => ?_⟩
      rw [hcount] at h0
      cases h0

end Undervest
