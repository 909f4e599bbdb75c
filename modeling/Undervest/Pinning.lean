import Undervest.Openings
import Undervest.Objects

/-!
# The configuration of a connection

A connection takes the installed configuration when it begins and keeps it, whatever is
installed later (`pinned`).  A configuration is installed when each of its domains has
been loaded once, so a connection never meets a domain before its first load
(`Tried`).

A configuration is retired when another one is installed and the last refresh of it is
over.  Its events are dropped from then on, and what it holds never changes again, so a
connection that outlives its configuration has the same answers to the end (`frozen`).
-/

namespace Undervest

open Unordered Transition

variable {c : Choices} {s s' : State} {a : Act} {conf : Nat}

/-! ## Every domain is loaded before its configuration is installed -/

/-- A domain has been loaded, or the reload that builds its configuration will. -/
def Tried (s : State) : Prop :=
  ∀ conf name d, s.domains conf name = some d → s.lastLoad conf name ≠ none ∨
    s.building = some conf ∧ (name ∈ s.todo ∨
      ∃ j, s.job .reload = some (j, .loading) ∧ j.conf = conf ∧ j.name = name)

namespace Tried

theorem of_building (h : Tried s) (hb : s.building = none) {name : Str} {d : Nat}
    (hd : s.domains conf name = some d) : s.lastLoad conf name ≠ none := by
  refine (h conf name d hd).resolve_right fun hr => ?_
  rw [hb] at hr
  cases hr.1

theorem nextDomain (h : Tried s) {name : Str} {d : Nat} {todo : List Str}
    (hr : s.reload = .loading conf todo) (hj : s.job .reload = none) :
    Tried { s with
      reload := .loading conf (todo.erase name)
      job := Function.update s.job .reload (some (⟨conf, name, d⟩, .loading)) } := by
  have hb : s.building = some conf := by rw [State.building, hr]
  have htodo : s.todo = todo := by rw [State.todo, hr]
  intro conf' name' d' hd
  refine (h conf' name' d' hd).imp_right fun hor => ?_
  obtain ⟨hb', hor⟩ := hor
  refine ⟨hb.symm.trans hb', ?_⟩
  by_cases hn : name' = name
  · obtain rfl := Option.some.inj (hb.symm.trans hb')
    exact Or.inr ⟨⟨conf, name, d⟩, rfl, rfl, hn.symm⟩
  · refine Or.inl ((List.mem_erase_of_ne hn).mpr (htodo ▸ hor.resolve_right ?_))
    rintro ⟨j, hj', -⟩
    rw [hj] at hj'
    cases hj'

theorem finishLoad (h : Tried s) {t : Thread} {j : Job} (feed : Feed)
    (hj : s.job t = some (j, .loading)) : Tried (s.finishLoad c t j feed) := by
  obtain ⟨hdom, hreload, -⟩ := finishLoad_frame c s t j feed
  have hb : (s.finishLoad c t j feed).building = s.building := by
    rw [State.building, hreload, State.building]
  have htodo : (s.finishLoad c t j feed).todo = s.todo := by rw [State.todo, hreload, State.todo]
  -- the record is made, and the records of the other domains stay
  have hlast : ∃ r, (s.finishLoad c t j feed).lastLoad = Function.update s.lastLoad j.conf
      (Function.update (s.lastLoad j.conf) j.name (some r)) := by
    simp only [State.finishLoad]
    split
    next => exact ⟨_, rfl⟩
    next => exact ⟨_, rfl⟩
  obtain ⟨r, hlast⟩ := hlast
  intro conf name d hd
  by_cases hcn : conf = j.conf ∧ name = j.name
  · left
    rw [hlast, hcn.1, Function.update_self, hcn.2, Function.update_self]
    exact Option.some_ne_none r
  · rw [hdom] at hd
    rw [hlast, Served.lastLoad_of_ne hcn, hb, htodo]
    refine (h conf name d hd).imp_right (And.imp_right (Or.imp_right ?_))
    rintro ⟨j', hj', hc', hn'⟩
    have ht : t ≠ .reload := by
      rintro rfl
      rw [hj] at hj'
      cases hj'
      exact hcn ⟨hc'.symm, hn'.symm⟩
    refine ⟨j', ?_, hc', hn'⟩
    simp only [State.finishLoad]
    split
    next => exact (Function.update_of_ne ht.symm _ _).trans hj'
    next => exact (Function.update_of_ne ht.symm _ _).trans hj'

/-- A refresh that is past its load. -/
theorem setJob (h : Tried s) {t : Thread} {j : Job} {p : Phase} (hj : s.job t = some (j, p))
    (hp : p ≠ .loading) {x : Option (Job × Phase)} {s' : State}
    (hjob : s'.job = Function.update s.job t x) (hlast : s'.lastLoad = s.lastLoad)
    (hreload : s'.reload = s.reload)
    (hdom : ∀ conf name d, s'.domains conf name = some d → ∃ d', s.domains conf name = some d') :
    Tried s' := by
  intro conf name d hd
  obtain ⟨d', hd'⟩ := hdom conf name d hd
  rw [hlast, State.building, State.todo, hreload]
  refine (h conf name d' hd').imp_right (And.imp_right (Or.imp_right ?_))
  rintro ⟨j', hj', hcn⟩
  have ht : t ≠ .reload := by
    rintro rfl
    rw [hj] at hj'
    cases hj'
    exact hp rfl
  exact ⟨j', by rw [hjob, Function.update_of_ne ht.symm]; exact hj', hcn⟩

theorem step (h : Tried s) (hw : WellFormed s) (hs : s.step c a = some s') : Tried s' := by
  cases step_cases hs with
  | tick n => exact h
  | startReload hr =>
      exact fun conf name d hd => Or.inl (h.of_building (by rw [State.building, hr]) hd)
  | @getReturns loads file cfg hr hg =>
      intro conf name d hd
      by_cases hc : conf = s.nextConf
      · subst hc
        obtain ⟨i, e, he, rfl, -⟩ := WellFormed.allocate_domains_self.mp hd
        exact Or.inr ⟨rfl, Or.inl (List.mem_map_of_mem (List.mem_of_getElem? he))⟩
      · rw [WellFormed.allocate_domains_of_ne hc] at hd
        exact Or.inl (h.of_building (by rw [State.building, hr]) hd)
  | getThrows hr hg =>
      exact fun conf name d hd => Or.inl (h.of_building (by rw [State.building, hr]) hd)
  | nextDomain hr hj hd hn => exact h.nextDomain hr hj
  | install hr hj =>
      -- nothing is left to do
      intro conf name d hd
      refine Or.inl ((h conf name d hd).resolve_right ?_)
      rintro ⟨-, ht | ⟨j, hj', -⟩⟩
      · rw [State.todo, hr] at ht
        cases ht
      · rw [hj] at hj'
        cases hj'
  | fire hf hj he ht => exact h
  | accept hf hc hd =>
      exact fun conf name d hd => h conf name d hd
  | drop hf hd => exact h
  | load feed hj => exact h.finishLoad feed hj
  | schedule hj => exact h.setJob hj (by simp) rfl rfl rfl fun conf name d hd => ⟨d, hd⟩
  | @store t j result hj =>
      refine h.setJob hj (by simp) rfl rfl rfl fun conf name d hd => ?_
      rw [WellFormed.storeResult_domains] at hd
      split at hd
      next hcn =>
          obtain ⟨rfl, rfl⟩ := hcn
          exact ⟨_, (hw.jobs t j _ hj).1⟩
      next => exact ⟨d, hd⟩

end Tried

/-- **Every domain of an installed configuration has been loaded.** -/
theorem installed_tried {heap : Nat → DomainObject} {ok : State → Act → Prop}
    (h : Reachable (State.step c) ok (State.start heap) s) (hc : s.conf = some conf)
    {name : Str} {d : Nat} (hd : s.domains conf name = some d) : s.lastLoad conf name ≠ none := by
  have ht := h.strengthen (P := WellFormed) (Q := Tried) (fun _ hr => wellFormed_reachable hr)
    (fun _ _ _ hd => by cases hd) fun _ _ _ hw ht _ hs => ht.step hw hs
  exact (ht conf name d hd).resolve_right fun hr =>
    ((wellFormed_reachable h).installed conf hc).2 hr.1

/-! ## Configurations that are out of use -/

/-- What a configuration holds. -/
def State.holds (s : State) (conf : Nat) (name : Str) : Option Domain :=
  (s.domains conf name).map fun d => (s.heap d).domain

/-- A configuration has been built. -/
def Built (s : State) (conf : Nat) : Prop := conf < s.nextConf ∧ s.building ≠ some conf

theorem Built.step (h : Built s conf) (hs : s.step c a = some s') : Built s' conf := by
  cases step_cases hs with
  | startReload hr => exact ⟨h.1, fun hb => by cases hb⟩
  | getReturns hr hg =>
      refine ⟨Nat.lt_succ_of_lt h.1, fun hb => ?_⟩
      exact absurd (Option.some.inj hb) h.1.ne'
  | getThrows hr hg => exact ⟨h.1, fun hb => by cases hb⟩
  | nextDomain hr hj hd hn => exact ⟨h.1, fun hb => h.2 (by rw [State.building, hr]; exact hb)⟩
  | install hr hj => exact ⟨h.1, fun hb => by cases hb⟩
  | @load t j feed hj =>
      obtain ⟨-, hreload, -, hnext, -⟩ := finishLoad_frame c s t j feed
      rwa [Built, State.building, hreload, hnext]
  | _ => exact h

/-- A configuration is out of use: it is not installed and not refreshed. -/
structure Retired (s : State) (conf : Nat) : Prop where
  built : Built s conf
  superseded : s.conf ≠ some conf
  quiet : ∀ t j p, s.job t = some (j, p) → j.conf ≠ conf

namespace Retired

theorem setJob (h : Retired s conf) {t : Thread} {x : Option (Job × Phase)}
    (hx : ∀ j p, x = some (j, p) → j.conf ≠ conf) :
    ∀ t' j p, Function.update s.job t x t' = some (j, p) → j.conf ≠ conf := by
  intro t' j p ht
  rcases job_update ht with ⟨-, rfl⟩ | ⟨-, ht⟩
  · exact hx j p rfl
  · exact h.quiet t' j p ht

theorem step (h : Retired s conf) (hs : s.step c a = some s') : Retired s' conf := by
  refine ⟨h.built.step hs, ?_, ?_⟩
  · cases step_cases hs with
    | install hr hj =>
        intro hc
        exact h.built.2 (by rw [State.building, hr]; exact hc)
    | @load t j feed hj =>
        rw [(finishLoad_frame c s t j feed).2.2.1]
        exact h.superseded
    | _ => exact h.superseded
  · cases step_cases hs with
    | nextDomain hr hj hd hn =>
        refine h.setJob fun j p hx => ?_
        cases hx
        rintro rfl
        exact h.built.2 (by rw [State.building, hr])
    | accept hf hc hd =>
        refine h.setJob fun j p hx => ?_
        cases hx
        rintro rfl
        exact h.superseded hc
    | @load t j feed hj =>
        have hne := h.quiet t j _ hj
        simp only [State.finishLoad]
        split
        next => exact h.setJob fun j' p hx => by cases hx; exact hne
        next => exact h.setJob fun j' p hx => by cases hx; exact hne
    | schedule hj => exact h.setJob fun j' p hx => by cases hx; exact h.quiet _ _ _ hj
    | store hj => exact h.setJob fun j' p hx => by cases hx
    | _ => exact h.quiet

/-- What it holds stays. -/
theorem holds_step (h : Retired s conf) (hw : WellFormed s) (hs : s.step c a = some s') :
    s'.holds conf = s.holds conf := by
  have hdom : s'.domains conf = s.domains conf := by
    cases step_cases hs with
    | getReturns hr hg => exact WellFormed.allocate_domains_of_ne h.built.1.ne
    | @load t j feed hj => rw [(finishLoad_frame c s t j feed).1]
    | @store t j result hj =>
        funext name
        rw [WellFormed.storeResult_domains, if_neg fun hcn => h.quiet t j _ hj hcn.1.symm]
    | _ => rfl
  funext name
  rw [State.holds, State.holds, hdom]
  refine Option.map_congr fun d hd => ?_
  obtain ⟨hlt, hconf, -⟩ := hw.mapped _ _ _ hd
  have hstep := object_step hw hs (hlt.trans_le (nextDom_le hs))
  generalize s'.heap d = o at hstep
  cases hstep with
  | same hd => rfl
  | failed hd ha hj he =>
      subst he
      have := (hw.mapped _ _ _ (hw.jobs _ _ _ hj).1).2.1
      exact absurd (this.symm.trans hconf) (h.quiet _ _ _ hj)
  | loaded ha hj he hd hn => exact absurd hlt (by rw [he]; exact lt_irrefl _)
  | configured ha hg hle hn => exact absurd hlt (not_lt.mpr hle)

end Retired

/-! ## Connections -/

section Connections

variable {heap : Nat → DomainObject} {reply : Nat → Reply} {k : Connection}

/-- The reply of a configuration that is there stays. -/
theorem replyAfter_of_lt {reply : Nat → Reply} (h : conf < s.nextConf) (a : Act) :
    ServerState.replyAfter s reply a conf = reply conf := by
  cases a with
  | finishGet loads file =>
      simp only [ServerState.replyAfter]
      cases Configuration.get loads file with
      | ok cfg => exact Function.update_of_ne h.ne _ _
      | error e => rfl
  | _ => rfl

/-- **A configuration out of use is frozen.**  What it holds and its reply stay the same
in every run, so a connection that still uses it has the same answers to the end. -/
theorem frozen {as bs : List ServerAct} {s s' : ServerState}
    (h : run (ServerState.step c) (ServerState.start heap reply) as = some s)
    (hconf : Retired s.shared conf) (hr : run (ServerState.step c) s bs = some s') :
    Retired s'.shared conf ∧ s'.shared.holds conf = s.shared.holds conf ∧
      s'.reply conf = s.reply conf := by
  have hstart : run (ServerState.step c) (ServerState.start heap reply) (as ++ []) = some s := by
    rw [List.append_nil, h]
  refine (run_induction
    (P := fun bs s' =>
      run (ServerState.step c) (ServerState.start heap reply) (as ++ bs) = some s' ∧
      Retired s'.shared conf ∧ s'.shared.holds conf = s.shared.holds conf ∧
      s'.reply conf = s.reply conf)
    ⟨hstart, hconf, rfl, rfl⟩ (fun bs s₁ a s₂ _ ih hs => ?_) hr).2
  obtain ⟨hrun, hret, hholds, hreply⟩ := ih
  refine ⟨by rw [← List.append_assoc, run_concat, hrun]; exact hs, ?_⟩
  have hsound := ServerState.sound_reachable (Reachable.of_run_start hrun)
  have hcases := (server_step_cases hs).2
  cases hconn : a.connection with
  | none =>
      cases hcases with
      | shared hstep =>
          refine ⟨hret.step hstep, ?_, ?_⟩
          · rw [← hholds]
            exact hret.holds_step (wellFormed_shared hrun) hstep
          · rw [← hreply]
            exact replyAfter_of_lt hret.built.1 _
      | _ => cases hconn
  | some k =>
      obtain ⟨f, hf, -⟩ := changes_of_callback hsound hcases hconn
      rw [hf.shared, hf.reply]
      exact ⟨hret, hholds, hreply⟩

open Conversation in
/-- A connection that is still open after a second reload. -/
theorem frozen_sample :
    ∃ s s', after (acts ++ Overtaken.reload.map .shared) = some s ∧ s.shared.conf = some 1 ∧
      run (ServerState.step .canonical) s (letter 1 (str "jane@a")) = some s' ∧
      s'.shared.holds 0 = s.shared.holds 0 := by
  have hrun : (after (acts ++ Overtaken.reload.map .shared)).map (fun s =>
      decide (s.shared.nextConf = 2 ∧ s.shared.reload = .idle ∧ s.shared.conf = some 1 ∧
        s.shared.job .scheduler = none ∧ s.shared.job .reload = none ∧
        (run (ServerState.step .canonical) s (letter 1 (str "jane@a"))).isSome = true)) =
      some true := by decide +kernel
  obtain ⟨s, hs, hp⟩ := Option.map_eq_some_iff.mp hrun
  obtain ⟨hnext, hreload, hconf, hsched, hrel, hr⟩ := of_decide_eq_true hp
  obtain ⟨s', hs'⟩ := Option.isSome_iff_exists.mp hr
  have hret : Retired s.shared 0 := by
    refine ⟨⟨by omega, by rw [State.building, hreload]; simp⟩, by rw [hconf]; simp, ?_⟩
    intro t j p ht
    cases t with
    | scheduler =>
        rw [hsched] at ht
        cases ht
    | reload =>
        rw [hrel] at ht
        cases ht
  exact ⟨s, s', hs, hconf, hs', (frozen hs hret hs').2.1⟩

/-- A connection has taken its configuration when it was installed. -/
structure PinnedAt (c : Choices) (heap : Nat → DomainObject) (reply : Nat → Reply)
    (as : List ServerAct) (k : Connection) (conf : Nat) (before : List ServerAct)
    (s : ServerState) (after : List ServerAct) : Prop where
  split : ∃ o, as = before ++ .connect k o :: after
  state : run (ServerState.step c) (ServerState.start heap reply) before = some s
  installed : s.shared.conf = some conf
  last : ∀ a ∈ after, (∀ o, a ≠ .connect k o) ∧ a ≠ .close k

theorem PinnedAt.concat {as before after : List ServerAct} {s : ServerState}
    (h : PinnedAt c heap reply as k conf before s after) {a : ServerAct}
    (ha : (∀ o, a ≠ .connect k o) ∧ a ≠ .close k) :
    PinnedAt c heap reply (as ++ [a]) k conf before s (after ++ [a]) := by
  obtain ⟨⟨o, rfl⟩, hs, hc, hl⟩ := h
  refine ⟨⟨o, by simp⟩, hs, hc, fun b hb => ?_⟩
  cases List.mem_append.mp hb with
  | inl hb => exact hl b hb
  | inr hb => exact List.mem_singleton.mp hb ▸ ha

theorem exists_pinnedAt {as : List ServerAct} {s : ServerState}
    (h : run (ServerState.step c) (ServerState.start heap reply) as = some s)
    {u : ContextObject} (hu : (s.session k).object = some u) (hc : u.conf = some conf) :
    ∃ before s₁ after, PinnedAt c heap reply as k conf before s₁ after := by
  refine session_induction (k := k)
    (P := fun as _ σ => ∀ u, σ.object = some u → u.conf = some conf →
      ∃ before s₁ after, PinnedAt c heap reply as k conf before s₁ after)
    (fun u hu => by cases hu) ?_ ?_ ?_ h u hu hc
  · intro as s a shared _ ih _ u hu hc
    obtain ⟨before, s₁, after, hp⟩ := ih u hu hc
    exact ⟨before, s₁, _, hp.concat ⟨by simp, by simp⟩⟩
  · intro as s a hact hk ih u hu hc
    obtain ⟨before, s₁, after, hp⟩ := ih u hu hc
    refine ⟨before, s₁, _, hp.concat ⟨fun o => ?_, ?_⟩⟩
    · rintro rfl
      exact hk rfl
    · rintro rfl
      exact hk rfl
  · intro as s a σ hr hact hk ih hcb u hu hc
    rcases Session.conf_callback hcb hu hc with ⟨k', o, rfl, hconf⟩ | ⟨hne, hne', v, hv, hvc⟩
    · obtain rfl : k' = k := Option.some.inj hk
      exact ⟨as, s, [], ⟨o, rfl⟩, hr, hconf, fun a ha => by cases ha⟩
    · obtain ⟨before, s₁, after, hp⟩ := ih v hv hvc
      exact ⟨before, s₁, _, hp.concat ⟨fun o => hne k o, hne' k⟩⟩

/-- **A connection keeps the configuration that was installed when it began**, through all
reloads.  Every domain of it had been loaded by then, and it is never built again. -/
theorem pinned {as : List ServerAct} {s : ServerState}
    (h : run (ServerState.step c) (ServerState.start heap reply) as = some s)
    {u : ContextObject} (hu : (s.session k).object = some u) (hc : u.conf = some conf) :
    ∃ before o after s₁, as = before ++ .connect k o :: after ∧
      run (ServerState.step c) (ServerState.start heap reply) before = some s₁ ∧
      (∀ a ∈ after, (∀ o, a ≠ .connect k o) ∧ a ≠ .close k) ∧
      s₁.shared.conf = some conf ∧
      (∀ name d, s₁.shared.domains conf name = some d → s₁.shared.lastLoad conf name ≠ none) ∧
      s.shared.building ≠ some conf := by
  obtain ⟨before, s₁, after, ⟨⟨o, rfl⟩, hs, hconf, hlast⟩⟩ := exists_pinnedAt h hu hc
  refine ⟨before, o, after, s₁, rfl, hs, hlast, hconf, fun name d hd => ?_, ?_⟩
  · exact installed_tried (Reachable.of_run_start (threads hs)) hconf hd
  · -- it had been built at the beginning
    have hw := wellFormed_shared hs
    have hbuilt : Built s₁.shared conf := hw.installed conf hconf
    rw [run_append, hs, Option.bind_some] at h
    have hinv := (Reachable.of_run_start h).strengthen
      (P := fun s => s.memory.Sound) (Q := fun s => Built s.shared conf)
      (fun s hr => hr.invariant (P := fun s => s.memory.Sound)
        (ServerState.sound_reachable (Reachable.of_run_start hs))
        fun _ _ _ hs _ hstep => ServerState.sound_step hs hstep) hbuilt
      fun s a s' hsound hb _ hstep => ?_
    · exact hinv.2
    · have heq := (threadsOf c).step_eq s a s' hsound hstep
      cases hact : (threadsOf c).action s a with
      | none =>
          rw [hact] at heq
          have hshared : s'.shared = s.shared := heq
          rwa [hshared]
      | some b =>
          rw [hact] at heq
          exact hb.step heq

open Conversation in
theorem pinned_sample :
    ∃ before o after, acts ++ Overtaken.reload.map .shared = before ++ .connect 1 o :: after ∧
      ∃ s₁, Conversation.after before = some s₁ ∧ s₁.shared.conf = some 0 := by
  have hrun : (Conversation.after (acts ++ Overtaken.reload.map .shared)).map (fun s =>
      decide ((s.session 1).object.map (fun u => u.conf) = some (some 0))) = some true := by
    decide +kernel
  obtain ⟨s, hs, hp⟩ := Option.map_eq_some_iff.mp hrun
  obtain ⟨u, hu, hc⟩ := Option.map_eq_some_iff.mp (of_decide_eq_true hp)
  obtain ⟨before, o, after, s₁, hsplit, hrun₁, -, hconf, -⟩ := pinned hs hu hc
  exact ⟨before, o, after, hsplit, s₁, hrun₁, hconf⟩

end Connections

end Undervest
