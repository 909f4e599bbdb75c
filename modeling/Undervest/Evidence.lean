import Undervest.Turns
import Undervest.Objects
import Undervest.Recipients

/-!
# What a refusal rests on

A recipient is refused in the second part of its callback, by the domain object found in
the first.  In between the object may be replaced in its configuration, or count a
failure.  The object itself tells where it comes from (`Grounded`), and the lookup that
its name is the domain of the address (`Lookup.Valid`).

So a refusal rests on one load, by one domain section of one file
(`refused_on_evidence`): the names which that load delivered do not have the local part,
and the decision by the parameters of that section finds nothing among them.
-/

namespace Undervest

open Unordered Transition FloatingPoint Profile

variable {c : Choices} {heap : Nat → DomainObject}

/-! ## The answer of a domain object -/

/-- What the configuration answers, in terms of the domain object found. -/
theorem Lookup.view_recipient (c : Choices) (s : State) (reply : Reply) (l : Lookup) :
    (l.view s reply).recipient c (strtolower l.rcpt.address) false =
      match Address.parse (strtolower l.rcpt.address), l.found with
      | some a, some d =>
          ((s.heap d).domain.recipient c a.origrcpt).elim ([], false) fun t =>
            (a.written t, (s.heap d).domain.fixRecipient)
      | _, _ => (strtolower l.rcpt.address, false) := by
  unfold Configuration.recipient
  split
  next hp => simp only [hp]
  next a hp =>
      cases hf : l.found with
      | none => simp [view, hp, hf]
      | some d =>
          have hl : (l.view s reply).domains.lookup a.domain = some (s.heap d).domain := by
            simp only [view, hp, hf]
            exact List.dlookup_cons_eq _ _ _
          simp only [hp, hl]
          cases (s.heap d).domain.recipient c a.origrcpt with
          | none => rfl
          | some t => rfl

/-- The domain object found has the name of the domain of the address. -/
def Lookup.Valid (s : State) (l : Lookup) : Prop :=
  ∀ d, l.found = some d → d < s.nextDom ∧
    ∃ a, Address.parse (strtolower l.rcpt.address) = some a ∧ s.name d = a.domain

/-- A domain object keeps its name. -/
theorem name_step {s s' : State} {a : Act} (h : WellFormed s) (hs : s.step c a = some s') {d : Nat}
    (hd : d < s.nextDom) : s'.name d = s.name d := by
  have hstep := object_step h hs (hd.trans_le (nextDom_le hs))
  unfold State.name
  generalize s'.heap d = o at hstep
  cases hstep with
  | same hd => rfl
  | failed => rfl
  | loaded ha hj he => exact absurd hd (by rw [he]; exact lt_irrefl _)
  | configured ha hg hle => exact absurd hd (not_lt.mpr hle)

theorem Lookup.Valid.step {s s' : State} {a : Act} {l : Lookup} (hl : l.Valid s)
    (h : WellFormed s) (hs : s.step c a = some s') : l.Valid s' := by
  intro d hd
  obtain ⟨hlt, a, ha, hname⟩ := hl d hd
  exact ⟨hlt.trans_le (nextDom_le hs), a, ha, (name_step h hs hlt).trans hname⟩

/-! ## Refusals -/

theorem Lookup.Valid.turn {s : State} {reply : Nat → Reply} {σ σ' : Session}
    (hw : WellFormed s) (hv : ∀ l, σ.lookup = some l → l.Valid s) (h : Turn c s reply σ σ') :
    ∀ l, σ'.lookup = some l → l.Valid s := by
  intro l hl
  cases h with
  | crashed => exact hv l hl
  | looked r hu hc =>
      obtain rfl := Option.some.inj hl
      intro d hd
      obtain ⟨a, ha, hmap⟩ := Option.bind_eq_some_iff.mp hd
      obtain ⟨hlt, -, hname⟩ := hw.mapped _ _ _ hmap
      exact ⟨hlt, a, ha, hname⟩
  | begun => cases hl
  | answered => cases hl
  | closed => cases hl
  | noted => cases hl

/-- The domain object that refused a recipient, and what the run says about it. -/
def Refused (c : Choices) (heap : Nat → DomainObject) (as : List Act) (r : Rcpt) : Prop :=
  r.address = [] ∨ ∃ a d, Address.parse (strtolower r.address) = some a ∧ d.name = a.domain ∧
    Grounded c heap as d ∧ d.recipient c a.origrcpt = none

theorem Refused.mono {as : List Act} {r : Rcpt} (h : Refused c heap as r) (a : Act) :
    Refused c heap (as ++ [a]) r :=
  h.imp_right fun ⟨ad, d, ha, hn, hg, hr⟩ => ⟨ad, d, ha, hn, hg.mono a, hr⟩

/-- A refusal of the containers is one of the configuration. -/
theorem recipient_of_reject {cfg : Configuration} {u : Context} {r : Rcpt}
    (h : (u.envelopeRecipient c cfg r).1 = .reject) :
    (cfg.recipient c (strtolower r.address) false).1 = [] := by
  unfold Context.envelopeRecipient at h
  split at h
  next => cases h
  next =>
      simp only at h
      split at h
      next hnil => exact List.length_eq_zero_iff.mp hnil
      next =>
          split at h
          next => cases h
          next => cases h

/-- A recipient that is refused is empty, or refused by the domain object found. -/
theorem refused_of_reject {as : List Act} {s : State} {reply : Reply} {l : Lookup} {u : Context}
    (hv : l.Valid s) (hg : ∀ d, d < s.nextDom → Grounded c heap as (s.heap d).domain)
    (h : (u.envelopeRecipient c (l.view s reply) l.rcpt).1 = .reject) :
    Refused c heap as l.rcpt := by
  have hnil := recipient_of_reject h
  rw [Lookup.view_recipient] at hnil
  have hempty : strtolower l.rcpt.address = [] → Refused c heap as l.rcpt :=
    fun he => Or.inl (strtolower_eq_nil.mp he)
  split at hnil
  next a d ha hd =>
      obtain ⟨hlt, a', ha', hname⟩ := hv d hd
      obtain rfl := Option.some.inj (ha.symm.trans ha')
      cases hr : (s.heap d).domain.recipient c a.origrcpt with
      | none => exact Or.inr ⟨a, _, ha, hname, hg d hlt, hr⟩
      | some t =>
          rw [hr] at hnil
          simp only [Option.elim_some, Address.written] at hnil
          split at hnil <;> simp at hnil
  next => exact hempty hnil

/-- Every refusal in the log has its grounds. -/
theorem refused_of_log {heap : Nat → DomainObject} {reply : Nat → Reply} {as : List ServerAct}
    {s : ServerState} (h : run (ServerState.step c) (ServerState.start heap reply) as = some s)
    {k : Connection} {r : Rcpt} {text : Option Reply}
    (he : Event.envelopeRecipient r .reject text ∈ s.log k) : Refused c heap (threadActs as) r := by
  refine (session_induction (k := k)
    (P := fun as s σ => (∀ l, σ.lookup = some l → l.Valid s) ∧
      ∀ r text, Event.envelopeRecipient r .reject text ∈ σ.log → Refused c heap (threadActs as) r)
    ⟨fun l hl => (by cases hl), fun r text he => (by cases he)⟩ ?_ ?_ ?_ h).2 r text he
  · intro as s a shared hr ih hs
    have hacts : threadActs (as ++ [.shared a]) = threadActs as ++ [a] := by
      simp [threadActs, ServerAct.act]
    refine ⟨fun l hl => (ih.1 l hl).step (wellFormed_shared hr) hs, fun r text he => ?_⟩
    rw [hacts]
    exact (ih.2 r text he).mono a
  · intro as s a hact _ ih
    have hacts : threadActs (as ++ [a]) = threadActs as := by simp [threadActs, hact]
    rwa [hacts]
  · intro as s a σ hr hact _ ih hcb
    have hacts : threadActs (as ++ [a]) = threadActs as := by simp [threadActs, hact]
    have hturn := turn_of_callback hcb
    refine ⟨Lookup.Valid.turn (wellFormed_shared hr) ih.1 hturn, fun r text he => ?_⟩
    rw [hacts]
    have hlog : ∀ {e : Event}, Event.envelopeRecipient r .reject text ∈ (s.session k).log ++ [e] →
        e ≠ .envelopeRecipient r .reject text → Refused c heap (threadActs as) r := by
      intro e hm hne
      cases List.mem_append.mp hm with
      | inl hm => exact ih.2 r text hm
      | inr hm => exact absurd (List.mem_singleton.mp hm).symm hne
    cases hturn with
    | crashed => exact ih.2 r text he
    | begun status ho => exact hlog he (by simp)
    | looked r' hu hc =>
        cases List.mem_append.mp he with
        | inl hm => exact ih.2 r text hm
        | inr hm => cases hm
    | @answered l u conf status text' v hl hu hc hres =>
        cases List.mem_append.mp he with
        | inl hm => exact ih.2 r text hm
        | inr hm =>
            obtain ⟨rfl, rfl, rfl⟩ := by simpa using hm
            exact refused_of_reject (ih.1 l hl) (fun d hd => grounded (threads hr) hd)
              (congrArg Prod.fst hres)
    | closed status => exact hlog he (by simp)
    | noted hn ho =>
        refine hlog he ?_
        rintro rfl
        cases hn

/-! ## The decision on the names of a load -/

/-- The names among some recipients that an algorithm finds, by the parameters of a section. -/
def Domain.found (ρ : Rounding) (d : Domain) (R : Finset Str) (a : Algorithm) (q : Str) :
    Finset Str :=
  R.filter fun t =>
    0 < common (d.profile a) q t ∧ (d.scoreFor a q t).geRat ρ (d.threshold a) = true

/-- What these parameters decide on a name. -/
noncomputable def Domain.decision (ρ : Rounding) (d : Domain) (R : Finset Str) (q : Str) :
    Option Str :=
  (answer q (census (d.found ρ R .ngram q))).or (answer q (census (d.found ρ R .word q)))

/-- Domains with the same parameters decide alike. -/
theorem Domain.found_of_config {d d' : Domain} (h : d.config = d'.config) (ρ : Rounding)
    (R : Finset Str) (a : Algorithm) (q : Str) : d.found ρ R a q = d'.found ρ R a q := by
  have hprofile : d.profile = d'.profile :=
    profile_congr (show d.config.ngramSize = d'.config.ngramSize by rw [h])
  have hthreshold : d.threshold a = d'.threshold a := by
    cases a with
    | ngram => exact show d.config.ngramThreshold = d'.config.ngramThreshold by rw [h]
    | word => exact show d.config.wordThreshold = d'.config.wordThreshold by rw [h]
  refine Finset.filter_congr fun t _ => ?_
  rw [scoreFor, scoreFor, hprofile, hthreshold]

/-- A loaded object decides by the parameters of its section and the names of its load. -/
theorem Domain.recipient_of_config {d d₀ : Domain} {feed : Feed} {q : Str} (hl : d.Loaded c)
    (hrec : d.recipients.toFinset = d.collected feed) (hcfg : d.config = d₀.config) :
    d.recipient c q = d₀.decision c.rounding (d₀.collected feed) q ∧
      (q.length < 65535 → q ∈ d₀.collected feed → d.recipient c q = some q) := by
  have hcol : d.collected feed = d₀.collected feed := Held.collected_of_config hcfg feed
  refine ⟨?_, fun hlen hm => recipient_self hl c (by rwa [hrec, hcol]) ?_⟩
  · have hfound : ∀ a, d.reaching c.rounding a q =
        d₀.found c.rounding (d₀.collected feed) a q := fun a => by
      rw [← found_of_config hcfg, ← hcol, ← hrec]
      rfl
    rw [hl.recipient_eq, verdict_eq hl.indexed, verdict_eq hl.indexed, hfound, hfound, decision]
  · have hle := ngram_total_le d.ngramSize q
    change (ngram d.ngramSize.toNat q).total < 65536
    omega

/-! ## Loads of the service -/

/-- There is a load in a run of the service, of an object with the parameters of another. -/
def ServerFed (c : Choices) (heap : Nat → DomainObject) (reply : Nat → Reply)
    (as : List ServerAct) (feed : Feed) (d : Domain) : Prop :=
  ∃ before t after s j, as = before ++ .shared (.load t feed) :: after ∧
    run (ServerState.step c) (ServerState.start heap reply) before = some s ∧
    s.shared.job t = some (j, .loading) ∧ (s.shared.heap j.dom).domain.config = d.config

/-- An action of the threads is one of the run. -/
theorem threadActs_split {as : List ServerAct} {bs cs : List Act} {b : Act}
    (h : threadActs as = bs ++ b :: cs) :
    ∃ before after, as = before ++ .shared b :: after ∧ threadActs before = bs := by
  obtain ⟨before, rest, rfl, hb, hr⟩ := List.filterMap_eq_append_iff.mp h
  obtain ⟨skipped, a, after, rfl, hs, ha, -⟩ := List.filterMap_eq_cons_iff.mp hr
  refine ⟨before ++ skipped, after, ?_, ?_⟩
  · cases a with
    | shared a =>
        obtain rfl := Option.some.inj ha
        rw [List.append_assoc]
    | _ => cases ha
  · rw [threadActs, List.filterMap_append, hb, List.filterMap_eq_nil_iff.mpr hs, List.append_nil]

theorem serverFed {reply : Nat → Reply} {as : List ServerAct} {s : ServerState}
    (h : run (ServerState.step c) (ServerState.start heap reply) as = some s) {feed : Feed}
    {d : Domain} (hf : Fed c heap (threadActs as) feed d) :
    ServerFed c heap reply as feed d := by
  obtain ⟨bs, t, cs, s₁, j, hsplit, hrun, hj, hcfg⟩ := hf
  obtain ⟨before, after, rfl, rfl⟩ := threadActs_split hsplit
  rw [run_append] at h
  obtain ⟨s₂, hs₂, -⟩ := Option.bind_eq_some_iff.mp h
  obtain rfl := Option.some.inj (hrun.symm.trans (threads hs₂))
  exact ⟨before, t, after, s₂, j, rfl, hs₂, hj, hcfg⟩

/-- **A refusal rests on one load.**  Whatever the order of reloads, refreshes and
callbacks, a recipient that was refused has a domain section in a file that was read, and
there was a load with the parameters of this section, such that the decision by them on
the names delivered finds nothing.  In particular the local part was not delivered, unless
it is too long to be counted. -/
theorem refused_on_evidence {reply : Nat → Reply} {as : List ServerAct} {s : ServerState}
    (h : run (ServerState.step c) (ServerState.start heap reply) as = some s) {k : Connection}
    {r : Rcpt} {text : Option Reply} (hr : r.address ≠ [])
    (he : Event.envelopeRecipient r .reject text ∈ s.log k) :
    ∃ a loads file cfg d feed, Address.parse (strtolower r.address) = some a ∧
      .shared (.finishGet loads file) ∈ as ∧ Configuration.get loads file = .ok cfg ∧
      cfg.domains.lookup a.domain = some d ∧ ServerFed c heap reply as feed d ∧
      d.decision c.rounding (d.collected feed) a.origrcpt = none ∧
      (a.origrcpt.length < 65535 → a.origrcpt ∉ d.collected feed) := by
  obtain ⟨a, o, ha, hname, hg, hrec⟩ := (refused_of_log h he).resolve_left hr
  -- an object that refuses has loaded
  have hf : o.failureCount = 0 := by
    by_contra hne
    rw [Domain.recipient_of_failureCount hne] at hrec
    cases hrec
  obtain ⟨loads, file, cfg, d, hfile, hget, hlookup, hcfg⟩ := hg.configured
  obtain ⟨hl, feed, hfed, hcol⟩ := hg.loaded hf
  obtain ⟨bs, cs, hsplit⟩ := List.append_of_mem hfile
  obtain ⟨before, after, rfl, -⟩ := threadActs_split hsplit
  obtain ⟨before', t, after', s₁, j, hload, hrun, hj, hcfg'⟩ := serverFed h hfed
  refine ⟨a, loads, file, cfg, d, feed, ha, by simp, hget, hname ▸ hlookup,
    ⟨before', t, after', s₁, j, hload, hrun, hj, hcfg'.trans hcfg⟩, ?_⟩
  obtain ⟨hdec, hself⟩ := Domain.recipient_of_config (q := a.origrcpt) hl hcol hcfg
  refine ⟨hdec.symm.trans hrec, fun hlen hm => ?_⟩
  rw [hself hlen hm] at hrec
  cases hrec

open Conversation in
/-- A message to a recipient that is not there. -/
theorem refused_on_evidence_sample :
    ∃ (d : Domain) (feed : Feed),
      ServerFed .canonical Overtaken.heap reply
        (Overtaken.reload.map .shared ++ letter 1 (str "bob@a")) feed d ∧
      d.decision .binary64 (d.collected feed) (str "bob") = none ∧
      str "bob" ∉ d.collected feed := by
  have hrun : (after (Overtaken.reload.map .shared ++ letter 1 (str "bob@a"))).map (fun s =>
      decide (Event.envelopeRecipient (rcpt (str "bob@a")) .reject
        (some ⟨550, str "5.1.1", str "User unknown"⟩) ∈ s.log 1)) = some true := by decide +kernel
  obtain ⟨s, hs, he⟩ := Option.map_eq_some_iff.mp hrun
  obtain ⟨a, loads, file, cfg, d, feed, ha, -, -, -, hload, hdec, hnot⟩ :=
    refused_on_evidence hs (show (rcpt (str "bob@a")).address ≠ [] by decide) (of_decide_eq_true he)
  have hparse : Address.parse (strtolower (rcpt (str "bob@a")).address) =
      some ⟨false, str "bob", str "a"⟩ := by decide
  obtain rfl := Option.some.inj (hparse.symm.trans ha)
  exact ⟨d, feed, hload, hdec, hnot (by decide)⟩

end Undervest
