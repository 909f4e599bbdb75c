import Undervest.Refresh
import Undervest.Lib.Transition
import Mathlib.Logic.Function.Basic
import Mathlib.Data.Fintype.EquivFin

/-!
# Copies of domains

A source holds a pointer to the domain that it delivers to.  Here the domains are
objects at addresses, `AttachedDomain` is a domain with the addresses that its sources
hold, and `load_data` follows them.

`refresh` makes its clone the parent of the sources it copies, so the clone loads as a
domain by itself does (`loadData_own`, `refresh_object`).  `Domain::assign` copies the
pointers, and unless the original is loaded it keeps the recipients the copy had.

`Copies` says what a copy should be.  `copies_iff` proves when `assign` makes one: the
original is disabled, or its sources point to the copy already and the copy starts
without recipients.
-/

namespace Undervest

open Unordered Matcher Transition FloatingPoint

/-! ## Objects -/

/-- The address of an object. -/
abbrev Addr := Nat

/-- A domain whose sources each hold the address of a domain. -/
structure AttachedDomain extends Domain where
  /-- `Source::domain` of each source. -/
  parents : List Addr
  parents_length : parents.length = toDomain.sources.length

/-- Change the domain, and leave its sources. -/
def AttachedDomain.update (o : AttachedDomain) (d : Domain) (h : d.sources = o.sources) :
    AttachedDomain where
  toDomain := d
  parents := o.parents
  parents_length := by rw [h, o.parents_length]

def AttachedDomain.setRecipients (o : AttachedDomain) (r : UnorderedSet Str) : AttachedDomain :=
  o.update { o.toDomain with recipients := r } rfl

/-- What the configuration file sets in a domain. -/
structure Settings where
  ngramThreshold : ℚ
  wordThreshold : ℚ
  refreshSec : UInt32
  retrySec : UInt32
  retries : List UInt32
  ngramSize : UInt16
  fixRecipient : Bool

/-- The members that the constructor leaves as they are. -/
structure Unset where
  refreshSec : UInt32
  retrySec : UInt32
  ngramSize : UInt16
  fixRecipient : Bool

namespace Domain

/-- The constructor. -/
def new (name : Str) (unset : Unset) : Domain where
  name := name
  sources := []
  recipients := .empty
  ngramMatch := NgramMatcher.new 3
  wordMatch := Matcher.empty
  -- the `double` next to 0.8
  ngramThreshold := 3602879701896397 / 4503599627370496
  wordThreshold := 1 / 2
  refreshSec := unset.refreshSec
  retrySec := unset.retrySec
  retries := []
  failureCount := -1
  ngramSize := unset.ngramSize
  fixRecipient := unset.fixRecipient

/-- What `Domain::assign` makes of a domain, in an object with the recipients `own`. -/
def copy (c : Choices) (own : UnorderedSet Str) (s : Domain) : Domain :=
  let d : Domain := { s with
    recipients := own
    ngramMatch := NgramMatcher.new s.ngramSize
    wordMatch := Matcher.empty
    failureCount := -1 }
  if s.failureCount = 0 then
    { buildMatchers c { d with recipients := s.recipients } with failureCount := 0 }
  else if s.failureCount < -1 then { d with failureCount := s.failureCount }
  else d

theorem buildMatchers_sources (c : Choices) (d : Domain) :
    (buildMatchers c d).sources = d.sources := by
  rw [buildMatchers, foldl_addToMatchers]

/-- Only an enabled domain is loaded. -/
theorem copy_disabled_iff (c : Choices) (own : UnorderedSet Str) (s : Domain) :
    (copy c own s).failureCount = -2 ↔ s.failureCount = -2 := by
  simp only [copy]
  split
  next h => simp [h]
  next =>
      split
      next => exact Iff.rfl
      next hge =>
          refine iff_of_false (show ¬ (-1 : Int16) = -2 by decide) ?_
          rintro h2
          rw [h2] at hge
          exact hge (by decide)

theorem copy_loaded_iff (c : Choices) (own : UnorderedSet Str) (s : Domain) :
    (copy c own s).failureCount = 0 ↔ s.failureCount = 0 := by
  simp only [copy]
  split
  next h => simp [h]
  next h =>
      split
      next => exact Iff.rfl
      next => exact iff_of_false (show ¬ (-1 : Int16) = 0 by decide) h

theorem copy_recipients (c : Choices) (own : UnorderedSet Str) (s : Domain) :
    (copy c own s).recipients = if s.failureCount = 0 then s.recipients else own := by
  simp only [copy]
  split
  next => exact buildMatchers_recipients c _
  next => split <;> rfl

theorem copy_sources (c : Choices) (own : UnorderedSet Str) (s : Domain) :
    (copy c own s).sources = s.sources := by
  simp only [copy]
  split
  next => exact buildMatchers_sources c _
  next => split <;> rfl

end Domain

/-- The domains in memory, and the address of the next one. -/
structure Memory where
  object : Addr → AttachedDomain
  next : Addr

namespace Memory

variable {c : Choices} {feed : Feed} {m m' : Memory} {a b d s : Addr}

def set (m : Memory) (a : Addr) (o : AttachedDomain) : Memory :=
  { m with object := Function.update m.object a o }

@[simp] theorem set_object_self (m : Memory) (a : Addr) (o : AttachedDomain) :
    (m.set a o).object a = o := Function.update_self ..

@[simp] theorem set_object_of_ne (m : Memory) (o : AttachedDomain) (h : b ≠ a) :
    (m.set a o).object b = m.object b := Function.update_of_ne h ..

/-- Load the sources from position `i` on, each into the domain that it points to. -/
def loadSources (feed : Feed) : Nat → List Addr → Memory → Memory × Completion
  | _, [], m => (m, .returns)
  | i, p :: parents, m =>
      match Source.loadData (m.object p).name (feed i) (m.object p).recipients with
      | (r, .throws) => (m.set p ((m.object p).setRecipients r), .throws)
      | (r, .returns) => loadSources feed (i + 1) parents (m.set p ((m.object p).setRecipients r))

/-- `Domain::load_data`. -/
def loadData (c : Choices) (feed : Feed) (a : Addr) (m : Memory) : Memory × Completion :=
  if (m.object a).failureCount ≠ -2 then
    match m.loadSources feed 0 (m.object a).parents with
    | (m, .throws) => (m, .throws)
    | (m, .returns) =>
        (m.set a ((m.object a).update
          { Domain.buildMatchers c (m.object a).toDomain with failureCount := 0 }
          (Domain.buildMatchers_sources c _)), .returns)
  else (m, .returns)

/-- `Domain::assign` of the object at `s` to the one at `d`. -/
def assign (c : Choices) (d s : Addr) (m : Memory) : Memory :=
  if s = d then m
  else
    m.set d
      { toDomain := (m.object s).toDomain.copy c (m.object d).recipients
        parents := (m.object s).parents
        parents_length := by rw [Domain.copy_sources, (m.object s).parents_length] }

/-- `Domain::refresh`.  The clone is the parent of its sources. -/
def refresh (c : Choices) (feed : Feed) (a : Addr) (m : Memory) : Memory :=
  if (m.object a).failureCount = -2 then m
  else
    let clone : AttachedDomain :=
      { toDomain := (m.object a).clone
        parents := List.replicate (m.object a).sources.length m.next
        parents_length := List.length_replicate }
    match ({ m with next := m.next + 1 }.set m.next clone).loadData c feed m.next with
    | (m, .returns) => m
    | (m, .throws) => m.set a ((m.object a).update (m.object a).toDomain.fail rfl)

/-! ## Runs -/

/-- What happens next to the domains in memory. -/
inductive Action where
  | construct (name : Str) (unset : Unset)
  /-- The configuration file is read. -/
  | configure (a : Addr) (f : Settings)
  | addSource (a : Addr) (source : Source)
  /-- `load_loaders` throws. -/
  | disable (a : Addr)
  | load (a : Addr) (feed : Feed)
  | assign (d s : Addr)
  | refresh (a : Addr) (feed : Feed)

def configure (f : Settings) (o : AttachedDomain) : AttachedDomain :=
  o.update
    { o.toDomain with
      ngramThreshold := f.ngramThreshold
      wordThreshold := f.wordThreshold
      refreshSec := f.refreshSec
      retrySec := f.retrySec
      retries := f.retries
      ngramSize := f.ngramSize
      fixRecipient := f.fixRecipient } rfl

/-- A source that was made for the domain at `a`. -/
def addSource (a : Addr) (source : Source) (o : AttachedDomain) : AttachedDomain where
  toDomain := { o.toDomain with sources := o.sources ++ [source] }
  parents := o.parents ++ [a]
  parents_length := by rw [List.length_append, List.length_append, o.parents_length]; rfl

def construct (name : Str) (unset : Unset) (m : Memory) : Memory :=
  { m with next := m.next + 1 }.set m.next ⟨Domain.new name unset, [], rfl⟩

/-- The objects of an action exist. -/
def Exists (m : Memory) : Action → Prop
  | .construct .. => True
  | .configure a _ | .addSource a _ | .disable a | .load a _ | .refresh a _ => a < m.next
  | .assign d s => d < m.next ∧ s < m.next

def step (c : Choices) (m : Memory) : Action → Option Memory
  | .construct name unset => some (m.construct name unset)
  | .configure a f => some (m.set a (configure f (m.object a)))
  | .addSource a source => some (m.set a (addSource a source (m.object a)))
  | .disable a =>
      some (m.set a ((m.object a).update { (m.object a).toDomain with failureCount := -2 } rfl))
  | .load a feed => some (m.loadData c feed a).1
  | .assign d s => some (m.assign c d s)
  | .refresh a feed => some (m.refresh c feed a)

/-- Memory without domains. -/
def start : Memory := ⟨fun _ => ⟨Domain.new [] ⟨0, 0, 0, false⟩, [], rfl⟩, 0⟩

/-! ## What a copy should be -/

/-- After `d = s` the copy and the original answer alike.  A load of the copy changes the
copy only, and of it the recipients and the matchers, and a load that returns collects
what the sources deliver. -/
structure Copies (c : Choices) (m : Memory) (d s : Addr) : Prop where
  answers : ∀ ρ o₁ o₂ q, ((m.assign c d s).object d).recipient ⟨o₁, ρ⟩ q =
    ((m.assign c d s).object s).recipient ⟨o₂, ρ⟩ q
  frame : ∀ feed a, a ≠ d →
    ((m.assign c d s).loadData c feed d).1.object a = (m.assign c d s).object a
  config : ∀ feed,
    (((m.assign c d s).loadData c feed d).1.object d).config =
        ((m.assign c d s).object d).config ∧
      (((m.assign c d s).loadData c feed d).1.object d).parents =
        ((m.assign c d s).object d).parents
  collects : ((m.assign c d s).object d).failureCount ≠ -2 → ∀ feed,
    ((m.assign c d s).loadData c feed d).2 = .returns →
      (((m.assign c d s).loadData c feed d).1.object d).recipients.toFinset =
        ((m.assign c d s).object d).collected feed

/-- The recipients that the copy starts with. -/
def kept (m : Memory) (d s : Addr) : UnorderedSet Str :=
  if (m.object s).failureCount = 0 then (m.object s).recipients else (m.object d).recipients

/-- The sources of the original point to the copy already, and the copy starts without
recipients, unless the original is disabled. -/
def Separate (m : Memory) (d s : Addr) : Prop :=
  (m.object s).failureCount = -2 ∨
    (∀ p ∈ (m.object s).parents, p = d) ∧ (m.kept d s).toFinset = ∅

end Memory

/-! ## What the matchers of a domain know -/

namespace Domain

/-- The matchers of a loaded domain index names that are recipients. -/
def Covered (d : Domain) : Prop :=
  d.failureCount = 0 → ∃ names : List Str, (∀ t ∈ names, t ∈ d.recipients.toFinset) ∧
    ∀ a, Indexes (fun t => orEmpty (d.slicing a t true)) (d.matcher a) names

theorem covered_of_failureCount {d : Domain} (h : d.failureCount ≠ 0) : d.Covered :=
  fun h0 => absurd h0 h

/-- Matchers that were built from the recipients. -/
theorem covered_built (c : Choices) (d : Domain) :
    Covered { buildMatchers c d with failureCount := 0 } := by
  refine fun _ => ⟨c.iterate d.recipients.toList, fun t ht => ?_, fun a => ?_⟩
  · change t ∈ (buildMatchers c d).recipients.toFinset
    rw [buildMatchers_recipients, UnorderedSet.mem_toFinset]
    exact c.mem_iterate.mp ht
  · cases a with
    | ngram => exact buildMatchers_indexes c d .ngram
    | word => exact buildMatchers_indexes c d .word

/-- Recipients may be added. -/
theorem Covered.of_matchers {d d' : Domain} (h : d.Covered) (hf : d'.failureCount = d.failureCount)
    (hn : d'.ngramMatch = d.ngramMatch) (hw : d'.wordMatch = d.wordMatch)
    (hr : d.recipients.toFinset ⊆ d'.recipients.toFinset) : d'.Covered := by
  intro h0
  obtain ⟨names, hnames, hix⟩ := h (hf ▸ h0)
  refine ⟨names, fun t ht => hr (hnames t ht), fun a => ?_⟩
  cases a with
  | ngram =>
      have := hix .ngram
      rwa [slicing, matcher, ← hn] at this
  | word =>
      have := hix .word
      rwa [slicing, matcher, ← hw] at this

/-- The copy of a loaded domain indexes the recipients anew. -/
theorem copy_indexed (c : Choices) (own : UnorderedSet Str) {s : Domain}
    (h0 : s.failureCount = 0) : (copy c own s).Indexed := by
  simp only [copy, if_pos h0]
  refine ⟨buildMatchers_size c _, c.iterate s.recipients.toList, ?_, fun a => ?_⟩
  · change (c.iterate s.recipients.toList).Perm (buildMatchers c _).recipients.toList
    rw [buildMatchers_recipients]
    exact c.iterate_perm _
  · cases a with
    | ngram => exact buildMatchers_indexes c _ .ngram
    | word => exact buildMatchers_indexes c _ .word

/-- What a query reaches depends on the recipients and the configuration. -/
theorem reaching_congr (ρ : Rounding) {d d' : Domain} (hr : d'.recipients = d.recipients)
    (hc : d'.config = d.config) (a : Algorithm) (q : Str) :
    d'.reaching ρ a q = d.reaching ρ a q := by
  have hprofile : d'.profile = d.profile :=
    profile_congr (show d'.config.ngramSize = d.config.ngramSize by rw [hc])
  have hthreshold : d'.threshold a = d.threshold a := by
    cases a with
    | ngram => exact show d'.config.ngramThreshold = d.config.ngramThreshold by rw [hc]
    | word => exact show d'.config.wordThreshold = d.config.wordThreshold by rw [hc]
  rw [reaching, reaching, hr]
  refine Finset.filter_congr fun t _ => ?_
  rw [scoreFor, scoreFor, hprofile, hthreshold]

theorem copy_config (c : Choices) (own : UnorderedSet Str) (s : Domain) :
    (copy c own s).config = s.config := by
  simp only [copy]
  split
  next =>
      rw [buildMatchers, foldl_addToMatchers]
      rfl
  next => split <;> rfl

/-- **A domain that indexes its recipients and its copy answer alike.** -/
theorem copy_recipient (c : Choices) (ρ : Rounding) (o₁ o₂ : Orders) (own : UnorderedSet Str)
    {s : Domain} (h0 : s.failureCount = 0) (hs : s.Indexed) (q : Str) :
    (copy c own s).recipient ⟨o₁, ρ⟩ q = s.recipient ⟨o₂, ρ⟩ q := by
  have hcopy := (copy_loaded_iff c own s).mpr h0
  have hreaching := fun a => reaching_congr ρ
    (show (copy c own s).recipients = s.recipients by rw [copy_recipients, if_pos h0])
    (copy_config c own s) a q
  rw [recipient_eq, recipient_eq, if_neg (not_not.mpr hcopy), if_neg (not_not.mpr h0)]
  simp only [verdict_eq (copy_indexed c own h0), verdict_eq hs, hreaching]

theorem covered_copy (c : Choices) (own : UnorderedSet Str) (s : Domain) :
    (copy c own s).Covered := by
  simp only [copy]
  split
  next => exact covered_built c _
  next h =>
      split
      next => exact covered_of_failureCount h
      next => exact covered_of_failureCount (show (-1 : Int16) ≠ 0 by decide)

/-- A load leaves the configuration. -/
theorem config_loadData (c : Choices) (feed : Feed) (d : Domain) :
    (loadData c feed d).1.config = d.config := by
  cases hl : loadData c feed d with
  | mk d' completion =>
      cases completion with
      | returns => exact loadData_config hl
      | throws =>
          rw [loadData] at hl
          split at hl
          next =>
              split at hl
              next =>
                  cases hl
                  rfl
              next => cases hl
          next => cases hl

/-- Matchers that know no recipient find none. -/
theorem recipient_of_empty {d : Domain} (h : d.Covered) (h0 : d.failureCount = 0)
    (hr : d.recipients.toFinset = ∅) (c : Choices) (q : Str) : d.recipient c q = none := by
  obtain ⟨names, hnames, hix⟩ := h h0
  have hnil : names = [] := List.eq_nil_iff_forall_not_mem.mpr fun t ht => by
    have := hnames t ht
    rw [hr] at this
    exact absurd this (Finset.notMem_empty t)
  have hverdict (a : Algorithm) : d.verdict c a q = none := by
    have hperm := matchResults_perm c q (hnil ▸ hix a)
    rw [List.filter_nil, List.map_nil] at hperm
    rw [verdict, hperm.eq_nil]
    rfl
  rw [recipient_eq, if_neg (not_not.mpr h0), hverdict, hverdict]
  rfl

end Domain

namespace AttachedDomain

/-- The recipients of an object have grown, and nothing else has changed. -/
def Grows (o o' : AttachedDomain) : Prop :=
  ∃ r : UnorderedSet Str, o.recipients.toFinset ⊆ r.toFinset ∧ o' = o.setRecipients r

theorem Grows.refl (o : AttachedDomain) : o.Grows o := ⟨o.recipients, Finset.Subset.refl _, rfl⟩

theorem Grows.trans {o o' o'' : AttachedDomain} (h : o.Grows o') (h' : o'.Grows o'') :
    o.Grows o'' := by
  obtain ⟨r, hr, rfl⟩ := h
  obtain ⟨r', hr', rfl⟩ := h'
  exact ⟨r', hr.trans hr', rfl⟩

theorem Grows.covered {o o' : AttachedDomain} (h : o.Grows o') (ho : o.toDomain.Covered) :
    o'.toDomain.Covered := by
  obtain ⟨r, hr, rfl⟩ := h
  exact ho.of_matchers rfl rfl rfl hr

theorem Grows.recipients {o o' : AttachedDomain} (h : o.Grows o') :
    o.recipients.toFinset ⊆ o'.recipients.toFinset := by
  obtain ⟨r, hr, rfl⟩ := h
  exact hr

end AttachedDomain

namespace Memory

open AttachedDomain

variable {c : Choices} {feed : Feed} {m m' : Memory} {a b d s : Addr}

/-! ## What a load changes -/

theorem set_self (m : Memory) (a : Addr) : m.set a (m.object a) = m := by
  rw [set, Function.update_eq_self]

theorem grows_setRecipients (m : Memory) (p : Addr) (delivery : Delivery) (b : Addr) :
    (m.object b).Grows ((m.set p ((m.object p).setRecipients
      (Source.loadData (m.object p).name delivery (m.object p).recipients).1)).object b) := by
  by_cases hb : b = p
  · subst hb
    rw [set_object_self]
    refine ⟨_, ?_, rfl⟩
    rw [Source.loadData_toFinset]
    exact Finset.subset_union_left
  · rw [set_object_of_ne _ _ hb]
    exact Grows.refl _

/-- Loading sources adds recipients to their parents, and does nothing else. -/
theorem loadSources_grows (feed : Feed) (parents : List Addr) (i : Nat) (m : Memory) (b : Addr) :
    (m.object b).Grows ((m.loadSources feed i parents).1.object b) := by
  induction parents generalizing i m with
  | nil => exact Grows.refl _
  | cons p parents ih =>
      have hfirst := m.grows_setRecipients p (feed i) b
      rw [loadSources]
      cases hs : Source.loadData (m.object p).name (feed i) (m.object p).recipients with
      | mk r completion =>
          rw [hs] at hfirst
          cases completion with
          | throws => exact hfirst
          | returns => exact hfirst.trans (ih (i + 1) _)

/-- A load adds recipients to other domains at most, and builds its own matchers. -/
theorem loadData_cases (c : Choices) (feed : Feed) (a : Addr) (m : Memory) (b : Addr) :
    (m.object b).Grows ((m.loadData c feed a).1.object b) ∨
      b = a ∧ ∃ d : Domain, ((m.loadData c feed a).1.object b).toDomain =
        { Domain.buildMatchers c d with failureCount := 0 } := by
  have hgrows := loadSources_grows feed (m.object a).parents 0 m b
  rw [loadData]
  split
  next =>
      cases hs : m.loadSources feed 0 (m.object a).parents with
      | mk m' completion =>
          rw [hs] at hgrows
          cases completion with
          | throws => exact Or.inl hgrows
          | returns =>
              by_cases hb : b = a
              · subst hb
                refine Or.inr ⟨rfl, (m'.object b).toDomain, ?_⟩
                simp only [set_object_self]
                rfl
              · simp only [set_object_of_ne _ _ hb]
                exact Or.inl hgrows
  next => exact Or.inl (Grows.refl _)

theorem loadData_covered (c : Choices) (feed : Feed) (a : Addr)
    (h : ∀ b, (m.object b).toDomain.Covered) (b : Addr) :
    ((m.loadData c feed a).1.object b).toDomain.Covered := by
  rcases loadData_cases c feed a m b with hgrows | ⟨-, d, hd⟩
  · exact hgrows.covered (h b)
  · rw [hd]
    exact Domain.covered_built c d

theorem set_covered {o : AttachedDomain} (h : ∀ b, (m.object b).toDomain.Covered)
    (ho : o.toDomain.Covered) (b : Addr) : ((m.set a o).object b).toDomain.Covered := by
  by_cases hb : b = a
  · subst hb
    rwa [set_object_self]
  · rw [set_object_of_ne _ _ hb]
    exact h b

theorem covered_clone (d : Domain) : d.clone.Covered :=
  fun _ => ⟨[], by simp, fun a => by cases a <;> exact indexes_empty _⟩

theorem refresh_covered (c : Choices) (feed : Feed) (a : Addr)
    (h : ∀ b, (m.object b).toDomain.Covered) (b : Addr) :
    ((m.refresh c feed a).object b).toDomain.Covered := by
  simp only [refresh]
  split
  next => exact h b
  next =>
      have hclone := set_covered (m := { m with next := m.next + 1 }) (a := m.next)
        (o := ⟨(m.object a).clone, List.replicate (m.object a).sources.length m.next,
          List.length_replicate⟩) h (covered_clone _)
      have hload := loadData_covered c feed m.next hclone
      generalize loadData c feed m.next _ = r at hload
      obtain ⟨m', completion⟩ := r
      cases completion with
      | returns => exact hload b
      | throws => exact set_covered hload (Domain.covered_of_failureCount (Domain.cnt_fail _).2.1) b

/-- An action keeps the matchers of the loaded domains within the recipients. -/
theorem step_covered {x : Action} (h : ∀ b, (m.object b).toDomain.Covered)
    (hs : m.step c x = some m') (b : Addr) : (m'.object b).toDomain.Covered := by
  cases x with
  | construct name unset =>
      cases hs
      exact set_covered h (Domain.covered_of_failureCount (show (-1 : Int16) ≠ 0 by decide)) b
  | configure a f =>
      cases hs
      exact set_covered (o := configure f (m.object a)) h
        ((h a).of_matchers rfl rfl rfl (Finset.Subset.refl _)) b
  | addSource a source =>
      cases hs
      exact set_covered (o := addSource a source (m.object a)) h
        ((h a).of_matchers rfl rfl rfl (Finset.Subset.refl _)) b
  | disable a =>
      cases hs
      exact set_covered h (Domain.covered_of_failureCount (show (-2 : Int16) ≠ 0 by decide)) b
  | load a feed =>
      cases hs
      exact loadData_covered c feed a h b
  | assign d s =>
      cases hs
      rw [assign]
      split
      next => exact h b
      next => exact set_covered h (Domain.covered_copy c _ _) b
  | refresh a feed =>
      cases hs
      exact refresh_covered c feed a h b

theorem reachable_covered (h : Reachable (step c) Exists start m) (b : Addr) :
    (m.object b).toDomain.Covered :=
  h.invariant (P := fun m => ∀ b, (m.object b).toDomain.Covered)
    (fun _ => Domain.covered_of_failureCount (show (-1 : Int16) ≠ 0 by decide))
    (fun _ _ _ hm _ hs => step_covered hm hs) b

/-! ## A domain that owns its sources -/

/-- Sources that all point to one domain load into it as its own. -/
theorem loadSources_own (feed : Feed) (sources : List Source) {parents : List Addr} (i : Nat)
    (hlen : parents.length = sources.length) (hown : ∀ p ∈ parents, p = a) (m : Memory) :
    m.loadSources feed i parents =
      (m.set a ((m.object a).setRecipients
        (Domain.loadSources (m.object a).name feed i sources (m.object a).recipients).1),
      (Domain.loadSources (m.object a).name feed i sources (m.object a).recipients).2) := by
  induction parents generalizing i m sources with
  | nil =>
      obtain rfl := List.length_eq_zero_iff.mp hlen.symm
      rw [loadSources, Domain.loadSources]
      exact congrArg (·, Completion.returns) (m.set_self a).symm
  | cons p parents ih =>
      rw [List.forall_mem_cons] at hown
      obtain ⟨rfl, hown⟩ := hown
      cases sources with
      | nil => cases hlen
      | cons source sources =>
          rw [loadSources, Domain.loadSources]
          cases hs : Source.loadData (m.object p).name (feed i) (m.object p).recipients with
          | mk r completion =>
              cases completion with
              | throws => rfl
              | returns =>
                  simp only
                  rw [ih sources (i + 1) (Nat.succ.inj hlen) hown]
                  simp only [set_object_self]
                  rw [set, set, Function.update_idem]
                  rfl

theorem loadData_sources (c : Choices) (feed : Feed) (d : Domain) :
    (Domain.loadData c feed d).1.sources = d.sources := by
  rw [Domain.loadData]
  split
  next =>
      split
      next => rfl
      next => exact Domain.buildMatchers_sources c _
  next => rfl

/-- **A domain that owns its sources** loads as a domain by itself. -/
theorem loadData_own {c : Choices} {feed : Feed} {m : Memory} {d' : Domain}
    {completion : Completion} (hown : ∀ p ∈ (m.object a).parents, p = a)
    (hload : Domain.loadData c feed (m.object a).toDomain = (d', completion))
    (hsources : d'.sources = (m.object a).sources) :
    m.loadData c feed a = (m.set a ((m.object a).update d' hsources), completion) := by
  have hparts := loadSources_own feed (m.object a).sources 0 (m.object a).parents_length hown m
  rw [loadData, hparts]
  rw [Domain.loadData] at hload
  by_cases hd : (m.object a).failureCount = -2
  · rw [if_neg (not_not.mpr hd)] at hload ⊢
    cases hload
    exact congrArg (·, Completion.returns) (m.set_self a).symm
  · rw [if_pos hd] at hload ⊢
    cases hs : Domain.loadSources (m.object a).name feed 0 (m.object a).sources
        (m.object a).recipients with
    | mk recipients completion =>
        rw [hs] at hload
        cases completion with
        | throws =>
            cases hload
            rfl
        | returns =>
            cases hload
            simp only [set, Function.update_idem, Function.update_self]
            rfl

/-- **A refresh is that of the domain by itself**: it leaves the object that
`Domain.refresh` returns at the next address, the counted failure in the old object, and
all other domains as they were. -/
theorem refresh_object (c : Choices) (feed : Feed) (ha : a ≠ m.next) :
    ((m.refresh c feed a).object a).toDomain =
        ((m.object a).toDomain.refresh c feed).self ∧
      (∀ n, ((m.object a).toDomain.refresh c feed).result = some n →
        ((m.refresh c feed a).object m.next).toDomain = n) ∧
      ∀ b, b ≠ a → b ≠ m.next → (m.refresh c feed a).object b = m.object b := by
  rw [Domain.refresh]
  simp only [refresh]
  split
  next =>
      refine ⟨rfl, fun n hn => ?_, fun b _ _ => rfl⟩
      cases hn
  next =>
      cases hl : Domain.loadData c feed (m.object a).clone with
      | mk d' completion =>
          have hclone : ({ m with next := m.next + 1 }.set m.next
              ⟨(m.object a).clone, List.replicate (m.object a).sources.length m.next,
                List.length_replicate⟩).object m.next = ⟨(m.object a).clone,
              List.replicate (m.object a).sources.length m.next, List.length_replicate⟩ :=
            set_object_self ..
          have hother (b : Addr) (hb : b ≠ m.next) : ({ m with next := m.next + 1 }.set m.next
              ⟨(m.object a).clone, List.replicate (m.object a).sources.length m.next,
                List.length_replicate⟩).object b = m.object b := set_object_of_ne _ _ hb
          generalize Memory.set _ m.next _ = m₁ at hclone hother ⊢
          have hsources : d'.sources = (m₁.object m.next).sources := by
            have := loadData_sources c feed (m.object a).clone
            rw [hl] at this
            rw [hclone]
            exact this
          have hown : m₁.loadData c feed m.next =
              (m₁.set m.next ((m₁.object m.next).update d' hsources), completion) := by
            refine loadData_own ?_ ?_ hsources
            · rw [hclone]
              exact fun p hp => List.eq_of_mem_replicate hp
            · rw [hclone]
              exact hl
          rw [hown]
          cases completion with
          | returns =>
              refine ⟨?_, fun n hn => ?_, fun b _ hnext => ?_⟩
              · simp only [set_object_of_ne _ _ ha, hother a ha]
              · cases hn
                simp only [set_object_self]
                rfl
              · simp only [set_object_of_ne _ _ hnext, hother b hnext]
          | throws =>
              refine ⟨?_, fun n hn => ?_, fun b hb hnext => ?_⟩
              · simp only [set_object_self, set_object_of_ne _ _ ha, hother a ha]
                rfl
              · cases hn
              · simp only [set_object_of_ne _ _ hnext, set_object_of_ne _ _ hb, hother b hnext]

/-! ## Deliveries -/

/-- A name that a set does not have, and that every domain accepts. -/
theorem exists_fresh (r : UnorderedSet Str) :
    ∃ x : Str, x ∉ r.toFinset ∧ x ≠ [] ∧ ∀ name, Source.accept name x = some x := by
  obtain ⟨n, hn⟩ := Infinite.exists_notMem_finset (r.toFinset.image fun t => t.length - 1)
  refine ⟨List.replicate (n + 1) (ch 'a'), fun hmem => hn ?_, by simp, fun name => ?_⟩
  · exact Finset.mem_image.mpr ⟨_, hmem, by simp⟩
  · have hfind : find (ch '@') (List.replicate (n + 1) (ch 'a')) = none := by
      rw [find, List.findIdx?_eq_none_iff]
      intro c hc
      rw [List.eq_of_mem_replicate hc]
      decide
    rw [Source.accept, hfind]
    simp only [strtolower, List.map_replicate]
    rw [show tolower (ch 'a') = ch 'a' by decide]

/-- Sources that all deliver one name. -/
theorem loadSources_delivers {x : Str} (hne : x ≠ [])
    (hx : ∀ name, Source.accept name x = some x) (parents : List Addr) (i : Nat) (m : Memory) :
    (m.loadSources (Domain.sampleFeed [x]) i parents).2 = .returns ∧
      ∀ p ∈ parents, x ∈
        ((m.loadSources (Domain.sampleFeed [x]) i parents).1.object p).recipients.toFinset := by
  induction parents generalizing i m with
  | nil => exact ⟨rfl, fun p hp => nomatch hp⟩
  | cons p parents ih =>
      have hload (name : Str) (r : UnorderedSet Str) :
          Source.loadData name (Domain.sampleFeed [x] i) r = (r.emplace x, .returns) := by
        simp [Domain.sampleFeed, Source.loadData, Source.loadLoop, hx, hne]
      obtain ⟨hret, hall⟩ := ih (i + 1)
        (m.set p ((m.object p).setRecipients ((m.object p).recipients.emplace x)))
      rw [loadSources, hload]
      refine ⟨hret, List.forall_mem_cons.mpr ⟨?_, hall⟩⟩
      refine (loadSources_grows (Domain.sampleFeed [x]) parents (i + 1) _ p).recipients ?_
      rw [set_object_self, UnorderedSet.mem_toFinset]
      exact UnorderedSet.mem_emplace.mpr (Or.inr rfl)

/-- Sources that deliver nothing. -/
theorem loadSources_nothing (parents : List Addr) (i : Nat) (m : Memory) :
    m.loadSources (Domain.sampleFeed []) i parents = (m, .returns) := by
  induction parents generalizing i with
  | nil => rfl
  | cons p parents ih =>
      rw [loadSources, show Source.loadData (m.object p).name (Domain.sampleFeed [] i)
        (m.object p).recipients = ((m.object p).recipients, .returns) from rfl]
      exact (congrArg (loadSources _ _ _) (m.set_self p)).trans (ih (i + 1))

/-! ## When a copy is one -/

theorem assign_object_of_ne (c : Choices) (m : Memory) (h : b ≠ d) :
    (m.assign c d s).object b = m.object b := by
  rw [assign]
  split
  next => rfl
  next => exact set_object_of_ne _ _ h

theorem assign_toDomain (c : Choices) (m : Memory) (h : d ≠ s) :
    ((m.assign c d s).object d).toDomain =
      (m.object s).toDomain.copy c (m.object d).recipients := by
  rw [assign, if_neg h.symm, set_object_self]

theorem assign_parents (c : Choices) (m : Memory) (h : d ≠ s) :
    ((m.assign c d s).object d).parents = (m.object s).parents := by
  rw [assign, if_neg h.symm, set_object_self]

theorem assign_disabled_iff (c : Choices) (m : Memory) (h : d ≠ s) :
    ((m.assign c d s).object d).failureCount = -2 ↔ (m.object s).failureCount = -2 := by
  rw [assign_toDomain c m h]
  exact Domain.copy_disabled_iff ..

theorem assign_recipients (c : Choices) (m : Memory) (h : d ≠ s) :
    ((m.assign c d s).object d).recipients = m.kept d s := by
  rw [assign_toDomain c m h]
  exact Domain.copy_recipients ..

/-- A domain that is not loaded and its copy answer alike. -/
theorem assign_answers (hds : d ≠ s) (h0 : (m.object s).failureCount ≠ 0) (c₁ c₂ : Choices)
    (q : Str) : ((m.assign c d s).object d).recipient c₁ q =
      ((m.assign c d s).object s).recipient c₂ q := by
  have hcopy : ((m.assign c d s).object d).failureCount ≠ 0 := by
    rw [assign_toDomain c m hds]
    exact fun h => h0 ((Domain.copy_loaded_iff ..).mp h)
  rw [assign_object_of_ne c m hds.symm, Domain.recipient_of_failureCount hcopy,
    Domain.recipient_of_failureCount h0]

theorem Copies.separate (hds : d ≠ s) (h : Copies c m d s) : m.Separate d s := by
  by_cases hdis : (m.object s).failureCount = -2
  · exact Or.inl hdis
  have hload : ((m.assign c d s).object d).failureCount ≠ -2 :=
    fun h => hdis ((assign_disabled_iff c m hds).mp h)
  refine Or.inr ⟨fun p hp => ?_, ?_⟩
  · -- another parent would get a name that it does not have
    by_contra hne
    obtain ⟨x, hfresh, hx, haccept⟩ := exists_fresh ((m.assign c d s).object p).recipients
    have hframe := h.frame (Domain.sampleFeed [x]) p hne
    rw [← assign_parents c m hds] at hp
    obtain ⟨hret, hall⟩ :=
      loadSources_delivers hx haccept ((m.assign c d s).object d).parents 0 (m.assign c d s)
    have hin := hall p hp
    rw [loadData, if_pos hload] at hframe
    cases hr : loadSources (Domain.sampleFeed [x]) 0 ((m.assign c d s).object d).parents
        (m.assign c d s) with
    | mk m' completion =>
        rw [hr] at hret hin hframe
        cases hret
        simp only [set_object_of_ne _ _ hne] at hframe
        rw [hframe] at hin
        exact hfresh hin
  · -- a load that delivers nothing leaves what the copy kept
    have hcollects := h.collects hload (Domain.sampleFeed [])
    rw [loadData, if_pos hload, loadSources_nothing] at hcollects
    have hsame := hcollects rfl
    simp only [set_object_self] at hsame
    change (Domain.buildMatchers c ((m.assign c d s).object d).toDomain).recipients.toFinset =
      _ at hsame
    rw [Domain.buildMatchers_recipients, assign_recipients c m hds] at hsame
    rw [hsame]
    ext x
    simp [Domain.collected, Domain.sampleFeed, Delivery.collected, Delivery.addresses]

/-- A disabled domain is not loaded. -/
theorem loadData_disabled (c : Choices) (feed : Feed) (h : (m.object a).failureCount = -2) :
    m.loadData c feed a = (m, .returns) := by
  rw [loadData, if_neg (not_not.mpr h)]

theorem Separate.copies (hds : d ≠ s) (hcover : (m.object s).toDomain.Covered)
    (h : m.Separate d s) : Copies c m d s := by
  rcases h with hdis | ⟨hown, hkept⟩
  · have hcopy := (assign_disabled_iff c m hds).mpr hdis
    constructor
    · exact fun ρ o₁ o₂ => assign_answers hds (by rw [hdis]; decide) ⟨o₁, ρ⟩ ⟨o₂, ρ⟩
    · intro feed a _
      rw [loadData_disabled c feed hcopy]
    · intro feed
      rw [loadData_disabled c feed hcopy]
      exact ⟨rfl, rfl⟩
    · exact fun hload => absurd hcopy hload
  · have hown' : ∀ p ∈ ((m.assign c d s).object d).parents, p = d := by
      rwa [assign_parents c m hds]
    have hempty : ((m.assign c d s).object d).recipients.toFinset = ∅ := by
      rwa [assign_recipients c m hds]
    have hload (feed : Feed) : (m.assign c d s).loadData c feed d =
        ((m.assign c d s).set d (((m.assign c d s).object d).update
          (Domain.loadData c feed ((m.assign c d s).object d).toDomain).1 (loadData_sources ..)),
          (Domain.loadData c feed ((m.assign c d s).object d).toDomain).2) :=
      loadData_own hown' rfl (loadData_sources ..)
    constructor
    · intro ρ o₁ o₂ q
      by_cases h0 : (m.object s).failureCount = 0
      · have hzero : ((m.assign c d s).object d).failureCount = 0 := by
          rw [assign_toDomain c m hds]
          exact (Domain.copy_loaded_iff ..).mpr h0
        have hcopy : ((m.assign c d s).object d).toDomain.Covered := by
          rw [assign_toDomain c m hds]
          exact Domain.covered_copy _ _ _
        rw [kept, if_pos h0] at hkept
        rw [assign_object_of_ne c m hds.symm, Domain.recipient_of_empty hcopy hzero hempty,
          Domain.recipient_of_empty hcover h0 hkept]
      · exact assign_answers hds h0 ⟨o₁, ρ⟩ ⟨o₂, ρ⟩ q
    · intro feed a ha
      rw [hload, set_object_of_ne _ _ ha]
    · intro feed
      rw [hload, set_object_self]
      exact ⟨Domain.config_loadData .., rfl⟩
    · intro hd feed hret
      rw [hload] at hret ⊢
      have hcollects := (Domain.loadData_returns hd (Prod.ext rfl hret)).2.2
      rw [set_object_self]
      exact hcollects.trans (by rw [hempty, Finset.empty_union])

/-- **A copy is one** if and only if the original is disabled, or its sources belong to the
copy already and the copy starts without recipients. -/
theorem copies_iff (h : Reachable (step c) Exists start m) (hds : d ≠ s) :
    Copies c m d s ↔ m.Separate d s :=
  ⟨fun hc => hc.separate hds, fun hs => hs.copies hds (reachable_covered h s)⟩

def leftover : Unset := ⟨900, 3600, 3, true⟩

/-- Two domains, the first one with a source. -/
def sampleMemory : Memory :=
  let m := start.construct (str "example.com") leftover
  (m.set 0 (addSource 0 ⟨str "/etc/aliases", str "sendmail"⟩ (m.object 0))).construct
    (str "example.org") leftover

theorem reachable_sample : Reachable (step Choices.canonical) Exists start sampleMemory := by
  have hfirst : Reachable (step Choices.canonical) Exists start
      (start.construct (str "example.com") leftover) :=
    .next (a := .construct ..) .start trivial rfl
  have hsource := hfirst.next (show (start.construct (str "example.com") leftover).Exists
    (.addSource 0 ⟨str "/etc/aliases", str "sendmail"⟩) from Nat.zero_lt_one) rfl
  exact hsource.next (a := .construct (str "example.org") leftover) trivial rfl

/-- Assigned back, the sources belong to the copy. -/
theorem copies_iff_sample :
    Copies Choices.canonical (sampleMemory.assign Choices.canonical 1 0) 0 1 :=
  (copies_iff (reachable_sample.next (show sampleMemory.Exists (.assign 1 0) from
    ⟨Nat.one_lt_two, Nat.two_pos⟩) rfl) Nat.zero_ne_one).mpr
      (Or.inr ⟨by decide +kernel, by decide +kernel⟩)

/-- A load of the copy puts the name into the original, and none into the copy. -/
theorem copy_loads_original :
    Reachable (step Choices.canonical) Exists start sampleMemory ∧
      (let m := sampleMemory.assign Choices.canonical 1 0
       let m' := (m.loadData Choices.canonical (Domain.sampleFeed [str "jane"]) 1).1
       (m.object 0).recipients.toList = [] ∧ (m'.object 0).recipients.toList = [str "jane"] ∧
         (m'.object 1).recipients.toList = []) ∧
      ¬ Copies Choices.canonical sampleMemory 1 0 := by
  refine ⟨reachable_sample, by decide +kernel, fun h => ?_⟩
  have hframe := congrArg (fun o => o.recipients.toList)
    (h.frame (Domain.sampleFeed [str "jane"]) 0 (by decide))
  revert hframe
  decide +kernel

end Memory

end Undervest
