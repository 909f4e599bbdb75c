import Undervest.Decision

/-!
# Matches on empty slices

A name is meant to be substituted for another one that has a slice in common with
it.  Empty slices are indexed like real ones, and there are two kinds of them.

An n-gram size of zero makes all n-grams empty.  The configuration takes any
integer and keeps its low 16 bits, so each multiple of 65536 is such a size.

A name without letters and digits has no words, and gets one empty slice.  All
such names look alike to the word matcher, and their score is one, which every
threshold lets pass (`reaching_word`).

Nothing else goes wrong.  With an n-gram size above zero a name that has a letter
or a digit is substituted for a common slice only (`sharesSlice_of_recipient`).
`sharesSlice_iff` says exactly when an answer is sound.
-/

namespace Undervest

open Unordered FixedWidth Matcher FloatingPoint

namespace Domain

open Profile

/-- A name without letters and digits, which the word matcher cannot slice. -/
def Unsliced (s : Str) : Prop := (words s).length + digits s = 0

instance : DecidablePred Unsliced := fun s =>
  inferInstanceAs (Decidable ((words s).length + digits s = 0))

/-- The query and the target have an n-gram or a word in common. -/
def SharesSlice (d : Domain) (q t : Str) : Prop :=
  ∃ a, ∃ w ∈ d.slicing a q false, w ≠ [] ∧ w ∈ d.slicing a t true

/-- A target that is found has a slice in common with the query, perhaps an empty one. -/
theorem exists_slice_of_mem_reaching {ρ : Rounding} {d : Domain} (h : d.Indexed) {a : Algorithm}
    {q t : Str} (ht : t ∈ d.reaching ρ a q) :
    ∃ w ∈ orEmpty (d.slicing a q false), w ∈ orEmpty (d.slicing a t true) := by
  have hpos := (Finset.mem_filter.mp ht).2.1
  rw [← (realises h.size a).overlap] at hpos
  exact overlap_pos_iff.mp hpos

/-! ## n-grams -/

/-- An empty n-gram is one of an empty name, unless all are empty. -/
theorem eq_nil_of_empty_ngram {n : UInt16} {s : Str} (b : Bool) (hn : n ≠ 0)
    (h : [] ∈ ngramSlice n s b) : s = [] := by
  rw [ngramSlice_eq, windows] at h
  have hlen := of_decide_eq_true (List.mem_filter.mp h).2
  have hpos : n.toNat ≠ 0 := fun e => hn (UInt16.toNat_inj.mp e)
  rw [List.length_nil] at hlen
  exact List.length_eq_zero_iff.mp (by omega)

/-- The n-gram matcher finds another name by a common n-gram when there are no empty ones. -/
theorem sharesSlice_of_mem_reaching_ngram {ρ : Rounding} {d : Domain} (h : d.Indexed)
    (hn : d.ngramSize ≠ 0) {q t : Str} (ht : t ∈ d.reaching ρ .ngram q) (hne : t ≠ q) :
    d.SharesSlice q t := by
  obtain ⟨w, hq, ht⟩ := exists_slice_of_mem_reaching h ht
  have hslices : ∀ s b, orEmpty (d.slicing .ngram s b) = d.slicing .ngram s b := fun s b =>
    orEmpty_of_ne_nil (ngramSlice_ne_nil _ s b)
  rw [hslices] at hq ht
  refine ⟨.ngram, w, hq, ?_, ht⟩
  rintro rfl
  rw [← h.size] at hn
  exact hne ((eq_nil_of_empty_ngram true hn ht).trans (eq_nil_of_empty_ngram false hn hq).symm)

/-! ## Words -/

/-- No slice of the word matcher is empty. -/
theorem nil_notMem_wordSlice (s : Str) (b : Bool) : [] ∉ wordSlice s b := by
  rw [(wordSlice_perm s b).mem_iff, List.mem_append, not_or]
  refine ⟨fun h => (mem_words h).1 rfl, fun h => ?_⟩
  have := List.eq_of_mem_replicate h
  cases b <;> cases this

theorem unsliced_of_nil_mem {s : Str} {b : Bool} (h : [] ∈ orEmpty (wordSlice s b)) :
    Unsliced s := by
  by_contra hs
  rw [orEmpty_wordSlice b hs] at h
  exact nil_notMem_wordSlice s b h

theorem mem_wordSlice_of_mem_orEmpty {s w : Str} {b : Bool} (h : w ∈ orEmpty (wordSlice s b))
    (hw : w ≠ []) : w ∈ wordSlice s b := by
  by_cases hs : Unsliced s
  · rw [orEmpty_wordSlice_of_zero b hs, List.mem_singleton] at h
    exact absurd h hw
  · rwa [orEmpty_wordSlice b hs] at h

/-- The word matcher finds a name by a common word, or by the empty slice of two
names that have none. -/
theorem sharesSlice_of_mem_reaching_word {ρ : Rounding} {d : Domain} (h : d.Indexed) {q t : Str}
    (ht : t ∈ d.reaching ρ .word q) : d.SharesSlice q t ∨ Unsliced q := by
  obtain ⟨w, hq, ht⟩ := exists_slice_of_mem_reaching h ht
  by_cases hw : w = []
  · subst hw
    exact Or.inr (unsliced_of_nil_mem hq)
  · exact Or.inl ⟨.word, w, mem_wordSlice_of_mem_orEmpty hq hw, hw,
      mem_wordSlice_of_mem_orEmpty ht hw⟩

/-- For a name without letters and digits the word matcher finds the recipients
that have none either, whatever the threshold. -/
theorem reaching_word (ρ : Rounding) {d : Domain} {q : Str} (hq : Unsliced q) :
    d.reaching ρ .word q = d.recipients.toFinset.filter Unsliced := by
  have hword : ∀ s, Unsliced s → word s = ⟨{[]}, 1⟩ := fun s hs => if_pos hs
  apply Finset.filter_congr
  intro t _
  constructor
  · rintro ⟨hpos, -⟩
    change 0 < common word q t at hpos
    rw [← wordSlice_realises.overlap, overlap_pos_iff] at hpos
    obtain ⟨w, hw, ht⟩ := hpos
    rw [orEmpty_wordSlice_of_zero false hq, List.mem_singleton] at hw
    exact unsliced_of_nil_mem (hw ▸ ht)
  · intro ht
    have hcommon : common word q t = 1 := by
      rw [common, hword q hq, hword t ht]
      rfl
    refine ⟨by change 0 < common word q t; omega, geRat_of_full ?_ ρ _⟩
    change (scoreOf (common word q t) (UInt16.ofNat (word t).total).toNat (word q).total).value = _
    rw [hcommon, hword q hq, hword t ht]
    decide

/-! ## Answers -/

/-- Another name is the answer when a matcher finds it alone, and the first matcher
that finds anything decides. -/
theorem recipient_eq_some {c₀ : Choices} {d : Domain} (h : d.Loaded c₀) (c : Choices) {q t : Str}
    (hne : t ≠ q) :
    d.recipient c q = some t ↔
      d.reaching c.rounding .ngram q = {t} ∨
        d.reaching c.rounding .ngram q = ∅ ∧ d.reaching c.rounding .word q = {t} := by
  have hanswer : ∀ s : Finset Str, answer q (census s) = some t ↔ s = {t} := by
    intro s
    rw [← census_eq_one]
    cases census s with
    | none => simp [answer]
    | one u => simp [answer]
    | many => simpa [answer] using hne.symm
  rw [h.recipient_eq, Option.or_eq_some_iff, verdict_eq_none h.indexed, verdict_eq h.indexed,
    verdict_eq h.indexed, hanswer, hanswer]

/-- With an n-gram size above zero a name that has a letter or a digit is
substituted for a common slice only. -/
theorem sharesSlice_of_recipient {c₀ : Choices} {d : Domain} (h : d.Loaded c₀) (c : Choices)
    (hn : d.ngramSize ≠ 0) {q t : Str} (hq : ¬ Unsliced q) (ht : d.recipient c q = some t)
    (hne : t ≠ q) : d.SharesSlice q t := by
  cases (recipient_eq_some h c hne).mp ht with
  | inl hngram =>
      have hmem : t ∈ d.reaching c.rounding .ngram q := by simp [hngram]
      exact sharesSlice_of_mem_reaching_ngram h.indexed hn hmem hne
  | inr hword =>
      have hmem : t ∈ d.reaching c.rounding .word q := by simp [hword.2]
      exact (sharesSlice_of_mem_reaching_word h.indexed hmem).resolve_right hq

theorem ofInt_eq_zero {n : Int} : UInt16.ofInt n = 0 ↔ 65536 ∣ n := by
  rw [← UInt16.toNat_inj, UInt16.ofInt]
  change (UInt16.ofNat (n % 65536).toNat).toNat = 0 ↔ _
  rw [UInt16.toNat_ofNat']
  omega

/-- **When answers are sound.**  A name is substituted for an empty slice in two
cases: the n-gram size is zero and another name is found alone, or no n-gram match
is found and the one recipient without letters and digits is taken for another
such name. -/
theorem sharesSlice_iff {c₀ : Choices} {d : Domain} (h : d.Loaded c₀) (c : Choices) {n : Int}
    (hn : d.ngramSize = UInt16.ofInt n) (q : Str) :
    (∀ t, d.recipient c q = some t → t ≠ q → d.SharesSlice q t) ↔
      ∀ t, t ≠ q → ¬ d.SharesSlice q t →
        ¬ (65536 ∣ n ∧ d.reaching c.rounding .ngram q = {t}) ∧
        ¬ (d.reaching c.rounding .ngram q = ∅ ∧ Unsliced q ∧
            d.recipients.toFinset.filter Unsliced = {t}) := by
  have hzero : d.ngramSize = 0 ↔ 65536 ∣ n := by rw [hn, ofInt_eq_zero]
  constructor
  · intro hsound t hne hshare
    refine ⟨fun ⟨_, hngram⟩ => hshare (hsound t ?_ hne),
      fun ⟨hempty, hq, ht⟩ => hshare (hsound t ?_ hne)⟩
    · exact (recipient_eq_some h c hne).mpr (Or.inl hngram)
    · exact (recipient_eq_some h c hne).mpr (Or.inr ⟨hempty, by rw [reaching_word _ hq, ht]⟩)
  · intro hcond t ht hne
    by_contra hshare
    obtain ⟨hngram, hword⟩ := hcond t hne hshare
    cases (recipient_eq_some h c hne).mp ht with
    | inl hone =>
        have hmem : t ∈ d.reaching c.rounding .ngram q := by simp [hone]
        refine hshare (sharesSlice_of_mem_reaching_ngram h.indexed (fun hz => ?_) hmem hne)
        exact hngram ⟨hzero.mp hz, hone⟩
    | inr hone =>
        have hmem : t ∈ d.reaching c.rounding .word q := by simp [hone.2]
        have hq := (sharesSlice_of_mem_reaching_word h.indexed hmem).resolve_left hshare
        exact hword ⟨hone.1, hq, by rw [← reaching_word _ hq, hone.2]⟩

theorem sharesSlice_iff_sample :
    (sampleLoaded [str "john.doe", str "_"] (4 / 5) (1 / 2)).SharesSlice (str "jon.doe")
      (str "john.doe") := by
  have hsound := (sharesSlice_iff
    (show (sampleLoaded [str "john.doe", str "_"] (4 / 5) (1 / 2)).Loaded Choices.canonical from
      sampleLoaded_loaded _ _ (by decide))
    Choices.canonical (n := 3) (by decide +kernel) (str "jon.doe")).mpr fun t _ _ =>
      ⟨fun h => absurd h.1 (by decide), fun h => absurd h.2.1 (by decide +kernel)⟩
  exact hsound (str "john.doe") (by decide +kernel) (by decide)

/-- With the default parameters the recipient "_" is substituted for "-". -/
theorem substitutes_unsliced :
    (sampleLoaded [str "_"] (4 / 5) (1 / 2)).Loaded Choices.canonical ∧
      (sampleLoaded [str "_"] (4 / 5) (1 / 2)).ngramSize = UInt16.ofInt 3 ∧
      (sampleLoaded [str "_"] (4 / 5) (1 / 2)).recipient Choices.canonical (str "-") =
        some (str "_") ∧
      str "_" ≠ str "-" ∧
      ¬ (sampleLoaded [str "_"] (4 / 5) (1 / 2)).SharesSlice (str "-") (str "_") := by
  refine ⟨sampleLoaded_loaded _ _ (by decide), by decide +kernel, by decide +kernel, by decide, ?_⟩
  rintro ⟨a, ha⟩
  cases a <;> exact absurd ha (by decide +kernel)

end Domain

end Undervest
