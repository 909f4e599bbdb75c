import Undervest.Counters

/-!
# Exact scores

The score of a target is computed in four steps: its slice count is narrowed to 16
bits, the overlap is doubled in 32 bits, the quotient is taken in 64 bits, and the
result is narrowed to 16 bits.  `Exact` says that no step loses anything.

Names are shorter than 2 ^ 30 bytes, so 32 bits are enough for the overlap and its
double.  16 bits are not enough for the slice count.  A target with 65536 slices or
more counts as one with fewer, the quotient is too large, and it may even wrap when
it is narrowed (`long_target_undervalued`).  With fewer slices every step is exact
(`exact_iff`).
-/

namespace Undervest

open Unordered FixedWidth Matcher

namespace Machine

/-! ## The slicings of the program -/

/-- `Matcher::slice`, which the two matchers of a domain override. -/
def wholeSlice (s : Str) (_indexing : Bool) : List Str := [s]

/-- The classes of matchers. -/
inductive Slicing where
  | whole
  | ngram (ngramSize : UInt16)
  | word

def Slicing.slice : Slicing → Str → Bool → List Str
  | whole => wholeSlice
  | ngram n => ngramSlice n
  | word => wordSlice

theorem wordLoop_length (b : Bool) (s run : Str) :
    (wordLoop b run s).length ≤ s.length + if run = [] then 0 else 1 := by
  induction s generalizing run with
  | nil =>
      rw [wordLoop]
      split <;> simp
  | cons c s ih =>
      have hempty := ih []
      have happend := ih (run ++ [c])
      rw [if_pos rfl] at hempty
      rw [if_neg (by simp)] at happend
      rw [wordLoop, List.length_cons]
      split
      next => omega
      next =>
        rw [List.length_append]
        split <;> split <;> simp only [List.length_nil, List.length_cons] <;> omega

/-- A name has one slice more than characters at most. -/
theorem Slicing.length_le (k : Slicing) (s : Str) (b : Bool) :
    (k.slice s b).length ≤ s.length + 1 := by
  cases k with
  | whole => simp [slice, wholeSlice]
  | ngram n =>
      rw [slice, ngramSlice_length]
      omega
  | word =>
      have := wordLoop_length b s []
      rw [if_pos rfl] at this
      exact this.trans (Nat.le_succ _)

/-! ## The steps of a score -/

section Steps

variable (c : Choices) (k : Slicing) (names : List Str) (q : Str) (i : Nat)

/-- The slices of a query. -/
def querySlices : List Str := orEmpty (k.slice q false)

/-- The slices of a target. -/
def targetSlices (t : Str) : List Str := orEmpty (k.slice t true)

/-- The target at `i`, as it is indexed. -/
def indexed : Target := (ofNames k.slice names).targets.getD i ⟨[], 0⟩

/-- The counter of the target at `i`. -/
def counter : UInt32 :=
  ((overlaps (ofNames k.slice names).index (c.sort Substring.lt (querySlices k q))).lookup
    (UInt32.ofNat i)).getD 0

/-- The score in units of `1 / 65535`. -/
def units (s t : List Str) : Nat := 65535 * (2 * overlap s t) / (s.length + t.length)

/-- Nothing is lost in the score of the target at `i`, whose name is `t`. -/
structure Exact (t : Str) : Prop where
  /-- The slice count of the target. -/
  count : (indexed k names i).count.toNat = (targetSlices k t).length
  /-- The overlap. -/
  overlap : (counter c k names q i).toNat = Matcher.overlap (querySlices k q) (targetSlices k t)
  /-- The double of the overlap. -/
  doubled : (2 * counter c k names q i).toNat =
    2 * Matcher.overlap (querySlices k q) (targetSlices k t)
  /-- The quotient. -/
  quotient : (quotient (counter c k names q i) (indexed k names i).count
    (querySlices k q).length).value = units (querySlices k q) (targetSlices k t)
  /-- A score is reported. -/
  reported : ∃ r ∈ matchResults c k.slice (ofNames k.slice names) q, r.text = t
  /-- The score, its range, and when it is full. -/
  score : ∀ r ∈ matchResults c k.slice (ofNames k.slice names) q, r.text = t →
    r.score.value = units (querySlices k q) (targetSlices k t) ∧ r.score.value ≤ 65535 ∧
      (r.score.value = 65535 ↔ (querySlices k q).Perm (targetSlices k t))

end Steps

theorem units_le (s t : List Str) : units s t ≤ 65535 := by
  have hl := overlap_le_left s t
  have hr := overlap_le_right s t
  refine Nat.div_le_of_le_mul ?_
  rw [Nat.mul_comm (s.length + t.length)]
  exact Nat.mul_le_mul_left _ (by omega)

/-- A score is full for equal slices only. -/
theorem units_eq_full {s t : List Str} (hs : s ≠ []) : units s t = 65535 ↔ s.Perm t := by
  have hpos : 0 < s.length + t.length := by
    have := List.length_pos_of_ne_nil hs
    omega
  constructor
  · intro h
    have hge : 65535 ≤ 65535 * (2 * Matcher.overlap s t) / (s.length + t.length) := h.ge
    rw [Nat.le_div_iff_mul_le hpos] at hge
    exact perm_of_overlap (by omega)
  · intro h
    rw [units, overlap_of_perm h, Nat.mul_div_cancel _ hpos]

section Bounded

variable {c : Choices} {k : Slicing} {names : List Str} {q : Str}

theorem querySlices_length (hq : q.length < 2 ^ 30) : (querySlices k q).length ≤ 2 ^ 30 := by
  have := k.length_le q false
  exact Nat.le_of_lt_succ (orEmpty_length_lt (by decide) (by omega))

theorem targetSlices_length {t : Str} (ht : t.length < 2 ^ 30) :
    (targetSlices k t).length ≤ 2 ^ 30 := by
  have := k.length_le t true
  exact Nat.le_of_lt_succ (orEmpty_length_lt (by decide) (by omega))

/-- A target is indexed with the low 16 bits of its slice count. -/
theorem indexed_eq (k : Slicing) (hn : names.length ≤ 2 ^ 32) {i : Nat} (hi : i < names.length) :
    indexed k names i = ⟨names[i], UInt16.ofNat (targetSlices k names[i]).length⟩ := by
  have hix := indexes_foldl_add k.slice names [] Matcher.empty (indexes_empty _)
  rw [indexed, (ofNames_represents hn).targets, hix.targets]
  simp [hi, targetSlices]

/-- A query reports the targets that share a slice, each with its score. -/
theorem mem_matchResults (hn : names.length ≤ 2 ^ 32) (ht : ∀ t ∈ names, t.length < 2 ^ 30)
    (hq : q.length < 2 ^ 30) {r : Result} :
    r ∈ matchResults c k.slice (ofNames k.slice names) q ↔
      ∃ t ∈ names, 0 < Matcher.overlap (querySlices k q) (targetSlices k t) ∧
        r = ⟨t, Matcher.scoreOf (Matcher.overlap (querySlices k q) (targetSlices k t))
          (UInt16.ofNat (targetSlices k t).length).toNat (querySlices k q).length⟩ := by
  have hcounts : ∀ t ∈ names, (targetSlices k t).length < 2 ^ 32 := fun t hmem =>
    (targetSlices_length (ht t hmem)).trans_lt (by decide)
  have hsize : (querySlices k q).length < 2 ^ 32 := (querySlices_length hq).trans_lt (by decide)
  rw [(results_ofNames c hn hcounts hsize).mem_iff]
  simp only [List.mem_map, List.mem_filter, decide_eq_true_eq, and_assoc]
  exact exists_congr fun t => and_congr_right fun _ => and_congr_right fun _ => eq_comm

/-- **When a score is exact.**  No counter wraps when the slice count of the target
fits in its 16 bits, and then the score is exact. -/
theorem exact_iff (c : Choices) (k : Slicing) (hn : names.length ≤ 2 ^ 32)
    (ht : ∀ t ∈ names, t.length < 2 ^ 30) (hq : q.length < 2 ^ 30) {i : Nat}
    (hi : i < names.length)
    (hm : 0 < Matcher.overlap (querySlices k q) (targetSlices k names[i])) :
    Exact c k names q i names[i] ↔ (targetSlices k names[i]).length < 65536 := by
  have hindexed := indexed_eq k hn hi
  constructor
  · intro h
    rw [← h.count]
    exact UInt16.toNat_lt _
  · intro hb
    have hcount : (indexed k names i).count.toNat = (targetSlices k names[i]).length := by
      rw [hindexed]
      exact UInt16.toNat_ofNat_of_lt hb
    have hcounts : ∀ t ∈ names, (targetSlices k t).length < 2 ^ 32 := fun t hmem =>
      (targetSlices_length (ht t hmem)).trans_lt (by decide)
    have ha := querySlices_length (k := k) hq
    have hl := overlap_le_left (querySlices k q) (targetSlices k names[i])
    have hr := overlap_le_right (querySlices k q) (targetSlices k names[i])
    have hcounter : (counter c k names q i).toNat =
        Matcher.overlap (querySlices k q) (targetSlices k names[i]) :=
      overlaps_ofNames c hn hcounts (ha.trans_lt (by decide)) hi
    have hdoubled : (2 * counter c k names q i).toNat =
        2 * Matcher.overlap (querySlices k q) (targetSlices k names[i]) := by
      rw [UInt32.toNat_mul, hcounter]
      exact Nat.mod_eq_of_lt (by simp only [UInt32.reduceToNat]; omega)
    have hunits : 65535 * (2 * Matcher.overlap (querySlices k q) (targetSlices k names[i])) /
        ((targetSlices k names[i]).length + (querySlices k q).length) =
          units (querySlices k q) (targetSlices k names[i]) := by
      rw [units, Nat.add_comm (querySlices k q).length]
    refine ⟨hcount, hcounter, hdoubled, ?_, ?_, fun r hmem hrt => ?_⟩
    · rw [quotient, hdoubled, hcount, ← Nat.cast_add, Scaled.divInt_ofInt_value (by omega)
        (by omega), hunits]
    · exact ⟨_, (mem_matchResults hn ht hq).mpr ⟨_, List.getElem_mem hi, hm, rfl⟩, rfl⟩
    · obtain ⟨t, -, -, rfl⟩ := (mem_matchResults hn ht hq).mp hmem
      obtain rfl : t = names[i] := hrt
      have hfits : (UInt16.ofNat (targetSlices k names[i]).length).toNat =
        (targetSlices k names[i]).length := UInt16.toNat_ofNat_of_lt hb
      have hvalue : (Matcher.scoreOf
          (Matcher.overlap (querySlices k q) (targetSlices k names[i]))
          (UInt16.ofNat (targetSlices k names[i]).length).toNat (querySlices k q).length).value =
            units (querySlices k q) (targetSlices k names[i]) := by
        rw [hfits, scoreOf_value (by omega) (by omega), hunits]
      have hle := units_le (querySlices k q) (targetSlices k names[i])
      have hfull := units_eq_full (t := targetSlices k names[i])
        (show querySlices k q ≠ [] from orEmpty_ne_nil _)
      rw [hvalue]
      exact ⟨rfl, by exact_mod_cast hle, by rw [← hfull]; exact_mod_cast Iff.rfl⟩

theorem exact_iff_sample :
    Exact Choices.canonical (.ngram 3) [str "jane", str "john.doe"] (str "jon.doe") 1
      (str "john.doe") :=
  (exact_iff Choices.canonical (.ngram 3) (by simp) (by simp [str]) (by simp [str])
    (show 1 < [str "jane", str "john.doe"].length by simp) (by decide)).mpr (by decide)

/-- A name of 65538 characters has 65536 n-grams of three characters and counts as
one without any.  Its score for itself wraps, and is not the full one. -/
theorem long_target_undervalued :
    let t := List.replicate 65538 (ch 'a')
    t.length < 2 ^ 30 ∧ 0 < Matcher.overlap (querySlices (.ngram 3) t) (targetSlices (.ngram 3) t) ∧
      ⟨t, Scaled.ofRaw 65534⟩ ∈
        matchResults Choices.canonical (ngramSlice 3) (ofNames (ngramSlice 3) [t]) t ∧
      ¬ Exact Choices.canonical (.ngram 3) [t] t 0 t := by
  intro t
  have hlength : t.length = 65538 := List.length_replicate
  have hlen : t.length < 2 ^ 30 := by omega
  have hmem : ∀ u ∈ [t], u.length < 2 ^ 30 := by simpa using hlen
  have hslices : (ngramSlice 3 t true).length = 65536 := by
    rw [ngramSlice_length, hlength]
    decide
  have htarget : targetSlices (.ngram 3) t = ngramSlice 3 t true :=
    orEmpty_of_ne_nil (ngramSlice_ne_nil 3 t true)
  have hquery : querySlices (.ngram 3) t = ngramSlice 3 t true := htarget
  have hself : Matcher.overlap (querySlices (.ngram 3) t) (targetSlices (.ngram 3) t) = 65536 := by
    rw [hquery, htarget, overlap_self, hslices]
  refine ⟨hlen, by omega, ?_, fun h => ?_⟩
  · refine (mem_matchResults (k := .ngram 3) (show [t].length ≤ 2 ^ 32 by simp) hmem hlen).mpr
      ⟨t, List.mem_singleton.mpr rfl, by omega, ?_⟩
    rw [hself, hquery, htarget, hslices]
    exact congrArg (Result.mk t) (by decide +kernel)
  · have hcount := h.count
    rw [indexed_eq (.ngram 3) (show [t].length ≤ 2 ^ 32 by simp) (i := 0) (by simp)] at hcount
    simp only [List.getElem_cons_zero, htarget, hslices] at hcount
    exact absurd hcount (by decide)

end Bounded

end Machine

end Undervest
