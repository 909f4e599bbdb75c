import Undervest.MatcherResults
import Mathlib.Data.List.Infix

/-!
# Slices

The two matchers of a domain differ in how they cut a name into slices.

The n-gram matcher takes every stretch of `ngramSize` characters, or the whole
name when it is shorter.  The flag plays no part.

The word matcher takes the maximal runs of letters, and one slice for each
digit.  A digit gives the slice `1` in a target and `0` in a query, so digits
count and match nothing.  Other characters only end a run.

`Profile` is what the score needs of a name: the slices that can be common, as a
multiset, and the number of all slices.  It is stated without the loops, from
the suffixes of the name and from its letters and digits.  `Realises` ties a
slicing to a profile, and both slicings have theirs (`ngramSlice_realises`,
`wordSlice_realises`).
-/

namespace Undervest

open Matcher

/-! ## The slicings -/

/-- `NgramMatcher::slice`. -/
def ngramSlice (ngramSize : UInt16) (s : Str) (_indexing : Bool) : List Str :=
  let sz := s.length
  let n := if sz > ngramSize.toNat then ngramSize.toNat else sz
  let j := sz - n + 1
  (List.range j).map fun i => (s.drop i).take n

/-- The slice of a digit. -/
def digitSlice (indexing : Bool) : Str := if indexing then str "1" else str "0"

/-- The loop of `WordMatcher::slice`.  `run` holds the letters the inner loop
has read since `j`. -/
def wordLoop (indexing : Bool) : Str → Str → List Str
  | run, [] => if run = [] then [] else [run]
  | run, c :: s =>
      if isalpha c then wordLoop indexing (run ++ [c]) s
      else (if run = [] then [] else [run]) ++
        if isdigit c then digitSlice indexing :: wordLoop indexing [] s
        else wordLoop indexing [] s

/-- `WordMatcher::slice`. -/
def wordSlice (s : Str) (indexing : Bool) : List Str := wordLoop indexing [] s

/-! ## Profiles -/

/-- The slices of a name that can be common with another name, and the number of
all its slices. -/
structure Profile where
  matchable : Multiset Str
  total : Nat

namespace Profile

/-- The number of common slices of two names. -/
def common (p : Str → Profile) (q t : Str) : Nat := ((p q).matchable ∩ (p t).matchable).card

/-- The prefixes of length `k` of the suffixes of a name. -/
def windows (k : Nat) (s : Str) : List Str :=
  (s.tails.map (List.take k)).filter fun w => w.length = k

/-- Every stretch of `n` characters, or the whole name if it is shorter. -/
def ngram (n : Nat) (s : Str) : Profile :=
  let w := windows (min n s.length) s
  ⟨w, w.length⟩

/-- The maximal runs of letters of a name. -/
def words (s : Str) : List Str := (s.splitOnP fun c => !isalpha c).filter fun w => w ≠ []

/-- The number of digits of a name. -/
def digits (s : Str) : Nat := s.countP isdigit

/-- Runs of letters match, digits count.  A name with neither has one empty slice. -/
def word (s : Str) : Profile :=
  if (words s).length + digits s = 0 then ⟨{[]}, 1⟩
  else ⟨words s, (words s).length + digits s⟩

end Profile

/-- The slices that a query and a target get have the given profile. -/
structure Realises (slice : Str → Bool → List Str) (p : Str → Profile) : Prop where
  overlap : ∀ q t, overlap (orEmpty (slice q false)) (orEmpty (slice t true)) =
    Profile.common p q t
  total : ∀ s b, (orEmpty (slice s b)).length = (p s).total

open Profile

theorem Realises.common_le {slice : Str → Bool → List Str} {p : Str → Profile}
    (h : Realises slice p) (q t : Str) : 2 * common p q t ≤ (p t).total + (p q).total := by
  have hl := overlap_le_left (orEmpty (slice q false)) (orEmpty (slice t true))
  have hr := overlap_le_right (orEmpty (slice q false)) (orEmpty (slice t true))
  rw [h.overlap, h.total] at hl hr
  omega

theorem Realises.total_pos {slice : Str → Bool → List Str} {p : Str → Profile}
    (h : Realises slice p) (s : Str) : 0 < (p s).total := by
  rw [← h.total s true]
  exact List.length_pos_of_ne_nil (orEmpty_ne_nil _)

/-! ## n-grams -/

theorem windows_of_length_lt {k : Nat} {s : Str} (h : s.length < k) : windows k s = [] := by
  rw [windows, List.filter_eq_nil_iff]
  intro w hw
  obtain ⟨t, ht, rfl⟩ := List.mem_map.mp hw
  have hlen := ((List.mem_tails _ _).mp ht).length_le
  rw [decide_eq_true_eq, List.length_take]
  omega

/-- The loop over the start positions lists the windows. -/
theorem range_map_eq_windows {k : Nat} {s : Str} (h : k ≤ s.length) :
    (List.range (s.length - k + 1)).map (fun i => (s.drop i).take k) = windows k s := by
  induction s with
  | nil =>
      obtain rfl : k = 0 := by simpa using h
      rfl
  | cons c s ih =>
      have hhead : windows k (c :: s) = (c :: s).take k :: windows k s := by
        rw [windows, List.tails_cons, List.map_cons, List.filter_cons, if_pos]
        · rfl
        · simpa using h
      by_cases hk : k ≤ s.length
      · have hlen : (c :: s).length - k + 1 = (s.length - k + 1) + 1 := by
          simp only [List.length_cons]
          omega
        rw [hlen, List.range_succ_eq_map, List.map_cons, List.map_map, hhead, ← ih hk]
        rfl
      · have hlen : (c :: s).length - k + 1 = 1 := by
          simp only [List.length_cons] at h ⊢
          omega
        rw [hlen, hhead, windows_of_length_lt (not_le.mp hk)]
        rfl

theorem ngramSlice_eq (n : UInt16) (s : Str) (b : Bool) :
    ngramSlice n s b = windows (min n.toNat s.length) s := by
  have hmin : (if s.length > n.toNat then n.toNat else s.length) = min n.toNat s.length := by
    split_ifs <;> omega
  rw [← range_map_eq_windows (Nat.min_le_right _ _)]
  simp only [ngramSlice, hmin]

theorem ngramSlice_length (n : UInt16) (s : Str) (b : Bool) :
    (ngramSlice n s b).length = s.length - min n.toNat s.length + 1 := by
  simp only [ngramSlice, List.length_map, List.length_range]
  split_ifs <;> omega

/-- A name has at least one n-gram, the empty name included. -/
theorem ngramSlice_ne_nil (n : UInt16) (s : Str) (b : Bool) : ngramSlice n s b ≠ [] := by
  simp [ngramSlice, List.range_succ]

theorem orEmpty_ngramSlice (n : UInt16) (s : Str) (b : Bool) :
    orEmpty (ngramSlice n s b) = windows (min n.toNat s.length) s := by
  rw [orEmpty_of_ne_nil (ngramSlice_ne_nil n s b), ngramSlice_eq]

theorem ngramSlice_realises (n : UInt16) : Realises (ngramSlice n) (ngram n.toNat) where
  overlap q t := by
    rw [orEmpty_ngramSlice, orEmpty_ngramSlice]
    rfl
  total s b := by
    rw [orEmpty_ngramSlice]
    rfl

theorem ngram_total_le (n : UInt16) (s : Str) : (ngram n.toNat s).total ≤ s.length + 1 := by
  rw [← (ngramSlice_realises n).total s true, orEmpty_of_ne_nil (ngramSlice_ne_nil n s true),
    ngramSlice_length]
  omega

/-- All the n-grams of a name are common with itself. -/
theorem ngram_common_self (n : Nat) (s : Str) : common (ngram n) s s = (ngram n s).total := by
  rw [common, ngram]
  exact overlap_self _

/-! ## Words -/

/-- The runs of a name that follows some letters. -/
theorem words_append (run : Str) (hrun : ∀ c ∈ run, isalpha c = true) :
    ∀ (s : Str), words (run ++ s) =
      match s with
      | [] => if run = [] then [] else [run]
      | c :: s => if isalpha c then words (run ++ c :: s)
          else (if run = [] then [] else [run]) ++ words s
  | [] => by
      have h : run.splitOnP (fun c => !isalpha c) = [run] :=
        List.splitOnP_eq_singleton fun c hc => by simp [hrun c hc]
      by_cases hr : run = [] <;> simp [words, h, hr]
  | c :: s => by
      by_cases hc : isalpha c = true
      · simp [hc]
      · have h : (run ++ c :: s).splitOnP (fun c => !isalpha c) =
            run :: s.splitOnP (fun c => !isalpha c) :=
          List.splitOnP_append_cons_of_forall_mem (fun c hc => by simp [hrun c hc]) c
            (by simpa using hc) s
        by_cases hr : run = [] <;> simp_all [words]

theorem isdigit_of_isalpha {c : Byte} (h : isalpha c = true) : isdigit c = false := by
  simp only [isalpha, isupper, islower, Bool.or_eq_true, Bool.and_eq_true, decide_eq_true_eq,
    UInt8.le_iff_toNat_le, UInt8.reduceToNat, isdigit, Bool.and_eq_false_iff,
    decide_eq_false_iff_not] at h ⊢
  omega

/-- The loop lists the runs and the digits, in the order of the name. -/
theorem wordLoop_perm (b : Bool) (s run : Str) (hrun : ∀ c ∈ run, isalpha c = true) :
    (wordLoop b run s).Perm (words (run ++ s) ++ List.replicate (digits s) (digitSlice b)) := by
  induction s generalizing run with
  | nil =>
      rw [words_append run hrun, wordLoop]
      simp [digits]
  | cons c s ih =>
      rw [words_append run hrun, wordLoop]
      by_cases hc : isalpha c = true
      · have ih := ih (run ++ [c]) (by simpa [or_imp, forall_and] using ⟨hrun, hc⟩)
        have hd : digits (c :: s) = digits s := by
          simp [digits, isdigit_of_isalpha hc]
        simpa [hc, hd] using ih
      · have ih := ih [] (by simp)
        simp only [hc, if_false, List.append_assoc, Bool.false_eq_true]
        refine List.Perm.append_left _ ?_
        by_cases hdig : isdigit c = true
        · have hd : digits (c :: s) = digits s + 1 := by simp [digits, hdig]
          rw [if_pos hdig, hd, List.replicate_succ]
          exact (List.Perm.cons _ ih).trans List.perm_middle.symm
        · have hd : digits (c :: s) = digits s := by simp [digits, hdig]
          rw [if_neg hdig, hd]
          exact ih

theorem wordSlice_perm (s : Str) (b : Bool) :
    (wordSlice s b).Perm (words s ++ List.replicate (digits s) (digitSlice b)) :=
  wordLoop_perm b s [] (by simp)

/-- A run has letters only. -/
theorem isalpha_of_mem_splitOnP {s w : Str} (hw : w ∈ s.splitOnP (fun c => !isalpha c)) :
    ∀ c ∈ w, isalpha c = true := by
  induction s generalizing w with
  | nil =>
      rw [List.splitOnP_nil, List.mem_singleton] at hw
      simp [hw]
  | cons a s ih =>
      rw [List.splitOnP_cons_eq_if_modifyHead] at hw
      by_cases ha : isalpha a = true
      · obtain ⟨v, vs, hv⟩ := List.exists_cons_of_ne_nil
          (List.splitOnP_ne_nil (fun c => !isalpha c) s)
        simp only [ha, Bool.not_true, Bool.false_eq_true, if_false, hv, List.modifyHead_cons,
          List.mem_cons] at hw ih
        cases hw with
        | inl h =>
            subst h
            exact List.forall_mem_cons.mpr ⟨ha, ih (Or.inl rfl)⟩
        | inr h => exact ih (Or.inr h)
      · simp only [ha, Bool.not_false, if_true, List.mem_cons] at hw
        cases hw with
        | inl h => simp [h]
        | inr h => exact ih h

theorem mem_words {w s : Str} (h : w ∈ words s) : w ≠ [] ∧ ∀ c ∈ w, isalpha c = true :=
  ⟨by simpa using (List.mem_filter.mp h).2, isalpha_of_mem_splitOnP (List.mem_filter.mp h).1⟩

theorem digitSlice_notMem_words (b : Bool) (s : Str) : digitSlice b ∉ words s := by
  intro h
  have hc := (mem_words h).2
  cases b with
  | false => exact absurd (hc (ch '0') (by decide)) (by decide)
  | true => exact absurd (hc (ch '1') (by decide)) (by decide)

/-- Slices that the other side does not have are not common. -/
theorem inter_add_replicate {α : Type} [DecidableEq α] {s t : Multiset α} {a b : α} (m n : Nat)
    (hab : a ≠ b) (ha : a ∉ t) (hb : b ∉ s) :
    (s + Multiset.replicate m a) ∩ (t + Multiset.replicate n b) = s ∩ t := by
  ext x
  have hat := Multiset.count_eq_zero.mpr ha
  have hbs := Multiset.count_eq_zero.mpr hb
  simp only [Multiset.count_inter, Multiset.count_add, Multiset.count_replicate]
  by_cases hxa : a = x
  · subst hxa
    simp [hat, hab.symm]
  · by_cases hxb : b = x
    · subst hxb
      simp [hbs, hxa]
    · simp [hxa, hxb]

/-- The slices of a name, when it has any. -/
theorem orEmpty_wordSlice {s : Str} (b : Bool) (h : (words s).length + digits s ≠ 0) :
    orEmpty (wordSlice s b) = wordSlice s b := by
  apply orEmpty_of_ne_nil
  intro hn
  have hlen := (wordSlice_perm s b).length_eq
  rw [hn, List.length_append, List.length_replicate] at hlen
  exact h hlen.symm

theorem orEmpty_wordSlice_of_zero {s : Str} (b : Bool) (h : (words s).length + digits s = 0) :
    orEmpty (wordSlice s b) = [[]] := by
  have hlen := (wordSlice_perm s b).length_eq
  rw [List.length_append, List.length_replicate, h] at hlen
  rw [orEmpty, if_pos hlen]

/-- The slices of a name, as a multiset. -/
theorem coe_orEmpty_wordSlice (s : Str) (b : Bool) :
    ∃ d, (↑(orEmpty (wordSlice s b)) : Multiset Str) =
        (word s).matchable + Multiset.replicate d (digitSlice b) ∧
      (word s).total = (word s).matchable.card + d := by
  by_cases h : (words s).length + digits s = 0
  · have hw : word s = ⟨{[]}, 1⟩ := if_pos h
    exact ⟨0, by rw [orEmpty_wordSlice_of_zero b h, hw]; rfl, by rw [hw]; rfl⟩
  · have hw : word s = ⟨words s, (words s).length + digits s⟩ := if_neg h
    refine ⟨digits s, ?_, by rw [hw, Multiset.coe_card]⟩
    rw [orEmpty_wordSlice b h, Multiset.coe_eq_coe.mpr (wordSlice_perm s b), ← Multiset.coe_add,
      hw, Multiset.coe_replicate]

theorem digitSlice_notMem_word (b : Bool) (s : Str) : digitSlice b ∉ (word s).matchable := by
  unfold word
  split
  next => cases b <;> decide
  next => simpa using digitSlice_notMem_words b s

theorem wordSlice_realises : Realises wordSlice word where
  overlap q t := by
    obtain ⟨m, hq, -⟩ := coe_orEmpty_wordSlice q false
    obtain ⟨n, ht, -⟩ := coe_orEmpty_wordSlice t true
    rw [Matcher.overlap, hq, ht, inter_add_replicate m n (by decide)
      (digitSlice_notMem_word _ _) (digitSlice_notMem_word _ _)]
    rfl
  total s b := by
    obtain ⟨d, hs, htot⟩ := coe_orEmpty_wordSlice s b
    rw [htot, ← Multiset.coe_card, hs, Multiset.card_add, Multiset.card_replicate]

end Undervest
