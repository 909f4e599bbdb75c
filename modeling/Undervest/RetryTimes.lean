import Undervest.Retries
import Undervest.Lib.Iterators
import Mathlib.Algebra.Group.Int.Defs
import Mathlib.Data.Finset.Sort

/-!
# Retry times

The first failure of a load is followed by retries after the periods of the list,
one after the other.  So the times of the retries are the sums of its prefixes
(`retryTimes`), and they are the configured times again (`retriesOf_times`): the
distances between neighbours of a sorted vector add up to its elements, and a
distance that is zero stands for an element that is there twice.

The conversion is also given on iterators, as offsets that may leave the vector
(`Cells.retriesOf`).  The guard of the source counts the configured periods and the
loop goes over the positive ones.  With two or more configured and none positive
the loop starts in front of an empty vector, and that is the only way to leave it
(`retriesOf_safe_iff`).
-/

namespace Undervest

open Refinement Iterators

/-! ## Sums of distances -/

/-- The times at which periods end that start one after the other, the first one at
`t`. -/
def retryTimes : Nat → List UInt32 → List Nat
  | _, [] => []
  | t, x :: r => (t + x.toNat) :: retryTimes (t + x.toNat) r

/-- The distances behind `x` that are not zero. -/
def keptDistances (x : UInt32) (v : List UInt32) : List UInt32 :=
  (distances (x :: v)).filter (· ≠ 0)

theorem keptDistances_cons (x y : UInt32) (v : List UInt32) :
    keptDistances x (y :: v) =
      if y = x then keptDistances y v else (y - x) :: keptDistances y v := by
  have hzero : y - x = 0 ↔ y = x := by
    constructor
    · intro h
      have := congrArg (· + x) h
      simpa using this
    · rintro rfl
      exact UInt32.sub_self ..
  rw [keptDistances, show distances (x :: y :: v) = (y - x) :: distances (y :: v) from rfl,
    List.filter_cons]
  by_cases h : y = x
  · rw [if_pos h, if_neg (by simp [hzero.mpr h])]
    rfl
  · rw [if_neg h, if_pos (by simp [mt hzero.mp h])]
    rfl

section

variable {x : UInt32} {v : List UInt32}

/-- The times of sorted elements are their values. -/
theorem mem_retryTimes (h : (x :: v).Pairwise (· ≤ ·)) (n : Nat) :
    n ∈ x.toNat :: retryTimes x.toNat (keptDistances x v) ↔ ∃ y ∈ x :: v, y.toNat = n := by
  induction v generalizing x with
  | nil => simp [keptDistances, distances, retryTimes, eq_comm]
  | cons y v ih =>
      rw [List.pairwise_cons] at h
      have ih := ih h.2
      rw [keptDistances_cons]
      by_cases hy : y = x
      · subst hy
        rw [if_pos rfl, ih]
        simp
      · have hle : x ≤ y := h.1 y (List.mem_cons_self ..)
        have hsum : x.toNat + (y - x).toNat = y.toNat := by
          rw [UInt32.toNat_sub_of_le _ _ hle]
          have := UInt32.le_iff_toNat_le.mp hle
          omega
        rw [if_neg hy, retryTimes, hsum, List.mem_cons, ih]
        simp [eq_comm]

/-- Positive periods end one after the other. -/
theorem retryTimes_increasing {r : List UInt32} (h : ∀ x ∈ r, 0 < x) (t : Nat) :
    (retryTimes t r).Pairwise (· < ·) ∧ ∀ n ∈ retryTimes t r, t < n := by
  induction r generalizing t with
  | nil => exact ⟨.nil, nofun⟩
  | cons x r ih =>
      rw [List.forall_mem_cons] at h
      have hx : 0 < x.toNat := UInt32.lt_iff_toNat_lt.mp h.1
      obtain ⟨hr, hlt⟩ := ih h.2 (t + x.toNat)
      refine ⟨.cons hlt hr, fun n hn => ?_⟩
      rcases List.mem_cons.mp hn with rfl | hn
      · omega
      · exact Nat.lt_trans (by omega) (hlt n hn)

end

/-! ## The configured times -/

/-- The configured times, each one once, in increasing order. -/
def configuredTimes (configured : List Int) : List Nat :=
  ((configured.filter (0 < ·)).map Int.toNat).toFinset.sort

/-- The positive periods are kept, with their values. -/
theorem mem_positiveRetries {configured : List Int}
    (hint : ∀ k ∈ configured, -2 ^ 31 ≤ k ∧ k < 2 ^ 31) (n : Nat) :
    (∃ y ∈ positiveRetries configured, y.toNat = n) ↔
      n ∈ (configured.filter (0 < ·)).map Int.toNat := by
  have hvalue : ∀ k ∈ configured, (0 < Int32.ofInt k ↔ 0 < k) ∧
      (0 < k → (Int32.ofInt k).toUInt32.toNat = k.toNat) := by
    intro k hk
    have hrange := hint k hk
    have htoInt : (Int32.ofInt k).toInt = k := Int32.toInt_ofInt_of_le hrange.1 hrange.2
    have hpos : 0 < Int32.ofInt k ↔ 0 < k := by
      rw [Int32.lt_iff_toInt_lt, htoInt]
      exact Iff.rfl
    refine ⟨hpos, fun h => ?_⟩
    rw [Int32.toNat_toUInt32_of_le (Int32.le_of_lt (hpos.mpr h)), Int32.toNatClampNeg, htoInt]
  rw [positiveRetries]
  simp only [List.mem_map, List.mem_filter, decide_eq_true_eq, Int32.not_le]
  constructor
  · rintro ⟨y, ⟨_, ⟨⟨k, hk, rfl⟩, hpos⟩, rfl⟩, rfl⟩
    have hpos := (hvalue k hk).1.mp hpos
    exact ⟨k, ⟨hk, hpos⟩, ((hvalue k hk).2 hpos).symm⟩
  · rintro ⟨k, ⟨hk, hpos⟩, rfl⟩
    exact ⟨_, ⟨_, ⟨⟨k, hk, rfl⟩, (hvalue k hk).1.mpr hpos⟩, rfl⟩, (hvalue k hk).2 hpos⟩

/-- What comes out when a positive period is configured. -/
theorem retriesOf_eq {configured : List Int} {x : UInt32} {v : List UInt32}
    (hv : sortRetries (positiveRetries configured) = x :: v) :
    retriesOf configured = some (x :: keptDistances x v) := by
  rw [retriesOf, hv]
  by_cases hm : configured.length > 1
  · exact convertRetries_eq hm x v
  · have hlen : (x :: v).length ≤ configured.length := by
      rw [← hv, sortRetries, List.length_insertionSort, positiveRetries, List.length_map]
      exact Nat.le_trans (List.length_filter_le ..) (Nat.le_of_eq (List.length_map ..))
    obtain rfl : v = [] := by
      rw [List.length_cons] at hlen
      exact List.eq_nil_of_length_eq_zero (by omega)
    rw [convertRetries, if_neg hm]
    rfl

/-- **The retries take place at the configured times.** -/
theorem retriesOf_times {configured : List Int}
    (hint : ∀ k ∈ configured, -2 ^ 31 ≤ k ∧ k < 2 ^ 31) (hpos : ∃ k ∈ configured, 0 < k) :
    ∃ r, retriesOf configured = some r ∧ (∀ x ∈ r, 0 < x) ∧
      retryTimes 0 r = configuredTimes configured := by
  have hperm : ∀ y, y ∈ sortRetries (positiveRetries configured) ↔ y ∈ positiveRetries configured :=
    fun y => (List.perm_insertionSort _ _).mem_iff
  obtain ⟨k, hk, hkpos⟩ := hpos
  obtain ⟨y, hy, -⟩ := (mem_positiveRetries hint k.toNat).mpr
    (List.mem_map_of_mem (List.mem_filter.mpr ⟨hk, decide_eq_true hkpos⟩))
  obtain ⟨x, v, hv⟩ := List.exists_cons_of_ne_nil (List.ne_nil_of_mem ((hperm y).mpr hy))
  have hr := retriesOf_eq hv
  have hrpos := retriesOf_pos hr
  have hsorted : (x :: v).Pairwise (· ≤ ·) := hv ▸ List.pairwise_insertionSort _ _
  refine ⟨_, hr, hrpos, ?_⟩
  have hincreasing := (retryTimes_increasing hrpos 0).1
  have hmem : (retryTimes 0 (x :: keptDistances x v)).toFinset =
      ((configured.filter (0 < ·)).map Int.toNat).toFinset := by
    ext n
    rw [List.mem_toFinset, List.mem_toFinset, ← mem_positiveRetries hint, retryTimes, Nat.zero_add,
      mem_retryTimes hsorted, ← hv]
    simp only [hperm]
  rw [configuredTimes, ← hmem]
  exact ((List.toFinset_sort _ (hincreasing.imp Nat.ne_of_lt)).mpr
    (hincreasing.imp Nat.le_of_lt)).symm

theorem retriesOf_times_sample :
    ∃ r, retriesOf [300, 30, 0, 30] = some r ∧ (∀ x ∈ r, 0 < x) ∧
      retryTimes 0 r = configuredTimes [300, 30, 0, 30] :=
  retriesOf_times (by decide) ⟨300, by decide, by decide⟩

/-! ## Iterators -/

namespace Cells

/-- The loop over the vector, reading at `f` and writing at `t`. -/
def diffLoop : Nat → Int → Int → List UInt32 → Except Fault (List UInt32 × Int)
  | 0, _, _, _ => .error .turns
  | turns + 1, f, t, v =>
      if f = 0 then pure (v, t)
      else do
        let b ← read v f
        let a ← read v (f - 1)
        let v ← write v t (b - a)
        diffLoop turns (f - 1) (if b - a ≠ 0 then t - 1 else t) v

/-- The conversion of the sorted vector, when `m` periods are configured. -/
def convertRetries (m : Nat) (v : List UInt32) : Except Fault (List UInt32) :=
  if m > 1 then do
    let t : Int := v.length - 1
    let (v, t) ← diffLoop (v.length + 1) t t v
    erase v 1 (t + 1)
  else pure v

/-- The retries of a domain section. -/
def retriesOf (configured : List Int) : Except Fault (List UInt32) :=
  convertRetries configured.length (sortRetries (positiveRetries configured))

/-- Inside the vector the loop stays there, and ends.  It never writes below the
cell it reads. -/
theorem diffLoop_eq {f t turns : Nat} {v : List UInt32} (hle : f ≤ t) (ht : t < v.length)
    (hturns : f < turns) :
    ∃ v' t', Undervest.diffLoop f t v = some (v', t') ∧ t' < v'.length ∧
      diffLoop turns f t v = .ok (v', (t' : Int)) := by
  obtain ⟨turns, rfl⟩ := Nat.exists_eq_add_one.mpr (Nat.lt_of_le_of_lt (Nat.zero_le f) hturns)
  induction f generalizing t turns v with
  | zero => exact ⟨v, t, rfl, ht, if_pos rfl⟩
  | succ f ih =>
      have hb : f + 1 < v.length := by omega
      have ha : f < v.length := by omega
      have hne : ((f + 1 : Nat) : Int) ≠ 0 := by omega
      have hback : ((f + 1 : Nat) : Int) - 1 = (f : Int) := by omega
      obtain ⟨turns, rfl⟩ := Nat.exists_eq_add_one.mpr
        (Nat.lt_of_le_of_lt (Nat.zero_le f) (Nat.lt_of_succ_lt_succ hturns))
      have hset : t < (v.set t (v[f + 1] - v[f])).length := by rwa [List.length_set]
      rw [Undervest.diffLoop, List.getElem?_eq_getElem hb, List.getElem?_eq_getElem ha, diffLoop,
        if_neg hne, hback, read_cell hb, read_cell ha]
      simp only [if_pos ht, ok_bind, write_cell ht]
      by_cases hz : v[f + 1] - v[f] = 0
      · rw [if_neg (by simpa using hz), if_neg (by simpa using hz)]
        exact ih (by omega) hset turns (by omega)
      · have hpred : ((t : Int) - 1) = ((t - 1 : Nat) : Int) := by omega
        rw [if_pos hz, if_pos hz, hpred]
        exact ih (by omega) (by omega) turns (by omega)

/-- The conversion leaves the vector when that is empty, and only then. -/
theorem convertRetries_eq (m : Nat) (v : List UInt32) :
    convertRetries m v = ofOption .outside (Undervest.convertRetries m v) := by
  rw [convertRetries, Undervest.convertRetries]
  split
  next hm =>
    cases v with
    | nil => rfl
    | cons x v =>
        have hlen : (x :: v).length = v.length + 1 := rfl
        obtain ⟨v', t', hloop, ht, hcells⟩ := diffLoop_eq (Nat.le_refl v.length)
          (show v.length < (x :: v).length by omega) (show v.length < (x :: v).length + 1 by omega)
        have hlast : (((x :: v).length : Int) - 1) = (v.length : Int) := by omega
        have hend : ((t' : Int) + 1) = ((t' + 1 : Nat) : Int) := by omega
        simp only [hlast, hcells, ok_bind]
        simp only [hlen, hloop]
        rw [if_pos (Nat.succ_le_of_lt ht), erase, if_pos (by omega), hend, Int.toNat_natCast]
        rfl
  next => rfl

theorem retriesOf_eq (configured : List Int) :
    retriesOf configured = ofOption .outside (Undervest.retriesOf configured) :=
  convertRetries_eq ..

end Cells

theorem sort_eq_nil {configured : List Int} :
    sortRetries (positiveRetries configured) = [] ↔ ∀ k ∈ configured, ¬ 0 < Int32.ofInt k := by
  rw [sortRetries, ← List.length_eq_zero_iff, List.length_insertionSort, List.length_eq_zero_iff,
    positiveRetries, List.map_eq_nil_iff, List.filter_eq_nil_iff]
  simp

/-- **When the conversion stays in the vector.** -/
theorem retriesOf_safe_iff (configured : List Int) :
    (∃ r, Cells.retriesOf configured = .ok r) ↔
      configured.length ≤ 1 ∨ ∃ k ∈ configured, 0 < Int32.ofInt k := by
  rw [Cells.retriesOf_eq]
  cases hv : sortRetries (positiveRetries configured) with
  | cons x v =>
      rw [retriesOf_eq hv]
      have hne : ∃ k ∈ configured, 0 < Int32.ofInt k := by
        by_contra hnone
        have := sort_eq_nil.mpr fun k hk hpos => hnone ⟨k, hk, hpos⟩
        rw [hv] at this
        cases this
      exact iff_of_true ⟨_, rfl⟩ (Or.inr hne)
  | nil =>
      have hnone := sort_eq_nil.mp hv
      rw [retriesOf, hv, convertRetries]
      split
      next hm =>
        refine iff_of_false (fun h => ?_) ?_
        · obtain ⟨r, hr⟩ := h
          cases hr
        rintro (hle | ⟨k, hk, hpos⟩)
        · omega
        · exact hnone k hk hpos
      next hm => exact iff_of_true ⟨_, rfl⟩ (Or.inl (by omega))

/-- Two periods, none of them positive. -/
theorem retries_leave : ¬ ∃ r, Cells.retriesOf [0, -1] = .ok r := by
  rintro ⟨r, hr⟩
  rw [show Cells.retriesOf [0, -1] = .error .outside by decide] at hr
  cases hr

end Undervest
