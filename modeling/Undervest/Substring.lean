import Undervest.Strings
import Undervest.Lib.Unordered

/-!
# Substrings

A `basic_substring` is a view of a string, and everything the matcher does with
one depends on the viewed characters only.  So a substring is its contents.

`compare` is `basic_substring::compare`: the common prefix is compared byte by
byte, then the lengths.  `compare_neg_iff` says that the order it gives is the
lexicographic one, so a sort may use it (`lt_strictWeak`) and two substrings
neither of which is below the other are equal (`eq_of_not_lt`).
-/

namespace Undervest

open Unordered

namespace Substring

/-- `traits_type::compare` on the first `n` characters. -/
def traitsCompare : Str → Str → Nat → Int
  | a :: s, b :: t, n + 1 => if a < b then -1 else if b < a then 1 else traitsCompare s t n
  | _, _, _ => 0

/-- `__compare_size`: the difference of two lengths, clamped to an `int`. -/
def compareSize (n1 n2 : Nat) : Int :=
  let d : Int := n1 - n2
  if d > 2147483647 then 2147483647 else if d < -2147483648 then -2147483648 else d

def compare (s t : Str) : Int :=
  let r := traitsCompare s t (min s.length t.length)
  if r = 0 then compareSize s.length t.length else r

/-- `operator<`. -/
def lt (s t : Str) : Bool := compare s t < 0

theorem compareSize_neg_iff {n1 n2 : Nat} : compareSize n1 n2 < 0 ↔ n1 < n2 := by
  simp only [compareSize]
  split_ifs <;> omega

/-- A first character of a common prefix is skipped. -/
theorem compare_cons_self (a : Byte) (s t : Str) : compare (a :: s) (a :: t) = compare s t := by
  have hd : ∀ m n : Nat, compareSize (m + 1) (n + 1) = compareSize m n := fun m n => by
    have h : ((m + 1 : Nat) : Int) - (n + 1 : Nat) = m - n := by omega
    simp only [compareSize, h]
  simp only [compare, List.length_cons, Nat.add_min_add_right, traitsCompare, UInt8.lt_irrefl,
    if_false, hd]

/-- The order of substrings is the lexicographic order of their contents. -/
theorem compare_neg_iff {s t : Str} : compare s t < 0 ↔ s < t := by
  induction s generalizing t with
  | nil =>
      cases t with
      | nil => decide
      | cons b t =>
          simp only [compare, traitsCompare, if_true, compareSize_neg_iff]
          simp
  | cons a s ih =>
      cases t with
      | nil =>
          simp only [compare, traitsCompare, if_true, compareSize_neg_iff]
          simp
      | cons b t =>
          rw [List.cons_lt_cons_iff]
          by_cases hab : a = b
          · subst hab
            rw [compare_cons_self, ih]
            simp
          · by_cases hlt : a < b
            · simp [compare, traitsCompare, hlt]
            · have hne : a.toNat ≠ b.toNat := fun e => hab (UInt8.toNat_inj.mp e)
              have hgt : b < a := by
                rw [UInt8.lt_iff_toNat_lt] at hlt ⊢
                omega
              simp [compare, traitsCompare, hlt, hgt, hab]

theorem lt_eq_true_iff {s t : Str} : lt s t = true ↔ s < t := by
  rw [lt, decide_eq_true_eq, compare_neg_iff]

theorem lt_eq_false_iff {s t : Str} : lt s t = false ↔ t ≤ s := by
  rw [← Bool.not_eq_true, lt_eq_true_iff, List.not_lt]

theorem lt_strictWeak : StrictWeak lt where
  asymm _ _ h := lt_eq_false_iff.mpr (List.le_of_lt (lt_eq_true_iff.mp h))
  negTrans _ _ _ hrs hst :=
    lt_eq_false_iff.mpr (List.le_trans (lt_eq_false_iff.mp hst) (lt_eq_false_iff.mp hrs))

/-- Substrings neither of which is below the other are equal. -/
theorem eq_of_not_lt {s t : Str} (hst : lt s t = false) (hts : lt t s = false) : s = t :=
  List.le_antisymm (lt_eq_false_iff.mp hts) (lt_eq_false_iff.mp hst)

end Substring

end Undervest
