import Mathlib.Data.List.Basic

/-!
# Percent-encoding

A percent-encoded text writes a byte as itself or as a `%` and two hexadecimal
digits of either case.  `Encodes plain s e` says that `e` is such a text for `s`,
in which only the bytes of the set `plain` stand for themselves.  A byte may have
several encodings, and all of them are meant.

A decoder undoes every encoding when it turns an escape into its byte and keeps
the other bytes (`Encodes.decode`).
-/

namespace PercentEncoding

/-- The byte that starts an escape. -/
def percent : UInt8 := 37

/-- The digits of one case, by value. -/
def lowerDigits : List UInt8 := (List.range 10).map (fun n => UInt8.ofNat (48 + n)) ++
  (List.range 6).map fun n => UInt8.ofNat (97 + n)

def upperDigits : List UInt8 := (List.range 10).map (fun n => UInt8.ofNat (48 + n)) ++
  (List.range 6).map fun n => UInt8.ofNat (65 + n)

/-- `c` is a hexadecimal digit of value `n`. -/
def HexDigit (c : UInt8) (n : Nat) : Prop := lowerDigits[n]? = some c ∨ upperDigits[n]? = some c

theorem HexDigit.lt {c : UInt8} {n : Nat} (h : HexDigit c n) : n < 16 := by
  cases h with
  | inl h => exact (List.getElem?_eq_some_iff.mp h).1
  | inr h => exact (List.getElem?_eq_some_iff.mp h).1

/-- What holds of the 22 digits and their values. -/
theorem HexDigit.all {P : UInt8 → Nat → Prop} (hlower : ∀ p ∈ lowerDigits.zipIdx, P p.1 p.2)
    (hupper : ∀ p ∈ upperDigits.zipIdx, P p.1 p.2) {c : UInt8} {n : Nat} (h : HexDigit c n) :
    P c n := by
  cases h with
  | inl h => exact hlower (c, n) (List.mem_zipIdx_iff_getElem?.mpr h)
  | inr h => exact hupper (c, n) (List.mem_zipIdx_iff_getElem?.mpr h)

/-- The encodings of a text. -/
inductive Encodes (plain : UInt8 → Bool) : List UInt8 → List UInt8 → Prop where
  | nil : Encodes plain [] []
  | plain {c : UInt8} {s e : List UInt8} : plain c = true → Encodes plain s e →
      Encodes plain (c :: s) (c :: e)
  | escape {c h l : UInt8} {m n : Nat} {s e : List UInt8} : HexDigit h m → HexDigit l n →
      c.toNat = 16 * m + n → Encodes plain s e → Encodes plain (c :: s) (percent :: h :: l :: e)

variable {plain : UInt8 → Bool} {s e : List UInt8}

/-- A decoder that turns escapes into their bytes and keeps other bytes undoes every
encoding. -/
theorem Encodes.decode {decode : List UInt8 → List UInt8} (hnil : decode [] = [])
    (hplain : ∀ c p, c ≠ percent → decode (c :: p) = c :: decode p)
    (hescape : ∀ h l m n p, HexDigit h m → HexDigit l n →
      decode (percent :: h :: l :: p) = UInt8.ofNat (16 * m + n) :: decode p)
    (hpercent : plain percent = false) (h : Encodes plain s e) : decode e = s := by
  induction h with
  | nil => exact hnil
  | @plain c s e hc _ ih =>
      have hne : c ≠ percent := by
        rintro rfl
        rw [hpercent] at hc
        cases hc
      rw [hplain c e hne, ih]
  | @escape c h l m n s e hh hl hc _ ih =>
      rw [hescape h l m n e hh hl, ih, ← hc, UInt8.ofNat_toNat]

end PercentEncoding
