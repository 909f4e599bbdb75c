import Mathlib.Data.Int.Basic
import Mathlib.Data.Int.ModEq
import Mathlib.Data.Rat.Floor
import Mathlib.Tactic.Ring
import Mathlib.Tactic.Linarith
import Mathlib.Tactic.NormNum

/-!
# Integers of a fixed width

An integer type is a width and a signedness.  `IntType.wrap` is the conversion
of an unbounded integer to such a type: reduction modulo `2 ^ bits`, to the
representative around zero when the type is signed.  `IntType.common` is the
type two operands are converted to before an arithmetic operation.  Types
narrower than `int` are first promoted to it, then the wider type wins, and of
two types of one width the unsigned one.

`truncate q` drops the fractional part, as the conversion of a floating-point
number to an integer does.  It is written on the numerator and the denominator so
that it evaluates.
-/

namespace FixedWidth

/-! ## Types and conversions -/

/-- An integer type of the source language. -/
structure IntType where
  /-- Number of value bits, the sign included. -/
  bits : Nat
  /-- Two's complement or plain binary. -/
  signed : Bool
  /-- No type is empty. -/
  bits_pos : 0 < bits := by decide
deriving DecidableEq, Repr

namespace IntType

def ushort : IntType := ⟨16, false, by decide⟩
def int : IntType := ⟨32, true, by decide⟩
def uint : IntType := ⟨32, false, by decide⟩
def ulong : IntType := ⟨64, false, by decide⟩
def llong : IntType := ⟨64, true, by decide⟩

/-- Conversion of an integer to the type. -/
def wrap (t : IntType) (x : Int) : Int :=
  if t.signed then x.bmod (2 ^ t.bits) else x % 2 ^ t.bits

/-- The values of the type. -/
def Contains (t : IntType) (x : Int) : Prop :=
  if t.signed then -2 ^ (t.bits - 1) ≤ x ∧ x < 2 ^ (t.bits - 1) else 0 ≤ x ∧ x < 2 ^ t.bits

instance (t : IntType) (x : Int) : Decidable (t.Contains x) :=
  inferInstanceAs (Decidable (if t.signed then -2 ^ (t.bits - 1) ≤ x ∧ x < 2 ^ (t.bits - 1)
    else 0 ≤ x ∧ x < 2 ^ t.bits))

/-- Integer promotion. -/
def promote (t : IntType) : IntType := if t.bits < 32 then int else t

/-- The type of a binary arithmetic operation. -/
def common (a b : IntType) : IntType :=
  let a := a.promote
  let b := b.promote
  if a.bits = b.bits then ⟨a.bits, a.signed && b.signed, a.bits_pos⟩
  else if a.bits < b.bits then b else a

theorem two_pow_bits (t : IntType) : ((2 ^ t.bits : Nat) : Int) = 2 * 2 ^ (t.bits - 1) := by
  obtain ⟨n, hn⟩ : ∃ n, t.bits = n + 1 := ⟨t.bits - 1, by have := t.bits_pos; omega⟩
  rw [hn, Nat.add_sub_cancel]
  push_cast
  ring

/-- A conversion yields a value of the type. -/
theorem wrap_contains (t : IntType) (x : Int) : t.Contains (t.wrap x) := by
  unfold Contains wrap
  cases t.signed with
  | false =>
      have h : (0 : Int) < 2 ^ t.bits := by positivity
      exact ⟨Int.emod_nonneg x h.ne', Int.emod_lt_of_pos x h⟩
  | true =>
      have hl := Int.le_bmod (x := x) (Nat.two_pow_pos t.bits)
      have hu := Int.bmod_lt (x := x) (Nat.two_pow_pos t.bits)
      rw [two_pow_bits] at hl hu
      simp only [if_true]
      constructor <;> omega

/-- A value of the type is its own conversion. -/
theorem wrap_of_contains {t : IntType} {x : Int} (h : t.Contains x) : t.wrap x = x := by
  unfold Contains at h
  unfold wrap
  cases ht : t.signed with
  | false =>
      rw [ht] at h
      exact Int.emod_eq_of_lt h.1 h.2
  | true =>
      rw [ht] at h
      simp only [if_true] at h ⊢
      apply Int.bmod_eq_of_le <;> rw [two_pow_bits] <;> omega

/-- A conversion is above a value that is not negative when the low bits are, and are not the
sign of a negative number. -/
theorem lt_wrap_iff {t : IntType} {a : Int} (h0 : 0 ≤ a) (x : Int) :
    a < t.wrap x ↔ a < x % 2 ^ t.bits ∧ (t.signed = true → x % 2 ^ t.bits < 2 ^ (t.bits - 1)) := by
  have htwo := t.two_pow_bits
  rw [wrap]
  cases t.signed with
  | false => simp
  | true =>
      have hlow := Int.emod_lt_of_pos x (show (0 : Int) < 2 ^ t.bits by positivity)
      have hcast : (2 : Int) ^ t.bits = ((2 ^ t.bits : Nat) : Int) := by push_cast; rfl
      simp only [if_true, Int.bmod, forall_const, hcast] at hlow ⊢
      split_ifs <;> omega

/-- Below a non-negative value of the type all non-negative ones are of it. -/
theorem Contains.of_le {t : IntType} {x y : Int} (h : t.Contains x) (h0 : 0 ≤ y) (hle : y ≤ x) :
    t.Contains y := by
  have hpos : (0 : Int) ≤ 2 ^ (t.bits - 1) := by positivity
  unfold Contains at h ⊢
  cases ht : t.signed with
  | true =>
      rw [ht] at h
      simp only [if_true] at h ⊢
      exact ⟨by omega, by omega⟩
  | false =>
      rw [ht] at h
      exact ⟨h0, Int.lt_of_le_of_lt hle h.2⟩

/-- A wider type holds the non-negative values of a narrower one, and so does one of the
same width that is not signed unless the other is. -/
theorem Contains.of_bits {s t : IntType} {x : Int} (h : s.Contains x) (h0 : 0 ≤ x)
    (hbits : s.bits < t.bits ∨ s.bits = t.bits ∧ (t.signed = true → s.signed = true)) :
    t.Contains x := by
  have hs := s.two_pow_bits
  have ht := t.two_pow_bits
  have hpos : (0 : Int) < 2 ^ (s.bits - 1) := by positivity
  push_cast at hs ht
  have hle : (2 : Int) ^ s.bits ≤ 2 ^ t.bits :=
    pow_le_pow_right₀ (by decide) (by rcases hbits with h | ⟨h, -⟩ <;> omega)
  unfold Contains at h ⊢
  split
  next hsigned =>
      rcases hbits with hlt | ⟨heq, himp⟩
      · have hhalf : (2 : Int) ^ s.bits ≤ 2 ^ (t.bits - 1) :=
          pow_le_pow_right₀ (by decide) (by omega)
        split at h <;> constructor <;> omega
      · rw [if_pos (himp hsigned), heq] at h
        exact h
  next => split at h <;> constructor <;> omega

theorem Contains.promote {t : IntType} {x : Int} (h : t.Contains x) (h0 : 0 ≤ x) :
    t.promote.Contains x := by
  unfold IntType.promote
  split
  next hlt => exact h.of_bits h0 (Or.inl hlt)
  next => exact h

/-- A non-negative operand keeps its value. -/
theorem Contains.common_left {a b : IntType} {x : Int} (h : a.Contains x) (h0 : 0 ≤ x) :
    (a.common b).Contains x := by
  have hp := h.promote h0
  simp only [common]
  split
  next heq => exact hp.of_bits h0 (Or.inr ⟨rfl, fun hs => (Bool.and_eq_true_iff.mp hs).1⟩)
  next hne =>
      split
      next hlt => exact hp.of_bits h0 (Or.inl hlt)
      next => exact hp

theorem Contains.common_right {a b : IntType} {x : Int} (h : b.Contains x) (h0 : 0 ≤ x) :
    (a.common b).Contains x := by
  have hp := h.promote h0
  simp only [common]
  split
  next heq => exact hp.of_bits h0 (Or.inr ⟨heq.symm, fun hs => (Bool.and_eq_true_iff.mp hs).2⟩)
  next hne =>
      split
      next => exact hp
      next hge => exact hp.of_bits h0 (Or.inl (by omega))

/-! Arithmetic that is wrapped at the end may be wrapped on the way. -/

theorem wrap_modEq (t : IntType) (x : Int) : t.wrap x ≡ x [ZMOD 2 ^ t.bits] := by
  have hcast : (2 : Int) ^ t.bits = ((2 ^ t.bits : Nat) : Int) := by push_cast; rfl
  rw [wrap, Int.ModEq]
  cases t.signed with
  | false => exact Int.emod_emod_of_dvd x (dvd_refl _)
  | true =>
      rw [hcast]
      exact Int.bmod_emod

theorem wrap_congr {t : IntType} {x y : Int} (h : x ≡ y [ZMOD 2 ^ t.bits]) :
    t.wrap x = t.wrap y := by
  have hcast : (2 : Int) ^ t.bits = ((2 ^ t.bits : Nat) : Int) := by push_cast; rfl
  rw [wrap, wrap]
  cases t.signed with
  | false => exact h
  | true =>
      rw [hcast, Int.ModEq] at h
      rw [if_pos rfl, if_pos rfl, ← Int.emod_bmod, h, Int.emod_bmod]

theorem wrap_modEq_of_le {s t : IntType} (h : t.bits ≤ s.bits) (x : Int) :
    s.wrap x ≡ x [ZMOD 2 ^ t.bits] :=
  (s.wrap_modEq x).of_dvd (pow_dvd_pow 2 h)

theorem bits_le_promote (t : IntType) : t.bits ≤ t.promote.bits := by
  unfold IntType.promote
  split
  next h => exact h.le
  next => exact Nat.le_refl _

theorem bits_le_common (a b : IntType) : b.bits ≤ (a.common b).bits := by
  have hb := b.bits_le_promote
  simp only [common]
  split
  next h => exact hb.trans h.ge
  next =>
      split
      next => exact hb
      next h => exact hb.trans (Nat.not_lt.mp h)

theorem ushort_contains {x : Int} : ushort.Contains x ↔ 0 ≤ x ∧ x < 65536 := Iff.rfl
theorem int_contains {x : Int} : int.Contains x ↔ -2147483648 ≤ x ∧ x < 2147483648 := Iff.rfl
theorem uint_contains {x : Int} : uint.Contains x ↔ 0 ≤ x ∧ x < 4294967296 := Iff.rfl
theorem ulong_contains {x : Int} : ulong.Contains x ↔ 0 ≤ x ∧ x < 18446744073709551616 := Iff.rfl
theorem llong_contains {x : Int} :
    llong.Contains x ↔ -9223372036854775808 ≤ x ∧ x < 9223372036854775808 := Iff.rfl

end IntType

/-! ## Fixed point -/

/-- The number without its fractional part. -/
def truncate (q : ℚ) : Int := q.num.tdiv q.den

/-- Truncation is the floor of a number that is not negative. -/
theorem truncate_eq_floor {q : ℚ} (h : 0 ≤ q) : truncate q = ⌊q⌋ := by
  rw [truncate, Rat.floor_def', Int.tdiv_eq_ediv_of_nonneg (Rat.num_nonneg.mpr h)]

end FixedWidth
