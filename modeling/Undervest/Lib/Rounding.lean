import Mathlib.Data.Int.ConditionallyCompleteOrder
import Mathlib.Data.Int.Log
import Mathlib.Data.Rat.Floor
import Mathlib.Tactic.Linarith
import Mathlib.Tactic.NormNum

/-!
# Rounding

Arithmetic of floating point gives an exact result rounded to its format.
`Rounding` has what a program may rely on whatever the format and the direction: a larger
result is not rounded to a smaller one, and natural numbers of 53 bits stay as they are.

`nearest p e` rounds to the nearest number of `p` bits that is a multiple of `2 ^ e`, of two
to the one whose last bit is zero.  Its grid gets coarser with the size of the number, and at
each power of two both grids have that number, so that rounding is monotone across them
(`nearest_mono`).  `Rounding.binary64` is this for 53 bits.
-/

namespace FloatingPoint

/-- How exact results are rounded. -/
structure Rounding where
  round : ℚ → ℚ
  mono : Monotone round
  natCast : ∀ n : ℕ, n < 2 ^ 53 → round n = n

/-- No rounding at all. -/
def Rounding.exact : Rounding := ⟨id, monotone_id, fun _ _ => rfl⟩

namespace Rounding

variable (ρ : Rounding)

theorem round_zero : ρ.round 0 = 0 := by exact_mod_cast ρ.natCast 0 (by decide)

theorem round_nonneg {x : ℚ} (h : 0 ≤ x) : 0 ≤ ρ.round x := by
  rw [← ρ.round_zero]
  exact ρ.mono h

end Rounding

/-! ## Integers -/

/-- The nearest integer, of two the even one. -/
def halfEven (x : ℚ) : ℤ :=
  let k := ⌊x⌋
  if x - k < 1 / 2 then k
  else if 1 / 2 < x - k then k + 1
  else k + k % 2

theorem halfEven_bounds (x : ℚ) : ⌊x⌋ ≤ halfEven x ∧ halfEven x ≤ ⌊x⌋ + 1 := by
  rw [halfEven]
  split_ifs <;> omega

@[simp] theorem halfEven_intCast (k : ℤ) : halfEven k = k := by simp [halfEven]

theorem halfEven_mono : Monotone halfEven := by
  intro x y h
  rcases (Int.floor_le_floor h).lt_or_eq with hlt | heq
  · have hx := (halfEven_bounds x).2
    have hy := (halfEven_bounds y).1
    omega
  · have hsub : x - ⌊y⌋ ≤ y - ⌊y⌋ := sub_le_sub_right h _
    rw [halfEven, halfEven, heq]
    split_ifs <;> first | omega | linarith

/-! ## Numbers of a format -/

/-- The exponent of the last of `p` bits, `e` at least. -/
def lastBit (p : ℕ) (e : ℤ) (x : ℚ) : ℤ := max (Int.log 2 x + 1 - p) e

/-- The nearest multiple of `2 ^ a`. -/
def toGrid (a : ℤ) (x : ℚ) : ℚ := halfEven (x / 2 ^ a) * 2 ^ a

/-- Round a number that is not negative. -/
def magnitude (p : ℕ) (e : ℤ) (x : ℚ) : ℚ := toGrid (lastBit p e x) x

/-- Round to nearest, ties to even. -/
def nearest (p : ℕ) (e : ℤ) (x : ℚ) : ℚ := if 0 ≤ x then magnitude p e x else -magnitude p e (-x)

theorem toGrid_mono (a : ℤ) : Monotone (toGrid a) := by
  intro x y h
  have hpos : (0 : ℚ) < 2 ^ a := zpow_pos two_pos a
  refine mul_le_mul_of_nonneg_right ?_ hpos.le
  exact_mod_cast halfEven_mono (div_le_div_of_nonneg_right h hpos.le)

/-- A multiple stays as it is. -/
theorem toGrid_mul (a k : ℤ) : toGrid a (k * 2 ^ a) = k * 2 ^ a := by
  have hne : (2 : ℚ) ^ a ≠ 0 := zpow_ne_zero a two_ne_zero
  rw [toGrid, mul_div_cancel_right₀ _ hne, halfEven_intCast]

/-- A power of two is on all finer grids. -/
theorem toGrid_zpow {a l : ℤ} (h : a ≤ l) : toGrid a (2 ^ l) = 2 ^ l := by
  have hsplit : (2 : ℚ) ^ l = ((2 ^ (l - a).toNat : ℤ) : ℚ) * 2 ^ a := by
    push_cast
    rw [← zpow_natCast, Int.toNat_of_nonneg (by omega), ← zpow_add₀ (by norm_num)]
    congr 1
    omega
  rw [hsplit, toGrid_mul]

@[simp] theorem toGrid_zero (a : ℤ) : toGrid a 0 = 0 := by simp [toGrid, halfEven]

theorem magnitude_nonneg (p : ℕ) (e : ℤ) {x : ℚ} (h : 0 ≤ x) : 0 ≤ magnitude p e x := by
  have hle := toGrid_mono (lastBit p e x) h
  rwa [toGrid_zero] at hle

theorem magnitude_mono {p : ℕ} (hp : 0 < p) (e : ℤ) {x y : ℚ} (hx : 0 < x) (h : x ≤ y) :
    magnitude p e x ≤ magnitude p e y := by
  have hlog : Int.log 2 x ≤ Int.log 2 y := Int.log_mono_right hx h
  have hgrid : lastBit p e x ≤ lastBit p e y := max_le_max_right e (by omega)
  rcases hgrid.lt_or_eq with hlt | heq
  · -- the power of two below the larger number is between them, and on both grids
    have hleft : Int.log 2 x + 1 - p ≤ lastBit p e x := le_max_left ..
    have hleast : e ≤ lastBit p e x := le_max_right ..
    have hy : lastBit p e y = Int.log 2 y + 1 - p :=
      (max_choice _ _).resolve_right fun heq => (hleast.trans_lt hlt).ne' heq
    have hxl : x ≤ 2 ^ Int.log 2 y := by
      have hx' := Int.lt_zpow_succ_log_self (b := 2) one_lt_two x
      refine hx'.le.trans (zpow_le_zpow_right₀ one_le_two ?_)
      omega
    have hly : 2 ^ Int.log 2 y ≤ y :=
      Int.zpow_log_le_self (b := 2) one_lt_two (hx.trans_le h)
    calc magnitude p e x ≤ toGrid (lastBit p e x) (2 ^ Int.log 2 y) := toGrid_mono _ hxl
      _ = toGrid (lastBit p e y) (2 ^ Int.log 2 y) := by
          rw [toGrid_zpow (by omega), toGrid_zpow (by omega)]
      _ ≤ magnitude p e y := toGrid_mono _ hly
  · rw [magnitude, magnitude, heq]
    exact toGrid_mono _ h

/-- **Rounding to nearest is monotone.** -/
theorem nearest_mono {p : ℕ} (hp : 0 < p) (e : ℤ) : Monotone (nearest p e) := by
  have hle : ∀ x y : ℚ, 0 ≤ x → x ≤ y → magnitude p e x ≤ magnitude p e y := by
    intro x y hx h
    rcases hx.lt_or_eq with hlt | rfl
    · exact magnitude_mono hp e hlt h
    · rw [show magnitude p e 0 = 0 from toGrid_zero _]
      exact magnitude_nonneg p e h
  intro x y h
  rw [nearest, nearest]
  split_ifs with hx hy hy
  · exact hle x y hx h
  · exact absurd (hx.trans h) hy
  · have hneg := magnitude_nonneg p e (show 0 ≤ -x by linarith)
    have hpos := magnitude_nonneg p e hy
    linarith
  · exact neg_le_neg (hle (-y) (-x) (by linarith) (by linarith))

/-- A natural number of `p` bits is not rounded. -/
theorem nearest_natCast {p : ℕ} {e : ℤ} (he : e ≤ 0) {n : ℕ} (hn : n < 2 ^ p) :
    nearest p e n = n := by
  rw [nearest, if_pos (Nat.cast_nonneg n), magnitude]
  rcases Nat.eq_zero_or_pos n with rfl | hpos
  · simp
  · have hlog : Int.log 2 (n : ℚ) < p := by
      rw [← Int.lt_zpow_iff_log_lt one_lt_two (by exact_mod_cast hpos), zpow_natCast]
      exact_mod_cast hn
    have hbit : lastBit p e n ≤ 0 := max_le (by omega) he
    have hmul : (n : ℚ) = ((n * 2 ^ (-lastBit p e n).toNat : ℤ) : ℚ) * 2 ^ lastBit p e n := by
      push_cast
      rw [mul_assoc, ← zpow_natCast, Int.toNat_of_nonneg (by omega), ← zpow_add₀ (by norm_num)]
      simp
    generalize lastBit p e n = a at hmul
    rw [hmul, toGrid_mul]

/-- Double precision, in a range without overflow. -/
def Rounding.binary64 : Rounding where
  round := nearest 53 (-1074)
  mono := nearest_mono (by decide) _
  natCast _ h := nearest_natCast (by decide) h

/-- The double next to 0.6, times 65535. -/
example : Rounding.binary64.round (5404319552844595 / 2 ^ 53 * 65535) = 39321 := by decide +kernel

end FloatingPoint
