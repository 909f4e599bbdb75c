import Undervest.Scaled

/-!
# The order of fixed-point numbers

`number` is the rational a fixed-point number stands for.  `compare` converts the
operand of the coarser scale to the finer one and drops what is left of it, so two
numbers in one unit of the finer scale compare equal.  It also converts it to the
type of the other, where it may not fit, and it works on the opposites of two
negative numbers, where the least value of a signed type is its own opposite.  Such a
value is taken for another number, `leastUnits`, that depends on the type and the scale
only.

`Sharp` is the condition under which none of this matters, and `compare_iff` proves
that it is exact: `compare` and the six operators order two numbers as their rationals
are if and only if it holds.
-/

namespace Undervest

open FixedWidth

namespace Scaled

variable {T Ty Tz : IntType} {S Sy Sz : Int}

/-! ## The operators -/

/-- `operator<=`. -/
def le (x : Scaled T S) (y : Scaled Ty Sy) : Bool := compare x y ≤ 0

/-- `operator==`. -/
def eq (x : Scaled T S) (y : Scaled Ty Sy) : Bool := compare x y = 0

/-- `operator!=`. -/
def ne (x : Scaled T S) (y : Scaled Ty Sy) : Bool := compare x y ≠ 0

/-- `operator>`. -/
def gt (x : Scaled T S) (y : Scaled Ty Sy) : Bool := 0 < compare x y

/-! ## The represented numbers -/

/-- The number that a fixed-point number stands for. -/
def number (x : Scaled T S) : ℚ := x.value / S

/-- `compare` and the operators order two numbers as they are ordered. -/
structure Agrees (x : Scaled T S) (y : Scaled Ty Sy) : Prop where
  negative : compare x y < 0 ↔ x.number < y.number
  zero : compare x y = 0 ↔ x.number = y.number
  positive : 0 < compare x y ↔ y.number < x.number
  lt : x.lt y = true ↔ x.number < y.number
  le : x.le y = true ↔ x.number ≤ y.number
  eq : x.eq y = true ↔ x.number = y.number
  ne : x.ne y = true ↔ x.number ≠ y.number
  ge : x.ge y = true ↔ y.number ≤ x.number
  gt : x.gt y = true ↔ y.number < x.number

/-- The scales are positive values of their types, and the products of the values by
the scales fit in `long long`. -/
structure Comparable (x : Scaled T S) (y : Scaled Ty Sy) : Prop where
  scale_pos : 0 < S
  scale_contains : T.Contains S
  other_pos : 0 < Sy
  other_contains : Ty.Contains Sy
  own : IntType.llong.Contains (x.value * S)
  cross : IntType.llong.Contains (x.value * Sy)
  otherCross : IntType.llong.Contains (y.value * S)
  otherOwn : IntType.llong.Contains (y.value * Sy)

instance (x : Scaled T S) (y : Scaled Ty Sy) : Decidable (Comparable x y) :=
  decidable_of_iff ((0 < S ∧ T.Contains S ∧ 0 < Sy ∧ Ty.Contains Sy) ∧
    IntType.llong.Contains (x.value * S) ∧ IntType.llong.Contains (x.value * Sy) ∧
    IntType.llong.Contains (y.value * S) ∧ IntType.llong.Contains (y.value * Sy))
    ⟨fun ⟨⟨h₁, h₂, h₃, h₄⟩, h₅, h₆, h₇, h₈⟩ => ⟨h₁, h₂, h₃, h₄, h₅, h₆, h₇, h₈⟩,
      fun ⟨h₁, h₂, h₃, h₄, h₅, h₆, h₇, h₈⟩ => ⟨⟨h₁, h₂, h₃, h₄⟩, h₅, h₆, h₇, h₈⟩⟩

/-! ## The condition -/

/-- What `p / s` is cut down to does not matter next to the value `a` of the type `T`: no
remainder is lost if it equals `a`, and if it does not fit in `T` its low bits are above `a`. -/
def SharpUnits (T : IntType) (a p s : Int) : Prop :=
  (T.Contains (p / s) → a = p / s → s ∣ p) ∧
    (¬ T.Contains (p / s) → a < p / s % 2 ^ T.bits ∧
      (T.signed = true → p / s % 2 ^ T.bits < 2 ^ (T.bits - 1)))

instance (T : IntType) (a p s : Int) : Decidable (SharpUnits T a p s) :=
  inferInstanceAs (Decidable (_ ∧ _))

/-- The least value of a signed type. -/
def IsLeast (x : Scaled T S) : Prop := T.signed = true ∧ x.value = -2 ^ (T.bits - 1)

instance (x : Scaled T S) : Decidable x.IsLeast := inferInstanceAs (Decidable (_ ∧ _))

/-- The least value of a type with scale `S` is its own opposite.  As a number of 64 bits it
is this many units of `1 / S`, which depends on the type and the scale only. -/
def leastUnits (T : IntType) (S : Int) : Int := 2 ^ 64 / S - 2 ^ (T.bits - 1)

/-- The same with scale `Sy`, in units of `1 / S`. -/
def leastConverted (T : IntType) (Sy S : Int) : Int := leastUnits T Sy * S % 2 ^ 64 / Sy

/-- The condition for two negative numbers, when the scale of the first is not the smaller
one.  A least value stands for two numbers, itself and the one above, and the other number
may not be between them. -/
def SharpNegative (x : Scaled T S) (y : Scaled Ty Sy) : Prop :=
  if x.IsLeast then
    if y.IsLeast then
      x.value * Sy < y.value * S ∧ leastConverted Ty Sy S < leastUnits T S ∨
        y.value * S < x.value * Sy ∧ leastUnits T S < leastConverted Ty Sy S ∨
        x.value * Sy = y.value * S ∧ leastUnits T S = leastConverted Ty Sy S
    else
      x.value * Sy < y.value * S ∨ leastUnits T S < -y.value * S / Sy ∨
        x.value * Sy = y.value * S ∧ leastUnits T S = -x.value
  else if y.IsLeast then
    x.value * Sy < y.value * S ∧ leastConverted Ty Sy S < -x.value ∨
      y.value * S < x.value * Sy ∧ -x.value < leastConverted Ty Sy S ∨
      x.value * Sy = y.value * S ∧ -x.value = leastConverted Ty Sy S
  else -x.value = -y.value * S / Sy → Sy ∣ y.value * S

instance (x : Scaled T S) (y : Scaled Ty Sy) : Decidable (SharpNegative x y) := by
  unfold SharpNegative
  infer_instance

/-- The condition when the scale of the receiver is not the smaller one. -/
def SharpGe (x : Scaled T S) (y : Scaled Ty Sy) : Prop :=
  (0 ≤ x.value → 0 ≤ y.value → SharpUnits T x.value (y.value * S) Sy) ∧
    (x.value < 0 → y.value < 0 → SharpNegative x y)

instance (x : Scaled T S) (y : Scaled Ty Sy) : Decidable (SharpGe x y) :=
  inferInstanceAs (Decidable (_ ∧ _))

/-- The condition under which `compare` is right. -/
def Sharp (x : Scaled T S) (y : Scaled Ty Sy) : Prop :=
  if S < Sy then SharpGe y x else SharpGe x y

instance (x : Scaled T S) (y : Scaled Ty Sy) : Decidable (Sharp x y) :=
  inferInstanceAs (Decidable (if S < Sy then SharpGe y x else SharpGe x y))

/-! ## Signs -/

/-- The sign of `c` is that of `m - n`. -/
def Signs (c m n : Int) : Prop := (c < 0 ↔ m < n) ∧ (c = 0 ↔ m = n)

theorem Signs.positive {c m n : Int} (h : Signs c m n) : 0 < c ↔ n < m := by
  obtain ⟨hlt, heq⟩ := h
  omega

theorem signs_neg {c m n : Int} : Signs (-c) m n ↔ Signs c n m := by
  constructor
  · intro h
    have hp := h.positive
    obtain ⟨hlt, heq⟩ := h
    exact ⟨by omega, by omega⟩
  · intro h
    have hp := h.positive
    obtain ⟨hlt, heq⟩ := h
    exact ⟨by omega, by omega⟩

/-- The sign of the last line of `compare`. -/
theorem signs_three {a q m n : Int} :
    Signs (if a < q then -1 else if a = q then 0 else 1) m n ↔
      (a < q ↔ m < n) ∧ (a = q ↔ m = n) := by
  rw [Signs]
  split
  next hlt =>
      have hne : a ≠ q := by omega
      simp [hlt, hne]
  next hge =>
      split
      next heq => simp [heq]
      next hne => simp [hge, hne]

/-- The same, the cases of `m` and `n` one by one. -/
theorem signs_three_cases {a q m n : Int} :
    Signs (if a < q then -1 else if a = q then 0 else 1) m n ↔
      n < m ∧ q < a ∨ m < n ∧ a < q ∨ n = m ∧ a = q := by
  rw [signs_three]
  omega

/-- Against the whole part of a quotient only a remainder is lost. -/
theorem signs_quotient {a p s : Int} (hs : 0 < s) :
    Signs (if a < p / s then -1 else if a = p / s then 0 else 1) (a * s) p ↔
      (a = p / s → s ∣ p) := by
  have hmul : a ≤ p / s ↔ a * s ≤ p := Int.le_ediv_iff_mul_le hs
  have hsucc : p / s < a ↔ p < a * s := Int.ediv_lt_iff_lt_mul hs
  rw [signs_three]
  constructor
  · rintro ⟨-, heq⟩ ha
    exact ⟨a, by rw [mul_comm]; exact (heq.mp ha).symm⟩
  · intro hdvd
    have heq : a = p / s ↔ a * s = p := by
      constructor
      · intro ha
        rw [ha]
        exact Int.ediv_mul_cancel (hdvd ha)
      · rintro rfl
        exact (Int.mul_ediv_cancel a hs.ne').symm
    exact ⟨by omega, heq⟩

/-! ## Conversions -/

/-- A conversion to 64 bits, of any value. -/
theorem convert_ulong_of_pos {x : Scaled Ty Sy} (hSy : 0 < Sy) (hin : Ty.Contains Sy) :
    (x.convert : Scaled .ulong S).value = x.value * S % 2 ^ 64 / Sy := by
  have hp : IntType.ulong.wrap (IntType.llong.wrap x.value * S) = x.value * S % 2 ^ 64 := by
    change Int.bmod x.value (2 ^ 64) * S % ((2 ^ 64 : Nat) : Int) = _
    rw [Int.mul_emod, Int.bmod_emod, ← Int.mul_emod]
    norm_num
  have hp0 : 0 ≤ x.value * S % 2 ^ 64 := Int.emod_nonneg _ (by decide)
  have hlt : x.value * S % 2 ^ 64 < 2 ^ 64 := Int.emod_lt_of_pos _ (by decide)
  have hprod : IntType.ulong.Contains (x.value * S % 2 ^ 64) := ⟨hp0, hlt⟩
  have hquot := hprod.common_left (b := Ty) hp0
  have hscale : (IntType.ulong.common Ty).Contains Sy := hin.common_right hSy.le
  have hc : IntType.llong.common .ulong = .ulong := by decide
  simp only [convert, ofRaw_value, hc, hp, IntType.wrap_of_contains hquot,
    IntType.wrap_of_contains hscale]
  rw [Int.tdiv_eq_ediv_of_nonneg hp0]
  have hle : x.value * S % 2 ^ 64 / Sy ≤ x.value * S % 2 ^ 64 := Int.ediv_le_self _ hp0
  exact IntType.wrap_of_contains (hprod.of_le (Int.ediv_nonneg hp0 hSy.le) hle)

/-- The opposite of a negative number, unless it is the least one. -/
theorem neg_value {x : Scaled T S} (hx : x.value < 0) :
    x.neg.value = if x.IsLeast then x.value else -x.value := by
  have hin := x.inRange
  rw [neg, ofRaw_value, IntType.wrap]
  have htwo := T.two_pow_bits
  have hpos : (0 : Int) < 2 ^ (T.bits - 1) := by positivity
  cases hs : T.signed with
  | false =>
      have := value_nonneg_of_unsigned hs x
      omega
  | true =>
      simp only [IntType.Contains, hs, if_true] at hin
      simp only [IsLeast, hs, true_and, if_true]
      split
      next hleast =>
          have hmod : -x.value % ((2 ^ T.bits : Nat) : Int) = -x.value :=
            Int.emod_eq_of_lt (by omega) (by omega)
          rw [Int.bmod, hmod, if_neg (by omega)]
          omega
      next hne =>
          apply Int.bmod_eq_of_le <;> rw [htwo] <;> omega

/-- What stands for the opposite of a negative number in 64 bits. -/
def magnitude (x : Scaled T S) : Int := if x.IsLeast then leastUnits T S else -x.value

theorem magnitude_of_least {x : Scaled T S} (h : x.IsLeast) : x.magnitude = leastUnits T S :=
  if_pos h

theorem magnitude_of_not {x : Scaled T S} (h : ¬ x.IsLeast) : x.magnitude = -x.value := if_neg h

theorem magnitude_eq {x : Scaled T S} (hx : x.value < 0) (hS : 0 < S) (hin : T.Contains S)
    (hp : IntType.llong.Contains (x.value * S)) :
    (x.neg.convert : Scaled .ulong S).value = x.magnitude := by
  have hp := IntType.llong_contains.mp hp
  have hneg : x.value * S < 0 := mul_neg_of_neg_of_pos hx hS
  rw [convert_ulong_of_pos hS hin, neg_value hx, magnitude]
  split
  next hleast =>
      have hmod : x.value * S % 2 ^ 64 = 2 ^ 64 + x.value * S := by omega
      rw [hmod, Int.add_mul_ediv_right _ _ hS.ne', hleast.2]
      rfl
  next =>
      have hmod : -x.value * S % 2 ^ 64 = -x.value * S := by
        rw [Int.neg_mul]
        omega
      rw [hmod, Int.mul_ediv_cancel _ hS.ne']

/-! ## The comparison -/

section Comparable

variable {x : Scaled T S} {y : Scaled Ty Sy}

theorem Comparable.symm (h : Comparable x y) : Comparable y x :=
  ⟨h.other_pos, h.other_contains, h.scale_pos, h.scale_contains, h.otherOwn, h.otherCross,
    h.cross, h.own⟩

theorem signs_compareNonneg (h : Comparable x y) (hx : 0 ≤ x.value) (hy : 0 ≤ y.value) :
    Signs (compareNonneg x y) (x.value * Sy) (y.value * S) ↔
      SharpUnits T x.value (y.value * S) Sy := by
  have hconvert : (y.convert : Scaled T S).value = T.wrap (y.value * S / Sy) :=
    convert_value hy h.other_pos h.other_contains h.scale_pos h.otherCross
  rw [compareNonneg, hconvert, SharpUnits, ← IntType.lt_wrap_iff hx]
  by_cases hin : T.Contains (y.value * S / Sy)
  · simp only [hin, IntType.wrap_of_contains hin, forall_const, not_true_eq_false,
      false_imp_iff, and_true]
    exact signs_quotient h.other_pos
  · -- a quotient that does not fit is above all values of the type
    have hquot : 0 ≤ y.value * S / Sy :=
      Int.ediv_nonneg (mul_nonneg hy h.scale_pos.le) h.other_pos.le
    have habove : x.value < y.value * S / Sy := by
      by_contra hle
      exact hin (x.inRange.of_le hquot (Int.not_lt.mp hle))
    have hlt : x.value * Sy < y.value * S := by
      have hsucc := (Int.le_ediv_iff_mul_le h.other_pos).mp (Int.add_one_le_of_lt habove)
      have hpos := h.other_pos
      rw [Int.add_mul] at hsucc
      omega
    have hne : x.value * Sy ≠ y.value * S := Int.ne_of_lt hlt
    simp only [signs_three, hin, hlt, hne, false_imp_iff, not_false_eq_true, forall_const,
      true_and, iff_true, iff_false]
    omega

/-- Two negative numbers are compared by their magnitudes. -/
theorem compareGe_negative (h : Comparable x y) (hx : x.value < 0) (hy : y.value < 0) :
    compareGe x y =
      -(if x.magnitude < y.magnitude * S % 2 ^ 64 / Sy then -1
        else if x.magnitude = y.magnitude * S % 2 ^ 64 / Sy then 0 else 1) := by
  have hsy : Sy ≤ -y.value * Sy := le_mul_of_one_le_left h.other_pos.le (by omega)
  have hown := IntType.llong_contains.mp h.otherOwn
  have hin : IntType.ulong.Contains Sy :=
    IntType.ulong_contains.mpr ⟨h.other_pos.le, by rw [Int.neg_mul] at hsy; omega⟩
  rw [compareGe, if_pos hx, if_neg (Int.not_le.mpr hy), compareNonneg,
    convert_ulong_of_pos h.other_pos hin, magnitude_eq hx h.scale_pos h.scale_contains h.own,
    magnitude_eq hy h.other_pos h.other_contains h.otherOwn]

/-- The order of two opposites is the other way round. -/
theorem signs_opposite {c : Int} :
    Signs c (y.value * S) (x.value * Sy) ↔ Signs c (-x.value * Sy) (-y.value * S) := by
  rw [Signs, Signs, Int.neg_mul, Int.neg_mul, Int.neg_lt_neg_iff, Int.neg_inj,
    eq_comm (a := y.value * S)]

/-- A negative number that is not the least one is not cut down in 64 bits. -/
theorem Comparable.emod_opposite (h : Comparable x y) (hy : y.value < 0) :
    -y.value * S % 2 ^ 64 = -y.value * S := by
  have hcross := IntType.llong_contains.mp h.otherCross
  have hpos : 0 < -y.value * S := mul_pos (by omega) h.scale_pos
  rw [Int.neg_mul] at hpos ⊢
  omega

/-- The least value goes down. -/
theorem Comparable.le_leastUnits (h : Comparable x y) (hleast : x.IsLeast) :
    -x.value ≤ leastUnits T S := by
  have hown := IntType.llong_contains.mp h.own
  have hle : -2 * x.value ≤ 2 ^ 64 / S := by
    rw [Int.le_ediv_iff_mul_le h.scale_pos, mul_assoc]
    omega
  have hvalue := hleast.2
  rw [leastUnits]
  omega

/-- The least value against a number that is not: it is on the right side when it is the
smaller one. -/
theorem signs_least (h : Comparable x y) (hleast : x.IsLeast) :
    Signs (if leastUnits T S < -y.value * S / Sy then -1
        else if leastUnits T S = -y.value * S / Sy then 0 else 1) (y.value * S) (x.value * Sy) ↔
      x.value * Sy < y.value * S ∨ leastUnits T S < -y.value * S / Sy ∨
        x.value * Sy = y.value * S ∧ leastUnits T S = -x.value := by
  have hle := h.le_leastUnits hleast
  have hpos := h.other_pos
  have hbelow : -y.value * S / Sy < -x.value ↔ x.value * Sy < y.value * S := by
    rw [Int.ediv_lt_iff_lt_mul hpos, Int.neg_mul, Int.neg_mul, Int.neg_lt_neg_iff]
  have habove : -x.value < -y.value * S / Sy → y.value * S < x.value * Sy := fun hlt => by
    have hsucc := (Int.le_ediv_iff_mul_le hpos).mp (Int.add_one_le_of_lt hlt)
    rw [Int.add_mul, Int.neg_mul, Int.neg_mul] at hsucc
    omega
  have hequal : x.value * Sy = y.value * S → -y.value * S / Sy = -x.value := fun heq => by
    rw [Int.neg_mul, ← heq, ← Int.neg_mul, Int.mul_ediv_cancel _ hpos.ne']
  rw [signs_three_cases]
  omega

theorem signs_negative (h : Comparable x y) (hy : y.value < 0) :
    Signs (if x.magnitude < y.magnitude * S % 2 ^ 64 / Sy then -1
        else if x.magnitude = y.magnitude * S % 2 ^ 64 / Sy then 0 else 1)
      (y.value * S) (x.value * Sy) ↔ SharpNegative x y := by
  rw [SharpNegative]
  by_cases hx : x.IsLeast <;> by_cases hyl : y.IsLeast
  · rw [if_pos hx, if_pos hyl, magnitude_of_least hx, magnitude_of_least hyl]
    exact signs_three_cases
  · rw [if_pos hx, if_neg hyl, magnitude_of_least hx, magnitude_of_not hyl, h.emod_opposite hy]
    exact signs_least h hx
  · rw [if_neg hx, if_pos hyl, magnitude_of_not hx, magnitude_of_least hyl]
    exact signs_three_cases
  · rw [if_neg hx, if_neg hyl, magnitude_of_not hx, magnitude_of_not hyl, h.emod_opposite hy,
      signs_opposite, signs_quotient h.other_pos, Int.neg_mul, Int.dvd_neg]

theorem signs_compareGe (h : Comparable x y) :
    Signs (compareGe x y) (x.value * Sy) (y.value * S) ↔ SharpGe x y := by
  rw [SharpGe]
  rcases Int.lt_or_le x.value 0 with hx | hx
  · have hleft : x.value * Sy < 0 := mul_neg_of_neg_of_pos hx h.other_pos
    rcases Int.lt_or_le y.value 0 with hy | hy
    · rw [compareGe_negative h hx hy, signs_neg, signs_negative h hy]
      simp only [Int.not_le.mpr hx, false_imp_iff, hx, hy, forall_const, true_and]
    · have hright : 0 ≤ y.value * S := mul_nonneg hy h.scale_pos.le
      rw [compareGe, if_pos hx, if_pos hy]
      simp only [Int.not_le.mpr hx, Int.not_lt.mpr hy, false_imp_iff, implies_true, and_self,
        iff_true]
      exact ⟨by omega, by omega⟩
  · have hleft : 0 ≤ x.value * Sy := mul_nonneg hx h.other_pos.le
    rcases Int.lt_or_le y.value 0 with hy | hy
    · have hright : y.value * S < 0 := mul_neg_of_neg_of_pos hy h.scale_pos
      rw [compareGe, if_neg (Int.not_lt.mpr hx), if_pos hy]
      simp only [Int.not_lt.mpr hx, Int.not_le.mpr hy, false_imp_iff, implies_true, and_self,
        iff_true]
      exact ⟨by omega, by omega⟩
    · rw [compareGe, if_neg (Int.not_lt.mpr hx), if_neg (Int.not_lt.mpr hy),
        signs_compareNonneg h hx hy]
      simp only [hx, hy, Int.not_lt.mpr hx, forall_const, false_imp_iff, and_true]

theorem signs_compare (h : Comparable x y) :
    Signs (compare x y) (x.value * Sy) (y.value * S) ↔ Sharp x y := by
  rw [compare, Sharp]
  split
  next => rw [signs_neg, signs_compareGe h.symm]
  next => exact signs_compareGe h

theorem number_lt_iff (h : Comparable x y) :
    x.number < y.number ↔ x.value * Sy < y.value * S := by
  have hS : (0 : ℚ) < S := Int.cast_pos.mpr h.scale_pos
  have hSy : (0 : ℚ) < Sy := Int.cast_pos.mpr h.other_pos
  rw [number, number, div_lt_div_iff₀ hS hSy]
  exact_mod_cast Iff.rfl

theorem number_eq_iff (h : Comparable x y) :
    x.number = y.number ↔ x.value * Sy = y.value * S := by
  have hS : (S : ℚ) ≠ 0 := Int.cast_ne_zero.mpr h.scale_pos.ne'
  have hSy : (Sy : ℚ) ≠ 0 := Int.cast_ne_zero.mpr h.other_pos.ne'
  rw [number, number, div_eq_div_iff hS hSy]
  exact_mod_cast Iff.rfl

/-- The operators read the sign of `compare`. -/
theorem agrees_iff (h : Comparable x y) :
    Agrees x y ↔ Signs (compare x y) (x.value * Sy) (y.value * S) := by
  constructor
  · intro ha
    exact ⟨ha.negative.trans (number_lt_iff h), ha.zero.trans (number_eq_iff h)⟩
  · intro hs
    have hpos := hs.positive.trans (number_lt_iff h.symm).symm
    obtain ⟨hneg, hzero⟩ := hs
    rw [← number_lt_iff h] at hneg
    rw [← number_eq_iff h] at hzero
    have hle : compare x y ≤ 0 ↔ x.number ≤ y.number := by
      rw [← Int.not_lt, hpos, not_lt]
    have hge : 0 ≤ compare x y ↔ y.number ≤ x.number := by
      rw [← Int.not_lt, hneg, not_lt]
    constructor
    · exact hneg
    · exact hzero
    · exact hpos
    · rw [lt, decide_eq_true_iff, hneg]
    · rw [le, decide_eq_true_iff, hle]
    · rw [eq, decide_eq_true_iff, hzero]
    · rw [ne, decide_eq_true_iff, Ne, hzero]
    · rw [ge, decide_eq_true_iff, hge]
    · rw [gt, decide_eq_true_iff, hpos]

theorem compareNonneg_range (x : Scaled T S) (y : Scaled Ty Sy) :
    -1 ≤ compareNonneg x y ∧ compareNonneg x y ≤ 1 := by
  simp only [compareNonneg]
  split_ifs <;> decide

theorem compareGe_range (x : Scaled T S) (y : Scaled Ty Sy) :
    -1 ≤ compareGe x y ∧ compareGe x y ≤ 1 := by
  have hneg := compareNonneg_range (x.neg.convert : Scaled .ulong S)
    (y.neg.convert : Scaled .ulong Sy)
  have hnonneg := compareNonneg_range x y
  rw [compareGe]
  split_ifs <;> omega

theorem compare_range (x : Scaled T S) (y : Scaled Ty Sy) :
    -1 ≤ compare x y ∧ compare x y ≤ 1 := by
  have hx := compareGe_range x y
  have hy := compareGe_range y x
  rw [compare]
  split_ifs <;> omega

theorem Agrees.antisymm (h : Agrees x y) (h' : Agrees y x) : compare y x = -compare x y := by
  have hx := compare_range x y
  have hy := compare_range y x
  have hneg := h.negative.trans h'.positive.symm
  have hpos := h.positive.trans h'.negative.symm
  omega

/-- Numbers of one type and one scale are ordered as they are, the least value of a
signed type apart. -/
theorem sharp_of_same {x y : Scaled T S} (h : Comparable x y) (hx : ¬ x.IsLeast)
    (hy : ¬ y.IsLeast) : Sharp x y := by
  have hS := h.scale_pos.ne'
  have hquot : y.value * S / S = y.value := Int.mul_ediv_cancel _ hS
  rw [Sharp, if_neg (Int.lt_irrefl S), SharpGe]
  refine ⟨fun _ _ => ⟨fun _ _ => Int.dvd_mul_left _ _, fun hno => ?_⟩, fun _ _ => ?_⟩
  · rw [hquot] at hno
    exact absurd y.inRange hno
  · rw [SharpNegative, if_neg hx, if_neg hy]
    exact fun _ => Int.dvd_mul_left _ _

/-- **The order of `compare`** is that of the numbers if and only if nothing is lost when
the one is converted to the other.  Then it is antisymmetric and transitive. -/
theorem compare_iff (h : Comparable x y) :
    (Agrees x y ↔ Sharp x y) ∧
    (Sharp x y → Sharp y x → compare y x = -compare x y) ∧
    ∀ {Tz : IntType} {Sz : Int} (z : Scaled Tz Sz), Comparable y z → Comparable x z →
      Sharp x y → Sharp y z → Sharp x z →
        compare x y ≤ 0 → compare y z ≤ 0 → compare x z ≤ 0 := by
  have hiff {T Ty : IntType} {S Sy : Int} {x : Scaled T S} {y : Scaled Ty Sy}
      (h : Comparable x y) : Agrees x y ↔ Sharp x y :=
    (agrees_iff h).trans (signs_compare h)
  refine ⟨hiff h, fun hxy hyx => ((hiff h).mpr hxy).antisymm ((hiff h.symm).mpr hyx),
    fun z hyz hxz sxy syz sxz hle hle' => ?_⟩
  have hxy := (hiff h).mpr sxy
  have hyz := (hiff hyz).mpr syz
  have hxz := (hiff hxz).mpr sxz
  rw [← Int.not_lt, hxy.positive, not_lt] at hle
  rw [← Int.not_lt, hyz.positive, not_lt] at hle'
  rw [← Int.not_lt, hxz.positive, not_lt]
  exact hle.trans hle'

theorem compare_iff_sample :
    Agrees (ofRaw (-3) : Scaled .int 4) (ofRaw (-1) : Scaled .llong 2) :=
  (compare_iff (by decide)).1.mpr (by decide)

/-- The least value may be the larger number, and `compare` says so. -/
example : compare (ofRaw (-2 ^ 31) : Scaled .int (2 ^ 31 - 1)) (ofRaw (-2 ^ 32) : Scaled .llong 1) =
    1 := by decide

/-- One third, one half and two sixths. -/
theorem third_equals_half :
    Comparable (ofRaw 1 : Scaled .int 3) (ofRaw 1 : Scaled .int 2) ∧
      compare (ofRaw 1 : Scaled .int 3) (ofRaw 1 : Scaled .int 2) = 0 ∧
      (ofRaw 1 : Scaled .int 3).number < (ofRaw 1 : Scaled .int 2).number ∧
      compare (ofRaw 2 : Scaled .int 6) (ofRaw 1 : Scaled .int 3) = 0 ∧
      compare (ofRaw 2 : Scaled .int 6) (ofRaw 1 : Scaled .int 2) = -1 := by
  refine ⟨by decide, by decide, ?_, by decide, by decide⟩
  rw [number_lt_iff (by decide)]
  decide

end Comparable

end Scaled

end Undervest
