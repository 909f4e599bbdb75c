import Undervest.Lib.FixedWidth
import Undervest.Lib.Rounding

/-!
# Fixed-point numbers

`Scaled T S` is the class `scaled<T, S>`: a value of the integer type `T` that
stands for `value / S`.  The field `inRange` says that the value is one of the
type, so no other can be built.  Each operation converts its operands the way
the expression in the source does: `ofRaw` is the last conversion, to `T`.

A `double` is the rational it denotes.  Its product by the scale is a `double`
again, so it is rounded, and the rounding is an argument.  The conversion of that
product to `T` truncates toward zero and then keeps the low bits.

`compare` calls itself with the operands swapped when its scale is the smaller,
and on the opposites when both values are negative.  Neither call repeats, so
it is written as three functions.
-/

namespace Undervest

open FixedWidth FloatingPoint

/-- A fixed-point number of scale `S` held in the type `T`. -/
structure Scaled (T : IntType) (S : Int) where
  value : Int
  inRange : T.Contains value
deriving DecidableEq, Repr

namespace Scaled

variable {T Ts Ty : IntType} {S Ss Sy : Int}

/-- Store an integer in the value field. -/
def ofRaw (x : Int) : Scaled T S := ⟨T.wrap x, T.wrap_contains x⟩

/-- `scaled(const Ts& val)` for an integer of type `t`. -/
def ofInt (t : IntType) (val : Int) : Scaled T S := ofRaw ((t.common T).wrap (val * S))

/-- `scaled(const Ts& val)` for a `double`. -/
def ofRat (ρ : Rounding) (val : ℚ) : Scaled T S := ofRaw (truncate (ρ.round (val * S)))

/-- `scaled(const scaled<Ts, Ss>& val)`: `T((long long) val.value * S / Ss)`. -/
def convert (val : Scaled Ts Ss) : Scaled T S :=
  let p := (IntType.llong.common T).wrap (IntType.llong.wrap val.value * S)
  let q := (IntType.llong.common T).common Ts
  ofRaw ((q.wrap p).tdiv (q.wrap Ss))

/-- `operator-`. -/
def neg (x : Scaled T S) : Scaled T S := ofRaw (-x.value)

/-- `operator/=` by an integer: `value /= T(y)`. -/
def divInt (x : Scaled T S) (y : Int) : Scaled T S := ofRaw (x.value.tdiv (T.wrap y))

/-- The last lines of `compare`, reached with no negative operand. -/
def compareNonneg (x : Scaled T S) (y : Scaled Ty Sy) : Int :=
  let t : Scaled T S := y.convert
  if x.value < t.value then -1 else if x.value = t.value then 0 else 1

/-- `compare` when the scale of the receiver is not the smaller one. -/
def compareGe (x : Scaled T S) (y : Scaled Ty Sy) : Int :=
  if x.value < 0 then
    if 0 ≤ y.value then -1
    else -compareNonneg (x.neg.convert : Scaled .ulong S) (y.neg.convert : Scaled .ulong Sy)
  else if y.value < 0 then 1
  else compareNonneg x y

def compare (x : Scaled T S) (y : Scaled Ty Sy) : Int :=
  if S < Sy then -compareGe y x else compareGe x y

/-- `operator<`. -/
def lt (x : Scaled T S) (y : Scaled Ty Sy) : Bool := compare x y < 0

/-- `operator>=`. -/
def ge (x : Scaled T S) (y : Scaled Ty Sy) : Bool := 0 ≤ compare x y

/-- `operator>=` with a `double` on the right. -/
def geRat (ρ : Rounding) (x : Scaled T S) (y : ℚ) : Bool := x.ge (ofRat ρ y : Scaled T S)

/-! ## Values -/

theorem eq_of_value_eq {x y : Scaled T S} (h : x.value = y.value) : x = y := by
  cases x
  cases y
  simp_all

@[simp] theorem ofRaw_value (x : Int) : (ofRaw x : Scaled T S).value = T.wrap x := rfl

theorem value_nonneg_of_unsigned (hT : T.signed = false) (x : Scaled T S) : 0 ≤ x.value := by
  have h := x.inRange
  rw [IntType.Contains, hT] at h
  exact h.1

/-- A conversion of a non-negative number whose product fits. -/
theorem convert_value {x : Scaled Ty Sy} (h0 : 0 ≤ x.value) (hSy : 0 < Sy)
    (hin : Ty.Contains Sy) (hS : 0 < S) (hp : IntType.llong.Contains (x.value * S)) :
    (x.convert : Scaled T S).value = T.wrap (x.value * S / Sy) := by
  have hp0 : 0 ≤ x.value * S := mul_nonneg h0 hS.le
  have hle : x.value ≤ x.value * S := le_mul_of_one_le_right h0 hS
  have hv : IntType.llong.wrap x.value = x.value :=
    IntType.wrap_of_contains (hp.of_le h0 hle)
  have hprod := hp.common_left (b := T) hp0
  have hquot := hprod.common_left (b := Ty) hp0
  have hscale : ((IntType.llong.common T).common Ty).Contains Sy := hin.common_right hSy.le
  simp only [convert, ofRaw_value, hv, IntType.wrap_of_contains hprod,
    IntType.wrap_of_contains hquot, IntType.wrap_of_contains hscale]
  rw [Int.tdiv_eq_ediv_of_nonneg hp0]

/-! ## Numbers of one unsigned type -/

section Score

/-- A 16-bit score converts to its own type unchanged. -/
theorem convert_ushort (x : Scaled .ushort 65535) :
    (x.convert : Scaled .ushort 65535) = x := by
  have hx := IntType.ushort_contains.mp x.inRange
  have hp : IntType.llong.Contains (x.value * 65535) :=
    IntType.llong_contains.mpr ⟨by omega, by omega⟩
  apply eq_of_value_eq
  rw [convert_value hx.1 (by decide) (by decide) (by decide) hp, Int.mul_ediv_cancel _ (by decide)]
  exact IntType.wrap_of_contains x.inRange

/-- A 64-bit score of at most one narrows to 16 bits unchanged. -/
theorem convert_ulong_value {x : Scaled .ulong 65535} (h : x.value < 65536) :
    (x.convert : Scaled .ushort 65535).value = x.value := by
  have h0 := value_nonneg_of_unsigned rfl x
  have hp : IntType.llong.Contains (x.value * 65535) :=
    IntType.llong_contains.mpr ⟨by omega, by omega⟩
  rw [convert_value h0 (by decide) (by decide) (by decide) hp, Int.mul_ediv_cancel _ (by decide)]
  exact IntType.wrap_of_contains (IntType.ushort_contains.mpr ⟨h0, h⟩)

/-- The quotient of a count by a count, in 64 bits. -/
theorem divInt_ofInt_value {a b : Nat} (ha : a < 2 ^ 32) (hb : b < 2 ^ 32) :
    ((ofInt .uint (a : Int) : Scaled .ulong 65535).divInt (b : Int)).value =
      (65535 * a / b : Nat) := by
  have hc : IntType.uint.common .ulong = .ulong := by decide
  have hp : IntType.ulong.wrap ((a : Int) * 65535) = (65535 * a : Nat) := by
    rw [IntType.wrap_of_contains (IntType.ulong_contains.mpr ⟨by omega, by omega⟩)]
    omega
  have hd : IntType.ulong.wrap (b : Int) = (b : Int) :=
    IntType.wrap_of_contains (IntType.ulong_contains.mpr ⟨by omega, by omega⟩)
  have hq : 65535 * a / b ≤ 65535 * a := Nat.div_le_self _ _
  have hdiv : ((65535 * a : Nat) : Int).tdiv b = (65535 * a / b : Nat) := by
    rw [Int.tdiv_eq_ediv_of_nonneg (by omega), Int.natCast_ediv]
  have hw : IntType.ulong.wrap ((65535 * a : Nat) : Int) = (65535 * a : Nat) :=
    IntType.wrap_of_contains (IntType.ulong_contains.mpr ⟨by omega, by omega⟩)
  simp only [divInt, ofInt, ofRaw_value, hc, hp, hd, hw, hdiv]
  generalize 65535 * a / b = v at hq
  exact IntType.wrap_of_contains (IntType.ulong_contains.mpr ⟨by omega, by omega⟩)

theorem compare_ushort (x y : Scaled .ushort 65535) :
    compare x y = if x.value < y.value then -1 else if x.value = y.value then 0 else 1 := by
  have hx := value_nonneg_of_unsigned rfl x
  have hy := value_nonneg_of_unsigned rfl y
  simp only [compare, Int.lt_irrefl, if_false, compareGe, not_lt.mpr hx, not_lt.mpr hy,
    compareNonneg, convert_ushort]

theorem lt_ushort_iff {x y : Scaled .ushort 65535} : x.lt y = true ↔ x.value < y.value := by
  rw [lt, compare_ushort, decide_eq_true_eq]
  split_ifs <;> omega

theorem ge_ushort_iff {x y : Scaled .ushort 65535} : x.ge y = true ↔ y.value ≤ x.value := by
  rw [ge, compare_ushort, decide_eq_true_eq]
  split_ifs <;> omega

/-- The 16-bit value a threshold is compared as. -/
theorem ofRat_ushort_value (ρ : Rounding) (q : ℚ) :
    (ofRat ρ q : Scaled .ushort 65535).value = truncate (ρ.round (q * 65535)) % 65536 := rfl

/-- A threshold that is not negative is compared as the floor of its product by the scale,
in 16 bits. -/
theorem ofRat_ushort_of_nonneg (ρ : Rounding) {q : ℚ} (h : 0 ≤ q) :
    (ofRat ρ q : Scaled .ushort 65535).value = ⌊ρ.round (65535 * q)⌋ % 65536 := by
  rw [ofRat_ushort_value, mul_comm, truncate_eq_floor (ρ.round_nonneg (by positivity))]

/-- A threshold of `[0, 1]` is compared as the floor of its product by the scale. -/
theorem ofRat_ushort_of_unit (ρ : Rounding) {q : ℚ} (h0 : 0 ≤ q) (h1 : q ≤ 1) :
    (ofRat ρ q : Scaled .ushort 65535).value = ⌊ρ.round (65535 * q)⌋ := by
  have hone : ρ.round 65535 = 65535 := by exact_mod_cast ρ.natCast 65535 (by decide)
  have hle : ρ.round (65535 * q) ≤ 65535 :=
    (ρ.mono (show 65535 * q ≤ 65535 by linarith)).trans_eq hone
  have hfloor : ⌊ρ.round (65535 * q)⌋ ≤ 65535 := by
    have := Int.floor_le_floor hle
    rwa [Int.floor_ofNat] at this
  have hnonneg : 0 ≤ ⌊ρ.round (65535 * q)⌋ :=
    Int.floor_nonneg.mpr (ρ.round_nonneg (by positivity))
  rw [ofRat_ushort_of_nonneg ρ h0, Int.emod_eq_of_lt hnonneg (by omega)]

end Score

end Scaled

end Undervest
