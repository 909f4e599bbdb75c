import Mathlib.Algebra.BigOperators.Group.List.Basic

/-!
# Climbs

A climb goes some steps up in a tree and then down along some names.  One climb
after the other is a climb again: steps up take back names of the one before, the
last name first, and those that find none are left (`mul_ups`, `mul_names`).  So
climbs form a monoid.  In it a name followed by a step up is nothing
(`downs_mul_up_pow`), while a step up followed by a name is not.
-/

/-- Steps up, and then names. -/
@[ext]
structure Climb (α : Type) where
  ups : Nat
  names : List α
deriving DecidableEq, Repr

namespace Climb

variable {α : Type}

instance : One (Climb α) := ⟨⟨0, []⟩⟩

instance : Mul (Climb α) where
  mul x y :=
    { ups := x.ups + (y.ups - x.names.length)
      names := x.names.take (x.names.length - y.ups) ++ y.names }

@[simp] theorem one_ups : (1 : Climb α).ups = 0 := rfl
@[simp] theorem one_names : (1 : Climb α).names = [] := rfl

theorem mul_ups (x y : Climb α) : (x * y).ups = x.ups + (y.ups - x.names.length) := rfl

theorem mul_names (x y : Climb α) :
    (x * y).names = x.names.take (x.names.length - y.ups) ++ y.names := rfl

instance : Monoid (Climb α) where
  mul_assoc x y z := by
    have hlen : (x.names.take (x.names.length - y.ups) ++ y.names).length =
        x.names.length - y.ups + y.names.length := by simp
    ext1
    · simp only [mul_ups, mul_names, hlen]
      omega
    · simp only [mul_ups, mul_names, hlen, List.take_append, List.take_take, List.length_take,
        List.append_assoc]
      congr 2
      · omega
      · congr 1
        omega
  one_mul x := by ext1 <;> simp [mul_ups, mul_names]
  mul_one x := by ext1 <;> simp [mul_ups, mul_names]

/-- One step up. -/
def up : Climb α := ⟨1, []⟩

/-- Down along some names. -/
def downs (l : List α) : Climb α := ⟨0, l⟩

theorem mul_downs (x : Climb α) (l : List α) : x * downs l = ⟨x.ups, x.names ++ l⟩ := by
  ext1 <;> simp [mul_ups, mul_names, downs]

theorem downs_append (l l' : List α) : downs (l ++ l') = downs l * downs l' :=
  (mul_downs (downs l) l').symm

theorem mul_up_of_names {x : Climb α} {l : List α} {a : α} (h : x.names = l ++ [a]) :
    x * up = ⟨x.ups, l⟩ := by
  ext1 <;> simp [mul_ups, mul_names, up, h]

theorem mul_up_of_nil {x : Climb α} (h : x.names = []) : x * up = ⟨x.ups + 1, []⟩ := by
  ext1 <;> simp [mul_ups, mul_names, up, h]

theorem up_pow (n : Nat) : (up : Climb α) ^ n = ⟨n, []⟩ := by
  induction n with
  | zero => rfl
  | succ n ih => rw [pow_succ, ih, mul_up_of_nil rfl]

/-- Each climb is made of steps up and names. -/
theorem eq_mul (x : Climb α) : x = up ^ x.ups * downs x.names := by
  rw [up_pow, mul_downs]
  rfl

/-- Names, and as many steps up. -/
theorem downs_mul_up_pow (l : List α) : downs l * up ^ l.length = 1 := by
  rw [up_pow]
  ext1 <;> simp [mul_ups, mul_names, downs]

/-- The names of a product do not depend on the steps up in front. -/
theorem mul_names_congr {x x' : Climb α} (h : x.names = x'.names) (y : Climb α) :
    (x * y).names = (x' * y).names := by
  rw [mul_names, mul_names, h]

/-- What comes before leaves no name behind. -/
theorem mul_names_eq_right {x y : Climb α} : (x * y).names = y.names ↔ x.names.length ≤ y.ups := by
  rw [mul_names, List.append_left_eq_self, List.take_eq_nil_iff]
  constructor
  · rintro (h | h)
    · omega
    · simp [h]
  · intro h
    exact Or.inl (by omega)

end Climb
