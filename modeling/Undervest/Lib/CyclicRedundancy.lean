import Mathlib.Data.List.Basic

/-!
# Cyclic redundancy registers

A register of `w` bits takes in a byte by an exclusive or into its low bits and
eight shifts to the right, each of which adds a polynomial when a one falls out
(`update`).

A shift is linear in exclusive or (`shift_xor`), and a register with clear low
bits only moves down (`shifts_of_clear`).  So the eight shifts of a register are
those of its low byte next to the rest of it moved down, and the first part comes
from a table of 256 words (`update_eq`).

A register may be kept as its complement throughout.  The two complements then
go into the table (`complementEntry`), and an update is still a table entry next
to a shift (`not_update`).
-/

namespace CyclicRedundancy

variable {w : Nat}

/-! ## Shifting -/

/-- Shift right, and add the polynomial when the carry is set. -/
def shift (poly x : BitVec w) : BitVec w := if x.getLsbD 0 then x >>> 1 ^^^ poly else x >>> 1

def shifts (poly : BitVec w) : Nat → BitVec w → BitVec w
  | 0, x => x
  | n + 1, x => shifts poly n (shift poly x)

/-- A shift is linear. -/
theorem shift_xor (poly x y : BitVec w) : shift poly (x ^^^ y) = shift poly x ^^^ shift poly y := by
  have hcancel : ∀ a b : BitVec w, a ^^^ poly ^^^ (b ^^^ poly) = a ^^^ b := fun a b => by
    rw [BitVec.xor_comm b, BitVec.xor_assoc, ← BitVec.xor_assoc poly, BitVec.xor_self,
      BitVec.zero_xor]
  simp only [shift, BitVec.getLsbD_xor, BitVec.ushiftRight_xor_distrib]
  cases x.getLsbD 0 with
  | false =>
      cases y.getLsbD 0 with
      | false => rfl
      | true => exact BitVec.xor_assoc ..
  | true =>
      cases y.getLsbD 0 with
      | false =>
          change x >>> 1 ^^^ y >>> 1 ^^^ poly = x >>> 1 ^^^ poly ^^^ y >>> 1
          rw [BitVec.xor_assoc, BitVec.xor_comm (y >>> 1), ← BitVec.xor_assoc]
      | true => exact (hcancel ..).symm

theorem shifts_xor (poly : BitVec w) (n : Nat) (x y : BitVec w) :
    shifts poly n (x ^^^ y) = shifts poly n x ^^^ shifts poly n y := by
  induction n generalizing x y with
  | zero => rfl
  | succ n ih => rw [shifts, shift_xor, ih, shifts, shifts]

/-- Low bits that are clear fall out without a carry. -/
theorem shifts_of_clear (poly : BitVec w) {n : Nat} {x : BitVec w}
    (h : ∀ i < n, x.getLsbD i = false) : shifts poly n x = x >>> n := by
  induction n generalizing x with
  | zero => rfl
  | succ n ih =>
      have hmove : shift poly x = x >>> 1 := if_neg (by simp [h 0 (Nat.succ_pos n)])
      rw [shifts, hmove, ih, ← BitVec.shiftRight_add, Nat.add_comm]
      intro i hi
      rw [BitVec.getLsbD_ushiftRight, Nat.add_comm]
      exact h (i + 1) (Nat.succ_lt_succ hi)

/-! ## Bytes -/

/-- The low byte of a register. -/
def low (x : BitVec w) : BitVec 8 := x.setWidth 8

/-- Take in a byte. -/
def update (poly x : BitVec w) (c : BitVec 8) : BitVec w := shifts poly 8 (x ^^^ c.setWidth w)

/-- The table: eight shifts of each byte. -/
def entry (poly : BitVec w) (i : BitVec 8) : BitVec w := shifts poly 8 (i.setWidth w)

theorem getLsbD_low {x : BitVec w} {i : Nat} (hw : 8 ≤ w) :
    ((low x).setWidth w).getLsbD i = (decide (i < 8) && x.getLsbD i) := by
  simp only [low, BitVec.getLsbD_setWidth]
  by_cases hi : i < 8
  · simp [hi, Nat.lt_of_lt_of_le hi hw]
  · simp [hi]

/-- The eight shifts of a register: those of its low byte, and the rest moved down. -/
theorem shifts_low (poly x : BitVec w) (hw : 8 ≤ w) :
    shifts poly 8 x = entry poly (low x) ^^^ x >>> 8 := by
  have hsplit : x = (low x).setWidth w ^^^ (x ^^^ (low x).setWidth w) := by
    rw [BitVec.xor_comm x, ← BitVec.xor_assoc, BitVec.xor_self, BitVec.zero_xor]
  have hclear : ∀ i < 8, (x ^^^ (low x).setWidth w).getLsbD i = false := fun i hi => by
    rw [BitVec.getLsbD_xor, getLsbD_low hw]
    simp [hi]
  have hdown : (x ^^^ (low x).setWidth w) >>> 8 = x >>> 8 := by
    refine BitVec.eq_of_getLsbD_eq fun i _ => ?_
    rw [BitVec.getLsbD_ushiftRight, BitVec.getLsbD_xor, getLsbD_low hw,
      decide_eq_false (by omega), Bool.false_and, Bool.xor_false, BitVec.getLsbD_ushiftRight]
  calc shifts poly 8 x
      = shifts poly 8 ((low x).setWidth w ^^^ (x ^^^ (low x).setWidth w)) := by rw [← hsplit]
    _ = entry poly (low x) ^^^ (x ^^^ (low x).setWidth w) >>> 8 := by
      rw [shifts_xor, shifts_of_clear poly hclear]
      rfl
    _ = entry poly (low x) ^^^ x >>> 8 := by rw [hdown]

/-- **An update by the table.** -/
theorem update_eq (poly x : BitVec w) (c : BitVec 8) (hw : 8 ≤ w) :
    update poly x c = entry poly (low x ^^^ c) ^^^ x >>> 8 := by
  have hlow : low (x ^^^ c.setWidth w) = low x ^^^ c := by
    rw [low, BitVec.setWidth_xor, BitVec.setWidth_setWidth_of_le _ hw, BitVec.setWidth_eq, low]
  have hbyte : (c.setWidth w) >>> 8 = 0#w := by
    refine BitVec.eq_of_getLsbD_eq fun i _ => ?_
    rw [BitVec.getLsbD_ushiftRight, BitVec.getLsbD_setWidth, BitVec.getLsbD_of_ge _ _ (by omega)]
    simp
  rw [update, shifts_low _ _ hw, hlow, BitVec.ushiftRight_xor_distrib, hbyte, BitVec.xor_zero]

/-! ## Complements -/

/-- The table of registers that are kept as their complements. -/
def complementEntry (poly : BitVec w) (i : BitVec 8) : BitVec w :=
  ~~~(entry poly (~~~i) ^^^ BitVec.allOnes w >>> 8)

/-- **An update of a complement**, by a table that has the complements in it. -/
theorem not_update (poly a : BitVec w) (c : BitVec 8) (hw : 8 ≤ w) :
    ~~~update poly (~~~a) c = complementEntry poly (low a ^^^ c) ^^^ a >>> 8 := by
  have hlow : low (~~~a) ^^^ c = ~~~(low a ^^^ c) := by
    rw [low, BitVec.setWidth_not hw, low, BitVec.not_xor_left]
  have hdown : (~~~a) >>> 8 = BitVec.allOnes w >>> 8 ^^^ a >>> 8 := by
    rw [← BitVec.ushiftRight_xor_distrib, BitVec.allOnes_xor]
  rw [update_eq _ _ _ hw, hlow, hdown, complementEntry, ← BitVec.xor_assoc, BitVec.not_xor_left]

end CyclicRedundancy
