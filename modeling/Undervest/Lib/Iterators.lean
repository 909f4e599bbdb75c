import Undervest.Lib.Refinement

/-!
# Vectors and iterators

An iterator of a vector is the offset of the cell it points to.  Offsets are
integers, so an iterator may leave the vector on both sides.  That does no harm
as long as nothing is read, written or erased there, which are the faults
(`Fault`).

A loop over a vector has a bound on its turns, and to run out of them is a fault
too.  So a result says that the loop ends.
-/

namespace Iterators

open Refinement

variable {α : Type}

/-- What goes wrong. -/
inductive Fault where
  /-- A cell outside the vector is read or written. -/
  | outside
  /-- A range that is not one of the vector is erased. -/
  | range
  /-- A loop that is out of turns. -/
  | turns
deriving DecidableEq, Repr

/-- The cell at an iterator. -/
def read (v : List α) (i : Int) : Except Fault α :=
  if 0 ≤ i then ofOption .outside v[i.toNat]? else .error .outside

def write (v : List α) (i : Int) (x : α) : Except Fault (List α) :=
  if 0 ≤ i ∧ i < v.length then .ok (v.set i.toNat x) else .error .outside

/-- The cells from `i` up to `j` go, and those behind come down. -/
def erase (v : List α) (i j : Int) : Except Fault (List α) :=
  if 0 ≤ i ∧ i ≤ j ∧ j ≤ v.length then .ok (v.take i.toNat ++ v.drop j.toNat) else .error .range

theorem read_cell {v : List α} {i : Nat} (h : i < v.length) : read v i = .ok v[i] := by
  rw [read, if_pos (Int.natCast_nonneg i), Int.toNat_natCast, List.getElem?_eq_getElem h]
  rfl

theorem write_cell {v : List α} {i : Nat} (h : i < v.length) (x : α) :
    write v i x = .ok (v.set i x) := by
  rw [write, if_pos ⟨Int.natCast_nonneg i, Int.ofNat_lt.mpr h⟩, Int.toNat_natCast]

theorem erase_cells {v : List α} {i j : Nat} (hij : i ≤ j) (hj : j ≤ v.length) :
    erase v i j = .ok (v.take i ++ v.drop j) := by
  rw [erase, if_pos ⟨Int.natCast_nonneg i, Int.ofNat_le.mpr hij, Int.ofNat_le.mpr hj⟩,
    Int.toNat_natCast, Int.toNat_natCast]

/-- The first cell behind some others. -/
theorem read_append (l : List α) (x : α) (r : List α) :
    read (l ++ x :: r) l.length = .ok x := by
  rw [read_cell (by simp), List.getElem_append_right (Nat.le_refl _)]
  simp

/-- The cells between two others. -/
theorem erase_append (l m r : List α) :
    erase (l ++ (m ++ r)) l.length (l.length + m.length : Nat) = .ok (l ++ r) := by
  rw [erase_cells (Nat.le_add_right ..) (by simp), List.take_left,
    ← List.append_assoc, ← List.length_append, List.drop_left]

end Iterators
