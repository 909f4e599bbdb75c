import Undervest.FilePath
import Undervest.Lib.Iterators

/-!
# Normalizing in place

`FilePath::normalize` goes over the vector with one iterator, erases one or two
cells of it and moves the iterator back by as many, also in front of the first
cell.  Here it does so on the cells (`Cells.normalizeBody`, `Cells.normalizeLoop`).

The cells in front of the iterator are the components kept so far, the last one
next to it, so one turn of the loop is one turn of the stack (`normalizeBody_eq`).
Each turn takes one component from behind the iterator, whatever becomes of the
iterator itself, and that bounds the turns.
-/

namespace Undervest.FilePath

open Refinement Iterators

namespace Cells

/-- The body of the loop of `normalize` at the iterator `p`. -/
def normalizeBody (relative : Bool) (v : List Str) (p : Int) : Except Fault (List Str × Int) := do
  let c ← read v p
  if c = str "." then
    let v ← erase v p (p + 1)
    pure (v, p - 1)
  else if c = str ".." then
    if p = 0 then
      if relative = false then
        let v ← erase v p (p + 1)
        pure (v, p - 1)
      else pure (v, p)
    else
      let q ← read v (p - 1)
      if q ≠ str ".." then
        let v ← erase v (p - 1) (p + 1)
        pure (v, p - 2)
      else pure (v, p)
  else pure (v, p)

def normalizeLoop (relative : Bool) : Nat → List Str → Int → Except Fault (List Str)
  | 0, _, _ => .error .turns
  | turns + 1, v, p =>
      if p = v.length then pure v
      else do
        let (v, p) ← normalizeBody relative v p
        normalizeLoop relative turns v (p + 1)

/-- `FilePath::normalize`. -/
def normalize (f : FilePath) : Except Fault FilePath := do
  let v ← normalizeLoop f.relative (f.components.length + 1) f.components 0
  pure { f with components := v }

end Cells

variable (relative : Bool)

/-- The cell at the iterator goes. -/
theorem erase_at (kept : List Str) (c : Str) (rest : List Str) :
    erase (kept.reverse ++ c :: rest) kept.length (kept.length + 1 : Nat) =
      .ok (kept.reverse ++ rest) := by
  have := erase_append kept.reverse [c] rest
  rwa [List.length_reverse] at this

/-- The cell at the iterator and the one in front of it go. -/
theorem erase_both (kept : List Str) (q c : Str) (rest : List Str) :
    erase ((q :: kept).reverse ++ c :: rest) kept.length (kept.length + 2 : Nat) =
      .ok (kept.reverse ++ rest) := by
  have := erase_append kept.reverse [q, c] rest
  rwa [List.length_reverse, ← List.append_assoc, List.append_cons, List.append_assoc,
    ← List.reverse_cons] at this

/-- One turn of the loop. -/
theorem normalizeBody_eq (kept : List Str) (c : Str) (rest : List Str) :
    Cells.normalizeBody relative (kept.reverse ++ c :: rest) kept.length =
      .ok ((normalizeTurn relative kept c).reverse ++ rest,
        ((normalizeTurn relative kept c).length : Int) - 1) := by
  have hread : read (kept.reverse ++ c :: rest) kept.length = .ok c := by
    rw [← List.length_reverse, read_append]
  have hkeep : ((c :: kept).reverse ++ rest, ((c :: kept).length : Int) - 1) =
      (kept.reverse ++ c :: rest, (kept.length : Int)) := by
    simp
  have herase := erase_at kept c rest
  rw [Int.natCast_succ] at herase
  rw [Cells.normalizeBody, hread, ok_bind]
  by_cases hdot : c = str "."
  · rw [if_pos hdot, herase, normalizeTurn.eq_def, if_pos hdot]
    rfl
  rw [if_neg hdot]
  by_cases hdd : c = str ".."
  · rw [if_pos hdd]
    cases kept with
    | nil =>
        rw [normalizeTurn, if_neg hdot, if_pos hdd, if_pos (by rfl)]
        cases relative with
        | false =>
            rw [if_pos rfl, herase]
            rfl
        | true => rfl
    | cons q kept =>
        have hback : ((q :: kept).length : Int) - 1 = kept.length := by simp
        have hq : read ((q :: kept).reverse ++ c :: rest) kept.length = .ok q := by
          rw [List.reverse_cons, List.append_assoc, ← List.length_reverse]
          exact read_append ..
        rw [normalizeTurn, if_neg hdot, if_pos hdd, if_neg (by simp; omega), hback, hq,
          ok_bind]
        by_cases hqdd : q = str ".."
        · rw [if_neg (not_not.mpr hqdd), if_neg (not_not.mpr hqdd), hkeep]
          rfl
        · have hboth := erase_both kept q c rest
          have hend : ((q :: kept).length : Int) + 1 = (kept.length + 2 : Nat) := by
            simp
            omega
          have htwo : ((q :: kept).length : Int) - 2 = (kept.length : Int) - 1 := by
            simp
            omega
          rw [if_pos hqdd, if_pos hqdd, hend, hboth, htwo]
          rfl
  · rw [if_neg hdd, normalizeTurn.eq_def, if_neg hdot, if_neg hdd, hkeep]
    rfl

/-- From a turn on, the loop goes on as the stack does. -/
theorem normalizeLoop_eq {turns : Nat} (kept rest : List Str) (h : rest.length < turns) :
    Cells.normalizeLoop relative turns (kept.reverse ++ rest) kept.length =
      .ok (rest.foldl (normalizeTurn relative) kept).reverse := by
  induction rest generalizing kept turns with
  | nil =>
      obtain ⟨turns, rfl⟩ := Nat.exists_eq_add_one.mpr h
      rw [List.append_nil, Cells.normalizeLoop, if_pos (by rw [List.length_reverse])]
      rfl
  | cons c rest ih =>
      obtain ⟨turns, rfl⟩ := Nat.exists_eq_add_one.mpr (Nat.lt_of_le_of_lt (Nat.zero_le _) h)
      have hend : ((kept.length : Nat) : Int) ≠ (kept.reverse ++ c :: rest).length := by
        simp
        omega
      rw [Cells.normalizeLoop, if_neg hend, normalizeBody_eq, ok_bind]
      simp only [Int.sub_add_cancel]
      exact ih _ (Nat.lt_of_succ_lt_succ h)

theorem cells_normalize_eq (f : FilePath) : Cells.normalize f = .ok f.normalize := by
  have hloop := normalizeLoop_eq f.relative [] f.components (Nat.lt_succ_self _)
  rw [Cells.normalize]
  rw [List.reverse_nil, List.nil_append, List.length_nil, Int.natCast_zero] at hloop
  rw [hloop]
  rfl

/-- **Normalizing in place ends, with the stack reading of the path.** -/
theorem normalize_in_place (f : FilePath) :
    Cells.normalize f = .ok f.normalize ∧
      NormalComponents f.relative f.normalize.components ∧
      Cells.normalize f.normalize = .ok f.normalize := by
  have hnormal : NormalComponents f.relative f.normalize.components :=
    foldl_normalizeTurn_normal f.components ⟨by simp, by simp, by simp⟩
  refine ⟨cells_normalize_eq f, hnormal, ?_⟩
  rw [cells_normalize_eq]
  exact congrArg Except.ok (normalize_of_normal hnormal)

/-- Five components, of which two names and two `..` cancel. -/
example : Cells.normalize ⟨true, [str "a", str "b", str "..", str "..", str "..", str "c"]⟩ =
    .ok ⟨true, [str "..", str "c"]⟩ := by decide +kernel

end Undervest.FilePath
