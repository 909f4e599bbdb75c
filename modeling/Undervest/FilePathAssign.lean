import Undervest.FilePathAlgebra
import Undervest.FilePathText
import Undervest.Uri

/-!
# Assigning a text

`FilePath::assign` of a text appends the pieces to the components that are there,
while the other overloads replace them.  The old components are gone after all when
the text climbs out of them: it starts with enough `..` that cancel the names left of
the old path, and these add as many steps up as the text loses
(`assignTo_eq_assign`).  An absolute path drops the steps up.
-/

namespace Undervest

namespace FilePath

/-- `FilePath::assign` of a text, and so `FilePath::operator=`. -/
def assignTo (f : FilePath) (path : Str) : FilePath :=
  normalize ⟨path.head? != some (ch '/'), f.components ++ splitLoop path.length path⟩

/-- `assign` is the case of an empty path. -/
theorem assignTo_clear (path : Str) : clear.assignTo path = assign path := rfl

/-- Goes over components with the numbers of `..` and of names that are left so far. -/
def unmatchedLoop (ups names : Nat) : List Str → Nat × Nat
  | [] => (ups, names)
  | c :: rest =>
      if c = str "." then unmatchedLoop ups names rest
      else if c ≠ str ".." then unmatchedLoop ups (names + 1) rest
      else if names = 0 then unmatchedLoop (ups + 1) 0 rest
      else unmatchedLoop ups (names - 1) rest

/-- What is left of components when each `..` takes a name in front of it away: the
number of `..`, and that of names. -/
def unmatched (components : List Str) : Nat × Nat := unmatchedLoop 0 0 components

/-- Nothing of the old components is left, and nothing of the text is lost. -/
def ClimbsOut (f : FilePath) (path : Str) : Prop :=
  (unmatched f.components).2 ≤ (unmatched (pieces path)).1 ∧
    (path.head? ≠ some (ch '/') → (unmatched f.components).1 = (unmatched f.components).2)

instance (f : FilePath) (path : Str) : Decidable (f.ClimbsOut path) :=
  inferInstanceAs (Decidable (_ ∧ (_ → _)))

end FilePath

/-- `URI::path` of a text. -/
def validPath (pth : Str) : Bool := checkCharSet pcharSlash pth

def URI.setPath (u : URI) (pth : Str) : URI × Bool :=
  if !validPath pth then (u, false) else ({ u with path := u.path.assignTo pth }, true)

namespace FilePath

theorem unmatchedLoop_eq (x : Climb Name) (l : List Str) :
    unmatchedLoop x.ups x.names.length l =
      ((x * climb l).ups, (x * climb l).names.length) := by
  induction l generalizing x with
  | nil => rw [climb_nil, mul_one, unmatchedLoop]
  | cons c l ih =>
      rw [climb_cons, ← mul_assoc, unmatchedLoop]
      by_cases hdot : c = str "."
      · rw [if_pos hdot, hdot, stride_dot, mul_one, ih]
      rw [if_neg hdot]
      by_cases hdd : c = str ".."
      · rw [if_neg (not_not.mpr hdd), hdd, stride_parent]
        rcases List.eq_nil_or_concat' x.names with hnil | ⟨names, q, hq⟩
        · rw [if_pos (by simp [hnil]), Climb.mul_up_of_nil hnil, ← ih]
          rfl
        · rw [if_neg (by simp [hq]), Climb.mul_up_of_names hq, ← ih, hq]
          simp
      · rw [if_pos hdd, stride_name hdot hdd, Climb.mul_downs, ← ih]
        simp

theorem unmatched_eq (components : List Str) :
    unmatched components = ((climb components).ups, (climb components).names.length) := by
  have := unmatchedLoop_eq 1 components
  rwa [one_mul] at this

/-- A climb is told by its components, an absolute one up to its steps up. -/
theorem spell_inj {relative : Bool} {x y : Climb Name} :
    spell relative x = spell relative y ↔
      x.names = y.names ∧ (relative = true → x.ups = y.ups) := by
  constructor
  · intro h
    have := congrArg climb h
    rw [climb_spell, climb_spell, Climb.mk.injEq] at this
    refine ⟨this.2, fun hrel => ?_⟩
    simpa [hrel] using this.1
  · intro h
    cases relative with
    | false => rw [spell, spell, h.1]; rfl
    | true => rw [spell, spell, h.1, h.2 rfl]

/-- **When an assignment replaces.** -/
theorem assignTo_eq_assign (f : FilePath) (path : Str) :
    f.assignTo path = assign path ↔ f.ClimbsOut path := by
  rw [assignTo, splitLoop_eq (Nat.le_refl _), assign_eq, normalize_eq, normalize_eq, climb_append]
  simp only [FilePath.mk.injEq, true_and, spell_inj, Climb.mul_names_eq_right, ClimbsOut,
    unmatched_eq, bne_iff_ne, Climb.mul_ups]
  refine and_congr_right fun hle => imp_congr_right fun _ => ?_
  omega

/-- **When an assignment replaces**, that of a legal path to a URI too. -/
theorem assignment_replaces_iff (f : FilePath) (u : URI) (path : Str) :
    (f.assignTo path = assign path ↔ f.ClimbsOut path) ∧
      (validPath path = true →
        ((u.setPath path).1.path = assign path ↔ u.path.ClimbsOut path)) := by
  refine ⟨assignTo_eq_assign f path, fun hvalid => ?_⟩
  rw [URI.setPath, if_neg (by simp [hvalid])]
  exact assignTo_eq_assign u.path path

/-- A second assignment keeps what the first one left. -/
theorem assignment_appends :
    ¬ (assign (str "x")).assignTo (str "y") = assign (str "y") := by decide +kernel

end FilePath

end Undervest
