import Mathlib.Data.List.Basic
import Mathlib.Data.List.Count
import Mathlib.Data.List.Infix

/-!
# Brackets

A text is balanced in an opening and a closing bracket when no prefix of it closes
more than it opens, and the whole text opens as much as it closes.  Texts without a
bracket are balanced, one after the other is, and so is one between brackets.
-/

namespace Brackets

variable {α : Type}

/-- A prefix ends in the first of two texts or in the second. -/
theorem prefix_append_cases {u s t : List α} (h : u <+: s ++ t) :
    u <+: s ∨ ∃ v, u = s ++ v ∧ v <+: t := by
  obtain ⟨w, hw⟩ := h
  rcases List.append_eq_append_iff.mp hw with ⟨x, rfl, -⟩ | ⟨x, rfl, rfl⟩
  · exact Or.inl (List.prefix_append u x)
  · exact Or.inr ⟨x, rfl, List.prefix_append x w⟩

variable [DecidableEq α] (o c : α)

/-- How many brackets are open at the end. -/
def depth (s : List α) : Int := s.count o - s.count c

structure Balanced (s : List α) : Prop where
  total : depth o c s = 0
  nonneg : ∀ t, t <+: s → 0 ≤ depth o c t

variable {o c}

theorem depth_append (s t : List α) : depth o c (s ++ t) = depth o c s + depth o c t := by
  rw [depth, depth, depth, List.count_append, List.count_append]
  omega

theorem depth_of_notMem {s : List α} (ho : o ∉ s) (hc : c ∉ s) : depth o c s = 0 := by
  rw [depth, List.count_eq_zero_of_not_mem ho, List.count_eq_zero_of_not_mem hc]
  rfl

theorem depth_open (h : o ≠ c) (s : List α) : depth o c (o :: s) = depth o c s + 1 := by
  rw [depth, depth, List.count_cons_self, List.count_cons_of_ne h]
  omega

theorem depth_close (h : o ≠ c) : depth o c [c] = -1 := by
  rw [depth, List.count_singleton_self, List.count_eq_zero_of_not_mem (by simp [h])]
  rfl

theorem Balanced.of_notMem {s : List α} (ho : o ∉ s) (hc : c ∉ s) : Balanced o c s where
  total := depth_of_notMem ho hc
  nonneg t ht := by
    have := depth_of_notMem (fun h => ho (ht.subset h)) fun h => hc (ht.subset h)
    exact Int.le_of_eq this.symm

theorem Balanced.append {s t : List α} (hs : Balanced o c s) (ht : Balanced o c t) :
    Balanced o c (s ++ t) where
  total := by rw [depth_append, hs.total, ht.total, Int.add_zero]
  nonneg u hu := by
    rcases prefix_append_cases hu with hu | ⟨v, rfl, hv⟩
    · exact hs.nonneg u hu
    · rw [depth_append, hs.total, Int.zero_add]
      exact ht.nonneg v hv

/-- A balanced text between brackets. -/
theorem Balanced.enclose (h : o ≠ c) {s : List α} (hs : Balanced o c s) :
    Balanced o c (o :: (s ++ [c])) where
  total := by rw [depth_open h, depth_append, hs.total, depth_close h]; rfl
  nonneg u hu := by
    rcases List.prefix_cons_iff.mp hu with rfl | ⟨v, rfl, hv⟩
    · exact Int.le_refl 0
    rw [depth_open h]
    rcases prefix_append_cases hv with hv | ⟨w, rfl, hw⟩
    · have := hs.nonneg v hv
      omega
    · rw [depth_append, hs.total]
      rcases List.prefix_cons_iff.mp hw with rfl | ⟨x, rfl, hx⟩
      · exact Int.le_of_lt Int.one_pos
      · rw [List.prefix_nil.mp hx, depth_close h]
        exact Int.le_refl 0

/-- A closing bracket too many. -/
theorem Balanced.not_append_close (h : o ≠ c) {s : List α} (hs : Balanced o c s) :
    ¬ Balanced o c (s ++ [c]) := by
  intro hbad
  have := hbad.total
  rw [depth_append, hs.total, depth_close h] at this
  cases this

end Brackets
