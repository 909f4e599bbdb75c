import Mathlib.Data.List.Infix
import Mathlib.Data.List.Count

/-!
# Pieces and separators

`Pieces sep P A n s` says that the text `s` is a list of pieces with a separator
between any two of them.  Each piece is a `P` and counts once, and the last one
may be an `A` instead, which counts twice; `n` is the sum.

When no piece has the separator, a text starts with its first piece
(`Pieces.cons_iff`), so a reader that goes from separator to separator finds the
pieces.  The sum is then a number of the text (`Pieces.count`).
-/

variable {α : Type} {sep : α} {P A P' A' : List α → Prop} {n : Nat} {s t g : List α}

inductive Pieces (sep : α) (P A : List α → Prop) : Nat → List α → Prop where
  | last {s : List α} : P s → Pieces sep P A 1 s
  | double {s : List α} : A s → Pieces sep P A 2 s
  | cons {n : Nat} {s t : List α} : P s → Pieces sep P A n t →
      Pieces sep P A (n + 1) (s ++ sep :: t)

namespace Pieces

/-- No piece has the separator. -/
structure Legal (sep : α) (P A : List α → Prop) : Prop where
  piece : ∀ s, P s → s ≠ [] ∧ sep ∉ s
  double : ∀ s, A s → s ≠ [] ∧ sep ∉ s

theorem pos (h : Pieces sep P A n s) : 0 < n := by
  cases h <;> omega

/-- Pieces of another kind. -/
theorem mono (h : Pieces sep P A n s) (hP : ∀ t, t <:+: s → P t → P' t)
    (hA : ∀ t, t <:+: s → A t → A' t) : Pieces sep P' A' n s := by
  induction h with
  | last h => exact .last (hP _ (List.infix_refl _) h)
  | double h => exact .double (hA _ (List.infix_refl _) h)
  | @cons n s t h _ ih =>
      have hs : s <:+: s ++ sep :: t := (List.prefix_append ..).isInfix
      have ht : t <:+: s ++ sep :: t :=
        ((List.suffix_cons ..).trans (List.suffix_append ..)).isInfix
      exact .cons (hP s hs h) (ih (fun u hu => hP u (hu.trans ht)) fun u hu => hA u (hu.trans ht))

/-! ## Ends -/

/-- A text starts with its first piece. -/
theorem first (h : Pieces sep P A n s) : ∃ t u, s = t ++ u ∧ (P t ∨ A t) := by
  cases h with
  | last h => exact ⟨s, [], by simp, Or.inl h⟩
  | double h => exact ⟨s, [], by simp, Or.inr h⟩
  | cons h _ => exact ⟨_, _, rfl, Or.inl h⟩

theorem head_ne (hl : Legal sep P A) (h : Pieces sep P A n s) : ∃ c t, s = c :: t ∧ c ≠ sep := by
  have hpiece : ∀ {s : List α}, s ≠ [] ∧ sep ∉ s → ∃ c t, s = c :: t ∧ c ≠ sep := by
    rintro s ⟨hne, hsep⟩
    obtain ⟨c, t, rfl⟩ := List.exists_cons_of_ne_nil hne
    exact ⟨c, t, rfl, fun hc => hsep (hc ▸ List.mem_cons_self ..)⟩
  cases h with
  | last h => exact hpiece (hl.piece _ h)
  | double h => exact hpiece (hl.double _ h)
  | cons h _ =>
      obtain ⟨c, t, rfl, hc⟩ := hpiece (hl.piece _ h)
      exact ⟨c, _, rfl, hc⟩

theorem ne_nil (hl : Legal sep P A) (h : Pieces sep P A n s) : s ≠ [] := by
  obtain ⟨c, t, rfl, -⟩ := h.head_ne hl
  exact List.cons_ne_nil c t

theorem last_ne (hl : Legal sep P A) (h : Pieces sep P A n s) : ∃ t c, s = t ++ [c] ∧ c ≠ sep := by
  have hpiece : ∀ {s : List α}, s ≠ [] ∧ sep ∉ s → ∃ t c, s = t ++ [c] ∧ c ≠ sep := by
    rintro s ⟨hne, hsep⟩
    refine ⟨s.dropLast, s.getLast hne, (List.dropLast_append_getLast hne).symm, fun hc => hsep ?_⟩
    exact hc ▸ List.getLast_mem hne
  induction h with
  | last h => exact hpiece (hl.piece _ h)
  | double h => exact hpiece (hl.double _ h)
  | @cons n s t _ _ ih =>
      obtain ⟨u, c, rfl, hc⟩ := ih
      exact ⟨s ++ sep :: u, c, by simp, hc⟩

/-! ## Inside -/

/-- A text without the separator inside a text with one stands on one side of it. -/
theorem infix_of_append {x y : List α} (h : g <:+: x ++ sep :: y) (hg : sep ∉ g) :
    g <:+: x ∨ g <:+: y := by
  obtain ⟨a, b, he⟩ := h
  rw [List.append_assoc] at he
  rcases List.append_eq_append_iff.mp he with ⟨c, rfl, hc⟩ | ⟨c, rfl, hc⟩
  · rcases List.append_eq_append_iff.mp hc with ⟨d, rfl, -⟩ | ⟨d, rfl, hd⟩
    · exact Or.inl ⟨a, d, by simp⟩
    · cases d with
      | nil => exact Or.inl ⟨a, [], by simp⟩
      | cons b' d =>
          obtain rfl := (List.cons.inj hd).1
          exact absurd (by simp) hg
  · cases c with
    | nil =>
        cases g with
        | nil => exact Or.inl List.nil_infix
        | cons b' g =>
            obtain rfl := (List.cons.inj hc).1
            exact absurd (by simp) hg
    | cons b' c => exact Or.inr ⟨c, b, by rw [List.append_assoc]; exact (List.cons.inj hc).2.symm⟩

/-- It lies inside a piece. -/
theorem exists_piece (h : Pieces sep P A n s) (hi : g <:+: s) (hg : sep ∉ g) :
    ∃ t, (P t ∨ A t) ∧ g <:+: t := by
  induction h with
  | last h => exact ⟨_, Or.inl h, hi⟩
  | double h => exact ⟨_, Or.inr h, hi⟩
  | @cons n s t h _ ih =>
      cases infix_of_append hi hg with
      | inl hi => exact ⟨s, Or.inl h, hi⟩
      | inr hi => exact ih hi

theorem exists_mem {c : α} (h : Pieces sep P A n s) (hc : c ∈ s) (hne : c ≠ sep) :
    ∃ t, (P t ∨ A t) ∧ c ∈ t := by
  obtain ⟨a, b, rfl⟩ := List.append_of_mem hc
  obtain ⟨t, ht, hi⟩ := h.exists_piece (g := [c]) ⟨a, b, by simp⟩ (by simpa using hne.symm)
  exact ⟨t, ht, hi.mem (by simp)⟩

/-! ## Separators -/

/-- Pieces none of which counts twice. -/
abbrev Single (sep : α) (P : List α → Prop) : Nat → List α → Prop := Pieces sep P fun _ => False

/-- Pieces, or none. -/
def Any (sep : α) (P A : List α → Prop) (n : Nat) (s : List α) : Prop :=
  n = 0 ∧ s = [] ∨ Pieces sep P A n s

/-- A text falls apart at each of its separators. -/
theorem split (hl : Legal sep P A) {x y : List α} (h : Pieces sep P A n (x ++ sep :: y)) :
    ∃ k m, Single sep P k x ∧ Pieces sep P A m y ∧ n = k + m := by
  generalize he : x ++ sep :: y = s at h
  induction h generalizing x with
  | last h => exact absurd (he ▸ by simp) (hl.piece _ h).2
  | double h => exact absurd (he ▸ by simp) (hl.double _ h).2
  | @cons n s t h ht ih =>
      rcases List.append_eq_append_iff.mp he with ⟨c, rfl, hc⟩ | ⟨c, rfl, hc⟩
      · cases c with
        | nil =>
            obtain rfl := (List.cons.inj hc).2
            exact ⟨1, n, .last (by simpa using h), ht, Nat.add_comm ..⟩
        | cons b c =>
            obtain rfl := (List.cons.inj hc).1
            exact absurd (by simp) (hl.piece _ h).2
      · cases c with
        | nil =>
            obtain rfl := (List.cons.inj hc).2
            exact ⟨1, n, .last (by simpa using h), ht, Nat.add_comm ..⟩
        | cons b c =>
            obtain ⟨rfl, rfl⟩ := List.cons.inj hc
            obtain ⟨k, m, hk, hm, rfl⟩ := ih rfl
            exact ⟨k + 1, m, .cons h hk, hm, by omega⟩

/-- A text without the separator is one piece. -/
theorem notMem_iff (hs : sep ∉ s) : Pieces sep P A n s ↔ n = 1 ∧ P s ∨ n = 2 ∧ A s := by
  constructor
  · intro h
    cases h with
    | last h => exact Or.inl ⟨rfl, h⟩
    | double h => exact Or.inr ⟨rfl, h⟩
    | cons => exact absurd (by simp) hs
  · rintro (⟨rfl, h⟩ | ⟨rfl, h⟩)
    · exact .last h
    · exact .double h

/-- The piece in front of the first separator. -/
theorem cons_iff (hl : Legal sep P A) (hg : sep ∉ g) :
    Pieces sep P A n (g ++ sep :: t) ↔ ∃ m, n = m + 1 ∧ P g ∧ Pieces sep P A m t := by
  constructor
  · intro h
    obtain ⟨k, m, hk, hm, rfl⟩ := h.split hl
    rcases (notMem_iff hg).mp hk with ⟨rfl, hp⟩ | ⟨-, hf⟩
    · exact ⟨m, Nat.add_comm .., hp, hm⟩
    · exact hf.elim
  · rintro ⟨m, rfl, hp, hm⟩
    exact .cons hp hm

/-- No two separators follow each other. -/
theorem no_double (hl : Legal sep P A) {x y : List α} :
    ¬ Pieces sep P A n (x ++ sep :: sep :: y) := by
  intro h
  obtain ⟨k, m, -, hm, -⟩ := h.split hl
  obtain ⟨c, t, he, hc⟩ := hm.head_ne hl
  exact hc (List.cons.inj he).1.symm

/-- What stands behind the last of two separators, or of one. -/
theorem behind_last {x y a : List α} (he : x ++ sep :: y = a ++ sep :: g) (hg : sep ∉ g) :
    y = g ∨ ∃ z, y = z ++ sep :: g := by
  rcases List.append_eq_append_iff.mp he with ⟨c, rfl, hc⟩ | ⟨c, rfl, hc⟩
  · cases c with
    | nil => exact Or.inl (List.cons.inj hc).2
    | cons b c => exact Or.inr ⟨c, (List.cons.inj hc).2⟩
  · cases c with
    | nil => exact Or.inl (List.cons.inj hc).2.symm
    | cons b c => exact absurd ((List.cons.inj hc).2 ▸ by simp) hg

/-- At most the last piece counts twice. -/
theorem single_or (h : Pieces sep P A n s) :
    Single sep P n s ∨
      ∃ a d, sep :: s = a ++ sep :: d ∧ A d ∧ ∀ A', A' d → Pieces sep P A' n s := by
  induction h with
  | last h => exact Or.inl (.last h)
  | double h => exact Or.inr ⟨[], _, rfl, h, fun _ => .double⟩
  | @cons n s t h _ ih =>
      rcases ih with ht | ⟨a, d, he, hd, ht⟩
      · exact Or.inl (.cons h ht)
      · exact Or.inr ⟨sep :: s ++ a, d, by simp [he], hd, fun A' hA => .cons h (ht A' hA)⟩

/-- The pieces are the parts between the separators. -/
theorem of_splitOn [DecidableEq α] (hl : Legal sep P fun _ => False) (h : Single sep P n s) :
    ∀ t ∈ s.splitOn sep, P t := by
  induction h with
  | last h =>
      rw [List.splitOn_eq_singleton (hl.piece _ h).2, List.forall_mem_singleton]
      exact h
  | double h => exact h.elim
  | cons h _ ih =>
      rw [List.splitOn_append_cons_self_of_not_mem (hl.piece _ h).2, List.forall_mem_cons]
      exact ⟨h, ih⟩

theorem of_forall_splitOn [DecidableEq α] (hl : Legal sep P fun _ => False)
    (h : Single sep P n s) (h' : ∀ t ∈ s.splitOn sep, P' t) : Single sep P' n s := by
  induction h with
  | last h =>
      rw [List.splitOn_eq_singleton (hl.piece _ h).2, List.forall_mem_singleton] at h'
      exact .last h'
  | double h => exact h.elim
  | cons h _ ih =>
      rw [List.splitOn_append_cons_self_of_not_mem (hl.piece _ h).2, List.forall_mem_cons] at h'
      exact .cons h'.1 (ih h'.2)

/-- The sum, when a mark tells the pieces that count twice from the others. -/
theorem count [DecidableEq α] (hl : Legal sep P A) {mark : α} (hmark : mark ≠ sep)
    (hP : ∀ s, P s → mark ∉ s) (hA : ∀ s, A s → mark ∈ s) (h : Pieces sep P A n s) :
    n = s.count sep + 1 + if mark ∈ s then 1 else 0 := by
  induction h with
  | last h => rw [List.count_eq_zero.mpr (hl.piece _ h).2, if_neg (hP _ h)]
  | double h => rw [List.count_eq_zero.mpr (hl.double _ h).2, if_pos (hA _ h)]
  | @cons n s t h _ ih =>
      have hmem : mark ∈ s ++ sep :: t ↔ mark ∈ t := by
        simp [hP _ h, hmark]
      rw [ih, List.count_append, List.count_eq_zero.mpr (hl.piece _ h).2, List.count_cons_self]
      simp only [hmem]
      omega

end Pieces
