import Undervest.Lib.Unordered

/-!
# Heaps

A priority queue keeps its elements in a list that is a heap: no element comes
before its parent, where the parent of the element at `i` is the one at
`(i - 1) / 2`.  The comparison is the one of the standard library, in which the
first element is a greatest one.

Which heap a `push` or a `pop` leaves is not specified.  `HeapAlgorithms`
collects the two as functions with the laws a caller may use.  A statement over
every `HeapAlgorithms` holds on every implementation.
`HeapAlgorithms.canonical` is one of them, and it evaluates.

A comparison may depend on a state.  `IsHeap.congr` says that a heap stays a heap
as long as the comparisons among its own elements stay.
-/

namespace Heap

open Unordered

/-- No element comes before its parent. -/
def IsHeap {α : Type} (comp : α → α → Bool) (l : List α) : Prop :=
  ∀ i (h : i < l.length), 0 < i → comp l[(i - 1) / 2] l[i] = false

section IsHeap

variable {α : Type} {comp comp' : α → α → Bool}

theorem isHeap_nil : IsHeap comp [] := by
  intro i h
  exact absurd h (Nat.not_lt_zero i)

/-- A heap depends on the comparisons among its elements only. -/
theorem IsHeap.congr {l : List α} (h : IsHeap comp l)
    (hc : ∀ a ∈ l, ∀ b ∈ l, comp' a b = comp a b) : IsHeap comp' l := by
  intro i hi h0
  rw [hc _ (List.getElem_mem _) _ (List.getElem_mem _)]
  exact h i hi h0

/-- A comparison that holds in one direction fails in the other, so it fails
between an element and itself. -/
theorem irrefl_of_strictWeak (hs : StrictWeak comp) (a : α) : comp a a = false := by
  cases h : comp a a with
  | false => rfl
  | true => rw [← h, hs.asymm a a h]

/-- The first element of a heap is not less than any element. -/
theorem IsHeap.top {a : α} {l : List α} (h : IsHeap comp (a :: l)) (hs : StrictWeak comp) :
    ∀ b ∈ a :: l, comp a b = false := by
  have hidx : ∀ i (hi : i < (a :: l).length), comp a (a :: l)[i] = false := by
    intro i
    induction i using Nat.strongRecOn with
    | ind i ih =>
        intro hi
        cases i with
        | zero => exact irrefl_of_strictWeak hs a
        | succ i =>
            -- the parent of `i + 1`
            have hp : (i + 1 - 1) / 2 < i + 1 := by omega
            exact hs.negTrans _ _ _ (ih _ hp (hp.trans hi)) (h (i + 1) hi (Nat.succ_pos i))
  intro b hb
  obtain ⟨i, hi, rfl⟩ := List.getElem_of_mem hb
  exact hidx i hi

/-- A sorted list is a heap. -/
theorem isHeap_of_pairwise {l : List α} (h : l.Pairwise fun a b => comp a b = false) :
    IsHeap comp l := by
  intro i hi h0
  exact List.pairwise_iff_getElem.mp h _ _ (by omega) hi (by omega)

end IsHeap

/-- What a priority queue may choose freely. -/
structure HeapAlgorithms where
  /-- Add an element. -/
  push : {α : Type} → (α → α → Bool) → List α → α → List α
  /-- Remove the first element. -/
  pop : {α : Type} → (α → α → Bool) → List α → List α
  push_perm : ∀ {α : Type} (comp : α → α → Bool) (l : List α) (a : α),
    (push comp l a).Perm (a :: l)
  pop_perm : ∀ {α : Type} (comp : α → α → Bool) (l : List α), (pop comp l).Perm l.tail
  push_isHeap : ∀ {α : Type} {comp : α → α → Bool} {l : List α} (a : α), StrictWeak comp →
    IsHeap comp l → IsHeap comp (push comp l a)
  pop_isHeap : ∀ {α : Type} {comp : α → α → Bool} {l : List α}, StrictWeak comp →
    IsHeap comp l → IsHeap comp (pop comp l)

/-- Sorting after each change. -/
def HeapAlgorithms.canonical : HeapAlgorithms where
  push comp l a := Orders.canonical.sort (fun x y => comp y x) (a :: l)
  pop comp l := Orders.canonical.sort (fun x y => comp y x) l.tail
  push_perm _ _ _ := Orders.canonical.sort_perm _ _
  pop_perm _ _ := Orders.canonical.sort_perm _ _
  push_isHeap _ hs _ := isHeap_of_pairwise (Orders.canonical.sort_sorted _
    ⟨fun x y h => hs.asymm y x h, fun x y z hxy hyz => hs.negTrans z y x hyz hxy⟩)
  pop_isHeap hs _ := isHeap_of_pairwise (Orders.canonical.sort_sorted _
    ⟨fun x y h => hs.asymm y x h, fun x y z hxy hyz => hs.negTrans z y x hyz hxy⟩)

end Heap
