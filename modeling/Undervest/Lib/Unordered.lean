import Mathlib.Data.List.AList
import Mathlib.Data.List.Sort
import Mathlib.Data.Finset.Card
import Mathlib.Data.Multiset.UnionInter

/-!
# Unordered containers and what does not depend on their order

A hash container is iterated in an order its specification leaves open, and an
unstable sort leaves equivalent elements in any order.  `Orders` collects the
two as functions with the only laws a caller may use.  A statement over every
`Orders` holds on every implementation.  `Orders.canonical` is one of them,
and it evaluates.

`UnorderedSet` is a list without duplicates, in the order of the insertions.
`UnorderedMap` is an association list with one entry per key.  Both insert with
`emplace`, which leaves a present key alone.

`census` says whether a finite set is empty, has one element, or has several.
`Census.ofList` is the same for a list, and the two agree on a list without
duplicates, so a decision taken on a list through its census depends on the
elements only.
-/

namespace Unordered

/-! ## Unspecified orders -/

/-- The laws of a comparison a sort may be called with. -/
structure StrictWeak {α : Type} (lt : α → α → Bool) : Prop where
  asymm : ∀ a b, lt a b = true → lt b a = false
  negTrans : ∀ a b c, lt a b = false → lt b c = false → lt a c = false

/-- What the standard library may choose freely. -/
structure Orders where
  /-- The order a hash container with these insertions is iterated in. -/
  iterate : {α : Type} → List α → List α
  /-- The arrangement an unstable sort leaves. -/
  sort : {α : Type} → (α → α → Bool) → List α → List α
  iterate_perm : ∀ {α : Type} (l : List α), (iterate l).Perm l
  sort_perm : ∀ {α : Type} (lt : α → α → Bool) (l : List α), (sort lt l).Perm l
  sort_sorted : ∀ {α : Type} {lt : α → α → Bool} (l : List α), StrictWeak lt →
    (sort lt l).Pairwise fun a b => lt b a = false

/-- Iteration in insertion order and insertion sort. -/
def Orders.canonical : Orders where
  iterate l := l
  sort lt l := l.insertionSort fun a b => lt b a = false
  iterate_perm l := List.Perm.refl l
  sort_perm lt l := List.perm_insertionSort _ l
  sort_sorted {α lt} l h := by
    have : Std.Total fun a b : α => lt b a = false := ⟨fun a b => by
      cases hab : lt b a with
      | false => exact Or.inl rfl
      | true => exact Or.inr (h.asymm b a hab)⟩
    have : IsTrans α fun a b => lt b a = false :=
      ⟨fun a b c hab hbc => h.negTrans c b a hbc hab⟩
    exact List.pairwise_insertionSort _ l

theorem Orders.mem_iterate (o : Orders) {α : Type} {a : α} {l : List α} : a ∈ o.iterate l ↔ a ∈ l :=
  (o.iterate_perm l).mem_iff

/-! ## Sets -/

/-- A set, as the list of its insertions. -/
structure UnorderedSet (α : Type) where
  toList : List α
  nodup : toList.Nodup
deriving DecidableEq, Repr

namespace UnorderedSet

variable {α : Type} [DecidableEq α]

def empty : UnorderedSet α := ⟨[], List.nodup_nil⟩

/-- Insert an element if it is absent. -/
def emplace (s : UnorderedSet α) (a : α) : UnorderedSet α :=
  if h : a ∈ s.toList then s
  else ⟨s.toList ++ [a], List.nodup_append_comm.mp (List.nodup_cons.mpr ⟨h, s.nodup⟩)⟩

/-- The elements, as a finite set. -/
def toFinset (s : UnorderedSet α) : Finset α := s.toList.toFinset

@[simp] theorem mem_toFinset {s : UnorderedSet α} {a : α} : a ∈ s.toFinset ↔ a ∈ s.toList :=
  List.mem_toFinset

@[simp] theorem mem_emplace {s : UnorderedSet α} {a b : α} :
    a ∈ (s.emplace b).toList ↔ a ∈ s.toList ∨ a = b := by
  unfold emplace
  split
  next h => exact ⟨Or.inl, fun h' => h'.elim id fun e => e ▸ h⟩
  next h => simp

@[simp] theorem toFinset_emplace (s : UnorderedSet α) (a : α) :
    (s.emplace a).toFinset = insert a s.toFinset := by
  ext b
  simp [or_comm]

end UnorderedSet

/-! ## Maps -/

/-- A map, as an association list with one entry per key. -/
abbrev UnorderedMap (κ ν : Type) := AList fun _ : κ => ν

namespace UnorderedMap

variable {κ ν : Type} [DecidableEq κ]

/-- Insert an entry if its key is absent. -/
def emplace (m : UnorderedMap κ ν) (k : κ) (v : ν) : UnorderedMap κ ν :=
  if k ∈ m then m else m.insert k v

theorem mem_emplace {m : UnorderedMap κ ν} {k k' : κ} {v : ν} :
    k' ∈ emplace m k v ↔ k' ∈ m ∨ k' = k := by
  unfold emplace
  split
  next h => exact ⟨Or.inl, fun h' => h'.elim id fun e => e ▸ h⟩
  next h => rw [AList.mem_insert, or_comm]

theorem lookup_emplace_of_notMem {m : UnorderedMap κ ν} {k : κ} {v : ν} (h : k ∉ m) :
    (emplace m k v).lookup k = some v := by
  rw [emplace, if_neg h, AList.lookup_insert]

theorem lookup_emplace_of_ne {m : UnorderedMap κ ν} {k k' : κ} {v : ν} (h : k' ≠ k) :
    (emplace m k v).lookup k' = m.lookup k' := by
  unfold emplace
  split
  next => rfl
  next => exact AList.lookup_insert_ne h

theorem lookup_emplace_of_mem {m : UnorderedMap κ ν} {k k' : κ} {v : ν} (h : k ∈ m) :
    (emplace m k v).lookup k' = m.lookup k' := by
  rw [emplace, if_pos h]

/-- An entry that is inserted if its key is absent, and then updated in place. -/
theorem lookup_insert_emplace (m : UnorderedMap κ ν) (k k' : κ) (v : ν) (f : ν → ν) :
    ((emplace m k v).insert k (f (((emplace m k v).lookup k).getD v))).lookup k' =
      if k' = k then some (f ((m.lookup k).getD v)) else m.lookup k' := by
  have hself : ((emplace m k v).lookup k).getD v = (m.lookup k).getD v := by
    by_cases h : k ∈ m
    · rw [lookup_emplace_of_mem h]
    · rw [lookup_emplace_of_notMem h, AList.lookup_eq_none.mpr h]
      rfl
  split
  next h => rw [h, AList.lookup_insert, hself]
  next h => rw [AList.lookup_insert_ne h, lookup_emplace_of_ne h]

end UnorderedMap

/-! ## Decisions that do not depend on the order -/

/-- How many elements there are, up to two. -/
inductive Census (α : Type) where
  | none
  | one (a : α)
  | many
deriving DecidableEq, Repr

section Census

variable {α : Type}

/-- The census of a list. -/
def Census.ofList : List α → Census α
  | [] => .none
  | [a] => .one a
  | _ :: _ :: _ => .many

theorem Census.ofList_eq_none {l : List α} : Census.ofList l = .none ↔ l = [] := by
  match l with
  | [] => simp [ofList]
  | [_] => simp [ofList]
  | _ :: _ :: _ => simp [ofList]

theorem Census.ofList_eq_one {l : List α} {a : α} : Census.ofList l = .one a ↔ l = [a] := by
  match l with
  | [] => simp [ofList]
  | [_] => simp [ofList]
  | _ :: _ :: _ => simp [ofList]

/-- Reordering a list keeps its census. -/
theorem Census.ofList_perm {l l' : List α} (h : l.Perm l') :
    Census.ofList l = Census.ofList l' := by
  match l, h with
  | [], h => rw [h.nil_eq]
  | [a], h => rw [List.singleton_perm.mp h]
  | a :: b :: l, h =>
      match l', h.length_eq with
      | _ :: _ :: _, _ => rfl

/-- The census of a finite set. -/
noncomputable def census (s : Finset α) : Census α := Census.ofList s.toList

theorem census_toFinset [DecidableEq α] {l : List α} (h : l.Nodup) :
    census l.toFinset = Census.ofList l :=
  Census.ofList_perm (List.toFinset_toList h)

theorem census_eq_none {s : Finset α} : census s = .none ↔ s = ∅ := by
  rw [census, Census.ofList_eq_none, Finset.toList_eq_nil]

theorem census_eq_one {s : Finset α} {a : α} : census s = .one a ↔ s = {a} := by
  rw [census, Census.ofList_eq_one, Finset.toList_eq_singleton_iff]

end Census

/-! ## Common elements, group by group -/

/-- A group of equal elements contributes the smaller of its two sizes to the
overlap, when the rest has none of them. -/
theorem card_replicate_append_inter {α : Type} [DecidableEq α] [hb : BEq α] [LawfulBEq α] {a : α}
    {n : Nat} {l m : List α} (h : a ∉ l) :
    ((↑(List.replicate n a ++ l) : Multiset α) ∩ ↑m).card =
      min n (m.count a) + ((↑l : Multiset α) ∩ ↑m).card := by
  obtain rfl : hb = instBEqOfDecidableEq := lawful_beq_subsingleton _ _
  have hsplit : ((↑(List.replicate n a ++ l) : Multiset α) ∩ ↑m) =
      Multiset.replicate (min n (m.count a)) a + ((↑l : Multiset α) ∩ ↑m) := by
    ext b
    rw [Multiset.count_inter, Multiset.count_add, Multiset.count_inter, Multiset.count_replicate]
    simp only [Multiset.coe_count, List.count_append, List.count_replicate]
    by_cases hb : a = b
    · subst hb
      simp [List.count_eq_zero_of_not_mem h]
    · simp [hb]
  rw [hsplit, Multiset.card_add, Multiset.card_replicate]

end Unordered
