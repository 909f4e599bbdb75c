import Undervest.Strings
import Undervest.Lib.Unordered

/-!
# Sources

A loader is a shared library, and what it does is an input of the model.
`Delivery` lists what the three functions of a loader do during one load: the
addresses `getRecipient` returns, and where a function throws.

`Source.loadData` is the loop that reads them.  The recipients it has stored
when a function throws stay stored, so it returns the set in both cases.

`Delivery.collected` is the set of names that a load without a failure collects,
stated address by address (`loadData_returns`).
-/

namespace Undervest

open Unordered

/-- How a call ends. -/
inductive Completion where
  | returns
  | throws
deriving DecidableEq, Repr

/-- Access to a list of addresses. -/
structure Source where
  uri : Str
  loader : Str
deriving DecidableEq, Repr

/-- What a loader does during one load. -/
structure Delivery where
  /-- `openSource` does not throw. -/
  opens : Bool
  /-- The results of the successive calls of `getRecipient`, `none` when the call
  throws.  Further calls return an empty string. -/
  recipients : List (Option Str)
  /-- `closeSource` does not throw. -/
  closes : Bool
deriving DecidableEq, Repr

namespace Source

/-- The body of the loop: the name to store, unless the address is of another
domain. -/
def accept (domname recipient : Str) : Option Str :=
  match find (ch '@') recipient with
  | none => some (strtolower recipient)
  | some i =>
      if strcaseeq domname (recipient.drop (i + 1)) then some (strtolower (recipient.take i))
      else none

/-- The loop of `load_data`.  The first empty string ends it. -/
def loadLoop (domname : Str) :
    List (Option Str) → UnorderedSet Str → UnorderedSet Str × Completion
  | [], recipients => (recipients, .returns)
  | none :: _, recipients => (recipients, .throws)
  | some recipient :: rest, recipients =>
      if recipient.length = 0 then (recipients, .returns)
      else
        match accept domname recipient with
        | none => loadLoop domname rest recipients
        | some s => loadLoop domname rest (recipients.emplace s)

/-- `Source::load_data`. -/
def loadData (domname : Str) (delivery : Delivery) (recipients : UnorderedSet Str) :
    UnorderedSet Str × Completion :=
  if delivery.opens then
    let (recipients, completion) := loadLoop domname delivery.recipients recipients
    (recipients, if delivery.closes then completion else .throws)
  else (recipients, .throws)

end Source

namespace Delivery

/-- The addresses delivered before the first empty string or failing call. -/
def addresses (delivery : Delivery) : List Str :=
  (delivery.recipients.map fun r => r.getD []).takeWhile fun r => r ≠ []

/-- The names of the domain among the addresses delivered. -/
def collected (domname : Str) (delivery : Delivery) : Finset Str :=
  (delivery.addresses.filterMap (Source.accept domname)).toFinset

/-- A function of the loader throws. -/
def Fails (delivery : Delivery) : Prop :=
  delivery.opens = false ∨ none ∈ delivery.recipients.takeWhile (· ≠ some []) ∨
    delivery.closes = false

end Delivery

namespace Source

/-- An address stands for a name of a domain: it is the name, or the name is what
stands before the first `@` and the domain what stands behind it. -/
def Names (same : Str → Str → Bool) (domname address name : Str) : Prop :=
  ch '@' ∉ address ∧ name = address ∨
    ∃ dom, address = name ++ ch '@' :: dom ∧ ch '@' ∉ name ∧ same domname dom = true

/-- The loop stores the lower case of the names that an address stands for. -/
theorem accept_eq_some {domname address s : Str} :
    accept domname address = some s ↔
      ∃ name, Names strcaseeq domname address name ∧ s = strtolower name := by
  have hsplit : ∀ {name dom : Str}, ch '@' ∉ name →
      accept domname (name ++ ch '@' :: dom) =
        if strcaseeq domname dom then some (strtolower name) else none := by
    intro name dom hname
    simp [accept, find_append dom hname]
  constructor
  · intro h
    cases hf : find (ch '@') address with
    | none =>
        have hat : ch '@' ∉ address := fun hm => by
          simpa using List.findIdx?_eq_none_iff.mp hf _ hm
        simp only [accept, hf, Option.some.injEq] at h
        exact ⟨address, Or.inl ⟨hat, rfl⟩, h.symm⟩
    | some i =>
        obtain ⟨name, c, dom, rfl, rfl, hc, hname⟩ := split_of_findIdx? hf
        obtain rfl := beq_iff_eq.mp hc
        have hat : ch '@' ∉ name := fun hm => by simpa using hname _ hm
        rw [hsplit hat] at h
        split at h
        next hsame => exact ⟨name, Or.inr ⟨dom, rfl, hat, hsame⟩, (Option.some.inj h).symm⟩
        next => cases h
  · rintro ⟨name, ⟨hat, rfl⟩ | ⟨dom, rfl, hat, hsame⟩, rfl⟩
    · have hf : find (ch '@') name = none := by
        rw [find, List.findIdx?_eq_none_iff]
        intro c hc
        rw [beq_eq_false_iff_ne]
        rintro rfl
        exact hat hc
      simp [accept, hf]
    · rw [hsplit hat, if_pos hsame]

/-- The loop stores the names of the domain, also when a call throws in the end. -/
theorem loadLoop_toFinset (domname : Str) (calls : List (Option Str)) (r : UnorderedSet Str) :
    (loadLoop domname calls r).1.toFinset = r.toFinset ∪
      (((calls.map fun a => a.getD []).takeWhile fun a => a ≠ []).filterMap
        (accept domname)).toFinset := by
  induction calls generalizing r with
  | nil => simp [loadLoop]
  | cons call rest ih =>
      obtain _ | a := call
      · simp [loadLoop]
      by_cases ha : a = []
      · subst ha
        simp [loadLoop]
      · rw [loadLoop, if_neg (by simpa using ha)]
        rw [List.map_cons, Option.getD_some, List.takeWhile_cons_of_pos (by simpa using ha)]
        cases hacc : accept domname a with
        | none => rw [ih, List.filterMap_cons_none hacc]
        | some s =>
            rw [ih, List.filterMap_cons_some hacc, UnorderedSet.toFinset_emplace]
            ext x
            simp only [Finset.mem_union, Finset.mem_insert, List.mem_toFinset, List.mem_cons,
              or_left_comm, or_assoc]

/-- The loop throws at a call that throws before an empty string comes. -/
theorem loadLoop_throws (domname : Str) (calls : List (Option Str)) (r : UnorderedSet Str) :
    (loadLoop domname calls r).2 = .throws ↔ none ∈ calls.takeWhile (· ≠ some []) := by
  induction calls generalizing r with
  | nil => simp [loadLoop]
  | cons call rest ih =>
      obtain _ | a := call
      · simp [loadLoop]
      by_cases ha : a = []
      · subst ha
        simp [loadLoop]
      · rw [loadLoop, if_neg (by simpa using ha), List.takeWhile_cons_of_pos (by simpa using ha)]
        cases accept domname a with
        | none => simpa using ih r
        | some s => simpa using ih (r.emplace s)

/-- A load adds the names of the domain that it reads. -/
theorem loadData_toFinset (domname : Str) (delivery : Delivery) (r : UnorderedSet Str) :
    (loadData domname delivery r).1.toFinset =
      r.toFinset ∪ if delivery.opens then delivery.collected domname else ∅ := by
  cases ho : delivery.opens with
  | false => simp [loadData, ho]
  | true =>
      rw [loadData, ho]
      exact loadLoop_toFinset domname delivery.recipients r

/-- A load throws when a function of the loader does. -/
theorem loadData_throws (domname : Str) (delivery : Delivery) (r : UnorderedSet Str) :
    (loadData domname delivery r).2 = .throws ↔ delivery.Fails := by
  rw [Delivery.Fails, ← loadLoop_throws domname _ r, loadData]
  cases delivery.opens with
  | false => simp
  | true => cases delivery.closes <;> simp

/-- A load that does not throw adds the names of the domain. -/
theorem loadData_returns {domname : Str} {delivery : Delivery} {r r' : UnorderedSet Str}
    (h : loadData domname delivery r = (r', .returns)) :
    r'.toFinset = r.toFinset ∪ delivery.collected domname := by
  have hset := loadData_toFinset domname delivery r
  have hopens : delivery.opens = true := by
    by_contra ho
    have hthrows := (loadData_throws domname delivery r).mpr (Or.inl (by simpa using ho))
    rw [h] at hthrows
    cases hthrows
  rwa [h, if_pos hopens] at hset

end Source

end Undervest
