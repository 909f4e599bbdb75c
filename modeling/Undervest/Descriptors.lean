import Mathlib.Data.List.Range
import Undervest.Strings

/-!
# The descriptors of the process

`Daemon::close_all` closes every descriptor, perhaps apart from the third one, and opens
`/dev/null` until the first three are taken.  `open` and `dup` give the lowest descriptor
that is free, unless the table is full.

A bucket too many is closed again, and where the third descriptor was kept without being
open it becomes a bucket as well (`closeAll_eq`).
-/

namespace Undervest

/-! ## The table -/

/-- What a descriptor is open to. -/
inductive OpenFile where
  | inherited (file : Nat)
  | null
  | log
  | lock (path : Str) (locked : Bool)
  | socket
deriving DecidableEq, Repr

structure Descriptors where
  /-- `getdtablesize`. -/
  limit : Nat
  file : Nat → Option OpenFile

namespace Descriptors

def close (t : Descriptors) (fd : Nat) : Descriptors :=
  { t with file := fun n => if n = fd then none else t.file n }

/-- The lowest descriptor that is free. -/
def lowest (t : Descriptors) : Option Nat :=
  (List.range t.limit).find? fun n => (t.file n).isNone

/-- A descriptor for a file, unless the table is full. -/
def opening (t : Descriptors) (f : OpenFile) : Descriptors × Option Nat :=
  match t.lowest with
  | none => (t, none)
  | some fd => ({ t with file := fun n => if n = fd then some f else t.file n }, some fd)

def dup (t : Descriptors) (fd : Nat) : Descriptors × Option Nat :=
  match t.file fd with
  | none => (t, none)
  | some f => t.opening f

/-- The `for` loop of `close_all`, with what `fd` is behind it.  It does not go below zero. -/
def closeAbove : Nat → Descriptors → Option (Descriptors × Nat)
  | 0, _ => none
  | fd + 1, t => if 2 < fd then closeAbove fd (t.close fd) else some (t, fd)

/-- `while (fd--)`. -/
def closeBelow : Nat → Descriptors → Descriptors
  | 0, t => t
  | fd + 1, t => closeBelow fd (t.close fd)

/-- The loop that opens bit buckets, with a bound on its turns. -/
def bitBuckets : Nat → Descriptors × Option Nat → Option Descriptors
  | 0, _ => none
  | _ + 1, (t, none) => some t
  | turns + 1, (t, some fd) =>
      if 2 ≤ fd then some (if 2 < fd then t.close fd else t) else bitBuckets turns (t.dup fd)

/-- `Daemon::close_all`, where `/dev/null` may be opened or not. -/
def closeAll (closeStderr logToStderr nullOpens : Bool) (t : Descriptors) :
    Option Descriptors := do
  let (t, fd) ← closeAbove t.limit t
  let t := if closeStderr && !logToStderr then t.close fd else t
  let t := closeBelow fd t
  bitBuckets 3 (if nullOpens then t.opening .null else (t, none))

/-! ## What `close_all` leaves -/

variable {t : Descriptors}

theorem lowest_eq_some {fd : Nat} :
    t.lowest = some fd ↔ fd < t.limit ∧ t.file fd = none ∧ ∀ n < fd, t.file n ≠ none := by
  rw [lowest, List.find?_range_eq_some, List.mem_range, Option.isNone_iff_eq_none]
  simp only [Bool.not_eq_true', Option.isNone_eq_false_iff, Option.isSome_iff_ne_none]
  exact ⟨fun ⟨hfree, hlt, hused⟩ => ⟨hlt, hfree, hused⟩,
    fun ⟨hlt, hfree, hused⟩ => ⟨hfree, hlt, hused⟩⟩

theorem lowest_eq_none (h : ∀ n < t.limit, t.file n ≠ none) : t.lowest = none := by
  rw [lowest, List.find?_eq_none]
  intro n hn
  rw [Option.isNone_iff_eq_none]
  exact h n (List.mem_range.mp hn)

theorem opening_eq {fd : Nat} (h : t.lowest = some fd) (f : OpenFile) :
    t.opening f = ({ t with file := fun n => if n = fd then some f else t.file n }, some fd) := by
  rw [opening, h]

theorem closeAbove_eq {n : Nat} (hn : 3 ≤ n) (t : Descriptors) :
    closeAbove n t =
      some ({ t with file := fun k => if 3 ≤ k ∧ k < n then none else t.file k }, 2) := by
  induction n, hn using Nat.le_induction generalizing t with
  | base =>
      have hfile : (fun k => if 3 ≤ k ∧ k < 3 then none else t.file k) = t.file := by
        funext k
        exact if_neg (by omega)
      rw [hfile]
      rfl
  | succ n hn ih =>
      rw [closeAbove, if_pos (by omega), ih]
      congr 3
      funext k
      by_cases hk : k = n
      · rw [if_neg (by omega), if_pos (by omega)]
        exact if_pos hk
      · by_cases hk' : 3 ≤ k ∧ k < n
        · rw [if_pos hk', if_pos (by omega)]
        · rw [if_neg hk', if_neg (by omega)]
          exact if_neg hk

theorem dup_eq {fd fd' : Nat} {f : OpenFile} (hfd : t.file fd = some f)
    (h : t.lowest = some fd') :
    t.dup fd = (⟨t.limit, fun n => if n = fd' then some f else t.file n⟩, some fd') := by
  rw [dup, hfd]
  exact opening_eq h f

theorem dup_full {fd : Nat} (h : t.lowest = none) : t.dup fd = (t, none) := by
  rw [dup]
  split
  next => rfl
  next f _ => rw [opening, h]

/-- Two buckets come first, and a third one where nothing is left. -/
theorem bitBuckets_eq (hlimit : 3 ≤ t.limit) (h₀ : t.file 0 = none) (h₁ : t.file 1 = none)
    (hfree : ∀ n, 3 ≤ n → n < t.limit → t.file n = none) :
    bitBuckets 3 (t.opening .null) = some ⟨t.limit, fun n =>
      if n < 2 then some .null
      else if n = 2 then some ((t.file 2).getD .null)
      else t.file n⟩ := by
  have hlow₀ : t.lowest = some 0 := lowest_eq_some.mpr ⟨by omega, h₀, by simp⟩
  rw [opening_eq hlow₀, bitBuckets, if_neg (by decide)]
  have hlow₁ : lowest ⟨t.limit, fun n => if n = 0 then some .null else t.file n⟩ = some 1 :=
    lowest_eq_some.mpr ⟨Nat.lt_of_lt_of_le (by decide) hlimit, h₁, fun n hn => by
      simp [Nat.lt_one_iff.mp hn]⟩
  rw [dup_eq (f := .null) rfl hlow₁, bitBuckets, if_neg (by decide)]
  -- the two buckets
  obtain ⟨t', ht'⟩ : ∃ t' : Descriptors, t' = ⟨t.limit, fun n =>
    if n = 1 then some .null else if n = 0 then some .null else t.file n⟩ := ⟨_, rfl⟩
  have hlimit' : t'.limit = t.limit := by rw [ht']
  have hfile' : ∀ n, t'.file n = if n < 2 then some .null else t.file n := by
    intro n
    rw [ht']
    grind
  rw [← ht']
  have hnull : t'.file 1 = some .null := hfile' 1
  cases h₂ : t.file 2 with
  | none =>
      have hlow : t'.lowest = some 2 := lowest_eq_some.mpr
        ⟨hlimit' ▸ hlimit, (hfile' 2).trans h₂, fun n hn => by simp [hfile', hn]⟩
      rw [dup_eq hnull hlow, bitBuckets, if_pos (by decide), if_neg (by decide), hlimit']
      congr 2
      funext n
      rw [hfile']
      grind
  | some f =>
      have hused : ∀ n < 3, t'.file n ≠ none := fun n hn => by
        rw [hfile']
        grind
      by_cases hfull : t.limit = 3
      · -- there is no descriptor for a third one
        have hlow : t'.lowest = none := lowest_eq_none fun n hn => hused n (by omega)
        rw [dup_full hlow, bitBuckets]
        change some (Descriptors.mk t'.limit t'.file) = _
        rw [hlimit']
        congr 2
        funext n
        rw [hfile']
        grind
      · have hlow : t'.lowest = some 3 := lowest_eq_some.mpr
          ⟨by omega, (hfile' 3).trans (hfree 3 (by decide) (by omega)), hused⟩
        rw [dup_eq hnull hlow, bitBuckets, if_pos (by decide), if_pos (by decide), close, hlimit']
        congr 2
        funext n
        have h₃ := hfree 3 (by decide) (by omega)
        dsimp only
        rw [hfile']
        grind

/-- What is open behind `close_all`: two or three buckets, with the third descriptor as it
was where it is kept, and what is behind the table. -/
def behindCloseAll (closed nullOpens : Bool) (t : Descriptors) (n : Nat) : Option OpenFile :=
  if n < 2 then if nullOpens then some .null else none
  else if n = 2 then
    let kept := if closed then none else t.file 2
    if nullOpens then some (kept.getD .null) else kept
  else if n < t.limit then none
  else t.file n

theorem behindCloseAll_free {n : Nat} (hn : 3 ≤ n) (hlt : n < t.limit) (closed nullOpens : Bool) :
    t.behindCloseAll closed nullOpens n = none := by
  rw [behindCloseAll, if_neg (by omega), if_neg (by omega), if_pos hlt]

theorem behindCloseAll_above {n : Nat} (hlimit : 3 ≤ t.limit) (hn : t.limit ≤ n)
    (closed nullOpens : Bool) : t.behindCloseAll closed nullOpens n = t.file n := by
  rw [behindCloseAll, if_neg (by omega), if_neg (by omega), if_neg (by omega)]

theorem closeAll_eq (hlimit : 3 ≤ t.limit) (closeStderr logToStderr nullOpens : Bool) :
    t.closeAll closeStderr logToStderr nullOpens =
      some ⟨t.limit, t.behindCloseAll (closeStderr && !logToStderr) nullOpens⟩ := by
  have hclosed : closeBelow 2 (if (closeStderr && !logToStderr) = true then
      close ⟨t.limit, fun k => if 3 ≤ k ∧ k < t.limit then none else t.file k⟩ 2
      else ⟨t.limit, fun k => if 3 ≤ k ∧ k < t.limit then none else t.file k⟩) =
        ⟨t.limit, t.behindCloseAll (closeStderr && !logToStderr) false⟩ := by
    cases closeStderr && !logToStderr <;> simp only [closeBelow, close] <;> congr 1 <;>
      funext n <;> grind [behindCloseAll]
  rw [closeAll, closeAbove_eq hlimit]
  simp only [Option.bind_eq_bind, Option.bind_some]
  rw [hclosed]
  cases nullOpens with
  | false => rfl
  | true =>
      have hbuckets := bitBuckets_eq
        (t := ⟨t.limit, t.behindCloseAll (closeStderr && !logToStderr) false⟩) hlimit rfl rfl
        fun n hn hlt => behindCloseAll_free (t := t) hn hlt _ _
      rw [if_pos rfl, hbuckets]
      congr 2
      funext n
      by_cases hn : n < 2
      · rw [behindCloseAll, if_pos hn, if_pos hn, if_pos rfl]
      · by_cases hn' : n = 2
        · rw [behindCloseAll, if_neg hn, if_neg hn, if_pos hn', if_pos hn']
          rfl
        · rw [behindCloseAll, if_neg hn, if_neg hn, if_neg hn', if_neg hn']
          exact (if_neg hn).trans (if_neg hn')

end Descriptors

end Undervest
