import Undervest.Lib.Transition
import Mathlib.Data.Set.Basic

/-!
# User and group ids

A process has a real, an effective and a saved user id, three such group ids, and
supplementary groups.  With the effective user id 0 it sets them as it likes.  Without it a
call only moves ids among those the process has, and leaves its groups alone.

So a process that has not the user id 0 keeps to its ids in every run of calls
(`Confined.run`), and ids that are all the same stay what they are
(`within_singleton`).
-/

namespace UserIds

open Transition

/-! ## Three ids -/

structure Ids where
  real : Nat
  effective : Nat
  saved : Nat
deriving DecidableEq, Repr

/-- A call that sets ids.  One that is not given stays. -/
inductive Change where
  | set (x : Nat)
  | setRe (real effective : Option Nat)
  | setRes (real effective saved : Option Nat)
deriving DecidableEq, Repr

namespace Ids

/-- One id three times. -/
def all (x : Nat) : Ids := ⟨x, x, x⟩

/-- It is one of the three, if it is given. -/
def Has (i : Ids) (x : Option Nat) : Prop :=
  ∀ y ∈ x, y = i.real ∨ y = i.effective ∨ y = i.saved

instance (i : Ids) (x : Option Nat) : Decidable (i.Has x) :=
  inferInstanceAs (Decidable (∀ y ∈ x, y = i.real ∨ y = i.effective ∨ y = i.saved))

def Within (i : Ids) (S : Set Nat) : Prop := i.real ∈ S ∧ i.effective ∈ S ∧ i.saved ∈ S

/-- What a call leaves, unless it is not permitted. -/
def change (privileged : Bool) (i : Ids) : Change → Option Ids
  | .set x =>
      if privileged then some (all x)
      else if x = i.real ∨ x = i.saved then some { i with effective := x }
      else none
  | .setRe real effective =>
      if privileged ∨ (∀ y ∈ real, y = i.real ∨ y = i.effective) ∧ i.Has effective then
        some {
          real := real.getD i.real
          effective := effective.getD i.effective
          saved :=
            if real.isSome ∨ effective.any (· != i.real) then effective.getD i.effective
            else i.saved }
      else none
  | .setRes real effective saved =>
      if privileged ∨ i.Has real ∧ i.Has effective ∧ i.Has saved then
        some ⟨real.getD i.real, effective.getD i.effective, saved.getD i.saved⟩
      else none

theorem within_singleton {i : Ids} {x : Nat} : i.Within {x} ↔ i = all x := by
  constructor
  · intro h
    obtain ⟨real, effective, saved⟩ := i
    obtain ⟨rfl, rfl, rfl⟩ : real = x ∧ effective = x ∧ saved = x := h
    rfl
  · rintro rfl
    exact ⟨rfl, rfl, rfl⟩

variable {i : Ids} {S : Set Nat}

theorem Within.getD (h : i.Within S) {x : Option Nat} (hx : i.Has x) {d : Nat} (hd : d ∈ S) :
    x.getD d ∈ S := by
  cases x with
  | none => exact hd
  | some y =>
      rcases hx y rfl with rfl | rfl | rfl
      · exact h.1
      · exact h.2.1
      · exact h.2.2

/-- Without privileges no id is new. -/
theorem Within.change (h : i.Within S) {c : Change} {i' : Ids} (hc : i.change false c = some i') :
    i'.Within S := by
  cases c with
  | set x =>
      simp only [Ids.change, Bool.false_eq_true, if_false] at hc
      split at hc
      next hx =>
          obtain rfl := Option.some.inj hc
          refine ⟨h.1, ?_, h.2.2⟩
          rcases hx with rfl | rfl
          · exact h.1
          · exact h.2.2
      next => cases hc
  | setRe real effective =>
      simp only [Ids.change, Bool.false_eq_true, false_or] at hc
      split at hc
      next hx =>
          obtain rfl := Option.some.inj hc
          have hreal : i.Has real := fun y hy => (hx.1 y hy).imp_right Or.inl
          have heffective := h.getD hx.2 h.2.1
          refine ⟨h.getD hreal h.1, heffective, ?_⟩
          dsimp only
          split
          next => exact heffective
          next => exact h.2.2
      next => cases hc
  | setRes real effective saved =>
      simp only [Ids.change, Bool.false_eq_true, false_or] at hc
      split at hc
      next hx =>
          obtain rfl := Option.some.inj hc
          exact ⟨h.getD hx.1 h.1, h.getD hx.2.1 h.2.1, h.getD hx.2.2 h.2.2⟩
      next => cases hc

end Ids

/-! ## Processes -/

structure Credentials where
  user : Ids
  group : Ids
  /-- The supplementary groups. -/
  groups : List Nat
deriving DecidableEq, Repr

inductive Call where
  | user (c : Change)
  | group (c : Change)
  | groups (groups : List Nat)
deriving DecidableEq, Repr

namespace Credentials

def privileged (c : Credentials) : Bool := c.user.effective == 0

def step (c : Credentials) : Call → Option Credentials
  | .user x => (c.user.change c.privileged x).map fun user => { c with user }
  | .group x => (c.group.change c.privileged x).map fun group => { c with group }
  | .groups groups => if c.privileged then some { c with groups } else none

/-- The ids are within sets. -/
structure Confined (c : Credentials) (users groups : Set Nat) : Prop where
  user : c.user.Within users
  group : c.group.Within groups

namespace Confined

variable {c c' : Credentials} {users groups : Set Nat}

theorem not_privileged (h : c.Confined users groups) (hroot : 0 ∉ users) :
    c.privileged = false := by
  rw [privileged, beq_eq_false_iff_ne]
  intro he
  exact hroot (he ▸ h.user.2.1)

theorem step (h : c.Confined users groups) (hroot : 0 ∉ users) {x : Call}
    (hs : c.step x = some c') : c'.Confined users groups ∧ c'.groups = c.groups := by
  have hp := h.not_privileged hroot
  cases x with
  | user x =>
      rw [Credentials.step, hp] at hs
      obtain ⟨user, hx, rfl⟩ := Option.map_eq_some_iff.mp hs
      exact ⟨⟨h.user.change hx, h.group⟩, rfl⟩
  | group x =>
      rw [Credentials.step, hp] at hs
      obtain ⟨group, hx, rfl⟩ := Option.map_eq_some_iff.mp hs
      exact ⟨⟨h.user, h.group.change hx⟩, rfl⟩
  | groups groups =>
      rw [Credentials.step, hp] at hs
      cases hs

/-- **A process without privileges is confined** in every run of calls. -/
theorem run (h : c.Confined users groups) (hroot : 0 ∉ users) {calls : List Call}
    (hr : run Credentials.step c calls = some c') :
    c'.Confined users groups ∧ c'.groups = c.groups := by
  have hreach : Reachable Credentials.step (fun _ _ => True) c c' :=
    Reachable.start.of_run (fun _ _ _ => trivial) hr
  refine hreach.invariant (P := fun d => d.Confined users groups ∧ d.groups = c.groups) ⟨h, rfl⟩
    fun d x d' hd _ hs => ?_
  obtain ⟨hconfined, hgroups⟩ := hd.1.step hroot hs
  exact ⟨hconfined, hgroups.trans hd.2⟩

end Confined

end Credentials

end UserIds
