import Mathlib.Data.Option.Basic

/-!
# Computations that follow partial ones

A computation that may fail in several ways follows a partial one when it fails
in one chosen way where the other has no result, and the results are related
otherwise (`Follows`).  The relation of the results may hide how each side stores
them: a position on one side and a rest on the other, say.

The rules follow the way computations are built: a result, a choice whose two
tests agree, and a sequence of two computations (`Follows.bind`).
-/

namespace Refinement

variable {ε α β γ δ : Type}

@[simp] theorem ok_bind (a : α) (f : α → Except ε β) : (Except.ok a >>= f) = f a := rfl

@[simp] theorem pure_bind (a : α) (f : α → Except ε β) :
    ((pure a : Except ε α) >>= f) = f a := rfl

@[simp] theorem error_bind (e : ε) (f : α → Except ε β) :
    ((Except.error e : Except ε α) >>= f) = .error e := rfl

/-- A sequence that has a result has one for each part. -/
theorem bind_eq_ok {x : Except ε α} {f : α → Except ε β} {b : β} (h : (x >>= f) = .ok b) :
    ∃ a, x = .ok a ∧ f a = .ok b := by
  cases x with
  | error e => cases h
  | ok a => exact ⟨a, rfl, h⟩

/-- A sequence fails in a way only if one of its parts does. -/
theorem bind_ne_error {x : Except ε α} {f : α → Except ε β} {e : ε} (hx : x ≠ .error e)
    (hf : ∀ a, x = .ok a → f a ≠ .error e) : (x >>= f) ≠ .error e := by
  cases x with
  | error e' => exact fun h => hx (congrArg Except.error (Except.error.inj h))
  | ok a => exact hf a rfl

/-- A partial computation, with the failure `e` where it has no result. -/
def ofOption (e : ε) : Option α → Except ε α
  | none => .error e
  | some a => .ok a

@[simp] theorem ofOption_none (e : ε) : ofOption e (none : Option α) = .error e := rfl
@[simp] theorem ofOption_some (e : ε) (a : α) : ofOption e (some a) = .ok a := rfl

/-- `f` fails with `e` where `g` has no result, and else their results are related. -/
def Follows (e : ε) (R : α → β → Prop) (f : Except ε α) (g : Option β) : Prop :=
  match g with
  | none => f = .error e
  | some b => ∃ a, f = .ok a ∧ R a b

variable {e : ε} {R : α → β → Prop} {S : γ → δ → Prop} {f : Except ε α} {g : Option β}

theorem Follows.ok {a : α} {b : β} (h : R a b) : Follows e R (.ok a) (some b) := ⟨a, rfl, h⟩

theorem Follows.mono {R' : α → β → Prop} (hR : ∀ a b, R a b → R' a b) (h : Follows e R f g) :
    Follows e R' f g := by
  cases g with
  | none => exact h
  | some b =>
      obtain ⟨a, hf, hab⟩ := h
      exact ⟨a, hf, hR a b hab⟩

/-- With equal results the two computations are the same. -/
theorem follows_eq {f : Except ε α} {g : Option α} : Follows e Eq f g ↔ f = ofOption e g := by
  cases g with
  | none => exact Iff.rfl
  | some b => simp [Follows]

/-- One computation after the other. -/
theorem Follows.bind {k : α → Except ε γ} {l : β → Option δ} (h : Follows e R f g)
    (hk : ∀ a b, R a b → Follows e S (k a) (l b)) : Follows e S (f >>= k) (g.bind l) := by
  cases g with
  | none =>
      rw [show f = .error e from h]
      rfl
  | some b =>
      obtain ⟨a, rfl, hab⟩ := h
      exact hk a b hab

/-- A computation and a function of its result. -/
theorem Follows.map {k : α → Except ε γ} {l : β → δ} (h : Follows e R f g)
    (hk : ∀ a b, R a b → Follows e S (k a) (some (l b))) : Follows e S (f >>= k) (g.map l) := by
  rw [Option.map_eq_bind]
  exact h.bind hk

/-- A computation that only its follower goes on with. -/
theorem Follows.result {S : γ → β → Prop} {k : α → Except ε γ} (h : Follows e R f g)
    (hk : ∀ a b, R a b → Follows e S (k a) (some b)) : Follows e S (f >>= k) g := by
  rw [← Option.map_id' (x := g)]
  exact h.map hk

/-- A choice. -/
theorem Follows.ite {P Q : Prop} [Decidable P] [Decidable Q] {f' : Except ε α} {g' : Option β}
    (hiff : P ↔ Q) (ht : Q → Follows e R f g) (hf : ¬ Q → Follows e R f' g') :
    Follows e R (if P then f else f') (if Q then g else g') := by
  by_cases hQ : Q
  · rw [if_pos hQ, if_pos (hiff.mpr hQ)]
    exact ht hQ
  · rw [if_neg hQ, if_neg (mt hiff.mp hQ)]
    exact hf hQ

end Refinement
