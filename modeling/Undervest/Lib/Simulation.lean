import Undervest.Lib.Transition
import Mathlib.Data.List.Induction

/-!
# Runs compared with runs

Rules that follow a run action by action, next to those of reachable states.

`run_induction` is induction over a run from its start, for laws that mention the
actions so far.  `filter_length_add` counts how often some of the actions occur, by a
measure that they count down, and `exists_run_zero` says when they can go on until it is
zero.

A `Simulation` maps the states of one system to those of another.  A step there is
one step here or none, and runs follow (`Simulation.run_trace`).
-/

namespace Transition

variable {σ τ α β : Type}

/-! ## The last action of a run -/

theorem run_concat {step : σ → α → Option σ} (as : List α) (a : α) (s : σ) :
    run step s (as ++ [a]) = (run step s as).bind fun s => step s a := by
  rw [run_append]
  refine Option.bind_congr fun s' _ => ?_
  rw [run]
  cases step s' a <;> rfl

/-- A run that ends with an action passes through the state before it. -/
theorem run_concat_eq_some {step : σ → α → Option σ} {as : List α} {a : α} {s s' : σ}
    (h : run step s (as ++ [a]) = some s') :
    ∃ s₁, run step s as = some s₁ ∧ step s₁ a = some s' := by
  rw [run_concat] at h
  exact Option.bind_eq_some_iff.mp h

/-- **Induction over the actions of a run.** -/
theorem run_induction {step : σ → α → Option σ} {init : σ} {P : List α → σ → Prop}
    (h₀ : P [] init)
    (hstep : ∀ as s a s', run step init as = some s → P as s → step s a = some s' →
      P (as ++ [a]) s') {as : List α} {s : σ} (h : run step init as = some s) : P as s := by
  induction as using List.reverseRecOn generalizing s with
  | nil =>
      obtain rfl := Option.some.inj h
      exact h₀
  | append_singleton as a ih =>
      obtain ⟨s₁, hr, hs⟩ := run_concat_eq_some h
      exact hstep as s₁ a s hr (ih hr) hs

/-- The states of a run are reachable. -/
theorem Reachable.of_run_start {step : σ → α → Option σ} {init : σ} {as : List α} {s : σ}
    (h : run step init as = some s) : Reachable step (fun _ _ => True) init s :=
  Reachable.start.of_run (fun _ _ _ => trivial) h

/-! ## Actions that count down -/

/-- **Actions that count a measure down** occur in a run as often as it decreases, when
the other actions leave it as it is. -/
theorem filter_length_add {step : σ → α → Option σ} {ok : α → Prop} {p : α → Bool} {m : σ → Nat}
    {P : σ → Prop} (hP : ∀ s a s', P s → ok a → step s a = some s' → P s')
    (hdown : ∀ s a s', P s → ok a → p a = true → step s a = some s' → m s' + 1 = m s)
    (hstay : ∀ s a s', P s → ok a → p a = false → step s a = some s' → m s' = m s)
    (as : List α) (hok : ∀ a ∈ as, ok a) {s s' : σ} (hs : P s) (h : run step s as = some s') :
    (as.filter p).length + m s' = m s ∧ P s' := by
  induction as generalizing s with
  | nil =>
      obtain rfl := Option.some.inj h
      exact ⟨Nat.zero_add _, hs⟩
  | cons a as ih =>
      obtain ⟨s₁, hstep, hr⟩ := Option.bind_eq_some_iff.mp h
      have ha := hok a (List.mem_cons_self ..)
      obtain ⟨hrest, hs'⟩ := ih (fun b hb => hok b (List.mem_cons_of_mem _ hb))
        (hP s a s₁ hs ha hstep) hr
      refine ⟨?_, hs'⟩
      cases hp : p a with
      | true =>
          have := hdown s a s₁ hs ha hp hstep
          rw [List.filter_cons_of_pos hp, List.length_cons]
          omega
      | false =>
          have := hstay s a s₁ hs ha hp hstep
          rw [List.filter_cons_of_neg (by rw [hp]; exact Bool.false_ne_true)]
          omega

/-- When one of them is possible as long as the measure is positive, they can count it
down to zero. -/
theorem exists_run_zero {step : σ → α → Option σ} {p : α → Prop} {m : σ → Nat} {P : σ → Prop}
    (hstep : ∀ s, P s → 0 < m s → ∃ a s', p a ∧ step s a = some s' ∧ P s' ∧ m s' + 1 = m s)
    {s : σ} (hs : P s) :
    ∃ as s', run step s as = some s' ∧ (∀ a ∈ as, p a) ∧ P s' ∧ m s' = 0 ∧
      as.length = m s := by
  obtain ⟨n, hn⟩ : ∃ n, n = m s := ⟨_, rfl⟩
  induction n generalizing s with
  | zero => exact ⟨[], s, rfl, fun a ha => (by cases ha), hs, hn.symm, hn⟩
  | succ n ih =>
      obtain ⟨a, s₁, ha, hs₁, hP, hm⟩ := hstep s hs (by omega)
      obtain ⟨as, s', hr, hall, hP', hz, hlen⟩ := ih hP (by omega)
      refine ⟨a :: as, s', ?_, fun b hb => ?_, hP', hz, ?_⟩
      · rw [run, hs₁, Option.bind_some, hr]
      · cases List.mem_cons.mp hb with
        | inl hb => exact hb ▸ ha
        | inr hb => exact hall b hb
      · rw [List.length_cons, hlen, ← hm]

/-! ## Simulations -/

/-- A map of states under which every step is one step of the other system, or none.
What is known of the states of the first system is the predicate `known`. -/
structure Simulation (step : σ → α → Option σ) (step' : τ → β → Option τ)
    (known : σ → Prop) where
  state : σ → τ
  action : σ → α → Option β
  step_eq : ∀ s a s', known s → step s a = some s' →
    match action s a with
    | some b => step' (state s) b = some (state s')
    | none => state s' = state s

namespace Simulation

variable {step : σ → α → Option σ} {step' : τ → β → Option τ} {known : σ → Prop}

/-- The actions of the other system along a run. -/
def trace (f : Simulation step step' known) : σ → List α → List β
  | _, [] => []
  | s, a :: as =>
      (f.action s a).toList ++ (step s a).elim [] fun s => f.trace s as

/-- **A run is mapped to a run.** -/
theorem run_trace (f : Simulation step step' known)
    (hknown : ∀ s a s', known s → step s a = some s' → known s') (as : List α) {s s' : σ}
    (hs : known s) (h : run step s as = some s') :
    run step' (f.state s) (f.trace s as) = some (f.state s') := by
  induction as generalizing s with
  | nil =>
      obtain rfl := Option.some.inj h
      rfl
  | cons a as ih =>
      obtain ⟨s₁, hstep, hr⟩ := Option.bind_eq_some_iff.mp h
      have heq := f.step_eq s a s₁ hs hstep
      have hrest := ih (hknown s a s₁ hs hstep) hr
      rw [trace, hstep, Option.elim_some]
      cases ha : f.action s a with
      | some b =>
          rw [ha] at heq
          rw [Option.toList_some, List.singleton_append, run, heq, Option.bind_some, hrest]
      | none =>
          rw [ha] at heq
          rw [Option.toList_none, List.nil_append, ← heq, hrest]

/-- Actions that are mapped by themselves. -/
theorem trace_eq_filterMap (f : Simulation step step' known) {g : α → Option β}
    (hg : ∀ s a, f.action s a = g a) (as : List α) {s s' : σ} (h : run step s as = some s') :
    f.trace s as = as.filterMap g := by
  induction as generalizing s with
  | nil => rfl
  | cons a as ih =>
      obtain ⟨s₁, hstep, hr⟩ := Option.bind_eq_some_iff.mp h
      rw [trace, hstep, Option.elim_some, ih hr, hg]
      cases ha : g a with
      | some b => rw [List.filterMap_cons_some ha, Option.toList_some, List.singleton_append]
      | none => rw [List.filterMap_cons_none ha, Option.toList_none, List.nil_append]

end Simulation

end Transition
