/-!
# Transition systems

A system is a partial step function: an action is possible in a state when the
step is defined.  A run is a list of actions.

`Reachable` takes a condition on the steps of a run, so that a law that holds
under a condition is stated over the runs that meet it.  `Reachable.invariant`
is the rule for invariants, and `Reachable.strengthen` the same rule on top of
an invariant that is already known.

`run_map` says that a change of the state that all actions of a run commute
with can be made before or after the run.
-/

namespace Transition

variable {σ α : Type}

/-! ## Runs -/

/-- Some actions in order. -/
def run (step : σ → α → Option σ) : σ → List α → Option σ
  | s, [] => some s
  | s, a :: as => (step s a).bind fun s => run step s as

theorem run_append {step : σ → α → Option σ} (as bs : List α) (s : σ) :
    run step s (as ++ bs) = (run step s as).bind (run step · bs) := by
  induction as generalizing s with
  | nil => rfl
  | cons a as ih =>
      cases h : step s a with
      | none => simp only [List.cons_append, run, h, Option.bind_none]
      | some s' => simp only [List.cons_append, run, h, Option.bind_some, ih]

/-- A change that every action commutes with commutes with the run. -/
theorem run_map {step : σ → α → Option σ} {f : σ → σ} {p : α → Prop}
    (hf : ∀ s a, p a → step (f s) a = (step s a).map f) (as : List α) (s : σ)
    (hp : ∀ a ∈ as, p a) : run step (f s) as = (run step s as).map f := by
  induction as generalizing s with
  | nil => rfl
  | cons a as ih =>
      have ha := hf s a (hp a (List.mem_cons_self ..))
      cases h : step s a with
      | none => simp only [run, ha, h, Option.map_none, Option.bind_none]
      | some s' =>
          have htail := ih s' fun b hb => hp b (List.mem_cons_of_mem _ hb)
          simp only [run, ha, h, Option.map_some, Option.bind_some, htail]

/-! ## Reachable states -/

/-- The states of the runs from `init` each of whose steps meets `ok`. -/
inductive Reachable (step : σ → α → Option σ) (ok : σ → α → Prop) (init : σ) : σ → Prop where
  | start : Reachable step ok init init
  | next {s s' : σ} {a : α} : Reachable step ok init s → ok s a → step s a = some s' →
      Reachable step ok init s'

namespace Reachable

variable {step : σ → α → Option σ} {ok ok' : σ → α → Prop} {init : σ}

/-- What holds at the start and is preserved by every step holds everywhere. -/
theorem invariant {P : σ → Prop} (h₀ : P init)
    (hstep : ∀ s a s', P s → ok s a → step s a = some s' → P s') {s : σ}
    (h : Reachable step ok init s) : P s := by
  induction h with
  | start => exact h₀
  | next _ hok hs ih => exact hstep _ _ _ ih hok hs

/-- The same rule, where each step may use a known invariant of the state it
starts from. -/
theorem strengthen {P Q : σ → Prop} (hP : ∀ s, Reachable step ok init s → P s) (h₀ : Q init)
    (hstep : ∀ s a s', P s → Q s → ok s a → step s a = some s' → Q s') {s : σ}
    (h : Reachable step ok init s) : Q s := by
  induction h with
  | start => exact h₀
  | next hr hok hs ih => exact hstep _ _ _ (hP _ hr) ih hok hs

/-- A run of actions that meet the condition in every state. -/
theorem of_run {as : List α} {s s' : σ} (h : Reachable step ok init s)
    (hok : ∀ s, ∀ a ∈ as, ok s a) (hr : run step s as = some s') : Reachable step ok init s' := by
  induction as generalizing s with
  | nil =>
      obtain rfl := Option.some.inj hr
      exact h
  | cons a as ih =>
      have ha := hok s a (List.mem_cons_self ..)
      cases hs : step s a with
      | none =>
          rw [run, hs] at hr
          cases hr
      | some s₁ =>
          rw [run, hs] at hr
          exact ih (next h ha hs) (fun s b hb => hok s b (List.mem_cons_of_mem _ hb)) hr

/-- A run that ends in a state with a property, both by evaluation. -/
theorem exists_of_run {as : List α} {p : σ → Prop} [DecidablePred p]
    (hok : ∀ s, ∀ a ∈ as, ok s a)
    (h : (run step init as).map (fun s => decide (p s)) = some true) :
    ∃ s, Reachable step ok init s ∧ p s := by
  cases hr : run step init as with
  | none =>
      rw [hr] at h
      cases h
  | some s =>
      rw [hr, Option.map_some, Option.some.injEq, decide_eq_true_eq] at h
      exact ⟨s, start.of_run hok hr, h⟩

end Reachable

end Transition
