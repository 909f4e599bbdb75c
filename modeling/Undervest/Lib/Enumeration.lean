import Mathlib.Data.List.Basic

/-!
# Enumerations

A list may be delivered one element at a time: a function is called again and
again, answers an element, and keeps its position in a state.  `calls` are the
answers of successive calls.  The caller stops at the first answer that ends the
enumeration, and `stateAfter` is the state behind that call.

`scan` is the reference: its state is the list of items that are left, and a
call passes over the items without an answer up to the first one that has one.
Its calls answer for the items in order, then `last` for ever (`calls_scan`).  A
function with another state is compared with it through a view of its state as
such a list (`calls_view`, `stateAfter_view`).
-/

namespace Enumeration

variable {σ τ ι α : Type}

/-! ## Calling again and again -/

/-- The answers of `n` successive calls. -/
def calls (next : σ → α × σ) : Nat → σ → List α
  | 0, _ => []
  | n + 1, s => (next s).1 :: calls next n (next s).2

/-- The state behind the first call, of `n` calls, whose answer ends the
enumeration. -/
def stateAfter (ends : α → Bool) (next : σ → α × σ) : Nat → σ → σ
  | 0, s => s
  | n + 1, s => if ends (next s).1 then (next s).2 else stateAfter ends next n (next s).2

section View

variable {next : σ → α × σ} {next' : τ → α × τ} {view : σ → τ}

/-- Two functions that agree through a view of the state answer the same. -/
theorem calls_view (h : ∀ s, next' (view s) = ((next s).1, view (next s).2)) (n : Nat) (s : σ) :
    calls next n s = calls next' n (view s) := by
  induction n generalizing s with
  | zero => rfl
  | succ n ih => rw [calls, calls, h, ih]

theorem stateAfter_view (h : ∀ s, next' (view s) = ((next s).1, view (next s).2))
    (ends : α → Bool) (n : Nat) (s : σ) :
    view (stateAfter ends next n s) = stateAfter ends next' n (view s) := by
  induction n generalizing s with
  | zero => rfl
  | succ n ih =>
      rw [stateAfter, stateAfter, h]
      cases ends (next s).1 with
      | false => exact ih (next s).2
      | true => rfl

end View

/-! ## Items that are left -/

/-- A call takes the items up to the first one that has an answer. -/
def scan (answer : ι → Option α) (last : α) : List ι → α × List ι
  | [] => (last, [])
  | i :: is =>
      match answer i with
      | none => scan answer last is
      | some a => (a, is)

variable {answer : ι → Option α} {last : α}

/-- The calls answer for the items in order. -/
theorem calls_scan (n : Nat) (is : List ι) :
    calls (scan answer last) n is = (is.filterMap answer ++ List.replicate n last).take n := by
  induction n generalizing is with
  | zero => rfl
  | succ n ih =>
      rw [calls]
      induction is with
      | nil => simp [scan, ih, List.replicate_succ]
      | cons i is ih' =>
          rw [scan]
          cases hi : answer i with
          | none => rw [List.filterMap_cons_none hi, ← ih']
          | some a =>
              have hn : n ≤ (is.filterMap answer ++ List.replicate n last).length := by
                simp
              rw [List.filterMap_cons_some hi, List.cons_append, List.take_succ_cons, ih,
                List.replicate_succ', ← List.append_assoc, List.take_append_of_le_length hn]

/-- More calls than there are items reach the end. -/
theorem calls_scan_of_lt (answer : ι → Option α) (last : α) {n : Nat} {is : List ι}
    (h : is.length < n) :
    ∃ k, calls (scan answer last) n is = is.filterMap answer ++ List.replicate (k + 1) last := by
  have hlen : (is.filterMap answer).length ≤ is.length := List.length_filterMap_le answer is
  refine ⟨n - (is.filterMap answer).length - 1, ?_⟩
  rw [calls_scan, List.take_append, List.take_of_length_le (by omega), List.take_replicate]
  congr 2
  omega

/-- The items behind the first one whose answer ends the enumeration. -/
theorem stateAfter_scan {ends : α → Bool} {n : Nat} {is : List ι} (h : is.length < n)
    (hlast : ends last = true) :
    stateAfter ends (scan answer last) n is =
      (is.dropWhile fun i => !(answer i).any ends).tail := by
  induction n generalizing is with
  | zero => exact absurd h (Nat.not_lt_zero _)
  | succ n ih =>
      rw [stateAfter]
      induction is with
      | nil => simp [scan, hlast]
      | cons i is ih' =>
          rw [List.length_cons] at h
          rw [scan]
          cases hi : answer i with
          | none =>
              rw [List.dropWhile_cons_of_pos (by simp [hi])]
              exact ih' (by omega)
          | some a =>
              cases ha : ends a with
              | true =>
                  rw [List.dropWhile_cons_of_neg (by simp [hi, ha])]
                  simp
              | false =>
                  rw [List.dropWhile_cons_of_pos (by simp [hi, ha])]
                  simpa [ha] using ih (by omega)

end Enumeration
