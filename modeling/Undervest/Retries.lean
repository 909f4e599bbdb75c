import Mathlib.Data.List.Sort
import Mathlib.Data.List.Basic

/-!
# Retry periods

The configuration file gives the times of the retries relative to the first
failure.  `Configuration::get` keeps the positive ones, sorts them, and replaces
each time but the first by its distance to the one before, dropping the zeros.

The replacement works in place, from the end, with a reading and a writing
position.  `diffLoop` is that loop on the cells of the vector.  An access
outside the vector is undefined, which the model answers by `none`.

`diffLoop_spec` is the invariant: below the reading position the vector is as it
was, above the writing position it holds the distances found so far.
`convertRetries_eq` is what comes out of a sorted vector.
-/

namespace Undervest

/-- The periods kept of the configured ones, each converted to an `int`. -/
def positiveRetries (configured : List Int) : List UInt32 :=
  ((configured.map Int32.ofInt).filter fun k => ¬ k ≤ 0).map Int32.toUInt32

/-- `std::sort` of the vector. -/
def sortRetries (v : List UInt32) : List UInt32 := v.insertionSort fun a b => a ≤ b

/-- The loop over the vector, reading at `f` and writing at `t`. -/
def diffLoop : Nat → Nat → List UInt32 → Option (List UInt32 × Nat)
  | 0, t, v => some (v, t)
  | f + 1, t, v =>
      match v[f + 1]?, v[f]? with
      | some b, some a =>
          if t < v.length then
            diffLoop f (if b - a ≠ 0 then t - 1 else t) (v.set t (b - a))
          else none
      | _, _ => none

/-- The conversion of the sorted vector, when `m` periods are configured. -/
def convertRetries (m : Nat) (v : List UInt32) : Option (List UInt32) :=
  if m > 1 then
    match v.length with
    | 0 => none
    | n + 1 =>
        match diffLoop n n v with
        | none => none
        | some (v, t) => if t + 1 ≤ v.length then some (v.take 1 ++ v.drop (t + 1)) else none
  else some v

/-- The retries of a domain section. -/
def retriesOf (configured : List Int) : Option (List UInt32) :=
  convertRetries configured.length (sortRetries (positiveRetries configured))

/-- The distances between neighbours. -/
def distances (v : List UInt32) : List UInt32 := List.zipWith (fun b a => b - a) v.tail v

theorem distances_concat (p : List UInt32) (a b : UInt32) :
    distances (p ++ [a] ++ [b]) = distances (p ++ [a]) ++ [b - a] := by
  induction p with
  | nil => rfl
  | cons x p ih =>
      cases p with
      | nil => rfl
      | cons y p =>
          simp only [distances, List.cons_append, List.tail_cons, List.zipWith_cons_cons] at ih ⊢
          rw [ih]

/-- The loop, from any intermediate point.  `p` has not been written yet, and
`out` holds the distances found so far. -/
theorem diffLoop_spec (f t : Nat) (p junk out : List UInt32) (hp : p.length = f + 1)
    (ht : junk.length + f = t) :
    ∃ junk' t', diffLoop f t (p ++ junk ++ out) =
        some (p.take 1 ++ junk' ++ ((distances p).filter (· ≠ 0) ++ out), t') ∧
      junk'.length = t' := by
  induction f generalizing t p junk out with
  | zero =>
      obtain ⟨a, rfl⟩ := List.length_eq_one_iff.mp hp
      exact ⟨junk, t, by simp [diffLoop, distances], by simpa using ht⟩
  | succ f ih =>
      obtain ⟨p', b, rfl⟩ := p.eq_nil_or_concat'.resolve_left (by rintro rfl; simp at hp)
      have hp' : p'.length = f + 1 := by simpa using hp
      obtain ⟨p'', a, rfl⟩ := p'.eq_nil_or_concat'.resolve_left (by rintro rfl; simp at hp')
      have hp'' : p''.length = f := by simpa using hp'
      -- the cells from the last of `p` to the writing position, the latter apart
      obtain ⟨j, x, hj⟩ := (b :: junk).eq_nil_or_concat'.resolve_left (List.cons_ne_nil _ _)
      have hjlen : j.length + (f + 1) = t := by
        have := congrArg List.length hj
        simp only [List.length_cons, List.length_append, List.length_nil] at this
        omega
      have hv : p'' ++ [a] ++ [b] ++ junk ++ out = (p'' ++ [a] ++ j) ++ x :: out := by
        have hbj : [b] ++ junk = j ++ [x] := hj
        rw [List.append_assoc _ [b], hbj]
        simp only [List.append_assoc, List.cons_append, List.nil_append]
      have hb : (p'' ++ [a] ++ [b] ++ junk ++ out)[f + 1]? = some b := by
        simp [← hp'']
      have ha : (p'' ++ [a] ++ [b] ++ junk ++ out)[f]? = some a := by
        simp [← hp'']
      have hset : (p'' ++ [a] ++ [b] ++ junk ++ out).set t (b - a) =
          (p'' ++ [a] ++ j) ++ (b - a) :: out := by
        have hlen : t = (p'' ++ [a] ++ j).length := by
          simp only [List.length_append, List.length_cons, List.length_nil]
          omega
        rw [hv, hlen, List.set_append_right _ _ le_rfl, Nat.sub_self, List.set_cons_zero]
      have hlt : t < (p'' ++ [a] ++ [b] ++ junk ++ out).length := by
        rw [hv]
        simp only [List.length_append, List.length_cons, List.length_nil]
        omega
      simp only [diffLoop, hb, ha, if_pos hlt, hset]
      have htake : (p'' ++ [a] ++ [b]).take 1 = (p'' ++ [a]).take 1 := by
        rw [List.take_append_of_le_length (by simp)]
      rw [distances_concat, List.filter_append, htake]
      by_cases hz : b - a = 0
      · have ih := ih t (p'' ++ [a]) (j ++ [b - a]) out hp' (by simp; omega)
        simpa [hz, List.append_assoc] using ih
      · have ih := ih (t - 1) (p'' ++ [a]) j ((b - a) :: out) hp' (by omega)
        simpa [hz, List.append_assoc] using ih

/-- **The converted periods.**  They are the first time and the distances that
are not zero. -/
theorem convertRetries_eq {m : Nat} (hm : m > 1) (x : UInt32) (v : List UInt32) :
    convertRetries m (x :: v) = some (x :: (distances (x :: v)).filter (· ≠ 0)) := by
  obtain ⟨junk, t, hloop, ht⟩ := diffLoop_spec v.length v.length (x :: v) [] [] rfl (by simp)
  simp only [List.append_nil, List.take_succ_cons, List.take_zero] at hloop
  simp only [convertRetries, if_pos hm, List.length_cons, hloop]
  rw [if_pos (by simp; omega)]
  simp [← ht]

theorem distances_pos (v : List UInt32) : ∀ x ∈ (distances v).filter (· ≠ 0), 0 < x := by
  intro x hx
  have hne : x ≠ 0 := by simpa using (List.mem_filter.mp hx).2
  exact UInt32.pos_iff_ne_zero.mpr hne

theorem positiveRetries_pos (configured : List Int) :
    ∀ x ∈ positiveRetries configured, 0 < x := by
  intro x hx
  obtain ⟨k, hk, rfl⟩ := List.mem_map.mp hx
  have hpos : 0 < k := Int32.not_le.mp (by simpa using (List.mem_filter.mp hk).2)
  rw [UInt32.pos_iff_ne_zero]
  intro h0
  have hk0 : k = 0 := by rw [← Int32.toInt32_toUInt32 k, h0]; rfl
  rw [hk0] at hpos
  exact absurd hpos (by decide)

/-- **The retries of a domain are positive.** -/
theorem retriesOf_pos {configured : List Int} {r : List UInt32}
    (hr : retriesOf configured = some r) : ∀ x ∈ r, 0 < x := by
  have hv : ∀ x ∈ sortRetries (positiveRetries configured), 0 < x := fun x hx =>
    positiveRetries_pos configured x ((List.perm_insertionSort _ _).mem_iff.mp hx)
  rw [retriesOf] at hr
  by_cases hm : configured.length > 1
  · cases hs : sortRetries (positiveRetries configured) with
    | nil =>
        rw [hs, convertRetries, if_pos hm] at hr
        cases hr
    | cons x v =>
        rw [hs] at hr hv
        rw [convertRetries_eq hm, Option.some.injEq] at hr
        rw [← hr]
        exact List.forall_mem_cons.mpr ⟨hv x (List.mem_cons_self ..), distances_pos _⟩
  · rw [convertRetries, if_neg hm, Option.some.injEq] at hr
    rw [← hr]
    exact hv

example : retriesOf [300, 30, 0, 30] = some [30, 270] := by decide

end Undervest
