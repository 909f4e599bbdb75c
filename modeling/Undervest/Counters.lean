import Undervest.Slices

/-!
# The counters of the matcher

`Matcher` counts in natural numbers.  Here are the same functions with the integer
types of the source: the position of a target and all counters of slices are 32
bits wide, and arithmetic on them wraps.

`Represents` ties a matcher of this kind to one that counts in natural numbers.
`add` keeps it as long as there are at most 2 ^ 32 targets (`Represents.add`), and
a query then has the same results on both sides (`matchResults_perm_narrow`).

With fewer than 2 ^ 31 targets and slices no 32-bit counter wraps, so the results
are those of the multiset intersection (`match_results`).  The slice count of a
target has 16 bits only, in both models, and a score is exact as long as that one
does not wrap (`exact_iff`).
-/

namespace Undervest

open Unordered FixedWidth Matcher

namespace Machine

/-! ## Data -/

/-- `Matcher::target_slice`. -/
structure TargetSlice where
  index : UInt32
  count : UInt32
deriving DecidableEq, Repr

/-- The counters of common slices, by target. -/
abbrev Overlaps := UnorderedMap UInt32 UInt32

/-- `Matcher`. -/
structure Matcher where
  index : UnorderedMap Str (List TargetSlice)
  targets : List Target

def empty : Matcher := ⟨∅, []⟩

/-! ## Adding a target -/

/-- Count one more occurrence of a slice in target `n`.  The index is compared with
the 64-bit size of the vector of targets. -/
def bump (n : Nat) (p : List TargetSlice) : List TargetSlice :=
  match p.getLast? with
  | none => p ++ [⟨UInt32.ofNat n, 1⟩]
  | some k =>
      if k.index.toNat ≠ n then p ++ [⟨UInt32.ofNat n, 1⟩]
      else p.dropLast ++ [{ k with count := k.count + 1 }]

/-- The body of the loop of `add`. -/
def addSlice (n : Nat) (index : UnorderedMap Str (List TargetSlice)) (x : Str) :
    UnorderedMap Str (List TargetSlice) :=
  let index := UnorderedMap.emplace index x []
  index.insert x (bump n ((index.lookup x).getD []))

/-- `Matcher::add`. -/
def add (slice : Str → Bool → List Str) (m : Matcher) (t : Str) : Matcher :=
  let s := orEmpty (slice t true)
  { index := s.foldl (addSlice m.targets.length) m.index
    targets := m.targets ++ [⟨t, UInt16.ofNat s.length⟩] }

/-! ## Matching a query -/

/-- Credit a target with a group of `n` equal slices of the query. -/
def credit (n : UInt32) (r : Overlaps) (k : TargetSlice) : Overlaps :=
  let r := UnorderedMap.emplace r k.index 0
  r.insert k.index ((r.lookup k.index).getD 0 + if n < k.count then n else k.count)

/-- Credit every target of the posting list of `j`. -/
def accumulate (index : UnorderedMap Str (List TargetSlice)) (j : Str) (n : UInt32)
    (r : Overlaps) : Overlaps :=
  match index.lookup j with
  | none => r
  | some q => q.foldl (credit n) r

/-- The loop over the sorted slices.  `n` is the distance `i - j`, which is narrowed
when a group is credited. -/
def groupLoop (index : UnorderedMap Str (List TargetSlice)) :
    Str → Nat → List Str → Overlaps → Str × Nat × Overlaps
  | j, n, [], r => (j, n, r)
  | j, n, x :: rest, r =>
      if Substring.lt j x then
        groupLoop index x 1 rest (accumulate index j (UInt32.ofNat n) r)
      else groupLoop index j (n + 1) rest r

/-- The counters of a sorted list of slices. -/
def overlaps (index : UnorderedMap Str (List TargetSlice)) : List Str → Overlaps
  | [] => ∅
  | j :: rest =>
      let (j, n, r) := groupLoop index j 1 rest ∅
      accumulate index j (UInt32.ofNat n) r

/-- The 64-bit quotient a score is narrowed from. -/
def quotient (overlap : UInt32) (count : UInt16) (size : Nat) : Scaled .ulong 65535 :=
  (Scaled.ofInt .uint (2 * overlap).toNat : Scaled .ulong 65535).divInt (count.toNat + size)

/-- The score of a target. -/
def scoreOf (overlap : UInt32) (count : UInt16) (size : Nat) : ScoreType :=
  (quotient overlap count size).convert

/-- `Matcher::match`. -/
def matchResults (c : Choices) (slice : Str → Bool → List Str) (m : Matcher) (q : Str) :
    List Result :=
  let s := c.sort Substring.lt (orEmpty (slice q false))
  let r := overlaps m.index s
  let results := (c.iterate r.entries).map fun k =>
    let t := m.targets.getD k.1.toNat ⟨[], 0⟩
    (⟨t.text, scoreOf k.2 t.count s.length⟩ : Result)
  (c.sort Result.lt results.reverse).reverse

/-! ## The same index -/

/-- A posting with its two counters narrowed. -/
def narrow (k : Undervest.TargetSlice) : TargetSlice :=
  ⟨UInt32.ofNat k.index, UInt32.ofNat k.count⟩

/-- The posting lists are those of an index of natural numbers, narrowed, and no
position is lost by that. -/
structure SameIndex (index : UnorderedMap Str (List TargetSlice))
    (index' : UnorderedMap Str (List Undervest.TargetSlice)) : Prop where
  lookup : ∀ x, index.lookup x = (index'.lookup x).map (List.map narrow)
  bounded : ∀ x, ∀ k ∈ (index'.lookup x).getD [], k.index < 2 ^ 32

/-- A matcher that counts like one that counts in natural numbers. -/
structure Represents (m : Matcher) (m' : Undervest.Matcher) : Prop where
  targets : m.targets = m'.targets
  index : SameIndex m.index m'.index

theorem SameIndex.getD {index : UnorderedMap Str (List TargetSlice)}
    {index' : UnorderedMap Str (List Undervest.TargetSlice)} (h : SameIndex index index')
    (x : Str) : (index.lookup x).getD [] = ((index'.lookup x).getD []).map narrow := by
  rw [h.lookup]
  cases index'.lookup x <;> rfl

theorem bump_narrow {n : Nat} {p : List Undervest.TargetSlice} (hp : ∀ k ∈ p, k.index < 2 ^ 32) :
    bump n (p.map narrow) = (Matcher.bump n p).map narrow := by
  rw [bump, Matcher.bump, List.getLast?_map]
  cases hl : p.getLast? with
  | none => simp [narrow]
  | some k =>
      have hk : (narrow k).index.toNat = k.index :=
        Nat.mod_eq_of_lt (hp k (List.mem_of_getLast? hl))
      simp only [Option.map_some, hk]
      split
      next => simp [narrow]
      next => simp [narrow, List.map_dropLast, UInt32.ofNat_add]

theorem index_of_mem_bump {n : Nat} {p : List Undervest.TargetSlice} {k : Undervest.TargetSlice}
    (hk : k ∈ Matcher.bump n p) : k.index = n ∨ k ∈ p := by
  unfold Matcher.bump at hk
  split at hk
  next =>
    rw [List.mem_append, List.mem_singleton] at hk
    exact hk.symm.imp_left (congrArg Undervest.TargetSlice.index)
  next l hl =>
    split at hk
    next =>
      rw [List.mem_append, List.mem_singleton] at hk
      exact hk.symm.imp_left (congrArg Undervest.TargetSlice.index)
    next hn =>
      rw [List.mem_append, List.mem_singleton] at hk
      refine hk.symm.imp (fun e => ?_) List.mem_of_mem_dropLast
      exact (congrArg Undervest.TargetSlice.index e).trans (not_not.mp hn)

theorem lookup_addSlice (n : Nat) (index : UnorderedMap Str (List TargetSlice)) (x y : Str) :
    (addSlice n index x).lookup y =
      if y = x then some (bump n ((index.lookup x).getD [])) else index.lookup y :=
  UnorderedMap.lookup_insert_emplace index x y [] (bump n)

/-- Counting one more slice keeps the index. -/
theorem SameIndex.addSlice {index : UnorderedMap Str (List TargetSlice)}
    {index' : UnorderedMap Str (List Undervest.TargetSlice)} (h : SameIndex index index')
    {n : Nat} (hn : n < 2 ^ 32) (x : Str) :
    SameIndex (addSlice n index x) (Matcher.addSlice n index' x) where
  lookup y := by
    rw [lookup_addSlice, Matcher.lookup_addSlice]
    split
    next => rw [h.getD, bump_narrow (h.bounded x), Option.map_some]
    next => exact h.lookup y
  bounded y k hk := by
    rw [Matcher.lookup_addSlice] at hk
    split at hk
    next =>
      cases index_of_mem_bump hk with
      | inl e => rw [e]; exact hn
      | inr hk => exact h.bounded x k hk
    next => exact h.bounded y k hk

theorem represents_empty : Represents empty Matcher.empty where
  targets := rfl
  index := ⟨fun _ => rfl, fun _ _ hk => nomatch hk⟩

/-- Adding a target keeps the representation, as long as its position is one. -/
theorem Represents.add {m : Matcher} {m' : Undervest.Matcher} (h : Represents m m')
    (slice : Str → Bool → List Str) (t : Str) (hn : m'.targets.length < 2 ^ 32) :
    Represents (add slice m t) (Matcher.add slice m' t) where
  targets := by rw [Machine.add, Matcher.add, h.targets]
  index := by
    rw [Machine.add, Matcher.add, h.targets]
    have hindex := h.index
    generalize m.index = index, m'.index = index' at hindex
    generalize orEmpty (slice t true) = s
    induction s generalizing index index' with
    | nil => exact hindex
    | cons x s ih => exact ih _ _ (hindex.addSlice hn x)

theorem Represents.foldl_add (slice : Str → Bool → List Str) (names : List Str) {m : Matcher}
    {m' : Undervest.Matcher} (h : Represents m m')
    (hn : m'.targets.length + names.length ≤ 2 ^ 32) :
    Represents (names.foldl (Machine.add slice) m)
      (names.foldl (fun m t => m.add slice t) m') := by
  induction names generalizing m m' with
  | nil => exact h
  | cons t names ih =>
      rw [List.length_cons] at hn
      refine ih (h.add slice t (by omega)) ?_
      simp only [Matcher.add, List.length_append, List.length_singleton]
      omega

/-! ## The same results -/

/-- The counters are those that count in natural numbers, narrowed, and no target is
lost by that. -/
structure SameOverlaps (r : Overlaps) (r' : Undervest.Overlaps) : Prop where
  lookup : ∀ i, r.lookup i = (r'.lookup i.toNat).map UInt32.ofNat
  bounded : ∀ i ∈ r', i < 2 ^ 32

theorem lookup_credit (n : UInt32) (r : Overlaps) (k : TargetSlice) (i : UInt32) :
    (credit n r k).lookup i =
      if i = k.index then some ((r.lookup k.index).getD 0 + if n < k.count then n else k.count)
      else r.lookup i :=
  UnorderedMap.lookup_insert_emplace r k.index i 0 (· + if n < k.count then n else k.count)

/-- Narrowed counts are compared as they are, when they fit. -/
theorem ofNat_min {n k : Nat} (hn : n < 2 ^ 32) (hk : k < 2 ^ 32) :
    (if UInt32.ofNat n < UInt32.ofNat k then UInt32.ofNat n else UInt32.ofNat k) =
      UInt32.ofNat (if n < k then n else k) := by
  have hlt : UInt32.ofNat n < UInt32.ofNat k ↔ n < k := by
    rw [UInt32.lt_iff_toNat_lt, UInt32.toNat_ofNat', UInt32.toNat_ofNat', Nat.mod_eq_of_lt hn,
      Nat.mod_eq_of_lt hk]
  simp only [hlt]
  split <;> rfl

theorem SameOverlaps.credit {r : Overlaps} {r' : Undervest.Overlaps} (h : SameOverlaps r r')
    {n : Nat} (hn : n < 2 ^ 32) {k : Undervest.TargetSlice} (hi : k.index < 2 ^ 32)
    (hc : k.count < 2 ^ 32) :
    SameOverlaps (credit (UInt32.ofNat n) r (narrow k)) (Matcher.credit n r' k) where
  lookup i := by
    have hk : (UInt32.ofNat k.index).toNat = k.index := Nat.mod_eq_of_lt hi
    have hsame : i = UInt32.ofNat k.index ↔ i.toNat = k.index := by
      rw [← UInt32.toNat_inj, hk]
    rw [lookup_credit, Matcher.lookup_credit, narrow, ofNat_min hn hc, h.lookup, h.lookup, hk]
    by_cases hik : i.toNat = k.index
    · rw [if_pos (hsame.mpr hik), if_pos hik, Option.map_some, UInt32.ofNat_add]
      cases r'.lookup k.index <;> rfl
    · rw [if_neg (hsame.not.mpr hik), if_neg hik]
  bounded i hmem := by
    cases Matcher.mem_credit.mp hmem with
    | inl hmem => exact h.bounded i hmem
    | inr e => rw [e]; exact hi

section Query

variable {index : UnorderedMap Str (List TargetSlice)}
  {index' : UnorderedMap Str (List Undervest.TargetSlice)}

/-- The posting lists hold no count above the range of the counters. -/
def CountsFit (index' : UnorderedMap Str (List Undervest.TargetSlice)) : Prop :=
  ∀ x, ∀ k ∈ (index'.lookup x).getD [], k.count < 2 ^ 32

theorem SameOverlaps.accumulate {r : Overlaps} {r' : Undervest.Overlaps} (h : SameOverlaps r r')
    (hindex : SameIndex index index') (hc : CountsFit index') (j : Str) {n : Nat}
    (hn : n < 2 ^ 32) :
    SameOverlaps (accumulate index j (UInt32.ofNat n) r) (Matcher.accumulate index' j n r') := by
  have hb := hindex.bounded j
  have hc := hc j
  rw [Machine.accumulate, Matcher.accumulate, hindex.lookup]
  cases hl : index'.lookup j with
  | none => exact h
  | some p =>
      rw [hl, Option.getD_some] at hb hc
      rw [Option.map_some]
      clear hl
      induction p generalizing r r' with
      | nil => exact h
      | cons k p ih =>
          rw [List.forall_mem_cons] at hb hc
          exact ih (h.credit hn hb.1 hc.1) hc.2 hb.2

/-- The groups of a query give the same counters, from any intermediate point. -/
theorem SameOverlaps.groupLoop (hindex : SameIndex index index') (hc : CountsFit index')
    (rest : List Str) (j : Str) {n : Nat} (hn : n + rest.length < 2 ^ 32) {r : Overlaps}
    {r' : Undervest.Overlaps} (h : SameOverlaps r r') :
    SameOverlaps
      (let g := Machine.groupLoop index j n rest r;
        Machine.accumulate index g.1 (UInt32.ofNat g.2.1) g.2.2)
      (let g := Matcher.groupLoop index' j n rest r';
        Matcher.accumulate index' g.1 g.2.1 g.2.2) := by
  induction rest generalizing j n r r' with
  | nil => exact h.accumulate hindex hc j hn
  | cons x rest ih =>
      rw [List.length_cons] at hn
      simp only [Machine.groupLoop, Matcher.groupLoop]
      split
      next => exact ih x (by omega) (h.accumulate hindex hc j (by omega))
      next => exact ih j (by omega) h

theorem sameOverlaps_empty : SameOverlaps ∅ ∅ :=
  ⟨fun _ => rfl, fun _ hi => absurd hi (AList.notMem_empty _)⟩

theorem sameOverlaps (hindex : SameIndex index index') (hc : CountsFit index') {s : List Str}
    (hs : s.length < 2 ^ 32) :
    SameOverlaps (overlaps index s) (Matcher.overlaps index' s) := by
  cases s with
  | nil => exact sameOverlaps_empty
  | cons j rest =>
      rw [List.length_cons, Nat.add_comm] at hs
      exact SameOverlaps.groupLoop hindex hc rest j hs sameOverlaps_empty

end Query

/-- The entries, narrowed one by one. -/
theorem SameOverlaps.entries_perm {r : Overlaps} {r' : Undervest.Overlaps} (h : SameOverlaps r r') :
    r.entries.Perm (r'.entries.map fun e => ⟨UInt32.ofNat e.1, UInt32.ofNat e.2⟩) := by
  have hfits : ∀ e ∈ r'.entries, (UInt32.ofNat e.1).toNat = e.1 := fun e he =>
    Nat.mod_eq_of_lt (h.bounded e.1 (AList.mem_keys.mpr (List.mem_keys_of_mem he)))
  have hnodup : (r'.entries.map fun e =>
      (⟨UInt32.ofNat e.1, UInt32.ofNat e.2⟩ : Sigma fun _ : UInt32 => UInt32)).Nodup := by
    refine List.Nodup.map_on (fun e he f hf hef => ?_) r'.nodupKeys.nodup
    have hkey : UInt32.ofNat e.1 = UInt32.ofNat f.1 := congrArg Sigma.fst hef
    have hkey : e.1 = f.1 := by rw [← hfits e he, ← hfits f hf, hkey]
    exact r'.nodupKeys.eq_of_fst_eq he hf hkey
  rw [List.perm_ext_iff_of_nodup r.nodupKeys.nodup hnodup]
  rintro ⟨i, v⟩
  rw [← AList.mem_lookup_iff, Option.mem_def, h.lookup, List.mem_map]
  constructor
  · intro hv
    obtain ⟨w, hw, rfl⟩ := Option.map_eq_some_iff.mp hv
    exact ⟨⟨i.toNat, w⟩, AList.mem_lookup_iff.mp hw, by rw [UInt32.ofNat_toNat]⟩
  · rintro ⟨e, he, heq⟩
    cases heq
    rw [hfits e he, AList.mem_lookup_iff.mpr he]
    rfl

/-- Doubling a counter wraps in both models. -/
theorem scoreOf_ofNat (v : Nat) (count : UInt16) (size : Nat) :
    scoreOf (UInt32.ofNat v) count size = Matcher.scoreOf v count.toNat size := by
  have h : (((2 * UInt32.ofNat v).toNat : Nat) : Int) = IntType.uint.wrap (2 * v) := by
    rw [UInt32.toNat_mul, UInt32.toNat_ofNat']
    change _ = (2 * v : Int) % 4294967296
    simp only [UInt32.reduceToNat]
    omega
  rw [scoreOf, quotient, Matcher.scoreOf, h]

/-- The results of a query do not depend on the width of the counters. -/
theorem matchResults_perm_narrow (c : Choices) {slice : Str → Bool → List Str} {m : Matcher}
    {m' : Undervest.Matcher} (h : Represents m m') (hc : CountsFit m'.index) {q : Str}
    (hq : (orEmpty (slice q false)).length < 2 ^ 32) :
    (matchResults c slice m q).Perm (Matcher.matchResults c slice m' q) := by
  have hperm := c.sort_perm Substring.lt (orEmpty (slice q false))
  have hsame := sameOverlaps h.index hc (s := c.sort Substring.lt (orEmpty (slice q false)))
    (by rw [hperm.length_eq]; exact hq)
  have hsort : ∀ l : List Result, (c.sort Result.lt l.reverse).reverse.Perm l := fun l =>
    (List.reverse_perm _).trans ((c.sort_perm _ _).trans (List.reverse_perm _))
  rw [matchResults, Matcher.matchResults, h.targets]
  refine (hsort _).trans (List.Perm.trans ?_ (hsort _).symm)
  refine (((c.iterate_perm _).trans hsame.entries_perm).map _).trans ?_
  refine List.Perm.trans (List.Perm.of_eq ?_) ((c.iterate_perm _).map _).symm
  rw [List.map_map]
  refine List.map_congr_left fun e he => ?_
  have hkey : (UInt32.ofNat e.1).toNat = e.1 :=
    Nat.mod_eq_of_lt (hsame.bounded e.1 (AList.mem_keys.mpr (List.mem_keys_of_mem he)))
  simp only [Function.comp_apply, hkey, scoreOf_ofNat]

/-- A matcher with some targets. -/
def ofNames (slice : Str → Bool → List Str) (names : List Str) : Matcher :=
  names.foldl (add slice) empty

section Names

variable {slice : Str → Bool → List Str} {names : List Str}

/-- The same targets, counted in natural numbers. -/
theorem ofNames_represents (hn : names.length ≤ 2 ^ 32) :
    Represents (ofNames slice names)
      (names.foldl (fun m t => m.add slice t) Matcher.empty) := by
  refine represents_empty.foldl_add slice names ?_
  rw [Matcher.empty, List.length_nil, Nat.zero_add]
  exact hn

theorem countsFit_of_indexes {m' : Undervest.Matcher}
    (h : Indexes (fun t => orEmpty (slice t true)) m' names)
    (ht : ∀ t ∈ names, (orEmpty (slice t true)).length < 2 ^ 32) : CountsFit m'.index := by
  intro x k hk
  rw [h.postings] at hk
  obtain ⟨t, hmem, hcount⟩ := count_of_mem_postings hk
  rw [hcount]
  exact List.count_le_length.trans_lt (ht t hmem)

theorem orEmpty_length_lt {s : List Str} {n : Nat} (hn : 1 < n) (h : s.length < n) :
    (orEmpty s).length < n := by
  unfold orEmpty
  split
  next => exact hn
  next => exact h

/-- The counters of a query, target by target. -/
theorem overlaps_ofNames (c : Choices) (hn : names.length ≤ 2 ^ 32)
    (ht : ∀ t ∈ names, (orEmpty (slice t true)).length < 2 ^ 32) {q : Str}
    (hq : (orEmpty (slice q false)).length < 2 ^ 32) {i : Nat} (hi : i < names.length) :
    (((overlaps (ofNames slice names).index
        (c.sort Substring.lt (orEmpty (slice q false)))).lookup (UInt32.ofNat i)).getD 0).toNat =
      overlap (orEmpty (slice q false)) (orEmpty (slice names[i] true)) := by
  have hix := indexes_foldl_add slice names [] Matcher.empty (indexes_empty _)
  have hperm := c.sort_perm Substring.lt (orEmpty (slice q false))
  have hsame := sameOverlaps (ofNames_represents hn).index (countsFit_of_indexes hix ht)
    (s := c.sort Substring.lt (orEmpty (slice q false))) (by rw [hperm.length_eq]; exact hq)
  have hvalue := overlaps_value hix (sorted_sort c (orEmpty (slice q false))) i
  have hslices : slicesAt (fun t => orEmpty (slice t true)) ([] ++ names) i =
      orEmpty (slice names[i] true) := by simp [slicesAt, List.getElem?_eq_getElem hi]
  rw [hslices, overlap_congr hperm (List.Perm.refl _), value] at hvalue
  have hkey : (UInt32.ofNat i).toNat = i := Nat.mod_eq_of_lt (by omega)
  have hle := overlap_le_left (orEmpty (slice q false)) (orEmpty (slice names[i] true))
  rw [hsame.lookup, hkey, ← hvalue]
  rw [← hvalue] at hle
  cases hl : (Matcher.overlaps _ (c.sort Substring.lt (orEmpty (slice q false)))).lookup i with
  | none => rfl
  | some v =>
      rw [hl, Option.getD_some] at hle
      exact Nat.mod_eq_of_lt (by omega)

/-- The results of a query have the targets that share a slice, in any number. -/
theorem results_ofNames (c : Choices) (hn : names.length ≤ 2 ^ 32)
    (ht : ∀ t ∈ names, (orEmpty (slice t true)).length < 2 ^ 32) {q : Str}
    (hq : (orEmpty (slice q false)).length < 2 ^ 32) :
    (matchResults c slice (ofNames slice names) q).Perm
      ((names.filter fun t => 0 < overlap (orEmpty (slice q false)) (orEmpty (slice t true))).map
        (resultOf (fun t => orEmpty (slice t true)) (orEmpty (slice q false)))) := by
  have hix := indexes_foldl_add slice names [] Matcher.empty (indexes_empty _)
  exact (matchResults_perm_narrow c (ofNames_represents hn) (countsFit_of_indexes hix ht) hq).trans
    (matchResults_perm c q hix)

/-- **The results of a query.**  There is one result for each target that shares a
slice with the query, and none for another one.  The counter of a target is the size
of the multiset intersection, and the best score comes first. -/
theorem match_results (c : Choices) (hn : names.length < 2 ^ 31)
    (ht : ∀ t ∈ names, (slice t true).length < 2 ^ 31) {q : Str}
    (hq : (slice q false).length < 2 ^ 31) :
    (matchResults c slice (ofNames slice names) q).Perm
        ((names.filter fun t =>
          ∃ x ∈ orEmpty (slice q false), x ∈ orEmpty (slice t true)).map
            (resultOf (fun t => orEmpty (slice t true)) (orEmpty (slice q false)))) ∧
      (∀ (i : Nat) (hi : i < names.length),
        (((overlaps (ofNames slice names).index
          (c.sort Substring.lt (orEmpty (slice q false)))).lookup (UInt32.ofNat i)).getD 0).toNat =
            ((↑(orEmpty (slice q false)) : Multiset Str) ∩ ↑(orEmpty (slice names[i] true))).card) ∧
      (matchResults c slice (ofNames slice names) q).Pairwise
        fun a b => b.score.value ≤ a.score.value := by
  have ht' : ∀ t ∈ names, (orEmpty (slice t true)).length < 2 ^ 32 := fun t hmem =>
    orEmpty_length_lt (by decide) ((ht t hmem).trans (by decide))
  have hq' : (orEmpty (slice q false)).length < 2 ^ 32 :=
    orEmpty_length_lt (by decide) (hq.trans (by decide))
  refine ⟨?_, fun i hi => overlaps_ofNames c (by omega) ht' hq' hi, sorted_reverse c _⟩
  refine (results_ofNames c (by omega) ht' hq').trans (List.Perm.of_eq ?_)
  simp only [overlap_pos_iff]

theorem match_results_sample :
    (matchResults Choices.canonical (ngramSlice 3)
      (ofNames (ngramSlice 3) [str "john.doe", str "jane"]) (str "jon.doe")).Perm
        [resultOf (fun t => orEmpty (ngramSlice 3 t true))
          (orEmpty (ngramSlice 3 (str "jon.doe") false)) (str "john.doe")] :=
  (match_results Choices.canonical (by simp) (by simp [ngramSlice, str])
    (by simp [ngramSlice, str])).1.trans (List.Perm.of_eq (by decide +kernel))

end Names

end Machine

end Undervest
