import Undervest.Matcher

/-!
# What a query finds

The counters of a query are followed through three layers.  Crediting a posting
list adds, to each target, the smaller of the group size and the target's own
count (`accumulate_value`).  The loop over the sorted slices adds up its groups,
and because the slices are sorted the groups are disjoint, so the sum is the
size of the multiset intersection (`overlaps_value`).  The results are then one
per target that shares a slice, up to order (`matchResults_perm`), best first
(`matchResults_sorted`).
-/

namespace Undervest

open Unordered FixedWidth

namespace Matcher

/-- Common elements of two slice lists, with multiplicity. -/
def overlap (q t : List Str) : Nat := ((↑q : Multiset Str) ∩ ↑t).card

theorem overlap_pos_iff {q t : List Str} : 0 < overlap q t ↔ ∃ x ∈ q, x ∈ t := by
  rw [overlap, Multiset.card_pos_iff_exists_mem]
  simp

theorem overlap_le_left (q t : List Str) : overlap q t ≤ q.length :=
  Multiset.card_le_card (Multiset.inter_le_left (s := (↑q : Multiset Str)) (t := ↑t))

theorem overlap_le_right (q t : List Str) : overlap q t ≤ t.length :=
  Multiset.card_le_card (Multiset.inter_le_right (s := (↑q : Multiset Str)) (t := ↑t))

theorem overlap_self (t : List Str) : overlap t t = t.length :=
  le_antisymm (overlap_le_left t t)
    (Multiset.card_le_card (Multiset.le_inter (le_refl (↑t : Multiset Str)) le_rfl))

theorem overlap_nil (t : List Str) : overlap [] t = 0 :=
  Nat.le_zero.mp (overlap_le_left [] t)

/-- A group of equal slices that the rest of the query does not have. -/
theorem overlap_group {j : Str} {n : Nat} {s : List Str} (t : List Str) (h : j ∉ s) :
    overlap (List.replicate n j ++ s) t = min n (t.count j) + overlap s t :=
  card_replicate_append_inter h

theorem overlap_congr {q q' t t' : List Str} (hq : q.Perm q') (ht : t.Perm t') :
    overlap q t = overlap q' t' := by
  rw [overlap, overlap, Multiset.coe_eq_coe.mpr hq, Multiset.coe_eq_coe.mpr ht]

/-- All slices are common when there are as many of them on both sides as there
are common ones. -/
theorem perm_of_overlap {q t : List Str} (h : q.length + t.length ≤ 2 * overlap q t) :
    q.Perm t := by
  have hl := overlap_le_left q t
  have hr := overlap_le_right q t
  have hq : (↑q : Multiset Str) ∩ ↑t = ↑q :=
    Multiset.eq_of_le_of_card_le Multiset.inter_le_left (show q.length ≤ overlap q t by omega)
  have ht : (↑q : Multiset Str) ∩ ↑t = ↑t :=
    Multiset.eq_of_le_of_card_le Multiset.inter_le_right (show t.length ≤ overlap q t by omega)
  exact Multiset.coe_eq_coe.mp (hq.symm.trans ht)

theorem overlap_of_perm {q t : List Str} (h : q.Perm t) :
    2 * overlap q t = q.length + t.length := by
  rw [overlap_congr h (List.Perm.refl t), overlap_self, h.length_eq, Nat.two_mul]

/-- The counter of a target, zero when it has none. -/
def value (r : Overlaps) (i : Nat) : Nat := (r.lookup i).getD 0

/-! ## One group -/

theorem lookup_credit (n : Nat) (r : Overlaps) (k : TargetSlice) (i : Nat) :
    (credit n r k).lookup i =
      if i = k.index then some ((r.lookup k.index).getD 0 + if n < k.count then n else k.count)
      else r.lookup i :=
  UnorderedMap.lookup_insert_emplace r k.index i 0 (· + if n < k.count then n else k.count)

theorem credit_value (n : Nat) (r : Overlaps) (k : TargetSlice) (i : Nat) :
    value (credit n r k) i = value r i + if k.index = i then min n k.count else 0 := by
  rw [value, lookup_credit]
  by_cases hi : i = k.index
  · subst hi
    rw [if_pos rfl, if_pos rfl, Option.getD_some, value]
    split_ifs <;> omega
  · rw [if_neg hi, if_neg (Ne.symm hi), Nat.add_zero, value]

theorem mem_credit {n : Nat} {r : Overlaps} {k : TargetSlice} {i : Nat} :
    i ∈ credit n r k ↔ i ∈ r ∨ i = k.index := by
  rw [credit, AList.mem_insert, UnorderedMap.mem_emplace]
  tauto

theorem foldl_credit_value (n : Nat) (i : Nat) (q : List TargetSlice) (r : Overlaps) :
    value (q.foldl (credit n) r) i =
      value r i + ((q.filter (·.index = i)).map fun k => min n k.count).sum := by
  induction q generalizing r with
  | nil => simp
  | cons k q ih =>
      rw [List.foldl_cons, ih, credit_value, List.filter_cons]
      by_cases hi : k.index = i
      · simp [hi, Nat.add_assoc]
      · simp [hi]

theorem mem_foldl_credit {n i : Nat} {q : List TargetSlice} {r : Overlaps} :
    i ∈ q.foldl (credit n) r ↔ i ∈ r ∨ ∃ k ∈ q, k.index = i := by
  induction q generalizing r with
  | nil => simp
  | cons k q ih =>
      rw [List.foldl_cons, ih, mem_credit]
      simp only [List.mem_cons, exists_eq_or_imp, or_assoc, eq_comm (a := i)]

/-- The entry of one target in a posting list. -/
theorem filter_postings (sl : Str → List Str) (x : Str) (i : Nat) (names : List Str) (m : Nat) :
    ((names.zipIdx m).flatMap fun t => entry t.2 ((sl t.1).count x)).filter (·.index = i) =
      if m ≤ i then entry i ((slicesAt sl names (i - m)).count x) else [] := by
  induction names generalizing m with
  | nil => simp [slicesAt, entry]
  | cons t names ih =>
      have hhead : (entry m ((sl t).count x)).filter (·.index = i) =
          if m = i then entry i ((sl t).count x) else [] := by
        unfold entry
        by_cases hc : (sl t).count x = 0
        · simp [hc]
        · by_cases hm : m = i <;> simp [hc, hm]
      rw [List.zipIdx_cons, List.flatMap_cons, List.filter_append, hhead, ih]
      rcases lt_trichotomy m i with hm | hm | hm
      · obtain ⟨d, rfl⟩ : ∃ d, i = m + 1 + d := ⟨i - (m + 1), by omega⟩
        have hd : m + 1 + d - m = d + 1 := by omega
        simp [hd, slicesAt, show m ≠ m + 1 + d by omega, show m ≤ m + 1 + d by omega]
      · subst hm
        simp [slicesAt]
      · simp [show ¬ m ≤ i by omega, show ¬ m + 1 ≤ i by omega, show m ≠ i by omega]

section Query

variable {sl : Str → List Str} {m : Matcher} {names : List Str}

theorem accumulate_eq (m : Matcher) (j : Str) (n : Nat) (r : Overlaps) :
    accumulate m.index j n r = ((m.index.lookup j).getD []).foldl (credit n) r := by
  unfold accumulate
  cases m.index.lookup j <;> rfl

/-- A group adds to each target the smaller of the two counts. -/
theorem accumulate_value (h : Indexes sl m names) (j : Str) (n : Nat) (r : Overlaps) (i : Nat) :
    value (accumulate m.index j n r) i =
      value r i + min n ((slicesAt sl names i).count j) := by
  rw [accumulate_eq, foldl_credit_value, h.postings, postings, filter_postings]
  by_cases hc : (slicesAt sl names i).count j = 0 <;> simp [entry, hc]

/-- A group reaches the targets that have its slice. -/
theorem mem_accumulate (h : Indexes sl m names) {j : Str} {n : Nat} {r : Overlaps} {i : Nat} :
    i ∈ accumulate m.index j n r ↔ i ∈ r ∨ j ∈ slicesAt sl names i := by
  have hp := filter_postings sl j i names 0
  rw [if_pos (Nat.zero_le i), Nat.sub_zero] at hp
  rw [accumulate_eq, mem_foldl_credit, h.postings, postings]
  refine or_congr Iff.rfl ⟨?_, fun hj => ?_⟩
  · rintro ⟨k, hk, hi⟩
    have hmem := (List.mem_filter (p := fun k => decide (k.index = i))).mpr
      ⟨hk, decide_eq_true hi⟩
    rw [hp] at hmem
    by_contra hj
    rw [List.count_eq_zero_of_not_mem hj] at hmem
    simp [entry] at hmem
  · have hc : (slicesAt sl names i).count j ≠ 0 := (List.count_pos_iff.mpr hj).ne'
    have hmem : (⟨i, (slicesAt sl names i).count j⟩ : TargetSlice) ∈
        (names.zipIdx.flatMap fun t => entry t.2 ((sl t.1).count j)).filter (·.index = i) := by
      rw [hp]
      simp [entry, hc]
    exact ⟨_, (List.mem_filter.mp hmem).1, rfl⟩

/-! ## All groups -/

/-- Slices that may stand in a sorted vector in this order. -/
abbrev Sorted (s : List Str) : Prop := s.Pairwise fun a b => Substring.lt b a = false

/-- The first slice of a later group is not in the rest of a sorted vector. -/
theorem notMem_of_lt {j x : Str} {rest : List Str} (hlt : Substring.lt j x = true)
    (hs : Sorted (x :: rest)) : j ∉ x :: rest := by
  have hxj : ∀ y, Substring.lt y x = false → j ≠ y := by
    rintro y hy rfl
    rw [hlt] at hy
    cases hy
  rintro hj
  cases List.mem_cons.mp hj with
  | inl e => exact hxj x (by rw [Substring.lt_eq_false_iff]; exact List.le_refl x) e
  | inr hmem => exact hxj j ((List.pairwise_cons.mp hs).1 j hmem) rfl

/-- The loop, from any intermediate point: `n` slices equal to `j` are waiting
and `rest` is still to be read. -/
theorem groupLoop_value (h : Indexes sl m names) (i : Nat) (rest : List Str) (j : Str) (n : Nat)
    (r : Overlaps) (hs : Sorted (j :: rest)) :
    value (let g := groupLoop m.index j n rest r; accumulate m.index g.1 g.2.1 g.2.2) i =
      value r i + overlap (List.replicate n j ++ rest) (slicesAt sl names i) := by
  induction rest generalizing j n r with
  | nil =>
      simp only [groupLoop, accumulate_value h]
      rw [overlap_group _ (List.not_mem_nil), overlap_nil, Nat.add_zero]
  | cons x rest ih =>
      have hx := List.pairwise_cons.mp hs
      by_cases hlt : Substring.lt j x = true
      · have ih := ih x 1 (accumulate m.index j n r) hx.2
        simp only [groupLoop, hlt, if_true] at ih ⊢
        rw [ih, accumulate_value h, Nat.add_assoc, overlap_group _ (notMem_of_lt hlt hx.2)]
        rfl
      · have hjx : j = x := Substring.eq_of_not_lt (by simpa using hlt) (hx.1 x (by simp))
        subst hjx
        have ih := ih j (n + 1) r hx.2
        rw [groupLoop, if_neg hlt]
        rw [List.replicate_succ', List.append_assoc, List.singleton_append] at ih
        exact ih

theorem mem_groupLoop (h : Indexes sl m names) (i : Nat) (rest : List Str) (j : Str) (n : Nat)
    (r : Overlaps) (hs : Sorted (j :: rest)) :
    i ∈ (let g := groupLoop m.index j n rest r; accumulate m.index g.1 g.2.1 g.2.2) ↔
      i ∈ r ∨ ∃ x ∈ j :: rest, x ∈ slicesAt sl names i := by
  induction rest generalizing j n r with
  | nil =>
      simp only [groupLoop, mem_accumulate h]
      simp
  | cons x rest ih =>
      have hx := List.pairwise_cons.mp hs
      by_cases hlt : Substring.lt j x = true
      · have ih := ih x 1 (accumulate m.index j n r) hx.2
        simp only [groupLoop, hlt, if_true] at ih ⊢
        rw [ih, mem_accumulate h]
        simp only [List.mem_cons, exists_eq_or_imp, or_assoc]
      · have hjx : j = x := Substring.eq_of_not_lt (by simpa using hlt) (hx.1 x (by simp))
        subst hjx
        have ih := ih j (n + 1) r hx.2
        rw [groupLoop, if_neg hlt]
        refine ih.trans (or_congr Iff.rfl ?_)
        simp only [List.mem_cons, exists_eq_or_imp, or_self_left]

/-- The counter of a target is its overlap with the query. -/
theorem overlaps_value (h : Indexes sl m names) {s : List Str} (hs : Sorted s) (i : Nat) :
    value (overlaps m.index s) i = overlap s (slicesAt sl names i) := by
  cases s with
  | nil => simp [overlaps, value, overlap]
  | cons j rest =>
      have := groupLoop_value h i rest j 1 ∅ hs
      simpa [overlaps, value] using this

/-- The targets that have a counter are those that share a slice. -/
theorem mem_overlaps (h : Indexes sl m names) {s : List Str} (hs : Sorted s) {i : Nat} :
    i ∈ overlaps m.index s ↔ 0 < overlap s (slicesAt sl names i) := by
  rw [overlap_pos_iff]
  cases s with
  | nil => simp [overlaps]
  | cons j rest =>
      have := mem_groupLoop h i rest j 1 ∅ hs
      simpa [overlaps] using this

end Query

/-! ## The results -/

/-- The result of a target with slices `t` for a query with slices `s`. -/
def resultOf (sl : Str → List Str) (s : List Str) (t : Str) : Result :=
  ⟨t, scoreOf (overlap s (sl t)) (UInt16.ofNat (sl t).length).toNat s.length⟩

theorem resultLt_strictWeak : StrictWeak Result.lt where
  asymm a b h := by
    rw [Result.lt, Scaled.lt_ushort_iff] at h
    rw [Result.lt, ← Bool.not_eq_true, Scaled.lt_ushort_iff]
    omega
  negTrans a b d hab hbd := by
    rw [Result.lt, ← Bool.not_eq_true, Scaled.lt_ushort_iff] at hab hbd ⊢
    omega

theorem sorted_sort (c : Choices) (s : List Str) : Sorted (c.sort Substring.lt s) :=
  c.sort_sorted s Substring.lt_strictWeak

/-- Sorting the reversed vector puts the best score first. -/
theorem sorted_reverse (c : Choices) (results : List Result) :
    (c.sort Result.lt results).reverse.Pairwise fun a b => b.score.value ≤ a.score.value := by
  rw [List.pairwise_reverse]
  refine (c.sort_sorted _ resultLt_strictWeak).imp fun {a b} h => ?_
  rw [Result.lt, ← Bool.not_eq_true, Scaled.lt_ushort_iff] at h
  omega

/-- The results stand in non-increasing order of score. -/
theorem matchResults_sorted (c : Choices) (slice : Str → Bool → List Str) (m : Matcher)
    (q : Str) :
    (matchResults c slice m q).Pairwise fun a b => b.score.value ≤ a.score.value :=
  sorted_reverse c _

section Results

variable {sl : Str → List Str} {m : Matcher} {names : List Str}

/-- The counters, as one entry per target that shares a slice. -/
theorem overlaps_entries_perm (h : Indexes sl m names) {s : List Str} (hs : Sorted s) :
    (overlaps m.index s).entries.Perm
      (((List.range names.length).filter fun i => 0 < overlap s (slicesAt sl names i)).map
        fun i => ⟨i, overlap s (slicesAt sl names i)⟩) := by
  have hinj : Function.Injective
      fun i : Nat => (⟨i, overlap s (slicesAt sl names i)⟩ : Sigma fun _ : Nat => Nat) :=
    fun i j hij => congrArg Sigma.fst hij
  rw [List.perm_ext_iff_of_nodup (overlaps m.index s).nodupKeys.nodup
    ((List.nodup_range.filter _).map hinj)]
  rintro ⟨i, v⟩
  have hmem := mem_overlaps h hs (i := i)
  have hval := overlaps_value h hs i
  rw [← AList.mem_lookup_iff, Option.mem_def, List.mem_map]
  constructor
  · intro hv
    have hi : 0 < overlap s (slicesAt sl names i) :=
      hmem.mp (AList.lookup_isSome.mp (by rw [hv]; rfl))
    have hlt : i < names.length := by
      by_contra hge
      simp [slicesAt, List.getElem?_eq_none (not_lt.mp hge), overlap] at hi
    rw [value, hv, Option.getD_some] at hval
    exact ⟨i, List.mem_filter.mpr ⟨List.mem_range.mpr hlt, decide_eq_true hi⟩, by rw [hval]⟩
  · rintro ⟨j, hj, hjv⟩
    obtain ⟨rfl, rfl⟩ : j = i ∧ overlap s (slicesAt sl names j) = v := by
      cases hjv
      exact ⟨rfl, rfl⟩
    have hpos := of_decide_eq_true (List.mem_filter.mp hj).2
    obtain ⟨w, hw⟩ := Option.isSome_iff_exists.mp (AList.lookup_isSome.mpr (hmem.mpr hpos))
    rw [hw, ← hval, value, hw, Option.getD_some]

/-- The names, listed by position. -/
theorem map_getD_range (names : List Str) :
    (List.range names.length).map (fun i => names.getD i []) = names := by
  apply List.ext_getElem
  · simp
  · intro i h₁ h₂
    simp [List.getElem?_eq_getElem h₂]

theorem slicesAt_of_lt (sl : Str → List Str) {names : List Str} {i : Nat}
    (h : i < names.length) : slicesAt sl names i = sl (names.getD i []) := by
  simp [slicesAt, List.getElem?_eq_getElem h]

/-- The targets that share a slice, found by position. -/
theorem filter_by_position (sl : Str → List Str) (names s : List Str) :
    ((List.range names.length).filter fun i => 0 < overlap s (slicesAt sl names i)).map
        (fun i => names.getD i []) =
      names.filter fun t => 0 < overlap s (sl t) := by
  conv_rhs => rw [← map_getD_range names, List.filter_map]
  congr 1
  apply List.filter_congr
  intro i hi
  rw [slicesAt_of_lt sl (List.mem_range.mp hi), Function.comp_apply]

/-- **The results of a query.**  Up to order there is one result for each target
that shares a slice with the query, with the score of the overlap. -/
theorem matchResults_perm (c : Choices) {slice : Str → Bool → List Str} (q : Str)
    (h : Indexes (fun t => orEmpty (slice t true)) m names) :
    (matchResults c slice m q).Perm
      ((names.filter fun t =>
          0 < overlap (orEmpty (slice q false)) (orEmpty (slice t true))).map
        (resultOf (fun t => orEmpty (slice t true)) (orEmpty (slice q false)))) := by
  have hperm := c.sort_perm Substring.lt (orEmpty (slice q false))
  have hov := fun t => overlap_congr hperm (List.Perm.refl t)
  have hent := overlaps_entries_perm h (sorted_sort c (orEmpty (slice q false)))
  simp only [hov] at hent
  rw [← filter_by_position (fun t => orEmpty (slice t true)), List.map_map]
  refine ((List.reverse_perm _).trans ((c.sort_perm _ _).trans (List.reverse_perm _))).trans ?_
  refine (((c.iterate_perm _).trans hent).map _).trans (List.Perm.of_eq ?_)
  rw [List.map_map]
  apply List.map_congr_left
  intro i hi
  have hlt := List.mem_range.mp (List.mem_filter.mp hi).1
  simp [h.targets, slicesAt_of_lt _ hlt, resultOf, hperm.length_eq, List.getElem?_eq_getElem hlt]

end Results

/-! ## Scores -/

/-- The score is the floor of the exact quotient, as long as the sum of the counts
fits in 32 bits. -/
theorem scoreOf_value {overlap count size : Nat} (ho : 2 * overlap ≤ count + size)
    (hs : count + size < 2 ^ 32) :
    (scoreOf overlap count size).value = (65535 * (2 * overlap) / (count + size) : Nat) := by
  have hle : 65535 * (2 * overlap) / (count + size) ≤ 65535 :=
    Nat.div_le_of_le_mul (by rw [Nat.mul_comm]; exact Nat.mul_le_mul_right _ ho)
  have hu : IntType.uint.wrap (2 * (overlap : Int)) = ((2 * overlap : Nat) : Int) :=
    IntType.wrap_of_contains (IntType.uint_contains.mpr ⟨by omega, by omega⟩)
  have hdiv := Scaled.divInt_ofInt_value (a := 2 * overlap) (b := count + size)
    (by omega) (by omega)
  rw [scoreOf, hu, ← Nat.cast_add, Scaled.convert_ulong_value (by rw [hdiv]; omega), hdiv]

end Matcher

end Undervest
