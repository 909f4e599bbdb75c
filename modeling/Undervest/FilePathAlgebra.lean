import Undervest.FilePath
import Undervest.Lib.Climb

/-!
# Joining paths

A list of components is read as a climb: `.` is nothing, `..` is a step up, and any
other component is a name (`climb`).  `normalize` writes that climb down again, with
its steps up if the path is relative and without them if it is absolute
(`normalize_eq`, `spell`).  What is written down may be read and extended, and
nothing is lost (`spell_climb_mul`).

So `+` multiplies climbs and is associative (`add_associative`).  `relativeFrom` steps up
along what the base has behind the common prefix, which cancels
(`Climb.downs_mul_up_pow`), and goes down along the rest of the path
(`relativeFrom_inverse`).
-/

namespace Undervest.FilePath

/-! ## Operations -/

/-- `FilePath::operator+=` and `FilePath::operator+`, which throws for an absolute
second operand. -/
def add (x y : FilePath) : Option FilePath :=
  if y.relative = false then none
  else some (normalize ⟨x.relative, x.components ++ y.components⟩)

/-- `FilePath::resolveRelative`. -/
def resolveRelative (f base : FilePath) : Option FilePath :=
  if f.relative = false then some f else base.add f

/-- `FilePath::parentCount`. -/
def parentCount (f : FilePath) : Nat := (f.components.takeWhile (· == str "..")).length

/-- The loop of `commonPrefixLength`. -/
def commonPrefixLoop : List Str → List Str → Nat
  | p :: ps, q :: qs => if p = q then commonPrefixLoop ps qs + 1 else 0
  | _, _ => 0

/-- `FilePath::commonPrefixLength`. -/
def commonPrefixLength (f path : FilePath) : Nat :=
  if f.relative ≠ path.relative then 0 else commonPrefixLoop f.components path.components

/-- `FilePath::relativeFrom`, which throws for paths that are not related. -/
def relativeFrom (f base : FilePath) : Option FilePath :=
  if f.relative ≠ base.relative ∨ base.parentCount > f.parentCount then none
  else
    let n := f.commonPrefixLength base
    add ⟨true, List.replicate (base.components.length - n) (str "..")⟩ ⟨true, f.components.drop n⟩

/-! ## Climbs -/

/-- A component that is neither `.` nor `..`. -/
abbrev Name := { c : Str // c ≠ str "." ∧ c ≠ str ".." }

/-- What a component does. -/
def stride (c : Str) : Climb Name :=
  if hdot : c = str "." then 1
  else if hdd : c = str ".." then Climb.up
  else Climb.downs [⟨c, hdot, hdd⟩]

/-- What components do, one after the other. -/
def climb (components : List Str) : Climb Name := (components.map stride).prod

/-- The components of a climb. -/
def spell (relative : Bool) (x : Climb Name) : List Str :=
  (if relative then List.replicate x.ups (str "..") else []) ++ x.names.map Subtype.val

theorem stride_dot : stride (str ".") = 1 := dif_pos rfl

theorem stride_parent : stride (str "..") = Climb.up := by
  rw [stride, dif_neg (by decide), dif_pos rfl]

theorem stride_name {c : Str} (hdot : c ≠ str ".") (hdd : c ≠ str "..") :
    stride c = Climb.downs [⟨c, hdot, hdd⟩] := by
  rw [stride, dif_neg hdot, dif_neg hdd]

theorem climb_nil : climb [] = 1 := rfl

theorem climb_cons (c : Str) (l : List Str) : climb (c :: l) = stride c * climb l := by
  rw [climb, List.map_cons, List.prod_cons]
  rfl

theorem climb_append (l l' : List Str) : climb (l ++ l') = climb l * climb l' := by
  rw [climb, List.map_append, List.prod_append]
  rfl

theorem climb_parents (n : Nat) : climb (List.replicate n (str "..")) = Climb.up ^ n := by
  rw [climb, List.map_replicate, List.prod_replicate, stride_parent]

theorem climb_names (l : List Name) : climb (l.map Subtype.val) = Climb.downs l := by
  induction l with
  | nil => rfl
  | cons c l ih =>
      rw [List.map_cons, climb_cons, ih, stride_name c.2.1 c.2.2, ← Climb.downs_append,
        List.singleton_append]

/-- What is written down is read again. -/
theorem climb_spell (relative : Bool) (x : Climb Name) :
    climb (spell relative x) = ⟨if relative then x.ups else 0, x.names⟩ := by
  cases relative with
  | false => exact climb_names x.names
  | true =>
      rw [spell, if_pos rfl, climb_append, climb_parents, climb_names, ← Climb.eq_mul, if_pos rfl]

/-- Nothing is lost by writing down a climb before it goes on. -/
theorem spell_climb_mul (relative : Bool) (x y : Climb Name) :
    spell relative (climb (spell relative x) * y) = spell relative (x * y) := by
  rw [climb_spell]
  cases relative with
  | true => rfl
  | false =>
      have hnames : ((⟨0, x.names⟩ : Climb Name) * y).names = (x * y).names :=
        Climb.mul_names_congr rfl y
      rw [spell, spell]
      exact congrArg (fun l => [] ++ List.map Subtype.val l) hnames

theorem spell_concat (relative : Bool) (n : Nat) (l : List Name) (c : Name) :
    spell relative ⟨n, l ++ [c]⟩ = spell relative ⟨n, l⟩ ++ [c.val] := by
  rw [spell, spell, List.map_append, List.append_assoc]
  rfl

/-- A turn of `normalize` is a stride. -/
theorem normalizeTurn_eq (relative : Bool) (x : Climb Name) (c : Str) :
    normalizeTurn relative (spell relative x).reverse c =
      (spell relative (x * stride c)).reverse := by
  obtain ⟨n, names⟩ := x
  by_cases hdot : c = str "."
  · rw [hdot, stride_dot, mul_one, normalizeTurn.eq_def, if_pos rfl]
  by_cases hdd : c = str ".."
  · rw [hdd, stride_parent]
    rcases List.eq_nil_or_concat' names with rfl | ⟨l, q, rfl⟩
    · rw [Climb.mul_up_of_nil rfl]
      cases relative with
      | false => rfl
      | true =>
          cases n with
          | zero => rfl
          | succ n =>
              have hspell : spell true ⟨n + 1, []⟩ = List.replicate (n + 1) (str "..") :=
                List.append_nil _
              have hturn : spell true ⟨n + 2, []⟩ = List.replicate (n + 2) (str "..") :=
                List.append_nil _
              rw [hspell, hturn, List.reverse_replicate, List.reverse_replicate,
                List.replicate_succ, normalizeTurn_parent, if_neg (by simp)]
              rfl
    · rw [Climb.mul_up_of_names rfl, spell_concat, List.reverse_append]
      exact (normalizeTurn_parent ..).trans (if_pos q.2.2)
  · rw [stride_name hdot hdd, Climb.mul_downs, spell_concat, List.reverse_append,
      normalizeTurn.eq_def, if_neg hdot, if_neg hdd]
    rfl

theorem foldl_normalizeTurn_eq (relative : Bool) (l : List Str) (x : Climb Name) :
    l.foldl (normalizeTurn relative) (spell relative x).reverse =
      (spell relative (x * climb l)).reverse := by
  induction l generalizing x with
  | nil => rw [climb_nil, mul_one, List.foldl_nil]
  | cons c l ih => rw [List.foldl_cons, normalizeTurn_eq, ih, climb_cons, mul_assoc]

/-- **What `normalize` computes.** -/
theorem normalize_eq (f : FilePath) :
    normalize f = ⟨f.relative, spell f.relative (climb f.components)⟩ := by
  have hempty : spell f.relative 1 = [] := by cases f.relative <;> rfl
  have hfold := foldl_normalizeTurn_eq f.relative f.components 1
  rw [hempty, List.reverse_nil, one_mul] at hfold
  rw [normalize, hfold, List.reverse_reverse]

theorem spell_climb_of_normal {relative : Bool} {l : List Str}
    (h : NormalComponents relative l) : spell relative (climb l) = l := by
  have := normalize_of_normal h
  rw [normalize_eq] at this
  exact congrArg components this

/-! ## Concatenation -/

theorem add_eq {x y : FilePath} (h : y.relative = true) :
    x.add y = some ⟨x.relative, spell x.relative (climb x.components * climb y.components)⟩ := by
  rw [add, if_neg (by simp [h]), normalize_eq, climb_append]

/-- **Concatenation is associative**, and so is resolving. -/
theorem add_associative (a : FilePath) {b c : FilePath} (hb : b.relative = true)
    (hc : c.relative = true) :
    ∃ ab bc abc, a.add b = some ab ∧ ab.add c = some abc ∧ b.add c = some bc ∧
      a.add bc = some abc ∧ b.resolveRelative a = some ab ∧ c.resolveRelative ab = some abc ∧
      bc.resolveRelative a = some abc := by
  have hleft := add_eq (x := ⟨a.relative, spell a.relative (climb a.components *
    climb b.components)⟩) hc
  have hright := add_eq (x := a) (y := ⟨b.relative, spell b.relative (climb b.components *
    climb c.components)⟩) hb
  have hread : climb (spell b.relative (climb b.components * climb c.components)) =
      climb b.components * climb c.components := by
    rw [hb, climb_spell]
    rfl
  rw [spell_climb_mul, mul_assoc] at hleft
  rw [hread] at hright
  refine ⟨_, _, _, add_eq hb, hleft, add_eq hc, hright, ?_, ?_, ?_⟩
  · rw [resolveRelative, if_neg (by simp [hb]), add_eq hb]
  · rw [resolveRelative, if_neg (by simp [hc]), hleft]
  · rw [resolveRelative, if_neg (by simp [hb]), hright]

theorem add_associative_sample :
    let a : FilePath := ⟨false, [str "x", str "y"]⟩
    let b : FilePath := ⟨true, [str "..", str "z", str "..", str ".."]⟩
    let c : FilePath := ⟨true, [str "..", str ".", str "w"]⟩
    ∃ ab bc abc, a.add b = some ab ∧ ab.add c = some abc ∧ b.add c = some bc ∧
      a.add bc = some abc ∧ b.resolveRelative a = some ab ∧ c.resolveRelative ab = some abc ∧
      bc.resolveRelative a = some abc :=
  add_associative _ rfl rfl

/-! ## Relative paths -/

/-- Behind the common prefix the two lists do not start alike. -/
theorem commonPrefixLoop_spec (ps qs : List Str) :
    ∃ l ps' qs', ps = l ++ ps' ∧ qs = l ++ qs' ∧ commonPrefixLoop ps qs = l.length ∧
      ∀ c ∈ ps'.head?, c ∉ qs'.head? := by
  induction ps generalizing qs with
  | nil => exact ⟨[], [], qs, rfl, rfl, rfl, by simp⟩
  | cons p ps ih =>
      cases qs with
      | nil => exact ⟨[], p :: ps, [], rfl, rfl, rfl, by simp⟩
      | cons q qs =>
          by_cases hpq : p = q
          · obtain ⟨l, ps', qs', hps, hqs, hlen, hne⟩ := ih qs
            refine ⟨p :: l, ps', qs', ?_, ?_, ?_, hne⟩
            · rw [hps, List.cons_append]
            · rw [hqs, hpq, List.cons_append]
            · rw [commonPrefixLoop, if_pos hpq, hlen, List.length_cons]
          · refine ⟨[], p :: ps, q :: qs, rfl, rfl, if_neg hpq, ?_⟩
            simpa using Ne.symm hpq

/-- The base has names only behind the common prefix, unless it starts with more `..`
than the path. -/
theorem parent_notMem {relative relative' : Bool} {l ps qs : List Str}
    (h : NormalComponents relative (l ++ qs))
    (hle : parentCount ⟨relative, l ++ qs⟩ ≤ parentCount ⟨relative', l ++ ps⟩)
    (hne : ∀ c ∈ ps.head?, c ∉ qs.head?) : str ".." ∉ qs := by
  intro hmem
  have hparents := List.pairwise_append.mp h.parents
  have hall : ∀ c ∈ l, (c == str "..") = true := fun c hc => by
    simpa using hparents.2.2 c hc _ hmem rfl
  simp only [parentCount, List.takeWhile_append_of_pos hall, List.length_append] at hle
  -- the base goes on with a `..`, so the path does as well
  obtain ⟨q, qs, rfl⟩ := List.exists_cons_of_ne_nil (List.ne_nil_of_mem hmem)
  have hq : q = str ".." := by
    rcases List.mem_cons.mp hmem with hq | hmem
    · exact hq.symm
    · exact (List.pairwise_cons.mp hparents.2.1).1 _ hmem rfl
  have hpos : 0 < ((q :: qs).takeWhile (· == str "..")).length := by
    rw [List.takeWhile_cons_of_pos (by simpa using hq)]
    exact Nat.succ_pos _
  cases ps with
  | nil =>
      rw [List.takeWhile_nil, List.length_nil] at hle
      omega
  | cons p ps =>
      have hp : p ≠ str ".." := by
        intro hp
        exact hne p rfl (by simp [hq, hp])
      have hnil : (p :: ps).takeWhile (· == str "..") = [] :=
        List.takeWhile_cons_of_neg (by simpa using hp)
      rw [hnil, List.length_nil] at hle
      omega

/-- Names, and a step up for each of them. -/
theorem climb_mul_parents {l : List Str} (hdot : str "." ∉ l) (hdd : str ".." ∉ l) :
    climb l * Climb.up ^ l.length = 1 := by
  have hname : ∀ c ∈ l, c ≠ str "." ∧ c ≠ str ".." := fun c hc =>
    ⟨fun h => hdot (h ▸ hc), fun h => hdd (h ▸ hc)⟩
  have hl : (l.attachWith _ hname).map Subtype.val = l := List.attachWith_map_subtype_val ..
  rw [← hl, climb_names, List.length_map]
  exact Climb.downs_mul_up_pow _

/-- The path from the base leads to the path. -/
theorem add_relativeFrom {p b r : FilePath} (hp : NormalComponents p.relative p.components)
    (hb : NormalComponents b.relative b.components) (hr : p.relativeFrom b = some r) :
    r.relative = true ∧ b.add r = some p := by
  obtain ⟨prel, pl⟩ := p
  obtain ⟨brel, bl⟩ := b
  rw [relativeFrom] at hr
  split at hr
  next => cases hr
  next hrelated =>
    obtain ⟨hrel, hle⟩ := not_or.mp hrelated
    obtain rfl : prel = brel := not_not.mp hrel
    obtain ⟨l, ps, qs, rfl, rfl, hlen, hne⟩ := commonPrefixLoop_spec pl bl
    have hn : commonPrefixLength ⟨prel, l ++ ps⟩ ⟨prel, l ++ qs⟩ = l.length :=
      (if_neg hrel).trans hlen
    have hup : str ".." ∉ qs := parent_notMem hb (Nat.le_of_not_lt hle) hne
    have hcancel := climb_mul_parents (fun h => hb.noDot (List.mem_append_right l h)) hup
    simp only [hn, List.drop_left, List.length_append, Nat.add_sub_cancel_left] at hr
    rw [add_eq rfl, Option.some.injEq, climb_parents] at hr
    subst hr
    refine ⟨rfl, ?_⟩
    rw [add_eq rfl, climb_spell, climb_append]
    have hpath : climb l * climb qs * (Climb.up ^ qs.length * climb ps) = climb (l ++ ps) := by
      rw [mul_assoc, ← mul_assoc (climb qs), hcancel, one_mul, climb_append]
    exact congrArg (fun c => some (FilePath.mk prel c))
      ((congrArg (spell prel) hpath).trans (spell_climb_of_normal hp))

/-- **What `relativeFrom` returns.** -/
theorem relativeFrom_inverse {p b : FilePath} (hp : NormalComponents p.relative p.components)
    (hb : NormalComponents b.relative b.components) :
    (p.relativeFrom b = none ↔
        p.relative ≠ b.relative ∨ p.parentCount < b.parentCount) ∧
      ∀ r, p.relativeFrom b = some r → r.relative = true ∧ b.add r = some p := by
  refine ⟨?_, fun r hr => add_relativeFrom hp hb hr⟩
  rw [relativeFrom]
  split
  next hrelated => exact iff_of_true rfl hrelated
  next hrelated =>
    refine iff_of_false ?_ hrelated
    rw [add_eq rfl]
    exact Option.some_ne_none _

theorem relativeFrom_inverse_sample :
    let p : FilePath := ⟨true, [str "..", str "..", str "x"]⟩
    let b : FilePath := ⟨true, [str "..", str "y", str "z"]⟩
    (p.relativeFrom b = none ↔ p.relative ≠ b.relative ∨ p.parentCount < b.parentCount) ∧
      ∀ r, p.relativeFrom b = some r → r.relative = true ∧ b.add r = some p :=
  relativeFrom_inverse ⟨by decide, by decide, by decide⟩ ⟨by decide, by decide, by decide⟩

end Undervest.FilePath
