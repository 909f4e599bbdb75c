import Undervest.Strings

/-!
# Splitting and joining strings

`implode` and `explode` of `stringlib.h`.  The loop of `explode` cuts a text at each
occurrence of the separator, from left to right.  `explode` then joins what exceeds
the limit into the last element, and gives the vector the size of the limit, also
when there are fewer pieces.

`Pieces.Cut` says what the loop cuts (`explodeLoop_eq`).  The pieces joined are the
text again (`Cut.implode_eq`), and there is one more than there are occurrences
(`Cut.length_eq`).  So the result depends on how the number of pieces and the limit
compare (`explode_eq`), and without a limit the limit is the length of the text.
-/

namespace Undervest

namespace Explode

/-! ## The functions -/

/-- The loop of `implode`. -/
def implodeLoop (separator : Str) : Str → List Str → Str
  | s, [] => s
  | s, x :: v => implodeLoop separator (s ++ (separator ++ x)) v

/-- `implode` of a range. -/
def implode (separator : Str) : List Str → Str
  | [] => []
  | x :: v => implodeLoop separator x v

/-- The offset of the first occurrence of a text. -/
def search (t : Str) : Str → Option Nat
  | [] => if t = [] then some 0 else none
  | c :: s => if t <+: c :: s then some 0 else (search t s).map (· + 1)

/-- `std::string::find` of a text from a position on. -/
def findText (s t : Str) (pos : Nat) : Option Nat :=
  if pos ≤ s.length then (search t (s.drop pos)).map (· + pos) else none

/-- `std::string::substr` up to a position, `npos` being the end. -/
def substr (s : Str) (b : Nat) : Option Nat → Str
  | none => s.drop b
  | some e => (s.drop b).take (e - b)

/-- The loop of `explode`, with a bound on its turns. -/
def explodeLoop (separator s : Str) : Nat → Nat → List Str → Option (List Str)
  | 0, _, _ => none
  | turns + 1, b, v =>
      let e := findText s separator b
      let v := v ++ [substr s b e]
      match e with
      | none => some v
      | some e => explodeLoop separator s turns (e + separator.length) v

/-- `std::vector::resize`. -/
def resize (v : List Str) (n : Nat) : List Str := v.take n ++ List.replicate (n - v.length) []

/-- What `explode` does with the pieces. -/
def limit (separator : Str) (v : List Str) (n : Int) : List Str :=
  if n < 0 then resize v (n + v.length).toNat
  else
    let n := if n = 0 then 1 else n.toNat
    let v := if v.length > n then v.set (n - 1) (implode separator (v.drop (n - 1))) else v
    resize v n

/-- `explode(separator, s, n)`. -/
def explode (separator s : Str) (n : Int) : Option (List Str) :=
  if separator.length = 0 then some (limit separator (s.map fun c => [c]) n)
  else (explodeLoop separator s (s.length + 1) 0 []).map fun v => limit separator v n

/-- `explode(separator, s)`. -/
def explodeAll (separator s : Str) : Option (List Str) := explode separator s s.length

/-! ## Occurrences -/

/-- Occurrences that do not overlap, from left to right.  The number is that of the
characters still in the last one. -/
def countFrom (t : Str) : Nat → Str → Nat
  | _, [] => 0
  | k + 1, _ :: s => countFrom t k s
  | 0, c :: s => if t <+: c :: s then countFrom t (t.length - 1) s + 1 else countFrom t 0 s

def occurrences (t s : Str) : Nat := countFrom t 0 s

/-- What stands behind the first `k` occurrences. -/
def behind (t : Str) : Nat → Str → Str
  | 0, s => s
  | k + 1, s =>
      match search t s with
      | none => []
      | some e => behind t k (s.drop (e + t.length))

theorem countFrom_eq (t : Str) (k : Nat) (s : Str) :
    countFrom t k s = occurrences t (s.drop k) := by
  induction k generalizing s with
  | zero => rfl
  | succ k ih =>
      cases s with
      | nil => rfl
      | cons c s => exact ih s

/-- A text is counted, and the count goes on behind it. -/
theorem occurrences_of_search {t s : Str} (ht : t ≠ []) {e : Nat} (h : search t s = some e) :
    occurrences t s = occurrences t (s.drop (e + t.length)) + 1 := by
  induction s generalizing e with
  | nil =>
      rw [search, if_neg ht] at h
      cases h
  | cons c s ih =>
      rw [search] at h
      rw [occurrences, countFrom]
      split
      next hpre =>
          rw [if_pos hpre, Option.some.injEq] at h
          obtain ⟨n, hn⟩ : ∃ n, t.length = n + 1 :=
            ⟨t.length - 1, by have := List.length_pos_iff.mpr ht; omega⟩
          rw [countFrom_eq, ← h, Nat.zero_add, hn, List.drop_succ_cons, Nat.add_sub_cancel]
      next hpre =>
          rw [if_neg hpre, Option.map_eq_some_iff] at h
          obtain ⟨k, hk, rfl⟩ := h
          rw [Nat.add_right_comm, List.drop_succ_cons]
          exact ih hk

theorem occurrences_of_search_none {t s : Str} (h : search t s = none) : occurrences t s = 0 := by
  induction s with
  | nil => rfl
  | cons c s ih =>
      rw [search] at h
      split at h
      next => cases h
      next hpre =>
          rw [occurrences, countFrom, if_neg hpre]
          exact ih (Option.map_eq_none_iff.mp h)

/-- A text stands where it is found. -/
theorem search_split {t s : Str} {e : Nat} (h : search t s = some e) :
    s = s.take e ++ (t ++ s.drop (e + t.length)) := by
  induction s generalizing e with
  | nil =>
      rw [search] at h
      split at h
      next ht => simp [ht]
      next => cases h
  | cons c s ih =>
      rw [search] at h
      split at h
      next hpre =>
          obtain ⟨r, hr⟩ := hpre
          rw [← Option.some.inj h, List.take_zero, List.nil_append, Nat.zero_add, ← hr,
            List.drop_left]
      next =>
          obtain ⟨k, hk, rfl⟩ := Option.map_eq_some_iff.mp h
          rw [List.take_succ_cons, Nat.add_right_comm, List.drop_succ_cons, List.cons_append,
            ← ih hk]

/-! ## Joining -/

theorem implodeLoop_eq (separator s : Str) (v : List Str) :
    implodeLoop separator s v = separator.intercalate (s :: v) := by
  induction v generalizing s with
  | nil => rw [implodeLoop, List.intercalate_singleton]
  | cons x v ih =>
      rw [implodeLoop, ih, List.intercalate_cons_cons]
      cases v with
      | nil => simp
      | cons y v => simp [List.intercalate_cons_cons]

theorem implode_eq (separator : Str) (v : List Str) :
    implode separator v = separator.intercalate v := by
  cases v with
  | nil => rfl
  | cons x v => exact implodeLoop_eq separator x v

theorem implode_cons (separator x : Str) {v : List Str} (hv : v ≠ []) :
    implode separator (x :: v) = x ++ (separator ++ implode separator v) := by
  rw [implode_eq, implode_eq, List.intercalate_cons_of_ne_nil hv, List.append_assoc]

theorem implode_append (separator : Str) {v w : List Str} (hv : v ≠ []) (hw : w ≠ []) :
    implode separator (v ++ w) =
      implode separator v ++ (separator ++ implode separator w) := by
  induction v with
  | nil => exact absurd rfl hv
  | cons x v ih =>
      cases v with
      | nil => exact implode_cons separator x hw
      | cons y v =>
          rw [List.cons_append, implode_cons _ _ (by simp), ih (by simp),
            implode_cons _ _ (List.cons_ne_nil y v)]
          simp only [List.append_assoc]

/-- The last elements may be joined first. -/
theorem implode_append_implode (separator : Str) (v : List Str) {w : List Str} (hw : w ≠ []) :
    implode separator (v ++ [implode separator w]) = implode separator (v ++ w) := by
  cases v with
  | nil => rfl
  | cons x v =>
      rw [implode_append _ (by simp) (by simp), implode_append _ (by simp) hw]
      rfl

/-- Empty elements behind others add separators. -/
theorem length_implode_replicate (separator : Str) {v : List Str} (hv : v ≠ []) (k : Nat) :
    (implode separator (v ++ List.replicate k [])).length =
      (implode separator v).length + k * separator.length := by
  have hempty : ∀ k, (implode separator (List.replicate (k + 1) [])).length =
      k * separator.length := by
    intro k
    induction k with
    | zero => simp [implode, implodeLoop]
    | succ k ih =>
        rw [List.replicate_succ, implode_cons _ _ (by simp), List.nil_append, List.length_append,
          ih, Nat.succ_mul, Nat.add_comm]
  cases k with
  | zero => simp
  | succ k =>
      rw [implode_append _ hv (by simp), List.length_append, List.length_append, hempty,
        Nat.succ_mul]
      omega

/-! ## The pieces -/

/-- A text is cut at the occurrences of another. -/
inductive Cut (t : Str) : Str → List Str → Prop where
  | last {s : Str} (h : search t s = none) : Cut t s [s]
  | cons {s : Str} {e : Nat} {v : List Str} (h : search t s = some e)
      (hv : Cut t (s.drop (e + t.length)) v) : Cut t s (s.take e :: v)

namespace Cut

variable {t s : Str} {v : List Str}

theorem ne_nil (h : Cut t s v) : v ≠ [] := by
  cases h <;> simp

/-- There is one piece more than there are occurrences. -/
theorem length_eq (ht : t ≠ []) (h : Cut t s v) : v.length = occurrences t s + 1 := by
  induction h with
  | last h => rw [occurrences_of_search_none h, List.length_singleton]
  | cons h _ ih => rw [List.length_cons, ih, occurrences_of_search ht h]

/-- The pieces joined are the text. -/
theorem implode_eq (h : Cut t s v) : implode t v = s := by
  induction h with
  | last => rfl
  | cons h hv ih => rw [implode_cons _ _ hv.ne_nil, ih, ← search_split h]

/-- The pieces from a position on are what stands behind as many occurrences. -/
theorem behind_eq (h : Cut t s v) {k : Nat} (hk : k < v.length) :
    behind t k s = implode t (v.drop k) := by
  induction h generalizing k with
  | last h =>
      obtain rfl := Nat.lt_one_iff.mp hk
      rfl
  | cons h hv ih =>
      cases k with
      | zero => exact (implode_eq (.cons h hv)).symm
      | succ k =>
          rw [behind, h, List.drop_succ_cons]
          exact ih (Nat.lt_of_succ_lt_succ hk)

end Cut

/-- The loop cuts the rest of the text, and ends. -/
theorem explodeLoop_eq {t : Str} (ht : t ≠ []) (s : Str) {turns b : Nat} (hb : b ≤ s.length)
    (hturns : s.length - b < turns) (v : List Str) :
    ∃ p, Cut t (s.drop b) p ∧ explodeLoop t s turns b v = some (v ++ p) := by
  induction turns generalizing b v with
  | zero => exact absurd hturns (Nat.not_lt_zero _)
  | succ turns ih =>
      have hpos := List.length_pos_iff.mpr ht
      rw [explodeLoop, findText, if_pos hb]
      cases hs : search t (s.drop b) with
      | none => exact ⟨[s.drop b], .last hs, rfl⟩
      | some e =>
          have hlen := congrArg List.length (search_split hs)
          simp only [List.length_append, List.length_take, List.length_drop] at hlen
          obtain ⟨p, hp, hloop⟩ := ih (b := e + b + t.length) (by omega) (by omega)
            (v ++ [(s.drop b).take e])
          refine ⟨(s.drop b).take e :: p, .cons hs ?_, ?_⟩
          · rwa [List.drop_drop, ← Nat.add_assoc, Nat.add_comm b]
          · simp only [Option.map_some, substr, Nat.add_sub_cancel]
            rw [hloop, List.append_assoc, List.singleton_append]

/-- **What `explode` gives** for a separator that is not empty: the pieces within the
limit, or joined down to it, or filled up to it. -/
theorem explode_eq {t : Str} (ht : t ≠ []) (s : Str) (n : Int) :
    ∃ p, Cut t s p ∧ explode t s n = some (limit t p n) := by
  obtain ⟨p, hp, hloop⟩ : ∃ p, Cut t s p ∧ explodeLoop t s (s.length + 1) 0 [] = some p :=
    explodeLoop_eq ht s (Nat.zero_le _) (by omega) []
  refine ⟨p, hp, ?_⟩
  rw [explode, if_neg (mt List.length_eq_zero_iff.mp ht), hloop]
  rfl

/-! ## The limit -/

/-- Within the number of pieces the last element holds the rest joined. -/
theorem limit_of_le (t : Str) {v : List Str} {n : Nat} (hn : 0 < n) (h : n ≤ v.length) :
    limit t v n = v.take (n - 1) ++ [implode t (v.drop (n - 1))] := by
  have hlast : n - 1 < v.length := by omega
  -- with as many pieces as the limit the assignment would change nothing
  have hset : (if v.length > n then v.set (n - 1) (implode t (v.drop (n - 1))) else v) =
      v.set (n - 1) (implode t (v.drop (n - 1))) := by
    split
    next => rfl
    next hle =>
        have hdrop : v.drop (n - 1) = [v[n - 1]] := by
          rw [List.drop_eq_getElem_cons hlast, List.drop_eq_nil_of_le (by omega)]
        rw [hdrop, implode, implodeLoop, List.set_getElem_self]
  rw [limit, if_neg (by omega)]
  simp only [show (n : Int) ≠ 0 by omega, if_false, Int.toNat_natCast, hset, resize,
    List.length_set]
  rw [List.set_eq_take_append_cons_drop, if_pos hlast, Nat.sub_eq_zero_of_le h,
    List.replicate_zero, List.append_nil, List.take_append, List.take_take,
    Nat.min_eq_right (Nat.sub_le n 1), List.length_take, Nat.min_eq_left hlast.le,
    show n - (n - 1) = 1 by omega]
  rfl

/-- Above it empty elements are added. -/
theorem limit_of_gt (t : Str) {v : List Str} {n : Nat} (h : v.length < n) :
    limit t v n = v ++ List.replicate (n - v.length) [] := by
  rw [limit, if_neg (by omega)]
  simp only [show (n : Int) ≠ 0 by omega, if_false, Int.toNat_natCast,
    if_neg (show ¬ v.length > n by omega), resize, List.take_of_length_le (Nat.le_of_lt h)]

theorem length_limit (t : Str) {v : List Str} {n : Nat} (hn : 0 < n) :
    (limit t v n).length = n := by
  by_cases h : n ≤ v.length
  · rw [limit_of_le t hn h, List.length_append, List.length_take, List.length_singleton]
    omega
  · rw [limit_of_gt t (by omega), List.length_append, List.length_replicate]
    omega

/-- The elements joined are the text exactly when none is added. -/
theorem Cut.implode_limit {t s : Str} {v : List Str} (ht : t ≠ []) (h : Cut t s v) {n : Nat}
    (hn : 0 < n) : implode t (limit t v n) = s ↔ n ≤ v.length := by
  constructor
  · intro he
    by_contra hgt
    have hlen := congrArg List.length he
    rw [limit_of_gt t (by omega), length_implode_replicate _ h.ne_nil, h.implode_eq] at hlen
    have : 0 < (n - v.length) * t.length :=
      Nat.mul_pos (by omega) (List.length_pos_iff.mpr ht)
    omega
  · intro hle
    have hne : v.drop (n - 1) ≠ [] := by
      rw [Ne, List.drop_eq_nil_iff]
      omega
    rw [limit_of_le t hn hle, implode_append_implode _ _ hne, List.take_append_drop, h.implode_eq]

/-- A split without a limit: the text comes back, and there is one element more than
there are occurrences. -/
structure Whole (t s : Str) (v : List Str) : Prop where
  joins : implode t v = s
  length : v.length = occurrences t s + 1

/-- A split with a limit: at most so many elements, the last one what is not split, and
the text comes back. -/
structure Limited (t s : Str) (n : Nat) (v : List Str) : Prop where
  length : v.length ≤ n
  last : v.getLast? = some (behind t (min (n - 1) (occurrences t s)) s)
  joins : implode t v = s

/-- **When `explode` and `implode` are a split and its inverse.**  Without a limit the
pieces must be as many as the text has characters, and a limit must not exceed their
number. -/
theorem explode_iff {t : Str} (ht : t ≠ []) (s : Str) :
    ((∃ v, explodeAll t s = some v ∧ Whole t s v) ↔ occurrences t s + 1 = max 1 s.length) ∧
      ∀ n : Nat, 0 < n →
        ((∃ v, explode t s n = some v ∧ Limited t s n v) ↔ n ≤ occurrences t s + 1) := by
  constructor
  · obtain ⟨p, hp, he⟩ := explode_eq ht s s.length
    have hlimit : limit t p s.length = limit t p (max 1 s.length : Nat) := by
      cases s with
      | nil => rfl
      | cons c s => rw [Nat.max_eq_right (show 1 ≤ (c :: s).length from Nat.succ_pos _)]
    have hpos : 0 < max 1 s.length := by omega
    have hlen := hp.length_eq ht
    have hjoins := hp.implode_limit ht hpos
    have hsize := length_limit t (v := p) hpos
    rw [explodeAll, he, hlimit]
    constructor
    · rintro ⟨v, hv, hwhole⟩
      obtain rfl := Option.some.inj hv
      rw [← hwhole.length, hsize]
    · intro hn
      exact ⟨_, rfl, hjoins.mpr (by omega), by rw [hsize, hn]⟩
  · intro n hn
    obtain ⟨p, hp, he⟩ := explode_eq ht s n
    have hlen := hp.length_eq ht
    have hjoins := hp.implode_limit ht hn
    rw [he, ← hlen]
    constructor
    · rintro ⟨v, hv, hlimited⟩
      obtain rfl := Option.some.inj hv
      exact hjoins.mp hlimited.joins
    · intro hle
      refine ⟨_, rfl, (length_limit t hn).le, ?_, hjoins.mpr hle⟩
      rw [limit_of_le t hn hle, List.getLast?_concat, Nat.min_eq_left (by omega),
        hp.behind_eq (by omega)]

theorem explode_iff_sample :
    ∃ v, explode (str ", ") (str "a, b, c") 2 = some v ∧ Limited (str ", ") (str "a, b, c") 2 v :=
  ((explode_iff (by decide) (str "a, b, c")).2 2 (by decide)).mpr (by decide)

/-- A text without the separator gets an empty element. -/
theorem explode_fills :
    explodeAll (str ",") (str "ab") = some [str "ab", []] ∧
      occurrences (str ",") (str "ab") = 0 ∧
      implode (str ",") [str "ab", []] = str "ab," := by decide

end Explode

end Undervest
