import Undervest.BasicSubstring

/-!
# Searches in a substring

The searches of `basic_substring` take a start position and return a position,
or `npos`.  A loop has a bound on its turns, and a result says that it ends.

A position in the rest of a substring is one in the substring itself only after
the start is added.  The search for a text adds it and the search for a
character does not (`findChar_eq`).  The two loops over a set of characters never
move on, so they end at once or not at all (`scanLoop_eq`).

`Least` is the specification: the least position with some property.
-/

namespace Undervest

namespace BasicSubstring

/-! ## The searches -/

/-- `traits_type::find`, as an offset from `p`. -/
def traitsFind (p : Str) (n : Nat) (c : Byte) : Option Nat := Undervest.find c (p.take n)

/-- `find(value_type, size_type)`. -/
def findChar (y : BasicSubstring) (c : Byte) (pos : Nat) : Option Nat :=
  let x := y.sub pos none
  traitsFind x.memory x.length c

/-- The loop of `find(const basic_substring&)`. -/
def findLoop (x s : BasicSubstring) (e : Nat) : Nat → Nat → Option (Option Nat)
  | 0, _ => none
  | turns + 1, p =>
      match traitsFind (x.memory.drop p) (e - p) (s.memory.headD 0) with
      | none => some none
      | some i =>
          if Substring.traitsCompare (x.memory.drop (p + i)) s.memory s.length = 0 then
            some (some (p + i))
          else findLoop x s e turns (p + i + 1)

/-- `find(const basic_substring&)`. -/
def findFrom (turns : Nat) (x s : BasicSubstring) : Option (Option Nat) :=
  if s.length = 0 ∨ s.length > x.length then some none
  else findLoop x s (x.length - s.length + 1) turns 0

/-- `find(const basic_substring&, size_type)`. -/
def find (turns : Nat) (y s : BasicSubstring) (pos : Nat) : Option (Option Nat) :=
  (findFrom turns (y.sub pos none) s).map fun p => p.map (· + pos)

/-- `at`, within the length. -/
def charAt (y : BasicSubstring) (pos : Nat) : Byte := y.memory.getD pos 0

/-- The loop of `find_first_of` and `find_first_not_of`. -/
def scanLoop (y : BasicSubstring) (stop : Byte → Bool) : Nat → Nat → Option (Option Nat)
  | 0, _ => none
  | turns + 1, pos =>
      if pos < y.length then
        if stop (y.charAt pos) then some (some pos) else scanLoop y stop turns pos
      else some none

def findFirstOf (turns : Nat) (y s : BasicSubstring) (pos : Nat) : Option (Option Nat) :=
  y.scanLoop (fun c => s.findChar c 0 ≠ none) turns pos

/-- `find_first_of(value_type, size_type)`. -/
def findFirstOfChar (y : BasicSubstring) (c : Byte) (pos : Nat) : Option Nat := y.findChar c pos

def findFirstNotOf (turns : Nat) (y s : BasicSubstring) (pos : Nat) : Option (Option Nat) :=
  y.scanLoop (fun c => s.findChar c 0 = none) turns pos

/-! ## Least positions -/

/-- The least position with a property, or none when there is no such position. -/
def Least (P : Nat → Prop) : Option Nat → Prop
  | none => ∀ i, ¬ P i
  | some i => P i ∧ ∀ j < i, ¬ P j

theorem Least.unique {P : Nat → Prop} {r r' : Option Nat} (h : Least P r) (h' : Least P r') :
    r = r' := by
  cases r with
  | none =>
      cases r' with
      | none => rfl
      | some j => exact absurd h'.1 (h j)
  | some i =>
      cases r' with
      | none => exact absurd h.1 (h' i)
      | some j =>
          rcases Nat.lt_trichotomy i j with hlt | rfl | hlt
          · exact absurd h.1 (h'.2 i hlt)
          · rfl
          · exact absurd h'.1 (h.2 j hlt)

/-- A character that meets a test stands at a position from `pos` on. -/
def Meets (s : Str) (pos : Nat) (p : Byte → Prop) (i : Nat) : Prop :=
  pos ≤ i ∧ ∃ c, s[i]? = some c ∧ p c

/-- A text occurs at a position from `pos` on. -/
def Occurs (s : Str) (pos : Nat) (t : Str) (i : Nat) : Prop :=
  pos ≤ i ∧ i ≤ s.length ∧ t <+: s.drop i

/-- A search in the rest of a text, with the start added. -/
theorem least_find (s : Str) (pos : Nat) (c : Byte) :
    Least (Meets s pos (· = c)) ((Undervest.find c (s.drop pos)).map (· + pos)) := by
  have hget : ∀ i, s[pos + i]? = (s.drop pos)[i]? := fun i => List.getElem?_drop.symm
  cases hf : Undervest.find c (s.drop pos) with
  | none =>
      rintro i ⟨hi, d, hd, rfl⟩
      obtain ⟨k, rfl⟩ := Nat.exists_eq_add_of_le hi
      rw [hget] at hd
      have := List.findIdx?_eq_none_iff.mp hf d (List.mem_of_getElem? hd)
      simp at this
  | some k =>
      obtain ⟨a, d, b, hs, rfl, hd, ha⟩ := split_of_findIdx? hf
      obtain rfl := beq_iff_eq.mp hd
      rw [Option.map_some]
      refine ⟨⟨Nat.le_add_left .., d, ?_, rfl⟩, ?_⟩
      · rw [Nat.add_comm, hget, hs, List.getElem?_append_right (Nat.le_refl _), Nat.sub_self]
        rfl
      · rintro j hj ⟨hpos, x, hx, rfl⟩
        obtain ⟨k, rfl⟩ := Nat.exists_eq_add_of_le hpos
        have hk : k < a.length := by omega
        rw [hget, hs, List.getElem?_append_left hk] at hx
        simpa using ha x (List.mem_of_getElem? hx)

/-! ## Characters -/

/-- The search for a character returns a position in the rest of the substring. -/
theorem findChar_eq (y : BasicSubstring) (c : Byte) (pos : Nat) :
    y.findChar c pos = Undervest.find c (y.contents.drop pos) := by
  change Undervest.find c (y.sub pos none).contents = _
  rw [contents_sub, part]

theorem find_eq_none {c : Byte} {s : Str} : Undervest.find c s = none ↔ c ∉ s := by
  rw [Undervest.find, List.findIdx?_eq_none_iff]
  constructor
  · intro h hc
    simpa using h c hc
  · intro h d hd
    rw [beq_eq_false_iff_ne]
    rintro rfl
    exact h hd

/-- It is the right one at the start, and when there is none. -/
theorem findChar_least_iff (y : BasicSubstring) (c : Byte) (pos : Nat) :
    Least (Meets y.contents pos (· = c)) (y.findChar c pos) ↔
      pos = 0 ∨ c ∉ y.contents.drop pos := by
  have hleast := least_find y.contents pos c
  rw [findChar_eq]
  constructor
  · intro h
    have he := h.unique hleast
    cases hf : Undervest.find c (y.contents.drop pos) with
    | none => exact Or.inr (find_eq_none.mp hf)
    | some k =>
        rw [hf, Option.map_some, Option.some.injEq] at he
        exact Or.inl (by omega)
  · rintro (rfl | hc)
    · simpa using hleast
    · rwa [find_eq_none.mpr hc] at hleast ⊢

/-! ## Sets of characters -/

/-- A loop that does not move on. -/
theorem scanLoop_eq (y : BasicSubstring) (stop : Byte → Bool) {turns pos : Nat} (ht : 0 < turns) :
    y.scanLoop stop turns pos =
      if pos < y.length then if stop (y.charAt pos) then some (some pos) else none
      else some none := by
  induction turns with
  | zero => exact absurd ht (Nat.lt_irrefl 0)
  | succ turns ih =>
      rw [scanLoop]
      cases turns with
      | zero => rfl
      | succ turns =>
          rw [ih (Nat.succ_pos _)]
          split_ifs <;> rfl

theorem contents_getElem? {y : BasicSubstring} {pos : Nat} (h : pos < y.length) :
    y.contents[pos]? = some (y.charAt pos) := by
  have hm : pos < y.memory.length := Nat.lt_of_lt_of_le h y.length_le_memory
  rw [contents, List.getElem?_take_of_lt h, charAt, List.getD_eq_getElem?_getD,
    List.getElem?_eq_getElem hm, Option.getD_some]

/-- It ends with the right position when the first character meets the test, and
at the end of the substring. -/
theorem scanLoop_least_iff {y : BasicSubstring} {stop : Byte → Bool} {p : Byte → Prop} {pos : Nat}
    (hstop : ∀ c, stop c = true ↔ p c) (h : pos ≤ y.length) :
    (∃ turns r, y.scanLoop stop turns pos = some r ∧ Least (Meets y.contents pos p) r) ↔
      pos = y.length ∨ ∃ c, y.contents[pos]? = some c ∧ p c := by
  constructor
  · rintro ⟨turns, r, hr, -⟩
    cases turns with
    | zero => cases hr
    | succ turns =>
        rw [scanLoop_eq y stop (Nat.succ_pos turns)] at hr
        by_cases hpos : pos < y.length
        · rw [if_pos hpos] at hr
          by_cases hs : stop (y.charAt pos) = true
          · exact Or.inr ⟨_, contents_getElem? hpos, (hstop _).mp hs⟩
          · rw [if_neg hs] at hr
            cases hr
        · exact Or.inl (by omega)
  · rintro (rfl | ⟨c, hc, hp⟩)
    · refine ⟨1, none, by rw [scanLoop, if_neg (Nat.lt_irrefl _)], ?_⟩
      rintro i ⟨hi, c, hc, -⟩
      have := (List.getElem?_eq_some_iff.mp hc).1
      rw [contents_length] at this
      omega
    · have hpos : pos < y.length := by
        have := (List.getElem?_eq_some_iff.mp hc).1
        rwa [contents_length] at this
      have he : y.charAt pos = c := by
        rw [contents_getElem? hpos] at hc
        exact Option.some.inj hc
      refine ⟨1, some pos, ?_, ⟨Nat.le_refl _, c, hc, hp⟩, fun j hj hm => ?_⟩
      · rw [scanLoop, if_pos hpos, he, if_pos ((hstop c).mpr hp)]
      · exact absurd hm.1 (by omega)

theorem findChar_zero_eq_none {s : BasicSubstring} {c : Byte} :
    s.findChar c 0 = none ↔ c ∉ s.contents := by
  rw [findChar_eq, List.drop_zero, find_eq_none]

/-! ## Texts -/

section Text

variable {x s : BasicSubstring} {p i turns : Nat}

theorem traitsFind_eq_none {m : Str} {n : Nat} {c : Byte} (h : traitsFind m n c = none) {k : Nat}
    (hk : k < n) : m[k]? ≠ some c := by
  intro hc
  refine find_eq_none.mp h (List.mem_of_getElem? (i := k) ?_)
  rwa [List.getElem?_take_of_lt hk]

theorem traitsFind_eq_some {m : Str} {n k : Nat} {c : Byte} (h : traitsFind m n c = some k) :
    k < n ∧ ∀ j < k, m[j]? ≠ some c := by
  obtain ⟨a, d, b, hs, rfl, -, ha⟩ := split_of_findIdx? h
  have hlen := congrArg List.length hs
  rw [List.length_take, List.length_append, List.length_cons] at hlen
  refine ⟨by omega, fun j hj hc => ?_⟩
  rw [← List.getElem?_take_of_lt (show j < n by omega), hs, List.getElem?_append_left hj] at hc
  simpa using ha c (List.mem_of_getElem? hc)

/-- An occurrence of a text, as the loop finds it. -/
theorem occurs_iff (hle : s.length ≤ x.length) :
    Occurs x.contents p s.contents i ↔
      p ≤ i ∧ i < x.length - s.length + 1 ∧
        Substring.traitsCompare (x.memory.drop i) s.memory s.length = 0 := by
  have hx := x.length_le_memory
  have hfit : i < x.length - s.length + 1 →
      (Substring.traitsCompare (x.memory.drop i) s.memory s.length = 0 ↔
        s.contents <+: x.contents.drop i) := by
    intro hi
    rw [traitsCompare_eq_zero_iff (by rw [List.length_drop]; omega) s.length_le_memory,
      List.prefix_iff_eq_take, contents_length, contents, contents, List.drop_take,
      List.take_take, Nat.min_eq_left (by omega), eq_comm]
  constructor
  · rintro ⟨hp, hi, hpre⟩
    have hlen := hpre.length_le
    rw [List.length_drop, contents_length, contents_length] at hlen
    rw [contents_length] at hi
    have hlt : i < x.length - s.length + 1 := by omega
    exact ⟨hp, hlt, (hfit hlt).mpr hpre⟩
  · rintro ⟨hp, hi, hc⟩
    exact ⟨hp, by rw [contents_length]; omega, (hfit hi).mp hc⟩

/-- An occurrence starts with the first character of the text. -/
theorem head_of_traitsCompare {m m' : Str} {n : Nat} (hn : 0 < n) (hm : n ≤ m.length)
    (hm' : n ≤ m'.length) (h : Substring.traitsCompare m m' n = 0) :
    m[0]? = some (m'.headD 0) := by
  obtain ⟨n, rfl⟩ : ∃ k, n = k + 1 := ⟨n - 1, by omega⟩
  obtain ⟨a, m, rfl⟩ := List.exists_cons_of_length_pos (Nat.zero_lt_of_lt hm)
  obtain ⟨b, m', rfl⟩ := List.exists_cons_of_length_pos (Nat.zero_lt_of_lt hm')
  rw [traitsCompare_eq_zero_iff hm hm', List.take_succ_cons, List.take_succ_cons] at h
  rw [List.getElem?_cons_zero, (List.cons.inj h).1, List.headD_cons]

/-- The loop ends with the least occurrence.  Each turn goes on behind the position
that it rejects. -/
theorem findLoop_least (hs : 0 < s.length) (hle : s.length ≤ x.length)
    (ht : x.length - s.length + 1 - p < turns) :
    ∃ r, findLoop x s (x.length - s.length + 1) turns p = some r ∧
      Least (Occurs x.contents p s.contents) r := by
  have hx := x.length_le_memory
  -- an occurrence is found by its first character
  have hhead : ∀ {q i : Nat}, Occurs x.contents q s.contents i →
      q ≤ i ∧ i < x.length - s.length + 1 ∧
        (x.memory.drop q)[i - q]? = some (s.memory.headD 0) := by
    intro q i h
    obtain ⟨hq, hi, hc⟩ := (occurs_iff hle).mp h
    have hget := head_of_traitsCompare hs (by rw [List.length_drop]; omega) s.length_le_memory hc
    refine ⟨hq, hi, ?_⟩
    rw [List.getElem?_drop] at hget ⊢
    rwa [show q + (i - q) = i + 0 by omega]
  induction turns generalizing p with
  | zero => exact absurd ht (Nat.not_lt_zero _)
  | succ turns ih =>
      rw [findLoop]
      cases hf : traitsFind (x.memory.drop p) (x.length - s.length + 1 - p) (s.memory.headD 0) with
      | none =>
          refine ⟨none, rfl, fun i h => ?_⟩
          obtain ⟨hq, hi, hget⟩ := hhead h
          exact traitsFind_eq_none hf (by omega) hget
      | some k =>
          obtain ⟨hk, hbefore⟩ := traitsFind_eq_some hf
          have hnone : ∀ j < p + k, ¬ Occurs x.contents p s.contents j := by
            intro j hj h
            obtain ⟨hq, -, hget⟩ := hhead h
            exact hbefore (j - p) (by omega) hget
          by_cases hc : Substring.traitsCompare (x.memory.drop (p + k)) s.memory s.length = 0
          · refine ⟨some (p + k), by simp only [if_pos hc], ?_, hnone⟩
            exact (occurs_iff hle).mpr ⟨Nat.le_add_right .., by omega, hc⟩
          · obtain ⟨r, hr, hleast⟩ := ih (p := p + k + 1) (by omega)
            have hiff : ∀ i, Occurs x.contents p s.contents i ↔
                Occurs x.contents (p + k + 1) s.contents i := by
              intro i
              constructor
              · intro h
                refine ⟨?_, h.2⟩
                rcases Nat.lt_trichotomy i (p + k) with hlt | rfl | hlt
                · exact absurd h (hnone i hlt)
                · exact absurd ((occurs_iff hle).mp h).2.2 hc
                · exact hlt
              · intro h
                exact ⟨by have := h.1; omega, h.2⟩
            refine ⟨r, by simp only [if_neg hc]; exact hr, ?_⟩
            rwa [funext fun i => propext (hiff i)]

/-- More turns do not change a result. -/
theorem findLoop_mono {e turns' : Nat} {r : Option Nat} (hr : findLoop x s e turns p = some r)
    (ht : turns ≤ turns') : findLoop x s e turns' p = some r := by
  induction turns generalizing p turns' with
  | zero => cases hr
  | succ turns ih =>
      obtain ⟨n, rfl⟩ : ∃ n, turns' = n + 1 := ⟨turns' - 1, by omega⟩
      rw [findLoop] at hr ⊢
      cases hf : traitsFind (x.memory.drop p) (e - p) (s.memory.headD 0) with
      | none => rwa [hf] at hr
      | some k =>
          simp only [hf] at hr ⊢
          split
          next hc => rwa [if_pos hc] at hr
          next hc =>
              rw [if_neg hc] at hr
              exact ih hr (Nat.le_of_succ_le_succ ht)

end Text

theorem find_mono {turns turns' : Nat} {y s : BasicSubstring} {pos : Nat} {r : Option Nat}
    (hr : y.find turns s pos = some r) (ht : turns ≤ turns') : y.find turns' s pos = some r := by
  rw [find, Option.map_eq_some_iff] at hr ⊢
  obtain ⟨r', hr', rfl⟩ := hr
  refine ⟨r', ?_, rfl⟩
  rw [findFrom] at hr' ⊢
  split
  next hc => rwa [if_pos hc] at hr'
  next hc =>
      rw [if_neg hc] at hr'
      exact findLoop_mono hr' ht

/-- The search for a text that is not empty ends with the least occurrence. -/
theorem find_least (y : BasicSubstring) {t : BasicSubstring} (ht : t.length ≠ 0) {pos : Nat}
    (h : pos ≤ y.length) :
    ∃ turns r, y.find turns t pos = some r ∧ Least (Occurs y.contents pos t.contents) r := by
  have hcontents : (y.sub pos none).contents = y.contents.drop pos := contents_sub y pos none
  have hlength := congrArg List.length hcontents
  rw [contents_length, List.length_drop, contents_length] at hlength
  -- a position in the rest is one in the substring when the start is added
  have hshift : ∀ i, Occurs y.contents pos t.contents (i + pos) ↔
      Occurs (y.sub pos none).contents 0 t.contents i := by
    intro i
    rw [hcontents, Occurs, Occurs, List.length_drop, List.drop_drop, Nat.add_comm pos,
      contents_length]
    exact and_congr (by omega) (and_congr (by omega) Iff.rfl)
  have hmap : ∀ r, Least (Occurs (y.sub pos none).contents 0 t.contents) r →
      Least (Occurs y.contents pos t.contents) (r.map (· + pos)) := by
    intro r hr
    have hback : ∀ i, Occurs y.contents pos t.contents i →
        ∃ k, i = k + pos ∧ Occurs (y.sub pos none).contents 0 t.contents k := by
      intro i hi
      obtain ⟨k, rfl⟩ := Nat.exists_eq_add_of_le' hi.1
      exact ⟨k, rfl, (hshift k).mp hi⟩
    cases r with
    | none =>
        intro i hi
        obtain ⟨k, -, hk⟩ := hback i hi
        exact hr k hk
    | some i =>
        refine ⟨(hshift i).mpr hr.1, fun j hj hocc => ?_⟩
        obtain ⟨k, rfl, hk⟩ := hback j hocc
        exact hr.2 k (Nat.lt_of_add_lt_add_right hj) hk
  by_cases hlong : t.length > (y.sub pos none).length
  · refine ⟨0, none, ?_, hmap none fun i hi => ?_⟩
    · rw [find, findFrom, if_pos (Or.inr hlong)]
      rfl
    · have := hi.2.2.length_le
      rw [List.length_drop, contents_length, contents_length] at this
      omega
  · obtain ⟨r, hr, hleast⟩ : ∃ r, findLoop (y.sub pos none) t
        ((y.sub pos none).length - t.length + 1) ((y.sub pos none).length - t.length + 2) 0 =
          some r ∧ Least (Occurs (y.sub pos none).contents 0 t.contents) r :=
      findLoop_least (by omega) (by omega) (by omega)
    refine ⟨(y.sub pos none).length - t.length + 2, r.map (· + pos), ?_, hmap r hleast⟩
    rw [find, findFrom, if_neg (by omega), hr]
    rfl

/-- A character occurs where a text of this one character does. -/
theorem occurs_singleton (s : Str) (c : Byte) (pos : Nat) :
    Occurs s pos [c] = Meets s pos (· = c) := by
  funext i
  have hget : [c] <+: s.drop i ↔ s[i]? = some c := by
    rw [← Nat.add_zero i, ← List.getElem?_drop, Nat.add_zero]
    cases s.drop i with
    | nil => simp
    | cons d r => simp [eq_comm]
  rw [Occurs, Meets, hget, eq_iff_iff]
  constructor
  · rintro ⟨hp, -, hc⟩
    exact ⟨hp, c, hc, rfl⟩
  · rintro ⟨hp, d, hc, rfl⟩
    exact ⟨hp, Nat.le_of_lt (List.getElem?_eq_some_iff.mp hc).1, hc⟩

/-! ## The searches against the scan -/

/-- **When the searches are right**, each by itself: those for a character, the one
for a text, the two for a set, and the search for a character against the one for
the text of this character. -/
theorem searches_iff (y t set : BasicSubstring) (c : Byte) {pos : Nat} (h : pos ≤ y.length) :
    (Least (Meets y.contents pos (· = c)) (y.findChar c pos) ↔
      pos = 0 ∨ c ∉ y.contents.drop pos) ∧
    ((∃ turns r, y.find turns t pos = some r ∧
        Least (Occurs y.contents pos t.contents) r) ↔ t.contents ≠ []) ∧
    (t.contents = [c] → ((∃ turns, y.find turns t pos = some (y.findChar c pos)) ↔
      pos = 0 ∨ c ∉ y.contents.drop pos)) ∧
    ((∃ turns r, y.findFirstOf turns set pos = some r ∧
        Least (Meets y.contents pos (· ∈ set.contents)) r) ↔
      pos = y.length ∨ ∃ d, y.contents[pos]? = some d ∧ d ∈ set.contents) ∧
    (Least (Meets y.contents pos (· = c)) (y.findFirstOfChar c pos) ↔
      pos = 0 ∨ c ∉ y.contents.drop pos) ∧
    ((∃ turns r, y.findFirstNotOf turns set pos = some r ∧
        Least (Meets y.contents pos (· ∉ set.contents)) r) ↔
      pos = y.length ∨ ∃ d, y.contents[pos]? = some d ∧ d ∉ set.contents) := by
  have hempty : t.contents = [] ↔ t.length = 0 := by
    rw [← contents_length, List.length_eq_zero_iff]
  refine ⟨findChar_least_iff y c pos, ?_, ?_, ?_, findChar_least_iff y c pos, ?_⟩
  · constructor
    · rintro ⟨turns, r, hr, hleast⟩ ht
      rw [find, findFrom, if_pos (Or.inl (hempty.mp ht)), Option.map_some, Option.map_none,
        Option.some.injEq] at hr
      rw [← hr, ht] at hleast
      exact hleast pos ⟨Nat.le_refl _, by rwa [contents_length], List.nil_prefix⟩
    · exact fun ht => find_least y (mt hempty.mpr ht) h
  · intro ht
    have hne : t.length ≠ 0 := fun h0 => by
      rw [hempty.mpr h0] at ht
      cases ht
    obtain ⟨turns, r, hr, hleast⟩ := find_least y hne h
    rw [ht, occurs_singleton] at hleast
    rw [← findChar_least_iff]
    constructor
    · rintro ⟨turns', hr'⟩
      have he := (find_mono hr (Nat.le_max_left turns turns')).symm.trans
        (find_mono hr' (Nat.le_max_right turns turns'))
      rwa [← Option.some.inj he]
    · intro hchar
      exact ⟨turns, by rw [hr, hleast.unique hchar]⟩
  · refine scanLoop_least_iff (fun d => ?_) h
    rw [decide_eq_true_iff, Ne, findChar_zero_eq_none, not_not]
  · refine scanLoop_least_iff (fun d => ?_) h
    rw [decide_eq_true_iff, findChar_zero_eq_none]

theorem searches_iff_sample :
    Least (Meets (ofString (str "ab") 0 none).contents 0 (· = ch 'b'))
      ((ofString (str "ab") 0 none).findChar (ch 'b') 0) :=
  ((searches_iff (ofString (str "ab") 0 none) empty empty (ch 'b')
    (show 0 ≤ _ by decide)).1).mpr (Or.inl rfl)

/-- Behind the start of a text the searches for a character disagree, and a loop
over a set does not end. -/
theorem searches_differ :
    (ofString (str "ab") 0 none).findChar (ch 'b') 1 = some 0 ∧
      (ofString (str "ab") 0 none).find 2 (ofString (str "b") 0 none) 1 = some (some 1) ∧
      ∀ turns, (ofString (str "ab") 0 none).findFirstOf turns (ofString (str "b") 0 none) 0 =
        none := by
  refine ⟨by decide, by decide, fun turns => ?_⟩
  cases turns with
  | zero => rfl
  | succ turns =>
      rw [findFirstOf, scanLoop_eq _ _ (Nat.succ_pos turns)]
      decide

end BasicSubstring

end Undervest
