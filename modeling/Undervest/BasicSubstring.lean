import Undervest.Substring

/-!
# The class of substrings

`BasicSubstring` is the class `basic_substring` with its pointer: `data` is the
memory from the first character on, `none` being the null pointer, and `length`
the number of characters that belong to the substring.  Its fields say that the
characters are there, and that exactly an empty substring has a null pointer.

`contents` is what a substring stands for.  Every constructor goes through
`assignHelper`, and `contents_assignHelper` is its law.  `npos` is `none`, as a
length and as the result of a search.
-/

namespace Undervest

/-! ## The class -/

structure BasicSubstring where
  /-- `_M_data`. -/
  data : Option Str
  /-- `_M_length`. -/
  length : Nat
  inside : length ≤ (data.getD []).length
  null_iff : data = none ↔ length = 0
deriving DecidableEq, Repr

namespace BasicSubstring

def empty : BasicSubstring := ⟨none, 0, Nat.le_refl 0, by simp⟩

/-- The memory from the first character on. -/
def memory (s : BasicSubstring) : Str := s.data.getD []

/-- The characters of a substring. -/
def contents (s : BasicSubstring) : Str := s.memory.take s.length

theorem length_le_memory (s : BasicSubstring) : s.length ≤ s.memory.length := s.inside

@[simp] theorem contents_length (s : BasicSubstring) : s.contents.length = s.length := by
  rw [contents, List.length_take, Nat.min_eq_left s.length_le_memory]

@[simp] theorem contents_empty : empty.contents = [] := rfl

/-! ## Construction -/

/-- The length after both tests of `__assign_helper`. -/
def clamp (room : Nat) : Option Nat → Nat
  | none => room
  | some len => if len > room then room else len

theorem clamp_le (room : Nat) (len : Option Nat) : clamp room len ≤ room := by
  cases len with
  | none => exact Nat.le_refl room
  | some n =>
      rw [clamp]
      split_ifs <;> omega

/-- `__assign_helper`, for a size that its caller vouches for. -/
def assignHelper (s : Option Str) (pos : Nat) (len ssize : Option Nat)
    (h : ∀ n ∈ ssize, n ≤ (s.getD []).length) : BasicSubstring :=
  match s with
  | none => empty
  | some m =>
      let size := ssize.getD (cStr m).length
      let p := if pos > size then size else pos
      let n := clamp (size - p) len
      if hn : n = 0 then empty
      else
        { data := some (m.drop p)
          length := n
          inside := by
            have hsize : size ≤ m.length := by
              cases ssize with
              | none => exact (List.takeWhile_prefix _).length_le
              | some k => exact h k rfl
            have := clamp_le (size - p) len
            rw [Option.getD_some, List.length_drop]
            omega
          null_iff := by simp [hn] }

/-- The part of a text that starts at a position. -/
def part (s : Str) (pos : Nat) : Option Nat → Str
  | none => s.drop pos
  | some len => (s.drop pos).take len

/-- **What a constructor makes**: a part of the text it is given. -/
theorem contents_assignHelper (m : Str) (pos : Nat) (len ssize : Option Nat)
    (h : ∀ n ∈ ssize, n ≤ m.length) :
    (assignHelper (some m) pos len ssize h).contents =
      part (m.take (ssize.getD (cStr m).length)) pos len := by
  generalize hsize : ssize.getD (cStr m).length = size
  have hle : size ≤ m.length := by
    cases ssize with
    | none => exact hsize ▸ (List.takeWhile_prefix _).length_le
    | some k => exact hsize ▸ h k rfl
  generalize hp : (if pos > size then size else pos) = p
  have hdrop : (m.take size).drop pos = (m.drop p).take (size - p) := by
    rw [List.drop_take]
    by_cases hgt : pos > size
    · rw [if_pos hgt] at hp
      rw [← hp, Nat.sub_self, Nat.sub_eq_zero_of_le (by omega), List.take_zero, List.take_zero]
    · rw [if_neg hgt] at hp
      rw [hp]
  have hpart : part (m.take size) pos len = (m.drop p).take (clamp (size - p) len) := by
    cases len with
    | none => exact hdrop
    | some n =>
        rw [part, hdrop, List.take_take, clamp]
        congr 1
        split_ifs <;> omega
  rw [hpart]
  simp only [assignHelper, hsize, hp]
  split
  next hn => rw [hn, List.take_zero, contents_empty]
  next => rfl

/-- `basic_substring(const value_type *, size_type)`. -/
def ofPointer (p : Str) (len : Option Nat) (h : ∀ n ∈ len, n ≤ p.length) : BasicSubstring :=
  assignHelper (some p) 0 len len h

/-- `basic_substring(const std::basic_string&, size_type, size_type)`.  The memory
of a string ends with a NUL. -/
def ofString (s : Str) (pos : Nat) (len : Option Nat) : BasicSubstring :=
  assignHelper (some (s ++ [0])) pos len (some s.length) (by simp)

/-- `basic_substring(const basic_substring&, size_type, size_type)`. -/
def sub (s : BasicSubstring) (pos : Nat) (len : Option Nat) : BasicSubstring :=
  assignHelper s.data pos len (some s.length) (by simpa using s.inside)

/-- A C string is read up to its NUL. -/
theorem contents_ofPointer {x : Str} (rest : Str) (hx : 0 ∉ x) :
    (ofPointer (x ++ 0 :: rest) none (by simp)).contents = x := by
  have hread : cStr (x ++ 0 :: rest) = x := by
    rw [cStr, List.takeWhile_append_of_pos (fun c hc => ?_), List.takeWhile_cons_of_neg (by simp),
      List.append_nil]
    rw [bne_iff_ne]
    rintro rfl
    exact hx hc
  rw [ofPointer, contents_assignHelper, Option.getD_none, hread, List.take_left, part,
    List.drop_zero]

theorem contents_ofString (s : Str) (pos : Nat) (len : Option Nat) :
    (ofString s pos len).contents = part s pos len := by
  rw [ofString, contents_assignHelper, Option.getD_some, List.take_left]

theorem contents_sub (s : BasicSubstring) (pos : Nat) (len : Option Nat) :
    (s.sub pos len).contents = part s.contents pos len := by
  obtain ⟨data, length, inside, null⟩ := s
  cases data with
  | none =>
      cases len <;> simp [sub, assignHelper, contents, memory, part, empty]
  | some m => exact contents_assignHelper m pos len (some length) (by simpa using inside)

/-! ## Comparison -/

def compare (s t : BasicSubstring) : Int :=
  let r := Substring.traitsCompare s.memory t.memory (min s.length t.length)
  if r = 0 then Substring.compareSize s.length t.length else r

/-- `traits_type::compare` reads as many characters as it is told to. -/
theorem traitsCompare_take {m m' : Str} {n k l : Nat} (hk : n ≤ k) (hl : n ≤ l) :
    Substring.traitsCompare (m.take k) (m'.take l) n = Substring.traitsCompare m m' n := by
  induction n generalizing m m' k l with
  | zero =>
      cases m.take k <;> cases m <;> cases m'.take l <;> cases m' <;> rfl
  | succ n ih =>
      obtain ⟨k, rfl⟩ : ∃ k', k = k' + 1 := ⟨k - 1, by omega⟩
      obtain ⟨l, rfl⟩ : ∃ l', l = l' + 1 := ⟨l - 1, by omega⟩
      cases m with
      | nil => rfl
      | cons a m =>
          cases m' with
          | nil => rfl
          | cons b m' =>
              rw [List.take_succ_cons, List.take_succ_cons, Substring.traitsCompare,
                Substring.traitsCompare, ih (by omega) (by omega)]

/-- It finds no difference between equal characters only. -/
theorem traitsCompare_eq_zero_iff {m m' : Str} {n : Nat} (hm : n ≤ m.length)
    (hm' : n ≤ m'.length) : Substring.traitsCompare m m' n = 0 ↔ m.take n = m'.take n := by
  induction n generalizing m m' with
  | zero => cases m <;> cases m' <;> simp [Substring.traitsCompare]
  | succ n ih =>
      obtain ⟨a, m, rfl⟩ := List.exists_cons_of_length_pos (Nat.zero_lt_of_lt hm)
      obtain ⟨b, m', rfl⟩ := List.exists_cons_of_length_pos (Nat.zero_lt_of_lt hm')
      have ih := ih (Nat.le_of_succ_le_succ hm) (Nat.le_of_succ_le_succ hm')
      rw [Substring.traitsCompare, List.take_succ_cons, List.take_succ_cons, List.cons.injEq]
      rcases Nat.lt_trichotomy a.toNat b.toNat with hab | hab | hab
      · have hlt : a < b := UInt8.lt_iff_toNat_lt.mpr hab
        have hne : a ≠ b := fun e => UInt8.lt_irrefl b (e ▸ hlt)
        simp [hlt, hne]
      · obtain rfl := UInt8.toNat_inj.mp hab
        simp [ih]
      · have hlt : b < a := UInt8.lt_iff_toNat_lt.mpr hab
        have hge : ¬ a < b := UInt8.not_lt.mpr (UInt8.le_of_lt hlt)
        have hne : a ≠ b := fun e => UInt8.lt_irrefl b (e ▸ hlt)
        simp [hlt, hge, hne]

/-- A comparison is one of the contents. -/
theorem compare_eq (s t : BasicSubstring) :
    s.compare t = Substring.compare s.contents t.contents := by
  rw [compare, Substring.compare, contents_length, contents_length, contents, contents,
    traitsCompare_take (Nat.min_le_left ..) (Nat.min_le_right ..)]

end BasicSubstring

end Undervest
