import Mathlib.Data.List.Basic
import Mathlib.Data.List.DropRight
import Mathlib.Algebra.Group.Nat.Defs

/-!
# Strings

A `std::string` is a list of bytes.  The functions below are the ones the rest
of the program calls, under their names: the classification and case functions
of `<cctype>` in the C locale, the searches of `std::string`, `strcasecmp`, and
the trimming and case functions of `stringlib.h`.

A byte above 127 is a negative `char`.  `tolower` leaves it alone, since
`strtolower` tests `c & ~0xFF` first, and it is neither a letter nor a digit.

Case folding touches letters only, so it commutes with every trim whose
characters are not letters.  `strtolower_trim` is the case the address parser
needs.
-/

namespace Undervest

/-- A byte of a string. -/
abbrev Byte := UInt8

/-- A string. -/
abbrev Str := List Byte

/-- The byte of an ASCII character. -/
def ch (c : Char) : Byte := UInt8.ofNat c.toNat

/-- The string of an ASCII literal. -/
def str (s : String) : Str := s.toList.map ch

/-- A fact that holds of the 256 values of a byte. -/
theorem forall_byte {P : Byte → Prop} (h : ∀ n < 256, P (UInt8.ofNat n)) (c : Byte) : P c := by
  have := h c.toNat (UInt8.toNat_lt c)
  rwa [UInt8.ofNat_toNat] at this

/-- A character that two texts do not have ends both. -/
theorem append_cons_inj {s t u v : Str} {c : Byte} (hs : c ∉ s) (ht : c ∉ t)
    (h : s ++ c :: u = t ++ c :: v) : s = t ∧ u = v := by
  rcases List.append_eq_append_iff.mp h with ⟨x, hx, hu⟩ | ⟨x, hx, hv⟩
  · cases x with
    | nil => exact ⟨by simpa using hx.symm, by simpa using hu⟩
    | cons b x => exact absurd (by simp [hx, (List.cons.inj hu).1]) ht
  · cases x with
    | nil => exact ⟨by simpa using hx, by simpa using hv.symm⟩
    | cons b x => exact absurd (by simp [hx, (List.cons.inj hv).1]) hs

/-! ## Characters -/

def isupper (c : Byte) : Bool := 65 ≤ c && c ≤ 90
def islower (c : Byte) : Bool := 97 ≤ c && c ≤ 122
def isalpha (c : Byte) : Bool := isupper c || islower c
def isdigit (c : Byte) : Bool := 48 ≤ c && c ≤ 57
def tolower (c : Byte) : Byte := if isupper c then c + 32 else c

/-- `tolower` reaches a character that is no letter from itself only. -/
theorem tolower_eq_iff {c d : Byte} (hd : isalpha d = false) : tolower c = d ↔ c = d := by
  unfold tolower
  split
  next h =>
    constructor
    · rintro rfl
      simp only [isupper, isalpha, islower, Bool.and_eq_true, Bool.or_eq_false_iff,
        Bool.and_eq_false_iff, decide_eq_true_eq, decide_eq_false_iff_not, UInt8.le_iff_toNat_le,
        UInt8.toNat_add, UInt8.reduceToNat] at h hd
      omega
    · rintro rfl
      simp [isalpha, h] at hd
  next => exact Iff.rfl

/-- A byte is its own lower case unless it is an upper-case letter. -/
theorem tolower_eq_self {c : Byte} : tolower c = c ↔ isupper c = false := by
  unfold tolower
  split
  next h =>
    simp only [h, Bool.true_eq_false, iff_false]
    intro e
    have := congrArg UInt8.toNat e
    simp only [UInt8.toNat_add, UInt8.reduceToNat] at this
    omega
  next h => simpa using h

theorem tolower_tolower (c : Byte) : tolower (tolower c) = tolower c := by
  rw [tolower_eq_self]
  unfold tolower
  split
  next h =>
    simp only [isupper, Bool.and_eq_true, Bool.and_eq_false_iff, decide_eq_true_eq,
      decide_eq_false_iff_not, UInt8.le_iff_toNat_le, UInt8.toNat_add, UInt8.reduceToNat] at h ⊢
    omega
  next h => simpa using h

/-! ## Numbers -/

/-- The decimal value of some digits. -/
def decimal (d : Str) : Nat := d.foldl (fun v c => 10 * v + (c - ch '0').toNat) 0

theorem decimal_lt {d : Str} (hd : ∀ c ∈ d, isdigit c = true) : decimal d < 10 ^ d.length := by
  have hloop : ∀ (d : Str) (v n : Nat), (∀ c ∈ d, isdigit c = true) → v < 10 ^ n →
      d.foldl (fun v c => 10 * v + (c - ch '0').toNat) v < 10 ^ (n + d.length) := by
    intro d
    induction d with
    | nil => exact fun v n _ hv => hv
    | cons c d ih =>
        intro v n hd hv
        rw [List.forall_mem_cons] at hd
        have hdigit : (c - ch '0').toNat < 10 := by
          revert hd
          exact fun hd => forall_byte (P := fun c => isdigit c = true → (c - ch '0').toNat < 10)
            (by decide +kernel) c hd.1
        have hstep : 10 * v + (c - ch '0').toNat < 10 ^ (n + 1) := by
          rw [Nat.pow_succ]
          omega
        rw [List.foldl_cons, List.length_cons, Nat.add_comm d.length, ← Nat.add_assoc]
        exact ih _ _ hd.2 hstep
  have := hloop d 0 0 hd (by decide)
  rwa [Nat.zero_add] at this

/-! ## Case -/

/-- `strtolower` of `stringlib.h`. -/
def strtolower (s : Str) : Str := s.map tolower

/-- The characters a C function sees of a `std::string`. -/
def cStr (s : Str) : Str := s.takeWhile fun c => c != 0

/-- `strcasecmp` finds no difference. -/
def strcaseeq (s t : Str) : Bool := strtolower (cStr s) == strtolower (cStr t)

@[simp] theorem strtolower_length (s : Str) : (strtolower s).length = s.length := by
  simp [strtolower]

@[simp] theorem strtolower_eq_nil {s : Str} : strtolower s = [] ↔ s = [] := by
  simp [strtolower]

theorem strtolower_append (s t : Str) : strtolower (s ++ t) = strtolower s ++ strtolower t := by
  simp [strtolower]

/-- The lower case of a string is in lower case. -/
theorem strtolower_strtolower (s : Str) : strtolower (strtolower s) = strtolower s := by
  simp [strtolower, tolower_tolower]

/-- A string is its own lower case when it has no upper-case letter. -/
theorem strtolower_eq_self {s : Str} : strtolower s = s ↔ ∀ c ∈ s, isupper c = false := by
  induction s with
  | nil => simp [strtolower]
  | cons c s ih =>
      rw [List.forall_mem_cons, ← ih, ← tolower_eq_self]
      simp only [strtolower, List.map_cons, List.cons.injEq]

/-! ## Searching and trimming -/

/-- `std::string::find` of a character. -/
def find (c : Byte) (s : Str) : Option Nat := s.findIdx? (· == c)

/-- `std::string::find_first_of`. -/
def findFirstOf (set s : Str) : Option Nat := s.findIdx? fun c => set.contains c

/-- The characters of a class that start a string, and the rest. -/
theorem exists_span (p : Byte → Bool) (s : Str) :
    ∃ t r, s = t ++ r ∧ (∀ c ∈ t, p c = true) ∧ ∀ c ∈ r.head?, p c = false := by
  refine ⟨s.takeWhile p, s.dropWhile p, (List.takeWhile_append_dropWhile ..).symm,
    fun c hc => List.mem_takeWhile_imp hc, fun c hc => ?_⟩
  simpa [Option.mem_def.mp hc] using List.head?_dropWhile_not p s

/-- A search stops at the first character that it looks for. -/
theorem findIdx?_append_cons {p : Byte → Bool} {s : Str} {c : Byte} (hs : ∀ b ∈ s, p b = false)
    (hc : p c = true) (t : Str) : (s ++ c :: t).findIdx? p = some s.length := by
  rw [List.findIdx?_append, List.findIdx?_eq_none_iff.mpr hs]
  simp [List.findIdx?_cons, hc]

/-- What stands before and behind the character that a search finds. -/
theorem split_of_findIdx? {p : Byte → Bool} {s : Str} {i : Nat} (h : s.findIdx? p = some i) :
    ∃ a c b, s = a ++ c :: b ∧ i = a.length ∧ p c = true ∧ ∀ x ∈ a, p x = false := by
  induction s generalizing i with
  | nil => cases h
  | cons x s ih =>
      rw [List.findIdx?_cons] at h
      cases hx : p x with
      | true =>
          rw [hx, if_pos rfl, Option.some.injEq] at h
          exact ⟨[], x, s, rfl, h.symm, hx, by simp⟩
      | false =>
          rw [hx, if_neg (by simp), Option.map_eq_some_iff] at h
          obtain ⟨j, hj, rfl⟩ := h
          obtain ⟨a, c, b, rfl, rfl, hc, ha⟩ := ih hj
          exact ⟨x :: a, c, b, rfl, rfl, hc, by simpa [hx] using ha⟩

/-- A character stands in a string behind a part without it. -/
theorem find_append {c : Byte} {s : Str} (t : Str) (h : c ∉ s) :
    find c (s ++ c :: t) = some s.length := by
  refine findIdx?_append_cons (p := (· == c)) (fun b hb => ?_) (beq_self_eq_true c) t
  rw [beq_eq_false_iff_ne]
  rintro rfl
  exact h hb

/-- The blanks of the default `trimc`. -/
def isBlank (c : Byte) : Bool := c == ch ' ' || c == ch '\t' || c == ch '\r' || c == ch '\n'

def ltrim (s : Str) : Str := s.dropWhile isBlank
def rtrim (s : Str) : Str := s.rdropWhile isBlank
def trim (s : Str) : Str := ltrim (rtrim s)

theorem isBlank_tolower (c : Byte) : isBlank (tolower c) = isBlank c := by
  have h : ∀ d, isalpha d = false → (tolower c == d) = (c == d) := fun d hd => by
    rw [Bool.eq_iff_iff, beq_iff_eq, beq_iff_eq, tolower_eq_iff hd]
  simp only [isBlank]
  rw [h _ (by decide), h _ (by decide), h _ (by decide), h _ (by decide)]

theorem strtolower_ltrim (s : Str) : ltrim (strtolower s) = strtolower (ltrim s) := by
  simp only [ltrim, strtolower, List.dropWhile_map, Function.comp_def, isBlank_tolower]

theorem strtolower_rtrim (s : Str) : rtrim (strtolower s) = strtolower (rtrim s) := by
  have h := strtolower_ltrim s.reverse
  simp only [ltrim, strtolower] at h
  simp only [rtrim, strtolower, List.rdropWhile, ← List.map_reverse, h]

theorem strtolower_trim (s : Str) : trim (strtolower s) = strtolower (trim s) := by
  rw [trim, strtolower_rtrim, strtolower_ltrim, trim]

/-- No blank stands first or last. -/
def Trimmed (s : Str) : Prop :=
  (∀ c ∈ s.head?, isBlank c = false) ∧ ∀ c ∈ s.getLast?, isBlank c = false

theorem ltrim_eq_self {s : Str} : ltrim s = s ↔ ∀ c ∈ s.head?, isBlank c = false := by
  cases s with
  | nil => simp [ltrim]
  | cons c s =>
      simp only [ltrim, List.head?_cons, Option.mem_some_iff, forall_eq']
      constructor
      · intro h
        by_contra hc
        rw [Bool.not_eq_false] at hc
        rw [List.dropWhile_cons_of_pos hc] at h
        have := (List.dropWhile_suffix isBlank (l := s)).length_le
        rw [h, List.length_cons] at this
        omega
      · intro h
        rw [List.dropWhile_cons_of_neg (by simp [h])]

theorem rtrim_eq_self {s : Str} : rtrim s = s ↔ ∀ c ∈ s.getLast?, isBlank c = false := by
  have h := ltrim_eq_self (s := s.reverse)
  rwa [List.head?_reverse, ltrim, ← List.reverse_inj, List.reverse_reverse] at h

/-- A string without blanks at its ends is all that `trim` leaves. -/
theorem trim_eq_self {s : Str} : trim s = s ↔ Trimmed s := by
  rw [Trimmed, ← ltrim_eq_self, ← rtrim_eq_self]
  constructor
  · intro h
    have hl : (trim s).length ≤ (rtrim s).length := (List.dropWhile_suffix isBlank).length_le
    have hr : rtrim s = s := by
      refine (List.rdropWhile_prefix isBlank (l := s)).eq_of_length_le ?_
      rwa [h] at hl
    rw [trim, hr] at h
    exact ⟨h, hr⟩
  · rintro ⟨hl, hr⟩
    rw [trim, hr, hl]

end Undervest
