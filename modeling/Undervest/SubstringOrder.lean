import Undervest.BasicSubstring
import Undervest.Crc32

/-!
# The order of substrings

The sign of `compare` is the lexicographic order of the contents, in both
directions (`Substring.compare_neg_iff`, `Substring.compare_pos_iff`), so the six
operators of the class are the six relations of that order (`operator_iff`).

The operators with the substring on the right come from a macro that is given an
operator and the mirrored one, and whose body uses neither.  All six of them
test for the first operand being below.  `Mirrors` says for which operands this
is the relation it should be.

Equal substrings have equal hashes, since a hash is the CRC of the contents.
-/

namespace Undervest

namespace Substring

theorem compareSize_pos_iff {n1 n2 : Nat} : 0 < compareSize n1 n2 ↔ n2 < n1 := by
  simp only [compareSize]
  split_ifs <;> omega

theorem traitsCompare_swap (s t : Str) (n : Nat) :
    traitsCompare t s n = -traitsCompare s t n := by
  induction n generalizing s t with
  | zero => cases s <;> cases t <;> rfl
  | succ n ih =>
      cases s with
      | nil => cases t <;> rfl
      | cons a s =>
          cases t with
          | nil => rfl
          | cons b t =>
              rw [traitsCompare, traitsCompare, ih s t]
              split_ifs with hba hab
              · exact absurd hab (UInt8.lt_asymm hba)
              all_goals rfl

theorem compare_pos_iff {s t : Str} : 0 < compare s t ↔ t < s := by
  have hswap : 0 < compare s t ↔ compare t s < 0 := by
    simp only [compare, Nat.min_comm t.length, traitsCompare_swap s t, Int.neg_eq_zero]
    split
    next => rw [compareSize_pos_iff, compareSize_neg_iff]
    next => rw [Int.neg_neg_iff_pos]
  exact hswap.trans compare_neg_iff

/-- A comparison is zero for equal contents. -/
theorem compare_eq_zero_iff {s t : Str} : compare s t = 0 ↔ s = t := by
  constructor
  · intro h
    refine List.le_antisymm (List.not_lt.mp fun hlt => ?_) (List.not_lt.mp fun hlt => ?_)
    · have := compare_pos_iff.mpr hlt
      omega
    · have := compare_neg_iff.mpr hlt
      omega
  · rintro rfl
    have hn : ¬ compare s s < 0 := fun h => List.lt_irrefl s (compare_neg_iff.mp h)
    have hp : ¬ 0 < compare s s := fun h => List.lt_irrefl s (compare_pos_iff.mp h)
    omega

end Substring

/-! ## Operators -/

/-- The six relational operators. -/
inductive RelOp where
  | lt
  | le
  | eq
  | ne
  | ge
  | gt
deriving DecidableEq, Repr

namespace RelOp

/-- The test of an operator on the result of `compare`. -/
def test (r : Int) : RelOp → Bool
  | lt => r < 0
  | le => r ≤ 0
  | eq => r = 0
  | ne => r ≠ 0
  | ge => 0 ≤ r
  | gt => 0 < r

/-- The second argument of the macro, the mirrored operator. -/
def rop : RelOp → RelOp
  | lt => gt
  | le => ge
  | eq => eq
  | ne => ne
  | ge => le
  | gt => lt

/-- The relation of an operator. -/
def Holds (s t : Str) : RelOp → Prop
  | lt => s < t
  | le => s ≤ t
  | eq => s = t
  | ne => s ≠ t
  | ge => t ≤ s
  | gt => t < s

/-- On the result of `compare` each operator tests its relation. -/
theorem test_compare (op : RelOp) (s t : Str) :
    op.test (Substring.compare s t) = true ↔ op.Holds s t := by
  have hneg := Substring.compare_neg_iff (s := s) (t := t)
  have hpos := Substring.compare_pos_iff (s := s) (t := t)
  have hzero := Substring.compare_eq_zero_iff (s := s) (t := t)
  cases op with
  | lt => exact decide_eq_true_iff.trans hneg
  | le => rw [test, decide_eq_true_iff, ← not_lt, hpos, Holds, List.not_lt]
  | eq => exact decide_eq_true_iff.trans hzero
  | ne => exact decide_eq_true_iff.trans (not_congr hzero)
  | ge => rw [test, decide_eq_true_iff, ← not_lt, hneg, Holds, List.not_lt]
  | gt => exact decide_eq_true_iff.trans hpos

/-- A relation and its mirror image. -/
theorem holds_rop (op : RelOp) (s t : Str) : op.rop.Holds s t ↔ op.Holds t s := by
  cases op with
  | eq => exact eq_comm
  | ne => exact ne_comm
  | _ => exact Iff.rfl

end RelOp

namespace BasicSubstring

/-- What a substring is compared with: a `std::string`, or a C string in memory. -/
inductive Operand where
  | string (x : Str)
  | cString (x rest : Str) (h : 0 ∉ x)

namespace Operand

def text : Operand → Str
  | string x => x
  | cString x _ _ => x

/-- The substring that `compare` makes of its argument. -/
def toSubstring : Operand → BasicSubstring
  | string x => ofString x 0 none
  | cString x rest _ => ofPointer (x ++ 0 :: rest) none (by simp)

theorem contents_toSubstring (x : Operand) : x.toSubstring.contents = x.text := by
  cases x with
  | string x => exact contents_ofString x 0 none
  | cString x rest h => exact contents_ofPointer rest h

end Operand

/-- `operator op` of the class. -/
def operator (op : RelOp) (y : BasicSubstring) (x : Operand) : Bool :=
  op.test (y.compare x.toSubstring)

/-- `__SUBSTRING_REL_OP_HELPER`. -/
def relOpHelper (_op _rop : RelOp) (x : Operand) (y : BasicSubstring) : Bool :=
  0 < y.compare x.toSubstring

/-- `operator op` with the substring on the right. -/
def mirrored (op : RelOp) (x : Operand) (y : BasicSubstring) : Bool := relOpHelper op op.rop x y

/-- `std::hash`: the CRC of the characters. -/
def hash (s : BasicSubstring) : Option (BitVec 64) :=
  CRC32.crc32 s.memory (UInt64.ofNat s.length)

/-! ## Laws -/

/-- An operator of the class is the relation of the contents. -/
theorem operator_iff (op : RelOp) (y : BasicSubstring) (x : Operand) :
    operator op y x = true ↔ op.Holds y.contents x.text := by
  rw [operator, compare_eq, x.contents_toSubstring, RelOp.test_compare]

/-- With the substring on the right every operator is the one of `<`. -/
theorem mirrored_iff (op : RelOp) (x : Operand) (y : BasicSubstring) :
    mirrored op x y = true ↔ x.text < y.contents := by
  rw [mirrored, relOpHelper, decide_eq_true_iff, compare_eq, x.contents_toSubstring,
    Substring.compare_pos_iff]

/-- A hash is the CRC of the contents. -/
theorem hash_eq {s : BasicSubstring} (h : s.length < CRC32.npos.toNat) :
    s.hash = some (CRC32.new.addRange s.contents).value := by
  have hlen : (UInt64.ofNat s.length).toNat = s.length :=
    UInt64.toNat_ofNat_of_lt (Nat.lt_trans h CRC32.npos.toNat_lt)
  have hne : UInt64.ofNat s.length ≠ CRC32.npos := fun e => by
    rw [e] at hlen
    omega
  have hcount := CRC32.addCount_append .new s.contents (s.memory.drop s.length)
  rw [contents_length, contents, List.take_append_drop] at hcount
  rw [hash, CRC32.crc32, CRC32.addPointer, if_neg hne, hlen, hcount, Option.map_some, contents]

/-- The operands for which the test for `<` gives another relation too. -/
def Mirrors (x y : Str) : RelOp → Prop
  | .lt => True
  | .le => x ≠ y
  | .eq => y < x
  | .ne => x ≤ y
  | .ge => False
  | .gt => x = y

/-- The test for `<` against each relation. -/
theorem lt_iff_holds_iff (op : RelOp) (x y : Str) :
    (x < y ↔ op.Holds x y) ↔ Mirrors x y op := by
  have hlt := Substring.compare_neg_iff (s := x) (t := y)
  have hgt := Substring.compare_pos_iff (s := x) (t := y)
  have heq := Substring.compare_eq_zero_iff (s := x) (t := y)
  cases op with
  | lt => exact ⟨fun _ => trivial, fun _ => Iff.rfl⟩
  | ge =>
      rw [RelOp.Holds, Mirrors, ← List.not_lt, iff_false]
      exact iff_not_self
  | _ =>
      simp only [RelOp.Holds, Mirrors, ne_eq, ← List.not_lt, ← hlt, ← hgt, ← heq]
      omega

/-- What the operators promise: each of the six is the relation of the contents,
its mirror image is the mirrored one, and equal substrings have equal hashes. -/
structure OneOrder (op : RelOp) (y : BasicSubstring) (x : Operand) : Prop where
  operator : operator op y x = true ↔ op.Holds y.contents x.text
  mirrored : mirrored op x y = BasicSubstring.operator op.rop y x
  hash : ∀ z : BasicSubstring, z.contents = y.contents → z.hash = y.hash

/-- **When the operators describe one order.**  Those with the substring on the
left always do, and the hashes too. -/
theorem oneOrder_iff (op : RelOp) {y : BasicSubstring} (hy : y.length < CRC32.npos.toNat)
    (x : Operand) : OneOrder op y x ↔ Mirrors x.text y.contents op := by
  have hmirrored : (mirrored op x y = operator op.rop y x) ↔ Mirrors x.text y.contents op := by
    rw [Bool.eq_iff_iff, mirrored_iff, operator_iff, RelOp.holds_rop, lt_iff_holds_iff]
  constructor
  · intro h
    exact hmirrored.mp h.mirrored
  · intro h
    refine ⟨operator_iff op y x, hmirrored.mpr h, fun z hz => ?_⟩
    have hlen : z.length = y.length := by rw [← contents_length, hz, contents_length]
    rw [hash_eq hy, hash_eq (hlen ▸ hy), hz]

theorem oneOrder_iff_sample :
    OneOrder .lt (ofString (str "b") 0 none) (.cString (str "a") [] (by decide)) ∧
      ¬ OneOrder .ge (ofString (str "b") 0 none) (.string (str "a")) :=
  ⟨(oneOrder_iff .lt (by decide) _).mpr trivial,
    fun h => (oneOrder_iff .ge (by decide) _).mp h⟩

/-- Equal contents are not equal from the left. -/
theorem mirrored_equal :
    operator .eq (ofString (str "a") 0 none) (.string (str "a")) = true ∧
      mirrored .eq (.string (str "a")) (ofString (str "a") 0 none) = false ∧
      ¬ OneOrder .eq (ofString (str "a") 0 none) (.string (str "a")) := by
  have hop : operator .eq (ofString (str "a") 0 none) (.string (str "a")) = true := by decide
  have hm : mirrored .eq (.string (str "a")) (ofString (str "a") 0 none) = false := by decide
  exact ⟨hop, hm, fun h => Bool.false_ne_true (hm.symm.trans (h.mirrored.trans hop))⟩

end BasicSubstring

end Undervest
