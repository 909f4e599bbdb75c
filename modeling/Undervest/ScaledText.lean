import Undervest.ScaledOrder
import Undervest.Strings

/-!
# Fixed-point numbers as texts

`operator<<`, `operator>>`, `from_string` and `to_string` of the class `scaled`.

A stream over a string is the rest of its characters and its three state bits.  `get`
sets two of them when it finds no character, the one for the end and the one for a
failure.  `digitLoop` is the loop of `operator>>` over digits: over those in front of
the point, and over those behind it, which it counts in `div`.  It takes one character
in each turn, so it is written along the characters that are left.

A text that `operator<<` has printed is read to its end (`readNumber_digits`), or no digit
is found in it (`readNumber_none`).  In both cases the stream has failed, and `from_string`
raises.  `read_toStr` says that the number itself is read back.
-/

namespace Undervest

open FixedWidth

/-! ## Streams -/

/-- A stream that reads from a string. -/
structure IStream where
  rest : Str
  eof : Bool
  fail : Bool
  bad : Bool
deriving DecidableEq, Repr

namespace IStream

/-- `std::istringstream`. -/
def ofStr (s : Str) : IStream := ⟨s, false, false, false⟩

@[simp] theorem ofStr_rest (s : Str) : (ofStr s).rest = s := rfl
@[simp] theorem ofStr_eof (s : Str) : (ofStr s).eof = false := rfl
@[simp] theorem ofStr_bad (s : Str) : (ofStr s).bad = false := rfl

def good (is : IStream) : Bool := !is.eof && !is.fail && !is.bad

/-- `setstate(failbit)`. -/
def setFail (is : IStream) : IStream := { is with fail := true }

/-- `get` of one character, which keeps its value when there is none. -/
def get (is : IStream) (c : Byte) : IStream × Byte :=
  if is.good then
    match is.rest with
    | [] => ({ is with eof := true, fail := true }, c)
    | c :: rest => ({ is with rest }, c)
  else (is.setFail, c)

/-- `std::isspace`. -/
def isspace (c : Byte) : Bool := c == 32 || (9 ≤ c && c ≤ 13)

/-- `is >> ch`, behind the white space. -/
def extract (is : IStream) (c : Byte) : IStream × Byte :=
  if is.good then { is with rest := is.rest.dropWhile isspace }.get c else (is.setFail, c)

theorem extract_ofStr (s : Str) (c : Byte) :
    (ofStr s).extract c = (ofStr (s.dropWhile isspace)).get c := rfl

def putback (is : IStream) (c : Byte) : IStream :=
  if is.good then { is with rest := c :: is.rest } else is.setFail

end IStream

namespace Scaled

variable {T : IntType} {S : Int}

/-! ## The operators of the class -/

/-- `operator*=` by an integer: `value *= T(y)`. -/
def mulInt (x : Scaled T S) (y : Int) : Scaled T S := ofRaw (x.value * T.wrap y)

/-- `operator+=` of an integer of type `t`: `value += scaled(y).value`. -/
def addInt (t : IntType) (x : Scaled T S) (y : Int) : Scaled T S :=
  ofRaw (x.value + (ofInt t y : Scaled T S).value)

/-- `operator-=` of an integer of type `t`. -/
def subInt (t : IntType) (x : Scaled T S) (y : Int) : Scaled T S :=
  ofRaw (x.value - (ofInt t y : Scaled T S).value)

/-- `operator Td`: `Td(value) / S`. -/
def toInt (t : IntType) (x : Scaled T S) : Int :=
  t.wrap (((t.common T).wrap (t.wrap x.value)).tdiv ((t.common T).wrap S))

/-! ## Reading -/

/-- The variables of `operator>>`. -/
structure Reading (T : IntType) (S : Int) where
  is : IStream
  char : Byte
  acc : Scaled T S
  div : Int
  hasdigits : Bool

/-- `digits.find_first_of`. -/
def digit (c : Byte) : Option Nat := findFirstOf [c] (str "0123456789")

/-- One turn of a loop. -/
def Reading.turn (decimals : Bool) (r : Reading T S) (i : Nat) : Reading T S :=
  let (is, c) := r.is.get r.char
  { is
    char := c
    acc := (r.acc.mulInt 10).addInt .int i
    div := if decimals then T.wrap (r.div * 10) else r.div
    hasdigits := true }

/-- The loops over digits, along the characters that are left. -/
def Reading.digitLoop (decimals : Bool) : Str → Reading T S → Reading T S
  | rest, r =>
      match digit r.char with
      | none => r
      | some i =>
          if decimals ∧ ¬ r.div < S then r
          else
            let r := r.turn decimals i
            match rest with
            | [] => r
            | _ :: rest => if r.is.bad || r.is.eof then r else digitLoop decimals rest r

/-- What stands behind the point. -/
def Reading.decimals (r : Reading T S) : Reading T S :=
  let (is, c) := r.is.get r.char
  if !is.bad && !is.eof then
    let r := Reading.digitLoop true is.rest { r with is, char := c, div := T.wrap 1 }
    { r with acc := r.acc.divInt r.div }
  else { r with is, char := c }

/-- What `operator>>` does behind the whole part. -/
def Reading.finish (sign : Bool) (y : Scaled T S) (r : Reading T S) : IStream × Scaled T S :=
  let r := if r.char == ch '.' && !r.is.bad && !r.is.eof then r.decimals else r
  if !r.hasdigits || r.is.bad then (r.is.setFail, y)
  else
    (if r.is.eof then r.is else r.is.putback r.char, if sign then r.acc.neg else r.acc)

/-- `operator>>` behind the sign. -/
def readNumber (sign : Bool) (is : IStream) (c : Byte) (y : Scaled T S) :
    IStream × Scaled T S :=
  (Reading.digitLoop false is.rest ⟨is, c, ofRaw 0, 0, false⟩).finish sign y

/-- `operator>>`. -/
def read (is : IStream) (y : Scaled T S) : IStream × Scaled T S :=
  if is.bad || is.eof then (is.setFail, y)
  else
    let (is, c) := is.extract 0
    if is.bad || is.eof then (is.setFail, y)
    else if c == ch '-' && T.signed then
      let (is, c) := is.get c
      if is.bad || is.eof then (is.setFail, y) else readNumber true is c y
    else readNumber false is c y

/-- `from_string`, which raises on a stream that has failed. -/
def fromString (s : Str) : Option (Scaled T S) :=
  let (is, t) := read (.ofStr s) (ofRaw 0 : Scaled T S)
  if is.fail || is.bad then none else some t

/-! ## Printing -/

/-- The conversion to `unsigned long long`, which is a copy for that type itself. -/
def widen (copies : Bool) (x : Scaled T S) : Scaled .ulong S :=
  if copies then ofRaw x.value else x.convert

/-- A character of a value. -/
def char (n : Int) : Byte := UInt8.ofNat (n % 256).toNat

/-- An integer on a stream, where one of eight bits is a character. -/
def intText (t : IntType) (n : Int) : Str :=
  if t.bits = 8 then [char n]
  else if n < 0 then ch '-' :: str (toString (-n).toNat)
  else str (toString n.toNat)

/-- The digits behind the point, as many as the precision. -/
def decimals : Nat → Scaled .ulong S → Str
  | 0, _ => []
  | i + 1, t =>
      if t.value = 0 then []
      else
        let t := t.mulInt 10
        let n := t.toInt .int
        char (48 + n) :: decimals i (t.subInt .int n)

/-- `to_string`, which prints with `operator<<` and the precision of a new stream. -/
def toStr (copies : Bool) (y : Scaled T S) : Str :=
  let sign := y.lt (ofRaw 0 : Scaled T S)
  let t := (if sign then y.neg else y).widen copies
  let n := t.toInt T
  let t := t.subInt T n
  (if sign then [ch '-'] else []) ++ intText T n ++
    if t.value ≠ 0 then ch '.' :: decimals 6 t else []

/-! ## Digits -/

theorem digit_eq (c : Byte) :
    digit c = if isdigit c then some (c - ch '0').toNat else none :=
  forall_byte (P := fun c => digit c = if isdigit c then some (c - ch '0').toNat else none)
    (by decide +kernel) c

/-- The digit of a value below ten. -/
theorem char_digit {n : Nat} (h : n < 10) :
    isdigit (char (48 + n)) = true ∧ (char (48 + n) - ch '0').toNat = n := by
  revert n
  decide +kernel

theorem decimal_loop (d : Str) (v : Nat) :
    d.foldl (fun v c => 10 * v + (c - ch '0').toNat) v = v * 10 ^ d.length + decimal d := by
  induction d generalizing v with
  | nil => simp [decimal]
  | cons c d ih =>
      have hhead : decimal (c :: d) = (c - ch '0').toNat * 10 ^ d.length + decimal d := by
        rw [decimal, List.foldl_cons, ih, Nat.mul_zero, Nat.zero_add]
      rw [List.foldl_cons, ih, hhead, List.length_cons, Nat.pow_succ]
      ring

theorem decimal_append (d e : Str) :
    decimal (d ++ e) = decimal d * 10 ^ e.length + decimal e := by
  rw [decimal, List.foldl_append, decimal_loop e]
  rfl

theorem decimal_cons_pow (c : Byte) (d : Str) :
    decimal (c :: d) = (c - ch '0').toNat * 10 ^ d.length + decimal d := by
  rw [decimal, List.foldl_cons, decimal_loop, Nat.mul_zero, Nat.zero_add]

theorem ch_of_isDigit {c : Char} (h : c.isDigit = true) :
    isdigit (ch c) = true ∧ (ch c - ch '0').toNat = c.toNat - '0'.toNat := by
  have hall : ∀ n < 58, 48 ≤ n → isdigit (UInt8.ofNat n) = true ∧
      (UInt8.ofNat n - ch '0').toNat = n - 48 := by decide +kernel
  simp only [Char.isDigit, Bool.and_eq_true, decide_eq_true_eq, UInt32.le_iff_toNat_le] at h
  exact hall c.toNat (Nat.lt_succ_of_le h.2) h.1

theorem decimal_map_ch {l : List Char} (hl : ∀ c ∈ l, c.isDigit = true) (v : Nat) :
    (l.map ch).foldl (fun v c => 10 * v + (c - ch '0').toNat) v = Nat.ofDigitChars 10 l v := by
  induction l generalizing v with
  | nil => rw [Nat.ofDigitChars_nil, List.map_nil, List.foldl_nil]
  | cons c l ih =>
      rw [List.forall_mem_cons] at hl
      rw [List.map_cons, List.foldl_cons, (ch_of_isDigit hl.1).2, ih hl.2, Nat.ofDigitChars_cons]

/-- The digits of a number. -/
theorem str_toString (n : Nat) :
    str (toString n) ≠ [] ∧ (∀ c ∈ str (toString n), isdigit c = true) ∧
      decimal (str (toString n)) = n := by
  have hstr : str (toString n) = (Nat.toDigits 10 n).map ch := by
    rw [str, Nat.toString_eq_ofList_toDigits, String.toList_ofList]
  have hdigits : ∀ c ∈ Nat.toDigits 10 n, c.isDigit = true :=
    fun c hc => Nat.isDigit_of_mem_toDigits (by decide) (by decide) hc
  rw [hstr]
  refine ⟨?_, ?_, ?_⟩
  · exact fun h => Nat.toDigits_ne_nil (List.map_eq_nil_iff.mp h)
  · intro c hc
    obtain ⟨b, hb, rfl⟩ := List.mem_map.mp hc
    exact (ch_of_isDigit (hdigits b hb)).1
  · rw [decimal, decimal_map_ch hdigits, Nat.ofDigitChars_ten_toDigits]

/-! ## The loops -/

theorem get_nil (c : Byte) : (IStream.ofStr []).get c = (⟨[], true, true, false⟩, c) := rfl

theorem get_cons (b : Byte) (s : Str) (c : Byte) :
    (IStream.ofStr (b :: s)).get c = (.ofStr s, b) := rfl

/-- What a loop leaves that finds the digits `u`, and behind them nothing or another
character. -/
structure Consumes (decimals : Bool) (u v : Str) (r r' : Reading T S) : Prop where
  last : v = [] → r'.is = ⟨[], true, true, false⟩
  next : ∀ b v', v = b :: v' → r'.is = .ofStr v' ∧ r'.char = b
  acc : r'.acc.value = T.wrap (r.acc.value * 10 ^ u.length + decimal u * S)
  div : r'.div = if decimals then r.div * 10 ^ u.length else r.div
  hasdigits : r'.hasdigits = (r.hasdigits || !u.isEmpty)

/-- A value takes one more digit. -/
theorem turn_acc (x : Scaled T S) (i : Nat) :
    ((x.mulInt 10).addInt .int i).value = T.wrap (x.value * 10 + i * S) := by
  refine IntType.wrap_congr (Int.ModEq.add ?_ ?_)
  · exact (T.wrap_modEq _).trans ((T.wrap_modEq 10).mul_left _)
  · exact (T.wrap_modEq _).trans (IntType.wrap_modEq_of_le (IntType.bits_le_common _ _) _)

/-- The room that the loop behind the point has for `n` more digits. -/
def Room (decimals : Bool) (T : IntType) (S div : Int) (n : Nat) : Prop :=
  decimals = true → 0 < div ∧ div * 10 ^ n ≤ S ∧ T.Contains S

theorem Room.turn {decimals : Bool} {r : Reading T S} {n : Nat}
    (h : Room decimals T S r.div (n + 1)) (i : Nat) :
    ¬ (decimals ∧ ¬ r.div < S) ∧
      (r.turn decimals i).div = (if decimals then r.div * 10 else r.div) ∧
      Room decimals T S (r.turn decimals i).div n := by
  cases decimals with
  | false => exact ⟨by simp, rfl, fun h => nomatch h⟩
  | true =>
      obtain ⟨hpos, hle, hin⟩ := h rfl
      have hpow : (1 : Int) ≤ 10 ^ n := one_le_pow₀ (by decide)
      have hten : r.div * 10 * 10 ^ n ≤ S := by rwa [mul_assoc, ← pow_succ']
      have hle10 : r.div * 10 ≤ S := le_trans (le_mul_of_one_le_right (by omega) hpow) hten
      have hwrap : T.wrap (r.div * 10) = r.div * 10 :=
        IntType.wrap_of_contains (hin.of_le (by omega) hle10)
      refine ⟨fun h => h.2 (by omega), hwrap, fun _ => ⟨?_, ?_, hin⟩⟩
      · change 0 < T.wrap (r.div * 10)
        omega
      · change T.wrap (r.div * 10) * 10 ^ n ≤ S
        rwa [hwrap]

/-- The digits behind the first one. -/
theorem Consumes.cons {decimals : Bool} {d : Byte} {u v : Str} {r r' : Reading T S}
    (hroom : Room decimals T S r.div (u.length + 1))
    (h : Consumes decimals u v (r.turn decimals (d - ch '0').toNat) r') :
    Consumes decimals (d :: u) v r r' := by
  constructor
  · exact h.last
  · exact h.next
  · rw [h.acc]
    apply IntType.wrap_congr
    have hacc : (r.turn decimals (d - ch '0').toNat).acc.value ≡
        r.acc.value * 10 + (d - ch '0').toNat * S [ZMOD 2 ^ T.bits] := by
      rw [show (r.turn decimals (d - ch '0').toNat).acc.value = _ from turn_acc r.acc _]
      exact T.wrap_modEq _
    have hsum := (hacc.mul_right (10 ^ u.length)).add_right (decimal u * S)
    rw [decimal_cons_pow, List.length_cons, pow_succ']
    push_cast
    convert hsum using 1
    ring
  · rw [h.div, (hroom.turn _).2.1]
    cases decimals with
    | false => rfl
    | true => simp only [if_true, List.length_cons, pow_succ', mul_assoc]
  · rw [h.hasdigits]
    simp [Reading.turn]

theorem digitLoop_consumes (decimals : Bool) {u v : Str} (hu : ∀ c ∈ u, isdigit c = true)
    (hv : ∀ c ∈ v.head?, isdigit c = false) {rest : Str} {r : Reading T S}
    (hroom : Room decimals T S r.div u.length) (his : r.is = .ofStr rest)
    (htext : r.char :: rest = u ++ v) :
    Consumes decimals u v r (Reading.digitLoop decimals rest r) := by
  induction u generalizing rest r with
  | nil =>
      rw [List.nil_append] at htext
      have hc : isdigit r.char = false := hv r.char (by rw [← htext]; rfl)
      have hloop : Reading.digitLoop decimals rest r = r := by
        rw [Reading.digitLoop, digit_eq, hc, if_neg Bool.false_ne_true]
      rw [hloop]
      constructor
      · rintro rfl
        cases htext
      · rintro b v' rfl
        obtain ⟨rfl, rfl⟩ := List.cons.inj htext
        exact ⟨his, rfl⟩
      · simp [decimal, IntType.wrap_of_contains r.acc.inRange]
      · simp
      · simp
  | cons d u ih =>
      rw [List.forall_mem_cons] at hu
      obtain ⟨hd, hrest⟩ := List.cons.inj htext
      obtain ⟨hmore, -, hturn⟩ := hroom.turn (d - ch '0').toNat
      refine Consumes.cons hroom ?_
      cases rest with
      | nil =>
          -- the last character of the text
          obtain ⟨rfl, rfl⟩ := List.append_eq_nil_iff.mp hrest.symm
          rw [Reading.digitLoop, digit_eq, hd, if_pos hu.1]
          simp only [if_neg hmore]
          constructor
          · intro
            simp only [Reading.turn, his, get_nil]
          · intro b v' h
            cases h
          · simp [decimal, IntType.wrap_of_contains (Reading.acc _).inRange]
          · simp
          · simp
      | cons b rest =>
          have hget : (r.turn decimals (d - ch '0').toNat).is = .ofStr rest := by
            simp only [Reading.turn, his, get_cons]
          rw [Reading.digitLoop, digit_eq, hd, if_pos hu.1]
          simp only [if_neg hmore, hget, IStream.ofStr, Bool.or_self, Bool.false_eq_true, if_false]
          refine ih hu.2 hturn hget ?_
          simp only [Reading.turn, his, get_cons]
          exact hrest

/-! ## What is printed is read to its end -/

/-- The digits behind the point, with the point. -/
def behind (ds : Str) : Str := if ds = [] then [] else ch '.' :: ds

/-- A stream that was read to its end. -/
def atEnd : IStream := ⟨[], true, true, false⟩

/-- The division by the power of ten that was counted. -/
theorem divInt_pow {x : Scaled T S} {n : Nat} {p : Int} (hroom : 10 ^ n ≤ S) (hin : T.Contains S)
    (hx : x.value = p) (hp : 0 ≤ p) : (x.divInt (10 ^ n)).value = p / 10 ^ n := by
  have hpow : (0 : Int) ≤ 10 ^ n := by positivity
  have hwrap : T.wrap (10 ^ n) = 10 ^ n := IntType.wrap_of_contains (hin.of_le hpow hroom)
  rw [divInt, ofRaw_value, hwrap, hx, Int.tdiv_eq_ediv_of_nonneg hp]
  have hle : p / 10 ^ n ≤ x.value := hx.symm ▸ Int.ediv_le_self _ hp
  exact IntType.wrap_of_contains (x.inRange.of_le (Int.ediv_nonneg hp hpow) hle)

/-- The digits behind the point of the number `a`. -/
theorem decimals_digits {r : Reading T S} {ds : Str} (hds : ∀ c ∈ ds, isdigit c = true)
    (hne : ds ≠ []) (hroom : 10 ^ ds.length ≤ S) (hin : T.Contains S)
    (his : r.is = .ofStr ds) {a : Nat} (hacc : r.acc.value = T.wrap (a * S)) :
    r.decimals.is = atEnd ∧ r.decimals.hasdigits = true ∧
      (T.Contains ((a * 10 ^ ds.length + decimal ds : Nat) * S) → r.decimals.acc.value =
        (a * 10 ^ ds.length + decimal ds : Nat) * S / 10 ^ ds.length) := by
  cases ds with
  | nil => exact absurd rfl hne
  | cons d ds =>
      have hone : T.wrap 1 = 1 :=
        IntType.wrap_of_contains (hin.of_le (by decide) (le_trans (one_le_pow₀ (by decide)) hroom))
      have hpow : (0 : Int) < 10 ^ (d :: ds).length := by positivity
      have hstart : ({ r with is := .ofStr ds, char := d, div := T.wrap 1 } : Reading T S).is =
          .ofStr ds := rfl
      have hcount : Room true T S (T.wrap 1) (d :: ds).length :=
        fun _ => ⟨by omega, by rwa [hone, one_mul], hin⟩
      have hrun := digitLoop_consumes true (v := []) hds (by simp) hcount hstart
        (List.append_nil _).symm
      rw [Reading.decimals, his, get_cons]
      simp only [IStream.ofStr_rest, IStream.ofStr_bad, IStream.ofStr_eof, Bool.not_false,
        Bool.and_self, if_true]
      have hvalue := hrun.acc
      have hdiv := hrun.div
      generalize Reading.digitLoop true ds _ = r' at hrun hvalue hdiv ⊢
      rw [if_pos rfl, hone, one_mul] at hdiv
      refine ⟨hrun.last rfl, by rw [hrun.hasdigits]; simp, fun hfit => ?_⟩
      rw [hdiv]
      refine divInt_pow hroom hin ?_ (mul_nonneg (Int.natCast_nonneg _) (by omega))
      rw [hvalue, ← IntType.wrap_of_contains hfit]
      apply IntType.wrap_congr
      have hsum := (((T.wrap_modEq (a * S)).mul_right (10 ^ (d :: ds).length)).add_right
        (decimal (d :: ds) * S))
      rw [← hacc] at hsum
      push_cast
      convert hsum using 1
      ring

/-- A number with digits is read to the end of the text. -/
theorem readNumber_digits {u ds rest : Str} {c : Byte} (sign : Bool) (y : Scaled T S)
    (hu : ∀ c ∈ u, isdigit c = true) (hds : ∀ c ∈ ds, isdigit c = true)
    (hne : u = [] → ds ≠ []) (hroom : 10 ^ ds.length ≤ S) (hin : T.Contains S)
    (htext : c :: rest = u ++ behind ds) :
    ∃ acc : Scaled T S,
      readNumber sign (.ofStr rest) c y = (atEnd, if sign then acc.neg else acc) ∧
      (T.Contains (decimal (u ++ ds) * S) →
        acc.value = decimal (u ++ ds) * S / 10 ^ ds.length) := by
  have hzero : (ofRaw 0 : Scaled T S).value = 0 :=
    IntType.wrap_of_contains (hin.of_le le_rfl (le_trans (by positivity) hroom))
  have hpoint : ∀ c ∈ (behind ds).head?, isdigit c = false := by
    rw [behind]
    split
    next => simp
    next => simpa using by decide
  have hstart : (⟨.ofStr rest, c, ofRaw 0, 0, false⟩ : Reading T S).is = .ofStr rest := rfl
  have hrun := digitLoop_consumes false hu hpoint (fun h => nomatch h) hstart htext
  have hacc := hrun.acc
  rw [hzero, Int.zero_mul, Int.zero_add] at hacc
  have hdigits := hrun.hasdigits
  rw [Bool.false_or] at hdigits
  rw [readNumber, IStream.ofStr_rest]
  generalize Reading.digitLoop false rest _ = r at hrun hacc hdigits ⊢
  cases ds with
  | nil =>
      have hend := hrun.last rfl
      have huse : r.hasdigits = true := by
        rw [hdigits]
        cases u with
        | nil => exact absurd rfl (hne rfl)
        | cons => rfl
      refine ⟨r.acc, by simp [Reading.finish, hend, huse, atEnd], fun hfit => ?_⟩
      rw [List.append_nil] at hfit ⊢
      simpa using hacc.trans (IntType.wrap_of_contains hfit)
  | cons d ds =>
      obtain ⟨his, hchar⟩ := hrun.next _ _ rfl
      obtain ⟨hend, huse, hvalue⟩ := decimals_digits hds (List.cons_ne_nil d ds) hroom hin his hacc
      refine ⟨r.decimals.acc, ?_, fun hfit => ?_⟩
      · simp [Reading.finish, his, hchar, hend, huse, atEnd]
      · rw [decimal_append] at hfit ⊢
        exact hvalue hfit

/-- Without a digit nothing is read. -/
theorem readNumber_none {c : Byte} {rest : Str} (sign : Bool) (y : Scaled T S)
    (hc : isdigit c = false) (hrest : ∀ b ∈ rest.head?, isdigit b = false) :
    (readNumber sign (.ofStr rest) c y).1.fail = true := by
  have hloop {r : Reading T S} (decimals : Bool) (s : Str) (h : isdigit r.char = false) :
      Reading.digitLoop decimals s r = r := by
    rw [Reading.digitLoop, digit_eq, h, if_neg Bool.false_ne_true]
  rw [readNumber, hloop false _ hc, Reading.finish]
  split
  next =>
      -- a point with no digit behind it
      have huse : (⟨.ofStr rest, c, ofRaw 0, 0, false⟩ : Reading T S).decimals.hasdigits =
          false := by
        cases rest with
        | nil => rfl
        | cons b rest =>
            have hb := hrest b rfl
            rw [Reading.decimals, get_cons]
            simp only [IStream.ofStr_rest, IStream.ofStr_bad, IStream.ofStr_eof, Bool.not_false,
              Bool.and_self, if_true]
            rw [hloop true rest hb]
      simp only [huse, Bool.not_false, Bool.true_or, if_true, IStream.setFail]
  next => simp only [Bool.not_false, Bool.true_or, if_true, IStream.setFail]

theorem behind_head (ds : Str) : ∀ c ∈ (behind ds).head?, c = ch '.' := by
  rw [behind]
  split
  next => simp
  next => simp

/-- A whole part that is one character, or digits. -/
def Whole (w : Str) : Prop := w.length = 1 ∨ ∀ c ∈ w, isdigit c = true

theorem readNumber_fails {w ds rest : Str} {c : Byte} (sign : Bool) (y : Scaled T S)
    (hw : Whole w) (hds : ∀ c ∈ ds, isdigit c = true) (hne : w = [] → ds ≠ [])
    (hroom : 10 ^ ds.length ≤ S) (hin : T.Contains S) (htext : c :: rest = w ++ behind ds) :
    (readNumber sign (.ofStr rest) c y).1.fail = true := by
  have hdigits (hw : ∀ c ∈ w, isdigit c = true) :
      (readNumber sign (.ofStr rest) c y).1.fail = true := by
    obtain ⟨acc, hread, -⟩ := readNumber_digits sign y hw hds hne hroom hin htext
    rw [hread]
    rfl
  rcases hw with hone | hw
  · obtain ⟨b, rfl⟩ := List.length_eq_one_iff.mp hone
    obtain ⟨rfl, rfl⟩ := List.cons.inj htext
    cases hc : isdigit c with
    | true => exact hdigits (by simpa using hc)
    | false =>
        refine readNumber_none sign y hc fun b hb => ?_
        rw [behind_head ds b hb]
        decide
  · exact hdigits hw

/-- A text that does not start with white space. -/
theorem read_cons {c : Byte} (rest : Str) (y : Scaled T S) (hc : IStream.isspace c = false) :
    read (.ofStr (c :: rest)) y =
      if c = ch '-' ∧ T.signed = true then
        match rest with
        | [] => (atEnd, y)
        | d :: rest => readNumber true (.ofStr rest) d y
      else readNumber false (.ofStr rest) c y := by
  have hextract : (IStream.ofStr (c :: rest)).extract 0 = (.ofStr rest, c) := by
    rw [IStream.extract_ofStr, List.dropWhile_cons_of_neg (by simp [hc]), get_cons]
  rw [read, hextract]
  simp only [IStream.ofStr_bad, IStream.ofStr_eof, Bool.or_self, Bool.false_eq_true, if_false,
    Bool.and_eq_true, beq_iff_eq]
  split
  next =>
      cases rest with
      | nil => rfl
      | cons d rest => rfl
  next => rfl

theorem read_space {c : Byte} (rest : Str) (y : Scaled T S) (hc : IStream.isspace c = true) :
    read (.ofStr (c :: rest)) y = read (.ofStr rest) y := by
  have hextract : (IStream.ofStr (c :: rest)).extract 0 = (IStream.ofStr rest).extract 0 := by
    rw [IStream.extract_ofStr, IStream.extract_ofStr, List.dropWhile_cons_of_pos hc]
  rw [read, read, hextract]
  rfl

theorem not_space_of_digit {c : Byte} (h : isdigit c = true) :
    IStream.isspace c = false ∧ c ≠ ch '-' :=
  forall_byte (P := fun c => isdigit c = true → IStream.isspace c = false ∧ c ≠ ch '-')
    (by decide +kernel) c h

/-- **Every text of a number fails**, without a sign. -/
theorem read_fails {w ds : Str} (y : Scaled T S) (hw : Whole w)
    (hds : ∀ c ∈ ds, isdigit c = true) (hroom : 10 ^ ds.length ≤ S) (hin : T.Contains S) :
    (read (.ofStr (w ++ behind ds)) y).1.fail = true := by
  -- the fraction by itself, which is what is left of some whole parts
  have hfraction (sign : Bool) (b : Byte) (rest : Str) (h : behind ds = b :: rest) :
      (readNumber sign (.ofStr rest) b y).1.fail = true := by
    have hne : ds ≠ [] := by
      rintro rfl
      cases h
    exact readNumber_fails (w := []) sign y (Or.inr (by simp)) hds (fun _ => hne) hroom hin h.symm
  have hpoint (rest : Str) : read (.ofStr (ch '.' :: rest)) y =
      readNumber false (.ofStr rest) (ch '.') y := by
    rw [read_cons rest y (by decide), if_neg (by simp [show ch '.' ≠ ch '-' by decide])]
  have hbehind : (read (.ofStr (behind ds)) y).1.fail = true := by
    cases hb : behind ds with
    | nil => rfl
    | cons b rest =>
        have hbpoint := behind_head ds b (by rw [hb]; rfl)
        rw [hbpoint, hpoint, ← hbpoint]
        exact hfraction false b rest hb
  cases w with
  | nil => exact hbehind
  | cons c w =>
      rw [List.cons_append]
      have hsingle (hno : isdigit c = false) : w = [] := by
        rcases hw with hone | hdigits
        · exact List.length_eq_zero_iff.mp (Nat.succ.inj hone)
        · rw [hdigits c (List.mem_cons_self ..)] at hno
          cases hno
      cases hc : IStream.isspace c with
      | true =>
          have hno : isdigit c = false := by
            by_contra h
            rw [(not_space_of_digit (Bool.not_eq_false _ ▸ h)).1] at hc
            cases hc
          rw [hsingle hno, read_space _ y hc]
          exact hbehind
      | false =>
          rw [read_cons _ y hc]
          split
          next hminus =>
              rw [hsingle (by rw [hminus.1]; decide), List.nil_append]
              cases hb : behind ds with
              | nil => rfl
              | cons b rest => exact hfraction true b rest hb
          next => exact readNumber_fails false y hw hds (fun h => nomatch h) hroom hin rfl

theorem read_minus {w : Str} (ds : Str) (y : Scaled T S) (hs : T.signed = true) (hw : w ≠ []) :
    ∃ c rest, c :: rest = w ++ behind ds ∧
      read (.ofStr (ch '-' :: (w ++ behind ds))) y = readNumber true (.ofStr rest) c y := by
  cases w with
  | nil => exact absurd rfl hw
  | cons c w =>
      refine ⟨c, w ++ behind ds, rfl, ?_⟩
      rw [read_cons _ y (by decide), if_pos ⟨rfl, hs⟩]
      rfl

/-! ## What is printed -/

/-- The sign that is printed. -/
theorem lt_zero {y : Scaled T S} (hS : 0 < S) (hin : T.Contains S) :
    y.lt (ofRaw 0 : Scaled T S) = decide (y.value < 0) := by
  have hzero : (ofRaw 0 : Scaled T S).value = 0 :=
    IntType.wrap_of_contains (hin.of_le le_rfl hS.le)
  have hconvert : ((ofRaw 0 : Scaled T S).convert : Scaled T S).value = 0 := by
    rw [convert_value (by rw [hzero]) hS hin hS (by rw [hzero, Int.zero_mul]; decide), hzero,
      Int.zero_mul, Int.zero_ediv]
    exact hzero
  rw [lt, compare, if_neg (Int.lt_irrefl S), compareGe, hzero]
  by_cases hy : y.value < 0
  · simp [hy]
  · rw [if_neg hy, if_neg (Int.lt_irrefl 0), compareNonneg, hconvert, if_neg hy]
    split <;> simp [hy]

theorem emod_le_of_nonneg {a b : Int} (ha : 0 ≤ a) (hb : 0 < b) : a % b ≤ a := by
  have hsum := Int.emod_add_mul_ediv a b
  have hpart := mul_nonneg hb.le (Int.ediv_nonneg ha hb.le)
  omega

/-- The conversion to 64 bits does not enlarge. -/
theorem widen_value (copies : Bool) {x : Scaled T S} (hS : 0 < S) (hin : T.Contains S)
    (hx : 0 ≤ x.value) :
    0 ≤ (x.widen copies).value ∧ (x.widen copies).value ≤ x.value ∧
      (x.value * S < 2 ^ 64 ∨ copies = true ∧ x.value < 2 ^ 64 →
        (x.widen copies).value = x.value) := by
  have hp : 0 ≤ x.value * S := mul_nonneg hx hS.le
  have hle : x.value ≤ x.value * S := le_mul_of_one_le_right hx hS
  refine ⟨value_nonneg_of_unsigned rfl _, ?_, ?_⟩
  · cases copies with
    | true => exact emod_le_of_nonneg hx (by decide)
    | false =>
        rw [widen, if_neg Bool.false_ne_true, convert_ulong_of_pos hS hin]
        calc x.value * S % 2 ^ 64 / S ≤ x.value * S / S :=
              Int.ediv_le_ediv hS (emod_le_of_nonneg hp (by decide))
          _ = x.value := Int.mul_ediv_cancel _ hS.ne'
  · intro hfit
    cases copies with
    | true =>
        have hlt : x.value < 2 ^ 64 := by rcases hfit with h | h <;> omega
        exact Int.emod_eq_of_lt hx hlt
    | false =>
        have hlt : x.value * S < 2 ^ 64 := by simpa using hfit
        rw [widen, if_neg Bool.false_ne_true, convert_ulong_of_pos hS hin, Int.emod_eq_of_lt hp hlt,
          Int.mul_ediv_cancel _ hS.ne']

section Ulong

variable {x : Scaled .ulong S}

theorem toInt_value {t : IntType} (hx : t.Contains x.value) (hS : 0 < S)
    (hin : IntType.ulong.Contains S) : x.toInt t = x.value / S := by
  have h0 := value_nonneg_of_unsigned rfl x
  rw [toInt, IntType.wrap_of_contains hx, IntType.wrap_of_contains (hx.common_left h0),
    IntType.wrap_of_contains (hin.common_right hS.le), Int.tdiv_eq_ediv_of_nonneg h0]
  exact IntType.wrap_of_contains
    (hx.of_le (Int.ediv_nonneg h0 hS.le) (Int.ediv_le_self _ h0))

/-- The whole part is taken off. -/
theorem subInt_value {t : IntType} (hx : t.Contains x.value) (hS : 0 < S) :
    (x.subInt t (x.value / S)).value = x.value % S := by
  have h0 := value_nonneg_of_unsigned rfl x
  have hpart : x.value / S * S ≤ x.value := Int.ediv_mul_le _ hS.ne'
  have hpart0 : 0 ≤ x.value / S * S := mul_nonneg (Int.ediv_nonneg h0 hS.le) hS.le
  have hmod : x.value - x.value / S * S = x.value % S := by
    rw [Int.emod_def, Int.mul_comm S]
  have hle : x.value % S ≤ x.value := emod_le_of_nonneg h0 hS
  rw [subInt, ofRaw_value, ofInt, ofRaw_value,
    IntType.wrap_of_contains ((hx.of_le hpart0 hpart).common_left hpart0),
    IntType.wrap_of_contains (x.inRange.of_le hpart0 hpart), hmod]
  exact IntType.wrap_of_contains (x.inRange.of_le (Int.emod_nonneg _ hS.ne') hle)

/-- One turn of the loop that prints the digits. -/
theorem decimals_turn (hS : 0 < S) (hS' : S ≤ 10 ^ 6) (hx : x.value < S) :
    ∃ n : Nat, n < 10 ∧ (x.mulInt 10).toInt .int = n ∧
      ((x.mulInt 10).subInt .int n).value = x.value * 10 - n * S ∧
      ((x.mulInt 10).subInt .int n).value < S := by
  have h0 := value_nonneg_of_unsigned rfl x
  have hin : IntType.ulong.Contains S := IntType.ulong_contains.mpr ⟨hS.le, by omega⟩
  have hten : (x.mulInt 10).value = x.value * 10 := by
    change IntType.ulong.wrap (x.value * 10) = _
    exact IntType.wrap_of_contains (IntType.ulong_contains.mpr ⟨by omega, by omega⟩)
  have hint : IntType.int.Contains (x.mulInt 10).value := by
    rw [hten]
    exact IntType.int_contains.mpr ⟨by omega, by omega⟩
  have hn := toInt_value hint hS hin
  have hrest := subInt_value hint hS
  rw [← hn] at hrest
  have hnonneg : 0 ≤ (x.mulInt 10).toInt .int := by
    rw [hn, hten]
    exact Int.ediv_nonneg (by omega) hS.le
  have hlt : (x.mulInt 10).toInt .int < 10 := by
    rw [hn, hten]
    exact Int.ediv_lt_of_lt_mul hS (by omega)
  obtain ⟨n, hcast⟩ := Int.eq_ofNat_of_zero_le hnonneg
  rw [hcast] at hlt hrest hn
  refine ⟨n, by omega, hcast, ?_, ?_⟩
  · rw [hrest, Int.emod_def, ← hn, hten, Int.mul_comm S]
  · rw [hrest]
    exact Int.emod_lt_of_pos _ hS

/-- The digits behind the point of a fraction that ends within the precision. -/
theorem decimals_spec (hS : 0 < S) (hS' : S ≤ 10 ^ 6) {i j : Nat} (hx : x.value < S)
    (hj : j ≤ i) (hdvd : S ∣ x.value * 10 ^ j) :
    (∀ c ∈ decimals i x, isdigit c = true) ∧ (decimals i x).length ≤ j ∧
      decimal (decimals i x) * S = x.value * 10 ^ (decimals i x).length ∧
      (x.value ≠ 0 → decimals i x ≠ []) := by
  have h0 := value_nonneg_of_unsigned rfl x
  have hzero (h : x.value = 0) : decimals i x = [] := by
    cases i with
    | zero => rfl
    | succ i => rw [decimals, if_pos h]
  induction i generalizing j x with
  | zero =>
      have hxz : x.value = 0 := by
        obtain rfl : j = 0 := Nat.le_zero.mp hj
        rw [pow_zero, mul_one] at hdvd
        exact Int.eq_zero_of_dvd_of_nonneg_of_lt h0 hx hdvd
      simp [decimals, decimal, hxz]
  | succ i ih =>
      by_cases hxz : x.value = 0
      · rw [hzero hxz]
        simp [decimal, hxz]
      · cases j with
        | zero =>
            rw [pow_zero, mul_one] at hdvd
            exact absurd (Int.eq_zero_of_dvd_of_nonneg_of_lt h0 hx hdvd) hxz
        | succ j =>
            obtain ⟨n, hn, hint, hrest, hlt⟩ := decimals_turn hS hS' hx
            obtain ⟨hdigit, hvalue⟩ := char_digit hn
            have hnext : S ∣ ((x.mulInt 10).subInt .int n).value * 10 ^ j := by
              rw [hrest, Int.sub_mul, mul_assoc, ← pow_succ']
              exact Int.dvd_sub hdvd ⟨n * 10 ^ j, by ring⟩
            obtain ⟨hds, hlen, hsum, -⟩ := ih hlt (Nat.le_of_succ_le_succ hj) hnext
              (value_nonneg_of_unsigned rfl _) (fun h => by cases i <;> simp [decimals, h])
            simp only [decimals, if_neg hxz, hint]
            refine ⟨List.forall_mem_cons.mpr ⟨hdigit, hds⟩, Nat.succ_le_succ hlen, ?_,
              fun _ => List.cons_ne_nil _ _⟩
            rw [decimal_cons_pow, hvalue, List.length_cons, pow_succ']
            push_cast
            rw [Int.add_mul, hsum, hrest]
            ring

end Ulong

theorem intText_spec (t : IntType) {n : Int} (h : 0 ≤ n) :
    Whole (intText t n) ∧ intText t n ≠ [] ∧
      (t.bits ≠ 8 → (∀ c ∈ intText t n, isdigit c = true) ∧ (decimal (intText t n) : Int) = n) := by
  obtain ⟨hne, hdigits, hvalue⟩ := str_toString n.toNat
  rw [intText]
  split
  next hbits => exact ⟨Or.inl rfl, List.cons_ne_nil _ _, fun hno => absurd hbits hno⟩
  next =>
      rw [if_neg (Int.not_lt.mpr h)]
      exact ⟨Or.inr hdigits, hne, fun _ => ⟨hdigits, by rw [hvalue, Int.toNat_of_nonneg h]⟩⟩

/-- The sign, the whole part and the digits behind the point. -/
structure Printed (copies : Bool) (y : Scaled T S) (w ds : Str) : Prop where
  text : y.toStr copies = (if y.value < 0 then [ch '-'] else []) ++ (w ++ behind ds)
  whole : Whole w
  nonempty : w ≠ []
  digits : ∀ c ∈ ds, isdigit c = true
  room : 10 ^ ds.length ≤ S
  wholeDigits : T.bits ≠ 8 → ∀ c ∈ w, isdigit c = true
  number : T.bits ≠ 8 →
    (|y.value| * S < 2 ^ 64 ∨ copies = true ∧ |y.value| < 2 ^ 64) →
      decimal (w ++ ds) * S = |y.value| * 10 ^ ds.length

/-- The number without its sign. -/
theorem abs_value {y : Scaled T S} (hl : ¬ y.IsLeast) :
    (if y.value < 0 then y.neg else y).value = |y.value| := by
  split
  next h => rw [neg_value h, if_neg hl, abs_of_neg h]
  next h => rw [abs_of_nonneg (Int.not_lt.mp h)]

theorem toStr_printed (copies : Bool) {k : Nat} (hk : k ≤ 6) (hS : S = 10 ^ k)
    (hin : T.Contains S) {y : Scaled T S} (hl : ¬ y.IsLeast) :
    ∃ w ds, Printed copies y w ds := by
  have hpos : 0 < S := hS ▸ by positivity
  have hle : S ≤ 10 ^ 6 := hS ▸ pow_le_pow_right₀ (by decide) hk
  have hin' : IntType.ulong.Contains S := IntType.ulong_contains.mpr ⟨hpos.le, by omega⟩
  have habs := abs_value hl
  have h0 : 0 ≤ (if y.value < 0 then y.neg else y).value := habs ▸ abs_nonneg _
  obtain ⟨hm0, hmle, hm⟩ := widen_value copies hpos hin h0
  have hfits := (if y.value < 0 then y.neg else y).inRange.of_le hm0 hmle
  generalize ht : (if y.value < 0 then y.neg else y).widen copies = t at hm0 hmle hm hfits
  have hn := toInt_value hfits hpos hin'
  have hrest := subInt_value hfits hpos
  rw [← hn] at hrest
  have hlt : (t.subInt T (t.toInt T)).value < S := by
    rw [hrest]
    exact Int.emod_lt_of_pos _ hpos
  have hends : S ∣ (t.subInt T (t.toInt T)).value * 10 ^ k := by
    rw [← hS]
    exact Int.dvd_mul_left _ _
  obtain ⟨hds, hlen, hsum, hne⟩ := decimals_spec hpos hle hlt hk hends
  have hwhole := intText_spec T (n := t.toInt T) (by rw [hn]; exact Int.ediv_nonneg hm0 hpos.le)
  refine ⟨intText T (t.toInt T), decimals 6 (t.subInt T (t.toInt T)), ?_, hwhole.1, hwhole.2.1, hds,
    ?_, fun h => (hwhole.2.2 h).1, fun hbits hfit => ?_⟩
  · have hbehind : behind (decimals 6 (t.subInt T (t.toInt T))) =
        if (t.subInt T (t.toInt T)).value ≠ 0 then
          ch '.' :: decimals 6 (t.subInt T (t.toInt T)) else [] := by
      rw [behind]
      split
      next hnil => rw [if_neg fun h => hne h hnil]
      next hcons => rw [if_pos fun h => hcons (by rw [decimals, if_pos h])]
    rw [toStr, lt_zero hpos hin, hbehind]
    simp only [decide_eq_true_eq, ht, List.append_assoc]
  · exact (pow_le_pow_right₀ (by decide) hlen).trans hS.ge
  · rw [decimal_append]
    push_cast
    rw [(hwhole.2.2 hbits).2, Int.add_mul, hsum, hrest, hn, ← habs, ← hm (by rwa [habs]),
      mul_right_comm, ← Int.add_mul, Int.ediv_mul_add_emod]

/-! ## Printing and reading back -/

section RoundTrip

variable {y : Scaled T S} {k : Nat}

theorem behind_filter {ds : Str} (hds : ∀ c ∈ ds, isdigit c = true) :
    (behind ds).filter isdigit = ds := by
  rw [behind]
  split
  next h => rw [h, List.filter_nil]
  next => rw [List.filter_cons_of_neg (by decide), List.filter_eq_self.mpr hds]

/-- The digits of a text that was printed. -/
theorem Printed.filter {copies : Bool} {w ds : Str} (h : Printed copies y w ds)
    (hbits : T.bits ≠ 8) : (y.toStr copies).filter isdigit = w ++ ds := by
  have hsign : (if y.value < 0 then [ch '-'] else []).filter isdigit = [] := by
    split <;> rfl
  rw [h.text, List.filter_append, List.filter_append, hsign, behind_filter h.digits,
    List.filter_eq_self.mpr (h.wholeDigits hbits), List.nil_append]

theorem signed_of_negative (h : y.value < 0) : T.signed = true := by
  by_contra hs
  have := value_nonneg_of_unsigned (Bool.not_eq_true _ ▸ hs) y
  omega

/-- The stream has failed behind every text that is printed. -/
theorem Printed.fails {copies : Bool} {w ds : Str} (h : Printed copies y w ds)
    (hin : T.Contains S) (z : Scaled T S) : (read (.ofStr (y.toStr copies)) z).1.fail = true := by
  rw [h.text]
  split
  next hy =>
      obtain ⟨c, rest, htext, hread⟩ := read_minus ds z (signed_of_negative hy) h.nonempty
      rw [List.singleton_append, hread]
      exact readNumber_fails true z h.whole h.digits (fun hw => absurd hw h.nonempty) h.room hin
        htext
  next => exact read_fails z h.whole h.digits h.room hin

/-- The digits of a text are read as the number. -/
theorem Printed.reads {copies : Bool} {w ds : Str} (h : Printed copies y w ds)
    (hin : T.Contains S) (z : Scaled T S) (hbits : T.bits ≠ 8) :
    ∃ acc : Scaled T S,
      read (.ofStr (y.toStr copies)) z = (atEnd, if y.value < 0 then acc.neg else acc) ∧
      (T.Contains (decimal (w ++ ds) * S) →
        acc.value = decimal (w ++ ds) * S / 10 ^ ds.length) := by
  have hw := h.wholeDigits hbits
  have hempty (hw : w = []) : ds ≠ [] := absurd hw h.nonempty
  by_cases hy : y.value < 0
  · obtain ⟨c, rest, htext, hread⟩ := read_minus ds z (signed_of_negative hy) h.nonempty
    obtain ⟨acc, hacc, hvalue⟩ := readNumber_digits true z hw h.digits hempty h.room hin htext
    refine ⟨acc, ?_, hvalue⟩
    rw [h.text, if_pos hy, if_pos hy, List.singleton_append, hread, hacc, if_pos rfl]
  · rw [h.text, if_neg hy, List.nil_append]
    cases w with
    | nil => exact absurd rfl h.nonempty
    | cons c w =>
        obtain ⟨hspace, hminus⟩ := not_space_of_digit (hw c (List.mem_cons_self ..))
        have htext : c :: (w ++ behind ds) = c :: w ++ behind ds := (List.cons_append ..).symm
        obtain ⟨acc, hacc, hvalue⟩ :=
          readNumber_digits false z hw h.digits hempty h.room hin htext
        refine ⟨acc, ?_, hvalue⟩
        rw [if_neg hy, List.cons_append, read_cons _ z hspace, if_neg (fun h => hminus h.1), hacc,
          if_neg Bool.false_ne_true]

/-- **A printed number is read back**, unless the conversion to 64 bits or the reading of
its digits overflows, although the stream has failed. -/
theorem read_toStr (copies : Bool) (hk : k ≤ 6) (hS : S = 10 ^ k) (hin : T.Contains S)
    (hl : ¬ y.IsLeast) (hbits : T.bits ≠ 8)
    (hwide : |y.value| * S < 2 ^ 64 ∨ copies = true ∧ |y.value| < 2 ^ 64)
    (hread : T.Contains (decimal ((y.toStr copies).filter isdigit) * S)) (z : Scaled T S) :
    read (.ofStr (y.toStr copies)) z = (atEnd, y) := by
  obtain ⟨w, ds, h⟩ := toStr_printed copies hk hS hin hl
  obtain ⟨acc, hacc, hvalue⟩ := h.reads hin z hbits
  rw [h.filter hbits] at hread
  have hpow : (10 : Int) ^ ds.length ≠ 0 := by positivity
  have habs : acc.value = |y.value| := by
    rw [hvalue hread, h.number hbits hwide, Int.mul_ediv_cancel _ hpow]
  rw [hacc]
  congr 1
  apply eq_of_value_eq
  split
  next hy =>
      rw [neg, ofRaw_value, habs, abs_of_neg hy, Int.neg_neg]
      exact IntType.wrap_of_contains y.inRange
  next hy => rw [habs, abs_of_nonneg (Int.not_lt.mp hy)]

/-- **`from_string` raises on every text that `to_string` makes.** -/
theorem fromString_toStr (copies : Bool) (hk : k ≤ 6) (hS : S = 10 ^ k) (hin : T.Contains S)
    (hl : ¬ y.IsLeast) : (fromString (y.toStr copies) : Option (Scaled T S)) = none := by
  obtain ⟨w, ds, h⟩ := toStr_printed copies hk hS hin hl
  simp only [fromString, h.fails hin, Bool.true_or, if_true]

theorem fromString_toStr_sample :
    (fromString ((ofRaw (-125) : Scaled .int 100).toStr false) : Option (Scaled .int 100)) = none :=
  fromString_toStr (k := 2) false (by decide) rfl (by decide) (by decide)

/-- One and a quarter is printed and read back, and the text is refused. -/
theorem fromString_refuses :
    (ofRaw 125 : Scaled .int 100).toStr false = str "1.25" ∧
      IntType.int.Contains (decimal (str "125") * 100) ∧
      read (.ofStr (str "1.25")) (ofRaw 0 : Scaled .int 100) = (atEnd, ofRaw 125) ∧
      (fromString (str "1.25") : Option (Scaled .int 100)) = none := by
  refine ⟨?_, ?_, ?_, ?_⟩ <;> decide +kernel

end RoundTrip

end Scaled

end Undervest
