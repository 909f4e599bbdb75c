import Undervest.Uri
import Undervest.Lib.Pieces

/-!
# Addresses

`valid_ipv6` reads from separator to separator.  Here is what it reads in terms of
the text: groups of hexadecimal digits with a colon between any two of them, the
last of which may be a dotted address (`validIpv6_iff`).  `valid_ipv4` does the same
for octets and points, and refuses each octet 0 (`validIpv4_rule_iff`).

`valid_ipv6` limits the value of a group and not its digits, it takes no octet that starts
with a zero, a single colon in front is a gap for it, and one between two groups
need not stand for any.
-/

namespace Undervest

/-! ## Dotted addresses -/

/-- A decimal number from 0 to 255 without leading zeros. -/
structure IsOctet (o : Str) : Prop where
  ne_nil : o ≠ []
  digits : ∀ c ∈ o, isdigit c = true
  le : decimal o ≤ 255
  zero : o.head? = some (ch '0') → o = str "0"

/-- Four numbers between points. -/
abbrev Dotted (octet : Str → Prop) : Str → Prop := Pieces.Single (ch '.') octet 4

abbrev IsIpv4 : Str → Prop := Dotted IsOctet

/-- An octet other than 0. -/
def NonzeroOctet (o : Str) : Prop := IsOctet o ∧ o ≠ str "0"

theorem nonzeroOctet_isOctet (o : Str) (h : NonzeroOctet o) : IsOctet o := h.1

theorem octet_legal {octet : Str → Prop} (ho : ∀ o, octet o → IsOctet o) :
    Pieces.Legal (ch '.') octet fun _ => False where
  piece o h := by
    refine ⟨(ho o h).ne_nil, fun hm => ?_⟩
    exact absurd ((ho o h).digits _ hm) (by decide)
  double _ h := h.elim

/-- It starts with another digit. -/
theorem head_ne_zero {o : Str} (h : NonzeroOctet o) : o.head? ≠ some (ch '0') :=
  fun hz => h.2 (h.1.zero hz)

theorem digit_value {c : Byte} (h : isdigit c = true) :
    (c - ch '0').toNat ≤ 9 ∧ ((c - ch '0').toNat = 0 ↔ c = ch '0') :=
  forall_byte (P := fun c => isdigit c = true →
    (c - ch '0').toNat ≤ 9 ∧ ((c - ch '0').toNat = 0 ↔ c = ch '0')) (by decide +kernel) c h

/-- The number `v` with more digits. -/
def decimalFrom (v : Nat) (d : Str) : Nat := d.foldl (fun v c => 10 * v + (c - ch '0').toNat) v

theorem decimalFrom_cons (v : Nat) (c : Byte) (d : Str) :
    decimalFrom v (c :: d) = decimalFrom (v * 10 + (c - ch '0').toNat) d := by
  rw [decimalFrom, List.foldl_cons, Nat.mul_comm]
  rfl

theorem le_decimalFrom (v : Nat) (d : Str) : v ≤ decimalFrom v d := by
  induction d generalizing v with
  | nil => exact Nat.le_refl v
  | cons c d ih =>
      rw [decimalFrom_cons]
      exact Nat.le_trans (by omega) (ih _)

theorem decimal_cons (c : Byte) (d : Str) :
    decimal (c :: d) = decimalFrom (c - ch '0').toNat d := by
  rw [show decimal (c :: d) = decimalFrom 0 (c :: d) from rfl, decimalFrom_cons, Nat.zero_mul,
    Nat.zero_add]

/-- The digits behind the first one of an octet. -/
theorem ipv4Loop_digits {d : Str} (hd : ∀ c ∈ d, isdigit c = true) {v : Nat} (hv : v ≤ 255)
    (n : Nat) (r : Str) :
    ipv4Loop v n false (d ++ r) = true ↔
      decimalFrom v d ≤ 255 ∧ ipv4Loop (decimalFrom v d) n false r = true := by
  induction d generalizing v with
  | nil => exact (and_iff_right hv).symm
  | cons c d ih =>
      rw [List.forall_mem_cons] at hd
      rw [List.cons_append, ipv4Loop, if_pos hd.1, decimalFrom_cons]
      by_cases hbig : v * 10 + (c - ch '0').toNat ≥ 256
      · have hmore := le_decimalFrom (v * 10 + (c - ch '0').toNat) d
        rw [if_pos (by simp [hbig])]
        constructor
        · intro h
          cases h
        · intro h
          omega
      · rw [if_neg (by simp [hbig])]
        exact ih hd.2 (by omega)

/-- An octet that the loop reads is a number other than 0. -/
theorem ipv4Loop_octet {o : Str} (hne : o ≠ []) (ho : ∀ c ∈ o, isdigit c = true) (n : Nat)
    (r : Str) :
    ipv4Loop 0 n true (o ++ r) = true ↔
      NonzeroOctet o ∧ ipv4Loop (decimal o) n false r = true := by
  obtain ⟨c, d, rfl⟩ := List.exists_cons_of_ne_nil hne
  have hdigits := List.forall_mem_cons.mp ho
  have hvalue := digit_value hdigits.1
  rw [List.cons_append, ipv4Loop, if_pos hdigits.1, Nat.zero_mul, Nat.zero_add]
  by_cases hz : c = ch '0'
  · subst hz
    constructor
    · intro h
      exact absurd h (by simp)
    · rintro ⟨h, -⟩
      exact absurd rfl (head_ne_zero h)
  · have hpos : (c - ch '0').toNat ≠ 0 := mt hvalue.2.mp hz
    have hoctet : NonzeroOctet (c :: d) ↔ decimal (c :: d) ≤ 255 := by
      refine ⟨fun h => h.1.le, fun h => ⟨⟨hne, ho, h, fun he => ?_⟩, fun he => ?_⟩⟩
      · exact absurd (Option.some.inj he) hz
      · exact hz (List.cons.inj he).1
    have hsmall : ¬ ((c - ch '0').toNat ≥ 256) := by omega
    rw [hoctet, if_neg (by simp [hpos, hsmall]), decimal_cons]
    exact ipv4Loop_digits hdigits.2 (by omega) n r

/-- There is no octet. -/
theorem ipv4Loop_empty {r : Str} (hr : ∀ c ∈ r.head?, isdigit c = false) (v n : Nat) :
    ipv4Loop v n true r = false := by
  cases r with
  | nil => rfl
  | cons c r =>
      rw [ipv4Loop, if_neg (by simp [hr c rfl]), Bool.true_or, if_pos rfl, ite_self]

/-- A point behind an octet. -/
theorem ipv4Loop_point (v n : Nat) (t : Str) :
    ipv4Loop v n false (ch '.' :: t) = true ↔ n + 1 < 4 ∧ ipv4Loop 0 (n + 1) true t = true := by
  rw [ipv4Loop, if_neg (by decide), if_pos rfl, Bool.false_or]
  by_cases hlt : n + 1 < 4
  · rw [if_neg (mt of_decide_eq_true (Nat.not_le_of_lt hlt)), and_iff_right hlt]
  · rw [if_pos (decide_eq_true (Nat.le_of_not_lt hlt))]
    exact ⟨nofun, fun h => absurd h.1 hlt⟩

section

variable {octet : Str → Prop} (ho : ∀ o, octet o → IsOctet o) {m : Nat} {s : Str}

include ho

/-- A text of octets starts with a digit. -/
theorem digit_of_octets (h : Pieces.Single (ch '.') octet m s) :
    ∃ c ∈ s.head?, isdigit c = true := by
  obtain ⟨o, u, rfl, h | h⟩ := h.first
  · obtain ⟨c, d, rfl⟩ := List.exists_cons_of_ne_nil (ho o h).ne_nil
    exact ⟨c, rfl, (ho _ h).digits c (List.mem_cons_self ..)⟩
  · exact h.elim

/-- Every character of it is a digit or a point. -/
theorem char_of_octets (h : Pieces.Single (ch '.') octet m s) :
    ∀ c ∈ s, isdigit c = true ∨ c = ch '.' := by
  intro c hc
  by_cases hpoint : c = ch '.'
  · exact Or.inr hpoint
  · obtain ⟨o, h | h, hco⟩ := h.exists_mem hc hpoint
    · exact Or.inl ((ho o h).digits c hco)
    · exact h.elim

end

/-- The loop reads octets up to the fourth. -/
theorem ipv4Loop_iff {n : Nat} (hn : n < 4) (s : Str) :
    ipv4Loop 0 n true s = true ↔
      ∃ m, Pieces.Single (ch '.') NonzeroOctet m s ∧ n + m = 4 := by
  induction hlen : s.length using Nat.strong_induction_on generalizing s n with
  | _ len ih =>
    subst hlen
    obtain ⟨o, r, rfl, ho, hr⟩ := exists_span isdigit s
    by_cases hne : o = []
    · subst hne
      rw [List.nil_append, ipv4Loop_empty hr]
      constructor
      · intro h
        cases h
      · rintro ⟨m, hm, -⟩
        obtain ⟨c, hc, hd⟩ := digit_of_octets (fun _ h => h.1) hm
        rw [hr c hc] at hd
        cases hd
    · have hpoint : ch '.' ∉ o := fun hm => absurd (ho _ hm) (by decide)
      rw [ipv4Loop_octet hne ho]
      cases r with
      | nil =>
          have hend : ipv4Loop (decimal o) n false [] = true ↔ n + 1 = 4 := by
            simp [ipv4Loop]
          rw [hend, List.append_nil]
          constructor
          · rintro ⟨hoctet, hn⟩
            exact ⟨1, .last hoctet, hn⟩
          · rintro ⟨m, hm, hsum⟩
            rcases (Pieces.notMem_iff hpoint).mp hm with ⟨rfl, hoctet⟩ | ⟨-, hf⟩
            · exact ⟨hoctet, hsum⟩
            · exact hf.elim
      | cons c t =>
          by_cases hc : c = ch '.'
          · subst hc
            have hlen : t.length < (o ++ ch '.' :: t).length := by
              simp
              omega
            rw [ipv4Loop_point]
            constructor
            · rintro ⟨hoctet, hlt, ht⟩
              obtain ⟨m, hm, hsum⟩ := (ih t.length hlen hlt t rfl).mp ht
              exact ⟨m + 1, .cons hoctet hm, by omega⟩
            · rintro ⟨m, hm, hsum⟩
              obtain ⟨m, rfl, hoctet, hm⟩ :=
                (Pieces.cons_iff (octet_legal fun _ h => h.1) hpoint).mp hm
              have hpos := hm.pos
              exact ⟨hoctet, by omega, (ih t.length hlen (by omega) t rfl).mpr
                ⟨m, hm, by omega⟩⟩
          · have hfalse : ipv4Loop (decimal o) n false (c :: t) = false := by
              rw [ipv4Loop, if_neg (by simp [hr c rfl]), if_neg hc]
            rw [hfalse]
            constructor
            · rintro ⟨-, h⟩
              cases h
            · rintro ⟨m, hm, -⟩
              rcases char_of_octets (fun _ h => h.1) hm c (by simp) with hd | hd
              · rw [hr c rfl] at hd
                cases hd
              · exact absurd hd hc

/-- **Which dotted addresses are read.** -/
theorem validIpv4_iff (s : Str) : validIpv4 s = true ↔ Dotted NonzeroOctet s := by
  rw [validIpv4, ipv4Loop_iff (by decide)]
  constructor
  · rintro ⟨m, hm, hsum⟩
    obtain rfl : m = 4 := by omega
    exact hm
  · exact fun h => ⟨4, h, rfl⟩

/-- A dotted address is read unless one of its numbers is 0. -/
theorem dotted_or {d : Str} (h : IsIpv4 d) :
    Dotted NonzeroOctet d ∨ str "0" ∈ d.splitOn (ch '.') := by
  rw [or_iff_not_imp_right]
  intro hz
  have hlegal := octet_legal fun _ h => h
  refine h.of_forall_splitOn hlegal fun o ho => ⟨h.of_splitOn hlegal o ho, ?_⟩
  rintro rfl
  exact hz ho

theorem not_nonzero {d : Str} (hd : str "0" ∈ d.splitOn (ch '.')) : ¬ Dotted NonzeroOctet d :=
  fun h => (h.of_splitOn (octet_legal nonzeroOctet_isOctet) _ hd).2 rfl

/-- **Where the dotted addresses that are read are the ones of the rule.** -/
theorem validIpv4_rule_iff (s : Str) :
    (validIpv4 s = true ↔ IsIpv4 s) ↔ ¬ (IsIpv4 s ∧ str "0" ∈ s.splitOn (ch '.')) := by
  rw [validIpv4_iff]
  constructor
  · rintro h ⟨hs, hz⟩
    exact not_nonzero hz (h.mpr hs)
  · intro h
    constructor
    · exact fun hread => hread.mono (fun _ _ ho => ho.1) fun _ _ hf => hf
    · intro hs
      exact (dotted_or hs).resolve_right fun hz => h ⟨hs, hz⟩

/-- The address of the loopback interface is not read. -/
theorem loopback_not_valid :
    ¬ (validIpv4 (str "127.0.0.1") = true ↔ IsIpv4 (str "127.0.0.1")) := by
  intro h
  have hoctet : ∀ o ∈ [str "127", str "0", str "1"], o ≠ [] ∧ (∀ c ∈ o, isdigit c = true) ∧
      decimal o ≤ 255 ∧ (o.head? = some (ch '0') → o = str "0") := by
    decide +kernel
  have hread : ∀ o ∈ [str "127", str "0", str "1"], IsOctet o := fun o ho =>
    ⟨(hoctet o ho).1, (hoctet o ho).2.1, (hoctet o ho).2.2.1, (hoctet o ho).2.2.2⟩
  have haddress : IsIpv4 (str "127" ++ ch '.' :: (str "0" ++ ch '.' ::
      (str "0" ++ ch '.' :: str "1"))) :=
    .cons (hread _ (by simp)) (.cons (hread _ (by simp)) (.cons (hread _ (by simp))
      (.last (hread _ (by simp)))))
  exact absurd (h.mpr haddress) (by decide +kernel)

/-! ## Groups -/

/-- One to four hexadecimal digits. -/
structure IsGroup (g : Str) : Prop where
  ne_nil : g ≠ []
  length_le : g.length ≤ 4
  digits : ∀ c ∈ g, hex c = true

/-- Hexadecimal digits, up to four of them behind the zeros in front. -/
structure PaddedGroup (g : Str) : Prop where
  ne_nil : g ≠ []
  length_le : (g.dropWhile (· == ch '0')).length ≤ 4
  digits : ∀ c ∈ g, hex c = true

theorem IsGroup.padded {g : Str} (h : IsGroup g) : PaddedGroup g :=
  ⟨h.ne_nil, Nat.le_trans (List.dropWhile_suffix _).length_le h.length_le, h.digits⟩

theorem hexdigit_value {c : Byte} (h : hex c = true) :
    (hexdigit c).toNat < 16 ∧ ((hexdigit c).toNat = 0 ↔ c = ch '0') :=
  forall_byte (P := fun c => hex c = true →
    (hexdigit c).toNat < 16 ∧ ((hexdigit c).toNat = 0 ↔ c = ch '0')) (by decide +kernel) c h

/-- The test of the four high bits. -/
theorem and_ne_zero_iff {v : Nat} (hv : v < 2 ^ 16) : v &&& 0xF000 ≠ 0 ↔ 2 ^ 12 ≤ v := by
  constructor
  · intro h
    by_contra hlt
    refine h (Nat.eq_of_testBit_eq fun i => ?_)
    rw [Nat.testBit_and, Nat.zero_testBit, Bool.and_eq_false_iff]
    by_cases hi : i < 12
    · have : ∀ i < 12, Nat.testBit 0xF000 i = false := by decide
      exact Or.inr (this i hi)
    · exact Or.inl (Nat.testBit_lt_two_pow (Nat.lt_of_lt_of_le (Nat.lt_of_not_le hlt)
        (Nat.pow_le_pow_right (by decide) (Nat.le_of_not_lt hi))))
  · intro h hzero
    obtain ⟨i, hi, hbit⟩ := Nat.exists_ge_and_testBit_of_ge_two_pow h
    have hlt : i < 16 := by
      by_contra hge
      have := Nat.testBit_lt_two_pow (Nat.lt_of_lt_of_le hv
        (Nat.pow_le_pow_right (by decide) (Nat.le_of_not_lt hge)))
      rw [this] at hbit
      cases hbit
    have hmask : ∀ i < 16, 12 ≤ i → Nat.testBit 0xF000 i = true := by decide
    have := congrArg (Nat.testBit · i) hzero
    rw [Nat.testBit_and, hbit, hmask i hlt hi, Nat.zero_testBit] at this
    cases this

theorem shift_digit {v d : Nat} (hd : d < 16) : (v <<< 4) ||| d = 16 * v + d := by
  rw [← Nat.shiftLeft_add_eq_or_of_lt (i := 4) hd, Nat.shiftLeft_eq]
  omega

/-- The number of groups the loop accepts. -/
def Fits (skip : Bool) (n : Nat) : Prop := n ≤ 8 ∧ (skip = false → n = 8)

theorem ipv6End_iff (skip : Bool) (n : Nat) (b : Bool) :
    ipv6End skip n b = true ↔ b = true ∧ Fits skip (n + 1) := by
  unfold ipv6End Fits
  split
  next hbig => exact ⟨nofun, fun h => absurd h.2.1 (by omega)⟩
  next hle =>
    split
    next hopen =>
      rw [Bool.and_eq_true, Bool.not_eq_true', bne_iff_ne] at hopen
      exact ⟨nofun, fun h => absurd (h.2.2 hopen.1) hopen.2⟩
    next hclosed =>
      have hfull : skip = false → n + 1 = 8 := by simpa using hclosed
      exact ⟨fun hb => ⟨hb, by omega, hfull⟩, And.left⟩

section

variable {tail : Str} {skip : Bool} {n : Nat} {q g r : Str}

/-- Where no digit is read, the value does not matter. -/
theorem ipv6Loop_stop (hr : ∀ c ∈ r.head?, hex c = false) (v : Nat) :
    ipv6Loop tail skip n v q r = ipv6Loop tail skip n 0 q r := by
  cases r with
  | nil => rfl
  | cons c r =>
      have hc : ¬ hex c = true := by simp [hr c rfl]
      rw [ipv6Loop, ipv6Loop, if_neg hc, if_neg hc]

/-- The digits behind the first `j + 1` that count. -/
theorem ipv6Loop_digits (hg : ∀ c ∈ g, hex c = true) (hr : ∀ c ∈ r.head?, hex c = false) {j v : Nat}
    (hj : j < 4) (hle : 16 ^ j ≤ v) (hlt : v < 16 ^ (j + 1)) :
    ipv6Loop tail skip n v q (g ++ r) = true ↔
      j + 1 + g.length ≤ 4 ∧ ipv6Loop tail skip n 0 q r = true := by
  induction g generalizing j v with
  | nil =>
      rw [List.nil_append, ipv6Loop_stop hr, List.length_nil, and_iff_right (by omega)]
  | cons c g ih =>
      rw [List.forall_mem_cons] at hg
      have hvalue := hexdigit_value hg.1
      have hbound : v < 2 ^ 16 := Nat.lt_of_lt_of_le hlt
        (show 16 ^ (j + 1) ≤ 16 ^ 4 from Nat.pow_le_pow_right (by decide) (by omega))
      rw [List.cons_append, ipv6Loop, if_pos hg.1, List.length_cons]
      by_cases hfull : j = 3
      · subst hfull
        rw [if_pos ((and_ne_zero_iff hbound).mpr hle)]
        constructor
        · intro h
          cases h
        · intro h
          omega
      · have hsmall : ¬ 2 ^ 12 ≤ v := by
          have : 16 ^ (j + 1) ≤ 16 ^ 3 := Nat.pow_le_pow_right (by decide) (by omega)
          omega
        rw [if_neg (mt (and_ne_zero_iff hbound).mp hsmall), shift_digit hvalue.1,
          ih hg.2 (j := j + 1) (by omega) (by rw [Nat.pow_succ]; omega)
            (by rw [Nat.pow_succ]; omega)]
        refine and_congr_left fun _ => ?_
        omega

/-- A group is read when its value fits. -/
theorem ipv6Loop_group (hg : ∀ c ∈ g, hex c = true) (hr : ∀ c ∈ r.head?, hex c = false) :
    ipv6Loop tail skip n 0 q (g ++ r) = true ↔
      (g.dropWhile (· == ch '0')).length ≤ 4 ∧ ipv6Loop tail skip n 0 q r = true := by
  induction g with
  | nil => simp
  | cons c g ih =>
      rw [List.forall_mem_cons] at hg
      have hvalue := hexdigit_value hg.1
      by_cases hz : c = ch '0'
      · rw [List.dropWhile_cons_of_pos (by simpa using hz), ← ih hg.2, List.cons_append, ipv6Loop,
          if_pos hg.1, if_neg (by decide), hvalue.2.mpr hz]
        rfl
      · have hpos : (hexdigit c).toNat ≠ 0 := mt hvalue.2.mp hz
        rw [List.dropWhile_cons_of_neg (by simpa using hz), List.cons_append, ipv6Loop, if_pos hg.1,
          if_neg (by decide), Nat.zero_shiftLeft, Nat.zero_or,
          ipv6Loop_digits hg.2 hr (j := 0) (by decide) (by omega) (by omega), List.length_cons,
          Nat.zero_add, Nat.add_comm 1]

/-- Behind the last group. -/
theorem ipv6Loop_nil : ipv6Loop tail skip n 0 g [] = true ↔ g ≠ [] ∧ Fits skip (n + 1) := by
  rw [ipv6Loop, ipv6End_iff, bne_iff_ne, List.length_eq_zero_iff.ne]

theorem in_group_iff {c : Byte} {t : Str} :
    decide ((g ++ c :: t).length > t.length + 1) = true ↔ g ≠ [] := by
  rw [decide_eq_true_eq, List.length_append, List.length_cons, ← List.length_pos_iff]
  omega

/-- A colon where no group is. -/
theorem ipv6Loop_gap (t : Str) :
    ipv6Loop tail skip n 0 (ch ':' :: t) (ch ':' :: t) = true ↔
      skip = false ∧ ipv6Loop tail true n 0 t t = true := by
  rw [ipv6Loop, if_neg (by decide), if_pos rfl, if_neg (by simp)]
  cases skip with
  | false => exact (and_iff_right rfl).symm
  | true => exact ⟨nofun, fun h => absurd h.1 (by decide)⟩

/-- A colon behind a group. -/
theorem ipv6Loop_colon (hne : g ≠ []) (t : Str) :
    ipv6Loop tail skip n 0 (g ++ ch ':' :: t) (ch ':' :: t) = true ↔
      n + 1 < 8 ∧ ipv6Loop tail skip (n + 1) 0 t t = true := by
  rw [ipv6Loop, if_neg (by decide), if_pos rfl, if_pos (in_group_iff.mpr hne)]
  by_cases hlt : n + 1 < 8
  · rw [if_neg (Nat.not_le_of_lt hlt), and_iff_right hlt]
  · rw [if_pos (Nat.le_of_not_lt hlt)]
    exact ⟨nofun, fun h => absurd h.1 hlt⟩

/-- Another character ends the loop, and only a point may. -/
theorem ipv6Loop_other {c : Byte} (hc : hex c = false) (hsep : c ≠ ch ':') (t : Str) :
    ipv6Loop tail skip n 0 (g ++ c :: t) (c :: t) = true ↔
      c = ch '.' ∧ validIpv4 (g ++ c :: t ++ tail) = true ∧ g ≠ [] ∧ Fits skip (n + 2) := by
  rw [ipv6Loop, if_neg (by simp [hc]), if_neg hsep]
  by_cases hpoint : c = ch '.'
  · rw [if_neg (not_not_intro hpoint), and_iff_right hpoint]
    cases hvalid : validIpv4 (g ++ c :: t ++ tail) with
    | false => exact ⟨nofun, fun h => absurd h.1 (by decide)⟩
    | true => rw [if_neg (by decide), ipv6End_iff, in_group_iff, and_iff_right rfl]
  · rw [if_pos hpoint]
    exact ⟨nofun, fun h => absurd h.1 hpoint⟩

end

/-- The first character that is no digit, and what stands before it. -/
theorem first_not_hex {g s t u : Str} {c d : Byte} (hg : ∀ c ∈ g, hex c = true)
    (hs : ∀ c ∈ s, hex c = true) (hc : hex c = false) (hd : hex d = false)
    (he : g ++ c :: t = s ++ d :: u) : g = s ∧ c = d ∧ t = u := by
  induction g generalizing s with
  | nil =>
      cases s with
      | nil => exact ⟨rfl, List.cons.inj he⟩
      | cons b s =>
          obtain rfl := (List.cons.inj he).1
          rw [hs c (List.mem_cons_self ..)] at hc
          cases hc
  | cons a g ih =>
      rw [List.forall_mem_cons] at hg
      cases s with
      | nil =>
          obtain rfl := (List.cons.inj he).1
          rw [hg.1] at hd
          cases hd
      | cons b s =>
          obtain ⟨rfl, he'⟩ := List.cons.inj he
          obtain ⟨rfl, hrest⟩ := ih hg.2 (fun c hc => hs c (List.mem_cons_of_mem _ hc)) he'
          exact ⟨rfl, hrest⟩

/-! ## The loop over groups -/

/-- A dotted address starts with a group, and has no colon. -/
structure DottedText (dotted : Str → Prop) : Prop where
  first : ∀ a, dotted a → ∃ g t, a = g ++ ch '.' :: t ∧ PaddedGroup g
  noColon : ∀ a, dotted a → ch ':' ∉ a

theorem colon_notMem {g : Str} (hg : ∀ c ∈ g, hex c = true) : ch ':' ∉ g :=
  fun hm => absurd (hg _ hm) (by decide)

theorem DottedText.legal {dotted : Str → Prop} (hd : DottedText dotted) :
    Pieces.Legal (ch ':') PaddedGroup dotted where
  piece g h := ⟨h.ne_nil, colon_notMem h.digits⟩
  double a h := by
    refine ⟨?_, hd.noColon a h⟩
    obtain ⟨g, t, rfl, -⟩ := hd.first a h
    simp

/-- Groups with one gap that the loop finds: a group is missing where a separator
stands. -/
inductive Gap (dotted : Str → Prop) : Nat → Str → Prop where
  | colon {m : Nat} {r : Str} : Pieces (ch ':') PaddedGroup dotted m r → Gap dotted m (ch ':' :: r)
  | cons {m : Nat} {g t : Str} : PaddedGroup g → Gap dotted m t →
      Gap dotted (m + 1) (g ++ ch ':' :: t)

section

variable {dotted : Str → Prop} {g t : Str} {m : Nat} (hg : ∀ c ∈ g, hex c = true)

include hg

/-- A text whose first separator is no colon is a dotted address. -/
theorem pieces_other {c : Byte} (hc : hex c = false) (hne : c ≠ ch ':') :
    Pieces (ch ':') PaddedGroup dotted m (g ++ c :: t) ↔ m = 2 ∧ dotted (g ++ c :: t) := by
  constructor
  · intro h
    generalize he : g ++ c :: t = s at h
    cases h with
    | last h =>
        rw [← he] at h
        have := h.digits c (by simp)
        rw [hc] at this
        cases this
    | double h => exact ⟨rfl, h⟩
    | cons h _ => exact absurd (first_not_hex hg h.digits hc (by decide) he).2.1 hne
  · rintro ⟨rfl, h⟩
    exact .double h

theorem not_gap_other {c : Byte} (hc : hex c = false) (hne : c ≠ ch ':') :
    ¬ Gap dotted m (g ++ c :: t) := by
  intro h
  generalize he : g ++ c :: t = s at h
  cases h with
  | @colon r =>
      have := first_not_hex (s := []) hg (by simp) hc (by decide) he
      exact hne this.2.1
  | cons h _ => exact hne (first_not_hex hg h.digits hc (by decide) he).2.1

theorem gap_cons_iff (hne : g ≠ []) :
    Gap dotted m (g ++ ch ':' :: t) ↔ ∃ k, m = k + 1 ∧ PaddedGroup g ∧ Gap dotted k t := by
  constructor
  · intro h
    generalize he : g ++ ch ':' :: t = s at h
    cases h with
    | colon =>
        have := first_not_hex (s := []) hg (by simp) (by decide) (by decide) he
        exact absurd this.1 hne
    | @cons k _ _ h ht =>
        obtain ⟨rfl, -, rfl⟩ := first_not_hex hg h.digits (by decide) (by decide) he
        exact ⟨k, rfl, h, ht⟩
  · rintro ⟨k, rfl, h, ht⟩
    exact .cons h ht

end

theorem Gap.pos {dotted : Str → Prop} {m : Nat} {s : Str} (h : Gap dotted m s) : 0 < m := by
  cases h with
  | colon h => exact h.pos
  | cons => exact Nat.succ_pos _

theorem Gap.colon_mem {dotted : Str → Prop} {m : Nat} {s : Str} (h : Gap dotted m s) :
    ch ':' ∈ s := by
  cases h <;> simp

theorem gap_colon_iff {dotted : Str → Prop} {m : Nat} {t : Str} :
    Gap dotted m (ch ':' :: t) ↔ Pieces (ch ':') PaddedGroup dotted m t := by
  constructor
  · intro h
    generalize he : ch ':' :: t = s at h
    cases h with
    | colon h => exact (List.cons.inj he).2 ▸ h
    | cons h _ =>
        have := first_not_hex (g := []) (by simp) h.digits (by decide) (by decide) he
        exact absurd this.1.symm h.ne_nil
  · exact .colon

/-- **What the loop reads.** -/
theorem ipv6Loop_iff {dotted : Str → Prop} (hd : DottedText dotted) (tail : Str)
    (hvalid : ∀ a, validIpv4 (a ++ tail) = true ↔ dotted a) (skip : Bool) (n : Nat) (p : Str) :
    ipv6Loop tail skip n 0 p p = true ↔
      (∃ m, Pieces (ch ':') PaddedGroup dotted m p ∧ Fits skip (n + m)) ∨
        skip = false ∧ ∃ m, Gap dotted m p ∧ n + m ≤ 8 := by
  induction hlen : p.length using Nat.strong_induction_on generalizing p n skip with
  | _ len ih =>
    subst hlen
    obtain ⟨g, r, rfl, hg, hr⟩ := exists_span hex p
    have hcolon := colon_notMem hg
    have hpadded : g ≠ [] ∧ (g.dropWhile (· == ch '0')).length ≤ 4 ↔ PaddedGroup g :=
      ⟨fun h => ⟨h.1, h.2, hg⟩, fun h => ⟨h.ne_nil, h.length_le⟩⟩
    rw [ipv6Loop_group hg hr]
    cases r with
    | nil =>
        rw [ipv6Loop_nil, List.append_nil]
        constructor
        · rintro ⟨hwidth, hne, hfits⟩
          exact Or.inl ⟨1, .last (hpadded.mp ⟨hne, hwidth⟩), hfits⟩
        · rintro (⟨m, hm, hfits⟩ | ⟨-, m, hm, -⟩)
          · rcases (Pieces.notMem_iff hcolon).mp hm with ⟨rfl, hgroup⟩ | ⟨-, hdot⟩
            · exact ⟨hgroup.length_le, hgroup.ne_nil, hfits⟩
            · obtain ⟨g', t, rfl, -⟩ := hd.first g hdot
              exact absurd (hg (ch '.') (by simp)) (by decide)
          · exact absurd hm.colon_mem hcolon
    | cons c t =>
        have hlen : t.length < (g ++ c :: t).length := by
          simp
          omega
        have hc : hex c = false := hr c rfl
        by_cases hsep : c = ch ':'
        · subst hsep
          by_cases hne : g = []
          · -- a gap, unless there was one
            subst hne
            have hno : ∀ m, ¬ Pieces (ch ':') PaddedGroup dotted m (ch ':' :: t) := by
              intro m hm
              obtain ⟨b, u, he, hb⟩ := hm.head_ne hd.legal
              exact hb (List.cons.inj he).1.symm
            rw [List.nil_append, ipv6Loop_gap, ih t.length hlen true n t rfl]
            simp [hno, gap_colon_iff, Fits]
          · rw [ipv6Loop_colon hne, ih t.length hlen skip (n + 1) t rfl]
            constructor
            · rintro ⟨hwidth, -, ⟨m, hm, hfits⟩ | ⟨hskip, m, hm, hle⟩⟩
              · refine Or.inl ⟨m + 1, .cons (hpadded.mp ⟨hne, hwidth⟩) hm, ?_⟩
                rwa [Nat.add_comm m, ← Nat.add_assoc]
              · exact Or.inr ⟨hskip, m + 1, .cons (hpadded.mp ⟨hne, hwidth⟩) hm, by omega⟩
            · rintro (⟨m, hm, hfits⟩ | ⟨hskip, m, hm, hle⟩)
              · obtain ⟨k, rfl, hgroup, hk⟩ := (Pieces.cons_iff hd.legal hcolon).mp hm
                have hpos := hk.pos
                have hle := hfits.1
                refine ⟨hgroup.length_le, by omega, Or.inl ⟨k, hk, ?_⟩⟩
                rwa [Nat.add_assoc, Nat.add_comm 1]
              · obtain ⟨k, rfl, hgroup, hk⟩ := (gap_cons_iff hg hne).mp hm
                have hpos := hk.pos
                exact ⟨hgroup.length_le, by omega, Or.inr ⟨hskip, k, hk, by omega⟩⟩
        · have hfirst : dotted (g ++ c :: t) → c = ch '.' ∧ PaddedGroup g := by
            intro h
            obtain ⟨g', u, he, hgroup⟩ := hd.first _ h
            obtain ⟨rfl, hpoint, -⟩ := first_not_hex hg hgroup.digits hc (by decide) he
            exact ⟨hpoint, hgroup⟩
          simp only [ipv6Loop_other hc hsep, hvalid, pieces_other hg hc hsep,
            not_gap_other hg hc hsep, false_and, exists_false, and_false, or_false]
          constructor
          · rintro ⟨-, -, hdot, -, hfits⟩
            exact ⟨2, ⟨rfl, hdot⟩, hfits⟩
          · rintro ⟨m, ⟨rfl, hdot⟩, hfits⟩
            obtain ⟨hpoint, hgroup⟩ := hfirst hdot
            exact ⟨hgroup.length_le, hpoint, hdot, hgroup.ne_nil, hfits⟩

/-! ## What is read -/

theorem dottedText_none : DottedText fun _ => False := ⟨fun _ h => h.elim, fun _ h => h.elim⟩

theorem le_decimalFrom_pow {v : Nat} (d : Str) : v * 10 ^ d.length ≤ decimalFrom v d := by
  induction d generalizing v with
  | nil => simp [decimalFrom]
  | cons c d ih =>
      rw [decimalFrom_cons, List.length_cons, Nat.pow_succ, Nat.mul_comm _ 10, ← Nat.mul_assoc]
      exact Nat.le_trans (Nat.mul_le_mul_right _ (Nat.le_add_right ..)) ih

/-- An octet has up to three digits. -/
theorem IsOctet.length_le {o : Str} (h : IsOctet o) : o.length ≤ 3 := by
  obtain ⟨c, d, rfl⟩ := List.exists_cons_of_ne_nil h.ne_nil
  by_cases hz : c = ch '0'
  · subst hz
    rw [h.zero rfl]
    decide
  · have hpos : (c - ch '0').toNat ≠ 0 :=
      mt (digit_value (h.digits c (List.mem_cons_self ..))).2.mp hz
    have hle : (c - ch '0').toNat * 10 ^ d.length ≤ 255 :=
      Nat.le_trans (le_decimalFrom_pow d) (decimal_cons c d ▸ h.le)
    have hpow : 10 ^ d.length < 10 ^ 3 :=
      Nat.lt_of_le_of_lt (Nat.le_trans (Nat.le_mul_of_pos_left _ (Nat.pos_of_ne_zero hpos)) hle)
        (by decide)
    have := (Nat.pow_lt_pow_iff_right (by decide)).mp hpow
    rw [List.length_cons]
    omega

/-- It has the characters of a group. -/
theorem IsOctet.group {o : Str} (h : IsOctet o) : IsGroup o := by
  have hhex : ∀ c, isdigit c = true → hex c = true := forall_byte (by decide +kernel)
  exact ⟨h.ne_nil, Nat.le_succ_of_le h.length_le, fun c hc => hhex c (h.digits c hc)⟩

theorem dottedText_octets {octet : Str → Prop} (ho : ∀ o, octet o → IsOctet o) :
    DottedText (Dotted octet) where
  first a h := by
    cases h with
    | cons h _ => exact ⟨_, _, rfl, (ho _ h).group.padded⟩
  noColon a h hm := by
    rcases char_of_octets ho h _ hm with hd | hd
    · exact absurd hd (by decide)
    · exact absurd hd (by decide)

/-- Groups and perhaps a dotted address, as they are read. -/
abbrev ReadGroups : Nat → Str → Prop := Pieces (ch ':') PaddedGroup (Dotted NonzeroOctet)

/-- Groups only. -/
abbrev FrontGroups : Nat → Str → Prop := Pieces.Single (ch ':') PaddedGroup

/-- The addresses that are read. -/
inductive ReadAddress : Str → Prop where
  | full {s : Str} : ReadGroups 8 s → ReadAddress s
  | left {k : Nat} {l : Str} : FrontGroups k l → k ≤ 7 → ReadAddress (l ++ str "::")
  | right {m : Nat} {r : Str} : ReadGroups m r → m ≤ 7 → ReadAddress (str "::" ++ r)
  | inner {k m : Nat} {l r : Str} : FrontGroups k l → ReadGroups m r → k + m ≤ 8 →
      ReadAddress (l ++ str "::" ++ r)
  | leading {m : Nat} {r : Str} : ReadGroups m r → m ≤ 8 → ReadAddress (ch ':' :: r)

theorem gap_iff {dotted : Str → Prop} {n : Nat} {s : Str} :
    Gap dotted n s ↔
      (∃ r, s = ch ':' :: r ∧ Pieces (ch ':') PaddedGroup dotted n r) ∨
        ∃ k m l r, s = l ++ str "::" ++ r ∧ FrontGroups k l ∧
          Pieces (ch ':') PaddedGroup dotted m r ∧ n = k + m := by
  constructor
  · intro h
    induction h with
    | colon h => exact Or.inl ⟨_, rfl, h⟩
    | @cons n g t hg _ ih =>
        rcases ih with ⟨r, rfl, hr⟩ | ⟨k, m, l, r, rfl, hl, hr, rfl⟩
        · exact Or.inr ⟨1, n, g, r, by simp [str], .last hg, hr, Nat.add_comm ..⟩
        · exact Or.inr ⟨k + 1, m, g ++ ch ':' :: l, r, by simp, .cons hg hl, hr, by omega⟩
  · rintro (⟨r, rfl, hr⟩ | ⟨k, m, l, r, rfl, hl, hr, rfl⟩)
    · exact .colon hr
    · induction hl with
      | @last g hg =>
          rw [show g ++ str "::" ++ r = g ++ ch ':' :: (ch ':' :: r) by simp [str], Nat.add_comm]
          exact .cons hg (.colon hr)
      | double h => exact h.elim
      | @cons k g l hg _ ih =>
          rw [show g ++ ch ':' :: l ++ str "::" ++ r = g ++ ch ':' :: (l ++ str "::" ++ r) by simp,
            Nat.add_right_comm]
          exact .cons hg ih

/-- A text whose last character is no colon does not end with two. -/
theorem no_end {s x : Str} (h : ∃ t c, s = t ++ [c] ∧ c ≠ ch ':') : s ≠ x ++ str "::" := by
  rintro rfl
  obtain ⟨t, c, he, hc⟩ := h
  rw [show x ++ str "::" = (x ++ [ch ':']) ++ [ch ':'] by simp [str]] at he
  exact hc (List.append_singleton_inj.mp he).2.symm

/-- A text whose first character is no colon does not start with two. -/
theorem no_start {s x : Str} (h : ∃ c t, s = c :: t ∧ c ≠ ch ':') : s ≠ str "::" ++ x := by
  rintro rfl
  obtain ⟨c, t, he, hc⟩ := h
  exact hc (List.cons.inj he).1.symm

theorem readLegal : Pieces.Legal (ch ':') PaddedGroup (Dotted NonzeroOctet) :=
  (dottedText_octets nonzeroOctet_isOctet).legal

theorem frontLegal : Pieces.Legal (ch ':') PaddedGroup fun _ => False := dottedText_none.legal

/-- With a gap in front there is nothing but groups behind it. -/
theorem ReadAddress.of_start {x : Str} (h : ReadAddress (str "::" ++ x)) :
    ∃ m, ReadGroups m x ∧ m ≤ 7 := by
  generalize he : str "::" ++ x = s at h
  cases h with
  | full h => exact absurd he.symm (no_start (h.head_ne readLegal))
  | left h _ =>
      obtain ⟨c, t, rfl, hc⟩ := h.head_ne frontLegal
      exact absurd he.symm (no_start ⟨c, _, rfl, hc⟩)
  | @right m r h hm =>
      obtain rfl := List.append_cancel_left he
      exact ⟨m, h, hm⟩
  | inner h _ _ =>
      obtain ⟨c, t, rfl, hc⟩ := h.head_ne frontLegal
      exact absurd he.symm (no_start ⟨c, _, rfl, hc⟩)
  | leading h _ =>
      obtain ⟨c, t, rfl, hc⟩ := h.head_ne readLegal
      exact absurd (List.cons.inj (List.cons.inj he).2).1.symm hc

/-- With a gap at the end there is nothing but groups in front of it. -/
theorem ReadAddress.of_end {x : Str} (h : ReadAddress (x ++ str "::")) :
    ∃ k, FrontGroups k x ∧ k ≤ 7 := by
  generalize he : x ++ str "::" = s at h
  cases h with
  | full h => exact absurd he.symm (no_end (h.last_ne readLegal))
  | @left k l h hk =>
      obtain rfl := List.append_cancel_right he
      exact ⟨k, h, hk⟩
  | @right m r h _ =>
      obtain ⟨t, c, rfl, hc⟩ := h.last_ne readLegal
      exact absurd he.symm (no_end ⟨str "::" ++ t, c, by simp, hc⟩)
  | @inner k m l r _ h _ =>
      obtain ⟨t, c, rfl, hc⟩ := h.last_ne readLegal
      exact absurd he.symm (no_end ⟨l ++ str "::" ++ t, c, by simp, hc⟩)
  | leading h _ =>
      obtain ⟨t, c, rfl, hc⟩ := h.last_ne readLegal
      exact absurd he.symm (no_end ⟨ch ':' :: t, c, rfl, hc⟩)

theorem exists_start {s : Str} (h : (charAt s 0 == ch ':' && charAt s 1 == ch ':') = true) :
    ∃ x, s = str "::" ++ x := by
  rw [Bool.and_eq_true, beq_iff_eq, beq_iff_eq] at h
  match s, h with
  | [], h => exact absurd h.1 (by decide)
  | [c], h => exact absurd h.2 (show (0 : Byte) ≠ ch ':' by decide)
  | c :: d :: x, h =>
      obtain ⟨rfl, rfl⟩ : c = ch ':' ∧ d = ch ':' := h
      exact ⟨x, rfl⟩

/-- **Which addresses are read.** -/
theorem validIpv6_iff (s : Str) : validIpv6 s = true ↔ ReadAddress s := by
  have hdotted := dottedText_octets nonzeroOctet_isOctet
  have hloop := ipv6Loop_iff hdotted [] fun a => by
    rw [List.append_nil, validIpv4_iff]
  have hloop' := ipv6Loop_iff dottedText_none (str "::") fun a => by
    rw [validIpv4_iff, iff_false]
    exact fun h => hdotted.noColon _ h (by simp [str])
  by_cases hstart : ∃ x, s = str "::" ++ x
  · obtain ⟨x, rfl⟩ := hstart
    have hskip : validIpv6 (str "::" ++ x) =
        if (str "::").isSuffixOf x then false else ipv6Loop [] true 1 0 x x := rfl
    rw [hskip]
    by_cases hend : (str "::").isSuffixOf x
    · rw [if_pos hend]
      constructor
      · intro h
        cases h
      · intro h
        obtain ⟨y, rfl⟩ := List.isSuffixOf_iff_suffix.mp hend
        obtain ⟨m, hm, -⟩ := h.of_start
        exact absurd rfl (no_end (hm.last_ne readLegal))
    · rw [if_neg hend, hloop true 1 x]
      constructor
      · rintro (⟨m, hm, hle, -⟩ | ⟨h, -⟩)
        · exact .right hm (by omega)
        · cases h
      · intro h
        obtain ⟨m, hm, hle⟩ := h.of_start
        exact Or.inl ⟨m, hm, by omega, nofun⟩
  · have hskip : (charAt s 0 == ch ':' && charAt s 1 == ch ':') = false :=
      Bool.eq_false_iff.mpr (mt exists_start hstart)
    have hvalid : validIpv6 s =
        if (str "::").isSuffixOf s then
          ipv6Loop (str "::") true 1 0 (s.take (s.length - 2)) (s.take (s.length - 2))
        else ipv6Loop [] false 0 0 s s := by
      rw [validIpv6, hskip]
      rfl
    rw [hvalid]
    by_cases hend : (str "::").isSuffixOf s
    · obtain ⟨x, rfl⟩ := List.isSuffixOf_iff_suffix.mp hend
      have htake : (x ++ str "::").take ((x ++ str "::").length - 2) = x := by
        simp [str]
      rw [if_pos hend, htake, hloop' true 1 x]
      constructor
      · rintro (⟨k, hk, hle, -⟩ | ⟨h, -⟩)
        · exact .left hk (by omega)
        · cases h
      · intro h
        obtain ⟨k, hk, hle⟩ := h.of_end
        exact Or.inl ⟨k, hk, by omega, nofun⟩
    · rw [if_neg hend, hloop false 0 s]
      constructor
      · rintro (⟨m, hm, -, hfits⟩ | ⟨-, n, hn, hle⟩)
        · obtain rfl : m = 8 := by
            have := hfits rfl
            omega
          exact .full hm
        · rcases gap_iff.mp hn with ⟨r, rfl, hr⟩ | ⟨k, m, l, r, rfl, hl, hr, rfl⟩
          · exact .leading hr (by omega)
          · exact .inner hl hr (by omega)
      · intro h
        cases h with
        | full h => exact Or.inl ⟨8, h, by decide, fun _ => rfl⟩
        | left => exact absurd (List.isSuffixOf_iff_suffix.mpr (List.suffix_append ..)) hend
        | right => exact absurd ⟨_, rfl⟩ hstart
        | @inner k m l r hl hr hle =>
            exact Or.inr ⟨rfl, k + m, gap_iff.mpr (Or.inr ⟨k, m, l, r, rfl, hl, hr, rfl⟩), by omega⟩
        | @leading m r hr hle => exact Or.inr ⟨rfl, m, .colon hr, by omega⟩

end Undervest
