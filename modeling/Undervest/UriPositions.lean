import Undervest.UriFront
import Undervest.Lib.Refinement

/-!
# Reading at positions

The functions of `uri.cpp` once more, on the positions of a text.  The position
behind the last character has the terminating NUL, and a read behind it is a
fault.  So are an exception and a loop that has more turns than the text has
positions.  The operators `&&` and `||` do not read what they do not need.

`At s p q` says that the rest `q` of the text `s` starts at the position `p`.
Each function on positions does what the function of its name does on the rests
(`parse_eq`), so the only fault is an exception.
-/

namespace Undervest

open Refinement

/-- What goes wrong. -/
inductive Fault where
  /-- A read behind the terminating NUL. -/
  | beyond
  /-- An exception. -/
  | raised
  /-- A loop that is out of turns. -/
  | turns
deriving DecidableEq, Repr

namespace Positions

/-! ## Reading -/

/-- The character at a position. -/
def charAt (s : Str) (p : Nat) : Except Fault Byte :=
  if p ≤ s.length then .ok (s.getD p 0) else .error .beyond

/-- `&&`. -/
def both (a b : Except Fault Bool) : Except Fault Bool := do
  if ← a then b else pure false

/-- `||`. -/
def either (a b : Except Fault Bool) : Except Fault Bool := do
  if ← a then pure true else b

/-- The test of a character for `c`. -/
def isChar (s : Str) (p : Nat) (c : Byte) : Except Fault Bool := do
  return (← charAt s p) == c

/-- `is_in_set`, of the character at a position. -/
def isInSet (s : Str) (cs : CharSet) (p : Nat) : Except Fault Bool := do
  let c ← charAt s p
  if c < 128 then pure (cs c) else .error .raised

/-- `is_escaped`. -/
def isEscaped (s : Str) (p : Nat) : Except Fault Bool :=
  both (isChar s p (ch '%')) (both (isInSet s hex (p + 1)) (isInSet s hex (p + 2)))

/-- The loop of `skip_charSet`. -/
def skipLoop (s : Str) (cs : CharSet) : Nat → Nat → Except Fault Nat
  | 0, _ => .error .turns
  | turns + 1, p => do
      if ← isInSet s cs p then
        if !(← isChar s p (ch '%')) then skipLoop s cs turns (p + 1)
        else if ← isEscaped s p then skipLoop s cs turns (p + 3)
        else pure p
      else pure p

/-- `skip_charSet`. -/
def skipCharSet (s : Str) (cs : CharSet) (p : Nat) : Except Fault Nat :=
  skipLoop s cs (s.length + 1) p

def checkCharSet (cs : CharSet) (s : Str) : Except Fault Bool := do
  return (← skipCharSet s cs 0) == s.length

/-- `std::string::assign` of a range.  It throws when the range ends before it starts. -/
def assign (s : Str) (p q : Nat) : Except Fault Str :=
  if p ≤ q then .ok ((s.take q).drop p) else .error .raised

/-! ## Hosts -/

/-- The loop of `valid_ipv4`. -/
def ipv4Loop (s : Str) : Nat → Nat → Nat → Bool → Nat → Except Fault Bool
  | 0, _, _, _, _ => .error .turns
  | turns + 1, v, n, first, p =>
      if p = s.length then pure (!first && n + 1 == 4)
      else do
        let c ← charAt s p
        if ← isInSet s isdigit p then
          let v := v * 10 + (c - ch '0').toNat
          if v ≥ 256 || (first && v == 0) then pure false else ipv4Loop s turns v n false (p + 1)
        else if c = ch '.' then
          if first || n + 1 ≥ 4 then pure false else ipv4Loop s turns 0 (n + 1) true (p + 1)
        else pure false

def validIpv4 (s : Str) : Except Fault Bool := ipv4Loop s (s.length + 1) 0 0 true 0

/-- The loop of `valid_ipv6` up to the position `e`. -/
def ipv6Loop (s : Str) (e : Nat) : Nat → Bool → Nat → Nat → Nat → Nat → Except Fault Bool
  | 0, _, _, _, _, _ => .error .turns
  | turns + 1, skip, n, v, q, p =>
      if p = e then pure (ipv6End skip n (p != q))
      else do
        let c ← charAt s p
        if ← isInSet s hex p then
          if v &&& 0xF000 ≠ 0 then pure false
          else ipv6Loop s e turns skip n ((v <<< 4) ||| (hexdigit c).toNat) q (p + 1)
        else if c = ch ':' then
          if p > q then
            if n + 1 ≥ 8 then pure false else ipv6Loop s e turns skip (n + 1) 0 (p + 1) (p + 1)
          else if skip then pure false
          else ipv6Loop s e turns true n 0 (p + 1) (p + 1)
        else if c ≠ ch '.' then pure false
        else if !(← validIpv4 (s.drop q)) then pure false
        else pure (ipv6End skip (n + 1) (p != q))

def validIpv6 (s : Str) : Except Fault Bool := do
  let e := s.length
  let skip ← both (pure (e ≥ 2)) (both (isChar s 0 (ch ':')) (isChar s 1 (ch ':')))
  let p := if skip then 2 else 0
  if ← both (pure (e - p ≥ 2)) (both (isChar s (e - 1) (ch ':')) (isChar s (e - 2) (ch ':'))) then
    if skip then pure false else ipv6Loop s (e - 2) (e + 1) true 1 0 p p
  else ipv6Loop s e (e + 1) skip (if skip then 1 else 0) 0 p p

def validFuture (s : Str) : Except Fault Bool := do
  if !(← both (isChar s 0 (ch 'v')) (isInSet s hex 1)) then pure false
  else
    let p ← skipCharSet s hex 2
    if !(← isChar s p (ch '.')) then pure false
    else
      both (pure (p + 1 != s.length)) (do return (← skipCharSet s futureChar (p + 1)) == s.length)

def validRegisteredName (s : Str) : Except Fault Bool := checkCharSet regnameChar s

def validHost (hst : Str) : Except Fault Bool :=
  either (pure (hst.length == 0)) (either (validIpv4 hst) (either (validIpv6 hst)
    (either (validFuture hst) (validRegisteredName hst))))

/-! ## Parsing -/

/-- The loop of `URI::unescape`. -/
def unescapeLoop (s : Str) : Nat → Nat → Except Fault Str
  | 0, _ => .error .turns
  | turns + 1, p =>
      if p = s.length then pure []
      else do
        if !(← isEscaped s p) then
          let c ← charAt s p
          return c :: (← unescapeLoop s turns (p + 1))
        else
          let h ← charAt s (p + 1)
          let l ← charAt s (p + 2)
          return ((hexdigit h <<< 4) ||| hexdigit l) :: (← unescapeLoop s turns (p + 3))

/-- `URI::unescape`. -/
def unescape (s : Str) : Except Fault Str := unescapeLoop s (s.length + 1) 0

/-- The user and the password of a user information that has a colon. -/
def splitUserinfo (info : Str) : Except Fault (Str × Str) := do
  match find (ch ':') info with
  | none => return ([], [])
  | some i => return (← unescape (info.take i), ← unescape (info.drop (i + 1)))

/-- The loop over the digits of the port, with the colon at `q`. -/
def portLoop (s : Str) (q : Nat) : Nat → Nat → Nat → Except Fault (Nat × Nat)
  | 0, _, _ => .error .turns
  | turns + 1, prt, p => do
      if ← isInSet s isdigit p then
        let prt ←
          if prt ≤ 0xFFFF then pure (prt * 10 + ((← charAt s q) - ch '0').toNat) else pure prt
        portLoop s q turns prt (p + 1)
      else pure (prt, p)

/-- The port, `none` when it is too large, and the position behind it. -/
def parsePort (s : Str) (p : Nat) : Except Fault (Option (Nat × Nat)) := do
  if ← isChar s p (ch ':') then
    let r ← portLoop s p (s.length + 1) 0 (p + 1)
    return if r.1 ≤ 0xFFFF then some r else none
  else return some (0, p)

/-- What follows the host, which ends at `q`. -/
def parseBehindHost (s scheme userinfo host : Str) (q : Nat) :
    Except Fault (URI × Option Nat) := do
  if !(← validHost host) then return (URI.clear, none)
  else
    match ← parsePort s q with
    | none => return (URI.clear, none)
    | some (port, p) =>
        let (user, password) ← splitUserinfo userinfo
        return ({ URI.clear with scheme, userinfo, user, password, host, port }, some p)

/-- Host and port at `p`.  The user information ends at `q`. -/
def parseHost (s scheme userinfo : Str) (p q : Nat) : Except Fault (URI × Option Nat) := do
  if ← isChar s p (ch '[') then
    match find (ch ']') (s.drop (p + 1)) with
    | none => return (URI.clear, none)
    | some _ =>
        let host ← assign s (p + 1) q
        parseBehindHost s scheme userinfo host (q + 1)
  else
    let q ← skipCharSet s regnameChar p
    let host ← assign s p q
    parseBehindHost s scheme userinfo host q

/-- User information, host and port, from the two slashes at `p` on. -/
def parseAuthority (s scheme : Str) (p : Nat) : Except Fault (URI × Option Nat) := do
  let q ← skipCharSet s userinfoChar (p + 2)
  if ← isChar s q (ch '@') then
    let userinfo ← assign s (p + 2) q
    parseHost s scheme userinfo (q + 1) q
  else parseHost s scheme [] p q

/-- A part of the URI behind a mark, empty without the mark. -/
def parsePart (s : Str) (mark : Byte) (p : Nat) : Except Fault (Str × Nat) := do
  if ← isChar s p mark then
    let q ← skipCharSet s queryChar (p + 1)
    return (← assign s (p + 1) q, q)
  else return ([], p)

/-- Path, query and fragment. -/
def parsePath (s : Str) (u : URI) (p : Nat) : Except Fault (URI × Bool) := do
  let q ← skipCharSet s pcharSlash p
  let path ← if q ≠ p then pure (FilePath.assign (← assign s p q)) else pure u.path
  let (query, p) ← parsePart s (ch '?') q
  let (fragment, p) ← parsePart s (ch '#') p
  return ({ u with path, query, fragment }, p == s.length)

/-- `URI::parse`: the URI and the result. -/
def parse (s : Str) : Except Fault (URI × Bool) := do
  let q ← skipCharSet s schemeChar 0
  if ← both (isInSet s isalpha 0) (isChar s q (ch ':')) then
    let scheme ← assign s 0 q
    let p := q + 1
    if ← both (isChar s p (ch '/')) (isChar s (p + 1) (ch '/')) then
      match ← parseAuthority s scheme p with
      | (u, none) => return (u, false)
      | (u, some p) => parsePath s u p
    else parsePath s { URI.clear with scheme } p
  else parsePath s URI.clear 0

/-! ## Positions and rests -/

/-- The rest `q` of `s` starts at the position `p`. -/
structure At (s : Str) (p : Nat) (q : Str) : Prop where
  le : p ≤ s.length
  drop : s.drop p = q

variable {s q : Str} {p : Nat}

theorem At.start (s : Str) : At s 0 s := ⟨Nat.zero_le _, rfl⟩

theorem At.length (h : At s p q) : p + q.length = s.length := by
  have hle := h.le
  rw [← h.drop, List.length_drop]
  omega

theorem At.append {t : Str} (h : At s p (t ++ q)) : At s (p + t.length) q := by
  have hlen := h.length
  rw [List.length_append] at hlen
  refine ⟨by omega, ?_⟩
  rw [← List.drop_drop, h.drop, List.drop_left]

theorem At.next {c : Byte} (h : At s p (c :: q)) : At s (p + 1) q := At.append (t := [c]) h

theorem At.charAt (h : At s p q) {i : Nat} (hi : i ≤ q.length) :
    Positions.charAt s (p + i) = .ok (Undervest.charAt q i) := by
  have hlen := h.length
  rw [Positions.charAt, if_pos (by omega), Undervest.charAt, ← h.drop,
    List.getD_eq_getElem?_getD, List.getD_eq_getElem?_getD, List.getElem?_drop]

theorem At.isChar (h : At s p q) {i : Nat} (hi : i ≤ q.length) (c : Byte) :
    Positions.isChar s (p + i) c = .ok (Undervest.charAt q i == c) := by
  rw [Positions.isChar, h.charAt hi]
  rfl

theorem At.isInSet (h : At s p q) {i : Nat} (hi : i ≤ q.length) (cs : CharSet) :
    Positions.isInSet s cs (p + i) =
      ofOption .raised (Undervest.isInSet cs (Undervest.charAt q i)) := by
  rw [Positions.isInSet, h.charAt hi, ok_bind, Undervest.isInSet]
  split <;> rfl

theorem At.charAt_zero {c : Byte} (h : At s p (c :: q)) : Positions.charAt s p = .ok c :=
  h.charAt (Nat.zero_le _)

theorem At.isChar_zero (h : At s p q) (c : Byte) :
    Positions.isChar s p c = .ok (Undervest.charAt q 0 == c) := h.isChar (Nat.zero_le _) c

theorem At.isInSet_zero (h : At s p q) (cs : CharSet) :
    Positions.isInSet s cs p = ofOption .raised (Undervest.isInSet cs (Undervest.charAt q 0)) :=
  h.isInSet (Nat.zero_le _) cs

theorem At.isEscaped (h : At s p q) :
    Positions.isEscaped s p = ofOption .raised (Undervest.isEscaped q) := by
  rw [Positions.isEscaped, Undervest.isEscaped, h.isChar_zero, both, ok_bind]
  cases q with
  | nil => rfl
  | cons c q =>
      by_cases hc : Undervest.charAt (c :: q) 0 = ch '%'
      · rw [if_pos (beq_iff_eq.mpr hc), if_pos hc, h.isInSet (by simp), both]
        cases hset : Undervest.isInSet hex (Undervest.charAt (c :: q) 1) with
        | none => rfl
        | some b =>
            cases b with
            | false => rfl
            | true =>
                -- a digit is not the terminating NUL
                have hne : q ≠ [] := by
                  rintro rfl
                  rw [show Undervest.charAt [c] 1 = 0 from rfl] at hset
                  exact absurd hset (by decide)
                have hlen := List.length_pos_iff.mpr hne
                rw [ofOption_some, ok_bind, if_pos rfl, h.isInSet (by rw [List.length_cons]; omega)]
                rfl
      · rw [if_neg (by simpa using hc), if_neg hc]
        rfl

theorem At.isInSet_ascii {c : Byte} (h : At s p (c :: q)) (hc : c < 128) (cs : CharSet) :
    Positions.isInSet s cs p = .ok (cs c) := by
  rw [h.isInSet_zero, show Undervest.charAt (c :: q) 0 = c from rfl, Undervest.isInSet_ascii cs hc,
    ofOption_some]

/-- The position behind a scan, when `t` was skipped in front of it. -/
theorem map_position (r : Option (Str × Str)) (p : Nat) (t : Str) :
    (r.map fun r => (t ++ r.1, r.2)).map (fun r => p + r.1.length) =
      r.map fun r => p + t.length + r.1.length := by
  rw [Option.map_map]
  refine congrArg (Option.map · r) (funext fun r => ?_)
  rw [Function.comp_apply, List.length_append, Nat.add_assoc]

/-- What a scan does at a position.  It stops at the terminating NUL. -/
theorem At.skipLoop {cs : CharSet} (hcs : cs 0 = false) (h : At s p q) {turns : Nat}
    (ht : q.length < turns) : Positions.skipLoop s cs turns p =
      ofOption .raised ((Undervest.skipCharSet cs q).map fun r => p + r.1.length) := by
  induction turns generalizing p q with
  | zero => omega
  | succ turns ih =>
      rw [Positions.skipLoop, h.isInSet_zero, h.isChar_zero, h.isEscaped]
      cases q with
      | nil =>
          have hnul : Undervest.isInSet cs (Undervest.charAt [] 0) = some false :=
            isInSet_eq_some.mpr ⟨by decide, hcs⟩
          rw [hnul]
          rfl
      | cons c q =>
          have hc : Undervest.charAt (c :: q) 0 = c := rfl
          rw [hc]
          cases hset : Undervest.isInSet cs c with
          | none =>
              rw [skipCharSet_none hset]
              rfl
          | some b =>
              cases b with
              | false =>
                  rw [show Undervest.skipCharSet cs (c :: q) = _ from stops_of_not_mem hset q]
                  rfl
              | true =>
                  rw [List.length_cons] at ht
                  by_cases hne : c = ch '%'
                  · subst hne
                    cases he : Undervest.isEscaped (ch '%' :: q) with
                    | none =>
                        rw [skipCharSet_percent hset, he]
                        rfl
                    | some b =>
                        cases b with
                        | false =>
                            rw [skipCharSet_percent hset, he]
                            rfl
                        | true =>
                            obtain ⟨d, l, q, rfl⟩ := exists_of_isEscaped he
                            have hskip : Undervest.skipCharSet cs (ch '%' :: d :: l :: q) =
                                (Undervest.skipCharSet cs q).map fun r =>
                                  (ch '%' :: d :: l :: r.1, r.2) := by
                              rw [skipCharSet_percent hset, he]
                              rfl
                            have hrec := ih (At.append (t := [ch '%', d, l]) h) (by
                              simp only [List.length_cons] at ht
                              omega)
                            rw [hskip]
                            refine hrec.trans (congrArg (ofOption _) ?_)
                            exact (map_position _ p [ch '%', d, l]).symm
                  · have hrec := ih h.next (by omega)
                    rw [skipCharSet_char hset hne, ofOption_some, ok_bind, if_pos rfl, ok_bind,
                      if_pos (by simpa using hne), hrec]
                    exact congrArg (ofOption _) (map_position _ p [c]).symm

theorem At.skipCharSet_eq {cs : CharSet} (hcs : cs 0 = false) (h : At s p q) :
    skipCharSet s cs p =
      ofOption .raised ((Undervest.skipCharSet cs q).map fun r => p + r.1.length) := by
  have hlen := h.length
  exact h.skipLoop hcs (by omega)

/-- A scan of the rest, and the position behind it. -/
theorem At.skipCharSet_some {cs : CharSet} (hcs : cs 0 = false) (h : At s p q) {t r : Str}
    (hskip : Undervest.skipCharSet cs q = some (t, r)) :
    skipCharSet s cs p = .ok (p + t.length) ∧ At s p (t ++ r) := by
  rw [h.skipCharSet_eq hcs, hskip]
  exact ⟨rfl, (skipCharSet_eq_some hskip).1 ▸ h⟩

theorem At.assign {t : Str} (h : At s p (t ++ q)) :
    Positions.assign s p (p + t.length) = .ok t := by
  rw [Positions.assign, if_pos (Nat.le_add_right ..), List.drop_take, h.drop,
    Nat.add_sub_cancel_left, List.take_left]

theorem At.eq_length (h : At s p q) : p = s.length ↔ q = [] := by
  have hlen := h.length
  rw [← List.length_eq_zero_iff]
  omega

/-! ## Hosts -/

/-- A scan of 7-bit characters goes to the end when the set has them all. -/
theorem At.checkCharSet {cs : CharSet} (hcs : cs 0 = false) (h : At s p q) (hq : ∀ c ∈ q, c < 128) :
    (do return (← skipCharSet s cs p) == s.length : Except Fault Bool) =
      .ok (Undervest.checkCharSet cs q) := by
  obtain ⟨t, r, hskip⟩ := skipCharSet_ascii cs hq
  obtain ⟨hpos, hat⟩ := h.skipCharSet_some hcs hskip
  have hend := hat.append.eq_length
  rw [hpos, ok_bind, Undervest.checkCharSet, hskip]
  refine congrArg Except.ok ?_
  rw [Bool.eq_iff_iff, beq_iff_eq, beq_iff_eq, Option.some.injEq, Prod.mk.injEq, hend]
  constructor
  · rintro rfl
    have hq := (skipCharSet_eq_some hskip).1
    rw [List.append_nil] at hq
    exact ⟨hq.symm, rfl⟩
  · exact And.right

theorem At.ipv4Loop (h : At s p q) (hq : ∀ c ∈ q, c < 128) {turns : Nat} (ht : q.length < turns)
    (v n : Nat) (first : Bool) :
    Positions.ipv4Loop s turns v n first p = .ok (Undervest.ipv4Loop v n first q) := by
  induction turns generalizing p q v n first with
  | zero => omega
  | succ turns ih =>
      rw [Positions.ipv4Loop]
      cases q with
      | nil =>
          rw [if_pos (h.eq_length.mpr rfl)]
          rfl
      | cons c q =>
          rw [List.length_cons] at ht
          rw [List.forall_mem_cons] at hq
          have hrec := fun v n first => ih h.next hq.2 (by omega) v n first
          rw [if_neg (mt h.eq_length.mp (List.cons_ne_nil c q)), h.charAt_zero, ok_bind,
            h.isInSet_ascii hq.1, ok_bind, Undervest.ipv4Loop]
          simp only [hrec, pure, Except.pure]
          split_ifs <;> rfl

theorem validIpv4_eq {s : Str} (hs : ∀ c ∈ s, c < 128) :
    validIpv4 s = .ok (Undervest.validIpv4 s) :=
  (At.start s).ipv4Loop hs (Nat.lt_succ_self _) 0 0 true

/-- The loop of `valid_ipv6`, with a group `g` in front of the rest. -/
theorem At.ipv6Loop {tail g r : Str} (hs : ∀ c ∈ s, c < 128) (h : At s p (g ++ (r ++ tail)))
    {turns : Nat} (ht : r.length < turns) (skip : Bool) (n v : Nat) :
    Positions.ipv6Loop s (s.length - tail.length) turns skip n v p (p + g.length) =
      .ok (Undervest.ipv6Loop tail skip n v (g ++ r) r) := by
  induction turns generalizing p g r skip n v with
  | zero => omega
  | succ turns ih =>
      have hat := h.append
      have hlen := hat.length
      rw [List.length_append] at hlen
      have hgroup : (p + g.length != p) = (g.length != 0) := by
        rw [Bool.eq_iff_iff, bne_iff_ne, bne_iff_ne]
        omega
      rw [Positions.ipv6Loop, hgroup]
      cases r with
      | nil =>
          rw [List.length_nil] at hlen
          rw [if_pos (by omega), List.append_nil]
          rfl
      | cons c r =>
          rw [List.length_cons] at hlen ht
          have hc : c < 128 := hs c (List.mem_of_mem_drop (i := p + g.length) (by simp [hat.drop]))
          have hdigit : ∀ v, Positions.ipv6Loop s (s.length - tail.length) turns skip n v p
              (p + g.length + 1) = .ok (Undervest.ipv6Loop tail skip n v (g ++ c :: r) r) := by
            intro v
            have := ih (g := g ++ [c]) (r := r) (by simpa using h) (by omega) skip n v
            simpa [Nat.add_assoc] using this
          have hcolon : ∀ skip n, Positions.ipv6Loop s (s.length - tail.length) turns skip n 0
              (p + g.length + 1) (p + g.length + 1) = .ok (Undervest.ipv6Loop tail skip n 0 r r) :=
            fun skip n => ih (g := []) hat.next (by omega) skip n 0
          have hpoint : validIpv4 (s.drop p) =
              .ok (Undervest.validIpv4 (g ++ c :: r ++ tail)) := by
            rw [h.drop, List.append_assoc]
            exact validIpv4_eq fun c hc => hs c (List.mem_of_mem_drop (h.drop ▸ hc))
          have hin : decide ((g ++ c :: r).length > r.length + 1) = (g.length != 0) := by
            rw [Bool.eq_iff_iff, decide_eq_true_eq, bne_iff_ne, List.length_append,
              List.length_cons]
            omega
          have hgt : (p + g.length > p) ↔ (g.length != 0) = true := by
            rw [bne_iff_ne]
            omega
          rw [if_neg (by omega), hat.charAt_zero, ok_bind, hat.isInSet_ascii hc, ok_bind,
            Undervest.ipv6Loop, hpoint]
          simp only [hdigit, hcolon, hin, hgt, ok_bind, pure, Except.pure]
          split_ifs <;> simp_all

theorem both_ok (a b : Bool) : both (.ok a) (.ok b) = .ok (a && b) := by
  cases a <;> rfl

/-- Whether two colons end a rest. -/
theorem At.colons (h : At s p q) :
    both (pure (s.length - p ≥ 2)) (both (Positions.isChar s (s.length - 1) (ch ':'))
        (Positions.isChar s (s.length - 2) (ch ':'))) = .ok ((str "::").isSuffixOf q) := by
  have hlen := h.length
  by_cases hshort : s.length - p ≥ 2
  · obtain ⟨q, x, y, rfl⟩ : ∃ q' x y, q = q' ++ [x, y] := by
      have hdrop : (q.drop (q.length - 2)).length = 2 := by
        rw [List.length_drop]
        omega
      obtain ⟨x, y, hxy⟩ := List.length_eq_two.mp hdrop
      exact ⟨q.take (q.length - 2), x, y, by rw [← hxy, List.take_append_drop]⟩
    have hend := h.append
    have hpos : s.length - 1 = p + q.length + 1 ∧ s.length - 2 = p + q.length := by
      rw [List.length_append, List.length_cons, List.length_singleton] at hlen
      omega
    have hsuffix : (str "::").isSuffixOf (q ++ [x, y]) = (y == ch ':' && x == ch ':') := by
      rw [Bool.eq_iff_iff, List.isSuffixOf_iff_suffix, Bool.and_eq_true, beq_iff_eq, beq_iff_eq]
      constructor
      · rintro ⟨t, ht⟩
        obtain ⟨hx, hy⟩ := List.cons.inj (List.append_inj' ht rfl).2
        exact ⟨(List.cons.inj hy).1.symm, hx.symm⟩
      · rintro ⟨rfl, rfl⟩
        exact List.suffix_append ..
    rw [hpos.1, hpos.2, hend.isChar (by simp), hend.isChar_zero, hsuffix, both_ok,
      show (pure (decide _) : Except Fault Bool) = .ok true from congrArg _ (decide_eq_true hshort)]
    rfl
  · have hnot : (str "::").isSuffixOf q = false := by
      rw [Bool.eq_false_iff]
      intro hs
      have hle := (List.isSuffixOf_iff_suffix.mp hs).length_le
      have htwo : (str "::").length = 2 := rfl
      omega
    rw [hnot, show (pure (decide _) : Except Fault Bool) = .ok false from
      congrArg _ (decide_eq_false hshort)]
    rfl

theorem validIpv6_eq {s : Str} (hs : ∀ c ∈ s, c < 128) :
    validIpv6 s = .ok (Undervest.validIpv6 s) := by
  have hstart := At.start s
  have hskip : both (pure (s.length ≥ 2)) (both (isChar s 0 (ch ':')) (isChar s 1 (ch ':'))) =
      .ok (Undervest.charAt s 0 == ch ':' && Undervest.charAt s 1 == ch ':') := by
    rcases s with _ | ⟨c, _ | ⟨d, s⟩⟩
    · rfl
    · rw [show Undervest.charAt [c] 1 = 0 from rfl, show ((0 : Byte) == ch ':') = false from rfl,
        Bool.and_false]
      rfl
    · rw [hstart.isChar_zero, show 1 = 0 + 1 from rfl, hstart.isChar (by simp), both_ok]
      rfl
  rw [validIpv6, Undervest.validIpv6]
  simp only [hskip, ok_bind]
  generalize hb : (Undervest.charAt s 0 == ch ':' && Undervest.charAt s 1 == ch ':') = skip
  have hat : At s (if skip then 2 else 0) (if skip then s.drop 2 else s) := by
    cases skip with
    | false => exact hstart
    | true =>
        refine ⟨?_, rfl⟩
        by_contra hlen
        rw [Bool.and_eq_true, beq_iff_eq, beq_iff_eq] at hb
        rw [if_pos rfl] at hlen
        have hnul : Undervest.charAt s 1 = 0 := by
          rw [Undervest.charAt, List.getD_eq_getElem?_getD, List.getElem?_eq_none (by omega)]
          rfl
        exact absurd (hnul.symm.trans hb.2) (by decide)
  simp only [hat.colons, ok_bind]
  generalize (if skip = true then s.drop 2 else s) = q at hat
  generalize (if skip = true then 2 else 0) = p at hat
  have hlen := hat.length
  split
  next hsuffix =>
    split
    next => rfl
    next =>
      obtain ⟨q, rfl⟩ := List.isSuffixOf_iff_suffix.mp hsuffix
      have hturns : q.length < s.length + 1 := by
        rw [List.length_append] at hlen
        omega
      have hloop := hat.ipv6Loop (g := []) hs hturns true 1 0
      rw [List.length_append, show (str "::").length = 2 from rfl, Nat.add_sub_cancel,
        List.take_left]
      exact hloop
  next =>
    have hturns : q.length < s.length + 1 := by omega
    rw [← List.append_nil q] at hat
    exact hat.ipv6Loop (g := []) hs hturns skip (if skip then 1 else 0) 0

theorem validFuture_eq {s : Str} (hs : ∀ c ∈ s, c < 128) :
    validFuture s = .ok (Undervest.validFuture s) := by
  have hstart := At.start s
  have hfirst : both (isChar s 0 (ch 'v')) (isInSet s hex 1) =
      .ok (Undervest.charAt s 0 == ch 'v' && hex (Undervest.charAt s 1)) := by
    rw [hstart.isChar_zero]
    cases s with
    | nil => rfl
    | cons c s =>
        rw [show 1 = 0 + 1 from rfl, hstart.isInSet (by simp),
          Undervest.isInSet_ascii hex (charAt_ascii hs _), ofOption_some, both_ok]
  rw [validFuture, hfirst, ok_bind, Undervest.validFuture]
  cases hb : (Undervest.charAt s 0 == ch 'v' && hex (Undervest.charAt s 1)) with
  | false => rfl
  | true =>
      rw [if_neg (by simp), Bool.true_and]
      obtain ⟨c, d, s, rfl⟩ : ∃ c d s', s = c :: d :: s' := by
        rcases s with _ | ⟨c, _ | ⟨d, s⟩⟩
        · exact absurd hb (by decide)
        · rw [show Undervest.charAt [c] 1 = 0 from rfl, show hex 0 = false from rfl,
            Bool.and_false] at hb
          cases hb
        · exact ⟨c, d, s, rfl⟩
      have hat : At (c :: d :: s) 2 s := At.append (t := [c, d]) hstart
      obtain ⟨t, r, hskip⟩ := skipCharSet_ascii hex (s := s) fun b hb => hs b (by simp [hb])
      obtain ⟨hpos, hat⟩ := hat.skipCharSet_some (by decide) hskip
      replace hat := hat.append
      rw [hpos, ok_bind, hat.isChar_zero, ok_bind, show (c :: d :: s).drop 2 = s from rfl, hskip]
      cases r with
      | nil => rfl
      | cons b r =>
          have hr : ∀ c ∈ r, c < 128 := fun c hc => hs c (List.mem_of_mem_drop (hat.next.drop ▸ hc))
          have hend : (2 + t.length + 1 != (c :: d :: s).length) = (r != []) := by
            rw [Bool.eq_iff_iff, bne_iff_ne, bne_iff_ne, ne_eq, hat.next.eq_length]
          rw [hat.next.checkCharSet (by decide) hr, hend]
          show (if (!(b == ch '.')) = true then _ else both (.ok _) (.ok _)) = _
          rw [both_ok]
          cases hb : b == ch '.' with
          | false => simp [Undervest.charAt, hb]; rfl
          | true => simp [Undervest.charAt, hb]

theorem validHost_eq {s : Str} (hs : ∀ c ∈ s, c < 128) :
    validHost s = .ok (URI.validHost s) := by
  have either_ok : ∀ a b, either (.ok a) (.ok b) = .ok (a || b) := by
    intro a b
    cases a <;> rfl
  rw [validHost, validIpv4_eq hs, validIpv6_eq hs, validFuture_eq hs, validRegisteredName,
    checkCharSet, (At.start s).checkCharSet (by decide) hs]
  simp only [pure, Except.pure, either_ok]
  simp only [URI.validHost, Bool.or_assoc]
  rfl

/-! ## Parsing -/

/-- A text in which an escape is tested on a byte above 127. -/
def HasBadEscape (s : Str) : Prop := ∃ r, r <:+ s ∧ BadEscape r

theorem isEscaped_eq_true_iff {c d l : Byte} {q : Str} :
    Undervest.isEscaped (c :: d :: l :: q) = some true ↔
      c = ch '%' ∧ hex d = true ∧ hex l = true := by
  have hascii : ∀ c, hex c = true → Undervest.isInSet hex c = some true :=
    forall_byte (by decide +kernel)
  constructor
  · intro he
    obtain rfl := percent_of_isEscaped he
    obtain ⟨hd, hl⟩ := isEscaped_eq_true he
    exact ⟨rfl, (isInSet_eq_some.mp hd).2, (isInSet_eq_some.mp hl).2⟩
  · rintro ⟨rfl, hd, hl⟩
    rw [isEscaped_cons, hascii d hd]
    exact hascii l hl

theorem unescape_cons {c : Byte} {q : Str} (h : Undervest.isEscaped (c :: q) = some false) :
    URI.unescape (c :: q) = c :: URI.unescape q := by
  rcases q with _ | ⟨d, _ | ⟨l, q⟩⟩
  · rfl
  · rfl
  · rw [URI.unescape, if_neg]
    intro he
    rw [isEscaped_eq_true_iff.mpr he] at h
    cases h

theorem hasBadEscape_cons {c : Byte} {q : Str} :
    HasBadEscape (c :: q) ↔ BadEscape (c :: q) ∨ HasBadEscape q := by
  constructor
  · rintro ⟨r, hr, hbad⟩
    cases List.suffix_cons_iff.mp hr with
    | inl he => exact Or.inl (he ▸ hbad)
    | inr hs => exact Or.inr ⟨r, hs, hbad⟩
  · rintro (hbad | ⟨r, hr, hbad⟩)
    · exact ⟨_, List.suffix_refl _, hbad⟩
    · exact ⟨r, hr.trans (List.suffix_cons ..), hbad⟩

/-- No bad escape starts at a character other than the `%`. -/
theorem hasBadEscape_of_ne {c : Byte} (hc : c ≠ ch '%') {q : Str} :
    HasBadEscape (c :: q) ↔ HasBadEscape q := by
  rw [hasBadEscape_cons, or_iff_right]
  intro hbad
  cases hbad <;> exact hc rfl

/-- What the loop of `unescape` does at a position. -/
theorem At.unescapeLoop (h : At s p q) {turns : Nat} (ht : q.length < turns) :
    (HasBadEscape q → Positions.unescapeLoop s turns p = .error .raised) ∧
      (¬ HasBadEscape q → Positions.unescapeLoop s turns p = .ok (URI.unescape q)) := by
  induction turns generalizing p q with
  | zero => omega
  | succ turns ih =>
      rw [Positions.unescapeLoop]
      cases q with
      | nil =>
          rw [if_pos (h.eq_length.mpr rfl)]
          refine ⟨?_, fun _ => rfl⟩
          rintro ⟨r, hr, hbad⟩
          obtain rfl := List.suffix_nil.mp hr
          cases hbad
      | cons c q =>
          rw [List.length_cons] at ht
          rw [if_neg (mt h.eq_length.mp (List.cons_ne_nil c q)), h.isEscaped, hasBadEscape_cons,
            ← isEscaped_eq_none]
          cases he : Undervest.isEscaped (c :: q) with
          | none => exact ⟨fun _ => rfl, fun hn => absurd (Or.inl rfl) hn⟩
          | some b =>
              cases b with
              | false =>
                  obtain ⟨hbad, hgood⟩ := ih h.next (by omega)
                  rw [unescape_cons he, h.charAt_zero]
                  simp only [reduceCtorEq, false_or]
                  exact ⟨fun hb => by simp [hbad hb], fun hn => by simp [hgood hn]⟩
              | true =>
                  obtain rfl := percent_of_isEscaped he
                  obtain ⟨d, l, q, rfl⟩ := exists_of_isEscaped he
                  obtain ⟨-, hd, hl⟩ := isEscaped_eq_true_iff.mp he
                  have hne : ∀ c, hex c = true → c ≠ ch '%' := forall_byte (by decide +kernel)
                  have hunescape : URI.unescape (ch '%' :: d :: l :: q) =
                      ((hexdigit d <<< 4) ||| hexdigit l) :: URI.unescape q := by
                    rw [URI.unescape, if_pos ⟨rfl, hd, hl⟩]
                  obtain ⟨hbad, hgood⟩ := ih (At.append (t := [ch '%', d, l]) h) (by
                    simp only [List.length_cons] at ht
                    omega)
                  change (HasBadEscape q → Positions.unescapeLoop s turns (p + 3) = _) at hbad
                  change (_ → Positions.unescapeLoop s turns (p + 3) = _) at hgood
                  rw [hasBadEscape_of_ne (hne d hd), hasBadEscape_of_ne (hne l hl), hunescape,
                    h.next.charAt_zero, h.next.next.charAt_zero]
                  simp only [reduceCtorEq, false_or]
                  exact ⟨fun hb => by simp [hbad hb], fun hn => by simp [hgood hn]⟩

theorem unescape_raised (h : HasBadEscape s) : unescape s = .error .raised :=
  ((At.start s).unescapeLoop (Nat.lt_succ_self _)).1 h

theorem unescape_ok (h : ¬ HasBadEscape s) : unescape s = .ok (URI.unescape s) :=
  ((At.start s).unescapeLoop (Nat.lt_succ_self _)).2 h

theorem not_hasBadEscape (hs : ∀ c ∈ s, c < 128) : ¬ HasBadEscape s := by
  rintro ⟨r, hr, hbad⟩
  have hmem : ∃ c ∈ r, 128 ≤ c := by
    cases hbad with
    | first hc => exact ⟨_, by simp, hc⟩
    | second _ hc => exact ⟨_, by simp, hc⟩
  obtain ⟨c, hc, hle⟩ := hmem
  exact absurd (hs c (hr.mem hc)) (UInt8.not_lt.mpr hle)

theorem splitUserinfo_eq {info : Str} (h : ∀ c ∈ info, c < 128) :
    splitUserinfo info = .ok (URI.splitUserinfo info) := by
  rw [splitUserinfo, URI.splitUserinfo]
  cases find (ch ':') info with
  | none => rfl
  | some i =>
      have htake := not_hasBadEscape fun c hc => h c (List.mem_of_mem_take (i := i) hc)
      have hdrop := not_hasBadEscape fun c hc => h c (List.mem_of_mem_drop (i := i + 1) hc)
      simp only [unescape_ok htake, unescape_ok hdrop]
      rfl

/-- A position stands for the rest that starts there. -/
def AtRest (s : Str) {α : Type} (a : α × Nat) (b : α × Str) : Prop := a.1 = b.1 ∧ At s a.2 b.2

/-- The position `p'` is the one behind the text that a scan skips from `p` on. -/
structure Skipped (s : Str) (cs : CharSet) (p p' : Nat) (r : Str × Str) : Prop where
  position : p' = p + r.1.length
  start : At s p (r.1 ++ r.2)
  chars : Chars cs r.1
  head : Undervest.charAt (r.1 ++ r.2) 0 < 128

theorem Skipped.rest {cs : CharSet} {p' : Nat} {r : Str × Str} (h : Skipped s cs p p' r) :
    At s p' r.2 := h.position ▸ h.start.append

theorem Skipped.assign {cs : CharSet} {p' : Nat} {r : Str × Str} (h : Skipped s cs p p' r) :
    assign s p p' = .ok r.1 := h.position ▸ h.start.assign

/-- A scan follows the scan of the rest. -/
theorem At.follows_skipCharSet {cs : CharSet} (hcs : cs 0 = false) (h : At s p q) :
    Follows .raised (Skipped s cs p) (skipCharSet s cs p) (Undervest.skipCharSet cs q) := by
  cases hskip : Undervest.skipCharSet cs q with
  | none =>
      rw [h.skipCharSet_eq hcs, hskip]
      rfl
  | some r =>
      obtain ⟨hpos, hat⟩ := h.skipCharSet_some hcs (t := r.1) (r := r.2) hskip
      obtain ⟨rfl, hchars, -⟩ := skipCharSet_eq_some (t := r.1) (q := r.2) hskip
      refine ⟨_, hpos, rfl, hat, hchars, ?_⟩
      by_contra hhead
      cases hq : r.1 ++ r.2 with
      | nil =>
          rw [hq] at hhead
          exact hhead (by decide)
      | cons c q =>
          rw [hq] at hhead hskip
          have hnone : Undervest.isInSet cs c = none := isInSet_eq_none.mpr (UInt8.not_lt.mp hhead)
          rw [skipCharSet_none hnone] at hskip
          cases hskip

theorem At.follows_isInSet (h : At s p q) (cs : CharSet) :
    Follows .raised Eq (Positions.isInSet s cs p)
      (Undervest.isInSet cs (Undervest.charAt q 0)) :=
  follows_eq.mpr (h.isInSet_zero cs)

/-- The loop over the digits of a port, with the character `b` at `q'`. -/
theorem At.portLoop (h : At s p q) {q' : Nat} {b : Byte} (hb : Positions.charAt s q' = .ok b)
    {turns : Nat} (ht : q.length < turns) (prt : Nat) :
    Follows .raised (AtRest s) (Positions.portLoop s q' turns prt p) (URI.portLoop b prt q) := by
  induction turns generalizing p q prt with
  | zero => omega
  | succ turns ih =>
      rw [Positions.portLoop]
      cases q with
      | nil =>
          rw [h.isInSet_zero,
            show Undervest.isInSet isdigit (Undervest.charAt [] 0) = some false by decide]
          exact .ok ⟨rfl, h⟩
      | cons c q =>
          rw [List.length_cons] at ht
          rw [URI.portLoop]
          refine (h.follows_isInSet isdigit).bind fun a b' hab => ?_
          obtain rfl := hab
          cases a with
          | false => exact .ok ⟨rfl, h⟩
          | true =>
              rw [if_pos rfl, if_pos rfl, hb]
              by_cases hsmall : prt ≤ 0xFFFF
              · simp only [if_pos hsmall, ok_bind, pure_bind]
                exact ih h.next (by omega) _
              · simp only [if_neg hsmall, pure_bind]
                exact ih h.next (by omega) _

/-- A port follows, or the parser gives up on both sides. -/
theorem At.parsePort (h : At s p q) :
    Follows .raised (Option.Rel (AtRest s)) (Positions.parsePort s p) (URI.parsePort q) := by
  rw [Positions.parsePort, h.isChar_zero, ok_bind, URI.parsePort]
  refine Follows.ite beq_iff_eq (fun hc => ?_) fun _ => .ok (.some ⟨rfl, h⟩)
  obtain ⟨q, rfl⟩ := (URI.charAt_eq (by decide)).mp hc
  have hlen := h.length
  rw [List.length_cons] at hlen
  refine (h.next.portLoop h.charAt_zero (by omega) 0).map fun a b hab => .ok ?_
  rw [hab.1]
  split
  next => exact .some hab
  next => exact .none

/-- The position behind the authority stands for the rest, when there is one.  No
path is read yet. -/
structure AtPath (s : Str) (a : URI × Option Nat) (b : URI × Option Str) : Prop where
  uri : a.1 = b.1
  position : Option.Rel (At s) a.2 b.2
  path : b.1.path = .clear

theorem At.parseBehindHost (h : At s p q) {scheme userinfo host : Str}
    (hinfo : ∀ c ∈ userinfo, c < 128) (hhost : ∀ c ∈ host, c < 128) :
    Follows .raised (AtPath s) (Positions.parseBehindHost s scheme userinfo host p)
      (if URI.validHost host = false then some (URI.clear, none)
      else
        (URI.parsePort q).map fun port =>
          match port with
          | none => (URI.clear, none)
          | some (port, p) =>
              let (user, password) := URI.splitUserinfo userinfo
              ({ URI.clear with scheme, userinfo, user, password, host, port }, some p)) := by
  rw [Positions.parseBehindHost, validHost_eq hhost, ok_bind]
  refine Follows.ite (by simp) (fun _ => .ok ⟨rfl, .none, rfl⟩) fun _ => ?_
  refine h.parsePort.map fun a b hab => ?_
  cases hab with
  | none => exact .ok ⟨rfl, .none, rfl⟩
  | @some a b hab =>
      obtain ⟨port, p'⟩ := a
      obtain ⟨port', q'⟩ := b
      obtain rfl : port = port' := hab.1
      simp only [splitUserinfo_eq hinfo, ok_bind]
      exact .ok ⟨rfl, .some hab.2, rfl⟩

/-- Host and port.  A bracket stands behind the end of the user information. -/
theorem At.parseHost (h : At s p q) {q' : Nat}
    (hbracket : Undervest.charAt q 0 = ch '[' → q' < p + 1) {userinfo : Str}
    (hinfo : ∀ c ∈ userinfo, c < 128) (scheme : Str) :
    Follows .raised (AtPath s) (Positions.parseHost s scheme userinfo p q')
      (URI.parseHost scheme userinfo q) := by
  rw [Positions.parseHost, h.isChar_zero, ok_bind, URI.parseHost]
  refine Follows.ite beq_iff_eq (fun hb => ?_) fun _ => ?_
  · have hdrop : s.drop (p + 1) = q.drop 1 := by
      rw [← List.drop_drop, h.drop]
    have hfind : ch ']' ∈ q.drop 1 ↔ find (ch ']') (q.drop 1) ≠ none := by
      simp [find, List.findIdx?_eq_none_iff]
    rw [hdrop]
    by_cases hmem : ch ']' ∈ q.drop 1
    · obtain ⟨i, hi⟩ := Option.ne_none_iff_exists'.mp (hfind.mp hmem)
      rw [hi, if_pos hmem]
      -- the range ends before it starts
      simp only [Positions.assign, if_neg (Nat.not_le.mpr (hbracket hb)), error_bind]
      rfl
    · rw [not_not.mp (mt hfind.mpr hmem), if_neg hmem]
      exact .ok ⟨rfl, .none, rfl⟩
  · refine (h.follows_skipCharSet (by decide)).bind fun p' host hskip => ?_
    rw [hskip.assign, ok_bind]
    exact hskip.rest.parseBehindHost hinfo hskip.chars.ascii

theorem At.parseAuthority (h : At s p (str "//" ++ q)) (scheme : Str) :
    Follows .raised (AtPath s) (Positions.parseAuthority s scheme p)
      (URI.parseAuthority scheme (str "//" ++ q)) := by
  have hbehind : At s (p + 2) q := h.append
  rw [Positions.parseAuthority, URI.parseAuthority]
  refine (hbehind.follows_skipCharSet (by decide)).bind fun p' info hskip => ?_
  rw [hskip.rest.isChar_zero, ok_bind]
  refine Follows.ite beq_iff_eq (fun hat => ?_) fun _ => ?_
  · obtain ⟨r, hr⟩ := (URI.charAt_eq (by decide)).mp hat
    have hrest := hskip.rest
    rw [hr] at hrest
    rw [hskip.assign, ok_bind, hr]
    exact hrest.next.parseHost (fun _ => by omega) hskip.chars.ascii scheme
  · have hslash : Undervest.charAt (str "//" ++ q) 0 = ch '/' := rfl
    exact h.parseHost (fun hb => absurd (hslash.symm.trans hb) (by decide)) (by simp) scheme

theorem At.parsePart (h : At s p q) {mark : Byte} (hmark : mark ≠ 0) :
    Follows .raised (AtRest s) (Positions.parsePart s mark p) (URI.parsePart mark q) := by
  rw [Positions.parsePart, h.isChar_zero, ok_bind, URI.parsePart]
  refine Follows.ite beq_iff_eq (fun hc => ?_) fun _ => .ok ⟨rfl, h⟩
  obtain ⟨q, rfl⟩ := (URI.charAt_eq hmark).mp hc
  refine (h.next.follows_skipCharSet (by decide)).result fun p' r hskip => ?_
  rw [hskip.assign, ok_bind]
  exact .ok ⟨rfl, hskip.rest⟩

theorem At.parsePath (h : At s p q) {u : URI} (hu : u.path = .clear) :
    Follows .raised Eq (Positions.parsePath s u p) (URI.parsePath u q) := by
  rw [Positions.parsePath, URI.parsePath]
  refine (h.follows_skipCharSet (by decide)).bind fun p' path hskip => ?_
  have hempty : p' ≠ p ↔ path.1 ≠ [] := by
    rw [hskip.position, ne_eq, ne_eq, ← List.length_eq_zero_iff, Nat.add_eq_left]
  have hbehind : ∀ f, f = FilePath.assign path.1 → Follows .raised Eq (do
      let (query, p) ← Positions.parsePart s (ch '?') p'
      let (fragment, p) ← Positions.parsePart s (ch '#') p
      return ({ u with path := f, query, fragment }, p == s.length))
      ((URI.parsePart (ch '?') path.2).bind fun query =>
        (URI.parsePart (ch '#') query.2).map fun fragment =>
          ({ u with path := .assign path.1, query := query.1, fragment := fragment.1 },
            fragment.2 == [])) := by
    rintro f rfl
    refine (hskip.rest.parsePart (by decide)).bind fun query query' hquery => ?_
    refine (hquery.2.parsePart (by decide)).map fun fragment fragment' hfragment => .ok ?_
    have hend : (fragment.2 == s.length) = (fragment'.2 == []) := by
      rw [Bool.eq_iff_iff, beq_iff_eq, beq_iff_eq, hfragment.2.eq_length]
    simp only [hquery.1, hfragment.1, hend]
  by_cases hp : p' ≠ p
  · rw [if_pos hp, hskip.assign, ok_bind]
    exact hbehind _ rfl
  · rw [if_neg hp, hu]
    exact hbehind .clear (by rw [not_not.mp (mt hempty.mpr hp)]; rfl)

theorem At.slashes (h : At s p q) :
    both (Positions.isChar s p (ch '/')) (Positions.isChar s (p + 1) (ch '/')) =
      .ok (Undervest.charAt q 0 == ch '/' && Undervest.charAt q 1 == ch '/') := by
  rw [h.isChar_zero]
  cases q with
  | nil => rfl
  | cons c q => rw [h.isChar (by simp), both_ok]

/-- **The parser does on positions what it does on rests.** -/
theorem parse_eq (s : Str) : parse s = ofOption .raised (URI.parse s) := by
  rw [← follows_eq, parse, URI.parse]
  refine ((At.start s).follows_skipCharSet (by decide)).bind fun p' scheme hskip => ?_
  have hs : s = scheme.1 ++ scheme.2 := hskip.start.drop
  have htest : both (isInSet s isalpha 0) (isChar s p' (ch ':')) =
      .ok (isalpha (Undervest.charAt s 0) && Undervest.charAt scheme.2 0 == ch ':') := by
    rw [(At.start s).isInSet_zero, isInSet_ascii isalpha (hs ▸ hskip.head), hskip.rest.isChar_zero]
    exact both_ok ..
  rw [htest, ok_bind]
  refine Follows.ite (by simp) (fun hc => ?_) fun _ => (At.start s).parsePath rfl
  obtain ⟨q, hq⟩ := (URI.charAt_eq (by decide)).mp hc.2
  have hrest : At s (p' + 1) q := At.next (hq ▸ hskip.rest)
  rw [hskip.assign, ok_bind, hq]
  simp only [hrest.slashes, ok_bind, List.drop_succ_cons, List.drop_zero]
  refine Follows.ite (by simp) (fun hslash => ?_) fun _ => hrest.parsePath rfl
  obtain ⟨q, rfl⟩ := (URI.charAt_eq (by decide)).mp hslash.1
  obtain ⟨q, rfl⟩ := (URI.charAt_eq (by decide)).mp
    (show Undervest.charAt q 0 = ch '/' from hslash.2)
  refine (At.parseAuthority (q := q) hrest scheme.1).bind fun a b hab => ?_
  obtain ⟨u, p⟩ := a
  obtain ⟨u', q'⟩ := b
  obtain ⟨rfl, hposition, hpath⟩ := hab
  cases hposition with
  | none => exact .ok rfl
  | some hat => exact hat.parsePath hpath

end Positions

end Undervest
