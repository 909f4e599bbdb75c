import Undervest.FilePath

/-!
# URIs

A URI is read from left to right.  An iterator is the rest of the text from it,
and a position at the end reads a NUL, which is in no set.  `skipCharSet` also
returns the text it skips.  A byte above 127 is a negative `char`, for which the
test of a set throws.  `none` stands for an exception, after which there is no
URI.

The user information and the host are read only when an `@` follows the former.
Without it the position stays before the two slashes, and they start the path.
A bracketed host is assigned from a range whose end comes first, which throws.

`Chars` is the grammar of a text that `skipCharSet` skips to its end, and
`Stops` says that it skips nothing.  Every scan is one of the two after the
other (`skipCharSet_append`).
-/

namespace Undervest

/-! ## Character sets -/

abbrev CharSet := Byte → Bool

def makeCharSet (s : String) : CharSet := fun c => (str s).contains c

def hex : CharSet := fun c => isdigit c || makeCharSet "ABCDEFabcdef" c
def unreserved : CharSet := fun c => isalpha c || isdigit c || makeCharSet "-._~" c
def subDelims : CharSet := makeCharSet "!$&'()*+,;="
def pchar : CharSet := fun c => unreserved c || subDelims c || makeCharSet "%:@" c
def pcharSlash : CharSet := fun c => pchar c || makeCharSet "/" c
def queryChar : CharSet := fun c => pchar c || makeCharSet "/?" c
def schemeChar : CharSet := fun c => isalpha c || isdigit c || makeCharSet "+-." c
def userinfoChar : CharSet := fun c => unreserved c || subDelims c || makeCharSet "%:" c
def regnameChar : CharSet := fun c => unreserved c || subDelims c || makeCharSet "%" c
def futureChar : CharSet := fun c => unreserved c || subDelims c || makeCharSet ":" c

/-- The character `i` behind an iterator. -/
def charAt (p : Str) (i : Nat) : Byte := p.getD i 0

/-- `is_in_set`. -/
def isInSet (cs : CharSet) (c : Byte) : Option Bool := if c < 128 then some (cs c) else none

/-- `is_escaped`. -/
def isEscaped (p : Str) : Option Bool :=
  if charAt p 0 = ch '%' then
    (isInSet hex (charAt p 1)).bind fun b =>
      if b then isInSet hex (charAt p 2) else some false
  else some false

/-- `skip_charSet`: the text that is skipped, and the rest. -/
def skipCharSet (cs : CharSet) : Str → Option (Str × Str)
  | [] => some ([], [])
  | c :: p =>
      match isInSet cs c with
      | none => none
      | some false => some ([], c :: p)
      | some true =>
          if c ≠ ch '%' then (skipCharSet cs p).map fun r => (c :: r.1, r.2)
          else
            match p with
            | h :: l :: p' =>
                match isEscaped (c :: h :: l :: p') with
                | none => none
                | some true => (skipCharSet cs p').map fun r => (c :: h :: l :: r.1, r.2)
                | some false => some ([], c :: h :: l :: p')
            | p => (isEscaped (c :: p)).map fun _ => ([], c :: p)

/-- `check_charSet`, of a text that has 7-bit characters only. -/
def checkCharSet (cs : CharSet) (s : Str) : Bool := skipCharSet cs s == some (s, [])

def hexdigit (c : Byte) : Byte :=
  if isdigit c then c - ch '0' else if isupper c then c - ch 'A' + 10 else c - ch 'a' + 10

/-! ## Hosts

These functions are called with a host, which has 7-bit characters only. -/

/-- The loop of `valid_ipv4`. -/
def ipv4Loop : Nat → Nat → Bool → Str → Bool
  | _, n, first, [] => !first && n + 1 == 4
  | v, n, first, c :: p =>
      if isdigit c then
        let v := v * 10 + (c - ch '0').toNat
        if v ≥ 256 || (first && v == 0) then false else ipv4Loop v n false p
      else if c = ch '.' then
        if first || n + 1 ≥ 4 then false else ipv4Loop 0 (n + 1) true p
      else false

def validIpv4 (s : Str) : Bool := ipv4Loop 0 0 true s

/-- What `valid_ipv6` tests behind its loop. -/
def ipv6End (skip : Bool) (n : Nat) (inGroup : Bool) : Bool :=
  if n + 1 > 8 then false else if !skip && n + 1 != 8 then false else inGroup

/-- The loop of `valid_ipv6`.  A group starts at `q`, and `tail` follows the text
that is looped over. -/
def ipv6Loop (tail : Str) : Bool → Nat → Nat → Str → Str → Bool
  | skip, n, _, q, [] => ipv6End skip n (q.length != 0)
  | skip, n, v, q, c :: p =>
      let inGroup := decide (q.length > p.length + 1)
      if hex c then
        if v &&& 0xF000 ≠ 0 then false
        else ipv6Loop tail skip n ((v <<< 4) ||| (hexdigit c).toNat) q p
      else if c = ch ':' then
        if inGroup then if n + 1 ≥ 8 then false else ipv6Loop tail skip (n + 1) 0 p p
        else if skip then false
        else ipv6Loop tail true n 0 p p
      else if c ≠ ch '.' then false
      else if validIpv4 (q ++ tail) = false then false
      else ipv6End skip (n + 1) inGroup

def validIpv6 (s : Str) : Bool :=
  let skip := charAt s 0 == ch ':' && charAt s 1 == ch ':'
  let p := if skip then s.drop 2 else s
  if (str "::").isSuffixOf p then
    if skip then false
    else
      let p := p.take (p.length - 2)
      ipv6Loop (str "::") true 1 0 p p
  else ipv6Loop [] skip (if skip then 1 else 0) 0 p p

def validFuture (s : Str) : Bool :=
  charAt s 0 == ch 'v' && hex (charAt s 1) &&
    match skipCharSet hex (s.drop 2) with
    | none => false
    | some (_, p) => charAt p 0 == ch '.' && (p.drop 1 != [] && checkCharSet futureChar (p.drop 1))

def validRegisteredName (s : Str) : Bool := checkCharSet regnameChar s

/-! ## Parsing -/

structure URI where
  scheme : Str
  userinfo : Str
  user : Str
  password : Str
  host : Str
  port : Nat
  path : FilePath
  query : Str
  fragment : Str
deriving DecidableEq, Repr

namespace URI

/-- `URI::clear`. -/
def clear : URI where
  scheme := []
  userinfo := []
  user := []
  password := []
  host := []
  port := 0
  path := .clear
  query := []
  fragment := []

/-- `URI::unescape`, of a text that has 7-bit characters only. -/
def unescape : Str → Str
  | c :: h :: l :: p =>
      if c = ch '%' ∧ hex h = true ∧ hex l = true then
        ((hexdigit h <<< 4) ||| hexdigit l) :: unescape p
      else c :: unescape (h :: l :: p)
  | p => p

def validUserinfo (info : Str) : Bool := checkCharSet userinfoChar info

def validHost (hst : Str) : Bool :=
  hst.length == 0 || validIpv4 hst || validIpv6 hst || validFuture hst || validRegisteredName hst

/-- The user and the password of a user information that has a colon. -/
def splitUserinfo (info : Str) : Str × Str :=
  match find (ch ':') info with
  | none => ([], [])
  | some i => (unescape (info.take i), unescape (info.drop (i + 1)))

/-- The loop over the digits of the port.  Each turn adds the character at `q`,
which is the colon. -/
def portLoop (q : Byte) : Nat → Str → Option (Nat × Str)
  | prt, [] => some (prt, [])
  | prt, c :: p =>
      (isInSet isdigit c).bind fun b =>
        if b then
          portLoop q (if prt ≤ 0xFFFF then prt * 10 + (q - ch '0').toNat else prt) p
        else some (prt, c :: p)

/-- The port, `none` when it is too large, and the rest. -/
def parsePort (p : Str) : Option (Option (Nat × Str)) :=
  if charAt p 0 = ch ':' then
    (portLoop (charAt p 0) 0 (p.drop 1)).map fun r =>
      if r.1 ≤ 0xFFFF then some r else none
  else some (some (0, p))

/-- Host and port.  The second component is the rest, `none` when the parser
gives up. -/
def parseHost (scheme userinfo p : Str) : Option (URI × Option Str) :=
  if charAt p 0 = ch '[' then
    -- the end of the range of the host comes before its start
    if ch ']' ∈ p.drop 1 then none else some (clear, none)
  else
    (skipCharSet regnameChar p).bind fun host =>
      if validHost host.1 = false then some (clear, none)
      else
        (parsePort host.2).map fun port =>
          match port with
          | none => (clear, none)
          | some (port, p) =>
              let (user, password) := splitUserinfo userinfo
              ({ clear with scheme, userinfo, user, password, host := host.1, port }, some p)

/-- User information, host and port, from the two slashes on. -/
def parseAuthority (scheme p : Str) : Option (URI × Option Str) :=
  (skipCharSet userinfoChar (p.drop 2)).bind fun info =>
    if charAt info.2 0 = ch '@' then parseHost scheme info.1 (info.2.drop 1)
    -- without an `@` the position stays where it is
    else parseHost scheme [] p

/-- A part of the URI behind a mark, empty without the mark. -/
def parsePart (mark : Byte) (p : Str) : Option (Str × Str) :=
  if charAt p 0 = mark then skipCharSet queryChar (p.drop 1) else some ([], p)

/-- Path, query and fragment.  An empty path is what `clear` left. -/
def parsePath (u : URI) (p : Str) : Option (URI × Bool) :=
  (skipCharSet pcharSlash p).bind fun path =>
    (parsePart (ch '?') path.2).bind fun query =>
      (parsePart (ch '#') query.2).map fun fragment =>
        ({ u with path := .assign path.1, query := query.1, fragment := fragment.1 },
          fragment.2 == [])

/-- What follows the authority. -/
def parseBehind : URI × Option Str → Option (URI × Bool)
  | (u, none) => some (u, false)
  | (u, some p) => parsePath u p

/-- `URI::parse`: the URI and the result. -/
def parse (uri : Str) : Option (URI × Bool) :=
  (skipCharSet schemeChar uri).bind fun scheme =>
    if isalpha (charAt uri 0) = true ∧ charAt scheme.2 0 = ch ':' then
      let p := scheme.2.drop 1
      if charAt p 0 = ch '/' ∧ charAt p 1 = ch '/' then
        (parseAuthority scheme.1 p).bind parseBehind
      else parsePath { clear with scheme := scheme.1 } p
    else parsePath clear uri

/-! ## Printing -/

/-- `std::to_string` of a port. -/
def portText (port : Nat) : Str := str (toString port)

/-- `URI::operator std::string`. -/
def toStr (u : URI) : Str :=
  (if u.scheme ≠ [] then u.scheme ++ [ch ':'] else []) ++
  (if u.userinfo ≠ [] ∨ u.host ≠ [] ∨ u.port ≠ 0 ∨ u.path.relative = false then
    str "//" ++
    (if u.userinfo ≠ [] then u.userinfo ++ str "@" else []) ++
    (if u.host ≠ [] then
      if validIpv6 u.host || validFuture u.host then str "[" ++ u.host ++ str "]" else u.host
    else []) ++
    (if u.port ≠ 0 then str ":" ++ portText u.port else [])
  else []) ++
  (if u.path.components ≠ [] ∨ u.path.relative = false then u.path.get else []) ++
  (if u.query ≠ [] then str "?" ++ u.query else []) ++
  (if u.fragment ≠ [] then str "#" ++ u.fragment else [])

/-- `URI::userinfo`, which sets the user information. -/
def setUserinfo (u : URI) (info : Str) : URI × Bool :=
  if validUserinfo info = false then (u, false)
  else
    let (user, password) := splitUserinfo info
    ({ u with userinfo := info, user, password }, true)

end URI

/-! ## Scanning -/

/-- The texts of characters of a set, in which each `%` starts an escape. -/
inductive Chars (cs : CharSet) : Str → Prop where
  | nil : Chars cs []
  | char {c : Byte} {s : Str} : isInSet cs c = some true → c ≠ ch '%' → Chars cs s →
      Chars cs (c :: s)
  | escape {h l : Byte} {s : Str} : isInSet cs (ch '%') = some true → isInSet hex h = some true →
      isInSet hex l = some true → Chars cs s → Chars cs (ch '%' :: h :: l :: s)

/-- Nothing is skipped. -/
def Stops (cs : CharSet) (q : Str) : Prop := skipCharSet cs q = some ([], q)

theorem isInSet_eq_some {cs : CharSet} {c : Byte} {b : Bool} :
    isInSet cs c = some b ↔ c < 128 ∧ cs c = b := by
  unfold isInSet
  split
  next h => simp [h]
  next h => simp [h]

theorem skipCharSet_char {cs : CharSet} {c : Byte} (h : isInSet cs c = some true)
    (hc : c ≠ ch '%') (p : Str) :
    skipCharSet cs (c :: p) = (skipCharSet cs p).map fun r => (c :: r.1, r.2) := by
  rw [skipCharSet.eq_def]
  simp only [h]
  rw [if_pos hc]

theorem stops_of_not_mem {cs : CharSet} {c : Byte} (h : isInSet cs c = some false) (p : Str) :
    Stops cs (c :: p) := by
  rw [Stops, skipCharSet.eq_def]
  simp only [h]

/-- A `%` is skipped with the two digits behind it, or not at all. -/
theorem skipCharSet_percent {cs : CharSet} (h : isInSet cs (ch '%') = some true) (p : Str) :
    skipCharSet cs (ch '%' :: p) =
      (isEscaped (ch '%' :: p)).bind fun e =>
        if e then (skipCharSet cs (p.drop 2)).map fun r => (ch '%' :: (p.take 2 ++ r.1), r.2)
        else some ([], ch '%' :: p) := by
  have hnul : isInSet hex 0 = some false := by decide
  rw [skipCharSet.eq_def]
  simp only [h, ne_eq, not_true_eq_false, if_false]
  cases p with
  | nil => rfl
  | cons a p =>
      cases p with
      | nil =>
          simp only [isEscaped, charAt, List.getD_cons_zero, List.getD_cons_succ, if_true,
            List.getD_nil, hnul]
          cases isInSet hex a with
          | none => rfl
          | some b => cases b <;> rfl
      | cons b p =>
          simp only
          cases isEscaped (ch '%' :: a :: b :: p) with
          | none => rfl
          | some e => cases e <;> rfl

theorem isEscaped_percent (p : Str) : isEscaped (ch '%' :: p) =
    (isInSet hex (charAt p 0)).bind fun b =>
      if b then isInSet hex (charAt p 1) else some false := rfl

/-- A scan goes over a text of its grammar. -/
theorem skipCharSet_append {cs : CharSet} {t : Str} (h : Chars cs t) (q : Str) :
    skipCharSet cs (t ++ q) = (skipCharSet cs q).map fun r => (t ++ r.1, r.2) := by
  induction h with
  | nil => cases hq : skipCharSet cs q <;> simp [hq]
  | char hc hne _ ih =>
      rw [List.cons_append, skipCharSet_char hc hne, ih, Option.map_map]
      rfl
  | @escape h l s hp hh hl _ ih =>
      have he : isEscaped (ch '%' :: h :: l :: (s ++ q)) = some true := by
        rw [isEscaped_percent, show charAt (h :: l :: (s ++ q)) 0 = h from rfl, hh]
        exact hl
      simp only [List.cons_append]
      rw [skipCharSet_percent hp, he, Option.bind_some, if_pos rfl, List.drop_succ_cons,
        List.drop_succ_cons, List.drop_zero, ih, Option.map_map]
      rfl

theorem isEscaped_eq_true {h l : Byte} {p : Str}
    (he : isEscaped (ch '%' :: h :: l :: p) = some true) :
    isInSet hex h = some true ∧ isInSet hex l = some true := by
  rw [isEscaped_percent] at he
  obtain ⟨b, hb, he⟩ := Option.bind_eq_some_iff.mp he
  cases b with
  | false => cases he
  | true => exact ⟨hb, he⟩

/-- A `%` near the end starts no escape, since a NUL is no digit. -/
theorem isEscaped_short {p : Str} {b : Bool} (hp : ∀ h l p', p = h :: l :: p' → False)
    (he : isEscaped (ch '%' :: p) = some b) : b = false := by
  have hnul : isInSet hex 0 = some false := by decide
  rw [isEscaped_percent] at he
  cases p with
  | nil =>
      rw [show charAt [] 0 = 0 from rfl, hnul] at he
      exact (Option.some.inj he).symm
  | cons a p =>
      cases p with
      | nil =>
          rw [show charAt [a] 1 = 0 from rfl, hnul] at he
          obtain ⟨d, -, hd⟩ := Option.bind_eq_some_iff.mp he
          cases d <;> exact (Option.some.inj hd).symm
      | cons d p => exact (hp _ _ _ rfl).elim

/-- The characters at which a scan stops. -/
theorem stops_cons {cs : CharSet} {c : Byte} {p : Str} :
    Stops cs (c :: p) ↔ isInSet cs c = some false ∨
      isInSet cs c = some true ∧ c = ch '%' ∧ isEscaped (ch '%' :: p) = some false := by
  constructor
  · intro h
    cases hc : isInSet cs c with
    | none =>
        rw [Stops, skipCharSet.eq_def] at h
        simp [hc] at h
    | some b =>
        cases b with
        | false => exact Or.inl rfl
        | true =>
            refine Or.inr ⟨rfl, ?_⟩
            by_cases hne : c = ch '%'
            · subst hne
              refine ⟨rfl, ?_⟩
              rw [Stops, skipCharSet_percent hc] at h
              obtain ⟨e, he, h⟩ := Option.bind_eq_some_iff.mp h
              cases e with
              | false => exact he
              | true => simp at h
            · rw [Stops, skipCharSet_char hc hne] at h
              simp at h
  · rintro (h | ⟨h, rfl, he⟩)
    · exact stops_of_not_mem h p
    · rw [Stops, skipCharSet_percent h, he]
      rfl

/-- What a scan goes over and where it stops. -/
theorem skipCharSet_eq_some {cs : CharSet} {s t q : Str} (h : skipCharSet cs s = some (t, q)) :
    s = t ++ q ∧ Chars cs t ∧ Stops cs q := by
  fun_induction skipCharSet cs s generalizing t q with
  | case1 =>
      cases h
      exact ⟨rfl, .nil, rfl⟩
  | case2 => cases h
  | case3 c p hc =>
      cases h
      exact ⟨rfl, .nil, stops_of_not_mem hc p⟩
  | case4 c p hc hne ih =>
      obtain ⟨r, hr, he⟩ := Option.map_eq_some_iff.mp h
      cases he
      obtain ⟨hs, ht, hq⟩ := ih hr
      exact ⟨by rw [List.cons_append, ← hs], .char hc hne ht, hq⟩
  | case5 => cases h
  | case6 c hc hp d l p he ih =>
      obtain rfl := not_not.mp hp
      obtain ⟨r, hr, he'⟩ := Option.map_eq_some_iff.mp h
      cases he'
      obtain ⟨hs, ht, hq⟩ := ih hr
      obtain ⟨hd, hl⟩ := isEscaped_eq_true he
      exact ⟨by simp only [List.cons_append, ← hs], .escape hc hd hl ht, hq⟩
  | case7 c hc hp d l p he =>
      obtain rfl := not_not.mp hp
      cases h
      exact ⟨rfl, .nil, stops_cons.mpr (Or.inr ⟨hc, rfl, he⟩)⟩
  | case8 c hc hp p hshort =>
      obtain rfl := not_not.mp hp
      obtain ⟨e, he, heq⟩ := Option.map_eq_some_iff.mp h
      cases heq
      obtain rfl := isEscaped_short hshort he
      exact ⟨rfl, .nil, stops_cons.mpr (Or.inr ⟨hc, rfl, he⟩)⟩

theorem skipCharSet_of_stops {cs : CharSet} {t q : Str} (ht : Chars cs t) (hq : Stops cs q) :
    skipCharSet cs (t ++ q) = some (t, q) := by
  rw [skipCharSet_append ht, hq, Option.map_some, List.append_nil]

theorem isInSet_ascii (cs : CharSet) {c : Byte} (h : c < 128) : isInSet cs c = some (cs c) :=
  isInSet_eq_some.mpr ⟨h, rfl⟩

theorem charAt_ascii {s : Str} (h : ∀ c ∈ s, c < 128) (i : Nat) : charAt s i < 128 := by
  rw [charAt, List.getD_eq_getElem?_getD]
  cases hs : s[i]? with
  | none => decide
  | some c => exact h c (List.mem_of_getElem? hs)

theorem isEscaped_ascii {s : Str} (h : ∀ c ∈ s, c < 128) : isEscaped s ≠ none := by
  unfold isEscaped
  rw [isInSet_ascii hex (charAt_ascii h 1), isInSet_ascii hex (charAt_ascii h 2), Option.bind_some]
  split_ifs <;> simp

/-- A text of 7-bit characters is scanned. -/
theorem skipCharSet_ascii (cs : CharSet) {s : Str} (h : ∀ c ∈ s, c < 128) :
    ∃ t q, skipCharSet cs s = some (t, q) := by
  fun_induction skipCharSet cs s with
  | case1 => exact ⟨_, _, rfl⟩
  | case2 c p hc =>
      rw [isInSet_ascii cs (h c (List.mem_cons_self ..))] at hc
      cases hc
  | case3 => exact ⟨_, _, rfl⟩
  | case4 c p hc hne ih =>
      obtain ⟨t, q, hr⟩ := ih fun b hb => h b (List.mem_cons_of_mem _ hb)
      exact ⟨c :: t, q, by rw [hr]; rfl⟩
  | case5 c hc hp d l p he => exact absurd he (isEscaped_ascii h)
  | case6 c hc hp d l p he ih =>
      obtain ⟨t, q, hr⟩ := ih fun b hb =>
        h b (List.mem_cons_of_mem _ (List.mem_cons_of_mem _ (List.mem_cons_of_mem _ hb)))
      exact ⟨c :: d :: l :: t, q, by rw [hr]; rfl⟩
  | case7 => exact ⟨_, _, rfl⟩
  | case8 c hc hp p hshort =>
      obtain ⟨e, he⟩ := Option.ne_none_iff_exists'.mp (isEscaped_ascii h)
      exact ⟨[], c :: p, by rw [he]; rfl⟩

/-- What follows a text at which a scan stops does not matter, unless it starts
with a digit. -/
theorem Stops.append {cs : CharSet} {q : Str} (h : Stops cs q) (hq : q ≠ []) {d : Byte}
    (hd : isInSet hex d = some false) (r : Str) : Stops cs (q ++ d :: r) := by
  obtain ⟨c, p, rfl⟩ := List.exists_cons_of_ne_nil hq
  rw [List.cons_append, stops_cons]
  refine (stops_cons.mp h).imp_right ?_
  rintro ⟨hc, he, hesc⟩
  refine ⟨hc, he, ?_⟩
  rw [isEscaped_percent] at hesc ⊢
  cases p with
  | nil => rw [show charAt ([] ++ d :: r) 0 = d from rfl, hd]; rfl
  | cons a p =>
      cases p with
      | nil =>
          rw [show charAt ([a] ++ d :: r) 0 = a from rfl,
            show charAt ([a] ++ d :: r) 1 = d from rfl, hd]
          obtain ⟨b, hb, -⟩ := Option.bind_eq_some_iff.mp hesc
          rw [show charAt [a] 0 = a from rfl] at hb
          rw [hb]
          cases b <;> rfl
      | cons b p => exact hesc

theorem Chars.ascii {cs : CharSet} {s : Str} (h : Chars cs s) : ∀ c ∈ s, c < 128 := by
  induction h with
  | nil => simp
  | char hc _ _ ih => exact List.forall_mem_cons.mpr ⟨(isInSet_eq_some.mp hc).1, ih⟩
  | escape hp hh hl _ ih =>
      exact List.forall_mem_cons.mpr ⟨(isInSet_eq_some.mp hp).1, List.forall_mem_cons.mpr
        ⟨(isInSet_eq_some.mp hh).1, List.forall_mem_cons.mpr ⟨(isInSet_eq_some.mp hl).1, ih⟩⟩⟩

theorem Chars.mem {cs : CharSet} {s : Str} (h : Chars cs s) :
    ∀ c ∈ s, cs c = true ∨ hex c = true := by
  induction h with
  | nil => simp
  | char hc _ _ ih => exact List.forall_mem_cons.mpr ⟨Or.inl (isInSet_eq_some.mp hc).2, ih⟩
  | escape hp hh hl _ ih =>
      exact List.forall_mem_cons.mpr ⟨Or.inl (isInSet_eq_some.mp hp).2, List.forall_mem_cons.mpr
        ⟨Or.inr (isInSet_eq_some.mp hh).2, List.forall_mem_cons.mpr
          ⟨Or.inr (isInSet_eq_some.mp hl).2, ih⟩⟩⟩

theorem Chars.notMem {cs : CharSet} {s : Str} {c : Byte} (h : Chars cs s) (hc : cs c = false)
    (hh : hex c = false) : c ∉ s := by
  intro hm
  cases h.mem c hm with
  | inl e => rw [hc] at e; cases e
  | inr e => rw [hh] at e; cases e

theorem Chars.mono {cs cs' : CharSet} (hcs : ∀ c, cs c = true → cs' c = true) {s : Str}
    (h : Chars cs s) : Chars cs' s := by
  have hin : ∀ c, isInSet cs c = some true → isInSet cs' c = some true := by
    intro c hc
    rw [isInSet_eq_some] at hc ⊢
    exact hc.imp_right (hcs c)
  induction h with
  | nil => exact .nil
  | char hc hne _ ih => exact .char (hin _ hc) hne ih
  | escape hp hh hl _ ih => exact .escape (hin _ hp) hh hl ih

/-- A text that is skipped to its end. -/
theorem Chars.of_checkCharSet {cs : CharSet} {s : Str} (h : checkCharSet cs s = true) :
    Chars cs s :=
  (skipCharSet_eq_some (beq_iff_eq.mp h)).2.1

theorem Chars.checkCharSet {cs : CharSet} {s : Str} (h : Chars cs s) :
    Undervest.checkCharSet cs s = true := by
  have := skipCharSet_of_stops h (q := []) rfl
  rw [List.append_nil] at this
  exact beq_iff_eq.mpr this

theorem ascii_of_all {s : Str} (h : (s.all fun c => c < 128) = true) : ∀ c ∈ s, c < 128 := by
  intro c hc
  exact of_decide_eq_true (List.all_eq_true.mp h c hc)

theorem Chars.append {cs : CharSet} {s t : Str} (hs : Chars cs s) (ht : Chars cs t) :
    Chars cs (s ++ t) := by
  induction hs with
  | nil => exact ht
  | char hc hne _ ih => exact .char hc hne ih
  | escape hp hh hl _ ih => exact .escape hp hh hl ih

/-- No slash stands inside an escape, so a text falls apart at its slashes. -/
theorem Chars.split {cs : CharSet} {s : Str} (h : Chars cs s) :
    Chars cs (s.dropWhile (· == ch '/')) ∧ Chars cs (s.takeWhile (· != ch '/')) ∧
      Chars cs (s.dropWhile (· != ch '/')) := by
  have hhex : ∀ d, isInSet hex d = some true → (d != ch '/') = true := by
    intro d hd
    rw [bne_iff_ne]
    rintro rfl
    exact absurd hd (by decide)
  induction h with
  | nil => exact ⟨.nil, .nil, .nil⟩
  | @char c s hc hne hs ih =>
      obtain ⟨h₁, h₂, h₃⟩ := ih
      by_cases hslash : c = ch '/'
      · simp only [hslash, List.dropWhile_cons, List.takeWhile_cons, BEq.rfl, if_true,
          bne_self_eq_false, Bool.false_eq_true, if_false]
        exact ⟨h₁, .nil, hslash ▸ .char hc hne hs⟩
      · simp only [List.dropWhile_cons, List.takeWhile_cons, beq_iff_eq, hslash, if_false,
          bne_iff_ne, ne_eq, not_false_eq_true, if_true]
        exact ⟨.char hc hne hs, .char hc hne h₂, h₃⟩
  | @escape d l s hp hh hl hs ih =>
      obtain ⟨h₁, h₂, h₃⟩ := ih
      have hpercent : (ch '%' == ch '/') = false ∧ (ch '%' != ch '/') = true := by decide
      simp only [List.dropWhile_cons, List.takeWhile_cons, hpercent.1, hpercent.2, hhex _ hh,
        hhex _ hl, Bool.false_eq_true, if_false, if_true]
      exact ⟨.escape hp hh hl hs, .escape hp hh hl h₂, h₃⟩

/-! ## The stages of the parser -/

namespace URI

/-- A scheme starts with a letter. -/
structure IsScheme (s : Str) : Prop where
  alpha : isalpha (charAt s 0) = true
  chars : Chars schemeChar s

/-- A text that starts with a scheme and a colon. -/
def SchemeLike (p : Str) : Prop := ∃ s rest, IsScheme s ∧ p = s ++ ch ':' :: rest

theorem IsScheme.ne_nil {s : Str} (h : IsScheme s) : s ≠ [] := by
  rintro rfl
  exact absurd h.alpha (by decide)

/-- A text with a scheme in front starts with a letter. -/
theorem IsScheme.append_ne {s : Str} (h : IsScheme s) {c : Byte} (hc : isalpha c = false)
    (q p : Str) : s ++ q ≠ c :: p := by
  intro e
  obtain ⟨b, s, rfl⟩ := List.exists_cons_of_ne_nil h.ne_nil
  obtain rfl := (List.cons.inj e).1
  have halpha : isalpha b = true := h.alpha
  rw [hc] at halpha
  cases halpha

theorem isScheme_ldap : IsScheme (str "ldap") :=
  ⟨by decide, .of_checkCharSet (by decide +kernel)⟩

theorem charAt_append {s : Str} (h : s ≠ []) (q : Str) : charAt (s ++ q) 0 = charAt s 0 := by
  obtain ⟨c, s, rfl⟩ := List.exists_cons_of_ne_nil h
  rfl

/-- The scheme characters in front of a colon are a scheme when the text starts with
a letter. -/
theorem isScheme_of_alpha {s q : Str} (h : isalpha (charAt (s ++ ch ':' :: q) 0) = true)
    (hs : Chars schemeChar s) : IsScheme s := by
  have hne : s ≠ [] := by
    rintro rfl
    exact absurd (show isalpha (ch ':') = true from h) (by decide)
  rw [charAt_append hne] at h
  exact ⟨h, hs⟩

theorem charAt_eq {p : Str} {c : Byte} (hc : c ≠ 0) : charAt p 0 = c ↔ ∃ p', p = c :: p' := by
  cases p with
  | nil => simp [charAt, hc.symm]
  | cons b p => simp [charAt]

theorem skipCharSet_scheme {s : Str} (h : IsScheme s) (p : Str) :
    skipCharSet schemeChar (s ++ ch ':' :: p) = some (s, ch ':' :: p) :=
  skipCharSet_of_stops h.chars (stops_of_not_mem (by decide) p)

/-- A scheme and a colon, with two slashes behind them. -/
theorem parse_authority {s : Str} (h : IsScheme s) (p : Str) :
    parse (s ++ ch ':' :: (str "//" ++ p)) =
      (parseAuthority s (str "//" ++ p)).bind parseBehind := by
  have ha : isalpha (charAt (s ++ ch ':' :: (str "//" ++ p)) 0) = true := by
    rw [charAt_append h.ne_nil]
    exact h.alpha
  rw [parse, skipCharSet_scheme h, Option.bind_some, if_pos ⟨ha, rfl⟩]
  exact if_pos ⟨rfl, rfl⟩

/-- A scheme and a colon, with something else behind them. -/
theorem parse_scheme {s p : Str} (h : IsScheme s) (hp : ∀ p', p ≠ str "//" ++ p') :
    parse (s ++ ch ':' :: p) = parsePath { clear with scheme := s } p := by
  have ha : isalpha (charAt (s ++ ch ':' :: p) 0) = true := by
    rw [charAt_append h.ne_nil]
    exact h.alpha
  have hs : ¬ (charAt p 0 = ch '/' ∧ charAt p 1 = ch '/') := by
    rintro ⟨h0, h1⟩
    obtain ⟨p, rfl⟩ := (charAt_eq (by decide)).mp h0
    obtain ⟨p, rfl⟩ := (charAt_eq (by decide)).mp (show charAt p 0 = ch '/' from h1)
    exact hp p rfl
  rw [parse, skipCharSet_scheme h, Option.bind_some, if_pos ⟨ha, rfl⟩]
  exact if_neg hs

/-- No scheme. -/
theorem parse_bare {p t q : Str} (hp : ¬ SchemeLike p)
    (hq : skipCharSet schemeChar p = some (t, q)) : parse p = parsePath clear p := by
  have hs : ¬ (isalpha (charAt p 0) = true ∧ charAt q 0 = ch ':') := by
    rintro ⟨ha, hc⟩
    obtain ⟨rfl, ht, -⟩ := skipCharSet_eq_some hq
    obtain ⟨q, rfl⟩ := (charAt_eq (by decide)).mp hc
    exact hp ⟨t, q, isScheme_of_alpha ha ht, rfl⟩
  rw [parse, hq, Option.bind_some]
  exact if_neg hs

/-- The user information is read when an `@` follows it. -/
theorem parseAuthority_at {info : Str} (h : Chars userinfoChar info) (scheme p : Str) :
    parseAuthority scheme (str "//" ++ (info ++ ch '@' :: p)) = parseHost scheme info p := by
  have hs : skipCharSet userinfoChar (info ++ ch '@' :: p) = some (info, ch '@' :: p) :=
    skipCharSet_of_stops h (stops_of_not_mem (by decide) p)
  have hdrop : (str "//" ++ (info ++ ch '@' :: p)).drop 2 = info ++ ch '@' :: p := rfl
  rw [parseAuthority, hdrop, hs, Option.bind_some]
  exact if_pos rfl

theorem validHost_of_chars {host : Str} (h : Chars regnameChar host) : validHost host = true := by
  simp [validHost, validRegisteredName, h.checkCharSet]

/-- A host that no bracket starts and no colon ends. -/
theorem parseHost_eq {host q : Str} (h : Chars regnameChar host) (hq : Stops regnameChar q)
    (hbracket : ∀ p, host ++ q ≠ ch '[' :: p) (hport : ∀ p, q ≠ ch ':' :: p)
    (scheme info : Str) :
    parseHost scheme info (host ++ q) =
      some ({ clear with
        scheme
        userinfo := info
        user := (splitUserinfo info).1
        password := (splitUserinfo info).2
        host }, some q) := by
  have hb : ¬ charAt (host ++ q) 0 = ch '[' := by
    intro hb
    obtain ⟨p, hp⟩ := (charAt_eq (by decide)).mp hb
    exact hbracket p hp
  have hc : ¬ charAt q 0 = ch ':' := by
    intro hc
    obtain ⟨p, hp⟩ := (charAt_eq (by decide)).mp hc
    exact hport p hp
  rw [parseHost, if_neg hb, skipCharSet_of_stops h hq, Option.bind_some,
    if_neg (by simp [validHost_of_chars h]), parsePort, if_neg hc]
  rfl

/-- Without it, nothing is read. -/
theorem parseAuthority_none {p t q : Str} (hp : skipCharSet userinfoChar p = some (t, q))
    (hq : ∀ q', q ≠ ch '@' :: q') (scheme : Str) :
    parseAuthority scheme (str "//" ++ p) =
      some ({ clear with scheme := scheme }, some (str "//" ++ p)) := by
  have hat : ¬ charAt q 0 = ch '@' := by
    intro h
    obtain ⟨q', rfl⟩ := (charAt_eq (by decide)).mp h
    exact hq q' rfl
  rw [parseAuthority, show (str "//" ++ p).drop 2 = p from rfl, hp, Option.bind_some, if_neg hat]
  have hne : ∀ b : Byte, ch '/' ≠ b → ∀ p', str "//" ++ p ≠ b :: p' := by
    intro b hb p' h
    exact hb (List.cons.inj h).1
  exact parseHost_eq .nil (stops_of_not_mem (by decide) _) (hne _ (by decide))
    (hne _ (by decide)) scheme []

end URI

end Undervest
