import Undervest.Uri

/-!
# In front of the path

A text is read up to its path without a scheme, behind a scheme, behind a host or
behind a port, or it is given up at a bracket or at a port that is too large
(`reading`).  `Lead` is what was read in the first four ways, and `Lead.Before`
says that it ends where the rest starts.

Each way has one equation: behind a lead the path is read (`parse_lead`), a
bracket throws or is given up (`parse_bracket`), and so is a port that is too large
(`parse_host_port`).  They hold for every rest, also where a scan throws in it.

The loop over the digits of a port adds the colon in front of them instead of the
digit, so only their number counts: one to four digits give 10, 110, 1110 and
11110, and more are too large (`parsePort_digits`).
-/

namespace Undervest

/-! ## Where a scan ends -/

/-- A byte above 127 behind a `%`, where an escape is tested. -/
inductive BadEscape : Str → Prop where
  | first {c : Byte} {r : Str} : 128 ≤ c → BadEscape (ch '%' :: c :: r)
  | second {h c : Byte} {r : Str} : isInSet hex h = some true → 128 ≤ c →
      BadEscape (ch '%' :: h :: c :: r)

/-- What a scan throws at. -/
inductive Throws : Str → Prop where
  | char {c : Byte} {r : Str} : 128 ≤ c → Throws (c :: r)
  | escape {r : Str} : BadEscape r → Throws r

theorem isInSet_eq_none {cs : CharSet} {c : Byte} : isInSet cs c = none ↔ 128 ≤ c := by
  unfold isInSet
  split
  next h => simpa using h
  next h => simpa using h

theorem skipCharSet_none {cs : CharSet} {c : Byte} (h : isInSet cs c = none) (p : Str) :
    skipCharSet cs (c :: p) = none := by
  rw [skipCharSet.eq_def]
  simp only [h]

theorem isEscaped_cons (d : Byte) (p : Str) : isEscaped (ch '%' :: d :: p) =
    (isInSet hex d).bind fun b => if b then isInSet hex (charAt p 0) else some false := rfl

theorem isEscaped_eq_none {r : Str} : isEscaped r = none ↔ BadEscape r := by
  constructor
  · intro h
    by_cases hc : charAt r 0 = ch '%'
    · obtain ⟨p, rfl⟩ := (URI.charAt_eq (by decide)).mp hc
      cases p with
      | nil => exact absurd h (by decide)
      | cons d p =>
          rw [isEscaped_cons] at h
          cases hd : isInSet hex d with
          | none => exact .first (isInSet_eq_none.mp hd)
          | some b =>
              rw [hd, Option.bind_some] at h
              cases b with
              | false => cases h
              | true =>
                  cases p with
                  | nil => exact absurd h (by decide)
                  | cons c p => exact .second hd (isInSet_eq_none.mp h)
    · rw [isEscaped, if_neg hc] at h
      cases h
  · rintro (⟨hc⟩ | ⟨hh, hc⟩)
    · rw [isEscaped_cons, isInSet_eq_none.mpr hc, Option.bind_none]
    · rw [isEscaped_cons, hh, Option.bind_some, if_pos rfl]
      exact isInSet_eq_none.mpr hc

theorem skipCharSet_eq_none {cs : CharSet} {s : Str} (h : skipCharSet cs s = none) :
    ∃ t r, s = t ++ r ∧ Chars cs t ∧ Throws r := by
  fun_induction skipCharSet cs s with
  | case1 => cases h
  | case2 c p hc => exact ⟨[], c :: p, rfl, .nil, .char (isInSet_eq_none.mp hc)⟩
  | case3 => cases h
  | case4 c p hc hne ih =>
      obtain ⟨t, r, rfl, ht, hr⟩ := ih (Option.map_eq_none_iff.mp h)
      exact ⟨c :: t, r, rfl, .char hc hne ht, hr⟩
  | case5 c hc hp d l p he => exact ⟨[], _, rfl, .nil, .escape (isEscaped_eq_none.mp he)⟩
  | case6 c hc hp d l p he ih =>
      obtain rfl := not_not.mp hp
      obtain ⟨t, r, rfl, ht, hr⟩ := ih (Option.map_eq_none_iff.mp h)
      obtain ⟨hd, hl⟩ := isEscaped_eq_true he
      exact ⟨ch '%' :: d :: l :: t, r, rfl, .escape hc hd hl ht, hr⟩
  | case7 => cases h
  | case8 c hc hp p hshort =>
      obtain rfl := not_not.mp hp
      exact ⟨[], _, rfl, .nil, .escape (isEscaped_eq_none.mp (Option.map_eq_none_iff.mp h))⟩

theorem percent_of_isEscaped {c : Byte} {p : Str} (h : isEscaped (c :: p) = some true) :
    c = ch '%' := by
  by_contra hc
  rw [isEscaped, if_neg (show ¬ charAt (c :: p) 0 = ch '%' from hc)] at h
  cases h

/-- An escape has two characters behind the `%`. -/
theorem exists_of_isEscaped {p : Str} (h : isEscaped (ch '%' :: p) = some true) :
    ∃ d l p', p = d :: l :: p' := by
  by_contra hn
  exact absurd (isEscaped_short (fun d l p' hp => hn ⟨d, l, p', hp⟩) h) (by decide)

/-- Where a set has the `%`, a scan throws at each of these texts. -/
theorem Throws.skipCharSet {cs : CharSet} (hcs : cs (ch '%') = true) {r : Str} (h : Throws r) :
    Undervest.skipCharSet cs r = none := by
  cases h with
  | char hc => exact skipCharSet_none (isInSet_eq_none.mpr hc) _
  | escape hr =>
      have hp : isInSet cs (ch '%') = some true := isInSet_eq_some.mpr ⟨by decide, hcs⟩
      have he := isEscaped_eq_none.mpr hr
      cases hr with
      | first => rw [skipCharSet_percent hp, he, Option.bind_none]
      | second => rw [skipCharSet_percent hp, he, Option.bind_none]

/-- No character of the set starts the text. -/
def Ends (cs : CharSet) (q : Str) : Prop := ∀ t r, Chars cs t → q = t ++ r → t = []

/-- The characters of the set that start a text, and the rest. -/
theorem exists_ends (cs : CharSet) (s : Str) : ∃ t q, s = t ++ q ∧ Chars cs t ∧ Ends cs q := by
  induction h : s.length using Nat.strong_induction_on generalizing s with
  | _ n ih =>
    by_cases he : Ends cs s
    · exact ⟨[], s, rfl, .nil, he⟩
    · unfold Ends at he
      push Not at he
      obtain ⟨t, r, ht, rfl, hne⟩ := he
      have hlen := List.length_pos_iff.mpr hne
      rw [List.length_append] at h
      obtain ⟨t', q, rfl, ht', hq⟩ := ih r.length (by omega) r rfl
      exact ⟨t ++ t', q, (List.append_assoc ..).symm, ht.append ht', hq⟩

theorem Ends.skipCharSet {cs : CharSet} {q : Str} (h : Ends cs q) :
    Stops cs q ∨ Undervest.skipCharSet cs q = none ∧ Throws q := by
  cases hs : Undervest.skipCharSet cs q with
  | none =>
      obtain ⟨t, r, rfl, ht, hr⟩ := skipCharSet_eq_none hs
      obtain rfl := h t r ht rfl
      exact Or.inr ⟨rfl, hr⟩
  | some r =>
      obtain ⟨he, ht, hr⟩ := skipCharSet_eq_some (t := r.1) (q := r.2) hs
      have hnil := h r.1 r.2 ht he
      rw [hnil, List.nil_append] at he
      exact Or.inl (he ▸ hr)

theorem Stops.ends {cs : CharSet} {q : Str} (h : Stops cs q) : Ends cs q := by
  rintro t r ht rfl
  rw [Stops, skipCharSet_append ht] at h
  obtain ⟨r', -, he⟩ := Option.map_eq_some_iff.mp h
  exact (List.append_eq_nil_iff.mp (Prod.mk.inj he).1).1

namespace URI

/-! ## Fronts -/

/-- What stands in front of the path. -/
inductive Front where
  | bare
  | scheme (scheme : Str)
  | authority (scheme userinfo host : Str)

namespace Front

def text : Front → Str
  | bare => []
  | scheme s => s ++ str ":"
  | authority s info host => s ++ str "://" ++ info ++ str "@" ++ host

def uri : Front → URI
  | bare => clear
  | scheme s => { clear with scheme := s }
  | authority s info host =>
      { clear with
        scheme := s
        userinfo := info
        user := (splitUserinfo info).1
        password := (splitUserinfo info).2
        host }

end Front

/-! ## The loop over the digits -/

/-- The number after some digits. -/
def portAfter : Nat → Nat
  | 0 => 0
  | n + 1 => if portAfter n ≤ 0xFFFF then portAfter n * 10 + 10 else portAfter n

theorem portLoop_digits {d : Str} (hd : ∀ c ∈ d, isdigit c = true) (k : Str) (n : Nat) :
    portLoop (ch ':') (portAfter n) (d ++ k) = portLoop (ch ':') (portAfter (n + d.length)) k := by
  induction d generalizing n with
  | nil => rfl
  | cons c d ih =>
      rw [List.forall_mem_cons] at hd
      have hset : isInSet isdigit c = some true :=
        forall_byte (P := fun c => isdigit c = true → isInSet isdigit c = some true)
          (by decide +kernel) c hd.1
      rw [List.cons_append, portLoop, hset, Option.bind_some, if_pos rfl, List.length_cons,
        Nat.add_comm d.length, ← Nat.add_assoc]
      exact ih hd.2 (n + 1)

theorem portLoop_stop {k : Str} (hk : ∀ c ∈ k.head?, isInSet isdigit c = some false) (prt : Nat) :
    portLoop (ch ':') prt k = some (prt, k) := by
  cases k with
  | nil => rfl
  | cons c k => rw [portLoop, hk c rfl, Option.bind_some, if_neg Bool.false_ne_true]

theorem portLoop_eq_some {q : Byte} {prt prt' : Nat} {p rest : Str}
    (h : portLoop q prt p = some (prt', rest)) :
    ∃ digits, p = digits ++ rest ∧ ∀ c ∈ digits, isdigit c = true := by
  induction p generalizing prt with
  | nil =>
      cases h
      exact ⟨[], rfl, by simp⟩
  | cons c p ih =>
      rw [portLoop] at h
      obtain ⟨b, hb, h⟩ := Option.bind_eq_some_iff.mp h
      cases b with
      | false =>
          cases h
          exact ⟨[], rfl, by simp⟩
      | true =>
          obtain ⟨digits, rfl, hd⟩ := ih h
          exact ⟨c :: digits, rfl, List.forall_mem_cons.mpr ⟨(isInSet_eq_some.mp hb).2, hd⟩⟩

/-- After five digits the number is too large, and stays. -/
theorem portAfter_le_iff (n : Nat) : portAfter n ≤ 0xFFFF ↔ n < 5 := by
  have hlarge : ∀ n, portAfter (n + 5) = 111110 := by
    intro n
    induction n with
    | zero => decide
    | succ n ih => rw [Nat.add_right_comm, portAfter, ih]; decide
  have hsmall : ∀ n < 5, portAfter n ≤ 0xFFFF := by decide
  refine ⟨fun h => ?_, hsmall n⟩
  by_contra hn
  obtain ⟨m, rfl⟩ : ∃ m, n = m + 5 := ⟨n - 5, by omega⟩
  rw [hlarge] at h
  exact absurd h (by decide)

/-- **The port depends on the number of its digits only.** -/
theorem parsePort_digits {d k : Str} (hd : ∀ c ∈ d, isdigit c = true)
    (hk : ∀ c ∈ k.head?, isInSet isdigit c = some false) :
    parsePort (ch ':' :: (d ++ k)) =
      some (if d.length < 5 then some (portAfter d.length, k) else none) := by
  have hcolon : charAt (ch ':' :: (d ++ k)) 0 = ch ':' := rfl
  have hloop := portLoop_digits hd k 0
  rw [Nat.zero_add, portLoop_stop hk] at hloop
  rw [parsePort, if_pos hcolon, hcolon, List.drop_succ_cons, List.drop_zero,
    show portLoop (ch ':') 0 (d ++ k) = _ from hloop, Option.map_some]
  simp only [portAfter_le_iff]

theorem parsePort_throws {d k : Str} (hd : ∀ c ∈ d, isdigit c = true) {c : Byte} (hc : 128 ≤ c) :
    parsePort (ch ':' :: (d ++ c :: k)) = none := by
  have hcolon : charAt (ch ':' :: (d ++ c :: k)) 0 = ch ':' := rfl
  have hloop := portLoop_digits hd (c :: k) 0
  rw [Nat.zero_add, portLoop, isInSet_eq_none.mpr hc, Option.bind_none] at hloop
  rw [parsePort, if_pos hcolon, hcolon, List.drop_succ_cons, List.drop_zero,
    show portLoop (ch ':') 0 (d ++ c :: k) = _ from hloop, Option.map_none]

/-! ## Leads -/

/-- What stands in front of the path, with a port. -/
inductive Lead where
  | front (front : Front)
  | port (scheme userinfo host digits : Str)

namespace Lead

def text : Lead → Str
  | front f => f.text
  | port s info host d => Front.text (.authority s info host) ++ str ":" ++ d

def uri : Lead → URI
  | front f => f.uri
  | port s info host d => { Front.uri (.authority s info host) with port := portAfter d.length }

/-- The parser stops where the lead ends and the rest starts. -/
def Before : Lead → Str → Prop
  | front .bare, rest => ¬ SchemeLike rest
  | front (.scheme s), rest =>
      IsScheme s ∧ ∀ info q, Chars userinfoChar info → rest ≠ str "//" ++ (info ++ ch '@' :: q)
  | front (.authority s info host), rest =>
      IsScheme s ∧ Chars userinfoChar info ∧ Chars regnameChar host ∧ Ends regnameChar rest ∧
        ∀ c ∈ rest.head?, c ≠ ch ':' ∧ (host = [] → c ≠ ch '[')
  | port s info host d, rest =>
      IsScheme s ∧ Chars userinfoChar info ∧ Chars regnameChar host ∧
        (∀ c ∈ d, isdigit c = true) ∧ d.length < 5 ∧ ∀ c ∈ rest.head?, isdigit c = false

end Lead

/-- The characters that may stand in a path. -/
theorem pcharSlash_of {c : Byte}
    (h : (schemeChar c || userinfoChar c || regnameChar c) = true) : pcharSlash c = true :=
  forall_byte (P := fun c =>
    (schemeChar c || userinfoChar c || regnameChar c) = true → pcharSlash c = true)
    (by decide +kernel) c h

/-- The path throws where an earlier scan throws. -/
theorem parsePath_throws {cs : CharSet} (hcs : ∀ c, cs c = true → pcharSlash c = true)
    {t p : Str} (hpath : Chars pcharSlash t) (hp : skipCharSet cs p = none) (u : URI) :
    parsePath u (t ++ p) = none := by
  obtain ⟨t, r, rfl, ht, hr⟩ := skipCharSet_eq_none hp
  rw [parsePath, skipCharSet_append hpath, skipCharSet_append (ht.mono hcs),
    hr.skipCharSet (by decide)]
  rfl

/-! ## What is left -/

/-- What a path leaves in the URI. -/
theorem parsePath_fields {u : URI} {p : Str} {r : URI × Bool} (h : parsePath u p = some r) :
    r.1.scheme = u.scheme ∧ r.1.userinfo = u.userinfo ∧
      ∃ t q, p = t ++ q ∧ Chars pcharSlash t ∧ Stops pcharSlash q ∧ r.1.path = .assign t := by
  obtain ⟨path, hpath, h⟩ := Option.bind_eq_some_iff.mp h
  obtain ⟨query, -, h⟩ := Option.bind_eq_some_iff.mp h
  obtain ⟨fragment, -, rfl⟩ := Option.map_eq_some_iff.mp h
  obtain ⟨hp, hchars, hstop⟩ := skipCharSet_eq_some (t := path.1) (q := path.2) hpath
  exact ⟨rfl, rfl, path.1, path.2, hp, hchars, hstop, rfl⟩

/-- The port takes a colon and digits away. -/
theorem parsePort_colon {p rest : Str} {port : Nat}
    (h : parsePort (ch ':' :: p) = some (some (port, rest))) :
    ∃ digits, p = digits ++ rest ∧ ∀ c ∈ digits, isdigit c = true := by
  rw [parsePort, if_pos (show charAt (ch ':' :: p) 0 = ch ':' from rfl)] at h
  obtain ⟨r, hr, h⟩ := Option.map_eq_some_iff.mp h
  split at h
  next =>
      obtain rfl := Option.some.inj h
      exact portLoop_eq_some hr
  next => cases h

theorem parsePort_suffix {p rest : Str} {port : Nat}
    (h : parsePort p = some (some (port, rest))) : rest <:+ p := by
  by_cases hc : charAt p 0 = ch ':'
  · obtain ⟨p, rfl⟩ := (charAt_eq (by decide)).mp hc
    obtain ⟨digits, rfl, -⟩ := parsePort_colon h
    exact List.IsSuffix.trans (List.suffix_append digits rest) (List.suffix_cons _ _)
  · rw [parsePort, if_neg hc] at h
    obtain ⟨-, rfl⟩ := Prod.mk.inj (Option.some.inj (Option.some.inj h))
    exact List.suffix_refl p

/-- What can be read from the host on. -/
theorem parseHost_cases {s info p : Str} {r : URI × Bool}
    (h : (parseHost s info p).bind parseBehind = some r) :
    r = (clear, false) ∨
      ∃ host q port rest, p = host ++ q ∧ Chars regnameChar host ∧ Stops regnameChar q ∧
        parsePort q = some (some (port, rest)) ∧
        parsePath { (Front.authority s info host).uri with port } rest = some r := by
  obtain ⟨a, ha, h⟩ := Option.bind_eq_some_iff.mp h
  have hgiveUp : a = (clear, none) → r = (clear, false) := by
    rintro rfl
    exact (Option.some.inj h).symm
  by_cases hb : charAt p 0 = ch '['
  · rw [parseHost, if_pos hb] at ha
    split at ha
    next => cases ha
    next => exact Or.inl (hgiveUp (Option.some.inj ha).symm)
  · rw [parseHost, if_neg hb] at ha
    obtain ⟨⟨host, q⟩, hs, -⟩ := Option.bind_eq_some_iff.mp ha
    obtain ⟨hp, hhost, hq⟩ := skipCharSet_eq_some hs
    rw [hs, Option.bind_some, if_neg (by simp [validHost_of_chars hhost])] at ha
    obtain ⟨port, hport, ha⟩ := Option.map_eq_some_iff.mp ha
    cases port with
    | none => exact Or.inl (hgiveUp ha.symm)
    | some port =>
        obtain rfl := ha
        exact Or.inr ⟨host, q, port.1, port.2, hp, hhost, hq, hport, h⟩

/-- What a host and a path leave in the URI. -/
theorem parseHost_fields {s info p : Str} {r : URI × Bool}
    (h : (parseHost s info p).bind parseBehind = some r) :
    r.1 = clear ∨ r.1.scheme = s ∧ r.1.userinfo = info ∧
      ∃ t, t.Sublist p ∧ r.1.path = .assign t := by
  rcases parseHost_cases h with rfl | ⟨host, q, port, rest, rfl, -, -, hport, hpath⟩
  · exact Or.inl rfl
  · obtain ⟨hscheme, hinfo, t, q', rfl, -, -, hfile⟩ := parsePath_fields hpath
    have hrest : (t ++ q').Sublist (host ++ q) :=
      (parsePort_suffix hport).sublist.trans (List.sublist_append_right host q)
    exact Or.inr ⟨hscheme, hinfo, t, (List.sublist_append_left t q').trans hrest, hfile⟩

/-! ## Behind a user information -/

section

variable {s info host : Str} (hs : IsScheme s) (hinfo : Chars userinfoChar info)
  (hhost : Chars regnameChar host)

/-- A bracket stands in front of an empty host only. -/
theorem not_bracket (hhost : Chars regnameChar host) {q : Str}
    (hq : ∀ c ∈ q.head?, host = [] → c ≠ ch '[') : ∀ p, host ++ q ≠ ch '[' :: p := by
  intro p he
  cases hh : host with
  | nil =>
      rw [hh, List.nil_append] at he
      exact hq (ch '[') (by rw [he]; rfl) hh rfl
  | cons c host' =>
      rw [hh] at he
      obtain rfl := (List.cons.inj he).1
      exact hhost.notMem rfl rfl (hh ▸ List.mem_cons_self ..)

include hs hinfo

theorem parse_host (p : Str) :
    parse (Front.text (.authority s info []) ++ p) = (parseHost s info p).bind parseBehind := by
  have htext : Front.text (.authority s info []) ++ p =
      s ++ ch ':' :: (str "//" ++ (info ++ ch '@' :: p)) := by
    simp [Front.text, str]
  rw [htext, parse_authority hs, parseAuthority_at hinfo]

include hhost

/-- A host that no port follows. -/
theorem parse_host_path {q : Str} (hends : Ends regnameChar q)
    (hhead : ∀ c ∈ q.head?, c ≠ ch ':' ∧ (host = [] → c ≠ ch '[')) :
    parse (Front.text (.authority s info host) ++ q) =
      parsePath (Front.authority s info host).uri q := by
  have hbracket := not_bracket hhost fun c hc => (hhead c hc).2
  have hport : ∀ p, q ≠ ch ':' :: p := by
    rintro p rfl
    exact (hhead _ rfl).1 rfl
  have htext : Front.text (.authority s info host) ++ q =
      Front.text (.authority s info []) ++ (host ++ q) := by
    simp [Front.text]
  rw [htext, parse_host hs hinfo]
  rcases hends.skipCharSet with hstop | ⟨hnone, hthrows⟩
  · rw [parseHost_eq hhost hstop hbracket hport]
    rfl
  · have hb : ¬ charAt (host ++ q) 0 = ch '[' := by
      intro hb
      obtain ⟨p, hp⟩ := (charAt_eq (by decide)).mp hb
      exact hbracket p hp
    rw [parseHost, if_neg hb, skipCharSet_append hhost, hnone]
    exact (parsePath_throws (t := []) (fun c h => pcharSlash_of (by simp [h])) .nil hnone _).symm

/-- A host and a port. -/
theorem parse_host_port {d : Str} (hd : ∀ c ∈ d, isdigit c = true) {k : Str}
    (hk : ∀ c ∈ k.head?, isdigit c = false) :
    parse (Front.text (.authority s info host) ++ str ":" ++ d ++ k) =
      if d.length < 5 then
        parsePath { (Front.authority s info host).uri with port := portAfter d.length } k
      else if (k.head?.any fun c => 128 ≤ c) = true then none
      else some (clear, false) := by
  have hbracket : ¬ charAt (host ++ ch ':' :: (d ++ k)) 0 = ch '[' := by
    intro hb
    obtain ⟨p, hp⟩ := (charAt_eq (by decide)).mp hb
    refine not_bracket hhost (fun c hc _ => ?_) p hp
    obtain rfl := Option.some.inj hc
    decide
  have htext : Front.text (.authority s info host) ++ str ":" ++ d ++ k =
      Front.text (.authority s info []) ++ (host ++ ch ':' :: (d ++ k)) := by
    simp [Front.text, str]
  rw [htext, parse_host hs hinfo, parseHost, if_neg hbracket,
    skipCharSet_of_stops hhost (stops_of_not_mem (by decide) _), Option.bind_some,
    if_neg (by simp [validHost_of_chars hhost])]
  by_cases hc : (k.head?.any fun c => 128 ≤ c) = true
  · obtain ⟨c, hmem, hle⟩ := (Option.any_eq_true _ _).mp hc
    obtain ⟨k, rfl⟩ := List.head?_eq_some_iff.mp hmem
    have hthrows : Throws (c :: k) := .char (of_decide_eq_true hle)
    rw [parsePort_throws hd (of_decide_eq_true hle), if_pos hc, parsePath,
      hthrows.skipCharSet (by decide)]
    exact (ite_self _).symm
  · have hset : ∀ c ∈ k.head?, isInSet isdigit c = some false := by
      intro c hmem
      refine isInSet_eq_some.mpr ⟨?_, hk c hmem⟩
      by_contra hle
      exact hc ((Option.any_eq_true _ _).mpr
        ⟨c, hmem, decide_eq_true (UInt8.not_lt.mp hle)⟩)
    rw [parsePort_digits hd hset, if_neg hc, Option.map_some]
    by_cases hlen : d.length < 5
    · simp only [if_pos hlen]
      rfl
    · simp only [if_neg hlen]
      rfl

end

/-- **Behind a lead the path is read.** -/
theorem parse_lead {l : Lead} {rest : Str} (h : l.Before rest) :
    parse (l.text ++ rest) = parsePath l.uri rest := by
  cases l with
  | front f =>
      cases f with
      | bare =>
          rw [Lead.text, Front.text, List.nil_append]
          cases hs : skipCharSet schemeChar rest with
          | some r => exact parse_bare h (t := r.1) (q := r.2) hs
          | none =>
              rw [parse, hs, Option.bind_none]
              exact (parsePath_throws (t := []) (fun c h => pcharSlash_of (by simp [h]))
                .nil hs _).symm
      | scheme s =>
          obtain ⟨hscheme, hinfo⟩ := h
          rw [Lead.text, Front.text, List.append_assoc]
          by_cases hslash : ∃ p, rest = str "//" ++ p
          · obtain ⟨p, rfl⟩ := hslash
            refine (parse_authority hscheme p).trans ?_
            cases hs : skipCharSet userinfoChar p with
            | none =>
                rw [parseAuthority, show (str "//" ++ p).drop 2 = p from rfl, hs]
                exact (parsePath_throws (fun c h => pcharSlash_of (by simp [h]))
                  (.of_checkCharSet (by decide +kernel)) hs _).symm
            | some r =>
                obtain ⟨rfl, hr, -⟩ := skipCharSet_eq_some (t := r.1) (q := r.2) hs
                rw [parseAuthority_none (q := r.2) hs fun q hq => hinfo r.1 q hr (by rw [hq])]
                rfl
          · exact parse_scheme hscheme fun p hp => hslash ⟨p, hp⟩
      | authority s info host =>
          obtain ⟨hscheme, hinfo, hhost, hends, hhead⟩ := h
          exact parse_host_path hscheme hinfo hhost hends hhead
  | port s info host d =>
      obtain ⟨hscheme, hinfo, hhost, hd, hlen, hhead⟩ := h
      exact (parse_host_port hscheme hinfo hhost hd hhead).trans (if_pos hlen)

/-! ## Every text -/

/-- The ways a text is read. -/
inductive Reading : Str → Prop where
  | bracket {s info : Str} (p : Str) : IsScheme s → Chars userinfoChar info →
      Reading (Front.text (.authority s info []) ++ ch '[' :: p)
  | large {s info host d k : Str} : IsScheme s → Chars userinfoChar info →
      Chars regnameChar host → (∀ c ∈ d, isdigit c = true) → 5 ≤ d.length →
      (∀ c ∈ k.head?, isdigit c = false) →
      Reading (Front.text (.authority s info host) ++ str ":" ++ d ++ k)
  | lead {l : Lead} {rest : Str} : l.Before rest → Reading (l.text ++ rest)

/-- What follows a user information. -/
theorem reading_host {s info : Str} (hs : IsScheme s) (hinfo : Chars userinfoChar info) (p : Str) :
    Reading (Front.text (.authority s info []) ++ p) := by
  obtain ⟨host, q, rfl, hhost, hends⟩ := exists_ends regnameChar p
  have htext : Front.text (.authority s info []) ++ (host ++ q) =
      Front.text (.authority s info host) ++ q := by
    simp [Front.text]
  by_cases hcolon : ∃ q', q = ch ':' :: q'
  · obtain ⟨q, rfl⟩ := hcolon
    obtain ⟨d, k, rfl, hd, hk⟩ := exists_span isdigit q
    have hq : Front.text (.authority s info host) ++ ch ':' :: (d ++ k) =
        Front.text (.authority s info host) ++ str ":" ++ d ++ k := by
      simp [str]
    rw [htext, hq]
    by_cases hlen : d.length < 5
    · exact .lead (l := .port s info host d) ⟨hs, hinfo, hhost, hd, hlen, hk⟩
    · exact .large hs hinfo hhost hd (Nat.le_of_not_lt hlen) hk
  · by_cases hbracket : host = [] ∧ ∃ q', q = ch '[' :: q'
    · obtain ⟨rfl, q, rfl⟩ := hbracket
      exact .bracket q hs hinfo
    · rw [htext]
      refine .lead (l := .front (.authority s info host)) ⟨hs, hinfo, hhost, hends, fun c hc => ?_⟩
      obtain ⟨q, rfl⟩ := List.head?_eq_some_iff.mp hc
      constructor
      · rintro rfl
        exact hcolon ⟨q, rfl⟩
      · rintro hnil rfl
        exact hbracket ⟨hnil, q, rfl⟩

theorem reading (s : Str) : Reading s := by
  by_cases hlike : SchemeLike s
  · obtain ⟨scheme, p, hscheme, rfl⟩ := hlike
    by_cases hat : ∃ info q, Chars userinfoChar info ∧ p = str "//" ++ (info ++ ch '@' :: q)
    · obtain ⟨info, q, hinfo, rfl⟩ := hat
      have htext : scheme ++ ch ':' :: (str "//" ++ (info ++ ch '@' :: q)) =
          Front.text (.authority scheme info []) ++ q := by
        simp [Front.text, str]
      exact htext ▸ reading_host hscheme hinfo q
    · have htext : scheme ++ ch ':' :: p = Front.text (.scheme scheme) ++ p := by
        simp [Front.text, str]
      exact htext ▸ .lead (l := .front (.scheme scheme))
        ⟨hscheme, fun info q hinfo hp => hat ⟨info, q, hinfo, hp⟩⟩
  · exact .lead (l := .front .bare) hlike

/-- A bracket throws when a closing one follows. -/
theorem parse_bracket {s info : Str} (hs : IsScheme s) (hinfo : Chars userinfoChar info) (p : Str) :
    parse (Front.text (.authority s info []) ++ ch '[' :: p) =
      if ch ']' ∈ p then none else some (clear, false) := by
  have hbracket : charAt (ch '[' :: p) 0 = ch '[' := rfl
  rw [parse_host hs hinfo, parseHost, if_pos hbracket]
  show Option.bind (if ch ']' ∈ p then none else some (clear, none)) parseBehind = _
  split_ifs <;> rfl

end URI

end Undervest
