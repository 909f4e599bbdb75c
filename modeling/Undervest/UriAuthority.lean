import Undervest.UriText

/-!
# Ports and literal hosts

Behind a user information the number of its digits makes a port
(`parsePort_digits`), and the text between brackets is assigned from a range that
ends at the `@` and starts behind the bracket, which throws (`parse_bracket`).

Without a user information the position stays before the two slashes.  Host and
port are then read as a path (`parse_unread`), which ends at a bracket.

So a port is read right when it is too large, and else by chance only
(`portRead_iff`), and no literal is (`literal_not_read`).
-/

namespace Undervest

namespace URI

/-! ## Texts -/

/-- A scheme, an optional user information, and what follows. -/
def authorityText (scheme : Str) (userinfo : Option Str) (rest : Str) : Str :=
  scheme ++ str "://" ++ userinfo.elim [] (· ++ str "@") ++ rest

/-- The path of a text that is accepted on its own. -/
def pathPart (k : Str) : Str := k.takeWhile fun c => c != ch '?' && c != ch '#'

/-! ## The authority -/

/-- Without a user information, everything from the two slashes on is read as a path. -/
theorem parse_unread {scheme name : Str} (hscheme : IsScheme scheme) (hat : ch '@' ∉ name)
    (hname : Chars pcharSlash name) {p : Parts} (hp : p.WellFormed)
    (hhead : p.path.head? = some (ch '/')) :
    parse (authorityText scheme none (name ++ (p.path ++ p.tail))) =
      some ({ clear with
        scheme
        path := .assign (str "//" ++ (name ++ p.path))
        query := p.query.getD []
        fragment := p.fragment.getD [] }, true) := by
  have hslashes : Chars pcharSlash (str "//" ++ (name ++ p.path)) :=
    .char (by decide) (by decide) (.char (by decide) (by decide) (hname.append hp.path))
  have hwell : Parts.WellFormed
      ⟨.scheme scheme, str "//" ++ (name ++ p.path), p.query, p.fragment⟩ := by
    refine ⟨⟨hscheme, fun info rest hinfo he => hat ?_⟩, hslashes, hp.query, hp.fragment⟩
    rw [List.append_cancel_left_eq] at he
    -- the slash behind the name is in no user information
    have hstop : ∀ c ∈ p.path.head?, c ∉ info ∧ c ≠ ch '@' := by
      intro c hc
      rw [hhead, Option.mem_some_iff] at hc
      exact hc ▸ ⟨hinfo.notMem (by decide) (by decide), by decide⟩
    obtain ⟨rest', rfl⟩ := split_before hstop he
    exact List.mem_append_right _ (List.mem_cons_self ..)
  have htext : authorityText scheme none (name ++ (p.path ++ p.tail)) =
      Parts.text ⟨.scheme scheme, str "//" ++ (name ++ p.path), p.query, p.fragment⟩ := by
    simp [authorityText, Parts.text, Parts.tail, Front.text, str]
  rw [htext, parse_text hwell]
  rfl

/-- The parts of a text that starts with a slash and is accepted. -/
theorem parts_of_slash {k : Str} {u : URI} (hslash : k.head? = some (ch '/'))
    (h : parse k = some (u, true)) :
    ∃ p : Parts, p.WellFormed ∧ p.front = .bare ∧ k = p.path ++ p.tail ∧
      p.path.head? = some (ch '/') := by
  obtain ⟨rest, rfl⟩ := List.head?_eq_some_iff.mp hslash
  have hport : NoPort (ch '/' :: rest) := by
    intro scheme info host rest' hscheme _ _ he
    simp only [List.append_assoc] at he
    exact hscheme.append_ne (by decide) _ _ he.symm
  obtain ⟨p, hp, htext, -⟩ := parts_of_parse h hport
  have hfits := hp.front
  have hbare : p.front = .bare := by
    cases hf : p.front with
    | bare => rfl
    | scheme s =>
        rw [hf] at hfits
        rw [Parts.text, hf, Front.text, List.append_assoc] at htext
        exact (hfits.1.append_ne (by decide) _ _ htext).elim
    | authority s info host =>
        rw [hf] at hfits
        rw [Parts.text, hf, Front.text] at htext
        simp only [List.append_assoc] at htext
        exact (hfits.1.append_ne (by decide) _ _ htext).elim
  rw [Parts.text, hbare, Front.text, List.nil_append] at htext
  refine ⟨p, hp, hbare, htext.symm, ?_⟩
  cases hpath : p.path with
  | cons c path =>
      rw [hpath] at htext
      exact congrArg some (List.cons.inj htext).1
  | nil =>
      rw [hpath] at htext
      exact absurd (Parts.tail_head htext) (by decide)

/-! ## Ports -/

/-- The port is read, or the text is rejected because it is too large. -/
structure PortRead (scheme : Str) (userinfo : Option Str) (host d k : Str) : Prop where
  accepted : (∃ u, parse (authorityText scheme userinfo (host ++ str ":" ++ d ++ k)) =
    some (u, true)) ↔ decimal d ≤ 65535
  parts {u : URI} : parse (authorityText scheme userinfo (host ++ str ":" ++ d ++ k)) =
    some (u, true) → u.port = decimal d ∧ u.host = host ∧
      ∀ u', parse k = some (u', true) → u.path = u'.path

/-- Up to four digits are never read as their value. -/
theorem portAfter_ne {d : Str} (hne : d ≠ []) (hd : ∀ c ∈ d, isdigit c = true)
    (hlen : d.length < 5) : portAfter d.length ≠ decimal d := by
  have hlarge : ∀ n < 5, n ≠ 0 → 10 ^ n ≤ portAfter n := by decide
  have := hlarge d.length hlen (List.length_eq_zero_iff.not.mpr hne)
  have := decimal_lt hd
  omega

/-- The path part of a text in front of its query and fragment. -/
theorem pathPart_append {p : Parts} (hp : p.WellFormed) : pathPart (p.path ++ p.tail) = p.path := by
  have hmark : ∀ c ∈ p.path, (c != ch '?' && c != ch '#') = true := by
    intro c hc
    rw [Bool.and_eq_true, bne_iff_ne, bne_iff_ne]
    constructor
    · rintro rfl
      exact hp.path.notMem (by decide) (by decide) hc
    · rintro rfl
      exact hp.path.notMem (by decide) (by decide) hc
  have htail : p.tail.takeWhile (fun c => c != ch '?' && c != ch '#') = [] := by
    cases ht : p.tail with
    | nil => rfl
    | cons c rest => rcases Parts.tail_head ht with rfl | rfl <;> rfl
  rw [pathPart, List.takeWhile_append_of_pos hmark, htail, List.append_nil]

section

variable {scheme host d : Str} (hscheme : IsScheme scheme) (hhost : Chars regnameChar host)
  (hd : ∀ c ∈ d, isdigit c = true) {p : Parts} (hp : p.WellFormed)
  (hhead : p.path.head? = some (ch '/'))

include hscheme hhost hd hp hhead

/-- Behind a user information only a port that is too large is handled right. -/
theorem portRead_some {info : Str} (hinfo : Chars userinfoChar info) (hne : d ≠ []) :
    PortRead scheme (some info) host d (p.path ++ p.tail) ↔ 65535 < decimal d := by
  have hhead' : ∀ c ∈ (p.path ++ p.tail).head?, c = ch '/' := by
    intro c hc
    rw [List.head?_append, hhead] at hc
    exact (Option.some.inj hc).symm
  have htext : authorityText scheme (some info) (host ++ str ":" ++ d ++ (p.path ++ p.tail)) =
      Front.text (.authority scheme info host) ++ str ":" ++ d ++ (p.path ++ p.tail) := by
    simp [authorityText, Front.text]
  have hparse := parse_host_port hscheme hinfo hhost hd
    (k := p.path ++ p.tail) fun c hc => hhead' c hc ▸ by decide
  rw [← htext] at hparse
  by_cases hlen : d.length < 5
  · rw [if_pos hlen, parsePath_tail hp] at hparse
    have hsmall : decimal d < 10 ^ 4 :=
      Nat.lt_of_lt_of_le (decimal_lt hd) (Nat.pow_le_pow_right (by decide) (Nat.le_of_lt_succ hlen))
    constructor
    · intro h
      exact absurd (h.parts hparse).1 (portAfter_ne hne hd hlen)
    · intro h
      omega
  · have hslash : ((p.path ++ p.tail).head?.any fun c => 128 ≤ c) = false := by
      rw [List.head?_append, hhead]
      rfl
    rw [if_neg hlen, hslash, if_neg Bool.false_ne_true] at hparse
    have hreject : ∀ u, parse (authorityText scheme (some info)
        (host ++ str ":" ++ d ++ (p.path ++ p.tail))) ≠ some (u, true) := by
      intro u hu
      rw [hparse] at hu
      cases hu
    constructor
    · intro h
      by_contra hle
      obtain ⟨u, hu⟩ := h.accepted.mpr (Nat.le_of_not_lt hle)
      exact hreject u hu
    · intro h
      refine ⟨⟨?_, fun hle => ?_⟩, fun hu => absurd hu (hreject _)⟩
      · rintro ⟨u, hu⟩
        exact absurd hu (hreject u)
      · omega

/-- Without one, host and port are the first component of the path. -/
theorem portRead_none (hbare : p.front = .bare) :
    PortRead scheme none host d (p.path ++ p.tail) ↔
      host = [] ∧ decimal d = 0 ∧ FilePath.LeavesRoot p.path := by
  have hdigit : ∀ c ∈ d, isInSet pcharSlash c = some true ∧ c ∉ str "%@/" := fun c hc =>
    forall_byte (P := fun c => isdigit c = true → isInSet pcharSlash c = some true ∧ c ∉ str "%@/")
      (by decide +kernel) c (hd c hc)
  have hdchars : Chars pcharSlash d := by
    clear hd
    induction d with
    | nil => exact .nil
    | cons c d ih =>
        rw [List.forall_mem_cons] at hdigit
        refine .char hdigit.1.1 ?_ (ih hdigit.2)
        rintro rfl
        exact hdigit.1.2 (by decide)
  have hcolon : Chars pcharSlash (str ":" ++ d) := .char (by decide) (by decide) hdchars
  have hat : ch '@' ∉ host ++ (str ":" ++ d) := by
    rw [List.mem_append, List.mem_append, not_or, not_or]
    exact ⟨hhost.notMem (by decide) (by decide), by decide, fun h => (hdigit _ h).2 (by decide)⟩
  have hslash : ch '/' ∉ str ":" ++ d := by
    rw [List.mem_append, not_or]
    exact ⟨by decide, fun h => (hdigit _ h).2 (by decide)⟩
  have hhostPath : Chars pcharSlash host := hhost.mono fun c h => pcharSlash_of (by simp [h])
  have hparse := parse_unread hscheme hat (hhostPath.append hcolon) hp hhead
  rw [show host ++ (str ":" ++ d) ++ (p.path ++ p.tail) =
    host ++ str ":" ++ d ++ (p.path ++ p.tail) by simp] at hparse
  have hfirst := FilePath.assign_first (c := str ":" ++ d) (by simp [str]) hslash
    (fun h => absurd (List.cons.inj h).1 (by decide))
    (fun h => absurd (List.cons.inj h).1 (by decide)) hhead
  have hk : parse (p.path ++ p.tail) = some (p.uri, true) := by
    have htext : p.text = p.path ++ p.tail := by
      rw [Parts.text, hbare]
      rfl
    exact htext ▸ parse_text hp
  constructor
  · intro h
    obtain ⟨hport, hhost, hpath⟩ := h.parts hparse
    obtain rfl : [] = host := hhost
    exact ⟨rfl, hport.symm, hfirst.mp (hpath _ hk)⟩
  · rintro ⟨rfl, hzero, hroot⟩
    refine ⟨⟨fun _ => by omega, fun _ => ⟨_, hparse⟩⟩, fun hu => ?_⟩
    rw [hparse] at hu
    obtain ⟨rfl, -⟩ := Prod.mk.inj (Option.some.inj hu)
    refine ⟨hzero.symm, rfl, fun u' hu' => ?_⟩
    rw [hk] at hu'
    obtain ⟨rfl, -⟩ := Prod.mk.inj (Option.some.inj hu')
    exact hfirst.mpr hroot

end

/-- **When a port is read right.** -/
theorem portRead_iff {scheme host d k : Str} {userinfo : Option Str} (hscheme : IsScheme scheme)
    (hinfo : ∀ info ∈ userinfo, Chars userinfoChar info) (hhost : Chars regnameChar host)
    (hne : d ≠ []) (hd : ∀ c ∈ d, isdigit c = true) (hslash : k.head? = some (ch '/'))
    (hk : ∃ u, parse k = some (u, true)) :
    PortRead scheme userinfo host d k ↔
      userinfo ≠ none ∧ 65535 < decimal d ∨
      userinfo = none ∧ host = [] ∧ decimal d = 0 ∧ FilePath.LeavesRoot (pathPart k) := by
  obtain ⟨uk, hk⟩ := hk
  obtain ⟨p, hp, hbare, rfl, hhead⟩ := parts_of_slash hslash hk
  rw [pathPart_append hp]
  cases userinfo with
  | some info =>
      rw [portRead_some hscheme hhost hd hp hhead (hinfo info rfl) hne]
      simp
  | none =>
      rw [portRead_none hscheme hhost hd hp hhead hbare]
      simp

theorem portRead_sample :
    PortRead (str "ldap") (some (str "reader")) (str "ldap.example.org") (str "70000")
      (str "/ou=people") := by
  have hinfo : ∀ info ∈ some (str "reader"), Chars userinfoChar info := by
    intro info hi
    obtain rfl := Option.some.inj hi
    exact .of_checkCharSet (by decide +kernel)
  have hk : ∃ u, parse (str "/ou=people") = some (u, true) :=
    ⟨{ clear with path := ⟨false, [str "ou=people"]⟩ }, by decide +kernel⟩
  exact (portRead_iff isScheme_ldap hinfo (.of_checkCharSet (by decide +kernel)) (by decide)
    (by decide +kernel) rfl hk).mpr (Or.inl ⟨by decide, by decide +kernel⟩)

/-- The port 389 is read as 1110. -/
theorem port_not_read :
    ¬ PortRead (str "ldap") (some (str "reader")) (str "ldap.example.org") (str "389")
      (str "/ou=people") := by
  intro h
  have hread : parse (authorityText (str "ldap") (some (str "reader"))
      (str "ldap.example.org" ++ str ":" ++ str "389" ++ str "/ou=people")) =
      some ({ clear with
        scheme := str "ldap"
        userinfo := str "reader"
        host := str "ldap.example.org"
        port := 1110
        path := ⟨false, [str "ou=people"]⟩ }, true) := by
    decide +kernel
  exact absurd (h.parts hread).1 (by decide +kernel)

/-! ## Literals -/

/-- The literal `host` is read from between the brackets and printed there again. -/
def LiteralRead (scheme : Str) (userinfo : Option Str) (host k : Str) : Prop :=
  ∃ u, parse (authorityText scheme userinfo (str "[" ++ host ++ str "]" ++ k)) = some (u, true) ∧
    u.host = host ∧ u.path = .assign k ∧ (str "[" ++ host ++ str "]") <:+: u.toStr

/-- Behind a user information a literal throws. -/
theorem parse_literal {scheme info : Str} (hscheme : IsScheme scheme)
    (hinfo : Chars userinfoChar info) (host k : Str) :
    parse (authorityText scheme (some info) (str "[" ++ host ++ str "]" ++ k)) = none := by
  have htext : authorityText scheme (some info) (str "[" ++ host ++ str "]" ++ k) =
      Front.text (.authority scheme info []) ++ ch '[' :: (host ++ ch ']' :: k) := by
    simp [authorityText, Front.text, str]
  rw [htext, parse_bracket hscheme hinfo, if_pos (by simp)]

/-- Without one, the path ends at the bracket. -/
theorem parse_bracket_unread {scheme : Str} (hscheme : IsScheme scheme) (rest : Str) :
    parse (authorityText scheme none (ch '[' :: rest)) =
      some ({ clear with scheme, path := .assign (str "//") }, false) := by
  have htext : authorityText scheme none (ch '[' :: rest) =
      scheme ++ ch ':' :: (str "//" ++ ch '[' :: rest) := by
    simp [authorityText, str]
  have hinfo : skipCharSet userinfoChar (ch '[' :: rest) = some ([], ch '[' :: rest) :=
    stops_of_not_mem (by decide) rest
  have hpath : skipCharSet pcharSlash (str "//" ++ ch '[' :: rest) =
      some (str "//", ch '[' :: rest) :=
    skipCharSet_of_stops (.of_checkCharSet (by decide +kernel)) (stops_of_not_mem (by decide) rest)
  rw [htext, parse_authority hscheme, parseAuthority_none hinfo
    (fun q' h => absurd (List.cons.inj h).1 (by decide)), Option.bind_some, parseBehind, parsePath,
    hpath]
  rfl

/-- **No literal is read.** -/
theorem literal_not_read {scheme host : Str} {userinfo : Option Str} (hscheme : IsScheme scheme)
    (hinfo : ∀ info ∈ userinfo, Chars userinfoChar info) (k : Str) :
    ¬ LiteralRead scheme userinfo host k := by
  rintro ⟨u, hu, -⟩
  cases userinfo with
  | some info =>
      rw [parse_literal hscheme (hinfo info rfl)] at hu
      cases hu
  | none =>
      have htext : str "[" ++ host ++ str "]" ++ k = ch '[' :: (host ++ str "]" ++ k) := by
        simp [str]
      rw [htext, parse_bracket_unread hscheme] at hu
      cases hu

theorem literal_not_read_sample :
    validIpv6 (str "::1") = true ∧
      ¬ LiteralRead (str "ldap") none (str "::1") (str "/ou=people") :=
  ⟨by decide +kernel, literal_not_read isScheme_ldap (by simp) _⟩

/-- The address of the loopback interface throws behind a user information. -/
theorem loopback_not_read :
    ¬ LiteralRead (str "ldap") (some (str "reader")) (str "::1") (str "/ou=people") := by
  rintro ⟨u, hu, -⟩
  rw [show parse _ = none by decide +kernel] at hu
  cases hu

end URI

end Undervest
