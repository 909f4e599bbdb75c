import Undervest.UriPositions
import Undervest.UriText

/-!
# What the parser throws at

A scan throws at a byte above 127, and at one behind a `%` where an escape is
tested.  The parser throws where one of its scans does, and at a bracketed host
behind a user information.  `ParseThrows` is the grammar of these texts: a lead, a
part of what follows it, and such a byte; or a literal; or a port that is too
large with such a byte at its end (`parse_eq_none`).

`unescape` throws at a `%` with such a byte only (`HasBadEscape`).

On positions nothing else goes wrong: no read is behind the terminating NUL, and
every loop ends (`safe_iff`).
-/

namespace Undervest

namespace URI

/-! ## Path, query and fragment -/

/-- A query or a fragment of legal characters, or none. -/
abbrev LegalPart (q : Option Str) : Prop := ∀ t ∈ q, Chars queryChar t

theorem legalPart_none : LegalPart none := by simp [LegalPart]

theorem legalPart_some {q : Str} (h : Chars queryChar q) : LegalPart (some q) := by
  simpa [LegalPart] using h

/-- Where path, query and fragment throw. -/
structure PathThrows (path : Str) (query fragment : Option Str) (r : Str) : Prop where
  path : Chars pcharSlash path
  query : LegalPart query
  fragment : LegalPart fragment
  rest : Throws r

/-- The text up to the place where the parser throws, and the rest. -/
def throwText (path : Str) (query fragment : Option Str) (r : Str) : Str :=
  path ++ (marked (ch '?') query ++ (marked (ch '#') fragment ++ r))

theorem parsePart_eq_none {mark : Byte} (hmark : mark ≠ 0) {p : Str} (h : parsePart mark p = none) :
    ∃ q r, p = mark :: (q ++ r) ∧ Chars queryChar q ∧ Throws r := by
  unfold parsePart at h
  split at h
  next hc =>
    obtain ⟨p, rfl⟩ := (charAt_eq hmark).mp hc
    obtain ⟨q, r, hp, hq, hr⟩ := skipCharSet_eq_none h
    exact ⟨q, r, congrArg (mark :: ·) hp, hq, hr⟩
  next => cases h

/-- A part throws where its scan does. -/
theorem parsePart_throws {mark : Byte} {q r : Str} (hq : Chars queryChar q) (hr : Throws r) :
    parsePart mark (mark :: (q ++ r)) = none := by
  have hc : charAt (mark :: (q ++ r)) 0 = mark := rfl
  rw [parsePart, if_pos hc, List.drop_succ_cons, List.drop_zero, skipCharSet_append hq,
    hr.skipCharSet (by decide), Option.map_none]

theorem pathThrows_of_parsePath {u : URI} {s : Str} (h : parsePath u s = none) :
    ∃ path query fragment r, PathThrows path query fragment r ∧
      s = throwText path query fragment r := by
  unfold parsePath at h
  cases hpath : skipCharSet pcharSlash s with
  | none =>
      obtain ⟨path, r, rfl, hchars, hr⟩ := skipCharSet_eq_none hpath
      exact ⟨path, none, none, r, ⟨hchars, legalPart_none, legalPart_none, hr⟩, rfl⟩
  | some path =>
      obtain ⟨rfl, hchars, -⟩ := skipCharSet_eq_some (t := path.1) (q := path.2) hpath
      rw [hpath, Option.bind_some] at h
      cases hquery : parsePart (ch '?') path.2 with
      | none =>
          obtain ⟨q, r, hp, hq, hr⟩ := parsePart_eq_none (by decide) hquery
          refine ⟨path.1, some q, none, r, ⟨hchars, legalPart_some hq, legalPart_none, hr⟩, ?_⟩
          rw [hp]
          rfl
      | some query =>
          rw [hquery, Option.bind_some] at h
          obtain ⟨q, hp, hq, -⟩ := parsePart_eq_some (by decide)
            (show parsePart (ch '?') path.2 = some (query.1, query.2) from hquery)
          obtain ⟨f, r, hf, hchars', hr⟩ :=
            parsePart_eq_none (by decide) (Option.map_eq_none_iff.mp h)
          refine ⟨path.1, q, some f, r, ⟨hchars, hq, legalPart_some hchars', hr⟩, ?_⟩
          rw [hp, hf]
          rfl

theorem parsePath_of_pathThrows {path : Str} {query fragment : Option Str} {r : Str}
    (h : PathThrows path query fragment r) (u : URI) :
    parsePath u (throwText path query fragment r) = none := by
  unfold throwText parsePath
  -- the last part that is there throws
  cases fragment with
  | some f =>
      have hf : parsePart (ch '#') (ch '#' :: (f ++ r)) = none :=
        parsePart_throws (h.fragment f rfl) h.rest
      have hstop : Stops queryChar (ch '#' :: (f ++ r)) := stops_of_not_mem (by decide) _
      have hquery := parsePart_marked (by decide) h.query hstop
        fun p hp => absurd (List.cons.inj hp).1 (by decide : ch '#' ≠ ch '?')
      have hpath : Stops pcharSlash (marked (ch '?') query ++ ch '#' :: (f ++ r)) := by
        cases query with
        | none => exact stops_of_not_mem (by decide) _
        | some q => exact stops_of_not_mem (by decide) _
      rw [show marked (ch '#') (some f) ++ r = ch '#' :: (f ++ r) from rfl,
        skipCharSet_of_stops h.path hpath, Option.bind_some, hquery, Option.bind_some, hf,
        Option.map_none]
  | none =>
      cases query with
      | some q =>
          rw [show marked (ch '?') (some q) ++ (marked (ch '#') none ++ r) = ch '?' :: (q ++ r)
              from rfl,
            skipCharSet_of_stops h.path (stops_of_not_mem (by decide) _), Option.bind_some,
            parsePart_throws (h.query q rfl) h.rest, Option.bind_none]
      | none =>
          rw [show marked (ch '?') none ++ (marked (ch '#') none ++ r) = r from rfl,
            skipCharSet_append h.path, h.rest.skipCharSet (by decide), Option.map_none,
            Option.bind_none]

/-! ## The parser -/

/-- The texts at which the parser throws. -/
inductive ParseThrows : Str → Prop where
  /-- A literal behind a user information. -/
  | bracket {s info p : Str} : IsScheme s → Chars userinfoChar info → ch ']' ∈ p →
      ParseThrows (Front.text (.authority s info []) ++ ch '[' :: p)
  /-- A byte above 127 behind a port that is too large. -/
  | port {s info host d k : Str} {c : Byte} : IsScheme s → Chars userinfoChar info →
      Chars regnameChar host → (∀ c ∈ d, isdigit c = true) → 5 ≤ d.length → 128 ≤ c →
      ParseThrows (Front.text (.authority s info host) ++ str ":" ++ d ++ c :: k)
  /-- Such a byte, or one in an escape, behind a text that is read to its end. -/
  | path {l : Lead} {path : Str} {query fragment : Option Str} {r : Str} :
      l.Before (throwText path query fragment r) → PathThrows path query fragment r →
      ParseThrows (l.text ++ throwText path query fragment r)

/-- No digit is above 127. -/
theorem head_not_digit {c : Byte} (h : 128 ≤ c) (k : Str) :
    ∀ b ∈ (c :: k).head?, isdigit b = false := by
  intro b hb
  obtain rfl := Option.some.inj hb
  exact forall_byte (P := fun c => 128 ≤ c → isdigit c = false) (by decide +kernel) c h

/-- **When the parser throws.** -/
theorem parse_eq_none {s : Str} : parse s = none ↔ ParseThrows s := by
  constructor
  · intro h
    cases reading s with
    | bracket p hs hinfo =>
        rw [parse_bracket hs hinfo] at h
        split at h
        next hmem => exact .bracket hs hinfo hmem
        next => cases h
    | large hs hinfo hhost hd hlen hk =>
        rw [parse_host_port hs hinfo hhost hd hk, if_neg (Nat.not_lt.mpr hlen)] at h
        split at h
        next hc =>
          obtain ⟨c, hmem, hle⟩ := (Option.any_eq_true _ _).mp hc
          obtain ⟨k, rfl⟩ := List.head?_eq_some_iff.mp hmem
          exact .port hs hinfo hhost hd hlen (of_decide_eq_true hle)
        next => cases h
    | lead hbefore =>
        rw [parse_lead hbefore] at h
        obtain ⟨path, query, fragment, r, hthrows, rfl⟩ := pathThrows_of_parsePath h
        exact .path hbefore hthrows
  · rintro (⟨hs, hinfo, hmem⟩ | ⟨hs, hinfo, hhost, hd, hlen, hc⟩ | ⟨hbefore, hthrows⟩)
    · rw [parse_bracket hs hinfo, if_pos hmem]
    · rw [parse_host_port hs hinfo hhost hd (head_not_digit hc _), if_neg (Nat.not_lt.mpr hlen)]
      exact if_pos (decide_eq_true hc)
    · rw [parse_lead hbefore, parsePath_of_pathThrows hthrows]

/-- **What goes wrong on positions.** -/
theorem safe_iff (s : Str) :
    ((∃ r, Positions.parse s = .ok r) ↔ ¬ ParseThrows s) ∧
      ((∃ t, Positions.unescape s = .ok t) ↔ ¬ Positions.HasBadEscape s) ∧
      ∀ f, Positions.parse s = .error f ∨ Positions.unescape s = .error f → f = .raised := by
  have hparse : parse s = none → Positions.parse s = .error .raised := by
    intro h
    rw [Positions.parse_eq, h]
    rfl
  refine ⟨⟨?_, fun h => ?_⟩, ⟨?_, fun h => ⟨_, Positions.unescape_ok h⟩⟩, ?_⟩
  · rintro ⟨r, hr⟩ hthrows
    rw [hparse (parse_eq_none.mpr hthrows)] at hr
    cases hr
  · obtain ⟨r, hr⟩ := Option.ne_none_iff_exists'.mp (mt parse_eq_none.mp h)
    exact ⟨r, by rw [Positions.parse_eq, hr]; rfl⟩
  · rintro ⟨t, ht⟩ hbad
    rw [Positions.unescape_raised hbad] at ht
    cases ht
  · rintro f (hf | hf)
    · rw [Positions.parse_eq] at hf
      cases hp : parse s with
      | none =>
          rw [hp] at hf
          exact (Except.error.inj hf).symm
      | some r =>
          rw [hp] at hf
          cases hf
    · by_cases hbad : Positions.HasBadEscape s
      · rw [Positions.unescape_raised hbad] at hf
        exact (Except.error.inj hf).symm
      · rw [Positions.unescape_ok hbad] at hf
        cases hf

/-- A byte above 127 in a path throws. -/
theorem high_byte_throws :
    ¬ ∃ r, Positions.parse (str "ldap:/" ++ [0xE9]) = .ok r := by
  rintro ⟨r, h⟩
  rw [show Positions.parse (str "ldap:/" ++ [0xE9]) = .error .raised by decide +kernel] at h
  cases h

end URI

end Undervest
