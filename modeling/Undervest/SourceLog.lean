import Undervest.Source
import Undervest.UriRoundTrip

/-!
# The log of a source

A message about a source shows its URI, in which three stars replace the user
information.  The URI is parsed for that, and the result of the parser is
ignored.

The user information is found when all its characters are legal and an `@`
follows.  Then nothing of it is shown (`logText_of_legal`).  Otherwise the scan
stops at the first character that is not legal, the two slashes and what was
scanned are taken for a path, and the path is shown (`logText_of_illegal`).
-/

namespace Undervest

namespace URI

/-- A URI as it is shown in the log. -/
def masked (u : URI) : Str :=
  (if u.userinfo ≠ [] then (u.setUserinfo (str "***")).1 else u).toStr

end URI

namespace Source

open URI

/-- The text that `Source::log` emits, `none` when it throws. -/
def logText (source : Source) (msg : Str) : Option Str :=
  if source.uri.length = 0 then some msg
  else (parse source.uri).map fun r => str "URI: " ++ masked r.1 ++ str ", " ++ msg

/-- The text of a URI with a user information. -/
def uriText (scheme info rest : Str) : Str := scheme ++ str "://" ++ info ++ str "@" ++ rest

/-- The legal characters a user information starts with. -/
def legalPrefix (info : Str) : Str :=
  match skipCharSet userinfoChar info with
  | none => []
  | some (t, _) => t

/-- What is shown of a user information that is not legal. -/
def leaked (info : Str) : Str :=
  let t := legalPrefix info
  if t = str "." ∨ t = str ".." then [] else t

/-- The characters that delimit a user information. -/
def Undelimited (info : Str) : Prop :=
  ch '/' ∉ info ∧ ch '?' ∉ info ∧ ch '#' ∉ info ∧ ch '@' ∉ info

theorem logText_uriText {scheme : Str} (hs : IsScheme scheme) (info rest loader msg : Str) :
    logText ⟨uriText scheme info rest, loader⟩ msg =
      ((parseAuthority scheme (str "//" ++ (info ++ ch '@' :: rest))).bind parseBehind).map
        fun r => str "URI: " ++ masked r.1 ++ str ", " ++ msg := by
  have htext : uriText scheme info rest =
      scheme ++ ch ':' :: (str "//" ++ (info ++ ch '@' :: rest)) := by
    simp [uriText, str]
  have hne : (uriText scheme info rest).length ≠ 0 := by simp [htext]
  rw [logText, if_neg hne]
  simp only [htext, parse_authority hs]

/-! ## Legal user information -/

theorem masked_eq {u : URI} (h : u.userinfo ≠ []) :
    masked u = { u with userinfo := str "***" }.toStr := by
  have hvalid : validUserinfo (str "***") = true := by decide +kernel
  rw [masked, if_pos h, setUserinfo, if_neg (by simp [hvalid])]
  rfl

theorem parsePath_map_congr {u u' : URI} {g : URI → Str}
    (h : ∀ path query fragment,
      g { u with path, query, fragment } = g { u' with path, query, fragment }) (p : Str) :
    (parsePath u p).map (fun r => g r.1) = (parsePath u' p).map fun r => g r.1 := by
  simp only [parsePath, Option.map_bind, Option.map_map, Function.comp_def, h]

/-- Nothing is shown of a user information that is legal. -/
theorem logText_of_legal {scheme a b : Str} (hs : IsScheme scheme) (ha : Chars userinfoChar a)
    (hb : Chars userinfoChar b) (hane : a ≠ []) (hbne : b ≠ []) (rest loader msg : Str) :
    logText ⟨uriText scheme a rest, loader⟩ msg = logText ⟨uriText scheme b rest, loader⟩ msg := by
  rw [logText_uriText hs, logText_uriText hs, parseAuthority_at ha, parseAuthority_at hb]
  unfold parseHost
  split
  next => rfl
  next =>
    cases skipCharSet regnameChar rest with
    | none => rfl
    | some host =>
        simp only [Option.bind_some]
        split
        next => rfl
        next =>
          cases parsePort host.2 with
          | none => rfl
          | some port =>
              cases port with
              | none => rfl
              | some port =>
                  refine parsePath_map_congr
                    (g := fun u => str "URI: " ++ masked u ++ str ", " ++ msg)
                    (fun path query fragment => ?_) port.2
                  simp only [masked_eq, hane, hbne, ne_eq, not_false_eq_true]
                  rfl

/-! ## Illegal user information -/

/-- A scan of a path stops where a scan of a user information stops, unless a
slash or an `@` stands there. -/
theorem stops_pcharSlash {c : Byte} {p : Str} (h : Stops userinfoChar (c :: p))
    (hslash : c ≠ ch '/') (hat : c ≠ ch '@') : Stops pcharSlash (c :: p) := by
  rw [stops_cons] at h ⊢
  cases h with
  | inl h =>
      rw [isInSet_eq_some] at h
      refine Or.inl (isInSet_eq_some.mpr ⟨h.1, ?_⟩)
      have hreg : regnameChar c = false := by
        have hu := h.2
        simp only [userinfoChar, Bool.or_eq_false_iff] at hu
        simp only [regnameChar, Bool.or_eq_false_iff]
        refine ⟨hu.1, ?_⟩
        have hp : c ≠ ch '%' := by
          rintro rfl
          exact absurd hu.2 (by decide)
        simpa [makeCharSet, str] using hp
      by_contra hp
      rcases pcharSlash_diff (by simpa using hp) hreg with rfl | rfl | rfl
      · exact absurd h.2 (by decide)
      · exact hat rfl
      · exact hslash rfl
  | inr h => exact Or.inr ⟨h.2.1 ▸ by decide, h.2⟩

/-- The path that is made of the two slashes and a piece behind them. -/
theorem assign_piece {t : Str} (h : ch '/' ∉ t) :
    FilePath.assign (str "//" ++ t) =
      ⟨false, if t = [] ∨ t = str "." ∨ t = str ".." then [] else [t]⟩ := by
  have hsplit : FilePath.splitLoop (str "//" ++ t).length (str "//" ++ t) =
      if t = [] then [] else [t] := by
    change FilePath.splitLoop (t.length + 2) (ch '/' :: ch '/' :: t) = _
    rw [FilePath.splitLoop_slash, FilePath.splitLoop_slash]
    split
    next ht => rw [ht]; rfl
    next ht =>
        have := FilePath.splitLoop_piece ht h (Or.inl rfl) (t.length + 1)
        rw [List.append_nil] at this
        rw [this]
        rfl
  have hrel : ((str "//" ++ t).head? != some (ch '/')) = false := rfl
  rw [FilePath.assign, hsplit, hrel]
  by_cases ht : t = []
  · rw [if_pos ht, if_pos (Or.inl ht)]
    rfl
  · simp only [ht, if_false, false_or, FilePath.normalize, List.foldl_cons, List.foldl_nil,
      FilePath.normalizeTurn]
    split_ifs <;> simp_all

/-- Of a user information that is not legal, the log shows where it starts. -/
theorem logText_of_illegal {scheme a : Str} (hs : IsScheme scheme) (ha : ∀ c ∈ a, c < 128)
    (hd : Undelimited a) (hillegal : ¬ Chars userinfoChar a) (rest loader msg : Str) :
    logText ⟨uriText scheme a rest, loader⟩ msg =
      some (str "URI: " ++ (scheme ++ str ":///" ++ leaked a) ++ str ", " ++ msg) := by
  obtain ⟨t, q, hscan⟩ := skipCharSet_ascii userinfoChar ha
  obtain ⟨rfl, ht, hq⟩ := skipCharSet_eq_some hscan
  have hqne : q ≠ [] := by
    rintro rfl
    rw [List.append_nil] at hillegal
    exact hillegal ht
  obtain ⟨c, q, rfl⟩ := List.exists_cons_of_ne_nil hqne
  obtain ⟨hslash, hquery, hfragment, hat⟩ := hd
  have hc : ∀ d, d ∉ t ++ c :: q → c ≠ d := by
    rintro d hd rfl
    exact hd (by simp)
  have hstop := hq.append hqne (d := ch '@') (by decide) rest
  have hinfo : skipCharSet userinfoChar ((t ++ c :: q) ++ ch '@' :: rest) =
      some (t, (c :: q) ++ ch '@' :: rest) := by
    rw [List.append_assoc]
    exact skipCharSet_of_stops ht hstop
  have hnoat : ∀ q', (c :: q) ++ ch '@' :: rest ≠ ch '@' :: q' := fun q' he =>
    hc _ hat (List.cons.inj he).1
  have hpath : skipCharSet pcharSlash (str "//" ++ ((t ++ c :: q) ++ ch '@' :: rest)) =
      some (str "//" ++ t, (c :: q) ++ ch '@' :: rest) := by
    have hchars : Chars pcharSlash (str "//" ++ t) :=
      .char (by decide) (by decide) (.char (by decide) (by decide)
        (ht.mono fun _ hc => pcharSlash_of (by simp [hc])))
    have := skipCharSet_of_stops hchars (stops_pcharSlash hstop (hc _ hslash) (hc _ hat))
    simpa using this
  have hpart : ∀ mark, mark ≠ 0 → mark ∉ t ++ c :: q →
      parsePart mark ((c :: q) ++ ch '@' :: rest) = some ([], (c :: q) ++ ch '@' :: rest) := by
    intro mark hmark hm
    have : ¬ charAt ((c :: q) ++ ch '@' :: rest) 0 = mark := fun he => hc _ hm he
    rw [parsePart, if_neg this]
  rw [logText_uriText hs, parseAuthority_none hinfo hnoat, Option.bind_some, parseBehind, parsePath,
    hpath, Option.bind_some, hpart _ (by decide) hquery, Option.bind_some,
    hpart _ (by decide) hfragment, Option.map_some, Option.map_some]
  have hleaked : leaked (t ++ c :: q) = if t = str "." ∨ t = str ".." then [] else t := by
    rw [leaked, legalPrefix, hscan]
  have hpiece := assign_piece (t := t) fun hm => hslash (by simp [hm])
  have hjoin : FilePath.join (if t = [] ∨ t = str "." ∨ t = str ".." then [] else [t]) =
      leaked (t ++ c :: q) := by
    rw [hleaked]
    by_cases hdots : t = str "." ∨ t = str ".."
    · rw [if_pos (Or.inr hdots), if_pos hdots]
      rfl
    · rw [if_neg hdots]
      split
      next hn => exact (hn.resolve_right hdots).symm
      next => rfl
  rw [masked, if_neg (by simp [clear]), toStr_eq .nil rfl (FilePath.assign_normal _), hpiece]
  simp only [hjoin]
  simp [clear, hs.ne_nil, hostText, nonempty, marked, str]

/-! ## What the log hides -/

theorem toStr_stars {u : URI} (h : u.scheme ≠ []) :
    ∃ y, { u with userinfo := str "***" }.toStr = u.scheme ++ str "://" ++ ch '*' :: y := by
  have hstars : str "***" ≠ [] := by decide
  rw [toStr]
  simp only [h, hstars, ne_eq, not_false_eq_true, if_true, true_or, List.append_assoc]
  exact ⟨_, rfl⟩

/-- The text for a legal user information has no third slash. -/
theorem logText_legal_ne {scheme a : Str} (hs : IsScheme scheme) (ha : Chars userinfoChar a)
    (hne : a ≠ []) (rest loader msg y : Str) :
    logText ⟨uriText scheme a rest, loader⟩ msg ≠
      some (str "URI: " ++ (scheme ++ str ":///" ++ y) ++ str ", " ++ msg) := by
  intro h
  rw [logText_uriText hs, parseAuthority_at ha] at h
  obtain ⟨r, hr, htext⟩ := Option.map_eq_some_iff.mp h
  simp only [List.append_assoc, List.append_cancel_left_eq] at htext
  cases parseHost_fields hr with
  | inl hclear =>
      rw [hclear, show masked clear = [] by decide +kernel] at htext
      exact hs.append_ne rfl _ _ htext.symm
  | inr hfields =>
      obtain ⟨hscheme, hinfo, -⟩ := hfields
      obtain ⟨y', hy⟩ := toStr_stars (u := r.1) (hscheme ▸ hs.ne_nil)
      rw [masked_eq (hinfo ▸ hne), hy, hscheme, List.append_assoc, List.append_assoc,
        List.append_cancel_left_eq] at htext
      exact absurd (List.cons.inj (List.cons.inj (List.cons.inj (List.cons.inj htext).2).2).2).1
        (by decide)

/-- **What the log hides of a user information.**  Two of them are shown alike when
both are legal, or when neither is and both start with the same legal
characters. -/
theorem logText_eq_iff {scheme a b : Str} (hs : IsScheme scheme) (ha : a ≠ []) (hb : b ≠ [])
    (ha7 : ∀ c ∈ a, c < 128) (hb7 : ∀ c ∈ b, c < 128) (had : Undelimited a) (hbd : Undelimited b)
    (rest loader msg : Str) :
    logText ⟨uriText scheme a rest, loader⟩ msg = logText ⟨uriText scheme b rest, loader⟩ msg ↔
      (Chars userinfoChar a ∧ Chars userinfoChar b) ∨
        (¬ Chars userinfoChar a ∧ ¬ Chars userinfoChar b ∧ leaked a = leaked b) := by
  by_cases hla : Chars userinfoChar a
  · by_cases hlb : Chars userinfoChar b
    · exact iff_of_true (logText_of_legal hs hla hlb ha hb rest loader msg) (Or.inl ⟨hla, hlb⟩)
    · rw [logText_of_illegal hs hb7 hbd hlb]
      exact iff_of_false (logText_legal_ne hs hla ha rest loader msg _) (by simp [hla, hlb])
  · rw [logText_of_illegal hs ha7 had hla]
    by_cases hlb : Chars userinfoChar b
    · exact iff_of_false (fun h => logText_legal_ne hs hlb hb rest loader msg _ h.symm)
        (by simp [hla, hlb])
    · rw [logText_of_illegal hs hb7 hbd hlb]
      simp [hla, hlb]

theorem logText_eq_iff_sample :
    logText ⟨uriText (str "ldap") (str "cn=joe:pw") (str "host/dc=x"), str "ldap"⟩ (str "down") =
      logText ⟨uriText (str "ldap") (str "cn=ann:key") (str "host/dc=x"), str "ldap"⟩
        (str "down") :=
  (logText_eq_iff isScheme_ldap (by decide) (by decide) (ascii_of_all (by decide))
    (ascii_of_all (by decide)) ⟨by decide, by decide, by decide, by decide⟩
    ⟨by decide, by decide, by decide, by decide⟩ _ _ _).mpr
    (Or.inl ⟨.of_checkCharSet (by decide +kernel), .of_checkCharSet (by decide +kernel)⟩)

/-- A blank in the user information brings what stands before it into the log. -/
theorem blank_leaks_user :
    IsScheme (str "ldap") ∧ Undelimited (str "joe smith:pw") ∧ Undelimited (str "ann smith:pw") ∧
      (∀ c ∈ str "joe smith:pw", c < 128) ∧ (∀ c ∈ str "ann smith:pw", c < 128) ∧
      logText ⟨uriText (str "ldap") (str "joe smith:pw") (str "host/"), str "ldap"⟩ (str "down") =
        some (str "URI: ldap:///joe, down") ∧
      logText ⟨uriText (str "ldap") (str "ann smith:pw") (str "host/"), str "ldap"⟩ (str "down") =
        some (str "URI: ldap:///ann, down") ∧
      str "URI: ldap:///joe, down" ≠ str "URI: ldap:///ann, down" :=
  ⟨isScheme_ldap, ⟨by decide, by decide, by decide, by decide⟩,
    ⟨by decide, by decide, by decide, by decide⟩, ascii_of_all (by decide),
    ascii_of_all (by decide), by decide +kernel, by decide +kernel, by decide⟩

end Source

end Undervest
