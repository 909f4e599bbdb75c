import Undervest.UriText
import Undervest.Lib.PercentEncoding

/-!
# The credentials of an LDAP source

The URI of an LDAP source may hold the name and the password to bind with, as its
user information.  `openSource` takes them out and hands the URI without them to
the LDAP library.

The user information is split at its first colon, and each part is unescaped.  A
user information without a colon has neither a user nor a password for the parser,
and the loader then takes the whole of it for the name.

A byte that is not unreserved is percent-encoded in the URI, the colon and the `@`
included, so the split finds the colon between the two parts.  Unescaping then
gives back the bytes whatever encoding was chosen (`openSource_encoded`).
-/

namespace Undervest

open PercentEncoding

namespace Ldap

open URI

/-! ## Opening a source -/

/-- What a source is bound with. -/
structure Credentials where
  binddn : Str
  password : Str
deriving DecidableEq, Repr

/-- `openSource`, up to the LDAP library: the credentials and the URI without them.
It throws when there is no URI, or when the URI cannot be parsed. -/
def openSource (uri : Str) : Option (Credentials × Str) :=
  if uri.length = 0 then none
  else
    (parse uri).bind fun r =>
      if r.2 = false then none
      else
        let u := r.1
        let h : Credentials :=
          if u.user = [] ∧ u.password = [] then ⟨unescape u.userinfo, []⟩
          else ⟨u.user, u.password⟩
        some (h, (u.setUserinfo []).1.toStr)

/-! ## Unescaping -/

theorem hexdigit_of_hexDigit {c : Byte} {n : Nat} (h : HexDigit c n) :
    isInSet hex c = some true ∧ hexdigit c = UInt8.ofNat n :=
  h.all (P := fun c n => isInSet hex c = some true ∧ hexdigit c = UInt8.ofNat n)
    (by decide) (by decide)

/-- Two digits make a byte. -/
theorem hexdigits_byte {h l : Byte} {m n : Nat} (hh : HexDigit h m) (hl : HexDigit l n) :
    (hexdigit h <<< 4) ||| hexdigit l = UInt8.ofNat (16 * m + n) := by
  have hall : ∀ m < 16, ∀ n < 16,
      (UInt8.ofNat m <<< 4) ||| UInt8.ofNat n = UInt8.ofNat (16 * m + n) := by decide
  rw [(hexdigit_of_hexDigit hh).2, (hexdigit_of_hexDigit hl).2]
  exact hall m hh.lt n hl.lt

theorem unescape_of_ne {c : Byte} (hc : c ≠ ch '%') (p : Str) :
    unescape (c :: p) = c :: unescape p := by
  match p with
  | [] => rfl
  | [_] => rfl
  | h :: l :: p => rw [unescape, if_neg (fun e => hc e.1)]

theorem unescape_escape {h l : Byte} {m n : Nat} (hh : HexDigit h m) (hl : HexDigit l n)
    (p : Str) : unescape (ch '%' :: h :: l :: p) = UInt8.ofNat (16 * m + n) :: unescape p := by
  have hh' := (isInSet_eq_some.mp (hexdigit_of_hexDigit hh).1).2
  have hl' := (isInSet_eq_some.mp (hexdigit_of_hexDigit hl).1).2
  rw [unescape, if_pos ⟨rfl, hh', hl'⟩, hexdigits_byte hh hl]

/-- The percent-encodings of a text, in which unreserved characters may stand for
themselves. -/
abbrev Encoded (s e : Str) : Prop := Encodes unreserved s e

/-- Unescaping undoes every encoding. -/
theorem unescape_encoded {s e : Str} (h : Encoded s e) : unescape e = s :=
  h.decode rfl (fun _ p hc => unescape_of_ne hc p)
    (fun _ _ _ _ p hh hl => unescape_escape hh hl p) (by decide)

theorem unreserved_userinfo (c : Byte) (hc : unreserved c = true) :
    isInSet userinfoChar c = some true ∧ c ≠ ch '%' ∧ c ≠ ch ':' := by
  revert hc
  exact forall_byte (P := fun c => unreserved c = true →
    isInSet userinfoChar c = some true ∧ c ≠ ch '%' ∧ c ≠ ch ':') (by decide +kernel) c

/-- An encoding is a legal user information without a colon. -/
theorem chars_of_encoded {s e : Str} (h : Encoded s e) :
    Chars userinfoChar e ∧ ch ':' ∉ e := by
  have hdigit : ∀ {c : Byte} {n : Nat}, HexDigit c n → ch ':' ≠ c := by
    rintro c n hc rfl
    exact absurd (hexdigit_of_hexDigit hc).1 (by decide)
  induction h with
  | nil => exact ⟨.nil, List.not_mem_nil⟩
  | @plain c s e hc _ ih =>
      obtain ⟨hset, hpercent, hcolon⟩ := unreserved_userinfo c hc
      refine ⟨.char hset hpercent ih.1, ?_⟩
      rw [List.mem_cons, not_or]
      exact ⟨hcolon.symm, ih.2⟩
  | @escape c h l m n s e hh hl _ _ ih =>
      refine ⟨.escape (by decide) (hexdigit_of_hexDigit hh).1 (hexdigit_of_hexDigit hl).1 ih.1, ?_⟩
      simp only [List.mem_cons, not_or]
      exact ⟨by decide, hdigit hh, hdigit hl, ih.2⟩

/-! ## What is extracted -/

/-- The text of a URI with a user information, a host and an absolute path. -/
def ldapText (info host path : Str) : Str :=
  str "ldap://" ++ info ++ str "@" ++ host ++ str "/" ++ path

/-- A source with a legal user information is opened. -/
theorem openSource_eq {info host path : Str} (hinfo : Chars userinfoChar info)
    (hhost : Chars regnameChar host) (hpath : Chars pcharSlash path) :
    (openSource (ldapText info host path)).map Prod.fst =
      some (if (splitUserinfo info).1 = [] ∧ (splitUserinfo info).2 = [] then ⟨unescape info, []⟩
        else ⟨(splitUserinfo info).1, (splitUserinfo info).2⟩) := by
  have hwell : Parts.WellFormed
      ⟨.authority (str "ldap") info host, ch '/' :: path, none, none⟩ :=
    ⟨⟨isScheme_ldap, hinfo, hhost, by simp⟩, .char (by decide) (by decide) hpath, by simp, by simp⟩
  have htext : Parts.text ⟨.authority (str "ldap") info host, ch '/' :: path, none, none⟩ =
      ldapText info host path := by
    simp [Parts.text, Front.text, Parts.tail, marked, ldapText, str]
  have hparse := parse_text hwell
  rw [htext] at hparse
  have hne : (ldapText info host path).length ≠ 0 := by simp [ldapText, str]
  rw [openSource, if_neg hne, hparse]
  rfl

/-- **The credentials are the bytes that were encoded.**  With a colon between them
the name and the password come back, and without one the whole is the name. -/
theorem openSource_encoded {dn pw e₁ e₂ host path : Str} (h₁ : Encoded dn e₁)
    (h₂ : Encoded pw e₂) (hhost : Chars regnameChar host) (hpath : Chars pcharSlash path) :
    (¬ (dn = [] ∧ pw = []) →
      (openSource (ldapText (e₁ ++ str ":" ++ e₂) host path)).map Prod.fst = some ⟨dn, pw⟩) ∧
    (dn ≠ [] → (openSource (ldapText e₁ host path)).map Prod.fst = some ⟨dn, []⟩) := by
  obtain ⟨hchars₁, hcolon₁⟩ := chars_of_encoded h₁
  obtain ⟨hchars₂, -⟩ := chars_of_encoded h₂
  constructor
  · intro hne
    have hinfo : e₁ ++ str ":" ++ e₂ = e₁ ++ ch ':' :: e₂ := by simp [str]
    have hchars : Chars userinfoChar (e₁ ++ ch ':' :: e₂) :=
      hchars₁.append (.char (by decide) (by decide) hchars₂)
    have hsplit : splitUserinfo (e₁ ++ ch ':' :: e₂) = (dn, pw) := by
      rw [splitUserinfo, find_append e₂ hcolon₁]
      simp [unescape_encoded h₁, unescape_encoded h₂]
    rw [hinfo, openSource_eq hchars hhost hpath, hsplit, if_neg hne]
  · intro hne
    have hsplit : splitUserinfo e₁ = ([], []) := by
      rw [splitUserinfo, find, List.findIdx?_eq_none_iff.mpr]
      intro c hc
      rw [beq_eq_false_iff_ne]
      rintro rfl
      exact hcolon₁ hc
    rw [openSource_eq hchars₁ hhost hpath, hsplit, if_pos ⟨rfl, rfl⟩, unescape_encoded h₁]

theorem openSource_encoded_sample :
    (openSource (ldapText (str "a%40" ++ str ":" ++ str "%3a") (str "host") (str "dc=x"))).map
      Prod.fst = some ⟨str "a@", str ":"⟩ := by
  have hname : Encoded (str "a@") (str "a%40") :=
    .plain (by decide) (.escape (m := 4) (n := 0) (Or.inl rfl) (Or.inl rfl) rfl .nil)
  have hpassword : Encoded (str ":") (str "%3a") :=
    .escape (m := 3) (n := 10) (Or.inl rfl) (Or.inl rfl) rfl .nil
  exact (openSource_encoded hname hpassword (.of_checkCharSet (by decide +kernel))
    (.of_checkCharSet (by decide +kernel))).1 (by decide)

end Ldap

end Undervest
