import Undervest.UriText

/-!
# URIs that are printed and parsed again

A URI that was parsed is printed with two slashes in front of an absolute path,
without an empty user information, and with its path normalised.  `reprint` is
the parts of the text that comes out, where it has the same parts.

`Parts.Reprintable` says when it has.  A relative path must not start like a
scheme, the host behind an empty user information must be empty too, and behind
another one the host must not be printed in brackets and a relative path must
start with an `@`.  These parts come back (`parse_toStr`), and no others do
(`not_agree`).
-/

namespace Undervest

namespace URI

/-! ## Printing -/

/-- A normalised path has the characters of a path. -/
theorem chars_join {path : Str} (h : Chars pcharSlash path) :
    Chars pcharSlash (FilePath.join (FilePath.assign path).components) := by
  have hsplit : ∀ (turns : Nat) (path : Str), Chars pcharSlash path →
      ∀ c ∈ FilePath.splitLoop turns path, Chars pcharSlash c := by
    intro turns
    induction turns with
    | zero => simp [FilePath.splitLoop]
    | succ turns ih =>
        intro path h c hc
        rw [FilePath.splitLoop] at hc
        split at hc
        next => cases hc
        next b p hb =>
            have hp := hb ▸ h.split.1
            exact (List.mem_cons.mp hc).elim (fun hc => hc ▸ hp.split.2.1) (ih _ hp.split.2.2 c)
  have hcomponents : ∀ c ∈ (FilePath.assign path).components, Chars pcharSlash c := by
    intro c hc
    cases FilePath.mem_foldl_normalizeTurn (List.mem_reverse.mp hc) with
    | inl hc => cases hc
    | inr hc => exact hsplit _ _ h c hc
  generalize (FilePath.assign path).components = components at hcomponents
  induction components with
  | nil => exact .nil
  | cons c rest ih =>
      obtain ⟨hc, hrest⟩ := List.forall_mem_cons.mp hcomponents
      by_cases hr : rest = []
      · rw [hr]
        exact hc
      · rw [FilePath.join_cons hr]
        exact hc.append (.char (by decide) (by decide) (ih hrest))

/-- A part is printed when it is not empty. -/
def nonempty (s : Str) : Option Str := if s = [] then none else some s

namespace Parts

/-- The path of the URI these parts are read as. -/
def filePath (p : Parts) : FilePath := .assign p.path

/-- The parts of the text that the URI is printed as. -/
def reprint (p : Parts) : Parts where
  front :=
    match p.front with
    | .authority s [] _ => .scheme s
    | front => front
  path :=
    if p.filePath.relative then FilePath.join p.filePath.components
    else
      match p.front with
      | .authority _ (_ :: _) _ => ch '/' :: FilePath.join p.filePath.components
      | _ => str "//" ++ ch '/' :: FilePath.join p.filePath.components
  query := nonempty (p.query.getD [])
  fragment := nonempty (p.fragment.getD [])

/-- The parts come back from the text that the URI is printed as. -/
def Reprintable (p : Parts) : Prop :=
  match p.front with
  | .bare => p.filePath.relative = true → ∀ c ∈ p.filePath.components.head?, ¬ SchemeLike c
  | .scheme _ => True
  | .authority _ [] host => host = []
  | .authority _ (_ :: _) host =>
      validFuture host = false ∧
        (p.filePath.relative = true → ∀ c ∈ p.filePath.components.head?, c.head? = some (ch '@'))

end Parts

/-- Without a colon there are not enough groups. -/
theorem validIpv6_of_notMem {host : Str} (h : ch ':' ∉ host) : validIpv6 host = false := by
  have hloop : ∀ (p : Str), ch ':' ∉ p → ∀ v q, ipv6Loop [] false 0 v q p = false := by
    intro p
    induction p with
    | nil => intro _ v q; simp [ipv6Loop, ipv6End]
    | cons c p ih =>
        intro hc v q
        obtain ⟨hne, hp⟩ := not_or.mp (mt List.mem_cons.mpr hc)
        rw [ipv6Loop]
        split
        next =>
          split
          next => rfl
          next => exact ih hp _ _
        next =>
          rw [if_neg (Ne.symm hne)]
          split
          next => rfl
          next =>
            split
            next => rfl
            next => simp [ipv6End]
  have hstart : (charAt host 0 == ch ':' && charAt host 1 == ch ':') = false := by
    rw [Bool.and_eq_false_iff, beq_eq_false_iff_ne]
    refine Or.inl fun hc => ?_
    obtain ⟨p, rfl⟩ := (charAt_eq (by decide)).mp hc
    exact h (List.mem_cons_self ..)
  have hend : (str "::").isSuffixOf host = false := by
    rw [Bool.eq_false_iff]
    intro hs
    exact h ((List.isSuffixOf_iff_suffix.mp hs).mem (by decide))
  rw [validIpv6, hstart]
  simp only [Bool.false_eq_true, if_false, hend]
  exact hloop host h _ _

/-- How a host is printed. -/
def hostText (host : Str) : Str :=
  if host ≠ [] then if validFuture host then str "[" ++ host ++ str "]" else host else []

theorem hostText_eq {host : Str} (h : validFuture host = false) : hostText host = host := by
  unfold hostText
  split <;> simp_all

theorem marked_nonempty (mark : Byte) (s : Str) :
    marked mark (nonempty s) = if s ≠ [] then [mark] ++ s else [] := by
  unfold nonempty
  split <;> simp_all [marked]

theorem pathText_eq {f : FilePath} (h : f.Normal) :
    (if f.components ≠ [] ∨ f.relative = false then f.get else []) =
      (if f.relative then [] else [ch '/']) ++ FilePath.join f.components := by
  obtain ⟨relative, components⟩ := f
  by_cases hc : components = []
  · subst hc
    cases relative <;> rfl
  · rw [if_pos (Or.inl hc), FilePath.get]
    cases relative with
    | false => exact (FilePath.getAs_absolute false rfl hc).trans (by simp)
    | true =>
        exact (FilePath.getAs_relative false rfl hc fun c hc => (h.piece c hc).1).trans (by simp)

theorem toStr_eq {u : URI} (hhost : Chars regnameChar u.host) (hport : u.port = 0)
    (hpath : u.path.Normal) :
    u.toStr =
      (if u.scheme ≠ [] then u.scheme ++ [ch ':'] else []) ++
      ((if u.userinfo ≠ [] ∨ u.host ≠ [] ∨ u.path.relative = false then
        str "//" ++ (if u.userinfo ≠ [] then u.userinfo ++ str "@" else []) ++ hostText u.host
      else []) ++
      ((if u.path.relative then [] else [ch '/']) ++ FilePath.join u.path.components ++
        (marked (ch '?') (nonempty u.query) ++ marked (ch '#') (nonempty u.fragment)))) := by
  have hcolon : ch ':' ∉ u.host := hhost.notMem rfl rfl
  have hip := validIpv6_of_notMem hcolon
  rw [toStr, pathText_eq hpath, marked_nonempty, marked_nonempty]
  simp only [hport, hip, hostText, ne_eq, not_true_eq_false, false_or, Bool.false_or, if_false,
    List.append_nil, List.append_assoc]
  rfl

namespace Parts

variable {p : Parts}

theorem filePath_normal (p : Parts) : p.filePath.Normal := FilePath.assign_normal p.path

/-- How the URI of some parts is printed. -/
theorem toStr_uri (h : p.WellFormed) :
    p.uri.toStr =
      (if p.front.uri.scheme ≠ [] then p.front.uri.scheme ++ [ch ':'] else []) ++
      ((if p.front.uri.userinfo ≠ [] ∨ p.front.uri.host ≠ [] ∨ p.filePath.relative = false then
        str "//" ++ (if p.front.uri.userinfo ≠ [] then p.front.uri.userinfo ++ str "@" else []) ++
          hostText p.front.uri.host
      else []) ++
      ((if p.filePath.relative then [] else [ch '/']) ++
        FilePath.join p.filePath.components ++ p.reprint.tail)) := by
  have hu : Chars regnameChar p.uri.host ∧ p.uri.port = 0 := by
    have hfits := h.front
    cases hf : p.front with
    | bare => simp only [uri, hf]; exact ⟨.nil, rfl⟩
    | scheme s => simp only [uri, hf]; exact ⟨.nil, rfl⟩
    | authority s info host =>
        rw [hf] at hfits
        simp only [uri, hf]
        exact ⟨hfits.2.2.1, rfl⟩
  exact toStr_eq hu.1 hu.2 p.filePath_normal

/-- The URI is printed as the text of the parts `reprint`. -/
theorem toStr_reprint (h : p.WellFormed) (hr : p.Reprintable) : p.uri.toStr = p.reprint.text := by
  have hfits := h.front
  rw [toStr_uri h, text]
  unfold Reprintable at hr
  cases hf : p.front with
  | bare =>
      cases hrel : p.filePath.relative <;>
        simp [reprint, hf, hrel, Front.uri, Front.text, clear, hostText, tail]
  | scheme s =>
      rw [hf] at hfits
      have hne := hfits.1.ne_nil
      cases hrel : p.filePath.relative <;>
        simp [reprint, hf, hrel, hne, Front.uri, Front.text, clear, hostText, tail, str]
  | authority s info host =>
      rw [hf] at hfits hr
      have hne := hfits.1.ne_nil
      cases info with
      | nil =>
          obtain rfl : host = [] := hr
          cases hrel : p.filePath.relative <;>
            simp [reprint, hf, hrel, hne, Front.uri, Front.text, clear, hostText, tail, str]
      | cons i info =>
          cases hrel : p.filePath.relative <;>
            simp [reprint, hf, hrel, hne, Front.uri, Front.text, clear, hostText_eq hr.1, tail, str]

/-- What is printed is normalised again to the same path. -/
theorem reprint_filePath (p : Parts) : p.reprint.filePath = p.filePath := by
  have hn := p.filePath_normal
  cases hrel : p.filePath.relative with
  | true =>
      have : p.reprint.path = FilePath.join p.filePath.components := by simp [reprint, hrel]
      rw [filePath, this]
      exact FilePath.assign_join hn hrel
  | false =>
      have : p.reprint.path = List.replicate 1 (ch '/') ++ FilePath.join p.filePath.components ∨
          p.reprint.path = List.replicate 3 (ch '/') ++ FilePath.join p.filePath.components := by
        simp only [reprint, hrel, Bool.false_eq_true, if_false]
        split
        next => exact Or.inl rfl
        next => exact Or.inr rfl
      rw [filePath]
      cases this with
      | inl h => rw [h]; exact FilePath.assign_slashes hn hrel 0
      | inr h => rw [h]; exact FilePath.assign_slashes hn hrel 2

theorem getD_nonempty (s : Str) : (nonempty s).getD [] = s := by
  unfold nonempty
  split <;> simp_all

/-- The parts `reprint` are read as the same URI. -/
theorem reprint_uri (hr : p.Reprintable) : p.reprint.uri = p.uri := by
  have hfront : p.reprint.front.uri = p.front.uri := by
    unfold Reprintable at hr
    rw [reprint]
    cases hf : p.front with
    | bare => rfl
    | scheme s => rfl
    | authority s info host =>
        rw [hf] at hr
        cases info with
        | nil =>
            obtain rfl : host = [] := hr
            rfl
        | cons i info => rfl
  have hpath : FilePath.assign p.reprint.path = FilePath.assign p.path := p.reprint_filePath
  rw [uri, uri, hfront, hpath]
  simp only [reprint, getD_nonempty]

theorem chars_nonempty {q : Option Str} (h : ∀ s ∈ q, Chars queryChar s) :
    ∀ s ∈ nonempty (q.getD []), Chars queryChar s := by
  intro s hs
  cases q with
  | none => simp [nonempty] at hs
  | some t =>
      have ht := h t rfl
      unfold nonempty at hs
      split at hs
      next => cases hs
      next => exact Option.some.inj hs ▸ ht

/-- A relative path that is printed first is not taken for a scheme. -/
theorem not_schemeLike_join {f : FilePath} (hc : ∀ c ∈ f.components.head?, ¬ SchemeLike c) :
    ¬ SchemeLike (FilePath.join f.components) := by
  rintro ⟨s, rest, hs, he⟩
  have hslash : ch '/' ∉ s := hs.chars.notMem rfl rfl
  cases hf : f.components with
  | nil =>
      rw [hf] at he
      exact absurd (congrArg List.length he) (by simp [FilePath.join])
  | cons c cs =>
      rw [hf] at he
      obtain ⟨y, hjoin, hy⟩ := FilePath.join_eq_append c cs
      rw [hjoin] at he
      obtain ⟨rest', hrest⟩ := split_before
        (fun b hb => by rw [hy b hb]; exact ⟨hslash, by decide⟩) he
      exact hc c (by simp [hf]) ⟨s, rest', hs, hrest⟩

/-- What is printed in front of the path is read again. -/
theorem reprint_fits (h : p.WellFormed) (hr : p.Reprintable) :
    p.reprint.front.Fits p.reprint.path := by
  have hn := p.filePath_normal
  have hhead := FilePath.join_head hn.piece
  have hfits := h.front
  unfold Reprintable at hr
  have hscheme : ∀ s, IsScheme s → Front.Fits (.scheme s)
      (if p.filePath.relative then FilePath.join p.filePath.components
        else str "//" ++ ch '/' :: FilePath.join p.filePath.components) := by
    intro s hs
    refine ⟨hs, fun info rest hinfo he => ?_⟩
    split at he
    next =>
      rw [he] at hhead
      exact (hhead (ch '/') rfl).1 rfl
    next =>
      rw [List.append_cancel_left_eq] at he
      cases info with
      | nil => exact absurd (List.cons.inj he).1 (by decide)
      | cons b info =>
          obtain rfl := (List.cons.inj he).1
          exact hinfo.notMem rfl rfl (List.mem_cons_self ..)
  cases hf : p.front with
  | bare =>
      rw [hf] at hr
      simp only [reprint, hf]
      split
      next hrel => exact not_schemeLike_join (hr hrel)
      next =>
        rintro ⟨s, rest, hs, he⟩
        exact hs.append_ne rfl _ _ he.symm
  | scheme s =>
      rw [hf] at hfits
      simp only [reprint, hf]
      exact hscheme s hfits.1
  | authority s info host =>
      rw [hf] at hfits hr
      cases info with
      | nil =>
          simp only [reprint, hf]
          exact hscheme s hfits.1
      | cons i info =>
          simp only [reprint, hf]
          refine ⟨hfits.1, hfits.2.1, hfits.2.2.1, fun c hc => ?_⟩
          split at hc
          next hrel =>
            obtain ⟨d, hd, hcd⟩ := (hhead c hc).2
            rw [hr.2 hrel d hd] at hcd
            exact Or.inr (Option.some.inj hcd).symm
          next => exact Or.inl (Option.some.inj hc).symm

theorem reprint_wellFormed (h : p.WellFormed) (hr : p.Reprintable) : p.reprint.WellFormed where
  front := reprint_fits h hr
  path := by
    have hjoin := chars_join h.path
    have hslash : ∀ {s : Str}, Chars pcharSlash s → Chars pcharSlash (ch '/' :: s) :=
      .char (by decide) (by decide)
    simp only [reprint]
    split
    next => exact hjoin
    next =>
      split
      next => exact hslash hjoin
      next => exact hslash (hslash (hslash hjoin))
  query := chars_nonempty h.query
  fragment := chars_nonempty h.fragment

/-- Reprintable parts come back. -/
theorem parse_toStr (h : p.WellFormed) (hr : p.Reprintable) :
    parse p.uri.toStr = some (p.uri, true) := by
  rw [toStr_reprint h hr, parse_text (reprint_wellFormed h hr), reprint_uri hr]

end Parts

/-! ## Parts that do not come back -/

/-- What is read behind the two slashes. -/
theorem parseAuthority_eq_some {s p : Str} {u : URI}
    (h : (parseAuthority s (str "//" ++ p)).bind parseBehind = some (u, true)) :
    u.scheme = s ∧ (u.host ≠ [] → ∃ rest, p = u.userinfo ++ ch '@' :: rest) := by
  obtain ⟨a, ha, -⟩ := Option.bind_eq_some_iff.mp h
  obtain ⟨⟨info, q⟩, hinfo, -⟩ := Option.bind_eq_some_iff.mp ha
  replace hinfo : skipCharSet userinfoChar p = some (info, q) := hinfo
  obtain ⟨rfl, hchars, -⟩ := skipCharSet_eq_some hinfo
  by_cases hat : ∃ q', q = ch '@' :: q'
  · obtain ⟨q, rfl⟩ := hat
    rw [parseAuthority_at hchars] at h
    obtain ⟨host, q', port, rest, -, -, -, -, h⟩ := parseHost_eq_some h
    obtain ⟨-, -, -, -, -, -, rfl⟩ := parsePath_eq_some h .bare
    exact ⟨rfl, fun _ => ⟨_, rfl⟩⟩
  · rw [parseAuthority_none hinfo fun q' hq' => hat ⟨q', hq'⟩] at h
    obtain ⟨-, -, -, -, -, -, rfl⟩ :=
      parsePath_eq_some (show parsePath _ _ = some (u, true) from h) .bare
    exact ⟨rfl, fun hne => absurd rfl hne⟩

/-- A text that starts like a scheme is read with that scheme. -/
theorem scheme_of_parse {s p : Str} {u : URI} (hs : IsScheme s)
    (h : parse (s ++ ch ':' :: p) = some (u, true)) : u.scheme = s := by
  by_cases hslash : ∃ p', p = str "//" ++ p'
  · obtain ⟨p, rfl⟩ := hslash
    rw [parse_authority hs] at h
    exact (parseAuthority_eq_some h).1
  · rw [parse_scheme hs fun p' hp => hslash ⟨p', hp⟩] at h
    obtain ⟨-, -, -, -, -, -, rfl⟩ := parsePath_eq_some h .bare
    rfl

/-- All components agree, the port apart. -/
structure Agree (u u' : URI) : Prop where
  scheme : u'.scheme = u.scheme
  userinfo : u'.userinfo = u.userinfo
  user : u'.user = u.user
  password : u'.password = u.password
  host : u'.host = u.host
  path : u'.path = u.path
  query : u'.query = u.query
  fragment : u'.fragment = u.fragment

namespace Parts

variable {p : Parts} {u : URI}

/-- A path that would extend the host in front of it is read as another one. -/
theorem path_ne_of_colon {j rest : Str} (q p' : Parts) {digits : Str} {f : FilePath}
    (hjoin : FilePath.join f.components = ch ':' :: j)
    (he : j ++ q.tail = digits ++ rest) (hdigits : ∀ c ∈ digits, isdigit c = true)
    (hrest : rest = p'.path ++ p'.tail) (hchars : Chars pcharSlash p'.path) : p'.filePath ≠ f := by
  intro hpath
  -- all that was read of the path stands behind the colon
  obtain ⟨a, ha⟩ : ∃ a, j = (digits ++ p'.path) ++ a := by
    rw [hrest, ← List.append_assoc] at he
    rcases List.append_eq_append_iff.mp he with ⟨a, ha, hb⟩ | ⟨a, ha, -⟩
    · cases a with
      | nil => exact ⟨[], by rw [ha]; simp⟩
      | cons m a =>
          have hmark := tail_head hb
          have hm : m ∈ digits ++ p'.path := by rw [ha]; simp
          cases List.mem_append.mp hm with
          | inl hm =>
              have := hdigits m hm
              rcases hmark with rfl | rfl <;> exact absurd this (by decide)
          | inr hm =>
              have := hchars.mem m hm
              rcases hmark with rfl | rfl <;> exact absurd this (by decide)
    · exact ⟨a, ha⟩
  have hcount : f.components.flatten.countP (· != ch '/') ≤ j.countP (· != ch '/') := by
    rw [← hpath]
    refine ((FilePath.assign_sublist p'.path).countP_le ..).trans ?_
    rw [ha, List.countP_append, List.countP_append]
    omega
  rw [← FilePath.countP_join, hjoin, List.countP_cons] at hcount
  simp only [show (ch ':' != ch '/') = true by decide, if_true] at hcount
  omega

/-- A host in brackets is not accepted. -/
theorem parseHost_bracket {s info q : Str} :
    (parseHost s info (ch '[' :: q)).bind parseBehind ≠ some (u, true) := by
  intro h
  rw [parseHost, if_pos (show charAt (ch '[' :: q) 0 = ch '[' from rfl)] at h
  split at h
  next => cases h
  next => cases h

/-- The first component of a relative path starts its text. -/
theorem join_of_head {f : FilePath} {c : Str} (h : c ∈ f.components.head?) :
    ∃ y, FilePath.join f.components = c ++ y := by
  obtain ⟨rest, hc⟩ := List.head?_eq_some_iff.mp h
  obtain ⟨y, hjoin, -⟩ := FilePath.join_eq_append c rest
  exact ⟨y, hc ▸ hjoin⟩

/-- How a URI with an authority is printed. -/
theorem toStr_authority (h : p.WellFormed) {s info host : Str}
    (hf : p.front = .authority s info host) (hne : info ≠ [] ∨ host ≠ []) :
    p.uri.toStr = s ++ ch ':' :: (str "//" ++ ((if info ≠ [] then info ++ [ch '@'] else []) ++
      (hostText host ++ ((if p.filePath.relative then [] else [ch '/']) ++
        FilePath.join p.filePath.components ++ p.reprint.tail)))) := by
  have hscheme : s ≠ [] := by
    have hfits := h.front
    rw [hf] at hfits
    exact hfits.1.ne_nil
  rw [toStr_uri h, hf]
  simp only [Front.uri, hscheme, ne_eq, not_false_eq_true, if_true, ← or_assoc, hne, true_or,
    List.append_assoc, List.singleton_append]
  rfl

/-- **Parts that are not reprintable do not come back.** -/
theorem not_agree (h : p.WellFormed) (hr : ¬ p.Reprintable)
    (hu : parse p.uri.toStr = some (u, true)) : ¬ Agree p.uri u := by
  intro hag
  have hfits := h.front
  unfold Reprintable at hr
  cases hf : p.front with
  | bare =>
      -- the first component is read as a scheme
      rw [hf] at hr
      rw [toStr_uri h, hf] at hu
      simp only [not_forall, not_not] at hr
      obtain ⟨hrel, c, hc, s, rest, hs, rfl⟩ := hr
      obtain ⟨y, hy⟩ := join_of_head hc
      have hscheme : p.uri.scheme = [] := by
        rw [uri, hf]
        rfl
      simp only [Front.uri, clear, hrel, hy, ne_eq, not_true_eq_false, if_false, or_self,
        Bool.true_eq_false, List.nil_append, if_true, List.append_assoc, List.cons_append] at hu
      have := hag.scheme
      rw [scheme_of_parse hs hu, hscheme] at this
      exact hs.ne_nil this
  | scheme s =>
      rw [hf] at hr
      exact hr trivial
  | authority s info host =>
      have hinfo' : u.userinfo = info ∧ u.host = host := by
        rw [hag.userinfo, hag.host, uri, hf]
        exact ⟨rfl, rfl⟩
      rw [hf] at hr hfits
      obtain ⟨hscheme, hinfo, hhost, -⟩ := hfits
      cases info with
      | nil =>
          -- the host is read as a part of the path
          have hr : host ≠ [] := hr
          rw [toStr_authority h hf (Or.inr hr), parse_authority hscheme] at hu
          obtain ⟨rest, hrest⟩ := (parseAuthority_eq_some hu).2 (hinfo'.2 ▸ hr)
          rw [hinfo'.1] at hrest
          obtain ⟨b, host, rfl⟩ := List.exists_cons_of_ne_nil hr
          have hb := hhost.mem b (List.mem_cons_self ..)
          simp only [ne_eq, not_true_eq_false, if_false, List.nil_append, hostText, reduceCtorEq,
            not_false_eq_true, if_true] at hrest
          split at hrest
          next => exact absurd (List.cons.inj hrest).1 (by decide)
          next =>
            obtain rfl := (List.cons.inj hrest).1
            exact absurd hb (by decide)
      | cons i info =>
          rw [toStr_authority h hf (Or.inl (List.cons_ne_nil i info)), parse_authority hscheme,
            if_pos (List.cons_ne_nil i info), List.append_assoc, List.singleton_append,
            parseAuthority_at hinfo] at hu
          cases hfuture : validFuture host with
          | true =>
              have hne : host ≠ [] := by
                rintro rfl
                exact absurd hfuture (by decide)
              rw [hostText, if_pos hne, if_pos hfuture] at hu
              exact parseHost_bracket hu
          | false =>
              -- the path extends the host, or it is read as a port
              simp only [hfuture, true_and, not_forall] at hr
              obtain ⟨hrel, c, hc, hat⟩ := hr
              rw [hrel, if_pos rfl, List.nil_append, hostText_eq hfuture] at hu
              obtain ⟨host', q, port, rest, he, -, hstop, hport, hu⟩ := parseHost_eq_some hu
              obtain ⟨p', -, hrest, hchars, -, -, rfl⟩ := parsePath_eq_some hu .bare
              obtain rfl : host' = host := hinfo'.2
              rw [List.append_cancel_left_eq] at he
              have hn := p.filePath_normal
              have hjoin := chars_join h.path
              have hhead := FilePath.join_head hn.piece
              obtain ⟨rest', hcons⟩ := List.head?_eq_some_iff.mp hc
              obtain ⟨y, hy⟩ := join_of_head hc
              obtain ⟨b, c, rfl⟩ := List.exists_cons_of_ne_nil (hn.piece c (by simp [hcons])).1
              change Chars pcharSlash (FilePath.join p.filePath.components) at hjoin
              rw [hy] at he hjoin hhead
              rw [← he] at hstop hport
              rcases head_of_ends hjoin hstop.ends with rfl | rfl | rfl
              · obtain ⟨digits, hdigits, hd⟩ := parsePort_colon hport
                exact path_ne_of_colon p.reprint p' hy hdigits hd hrest hchars hag.path
              · exact hat rfl
              · exact (hhead _ rfl).1 rfl

end Parts

/-- **Which accepted texts come back.**  A URI that is printed and parsed again is
the same when its parts are reprintable. -/
theorem parse_toStr_iff {s : Str} {u : URI} (h : parse s = some (u, true)) (hport : NoPort s) :
    (∃ u', parse u.toStr = some (u', true) ∧ Agree u u') ↔
      ∃ p : Parts, p.WellFormed ∧ p.text = s ∧ p.Reprintable := by
  obtain ⟨p, hp, rfl, rfl⟩ := parts_of_parse h hport
  constructor
  · rintro ⟨u', hu, hag⟩
    by_contra hn
    exact Parts.not_agree hp (fun hr => hn ⟨p, hp, rfl, hr⟩) hu hag
  · rintro ⟨p', hp', ht, hr⟩
    rw [← ht, parse_text hp', Option.some.injEq, Prod.mk.injEq] at h
    rw [← h.1, Parts.parse_toStr hp' hr]
    exact ⟨_, rfl, ⟨rfl, rfl, rfl, rfl, rfl, rfl, rfl, rfl⟩⟩

/-- A host with a colon behind it needs a second colon. -/
theorem noPort_of_count {s : Str} (h : s.count (ch ':') < 2) : NoPort s := by
  rintro scheme info host rest - - - rfl
  have h1 : (str "://").count (ch ':') = 1 := by decide
  have h2 : (str ":").count (ch ':') = 1 := by decide
  simp only [List.count_append, h1, h2] at h
  omega

theorem parse_toStr_iff_sample :
    ∃ p : Parts, p.WellFormed ∧ p.text = str "ldap://cn=x@host/dc=y?mail" ∧ p.Reprintable := by
  have heval : (parse (str "ldap://cn=x@host/dc=y?mail")).map
      (fun r => (r.2, decide (parse r.1.toStr = some r))) = some (true, true) := by decide +kernel
  obtain ⟨⟨u, b⟩, hu, hr⟩ := Option.map_eq_some_iff.mp heval
  obtain ⟨rfl, hr⟩ := Prod.mk.inj hr
  exact (parse_toStr_iff hu (noPort_of_count (by decide))).mp
    ⟨u, of_decide_eq_true hr, ⟨rfl, rfl, rfl, rfl, rfl, rfl, rfl, rfl⟩⟩

/-- An empty user information is not printed, and then the host is not read. -/
theorem empty_userinfo_moves_host :
    ∃ u, parse (str "ldap://@host/dc=y") = some (u, true) ∧
      (∀ c ∈ str "ldap://@host/dc=y", c < 128) ∧ NoPort (str "ldap://@host/dc=y") ∧
      ch '[' ∉ str "ldap://@host/dc=y" ∧
      ¬ ∃ u', parse u.toStr = some (u', true) ∧ Agree u u' := by
  have heval : (parse (str "ldap://@host/dc=y")).map
      (fun r => (r.2, decide ((parse r.1.toStr).map (fun r' => r'.1.host) ≠ some r.1.host))) =
        some (true, true) := by decide +kernel
  obtain ⟨⟨u, b⟩, hu, hr⟩ := Option.map_eq_some_iff.mp heval
  obtain ⟨rfl, hr⟩ := Prod.mk.inj hr
  refine ⟨u, hu, ascii_of_all (by decide), noPort_of_count (by decide), by decide, ?_⟩
  rintro ⟨u', hu', hag⟩
  exact of_decide_eq_true hr (by rw [hu', Option.map_some, hag.host])

end URI

end Undervest
