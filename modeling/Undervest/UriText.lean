import Undervest.UriFront

/-!
# The texts of URIs

`Parts` is a URI as it is written: what stands in front of the path, the path,
and query and fragment with their marks.  `Parts.WellFormed` says which texts
are accepted.

The parser accepts the texts of well-formed parts, and returns `Parts.uri`
(`parse_text`).  It accepts nothing else, apart from a port (`parts_of_parse`).
-/

namespace Undervest

namespace URI

/-! ## Parts -/

/-- The parts of a URI as they are written. -/
structure Parts where
  front : Front
  path : Str
  query : Option Str
  fragment : Option Str

/-- A part behind its mark. -/
def marked (mark : Byte) : Option Str → Str
  | none => []
  | some s => mark :: s

/-- The parser stops where the front ends. -/
def Front.Fits : Front → Str → Prop
  | .bare, path => ¬ SchemeLike path
  | .scheme s, path =>
      IsScheme s ∧ ∀ info rest, Chars userinfoChar info →
        path ≠ str "//" ++ (info ++ ch '@' :: rest)
  | .authority s info host, path =>
      IsScheme s ∧ Chars userinfoChar info ∧ Chars regnameChar host ∧
        ∀ c ∈ path.head?, c = ch '/' ∨ c = ch '@'

namespace Parts

/-- Query and fragment with their marks. -/
def tail (p : Parts) : Str := marked (ch '?') p.query ++ marked (ch '#') p.fragment

def text (p : Parts) : Str := p.front.text ++ (p.path ++ p.tail)

/-- The URI these parts are read as. -/
def uri (p : Parts) : URI :=
  { p.front.uri with
    path := .assign p.path
    query := p.query.getD []
    fragment := p.fragment.getD [] }

structure WellFormed (p : Parts) : Prop where
  front : p.front.Fits p.path
  path : Chars pcharSlash p.path
  query : ∀ q ∈ p.query, Chars queryChar q
  fragment : ∀ q ∈ p.fragment, Chars queryChar q

end Parts

/-! ## Texts in front of a mark -/

/-- A character that stands in front of some text stands before its first
character. -/
theorem split_before {x y t rest : Str} {d : Byte} (hy : ∀ c ∈ y.head?, c ∉ t ∧ c ≠ d)
    (he : x ++ y = t ++ d :: rest) : ∃ rest', x = t ++ d :: rest' := by
  rcases List.append_eq_append_iff.mp he with ⟨a, ha, hb⟩ | ⟨a, ha, hb⟩
  · cases a with
    | nil => exact absurd rfl (hy d (by simp [hb])).2
    | cons m a => exact absurd (by simp [ha]) (hy m (by simp [hb])).1
  · cases a with
    | nil => exact absurd rfl (hy d (by rw [show y = d :: rest from hb.symm]; rfl)).2
    | cons b a =>
        obtain rfl := (List.cons.inj hb).1
        exact ⟨a, ha⟩

/-- The set has none of the two marks, which are no digits either. -/
def NoMark (cs : CharSet) : Prop := cs (ch '?') = false ∧ cs (ch '#') = false

namespace Parts

/-- Behind the path comes nothing or a mark. -/
theorem tail_head {p : Parts} {c : Byte} {rest : Str} (h : p.tail = c :: rest) :
    c = ch '?' ∨ c = ch '#' := by
  unfold tail at h
  cases hq : p.query with
  | some q =>
      rw [hq] at h
      exact Or.inl (List.cons.inj h).1.symm
  | none =>
      rw [hq] at h
      cases hf : p.fragment with
      | some q =>
          rw [hf] at h
          exact Or.inr (List.cons.inj h).1.symm
      | none =>
          rw [hf] at h
          cases h

theorem stops_tail {cs : CharSet} (h : NoMark cs) (p : Parts) : Stops cs p.tail := by
  cases hp : p.tail with
  | nil => rfl
  | cons m rest =>
      refine stops_of_not_mem (isInSet_eq_some.mpr ?_) rest
      rcases tail_head hp with rfl | rfl
      · exact ⟨by decide, h.1⟩
      · exact ⟨by decide, h.2⟩

/-- What a scan finds behind a path it finds inside the path. -/
theorem split_in_path {cs : CharSet} (h : NoMark cs) {p : Parts} {path t rest : Str} {d : Byte}
    (ht : Chars cs t) (hd : ¬ (d = ch '?' ∨ d = ch '#')) (he : path ++ p.tail = t ++ d :: rest) :
    ∃ rest', path = t ++ d :: rest' := by
  refine split_before (fun c hc => ?_) he
  obtain ⟨rest', hc⟩ := List.head?_eq_some_iff.mp hc
  have hmark := tail_head hc
  refine ⟨fun hm => ?_, fun hcd => hd (hcd ▸ hmark)⟩
  have hmem := ht.mem c hm
  rcases hmark with rfl | rfl
  · exact absurd hmem (by rw [h.1]; decide)
  · exact absurd hmem (by rw [h.2]; decide)

end Parts

/-! ## Well-formed texts are accepted -/

theorem parsePart_marked {mark : Byte} (hmark : mark ≠ 0) {q : Option Str}
    (hq : ∀ s ∈ q, Chars queryChar s) {rest : Str} (hstop : Stops queryChar rest)
    (hrest : ∀ p, rest ≠ mark :: p) :
    parsePart mark (marked mark q ++ rest) = some (q.getD [], rest) := by
  cases q with
  | none =>
      have hc : ¬ charAt rest 0 = mark := by
        intro hc
        obtain ⟨p, hp⟩ := (charAt_eq hmark).mp hc
        exact hrest p hp
      exact if_neg hc
  | some s =>
      have hc : charAt (marked mark (some s) ++ rest) 0 = mark := rfl
      rw [parsePart, if_pos hc]
      exact skipCharSet_of_stops (hq s rfl) hstop

/-- Path, query and fragment are read to the end. -/
theorem parsePath_tail {p : Parts} (h : p.WellFormed) (u : URI) :
    parsePath u (p.path ++ p.tail) =
      some ({ u with
        path := .assign p.path
        query := p.query.getD []
        fragment := p.fragment.getD [] }, true) := by
  have hfrag : Stops queryChar (marked (ch '#') p.fragment) ∧
      ∀ rest, marked (ch '#') p.fragment ≠ ch '?' :: rest := by
    cases p.fragment with
    | none => exact ⟨rfl, by simp [marked]⟩
    | some q =>
        refine ⟨stops_of_not_mem (by decide) q, fun rest he => ?_⟩
        exact absurd (List.cons.inj he).1 (by decide)
  have hlast : parsePart (ch '#') (marked (ch '#') p.fragment ++ []) =
      some (p.fragment.getD [], []) := parsePart_marked (by decide) h.fragment rfl (by simp)
  rw [List.append_nil] at hlast
  rw [parsePath, skipCharSet_of_stops h.path (p.stops_tail ⟨by decide, by decide⟩),
    Option.bind_some, Parts.tail, parsePart_marked (by decide) h.query hfrag.1 hfrag.2,
    Option.bind_some, hlast]
  rfl

/-- The path and its tail are where the parser gets to behind the front. -/
theorem Parts.WellFormed.before {p : Parts} (h : p.WellFormed) :
    (Lead.front p.front).Before (p.path ++ p.tail) := by
  have hfits := h.front
  cases hf : p.front with
  | bare =>
      rw [hf] at hfits
      rintro ⟨s, rest, hscheme, he⟩
      obtain ⟨rest', hp⟩ :=
        Parts.split_in_path ⟨by decide, by decide⟩ hscheme.chars (by decide) he
      exact hfits ⟨s, rest', hscheme, hp⟩
  | scheme s =>
      rw [hf] at hfits
      obtain ⟨hscheme, hinfo⟩ := hfits
      refine ⟨hscheme, fun info q hchars he => ?_⟩
      have hslashes : Chars pcharSlash (str "//" ++ info) :=
        .char (by decide) (by decide) (.char (by decide) (by decide)
          (hchars.mono fun c hc => pcharSlash_of (by simp [hc])))
      rw [← List.append_assoc] at he
      obtain ⟨rest, hrest⟩ :=
        Parts.split_in_path ⟨by decide, by decide⟩ hslashes (by decide) he
      exact hinfo info rest hchars (by rw [hrest, List.append_assoc])
  | authority s info host =>
      rw [hf] at hfits
      obtain ⟨hscheme, hinfo, hhost, hpath⟩ := hfits
      have hhead : ∀ c ∈ (p.path ++ p.tail).head?, c ∈ str "/@?#" := by
        intro c hc
        cases hp : p.path with
        | nil =>
            rw [hp] at hc
            obtain ⟨rest, hrest⟩ := List.head?_eq_some_iff.mp hc
            rcases Parts.tail_head hrest with rfl | rfl <;> decide
        | cons b path =>
            rw [hp] at hc
            obtain rfl := Option.some.inj hc
            rcases hpath b (by simp [hp]) with rfl | rfl <;> decide
      have hnot : ∀ c ∈ str "/@?#",
          isInSet regnameChar c = some false ∧ c ≠ ch ':' ∧ c ≠ ch '[' := by
        decide +kernel
      refine ⟨hscheme, hinfo, hhost, Stops.ends ?_, fun c hc => ?_⟩
      · cases hp : p.path ++ p.tail with
        | nil => rfl
        | cons c rest => exact stops_of_not_mem (hnot c (hhead c (by rw [hp]; rfl))).1 rest
      · exact ⟨(hnot c (hhead c hc)).2.1, fun _ => (hnot c (hhead c hc)).2.2⟩

/-- **The texts of well-formed parts are accepted.** -/
theorem parse_text {p : Parts} (h : p.WellFormed) : parse p.text = some (p.uri, true) := by
  have hlead := parse_lead h.before
  rw [parsePath_tail h] at hlead
  exact hlead

/-! ## Accepted texts have well-formed parts -/

theorem parsePart_eq_some {mark : Byte} (hmark : mark ≠ 0) {p s rest : Str}
    (h : parsePart mark p = some (s, rest)) :
    ∃ q : Option Str, p = marked mark q ++ rest ∧ (∀ t ∈ q, Chars queryChar t) ∧ q.getD [] = s := by
  unfold parsePart at h
  split at h
  next hc =>
      obtain ⟨p', rfl⟩ := (charAt_eq hmark).mp hc
      obtain ⟨rfl, hs, -⟩ := skipCharSet_eq_some h
      exact ⟨some s, rfl, fun t ht => Option.some.inj ht ▸ hs, rfl⟩
  next =>
      cases h
      exact ⟨none, rfl, by simp, rfl⟩

/-- What was read when the end is reached, behind any front. -/
theorem parsePath_eq_some {u u' : URI} {s : Str} (h : parsePath u s = some (u', true))
    (front : Front) :
    ∃ p : Parts, p.front = front ∧ s = p.path ++ p.tail ∧ Chars pcharSlash p.path ∧
      (∀ q ∈ p.query, Chars queryChar q) ∧ (∀ q ∈ p.fragment, Chars queryChar q) ∧
      u' = { u with
        path := .assign p.path
        query := p.query.getD []
        fragment := p.fragment.getD [] } := by
  unfold parsePath at h
  obtain ⟨⟨path, s₁⟩, hpath, h⟩ := Option.bind_eq_some_iff.mp h
  obtain ⟨⟨query, s₂⟩, hquery, h⟩ := Option.bind_eq_some_iff.mp h
  obtain ⟨⟨fragment, s₃⟩, hfragment, h⟩ := Option.map_eq_some_iff.mp h
  obtain ⟨rfl, hend⟩ := Prod.mk.inj h
  obtain rfl : s₃ = [] := beq_iff_eq.mp hend
  obtain ⟨rfl, hchars, -⟩ := skipCharSet_eq_some hpath
  obtain ⟨q, rfl, hq, rfl⟩ := parsePart_eq_some (by decide) hquery
  obtain ⟨f, rfl, hf, rfl⟩ := parsePart_eq_some (by decide) hfragment
  refine ⟨⟨front, path, q, f⟩, rfl, ?_, hchars, hq, hf, rfl⟩
  rw [List.append_nil]
  rfl

theorem pcharSlash_diff {c : Byte} (h : pcharSlash c = true) (hn : regnameChar c = false) :
    c = ch ':' ∨ c = ch '@' ∨ c = ch '/' := by
  simp only [regnameChar, Bool.or_eq_false_iff] at hn
  simp only [pcharSlash, pchar, hn, Bool.false_or, Bool.or_eq_true] at h
  have hp : c ≠ ch '%' := by simpa [makeCharSet, str] using hn.2
  simp only [makeCharSet, str, List.contains_eq_mem, decide_eq_true_eq] at h
  simpa [hp, or_assoc] using h

/-- The character a path starts with behind a host. -/
theorem head_of_ends {c : Byte} {p rest : Str} (h : Chars pcharSlash (c :: p))
    (hends : Ends regnameChar (c :: p ++ rest)) : c = ch ':' ∨ c = ch '@' ∨ c = ch '/' := by
  cases h with
  | char hc hne =>
      refine pcharSlash_diff (isInSet_eq_some.mp hc).2 ?_
      by_contra hr
      have hset := isInSet_eq_some.mpr ⟨(isInSet_eq_some.mp hc).1, Bool.of_not_eq_false hr⟩
      exact List.cons_ne_nil _ _ (hends [c] (p ++ rest) (.char hset hne .nil) rfl)
  | @escape d l s _ hd hl =>
      have hset : isInSet regnameChar (ch '%') = some true := by decide
      exact absurd (hends [ch '%', d, l] (s ++ rest) (.escape hset hd hl .nil) rfl) (by simp)

/-- A host that is accepted, and what follows it. -/
theorem parseHost_eq_some {s info p : Str} {u : URI}
    (h : (parseHost s info p).bind parseBehind = some (u, true)) :
    ∃ host q port rest, p = host ++ q ∧ Chars regnameChar host ∧ Stops regnameChar q ∧
      parsePort q = some (some (port, rest)) ∧
      parsePath { (Front.authority s info host).uri with port } rest = some (u, true) := by
  rcases parseHost_cases h with hgiveUp | hread
  · cases hgiveUp
  · exact hread

/-- No colon follows a host. -/
def NoPort (s : Str) : Prop :=
  ∀ scheme info host rest, IsScheme scheme → Chars userinfoChar info → Chars regnameChar host →
    s ≠ scheme ++ str "://" ++ info ++ str "@" ++ host ++ str ":" ++ rest

/-- **Nothing else is accepted**, apart from a port. -/
theorem parts_of_parse {s : Str} {u : URI} (h : parse s = some (u, true)) (hport : NoPort s) :
    ∃ p : Parts, p.WellFormed ∧ p.text = s ∧ p.uri = u := by
  cases reading s with
  | bracket p hs hinfo =>
      rw [parse_bracket hs hinfo] at h
      split at h <;> cases h
  | large hs hinfo hhost hd hlen hk =>
      exact (hport _ _ _ _ hs hinfo hhost (by simp [Front.text]; rfl)).elim
  | @lead l rest hbefore =>
      rw [parse_lead hbefore] at h
      cases l with
      | port s info host d =>
          obtain ⟨hs, hinfo, hhost, -⟩ := hbefore
          refine (hport s info host (d ++ rest) hs hinfo hhost ?_).elim
          simp [Lead.text, Front.text]
      | front f =>
          obtain ⟨p, hfront, rfl, hpath, hquery, hfragment, rfl⟩ := parsePath_eq_some h f
          refine ⟨p, ⟨?_, hpath, hquery, hfragment⟩, ?_, ?_⟩
          · rw [hfront]
            cases f with
            | bare =>
                rintro ⟨s, rest, hlike, hp⟩
                exact hbefore ⟨s, rest ++ p.tail, hlike, by rw [hp]; simp⟩
            | scheme s =>
                refine ⟨hbefore.1, fun info rest hinfo hp => ?_⟩
                exact hbefore.2 info (rest ++ p.tail) hinfo (by rw [hp]; simp)
            | authority s info host =>
                obtain ⟨hs, hinfo, hhost, hends, hhead⟩ := hbefore
                refine ⟨hs, hinfo, hhost, fun c hc => ?_⟩
                obtain ⟨path, hpp⟩ := List.head?_eq_some_iff.mp hc
                rw [hpp] at hends hpath hhead
                rcases head_of_ends hpath hends with rfl | he | he
                · exact absurd rfl (hhead _ rfl).1
                · exact Or.inr he
                · exact Or.inl he
          · rw [Parts.text, hfront]
            rfl
          · rw [Parts.uri, hfront]
            rfl

end URI

end Undervest
