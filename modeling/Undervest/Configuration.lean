import Undervest.Retries
import Undervest.Refresh

/-!
# The configuration

The configuration file is parsed by a library, so a parsed file is the input
here: its sections, with the defaults of the option tables as default values.
The library refuses two domain sections of one title, which is a field of
`MainSection`.

`Configuration.get` builds a domain for each enabled section and stores it under
its title.  `Configuration.recipient` takes an address apart, looks its domain
part up, and puts the answer of the domain together again.

A title is stored as it is written, and the address comes in lower case.  The
lookup is exact, so a title with an upper-case letter is never found
(`consulted_iff`).  A load compares the same name without regard to case.
-/

namespace Undervest

open Unordered Domain

/-! ## The parsed file -/

structure SourceSection where
  uri : Str := []
  loader : Str := str "sendmail"
  enabled : Bool := true
deriving DecidableEq, Repr

structure ThresholdsSection where
  /-- The `double` next to 0.8. -/
  ngram : ℚ := mkRat 3602879701896397 4503599627370496
  word : ℚ := mkRat 1 2

structure DomainSection where
  title : Str
  enabled : Bool := true
  autofix : Bool := false
  refresh : Int := 0
  retry : Int := 3600
  retries : List Int := [30, 300]
  ngram : Int := 3
  thresholds : ThresholdsSection := {}
  sources : List SourceSection := []

structure SmtpSection where
  status : Int := 550
  extendedStatus : Str := str "5.1.1"
  message : Str := str "User unknown"
deriving DecidableEq, Repr

structure MainSection where
  smtp : SmtpSection := {}
  domains : List DomainSection := []
  /-- The parser refuses a second section of one title. -/
  titles_nodup : (domains.map fun s => s.title).Nodup := by decide

/-- What the parser makes of the configuration file. -/
inductive ParsedFile where
  | parseError
  | fileError
  | success (main : MainSection)

/-! ## Reading the sections -/

structure Configuration where
  domains : UnorderedMap Str Domain
  smtpStatus : UInt16
  smtpExtended : Str
  smtpMessage : Str

/-- Why there is no configuration. -/
inductive GetError where
  | parse
  | loader
  /-- `no domain configured` -/
  | noDomain
  /-- The behaviour is undefined. -/
  | undefined
deriving DecidableEq, Repr

namespace DomainSection

/-- The section that stands for a missing one. -/
def localhost : DomainSection where
  title := str "localhost"

/-- The source sections, with the default ones if there are none. -/
def sourceSections (s : DomainSection) : List SourceSection :=
  if s.sources.length = 0 then
    [{ uri := str "/etc/passwd" }, { uri := str "/etc/aliases" }]
  else s.sources

/-- The data sources that are enabled. -/
def enabledSources (s : DomainSection) : List Source :=
  (s.sourceSections.filter fun t => t.enabled).map fun t => ⟨t.uri, t.loader⟩

/-- The domain of a section. -/
def domain (s : DomainSection) : Except GetError Domain :=
  match retriesOf s.retries with
  | none => .error .undefined
  | some retries => .ok
      { name := s.title
        sources := s.enabledSources
        recipients := .empty
        ngramMatch := NgramMatcher.new 3
        wordMatch := Matcher.empty
        ngramThreshold := s.thresholds.ngram
        wordThreshold := s.thresholds.word
        refreshSec := UInt32.ofInt s.refresh
        retrySec := UInt32.ofInt s.retry
        retries := retries
        failureCount := -1
        ngramSize := UInt16.ofInt s.ngram
        fixRecipient := s.autofix }

end DomainSection

namespace Configuration

/-- The body of the loop over the domain sections. -/
def addDomain (domains : UnorderedMap Str Domain) (s : DomainSection) :
    Except GetError (UnorderedMap Str Domain) :=
  if s.enabled then
    match s.domain with
    | .error e => .error e
    | .ok dp =>
        -- a domain without data source is ignored
        if dp.sources = [] then .ok domains else .ok (UnorderedMap.emplace domains dp.name dp)
  else .ok domains

/-- The loop over the domain sections. -/
def addDomains : UnorderedMap Str Domain → List DomainSection →
    Except GetError (UnorderedMap Str Domain)
  | domains, [] => .ok domains
  | domains, s :: rest =>
      match addDomain domains s with
      | .error e => .error e
      | .ok domains => addDomains domains rest

/-- The domain sections, with the default one if there is none. -/
def domainSections (main : MainSection) : List DomainSection :=
  if main.domains.length = 0 then [.localhost] else main.domains

/-- What `get` does with the sections.  `loads` says which loaders can be
opened. -/
def fromSections (loads : Source → Bool) (main : MainSection) : Except GetError Configuration :=
  match addDomains ∅ (domainSections main) with
  | .error e => .error e
  | .ok domains =>
      if domains.entries.any fun d => d.2.sources.any fun s => !loads s then .error .loader
      else if domains.entries.length = 0 then .error .noDomain
      else .ok
        { domains := domains
          smtpStatus := UInt16.ofInt main.smtp.status
          smtpExtended := main.smtp.extendedStatus
          smtpMessage := main.smtp.message }

/-- `Configuration::get`. -/
def get (loads : Source → Bool) : ParsedFile → Except GetError Configuration
  | .parseError => .error .parse
  | .fileError => fromSections loads {}
  | .success main => fromSections loads main

end Configuration

/-! ## Addresses -/

/-- An address taken apart. -/
structure Address where
  hasltgt : Bool
  origrcpt : Str
  domain : Str
deriving DecidableEq, Repr

namespace Address

/-- An address stands in angle brackets. -/
def hasLtGt (addr : Str) : Bool := addr.head? == some (ch '<') && addr.getLast? == some (ch '>')

/-- An address without its angle brackets and the blanks around it. -/
def bare (emailaddr : Str) : Str :=
  let addr := trim emailaddr
  if hasLtGt addr then trim ((addr.drop 1).take (addr.length - 2)) else addr

/-- The parts of an address, unless one of them is missing. -/
def parse (emailaddr : Str) : Option Address :=
  let addr := bare emailaddr
  match find (ch '@') addr with
  | none => none
  | some atpos =>
      if atpos = 0 ∨ atpos ≥ addr.length - 1 then none
      else some ⟨hasLtGt (trim emailaddr), addr.take atpos, addr.drop (atpos + 1)⟩

end Address

namespace Configuration

/-- The domain that decides on an address.  Without one the address is passed
through. -/
def consulted (cfg : Configuration) (emailaddr : Str) : Option Domain :=
  (Address.parse emailaddr).bind fun a => cfg.domains.lookup a.domain

/-- `Configuration::recipient`.  The second component is `fixit` after the call. -/
def recipient (c : Choices) (cfg : Configuration) (emailaddr : Str) (fixit : Bool) : Str × Bool :=
  match Address.parse emailaddr with
  | none => (emailaddr, fixit)
  | some a =>
      match cfg.domains.lookup a.domain with
      | none => (emailaddr, fixit)
      | some dom =>
          match dom.recipient c a.origrcpt with
          | none => ([], fixit)
          | some rcpt =>
              let addr := rcpt ++ ch '@' :: a.domain
              (if a.hasltgt then ch '<' :: addr ++ [ch '>'] else addr, dom.fixRecipient)

/-- An address without a domain that decides on it is passed through. -/
theorem recipient_of_not_consulted {cfg : Configuration} {emailaddr : Str}
    (h : cfg.consulted emailaddr = none) (c : Choices) (fixit : Bool) :
    cfg.recipient c emailaddr fixit = (emailaddr, fixit) := by
  rw [consulted, Option.bind_eq_none_iff] at h
  unfold recipient
  split
  next => rfl
  next a ha => rw [h a ha]

/-! ## What the configuration holds -/

theorem domain_ok {s : DomainSection} {d : Domain} (h : s.domain = .ok d) :
    d.name = s.title ∧ d.sources = s.enabledSources ∧ d.failureCount = -1 := by
  unfold DomainSection.domain at h
  split at h
  next => cases h
  next =>
      cases h
      exact ⟨rfl, rfl, rfl⟩

/-- The retry periods of a configured domain are positive. -/
theorem domain_retries_pos {s : DomainSection} {d : Domain} (h : s.domain = .ok d) :
    ∀ x ∈ d.retries, 0 < x := by
  unfold DomainSection.domain at h
  split at h
  next => cases h
  next retries hr =>
      cases h
      exact retriesOf_pos hr

/-- What one section does to the map. -/
theorem addDomain_cases {m m' : UnorderedMap Str Domain} {s : DomainSection}
    (h : addDomain m s = .ok m') :
    m' = m ∧ (s.enabled = false ∨ s.enabledSources = []) ∨
      ∃ d, s.domain = .ok d ∧ m' = UnorderedMap.emplace m s.title d := by
  unfold addDomain at h
  cases he : s.enabled with
  | false =>
      rw [he] at h
      cases h
      exact Or.inl ⟨rfl, Or.inl rfl⟩
  | true =>
      rw [he, if_pos rfl] at h
      cases hd : s.domain with
      | error e =>
          rw [hd] at h
          cases h
      | ok d =>
          obtain ⟨hname, hsources, -⟩ := domain_ok hd
          rw [hd] at h
          by_cases hs : d.sources = []
          · simp only [hs, if_true] at h
            cases h
            exact Or.inl ⟨rfl, Or.inr (hsources.symm.trans hs)⟩
          · simp only [hs, if_false, hname] at h
            cases h
            exact Or.inr ⟨d, rfl, rfl⟩

/-- What holds of the domain of every section holds of every stored domain. -/
theorem addDomain_forall {P : Str → Domain → Prop}
    (hP : ∀ (s : DomainSection) d, s.domain = .ok d → P s.title d)
    {m m' : UnorderedMap Str Domain} {s : DomainSection} (h : addDomain m s = .ok m')
    (hm : ∀ k d, m.lookup k = some d → P k d) : ∀ k d, m'.lookup k = some d → P k d := by
  cases addDomain_cases h with
  | inl he => rw [he.1]; exact hm
  | inr he =>
      obtain ⟨d, hd, rfl⟩ := he
      intro k d' hk
      by_cases hks : k = s.title
      · subst hks
        by_cases hin : s.title ∈ m
        · rw [UnorderedMap.lookup_emplace_of_mem hin] at hk
          exact hm _ _ hk
        · rw [UnorderedMap.lookup_emplace_of_notMem hin, Option.some.injEq] at hk
          exact hk ▸ hP s d hd
      · rw [UnorderedMap.lookup_emplace_of_ne hks] at hk
        exact hm _ _ hk

/-- A stored domain stays. -/
theorem addDomain_lookup {m m' : UnorderedMap Str Domain} {s : DomainSection} {k : Str}
    {d : Domain} (h : addDomain m s = .ok m') (hk : m.lookup k = some d) :
    m'.lookup k = some d := by
  cases addDomain_cases h with
  | inl he => rw [he.1]; exact hk
  | inr he =>
      obtain ⟨d', -, rfl⟩ := he
      by_cases hks : k = s.title
      · subst hks
        have hin : s.title ∈ m := AList.lookup_isSome.mp (by rw [hk]; rfl)
        rw [UnorderedMap.lookup_emplace_of_mem hin, hk]
      · rw [UnorderedMap.lookup_emplace_of_ne hks, hk]

theorem mem_addDomain {m m' : UnorderedMap Str Domain} {s : DomainSection} {k : Str}
    (h : addDomain m s = .ok m') (hk : k ∈ m') : k ∈ m ∨ k = s.title := by
  cases addDomain_cases h with
  | inl he => rw [he.1] at hk; exact Or.inl hk
  | inr he =>
      obtain ⟨d, -, rfl⟩ := he
      exact UnorderedMap.mem_emplace.mp hk

/-- One turn of the loop. -/
theorem addDomains_cons {sections : List DomainSection} {s : DomainSection}
    {m m' : UnorderedMap Str Domain} (h : addDomains m (s :: sections) = .ok m') :
    ∃ m₁, addDomain m s = .ok m₁ ∧ addDomains m₁ sections = .ok m' := by
  rw [addDomains] at h
  cases hs : addDomain m s with
  | error e =>
      rw [hs] at h
      cases h
  | ok m₁ =>
      rw [hs] at h
      exact ⟨m₁, rfl, h⟩

theorem addDomains_forall {P : Str → Domain → Prop}
    (hP : ∀ (s : DomainSection) d, s.domain = .ok d → P s.title d)
    {sections : List DomainSection} {m m' : UnorderedMap Str Domain}
    (h : addDomains m sections = .ok m') (hm : ∀ k d, m.lookup k = some d → P k d) :
    ∀ k d, m'.lookup k = some d → P k d := by
  induction sections generalizing m with
  | nil =>
      cases h
      exact hm
  | cons s rest ih =>
      obtain ⟨m₁, hs, hrest⟩ := addDomains_cons h
      exact ih hrest (addDomain_forall hP hs hm)

theorem addDomains_lookup {sections : List DomainSection} {m m' : UnorderedMap Str Domain}
    {k : Str} {d : Domain} (h : addDomains m sections = .ok m') (hk : m.lookup k = some d) :
    m'.lookup k = some d := by
  induction sections generalizing m with
  | nil =>
      cases h
      exact hk
  | cons s rest ih =>
      obtain ⟨m₁, hs, hrest⟩ := addDomains_cons h
      exact ih hrest (addDomain_lookup hs hk)

/-- An enabled section with a source is stored, when no title occurs twice. -/
theorem addDomains_stores {sections : List DomainSection} {m m' : UnorderedMap Str Domain}
    {s : DomainSection} {d : Domain} (h : addDomains m sections = .ok m')
    (hnodup : (sections.map fun s => s.title).Nodup) (hm : ∀ s ∈ sections, s.title ∉ m)
    (hs : s ∈ sections) (he : s.enabled = true) (hsrc : s.enabledSources ≠ [])
    (hd : s.domain = .ok d) : m'.lookup s.title = some d := by
  induction sections generalizing m with
  | nil => cases hs
  | cons t rest ih =>
      rw [List.map_cons, List.nodup_cons] at hnodup
      obtain ⟨m₁, ht, hrest⟩ := addDomains_cons h
      cases List.mem_cons.mp hs with
      | inl hst =>
          subst hst
          refine addDomains_lookup hrest ?_
          cases addDomain_cases ht with
          | inl hn => simp [he, hsrc] at hn
          | inr hn =>
              obtain ⟨d', hd', rfl⟩ := hn
              rw [hd, Except.ok.injEq] at hd'
              rw [hd', UnorderedMap.lookup_emplace_of_notMem (hm s (List.mem_cons_self ..))]
      | inr hs =>
          refine ih hrest hnodup.2 (fun u hu hin => ?_) hs
          cases mem_addDomain ht hin with
          | inl hin => exact hm u (List.mem_cons_of_mem _ hu) hin
          | inr hut => exact hnodup.1 (hut ▸ List.mem_map_of_mem hu)

theorem addDomains_domain {sections : List DomainSection} {m m' : UnorderedMap Str Domain}
    {s : DomainSection} (h : addDomains m sections = .ok m') (hs : s ∈ sections)
    (he : s.enabled = true) : ∃ d, s.domain = .ok d := by
  induction sections generalizing m with
  | nil => cases hs
  | cons t rest ih =>
      obtain ⟨m₁, ht, hrest⟩ := addDomains_cons h
      cases List.mem_cons.mp hs with
      | inl hst =>
          subst hst
          rw [addDomain, he, if_pos rfl] at ht
          cases hd : s.domain with
          | error e =>
              rw [hd] at ht
              cases ht
          | ok d => exact ⟨d, rfl⟩
      | inr hs => exact ih hrest hs

end Configuration

/-- The domain sections `get` reads. -/
def ParsedFile.sections : ParsedFile → List DomainSection
  | .parseError => []
  | .fileError => Configuration.domainSections {}
  | .success main => Configuration.domainSections main

namespace Configuration

theorem domainSections_nodup (main : MainSection) :
    ((domainSections main).map fun s => s.title).Nodup := by
  unfold domainSections
  split
  next => decide
  next => exact main.titles_nodup

/-- The domains of a configuration are those of its sections. -/
theorem addDomains_of_get {loads : Source → Bool} {file : ParsedFile} {cfg : Configuration}
    (h : get loads file = .ok cfg) :
    addDomains ∅ file.sections = .ok cfg.domains ∧
      (file.sections.map fun s => s.title).Nodup := by
  have hmain : ∀ main, fromSections loads main = .ok cfg →
      addDomains ∅ (domainSections main) = .ok cfg.domains := by
    intro main hm
    unfold fromSections at hm
    cases ha : addDomains ∅ (domainSections main) with
    | error e => rw [ha] at hm; cases hm
    | ok domains =>
        rw [ha] at hm
        simp only at hm
        split at hm
        next => cases hm
        next =>
            split at hm
            next => cases hm
            next =>
                cases hm
                rfl
  cases file with
  | parseError => cases h
  | fileError => exact ⟨hmain _ h, domainSections_nodup _⟩
  | success main => exact ⟨hmain _ h, domainSections_nodup _⟩

/-- An enabled section with a source is found under its title. -/
theorem lookup_title {loads : Source → Bool} {file : ParsedFile} {cfg : Configuration}
    (h : get loads file = .ok cfg) {s : DomainSection} (hs : s ∈ file.sections)
    (he : s.enabled = true) (hsrc : s.enabledSources ≠ []) :
    ∃ d, s.domain = .ok d ∧ cfg.domains.lookup s.title = some d := by
  obtain ⟨hadd, hnodup⟩ := addDomains_of_get h
  obtain ⟨d, hd⟩ := addDomains_domain hadd hs he
  exact ⟨d, hd, addDomains_stores hadd hnodup (fun _ _ => AList.notMem_empty _) hs he hsrc hd⟩

/-- The domains are stored under their names, and none has been loaded. -/
theorem get_domains {loads : Source → Bool} {file : ParsedFile} {cfg : Configuration}
    (h : get loads file = .ok cfg) :
    ∀ k d, cfg.domains.lookup k = some d → d.name = k ∧ d.failureCount = -1 :=
  addDomains_forall (P := fun k d => d.name = k ∧ d.failureCount = -1)
    (fun _ _ hd => ⟨(domain_ok hd).1, (domain_ok hd).2.2⟩) (addDomains_of_get h).1 fun k d hk => by
      rw [AList.lookup_empty] at hk
      cases hk

end Configuration

/-! ## Addresses in lower case -/

namespace Address

theorem head?_strtolower {c : Byte} (hc : isalpha c = false) (s : Str) :
    ((strtolower s).head? == some c) = (s.head? == some c) := by
  cases s with
  | nil => rfl
  | cons b s =>
      rw [Bool.eq_iff_iff]
      simp [strtolower, tolower_eq_iff hc]

theorem getLast?_strtolower {c : Byte} (hc : isalpha c = false) (s : Str) :
    ((strtolower s).getLast? == some c) = (s.getLast? == some c) := by
  have h := head?_strtolower hc s.reverse
  rwa [strtolower, List.map_reverse, List.head?_reverse, List.head?_reverse] at h

theorem hasLtGt_strtolower (s : Str) : hasLtGt (strtolower s) = hasLtGt s := by
  rw [hasLtGt, head?_strtolower (by decide), getLast?_strtolower (by decide), hasLtGt]

/-- Taking the brackets off commutes with the case. -/
theorem bare_strtolower (s : Str) : bare (strtolower s) = strtolower (bare s) := by
  have hsub : ∀ t : Str, ((strtolower t).drop 1).take ((strtolower t).length - 2) =
      strtolower ((t.drop 1).take (t.length - 2)) := by
    intro t
    rw [strtolower_length, strtolower, strtolower, List.map_take, List.map_drop]
  simp only [bare, strtolower_trim, hasLtGt_strtolower, hsub]
  split <;> rfl

/-- The parts of an address with both parts. -/
theorem parse_eq {address loc dom : Str} (h : bare address = loc ++ ch '@' :: dom)
    (hat : ch '@' ∉ loc) :
    parse address =
      if loc = [] ∨ dom = [] then none else some ⟨hasLtGt (trim address), loc, dom⟩ := by
  have hcond : (loc.length = 0 ∨ loc.length ≥ (loc ++ ch '@' :: dom).length - 1) ↔
      (loc = [] ∨ dom = []) := by
    rw [List.length_append, List.length_cons, ← List.length_eq_zero_iff (l := loc),
      ← List.length_eq_zero_iff (l := dom)]
    omega
  simp only [parse, h, find_append dom hat, hcond]
  split
  next => rfl
  next => simp

theorem notMem_strtolower {c : Byte} {s : Str} (hc : isalpha c = false) (h : c ∉ s) :
    c ∉ strtolower s := by
  intro hm
  obtain ⟨b, hb, hbc⟩ := List.mem_map.mp hm
  exact h ((tolower_eq_iff hc).mp hbc ▸ hb)

end Address

namespace Configuration

/-! ## Which domain decides -/

/-- **A domain decides on the addresses of its title when the title is in lower
case.**  The address comes in lower case, whatever its own case was, and both
parts of it must be there. -/
theorem consulted_iff {loads : Source → Bool} {file : ParsedFile} {cfg : Configuration}
    (h : get loads file = .ok cfg) {s : DomainSection} (hs : s ∈ file.sections)
    (he : s.enabled = true) (hsrc : s.enabledSources ≠ []) {address loc dom : Str}
    (haddr : Address.bare address = loc ++ ch '@' :: dom) (hat : ch '@' ∉ loc)
    (hdom : strtolower dom = strtolower s.title) :
    (∃ d, s.domain = .ok d ∧ cfg.consulted (strtolower address) = some d) ↔
      (∀ c ∈ s.title, isupper c = false) ∧ loc ≠ [] ∧ s.title ≠ [] := by
  obtain ⟨d, hd, hlookup⟩ := lookup_title h hs he hsrc
  have hbare : Address.bare (strtolower address) =
      strtolower loc ++ ch '@' :: strtolower s.title := by
    rw [Address.bare_strtolower, haddr, strtolower_append, ← hdom]
    rfl
  have hat' := Address.notMem_strtolower (c := ch '@') (by decide) hat
  have hcons : cfg.consulted (strtolower address) =
      if loc = [] ∨ s.title = [] then none else cfg.domains.lookup (strtolower s.title) := by
    simp only [consulted, Address.parse_eq hbare hat', strtolower_eq_nil]
    split <;> rfl
  rw [hcons, ← strtolower_eq_self]
  constructor
  · rintro ⟨d', hd', hc⟩
    split at hc
    next => cases hc
    next hparts =>
        have hname := (get_domains h _ _ hc).1
        rw [(domain_ok hd').1] at hname
        exact ⟨hname.symm, fun e => hparts (Or.inl e), fun e => hparts (Or.inr e)⟩
  · rintro ⟨hlower, hloc, htitle⟩
    exact ⟨d, hd, by rw [if_neg (by simp [hloc, htitle]), hlower, hlookup]⟩

/-- A configuration file with one domain section. -/
def oneSection (title : Str) : ParsedFile := .success
  { domains := [{ title := title }]
    titles_nodup := List.nodup_singleton _ }

theorem consulted_iff_sample :
    ∃ cfg, get (fun _ => true) (oneSection (str "example.com")) = .ok cfg ∧
      ∃ d, cfg.consulted (strtolower (str "<John@EXAMPLE.com>")) = some d := by
  refine ⟨_, rfl, ?_⟩
  have haddr : Address.bare (str "<John@EXAMPLE.com>") =
      str "John" ++ ch '@' :: str "EXAMPLE.com" := by decide
  have hget : get (fun _ => true) (oneSection (str "example.com")) = .ok _ := rfl
  have h := (consulted_iff hget (List.mem_singleton.mpr rfl) rfl (List.cons_ne_nil _ _) haddr
    (by decide) (by decide)).mpr ⟨strtolower_eq_self.mp (by decide), by decide, by decide⟩
  exact h.imp fun d hd => hd.2

/-- A title with an upper-case letter is not found and the address is passed
through, though a load of that domain takes the address for one of its own. -/
theorem upper_case_title_not_consulted :
    ∃ cfg, get (fun _ => true) (oneSection (str "Example.com")) = .ok cfg ∧
      cfg.consulted (strtolower (str "john@Example.com")) = none ∧
      (∀ c, cfg.recipient c (strtolower (str "john@Example.com")) false =
        (strtolower (str "john@Example.com"), false)) ∧
      Source.accept (str "Example.com") (str "john@example.com") = some (str "john") :=
  ⟨_, rfl, rfl, fun c => recipient_of_not_consulted rfl c false, by decide⟩

end Configuration

/-! ## Addresses put together again -/

namespace Address

/-- The text inside the brackets of an address. -/
def inner (addr : Str) : Str := (addr.drop 1).take (addr.length - 2)

/-- No blank stands around an address or just inside its brackets. -/
def Tight (emailaddr : Str) : Prop :=
  Trimmed emailaddr ∧ (hasLtGt emailaddr = true → Trimmed (inner emailaddr))

/-- An address put together again from its parts. -/
def rebuilt (emailaddr : Str) : Str :=
  if hasLtGt (trim emailaddr) then ch '<' :: bare emailaddr ++ [ch '>'] else bare emailaddr

/-- The parts of an address make up what stands inside its brackets. -/
theorem bare_of_parse {emailaddr : Str} {a : Address} (h : parse emailaddr = some a) :
    bare emailaddr = a.origrcpt ++ ch '@' :: a.domain ∧ a.hasltgt = hasLtGt (trim emailaddr) := by
  unfold parse at h
  cases hf : find (ch '@') (bare emailaddr) with
  | none => simp [hf] at h
  | some atpos =>
      simp only [hf] at h
      split at h
      next => cases h
      next =>
          obtain rfl := Option.some.inj h
          obtain ⟨hlt, hat, -⟩ := List.findIdx?_eq_some_iff_getElem.mp hf
          refine ⟨?_, rfl⟩
          rw [beq_iff_eq] at hat
          rw [← hat, List.getElem_cons_drop, List.take_append_drop]

theorem inner_brackets (s : Str) : inner (ch '<' :: s ++ [ch '>']) = s := by
  simp [inner]

/-- An address in brackets is made up of them and what is inside. -/
theorem brackets_inner {s : Str} (h : hasLtGt s = true) : ch '<' :: inner s ++ [ch '>'] = s := by
  rw [hasLtGt, Bool.and_eq_true, beq_iff_eq, beq_iff_eq] at h
  cases s with
  | nil => cases h.1
  | cons b s =>
      obtain rfl : b = ch '<' := by simpa using h.1
      cases s using List.reverseRecOn with
      | nil => exact absurd h.2 (by decide)
      | append_singleton s b =>
          obtain rfl : b = ch '>' := by simpa [List.getLast?_cons] using h.2
          rw [← List.cons_append, inner_brackets]

theorem hasLtGt_brackets (s : Str) : hasLtGt (ch '<' :: s ++ [ch '>']) = true := by
  simp [hasLtGt, List.getLast?_cons]

theorem trimmed_of_hasLtGt {s : Str} (h : hasLtGt s = true) : Trimmed s := by
  rw [hasLtGt, Bool.and_eq_true, beq_iff_eq, beq_iff_eq] at h
  constructor
  · intro c hc
    rw [h.1] at hc
    exact Option.mem_some_iff.mp hc ▸ by decide
  · intro c hc
    rw [h.2] at hc
    exact Option.mem_some_iff.mp hc ▸ by decide

/-- Taking an address apart and putting it together leaves it alone when it is
tight. -/
theorem rebuilt_eq_self {emailaddr : Str} : rebuilt emailaddr = emailaddr ↔ Tight emailaddr := by
  have hbare : bare emailaddr = if hasLtGt (trim emailaddr) then trim (inner (trim emailaddr))
      else trim emailaddr := rfl
  rw [rebuilt, hbare]
  cases hb : hasLtGt (trim emailaddr) with
  | false =>
      simp only [Bool.false_eq_true, if_false, trim_eq_self, Tight]
      constructor
      · intro h
        refine ⟨h, fun hb' => ?_⟩
        rw [trim_eq_self.mpr h, hb'] at hb
        cases hb
      · exact fun h => h.1
  | true =>
      simp only [if_true]
      constructor
      · intro h
        have hlt : hasLtGt emailaddr = true := h ▸ hasLtGt_brackets _
        have ht := trim_eq_self.mpr (trimmed_of_hasLtGt hlt)
        rw [ht] at h
        have hin := inner_brackets (trim (inner emailaddr))
        rw [h] at hin
        exact ⟨trimmed_of_hasLtGt hlt, fun _ => trim_eq_self.mp hin.symm⟩
      · rintro ⟨ht, hin⟩
        rw [trim_eq_self.mpr ht] at hb ⊢
        rw [trim_eq_self.mpr (hin hb), brackets_inner hb]

end Address

end Undervest
