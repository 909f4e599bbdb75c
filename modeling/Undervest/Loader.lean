import Undervest.Source

/-!
# Opening a loader

`Source::load_loader` tries one file name after the other until a shared library
opens that exports the three functions of a loader.

`Files` is the behaviour of `dlopen` and `dlsym`: a map from file names to the
symbols of the library there, or to nothing.  `Host` is the source with its `dl`
object and its three pointers, next to the libraries that are open in the process,
each as often as it is open.

`candidates` lists the file names in the order of the manual.  `Tried` says what a
search through some of them leaves: the first suitable one open with its three
functions, or nothing open that was not before.  It composes along the searches
(`Tried.append_of_open`, `Tried.append_of_closed`).
-/

namespace Undervest

/-! ## Libraries -/

/-- The symbols that a file exports, if it is a library. -/
abbrev Files := Str → Option (List Str)

/-- The address of a symbol: the open file, and its name there. -/
structure Symbol where
  file : Str
  name : Str
deriving DecidableEq, Repr

/-- The class `dl`.  A handle is known by the name that was given to `dlopen`. -/
structure Dl where
  handle : Option Str
  filename : Str
deriving DecidableEq, Repr

/-- A source and the libraries that are open. -/
structure Host extends Source where
  dll : Dl
  openSource : Option Symbol
  getRecipient : Option Symbol
  closeSource : Option Symbol
  opened : List Str
deriving DecidableEq, Repr

/-- The three pointers. -/
inductive Pointer where
  | openSource
  | getRecipient
  | closeSource
deriving DecidableEq, Repr

namespace Pointer

/-- The name of the function in the library. -/
def symbolname : Pointer → Str
  | openSource => str "openSource"
  | getRecipient => str "getRecipient"
  | closeSource => str "closeSource"

end Pointer

namespace Host

def get (s : Host) : Pointer → Option Symbol
  | .openSource => s.openSource
  | .getRecipient => s.getRecipient
  | .closeSource => s.closeSource

def set (s : Host) (ptr : Option Symbol) : Pointer → Host
  | .openSource => { s with openSource := ptr }
  | .getRecipient => { s with getRecipient := ptr }
  | .closeSource => { s with closeSource := ptr }

/-! ## The class `dl` -/

def isOpen (s : Host) : Bool := s.dll.handle.isSome

/-- `dl::close`. -/
def close (s : Host) : Host :=
  match s.dll.handle with
  | none => s
  | some file => { s with dll := ⟨none, []⟩, opened := s.opened.erase file }

/-- `dl::open`. -/
def openFile (fs : Files) (name : Str) (s : Host) : Host × Completion :=
  if s.dll.handle ≠ none then (s, .throws)
  else
    match fs (cStr name) with
    | none => (s, .throws)
    | some _ =>
        ({ s with dll := ⟨some (cStr name), name⟩, opened := cStr name :: s.opened }, .returns)

/-- `dlsym`. -/
def dlsym (fs : Files) (file name : Str) : Option Symbol :=
  if ((fs file).getD []).contains name then some ⟨file, name⟩ else none

/-- `dl::symbol`.  The pointer is written before it is tested. -/
def symbol (fs : Files) (p : Pointer) (s : Host) : Host × Completion :=
  match s.dll.handle with
  | none => (s, .throws)
  | some file =>
      let ptr := dlsym fs file p.symbolname
      (s.set ptr p, if ptr = none then .throws else .returns)

/-- Read some symbols, as long as none is missing. -/
def symbols (fs : Files) : List Pointer → Host → Host × Completion
  | [], s => (s, .returns)
  | p :: ps, s =>
      match s.symbol fs p with
      | (s, .throws) => (s, .throws)
      | (s, .returns) => symbols fs ps s

/-! ## The searches -/

/-- `Source::open_loader`. -/
def openLoader (fs : Files) (path : Str) (s : Host) : Host :=
  match s.openFile fs path with
  | (s, .throws) => s
  | (s, .returns) =>
      match s.symbols fs [.openSource, .getRecipient, .closeSource] with
      | (s, .returns) => s
      | (s, .throws) => s.close

/-- A directory of the loader path, with a slash behind it. -/
def directory (lp : Str) : Str :=
  if lp.length ≠ 0 ∧ lp.getLast? ≠ some (ch '/') then lp ++ [ch '/'] else lp

/-- The loop over the loader path. -/
def searchPath (fs : Files) (name : Str) : List Str → Host → Host
  | [], s => s.openLoader fs name
  | lp :: rest, s =>
      let s := s.openLoader fs (directory lp ++ name)
      if s.isOpen then s else searchPath fs name rest s

/-- `Source::search_loader`. -/
def searchLoader (fs : Files) (loaderPath : List Str) (pre suf : Str) (s : Host) : Host :=
  if s.loader.head? = some (ch '/') then s.openLoader fs s.loader
  else s.searchPath fs (pre ++ s.loader ++ suf) loaderPath

/-- `Source::load_loader`. -/
def loadLoader (fs : Files) (loaderPath : List Str) (s : Host) : Host × Completion :=
  let s := s.searchLoader fs loaderPath [] []
  let s :=
    if !s.isOpen && !s.loader.contains (ch '/') then
      let s := s.searchLoader fs loaderPath [] (str ".so")
      let s := if !s.isOpen then s.searchLoader fs loaderPath (str "lib") [] else s
      if !s.isOpen then s.searchLoader fs loaderPath (str "lib") (str ".so") else s
    else s
  (s, if !s.isOpen then .throws else .returns)

end Host

/-! ## The order of the manual -/

/-- The names a loader may go by. -/
def namings (loader : Str) : List Str :=
  if ch '/' ∈ loader then [loader]
  else [loader, loader ++ str ".so", str "lib" ++ loader, str "lib" ++ loader ++ str ".so"]

/-- The file names to try: an absolute path alone, or each name in each directory and
then by itself. -/
def candidates (loaderPath : List Str) (loader : Str) : List Str :=
  if loader.head? = some (ch '/') then [loader]
  else (namings loader).flatMap fun name =>
    loaderPath.map (fun lp => Host.directory lp ++ name) ++ [name]

/-- A file is a loader. -/
def provides (fs : Files) (path : Str) : Bool :=
  match fs (cStr path) with
  | none => false
  | some syms =>
      syms.contains Pointer.openSource.symbolname &&
        syms.contains Pointer.getRecipient.symbolname &&
        syms.contains Pointer.closeSource.symbolname

namespace Host

/-- Nothing is open that was not before. -/
structure Closed (s s' : Host) : Prop where
  source : s'.toSource = s.toSource
  handle : s'.dll.handle = none
  opened : s'.opened = s.opened

/-- One more library is open, and the pointers are into it. -/
structure Opened (s : Host) (path : Str) (s' : Host) : Prop where
  source : s'.toSource = s.toSource
  dll : s'.dll = ⟨some (cStr path), path⟩
  pointers : ∀ p, s'.get p = some ⟨cStr path, p.symbolname⟩
  opened : s'.opened = cStr path :: s.opened

/-- What the attempts at some files leave. -/
def Tried (fs : Files) (paths : List Str) (s s' : Host) : Prop :=
  match paths.find? (provides fs) with
  | none => Closed s s'
  | some path => Opened s path s'

/-! ## One file -/

section

variable {fs : Files} {s s' s'' : Host} {paths paths' : List Str}

@[simp] theorem set_toSource (s : Host) (ptr : Option Symbol) (p : Pointer) :
    (s.set ptr p).toSource = s.toSource := by
  cases p <;> rfl

@[simp] theorem set_dll (s : Host) (ptr : Option Symbol) (p : Pointer) :
    (s.set ptr p).dll = s.dll := by
  cases p <;> rfl

@[simp] theorem set_opened (s : Host) (ptr : Option Symbol) (p : Pointer) :
    (s.set ptr p).opened = s.opened := by
  cases p <;> rfl

theorem get_set (s : Host) (ptr : Option Symbol) (p q : Pointer) :
    (s.set ptr p).get q = if q = p then ptr else s.get q := by
  cases p <;> cases q <;> rfl

theorem symbol_of_mem {file : Str} {p : Pointer} (h : s.dll.handle = some file)
    (hp : p.symbolname ∈ (fs file).getD []) :
    s.symbol fs p = (s.set (some ⟨file, p.symbolname⟩) p, .returns) := by
  rw [symbol, h]
  simp [dlsym, hp]

theorem symbol_of_not_mem {file : Str} {p : Pointer} (h : s.dll.handle = some file)
    (hp : p.symbolname ∉ (fs file).getD []) : s.symbol fs p = (s.set none p, .throws) := by
  rw [symbol, h]
  simp [dlsym, hp]

/-- When all symbols are there, each pointer is set to its own. -/
theorem symbols_returns {file : Str} {ps : List Pointer} (h : s.dll.handle = some file)
    (hps : ∀ p ∈ ps, p.symbolname ∈ (fs file).getD []) :
    ∃ s', s.symbols fs ps = (s', .returns) ∧ s'.toSource = s.toSource ∧ s'.dll = s.dll ∧
      s'.opened = s.opened ∧
      ∀ q, s'.get q = if q ∈ ps then some ⟨file, q.symbolname⟩ else s.get q := by
  induction ps generalizing s with
  | nil => exact ⟨s, rfl, rfl, rfl, rfl, fun q => by simp⟩
  | cons p ps ih =>
      rw [List.forall_mem_cons] at hps
      obtain ⟨s', hs', hsource, hdll, hopened, hget⟩ :=
        ih (s := s.set (some ⟨file, p.symbolname⟩) p) (by rw [set_dll, h]) hps.2
      refine ⟨s', ?_, by simpa using hsource, by simpa using hdll, by simpa using hopened, ?_⟩
      · rw [symbols, symbol_of_mem h hps.1]
        exact hs'
      · intro q
        rw [hget, get_set]
        by_cases hq : q = p <;> simp [hq]

/-- When a symbol is missing, the reading throws and only pointers have changed. -/
theorem symbols_throws {file : Str} {ps : List Pointer} (h : s.dll.handle = some file)
    (hps : ∃ p ∈ ps, p.symbolname ∉ (fs file).getD []) :
    ∃ s', s.symbols fs ps = (s', .throws) ∧ s'.toSource = s.toSource ∧ s'.dll = s.dll ∧
      s'.opened = s.opened := by
  induction ps generalizing s with
  | nil =>
      obtain ⟨p, hp, -⟩ := hps
      cases hp
  | cons p ps ih =>
      by_cases hp : p.symbolname ∈ (fs file).getD []
      · have hrest : ∃ q ∈ ps, q.symbolname ∉ (fs file).getD [] := by
          obtain ⟨q, hq, hmiss⟩ := hps
          cases hq with
          | head => exact absurd hp hmiss
          | tail _ hq => exact ⟨q, hq, hmiss⟩
        obtain ⟨s', hs', hsource, hdll, hopened⟩ :=
          ih (s := s.set (some ⟨file, p.symbolname⟩) p) (by rw [set_dll, h]) hrest
        refine ⟨s', ?_, by simpa using hsource, by simpa using hdll, by simpa using hopened⟩
        rw [symbols, symbol_of_mem h hp]
        exact hs'
      · refine ⟨s.set none p, ?_, set_toSource .., set_dll .., set_opened ..⟩
        rw [symbols, symbol_of_not_mem h hp]

theorem close_eq {file : Str} (h : s.dll.handle = some file) :
    s.close = { s with dll := ⟨none, []⟩, opened := s.opened.erase file } := by
  rw [close, h]

theorem provides_iff {path : Str} :
    provides fs path = true ↔
      fs (cStr path) ≠ none ∧ ∀ p : Pointer, p.symbolname ∈ (fs (cStr path)).getD [] := by
  rw [provides]
  cases fs (cStr path) with
  | none => simp
  | some syms =>
      simp only [Bool.and_eq_true, List.contains_iff_mem, Option.getD_some, ne_eq, reduceCtorEq,
        not_false_eq_true, true_and]
      constructor
      · rintro ⟨⟨h₁, h₂⟩, h₃⟩ p
        cases p with
        | openSource => exact h₁
        | getRecipient => exact h₂
        | closeSource => exact h₃
      · exact fun h => ⟨⟨h _, h _⟩, h _⟩

variable (fs) in
/-- **One attempt.**  A library that lacks a symbol is closed again. -/
theorem openLoader_tried (h : s.dll.handle = none) (path : Str) :
    Tried fs [path] s (s.openLoader fs path) := by
  have hfind : [path].find? (provides fs) = if provides fs path then some path else none := by
    cases hp : provides fs path <;> simp [hp]
  rw [Tried, hfind, openLoader, openFile, if_neg (not_not.mpr h)]
  cases hf : fs (cStr path) with
  | none =>
      have hno : ¬ provides fs path = true := fun hp => (provides_iff.mp hp).1 hf
      rw [if_neg hno]
      exact ⟨rfl, h, rfl⟩
  | some syms =>
      generalize ho : ({ s with dll := ⟨some (cStr path), path⟩, opened := cStr path :: s.opened } :
        Host) = o
      have hhandle : o.dll.handle = some (cStr path) := by rw [← ho]
      by_cases hp : provides fs path = true
      · have hall : ∀ p ∈ [Pointer.openSource, .getRecipient, .closeSource],
            p.symbolname ∈ (fs (cStr path)).getD [] := fun p _ => (provides_iff.mp hp).2 p
        obtain ⟨s', hs', hsource, hdll, hopened, hget⟩ := symbols_returns hhandle hall
        rw [if_pos hp]
        simp only [hs']
        refine ⟨by rw [hsource, ← ho], by rw [hdll, ← ho], fun p => ?_, by rw [hopened, ← ho]⟩
        rw [hget, if_pos (by cases p <;> simp)]
      · have hmiss : ∃ p ∈ [Pointer.openSource, .getRecipient, .closeSource],
            p.symbolname ∉ (fs (cStr path)).getD [] := by
          by_contra hall
          refine hp (provides_iff.mpr ⟨by simp [hf], fun p => ?_⟩)
          by_contra hq
          exact hall ⟨p, by cases p <;> simp, hq⟩
        obtain ⟨s', hs', hsource, hdll, hopened⟩ := symbols_throws hhandle hmiss
        rw [if_neg hp]
        simp only [hs']
        rw [close_eq (hdll ▸ hhandle)]
        exact ⟨by rw [hsource, ← ho], rfl, by rw [hopened, ← ho, List.erase_cons_head]⟩

/-! ## The searches -/

theorem Opened.isOpen {path : Str} (h : Opened s path s') : s'.isOpen = true := by
  rw [Host.isOpen, h.dll]
  rfl

theorem Closed.not_isOpen (h : Closed s s') : s'.isOpen = false := by
  rw [Host.isOpen, h.handle]
  rfl

theorem Tried.isOpen_iff (h : Tried fs paths s s') :
    s'.isOpen = true ↔ ∃ path ∈ paths, provides fs path = true := by
  rw [Tried] at h
  cases hf : paths.find? (provides fs) with
  | none =>
      rw [hf] at h
      rw [h.not_isOpen]
      simpa using List.find?_eq_none.mp hf
  | some path =>
      rw [hf] at h
      exact ⟨fun _ => ⟨path, List.mem_of_find?_eq_some hf, List.find?_some hf⟩, fun _ => h.isOpen⟩

theorem Tried.source (h : Tried fs paths s s') : s'.toSource = s.toSource := by
  rw [Tried] at h
  split at h
  next => exact h.source
  next => exact h.source

/-- A search that found a library is not continued. -/
theorem Tried.append_of_open (h : Tried fs paths s s') (ho : s'.isOpen = true)
    (paths' : List Str) : Tried fs (paths ++ paths') s s' := by
  rw [Tried] at h ⊢
  rw [List.find?_append]
  cases hf : paths.find? (provides fs) with
  | none =>
      rw [hf] at h
      rw [h.not_isOpen] at ho
      cases ho
  | some path => rwa [hf] at h

/-- A search that found none goes on from where it started. -/
theorem Tried.append_of_closed (h : Tried fs paths s s') (ho : s'.isOpen = false)
    (h' : s'.dll.handle = none → Tried fs paths' s' s'') : Tried fs (paths ++ paths') s s'' := by
  rw [Tried] at h ⊢
  rw [List.find?_append]
  cases hf : paths.find? (provides fs) with
  | none =>
      rw [hf] at h
      have h' := h' h.handle
      rw [Tried] at h'
      rw [Option.none_or]
      split at h'
      next => exact ⟨h'.source.trans h.source, h'.handle, h'.opened.trans h.opened⟩
      next => exact ⟨h'.source.trans h.source, h'.dll, h'.pointers, by rw [h'.opened, h.opened]⟩
  | some path =>
      rw [hf] at h
      rw [h.isOpen] at ho
      cases ho

/-- The directories of the loader path, then the name by itself. -/
theorem searchPath_tried (h : s.dll.handle = none) (name : Str) (loaderPath : List Str) :
    Tried fs (loaderPath.map (fun lp => directory lp ++ name) ++ [name]) s
      (s.searchPath fs name loaderPath) := by
  induction loaderPath generalizing s with
  | nil => exact openLoader_tried fs h name
  | cons lp rest ih =>
      have hfirst := openLoader_tried fs h (directory lp ++ name)
      rw [searchPath]
      split
      next ho => exact hfirst.append_of_open ho _
      next ho => exact hfirst.append_of_closed (Bool.not_eq_true _ ▸ ho) fun hc => ih hc

/-- A further search, unless a library is open. -/
theorem Tried.searchLoader (h : Tried fs paths s s') (hrel : s.loader.head? ≠ some (ch '/'))
    (loaderPath : List Str) (pre suf : Str) :
    Tried fs (paths ++ (loaderPath.map (fun lp => directory lp ++ (pre ++ s.loader ++ suf)) ++
      [pre ++ s.loader ++ suf])) s
      (if !s'.isOpen then s'.searchLoader fs loaderPath pre suf else s') := by
  have hloader : s'.loader = s.loader := by rw [h.source]
  cases ho : s'.isOpen with
  | true => exact h.append_of_open ho _
  | false =>
      refine h.append_of_closed ho fun hc => ?_
      change Tried fs _ s' (s'.searchLoader fs loaderPath pre suf)
      rw [Host.searchLoader, if_neg (by rwa [hloader]), hloader]
      exact searchPath_tried hc _ _

variable (fs) in
/-- **What `load_loader` leaves**: the first loader among the candidates, or nothing. -/
theorem loadLoader_tried (h : s.dll.handle = none) (loaderPath : List Str) :
    Tried fs (candidates loaderPath s.loader) s (s.loadLoader fs loaderPath).1 := by
  rw [loadLoader, candidates]
  by_cases habs : s.loader.head? = some (ch '/')
  · have hslash : s.loader.contains (ch '/') = true := by
      rw [List.contains_iff_mem]
      exact List.mem_of_mem_head? (Option.mem_def.mpr habs)
    rw [if_pos habs, searchLoader, if_pos habs]
    have htried := openLoader_tried fs h s.loader
    simp only [htried.source, hslash, Bool.not_true, Bool.and_false, Bool.false_eq_true, if_false]
    exact htried
  · have hstart : Tried fs [] s s := ⟨rfl, h, rfl⟩
    have hclosed : (!s.isOpen) = true := by rw [Host.isOpen, h]; rfl
    have h₁ := hstart.searchLoader habs loaderPath [] []
    rw [if_pos hclosed] at h₁
    generalize hs₁ : s.searchLoader fs loaderPath [] [] = s₁ at h₁
    simp only [List.nil_append, List.append_nil] at h₁
    rw [if_neg habs, namings]
    by_cases hslash : ch '/' ∈ s.loader
    · simp only [h₁.source, List.contains_iff_mem.mpr hslash, Bool.not_true, Bool.and_false,
        Bool.false_eq_true, if_false, hslash, if_true, List.flatMap_cons, List.flatMap_nil,
        List.append_nil]
      exact h₁
    · have hfree : (!s.loader.contains (ch '/')) = true := by simpa using hslash
      have h₂ := h₁.searchLoader habs loaderPath [] (str ".so")
      have h₃ := h₂.searchLoader habs loaderPath (str "lib") []
      have h₄ := h₃.searchLoader habs loaderPath (str "lib") (str ".so")
      simp only [h₁.source, hfree, Bool.and_true, if_neg hslash, List.flatMap_cons,
        List.flatMap_nil, List.append_nil, List.nil_append, List.append_assoc] at h₂ h₃ h₄ ⊢
      cases ho : s₁.isOpen with
      | true => simpa [ho] using h₄
      | false => simpa [ho] using h₄

/-- **The search for a loader.**  It returns exactly when a candidate is a loader, and
then the first one is open with its three functions.  Otherwise it throws, and no
library is open that was not before. -/
theorem loadLoader_spec (h : s.dll.handle = none) (loaderPath : List Str) :
    ((s.loadLoader fs loaderPath).2 = .returns ↔
      ∃ path ∈ candidates loaderPath s.loader, provides fs path = true) ∧
    ((s.loadLoader fs loaderPath).2 = .returns → ∃ path,
      (candidates loaderPath s.loader).find? (provides fs) = some path ∧
        Opened s path (s.loadLoader fs loaderPath).1) ∧
    ((s.loadLoader fs loaderPath).2 = .throws → Closed s (s.loadLoader fs loaderPath).1) := by
  have htried := loadLoader_tried fs h loaderPath
  have hresult : (s.loadLoader fs loaderPath).2 =
      if !(s.loadLoader fs loaderPath).1.isOpen then .throws else .returns := rfl
  rw [← htried.isOpen_iff]
  rw [Tried] at htried
  cases hf : (candidates loaderPath s.loader).find? (provides fs) with
  | none =>
      rw [hf] at htried
      rw [hresult, htried.not_isOpen]
      refine ⟨by simp, fun hr => ?_, fun _ => htried⟩
      cases hr
  | some path =>
      rw [hf] at htried
      rw [hresult, htried.isOpen]
      refine ⟨by simp, fun _ => ⟨path, rfl, htried⟩, fun hr => ?_⟩
      cases hr

end

/-- A source whose library is open keeps it. -/
theorem loadLoader_of_open {fs : Files} {s : Host} (h : s.isOpen = true) (loaderPath : List Str) :
    s.loadLoader fs loaderPath = (s, .returns) := by
  have hne : s.dll.handle ≠ none := fun hn => by
    rw [Host.isOpen, hn] at h
    cases h
  have hopen : ∀ path, s.openLoader fs path = s := fun path => by
    rw [openLoader, openFile, if_pos hne]
  have hpath : ∀ name, s.searchPath fs name loaderPath = s := fun name => by
    cases loaderPath with
    | nil => exact hopen name
    | cons lp rest => rw [searchPath, hopen, if_pos h]
  have hsearch : s.searchLoader fs loaderPath [] [] = s := by
    rw [searchLoader]
    split
    next => exact hopen _
    next => exact hpath _
  simp only [loadLoader, hsearch, h, Bool.not_true, Bool.false_and, Bool.false_eq_true, if_false]

/-- A loader in the second directory, behind a library that is none. -/
def sampleFiles : Files := fun name =>
  if name = str "/lib/ldap" then some [str "openSource"]
  else if name = str "/opt/ldap.so" then
    some [str "closeSource", str "getRecipient", str "openSource"]
  else none

/-- A source for a loader, before it is opened. -/
def sampleHost (loader : Str) : Host :=
  { uri := [], loader, dll := ⟨none, []⟩, openSource := none, getRecipient := none,
    closeSource := none, opened := [] }

theorem loadLoader_spec_sample :
    ((sampleHost (str "ldap")).loadLoader sampleFiles [str "/lib/", str "/opt"]).2 = .returns :=
  (loadLoader_spec rfl [str "/lib/", str "/opt"]).1.mpr
    ⟨str "/opt/ldap.so", by decide, by decide⟩

end Host

end Undervest
