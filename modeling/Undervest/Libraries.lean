import Undervest.Loader
import Undervest.Lib.Transition
import Mathlib.Data.List.Perm.Basic

/-!
# Libraries that stay open

A domain calls its loaders through pointers into shared libraries.  Each `Source` has a
`dl` object of its own, so the clone that a refresh makes opens the libraries again, and a
library is unloaded when the last source that has opened it is destroyed.

`Loaders` has the domain objects that are alive, in the order of their creation, and the
libraries that are open.  Domains are configured, open their loaders one source at a time
and are destroyed, in any order.  A domain that has opened all its loaders may be cloned,
and assigned to another one that has opened its own; the program copies no other.  The
files may change at any time; a library in memory keeps its symbols, and `dlopen` finds it
by the name it was opened with.

`Bound` says that the pointers of a source are into the library of its `dl`.
`loaders_stay_open` proves that libraries and sources balance, that the loaders of a domain
that has opened them can be called, and that such a domain can be cloned.
-/

namespace Undervest

open Transition

/-! ## Copies of sources -/

/-- A source object by itself. -/
structure SourceObject extends Source where
  dll : Dl
  openSource : Option Symbol
  getRecipient : Option Symbol
  closeSource : Option Symbol
deriving DecidableEq, Repr

namespace SourceObject

/-- The constructor.  The pointers have no value yet. -/
def new (src : Source) : SourceObject where
  toSource := src
  dll := ⟨none, []⟩
  openSource := none
  getRecipient := none
  closeSource := none

/-- The source in a process with some libraries. -/
def host (o : SourceObject) (opened : List Str) : Host where
  toSource := o.toSource
  dll := o.dll
  openSource := o.openSource
  getRecipient := o.getRecipient
  closeSource := o.closeSource
  opened := opened

def get (o : SourceObject) : Pointer → Option Symbol := (o.host []).get

/-- The library that the destructor closes. -/
def handles (os : List SourceObject) : List Str := os.flatMap fun o => o.dll.handle.toList

theorem handles_cons (o : SourceObject) (os : List SourceObject) :
    handles (o :: os) = o.dll.handle.toList ++ handles os := List.flatMap_cons

theorem mem_handles {o : SourceObject} {os : List SourceObject} {file : Str} (ho : o ∈ os)
    (hf : o.dll.handle = some file) : file ∈ handles os :=
  List.mem_flatMap.mpr ⟨o, ho, Option.mem_toList.mpr hf⟩

end SourceObject

namespace Host

def object (s : Host) : SourceObject where
  toSource := s.toSource
  dll := s.dll
  openSource := s.openSource
  getRecipient := s.getRecipient
  closeSource := s.closeSource

theorem object_get (s : Host) (q : Pointer) : s.object.get q = s.get q := by
  cases q <;> rfl

/-- Assignment to the `dl` of a source. -/
def assignDl (fs : Files) (d : Dl) (s : Host) : Host × Completion :=
  if d.filename ≠ s.dll.filename then
    if d.handle ≠ none then s.close.openFile fs d.filename else (s.close, .returns)
  else (s, .returns)

/-- `Source::operator=`. -/
def assign (fs : Files) (o : SourceObject) (s : Host) : Host × Completion :=
  match { s with toSource := o.toSource }.assignDl fs o.dll with
  | (s, .throws) => (s, .throws)
  | (s, .returns) =>
      ({ s with
        openSource := o.openSource
        getRecipient := o.getRecipient
        closeSource := o.closeSource }, .returns)

end Host

/-- The destructors of some sources. -/
def destroySources (os : List SourceObject) (opened : List Str) : List Str :=
  os.foldl (fun opened o => (o.host opened).close.opened) opened

/-- Assignment of a list of sources: elements are assigned, then the surplus is destroyed,
or copies are made of what is left.  There is no result when a copy throws. -/
def assignSources (fs : Files) :
    List SourceObject → List SourceObject → List Str → Option (List SourceObject × List Str)
  | own, [], opened => some ([], destroySources own opened)
  | own, o :: os, opened =>
      match ((own.headD (.new ⟨[], []⟩)).host opened).assign fs o with
      | (_, .throws) => none
      | (s, .returns) =>
          (assignSources fs own.tail os s.opened).map fun (os, opened) => (s.object :: os, opened)

/-! ## The process -/

/-- A domain object, as far as its loaders are concerned. -/
structure LoaderDomain where
  sources : List SourceObject
  /-- How many loaders `load_loaders` has opened. -/
  loaded : Nat
  /-- The failure count is -2. -/
  disabled : Bool
deriving DecidableEq, Repr

structure Loaders where
  domains : List LoaderDomain
  /-- The libraries that are open, each as often as it is open. -/
  opened : List Str
  /-- The symbols of the libraries in memory. -/
  symbols : Str → List Str

inductive LoaderAct where
  /-- `Configuration::get` makes a domain. -/
  | configure (sources : List Source)
  /-- The next turn of the loop of `Domain::load_loaders`. -/
  | loadLoader (d : Nat) (fs : Files) (loaderPath : List Str)
  /-- `Domain::refresh` copies the sources of a domain that has opened its loaders. -/
  | clone (d : Nat) (fs : Files)
  /-- `Domain::assign` copies the sources of the second domain, when both have opened their
  loaders. -/
  | assign (d e : Nat) (fs : Files)
  /-- A domain is destroyed. -/
  | release (d : Nat)

namespace LoaderDomain

/-- `load_loaders` has returned. -/
def Ready (b : LoaderDomain) : Prop := b.disabled = false ∧ b.loaded = b.sources.length

instance : DecidablePred Ready := fun b =>
  inferInstanceAs (Decidable (b.disabled = false ∧ b.loaded = b.sources.length))

end LoaderDomain

namespace Loaders

def start : Loaders := ⟨[], [], fun _ => []⟩

/-- What `dlopen` finds.  A library in memory comes before the files. -/
def files (p : Loaders) (fs : Files) : Files := fun name =>
  if p.opened.contains name then some (p.symbols name) else fs name

/-- One turn of the loop. -/
def loadNext (p : Loaders) (d : Nat) (b : LoaderDomain) (o : SourceObject) (fs : Files)
    (loaderPath : List Str) : Loaders :=
  let r := (o.host p.opened).loadLoader (p.files fs) loaderPath
  { domains := p.domains.set d
      { sources := b.sources.set b.loaded r.1.object
        loaded := if r.2 = .returns then b.loaded + 1 else b.loaded
        disabled := decide (r.2 = .throws) }
    opened := r.1.opened
    symbols := fun name => (p.files fs name).getD [] }

def step (p : Loaders) : LoaderAct → Option Loaders
  | .configure sources =>
      some { p with domains := p.domains ++ [⟨sources.map .new, 0, false⟩] }
  | .loadLoader d fs loaderPath =>
      (p.domains[d]?).bind fun b =>
        if b.disabled then none
        else (b.sources[b.loaded]?).map fun o => p.loadNext d b o fs loaderPath
  | .clone d fs =>
      (p.domains[d]?).bind fun b =>
        if b.Ready then
          (assignSources (p.files fs) [] b.sources p.opened).map fun (os, opened) =>
            { p with domains := p.domains ++ [{ b with sources := os }], opened := opened }
        else none
  | .assign d e fs =>
      (p.domains[d]?).bind fun b => (p.domains[e]?).bind fun b' =>
        if d ≠ e ∧ b.Ready ∧ b'.Ready then
          (assignSources (p.files fs) b.sources b'.sources p.opened).map fun (os, opened) =>
            { p with domains := p.domains.set d { b' with sources := os }, opened := opened }
        else none
  | .release d =>
      (p.domains[d]?).map fun b =>
        { p with domains := p.domains.eraseIdx d, opened := destroySources b.sources p.opened }

/-- The program itself, which has the empty file name, is no loader. -/
def ProgramIsNoLoader (_p : Loaders) : LoaderAct → Prop
  | .loadLoader _ fs _ => provides fs [] = false
  | _ => True

end Loaders

/-! ## Bound sources -/

section

variable {fs : Files} {sym : Str → List Str} {o t : SourceObject} {os own : List SourceObject}
  {opened rest : List Str}

/-- The `dl` is open, under a name that is not empty, and the pointers are the functions of
its library. -/
structure SourceObject.Bound (sym : Str → List Str) (o : SourceObject) : Prop where
  handle : o.dll.handle = some (cStr o.dll.filename)
  named : cStr o.dll.filename ≠ []
  pointers : ∀ q, o.get q = some ⟨cStr o.dll.filename, q.symbolname⟩
  symbols : ∀ q : Pointer, q.symbolname ∈ sym (cStr o.dll.filename)

namespace SourceObject.Bound

theorem filename (h : o.Bound sym) : o.dll.filename ≠ [] := by
  intro hnil
  apply h.named
  rw [hnil]
  rfl

/-- Sources with the same file name have the same library. -/
theorem dll_eq (h : o.Bound sym) (h' : t.Bound sym) (hf : o.dll.filename = t.dll.filename) :
    o.dll = t.dll := by
  have hhandle : o.dll.handle = t.dll.handle := by rw [h.handle, h'.handle, hf]
  calc o.dll = ⟨o.dll.handle, o.dll.filename⟩ := rfl
    _ = ⟨t.dll.handle, t.dll.filename⟩ := by rw [hhandle, hf]

end SourceObject.Bound

/-- Closing gives back the library of the source. -/
theorem close_opened (o : SourceObject) (h : opened.Perm (o.dll.handle.toList ++ rest)) :
    (o.host opened).close.opened.Perm rest ∧ (o.host opened).close.dll.handle = none := by
  unfold Host.close
  cases hh : o.dll.handle with
  | none => simpa [SourceObject.host, hh] using h
  | some file =>
      simp only [SourceObject.host, hh]
      have hcons : opened.Perm (file :: rest) := by simpa [hh] using h
      exact ⟨(hcons.erase file).trans (by rw [List.erase_cons_head]), trivial⟩

theorem close_toSource (s : Host) : s.close.toSource = s.toSource := by
  unfold Host.close
  split
  next => rfl
  next => rfl

/-- Assigning a source that is bound gives the same source, and one more use of its library
in place of the use the target had. -/
theorem assign_spec (ht : t.Bound sym ∨ t.dll = ⟨none, []⟩) (ho : o.Bound sym)
    (hfs : fs (cStr o.dll.filename) ≠ none)
    (hp : opened.Perm (t.dll.handle.toList ++ rest)) :
    ∃ s, (t.host opened).assign fs o = (s, .returns) ∧ s.object = o ∧
      s.opened.Perm (o.dll.handle.toList ++ rest) := by
  generalize ht' : ({ t with toSource := o.toSource } : SourceObject) = t'
  have hdll : t'.dll = t.dll := by rw [← ht']
  have hsource : t'.toSource = o.toSource := by rw [← ht']
  have hstart : { t.host opened with toSource := o.toSource } = t'.host opened := by
    rw [← ht']
    rfl
  rw [Host.assign, hstart, Host.assignDl]
  by_cases hf : o.dll.filename = t.dll.filename
  · have hbound : t.Bound sym := ht.resolve_right fun hblank => ho.filename (by rw [hf, hblank])
    have hsame : o.dll = t.dll := ho.dll_eq hbound hf
    rw [if_neg (not_not.mpr (hf.trans (by rw [← hdll]; rfl)))]
    refine ⟨_, rfl, ?_, ?_⟩
    · simp only [Host.object, SourceObject.host, hsource, hdll, ← hsame]
    · rw [hsame]
      exact hp
  · have hp' : opened.Perm (t'.dll.handle.toList ++ rest) := by
      simpa [SourceObject.handles, hdll] using hp
    obtain ⟨hclosed, hnone⟩ := close_opened t' hp'
    obtain ⟨syms, hsyms⟩ := Option.ne_none_iff_exists'.mp hfs
    have hopen : (t'.host opened).close.openFile fs o.dll.filename =
        ({ (t'.host opened).close with
          dll := o.dll
          opened := cStr o.dll.filename :: (t'.host opened).close.opened }, .returns) := by
      rw [Host.openFile, if_neg (not_not.mpr hnone)]
      simp only [hsyms, ← ho.handle]
    rw [if_pos (fun h => hf (h.trans (by rw [← hdll]; rfl))), if_pos (by simp [ho.handle]), hopen]
    refine ⟨_, rfl, ?_, ?_⟩
    · simp only [Host.object, close_toSource, SourceObject.host, hsource]
    · simpa [ho.handle] using hclosed

/-! ## Lists of sources -/

/-- The destructors give back the libraries of the sources. -/
theorem destroySources_perm (hp : opened.Perm (SourceObject.handles os ++ rest)) :
    (destroySources os opened).Perm rest := by
  induction os generalizing opened with
  | nil => exact hp
  | cons o os ih =>
      rw [SourceObject.handles_cons, List.append_assoc] at hp
      exact ih (close_opened o hp).1

/-- An assignment of bound sources does not throw, and gives the same sources. -/
theorem assignSources_spec (hown : ∀ t ∈ own, t.Bound sym)
    (hos : ∀ o ∈ os, o.Bound sym ∧ fs (cStr o.dll.filename) ≠ none)
    (hp : opened.Perm (SourceObject.handles own ++ rest)) :
    ∃ opened', assignSources fs own os opened = some (os, opened') ∧
      opened'.Perm (SourceObject.handles os ++ rest) := by
  induction os generalizing own opened rest with
  | nil => exact ⟨_, rfl, destroySources_perm hp⟩
  | cons o os ih =>
      rw [List.forall_mem_cons] at hos
      have ht : (own.headD (.new ⟨[], []⟩)).Bound sym ∨
          (own.headD (.new ⟨[], []⟩)).dll = ⟨none, []⟩ := by
        cases own with
        | nil => exact Or.inr rfl
        | cons t own => exact Or.inl (hown t (List.mem_cons_self ..))
      have hhead : opened.Perm ((own.headD (.new ⟨[], []⟩)).dll.handle.toList ++
          (SourceObject.handles own.tail ++ rest)) := by
        cases own with
        | nil => exact hp
        | cons t own => rwa [SourceObject.handles_cons, List.append_assoc] at hp
      obtain ⟨s, hs, hobject, hopened⟩ := assign_spec ht hos.1.1 hos.1.2 hhead
      -- the library of the copy joins the rest
      have htail : s.opened.Perm
          (SourceObject.handles own.tail ++ (o.dll.handle.toList ++ rest)) := by
        refine hopened.trans ?_
        rw [← List.append_assoc, ← List.append_assoc]
        exact List.perm_append_comm.append_right rest
      obtain ⟨opened', hrest, hperm⟩ :=
        ih (fun t ht => hown t (List.mem_of_mem_tail ht)) hos.2 htail
      refine ⟨opened', by simp only [assignSources, hs, hrest, hobject, Option.map_some], ?_⟩
      refine hperm.trans ?_
      rw [SourceObject.handles_cons, ← List.append_assoc]
      exact List.perm_append_comm.append_right rest

end

/-! ## The invariant -/

namespace LoaderDomain

def handles (b : LoaderDomain) : List Str := SourceObject.handles b.sources

/-- The sources that `load_loaders` has done are bound, and no other has a library. -/
structure Sound (sym : Str → List Str) (b : LoaderDomain) : Prop where
  bound : ∀ i o, b.sources[i]? = some o → i < b.loaded → o.Bound sym
  closed : ∀ i o, b.sources[i]? = some o → b.loaded ≤ i → o.dll.handle = none

theorem Sound.ready {sym : Str → List Str} {b : LoaderDomain} (h : b.Sound sym) (hb : b.Ready) :
    ∀ o ∈ b.sources, o.Bound sym := by
  intro o ho
  obtain ⟨i, hi⟩ := List.mem_iff_getElem?.mp ho
  exact h.bound i o hi (hb.2 ▸ (List.getElem?_eq_some_iff.mp hi).1)

/-- A library of a domain is that of a bound source. -/
theorem Sound.of_mem_handles {sym : Str → List Str} {b : LoaderDomain} (h : b.Sound sym)
    {file : Str} (hf : file ∈ b.handles) :
    ∃ o ∈ b.sources, o.Bound sym ∧ file = cStr o.dll.filename := by
  obtain ⟨o, ho, hfile⟩ := List.mem_flatMap.mp hf
  obtain ⟨i, hi⟩ := List.mem_iff_getElem?.mp ho
  rw [Option.mem_toList] at hfile
  have hlt : i < b.loaded := by
    by_contra hle
    rw [h.closed i o hi (not_lt.mp hle)] at hfile
    cases hfile
  have hbound := h.bound i o hi hlt
  exact ⟨o, ho, hbound, (Option.some.inj (hbound.handle.symm.trans hfile)).symm⟩

end LoaderDomain

namespace Loaders

/-- Libraries and sources balance. -/
structure Sound (p : Loaders) : Prop where
  balanced : p.opened.Perm (p.domains.flatMap LoaderDomain.handles)
  domains : ∀ b ∈ p.domains, b.Sound p.symbols

/-- One element of a list is exchanged. -/
theorem flatMap_set_perm {α β : Type} (f : α → List β) {l : List α} {i : Nat} {a : α}
    (h : l[i]? = some a) (b : α) :
    (l.flatMap f).Perm (f a ++ (l.eraseIdx i).flatMap f) ∧
      ((l.set i b).flatMap f).Perm (f b ++ (l.eraseIdx i).flatMap f) := by
  obtain ⟨hi, rfl⟩ := List.getElem?_eq_some_iff.mp h
  exact ⟨((List.getElem_cons_eraseIdx_perm hi).symm.flatMap_right f),
    ((List.set_perm_cons_eraseIdx hi b).flatMap_right f)⟩

section

variable {p p' : Loaders} {fs : Files} {b : LoaderDomain} {o : SourceObject} {d i : Nat}

theorem Sound.mem_opened (h : p.Sound) (hb : b ∈ p.domains) (ho : o ∈ b.sources)
    (hbound : o.Bound p.symbols) : cStr o.dll.filename ∈ p.opened :=
  h.balanced.mem_iff.mpr
    (List.mem_flatMap.mpr ⟨b, hb, SourceObject.mem_handles ho hbound.handle⟩)

theorem Sound.nil_notMem (h : p.Sound) : [] ∉ p.opened := by
  intro hm
  obtain ⟨b, hb, hfile⟩ := List.mem_flatMap.mp (h.balanced.mem_iff.mp hm)
  obtain ⟨o, -, hbound, hnil⟩ := (h.domains b hb).of_mem_handles hfile
  exact hbound.named hnil.symm

theorem files_of_mem {file : Str} (h : file ∈ p.opened) : p.files fs file = some (p.symbols file) :=
  if_pos (List.contains_iff_mem.mpr h)

/-- A library in memory keeps its symbols. -/
theorem Sound.keeps (h : p.Sound) (fs : Files) (hb : b ∈ p.domains) :
    b.Sound fun name => (p.files fs name).getD [] := by
  obtain ⟨hbound, hclosed⟩ := h.domains b hb
  refine ⟨fun i o ho hi => ?_, hclosed⟩
  have hold := hbound i o ho hi
  have hmem := h.mem_opened hb (List.mem_of_getElem? ho) hold
  refine ⟨hold.handle, hold.named, hold.pointers, fun q => ?_⟩
  rw [files_of_mem hmem]
  exact hold.symbols q

/-- A name by which no library may be opened provides nothing. -/
theorem Sound.not_provides (h : p.Sound) (hfs : provides fs [] = false) {path : Str}
    (hp : provides (p.files fs) path = true) : cStr path ≠ [] := by
  intro hnil
  have hfile : p.files fs [] = fs [] :=
    if_neg fun hc => h.nil_notMem (List.contains_iff_mem.mp hc)
  have hsame : provides (p.files fs) path = provides fs [] := by
    rw [provides, provides, hnil, hfile]
    rfl
  rw [hsame, hfs] at hp
  cases hp

/-- What `load_loader` does for a source without a library. -/
theorem Sound.loadLoader (h : p.Sound) (hnone : o.dll.handle = none)
    (hfs : provides fs [] = false) (loaderPath : List Str) {s : Host} {r : Completion}
    (hr : (o.host p.opened).loadLoader (p.files fs) loaderPath = (s, r)) :
    s.opened.Perm (s.dll.handle.toList ++ p.opened) ∧
      (r = .returns → s.object.Bound fun name => (p.files fs name).getD []) ∧
      (r = .throws → s.dll.handle = none) := by
  obtain ⟨-, hreturns, hthrows⟩ :=
    @Host.loadLoader_spec (p.files fs) (o.host p.opened) hnone loaderPath
  rw [hr] at hreturns hthrows
  cases r with
  | returns =>
      obtain ⟨path, hfind, hopened⟩ := hreturns rfl
      have hprovides := List.find?_some hfind
      refine ⟨?_, fun _ => ?_, fun hr => (by cases hr)⟩
      · rw [hopened.opened, hopened.dll]
        exact List.Perm.refl _
      · have hname : s.object.dll.filename = path := congrArg Dl.filename hopened.dll
        refine ⟨?_, ?_, fun q => ?_, fun q => ?_⟩
        · rw [hname]
          exact congrArg Dl.handle hopened.dll
        · rw [hname]
          exact h.not_provides hfs hprovides
        · rw [hname, Host.object_get]
          exact hopened.pointers q
        · rw [hname]
          exact (Host.provides_iff.mp hprovides).2 q
  | throws =>
      have hclosed := hthrows rfl
      refine ⟨?_, fun hr => (by cases hr), fun _ => hclosed.handle⟩
      rw [hclosed.opened, hclosed.handle]
      exact List.Perm.refl _

/-- The source that `load_loaders` takes next, after its turn. -/
theorem Sound.loadNext (h : p.Sound) (hd : p.domains[d]? = some b)
    (ho : b.sources[b.loaded]? = some o) (hfs : provides fs [] = false) (loaderPath : List Str) :
    (p.loadNext d b o fs loaderPath).Sound := by
  have hb := List.mem_of_getElem? hd
  have hnone : o.dll.handle = none := (h.domains b hb).closed _ o ho le_rfl
  obtain ⟨s, r, hr⟩ : ∃ s r, (o.host p.opened).loadLoader (p.files fs) loaderPath = (s, r) :=
    ⟨_, _, rfl⟩
  obtain ⟨hopened, hreturns, hthrows⟩ := h.loadLoader hnone hfs loaderPath hr
  simp only [Loaders.loadNext, hr]
  constructor
  · -- the source had no library before
    obtain ⟨hold, hnew⟩ :=
      flatMap_set_perm (fun o : SourceObject => o.dll.handle.toList) ho s.object
    rw [hnone, Option.toList_none, List.nil_append] at hold
    have hsources : (SourceObject.handles (b.sources.set b.loaded s.object)).Perm
        (s.dll.handle.toList ++ b.handles) :=
      hnew.trans (hold.symm.append_left _)
    obtain ⟨hbefore, hafter⟩ := flatMap_set_perm LoaderDomain.handles hd
      ⟨b.sources.set b.loaded s.object, if r = .returns then b.loaded + 1 else b.loaded,
        decide (r = .throws)⟩
    calc s.opened.Perm (s.dll.handle.toList ++ p.opened) := hopened
      _ |>.Perm _ := (h.balanced.trans hbefore).append_left _
      _ |>.Perm _ := by
          rw [← List.append_assoc]
          exact (hsources.symm.append_right _).trans hafter.symm
  · intro b' hb'
    cases List.mem_or_eq_of_mem_set hb' with
    | inl hold => exact h.keeps fs hold
    | inr hnew =>
        subst hnew
        have hkeeps := h.keeps fs hb
        have hlt : b.loaded < b.sources.length := (List.getElem?_eq_some_iff.mp ho).1
        constructor
        · intro i o' ho' hi
          simp only [List.getElem?_set] at ho' hi
          split at ho'
          next he =>
              subst he
              obtain rfl : s.object = o' := by simpa [hlt] using ho'
              cases r with
              | returns => exact hreturns rfl
              | throws => exact absurd hi (lt_irrefl _)
          next hne =>
              refine hkeeps.bound i o' ho' ?_
              split at hi
              next => exact lt_of_le_of_ne (Nat.le_of_lt_succ hi) (Ne.symm hne)
              next => exact hi
        · intro i o' ho' hi
          simp only [List.getElem?_set] at ho' hi
          split at ho'
          next he =>
              subst he
              obtain rfl : s.object = o' := by simpa [hlt] using ho'
              cases r with
              | returns => exact absurd hi (Nat.not_succ_le_self _)
              | throws => exact hthrows rfl
          next hne =>
              refine hkeeps.closed i o' ho' (le_trans ?_ hi)
              split
              next => exact Nat.le_succ _
              next => exact le_rfl

/-- The sources of a ready domain can be assigned. -/
theorem Sound.copyable (h : p.Sound) (fs : Files) (hb : b ∈ p.domains) (hr : b.Ready) :
    ∀ o ∈ b.sources, o.Bound p.symbols ∧ p.files fs (cStr o.dll.filename) ≠ none := by
  intro o ho
  have hbound := (h.domains b hb).ready hr o ho
  refine ⟨hbound, ?_⟩
  rw [files_of_mem (h.mem_opened hb ho hbound)]
  exact Option.some_ne_none _

/-- A ready domain can be cloned, and the clone has the same sources. -/
theorem Sound.clone (h : p.Sound) (hd : p.domains[d]? = some b) (hr : b.Ready) (fs : Files) :
    ∃ opened, p.step (.clone d fs) =
      some { p with domains := p.domains ++ [b], opened := opened } ∧
      opened.Perm (b.handles ++ p.opened) := by
  have hcopy : ∃ opened, assignSources (p.files fs) [] b.sources p.opened =
      some (b.sources, opened) ∧ opened.Perm (b.handles ++ p.opened) :=
    assignSources_spec (fun t ht => (by cases ht)) (h.copyable fs (List.mem_of_getElem? hd) hr)
      (List.Perm.refl _)
  obtain ⟨opened, hassign, hperm⟩ := hcopy
  refine ⟨opened, ?_, hperm⟩
  simp only [step, hd, Option.bind_some, if_pos hr, hassign, Option.map_some]

theorem Sound.step {a : LoaderAct} (h : p.Sound) (hok : p.ProgramIsNoLoader a)
    (hs : p.step a = some p') : p'.Sound := by
  cases a with
  | configure sources =>
      obtain rfl := Option.some.inj hs
      refine ⟨?_, fun b hb => ?_⟩
      · rw [List.flatMap_append, List.flatMap_singleton]
        have hnew : LoaderDomain.handles ⟨sources.map .new, 0, false⟩ = [] := by
          rw [LoaderDomain.handles, SourceObject.handles, List.flatMap_map]
          exact List.flatMap_eq_nil_iff.mpr fun _ _ => rfl
        rw [hnew, List.append_nil]
        exact h.balanced
      · cases List.mem_append.mp hb with
        | inl hold => exact h.domains b hold
        | inr hnew =>
            obtain rfl := List.mem_singleton.mp hnew
            refine ⟨fun i o _ hi => absurd hi (Nat.not_lt_zero i), fun i o ho _ => ?_⟩
            rw [List.getElem?_map] at ho
            obtain ⟨src, -, rfl⟩ := Option.map_eq_some_iff.mp ho
            rfl
  | loadLoader d fs loaderPath =>
      obtain ⟨b, hd, hs⟩ := Option.bind_eq_some_iff.mp hs
      split at hs
      next => cases hs
      next =>
          obtain ⟨o, ho, rfl⟩ := Option.map_eq_some_iff.mp hs
          exact h.loadNext hd ho hok loaderPath
  | clone d fs =>
      obtain ⟨b, hd, hs'⟩ := Option.bind_eq_some_iff.mp hs
      split at hs'
      next hr =>
          obtain ⟨opened, hclone, hperm⟩ := h.clone hd hr fs
          obtain rfl := Option.some.inj (hclone.symm.trans hs)
          refine ⟨?_, fun b' hb' => ?_⟩
          · rw [List.flatMap_append, List.flatMap_singleton]
            exact hperm.trans ((h.balanced.append_left _).trans List.perm_append_comm)
          · cases List.mem_append.mp hb' with
            | inl hold => exact h.domains b' hold
            | inr hnew =>
                obtain rfl := List.mem_singleton.mp hnew
                exact h.domains b' (List.mem_of_getElem? hd)
      next => cases hs'
  | assign d e fs =>
      obtain ⟨b, hd, hs⟩ := Option.bind_eq_some_iff.mp hs
      obtain ⟨b', he, hs⟩ := Option.bind_eq_some_iff.mp hs
      split at hs
      next hr =>
          have hb' := List.mem_of_getElem? he
          obtain ⟨hbefore, hafter⟩ := flatMap_set_perm LoaderDomain.handles hd b'
          obtain ⟨opened, hassign, hperm⟩ :=
            assignSources_spec ((h.domains b (List.mem_of_getElem? hd)).ready hr.2.1)
              (h.copyable fs hb' hr.2.2) (h.balanced.trans hbefore)
          rw [hassign] at hs
          obtain rfl := Option.some.inj hs
          refine ⟨hperm.trans hafter.symm, fun x hx => ?_⟩
          cases List.mem_or_eq_of_mem_set hx with
          | inl hold => exact h.domains x hold
          | inr hnew => exact hnew ▸ h.domains b' hb'
      next => cases hs
  | release d =>
      obtain ⟨b, hd, rfl⟩ := Option.map_eq_some_iff.mp hs
      obtain ⟨hbefore, -⟩ := flatMap_set_perm LoaderDomain.handles hd b
      exact ⟨destroySources_perm (h.balanced.trans hbefore),
        fun x hx => h.domains x (List.mem_of_mem_eraseIdx hx)⟩

theorem sound {p : Loaders} (h : Reachable step ProgramIsNoLoader start p) : p.Sound :=
  h.invariant (P := Sound) ⟨List.Perm.refl _, fun b hb => (by cases hb)⟩
    fun _ _ _ hp hok hs => hp.step hok hs

end

end Loaders

/-- **Loaders stay open.**  Whatever the order in which domains are configured, open their
loaders and are destroyed, and in which those that have opened them are cloned and assigned
to each other, and whatever becomes of the files, each library is open as often as there
are sources that have opened it.  The pointers of a domain whose loaders have been opened
are functions of open libraries, and a refresh can copy its sources. -/
theorem loaders_stay_open {p : Loaders}
    (h : Reachable Loaders.step Loaders.ProgramIsNoLoader Loaders.start p) :
    p.opened.Perm (p.domains.flatMap LoaderDomain.handles) ∧
      (∀ b ∈ p.domains, b.Ready → ∀ o ∈ b.sources, ∃ file ∈ p.opened, ∀ q : Pointer,
        o.get q = some ⟨file, q.symbolname⟩ ∧ q.symbolname ∈ p.symbols file) ∧
      ∀ d b fs, p.domains[d]? = some b → b.Ready → ∃ opened, p.step (.clone d fs) =
        some { p with domains := p.domains ++ [b], opened := opened } := by
  have hp := Loaders.sound h
  refine ⟨hp.balanced, fun b hb hr o ho => ?_, fun d b fs hd hr => ?_⟩
  · have hbound := (hp.domains b hb).ready hr o ho
    exact ⟨_, hp.mem_opened hb ho hbound, fun q => ⟨hbound.pointers q, hbound.symbols q⟩⟩
  · obtain ⟨opened, hclone, -⟩ := hp.clone hd hr fs
    exact ⟨opened, hclone⟩

/-- The clone of a domain keeps its library when the file is gone and the domain too. -/
theorem loaders_stay_open_sample :
    ∃ p, Reachable Loaders.step Loaders.ProgramIsNoLoader Loaders.start p ∧
      ∃ b, p.domains = [b] ∧ ∀ o ∈ b.sources, ∃ file ∈ p.opened, ∀ q : Pointer,
        o.get q = some ⟨file, q.symbolname⟩ ∧ q.symbolname ∈ p.symbols file := by
  have hok : ∀ (p : Loaders), ∀ a ∈ ([.configure [⟨str "f", str "ldap"⟩],
      .loadLoader 0 Host.sampleFiles [str "/lib/", str "/opt"], .clone 0 fun _ => none,
      .release 0] : List LoaderAct), p.ProgramIsNoLoader a := by
    have hprogram : provides Host.sampleFiles [] = false := by decide
    simp [Loaders.ProgramIsNoLoader, hprogram]
  have hrun : ∃ p, Reachable Loaders.step Loaders.ProgramIsNoLoader Loaders.start p ∧
      ∃ b ∈ p.domains, p.domains = [b] ∧ b.Ready :=
    Reachable.exists_of_run hok (by decide)
  obtain ⟨p, hp, b, hb, hdomains, hr⟩ := hrun
  exact ⟨p, hp, b, hdomains, (loaders_stay_open hp).2.1 b hb hr⟩

end Undervest
