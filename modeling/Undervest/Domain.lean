import Undervest.Slices
import Undervest.Source
import Mathlib.Data.Finset.Union

/-!
# Mail domains

A domain holds the valid recipients of a mail domain and two matchers over
them.  `loadData` reads the sources in order, then builds both matchers anew
from all recipients.  `recipient` looks a name up: the n-gram matcher first, and
the word matcher when the first finds nothing above its threshold.

`failureCount` is `-1` before the first load, `0` after a successful one, `-2`
in a disabled domain, and otherwise a number of failures.  Only a domain whose
count is zero looks names up.

`Algorithm` names the two matchers, so that a fact about both is stated once.
`Domain.Loaded` says that a domain is the result of a successful load, and
`Domain.Indexed` collects what follows from it: the count is zero and each
matcher indexes each recipient once.
-/

namespace Undervest

open Unordered Matcher FloatingPoint

/-! ## Data -/

/-- `Domain::NgramMatcher`. -/
structure NgramMatcher extends Matcher where
  ngramSize : UInt16

/-- The constructor. -/
def NgramMatcher.new (siz : UInt16) : NgramMatcher := { Matcher.empty with ngramSize := siz }

def NgramMatcher.slice (m : NgramMatcher) : Str → Bool → List Str := ngramSlice m.ngramSize

/-- Mail domain. -/
structure Domain where
  /-- Domain name. -/
  name : Str
  /-- Data sources. -/
  sources : List Source
  /-- Valid domain recipients. -/
  recipients : UnorderedSet Str
  ngramMatch : NgramMatcher
  wordMatch : Matcher
  ngramThreshold : ℚ
  wordThreshold : ℚ
  /-- Refresh period. -/
  refreshSec : UInt32
  /-- Continuous retry period. -/
  retrySec : UInt32
  /-- Retry periods. -/
  retries : List UInt32
  /-- Init to -1, -2 to disable. -/
  failureCount : Int16
  ngramSize : UInt16
  /-- Fix non-ambiguous recipient. -/
  fixRecipient : Bool

/-- What the sources of a domain deliver during one load, by position. -/
abbrev Feed := Nat → Delivery

namespace Domain

/-! ## Loading -/

/-- Load the sources from position `i` on. -/
def loadSources (name : Str) (feed : Feed) :
    Nat → List Source → UnorderedSet Str → UnorderedSet Str × Completion
  | _, [], recipients => (recipients, .returns)
  | i, _ :: sources, recipients =>
      match Source.loadData name (feed i) recipients with
      | (recipients, .throws) => (recipients, .throws)
      | (recipients, .returns) => loadSources name feed (i + 1) sources recipients

/-- Add a recipient to both matchers. -/
def addToMatchers (d : Domain) (t : Str) : Domain :=
  { d with
    ngramMatch := { d.ngramMatch with toMatcher := d.ngramMatch.add d.ngramMatch.slice t }
    wordMatch := d.wordMatch.add wordSlice t }

/-- Build both matchers anew from all recipients. -/
def buildMatchers (c : Choices) (d : Domain) : Domain :=
  (c.iterate d.recipients.toList).foldl addToMatchers
    { d with ngramMatch := NgramMatcher.new d.ngramSize, wordMatch := Matcher.empty }

/-- `Domain::load_data`. -/
def loadData (c : Choices) (feed : Feed) (d : Domain) : Domain × Completion :=
  if d.failureCount ≠ -2 then
    match loadSources d.name feed 0 d.sources d.recipients with
    | (recipients, .throws) => ({ d with recipients }, .throws)
    | (recipients, .returns) =>
        ({ buildMatchers c { d with recipients } with failureCount := 0 }, .returns)
  else (d, .returns)

/-! ## Looking up -/

/-- The test of the results of one matcher: nothing reaches the threshold, or
one target does, or several do and the query is kept as it is. -/
def choose (ρ : Rounding) (results : List Result) (threshold : ℚ) (s : Str) : Option Str :=
  match results with
  | [] => none
  | best :: rest =>
      if best.score.geRat ρ threshold then
        match rest with
        | [] => some best.text
        | second :: _ => if second.score.geRat ρ threshold then some s else some best.text
      else none

/-- `Domain::recipient`. -/
def recipient (c : Choices) (d : Domain) (s : Str) : Option Str :=
  if d.failureCount ≠ 0 then some s
  else
    match choose c.rounding (d.ngramMatch.matchResults c d.ngramMatch.slice s)
        d.ngramThreshold s with
    | some t => some t
    | none => choose c.rounding (d.wordMatch.matchResults c wordSlice s) d.wordThreshold s

end Domain

/-! ## Both matchers at once -/

/-- The matching algorithms of a domain. -/
inductive Algorithm where
  | ngram
  | word
deriving DecidableEq, Repr

namespace Domain

/-- How an algorithm slices names. -/
def slicing (d : Domain) : Algorithm → Str → Bool → List Str
  | .ngram => d.ngramMatch.slice
  | .word => wordSlice

def matcher (d : Domain) : Algorithm → Matcher
  | .ngram => d.ngramMatch.toMatcher
  | .word => d.wordMatch

def threshold (d : Domain) : Algorithm → ℚ
  | .ngram => d.ngramThreshold
  | .word => d.wordThreshold

/-- The answer of one algorithm, `none` when it accepts no target. -/
def verdict (c : Choices) (d : Domain) (a : Algorithm) (s : Str) : Option Str :=
  choose c.rounding ((d.matcher a).matchResults c (d.slicing a) s) (d.threshold a) s

/-- The profile an algorithm gives to a name. -/
def profile (d : Domain) : Algorithm → Str → Profile
  | .ngram => Profile.ngram d.ngramSize.toNat
  | .word => Profile.word

theorem recipient_eq (c : Choices) (d : Domain) (s : Str) :
    d.recipient c s =
      if d.failureCount ≠ 0 then some s else (d.verdict c .ngram s).or (d.verdict c .word s) := by
  unfold recipient
  split
  next => rfl
  next =>
      change (match d.verdict c .ngram s with | some t => some t | none => d.verdict c .word s) = _
      cases d.verdict c .ngram s <;> rfl

/-! ## Loaded domains -/

/-- The domain is the result of a load that succeeded. -/
def Loaded (c : Choices) (d : Domain) : Prop :=
  ∃ d₀ feed, d₀.failureCount ≠ -2 ∧ loadData c feed d₀ = (d, .returns)

/-- The names the sources of a domain deliver for it. -/
def collected (d : Domain) (feed : Feed) : Finset Str :=
  (Finset.range d.sources.length).biUnion fun i => (feed i).collected d.name

/-- Each matcher indexes each recipient once. -/
structure Indexed (d : Domain) : Prop where
  size : d.ngramMatch.ngramSize = d.ngramSize
  indexes : ∃ names, names.Perm d.recipients.toList ∧
    ∀ a, Indexes (fun t => orEmpty (d.slicing a t true)) (d.matcher a) names

theorem realises {d : Domain} (h : d.ngramMatch.ngramSize = d.ngramSize) (a : Algorithm) :
    Realises (d.slicing a) (d.profile a) := by
  cases a with
  | ngram =>
      have := ngramSlice_realises d.ngramMatch.ngramSize
      rw [h] at this
      simpa [slicing, NgramMatcher.slice, profile, h] using this
  | word => exact wordSlice_realises

theorem loadSources_returns {name : Str} {feed : Feed} {sources : List Source} {i : Nat}
    {r r' : UnorderedSet Str} (h : loadSources name feed i sources r = (r', .returns)) :
    r'.toFinset = r.toFinset ∪
      (Finset.range sources.length).biUnion fun k => (feed (i + k)).collected name := by
  induction sources generalizing i r with
  | nil =>
      cases h
      simp
  | cons _ sources ih =>
      rw [loadSources] at h
      cases hs : Source.loadData name (feed i) r with
      | mk r₁ completion =>
          rw [hs] at h
          cases completion with
          | throws => cases h
          | returns =>
              rw [ih h, Source.loadData_returns hs]
              ext x
              simp only [List.length_cons, Finset.mem_union, Finset.mem_biUnion, Finset.mem_range,
                Nat.exists_lt_succ_left, Nat.add_zero, or_assoc, Nat.add_assoc, Nat.add_comm 1]

/-- Loading the sources throws when a loader does. -/
theorem loadSources_throws (name : Str) (feed : Feed) (sources : List Source) (i : Nat)
    (r : UnorderedSet Str) :
    (loadSources name feed i sources r).2 = .throws ↔
      ∃ k < sources.length, (feed (i + k)).Fails := by
  induction sources generalizing i r with
  | nil => simp [loadSources]
  | cons _ sources ih =>
      have hfails := Source.loadData_throws name (feed i) r
      rw [loadSources]
      cases hs : Source.loadData name (feed i) r with
      | mk r₁ completion =>
          rw [hs] at hfails
          rw [List.length_cons, Nat.exists_lt_succ_left]
          change _ ↔ (feed i).Fails ∨ _
          rw [← hfails]
          cases completion with
          | throws => simp
          | returns => simp only [ih, reduceCtorEq, false_or, Nat.add_assoc, Nat.add_comm 1]

/-- The loop over the recipients changes the matchers only, each by its own loop. -/
theorem foldl_addToMatchers (names : List Str) (d : Domain) :
    names.foldl addToMatchers d =
      { d with
        ngramMatch := { d.ngramMatch with
          toMatcher := names.foldl (fun m t => m.add d.ngramMatch.slice t) d.ngramMatch.toMatcher }
        wordMatch := names.foldl (fun m t => m.add wordSlice t) d.wordMatch } := by
  induction names generalizing d with
  | nil => rfl
  | cons t names ih =>
      rw [List.foldl_cons, ih]
      rfl

theorem buildMatchers_indexes (c : Choices) (d : Domain) (a : Algorithm) :
    Indexes (fun t => orEmpty ((buildMatchers c d).slicing a t true))
      ((buildMatchers c d).matcher a) (c.iterate d.recipients.toList) := by
  rw [buildMatchers, foldl_addToMatchers]
  cases a with
  | ngram => exact indexes_foldl_add (ngramSlice d.ngramSize) _ [] Matcher.empty (indexes_empty _)
  | word => exact indexes_foldl_add wordSlice _ [] Matcher.empty (indexes_empty _)

theorem buildMatchers_recipients (c : Choices) (d : Domain) :
    (buildMatchers c d).recipients = d.recipients := by
  rw [buildMatchers, foldl_addToMatchers]

theorem buildMatchers_size (c : Choices) (d : Domain) :
    (buildMatchers c d).ngramMatch.ngramSize = (buildMatchers c d).ngramSize := by
  rw [buildMatchers, foldl_addToMatchers]
  rfl

/-- What a load that succeeds leaves. -/
theorem loadData_returns {c : Choices} {feed : Feed} {d d' : Domain}
    (hd : d.failureCount ≠ -2) (h : loadData c feed d = (d', .returns)) :
    d'.failureCount = 0 ∧ d'.Indexed ∧
      d'.recipients.toFinset = d.recipients.toFinset ∪ d.collected feed := by
  rw [loadData, if_pos hd] at h
  cases hs : loadSources d.name feed 0 d.sources d.recipients with
  | mk r completion =>
      rw [hs] at h
      cases completion with
      | throws => cases h
      | returns =>
          obtain rfl := congrArg Prod.fst h
          have hr := buildMatchers_recipients c { d with recipients := r }
          refine ⟨rfl, ⟨buildMatchers_size c _, c.iterate r.toList, ?_, fun a => ?_⟩, ?_⟩
          · rw [hr]
            exact c.iterate_perm _
          · cases a with
            | ngram => exact buildMatchers_indexes c { d with recipients := r } .ngram
            | word => exact buildMatchers_indexes c { d with recipients := r } .word
          · rw [hr, loadSources_returns hs]
            simp [collected]

/-- A load throws when a loader does, unless the domain is disabled. -/
theorem loadData_throws (c : Choices) (feed : Feed) (d : Domain) :
    (loadData c feed d).2 = .throws ↔
      d.failureCount ≠ -2 ∧ ∃ k < d.sources.length, (feed k).Fails := by
  have hsources := loadSources_throws d.name feed d.sources 0 d.recipients
  rw [loadData]
  by_cases hd : d.failureCount = -2
  · simp [hd]
  · simp only [Nat.zero_add] at hsources
    rw [if_pos hd, ← hsources]
    cases hs : loadSources d.name feed 0 d.sources d.recipients with
    | mk r completion =>
        cases completion with
        | throws => simp [hd]
        | returns => simp

/-- A load that throws leaves the failure count as it is. -/
theorem failureCount_of_throws {c : Choices} {feed : Feed} {d : Domain}
    (h : (loadData c feed d).2 = .throws) :
    (loadData c feed d).1.failureCount = d.failureCount := by
  obtain ⟨hd, -⟩ := (loadData_throws c feed d).mp h
  rw [loadData, if_pos hd] at h ⊢
  cases hs : loadSources d.name feed 0 d.sources d.recipients with
  | mk r completion =>
      rw [hs] at h
      cases completion with
      | throws => rfl
      | returns => cases h

theorem Loaded.failureCount {c : Choices} {d : Domain} (h : d.Loaded c) : d.failureCount = 0 := by
  obtain ⟨d₀, feed, hd, hl⟩ := h
  exact (loadData_returns hd hl).1

theorem Loaded.indexed {c : Choices} {d : Domain} (h : d.Loaded c) : d.Indexed := by
  obtain ⟨d₀, feed, hd, hl⟩ := h
  exact (loadData_returns hd hl).2.1

/-- A loaded domain asks the n-gram matcher, then the word matcher. -/
theorem Loaded.recipient_eq {c₀ : Choices} {d : Domain} (h : d.Loaded c₀) (c : Choices)
    (s : Str) : d.recipient c s = (d.verdict c .ngram s).or (d.verdict c .word s) := by
  rw [Domain.recipient_eq, if_neg (by simpa using h.failureCount)]

end Domain

end Undervest
