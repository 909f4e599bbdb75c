import Undervest.Decision
import Mathlib.Data.List.GetD

/-!
# Refreshing a domain

`refresh` loads a clone.  When the load succeeds the clone replaces the object
the configuration holds, and an event is scheduled for it.  When the load throws
the clone is dropped, the failure is counted in the old object, and the event is
scheduled for the old object.

The count is a `short`.  It is read through an `unsigned short`, with a negative
value read as zero, and stored back after one is added.  From 32767 the next
value is -32768, which reads as zero again, so the count never becomes one of
the values `0` and `-2` that mean something else (`cnt_fail`), and the position
in the list of retries restarts after 32768 failures.

`Held` is the object of one domain in a configuration, with what happened to it:
the last attempt and the number of failures since a success.  `Held.Invariant`
holds after any list of attempts (`run_invariant`).  From it come what a held
domain may answer (`held_recipient`) and when the next attempt takes place
(`nth_failure`).
-/

namespace Undervest

open Unordered

namespace Domain

/-! ## The method -/

/-- The new object of `refresh`, before its load. -/
def clone (d : Domain) : Domain where
  name := d.name
  sources := d.sources
  recipients := .empty
  ngramMatch := NgramMatcher.new 3
  wordMatch := Matcher.empty
  ngramThreshold := d.ngramThreshold
  wordThreshold := d.wordThreshold
  refreshSec := d.refreshSec
  retrySec := d.retrySec
  retries := d.retries
  failureCount := d.failureCount
  ngramSize := d.ngramSize
  fixRecipient := d.fixRecipient

/-- The failures before this one. -/
def cnt (d : Domain) : UInt16 := if d.failureCount < 0 then 0 else d.failureCount.toUInt16

/-- The delay after a failure. -/
def nxttime (d : Domain) : UInt32 := d.retries.getD d.cnt.toNat d.retrySec

/-- Count a failure. -/
def fail (d : Domain) : Domain := { d with failureCount := Int16.ofInt (d.cnt.toNat + 1 : Nat) }

/-- What a call of `refresh` leaves. -/
structure Refreshed where
  /-- The object the method is called on. -/
  self : Domain
  /-- The object it returns, unless it throws. -/
  result : Option Domain
  /-- The delay of the event it schedules, for the result if there is one and for
  the object itself otherwise. -/
  scheduled : Option UInt32

/-- `Domain::refresh`. -/
def refresh (c : Choices) (feed : Feed) (d : Domain) : Refreshed :=
  if d.failureCount = -2 then ⟨d, none, none⟩
  else
    match loadData c feed d.clone with
    | (n, .returns) => ⟨d, some n, if n.refreshSec ≠ 0 then some n.refreshSec else none⟩
    | (_, .throws) => ⟨d.fail, none, if d.nxttime ≠ 0 then some d.nxttime else none⟩

/-! ## The failure count -/

theorem cnt_toNat (d : Domain) : d.cnt.toNat = d.failureCount.toInt.toNat := by
  unfold cnt
  split
  next h =>
      have hx := Int16.lt_iff_toInt_lt.mp h
      have h0 : (0 : Int16).toInt = 0 := rfl
      change 0 = _
      omega
  next h => rw [Int16.toNat_toUInt16_of_le (Int16.not_lt.mp h), Int16.toNat_toInt]

theorem cnt_lt (d : Domain) : d.cnt.toNat < 32768 := by
  have := d.failureCount.toInt_lt
  rw [cnt_toNat]
  omega

/-- One more than a count, stored in a `short`. -/
theorem toInt_ofInt_succ {n : Nat} (h : n < 32768) :
    (Int16.ofInt (n + 1 : Nat)).toInt = if n = 32767 then -32768 else (n : Int) + 1 := by
  have hs : Int16.size = 65536 := rfl
  rw [Int16.toInt_ofInt, hs, Int.bmod_def]
  split_ifs <;> omega

/-- Counting a failure moves to the next position, and from the last one to the
first. -/
theorem cnt_fail (d : Domain) :
    d.fail.cnt.toNat = (d.cnt.toNat + 1) % 32768 ∧ d.fail.failureCount ≠ 0 ∧
      d.fail.failureCount ≠ -2 := by
  have h := toInt_ofInt_succ d.cnt_lt
  have hlt := d.cnt_lt
  refine ⟨?_, ?_, ?_⟩
  · rw [cnt_toNat, fail, h]
    split_ifs <;> omega
  · intro e
    have h0 : (0 : Int16).toInt = 0 := rfl
    rw [← e, fail, h] at h0
    split_ifs at h0
    omega
  · intro e
    have h2 : (-2 : Int16).toInt = -2 := rfl
    rw [← e, fail, h] at h2
    split_ifs at h2 <;> omega

/-! ## One refresh -/

/-- The domain as it was configured. -/
def config (d : Domain) : Domain := { d.clone with failureCount := -1 }

theorem loadData_config {c : Choices} {feed : Feed} {d d' : Domain}
    (h : loadData c feed d = (d', .returns)) : d'.config = d.config := by
  unfold loadData at h
  split at h
  next =>
      split at h
      next => cases h
      next =>
          obtain rfl := congrArg Prod.fst h
          rw [buildMatchers, foldl_addToMatchers]
          rfl
  next =>
      obtain rfl := congrArg Prod.fst h
      rfl

/-- **What a refresh does.**  It either returns a loaded object, or counts a
failure in the old one. -/
theorem refresh_cases (c : Choices) (feed : Feed) {d : Domain} (hd : d.failureCount ≠ -2) :
    (∃ n, d.refresh c feed =
        ⟨d, some n, if d.refreshSec ≠ 0 then some d.refreshSec else none⟩ ∧
        n.failureCount = 0 ∧ n.Indexed ∧ n.recipients.toFinset = d.collected feed ∧
        n.config = d.config) ∨
      d.refresh c feed = ⟨d.fail, none, if d.nxttime ≠ 0 then some d.nxttime else none⟩ := by
  cases hl : loadData c feed d.clone with
  | mk n completion =>
      cases completion with
      | returns =>
          obtain ⟨hf, hix, hrec⟩ := loadData_returns (d := d.clone) hd hl
          have hcfg := loadData_config hl
          have hsec : n.refreshSec = d.refreshSec :=
            show n.config.refreshSec = d.clone.config.refreshSec by rw [hcfg]
          refine Or.inl ⟨n, ?_, hf, hix, ?_, hcfg⟩
          · rw [refresh, if_neg hd, hl]
            simp only [hsec]
          · rw [hrec]
            exact Finset.empty_union _
      | throws =>
          right
          rw [refresh, if_neg hd, hl]

/-- A refresh counts a failure when the load of the domain would throw. -/
theorem refresh_of_throws {c : Choices} {feed : Feed} {d : Domain}
    (h : (loadData c feed d).2 = .throws) :
    d.refresh c feed = ⟨d.fail, none, if d.nxttime ≠ 0 then some d.nxttime else none⟩ := by
  have hd := ((loadData_throws c feed d).mp h).1
  have hclone : (loadData c feed d.clone).2 = .throws :=
    (loadData_throws c feed d.clone).mpr ((loadData_throws c feed d).mp h)
  cases hl : loadData c feed d.clone with
  | mk n completion =>
      rw [hl] at hclone
      cases completion with
      | throws => rw [refresh, if_neg hd, hl]
      | returns => cases hclone

/-- A domain that has not loaded accepts every name as it is. -/
theorem recipient_of_failureCount {d : Domain} (h : d.failureCount ≠ 0) (c : Choices) (q : Str) :
    d.recipient c q = some q := by
  rw [recipient, if_pos h]

end Domain

/-! ## Runs of refreshes -/

open Domain

/-- The object a configuration holds for a domain, with what happened to it. -/
structure Held where
  object : Domain
  /-- The most recent attempt and how it ended. -/
  last : Option (Feed × Completion)
  /-- The failures since the start or the last success. -/
  failures : Nat

namespace Held

/-- The object before the first attempt. -/
def start (d : Domain) : Held := ⟨d, none, 0⟩

/-- One attempt: `refresh`, and the assignment of what it returns. -/
def refresh (c : Choices) (h : Held) (feed : Feed) : Held :=
  let r := h.object.refresh c feed
  match r.result with
  | some d => ⟨d, some (feed, .returns), 0⟩
  | none => ⟨r.self, some (feed, .throws), h.failures + 1⟩

/-- Some attempts, the first one first. -/
def run (c : Choices) (d₀ : Domain) (feeds : List Feed) : Held :=
  feeds.foldl (Held.refresh c) (start d₀)

/-- What holds of a held object after any attempts. -/
structure Invariant (d₀ : Domain) (h : Held) : Prop where
  config : h.object.config = d₀.config
  enabled : h.object.failureCount ≠ -2
  position : h.object.cnt.toNat = h.failures % 32768
  loaded : h.object.failureCount = 0 → ∃ feed, h.last = some (feed, .returns) ∧
    h.object.Indexed ∧ h.object.recipients.toFinset = d₀.collected feed

theorem collected_of_config {d d' : Domain} (h : d.config = d'.config) (feed : Feed) :
    d.collected feed = d'.collected feed :=
  show d.config.collected feed = d'.config.collected feed by rw [h]

/-- An attempt preserves the invariant. -/
theorem Invariant.refresh {d₀ : Domain} {h : Held} (hi : h.Invariant d₀) (c : Choices)
    (feed : Feed) : (h.refresh c feed).Invariant d₀ := by
  cases refresh_cases c feed hi.enabled with
  | inl hs =>
      obtain ⟨n, hr, hf, hix, hrec, hcfg⟩ := hs
      have hcfg₀ := hcfg.trans hi.config
      rw [Held.refresh, hr]
      refine ⟨hcfg₀, by rw [hf]; decide, ?_, fun _ => ⟨feed, rfl, hix, ?_⟩⟩
      · rw [cnt_toNat, hf]
        rfl
      · rw [hrec, collected_of_config hi.config]
  | inr hr =>
      have hfail := h.object.cnt_fail
      have hh : h.refresh c feed = ⟨h.object.fail, some (feed, .throws), h.failures + 1⟩ := by
        rw [Held.refresh, hr]
      rw [hh]
      refine ⟨hi.config, hfail.2.2, ?_, fun h0 => absurd h0 hfail.2.1⟩
      rw [hfail.1, hi.position, Nat.mod_add_mod]

theorem invariant_start {d₀ : Domain} (h : d₀.failureCount = -1) : (start d₀).Invariant d₀ where
  config := rfl
  enabled := by
    rw [start, h]
    decide
  position := by
    rw [cnt_toNat, start, h]
    rfl
  loaded h0 := by
    rw [start, h] at h0
    exact absurd h0 (by decide)

/-- **The invariant of a held object**, after any attempts. -/
theorem run_invariant (c : Choices) {d₀ : Domain} (h : d₀.failureCount = -1)
    (feeds : List Feed) : (run c d₀ feeds).Invariant d₀ := by
  have hstep : ∀ (feeds : List Feed) (h : Held), h.Invariant d₀ →
      (feeds.foldl (Held.refresh c) h).Invariant d₀ := by
    intro feeds
    induction feeds with
    | nil => exact fun _ hi => hi
    | cons feed feeds ih => exact fun h hi => ih _ (hi.refresh c feed)
  exact hstep feeds _ (invariant_start h)

theorem run_concat (c : Choices) (d₀ : Domain) (feeds : List Feed) (feed : Feed) :
    run c d₀ (feeds ++ [feed]) = (run c d₀ feeds).refresh c feed := by
  rw [run, List.foldl_concat, run]

theorem refresh_last (c : Choices) (h : Held) (feed : Feed) :
    ∃ completion, (h.refresh c feed).last = some (feed, completion) := by
  cases hr : (h.object.refresh c feed).result with
  | some d => exact ⟨.returns, by rw [Held.refresh, hr]⟩
  | none => exact ⟨.throws, by rw [Held.refresh, hr]⟩

/-- The attempt that is recorded is the last one of the run. -/
theorem run_last {c : Choices} {d₀ : Domain} {feeds : List Feed} {feed : Feed}
    {completion : Completion} (h : (run c d₀ feeds).last = some (feed, completion)) :
    feeds.getLast? = some feed := by
  cases feeds using List.reverseRecOn with
  | nil => cases h
  | append_singleton feeds feed' =>
      obtain ⟨completion', hl⟩ := refresh_last c (run c d₀ feeds) feed'
      rw [run_concat, hl, Option.some.injEq, Prod.mk.injEq] at h
      rw [List.getLast?_concat, h.1]

/-! ## What a held domain answers -/

/-- **Only a domain whose last load succeeded changes or rejects a name**, and
its matchers index what that load collected.  A domain whose last load failed
accepts every name as it is. -/
theorem held_recipient (c : Choices) {d₀ : Domain} (h : d₀.failureCount = -1)
    (feeds : List Feed) :
    (∀ (c' : Choices) (q : Str), (run c d₀ feeds).object.recipient c' q ≠ some q →
      ∃ feed, feeds.getLast? = some feed ∧
        (run c d₀ feeds).last = some (feed, .returns) ∧
        (run c d₀ feeds).object.recipients.toFinset = d₀.collected feed ∧
        (run c d₀ feeds).object.Indexed) ∧
      ∀ feed, (run c d₀ feeds).last = some (feed, .throws) →
        ∀ (c' : Choices) (q : Str), (run c d₀ feeds).object.recipient c' q = some q := by
  have hi := run_invariant c h feeds
  constructor
  · intro c' q hq
    have hf : (run c d₀ feeds).object.failureCount = 0 := by
      by_contra hne
      exact hq (recipient_of_failureCount hne c' q)
    obtain ⟨feed, hlast, hix, hrec⟩ := hi.loaded hf
    exact ⟨feed, run_last hlast, hlast, hrec, hix⟩
  · intro feed hlast c' q
    refine recipient_of_failureCount (fun hf => ?_) c' q
    obtain ⟨feed', hlast', -, -⟩ := hi.loaded hf
    rw [hlast] at hlast'
    cases hlast'

/-- Sources that cannot be opened. -/
def failing : Feed := fun _ => ⟨false, [], true⟩

/-- Sources that cannot be opened make the load fail. -/
theorem refresh_failing {c : Choices} {d : Domain} (hd : d.failureCount ≠ -2)
    (hs : d.sources ≠ []) : (d.refresh c failing).result = none := by
  have hthrows : (loadData c failing d).2 = .throws :=
    (loadData_throws c failing d).mpr ⟨hd, 0, List.length_pos_iff.mpr hs, Or.inl rfl⟩
  rw [refresh_of_throws hthrows]

theorem held_recipient_sample :
    (∃ feed, (run Choices.canonical (sample (4 / 5) (1 / 2)) [sampleFeed [str "jane"]]).last =
        some (feed, .returns)) ∧
      (run Choices.canonical (sample (4 / 5) (1 / 2))
        [sampleFeed [str "jane"], failing]).object.recipient Choices.canonical (str "bob") =
      some (str "bob") := by
  have h : (sample (4 / 5) (1 / 2)).failureCount = -1 := rfl
  have hrejects : (run Choices.canonical (sample (4 / 5) (1 / 2))
      [sampleFeed [str "jane"]]).object.recipient Choices.canonical (str "bob") ≠
        some (str "bob") := by decide +kernel
  obtain ⟨feed, -, hlast, -⟩ := (held_recipient Choices.canonical h _).1 _ _ hrejects
  exact ⟨⟨feed, hlast⟩, (held_recipient Choices.canonical h _).2 failing rfl _ _⟩

/-! ## When the next attempt takes place -/

/-- The documented delay after failure `k` of a series, the first one being `1`. -/
def delay (retries : List UInt32) (retrySec : UInt32) (k : Nat) : UInt32 :=
  if k ≤ retries.length then retries.getD (k - 1) retrySec else retrySec

/-- What a failing attempt schedules. -/
theorem scheduled_fail {c : Choices} {d₀ : Domain} (h : d₀.failureCount = -1)
    (hp : 0 < d₀.retrySec) (hr : ∀ x ∈ d₀.retries, 0 < x) (feeds : List Feed) {feed : Feed}
    (hfail : ((run c d₀ feeds).object.refresh c feed).result = none) :
    ((run c d₀ feeds).object.refresh c feed).scheduled =
      some (d₀.retries.getD ((run c d₀ feeds).failures % 32768) d₀.retrySec) := by
  have hi := run_invariant c h feeds
  have hne : ∀ i, d₀.retries.getD i d₀.retrySec ≠ 0 := by
    intro i e
    have hpos : 0 < d₀.retries.getD i d₀.retrySec := by
      by_cases hlt : i < d₀.retries.length
      · rw [List.getD_eq_getElem _ _ hlt]
        exact hr _ (List.getElem_mem hlt)
      · rw [List.getD_eq_default _ _ (not_lt.mp hlt)]
        exact hp
    rw [e] at hpos
    exact absurd hpos (by decide)
  have hretries : (run c d₀ feeds).object.retries = d₀.retries :=
    show (run c d₀ feeds).object.config.retries = d₀.config.retries by rw [hi.config]
  have hsec : (run c d₀ feeds).object.retrySec = d₀.retrySec :=
    show (run c d₀ feeds).object.config.retrySec = d₀.config.retrySec by rw [hi.config]
  have hnxt : (run c d₀ feeds).object.nxttime =
      d₀.retries.getD ((run c d₀ feeds).failures % 32768) d₀.retrySec := by
    rw [nxttime, hi.position, hretries, hsec]
  cases refresh_cases c feed hi.enabled with
  | inl hs =>
      obtain ⟨n, hn, -⟩ := hs
      rw [hn] at hfail
      cases hfail
  | inr hs => rw [hs, hnxt, if_pos (hne _)]

/-- **The delay after a failure.**  A failing attempt after `k - 1` failures
schedules the next one after the documented delay exactly when `k` is at most
32768, or position `(k - 1) % 32768` of the list does not exist, or it holds the
continuous period. -/
theorem nth_failure (c : Choices) {d₀ : Domain} (h : d₀.failureCount = -1)
    (hp : 0 < d₀.retrySec) (hr : ∀ x ∈ d₀.retries, 0 < x) (hlen : d₀.retries.length < 32768)
    (feeds : List Feed) (feed : Feed)
    (hfail : ((run c d₀ feeds).object.refresh c feed).result = none) :
    ((run c d₀ feeds).object.refresh c feed).scheduled =
        some (delay d₀.retries d₀.retrySec ((run c d₀ feeds).failures + 1)) ↔
      (run c d₀ feeds).failures + 1 ≤ 32768 ∨
        d₀.retries.length ≤ (run c d₀ feeds).failures % 32768 ∨
        d₀.retries[(run c d₀ feeds).failures % 32768]? = some d₀.retrySec := by
  rw [scheduled_fail h hp hr feeds hfail, Option.some.injEq, delay, Nat.add_sub_cancel]
  generalize (run c d₀ feeds).failures = k
  have hk : k % 32768 < 32768 := Nat.mod_lt _ (by decide)
  by_cases hle : k + 1 ≤ 32768
  · have hmod : k % 32768 = k := Nat.mod_eq_of_lt (by omega)
    rw [hmod]
    refine iff_of_true ?_ (Or.inl hle)
    split
    next => rfl
    next hge => exact List.getD_eq_default _ _ (by omega)
  · rw [if_neg (by omega)]
    by_cases hlt : k % 32768 < d₀.retries.length
    · rw [List.getD_eq_getElem _ _ hlt, List.getElem?_eq_getElem hlt, Option.some.injEq]
      exact ⟨fun e => Or.inr (Or.inr e), fun hor => by
        rcases hor with hor | hor | hor
        · exact absurd hor hle
        · omega
        · exact hor⟩
    · exact iff_of_true (List.getD_eq_default _ _ (not_lt.mp hlt)) (Or.inr (Or.inl (not_lt.mp hlt)))

theorem sample_retries_pos : ∀ x ∈ (sample 1 1).retries, 0 < x := by
  simp [sample]

theorem nth_failure_sample :
    ((run Choices.canonical (sample 1 1) []).object.refresh Choices.canonical failing).scheduled =
      some 30 :=
  (nth_failure Choices.canonical (show (sample 1 1).failureCount = -1 from rfl) (by decide)
    sample_retries_pos (by decide) [] failing
    (refresh_failing (by decide) (List.cons_ne_nil _ _))).mpr (Or.inl (by decide))

/-- Sources that cannot be opened make a refresh fail after any run. -/
theorem refresh_run_failing (c : Choices) {d₀ : Domain} (h : d₀.failureCount = -1)
    (hs : d₀.sources ≠ []) (feeds : List Feed) :
    ((run c d₀ feeds).object.refresh c failing).result = none := by
  have hi := run_invariant c h feeds
  refine refresh_failing hi.enabled ?_
  change (run c d₀ feeds).object.config.sources ≠ []
  rw [hi.config]
  exact hs

/-- A series of failures of any length. -/
theorem failures_replicate {c : Choices} {d₀ : Domain} (h : d₀.failureCount = -1)
    (hs : d₀.sources ≠ []) (n : Nat) : (run c d₀ (List.replicate n failing)).failures = n := by
  induction n with
  | zero => rfl
  | succ n ih =>
      rw [List.replicate_succ', run_concat, Held.refresh, refresh_run_failing c h hs, ih]

/-- A series that is one failure longer than the counter schedules the first
retry period again. -/
theorem scheduled_after_wrap {c : Choices} {d₀ : Domain} (h : d₀.failureCount = -1)
    (hs : d₀.sources ≠ []) (hp : 0 < d₀.retrySec) (hr : ∀ x ∈ d₀.retries, 0 < x) {n : Nat}
    (hn : n % 32768 = 0) :
    ((run c d₀ (List.replicate n failing)).object.refresh c failing).scheduled =
      some (d₀.retries.getD 0 d₀.retrySec) := by
  rw [scheduled_fail h hp hr _ (refresh_run_failing c h hs _), failures_replicate h hs, hn]

theorem retries_restart :
    (run Choices.canonical (sample 1 1) (List.replicate 32768 failing)).failures + 1 = 32769 ∧
      ((run Choices.canonical (sample 1 1) (List.replicate 32768 failing)).object.refresh
        Choices.canonical failing).scheduled = some 30 ∧
      delay (sample 1 1).retries (sample 1 1).retrySec 32769 = 3600 :=
  ⟨congrArg (· + 1) (failures_replicate rfl (List.cons_ne_nil _ _) 32768),
    scheduled_after_wrap rfl (List.cons_ne_nil _ _) (by decide) sample_retries_pos (by decide),
    by decide⟩

end Held

end Undervest
