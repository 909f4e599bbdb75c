import Undervest.Domain

/-!
# The decision on a name

`reference` is the decision stated without indexes, sorts or iteration orders:
each recipient that has a slice in common with the query has a score, and the
recipients whose score reaches the threshold of an algorithm decide by their
number.  The product of a threshold by the scale is rounded (`Rounding.exact` leaves it as
it is).

The code takes the decision on a sorted list of results.  `choose_eq` says that
only the census of the results above the threshold matters, and `verdict_eq`
that this census is taken on a finite set, `reaching`.  Both hold for every
threshold and every length.  Within the range of the counters, and for
thresholds of the unit interval, `reaching` is `Profile.hits`, and the code
takes the reference decision.
-/

namespace Undervest

open Unordered FixedWidth Matcher FloatingPoint

/-! ## The reference -/

namespace Profile

/-- The score of a target for a query, unscaled. -/
def score (p : Str → Profile) (q t : Str) : Int :=
  ⌊(65535 * (2 * common p q t) : ℚ) / ((p q).total + (p t).total)⌋

/-- The targets that share a slice with the query and reach the threshold. -/
def hits (ρ : Rounding) (p : Str → Profile) (θ : ℚ) (R : Finset Str) (q : Str) : Finset Str :=
  R.filter fun t => 0 < common p q t ∧ ⌊ρ.round (65535 * θ)⌋ ≤ score p q t

end Profile

/-- One target is the answer, several leave the query as it is. -/
def answer (q : Str) : Census Str → Option Str
  | .none => none
  | .one t => some t
  | .many => some q

/-- The decision on `q` in a domain with recipients `R`. -/
noncomputable def reference (ρ : Rounding) (n : Nat) (θngram θword : ℚ) (R : Finset Str)
    (q : Str) : Option Str :=
  match answer q (census (Profile.hits ρ (Profile.ngram n) θngram R q)) with
  | some t => some t
  | none => answer q (census (Profile.hits ρ Profile.word θword R q))

theorem answer_eq_none {q : Str} {x : Census Str} : answer q x = none ↔ x = .none := by
  cases x <;> simp [answer]

namespace Domain

open Profile

/-! ## The code's decision, for all thresholds and lengths -/

/-- The score the code gives to a target. -/
def scoreFor (d : Domain) (a : Algorithm) (q t : Str) : ScoreType :=
  scoreOf (common (d.profile a) q t) (UInt16.ofNat (d.profile a t).total).toNat
    (d.profile a q).total

/-- The recipients that share a slice with the query and whose score reaches
the converted threshold. -/
def reaching (ρ : Rounding) (d : Domain) (a : Algorithm) (q : Str) : Finset Str :=
  d.recipients.toFinset.filter fun t =>
    0 < common (d.profile a) q t ∧ (d.scoreFor a q t).geRat ρ (d.threshold a) = true

theorem profile_congr {d d' : Domain} (h : d'.ngramSize = d.ngramSize) :
    d'.profile = d.profile := by
  funext a
  cases a <;> simp [profile, h]

theorem geRat_mono {ρ : Rounding} {x y : ScoreType} {θ : ℚ} (h : x.value ≤ y.value)
    (hx : x.geRat ρ θ = true) : y.geRat ρ θ = true := by
  rw [Scaled.geRat, Scaled.ge_ushort_iff] at hx ⊢
  exact hx.trans h

/-- The test of the first two results is a census of all results. -/
theorem choose_eq {ρ : Rounding} {results : List Result} {θ : ℚ}
    (hs : results.Pairwise fun a b => b.score.value ≤ a.score.value) (q : Str) :
    choose ρ results θ q =
      answer q (Census.ofList
        ((results.filter fun r => r.score.geRat ρ θ).map fun r => r.text)) := by
  -- once a result is below the threshold, all later ones are
  have hnone : ∀ {r : Result} {l : List Result}, (∀ b ∈ l, b.score.value ≤ r.score.value) →
      r.score.geRat ρ θ = false → l.filter (fun r => r.score.geRat ρ θ) = [] := by
    intro r l hl hr
    rw [List.filter_eq_nil_iff]
    intro b hb hge
    rw [geRat_mono (hl b hb) hge] at hr
    cases hr
  cases results with
  | nil => rfl
  | cons best rest =>
      have hbest := (List.pairwise_cons.mp hs).1
      cases hb : best.score.geRat ρ θ with
      | false => simp [choose, hb, hnone hbest hb, Census.ofList, answer]
      | true =>
          cases rest with
          | nil => simp [choose, hb, Census.ofList, answer]
          | cons second rest =>
              have hsecond := (List.pairwise_cons.mp (List.pairwise_cons.mp hs).2).1
              cases hc : second.score.geRat ρ θ with
              | false => simp [choose, hb, hc, hnone hsecond hc, Census.ofList, answer]
              | true => simp [choose, hb, hc, Census.ofList, answer]

/-- What the results say of one target, in terms of its profile. -/
theorem resultOf_score {d : Domain} {a : Algorithm}
    (hr : Realises (d.slicing a) (d.profile a)) (q t : Str) :
    (resultOf (fun t => orEmpty (d.slicing a t true)) (orEmpty (d.slicing a q false)) t).score =
      d.scoreFor a q t := by
  rw [resultOf, hr.overlap, hr.total, hr.total, scoreFor]

/-- **The answer of an algorithm.**  It depends on the set of recipients only. -/
theorem verdict_eq {d : Domain} (h : d.Indexed) (c : Choices) (a : Algorithm) (q : Str) :
    d.verdict c a q = answer q (census (d.reaching c.rounding a q)) := by
  obtain ⟨names, hnames, hix⟩ := h.indexes
  have hr := realises h.size a
  have hres := matchResults_perm c q (hix a)
  have hset : d.reaching c.rounding a q = (names.filter fun t => 0 < common (d.profile a) q t ∧
      (d.scoreFor a q t).geRat c.rounding (d.threshold a) = true).toFinset := by
    ext t
    simp only [reaching, UnorderedSet.toFinset, Finset.mem_filter, List.mem_toFinset,
      List.mem_filter, hnames.mem_iff, decide_eq_true_eq]
  rw [verdict, choose_eq (matchResults_sorted c _ _ _), hset,
    census_toFinset ((hnames.nodup_iff.mpr d.recipients.nodup).filter _),
    Census.ofList_perm ((hres.filter _).map _), List.filter_map, List.map_map, List.filter_filter]
  have hmap : ((fun r : Result => r.text) ∘ resultOf (fun t => orEmpty (d.slicing a t true))
      (orEmpty (d.slicing a q false))) = id := rfl
  rw [hmap, List.map_id]
  refine congrArg (fun l => answer q (Census.ofList l)) (List.filter_congr fun t _ => ?_)
  rw [Function.comp_apply, resultOf_score hr, hr.overlap, Bool.decide_and, Bool.decide_eq_true,
    Bool.and_comm]

theorem verdict_eq_none {d : Domain} (h : d.Indexed) {c : Choices} {a : Algorithm} {q : Str} :
    d.verdict c a q = none ↔ d.reaching c.rounding a q = ∅ := by
  rw [verdict_eq h, answer_eq_none, census_eq_none]

/-- A loaded domain rejects a name when no recipient reaches either threshold. -/
theorem recipient_eq_none {c₀ : Choices} {d : Domain} (h : d.Loaded c₀) {c : Choices} {q : Str} :
    d.recipient c q = none ↔ ∀ a, d.reaching c.rounding a q = ∅ := by
  rw [h.recipient_eq, Option.or_eq_none_iff, verdict_eq_none h.indexed, verdict_eq_none h.indexed]
  exact ⟨fun h a => by cases a with | ngram => exact h.1 | word => exact h.2,
    fun h => ⟨h .ngram, h .word⟩⟩

/-! ## The reference decision, within the range of the counters -/

/-- The thresholds are in the unit interval. -/
def UnitThresholds (d : Domain) : Prop := ∀ a, 0 ≤ d.threshold a ∧ d.threshold a ≤ 1

/-- The slice counts of a query and of the recipients are in the range of the
counters. -/
def CountsInRange (d : Domain) (q : Str) : Prop :=
  ∀ a, (d.profile a q).total < 65536 ∧
    ∀ t ∈ d.recipients.toFinset, (d.profile a t).total < 65536

theorem score_eq (p : Str → Profile) (q t : Str) :
    score p q t = (65535 * (2 * common p q t) / ((p t).total + (p q).total) : Nat) := by
  have h : (65535 * (2 * common p q t) : ℚ) / ((p q).total + (p t).total) =
      ((65535 * (2 * common p q t) : Nat) : ℚ) / (((p t).total + (p q).total : Nat) : ℚ) := by
    push_cast
    rw [add_comm ((p q).total : ℚ)]
  rw [score, h, Rat.floor_natCast_div_natCast, Int.natCast_ediv]

/-- The code computes the score of the reference. -/
theorem scoreFor_value {d : Domain} (hd : d.Indexed) {a : Algorithm} {q t : Str}
    (hq : (d.profile a q).total < 65536) (ht : (d.profile a t).total < 65536) :
    (d.scoreFor a q t).value = score (d.profile a) q t := by
  have hcount : (UInt16.ofNat (d.profile a t).total).toNat = (d.profile a t).total :=
    UInt16.toNat_ofNat_of_lt ht
  rw [scoreFor, hcount, scoreOf_value ((realises hd.size a).common_le q t) (by omega),
    score_eq]

/-- The code converts a threshold to the one of the reference. -/
theorem geRat_iff {ρ : Rounding} {x : ScoreType} {θ : ℚ} (h0 : 0 ≤ θ) (h1 : θ ≤ 1) :
    x.geRat ρ θ = true ↔ ⌊ρ.round (65535 * θ)⌋ ≤ x.value := by
  rw [Scaled.geRat, Scaled.ge_ushort_iff, Scaled.ofRat_ushort_of_unit ρ h0 h1]

/-- The largest score passes every threshold. -/
theorem geRat_of_full {x : ScoreType} (h : x.value = 65535) (ρ : Rounding) (θ : ℚ) :
    x.geRat ρ θ = true := by
  rw [Scaled.geRat, Scaled.ge_ushort_iff, h]
  have := (IntType.ushort_contains.mp (Scaled.ofRat ρ θ : ScoreType).inRange).2
  omega

theorem reaching_eq_hits (ρ : Rounding) {d : Domain} (hd : d.Indexed) (hθ : d.UnitThresholds)
    {q : Str} (hq : d.CountsInRange q) (a : Algorithm) :
    d.reaching ρ a q = hits ρ (d.profile a) (d.threshold a) d.recipients.toFinset q := by
  apply Finset.filter_congr
  intro t ht
  rw [geRat_iff (hθ a).1 (hθ a).2, scoreFor_value hd (hq a).1 ((hq a).2 t ht)]

theorem recipient_eq_hits {c₀ : Choices} {d : Domain} (h : d.Loaded c₀) (c : Choices)
    (hθ : d.UnitThresholds) {q : Str} (hq : d.CountsInRange q) :
    d.recipient c q = reference c.rounding d.ngramSize.toNat d.ngramThreshold d.wordThreshold
      d.recipients.toFinset q := by
  have hn := reaching_eq_hits c.rounding h.indexed hθ hq .ngram
  have hw := reaching_eq_hits c.rounding h.indexed hθ hq .word
  rw [h.recipient_eq, verdict_eq h.indexed, verdict_eq h.indexed, hn, hw, reference]
  change _ = (match answer q (census (hits c.rounding (d.profile .ngram) (d.threshold .ngram)
    d.recipients.toFinset q)) with | some t => some t | none => _)
  cases answer q (census (hits c.rounding (d.profile .ngram) (d.threshold .ngram)
    d.recipients.toFinset q)) <;> rfl

/-! ## A domain to evaluate -/

/-- A domain with one source, before its first load. -/
def sample (θngram θword : ℚ) : Domain where
  name := str "example.com"
  sources := [⟨str "/etc/aliases", str "sendmail"⟩]
  recipients := .empty
  ngramMatch := NgramMatcher.new 3
  wordMatch := Matcher.empty
  ngramThreshold := θngram
  wordThreshold := θword
  refreshSec := 900
  retrySec := 3600
  retries := [30, 270]
  failureCount := -1
  ngramSize := 3
  fixRecipient := true

/-- Sources that deliver some names without a failure. -/
def sampleFeed (names : List Str) : Feed := fun _ => ⟨true, names.map some, true⟩

/-- The domain after it has loaded some names. -/
def sampleLoaded (names : List Str) (θngram θword : ℚ) : Domain :=
  (loadData Choices.canonical (sampleFeed names) (sample θngram θword)).1

theorem sampleLoaded_loaded {names : List Str} (θngram θword : ℚ)
    (h : (loadData Choices.canonical (sampleFeed names) (sample θngram θword)).2 = .returns) :
    (sampleLoaded names θngram θword).Loaded Choices.canonical :=
  ⟨sample θngram θword, sampleFeed names, show (-1 : Int16) ≠ -2 by decide, Prod.ext rfl h⟩

example : (sampleLoaded [str "john.doe", str "jane"] (4 / 5) (1 / 2)).recipient Choices.canonical
    (str "jon.doe") = some (str "john.doe") := by decide +kernel

/-! ## The decision does not depend on the order -/

/-- **The decision is the reference decision.**  The product of a threshold by the scale is
the one that the arithmetic gives.  In particular domains with the same recipients and the
same parameters agree, whatever the order their containers are iterated in and whatever
arrangement their sorts leave. -/
theorem recipient_eq_reference {c₀ : Choices} {d : Domain} (h : d.Loaded c₀) (c : Choices)
    (hθ : d.UnitThresholds) {q : Str} (hq : d.CountsInRange q) :
    d.recipient c q = reference c.rounding d.ngramSize.toNat d.ngramThreshold d.wordThreshold
        d.recipients.toFinset q ∧
      ∀ (c₀' : Choices) (o : Orders) (d' : Domain), d'.Loaded c₀' →
        d'.recipients.toFinset = d.recipients.toFinset → d'.ngramSize = d.ngramSize →
        d'.ngramThreshold = d.ngramThreshold → d'.wordThreshold = d.wordThreshold →
        d'.recipient ⟨o, c.rounding⟩ q = d.recipient c q := by
  refine ⟨recipient_eq_hits h c hθ hq, ?_⟩
  intro c₀' o d' h' hR hn hθn hθw
  have hp := profile_congr hn
  have hθ' : d'.UnitThresholds := fun a => by
    cases a with
    | ngram => simpa [threshold, hθn] using hθ .ngram
    | word => simpa [threshold, hθw] using hθ .word
  have hq' : d'.CountsInRange q := by
    rw [CountsInRange, hp, hR]
    exact hq
  rw [recipient_eq_hits h c hθ hq, recipient_eq_hits h' _ hθ' hq', hR, hn, hθn, hθw]

theorem recipient_eq_reference_sample :
    (sampleLoaded [str "john.doe", str "jane"] (4 / 5) (1 / 2)).recipient Choices.canonical
        (str "jon.doe") =
      reference .binary64 3 (4 / 5) (1 / 2)
        (sampleLoaded [str "john.doe", str "jane"] (4 / 5) (1 / 2)).recipients.toFinset
        (str "jon.doe") :=
  (recipient_eq_reference (sampleLoaded_loaded _ _ (by decide)) Choices.canonical
    (fun a => by cases a <;> decide +kernel) (fun a => by cases a <;> decide +kernel)).1

/-- A `double` whose product by 65535 is a little below 43691 and is rounded to it. -/
def belowProduct : ℚ := 6004936944211317 / 2 ^ 53

/-- A score of 43690 is refused, which an exact product would let pass. -/
theorem refuses_at_rounded_product :
    (sampleLoaded [str "abcd"] belowProduct 1).Loaded Choices.canonical ∧
      (sampleLoaded [str "abcd"] belowProduct 1).UnitThresholds ∧
      (sampleLoaded [str "abcd"] belowProduct 1).CountsInRange (str "abc") ∧
      (sampleLoaded [str "abcd"] belowProduct 1).recipient Choices.canonical (str "abc") = none ∧
      reference .exact 3 belowProduct 1
        (sampleLoaded [str "abcd"] belowProduct 1).recipients.toFinset (str "abc") =
          some (str "abcd") := by
  refine ⟨sampleLoaded_loaded _ _ (by decide), fun a => by cases a <;> decide +kernel,
    fun a => by cases a <;> decide +kernel, by decide +kernel, ?_⟩
  have hhits : hits .exact (Profile.ngram 3) belowProduct
      (sampleLoaded [str "abcd"] belowProduct 1).recipients.toFinset (str "abc") =
        {str "abcd"} := by decide +kernel
  rw [reference, hhits, census_eq_one.mpr rfl]
  rfl

/-! ## A valid recipient stays -/

/-- A recipient reaches every threshold as an answer to itself. -/
theorem mem_reaching_self (ρ : Rounding) {d : Domain} (hd : d.Indexed) {r : Str}
    (hr : r ∈ d.recipients.toFinset) (hc : (d.profile .ngram r).total < 65536) :
    r ∈ d.reaching ρ .ngram r := by
  have hpos := (realises hd.size .ngram).total_pos r
  have hself : common (d.profile .ngram) r r = (d.profile .ngram r).total := ngram_common_self _ r
  refine Finset.mem_filter.mpr ⟨hr, by omega, geRat_of_full ?_ ρ _⟩
  rw [scoreFor_value hd hc hc, score_eq, hself, ← Nat.two_mul, Nat.mul_div_cancel _ (by omega)]
  rfl

/-- **A valid recipient is answered by itself**, whatever the thresholds.  A tie with
another recipient leaves the query as it is. -/
theorem recipient_self {c₀ : Choices} {d : Domain} (h : d.Loaded c₀) (c : Choices) {r : Str}
    (hr : r ∈ d.recipients.toFinset) (hc : (d.profile .ngram r).total < 65536) :
    d.recipient c r = some r := by
  have hmem := mem_reaching_self c.rounding h.indexed hr hc
  rw [h.recipient_eq, verdict_eq h.indexed]
  cases hx : census (d.reaching c.rounding .ngram r) with
  | none =>
      rw [census_eq_none] at hx
      exact absurd (hx ▸ hmem) (Finset.notMem_empty r)
  | one t =>
      rw [census_eq_one] at hx
      have hrt : r = t := Finset.mem_singleton.mp (hx ▸ hmem)
      rw [hrt]
      rfl
  | many => rfl

theorem recipient_self_sample :
    (sampleLoaded [str "aaab", str "aaba", str "12"] (4 / 5) 1).recipient Choices.canonical
      (str "12") = some (str "12") :=
  recipient_self (sampleLoaded_loaded _ _ (by decide)) Choices.canonical (by decide)
    (by decide +kernel)

/-! ## Thresholds above one -/

/-- A score is below a bound when the counts are, multiplied out. -/
theorem score_lt_iff {p : Str → Profile} {q t : Str} {x : Int} (hq : 0 < (p q).total) :
    score p q t < x ↔
      (65535 * (2 * common p q t) : Int) < x * ((p q).total + (p t).total) := by
  have hpos : (0 : ℚ) < (p q).total + (p t).total := by
    have : (0 : ℚ) < (p q).total := by exact_mod_cast hq
    positivity
  rw [score, Int.floor_lt, div_lt_iff₀ hpos]
  exact_mod_cast Iff.rfl

/-- **Thresholds above one wrap.**  The product by the scale, however it is rounded, keeps
its low 16 bits, and an algorithm accepts nothing exactly when the scores of the recipients
that share a slice stay below those.  Within the range of the counters this is an
inequality between the slice counts. -/
theorem verdict_above_one {c₀ : Choices} {d : Domain} (h : d.Loaded c₀) (c : Choices)
    {a : Algorithm} (hθ : 1 < d.threshold a) (q : Str) :
    (d.verdict c a q = none ↔
      ∀ t ∈ d.recipients.toFinset, 0 < common (d.profile a) q t →
        (d.scoreFor a q t).value < ⌊c.rounding.round (65535 * d.threshold a)⌋ % 65536) ∧
      (d.CountsInRange q → (d.verdict c a q = none ↔
        ∀ t ∈ d.recipients.toFinset, 0 < common (d.profile a) q t →
          (65535 * (2 * common (d.profile a) q t) : Int) <
            ⌊c.rounding.round (65535 * d.threshold a)⌋ % 65536 *
              ((d.profile a q).total + (d.profile a t).total))) := by
  have hge : ∀ x : ScoreType, x.geRat c.rounding (d.threshold a) = true ↔
      ⌊c.rounding.round (65535 * d.threshold a)⌋ % 65536 ≤ x.value := fun x => by
    rw [Scaled.geRat, Scaled.ge_ushort_iff, Scaled.ofRat_ushort_of_nonneg _ (by linarith)]
  have hall : d.verdict c a q = none ↔
      ∀ t ∈ d.recipients.toFinset, 0 < common (d.profile a) q t →
        (d.scoreFor a q t).value < ⌊c.rounding.round (65535 * d.threshold a)⌋ % 65536 := by
    rw [verdict_eq_none h.indexed, reaching, Finset.filter_eq_empty_iff]
    refine forall₂_congr fun t _ => ?_
    rw [not_and, hge, not_le]
  refine ⟨hall, fun hq => hall.trans (forall₂_congr fun t ht => ?_)⟩
  rw [scoreFor_value h.indexed (hq a).1 ((hq a).2 t ht),
    score_lt_iff ((realises h.indexed.size a).total_pos q)]

theorem verdict_above_one_sample :
    (sampleLoaded [str "john.doe"] 2 2).verdict Choices.canonical .ngram (str "jon.doe") = none :=
  (verdict_above_one (sampleLoaded_loaded 2 2 (by decide)) Choices.canonical
    (a := .ngram) (by decide +kernel) (str "jon.doe")).1.mpr (by decide +kernel)

/-- A threshold of 1.5 is compared as one half, and a name is rewritten. -/
theorem accepts_above_one :
    (sampleLoaded [str "john.doe"] (3 / 2) 2).Loaded Choices.canonical ∧
      1 < (sampleLoaded [str "john.doe"] (3 / 2) 2).threshold .ngram ∧
      (sampleLoaded [str "john.doe"] (3 / 2) 2).verdict Choices.canonical .ngram
        (str "jon.doe") = some (str "john.doe") ∧
      (sampleLoaded [str "john.doe"] (3 / 2) 2).recipient Choices.canonical
        (str "jon.doe") = some (str "john.doe") :=
  ⟨sampleLoaded_loaded _ _ (by decide), by decide +kernel, by decide +kernel, by decide +kernel⟩

/-! ## A threshold of zero -/

/-- With a zero threshold the recipients that share a slice are those that
reach it. -/
theorem reaching_zero (ρ : Rounding) {d : Domain} {a : Algorithm} (hθ : d.threshold a = 0)
    (q : Str) :
    d.reaching ρ a q = d.recipients.toFinset.filter fun t => 0 < common (d.profile a) q t := by
  apply Finset.filter_congr
  intro t _
  have hx := Scaled.value_nonneg_of_unsigned rfl (d.scoreFor a q t)
  rw [hθ, geRat_iff le_rfl (by norm_num), mul_zero, ρ.round_zero]
  simpa using fun _ => hx

/-- **A zero threshold rejects only names without a common slice.**  They are
rejected when the other algorithm accepts nothing either. -/
theorem recipient_zero_threshold {c₀ : Choices} {d : Domain} (h : d.Loaded c₀) (c : Choices)
    {a : Algorithm} (hθ : d.threshold a = 0) (q : Str) :
    d.recipient c q = none ↔
      (∀ t ∈ d.recipients.toFinset, common (d.profile a) q t = 0) ∧
        ∀ b, b ≠ a → d.verdict c b q = none := by
  have hnone : d.reaching c.rounding a q = ∅ ↔
      ∀ t ∈ d.recipients.toFinset, common (d.profile a) q t = 0 := by
    rw [reaching_zero _ hθ, Finset.filter_eq_empty_iff]
    exact forall₂_congr fun t _ => by omega
  rw [recipient_eq_none h, ← hnone]
  constructor
  · intro hall
    exact ⟨hall a, fun b _ => (verdict_eq_none h.indexed).mpr (hall b)⟩
  · rintro ⟨ha, hb⟩ b
    by_cases hba : b = a
    · rw [hba, ha]
    · exact (verdict_eq_none h.indexed).mp (hb b hba)

theorem recipient_zero_threshold_sample :
    (sampleLoaded [str "abc"] 0 0).recipient Choices.canonical (str "xabc") ≠ none :=
  fun hn => absurd (((recipient_zero_threshold (sampleLoaded_loaded 0 0 (by decide))
    Choices.canonical (a := .ngram) (by decide +kernel) (str "xabc")).mp hn).1 (str "abc")
    (by decide)) (by decide +kernel)

/-- A name that shares no slice is rejected whatever the thresholds. -/
theorem rejects_zero_threshold :
    (sampleLoaded [str "abc"] 0 0).Loaded Choices.canonical ∧
      (∀ a, (sampleLoaded [str "abc"] 0 0).threshold a = 0) ∧
      (sampleLoaded [str "abc"] 0 0).recipients.toFinset.Nonempty ∧
      (sampleLoaded [str "abc"] 0 0).recipient Choices.canonical (str "xyz") = none :=
  ⟨sampleLoaded_loaded _ _ (by decide), fun a => by cases a <;> decide +kernel,
    ⟨str "abc", by decide⟩, by decide +kernel⟩

end Domain

end Undervest
