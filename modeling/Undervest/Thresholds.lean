import Undervest.Decision

/-!
# Thresholds

A score is truncated to a multiple of `1 / 65535`, and so is the threshold it is
compared with.  `exactScore` is the score before the truncation.

Both truncations go down.  So when the product of the threshold is exact, a score that
reaches the threshold is never refused, and one that misses it by a whole unit is never
accepted (`threshold_test`).

A lower threshold and more recipients make a decision easier.  What each matcher
finds can only grow, although another recipient may then be found, or too many
(`reaching_mono`).  A name is rejected when both matchers find nothing, so it is
rejected by the smaller domain when it is by the larger one
(`rejected_of_rejected`).
-/

namespace Undervest

open Unordered FixedWidth Matcher FloatingPoint

namespace Matcher

/-! ## Truncated scores -/

/-- The score of a target with slices `t` for a query with slices `s`. -/
def exactScore (s t : List Str) : ℚ := 2 * overlap s t / (s.length + t.length)

/-- The code's score is the exact one, in units of `1 / 65535` and truncated. -/
theorem scoreOf_eq_floor {s t : List Str} (hs : s.length < 65536) (ht : t.length < 65536) :
    (scoreOf (overlap s t) t.length s.length).value = ⌊65535 * exactScore s t⌋ := by
  have hl := overlap_le_left s t
  have hr := overlap_le_right s t
  have hx : 65535 * exactScore s t =
      ((65535 * (2 * overlap s t) : Nat) : ℚ) / ((t.length + s.length : Nat) : ℚ) := by
    push_cast
    rw [exactScore, ← mul_div_assoc, add_comm (s.length : ℚ)]
  rw [scoreOf_value (by omega) (by omega), hx, Rat.floor_natCast_div_natCast, Int.natCast_ediv]

/-- The exact score is one for equal slices only. -/
theorem one_le_exactScore {s t : List Str} (hs : s ≠ []) :
    1 ≤ exactScore s t ↔ s.Perm t := by
  have hpos : (0 : ℚ) < s.length + t.length := by
    have : (0 : ℚ) < s.length := by exact_mod_cast List.length_pos_of_ne_nil hs
    positivity
  rw [exactScore, one_le_div hpos]
  constructor
  · intro h
    exact perm_of_overlap (by exact_mod_cast h)
  · intro h
    have := overlap_of_perm h
    exact_mod_cast this.ge

/-- The results of a query have the targets that share a slice, each with the score
of its overlap. -/
theorem mem_matchResults {c : Choices} {slice : Str → Bool → List Str} {names : List Str}
    {q : Str} {r : Result} :
    r ∈ matchResults c slice (names.foldl (fun m t => m.add slice t) empty) q ↔
      ∃ t ∈ names, 0 < overlap (orEmpty (slice q false)) (orEmpty (slice t true)) ∧
        resultOf (fun t => orEmpty (slice t true)) (orEmpty (slice q false)) t = r := by
  have h := indexes_foldl_add slice names [] empty (indexes_empty _)
  rw [(matchResults_perm c q h).mem_iff]
  simp only [List.nil_append, List.mem_map, List.mem_filter, decide_eq_true_eq, and_assoc]

/-- **The threshold test**, with an exact product.  It accepts every score that reaches the
threshold, and none that misses it by `1 / 65535` or more.  A threshold of one accepts the
targets with the slices of the query, and no others. -/
theorem threshold_test (c : Choices) (slice : Str → Bool → List Str) {names : List Str}
    {q t : Str} (ht : t ∈ names) {θ : ℚ} (h0 : 0 ≤ θ) (h1 : θ ≤ 1)
    (ha : (orEmpty (slice q false)).length < 65536)
    (hb : (orEmpty (slice t true)).length < 65536)
    (hm : 0 < overlap (orEmpty (slice q false)) (orEmpty (slice t true))) :
    (∃ r ∈ matchResults c slice (names.foldl (fun m t => m.add slice t) empty) q, r.text = t) ∧
      ∀ r ∈ matchResults c slice (names.foldl (fun m t => m.add slice t) empty) q, r.text = t →
        (θ ≤ exactScore (orEmpty (slice q false)) (orEmpty (slice t true)) →
          r.score.geRat .exact θ = true) ∧
        (exactScore (orEmpty (slice q false)) (orEmpty (slice t true)) ≤ θ - 1 / 65535 →
          r.score.geRat .exact θ = false) ∧
        (r.score.geRat .exact 1 = true ↔
          (orEmpty (slice q false)).Perm (orEmpty (slice t true))) := by
  refine ⟨⟨_, mem_matchResults.mpr ⟨t, ht, hm, rfl⟩, rfl⟩, ?_⟩
  intro r hr hrt
  obtain ⟨t', -, -, rfl⟩ := mem_matchResults.mp hr
  obtain rfl : t' = t := hrt
  have hvalue :
      (resultOf (fun t => orEmpty (slice t true)) (orEmpty (slice q false)) t').score.value =
        ⌊65535 * exactScore (orEmpty (slice q false)) (orEmpty (slice t' true))⌋ := by
    have hcount : (UInt16.ofNat (orEmpty (slice t' true)).length).toNat =
        (orEmpty (slice t' true)).length := UInt16.toNat_ofNat_of_lt hb
    rw [← scoreOf_eq_floor ha hb, resultOf, hcount]
  have hone := one_le_exactScore (t := orEmpty (slice t' true)) (orEmpty_ne_nil (slice q false))
  generalize exactScore (orEmpty (slice q false)) (orEmpty (slice t' true)) = x at hvalue hone ⊢
  refine ⟨fun hx => ?_, fun hx => ?_, ?_⟩
  · rw [Domain.geRat_iff h0 h1, hvalue]
    exact Int.floor_le_floor (show 65535 * θ ≤ 65535 * x by linarith)
  · rw [← Bool.not_eq_true, Domain.geRat_iff h0 h1, hvalue, not_le]
    have hunit : ⌊65535 * x⌋ + 1 ≤ ⌊Rounding.exact.round (65535 * θ)⌋ := by
      change _ ≤ ⌊65535 * θ⌋
      rw [Int.le_floor]
      push_cast
      have := Int.floor_le (65535 * x)
      linarith
    omega
  · have hscale : ⌊Rounding.exact.round (65535 * 1)⌋ = 65535 := by
      change ⌊65535 * (1 : ℚ)⌋ = 65535
      norm_num
    rw [Domain.geRat_iff zero_le_one le_rfl, hvalue, hscale, Int.le_floor, ← hone]
    push_cast
    constructor <;> intro h <;> linarith

theorem threshold_test_sample :
    ∃ r ∈ matchResults Choices.canonical (ngramSlice 3)
      ([str "john.doe"].foldl (fun m t => m.add (ngramSlice 3) t) empty) (str "jon.doe"),
      r.text = str "john.doe" ∧ r.score.geRat .exact (1 / 2) = true := by
  have htest := threshold_test Choices.canonical (ngramSlice 3)
    (show str "john.doe" ∈ [str "john.doe"] from List.mem_singleton.mpr rfl)
    (show (0 : ℚ) ≤ 1 / 2 by norm_num) (by norm_num)
    (show (orEmpty (ngramSlice 3 (str "jon.doe") false)).length < 65536 by decide)
    (by decide) (by decide)
  obtain ⟨r, hr, ht⟩ := htest.1
  exact ⟨r, hr, ht, (htest.2 r hr ht).1 (by decide +kernel)⟩

end Matcher

namespace Domain

/-! ## Two domains -/

/-- A lower threshold is passed by the scores that pass a higher one. -/
theorem geRat_of_le {ρ : Rounding} {x : ScoreType} {θ θ' : ℚ} (h0 : 0 ≤ θ') (hle : θ' ≤ θ)
    (h1 : θ ≤ 1) (hx : x.geRat ρ θ = true) : x.geRat ρ θ' = true := by
  rw [geRat_iff (h0.trans hle) h1] at hx
  rw [geRat_iff h0 (hle.trans h1)]
  exact (Int.floor_le_floor (ρ.mono (by linarith))).trans hx

/-- What a matcher finds grows with the recipients and with a lower threshold. -/
theorem reaching_mono (ρ : Rounding) {d d' : Domain}
    (hR : d.recipients.toFinset ⊆ d'.recipients.toFinset) (hn : d'.ngramSize = d.ngramSize)
    {a : Algorithm} (h0 : 0 ≤ d'.threshold a) (hle : d'.threshold a ≤ d.threshold a)
    (h1 : d.threshold a ≤ 1) (q : Str) :
    d.reaching ρ a q ⊆ d'.reaching ρ a q := by
  intro t ht
  obtain ⟨ht, hpos, hscore⟩ := Finset.mem_filter.mp ht
  have hp := profile_congr hn
  have hsame : d'.scoreFor a q t = d.scoreFor a q t := by rw [scoreFor, scoreFor, hp]
  rw [← hp] at hpos
  refine Finset.mem_filter.mpr ⟨hR ht, hpos, ?_⟩
  rw [hsame]
  exact geRat_of_le h0 hle h1 hscore

/-- **Rejection is monotone.**  A name that is rejected by the domain with more
recipients and lower thresholds is rejected by the other one. -/
theorem rejected_of_rejected {c₀ c₀' : Choices} {d d' : Domain} (h : d.Loaded c₀)
    (h' : d'.Loaded c₀') (hR : d.recipients.toFinset ⊆ d'.recipients.toFinset)
    (hn : d'.ngramSize = d.ngramSize) (hθ : d.UnitThresholds) (hθ' : d'.UnitThresholds)
    (hle : ∀ a, d'.threshold a ≤ d.threshold a) (ρ : Rounding) (o o' : Orders) {q : Str}
    (hrejected : d'.recipient ⟨o', ρ⟩ q = none) : d.recipient ⟨o, ρ⟩ q = none := by
  rw [recipient_eq_none h'] at hrejected
  rw [recipient_eq_none h]
  intro a
  have hsub := reaching_mono ρ hR hn (hθ' a).1 (hle a) (hθ a).2 q
  rw [hrejected a] at hsub
  exact Finset.subset_empty.mp hsub

theorem rejected_of_rejected_sample :
    (sampleLoaded [str "john.doe"] (4 / 5) (1 / 2)).recipient Choices.canonical
      (str "smith") = none :=
  rejected_of_rejected (sampleLoaded_loaded _ _ (by decide))
    (show (sampleLoaded [str "john.doe", str "jane"] (1 / 2) (1 / 3)).Loaded Choices.canonical from
      sampleLoaded_loaded _ _ (by decide))
    (by decide +kernel) (by decide +kernel)
    (fun a => by cases a <;> decide +kernel) (fun a => by cases a <;> decide +kernel)
    (fun a => by cases a <;> decide +kernel) .binary64 .canonical .canonical
    (by decide +kernel)

end Domain

end Undervest
