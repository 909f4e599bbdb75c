import Undervest.Ipv6

/-!
# The rule for addresses

`IsIpv6` is the rule for IPv6 addresses that the header of the parser refers to:
eight groups of one to four hexadecimal digits, the last two of which may be a
dotted address, or fewer with one `::` for the rest.

`valid_ipv6` follows it except for the texts of `Misread`.  A gap on its own and an
octet 0 are refused.  On the other side a colon in front is taken for a gap, a gap
may stand for nothing, and a group may have zeros in front of its four digits.
-/

namespace Undervest

/-- Eight groups, or fewer with one gap.  A dotted address counts for two. -/
inductive AddressOf (group dotted : Str → Prop) : Str → Prop where
  | full {s : Str} : Pieces (ch ':') group dotted 8 s → AddressOf group dotted s
  | gap {k m : Nat} {l r : Str} : Pieces.Any (ch ':') group (fun _ => False) k l →
      Pieces.Any (ch ':') group dotted m r → k + m ≤ 7 → AddressOf group dotted (l ++ str "::" ++ r)

/-- An IPv6 address. -/
abbrev IsIpv6 : Str → Prop := AddressOf IsGroup IsIpv4

namespace AddressOf

variable {group group' dotted dotted' : Str → Prop} {g s : Str}

theorem mono (h : AddressOf group dotted s) (hg : ∀ t, t <:+: s → group t → group' t)
    (hd : ∀ t, t <:+: s → dotted t → dotted' t) : AddressOf group' dotted' s := by
  cases h with
  | full h => exact .full (h.mono hg hd)
  | @gap k m l r hl hr hle =>
      have hinl : l <:+: l ++ str "::" ++ r := ⟨[], str "::" ++ r, by simp⟩
      have hinr : r <:+: l ++ str "::" ++ r := (List.suffix_append ..).isInfix
      refine .gap ?_ ?_ hle
      · exact hl.imp_right fun hl => hl.mono (fun t ht => hg t (ht.trans hinl)) fun _ _ => id
      · exact hr.imp_right fun hr => hr.mono (fun t ht => hg t (ht.trans hinr))
          fun t ht => hd t (ht.trans hinr)

/-- A text without colons inside an address lies inside one of its parts. -/
theorem exists_piece (h : AddressOf group dotted s) (hi : g <:+: s) (hne : g ≠ [])
    (hg : ch ':' ∉ g) : ∃ t, (group t ∨ dotted t) ∧ g <:+: t := by
  cases h with
  | full h => exact h.exists_piece hi hg
  | @gap k m l r hl hr _ =>
      have hempty : ¬ g <:+: [] := fun h => hne (List.eq_nil_of_infix_nil h)
      rw [show l ++ str "::" ++ r = l ++ ch ':' :: ([] ++ ch ':' :: r) by simp [str]] at hi
      rcases Pieces.infix_of_append hi hg with hi | hi
      · rcases hl with ⟨-, rfl⟩ | hl
        · exact absurd hi hempty
        · obtain ⟨t, ht | ht, hi⟩ := hl.exists_piece hi hg
          · exact ⟨t, Or.inl ht, hi⟩
          · exact ht.elim
      · rcases Pieces.infix_of_append hi hg with hi | hi
        · exact absurd hi hempty
        · rcases hr with ⟨-, rfl⟩ | hr
          · exact absurd hi hempty
          · exact hr.exists_piece hi hg

/-- What stands behind the last colon. -/
theorem behind_last (hl : Pieces.Legal (ch ':') group dotted) {a : Str}
    (h : AddressOf group dotted (a ++ ch ':' :: g)) (hne : g ≠ []) (hg : ch ':' ∉ g) :
    group g ∨ dotted g := by
  have hpart : ∀ {m : Nat} {x : Str}, Pieces (ch ':') group dotted m (x ++ ch ':' :: g) →
      group g ∨ dotted g := by
    intro m x h
    obtain ⟨k, m, -, h, -⟩ := h.split hl
    exact ((Pieces.notMem_iff hg).mp h).imp And.right And.right
  generalize he : a ++ ch ':' :: g = s at h
  cases h with
  | full h => exact hpart (he ▸ h)
  | @gap k m l r _ hr _ =>
      have he : (l ++ [ch ':']) ++ ch ':' :: r = a ++ ch ':' :: g := by
        rw [he]
        simp [str]
      rcases Pieces.behind_last he hg with rfl | ⟨z, rfl⟩
      · rcases hr with ⟨-, hr⟩ | hr
        · exact absurd hr hne
        · exact ((Pieces.notMem_iff hg).mp hr).imp And.right And.right
      · rcases hr with ⟨-, hr⟩ | hr
        · exact absurd hr (by simp)
        · exact hpart hr

end AddressOf

/-! ## Without limits -/

/-- Groups of any width are wider than what is read and than what the rule has. -/
theorem wideLegal : Pieces.Legal (ch ':') PaddedGroup IsIpv4 :=
  (dottedText_octets fun _ h => h).legal

theorem isIpv4_of_nonzero {a : Str} (h : Dotted NonzeroOctet a) : IsIpv4 a :=
  h.mono (fun _ _ h => h.1) fun _ _ h => h

theorem IsIpv6.wide {s : Str} (h : IsIpv6 s) : AddressOf PaddedGroup IsIpv4 s :=
  h.mono (fun _ _ h => h.padded) fun _ _ h => h

theorem ReadGroups.wide {m : Nat} {s : Str} (h : ReadGroups m s) :
    Pieces (ch ':') PaddedGroup IsIpv4 m s :=
  h.mono (fun _ _ h => h) fun _ _ h => isIpv4_of_nonzero h

theorem point_notMem {g : Str} (h : PaddedGroup g) : ch '.' ∉ g :=
  fun hm => absurd (h.digits _ hm) (by decide)

theorem point_mem {a : Str} (h : IsIpv4 a) : ch '.' ∈ a := by
  cases h with
  | cons => simp

section

variable {k m : Nat} {l r : Str} (hl : FrontGroups k l)
  (hr : Pieces (ch ':') PaddedGroup IsIpv4 m r)

include hr

/-- No address starts with one colon. -/
theorem not_address_colon : ¬ AddressOf PaddedGroup IsIpv4 (ch ':' :: r) := by
  intro h
  generalize he : ch ':' :: r = s at h
  cases h with
  | full h =>
      obtain ⟨c, t, rfl, hc⟩ := h.head_ne wideLegal
      exact hc (List.cons.inj he).1.symm
  | @gap k m l r' hl _ _ =>
      rcases hl with ⟨-, rfl⟩ | hl
      · obtain ⟨c, t, rfl, hc⟩ := hr.head_ne wideLegal
        exact hc (List.cons.inj (List.cons.inj he).2).1
      · obtain ⟨c, t, rfl, hc⟩ := hl.head_ne frontLegal
        exact hc (List.cons.inj he).1.symm

include hl

/-- The number of groups beside a gap. -/
theorem gap_count :
    k + m = (l ++ str "::" ++ r).count (ch ':') + if ch '.' ∈ l ++ str "::" ++ r then 1 else 0 := by
  have hpoint : ch '.' ∉ l := by
    intro hm
    obtain ⟨t, ht | ht, hmem⟩ := hl.exists_mem hm (by decide)
    · exact point_notMem ht hmem
    · exact ht
  have hcountl := hl.count frontLegal (by decide) (fun _ => point_notMem) nofun
  have hcountr := hr.count wideLegal (by decide) (fun _ => point_notMem)
    fun _ => point_mem
  rw [if_neg hpoint] at hcountl
  have hmem : ch '.' ∈ l ++ str "::" ++ r ↔ ch '.' ∈ r := by
    simp only [List.mem_append, hpoint, false_or, show ch '.' ∉ str "::" from by decide]
  rw [hcountl, hcountr, List.count_append, List.count_append]
  simp only [hmem, show (str "::").count (ch ':') = 2 from by decide]
  omega

/-- A gap stands for at least one group. -/
theorem not_address_full (hsum : k + m = 8) :
    ¬ AddressOf PaddedGroup IsIpv4 (l ++ str "::" ++ r) := by
  intro h
  have hcount := gap_count hl hr
  generalize he : l ++ str "::" ++ r = s at h hcount
  cases h with
  | full h =>
      rw [← he, show l ++ str "::" ++ r = l ++ ch ':' :: ch ':' :: r by simp [str]] at h
      exact h.no_double wideLegal
  | @gap k' m' l' r' hl' hr' hle =>
      have hfront : FrontGroups k' l' := by
        rcases hl' with ⟨-, rfl⟩ | hl'
        · obtain ⟨c, t, rfl, hc⟩ := hl.head_ne frontLegal
          exact absurd he (no_start ⟨c, t ++ str "::" ++ r, by simp, hc⟩)
        · exact hl'
      have hback : Pieces (ch ':') PaddedGroup IsIpv4 m' r' := by
        rcases hr' with ⟨-, rfl⟩ | hr'
        · obtain ⟨t, c, rfl, hc⟩ := hr.last_ne wideLegal
          exact absurd (he.trans (List.append_nil _))
            (no_end ⟨l ++ str "::" ++ t, c, by simp, hc⟩)
        · exact hr'
      have := gap_count hfront hback
      omega

end

/-! ## What is read and what is not -/

/-- A colon in front of the groups. -/
def LeadingColon (s : Str) : Prop := ∃ m r, s = ch ':' :: r ∧ ReadGroups m r ∧ m ≤ 8

/-- A gap that stands for no group. -/
def EmptyGap (s : Str) : Prop :=
  ∃ k m l r, s = l ++ str "::" ++ r ∧ FrontGroups k l ∧ ReadGroups m r ∧ k + m = 8

/-- Behind a colon stands a dotted address with a number that is 0. -/
def ZeroOctet (s : Str) : Prop :=
  ∃ a d, s = a ++ ch ':' :: d ∧ IsIpv4 d ∧ str "0" ∈ d.splitOn (ch '.')

/-- Five hexadecimal digits follow each other. -/
def LongGroup (s : Str) : Prop := ∃ g, g <:+: s ∧ g.length = 5 ∧ ∀ c ∈ g, hex c = true

theorem gap_alone {l r : Str} (h : l ++ str "::" ++ r = str "::") : l = [] ∧ r = [] := by
  have hlength := congrArg List.length h
  rw [List.length_append, List.length_append] at hlength
  exact ⟨List.eq_nil_of_length_eq_zero (by omega), List.eq_nil_of_length_eq_zero (by omega)⟩

theorem readAddress_iff {s : Str} :
    ReadAddress s ↔
      AddressOf PaddedGroup (Dotted NonzeroOctet) s ∧ s ≠ str "::" ∨ LeadingColon s ∨
        EmptyGap s := by
  constructor
  · intro h
    cases h with
    | full h =>
        refine Or.inl ⟨.full h, ?_⟩
        rw [← List.append_nil (str "::")]
        exact no_start (h.head_ne readLegal)
    | @left k l h hk =>
        rw [← List.append_nil (l ++ str "::")]
        exact Or.inl ⟨.gap (Or.inr h) (Or.inl ⟨rfl, rfl⟩) hk,
          fun he => h.ne_nil frontLegal (gap_alone he).1⟩
    | @right m r h hm =>
        rw [← List.nil_append (str "::")]
        exact Or.inl ⟨.gap (Or.inl ⟨rfl, rfl⟩) (Or.inr h) (by omega),
          fun he => h.ne_nil readLegal (gap_alone he).2⟩
    | @inner k m l r hl hr hle =>
        by_cases hsum : k + m = 8
        · exact Or.inr (Or.inr ⟨k, m, l, r, rfl, hl, hr, hsum⟩)
        · exact Or.inl ⟨.gap (Or.inr hl) (Or.inr hr) (by omega),
            fun he => hl.ne_nil frontLegal (gap_alone he).1⟩
    | @leading m r h hm => exact Or.inr (Or.inl ⟨m, r, rfl, h, hm⟩)
  · rintro (⟨h, hne⟩ | ⟨m, r, rfl, hr, hle⟩ | ⟨k, m, l, r, rfl, hl, hr, hsum⟩)
    · cases h with
      | full h => exact .full h
      | @gap k m l r hl hr hle =>
          rcases hl with ⟨rfl, rfl⟩ | hl
          · rcases hr with ⟨rfl, rfl⟩ | hr
            · exact absurd rfl hne
            · exact .right hr (by omega)
          · rcases hr with ⟨rfl, rfl⟩ | hr
            · rw [List.append_nil]
              exact .left hl hle
            · exact .inner hl hr (by omega)
    · exact .leading hr hle
    · exact .inner hl hr (by omega)

/-- An address without the octet 0 is read. -/
theorem IsIpv6.octets {s : Str} (h : IsIpv6 s) :
    AddressOf IsGroup (Dotted NonzeroOctet) s ∨ ZeroOctet s := by
  have hlegal : Pieces.Legal (ch ':') IsGroup IsIpv4 :=
    ⟨fun g h => wideLegal.piece g h.padded, wideLegal.double⟩
  cases h with
  | full h =>
      rcases h.single_or with h | ⟨a, d, he, hd, hother⟩
      · exact Or.inl (.full (h.mono (fun _ _ h => h) nofun))
      · rcases dotted_or hd with hread | hz
        · exact Or.inl (.full (hother _ hread))
        · cases a with
          | nil =>
              obtain rfl := (List.cons.inj he).2
              rcases (Pieces.notMem_iff (wideLegal.double _ hd).2).mp h with ⟨h, -⟩ | ⟨h, -⟩
              · cases h
              · cases h
          | cons c a => exact Or.inr ⟨a, d, (List.cons.inj he).2, hd, hz⟩
  | @gap k m l r hl hr hle =>
      rcases hr with ⟨rfl, rfl⟩ | hr
      · exact Or.inl (.gap hl (Or.inl ⟨rfl, rfl⟩) hle)
      · rcases hr.single_or with hr | ⟨a, d, he, hd, hother⟩
        · exact Or.inl (.gap hl (Or.inr (hr.mono (fun _ _ h => h) nofun)) hle)
        · rcases dotted_or hd with hread | hz
          · exact Or.inl (.gap hl (Or.inr (hother _ hread)) hle)
          · refine Or.inr ⟨l ++ ch ':' :: a, d, ?_, hd, hz⟩
            rw [show l ++ str "::" ++ r = l ++ ch ':' :: (ch ':' :: r) by simp [str], he]
            simp

/-- An address with the octet 0 is not. -/
theorem ZeroOctet.not_read {s : Str} (h : ZeroOctet s) :
    ¬ AddressOf PaddedGroup (Dotted NonzeroOctet) s := by
  obtain ⟨a, d, rfl, hd, hz⟩ := h
  intro h
  have hlegal := wideLegal.double d hd
  rcases h.behind_last readLegal hlegal.1 hlegal.2 with hgroup | hread
  · exact point_notMem hgroup (point_mem hd)
  · exact not_nonzero hz hread

/-- The rule has no long groups. -/
theorem IsIpv6.not_long {s : Str} (h : IsIpv6 s) : ¬ LongGroup s := by
  rintro ⟨g, hi, hlen, hg⟩
  have hne : g ≠ [] := List.ne_nil_of_length_pos (by omega)
  obtain ⟨t, ht | ht, hi⟩ := h.exists_piece hi hne (colon_notMem hg)
  · have := hi.length_le
    have := ht.length_le
    omega
  · have hpoint : ch '.' ∉ g := fun hm => absurd (hg _ hm) (by decide)
    obtain ⟨o, ho | ho, hi⟩ := ht.exists_piece hi hpoint
    · have := hi.length_le
      have := ho.length_le
      omega
    · exact ho

/-- Without long groups, what is read is what the rule has. -/
theorem isIpv6_of_read {s : Str} (h : AddressOf PaddedGroup (Dotted NonzeroOctet) s)
    (hlong : ¬ LongGroup s) : IsIpv6 s := by
  refine h.mono (fun g hi hg => ⟨hg.ne_nil, ?_, hg.digits⟩) fun _ _ => isIpv4_of_nonzero
  by_contra hlt
  refine hlong ⟨g.take 5, (List.take_prefix ..).isInfix.trans hi, ?_, fun c hc => ?_⟩
  · rw [List.length_take]
    omega
  · exact hg.digits c (List.mem_of_mem_take hc)

/-- The texts that are read against the rule, or not read although the rule has
them. -/
inductive Misread : Str → Prop where
  | alone : Misread (str "::")
  | zero {s : Str} : IsIpv6 s → ZeroOctet s → Misread s
  | leading {s : Str} : LeadingColon s → Misread s
  | empty {s : Str} : EmptyGap s → Misread s
  | long {s : Str} : AddressOf PaddedGroup (Dotted NonzeroOctet) s → LongGroup s → Misread s

theorem LeadingColon.not_isIpv6 {s : Str} (h : LeadingColon s) : ¬ IsIpv6 s := by
  obtain ⟨m, r, rfl, hr, -⟩ := h
  exact fun h => not_address_colon hr.wide h.wide

theorem EmptyGap.not_isIpv6 {s : Str} (h : EmptyGap s) : ¬ IsIpv6 s := by
  obtain ⟨k, m, l, r, rfl, hl, hr, hsum⟩ := h
  exact fun h => not_address_full hl hr.wide hsum h.wide

/-- A gap may stand for all the groups. -/
theorem isIpv6_alone : IsIpv6 (str "::") :=
  .gap (k := 0) (m := 0) (Or.inl ⟨rfl, rfl⟩) (Or.inl ⟨rfl, rfl⟩) (by decide)

/-- **Where the addresses that are read are the ones of the rule.** -/
theorem validIpv6_rule_iff (s : Str) : (validIpv6 s = true ↔ IsIpv6 s) ↔ ¬ Misread s := by
  have hvalid := (validIpv6_iff s).trans readAddress_iff
  constructor
  · intro h hmis
    cases hmis with
    | alone => exact absurd (h.mpr isIpv6_alone) (by decide +kernel)
    | zero hrule hz =>
        rcases hvalid.mp (h.mpr hrule) with ⟨hread, -⟩ | hlead | hgap
        · exact hz.not_read hread
        · exact hlead.not_isIpv6 hrule
        · exact hgap.not_isIpv6 hrule
    | leading hlead => exact hlead.not_isIpv6 (h.mp (hvalid.mpr (Or.inr (Or.inl hlead))))
    | empty hgap => exact hgap.not_isIpv6 (h.mp (hvalid.mpr (Or.inr (Or.inr hgap))))
    | long hread hlong =>
        have hne : s ≠ str "::" := by
          rintro rfl
          exact isIpv6_alone.not_long hlong
        exact (h.mp (hvalid.mpr (Or.inl ⟨hread, hne⟩))).not_long hlong
  · intro hmis
    constructor
    · intro h
      rcases hvalid.mp h with ⟨hread, -⟩ | hlead | hgap
      · exact isIpv6_of_read hread fun hlong => hmis (.long hread hlong)
      · exact absurd (.leading hlead) hmis
      · exact absurd (.empty hgap) hmis
    · intro hrule
      rcases hrule.octets with hread | hz
      · refine hvalid.mpr (Or.inl ⟨hread.mono (fun _ _ h => h.padded) fun _ _ h => h, ?_⟩)
        rintro rfl
        exact hmis .alone
      · exact absurd (.zero hrule hz) hmis

/-- A gap on its own is an address, and it is not read. -/
theorem alone_not_valid : ¬ (validIpv6 (str "::") = true ↔ IsIpv6 (str "::")) :=
  fun h => absurd (h.mpr isIpv6_alone) (by decide +kernel)

end Undervest
