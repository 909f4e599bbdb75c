import Undervest.Configuration
import Undervest.Sendmail
import Undervest.Ldap

/-!
# The names a domain holds

The recipients of a domain are the names that the loads of its sources have
stored.  A load tests an address for the empty string before it cuts the domain
part off, and stores the lower case of what is left.

So a name has no `@` and no upper-case letter, and it is empty when an address
was an `@` and the domain.  No other address gives an empty name
(`wellFormed_iff`).

A corrected address has a stored name for its local part, so its local part is
not empty as long as no stored name is.
-/

namespace Undervest

open Unordered

/-! ## Stored names -/

/-- The names in a set after some loads, the first one first, into an empty set. -/
def stored (domname : Str) (loads : List Delivery) : UnorderedSet Str :=
  loads.foldl (fun r l => (Source.loadData domname l r).1) .empty

/-- The names one load stores. -/
def Delivery.stores (domname : Str) (l : Delivery) : Finset Str :=
  if l.opens then l.collected domname else ∅

theorem mem_foldl_loadData {domname s : Str} {loads : List Delivery} {r : UnorderedSet Str} :
    s ∈ (loads.foldl (fun r l => (Source.loadData domname l r).1) r).toList ↔
      s ∈ r.toList ∨ ∃ l ∈ loads, s ∈ l.stores domname := by
  induction loads generalizing r with
  | nil => simp
  | cons l loads ih =>
      rw [List.foldl_cons, ih, ← UnorderedSet.mem_toFinset, Source.loadData_toFinset,
        Finset.mem_union, UnorderedSet.mem_toFinset, List.exists_mem_cons_iff, or_assoc]
      rfl

theorem mem_stored {domname s : Str} {loads : List Delivery} :
    s ∈ (stored domname loads).toList ↔
      ∃ l ∈ loads, l.opens = true ∧ ∃ address ∈ l.addresses, ∃ name,
        Source.Names strcaseeq domname address name ∧ s = strtolower name := by
  have hstores : ∀ l : Delivery, s ∈ l.stores domname ↔ l.opens = true ∧
      ∃ address ∈ l.addresses, ∃ name,
        Source.Names strcaseeq domname address name ∧ s = strtolower name := by
    intro l
    rw [Delivery.stores]
    cases l.opens with
    | false => simp
    | true => simp [Delivery.collected, Source.accept_eq_some]
  rw [stored, mem_foldl_loadData]
  simp [UnorderedSet.empty, hstores]

/-- No address in a list of addresses delivered is empty. -/
theorem ne_nil_of_mem_addresses {l : Delivery} {address : Str} (h : address ∈ l.addresses) :
    address ≠ [] := by
  simpa using List.mem_takeWhile_imp h

/-! ## Local parts -/

/-- The text of an address with a given local part. -/
def Address.written (a : Address) (loc : Str) : Str :=
  let addr := loc ++ ch '@' :: a.domain
  if a.hasltgt then ch '<' :: addr ++ [ch '>'] else addr

/-- A domain that indexes its recipients answers the query or a recipient. -/
theorem Domain.recipient_mem {d : Domain} (h : d.Indexed) {c : Choices} {q t : Str}
    (ht : d.recipient c q = some t) : t = q ∨ t ∈ d.recipients.toList := by
  have hverdict : ∀ a, d.verdict c a q = some t → t = q ∨ t ∈ d.recipients.toList := by
    intro a ha
    rw [verdict_eq h] at ha
    cases hx : census (d.reaching c.rounding a q) with
    | none =>
        rw [hx] at ha
        cases ha
    | one t' =>
        rw [hx] at ha
        obtain rfl : t' = t := Option.some.inj ha
        have hm : t' ∈ d.reaching c.rounding a q := by
          rw [census_eq_one.mp hx]
          exact Finset.mem_singleton_self t'
        exact Or.inr (UnorderedSet.mem_toFinset.mp (Finset.mem_filter.mp hm).1)
    | many =>
        rw [hx] at ha
        exact Or.inl (Option.some.inj ha).symm
  rw [Domain.recipient_eq] at ht
  split at ht
  next => exact Or.inl (Option.some.inj ht).symm
  next =>
      rw [Option.or_eq_some_iff] at ht
      cases ht with
      | inl hn => exact hverdict .ngram hn
      | inr hw => exact hverdict .word hw.2

/-- An address that is not rejected by a domain with these recipients is written
with a local part. -/
def KeepsLocalPart (recipients : UnorderedSet Str) : Prop :=
  ∀ (c : Choices) (cfg : Configuration) (emailaddr : Str) (fixit : Bool) (a : Address)
    (dom : Domain), Address.parse emailaddr = some a → cfg.domains.lookup a.domain = some dom →
    dom.Indexed → dom.recipients = recipients → dom.recipient c a.origrcpt ≠ none →
    ∃ loc, loc ≠ [] ∧ (cfg.recipient c emailaddr fixit).1 = a.written loc

/-- Stored names are what the local part of an address may be, in lower case. -/
structure WellFormedNames (recipients : UnorderedSet Str) : Prop where
  nonempty : ∀ s ∈ recipients.toList, s ≠ []
  noAt : ∀ s ∈ recipients.toList, ch '@' ∉ s
  lower : ∀ s ∈ recipients.toList, strtolower s = s

theorem Address.origrcpt_ne_nil {emailaddr : Str} {a : Address}
    (h : Address.parse emailaddr = some a) : a.origrcpt ≠ [] := by
  simp only [Address.parse] at h
  split at h
  next => cases h
  next atpos hf =>
      split at h
      next => cases h
      next hpos =>
          obtain rfl := Option.some.inj h
          obtain ⟨loc, c, dom, hsplit, rfl, -, -⟩ := split_of_findIdx? hf
          rw [not_or] at hpos
          simpa [hsplit] using hpos.1

/-- A corrected address keeps a local part when no stored name is empty. -/
theorem keepsLocalPart {recipients : UnorderedSet Str} (h : ∀ s ∈ recipients.toList, s ≠ []) :
    KeepsLocalPart recipients := by
  intro c cfg emailaddr fixit a dom hparse hlookup hindexed hrec hanswer
  obtain ⟨t, ht⟩ := Option.ne_none_iff_exists'.mp hanswer
  refine ⟨t, ?_, ?_⟩
  · cases Domain.recipient_mem hindexed ht with
    | inl hq => exact hq ▸ Address.origrcpt_ne_nil hparse
    | inr hm => exact h t (hrec ▸ hm)
  · simp only [Configuration.recipient, hparse, hlookup, ht, Address.written]

/-- **What is stored.**  Every name that some loads store is well formed when no
address delivered is an `@` and the domain.  Then a corrected address has a local
part. -/
theorem wellFormed_iff (domname : Str) (loads : List Delivery) :
    WellFormedNames (stored domname loads) ∧ KeepsLocalPart (stored domname loads) ↔
      ∀ l ∈ loads, l.opens = true → ∀ dom, ch '@' :: dom ∈ l.addresses →
        strcaseeq domname dom = false := by
  constructor
  · rintro ⟨hnames, -⟩ l hl hopens dom haddr
    by_contra hsame
    rw [Bool.not_eq_false] at hsame
    have hm : [] ∈ (stored domname loads).toList :=
      mem_stored.mpr ⟨l, hl, hopens, _, haddr, [], Or.inr ⟨dom, rfl, by simp, hsame⟩, rfl⟩
    exact hnames.nonempty [] hm rfl
  · intro h
    have hnonempty : ∀ s ∈ (stored domname loads).toList, s ≠ [] := by
      intro s hs
      obtain ⟨l, hl, hopens, address, haddr, name, hname, rfl⟩ := mem_stored.mp hs
      rw [ne_eq, strtolower_eq_nil]
      rintro rfl
      obtain ⟨-, rfl⟩ | ⟨dom, rfl, -, hsame⟩ := hname
      · exact ne_nil_of_mem_addresses haddr rfl
      · have hother := h l hl hopens dom haddr
        rw [hsame] at hother
        cases hother
    refine ⟨⟨hnonempty, ?_, ?_⟩, keepsLocalPart hnonempty⟩
    · intro s hs
      obtain ⟨l, -, -, address, -, name, hname, rfl⟩ := mem_stored.mp hs
      refine Address.notMem_strtolower (by decide) ?_
      obtain ⟨hat, rfl⟩ | ⟨-, -, hat, -⟩ := hname
      · exact hat
      · exact hat
    · intro s hs
      obtain ⟨l, -, -, address, -, name, -, rfl⟩ := mem_stored.mp hs
      exact strtolower_strtolower name

/-- A file with an address that has no local part. -/
def noLocalPart : Delivery :=
  Sendmail.delivery (Sendmail.everywhere (str "@example.com: x")) (str "/etc/aliases")

/-- An address without a local part is stored as an empty name. -/
theorem empty_name_stored :
    ¬(WellFormedNames (stored (str "example.com") [noLocalPart]) ∧
      KeepsLocalPart (stored (str "example.com") [noLocalPart])) := by
  rintro ⟨hnames, -⟩
  have hm : [] ∈ (stored (str "example.com") [noLocalPart]).toList := by decide +kernel
  exact hnames.nonempty [] hm rfl

end Undervest
