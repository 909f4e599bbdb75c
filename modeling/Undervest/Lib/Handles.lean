import Mathlib.Logic.Function.Basic

/-!
# Objects held by keys

A table holds objects at addresses, and gives a key the address of its object.  An
object that no key holds any more, and that nobody deletes, is lost.

The operations do not check anything, so a key may be left with an address where there is
no object, or share one with another key.  `Sound` says that neither is so, and that every
object is held or lost.  Each operation keeps it, under a condition where it needs one.

What is lost stays where it is, and `Loses` says what can get lost on the way from a table
to another one.

`find` is what a key finds at its address.  In a sound table an operation for one key
changes what that key finds and nothing else.
-/

variable {κ ο : Type}

structure Handles (κ ο : Type) where
  handle : κ → Option Nat
  object : Nat → Option ο
  /-- The first address that has not been used. -/
  next : Nat
  lost : List Nat

namespace Handles

/-! ## Operations -/

def empty : Handles κ ο := ⟨fun _ => none, fun _ => none, 0, []⟩

/-- The object of a key. -/
def find (t : Handles κ ο) (k : κ) : Option ο := (t.handle k).bind t.object

/-- Replace the object at an address. -/
def write (t : Handles κ ο) (a : Nat) (o : ο) : Handles κ ο :=
  { t with object := Function.update t.object a (some o) }

/-- A new object that nobody holds. -/
def lose (t : Handles κ ο) (o : ο) : Handles κ ο :=
  { t with
    object := Function.update t.object t.next (some o)
    next := t.next + 1
    lost := t.next :: t.lost }

/-- A new object for a key. -/
def create [DecidableEq κ] (t : Handles κ ο) (k : κ) (o : ο) : Handles κ ο :=
  { t with
    handle := Function.update t.handle k (some t.next)
    object := Function.update t.object t.next (some o)
    next := t.next + 1 }

/-- Take the address from a key and delete the object there. -/
def release [DecidableEq κ] (t : Handles κ ο) (k : κ) : Handles κ ο :=
  match t.handle k with
  | none => t
  | some a =>
      { t with
        handle := Function.update t.handle k none
        object := Function.update t.object a none }

/-- Take the address from a key and leave the object where it is. -/
def forget [DecidableEq κ] (t : Handles κ ο) (k : κ) : Handles κ ο :=
  match t.handle k with
  | none => t
  | some a => { t with handle := Function.update t.handle k none, lost := a :: t.lost }

/-! ## Sound tables -/

structure Sound (t : Handles κ ο) : Prop where
  /-- There is an object at every address that is held. -/
  live : ∀ k a, t.handle k = some a → ∃ o, t.object a = some o
  /-- No object is held twice. -/
  apart : ∀ k k' a, t.handle k = some a → t.handle k' = some a → k = k'
  used : ∀ a o, t.object a = some o → a < t.next
  lost_live : ∀ a ∈ t.lost, (∃ o, t.object a = some o) ∧ ∀ k, t.handle k ≠ some a
  /-- Every object is held or lost. -/
  owned : ∀ a o, t.object a = some o → a ∈ t.lost ∨ ∃ k, t.handle k = some a

theorem sound_empty : (empty : Handles κ ο).Sound where
  live k a h := by cases h
  apart k k' a h := by cases h
  used a o h := by cases h
  lost_live a h := by cases h
  owned a o h := by cases h

namespace Sound

variable {t : Handles κ ο} {k : κ}

/-- An address that is held has been used. -/
theorem handle_lt (h : t.Sound) {a : Nat} (hk : t.handle k = some a) : a < t.next := by
  obtain ⟨o, ho⟩ := h.live k a hk
  exact h.used a o ho

theorem write (h : t.Sound) {a : Nat} {o' : ο} (ha : t.object a = some o') (o : ο) :
    (t.write a o).Sound := by
  have hlive : ∀ b, (∃ p, (t.write a o).object b = some p) ↔ ∃ p, t.object b = some p := by
    intro b
    by_cases hb : b = a
    · subst hb
      simp [Handles.write, ha]
    · simp [Handles.write, Function.update_of_ne hb]
  refine ⟨fun k b hk => (hlive b).mpr (h.live k b hk), h.apart, fun b p hp => ?_,
    fun b hb => ⟨(hlive b).mpr (h.lost_live b hb).1, (h.lost_live b hb).2⟩, fun b p hp => ?_⟩
  · obtain ⟨p', hp'⟩ := (hlive b).mp ⟨p, hp⟩
    exact h.used b p' hp'
  · obtain ⟨p', hp'⟩ := (hlive b).mp ⟨p, hp⟩
    exact h.owned b p' hp'

/-- What is at an address after a new object. -/
theorem object_new {a : Nat} {o p : ο}
    (ha : Function.update t.object t.next (some o) a = some p) :
    a = t.next ∨ a ≠ t.next ∧ t.object a = some p := by
  by_cases hn : a = t.next
  · exact Or.inl hn
  · rw [Function.update_of_ne hn] at ha
    exact Or.inr ⟨hn, ha⟩

/-- An old object is there after a new one. -/
theorem object_old (h : t.Sound) {a : Nat} (o : ο) (ha : ∃ p, t.object a = some p) :
    Function.update t.object t.next (some o) a = t.object a := by
  obtain ⟨p, hp⟩ := ha
  exact Function.update_of_ne (Nat.ne_of_lt (h.used a p hp)) _ _

theorem live_old (h : t.Sound) {a : Nat} (o : ο) (ha : ∃ p, t.object a = some p) :
    ∃ p, Function.update t.object t.next (some o) a = some p := by
  rwa [h.object_old o ha]

theorem lose (h : t.Sound) (o : ο) : (t.lose o).Sound := by
  refine ⟨fun k a hk => ?_, h.apart, fun a p hp => ?_, fun a ha => ?_, fun a p hp => ?_⟩
  · exact h.live_old o (h.live k a hk)
  · cases object_new hp with
    | inl hn => exact hn ▸ Nat.lt_succ_self _
    | inr hn => exact Nat.lt_succ_of_lt (h.used a p hn.2)
  · cases List.mem_cons.mp ha with
    | inl hn =>
        subst hn
        exact ⟨⟨o, Function.update_self ..⟩, fun k hk => absurd (h.handle_lt hk) (Nat.lt_irrefl _)⟩
    | inr ha =>
        obtain ⟨hlive, hheld⟩ := h.lost_live a ha
        exact ⟨h.live_old o hlive, hheld⟩
  · cases object_new hp with
    | inl hn => exact Or.inl (hn ▸ List.mem_cons_self ..)
    | inr hn => exact (h.owned a p hn.2).imp_left (List.mem_cons_of_mem _)

/-- What a key holds after a change for one key. -/
theorem handle_update [DecidableEq κ] {x : Option Nat} {k' : κ} {a : Nat}
    (h : Function.update t.handle k x k' = some a) :
    k' = k ∧ x = some a ∨ k' ≠ k ∧ t.handle k' = some a := by
  by_cases hk : k' = k
  · subst hk
    rw [Function.update_self] at h
    exact Or.inl ⟨rfl, h⟩
  · rw [Function.update_of_ne hk] at h
    exact Or.inr ⟨hk, h⟩

theorem create [DecidableEq κ] (h : t.Sound) (hk : t.handle k = none) (o : ο) :
    (t.create k o).Sound := by
  refine ⟨fun k' a hk' => ?_, fun k₁ k₂ a h₁ h₂ => ?_, fun a p hp => ?_, fun a ha => ?_,
    fun a p hp => ?_⟩
  · rcases handle_update hk' with ⟨-, he⟩ | ⟨-, hk'⟩
    · obtain rfl := Option.some.inj he
      exact ⟨o, Function.update_self ..⟩
    · exact h.live_old o (h.live k' a hk')
  · rcases handle_update h₁ with ⟨rfl, he⟩ | ⟨-, h₁'⟩
    · rcases handle_update h₂ with ⟨rfl, -⟩ | ⟨-, h₂⟩
      · rfl
      · -- no key held the new address
        obtain rfl := Option.some.inj he
        exact absurd (h.handle_lt h₂) (Nat.lt_irrefl _)
    · rcases handle_update h₂ with ⟨rfl, he⟩ | ⟨-, h₂⟩
      · obtain rfl := Option.some.inj he
        exact absurd (h.handle_lt h₁') (Nat.lt_irrefl _)
      · exact h.apart k₁ k₂ a h₁' h₂
  · cases object_new hp with
    | inl hn => exact hn ▸ Nat.lt_succ_self _
    | inr hn => exact Nat.lt_succ_of_lt (h.used a p hn.2)
  · obtain ⟨hlive, hheld⟩ := h.lost_live a ha
    refine ⟨h.live_old o hlive, fun k' hk' => ?_⟩
    rcases handle_update hk' with ⟨-, he⟩ | ⟨-, hk'⟩
    · obtain rfl := Option.some.inj he
      obtain ⟨p, hp⟩ := hlive
      exact absurd (h.used _ p hp) (Nat.lt_irrefl _)
    · exact hheld k' hk'
  · cases object_new hp with
    | inl hn => exact Or.inr ⟨k, by rw [hn]; exact Function.update_self ..⟩
    | inr hn =>
        refine (h.owned a p hn.2).imp_right fun ⟨k', hk'⟩ => ⟨k', ?_⟩
        have hne : k' ≠ k := by
          rintro rfl
          rw [hk] at hk'
          cases hk'
        exact (Function.update_of_ne hne _ _).trans hk'

theorem release [DecidableEq κ] (h : t.Sound) (k : κ) : (t.release k).Sound := by
  unfold Handles.release
  split
  next => exact h
  next a hk =>
      -- only the key held the object
      have hne : ∀ k' b, Function.update t.handle k none k' = some b →
          t.handle k' = some b ∧ b ≠ a := by
        intro k' b hk'
        rcases handle_update hk' with ⟨-, he⟩ | ⟨hkk, hk'⟩
        · cases he
        · refine ⟨hk', ?_⟩
          rintro rfl
          exact hkk (h.apart _ _ _ hk' hk)
      have hobj : ∀ b p, Function.update t.object a none b = some p →
          b ≠ a ∧ t.object b = some p := by
        intro b p hp
        by_cases hb : b = a
        · subst hb
          rw [Function.update_self] at hp
          cases hp
        · rw [Function.update_of_ne hb] at hp
          exact ⟨hb, hp⟩
      refine ⟨fun k' b hk' => ?_, fun k₁ k₂ b h₁ h₂ => ?_, fun b p hp => ?_, fun b hb => ?_,
        fun b p hp => ?_⟩
      · obtain ⟨hk', hb⟩ := hne k' b hk'
        obtain ⟨p, hp⟩ := h.live k' b hk'
        exact ⟨p, (Function.update_of_ne hb _ _).trans hp⟩
      · exact h.apart k₁ k₂ b (hne _ _ h₁).1 (hne _ _ h₂).1
      · exact h.used b p (hobj b p hp).2
      · obtain ⟨⟨p, hp⟩, hheld⟩ := h.lost_live b hb
        have hba : b ≠ a := by
          rintro rfl
          exact hheld k hk
        exact ⟨⟨p, (Function.update_of_ne hba _ _).trans hp⟩,
          fun k' hk' => hheld k' (hne _ _ hk').1⟩
      · obtain ⟨hba, hp⟩ := hobj b p hp
        refine (h.owned b p hp).imp_right fun ⟨k', hk'⟩ => ⟨k', ?_⟩
        have hkk : k' ≠ k := by
          rintro rfl
          exact hba (Option.some.inj (hk'.symm.trans hk))
        exact (Function.update_of_ne hkk _ _).trans hk'

theorem forget [DecidableEq κ] (h : t.Sound) (k : κ) : (t.forget k).Sound := by
  unfold Handles.forget
  split
  next => exact h
  next a hk =>
      have hold : ∀ k' b, Function.update t.handle k none k' = some b →
          k' ≠ k ∧ t.handle k' = some b := by
        intro k' b hk'
        rcases handle_update hk' with ⟨-, he⟩ | hk'
        · cases he
        · exact hk'
      refine ⟨fun k' b hk' => h.live k' b (hold k' b hk').2,
        fun k₁ k₂ b h₁ h₂ => h.apart k₁ k₂ b (hold _ _ h₁).2 (hold _ _ h₂).2, h.used,
        fun b hb => ?_, fun b p hp => ?_⟩
      · cases List.mem_cons.mp hb with
        | inl hba =>
            -- only the key held the object
            subst hba
            exact ⟨h.live k b hk, fun k' hk' =>
              (hold k' b hk').1 (h.apart k' k b (hold k' b hk').2 hk)⟩
        | inr hb => exact ⟨(h.lost_live b hb).1, fun k' hk' =>
            (h.lost_live b hb).2 k' (hold k' b hk').2⟩
      · rcases h.owned b p hp with hb | ⟨k', hk'⟩
        · exact Or.inl (List.mem_cons_of_mem _ hb)
        · by_cases hkk : k' = k
          · subst hkk
            exact Or.inl (Option.some.inj (hk'.symm.trans hk) ▸ List.mem_cons_self ..)
          · exact Or.inr ⟨k', (Function.update_of_ne hkk _ _).trans hk'⟩

end Sound

/-! ## Addresses are not used again -/

/-- Where there was no object any more, there is none later. -/
structure Ages (t t' : Handles κ ο) : Prop where
  next : t.next ≤ t'.next
  dead : ∀ a, a < t.next → t.object a = none → t'.object a = none

namespace Ages

variable {t t' t'' : Handles κ ο}

theorem refl (t : Handles κ ο) : t.Ages t := ⟨Nat.le_refl _, fun _ _ h => h⟩

theorem trans (h : t.Ages t') (h' : t'.Ages t'') : t.Ages t'' :=
  ⟨Nat.le_trans h.next h'.next,
    fun a ha hd => h'.dead a (Nat.lt_of_lt_of_le ha h.next) (h.dead a ha hd)⟩

theorem write {a : Nat} {o' : ο} (ha : t.object a = some o') (o : ο) : t.Ages (t.write a o) := by
  refine ⟨Nat.le_refl _, fun b _ hd => (Function.update_of_ne ?_ _ _).trans hd⟩
  rintro rfl
  rw [hd] at ha
  cases ha

/-- A new object comes to an address that has not been used. -/
theorem lose (t : Handles κ ο) (o : ο) : t.Ages (t.lose o) :=
  ⟨Nat.le_succ _, fun _ hb hd => (Function.update_of_ne (Nat.ne_of_lt hb) _ _).trans hd⟩

variable [DecidableEq κ]

theorem create (t : Handles κ ο) (k : κ) (o : ο) : t.Ages (t.create k o) :=
  ⟨Nat.le_succ _, fun _ hb hd => (Function.update_of_ne (Nat.ne_of_lt hb) _ _).trans hd⟩

theorem release (t : Handles κ ο) (k : κ) : t.Ages (t.release k) := by
  unfold Handles.release
  split
  next => exact refl t
  next a hk =>
      refine ⟨Nat.le_refl _, fun b _ hd => ?_⟩
      by_cases hb : b = a
      · subst hb
        exact Function.update_self ..
      · exact (Function.update_of_ne hb _ _).trans hd

end Ages

/-! ## What is lost -/

/-- What is lost stays as it is, and what gets lost has a property. -/
structure Loses (P : ο → Prop) (t t' : Handles κ ο) : Prop where
  kept : ∀ a ∈ t.lost, a ∈ t'.lost ∧ t'.object a = t.object a
  new : ∀ a ∈ t'.lost, a ∈ t.lost ∨ ∃ o, t'.object a = some o ∧ P o

namespace Loses

variable {P : ο → Prop} {t t' t'' : Handles κ ο} {k : κ}

theorem refl (P : ο → Prop) (t : Handles κ ο) : Loses P t t :=
  ⟨fun _ ha => ⟨ha, rfl⟩, fun _ ha => Or.inl ha⟩

theorem trans (h : Loses P t t') (h' : Loses P t' t'') : Loses P t t'' := by
  refine ⟨fun a ha => ?_, fun a ha => ?_⟩
  · obtain ⟨hm, ho⟩ := h.kept a ha
    obtain ⟨hm', ho'⟩ := h'.kept a hm
    exact ⟨hm', ho'.trans ho⟩
  · rcases h'.new a ha with hm | hnew
    · refine (h.new a hm).imp_right fun ⟨o, ho, hp⟩ => ⟨o, ?_, hp⟩
      rw [(h'.kept a hm).2, ho]
    · exact Or.inr hnew

/-- Nothing is lost, and the objects that are lost are not touched. -/
theorem of_lost (hlost : t'.lost = t.lost) (ho : ∀ a ∈ t.lost, t'.object a = t.object a) :
    Loses P t t' :=
  ⟨fun a ha => ⟨hlost ▸ ha, ho a ha⟩, fun _ ha => Or.inl (hlost ▸ ha)⟩

/-- Only what is held is written. -/
theorem write (h : t.Sound) {a : Nat} (hk : t.handle k = some a) (o : ο) :
    Loses P t (t.write a o) := by
  refine of_lost rfl fun b hb => Function.update_of_ne ?_ _ _
  rintro rfl
  exact (h.lost_live b hb).2 k hk

variable [DecidableEq κ]

theorem create (h : t.Sound) (k : κ) (o : ο) : Loses P t (t.create k o) :=
  of_lost rfl fun a ha => h.object_old o (h.lost_live a ha).1

theorem release (h : t.Sound) (k : κ) : Loses P t (t.release k) := by
  unfold Handles.release
  split
  next => exact refl P t
  next a hk =>
      refine of_lost rfl fun b hb => Function.update_of_ne ?_ _ _
      rintro rfl
      exact (h.lost_live b hb).2 k hk

/-- What a key loses is what it found. -/
theorem forget (h : t.Sound) (hk : ∀ o, t.find k = some o → P o) : Loses P t (t.forget k) := by
  unfold Handles.forget
  split
  next => exact refl P t
  next a ha =>
      refine ⟨fun b hb => ⟨List.mem_cons_of_mem _ hb, rfl⟩, fun b hb => ?_⟩
      cases List.mem_cons.mp hb with
      | inl he =>
          subst he
          obtain ⟨o, ho⟩ := h.live k b ha
          refine Or.inr ⟨o, ho, hk o ?_⟩
          rw [find, ha, Option.bind_some, ho]
      | inr hb => exact Or.inl hb

end Loses

/-! ## What a key finds -/

variable {t : Handles κ ο} {k k' : κ}

/-- A key of a sound table that holds an address finds an object. -/
theorem Sound.find_eq_none (h : t.Sound) : t.find k = none ↔ t.handle k = none := by
  constructor
  · intro hf
    by_contra hne
    obtain ⟨a, ha⟩ := Option.ne_none_iff_exists'.mp hne
    obtain ⟨o, ho⟩ := h.live k a ha
    rw [find, ha, Option.bind_some, ho] at hf
    cases hf
  · intro hk
    rw [find, hk, Option.bind_none]

theorem Sound.isSome_find (h : t.Sound) (k : κ) : (t.find k).isSome = (t.handle k).isSome := by
  rw [Bool.eq_iff_iff, Option.isSome_iff_ne_none, Option.isSome_iff_ne_none]
  exact not_congr h.find_eq_none

theorem find_write {a : Nat} (hk : t.handle k = some a) (o : ο) :
    (t.write a o).find k = some o := by
  simp [find, write, hk]

theorem Sound.find_write_of_ne (h : t.Sound) {a : Nat} (hk : t.handle k = some a) (o : ο)
    (hne : k' ≠ k) : (t.write a o).find k' = t.find k' := by
  refine Option.bind_congr fun b hb => Function.update_of_ne ?_ _ _
  rintro rfl
  exact hne (h.apart _ _ _ hb hk)

theorem Sound.find_lose (h : t.Sound) (o : ο) : (t.lose o).find k = t.find k :=
  Option.bind_congr fun a ha => h.object_old o (h.live k a ha)

section

variable [DecidableEq κ]

theorem find_create (t : Handles κ ο) (k : κ) (o : ο) : (t.create k o).find k = some o := by
  simp [find, create]

theorem Sound.find_create_of_ne (h : t.Sound) (o : ο) (hne : k' ≠ k) :
    (t.create k o).find k' = t.find k' := by
  have hk : (t.create k o).handle k' = t.handle k' := Function.update_of_ne hne _ _
  rw [find, hk]
  exact Option.bind_congr fun a ha => h.object_old o (h.live k' a ha)

theorem find_release (t : Handles κ ο) (k : κ) : (t.release k).find k = none := by
  unfold release
  split
  next hk => rw [find, hk, Option.bind_none]
  next => simp [find]

theorem lost_release (t : Handles κ ο) (k : κ) : (t.release k).lost = t.lost := by
  unfold release
  split <;> rfl

theorem Sound.find_release_of_ne (h : t.Sound) (hne : k' ≠ k) :
    (t.release k).find k' = t.find k' := by
  unfold Handles.release
  split
  next => rfl
  next a hk =>
      have hk' : Function.update t.handle k none k' = t.handle k' := Function.update_of_ne hne _ _
      change (Function.update t.handle k none k').bind (Function.update t.object a none) = t.find k'
      rw [hk']
      refine Option.bind_congr fun b hb => Function.update_of_ne ?_ _ _
      rintro rfl
      exact hne (h.apart _ _ _ hb hk)

theorem find_forget (t : Handles κ ο) (k : κ) : (t.forget k).find k = none := by
  unfold forget
  split
  next hk => rw [find, hk, Option.bind_none]
  next => simp [find]

theorem find_forget_of_ne (t : Handles κ ο) (hne : k' ≠ k) :
    (t.forget k).find k' = t.find k' := by
  unfold forget
  split
  next => rfl
  next => exact congrArg (Option.bind · t.object) (Function.update_of_ne hne _ _)

/-- An object is lost if there is one. -/
theorem length_lost_forget (t : Handles κ ο) (k : κ) :
    (t.forget k).lost.length = t.lost.length + (t.handle k).isSome.toNat := by
  unfold forget
  split
  next hk => rw [hk]; rfl
  next hk => rw [hk]; rfl

end

end Handles
