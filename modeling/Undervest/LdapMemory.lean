import Mathlib.Algebra.GroupWithZero.Nat
import Undervest.Ldap
import Undervest.Lib.Handles
import Undervest.Lib.Refinement

/-!
# The memory of the LDAP loader

`Ldap` reads the results of a search from a position.  The source has pointers instead, to
things that the library has allocated: a message, the element that its attributes are read
from, an array of values with a pointer into it, the connection and the parsed URL.  They
are freed by `release_message` and by the destructor of the handle.

A read through a null pointer, a read or a second free of what has been freed, and a read
behind an array are faults.  `Cursor.view` is the position that the pointers stand for.  A
turn of the loop has no fault, and it is the turn of `Ldap` at that position
(`cursorTurn_shows`).

`ldap_get_attribute_ber` overwrites the pointer to the array.  An array is lost when there
is another call for the same entry, and nothing else is lost (`Object.IsValues`).  `pending`
counts the arrays that will be lost so.  Together with those that are lost already they
stay the same in a turn.
-/

namespace Undervest.Ldap

open Unordered Enumeration Refinement

/-! ## Objects -/

/-- What `new` and the library allocate. -/
inductive Object where
  | handle
  | connection
  | urlDesc
  | message
  /-- The calls of `ldap_get_attribute_ber` that are left.  One that fails, which is the last
  for the entry, makes the pointer to the array null or leaves it as it is. -/
  | ber (left : List AttributeCall) (nulls : Bool)
  /-- An array, with a null pointer behind its values.  Their characters are in the message. -/
  | values (vs : List Str)
deriving DecidableEq, Repr

/-- An array of values. -/
def Object.IsValues (o : Object) : Prop := ∃ vs, o = .values vs

/-- A message, with what a call that fails for its attributes does to the pointer. -/
structure Received where
  message : Message
  nulls : Bool
deriving DecidableEq, Repr

/-- The pointer that `openSource` returns, and the members of the handle. -/
inductive Member where
  | self
  | ldap
  | uri
  | msg
  | ber
  | values
deriving DecidableEq, Repr

abbrev Memory := Handles Member Object

/-- What goes wrong. -/
inductive Misuse where
  /-- A read through a null pointer. -/
  | null
  /-- A read or a free of what has been freed. -/
  | freed
  /-- A read behind an array. -/
  | outside
  /-- A loop that is out of turns. -/
  | turns
deriving DecidableEq, Repr

/-- Read what a pointer points to. -/
def deref (t : Memory) (k : Member) : Except Misuse Object :=
  match t.handle k with
  | none => .error .null
  | some a => ofOption .freed (t.object a)

/-- Free what a pointer points to, unless it is null. -/
def free (t : Memory) (k : Member) : Except Misuse Memory :=
  match t.handle k with
  | none => .ok t
  | some a => if (t.object a).isSome then .ok (t.release k) else .error .freed

theorem free_eq {t : Memory} (h : t.Sound) (k : Member) : free t k = .ok (t.release k) := by
  rw [free]
  split
  next hk => rw [Handles.release, hk]
  next a hk =>
    obtain ⟨o, ho⟩ := h.live k a hk
    rw [ho]
    rfl

theorem deref_eq {t : Memory} {k : Member} {o : Object} (h : t.find k = some o) :
    deref t k = .ok o := by
  obtain ⟨a, hk, ho⟩ := Option.bind_eq_some_iff.mp h
  rw [deref, hk]
  exact congrArg (ofOption Misuse.freed) ho

/-! ## The loader -/

/-- `ldap_handle` while a search is read. -/
structure Cursor where
  memory : Memory
  /-- `value`, as an index of the array at `values`. -/
  value : Option Nat
  /-- What the library has still to deliver. -/
  messages : List Received

/-- `ldap_handle::release_message`, which leaves null pointers. -/
def releaseMessage (t : Memory) : Except Misuse Memory := do
  let t ← free t .msg
  let t ← free t .ber
  free t .values

/-- `delete` of a handle. -/
def deleteHandle (t : Memory) : Except Misuse Memory := do
  let _ ← deref t .self
  let t ← releaseMessage t
  let t ← free t .ldap
  let t ← free t .uri
  free t .self

/-- What a turn of the loop does. -/
inductive CursorTurn where
  | again (c : Cursor)
  | answer (a : Option Str) (c : Cursor)

/-- `h->value && h->value->bv_val`, with the characters. -/
def current (c : Cursor) : Except Misuse (Option Str) :=
  match c.value with
  | none => pure none
  | some i => do
      match ← deref c.memory .values with
      | .values vs =>
          if i < vs.length then
            let _ ← deref c.memory .msg
            pure vs[i]?
          -- the null pointer at the end
          else if i = vs.length then pure none
          else .error .outside
      | _ => .error .freed

/-- The rest of a turn, from `release_message` on. -/
def nextTurn (c : Cursor) : Except Misuse CursorTurn := do
  let t ← releaseMessage c.memory
  let _ ← deref t .ldap
  match c.messages with
  | [] => pure (.answer none ⟨t, none, []⟩)
  | m :: messages =>
      let t := t.create .msg .message
      match m.message with
      | .searchResult parses success =>
          pure (.answer (if parses && success then some [] else none) ⟨t, none, messages⟩)
      | .searchEntry none => pure (.answer none ⟨t, none, messages⟩)
      | .searchEntry (some attributes) =>
          pure (.again ⟨t.create .ber (.ber attributes m.nulls), none, messages⟩)
      | .other => pure (.again ⟨t, none, messages⟩)

/-- The pointer to the array becomes a new one, null if there are no values. -/
def storeValues (t : Memory) (vs : List Str) : Memory :=
  let t := t.forget .values
  if vs = [] then t else t.create .values (.values vs)

/-- The turn from `ldap_get_attribute_ber` on. -/
def attributeTurn (c : Cursor) : Except Misuse CursorTurn := do
  match c.memory.handle .ber with
  | none => nextTurn c
  | some b =>
      let _ ← deref c.memory .ldap
      let _ ← deref c.memory .msg
      let o ← deref c.memory .ber
      match o with
      | .ber (.success vs :: left) nulls =>
          let t := storeValues (c.memory.write b (.ber left nulls)) vs
          pure (.again { c with memory := t, value := if vs = [] then none else some 0 })
      | .ber (.error :: _) nulls =>
          nextTurn { c with memory := if nulls then c.memory.forget .values else c.memory }
      -- no attribute is left
      | .ber [] _ => nextTurn c
      | _ => .error .freed

/-- One turn of the loop. -/
def cursorTurn (c : Cursor) : Except Misuse CursorTurn := do
  let _ ← deref c.memory .self
  match ← current c with
  | some v =>
      let c := { c with value := c.value.map (· + 1) }
      match recipientOf v with
      | some result => pure (.answer (some result) c)
      | none => pure (.again c)
  | none => attributeTurn c

/-- The position that the pointers stand for. -/
def Cursor.view (c : Cursor) : Handle where
  value := match c.memory.find .values, c.value with
    | some (.values vs), some i => vs.drop i
    | _, _ => []
  ber := match c.memory.find .ber with
    | some (.ber left _) => some left
    | _ => none
  messages := c.messages.map Received.message

/-- The loop, with a bound on its turns. -/
def cursorLoop : Nat → Cursor → Except Misuse (Option Str × Cursor)
  | 0, _ => .error .turns
  | turns + 1, c => do
      match ← cursorTurn c with
      | .again c => cursorLoop turns c
      | .answer a c => pure (a, c)

/-- `getRecipient`. -/
def nextRecipient (c : Cursor) : Except Misuse (Option Str × Cursor) :=
  cursorLoop (c.view.work + 1) c

/-! ## What is released -/

/-- What `release_message` does. -/
structure Released (t t' : Memory) : Prop where
  sound : t'.Sound
  lost : t'.lost = t.lost
  loses : t.Loses Object.IsValues t'
  msg : t'.find .msg = none
  ber : t'.find .ber = none
  values : t'.find .values = none
  self : t'.find .self = t.find .self
  ldap : t'.find .ldap = t.find .ldap

theorem releaseMessage_spec {t : Memory} (h : t.Sound) :
    ∃ t', releaseMessage t = .ok t' ∧ Released t t' := by
  have hmsg := h.release .msg
  have hber := hmsg.release .ber
  refine ⟨((t.release .msg).release .ber).release .values, ?_, hber.release .values, ?_,
    ((Handles.Loses.release h .msg).trans (.release hmsg .ber)).trans (.release hber .values),
    ?_, ?_, Handles.find_release .., ?_, ?_⟩
  · rw [releaseMessage, free_eq h, ok_bind, free_eq hmsg, ok_bind, free_eq hber]
  · rw [Handles.lost_release, Handles.lost_release, Handles.lost_release]
  · rw [hber.find_release_of_ne (by decide), hmsg.find_release_of_ne (by decide),
      Handles.find_release]
  · rw [hber.find_release_of_ne (by decide), Handles.find_release]
  · rw [hber.find_release_of_ne (by decide), hmsg.find_release_of_ne (by decide),
      h.find_release_of_ne (by decide)]
  · rw [hber.find_release_of_ne (by decide), hmsg.find_release_of_ne (by decide),
      h.find_release_of_ne (by decide)]

/-- Every pointer is null. -/
def Idle (t : Memory) : Prop := ∀ k, t.handle k = none

theorem deleteHandle_spec {t : Memory} (h : t.Sound) {o : Object} (hself : t.find .self = some o) :
    ∃ t', deleteHandle t = .ok t' ∧ t'.Sound ∧ Idle t' ∧ t'.lost = t.lost ∧
      t.Loses Object.IsValues t' := by
  obtain ⟨t₁, ht₁, hr⟩ := releaseMessage_spec h
  have hldap := hr.sound.release .ldap
  have huri := hldap.release .uri
  refine ⟨((t₁.release .ldap).release .uri).release .self, ?_, huri.release .self, ?_, ?_,
    ((hr.loses.trans (.release hr.sound .ldap)).trans (.release hldap .uri)).trans
      (.release huri .self)⟩
  · rw [deleteHandle, deref_eq hself, ok_bind, ht₁, ok_bind, free_eq hr.sound, ok_bind,
      free_eq hldap, ok_bind, free_eq huri]
  · intro k
    have hsound := huri.release .self
    rw [← hsound.find_eq_none]
    cases k with
    | self => exact Handles.find_release ..
    | uri => rw [huri.find_release_of_ne (by decide), Handles.find_release]
    | ldap =>
        rw [huri.find_release_of_ne (by decide), hldap.find_release_of_ne (by decide),
          Handles.find_release]
    | msg =>
        rw [huri.find_release_of_ne (by decide), hldap.find_release_of_ne (by decide),
          hr.sound.find_release_of_ne (by decide), hr.msg]
    | ber =>
        rw [huri.find_release_of_ne (by decide), hldap.find_release_of_ne (by decide),
          hr.sound.find_release_of_ne (by decide), hr.ber]
    | values =>
        rw [huri.find_release_of_ne (by decide), hldap.find_release_of_ne (by decide),
          hr.sound.find_release_of_ne (by decide), hr.values]
  · rw [Handles.lost_release, Handles.lost_release, Handles.lost_release, hr.lost]

/-! ## Sound positions -/

structure Cursor.Sound (c : Cursor) : Prop where
  memory : c.memory.Sound
  self : ∃ o, c.memory.find .self = some o
  ldap : ∃ o, c.memory.find .ldap = some o
  ber : ∀ o, c.memory.find .ber = some o → ∃ left nulls, o = .ber left nulls
  /-- What is read of an entry is in the message. -/
  msg : c.memory.find .ber ≠ none → ∃ o, c.memory.find .msg = some o
  values : ∀ o, c.memory.find .values = some o → ∃ vs, o = .values vs
  /-- An array has been read from an entry. -/
  entry : c.memory.find .values ≠ none → c.memory.find .ber ≠ none
  value : ∀ i, c.value = some i →
    ∃ vs, c.memory.find .values = some (.values vs) ∧ i ≤ vs.length

/-- How many arrays are lost by the calls that are left for an entry.  The flag says that
the pointer to the array is not null. -/
def overwritten (nulls : Bool) : Bool → List AttributeCall → Nat
  | _, [] => 0
  | held, .success vs :: left => held.toNat + overwritten nulls (vs != []) left
  | held, .error :: _ => (nulls && held).toNat

/-- How many arrays are lost by the calls for a message. -/
def Received.overwritten (m : Received) : Nat :=
  match m.message with
  | .searchEntry (some attributes) => Ldap.overwritten m.nulls false attributes
  | _ => 0

/-- How many arrays will be lost if the search is read to its end. -/
def Cursor.pending (c : Cursor) : Nat :=
  (match c.memory.find .ber with
    | some (.ber left nulls) => overwritten nulls (c.memory.find .values).isSome left
    | _ => 0) + (c.messages.map Received.overwritten).sum

namespace CursorTurn

def cursor : CursorTurn → Cursor
  | .again c => c
  | .answer _ c => c

def view : CursorTurn → Turn
  | .again c => .again c.view
  | .answer a c => .answer a c.view

/-- A turn at a position, with what it loses and with so many arrays lost and still to
lose. -/
structure Shows (x : Turn) (t : Memory) (total : Nat) (r : CursorTurn) : Prop where
  view : r.view = x
  sound : r.cursor.Sound
  loses : t.Loses Object.IsValues r.cursor.memory
  total : r.cursor.memory.lost.length + r.cursor.pending = total

end CursorTurn

/-! ## One turn -/

/-- A position without an entry. -/
theorem no_entry {t : Memory} (h : t.Sound) (hself : ∃ o, t.find .self = some o)
    (hldap : ∃ o, t.find .ldap = some o) (hber : t.find .ber = none)
    (hvalues : t.find .values = none) (messages : List Received) :
    Cursor.Sound ⟨t, none, messages⟩ ∧
      Cursor.view ⟨t, none, messages⟩ = ⟨[], none, messages.map Received.message⟩ ∧
      Cursor.pending ⟨t, none, messages⟩ = (messages.map Received.overwritten).sum := by
  refine ⟨⟨h, hself, hldap, fun o hf => ?_, fun hf => absurd hber hf, fun o hf => ?_,
    fun hf => absurd hvalues hf, fun i hi => by cases hi⟩, ?_, ?_⟩
  · rw [hber] at hf
    cases hf
  · rw [hvalues] at hf
    cases hf
  · simp [Cursor.view, hber]
  · simp [Cursor.pending, hber]

/-- The position at the first attribute of an entry. -/
theorem entry_shows {t : Memory} (h : t.Sound) (hself : ∃ o, t.find .self = some o)
    (hldap : ∃ o, t.find .ldap = some o) (hmsg : ∃ o, t.find .msg = some o)
    (hber : t.find .ber = none) (hvalues : t.find .values = none)
    (attributes : List AttributeCall) (nulls : Bool) (messages : List Received) :
    CursorTurn.Shows (.again ⟨[], some attributes, messages.map Received.message⟩) t
      (t.lost.length + (overwritten nulls false attributes +
        (messages.map Received.overwritten).sum))
      (.again ⟨t.create .ber (.ber attributes nulls), none, messages⟩) := by
  have hsound := h.create (h.find_eq_none.mp hber) (.ber attributes nulls)
  have hfind := Handles.find_create t .ber (.ber attributes nulls)
  have hold : ∀ k, k ≠ .ber → (t.create .ber (.ber attributes nulls)).find k = t.find k :=
    fun k hk => h.find_create_of_ne _ hk
  have hnone : (t.create .ber (.ber attributes nulls)).find .values = none :=
    (hold _ (by decide)).trans hvalues
  refine ⟨?_, ⟨hsound, ?_, ?_, fun o hf => ?_, fun _ => ?_, fun o hf => ?_,
    fun hf => absurd hnone hf, fun i hi => by cases hi⟩, .create h .ber _, ?_⟩
  · simp [CursorTurn.view, Cursor.view, hfind]
  · exact (hold .self (by decide)) ▸ hself
  · exact (hold .ldap (by decide)) ▸ hldap
  · exact ⟨attributes, nulls, (Option.some.inj (hfind.symm.trans hf)).symm⟩
  · exact (hold .msg (by decide)) ▸ hmsg
  · exact absurd (hnone.symm.trans hf) (Option.some_ne_none _).symm
  · change t.lost.length + Cursor.pending ⟨_, none, messages⟩ = _
    simp [Cursor.pending, hfind, hnone]

theorem nextTurn_shows {c : Cursor} (h : c.memory.Sound)
    (hself : ∃ o, c.memory.find .self = some o) (hldap : ∃ o, c.memory.find .ldap = some o) :
    ∃ r, nextTurn c = .ok r ∧ r.Shows (nextMessage (c.messages.map Received.message)) c.memory
      (c.memory.lost.length + (c.messages.map Received.overwritten).sum) := by
  obtain ⟨t, ht, hr⟩ := releaseMessage_spec h
  obtain ⟨o, ho⟩ := hldap
  have hderef : deref t .ldap = .ok o := deref_eq (hr.ldap.trans ho)
  have hself' : ∃ o, t.find .self = some o := hr.self ▸ hself
  rw [nextTurn, ht, ok_bind, hderef, ok_bind, ← hr.lost]
  cases hm : c.messages with
  | nil =>
      obtain ⟨hsound, hview, hpending⟩ :=
        no_entry hr.sound hself' ⟨o, hr.ldap.trans ho⟩ hr.ber hr.values []
      exact ⟨_, rfl, congrArg (Turn.answer none) hview, hsound, hr.loses,
        congrArg (t.lost.length + ·) hpending⟩
  | cons m messages =>
      obtain ⟨message, nulls⟩ := m
      have hnew := hr.sound.create (hr.sound.find_eq_none.mp hr.msg) .message
      have hloses := hr.loses.trans (.create hr.sound .msg .message)
      have hold : ∀ k, k ≠ .msg → (t.create .msg .message).find k = t.find k := fun k hk =>
        hr.sound.find_create_of_ne _ hk
      have hself'' : ∃ o, (t.create .msg .message).find .self = some o :=
        (hold .self (by decide)) ▸ hself'
      have hldap'' : ∃ o, (t.create .msg .message).find .ldap = some o :=
        ⟨o, (hold .ldap (by decide)).trans (hr.ldap.trans ho)⟩
      have hber := (hold .ber (by decide)).trans hr.ber
      have hvalues := (hold .values (by decide)).trans hr.values
      obtain ⟨hsound, hview, hpending⟩ := no_entry hnew hself'' hldap'' hber hvalues messages
      have htotal := congrArg (t.lost.length + ·) hpending
      cases message with
      | searchResult parses success =>
          refine ⟨_, rfl, congrArg (Turn.answer _) hview, hsound, hloses, htotal.trans ?_⟩
          simp [Received.overwritten]
      | other =>
          refine ⟨_, rfl, congrArg Turn.again hview, hsound, hloses, htotal.trans ?_⟩
          simp [Received.overwritten]
      | searchEntry attributes =>
          cases attributes with
          | none =>
              refine ⟨_, rfl, congrArg (Turn.answer none) hview, hsound, hloses, htotal.trans ?_⟩
              simp [Received.overwritten]
          | some attributes =>
              have hshows := entry_shows hnew hself'' hldap'' ⟨_, Handles.find_create ..⟩ hber
                hvalues attributes nulls messages
              exact ⟨_, rfl, hshows.view, hshows.sound, hloses.trans hshows.loses, hshows.total⟩

namespace Cursor.Sound

variable {c : Cursor}

/-- `bv_val` at the pointer is the first value of the position. -/
theorem current_eq (h : c.Sound) : current c = .ok c.view.value.head? := by
  cases hi : c.value with
  | none =>
      rw [current, hi]
      simp [Cursor.view, hi]
      rfl
  | some i =>
      obtain ⟨vs, hvs, hle⟩ := h.value i hi
      have hview : c.view.value = vs.drop i := by simp [Cursor.view, hvs, hi]
      rw [current, hi, hview, List.head?_drop]
      simp only [deref_eq hvs, ok_bind]
      rcases Nat.lt_or_eq_of_le hle with hlt | rfl
      · obtain ⟨o, ho⟩ := h.msg (h.entry (hvs ▸ Option.some_ne_none _))
        rw [if_pos hlt, deref_eq ho]
        rfl
      · rw [if_neg (Nat.lt_irrefl _), if_pos rfl, List.getElem?_eq_none (Nat.le_refl _)]
        rfl

/-- The pointer goes on to the next value. -/
theorem advance (h : c.Sound) {v : Str} {vs : List Str} (hv : c.view.value = v :: vs) :
    Cursor.Sound { c with value := c.value.map (· + 1) } ∧
      Cursor.view { c with value := c.value.map (· + 1) } = ⟨vs, c.view.ber, c.view.messages⟩ := by
  cases hi : c.value with
  | none => simp [Cursor.view, hi] at hv
  | some i =>
      obtain ⟨ws, hws, hle⟩ := h.value i hi
      have hdrop : ws.drop i = v :: vs := by rw [← hv]; simp [Cursor.view, hws, hi]
      have hlt : i < ws.length := by
        by_contra hge
        rw [List.drop_eq_nil_of_le (Nat.le_of_not_lt hge)] at hdrop
        cases hdrop
      have htail : ws.drop (i + 1) = vs := by
        rw [← List.tail_drop, hdrop, List.tail_cons]
      refine ⟨⟨h.memory, h.self, h.ldap, h.ber, h.msg, h.values, h.entry, fun k hk => ?_⟩, ?_⟩
      · obtain rfl := Option.some.inj hk
        exact ⟨ws, hws, hlt⟩
      · simp [Cursor.view, hws, htail]

end Cursor.Sound

/-- What an attribute leaves. -/
theorem storeValues_spec {t : Memory} (h : t.Sound) (hv : ∀ o, t.find .values = some o → o.IsValues)
    (vs : List Str) :
    (storeValues t vs).Sound ∧
      (∀ k, k ≠ .values → (storeValues t vs).find k = t.find k) ∧
      (storeValues t vs).find .values = (if vs = [] then none else some (.values vs)) ∧
      t.Loses Object.IsValues (storeValues t vs) ∧
      (storeValues t vs).lost.length = t.lost.length + (t.find .values).isSome.toNat := by
  have hforget := h.forget .values
  have hnone : (t.forget .values).handle .values = none :=
    hforget.find_eq_none.mp (Handles.find_forget ..)
  have hloses := Handles.Loses.forget h hv
  have hlost := Handles.length_lost_forget t Member.values
  rw [storeValues, h.isSome_find]
  by_cases hvs : vs = []
  · simp only [if_pos hvs]
    exact ⟨hforget, fun k hk => Handles.find_forget_of_ne t hk, Handles.find_forget .., hloses,
      hlost⟩
  · simp only [if_neg hvs]
    refine ⟨hforget.create hnone _, fun k hk => ?_, Handles.find_create ..,
      hloses.trans (.create hforget .values _), hlost⟩
    rw [hforget.find_create_of_ne _ hk, Handles.find_forget_of_ne t hk]

/-- Where an attribute brings the position. -/
theorem storeValues_shows {c : Cursor} (h : c.Sound) {b : Nat}
    (hb : c.memory.handle .ber = some b) {vs : List Str} {left : List AttributeCall}
    {nulls : Bool} (ho : c.memory.find .ber = some (.ber (.success vs :: left) nulls))
    {c' : Cursor} (hc' : c' = ⟨storeValues (c.memory.write b (.ber left nulls)) vs,
      if vs = [] then none else some 0, c.messages⟩) :
    c'.Sound ∧ c'.view = ⟨vs, some left, c.view.messages⟩ ∧
      c.memory.Loses Object.IsValues c'.memory ∧
      c'.memory.lost.length + c'.pending = c.memory.lost.length + c.pending := by
  obtain ⟨b', hb', hobj⟩ := Option.bind_eq_some_iff.mp ho
  obtain rfl := Option.some.inj (hb.symm.trans hb')
  have hwrite := h.memory.write hobj (.ber left nulls)
  have hkeep : ∀ k, k ≠ .ber → (c.memory.write b (.ber left nulls)).find k = c.memory.find k :=
    fun k hk => h.memory.find_write_of_ne hb _ hk
  obtain ⟨hsound, hrest, hvalues, hloses, hlost⟩ := storeValues_spec hwrite
    (fun o ho => h.values o ((hkeep .values (by decide)).symm.trans ho)) vs
  rw [hkeep .values (by decide)] at hlost
  have hber : c'.memory.find .ber = some (.ber left nulls) := by
    rw [hc', hrest _ (by decide), Handles.find_write hb]
  have hold : ∀ k, k ≠ .values → k ≠ .ber → c'.memory.find k = c.memory.find k := by
    intro k hk hk'
    rw [hc', hrest k hk, hkeep k hk']
  have hval : c'.memory.find .values = if vs = [] then none else some (.values vs) := by
    rw [hc', hvalues]
  have hpos : c'.value = if vs = [] then none else some 0 := by rw [hc']
  have hmessages : c'.messages = c.messages := by rw [hc']
  have hview : c'.view = ⟨vs, some left, c.view.messages⟩ := by
    rw [Cursor.view, hber, hval, hpos, hmessages]
    by_cases hvs : vs = []
    · simp [hvs, Cursor.view]
    · simp [hvs, Cursor.view]
  obtain ⟨m, hm⟩ := h.msg (ho ▸ Option.some_ne_none _)
  refine ⟨⟨hc' ▸ hsound, ?_, ?_, fun _ hf => ?_,
    fun _ => ⟨m, (hold .msg (by decide) (by decide)).trans hm⟩, fun _ hf => ?_,
    fun _ => hber ▸ Option.some_ne_none _, fun i hi => ?_⟩, hview,
    hc' ▸ (Handles.Loses.write h.memory hb _).trans hloses, ?_⟩
  · exact (hold .self (by decide) (by decide)) ▸ h.self
  · exact (hold .ldap (by decide) (by decide)) ▸ h.ldap
  · exact ⟨left, nulls, (Option.some.inj (hber.symm.trans hf)).symm⟩
  · rw [hval] at hf
    split at hf
    next => cases hf
    next => exact ⟨vs, (Option.some.inj hf).symm⟩
  · rw [hpos] at hi
    split at hi
    next => cases hi
    next hvs =>
        obtain rfl := Option.some.inj hi
        exact ⟨vs, hval.trans (if_neg hvs), Nat.zero_le _⟩
  · have hheld : (c'.memory.find .values).isSome = (vs != []) := by
      rw [hval]
      by_cases hvs : vs = [] <;> simp [hvs]
    have hsum : c'.memory.lost.length =
        c.memory.lost.length + (c.memory.find .values).isSome.toNat := by
      rw [hc']
      exact hlost
    have hbefore : c.pending = (c.memory.find .values).isSome.toNat +
        overwritten nulls (vs != []) left + (c.messages.map Received.overwritten).sum := by
      rw [Cursor.pending, ho]
      rfl
    have hafter : c'.pending =
        overwritten nulls (vs != []) left + (c.messages.map Received.overwritten).sum := by
      rw [Cursor.pending, hber, hheld, hmessages]
    rw [hbefore, hafter, hsum]
    omega

theorem attributeTurn_shows {c : Cursor} (h : c.Sound) (hv : c.view.value = []) :
    ∃ r, attributeTurn c = .ok r ∧
      r.Shows (turn c.view) c.memory (c.memory.lost.length + c.pending) := by
  have hturn : turn c.view = turn ⟨[], c.view.ber, c.view.messages⟩ := by
    rw [← hv]
  rw [hturn, Cursor.pending]
  cases hb : c.memory.handle .ber with
  | none =>
      have hber : c.memory.find .ber = none := h.memory.find_eq_none.mpr hb
      have hview : c.view.ber = none := by simp [Cursor.view, hber]
      rw [attributeTurn, hb, hview, hber, Nat.zero_add]
      exact nextTurn_shows h.memory h.self h.ldap
  | some b =>
      have hsome : c.memory.find .ber ≠ none := by
        rw [ne_eq, h.memory.find_eq_none, hb]
        exact Option.some_ne_none b
      obtain ⟨o, ho⟩ := Option.ne_none_iff_exists'.mp hsome
      obtain ⟨left, nulls, rfl⟩ := h.ber o ho
      obtain ⟨m, hm⟩ := h.msg hsome
      obtain ⟨l, hl⟩ := h.ldap
      have hview : c.view.ber = some left := by simp [Cursor.view, ho]
      rw [attributeTurn, hb, hview]
      simp only [deref_eq ho, deref_eq hm, deref_eq hl, ok_bind]
      cases left with
      | nil =>
          rw [ho]
          simp only [overwritten, Nat.zero_add]
          exact nextTurn_shows h.memory h.self h.ldap
      | cons call left =>
          cases call with
          | error =>
              rw [ho]
              simp only [overwritten, h.memory.isSome_find]
              cases nulls with
              | false =>
                  rw [Bool.false_and, Bool.toNat_false, Nat.zero_add]
                  exact nextTurn_shows h.memory h.self h.ldap
              | true =>
                  have hkeep : ∀ k, k ≠ .values → (c.memory.forget .values).find k =
                      c.memory.find k := fun k hk => Handles.find_forget_of_ne c.memory hk
                  obtain ⟨r, hr, hshows⟩ := nextTurn_shows
                    (c := { c with memory := c.memory.forget .values })
                    (h.memory.forget .values) ((hkeep .self (by decide)) ▸ h.self)
                    ((hkeep .ldap (by decide)) ▸ h.ldap)
                  refine ⟨r, hr, hshows.view, hshows.sound,
                    (Handles.Loses.forget h.memory h.values).trans hshows.loses,
                    hshows.total.trans ?_⟩
                  rw [Handles.length_lost_forget, Bool.true_and, Nat.add_assoc]
          | success vs =>
              obtain ⟨hsound, hview', hloses, htotal⟩ := storeValues_shows h hb ho rfl
              exact ⟨_, rfl, congrArg Turn.again hview', hsound, hloses, htotal⟩

/-- **A turn of the loop has no fault**, and it is the turn at the position. -/
theorem cursorTurn_shows {c : Cursor} (h : c.Sound) :
    ∃ r, cursorTurn c = .ok r ∧
      r.Shows (turn c.view) c.memory (c.memory.lost.length + c.pending) := by
  obtain ⟨o, ho⟩ := h.self
  rw [cursorTurn, deref_eq ho, ok_bind, h.current_eq, ok_bind]
  cases hv : c.view.value with
  | nil =>
      obtain ⟨r, hr, hshows⟩ := attributeTurn_shows h hv
      exact ⟨r, hr, hshows⟩
  | cons v vs =>
      obtain ⟨hsound, hview⟩ := h.advance hv
      have hloses := Handles.Loses.refl Object.IsValues c.memory
      simp only [List.head?_cons]
      cases hr : recipientOf v with
      | some result =>
          have hturn : turn c.view =
              .answer (some result) ⟨vs, c.view.ber, c.view.messages⟩ := by
            simp only [turn, hv, hr]
          rw [hturn]
          exact ⟨_, rfl, congrArg (Turn.answer _) hview, hsound, hloses, rfl⟩
      | none =>
          have hturn : turn c.view = .again ⟨vs, c.view.ber, c.view.messages⟩ := by
            simp only [turn, hv, hr]
          rw [hturn]
          exact ⟨_, rfl, congrArg Turn.again hview, hsound, hloses, rfl⟩

end Undervest.Ldap
