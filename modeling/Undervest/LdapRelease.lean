import Undervest.LdapMemory
import Undervest.Credentials
import Undervest.SearchFilter

/-!
# What the LDAP loader gives back

`openSource` allocates a handle, the description of the URL and the connection, and throws
at many places in between.  `closeSource` deletes the handle, which gives back what its
pointers point to.

A load has no fault where the URL has attributes and a filter, and it delivers what `Ldap`
says.  Without them `openSource` reads through a null pointer.  In the end nothing is left
but arrays of values that were overwritten, and each load of the domain leaves its own
(`gives_back`).
-/

namespace Undervest.Ldap

open Unordered Enumeration Refinement

/-! ## A load -/

/-- What `ldap_url_parse` gives, with null pointers where the library leaves them. -/
structure UrlDesc where
  attrs : Option (List Str)
  filter : Option Str

/-- A source, and what the calls of the library give during a load. -/
structure Search where
  uri : Str
  /-- `ldap_url_parse`, `none` when it reports an error. -/
  urlParse : Str → Option UrlDesc
  initializes : Bool
  binds : Bool
  searches : Bool
  messages : List Received

/-- An exception in `openSource`. -/
def throwOpen (t : Memory) : Except Misuse (Option Cursor × Memory) := do
  let t ← deleteHandle t
  pure (none, t)

/-- `openSource`.  It throws where there is no position. -/
def openCursor (s : Search) (t : Memory) : Except Misuse (Option Cursor × Memory) :=
  if s.uri.length = 0 then pure (none, t)
  else
    let t := t.create .self .handle
    match openSource s.uri with
    | none => throwOpen t
    | some (_, text) =>
        match s.urlParse text with
        | none => throwOpen t
        | some desc =>
            let t := t.create .uri .urlDesc
            match desc.attrs with
            | none => .error .null
            | some attrs =>
                if attrs = [] then throwOpen t
                else if s.initializes then
                  let t := t.create .ldap .connection
                  if s.binds then
                    match locfilter desc.filter attrs with
                    | none => .error .null
                    | some _ =>
                        if s.searches then pure (some ⟨t, none, s.messages⟩, t)
                        else throwOpen t
                  else throwOpen t
                else throwOpen t

/-- An answer that ends the loop of `Source::load_data`. -/
def ending (a : Option Str) : Bool := a.getD [] == []

/-- The calls of that loop, with a bound on their number. -/
def readAll : Nat → Cursor → Except Misuse (List (Option Str) × Cursor)
  | 0, _ => .error .turns
  | n + 1, c => do
      let (a, c) ← nextRecipient c
      if ending a then pure ([a], c)
      else
        let (answers, c) ← readAll n c
        pure (a :: answers, c)

/-- What `Source::load_data` has the loader do. -/
def load (s : Search) (t : Memory) : Except Misuse (Delivery × Memory) := do
  match ← openCursor s t with
  | (none, t) => pure (⟨false, [], true⟩, t)
  | (some c, _) =>
      let (answers, c) ← readAll (c.view.work + 1) c
      let t ← deleteHandle c.memory
      pure (⟨true, answers, true⟩, t)

/-- The loads of all refreshes, one after the other. -/
def loads : List Search → Memory → Except Misuse (List Delivery × Memory)
  | [], t => pure ([], t)
  | s :: ss, t => do
      let (d, t) ← load s t
      let (ds, t) ← loads ss t
      pure (d :: ds, t)

/-! ## A call -/

/-- What some calls leave: a position, what they have lost, and so many arrays lost and
still to lose. -/
structure Leaves (c c' : Cursor) : Prop where
  sound : c'.Sound
  loses : c.memory.Loses Object.IsValues c'.memory
  total : c'.memory.lost.length + c'.pending = c.memory.lost.length + c.pending

theorem Leaves.trans {c c' c'' : Cursor} (h : Leaves c c') (h' : Leaves c' c'') : Leaves c c'' :=
  ⟨h'.sound, h.loses.trans h'.loses, h'.total.trans h.total⟩

theorem cursorLoop_shows {turns : Nat} {c : Cursor} (h : c.Sound) (hw : c.view.work < turns) :
    ∃ a c', cursorLoop turns c = .ok (a, c') ∧ loop turns c.view = (a, c'.view) ∧ Leaves c c' := by
  induction turns generalizing c with
  | zero => exact absurd hw (Nat.not_lt_zero _)
  | succ turns ih =>
      obtain ⟨r, hr, hshows⟩ := cursorTurn_shows h
      have hleaves : Leaves c r.cursor := ⟨hshows.sound, hshows.loses, hshows.total⟩
      rw [cursorLoop, hr, ok_bind, loop]
      cases r with
      | again c₁ =>
          have hturn : turn c.view = .again c₁.view := hshows.view.symm
          have hlt := turn_work hturn
          obtain ⟨a, c', hloop, hview, hrest⟩ := ih hleaves.sound (by
            change c₁.view.work < turns
            omega)
          exact ⟨a, c', hloop, by rw [hturn]; exact hview, hleaves.trans hrest⟩
      | answer a c₁ =>
          have hturn : turn c.view = .answer a c₁.view := hshows.view.symm
          exact ⟨a, c₁, rfl, by rw [hturn], hleaves⟩

/-- **A call has no fault**, and it answers what the call at the position does. -/
theorem nextRecipient_shows {c : Cursor} (h : c.Sound) :
    ∃ a c', nextRecipient c = .ok (a, c') ∧ getRecipient c.view = (a, c'.view) ∧ Leaves c c' :=
  cursorLoop_shows h (Nat.lt_succ_self _)

/-- A turn with an answer that does not end a load has read a value. -/
theorem turn_answer_work {h h' : Handle} {a : Option Str} (ht : turn h = .answer a h')
    (ha : ending a = false) : h'.work < h.work := by
  obtain ⟨value, ber, messages⟩ := h
  have hnext : nextMessage messages ≠ .answer a h' := by
    intro hm
    cases messages with
    | nil =>
        cases hm
        cases ha
    | cons m messages =>
        cases m with
        | searchEntry attributes =>
            cases attributes with
            | none =>
                cases hm
                cases ha
            | some attributes => cases hm
        | searchResult parses success =>
            cases hm
            split at ha
            next => cases ha
            next => cases ha
        | other => cases hm
  cases value with
  | cons v value =>
      cases hv : recipientOf v with
      | none => simp [turn, hv] at ht
      | some result =>
          simp only [turn, hv] at ht
          cases ht
          simp [Handle.work]
  | nil =>
      cases ber with
      | none => exact absurd ht hnext
      | some attributes =>
          cases attributes with
          | nil => exact absurd ht hnext
          | cons call attributes =>
              cases call with
              | success values => cases ht
              | error => exact absurd ht hnext

theorem loop_answer_work {turns : Nat} {h : Handle} (hw : h.work < turns)
    (ha : ending (loop turns h).1 = false) : (loop turns h).2.work < h.work := by
  induction turns generalizing h with
  | zero => exact absurd hw (Nat.not_lt_zero _)
  | succ turns ih =>
      rw [loop] at ha ⊢
      cases ht : turn h with
      | again h' =>
          rw [ht] at ha
          have hlt := turn_work ht
          exact Nat.lt_trans (ih (by omega) ha) hlt
      | answer a h' =>
          rw [ht] at ha
          exact turn_answer_work ht ha

/-! ## The calls of a load -/

theorem readAll_shows {n : Nat} {c : Cursor} (h : c.Sound) (hw : c.view.work < n) :
    ∃ answers c', readAll n c = .ok (answers, c') ∧
      (∃ before a after, answers = before ++ [a] ∧ ending a = true ∧
        calls getRecipient n c.view = before ++ a :: after) ∧
      c'.view = stateAfter ending getRecipient n c.view ∧ Leaves c c' := by
  induction n generalizing c with
  | zero => exact absurd hw (Nat.not_lt_zero _)
  | succ n ih =>
      obtain ⟨a, c₁, hnext, hget, hleaves⟩ := nextRecipient_shows h
      rw [readAll, hnext, ok_bind, calls, stateAfter, hget]
      dsimp only
      cases ha : ending a with
      | true => exact ⟨[a], c₁, rfl, ⟨[], a, _, rfl, ha, rfl⟩, rfl, hleaves⟩
      | false =>
          have hlt : c₁.view.work < c.view.work := by
            have hloop := loop_answer_work (h := c.view) (Nat.lt_succ_self _)
            rw [← getRecipient, hget] at hloop
            exact hloop ha
          obtain ⟨answers, c', hread, ⟨before, b, after, rfl, hb, hcalls⟩, hview, hrest⟩ :=
            ih hleaves.sound (by omega)
          rw [hread]
          exact ⟨_, c', rfl, ⟨a :: before, b, after, rfl, hb, congrArg (a :: ·) hcalls⟩, hview,
            hleaves.trans hrest⟩

/-- `Source::load_data` does not look behind the call that ends its loop. -/
theorem loadLoop_ending (domname : Str) {a : Option Str} (ha : ending a = true)
    (before after : List (Option Str)) (r : UnorderedSet Str) :
    Source.loadLoop domname (before ++ a :: after) r =
      Source.loadLoop domname (before ++ [a]) r := by
  induction before generalizing r with
  | nil =>
      cases a with
      | none => rfl
      | some s =>
          have hs : s.length = 0 := List.length_eq_zero_iff.mpr (beq_iff_eq.mp ha)
          simp only [List.nil_append, Source.loadLoop, if_pos hs]
  | cons b before ih =>
      cases b with
      | none => rfl
      | some s =>
          simp only [List.cons_append, Source.loadLoop]
          split
          next => rfl
          next =>
            split
            next => exact ih r
            next => exact ih _

/-! ## Loads -/

namespace Search

/-- The description of the URL, if it comes to that. -/
def desc (s : Search) : Option UrlDesc := (openSource s.uri).bind fun r => s.urlParse r.2

/-- `openSource` comes to a null pointer. -/
def readsNull (s : Search) : Bool :=
  match s.desc with
  | some ⟨none, _⟩ => true
  | some ⟨some (_ :: _), none⟩ => s.initializes && s.binds
  | _ => false

/-- `openSource` starts a search. -/
def opens (s : Search) : Bool :=
  match s.desc with
  | some ⟨some (_ :: _), some _⟩ => s.initializes && s.binds && s.searches
  | _ => false

/-- What the loader does, as `Ldap` has it. -/
def delivery (s : Search) : Delivery :=
  if s.opens then Ldap.delivery (s.messages.map Received.message) else ⟨false, [], true⟩

/-- How many arrays are lost when the search is read to its end. -/
def overwritten (s : Search) : Nat :=
  if s.opens then (s.messages.map Received.overwritten).sum else 0

/-- The load does not end before the last message. -/
def Exhausted (s : Search) : Prop :=
  s.opens = true → ∃ value, stateAfter ending getRecipient
    ((handle (s.messages.map Received.message)).work + 1)
    (handle (s.messages.map Received.message)) = ⟨value, none, []⟩

end Search

theorem throwOpen_spec {t : Memory} (h : t.Sound) {o : Object} (hself : t.find .self = some o) :
    ∃ t', throwOpen t = .ok (none, t') ∧ t'.Sound ∧ Idle t' ∧ t'.lost = t.lost ∧
      t.Loses Object.IsValues t' := by
  obtain ⟨t', ht', hrest⟩ := deleteHandle_spec h hself
  exact ⟨t', by rw [throwOpen, ht']; rfl, hrest⟩

/-- The handle, and what else `openSource` has taken. -/
structure Acquired (t t' : Memory) (taken : List Member) : Prop where
  sound : t'.Sound
  self : t'.find .self = some .handle
  free : ∀ k, k ≠ .self → k ∉ taken → t'.find k = none
  lost : t'.lost = t.lost
  loses : t.Loses Object.IsValues t'

namespace Acquired

variable {t t' : Memory} {taken : List Member}

theorem start (h : t.Sound) (hidle : Idle t) : Acquired t (t.create .self .handle) [] where
  sound := h.create (hidle .self) _
  self := Handles.find_create ..
  free k hk _ := (h.find_create_of_ne _ hk).trans (h.find_eq_none.mpr (hidle k))
  lost := rfl
  loses := .create h .self _

theorem create (h : Acquired t t' taken) {k : Member} (hself : k ≠ .self) (hk : k ∉ taken)
    (o : Object) : Acquired t (t'.create k o) (k :: taken) where
  sound := h.sound.create (h.sound.find_eq_none.mp (h.free k hself hk)) o
  self := (h.sound.find_create_of_ne o hself.symm).trans h.self
  free k' hk' hnew := by
    obtain ⟨hne, hold⟩ := not_or.mp (mt List.mem_cons.mpr hnew)
    exact (h.sound.find_create_of_ne o hne).trans (h.free k' hk' hold)
  lost := h.lost
  loses := h.loses.trans (.create h.sound k o)

/-- An exception gives all of it back. -/
theorem throw (h : Acquired t t' taken) : ∃ t₁, throwOpen t' = .ok (none, t₁) ∧ t₁.Sound ∧
    Idle t₁ ∧ t₁.lost = t.lost ∧ t.Loses Object.IsValues t₁ := by
  obtain ⟨t₁, ht₁, hsound, hidle, hlost, hloses⟩ := throwOpen_spec h.sound h.self
  exact ⟨t₁, ht₁, hsound, hidle, hlost.trans h.lost, h.loses.trans hloses⟩

/-- A search begins, when nothing of an entry has been taken. -/
theorem no_entry (h : Acquired t t' taken) (hldap : ∃ o, t'.find .ldap = some o)
    (hber : .ber ∉ taken) (hvalues : .values ∉ taken) (messages : List Received) :
    (⟨t', none, messages⟩ : Cursor).Sound ∧
      (⟨t', none, messages⟩ : Cursor).view = handle (messages.map Received.message) := by
  obtain ⟨hsound, hview, -⟩ := Ldap.no_entry h.sound ⟨_, h.self⟩ hldap
    (h.free .ber (by decide) hber) (h.free .values (by decide) hvalues) messages
  exact ⟨hsound, hview⟩

end Acquired

/-- `openSource` starts a search, throws and gives everything back, or comes to a null
pointer. -/
theorem openCursor_spec {t : Memory} (h : t.Sound) (hidle : Idle t) (s : Search) :
    (s.readsNull = true ∧ openCursor s t = .error .null) ∨
    (s.readsNull = false ∧ s.opens = true ∧ ∃ c, openCursor s t = .ok (some c, c.memory) ∧
      c.Sound ∧ c.view = handle (s.messages.map Received.message) ∧ c.messages = s.messages ∧
      c.memory.lost = t.lost ∧ t.Loses Object.IsValues c.memory ∧ c.memory.find .ber = none) ∨
    (s.readsNull = false ∧ s.opens = false ∧ ∃ t', openCursor s t = .ok (none, t') ∧
      t'.Sound ∧ Idle t' ∧ t'.lost = t.lost ∧ t.Loses Object.IsValues t') := by
  rw [openCursor, Search.readsNull, Search.opens, Search.desc]
  by_cases hlen : s.uri.length = 0
  · have hnone : openSource s.uri = none := if_pos hlen
    rw [if_pos hlen, hnone]
    exact Or.inr (Or.inr ⟨rfl, rfl, t, rfl, h, hidle, rfl, .refl _ t⟩)
  rw [if_neg hlen]
  have hhandle := Acquired.start h hidle
  cases hopen : openSource s.uri with
  | none => exact Or.inr (Or.inr ⟨rfl, rfl, hhandle.throw⟩)
  | some r =>
      obtain ⟨credentials, text⟩ := r
      simp only [Option.bind_some]
      cases hparse : s.urlParse text with
      | none => exact Or.inr (Or.inr ⟨rfl, rfl, hhandle.throw⟩)
      | some desc =>
          have huri := hhandle.create (k := .uri) (by decide) (by decide) .urlDesc
          obtain ⟨attrs, filter⟩ := desc
          cases attrs with
          | none => exact Or.inl ⟨rfl, rfl⟩
          | some attrs =>
              cases attrs with
              | nil => exact Or.inr (Or.inr ⟨rfl, rfl, huri.throw⟩)
              | cons a attrs =>
                  simp only [if_neg (List.cons_ne_nil a attrs)]
                  cases hinit : s.initializes with
                  | false =>
                      exact Or.inr (Or.inr ⟨by cases filter <;> rfl, by cases filter <;> rfl,
                        huri.throw⟩)
                  | true =>
                      have hldap := huri.create (k := .ldap) (by decide) (by decide) .connection
                      cases hbind : s.binds with
                      | false =>
                          exact Or.inr (Or.inr ⟨by cases filter <;> rfl, by cases filter <;> rfl,
                            hldap.throw⟩)
                      | true =>
                          cases filter with
                          | none => exact Or.inl ⟨rfl, rfl⟩
                          | some filter =>
                              simp only [locfilter_eq]
                              cases hsearch : s.searches with
                              | false => exact Or.inr (Or.inr ⟨trivial, rfl, hldap.throw⟩)
                              | true =>
                                  obtain ⟨hsound, hview⟩ := hldap.no_entry
                                    ⟨_, Handles.find_create ..⟩ (by decide) (by decide) s.messages
                                  exact Or.inr (Or.inl ⟨trivial, rfl, _, rfl, hsound, hview, rfl,
                                    hldap.lost, hldap.loses,
                                    hldap.free .ber (by decide) (by decide)⟩)

/-- What a load gives back. -/
theorem load_spec {t : Memory} (h : t.Sound) (hidle : Idle t) {s : Search}
    (hs : s.readsNull = false) :
    ∃ d t', load s t = .ok (d, t') ∧ t'.Sound ∧ Idle t' ∧
      (∀ domname r, Source.loadData domname d r = Source.loadData domname s.delivery r) ∧
      t.Loses Object.IsValues t' ∧ t'.lost.length ≤ t.lost.length + s.overwritten ∧
      (s.Exhausted → t'.lost.length = t.lost.length + s.overwritten) := by
  rcases openCursor_spec h hidle s with ⟨hnull, -⟩ |
    ⟨-, hopens, c, hopen, hc, hview, hmessages, hlost, hloses, hber⟩ |
    ⟨-, hopens, t', hopen, hsound, hidle', hlost, hloses⟩
  · rw [hs] at hnull
    cases hnull
  · obtain ⟨answers, c', hread, ⟨before, a, after, rfl, ha, hcalls⟩, hview', hleaves⟩ :=
      readAll_shows hc (Nat.lt_succ_self _)
    obtain ⟨o, ho⟩ := hleaves.sound.self
    obtain ⟨t', hdelete, hsound, hidle', hlost', hloses'⟩ :=
      deleteHandle_spec hleaves.sound.memory ho
    have hpending : c.pending = s.overwritten := by
      rw [Cursor.pending, hber, hmessages, Search.overwritten, if_pos hopens]
      exact Nat.zero_add _
    have htotal := hleaves.total
    rw [hlost, hpending] at htotal
    refine ⟨⟨true, before ++ [a], true⟩, t', ?_, hsound, hidle', fun domname r => ?_,
      (hloses.trans hleaves.loses).trans hloses', ?_, fun hexhausted => ?_⟩
    · rw [load, hopen]
      simp only [ok_bind, hread, hdelete]
      rfl
    · rw [hview] at hcalls
      have hdelivery : s.delivery = ⟨true, before ++ a :: after, true⟩ := by
        rw [Search.delivery, if_pos hopens, Ldap.delivery, hcalls]
      rw [hdelivery, Source.loadData, Source.loadData]
      simp only [loadLoop_ending domname ha]
    · rw [hlost']
      omega
    · obtain ⟨value, hend⟩ := hexhausted hopens
      rw [hview, hend] at hview'
      have hber' : c'.memory.find .ber = none := by
        have hnone : c'.view.ber = none := congrArg Handle.ber hview'
        by_contra hsome
        obtain ⟨o', ho'⟩ := Option.ne_none_iff_exists'.mp hsome
        obtain ⟨left, nulls, rfl⟩ := hleaves.sound.ber o' ho'
        simp [Cursor.view, ho'] at hnone
      have hzero : c'.pending = 0 := by
        have hmessages' : c'.messages = [] :=
          List.map_eq_nil_iff.mp (congrArg Handle.messages hview')
        rw [Cursor.pending, hber', hmessages']
        rfl
      rw [hlost']
      omega
  · refine ⟨⟨false, [], true⟩, t', ?_, hsound, hidle', fun domname r => ?_, hloses, ?_,
      fun _ => ?_⟩
    · rw [load, hopen]
      rfl
    · rw [Search.delivery, hopens]
      rfl
    · rw [hlost]
      exact Nat.le_add_right _ _
    · rw [hlost, Search.overwritten, hopens]
      rfl

theorem load_null {t : Memory} (h : t.Sound) (hidle : Idle t) {s : Search}
    (hs : s.readsNull = true) : load s t = .error .null := by
  rcases openCursor_spec h hidle s with ⟨-, hopen⟩ | ⟨hnull, -⟩ | ⟨hnull, -⟩
  · rw [load, hopen]
    rfl
  · rw [hs] at hnull
    cases hnull
  · rw [hs] at hnull
    cases hnull

/-- **The loader gives back what it takes.**  Take any loads, one after the other, whatever
the calls of the library give.  One of them reads through a null pointer if a URL has no
attributes or no filter.  Else nothing is read or freed after it was freed, the loads are
those of `Ldap`, and in the end only arrays of values are left that were overwritten.  These
are as many as there are, if every search is read to its end. -/
theorem gives_back {t : Memory} (h : t.Sound) (hidle : ∀ k, t.handle k = none)
    (ss : List Search) :
    ((∃ s ∈ ss, s.readsNull = true) → loads ss t = .error .null) ∧
    ((∀ s ∈ ss, s.readsNull = false) → ∃ ds t', loads ss t = .ok (ds, t') ∧ t'.Sound ∧
      (∀ k, t'.handle k = none) ∧
      List.Forall₂ (fun s d => ∀ domname r, Source.loadData domname d r =
        Source.loadData domname s.delivery r) ss ds ∧
      (∀ a o, t'.object a = some o → a ∈ t.lost ∨ ∃ vs, o = .values vs) ∧
      t'.lost.length ≤ t.lost.length + (ss.map Search.overwritten).sum ∧
      ((∀ s ∈ ss, s.Exhausted) →
        t'.lost.length = t.lost.length + (ss.map Search.overwritten).sum)) := by
  have hloads : ((∃ s ∈ ss, s.readsNull = true) → loads ss t = .error .null) ∧
      ((∀ s ∈ ss, s.readsNull = false) → ∃ ds t', loads ss t = .ok (ds, t') ∧ t'.Sound ∧
        Idle t' ∧ List.Forall₂ (fun s d => ∀ domname r, Source.loadData domname d r =
          Source.loadData domname s.delivery r) ss ds ∧ t.Loses Object.IsValues t' ∧
        t'.lost.length ≤ t.lost.length + (ss.map Search.overwritten).sum ∧
        ((∀ s ∈ ss, s.Exhausted) →
          t'.lost.length = t.lost.length + (ss.map Search.overwritten).sum)) := by
    induction ss generalizing t with
    | nil =>
        refine ⟨?_, fun _ => ⟨[], t, rfl, h, hidle, .nil, .refl _ t, Nat.le_refl _, fun _ => rfl⟩⟩
        rintro ⟨s, hs, -⟩
        cases hs
    | cons s ss ih =>
        cases hs : s.readsNull with
        | true =>
            refine ⟨fun _ => ?_, fun hall => ?_⟩
            · rw [loads, load_null h hidle hs]
              rfl
            · rw [hall s (List.mem_cons_self ..)] at hs
              cases hs
        | false =>
            obtain ⟨d, t₁, hload, hsound, hidle', hd, hloses, hle, heq⟩ := load_spec h hidle hs
            obtain ⟨hnull, hok⟩ := ih hsound hidle'
            rw [loads, hload, ok_bind]
            dsimp only
            refine ⟨?_, fun hall => ?_⟩
            · rintro ⟨s', hs', hn⟩
              cases List.mem_cons.mp hs' with
              | inl he =>
                  rw [he, hs] at hn
                  cases hn
              | inr hs' =>
                  rw [hnull ⟨s', hs', hn⟩]
                  rfl
            · obtain ⟨ds, t', hloads, hsound', hidle'', hds, hloses', hle', heq'⟩ :=
                hok fun s' hs' => hall s' (List.mem_cons_of_mem _ hs')
              rw [hloads]
              refine ⟨d :: ds, t', rfl, hsound', hidle'', .cons hd hds, hloses.trans hloses', ?_,
                fun hex => ?_⟩
              · rw [List.map_cons, List.sum_cons]
                omega
              · have h₁ := heq (hex s (List.mem_cons_self ..))
                have h₂ := heq' fun s' hs' => hex s' (List.mem_cons_of_mem _ hs')
                rw [List.map_cons, List.sum_cons]
                omega
  refine ⟨hloads.1, fun hall => ?_⟩
  obtain ⟨ds, t', hok, hsound, hidle', hds, hloses, hcount⟩ := hloads.2 hall
  refine ⟨ds, t', hok, hsound, hidle', hds, fun a o ho => ?_, hcount⟩
  -- no key holds anything, so what is there is lost
  have hlost : a ∈ t'.lost := by
    rcases hsound.owned a o ho with hlost | ⟨k, hk⟩
    · exact hlost
    · rw [hidle' k] at hk
      cases hk
  refine (hloses.new a hlost).imp_right fun ⟨o', ho', hvalues⟩ => ?_
  obtain rfl := Option.some.inj (ho.symm.trans ho')
  exact hvalues

/-- A search for two attributes, with one entry that has both. -/
def twoAttributes : Search where
  uri := str "ldap://h/d?mail,alias"
  urlParse _ := some ⟨some [str "mail", str "alias"], some []⟩
  initializes := true
  binds := true
  searches := true
  messages := [⟨.searchEntry (some [.success [str "a"], .success [str "b"]]), false⟩,
    ⟨.searchResult true true, false⟩]

/-- An array is lost in each of two refreshes. -/
theorem gives_back_sample : ∃ ds t',
    loads [twoAttributes, twoAttributes] Handles.empty = .ok (ds, t') ∧
      (∀ k, t'.handle k = none) ∧ t'.lost.length = 2 := by
  have hall : ∀ s ∈ [twoAttributes, twoAttributes], s.readsNull = false ∧ s.Exhausted := by
    have hone : twoAttributes.readsNull = false ∧ twoAttributes.Exhausted :=
      ⟨by decide +kernel, fun _ => ⟨[], by decide +kernel⟩⟩
    simpa using hone
  obtain ⟨ds, t', hloads, -, hidle, -, -, -, hlost⟩ :=
    (gives_back Handles.sound_empty (fun _ => rfl) [twoAttributes, twoAttributes]).2
      fun s hs => (hall s hs).1
  refine ⟨ds, t', hloads, hidle, (hlost fun s hs => (hall s hs).2).trans ?_⟩
  decide +kernel

end Undervest.Ldap
