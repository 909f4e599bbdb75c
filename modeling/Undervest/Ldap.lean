import Undervest.Source
import Undervest.Lib.Enumeration

/-!
# The LDAP loader

A search delivers messages one by one: entries, other messages, and a result
message.  What the calls of the LDAP library give is an input of the model.  An
attribute call gives the values of one attribute or reports an error, and when
the messages are used up `ldap_result` reports one.

`getRecipient` goes on where the call before stopped.  Its position is a
`Handle`: the values, the attribute calls and the messages that are left.  A
turn of its loop answers, or it passes over something.

`Handle.items` is the same position as one list, in the order the library
delivers it, and a call takes the items up to the first one that has an answer
(`scan_items`).  Two items that should end the enumeration do it wrongly.  An
empty value is answered, and the caller takes it for the end.  A failing
attribute call is passed over.  Without the two, and with the second one only
where an error follows, every value is visited (`enumerates_iff`).
-/

namespace Undervest

open Unordered Enumeration

namespace Ldap

/-! ## Messages -/

/-- What a call of `ldap_get_attribute_ber` gives. -/
inductive AttributeCall where
  | success (values : List Str)
  | error
deriving DecidableEq, Repr

/-- What a call of `ldap_result` gives, with what the calls on the message give. -/
inductive Message where
  /-- `LDAP_RES_SEARCH_ENTRY`, and `none` when `ldap_get_dn_ber` reports an error. -/
  | searchEntry (attributes : Option (List AttributeCall))
  /-- `LDAP_RES_SEARCH_RESULT`.  `parses` is the result of `ldap_parse_result` and
  `success` the code in it. -/
  | searchResult (parses success : Bool)
  | other
deriving DecidableEq, Repr

/-- `ldap_handle`. -/
structure Handle where
  /-- The values from `value` on. -/
  value : List Str
  /-- What the next calls on `ber` give, `none` for a null pointer. -/
  ber : Option (List AttributeCall)
  /-- The messages to come. -/
  messages : List Message
deriving DecidableEq, Repr

/-! ## The loader -/

def mailchars : Str :=
  str "abcdefghijklmnopqrstuvwxyzABCDEFGHIJKLMNOPQRSTUVWXYZ0123456789-+_.\x7b\x7d@"

/-- A value without its `smtp:` prefix. -/
def stripSmtp (value : Str) : Str :=
  if value.length > 5 ∧ strtolower ((cStr value).take 5) = str "smtp:" then value.drop 5
  else value

/-- The string that is returned for a value, unless the value is passed over. -/
def recipientOf (value : Str) : Option Str :=
  let result := stripSmtp value
  if result.all mailchars.contains then some result else none

/-- What a turn of the loop does. -/
inductive Turn where
  | again (h : Handle)
  /-- The function returns a string, or it throws. -/
  | answer (a : Option Str) (h : Handle)

/-- The rest of a turn, behind `release_message`. -/
def nextMessage : List Message → Turn
  | [] => .answer none ⟨[], none, []⟩
  | .searchResult parses success :: messages =>
      .answer (if parses && success then some [] else none) ⟨[], none, messages⟩
  | .searchEntry none :: messages => .answer none ⟨[], none, messages⟩
  | .searchEntry (some attributes) :: messages => .again ⟨[], some attributes, messages⟩
  | .other :: messages => .again ⟨[], none, messages⟩

/-- One turn of the loop. -/
def turn (h : Handle) : Turn :=
  match h.value with
  | v :: value =>
      match recipientOf v with
      | some result => .answer (some result) { h with value }
      | none => .again { h with value }
  | [] =>
      match h.ber with
      | some (.success values :: ber) => .again { h with value := values, ber := some ber }
      -- no attribute is left, or the call reports an error
      | _ => nextMessage h.messages

/-- The loop, with a bound on its turns. -/
def loop : Nat → Handle → Option Str × Handle
  | 0, h => (none, h)
  | turns + 1, h =>
      match turn h with
      | .again h => loop turns h
      | .answer a h => (a, h)

/-- Bounds on the turns for some attribute calls, for some messages and for a
handle. -/
def attributesWork : List AttributeCall → Nat
  | [] => 0
  | .success values :: attributes => values.length + 1 + attributesWork attributes
  | .error :: attributes => 1 + attributesWork attributes

def messagesWork : List Message → Nat
  | [] => 0
  | .searchEntry attributes :: messages =>
      attributesWork (attributes.getD []) + 1 + messagesWork messages
  | _ :: messages => 1 + messagesWork messages

def Handle.work (h : Handle) : Nat :=
  h.value.length + attributesWork (h.ber.getD []) + messagesWork h.messages

/-- `getRecipient`. -/
def getRecipient (h : Handle) : Option Str × Handle := loop (h.work + 1) h

/-- What `openSource` returns for a search with these messages. -/
def handle (messages : List Message) : Handle := ⟨[], none, messages⟩

/-- What the loader does during a load. -/
def delivery (messages : List Message) : Delivery :=
  ⟨true, calls getRecipient ((handle messages).work + 1) (handle messages), true⟩

/-! ## What the library delivers -/

/-- What a call of the library tells the loader. -/
inductive Item where
  | value (v : Str)
  | attributeError
  | dnError
  | result (success : Bool)
deriving DecidableEq, Repr

/-- A call that reports an error is the last one on its entry. -/
def attributeItems : List AttributeCall → List Item
  | [] => []
  | .success values :: attributes => values.map .value ++ attributeItems attributes
  | .error :: _ => [.attributeError]

def Message.items : Message → List Item
  | .searchEntry none => [.dnError]
  | .searchEntry (some attributes) => attributeItems attributes
  | .searchResult parses success => [.result (parses && success)]
  | .other => []

def Handle.items (h : Handle) : List Item :=
  h.value.map .value ++ (attributeItems (h.ber.getD []) ++ h.messages.flatMap Message.items)

/-- The answer to an item, `none` when it is passed over. -/
def Item.answer : Item → Option (Option Str)
  | .value v => (recipientOf v).map some
  | .attributeError => none
  | .dnError => some none
  | .result success => some (if success then some [] else none)

/-- What a turn does to the items that are left. -/
def Turn.Follows (items : List Item) : Turn → Prop
  | .again h => scan Item.answer none items = scan Item.answer none h.items
  | .answer a h => scan Item.answer none items = (a, h.items)

theorem nextMessage_follows (messages : List Message) :
    (nextMessage messages).Follows (messages.flatMap Message.items) := by
  cases messages with
  | nil => rfl
  | cons m messages =>
      cases m with
      | searchEntry attributes =>
          cases attributes with
          | none => rfl
          | some attributes => rfl
      | searchResult parses success => rfl
      | other => rfl

theorem turn_follows (h : Handle) : (turn h).Follows h.items := by
  obtain ⟨value, ber, messages⟩ := h
  cases value with
  | cons v value =>
      change Turn.Follows (.value v :: Handle.items ⟨value, ber, messages⟩) _
      rw [turn]
      cases hv : recipientOf v with
      | none => simp [Turn.Follows, scan, Item.answer, hv]
      | some result => simp [Turn.Follows, scan, Item.answer, hv]
  | nil =>
      have hnext := nextMessage_follows messages
      cases ber with
      | none => exact hnext
      | some attributes =>
          cases attributes with
          | nil => exact hnext
          | cons call attributes =>
              cases call with
              | success values => simp [turn, Turn.Follows, Handle.items, attributeItems]
              | error => exact hnext

/-- A turn that does not answer brings the end nearer. -/
theorem turn_work {h h' : Handle} (ht : turn h = .again h') : h'.work < h.work := by
  obtain ⟨value, ber, messages⟩ := h
  have hnext : nextMessage messages = .again h' → h'.work < messagesWork messages := by
    intro hm
    cases messages with
    | nil => cases hm
    | cons m messages =>
        cases m with
        | searchEntry attributes =>
            cases attributes with
            | none => cases hm
            | some attributes =>
                cases hm
                simp [Handle.work, messagesWork]
        | searchResult parses success => cases hm
        | other =>
            cases hm
            simp [Handle.work, messagesWork, attributesWork]
  cases value with
  | cons v value =>
      cases hv : recipientOf v with
      | none =>
          simp only [turn, hv] at ht
          cases ht
          simp [Handle.work]
      | some result => simp [turn, hv] at ht
  | nil =>
      have hle : messagesWork messages ≤ Handle.work ⟨[], ber, messages⟩ :=
        Nat.le_add_left ..
      cases ber with
      | none => exact Nat.lt_of_lt_of_le (hnext ht) hle
      | some attributes =>
          cases attributes with
          | nil => exact Nat.lt_of_lt_of_le (hnext ht) hle
          | cons call attributes =>
              cases call with
              | success values =>
                  cases ht
                  simp [Handle.work, attributesWork]
              | error => exact Nat.lt_of_lt_of_le (hnext ht) hle

theorem loop_items {turns : Nat} {h : Handle} (hw : h.work < turns) :
    scan Item.answer none h.items = ((loop turns h).1, (loop turns h).2.items) := by
  induction turns generalizing h with
  | zero => exact absurd hw (Nat.not_lt_zero _)
  | succ turns ih =>
      have hf := turn_follows h
      rw [loop]
      cases ht : turn h with
      | again h' =>
          rw [ht] at hf
          have hlt := turn_work ht
          exact Eq.trans hf (ih (by omega))
      | answer a h' =>
          rw [ht] at hf
          exact hf

/-- A call takes the items up to the first one that has an answer. -/
theorem scan_items (h : Handle) :
    scan Item.answer none h.items = ((getRecipient h).1, (getRecipient h).2.items) :=
  loop_items (Nat.lt_succ_self _)

/-! ## The calls of a load -/

/-- The items before the one that ends the enumeration. -/
def Item.ends : Item → Bool
  | .dnError => true
  | .result _ => true
  | _ => false

/-- The items a load goes over, as long as no value is empty. -/
def walked (items : List Item) : List Item := items.takeWhile fun i => !i.ends

/-- The walk ends at an error. -/
def EndsInError (items : List Item) : Prop := items.find? Item.ends ≠ some (.result true)

@[simp] theorem walked_value (v : Str) (items : List Item) :
    walked (.value v :: items) = .value v :: walked items := rfl

@[simp] theorem walked_attributeError (items : List Item) :
    walked (.attributeError :: items) = .attributeError :: walked items := rfl

@[simp] theorem endsInError_value (v : Str) (items : List Item) :
    EndsInError (.value v :: items) ↔ EndsInError items := Iff.rfl

@[simp] theorem endsInError_attributeError (items : List Item) :
    EndsInError (.attributeError :: items) ↔ EndsInError items := Iff.rfl

theorem recipientOf_eq_some_nil {v : Str} : recipientOf v = some [] ↔ v = [] := by
  constructor
  · intro h
    have hs : stripSmtp v = [] := by
      simp only [recipientOf] at h
      split at h
      next => exact Option.some.inj h
      next => cases h
    unfold stripSmtp at hs
    split at hs
    next hl =>
        rw [List.drop_eq_nil_iff] at hs
        omega
    next => exact hs
  · rintro rfl
    rfl

theorem length_items_le (h : Handle) : h.items.length ≤ h.work := by
  have hattributes : ∀ attributes : List AttributeCall,
      (attributeItems attributes).length ≤ attributesWork attributes := by
    intro attributes
    induction attributes with
    | nil => exact Nat.le_refl _
    | cons call attributes ih =>
        cases call with
        | success values =>
            simp [attributeItems, attributesWork]
            omega
        | error => simp [attributeItems, attributesWork]
  have hmessages : ∀ messages : List Message,
      (messages.flatMap Message.items).length ≤ messagesWork messages := by
    intro messages
    induction messages with
    | nil => exact Nat.le_refl _
    | cons m messages ih =>
        rw [List.flatMap_cons, List.length_append]
        cases m with
        | searchEntry attributes =>
            cases attributes with
            | none => exact Nat.add_le_add (Nat.le_add_left 1 _) ih
            | some attributes =>
                exact Nat.add_le_add (Nat.le_succ_of_le (hattributes attributes)) ih
        | searchResult parses success => exact Nat.add_le_add (Nat.le_refl 1) ih
        | other => exact Nat.add_le_add (Nat.zero_le 1) ih
  have ha := hattributes (h.ber.getD [])
  have hm := hmessages h.messages
  simp only [Handle.items, Handle.work, List.length_append, List.length_map]
  omega

/-- The calls answer for the items in order. -/
theorem recipients_delivery (messages : List Message) :
    ∃ k, (delivery messages).recipients =
      (handle messages).items.filterMap Item.answer ++ List.replicate (k + 1) none := by
  have hlt : (handle messages).items.length < (handle messages).work + 1 :=
    Nat.lt_succ_of_le (length_items_le _)
  obtain ⟨k, hk⟩ := calls_scan_of_lt Item.answer none hlt
  exact ⟨k, (calls_view scan_items _ _).trans hk⟩

/-- A load throws when it comes to an error before it comes to an empty value. -/
theorem fails_delivery (messages : List Message) :
    (delivery messages).Fails ↔
      .value [] ∉ walked (handle messages).items ∧ EndsInError (handle messages).items := by
  obtain ⟨k, hk⟩ := recipients_delivery messages
  rw [Delivery.Fails, hk]
  simp only [delivery, Bool.true_eq_false, false_or, or_false]
  generalize (handle messages).items = items
  induction items with
  | nil => simp [walked, EndsInError, List.replicate_succ]
  | cons i items ih =>
      cases i with
      | value v =>
          rw [endsInError_value, walked_value, List.mem_cons, not_or]
          cases v with
          | nil =>
              have hs : recipientOf [] = some [] := recipientOf_eq_some_nil.mpr rfl
              rw [List.filterMap_cons_some (b := some []) (by simp [Item.answer, hs])]
              simp
          | cons b v =>
              have hne : (.value [] : Item) ≠ .value (b :: v) := by simp
              cases hs : recipientOf (b :: v) with
              | none =>
                  rw [List.filterMap_cons_none (by simp [Item.answer, hs]), ih]
                  simp [hne]
              | some s =>
                  have hlong : s ≠ [] := by
                    rintro rfl
                    cases recipientOf_eq_some_nil.mp hs
                  rw [List.filterMap_cons_some (b := some s) (by simp [Item.answer, hs]),
                    List.cons_append, List.takeWhile_cons_of_pos (by simpa using hlong),
                    List.mem_cons, ih]
                  simp [hne]
      | attributeError =>
          rw [endsInError_attributeError, walked_attributeError, List.filterMap_cons_none rfl, ih]
          simp
      | dnError => simp [Item.answer, walked, EndsInError, Item.ends]
      | result success => cases success <;> simp [Item.answer, walked, EndsInError, Item.ends]

/-- A load without an empty value reads all values on its way. -/
theorem mem_addresses_delivery {messages : List Message}
    (hempty : .value [] ∉ walked (handle messages).items) {v s : Str}
    (hv : .value v ∈ walked (handle messages).items) (hs : recipientOf v = some s) :
    s ∈ (delivery messages).addresses := by
  obtain ⟨k, hk⟩ := recipients_delivery messages
  rw [Delivery.addresses, hk]
  generalize (handle messages).items = items at hempty hv ⊢
  induction items with
  | nil => cases hv
  | cons i items ih =>
      cases i with
      | value w =>
          rw [walked_value, List.mem_cons, not_or] at hempty
          rw [walked_value, List.mem_cons, Item.value.injEq] at hv
          cases hw : recipientOf w with
          | none =>
              rw [List.filterMap_cons_none (by simp [Item.answer, hw])]
              cases hv with
              | inl hvw =>
                  rw [hvw, hw] at hs
                  cases hs
              | inr hrest => exact ih hempty.2 hrest
          | some t =>
              have ht : t ≠ [] := by
                rintro rfl
                exact hempty.1 (by rw [recipientOf_eq_some_nil.mp hw])
              rw [List.filterMap_cons_some (b := some t) (by simp [Item.answer, hw]),
                List.cons_append, List.map_cons, List.takeWhile_cons_of_pos (by simpa using ht),
                List.mem_cons]
              cases hv with
              | inl hvw =>
                  rw [hvw, hw, Option.some.injEq] at hs
                  exact Or.inl hs.symm
              | inr hrest => exact Or.inr (ih hempty.2 hrest)
      | attributeError =>
          rw [walked_attributeError, List.mem_cons, not_or] at hempty
          rw [walked_attributeError, List.mem_cons] at hv
          exact ih hempty.2 (hv.resolve_left (by simp))
      | dnError => cases hv
      | result success => cases hv

/-- The items a load leaves unread. -/
def unread (messages : List Message) : List Item :=
  (stateAfter (fun a => a.getD [] == []) getRecipient ((handle messages).work + 1)
    (handle messages)).items

/-- The load goes on behind the item. -/
def Item.goesOn (i : Item) : Bool := !i.answer.any fun a => a.getD [] == []

theorem goesOn_value {v : Str} (h : v ≠ []) : (Item.value v).goesOn = true := by
  rw [Item.goesOn, Item.answer]
  cases hs : recipientOf v with
  | none => rfl
  | some s =>
      have hne : s ≠ [] := by
        rintro rfl
        exact h (recipientOf_eq_some_nil.mp hs)
      simpa using hne

theorem unread_eq (messages : List Message) :
    unread messages = ((handle messages).items.dropWhile Item.goesOn).tail := by
  rw [unread, stateAfter_view scan_items]
  exact stateAfter_scan (Nat.lt_succ_of_le (length_items_le _)) rfl

/-- A load that comes to an empty value reads up to it. -/
theorem unread_of_empty {messages : List Message}
    (h : .value [] ∈ walked (handle messages).items) :
    ∃ before, (handle messages).items = before ++ .value [] :: unread messages := by
  rw [unread_eq]
  generalize (handle messages).items = items at h
  induction items with
  | nil => cases h
  | cons i items ih =>
      cases i with
      | value v =>
          rw [walked_value, List.mem_cons, Item.value.injEq] at h
          cases hv : v with
          | nil => exact ⟨[], rfl⟩
          | cons c v' =>
              obtain ⟨before, hb⟩ := ih (h.resolve_left (by simp [hv]))
              refine ⟨.value (c :: v') :: before, ?_⟩
              rw [List.dropWhile_cons_of_pos (goesOn_value (by simp)), List.cons_append, ← hb]
      | attributeError =>
          rw [walked_attributeError, List.mem_cons] at h
          obtain ⟨before, hb⟩ := ih (h.resolve_left (by simp))
          refine ⟨.attributeError :: before, ?_⟩
          rw [List.dropWhile_cons_of_pos rfl, List.cons_append, ← hb]
      | dnError => cases h
      | result success => cases h

/-- A load without an empty value reads up to the item that ends its walk. -/
theorem unread_of_not_empty {messages : List Message}
    (h : .value [] ∉ walked (handle messages).items) {i : Item}
    (hi : (handle messages).items.find? Item.ends = some i) :
    (handle messages).items = walked (handle messages).items ++ i :: unread messages := by
  rw [unread_eq]
  generalize (handle messages).items = items at h hi ⊢
  induction items with
  | nil => cases hi
  | cons j items ih =>
      cases j with
      | value v =>
          rw [walked_value, List.mem_cons, not_or] at h
          have hv : v ≠ [] := by
            rintro rfl
            exact h.1 rfl
          rw [List.dropWhile_cons_of_pos (goesOn_value hv), walked_value, List.cons_append,
            ← ih h.2 hi]
      | attributeError =>
          rw [walked_attributeError, List.mem_cons, not_or] at h
          rw [List.dropWhile_cons_of_pos rfl, walked_attributeError, List.cons_append, ← ih h.2 hi]
      | dnError =>
          obtain rfl := Option.some.inj hi
          rfl
      | result success =>
          obtain rfl := Option.some.inj hi
          cases success <;> rfl

/-! ## The whole enumeration -/

/-- The library reports an error with the item, or the end of the search. -/
def Item.stops : Item → Bool
  | .value _ => false
  | _ => true

/-- The result message or a call of the library reports an error. -/
def ReportsError (items : List Item) : Prop := items.find? Item.stops ≠ some (.result true)

/-- What a load should do with a search. -/
structure Enumerates (domname : Str) (messages : List Message) (r : UnorderedSet Str) : Prop where
  /-- The name in each value before an error is stored. -/
  visits : ∀ v, .value v ∈ (handle messages).items.takeWhile (fun i => !i.stops) →
    stripSmtp v ≠ [] → (∀ c ∈ stripSmtp v, c ∈ mailchars) →
    ∀ name, Source.Names strcaseeq domname (stripSmtp v) name →
      strtolower name ∈ (Source.loadData domname (delivery messages) r).1.toList
  /-- A load without an error ends at the result message. -/
  ends : (Source.loadData domname (delivery messages) r).2 = .returns →
    ∃ before success, (handle messages).items = before ++ .result success :: unread messages ∧
      ∀ i ∈ before, i.ends = false
  errors : (Source.loadData domname (delivery messages) r).2 = .throws ↔
    ReportsError (handle messages).items

theorem reportsError_iff {items : List Item} :
    ReportsError items ↔ .attributeError ∈ walked items ∨ EndsInError items := by
  induction items with
  | nil => simp [ReportsError, EndsInError]
  | cons i items ih =>
      cases i with
      | value v =>
          rw [walked_value, List.mem_cons]
          exact ih.trans (by simp [EndsInError, Item.ends])
      | attributeError => simp [ReportsError, walked, Item.stops, Item.ends]
      | dnError => simp [ReportsError, EndsInError, walked, Item.stops, Item.ends]
      | result success => simp [ReportsError, EndsInError, walked, Item.stops, Item.ends]

theorem mem_walked_of_stops {items : List Item} {i : Item}
    (h : i ∈ items.takeWhile fun i => !i.stops) : i ∈ walked items := by
  induction items with
  | nil => cases h
  | cons j items ih =>
      cases j with
      | value v =>
          rw [List.takeWhile_cons_of_pos rfl, List.mem_cons] at h
          exact List.mem_cons.mpr (h.imp_right ih)
      | attributeError => cases h
      | dnError => cases h
      | result success => cases h

theorem ends_of_mem_walked {items : List Item} {i : Item} (h : i ∈ walked items) :
    i.ends = false := by
  simpa using List.mem_takeWhile_imp h

/-- **When a search is enumerated.**  Two items go wrong: an empty value ends the
enumeration, and a failing attribute call is passed over, which is right only
when an error follows. -/
theorem enumerates_iff (domname : Str) (messages : List Message) (r : UnorderedSet Str) :
    Enumerates domname messages r ↔
      .value [] ∉ walked (handle messages).items ∧
        (.attributeError ∉ walked (handle messages).items ∨
          EndsInError (handle messages).items) := by
  have hthrows := (Source.loadData_throws domname (delivery messages) r).trans
    (fails_delivery messages)
  have hreturns : (Source.loadData domname (delivery messages) r).2 = .returns ↔
      (Source.loadData domname (delivery messages) r).2 ≠ .throws := by
    cases (Source.loadData domname (delivery messages) r).2 <;> simp
  constructor
  · intro h
    have hempty : .value [] ∉ walked (handle messages).items := by
      intro hm
      -- the load returns at the empty value, which is not the result message
      obtain ⟨before, hb⟩ := unread_of_empty hm
      obtain ⟨before', success, hb', -⟩ := h.ends (hreturns.mpr fun ht => (hthrows.mp ht).1 hm)
      have hlen : before.length = before'.length := by
        have := congrArg List.length (hb.symm.trans hb')
        simpa using this
      have hitem := (List.append_inj (hb.symm.trans hb') hlen).2
      cases hitem
    have herrors := h.errors
    rw [hthrows, reportsError_iff] at herrors
    refine ⟨hempty, ?_⟩
    by_cases ha : .attributeError ∈ walked (handle messages).items
    · exact Or.inr (herrors.mpr (Or.inl ha)).2
    · exact Or.inl ha
  · rintro ⟨hempty, hattribute⟩
    refine ⟨?_, ?_, ?_⟩
    · intro v hv hne hmail name hname
      have hs : recipientOf v = some (stripSmtp v) := by
        have hall : (stripSmtp v).all mailchars.contains = true := by
          rw [List.all_eq_true]
          exact fun c hc => List.contains_iff_mem.mpr (hmail c hc)
        simp only [recipientOf, if_pos hall]
      have haddr := mem_addresses_delivery hempty (mem_walked_of_stops hv) hs
      have hopens : (delivery messages).opens = true := rfl
      rw [← UnorderedSet.mem_toFinset, Source.loadData_toFinset, if_pos hopens, Finset.mem_union,
        Delivery.collected, List.mem_toFinset]
      exact Or.inr (List.mem_filterMap.mpr
        ⟨stripSmtp v, haddr, Source.accept_eq_some.mpr ⟨name, hname, rfl⟩⟩)
    · intro hret
      have hend : (handle messages).items.find? Item.ends = some (.result true) := by
        by_contra hn
        exact hreturns.mp hret (hthrows.mpr ⟨hempty, hn⟩)
      exact ⟨_, true, unread_of_not_empty hempty hend, fun i hi => ends_of_mem_walked hi⟩
    · rw [hthrows, reportsError_iff]
      refine ⟨fun h => Or.inr h.2, ?_⟩
      rintro (ha | he)
      · exact ⟨hempty, hattribute.resolve_left (not_not_intro ha)⟩
      · exact ⟨hempty, he⟩

/-- An entry with two values, of which the first one is empty. -/
def emptyValue : List Message :=
  [.searchEntry (some [.success [[], str "joe"]]), .searchResult true true]

/-- The value behind an empty one is not visited. -/
theorem empty_value_hides_next : ¬Enumerates (str "example.com") emptyValue .empty := by
  intro h
  have hjoe := h.visits (str "joe") (by decide) (by decide) (by decide +kernel) (str "joe")
    (Or.inl ⟨by decide, by decide⟩)
  revert hjoe
  decide +kernel

end Ldap

end Undervest
