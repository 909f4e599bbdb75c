import Undervest.Configuration

/-!
# The mail filter

A connection carries messages.  The filter sees the start of a message, its
recipients one by one, and its end, and collects what it will do to the
recipients in three containers: `rejected` to delete, `added` to add, and
`maybe` to mention in a header.  The actions are taken at the end of the
message.  An aborted message has none.

A recipient `in error` is one the mail server refuses by itself.  It is told to
the filter all the same, and the filter adds it again when it accepts it.

`out` is where an accepted recipient goes.  `Collected` says what the containers
hold after some recipients of a message, in terms of `out`.  It holds after the
start of a message whatever was there before, and each recipient preserves it
(`collected_envelopeRecipient`), so at the end of the message the actions turn
the recipients the server accepted into the images of all those the filter
accepted (`connection_recipients`).
-/

namespace Undervest

open Unordered

/-! ## Callbacks -/

/-- The status a callback returns. -/
inductive Sfsistat where
  | continue
  | reject
  | tempfail
deriving DecidableEq, Repr

/-- A recipient of a message, as the mail server passes it. -/
structure Rcpt where
  address : Str
  argv : List Str
  /-- The macro `{rcpt_mailer}`, when the server defines it. -/
  mailer : Option Str
deriving DecidableEq, Repr

/-- The server refuses the recipient by itself. -/
def Rcpt.inError (r : Rcpt) : Bool := r.mailer == some (str "error")

/-- The reply to a rejected recipient. -/
structure Reply where
  status : UInt16
  extended : Str
  message : Str
deriving DecidableEq, Repr

/-- What the filter asks the server to do with a message. -/
inductive Action where
  | addHeader (name value : Str)
  | deleteRecipient (recipient : Str)
  | addRecipient (recipient args : Str)
deriving DecidableEq, Repr

/-- The containers of the class `Undervest`. -/
structure Context where
  /-- Rejected recipients. -/
  rejected : UnorderedSet Str
  /-- Added recipients, with their arguments. -/
  added : UnorderedMap Str Str
  /-- Possible matches. -/
  maybe : UnorderedSet Str

/-- `implode` of `stringlib.h`. -/
def implode (separator : Str) (v : List Str) : Str := separator.intercalate v

namespace Context

def clear (_u : Context) : Context := ⟨.empty, ∅, .empty⟩

def envelopeFrom (u : Context) : Sfsistat × Context := (.continue, u.clear)

/-- `Undervest::envelopeRecipient`. -/
def envelopeRecipient (c : Choices) (cfg : Configuration) (u : Context) (r : Rcpt) :
    Sfsistat × Option Reply × Context :=
  match r.mailer with
  | none => (.tempfail, none, u)
  | some _ =>
      let s := strtolower r.address
      let (mapped, fixit) := cfg.recipient c s false
      if mapped.length = 0 then
        (.reject, some ⟨cfg.smtpStatus, cfg.smtpExtended, cfg.smtpMessage⟩, u)
      else if mapped = s ∨ fixit = false then
        let u := if r.inError then
            { u with added := UnorderedMap.emplace u.added s (implode (str " ") r.argv) }
          else u
        let u := if mapped ≠ s then { u with maybe := u.maybe.emplace mapped } else u
        (.continue, none, u)
      else
        (.continue, none,
          { u with
            added := UnorderedMap.emplace u.added mapped (implode (str " ") r.argv)
            rejected := u.rejected.emplace s })

/-- `Undervest::endOfMessage`. -/
def endOfMessage (c : Choices) (u : Context) : List Action :=
  ((c.iterate u.rejected.toList).flatMap fun i =>
      [.addHeader (str "X-undervest-original-recipient") i, .deleteRecipient i]) ++
    ((c.iterate u.maybe.toList).map fun i => .addHeader (str "X-undervest-maybe-to") i) ++
    (c.iterate u.added.entries).map fun i => .addRecipient i.1 i.2

end Context

/-! ## Messages -/

/-- The callback that ends a message. -/
inductive Ending where
  | endOfMessage
  | abort
deriving DecidableEq, Repr

structure Message where
  rcpts : List Rcpt
  ending : Ending

/-- The recipients of a message in turn, each with the status it got. -/
def receive (c : Choices) (cfg : Configuration) :
    Context → List Rcpt → List (Rcpt × Sfsistat) × Context
  | u, [] => ([], u)
  | u, r :: rest =>
      let (status, _, u) := u.envelopeRecipient c cfg r
      let (log, u) := receive c cfg u rest
      ((r, status) :: log, u)

/-- What happened to a message. -/
structure Outcome where
  /-- The recipients and their statuses. -/
  log : List (Rcpt × Sfsistat)
  /-- The actions at the end of the message, `none` when it was aborted. -/
  actions : Option (List Action)

/-- One message. -/
def message (c : Choices) (cfg : Configuration) (u : Context) (m : Message) : Outcome × Context :=
  let (log, u) := receive c cfg u.envelopeFrom.2 m.rcpts
  match m.ending with
  | .endOfMessage => (⟨log, some (u.endOfMessage c)⟩, u)
  | .abort => (⟨log, none⟩, u)

/-- The messages of a connection, each with the configuration data of its time. -/
def connection (c : Choices) : Context → List (Configuration × Message) → List Outcome
  | _, [] => []
  | u, (cfg, m) :: rest =>
      let (outcome, u) := message c cfg u m
      outcome :: connection c u rest

/-! ## What becomes of a recipient -/

/-- Where an accepted recipient goes. -/
def out (c : Choices) (cfg : Configuration) (s : Str) : Str :=
  let (mapped, fixit) := cfg.recipient c s false
  if mapped ≠ [] ∧ mapped ≠ s ∧ fixit = true then mapped else s

/-- The effect of an action on the recipients of the message. -/
def Action.apply (R : Finset Str) : Action → Finset Str
  | .addHeader _ _ => R
  | .deleteRecipient s => R.erase s
  | .addRecipient s _ => insert s R

/-- The effect of some actions, in order. -/
def applyActions (actions : List Action) (R : Finset Str) : Finset Str :=
  actions.foldl Action.apply R

namespace Outcome

/-- The recipients that returned `continue`. -/
def accepted (o : Outcome) : Finset Str :=
  ((o.log.filter fun e => e.2 = .continue).map fun e => strtolower e.1.address).toFinset

/-- Those of them that are not in error, which are the recipients at the server. -/
def recipients (o : Outcome) : Finset Str :=
  ((o.log.filter fun e => e.2 = .continue ∧ e.1.inError = false).map
    fun e => strtolower e.1.address).toFinset

end Outcome

/-! ## The actions of a message -/

theorem applyActions_append (l₁ l₂ : List Action) (R : Finset Str) :
    applyActions (l₁ ++ l₂) R = applyActions l₂ (applyActions l₁ R) := by
  rw [applyActions, List.foldl_append]
  rfl

theorem mem_applyActions_rejected {x name : Str} {l : List Str} {R : Finset Str} :
    x ∈ applyActions (l.flatMap fun i => [.addHeader name i, .deleteRecipient i]) R ↔
      x ∈ R ∧ x ∉ l := by
  induction l generalizing R with
  | nil => simp [applyActions]
  | cons i l ih =>
      rw [List.flatMap_cons, applyActions_append, ih]
      simp only [applyActions, List.foldl_cons, List.foldl_nil, Action.apply, Finset.mem_erase,
        List.mem_cons, not_or]
      tauto

theorem applyActions_maybe (name : Str) (l : List Str) (R : Finset Str) :
    applyActions (l.map fun i => .addHeader name i) R = R := by
  induction l with
  | nil => rfl
  | cons i l ih => exact ih

theorem mem_applyActions_added {x : Str} {l : List (Sigma fun _ : Str => Str)} {R : Finset Str} :
    x ∈ applyActions (l.map fun i => .addRecipient i.1 i.2) R ↔ x ∈ R ∨ x ∈ l.keys := by
  induction l generalizing R with
  | nil => simp [applyActions, List.keys]
  | cons i l ih =>
      rw [List.map_cons, ← List.singleton_append, applyActions_append, ih]
      simp only [applyActions, List.foldl_cons, List.foldl_nil, Action.apply, Finset.mem_insert,
        List.keys_cons, List.mem_cons]
      tauto

/-- **The effect of a message on the recipients.**  Deletions come first. -/
theorem mem_applyActions_endOfMessage {c : Choices} {u : Context} {R : Finset Str} {x : Str} :
    x ∈ applyActions (u.endOfMessage c) R ↔
      x ∈ R ∧ x ∉ u.rejected.toList ∨ x ∈ u.added := by
  have hkeys : x ∈ (c.iterate u.added.entries).keys ↔ x ∈ u.added := by
    rw [List.keys, ((c.iterate_perm _).map _).mem_iff]
    rfl
  rw [Context.endOfMessage, applyActions_append, applyActions_append, mem_applyActions_added,
    applyActions_maybe, mem_applyActions_rejected, hkeys, c.mem_iterate]

/-! ## The containers -/

section Collect

variable {c : Choices} {cfg : Configuration}

/-- What the containers hold after the recipients of `log`. -/
structure Collected (c : Choices) (cfg : Configuration) (log : List (Rcpt × Sfsistat))
    (u : Context) : Prop where
  rejected : ∀ s, s ∈ u.rejected.toList ↔
    ∃ e ∈ log, e.2 = .continue ∧ strtolower e.1.address = s ∧ out c cfg s ≠ s
  added : ∀ x, x ∈ u.added ↔
    ∃ e ∈ log, e.2 = .continue ∧ out c cfg (strtolower e.1.address) = x ∧
      (x ≠ strtolower e.1.address ∨ e.1.inError = true)

theorem collected_clear (u : Context) : Collected c cfg [] u.clear where
  rejected s := by simp [Context.clear, UnorderedSet.empty]
  added x := by simp [Context.clear]

/-- What one recipient does to the containers: it is not accepted, or it is kept,
or it is replaced. -/
theorem envelopeRecipient_cases (c : Choices) (cfg : Configuration) (u : Context) (r : Rcpt) :
    ((u.envelopeRecipient c cfg r).1 ≠ .continue ∧ (u.envelopeRecipient c cfg r).2.2 = u) ∨
      ((u.envelopeRecipient c cfg r).1 = .continue ∧
        out c cfg (strtolower r.address) = strtolower r.address ∧
        (u.envelopeRecipient c cfg r).2.2.rejected = u.rejected ∧
        (u.envelopeRecipient c cfg r).2.2.added =
          if r.inError = true then
            UnorderedMap.emplace u.added (strtolower r.address) (implode (str " ") r.argv)
          else u.added) ∨
      ((u.envelopeRecipient c cfg r).1 = .continue ∧
        out c cfg (strtolower r.address) ≠ strtolower r.address ∧
        (u.envelopeRecipient c cfg r).2.2.rejected = u.rejected.emplace (strtolower r.address) ∧
        (u.envelopeRecipient c cfg r).2.2.added =
          UnorderedMap.emplace u.added (out c cfg (strtolower r.address))
            (implode (str " ") r.argv)) := by
  cases hm : r.mailer with
  | none => exact Or.inl (by simp [Context.envelopeRecipient, hm])
  | some mailer =>
      obtain ⟨p, hp⟩ : ∃ p, cfg.recipient c (strtolower r.address) false = p := ⟨_, rfl⟩
      by_cases hnil : p.1 = []
      · exact Or.inl (by simp [Context.envelopeRecipient, hm, hp, hnil])
      · refine Or.inr ?_
        by_cases hkeep : p.1 = strtolower r.address ∨ p.2 = false
        · have hout : out c cfg (strtolower r.address) = strtolower r.address := by
            simp only [out, hp]
            rw [if_neg]
            rintro ⟨-, hne, hfix⟩
            cases hkeep with
            | inl h => exact hne h
            | inr h => rw [h] at hfix; cases hfix
          refine Or.inl ⟨?_, hout, ?_, ?_⟩ <;>
            simp only [Context.envelopeRecipient, hm, hp, List.length_eq_zero_iff, hnil, hkeep,
              if_true, if_false] <;>
            split_ifs <;> rfl
        · obtain ⟨hne, hfix⟩ := not_or.mp hkeep
          have hout : out c cfg (strtolower r.address) = p.1 := by
            simp only [out, hp]
            exact if_pos ⟨hnil, hne, by simpa using hfix⟩
          refine Or.inr ⟨?_, hout.trans_ne hne, ?_, ?_⟩ <;>
            simp only [Context.envelopeRecipient, hm, hp, List.length_eq_zero_iff, hnil, hkeep,
              if_false, hout]

/-- A recipient preserves the invariant. -/
theorem collected_envelopeRecipient {log : List (Rcpt × Sfsistat)} {u : Context}
    (h : Collected c cfg log u) (r : Rcpt) :
    Collected c cfg (log ++ [(r, (u.envelopeRecipient c cfg r).1)])
      (u.envelopeRecipient c cfg r).2.2 := by
  rcases envelopeRecipient_cases c cfg u r with ⟨hst, hu⟩ | ⟨hst, hout, hrej, hadd⟩ |
    ⟨hst, hout, hrej, hadd⟩
  · rw [hu]
    exact ⟨fun s => by simp [h.rejected, or_and_right, exists_or, hst],
      fun x => by simp [h.added, or_and_right, exists_or, hst]⟩
  · rw [hst]
    refine ⟨fun s => ?_, fun x => ?_⟩
    · rw [hrej, h.rejected]
      have hnot : ¬ (strtolower r.address = s ∧ out c cfg s ≠ s) := by
        rintro ⟨rfl, hne⟩
        exact hne hout
      simp only [List.mem_append, List.mem_singleton, or_and_right, exists_or, exists_eq_left,
        true_and, hnot, or_false]
    · have hadded : x ∈ (u.envelopeRecipient c cfg r).2.2.added ↔
          x ∈ u.added ∨ x = strtolower r.address ∧ r.inError = true := by
        rw [hadd]
        cases r.inError <;> simp [UnorderedMap.mem_emplace]
      rw [hadded, h.added]
      simp only [List.mem_append, List.mem_singleton, or_and_right, exists_or, exists_eq_left,
        true_and, hout]
      refine or_congr Iff.rfl ⟨?_, ?_⟩
      · rintro ⟨rfl, he⟩
        exact ⟨rfl, Or.inr he⟩
      · rintro ⟨rfl, he⟩
        exact ⟨rfl, he.resolve_left fun hne => hne rfl⟩
  · rw [hst]
    refine ⟨fun s => ?_, fun x => ?_⟩
    · rw [hrej, UnorderedSet.mem_emplace, h.rejected]
      simp only [List.mem_append, List.mem_singleton, or_and_right, exists_or, exists_eq_left,
        true_and]
      refine or_congr Iff.rfl ⟨?_, ?_⟩
      · rintro rfl
        exact ⟨rfl, hout⟩
      · exact fun hs => hs.1.symm
    · rw [hadd, UnorderedMap.mem_emplace, h.added]
      simp only [List.mem_append, List.mem_singleton, or_and_right, exists_or, exists_eq_left,
        true_and]
      refine or_congr Iff.rfl ⟨?_, ?_⟩
      · rintro rfl
        exact ⟨rfl, Or.inl hout⟩
      · exact fun hx => hx.1.symm

/-- The invariant after the recipients of a message. -/
theorem collected_receive (rcpts : List Rcpt) {log : List (Rcpt × Sfsistat)} {u : Context}
    (h : Collected c cfg log u) :
    Collected c cfg (log ++ (receive c cfg u rcpts).1) (receive c cfg u rcpts).2 := by
  induction rcpts generalizing log u with
  | nil => simpa [receive] using h
  | cons r rest ih =>
      have := ih (collected_envelopeRecipient h r)
      simpa [receive] using this

/-- The actions take the recipients at the server to the images of all accepted
ones. -/
theorem applyActions_collected {log : List (Rcpt × Sfsistat)} {u : Context}
    (h : Collected c cfg log u) (actions : Option (List Action)) :
    applyActions (u.endOfMessage c) (Outcome.recipients ⟨log, actions⟩) =
      (Outcome.accepted ⟨log, actions⟩).image (out c cfg) := by
  ext x
  simp only [mem_applyActions_endOfMessage, Outcome.recipients, Outcome.accepted, List.mem_toFinset,
    List.mem_map, List.mem_filter, decide_eq_true_eq, Finset.mem_image, h.rejected, h.added]
  constructor
  · rintro (⟨⟨e, ⟨hmem, hst, herr⟩, rfl⟩, hnot⟩ | ⟨e, hmem, hst, hout, -⟩)
    · refine ⟨_, ⟨e, ⟨hmem, hst⟩, rfl⟩, ?_⟩
      by_contra hne
      exact hnot ⟨e, hmem, hst, rfl, hne⟩
    · exact ⟨_, ⟨e, ⟨hmem, hst⟩, rfl⟩, hout⟩
  · rintro ⟨s, ⟨e, ⟨hmem, hst⟩, rfl⟩, rfl⟩
    by_cases hadd : out c cfg (strtolower e.1.address) ≠ strtolower e.1.address ∨
        e.1.inError = true
    · exact Or.inr ⟨e, hmem, hst, rfl, hadd⟩
    · obtain ⟨hout, herr⟩ := not_or.mp hadd
      rw [not_not] at hout
      refine Or.inl ⟨⟨e, ⟨hmem, hst, by simpa using herr⟩, hout.symm⟩, ?_⟩
      rintro ⟨e', -, -, -, hne⟩
      rw [hout] at hne
      exact hne hout

end Collect

/-! ## Connections -/

/-- The recipients after a message that is not aborted, whatever the containers
held before it. -/
theorem message_recipients (c : Choices) (cfg : Configuration) (u : Context) (m : Message)
    (actions : List Action) (ha : (message c cfg u m).1.actions = some actions) :
    applyActions actions (message c cfg u m).1.recipients =
      (message c cfg u m).1.accepted.image (out c cfg) := by
  have h : Collected c cfg ([] ++ (receive c cfg u.clear m.rcpts).1)
      (receive c cfg u.clear m.rcpts).2 := collected_receive m.rcpts (collected_clear u)
  rw [List.nil_append] at h
  cases hm : m.ending with
  | endOfMessage =>
      simp only [message, hm, Option.some.injEq] at ha ⊢
      rw [← ha]
      exact applyActions_collected h _
  | abort =>
      simp only [message, hm] at ha
      cases ha

/-- **No recipient is lost, none is added without cause.**  In every message of
a connection that is not aborted, the actions take the recipients that returned
`continue` and were not in error to the images of all that returned `continue`. -/
theorem connection_recipients (c : Choices) (messages : List (Configuration × Message))
    (u : Context) :
    List.Forall₂ (fun p o => ∀ actions, o.actions = some actions →
        applyActions actions o.recipients = o.accepted.image (out c p.1))
      messages (connection c u messages) := by
  induction messages generalizing u with
  | nil => exact List.Forall₂.nil
  | cons p rest ih => exact List.Forall₂.cons (message_recipients c p.1 u p.2) (ih _)

/-! ## Recipients the domain leaves alone -/

/-- At the start of a message, the filter notes nothing for a recipient that is
rejected or comes back unchanged, and something for any other. -/
theorem envelopeRecipient_notes {c : Choices} {cfg : Configuration} {r : Rcpt}
    (hr : r.mailer ≠ none) (u : Context) :
    ((u.clear.envelopeRecipient c cfg r).2.2.rejected = .empty ∧
        (u.clear.envelopeRecipient c cfg r).2.2.maybe = .empty) ↔
      (cfg.recipient c (strtolower r.address) false).1 = [] ∨
        (cfg.recipient c (strtolower r.address) false).1 = strtolower r.address := by
  obtain ⟨mailer, hm⟩ := Option.ne_none_iff_exists'.mp hr
  obtain ⟨p, hp⟩ : ∃ p, cfg.recipient c (strtolower r.address) false = p := ⟨_, rfl⟩
  have hne : ∀ s : Str, UnorderedSet.empty.emplace s ≠ .empty := by
    intro s h
    have hs := congrArg UnorderedSet.toList h
    simp [UnorderedSet.emplace, UnorderedSet.empty] at hs
  simp only [Context.envelopeRecipient, hm, hp, Context.clear, List.length_eq_zero_iff]
  by_cases hnil : p.1 = []
  · simp [hnil]
  by_cases hsame : p.1 = strtolower r.address
  · simp only [hsame, true_or, if_true, ne_eq, not_true_eq_false, if_false, or_true, iff_true]
    split_ifs <;> exact ⟨rfl, rfl⟩
  cases hfix : p.2 with
  | false =>
      simp only [hnil, hsame, if_false, or_true, if_true, ne_eq, not_false_eq_true, or_self,
        iff_false, not_and]
      split_ifs <;> exact fun _ => hne _
  | true => simp [hnil, hsame, hne]

section Unmodified

variable {c : Choices} {cfg : Configuration} {e : Str}

/-- What the configuration answers when the domain leaves the local part alone. -/
theorem recipient_of_unmodified
    (h : ∀ a dom, Address.parse e = some a → cfg.domains.lookup a.domain = some dom →
      dom.recipient c a.origrcpt = some a.origrcpt) (fixit : Bool) :
    (cfg.consulted e = none ∧ (cfg.recipient c e fixit).1 = e) ∨
      ∃ dom, cfg.consulted e = some dom ∧ Address.rebuilt e ≠ [] ∧
        (cfg.recipient c e fixit).1 = Address.rebuilt e := by
  cases hc : cfg.consulted e with
  | none => exact Or.inl ⟨rfl, by rw [Configuration.recipient_of_not_consulted hc c fixit]⟩
  | some dom =>
      obtain ⟨a, ha, hl⟩ := Option.bind_eq_some_iff.mp hc
      obtain ⟨hbare, hbr⟩ := Address.bare_of_parse ha
      refine Or.inr ⟨dom, rfl, ?_, ?_⟩
      · rw [Address.rebuilt, hbare]
        split_ifs <;> simp
      · simp only [Configuration.recipient, ha, hl, h a dom ha hl, Address.rebuilt, hbare, hbr]

/-- **A recipient that its domain leaves alone comes back unchanged when it is
tight.**  Blanks around an address or just inside its brackets are lost when the
address is put together again, and the filter takes the result for another
recipient. -/
theorem unmodified_iff_tight
    (h : ∀ a dom, Address.parse e = some a → cfg.domains.lookup a.domain = some dom →
      dom.recipient c a.origrcpt = some a.origrcpt) :
    (∀ fixit, (cfg.recipient c e fixit).1 = e ↔
        cfg.consulted e = none ∨ Address.Tight e) ∧
      ∀ (u : Context) (r : Rcpt), r.mailer ≠ none → strtolower r.address = e →
        ((u.clear.envelopeRecipient c cfg r).2.2.rejected = .empty ∧
            (u.clear.envelopeRecipient c cfg r).2.2.maybe = .empty ↔
          cfg.consulted e = none ∨ Address.Tight e) := by
  rw [← Address.rebuilt_eq_self]
  refine ⟨fun fixit => ?_, fun u r hm hr => ?_⟩
  · cases recipient_of_unmodified h fixit with
    | inl hn => simp [hn.1, hn.2]
    | inr hs =>
        obtain ⟨dom, hc, -, hrec⟩ := hs
        simp [hc, hrec]
  · rw [envelopeRecipient_notes hm u, hr]
    cases recipient_of_unmodified h false with
    | inl hn => simp [hn.1, hn.2]
    | inr hs =>
        obtain ⟨dom, hc, hne, hrec⟩ := hs
        simp [hc, hrec, hne]

end Unmodified

/-- A configuration file with one domain whose recipients are corrected. -/
def correctingSection (title : Str) : ParsedFile := .success
  { domains := [{ title := title, autofix := true }]
    titles_nodup := List.nodup_singleton _ }

theorem unmodified_iff_tight_sample :
    ∃ cfg, Configuration.get (fun _ => true) (correctingSection (str "example.com")) = .ok cfg ∧
      (∃ dom, cfg.consulted (str "<john@example.com>") = some dom) ∧
      (cfg.recipient .canonical (str "<john@example.com>") false).1 = str "<john@example.com>" := by
  have hget : Configuration.get (fun _ => true) (correctingSection (str "example.com")) = .ok _ :=
    rfl
  refine ⟨_, hget, ⟨_, rfl⟩, ?_⟩
  have h := fun (a : Address) dom (_ : Address.parse (str "<john@example.com>") = some a) hl =>
    Domain.recipient_of_failureCount (d := dom)
      (by rw [(Configuration.get_domains hget a.domain dom hl).2]; decide) .canonical a.origrcpt
  refine ((unmodified_iff_tight h).1 false).mpr (Or.inr ?_)
  exact Address.rebuilt_eq_self.mp (by decide)

/-- A blank inside the brackets makes a recipient that its domain leaves alone a
corrected one: it is deleted, and another one is added. -/
theorem blank_taken_for_correction :
    ∃ cfg, Configuration.get (fun _ => true) (correctingSection (str "example.com")) = .ok cfg ∧
      ∃ dom, cfg.consulted (str "< john@example.com>") = some dom ∧
        ∀ c, dom.recipient c (str "john") = some (str "john") ∧
          cfg.recipient c (str "< john@example.com>") false = (str "<john@example.com>", true) ∧
          ∀ u : Context, (u.clear.envelopeRecipient c cfg
            ⟨str "< john@example.com>", [], some (str "local")⟩).2.2.rejected.toList =
              [str "< john@example.com>"] :=
  ⟨_, rfl, _, rfl, fun _ => ⟨rfl, rfl, fun _ => rfl⟩⟩

end Undervest
