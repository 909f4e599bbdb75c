import Undervest.Evidence

/-!
# The recipients at the end of a message

Between the recipients of a message a domain may be refreshed, so the same address may be
left alone once and corrected the next time.  A run with answers (`recordStep`) keeps the
recipients accepted so far, each with the answer that its callback got, and `Gathered` says
what the containers hold in terms of them.

The recipients of the server at the end of the message are exactly the targets of the
answers (`delivered`), but for an address that was left alone once and moved another time,
which goes where it was moved.
-/

namespace Undervest

open Unordered Transition

variable {c : Choices} {heap : Nat → DomainObject}

/-! ## Accepted recipients -/

/-- The recipients of the current message that were accepted. -/
def accepted (log : List Event) : List Rcpt :=
  log.foldl (fun rcpts e =>
    match e with
    | .envelopeFrom _ | .close _ => []
    | .envelopeRecipient r .continue _ => rcpts ++ [r]
    | _ => rcpts) []

/-- Those of them that are not in error, which are the recipients at the server. -/
def atServer (log : List Event) : Finset Str :=
  (((accepted log).filter fun r => !r.inError).map fun r => strtolower r.address).toFinset

theorem accepted_neutral {e : Event} (he : e.Neutral) (log : List Event) :
    accepted (log ++ [e]) = accepted log := by
  rw [accepted, List.foldl_concat]
  cases e with
  | envelopeFrom status => exact he.elim
  | close status => exact he.elim
  | envelopeRecipient r status text =>
      obtain rfl : status = .tempfail := he
      rfl
  | _ => rfl

theorem accepted_envelopeRecipient (r : Rcpt) (status : Sfsistat) (text : Option Reply)
    (log : List Event) :
    accepted (log ++ [.envelopeRecipient r status text]) =
      accepted log ++ (if status = .continue then [r] else []) := by
  rw [accepted, List.foldl_concat]
  cases status with
  | «continue» => rfl
  | reject => exact (List.append_nil _).symm
  | tempfail => exact (List.append_nil _).symm

/-! ## Answers -/

/-- The answer to a recipient. -/
structure Answer where
  rcpt : Rcpt
  /-- The domain object that was found, as it was when it answered. -/
  domain : Option Domain
  /-- Where the recipient is to go. -/
  target : Str

namespace Answer

/-- The address at the server. -/
def address (e : Answer) : Str := strtolower e.rcpt.address

end Answer

/-- The answer that the second part of the callback for a recipient gets. -/
def Session.answer (c : Choices) (s : State) (reply : Nat → Reply) (σ : Session) :
    Option Answer :=
  match σ.lookup, σ.object.bind ContextObject.conf with
  | some l, some conf =>
      some ⟨l.rcpt, l.found.map fun d => (s.heap d).domain,
        out c (l.view s (reply conf)) (strtolower l.rcpt.address)⟩
  | _, _ => none

/-- The answers for the current message after another event.  Only recipients that are
accepted count. -/
def record (answers : List Answer) (answer : Option Answer) : Option Event → List Answer
  | some (.envelopeFrom _) | some (.close _) => []
  | some (.envelopeRecipient _ .continue _) => answers ++ answer.toList
  | _ => answers

theorem record_neutral {e : Event} (he : e.Neutral) (answers : List Answer)
    (answer : Option Answer) : record answers answer (some e) = answers := by
  cases e with
  | envelopeFrom status => exact he.elim
  | close status => exact he.elim
  | envelopeRecipient r status text =>
      obtain rfl : status = .tempfail := he
      rfl
  | _ => rfl

theorem record_envelopeRecipient (answers : List Answer) (e : Answer) (r : Rcpt)
    (status : Sfsistat) (text : Option Reply) :
    record answers (some e) (some (.envelopeRecipient r status text)) =
      answers ++ if status = .continue then [e] else [] := by
  cases status with
  | «continue» => rfl
  | reject => exact (List.append_nil _).symm
  | tempfail => exact (List.append_nil _).symm

/-- A step that keeps the answers of a connection. -/
def recordStep (c : Choices) (k : Connection) (p : ServerState × List Answer) (a : ServerAct) :
    Option (ServerState × List Answer) :=
  (p.1.step c a).map fun s' =>
    (s', record p.2 ((p.1.session k).answer c p.1.shared p.1.reply)
      ((s'.log k)[(p.1.log k).length]?))

/-- What an answer is.  Without a domain object the recipient stays.  Otherwise the object,
which has the name of the domain and comes from a file that was read, has decided on a local
part, and the recipient goes there if the domain is to correct recipients. -/
inductive Fate (c : Choices) (heap : Nat → DomainObject) (as : List Act) : Answer → Prop where
  | unserved {r : Rcpt} : Fate c heap as ⟨r, none, strtolower r.address⟩
  | decided {r : Rcpt} {a : Address} {d : Domain} {t : Str}
      (ha : Address.parse (strtolower r.address) = some a) (hn : d.name = a.domain)
      (hg : Grounded c heap as d) (ht : d.recipient c a.origrcpt = some t) :
      Fate c heap as
        ⟨r, some d, if d.fixRecipient = true then a.written t else strtolower r.address⟩

theorem Fate.mono {as : List Act} {e : Answer} (h : Fate c heap as e) (a : Act) :
    Fate c heap (as ++ [a]) e := by
  cases h with
  | unserved => exact .unserved
  | decided ha hn hg ht => exact .decided ha hn (hg.mono a) ht

/-- What the containers hold after some answers. -/
structure Gathered (answers : List Answer) (u : Context) : Prop where
  rejected : ∀ s, s ∈ u.rejected.toList ↔ ∃ e ∈ answers, e.address = s ∧ e.target ≠ s
  added : ∀ x, x ∈ u.added ↔
    ∃ e ∈ answers, e.target = x ∧ (x ≠ e.address ∨ e.rcpt.inError = true)

namespace Gathered

variable {answers : List Answer} {u : Context}

theorem nil (u : Context) : Gathered [] u.clear where
  rejected s := by simp [Context.clear, UnorderedSet.empty]
  added x := by simp [Context.clear]

theorem new : Gathered [] ContextObject.new.containers := nil ⟨.empty, ∅, .empty⟩

/-- What one recipient does to the containers. -/
theorem envelopeRecipient (h : Gathered answers u) {c : Choices} {cfg : Configuration} {e : Answer}
    (he : e.target = out c cfg e.address) :
    Gathered
      (answers ++ if (u.envelopeRecipient c cfg e.rcpt).1 = .continue then [e] else [])
      (u.envelopeRecipient c cfg e.rcpt).2.2 := by
  rcases envelopeRecipient_cases c cfg u e.rcpt with ⟨hst, hu⟩ | ⟨hst, hout, hrej, hadd⟩ |
    ⟨hst, hout, hrej, hadd⟩
  · rw [hu, if_neg hst, List.append_nil]
    exact h
  · replace hout : e.target = e.address := he.trans hout
    rw [if_pos hst]
    refine ⟨fun s => ?_, fun x => ?_⟩
    · rw [hrej, h.rejected]
      simp [hout, or_and_right, exists_or]
    · have hadded : x ∈ (u.envelopeRecipient c cfg e.rcpt).2.2.added ↔
          x ∈ u.added ∨ x = e.address ∧ e.rcpt.inError = true := by
        rw [hadd]
        cases e.rcpt.inError <;> simp [UnorderedMap.mem_emplace, Answer.address]
      rw [hadded, h.added]
      simp only [List.mem_append, List.mem_singleton, or_and_right, exists_or, exists_eq_left, hout]
      refine or_congr Iff.rfl ⟨?_, ?_⟩
      · rintro ⟨rfl, herr⟩
        exact ⟨rfl, Or.inr herr⟩
      · rintro ⟨rfl, herr⟩
        exact ⟨rfl, herr.resolve_left fun hne => hne rfl⟩
  · change _ = UnorderedMap.emplace u.added (out c cfg e.address) _ at hadd
    rw [← he] at hadd
    replace hout : e.target ≠ e.address := he ▸ hout
    rw [if_pos hst]
    refine ⟨fun s => ?_, fun x => ?_⟩
    · rw [hrej, UnorderedSet.mem_emplace, h.rejected]
      simp only [List.mem_append, List.mem_singleton, or_and_right, exists_or, exists_eq_left]
      refine or_congr Iff.rfl ⟨?_, ?_⟩
      · rintro rfl
        exact ⟨rfl, hout⟩
      · exact fun hs => hs.1.symm
    · rw [hadd, UnorderedMap.mem_emplace, h.added]
      simp only [List.mem_append, List.mem_singleton, or_and_right, exists_or, exists_eq_left]
      refine or_congr Iff.rfl ⟨?_, ?_⟩
      · rintro rfl
        exact ⟨rfl, Or.inl hout⟩
      · exact fun hx => hx.1.symm

end Gathered

/-- Where a recipient goes that was accepted. -/
theorem out_of_continue {cfg : Configuration} {u : Context} {r : Rcpt}
    (h : (u.envelopeRecipient c cfg r).1 = .continue) :
    (cfg.recipient c (strtolower r.address) false).1 ≠ [] ∧
      out c cfg (strtolower r.address) =
        if (cfg.recipient c (strtolower r.address) false).2 = true then
          (cfg.recipient c (strtolower r.address) false).1
        else strtolower r.address := by
  obtain ⟨p, hp⟩ : ∃ p, cfg.recipient c (strtolower r.address) false = p := ⟨_, rfl⟩
  have hne : p.1 ≠ [] := by
    intro hnil
    cases hm : r.mailer <;> simp [Context.envelopeRecipient, hm, hp, hnil] at h
  rw [hp]
  refine ⟨hne, ?_⟩
  simp only [out, hp]
  by_cases hsame : p.1 = strtolower r.address
  · simp [hsame]
  · simp [hne, hsame]

/-- An answer that is accepted is what the domain object found has decided. -/
theorem fate_of_continue {as : List Act} {s : State} {reply : Reply} {l : Lookup} {u : Context}
    (hv : l.Valid s) (hg : ∀ d, d < s.nextDom → Grounded c heap as (s.heap d).domain)
    (h : (u.envelopeRecipient c (l.view s reply) l.rcpt).1 = .continue) :
    Fate c heap as ⟨l.rcpt, l.found.map fun d => (s.heap d).domain,
      out c (l.view s reply) (strtolower l.rcpt.address)⟩ := by
  obtain ⟨hne, hout⟩ := out_of_continue h
  rw [hout]
  rw [Lookup.view_recipient] at hne ⊢
  cases hf : l.found with
  | none =>
      cases Address.parse (strtolower l.rcpt.address) with
      | none => exact .unserved
      | some a => exact .unserved
  | some d =>
      obtain ⟨hlt, a, ha, hname⟩ := hv d hf
      simp only [ha, hf, Option.map_some] at hne ⊢
      cases hr : (s.heap d).domain.recipient c a.origrcpt with
      | none =>
          rw [hr] at hne
          exact absurd rfl hne
      | some t => exact .decided ha hname (hg d hlt) hr

/-! ## Every message -/

/-- What a connection has is what the answers call for.  They are those to the recipients
accepted, and without an object there are none. -/
structure Carries (c : Choices) (heap : Nat → DomainObject) (as : List Act)
    (answers : List Answer) (σ : Session) : Prop where
  accepted : answers.map Answer.rcpt = accepted σ.log
  fate : ∀ e ∈ answers, Fate c heap as e
  none : σ.object = none → answers = []
  some : ∀ u, σ.object = some u → Gathered answers u.containers

namespace Carries

variable {as : List Act} {answers : List Answer} {σ : Session}

theorem mono (h : Carries c heap as answers σ) (a : Act) :
    Carries c heap (as ++ [a]) answers σ :=
  ⟨h.accepted, fun e he => (h.fate e he).mono a, h.none, h.some⟩

/-- The containers of another object that holds the same. -/
theorem of_same (h : Carries c heap as answers σ) {σ' : Session}
    (ho : SameContainers σ.object σ'.object)
    (hlog : Undervest.accepted σ'.log = Undervest.accepted σ.log) :
    Carries c heap as answers σ' := by
  refine ⟨h.accepted.trans hlog.symm, h.fate, fun hn => h.none (ho.1 hn), fun u' hu' => ?_⟩
  rcases ho.2 u' hu' with ⟨u, hu, hc⟩ | ⟨hn, hc⟩
  · rw [hc]
    exact h.some u hu
  · rw [hc, h.none hn]
    exact .new

/-- Nothing was answered yet. -/
theorem begun (hlog : Undervest.accepted σ.log = [])
    (hobj : ∀ u, σ.object = Option.some u → ∃ u₀ : Context, u.containers = u₀.clear) :
    Carries c heap as [] σ := by
  refine ⟨hlog.symm, fun e he => (by cases he), fun _ => rfl, fun u hu => ?_⟩
  obtain ⟨u₀, hu₀⟩ := hobj u hu
  exact hu₀ ▸ .nil u₀

/-- A recipient has been answered. -/
theorem answered {s : State} {reply : Reply} {l : Lookup} {u : ContextObject} {v : Context}
    {status : Sfsistat} {text : Option Reply} {e : Answer} {σ' : Session}
    (hv : l.Valid s) (hg : ∀ d, d < s.nextDom → Grounded c heap as (s.heap d).domain)
    (h : Carries c heap as answers σ) (hu : σ.object = Option.some u)
    (hr : u.containers.envelopeRecipient c (l.view s reply) l.rcpt = (status, text, v))
    (he : e = ⟨l.rcpt, l.found.map fun d => (s.heap d).domain,
      out c (l.view s reply) (strtolower l.rcpt.address)⟩)
    (hobj : σ'.object = Option.some { u with containers := v })
    (hlog : σ'.log = σ.log ++ [.envelopeRecipient l.rcpt status text]) :
    Carries c heap as (answers ++ if status = .continue then [e] else []) σ' := by
  have hrcpt : e.rcpt = l.rcpt := by rw [he]
  have htarget : e.target = out c (l.view s reply) e.address := by
    rw [he]
    rfl
  have hnew := (h.some u hu).envelopeRecipient htarget
  rw [hrcpt, hr] at hnew
  refine ⟨?_, fun e' he' => ?_, fun hn => ?_, fun u' hu' => ?_⟩
  · rw [hlog, accepted_envelopeRecipient, List.map_append, h.accepted]
    split
    next => rw [List.map_singleton, hrcpt]
    next => rfl
  · cases List.mem_append.mp he' with
    | inl hm => exact h.fate e' hm
    | inr hm =>
        split at hm
        next hst =>
            rw [List.mem_singleton.mp hm, he]
            exact fate_of_continue (u := u.containers) hv hg (by rw [hr]; exact hst)
        next => cases hm
  · rw [hobj] at hn
    cases hn
  · rw [hobj] at hu'
    obtain rfl := Option.some.inj hu'
    exact hnew

/-- One turn of a message. -/
theorem turn {s : State} {reply : Nat → Reply} {σ' : Session}
    (hv : ∀ l, σ.lookup = Option.some l → l.Valid s)
    (hg : ∀ d, d < s.nextDom → Grounded c heap as (s.heap d).domain)
    (h : Carries c heap as answers σ) (ht : Turn c s reply σ σ') :
    Carries c heap as (record answers (σ.answer c s reply) σ'.log[σ.log.length]?) σ' := by
  have hevent : ∀ e : Event, (σ.log ++ [e])[σ.log.length]? = Option.some e :=
    fun e => List.getElem?_concat_length
  have hnothing : σ.log[σ.log.length]? = Option.none := List.getElem?_eq_none_iff.mpr le_rfl
  cases ht with
  | crashed =>
      rw [hnothing]
      exact h
  | @begun status o ho =>
      simp only [Session.finish, Option.toList_some, hevent, record]
      refine .begun (by rw [Undervest.accepted, List.foldl_concat]) fun u hu => ?_
      obtain ⟨u₀, -, rfl⟩ := Option.map_eq_some_iff.mp (ho ▸ hu)
      exact ⟨u₀.containers, rfl⟩
  | looked r hu hc =>
      simp only [Session.finish, Option.toList_none, List.append_nil, hnothing, record]
      exact h.of_same (.refl _) rfl
  | @answered l u conf status text v hl hu hc hr =>
      have hanswer : σ.answer c s reply = Option.some ⟨l.rcpt,
          l.found.map fun d => (s.heap d).domain,
          out c (l.view s (reply conf)) (strtolower l.rcpt.address)⟩ := by
        rw [Session.answer, hl, hu, Option.bind_some, hc]
      simp only [Session.finish, Option.toList_some, hevent, hanswer, record_envelopeRecipient]
      exact h.answered (hv l hl) hg hu hr rfl rfl rfl
  | closed status =>
      simp only [Session.finish, Option.toList_some, hevent, record]
      exact .begun (by rw [Undervest.accepted, List.foldl_concat]) fun u hu => by cases hu
  | @noted e o b hn ho =>
      simp only [Session.finish, Option.toList_some, hevent, record_neutral hn]
      exact h.of_same ho (accepted_neutral hn σ.log)

end Carries

/-- A run that keeps the answers of a connection is the run, and the connection carries
them. -/
theorem recorded {reply : Nat → Reply} {as : List ServerAct} {s : ServerState}
    (h : run (ServerState.step c) (ServerState.start heap reply) as = some s) (k : Connection) :
    ∃ answers, run (recordStep c k) (ServerState.start heap reply, []) as = some (s, answers) ∧
      (∀ l, (s.session k).lookup = some l → l.Valid s.shared) ∧
      Carries c heap (threadActs as) answers (s.session k) := by
  refine run_induction (P := fun as s => ∃ answers,
    run (recordStep c k) (ServerState.start heap reply, []) as = some (s, answers) ∧
      (∀ l, (s.session k).lookup = some l → l.Valid s.shared) ∧
      Carries c heap (threadActs as) answers (s.session k)) ?_ (fun as s a s' hr ih hs => ?_) h
  · exact ⟨[], rfl, fun l hl => (by cases hl), .begun rfl fun u hu => by cases hu⟩
  · obtain ⟨answers, hrec, hvalid, hcarries⟩ := ih
    have hstep : recordStep c k (s, answers) a =
        some (s', record answers ((s.session k).answer c s.shared s.reply)
          ((s'.session k).log[(s.session k).log.length]?)) := by
      rw [recordStep, hs]
      rfl
    refine ⟨_, by rw [run_concat, hrec, Option.bind_some, hstep], ?_⟩
    have hnothing : (s.session k).log[(s.session k).log.length]? = none :=
      List.getElem?_eq_none_iff.mpr le_rfl
    cases session_step (ServerState.sound_reachable (Reachable.of_run_start hr)) hs k with
    | @shared b hshared hself =>
        have hacts : threadActs (as ++ [.shared b]) = threadActs as ++ [b] := by
          simp [threadActs, ServerAct.act]
        rw [hself, hacts, hnothing]
        exact ⟨fun l hl => (hvalid l hl).step (wellFormed_shared hr) hshared, hcarries.mono b⟩
    | other hact hk hshared hself =>
        have hacts : threadActs (as ++ [a]) = threadActs as := by simp [threadActs, hact]
        rw [hself, hshared, hacts, hnothing]
        exact ⟨hvalid, hcarries⟩
    | call hact hk hshared hcb =>
        have hacts : threadActs (as ++ [a]) = threadActs as := by simp [threadActs, hact]
        have hturn := turn_of_callback hcb
        rw [hshared, hacts]
        exact ⟨Lookup.Valid.turn (wellFormed_shared hr) hvalid hturn,
          hcarries.turn hvalid (fun d hd => grounded (threads hr) hd) hturn⟩

/-! ## The end of a message -/

namespace Gathered

variable {answers : List Answer} {u : Context} {log : List Event}

/-- The recipients after the actions are the answers, but for an address that was moved. -/
theorem mem_applyActions (h : Gathered answers u) (he : answers.map Answer.rcpt = accepted log)
    (x : Str) :
    x ∈ applyActions (u.endOfMessage c) (atServer log) ↔
      ∃ e ∈ answers, e.target = x ∧ (x = e.address → e.rcpt.inError = true ∨
        ∀ e' ∈ answers, e'.address = x → e'.target = x) := by
  have hserver : x ∈ atServer log ↔ ∃ e ∈ answers, e.rcpt.inError = false ∧ e.address = x := by
    simp only [atServer, ← he, List.mem_toFinset, List.mem_map, List.mem_filter]
    constructor
    · rintro ⟨r, ⟨⟨e, hm, rfl⟩, herr⟩, rfl⟩
      exact ⟨e, hm, by simpa using herr, rfl⟩
    · rintro ⟨e, hm, herr, rfl⟩
      exact ⟨e.rcpt, ⟨⟨e, hm, rfl⟩, by simpa using herr⟩, rfl⟩
  have hkept : x ∉ u.rejected.toList ↔ ∀ e' ∈ answers, e'.address = x → e'.target = x := by
    rw [h.rejected]
    push Not
    rfl
  rw [mem_applyActions_endOfMessage, hserver, hkept, h.added]
  constructor
  · rintro (⟨⟨e, hm, -, haddr⟩, hall⟩ | ⟨e, hm, htarget, hor⟩)
    · exact ⟨e, hm, hall e hm haddr, fun _ => Or.inr hall⟩
    · exact ⟨e, hm, htarget, fun hx => Or.inl (hor.resolve_left fun hne => hne hx)⟩
  · rintro ⟨e, hm, htarget, hor⟩
    by_cases hx : x = e.address
    · cases herr : e.rcpt.inError with
      | true => exact Or.inr ⟨e, hm, htarget, Or.inr herr⟩
      | false =>
          refine Or.inl ⟨⟨e, hm, herr, hx.symm⟩, (hor hx).resolve_left fun ht => ?_⟩
          rw [herr] at ht
          cases ht
    · exact Or.inr ⟨e, hm, htarget, Or.inl hx⟩

/-- An address that was moved is there, whatever else was answered for it. -/
theorem target_mem (h : Gathered answers u) (he : answers.map Answer.rcpt = accepted log)
    {e : Answer} (hm : e ∈ answers) :
    ∃ e' ∈ answers, e'.address = e.address ∧
      e'.target ∈ applyActions (u.endOfMessage c) (atServer log) := by
  by_cases hall : ∀ e' ∈ answers, e'.address = e.address → e'.target = e.address
  · refine ⟨e, hm, rfl, (h.mem_applyActions he _).mpr ⟨e, hm, rfl, fun _ => Or.inr ?_⟩⟩
    rwa [hall e hm rfl]
  · obtain ⟨e', hm', haddr, hne⟩ : ∃ e' ∈ answers, e'.address = e.address ∧
        e'.target ≠ e.address := by
      push Not at hall
      exact hall
    refine ⟨e', hm', haddr, (h.mem_applyActions he _).mpr ⟨e', hm', rfl, fun hx => ?_⟩⟩
    exact absurd (hx.trans haddr) hne

end Gathered

/-- What the callback for the end of a message logs. -/
theorem endOfMessage_log {s s' : ServerState} (hsound : s.memory.Sound) {k : Connection}
    {u : ContextObject} (hu : (s.session k).object = some u)
    (hs : s.step c (.endOfMessage k) = some s') (hc : s'.crashed = false) :
    s'.log k = s.log k ++ [.endOfMessage .continue (u.containers.endOfMessage c)] := by
  obtain ⟨halive, hcases⟩ := server_step_cases hs
  cases hcases with
  | endOfMessage hk =>
      have hconf : u.conf ≠ none := fun hn => by
        have hcr : (s.endOfMessage c k).crashed = true :=
          (ServerState.crashed_map hsound halive).mpr ⟨u, hu, hn⟩
        rw [hcr] at hc
        cases hc
      obtain ⟨conf, hconf⟩ := Option.ne_none_iff_exists'.mp hconf
      have hself := (Changes.call hsound k (.endOfMessage .tempfail [])
        (ContextObject.endOfMessage c)).self
      have hlog := congrArg Session.log hself
      simp only [Session.call, hu, ContextObject.endOfMessage, hconf, Option.map_some,
        Option.elim_some, Session.finish, Option.toList_some] at hlog
      exact hlog

/-- **No recipient is lost and none comes from nowhere**, whatever is refreshed between
the recipients of a message.  The answers are those to the recipients accepted, in order,
and each is what the domain object found has decided.  After the actions the recipients of
the server are the targets of the answers, but for an address that was left alone once and
moved another time: it is only where it was moved.  So every recipient accepted is at the
target of an answer for its address. -/
theorem delivered {heap : Nat → DomainObject} {reply : Nat → Reply} {as : List ServerAct}
    {s s' : ServerState}
    (h : run (ServerState.step c) (ServerState.start heap reply) as = some s) {k : Connection}
    {u : ContextObject} (hu : (s.session k).object = some u)
    (hs : s.step c (.endOfMessage k) = some s') (hc : s'.crashed = false) :
    ∃ answers actions,
      run (recordStep c k) (ServerState.start heap reply, []) as = some (s, answers) ∧
      answers.map Answer.rcpt = accepted (s.log k) ∧
      (∀ e ∈ answers, Fate c heap (threadActs as) e) ∧
      s'.log k = s.log k ++ [.endOfMessage .continue actions] ∧
      (∀ x, x ∈ applyActions actions (atServer (s.log k)) ↔
        ∃ e ∈ answers, e.target = x ∧ (x = e.address → e.rcpt.inError = true ∨
          ∀ e' ∈ answers, e'.address = x → e'.target = x)) ∧
      ∀ e ∈ answers, ∃ e' ∈ answers, e'.address = e.address ∧
        e'.target ∈ applyActions actions (atServer (s.log k)) := by
  obtain ⟨answers, hrec, -, hcarries⟩ := recorded h k
  have hgathered := hcarries.some u hu
  exact ⟨answers, _, hrec, hcarries.accepted, hcarries.fate,
    endOfMessage_log (ServerState.sound_reachable (.of_run_start h)) hu hs hc,
    hgathered.mem_applyActions hcarries.accepted, fun e hm =>
      hgathered.target_mem hcarries.accepted hm⟩

open Conversation in
theorem delivered_sample :
    ∃ s s', after (Overtaken.reload.map .shared ++ (letter 1 (str "John@a")).dropLast) = some s ∧
      ServerState.step .canonical s (.endOfMessage 1) = some s' ∧
      ∃ (answers : List Answer) (actions : List Action),
        s'.log 1 = s.log 1 ++ [.endOfMessage .continue actions] ∧
        ∀ x, x ∈ applyActions actions (atServer (s.log 1)) ↔
          ∃ e ∈ answers, e.target = x ∧ (x = e.address → e.rcpt.inError = true ∨
            ∀ e' ∈ answers, e'.address = x → e'.target = x) := by
  have hrun : (after (Overtaken.reload.map .shared ++ (letter 1 (str "John@a")).dropLast)).map
      (fun s => (s.session 1).object.isSome &&
        ((ServerState.step .canonical s (.endOfMessage 1)).map
          fun s' => s'.crashed) == some false) = some true := by decide +kernel
  obtain ⟨s, hs, hp⟩ := Option.map_eq_some_iff.mp hrun
  rw [Bool.and_eq_true, beq_iff_eq] at hp
  obtain ⟨u, hu⟩ := Option.isSome_iff_exists.mp hp.1
  obtain ⟨s', hs', hc⟩ := Option.map_eq_some_iff.mp hp.2
  obtain ⟨answers, actions, -, -, -, hlog, hmem, -⟩ := delivered hs hu hs' hc
  exact ⟨s, s', hs, hs', answers, actions, hlog, hmem⟩

end Undervest
