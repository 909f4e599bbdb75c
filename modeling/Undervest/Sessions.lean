import Undervest.Contexts

/-!
# Connections by themselves

A connection has its context object, the callback in progress and its log.  `Session` is
that without addresses, and `Dialogue` a session with the two threads.

The service is any number of dialogues over the same threads.  What a callback does in
the service is what it does in the dialogue of its connection, and no other dialogue sees
it (`dialogues`).  So two runs in which a connection has the same callbacks at the same
steps of the threads end alike for it, whatever the other connections do (`isolated`).
-/

namespace Undervest

open Unordered Transition

/-! ## Sessions -/

/-- What a connection has. -/
structure Session where
  object : Option ContextObject
  lookup : Option Lookup
  log : List Event
  connected : Bool

namespace Session

def obtain (σ : Session) (o : Creation) : Session :=
  match σ.object, o with
  | none, .succeeds => { σ with object := some .new }
  | _, _ => σ

def finish (σ : Session) (l : Option Lookup) (e : Option Event) : Session :=
  { σ with lookup := l, log := σ.log ++ e.toList }

/-- Without a result of the method the session stays as it is. -/
def call (σ : Session) (failure : Event) (method : ContextObject → Option Effect) : Session :=
  match σ.object with
  | none => σ.finish none (some failure)
  | some u => (method u).elim σ fun e => { σ with object := some e.object }.finish e.lookup e.event

/-- There is no object, or the process ends, or the method returns. -/
theorem call_cases (σ : Session) (failure : Event) (method : ContextObject → Option Effect) :
    (σ.object = none ∧ σ.call failure method = σ.finish none (some failure)) ∨
      (∃ u, σ.object = some u ∧ method u = none ∧ σ.call failure method = σ) ∨
      ∃ u e, σ.object = some u ∧ method u = some e ∧
        σ.call failure method = { σ with object := some e.object }.finish e.lookup e.event := by
  unfold call
  split
  next hu => exact Or.inl ⟨hu, rfl⟩
  next u hu =>
      cases hm : method u with
      | none => exact Or.inr (Or.inl ⟨u, hu, hm, rfl⟩)
      | some e => exact Or.inr (Or.inr ⟨u, e, hu, hm, rfl⟩)

/-- A callback of the connection. -/
def callback (c : Choices) (s : State) (reply : Nat → Reply) (σ : Session) :
    ServerAct → Option Session
  | .shared _ => none
  | .negotiate _ o =>
      if σ.lookup = none ∧ s.conf ≠ none then
        some ((σ.obtain o).call (.negotiate .tempfail) ContextObject.negotiate)
      else none
  | .connect _ o =>
      if σ.lookup = none ∧ s.conf ≠ none then
        some { (σ.obtain o).call (.connect .tempfail) (ContextObject.connect s.conf) with
          connected := true }
      else none
  | .envelopeFrom _ =>
      if σ.lookup = none ∧ s.conf ≠ none then
        some (σ.call (.envelopeFrom .tempfail) ContextObject.envelopeFrom)
      else none
  | .envelopeRecipient _ r =>
      if σ.lookup = none ∧ s.conf ≠ none then
        some (σ.call (.envelopeRecipient r .tempfail none) (ContextObject.envelopeRecipient s r))
      else none
  | .answer _ =>
      σ.lookup.map fun l =>
        σ.call (.envelopeRecipient l.rcpt .tempfail none) (ContextObject.answer c s reply l)
  | .endOfMessage _ =>
      if σ.lookup = none ∧ s.conf ≠ none then
        some (σ.call (.endOfMessage .tempfail []) (ContextObject.endOfMessage c))
      else none
  | .abort _ =>
      if σ.lookup = none ∧ s.conf ≠ none then some (σ.call (.abort .tempfail) ContextObject.abort)
      else none
  | .close _ =>
      if σ.lookup = none ∧ s.conf ≠ none then
        some { σ.call (.close .tempfail) ContextObject.close with
          object := none, connected := false }
      else none

end Session

/-- One constructor for each callback. -/
inductive Callback (c : Choices) (s : State) (reply : Nat → Reply) (σ : Session) :
    ServerAct → Session → Prop where
  | negotiate {k : Connection} {o : Creation} (hl : σ.lookup = none) :
      Callback c s reply σ (.negotiate k o)
        ((σ.obtain o).call (.negotiate .tempfail) ContextObject.negotiate)
  | connect {k : Connection} {o : Creation} (hl : σ.lookup = none) (hc : s.conf ≠ none) :
      Callback c s reply σ (.connect k o)
        { (σ.obtain o).call (.connect .tempfail) (ContextObject.connect s.conf) with
          connected := true }
  | envelopeFrom {k : Connection} (hl : σ.lookup = none) :
      Callback c s reply σ (.envelopeFrom k)
        (σ.call (.envelopeFrom .tempfail) ContextObject.envelopeFrom)
  | envelopeRecipient {k : Connection} {r : Rcpt} (hl : σ.lookup = none) :
      Callback c s reply σ (.envelopeRecipient k r)
        (σ.call (.envelopeRecipient r .tempfail none) (ContextObject.envelopeRecipient s r))
  | answer {k : Connection} {l : Lookup} (hl : σ.lookup = some l) :
      Callback c s reply σ (.answer k)
        (σ.call (.envelopeRecipient l.rcpt .tempfail none) (ContextObject.answer c s reply l))
  | endOfMessage {k : Connection} (hl : σ.lookup = none) :
      Callback c s reply σ (.endOfMessage k)
        (σ.call (.endOfMessage .tempfail []) (ContextObject.endOfMessage c))
  | abort {k : Connection} (hl : σ.lookup = none) :
      Callback c s reply σ (.abort k) (σ.call (.abort .tempfail) ContextObject.abort)
  | close {k : Connection} (hl : σ.lookup = none) :
      Callback c s reply σ (.close k)
        { σ.call (.close .tempfail) ContextObject.close with object := none, connected := false }

theorem callback_cases {c : Choices} {s : State} {reply : Nat → Reply} {σ σ' : Session}
    {a : ServerAct} (h : σ.callback c s reply a = some σ') : Callback c s reply σ a σ' := by
  have hite : ∀ {p : Prop} [Decidable p] {x : Session},
      (if p then some x else none) = some σ' → p ∧ x = σ' := by
    intro p _ x hx
    obtain ⟨hp, he⟩ := Option.ite_none_right_eq_some.mp hx
    exact ⟨hp, Option.some.inj he⟩
  cases a with
  | shared a => cases h
  | negotiate k o =>
      obtain ⟨hk, rfl⟩ := hite h
      exact .negotiate hk.1
  | connect k o =>
      obtain ⟨hk, rfl⟩ := hite h
      exact .connect hk.1 hk.2
  | envelopeFrom k =>
      obtain ⟨hk, rfl⟩ := hite h
      exact .envelopeFrom hk.1
  | envelopeRecipient k r =>
      obtain ⟨hk, rfl⟩ := hite h
      exact .envelopeRecipient hk.1
  | answer k =>
      obtain ⟨l, hl, rfl⟩ := Option.map_eq_some_iff.mp h
      exact .answer hl
  | endOfMessage k =>
      obtain ⟨hk, rfl⟩ := hite h
      exact .endOfMessage hk.1
  | abort k =>
      obtain ⟨hk, rfl⟩ := hite h
      exact .abort hk.1
  | close k =>
      obtain ⟨hk, rfl⟩ := hite h
      exact .close hk.1

/-- A connection and the two threads. -/
structure Dialogue where
  shared : State
  reply : Nat → Reply
  session : Session

def Dialogue.step (c : Choices) (d : Dialogue) : ServerAct → Option Dialogue
  | .shared a => (d.shared.step c a).map fun shared =>
      { d with shared, reply := ServerState.replyAfter d.shared d.reply a }
  | a => (d.session.callback c d.shared d.reply a).map fun session => { d with session }

def Dialogue.start (heap : Nat → DomainObject) (reply : Nat → Reply) : Dialogue :=
  ⟨State.start heap, reply, ⟨none, none, [], false⟩⟩

namespace ServerState

/-- The session of a connection. -/
def session (s : ServerState) (k : Connection) : Session :=
  ⟨s.memory.find k, s.lookup k, s.log k, s.connected k⟩

def dialogue (s : ServerState) (k : Connection) : Dialogue := ⟨s.shared, s.reply, s.session k⟩

end ServerState

/-! ## What the callbacks do to the sessions -/

/-- The session of a connection changes by `f`, and nothing else that a connection can
see. -/
structure Changes (k : Connection) (f : Session → Session) (s s' : ServerState) : Prop where
  shared : s'.shared = s.shared
  reply : s'.reply = s.reply
  self : s'.session k = f (s.session k)
  others : ∀ k', k' ≠ k → s'.session k' = s.session k'

namespace Changes

variable {s s' s'' : ServerState} {k : Connection} {f g : Session → Session}

theorem trans (h : Changes k f s s') (h' : Changes k g s' s'') :
    Changes k (fun σ => g (f σ)) s s'' :=
  ⟨h'.shared.trans h.shared, h'.reply.trans h.reply, by rw [h'.self, h.self],
    fun k' hne => (h'.others k' hne).trans (h.others k' hne)⟩

theorem obtain (h : s.memory.Sound) (k : Connection) (o : Creation) :
    Changes k (fun σ => σ.obtain o) s (s.obtain k o) := by
  unfold ServerState.obtain
  split
  next hk =>
      refine ⟨rfl, rfl, ?_, fun k' hne => ?_⟩
      · simp [ServerState.session, Session.obtain, h.find_eq_none.mpr hk, Handles.find_create]
      · simp only [ServerState.session, h.find_create_of_ne _ hne]
  next hk =>
      refine ⟨rfl, rfl, ?_, fun k' hne => ?_⟩
      · simp [ServerState.session, Session.obtain, h.find_eq_none.mpr hk, h.find_lose]
      · simp only [ServerState.session, h.find_lose]
  next o hne hfail =>
      refine ⟨rfl, rfl, ?_, fun k' hne => rfl⟩
      unfold Session.obtain
      split
      next hn => exact absurd (h.find_eq_none.mp hn) fun hk => hne hk rfl
      next => rfl

theorem call (h : s.memory.Sound) (k : Connection) (failure : Event)
    (method : ContextObject → Option Effect) :
    Changes k (fun σ => σ.call failure method) s (s.call k failure method) := by
  unfold ServerState.call
  split
  next hk =>
      have hf : s.memory.find k = none := h.find_eq_none.mpr hk
      refine ⟨rfl, rfl, ?_, fun k' hne => ?_⟩
      · simp [ServerState.session, Session.call, hf, ServerState.finish, Session.finish]
      · simp [ServerState.session, ServerState.finish, Function.update_of_ne hne]
  next a hk =>
      obtain ⟨u, hu⟩ := h.live k a hk
      have hf : s.memory.find k = some u := by rw [Handles.find, hk, Option.bind_some, hu]
      rw [hu, Option.bind_some]
      split
      next hm =>
          exact ⟨rfl, rfl, by simp [ServerState.session, Session.call, hf, hm], fun k' _ => rfl⟩
      next e hm =>
          refine ⟨rfl, rfl, ?_, fun k' hne => ?_⟩
          · simp [ServerState.session, Session.call, hf, hm, ServerState.finish, Session.finish,
              Handles.find_write hk]
          · simp [ServerState.session, ServerState.finish, Function.update_of_ne hne,
              h.find_write_of_ne hk _ hne]

theorem mark (s : ServerState) (k : Connection) (b : Bool) :
    Changes k (fun σ => { σ with connected := b }) s
      { s with connected := Function.update s.connected k b } :=
  ⟨rfl, rfl, by simp [ServerState.session],
    fun k' hne => by simp [ServerState.session, Function.update_of_ne hne]⟩

theorem release (h : s.memory.Sound) (k : Connection) :
    Changes k (fun σ => { σ with object := none }) s { s with memory := s.memory.release k } :=
  ⟨rfl, rfl, by simp [ServerState.session, Handles.find_release],
    fun k' hne => by simp [ServerState.session, h.find_release_of_ne hne]⟩

end Changes

/-- **A callback is one of its session.** -/
theorem changes_of_callback {c : Choices} {s s' : ServerState} {a : ServerAct} {k : Connection}
    (h : s.memory.Sound) (hs : ServerStep c s a s') (ha : a.connection = some k) :
    ∃ f, Changes k f s s' ∧
      (s.session k).callback c s.shared s.reply a = some (f (s.session k)) := by
  cases hs with
  | shared hstep => cases ha
  | negotiate hk =>
      cases ha
      exact ⟨_, (Changes.obtain h k _).trans (.call (s.sound_obtain h k _) k _ _), if_pos hk⟩
  | connect hk =>
      cases ha
      exact ⟨_, ((Changes.obtain h k _).trans (.call (s.sound_obtain h k _) k _ _)).trans
        (.mark _ k true), if_pos hk⟩
  | envelopeFrom hk =>
      cases ha
      exact ⟨_, .call h k _ _, if_pos hk⟩
  | envelopeRecipient hk =>
      cases ha
      exact ⟨_, .call h k _ _, if_pos hk⟩
  | answer hl =>
      cases ha
      exact ⟨_, .call h k _ _, congrArg (Option.map _) hl⟩
  | endOfMessage hk =>
      cases ha
      exact ⟨_, .call h k _ _, if_pos hk⟩
  | abort hk =>
      cases ha
      exact ⟨_, .call h k _ _, if_pos hk⟩
  | close hk =>
      cases ha
      exact ⟨_, ((Changes.call h k _ _).trans (.release (s.sound_call h k _ _) k)).trans
        (.mark _ k false), if_pos hk⟩

/-! ## Dialogues -/

/-- An action of a connection or of the threads. -/
def ServerAct.concerns (k : Connection) (a : ServerAct) : Bool := a.connection.all (· = k)

/-- The service is a dialogue for every connection. -/
def dialogueOf (c : Choices) (k : Connection) :
    Simulation (ServerState.step c) (Dialogue.step c) fun s => s.memory.Sound where
  state s := s.dialogue k
  action _ a := Option.guard (ServerAct.concerns k) a
  step_eq s a s' h hs := by
    have hcases := (server_step_cases hs).2
    cases hconn : a.connection with
    | none =>
        have hk : ServerAct.concerns k a = true := by rw [ServerAct.concerns, hconn]; rfl
        rw [Option.guard, if_pos hk]
        cases hcases with
        | shared hstep =>
            change Option.map _ (s.shared.step c _) = some _
            rw [hstep, Option.map_some]
            rfl
        | _ => cases hconn
    | some k' =>
        obtain ⟨f, hf, hcall⟩ := changes_of_callback h hcases hconn
        by_cases hkk : k = k'
        · subst hkk
          have hk : ServerAct.concerns k a = true := by simp [ServerAct.concerns, hconn]
          rw [Option.guard, if_pos hk]
          have hstep : Dialogue.step c (s.dialogue k) a =
              ((s.session k).callback c s.shared s.reply a).map fun session =>
                { s.dialogue k with session } := by
            cases a with
            | shared a => cases hconn
            | _ => rfl
          change Dialogue.step c (s.dialogue k) a = some (s'.dialogue k)
          rw [hstep, hcall, Option.map_some, ← hf.self]
          simp only [ServerState.dialogue, hf.shared, hf.reply]
        · have hk : ¬ ServerAct.concerns k a = true := by
            simp [ServerAct.concerns, hconn, eq_comm, hkk]
          rw [Option.guard, if_neg hk]
          simp only [ServerState.dialogue, hf.shared, hf.reply, hf.others k hkk]

/-- **A run of the service is a run of each dialogue.**  It goes without the actions of
the other connections. -/
theorem dialogues {c : Choices} {heap : Nat → DomainObject} {reply : Nat → Reply}
    {as : List ServerAct} {s : ServerState}
    (h : run (ServerState.step c) (ServerState.start heap reply) as = some s) (k : Connection) :
    run (Dialogue.step c) (Dialogue.start heap reply) (as.filter (ServerAct.concerns k)) =
      some (s.dialogue k) := by
  have hrun := (dialogueOf c k).run_trace (fun _ _ _ hs hstep => ServerState.sound_step hs hstep)
    as Handles.sound_empty h
  rw [(dialogueOf c k).trace_eq_filterMap (fun _ _ => rfl) as h, List.filterMap_eq_filter] at hrun
  exact hrun

/-- The callbacks do not get in the way of the threads. -/
def threadsOf (c : Choices) :
    Simulation (ServerState.step c) (State.step c) fun s => s.memory.Sound where
  state s := s.shared
  action _ a := a.act
  step_eq s a s' h hs := by
    have hcases := (server_step_cases hs).2
    cases hconn : a.connection with
    | none =>
        cases hcases with
        | shared hstep => exact hstep
        | _ => cases hconn
    | some k =>
        obtain ⟨f, hf, -⟩ := changes_of_callback h hcases hconn
        have hact : a.act = none := by cases a <;> first | rfl | cases hconn
        rw [hact]
        exact hf.shared

/-- The actions of the threads in a run. -/
def threadActs (as : List ServerAct) : List Act := as.filterMap ServerAct.act

theorem threads {c : Choices} {heap : Nat → DomainObject} {reply : Nat → Reply}
    {as : List ServerAct} {s : ServerState}
    (h : run (ServerState.step c) (ServerState.start heap reply) as = some s) :
    run (State.step c) (State.start heap) (threadActs as) = some s.shared := by
  have hrun := (threadsOf c).run_trace (fun _ _ _ hs hstep => ServerState.sound_step hs hstep)
    as Handles.sound_empty h
  rwa [(threadsOf c).trace_eq_filterMap (fun _ _ => rfl) as h] at hrun

theorem wellFormed_shared {c : Choices} {heap : Nat → DomainObject} {reply : Nat → Reply}
    {as : List ServerAct} {s : ServerState}
    (h : run (ServerState.step c) (ServerState.start heap reply) as = some s) :
    WellFormed s.shared :=
  wellFormed_reachable (.of_run_start (threads h))

/-- What a step is for one connection. -/
inductive SessionStep (c : Choices) (k : Connection) (s s' : ServerState) : ServerAct → Prop where
  | shared {a : Act} (hstep : s.shared.step c a = some s'.shared)
      (hself : s'.session k = s.session k) : SessionStep c k s s' (.shared a)
  | other {a : ServerAct} (hact : a.act = none) (hk : a.connection ≠ some k)
      (hshared : s'.shared = s.shared) (hself : s'.session k = s.session k) :
      SessionStep c k s s' a
  | call {a : ServerAct} (hact : a.act = none) (hk : a.connection = some k)
      (hshared : s'.shared = s.shared)
      (hcb : Callback c s.shared s.reply (s.session k) a (s'.session k)) : SessionStep c k s s' a

/-- A step of a thread changes what is shared, a callback of the connection its session,
and any other action neither. -/
theorem session_step {c : Choices} {s s' : ServerState} {a : ServerAct} (h : s.memory.Sound)
    (hs : s.step c a = some s') (k : Connection) : SessionStep c k s s' a := by
  have hcases := (server_step_cases hs).2
  cases hconn : a.connection with
  | none =>
      cases hcases with
      | shared hstep => exact .shared hstep rfl
      | _ => cases hconn
  | some k' =>
      obtain ⟨f, hf, hcb⟩ := changes_of_callback h hcases hconn
      have hact : a.act = none := by cases a <;> first | rfl | cases hconn
      by_cases hk : k = k'
      · subst hk
        exact .call hact hconn hf.shared (hf.self ▸ callback_cases hcb)
      · refine .other hact (fun e => hk ?_) hf.shared (hf.others k hk)
        exact (Option.some.inj (hconn.symm.trans e)).symm

/-- **Induction over the actions of a run, for one connection.** -/
theorem session_induction {c : Choices} {heap : Nat → DomainObject} {reply : Nat → Reply}
    {k : Connection} {P : List ServerAct → State → Session → Prop}
    (h₀ : P [] (State.start heap) ⟨none, none, [], false⟩)
    (hshared : ∀ as (s : ServerState) a shared,
      run (ServerState.step c) (ServerState.start heap reply) as = some s →
      P as s.shared (s.session k) → s.shared.step c a = some shared →
      P (as ++ [.shared a]) shared (s.session k))
    (hother : ∀ as (s : ServerState) (a : ServerAct), a.act = none → a.connection ≠ some k →
      P as s.shared (s.session k) → P (as ++ [a]) s.shared (s.session k))
    (hcall : ∀ as (s : ServerState) (a : ServerAct) σ,
      run (ServerState.step c) (ServerState.start heap reply) as = some s →
      a.act = none → a.connection = some k → P as s.shared (s.session k) →
      Callback c s.shared s.reply (s.session k) a σ → P (as ++ [a]) s.shared σ)
    {as : List ServerAct} {s : ServerState}
    (h : run (ServerState.step c) (ServerState.start heap reply) as = some s) :
    P as s.shared (s.session k) := by
  refine run_induction (P := fun as s => P as s.shared (s.session k)) h₀
    (fun as s a s' hr ih hs => ?_) h
  cases session_step (ServerState.sound_reachable (Reachable.of_run_start hr)) hs k with
  | shared hstep hself => exact hself ▸ hshared as s _ _ hr ih hstep
  | other hact hk hshared' hself => exact hshared' ▸ hself ▸ hother as s a hact hk ih
  | call hact hk hshared' hcb => exact hshared' ▸ hcall as s a _ hr hact hk ih hcb

/-- **A connection does not see the others.**  Two runs with the same steps of the threads
and the same callbacks of a connection end alike for it. -/
theorem isolated {c : Choices} {heap : Nat → DomainObject} {reply : Nat → Reply}
    {as as' : List ServerAct} {s s' : ServerState} {k : Connection}
    (h : run (ServerState.step c) (ServerState.start heap reply) as = some s)
    (h' : run (ServerState.step c) (ServerState.start heap reply) as' = some s')
    (hk : as.filter (ServerAct.concerns k) = as'.filter (ServerAct.concerns k)) :
    s.shared = s'.shared ∧ s.reply = s'.reply ∧ s.session k = s'.session k := by
  have hd := dialogues h k
  rw [hk, dialogues h' k] at hd
  obtain heq := Option.some.inj hd
  exact ⟨(congrArg Dialogue.shared heq).symm, (congrArg Dialogue.reply heq).symm,
    (congrArg Dialogue.session heq).symm⟩

open Conversation in
/-- The first connection ends as it does without the second. -/
theorem isolated_sample :
    ∃ s s', after acts = some s ∧ after (acts.filter (ServerAct.concerns 1)) = some s' ∧
      s.session 1 = s'.session 1 := by
  have hrun : (after acts).isSome = true ∧
      (after (acts.filter (ServerAct.concerns 1))).isSome = true := by decide +kernel
  obtain ⟨s, hs⟩ := Option.isSome_iff_exists.mp hrun.1
  obtain ⟨s', hs'⟩ := Option.isSome_iff_exists.mp hrun.2
  exact ⟨s, s', hs, hs', (isolated hs hs' (by simp [List.filter_filter])).2.2⟩

end Undervest
