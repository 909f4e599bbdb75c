import Undervest.Server
import Undervest.Lib.Simulation

/-!
# Context objects

A private pointer is set when the object is created and cleared before it is deleted, and
both happen in callbacks of the same connection.  So a pointer never outlives its object,
and no two connections share one, in any order of the callbacks (`memory_safe`).

When `smfi_setpriv` fails the new object stays behind, and nobody deletes it.  No other
failure loses an object.
-/

namespace Undervest

open Unordered Transition

/-! ## The steps as a relation -/

/-- One constructor for each action. -/
inductive ServerStep (c : Choices) (s : ServerState) : ServerAct → ServerState → Prop where
  | shared {a : Act} {shared : State} (h : s.shared.step c a = some shared) :
      ServerStep c s (.shared a)
        { s with shared, reply := ServerState.replyAfter s.shared s.reply a }
  | negotiate {k : Connection} {o : Creation} (hk : s.Ready k) :
      ServerStep c s (.negotiate k o) (s.negotiate k o)
  | connect {k : Connection} {o : Creation} (hk : s.Ready k) :
      ServerStep c s (.connect k o) (s.connect k o)
  | envelopeFrom {k : Connection} (hk : s.Ready k) :
      ServerStep c s (.envelopeFrom k) (s.envelopeFrom k)
  | envelopeRecipient {k : Connection} {r : Rcpt} (hk : s.Ready k) :
      ServerStep c s (.envelopeRecipient k r) (s.envelopeRecipient k r)
  | answer {k : Connection} {l : Lookup} (hl : s.lookup k = some l) :
      ServerStep c s (.answer k) (s.answer c k l)
  | endOfMessage {k : Connection} (hk : s.Ready k) :
      ServerStep c s (.endOfMessage k) (s.endOfMessage c k)
  | abort {k : Connection} (hk : s.Ready k) : ServerStep c s (.abort k) (s.abort k)
  | close {k : Connection} (hk : s.Ready k) : ServerStep c s (.close k) (s.close k)

/-- A step does one of these things, and the process was alive before it. -/
theorem server_step_cases {c : Choices} {s s' : ServerState} {a : ServerAct}
    (h : s.step c a = some s') : s.crashed = false ∧ ServerStep c s a s' := by
  unfold ServerState.step at h
  split at h
  next => cases h
  next hc =>
      refine ⟨by simpa using hc, ?_⟩
      cases a with
      | shared a =>
          obtain ⟨shared, hs, rfl⟩ := Option.map_eq_some_iff.mp h
          exact .shared hs
      | answer k =>
          obtain ⟨l, hl, rfl⟩ := Option.map_eq_some_iff.mp h
          exact .answer hl
      | negotiate k o =>
          obtain ⟨hk, he⟩ := Option.ite_none_right_eq_some.mp h
          obtain rfl := Option.some.inj he
          exact .negotiate hk
      | connect k o =>
          obtain ⟨hk, he⟩ := Option.ite_none_right_eq_some.mp h
          obtain rfl := Option.some.inj he
          exact .connect hk
      | envelopeFrom k =>
          obtain ⟨hk, he⟩ := Option.ite_none_right_eq_some.mp h
          obtain rfl := Option.some.inj he
          exact .envelopeFrom hk
      | envelopeRecipient k r =>
          obtain ⟨hk, he⟩ := Option.ite_none_right_eq_some.mp h
          obtain rfl := Option.some.inj he
          exact .envelopeRecipient hk
      | endOfMessage k =>
          obtain ⟨hk, he⟩ := Option.ite_none_right_eq_some.mp h
          obtain rfl := Option.some.inj he
          exact .endOfMessage hk
      | abort k =>
          obtain ⟨hk, he⟩ := Option.ite_none_right_eq_some.mp h
          obtain rfl := Option.some.inj he
          exact .abort hk
      | close k =>
          obtain ⟨hk, he⟩ := Option.ite_none_right_eq_some.mp h
          obtain rfl := Option.some.inj he
          exact .close hk

/-! ## The context objects -/

namespace ServerState

variable {s : ServerState}

theorem sound_obtain (h : s.memory.Sound) (k : Connection) (o : Creation) :
    (s.obtain k o).memory.Sound := by
  unfold obtain
  split
  next hk => exact h.create hk _
  next => exact h.lose _
  next => exact h

theorem sound_call (h : s.memory.Sound) (k : Connection) (failure : Event)
    (method : ContextObject → Option Effect) : (s.call k failure method).memory.Sound := by
  unfold call
  split
  next => exact h
  next a hk =>
      obtain ⟨u, hu⟩ := h.live k a hk
      split
      next => exact h
      next => exact h.write hu _

theorem sound_step {c : Choices} {s' : ServerState} {a : ServerAct} (h : s.memory.Sound)
    (hs : s.step c a = some s') : s'.memory.Sound := by
  cases (server_step_cases hs).2 with
  | shared h' => exact h
  | negotiate hk => exact sound_call (sound_obtain h _ _) _ _ _
  | connect hk => exact sound_call (sound_obtain h _ _) _ _ _
  | envelopeFrom hk => exact sound_call h _ _ _
  | envelopeRecipient hk => exact sound_call h _ _ _
  | answer hl => exact sound_call h _ _ _
  | endOfMessage hk => exact sound_call h _ _ _
  | abort hk => exact sound_call h _ _ _
  | close hk => exact (sound_call h _ _ _).release _

/-- **The context objects are sound in every reachable state.** -/
theorem sound_reachable {c : Choices} {heap : Nat → DomainObject} {reply : Nat → Reply}
    {ok : ServerState → ServerAct → Prop} (h : Reachable (step c) ok (start heap reply) s) :
    s.memory.Sound :=
  h.invariant (P := fun s => s.memory.Sound) Handles.sound_empty
    fun _ _ _ hs _ hstep => sound_step hs hstep

theorem ages_obtain (s : ServerState) (k : Connection) (o : Creation) :
    s.memory.Ages (s.obtain k o).memory := by
  unfold obtain
  split
  next => exact .create _ _ _
  next => exact .lose _ _
  next => exact .refl _

theorem ages_call (s : ServerState) (k : Connection) (failure : Event)
    (method : ContextObject → Option Effect) : s.memory.Ages (s.call k failure method).memory := by
  unfold call
  split
  next => exact .refl _
  next a hk =>
      split
      next => exact .refl _
      next e he =>
          obtain ⟨u, hu, -⟩ := Option.bind_eq_some_iff.mp he
          exact .write hu _

theorem ages_step {c : Choices} {s' : ServerState} {a : ServerAct}
    (hs : s.step c a = some s') : s.memory.Ages s'.memory := by
  cases (server_step_cases hs).2 with
  | shared h' => exact .refl _
  | negotiate hk => exact (ages_obtain s _ _).trans (ages_call _ _ _ _)
  | connect hk => exact (ages_obtain s _ _).trans (ages_call _ _ _ _)
  | envelopeFrom hk => exact ages_call s _ _ _
  | envelopeRecipient hk => exact ages_call s _ _ _
  | answer hl => exact ages_call s _ _ _
  | endOfMessage hk => exact ages_call s _ _ _
  | abort hk => exact ages_call s _ _ _
  | close hk => exact (ages_call s _ _ _).trans (.release _ _)

/-- Objects are lost when `smfi_setpriv` fails. -/
theorem lost_obtain (s : ServerState) (k : Connection) {o : Creation} (ho : o ≠ .setprivFails) :
    (s.obtain k o).memory.lost = s.memory.lost := by
  unfold obtain
  split
  next => rfl
  next => exact absurd rfl ho
  next => rfl

theorem lost_call (s : ServerState) (k : Connection) (failure : Event)
    (method : ContextObject → Option Effect) :
    (s.call k failure method).memory.lost = s.memory.lost := by
  unfold call
  split
  next => rfl
  next => split <;> rfl

theorem lost_step {c : Choices} {s' : ServerState} {a : ServerAct}
    (hs : s.step c a = some s') (ha : a.creation ≠ some .setprivFails) :
    s'.memory.lost = s.memory.lost := by
  cases (server_step_cases hs).2 with
  | shared h' => rfl
  | negotiate hk =>
      exact (lost_call _ _ _ _).trans (lost_obtain s _ fun e => ha (congrArg some e))
  | connect hk =>
      exact (lost_call _ _ _ _).trans (lost_obtain s _ fun e => ha (congrArg some e))
  | envelopeFrom hk => exact lost_call s _ _ _
  | envelopeRecipient hk => exact lost_call s _ _ _
  | answer hl => exact lost_call s _ _ _
  | endOfMessage hk => exact lost_call s _ _ _
  | abort hk => exact lost_call s _ _ _
  | close hk => exact (Handles.lost_release _ _).trans (lost_call s _ _ _)

end ServerState

/-- **The context objects are safe in every run.**  A private pointer points to an object
that has not been deleted, and no other pointer points there.  An object that has been
deleted never comes back.  Unless `smfi_setpriv` fails every object belongs to an open
connection. -/
theorem memory_safe {c : Choices} {heap : Nat → DomainObject} {reply : Nat → Reply}
    {as : List ServerAct} {s : ServerState}
    (h : run (ServerState.step c) (ServerState.start heap reply) as = some s) :
    (∀ k a, s.memory.handle k = some a →
      (∃ u, s.memory.object a = some u) ∧ ∀ k', s.memory.handle k' = some a → k' = k) ∧
    (∀ bs s', run (ServerState.step c) s bs = some s' →
      ∀ a, a < s.memory.next → s.memory.object a = none → s'.memory.object a = none) ∧
    ((∀ a ∈ as, a.creation ≠ some .setprivFails) →
      ∀ a u, s.memory.object a = some u → ∃ k, s.memory.handle k = some a) := by
  have hsound := ServerState.sound_reachable (.of_run_start h)
  refine ⟨fun k a hk => ⟨hsound.live k a hk, fun k' hk' => hsound.apart k' k a hk' hk⟩,
    fun bs s' hr a ha hd => ?_, fun hok a u hu => ?_⟩
  · have hages := (Reachable.of_run_start hr).invariant (P := fun s' => s.memory.Ages s'.memory)
      (.refl _) fun _ _ _ hs _ hstep => hs.trans (ServerState.ages_step hstep)
    exact hages.dead a ha hd
  · have hlost : ∀ {as s}, run (ServerState.step c) (ServerState.start heap reply) as = some s →
        (∀ a ∈ as, a.creation ≠ some .setprivFails) → s.memory.lost = [] := by
      intro as s hr
      refine run_induction (P := fun as s => (∀ a ∈ as, a.creation ≠ some .setprivFails) →
        s.memory.lost = []) (fun _ => rfl) (fun as s a s' _ ih hstep hok => ?_) hr
      rw [ServerState.lost_step hstep (hok a (by simp))]
      exact ih fun b hb => hok b (List.mem_append_left _ hb)
    refine (hsound.owned a u hu).resolve_left fun hl => ?_
    rw [hlost h hok] at hl
    cases hl

namespace Conversation

def rcpt (address : Str) : Rcpt := ⟨address, [], some (str "local")⟩

/-- A connection with a message to one recipient, up to the end of the message. -/
def letter (k : Connection) (address : Str) : List ServerAct :=
  [.negotiate k .succeeds, .connect k .succeeds, .envelopeFrom k,
    .envelopeRecipient k (rcpt address), .answer k, .endOfMessage k]

/-- Two connections after a reload, the second of which is closed. -/
def acts : List ServerAct :=
  Overtaken.reload.map .shared ++ letter 1 (str "john@a") ++ letter 2 (str "jane@b") ++ [.close 2]

def reply (_conf : Nat) : Reply := ⟨550, str "5.1.1", str "User unknown"⟩

/-- The state after a run, for a test of it. -/
def after (as : List ServerAct) : Option ServerState :=
  run (ServerState.step .canonical) (ServerState.start Overtaken.heap reply) as

end Conversation

open Conversation in
theorem memory_safe_sample :
    ∃ s, after acts = some s ∧ s.memory.handle 2 = none ∧
      ∀ a u, s.memory.object a = some u → ∃ k, s.memory.handle k = some a := by
  have hrun : (after acts).map (fun s => decide (s.memory.handle 2 = none)) = some true := by
    decide +kernel
  obtain ⟨s, hs, hk⟩ := Option.map_eq_some_iff.mp hrun
  refine ⟨s, hs, of_decide_eq_true hk, (memory_safe hs).2.2 ?_⟩
  simp [acts, letter, Overtaken.reload, Overtaken.refresh, ServerAct.creation]

end Undervest
