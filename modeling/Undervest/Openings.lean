import Undervest.Sessions

/-!
# Connections that begin with `connect`

An object has no configuration before `connect`.  The methods for a message dereference it
all the same, and end the process when it is null.

`Opened` says that an object has a configuration once `connect` has been called, and
`Looking` that it has one while a recipient is looked up.  The first needs that the
callbacks come in order, the second holds in any order.
-/

namespace Undervest

open Unordered Transition

/-! ## Null pointers -/

namespace Session

/-- While a recipient is looked up there is a configuration. -/
def Looking (σ : Session) : Prop :=
  σ.lookup ≠ none → ∃ u, σ.object = some u ∧ u.conf ≠ none

/-- After `connect` there is a configuration. -/
def Opened (σ : Session) : Prop :=
  σ.connected = true → ∀ u, σ.object = some u → u.conf ≠ none

/-- A connection begins with `connect`, maybe after `negotiate`. -/
def Ordered (σ : Session) : ServerAct → Prop
  | .negotiate _ _ => σ.connected = false
  | .envelopeFrom _ | .envelopeRecipient _ _ | .endOfMessage _ => σ.connected = true
  | _ => True

/-- A method that leaves the configuration, and that needs one for a lookup. -/
structure Keeps (method : ContextObject → Option Effect) : Prop where
  conf : ∀ u e, method u = some e → e.object.conf = u.conf
  lookup : ∀ u e, method u = some e → e.lookup ≠ none → u.conf ≠ none

theorem keeps_negotiate : Keeps ContextObject.negotiate :=
  ⟨fun u e h => by cases h; rfl, fun u e h hl => by cases h; exact absurd rfl hl⟩

theorem keeps_abort : Keeps ContextObject.abort :=
  ⟨fun u e h => by cases h; rfl, fun u e h hl => by cases h; exact absurd rfl hl⟩

/-- A method that needs a configuration for everything. -/
theorem keeps_map {f : ContextObject → Nat → Effect}
    (hf : ∀ u conf, (f u conf).object.conf = u.conf) : Keeps fun u => u.conf.map (f u) := by
  refine ⟨fun u e h => ?_, fun u e h _ hn => ?_⟩
  · obtain ⟨conf, -, rfl⟩ := Option.map_eq_some_iff.mp h
    exact hf u conf
  · rw [hn] at h
    cases h

theorem keeps_envelopeRecipient (s : State) (r : Rcpt) :
    Keeps (ContextObject.envelopeRecipient s r) := by
  unfold ContextObject.envelopeRecipient
  cases r.mailer with
  | none => exact ⟨fun u e h => by cases h; rfl, fun u e h hl => by cases h; exact absurd rfl hl⟩
  | some _ => exact keeps_map fun _ _ => rfl

variable {σ σ' : Session} {failure : Event} {method : ContextObject → Option Effect}

theorem Looking.call (h : σ.Looking) (hm : Keeps method) : (σ.call failure method).Looking := by
  rcases σ.call_cases failure method with ⟨-, he⟩ | ⟨u, -, -, he⟩ | ⟨u, e, hu, hmu, he⟩
  · rw [he]
    exact fun hl => absurd rfl hl
  · rwa [he]
  · rw [he]
    refine fun hl => ⟨e.object, rfl, ?_⟩
    rw [hm.conf u e hmu]
    exact hm.lookup u e hmu hl

theorem Opened.call (h : σ.Opened) (hm : Keeps method) : (σ.call failure method).Opened := by
  rcases σ.call_cases failure method with ⟨hu, he⟩ | ⟨u, -, -, he⟩ | ⟨u, e, hu, hmu, he⟩
  · rw [he]
    intro hc v hv
    cases hu.symm.trans hv
  · rwa [he]
  · rw [he]
    intro hc v hv
    obtain rfl := Option.some.inj hv
    rw [hm.conf u e hmu]
    exact h hc u hu

theorem obtain_lookup (σ : Session) (o : Creation) : (σ.obtain o).lookup = σ.lookup := by
  unfold Session.obtain
  split <;> rfl

theorem obtain_connected (σ : Session) (o : Creation) :
    (σ.obtain o).connected = σ.connected := by
  unfold Session.obtain
  split <;> rfl

/-- `connect` gives an object the installed configuration. -/
theorem connect_object (σ : Session) (conf : Option Nat) {u : ContextObject}
    (h : (σ.call failure (ContextObject.connect conf)).object = some u) : u.conf = conf := by
  unfold Session.call at h
  split at h
  next hu => cases hu.symm.trans h
  next v hv =>
      obtain rfl := Option.some.inj h
      rfl

theorem connect_lookup (σ : Session) (conf : Option Nat) :
    (σ.call failure (ContextObject.connect conf)).lookup = none := by
  unfold Session.call
  split <;> rfl

/-- A method that leaves the configuration leaves an object as it was in that respect. -/
theorem call_conf (hm : Keeps method) {u' : ContextObject}
    (h : (σ.call failure method).object = some u') :
    ∃ u, σ.object = some u ∧ u.conf = u'.conf := by
  rcases σ.call_cases failure method with ⟨hu, he⟩ | ⟨u, -, -, he⟩ | ⟨u, e, hu, hmu, he⟩
  · rw [he] at h
    cases hu.symm.trans h
  · rw [he] at h
    exact ⟨u', h, rfl⟩
  · rw [he] at h
    obtain rfl := Option.some.inj h
    exact ⟨u, hu, (hm.conf u e hmu).symm⟩

/-- A new object has no configuration. -/
theorem obtain_conf {o : Creation} {u' : ContextObject} (h : (σ.obtain o).object = some u')
    (hc : u'.conf ≠ none) : σ.object = some u' := by
  unfold Session.obtain at h
  split at h
  next =>
      obtain rfl := Option.some.inj h
      exact absurd rfl hc
  next => exact h

/-- **Only `connect` gives an object a configuration.** -/
theorem conf_callback {c : Choices} {s : State} {reply : Nat → Reply} {a : ServerAct}
    (h : Callback c s reply σ a σ') {u' : ContextObject} (hu : σ'.object = some u')
    {conf : Nat} (hc : u'.conf = some conf) :
    (∃ k o, a = .connect k o ∧ s.conf = some conf) ∨
      (∀ k o, a ≠ .connect k o) ∧ (∀ k, a ≠ .close k) ∧
        ∃ u, σ.object = some u ∧ u.conf = some conf := by
  have hkeep : ∀ {failure method}, Keeps method → (σ.call failure method).object = some u' →
      ∃ u, σ.object = some u ∧ u.conf = some conf := by
    intro failure method hm hcall
    obtain ⟨u, hu, he⟩ := call_conf hm hcall
    exact ⟨u, hu, he.trans hc⟩
  cases h with
  | negotiate hl =>
      obtain ⟨u, hu, he⟩ := call_conf keeps_negotiate hu
      have hconf : u.conf = some conf := he.trans hc
      exact Or.inr ⟨by simp, by simp, u,
        obtain_conf hu (hconf ▸ Option.some_ne_none conf), hconf⟩
  | connect hl hn => exact Or.inl ⟨_, _, rfl, (connect_object _ _ hu).symm.trans hc⟩
  | envelopeFrom hl => exact Or.inr ⟨by simp, by simp, hkeep (keeps_map fun _ _ => rfl) hu⟩
  | envelopeRecipient hl =>
      exact Or.inr ⟨by simp, by simp, hkeep (keeps_envelopeRecipient s _) hu⟩
  | answer hl => exact Or.inr ⟨by simp, by simp, hkeep (keeps_map fun _ _ => rfl) hu⟩
  | endOfMessage hl => exact Or.inr ⟨by simp, by simp, hkeep (keeps_map fun _ _ => rfl) hu⟩
  | abort hl => exact Or.inr ⟨by simp, by simp, hkeep keeps_abort hu⟩
  | close hl => cases hu

theorem Looking.callback {c : Choices} {s : State} {reply : Nat → Reply} {a : ServerAct}
    (h : σ.Looking) (hs : Callback c s reply σ a σ') : σ'.Looking := by
  cases hs with
  | negotiate hl =>
      refine Looking.call (fun hne => ?_) keeps_negotiate
      rw [obtain_lookup] at hne
      exact absurd hl hne
  | connect hl hc => exact fun hne => absurd (connect_lookup _ _) hne
  | envelopeFrom hl => exact h.call (keeps_map fun _ _ => rfl)
  | envelopeRecipient hl => exact h.call (keeps_envelopeRecipient s _)
  | answer hl => exact h.call (keeps_map fun _ _ => rfl)
  | endOfMessage hl => exact h.call (keeps_map fun _ _ => rfl)
  | abort hl => exact h.call keeps_abort
  | close hl =>
      refine fun hne => absurd ?_ hne
      unfold Session.call
      split
      next => rfl
      next => rfl

theorem Opened.callback {c : Choices} {s : State} {reply : Nat → Reply} {a : ServerAct}
    (h : σ.Opened) (ho : σ.Ordered a) (hs : Callback c s reply σ a σ') : σ'.Opened := by
  cases hs with
  | negotiate hl =>
      refine Opened.call (fun hc => ?_) keeps_negotiate
      rw [obtain_connected, ho] at hc
      cases hc
  | connect hl hc =>
      intro _ u hu
      rw [connect_object _ _ hu]
      exact hc
  | envelopeFrom hl => exact h.call (keeps_map fun _ _ => rfl)
  | envelopeRecipient hl => exact h.call (keeps_envelopeRecipient s _)
  | answer hl => exact h.call (keeps_map fun _ _ => rfl)
  | endOfMessage hl => exact h.call (keeps_map fun _ _ => rfl)
  | abort hl => exact h.call keeps_abort
  | close hl => exact fun hc => absurd hc Bool.false_ne_true

/-- A callback that reads the configuration. -/
def Reads : ServerAct → Prop
  | .envelopeFrom _ | .endOfMessage _ => True
  | .envelopeRecipient _ r => r.mailer ≠ none
  | _ => False

end Session

namespace ServerState

variable {c : Choices} {s s' : ServerState} {k : Connection}

/-- The process ends in a callback when its method has no result. -/
theorem crashed_call (h : s.memory.Sound) (hs : s.crashed = false) (failure : Event)
    (method : ContextObject → Option Effect) :
    (s.call k failure method).crashed = true ↔
      ∃ u, (s.session k).object = some u ∧ method u = none := by
  unfold call
  split
  next hk => simp [finish, hs, session, h.find_eq_none.mpr hk]
  next a hk =>
      obtain ⟨u, hu⟩ := h.live k a hk
      have hf : s.memory.find k = some u := by rw [Handles.find, hk, Option.bind_some, hu]
      rw [hu, Option.bind_some]
      cases hm : method u with
      | none => simp [session, hf, hm]
      | some e => simp [session, hf, hm, finish, hs]

theorem crashed_obtain (s : ServerState) (k : Connection) (o : Creation) :
    (s.obtain k o).crashed = s.crashed := by
  unfold obtain
  split <;> rfl

/-- A method that always has a result does not end the process. -/
theorem alive_call (h : s.memory.Sound) (hs : s.crashed = false) {failure : Event}
    {method : ContextObject → Option Effect} (hm : ∀ u, method u ≠ none) :
    (s.call k failure method).crashed = false := by
  cases hc : (s.call k failure method).crashed with
  | false => rfl
  | true =>
      obtain ⟨u, -, hn⟩ := (crashed_call h hs failure method).mp hc
      exact absurd hn (hm u)

/-- A method that needs a configuration for everything ends the process without one. -/
theorem crashed_map (h : s.memory.Sound) (hs : s.crashed = false) {failure : Event}
    {f : ContextObject → Nat → Effect} :
    (s.call k failure fun u => u.conf.map (f u)).crashed = true ↔
      ∃ u, (s.session k).object = some u ∧ u.conf = none := by
  rw [crashed_call h hs]
  simp only [Option.map_eq_none_iff]

/-- **The process ends in a callback** that reads the configuration of an object that has
none. -/
theorem crashed_step {a : ServerAct} (h : s.memory.Sound)
    (hl : ∀ k, (s.session k).Looking) (hs : s.step c a = some s') :
    s'.crashed = true ↔
      Session.Reads a ∧ ∃ k, a.connection = some k ∧
        ∃ u, (s.session k).object = some u ∧ u.conf = none := by
  obtain ⟨hcr, hcases⟩ := server_step_cases hs
  have hnot : ∀ {s' : ServerState} {P : Prop}, s'.crashed = false →
      (s'.crashed = true ↔ False ∧ P) := by
    intro s' P hf
    simp [hf]
  cases hcases with
  | shared hstep => exact hnot hcr
  | @negotiate k o hk =>
      exact hnot (alive_call (sound_obtain h k o) ((crashed_obtain s k o).trans hcr)
        fun u => Option.some_ne_none _)
  | @connect k o hk =>
      exact hnot (alive_call (sound_obtain h k o) ((crashed_obtain s k o).trans hcr)
        fun u => Option.some_ne_none _)
  | @envelopeFrom k hk =>
      refine (crashed_map h hcr).trans ?_
      simp [Session.Reads, ServerAct.connection]
  | @envelopeRecipient k r hk =>
      cases hm : r.mailer with
      | none =>
          simp only [Session.Reads, hm, ne_eq, not_true_eq_false]
          refine hnot (alive_call h hcr fun u => ?_)
          simp [ContextObject.envelopeRecipient, hm]
      | some mailer =>
          have hread : Session.Reads (.envelopeRecipient k r) := by simp [Session.Reads, hm]
          rw [envelopeRecipient, crashed_call h hcr]
          simp [ContextObject.envelopeRecipient, hm, hread, ServerAct.connection]
  | @answer k l hlk =>
      refine hnot ?_
      obtain ⟨u, hu, hconf⟩ := hl k (by simp [session, hlk])
      cases hc : (s.answer c k l).crashed with
      | false => rfl
      | true =>
          obtain ⟨v, hv, hn⟩ := (crashed_map h hcr).mp hc
          obtain rfl := Option.some.inj (hu.symm.trans hv)
          exact absurd hn hconf
  | @endOfMessage k hk =>
      refine (crashed_map h hcr).trans ?_
      simp [Session.Reads, ServerAct.connection]
  | abort hk => exact hnot (alive_call h hcr fun u => Option.some_ne_none _)
  | close hk => exact hnot (alive_call h hcr fun u => Option.some_ne_none _)

/-- What holds of all sessions is preserved when callbacks preserve it. -/
theorem sessions_step {P : Session → Prop} {a : ServerAct} (h : s.memory.Sound)
    (hP : ∀ k, P (s.session k)) (hs : s.step c a = some s')
    (hcall : ∀ k σ', a.connection = some k →
      Callback c s.shared s.reply (s.session k) a σ' → P σ') (k : Connection) :
    P (s'.session k) := by
  cases session_step h hs k with
  | shared hstep hself => exact hself ▸ hP k
  | other hact hk hshared hself => exact hself ▸ hP k
  | call hact hk hshared hcb => exact hcall k _ hk hcb

/-- The callbacks of every connection come in order. -/
def Ordered (s : ServerState) (a : ServerAct) : Prop :=
  ∀ k, a.connection = some k → (s.session k).Ordered a

theorem looking_reachable {heap : Nat → DomainObject} {reply : Nat → Reply}
    {ok : ServerState → ServerAct → Prop} (h : Reachable (step c) ok (start heap reply) s) :
    ∀ k, (s.session k).Looking :=
  h.strengthen (P := fun s => s.memory.Sound) (fun _ hr => sound_reachable hr)
    (fun _ hne => absurd rfl hne) fun _ _ _ hsound hl _ hs =>
      sessions_step hsound hl hs fun k _ _ hcb => (hl k).callback hcb

end ServerState

/-- **No null pointer is dereferenced** as long as every connection begins with `connect`.
Any other callback is safe in any order: the process ends when a message comes to an
object that has not been given a configuration, and only then. -/
theorem not_crashed (c : Choices) (heap : Nat → DomainObject) (reply : Nat → Reply) :
    (∀ s, Reachable (ServerState.step c) ServerState.Ordered (ServerState.start heap reply) s →
      s.crashed = false) ∧
    ∀ s, Reachable (ServerState.step c) (fun _ _ => True) (ServerState.start heap reply) s →
      ∀ a s', s.step c a = some s' →
        (s'.crashed = true ↔
          Session.Reads a ∧ ∃ k, a.connection = some k ∧
            ∃ u, (s.session k).object = some u ∧ u.conf = none) := by
  refine ⟨fun s h => ?_, fun s h a s' hs =>
    ServerState.crashed_step (ServerState.sound_reachable h) (ServerState.looking_reachable h) hs⟩
  refine (h.strengthen
    (P := fun s => s.memory.Sound ∧ ∀ k, (s.session k).Looking)
    (Q := fun s => s.crashed = false ∧ ∀ k, (s.session k).Opened)
    (fun s hr => ⟨ServerState.sound_reachable hr, ServerState.looking_reachable hr⟩)
    ⟨rfl, fun _ hc => absurd hc Bool.false_ne_true⟩ fun s a s' hP hQ hok hs => ⟨?_, ?_⟩).1
  · rw [← Bool.not_eq_true, ServerState.crashed_step hP.1 hP.2 hs]
    rintro ⟨hread, k, hk, u, hu, hn⟩
    have hord := hok k hk
    -- such a callback comes after `connect`
    have hconn : (s.session k).connected = true := by
      cases a <;> first | exact hord | exact hread.elim
    exact hQ.2 k hconn u hu hn
  · exact ServerState.sessions_step hP.1 hQ.2 hs fun k σ' hk hcb => (hQ.2 k).callback (hok k hk) hcb

end Undervest