import Undervest.Openings

/-!
# What a callback does for a message

The recipients of a message are the business of three methods.  `envelopeFrom` empties the
containers, `envelopeRecipient` looks a recipient up and answers it, and the object is
deleted with its containers at the end of a connection.  All other methods leave the
containers as they are.

`Turn` sorts the callbacks of a session by that, also those without an object and those
that end the process, and `turn_of_callback` says that there are no others.
-/

namespace Undervest

open Unordered Transition

variable {c : Choices}

/-- An event that has nothing to do with the recipients of a message. -/
def Event.Neutral : Event → Prop
  | .envelopeFrom _ | .close _ => False
  | .envelopeRecipient _ status _ => status = .tempfail
  | _ => True

/-- The containers of an object are those of the object before it, or the object is new. -/
def SameContainers (o o' : Option ContextObject) : Prop :=
  (o' = none → o = none) ∧ ∀ u', o' = some u' →
    (∃ u, o = some u ∧ u'.containers = u.containers) ∨
      o = none ∧ u'.containers = ContextObject.new.containers

/-- What a callback does for the message of its connection. -/
inductive Turn (c : Choices) (s : State) (reply : Nat → Reply) (σ : Session) : Session → Prop where
  /-- The process ends. -/
  | crashed : Turn c s reply σ σ
  /-- The message begins. -/
  | begun (status : Sfsistat) {o : Option ContextObject}
      (ho : o = σ.object.map fun u => { u with containers := u.containers.clear }) :
      Turn c s reply σ ({ σ with object := o }.finish none (some (.envelopeFrom status)))
  /-- A recipient is looked up. -/
  | looked {u : ContextObject} {conf : Nat} (r : Rcpt) (hu : σ.object = some u)
      (hc : u.conf = some conf) :
      Turn c s reply σ (σ.finish (some ⟨r, (Address.parse (strtolower r.address)).bind fun a =>
        s.domains conf a.domain⟩) none)
  /-- A recipient is answered. -/
  | answered {l : Lookup} {u : ContextObject} {conf : Nat} {status : Sfsistat}
      {text : Option Reply} {v : Context} (hl : σ.lookup = some l) (hu : σ.object = some u)
      (hc : u.conf = some conf)
      (hr : u.containers.envelopeRecipient c (l.view s (reply conf)) l.rcpt = (status, text, v)) :
      Turn c s reply σ ({ σ with object := some { u with containers := v } }.finish none
        (some (.envelopeRecipient l.rcpt status text)))
  /-- The object is deleted. -/
  | closed (status : Sfsistat) :
      Turn c s reply σ
        { σ.finish none (some (.close status)) with object := none, connected := false }
  /-- Anything else. -/
  | noted {e : Event} {o : Option ContextObject} {b : Bool} (he : e.Neutral)
      (ho : SameContainers σ.object o) :
      Turn c s reply σ { σ.finish none (some e) with object := o, connected := b }

namespace SameContainers

variable {o o' o'' : Option ContextObject}

theorem refl (o : Option ContextObject) : SameContainers o o :=
  ⟨id, fun u' hu => Or.inl ⟨u', hu, rfl⟩⟩

theorem trans (h : SameContainers o o') (h' : SameContainers o' o'') : SameContainers o o'' := by
  refine ⟨fun hn => h.1 (h'.1 hn), fun u'' hu'' => ?_⟩
  rcases h'.2 u'' hu'' with ⟨u', hu', he⟩ | ⟨hn, he⟩
  · rcases h.2 u' hu' with ⟨u, hu, he'⟩ | ⟨hn, he'⟩
    · exact Or.inl ⟨u, hu, he.trans he'⟩
    · exact Or.inr ⟨hn, he.trans he'⟩
  · exact Or.inr ⟨h.1 hn, he⟩

/-- An object is found or created. -/
theorem obtain (σ : Session) (o : Creation) : SameContainers σ.object (σ.obtain o).object := by
  unfold Session.obtain
  split
  next hn =>
      refine ⟨fun h => (Option.some_ne_none _ h).elim, fun u' hu => Or.inr ⟨hn, ?_⟩⟩
      obtain rfl := Option.some.inj hu
      rfl
  next => exact refl _

end SameContainers

/-- A method that does nothing to the message. -/
def Plain (method : ContextObject → Option Effect) : Prop :=
  ∀ u e, method u = some e → e.lookup = none ∧ e.object.containers = u.containers ∧
    ∃ ev, e.event = some ev ∧ ev.Neutral

/-- Such a method ends the process or notes something. -/
theorem Plain.call {method : ContextObject → Option Effect} (hm : Plain method) (σ : Session)
    (failure : Event) (hf : failure.Neutral) :
    (∃ u, σ.object = some u ∧ method u = none ∧ σ.call failure method = σ) ∨
      ∃ e o, e.Neutral ∧ SameContainers σ.object o ∧
        σ.call failure method = { σ.finish none (some e) with object := o } := by
  rcases σ.call_cases failure method with ⟨hu, he⟩ | hcrash | ⟨u, e, hu, hmu, he⟩
  · exact Or.inr ⟨failure, σ.object, hf, .refl _, he⟩
  · exact Or.inl hcrash
  · obtain ⟨hl, hcont, ev, hev, hn⟩ := hm u e hmu
    refine Or.inr ⟨ev, some e.object, hn, ?_, ?_⟩
    · rw [hu]
      refine ⟨fun h => (Option.some_ne_none _ h).elim, fun u' hu' => Or.inl ⟨u, rfl, ?_⟩⟩
      obtain rfl := Option.some.inj hu'
      exact hcont
    · rw [he, hl, hev]
      rfl

theorem Plain.map {f : ContextObject → Nat → Effect}
    (hf : ∀ u conf, (f u conf).lookup = none ∧ (f u conf).object.containers = u.containers ∧
      ∃ ev, (f u conf).event = some ev ∧ ev.Neutral) : Plain fun u => u.conf.map (f u) := by
  intro u e h
  obtain ⟨conf, -, rfl⟩ := Option.map_eq_some_iff.mp h
  exact hf u conf

theorem Plain.of_some {f : ContextObject → Effect}
    (hf : ∀ u, (f u).lookup = none ∧ (f u).object.containers = u.containers ∧
      ∃ ev, (f u).event = some ev ∧ ev.Neutral) : Plain fun u => some (f u) := by
  intro u e h
  obtain rfl := Option.some.inj h
  exact hf u

/-- A new object changes nothing else of a session. -/
theorem Session.obtain_eq (σ : Session) (o : Creation) :
    σ.obtain o = { σ with object := (σ.obtain o).object } := by
  unfold Session.obtain
  split <;> rfl

/-- A method that always has a result notes something, also on a new object. -/
theorem Turn.of_plain {s : State} {reply : Nat → Reply} {method : ContextObject → Option Effect}
    (hm : Plain method) (hsome : ∀ u, method u ≠ none) (failure : Event) (hf : failure.Neutral)
    {σ τ : Session} (hτ : τ = { σ with object := τ.object })
    (hsame : SameContainers σ.object τ.object) (b : Bool) :
    Turn c s reply σ { τ.call failure method with connected := b } := by
  rcases hm.call τ failure hf with ⟨u, -, hmu, -⟩ | ⟨e, o, hn, ho, he⟩
  · exact absurd hmu (hsome u)
  · rw [he, hτ]
    exact .noted hn (hsame.trans ho)

/-- **A callback is a turn of its message.** -/
theorem turn_of_callback {s : State} {reply : Nat → Reply} {σ σ' : Session} {a : ServerAct}
    (h : Callback c s reply σ a σ') : Turn c s reply σ σ' := by
  cases h with
  | @negotiate k o hl =>
      have hm : Plain ContextObject.negotiate := .of_some fun u => ⟨rfl, rfl, _, rfl, trivial⟩
      exact .of_plain hm (fun u => Option.some_ne_none _) (.negotiate .tempfail) trivial
        (σ.obtain_eq o) (.obtain σ o) _
  | @connect k o hl hn =>
      have hm : Plain (ContextObject.connect s.conf) :=
        .of_some fun u => ⟨rfl, rfl, _, rfl, trivial⟩
      exact .of_plain hm (fun u => Option.some_ne_none _) (.connect .tempfail) trivial
        (σ.obtain_eq o) (.obtain σ o) true
  | envelopeFrom hl =>
      rcases σ.call_cases (.envelopeFrom .tempfail) ContextObject.envelopeFrom with
        ⟨hu, he⟩ | ⟨u, -, -, he⟩ | ⟨u, e, hu, hmu, he⟩
      · have heq : σ.finish none (some (.envelopeFrom .tempfail)) =
            ({ σ with object := none } : Session).finish none (some (.envelopeFrom .tempfail)) := by
          simp [Session.finish, hu]
        rw [he, heq]
        exact .begun .tempfail (by rw [hu]; rfl)
      · rw [he]
        exact .crashed
      · obtain ⟨conf, hc, rfl⟩ := Option.map_eq_some_iff.mp hmu
        rw [he]
        exact .begun .continue (by rw [hu]; rfl)
  | @envelopeRecipient k r hl =>
      rcases σ.call_cases (.envelopeRecipient r .tempfail none)
        (ContextObject.envelopeRecipient s r) with ⟨hu, he⟩ | ⟨u, -, -, he⟩ | ⟨u, e, hu, hmu, he⟩
      · rw [he]
        exact .noted rfl (.refl _)
      · rw [he]
        exact .crashed
      · have hkeep : ∀ {l ev}, { σ with object := some u }.finish l ev = σ.finish l ev := by
          intro l ev
          rw [← hu]
        rw [he]
        unfold ContextObject.envelopeRecipient at hmu
        split at hmu
        next =>
            obtain rfl := Option.some.inj hmu
            rw [hkeep]
            exact .noted rfl (.refl _)
        next =>
            obtain ⟨conf, hc, rfl⟩ := Option.map_eq_some_iff.mp hmu
            rw [hkeep]
            exact .looked r hu hc
  | @answer k l hl =>
      rcases σ.call_cases (.envelopeRecipient l.rcpt .tempfail none)
        (ContextObject.answer c s reply l) with ⟨hu, he⟩ | ⟨u, -, -, he⟩ | ⟨u, e, hu, hmu, he⟩
      · rw [he]
        exact .noted rfl (.refl _)
      · rw [he]
        exact .crashed
      · obtain ⟨conf, hc, rfl⟩ := Option.map_eq_some_iff.mp hmu
        rw [he]
        exact .answered hl hu hc rfl
  | endOfMessage hl =>
      have hm : Plain (ContextObject.endOfMessage c) :=
        .map fun u conf => ⟨rfl, rfl, _, rfl, trivial⟩
      rcases hm.call σ (.endOfMessage .tempfail []) trivial with
        ⟨u, -, -, he⟩ | ⟨e, o, hn, ho, he⟩
      · rw [he]
        exact .crashed
      · rw [he]
        exact .noted hn ho
  | abort hl =>
      have hm : Plain ContextObject.abort := .of_some fun u => ⟨rfl, rfl, _, rfl, trivial⟩
      have hσ : σ = { σ with object := σ.object } := rfl
      exact .of_plain hm (fun u => Option.some_ne_none _) (.abort .tempfail) trivial hσ (.refl _) _
  | close hl =>
      rcases σ.call_cases (.close .tempfail) ContextObject.close with
        ⟨hu, he⟩ | ⟨u, -, hmu, -⟩ | ⟨u, e, hu, hmu, he⟩
      · rw [he]
        exact .closed .tempfail
      · cases hmu
      · obtain rfl := Option.some.inj hmu
        rw [he]
        exact .closed .continue

end Undervest
