import Undervest.Interleaving
import Undervest.Milter
import Undervest.Lib.Handles

/-!
# The service

The mail library calls the filter for any number of connections at once, while the two
threads of `State` reload configurations and refresh domains.  A connection is known to
the library as an `SMFICTX`, which carries a private pointer.  The static functions of
the class `milter` create the context object of a connection, store it under that
pointer, call a method of it, and delete it at the end.

A method is a partial function of the object: without a result a null pointer was
dereferenced.  `call` is what all static functions have in common.

Every callback is one step, except that of a recipient.  It reads its domain from the
shared map in one step (`envelopeRecipient`) and asks the domain object in another
(`answer`), so a refresh may come in between.

`log` and `connected` are not in the program.  They record what the callbacks of a
connection did, and that its `connect` was called.
-/

namespace Undervest

open Unordered Transition

/-! ## Context objects -/

/-- `SMFICTX *`. -/
abbrev Connection := Nat

/-- An object of the class `Undervest`. -/
structure ContextObject where
  /-- The configuration in use, once `connect` has set it. -/
  conf : Option Nat
  containers : Context

/-- A recipient whose domain has been looked up, and the domain object found. -/
structure Lookup where
  rcpt : Rcpt
  found : Option Nat
deriving DecidableEq, Repr

/-- What a callback returned, and what it asked for. -/
inductive Event where
  | negotiate (status : Sfsistat)
  | connect (status : Sfsistat)
  | envelopeFrom (status : Sfsistat)
  | envelopeRecipient (rcpt : Rcpt) (status : Sfsistat) (reply : Option Reply)
  | endOfMessage (status : Sfsistat) (actions : List Action)
  | abort (status : Sfsistat)
  | close (status : Sfsistat)
deriving DecidableEq, Repr

/-- What a method leaves. -/
structure Effect where
  object : ContextObject
  /-- The recipient, while the callback for it is in progress. -/
  lookup : Option Lookup
  event : Option Event

/-- What the callback for a recipient sees of its configuration: the domain object that it
has found, under the domain of the address, and the reply. -/
def Lookup.view (s : State) (reply : Reply) (l : Lookup) : Configuration where
  domains :=
    match Address.parse (strtolower l.rcpt.address), l.found with
    | some a, some d => AList.singleton a.domain (s.heap d).domain
    | _, _ => ∅
  smtpStatus := reply.status
  smtpExtended := reply.extended
  smtpMessage := reply.message

namespace ContextObject

/-- The object a constructor makes. -/
def new : ContextObject := ⟨none, ⟨.empty, ∅, .empty⟩⟩

/-- The method of the base class. -/
def negotiate (u : ContextObject) : Option Effect := some ⟨u, none, some (.negotiate .continue)⟩

/-- `Undervest::connect`. -/
def connect (conf : Option Nat) (u : ContextObject) : Option Effect :=
  some ⟨{ u with conf }, none, some (.connect .continue)⟩

/-- `Undervest::envelopeFrom`.  `glob` is null before `connect`. -/
def envelopeFrom (u : ContextObject) : Option Effect :=
  u.conf.map fun _ =>
    let (status, containers) := u.containers.envelopeFrom
    ⟨{ u with containers }, none, some (.envelopeFrom status)⟩

/-- `Undervest::envelopeRecipient`, up to the lookup of the domain in
`Configuration::recipient`.  Without the macro `{rcpt_mailer}` there is an exception
before anything is dereferenced. -/
def envelopeRecipient (s : State) (r : Rcpt) (u : ContextObject) : Option Effect :=
  match r.mailer with
  | none => some ⟨u, none, some (.envelopeRecipient r .tempfail none)⟩
  | some _ =>
      u.conf.map fun conf =>
        let found := (Address.parse (strtolower r.address)).bind fun a => s.domains conf a.domain
        ⟨u, some ⟨r, found⟩, none⟩

/-- The rest of `Undervest::envelopeRecipient`. -/
def answer (c : Choices) (s : State) (reply : Nat → Reply) (l : Lookup) (u : ContextObject) :
    Option Effect :=
  u.conf.map fun conf =>
    let (status, text, containers) :=
      u.containers.envelopeRecipient c (l.view s (reply conf)) l.rcpt
    ⟨{ u with containers }, none, some (.envelopeRecipient l.rcpt status text)⟩

/-- `Undervest::endOfMessage`. -/
def endOfMessage (c : Choices) (u : ContextObject) : Option Effect :=
  u.conf.map fun _ => ⟨u, none, some (.endOfMessage .continue (u.containers.endOfMessage c))⟩

/-- The method of the base class. -/
def abort (u : ContextObject) : Option Effect := some ⟨u, none, some (.abort .continue)⟩

/-- The method of the base class. -/
def close (u : ContextObject) : Option Effect := some ⟨u, none, some (.close .continue)⟩

end ContextObject

/-! ## The state -/

structure ServerState where
  shared : State
  /-- The replies of the configurations. -/
  reply : Nat → Reply
  /-- The context objects, under the private pointers. -/
  memory : Handles Connection ContextObject
  /-- The recipient callbacks in progress. -/
  lookup : Connection → Option Lookup
  /-- A null pointer was dereferenced. -/
  crashed : Bool
  log : Connection → List Event
  connected : Connection → Bool

/-- How `new` and `smfi_setpriv` go, when a callback calls them. -/
inductive Creation where
  | succeeds
  | newThrows
  | setprivFails
deriving DecidableEq, Repr

/-- A step of a thread, or a callback. -/
inductive ServerAct where
  | shared (a : Act)
  | negotiate (k : Connection) (o : Creation)
  | connect (k : Connection) (o : Creation)
  | envelopeFrom (k : Connection)
  /-- The callback for a recipient, up to the lookup of the domain. -/
  | envelopeRecipient (k : Connection) (r : Rcpt)
  /-- The rest of it. -/
  | answer (k : Connection)
  | endOfMessage (k : Connection)
  | abort (k : Connection)
  | close (k : Connection)

/-- The connection of a callback. -/
def ServerAct.connection : ServerAct → Option Connection
  | .shared _ => none
  | .negotiate k _ | .connect k _ | .envelopeFrom k | .envelopeRecipient k _ | .answer k
  | .endOfMessage k | .abort k | .close k => some k

/-- The step of a thread. -/
def ServerAct.act : ServerAct → Option Act
  | .shared a => some a
  | _ => none

/-- How the creation of an object goes in a callback, if it gets that far. -/
def ServerAct.creation : ServerAct → Option Creation
  | .negotiate _ o | .connect _ o => some o
  | _ => none

namespace ServerState

/-! ## The callbacks -/

/-- `milterContext`, and a new object when there is none. -/
def obtain (s : ServerState) (k : Connection) (o : Creation) : ServerState :=
  match s.memory.handle k, o with
  | none, .succeeds => { s with memory := s.memory.create k .new }
  -- the object is not deleted
  | none, .setprivFails => { s with memory := s.memory.lose .new }
  | _, _ => s

/-- A callback returns. -/
def finish (s : ServerState) (k : Connection) (l : Option Lookup) (e : Option Event) :
    ServerState :=
  { s with
    lookup := Function.update s.lookup k l
    log := Function.update s.log k (s.log k ++ e.toList) }

/-- Call a method of the context object, if there is one. -/
def call (s : ServerState) (k : Connection) (failure : Event)
    (method : ContextObject → Option Effect) : ServerState :=
  match s.memory.handle k with
  | none => s.finish k none (some failure)
  | some a =>
      match (s.memory.object a).bind method with
      | none => { s with crashed := true }
      | some e => { s with memory := s.memory.write a e.object }.finish k e.lookup e.event

/-- `milter::_negotiate`. -/
def negotiate (s : ServerState) (k : Connection) (o : Creation) : ServerState :=
  (s.obtain k o).call k (.negotiate .tempfail) ContextObject.negotiate

/-- `milter::_connect`. -/
def connect (s : ServerState) (k : Connection) (o : Creation) : ServerState :=
  let s := (s.obtain k o).call k (.connect .tempfail) (ContextObject.connect s.shared.conf)
  { s with connected := Function.update s.connected k true }

/-- `milter::_envfrom`. -/
def envelopeFrom (s : ServerState) (k : Connection) : ServerState :=
  s.call k (.envelopeFrom .tempfail) ContextObject.envelopeFrom

/-- `milter::_envrcpt`, up to the lookup. -/
def envelopeRecipient (s : ServerState) (k : Connection) (r : Rcpt) : ServerState :=
  s.call k (.envelopeRecipient r .tempfail none)
    (ContextObject.envelopeRecipient s.shared r)

/-- The rest of `milter::_envrcpt`. -/
def answer (c : Choices) (s : ServerState) (k : Connection) (l : Lookup) : ServerState :=
  s.call k (.envelopeRecipient l.rcpt .tempfail none)
    (ContextObject.answer c s.shared s.reply l)

/-- `milter::_eom`. -/
def endOfMessage (c : Choices) (s : ServerState) (k : Connection) : ServerState :=
  s.call k (.endOfMessage .tempfail []) (ContextObject.endOfMessage c)

/-- `milter::_abort`. -/
def abort (s : ServerState) (k : Connection) : ServerState :=
  s.call k (.abort .tempfail) ContextObject.abort

/-- `milter::_close`. -/
def close (s : ServerState) (k : Connection) : ServerState :=
  let s := s.call k (.close .tempfail) ContextObject.close
  { s with
    memory := s.memory.release k
    connected := Function.update s.connected k false }

/-! ## Steps -/

/-- The reply of a new configuration. -/
def replyAfter (s : State) (reply : Nat → Reply) : Act → Nat → Reply
  | .finishGet loads file =>
      match Configuration.get loads file with
      | .ok cfg =>
          Function.update reply s.nextConf ⟨cfg.smtpStatus, cfg.smtpExtended, cfg.smtpMessage⟩
      | .error _ => reply
  | _ => reply

/-- A connection may have a callback.  They come one after another, and the first
configuration is installed before the first of them. -/
abbrev Ready (s : ServerState) (k : Connection) : Prop :=
  s.lookup k = none ∧ s.shared.conf ≠ none

/-- One step. -/
def step (c : Choices) (s : ServerState) (a : ServerAct) : Option ServerState :=
  if s.crashed then none
  else
    match a with
    | .shared a => (s.shared.step c a).map fun shared =>
        { s with shared, reply := replyAfter s.shared s.reply a }
    | .answer k => (s.lookup k).map (s.answer c k)
    | .negotiate k o => if s.Ready k then some (s.negotiate k o) else none
    | .connect k o => if s.Ready k then some (s.connect k o) else none
    | .envelopeFrom k => if s.Ready k then some (s.envelopeFrom k) else none
    | .envelopeRecipient k r => if s.Ready k then some (s.envelopeRecipient k r) else none
    | .endOfMessage k => if s.Ready k then some (s.endOfMessage c k) else none
    | .abort k => if s.Ready k then some (s.abort k) else none
    | .close k => if s.Ready k then some (s.close k) else none

/-- The start of the program.  The memory of the domains holds anything. -/
def start (heap : Nat → DomainObject) (reply : Nat → Reply) : ServerState where
  shared := State.start heap
  reply := reply
  memory := .empty
  lookup _ := none
  crashed := false
  log _ := []
  connected _ := false

end ServerState

end Undervest
