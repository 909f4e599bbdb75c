import Undervest.Lib.Transition
import Undervest.Configuration
import Mathlib.Logic.Function.Basic

/-!
# Reloads and refreshes

Two threads share the configurations.  One runs `Globals::reload`: it reads the
configuration file into a new configuration, refreshes its domains one after
another, and installs it.  The other runs the scheduler: it takes the first due
event from the queue and calls `domainRefresher`, which refreshes the domain of
the event unless the event is outdated.

Configurations and domain objects live at addresses.  A domain object knows its
configuration and its name, and a configuration maps names to addresses.

A refresh has three steps.  The load takes any time, then the event is
scheduled, and last the new object is stored in the map.  `Job` is a refresh
under way, and `Phase` says how far it has come.  The test of `domainRefresher`
is a step of its own (`check`), between taking the event (`fire`) and the load.

`lastLoad` is not in the program.  It records how the last completed load of a
domain ended.
-/

namespace Undervest

open Unordered

/-! ## The state -/

/-- A domain object. -/
structure DomainObject where
  /-- The address of its configuration. -/
  configuration : Nat
  domain : Domain

/-- An event that refreshes a domain. -/
structure TimedEvent where
  time : Nat
  conf : Nat
  dom : Nat
deriving DecidableEq, Repr

/-- The threads that refresh domains. -/
inductive Thread where
  | scheduler
  | reload
deriving DecidableEq, Repr

/-- How far a refresh has come.  `result` is the new object, unless the load has
thrown, and `delay` the time to the next attempt, if there is to be one. -/
inductive Phase where
  | loading
  | scheduling (result : Option Nat) (delay : Option UInt32)
  | storing (result : Option Nat)
deriving DecidableEq, Repr

/-- A refresh under way. -/
structure Job where
  conf : Nat
  name : Str
  dom : Nat
deriving DecidableEq, Repr

/-- The thread of `Globals::reload`, between two refreshes. -/
inductive Reloader where
  | idle
  | getting
  /-- In the loop over the domains of a new configuration. -/
  | loading (conf : Nat) (todo : List Str)
deriving DecidableEq, Repr

/-- How a load ended, with the delay selected for the next one. -/
structure LoadRecord where
  completion : Completion
  nxttime : UInt32
deriving DecidableEq, Repr

structure State where
  now : Nat
  heap : Nat → DomainObject
  /-- The first free address of a domain object. -/
  nextDom : Nat
  /-- The maps of the configurations. -/
  domains : Nat → Str → Option Nat
  /-- The first free address of a configuration. -/
  nextConf : Nat
  /-- The configuration installed. -/
  conf : Option Nat
  queue : List TimedEvent
  /-- The event the scheduler has taken and not tested yet. -/
  fired : Option TimedEvent
  reload : Reloader
  job : Thread → Option (Job × Phase)
  lastLoad : Nat → Str → Option LoadRecord

namespace State

/-- The name of a domain object. -/
def name (s : State) (d : Nat) : Str := (s.heap d).domain.name

/-- The configuration a reload is at work on. -/
def building (s : State) : Option Nat :=
  match s.reload with
  | .loading conf _ => some conf
  | _ => none

/-- The domains of that configuration that have not been refreshed yet. -/
def todo (s : State) : List Str :=
  match s.reload with
  | .loading _ todo => todo
  | _ => []

end State

/-! ## The steps -/

inductive Act where
  /-- Time passes. -/
  | tick (n : Nat)
  | startReload
  /-- `Configuration::get` ends. -/
  | finishGet (loads : Source → Bool) (file : ParsedFile)
  /-- The loop goes on to a domain. -/
  | nextDomain (name : Str)
  | install
  /-- The scheduler takes an event. -/
  | fire (e : TimedEvent)
  /-- The test of `domainRefresher`. -/
  | check
  /-- A load ends. -/
  | load (t : Thread) (feed : Feed)
  | schedule (t : Thread)
  | store (t : Thread)

namespace State

/-- A new configuration and its domain objects. -/
def allocate (s : State) (cfg : Configuration) : State :=
  let entries := cfg.domains.entries
  { s with
    heap := fun d =>
      if s.nextDom ≤ d then
        (entries[d - s.nextDom]?).elim (s.heap d) fun e => ⟨s.nextConf, e.2⟩
      else s.heap d
    nextDom := s.nextDom + entries.length
    domains := Function.update s.domains s.nextConf fun name =>
      (entries.findIdx? fun e => e.1 = name).map fun i => s.nextDom + i
    nextConf := s.nextConf + 1
    reload := .loading s.nextConf (entries.map fun e => e.1) }

/-- The end of a load. -/
def finishLoad (c : Choices) (s : State) (t : Thread) (j : Job) (feed : Feed) : State :=
  let d := (s.heap j.dom).domain
  let r := d.refresh c feed
  match r.result with
  | some n =>
      { s with
        heap := Function.update s.heap s.nextDom ⟨j.conf, n⟩
        nextDom := s.nextDom + 1
        job := Function.update s.job t (some (j, .scheduling (some s.nextDom) r.scheduled))
        lastLoad := Function.update s.lastLoad j.conf
          (Function.update (s.lastLoad j.conf) j.name (some ⟨.returns, n.refreshSec⟩)) }
  | none =>
      { s with
        heap := Function.update s.heap j.dom ⟨(s.heap j.dom).configuration, r.self⟩
        job := Function.update s.job t (some (j, .scheduling none r.scheduled))
        lastLoad := Function.update s.lastLoad j.conf
          (Function.update (s.lastLoad j.conf) j.name (some ⟨.throws, d.nxttime⟩)) }

/-- Schedule the event of a refresh. -/
def scheduleEvent (s : State) (t : Thread) (j : Job) (result : Option Nat)
    (delay : Option UInt32) : State :=
  { s with
    queue := match delay with
      | none => s.queue
      | some sec => s.queue ++ [⟨s.now + sec.toNat, j.conf, result.getD j.dom⟩]
    job := Function.update s.job t (some (j, .storing result)) }

/-- Store the object a refresh returns. -/
def storeResult (s : State) (t : Thread) (j : Job) (result : Option Nat) : State :=
  { s with
    domains := match result with
      | none => s.domains
      | some d =>
          Function.update s.domains j.conf (Function.update (s.domains j.conf) j.name (some d))
    job := Function.update s.job t none }

/-- One step of the two threads. -/
def step (c : Choices) (s : State) : Act → Option State
  | .tick n => some { s with now := s.now + n }
  | .startReload =>
      match s.reload with
      | .idle => some { s with reload := .getting }
      | _ => none
  | .finishGet loads file =>
      match s.reload, Configuration.get loads file with
      | .getting, .ok cfg => some (s.allocate cfg)
      | .getting, .error .undefined => none
      | .getting, .error _ => some { s with reload := .idle }
      | _, _ => none
  | .nextDomain name =>
      match s.reload, s.job .reload with
      | .loading conf todo, none =>
          match s.domains conf name with
          | some d =>
              if name ∈ todo then some
                { s with
                  reload := .loading conf (todo.erase name)
                  job := Function.update s.job .reload (some (⟨conf, name, d⟩, .loading)) }
              else none
          | none => none
      | _, _ => none
  | .install =>
      match s.reload, s.job .reload with
      | .loading conf [], none => some { s with conf := some conf, reload := .idle }
      | _, _ => none
  | .fire e =>
      match s.fired, s.job .scheduler with
      | none, none =>
          if e ∈ s.queue ∧ e.time ≤ s.now ∧ ∀ e' ∈ s.queue, e.time ≤ e'.time then
            some { s with queue := s.queue.erase e, fired := some e }
          else none
      | _, _ => none
  | .check =>
      match s.fired with
      | none => none
      | some e =>
          if s.conf = some e.conf ∧ s.domains e.conf (s.name e.dom) = some e.dom then
            some { s with
              fired := none
              job := Function.update s.job .scheduler
                (some (⟨e.conf, s.name e.dom, e.dom⟩, .loading)) }
          else some { s with fired := none }
  | .load t feed =>
      match s.job t with
      | some (j, .loading) => some (s.finishLoad c t j feed)
      | _ => none
  | .schedule t =>
      match s.job t with
      | some (j, .scheduling result delay) => some (s.scheduleEvent t j result delay)
      | _ => none
  | .store t =>
      match s.job t with
      | some (j, .storing result) => some (s.storeResult t j result)
      | _ => none

end State

end Undervest
