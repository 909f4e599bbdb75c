import Undervest.Sessions
import Undervest.Objects

/-!
# Loads are atomic

`Act.load` is the end of a load with all that the sources have delivered.  Here a load is
what the program does: a clone, then the calls of the functions of the loaders one after
the other, and the end.  Other threads and the callbacks run between any two of them.

Nothing refers to the clone before it is stored, and nobody else works on the object that
is refreshed.  So a load may as well take place at its end, with the answers of its calls
(`loads_atomic`), and the laws of the whole program hold for loads that take time.

`Load.past` and `Load.current` are not in the program.  They record what the loaders have
answered.
-/

namespace Undervest

open Unordered Transition

/-! ## A load -/

/-- Where a load stands. -/
inductive LoadPhase where
  /-- Before `openSource`, or behind the last source. -/
  | opening
  /-- In the loop of `Source::load_data`. -/
  | reading
  /-- Before `closeSource`. -/
  | closing (completion : Completion)
  /-- An exception has left `Domain::load_data`. -/
  | thrown
deriving DecidableEq, Repr

/-- A load under way. -/
structure Load where
  clone : Domain
  /-- The sources left, with the one that is being read. -/
  todo : List Source
  phase : LoadPhase
  past : List Delivery
  current : List (Option Str)

namespace Load

/-- The clone is made. -/
def start (d : Domain) : Load := ⟨d.clone, d.clone.sources, .opening, [], []⟩

/-- `openSource` returns or throws. -/
def openSource (l : Load) (opens : Bool) : Option Load :=
  match l.phase, l.todo with
  | .opening, _ :: _ =>
      some
        (if opens then { l with phase := .reading, current := [] }
        else { l with phase := .thrown, past := l.past ++ [⟨false, [], true⟩] })
  | _, _ => none

/-- `getRecipient` returns an address or throws. -/
def getRecipient (l : Load) (r : Option Str) : Option Load :=
  match l.phase with
  | .reading =>
      let l := { l with current := l.current ++ [r] }
      match r with
      | none => some { l with phase := .closing .throws }
      | some recipient =>
          if recipient.length = 0 then some { l with phase := .closing .returns }
          else
            match Source.accept l.clone.name recipient with
            | none => some l
            | some s =>
                some { l with clone :=
                  { l.clone with recipients := l.clone.recipients.emplace s } }
  | _ => none

/-- `closeSource` returns or throws. -/
def closeSource (l : Load) (closes : Bool) : Option Load :=
  match l.phase with
  | .closing completion =>
      some { l with
        todo := l.todo.tail
        phase := if closes = true ∧ completion = .returns then .opening else .thrown
        past := l.past ++ [⟨true, l.current, closes⟩] }
  | _ => none

/-- The end of `Domain::load_data` and of `Domain::refresh`, for an object. -/
def refreshed (c : Choices) (l : Load) (d : Domain) : Option Domain.Refreshed :=
  match l.phase, l.todo with
  | .thrown, _ => some ⟨d.fail, none, if d.nxttime ≠ 0 then some d.nxttime else none⟩
  | .opening, [] =>
      let n := { Domain.buildMatchers c l.clone with failureCount := 0 }
      some ⟨d, some n, if n.refreshSec ≠ 0 then some n.refreshSec else none⟩
  | _, _ => none

/-- What the loaders have delivered. -/
def feed (l : Load) : Feed := fun i => (l.past[i]?).getD ⟨true, [], true⟩

end Load

/-! ## The program with such loads -/

/-- The program, and the loads of its threads. -/
structure LoadingState where
  server : ServerState
  load : Thread → Option Load

inductive LoadAct where
  /-- Any other step. -/
  | plain (a : ServerAct)
  | clone (t : Thread)
  | openSource (t : Thread) (opens : Bool)
  | getRecipient (t : Thread) (r : Option Str)
  | closeSource (t : Thread) (closes : Bool)
  | finish (t : Thread)

/-- The thread whose load it is. -/
def LoadAct.thread : LoadAct → Option Thread
  | .plain _ => none
  | .clone t => some t
  | .openSource t _ => some t
  | .getRecipient t _ => some t
  | .closeSource t _ => some t
  | .finish t => some t

/-- The end of a refresh. -/
def State.endRefresh (s : State) (t : Thread) (j : Job) (r : Domain.Refreshed) : State :=
  match r.result with
  | some n =>
      { s with
        heap := Function.update s.heap s.nextDom ⟨j.conf, n⟩
        nextDom := s.nextDom + 1
        job := Function.update s.job t (some (j, .scheduling (some s.nextDom) r.scheduled))
        lastLoad := Function.update s.lastLoad j.conf
          (Function.update (s.lastLoad j.conf) j.name (some ⟨.returns, n.refreshSec⟩)) }
  | none =>
      { s with
        heap := Function.update s.heap j.dom ⟨(s.heap j.dom).configuration, r.self⟩
        job := Function.update s.job t (some (j, .scheduling none r.scheduled))
        lastLoad := Function.update s.lastLoad j.conf
          (Function.update (s.lastLoad j.conf) j.name
            (some ⟨.throws, (s.heap j.dom).domain.nxttime⟩)) }

theorem finishLoad_eq (c : Choices) (s : State) (t : Thread) (j : Job) (feed : Feed) :
    s.finishLoad c t j feed = s.endRefresh t j ((s.heap j.dom).domain.refresh c feed) := rfl

/-- The step of a thread that ends a load at once. -/
def ServerAct.loads : ServerAct → Option Thread
  | .shared (.load t _) => some t
  | _ => none

namespace LoadingState

/-- One step in a load. -/
def inLoad (s : LoadingState) (t : Thread) (f : Load → Option Load) : Option LoadingState :=
  ((s.load t).bind f).map fun l => { s with load := Function.update s.load t (some l) }

/-- One step. -/
def step (c : Choices) (s : LoadingState) (a : LoadAct) : Option LoadingState :=
  if s.server.crashed then none
  else
    match a with
    | .plain a =>
        if a.loads = none then (s.server.step c a).map fun server => { s with server } else none
    | .clone t =>
        match s.server.shared.job t, s.load t with
        | some (j, .loading), none =>
            let d := (s.server.shared.heap j.dom).domain
            some (if d.failureCount = -2 then
              { s with server.shared := s.server.shared.endRefresh t j ⟨d, none, none⟩ }
            else { s with load := Function.update s.load t (some (.start d)) })
        | _, _ => none
    | .openSource t opens => s.inLoad t fun l => l.openSource opens
    | .getRecipient t r => s.inLoad t fun l => l.getRecipient r
    | .closeSource t closes => s.inLoad t fun l => l.closeSource closes
    | .finish t =>
        match s.server.shared.job t, s.load t with
        | some (j, .loading), some l =>
            (l.refreshed c (s.server.shared.heap j.dom).domain).map fun r =>
              { s with
                server.shared := s.server.shared.endRefresh t j r
                load := Function.update s.load t none }
        | _, _ => none

/-- The start of the program. -/
def start (heap : Nat → DomainObject) (reply : Nat → Reply) : LoadingState :=
  ⟨ServerState.start heap reply, fun _ => none⟩

end LoadingState

/-! ## A load delivers what its calls have returned -/

namespace Load

open Source Domain

/-- A feed begins with some deliveries. -/
def Begins (f : Feed) (past : List Delivery) : Prop := ∀ i x, past[i]? = some x → f i = x

theorem begins_feed (l : Load) : Begins l.feed l.past := by
  intro i x h
  rw [feed, h, Option.getD_some]

/-- A feed that begins with one delivery more. -/
theorem Begins.concat {f : Feed} {past : List Delivery} {x : Delivery}
    (h : Begins f (past ++ [x])) : Begins f past ∧ f past.length = x := by
  refine ⟨fun i y hy => h i y ?_, h _ _ List.getElem?_concat_length⟩
  rw [List.getElem?_append_left (List.getElem?_eq_some_iff.mp hy).1, hy]

/-- Before a source the loads of the others have led to some recipients. -/
def Before (d : Domain) (past : List Delivery) (todo : List Source) (r : UnorderedSet Str) :
    Prop :=
  ∀ f, Begins f past →
    loadSources d.name f 0 d.sources .empty = loadSources d.name f past.length todo r

/-- What the load of an object has done so far. -/
structure Follows (d : Domain) (l : Load) : Prop where
  clone : l.clone = { d.clone with recipients := l.clone.recipients }
  phase : match l.phase with
    | .opening => Before d l.past l.todo l.clone.recipients
    | .reading => ∃ source todo r, l.todo = source :: todo ∧ Before d l.past l.todo r ∧
        ∀ rest, loadLoop d.name (l.current ++ rest) r = loadLoop d.name rest l.clone.recipients
    | .closing completion => ∃ source todo r, l.todo = source :: todo ∧
        Before d l.past l.todo r ∧ loadLoop d.name l.current r = (l.clone.recipients, completion)
    | .thrown => ∀ f, Begins f l.past →
        loadSources d.name f 0 d.sources .empty = (l.clone.recipients, .throws)

variable {d : Domain} {l l' : Load}

theorem follows_start (d : Domain) : (start d).Follows d := ⟨rfl, fun _ _ => rfl⟩

theorem Follows.name (h : l.Follows d) : l.clone.name = d.name := by
  rw [h.clone]
  rfl

theorem Follows.openSource (h : l.Follows d) {opens : Bool} (ho : l.openSource opens = some l') :
    l'.Follows d := by
  unfold Load.openSource at ho
  split at ho
  next source todo hp ht =>
      obtain rfl := Option.some.inj ho
      have hb := h.phase
      simp only [hp] at hb
      cases opens with
      | true => exact ⟨h.clone, source, todo, l.clone.recipients, ht, hb, fun _ => rfl⟩
      | false =>
          refine ⟨h.clone, fun f hf => ?_⟩
          obtain ⟨hf, hlast⟩ := hf.concat
          rw [hb f hf, ht, loadSources, Source.loadData, hlast]
          rfl
  next => cases ho

theorem Follows.getRecipient (h : l.Follows d) {r : Option Str}
    (hg : l.getRecipient r = some l') : l'.Follows d := by
  unfold Load.getRecipient at hg
  split at hg
  next hp =>
      have hb := h.phase
      simp only [hp] at hb
      obtain ⟨source, todo, r₀, ht, hb, hloop⟩ := hb
      have hcurrent : ∀ rest, loadLoop d.name ((l.current ++ [r]) ++ rest) r₀ =
          loadLoop d.name (r :: rest) l.clone.recipients := fun rest => by
        rw [List.append_assoc, List.singleton_append, hloop]
      cases r with
      | none =>
          obtain rfl := Option.some.inj hg
          refine ⟨h.clone, source, todo, r₀, ht, hb, ?_⟩
          have := hcurrent []
          rwa [List.append_nil] at this
      | some recipient =>
          simp only at hg
          split at hg
          next hz =>
              obtain rfl := Option.some.inj hg
              refine ⟨h.clone, source, todo, r₀, ht, hb, ?_⟩
              have := hcurrent []
              rwa [List.append_nil, loadLoop, if_pos hz] at this
          next hz =>
              have hname : accept l.clone.name recipient = accept d.name recipient := by rw [h.name]
              cases ha : accept d.name recipient with
              | none =>
                  rw [hname, ha] at hg
                  obtain rfl := Option.some.inj hg
                  refine ⟨h.clone, ?_⟩
                  simp only [hp]
                  refine ⟨source, todo, r₀, ht, hb, fun rest => ?_⟩
                  rw [hcurrent, loadLoop, if_neg hz, ha]
              | some s =>
                  rw [hname, ha] at hg
                  obtain rfl := Option.some.inj hg
                  refine ⟨by rw [h.clone], ?_⟩
                  simp only [hp]
                  refine ⟨source, todo, r₀, ht, hb, fun rest => ?_⟩
                  rw [hcurrent, loadLoop, if_neg hz, ha]
  next => cases hg

theorem Follows.closeSource (h : l.Follows d) {closes : Bool}
    (hc : l.closeSource closes = some l') : l'.Follows d := by
  unfold Load.closeSource at hc
  split at hc
  next completion hp =>
      obtain rfl := Option.some.inj hc
      have hb := h.phase
      simp only [hp] at hb
      obtain ⟨source, todo, r₀, ht, hb, hloop⟩ := hb
      have hload : ∀ f, Begins f (l.past ++ [⟨true, l.current, closes⟩]) →
          loadSources d.name f 0 d.sources .empty =
            if closes = true ∧ completion = .returns then
              loadSources d.name f (l.past.length + 1) todo l.clone.recipients
            else (l.clone.recipients, .throws) := by
        intro f hf
        obtain ⟨hf, hlast⟩ := hf.concat
        rw [hb f hf, ht, loadSources, Source.loadData, hlast]
        simp only [if_true, hloop]
        cases closes <;> cases completion <;> rfl
      refine ⟨h.clone, ?_⟩
      by_cases hok : closes = true ∧ completion = .returns
      · simp only [if_pos hok]
        intro f hf
        rw [hload f hf, if_pos hok, ht, List.length_append]
        rfl
      · simp only [if_neg hok]
        intro f hf
        rw [hload f hf, if_neg hok]
  next => cases hc

/-- **At its end a load is the load of what it has heard.** -/
theorem Follows.refreshed (h : l.Follows d) (hd : d.failureCount ≠ -2) {c : Choices}
    {r : Refreshed} (hr : l.refreshed c d = some r) : r = d.refresh c l.feed := by
  have hload : ∀ recipients completion,
      loadSources d.name l.feed 0 d.sources .empty = (recipients, completion) →
      Domain.loadData c l.feed d.clone =
        match completion with
        | .throws => ({ d.clone with recipients }, .throws)
        | .returns =>
            ({ buildMatchers c { d.clone with recipients } with failureCount := 0 }, .returns) := by
    intro recipients completion hs
    have hd' : d.clone.failureCount ≠ -2 := hd
    have hs' : loadSources d.clone.name l.feed 0 d.clone.sources d.clone.recipients =
      (recipients, completion) := hs
    rw [Domain.loadData, if_pos hd', hs']
    cases completion <;> rfl
  unfold Load.refreshed at hr
  rw [refresh, if_neg hd]
  split at hr
  next hp =>
      obtain rfl := Option.some.inj hr
      have hb := h.phase
      simp only [hp] at hb
      rw [hload _ _ (hb _ l.begins_feed)]
  next hp ht =>
      obtain rfl := Option.some.inj hr
      have hb := h.phase
      simp only [hp] at hb
      have hs := hb _ l.begins_feed
      rw [ht, loadSources] at hs
      rw [hload _ _ hs, ← h.clone]
  next => cases hr

/-! ## What the loaders have answered -/

/-- The answer of a call of a thread, behind those before it.  They are the sources that
are done, and the recipients of the one that is being read. -/
def hear (t : Thread) (p : List Delivery × List (Option Str)) :
    LoadAct → List Delivery × List (Option Str)
  | .openSource t' opens =>
      if t' = t then if opens then (p.1, []) else (p.1 ++ [⟨false, [], true⟩], p.2) else p
  | .getRecipient t' r => if t' = t then (p.1, p.2 ++ [r]) else p
  | .closeSource t' closes => if t' = t then (p.1 ++ [⟨true, p.2, closes⟩], p.2) else p
  | _ => p

def answers (t : Thread) (calls : List LoadAct) : List Delivery × List (Option Str) :=
  calls.foldl (hear t) ([], [])

/-- What some calls have delivered. -/
def delivered (t : Thread) (calls : List LoadAct) : Feed :=
  fun i => ((answers t calls).1[i]?).getD ⟨true, [], true⟩

/-- The load of a thread began with a clone, and its answers are those of the calls
behind it. -/
def Heard (as : List LoadAct) (t : Thread) (l : Load) : Prop :=
  ∃ earlier calls, as = earlier ++ .clone t :: calls ∧
    (∀ a ∈ calls, a ≠ .clone t ∧ a ≠ .finish t) ∧ answers t calls = (l.past, l.current)

variable {as : List LoadAct} {t : Thread}

theorem heard_start (as : List LoadAct) (t : Thread) (d : Domain) :
    (start d).Heard (as ++ [.clone t]) t :=
  ⟨as, [], rfl, fun a ha => (by cases ha), rfl⟩

/-- A step in a load, or one that has nothing to do with it. -/
theorem Heard.concat (h : l.Heard as t) {a : LoadAct} (hne : a ≠ .clone t ∧ a ≠ .finish t)
    (ha : hear t (l.past, l.current) a = (l'.past, l'.current)) : l'.Heard (as ++ [a]) t := by
  obtain ⟨earlier, calls, rfl, hcalls, hanswers⟩ := h
  refine ⟨earlier, calls ++ [a], by rw [List.append_assoc, List.cons_append], fun b hb => ?_, ?_⟩
  · cases List.mem_append.mp hb with
    | inl hb => exact hcalls b hb
    | inr hb => exact List.mem_singleton.mp hb ▸ hne
  · rw [answers, List.foldl_concat, ← answers, hanswers, ha]

theorem Heard.mono (h : l.Heard as t) {a : LoadAct} (ha : a.thread ≠ some t) :
    l.Heard (as ++ [a]) t := by
  refine h.concat ⟨?_, ?_⟩ ?_
  · rintro rfl
    exact ha rfl
  · rintro rfl
    exact ha rfl
  · have hne : ∀ {t'}, some t' ≠ some t → t' ≠ t := fun hs e => hs (congrArg some e)
    cases a with
    | openSource t' opens => exact if_neg (hne ha)
    | getRecipient t' r => exact if_neg (hne ha)
    | closeSource t' closes => exact if_neg (hne ha)
    | _ => rfl

theorem hear_openSource {opens : Bool} (ho : l.openSource opens = some l') :
    hear t (l.past, l.current) (.openSource t opens) = (l'.past, l'.current) := by
  unfold Load.openSource at ho
  split at ho
  next =>
      obtain rfl := Option.some.inj ho
      rw [hear, if_pos rfl]
      cases opens <;> rfl
  next => cases ho

theorem hear_getRecipient {r : Option Str} (hg : l.getRecipient r = some l') :
    hear t (l.past, l.current) (.getRecipient t r) = (l'.past, l'.current) := by
  rw [hear, if_pos rfl]
  unfold Load.getRecipient at hg
  split at hg
  next =>
      cases r with
      | none =>
          obtain rfl := Option.some.inj hg
          rfl
      | some recipient =>
          simp only at hg
          split_ifs at hg
          · obtain rfl := Option.some.inj hg
            rfl
          · split at hg
            next =>
                obtain rfl := Option.some.inj hg
                rfl
            next =>
                obtain rfl := Option.some.inj hg
                rfl
  next => cases hg

theorem hear_closeSource {closes : Bool} (hc : l.closeSource closes = some l') :
    hear t (l.past, l.current) (.closeSource t closes) = (l'.past, l'.current) := by
  unfold Load.closeSource at hc
  split at hc
  next =>
      obtain rfl := Option.some.inj hc
      rw [hear, if_pos rfl]
  next => cases hc

end Load

/-! ## Nobody else works on the object -/

theorem loading_step {c : Choices} {s s' : State} {a : Act} (h : WellFormed s)
    (hs : s.step c a = some s') {t : Thread} {j : Job} (hj : s.job t = some (j, .loading))
    (ha : ∀ feed, a ≠ .load t feed) :
    s'.job t = some (j, .loading) ∧ s'.heap j.dom = s.heap j.dom := by
  obtain ⟨hlt, hconf, -⟩ := h.mapped _ _ _ (h.jobs t j _ hj).1
  constructor
  · have hne : ∀ {t' x}, t' ≠ t → Function.update s.job t' x t = some (j, .loading) :=
      fun ht => (Function.update_of_ne ht.symm _ _).trans hj
    cases step_cases hs with
    | nextDomain hr hj' hd hn =>
        refine hne fun e => ?_
        rw [e, hj] at hj'
        cases hj'
    | accept hf hc hd =>
        refine hne fun e => ?_
        have := h.waiting (by rw [hf]; exact Option.some_ne_none _)
        rw [e, hj] at this
        cases this
    | @load t' j' feed hj' =>
        have ht : t' ≠ t := fun e => ha feed (by rw [e])
        simp only [State.finishLoad]
        split <;> exact hne ht
    | schedule hj' =>
        refine hne fun e => ?_
        rw [e, hj] at hj'
        cases hj'
    | store hj' =>
        refine hne fun e => ?_
        rw [e, hj] at hj'
        cases hj'
    | _ => exact hj
  · have hobject := object_step h hs (hlt.trans_le (nextDom_le hs))
    generalize s'.heap j.dom = o at hobject
    cases hobject with
    | same hd => rfl
    | @failed t' feed j' hd hact hj' he =>
        -- the other refresh is of another configuration
        have ht : t' ≠ t := fun e => ha feed (by rw [hact, e])
        obtain ⟨-, hconf', -⟩ := h.mapped _ _ _ (h.jobs t' j' _ hj').1
        rw [he] at hconf'
        exact absurd (hconf'.symm.trans hconf) (h.conf_ne ht hj hj')
    | loaded hact hj' he hd hn => exact absurd he hlt.ne
    | configured hact hg hd hn => exact absurd hlt (not_lt.mpr hd)

/-! ## The run with atomic loads -/

/-- A step, without what a load delivers. -/
def ServerAct.erase (a : ServerAct) : ServerAct ⊕ Thread :=
  match a.loads with
  | none => .inl a
  | some t => .inr t

def LoadAct.erase : LoadAct → Option (ServerAct ⊕ Thread)
  | .plain a => some (.inl a)
  | .finish t => some (.inr t)
  | _ => none

/-- A load behind some actions delivers what the calls of its thread have returned from
its clone to its end. -/
def DeliveredBy (as : List LoadAct) (before : List ServerAct) (t : Thread) (feed : Feed) :
    Prop :=
  ∃ earlier calls later, as = earlier ++ .clone t :: (calls ++ .finish t :: later) ∧
    (∀ a ∈ calls, a ≠ .clone t ∧ a ≠ .finish t) ∧
    before.map ServerAct.erase = (earlier ++ .clone t :: calls).filterMap LoadAct.erase ∧
    feed = Load.delivered t calls

theorem DeliveredBy.mono {as : List LoadAct} {before : List ServerAct} {t : Thread} {feed : Feed}
    (h : DeliveredBy as before t feed) (a : LoadAct) : DeliveredBy (as ++ [a]) before t feed := by
  obtain ⟨earlier, calls, later, rfl, h⟩ := h
  exact ⟨earlier, calls, later ++ [a], by simp, h⟩

/-- A run in which every load takes place at its end. -/
structure Serial (c : Choices) (heap : Nat → DomainObject) (reply : Nat → Reply)
    (as : List LoadAct) (s : ServerState) (bs : List ServerAct) : Prop where
  run : run (ServerState.step c) (ServerState.start heap reply) bs = some s
  erase : bs.map ServerAct.erase = as.filterMap LoadAct.erase
  heard : ∀ before t feed after, bs = before ++ .shared (.load t feed) :: after →
    DeliveredBy as before t feed

/-- A load belongs to a refresh that is at its load, and follows its calls. -/
def LoadOf (s : State) (as : List LoadAct) (t : Thread) (l : Load) : Prop :=
  (∃ j, s.job t = some (j, .loading) ∧ l.Follows (s.heap j.dom).domain) ∧ l.Heard as t

variable {c : Choices} {heap : Nat → DomainObject} {reply : Nat → Reply} {as : List LoadAct}

namespace Serial

variable {s s' : ServerState} {bs : List ServerAct}

theorem wellFormed (h : Serial c heap reply as s bs) : WellFormed s.shared :=
  wellFormed_shared h.run

/-- A call of a loader is no step of the other run. -/
theorem skip (h : Serial c heap reply as s bs) {a : LoadAct} (ha : a.erase = none) :
    Serial c heap reply (as ++ [a]) s bs := by
  refine ⟨h.run, ?_, fun before t feed after hbs => (h.heard before t feed after hbs).mono a⟩
  rw [List.filterMap_append, List.filterMap_cons_none ha, List.filterMap_nil, List.append_nil,
    h.erase]

theorem concat (h : Serial c heap reply as s bs) {a : LoadAct} {b : ServerAct}
    (hs : s.step c b = some s') (hab : a.erase = some b.erase)
    (hb : ∀ t feed, b = .shared (.load t feed) → DeliveredBy (as ++ [a]) bs t feed) :
    Serial c heap reply (as ++ [a]) s' (bs ++ [b]) := by
  refine ⟨by rw [run_concat, h.run]; exact hs, ?_, fun before t feed after hbs => ?_⟩
  · rw [List.map_append, List.filterMap_append, h.erase, List.filterMap_cons_some hab]
    rfl
  · cases after using List.reverseRecOn with
    | nil =>
        -- it is the last one
        obtain ⟨rfl, he⟩ := List.append_inj' hbs rfl
        exact hb t feed (List.singleton_inj.mp he)
    | append_singleton after x =>
        rw [← List.cons_append, ← List.append_assoc] at hbs
        exact (h.heard before t feed after (List.append_inj' hbs rfl).1).mono a

end Serial

namespace LoadOf

variable {s : State} {t : Thread} {l : Load}

/-- A refresh that goes on at its load keeps it. -/
theorem keep (h : LoadOf s as t l) {a : LoadAct} (ha : a.thread ≠ some t) {s' : State}
    (hk : ∀ j, s.job t = some (j, .loading) →
      s'.job t = some (j, .loading) ∧ s'.heap j.dom = s.heap j.dom) :
    LoadOf s' (as ++ [a]) t l := by
  obtain ⟨⟨j, hj, hf⟩, hh⟩ := h
  obtain ⟨hj', hheap⟩ := hk j hj
  exact ⟨⟨j, hj', hheap ▸ hf⟩, hh.mono ha⟩

end LoadOf

/-- The end of a refresh leaves the other thread alone. -/
theorem endRefresh_other {s : State} (h : WellFormed s) {t t' : Thread} (ht : t' ≠ t)
    {j j' : Job} (hj : s.job t = some (j, .loading)) (hj' : s.job t' = some (j', .loading))
    (r : Domain.Refreshed) :
    (s.endRefresh t j r).job t' = some (j', .loading) ∧
      (s.endRefresh t j r).heap j'.dom = s.heap j'.dom := by
  obtain ⟨hlt, hconf, -⟩ := h.mapped _ _ _ (h.jobs t' j' _ hj').1
  obtain ⟨-, hconf', -⟩ := h.mapped _ _ _ (h.jobs t j _ hj).1
  have hdom : j'.dom ≠ j.dom := by
    intro e
    rw [e] at hconf
    exact h.conf_ne ht hj hj' (hconf.symm.trans hconf')
  unfold State.endRefresh
  split
  next => exact ⟨(Function.update_of_ne ht _ _).trans hj', Function.update_of_ne hlt.ne _ _⟩
  next => exact ⟨(Function.update_of_ne ht _ _).trans hj', Function.update_of_ne hdom _ _⟩

/-- What is known of the states of a run: the run with atomic loads ends there too, and
the loads under way follow their calls. -/
structure Atomic (c : Choices) (heap : Nat → DomainObject) (reply : Nat → Reply)
    (as : List LoadAct) (s : LoadingState) : Prop where
  serial : ∃ bs, Serial c heap reply as s.server bs
  loads : ∀ t l, s.load t = some l → LoadOf s.server.shared as t l

namespace Atomic

variable {s s' : LoadingState} {t : Thread}

theorem plain (h : Atomic c heap reply as s) {a : ServerAct} (ha : a.loads = none)
    {server : ServerState} (hs : s.server.step c a = some server) :
    Atomic c heap reply (as ++ [.plain a]) { s with server } := by
  obtain ⟨bs, hbs⟩ := h.serial
  have herase : LoadAct.erase (.plain a) = some a.erase := by
    rw [ServerAct.erase, ha]
    rfl
  refine ⟨⟨_, hbs.concat hs herase fun t feed e => ?_⟩, fun t l hl =>
    (h.loads t l hl).keep (a := .plain a) (Option.some_ne_none t).symm ?_⟩
  · rw [e] at ha
    cases ha
  · intro j hj
    have hsound := ServerState.sound_reachable (.of_run_start hbs.run)
    cases a with
    | shared b =>
        cases (server_step_cases hs).2 with
        | shared hstep =>
            refine loading_step hbs.wellFormed hstep hj fun feed e => ?_
            rw [e] at ha
            cases ha
    | _ =>
        have hshared : server.shared = s.server.shared :=
          (threadsOf c).step_eq s.server _ server hsound hs
        rw [hshared]
        exact ⟨hj, rfl⟩

/-- A call of a loader. -/
theorem inLoad (h : Atomic c heap reply as s) {a : LoadAct} (ha : a.erase = none)
    (hthread : a.thread = some t) (hne : a ≠ .clone t) {f : Load → Option Load}
    (hf : ∀ d l l', l.Follows d → f l = some l' → l'.Follows d)
    (hh : ∀ l l', f l = some l' →
      Load.hear t (l.past, l.current) a = (l'.past, l'.current))
    (hs : s.inLoad t f = some s') : Atomic c heap reply (as ++ [a]) s' := by
  obtain ⟨bs, hbs⟩ := h.serial
  obtain ⟨l', hl', rfl⟩ := Option.map_eq_some_iff.mp hs
  obtain ⟨l, hl, hfl⟩ := Option.bind_eq_some_iff.mp hl'
  refine ⟨⟨bs, hbs.skip ha⟩, fun t' x hx => ?_⟩
  by_cases ht : t' = t
  · subst ht
    simp only [Function.update_self, Option.some.injEq] at hx
    subst hx
    obtain ⟨⟨j, hj, hfollows⟩, hheard⟩ := h.loads t' l hl
    refine ⟨⟨j, hj, hf _ l l' hfollows hfl⟩, hheard.concat ⟨hne, ?_⟩ (hh l l' hfl)⟩
    rintro rfl
    cases ha
  · simp only [Function.update_of_ne ht] at hx
    refine (h.loads t' x hx).keep ?_ fun j hj => ⟨hj, rfl⟩
    rw [hthread]
    exact fun e => ht (Option.some.inj e).symm

theorem clone (h : Atomic c heap reply as s) {j : Job}
    (hj : s.server.shared.job t = some (j, .loading)) :
    (s.server.shared.heap j.dom).domain.failureCount ≠ -2 ∧
      Atomic c heap reply (as ++ [.clone t]) { s with
        load := Function.update s.load t
          (some (.start (s.server.shared.heap j.dom).domain)) } := by
  obtain ⟨bs, hbs⟩ := h.serial
  have hw := hbs.wellFormed
  obtain ⟨hlt, -⟩ := hw.mapped _ _ _ (hw.jobs t j _ hj).1
  refine ⟨(hw.object _ hlt).2, ⟨bs, hbs.skip rfl⟩, fun t' l hl => ?_⟩
  by_cases ht : t' = t
  · subst ht
    simp only [Function.update_self, Option.some.injEq] at hl
    subst hl
    exact ⟨⟨j, hj, Load.follows_start _⟩, Load.heard_start _ _ _⟩
  · simp only [Function.update_of_ne ht] at hl
    exact (h.loads t' l hl).keep (a := .clone t) (fun e => ht (Option.some.inj e).symm)
      fun j hj => ⟨hj, rfl⟩

theorem finish (h : Atomic c heap reply as s) (hc : s.server.crashed = false) {j : Job}
    (hj : s.server.shared.job t = some (j, .loading)) {l : Load} (hl : s.load t = some l)
    {r : Domain.Refreshed}
    (hr : l.refreshed c (s.server.shared.heap j.dom).domain = some r) :
    Atomic c heap reply (as ++ [.finish t]) { s with
      server.shared := s.server.shared.endRefresh t j r
      load := Function.update s.load t none } := by
  obtain ⟨bs, hbs⟩ := h.serial
  have hw := hbs.wellFormed
  obtain ⟨hlt, -⟩ := hw.mapped _ _ _ (hw.jobs t j _ hj).1
  obtain ⟨⟨j', hj', hfollows⟩, hheard⟩ := h.loads t l hl
  obtain ⟨rfl, -⟩ := Prod.mk.inj (Option.some.inj (hj.symm.trans hj'))
  have hrefresh := hfollows.refreshed (hw.object _ hlt).2 hr
  have hstep : s.server.step c (.shared (.load t l.feed)) =
      some { s.server with shared := s.server.shared.endRefresh t j r } := by
    simp only [ServerState.step, hc, State.step, hj, finishLoad_eq, ← hrefresh]
    rfl
  refine ⟨⟨_, hbs.concat hstep rfl fun t' feed e => ?_⟩, fun t' l' hl' => ?_⟩
  · cases e
    obtain ⟨earlier, calls, has, hcalls, hanswers⟩ := hheard
    refine ⟨earlier, calls, [], ?_, hcalls, ?_, ?_⟩
    · rw [has, List.append_assoc, List.cons_append]
    · rw [hbs.erase, has]
    · funext i
      rw [Load.feed, Load.delivered, hanswers]
  · by_cases ht : t' = t
    · subst ht
      simp only [Function.update_self] at hl'
      cases hl'
    · simp only [Function.update_of_ne ht] at hl'
      exact (h.loads t' l' hl').keep (a := .finish t) (fun e => ht (Option.some.inj e).symm)
        fun j' hj' => endRefresh_other hw ht hj hj' r

/-- Every step preserves it. -/
theorem step (h : Atomic c heap reply as s) {a : LoadAct} (hs : s.step c a = some s') :
    Atomic c heap reply (as ++ [a]) s' := by
  unfold LoadingState.step at hs
  split at hs
  next => cases hs
  next hc =>
      cases a with
      | plain a =>
          obtain ⟨ha, hs⟩ := Option.ite_none_right_eq_some.mp hs
          obtain ⟨server, hserver, rfl⟩ := Option.map_eq_some_iff.mp hs
          exact h.plain ha hserver
      | clone t =>
          simp only at hs
          split at hs
          next j hj hl =>
              obtain ⟨hd, hatomic⟩ := h.clone hj
              rw [if_neg hd] at hs
              exact Option.some.inj hs ▸ hatomic
          next => cases hs
      | openSource t opens =>
          exact h.inLoad rfl rfl (by simp) (fun _ _ _ hf => hf.openSource)
            (fun _ _ => Load.hear_openSource) hs
      | getRecipient t r =>
          exact h.inLoad rfl rfl (by simp) (fun _ _ _ hf => hf.getRecipient)
            (fun _ _ => Load.hear_getRecipient) hs
      | closeSource t closes =>
          exact h.inLoad rfl rfl (by simp) (fun _ _ _ hf => hf.closeSource)
            (fun _ _ => Load.hear_closeSource) hs
      | finish t =>
          simp only at hs
          split at hs
          next j l hj hl =>
              obtain ⟨r, hr, rfl⟩ := Option.map_eq_some_iff.mp hs
              exact h.finish (by simpa using hc) hj hl hr
          next => cases hs

end Atomic

/-- **Loads are atomic.**  Whatever happens between the calls of the loaders, the program
ends in the same state when every load takes place at its end.  The other steps are the
same and in the same order, and a load delivers exactly what the calls of its thread have
returned between its clone and its end. -/
theorem loads_atomic {s : LoadingState}
    (h : run (LoadingState.step c) (LoadingState.start heap reply) as = some s) :
    ∃ bs : List ServerAct, run (ServerState.step c) (ServerState.start heap reply) bs =
        some s.server ∧
      bs.map ServerAct.erase = as.filterMap LoadAct.erase ∧
      ∀ before t feed after, bs = before ++ .shared (.load t feed) :: after →
        DeliveredBy as before t feed := by
  have hatomic : Atomic c heap reply as s := run_induction (P := Atomic c heap reply)
    ⟨⟨[], rfl, rfl, fun _ _ _ _ hbs => absurd hbs (by simp)⟩, fun _ _ hl => (by cases hl)⟩
    (fun _ _ _ _ _ ih hs => ih.step hs) h
  obtain ⟨bs, hbs⟩ := hatomic.serial
  exact ⟨bs, hbs.run, hbs.erase, hbs.heard⟩

namespace Overtaken

/-- A refresh of the reload thread from two sources, call by call.  Time passes in the
middle. -/
def slowRefresh (name : Str) : List LoadAct :=
  [.plain (.shared (.nextDomain name)), .clone .reload, .openSource .reload true,
    .getRecipient .reload (some (str "john")), .plain (.shared (.tick 1)),
    .getRecipient .reload (some []), .closeSource .reload true, .openSource .reload true,
    .getRecipient .reload (some []), .closeSource .reload true, .finish .reload,
    .plain (.shared (.schedule .reload)), .plain (.shared (.store .reload))]

def loads : List LoadAct :=
  [.plain (.shared .startReload), .plain (.shared (.finishGet (fun _ => true) file))] ++
    slowRefresh (str "a") ++ slowRefresh (str "b") ++ [.plain (.shared .install)]

/-- The state after a run with such loads, for a test of it. -/
def afterLoads (as : List LoadAct) : Option LoadingState :=
  run (LoadingState.step .canonical) (LoadingState.start Overtaken.heap Conversation.reply) as

end Overtaken

open Overtaken in
theorem loads_atomic_sample :
    ∃ s, afterLoads loads = some s ∧ s.server.shared.conf = some 0 ∧
      ∃ bs, Conversation.after bs = some s.server ∧
        ∀ before t feed after, bs = before ++ .shared (.load t feed) :: after →
          DeliveredBy loads before t feed := by
  have hrun : (afterLoads loads).map (fun s => decide (s.server.shared.conf = some 0)) =
      some true := by decide +kernel
  obtain ⟨s, hs, hp⟩ := Option.map_eq_some_iff.mp hrun
  obtain ⟨bs, hbs, -, hheard⟩ := loads_atomic hs
  exact ⟨s, hs, of_decide_eq_true hp, bs, hbs, hheard⟩

/-- The calls of the first refresh deliver one recipient, from the first source. -/
example : Load.answers .reload (Overtaken.slowRefresh (str "a")) =
    ([⟨true, [some (str "john"), some []], true⟩, ⟨true, [some []], true⟩], [some []]) := by
  decide

end Undervest
