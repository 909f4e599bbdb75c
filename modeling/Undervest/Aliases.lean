import Undervest.Evidence
import Undervest.Sendmail
import Mathlib.Tactic.IntervalCases

/-!
# Names in an aliases file

A daemon that refuses a recipient who is there loses mail.  `refused_on_evidence` says
which load a refusal rests on, and `Sendmail.delivery` what a load from a file delivers.

Together: a name that has an entry in an aliases file of its domain, whenever the daemon
reads this file, is not refused on any connection (`alias_not_refused`), whatever the
thresholds are.  The files may change between two loads, and other sources of the domain
may deliver what they like.
-/

namespace Undervest

open Unordered Transition Sendmail

namespace Sendmail

/-- The file behind a URI has an entry for a name of the domain. -/
def Lists (fs : FileSystem) (uri domname s : Str) : Prop :=
  ∃ ls, openSource fs uri = some ls ∧ ∃ line ∈ ls, ∃ token name, Entry line token ∧
    Source.Names strcaseeq domname token name ∧ s = strtolower name

theorem newline_notMem_openSource {fs : FileSystem} {uri line : Str} {ls : List Str}
    (ho : openSource fs uri = some ls) (hl : line ∈ ls) : ch '\n' ∉ line := by
  obtain ⟨u, -, hu⟩ := Option.bind_eq_some_iff.mp ho
  simp only at hu
  split at hu
  next => cases hu
  next =>
      obtain rfl := Option.some.inj hu
      unfold handle at hl
      split at hl
      next => exact newline_notMem_lines hl
      next => cases hl

/-- A load from the file collects the name. -/
theorem Lists.collected {fs : FileSystem} {uri domname s : Str} (h : Lists fs uri domname s) :
    s ∈ (delivery fs uri).collected domname := by
  obtain ⟨ls, ho, line, hline, token, name, he, hname⟩ := h
  have htoken : token ∈ (delivery fs uri).addresses := by
    rw [addresses_delivery ho, List.mem_filterMap]
    exact ⟨line, hline, (entry_eq_some (newline_notMem_openSource ho hline)).mpr he⟩
  rw [Delivery.collected, List.mem_toFinset, List.mem_filterMap]
  exact ⟨token, htoken, Source.accept_eq_some.mpr ⟨name, hname⟩⟩

end Sendmail

/-- During a load, one of the sources reads a file that lists the name. -/
def Domain.Lists (d : Domain) (feed : Feed) (s : Str) : Prop :=
  ∃ (i : Nat) (src : Source) (fs : FileSystem), d.sources[i]? = some src ∧
    feed i = delivery fs src.uri ∧ Sendmail.Lists fs src.uri d.name s

theorem Domain.Lists.collected {d : Domain} {feed : Feed} {s : Str} (h : d.Lists feed s) :
    s ∈ d.collected feed := by
  obtain ⟨i, src, fs, hsrc, hfeed, hlists⟩ := h
  rw [Domain.collected, Finset.mem_biUnion]
  refine ⟨i, Finset.mem_range.mpr (List.getElem?_eq_some_iff.mp hsrc).1, ?_⟩
  rw [hfeed]
  exact hlists.collected

/-- **An alias is not refused.**  Take a recipient whose local part has less than 65535
characters.  When each load of its domain reads a file that lists the name, no callback of
any connection rejects it. -/
theorem alias_not_refused {c : Choices} {heap : Nat → DomainObject} {reply : Nat → Reply}
    {as : List ServerAct} {s : ServerState}
    (h : run (ServerState.step c) (ServerState.start heap reply) as = some s) {r : Rcpt}
    {a : Address} (ha : Address.parse (strtolower r.address) = some a)
    (hlen : a.origrcpt.length < 65535)
    (hlists : ∀ feed d, ServerFed c heap reply as feed d → d.name = a.domain →
      d.Lists feed a.origrcpt)
    (k : Connection) (text : Option Reply) : Event.envelopeRecipient r .reject text ∉ s.log k := by
  intro he
  have hr : r.address ≠ [] := by
    rintro hnil
    rw [hnil] at ha
    cases ha
  obtain ⟨a', loads, file, cfg, d, feed, ha', -, hget, hlookup, hfed, -, hnot⟩ :=
    refused_on_evidence h hr he
  obtain rfl := Option.some.inj (ha.symm.trans ha')
  have hname : d.name = a.domain := ((Configuration.get_domains hget) _ _ hlookup).1
  exact hnot hlen (hlists feed d hfed hname).collected

/-! ## A listed recipient -/

namespace Listed

def fs : FileSystem := everywhere (str "John: root\n")

def uri : Str := str "/etc/aliases"

/-- What the two default sources deliver. -/
def feed : Feed := fun i => if i = 1 then delivery fs uri else ⟨true, [some (str "root")], true⟩

def file : ParsedFile := .success
  { domains := [{ title := str "a" }]
    titles_nodup := by decide }

/-- A reload with one domain, then a message. -/
def acts : List ServerAct :=
  ([.startReload, .finishGet (fun _ => true) file, .nextDomain (str "a"), .load .reload feed,
    .schedule .reload, .store .reload, .install] : List Act).map .shared ++
      Conversation.letter 1 (str "john@a")

/-- The parameters of the domain that a load depends on. -/
def parameters (d : Domain) : Str × List Source := (d.name, d.sources)

/-- What the file sets. -/
def expected : Str × List Source :=
  (str "a", [⟨str "/etc/passwd", str "sendmail"⟩, ⟨uri, str "sendmail"⟩])

theorem parameters_config (d : Domain) : parameters d.config = parameters d := rfl

/-- The run loads once. -/
theorem fed {feed' : Feed} {d : Domain}
    (h : ServerFed .canonical Overtaken.heap Conversation.reply acts feed' d) :
    feed' = feed ∧ parameters d = expected := by
  obtain ⟨before, t, after, s, j, hacts, hrun, hj, hcfg⟩ := h
  have hat : acts[before.length]? = some (.shared (.load t feed')) := by
    rw [hacts]
    simp
  have hlen : before.length = 3 ∧ t = .reload ∧ feed' = feed := by
    have hlt : before.length < 13 := (List.getElem?_eq_some_iff.mp hat).1
    generalize before.length = n at hat hlt
    interval_cases n <;> simp [acts, Conversation.letter] at hat
    exact ⟨rfl, hat.1.symm, hat.2.symm⟩
  obtain ⟨hlen, rfl, rfl⟩ := hlen
  have hbefore : before = acts.take 3 := by
    rw [hacts, ← hlen, List.take_left]
  have hstate : Conversation.after (acts.take 3) = some s := hbefore ▸ hrun
  have heval : (Conversation.after (acts.take 3)).map (fun s => (s.shared.job .reload).map fun j =>
      decide (parameters (s.shared.heap j.1.dom).domain = expected)) = some (some true) := by
    decide +kernel
  rw [hstate, Option.map_some, hj, Option.map_some, Option.some.injEq, Option.some.injEq,
    decide_eq_true_eq] at heval
  exact ⟨rfl, by rw [← parameters_config, ← hcfg, parameters_config, heval]⟩

theorem lists {d : Domain} (h : parameters d = expected) : d.Lists feed (str "john") := by
  obtain ⟨hname, hsources⟩ := Prod.mk.inj h
  refine ⟨1, ⟨uri, str "sendmail"⟩, fs, by rw [hsources]; rfl, if_pos rfl,
    lines (str "John: root\n"), by decide +kernel, str "John: root", by decide +kernel,
    str "John", str "John", ⟨by decide, by decide +kernel, str " root", by decide⟩,
    Or.inl ⟨by decide, rfl⟩, by decide⟩

end Listed

open Conversation in
theorem alias_not_refused_sample :
    ∃ s, after Listed.acts = some s ∧
      ∀ text, Event.envelopeRecipient (rcpt (str "john@a")) .reject text ∉ s.log 1 := by
  have hrun : (after Listed.acts).isSome = true := by decide +kernel
  obtain ⟨s, hs⟩ := Option.isSome_iff_exists.mp hrun
  have hparse : Address.parse (strtolower (rcpt (str "john@a")).address) =
      some ⟨false, str "john", str "a"⟩ := by decide
  refine ⟨s, hs, alias_not_refused hs hparse (by decide) (fun feed d hf _ => ?_) 1⟩
  obtain ⟨rfl, hd⟩ := Listed.fed hf
  exact Listed.lists hd

end Undervest
