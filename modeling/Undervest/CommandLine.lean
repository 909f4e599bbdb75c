import Undervest.UriPositions

/-!
# The command line

`Globals::run` reads the words of the command line with a pointer into `argv` and one into
the word, and counts in `argc` how many words are left.  `argv` ends with a null pointer,
and a word with a NUL.

A word that starts with `-` is a cluster of letters.  The letters `c`, `g`, `j` and `u`
take their argument from the next word, also in the middle of a cluster.  The first word
that is no cluster is the socket, and it must be the last word.

The loop never reads behind `argv` or a word, and it accepts exactly the lines that are
spelled so, with the switches applied in their order (`command_line`).
-/

namespace Undervest

open Refinement

/-! ## Switches -/

/-- What the command line sets. -/
structure Options where
  user : Str
  group : Str
  config : Str
  jail : Str
  nodaemon : Bool
  logstd : Bool
  stderrOnly : Bool
  debuglvl : UInt32
deriving DecidableEq, Repr

/-- What a letter does, perhaps with an argument. -/
inductive Letter where
  | plain (set : Options → Options)
  | valued (set : Str → Options → Options)

/-- The `switch` over the letters. -/
def letter (c : Byte) : Option Letter :=
  -- configuration file
  if c = ch 'c' then some (.valued fun s o => { o with config := s })
  -- increase debug level
  else if c = ch 'd' then some (.plain fun o => { o with debuglvl := o.debuglvl + 1 })
  -- log to stderr only
  else if c = ch 'e' then some (.plain fun o => { o with stderrOnly := true })
  else if c = ch 'g' then some (.valued fun s o => { o with group := s })
  else if c = ch 'j' then some (.valued fun s o => { o with jail := s })
  -- log to stderr too
  else if c = ch 'l' then some (.plain fun o => { o with logstd := true })
  -- do not detach
  else if c = ch 'n' then some (.plain fun o => { o with nodaemon := true })
  else if c = ch 'u' then some (.valued fun s o => { o with user := s })
  else none

/-! ## The loop -/

namespace CommandLine

/-- The word at a pointer, a null pointer behind the last. -/
def argAt (argv : List Str) (i : Nat) : Except Fault (Option Str) :=
  if i ≤ argv.length then .ok argv[i]? else .error .beyond

/-- The pointer into `argv` and the count. -/
structure Cursor where
  argv : Nat
  argc : Int
  options : Options

/-- The argument of a letter. -/
def argument (argv : List Str) (p : Cursor) (set : Str → Options → Options) :
    Except Fault (Option Cursor) :=
  if p.argc - 1 = 0 then .ok none
  else do
    -- a string is not made from a null pointer
    match ← argAt argv (p.argv + 1) with
    | none => .error .beyond
    | some s => pure (some ⟨p.argv + 1, p.argc - 1, set s p.options⟩)

/-- `while (*++cp)`, with `cp` at a position of a word.  Without a result it is for
`usage`. -/
def letters (argv : List Str) (word : Str) : Nat → Nat → Cursor → Except Fault (Option Cursor)
  | 0, _, _ => .error .turns
  | turns + 1, cp, p => do
      let c ← Positions.charAt word (cp + 1)
      if c = 0 then pure (some p)
      else
        match letter c with
        | none => pure none
        | some (.plain set) => letters argv word turns (cp + 1) { p with options := set p.options }
        | some (.valued set) => do
            match ← argument argv p set with
            | none => pure none
            | some p => letters argv word turns (cp + 1) p

/-- `*cp != '-' || !cp[1]`. -/
def plainWord (word : Str) : Except Fault Bool :=
  Positions.either (do return (← Positions.charAt word 0) != ch '-')
    (do return (← Positions.charAt word 1) == 0)

/-- The outer loop, and what follows it. -/
def words (argv : List Str) : Nat → Cursor → Except Fault (Option (Options × Str))
  | 0, _ => .error .turns
  | turns + 1, p => do
      let cp ← argAt argv (p.argv + 1)
      let p : Cursor := { p with argv := p.argv + 1, argc := p.argc - 1 }
      if p.argc = 0 then
        match cp with
        | none => pure none
        | some word => pure (if p.argc - 1 ≠ 0 then none else some (p.options, word))
      else
        match cp with
        | none => .error .beyond
        | some word =>
            if ← plainWord word then
              pure (if p.argc - 1 ≠ 0 then none else some (p.options, word))
            else
              match ← letters argv word (word.length + 1) 0 p with
              | none => pure none
              | some p => words argv turns p

/-- The loop of `Globals::run` over `argv`. -/
def run (argv : List Str) (o : Options) : Except Fault (Option (Options × Str)) :=
  words argv (argv.length + 1) ⟨0, argv.length, o⟩

end CommandLine

/-! ## How a command line is spelled -/

/-- A letter has an argument when it takes one. -/
def Letter.Takes (c : Byte) (a : Option Str) : Prop :=
  match letter c with
  | none => False
  | some (.plain _) => a = none
  | some (.valued _) => a ≠ none

/-- A letter with its argument. -/
structure Switch where
  letter : Byte
  argument : Option Str
  takes : Letter.Takes letter argument

namespace Switch

def apply (x : Switch) (o : Options) : Options :=
  match Undervest.letter x.letter, x.argument with
  | some (.plain set), _ => set o
  | some (.valued set), some s => set s o
  | _, _ => o

/-- The words of a cluster. -/
def spell (xs : List Switch) : List Str :=
  (ch '-' :: xs.map fun x => x.letter) :: xs.filterMap fun x => x.argument

end Switch

/-- The word is a cluster. -/
def IsCluster (word : Str) : Prop := ∃ c cs, word = ch '-' :: c :: cs

/-- The line is clusters and a socket, and sets some options. -/
structure Spelled (o : Options) (line : List Str) (o' : Options) (socket : Str)
    (clusters : List (List Switch)) : Prop where
  nonempty : ∀ xs ∈ clusters, xs ≠ []
  line : line = clusters.flatMap Switch.spell ++ [socket]
  socket : ¬ IsCluster socket
  options : o' = clusters.flatten.foldl (fun o x => x.apply o) o

/-! ## Clusters -/

namespace CommandLine

/-- The letters of a cluster, over the words behind it. -/
def lettersOf : Str → Options → List Str → Option (Options × List Str)
  | [], o, line => some (o, line)
  | c :: cs, o, line =>
      match letter c with
      | none => none
      | some (.plain set) => lettersOf cs (set o) line
      | some (.valued set) =>
          match line with
          | [] => none
          | s :: line => lettersOf cs (set s o) line

/-- The switches of a cluster take the words behind it. -/
theorem lettersOf_spell (xs : List Switch) (o : Options) (line : List Str) :
    lettersOf (xs.map fun x => x.letter) o (xs.filterMap (fun x => x.argument) ++ line) =
      some (xs.foldl (fun o x => x.apply o) o, line) := by
  induction xs generalizing o with
  | nil => rfl
  | cons x xs ih =>
      have ht := x.takes
      unfold Letter.Takes at ht
      rw [List.map_cons, lettersOf, List.foldl_cons, Switch.apply]
      cases hc : letter x.letter with
      | none =>
          rw [hc] at ht
          exact ht.elim
      | some l =>
          rw [hc] at ht
          cases l with
          | plain set =>
              rw [List.filterMap_cons_none ht]
              exact ih _
          | valued set =>
              obtain ⟨s, hs⟩ := Option.ne_none_iff_exists'.mp ht
              rw [List.filterMap_cons_some hs, hs]
              exact ih _

/-- A cluster that is accepted is one of switches. -/
theorem exists_switches {cs : Str} {o o' : Options} {line line' : List Str}
    (h : lettersOf cs o line = some (o', line')) :
    ∃ xs : List Switch, cs = (xs.map fun x => x.letter) ∧
      line = xs.filterMap (fun x => x.argument) ++ line' ∧
      o' = xs.foldl (fun o x => x.apply o) o := by
  induction cs generalizing o line with
  | nil =>
      obtain ⟨rfl, rfl⟩ := Prod.mk.inj (Option.some.inj h)
      exact ⟨[], rfl, rfl, rfl⟩
  | cons c cs ih =>
      rw [lettersOf] at h
      cases hc : letter c with
      | none =>
          rw [hc] at h
          cases h
      | some l =>
          rw [hc] at h
          cases l with
          | plain set =>
              obtain ⟨xs, rfl, rfl, rfl⟩ := ih h
              have ht : Letter.Takes c none := by simp only [Letter.Takes, hc]
              refine ⟨⟨c, none, ht⟩ :: xs, rfl, rfl, ?_⟩
              simp only [List.foldl_cons, Switch.apply, hc]
          | valued set =>
              cases line with
              | nil => cases h
              | cons s line =>
                  obtain ⟨xs, rfl, rfl, rfl⟩ := ih h
                  have ht : Letter.Takes c (some s) := by
                    simp only [Letter.Takes, hc]
                    exact Option.some_ne_none s
                  refine ⟨⟨c, some s, ht⟩ :: xs, rfl, rfl, ?_⟩
                  simp only [List.foldl_cons, Switch.apply, hc]

/-! ## Reading with pointers -/

/-- The words behind the pointer, which the count counts. -/
structure At (argv : List Str) (p : Cursor) (line : List Str) : Prop where
  inside : p.argv < argv.length
  behind : argv.drop (p.argv + 1) = line
  count : p.argc = line.length + 1

variable {argv : List Str} {p : Cursor} {line : List Str}

theorem At.argAt (h : At argv p line) : argAt argv (p.argv + 1) = .ok line.head? := by
  rw [CommandLine.argAt, if_pos (Nat.succ_le_of_lt h.inside), ← h.behind, List.head?_drop]

/-- The pointer goes on to the next word. -/
theorem At.next {s : Str} (h : At argv p (s :: line)) (o : Options) :
    At argv ⟨p.argv + 1, p.argc - 1, o⟩ line := by
  have hlen : (argv.drop (p.argv + 1)).length = line.length + 1 := by
    rw [h.behind, List.length_cons]
  rw [List.length_drop] at hlen
  refine ⟨by simp only; omega, ?_, ?_⟩
  · simp only
    rw [← List.tail_drop, h.behind, List.tail_cons]
  · simp only [h.count, List.length_cons]
    omega

theorem At.set (h : At argv p line) (o : Options) : At argv { p with options := o } line :=
  ⟨h.inside, h.behind, h.count⟩

/-- What the pointers read in a cluster. -/
def Reads (argv : List Str) (r : Except Fault (Option Cursor)) (x : Option (Options × List Str)) :
    Prop :=
  match x with
  | none => r = .ok none
  | some (o, line) => ∃ p, r = .ok (some p) ∧ At argv p line ∧ p.options = o

theorem letters_reads (h : At argv p line) {word cs : Str} {cp turns : Nat}
    (hcp : cp < word.length) (hcs : word.drop (cp + 1) = cs) (hz : 0 ∉ cs)
    (ht : cs.length < turns) :
    Reads argv (letters argv word turns cp p) (lettersOf cs p.options line) := by
  induction turns generalizing cs cp p line with
  | zero => exact absurd ht (Nat.not_lt_zero _)
  | succ turns ih =>
      have hread : Positions.charAt word (cp + 1) = .ok (cs.headD 0) := by
        rw [Positions.charAt, if_pos (Nat.succ_le_of_lt hcp), ← hcs, List.headD_eq_head?_getD,
          List.head?_drop]
        rfl
      rw [letters, hread, ok_bind]
      cases cs with
      | nil =>
          rw [List.headD_nil, if_pos rfl]
          exact ⟨p, rfl, h, rfl⟩
      | cons c cs =>
          obtain ⟨hc, hz⟩ := not_or.mp (mt List.mem_cons.mpr hz)
          have hnext : cp + 1 < word.length ∧ word.drop (cp + 1 + 1) = cs := by
            have hlen : (word.drop (cp + 1)).length = cs.length + 1 := by
              rw [hcs, List.length_cons]
            rw [List.length_drop] at hlen
            exact ⟨by omega, by rw [← List.tail_drop, hcs, List.tail_cons]⟩
          have ht' : cs.length < turns := Nat.lt_of_succ_lt_succ ht
          rw [List.headD_cons, if_neg (Ne.symm hc), lettersOf]
          cases hl : letter c with
          | none => rfl
          | some l =>
              cases l with
              | plain set => exact ih (h.set _) hnext.1 hnext.2 hz ht'
              | valued set =>
                  cases line with
                  | nil =>
                      have harg : argument argv p set = .ok none := by
                        rw [argument, h.count, if_pos (by simp)]
                      simp only [harg, ok_bind]
                      rfl
                  | cons s line =>
                      have harg : argument argv p set =
                          .ok (some ⟨p.argv + 1, p.argc - 1, set s p.options⟩) := by
                        rw [argument, h.count,
                          if_neg (by simp only [List.length_cons]; omega), h.argAt]
                        rfl
                      simp only [harg, ok_bind]
                      exact ih (h.next _) hnext.1 hnext.2 hz ht'

/-! ## The loop accepts what is spelled -/

theorem plainWord_eq {word : Str} (hz : 0 ∉ word) :
    ∃ b, plainWord word = .ok b ∧ (b = true ↔ ¬ IsCluster word) := by
  cases word with
  | nil => exact ⟨true, rfl, iff_of_true rfl fun ⟨_, _, h⟩ => (by cases h)⟩
  | cons c cs =>
      by_cases hc : c = ch '-'
      · subst hc
        cases cs with
        | nil => exact ⟨true, rfl, iff_of_true rfl fun ⟨_, _, h⟩ => (by cases h)⟩
        | cons c cs =>
            refine ⟨c == 0, rfl, iff_of_false ?_ fun h => h ⟨c, cs, rfl⟩⟩
            rw [beq_iff_eq]
            rintro rfl
            exact hz (by simp)
      · refine ⟨true, ?_, iff_of_true rfl ?_⟩
        · have hne : (c != ch '-') = true := by simpa using hc
          change Positions.either (.ok (c != ch '-')) _ = _
          rw [hne]
          rfl
        · rintro ⟨c', cs', h⟩
          exact hc (List.cons.inj h).1

/-- Without a word there is no socket. -/
theorem not_spelled_nil {o o' : Options} {socket : Str} {clusters : List (List Switch)} :
    ¬ Spelled o [] o' socket clusters := by
  intro h
  have := congrArg List.length h.line
  simp at this

/-- A first word that is no cluster is the socket. -/
theorem spelled_plain {o o' : Options} {word socket : Str} (hword : ¬ IsCluster word) :
    (∃ clusters, Spelled o (word :: line) o' socket clusters) ↔
      line = [] ∧ o' = o ∧ socket = word := by
  constructor
  · rintro ⟨clusters, hne, hline, hsocket, hoptions⟩
    cases clusters with
    | nil =>
        obtain ⟨rfl, rfl⟩ := List.cons.inj hline
        exact ⟨rfl, hoptions, rfl⟩
    | cons xs clusters =>
        obtain ⟨x, xs, rfl⟩ := List.exists_cons_of_ne_nil (hne xs (List.mem_cons_self ..))
        obtain ⟨rfl, -⟩ := List.cons.inj hline
        exact absurd ⟨_, _, rfl⟩ hword
  · rintro ⟨rfl, rfl, rfl⟩
    exact ⟨[], fun _ h => (by cases h), rfl, hword, rfl⟩

/-- A first word that is a cluster takes some of the next words, and leaves a line. -/
theorem spelled_cluster {o o' : Options} {c : Byte} {cs socket : Str} :
    (∃ clusters, Spelled o ((ch '-' :: c :: cs) :: line) o' socket clusters) ↔
      ∃ o₁ line₁, lettersOf (c :: cs) o line = some (o₁, line₁) ∧
        ∃ clusters, Spelled o₁ line₁ o' socket clusters := by
  constructor
  · rintro ⟨clusters, hne, hline, hsocket, hoptions⟩
    cases clusters with
    | nil =>
        obtain ⟨rfl, -⟩ := List.cons.inj hline
        exact absurd ⟨c, cs, rfl⟩ hsocket
    | cons xs clusters =>
        rw [List.flatMap_cons, Switch.spell, List.cons_append, List.cons_append,
          List.append_assoc] at hline
        obtain ⟨hword, rfl⟩ := List.cons.inj hline
        obtain ⟨-, hletters⟩ := List.cons.inj hword
        rw [List.flatten_cons, List.foldl_append] at hoptions
        refine ⟨_, _, hletters ▸ lettersOf_spell xs o _, clusters, ?_, rfl, hsocket, hoptions⟩
        exact fun ys hys => hne ys (List.mem_cons_of_mem _ hys)
  · rintro ⟨o₁, line₁, hletters, clusters, hne, hline, hsocket, hoptions⟩
    obtain ⟨xs, hcs, rfl, rfl⟩ := exists_switches hletters
    refine ⟨xs :: clusters, ?_, ?_, hsocket, ?_⟩
    · rw [List.forall_mem_cons]
      refine ⟨?_, hne⟩
      rintro rfl
      cases hcs
    · rw [List.flatMap_cons, Switch.spell, hcs, hline, List.cons_append, List.cons_append,
        List.append_assoc]
    · rw [List.flatten_cons, List.foldl_append, hoptions]

theorem lettersOf_length {cs : Str} {o o' : Options} {line' : List Str}
    (h : lettersOf cs o line = some (o', line')) : line'.length ≤ line.length := by
  obtain ⟨xs, -, rfl, -⟩ := exists_switches h
  rw [List.length_append]
  exact Nat.le_add_left _ _

/-- The loop does not fail, and accepts what is spelled. -/
theorem words_eq (h : At argv p line) (hz : ∀ w ∈ argv, 0 ∉ w) {turns : Nat}
    (ht : line.length < turns) :
    ∃ r, words argv turns p = .ok r ∧ ∀ o' socket,
      r = some (o', socket) ↔ ∃ clusters, Spelled p.options line o' socket clusters := by
  induction turns generalizing p line with
  | zero => exact absurd ht (Nat.not_lt_zero _)
  | succ turns ih =>
      rw [words, h.argAt, ok_bind]
      cases line with
      | nil =>
          refine ⟨none, ?_, fun o' socket => iff_of_false (by simp) ?_⟩
          · simp only [h.count, List.length_nil, List.head?_nil]
            rfl
          · rintro ⟨clusters, hs⟩
            exact not_spelled_nil hs
      | cons word line =>
          have hat := h.next p.options
          have hcount : p.argc - 1 = line.length + 1 := hat.count
          have hmem : word ∈ argv.drop (p.argv + 1) := by
            rw [h.behind]
            exact List.mem_cons_self ..
          have hword : 0 ∉ word := hz word (List.mem_of_mem_drop hmem)
          obtain ⟨b, hb, hiff⟩ := plainWord_eq hword
          simp only [List.head?_cons, hb, ok_bind]
          rw [if_neg (by omega)]
          cases b with
          | true =>
              refine ⟨_, rfl, fun o' socket => ?_⟩
              rw [spelled_plain (hiff.mp rfl), hcount]
              cases line with
              | nil => simp [eq_comm]
              | cons w line =>
                  rw [if_pos (by simp only [List.length_cons]; omega)]
                  refine iff_of_false (by simp) ?_
                  rintro ⟨h, -⟩
                  cases h
          | false =>
              have hcluster : IsCluster word := by
                by_contra hno
                exact absurd (hiff.mpr hno) (by simp)
              obtain ⟨c, cs, rfl⟩ := hcluster
              have hzs : 0 ∉ c :: cs := fun hm => hword (List.mem_cons_of_mem _ hm)
              have hreads : Reads argv
                  (letters argv (ch '-' :: c :: cs) ((ch '-' :: c :: cs).length + 1) 0
                    ⟨p.argv + 1, p.argc - 1, p.options⟩) (lettersOf (c :: cs) p.options line) :=
                letters_reads hat (Nat.succ_pos _) rfl hzs (by simp)
              simp only [Bool.false_eq_true, if_false]
              cases hl : lettersOf (c :: cs) p.options line with
              | none =>
                  rw [hl] at hreads
                  rw [show letters argv _ _ _ _ = _ from hreads]
                  refine ⟨none, rfl, fun o' socket => iff_of_false (by simp) ?_⟩
                  rw [spelled_cluster, hl]
                  rintro ⟨_, _, h, -⟩
                  cases h
              | some x =>
                  obtain ⟨o₁, line₁⟩ := x
                  rw [hl] at hreads
                  obtain ⟨p₁, hp₁, hat₁, rfl⟩ := hreads
                  rw [hp₁]
                  have hlen : line₁.length < turns :=
                    (lettersOf_length hl).trans_lt (Nat.lt_of_succ_lt_succ ht)
                  obtain ⟨r, hr, hspelled⟩ := ih hat₁ hlen
                  refine ⟨r, hr, fun o' socket => ?_⟩
                  rw [hspelled, spelled_cluster, hl]
                  constructor
                  · rintro ⟨clusters, hs⟩
                    exact ⟨_, _, rfl, clusters, hs⟩
                  · rintro ⟨_, _, h, clusters, hs⟩
                    cases h
                    exact ⟨clusters, hs⟩

end CommandLine

/-- **The command line.**  The loop reads nothing behind `argv` or a word, and ends.  It
accepts a line exactly when it is spelled in clusters with a socket at the end, and then the
switches have been applied in their order. -/
theorem command_line {argv : List Str} (hne : argv ≠ []) (hz : ∀ w ∈ argv, 0 ∉ w) (o : Options) :
    ∃ r, CommandLine.run argv o = .ok r ∧ ∀ o' socket,
      r = some (o', socket) ↔ ∃ clusters, Spelled o argv.tail o' socket clusters := by
  obtain ⟨name, line, rfl⟩ := List.exists_cons_of_ne_nil hne
  have hat : CommandLine.At (name :: line) ⟨0, (name :: line).length, o⟩ line :=
    ⟨Nat.succ_pos _, rfl, by simp⟩
  exact CommandLine.words_eq hat hz (Nat.lt_succ_of_lt (Nat.lt_succ_self _))

/-- Two clusters. -/
theorem command_line_sample :
    ∃ clusters, Spelled ⟨[], [], str "/etc/undervest", [], false, false, false, 0⟩
      [str "-ddcn", str "a.conf", str "-u", str "mail", str "local:/run/undervest"]
      ⟨str "mail", [], str "a.conf", [], true, false, false, 2⟩ (str "local:/run/undervest")
      clusters := by
  obtain ⟨r, hr, hiff⟩ := command_line
    (show [str "undervest", str "-ddcn", str "a.conf", str "-u", str "mail",
      str "local:/run/undervest"] ≠ [] by simp) (by decide)
    ⟨[], [], str "/etc/undervest", [], false, false, false, 0⟩
  have heval : r = some (⟨str "mail", [], str "a.conf", [], true, false, false, 2⟩,
      str "local:/run/undervest") := Except.ok.inj (hr.symm.trans (by decide +kernel))
  exact (hiff _ _).mp heval

end Undervest
