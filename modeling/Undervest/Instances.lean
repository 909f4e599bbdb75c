import Undervest.Lib.Transition
import Mathlib.Logic.Function.Basic

/-!
# Several daemons

`Globals::run` takes the lock, writes the process id, and at the end deletes both files.
Here any number of processes do so at once, with one name for the lock file and one for
the file of the process id.

The lock is on a file, not on its name.  `Daemon::delete_lock` closes the file before it
deletes the name, and another process may have opened the file by then.  Its lock will be
on a file without a name, and a third process takes the lock on a new one.

As long as no process deletes the name of a file that another has open, there is one
daemon and the process id is its own.  Whenever a process does so, two daemons may follow
(`one_daemon`).

The methods of `Daemon` that make these steps are in `DaemonLock`, and `Daemons` has both.
-/

namespace Undervest

open Transition

abbrev ProcessId := Nat

/-- Where a process stands, with the number of the lock file it has open. -/
inductive Stage where
  /-- It has not come to `lock`, or it is gone. -/
  | outside
  /-- `lock` has opened the file. -/
  | opened (file : Nat)
  /-- `lock` has returned `true`. -/
  | locked (file : Nat)
  /-- `write_pid` has returned. -/
  | running (file : Nat)
  /-- `delete_pid` has returned. -/
  | leaving (file : Nat)
  /-- `delete_lock` has closed the file. -/
  | unlocked
deriving DecidableEq, Repr

/-- The file it has open. -/
def Stage.file : Stage → Option Nat
  | .opened i | .locked i | .running i | .leaving i => some i
  | .outside | .unlocked => none

/-- The file it has locked. -/
def Stage.held : Stage → Option Nat
  | .locked i | .running i | .leaving i => some i
  | .outside | .opened _ | .unlocked => none

theorem Stage.file_of_held {x : Stage} {i : Nat} (h : x.held = some i) : x.file = some i := by
  cases x with
  | locked i => exact h
  | running i => exact h
  | leaving i => exact h
  | _ => cases h

theorem Stage.eq_opened {x : Stage} {i : Nat} (hf : x.file = some i) (hh : x.held = none) :
    x = .opened i := by
  cases x with
  | opened k =>
      obtain rfl := Option.some.inj hf
      rfl
  | outside => cases hf
  | unlocked => cases hf
  | _ => cases hh

/-- The files, the locks and the processes. -/
structure Machine where
  /-- The file that the name of the lock file stands for. -/
  entry : Option Nat
  /-- The first number that is free. -/
  next : Nat
  /-- Who has locked a file. -/
  holder : Nat → Option ProcessId
  /-- The content of the file of the process id. -/
  pid : Option ProcessId
  stage : ProcessId → Stage

inductive InstanceAct where
  | openFile (p : ProcessId)
  | lock (p : ProcessId)
  | writePid (p : ProcessId)
  | deletePid (p : ProcessId)
  | unlock (p : ProcessId)
  | unlink (p : ProcessId)
  /-- It ends where it stands: it leaves `run` without deleting its files, or is killed. -/
  | exit (p : ProcessId)
deriving DecidableEq, Repr

namespace Machine

/-- A process goes on. -/
def move (m : Machine) (p : ProcessId) (x : Stage) : Machine :=
  { m with stage := Function.update m.stage p x }

/-- Its files are closed. -/
def closeFiles (m : Machine) (p : ProcessId) : Machine :=
  { m with holder := (m.stage p).held.elim m.holder fun i => Function.update m.holder i none }

def step (m : Machine) : InstanceAct → Option Machine
  | .openFile p =>
      match m.stage p, m.entry with
      | .outside, some i => some (m.move p (.opened i))
      | .outside, none =>
          some ({ m with entry := some m.next, next := m.next + 1 }.move p (.opened m.next))
      | _, _ => none
  | .lock p =>
      match m.stage p with
      | .opened i =>
          match m.holder i with
          | none => some ({ m with
              holder := Function.update m.holder i (some p) }.move p (.locked i))
          -- `run` returns
          | some _ => some (m.move p .outside)
      | _ => none
  | .writePid p =>
      match m.stage p with
      | .locked i => some ({ m with pid := some p }.move p (.running i))
      | _ => none
  | .deletePid p =>
      match m.stage p with
      | .running i => some ({ m with pid := none }.move p (.leaving i))
      | _ => none
  | .unlock p =>
      match m.stage p with
      | .leaving _ => some ((m.closeFiles p).move p .unlocked)
      | _ => none
  | .unlink p =>
      match m.stage p with
      | .unlocked => some ({ m with entry := none }.move p .outside)
      | _ => none
  | .exit p => some ((m.closeFiles p).move p .outside)

/-- No process has been started. -/
def start (entry : Option Nat) (pid : Option ProcessId) : Machine where
  entry := entry
  next := entry.elim 0 fun i => i + 1
  holder _ := none
  pid := pid
  stage _ := .outside

/-- The step deletes no name of a file that is open. -/
def Unused (m : Machine) : InstanceAct → Prop
  | .unlink _ => ∀ q, (m.stage q).file = none
  | _ => True

end Machine

/-! ## The steps -/

/-- What a process does. -/
inductive MachineStep (m : Machine) : InstanceAct → Machine → Prop where
  | opens {p : ProcessId} {i : Nat} (hp : m.stage p = .outside) (he : m.entry = some i) :
      MachineStep m (.openFile p) (m.move p (.opened i))
  | creates {p : ProcessId} (hp : m.stage p = .outside) (he : m.entry = none) :
      MachineStep m (.openFile p)
        ({ m with entry := some m.next, next := m.next + 1 }.move p (.opened m.next))
  | locks {p : ProcessId} {i : Nat} (hp : m.stage p = .opened i) (hi : m.holder i = none) :
      MachineStep m (.lock p)
        ({ m with holder := Function.update m.holder i (some p) }.move p (.locked i))
  | refused {p q : ProcessId} {i : Nat} (hp : m.stage p = .opened i) (hi : m.holder i = some q) :
      MachineStep m (.lock p) (m.move p .outside)
  | writePid {p : ProcessId} {i : Nat} (hp : m.stage p = .locked i) :
      MachineStep m (.writePid p) ({ m with pid := some p }.move p (.running i))
  | deletePid {p : ProcessId} {i : Nat} (hp : m.stage p = .running i) :
      MachineStep m (.deletePid p) ({ m with pid := none }.move p (.leaving i))
  | unlock {p : ProcessId} {i : Nat} (hp : m.stage p = .leaving i) :
      MachineStep m (.unlock p) ((m.closeFiles p).move p .unlocked)
  | unlink {p : ProcessId} (hp : m.stage p = .unlocked) :
      MachineStep m (.unlink p) ({ m with entry := none }.move p .outside)
  | exit {p : ProcessId} : MachineStep m (.exit p) ((m.closeFiles p).move p .outside)

theorem machine_step_cases {m m' : Machine} {a : InstanceAct} (h : m.step a = some m') :
    MachineStep m a m' := by
  cases a with
  | openFile p =>
      simp only [Machine.step] at h
      split at h
      next i hp he =>
          obtain rfl := Option.some.inj h
          exact .opens hp he
      next hp he =>
          obtain rfl := Option.some.inj h
          exact .creates hp he
      next => cases h
  | lock p =>
      simp only [Machine.step] at h
      split at h
      next i hp =>
          split at h
          next hi =>
              obtain rfl := Option.some.inj h
              exact .locks hp hi
          next q hi =>
              obtain rfl := Option.some.inj h
              exact .refused hp hi
      next => cases h
  | writePid p =>
      simp only [Machine.step] at h
      split at h
      next i hp =>
          obtain rfl := Option.some.inj h
          exact .writePid hp
      next => cases h
  | deletePid p =>
      simp only [Machine.step] at h
      split at h
      next i hp =>
          obtain rfl := Option.some.inj h
          exact .deletePid hp
      next => cases h
  | unlock p =>
      simp only [Machine.step] at h
      split at h
      next i hp =>
          obtain rfl := Option.some.inj h
          exact .unlock hp
      next => cases h
  | unlink p =>
      simp only [Machine.step] at h
      split at h
      next hp =>
          obtain rfl := Option.some.inj h
          exact .unlink hp
      next => cases h
  | exit p =>
      obtain rfl := Option.some.inj h
      exact .exit

namespace Machine

variable {m m' : Machine} {a : InstanceAct} {p q : ProcessId} {x : Stage} {i k : Nat}

/-! ## The locks -/

/-- The locks are those that the processes hold. -/
def LockTable (holder : Nat → Option ProcessId) (stage : ProcessId → Stage) : Prop :=
  ∀ i p, holder i = some p ↔ (stage p).held = some i

namespace LockTable

variable {holder : Nat → Option ProcessId} {stage : ProcessId → Stage}

theorem keep (h : LockTable holder stage) (hx : x.held = (stage p).held) :
    LockTable holder (Function.update stage p x) := by
  intro i q
  by_cases hq : q = p
  · subst hq
    rw [Function.update_self, hx, h i q]
  · rw [Function.update_of_ne hq, h i q]

theorem take (h : LockTable holder stage) (hp : (stage p).held = none) (hi : holder i = none)
    (hx : x.held = some i) :
    LockTable (Function.update holder i (some p)) (Function.update stage p x) := by
  intro k q
  by_cases hk : k = i
  · subst hk
    rw [Function.update_self]
    by_cases hq : q = p
    · subst hq
      rw [Function.update_self, hx]
      exact iff_of_true rfl rfl
    · rw [Function.update_of_ne hq, ← h k q, hi]
      exact iff_of_false (fun e => hq (Option.some.inj e).symm) (by simp)
  · rw [Function.update_of_ne hk]
    by_cases hq : q = p
    · subst hq
      rw [Function.update_self, hx, h k q, hp]
      exact iff_of_false (by simp) fun e => hk (Option.some.inj e).symm
    · rw [Function.update_of_ne hq, h k q]

theorem close (h : LockTable m.holder m.stage) (hx : x.held = none) :
    LockTable (m.closeFiles p).holder (Function.update m.stage p x) := by
  intro k q
  change (m.stage p).held.elim m.holder (fun i => Function.update m.holder i none) k = some q ↔ _
  cases hp : (m.stage p).held with
  | none =>
      change m.holder k = some q ↔ _
      by_cases hq : q = p
      · subst hq
        rw [Function.update_self, hx, h k q, hp]
      · rw [Function.update_of_ne hq, h k q]
  | some i =>
      change Function.update m.holder i none k = some q ↔ _
      by_cases hk : k = i
      · subst hk
        rw [Function.update_self]
        by_cases hq : q = p
        · subst hq
          rw [Function.update_self, hx]
          exact iff_of_false (by simp) (by simp)
        · -- the process was the holder
          rw [Function.update_of_ne hq, ← h k q, (h k p).mpr hp]
          exact iff_of_false (by simp) fun e => hq (Option.some.inj e).symm
      · rw [Function.update_of_ne hk]
        by_cases hq : q = p
        · subst hq
          rw [Function.update_self, hx, h k q, hp]
          exact iff_of_false (fun e => hk (Option.some.inj e).symm) (by simp)
        · rw [Function.update_of_ne hq, h k q]

end LockTable

/-- The locks are right, and the files have numbers. -/
structure Sound (m : Machine) : Prop where
  locks : LockTable m.holder m.stage
  file : ∀ p i, (m.stage p).file = some i → i < m.next
  entry : ∀ i, m.entry = some i → i < m.next

theorem sound_start (entry : Option Nat) (pid : Option ProcessId) : (start entry pid).Sound where
  locks i p := iff_of_false (by simp [start]) (by simp [start, Stage.held])
  file p i h := by cases h
  entry i h := by
    obtain rfl : entry = some i := h
    exact Nat.lt_succ_self i

/-- The files that are open after a process has moved. -/
theorem file_move {P : Nat → Prop} (h : ∀ q i, (m.stage q).file = some i → P i)
    (hx : ∀ i, x.file = some i → P i) (q : ProcessId) (i : Nat)
    (hq : (Function.update m.stage p x q).file = some i) : P i := by
  by_cases hqp : q = p
  · subst hqp
    rw [Function.update_self] at hq
    exact hx i hq
  · rw [Function.update_of_ne hqp] at hq
    exact h q i hq

theorem Sound.step (h : m.Sound) (hs : m.step a = some m') : m'.Sound := by
  cases machine_step_cases hs with
  | @opens p i hp he =>
      refine ⟨h.locks.keep (by rw [hp]; rfl), file_move h.file fun k hk => ?_, h.entry⟩
      obtain rfl := Option.some.inj hk
      exact h.entry _ he
  | @creates p hp he =>
      refine ⟨h.locks.keep (by rw [hp]; rfl), ?_, fun i hi => ?_⟩
      · refine file_move (fun q i hq => Nat.lt_succ_of_lt (h.file q i hq)) fun k hk => ?_
        obtain rfl := Option.some.inj hk
        exact Nat.lt_succ_self _
      · obtain rfl := Option.some.inj hi
        exact Nat.lt_succ_self _
  | @locks p i hp hi =>
      refine ⟨h.locks.take (by rw [hp]; rfl) hi rfl, file_move h.file fun k hk => ?_, h.entry⟩
      exact h.file p k (by rw [hp]; exact hk)
  | @refused p q i hp hi =>
      exact ⟨h.locks.keep (by rw [hp]; rfl), file_move h.file fun k hk => (by cases hk),
        h.entry⟩
  | @writePid p i hp =>
      refine ⟨h.locks.keep (by rw [hp]; rfl), file_move h.file fun k hk => ?_, h.entry⟩
      exact h.file p k (by rw [hp]; exact hk)
  | @deletePid p i hp =>
      refine ⟨h.locks.keep (by rw [hp]; rfl), file_move h.file fun k hk => ?_, h.entry⟩
      exact h.file p k (by rw [hp]; exact hk)
  | @unlock p i hp =>
      exact ⟨h.locks.close rfl, file_move h.file fun k hk => (by cases hk), h.entry⟩
  | @unlink p hp =>
      exact ⟨h.locks.keep (by rw [hp]; rfl), file_move h.file fun k hk => (by cases hk),
        fun i hi => (by cases hi)⟩
  | @exit p =>
      exact ⟨h.locks.close rfl, file_move h.file fun k hk => (by cases hk), h.entry⟩

/-- A file is locked by one process. -/
theorem Sound.held_unique (h : m.Sound) (hp : (m.stage p).held = some i)
    (hq : (m.stage q).held = some i) : p = q :=
  Option.some.inj (((h.locks i p).mpr hp).symm.trans ((h.locks i q).mpr hq))

/-! ## Names that are not deleted too early -/

/-- Every file that is open has the name, and the process id is that of the daemon. -/
structure Ruled (m : Machine) : Prop extends m.Sound where
  named : ∀ p i, (m.stage p).file = some i → m.entry = some i
  pid : ∀ p i, m.stage p = .running i → m.pid = some p

/-- One process has the lock. -/
theorem Ruled.one (h : m.Ruled) (hp : (m.stage p).held = some i) (hq : (m.stage q).held = some k) :
    p = q := by
  have hi := h.named p i (Stage.file_of_held hp)
  have hk := h.named q k (Stage.file_of_held hq)
  obtain rfl := Option.some.inj (hi.symm.trans hk)
  exact h.held_unique hp hq

/-- The process id after a process has moved. -/
theorem pid_move {pid : Option ProcessId} (h : ∀ q i, q ≠ p → m.stage q = .running i →
    pid = some q) (hx : ∀ i, x = .running i → pid = some p) (q : ProcessId) (i : Nat)
    (hq : Function.update m.stage p x q = .running i) : pid = some q := by
  by_cases hqp : q = p
  · subst hqp
    rw [Function.update_self] at hq
    exact hx i hq
  · rw [Function.update_of_ne hqp] at hq
    exact h q i hqp hq

theorem Ruled.step (h : m.Ruled) (hok : m.Unused a) (hs : m.step a = some m') : m'.Ruled := by
  refine ⟨h.toSound.step hs, ?_, ?_⟩
  · cases machine_step_cases hs with
    | @opens p i hp he =>
        refine file_move h.named fun k hk => ?_
        obtain rfl := Option.some.inj hk
        exact he
    | @creates p hp he =>
        refine file_move (fun q i hq => ?_) fun k hk => hk
        have := h.named q i hq
        rw [he] at this
        cases this
    | @unlink p hp =>
        refine file_move (fun q i hq => ?_) fun k hk => (by cases hk)
        rw [hok q] at hq
        cases hq
    | @locks p i hp hi => exact file_move h.named fun k hk => h.named p k (by rw [hp]; exact hk)
    | @writePid p i hp => exact file_move h.named fun k hk => h.named p k (by rw [hp]; exact hk)
    | @deletePid p i hp => exact file_move h.named fun k hk => h.named p k (by rw [hp]; exact hk)
    | _ => exact file_move h.named fun k hk => (by cases hk)
  · -- while a process has the lock the others do not run
    have hother : ∀ {p i q k}, (m.stage p).held = some i → q ≠ p → m.stage q ≠ .running k :=
      fun hp hne hq => hne (h.one (by rw [hq]; rfl) hp)
    cases machine_step_cases hs with
    | @writePid p i hp =>
        exact pid_move (fun q k hne hq => absurd hq (hother (by rw [hp]; rfl) hne))
          fun k _ => rfl
    | @deletePid p i hp =>
        exact pid_move (fun q k hne hq => absurd hq (hother (by rw [hp]; rfl) hne))
          fun k hk => (by cases hk)
    | _ => exact pid_move (fun q k _ hq => h.pid q k hq) fun k hk => (by cases hk)

/-! ## Names that are deleted too early -/

/-- When the name is gone a process takes the lock on a new file. -/
theorem Sound.lock_new (h : m.Sound) (he : m.entry = none) (hp : m.stage p = .outside) :
    ∃ m', run Machine.step m [.openFile p, .lock p] = some m' ∧
      m'.stage p = .locked m.next ∧ ∀ q, q ≠ p → m'.stage q = m.stage q := by
  have hfree : m.holder m.next = none := by
    cases hh : m.holder m.next with
    | none => rfl
    | some q =>
        exact absurd (h.file q _ (Stage.file_of_held ((h.locks _ _).mp hh))) (Nat.lt_irrefl _)
  have hopen : m.step (.openFile p) =
      some ({ m with entry := some m.next, next := m.next + 1 }.move p (.opened m.next)) := by
    simp only [Machine.step, hp, he]
  have hlock : ({ m with entry := some m.next, next := m.next + 1 }.move p
      (.opened m.next)).step (.lock p) = some (({ m with
        entry := some m.next
        next := m.next + 1
        holder := Function.update m.holder m.next (some p) }.move p
          (.opened m.next)).move p (.locked m.next)) := by
    simp only [Machine.step, move, Function.update_self, hfree]
  refine ⟨_, by rw [run, hopen, Option.bind_some, run, hlock]; rfl, Function.update_self ..,
    fun q hq => ?_⟩
  simp only [move, Function.update_of_ne hq]

/-- When a process deletes the name of a file that another has open, two processes can
have the lock. -/
theorem Ruled.two (h : m.Ruled) (hp : m.stage p = .unlocked) (hq : (m.stage q).file = some i) :
    ∃ as m' p' q', (∀ a ∈ as, ∀ r, a ≠ .unlink r) ∧
      run Machine.step m (.unlink p :: as) = some m' ∧ p' ≠ q' ∧
      (∃ k, (m'.stage p').held = some k) ∧ ∃ k, (m'.stage q').held = some k := by
  have hne : ∀ {r}, (m.stage r).file = some i → r ≠ p := by
    rintro r hr rfl
    rw [hp] at hr
    cases hr
  obtain ⟨m₁, hunlink, he, hout, hstage, hholder⟩ : ∃ m₁, m.step (.unlink p) = some m₁ ∧
      m₁.entry = none ∧ m₁.stage p = .outside ∧ (∀ r, r ≠ p → m₁.stage r = m.stage r) ∧
      m₁.holder = m.holder := by
    refine ⟨{ m with entry := none }.move p .outside, ?_, rfl, Function.update_self ..,
      fun r hr => Function.update_of_ne hr _ _, rfl⟩
    simp only [Machine.step, hp]
  have h₁ := h.toSound.step hunlink
  cases hh : m.holder i with
  | some r =>
      -- another process has the lock on the old file
      have hheld := (h.locks i r).mp hh
      have hr := hne (Stage.file_of_held hheld)
      obtain ⟨m', hrun, hlocked, hother⟩ := h₁.lock_new he hout
      refine ⟨_, m', r, p, ?_, by rw [run, hunlink, Option.bind_some, hrun], hr, ⟨i, ?_⟩,
        m₁.next, by rw [hlocked]; rfl⟩
      · simp
      · rw [hother r hr, hstage r hr, hheld]
  | none =>
      -- the process with the old file takes the lock on it first
      have hqp := hne hq
      have hopened : m₁.stage q = .opened i := by
        rw [hstage q hqp]
        refine Stage.eq_opened hq ?_
        cases hx : (m.stage q).held with
        | none => rfl
        | some k =>
            obtain rfl := Option.some.inj (hq.symm.trans (Stage.file_of_held hx))
            rw [(h.locks i q).mpr hx] at hh
            cases hh
      have hlock : m₁.step (.lock q) = some ({ m₁ with
          holder := Function.update m₁.holder i (some q) }.move q (.locked i)) := by
        simp only [Machine.step, hopened, hholder, hh]
      obtain ⟨m', hrun, hlocked, hother⟩ := (h₁.step hlock).lock_new he
        ((Function.update_of_ne hqp.symm _ _).trans hout)
      refine ⟨.lock q :: [.openFile p, .lock p], m', q, p, ?_, ?_, hqp, ⟨i, ?_⟩,
        m₁.next, by rw [hlocked]; rfl⟩
      · simp
      · rw [run, hunlink, Option.bind_some, run, hlock, Option.bind_some, hrun]
      · rw [(hother q hqp).trans (Function.update_self ..)]
        rfl

theorem ruled_start (entry : Option Nat) (pid : Option ProcessId) : (start entry pid).Ruled where
  toSound := sound_start entry pid
  named p i h := by cases h
  pid p i h := by cases h

end Machine

/-- **There is one daemon as long as no process deletes the name of a file that another has
open**, and the process id in the file is its own.  The condition is exact.  In any state
reached so, the next name may be deleted without harm if and only if nobody has the file
open. -/
theorem one_daemon {entry : Option Nat} {pid : Option ProcessId} {m : Machine}
    (h : Reachable Machine.step Machine.Unused (Machine.start entry pid) m) :
    (∀ p q i k, (m.stage p).held = some i → (m.stage q).held = some k → p = q) ∧
      (∀ p i, m.stage p = .running i → m.pid = some p) ∧
      ∀ p, m.stage p = .unlocked →
        ((∀ q, (m.stage q).file = none) ↔
          ∀ as m', (∀ a ∈ as, ∀ r, a ≠ .unlink r) →
            run Machine.step m (.unlink p :: as) = some m' →
            ∀ p' q' i k, (m'.stage p').held = some i → (m'.stage q').held = some k → p' = q') := by
  have hm : m.Ruled := h.invariant (P := Machine.Ruled) (Machine.ruled_start entry pid)
    fun _ _ _ hr hok hs => hr.step hok hs
  refine ⟨fun p q i k hp hq => hm.one hp hq, hm.pid, fun p hp => ⟨fun hfree as m' has hrun => ?_,
    fun hall q => ?_⟩⟩
  · obtain ⟨m₁, hunlink, hrest⟩ := Option.bind_eq_some_iff.mp hrun
    have h₁ : m₁.Ruled := hm.step (a := .unlink p) hfree hunlink
    have hreach : Reachable Machine.step Machine.Unused m₁ m' := by
      refine Reachable.start.of_run (fun m a ha => ?_) hrest
      cases a with
      | unlink r => exact absurd rfl (has _ ha r)
      | _ => trivial
    have hm' : m'.Ruled :=
      hreach.invariant (P := Machine.Ruled) h₁ fun _ _ _ hr hok hs => hr.step hok hs
    exact fun p' q' i k hp' hq' => hm'.one hp' hq'
  · cases hf : (m.stage q).file with
    | none => rfl
    | some i =>
        obtain ⟨as, m', p', q', has, hrun, hne, ⟨k, hk⟩, k', hk'⟩ := hm.two hp hf
        exact absurd (hall as m' has hrun p' q' k k' hk hk') hne

/-- **Two daemons.**  The second process has opened the file when the first one leaves. -/
theorem one_daemon_sample :
    ∃ m, Reachable Machine.step Machine.Unused (Machine.start none none) m ∧
      m.stage 1 = .unlocked ∧
      ∃ as m', run Machine.step m (.unlink 1 :: as) = some m' ∧
        ∃ p q i k, (m'.stage p).held = some i ∧ (m'.stage q).held = some k ∧ p ≠ q := by
  have hpair : ∃ m, Reachable Machine.step Machine.Unused (Machine.start none none) m ∧
      (m.stage 1 = .unlocked ∧ m.stage 2 = .opened 0) := by
    have has : ∀ (m : Machine), ∀ a ∈ ([.openFile 1, .lock 1, .writePid 1, .openFile 2,
        .deletePid 1, .unlock 1] : List InstanceAct), Machine.Unused m a := by
      simp [Machine.Unused]
    exact Reachable.exists_of_run has (by decide)
  obtain ⟨m, hm, h₁, h₂⟩ := hpair
  refine ⟨m, hm, h₁, ?_⟩
  have hiff := (one_daemon hm).2.2 1 h₁
  have hopen : ¬ ∀ q, (m.stage q).file = none := fun hall => by
    have := hall 2
    rw [h₂] at this
    cases this
  refine Classical.by_contradiction fun hno => hopen (hiff.mpr ?_)
  intro as m' _ hrun p q i k hp hq
  exact Classical.by_contradiction fun hne => hno ⟨as, m', hrun, p, q, i, k, hp, hq, hne⟩

end Undervest
