import Undervest.DaemonLock
import Undervest.Instances

/-!
# The objects of the daemons

In `Machine` a process opens the lock file, locks it, closes it and deletes its name.  All
four are done by its `Daemon`, whose methods are those of `Process`.

Here every process has its object.  The steps of `Machine` are its calls, `lock` with what
the files give for `open` and `lockf`, and `delete_lock` in two parts, which are one call
of it (`deleteLock_unlock`).  Between the calls the rest of the process opens and closes
descriptors of its own.

Then the calls can always be made, `lock` returns `true` where `Machine` gives the lock,
and an object holds the lock exactly where it is held there (`objects_hold`).  So the
objects have what is known of `Machine`, that one of them holds the lock as long as no name
of an open file is deleted (`one_holds`).
-/

namespace Undervest

open Transition

/-! ## The calls -/

/-- The process that makes a step. -/
def InstanceAct.process : InstanceAct → ProcessId
  | .openFile p | .lock p | .writePid p | .deletePid p | .unlock p | .unlink p | .exit p => p

namespace Machine

/-- What `open` and `lockf` give `lock`. -/
def outcome (m : Machine) (i fd : Nat) : Process.Outcome where
  descriptor := some fd
  locks := (m.holder i).isNone
  errno := Process.EAGAIN

/-- The calls that a step ends. -/
def calls (m : Machine) (fd : Nat) : InstanceAct → List Process.Action
  | .openFile _ | .writePid _ | .deletePid _ => []
  | .lock p =>
      match m.stage p with
      | .opened i =>
          match m.holder i with
          | none => [.lock (m.outcome i fd)]
          -- `run` returns, and the destructor runs
          | some _ => [.lock (m.outcome i fd), .destroy]
      | _ => []
  | .unlock _ => [.unlock]
  | .unlink _ => [.deleteLock, .destroy]
  | .exit p =>
      match m.stage p with
      | .outside => []
      | _ => [.destroy]

end Machine

/-- The machine, and the object of each process. -/
structure Daemons where
  machine : Machine
  object : ProcessId → Process

inductive DaemonAct where
  /-- A process goes on.  It has some descriptors when it starts, and `open` gives it one. -/
  | act (a : InstanceAct) (others : Nat → Bool) (fd : Nat)
  /-- The rest of a process opens a descriptor. -/
  | opens (p : ProcessId) (fd : Nat)
  /-- It closes one. -/
  | closes (p : ProcessId) (fd : Nat)

namespace Daemons

/-- The object that makes the calls of a step.  A process has a new one when it starts. -/
def caller (program name : Str) (others : Nat → Bool) (s : Daemons) : InstanceAct → Process
  | .openFile _ => Process.start program name others
  | .lock p | .writePid p | .deletePid p | .unlock p | .unlink p | .exit p => s.object p

/-- A process has changed. -/
def put (s : Daemons) (p : ProcessId) (w : Process) : Daemons :=
  { s with object := Function.update s.object p w }

def step (lockdir program name : Str) (s : Daemons) : DaemonAct → Option Daemons
  | .act a others fd =>
      (s.machine.step a).bind fun m =>
        (run (Process.step lockdir) (s.caller program name others a) (s.machine.calls fd a)).map
          fun w => { s.put a.process w with machine := m }
  | .opens p fd => ((s.object p).step lockdir (.otherOpens fd)).map (s.put p)
  | .closes p fd => ((s.object p).step lockdir (.otherCloses fd)).map (s.put p)

/-- No process has been started. -/
def start (entry : Option Nat) (pid : Option ProcessId) : Daemons where
  machine := Machine.start entry pid
  object _ := { Process.start [] [] fun _ => false with alive := false }

/-- The step deletes no name of a file that is open. -/
def Unused (s : Daemons) : DaemonAct → Prop
  | .act a _ _ => s.machine.Unused a
  | .opens _ _ | .closes _ _ => True

end Daemons

/-! ## The stages of an object -/

namespace Process

variable {lockdir program name path : Str} {w w' : Process} {others : Nat → Bool} {fd : Nat}

@[simp] theorem unlock_alive (w : Process) : w.unlock.alive = w.alive := by
  rw [unlock]
  split <;> rfl

@[simp] theorem unlock_lockFile (w : Process) : w.unlock.daemon.lockFile = w.daemon.lockFile := by
  rw [unlock]
  split <;> rfl

theorem unlock_eq_self (h : w.daemon.lockfd < 0) : w.unlock = w := if_neg (Int.not_le.mpr h)

theorem unlock_lockfd (w : Process) : w.unlock.daemon.lockfd < 0 := by
  rw [unlock]
  split
  next => exact show (-1 : Int) < 0 by decide
  next h => exact Int.not_le.mp h

theorem close_own {n : Nat} {k : Int} {locked : Bool}
    (h : (w.close k).descriptors n = some (.own path locked)) :
    (n : Int) ≠ k ∧ w.descriptors n = some (.own path locked) := by
  rw [close_descriptors] at h
  split at h
  next => cases h
  next hne => exact ⟨hne, h⟩

/-- `unlock` opens nothing. -/
theorem unlock_own {n : Nat} {locked : Bool}
    (h : w.unlock.descriptors n = some (.own path locked)) :
    w.descriptors n = some (.own path locked) := by
  rw [unlock] at h
  split at h
  next => exact (close_own h).2
  next => exact h

/-- **`delete_lock` is `unlock`, and then the name is deleted.** -/
theorem deleteLock_unlock (w : Process) : w.unlock.deleteLock = w.deleteLock := by
  rw [deleteLock, deleteLock, unlock_eq_self w.unlock_lockfd]

theorem deleteLock_alive (w : Process) : w.deleteLock.alive = w.alive := by
  rw [deleteLock]
  split <;> exact w.unlock_alive

theorem deleteLock_lockfd (w : Process) :
    w.deleteLock.daemon.lockfd = w.unlock.daemon.lockfd := by
  rw [deleteLock]
  split <;> rfl

theorem deleteLock_unlinked (h : w.daemon.lockFile ≠ []) :
    w.deleteLock.unlinked = w.daemon.lockFile :: w.unlock.unlinked := by
  rw [deleteLock]
  simp only [unlock_lockFile]
  rw [if_pos h]

/-- The object of a process that stands there. -/
structure Stands (name : Str) (w : Process) (x : Stage) : Prop where
  sound : w.Sound
  alive : w.alive = true ↔ x ≠ .outside
  name : x ≠ .outside → w.daemon.lockFile = name
  flag : 0 ≤ w.daemon.lockfd ↔ x.held ≠ none

theorem Stands.holds {x : Stage} (h : Stands name w x) : w.Holds ↔ x.held ≠ none :=
  h.sound.flag.symm.trans h.flag

theorem Stands.lockfd_neg {x : Stage} (h : Stands name w x) (hx : x.held = none) :
    w.daemon.lockfd < 0 := Int.not_le.mp (mt h.flag.mp (not_not.mpr hx))

/-- An object that is new stands before `lock`. -/
theorem stands_start {i : Nat} : Stands name (start program name others) (.opened i) where
  sound := start_sound program name others
  alive := iff_of_true rfl (by simp)
  name _ := rfl
  flag := iff_of_false (show ¬ (0 : Int) ≤ -1 by decide) (by simp [Stage.held])

/-- A step that calls nothing. -/
theorem Stands.stay {x y : Stage} (h : Stands name w x) (hx : x ≠ .outside) (hy : y ≠ .outside)
    (hheld : y.held = x.held) : Stands name w y where
  sound := h.sound
  alive := h.alive.trans (iff_of_true hx hy)
  name _ := h.name hx
  flag := by rw [hheld]; exact h.flag

/-- What the rest of the process does with its descriptors. -/
theorem Stands.other {x : Stage} {a : Action} (h : Stands name w x)
    (ha : (∃ fd, a = .otherOpens fd) ∨ ∃ fd, a = .otherCloses fd)
    (hs : w.step lockdir a = some w') : Stands name w' x := by
  obtain ⟨⟨w'', r⟩, hc, rfl⟩ := Option.map_eq_some_iff.mp hs
  have hmeets : w.Meets lockdir a := by
    rcases ha with ⟨fd, rfl⟩ | ⟨fd, rfl⟩ <;> exact trivial
  have hsame : w''.daemon = w.daemon ∧ w''.alive = w.alive := by
    rcases ha with ⟨fd, rfl⟩ | ⟨fd, rfl⟩ <;>
      · obtain ⟨-, he⟩ := Option.ite_none_right_eq_some.mp hc
        cases he
        exact ⟨rfl, rfl⟩
  refine ⟨(h.sound.call hmeets hc).1, ?_, ?_, ?_⟩
  · rw [hsame.2]
    exact h.alive
  · rw [hsame.1]
    exact h.name
  · rw [hsame.1]
    exact h.flag

/-! ## The calls of an object -/

/-- The file that `lock` opens. -/
theorem Stands.lockName {x : Stage} (hname : name ≠ []) (h : Stands name w x)
    (hx : x ≠ .outside) : lockName lockdir w.daemon = some name := by
  rw [Process.lockName, h.name hx, if_neg]
  exact fun hlen => hname (List.length_eq_zero_iff.mp hlen)

/-- **`lock` returns whether nobody else has the file locked.**  When it returns `true` the
object holds the lock, otherwise it has closed the file. -/
theorem Stands.call_lock {m : Machine} {i : Nat} (hname : name ≠ [])
    (h : Stands name w (.opened i)) (hfd : w.descriptors fd = none) :
    w.call lockdir (.lock (m.outcome i fd)) =
      match m.holder i with
      | none => some (w.assign fd name true, .returns true)
      | some _ => some ((w.assign fd name false).close fd, .returns false) := by
  have halive : w.alive = true := h.alive.mpr (by simp)
  have hfree : ¬ 0 ≤ w.daemon.lockfd := Int.not_le.mpr (h.lockfd_neg rfl)
  have hpath : Process.lockName lockdir w.daemon = some name := h.lockName hname (by simp)
  rw [call, if_pos halive, lock, if_neg hfree, hpath]
  cases hholder : m.holder i with
  | none =>
      simp only [Machine.outcome, hholder, hfd, ne_eq, not_true_eq_false, if_false,
        Option.isNone_none, if_true]
  | some q =>
      simp only [Machine.outcome, hholder, hfd, ne_eq, not_true_eq_false, if_false,
        Option.isNone_some, Bool.false_eq_true, or_true, if_true]

theorem Stands.locks {i : Nat} (h : Stands name w (.opened i)) :
    Stands name (w.assign fd name true) (.locked i) where
  sound := h.sound.assign (h.lockfd_neg rfl) name
  alive := h.alive.trans (iff_of_true (by simp) (by simp))
  name _ := rfl
  flag := iff_of_true (Int.natCast_nonneg fd) (by simp [Stage.held])

/-- The object of a process that is gone. -/
theorem Sound.stands_gone (h : w.Sound) :
    Stands name { w.unlock with alive := false } .outside where
  sound := ⟨h.unlock.1.held, h.unlock.1.only⟩
  alive := iff_of_false (by simp) (by simp)
  name hx := absurd rfl hx
  flag := iff_of_false (Int.not_le.mpr w.unlock_lockfd) (by simp [Stage.held])

/-- The number of a file that was closed after `lockf` failed is closed again by the
destructor. -/
theorem Stands.refused {i : Nat} (h : Stands name w (.opened i)) :
    Stands name { ((w.assign fd name false).close fd).unlock with alive := false } .outside := by
  have hown := h.sound.not_own (h.lockfd_neg rfl)
  have hlockfd := ((w.assign fd name false).close fd).unlock_lockfd
  refine ⟨⟨fun hle => absurd hle (Int.not_le.mpr hlockfd), fun n path locked hn => ?_⟩,
    iff_of_false (by simp) (by simp), fun hx => absurd rfl hx,
    iff_of_false (Int.not_le.mpr hlockfd) (by simp [Stage.held])⟩
  have hn := close_own (unlock_own (w := (w.assign fd name false).close fd) hn)
  rw [assign_descriptors, if_neg fun he => hn.1 (congrArg Nat.cast he)] at hn
  exact absurd hn.2 (hown n path locked)

theorem Stands.unlock {i : Nat} (h : Stands name w (.leaving i)) :
    Stands name w.unlock .unlocked where
  sound := h.sound.unlock.1
  alive := by
    rw [unlock_alive]
    exact h.alive.trans (iff_of_true (by simp) (by simp))
  name _ := by
    rw [unlock_lockFile]
    exact h.name (by simp)
  flag := iff_of_false (Int.not_le.mpr w.unlock_lockfd) (by simp [Stage.held])

theorem step_unlock (h : w.alive = true) : w.step lockdir .unlock = some w.unlock := by
  rw [step, call, if_pos h]
  rfl

theorem step_deleteLock (h : w.alive = true) :
    w.step lockdir .deleteLock = some w.deleteLock := by
  rw [step, call, if_pos h]
  rfl

theorem step_destroy (h : w.alive = true) :
    w.step lockdir .destroy = some { w.unlock with alive := false } := by
  rw [step, call, if_pos h]
  rfl

end Process

namespace Daemons

variable {lockdir program name : Str} {s s' : Daemons}

/-! ## One step -/

@[simp] theorem move_stage (m : Machine) (p : ProcessId) (x : Stage) :
    (m.move p x).stage p = x := Function.update_self ..

@[simp] theorem put_object_self (p : ProcessId) (w : Process) : (s.put p w).object p = w :=
  Function.update_self ..

theorem put_object_of_ne {p q : ProcessId} (h : q ≠ p) (w : Process) :
    (s.put p w).object q = s.object q := Function.update_of_ne h _ _

/-- **The calls of a step can be made**, when `open` gives a number that is free, and bring
the object where the process stands. -/
theorem calls_stand {m : Machine} {a : InstanceAct} {others : Nat → Bool} {fd : Nat}
    (hname : name ≠ []) (h : (s.object a.process).Stands name (s.machine.stage a.process))
    (hs : s.machine.step a = some m)
    (hfd : ∀ p, a = .lock p → (s.object p).descriptors fd = none) :
    ∃ w, run (Process.step lockdir) (s.caller program name others a) (s.machine.calls fd a) =
        some w ∧ w.Stands name (m.stage a.process) := by
  cases machine_step_cases hs with
  | @opens p i hp he =>
      refine ⟨_, rfl, ?_⟩
      rw [InstanceAct.process, move_stage]
      exact Process.stands_start
  | @creates p hp he =>
      refine ⟨_, rfl, ?_⟩
      rw [InstanceAct.process, move_stage]
      exact Process.stands_start
  | @locks p i hp hi =>
      rw [InstanceAct.process, hp] at h
      have hcall : (s.object p).step lockdir (.lock (s.machine.outcome i fd)) =
          some ((s.object p).assign fd name true) := by
        rw [Process.step, h.call_lock hname (hfd p rfl), hi]
        rfl
      refine ⟨(s.object p).assign fd name true, ?_, ?_⟩
      · simp only [Machine.calls, hp, hi]
        rw [run, caller, hcall, Option.bind_some, run]
      · rw [InstanceAct.process, move_stage]
        exact h.locks
  | @refused p q i hp hi =>
      rw [InstanceAct.process, hp] at h
      have hcall : (s.object p).step lockdir (.lock (s.machine.outcome i fd)) =
          some (((s.object p).assign fd name false).close fd) := by
        rw [Process.step, h.call_lock hname (hfd p rfl), hi]
        rfl
      have halive : (((s.object p).assign fd name false).close fd).alive = true :=
        h.alive.mpr (by simp)
      refine ⟨{ (((s.object p).assign fd name false).close fd).unlock with alive := false },
        ?_, ?_⟩
      · simp only [Machine.calls, hp, hi]
        rw [run, caller, hcall, Option.bind_some, run, Process.step_destroy halive,
          Option.bind_some, run]
      · rw [InstanceAct.process, move_stage]
        exact h.refused
  | @writePid p i hp =>
      rw [InstanceAct.process, hp] at h
      refine ⟨_, rfl, ?_⟩
      rw [InstanceAct.process, move_stage]
      exact h.stay (by simp) (by simp) rfl
  | @deletePid p i hp =>
      rw [InstanceAct.process, hp] at h
      refine ⟨_, rfl, ?_⟩
      rw [InstanceAct.process, move_stage]
      exact h.stay (by simp) (by simp) rfl
  | @unlock p i hp =>
      rw [InstanceAct.process, hp] at h
      refine ⟨(s.object p).unlock, ?_, ?_⟩
      · rw [Machine.calls, run, caller, Process.step_unlock (h.alive.mpr (by simp)),
          Option.bind_some, run]
      · rw [InstanceAct.process, move_stage]
        exact h.unlock
  | @unlink p hp =>
      rw [InstanceAct.process, hp] at h
      have halive : (s.object p).alive = true := h.alive.mpr (by simp)
      refine ⟨{ (s.object p).deleteLock.unlock with alive := false }, ?_, ?_⟩
      · rw [Machine.calls, run, caller, Process.step_deleteLock halive, Option.bind_some, run,
          Process.step_destroy ((s.object p).deleteLock_alive.trans halive), Option.bind_some, run]
      · rw [InstanceAct.process, move_stage]
        exact h.sound.deleteLock.1.stands_gone
  | @exit p =>
      rw [InstanceAct.process] at h ⊢
      simp only [Machine.calls, caller, move_stage]
      split
      next hp => exact ⟨_, rfl, hp ▸ h⟩
      next hp =>
          refine ⟨{ (s.object p).unlock with alive := false }, ?_, h.sound.stands_gone⟩
          rw [run, Process.step_destroy (h.alive.mpr hp), Option.bind_some, run]

/-- The number that `open` gave `lock` was free. -/
theorem free_of_calls {p : ProcessId} {m : Machine} {others : Nat → Bool} {fd : Nat} {w : Process}
    (hname : name ≠ []) (h : (s.object p).Stands name (s.machine.stage p))
    (hs : s.machine.step (.lock p) = some m)
    (hr : run (Process.step lockdir) (s.caller program name others (.lock p))
      (s.machine.calls fd (.lock p)) = some w) : (s.object p).descriptors fd = none := by
  obtain ⟨i, hp, as, has⟩ : ∃ i, s.machine.stage p = .opened i ∧ ∃ as,
      s.machine.calls fd (.lock p) = .lock (s.machine.outcome i fd) :: as := by
    cases machine_step_cases hs with
    | @locks _ i hp hi => exact ⟨i, hp, [], by simp only [Machine.calls, hp, hi]⟩
    | @refused _ q i hp hi => exact ⟨i, hp, [.destroy], by simp only [Machine.calls, hp, hi]⟩
  rw [hp] at h
  rw [has, run] at hr
  obtain ⟨w₁, hstep, -⟩ := Option.bind_eq_some_iff.mp hr
  obtain ⟨⟨w₂, r⟩, hcall, -⟩ := Option.map_eq_some_iff.mp hstep
  have hpath : Process.lockName lockdir (s.object p).daemon = some name :=
    h.lockName hname (by simp)
  rcases Process.lock_cases (Process.call_lock hcall) with ⟨-, -, hle | hnone⟩ | ⟨-, hnone, -⟩ |
    ⟨path, k, -, -, hk, hfree, -⟩
  · exact absurd (h.flag.mp hle) (by simp [Stage.held])
  · rw [caller, hpath] at hnone
    cases hnone
  · cases hnone
  · obtain rfl := Option.some.inj hk
    exact hfree

/-- The other processes stay where they are. -/
theorem stage_of_ne {m m' : Machine} {a : InstanceAct} {q : ProcessId} (hs : m.step a = some m')
    (hq : q ≠ a.process) : m'.stage q = m.stage q := by
  cases machine_step_cases hs with
  | _ => exact Function.update_of_ne hq _ _

/-- Every object is where its process stands. -/
def Stood (name : Str) (s : Daemons) : Prop := ∀ p, (s.object p).Stands name (s.machine.stage p)

theorem stood_start (entry : Option Nat) (pid : Option ProcessId) :
    (start entry pid).Stood name := fun _ =>
  (Process.start_sound [] [] fun _ => false).stands_gone

theorem Stood.put {p : ProcessId} {w : Process} (h : s.Stood name)
    (hw : w.Stands name (s.machine.stage p)) : (s.put p w).Stood name := by
  intro q
  by_cases hq : q = p
  · subst hq
    rw [put_object_self]
    exact hw
  · rw [put_object_of_ne hq]
    exact h q

/-- **Every step leaves the objects where their processes stand.** -/
theorem Stood.step {b : DaemonAct} (hname : name ≠ []) (h : s.Stood name)
    (hs : s.step lockdir program name b = some s') : s'.Stood name := by
  cases b with
  | act a others fd =>
      obtain ⟨m, hm, hr⟩ := Option.bind_eq_some_iff.mp hs
      obtain ⟨w, hw, rfl⟩ := Option.map_eq_some_iff.mp hr
      have hfree : ∀ p, a = .lock p → (s.object p).descriptors fd = none := by
        rintro p rfl
        exact free_of_calls hname (h p) hm hw
      obtain ⟨w', hw', hstands⟩ : ∃ w', run (Process.step lockdir)
          (s.caller program name others a) (s.machine.calls fd a) = some w' ∧
            w'.Stands name (m.stage a.process) :=
        calls_stand hname (h a.process) hm hfree
      obtain rfl : w' = w := Option.some.inj (hw'.symm.trans hw)
      intro q
      by_cases hq : q = a.process
      · subst hq
        exact (put_object_self (s := s) a.process w').symm ▸ hstands
      · change ((s.put a.process w').object q).Stands name (m.stage q)
        rw [put_object_of_ne hq, stage_of_ne hm hq]
        exact h q
  | opens p fd =>
      obtain ⟨w, hw, rfl⟩ := Option.map_eq_some_iff.mp hs
      exact h.put ((h p).other (Or.inl ⟨fd, rfl⟩) hw)
  | closes p fd =>
      obtain ⟨w, hw, rfl⟩ := Option.map_eq_some_iff.mp hs
      exact h.put ((h p).other (Or.inr ⟨fd, rfl⟩) hw)

/-- A step that is one of the machine. -/
theorem step_act {m : Machine} {a : InstanceAct} {others : Nat → Bool} {fd : Nat}
    (hname : name ≠ []) (h : s.Stood name) (hs : s.machine.step a = some m)
    (hfd : ∀ p, a = .lock p → (s.object p).descriptors fd = none) :
    ∃ s', s.step lockdir program name (.act a others fd) = some s' ∧ s'.machine = m := by
  obtain ⟨w, hw, -⟩ := calls_stand hname (h a.process) hs hfd
  refine ⟨{ s.put a.process w with machine := m }, ?_, rfl⟩
  rw [step, hs, Option.bind_some, hw, Option.map_some]

/-! ## Every run -/

/-- The machine goes through one of its runs. -/
theorem machine_reachable {ok : Daemons → DaemonAct → Prop} {ok' : Machine → InstanceAct → Prop}
    {entry : Option Nat} {pid : Option ProcessId}
    (hok : ∀ s a others fd, ok s (.act a others fd) → ok' s.machine a)
    (h : Reachable (step lockdir program name) ok (start entry pid) s) :
    Reachable Machine.step ok' (Machine.start entry pid) s.machine := by
  refine h.invariant (P := fun s => Reachable Machine.step ok' (Machine.start entry pid) s.machine)
    .start fun s b s' hs hb hstep => ?_
  cases b with
  | act a others fd =>
      obtain ⟨m, hm, hr⟩ := Option.bind_eq_some_iff.mp hstep
      obtain ⟨w, -, rfl⟩ := Option.map_eq_some_iff.mp hr
      exact hs.next (hok s a others fd hb) hm
  | opens p fd =>
      obtain ⟨w, -, rfl⟩ := Option.map_eq_some_iff.mp hstep
      exact hs
  | closes p fd =>
      obtain ⟨w, -, rfl⟩ := Option.map_eq_some_iff.mp hstep
      exact hs

theorem reachable_stood {ok : Daemons → DaemonAct → Prop} {entry : Option Nat}
    {pid : Option ProcessId} (hname : name ≠ [])
    (h : Reachable (step lockdir program name) ok (start entry pid) s) : s.Stood name :=
  h.invariant (stood_start entry pid) fun _ _ _ hs _ hstep => hs.step hname hstep

/-- **The steps of the processes are the calls of their objects.**  In every run of the
objects the machine goes through one of its runs, an object holds an open, locked file
exactly where its process has the lock, and the calls of each step of the machine can be
made.  `lock` returns whether nobody has the file locked, and `delete_lock` closes it and
deletes the name. -/
theorem objects_hold {entry : Option Nat} {pid : Option ProcessId} (hname : name ≠ [])
    (h : Reachable (step lockdir program name) (fun _ _ => True) (start entry pid) s) :
    Reachable Machine.step (fun _ _ => True) (Machine.start entry pid) s.machine ∧
      (∀ p, (s.object p).Holds ↔ (s.machine.stage p).held ≠ none) ∧
      (∀ a m, s.machine.step a = some m → ∀ others fd,
        (∀ p, a = .lock p → (s.object p).descriptors fd = none) →
          ∃ s', s.step lockdir program name (.act a others fd) = some s' ∧ s'.machine = m) ∧
      (∀ p i fd, s.machine.stage p = .opened i → (s.object p).descriptors fd = none →
        ∃ w, (s.object p).call lockdir (.lock (s.machine.outcome i fd)) =
          some (w, .returns (s.machine.holder i).isNone)) ∧
      ∀ p i, s.machine.stage p = .leaving i → ¬ (s.object p).deleteLock.Holds ∧
        (s.object p).deleteLock.unlinked = name :: (s.object p).unlock.unlinked := by
  have hs := reachable_stood hname h
  refine ⟨machine_reachable (fun _ _ _ _ _ => trivial) h, fun p => (hs p).holds,
    fun a m ha others fd hfd => step_act hname hs ha hfd, fun p i fd hp hfd => ?_,
    fun p i hp => ?_⟩
  · have hstands := hs p
    rw [hp] at hstands
    rw [hstands.call_lock hname hfd]
    cases s.machine.holder i with
    | none => exact ⟨_, rfl⟩
    | some q => exact ⟨_, rfl⟩
  · have hstands := hs p
    rw [hp] at hstands
    have hfile := hstands.name (by simp)
    refine ⟨?_, ?_⟩
    · rw [← hstands.sound.deleteLock.1.flag, Process.deleteLock_lockfd]
      exact Int.not_le.mpr (Process.unlock_lockfd _)
    · rw [Process.deleteLock_unlinked (by rw [hfile]; exact hname), hfile]

/-- **One object holds the lock**, in a run that deletes no name of an open file. -/
theorem one_holds {entry : Option Nat} {pid : Option ProcessId} (hname : name ≠ [])
    (h : Reachable (step lockdir program name) Unused (start entry pid) s) {p q : ProcessId}
    (hp : (s.object p).Holds) (hq : (s.object q).Holds) : p = q := by
  have hs := reachable_stood hname h
  have hm : s.machine.Ruled := (machine_reachable (fun _ _ _ _ hb => hb) h).invariant
    (P := Machine.Ruled) (Machine.ruled_start entry pid) fun _ _ _ hr hok hstep => hr.step hok hstep
  obtain ⟨i, hi⟩ := Option.ne_none_iff_exists'.mp ((hs p).holds.mp hp)
  obtain ⟨k, hk⟩ := Option.ne_none_iff_exists'.mp ((hs q).holds.mp hq)
  exact hm.one hi hk

end Daemons

end Undervest
