import Undervest.FilePathAlgebra
import Undervest.Lib.Transition

/-!
# The lock file of the daemon

`Daemon::lock`, `unlock`, `delete_lock` and the destructor, next to the descriptors
of the process.  Numbers that are free may be given to others at any time, and
others close what is theirs.

The results of `open` and `lockf` are inputs (`Outcome`).  When `lockf` fails the
descriptor is closed and its number stays in `lockfd`.

`Sound` says that the number is the flag it is used as: not negative exactly when
the object holds an open, locked file, and then the number of this file.  Every
step keeps it in which `lockf` does not fail (`Sound.call`), and a step in which it
does breaks it (`fails_of_lockf`).
-/

namespace Undervest

/-! ## The object and the process -/

/-- `Daemon`, as far as the lock goes. -/
structure Daemon where
  program : Str
  lockFile : Str
  lockfd : Int
deriving DecidableEq, Repr

/-- An open descriptor: a file of the object, or one of another. -/
inductive Descriptor where
  | own (path : Str) (locked : Bool)
  | other
deriving DecidableEq, Repr

/-- The object, the descriptors of the process, and the files that were unlinked. -/
structure Process where
  daemon : Daemon
  /-- The destructor has not run. -/
  alive : Bool
  descriptors : Nat → Option Descriptor
  unlinked : List Str

namespace Process

/-- What the system calls of `lock` give. -/
structure Outcome where
  /-- `open`: a descriptor, unless it fails. -/
  descriptor : Option Nat
  /-- `lockf` succeeds. -/
  locks : Bool
  /-- `errno` after the descriptor was closed. -/
  errno : Nat
deriving DecidableEq, Repr

/-- How a call ends. -/
inductive Result where
  | returns (value : Bool)
  | raises
  | ends
deriving DecidableEq, Repr

def EACCES : Nat := 13
def EAGAIN : Nat := 11

/-! ## The methods -/

/-- `::close`. -/
def close (w : Process) (fd : Int) : Process :=
  { w with descriptors := fun n => if (n : Int) = fd then none else w.descriptors n }

@[simp] theorem close_descriptors (w : Process) (fd : Int) (n : Nat) :
    (w.close fd).descriptors n = if (n : Int) = fd then none else w.descriptors n := rfl

/-- `Daemon::lock_file` of a name: what it stores, unless it raises. -/
def lockFilePath (lockdir lockfile : Str) : Option Str :=
  if lockfile.length = 0 ∨ ch '/' ∈ lockfile then some lockfile
  else ((FilePath.assign lockdir).add (FilePath.assign lockfile)).map FilePath.get

/-- The name `lock` takes, unless it raises. -/
def lockName (lockdir : Str) (d : Daemon) : Option Str :=
  if d.lockFile.length = 0 then
    if d.program.length ≠ 0 then lockFilePath lockdir d.program else none
  else some d.lockFile

/-- The descriptor that `open` gives is stored before `lockf` is called. -/
def assign (w : Process) (fd : Nat) (path : Str) (locked : Bool) : Process :=
  { w with
    daemon := { w.daemon with lockFile := path, lockfd := fd }
    descriptors := fun n => if n = fd then some (.own path locked) else w.descriptors n }

@[simp] theorem assign_descriptors (w : Process) (fd : Nat) (path : Str) (locked : Bool)
    (n : Nat) : (w.assign fd path locked).descriptors n =
      if n = fd then some (.own path locked) else w.descriptors n := rfl

/-- `Daemon::lock`.  A descriptor is one that was free. -/
def lock (lockdir : Str) (o : Outcome) (w : Process) : Option (Process × Result) :=
  if 0 ≤ w.daemon.lockfd then some (w, .raises)
  else
    match lockName lockdir w.daemon with
    | none => some (w, .raises)
    | some path =>
        match o.descriptor with
        | none =>
            some ({ w with daemon := { w.daemon with lockFile := path, lockfd := -1 } }, .raises)
        | some fd =>
            if w.descriptors fd ≠ none then none
            else
              let w := w.assign fd path o.locks
              if o.locks then some (w, .returns true)
              else if o.errno = EACCES ∨ o.errno = EAGAIN then some (w.close fd, .returns false)
              else some (w.close fd, .raises)

/-- `Daemon::unlock`. -/
def unlock (w : Process) : Process :=
  if 0 ≤ w.daemon.lockfd then
    { w.close w.daemon.lockfd with daemon := { w.daemon with lockfd := -1 } }
  else w

/-- `Daemon::delete_lock`. -/
def deleteLock (w : Process) : Process :=
  let w := w.unlock
  if w.daemon.lockFile ≠ [] then { w with unlinked := w.daemon.lockFile :: w.unlinked } else w

/-! ## Runs -/

/-- What happens next: a call of a method, the destructor, or something that others do
with descriptors of their own. -/
inductive Action where
  | lock (o : Outcome)
  | unlock
  | deleteLock
  | destroy
  | otherOpens (fd : Nat)
  | otherCloses (fd : Nat)
deriving DecidableEq, Repr

def call (lockdir : Str) (w : Process) : Action → Option (Process × Result)
  | .lock o => if w.alive then w.lock lockdir o else none
  | .unlock => if w.alive then some (w.unlock, .ends) else none
  | .deleteLock => if w.alive then some (w.deleteLock, .ends) else none
  | .destroy => if w.alive then some ({ w.unlock with alive := false }, .ends) else none
  | .otherOpens fd =>
      if w.descriptors fd = none then
        some ({ w with descriptors := fun n =>
          if n = fd then some .other else w.descriptors n }, .ends)
      else none
  | .otherCloses fd => if w.descriptors fd = some .other then some (w.close fd, .ends) else none

def step (lockdir : Str) (w : Process) (a : Action) : Option Process :=
  (w.call lockdir a).map Prod.fst

/-- The constructor `Daemon(pgmpath)`, in a process with some open descriptors. -/
def start (program lockFile : Str) (others : Nat → Bool) : Process :=
  ⟨⟨program, lockFile, -1⟩, true, fun n => if others n then some .other else none, []⟩

/-! ## The flag -/

/-- The object holds an open, locked file. -/
def Holds (w : Process) : Prop := ∃ n path, w.descriptors n = some (.own path true)

/-- The number is that of the file, and there is no other file of the object. -/
structure Sound (w : Process) : Prop where
  held : 0 ≤ w.daemon.lockfd → ∃ (n : Nat) (path : Str), w.daemon.lockfd = n ∧
    w.descriptors n = some (.own path true)
  only : ∀ n path locked, w.descriptors n = some (.own path locked) →
    w.daemon.lockfd = n ∧ locked = true

/-- `lockf` succeeds, where `lock` comes to it. -/
def Meets (lockdir : Str) (w : Process) : Action → Prop
  | .lock o => w.daemon.lockfd < 0 → lockName lockdir w.daemon ≠ none → o.descriptor ≠ none →
      o.locks = true
  | _ => True

theorem Sound.flag {w : Process} (h : w.Sound) : 0 ≤ w.daemon.lockfd ↔ w.Holds := by
  constructor
  · intro hfd
    obtain ⟨n, path, -, hn⟩ := h.held hfd
    exact ⟨n, path, hn⟩
  · rintro ⟨n, path, hn⟩
    rw [(h.only n path true hn).1]
    exact Int.natCast_nonneg n

theorem start_sound (program lockFile : Str) (others : Nat → Bool) :
    (start program lockFile others).Sound where
  held h := absurd h (show ¬ (0 : Int) ≤ -1 by decide)
  only n path locked h := by
    change (if others n then some Descriptor.other else none) = _ at h
    split at h <;> cases h

/-! ## One step -/

section

variable {lockdir : Str} {w w' : Process} {o : Outcome} {r : Result} {a : Action}

/-- What a call of `lock` does: it finds the object locked, or no name, or `open` fails,
or it closes the file again, or it keeps it. -/
theorem lock_cases (h : w.lock lockdir o = some (w', r)) :
    (r = .raises ∧ w' = w ∧ (0 ≤ w.daemon.lockfd ∨ lockName lockdir w.daemon = none)) ∨
      (w.daemon.lockfd < 0 ∧ o.descriptor = none ∧ r = .raises ∧ ∃ path,
        w' = { w with daemon := { w.daemon with lockFile := path, lockfd := -1 } }) ∨
      ∃ path fd, w.daemon.lockfd < 0 ∧ lockName lockdir w.daemon = some path ∧
        o.descriptor = some fd ∧ w.descriptors fd = none ∧
        (o.locks = true ∧ r = .returns true ∧ w' = w.assign fd path true ∨
          o.locks = false ∧ r ≠ .returns true ∧ w' = (w.assign fd path false).close fd) := by
  rw [lock] at h
  split at h
  next hfd =>
      cases h
      exact Or.inl ⟨rfl, rfl, Or.inl hfd⟩
  next hfd =>
      have hfd := Int.not_le.mp hfd
      cases hname : lockName lockdir w.daemon with
      | none =>
          rw [hname] at h
          cases h
          exact Or.inl ⟨rfl, rfl, Or.inr rfl⟩
      | some path =>
          simp only [hname] at h
          cases hopen : o.descriptor with
          | none =>
              simp only [hopen] at h
              cases h
              exact Or.inr (Or.inl ⟨hfd, rfl, rfl, path, rfl⟩)
          | some fd =>
              simp only [hopen] at h
              split at h
              next => cases h
              next hfree =>
                  refine Or.inr (Or.inr ⟨path, fd, hfd, rfl, rfl, not_not.mp hfree, ?_⟩)
                  cases hlocks : o.locks with
                  | true =>
                      simp only [hlocks, if_true] at h
                      cases h
                      exact Or.inl ⟨rfl, rfl, rfl⟩
                  | false =>
                      simp only [hlocks, Bool.false_eq_true, if_false] at h
                      split at h <;> cases h <;> exact Or.inr ⟨rfl, by simp, rfl⟩

/-- An object without a lock has no descriptor. -/
theorem Sound.not_own (h : w.Sound) (hfd : w.daemon.lockfd < 0) (n : Nat) (path : Str)
    (locked : Bool) : w.descriptors n ≠ some (.own path locked) := by
  intro hn
  have := (h.only n path locked hn).1
  omega

theorem Sound.unlock (h : w.Sound) :
    w.unlock.Sound ∧ w.unlock.daemon.lockfd < 0 ∧
      ∀ n, w.descriptors n = some .other → w.unlock.descriptors n = some .other := by
  rw [Process.unlock]
  split
  next hfd =>
      obtain ⟨k, path, hk, hfile⟩ := h.held hfd
      refine ⟨⟨fun hle => absurd hle (show ¬ (0 : Int) ≤ -1 by decide),
        fun n path' locked hn => ?_⟩, show (-1 : Int) < 0 by decide, fun n hn => ?_⟩
      · rw [close_descriptors] at hn
        split at hn
        next => cases hn
        next hne => exact absurd (h.only n path' locked hn).1.symm hne
      · change (w.close w.daemon.lockfd).descriptors n = _
        rw [close_descriptors, if_neg, hn]
        intro he
        rw [hk, Int.natCast_inj] at he
        rw [he, hfile] at hn
        cases hn
  next hfd => exact ⟨h, Int.not_le.mp hfd, fun n hn => hn⟩

theorem Sound.assign (h : w.Sound) (hfd : w.daemon.lockfd < 0) {fd : Nat}
    (path : Str) : (w.assign fd path true).Sound where
  held _ := ⟨fd, path, rfl, if_pos rfl⟩
  only n path' locked hn := by
    rw [assign_descriptors] at hn
    split at hn
    next he =>
        cases hn
        exact ⟨congrArg Nat.cast he.symm, rfl⟩
    next => exact absurd hn (h.not_own hfd n path' locked)

theorem call_lock (hc : w.call lockdir (.lock o) = some (w', r)) :
    w.lock lockdir o = some (w', r) := (Option.ite_none_right_eq_some.mp hc).2

/-- A call of `lock` in which `lockf` does not fail. -/
theorem Sound.lock (h : w.Sound) (hm : w.Meets lockdir (.lock o))
    (hc : w.lock lockdir o = some (w', r)) :
    w'.Sound ∧
      (r ≠ .returns true → w'.daemon.lockfd < 0 ∨ 0 ≤ w.daemon.lockfd ∧ r = .raises ∧ w' = w) ∧
      ∀ n, w.descriptors n = some .other → w'.descriptors n = some .other := by
  rcases lock_cases hc with ⟨rfl, rfl, -⟩ | ⟨hfd, -, rfl, path, rfl⟩ |
    ⟨path, fd, hfd, hname, hopen, hfree, hres⟩
  · refine ⟨h, fun _ => ?_, fun n hn => hn⟩
    exact (Int.lt_or_le w'.daemon.lockfd 0).imp_right fun hle => ⟨hle, rfl, rfl⟩
  · have hneg : ¬ (0 : Int) ≤ -1 := by decide
    refine ⟨⟨fun hle => absurd hle hneg, fun n path' locked hn => ?_⟩,
      fun _ => Or.inl (Int.not_le.mp hneg), fun n hn => hn⟩
    exact absurd hn (h.not_own hfd n path' locked)
  · have hlocks : o.locks = true := hm hfd (by simp [hname]) (by simp [hopen])
    rcases hres with ⟨-, rfl, rfl⟩ | ⟨hno, -, -⟩
    · refine ⟨h.assign hfd path, fun hr => absurd rfl hr, fun n hn => ?_⟩
      rw [assign_descriptors, if_neg, hn]
      rintro rfl
      rw [hfree] at hn
      cases hn
    · rw [hlocks] at hno
      cases hno

theorem Sound.deleteLock (h : w.Sound) :
    w.deleteLock.Sound ∧
      ∀ n, w.descriptors n = some .other → w.deleteLock.descriptors n = some .other := by
  obtain ⟨hunlock, -, hframe⟩ := h.unlock
  rw [Process.deleteLock]
  split
  next => exact ⟨⟨hunlock.held, hunlock.only⟩, hframe⟩
  next => exact ⟨hunlock, hframe⟩

/-- A change of one descriptor that was not of the object, and is not after. -/
theorem Sound.of_descriptors (h : w.Sound) (fd : Nat) (hdaemon : w'.daemon = w.daemon)
    (hfd : ∀ path locked, w.descriptors fd ≠ some (.own path locked))
    (hfd' : ∀ path locked, w'.descriptors fd ≠ some (.own path locked))
    (hsame : ∀ n, n ≠ fd → w'.descriptors n = w.descriptors n) : w'.Sound where
  held hle := by
    rw [hdaemon] at hle ⊢
    obtain ⟨n, path, hn, hfile⟩ := h.held hle
    refine ⟨n, path, hn, ?_⟩
    rw [hsame, hfile]
    rintro rfl
    exact hfd path true hfile
  only n path locked hn := by
    rw [hdaemon]
    by_cases he : n = fd
    · rw [he] at hn
      exact absurd hn (hfd' path locked)
    · rw [hsame n he] at hn
      exact h.only n path locked hn

/-- **A step that meets the condition** keeps the number sound, leaves an object that
was not locked unlocked when `lock` does not return true, and closes nothing of others. -/
theorem Sound.call (h : w.Sound) (hm : w.Meets lockdir a) (hc : w.call lockdir a = some (w', r)) :
    w'.Sound ∧
      (∀ o, a = .lock o → r ≠ .returns true →
        w'.daemon.lockfd < 0 ∨ 0 ≤ w.daemon.lockfd ∧ r = .raises ∧ w' = w) ∧
      ∀ n, a ≠ .otherCloses n → w.descriptors n = some .other →
        w'.descriptors n = some .other := by
  obtain ⟨hunlock, -, hframe⟩ := h.unlock
  cases a with
  | lock o =>
      obtain ⟨hsound, hfree, hother⟩ := h.lock hm (call_lock hc)
      exact ⟨hsound, fun _ _ => hfree, fun n _ => hother n⟩
  | unlock =>
      obtain ⟨-, he⟩ := Option.ite_none_right_eq_some.mp hc
      cases he
      exact ⟨hunlock, by simp, fun n _ => hframe n⟩
  | deleteLock =>
      obtain ⟨-, he⟩ := Option.ite_none_right_eq_some.mp hc
      cases he
      exact ⟨h.deleteLock.1, by simp, fun n _ => h.deleteLock.2 n⟩
  | destroy =>
      obtain ⟨-, he⟩ := Option.ite_none_right_eq_some.mp hc
      cases he
      exact ⟨⟨hunlock.held, hunlock.only⟩, by simp, fun n _ => hframe n⟩
  | otherOpens fd =>
      obtain ⟨hfree, he⟩ := Option.ite_none_right_eq_some.mp hc
      cases he
      refine ⟨h.of_descriptors fd rfl (by simp [hfree]) (by simp)
        fun n hn => if_neg hn, by simp, fun n _ hn => ?_⟩
      change (if n = fd then some .other else w.descriptors n) = _
      split
      next => rfl
      next => exact hn
  | otherCloses fd =>
      obtain ⟨hother, he⟩ := Option.ite_none_right_eq_some.mp hc
      cases he
      have hsame : ∀ n, n ≠ fd → (w.close fd).descriptors n = w.descriptors n := fun n hn => by
        rw [close_descriptors, if_neg]
        exact fun he => hn (Int.natCast_inj.mp he)
      refine ⟨h.of_descriptors fd rfl (by simp [hother]) (by simp) hsame, by simp,
        fun n hne hn => ?_⟩
      rw [hsame, hn]
      rintro rfl
      exact hne rfl

/-- A step that does not meet the condition leaves a number without a file. -/
theorem fails_of_lockf (h : w.Sound) (hm : ¬ w.Meets lockdir a)
    (hc : w.call lockdir a = some (w', r)) : 0 ≤ w'.daemon.lockfd ∧ ¬ w'.Holds := by
  cases a with
  | lock o =>
      simp only [Meets, not_forall] at hm
      obtain ⟨hfd, hname, hopen, hno⟩ := hm
      rcases lock_cases (call_lock hc) with ⟨-, -, hle | hnone⟩ | ⟨-, hnone, -⟩ |
        ⟨path, fd, -, -, -, -, ⟨hyes, -, -⟩ | ⟨-, -, rfl⟩⟩
      · omega
      · exact absurd hnone hname
      · exact absurd hnone hopen
      · exact absurd hyes hno
      · refine ⟨Int.natCast_nonneg fd, ?_⟩
        rintro ⟨n, path', hn⟩
        rw [close_descriptors] at hn
        split at hn
        next => cases hn
        next hne =>
            rw [assign_descriptors, if_neg (fun he => hne (by rw [he]))] at hn
            exact h.not_own hfd n path' true hn
  | _ => exact absurd trivial hm

end

/-! ## Every run -/

open Transition

variable {lockdir program lockFile : Str} {others : Nat → Bool} {w : Process}

theorem reachable_sound
    (h : Reachable (step lockdir) (Meets lockdir) (start program lockFile others) w) :
    w.Sound := by
  refine h.invariant (start_sound program lockFile others) fun w a w' hw hm hs => ?_
  obtain ⟨⟨w'', r⟩, hc, rfl⟩ := Option.map_eq_some_iff.mp hs
  exact (hw.call hm hc).1

/-- **The number is the flag of the lock** in every run in which `lockf` does not fail
on a file that was opened.  A call of `lock` that does not return true leaves the object
unlocked, unless it was locked and stays so, nothing of others is closed, and an
object that is not locked can be locked.  A step in which `lockf` fails breaks it. -/
theorem lockfd_iff_holds
    (h : Reachable (step lockdir) (Meets lockdir) (start program lockFile others) w) :
    (0 ≤ w.daemon.lockfd ↔ w.Holds) ∧
    (∀ a w' r, w.call lockdir a = some (w', r) →
      ((0 ≤ w'.daemon.lockfd ↔ w'.Holds) ↔ w.Meets lockdir a) ∧
      (w.Meets lockdir a →
        (∀ o, a = .lock o → r ≠ .returns true →
          w'.daemon.lockfd < 0 ∧ ¬ w'.Holds ∨ w.Holds ∧ r = .raises ∧ w' = w) ∧
        ∀ n, a ≠ .otherCloses n → w.descriptors n = some .other →
          w'.descriptors n = some .other)) ∧
    (w.alive = true → ¬ w.Holds → ∀ path fd errno, lockName lockdir w.daemon = some path →
      w.descriptors fd = none →
        w.call lockdir (.lock ⟨some fd, true, errno⟩) =
          some (w.assign fd path true, .returns true)) := by
  have hw := reachable_sound h
  refine ⟨hw.flag, fun a w' r hc => ⟨⟨fun hflag => ?_, fun hm => (hw.call hm hc).1.flag⟩,
    fun hm => ?_⟩, fun halive hfree path fd errno hname hfd => ?_⟩
  · by_contra hm
    obtain ⟨hle, hno⟩ := fails_of_lockf hw hm hc
    exact hno (hflag.mp hle)
  · obtain ⟨hw', hlock, hframe⟩ := hw.call hm hc
    refine ⟨fun o ha hr => ?_, hframe⟩
    rcases hlock o ha hr with hlt | ⟨hle, hr', hsame⟩
    · exact Or.inl ⟨hlt, fun hh => absurd (hw'.flag.mpr hh) (Int.not_le.mpr hlt)⟩
    · exact Or.inr ⟨hw.flag.mp hle, hr', hsame⟩
  · have hlt : ¬ 0 ≤ w.daemon.lockfd := fun hle => hfree (hw.flag.mp hle)
    rw [call, if_pos halive, lock, if_neg hlt, hname]
    simp only [hfd, ne_eq, not_true_eq_false, if_false, if_true]

/-- The name that an undervest daemon locks. -/
theorem lockName_undervest :
    lockName (str "/var/run/subsys") ⟨str "undervest", [], -1⟩ =
      some (str "/var/run/subsys/undervest") := by decide +kernel

theorem not_holds_start : ¬ (start (str "undervest") [] fun _ => false).Holds := by
  rintro ⟨n, path, hn⟩
  cases hn

theorem lockfd_iff_holds_sample :
    (start (str "undervest") [] fun _ => false).call (str "/var/run/subsys")
        (.lock ⟨some 3, true, 0⟩) =
      some ((start (str "undervest") [] fun _ => false).assign 3
        (str "/var/run/subsys/undervest") true, .returns true) :=
  (lockfd_iff_holds (.start : Reachable (step (str "/var/run/subsys")) _ _ _)).2.2 rfl
    not_holds_start _ 3 0 lockName_undervest rfl

/-- The file is locked by another process.  The number stays, another file gets it,
and `unlock` closes that file. -/
theorem unlock_closes_other :
    ∃ w₁ w₂ w₃,
      (start (str "undervest") [] fun _ => false).call (str "/var/run/subsys")
        (.lock ⟨some 3, false, EAGAIN⟩) = some (w₁, .returns false) ∧
      0 ≤ w₁.daemon.lockfd ∧ ¬ w₁.Holds ∧
      w₁.step (str "/var/run/subsys") (.otherOpens 3) = some w₂ ∧
      w₂.descriptors 3 = some .other ∧
      w₂.step (str "/var/run/subsys") .unlock = some w₃ ∧ w₃.descriptors 3 = none := by
  refine ⟨((start (str "undervest") [] fun _ => false).assign 3
    (str "/var/run/subsys/undervest") false).close 3, _, _, ?_, by decide, ?_, rfl, rfl, rfl, rfl⟩
  · have hname : lockName (str "/var/run/subsys")
        (start (str "undervest") [] fun _ => false).daemon = _ := lockName_undervest
    have hfree : ¬ 0 ≤ (start (str "undervest") [] fun _ => false).daemon.lockfd := by decide
    have halive : (start (str "undervest") [] fun _ => false).alive = true := rfl
    rw [call, if_pos halive, lock, if_neg hfree, hname]
    rfl
  · rintro ⟨n, path, hn⟩
    rw [close_descriptors, assign_descriptors] at hn
    split at hn
    next => cases hn
    next hne =>
        rw [if_neg fun he => hne (by rw [he]; rfl)] at hn
        cases hn

end Process

end Undervest
