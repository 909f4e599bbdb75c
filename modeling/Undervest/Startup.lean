import Undervest.DaemonLock
import Undervest.Descriptors
import Undervest.Identity

/-!
# The start of the daemon

`Globals::run` behind its command line, up to the point where the configuration is read.
The process leaves its terminal, closes what it has inherited, takes the lock, opens the
socket of the milter with the rights it was started with, goes to its jail, and gives up
its rights.  What the system calls give is an input.

Each step says what it changes (`daemonize_ok`, `prepare_ok`).  The first three descriptors
are taken when the log, the lock file and the socket are opened, so none of them is a
standard stream (`detached`).

Behind the start the credentials are what the options ask for, apart from the supplementary
groups when `setgroups` has failed, and a user other than the super-user cannot get back
(`privileges_dropped`).
-/

namespace Undervest

open UserIds Refinement Transition

/-! ## The process -/

/-- The process, with the daemon object and what it leaves in the system. -/
structure Launch where
  daemon : Daemon
  pidFileName : Str
  identity : Identity
  jail : Str
  home : Str
  logToStderr : Bool
  pid : Nat
  /-- It is the leader of its session. -/
  leader : Bool
  credentials : Credentials
  descriptors : Descriptors
  root : Str
  cwd : Str
  /-- The process that has locked the lock file. -/
  lockedBy : Option Nat
  /-- The content of the file of the process id. -/
  pidFile : Option Nat
  /-- Who has opened the socket. -/
  socketBy : Option Credentials

/-- What the system calls give. -/
structure Calls where
  /-- `fork`: an error, nothing for the parent, and a process id for the child. -/
  fork : Except Nat (Option Nat)
  forkAgain : Except Nat (Option Nat)
  nullOpens : Bool
  logOpens : Bool
  lockOpens : Bool
  locks : Bool
  lockErrno : Nat
  /-- Writing the process id does not fail. -/
  writesPid : Bool
  initializes : Bool
  chdir : Option Nat
  chroot : Option Nat
  refusals : Refusals
  /-- `std::thread` does not throw. -/
  thread : Option Nat

/-- The directories of the lock files and of the process ids. -/
structure Directories where
  lockdir : Str
  rundir : Str

/-- `FilePath::filename`. -/
def FilePath.filename (f : FilePath) : Str :=
  match f.components.getLast? with
  | none => if f.relative then str "." else str "/"
  | some c => if c = str ".." then [] else c

/-- A file of the daemon. -/
def OpenFile.Own (f : OpenFile) : Prop := f = .log ∨ f = .socket ∨ ∃ path, f = .lock path true

def OpenFile.descriptor : OpenFile → Descriptor
  | .lock path locked => .own path locked
  | _ => .other

namespace Launch

/-- A process that has been started. -/
def start (pid : Nat) (leader : Bool) (credentials : Credentials) (descriptors : Descriptors)
    (root cwd : Str) : Launch where
  daemon := ⟨[], [], -1⟩
  pidFileName := []
  identity := .new
  jail := []
  home := []
  logToStderr := false
  pid := pid
  leader := leader
  credentials := credentials
  descriptors := descriptors
  root := root
  cwd := cwd
  lockedBy := none
  pidFile := none
  socketBy := none

/-- As the lock file is seen. -/
def process (p : Launch) : Process :=
  ⟨p.daemon, true, fun n => (p.descriptors.file n).map OpenFile.descriptor, []⟩

/-- `FilePath::+`, which raises. -/
def orRaise : Option Str → Except Stop Str :=
  ofOption (.runtime (str "FilePath::+: 2nd operand not relative"))

/-- `Daemon::program`, `lock_file` and `pid_file`. -/
def setNames (dirs : Directories) (name : Str) (p : Launch) : Except Stop Launch := do
  let lockFile ← orRaise (Process.lockFilePath dirs.lockdir name)
  let pidFileName ← orRaise (Process.lockFilePath dirs.rundir (name ++ str ".pid"))
  pure { p with
    daemon := { p.daemon with program := (FilePath.assign name).filename, lockFile := lockFile }
    pidFileName }

/-- `Daemon::jail`. -/
def setJail (newfsroot : Str) (p : Launch) : Except Stop Launch :=
  if newfsroot.length ≠ 0 ∧ p.credentials.user.effective ≠ 0 then
    .error (.runtime (str "Daemon::jail(): must be super-user"))
  else pure { p with jail := newfsroot }

def forks (result : Except Nat (Option Nat)) (p : Launch) : Except Stop Launch :=
  match result with
  | .error err => .error (.system err)
  | .ok none => .error .parent
  | .ok (some pid) => pure { p with pid, leader := false }

/-- `Daemon::detach`. -/
def detach (i : Calls) (p : Launch) : Except Stop Launch := do
  let p ← forks i.fork p
  -- `setsid`
  forks i.forkAgain { p with leader := true }

/-- `Daemon::close_all`. -/
def closeAll (closeStderr : Bool) (i : Calls) (p : Launch) : Except Stop Launch := do
  let descriptors ← ofOption .endless
    (p.descriptors.closeAll closeStderr p.logToStderr i.nullOpens)
  pure { p with descriptors }

/-- `Daemon::open_log`. -/
def openLog (i : Calls) (p : Launch) : Launch :=
  if i.logOpens then { p with descriptors := (p.descriptors.opening .log).1 } else p

/-- `Daemon::lock`. -/
def lock (dirs : Directories) (i : Calls) (p : Launch) : Except Stop Launch :=
  match p.process.lock dirs.lockdir
    ⟨if i.lockOpens then p.descriptors.lowest else none, i.locks, i.lockErrno⟩ with
  | some (w, .returns true) =>
      pure { p with
        daemon := w.daemon
        descriptors := (p.descriptors.opening (.lock w.daemon.lockFile true)).1
        lockedBy := some p.pid }
  | some (_, .returns false) => .error .alreadyRunning
  | _ => .error (.system i.lockErrno)

/-- `Daemon::write_pid`, behind `pid_file`. -/
def writePid (i : Calls) (p : Launch) : Except Stop Launch :=
  if i.writesPid then pure { p with pidFile := some p.pid } else .error .stream

/-- `Daemon::go_home`. -/
def goHome (i : Calls) (p : Launch) : Except Stop Launch :=
  if p.home.length ≠ 0 then
    match i.chdir with
    | some err => .error (.system err)
    | none => pure { p with cwd := p.home }
  else pure p

/-- `milter::initialize`, which opens the socket. -/
def initMilter (i : Calls) (p : Launch) : Except Stop Launch :=
  if i.initializes then
    pure { p with
      descriptors := (p.descriptors.opening .socket).1
      socketBy := some p.credentials }
  else .error .notInitialized

/-- `Daemon::incarcerate`. -/
def incarcerate (i : Calls) (p : Launch) : Except Stop Launch :=
  if p.jail.length ≠ 0 then
    match i.chroot with
    | some err => .error (.system err)
    | none => pure { p with root := p.jail }
  else pure p

/-- `Daemon::change_identity`. -/
def changeIdentity (i : Calls) (p : Launch) : Except Stop Launch := do
  let credentials ← p.identity.change i.refusals p.credentials
  pure { p with credentials }

def lockAndWrite (dirs : Directories) (i : Calls) (p : Launch) : Except Stop Launch := do
  let p ← p.lock dirs i
  p.writePid i

/-- `if (!nodaemon)`. -/
def unlessAttached (o : Options) (f : Launch → Except Stop Launch) (p : Launch) :
    Except Stop Launch :=
  if o.nodaemon then pure p else f p

/-- The first `try` block of `Globals::run`. -/
def daemonize (n : Accounts) (dirs : Directories) (o : Options) (name : Str) (i : Calls)
    (p : Launch) : Except Stop Launch := do
  let p ← p.setNames dirs name
  let identity ← p.identity.setUser n p.credentials.user.effective o.user
  let identity ← identity.setGroup n p.credentials.user.effective o.group
  let p ← setJail o.jail { p with identity, logToStderr := o.logstd }
  let p ← unlessAttached o (detach i) p
  let p ← p.closeAll (!o.stderrOnly) i
  unlessAttached o (lockAndWrite dirs i) (p.openLog i)

/-- The second one, up to the thread of the scheduler. -/
def prepare (i : Calls) (p : Launch) : Except Stop Launch := do
  let p ← p.goHome i
  let p ← p.initMilter i
  let p ← p.incarcerate i
  let p ← p.changeIdentity i
  match i.thread with
  | some err => .error (.system err)
  | none => pure p

/-- `Globals::run` from the command line to the reading of the configuration. -/
def run (n : Accounts) (dirs : Directories) (o : Options) (name : Str) (i : Calls) (p : Launch) :
    Except Stop Launch := do
  let p ← p.daemonize n dirs o name i
  p.prepare i

/-! ## One step -/

variable {n : Accounts} {dirs : Directories} {o : Options} {name : Str} {i : Calls}
  {p q : Launch}

theorem setNames_ok (h : p.setNames dirs name = .ok q) :
    ∃ program lockFile pidFileName, q = { p with
      daemon := ⟨program, lockFile, p.daemon.lockfd⟩, pidFileName } := by
  obtain ⟨lockFile, -, h⟩ := bind_eq_ok h
  obtain ⟨pidFileName, -, h⟩ := bind_eq_ok h
  cases h
  exact ⟨_, _, _, rfl⟩

theorem setJail_ok {jail : Str} (h : p.setJail jail = .ok q) :
    q = { p with jail } ∧ (jail ≠ [] → p.credentials.user.effective = 0) := by
  rw [setJail] at h
  split at h
  next => cases h
  next hnot =>
    cases h
    refine ⟨rfl, fun hne => ?_⟩
    by_contra heuid
    exact hnot ⟨fun hlen => hne (List.length_eq_zero_iff.mp hlen), heuid⟩

theorem forks_ok {result : Except Nat (Option Nat)} (h : forks result p = .ok q) :
    ∃ pid, q = { p with pid, leader := false } := by
  rw [forks.eq_def] at h
  split at h
  next => cases h
  next => cases h
  next pid =>
    cases h
    exact ⟨pid, rfl⟩

theorem detach_ok (h : p.detach i = .ok q) : ∃ pid, q = { p with pid, leader := false } := by
  obtain ⟨p₁, h₁, h⟩ := bind_eq_ok h
  obtain ⟨pid₁, rfl⟩ := forks_ok h₁
  obtain ⟨pid, rfl⟩ := forks_ok h
  exact ⟨pid, rfl⟩

theorem closeAll_ok {closeStderr : Bool} (h : p.closeAll closeStderr i = .ok q) :
    ∃ t, p.descriptors.closeAll closeStderr p.logToStderr i.nullOpens = some t ∧
      q = { p with descriptors := t } := by
  obtain ⟨t, ht, h⟩ := bind_eq_ok h
  cases h
  refine ⟨t, ?_, rfl⟩
  cases hc : p.descriptors.closeAll closeStderr p.logToStderr i.nullOpens with
  | none =>
      rw [hc] at ht
      cases ht
  | some t' =>
      rw [hc] at ht
      cases ht
      rfl

theorem lock_ok (h : p.lock dirs i = .ok q) :
    ∃ fd path, p.descriptors.lowest = some fd ∧ q = { p with
      daemon := ⟨p.daemon.program, path, fd⟩
      descriptors := (p.descriptors.opening (.lock path true)).1
      lockedBy := some p.pid } := by
  rw [lock] at h
  split at h
  next w hw =>
    cases h
    rcases Process.lock_cases hw with ⟨hr, -, -⟩ | ⟨-, -, hr, -⟩ |
      ⟨path, fd, -, -, hfd, -, ⟨-, -, rfl⟩ | ⟨-, hr, -⟩⟩
    · cases hr
    · cases hr
    · refine ⟨fd, path, ?_, rfl⟩
      dsimp only at hfd
      split at hfd
      next => exact hfd
      next => cases hfd
    · exact absurd rfl hr
  next => cases h
  next => cases h

theorem writePid_ok (h : p.writePid i = .ok q) : q = { p with pidFile := some p.pid } := by
  rw [writePid] at h
  split at h
  next =>
    cases h
    rfl
  next => cases h

theorem goHome_ok (hhome : p.home = []) (h : p.goHome i = .ok q) : q = p := by
  rw [goHome, hhome] at h
  cases h
  rfl

theorem initMilter_ok (h : p.initMilter i = .ok q) : q = { p with
    descriptors := (p.descriptors.opening .socket).1, socketBy := some p.credentials } := by
  rw [initMilter] at h
  split at h
  next =>
    cases h
    rfl
  next => cases h

theorem incarcerate_ok (h : p.incarcerate i = .ok q) :
    q = { p with root := if p.jail = [] then p.root else p.jail } := by
  rw [incarcerate] at h
  split at h
  next hlen =>
    split at h
    next => cases h
    next =>
      cases h
      rw [if_neg fun hnil => hlen (List.length_eq_zero_iff.mpr hnil)]
  next hlen =>
    cases h
    rw [if_pos (List.length_eq_zero_iff.mp (not_not.mp hlen))]

theorem changeIdentity_ok (h : p.changeIdentity i = .ok q) :
    ∃ c, p.identity.change i.refusals p.credentials = .ok c ∧ q = { p with credentials := c } := by
  obtain ⟨c, hc, h⟩ := bind_eq_ok h
  cases h
  exact ⟨c, hc, rfl⟩

/-! ## The whole start -/

/-- Files of the daemon that are opened one after the other. -/
inductive Opens : Descriptors → Descriptors → Prop where
  | refl (t : Descriptors) : Opens t t
  | opening {t t' : Descriptors} {f : OpenFile} (h : Opens t t')
      (hf : f.Own) : Opens t (t'.opening f).1

/-- Files are only added, where there was none. -/
theorem Opens.spec {t t' : Descriptors} (h : Opens t t') :
    t'.limit = t.limit ∧ (∀ n f, t.file n = some f → t'.file n = some f) ∧
      (∀ n f, t'.file n = some f → t.file n = some f ∨ f.Own) ∧
      ∀ n, t.limit ≤ n → t'.file n = t.file n := by
  induction h with
  | refl => exact ⟨rfl, fun _ _ h => h, fun _ _ h => Or.inl h, fun _ _ => rfl⟩
  | @opening t' f h hf ih =>
      obtain ⟨hlimit, hkeep, hnew, habove⟩ := ih
      cases hlow : t'.lowest with
      | none =>
          rw [Descriptors.opening, hlow]
          exact ⟨hlimit, hkeep, hnew, habove⟩
      | some fd =>
          rw [Descriptors.opening_eq hlow]
          obtain ⟨hlt, hfree, -⟩ := Descriptors.lowest_eq_some.mp hlow
          refine ⟨hlimit, fun n g hg => ?_, fun n g hg => ?_, fun n hn => ?_⟩
          · have hne : n ≠ fd := by
              rintro rfl
              rw [hkeep n g hg] at hfree
              cases hfree
            exact (if_neg hne).trans (hkeep n g hg)
          · dsimp only at hg
            split at hg
            next => exact Or.inr (Option.some.inj hg ▸ hf)
            next => exact hnew n g hg
          · exact (if_neg (by omega)).trans (habove n hn)

/-- What the start leaves. -/
structure Launched (n : Accounts) (o : Options) (i : Calls) (p q : Launch) : Prop where
  credentials : ∃ asked, Assumes n o p.credentials asked ∧
    q.credentials = i.refusals.leave p.credentials asked
  unsetReads : q.identity.unsetReads = if o.user = [] then 0 else 1
  socketBy : q.socketBy = some p.credentials
  root : q.root = if o.jail = [] then p.root else o.jail
  jail : o.jail ≠ [] → p.credentials.privileged = true
  cwd : q.cwd = p.cwd
  table : ∃ t, p.descriptors.closeAll (!o.stderrOnly) o.logstd i.nullOpens = some t ∧
    Opens t q.descriptors ∧
    -- the lock, with the others behind it
    (o.nodaemon = false → ∃ t' fd path, Opens t t' ∧ t'.lowest = some fd ∧ q.daemon.lockfd = fd ∧
      Opens (t'.opening (.lock path true)).1 q.descriptors)
  daemon : o.nodaemon = false → q.leader = false ∧ q.lockedBy = some q.pid ∧
    q.pidFile = some q.pid

/-- What the first block leaves. -/
structure Daemonized (n : Accounts) (o : Options) (i : Calls) (p q : Launch) : Prop where
  identity : ∃ d, p.identity.setUser n p.credentials.user.effective o.user = .ok d ∧
    d.setGroup n p.credentials.user.effective o.group = .ok q.identity
  jail : q.jail = o.jail
  privileged : o.jail ≠ [] → p.credentials.privileged = true
  home : q.home = p.home
  credentials : q.credentials = p.credentials
  root : q.root = p.root
  cwd : q.cwd = p.cwd
  table : ∃ t, p.descriptors.closeAll (!o.stderrOnly) o.logstd i.nullOpens = some t ∧
    Opens t q.descriptors ∧
    (o.nodaemon = false → ∃ t' fd path, Opens t t' ∧ t'.lowest = some fd ∧ q.daemon.lockfd = fd ∧
      q.descriptors = (t'.opening (.lock path true)).1)
  daemon : o.nodaemon = false → q.leader = false ∧ q.lockedBy = some q.pid ∧
    q.pidFile = some q.pid

theorem openLog_eq (i : Calls) (p : Launch) :
    ∃ t, p.openLog i = { p with descriptors := t } ∧ Opens p.descriptors t := by
  rw [openLog]
  split
  next => exact ⟨_, rfl, (Opens.refl _).opening (Or.inl rfl)⟩
  next => exact ⟨_, rfl, .refl _⟩

theorem unlessAttached_ok {f : Launch → Except Stop Launch} (h : unlessAttached o f p = .ok q) :
    o.nodaemon = true ∧ q = p ∨ o.nodaemon = false ∧ f p = .ok q := by
  rw [unlessAttached] at h
  split at h
  next ha =>
    cases h
    exact Or.inl ⟨ha, rfl⟩
  next ha => exact Or.inr ⟨eq_false_of_ne_true ha, h⟩

theorem daemonize_ok (h : p.daemonize n dirs o name i = .ok q) : Daemonized n o i p q := by
  obtain ⟨p₁, h₁, h⟩ := bind_eq_ok h
  obtain ⟨program, lockFile, pidFileName, rfl⟩ := setNames_ok h₁
  obtain ⟨d₁, huser, h⟩ := bind_eq_ok h
  obtain ⟨d₂, hgroup, h⟩ := bind_eq_ok h
  obtain ⟨p₂, h₂, h⟩ := bind_eq_ok h
  obtain ⟨rfl, hjail⟩ := setJail_ok h₂
  obtain ⟨p₃, h₃, h⟩ := bind_eq_ok h
  obtain ⟨p₄, h₄, h⟩ := bind_eq_ok h
  obtain ⟨t, ht, rfl⟩ := closeAll_ok h₄
  obtain ⟨t', hlog, hopens⟩ := openLog_eq i { p₃ with descriptors := t }
  rw [hlog] at h
  have hprivileged : o.jail ≠ [] → p.credentials.privileged = true := fun hne =>
    beq_iff_eq.mpr (hjail hne)
  rcases unlessAttached_ok h with ⟨hattached, rfl⟩ | ⟨hdetached, h⟩
  · rcases unlessAttached_ok h₃ with ⟨-, rfl⟩ | ⟨hf, -⟩
    · refine ⟨⟨d₁, huser, hgroup⟩, rfl, hprivileged, rfl, rfl, rfl, rfl,
        ⟨t, ht, hopens, fun hf => ?_⟩, fun hf => ?_⟩
      · rw [hattached] at hf
        cases hf
      · rw [hattached] at hf
        cases hf
    · rw [hattached] at hf
      cases hf
  · rcases unlessAttached_ok h₃ with ⟨hf, -⟩ | ⟨-, h₃⟩
    · rw [hdetached] at hf
      cases hf
    · obtain ⟨pid, rfl⟩ := detach_ok h₃
      obtain ⟨p₅, h₅, h⟩ := bind_eq_ok h
      obtain ⟨fd, path, hfd, rfl⟩ := lock_ok h₅
      obtain rfl := writePid_ok h
      exact ⟨⟨d₁, huser, hgroup⟩, rfl, hprivileged, rfl, rfl, rfl, rfl,
        ⟨t, ht, hopens.opening (Or.inr (Or.inr ⟨path, rfl⟩)),
          fun _ => ⟨t', fd, path, hopens, hfd, rfl, rfl⟩⟩, fun _ => ⟨rfl, rfl, rfl⟩⟩

/-- What the second block leaves. -/
theorem prepare_ok (hhome : p.home = []) (h : p.prepare i = .ok q) :
    ∃ c, p.identity.change i.refusals p.credentials = .ok c ∧ q = { p with
      descriptors := (p.descriptors.opening .socket).1
      socketBy := some p.credentials
      root := if p.jail = [] then p.root else p.jail
      credentials := c } := by
  obtain ⟨p₁, h₁, h⟩ := bind_eq_ok h
  rw [goHome_ok hhome h₁] at h
  obtain ⟨p₂, h₂, h⟩ := bind_eq_ok h
  obtain rfl := initMilter_ok h₂
  obtain ⟨p₃, h₃, h⟩ := bind_eq_ok h
  obtain rfl := incarcerate_ok h₃
  obtain ⟨p₄, h₄, h⟩ := bind_eq_ok h
  obtain ⟨c, hc, rfl⟩ := changeIdentity_ok h₄
  refine ⟨c, hc, ?_⟩
  split at h
  next => cases h
  next =>
    cases h
    rfl

/-- **What the start leaves.** -/
theorem run_ok {pid : Nat} {leader : Bool} {c : Credentials} {t : Descriptors} {root cwd : Str}
    (h : (start pid leader c t root cwd).run n dirs o name i = .ok q) :
    Launched n o i (start pid leader c t root cwd) q := by
  obtain ⟨p, h, hprepare⟩ := bind_eq_ok h
  have hp := daemonize_ok h
  obtain ⟨c', hchange, rfl⟩ := prepare_ok hp.home hprepare
  obtain ⟨d, huser, hgroup⟩ := hp.identity
  obtain ⟨t', hclose, hopens, hlock⟩ := hp.table
  rw [hp.credentials] at hchange
  refine ⟨change_assumes huser hgroup hchange, Identity.unsetReads_eq huser hgroup,
    congrArg some hp.credentials, ?_, hp.privileged, hp.cwd,
    ⟨t', hclose, hopens.opening (Or.inr (Or.inl rfl)), fun hf => ?_⟩, hp.daemon⟩
  · rw [hp.jail, hp.root]
  · obtain ⟨t₁, fd, path, ht₁, hlowest, hfd, hdescriptors⟩ := hlock hf
    refine ⟨t₁, fd, path, ht₁, hlowest, hfd, ?_⟩
    dsimp only
    rw [hdescriptors]
    exact (Opens.refl _).opening (Or.inr (Or.inl rfl))

/-! ## What is not used -/

theorem forks_ne_unset (result : Except Nat (Option Nat)) (p : Launch) :
    forks result p ≠ .error .unset := by
  rw [forks.eq_def]
  split <;> exact fun h => by cases h

theorem orRaise_ne_unset (x : Option Str) : orRaise x ≠ .error .unset := by
  cases x <;> exact fun h => by cases h

theorem unlessAttached_ne_unset {f : Launch → Except Stop Launch}
    (hf : ∀ p, f p ≠ .error .unset) (o : Options) (p : Launch) :
    unlessAttached o f p ≠ .error .unset := by
  rw [unlessAttached]
  split
  next => exact fun h => by cases h
  next => exact hf p

theorem lock_ne_unset (dirs : Directories) (i : Calls) (p : Launch) :
    p.lock dirs i ≠ .error .unset := by
  rw [lock]
  split <;> exact fun h => by cases h

theorem writePid_ne_unset (i : Calls) (p : Launch) : p.writePid i ≠ .error .unset := by
  rw [writePid]
  split <;> exact fun h => by cases h

theorem setJail_ne_unset (jail : Str) (p : Launch) : p.setJail jail ≠ .error .unset := by
  rw [setJail]
  split <;> exact fun h => by cases h

theorem closeAll_ne_unset (closeStderr : Bool) (i : Calls) (p : Launch) :
    p.closeAll closeStderr i ≠ .error .unset := by
  refine bind_ne_error ?_ fun _ _ h => by cases h
  cases p.descriptors.closeAll closeStderr p.logToStderr i.nullOpens <;> exact fun h => by cases h

theorem daemonize_ne_unset (n : Accounts) (dirs : Directories) (o : Options) (name : Str)
    (i : Calls) (p : Launch) : p.daemonize n dirs o name i ≠ .error .unset := by
  refine bind_ne_error (bind_ne_error (orRaise_ne_unset _) fun _ _ =>
    bind_ne_error (orRaise_ne_unset _) fun _ _ h => by cases h) fun p _ => ?_
  refine bind_ne_error (Identity.setUser_ne_unset _ _ _ _) fun d _ => ?_
  refine bind_ne_error (Identity.setGroup_ne_unset _ _ _ _) fun d _ => ?_
  refine bind_ne_error (setJail_ne_unset _ _) fun p _ => ?_
  refine bind_ne_error (unlessAttached_ne_unset (fun p => ?_) o p) fun p _ => ?_
  · exact bind_ne_error (forks_ne_unset _ p) fun p _ => forks_ne_unset _ _
  · refine bind_ne_error (closeAll_ne_unset _ i p) fun p _ => ?_
    refine unlessAttached_ne_unset (fun p => ?_) o _
    exact bind_ne_error (lock_ne_unset dirs i p) fun p _ => writePid_ne_unset i p

theorem prepare_ne_unset (hp : p.identity.Sound) (hhome : p.home = []) (i : Calls) :
    p.prepare i ≠ .error .unset := by
  refine bind_ne_error ?_ fun p₁ h₁ => bind_ne_error ?_ fun p₂ h₂ => bind_ne_error ?_
    fun p₃ h₃ => bind_ne_error ?_ fun p₄ _ => ?_
  · rw [goHome, hhome]
    exact fun h => by cases h
  · rw [initMilter]
    split <;> exact fun h => by cases h
  · rw [incarcerate]
    split
    next => split <;> exact fun h => by cases h
    next => exact fun h => by cases h
  · obtain rfl := goHome_ok hhome h₁
    obtain rfl := initMilter_ok h₂
    obtain rfl := incarcerate_ok h₃
    exact bind_ne_error (hp.change_ne_unset _ _) fun _ _ h => by cases h
  · split <;> exact fun h => by cases h

end Launch

/-! ## The results -/

/-- **Rights are given up.**  The credentials with which the configuration is read are
those that the options ask for, with the supplementary groups of the start if `setgroups`
has failed, and the root is the jail.  The socket has been opened with the rights of the
start, and the working directory stays where it was.  A user other than the super-user
keeps its ids in every run of calls.

No value of a member is used before it is set, and with a user one is read, once. -/
theorem privileges_dropped (n : Accounts) (dirs : Directories) (o : Options) (name : Str)
    (i : Calls) (pid : Nat) (leader : Bool) (c : Credentials) (t : Descriptors)
    (root cwd : Str) :
    (Launch.start pid leader c t root cwd).run n dirs o name i ≠ .error .unset ∧
    ∀ q, (Launch.start pid leader c t root cwd).run n dirs o name i = .ok q →
      (∃ asked, Assumes n o c asked ∧ q.credentials =
        if i.refusals.setgroups = none then asked else { asked with groups := c.groups }) ∧
      q.identity.unsetReads = (if o.user = [] then 0 else 1) ∧ q.socketBy = some c ∧
      q.root = (if o.jail = [] then root else o.jail) ∧
      (o.jail ≠ [] → c.privileged = true) ∧ q.cwd = cwd ∧
      ∀ e, o.user ≠ [] → n.FindsUser o.user e → e.uid ≠ 0 → ∀ calls c',
        run Credentials.step q.credentials calls = some c' →
          c'.user = .all e.uid ∧ c'.group = q.credentials.group ∧
            c'.groups = q.credentials.groups := by
  refine ⟨?_, fun q h => ?_⟩
  · refine bind_ne_error (Launch.daemonize_ne_unset n dirs o name i _) fun p h => ?_
    have hp := Launch.daemonize_ok h
    obtain ⟨d, huser, hgroup⟩ := hp.identity
    exact Launch.prepare_ne_unset
      ((Identity.sound_new.setUser huser).setGroup hgroup) hp.home i
  · have hq := Launch.run_ok h
    refine ⟨hq.credentials, hq.unsetReads, hq.socketBy, hq.root, hq.jail, hq.cwd,
      fun e hne he huid calls c' hr => ?_⟩
    obtain ⟨asked, hasked, hleave⟩ := hq.credentials
    obtain ⟨hu, x, hx⟩ : q.credentials.user = .all e.uid ∧ ∃ x, q.credentials.group = .all x := by
      rw [hleave, Refusals.leave]
      split <;> exact hasked.ids hne he
    have hconfined : q.credentials.Confined {e.uid} {x} :=
      ⟨Ids.within_singleton.mpr hu, Ids.within_singleton.mpr hx⟩
    obtain ⟨hc', hgroups⟩ := hconfined.run (Ne.symm huid) hr
    exact ⟨Ids.within_singleton.mp hc'.user,
      (Ids.within_singleton.mp hc'.group).trans hx.symm, hgroups⟩

/-- A start as user `mail`. -/
def mail : UserEntry := ⟨str "mail", 8, 12, by decide⟩

def mailGroup : GroupEntry := ⟨str "mail", 12, by decide⟩

def mailAccounts : Accounts where
  getgrnam _ := .ok none
  getgrgid x := .ok (if x = 12 then some mailGroup else none)
  getpwnam s := .ok (if s = str "mail" then some mail else none)
  getpwuid _ := .ok none

def noFailures : Calls where
  fork := .ok (some 101)
  forkAgain := .ok (some 102)
  nullOpens := true
  logOpens := true
  lockOpens := true
  locks := true
  lockErrno := 0
  writesPid := true
  initializes := true
  chdir := none
  chroot := none
  refusals := ⟨none, none, none⟩
  thread := none

def mailLaunch : Except Stop Launch :=
  (Launch.start 100 true ⟨.all 0, .all 0, [0, 1]⟩
    ⟨8, fun n => if n < 5 then some (.inherited n) else none⟩ (str "/") (str "/root")).run
      mailAccounts ⟨str "/var/run/subsys", str "/var/run"⟩
      ⟨str "mail", [], str "/etc/undervest", [], false, false, false, 0⟩ (str "undervest")
      noFailures

theorem privileges_dropped_sample : ∃ q, mailLaunch = .ok q ∧
    q.credentials = ⟨.all 8, .all 12, [12]⟩ ∧
      ∀ calls c', run Credentials.step q.credentials calls = some c' → c'.user = .all 8 := by
  obtain ⟨-, hall⟩ := privileges_dropped mailAccounts ⟨str "/var/run/subsys", str "/var/run"⟩
    ⟨str "mail", [], str "/etc/undervest", [], false, false, false, 0⟩ (str "undervest") noFailures
    100 true ⟨.all 0, .all 0, [0, 1]⟩ ⟨8, fun n => if n < 5 then some (.inherited n) else none⟩
    (str "/") (str "/root")
  refine ⟨_, rfl, rfl, fun calls c' hr => ?_⟩
  obtain ⟨-, -, -, -, -, -, hkeep⟩ := hall _ rfl
  exact (hkeep mail (by decide) (.name rfl) (by decide) calls c' hr).1

/-- **The daemon is on its own.**  Behind the start `/dev/null` is open at the standard
descriptors, apart from the third one with one of two options.  What else is open below the
limit of the table belongs to the daemon.  A descriptor that was open at the limit or above
it, since the limit has been lowered, stays open.  Unless the process stays attached it does
not lead its session, and it is the process that has the lock and whose id has been
written. -/
theorem detached {n : Accounts} {dirs : Directories} {o : Options} {name : Str} {i : Calls}
    {pid : Nat} {leader : Bool} {c : Credentials} {t : Descriptors} {root cwd : Str} {q : Launch}
    (hlimit : 3 ≤ t.limit) (hnull : i.nullOpens = true)
    (h : (Launch.start pid leader c t root cwd).run n dirs o name i = .ok q) :
    q.descriptors.file 0 = some .null ∧ q.descriptors.file 1 = some .null ∧
    q.descriptors.file 2 = (if o.stderrOnly || o.logstd then some ((t.file 2).getD .null)
      else some .null) ∧
    (∀ k f, 3 ≤ k → k < t.limit → q.descriptors.file k = some f → f.Own) ∧
    (∀ k, t.limit ≤ k → q.descriptors.file k = t.file k) ∧
    (o.nodaemon = false → q.leader = false ∧ q.lockedBy = some q.pid ∧ q.pidFile = some q.pid ∧
      ∃ (fd : Nat) (path : Str), 3 ≤ fd ∧ q.daemon.lockfd = fd ∧
        q.descriptors.file fd = some (.lock path true)) := by
  have hq := Launch.run_ok h
  obtain ⟨t₁, hclose, hopens, hlock⟩ := hq.table
  obtain rfl := Option.some.inj ((Descriptors.closeAll_eq hlimit _ _ _).symm.trans hclose)
  obtain ⟨-, hkeep, hnew, habove⟩ := hopens.spec
  have hclosed : (!o.stderrOnly && !o.logstd) = !(o.stderrOnly || o.logstd) := by simp
  have h₂ : t.behindCloseAll (!o.stderrOnly && !o.logstd) i.nullOpens 2 =
      if o.stderrOnly || o.logstd then some ((t.file 2).getD .null) else some .null := by
    rw [hclosed, hnull, Descriptors.behindCloseAll]
    cases o.stderrOnly || o.logstd <;> rfl
  have hstandard : ∀ k < 3, ∃ f, t.behindCloseAll (!o.stderrOnly && !o.logstd) i.nullOpens k =
      some f := by
    intro k hk
    rcases (by omega : k < 2 ∨ k = 2) with hk | rfl
    · exact ⟨.null, by rw [Descriptors.behindCloseAll, if_pos hk, if_pos hnull]⟩
    · rw [h₂]
      split <;> exact ⟨_, rfl⟩
  refine ⟨hkeep 0 _ ?_, hkeep 1 _ ?_, ?_, fun k f hk hlt hf => ?_, fun k hk => ?_, fun hf => ?_⟩
  · exact if_pos hnull
  · exact if_pos hnull
  · obtain ⟨f, hf⟩ := hstandard 2 (by decide)
    rw [hkeep 2 f hf, ← h₂, hf]
  · rcases hnew k f hf with hold | hown
    · have hfree := Descriptors.behindCloseAll_free (t := t) hk hlt
        (!o.stderrOnly && !o.logstd) i.nullOpens
      exact absurd (hfree.symm.trans hold) (Option.some_ne_none f).symm
    · exact hown
  · exact (habove k hk).trans (Descriptors.behindCloseAll_above hlimit hk _ _)
  · obtain ⟨hleader, hlocked, hpid⟩ := hq.daemon hf
    obtain ⟨t', fd, path, ht', hlow, hfd, hrest⟩ := hlock hf
    refine ⟨hleader, hlocked, hpid, fd, path, ?_, hfd, hrest.spec.2.1 fd _ ?_⟩
    · -- the first three are taken
      by_contra hlt
      obtain ⟨f, hfile⟩ := hstandard fd (by omega)
      have htaken := ht'.spec.2.1 fd f hfile
      rw [(Descriptors.lowest_eq_some.mp hlow).2.1] at htaken
      cases htaken
    · rw [Descriptors.opening_eq hlow]
      exact if_pos rfl

theorem detached_sample : ∃ q, mailLaunch = .ok q ∧ q.descriptors.file 2 = some .null ∧
    (∀ k f, 3 ≤ k → k < 8 → q.descriptors.file k = some f → f.Own) ∧
    ∃ (fd : Nat) (path : Str), 3 ≤ fd ∧ q.daemon.lockfd = fd ∧
      q.descriptors.file fd = some (.lock path true) := by
  obtain ⟨q, hq⟩ : ∃ q, mailLaunch = .ok q := ⟨_, rfl⟩
  obtain ⟨-, -, hthird, hown, -, hdaemon⟩ := detached (by decide) rfl hq
  exact ⟨q, hq, hthird, hown, (hdaemon rfl).2.2.2⟩

end Undervest
