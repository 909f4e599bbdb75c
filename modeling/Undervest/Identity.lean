import Undervest.CommandLine
import Undervest.Lib.UserIds

/-!
# The identity of the daemon

`Daemon::user` and `Daemon::group` look up a name, and then a number, in the databases of
the system.  A user brings its group along.  `Daemon::change_identity` sets the group first,
then the supplementary groups, and the user last, since no group can be set behind that.

The members for the numbers are not set by the constructor.  A use of such a value is an
end of its own, which does not happen (`Identity.Sound`).  But one is read: `Daemon::group`
of a `gid_t` copies the old number first, which nobody uses.

The options ask for credentials (`Assumes`): those of the start, or a group of the database
and, with a user, the ids of this user.  That is what comes out, but for the supplementary
groups when `setgroups` fails, since nobody looks at its result.
-/

namespace Undervest

open UserIds Refinement

/-! ## The databases -/

structure GroupEntry where
  name : Str
  gid : Nat
  /-- No entry has an empty name. -/
  named : name ≠ []

structure UserEntry where
  name : Str
  uid : Nat
  gid : Nat
  named : name ≠ []

/-- The lookups.  One that fails gives a number. -/
structure Accounts where
  getgrnam : Str → Except Nat (Option GroupEntry)
  getgrgid : Nat → Except Nat (Option GroupEntry)
  getpwnam : Str → Except Nat (Option UserEntry)
  getpwuid : Nat → Except Nat (Option UserEntry)

/-- Why the start comes to an end. -/
inductive Stop where
  /-- `std::runtime_error`. -/
  | runtime (what : Str)
  /-- `std::system_error`. -/
  | system (errno : Nat)
  /-- `std::out_of_range`. -/
  | outOfRange
  /-- `std::ios_base::failure`. -/
  | stream
  /-- The value of a member that has not been set is used. -/
  | unset
  /-- A loop that does not end. -/
  | endless
  /-- The process is the parent of a fork. -/
  | parent
  /-- Another daemon has the lock. -/
  | alreadyRunning
  /-- The milter library cannot be initialized. -/
  | notInitialized
deriving DecidableEq, Repr

/-- An entry stands under a name, or under a number that is not a name. -/
inductive Finds {ε : Type} (byName : Str → Except Nat (Option ε))
    (byNumber : Nat → Except Nat (Option ε)) (text : Str) (e : ε) : Prop where
  | name (h : byName text = .ok (some e))
  | number (hname : byName text = .ok none) (hdigits : ∀ c ∈ text, c ∈ str "0123456789")
      (h : byNumber (decimal text) = .ok (some e))

namespace Accounts

abbrev FindsGroup (n : Accounts) (text : Str) (g : GroupEntry) : Prop :=
  Finds n.getgrnam n.getgrgid text g

abbrev FindsUser (n : Accounts) (text : Str) (e : UserEntry) : Prop :=
  Finds n.getpwnam n.getpwuid text e

end Accounts

/-- There is one entry at most. -/
theorem Finds.unique {ε : Type} {byName : Str → Except Nat (Option ε)}
    {byNumber : Nat → Except Nat (Option ε)} {text : Str} {e e' : ε}
    (h : Finds byName byNumber text e) (h' : Finds byName byNumber text e') : e = e' := by
  cases h with
  | name h =>
      cases h' with
      | name h' => exact Option.some.inj (Except.ok.inj (h.symm.trans h'))
      | number hname _ _ => exact absurd (Except.ok.inj (hname.symm.trans h)) (by simp)
  | number hname _ h =>
      cases h' with
      | name h' => exact absurd (Except.ok.inj (hname.symm.trans h')) (by simp)
      | number _ _ h' => exact Option.some.inj (Except.ok.inj (h.symm.trans h'))

/-! ## Names and numbers -/

/-- The largest `int`. -/
def INT_MAX : Nat := 2147483647

/-- The lookup of `user` and `group`, with the name they store.  The two texts are the
message when there is no entry. -/
def findEntry {ε : Type} (before after : Str) (byName : Str → Except Nat (Option ε))
    (byNumber : Nat → Except Nat (Option ε)) (nameOf : ε → Str) (text : Str) :
    Except Stop (Str × ε) :=
  match byName text with
  | .error err => .error (.system err)
  | .ok (some e) => .ok (text, e)
  | .ok none =>
      if text.any fun c => !(str "0123456789").contains c then
        .error (.runtime (before ++ text ++ after))
      -- `std::stoi`
      else if INT_MAX < decimal text then .error .outOfRange
      else
        match byNumber (decimal text) with
        | .error err => .error (.system err)
        | .ok (some e) => .ok (nameOf e, e)
        | .ok none => .error (.runtime (before ++ text ++ after))

theorem findEntry_ok {ε : Type} {before after : Str} {byName : Str → Except Nat (Option ε)}
    {byNumber : Nat → Except Nat (Option ε)} {nameOf : ε → Str} {text name : Str} {e : ε}
    (h : findEntry before after byName byNumber nameOf text = .ok (name, e)) :
    Finds byName byNumber text e ∧ (name = text ∨ name = nameOf e) := by
  rw [findEntry] at h
  split at h
  next => cases h
  next e' hname =>
    cases h
    exact ⟨.name hname, Or.inl rfl⟩
  next hname =>
    split at h
    next => cases h
    next hdigits =>
      split at h
      next => cases h
      next =>
        split at h
        next => cases h
        next e' hnumber =>
          cases h
          refine ⟨.number hname (fun c hc => ?_) hnumber, Or.inr rfl⟩
          by_contra hnot
          exact hdigits (List.any_eq_true.mpr ⟨c, hc, by simpa using hnot⟩)
        next => cases h

/-! ## The members -/

/-- The members of `Daemon` that say who runs it. -/
structure Identity where
  user : Str
  group : Str
  uid : Option Nat
  gid : Option Nat
  /-- How often a number has been read before it was set. -/
  unsetReads : Nat
deriving DecidableEq, Repr

namespace Identity

/-- As the constructor leaves it. -/
def new : Identity := ⟨[], [], none, none, 0⟩

/-- `Daemon::gid`, where the value is copied. -/
def readGid (d : Identity) : Option Nat × Identity :=
  (d.gid, { d with unsetReads := d.unsetReads + if d.gid = none then 1 else 0 })

/-- `Daemon::group` of a name or a number. -/
def setGroup (n : Accounts) (euid : Nat) (text : Str) (d : Identity) : Except Stop Identity :=
  if text.length = 0 then pure { d with group := [] }
  else if euid ≠ 0 then .error (.runtime (str "Daemon::group(): must be super-user"))
  else do
    let (name, g) ← findEntry (str "Daemon::group(): group `") (str "' not found") n.getgrnam
      n.getgrgid GroupEntry.name text
    pure { d with group := name, gid := some g.gid }

/-- `Daemon::group` of a `gid_t`, with its result. -/
def setGroupId (n : Accounts) (euid : Nat) (groupid : Nat) (d : Identity) :
    Except Stop (Option Nat × Identity) :=
  let (old, d) := d.readGid
  if euid ≠ 0 then .error (.runtime (str "Daemon::group(): must be super-user"))
  else
    match n.getgrgid groupid with
    | .error err => .error (.system err)
    | .ok none => .error (.runtime (str "Daemon::group(): group " ++ str (toString groupid) ++
        str " not found"))
    | .ok (some g) => pure (old, { d with group := g.name, gid := some g.gid })

/-- `Daemon::user` of a name or a number. -/
def setUser (n : Accounts) (euid : Nat) (text : Str) (d : Identity) : Except Stop Identity :=
  if text.length = 0 then pure { d with user := [] }
  else if euid ≠ 0 then .error (.runtime (str "Daemon::user(): must be super-user"))
  else do
    let (name, e) ← findEntry (str "Daemon::user(): user `") (str "' not found") n.getpwnam
      n.getpwuid UserEntry.name text
    let (_, d) ← d.setGroupId n euid e.gid
    pure { d with user := name, uid := some e.uid }

/-- What is used has been set. -/
structure Sound (d : Identity) : Prop where
  user : d.user ≠ [] → d.uid ≠ none ∧ d.gid ≠ none
  group : d.group ≠ [] → d.gid ≠ none

theorem sound_new : Sound new where
  user h := absurd rfl h
  group h := absurd rfl h

variable {n : Accounts} {euid : Nat} {text : Str} {d d' : Identity}

/-- What `group` of a text leaves. -/
theorem setGroup_ok (h : d.setGroup n euid text = .ok d') :
    text = [] ∧ d' = { d with group := [] } ∨
      text ≠ [] ∧ euid = 0 ∧ ∃ g name, n.FindsGroup text g ∧ name ≠ [] ∧
        d' = { d with group := name, gid := some g.gid } := by
  rw [setGroup] at h
  split at h
  next hlen =>
    cases h
    exact Or.inl ⟨List.length_eq_zero_iff.mp hlen, rfl⟩
  next hlen =>
    have hne : text ≠ [] := fun hnil => hlen (hnil ▸ rfl)
    split at h
    next => cases h
    next heuid =>
      obtain ⟨⟨name, g⟩, hfind, h⟩ := bind_eq_ok h
      cases h
      obtain ⟨hg, hname⟩ := findEntry_ok hfind
      refine Or.inr ⟨hne, not_not.mp heuid, g, name, hg, ?_, rfl⟩
      rcases hname with rfl | rfl
      · exact hne
      · exact g.named

theorem setGroupId_ok {groupid : Nat} {old : Option Nat}
    (h : d.setGroupId n euid groupid = .ok (old, d')) :
    ∃ g, n.getgrgid groupid = .ok (some g) ∧
      d' = { d.readGid.2 with group := g.name, gid := some g.gid } := by
  rw [setGroupId] at h
  dsimp only at h
  split at h
  next => cases h
  next =>
    split at h
    next => cases h
    next => cases h
    next g hg =>
      cases h
      exact ⟨g, hg, rfl⟩

/-- What `user` of a text leaves. -/
theorem setUser_ok (h : d.setUser n euid text = .ok d') :
    text = [] ∧ d' = { d with user := [] } ∨
      text ≠ [] ∧ euid = 0 ∧ ∃ e g name, n.FindsUser text e ∧ n.getgrgid e.gid = .ok (some g) ∧
        name ≠ [] ∧
        d' = ⟨name, g.name, some e.uid, some g.gid, d.readGid.2.unsetReads⟩ := by
  rw [setUser] at h
  split at h
  next hlen =>
    cases h
    exact Or.inl ⟨List.length_eq_zero_iff.mp hlen, rfl⟩
  next hlen =>
    have hne : text ≠ [] := fun hnil => hlen (hnil ▸ rfl)
    split at h
    next => cases h
    next heuid =>
      obtain ⟨⟨name, e⟩, hfind, h⟩ := bind_eq_ok h
      obtain ⟨⟨old, d₁⟩, hgroup, h⟩ := bind_eq_ok h
      cases h
      obtain ⟨g, hg, rfl⟩ := setGroupId_ok hgroup
      obtain ⟨he, hname⟩ := findEntry_ok hfind
      refine Or.inr ⟨hne, not_not.mp heuid, e, g, name, he, hg, ?_, rfl⟩
      rcases hname with rfl | rfl
      · exact hne
      · exact e.named

end Identity

/-! ## Changing the identity -/

/-- The calls that the system refuses, with `errno`. -/
structure Refusals where
  setgid : Option Nat
  setgroups : Option Nat
  setuid : Option Nat

def EPERM : Nat := 1

/-- A call: it is refused, or not permitted, or done. -/
def systemCall (refused : Option Nat) (c : Credentials) (call : Call) : Except Nat Credentials :=
  match refused with
  | some err => .error err
  | none => (c.step call).elim (.error EPERM) .ok

namespace Identity

/-- The end of `Daemon::change_identity`. -/
def changeUser (r : Refusals) (d : Identity) (c : Credentials) : Except Stop Credentials :=
  if d.user.length ≠ 0 then
    match d.uid with
    | none => .error .unset
    | some uid => (systemCall r.setuid c (.user (.set uid))).mapError Stop.system
  else pure c

/-- `Daemon::change_identity`. -/
def change (r : Refusals) (d : Identity) (c : Credentials) : Except Stop Credentials :=
  if d.user.length ≠ 0 ∨ d.group.length ≠ 0 then
    match d.gid with
    | none => .error .unset
    | some gid => do
        let c ← (systemCall r.setgid c (.group (.set gid))).mapError Stop.system
        -- the result of `setgroups` is ignored
        changeUser r d ((systemCall r.setgroups c (.groups [gid])).toOption.getD c)
  else pure c

end Identity

/-- The credentials that the options ask for, from those of the start. -/
inductive Assumes (n : Accounts) (o : Options) (c : Credentials) : Credentials → Prop where
  | nobody (huser : o.user = []) (hgroup : o.group = []) : Assumes n o c c
  | group (huser : o.user = []) (hp : c.privileged = true) {g : GroupEntry}
      (hgroup : n.FindsGroup o.group g) : Assumes n o c ⟨c.user, .all g.gid, [g.gid]⟩
  | user (hp : c.privileged = true) {e : UserEntry} (huser : n.FindsUser o.user e)
      {g : GroupEntry} (hgroup : o.group = [] ∧ n.getgrgid e.gid = .ok (some g) ∨
        o.group ≠ [] ∧ n.FindsGroup o.group g) :
      Assumes n o c ⟨.all e.uid, .all g.gid, [g.gid]⟩

/-- With a user all ids are the same. -/
theorem Assumes.ids {n : Accounts} {o : Options} {c asked : Credentials}
    (h : Assumes n o c asked) (hne : o.user ≠ []) {e : UserEntry} (he : n.FindsUser o.user e) :
    asked.user = .all e.uid ∧ ∃ x, asked.group = .all x := by
  cases h with
  | nobody huser hgroup => exact absurd huser hne
  | group huser hp hgroup => exact absurd huser hne
  | user hp huser hgroup => exact ⟨by rw [huser.unique he], _, rfl⟩

/-- What is left of them when `setgroups` may have failed. -/
def Refusals.leave (r : Refusals) (c asked : Credentials) : Credentials :=
  if r.setgroups = none then asked else { asked with groups := c.groups }

/-! ## What comes out -/

theorem systemCall_ok {refused : Option Nat} {c c' : Credentials} {call : Call}
    (h : (systemCall refused c call).mapError Stop.system = .ok c') : c.step call = some c' := by
  cases refused with
  | some err => cases h
  | none =>
      rw [systemCall.eq_def] at h
      cases hs : c.step call with
      | none =>
          rw [hs] at h
          cases h
      | some c₁ =>
          rw [hs] at h
          cases h
          rfl

/-- A privileged process sets its group and its groups. -/
theorem step_group {c : Credentials} (hp : c.privileged = true) (x : Nat) :
    c.step (.group (.set x)) = some { c with group := .all x } := by
  rw [Credentials.step, hp]
  rfl

theorem step_user {c : Credentials} (hp : c.privileged = true) (x : Nat) :
    c.step (.user (.set x)) = some { c with user := .all x } := by
  rw [Credentials.step, hp]
  rfl

/-- The groups behind `setgroups`, whose result is ignored. -/
theorem setgroups_eq {c : Credentials} (hp : c.privileged = true) (refused : Option Nat)
    (groups : List Nat) :
    (systemCall refused c (.groups groups)).toOption.getD c =
      { c with groups := if refused = none then groups else c.groups } := by
  have hstep : c.step (.groups groups) = some { c with groups } := by
    rw [Credentials.step, if_pos hp]
  cases refused with
  | none =>
      rw [systemCall.eq_def, hstep]
      rfl
  | some err => rfl

namespace Identity

variable {n : Accounts} {r : Refusals} {d : Identity} {c c' : Credentials}

/-- What a privileged process leaves. -/
theorem change_ok (hp : c.privileged = true) {gid : Nat} (hgid : d.gid = some gid)
    (hd : d.user ≠ [] ∨ d.group ≠ []) (h : d.change r c = .ok c') :
    c'.group = .all gid ∧ c'.groups = (if r.setgroups = none then [gid] else c.groups) ∧
      (d.user = [] ∧ c'.user = c.user ∨ d.user ≠ [] ∧ ∃ uid, d.uid = some uid ∧
        c'.user = .all uid) := by
  have hlen : d.user.length ≠ 0 ∨ d.group.length ≠ 0 :=
    hd.imp (mt List.length_eq_zero_iff.mp) (mt List.length_eq_zero_iff.mp)
  rw [change, if_pos hlen, hgid] at h
  obtain ⟨c₁, hsetgid, h⟩ := bind_eq_ok h
  obtain rfl := Option.some.inj ((step_group hp gid).symm.trans (systemCall_ok hsetgid))
  have hp' : Credentials.privileged { c with group := Ids.all gid } = true := hp
  rw [setgroups_eq hp', changeUser] at h
  split at h
  next huser =>
    split at h
    next => cases h
    next uid huid =>
      have hp'' : Credentials.privileged ⟨c.user, Ids.all gid,
          if r.setgroups = none then [gid] else c.groups⟩ = true := hp
      obtain rfl := Option.some.inj ((step_user hp'' uid).symm.trans (systemCall_ok h))
      exact ⟨rfl, rfl, Or.inr ⟨fun hnil => huser (hnil ▸ rfl), uid, huid, rfl⟩⟩
  next huser =>
    cases h
    exact ⟨rfl, rfl, Or.inl ⟨List.length_eq_zero_iff.mp (not_not.mp huser), rfl⟩⟩

/-- Nothing is used that has not been set. -/
theorem Sound.change_ne_unset (h : d.Sound) (r : Refusals) (c : Credentials) :
    d.change r c ≠ .error .unset := by
  have hcall : ∀ (refused : Option Nat) (c : Credentials) (call : Call),
      (systemCall refused c call).mapError Stop.system ≠ .error .unset := by
    intro refused c call he
    cases hs : systemCall refused c call with
    | error err =>
        rw [hs] at he
        cases he
    | ok c₁ =>
        rw [hs] at he
        cases he
  have huser : ∀ c, changeUser r d c ≠ .error .unset := by
    intro c
    rw [changeUser]
    split
    next hlen =>
      obtain ⟨uid, huid⟩ := Option.ne_none_iff_exists'.mp
        (h.user fun hnil => hlen (hnil ▸ rfl)).1
      rw [huid]
      exact fun he => hcall _ _ _ he
    next => exact fun he => by cases he
  rw [change]
  split
  next hlen =>
    have hgid : d.gid ≠ none := by
      rcases hlen with hlen | hlen
      · exact (h.user fun hnil => hlen (hnil ▸ rfl)).2
      · exact h.group fun hnil => hlen (hnil ▸ rfl)
    obtain ⟨gid, hgid⟩ := Option.ne_none_iff_exists'.mp hgid
    rw [hgid]
    dsimp only
    cases hs : (systemCall r.setgid c (.group (.set gid))).mapError Stop.system with
    | error stop =>
        rw [error_bind]
        exact fun he => hcall _ _ _ (hs.trans he)
    | ok c₁ =>
        rw [ok_bind]
        exact huser _
  next => exact fun he => by cases he

theorem findEntry_ne_unset {ε : Type} (before after : Str)
    (byName : Str → Except Nat (Option ε)) (byNumber : Nat → Except Nat (Option ε))
    (nameOf : ε → Str) (text : Str) :
    findEntry before after byName byNumber nameOf text ≠ .error .unset := by
  rw [findEntry]
  split
  next => exact fun h => by cases h
  next => exact fun h => by cases h
  next =>
    split
    next => exact fun h => by cases h
    next =>
      split
      next => exact fun h => by cases h
      next => split <;> exact fun h => by cases h

theorem setGroup_ne_unset (n : Accounts) (euid : Nat) (text : Str) (d : Identity) :
    d.setGroup n euid text ≠ .error .unset := by
  rw [Identity.setGroup]
  split
  next => exact fun h => by cases h
  next =>
    split
    next => exact fun h => by cases h
    next => exact bind_ne_error (findEntry_ne_unset _ _ _ _ _ _) fun _ _ h => by cases h

theorem setUser_ne_unset (n : Accounts) (euid : Nat) (text : Str) (d : Identity) :
    d.setUser n euid text ≠ .error .unset := by
  rw [Identity.setUser]
  split
  next => exact fun h => by cases h
  next =>
    split
    next => exact fun h => by cases h
    next =>
      refine bind_ne_error (findEntry_ne_unset _ _ _ _ _ _) fun r _ =>
        bind_ne_error ?_ fun _ _ h => by cases h
      rw [setGroupId]
      dsimp only
      split
      next => exact fun h => by cases h
      next => split <;> exact fun h => by cases h

theorem Sound.setGroup (h : d.Sound) {euid : Nat} {text : Str} {d' : Identity}
    (hs : d.setGroup n euid text = .ok d') : d'.Sound := by
  rcases setGroup_ok hs with ⟨-, rfl⟩ | ⟨-, -, g, name, -, -, rfl⟩
  · exact ⟨h.user, fun hne => absurd rfl hne⟩
  · exact ⟨fun hne => ⟨(h.user hne).1, Option.some_ne_none _⟩, fun _ => Option.some_ne_none _⟩

theorem Sound.setUser (h : d.Sound) {euid : Nat} {text : Str} {d' : Identity}
    (hs : d.setUser n euid text = .ok d') : d'.Sound := by
  rcases setUser_ok hs with ⟨-, rfl⟩ | ⟨-, -, e, g, name, -, -, -, rfl⟩
  · exact ⟨fun hne => absurd rfl hne, h.group⟩
  · exact ⟨fun _ => ⟨Option.some_ne_none _, Option.some_ne_none _⟩, fun _ => Option.some_ne_none _⟩

/-- A number is read too early when a user is given, and only then. -/
theorem unsetReads_eq {euid : Nat} {user group : Str} {d' : Identity}
    (huser : new.setUser n euid user = .ok d) (hgroup : d.setGroup n euid group = .ok d') :
    d'.unsetReads = if user = [] then 0 else 1 := by
  have hkeep : d'.unsetReads = d.unsetReads := by
    rcases setGroup_ok hgroup with ⟨-, rfl⟩ | ⟨-, -, g, name, -, -, rfl⟩ <;> rfl
  rcases setUser_ok huser with ⟨hu, rfl⟩ | ⟨hu, -, e, g, name, -, -, -, rfl⟩
  · rw [hkeep, if_pos hu]
    rfl
  · rw [hkeep, if_neg hu]
    rfl

end Identity

/-- **The options are obeyed**: the credentials are what they ask for, as far as
`setgroups` does not fail. -/
theorem change_assumes {n : Accounts} {o : Options} {r : Refusals} {c c' : Credentials}
    {d d' : Identity} (huser : Identity.new.setUser n c.user.effective o.user = .ok d)
    (hgroup : d.setGroup n c.user.effective o.group = .ok d') (hc : d'.change r c = .ok c') :
    ∃ asked, Assumes n o c asked ∧ c' = r.leave c asked := by
  have hprivileged : c.user.effective = 0 → c.privileged = true := beq_iff_eq.mpr
  -- the credentials in terms of the members
  have hleave : ∀ users gid, c'.user = users → c'.group = .all gid →
      c'.groups = (if r.setgroups = none then [gid] else c.groups) →
      c' = r.leave c ⟨users, .all gid, [gid]⟩ := by
    intro users gid hu hg hgs
    obtain ⟨user, group, groups⟩ := c'
    obtain rfl : user = users := hu
    obtain rfl : group = .all gid := hg
    obtain rfl : groups = _ := hgs
    rw [Refusals.leave]
    split <;> rfl
  rcases Identity.setUser_ok huser with ⟨hu, rfl⟩ | ⟨hu, heuid, e, g, name, he, hg, hname, rfl⟩
  · rcases Identity.setGroup_ok hgroup with ⟨hg, rfl⟩ | ⟨hg, heuid, g, name, hfind, hname, rfl⟩
    · cases hc
      refine ⟨c, .nobody hu hg, ?_⟩
      rw [Refusals.leave]
      split <;> rfl
    · obtain ⟨hgroup, hgroups, huser⟩ :=
        Identity.change_ok (hprivileged heuid) rfl (Or.inr hname) hc
      rcases huser with ⟨-, huser⟩ | ⟨hne, -⟩
      · exact ⟨_, .group hu (hprivileged heuid) hfind, hleave _ _ huser hgroup hgroups⟩
      · exact absurd rfl hne
  · rcases Identity.setGroup_ok hgroup with ⟨hg', rfl⟩ | ⟨hg', -, g', name', hfind, hname', rfl⟩
    · obtain ⟨hgroup, hgroups, huser⟩ :=
        Identity.change_ok (hprivileged heuid) rfl (Or.inl hname) hc
      rcases huser with ⟨hnil, -⟩ | ⟨-, uid, huid, huser⟩
      · exact absurd hnil hname
      · obtain rfl := Option.some.inj huid
        exact ⟨_, .user (hprivileged heuid) he (Or.inl ⟨hg', hg⟩), hleave _ _ huser hgroup hgroups⟩
    · obtain ⟨hgroup, hgroups, huser⟩ :=
        Identity.change_ok (hprivileged heuid) rfl (Or.inl hname) hc
      rcases huser with ⟨hnil, -⟩ | ⟨-, uid, huid, huser⟩
      · exact absurd hnil hname
      · obtain rfl := Option.some.inj huid
        exact ⟨_, .user (hprivileged heuid) he (Or.inr ⟨hg', hfind⟩),
          hleave _ _ huser hgroup hgroups⟩

end Undervest
