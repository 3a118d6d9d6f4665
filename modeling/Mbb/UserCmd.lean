import Mathlib.Logic.Relation
import Mbb.Command
import Mbb.User

/-!
# The commands on users and groups

From `mbbd/mbbuserman.c` and `mbbd/mbbgroupman.c`, with their capabilities and the search
for a method of `mbbd/mbbfunc.c`. A command runs under a lock; what it does is one change
of one user, or of one user and one group, or nothing.
-/

namespace Mbb

/-- The commands. -/
inductive UserCmd : Type where
  /-- `mbb-add-user` -/
  | addUser (name : String) (secret : Option String)
  /-- `mbb-drop-user` -/
  | dropUser (name : String)
  /-- `mbb-user-mod-name` -/
  | userModName (name newname : String)
  /-- `mbb-user-mod-pass` -/
  | userModPass (name newsecret : String)
  /-- `mbb-self-mod-pass` -/
  | selfModPass (newsecret : String) (secret : Option String)
  /-- `mbb-group-add-user` -/
  | groupAddUser (groupName userName : String)
  /-- `mbb-group-del-user` -/
  | groupDelUser (groupName userName : String)

/-- The capabilities in the tables of methods. -/
def UserCmd.capMask : UserCmd → BitVec 32
  | .addUser _ _ => capOf mbbCapAdminId
  | .dropUser _ => capOf mbbCapWheelId
  | .userModName _ _ => capOf mbbCapAdminId
  | .userModPass _ _ => capOf mbbCapAdminId
  | .selfModPass _ _ => mbbCapAll
  | .groupAddUser _ _ => capOf mbbCapAdminId
  | .groupDelUser _ _ => capOf mbbCapAdminId

/-- What a command knows of the thread it runs in. -/
structure Caller : Type where
  /-- `mbb_thread_get_cap` -/
  cap : BitVec 32
  /-- `mbb_thread_get_uid` -/
  uid : Int

namespace UserBase

variable (b : UserBase) (e : Env) (c : Caller)

/-! ## Users -/

/-- `mbb_db_user_add`: it fails, or makes a row with an id that has not been used. -/
def dbUserAdd : Bool := e.db 0 && decide (0 ≤ e.id) && (b.users.get? e.id).isNone

/-- `add_user` -/
def addUser (name : String) (secret : Option String) : Option MbbMsg × UserBase :=
  match b.userByName name with
  | some _ => (some (.nameExists name), b)
  | none =>
    -- the row comes first, and the record gets the id the database has made
    if b.dbUserAdd e then (none, b.userJoin e.id name secret)
    else (some .fromError, b)

/-- `drop_user` -/
def dropUser (name : String) : Option MbbMsg × UserBase :=
  match b.userByName name with
  | none => (some .unknownUser, b)
  | some (id, u) =>
    if u.childs ≠ [] then (some .hasChilds, b)
    else if e.db 0 then (none, b.userRemove id)
    else (some .fromError, b)

/-- `user_mod_name` -/
def userModNameDo (name newname : String) : Option MbbMsg × UserBase :=
  match b.userByName name with
  | none => (some .unknownUser, b)
  | some (id, _) =>
    match b.userByName newname with
    | some _ => (some (.nameExists newname), b)
    | none =>
      -- `mbb_user_mod_name` looks for the new name again, after the database has agreed
      if e.db 0 then
        match b.userModName id newname with
        | (false, b) => (some .unpossible, b)
        | (true, b) => (none, b)
      else (some .fromError, b)

/-- The secret that `change_pass` makes of a password. -/
def passSecret (pass : String) : Option String := if pass = "" then none else some pass

/-- `change_pass` -/
def changePass (id : Int) (pass : String) : Option MbbMsg × UserBase :=
  if e.db 0 then (none, b.userModPass id (passSecret pass)) else (some .fromError, b)

/-- `user_mod_pass` -/
def userModPassDo (name newsecret : String) : Option MbbMsg × UserBase :=
  match b.userByName name with
  | none => (some .unknownUser, b)
  | some (id, _) => b.changePass e id newsecret

/-- The test of the old password in `self_mod_pass`. -/
def selfPassTest (u : MbbUser) (pass : Option String) : Option MbbMsg :=
  -- whoever is in the group root need not know the old password
  if mbbCapIsRoot c.cap then none
  else
    match pass with
    | none => some .needPass
    -- a user without secret may give any text for the old password
    | some pass => if u.secret ≠ none ∧ u.secret ≠ some pass then some .invalidPass else none

/-- `self_mod_pass` -/
def selfModPass (newsecret : String) (secret : Option String) : Option MbbMsg × UserBase :=
  match b.userById c.uid with
  | none => (some .selfNotExists, b)
  | some u =>
    match selfPassTest c u secret with
    | some msg => (some msg, b)
    | none => b.changePass e c.uid newsecret

/-! ## Groups -/

/-- `group_do_user` -/
def groupDoUser (groupName userName : String) (add : Bool) : Option MbbMsg × UserBase :=
  match b.groupByName groupName with
  | none => (some .unknownGroup, b)
  | some (g, group) =>
    match b.userByName userName with
    | none => (some .unknownUser, b)
    | some (id, _) =>
      -- the groups root and wheel are the two with the smallest ids
      if g ≤ mbbCapWheelId ∧ mbbCapIsWheel c.cap = false then (some .rootOnly, b)
      else if groupHasUser group id = add then
        (some (if add then .groupHasUser else .groupHasnotUser), b)
      else if e.db 0 then
        (none, if add then b.groupAddUser g id else b.groupDelUser g id)
      else (some .fromError, b)

/-! ## Calls -/

/-- A command, once it has been found. -/
def exec : UserCmd → Option MbbMsg × UserBase
  | .addUser name secret => b.addUser e name secret
  | .dropUser name => b.dropUser e name
  | .userModName name newname => b.userModNameDo e name newname
  | .userModPass name newsecret => b.userModPassDo e name newsecret
  | .selfModPass newsecret secret => b.selfModPass e c newsecret secret
  | .groupAddUser groupName userName => b.groupDoUser e c groupName userName true
  | .groupDelUser groupName userName => b.groupDoUser e c groupName userName false

/-- `mbb_thread_get_cap`, `mbb_thread_get_uid`: of a thread with this user, or none. -/
def caller (user : Option Int) : Caller :=
  ⟨((user.bind b.users.get?).map MbbUser.capMask).getD 0#32, user.getD (-1)⟩

/-- `mbb_func_search`: is the method found for a thread with this user? -/
def funcSearch (user : Option Int) (capMask : BitVec 32) : Bool :=
  mbbCapCheck (b.caller user).cap capMask

/-- `mbb_func_call` in a thread with this user; the first result is `none` when no method
is found. -/
def funcCall (user : Option Int) (cmd : UserCmd) : Option (Option MbbMsg) × UserBase :=
  if b.funcSearch user cmd.capMask then
    let r := b.exec e (b.caller user) cmd
    (some r.1, r.2)
  else (none, b)

/-! ## What a command does

A command refuses, or has one effect out of a short list; what follows for runs is proved for the
effects.
-/

/-- The changes a command can make. -/
inductive Effect : UserCmd → UserBase → Prop where
  /-- a new user -/
  | addUser {name : String} {secret : Option String} (hid : b.users.get? e.id = none)
      (hname : b.userByName name = none) :
      Effect (.addUser name secret) (b.userJoin e.id name secret)
  /-- a user without consumers goes -/
  | dropUser {name : String} {id : Int} {u : MbbUser} (hu : b.userByName name = some (id, u))
      (hchilds : u.childs = []) (hdb : e.db 0 = true) :
      Effect (.dropUser name) (b.userRemove id)
  /-- another name, which nobody has -/
  | userModName {name newname : String} {id : Int} {u : MbbUser}
      (hu : b.userByName name = some (id, u)) (hnew : b.userByName newname = none)
      (hdb : e.db 0 = true) :
      Effect (.userModName name newname) (b.userModName id newname).2
  /-- another secret -/
  | userModPass {name newsecret : String} {id : Int} {u : MbbUser}
      (hu : b.userByName name = some (id, u)) (hdb : e.db 0 = true) :
      Effect (.userModPass name newsecret) (b.userModPass id (passSecret newsecret))
  /-- another secret of the caller -/
  | selfModPass {newsecret : String} {secret : Option String} {u : MbbUser}
      (hu : b.userById c.uid = some u) :
      Effect (.selfModPass newsecret secret) (b.userModPass c.uid (passSecret newsecret))
  /-- a user enters a group -/
  | groupAddUser {groupName userName : String} {g : ℕ} {group : MbbGroup} {id : Int} {u : MbbUser}
      (hg : b.groupByName groupName = some (g, group)) (hu : b.userByName userName = some (id, u))
      (hcap : g ≤ mbbCapWheelId → mbbCapIsWheel c.cap = true) (hnot : id ∉ group.users) :
      Effect (.groupAddUser groupName userName) (b.groupAddUser g id)
  /-- a user leaves a group -/
  | groupDelUser {groupName userName : String} {g : ℕ} {group : MbbGroup} {id : Int} {u : MbbUser}
      (hg : b.groupByName groupName = some (g, group)) (hu : b.userByName userName = some (id, u))
      (hcap : g ≤ mbbCapWheelId → mbbCapIsWheel c.cap = true) (hmem : id ∈ group.users) :
      Effect (.groupDelUser groupName userName) (b.groupDelUser g id)

/-- What a command answers: no error, after one of the changes; or an error, and nothing has
changed. -/
def Outcome (cmd : UserCmd) (r : Option MbbMsg × UserBase) : Prop :=
  (r.1 = none ∧ b.Effect e c cmd r.2) ∨ (r.1 ≠ none ∧ r.2 = b)

variable {b e c}

theorem Outcome.refuse (cmd : UserCmd) (msg : MbbMsg) : b.Outcome e c cmd (some msg, b) :=
  Or.inr ⟨Option.some_ne_none msg, rfl⟩

theorem Outcome.done {cmd : UserCmd} {b' : UserBase} (h : b.Effect e c cmd b') :
    b.Outcome e c cmd (none, b') := Or.inl ⟨rfl, h⟩

theorem addUser_outcome (name : String) (secret : Option String) :
    b.Outcome e c (.addUser name secret) (b.addUser e name secret) := by
  rw [addUser]
  split
  · exact .refuse _ _
  · rename_i hname
    split
    · rename_i hdb
      rw [dbUserAdd, Bool.and_eq_true, Option.isNone_iff_eq_none] at hdb
      exact .done (.addUser hdb.2 hname)
    · exact .refuse _ _

theorem dropUser_outcome (name : String) :
    b.Outcome e c (.dropUser name) (b.dropUser e name) := by
  rw [dropUser]
  split
  · exact .refuse _ _
  · rename_i id u hu
    split
    · exact .refuse _ _
    · rename_i hchilds
      split
      · rename_i hdb
        exact .done (.dropUser hu (not_ne_iff.mp hchilds) hdb)
      · exact .refuse _ _

/-- `mbb_user_mod_name` succeeds when nobody has the name. -/
theorem userModName_fst (id : Int) {newname : String} (h : b.userByName newname = none) :
    (b.userModName id newname).1 = true := by
  rw [userModName, h]

theorem userModNameDo_outcome (name newname : String) :
    b.Outcome e c (.userModName name newname) (b.userModNameDo e name newname) := by
  rw [userModNameDo]
  split
  · exact .refuse _ _
  · rename_i id u hu
    split
    · exact .refuse _ _
    · rename_i hnew
      have hfst := userModName_fst id hnew
      split
      · rename_i hdb
        -- the second look for the name finds nobody either
        split
        · rename_i b' hmod
          rw [hmod] at hfst
          cases hfst
        · rename_i b' hmod
          have heffect := Effect.userModName (c := c) hu hnew hdb
          rw [hmod] at heffect
          exact .done heffect
      · exact .refuse _ _

theorem userModPassDo_outcome (name newsecret : String) :
    b.Outcome e c (.userModPass name newsecret) (b.userModPassDo e name newsecret) := by
  rw [userModPassDo]
  split
  · exact .refuse _ _
  · rename_i id u hu
    rw [changePass]
    split
    · rename_i hdb
      exact .done (.userModPass hu hdb)
    · exact .refuse _ _

theorem selfModPass_outcome (newsecret : String) (secret : Option String) :
    b.Outcome e c (.selfModPass newsecret secret) (b.selfModPass e c newsecret secret) := by
  rw [selfModPass]
  split
  · exact .refuse _ _
  · rename_i u hu
    split
    · exact .refuse _ _
    · rw [changePass]
      split
      · exact .done (.selfModPass hu)
      · exact .refuse _ _

/-- `group_do_user` has passed its tests: both are known, the caller may change the group,
and the user is not in it already, or not out of it. -/
theorem groupDoUser_cases (groupName userName : String) (add : Bool) :
    ((b.groupDoUser e c groupName userName add).1 ≠ none ∧
      (b.groupDoUser e c groupName userName add).2 = b) ∨
    ∃ g group id u, b.groupByName groupName = some (g, group) ∧
      b.userByName userName = some (id, u) ∧
      (g ≤ mbbCapWheelId → mbbCapIsWheel c.cap = true) ∧ groupHasUser group id ≠ add ∧
      b.groupDoUser e c groupName userName add =
        (none, if add then b.groupAddUser g id else b.groupDelUser g id) := by
  rw [groupDoUser]
  split
  · exact Or.inl ⟨Option.some_ne_none _, rfl⟩
  · rename_i g group hg
    split
    · exact Or.inl ⟨Option.some_ne_none _, rfl⟩
    · rename_i id u hu
      split
      · exact Or.inl ⟨Option.some_ne_none _, rfl⟩
      · rename_i hcap
        split
        · exact Or.inl ⟨Option.some_ne_none _, rfl⟩
        · rename_i hhas
          split
          · refine Or.inr ⟨g, group, id, u, hg, hu, fun hle => ?_, hhas, rfl⟩
            by_contra hwheel
            exact hcap ⟨hle, Bool.not_eq_true _ ▸ hwheel⟩
          · exact Or.inl ⟨Option.some_ne_none _, rfl⟩

theorem groupAddUser_outcome (groupName userName : String) :
    b.Outcome e c (.groupAddUser groupName userName)
      (b.groupDoUser e c groupName userName true) := by
  rcases groupDoUser_cases (b := b) (e := e) (c := c) groupName userName true with
    hrefuse | ⟨g, group, id, u, hg, hu, hcap, hhas, heq⟩
  · exact Or.inr hrefuse
  · rw [heq, if_pos rfl]
    exact .done (.groupAddUser hg hu hcap fun hmem => hhas (decide_eq_true hmem))

theorem groupDelUser_outcome (groupName userName : String) :
    b.Outcome e c (.groupDelUser groupName userName)
      (b.groupDoUser e c groupName userName false) := by
  rcases groupDoUser_cases (b := b) (e := e) (c := c) groupName userName false with
    hrefuse | ⟨g, group, id, u, hg, hu, hcap, hhas, heq⟩
  · exact Or.inr hrefuse
  · rw [heq, if_neg Bool.false_ne_true]
    refine .done (.groupDelUser hg hu hcap ?_)
    by_contra hmem
    exact hhas (decide_eq_false hmem)

/-- **A command does one thing or nothing.** -/
theorem exec_outcome (cmd : UserCmd) : b.Outcome e c cmd (b.exec e c cmd) := by
  cases cmd with
  | addUser name secret => exact addUser_outcome name secret
  | dropUser name => exact dropUser_outcome name
  | userModName name newname => exact userModNameDo_outcome name newname
  | userModPass name newsecret => exact userModPassDo_outcome name newsecret
  | selfModPass newsecret secret => exact selfModPass_outcome newsecret secret
  | groupAddUser groupName userName => exact groupAddUser_outcome groupName userName
  | groupDelUser groupName userName => exact groupDelUser_outcome groupName userName

theorem exec_effect (cmd : UserCmd) :
    (b.exec e c cmd).2 = b ∨ b.Effect e c cmd (b.exec e c cmd).2 := by
  rcases exec_outcome (b := b) (e := e) (c := c) cmd with ⟨-, heffect⟩ | ⟨-, heq⟩
  · exact Or.inr heffect
  · exact Or.inl heq

/-- A call does nothing unless the method is found. -/
theorem funcCall_effect (user : Option Int) (cmd : UserCmd) :
    (b.funcCall e user cmd).2 = b ∨ (b.funcSearch user cmd.capMask = true ∧
      b.Effect e (b.caller user) cmd (b.funcCall e user cmd).2) := by
  rw [funcCall]
  split
  · rename_i hfound
    rcases exec_effect (b := b) (e := e) (c := b.caller user) cmd with heq | heffect
    · exact Or.inl heq
    · exact Or.inr ⟨hfound, heffect⟩
  · exact Or.inl rfl

/-- A call that answers without an error has done something. -/
theorem funcCall_done {user : Option Int} {cmd : UserCmd}
    (h : (b.funcCall e user cmd).1 = some none) :
    b.Effect e (b.caller user) cmd (b.funcCall e user cmd).2 := by
  rw [funcCall] at h ⊢
  split at h
  · rename_i hfound
    rw [if_pos hfound]
    rcases exec_outcome (b := b) (e := e) (c := b.caller user) cmd with ⟨-, heffect⟩ | ⟨hmsg, -⟩
    · exact heffect
    · exact absurd (Option.some.inj h) hmsg
  · cases h

/-- The command drops this user. -/
def Drops (b : UserBase) (e : Env) (cmd : UserCmd) (id : Int) (u : MbbUser) : Prop :=
  ∃ name, cmd = .dropUser name ∧ b.userByName name = some (id, u) ∧ u.childs = [] ∧ e.db 0 = true

theorem Drops.exec {cmd : UserCmd} {id : Int} {u : MbbUser} (h : b.Drops e cmd id u) :
    b.exec e c cmd = (none, b.userRemove id) := by
  obtain ⟨name, rfl, hu, hchilds, hdb⟩ := h
  rw [UserBase.exec, dropUser, hu]
  exact (if_neg (not_ne_iff.mpr hchilds)).trans (if_pos hdb)

/-! ## Runs -/

/-- A step of a run in which every command is in `P`, whatever the caller may do. -/
def Step (P : UserBase → Env → UserCmd → Prop) (b b' : UserBase) : Prop :=
  ∃ e c cmd, P b e cmd ∧ (b.exec e c cmd).2 = b'

/-- The states of the runs from `b` in which every command is in `P`. -/
def Reaches (P : UserBase → Env → UserCmd → Prop) (b b' : UserBase) : Prop :=
  Relation.ReflTransGen (Step P) b b'

end UserBase

end Mbb
