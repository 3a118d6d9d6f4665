import Mbb.Tables

/-!
# Users and groups

Capabilities (`mbbd/mbbcap.h`), the records of users and groups and what
`mbbd/mbbuser.c` and `mbbd/mbbgroup.c` do with them, and how `mbbd/mbbdbload.c` builds them
from the tables. A pointer to a record is its id. The ids of users come from a sequence of
the database, which gives each of them out once; a user that is dropped keeps its record,
since sessions, keys and groups may still refer to it.
-/

namespace Mbb

/-! ## Capabilities

A group is a bit of the mask. Root has all of them.
-/

/-- `MBB_CAP_ROOT_ID` -/
def mbbCapRootId : ℕ := 0

/-- `MBB_CAP_WHEEL_ID` -/
def mbbCapWheelId : ℕ := 1

/-- `MBB_CAP_ADMIN_ID` -/
def mbbCapAdminId : ℕ := 4

/-- `MBB_CAP_DUMMY_ID` -/
def mbbCapDummyId : ℕ := 31

/-- `1 << id` -/
def capOf (id : ℕ) : BitVec 32 := 1#32 <<< id

/-- `MBB_CAP_ALL` -/
def mbbCapAll : BitVec 32 := BitVec.allOnes 32 ^^^ capOf mbbCapDummyId

/-- `MBB_CAP_IS_ROOT` -/
def mbbCapIsRoot (mask : BitVec 32) : Bool := mask &&& capOf mbbCapRootId != 0#32

/-- `MBB_CAP_IS_WHEEL` -/
def mbbCapIsWheel (mask : BitVec 32) : Bool :=
  mask &&& capOf mbbCapWheelId != 0#32 || mbbCapIsRoot mask

/-- `MBB_CAP_IS_DUMMY` -/
def mbbCapIsDummy (mask : BitVec 32) : Bool := mask &&& capOf mbbCapDummyId != 0#32

/-- `mbb_cap_check`: may a caller with capabilities `m` call a method with `mask`? -/
def mbbCapCheck (m mask : BitVec 32) : Bool :=
  if m = 0#32 then mbbCapIsDummy mask else mbbCapIsRoot m || m &&& mask != 0#32

theorem getLsbD_capOf {id : ℕ} (h : id < 32) (n : ℕ) :
    (capOf id).getLsbD n = decide (n = id) := by
  rw [capOf, ← BitVec.twoPow_eq, BitVec.getLsbD_twoPow, decide_eq_true h, Bool.true_and]
  exact decide_eq_decide.mpr eq_comm

/-- Setting a bit of a mask. -/
theorem getLsbD_or_capOf {id : ℕ} (h : id < 32) (m : BitVec 32) :
    (m ||| capOf id).getLsbD = Function.update m.getLsbD id true := by
  funext n
  rw [BitVec.getLsbD_or, getLsbD_capOf h, Function.update_apply]
  by_cases hn : n = id <;> simp [hn]

/-- Clearing a bit of a mask. -/
theorem getLsbD_and_not_capOf {id : ℕ} (h : id < 32) (m : BitVec 32) :
    (m &&& ~~~capOf id).getLsbD = Function.update m.getLsbD id false := by
  funext n
  rw [BitVec.getLsbD_and, BitVec.getLsbD_not, getLsbD_capOf h, Function.update_apply]
  by_cases hn : n = id
  · simp [hn]
  · by_cases hlt : n < 32
    · simp [hn, hlt]
    · simp [hn, hlt, BitVec.getLsbD_of_ge m n (not_lt.mp hlt)]

/-- Testing a bit of a mask. -/
theorem and_capOf_ne_zero {id : ℕ} (h : id < 32) (m : BitVec 32) :
    (m &&& capOf id != 0#32) = m.getLsbD id := by
  rw [Bool.eq_iff_iff, bne_iff_ne]
  constructor
  · intro hne
    by_contra hbit
    refine hne (BitVec.eq_of_getLsbD_eq fun n _ => ?_)
    rw [BitVec.getLsbD_and, getLsbD_capOf h]
    by_cases hn : n = id
    · simp [hn, Bool.not_eq_true _ ▸ hbit]
    · simp [hn]
  · intro hbit heq
    have hget := congrArg (fun x => x.getLsbD id) heq
    simp [getLsbD_capOf h, hbit] at hget

/-- A mask that is not empty has a bit. -/
theorem exists_bit {m : BitVec 32} (h : m ≠ 0#32) : ∃ n, m.getLsbD n = true := by
  by_contra hnone
  refine h (BitVec.eq_of_getLsbD_eq fun n _ => ?_)
  rw [Bool.eq_false_of_not_eq_true fun hn => hnone ⟨n, hn⟩, BitVec.getLsbD_zero]

/-! ## Records -/

/-- `struct mbb_user` -/
structure MbbUser : Type where
  /-- name -/
  name : String
  /-- secret; `none` is `NULL` -/
  secret : Option String
  /-- the groups of the user, one bit for each -/
  capMask : BitVec 32
  /-- consumers -/
  childs : List Int
deriving DecidableEq

/-- `struct mbb_group`. There is no table of users before the first one is added. -/
structure MbbGroup : Type where
  /-- name -/
  name : String
  /-- the keys of the table of users -/
  users : List Int
deriving DecidableEq

/-- Users and groups. -/
structure UserBase : Type where
  /-- all users there have been -/
  users : Ledger Int MbbUser
  /-- the users that are registered, in `dlink` of `mbbd/mbbuser.c` -/
  dlink : List Int
  /-- groups -/
  groups : Ledger ℕ MbbGroup

namespace UserBase

variable (b : UserBase)

/-- Nobody. -/
def empty : UserBase := ⟨.empty, [], .empty⟩

/-! ## Lookup -/

/-- `mbb_user_get_by_id` -/
def userById (id : Int) : Option MbbUser := if id ∈ b.dlink then b.users.get? id else none

/-- `mbb_user_get_by_name` -/
def userByName (name : String) : Option (Int × MbbUser) :=
  b.dlink.findSome? fun id =>
    (b.users.get? id).bind fun u => if u.name = name then some (id, u) else none

/-- `mbb_group_get_by_name` -/
def groupByName (name : String) : Option (ℕ × MbbGroup) :=
  b.groups.find? fun g => decide (g.name = name)

/-- `mbb_group_has_user` -/
def groupHasUser (g : MbbGroup) (id : Int) : Bool := decide (id ∈ g.users)

/-! ## Groups

The table of a group and the mask of a user are changed together.
-/

/-- `mbb_group_new` and `mbb_group_join` -/
def groupJoin (id : ℕ) (name : String) : UserBase := { b with groups := b.groups.put id ⟨name, []⟩ }

/-- `mbb_group_add_user` -/
def groupAddUser (id : ℕ) (user : Int) : UserBase :=
  if (b.groups.get? id).any fun g => groupHasUser g user then b
  else
    { b with
      groups := b.groups.modify id fun g => { g with users := user :: g.users }
      users := b.users.modify user fun u => { u with capMask := u.capMask ||| capOf id } }

/-- `mbb_group_del_user` -/
def groupDelUser (id : ℕ) (user : Int) : UserBase :=
  if (b.groups.get? id).any fun g => groupHasUser g user then
    { b with
      groups := b.groups.modify id fun g =>
        { g with users := g.users.filter fun k => decide (k ≠ user) }
      users := b.users.modify user fun u => { u with capMask := u.capMask &&& ~~~capOf id } }
  else b

/-! ## Users -/

/-- `mbb_user_new` and `mbb_user_join` -/
def userJoin (id : Int) (name : String) (secret : Option String) : UserBase :=
  { b with users := b.users.put id ⟨name, secret, 0#32, []⟩, dlink := id :: b.dlink }

/-- The ids of the groups in a mask, as the loops over its bits find them. -/
def maskGroups (mask : BitVec 32) : List ℕ := (List.range 32).filter mask.getLsbD

/-- The user is in the table of registered users no more. -/
def dlinkSteal (id : Int) : UserBase :=
  { b with dlink := b.dlink.filter fun k => decide (k ≠ id) }

/-- `mbb_user_detach`: the user leaves the groups of its mask that exist. -/
def userDetach (id : Int) : UserBase :=
  let mask := ((b.users.get? id).map MbbUser.capMask).getD 0#32
  -- `mbb_group_get_by_id` may find no group for a bit; then `groupDelUser` changes nothing
  ((maskGroups mask).foldl (fun b g => b.groupDelUser g id) b).dlinkSteal id

/-- `user->cap_mask = 0` -/
def clearCapMask (id : Int) : UserBase :=
  { b with users := b.users.modify id fun u => { u with capMask := 0#32 } }

/-- `mbb_user_remove` -/
def userRemove (id : Int) : UserBase := (b.clearCapMask id).userDetach id

/-- `mbb_user_mod_name` -/
def userModName (id : Int) (newname : String) : Bool × UserBase :=
  match b.userByName newname with
  | some _ => (false, b)
  | none =>
    -- the table is keyed by the name, so the user is taken out and put in again
    let b := b.dlinkSteal id
    (true, { b with
      users := b.users.modify id fun u => { u with name := newname }
      dlink := id :: b.dlink })

/-- `mbb_user_mod_pass` -/
def userModPass (id : Int) (newpass : Option String) : UserBase :=
  { b with users := b.users.modify id fun u => { u with secret := newpass } }

/-- `mbb_user_add_consumer` -/
def userAddConsumer (id con : Int) : UserBase :=
  { b with users := b.users.modify id fun u =>
    { u with childs := if con ∈ u.childs then u.childs else con :: u.childs } }

end UserBase

/-! ## Loading -/

/-- A row of `users`. -/
structure UserRow : Type where
  /-- `user_name` -/
  name : String
  /-- `user_secret` -/
  secret : Option String

/-- The tables that hold users and groups, and the constraints on them. -/
structure UserTables : Type where
  /-- `users` -/
  users : Ledger Int UserRow
  /-- `groups`, the names -/
  groups : Ledger ℕ String
  /-- `groups_pool` -/
  groupsPool : List (ℕ × Int)
  /-- `consumers` -/
  consumers : Ledger Int ConsumerRow
  /-- `user_name` is unique -/
  nameUnique : (users.rows.map fun r => r.2.name).Nodup
  /-- `check (group_id < 32)` -/
  groupCheck : ∀ r ∈ groups.rows, r.1 < 32

/-- The tables as `sql/table.sql` creates them. -/
def UserTables.initial : UserTables where
  users := ⟨[(1, ⟨"root", some "toor"⟩)], by decide⟩
  -- the ids are the numbers of the bits in the masks of capabilities
  groups := ⟨[(0, "root"), (1, "wheel"), (4, "admin"), (10, "log"), (20, "user"),
    (26, "consumer")], by decide⟩
  groupsPool := [(0, 1)]
  consumers := .empty
  nameUnique := by decide
  groupCheck := by decide

namespace UserBase

variable (b : UserBase)

/-- `mbb_db_load_users` -/
def loadUsers (rows : Ledger Int UserRow) : UserBase :=
  rows.rows.foldl (fun b r => b.userJoin r.1 r.2.name r.2.secret) b

/-- `mbb_db_load_groups` -/
def loadGroups (rows : Ledger ℕ String) : UserBase :=
  rows.rows.foldl (fun b r => b.groupJoin r.1 r.2) b

/-- `mbb_db_load_groups_pool`: a row that names no group or no user is passed over. -/
def loadGroupsPool (rows : List (ℕ × Int)) : UserBase :=
  rows.foldl (fun b r =>
    match b.groups.get? r.1, b.userById r.2 with
    | some _, some _ => b.groupAddUser r.1 r.2
    | _, _ => b) b

/-- The part of `mbb_db_load_consumers` that is about users. -/
def loadConsumers (rows : Ledger Int ConsumerRow) : UserBase :=
  rows.rows.foldl (fun b r =>
    match r.2.userId.bind fun id => (b.userById id).map fun _ => id with
    | some id => b.userAddConsumer id r.1
    | none => b) b

/-- What `main` loads. -/
def load (t : UserTables) : UserBase :=
  (((empty.loadUsers t.users).loadGroups t.groups).loadGroupsPool t.groupsPool).loadConsumers
    t.consumers

end UserBase

end Mbb
