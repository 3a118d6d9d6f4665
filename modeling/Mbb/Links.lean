import Mbb.DataLink
import Mbb.HttpBatch
import Mbb.User

/-!
# Units, users, groups, consumers and gateways in their tables

Each kind of object has a `data_link` of its own. Objects join it, leave it and get other names;
what else these functions do writes to objects that are in tables, but not to their keys. Memory of
an object that is registered nowhere may hold anything: it is allocated, freed and used again.
-/

namespace Mbb

/-! ## Objects

What the functions below read and write of an object. An id is never written to after the object has
joined; a name is, by `mod_name` alone.
-/

/-- `struct mbb_unit` -/
structure LinkUnit : Type where
  /-- `id` -/
  id : Int
  /-- `name` -/
  name : CStr
  /-- `con` -/
  con : Option ℕ
  /-- `local` -/
  isLocal : Bool

/-- `struct mbb_user` -/
structure LinkUser : Type where
  /-- `id` -/
  id : Int
  /-- `name` -/
  name : CStr
  /-- `cap_mask` -/
  capMask : BitVec 32

/-- `struct mbb_group` -/
structure LinkGroup : Type where
  /-- `id` -/
  id : Int
  /-- `name` -/
  name : CStr
  /-- `users`, by their ids -/
  users : Option (Ledger Int ℕ)

/-- `struct mbb_consumer` -/
structure LinkConsumer : Type where
  /-- `id` -/
  id : Int
  /-- `name` -/
  name : CStr
  /-- `units` -/
  units : List ℕ

/-- `struct mbb_gateway` -/
structure LinkGateway : Type where
  /-- `id` -/
  id : Int
  /-- `name` -/
  name : CStr
  /-- `addr` -/
  addr : BitVec 32

/-- `dl_entries`: the object itself, its id, its name, and what there is `more`. -/
abbrev LinkObject.ofMembers {α : Type} (id : α → Int) (name : α → CStr) (setName : α → CStr → α)
    (more : List (DataLinkEntry α)) (hid : ∀ a newname, id (setName a newname) = id a)
    (hname : ∀ a newname, name (setName a newname) = newname)
    (hmore : ∀ entry ∈ more, ∀ p a newname, entry p (setName a newname) = entry p a) :
    LinkObject α where
  id := id
  name := name
  setName := setName
  dlEntries := dataLinkSelfEntry :: (fun _ a => .int (id a)) :: (fun _ a => .pstr (name a)) :: more
  entry_self := rfl
  entry_id := rfl
  entry_name := rfl
  name_setName := hname
  entry_setName := by
    intro n entry hn hentry p a newname
    match n, hentry with
    | 0, hentry =>
      obtain rfl := Option.some.inj hentry
      rfl
    | 1, hentry =>
      obtain rfl := Option.some.inj hentry
      exact congrArg LinkKey.int (hid a newname)
    | 2, _ => exact absurd rfl hn
    | n + 3, hentry => exact hmore entry (List.mem_of_getElem? hentry) p a newname

instance : LinkObject LinkUnit :=
  .ofMembers LinkUnit.id LinkUnit.name (fun unit newname => { unit with name := newname }) []
    (fun _ _ => rfl) (fun _ _ => rfl) (by simp)

instance : LinkObject LinkUser :=
  .ofMembers LinkUser.id LinkUser.name (fun user newname => { user with name := newname }) []
    (fun _ _ => rfl) (fun _ _ => rfl) (by simp)

instance : LinkObject LinkGroup :=
  .ofMembers LinkGroup.id LinkGroup.name (fun group newname => { group with name := newname }) []
    (fun _ _ => rfl) (fun _ _ => rfl) (by simp)

instance : LinkObject LinkConsumer :=
  .ofMembers LinkConsumer.id LinkConsumer.name (fun con newname => { con with name := newname }) []
    (fun _ _ => rfl) (fun _ _ => rfl) (by simp)

instance : LinkObject LinkGateway :=
  .ofMembers LinkGateway.id LinkGateway.name (fun gw newname => { gw with name := newname })
    [fun _ gw => .ipv4 gw.addr] (fun _ _ => rfl) (fun _ _ => rfl) (by simp)

/-- The objects, and the static variables of their files. -/
structure Links : Type where
  /-- units -/
  units : LinkRegistry LinkUnit
  /-- `ht_local`, by the ids of the units -/
  htLocal : Option (Ledger Int ℕ)
  /-- users -/
  users : LinkRegistry LinkUser
  /-- groups -/
  groups : LinkRegistry LinkGroup
  /-- consumers -/
  consumers : LinkRegistry LinkConsumer
  /-- gateways -/
  gateways : LinkRegistry LinkGateway

namespace Links

section

variable (hash : LinkKey → ℕ) (s : Links)

/-! ## Units (`mbbd/mbbunit.c`) and consumers (`mbbd/mbbconsumer.c`) -/

/-- `mbb_consumer_join` -/
def mbbConsumerJoin (con : ℕ) : Links := { s with consumers := s.consumers.join hash con }

/-- `mbb_consumer_detach` -/
def mbbConsumerDetach (con : ℕ) : Links := { s with consumers := s.consumers.detach hash con }

/-- `mbb_consumer_remove`; the consumer is freed. -/
def mbbConsumerRemove (con : ℕ) : Links := s.mbbConsumerDetach hash con

/-- `mbb_consumer_mod_name` -/
def mbbConsumerModName (con : ℕ) (newname : CStr) : Bool × Links :=
  let r := s.consumers.modName hash con newname
  (r.1, { s with consumers := r.2 })

/-- `mbb_consumer_del_unit` -/
def mbbConsumerDelUnit (con unit : ℕ) : Links :=
  let c := s.consumers.mem con
  { s with consumers := s.consumers.write con { c with units := c.units.erase unit } }

/-- `mbb_unit_local_add` -/
def mbbUnitLocalAdd (unit : ℕ) : Links :=
  let u := s.units.mem unit
  { s with
    htLocal := some ((s.htLocal.getD Ledger.empty).put u.id unit)
    units := s.units.write unit { u with isLocal := true } }

/-- `mbb_unit_local_del` -/
def mbbUnitLocalDel (unit : ℕ) : Links :=
  let u := s.units.mem unit
  match s.htLocal with
  | none => s
  | some ht =>
    { s with
      htLocal := some (ht.drop fun id => decide (id = u.id))
      units := s.units.write unit { u with isLocal := false } }

/-- `mbb_unit_join` -/
def mbbUnitJoin (unit : ℕ) : Links :=
  let s := { s with units := s.units.join hash unit }
  if (s.units.mem unit).isLocal then s.mbbUnitLocalAdd unit else s

/-- `mbb_unit_detach` -/
def mbbUnitDetach (unit : ℕ) : Links :=
  if s.units.dlink.isNone then s
  else
    let s := { s with units := s.units.detach hash unit }
    if (s.units.mem unit).isLocal then s.mbbUnitLocalDel unit else s

/-- `mbb_unit_remove` before the unit is detached -/
def unitLeave (unit : ℕ) : Links :=
  let u := s.units.mem unit
  match u.con with
  | none => s
  | some con =>
    let s := s.mbbConsumerDelUnit con unit
    { s with units := s.units.write unit { u with con := none } }

/-- `mbb_unit_remove`; the unit may be freed. -/
def mbbUnitRemove (unit : ℕ) : Links := (s.unitLeave unit).mbbUnitDetach hash unit

/-- `mbb_unit_mod_name` -/
def mbbUnitModName (unit : ℕ) (newname : CStr) : Bool × Links :=
  let r := s.units.modName hash unit newname
  (r.1, { s with units := r.2 })

/-! ## Groups (`mbbd/mbbgroup.c`) and users (`mbbd/mbbuser.c`) -/

/-- `mbb_group_join` -/
def mbbGroupJoin (group : ℕ) : Links := { s with groups := s.groups.join hash group }

/-- `mbb_group_detach` -/
def mbbGroupDetach (group : ℕ) : Links := { s with groups := s.groups.detach hash group }

/-- `mbb_group_remove`; the group is freed. -/
def mbbGroupRemove (group : ℕ) : Links := s.mbbGroupDetach hash group

/-- `mbb_group_mod_name` -/
def mbbGroupModName (group : ℕ) (newname : CStr) : Bool × Links :=
  let r := s.groups.modName hash group newname
  (r.1, { s with groups := r.2 })

/-- `mbb_group_get_by_id` -/
def mbbGroupGetById (id : Int) : Option ℕ := s.groups.getById hash id

/-- `mbb_group_del_user` -/
def mbbGroupDelUser (group user : ℕ) : Links :=
  let g := s.groups.mem group
  let u := s.users.mem user
  match g.users with
  | none => s
  | some ht =>
    if (ht.get? u.id).isSome then
      { s with
        groups := s.groups.write group
          { g with users := some (ht.drop fun id => decide (id = u.id)) }
        users := s.users.write user { u with capMask := u.capMask &&& ~~~capOf g.id.toNat } }
    else s

/-- `mbb_user_join` -/
def mbbUserJoin (user : ℕ) : Links := { s with users := s.users.join hash user }

/-- The loop of `mbb_user_detach` at a bit of the mask. -/
def userLeave (user : ℕ) (s : Links) (n : ℕ) : Links :=
  match s.mbbGroupGetById hash n with
  | none => s
  | some group => s.mbbGroupDelUser group user

/-- `mbb_user_detach` -/
def mbbUserDetach (user : ℕ) : Links :=
  if s.users.dlink.isNone then s
  else
    let s := (UserBase.maskGroups (s.users.mem user).capMask).foldl (userLeave hash user) s
    { s with users := s.users.detach hash user }

/-- `user->cap_mask = 0` -/
def clearMask (user : ℕ) : Links :=
  { s with users := s.users.write user { s.users.mem user with capMask := 0#32 } }

/-- `mbb_user_remove`; the user may be freed. -/
def mbbUserRemove (user : ℕ) : Links := (s.clearMask user).mbbUserDetach hash user

/-- `mbb_user_mod_name` -/
def mbbUserModName (user : ℕ) (newname : CStr) : Bool × Links :=
  let r := s.users.modName hash user newname
  (r.1, { s with users := r.2 })

/-! ## Gateways (`mbbd/mbbgateway.c`) -/

/-- `mbb_gateway_join` -/
def mbbGatewayJoin (gw : ℕ) : Links := { s with gateways := s.gateways.join hash gw }

/-- `mbb_gateway_detach` -/
def mbbGatewayDetach (gw : ℕ) : Links := { s with gateways := s.gateways.detach hash gw }

/-- `mbb_gateway_remove`; the gateway is freed. -/
def mbbGatewayRemove (gw : ℕ) : Links := s.mbbGatewayDetach hash gw

/-- `mbb_gateway_mod_name` -/
def mbbGatewayModName (gw : ℕ) (newname : CStr) : Bool × Links :=
  let r := s.gateways.modName hash gw newname
  (r.1, { s with gateways := r.2 })

/-- `mbb_gateway_get_by_addr` -/
def mbbGatewayGetByAddr (addr : BitVec 32) : Option ℕ := s.gateways.lookup hash 3 (.ipv4 addr)

end

end Links

/-! ## Runs

The acts that callers may do, in any order and on all five kinds. What a caller has to see to is in
`Allowed`: memory that is registered is not written over, and an object that joins brings an id, a
name and an address that are not there yet.
-/

/-- What is done to the objects of one kind. -/
inductive LinkAct (α : Type) : Type where
  /-- memory that is not registered gets other contents -/
  | put (p : ℕ) (a : α)
  /-- `mbb_unit_join` -/
  | join (p : ℕ)
  /-- `mbb_unit_detach` -/
  | detach (p : ℕ)
  /-- `mbb_unit_remove` -/
  | remove (p : ℕ)
  /-- `mbb_unit_mod_name` -/
  | modName (p : ℕ) (newname : CStr)

/-- The registered objects after an act; `mod_name` inserts its object, if it succeeds. -/
def LinkAct.roll {α : Type} (done : Bool) (roll : List ℕ) : LinkAct α → List ℕ
  | .put _ _ => roll
  | .join p => p :: roll
  | .detach p => roll.erase p
  | .remove p => roll.erase p
  | .modName p _ => if done then p :: roll.erase p else roll

/-- The id, the name and the address of an object that joins are not there. -/
def LinkAct.Allowed {α : Type} [LinkObject α] (hash : LinkKey → ℕ) (r : LinkRegistry α)
    (roll : List ℕ) : LinkAct α → Prop
  | .put p _ => p ∉ roll
  | .join p => ∀ n, n ≠ 0 → r.Absent hash p n
  | .detach _ => True
  | .remove _ => True
  -- an object that is not registered joins, with the new name
  | .modName p _ => p ∈ roll ∨ ∀ n, n ≠ 0 → n ≠ 2 → r.Absent hash p n

/-- An act, as far as `dlink` is concerned. -/
def LinkRegistry.act {α : Type} [LinkObject α] (hash : LinkKey → ℕ) (r : LinkRegistry α) :
    LinkAct α → Bool × LinkRegistry α
  | .put p a => (true, r.write p a)
  | .join p => (true, r.join hash p)
  | .detach p => (true, r.detach hash p)
  | .remove p => (true, r.detach hash p)
  | .modName p newname => r.modName hash p newname

/-- **One act.** What may be done to the objects of one kind keeps their tables. -/
theorem LinkRegistry.Sound.act {α : Type} [LinkObject α] {hash : LinkKey → ℕ}
    {r : LinkRegistry α} {roll : List ℕ} (h : r.Sound hash roll) {a : LinkAct α}
    (ha : a.Allowed hash r roll) :
    (r.act hash a).2.Sound hash (a.roll (r.act hash a).1 roll) := by
  cases a with
  | put p a => exact h.write ha a
  | join p => exact h.join_absent ha
  | detach p => exact h.detach p
  | remove p => exact h.detach p
  | modName p newname => exact h.modName ha newname

/-- What is done to the objects. -/
inductive LinksAct : Type where
  /-- `mbbd/mbbunit.c` -/
  | unit (a : LinkAct LinkUnit)
  /-- `mbbd/mbbuser.c` -/
  | user (a : LinkAct LinkUser)
  /-- `mbbd/mbbgroup.c` -/
  | group (a : LinkAct LinkGroup)
  /-- `mbbd/mbbconsumer.c` -/
  | consumer (a : LinkAct LinkConsumer)
  /-- `mbbd/mbbgateway.c` -/
  | gateway (a : LinkAct LinkGateway)

/-- The registered objects: those that have joined, and have not left since. -/
structure Rolls : Type where
  /-- units -/
  units : List ℕ
  /-- users -/
  users : List ℕ
  /-- groups -/
  groups : List ℕ
  /-- consumers -/
  consumers : List ℕ
  /-- gateways -/
  gateways : List ℕ

namespace Links

section

variable (hash : LinkKey → ℕ) (s : Links)

/-- One act, and what it returns. -/
def exec : LinksAct → Bool × Links
  | .unit (.put p a) => (true, { s with units := s.units.write p a })
  | .unit (.join p) => (true, s.mbbUnitJoin hash p)
  | .unit (.detach p) => (true, s.mbbUnitDetach hash p)
  | .unit (.remove p) => (true, s.mbbUnitRemove hash p)
  | .unit (.modName p newname) => s.mbbUnitModName hash p newname
  | .user (.put p a) => (true, { s with users := s.users.write p a })
  | .user (.join p) => (true, s.mbbUserJoin hash p)
  | .user (.detach p) => (true, s.mbbUserDetach hash p)
  | .user (.remove p) => (true, s.mbbUserRemove hash p)
  | .user (.modName p newname) => s.mbbUserModName hash p newname
  | .group (.put p a) => (true, { s with groups := s.groups.write p a })
  | .group (.join p) => (true, s.mbbGroupJoin hash p)
  | .group (.detach p) => (true, s.mbbGroupDetach hash p)
  | .group (.remove p) => (true, s.mbbGroupRemove hash p)
  | .group (.modName p newname) => s.mbbGroupModName hash p newname
  | .consumer (.put p a) => (true, { s with consumers := s.consumers.write p a })
  | .consumer (.join p) => (true, s.mbbConsumerJoin hash p)
  | .consumer (.detach p) => (true, s.mbbConsumerDetach hash p)
  | .consumer (.remove p) => (true, s.mbbConsumerRemove hash p)
  | .consumer (.modName p newname) => s.mbbConsumerModName hash p newname
  | .gateway (.put p a) => (true, { s with gateways := s.gateways.write p a })
  | .gateway (.join p) => (true, s.mbbGatewayJoin hash p)
  | .gateway (.detach p) => (true, s.mbbGatewayDetach hash p)
  | .gateway (.remove p) => (true, s.mbbGatewayRemove hash p)
  | .gateway (.modName p newname) => s.mbbGatewayModName hash p newname

end

end Links

/-- The registered objects after an act. -/
def LinksAct.rolls (done : Bool) (r : Rolls) : LinksAct → Rolls
  | .unit a => { r with units := a.roll done r.units }
  | .user a => { r with users := a.roll done r.users }
  | .group a => { r with groups := a.roll done r.groups }
  | .consumer a => { r with consumers := a.roll done r.consumers }
  | .gateway a => { r with gateways := a.roll done r.gateways }

/-- The act is one that may be done. -/
def LinksAct.Allowed (hash : LinkKey → ℕ) (s : Links) (r : Rolls) : LinksAct → Prop
  | .unit a => a.Allowed hash s.units r.units
  | .user a => a.Allowed hash s.users r.users
  | .group a => a.Allowed hash s.groups r.groups
  | .consumer a => a.Allowed hash s.consumers r.consumers
  | .gateway a => a.Allowed hash s.gateways r.gateways

/-- One act, with the registered objects kept beside. -/
def stepLinks (hash : LinkKey → ℕ) (r : Links × Rolls) (a : LinksAct) : Links × Rolls :=
  let x := r.1.exec hash a
  (x.2, a.rolls x.1 r.2)

/-- A run: the objects, and those that are registered. -/
def runLinks (hash : LinkKey → ℕ) : List LinksAct → Links × Rolls → Links × Rolls
  | [], r => r
  | a :: acts, r => runLinks hash acts (stepLinks hash r a)

/-- All acts of a run may be done when they are done. -/
def AllowedRun (hash : LinkKey → ℕ) : List LinksAct → Links × Rolls → Prop
  | [], _ => True
  | a :: acts, r => a.Allowed hash r.1 r.2 ∧ AllowedRun hash acts (stepLinks hash r a)

/-! ## Writes that keep the keys

Most of what the functions do besides their tables is writing to objects that are registered: lists
of units, masks, users of groups. None of these members is a key.
-/

namespace Links

open LinkRegistry (Keeps)

/-- No key of a registered object is written to. -/
structure SameKeys (s s' : Links) : Prop where
  units : s.units.Keeps s'.units
  users : s.users.Keeps s'.users
  groups : s.groups.Keeps s'.groups
  consumers : s.consumers.Keeps s'.consumers
  gateways : s.gateways.Keeps s'.gateways

namespace SameKeys

/-- Nothing is written to. -/
theorem refl (s : Links) : s.SameKeys s :=
  ⟨Keeps.refl _, Keeps.refl _, Keeps.refl _, Keeps.refl _, Keeps.refl _⟩

/-- Writes that keep the keys, one after the other. -/
theorem trans {s₁ s₂ s₃ : Links} (h : s₁.SameKeys s₂) (h' : s₂.SameKeys s₃) : s₁.SameKeys s₃ where
  units := h.units.trans h'.units
  users := h.users.trans h'.users
  groups := h.groups.trans h'.groups
  consumers := h.consumers.trans h'.consumers
  gateways := h.gateways.trans h'.gateways

end SameKeys

variable {s : Links} {hash : LinkKey → ℕ}

/-- The list of units is no key of a consumer. -/
theorem sameKeys_consumerDelUnit (s : Links) (con unit : ℕ) :
    s.SameKeys (s.mbbConsumerDelUnit con unit) :=
  { SameKeys.refl s with
    consumers := Keeps.write (by simp [LinkObject.dlEntries, dataLinkSelfEntry]) }

/-- `ht_local` and the member `local` are beside the tables. -/
theorem sameKeys_unitLocalAdd (s : Links) (unit : ℕ) : s.SameKeys (s.mbbUnitLocalAdd unit) :=
  { SameKeys.refl s with units := Keeps.write (by simp [LinkObject.dlEntries, dataLinkSelfEntry]) }

/-- The same with a unit that is local no more. -/
theorem sameKeys_unitLocalDel (s : Links) (unit : ℕ) : s.SameKeys (s.mbbUnitLocalDel unit) := by
  rw [mbbUnitLocalDel]
  cases s.htLocal with
  | none => exact SameKeys.refl s
  | some ht =>
    exact { SameKeys.refl s with
      units := Keeps.write (by simp [LinkObject.dlEntries, dataLinkSelfEntry]) }

/-- A unit and its consumer forget each other; neither loses a key. -/
theorem sameKeys_unitLeave (s : Links) (unit : ℕ) : s.SameKeys (s.unitLeave unit) := by
  rw [unitLeave]
  cases (s.units.mem unit).con with
  | none => exact SameKeys.refl s
  | some con =>
    exact { sameKeys_consumerDelUnit s con unit with
      units := Keeps.write (by simp [LinkObject.dlEntries, dataLinkSelfEntry]) }

/-- The mask is no key of a user. -/
theorem sameKeys_clearMask (s : Links) (user : ℕ) : s.SameKeys (s.clearMask user) :=
  { SameKeys.refl s with users := Keeps.write (by simp [LinkObject.dlEntries, dataLinkSelfEntry]) }

/-- The users of a group and the mask of a user are no keys of them. -/
theorem sameKeys_groupDelUser (s : Links) (group user : ℕ) :
    s.SameKeys (s.mbbGroupDelUser group user) := by
  rw [mbbGroupDelUser]
  cases (s.groups.mem group).users with
  | none => exact SameKeys.refl s
  | some ht =>
    simp only
    split
    · exact { SameKeys.refl s with
        groups := Keeps.write (by simp [LinkObject.dlEntries, dataLinkSelfEntry])
        users := Keeps.write (by simp [LinkObject.dlEntries, dataLinkSelfEntry]) }
    · exact SameKeys.refl s

/-- A user leaves the groups of its mask one by one, and no key is written to on the way. -/
theorem sameKeys_userLeave (user : ℕ) : ∀ (ns : List ℕ) (s : Links),
    s.SameKeys (ns.foldl (userLeave hash user) s)
  | [], s => SameKeys.refl s
  | n :: ns, s => by
    have hleave : s.SameKeys (userLeave hash user s n) := by
      rw [userLeave]
      cases s.mbbGroupGetById hash n with
      | none => exact SameKeys.refl s
      | some group => exact sameKeys_groupDelUser s group user
    exact hleave.trans (sameKeys_userLeave user ns _)

section Kinds

variable (hash) (s : Links)

/-- Acts on groups touch the registry of the groups alone. -/
theorem exec_group (a : LinkAct LinkGroup) : s.exec hash (.group a) =
    ((s.groups.act hash a).1, { s with groups := (s.groups.act hash a).2 }) := by
  cases a <;> rfl

/-- Acts on consumers touch the registry of the consumers alone. -/
theorem exec_consumer (a : LinkAct LinkConsumer) : s.exec hash (.consumer a) =
    ((s.consumers.act hash a).1, { s with consumers := (s.consumers.act hash a).2 }) := by
  cases a <;> rfl

/-- Acts on gateways touch the registry of the gateways alone. -/
theorem exec_gateway (a : LinkAct LinkGateway) : s.exec hash (.gateway a) =
    ((s.gateways.act hash a).1, { s with gateways := (s.gateways.act hash a).2 }) := by
  cases a <;> rfl

end Kinds

/-! ## Every act keeps the tables

The invariant is the soundness of each registry with its roll; one lemma for each kind whose acts do
more than the registry does, and the run lemma.
-/

/-- The tables of all kinds have the registered objects. -/
structure Sound (hash : LinkKey → ℕ) (s : Links) (r : Rolls) : Prop where
  units : s.units.Sound hash r.units
  users : s.users.Sound hash r.users
  groups : s.groups.Sound hash r.groups
  consumers : s.consumers.Sound hash r.consumers
  gateways : s.gateways.Sound hash r.gateways

namespace Sound

variable {r : Rolls}

/-- Writes that keep the keys keep the tables of all kinds. -/
theorem sameKeys {s' : Links} (h : s.Sound hash r) (hkeys : s.SameKeys s') : s'.Sound hash r where
  units := h.units.keeps hkeys.units
  users := h.users.keeps hkeys.users
  groups := h.groups.keeps hkeys.groups
  consumers := h.consumers.keeps hkeys.consumers
  gateways := h.gateways.keeps hkeys.gateways

/-- A unit is detached, and taken from `ht_local` if it is local. -/
theorem unitDetach (h : s.Sound hash r) (unit : ℕ) :
    (s.mbbUnitDetach hash unit).Sound hash { r with units := r.units.erase unit } := by
  have hdetach := h.units.detach unit
  rw [mbbUnitDetach]
  cases hnull : s.units.dlink with
  | none =>
    rw [LinkRegistry.detach_null hnull] at hdetach
    exact { h with units := hdetach }
  | some dlink =>
    have h' : Sound hash { s with units := s.units.detach hash unit }
      { r with units := r.units.erase unit } := { h with units := hdetach }
    simp only [Option.isNone_some, Bool.false_eq_true, if_false]
    split
    · exact h'.sameKeys (sameKeys_unitLocalDel _ unit)
    · exact h'

/-- A user is detached, after it has left its groups. -/
theorem userDetach (h : s.Sound hash r) (user : ℕ) :
    (s.mbbUserDetach hash user).Sound hash { r with users := r.users.erase user } := by
  rw [mbbUserDetach]
  cases hnull : s.users.dlink with
  | none =>
    have hdetach := h.users.detach user
    rw [LinkRegistry.detach_null hnull] at hdetach
    exact { h with users := hdetach }
  | some dlink =>
    have hkeys : s.SameKeys ((UserBase.maskGroups (s.users.mem user).capMask).foldl
      (userLeave hash user) s) := sameKeys_userLeave user _ s
    have h' := h.sameKeys hkeys
    exact { h' with users := h'.users.detach user }

/-- **Acts on units.** What is done besides the tables writes to no key. -/
theorem unitAct (h : s.Sound hash r) {a : LinkAct LinkUnit}
    (ha : a.Allowed hash s.units r.units) :
    (s.exec hash (.unit a)).2.Sound hash
      { r with units := a.roll (s.exec hash (.unit a)).1 r.units } := by
  have hact := h.units.act ha
  cases a with
  | put p a => exact { h with units := hact }
  | join p =>
    have h' : Sound hash { s with units := s.units.join hash p }
      { r with units := p :: r.units } := { h with units := hact }
    simp only [Links.exec, mbbUnitJoin, LinkAct.roll]
    split
    · exact h'.sameKeys (sameKeys_unitLocalAdd _ p)
    · exact h'
  | detach p => exact h.unitDetach p
  | remove p => exact (h.sameKeys (sameKeys_unitLeave s p)).unitDetach p
  | modName p newname => exact { h with units := hact }

/-- **Acts on users.** The groups of a user are written to before it leaves, but not to their keys.
-/
theorem userAct (h : s.Sound hash r) {a : LinkAct LinkUser}
    (ha : a.Allowed hash s.users r.users) :
    (s.exec hash (.user a)).2.Sound hash
      { r with users := a.roll (s.exec hash (.user a)).1 r.users } := by
  have hact := h.users.act ha
  cases a with
  | put p a => exact { h with users := hact }
  | join p => exact { h with users := hact }
  | detach p => exact h.userDetach p
  | remove p => exact (h.sameKeys (sameKeys_clearMask s p)).userDetach p
  | modName p newname => exact { h with users := hact }

/-- One act keeps the tables. -/
theorem exec (h : s.Sound hash r) {a : LinksAct} (ha : a.Allowed hash s r) :
    (s.exec hash a).2.Sound hash (a.rolls (s.exec hash a).1 r) := by
  cases a with
  | unit a => exact h.unitAct ha
  | user a => exact h.userAct ha
  | group a =>
    rw [exec_group]
    exact { h with groups := h.groups.act ha }
  | consumer a =>
    rw [exec_consumer]
    exact { h with consumers := h.consumers.act ha }
  | gateway a =>
    rw [exec_gateway]
    exact { h with gateways := h.gateways.act ha }

/-- A run keeps the tables. -/
theorem run : ∀ (acts : List LinksAct) (x : Links × Rolls), x.1.Sound hash x.2 →
    AllowedRun hash acts x → (runLinks hash acts x).1.Sound hash (runLinks hash acts x).2
  | [], _, h, _ => h
  | a :: acts, x, h, hacts => run acts (stepLinks hash x a) (h.exec hacts.1) hacts.2

end Sound

/-- No `dlink` yet. -/
structure Initial (s : Links) : Prop where
  units : s.units.dlink = none
  users : s.users.dlink = none
  groups : s.groups.dlink = none
  consumers : s.consumers.dlink = none
  gateways : s.gateways.dlink = none

end Links

/-- Nothing is registered. -/
def Rolls.empty : Rolls := ⟨[], [], [], [], []⟩

/-- Without a `dlink` nothing is registered. -/
theorem LinkRegistry.sound_null {α : Type} [LinkObject α] {hash : LinkKey → ℕ} {r : LinkRegistry α}
    (h : r.dlink = none) : r.Sound hash [] := by
  rw [Sound, tables, h]
  exact DataLinkHolds.new hash r.mem LinkObject.dlEntries

/-- **In every run the tables of each kind have the registered objects, each found by itself, by its
id and by the name that it has now, and nothing else is found.** -/
theorem links_consistent {hash : LinkKey → ℕ} {s : Links} (hs : s.Initial) {acts : List LinksAct}
    (hacts : AllowedRun hash acts (s, Rolls.empty)) :
    let x := runLinks hash acts (s, Rolls.empty)
    x.1.units.Consistent hash x.2.units ∧ x.1.users.Consistent hash x.2.users ∧
      x.1.groups.Consistent hash x.2.groups ∧ x.1.consumers.Consistent hash x.2.consumers ∧
      x.1.gateways.Consistent hash x.2.gateways ∧
      ∀ p addr, x.1.mbbGatewayGetByAddr hash addr = some p ↔
        p ∈ x.2.gateways ∧ (x.1.gateways.mem p).addr = addr := by
  intro x
  have hinitial : s.Sound hash Rolls.empty :=
    ⟨LinkRegistry.sound_null hs.units, LinkRegistry.sound_null hs.users,
      LinkRegistry.sound_null hs.groups, LinkRegistry.sound_null hs.consumers,
      LinkRegistry.sound_null hs.gateways⟩
  have h : x.1.Sound hash x.2 := Links.Sound.run acts (s, Rolls.empty) hinitial hacts
  refine ⟨h.units.consistent, h.users.consistent, h.groups.consistent, h.consumers.consistent,
    h.gateways.consistent, fun p addr => ?_⟩
  have hentry : (LinkObject.dlEntries (α := LinkGateway))[3]? =
    some fun _ gw => .ipv4 gw.addr := rfl
  refine (h.gateways.lookup_eq_some hentry).trans (and_congr_right' ?_)
  exact (LinkKey.ipv4.injEq _ _).to_iff

/-- A unit is absent, if no unit has its id or its name. -/
theorem absent_unit {hash : LinkKey → ℕ} {r : LinkRegistry LinkUnit} {p : ℕ}
    (hid : r.getById hash (r.mem p).id = none) (hname : r.getByName hash (r.mem p).name = none)
    (n : ℕ) (hn : n ≠ 0) : r.Absent hash p n := by
  intro entry hentry
  match n, hentry with
  | 0, _ => exact absurd rfl hn
  | 1, hentry =>
    obtain rfl := Option.some.inj hentry
    exact hid
  | 2, hentry =>
    obtain rfl := Option.some.inj hentry
    exact hname

/-- A hash of keys. -/
def linkHash : LinkKey → ℕ
  | .direct p => p
  | .int n => n.toNat
  | .pstr s => s.chars.length
  | .ipv4 addr => addr.toNat

/-- Nothing has been done. -/
def noLinks : Links :=
  ⟨⟨fun _ => ⟨0, literal "", none, false⟩, none⟩, none, ⟨fun _ => ⟨0, literal "", 0#32⟩, none⟩,
    ⟨fun _ => ⟨0, literal "", none⟩, none⟩, ⟨fun _ => ⟨0, literal "", []⟩, none⟩,
    ⟨fun _ => ⟨0, literal "", 0#32⟩, none⟩⟩

/-- Two units; one gets another name, the other one is removed, and a third one gets the name that
the first one had, in the memory of the second one. -/
def renamedUnits : List LinksAct :=
  [.unit (.put 1 ⟨7, literal "a", none, false⟩), .unit (.join 1),
   .unit (.put 2 ⟨8, literal "b", none, true⟩), .unit (.join 2),
   .unit (.modName 1 (literal "c")), .unit (.remove 2),
   .unit (.put 2 ⟨9, literal "a", none, false⟩), .unit (.join 2)]

theorem links_consistent_renamed :
    let x := runLinks linkHash renamedUnits (noLinks, Rolls.empty)
    x.2.units = [2, 1] ∧ x.1.units.getByName linkHash (literal "a") = some 2 ∧
      x.1.units.getByName linkHash (literal "b") = none := by
  have hacts : AllowedRun linkHash renamedUnits (noLinks, Rolls.empty) := by
    have hnew : 2 ∉ [1] := by decide
    exact ⟨List.not_mem_nil, absent_unit rfl rfl, hnew, absent_unit rfl rfl,
      Or.inl (List.mem_cons_of_mem 2 List.mem_cons_self), trivial, hnew, absent_unit rfl rfl,
      trivial⟩
  have h := links_consistent ⟨rfl, rfl, rfl, rfl, rfl⟩ hacts
  refine ⟨rfl, (h.1.name 2 (literal "a")).mpr ⟨by decide, rfl⟩, ?_⟩
  rfl

end Mbb
