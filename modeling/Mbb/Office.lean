import Mbb.GatewayRun
import Mbb.User

/-!
# Consumers, units, inet entries and gateway links

The records that `mbbd/mbbconsumer.c`, `mbbd/mbbunit.c`, `mbbd/mbbinetpool.c` and
`mbbd/mbbgwlink.c` keep in memory, the rows of the database they come from, and what the
calls of `mbbd/mbbdbconsumer.c`, `mbbd/mbbdbunit.c`, `mbbd/mbbdbinetpool.c` and
`mbbd/mbbdbgwlink.c` change in the rows. A pointer to a record is its id. The order of a
separator and the maps of addresses are in other modules; nothing here depends on them.
-/

namespace Mbb

/-! ## Records -/

/-- `struct mbb_consumer` -/
structure ConsumerRec : Type where
  /-- name -/
  name : String
  /-- start -/
  start : Int
  /-- end -/
  stop : Int
  /-- user -/
  user : Option Int
  /-- units -/
  units : List Int

/-- `struct mbb_unit` -/
structure UnitRec : Type where
  /-- name -/
  name : String
  /-- consumer -/
  con : Option Int
  /-- start; negative is that of the consumer -/
  start : Int
  /-- end; negative is that of the consumer -/
  stop : Int
  /-- local -/
  isLocal : Bool
  /-- entries of the separator -/
  sep : List Int

/-- `struct mbb_inet_pool_entry` -/
structure EntryRec : Type where
  /-- the block -/
  inet : Inet
  /-- inclusive -/
  flag : Bool
  /-- start; negative is that of the owner -/
  start : Int
  /-- end; negative is that of the owner -/
  stop : Int
  /-- priority -/
  nice : ℕ
  /-- the unit -/
  owner : Int

/-- `struct mbb_gwlink`: operator and gateway. Interface and times are those of the link
with this id at the gateway. -/
structure GwLinkRec : Type where
  /-- operator -/
  op : Int
  /-- gateway -/
  gw : Int

/-- `struct mbb_operator` -/
structure OperatorRec : Type where
  /-- name -/
  name : String
  /-- links -/
  links : List Int

/-- A gateway with its name and its links. -/
structure GatewayRec : Type where
  /-- name -/
  name : String
  /-- the gateway and its links -/
  st : GwState

/-- The records in memory, by id. -/
structure Records : Type where
  /-- consumers -/
  consumers : Ledger Int ConsumerRec
  /-- units -/
  units : Ledger Int UnitRec
  /-- inet entries -/
  inets : Ledger Int EntryRec
  /-- users -/
  users : Ledger Int MbbUser
  /-- operators -/
  operators : Ledger Int OperatorRec
  /-- gateways -/
  gateways : Ledger Int GatewayRec
  /-- gateway links -/
  gwlinks : Ledger Int GwLinkRec

/-- The rows in the database. -/
structure Rows : Type where
  /-- `consumers` -/
  consumers : Ledger Int ConsumerRow
  /-- `units` -/
  units : Ledger Int UnitRow
  /-- `unit_ip_pool` -/
  unitIpPool : Ledger Int InetRow
  /-- `gwlinks` -/
  gwlinks : Ledger Int GwlinkRow

/-- Memory and database. -/
structure Office : Type where
  /-- memory -/
  mem : Records
  /-- database -/
  db : Rows

namespace Records

variable (mem : Records)

/-! ## Lookup -/

/-- `mbb_consumer_get_by_name` -/
def consumerByName (name : String) : Option (Int × ConsumerRec) :=
  mem.consumers.find? fun r => decide (r.name = name)

/-- `mbb_unit_get_by_name` -/
def unitByName (name : String) : Option (Int × UnitRec) :=
  mem.units.find? fun r => decide (r.name = name)

/-- `mbb_user_get_by_name` -/
def userByName (name : String) : Option (Int × MbbUser) :=
  mem.users.find? fun r => decide (r.name = name)

/-- `mbb_operator_get_by_name` -/
def operatorByName (name : String) : Option (Int × OperatorRec) :=
  mem.operators.find? fun r => decide (r.name = name)

/-- `mbb_gateway_get_by_ename`: by address if the text is one, else by name. -/
def gatewayByEname (addr : Option ℕ) (ename : String) : Option (Int × GatewayRec) :=
  match addr.bind fun a => mem.gateways.find? fun r => decide (r.st.gw.addr = a) with
  | some r => some r
  | none => mem.gateways.find? fun r => decide (r.name = ename)

/-- `mbb_gwlink_get_by_id`: the record, its gateway and the link there. -/
def gwlinkById (id : Int) : Option (GwLinkRec × GatewayRec × MbbGwLink) :=
  (mem.gwlinks.get? id).bind fun r =>
    (mem.gateways.get? r.gw).bind fun g => (g.st.linkById id).map fun gl => (r, g, gl)

/-! ## Times -/

/-- `mbb_unit_get_start` -/
def unitGetStart (u : UnitRec) : Int :=
  match u.con.bind mem.consumers.get? with
  | none => u.start
  | some con => timeOr u.start con.start

/-- `mbb_unit_get_end` -/
def unitGetEnd (u : UnitRec) : Int :=
  match u.con.bind mem.consumers.get? with
  | none => u.stop
  | some con => timeOr u.stop con.stop

/-- `mbb_inet_pool_entry_get_start` -/
def entryGetStart (e : EntryRec) : Int :=
  match mem.units.get? e.owner with
  | none => e.start
  | some u => timeOr e.start (mem.unitGetStart u)

/-- `mbb_inet_pool_entry_get_end` -/
def entryGetEnd (e : EntryRec) : Int :=
  match mem.units.get? e.owner with
  | none => e.stop
  | some u => timeOr e.stop (mem.unitGetEnd u)

/-- `mbb_inet_pool_entry_test_time` -/
def entryTestTime (start stop : Int) (e : EntryRec) : Bool :=
  decide (mbbTimePbecmp e.start e.stop start stop ≤ 0)

/-- `unit_test_inet_time` -/
def unitTestInetTime (childs : List Int) (start stop : Int) : Bool :=
  childs.all fun id => (mem.inets.get? id).all (entryTestTime start stop)

/-- `mbb_unit_test_time` -/
def unitTestTime (start stop : Int) (u : UnitRec) : Bool :=
  -- the times of the unit, with those that the consumer is to get
  if mbbTimeBecmp (timeOr u.start start) (timeOr u.stop stop) > 0 then false
  else mem.unitTestInetTime u.sep (timeOr u.start start) (timeOr u.stop stop)

/-- `con->start = start; con->end = end` -/
def setConsumerTime (id start stop : Int) : Records :=
  { mem with consumers := mem.consumers.modify id fun con =>
    { con with start := start, stop := stop } }

/-- `mbb_consumer_mod_time` -/
def consumerModTime (id : Int) (con : ConsumerRec) (start stop : Int) : Bool × Records :=
  if mbbTimeBecmp start stop > 0 then (false, mem)
  else if con.units.all fun u => (mem.units.get? u).all (mem.unitTestTime start stop) then
    (true, mem.setConsumerTime id start stop)
  else (false, mem)

/-- `unit->start = start; unit->end = end` -/
def setUnitTime (id start stop : Int) : Records :=
  { mem with units := mem.units.modify id fun u => { u with start := start, stop := stop } }

/-- `mbb_unit_mod_time`; `none` when the times of a missing consumer are read. -/
def unitModTime (id : Int) (u : UnitRec) (start stop : Int) : Option (Bool × Records) :=
  match u.con.bind mem.consumers.get? with
  | none =>
    -- `mbb_unit_mod_time` reads `unit->con->start` for a time that is inherited
    if start < 0 ∨ stop < 0 then none
    else if mem.unitTestInetTime u.sep start stop then
      some (true, mem.setUnitTime id start stop)
    else some (false, mem)
  | some con =>
    if mem.unitTestInetTime u.sep (timeOr start con.start) (timeOr stop con.stop) then
      some (true, mem.setUnitTime id start stop)
    else some (false, mem)

/-- `entry->start = start; entry->end = end` -/
def setEntryTime (id start stop : Int) : Records :=
  { mem with inets := mem.inets.modify id fun e => { e with start := start, stop := stop } }

/-! ## Consumers and users -/

/-- `mbb_consumer_new` and `mbb_consumer_join` -/
def consumerJoin (id : Int) (name : String) (start stop : Int) : Records :=
  { mem with consumers := mem.consumers.put id ⟨name, start, stop, none, []⟩ }

/-- `mbb_consumer_remove` -/
def consumerRemove (id : Int) : Records :=
  { mem with consumers := mem.consumers.drop fun k => decide (k = id) }

/-- `mbb_consumer_mod_name` -/
def consumerModName (id : Int) (newname : String) : Bool × Records :=
  match mem.consumerByName newname with
  | some _ => (false, mem)
  | none => (true, { mem with consumers := mem.consumers.modify id fun con =>
      { con with name := newname } })

/-- `mbb_user_add_consumer` -/
def userAddConsumer (user id : Int) : Records :=
  { mem with users := mem.users.modify user fun u =>
    { u with childs := if id ∈ u.childs then u.childs else id :: u.childs } }

/-- `mbb_user_del_consumer` -/
def userDelConsumer (user id : Int) : Records :=
  { mem with users := mem.users.modify user fun u =>
    { u with childs := u.childs.filter fun c => decide (c ≠ id) } }

/-- The part of `drop_consumer` that is about its user. -/
def leaveUser (id : Int) (con : ConsumerRec) : Records :=
  match con.user with
  | none => mem
  | some user => mem.userDelConsumer user id

/-- `con->user = user` -/
def setConsumerUser (id : Int) (user : Option Int) : Records :=
  { mem with consumers := mem.consumers.modify id fun con => { con with user } }

/-- `mbb_consumer_add_unit` -/
def consumerAddUnit (con id : Int) : Records :=
  { mem with consumers := mem.consumers.modify con fun r =>
    { r with units := if id ∈ r.units then r.units else id :: r.units } }

/-- `mbb_consumer_del_unit` -/
def consumerDelUnit (con id : Int) : Records :=
  { mem with consumers := mem.consumers.modify con fun r =>
    { r with units := r.units.filter fun u => decide (u ≠ id) } }

/-! ## Units -/

/-- The part of `unit_create` that is about the consumer. -/
def joinConsumer (id : Int) (con : Option Int) : Records :=
  match con with
  | none => mem
  | some con => mem.consumerAddUnit con id

/-- The part of `mbb_unit_remove` that is about the consumer. -/
def leaveConsumer (id : Int) (u : UnitRec) : Records :=
  match u.con with
  | none => mem
  | some con => mem.consumerDelUnit con id

/-- `mbb_unit_new` and `mbb_unit_join` -/
def unitJoin (id : Int) (name : String) (con : Option Int) (start stop : Int) : Records :=
  { mem with units := mem.units.put id ⟨name, con, start, stop, false, []⟩ }

/-- `mbb_unit_remove` -/
def unitRemove (id : Int) (u : UnitRec) : Records :=
  let mem := mem.leaveConsumer id u
  { mem with units := mem.units.drop fun k => decide (k = id) }

/-- `mbb_unit_mod_name` -/
def unitModName (id : Int) (newname : String) : Bool × Records :=
  match mem.unitByName newname with
  | some _ => (false, mem)
  | none => (true, { mem with units := mem.units.modify id fun u => { u with name := newname } })

/-- `unit->con = con` -/
def setUnitConsumer (id : Int) (con : Option Int) : Records :=
  { mem with units := mem.units.modify id fun u => { u with con } }

/-- `mbb_unit_local_add` and `mbb_unit_local_del` -/
def setUnitLocal (id : Int) (isLocal : Bool) : Records :=
  { mem with units := mem.units.modify id fun u => { u with isLocal } }

/-! ## Inet entries -/

/-- `mbb_unit_add_inet` of a new entry -/
def unitAddInet (id : Int) (e : EntryRec) : Records :=
  { mem with
    units := mem.units.modify e.owner fun u => { u with sep := id :: u.sep }
    inets := mem.inets.put id e }

/-- `mbb_unit_del_inet` -/
def unitDelInet (id : Int) (e : EntryRec) : Records :=
  -- an entry that its unit does not list is not freed
  if (mem.units.get? e.owner).any fun u => decide (id ∈ u.sep) then
    { mem with
      units := mem.units.modify e.owner fun u =>
        { u with sep := u.sep.filter fun k => decide (k ≠ id) }
      inets := mem.inets.drop fun k => decide (k = id) }
  else mem

/-- `mbb_unit_clear_inet` -/
def unitClearInet (id : Int) (u : UnitRec) : Records :=
  { mem with
    units := mem.units.modify id fun u => { u with sep := [] }
    inets := mem.inets.drop fun k => decide (k ∈ u.sep) }

/-- `entry->nice = nice` and `mbb_unit_sep_reorder` -/
def setEntryNice (id : Int) (nice : ℕ) : Records :=
  { mem with inets := mem.inets.modify id fun e => { e with nice } }

/-! ## Gateway links -/

/-- The state of a gateway after a change to its links. -/
def setGateway (gw : Int) (st : GwState) : Records :=
  { mem with gateways := mem.gateways.modify gw fun g => { g with st } }

/-- `mbb_gwlink_join` and `mbb_operator_add_link` -/
def gwlinkJoin (id : Int) (r : GwLinkRec) : Records :=
  { mem with
    gwlinks := mem.gwlinks.put id r
    operators := mem.operators.modify r.op fun op => { op with links := id :: op.links } }

/-- `mbb_gwlink_detach` and `mbb_operator_del_link` -/
def gwlinkDetach (id : Int) (r : GwLinkRec) : Records :=
  { mem with
    gwlinks := mem.gwlinks.drop fun k => decide (k = id)
    operators := mem.operators.modify r.op fun op =>
      { op with links := op.links.filter fun k => decide (k ≠ id) } }

end Records

/-! ## The database -/

/-- `mbb_db_insert_ret`: it fails, or makes a row under a new id and returns the id. -/
def dbInsertRet {R : Type} (table : Ledger Int R) (ok : Bool) (id : Int) (row : R) :
    Option (Ledger Int R) :=
  if h : ok = true ∧ 0 ≤ id ∧ table.get? id = none then some (table.insert id row h.2.2) else none

/-- What `mbb_db_insert_ret` needs to make the row. -/
def Inserts {R : Type} (table : Ledger Int R) (ok : Bool) (id : Int) : Prop :=
  ok = true ∧ 0 ≤ id ∧ table.get? id = none

theorem inserts_of_eq_some {R : Type} {table rows : Ledger Int R} {ok : Bool} {id : Int} {row : R}
    (h : dbInsertRet table ok id row = some rows) : Inserts table ok id := by
  rw [dbInsertRet] at h
  split at h
  · rename_i hins
    exact hins
  · cases h

theorem Inserts.eq_some {R : Type} {table : Ledger Int R} {ok : Bool} {id : Int}
    (h : Inserts table ok id) (row : R) :
    ∃ rows, dbInsertRet table ok id row = some rows ∧ rows.get? id = some row := by
  refine ⟨_, dif_pos h, ?_⟩
  rw [Ledger.get?_insert, if_pos rfl]

namespace Rows

variable (db : Rows)

/-- `mbb_db_consumer_mod_name` -/
def consumerModName (id : Int) (name : String) : Rows :=
  { db with consumers := db.consumers.modify id fun r => { r with name } }

/-- `mbb_db_consumer_mod_time` -/
def consumerModTime (id start stop : Int) : Rows :=
  { db with consumers := db.consumers.modify id fun r =>
    { r with timeStart := sqlTime start, timeEnd := sqlTime stop } }

/-- `mbb_db_consumer_drop` -/
def consumerDrop (id : Int) : Rows :=
  { db with consumers := db.consumers.drop fun k => decide (k = id) }

/-- `mbb_db_consumer_set_user` and `mbb_db_consumer_unset_user` -/
def consumerSetUser (id : Int) (userId : Option Int) : Rows :=
  { db with consumers := db.consumers.modify id fun r => { r with userId } }

/-- `mbb_db_unit_mod_name` -/
def unitModName (id : Int) (name : String) : Rows :=
  { db with units := db.units.modify id fun r => { r with name } }

/-- `mbb_db_unit_mod_time` -/
def unitModTime (id start stop : Int) : Rows :=
  { db with units := db.units.modify id fun r =>
    { r with timeStart := sqlTime start, timeEnd := sqlTime stop } }

/-- `mbb_db_unit_drop` -/
def unitDrop (id : Int) : Rows := { db with units := db.units.drop fun k => decide (k = id) }

/-- `mbb_db_unit_set_consumer` and `mbb_db_unit_unset_consumer` -/
def unitSetConsumer (id : Int) (consumerId : Option Int) : Rows :=
  { db with units := db.units.modify id fun r => { r with consumerId } }

/-- `mbb_db_unit_mod_local` -/
def unitModLocal (id : Int) (isLocal : Bool) : Rows :=
  { db with units := db.units.modify id fun r => { r with isLocal } }

/-- `mbb_db_inet_pool_drop` -/
def inetPoolDrop (id : Int) : Rows :=
  { db with unitIpPool := db.unitIpPool.drop fun k => decide (k = id) }

/-- `mbb_db_inet_pool_clear` -/
def inetPoolClear (owner : Int) : Rows :=
  { db with unitIpPool := db.unitIpPool.drop fun k =>
    (db.unitIpPool.get? k).any fun r => decide (r.unitId = owner) }

/-- `mbb_db_inet_pool_mod_time` -/
def inetPoolModTime (id start stop : Int) : Rows :=
  { db with unitIpPool := db.unitIpPool.modify id fun r =>
    { r with timeStart := sqlTime start, timeEnd := sqlTime stop } }

/-- `mbb_db_inet_pool_mod_nice`: the format `d` writes the `guint` as a `gint` -/
def inetPoolModNice (id : Int) (nice : ℕ) : Rows :=
  { db with unitIpPool := db.unitIpPool.modify id fun r => { r with nice := toGint nice } }

/-- `mbb_db_gwlink_drop` -/
def gwlinkDrop (id : Int) : Rows :=
  { db with gwlinks := db.gwlinks.drop fun k => decide (k = id) }

/-- `mbb_db_gwlink_mod_time` -/
def gwlinkModTime (id start stop : Int) : Rows :=
  { db with gwlinks := db.gwlinks.modify id fun r =>
    { r with timeStart := sqlTime start, timeEnd := sqlTime stop } }

end Rows

end Mbb
