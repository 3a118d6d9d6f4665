import Mbb.InetText
import Mbb.OfficeCmd
import Mbb.VarConv

/-!
# Loading the records (`mbbd/mbbdbload.c`)

The daemon makes its records from the rows of the database when it starts. A row comes as texts,
one for each column, where `NULL` is `none`; the columns that are `not null` and are not converted
are texts here. What a load has made so far is in a `Trash`, and is removed again when a row is
invalid; the daemon then stops with the message of the error.

Users and groups are loaded before in `Mbb.User`.
-/

namespace Mbb

/-! ## Columns

Each conversion reads the text of one column. `NULL` is a value of its own for some of them, and an
error for the others.
-/

/-- `MBB_DB_LOAD_ERROR` -/
inductive DbLoadError : Type where
  /-- `MBB_DB_LOAD_ERROR_INVALID` -/
  | invalid (message : String)
  /-- `MBB_DB_LOAD_ERROR_INSIDE` -/
  | inside (message : String)
  deriving DecidableEq

/-- The bytes of a text. -/
def textBytes (s : String) : List UInt8 := s.toList.flatMap String.utf8EncodeChar

/-- `var_conv_utime` -/
def varConvUtime (arg : List UInt8) (p : Int) : Bool × Int :=
  match strConvToUint64 arg with
  | .error _ => (false, p)
  | .ok val => if val > gMaxLong then (false, p) else (true, val)

/-- The answer of a conversion, with the error it is answered with. -/
def converted {α : Type} (s : String) (r : Bool × α) : Except DbLoadError α :=
  if r.1 then .ok r.2 else .error (.invalid ("invalid integer: " ++ s))

/-- `conv_uint` -/
def convUint : Option String → Except DbLoadError ℕ
  -- `check_isnull`
  | none => .error (.invalid "unexpected null value")
  | some s => converted s (varConvUint (textBytes s) 0)

/-- `conv_int`: `NULL` leaves what is there. -/
def convInt (p : Int) : Option String → Except DbLoadError Int
  | none => .ok p
  | some s => converted s (varConvInt (textBytes s) p)

/-- `conv_time` -/
def convTime (p : Int) : Option String → Except DbLoadError Int
  | none => .ok p
  | some s => converted s (varConvUtime (textBytes s) p)

/-- `conv_bool` -/
def convBool : Option String → Except DbLoadError Bool
  | none => .error (.invalid "unexpected null value")
  | some s =>
    if s = "t" ∨ s = "true" then .ok true
    else if s = "f" ∨ s = "false" then .ok false
    else .error (.invalid ("invalid bool: " ++ s))

/-- `atoipv4`, the address -/
def atoipv4 (buf : List UInt8) : Option (BitVec 32) :=
  match strtoipv4 buf with
  | none => none
  | some (addr, p) => if isGraph (p.headD 0) then none else some addr

/-! ## Rows -/

/-- A row of `QUERY_CONSUMERS`. -/
structure ConsumerCells : Type where
  /-- `consumer_id` -/
  id : Option String
  /-- `consumer_name` -/
  name : String
  /-- `user_id` -/
  userId : Option String
  /-- `time_start` -/
  timeStart : Option String
  /-- `time_end` -/
  timeEnd : Option String

/-- A row of `QUERY_ACCUNITS`. -/
structure UnitCells : Type where
  /-- `unit_id` -/
  id : Option String
  /-- `unit_name` -/
  name : String
  /-- `consumer_id` -/
  consumerId : Option String
  /-- `local` -/
  isLocal : Option String
  /-- `time_start` -/
  timeStart : Option String
  /-- `time_end` -/
  timeEnd : Option String

/-- A row of `QUERY_UNIT_IP_POOL`. -/
structure InetCells : Type where
  /-- `self_id` -/
  id : Option String
  /-- `unit_id` -/
  unitId : Option String
  /-- `inet_addr` -/
  inet : String
  /-- `inet_flag` -/
  flag : Option String
  /-- `time_start` -/
  timeStart : Option String
  /-- `time_end` -/
  timeEnd : Option String
  /-- `nice` -/
  nice : Option String

/-- A row of `QUERY_GATEWAYS`. -/
structure GatewayCells : Type where
  /-- `gw_id` -/
  id : Option String
  /-- `gw_name` -/
  name : String
  /-- `gw_ip` -/
  ip : String

/-- A row of `QUERY_OPERATORS`. -/
structure OperatorCells : Type where
  /-- `oper_id` -/
  id : Option String
  /-- `oper_name` -/
  name : String

/-- A row of `QUERY_GWLINKS`. -/
structure GwlinkCells : Type where
  /-- `gwlink_id` -/
  id : Option String
  /-- `oper_id` -/
  operId : Option String
  /-- `gw_id` -/
  gwId : Option String
  /-- `link` -/
  link : Option String
  /-- `time_start` -/
  timeStart : Option String
  /-- `time_end` -/
  timeEnd : Option String

/-! ## One row

A row is converted and checked column by column, and the record is made and joined to others at the
end; what was made before an error is in the trash.
-/

/-- What a row makes. -/
structure LoadedRow : Type where
  /-- the records after it -/
  mem : Records
  /-- `msg_warn` -/
  warning : Option String
  /-- what `trash_push` is given: how the record is removed again -/
  destroy : Records → Records

/-- `load_consumers` -/
def loadConsumers (iter : ConsumerCells) (mem : Records) : Except DbLoadError LoadedRow := do
  let id ← convUint iter.id
  let userId ← convInt (-1) iter.userId
  let start ← convTime 0 iter.timeStart
  let stop ← convTime 0 iter.timeEnd
  let id := toGint id
  let mem := mem.consumerJoin id iter.name start stop
  let destroy := fun mem : Records => mem.consumerRemove id
  if 0 ≤ userId then
    match mem.users.get? userId with
    | none => .ok ⟨mem, some ("unknown user with id " ++ toString userId), destroy⟩
    | some _ =>
      .ok ⟨(mem.userAddConsumer userId id).setConsumerUser id (some userId), none, destroy⟩
  else .ok ⟨mem, none, destroy⟩

/-- `load_units` -/
def loadUnits (iter : UnitCells) (mem : Records) : Except DbLoadError LoadedRow := do
  let id ← convUint iter.id
  let conId ← convInt (-1) iter.consumerId
  let isLocal ← convBool iter.isLocal
  let start ← convTime (-1) iter.timeStart
  let stop ← convTime (-1) iter.timeEnd
  let id := toGint id
  let mem := (mem.unitJoin id iter.name none start stop).setUnitLocal id isLocal
  let destroy := fun mem : Records =>
    match mem.units.get? id with
    | none => mem
    | some u => mem.unitRemove id u
  if 0 ≤ conId then
    match mem.consumers.get? conId with
    | none => .ok ⟨mem, some ("unknown consumer with id " ++ toString conId), destroy⟩
    | some _ => .ok ⟨(mem.consumerAddUnit conId id).setUnitConsumer id (some conId), none, destroy⟩
  else .ok ⟨mem, none, destroy⟩

/-- `load_ip_pool` -/
def loadIpPool (iter : InetCells) (mem : Records) : Except DbLoadError LoadedRow := do
  let id ← convUint iter.id
  let unitId ← convUint iter.unitId
  let id := toGint id
  let unitId := toGint unitId
  match mem.units.get? unitId with
  | none => .error (.inside ("no such unit " ++ toString unitId))
  | some _ =>
    match (atoinet (textBytes iter.inet) none).1 with
    | none => .error (.invalid ("invalid inet: " ++ iter.inet))
    | some inet =>
      let flag ← convBool iter.flag
      let start ← convTime (-1) iter.timeStart
      let stop ← convTime (-1) iter.timeEnd
      let nice ← convUint iter.nice
      .ok ⟨mem.unitAddInet id ⟨inet, flag, start, stop, nice, unitId⟩, none, fun mem =>
        -- `mbb_inet_pool_entry_delete`
        match mem.inets.get? id with
        | none => mem
        | some e => mem.unitDelInet id e⟩

/-- `load_gateway` -/
def loadGateway (iter : GatewayCells) (mem : Records) : Except DbLoadError LoadedRow := do
  let id ← convUint iter.id
  let id := toGint id
  match atoipv4 (textBytes iter.ip) with
  | none => .error (.invalid ("invalid inet: " ++ iter.ip))
  | some addr =>
    .ok ⟨{ mem with gateways := mem.gateways.put id ⟨iter.name, GwState.new id addr.toNat⟩ }, none,
      fun mem => { mem with gateways := mem.gateways.drop fun k => decide (k = id) }⟩

/-- `load_operator` -/
def loadOperator (iter : OperatorCells) (mem : Records) : Except DbLoadError LoadedRow := do
  let id ← convUint iter.id
  let id := toGint id
  .ok ⟨{ mem with operators := mem.operators.put id ⟨iter.name, []⟩ }, none,
    fun mem => { mem with operators := mem.operators.drop fun k => decide (k = id) }⟩

/-- `mbb_gwlink_remove` -/
def gwlinkRemove (id : Int) (mem : Records) : Records :=
  match mem.gwlinks.get? id with
  | none => mem
  | some r =>
    match mem.gateways.get? r.gw with
    | none => mem.gwlinkDetach id r
    | some g => (mem.setGateway r.gw (g.st.delLink id).2).gwlinkDetach id r

/-- `load_gwlink` -/
def loadGwlink (iter : GwlinkCells) (mem : Records) : Except DbLoadError LoadedRow := do
  let id ← convUint iter.id
  let opId ← convUint iter.operId
  let gwId ← convUint iter.gwId
  let link ← convUint iter.link
  let start ← convTime 0 iter.timeStart
  let stop ← convTime 0 iter.timeEnd
  let id := toGint id
  let opId := toGint opId
  let gwId := toGint gwId
  match mem.gateways.get? gwId with
  | none => .error (.inside ("no such gateway " ++ toString gwId))
  | some gw =>
    match mem.operators.get? opId with
    | none => .error (.inside ("no such operator " ++ toString opId))
    | some _ =>
      match gw.st.addLink ⟨id, link, start, stop⟩ with
      | (none, st) =>
        .ok ⟨(mem.setGateway gwId st).gwlinkJoin id ⟨opId, gwId⟩, none, gwlinkRemove id⟩
      | (some _, st) =>
        -- the link is joined all the same
        .ok ⟨(mem.setGateway gwId st).gwlinkJoin id ⟨opId, gwId⟩,
          some ("failed add link " ++ toString id ++ " to gateway " ++ gw.name), gwlinkRemove id⟩

/-! ## All rows -/

/-- `trash_empty`: what was made last goes first. -/
def trashEmpty (trash : List (Records → Records)) (mem : Records) : Records :=
  trash.foldl (fun mem destroy => destroy mem) mem

/-- The loop of `mbb_db_load`: the error, if there is one, the records then and the warnings. -/
def mbbDbLoadLoop {C : Type} (func : C → Records → Except DbLoadError LoadedRow) :
    List C → List (Records → Records) → Records → List String →
      Option DbLoadError × Records × List String
  | [], _, mem, warnings => (none, mem, warnings)
  | iter :: rest, trash, mem, warnings =>
    match func iter mem with
    | .error error => (some error, trashEmpty trash mem, warnings)
    | .ok r =>
      mbbDbLoadLoop func rest (r.destroy :: trash) r.mem (warnings ++ r.warning.toList)

/-- `mbb_db_load`, of the rows of a query -/
def mbbDbLoad {C : Type} (func : C → Records → Except DbLoadError LoadedRow) (rows : List C)
    (mem : Records) (warnings : List String) : Option DbLoadError × Records × List String :=
  mbbDbLoadLoop func rows [] mem warnings

/-- The answers to the queries. -/
structure DbCells : Type where
  /-- `QUERY_CONSUMERS` -/
  consumers : List ConsumerCells
  /-- `QUERY_ACCUNITS` -/
  units : List UnitCells
  /-- `QUERY_UNIT_IP_POOL` -/
  unitIpPool : List InetCells
  /-- `QUERY_GATEWAYS` -/
  gateways : List GatewayCells
  /-- `QUERY_OPERATORS` -/
  operators : List OperatorCells
  /-- `QUERY_GWLINKS` -/
  gwlinks : List GwlinkCells

/-- `DB_LOAD`: the daemon stops at an error. -/
def dbLoadThen (load : Records → List String → Option DbLoadError × Records × List String)
    (r : Option DbLoadError × Records × List String) : Option DbLoadError × Records × List String :=
  match r with
  | (some error, mem, warnings) => (some error, mem, warnings)
  | (none, mem, warnings) => load mem warnings

/-- What `main` loads after users and groups. -/
def dbLoad (t : DbCells) (mem : Records) : Option DbLoadError × Records × List String :=
  dbLoadThen (mbbDbLoad loadGwlink t.gwlinks) <|
  dbLoadThen (mbbDbLoad loadOperator t.operators) <|
  dbLoadThen (mbbDbLoad loadGateway t.gateways) <|
  dbLoadThen (mbbDbLoad loadIpPool t.unitIpPool) <|
  dbLoadThen (mbbDbLoad loadUnits t.units) <|
  mbbDbLoad loadConsumers t.consumers mem []

end Mbb
