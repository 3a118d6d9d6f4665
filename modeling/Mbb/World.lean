import Mbb.MapRemove
import Mbb.InetMap

/-!
# The global map and its commands

From `mbbd/mbbinetpool.c`, `mbbd/mbbinetmap.c`, `mbbd/mbbunit.c`, `mbbd/mbbunitipman.c` and
`mbbd/modules/map_reload/main.c`. The global map owes its contents to the maps of the
units. Each entry keeps the nodes of the global map it owns, and all removals go through
them.

A result `none` of an operation is the use of a node that is gone, or a failed assertion.
What a command gets from outside (the database, the clock, the allocator) is part of the
command.
-/

namespace Mbb

/-! ## Nodes of entries (`mbbinetpool.c`)

The global map tells the entries of its nodes by two handlers, so each entry has the list of its
own.
-/

/-- The field `node_list` of each entry. -/
abbrev NodeLists : Type := ℕ → List MapNode

/-- `mbb_inet_pool_map_add_handler` -/
def mbbInetPoolMapAddHandler (node : MapNode) (entry : ℕ) (nodes : NodeLists) : NodeLists :=
  Function.update nodes entry (node :: nodes entry)

/-- `mbb_inet_pool_map_del_handler` -/
def mbbInetPoolMapDelHandler (node : MapNode) (entry : ℕ) (nodes : NodeLists) : NodeLists :=
  Function.update nodes entry ((nodes entry).erase node)

/-- The handlers of `global_map`. -/
def poolHandlers : MapHandlers NodeLists ℕ := ⟨mbbInetPoolMapAddHandler, mbbInetPoolMapDelHandler⟩

/-! ## The global map (`mbbinetmap.c`)

What is removed from the map is removed by these lists, and not by searching.
-/

/-- `global_map` with the nodes of the entries. -/
structure GlobalMap : Type where
  /-- addresses, then times -/
  map : Map ℕ ℕ ℕ
  /-- the nodes of each entry -/
  nodes : NodeLists
  /-- the next address of a queue -/
  fresh : ℕ

namespace GlobalMap

/-- The state map operations start from. -/
def state (g : GlobalMap) : MapState ℕ ℕ NodeLists := ⟨g.fresh, g.nodes, none⟩

/-- The result of a map operation. -/
def ofResult (r : Map ℕ ℕ ℕ × MapState ℕ ℕ NodeLists) : GlobalMap := ⟨r.1, r.2.nodes, r.2.fresh⟩

/-- `mbb_map_del_inet` -/
def mbbMapDelInet (g : GlobalMap) (entry : ℕ) : Option GlobalMap :=
  (mapNodesRemove (g.nodes entry) g.map).map fun map =>
    { g with map := map, nodes := Function.update g.nodes entry [] }

/-- `mbb_map_del_unit`: the entries are those of the separator. -/
def mbbMapDelUnit (g : GlobalMap) (sep : List ℕ) : Option GlobalMap := sep.foldlM mbbMapDelInet g

/-- `mbb_map_clear`, also `inet_map_clear` -/
def mbbMapClear (g : GlobalMap) : GlobalMap :=
  ofResult (mapClear timeOps poolHandlers g.map g.state)

section Tree

variable [TreeShape ℕ]

/-- `mbb_map_init` -/
def mbbMapInit (g : GlobalMap) : GlobalMap :=
  if g.map.isNone then { g with map := inetMapInit } else g

/-- `mbb_map_add_unit`, and what it leaves in `cross` when it returns `FALSE`. -/
def mbbMapAddUnit (g : GlobalMap) (unit : MbbUnit) :
    Option (GlobalMap × Option (MapCross ℕ ℕ)) :=
  let g := g.mbbMapInit
  match mapAddMap poolHandlers g.map unit.map g.state with
  | none => none
  | some r =>
    match r.2.cross with
    | none => some (ofResult r, none)
    | some c => ((ofResult r).mbbMapDelUnit unit.sep).map fun g => (g, some c)

/-- `map_glue_null` of the global map -/
def glueNull (g : GlobalMap) : GlobalMap :=
  ofResult (mapGlueNull timeOps poolHandlers inetOps g.map g.state)

/-- `mbb_map_auto_glue`; `auto` is `map_glue_auto`. -/
def mbbMapAutoGlue (auto : Bool) (g : GlobalMap) : GlobalMap := if auto then g.glueNull else g

end Tree

end GlobalMap

/-! ## Commands

A command changes the unit first and then the global map; when the map refuses, what was added is
taken out again.
-/

/-- What the commands work on. -/
structure World : Type where
  /-- entries and units -/
  mem : Memory
  /-- units by name -/
  unitByName : String → Option ℕ
  /-- `inet_pool`: entries by id -/
  pool : Int → Option ℕ
  /-- the global map -/
  glob : GlobalMap
  /-- `map_glue_auto` -/
  mapGlueAuto : Bool

/-- A command with its arguments and what it gets from outside. -/
inductive Cmd : Type where
  /-- `mbb-map-add-unit` -/
  | mapAddUnit (name : String)
  /-- `mbb-map-del-unit` -/
  | mapDelUnit (name : String)
  /-- `mbb-map-reload`; the units in the order they are visited -/
  | mapReload (units : List ℕ)
  /-- `mbb-map-reload-unit` -/
  | mapReloadUnit (name : String)
  /-- `mbb-map-clear` -/
  | mapClear
  /-- `mbb-map-glue-null` -/
  | mapGlueNull
  /-- `mbb-unit-map-rebuild` -/
  | unitMapRebuild (name : String)
  /-- `mbb-unit-map-clear` -/
  | unitMapClear (name : String)
  /-- `mbb-unit-add-inet`; the id the database gives, the time and the address of the new
  entry -/
  | unitAddInet (name : String) (inet : Inet) (exclusive : Bool) (nice : ℕ) (inherit : Bool)
      (id time : Int) (ptr : ℕ)
  /-- `mbb-unit-drop-inet`; does the database agree -/
  | unitDropInet (id : Int) (db : Bool)
  /-- `mbb-unit-clear-inet`; does the database agree -/
  | unitClearInet (name : String) (db : Bool)

/-- The answer to a command. -/
inductive Answer : Type where
  /-- done -/
  | ok
  /-- `MBB_MSG_UNKNOWN_UNIT` -/
  | unknownUnit
  /-- `MBB_MSG_UNKNOWN_INET` -/
  | unknownInet
  /-- `MBB_MSG_UNIT_FREEZED` -/
  | unitFreezed
  /-- `MBB_MSG_INET_CROSS`: the id of an entry and its unit -/
  | inetCross (id : Int) (unit : ℕ)
  /-- `MBB_MSG_INET_COLLISION`: two entries of the unit -/
  | inetCollision (pp0 pp1 : ℕ)
  /-- the error of `mbb_map_reload_unit` for two entries of the unit -/
  | reloadFailed (pp0 pp1 : ℕ)
  /-- its error for a crossing with another unit -/
  | addFailed (foe : ℕ)
  /-- an error of the database -/
  | dbError

/-- Memory with an entry written. -/
def Memory.setEntry (mem : Memory) (entry : ℕ) (e : InetPoolEntry) : Memory :=
  { mem with entry := Function.update mem.entry entry e }

namespace World

/-- The world with a unit replaced. -/
def setUnit (w : World) (u : ℕ) (unit : MbbUnit) : World :=
  { w with mem := { w.mem with unit := Function.update w.mem.unit u unit } }

/-- The unit at an address. -/
def unit (w : World) (u : ℕ) : MbbUnit := w.mem.unit u

/-- `mbb_unit_add_inet`; `entry` is the address of a new entry with these values. -/
def mbbUnitAddInet (w : World) (u : ℕ) (entry : ℕ) (e : InetPoolEntry) : World :=
  let w : World := { w with
    mem := w.mem.setEntry entry e
    glob := { w.glob with nodes := Function.update w.glob.nodes entry [] } }
  if entry ∈ (w.unit u).sep then w
  else
    let w := w.setUnit u { w.unit u with sep := separatorAdd w.mem entry (w.unit u).sep }
    { w with pool := Function.update w.pool e.id (some entry) }

/-- `mbb_unit_del_inet` -/
def mbbUnitDelInet (w : World) (u : ℕ) (entry : ℕ) : Option World :=
  if entry ∈ (w.unit u).sep then
    let w := w.setUnit u { w.unit u with
      sep := (w.unit u).sep.erase entry
      map := mapRemoveCustom (fun d => decide (d = entry)) (w.unit u).map }
    (w.glob.mbbMapDelInet entry).map fun g =>
      { w with glob := g, pool := Function.update w.pool (w.mem.entry entry).id none }
  else some w

/-- `mbb_unit_clear_inet` -/
def mbbUnitClearInet (w : World) (u : ℕ) : Option World :=
  (w.glob.mbbMapDelUnit (w.unit u).sep).map fun g =>
    let pool := (w.unit u).sep.foldl
      (fun pool entry => Function.update pool (w.mem.entry entry).id none) w.pool
    let map := (mapClear inetOps (MapHandlers.null ℕ) (w.unit u).map (⟨0, (), none⟩ : UnitState)).1
    { w.setUnit u { w.unit u with sep := [], map := map } with glob := g, pool := pool }

section Tree

variable [TreeShape ℕ]

/-- Both `map_add_unit` and `mbb_map_reload_unit` take the unit out of the global map, add
it, and on a crossing take it out again and glue. -/
def replaceUnit (w : World) (u : ℕ) : Option (World × Option (MapCross ℕ ℕ)) :=
  (w.glob.mbbMapDelUnit (w.unit u).sep).bind fun g =>
    (g.mbbMapAddUnit (w.unit u)).bind fun r =>
      match r.2 with
      | none => some ({ w with glob := r.1 }, none)
      | some c => (r.1.mbbMapDelUnit (w.unit u).sep).map fun g =>
          ({ w with glob := g.mbbMapAutoGlue w.mapGlueAuto }, some c)

/-- `map_add_unit` -/
def mapAddUnit (w : World) (u : ℕ) : Option (World × Answer) :=
  (w.replaceUnit u).map fun r => (r.1, match r.2 with
    | none => .ok
    | some c => .inetCross (w.mem.entry c.data).id (w.mem.entry c.data).owner)

/-- `mbb_map_reload_unit` -/
def mbbMapReloadUnit (w : World) (u : ℕ) : Option (World × Answer) :=
  match mbbUnitMapRebuild w.mem (w.unit u) with
  | none => none
  | some (_, some pp) => some (w, .reloadFailed pp.1 pp.2)
  | some (unit, none) =>
    ((w.setUnit u unit).replaceUnit u).map fun r => (r.1, match r.2 with
      | none => .ok
      | some c => .addFailed (w.mem.entry c.data).owner)

/-- The loop of `mbb_map_reload`. -/
def reloadUnits : List ℕ → World → Option World
  | [], w => some w
  | u :: us, w => (w.mbbMapReloadUnit u).bind fun r => reloadUnits us r.1

/-- `unit_map_rebuild` -/
def unitMapRebuild (w : World) (u : ℕ) : Option (World × Answer) :=
  match mbbUnitMapRebuild w.mem (w.unit u) with
  | none => none
  | some (_, some pp) => some (w, .inetCollision pp.1 pp.2)
  | some (unit, none) => some (w.setUnit u unit, .ok)

/-- The entry `unit_add_inet` makes. -/
def newEntry (inet : Inet) (exclusive : Bool) (nice : ℕ) (inherit : Bool) (id time : Int)
    (u : ℕ) : InetPoolEntry :=
  ⟨id, inet, !exclusive, if inherit then -1 else time, -1, nice, u⟩

/-- `unit_add_inet` -/
def unitAddInet (w : World) (u : ℕ) (inet : Inet) (exclusive : Bool) (nice : ℕ) (inherit : Bool)
    (id time : Int) (ptr : ℕ) : World × Answer :=
  if inherit = false ∧ (w.unit u).getEnd ≠ 0 then (w, .unitFreezed)
  else if id < 0 then (w, .dbError)
  else (w.mbbUnitAddInet u ptr (newEntry inet exclusive nice inherit id time u), .ok)

/-- The unit of that name, if there is one. -/
def withUnit (w : World) (name : String) (f : ℕ → Option (World × Answer)) :
    Option (World × Answer) :=
  match w.unitByName name with
  | none => some (w, .unknownUnit)
  | some u => f u

/-- A command. -/
def exec (w : World) : Cmd → Option (World × Answer)
  | .mapAddUnit name => w.withUnit name w.mapAddUnit
  | .mapDelUnit name => w.withUnit name fun u =>
      (w.glob.mbbMapDelUnit (w.unit u).sep).map fun g =>
        ({ w with glob := g.mbbMapAutoGlue w.mapGlueAuto }, .ok)
  | .mapReload units => (reloadUnits units { w with glob := w.glob.mbbMapClear }).map (·, .ok)
  | .mapReloadUnit name => w.withUnit name w.mbbMapReloadUnit
  | .mapClear => some ({ w with glob := w.glob.mbbMapClear }, .ok)
  | .mapGlueNull => some ({ w with glob := w.glob.glueNull }, .ok)
  | .unitMapRebuild name => w.withUnit name w.unitMapRebuild
  | .unitMapClear name => w.withUnit name fun u =>
      let map :=
        (Mbb.mapClear inetOps (MapHandlers.null ℕ) (w.unit u).map (⟨0, (), none⟩ : UnitState)).1
      some (w.setUnit u { w.unit u with map := map }, .ok)
  | .unitAddInet name inet exclusive nice inherit id time ptr => w.withUnit name fun u =>
      some (w.unitAddInet u inet exclusive nice inherit id time ptr)
  | .unitDropInet id db =>
    match w.pool id with
    | none => some (w, .unknownInet)
    | some entry =>
      if db then (w.mbbUnitDelInet (w.mem.entry entry).owner entry).map (·, .ok)
      else some (w, .dbError)
  | .unitClearInet name db => w.withUnit name fun u =>
      if db then (w.mbbUnitClearInet u).map (·, .ok) else some (w, .dbError)

/-- Several commands. -/
def run : List Cmd → World → Option World
  | [], w => some w
  | c :: cs, w => (w.exec c).bind fun r => run cs r.1

end Tree

end World

end Mbb
