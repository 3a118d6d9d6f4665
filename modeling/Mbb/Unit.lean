import Mbb.MapKeys

/-!
# Units, their inet entries and their maps

From `mbbd/mbbinetpool.c`, `mbbd/separator.c` and `mbbd/mbbunit.c`. Entries and units
are known by their addresses. An entry includes or excludes a block of addresses for an
interval of time; the separator of a unit keeps its entries sorted, and the map of the
unit is made from them in that order: an inclusive entry is added, an exclusive one
deletes.
-/

namespace Mbb

/-- `struct mbb_consumer`: its times. -/
structure Consumer : Type where
  /-- start -/
  start : Int
  /-- end -/
  stop : Int

/-- `struct mbb_inet_pool_entry`; the node list is kept by the handlers of the global
map. -/
structure InetPoolEntry : Type where
  /-- id in the database -/
  id : Int
  /-- the block -/
  inet : Inet
  /-- inclusive -/
  flag : Bool
  /-- start; negative is that of the owner -/
  start : Int
  /-- end; negative is that of the owner -/
  stop : Int
  /-- priority -/
  nice : ℕ
  /-- the unit -/
  owner : ℕ

/-- `struct mbb_unit`: what the maps and the statistics depend on. -/
structure MbbUnit : Type where
  /-- id in the database -/
  id : Int
  /-- the consumer -/
  con : Option Consumer
  /-- local -/
  isLocal : Bool
  /-- start; negative is that of the consumer -/
  start : Int
  /-- end; negative is that of the consumer -/
  stop : Int
  /-- queue of the separator -/
  sep : List ℕ
  /-- times, then addresses -/
  map : Map ℕ ℕ ℕ

/-- The entries and units in memory. -/
structure Memory : Type where
  /-- entries by address -/
  entry : ℕ → InetPoolEntry
  /-- units by address -/
  unit : ℕ → MbbUnit

/-! ## Effective times -/

/-- `mbb_unit_get_start` -/
def MbbUnit.getStart (u : MbbUnit) : Int :=
  match u.con with
  | none => u.start
  | some con => if 0 ≤ u.start then u.start else con.start

/-- `mbb_unit_get_end` -/
def MbbUnit.getEnd (u : MbbUnit) : Int :=
  match u.con with
  | none => u.stop
  | some con => if 0 ≤ u.stop then u.stop else con.stop

/-- `mbb_inet_pool_entry_get_start` -/
def Memory.getStart (mem : Memory) (e : ℕ) : Int :=
  if 0 ≤ (mem.entry e).start then (mem.entry e).start
  else (mem.unit (mem.entry e).owner).getStart

/-- `mbb_inet_pool_entry_get_end` -/
def Memory.getEnd (mem : Memory) (e : ℕ) : Int :=
  if 0 ≤ (mem.entry e).stop then (mem.entry e).stop
  else (mem.unit (mem.entry e).owner).getEnd

/-! ## `separator.c` -/

/-- A `gboolean` as `gint`. -/
def boolToGint (b : Bool) : Int := if b then 1 else 0

/-- `entry_cmp` -/
def entryCmp (e1 e2 : InetPoolEntry) : Int :=
  let d := toGint (toGint e1.nice - toGint e2.nice)
  if d ≠ 0 then d
  else
    let d := boolToGint e2.flag - boolToGint e1.flag
    if d ≠ 0 then d else 0

/-- `separator_add` -/
def separatorAdd (mem : Memory) (entry : ℕ) : List ℕ → List ℕ
  | [] => [entry]
  | e :: es =>
    if entryCmp (mem.entry entry) (mem.entry e) < 0 then entry :: e :: es
    else e :: separatorAdd mem entry es

/-! ## The map of a unit -/

section Rebuild

variable [TreeShape ℕ]

/-- The state of the operations on the map of a unit, which has no handlers. -/
abbrev UnitState : Type := MapState ℕ ℕ Unit

/-- `unit_map_add_inet`; it returns `FALSE` when the state has a crossing. -/
def unitMapAddInet (mem : Memory) (map : Map ℕ ℕ ℕ) (entry : ℕ) (s : UnitState) :
    Option (Map ℕ ℕ ℕ × UnitState) :=
  let r := inet2range (mem.entry entry).inet
  let key : Slice ℕ := ⟨timeToPointer (mem.getStart entry), timeToPointer (mem.getEnd entry)⟩
  let dkey : Slice ℕ := ⟨ipv4ToPointer r.rMin, ipv4ToPointer r.rMax⟩
  if (mem.entry entry).flag then
    mapAdd inetOps (MapHandlers.null ℕ) timeOps map key dkey entry s
  else
    (mapDel inetOps (MapHandlers.null ℕ) timeOps map key dkey none s).map fun r =>
      (r.1, { r.2 with cross := none })

/-- The loop of `mbb_unit_map_rebuild`. It ends with the new map, or with the two entries
that cross. -/
def rebuildLoop (mem : Memory) : List ℕ → Map ℕ ℕ ℕ → UnitState →
    Option (Except (ℕ × ℕ) (Map ℕ ℕ ℕ))
  | [], map, _ => some (.ok map)
  | entry :: es, map, s =>
    match unitMapAddInet mem map entry s with
    | none => none
    | some (map, s) =>
      match s.cross with
      | some c => some (.error (c.data, entry))
      | none => rebuildLoop mem es map s

/-- `mbb_unit_map_rebuild`: the unit after it, and `pp` when it returns `FALSE`. The outer
`none` is a crash. -/
def mbbUnitMapRebuild (mem : Memory) (unit : MbbUnit) : Option (MbbUnit × Option (ℕ × ℕ)) :=
  if unit.sep.length = 0 then
    let r := mapClear inetOps (MapHandlers.null ℕ) unit.map (⟨0, (), none⟩ : UnitState)
    some ({ unit with map := r.1 }, none)
  else
    match rebuildLoop mem unit.sep timeMapInit ⟨0, (), none⟩ with
    | none => none
    | some (.error pp) => some (unit, some pp)
    | some (.ok map) => some ({ unit with map := map }, none)

end Rebuild

end Mbb
