import Mathlib.Logic.Relation
import Mbb.Office

/-!
# The commands on consumers, units, inet entries and gateway links

From `mbbd/mbbconsumerman.c`, `mbbd/mbbunitman.c`, `mbbd/mbbunitipman.c` and
`mbbd/mbbgwlinkman.c`. Each command changes memory and rows, in an order of its own, and
answers with the error, if any. What the clock says, the id of a new row and the outcomes
of the calls to the database come with the command.
-/

namespace Mbb

namespace Office

variable (s : Office) (e : Env)

/-! ## Consumers -/

/-- `add_consumer` -/
def addConsumer (name : String) : Option MbbMsg × Office :=
  match s.mem.consumerByName name with
  | some _ => (some (.nameExists name), s)
  | none =>
    match dbInsertRet s.db.consumers (e.db 0) e.id ⟨name, none, sqlTime e.now, sqlTime 0⟩ with
    | none => (some .fromError, s)
    | some rows =>
      (none, ⟨s.mem.consumerJoin e.id name e.now 0, { s.db with consumers := rows }⟩)

/-- `drop_consumer` -/
def dropConsumer (name : String) : Option MbbMsg × Office :=
  match s.mem.consumerByName name with
  | none => (some .unknownConsumer, s)
  | some (id, con) =>
    if con.units ≠ [] then (some .hasChilds, s)
    else if e.db 0 then
      (none, ⟨(s.mem.leaveUser id con).consumerRemove id, s.db.consumerDrop id⟩)
    else (some .fromError, s)

/-- `consumer_mod_name` -/
def consumerModName (name newname : String) : Option MbbMsg × Office :=
  match s.mem.consumerByName name with
  | none => (some .unknownConsumer, s)
  | some (id, _) =>
    match s.mem.consumerByName newname with
    | some _ => (some (.nameExists newname), s)
    | none =>
      if e.db 0 then
        match s.mem.consumerModName id newname with
        | (false, mem) => (some .unpossible, ⟨mem, s.db.consumerModName id newname⟩)
        | (true, mem) => (none, ⟨mem, s.db.consumerModName id newname⟩)
      else (some .fromError, s)

/-- `consumer_mod_time` -/
def consumerModTime (name : String) (start stop : Int) : Option MbbMsg × Office :=
  match modTimeArgs start stop with
  | some msg => (some msg, s)
  | none =>
    match s.mem.consumerByName name with
    | none => (some .unknownConsumer, s)
    | some (id, con) =>
      let start := timeOr start con.start
      let stop := timeOr stop con.stop
      if mbbTimeBecmp start stop > 0 then (some .timeOrder, s)
      else
        match s.mem.consumerModTime id con start stop with
        | (false, mem) => (some .timeCollision, { s with mem })
        -- memory has the new times already when the database is asked
        | (true, mem) =>
          if e.db 0 then (none, ⟨mem, s.db.consumerModTime id start stop⟩)
          else (some .fromError, { s with mem })

/-- `consumer_set_user` -/
def consumerSetUser (conName userName : String) : Option MbbMsg × Office :=
  match s.mem.consumerByName conName with
  | none => (some .unknownConsumer, s)
  | some (id, con) =>
    match s.mem.userByName userName with
    | none => (some .unknownUser, s)
    | some (user, _) =>
      if con.user ≠ none then (some (.error "consumer already has user"), s)
      else if e.db 0 then
        (none, ⟨(s.mem.userAddConsumer user id).setConsumerUser id (some user),
          s.db.consumerSetUser id (some user)⟩)
      else (some .fromError, s)

/-- `consumer_unset_user` -/
def consumerUnsetUser (name : String) : Option MbbMsg × Office :=
  match s.mem.consumerByName name with
  | none => (some .unknownConsumer, s)
  | some (id, con) =>
    match con.user with
    -- nothing to do is no error
    | none => (none, s)
    | some user =>
      if e.db 0 then
        (none, ⟨(s.mem.userDelConsumer user id).setConsumerUser id none,
          s.db.consumerSetUser id none⟩)
      else (some .fromError, s)

/-! ## Units -/

/-- The start of a new unit, and of a new entry: that of the parent, or now. -/
def newStart (inherit : Bool) : Int := if inherit then -1 else e.now

/-- `unit_create` -/
def unitCreate (name : String) (con : Option Int) (inherit : Bool) : Bool × Office :=
  let start := newStart e (inherit && con.isSome)
  let stop := if con.isSome then -1 else 0
  match dbInsertRet s.db.units (e.db 0) e.id
      ⟨name, con, sqlTime start, sqlTime stop, false⟩ with
  | none => (false, s)
  | some rows =>
    let mem := (s.mem.joinConsumer e.id con).unitJoin e.id name con start stop
    (true, ⟨mem, { s.db with units := rows }⟩)

/-- `add_unit` -/
def addUnit (name : String) : Option MbbMsg × Office :=
  match s.mem.unitByName name with
  | some _ => (some (.nameExists name), s)
  | none =>
    match s.unitCreate e name none false with
    | (false, s) => (some .fromError, s)
    | (true, s) => (none, s)

/-- `consumer_add_unit` -/
def consumerAddUnit (conName unitName : String) (inherit : Bool) : Option MbbMsg × Office :=
  match s.mem.consumerByName conName with
  | none => (some .unknownConsumer, s)
  | some (con, r) =>
    -- a start that is now could lie after the end of the consumer
    if inherit = false ∧ r.stop ≠ 0 then (some (.consumerFreezed conName), s)
    else
      match s.mem.unitByName unitName with
      | some _ => (some (.nameExists unitName), s)
      | none =>
        match s.unitCreate e unitName (some con) inherit with
        | (false, s) => (some .fromError, s)
        | (true, s) => (none, s)

/-- `drop_unit` -/
def dropUnit (name : String) : Option MbbMsg × Office :=
  match s.mem.unitByName name with
  | none => (some .unknownUnit, s)
  | some (id, u) =>
    if u.sep ≠ [] then (some .hasChilds, s)
    else if e.db 0 then (none, ⟨s.mem.unitRemove id u, s.db.unitDrop id⟩)
    else (some .fromError, s)

/-- `unit_mod_name` -/
def unitModName (name newname : String) : Option MbbMsg × Office :=
  match s.mem.unitByName name with
  | none => (some .unknownUnit, s)
  | some (id, _) =>
    match s.mem.unitByName newname with
    | some _ => (some (.nameExists newname), s)
    | none =>
      if e.db 0 then
        match s.mem.unitModName id newname with
        | (false, mem) => (some .unpossible, ⟨mem, s.db.unitModName id newname⟩)
        | (true, mem) => (none, ⟨mem, s.db.unitModName id newname⟩)
      else (some .fromError, s)

/-- The tests of `unit_mod_time` before anything changes. -/
def unitModTimeTest (u : UnitRec) (start stop : Int) : Option MbbMsg :=
  match u.con.bind s.mem.consumers.get? with
  | some con => mbbTimeTestOrder start stop con.start con.stop
  | none => if mbbTimeBecmp start stop > 0 then some .invalidTimeOrder else none

/-- `exec_if(start = old, start == MBB_TIME_UNSET)` -/
def timeKeep (t old : Int) : Int := if t = mbbTimeUnset then old else t

/-- `unit_mod_time`; `none` is a crash: the times of a missing consumer are read. -/
def unitModTime (name : String) (start stop : Int) : Option (Option MbbMsg × Office) :=
  if start = mbbTimeUnset ∧ stop = mbbTimeUnset then some (some .timeMissed, s)
  else
    match s.mem.unitByName name with
    | none => some (some .unknownUnit, s)
    | some (id, u) =>
      -- without consumer there is nobody to take a time from
      if u.con = none ∧ (start = mbbTimeParent ∨ stop = mbbTimeParent) then
        some (some .orphan, s)
      else
        let start := timeKeep start u.start
        let stop := timeKeep stop u.stop
        match s.unitModTimeTest u start stop with
        | some msg => some (some msg, s)
        | none =>
          match s.mem.unitModTime id u start stop with
          | none => none
          | some (false, mem) => some (some .timeCollision, { s with mem })
          | some (true, mem) =>
            if e.db 0 then some (none, ⟨mem, s.db.unitModTime id start stop⟩)
            else some (some .fromError, { s with mem })

/-- `unit_set_consumer` -/
def unitSetConsumer (unitName conName : String) : Option MbbMsg × Office :=
  match s.mem.unitByName unitName with
  | none => (some .unknownUnit, s)
  | some (id, u) =>
    match s.mem.consumerByName conName with
    | none => (some .unknownConsumer, s)
    | some (con, _) =>
      if u.con ≠ none then (some .unitHasConsumer, s)
      else if e.db 0 then
        (none, ⟨(s.mem.setUnitConsumer id (some con)).consumerAddUnit con id,
          s.db.unitSetConsumer id (some con)⟩)
      else (some .fromError, s)

/-- `unit_unset_consumer`: memory changes first. A unit that takes times from the consumer
gets them as its own, which is the first of two calls to the database. -/
def unitUnsetConsumer (name : String) : Option MbbMsg × Office :=
  match s.mem.unitByName name with
  | none => (some .unknownUnit, s)
  | some (id, u) =>
    match u.con with
    | none => (none, s)
    | some con =>
      let mem := s.mem.consumerDelUnit con id
      if u.start < 0 ∨ u.stop < 0 then
        let start := s.mem.unitGetStart u
        let stop := s.mem.unitGetEnd u
        let mem := (mem.setUnitTime id start stop).setUnitConsumer id none
        if e.db 0 then
          let db := s.db.unitModTime id start stop
          -- the times are in the row now, whether the second call succeeds or not
          if e.db 1 then (none, ⟨mem, db.unitSetConsumer id none⟩)
          else (some .fromError, ⟨mem, db⟩)
        else (some .fromError, { s with mem })
      else
        let mem := mem.setUnitConsumer id none
        if e.db 0 then (none, ⟨mem, s.db.unitSetConsumer id none⟩)
        else (some .fromError, { s with mem })

/-- `unit_local_do` -/
def unitLocalDo (name : String) (isLocal : Bool) : Option MbbMsg × Office :=
  match s.mem.unitByName name with
  | none => (some .unknownUnit, s)
  | some (id, u) =>
    if u.isLocal = isLocal then (none, s)
    else if e.db 0 then (none, ⟨s.mem.setUnitLocal id isLocal, s.db.unitModLocal id isLocal⟩)
    else (some .fromError, s)

/-! ## Inet entries -/

/-- `unit_add_inet` -/
def unitAddInet (name : String) (inet : Inet) (exclusive : Bool) (nice : ℕ) (inherit : Bool) :
    Option MbbMsg × Office :=
  match s.mem.unitByName name with
  | none => (some .unknownUnit, s)
  | some (id, u) =>
    if inherit = false ∧ s.mem.unitGetEnd u ≠ 0 then (some (.unitFreezed name), s)
    else
      let start := newStart e inherit
      match dbInsertRet s.db.unitIpPool (e.db 0) e.id
          ⟨id, inet, !exclusive, sqlTime start, sqlTime (-1), toGint nice⟩ with
      | none => (some .fromError, s)
      | some rows =>
        (none, ⟨s.mem.unitAddInet e.id ⟨inet, !exclusive, start, -1, nice, id⟩,
          { s.db with unitIpPool := rows }⟩)

/-- `drop_inet` -/
def dropInet (id : Int) : Option MbbMsg × Office :=
  match s.mem.inets.get? id with
  | none => (some .unknownInet, s)
  | some entry =>
    if e.db 0 then (none, ⟨s.mem.unitDelInet id entry, s.db.inetPoolDrop id⟩)
    else (some .fromError, s)

/-- `unit_clear_inet` -/
def unitClearInet (name : String) : Option MbbMsg × Office :=
  match s.mem.unitByName name with
  | none => (some .unknownUnit, s)
  | some (id, u) =>
    if e.db 0 then (none, ⟨s.mem.unitClearInet id u, s.db.inetPoolClear id⟩)
    else (some .fromError, s)

/-- The order test of `unit_mod_inet_time`. -/
def inetTimeTest (entry : EntryRec) (start stop : Int) : Option MbbMsg :=
  (s.mem.units.get? entry.owner).bind fun u =>
    mbbTimeTestOrder start stop (s.mem.unitGetStart u) (s.mem.unitGetEnd u)

/-- `unit_mod_inet_time`: the entry gets the times also when the order test fails. -/
def unitModInetTime (id start stop : Int) : Option MbbMsg × Office :=
  if start = mbbTimeUnset ∧ stop = mbbTimeUnset then (some .timeMissed, s)
  else
    match s.mem.inets.get? id with
    | none => (some .unknownInet, s)
    | some entry =>
      let start := timeKeep start entry.start
      let stop := timeKeep stop entry.stop
      -- no `final` here: the assignment below the test is made with the error already set
      match s.inetTimeTest entry start stop with
      | some msg => (some msg, { s with mem := s.mem.setEntryTime id start stop })
      | none =>
        if e.db 0 then
          (none, ⟨s.mem.setEntryTime id start stop, s.db.inetPoolModTime id start stop⟩)
        else (some .fromError, s)

/-- `unit_mod_inet_nice` -/
def unitModInetNice (id : Int) (nice : ℕ) : Option MbbMsg × Office :=
  match s.mem.inets.get? id with
  | none => (some .unknownInet, s)
  | some entry =>
    if entry.nice = nice then (none, s)
    else if e.db 0 then (none, ⟨s.mem.setEntryNice id nice, s.db.inetPoolModNice id nice⟩)
    else (some .fromError, s)

/-! ## Gateway links -/

/-- `add_gwlink` -/
def addGwlink (addr : Option ℕ) (gwName : String) (link : ℕ) (opName : String) :
    Option MbbMsg × Office :=
  match s.mem.gatewayByEname addr gwName with
  | none => (some .unknownGateway, s)
  | some (gw, g) =>
    match s.mem.operatorByName opName with
    | none => (some .unknownOperator, s)
    | some (op, _) =>
      let gl : MbbGwLink := ⟨e.id, link, e.now, 0⟩
      -- the queue is asked before the database is, so that the row is not made in vain
      if mbbGatewayCanAdd g.st.gw gl true = false then (some .gwHasLink, s)
      else
        match dbInsertRet s.db.gwlinks (e.db 0) e.id
            ⟨op, gw, toGint link, sqlTime e.now, sqlTime 0⟩ with
        | none => (some .fromError, s)
        | some rows =>
          let db := { s.db with gwlinks := rows }
          match mbbGatewayAddLink g.st.gw gl with
          | (false, queues) =>
            (some .unpossible, ⟨s.mem.setGateway gw { g.st with gw := queues }, db⟩)
          | (true, queues) =>
            (none, ⟨(s.mem.setGateway gw ⟨queues, gl :: g.st.links⟩).gwlinkJoin e.id ⟨op, gw⟩,
              db⟩)

/-- `drop_gwlink` -/
def dropGwlink (id : Int) : Option MbbMsg × Office :=
  match s.mem.gwlinkById id with
  | none => (some .unknownGwlink, s)
  | some (r, g, _) =>
    if e.db 0 then
      (none, ⟨(s.mem.setGateway r.gw (g.st.delLink id).2).gwlinkDetach id r, s.db.gwlinkDrop id⟩)
    else (some .fromError, s)

/-- `gwlink_mod_time` -/
def gwlinkModTime (id start stop : Int) : Option MbbMsg × Office :=
  match modTimeArgs start stop with
  | some msg => (some msg, s)
  | none =>
    match s.mem.gwlinkById id with
    | none => (some .unknownGwlink, s)
    | some (r, g, gl) =>
      match g.st.gwlinkModTime id start stop with
      | (some msg, st) => (some msg, { s with mem := s.mem.setGateway r.gw st })
      | (none, st) =>
        let mem := s.mem.setGateway r.gw st
        -- the queue has been changed before the database is asked
        if e.db 0 then
          (none, ⟨mem, s.db.gwlinkModTime id (timeOr start gl.start) (timeOr stop gl.stop)⟩)
        else (some .fromError, { s with mem })

end Office

/-! ## Runs -/

/-- The commands. -/
inductive OfficeCmd : Type where
  /-- `mbb-add-consumer` -/
  | addConsumer (name : String)
  /-- `mbb-drop-consumer` -/
  | dropConsumer (name : String)
  /-- `mbb-consumer-mod-name` -/
  | consumerModName (name newname : String)
  /-- `mbb-consumer-mod-time` -/
  | consumerModTime (name : String) (start stop : Int)
  /-- `mbb-consumer-set-user` -/
  | consumerSetUser (conName userName : String)
  /-- `mbb-consumer-unset-user` -/
  | consumerUnsetUser (name : String)
  /-- `mbb-add-unit` -/
  | addUnit (name : String)
  /-- `mbb-consumer-add-unit` -/
  | consumerAddUnit (conName unitName : String) (inherit : Bool)
  /-- `mbb-drop-unit` -/
  | dropUnit (name : String)
  /-- `mbb-unit-mod-name` -/
  | unitModName (name newname : String)
  /-- `mbb-unit-mod-time` -/
  | unitModTime (name : String) (start stop : Int)
  /-- `mbb-unit-set-consumer` -/
  | unitSetConsumer (unitName conName : String)
  /-- `mbb-unit-unset-consumer` -/
  | unitUnsetConsumer (name : String)
  /-- `mbb-unit-local-add` and `mbb-unit-local-del` -/
  | unitLocal (name : String) (isLocal : Bool)
  /-- `mbb-unit-add-inet` -/
  | unitAddInet (name : String) (inet : Inet) (exclusive : Bool) (nice : ℕ) (inherit : Bool)
  /-- `mbb-unit-drop-inet` -/
  | dropInet (id : Int)
  /-- `mbb-unit-clear-inet` -/
  | unitClearInet (name : String)
  /-- `mbb-unit-mod-inet-time` -/
  | unitModInetTime (id start stop : Int)
  /-- `mbb-unit-mod-inet-nice` -/
  | unitModInetNice (id : Int) (nice : ℕ)
  /-- `mbb-add-gwlink`; the name of the gateway may be an address -/
  | addGwlink (addr : Option ℕ) (gwName : String) (link : ℕ) (opName : String)
  /-- `mbb-drop-gwlink` -/
  | dropGwlink (id : Int)
  /-- `mbb-gwlink-mod-time` -/
  | gwlinkModTime (id start stop : Int)

namespace Office

/-- One command; `none` is a crash. -/
def exec (s : Office) (e : Env) : OfficeCmd → Option (Option MbbMsg × Office)
  | .addConsumer name => some (s.addConsumer e name)
  | .dropConsumer name => some (s.dropConsumer e name)
  | .consumerModName name newname => some (s.consumerModName e name newname)
  | .consumerModTime name start stop => some (s.consumerModTime e name start stop)
  | .consumerSetUser conName userName => some (s.consumerSetUser e conName userName)
  | .consumerUnsetUser name => some (s.consumerUnsetUser e name)
  | .addUnit name => some (s.addUnit e name)
  | .consumerAddUnit conName unitName inherit =>
    some (s.consumerAddUnit e conName unitName inherit)
  | .dropUnit name => some (s.dropUnit e name)
  | .unitModName name newname => some (s.unitModName e name newname)
  | .unitModTime name start stop => s.unitModTime e name start stop
  | .unitSetConsumer unitName conName => some (s.unitSetConsumer e unitName conName)
  | .unitUnsetConsumer name => some (s.unitUnsetConsumer e name)
  | .unitLocal name isLocal => some (s.unitLocalDo e name isLocal)
  | .unitAddInet name inet exclusive nice inherit =>
    some (s.unitAddInet e name inet exclusive nice inherit)
  | .dropInet id => some (s.dropInet e id)
  | .unitClearInet name => some (s.unitClearInet e name)
  | .unitModInetTime id start stop => some (s.unitModInetTime e id start stop)
  | .unitModInetNice id nice => some (s.unitModInetNice e id nice)
  | .addGwlink addr gwName link opName => some (s.addGwlink e addr gwName link opName)
  | .dropGwlink id => some (s.dropGwlink e id)
  | .gwlinkModTime id start stop => some (s.gwlinkModTime e id start stop)

/-- A step of a run in which every command is in `P`. -/
def Step (P : Office → Env → OfficeCmd → Prop) (s s' : Office) : Prop :=
  ∃ e c msg, P s e c ∧ s.exec e c = some (msg, s')

/-- The states of the runs from `s` in which every command is in `P`. -/
def Reaches (P : Office → Env → OfficeCmd → Prop) (s s' : Office) : Prop :=
  Relation.ReflTransGen (Step P) s s'

theorem Reaches.exec {P : Office → Env → OfficeCmd → Prop} {s₀ s : Office} {e : Env}
    {c : OfficeCmd} (h : Reaches P s₀ s) (hP : P s e c) {r : Option MbbMsg × Office}
    (hexec : s.exec e c = some r) : Reaches P s₀ r.2 :=
  Relation.ReflTransGen.tail h ⟨e, c, r.1, hP, hexec⟩

/-- Nothing in memory and nothing in the database. -/
def empty : Office :=
  ⟨⟨.empty, .empty, .empty, .empty, .empty, .empty, .empty⟩, ⟨.empty, .empty, .empty, .empty⟩⟩

end Office

end Mbb
