import Mbb.OfficeCmd

/-!
# What a command can do

A command leaves everything as it is, or changes memory and rows together, or changes
memory and then answers with an error.
-/

namespace Mbb

namespace Office

/-- `consumer_mod_time` passes its tests, and sets the times of this consumer. -/
structure ConsumerTimeSet (s : Office) (name : String) (start stop id : Int)
    (con : ConsumerRec) : Prop where
  /-- the arguments -/
  args : modTimeArgs start stop = none
  /-- the name -/
  found : s.mem.consumerByName name = some (id, con)
  /-- the order -/
  order : mbbTimeBecmp (timeOr start con.start) (timeOr stop con.stop) ≤ 0
  /-- units and entries -/
  units : con.units.all fun u => (s.mem.units.get? u).all
    (s.mem.unitTestTime (timeOr start con.start) (timeOr stop con.stop))

/-- `unit_mod_time` passes its tests, and sets the times of this unit. -/
structure UnitTimeSet (s : Office) (name : String) (start stop id : Int) (u : UnitRec) :
    Prop where
  /-- the arguments -/
  args : ¬ (start = mbbTimeUnset ∧ stop = mbbTimeUnset)
  /-- the name -/
  found : s.mem.unitByName name = some (id, u)
  /-- a consumer, where a time is to be that of the consumer -/
  parent : ¬ (u.con = none ∧ (start = mbbTimeParent ∨ stop = mbbTimeParent))
  /-- the order -/
  order : s.unitModTimeTest u (timeKeep start u.start) (timeKeep stop u.stop) = none
  /-- entries -/
  inets : s.mem.unitModTime id u (timeKeep start u.start) (timeKeep stop u.stop) =
    some (true, s.mem.setUnitTime id (timeKeep start u.start) (timeKeep stop u.stop))

/-- `gwlink_mod_time` passes its tests, and sets the times of this link. -/
structure GwlinkTimeSet (s : Office) (id start stop : Int) (r : GwLinkRec) (g : GatewayRec)
    (gl : MbbGwLink) (st : GwState) : Prop where
  /-- the arguments -/
  args : modTimeArgs start stop = none
  /-- the id -/
  found : s.mem.gwlinkById id = some (r, g, gl)
  /-- order and queue -/
  queue : g.st.gwlinkModTime id start stop = (none, st)

/-- Memory and rows after a command that succeeds and changes something. -/
inductive Commit (s : Office) (e : Env) : OfficeCmd → Office → Prop
  | /-- a consumer comes -/ addConsumer {name : String} {rows : Ledger Int ConsumerRow}
      (hrows : dbInsertRet s.db.consumers (e.db 0) e.id
        ⟨name, none, sqlTime e.now, sqlTime 0⟩ = some rows) :
      Commit s e (.addConsumer name)
        ⟨s.mem.consumerJoin e.id name e.now 0, { s.db with consumers := rows }⟩
  | /-- a consumer goes -/ dropConsumer {name : String} {id : Int} {con : ConsumerRec}
      (hcon : s.mem.consumers.get? id = some con) (hunits : con.units = []) :
      Commit s e (.dropConsumer name)
        ⟨(s.mem.leaveUser id con).consumerRemove id, s.db.consumerDrop id⟩
  | /-- a consumer is renamed -/ consumerModName {name newname : String} (id : Int) :
      Commit s e (.consumerModName name newname)
        ⟨{ s.mem with consumers := s.mem.consumers.modify id fun con =>
          { con with name := newname } }, s.db.consumerModName id newname⟩
  | /-- the times of a consumer -/ consumerModTime {name : String} {start stop id : Int}
      {con : ConsumerRec} (hset : s.ConsumerTimeSet name start stop id con) :
      Commit s e (.consumerModTime name start stop)
        ⟨s.mem.setConsumerTime id (timeOr start con.start) (timeOr stop con.stop),
          s.db.consumerModTime id (timeOr start con.start) (timeOr stop con.stop)⟩
  | /-- a consumer gets a user -/ consumerSetUser {conName userName : String} {id user : Int}
      {con : ConsumerRec} {r : MbbUser} (hcon : s.mem.consumers.get? id = some con)
      (huser : s.mem.users.get? user = some r) (hnone : con.user = none) :
      Commit s e (.consumerSetUser conName userName)
        ⟨(s.mem.userAddConsumer user id).setConsumerUser id (some user),
          s.db.consumerSetUser id (some user)⟩
  | /-- a consumer loses its user -/ consumerUnsetUser {name : String} {id user : Int}
      {con : ConsumerRec} (hcon : s.mem.consumers.get? id = some con)
      (huser : con.user = some user) :
      Commit s e (.consumerUnsetUser name)
        ⟨(s.mem.userDelConsumer user id).setConsumerUser id none, s.db.consumerSetUser id none⟩
  | /-- a unit comes -/ addUnit {name : String} {rows : Ledger Int UnitRow}
      (hrows : dbInsertRet s.db.units (e.db 0) e.id
        ⟨name, none, sqlTime e.now, sqlTime 0, false⟩ = some rows) :
      Commit s e (.addUnit name)
        ⟨s.mem.unitJoin e.id name none e.now 0, { s.db with units := rows }⟩
  | /-- a unit of a consumer comes -/ consumerAddUnit {conName unitName : String}
      {inherit : Bool} {con : Int} {r : ConsumerRec} {rows : Ledger Int UnitRow}
      (hcon : s.mem.consumers.get? con = some r) (hopen : inherit = true ∨ r.stop = 0)
      (hrows : dbInsertRet s.db.units (e.db 0) e.id
        ⟨unitName, some con, sqlTime (newStart e inherit), sqlTime (-1), false⟩ = some rows) :
      Commit s e (.consumerAddUnit conName unitName inherit)
        ⟨(s.mem.consumerAddUnit con e.id).unitJoin e.id unitName (some con)
          (newStart e inherit) (-1), { s.db with units := rows }⟩
  | /-- a unit goes -/ dropUnit {name : String} {id : Int} {u : UnitRec}
      (hu : s.mem.units.get? id = some u) (hsep : u.sep = []) :
      Commit s e (.dropUnit name) ⟨s.mem.unitRemove id u, s.db.unitDrop id⟩
  | /-- a unit is renamed -/ unitModName {name newname : String} (id : Int) :
      Commit s e (.unitModName name newname)
        ⟨{ s.mem with units := s.mem.units.modify id fun u => { u with name := newname } },
          s.db.unitModName id newname⟩
  | /-- the times of a unit -/ unitModTime {name : String} {start stop id : Int} {u : UnitRec}
      (hset : s.UnitTimeSet name start stop id u) :
      Commit s e (.unitModTime name start stop)
        ⟨s.mem.setUnitTime id (timeKeep start u.start) (timeKeep stop u.stop),
          s.db.unitModTime id (timeKeep start u.start) (timeKeep stop u.stop)⟩
  | /-- a unit gets a consumer -/ unitSetConsumer {unitName conName : String} {id con : Int}
      {u : UnitRec} {r : ConsumerRec} (hu : s.mem.units.get? id = some u)
      (hcon : s.mem.consumers.get? con = some r) (hnone : u.con = none) :
      Commit s e (.unitSetConsumer unitName conName)
        ⟨(s.mem.setUnitConsumer id (some con)).consumerAddUnit con id,
          s.db.unitSetConsumer id (some con)⟩
  | /-- a unit with times of its own loses its consumer -/ unitUnsetConsumer {name : String}
      {id con : Int} {u : UnitRec} (hu : s.mem.units.get? id = some u) (hcon : u.con = some con)
      (hown : 0 ≤ u.start ∧ 0 ≤ u.stop) :
      Commit s e (.unitUnsetConsumer name)
        ⟨(s.mem.consumerDelUnit con id).setUnitConsumer id none, s.db.unitSetConsumer id none⟩
  | /-- a unit loses its consumer and keeps the times it had there -/
    unitInheritTime {name : String} {id con : Int} {u : UnitRec}
      (hu : s.mem.units.get? id = some u) (hcon : u.con = some con) :
      Commit s e (.unitUnsetConsumer name)
        ⟨((s.mem.consumerDelUnit con id).setUnitTime id (s.mem.unitGetStart u)
            (s.mem.unitGetEnd u)).setUnitConsumer id none,
          (s.db.unitModTime id (s.mem.unitGetStart u) (s.mem.unitGetEnd u)).unitSetConsumer id
            none⟩
  | /-- the local flag of a unit -/ unitLocal {name : String} {isLocal : Bool} (id : Int) :
      Commit s e (.unitLocal name isLocal)
        ⟨s.mem.setUnitLocal id isLocal, s.db.unitModLocal id isLocal⟩
  | /-- an entry comes -/ unitAddInet {name : String} {inet : Inet} {exclusive : Bool} {nice : ℕ}
      {inherit : Bool} {id : Int} {u : UnitRec} {rows : Ledger Int InetRow}
      (hu : s.mem.unitByName name = some (id, u)) (hopen : inherit = true ∨ s.mem.unitGetEnd u = 0)
      (hrows : dbInsertRet s.db.unitIpPool (e.db 0) e.id
        ⟨id, inet, !exclusive, sqlTime (newStart e inherit), sqlTime (-1), toGint nice⟩ =
          some rows) :
      Commit s e (.unitAddInet name inet exclusive nice inherit)
        ⟨s.mem.unitAddInet e.id ⟨inet, !exclusive, newStart e inherit, -1, nice, id⟩,
          { s.db with unitIpPool := rows }⟩
  | /-- an entry goes -/ dropInet {id : Int} {entry : EntryRec}
      (hentry : s.mem.inets.get? id = some entry) :
      Commit s e (.dropInet id) ⟨s.mem.unitDelInet id entry, s.db.inetPoolDrop id⟩
  | /-- the entries of a unit go -/ unitClearInet {name : String} {id : Int} {u : UnitRec}
      (hu : s.mem.units.get? id = some u) :
      Commit s e (.unitClearInet name) ⟨s.mem.unitClearInet id u, s.db.inetPoolClear id⟩
  | /-- the times of an entry -/ unitModInetTime {id start stop : Int} {entry : EntryRec}
      (hentry : s.mem.inets.get? id = some entry)
      (htest : s.inetTimeTest entry (timeKeep start entry.start) (timeKeep stop entry.stop) =
        none) (hdb : e.db 0 = true) :
      Commit s e (.unitModInetTime id start stop)
        ⟨s.mem.setEntryTime id (timeKeep start entry.start) (timeKeep stop entry.stop),
          s.db.inetPoolModTime id (timeKeep start entry.start) (timeKeep stop entry.stop)⟩
  | /-- the priority of an entry -/ unitModInetNice {id : Int} {nice : ℕ} {entry : EntryRec}
      (hentry : s.mem.inets.get? id = some entry) (hnice : entry.nice ≠ nice)
      (hdb : e.db 0 = true) :
      Commit s e (.unitModInetNice id nice)
        ⟨s.mem.setEntryNice id nice, s.db.inetPoolModNice id nice⟩
  | /-- a link comes -/ addGwlink {addr : Option ℕ} {gwName : String} {link : ℕ}
      {opName : String} {gw op : Int} {g : GatewayRec} {r : OperatorRec}
      {rows : Ledger Int GwlinkRow} {queues : MbbGateway}
      (hgw : s.mem.gatewayByEname addr gwName = some (gw, g))
      (hop : s.mem.operatorByName opName = some (op, r))
      (hcan : mbbGatewayCanAdd g.st.gw ⟨e.id, link, e.now, 0⟩ true = true)
      (hrows : dbInsertRet s.db.gwlinks (e.db 0) e.id
        ⟨op, gw, toGint link, sqlTime e.now, sqlTime 0⟩ = some rows)
      (hadd : mbbGatewayAddLink g.st.gw ⟨e.id, link, e.now, 0⟩ = (true, queues)) :
      Commit s e (.addGwlink addr gwName link opName)
        ⟨(s.mem.setGateway gw ⟨queues, ⟨e.id, link, e.now, 0⟩ :: g.st.links⟩).gwlinkJoin e.id
          ⟨op, gw⟩, { s.db with gwlinks := rows }⟩
  | /-- a link goes -/ dropGwlink {id : Int} {r : GwLinkRec} {g : GatewayRec} {gl : MbbGwLink}
      (hgl : s.mem.gwlinkById id = some (r, g, gl)) :
      Commit s e (.dropGwlink id)
        ⟨(s.mem.setGateway r.gw (g.st.delLink id).2).gwlinkDetach id r, s.db.gwlinkDrop id⟩
  | /-- the times of a link -/ gwlinkModTime {id start stop : Int} {r : GwLinkRec}
      {g : GatewayRec} {gl : MbbGwLink} {st : GwState}
      (hset : s.GwlinkTimeSet id start stop r g gl st) :
      Commit s e (.gwlinkModTime id start stop)
        ⟨s.mem.setGateway r.gw st,
          s.db.gwlinkModTime id (timeOr start gl.start) (timeOr stop gl.stop)⟩

/-- Memory and rows after a command that has changed memory when it answers with an
error. -/
inductive Slip (s : Office) (e : Env) : OfficeCmd → Office → Prop
  | /-- the database fails -/ consumerModTime {name : String} {start stop id : Int}
      {con : ConsumerRec} (hset : s.ConsumerTimeSet name start stop id con)
      (hdb : e.db 0 = false) :
      Slip s e (.consumerModTime name start stop)
        ⟨s.mem.setConsumerTime id (timeOr start con.start) (timeOr stop con.stop), s.db⟩
  | /-- the database fails -/ unitModTime {name : String} {start stop id : Int} {u : UnitRec}
      (hset : s.UnitTimeSet name start stop id u) (hdb : e.db 0 = false) :
      Slip s e (.unitModTime name start stop)
        ⟨s.mem.setUnitTime id (timeKeep start u.start) (timeKeep stop u.stop), s.db⟩
  | /-- one of two calls to the database fails -/ unitUnsetConsumer {name : String}
      {s' : Office} {id : Int} {u : UnitRec} (hu : s.mem.unitByName name = some (id, u))
      (hcon : u.con ≠ none)
      (hdb : e.db 0 = false ∨ (u.start < 0 ∨ u.stop < 0) ∧ e.db 1 = false) :
      Slip s e (.unitUnsetConsumer name) s'
  | /-- the order test fails -/ unitModInetTime {id start stop : Int} {entry : EntryRec}
      {msg : MbbMsg} (hentry : s.mem.inets.get? id = some entry)
      (htest : s.inetTimeTest entry (timeKeep start entry.start) (timeKeep stop entry.stop) =
        some msg) :
      Slip s e (.unitModInetTime id start stop)
        ⟨s.mem.setEntryTime id (timeKeep start entry.start) (timeKeep stop entry.stop), s.db⟩
  | /-- the database fails -/ gwlinkModTime {id start stop : Int} {r : GwLinkRec}
      {g : GatewayRec} {gl : MbbGwLink} {st : GwState}
      (hset : s.GwlinkTimeSet id start stop r g gl st) (hdb : e.db 0 = false) :
      Slip s e (.gwlinkModTime id start stop) { s with mem := s.mem.setGateway r.gw st }
  | /-- a collision: the link is put back -/ gwlinkCollision {id start stop : Int}
      {r : GwLinkRec} {g : GatewayRec} {gl : MbbGwLink} {st : GwState} {msg : MbbMsg}
      (hgl : s.mem.gwlinkById id = some (r, g, gl))
      (hmod : g.st.gwlinkModTime id start stop = (some msg, st)) :
      Slip s e (.gwlinkModTime id start stop) { s with mem := s.mem.setGateway r.gw st }

/-- What the answer of a command and the state after it can be. -/
def Outcome (s : Office) (e : Env) (c : OfficeCmd) (r : Option MbbMsg × Office) : Prop :=
  r.2 = s ∨ (r.1 = none ∧ Commit s e c r.2) ∨ (r.1 ≠ none ∧ Slip s e c r.2)

variable {s : Office} {e : Env} {c : OfficeCmd}

theorem Outcome.same {msg : Option MbbMsg} : Outcome s e c (msg, s) := Or.inl rfl

theorem Outcome.commit {s' : Office} (h : Commit s e c s') : Outcome s e c (none, s') :=
  Or.inr (Or.inl ⟨rfl, h⟩)

theorem Outcome.slip {s' : Office} {msg : MbbMsg} (h : Slip s e c s') :
    Outcome s e c (some msg, s') := Or.inr (Or.inr ⟨Option.some_ne_none msg, h⟩)

/-! ## Consumers

Each command has one lemma that says all it can do. What holds in every run is derived from these
and not from the commands.
-/

theorem addConsumer_outcome (name : String) :
    Outcome s e (.addConsumer name) (s.addConsumer e name) := by
  rw [addConsumer]
  split
  · exact .same
  · split
    · exact .same
    · rename_i rows hrows
      exact .commit (.addConsumer hrows)

theorem dropConsumer_outcome (name : String) :
    Outcome s e (.dropConsumer name) (s.dropConsumer e name) := by
  rw [dropConsumer]
  split
  · exact .same
  · rename_i id con hfind
    by_cases hunits : con.units ≠ []
    · rw [if_pos hunits]
      exact .same
    · rw [if_neg hunits]
      split
      · exact .commit (.dropConsumer (Ledger.get?_of_find? hfind) (not_not.mp hunits))
      · exact .same

theorem consumerModName_outcome (name newname : String) :
    Outcome s e (.consumerModName name newname) (s.consumerModName e name newname) := by
  rw [consumerModName]
  split
  · exact .same
  · rename_i id con _
    cases hnew : s.mem.consumerByName newname with
    | some r => exact .same
    | none =>
      -- the name is not taken, so that `UNPOSSIBLE` is
      have hmod : s.mem.consumerModName id newname =
          (true, { s.mem with consumers := s.mem.consumers.modify id fun con =>
            { con with name := newname } }) := by
        rw [Records.consumerModName, hnew]
      simp only [hmod]
      split
      · exact .commit (.consumerModName id)
      · exact .same

theorem consumerModTime_outcome (name : String) (start stop : Int) :
    Outcome s e (.consumerModTime name start stop) (s.consumerModTime e name start stop) := by
  rw [consumerModTime]
  split
  · exact .same
  · rename_i hargs
    split
    · exact .same
    · rename_i id con hfind
      simp only
      by_cases hle : mbbTimeBecmp (timeOr start con.start) (timeOr stop con.stop) > 0
      · rw [if_pos hle]
        exact .same
      · rw [if_neg hle, Records.consumerModTime, if_neg hle]
        by_cases htest : (con.units.all fun u => (s.mem.units.get? u).all
            (s.mem.unitTestTime (timeOr start con.start) (timeOr stop con.stop))) = true
        · rw [if_pos htest]
          have hset : s.ConsumerTimeSet name start stop id con :=
            ⟨hargs, hfind, not_lt.mp hle, htest⟩
          by_cases hdb : e.db 0 = true
          · simp only [if_pos hdb]
            exact .commit (.consumerModTime hset)
          · simp only [if_neg hdb]
            exact .slip (.consumerModTime hset (Bool.not_eq_true _ ▸ hdb))
        · rw [if_neg htest]
          exact .same

theorem consumerSetUser_outcome (conName userName : String) :
    Outcome s e (.consumerSetUser conName userName) (s.consumerSetUser e conName userName) := by
  rw [consumerSetUser]
  split
  · exact .same
  · rename_i id con hcon
    split
    · exact .same
    · rename_i user r huser
      by_cases hnone : con.user ≠ none
      · rw [if_pos hnone]
        exact .same
      · rw [if_neg hnone]
        split
        · exact .commit (.consumerSetUser (Ledger.get?_of_find? hcon)
            (Ledger.get?_of_find? huser) (not_not.mp hnone))
        · exact .same

theorem consumerUnsetUser_outcome (name : String) :
    Outcome s e (.consumerUnsetUser name) (s.consumerUnsetUser e name) := by
  rw [consumerUnsetUser]
  split
  · exact .same
  · rename_i id con hcon
    cases huser : con.user with
    | none => exact .same
    | some user =>
      simp only
      split
      · exact .commit (.consumerUnsetUser (Ledger.get?_of_find? hcon) huser)
      · exact .same

/-! ## Units

Units inherit times from their consumer, so a command on a unit may be refused for times it does not
set.
-/

theorem addUnit_outcome (name : String) : Outcome s e (.addUnit name) (s.addUnit e name) := by
  rw [addUnit]
  split
  · exact .same
  · rw [unitCreate]
    simp only [Option.isSome_none, Bool.and_false, newStart, Bool.false_eq_true, if_false]
    cases hrows : dbInsertRet s.db.units (e.db 0) e.id
        ⟨name, none, sqlTime e.now, sqlTime 0, false⟩ with
    | none => exact .same
    | some rows => exact .commit (.addUnit hrows)

theorem consumerAddUnit_outcome (conName unitName : String) (inherit : Bool) :
    Outcome s e (.consumerAddUnit conName unitName inherit)
      (s.consumerAddUnit e conName unitName inherit) := by
  rw [consumerAddUnit]
  split
  · exact .same
  · rename_i con r hcon
    by_cases hfreezed : inherit = false ∧ r.stop ≠ 0
    · rw [if_pos hfreezed]
      exact .same
    · rw [if_neg hfreezed]
      have hopen : inherit = true ∨ r.stop = 0 := by
        rcases inherit with _ | _
        · exact Or.inr (not_not.mp fun h => hfreezed ⟨rfl, h⟩)
        · exact Or.inl rfl
      split
      · exact .same
      · rw [unitCreate]
        simp only [Option.isSome_some, Bool.and_true, if_true]
        cases hrows : dbInsertRet s.db.units (e.db 0) e.id
            ⟨unitName, some con, sqlTime (newStart e inherit), sqlTime (-1), false⟩ with
        | none => exact .same
        | some rows =>
          exact .commit (.consumerAddUnit (Ledger.get?_of_find? hcon) hopen hrows)

theorem dropUnit_outcome (name : String) : Outcome s e (.dropUnit name) (s.dropUnit e name) := by
  rw [dropUnit]
  split
  · exact .same
  · rename_i id u hfind
    by_cases hsep : u.sep ≠ []
    · rw [if_pos hsep]
      exact .same
    · rw [if_neg hsep]
      split
      · exact .commit (.dropUnit (Ledger.get?_of_find? hfind) (not_not.mp hsep))
      · exact .same

theorem unitModName_outcome (name newname : String) :
    Outcome s e (.unitModName name newname) (s.unitModName e name newname) := by
  rw [unitModName]
  split
  · exact .same
  · rename_i id u _
    cases hnew : s.mem.unitByName newname with
    | some r => exact .same
    | none =>
      have hmod : s.mem.unitModName id newname =
          (true, { s.mem with units := s.mem.units.modify id fun u =>
            { u with name := newname } }) := by
        rw [Records.unitModName, hnew]
      simp only [hmod]
      split
      · exact .commit (.unitModName id)
      · exact .same

/-- `mbb_unit_mod_time` changes the times or nothing. -/
theorem unitModTime_cases {mem mem' : Records} {id : Int} {u : UnitRec} {start stop : Int}
    {ok : Bool} (h : mem.unitModTime id u start stop = some (ok, mem')) :
    mem' = if ok then mem.setUnitTime id start stop else mem := by
  rw [Records.unitModTime] at h
  split at h
  · split at h
    · cases h
    · split at h <;> cases h <;> rfl
  · split at h <;> cases h <;> rfl

theorem unitModTime_outcome (name : String) (start stop : Int) {r : Option MbbMsg × Office}
    (h : s.unitModTime e name start stop = some r) :
    Outcome s e (.unitModTime name start stop) r := by
  rw [unitModTime] at h
  split at h
  · cases h
    exact .same
  · rename_i hargs
    split at h
    · cases h
      exact .same
    · rename_i id u hfind
      split at h
      · cases h
        exact .same
      · rename_i hparent
        simp only at h
        cases htest : s.unitModTimeTest u (timeKeep start u.start) (timeKeep stop u.stop) with
        | some msg =>
          rw [htest] at h
          cases h
          exact .same
        | none =>
          rw [htest] at h
          simp only at h
          cases hmod : s.mem.unitModTime id u (timeKeep start u.start)
              (timeKeep stop u.stop) with
          | none =>
            rw [hmod] at h
            cases h
          | some p =>
            obtain ⟨ok, mem⟩ := p
            have hmem := unitModTime_cases hmod
            rw [hmod] at h
            cases ok with
            | false =>
              obtain rfl : mem = s.mem := hmem
              cases h
              exact .same
            | true =>
              simp only at h
              obtain rfl : mem = _ := hmem
              have hset : s.UnitTimeSet name start stop id u :=
                ⟨hargs, hfind, hparent, htest, hmod⟩
              by_cases hdb : e.db 0 = true
              · rw [if_pos hdb] at h
                cases h
                exact .commit (.unitModTime hset)
              · rw [if_neg hdb] at h
                cases h
                exact .slip (.unitModTime hset (Bool.not_eq_true _ ▸ hdb))

theorem unitSetConsumer_outcome (unitName conName : String) :
    Outcome s e (.unitSetConsumer unitName conName) (s.unitSetConsumer e unitName conName) := by
  rw [unitSetConsumer]
  split
  · exact .same
  · rename_i id u hu
    split
    · exact .same
    · rename_i con r hcon
      by_cases hnone : u.con ≠ none
      · rw [if_pos hnone]
        exact .same
      · rw [if_neg hnone]
        split
        · exact .commit (.unitSetConsumer (Ledger.get?_of_find? hu)
            (Ledger.get?_of_find? hcon) (not_not.mp hnone))
        · exact .same

theorem unitUnsetConsumer_outcome (name : String) :
    Outcome s e (.unitUnsetConsumer name) (s.unitUnsetConsumer e name) := by
  rw [unitUnsetConsumer]
  split
  · exact .same
  · rename_i id u hfind
    have hu : s.mem.units.get? id = some u := Ledger.get?_of_find? hfind
    cases hcon : u.con with
    | none => exact .same
    | some con =>
      have hne : u.con ≠ none := hcon ▸ Option.some_ne_none con
      simp only
      by_cases hneg : u.start < 0 ∨ u.stop < 0
      · rw [if_pos hneg]
        by_cases h0 : e.db 0 = true
        · rw [if_pos h0]
          by_cases h1 : e.db 1 = true
          · rw [if_pos h1]
            exact .commit (.unitInheritTime hu hcon)
          · rw [if_neg h1]
            exact .slip (.unitUnsetConsumer hfind hne
              (Or.inr ⟨hneg, Bool.not_eq_true _ ▸ h1⟩))
        · rw [if_neg h0]
          exact .slip (.unitUnsetConsumer hfind hne (Or.inl (Bool.not_eq_true _ ▸ h0)))
      · rw [if_neg hneg]
        rw [not_or, not_lt, not_lt] at hneg
        by_cases h0 : e.db 0 = true
        · rw [if_pos h0]
          exact .commit (.unitUnsetConsumer hu hcon hneg)
        · rw [if_neg h0]
          exact .slip (.unitUnsetConsumer hfind hne (Or.inl (Bool.not_eq_true _ ▸ h0)))

theorem unitLocalDo_outcome (name : String) (isLocal : Bool) :
    Outcome s e (.unitLocal name isLocal) (s.unitLocalDo e name isLocal) := by
  rw [unitLocalDo]
  split
  · exact .same
  · rename_i id u _
    split
    · exact .same
    · split
      · exact .commit (.unitLocal id)
      · exact .same

/-! ## Inet entries

Commands on the entries of a unit; one of them drops them all.
-/

theorem unitAddInet_outcome (name : String) (inet : Inet) (exclusive : Bool) (nice : ℕ)
    (inherit : Bool) :
    Outcome s e (.unitAddInet name inet exclusive nice inherit)
      (s.unitAddInet e name inet exclusive nice inherit) := by
  rw [unitAddInet]
  split
  · exact .same
  · rename_i id u hfind
    by_cases hfreezed : inherit = false ∧ s.mem.unitGetEnd u ≠ 0
    · rw [if_pos hfreezed]
      exact .same
    · rw [if_neg hfreezed]
      have hopen : inherit = true ∨ s.mem.unitGetEnd u = 0 := by
        rcases inherit with _ | _
        · exact Or.inr (not_not.mp fun h => hfreezed ⟨rfl, h⟩)
        · exact Or.inl rfl
      simp only
      split
      · exact .same
      · rename_i rows hrows
        exact .commit (.unitAddInet hfind hopen hrows)

theorem dropInet_outcome (id : Int) : Outcome s e (.dropInet id) (s.dropInet e id) := by
  rw [dropInet]
  split
  · exact .same
  · rename_i entry hentry
    split
    · exact .commit (.dropInet hentry)
    · exact .same

theorem unitClearInet_outcome (name : String) :
    Outcome s e (.unitClearInet name) (s.unitClearInet e name) := by
  rw [unitClearInet]
  split
  · exact .same
  · rename_i id u hfind
    split
    · exact .commit (.unitClearInet (Ledger.get?_of_find? hfind))
    · exact .same

theorem unitModInetTime_outcome (id start stop : Int) :
    Outcome s e (.unitModInetTime id start stop) (s.unitModInetTime e id start stop) := by
  rw [unitModInetTime]
  split
  · exact .same
  · split
    · exact .same
    · rename_i entry hentry
      simp only
      split
      · rename_i msg htest
        exact .slip (.unitModInetTime hentry htest)
      · rename_i htest
        split
        · rename_i hdb
          exact .commit (.unitModInetTime hentry htest hdb)
        · exact .same

theorem unitModInetNice_outcome (id : Int) (nice : ℕ) :
    Outcome s e (.unitModInetNice id nice) (s.unitModInetNice e id nice) := by
  rw [unitModInetNice]
  split
  · exact .same
  · rename_i entry hentry
    split
    · exact .same
    · rename_i hnice
      split
      · rename_i hdb
        exact .commit (.unitModInetNice hentry hnice hdb)
      · exact .same

/-! ## Gateway links

A link is checked before its row is written and inserted after it, and the insertion does what the
check has promised.
-/

/-- An open link that can be added is later than every other. -/
theorem gwQueueInsertGl_of_canAdd {gl : MbbGwLink} (hstop : gl.stop = 0) {q : List MbbGwLink}
    (h : gwQueueCanAdd gl true q = true) : gwQueueInsertGl gl q = some (q ++ [gl]) := by
  induction q with
  | nil => rfl
  | cons cur q ih =>
    have hebcmp : ¬ mbbTimeEbcmp gl.stop cur.start < 0 := by
      rw [mbbTimeEbcmp_neg]
      exact fun h => h.1 hstop
    rw [gwQueueCanAdd, if_neg (by simp), if_neg hebcmp] at h
    rw [gwQueueInsertGl]
    by_cases hb : mbbTimeBecmp gl.start cur.stop > 0
    · rw [if_pos hb] at h
      rw [if_pos hb, ih h]
      rfl
    · rw [if_neg hb] at h
      cases h

/-- `mbb_gateway_add_link` cannot fail where `mbb_gateway_can_add` allows an open link. -/
theorem mbbGatewayAddLink_of_canAdd {gw : MbbGateway} {gl : MbbGwLink} (hstop : gl.stop = 0)
    (h : mbbGatewayCanAdd gw gl true = true) : ∃ gw', mbbGatewayAddLink gw gl = (true, gw') := by
  rw [mbbGatewayAddLink]
  cases hht : gw.ht with
  | none => exact ⟨_, rfl⟩
  | some ht =>
    cases hq : ht.lookup gl.link with
    | none =>
      simp only [hq]
      exact ⟨_, rfl⟩
    | some q =>
      rw [mbbGatewayCanAdd, MbbGateway.queue, hht, Option.bind_some, hq] at h
      simp only [hq, gwQueueInsertGl_of_canAdd hstop h]
      exact ⟨_, rfl⟩

theorem Records.get?_of_ename {mem : Records} {addr : Option ℕ} {ename : String}
    {r : Int × GatewayRec} (h : mem.gatewayByEname addr ename = some r) :
    mem.gateways.get? r.1 = some r.2 := by
  rw [Records.gatewayByEname] at h
  split at h
  · rename_i r' hfind
    obtain rfl := Option.some.inj h
    obtain ⟨a, -, ha⟩ := Option.bind_eq_some_iff.mp hfind
    exact Ledger.get?_of_find? ha
  · exact Ledger.get?_of_find? h

theorem addGwlink_outcome (addr : Option ℕ) (gwName : String) (link : ℕ) (opName : String) :
    Outcome s e (.addGwlink addr gwName link opName) (s.addGwlink e addr gwName link opName) := by
  rw [addGwlink]
  split
  · exact .same
  · rename_i gw g hgw
    split
    · exact .same
    · rename_i op r hop
      simp only
      by_cases hcan : mbbGatewayCanAdd g.st.gw ⟨e.id, link, e.now, 0⟩ true = false
      · rw [if_pos hcan]
        exact .same
      · rw [if_neg hcan]
        split
        · exact .same
        -- what `mbb_gateway_can_add` allows cannot fail after the database, so `UNPOSSIBLE` is
        · rename_i rows hrows
          obtain ⟨queues, hadd⟩ := mbbGatewayAddLink_of_canAdd rfl ((Bool.not_eq_false _).mp hcan)
          simp only [hadd]
          exact .commit (.addGwlink hgw hop ((Bool.not_eq_false _).mp hcan) hrows hadd)

theorem dropGwlink_outcome (id : Int) : Outcome s e (.dropGwlink id) (s.dropGwlink e id) := by
  rw [dropGwlink]
  split
  · exact .same
  · rename_i r g gl hgl
    split
    · exact .commit (.dropGwlink hgl)
    · exact .same

theorem gwlinkModTime_outcome (id start stop : Int) :
    Outcome s e (.gwlinkModTime id start stop) (s.gwlinkModTime e id start stop) := by
  rw [gwlinkModTime]
  split
  · exact .same
  · rename_i hargs
    split
    · exact .same
    · rename_i r g gl hgl
      split
      -- that the queue is as before needs the invariant of the gateway
      · rename_i msg st hmod
        exact .slip (.gwlinkCollision hgl hmod)
      · rename_i st hmod
        have hset : s.GwlinkTimeSet id start stop r g gl st := ⟨hargs, hgl, hmod⟩
        by_cases hdb : e.db 0 = true
        · simp only [if_pos hdb]
          exact .commit (.gwlinkModTime hset)
        · simp only [if_neg hdb]
          exact .slip (.gwlinkModTime hset (Bool.not_eq_true _ ▸ hdb))

/-- Every command that does not crash has one of these outcomes. -/
theorem exec_outcome {r : Option MbbMsg × Office} (h : s.exec e c = some r) :
    Outcome s e c r := by
  cases c with
  | unitModTime name start stop => exact unitModTime_outcome name start stop h
  | addConsumer name => exact Option.some.inj h ▸ addConsumer_outcome name
  | dropConsumer name => exact Option.some.inj h ▸ dropConsumer_outcome name
  | consumerModName name newname =>
    exact Option.some.inj h ▸ consumerModName_outcome name newname
  | consumerModTime name start stop =>
    exact Option.some.inj h ▸ consumerModTime_outcome name start stop
  | consumerSetUser conName userName =>
    exact Option.some.inj h ▸ consumerSetUser_outcome conName userName
  | consumerUnsetUser name => exact Option.some.inj h ▸ consumerUnsetUser_outcome name
  | addUnit name => exact Option.some.inj h ▸ addUnit_outcome name
  | consumerAddUnit conName unitName inherit =>
    exact Option.some.inj h ▸ consumerAddUnit_outcome conName unitName inherit
  | dropUnit name => exact Option.some.inj h ▸ dropUnit_outcome name
  | unitModName name newname => exact Option.some.inj h ▸ unitModName_outcome name newname
  | unitSetConsumer unitName conName =>
    exact Option.some.inj h ▸ unitSetConsumer_outcome unitName conName
  | unitUnsetConsumer name => exact Option.some.inj h ▸ unitUnsetConsumer_outcome name
  | unitLocal name isLocal => exact Option.some.inj h ▸ unitLocalDo_outcome name isLocal
  | unitAddInet name inet exclusive nice inherit =>
    exact Option.some.inj h ▸ unitAddInet_outcome name inet exclusive nice inherit
  | dropInet id => exact Option.some.inj h ▸ dropInet_outcome id
  | unitClearInet name => exact Option.some.inj h ▸ unitClearInet_outcome name
  | unitModInetTime id start stop =>
    exact Option.some.inj h ▸ unitModInetTime_outcome id start stop
  | unitModInetNice id nice => exact Option.some.inj h ▸ unitModInetNice_outcome id nice
  | addGwlink addr gwName link opName =>
    exact Option.some.inj h ▸ addGwlink_outcome addr gwName link opName
  | dropGwlink id => exact Option.some.inj h ▸ dropGwlink_outcome id
  | gwlinkModTime id start stop => exact Option.some.inj h ▸ gwlinkModTime_outcome id start stop

end Office

end Mbb
