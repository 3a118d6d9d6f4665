import Mbb.DbLoad
import Mbb.OfficeLinks

/-!
# The rows that are loaded

The texts that the database shows for the columns of a row, and what the load makes of a row whose
texts are such: no warning, and the record that the row is of.
-/

namespace Mbb

/-! ## Texts of columns

What the database shows for a value, and that the conversion reads it back. `NULL` stands for what a
record does not have.
-/

/-- The text of an `integer` that is not negative. -/
def ShowsUint (c : Option String) (v : Int) : Prop :=
  ∃ s n, c = some s ∧ UintText (textBytes s) n ∧ n < 2 ^ 31 ∧ v = n

/-- The text of a reference. -/
def ShowsRef (c : Option String) : Option Int → Prop
  | none => c = none
  | some v => ShowsUint c v

/-- The text of a time, a `bigint` that is not negative. -/
def ShowsTime (c : Option String) : Option Int → Prop
  | none => c = none
  | some t => ∃ s n, c = some s ∧ UintText (textBytes s) n ∧ n < 2 ^ 63 ∧ t = n

/-- The text of a `boolean`. -/
def ShowsBool (c : Option String) (b : Bool) : Prop :=
  c = some (if b then "t" else "f") ∨ c = some (if b then "true" else "false")

theorem UintText.zero_notMem {s : List UInt8} {n : ℕ} (h : UintText s n) : 0 ∉ s :=
  fun h0 => absurd (h.1.2 0 h0) (by decide)

theorem convUint_shows {c : Option String} {v : Int} (h : ShowsUint c v) :
    ∃ n : ℕ, convUint c = .ok n ∧ toGint n = v ∧ v = n := by
  obtain ⟨s, n, rfl, htext, hlt, rfl⟩ := h
  have hok := (strConvToUint64_eq_ok htext.zero_notMem).mpr ⟨n, htext, by omega, rfl⟩
  refine ⟨n, ?_, toGint_of_lt (by omega) (by omega), rfl⟩
  rw [convUint, varConvUint_eq, hok]
  simp only [converted, if_true]
  exact congrArg Except.ok (by omega)

theorem convInt_shows {c : Option String} {p : Int} {v : Option Int} (h : ShowsRef c v) :
    convInt p c = .ok (v.getD p) ∧ ∀ n ∈ v, 0 ≤ n := by
  cases v with
  | none =>
    obtain rfl : c = none := h
    exact ⟨rfl, by simp⟩
  | some v =>
    obtain ⟨s, n, rfl, htext, hlt, rfl⟩ := h
    have hint : IntText [] (textBytes s) n :=
      ⟨[], textBytes s, false, rfl, by simp, .inl ⟨rfl, .inl rfl⟩, htext.1, by simp [htext.2]⟩
    have hok := (strConvToInt64_eq_ok htext.zero_notMem).mpr
      ⟨[], hint, by rw [gMinInt64]; omega, by rw [gMaxInt64]; omega⟩
    rw [convInt, varConvInt_eq, hok]
    simp [converted, toGint_of_lt (n := n) (by omega) (by omega)]

theorem convTime_shows {c : Option String} {p : Int} {v : Option Int} (h : ShowsTime c v) :
    convTime p c = .ok (v.getD p) := by
  cases v with
  | none =>
    obtain rfl : c = none := h
    rfl
  | some v =>
    obtain ⟨s, n, rfl, htext, hlt, rfl⟩ := h
    have hok := (strConvToUint64_eq_ok htext.zero_notMem).mpr ⟨n, htext, by omega, rfl⟩
    have hle : ¬ (n : Int) > gMaxLong := by
      rw [gMaxLong]
      omega
    rw [convTime, varConvUtime, hok]
    simp only [if_neg hle]
    rfl

theorem convBool_shows {c : Option String} {b : Bool} (h : ShowsBool c b) :
    convBool c = .ok b := by
  rcases h with rfl | rfl <;> cases b <;> rfl

/-- `atoipv4` reads what `ipv4toa` writes. -/
theorem atoipv4_ipv4toa {addr : ℕ} (h : addr < 2 ^ 32) :
    (atoipv4 (ipv4toa addr)).map BitVec.toNat = some addr := by
  have hbyte : ∀ n, ByteText (decimalText (n % 2 ^ 8)) (n % 2 ^ 8) := fun n =>
    byteText_decimalText (by omega)
  have hnil : ∀ ch ∈ ([] : List UInt8).head?, isDigit ch = false := by simp
  have hrun := strtoipv4_run (hbyte (addr / 2 ^ 24)) (hbyte (addr / 2 ^ 16))
    (hbyte (addr / 2 ^ 8)) (hbyte addr) hnil
  rw [List.append_nil] at hrun
  rw [ipv4toa_eq, dotted, atoipv4]
  simp only [hrun]
  rw [if_neg (by decide), Option.map_some, toNat_addrOf (by omega) (by omega) (by omega) (by omega)]
  congr 1
  omega

/-! ## Texts of rows

A row shows a record if each of its cells shows the member it stands for.
-/

/-- The texts of a consumer. -/
structure ConsumerCells.Shows (r : Int × ConsumerRow) (c : ConsumerCells) : Prop where
  /-- `consumer_id` -/
  id : ShowsUint c.id r.1
  /-- `consumer_name` -/
  name : c.name = r.2.name
  /-- `user_id` -/
  userId : ShowsRef c.userId r.2.userId
  /-- `time_start` -/
  timeStart : ShowsTime c.timeStart r.2.timeStart
  /-- `time_end` -/
  timeEnd : ShowsTime c.timeEnd r.2.timeEnd

/-- The texts of a unit. -/
structure UnitCells.Shows (r : Int × UnitRow) (c : UnitCells) : Prop where
  /-- `unit_id` -/
  id : ShowsUint c.id r.1
  /-- `unit_name` -/
  name : c.name = r.2.name
  /-- `consumer_id` -/
  consumerId : ShowsRef c.consumerId r.2.consumerId
  /-- `local` -/
  isLocal : ShowsBool c.isLocal r.2.isLocal
  /-- `time_start` -/
  timeStart : ShowsTime c.timeStart r.2.timeStart
  /-- `time_end` -/
  timeEnd : ShowsTime c.timeEnd r.2.timeEnd

/-- The texts of an entry. -/
structure InetCells.Shows (r : Int × InetRow) (c : InetCells) : Prop where
  /-- `self_id` -/
  id : ShowsUint c.id r.1
  /-- `unit_id` -/
  unitId : ShowsUint c.unitId r.2.unitId
  /-- `inet_addr` -/
  inet : InetText (textBytes c.inet) r.2.inet
  /-- `inet_flag` -/
  flag : ShowsBool c.flag r.2.flag
  /-- `time_start` -/
  timeStart : ShowsTime c.timeStart r.2.timeStart
  /-- `time_end` -/
  timeEnd : ShowsTime c.timeEnd r.2.timeEnd
  /-- `nice` -/
  nice : ShowsUint c.nice r.2.nice

/-- The texts of a gateway. -/
structure GatewayCells.Shows (r : Int × GatewayRec) (c : GatewayCells) : Prop where
  /-- `gw_id` -/
  id : ShowsUint c.id r.1
  /-- `gw_name` -/
  name : c.name = r.2.name
  /-- `gw_ip` -/
  ip : textBytes c.ip = ipv4toa r.2.st.gw.addr ∧ r.2.st.gw.addr < 2 ^ 32

/-- The texts of an operator. -/
structure OperatorCells.Shows (r : Int × OperatorRec) (c : OperatorCells) : Prop where
  /-- `oper_id` -/
  id : ShowsUint c.id r.1
  /-- `oper_name` -/
  name : c.name = r.2.name

/-- The texts of a gateway link. -/
structure GwlinkCells.Shows (r : Int × GwlinkRow) (c : GwlinkCells) : Prop where
  /-- `gwlink_id` -/
  id : ShowsUint c.id r.1
  /-- `oper_id` -/
  operId : ShowsUint c.operId r.2.operId
  /-- `gw_id` -/
  gwId : ShowsUint c.gwId r.2.gwId
  /-- `link` -/
  link : ShowsUint c.link r.2.link
  /-- `time_start` -/
  timeStart : ShowsTime c.timeStart r.2.timeStart
  /-- `time_end` -/
  timeEnd : ShowsTime c.timeEnd r.2.timeEnd

/-- The answer to a query has the rows of a table, in any order. -/
def ShowsTable {R C : Type} (Shows : Int × R → C → Prop) (l : Ledger Int R) (cells : List C) :
    Prop := ∃ rows : List (Int × R), rows.Perm l.rows ∧ List.Forall₂ Shows rows cells

/-! ## Tables

The loop makes the records of the rows one after the other; the order in which the rows come does
not matter for what is loaded in the end.
-/

section RowsView

variable {R V W : Type}

/-- What a list of rows has for each key. -/
def rowsView (f : R → V) (rows : List (Int × R)) (k : Int) : Option V :=
  (rows.find? fun r => decide (r.1 = k)).map fun r => f r.2

theorem rowsView_concat (f : R → V) {rows : List (Int × R)} {r : Int × R}
    (h : r.1 ∉ rows.map Prod.fst) :
    rowsView f (rows ++ [r]) = Function.update (rowsView f rows) r.1 (some (f r.2)) := by
  funext k
  rw [rowsView, List.find?_append, List.find?_singleton, Function.update_apply]
  by_cases hk : k = r.1
  · subst hk
    have hnone : rows.find? (fun r' => decide (r'.1 = r.1)) = none := by
      refine List.find?_eq_none.mpr fun r' hr' heq => h ?_
      exact List.mem_map.mpr ⟨r', hr', of_decide_eq_true heq⟩
    simp [hnone]
  · rw [if_neg hk, decide_eq_false fun h' => hk h'.symm]
    simp [rowsView]

/-- The order of the rows does not matter. -/
theorem rowsView_perm (f : R → V) {l : Ledger Int R} {rows : List (Int × R)}
    (h : rows.Perm l.rows) : rowsView f rows = l.col f := by
  have hnd : (rows.map Prod.fst).Nodup := (h.map Prod.fst).nodup_iff.mpr l.nodup
  funext k
  have hget : Ledger.get? ⟨rows, hnd⟩ k = l.get? k := by
    cases hk : l.get? k with
    | none =>
      rw [Ledger.get?_eq_none] at hk ⊢
      exact fun hm => hk ((h.map Prod.fst).mem_iff.mp hm)
    | some v =>
      obtain ⟨r, hr, hrv⟩ := Option.map_eq_some_iff.mp hk
      have hmem := h.mem_iff.mpr (List.mem_of_find?_eq_some hr)
      have hkey : r.1 = k := by simpa using List.find?_some hr
      rw [← hkey, ← hrv]
      exact Ledger.get?_of_mem (l := ⟨rows, hnd⟩) hmem
  rw [Ledger.col, ← hget, Ledger.get?, Option.map_map]
  rfl

end RowsView

/-- **A load of rows that are all accepted.** `P` holds of the records after the rows so far. -/
theorem mbbDbLoadLoop_run {R C : Type} {func : C → Records → Except DbLoadError LoadedRow}
    {Shows : R → C → Prop} {P : List R → Records → Prop} {cells : List C} {warnings : List String} :
    ∀ {done rows : List R} {mem : Records} {trash : List (Records → Records)},
      (∀ pre r post c mem, pre ++ r :: post = done ++ rows → Shows r c → P pre mem →
        ∃ x, func c mem = .ok x ∧ x.warning = none ∧ P (pre ++ [r]) x.mem) →
      List.Forall₂ Shows rows cells → P done mem →
      ∃ mem', mbbDbLoadLoop func cells trash mem warnings = (none, mem', warnings) ∧
        P (done ++ rows) mem' := by
  induction cells with
  | nil =>
    intro done rows mem trash _ hrows hP
    cases hrows
    exact ⟨mem, rfl, (List.append_nil done).symm ▸ hP⟩
  | cons c cells ih =>
    intro done rows mem trash hstep hrows hP
    cases hrows with
    | cons hr hrest =>
      rename_i r rows
      obtain ⟨x, hx, hwarn, hP'⟩ := hstep done r rows c mem rfl hr hP
      have hassoc : done ++ [r] ++ rows = done ++ r :: rows := by simp
      rw [mbbDbLoadLoop, hx]
      simp only [hwarn, Option.toList_none, List.append_nil]
      rw [← hassoc] at hstep ⊢
      exact ih hstep hrest hP'

/-! ## Consumers -/

/-- What a row of a consumer says, without its units. -/
def ConsumerRec.kept (r : ConsumerRec) : String × Int × Int × Option Int :=
  (r.name, r.start, r.stop, r.user)

/-- The same of the row. -/
def ConsumerRow.loaded (r : ConsumerRow) : String × Int × Int × Option Int :=
  (r.name, r.timeStart.getD 0, r.timeEnd.getD 0, r.userId)

/-- A user without its consumers. -/
def MbbUser.kept (u : MbbUser) : String × Option String × BitVec 32 := (u.name, u.secret, u.capMask)

theorem loadConsumers_row {mem : Records} {r : Int × ConsumerRow} {c : ConsumerCells}
    (hc : c.Shows r) (h : mem.Coherent) (hfresh : mem.consumers.get? r.1 = none)
    (huser : ∀ u ∈ r.2.userId, ∃ v, mem.users.get? u = some v) :
    ∃ x, loadConsumers c mem = .ok x ∧ x.warning = none ∧ x.mem.Coherent ∧
      x.mem.consumers.col ConsumerRec.kept =
        Function.update (mem.consumers.col ConsumerRec.kept) r.1 (some r.2.loaded) ∧
      x.mem.users.col MbbUser.kept = mem.users.col MbbUser.kept ∧
      ∃ consumers users, x.mem = { mem with consumers, users } := by
  obtain ⟨id, row⟩ := r
  obtain ⟨n, hn, hn', -⟩ := convUint_shows hc.id
  obtain ⟨hid, hpos⟩ := convInt_shows (p := -1) hc.userId
  have hstart := convTime_shows (p := 0) hc.timeStart
  have hstop := convTime_shows (p := 0) hc.timeEnd
  have hjoin := h.consumerJoin hfresh row.name (row.timeStart.getD 0) (row.timeEnd.getD 0)
  simp only [loadConsumers, hn, hn', hid, hstart, hstop, hc.name, bind, Except.bind]
  cases hu : row.userId with
  | none =>
    rw [Option.getD_none, if_neg (by decide)]
    refine ⟨_, rfl, rfl, hjoin, ?_, rfl, _, _, rfl⟩
    change (mem.consumers.put _ _).col _ = _
    rw [Ledger.col_put, ConsumerRow.loaded, hu]
    rfl
  | some user =>
    have h0 : 0 ≤ user := hpos user hu
    obtain ⟨v, hv⟩ := huser user hu
    have hget : (mem.consumers.put id
        ⟨row.name, row.timeStart.getD 0, row.timeEnd.getD 0, none, []⟩).get? id =
          some ⟨row.name, row.timeStart.getD 0, row.timeEnd.getD 0, none, []⟩ := by
      rw [Ledger.get?_put, if_pos rfl]
    rw [Option.getD_some, if_pos h0]
    simp only [show (mem.consumerJoin id row.name (row.timeStart.getD 0)
      (row.timeEnd.getD 0)).users.get? user = some v from hv]
    refine ⟨_, rfl, rfl, hjoin.setUser hget hv rfl, ?_, ?_, _, _, rfl⟩
    · change ((mem.consumers.put _ _).modify _ _).col _ = _
      rw [Ledger.col_modify hget, Ledger.col_put, Function.update_idem, ConsumerRow.loaded, hu]
      rfl
    · exact Ledger.col_modify_same (by intro u; rfl) _ _

/-! ## Units -/

/-- What a row of a unit says, without its entries. -/
def UnitRec.kept (u : UnitRec) : String × Option Int × Int × Int × Bool :=
  (u.name, u.con, u.start, u.stop, u.isLocal)

/-- The same of the row. -/
def UnitRow.loaded (r : UnitRow) : String × Option Int × Int × Int × Bool :=
  (r.name, r.consumerId, r.timeStart.getD (-1), r.timeEnd.getD (-1), r.isLocal)

theorem loadUnits_row {mem : Records} {r : Int × UnitRow} {c : UnitCells}
    (hc : c.Shows r) (h : mem.Coherent) (hfresh : mem.units.get? r.1 = none)
    (hcon : ∀ k ∈ r.2.consumerId, ∃ v, mem.consumers.get? k = some v) :
    ∃ x, loadUnits c mem = .ok x ∧ x.warning = none ∧ x.mem.Coherent ∧
      x.mem.units.col UnitRec.kept =
        Function.update (mem.units.col UnitRec.kept) r.1 (some r.2.loaded) ∧
      x.mem.consumers.col ConsumerRec.kept = mem.consumers.col ConsumerRec.kept ∧
      ∃ consumers units, x.mem = { mem with consumers, units } := by
  obtain ⟨id, row⟩ := r
  obtain ⟨n, hn, hn', -⟩ := convUint_shows hc.id
  obtain ⟨hid, hpos⟩ := convInt_shows (p := -1) hc.consumerId
  have hlocal := convBool_shows hc.isLocal
  have hstart := convTime_shows (p := -1) hc.timeStart
  have hstop := convTime_shows (p := -1) hc.timeEnd
  have hjoin := (h.unitJoin hfresh row.name (row.timeStart.getD (-1))
    (row.timeEnd.getD (-1))).modUnit (f := fun u => { u with isLocal := row.isLocal })
    (by intro u; rfl) (by intro u; rfl) id
  simp only [loadUnits, hn, hn', hid, hlocal, hstart, hstop, hc.name, bind, Except.bind]
  -- the unit before it is given to its consumer
  have hget : ((mem.units.put id
      ⟨row.name, none, row.timeStart.getD (-1), row.timeEnd.getD (-1), false, []⟩).modify id
        fun u => { u with isLocal := row.isLocal }).get? id =
      some ⟨row.name, none, row.timeStart.getD (-1), row.timeEnd.getD (-1), row.isLocal, []⟩ := by
    rw [Ledger.get?_modify, if_pos rfl, Ledger.get?_put, if_pos rfl]
    rfl
  have hput : ((mem.units.put id
      ⟨row.name, none, row.timeStart.getD (-1), row.timeEnd.getD (-1), false, []⟩).modify id
        fun u => { u with isLocal := row.isLocal }).col UnitRec.kept =
      Function.update (mem.units.col UnitRec.kept) id
        (some (row.name, none, row.timeStart.getD (-1), row.timeEnd.getD (-1), row.isLocal)) := by
    rw [Ledger.col_modify (by rw [Ledger.get?_put, if_pos rfl]), Ledger.col_put,
      Function.update_idem]
    rfl
  cases hk : row.consumerId with
  | none =>
    rw [Option.getD_none, if_neg (by decide)]
    refine ⟨_, rfl, rfl, hjoin, ?_, rfl, _, _, rfl⟩
    rw [UnitRow.loaded, hk]
    exact hput
  | some con =>
    have h0 : 0 ≤ con := hpos con hk
    obtain ⟨v, hv⟩ := hcon con hk
    rw [Option.getD_some, if_pos h0]
    simp only [show ((mem.unitJoin id row.name none (row.timeStart.getD (-1))
      (row.timeEnd.getD (-1))).setUnitLocal id row.isLocal).consumers.get? con = some v
      from hv]
    refine ⟨_, rfl, rfl, hjoin.setConsumer hget hv rfl, ?_, ?_, _, _, rfl⟩
    · refine (Ledger.col_modify hget _ _).trans ?_
      rw [hput, Function.update_idem, UnitRow.loaded, hk]
      rfl
    · exact Ledger.col_modify_same (by intro u; rfl) _ _

/-! ## Entries -/

/-- What a row of an entry says. -/
def InetRow.loaded (r : InetRow) : EntryRec :=
  ⟨r.inet, r.flag, r.timeStart.getD (-1), r.timeEnd.getD (-1), r.nice.toNat, r.unitId⟩

theorem loadIpPool_row {mem : Records} {r : Int × InetRow} {c : InetCells}
    (hc : c.Shows r) (h : mem.Coherent) (hfresh : mem.inets.get? r.1 = none)
    {u : UnitRec} (hu : mem.units.get? r.2.unitId = some u) :
    ∃ x, loadIpPool c mem = .ok x ∧ x.warning = none ∧ x.mem.Coherent ∧
      x.mem.inets.get? = Function.update mem.inets.get? r.1 (some r.2.loaded) ∧
      x.mem.units.col UnitRec.kept = mem.units.col UnitRec.kept ∧
      ∃ units inets, x.mem = { mem with units, inets } := by
  obtain ⟨id, row⟩ := r
  obtain ⟨n, hn, hn', -⟩ := convUint_shows hc.id
  obtain ⟨m, hm, hm', -⟩ := convUint_shows hc.unitId
  obtain ⟨k, hk, -, hk'⟩ := convUint_shows hc.nice
  have hinet := (atoinet_eq_some (textBytes c.inet) none row.inet).mpr hc.inet
  have hflag := convBool_shows hc.flag
  have hstart := convTime_shows (p := -1) hc.timeStart
  have hstop := convTime_shows (p := -1) hc.timeEnd
  obtain rfl : row.nice.toNat = k := by rw [hk', Int.toNat_natCast]
  simp only [loadIpPool, hn, hn', hm, hm', hu, hinet, hflag, hstart, hstop, hk, bind, Except.bind]
  have howner : mem.units.get? row.loaded.owner = some u := hu
  refine ⟨_, rfl, rfl, h.unitAddInet howner hfresh, ?_, ?_, _, _, rfl⟩
  · funext k
    change (mem.inets.put _ _).get? k = _
    rw [Ledger.get?_put, Function.update_apply]
    rfl
  · exact Ledger.col_modify_same (by intro u; rfl) _ _

/-! ## Gateways and operators -/

theorem loadGateway_row {mem : Records} {r : Int × GatewayRec} {c : GatewayCells}
    (hc : c.Shows r) :
    ∃ x, loadGateway c mem = .ok x ∧ x.warning = none ∧
      x.mem = { mem with
        gateways := mem.gateways.put r.1 ⟨r.2.name, GwState.new r.1 r.2.st.gw.addr⟩ } := by
  obtain ⟨id, g⟩ := r
  obtain ⟨n, hn, hn', -⟩ := convUint_shows hc.id
  have hip := atoipv4_ipv4toa hc.ip.2
  rw [← hc.ip.1] at hip
  obtain ⟨addr, haddr, haddr'⟩ := Option.map_eq_some_iff.mp hip
  simp only [loadGateway, hn, hn', haddr, haddr', hc.name, bind, Except.bind]
  exact ⟨_, rfl, rfl, rfl⟩

theorem loadOperator_row {mem : Records} {r : Int × OperatorRec} {c : OperatorCells}
    (hc : c.Shows r) :
    ∃ x, loadOperator c mem = .ok x ∧ x.warning = none ∧
      x.mem = { mem with operators := mem.operators.put r.1 ⟨r.2.name, []⟩ } := by
  obtain ⟨id, op⟩ := r
  obtain ⟨n, hn, hn', -⟩ := convUint_shows hc.id
  simp only [loadOperator, hn, hn', hc.name, bind, Except.bind]
  exact ⟨_, rfl, rfl, rfl⟩

/-! ## Gateway links -/

/-- The link that a row makes. -/
def GwlinkRow.loaded (id : Int) (r : GwlinkRow) : MbbGwLink :=
  ⟨id, r.link.toNat, r.timeStart.getD 0, r.timeEnd.getD 0⟩

theorem loadGwlink_row {mem : Records} {r : Int × GwlinkRow} {c : GwlinkCells}
    (hc : c.Shows r) {g : GatewayRec} (hg : mem.gateways.get? r.2.gwId = some g)
    {op : OperatorRec} (hop : mem.operators.get? r.2.operId = some op) {st : GwState}
    (hadd : g.st.addLink (r.2.loaded r.1) = (none, st)) :
    ∃ x, loadGwlink c mem = .ok x ∧ x.warning = none ∧
      x.mem = (mem.setGateway r.2.gwId st).gwlinkJoin r.1 ⟨r.2.operId, r.2.gwId⟩ := by
  obtain ⟨id, row⟩ := r
  obtain ⟨n, hn, hn', -⟩ := convUint_shows hc.id
  obtain ⟨o, ho, ho', -⟩ := convUint_shows hc.operId
  obtain ⟨k, hk, hk', -⟩ := convUint_shows hc.gwId
  obtain ⟨l, hl, -, hl'⟩ := convUint_shows hc.link
  have hstart := convTime_shows (p := 0) hc.timeStart
  have hstop := convTime_shows (p := 0) hc.timeEnd
  obtain rfl : row.link.toNat = l := by rw [hl', Int.toNat_natCast]
  rw [GwlinkRow.loaded] at hadd
  simp only [loadGwlink, hn, hn', ho, ho', hk, hk', hl, hstart, hstop, hg, hop, hadd, bind,
    Except.bind]
  exact ⟨_, rfl, rfl, rfl⟩

end Mbb
