import Mbb.OfficeGateway

/-!
# Memory and rows in every run

After a command memory is what a restart would load from the rows, as long as the commands
that change memory before the database has agreed, or without asking it, do not fail.
-/

namespace Mbb

/-! ## A record and its row -/

/-- `conv_time` in `mbbd/mbbdbload.c` makes the time of the column, for `NULL` the default it
is given; no stored time is negative. -/
def Loads (dflt t : Int) (col : Option Int) : Prop := col.getD dflt = t ∧ dflt ≤ t

theorem loads_zero {t : Int} (h : 0 ≤ t) : Loads 0 t (sqlTime t) := by
  rw [sqlTime, if_pos h]
  exact ⟨rfl, h⟩

theorem loads_parent {t : Int} (h : -1 ≤ t) : Loads (-1) t (sqlTime t) := by
  rw [sqlTime]
  by_cases h0 : 0 ≤ t
  · rw [if_pos h0]
    exact ⟨rfl, h⟩
  · rw [if_neg h0]
    exact ⟨by rw [Option.getD_none]; omega, h⟩

/-- `load_consumers` makes this consumer of the row. -/
structure ConsumerRec.Mirrors (r : ConsumerRec) (row : ConsumerRow) : Prop where
  /-- name -/
  name : r.name = row.name
  /-- user -/
  user : r.user = row.userId
  /-- start -/
  start : Loads 0 r.start row.timeStart
  /-- end -/
  stop : Loads 0 r.stop row.timeEnd

/-- `load_units` makes this unit of the row. -/
structure UnitRec.Mirrors (u : UnitRec) (row : UnitRow) : Prop where
  /-- name -/
  name : u.name = row.name
  /-- consumer -/
  con : u.con = row.consumerId
  /-- start -/
  start : Loads (-1) u.start row.timeStart
  /-- end -/
  stop : Loads (-1) u.stop row.timeEnd
  /-- local -/
  isLocal : u.isLocal = row.isLocal

/-- `load_ip_pool` makes this entry of the row. -/
structure EntryRec.Mirrors (e : EntryRec) (row : InetRow) : Prop where
  /-- unit -/
  owner : e.owner = row.unitId
  /-- block -/
  inet : e.inet = row.inet
  /-- inclusive -/
  flag : e.flag = row.flag
  /-- start -/
  start : Loads (-1) e.start row.timeStart
  /-- end -/
  stop : Loads (-1) e.stop row.timeEnd
  /-- priority -/
  nice : (e.nice : Int) = row.nice

/-- `load_gwlink` makes this link of the row. -/
structure GwLinkRec.Mirrors (r : GwLinkRec × MbbGwLink) (row : GwlinkRow) : Prop where
  /-- operator -/
  op : r.1.op = row.operId
  /-- gateway -/
  gw : r.1.gw = row.gwId
  /-- interface -/
  link : (r.2.link : Int) = row.link
  /-- start -/
  start : Loads 0 r.2.start row.timeStart
  /-- end -/
  stop : Loads 0 r.2.stop row.timeEnd

/-- Memory mirrors the database. -/
structure Office.Mirror (s : Office) : Prop where
  /-- consumers -/
  consumers : s.mem.consumers.Matches ConsumerRec.Mirrors s.db.consumers
  /-- units -/
  units : s.mem.units.Matches UnitRec.Mirrors s.db.units
  /-- entries -/
  inets : s.mem.inets.Matches EntryRec.Mirrors s.db.unitIpPool
  /-- gateway links -/
  gwlinks : ∀ id, Option.Rel GwLinkRec.Mirrors (s.mem.linkView id) (s.db.gwlinks.get? id)

namespace Records

variable {mem : Records} {id : Int}

/-! ## Times that stay -/

theorem setConsumerTime_eq_self {con : ConsumerRec} (hcon : mem.consumers.get? id = some con)
    {start stop : Int} :
    mem.setConsumerTime id start stop = mem ↔ start = con.start ∧ stop = con.stop := by
  rw [setConsumerTime, Records.mk.injEq]
  simp only [and_true, Ledger.modify_eq_self_iff hcon]
  cases con
  simp only [ConsumerRec.mk.injEq, true_and, and_true]

theorem setUnitTime_eq_self {u : UnitRec} (hu : mem.units.get? id = some u)
    {start stop : Int} :
    mem.setUnitTime id start stop = mem ↔ start = u.start ∧ stop = u.stop := by
  rw [setUnitTime, Records.mk.injEq]
  simp only [true_and, and_true, Ledger.modify_eq_self_iff hu]
  cases u
  simp only [UnitRec.mk.injEq, true_and, and_true]

theorem setEntryTime_eq_self {entry : EntryRec} (hentry : mem.inets.get? id = some entry)
    {start stop : Int} :
    mem.setEntryTime id start stop = mem ↔ start = entry.start ∧ stop = entry.stop := by
  rw [setEntryTime, Records.mk.injEq]
  simp only [true_and, and_true, Ledger.modify_eq_self_iff hentry]
  cases entry
  simp only [EntryRec.mk.injEq, true_and, and_true]

/-- No consumer is that of this unit any more. -/
theorem setUnitConsumer_none (mem : Records) (id : Int) :
    ((mem.setUnitConsumer id none).units.get? id).bind UnitRec.con = none := by
  change Option.bind ((mem.units.modify id _).get? id) _ = none
  rw [Ledger.get?_modify, if_pos rfl, Option.bind_map]
  exact Option.bind_eq_none_iff.mpr fun u _ => rfl

end Records

namespace Office

variable {s s' : Office} {e : Env} {c : OfficeCmd}

theorem Mirror.keyed (h : s.Mirror) : s.Keyed :=
  ⟨h.consumers.sameKeys, h.units.sameKeys, h.inets.sameKeys⟩

/-- Memory mirrors the database, and its references agree. -/
structure MirrorInv (s : Office) : Prop where
  /-- rows -/
  mirror : s.Mirror
  /-- references -/
  coherent : s.mem.Coherent
  /-- gateways -/
  gwOk : s.mem.GwOk

/-- The clock is not before 1970. The commands that change memory before the database has
agreed, or without asking it, change nothing there, or what the rows come to say too: where
one of them passes its tests, the calls that follow succeed, and a time of a unit or an entry
is not before 1970. A priority or an interface that is stored fits into a `gint`, as which the
query writes it. -/
def MirrorStep (s : Office) (e : Env) (c : OfficeCmd) : Prop :=
  0 ≤ e.now ∧ match c with
    | .consumerModTime name start stop => ∀ id con, s.ConsumerTimeSet name start stop id con →
      e.db 0 = true ∨ (timeOr start con.start = con.start ∧ timeOr stop con.stop = con.stop)
    | .unitModTime name start stop => ∀ id u, s.UnitTimeSet name start stop id u →
      (e.db 0 = true ∧ -1 ≤ timeKeep start u.start ∧ -1 ≤ timeKeep stop u.stop) ∨
        (timeKeep start u.start = u.start ∧ timeKeep stop u.stop = u.stop)
    | .unitUnsetConsumer name => ∀ id u, s.mem.unitByName name = some (id, u) → u.con ≠ none →
      e.db 0 = true ∧ (u.start < 0 ∨ u.stop < 0 → e.db 1 = true)
    | .unitModInetTime id start stop => ∀ entry, s.mem.inets.get? id = some entry →
      (s.inetTimeTest entry (timeKeep start entry.start) (timeKeep stop entry.stop) = none ∧
        (e.db 0 = true → -1 ≤ timeKeep start entry.start ∧ -1 ≤ timeKeep stop entry.stop)) ∨
        (timeKeep start entry.start = entry.start ∧ timeKeep stop entry.stop = entry.stop)
    | .gwlinkModTime id start stop => ∀ r g gl st, s.GwlinkTimeSet id start stop r g gl st →
      e.db 0 = true ∨ (timeOr start gl.start = gl.start ∧ timeOr stop gl.stop = gl.stop)
    | .unitAddInet name _ _ nice inherit => ∀ id u, s.mem.unitByName name = some (id, u) →
      (inherit = true ∨ s.mem.unitGetEnd u = 0) → Inserts s.db.unitIpPool (e.db 0) e.id →
        nice < 2 ^ 31
    | .unitModInetNice id nice => ∀ entry, s.mem.inets.get? id = some entry → e.db 0 = true →
      nice < 2 ^ 31 ∨ entry.nice = nice
    | .addGwlink addr gwName link opName => ∀ gw g op r,
      s.mem.gatewayByEname addr gwName = some (gw, g) →
      s.mem.operatorByName opName = some (op, r) →
      mbbGatewayCanAdd g.st.gw ⟨e.id, link, e.now, 0⟩ true = true →
      Inserts s.db.gwlinks (e.db 0) e.id → link < 2 ^ 31
    | _ => True

/-- The times a unit has at its consumer can be stored. -/
theorem Mirror.unitGet_ge (h : s.Mirror) {id : Int} {u : UnitRec}
    (hu : s.mem.units.get? id = some u) :
    -1 ≤ s.mem.unitGetStart u ∧ -1 ≤ s.mem.unitGetEnd u := by
  -- a time of the unit's own is at least -1, one of the consumer's at least 0
  obtain ⟨row, -, hrow⟩ := h.units.get? hu
  rw [Records.unitGetStart, Records.unitGetEnd]
  cases hcon : u.con.bind s.mem.consumers.get? with
  | none => exact ⟨hrow.start.2, hrow.stop.2⟩
  | some con =>
    obtain ⟨id', -, hid'⟩ := Option.bind_eq_some_iff.mp hcon
    obtain ⟨crow, -, hcrow⟩ := h.consumers.get? hid'
    have h₁ := timeOr_nonneg (t := u.start) hcrow.start.2
    have h₂ := timeOr_nonneg (t := u.stop) hcrow.stop.2
    exact ⟨by simp only; omega, by simp only; omega⟩

/-! ## Commands -/

section Tables

variable {id : Int}

/-- A change of a consumer in memory that no row shows. -/
theorem Mirror.consumers_left (h : s.Mirror) {f : ConsumerRec → ConsumerRec}
    (hf : ∀ r, (f r).name = r.name ∧ (f r).user = r.user ∧ (f r).start = r.start ∧
      (f r).stop = r.stop) (id : Int) :
    (s.mem.consumers.modify id f).Matches ConsumerRec.Mirrors s.db.consumers := by
  refine h.consumers.modify_left (fun r row hr => ?_) id
  obtain ⟨hname, huser, hstart, hstop⟩ := hf r
  exact ⟨hname.trans hr.name, huser.trans hr.user, hstart ▸ hr.start, hstop ▸ hr.stop⟩

/-- A change of a unit in memory that no row shows. -/
theorem Mirror.units_left (h : s.Mirror) {f : UnitRec → UnitRec}
    (hf : ∀ u, (f u).name = u.name ∧ (f u).con = u.con ∧ (f u).start = u.start ∧
      (f u).stop = u.stop ∧ (f u).isLocal = u.isLocal) (id : Int) :
    (s.mem.units.modify id f).Matches UnitRec.Mirrors s.db.units := by
  refine h.units.modify_left (fun u row hu => ?_) id
  obtain ⟨hname, hcon, hstart, hstop, hlocal⟩ := hf u
  exact ⟨hname.trans hu.name, hcon.trans hu.con, hstart ▸ hu.start, hstop ▸ hu.stop,
    hlocal.trans hu.isLocal⟩

theorem Mirror.consumerTime (h : s.Mirror) {con : ConsumerRec} (start stop : Int)
    (hcon : s.mem.consumers.get? id = some con) :
    (s.mem.setConsumerTime id (timeOr start con.start) (timeOr stop con.stop)).consumers.Matches
      ConsumerRec.Mirrors
      (s.db.consumerModTime id (timeOr start con.start) (timeOr stop con.stop)).consumers := by
  refine h.consumers.modify fun r row hr hrow => ?_
  obtain rfl := Option.some.inj (hcon.symm.trans hr)
  exact ⟨hrow.name, hrow.user, loads_zero (timeOr_nonneg hrow.start.2),
    loads_zero (timeOr_nonneg hrow.stop.2)⟩

theorem Mirror.unitTime (h : s.Mirror) {start stop : Int} (hstart : -1 ≤ start)
    (hstop : -1 ≤ stop) (id : Int) :
    (s.mem.setUnitTime id start stop).units.Matches UnitRec.Mirrors
      (s.db.unitModTime id start stop).units :=
  h.units.modify fun _ _ _ hrow =>
    ⟨hrow.name, hrow.con, loads_parent hstart, loads_parent hstop, hrow.isLocal⟩

theorem Mirror.entryNice (h : s.Mirror) {nice : ℕ} (hnice : toGint nice = nice) (id : Int) :
    (s.mem.setEntryNice id nice).inets.Matches EntryRec.Mirrors
      (s.db.inetPoolModNice id nice).unitIpPool := by
  rw [Rows.inetPoolModNice, hnice]
  exact h.inets.modify fun _ _ _ hrow =>
    ⟨hrow.owner, hrow.inet, hrow.flag, hrow.start, hrow.stop, rfl⟩

/-- The entries of a unit are those whose rows have its id. -/
theorem MirrorInv.clearInet (h : s.MirrorInv) {u : UnitRec}
    (hu : s.mem.units.get? id = some u) :
    (s.mem.unitClearInet id u).inets.Matches EntryRec.Mirrors
      (s.db.inetPoolClear id).unitIpPool := by
  refine h.mirror.inets.drop fun k entry row hentry hrow hR => ?_
  -- memory frees what the unit lists, the database deletes what has its id
  rw [hrow, Option.any_some, ← hR.owner, decide_eq_decide]
  have hmem := h.coherent.inets.mem_iff (Ledger.col_of_get? hu _) k
  rw [Ledger.col_of_get? hentry] at hmem
  refine hmem.trans ⟨fun heq => ?_, fun heq => by rw [heq]⟩
  exact Option.some.inj (Option.some.inj heq)

end Tables

/-- A change that is not about gateway links. -/
theorem MirrorInv.tables (h : s.MirrorInv) (hdb : s'.db.gwlinks = s.db.gwlinks)
    (hlinks : s'.mem.gwlinks = s.mem.gwlinks) (hgws : s'.mem.gateways = s.mem.gateways)
    (hcons : s'.mem.consumers.Matches ConsumerRec.Mirrors s'.db.consumers)
    (hunits : s'.mem.units.Matches UnitRec.Mirrors s'.db.units)
    (hinets : s'.mem.inets.Matches EntryRec.Mirrors s'.db.unitIpPool) :
    s'.Mirror ∧ s'.mem.GwOk := by
  have hview : s'.mem.linkView = s.mem.linkView := by
    funext id
    rw [Records.linkView, Records.linkView, Records.gwlinkById, Records.gwlinkById, hlinks, hgws]
  refine ⟨⟨hcons, hunits, hinets, fun id => ?_⟩,
    ⟨fun {gw g} hg => ?_, fun {gw g id gl} hg hgl => ?_, fun {id r} hr => ?_⟩⟩
  · rw [hview, hdb]
    exact h.mirror.gwlinks id
  · rw [hgws] at hg
    exact h.gwOk.inv hg
  · rw [hgws] at hg
    rw [hlinks]
    exact h.gwOk.belongs hg hgl
  · rw [hlinks] at hr
    rw [hview]
    exact h.gwOk.found hr

/-- A change of one gateway link and its row. -/
theorem MirrorInv.links (h : s.MirrorInv) {id : Int} {v : Option (GwLinkRec × MbbGwLink)}
    {w : Option GwlinkRow} {mem : Records} {db : Rows}
    (hmem : mem.consumers = s.mem.consumers ∧ mem.units = s.mem.units ∧
      mem.inets = s.mem.inets)
    (hdb : db.consumers = s.db.consumers ∧ db.units = s.db.units ∧
      db.unitIpPool = s.db.unitIpPool)
    (hview : mem.linkView = Function.update s.mem.linkView id v)
    (hrows : ∀ k, db.gwlinks.get? k = if k = id then w else s.db.gwlinks.get? k)
    (hvw : Option.Rel GwLinkRec.Mirrors v w) : Mirror ⟨mem, db⟩ := by
  obtain ⟨hcons, hunits, hinets⟩ := hmem
  obtain ⟨hcons', hunits', hinets'⟩ := hdb
  refine ⟨?_, ?_, ?_, fun k => ?_⟩
  · rw [hcons, hcons']
    exact h.mirror.consumers
  · rw [hunits, hunits']
    exact h.mirror.units
  · rw [hinets, hinets']
    exact h.mirror.inets
  · rw [hview, hrows, Function.update_apply]
    by_cases hk : k = id
    · rw [if_pos hk, if_pos hk]
      exact hvw
    · rw [if_neg hk, if_neg hk]
      exact h.mirror.gwlinks k

/-- A link in memory has a row. -/
theorem MirrorInv.gwlinks_fresh (h : s.MirrorInv) {id : Int}
    (hrow : s.db.gwlinks.get? id = none) : s.mem.gwlinks.get? id = none := by
  cases hr : s.mem.gwlinks.get? id with
  | none => rfl
  | some r =>
    obtain ⟨gl, hgl⟩ := h.gwOk.found hr
    have hrel := h.mirror.gwlinks id
    rw [hgl, hrow] at hrel
    cases hrel

/-- The row of a link that its gateway has. -/
theorem MirrorInv.gwlink_row (h : s.MirrorInv) {id : Int} {r : GwLinkRec} {g : GatewayRec}
    {gl : MbbGwLink} (hgl : s.mem.gwlinkById id = some (r, g, gl)) :
    ∃ row, s.db.gwlinks.get? id = some row ∧ GwLinkRec.Mirrors (r, gl) row := by
  have hrel := h.mirror.gwlinks id
  rw [Records.linkView, hgl, Option.map_some] at hrel
  cases hrow : s.db.gwlinks.get? id with
  | none =>
    rw [hrow] at hrel
    cases hrel
  | some row =>
    rw [hrow] at hrel
    cases hrel with
    | some hR => exact ⟨row, rfl, hR⟩

theorem leaveUser_eq (mem : Records) (id : Int) (con : ConsumerRec) :
    ∃ users, mem.leaveUser id con = { mem with users } := by
  rw [Records.leaveUser]
  split
  · exact ⟨mem.users, rfl⟩
  · exact ⟨_, rfl⟩

/-- A unit that goes leaves the rows of the consumers as they were. -/
theorem Mirror.unitRemove (h : s.Mirror) (id : Int) (u : UnitRec) :
    (s.mem.unitRemove id u).consumers.Matches ConsumerRec.Mirrors s.db.consumers ∧
      ∃ consumers, s.mem.unitRemove id u = { s.mem with
        consumers, units := s.mem.units.drop fun k => decide (k = id) } := by
  rw [Records.unitRemove, Records.leaveConsumer]
  split
  · exact ⟨h.consumers, _, rfl⟩
  · exact ⟨h.consumers_left (by intro r; exact ⟨rfl, rfl, rfl, rfl⟩) _, _, rfl⟩

theorem newStart_ge (hnow : 0 ≤ e.now) (inherit : Bool) : -1 ≤ newStart e inherit := by
  cases inherit with
  | false => exact le_trans (by decide) hnow
  | true => exact le_refl (-1)

/-- A command that succeeds changes memory and rows alike. -/
theorem Commit.mirror (hc : Commit s e c s') (h : s.MirrorInv) (hstep : MirrorStep s e c) :
    s'.Mirror ∧ s'.mem.GwOk := by
  obtain ⟨hnow, hok⟩ := hstep
  have hm := h.mirror
  cases hc with
  | addConsumer hrows =>
    obtain ⟨hfresh, rfl⟩ := dbInsertRet_eq_some hrows
    refine h.tables rfl rfl rfl (hm.consumers.put hfresh ?_) hm.units hm.inets
    exact ⟨rfl, rfl, loads_zero hnow, loads_zero (le_refl 0)⟩
  | @dropConsumer name id con hcon hunits =>
    obtain ⟨users, heq⟩ := leaveUser_eq s.mem id con
    rw [heq]
    exact h.tables rfl rfl rfl (hm.consumers.drop fun _ _ _ _ _ _ => rfl) hm.units hm.inets
  | consumerModName id =>
    refine h.tables rfl rfl rfl (hm.consumers.modify fun r row _ hr => ?_) hm.units hm.inets
    exact ⟨rfl, hr.user, hr.start, hr.stop⟩
  | @consumerModTime name start stop id con hset =>
    have htimes := hm.consumerTime start stop (Ledger.get?_of_find? hset.found)
    exact h.tables rfl rfl rfl htimes hm.units hm.inets
  | consumerSetUser hcon huser hnone =>
    refine h.tables rfl rfl rfl (hm.consumers.modify fun r row _ hr => ?_) hm.units hm.inets
    exact ⟨hr.name, rfl, hr.start, hr.stop⟩
  | consumerUnsetUser hcon huser =>
    refine h.tables rfl rfl rfl (hm.consumers.modify fun r row _ hr => ?_) hm.units hm.inets
    exact ⟨hr.name, rfl, hr.start, hr.stop⟩
  | addUnit hrows =>
    obtain ⟨hfresh, rfl⟩ := dbInsertRet_eq_some hrows
    refine h.tables rfl rfl rfl hm.consumers (hm.units.put hfresh ?_) hm.inets
    exact ⟨rfl, rfl, loads_parent (le_trans (by decide) hnow),
      loads_parent (by decide : (-1 : Int) ≤ 0), rfl⟩
  | consumerAddUnit hcon hopen hrows =>
    obtain ⟨hfresh, rfl⟩ := dbInsertRet_eq_some hrows
    refine h.tables rfl rfl rfl (hm.consumers_left ?_ _) (hm.units.put hfresh ?_) hm.inets
    · exact fun r => ⟨rfl, rfl, rfl, rfl⟩
    · exact ⟨rfl, rfl, loads_parent (newStart_ge hnow _), loads_parent (le_refl (-1)), rfl⟩
  | @dropUnit name id u hu hsep =>
    obtain ⟨hcons, consumers, heq⟩ := hm.unitRemove id u
    rw [heq] at hcons ⊢
    exact h.tables rfl rfl rfl hcons (hm.units.drop fun _ _ _ _ _ _ => rfl) hm.inets
  | unitModName id =>
    refine h.tables rfl rfl rfl hm.consumers (hm.units.modify fun u row _ hu => ?_) hm.inets
    exact ⟨rfl, hu.con, hu.start, hu.stop, hu.isLocal⟩
  | @unitModTime name start stop id u hset =>
    obtain ⟨row, -, hrow⟩ := hm.units.get? (Ledger.get?_of_find? hset.found)
    have hge : -1 ≤ timeKeep start u.start ∧ -1 ≤ timeKeep stop u.stop := by
      rcases hok id u hset with ⟨-, hge⟩ | ⟨hstart, hstop⟩
      · exact hge
      · rw [hstart, hstop]
        exact ⟨hrow.start.2, hrow.stop.2⟩
    exact h.tables rfl rfl rfl hm.consumers (hm.unitTime hge.1 hge.2 id) hm.inets
  | unitSetConsumer hu hcon hnone =>
    refine h.tables rfl rfl rfl (hm.consumers_left ?_ _) (hm.units.modify fun u row _ hu => ?_)
      hm.inets
    · exact fun r => ⟨rfl, rfl, rfl, rfl⟩
    · exact ⟨hu.name, rfl, hu.start, hu.stop, hu.isLocal⟩
  | unitUnsetConsumer hu hcon hown =>
    refine h.tables rfl rfl rfl (hm.consumers_left ?_ _) (hm.units.modify fun u row _ hu => ?_)
      hm.inets
    · exact fun r => ⟨rfl, rfl, rfl, rfl⟩
    · exact ⟨hu.name, rfl, hu.start, hu.stop, hu.isLocal⟩
  | @unitInheritTime name id con u hu hcon =>
    obtain ⟨hstart, hstop⟩ := hm.unitGet_ge hu
    -- two calls to the database: the times first, then the consumer
    have htimes := hm.unitTime hstart hstop id
    refine h.tables rfl rfl rfl (hm.consumers_left ?_ _) (htimes.modify fun u row _ hu => ?_)
      hm.inets
    · exact fun r => ⟨rfl, rfl, rfl, rfl⟩
    · exact ⟨hu.name, rfl, hu.start, hu.stop, hu.isLocal⟩
  | unitLocal id =>
    refine h.tables rfl rfl rfl hm.consumers (hm.units.modify fun u row _ hu => ?_) hm.inets
    exact ⟨hu.name, hu.con, hu.start, hu.stop, rfl⟩
  | unitAddInet hu hopen hrows =>
    have hnice := (toGint_eq_self_iff.mpr (hok _ _ hu hopen (inserts_of_eq_some hrows))).symm
    obtain ⟨hfresh, rfl⟩ := dbInsertRet_eq_some hrows
    refine h.tables rfl rfl rfl hm.consumers (hm.units_left ?_ _) (hm.inets.put hfresh ?_)
    · exact fun r => ⟨rfl, rfl, rfl, rfl, rfl⟩
    · refine ⟨rfl, rfl, rfl, loads_parent (newStart_ge hnow _), loads_parent (le_refl (-1)), ?_⟩
      dsimp only
      exact hnice
  | dropInet hentry =>
    -- the unit lists the entry, so memory does free it
    rw [h.coherent.unitDelInet_eq hentry]
    refine h.tables rfl rfl rfl hm.consumers (hm.units_left ?_ _)
      (hm.inets.drop fun _ _ _ _ _ _ => rfl)
    exact fun r => ⟨rfl, rfl, rfl, rfl, rfl⟩
  | unitClearInet hu =>
    refine h.tables rfl rfl rfl hm.consumers (hm.units_left ?_ _) (h.clearInet hu)
    exact fun r => ⟨rfl, rfl, rfl, rfl, rfl⟩
  | @unitModInetTime id start stop entry hentry htest hdb =>
    refine h.tables rfl rfl rfl hm.consumers hm.units (hm.inets.modify fun r row hr hrow => ?_)
    obtain rfl := Option.some.inj (hentry.symm.trans hr)
    have hge : -1 ≤ timeKeep start entry.start ∧ -1 ≤ timeKeep stop entry.stop := by
      rcases hok entry hentry with ⟨-, hge⟩ | ⟨hstart, hstop⟩
      · exact hge hdb
      · rw [hstart, hstop]
        exact ⟨hrow.start.2, hrow.stop.2⟩
    exact ⟨hrow.owner, hrow.inet, hrow.flag, loads_parent hge.1, loads_parent hge.2, hrow.nice⟩
  | unitModInetNice hentry hnice hdb =>
    have hgint := toGint_eq_self_iff.mpr ((hok _ hentry hdb).resolve_right hnice)
    exact h.tables rfl rfl rfl hm.consumers hm.units (hm.entryNice hgint _)
  | @addGwlink addr gwName link opName gw op g r rows queues hgw hop hcan hrows hadd =>
    have hlt := hok _ _ _ _ hgw hop hcan (inserts_of_eq_some hrows)
    have hgint := (toGint_eq_self_iff.mpr hlt).symm
    obtain ⟨hfresh, rfl⟩ := dbInsertRet_eq_some hrows
    obtain ⟨hok', hview⟩ := h.gwOk.addLink ⟨e.id, link, e.now, 0⟩ op (Records.get?_of_ename hgw)
      (h.gwlinks_fresh hfresh) (mbbTimeBecmp_nonpos.mpr (Or.inr (Or.inl rfl))) hadd rfl
    have hrel : GwLinkRec.Mirrors (⟨op, gw⟩, ⟨e.id, link, e.now, 0⟩)
        ⟨op, gw, toGint link, sqlTime e.now, sqlTime 0⟩ := by
      refine ⟨rfl, rfl, ?_, loads_zero hnow, loads_zero (le_refl 0)⟩
      dsimp only
      exact hgint
    refine ⟨h.links ⟨rfl, rfl, rfl⟩ ⟨rfl, rfl, rfl⟩ hview (fun k => ?_) (.some hrel), hok'⟩
    exact Ledger.get?_insert _ _ hfresh k
  | @dropGwlink id r g gl hgl =>
    obtain ⟨hok', hview⟩ := h.gwOk.delLink hgl rfl
    refine ⟨h.links ⟨rfl, rfl, rfl⟩ ⟨rfl, rfl, rfl⟩ hview (fun k => ?_) .none, hok'⟩
    refine (Ledger.get?_drop _ _ k).trans ?_
    exact if_congr decide_eq_true_iff rfl rfl
  | @gwlinkModTime id start stop r g gl st hset =>
    obtain ⟨hok', hview⟩ := h.gwOk.modTime hset.found hset.queue
    obtain ⟨row, hrow, hR⟩ := h.gwlink_row hset.found
    have hrel : GwLinkRec.Mirrors
        (r, { gl with start := timeOr start gl.start, stop := timeOr stop gl.stop })
        { row with timeStart := sqlTime (timeOr start gl.start)
                   timeEnd := sqlTime (timeOr stop gl.stop) } :=
      ⟨hR.op, hR.gw, hR.link, loads_zero (timeOr_nonneg hR.start.2),
        loads_zero (timeOr_nonneg hR.stop.2)⟩
    refine ⟨h.links ⟨rfl, rfl, rfl⟩ ⟨rfl, rfl, rfl⟩ hview (fun k => ?_) (.some hrel), hok'⟩
    refine (Ledger.get?_modify _ _ _ k).trans ?_
    rw [hrow]
    rfl

/-! ## Every run -/

/-- Where memory has been changed when the answer is an error, it has been changed back. -/
theorem Slip.unchanged (hs : Slip s e c s') (h : s.MirrorInv) (hstep : MirrorStep s e c) :
    s' = s := by
  obtain ⟨-, hok⟩ := hstep
  cases hs with
  | consumerModTime hset hfail =>
    rcases hok _ _ hset with hdb | ⟨hstart, hstop⟩
    · exact absurd (hfail.symm.trans hdb) Bool.false_ne_true
    · rw [(Records.setConsumerTime_eq_self (Ledger.get?_of_find? hset.found)).mpr ⟨hstart, hstop⟩]
  | unitModTime hset hfail =>
    rcases hok _ _ hset with ⟨hdb, -⟩ | ⟨hstart, hstop⟩
    · exact absurd (hfail.symm.trans hdb) Bool.false_ne_true
    · rw [(Records.setUnitTime_eq_self (Ledger.get?_of_find? hset.found)).mpr ⟨hstart, hstop⟩]
  | unitUnsetConsumer hu hcon hfail =>
    obtain ⟨hdb, hdb'⟩ := hok _ _ hu hcon
    rcases hfail with hfail | ⟨hneg, hfail⟩
    · exact absurd (hfail.symm.trans hdb) Bool.false_ne_true
    · exact absurd (hfail.symm.trans (hdb' hneg)) Bool.false_ne_true
  | unitModInetTime hentry htest =>
    rcases hok _ hentry with ⟨hnone, -⟩ | ⟨hstart, hstop⟩
    · rw [hnone] at htest
      cases htest
    · rw [(Records.setEntryTime_eq_self hentry).mpr ⟨hstart, hstop⟩]
  | gwlinkModTime hset hfail =>
    rcases hok _ _ _ _ hset with hdb | ⟨hstart, hstop⟩
    · exact absurd (hfail.symm.trans hdb) Bool.false_ne_true
    · rw [h.gwOk.sameTime hset.found hstart hstop hset.queue]
  -- the queue has been restored, with the old times
  | gwlinkCollision hgl hmod => rw [h.gwOk.collision hgl hmod]

theorem MirrorInv.exec (h : s.MirrorInv) (hstep : MirrorStep s e c)
    {r : Option MbbMsg × Office} (hexec : s.exec e c = some r) :
    r.2.MirrorInv ∧ (r.1 ≠ none → r.2 = s) := by
  rcases exec_outcome hexec with heq | ⟨hnone, hcommit⟩ | ⟨-, hslip⟩
  · rw [heq]
    exact ⟨h, fun _ => rfl⟩
  · obtain ⟨hmirror, hgw⟩ := hcommit.mirror h hstep
    exact ⟨⟨hmirror, hcommit.coherent h.coherent h.mirror.keyed, hgw⟩,
      fun hne => absurd hnone hne⟩
  · rw [hslip.unchanged h hstep]
    exact ⟨h, fun _ => rfl⟩

theorem MirrorInv.reach {s₀ s : Office} (h₀ : s₀.MirrorInv) (h : Reaches MirrorStep s₀ s) :
    s.MirrorInv := by
  induction h with
  | refl => exact h₀
  | tail _ hstep ih =>
    obtain ⟨e, c, msg, hok, hexec⟩ := hstep
    exact (ih.exec hok hexec).1

/-- **Memory mirrors the database.** In a run whose steps are in `MirrorStep`, with calls to
the database that succeed or fail, memory is in every state what the rows would load, its
references agree, and a command that answers with an error leaves memory and rows as they
were. -/
theorem memory_mirrors_rows {s₀ s : Office} (h₀ : s₀.MirrorInv)
    (h : Reaches MirrorStep s₀ s) :
    s.Mirror ∧ s.mem.Coherent ∧ ∀ e c msg s', MirrorStep s e c →
      s.exec e c = some (some msg, s') → s' = s := by
  have hinv := h₀.reach h
  refine ⟨hinv.mirror, hinv.coherent, fun e c msg s' hok hexec => ?_⟩
  exact (hinv.exec hok hexec).2 (Option.some_ne_none msg)

/-! ## Only such steps -/

section Only

variable {name : String} {start stop id : Int}

theorem ConsumerTimeSet.refused {con : ConsumerRec}
    (h : s.ConsumerTimeSet name start stop id con) (hdb : e.db 0 = false) :
    s.consumerModTime e name start stop = (some .fromError, ⟨s.mem.setConsumerTime id
      (timeOr start con.start) (timeOr stop con.stop), s.db⟩) := by
  have hmem : s.mem.consumerModTime id con (timeOr start con.start) (timeOr stop con.stop) =
      (true, s.mem.setConsumerTime id (timeOr start con.start) (timeOr stop con.stop)) := by
    rw [Records.consumerModTime, if_neg (not_lt.mpr h.order), if_pos h.units]
  rw [consumerModTime, h.args]
  simp only [h.found]
  rw [if_neg (not_lt.mpr h.order)]
  simp only [hmem, hdb, Bool.false_eq_true, if_false]

theorem UnitTimeSet.exec {u : UnitRec} (h : s.UnitTimeSet name start stop id u) :
    s.unitModTime e name start stop = some (if e.db 0 = true then
      (none, ⟨s.mem.setUnitTime id (timeKeep start u.start) (timeKeep stop u.stop),
        s.db.unitModTime id (timeKeep start u.start) (timeKeep stop u.stop)⟩)
    else (some .fromError,
      ⟨s.mem.setUnitTime id (timeKeep start u.start) (timeKeep stop u.stop), s.db⟩)) := by
  rw [unitModTime, if_neg h.args]
  simp only [h.found]
  rw [if_neg h.parent, h.order]
  simp only [h.inets]
  split
  · rfl
  · rfl

theorem GwlinkTimeSet.refused {r : GwLinkRec} {g : GatewayRec} {gl : MbbGwLink} {st : GwState}
    (h : s.GwlinkTimeSet id start stop r g gl st) (hdb : e.db 0 = false) :
    s.gwlinkModTime e id start stop =
      (some .fromError, { s with mem := s.mem.setGateway r.gw st }) := by
  rw [gwlinkModTime, h.args]
  simp only [h.found, h.queue, hdb, Bool.false_eq_true, if_false]

/-- A unit that the database does not release has lost its consumer in memory. -/
theorem unitUnsetConsumer_refused {u : UnitRec} (hu : s.mem.unitByName name = some (id, u))
    (hcon : u.con ≠ none)
    (hdb : ¬ (e.db 0 = true ∧ (u.start < 0 ∨ u.stop < 0 → e.db 1 = true))) :
    (s.unitUnsetConsumer e name).1 ≠ none ∧
      ((s.unitUnsetConsumer e name).2.mem.units.get? id).bind UnitRec.con = none := by
  obtain ⟨con, hcon⟩ := Option.ne_none_iff_exists'.mp hcon
  rw [unitUnsetConsumer, hu]
  simp only [hcon]
  by_cases hneg : u.start < 0 ∨ u.stop < 0
  · rw [if_pos hneg]
    by_cases h0 : e.db 0 = true
    · have h1 : ¬ e.db 1 = true := fun h1 => hdb ⟨h0, fun _ => h1⟩
      rw [if_pos h0, if_neg h1]
      exact ⟨Option.some_ne_none _, Records.setUnitConsumer_none _ id⟩
    · rw [if_neg h0]
      exact ⟨Option.some_ne_none _, Records.setUnitConsumer_none _ id⟩
  · have h0 : ¬ e.db 0 = true := fun h0 => hdb ⟨h0, fun h => absurd h hneg⟩
    rw [if_neg hneg, if_neg h0]
    exact ⟨Option.some_ne_none _, Records.setUnitConsumer_none _ id⟩

/-- Times that memory and row have alike can be stored. -/
theorem Mirror.unitTime_ge (h : s'.Mirror) {u : UnitRec} (hu : s.mem.units.get? id = some u)
    (hmem : s'.mem = s.mem.setUnitTime id start stop) : -1 ≤ start ∧ -1 ≤ stop := by
  have hget : s'.mem.units.get? id = some { u with start := start, stop := stop } := by
    rw [hmem, Records.setUnitTime, Ledger.get?_modify, if_pos rfl, hu, Option.map_some]
  obtain ⟨row, -, hrow⟩ := h.units.get? hget
  exact ⟨hrow.start.2, hrow.stop.2⟩

theorem Mirror.entryTime_ge (h : s'.Mirror) {entry : EntryRec}
    (hentry : s.mem.inets.get? id = some entry)
    (hmem : s'.mem = s.mem.setEntryTime id start stop) : -1 ≤ start ∧ -1 ≤ stop := by
  have hget : s'.mem.inets.get? id = some { entry with start := start, stop := stop } := by
    rw [hmem, Records.setEntryTime, Ledger.get?_modify, if_pos rfl, hentry, Option.map_some]
  obtain ⟨row, -, hrow⟩ := h.inets.get? hget
  exact ⟨hrow.start.2, hrow.stop.2⟩

end Only

/-- A step after which memory mirrors the rows, and which changes nothing where it answers
with an error, is in `MirrorStep`. -/
theorem MirrorInv.step_of_exec (h : s.MirrorInv) (hnow : 0 ≤ e.now)
    {r : Option MbbMsg × Office} (hexec : s.exec e c = some r) (hmirror : r.2.Mirror)
    (herr : r.1 ≠ none → r.2 = s) : MirrorStep s e c := by
  refine ⟨hnow, ?_⟩
  cases c with
  | consumerModTime name start stop =>
    intro id con hset
    by_cases hdb : e.db 0 = true
    · exact Or.inl hdb
    · have hr := (congrArg some (hset.refused (Bool.not_eq_true _ ▸ hdb))).symm.trans hexec
      obtain rfl := Option.some.inj hr
      have hmem := congrArg mem (herr (Option.some_ne_none _))
      have hget := Ledger.get?_of_find? hset.found
      exact Or.inr ((Records.setConsumerTime_eq_self hget).mp hmem)
  | unitModTime name start stop =>
    intro id u hset
    have hget := Ledger.get?_of_find? hset.found
    have hr := hset.exec.symm.trans hexec
    by_cases hdb : e.db 0 = true
    · rw [if_pos hdb] at hr
      obtain rfl := Option.some.inj hr
      exact Or.inl ⟨hdb, hmirror.unitTime_ge hget rfl⟩
    · rw [if_neg hdb] at hr
      obtain rfl := Option.some.inj hr
      have hmem := congrArg mem (herr (Option.some_ne_none _))
      exact Or.inr ((Records.setUnitTime_eq_self hget).mp hmem)
  | unitUnsetConsumer name =>
    intro id u hu hcon
    by_contra hdb
    obtain ⟨hne, hnone⟩ := unitUnsetConsumer_refused hu hcon hdb
    obtain rfl := Option.some.inj hexec
    rw [herr hne, Ledger.get?_of_find? hu, Option.bind_some] at hnone
    exact hcon hnone
  | unitModInetTime id start stop =>
    intro entry hentry
    by_cases hargs : start = mbbTimeUnset ∧ stop = mbbTimeUnset
    · exact Or.inr ⟨by rw [timeKeep, if_pos hargs.1], by rw [timeKeep, if_pos hargs.2]⟩
    · have hr := Option.some.inj hexec
      rw [unitModInetTime, if_neg hargs, hentry] at hr
      cases htest : s.inetTimeTest entry (timeKeep start entry.start)
          (timeKeep stop entry.stop) with
      | some msg =>
        simp only [htest] at hr
        obtain rfl := hr
        have hmem := congrArg mem (herr (Option.some_ne_none _))
        exact Or.inr ((Records.setEntryTime_eq_self hentry).mp hmem)
      | none =>
        refine Or.inl ⟨rfl, fun hdb => ?_⟩
        simp only [htest, if_pos hdb] at hr
        obtain rfl := hr
        exact hmirror.entryTime_ge hentry rfl
  | unitAddInet name inet exclusive nice inherit =>
    intro id u hu hopen hins
    have hr := Option.some.inj hexec
    obtain ⟨rows, hrows, hrow⟩ := hins.eq_some
      ⟨id, inet, !exclusive, sqlTime (newStart e inherit), sqlTime (-1), toGint nice⟩
    have hnot : ¬ (inherit = false ∧ s.mem.unitGetEnd u ≠ 0) := by
      rintro ⟨rfl, hne⟩
      exact hopen.elim Bool.false_ne_true hne
    simp only [unitAddInet, hu, if_neg hnot, hrows] at hr
    obtain rfl := hr
    let entry : EntryRec := ⟨inet, !exclusive, newStart e inherit, -1, nice, id⟩
    have hget : (s.mem.unitAddInet e.id entry).inets.get? e.id = some entry :=
      (Ledger.get?_put _ _ _ _).trans (if_pos rfl)
    obtain ⟨row, hrow', hM⟩ := hmirror.inets.get? hget
    obtain rfl := Option.some.inj (hrow.symm.trans hrow')
    have hgint := hM.nice.symm
    dsimp only at hgint
    exact toGint_eq_self_iff.mp hgint
  | unitModInetNice id nice =>
    intro entry hentry hdb
    by_cases hnice : entry.nice = nice
    · exact Or.inr hnice
    · have hr := Option.some.inj hexec
      simp only [unitModInetNice, hentry, if_neg hnice, if_pos hdb] at hr
      obtain rfl := hr
      have hget : (s.mem.setEntryNice id nice).inets.get? id = some { entry with nice } := by
        rw [Records.setEntryNice, Ledger.get?_modify, if_pos rfl, hentry, Option.map_some]
      obtain ⟨row, hrow, hM⟩ := hmirror.inets.get? hget
      have hmod := (Ledger.get?_modify s.db.unitIpPool id
        (fun r => { r with nice := toGint nice }) id).symm.trans hrow
      rw [if_pos rfl] at hmod
      obtain ⟨row', -, hrow'⟩ := Option.map_eq_some_iff.mp hmod
      have hgint : row.nice = toGint nice := by rw [← hrow']
      rw [← hM.nice] at hgint
      exact Or.inl (toGint_eq_self_iff.mp hgint.symm)
  | addGwlink addr gwName link opName =>
    intro gw g op r' hgw hop hcan hins
    have hr := Option.some.inj hexec
    obtain ⟨rows, hrows, hrow⟩ := hins.eq_some
      ⟨op, gw, toGint link, sqlTime e.now, sqlTime 0⟩
    obtain ⟨queues, hadd⟩ := mbbGatewayAddLink_of_canAdd rfl hcan
    have hview := (h.gwOk.addLink ⟨e.id, link, e.now, 0⟩ op (Records.get?_of_ename hgw)
      (h.gwlinks_fresh hins.2.2) (mbbTimeBecmp_nonpos.mpr (Or.inr (Or.inl rfl))) hadd rfl).2
    simp only [addGwlink, hgw, hop, hcan, hrows, hadd, Bool.true_eq_false, if_false] at hr
    obtain rfl := hr
    have hrel := hmirror.gwlinks e.id
    rw [hview, Function.update_self, hrow] at hrel
    cases hrel with
    | some hM =>
      have hgint := hM.link.symm
      dsimp only at hgint
      exact toGint_eq_self_iff.mp hgint
  | gwlinkModTime id start stop =>
    intro r' g gl st hset
    by_cases hdb : e.db 0 = true
    · exact Or.inl hdb
    · have hr := (congrArg some (hset.refused (Bool.not_eq_true _ ▸ hdb))).symm.trans hexec
      obtain rfl := Option.some.inj hr
      have hmem : s.mem.setGateway r'.gw st = s.mem :=
        congrArg mem (herr (Option.some_ne_none _))
      -- the link that its gateway has now has the times of before
      have hview := congrFun (h.gwOk.modTime hset.found hset.queue).2 id
      rw [hmem, Function.update_self, Records.linkView, hset.found, Option.map_some] at hview
      have hgl := (Prod.mk.inj (Option.some.inj hview)).2
      exact Or.inr ⟨(congrArg MbbGwLink.start hgl).symm, (congrArg MbbGwLink.stop hgl).symm⟩
  | _ => trivial

/-- `MirrorStep` is what a step needs. -/
theorem MirrorInv.exec_iff (h : s.MirrorInv) (hnow : 0 ≤ e.now)
    {r : Option MbbMsg × Office} (hexec : s.exec e c = some r) :
    MirrorStep s e c ↔ r.2.Mirror ∧ (r.1 ≠ none → r.2 = s) := by
  refine ⟨fun hstep => ?_, fun hr => h.step_of_exec hnow hexec hr.1 hr.2⟩
  obtain ⟨hinv, herr⟩ := h.exec hstep hexec
  exact ⟨hinv.mirror, herr⟩

/-! ## Two runs -/

theorem MirrorInv.empty : Office.empty.MirrorInv :=
  ⟨⟨fun _ => .none, fun _ => .none, fun _ => .none, fun _ => .none⟩,
    ⟨Linked.nil, Linked.nil, Linked.nil⟩,
    ⟨(fun h => nomatch h), (fun h => nomatch h), (fun h => nomatch h)⟩⟩

/-- The database refuses the name of a unit; memory keeps the old one. -/
theorem memory_mirrors_rows_refused :
    let s₁ := (empty.addUnit ⟨1000, 1, fun _ => true⟩ "unit").2
    let r := s₁.unitModName ⟨1001, 0, fun _ => false⟩ "unit" "other"
    r.1 = some .fromError ∧ (r.2.db.units.get? 1).map UnitRow.name = some "unit" ∧ r.2.Mirror ∧
      r.2 = s₁ := by
  intro s₁ r
  have h₁ : Reaches MirrorStep empty s₁ := Relation.ReflTransGen.single
    ⟨⟨1000, 1, fun _ => true⟩, .addUnit "unit", none,
      ⟨(by decide : (0 : Int) ≤ 1000), trivial⟩, rfl⟩
  obtain ⟨hmirror, -, herr⟩ := memory_mirrors_rows MirrorInv.empty h₁
  have hmsg : r.1 = some .fromError := by decide +kernel
  have hr : r.2 = s₁ := herr ⟨1001, 0, fun _ => false⟩ (.unitModName "unit" "other") .fromError r.2
    ⟨(by decide : (0 : Int) ≤ 1001), trivial⟩ (congrArg some (Prod.ext hmsg rfl))
  exact ⟨hmsg, by decide +kernel, hr ▸ hmirror, hr⟩

/-- The database refuses the times of a consumer; memory has them nevertheless. -/
theorem consumer_mod_time_refused :
    let s₁ := (empty.addConsumer ⟨1000, 1, fun _ => true⟩ "con").2
    let r := s₁.consumerModTime ⟨1001, 0, fun _ => false⟩ "con" (-2) 5000
    r.1 = some .fromError ∧
      (r.2.mem.consumers.get? 1).map (fun r => (r.start, r.stop)) = some (1000, 5000) ∧
      (r.2.db.consumers.get? 1).map (fun r => (r.timeStart, r.timeEnd)) =
        some (some 1000, some 0) ∧
      s₁.Mirror ∧ ¬ r.2.Mirror ∧ r.2 ≠ s₁ := by
  intro s₁ r
  have h₁ : Reaches MirrorStep empty s₁ := Relation.ReflTransGen.single
    ⟨⟨1000, 1, fun _ => true⟩, .addConsumer "con", none,
      ⟨(by decide : (0 : Int) ≤ 1000), trivial⟩, rfl⟩
  have hmem : (r.2.mem.consumers.get? 1).map (fun r => (r.start, r.stop)) = some (1000, 5000) := by
    decide +kernel
  have hdb : (r.2.db.consumers.get? 1).map (fun r => (r.timeStart, r.timeEnd)) =
      some (some 1000, some 0) := by
    decide +kernel
  have hnot : ¬ r.2.Mirror := by
    intro h
    obtain ⟨con, hcon, hcon'⟩ := Option.map_eq_some_iff.mp hmem
    obtain ⟨row, hrow, hR⟩ := h.consumers.get? hcon
    rw [hrow, Option.map_some] at hdb
    have hstop := hR.stop.1
    rw [(Prod.mk.inj (Option.some.inj hdb)).2, (Prod.mk.inj hcon').2] at hstop
    cases hstop
  have hmirror : s₁.Mirror := (MirrorInv.empty.reach h₁).mirror
  exact ⟨by decide +kernel, hmem, hdb, hmirror, hnot, fun heq => hnot (heq ▸ hmirror)⟩

end Office

end Mbb
