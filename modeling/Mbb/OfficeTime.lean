import Mbb.Hierarchy
import Mbb.OfficeLinks

/-!
# The times of consumers, units and entries in every run

The commands keep every effective interval in order, `unit_mod_inet_time` excepted: it
writes the times it has just found out of order, and a start before 1970, which
`mbb_time_pbecmp` does not take for an inherited one.
-/

namespace Mbb

namespace Records

/-- The times of the consumers. -/
def conTimes (mem : Records) : Int → Option (Int × Int) :=
  mem.consumers.col fun r => (r.start, r.stop)

/-- Consumers and times of the units. -/
def unitLinks (mem : Records) : Int → Option (Option Int × Int × Int) :=
  mem.units.col fun u => (u.con, u.start, u.stop)

/-- Owners and times of the entries. -/
def inetLinks (mem : Records) : Int → Option (Int × Int × Int) :=
  mem.inets.col fun e => (e.owner, e.start, e.stop)

/-- The hierarchy of the records. -/
def InHierarchy (mem : Records) : Prop := Hierarchy mem.conTimes mem.unitLinks mem.inetLinks

/-- Effective times are in order, and a unit without consumer has times of its own. -/
structure TimesOk (mem : Records) : Prop where
  /-- consumers -/
  consumers : ∀ id r, mem.consumers.get? id = some r → mbbTimeBecmp r.start r.stop ≤ 0
  /-- units -/
  units : ∀ id u, mem.units.get? id = some u →
    mbbTimeBecmp (mem.unitGetStart u) (mem.unitGetEnd u) ≤ 0
  /-- entries -/
  inets : ∀ id e, mem.inets.get? id = some e →
    mbbTimeBecmp (mem.entryGetStart e) (mem.entryGetEnd e) ≤ 0
  /-- units without consumer -/
  orphans : ∀ id u, mem.units.get? id = some u → u.con = none → 0 ≤ u.start ∧ 0 ≤ u.stop

variable {mem : Records}

/-- The getters compute the interval of a unit. -/
theorem unitTimes_eq {id : Int} {u : UnitRec} (hu : mem.units.get? id = some u) {p : Int × Int}
    (hp : unitTimes mem.conTimes mem.unitLinks id = some p) :
    p = (mem.unitGetStart u, mem.unitGetEnd u) := by
  have hlinks : mem.unitLinks id = some (u.con, u.start, u.stop) := Ledger.col_of_get? hu _
  rw [unitGetStart, unitGetEnd]
  cases hcon : u.con with
  | none =>
    rw [hcon] at hlinks
    rw [unitTimes_none hlinks] at hp
    exact (Option.some.inj hp).symm
  | some c =>
    rw [hcon] at hlinks
    rw [unitTimes_some hlinks] at hp
    obtain ⟨t, ht, rfl⟩ := Option.map_eq_some_iff.mp hp
    obtain ⟨r, hr, rfl⟩ := Option.map_eq_some_iff.mp ht
    rw [Option.bind_some, hr]
    rfl

theorem InHierarchy.unitTimes (h : mem.InHierarchy) {id : Int} {u : UnitRec}
    (hu : mem.units.get? id = some u) :
    Mbb.unitTimes mem.conTimes mem.unitLinks id =
      some (mem.unitGetStart u, mem.unitGetEnd u) := by
  obtain ⟨p, hp, -⟩ := h.unit (u := id) (Ledger.col_of_get? hu _)
  rw [hp, unitTimes_eq hu hp]

theorem InHierarchy.timesOk (h : mem.InHierarchy) : mem.TimesOk := by
  constructor
  · intro id r hr
    exact (h.con (c := id) (Ledger.col_of_get? hr _)).2
  · intro id u hu
    exact (Hierarchy.unitTimes h (h.unitTimes hu)).2
  · intro id e he
    obtain ⟨-, p, hp, hord⟩ := h.inet (i := id) (Ledger.col_of_get? he _)
    cases hu : mem.units.get? e.owner with
    | none =>
      rw [unitTimes_eq_none (U := mem.unitLinks) (Ledger.col_eq_none.mpr hu)] at hp
      cases hp
    | some u =>
      obtain rfl := unitTimes_eq hu hp
      rw [entryGetStart, entryGetEnd, hu]
      exact hord
  · intro id u hu hcon
    have hlinks : mem.unitLinks id = some (u.con, u.start, u.stop) := Ledger.col_of_get? hu _
    rw [hcon] at hlinks
    exact h.orphan hlinks

/-- `unit_test_inet_time` has looked at every entry of the unit. -/
theorem InHierarchy.inOrder_of_test (h : mem.InHierarchy) (hc : mem.Coherent) {id : Int}
    {u : UnitRec} (hu : mem.units.get? id = some u) {p : Int × Int} (hp : TimesInOrder p)
    (htest : mem.unitTestInetTime u.sep p.1 p.2 = true) {i : Int} {t : Int × Int}
    (hi : mem.inetLinks i = some (id, t)) : TimesInOrder (inherit t p) := by
  obtain ⟨e, he, hlink⟩ := Option.map_eq_some_iff.mp hi
  have hmem : i ∈ u.sep := by
    refine (hc.inets.mem_iff (Ledger.col_of_get? hu _) i).mpr ?_
    rw [Ledger.col_of_get? he, (Prod.mk.inj hlink).1]
  -- the test uses `mbb_time_pbecmp`, which knows only -1 for a time of the parent
  have htest' := List.all_eq_true.mp htest i hmem
  rw [he, Option.all_some, entryTestTime, decide_eq_true_iff] at htest'
  obtain rfl := (Prod.mk.inj hlink).2
  exact inOrder_of_pbecmp hp (h.inet hi).1 htest'

/-! ## What the commands do to the hierarchy

Each command sets the times of one consumer, unit or entry, or moves a unit; the check it makes
first is the one that the level asks for.
-/

/-- A change of a unit: its new interval has to be in order, and so its entries. -/
theorem InHierarchy.modUnit (h : mem.InHierarchy) {mem' : Records} {id : Int} {con : Option Int}
    {t p : Int × Int} (hcons : mem'.conTimes = mem.conTimes)
    (hinets : mem'.inetLinks = mem.inetLinks)
    (hunits : mem'.unitLinks = Function.update mem.unitLinks id (some (con, t)))
    (hp : Mbb.unitTimes mem.conTimes (fun _ => some (con, t)) id = some p) (hord : TimesInOrder p)
    (hown : con = none → Own t)
    (hinet : ∀ {i t'}, mem.inetLinks i = some (id, t') → TimesInOrder (inherit t' p)) :
    mem'.InHierarchy := by
  rw [InHierarchy, hcons, hinets, hunits]
  exact Hierarchy.setUnit h hp hord hown hinet

/-- A unit that keeps its interval. -/
theorem InHierarchy.keepUnit (h : mem.InHierarchy) {mem' : Records} {id : Int} {u : UnitRec}
    (hu : mem.units.get? id = some u) (con : Option Int) {t : Int × Int}
    (hcons : mem'.conTimes = mem.conTimes) (hinets : mem'.inetLinks = mem.inetLinks)
    (hunits : mem'.unitLinks = Function.update mem.unitLinks id (some (con, t)))
    (hp : Mbb.unitTimes mem.conTimes (fun _ => some (con, t)) id =
      some (mem.unitGetStart u, mem.unitGetEnd u))
    (hown : con = none → Own t) : mem'.InHierarchy := by
  have hold := h.unitTimes hu
  refine h.modUnit hcons hinets hunits hp (Hierarchy.unitTimes h hold).2 hown ?_
  intro i t' hi
  obtain ⟨-, q, hq, hord⟩ := h.inet hi
  rw [hold] at hq
  obtain rfl := Option.some.inj hq
  exact hord

end Records

namespace Office

variable {s s' : Office} {e : Env}

/-- The commands that are about times. -/
def TimeCmd : OfficeCmd → Prop
  | .addConsumer _ => True
  | .consumerModTime _ _ _ => True
  | .addUnit _ => True
  | .consumerAddUnit _ _ _ => True
  | .unitModTime _ _ _ => True
  | .unitSetConsumer _ _ => True
  | .unitUnsetConsumer _ => True
  | .unitAddInet _ _ _ _ _ => True
  | .unitModInetTime _ _ _ => True
  | _ => False

/-- The times that `unit_mod_inet_time` is about to write pass the order test, and are
`Plain`. -/
def InetTimeOk (s : Office) : OfficeCmd → Prop
  | .unitModInetTime id start stop => ∀ entry, s.mem.inets.get? id = some entry →
    s.inetTimeTest entry (timeKeep start entry.start) (timeKeep stop entry.stop) = none ∧
      Plain (timeKeep start entry.start, timeKeep stop entry.stop)
  | _ => True

variable {name : String}

theorem hierarchy_addConsumer (h : s.mem.InHierarchy) {id now : Int} (hnow : 0 < now)
    (hid : s.mem.consumers.get? id = none) :
    (s.mem.consumerJoin id name now 0).InHierarchy := by
  change Hierarchy ((s.mem.consumers.put id _).col _) _ _
  rw [Ledger.col_put]
  have hnone : s.mem.conTimes id = none := Ledger.col_eq_none.mpr hid
  refine Hierarchy.setCon h ⟨hnow.le, le_refl 0⟩ ?_ ?_ ?_
  · exact mbbTimeBecmp_nonpos.mpr (Or.inr (Or.inl rfl))
  · exact fun hu => (h.no_unit hnone hu).elim
  · exact fun hu _ => (h.no_unit hnone hu).elim

/-- `mbb_consumer_mod_time` has looked at every unit and entry under the consumer. -/
theorem hierarchy_consumerModTime (h : s.mem.InHierarchy) (hc : s.mem.Coherent) {id : Int}
    {con : ConsumerRec} {start stop : Int} (hcon : s.mem.consumers.get? id = some con)
    (hle : mbbTimeBecmp (timeOr start con.start) (timeOr stop con.stop) ≤ 0)
    (htest : con.units.all fun u => (s.mem.units.get? u).all
      (s.mem.unitTestTime (timeOr start con.start) (timeOr stop con.stop))) :
    (s.mem.setConsumerTime id (timeOr start con.start) (timeOr stop con.stop)).InHierarchy := by
  change Hierarchy ((s.mem.consumers.modify id _).col _) _ _
  rw [Ledger.col_modify hcon]
  obtain ⟨hown, -⟩ := h.con (c := id) (Ledger.col_of_get? hcon _)
  have hunit : ∀ {k t}, s.mem.unitLinks k = some (some id, t) → ∃ u, s.mem.units.get? k = some u ∧
      t = (u.start, u.stop) ∧
      TimesInOrder (inherit t (timeOr start con.start, timeOr stop con.stop)) ∧
      s.mem.unitTestInetTime u.sep (inherit t (timeOr start con.start, timeOr stop con.stop)).1
        (inherit t (timeOr start con.start, timeOr stop con.stop)).2 = true := by
    intro k t hk
    obtain ⟨u, hu, hlink⟩ := Option.map_eq_some_iff.mp hk
    obtain ⟨hucon, rfl⟩ := Prod.mk.inj hlink
    -- the loop runs over the list of the consumer; the unit is in it as the sides agree
    have hmem : k ∈ con.units := by
      refine (hc.units.mem_iff (Ledger.col_of_get? hcon _) k).mpr ?_
      rw [Ledger.col_of_get? hu, hucon]
    have htest' := List.all_eq_true.mp htest k hmem
    rw [hu, Option.all_some, Records.unitTestTime] at htest'
    split at htest'
    · cases htest'
    · rename_i hord
      exact ⟨u, hu, rfl, not_lt.mp hord, htest'⟩
  refine Hierarchy.setCon h (inherit_own (t := (start, stop)) hown) hle ?_ ?_
  · intro k t hk
    obtain ⟨u, -, -, hord, -⟩ := hunit hk
    exact hord
  · intro k t i t' hk hi
    obtain ⟨u, hu, -, hord, htest'⟩ := hunit hk
    exact h.inOrder_of_test hc hu hord htest' hi

theorem hierarchy_addUnit (h : s.mem.InHierarchy) {id now : Int} (hnow : 0 < now)
    (hid : s.mem.units.get? id = none) :
    (s.mem.unitJoin id name none now 0).InHierarchy := by
  have hnone : s.mem.unitLinks id = none := Ledger.col_eq_none.mpr hid
  refine h.modUnit rfl rfl (Ledger.col_put _ _ _ _) rfl ?_ ?_ ?_
  · exact mbbTimeBecmp_nonpos.mpr (Or.inr (Or.inl rfl))
  · exact fun _ => ⟨hnow.le, le_refl 0⟩
  · exact fun hi => (h.no_inet hnone hi).elim

/-- A new record takes its end from a parent, and its start too or else now, when the parent
is open. -/
theorem inOrder_new {p : Int × Int} (hp : TimesInOrder p) {inherit : Bool}
    (hopen : inherit = true ∨ p.2 = 0) : TimesInOrder (Mbb.inherit (newStart e inherit, -1) p) := by
  rw [Mbb.inherit, timeOr_of_neg (by decide : (-1 : Int) < 0)]
  cases inherit with
  | true => exact hp
  | false =>
    obtain hopen | hopen := hopen
    · cases hopen
    · exact mbbTimeBecmp_nonpos.mpr (Or.inr (Or.inl hopen))

theorem hierarchy_consumerAddUnit (h : s.mem.InHierarchy) {id con : Int}
    {r : ConsumerRec} {inherit : Bool} (hcon : s.mem.consumers.get? con = some r)
    (hopen : inherit = true ∨ r.stop = 0) (hid : s.mem.units.get? id = none) :
    ((s.mem.consumerAddUnit con id).unitJoin id name (some con)
      (newStart e inherit) (-1)).InHierarchy := by
  have hnone : s.mem.unitLinks id = none := Ledger.col_eq_none.mpr hid
  have hr : s.mem.conTimes con = some (r.start, r.stop) := Ledger.col_of_get? hcon _
  refine h.modUnit (p := Mbb.inherit (newStart e inherit, -1) (r.start, r.stop))
    (Ledger.col_modify_same (by intro r; rfl) _ _) rfl (Ledger.col_put _ _ _ _) ?_ ?_ ?_ ?_
  · rw [unitTimes_some rfl, hr, Option.map_some]
  · exact inOrder_new (h.con hr).2 hopen
  · exact fun hnil => absurd hnil (Option.some_ne_none con)
  · exact fun hi => (h.no_inet hnone hi).elim

/-- `mbb_unit_mod_time` has looked at every entry under the unit. -/
theorem hierarchy_unitModTime (h : s.mem.InHierarchy) (hc : s.mem.Coherent) {id : Int}
    {u : UnitRec} {start stop : Int} (hu : s.mem.units.get? id = some u)
    (htest : s.unitModTimeTest u start stop = none)
    (hmod : s.mem.unitModTime id u start stop = some (true, s.mem.setUnitTime id start stop)) :
    (s.mem.setUnitTime id start stop).InHierarchy := by
  have hlink : (s.mem.setUnitTime id start stop).unitLinks =
      Function.update s.mem.unitLinks id (some (u.con, start, stop)) := Ledger.col_modify hu _ _
  rw [unitModTimeTest] at htest
  rw [Records.unitModTime] at hmod
  obtain ⟨q, hq, -⟩ := h.unit (u := id) (Ledger.col_of_get? hu _)
  cases hcon : u.con with
  | none =>
    rw [hcon] at htest hmod hlink
    simp only [Option.bind_none] at htest hmod
    split at hmod
    · cases hmod
    · rename_i hneg
      rw [not_or, not_lt, not_lt] at hneg
      split at hmod
      -- without consumer: the interval is the unit's own, and `unit_mod_time` has compared it
      · rename_i hinets
        have hord : TimesInOrder (start, stop) := by
          by_contra hpos
          rw [if_pos (not_le.mp hpos)] at htest
          cases htest
        refine h.modUnit rfl rfl hlink (unitTimes_none rfl) hord (fun _ => hneg) ?_
        exact fun hi => h.inOrder_of_test hc hu hord hinets hi
      · cases hmod
  | some c =>
    have hlinks : s.mem.unitLinks id = some (u.con, u.start, u.stop) := Ledger.col_of_get? hu _
    rw [hcon] at htest hmod hlink hlinks
    rw [unitTimes_some hlinks] at hq
    obtain ⟨t, ht, -⟩ := Option.map_eq_some_iff.mp hq
    obtain ⟨r, hr, rfl⟩ := Option.map_eq_some_iff.mp ht
    simp only [Option.bind_some, hr] at htest hmod
    split at hmod
    · rename_i hinets
      -- with a consumer: `mbb_time_test_order` has seen the times the unit takes from it
      have hord : TimesInOrder (inherit (start, stop) (r.start, r.stop)) :=
        inOrder_of_testOrder (h.con ht).2 htest
      refine h.modUnit rfl rfl hlink ?_ hord (fun hnil => absurd hnil (Option.some_ne_none c)) ?_
      · rw [unitTimes_some rfl, ht, Option.map_some]
      · exact fun hi => h.inOrder_of_test hc hu hord hinets hi
    · cases hmod

/-- A unit without consumer has times of its own, and keeps them with one. -/
theorem hierarchy_unitSetConsumer (h : s.mem.InHierarchy) {id con : Int} {u : UnitRec}
    {r : ConsumerRec} (hu : s.mem.units.get? id = some u)
    (hcon : s.mem.consumers.get? con = some r) (hnone : u.con = none) :
    ((s.mem.setUnitConsumer id (some con)).consumerAddUnit con id).InHierarchy := by
  have hlinks : s.mem.unitLinks id = some (u.con, u.start, u.stop) := Ledger.col_of_get? hu _
  rw [hnone] at hlinks
  have htimes := h.unitTimes hu
  rw [unitTimes_none hlinks] at htimes
  refine h.keepUnit hu (some con) (Ledger.col_modify_same (by intro r; rfl) _ _) rfl
    (Ledger.col_modify hu _ _) ?_ fun hnil => absurd hnil (Option.some_ne_none con)
  have hr : s.mem.conTimes con = some (r.start, r.stop) := Ledger.col_of_get? hcon _
  rw [unitTimes_some rfl, hr, Option.map_some, inherit_of_own (h.orphan hlinks), htimes]

/-- A unit that loses its consumer keeps the interval it had. -/
theorem hierarchy_unitUnsetConsumer (h : s.mem.InHierarchy) {id : Int} {u : UnitRec}
    (hu : s.mem.units.get? id = some u) {mem : Records}
    (hcons : mem.conTimes = s.mem.conTimes) (hinets : mem.inetLinks = s.mem.inetLinks)
    (hunits : mem.unitLinks = Function.update s.mem.unitLinks id
      (some (none, s.mem.unitGetStart u, s.mem.unitGetEnd u))) : mem.InHierarchy :=
  h.keepUnit hu none hcons hinets hunits (unitTimes_none rfl) fun _ =>
    (Hierarchy.unitTimes h (h.unitTimes hu)).1

theorem hierarchy_setInet (h : s.mem.InHierarchy) {i : Int} (entry : EntryRec) {u : UnitRec}
    (hu : s.mem.units.get? entry.owner = some u) {mem : Records}
    (hcons : mem.conTimes = s.mem.conTimes) (hunits : mem.unitLinks = s.mem.unitLinks)
    (hinets : mem.inetLinks = Function.update s.mem.inetLinks i
      (some (entry.owner, entry.start, entry.stop)))
    (hplain : Plain (entry.start, entry.stop))
    (hord : TimesInOrder (inherit (entry.start, entry.stop)
      (s.mem.unitGetStart u, s.mem.unitGetEnd u))) : mem.InHierarchy := by
  rw [Records.InHierarchy, hcons, hunits, hinets]
  exact Hierarchy.setInet h hplain (h.unitTimes hu) hord

/-! ## Every run

Commands keep the hierarchy in order; the exception is a condition on the step.
-/

/-- What the commands about times keep. -/
structure TimeInv (s : Office) : Prop where
  /-- references -/
  coherent : s.mem.Coherent
  /-- ids -/
  keyed : s.Keyed
  /-- times -/
  hierarchy : s.mem.InHierarchy

/-- A command about times, with a clock that is past 1970 and a database that does not
fail. -/
def TimeStep (_s : Office) (e : Env) (c : OfficeCmd) : Prop :=
  TimeCmd c ∧ 0 < e.now ∧ ∀ n, e.db n = true

variable {c : OfficeCmd}

theorem Commit.keyed (hc : Commit s e c s') (htime : TimeCmd c) (h : s.Keyed) : s'.Keyed := by
  cases hc with
  | addConsumer hrows =>
    obtain ⟨hfresh, rfl⟩ := dbInsertRet_eq_some hrows
    exact ⟨h.consumers.put _ _ hfresh, h.units, h.inets⟩
  | consumerModTime hset => exact ⟨h.consumers.modify _ _ _, h.units, h.inets⟩
  | addUnit hrows =>
    obtain ⟨hfresh, rfl⟩ := dbInsertRet_eq_some hrows
    exact ⟨h.consumers, h.units.put _ _ hfresh, h.inets⟩
  | consumerAddUnit hcon hopen hrows =>
    obtain ⟨hfresh, rfl⟩ := dbInsertRet_eq_some hrows
    exact ⟨h.consumers.modify_left _ _, h.units.put _ _ hfresh, h.inets⟩
  | unitModTime hset => exact ⟨h.consumers, h.units.modify _ _ _, h.inets⟩
  | unitSetConsumer hu hcon hnone =>
    exact ⟨h.consumers.modify_left _ _, h.units.modify _ _ _, h.inets⟩
  | unitUnsetConsumer hu hcon hown =>
    exact ⟨h.consumers.modify_left _ _, h.units.modify _ _ _, h.inets⟩
  | @unitInheritTime name id con u hu hcon =>
    have htimes : (s.mem.setUnitTime id (s.mem.unitGetStart u) (s.mem.unitGetEnd u)).units.SameKeys
        (s.db.unitModTime id (s.mem.unitGetStart u) (s.mem.unitGetEnd u)).units :=
      h.units.modify _ _ _
    exact ⟨h.consumers.modify_left _ _, htimes.modify _ _ _, h.inets⟩
  | unitAddInet hu hopen hrows =>
    obtain ⟨hfresh, rfl⟩ := dbInsertRet_eq_some hrows
    exact ⟨h.consumers, h.units.modify_left _ _, h.inets.put _ _ hfresh⟩
  | unitModInetTime hentry htest hdb => exact ⟨h.consumers, h.units, h.inets.modify _ _ _⟩
  | _ => exact htime.elim

theorem Commit.hierarchy (hc : Commit s e c s') (h : s.TimeInv) (hstep : TimeStep s e c)
    (hok : s.InetTimeOk c) : s'.mem.InHierarchy := by
  obtain ⟨htime, hnow, -⟩ := hstep
  have hh := h.hierarchy
  cases hc with
  | addConsumer hrows =>
    obtain ⟨hfresh, -⟩ := dbInsertRet_eq_some hrows
    exact hierarchy_addConsumer hh hnow ((h.keyed.consumers _).mpr hfresh)
  | consumerModTime hset =>
    exact hierarchy_consumerModTime hh h.coherent (Ledger.get?_of_find? hset.found) hset.order
      hset.units
  | addUnit hrows =>
    obtain ⟨hfresh, -⟩ := dbInsertRet_eq_some hrows
    exact hierarchy_addUnit hh hnow ((h.keyed.units _).mpr hfresh)
  | consumerAddUnit hcon hopen hrows =>
    obtain ⟨hfresh, -⟩ := dbInsertRet_eq_some hrows
    exact hierarchy_consumerAddUnit hh hcon hopen ((h.keyed.units _).mpr hfresh)
  | unitModTime hset =>
    exact hierarchy_unitModTime hh h.coherent (Ledger.get?_of_find? hset.found) hset.order
      hset.inets
  | unitSetConsumer hu hcon hnone => exact hierarchy_unitSetConsumer hh hu hcon hnone
  | @unitUnsetConsumer name id con u hu hcon hown =>
    refine hierarchy_unitUnsetConsumer hh hu (Ledger.col_modify_same (by intro r; rfl) _ _) rfl ?_
    have htimes := hh.unitTimes hu
    have hlinks : s.mem.unitLinks id = some (u.con, u.start, u.stop) := Ledger.col_of_get? hu _
    rw [hcon] at hlinks
    rw [unitTimes_some hlinks] at htimes
    obtain ⟨p, -, hp⟩ := Option.map_eq_some_iff.mp htimes
    rw [inherit_of_own (t := (u.start, u.stop)) hown] at hp
    -- both times are the unit's own, so the interval does not change
    rw [← hp]
    exact Ledger.col_modify hu _ _
  | @unitInheritTime name id con u hu hcon =>
    refine hierarchy_unitUnsetConsumer hh hu (Ledger.col_modify_same (by intro r; rfl) _ _) rfl ?_
    have hmod : (s.mem.setUnitTime id (s.mem.unitGetStart u) (s.mem.unitGetEnd u)).units.get? id =
        some { u with start := s.mem.unitGetStart u, stop := s.mem.unitGetEnd u } := by
      rw [Records.setUnitTime, Ledger.get?_modify, if_pos rfl, hu, Option.map_some]
    have htimes : (s.mem.setUnitTime id (s.mem.unitGetStart u) (s.mem.unitGetEnd u)).unitLinks =
        Function.update s.mem.unitLinks id
          (some (u.con, s.mem.unitGetStart u, s.mem.unitGetEnd u)) := Ledger.col_modify hu _ _
    refine (Ledger.col_modify hmod _ _).trans ?_
    rw [← Records.unitLinks, htimes, Function.update_idem]
  | unitAddInet hu hopen hrows =>
    have hu := Ledger.get?_of_find? hu
    refine hierarchy_setInet hh _ hu rfl (Ledger.col_modify_same (by intro r; rfl) _ _)
      (Ledger.col_put _ _ _ _) ?_ (inOrder_new (Hierarchy.unitTimes hh (hh.unitTimes hu)).2 hopen)
    exact Or.inr (by decide : (-1 : Int) ≤ 0)
  | @unitModInetTime id start stop entry hentry htest hdb =>
    obtain ⟨u, hu, -⟩ := h.coherent.owner_of_entry hentry
    obtain ⟨-, hplain⟩ := hok entry hentry
    rw [inetTimeTest, hu, Option.bind_some] at htest
    refine hierarchy_setInet hh { entry with
      start := timeKeep start entry.start, stop := timeKeep stop entry.stop } hu rfl rfl
      (Ledger.col_modify hentry _ _) hplain ?_
    exact inOrder_of_testOrder (Hierarchy.unitTimes hh (hh.unitTimes hu)).2 htest
  -- the other commands are not about times
  | _ => exact htime.elim

/-- A command has no outcome in which memory changes with an error. -/
theorem Slip.not_timeStep (hs : Slip s e c s') (hstep : TimeStep s e c) (hok : s.InetTimeOk c) :
    False := by
  obtain ⟨htime, -, hdb⟩ := hstep
  cases hs with
  | consumerModTime hset hfail =>
    rw [hdb] at hfail
    cases hfail
  | unitModTime hset hfail =>
    rw [hdb] at hfail
    cases hfail
  | unitUnsetConsumer hu hcon hfail =>
    rw [hdb, hdb] at hfail
    rcases hfail with hfail | ⟨-, hfail⟩ <;> cases hfail
  | unitModInetTime hentry htest =>
    rw [(hok _ hentry).1] at htest
    cases htest
  | gwlinkModTime hset hfail => exact htime.elim
  | gwlinkCollision hgl hmod => exact htime.elim

theorem TimeInv.exec (h : s.TimeInv) (hstep : TimeStep s e c) (hok : s.InetTimeOk c)
    {r : Option MbbMsg × Office} (hexec : s.exec e c = some r) :
    r.2.TimeInv ∧ (r.1 ≠ none → r.2 = s) := by
  -- nothing, or all of it; the outcomes between need a failure or a time out of order
  rcases exec_outcome hexec with heq | ⟨hnone, hcommit⟩ | ⟨-, hslip⟩
  · rw [heq]
    exact ⟨h, fun _ => rfl⟩
  · refine ⟨⟨hcommit.coherent h.coherent h.keyed, hcommit.keyed hstep.1 h.keyed,
      hcommit.hierarchy h hstep hok⟩, fun hne => absurd hnone hne⟩
  · exact (hslip.not_timeStep hstep hok).elim

/-- **The time hierarchy.** In a run of the commands about times in which
`unit_mod_inet_time` writes nothing that is out of order or ambiguous, all effective times
are in order in every state, no unit without consumer has an inherited time, and an error
leaves everything as it was. -/
theorem time_hierarchy {s₀ s : Office} (h₀ : s₀.TimeInv)
    (h : Reaches (fun s e c => TimeStep s e c ∧ s.InetTimeOk c) s₀ s) :
    s.mem.TimesOk ∧ ∀ e c msg s', TimeStep s e c → s.InetTimeOk c →
      s.exec e c = some (some msg, s') → s' = s := by
  have hinv : s.TimeInv := by
    induction h with
    | refl => exact h₀
    | tail _ hstep ih =>
      obtain ⟨e, c, msg, ⟨htime, hok⟩, hexec⟩ := hstep
      exact (ih.exec htime hok hexec).1
  refine ⟨hinv.hierarchy.timesOk, fun e c msg s' htime hok hexec => ?_⟩
  exact (hinv.exec htime hok hexec).2 (Option.some_ne_none msg)

/-! ## Two runs -/

theorem TimeInv.empty : Office.empty.TimeInv :=
  ⟨⟨Linked.nil, Linked.nil, Linked.nil⟩,
    ⟨fun _ => iff_of_true rfl rfl, fun _ => iff_of_true rfl rfl, fun _ => iff_of_true rfl rfl⟩,
    Hierarchy.nil⟩

/-- A unit and an entry take their times from a consumer; then the entry gets a start of its
own. -/
theorem time_hierarchy_inherited :
    let env := fun id => (⟨1000, id, fun _ => true⟩ : Env)
    let s₁ := (empty.addConsumer (env 1) "con").2
    let s₂ := (s₁.consumerAddUnit (env 2) "con" "unit" true).2
    let s₃ := (s₂.unitAddInet (env 3) "unit" ⟨0x0a000000, 8, by decide, by decide⟩ false 0 true).2
    let s₄ := (s₃.unitModInetTime (env 4) 3 1500 (-2)).2
    (s₃.mem.inets.get? 3).map (fun e => (s₃.mem.entryGetStart e, s₃.mem.entryGetEnd e)) =
        some (1000, 0) ∧
      (s₄.mem.inets.get? 3).map (fun e => (s₄.mem.entryGetStart e, s₄.mem.entryGetEnd e)) =
        some (1500, 0) ∧
      s₄.mem.TimesOk := by
  intro env s₁ s₂ s₃ s₄
  refine ⟨by decide +kernel, by decide +kernel, ?_⟩
  have hstep : ∀ s id c, TimeCmd c → TimeStep s (env id) c :=
    fun s id c hc => ⟨hc, (by decide : (0 : Int) < 1000), fun _ => rfl⟩
  have h₁ : Reaches (fun s e c => TimeStep s e c ∧ s.InetTimeOk c) empty s₁ :=
    Reaches.exec (c := .addConsumer "con") .refl ⟨hstep _ 1 _ trivial, trivial⟩ rfl
  have h₂ := Reaches.exec (c := .consumerAddUnit "con" "unit" true) h₁
    ⟨hstep _ 2 _ trivial, trivial⟩ rfl
  have h₃ := Reaches.exec (c := .unitAddInet "unit" ⟨0x0a000000, 8, by decide, by decide⟩ false 0
    true) h₂ ⟨hstep _ 3 _ trivial, trivial⟩ rfl
  have hok : s₃.InetTimeOk (.unitModInetTime 3 1500 (-2)) := by
    intro entry hentry
    have hall : (s₃.mem.inets.get? 3).all (fun entry => decide (
        s₃.inetTimeTest entry (timeKeep 1500 entry.start) (timeKeep (-2) entry.stop) = none ∧
          (-1 ≤ timeKeep 1500 entry.start ∨ timeKeep (-2) entry.stop ≤ 0))) = true := by
      decide +kernel
    rw [hentry, Option.all_some, decide_eq_true_iff] at hall
    exact hall
  have h₄ := Reaches.exec (c := .unitModInetTime 3 1500 (-2)) h₃ ⟨hstep _ 4 _ trivial, hok⟩ rfl
  exact (time_hierarchy TimeInv.empty h₄).1

/-- The order test fails, the answer says so, and the entry has the times nevertheless. -/
theorem unit_mod_inet_time_written :
    let env := fun id => (⟨1000, id, fun _ => true⟩ : Env)
    let s₁ := (empty.addUnit (env 1) "unit").2
    let s₂ := (s₁.unitAddInet (env 2) "unit" ⟨0x0a000000, 8, by decide, by decide⟩ false 0 true).2
    let r := s₂.unitModInetTime (env 3) 2 3000 2000
    Reaches TimeStep empty s₂ ∧ TimeStep s₂ (env 3) (.unitModInetTime 2 3000 2000) ∧
      s₂.exec (env 3) (.unitModInetTime 2 3000 2000) = some r ∧
      r.1 = some .invalidTimeOrder ∧
      (s₂.mem.inets.get? 2).map (fun e => (e.start, e.stop)) = some (-1, -1) ∧
      (r.2.mem.inets.get? 2).map (fun e => (e.start, e.stop)) = some (3000, 2000) ∧
      ¬ r.2.mem.TimesOk := by
  intro env s₁ s₂ r
  have hstep : ∀ s id c, TimeCmd c → TimeStep s (env id) c :=
    fun s id c hc => ⟨hc, (by decide : (0 : Int) < 1000), fun _ => rfl⟩
  have h₁ : Reaches TimeStep empty s₁ :=
    Reaches.exec (c := .addUnit "unit") .refl (hstep _ 1 _ trivial) rfl
  refine ⟨Reaches.exec h₁ (hstep _ 2 (.unitAddInet "unit" _ false 0 true) trivial) rfl,
    hstep _ 3 _ trivial, rfl, by decide +kernel, by decide +kernel, by decide +kernel, ?_⟩
  intro hok
  have hall : (r.2.mem.inets.get? 2).any (fun e =>
      decide (mbbTimeBecmp (r.2.mem.entryGetStart e) (r.2.mem.entryGetEnd e) > 0)) = true := by
    decide +kernel
  cases he : r.2.mem.inets.get? 2 with
  | none =>
    rw [he] at hall
    cases hall
  | some e =>
    rw [he, Option.any_some, decide_eq_true_iff] at hall
    exact absurd (hok.inets 2 e he) (not_le.mpr hall)

end Office

end Mbb
