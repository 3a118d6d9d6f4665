import Mathlib.Algebra.Ring.Rat
import Mathlib.Data.Int.Cast.Lemmas
import Mbb.Lib.Marginal
import Mbb.Tables

/-!
# Reports (`modules/stat/main.c`)

A report sums the rows of `unit_stat` or `link_stat` by a name joined to them. Without a
step it takes the rows of an interval; with a step it takes the rows of the hours, days,
months or years in which `unit_stat` has a row of the interval, each of these whole. When
the interval begins or ends inside such a block, the rows of the block outside the interval
are in the report by steps and not in the plain one.
-/

namespace Mbb

/-- The tables a report reads. -/
structure ReportDb : Type where
  /-- the statistics -/
  stat : StatDb
  /-- `units` -/
  units : Ledger Int UnitRow
  /-- `consumers` -/
  consumers : Ledger Int ConsumerRow
  /-- `gwlinks` -/
  gwlinks : Ledger Int GwlinkRow
  /-- `operators`: names -/
  operators : Ledger Int String
  /-- `gateways`: names -/
  gateways : Ledger Int String

/-- A value of the field a report groups by. -/
inductive FieldValue : Type where
  /-- a name -/
  | text (s : String)
  /-- an id -/
  | int (n : Int)
deriving DecidableEq

/-- The entries of `sqi_table`, and the two that `self_sqi_init` makes for a user. -/
inductive Sqi : Type where
  /-- `SQI_UNIT` -/
  | unit
  /-- `SQI_CONSUMER` -/
  | consumer
  /-- `SQI_OPER` -/
  | oper
  /-- `SQI_LINK` -/
  | link
  /-- `SQI_GW` -/
  | gw
  /-- `self_stat_unit` -/
  | selfUnit (uid : Int)
  /-- `self_stat_consumer` -/
  | selfConsumer (uid : Int)

/-- A row of `unit_stat` or `link_stat`. -/
abbrev StatRow : Type := SingleKey × (Int × Int)

namespace Sqi

/-- `unit_stat s, units u, consumers c` under the condition of `SQI_CONSUMER`. -/
def consumerRows (db : ReportDb) : List (StatRow × UnitRow × ConsumerRow) :=
  db.stat.unitStat.rows.flatMap fun s =>
    (db.units.rows.filter fun u => decide (s.1.id = u.1)).flatMap fun u =>
      (db.consumers.rows.filter fun c => decide (u.2.consumerId = some c.1)).map fun c =>
        (s, u.2, c.2)

/-- `link_stat s, gwlinks l` under `s.gwlink_id = l.gwlink_id`. -/
def gwlinkRows (db : ReportDb) : List (StatRow × GwlinkRow) :=
  db.stat.linkStat.rows.flatMap fun s =>
    (db.gwlinks.rows.filter fun l => decide (s.1.id = l.1)).map fun l => (s, l.2)

/-- The rows of the tables under the condition, with the field of each. -/
def rows (db : ReportDb) : Sqi → List (FieldValue × StatRow)
  | unit => db.stat.unitStat.rows.flatMap fun s =>
      (db.units.rows.filter fun u => decide (s.1.id = u.1)).map fun u => (.text u.2.name, s)
  | consumer => (consumerRows db).map fun r => (.text r.2.2.name, r.1)
  | oper => (gwlinkRows db).flatMap fun r =>
      (db.operators.rows.filter fun o => decide (r.2.operId = o.1)).map fun o => (.text o.2, r.1)
  | link => db.stat.linkStat.rows.map fun s => (.int s.1.id, s)
  | gw => (gwlinkRows db).flatMap fun r =>
      (db.gateways.rows.filter fun g => decide (r.2.gwId = g.1)).map fun g => (.text g.2, r.1)
  | selfUnit uid => ((consumerRows db).filter fun r => decide (r.2.2.userId = some uid)).map
      fun r => (.text r.2.1.name, r.1)
  | selfConsumer uid => ((consumerRows db).filter fun r => decide (r.2.2.userId = some uid)).map
      fun r => (.text r.2.2.name, r.1)

end Sqi

/-! ## Requests -/

/-- `struct stat_opt` -/
structure StatOpt : Type where
  /-- block size -/
  blockSize : ℕ
  /-- for people -/
  human : Bool
  /-- start -/
  start : Int
  /-- end -/
  stop : Int
  /-- step -/
  step : Option String

/-- The messages of the module. -/
inductive StatMsg : Type where
  /-- `invalid step name` -/
  | invalidStepName
  /-- `MBB_MSG_INVALID_TIME_ORDER` -/
  | invalidTimeOrder
  /-- `exclusive arguments` -/
  | exclusiveArguments
  /-- `invalid period value` -/
  | invalidPeriodValue
  /-- `g_date_valid_dmy(%d, %d, %d) failed` -/
  | dmyFailed (d m y : Int)
  /-- error of the database -/
  | fromError
deriving DecidableEq

/-- `VAR_CONV_TIME_UNSET` -/
def varConvTimeUnset : Int := -2

/-- Calendars of the C library, of GLib and of the database. A step cuts the time into
blocks: `dateTrunc` is the first second of a block, `dateNext` that of the block after. -/
structure Calendar : Type where
  /-- the day, month or year of an instant, or the date that is not valid -/
  period : String → Int → Except (Int × Int × Int) (Int × Int)
  /-- `ptou(date_trunc(step, utop(point)))` -/
  dateTrunc : String → Int → Int
  /-- `ptou(date + '1 step')` -/
  dateNext : String → Int → Int
  /-- a block holds its points -/
  trunc_le : ∀ step p, dateTrunc step p ≤ p
  /-- and ends after them -/
  lt_next : ∀ step p, p < dateNext step (dateTrunc step p)
  /-- two points of a block have one date -/
  trunc_eq : ∀ step p q, dateTrunc step p ≤ q → q < dateNext step (dateTrunc step p) →
    dateTrunc step q = dateTrunc step p

/-- `step_name` -/
def stepName : List String := ["hour", "day", "month", "year"]

/-- `parse_time_args` -/
def parseTimeArgs (cal : Calendar) (start stop : Int) (period step : Option String) :
    Except StatMsg (Int × Int) :=
  if step.any fun s => !stepName.contains s then .error .invalidStepName
  else
    match period with
    | none =>
      -- without an end, the rows at one point
      if stop = varConvTimeUnset then .ok (start, start + 1)
      else if stop ≤ start then .error .invalidTimeOrder
      else .ok (start, stop)
    | some period =>
      -- a period stands for an end
      if stop ≠ varConvTimeUnset then .error .exclusiveArguments
      else if period ∉ ["day", "month", "year"] then .error .invalidPeriodValue
      else
        match cal.period period start with
        | .error (d, m, y) => .error (.dmyFailed d m y)
        | .ok range => .ok range

/-! ## Queries

The queries with and without steps, on the rows of the database. The view of dates has the blocks in
which the unit table has rows of the interval.
-/

/-- A row of an answer: the name, bytes or blocks in and out, and the date of the step. -/
structure StatAns : Type where
  /-- name -/
  name : FieldValue
  /-- in -/
  bytesIn : ℚ
  /-- out -/
  bytesOut : ℚ
  /-- date of the step -/
  point : Option Int
deriving DecidableEq

/-- `round(sum / block_size, 3)` of the database: half away from zero. -/
def roundBlocks (sum : Int) (blockSize : ℕ) : ℚ :=
  let n : Int := (2000 * sum.natAbs + blockSize) / (2 * blockSize)
  ((if sum < 0 then -n else n : Int) : ℚ) / 1000

/-- A column of sums. -/
def statColumn (so : StatOpt) (sum : Int) : ℚ :=
  -- `stat_query` asks for blocks only when the answer is for people
  if so.human = false ∨ so.blockSize = 1 then (sum : ℚ) else roundBlocks sum so.blockSize

/-- `POINT_IN_COND`: a time that is `NULL` selects no row. -/
def pointInCond (start stop : Int) (s : StatRow) : Bool :=
  match sqlTime start, sqlTime stop with
  | some start, some stop => decide (start ≤ s.1.point) && decide (s.1.point < stop)
  | _, _ => false

/-- `POINT_BY_COND` -/
def pointByCond (cal : Calendar) (step : String) (date : Int) (s : StatRow) : Bool :=
  decide (date ≤ s.1.point) && decide (s.1.point < cal.dateNext step date)

/-- `field in (names)`; no names, no condition. -/
def nameCond (names : List FieldValue) (name : FieldValue) : Bool :=
  names.isEmpty || names.contains name

/-- `select key, sum(in), sum(out) … group by key` -/
def groupBy {K : Type} [DecidableEq K] (rows : List (K × (Int × Int))) :
    List (K × (Int × Int)) :=
  (rows.map Prod.fst).dedup.map fun k => (k, Ledger.amount rows k)

/-- The view that `create_view_dates` makes of the points of `unit_stat`. -/
def createViewDates (cal : Calendar) (db : StatDb) (start stop : Int) (step : String) :
    Option (List Int) :=
  match sqlTime start, sqlTime stop with
  | some start, some stop =>
    some (((db.unitStat.rows.filter (pointInCond start stop)).map fun s =>
      cal.dateTrunc step s.1.point).dedup)
  | _, _ => none

/-- The rows a plain report selects. -/
def plainRows (sqi : Sqi) (db : ReportDb) (names : List FieldValue) (start stop : Int) :
    List (FieldValue × StatRow) :=
  (sqi.rows db).filter fun r => nameCond names r.1 && pointInCond start stop r.2

/-- The rows a report by steps selects, each with its date. -/
def stepRows (cal : Calendar) (sqi : Sqi) (db : ReportDb) (names : List FieldValue)
    (step : String) (dates : List Int) : List ((FieldValue × Int) × StatRow) :=
  dates.flatMap fun date =>
    ((sqi.rows db).filter fun r => nameCond names r.1 && pointByCond cal step date r.2).map
      fun r => ((r.1, date), r.2)

/-- `stat_fetch` without a step. -/
def statFetch (sqi : Sqi) (db : ReportDb) (names : List FieldValue) (so : StatOpt) :
    List StatAns :=
  (groupBy ((plainRows sqi db names so.start so.stop).map fun r => (r.1, r.2.2))).map fun r =>
    ⟨r.1, statColumn so r.2.1, statColumn so r.2.2, none⟩

/-- `stat_fetch` with a step. -/
def statFetchBy (cal : Calendar) (sqi : Sqi) (db : ReportDb) (names : List FieldValue)
    (so : StatOpt) (step : String) (dates : List Int) : List StatAns :=
  (groupBy ((stepRows cal sqi db names step dates).map fun r => (r.1, r.2.2))).map fun r =>
    ⟨r.1.1, statColumn so r.2.1, statColumn so r.2.2, some r.1.2⟩

/-- A request of a report. -/
structure StatReq : Type where
  /-- `start` -/
  start : Int
  /-- `end` -/
  stop : Int
  /-- `period` -/
  period : Option String
  /-- `step` -/
  step : Option String
  /-- size of a block -/
  blockSize : ℕ
  /-- for people -/
  human : Bool
  /-- names -/
  names : List FieldValue

/-- `stat_common`; the outcomes are those of the connection, of the view and of the query. -/
def statCommon (cal : Calendar) (sqi : Sqi) (db : ReportDb) (req : StatReq)
    (calls : List Bool) : Except StatMsg (List StatAns) :=
  match parseTimeArgs cal req.start req.stop req.period req.step with
  | .error msg => .error msg
  | .ok (start, stop) =>
    let so : StatOpt := ⟨req.blockSize, req.human, start, stop, req.step⟩
    match nextCall calls with
    | (false, _) => .error .fromError
    | (true, calls) =>
      match req.step with
      | none =>
        match nextCall calls with
        | (false, _) => .error .fromError
        | (true, _) => .ok (statFetch sqi db req.names so)
      | some step =>
        match nextCall calls with
        | (false, _) => .error .fromError
        | (true, calls) =>
          -- the view is made of `unit_stat`, also for the reports that read `link_stat`
          match createViewDates cal db.stat start stop step with
          | none => .error .fromError
          | some dates =>
            match nextCall calls with
            | (false, _) => .error .fromError
            | (true, _) => .ok (statFetchBy cal sqi db req.names so step dates)

/-! ## Sums of an answer -/

/-- What the rows of an answer have for a name, in and out. -/
def ansBytes (ans : Except StatMsg (List StatAns)) (name : FieldValue) : ℚ × ℚ :=
  match ans with
  | .error _ => 0
  | .ok rows => Ledger.amount (rows.map fun a => (a.name, (a.bytesIn, a.bytesOut))) name

/-- The sums of a query with `group by`, summed over the groups of one name. -/
theorem amount_groupBy {K : Type} [DecidableEq K] (g : K → FieldValue)
    (rows : List (K × (Int × Int))) (name : FieldValue) :
    Ledger.amount ((groupBy rows).map fun r => (g r.1, r.2)) name =
      Ledger.amount (rows.map fun r => (g r.1, r.2)) name := by
  have hS : ∀ e ∈ rows, e.1 ∈ (rows.map Prod.fst).dedup.toFinset := fun e he =>
    List.mem_toFinset.mpr (List.mem_dedup.mpr (List.mem_map.mpr ⟨e, he, rfl⟩))
  rw [← Ledger.sum_amount g rows hS, List.sum_toFinset _ (List.nodup_dedup _), groupBy,
    List.map_map]
  -- by induction on the groups, each of one key
  induction (rows.map Prod.fst).dedup with
  | nil => rfl
  | cons k ks ih =>
    rw [List.map_cons, Ledger.amount_cons, ih, List.map_cons, List.sum_cons]
    simp only [Function.comp_apply]
    by_cases hk : g k = name
    · rw [if_pos hk, if_pos hk]
    · rw [if_neg hk, if_neg hk, zero_add]

/-- In bytes, the columns of an answer are the sums. -/
theorem ansBytes_groupBy {K : Type} [DecidableEq K] (so : StatOpt)
    (hso : so.human = false ∨ so.blockSize = 1) (g : K → FieldValue) (point : K → Option Int)
    (rows : List (K × (Int × Int))) (name : FieldValue) :
    ansBytes (.ok ((groupBy rows).map fun r =>
        ⟨g r.1, statColumn so r.2.1, statColumn so r.2.2, point r.1⟩)) name =
      (((Ledger.amount (rows.map fun (r : K × (Int × Int)) => (g r.1, r.2)) name).1 : ℚ),
        ((Ledger.amount (rows.map fun (r : K × (Int × Int)) => (g r.1, r.2)) name).2 : ℚ)) := by
  have hcast := Ledger.amount_map_hom ((Int.castAddHom ℚ).prodMap (Int.castAddHom ℚ))
    ((groupBy rows).map fun r => (g r.1, r.2)) name
  rw [amount_groupBy, List.map_map] at hcast
  refine Eq.trans ?_ hcast
  rw [ansBytes, List.map_map]
  refine congrArg (fun es => Ledger.amount es name) (List.map_congr_left fun r _ => ?_)
  simp only [Function.comp_apply, statColumn, if_pos hso]
  rfl

/-! ## Rows by blocks -/

/-- The bytes of the joined rows in `p`, for a name. -/
def rowBytes (rows : List (FieldValue × StatRow)) (p : FieldValue × StatRow → Bool)
    (name : FieldValue) : Int × Int :=
  Ledger.amount ((rows.filter p).map fun r => (r.1, r.2.2)) name

/-- Rows selected by one of two conditions that exclude each other. -/
theorem rowBytes_or {rows : List (FieldValue × StatRow)} {p q t : FieldValue × StatRow → Bool}
    (ht : ∀ r ∈ rows, t r = (p r || q r)) (hpq : ∀ r ∈ rows, p r = true → q r = false)
    (name : FieldValue) : rowBytes rows t name = rowBytes rows p name + rowBytes rows q name := by
  induction rows with
  | nil => rfl
  | cons r rows ih =>
    have ih := ih (fun r' h => ht r' (List.mem_cons_of_mem _ h))
      fun r' h => hpq r' (List.mem_cons_of_mem _ h)
    have htr := ht r List.mem_cons_self
    have hpqr := hpq r List.mem_cons_self
    rw [rowBytes, rowBytes, rowBytes] at ih ⊢
    rw [List.filter_cons, List.filter_cons, List.filter_cons, htr]
    -- a row counts on the left if and only if it counts in one of the two sums
    cases hp : p r with
    | true =>
      rw [hpqr hp]
      simp only [Bool.or_false, if_true, Bool.false_eq_true, if_false, List.map_cons,
        Ledger.amount_cons, ih]
      by_cases hn : r.1 = name
      · rw [if_pos hn, if_pos hn, add_assoc]
      · rw [if_neg hn, if_neg hn]
    | false =>
      cases hq : q r with
      | true =>
        simp only [Bool.or_true, if_true, Bool.false_eq_true, if_false, List.map_cons,
          Ledger.amount_cons, ih]
        by_cases hn : r.1 = name
        · rw [if_pos hn, if_pos hn, add_left_comm]
        · rw [if_neg hn, if_neg hn]
      | false =>
        simp only [Bool.or_false, Bool.false_eq_true, if_false, ih]

/-- The block of a date holds the points of that date. -/
theorem pointByCond_iff (cal : Calendar) (step : String) {date : Int} {q : Int}
    (hdate : date = cal.dateTrunc step q) (s : StatRow) :
    pointByCond cal step date s = true ↔ cal.dateTrunc step s.1.point = date := by
  subst hdate
  rw [pointByCond, Bool.and_eq_true, decide_eq_true_eq, decide_eq_true_eq]
  constructor
  · rintro ⟨hle, hlt⟩
    exact cal.trunc_eq step q s.1.point hle hlt
  · intro h
    rw [← h]
    exact ⟨cal.trunc_le step _, cal.lt_next step _⟩

/-- A report by steps has each row of its blocks once. -/
theorem amount_stepRows (cal : Calendar) (sqi : Sqi) (db : ReportDb) (names : List FieldValue)
    (step : String) {dates : List Int} (hnd : dates.Nodup)
    (hdates : ∀ d ∈ dates, ∃ q, d = cal.dateTrunc step q) (name : FieldValue) :
    Ledger.amount ((stepRows cal sqi db names step dates).map fun r => (r.1.1, r.2.2)) name =
      rowBytes (sqi.rows db) (fun r => nameCond names r.1 &&
        dates.contains (cal.dateTrunc step r.2.1.point)) name := by
  -- by induction on the dates: the rows of the first block are in none of the others
  induction dates with
  | nil => simp [stepRows, rowBytes]
  | cons d dates ih =>
    obtain ⟨hd, hnd⟩ := List.nodup_cons.mp hnd
    obtain ⟨q, hq⟩ := hdates d List.mem_cons_self
    have hstep : stepRows cal sqi db names step (d :: dates) =
        ((sqi.rows db).filter fun r => nameCond names r.1 && pointByCond cal step d r.2).map
          (fun r => ((r.1, d), r.2)) ++ stepRows cal sqi db names step dates :=
      List.flatMap_cons
    rw [hstep, List.map_append, Ledger.amount_append,
      ih hnd fun d' h => hdates d' (List.mem_cons_of_mem _ h), List.map_map]
    refine (rowBytes_or (p := fun r => nameCond names r.1 && pointByCond cal step d r.2)
      (fun r _ => ?_) (fun r _ hp => ?_) name).symm
    · rw [List.contains_cons, ← Bool.and_or_distrib_left]
      congr 1
      congr 1
      rw [Bool.eq_iff_iff, pointByCond_iff cal step hq, beq_iff_eq]
    · rw [Bool.and_eq_true, pointByCond_iff cal step hq] at hp
      have hnot : dates.contains (cal.dateTrunc step r.2.1.point) = false := by
        rw [hp.2]
        simpa using hd
      rw [hnot, Bool.and_false]

/-- The rows of a report are rows of `unit_stat` or of `link_stat`. -/
theorem Sqi.mem_rows {sqi : Sqi} {db : ReportDb} {r : FieldValue × StatRow}
    (h : r ∈ sqi.rows db) : r.2 ∈ db.stat.unitStat.rows ∨ r.2 ∈ db.stat.linkStat.rows := by
  have hcon : ∀ t ∈ consumerRows db, t.1 ∈ db.stat.unitStat.rows := by
    intro t ht
    obtain ⟨s, hs, ht⟩ := List.mem_flatMap.mp ht
    obtain ⟨u, -, ht⟩ := List.mem_flatMap.mp ht
    obtain ⟨c, -, rfl⟩ := List.mem_map.mp ht
    exact hs
  have hlink : ∀ t ∈ gwlinkRows db, t.1 ∈ db.stat.linkStat.rows := by
    intro t ht
    obtain ⟨s, hs, ht⟩ := List.mem_flatMap.mp ht
    obtain ⟨l, -, rfl⟩ := List.mem_map.mp ht
    exact hs
  cases sqi with
  | unit =>
    obtain ⟨s, hs, h⟩ := List.mem_flatMap.mp h
    obtain ⟨u, -, rfl⟩ := List.mem_map.mp h
    exact Or.inl hs
  | consumer =>
    obtain ⟨t, ht, rfl⟩ := List.mem_map.mp h
    exact Or.inl (hcon t ht)
  | oper =>
    obtain ⟨t, ht, h⟩ := List.mem_flatMap.mp h
    obtain ⟨o, -, rfl⟩ := List.mem_map.mp h
    exact Or.inr (hlink t ht)
  | link =>
    obtain ⟨s, hs, rfl⟩ := List.mem_map.mp h
    exact Or.inr hs
  | gw =>
    obtain ⟨t, ht, h⟩ := List.mem_flatMap.mp h
    obtain ⟨g, -, rfl⟩ := List.mem_map.mp h
    exact Or.inr (hlink t ht)
  | selfUnit uid =>
    obtain ⟨t, ht, rfl⟩ := List.mem_map.mp h
    exact Or.inl (hcon t (List.mem_of_mem_filter ht))
  | selfConsumer uid =>
    obtain ⟨t, ht, rfl⟩ := List.mem_map.mp h
    exact Or.inl (hcon t (List.mem_of_mem_filter ht))

/-! ## The two reports

What the two have in common, and what the one by steps has more: the rows of its blocks outside of
the interval.
-/

/-- `unit_stat` and `link_stat` have rows at the same hours. -/
def SameHours (db : StatDb) : Prop :=
  ∀ p, (∃ s ∈ db.unitStat.rows, s.1.point = p) ↔ ∃ s ∈ db.linkStat.rows, s.1.point = p

/-- The dates of a report by steps; none if the view cannot be made. -/
def viewDates (cal : Calendar) (db : StatDb) (start stop : Int) (step : String) : List Int :=
  (createViewDates cal db start stop step).getD []

/-- The row is outside the interval, in a block in which `unit_stat` has a row inside. -/
def stray (cal : Calendar) (db : StatDb) (start stop : Int) (step : String) (s : StatRow) :
    Bool :=
  (viewDates cal db start stop step).contains (cal.dateTrunc step s.1.point) &&
    !pointInCond start stop s

/-- The bytes of the stray rows of a name that a report joins. -/
def strayBytes (cal : Calendar) (sqi : Sqi) (db : ReportDb) (names : List FieldValue)
    (start stop : Int) (step : String) (name : FieldValue) : Int × Int :=
  rowBytes (sqi.rows db) (fun r => nameCond names r.1 && stray cal db.stat start stop step r.2) name

theorem createViewDates_eq (cal : Calendar) (db : StatDb) {start stop : Int} (step : String)
    (h0 : 0 ≤ start) (h1 : 0 ≤ stop) :
    createViewDates cal db start stop step =
      some (((db.unitStat.rows.filter (pointInCond start stop)).map fun s =>
        cal.dateTrunc step s.1.point).dedup) := by
  rw [createViewDates, sqlTime, if_pos h0, sqlTime, if_pos h1]

theorem createViewDates_eq_none (cal : Calendar) (db : StatDb) {start stop : Int} (step : String)
    (h : ¬ (0 ≤ start ∧ 0 ≤ stop)) : createViewDates cal db start stop step = none := by
  rw [createViewDates, sqlTime, sqlTime]
  by_cases h0 : 0 ≤ start
  · have h1 : ¬ 0 ≤ stop := fun h1 => h ⟨h0, h1⟩
    simp [h0, h1]
  · simp [h0]

/-- A row of the interval is in a block of the view. -/
theorem contains_viewDates {cal : Calendar} {db : StatDb} (hh : SameHours db) {start stop : Int}
    (step : String) {s : StatRow} (hs : s ∈ db.unitStat.rows ∨ s ∈ db.linkStat.rows)
    (hin : pointInCond start stop s = true) :
    (viewDates cal db start stop step).contains (cal.dateTrunc step s.1.point) = true := by
  have hnn : 0 ≤ start ∧ 0 ≤ stop := by
    rw [pointInCond, sqlTime, sqlTime] at hin
    by_cases h0 : 0 ≤ start
    · by_cases h1 : 0 ≤ stop
      · exact ⟨h0, h1⟩
      · simp [h0, h1] at hin
    · simp [h0] at hin
  -- a row of `link_stat` has a row of `unit_stat` at its hour
  obtain ⟨u, hu, hpt⟩ : ∃ u ∈ db.unitStat.rows, u.1.point = s.1.point := by
    rcases hs with hs | hs
    · exact ⟨s, hs, rfl⟩
    · exact (hh s.1.point).mpr ⟨s, hs, rfl⟩
  have huin : pointInCond start stop u = true := by
    rw [pointInCond, hpt]
    exact hin
  rw [viewDates, createViewDates_eq cal db step hnn.1 hnn.2, Option.getD_some,
    List.contains_iff_mem, List.mem_dedup, ← hpt]
  exact List.mem_map.mpr ⟨u, List.mem_filter.mpr ⟨hu, huin⟩, rfl⟩

/-- The blocks of a report by steps hold the rows of the interval and the stray ones. -/
theorem rowBytes_blocks {cal : Calendar} {sqi : Sqi} {db : ReportDb} (hh : SameHours db.stat)
    (names : List FieldValue) (start stop : Int) (step : String) (name : FieldValue) :
    rowBytes (sqi.rows db) (fun r => nameCond names r.1 &&
        (viewDates cal db.stat start stop step).contains (cal.dateTrunc step r.2.1.point)) name =
      rowBytes (sqi.rows db) (fun r => nameCond names r.1 && pointInCond start stop r.2) name +
        strayBytes cal sqi db names start stop step name := by
  refine rowBytes_or (fun r hr => ?_) (fun r hr hp => ?_) name
  · rw [← Bool.and_or_distrib_left, stray]
    -- a row inside the interval is in a block; one outside that is in a block is stray
    cases hin : pointInCond start stop r.2 with
    | true => rw [contains_viewDates hh step (Sqi.mem_rows hr) hin, Bool.true_or]
    | false => rw [Bool.false_or, Bool.not_false, Bool.and_true]
  · rw [Bool.and_eq_true] at hp
    rw [stray, hp.2, Bool.not_true, Bool.and_false, Bool.and_false]

variable {cal : Calendar} {req : StatReq} {step : String} {start stop : Int}

/-- A request is accepted without a step if it is with one. -/
theorem parseTimeArgs_none
    (h : parseTimeArgs cal req.start req.stop req.period (some step) = .ok (start, stop)) :
    parseTimeArgs cal req.start req.stop req.period none = .ok (start, stop) := by
  rw [parseTimeArgs.eq_def] at h ⊢
  rw [if_neg (by simp)]
  by_cases hs : (Option.any (fun s => !stepName.contains s) (some step)) = true
  · rw [if_pos hs] at h
    cases h
  · rw [if_neg hs] at h
    exact h

/-- The plain report. -/
theorem ansBytes_plain (sqi : Sqi) (db : ReportDb)
    (h : parseTimeArgs cal req.start req.stop req.period (some step) = .ok (start, stop))
    (hb : req.human = false ∨ req.blockSize = 1) (name : FieldValue) :
    ansBytes (statCommon cal sqi db { req with step := none } []) name =
      (((rowBytes (sqi.rows db)
          (fun r => nameCond req.names r.1 && pointInCond start stop r.2) name).1 : ℚ),
        ((rowBytes (sqi.rows db)
          (fun r => nameCond req.names r.1 && pointInCond start stop r.2) name).2 : ℚ)) := by
  simp only [statCommon, parseTimeArgs_none h, nextCall, statFetch]
  refine (ansBytes_groupBy ⟨req.blockSize, req.human, start, stop, none⟩ hb id
    (fun _ => none) _ name).trans ?_
  rw [List.map_map]
  rfl

/-- The report by steps. -/
theorem ansBytes_step (sqi : Sqi) (db : ReportDb)
    (h : parseTimeArgs cal req.start req.stop req.period (some step) = .ok (start, stop))
    (hb : req.human = false ∨ req.blockSize = 1) (name : FieldValue) :
    ansBytes (statCommon cal sqi db { req with step := some step } []) name =
      (((rowBytes (sqi.rows db) (fun r => nameCond req.names r.1 &&
          (viewDates cal db.stat start stop step).contains
            (cal.dateTrunc step r.2.1.point)) name).1 : ℚ),
        ((rowBytes (sqi.rows db) (fun r => nameCond req.names r.1 &&
          (viewDates cal db.stat start stop step).contains
            (cal.dateTrunc step r.2.1.point)) name).2 : ℚ)) := by
  simp only [statCommon, h, nextCall]
  by_cases hnn : 0 ≤ start ∧ 0 ≤ stop
  · have hview := createViewDates_eq cal db.stat step hnn.1 hnn.2
    rw [viewDates, hview, Option.getD_some]
    simp only [statFetchBy]
    refine (ansBytes_groupBy ⟨req.blockSize, req.human, start, stop, some step⟩ hb
      Prod.fst (fun k => some k.2) _ name).trans ?_
    rw [List.map_map, ← amount_stepRows cal sqi db req.names step (List.nodup_dedup _)]
    · rfl
    · intro d hd
      obtain ⟨s, -, rfl⟩ := List.mem_map.mp (List.mem_dedup.mp hd)
      exact ⟨s.1.point, rfl⟩
  -- a time before 1970 is `NULL`: there is no view, and the plain report selects nothing
  · have hview := createViewDates_eq_none cal db.stat step hnn
    have hnone : ∀ r : FieldValue × StatRow, (nameCond req.names r.1 &&
        (Option.getD (none : Option (List Int)) []).contains
          (cal.dateTrunc step r.2.1.point)) = false := fun r => Bool.and_false _
    rw [viewDates, hview, rowBytes, List.filter_eq_nil_iff.mpr fun r _ => by rw [hnone r]; decide]
    rfl

/-- **Reports by steps.** The rows of a report by steps add up to the plain report, for
every name, exactly when no name has bytes outside the interval in a block in which
`unit_stat` has a row of the interval. -/
theorem step_report_iff (cal : Calendar) (sqi : Sqi) (db : ReportDb) (req : StatReq)
    (step : String) (start stop : Int) (hh : SameHours db.stat)
    (h : parseTimeArgs cal req.start req.stop req.period (some step) = .ok (start, stop))
    (hb : req.human = false ∨ req.blockSize = 1) :
    (∀ name, ansBytes (statCommon cal sqi db { req with step := some step } []) name =
        ansBytes (statCommon cal sqi db { req with step := none } []) name) ↔
      ∀ name, strayBytes cal sqi db req.names start stop step name = 0 := by
  refine forall_congr' fun name => ?_
  rw [ansBytes_step sqi db h hb, ansBytes_plain sqi db h hb, rowBytes_blocks hh, Prod.mk_inj,
    Int.cast_inj, Int.cast_inj, Prod.fst_add, Prod.snd_add, add_eq_left, add_eq_left]
  exact ⟨fun h => Prod.ext h.1 h.2, fun h => by rw [h]; exact ⟨rfl, rfl⟩⟩

/-- An interval made of whole blocks has no stray rows. -/
theorem strayBytes_eq_zero_of_blocks (sqi : Sqi) (db : ReportDb) (names : List FieldValue)
    (hblocks : ∀ p, start ≤ p → p < stop →
      start ≤ cal.dateTrunc step p ∧ cal.dateNext step (cal.dateTrunc step p) ≤ stop)
    (name : FieldValue) : strayBytes cal sqi db names start stop step name = 0 := by
  have hnot : ∀ r : FieldValue × StatRow, stray cal db.stat start stop step r.2 = false := by
    intro r
    by_contra hstray
    rw [Bool.not_eq_false, stray, Bool.and_eq_true, List.contains_iff_mem] at hstray
    obtain ⟨hmem, hout⟩ := hstray
    by_cases hnn : 0 ≤ start ∧ 0 ≤ stop
    · rw [viewDates, createViewDates_eq cal db.stat step hnn.1 hnn.2, Option.getD_some,
        List.mem_dedup] at hmem
      obtain ⟨u, hu, hdate⟩ := List.mem_map.mp hmem
      have hin : ∀ s : StatRow, pointInCond start stop s =
          (decide (start ≤ s.1.point) && decide (s.1.point < stop)) := by
        intro s
        rw [pointInCond, sqlTime, if_pos hnn.1, sqlTime, if_pos hnn.2]
      have hu := (List.mem_filter.mp hu).2
      rw [hin, Bool.and_eq_true, decide_eq_true_eq, decide_eq_true_eq] at hu
      obtain ⟨hle, hlt⟩ := hblocks u.1.point hu.1 hu.2
      rw [hdate] at hle hlt
      have hr₁ := le_trans hle (cal.trunc_le step r.2.1.point)
      have hr₂ := lt_of_lt_of_le (cal.lt_next step r.2.1.point) hlt
      rw [hin, decide_eq_true hr₁, decide_eq_true hr₂] at hout
      exact absurd hout (by decide)
    · rw [viewDates, createViewDates_eq_none cal db.stat step hnn] at hmem
      exact absurd hmem List.not_mem_nil
  have hnil : (sqi.rows db).filter (fun r => nameCond names r.1 &&
      stray cal db.stat start stop step r.2) = [] := by
    refine List.filter_eq_nil_iff.mpr fun r _ h => ?_
    rw [hnot r, Bool.and_false] at h
    exact absurd h (by decide)
  rw [strayBytes, rowBytes, hnil]
  rfl

/-- Blocks of fixed lengths, counted from the epoch. -/
def exampleCalendar : Calendar where
  period _ start := .ok (start, start + 86400)
  dateTrunc step p := if step = "hour" then p - p % 3600 else p - p % 86400
  dateNext step d := if step = "hour" then d + 3600 else d + 86400
  trunc_le step p := by
    by_cases h : step = "hour"
    · rw [if_pos h]
      omega
    · rw [if_neg h]
      omega
  lt_next step p := by
    by_cases h : step = "hour"
    · simp only [if_pos h]
      omega
    · simp only [if_neg h]
      omega
  trunc_eq step p q := by
    by_cases h : step = "hour"
    · simp only [if_pos h]
      omega
    · simp only [if_neg h]
      omega

/-- A unit with 100 bytes out in the first hour of 2010-01-01 and 28 in the second. -/
def exampleReportDb : ReportDb where
  stat :=
    { unitStat := ⟨[(⟨1262304000, 7⟩, (0, 100)), (⟨1262307600, 7⟩, (0, 28))], by decide⟩
      linkStat := ⟨[(⟨1262304000, 5⟩, (0, 100)), (⟨1262307600, 5⟩, (0, 28))], by decide⟩
      unitLinkStat := ⟨[(⟨1262304000, 7, 5⟩, (0, 100)), (⟨1262307600, 7, 5⟩, (0, 28))], by decide⟩ }
  units := ⟨[(7, ⟨"office", none, some 0, some 0, false⟩)], by decide⟩
  consumers := .empty
  gwlinks := ⟨[(5, ⟨1, 1, 3, some 0, some 0⟩)], by decide⟩
  operators := ⟨[(1, "carrier")], by decide⟩
  gateways := ⟨[(1, "edge")], by decide⟩

theorem exampleReportDb_hours : SameHours exampleReportDb.stat := by
  intro p
  simp [exampleReportDb]

/-- The second hour, by hours. -/
theorem step_report_hour :
    ansBytes (statCommon exampleCalendar .unit exampleReportDb
        ⟨1262307600, 1262311200, none, some "hour", 1, false, []⟩ []) (.text "office") = (0, 28) ∧
      ansBytes (statCommon exampleCalendar .unit exampleReportDb
        ⟨1262307600, 1262311200, none, some "hour", 1, false, []⟩ []) (.text "office") =
      ansBytes (statCommon exampleCalendar .unit exampleReportDb
        ⟨1262307600, 1262311200, none, none, 1, false, []⟩ []) (.text "office") := by
  refine ⟨by decide +kernel, ?_⟩
  refine (step_report_iff exampleCalendar .unit exampleReportDb
    ⟨1262307600, 1262311200, none, none, 1, false, []⟩ "hour" 1262307600 1262311200
    exampleReportDb_hours (by decide +kernel) (Or.inl rfl)).mpr (fun name => ?_) (.text "office")
  refine strayBytes_eq_zero_of_blocks _ _ _ (fun p h₁ h₂ => ?_) name
  have hhour : exampleCalendar.dateTrunc "hour" p = p - p % 3600 := by
    simp [exampleCalendar]
  have hnext : ∀ d, exampleCalendar.dateNext "hour" d = d + 3600 := fun d => by
    simp [exampleCalendar]
  rw [hnext, hhour]
  omega

/-- The second hour, by days: the bytes of the first hour are in the report. -/
theorem step_report_day :
    SameHours exampleReportDb.stat ∧
      parseTimeArgs exampleCalendar 1262307600 1262311200 none (some "day") =
        .ok (1262307600, 1262311200) ∧
      ansBytes (statCommon exampleCalendar .unit exampleReportDb
        ⟨1262307600, 1262311200, none, some "day", 1, false, []⟩ []) (.text "office") = (0, 128) ∧
      ansBytes (statCommon exampleCalendar .unit exampleReportDb
        ⟨1262307600, 1262311200, none, none, 1, false, []⟩ []) (.text "office") = (0, 28) :=
  ⟨exampleReportDb_hours, by decide +kernel, by decide +kernel, by decide +kernel⟩

end Mbb
