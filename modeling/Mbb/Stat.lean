import Mathlib.Data.BitVec
import Mathlib.Algebra.Order.Group.Int
import Mathlib.Algebra.Order.Monoid.Prod
import Mbb.Lib.Ledger

/-!
# Statistics (`modules/stat/mbbstat.c`, `sql/func.sql`)

A pool collects the bytes of flows by hour in three hash tables: by unit, by link and by
both. Saving a pool adds its records to three tables of the database, in one transaction;
a wipe sets the rows of an interval of hours to zero, in one transaction.

The database and the polling of the task are outside: the outcomes of the calls to them
are a list, and the calls past its end succeed.
-/

namespace Mbb

/-- `mbb_stat_extract_hour` -/
def mbbStatExtractHour (t : Int) : Int := t - t.tmod 3600

/-- The amounts of `struct stat_rec`, `nbyte_in` and `nbyte_out`, each a `guint64`. -/
abbrev StatRec : Type := BitVec 64 × BitVec 64

/-- `struct mbb_stat_entry` -/
structure StatEntry : Type where
  /-- unit; a `gint` passed as `guint` -/
  unitId : Int
  /-- link; a `gint` passed as `guint` -/
  linkId : Int
  /-- `nbyte_in` and `nbyte_out` -/
  bytes : StatRec
  /-- time -/
  point : Int

/-- `struct single_key` -/
structure SingleKey : Type where
  /-- hour -/
  point : Int
  /-- unit or link -/
  id : Int
deriving DecidableEq

/-- `struct double_key` -/
structure DoubleKey : Type where
  /-- hour -/
  point : Int
  /-- unit -/
  aid : Int
  /-- link -/
  bid : Int
deriving DecidableEq

/-- `struct mbb_stat_pool` -/
structure StatPool : Type where
  /-- by unit -/
  ustat : Ledger SingleKey StatRec
  /-- by link -/
  lstat : Ledger SingleKey StatRec
  /-- by unit and link -/
  ulstat : Ledger DoubleKey StatRec

/-- `mbb_stat_pool_new` -/
def mbbStatPoolNew : StatPool := ⟨.empty, .empty, .empty⟩

section Tables

variable {K : Type} [DecidableEq K]

/-- `rec_update`: a record of zeros is made for a new key. -/
def recUpdate (ht : Ledger K StatRec) (key : K) (data : StatRec) : Ledger K StatRec :=
  let ht := if h : ht.get? key = none then ht.insert key 0 h else ht
  ht.addTo key data

/-- The body of the functions of `sql/func.sql`: update the row, and insert one if there
was none. The counts are `bigint`s; one out of range makes the query fail. -/
def updateStat (table : Ledger K (Int × Int)) (key : K) (nbyte : Int × Int) :
    Ledger K (Int × Int) :=
  let table := table.addTo key nbyte
  if h : table.get? key = none then table.insert key nbyte h else table

/-- `stat_table_clean` -/
def statTableClean (point : K → Int) (table : Ledger K (Int × Int)) (start stop : Int) :
    Ledger K (Int × Int) :=
  table.update (fun k => decide (start ≤ point k) && decide (point k < stop)) fun _ => (0, 0)

end Tables

/-- The key in `ustat`. -/
def StatEntry.unitKey (e : StatEntry) : SingleKey := ⟨mbbStatExtractHour e.point, e.unitId⟩

/-- The key in `lstat`. -/
def StatEntry.linkKey (e : StatEntry) : SingleKey := ⟨mbbStatExtractHour e.point, e.linkId⟩

/-- The key in `ulstat`. -/
def StatEntry.unitLinkKey (e : StatEntry) : DoubleKey :=
  ⟨mbbStatExtractHour e.point, e.unitId, e.linkId⟩

/-- `mbb_stat_feed` -/
def mbbStatFeed (pool : StatPool) (entry : StatEntry) : StatPool where
  ustat := recUpdate pool.ustat entry.unitKey entry.bytes
  lstat := recUpdate pool.lstat entry.linkKey entry.bytes
  ulstat := recUpdate pool.ulstat entry.unitLinkKey entry.bytes

/-! ## The database

Three tables of rows. A save is a transaction with one query for each record, and any of them may
fail.
-/

/-- The three tables. -/
structure StatDb : Type where
  /-- `unit_stat` -/
  unitStat : Ledger SingleKey (Int × Int)
  /-- `link_stat` -/
  linkStat : Ledger SingleKey (Int × Int)
  /-- `unit_link_stat` -/
  unitLinkStat : Ledger DoubleKey (Int × Int)

/-- `update_unit_stat` -/
def updateUnitStat (db : StatDb) (key : SingleKey) (nbyte : Int × Int) : StatDb :=
  { db with unitStat := updateStat db.unitStat key nbyte }

/-- `update_link_stat` -/
def updateLinkStat (db : StatDb) (key : SingleKey) (nbyte : Int × Int) : StatDb :=
  { db with linkStat := updateStat db.linkStat key nbyte }

/-- `update_unit_link_stat` -/
def updateUnitLinkStat (db : StatDb) (key : DoubleKey) (nbyte : Int × Int) : StatDb :=
  { db with unitLinkStat := updateStat db.unitLinkStat key nbyte }

/-- The amounts as the query has them. -/
def StatRec.toBigint (r : StatRec) : Int × Int := (r.1.toNat, r.2.toNat)

theorem StatRec.toBigint_nonneg (r : StatRec) : 0 ≤ StatRec.toBigint r :=
  ⟨Int.natCast_nonneg _, Int.natCast_nonneg _⟩

theorem StatRec.toBigint_eq_zero {r : StatRec} : StatRec.toBigint r = 0 ↔ r = 0 := by
  rw [StatRec.toBigint, Prod.ext_iff, Prod.ext_iff]
  simp [BitVec.toNat_eq]

/-- `unit_rec_save` -/
def unitRecSave (db : StatDb) (r : SingleKey × StatRec) : StatDb :=
  updateUnitStat db r.1 (StatRec.toBigint r.2)

/-- `link_rec_save` -/
def linkRecSave (db : StatDb) (r : SingleKey × StatRec) : StatDb :=
  updateLinkStat db r.1 (StatRec.toBigint r.2)

/-- `unit_link_rec_save` -/
def unitLinkRecSave (db : StatDb) (r : DoubleKey × StatRec) : StatDb :=
  updateUnitLinkStat db r.1 (StatRec.toBigint r.2)

/-- The order in which `g_hash_table_iter_next` gives the records. -/
class HashOrder : Type 1 where
  /-- the records in that order -/
  order : {α : Type} → List α → List α
  /-- each of them once -/
  perm : ∀ {α : Type} (l : List α), (order l).Perm l

/-- The order of insertion. -/
abbrev HashOrder.plain : HashOrder := ⟨id, fun _ => List.Perm.refl _⟩

/-- The outcome of the next call. -/
def nextCall : List Bool → Bool × List Bool
  | [] => (true, [])
  | ok :: calls => (ok, calls)

/-- `save_records` over the records left: the task is polled before each query. -/
def saveRecords {α : Type} (save : StatDb → α → StatDb) :
    List α → StatDb → List Bool → Option StatDb × List Bool
  | [], db, calls => (some db, calls)
  | r :: recs, db, calls =>
    match nextCall calls with
    | (false, calls) => (none, calls)
    | (true, calls) =>
      match nextCall calls with
      | (false, calls) => (none, calls)
      | (true, calls) => saveRecords save recs (save db r) calls

/-- Begin, the queries, and commit or rollback. The outcome is that of the begin and of
the queries; neither that of the commit nor that of the rollback is looked at. -/
def transaction (queries : StatDb → List Bool → Option StatDb × List Bool) (db : StatDb)
    (calls : List Bool) : Bool × StatDb × List Bool :=
  match nextCall calls with
  | (false, calls) => (false, db, calls)
  | (true, calls) =>
    match queries db calls with
    | (none, calls) => (false, db, (nextCall calls).2)
    | (some db', calls) =>
      match nextCall calls with
      | (true, calls) => (true, db', calls)
      | (false, calls) => (true, db, calls)

/-- The queries of `mbb_stat_pool_save`. -/
def poolQueries [HashOrder] (pool : StatPool) (db : StatDb) (calls : List Bool) :
    Option StatDb × List Bool :=
  match saveRecords unitRecSave (HashOrder.order pool.ustat.rows) db calls with
  | (none, calls) => (none, calls)
  | (some db, calls) =>
    match saveRecords linkRecSave (HashOrder.order pool.lstat.rows) db calls with
    | (none, calls) => (none, calls)
    | (some db, calls) =>
      saveRecords unitLinkRecSave (HashOrder.order pool.ulstat.rows) db calls

/-- `mbb_stat_pool_save` -/
def mbbStatPoolSave [HashOrder] (pool : StatPool) (db : StatDb) (calls : List Bool) :
    StatDb × List Bool :=
  match nextCall calls with
  | (false, calls) => (db, calls)
  | (true, calls) => (transaction (poolQueries pool) db calls).2

/-- The queries of `mbb_stat_db_wipe`. -/
def wipeQueries (start stop : Int) (db : StatDb) (calls : List Bool) :
    Option StatDb × List Bool :=
  let db₁ := { db with unitStat := statTableClean SingleKey.point db.unitStat start stop }
  let db₂ := { db₁ with linkStat := statTableClean SingleKey.point db₁.linkStat start stop }
  let db₃ := { db₂ with unitLinkStat := statTableClean DoubleKey.point db₂.unitLinkStat start stop }
  match nextCall calls with
  | (false, calls) => (none, calls)
  | (true, calls) =>
    match nextCall calls with
    | (false, calls) => (none, calls)
    | (true, calls) =>
      match nextCall calls with
      | (false, calls) => (none, calls)
      | (true, calls) => (some db₃, calls)

/-- `mbb_stat_db_wipe` -/
def mbbStatDbWipe (start stop : Int) (db : StatDb) (calls : List Bool) :
    Bool × StatDb × List Bool :=
  transaction (wipeQueries start stop) db calls

/-! ## Records and rows -/

section Posts

variable {K : Type} [DecidableEq K]

theorem recUpdate_posts : Ledger.Posts (recUpdate (K := K)) := by
  intro ht key data k
  simp only [recUpdate]
  by_cases h : ht.get? key = none
  · rw [dif_pos h, Ledger.get?_addTo, Ledger.get?_insert, Ledger.get?_insert,
      Ledger.total_eq_zero h, if_pos rfl]
    by_cases hk : k = key <;> simp [hk]
  · obtain ⟨v, hv⟩ := Option.ne_none_iff_exists'.mp h
    rw [dif_neg h, Ledger.get?_addTo, Ledger.total, hv]
    rfl

theorem updateStat_posts : Ledger.Posts (updateStat (K := K)) := by
  intro table key nbyte k
  simp only [updateStat]
  have hkey : (table.addTo key nbyte).get? key = (table.get? key).map (· + nbyte) := by
    rw [Ledger.get?_addTo, if_pos rfl]
  cases hv : table.get? key with
  | none =>
    have h : (table.addTo key nbyte).get? key = none := by
      rw [hkey, hv]
      rfl
    rw [dif_pos h, Ledger.get?_insert, Ledger.get?_addTo, Ledger.total_eq_zero hv, zero_add]
    by_cases hk : k = key <;> simp [hk]
  | some v =>
    have h : (table.addTo key nbyte).get? key ≠ none := by
      rw [hkey, hv]
      exact Option.some_ne_none _
    rw [dif_neg h, Ledger.get?_addTo, Ledger.total, hv]
    rfl

end Posts

/-! ## When every call succeeds -/

theorem saveRecords_nil {α : Type} (save : StatDb → α → StatDb) (recs : List α) (db : StatDb) :
    saveRecords save recs db [] = (some (recs.foldl save db), []) := by
  induction recs generalizing db with
  | nil => rfl
  | cons r recs ih => exact ih (save db r)

/-- The database after a pool has been saved. -/
def StatPool.saved [HashOrder] (pool : StatPool) (db : StatDb) : StatDb :=
  let db₁ := (HashOrder.order pool.ustat.rows).foldl unitRecSave db
  let db₂ := (HashOrder.order pool.lstat.rows).foldl linkRecSave db₁
  (HashOrder.order pool.ulstat.rows).foldl unitLinkRecSave db₂

theorem mbbStatPoolSave_nil [HashOrder] (pool : StatPool) (db : StatDb) :
    mbbStatPoolSave pool db [] = (pool.saved db, []) := by
  simp only [mbbStatPoolSave, nextCall, transaction, poolQueries, saveRecords_nil, StatPool.saved]

/-- The database after a wipe. -/
def StatDb.wiped (db : StatDb) (start stop : Int) : StatDb where
  unitStat := statTableClean SingleKey.point db.unitStat start stop
  linkStat := statTableClean SingleKey.point db.linkStat start stop
  unitLinkStat := statTableClean DoubleKey.point db.unitLinkStat start stop

theorem mbbStatDbWipe_nil (start stop : Int) (db : StatDb) :
    mbbStatDbWipe start stop db [] = (true, db.wiped start stop, []) := rfl

/-! ## One table

The three tables of a pool differ in the key alone. A view is one of them, with its table in the
database.
-/

/-- The rows posted for a pool: its records in some order. -/
def savedRows {K : Type} [HashOrder] (ht : Ledger K StatRec) : List (K × (Int × Int)) :=
  (HashOrder.order ht.rows).map fun r => (r.1, StatRec.toBigint r.2)

/-- One of the three tables: it is fed, saved and wiped by itself. -/
structure StatView (K : Type) [DecidableEq K] [HashOrder] : Type where
  /-- key of an entry -/
  key : StatEntry → K
  /-- hour of a key -/
  point : K → Int
  /-- in a pool -/
  pool : StatPool → Ledger K StatRec
  /-- in the database -/
  table : StatDb → Ledger K (Int × Int)
  /-- the hour is that of the entry -/
  point_key : ∀ e, point (key e) = mbbStatExtractHour e.point
  /-- a new pool has no records -/
  pool_new : pool mbbStatPoolNew = .empty
  /-- what an entry does -/
  pool_feed : ∀ p e, pool (mbbStatFeed p e) = recUpdate (pool p) (key e) e.bytes
  /-- what saving a pool does -/
  table_saved : ∀ (p : StatPool) (db : StatDb), table (p.saved db) =
    (savedRows (pool p)).foldl (fun t r => updateStat t r.1 r.2) (table db)
  /-- what a wipe does -/
  table_wiped : ∀ (db : StatDb) start stop,
    table (db.wiped start stop) = statTableClean point (table db) start stop

/-- A fold that leaves one table alone. -/
theorem foldl_keeps {α σ τ : Type} (π : σ → τ) (f : σ → α → σ) (h : ∀ s a, π (f s a) = π s)
    (l : List α) (s : σ) : π (l.foldl f s) = π s := by
  induction l generalizing s with
  | nil => rfl
  | cons a l ih => rw [List.foldl_cons, ih, h]

section Views

variable [HashOrder]

/-- `unit_stat` -/
def unitView : StatView SingleKey where
  key := StatEntry.unitKey
  point := SingleKey.point
  pool := StatPool.ustat
  table := StatDb.unitStat
  point_key _ := rfl
  pool_new := rfl
  pool_feed _ _ := rfl
  table_saved p db := by
    rw [StatPool.saved, foldl_keeps StatDb.unitStat unitLinkRecSave fun _ _ => rfl,
      foldl_keeps StatDb.unitStat linkRecSave fun _ _ => rfl, savedRows, List.foldl_map]
    exact (List.foldl_hom StatDb.unitStat fun _ _ => rfl).symm
  table_wiped _ _ _ := rfl

/-- `link_stat` -/
def linkView : StatView SingleKey where
  key := StatEntry.linkKey
  point := SingleKey.point
  pool := StatPool.lstat
  table := StatDb.linkStat
  point_key _ := rfl
  pool_new := rfl
  pool_feed _ _ := rfl
  table_saved p db := by
    rw [StatPool.saved, foldl_keeps StatDb.linkStat unitLinkRecSave fun _ _ => rfl, savedRows,
      List.foldl_map, ← foldl_keeps StatDb.linkStat unitRecSave (fun _ _ => rfl)
        (HashOrder.order p.ustat.rows) db]
    exact (List.foldl_hom StatDb.linkStat fun _ _ => rfl).symm
  table_wiped _ _ _ := rfl

/-- `unit_link_stat` -/
def unitLinkView : StatView DoubleKey where
  key := StatEntry.unitLinkKey
  point := DoubleKey.point
  pool := StatPool.ulstat
  table := StatDb.unitLinkStat
  point_key _ := rfl
  pool_new := rfl
  pool_feed _ _ := rfl
  table_saved p db := by
    rw [StatPool.saved, savedRows, List.foldl_map,
      ← foldl_keeps StatDb.unitLinkStat unitRecSave (fun _ _ => rfl)
        (HashOrder.order p.ustat.rows) db,
      ← foldl_keeps StatDb.unitLinkStat linkRecSave (fun _ _ => rfl)
        (HashOrder.order p.lstat.rows) ((HashOrder.order p.ustat.rows).foldl unitRecSave db)]
    exact (List.foldl_hom StatDb.unitLinkStat fun _ _ => rfl).symm
  table_wiped _ _ _ := rfl

end Views

namespace StatView

variable [HashOrder] {K : Type} [DecidableEq K] (v : StatView K)

/-- What the entries `es` are in the table, as postings. -/
def posts (es : List StatEntry) : List (K × StatRec) := es.map fun e => (v.key e, e.bytes)

/-- The records of a pool that was fed the entries. -/
theorem pool_feedAll (es : List StatEntry) (p : StatPool) :
    v.pool (es.foldl mbbStatFeed p) =
      (v.posts es).foldl (fun t r => recUpdate t r.1 r.2) (v.pool p) := by
  rw [posts, List.foldl_map]
  exact (List.foldl_hom v.pool fun p e => (v.pool_feed p e).symm).symm

/-- What the pool of the entries adds to a row. -/
theorem amount_savedRows (es : List StatEntry) (k : K) :
    Ledger.amount (savedRows (v.pool (es.foldl mbbStatFeed mbbStatPoolNew))) k =
      StatRec.toBigint (Ledger.amount (v.posts es) k) := by
  have hperm := ((HashOrder.perm (v.pool (es.foldl mbbStatFeed mbbStatPoolNew)).rows).map
    fun r => (r.1, StatRec.toBigint r.2))
  rw [savedRows, Ledger.amount_perm hperm, Ledger.amount_rows _ (f := StatRec.toBigint) rfl,
    Ledger.total, v.pool_feedAll, recUpdate_posts.foldl, v.pool_new, Ledger.posted,
    Ledger.total_eq_zero (Ledger.get?_empty k), zero_add]
  by_cases hk : k ∈ (v.posts es).map Prod.fst
  · rw [if_pos hk]
    rfl
  · rw [if_neg hk, Ledger.amount_eq_zero hk]
    rfl

end StatView

end Mbb
