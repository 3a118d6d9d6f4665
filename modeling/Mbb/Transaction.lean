import Mathlib.Algebra.BigOperators.Group.List.Basic
import Mathlib.Algebra.Ring.Int.Defs
import Mathlib.Tactic.Common

/-!
# The lock of transactions (`mbbd/mbbdb.c`, `mbbd/modules/stat/mbbstat.c`)

Threads that share the database connection take the recursive `query_mutex`: a query for its
own time, `mbb_db_begin` until `mbb_db_commit` or `mbb_db_rollback`. Which of these a caller
calls depends on what the calls before have answered. What a call does to the mutex is a list
of locks and unlocks here; the answers of the database come from the environment.
-/

namespace Mbb

/-- What is done to `query_mutex`. -/
inductive MutexOp : Type where
  /-- `g_static_rec_mutex_lock` -/
  | lock
  /-- `g_static_rec_mutex_unlock` -/
  | unlock
  deriving DecidableEq

namespace MutexOp

/-- How often the mutex is held more. -/
def depth (ops : List MutexOp) : Int :=
  (ops.map fun | .lock => (1 : Int) | .unlock => -1).sum

@[simp] theorem depth_nil : depth [] = 0 := rfl

@[simp] theorem depth_append (ops ops' : List MutexOp) :
    depth (ops ++ ops') = depth ops + depth ops' := by
  rw [depth, List.map_append, List.sum_append, depth, depth]

/-- The mutex is held as often as before, and has not been unlocked more often than locked. -/
structure Balanced (ops : List MutexOp) : Prop where
  /-- in the end -/
  depth_eq : depth ops = 0
  /-- at every moment -/
  depth_nonneg : ∀ n, 0 ≤ depth (ops.take n)

variable {ops ops' : List MutexOp}

theorem balanced_nil : Balanced [] := ⟨rfl, fun n => by simp⟩

theorem Balanced.append (h : Balanced ops) (h' : Balanced ops') : Balanced (ops ++ ops') where
  depth_eq := by rw [depth_append, h.depth_eq, h'.depth_eq, add_zero]
  depth_nonneg n := by
    rw [List.take_append, depth_append]
    exact Int.add_nonneg (h.depth_nonneg n) (h'.depth_nonneg _)

@[simp] theorem depth_lock_cons (ops : List MutexOp) : depth (.lock :: ops) = 1 + depth ops := by
  simp [depth]

@[simp] theorem depth_unlock_cons (ops : List MutexOp) :
    depth (.unlock :: ops) = -1 + depth ops := by
  simp [depth]

/-- With the lock held. -/
theorem Balanced.lock_nonneg (h : Balanced ops) (n : ℕ) : 0 ≤ depth ((.lock :: ops).take n) := by
  cases n with
  | zero => simp
  | succ n =>
    have := h.depth_nonneg n
    rw [List.take_succ_cons, depth_lock_cons]
    omega

theorem Balanced.lock_unlock (h : Balanced ops) : Balanced (.lock :: (ops ++ [.unlock])) where
  depth_eq := by simp [h.depth_eq]
  depth_nonneg n := by
    cases n with
    | zero => simp
    | succ n =>
      have hops := h.depth_nonneg n
      have hend : -1 ≤ depth ([MutexOp.unlock].take (n - ops.length)) := by
        cases n - ops.length <;> simp
      rw [List.take_succ_cons, depth_lock_cons, List.take_append, depth_append]
      omega

end MutexOp

/-- The connection that `db_get_conn` gives. -/
inductive DbConn : Type where
  /-- none -/
  | null
  /-- `db_conn` -/
  | shared
  /-- one of the thread's own -/
  | own
  deriving DecidableEq

/-- `begin`, `commit` and `rollback` of a driver, `none` for `NULL`, and what they answer. -/
structure DbDriver : Type where
  /-- `begin` -/
  start : Option Bool
  /-- `commit` -/
  commit : Option Bool
  /-- `rollback` -/
  rollback : Option Bool

namespace QueryMutex

section

variable (conn : DbConn) (db : DbDriver)

/-- `make_call` -/
def makeCall (callback : Option Bool) (opens : Bool) : Bool × List MutexOp :=
  if conn = .null then (false, [])
  else
    match callback with
    | none => (false, [])
    | some ret =>
      if conn ≠ .shared then (ret, [])
      else (ret, (if opens then [.lock] else []) ++ if opens then [] else [.unlock])

/-- `mbb_db_begin` -/
def mbbDbBegin : Bool × List MutexOp := makeCall conn db.start true

/-- `mbb_db_rollback` -/
def mbbDbRollback : Bool × List MutexOp := makeCall conn db.rollback false

/-- `mbb_db_commit` -/
def mbbDbCommit : Bool × List MutexOp := makeCall conn db.commit false

/-- `mbb_db_query`, and `mbb_db_update` -/
def mbbDbQuery (ret : Bool) : Bool × List MutexOp :=
  match conn with
  | .null => (false, [])
  | .shared => (ret, [.lock, .unlock])
  | .own => (ret, [])

/-! ## `mbb_stat_db_wipe` -/

/-- The loop of `mbb_stat_db_wipe`: what the updates answer. -/
def cleanTables : List Bool → Bool × List MutexOp
  | [] => (true, [])
  | ret :: rets =>
    let r := mbbDbQuery conn ret
    if !r.1 then (false, r.2)
    else
      let rest := cleanTables rets
      (rest.1, r.2 ++ rest.2)

/-- `mbb_stat_db_wipe`; the tables are `unit_stat`, `link_stat` and `unit_link_stat`. -/
def mbbStatDbWipe (unitStat linkStat unitLinkStat : Bool) : Bool × List MutexOp :=
  let start := mbbDbBegin conn db
  if !start.1 then (false, start.2)
  else
    let clean := cleanTables conn [unitStat, linkStat, unitLinkStat]
    if !clean.1 then (false, start.2 ++ clean.2 ++ (mbbDbRollback conn db).2)
    else (true, start.2 ++ clean.2 ++ (mbbDbCommit conn db).2)

/-! ## `mbb_stat_pool_save` -/

/-- `save_records`: for each record what `mbb_task_poll_state` and the query answer. -/
def saveRecords : List (Bool × Bool) → Bool × List MutexOp
  | [] => (true, [])
  | (poll, ret) :: recs =>
    if !poll then (false, [])
    else
      let r := mbbDbQuery conn ret
      if !r.1 then (false, r.2)
      else
        let rest := saveRecords recs
        (rest.1, r.2 ++ rest.2)

/-- `save_records` for the three tables of a pool. -/
def savePool (ustat lstat ulstat : List (Bool × Bool)) : Bool × List MutexOp :=
  let u := saveRecords conn ustat
  if !u.1 then u
  else
    let l := saveRecords conn lstat
    if !l.1 then (false, u.2 ++ l.2)
    else
      let ul := saveRecords conn ulstat
      (ul.1, u.2 ++ l.2 ++ ul.2)

/-- `mbb_stat_pool_save`; `poll` is the first `mbb_task_poll_state`. -/
def mbbStatPoolSave (poll : Bool) (ustat lstat ulstat : List (Bool × Bool)) : List MutexOp :=
  if !poll then []
  else
    let start := mbbDbBegin conn db
    if !start.1 then start.2
    else
      let save := savePool conn ustat lstat ulstat
      if !save.1 then start.2 ++ save.2 ++ (mbbDbRollback conn db).2
      else start.2 ++ save.2 ++ (mbbDbCommit conn db).2

end

/-! ## Balance

A call is balanced if it unlocks as often as it locks. Each function has one lemma, and the
transactions are put together from them.
-/

open MutexOp

variable {conn : DbConn} {db : DbDriver} {ops ops' : List MutexOp}

/-- A query gives the lock back. -/
theorem balanced_mbbDbQuery (conn : DbConn) (ret : Bool) : Balanced (mbbDbQuery conn ret).2 := by
  cases conn with
  | shared => exact balanced_nil.lock_unlock
  | _ => exact balanced_nil

theorem balanced_cleanTables (conn : DbConn) (rets : List Bool) :
    Balanced (cleanTables conn rets).2 := by
  induction rets with
  | nil => exact balanced_nil
  | cons ret rets ih =>
    rw [cleanTables]
    split
    · exact balanced_mbbDbQuery conn ret
    · exact (balanced_mbbDbQuery conn ret).append ih

theorem balanced_saveRecords (conn : DbConn) (recs : List (Bool × Bool)) :
    Balanced (saveRecords conn recs).2 := by
  induction recs with
  | nil => exact balanced_nil
  | cons r recs ih =>
    rw [saveRecords]
    dsimp only
    split
    · exact balanced_nil
    · split
      · exact balanced_mbbDbQuery conn r.2
      · exact (balanced_mbbDbQuery conn r.2).append ih

theorem balanced_savePool (conn : DbConn) (ustat lstat ulstat : List (Bool × Bool)) :
    Balanced (savePool conn ustat lstat ulstat).2 := by
  have hu := balanced_saveRecords conn ustat
  have hl := balanced_saveRecords conn lstat
  have hul := balanced_saveRecords conn ulstat
  rw [savePool]
  dsimp only
  split
  · exact hu
  · split
    · exact hu.append hl
    · exact (hu.append hl).append hul

/-- The lock is given back: `begin` does not fail, and the driver has the call that ends the
transaction. -/
def LockOk (conn : DbConn) (db : DbDriver) (next : Option Bool) : Prop :=
  conn = .shared → db.start ≠ some false ∧ (db.start = some true → next ≠ none)

/-- What `mbb_db_begin` takes, it takes whether it succeeds or not. -/
theorem snd_mbbDbBegin (conn : DbConn) (db : DbDriver) :
    (mbbDbBegin conn db).2 = if conn = .shared ∧ db.start ≠ none then [.lock] else [] := by
  rw [mbbDbBegin]
  cases conn <;> cases db.start <;> simp [makeCall]

theorem fst_mbbDbBegin (conn : DbConn) (db : DbDriver) :
    (mbbDbBegin conn db).1 = true ↔ conn ≠ .null ∧ db.start = some true := by
  rw [mbbDbBegin]
  cases conn <;> cases db.start <;> simp [makeCall]

theorem snd_makeCall_end (conn : DbConn) (next : Option Bool) :
    (makeCall conn next false).2 = if conn = .shared ∧ next ≠ none then [.unlock] else [] := by
  cases conn <;> cases next <;> simp [makeCall]

/-- `mbb_db_begin` has succeeded; queries, and the end of the transaction. -/
theorem balanced_transaction (h : (mbbDbBegin conn db).1 = true) (hops : Balanced ops)
    (next : Option Bool) :
    (Balanced ((mbbDbBegin conn db).2 ++ ops ++ (makeCall conn next false).2) ↔
        LockOk conn db next) ∧
      ∀ n, 0 ≤ depth (((mbbDbBegin conn db).2 ++ ops ++ (makeCall conn next false).2).take n) := by
  obtain ⟨-, hstart⟩ := (fst_mbbDbBegin conn db).mp h
  rw [snd_mbbDbBegin, snd_makeCall_end, LockOk]
  by_cases hconn : conn = .shared
  · cases next with
    | none =>
      simp only [hconn, hstart, ne_eq, reduceCtorEq, not_false_eq_true, and_self, if_true,
        not_true_eq_false, and_false, if_false, List.append_nil, List.singleton_append]
      refine ⟨iff_of_false (fun hbal => ?_) (by simp), hops.lock_nonneg⟩
      have := hbal.depth_eq
      rw [depth_lock_cons, hops.depth_eq] at this
      omega
    | some ret =>
      simp only [hconn, hstart, ne_eq, reduceCtorEq, not_false_eq_true, and_self, if_true,
        List.cons_append]
      exact ⟨iff_of_true hops.lock_unlock (by simp), hops.lock_unlock.depth_nonneg⟩
  · simp only [hconn, false_and, if_false, List.nil_append, List.append_nil, false_imp_iff]
    exact ⟨iff_of_true hops trivial, hops.depth_nonneg⟩

/-- `mbb_db_begin` has failed, and no other call follows. -/
theorem balanced_begin_failed (h : ¬ (mbbDbBegin conn db).1 = true) (next : Option Bool) :
    (Balanced (mbbDbBegin conn db).2 ↔ LockOk conn db next) ∧
      ∀ n, 0 ≤ depth ((mbbDbBegin conn db).2.take n) := by
  rw [fst_mbbDbBegin] at h
  rw [snd_mbbDbBegin, LockOk]
  by_cases hlock : conn = .shared ∧ db.start ≠ none
  · have hfail : db.start = some false := by
      cases hs : db.start with
      | none => exact absurd hs hlock.2
      | some ret =>
        cases ret with
        | false => rfl
        | true => exact absurd ⟨by rw [hlock.1]; decide, hs⟩ h
    rw [if_pos hlock]
    refine ⟨iff_of_false (fun hbal => ?_) (by simp [hlock.1, hfail]), balanced_nil.lock_nonneg⟩
    have := hbal.depth_eq
    simp at this
  · rw [if_neg hlock]
    refine ⟨iff_of_true balanced_nil fun hconn => ?_, balanced_nil.depth_nonneg⟩
    have hnone : db.start = none := by
      by_contra hne
      exact hlock ⟨hconn, hne⟩
    simp [hnone]

/-- What the updates answer on the shared connection. -/
theorem fst_cleanTables (rets : List Bool) :
    (cleanTables .shared rets).1 = rets.all id := by
  induction rets with
  | nil => rfl
  | cons ret rets ih => cases ret <;> simp [cleanTables, mbbDbQuery, ih]

theorem fst_saveRecords (recs : List (Bool × Bool)) :
    (saveRecords .shared recs).1 = recs.all fun r => r.1 && r.2 := by
  induction recs with
  | nil => rfl
  | cons r recs ih =>
    obtain ⟨poll, ret⟩ := r
    cases poll <;> cases ret <;> simp [saveRecords, mbbDbQuery, ih]

theorem fst_savePool (ustat lstat ulstat : List (Bool × Bool)) :
    (savePool .shared ustat lstat ulstat).1 =
      (ustat ++ lstat ++ ulstat).all fun r => r.1 && r.2 := by
  rw [List.all_append, List.all_append, ← fst_saveRecords, ← fst_saveRecords, ← fst_saveRecords,
    savePool]
  cases hu : (saveRecords .shared ustat).1 <;> cases hl : (saveRecords .shared lstat).1 <;>
    simp [hu, hl]

theorem LockOk.congr {next next' : Option Bool} (h : conn = .shared → next = next') :
    LockOk conn db next ↔ LockOk conn db next' := by
  rw [LockOk, LockOk]
  exact forall_congr' fun hconn => by rw [h hconn]

/-- A transaction: `begin`, queries of which `r` is the outcome, and `commit` or `rollback`. -/
def transactionOps (conn : DbConn) (db : DbDriver) (r : Bool × List MutexOp) : List MutexOp :=
  if !(mbbDbBegin conn db).1 then (mbbDbBegin conn db).2
  else if !r.1 then (mbbDbBegin conn db).2 ++ r.2 ++ (mbbDbRollback conn db).2
  else (mbbDbBegin conn db).2 ++ r.2 ++ (mbbDbCommit conn db).2

theorem balanced_transactionOps {r : Bool × List MutexOp} {ok : Bool} (hr : Balanced r.2)
    (hok : conn = .shared → r.1 = ok) :
    (Balanced (transactionOps conn db r) ↔
        LockOk conn db (if ok then db.commit else db.rollback)) ∧
      ∀ n, 0 ≤ depth ((transactionOps conn db r).take n) := by
  have hnext : LockOk conn db (if ok then db.commit else db.rollback) ↔
      LockOk conn db (if r.1 then db.commit else db.rollback) :=
    LockOk.congr fun hconn => by rw [hok hconn]
  rw [hnext, transactionOps]
  by_cases hstart : (mbbDbBegin conn db).1 = true
  · simp only [hstart, Bool.not_true, Bool.false_eq_true, if_false]
    cases r.1 with
    | false => exact balanced_transaction hstart hr db.rollback
    | true => exact balanced_transaction hstart hr db.commit
  · simp only [Bool.not_eq_true] at hstart
    simp only [hstart, Bool.not_false, if_true]
    exact balanced_begin_failed (by rw [hstart]; exact Bool.false_ne_true) _

/-- Both users of transactions give the lock back just when `LockOk` says so, and neither
unlocks it more often than it has locked it. -/
theorem transaction_lock (conn : DbConn) (db : DbDriver) :
    (∀ unitStat linkStat unitLinkStat,
      (Balanced (mbbStatDbWipe conn db unitStat linkStat unitLinkStat).2 ↔
        LockOk conn db
          (if unitStat && linkStat && unitLinkStat then db.commit else db.rollback)) ∧
      ∀ n, 0 ≤ depth ((mbbStatDbWipe conn db unitStat linkStat unitLinkStat).2.take n)) ∧
    ∀ poll ustat lstat ulstat,
      (Balanced (mbbStatPoolSave conn db poll ustat lstat ulstat) ↔ (poll = true →
        LockOk conn db (if (ustat ++ lstat ++ ulstat).all fun r => r.1 && r.2 then db.commit
          else db.rollback))) ∧
      ∀ n, 0 ≤ depth ((mbbStatPoolSave conn db poll ustat lstat ulstat).take n) := by
  refine ⟨fun unitStat linkStat unitLinkStat => ?_, fun poll ustat lstat ulstat => ?_⟩
  · have hops : (mbbStatDbWipe conn db unitStat linkStat unitLinkStat).2 =
        transactionOps conn db (cleanTables conn [unitStat, linkStat, unitLinkStat]) := by
      rw [mbbStatDbWipe, transactionOps]
      dsimp only
      split
      · rfl
      · split <;> rfl
    rw [hops]
    refine balanced_transactionOps (balanced_cleanTables conn _) ?_
    rintro rfl
    rw [fst_cleanTables]
    simp [Bool.and_assoc]
  · cases poll with
    | false => exact ⟨iff_of_true balanced_nil (by simp), balanced_nil.depth_nonneg⟩
    | true =>
      rw [imp_iff_right rfl]
      refine balanced_transactionOps (balanced_savePool conn ustat lstat ulstat) ?_
      rintro rfl
      exact fst_savePool ustat lstat ulstat

/-- `begin` fails on the shared connection, and the thread keeps the lock. -/
theorem not_balanced_wipe_begin_failed :
    ¬ Balanced (mbbStatDbWipe .shared ⟨some false, some true, some true⟩ true true true).2 := by
  intro h
  have := h.depth_eq
  revert this
  decide

end QueryMutex

end Mbb
