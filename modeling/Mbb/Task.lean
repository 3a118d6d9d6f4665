import Mbb.Lib.Lifetime

/-!
# Tasks and their data (`mbbd/mbbtask.c`, `mbbd/modules/netflow/calcstat.c`)

A task is started with data that its hook frees in the end. The starters of the netflow
statistics tasks, `base_task_do` and `feed_stat`, open files, make a unit map and hand both
to `mbb_task_create`; the thread opens and closes flows and makes and saves pools.

What happens to these objects is written to a trace. Whatever is decided elsewhere (is there
a thread, can the database be used, what do the files hold, is the task cancelled) comes from
the environment. The thread is run after `mbb_task_create` has made it, since the starter does
not look at the data from then on.
-/

namespace Mbb

/-! ## Hooks -/

/-- `struct mbb_task_hook` for data `σ`; a step of `work` depends on the environment too. -/
structure TaskHook (ε σ : Type) : Type where
  /-- `init` -/
  init : Option (σ → Bool × σ)
  /-- `work` -/
  work : Option (ε → σ → Bool × σ)
  /-- `fini` -/
  fini : Option (σ → σ)

/-- A call of a hook. -/
inductive HookCall : Type where
  /-- of `init` -/
  | init
  /-- of `work` -/
  | work
  /-- of `fini` -/
  | fini
  deriving DecidableEq

/-- A task so far. -/
structure TaskRun (σ : Type) : Type where
  /-- the id is not -1 -/
  created : Bool
  /-- the thread is done, or there is none -/
  ended : Bool
  /-- calls of the hook -/
  calls : List HookCall
  /-- the data -/
  data : σ

section

variable {ε σ : Type}

/-- The loop of `mbb_task_work`: the environment of each step, and the answer of the
`task_poll` after it. Gives whether the loop has come to its end. -/
def workLoop (work : ε → σ → Bool × σ) : List (ε × Bool) → σ → Bool × List HookCall × σ
  | [], s => (false, [], s)
  | (e, poll) :: steps, s =>
    let (more, s) := work e s
    if !more then (true, [.work], s)
    else if !poll then (true, [.work], s)
    else
      let r := workLoop work steps s
      (r.1, .work :: r.2.1, r.2.2)

/-- The call of `fini`, unless it is `NULL`. -/
def TaskHook.finish (hook : TaskHook ε σ) (s : σ) : List HookCall × σ :=
  match hook.fini with
  | none => ([], s)
  | some fini => ([.fini], fini s)

/-- `mbb_task_work` -/
def mbbTaskWork (hook : TaskHook ε σ) (work : ε → σ → Bool × σ) (steps : List (ε × Bool)) (s : σ) :
    TaskRun σ :=
  let (ok, calls, s) : Bool × List HookCall × σ :=
    match hook.init with
    | none => (true, [], s)
    | some init => ((init s).1, [.init], (init s).2)
  if !ok then ⟨true, true, calls, s⟩
  else
    let (done, works, s) := workLoop work steps s
    if !done then ⟨true, false, calls ++ works, s⟩
    else
      let (finis, s) := hook.finish s
      ⟨true, true, calls ++ works ++ finis, s⟩

/-- `mbb_task_create`, and the thread if there is one. -/
def mbbTaskCreate (hook : TaskHook ε σ) (thread : Bool) (steps : List (ε × Bool)) (s : σ) :
    TaskRun σ :=
  match hook.work with
  | none => ⟨false, true, [], s⟩
  | some work =>
    if !thread then
      let (finis, s) := hook.finish s
      ⟨false, true, finis, s⟩
    else mbbTaskWork hook work steps s

end

/-! ## Statistics tasks -/

/-- What the tasks own. -/
inductive TaskObj : Type where
  /-- the `struct base_task_data` or `struct feed_task_data` -/
  | data
  /-- the unit map with its references to units -/
  | umap
  /-- the `struct path_tree` -/
  | pathTree
  /-- a flow stream -/
  | flow (n : ℕ)
  /-- a pool -/
  | pool (n : ℕ)
  deriving DecidableEq

/-- The data of a task, and what has happened so far. -/
structure StatTask : Type where
  /-- `flow`, `none` for `NULL` -/
  flow : Option ℕ
  /-- `pool` -/
  pool : Option ℕ
  /-- the number of the next flow or pool -/
  fresh : ℕ
  /-- the trace -/
  trace : List (MemEvent TaskObj)

/-- The environment of one step. -/
structure WorkEnv : Type where
  /-- `path_tree_next` gives no name, or one that can be opened or not -/
  next : Option Bool
  /-- `flow_stream_read`: the time of a record, none at the end -/
  read : Option Int
  /-- how often `process_flow_data` calls `pool_feed` -/
  feeds : ℕ

namespace StatTask

/-- Before everything. -/
def none : StatTask := ⟨.none, .none, 0, []⟩

/-- Something happens. -/
def emit (td : StatTask) (es : List (MemEvent TaskObj)) : StatTask :=
  { td with trace := td.trace ++ es }

/-- `pool_free`, if there is a pool -/
def freePool (td : StatTask) : StatTask :=
  td.emit (td.pool.toList.map fun n => .free (.pool n))

/-- `flow_stream_close`, if there is a flow -/
def freeFlow (td : StatTask) : StatTask :=
  td.emit (td.flow.toList.map fun n => .free (.flow n))

/-- `base_task_free` -/
def baseTaskFree (td : StatTask) : StatTask :=
  (td.emit [.use .data]).freePool.freeFlow.emit [.free .pathTree, .free .umap, .free .data]

/-- `path_tree_open_next` -/
def pathTreeOpenNext (env : WorkEnv) (td : StatTask) : Bool × StatTask :=
  let td := td.emit [.use .data, .use .pathTree]
  match env.next with
  | .none => (false, td)
  | some false => (true, td)
  | some true =>
    (true, { td with flow := some td.fresh, pool := some td.fresh, fresh := td.fresh + 1 }.emit
      [.alloc (.flow td.fresh), .alloc (.pool td.fresh)])

/-- `process_flow_data` -/
def processFlowData (env : WorkEnv) (td : StatTask) : StatTask :=
  td.emit ([.use .umap, .use .umap] ++
    td.pool.toList.flatMap fun n => List.replicate env.feeds (.use (.pool n)))

/-- `flow_stream_read` -/
def flowStreamRead (td : StatTask) : StatTask :=
  td.emit (td.flow.toList.map fun n => .use (.flow n))

/-- `plain_task_work`, and `update_task_work` for the times given -/
def opWork (window : Option (Int × Int)) (env : WorkEnv) (td : StatTask) : Bool × StatTask :=
  let td := (td.emit [.use .data]).flowStreamRead
  match env.read with
  | .none => (false, td)
  | some t =>
    match window with
    | .none => (true, td.processFlowData env)
    | some (start, stop) =>
      if start ≤ t ∧ t < stop then (true, td.processFlowData env) else (true, td)

/-- `base_task_init`; `op_init` is `update_task_init` in a task with times. -/
def baseTaskInit (window : Option (Int × Int)) (poolInit wipe : Bool) (td : StatTask) :
    Bool × StatTask :=
  if !poolInit then (false, td)
  else
    let td := td.emit [.use .data]
    match window with
    | .none => (true, td)
    | some _ => (wipe, td.emit [.use .data])

/-- `base_task_work` -/
def baseTaskWork (window : Option (Int × Int)) (env : WorkEnv) (td : StatTask) :
    Bool × StatTask :=
  let td := td.emit [.use .data]
  match td.flow with
  | .none => td.pathTreeOpenNext env
  | some _ =>
    let (more, td) := td.opWork window env
    if more then (true, td)
    else
      let td := { td.freeFlow with flow := .none }
      -- `pool_save` frees the pool
      let td := (td.emit (td.pool.toList.map fun n => .use (.pool n))).freePool
      (true, { td with pool := .none })

/-- `feed_stat_free` -/
def feedStatFree (td : StatTask) : StatTask :=
  (td.emit [.use .data]).freePool.freeFlow.emit [.free .umap, .free .data]

/-- `feed_stat_init` -/
def feedStatInit (poolInit : Bool) (td : StatTask) : Bool × StatTask :=
  if !poolInit then (false, td)
  else (true, { td with pool := some td.fresh, fresh := td.fresh + 1 }.emit
    [.alloc (.pool td.fresh), .use .data])

/-- `feed_stat_work` -/
def feedStatWork (env : WorkEnv) (td : StatTask) : Bool × StatTask :=
  let td := (td.emit [.use .data]).flowStreamRead
  match env.read with
  | some _ => (true, td.processFlowData env)
  | .none =>
    let td := (td.emit (td.pool.toList.map fun n => .use (.pool n))).freePool
    (false, { td with pool := .none })

end StatTask

end Mbb
