import Mbb.UMap
import Mbb.Gateway
import Mbb.Stat

/-!
# The netflow update task (`modules/netflow`)

The task wipes the statistics of an interval, then reads the flow files one after the
other. Each flow that begins in the interval is accounted to the units of its addresses
and the links of its interfaces; the pool of a file is saved at the end of the file.

Rows stand for whole hours and the wipe selects them by their first second, while flows
are selected by their exact time. When the interval starts inside an hour, the row of that
hour is not wiped although the flows left of it are read again.
-/

namespace Mbb

/-! ## Flows -/

/-- The fields of a record of the flow library that are read. -/
structure FlowRec : Type where
  /-- source -/
  srcaddr : BitVec 32
  /-- destination -/
  dstaddr : BitVec 32
  /-- exporter -/
  exaddr : BitVec 32
  /-- octets -/
  dOctets : BitVec 32
  /-- packets -/
  dPkts : BitVec 32
  /-- input interface -/
  input : BitVec 16
  /-- output interface -/
  output : BitVec 16
  /-- clock of the exporter -/
  unixSecs : BitVec 32
  /-- residual nanoseconds -/
  unixNsecs : BitVec 32
  /-- uptime of the exporter -/
  sysUpTime : BitVec 32
  /-- uptime at the first packet -/
  first : BitVec 32

/-- `struct flow_data`, less ports and protocol, which this task does not ask for. -/
structure FlowData : Type where
  /-- source -/
  srcaddr : BitVec 32
  /-- destination -/
  dstaddr : BitVec 32
  /-- exporter -/
  exaddr : BitVec 32
  /-- bytes -/
  nbytes : BitVec 32
  /-- input interface -/
  input : BitVec 16
  /-- output interface -/
  output : BitVec 16
  /-- time of the first packet -/
  begin : Int

/-- `FLOW_HEADER_SIZE` -/
def flowHeaderSize : BitVec 32 := 28

/-- What the task reads besides the files: units, gateways, the compiled map and the
function of the flow library that gives the time of a packet in seconds. -/
structure FlowEnv : Type where
  /-- units -/
  mem : Memory
  /-- gateways -/
  gws : List MbbGateway
  /-- compiled map -/
  umap : List UmapEntry
  /-- `ftltime`, seconds -/
  ftltime : BitVec 32 → BitVec 32 → BitVec 32 → BitVec 32 → BitVec 32

namespace FlowEnv

variable (env : FlowEnv)

/-- A record as `flow_stream_read` gives it. -/
def flowData (r : FlowRec) : FlowData where
  srcaddr := r.srcaddr
  dstaddr := r.dstaddr
  exaddr := r.exaddr
  nbytes := r.dOctets + r.dPkts * flowHeaderSize
  input := r.input
  output := r.output
  begin := (env.ftltime r.sysUpTime r.unixSecs r.unixNsecs r.first).toNat

/-- `flow_stream_read` -/
def flowStreamRead : List FlowRec → Option (FlowData × List FlowRec)
  | [] => none
  | r :: flow => some (env.flowData r, flow)

/-- `get_link_id` -/
def getLinkId (gw : BitVec 32) (linkNo : BitVec 16) (t : Int) : Int :=
  match mbbGatewayFindLink env.gws gw.toNat linkNo.toNat t with
  | none => -1
  | some link => link.id

/-- `islocal` -/
def islocal (unit : Option ℕ) : Bool :=
  match unit with
  | none => false
  | some u => (env.mem.unit u).isLocal

/-- `process_flow_data` -/
def processFlowData (fd : FlowData) (pool : StatPool) : StatPool :=
  let una := mbbUmapFind env.umap fd.srcaddr.toNat fd.begin
  let unb := mbbUmapFind env.umap fd.dstaddr.toNat fd.begin
  let pool :=
    match una with
    | none => pool
    | some u =>
      if env.islocal unb then pool
      else
        let id := env.getLinkId fd.exaddr fd.output fd.begin
        if 0 ≤ id then
          mbbStatFeed pool ⟨(env.mem.unit u).id, id, (0, fd.nbytes.setWidth 64), fd.begin⟩
        else pool
  match unb with
  | none => pool
  | some u =>
    if env.islocal una then pool
    else
      let id := env.getLinkId fd.exaddr fd.input fd.begin
      if 0 ≤ id then
        mbbStatFeed pool ⟨(env.mem.unit u).id, id, (fd.nbytes.setWidth 64, 0), fd.begin⟩
      else pool

end FlowEnv

/-! ## The task -/

/-- `struct base_task_data`: a path is what `flow_stream_new` makes of it, a stream or
`none`. -/
structure BaseTask : Type where
  /-- pool of the open file -/
  pool : Option StatPool
  /-- what is left of the open file -/
  flow : Option (List FlowRec)
  /-- paths to come -/
  pt : List (Option (List FlowRec))

/-- A task with the database and the outcomes of the calls to come. -/
structure TaskState : Type where
  /-- data of the task -/
  td : BaseTask
  /-- database -/
  db : StatDb
  /-- outcomes -/
  calls : List Bool

/-- `path_tree_open_next` -/
def pathTreeOpenNext (td : BaseTask) : Bool × BaseTask :=
  match td.pt with
  | [] => (false, td)
  | none :: pt => (true, { td with pt })
  | some flow :: pt => (true, ⟨some mbbStatPoolNew, some flow, pt⟩)

/-- `update_task_work` -/
def updateTaskWork (env : FlowEnv) (start stop : Int) (td : BaseTask) : Bool × BaseTask :=
  match td.flow.bind env.flowStreamRead with
  | none => (false, td)
  | some (fd, flow) =>
    if start ≤ fd.begin ∧ fd.begin < stop then
      (true, { td with flow := some flow, pool := td.pool.map (env.processFlowData fd) })
    else (true, { td with flow := some flow })

/-- `base_task_work` -/
def baseTaskWork [HashOrder] (opWork : BaseTask → Bool × BaseTask) (s : TaskState) :
    Bool × TaskState :=
  match s.td.flow with
  | none =>
    match pathTreeOpenNext s.td with
    | (ret, td) => (ret, { s with td })
  | some _ =>
    match opWork s.td with
    | (true, td) => (true, { s with td })
    | (false, td) =>
      match td.pool with
      | none => (true, { s with td := { td with flow := none } })
      | some pool =>
        match mbbStatPoolSave pool s.db s.calls with
        | (db, calls) => (true, ⟨{ td with flow := none, pool := none }, db, calls⟩)

/-- `base_task_init` with `update_task_init`. -/
def updateTaskInit (start stop : Int) (db : StatDb) (calls : List Bool) :
    Bool × StatDb × List Bool :=
  match nextCall calls with
  | (false, calls) => (false, db, calls)
  | (true, calls) => mbbStatDbWipe start stop db calls

/-- The loop of `mbb_task_work`: the task is polled after each step. `none` is a loop
that did not end within the fuel. -/
def taskLoop (work : TaskState → Bool × TaskState) : ℕ → TaskState → Option TaskState
  | 0, _ => none
  | fuel + 1, s =>
    match work s with
    | (false, s) => some s
    | (true, s) =>
      match nextCall s.calls with
      | (false, calls) => some { s with calls }
      | (true, calls) => taskLoop work fuel { s with calls }

/-- `mbb_task_work` of an update task. -/
def updateTask [HashOrder] (env : FlowEnv) (start stop : Int)
    (files : List (Option (List FlowRec))) (fuel : ℕ) (db : StatDb) (calls : List Bool) :
    Option (StatDb × List Bool) :=
  match updateTaskInit start stop db calls with
  | (false, db, calls) => some (db, calls)
  | (true, db, calls) =>
    (taskLoop (baseTaskWork (updateTaskWork env start stop)) fuel
      ⟨⟨none, none, files⟩, db, calls⟩).map fun s => (s.db, s.calls)

/-- The task ends and leaves `db'`, when every call succeeds. -/
def UpdateRuns [HashOrder] (env : FlowEnv) (start stop : Int)
    (files : List (Option (List FlowRec))) (db db' : StatDb) : Prop :=
  ∃ n, ∀ fuel, n ≤ fuel → updateTask env start stop files fuel db [] = some (db', [])

/-- The three tables have the same rows. -/
def StatDb.SameCounts (db db' : StatDb) : Prop :=
  (∀ k, db.unitStat.get? k = db'.unitStat.get? k) ∧
  (∀ k, db.linkStat.get? k = db'.linkStat.get? k) ∧
  ∀ k, db.unitLinkStat.get? k = db'.unitLinkStat.get? k

end Mbb
