import Mbb.Lib.Ledger
import Mathlib.Logic.Function.Basic
import Mathlib.Logic.Relation

/-!
# Modules (`mbbd/mbbmodule.c`)

A module is code that is loaded while the server runs. Each call of one of its functions,
each task started in such a call and each import by another module uses it: it takes the
reader lock of the module and counts in `use_count`, and `mbb_module_unload` needs the
writer lock. A module that has been stopped cannot be used, but what uses it goes on.

Modules are known by their addresses, which are natural numbers here. The lock `plock` of
`mbbmodule.c` makes a load or an unload one step, up to the call of `onready`, which a load
makes with the reader lock of the new module held. The result `none` of an operation is the
use of a module that has been freed.
-/

namespace Mbb

/-- `MbbModuleError`, and the messages of `module_do_run`. -/
inductive ModuleError : Type where
  /-- `MBB_MODULE_ERROR_UNKNOWN` -/
  | unknown
  /-- `MBB_MODULE_ERROR_EXISTS` -/
  | exists
  /-- `MBB_MODULE_ERROR_LOADED` -/
  | loaded
  /-- `MBB_MODULE_ERROR_OPEN` -/
  | opened
  /-- `MBB_MODULE_ERROR_FOREIGN` -/
  | foreign
  /-- `MBB_MODULE_ERROR_INVALID` -/
  | invalid
  /-- `MBB_MODULE_ERROR_EMPTY` -/
  | empty
  /-- `MBB_MODULE_ERROR_USED` -/
  | used (count : Int)
  /-- `MBB_MSG_UNKNOWN_MODULE` -/
  | unknownModule
  /-- `module is already run`, `module is already stop` -/
  | already (run : Bool)
  deriving DecidableEq

/-- What a load function calls. -/
inductive LoadAct : Type where
  /-- `mbb_module_import` -/
  | importModule (name : String)
  /-- `mbb_module_export` -/
  | exportData
  /-- `mbb_module_add_functions` -/
  | addFunctions (fs : List String)
  /-- `mbb_module_add_var` -/
  | addVar (name : String)
  /-- `mbb_module_onready` -/
  | onready

/-- `struct mbb_module_info`: its address and what `load` calls, `none` for `NULL`. -/
structure ModuleInfo : Type where
  /-- the address -/
  id : ℕ
  /-- `load` -/
  load : Option (List LoadAct)

/-- `struct mbb_module`, without `start`. -/
structure MbbModule : Type where
  /-- name -/
  name : String
  /-- the handle of `dlopen` -/
  handle : ℕ
  /-- the address of the `struct mbb_module_info` -/
  info : ℕ
  /-- use count -/
  useCount : Int
  /-- not stopped -/
  run : Bool
  /-- table of functions -/
  functions : Option (List String)
  /-- variables -/
  vars : List String
  /-- functions and variables -/
  total : ℕ
  /-- those that are registered -/
  nreg : ℕ
  /-- `export` is set -/
  exported : Bool
  /-- imported modules -/
  deps : List ℕ
  /-- `onready` is set -/
  onready : Bool
  /-- how often the reader lock of `rwlock` is held -/
  readers : Int

/-- `mbb_module_new` -/
def mbbModuleNew (name : String) (handle info : ℕ) : MbbModule :=
  ⟨name, handle, info, 0, false, none, [], 0, 0, false, [], false, 0⟩

/-- Names of functions or variables, and the modules that registered them. -/
abbrev Registry : Type := Ledger String (Option ℕ)

/-- `mbb_func_mregister`, and `mbb_var_mregister` for each of some variables: a name that is
taken is left out. Gives the number of names registered. -/
def mregister (m : ℕ) (table : Registry) : List String → Registry × ℕ
  | [] => (table, 0)
  | name :: names =>
    if (table.get? name).isSome then mregister m table names
    else
      let r := mregister m (table.put name (some m)) names
      (r.1, r.2 + 1)

/-- `mbb_func_unregister_all`, and `mbb_var_unregister` for the variables of a module. -/
def unregister (m : ℕ) (table : Registry) : Registry :=
  table.drop fun name => table.get? name == some (some m)

/-- A live `struct mbb_task`, and what its `mod` is there for. -/
structure LiveTask : Type where
  /-- id -/
  id : ℕ
  /-- `mod` -/
  mod : Option ℕ
  /-- The module in whose running call the task was started. The program has no such field: it
  takes `mod` for this module. -/
  startedBy : Option ℕ
deriving DecidableEq

/-- The modules and what uses them. -/
structure Modules : Type where
  /-- the modules that are loaded, by address -/
  modules : Ledger ℕ MbbModule
  /-- the next address -/
  fresh : ℕ
  /-- functions -/
  funcs : Registry
  /-- variables -/
  vars : Registry
  /-- `mod_key` of each thread -/
  keys : ℕ → Option ℕ
  /-- running calls: thread and module, the innermost first -/
  calls : List (ℕ × Option ℕ)
  /-- live tasks -/
  tasks : List LiveTask
  /-- `task_id` -/
  taskId : ℕ
  /-- modules whose `onready` is running -/
  ready : List ℕ

/-- `check_mod_name` -/
def checkModName (name : String) : Bool :=
  !name.toList.contains '/' && ".so".toList.isSuffixOf name.toList

namespace Modules

variable (s : Modules)

/-- `mbb_module_get_by_name` -/
def byName (name : String) : Option (ℕ × MbbModule) :=
  s.modules.find? fun r => decide (r.name = name)

/-! ## Using

To use a module is to take its reader lock, to count, and to make it the last used one of the
thread. A module that is stopped refuses.
-/

/-- `g_static_private_set(&mod_key, ...)`, in the thread given if any -/
def setKey (th : Option ℕ) (key : Option ℕ) : Modules :=
  match th with
  | none => s
  | some th => { s with keys := Function.update s.keys th key }

/-- `use_count` and the reader lock together -/
def hold (m : ℕ) (n : Int) : Modules :=
  { s with modules := s.modules.modify m fun r =>
      { r with useCount := r.useCount + n, readers := r.readers + n } }

/-- `_mbb_module_use`; `th` is the thread whose key is set, none when `setkey` is `FALSE`. -/
def mbbModuleUse (mod : Option ℕ) (th : Option ℕ) : Option (Bool × Modules) :=
  match mod with
  | none => some (true, s)
  | some m =>
    match s.modules.get? m with
    | none => none
    | some r => if r.run then some (true, (s.setKey th (some m)).hold m 1) else some (false, s)

/-- `_mbb_module_unuse` -/
def mbbModuleUnuse (mod : Option ℕ) (th : Option ℕ) : Option Modules :=
  match mod with
  | none => some s
  | some m =>
    match s.modules.get? m with
    | none => none
    | some _ => some ((s.setKey th none).hold m (-1))

/-! ## Loading

The acts of `load_module` come from the module and are arbitrary. Its names are registered after
them.
-/

/-- `mbb_module_import` for the module `cur` that is being loaded. -/
def mbbModuleImport (cur : MbbModule) (name : String) : Modules × MbbModule :=
  match s.byName name with
  | none => (s, cur)
  | some (m, r) =>
    if r.exported then
      -- the answer of `_mbb_module_use` is not looked at
      (((s.mbbModuleUse (some m) none).map Prod.snd).getD s, { cur with deps := m :: cur.deps })
    else (s, cur)

/-- One call of the load function. -/
def loadAct (cur : MbbModule) : LoadAct → Modules × MbbModule
  | .importModule name => s.mbbModuleImport cur name
  | .exportData => (s, { cur with exported := true })
  | .addFunctions fs =>
    match cur.functions with
    | none => (s, { cur with functions := some fs, total := cur.total + fs.length })
    | some _ => (s, cur)
  | .addVar name => (s, { cur with vars := name :: cur.vars, total := cur.total + 1 })
  | .onready => (s, { cur with onready := true })

/-- The load function. -/
def loadActs : List LoadAct → Modules → MbbModule → Modules × MbbModule
  | [], s, cur => (s, cur)
  | act :: acts, s, cur => loadActs acts (s.loadAct cur act).1 (s.loadAct cur act).2

/-- `mbb_module_reg_data` and `mbb_module_add`; a module with `onready` is locked for it. -/
def mbbModuleRegData (module : MbbModule) : Modules :=
  let funcs := mregister s.fresh s.funcs (module.functions.getD [])
  let vars := mregister s.fresh s.vars module.vars
  let nreg := module.nreg + funcs.2 + vars.2
  let module := { module with
    nreg := nreg
    run := if module.total = nreg then true else module.run
    readers := if module.onready then module.readers + 1 else module.readers }
  { s with
    modules := s.modules.put s.fresh module
    fresh := s.fresh + 1
    funcs := funcs.1
    vars := vars.1
    ready := if module.onready then s.fresh :: s.ready else s.ready }

/-- `check_mod_loaded`: the `struct mbb_module_info` and what its `load` calls. -/
def checkModLoaded (handle : ℕ) (info : Option ModuleInfo) :
    Except ModuleError (ℕ × List LoadAct) :=
  match info with
  | none => .error .foreign
  | some info =>
    match info.load with
    | none => .error .invalid
    | some acts =>
      if (s.modules.find? fun r => decide (r.handle = handle)).isSome then .error .loaded
      else if (s.modules.find? fun r => decide (r.info = info.id)).isSome then .error .loaded
      else .ok (info.id, acts)

/-- `mbb_module_load`, up to the call of `onready`. `dir` says that there is a directory to
look for modules, `dl` is the handle that `dlopen` gives and what the module has registered
itself with. -/
def mbbModuleLoad (name : String) (dir : Bool) (dl : Option (ℕ × Option ModuleInfo)) :
    Option ModuleError × Modules :=
  if !checkModName name || !dir then (some .unknown, s)
  else if (s.byName name).isSome then (some .exists, s)
  else
    match dl with
    | none => (some .opened, s)
    | some (handle, info) =>
      match s.checkModLoaded handle info with
      | .error e => (some e, s)
      | .ok (id, acts) =>
        let r := loadActs acts s (mbbModuleNew name handle id)
        -- a void module is freed with its list of imported modules
        if r.2.total = 0 then (some .empty, r.1) else (none, r.1.mbbModuleRegData r.2)

/-- The end of `mbb_module_load` after `onready`. -/
def onreadyDone (m : ℕ) : Option Modules :=
  if m ∈ s.ready then
    match s.modules.get? m with
    | none => none
    | some _ => some { s with
        modules := s.modules.modify m fun r => { r with readers := r.readers - 1 }
        ready := s.ready.erase m }
  else some s

/-! ## Unloading, running and stopping

A module is unloaded only when the writer lock is free, and takes its names and its imports with it.
-/

/-- `_mbb_module_unuse` for the imported modules, in `mbb_module_unreg_data`. -/
def unuseDeps : List ℕ → Modules → Option Modules
  | [], s => some s
  | m :: deps, s =>
    match s.mbbModuleUnuse (some m) none with
    | none => none
    | some s => unuseDeps deps s

/-- `mbb_module_unload` -/
def mbbModuleUnload (name : String) : Option (Option ModuleError × Modules) :=
  if !checkModName name then some (some .unknown, s)
  else
    match s.byName name with
    | none => some (some .unknown, s)
    | some (m, r) =>
      -- `g_static_rw_lock_writer_trylock`
      if r.readers ≠ 0 then some (some (.used r.useCount), s)
      else
        match unuseDeps r.deps
            { s with funcs := unregister m s.funcs, vars := unregister m s.vars } with
        | none => none
        | some s => some (none, { s with modules := s.modules.drop fun k => decide (k = m) })

/-- `module_do_run` -/
def moduleDoRun (name : String) (run : Bool) : Option ModuleError × Modules :=
  if !checkModName name then (some .unknownModule, s)
  else
    match s.byName name with
    | none => (some .unknownModule, s)
    | some (m, r) =>
      if r.run = run then (some (.already run), s)
      else (none, { s with modules := s.modules.modify m fun r => { r with run } })

/-! ## Calls and tasks

The key of a thread tells which module it uses at present; a call sets it, and a task that is
started takes the module over from it.
-/

/-- `mbb_func_call` up to the call; `cap` is the answer of `mbb_cap_check`. -/
def mbbFuncCall (th : ℕ) (name : String) (cap : Bool) : Option (Bool × Modules) :=
  match s.funcs.get? name with
  | none => some (false, s)
  | some mod =>
    if !cap then some (false, s)
    else
      match s.mbbModuleUse mod (some th) with
      | none => none
      | some (false, s) => some (false, s)
      | some (true, s) => some (true, { s with calls := (th, mod) :: s.calls })

/-- `mbb_func_call` after the call, for the innermost call of the thread. -/
def mbbFuncReturn (th : ℕ) : Option Modules :=
  match s.calls.find? fun c => decide (c.1 = th) with
  | none => some s
  | some c =>
    match s.mbbModuleUnuse c.2 (some th) with
    | none => none
    | some s => some { s with calls := s.calls.erase c }

/-- The module whose call a thread is in: that of the innermost running call that has a module.
A function of the server that it calls in between has none. -/
def inCall (th : ℕ) : Option ℕ :=
  (s.calls.find? fun c => decide (c.1 = th) && c.2.isSome).bind Prod.snd

/-- `mbb_task_new` in a thread. -/
def mbbTaskNew (th : ℕ) : Option Modules :=
  -- `mbb_module_last_used`
  let mod := s.keys th
  match s.mbbModuleUse mod (some th) with
  | none => none
  -- the answer is not looked at
  | some (_, s) => some { s with
      tasks := ⟨s.taskId, mod, s.inCall th⟩ :: s.tasks
      taskId := s.taskId + 1 }

/-- `mbb_task_free`, in the thread given or at the end of the task's own. -/
def mbbTaskFree (id : ℕ) (th : Option ℕ) : Option Modules :=
  match s.tasks.find? fun t => decide (t.id = id) with
  | none => some s
  | some t =>
    match s.mbbModuleUnuse t.mod th with
    | none => none
    | some s => some { s with tasks := s.tasks.erase t }

/-- `mbb_task_create`; `thread` says whether there is a thread for the task. -/
def mbbTaskCreate (th : ℕ) (thread : Bool) : Option Modules :=
  match s.mbbTaskNew th with
  | none => none
  | some s' => if thread then some s' else s'.mbbTaskFree s.taskId (some th)

end Modules

/-! ## Runs

The commands of threads in any order. A command that would wait, or has nothing to work on, is not
in the run.
-/

/-- What can happen. -/
inductive ModuleCmd : Type where
  /-- `mbb_module_load` -/
  | load (name : String) (dir : Bool) (dl : Option (ℕ × Option ModuleInfo))
  /-- the `onready` of a module returns -/
  | ready (m : ℕ)
  /-- `mbb_module_unload` -/
  | unload (name : String)
  /-- `module_run`, `module_stop` -/
  | run (name : String) (run : Bool)
  /-- a thread calls a function -/
  | call (th : ℕ) (name : String) (cap : Bool)
  /-- the innermost call of a thread returns -/
  | ret (th : ℕ)
  /-- a thread starts a task -/
  | task (th : ℕ) (thread : Bool)
  /-- a task ends -/
  | taskEnd (id : ℕ)

namespace Modules

/-- One step. -/
def exec (s : Modules) : ModuleCmd → Option Modules
  | .load name dir dl => some (s.mbbModuleLoad name dir dl).2
  | .ready m => s.onreadyDone m
  | .unload name => (s.mbbModuleUnload name).map Prod.snd
  | .run name run => some (s.moduleDoRun name run).2
  | .call th name cap => (s.mbbFuncCall th name cap).map Prod.snd
  | .ret th => s.mbbFuncReturn th
  | .task th thread => s.mbbTaskCreate th thread
  | .taskEnd id => s.mbbTaskFree id none

/-- The server with the functions and the variables of its own, no module loaded. -/
def init (builtin vars : List String) : Modules where
  modules := .empty
  fresh := 0
  funcs := builtin.foldl (fun table name => table.put name none) .empty
  vars := vars.foldl (fun table name => table.put name none) .empty
  keys := fun _ => none
  calls := []
  tasks := []
  taskId := 1
  ready := []

/-- The states of the runs from `s` in which every step is in `P`. -/
def Reaches (P : Modules → ModuleCmd → Prop) (s s' : Modules) : Prop :=
  Relation.ReflTransGen (fun s s' => ∃ c, P s c ∧ s.exec c = some s') s s'

end Modules

end Mbb
