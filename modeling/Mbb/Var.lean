import Mbb.User

/-!
# Variables (`mbbd/mbbvar.c`)

Variables have names, and operations that give their values as texts and take texts for new ones. A
base variable has one value, a variable of sessions one in each session, unless it has no `op_new`:
then all sessions share that of the variable. Who may read and who may write a variable is said by
capabilities. Texts are kept in caches, too: a name that begins with `@.` is looked up in the cache
of the session, other names in the global one. A module that is loaded gives its base variables what
the caches have for them.

A value is a `V`, and an operation may look at something else, an `E`, which belongs to the thread
that calls it. The result `none` of a command is the call of an operation that is `NULL`.
-/

namespace Mbb

/-- `struct mbb_var_def` -/
structure VarDef (E V : Type) : Type where
  /-- `op_read` -/
  opRead : Option (E → V → Option String)
  /-- `op_write`: whether a text is a value, and what it makes of the old one -/
  opWrite : Option (String → Option (V → V))
  /-- `cap_read` -/
  capRead : BitVec 32
  /-- `cap_write` -/
  capWrite : BitVec 32

/-- `struct mbb_var` -/
structure MbbVar (E V : Type) : Type where
  /-- its address -/
  id : ℕ
  /-- `def` -/
  vdef : VarDef E V
  /-- it is a variable of sessions -/
  session : Bool
  /-- where its value is: `ptr`, or `data` of a variable of sessions -/
  ptr : ℕ
  /-- `op_new` -/
  opNew : Option (V → V)
  /-- `mod` -/
  mod : Option ℕ

/-- A thread that calls a method. -/
structure VarCaller (E : Type) : Type where
  /-- the session -/
  session : ℕ
  /-- `mbb_thread_get_cap` -/
  cap : BitVec 32
  /-- what operations look at -/
  env : E

/-- What a method answers. -/
inductive VarAnswer : Type where
  /-- the method is not found -/
  | unknownMethod
  /-- `*ans` is left as it is -/
  | ok
  /-- `MBB_MSG_UNKNOWN_VAR` -/
  | unknownVar
  /-- `MBB_MSG_NOT_CAPABLE` -/
  | notCapable
  /-- `MBB_MSG_INVALID_VALUE` -/
  | invalidValue
  /-- `similar var missed` -/
  | missed
  /-- `similar var is readonly` -/
  | readonly
  /-- `MBB_MSG_UNKNOWN_MODULE`, `unknown module` -/
  | unknownModule
  /-- `module is already run`, `module is already stop`, `module name exists` -/
  | already
  /-- a value -/
  | value (text : Option String)
  /-- names -/
  | names (l : List String)
  /-- names with values -/
  | vars (l : List (String × Option String))

/-- Texts that are kept. -/
abbrev VarCache : Type := Ledger String String

/-- `MBB_SESSION_VAR_PREFIX` -/
def sessionVarPrefix : String := "@."

/-- `g_str_has_prefix(name, MBB_SESSION_VAR_PREFIX)` -/
def hasSessionPrefix (name : String) : Bool := sessionVarPrefix.toList.isPrefixOf name.toList

/-- The variables, their values and the caches. -/
structure Vars (E V : Type) : Type where
  /-- `ht` -/
  table : Ledger String (MbbVar E V)
  /-- the next address of a variable -/
  varId : ℕ
  /-- values -/
  cells : ℕ → V
  /-- what sessions have for variables of their own -/
  data : ℕ → ℕ → Option V
  /-- `ht_cache_global` -/
  cache : VarCache
  /-- `cached_vars` of sessions -/
  cached : ℕ → VarCache
  /-- modules that are loaded, and whether they run -/
  run : Ledger ℕ Bool

namespace Vars

variable {E V : Type} (s : Vars E V)

/-! ## Variables

Where a value is kept depends on the variable and on the thread: in the variable itself, or in the
data of the session.
-/

/-- `mbb_var_is_alive` -/
def isAlive (var : MbbVar E V) : Bool :=
  match var.mod with
  | none => true
  | some m => (s.run.get? m).getD false

/-- `mbb_var_is_readonly` -/
def isReadonly (var : MbbVar E V) : Bool := var.vdef.opWrite.isNone

/-- `mbb_var_can_read` -/
def canRead (var : MbbVar E V) (cap : BitVec 32) : Bool :=
  var.vdef.opRead.isSome && mbbCapCheck cap var.vdef.capRead

/-- `mbb_var_can_write` -/
def canWrite (var : MbbVar E V) (cap : BitVec 32) : Bool :=
  !isReadonly var && mbbCapCheck cap var.vdef.capWrite

/-- Where the value of a variable is for a session: `ptr` of a base variable, and what
`mbb_session_var_get_data` gives otherwise; then it is made first, if it is not there. -/
inductive Place : Type where
  /-- a value of its own -/
  | cell (ptr : ℕ)
  /-- one of the session -/
  | own (session id : ℕ)

/-- `ptr`, or `mbb_session_var_get_data` -/
def getData (k : ℕ) (var : MbbVar E V) : Place × Vars E V :=
  match var.session, var.opNew with
  | true, some opNew =>
    match s.data k var.id with
    | some _ => (.own k var.id, s)
    | none =>
      let mine := Function.update (s.data k) var.id (some (opNew (s.cells var.ptr)))
      (.own k var.id, { s with data := Function.update s.data k mine })
  | _, _ => (.cell var.ptr, s)

/-- The value at a place. -/
def value : Place → Option V
  | .cell ptr => some (s.cells ptr)
  | .own k id => s.data k id

/-- A new value at a place. -/
def setValue (f : V → V) : Place → Vars E V
  | .cell ptr => { s with cells := Function.update s.cells ptr (f (s.cells ptr)) }
  | .own k id =>
    let mine := Function.update (s.data k) id ((s.data k id).map f)
    { s with data := Function.update s.data k mine }

/-- `mbb_var_read` -/
def varRead (c : VarCaller E) (var : MbbVar E V) : Option (Option String × Vars E V) :=
  match var.vdef.opRead with
  | none => none
  | some op =>
    let (place, s) := s.getData c.session var
    some ((s.value place).bind (op c.env), s)

/-- `mbb_var_write` -/
def varWrite (c : VarCaller E) (var : MbbVar E V) (arg : String) : Option (Bool × Vars E V) :=
  match var.vdef.opWrite with
  | none => none
  | some op =>
    let (place, s) := s.getData c.session var
    match op arg with
    | none => some (false, s)
    | some f => some (true, s.setValue f place)

/-- `mbb_var_get_by_name` -/
def getByName (name : String) : Option (MbbVar E V) :=
  match s.table.get? name with
  | none => none
  | some var => if s.isAlive var then some var else none

/-! ## Caches

The global cache and that of each session are tables of texts by names.
-/

/-- `mbb_var_get_cache_table` -/
def cacheTable (k : ℕ) (name : String) : VarCache :=
  if hasSessionPrefix name then s.cached k else s.cache

/-- The table that `mbb_var_get_cache_table` gives is changed. -/
def setCacheTable (k : ℕ) (name : String) (f : VarCache → VarCache) : Vars E V :=
  if hasSessionPrefix name then
    { s with cached := Function.update s.cached k (f (s.cached k)) }
  else { s with cache := f s.cache }

/-- `mbb_var_cache_get` -/
def cacheGet (k : ℕ) (name : String) : Option String := (s.cacheTable k name).get? name

/-- `mbb_var_cache_add` -/
def cacheAdd (k : ℕ) (name value : String) : Vars E V :=
  s.setCacheTable k name fun cache => cache.put name value

/-- `mbb_var_cache_save` -/
def cacheSave (c : VarCaller E) (name : String) (var : MbbVar E V) : Option (Vars E V) :=
  match s.varRead c var with
  | none => none
  | some (none, s) => some s
  | some (some value, s) => some (s.cacheAdd c.session name value)

/-- `mbb_var_cache_load` -/
def cacheLoad (c : VarCaller E) (name : String) (var : MbbVar E V) : Option (Vars E V) :=
  if isReadonly var then some s
  else
    match s.cacheGet c.session name with
    | none => some s
    | some value => (s.varWrite c var value).map Prod.snd

/-! ## Modules -/

/-- The variables of a module that are registered. -/
def moduleVars (m : ℕ) : List (String × MbbVar E V) :=
  s.table.rows.filter fun r => decide (r.2.mod = some m)

/-- The loop of `module_vars_do`. -/
def varsDo (func : Vars E V → String → MbbVar E V → Option (Vars E V)) :
    List (String × MbbVar E V) → Vars E V → Option (Vars E V)
  | [], s => some s
  | r :: rows, s => (func s r.1 r.2).bind (varsDo func rows)

/-- The text that `mbb_var_mregister` finds for a base variable. -/
def registerValue (k : ℕ) (name : String) : Option String :=
  let value :=
    if hasSessionPrefix name then none else s.cacheGet k (sessionVarPrefix ++ name)
  match value with
  | some value => some value
  | none => s.cacheGet k name

/-- `mbb_var_mregister`: nothing is done when the name is taken. -/
def varMregister (c : VarCaller E) (m : ℕ) (name : String) (var : MbbVar E V) : Bool × Vars E V :=
  if (s.table.get? name).isSome then (false, s)
  else
    let var := { var with id := s.varId, mod := some m }
    let s := { s with varId := s.varId + 1 }
    let s :=
      if !var.session && canWrite var (capOf mbbCapRootId) then
        match s.registerValue c.session name with
        | none => s
        | some value => ((s.varWrite c var value).map Prod.snd).getD s
      else s
    (true, { s with table := s.table.put name var })

/-- The loop of `mbb_module_reg_data`, with whether all variables are registered. -/
def moduleRegVars (c : VarCaller E) (m : ℕ) :
    List (String × MbbVar E V) → Vars E V → Bool × Vars E V
  | [], s => (true, s)
  | r :: rows, s =>
    let (ok, s) := s.varMregister c m r.1 r.2
    let (all, s) := moduleRegVars c m rows s
    (ok && all, s)

/-- `mbb_module_unload`, as far as variables are concerned. -/
def moduleUnload (m : ℕ) : Vars E V :=
  { s with
    table := s.table.drop fun name => (s.table.get? name).any fun var => decide (var.mod = some m)
    run := s.run.drop fun m' => decide (m' = m) }

end Vars

/-! ## Methods

What a thread can call, with the capabilities that are asked for.
-/

/-- The methods, and what loads a module. -/
inductive VarCmd (E V : Type) : Type where
  /-- `mbb-var-list` -/
  | varList
  /-- `mbb-var-show` -/
  | varShow (name : String)
  /-- `mbb-var-set` -/
  | varSet (name value : String)
  /-- `mbb-show-vars`; a regular expression is what matches it -/
  | showVars (re : Option (String → Bool))
  /-- `mbb-var-cache-add` -/
  | cacheAdd (name : String) (value : Option String)
  /-- `mbb-var-cache-load` -/
  | cacheLoad (name : String)
  /-- `mbb-var-cache-del` -/
  | cacheDel (name : String)
  /-- `mbb-var-cache-show` -/
  | cacheShow (name : String)
  /-- `mbb-var-cache-list` -/
  | cacheList
  /-- `mbb-show-cached` -/
  | showCached
  /-- `mbb-module-run`, `mbb-module-stop` -/
  | moduleRun (m : ℕ) (run : Bool)
  /-- `mbb-module-vars-save` -/
  | moduleVarsSave (m : ℕ)
  /-- `mbb-module-vars-load` -/
  | moduleVarsLoad (m : ℕ)
  /-- `mbb-module-load` of a module with these variables; `funcs` says that all its functions are
  registered -/
  | moduleLoad (m : ℕ) (funcs : Bool) (vars : List (String × MbbVar E V))
  /-- `mbb-module-unload` -/
  | moduleUnload (m : ℕ)

/-- `cap_mask` of the methods. -/
def VarCmd.capMask {E V : Type} : VarCmd E V → BitVec 32
  | .varList | .varShow _ | .varSet _ _ | .showVars _ => mbbCapAll
  | .cacheShow _ | .cacheList | .showCached => mbbCapAll
  | .cacheAdd _ _ | .cacheLoad _ | .cacheDel _ => capOf mbbCapWheelId
  | .moduleRun _ _ | .moduleVarsSave _ | .moduleVarsLoad _ => capOf mbbCapWheelId
  | .moduleLoad _ _ _ | .moduleUnload _ => capOf mbbCapRootId

namespace Vars

variable {E V : Type} (s : Vars E V)

/-- `show_vars`, row by row -/
def showVarsLoop (c : VarCaller E) (re : Option (String → Bool)) :
    List (String × MbbVar E V) → Vars E V → Option (List (String × Option String) × Vars E V)
  | [], s => some ([], s)
  | r :: rows, s =>
    if s.isAlive r.2 && re.all (fun re => re r.1) && canRead r.2 c.cap then
      match s.varRead c r.2 with
      | none => none
      | some (text, s) => (showVarsLoop c re rows s).map fun rest => ((r.1, text) :: rest.1, rest.2)
    else showVarsLoop c re rows s

/-- The method that is called. -/
def method (c : VarCaller E) : VarCmd E V → Option (VarAnswer × Vars E V)
  | .varList =>
    some (.names ((s.table.rows.filter fun r => s.isAlive r.2).map Prod.fst), s)
  | .varShow name =>
    match s.getByName name with
    | none => some (.unknownVar, s)
    | some var =>
      if !canRead var c.cap then some (.notCapable, s)
      else (s.varRead c var).map fun r => (.value r.1, r.2)
  | .varSet name value =>
    match s.getByName name with
    | none => some (.unknownVar, s)
    | some var =>
      if !canWrite var c.cap then some (.notCapable, s)
      else (s.varWrite c var value).map fun r => (if r.1 then .ok else .invalidValue, r.2)
  | .showVars re => (s.showVarsLoop c re s.table.rows).map fun r => (.vars r.1, r.2)
  | .cacheAdd name (some value) => some (.ok, s.cacheAdd c.session name value)
  | .cacheAdd name none =>
    match s.getByName name with
    | none => some (.unknownVar, s)
    | some var => (s.cacheSave c name var).map fun s => (.ok, s)
  | .cacheLoad name =>
    match s.cacheGet c.session name with
    | none => some (.unknownVar, s)
    | some value =>
      match s.getByName name with
      | none => some (.missed, s)
      | some var =>
        if isReadonly var then some (.readonly, s)
        else (s.varWrite c var value).map fun r => (if r.1 then .ok else .invalidValue, r.2)
  | .cacheDel name =>
    some (.ok, s.setCacheTable c.session name fun cache => cache.drop fun n => decide (n = name))
  | .cacheShow name =>
    match s.cacheGet c.session name with
    | none => some (.unknownVar, s)
    | some value => some (.value (some value), s)
  | .cacheList =>
    some (.names (s.cache.rows.map Prod.fst ++ (s.cached c.session).rows.map Prod.fst), s)
  | .showCached =>
    some (.vars ((s.cache.rows ++ (s.cached c.session).rows).map fun r => (r.1, some r.2)), s)
  | .moduleRun m run =>
    match s.run.get? m with
    | none => some (.unknownModule, s)
    | some run' =>
      if run' = run then some (.already, s) else some (.ok, { s with run := s.run.put m run })
  | .moduleVarsSave m =>
    match s.run.get? m with
    | none => some (.unknownModule, s)
    | some _ =>
      (varsDo (fun s name var => s.cacheSave c name var) (s.moduleVars m) s).map fun s => (.ok, s)
  | .moduleVarsLoad m =>
    match s.run.get? m with
    | none => some (.unknownModule, s)
    | some _ =>
      (varsDo (fun s name var => s.cacheLoad c name var) (s.moduleVars m) s).map fun s => (.ok, s)
  | .moduleLoad m funcs vars =>
    match s.run.get? m with
    | some _ => some (.already, s)
    | none =>
      let (all, s) := moduleRegVars c m vars s
      some (.ok, { s with run := s.run.put m (funcs && all) })
  | .moduleUnload m =>
    match s.run.get? m with
    | none => some (.unknownModule, s)
    | some _ => some (.ok, s.moduleUnload m)

/-- `mbb_func_call`: a method that the caller may not call is not found. -/
def call (c : VarCaller E) (cmd : VarCmd E V) : Option (VarAnswer × Vars E V) :=
  if mbbCapCheck c.cap cmd.capMask then s.method c cmd else some (.unknownMethod, s)

/-- `session_vars_init` -/
def sessionVarsInit (k : ℕ) : Vars E V :=
  s.table.rows.foldl (fun s r => (s.getData k r.2).2) s

end Vars

/-- What happens. -/
inductive VarEvent (E V : Type) : Type where
  /-- a session begins -/
  | enter (k : ℕ)
  /-- a method is called -/
  | call (c : VarCaller E) (cmd : VarCmd E V)

namespace Vars

variable {E V : Type}

/-- One event, with the answer and the capabilities of who gets it. -/
def exec (s : Vars E V) : VarEvent E V → Option (List (BitVec 32 × VarAnswer) × Vars E V)
  | .enter k => some ([], s.sessionVarsInit k)
  | .call c cmd => (s.call c cmd).map fun r => ([(c.cap, r.1)], r.2)

/-- Events one after the other. -/
def execAll : List (VarEvent E V) → Vars E V → Option (List (BitVec 32 × VarAnswer) × Vars E V)
  | [], s => some ([], s)
  | e :: es, s =>
    match s.exec e with
    | none => none
    | some (answers, s) => (execAll es s).map fun r => (answers ++ r.1, r.2)

end Vars

end Mbb
