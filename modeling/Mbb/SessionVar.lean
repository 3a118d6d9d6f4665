import Mathlib.Logic.Relation
import Mbb.Lib.Ledger
import Mbb.Lib.Lifetime

/-!
# Variables of sessions (`mbbd/mbbsession.c`)

A variable of sessions has a value in each of them. A new session gets a datum for every variable
that is queued, other variables are given one when they are first looked at, and both the end of a
session and the end of a variable free them. `mbb_session_new` makes the data of a session before
it takes the lock and puts the session into the table, which `mbb_session_del_var` goes over; what a
thread does in one piece is a step here.

Variables and sessions are numbered. What happens to variables and to data is noted in a trace.
-/

namespace Mbb

namespace SessionVar

/-- A datum: `data` of a variable, or what `op_new` has made. -/
inductive Ptr : Type where
  /-- that of a variable -/
  | static (var : ℕ)
  /-- a new one -/
  | own (n : ℕ)
  deriving DecidableEq

/-- What is allocated and freed. -/
inductive Obj : Type where
  /-- a variable -/
  | var (v : ℕ)
  /-- a datum -/
  | data (ptr : Ptr)
  deriving DecidableEq

/-- `struct mbb_session_var`: which operations there are -/
structure Priv : Type where
  /-- `op_new` -/
  opNew : Bool
  /-- `op_free` -/
  opFree : Bool

/-- `struct mbb_session` -/
structure Session : Type where
  /-- `vars` -/
  vars : Ledger ℕ Ptr
  /-- it is in the table -/
  listed : Bool

/-- The daemon, as far as variables of sessions are concerned. -/
structure State (V : Type) : Type where
  /-- the next variable -/
  varId : ℕ
  /-- operations of variables -/
  priv : ℕ → Priv
  /-- variables that have not been freed -/
  alive : List ℕ
  /-- `var_queue` -/
  varQueue : List ℕ
  /-- the next session -/
  sessionNo : ℕ
  /-- sessions -/
  sessions : Ledger ℕ Session
  /-- the next datum -/
  dataId : ℕ
  /-- data -/
  value : Ptr → Option V
  /-- what has happened -/
  trace : List (MemEvent Obj)

/-- What threads do; an `x` is what `op_new` makes. -/
inductive Act (V : Type) : Type where
  /-- `mbb_session_var_new` -/
  | addVar (priv : Priv) (x : V)
  /-- `mbb_var_free` -/
  | delVar (v : ℕ)
  /-- `mbb_session_new` up to the lock -/
  | enter (x : ℕ → V)
  /-- `mbb_session_new` with the lock -/
  | list (k : ℕ)
  /-- `mbb_session_var_read` -/
  | read (k v : ℕ) (x : V)
  /-- `mbb_session_var_write` -/
  | write (k v : ℕ) (x y : V)
  /-- `mbb_session_quit` -/
  | quit (k : ℕ)

namespace State

variable {V : Type}

/-- Before everything. -/
def start : State V := ⟨0, fun _ => ⟨false, false⟩, [], [], 0, .empty, 0, fun _ => none, []⟩

variable (s : State V)

/-- The datum of a variable in a session. -/
def ptr (k v : ℕ) : Option Ptr := (s.sessions.get? k).bind fun session => session.vars.get? v

/-- The value that a session has for a variable. -/
def view (k v : ℕ) : Option V := (s.ptr k v).bind s.value

/-- `session_insert_var` -/
def sessionInsertVar (k v : ℕ) (x : V) : State V :=
  let insert (data : Ptr) := s.sessions.modify k fun session =>
    { session with vars := session.vars.put v data }
  if (s.priv v).opNew then
    { s with
      sessions := insert (.own s.dataId)
      dataId := s.dataId + 1
      value := Function.update s.value (.own s.dataId) (some x)
      trace := s.trace ++ [.use (.var v), .alloc (.data (.own s.dataId))] }
  else { s with sessions := insert (.static v), trace := s.trace ++ [.use (.var v)] }

/-- `session_vars_init` -/
def sessionVarsInit (k : ℕ) (x : ℕ → V) : State V :=
  s.varQueue.foldl (fun s v => s.sessionInsertVar k v (x v)) s

/-- `mbb_session_var_get_data` -/
def getData (k v : ℕ) (x : V) : State V :=
  match s.ptr k v with
  | some _ => s
  | none => s.sessionInsertVar k v x

/-- The operation of a variable is called for its datum in a session. -/
def useData (k v : ℕ) : State V :=
  { s with trace := s.trace ++ .use (.var v) :: ((s.ptr k v).toList.filterMap fun data =>
    match data with
    | .static _ => none
    | .own n => some (.use (.data (.own n)))) }

/-- The datum of a variable, if it is to be freed. -/
def freed (r : ℕ × Ptr) : Option Obj := if (s.priv r.1).opFree then some (.data r.2) else none

/-- `session_vars_fini` -/
def finiTrace (session : Session) : List (MemEvent Obj) :=
  session.vars.rows.flatMap fun r => [Obj.var r.1].map .use ++ (s.freed r).toList.map .free

/-- The loop of `mbb_session_del_var`. -/
def delTrace (v : ℕ) : List (MemEvent Obj) :=
  s.sessions.rows.flatMap fun r => [Obj.var v].map .use ++
    (if r.2.listed then (r.2.vars.get? v).bind fun data => s.freed (v, data)
      else none).toList.map .free

/-- One step, where it can be made. -/
def step : Act V → Option (State V)
  | .addVar priv x =>
    -- every variable has both operations, or none
    if priv.opNew = priv.opFree then
      some { s with
        varId := s.varId + 1
        priv := Function.update s.priv s.varId priv
        alive := s.varId :: s.alive
        varQueue := s.varQueue ++ [s.varId]
        value := Function.update s.value (.static s.varId) (some x)
        trace := s.trace ++ [.alloc (.var s.varId)] }
    else none
  | .delVar v =>
    if v ∈ s.alive then
      some { s with
        alive := s.alive.erase v
        varQueue := s.varQueue.erase v
        sessions := s.sessions.update (fun _ => true) fun session =>
          if session.listed then
            { session with vars := session.vars.drop fun v' => decide (v' = v) }
          else session
        trace := s.trace ++ s.delTrace v ++ [.free (.var v)] }
    else none
  | .enter x =>
    some (State.sessionVarsInit { s with
      sessionNo := s.sessionNo + 1
      sessions := s.sessions.put s.sessionNo ⟨.empty, false⟩ } s.sessionNo x)
  | .list k =>
    match s.sessions.get? k with
    | some ⟨_, false⟩ =>
      some { s with sessions := s.sessions.modify k fun session => { session with listed := true } }
    | _ => none
  | .read k v x =>
    match s.sessions.get? k with
    | some ⟨_, true⟩ => if v ∈ s.alive then some ((s.getData k v x).useData k v) else none
    | _ => none
  | .write k v x y =>
    match s.sessions.get? k with
    | some ⟨_, true⟩ =>
      if v ∈ s.alive then
        let t := (s.getData k v x).useData k v
        some { t with value := fun data => if t.ptr k v = some data then some y else t.value data }
      else none
    | _ => none
  | .quit k =>
    match s.sessions.get? k with
    | some ⟨vars, true⟩ =>
      some { s with
        sessions := s.sessions.drop fun k' => decide (k' = k)
        trace := s.trace ++ s.finiTrace ⟨vars, true⟩ }
    | _ => none

/-- No session is being made. -/
def Settled : Prop := ∀ k session, s.sessions.get? k = some session → session.listed = true

end State

variable {V : Type}

/-- Runs in which no variable ends while a session is being made. -/
inductive Run : State V → List (Act V) → State V → Prop where
  /-- no steps -/
  | nil (s : State V) : Run s [] s
  /-- one more step -/
  | snoc {s t t' : State V} {acts : List (Act V)} {a : Act V} (h : Run s acts t)
    (ha : t.step a = some t') (hdel : ∀ v, a = .delVar v → t.Settled) : Run s (acts ++ [a]) t'

end SessionVar

end Mbb
