import Mathlib.Data.List.Basic
import Mathlib.Logic.Function.Basic
import Mathlib.Logic.Relation

/-!
# Running, stopping and cancelling tasks (`mbbd/mbbtask.c`)

A task is a thread of its own. Sessions look it up under the reader lock of `mbbplock.h`, change
`run` and `cancel`, and wake it; it looks at both between the steps of its work, sleeps while it is
stopped, takes itself out of the table under the writer lock in the end, and is freed after that.
The session that has made it reads its id when the thread is running already.

All of them are modelled statement by statement, with the mutex, the waiting, and wakeups without a
signal. The table is that of one task; sessions that look up other tasks do not touch it.
-/

namespace Mbb

/-- Where `task_poll` is called. -/
inductive PollFrom : Type where
  /-- in the loop of `mbb_task_work` -/
  | loop
  /-- in the work, by `mbb_task_poll_state` -/
  | work

/-- Where the thread of a task is. -/
inductive TaskPc : Type where
  /-- at `hook->init(task->data)` -/
  | init
  /-- at `hook->work(task->data)` -/
  | call
  /-- in it -/
  | work
  /-- `task_poll`: at `task->run == FALSE` -/
  | poll (c : PollFrom)
  /-- `mbb_task_pause`: at `g_mutex_lock(task->mutex)` -/
  | lock (c : PollFrom)
  /-- at `task->run == FALSE && task->cancel == FALSE` -/
  | check (c : PollFrom)
  /-- in `g_cond_wait(task->cond, task->mutex)` -/
  | asleep (c : PollFrom)
  /-- woken, and about to have the mutex again -/
  | awake (c : PollFrom)
  /-- at `g_mutex_unlock(task->mutex)` -/
  | unlock (c : PollFrom)
  /-- at `task->cancel` -/
  | test (c : PollFrom)
  /-- at `hook->fini(task->data)` -/
  | fini
  /-- `mbb_task_free`: at `mbb_plock_writer_lock()` -/
  | free
  /-- at `g_free(task)`, and what is before it -/
  | release
  /-- over -/
  | gone

/-- What a session does with the task. -/
inductive TaskCmd : Type where
  /-- `task_run` -/
  | run
  /-- `task_stop` -/
  | stop
  /-- `task_cancel` -/
  | cancel
  deriving DecidableEq

/-- What the command makes of `run`. -/
def TaskCmd.target : TaskCmd → Bool
  | .stop => false
  | _ => true

/-- Where a session is, in `task_do_run` or `task_cancel`. -/
inductive SessionPc : Type where
  /-- in neither -/
  | idle
  /-- at `mbb_task_get(id)` -/
  | lookup (c : TaskCmd)
  /-- at `task->cancel = TRUE` -/
  | setCancel
  /-- at `g_mutex_lock(task->mutex)` -/
  | lock (c : TaskCmd)
  /-- at `task->run == run` -/
  | test (c : TaskCmd)
  /-- at `task->run = run` -/
  | set (c : TaskCmd)
  /-- at `g_cond_signal(task->cond)` -/
  | signal
  /-- at `g_mutex_unlock(task->mutex)` -/
  | unlock
  /-- at `mbb_plock_reader_unlock()` -/
  | leave

/-- The threads. -/
inductive TaskThread : Type where
  /-- that of the task -/
  | task
  /-- that of a session -/
  | session (k : ℕ)
  deriving DecidableEq

/-- A task and the sessions around it. -/
structure TaskControl : Type where
  /-- the thread of the task -/
  task : TaskPc
  /-- sessions -/
  session : ℕ → SessionPc
  /-- the session that has made the task is at `return task->id` -/
  creator : Bool
  /-- `run` -/
  run : Bool
  /-- `cancel` -/
  cancel : Bool
  /-- who has `mutex` -/
  mutex : Option TaskThread
  /-- sessions that have the reader lock -/
  readers : List ℕ
  /-- the task is in the table -/
  listed : Bool
  /-- the task has been freed -/
  freed : Bool
  /-- how often `hook->work` has been called -/
  calls : ℕ

/-- Steps; a `b` is what the hook answers. -/
inductive TaskAct : Type where
  /-- the next statement of the task -/
  | task (b : Bool)
  /-- the work calls `mbb_task_poll_state` -/
  | pollState
  /-- the task is woken without a signal -/
  | wake
  /-- a session gets a command, and the reader lock -/
  | enter (k : ℕ) (c : TaskCmd)
  /-- the next statement of a session -/
  | session (k : ℕ)
  /-- `mbb_task_create` returns -/
  | created

namespace TaskControl

/-- `mbb_task_create`, when the thread has been made. -/
def init : TaskControl where
  task := .init
  session _ := .idle
  creator := true
  run := true
  cancel := false
  mutex := none
  readers := []
  listed := true
  freed := false
  calls := 0

variable (s : TaskControl)

/-- A session goes on. -/
def goto (k : ℕ) (pc : SessionPc) : TaskControl :=
  { s with session := Function.update s.session k pc }

/-- A signal wakes the task if it sleeps. -/
def woken : TaskPc :=
  match s.task with
  | .asleep c => .awake c
  | pc => pc

/-- The next statement of the task, if it is not held up. -/
def taskStep (b : Bool) : Option TaskControl :=
  match s.task with
  | .init => some { s with task := if b then .call else .free }
  | .call => some { s with task := .work, calls := s.calls + 1 }
  | .work => some { s with task := if b then .poll .loop else .fini }
  | .poll c => some { s with task := if s.run then .test c else .lock c }
  | .lock c | .awake c =>
    if s.mutex = none then some { s with task := .check c, mutex := some .task } else none
  | .check c =>
    if !s.run && !s.cancel then some { s with task := .asleep c, mutex := none }
    else some { s with task := .unlock c }
  | .asleep _ => none
  | .unlock c => some { s with task := .test c, mutex := none }
  | .test .loop => some { s with task := if s.cancel then .fini else .call }
  | .test .work => some { s with task := .work }
  | .fini => some { s with task := .free }
  | .free =>
    if s.readers = [] then some { s with task := .release, listed := false } else none
  | .release => some { s with task := .gone, freed := true }
  | .gone => none

/-- The next statement of a session, if it is not held up. -/
def sessionStep (k : ℕ) : Option TaskControl :=
  match s.session k with
  | .idle => none
  | .lookup c =>
    some (s.goto k (if !s.listed then .leave else if c = .cancel then .setCancel else .lock c))
  | .setCancel => some { s.goto k (.lock .cancel) with cancel := true }
  | .lock c =>
    if s.mutex = none then some { s.goto k (.test c) with mutex := some (.session k) } else none
  | .test c => some (s.goto k (if s.run = c.target then .unlock else .set c))
  | .set c => some { s.goto k (if c.target then .signal else .unlock) with run := c.target }
  | .signal => some { s.goto k .unlock with task := s.woken }
  | .unlock => some { s.goto k .leave with mutex := none }
  | .leave => some { s.goto k .idle with readers := s.readers.erase k }

/-- One step, where it can be made. -/
def step : TaskAct → Option TaskControl
  | .task b => s.taskStep b
  | .pollState =>
    match s.task with
    | .work => some { s with task := .poll .work }
    | _ => none
  | .wake => some { s with task := s.woken }
  | .enter k c =>
    match s.session k with
    | .idle => some { s.goto k (.lookup c) with readers := k :: s.readers }
    | _ => none
  | .session k => s.sessionStep k
  | .created => if s.creator then some { s with creator := false } else none

/-- Runs with their steps. -/
inductive Run : TaskControl → List TaskAct → TaskControl → Prop where
  /-- no steps -/
  | nil (s : TaskControl) : Run s [] s
  /-- one more step -/
  | snoc {s t t' : TaskControl} {acts : List TaskAct} {a : TaskAct} (h : Run s acts t)
    (ha : t.step a = some t') : Run s (acts ++ [a]) t'

end TaskControl

end Mbb
