import Mbb.Lib.RefCount
import Mbb.VarConv
import Mbb.XmlClient

/-!
# Logs (`mbbd/mbblog.c`, `mbbd/shared.c`)

Sessions subscribe to levels of logs and may trace other sessions. Whoever logs a message goes over
the table of subscribers, with the lock of the table taken for reading, and pushes the message to
the queues of those who want it; the text is made for the first of them, and the others share it.
The subscribers send it from their queues at any time, and the last of all frees it.

A call of `mbb_log_push_all` is made of steps, between which others may log, and subscribers may
send. A subscription changes with the lock taken for writing, so while no call goes on. The
functions that a session calls get a number of its own as `tid`.
-/

namespace Mbb

/-- `mbb_log_lvl_t`, a level or a mask of levels -/
abbrev LogLvl := BitVec 32

/-- `MBB_LOG_MSG` -/
def mbbLogMsg : LogLvl := 1

/-- `MBB_LOG_SELF` -/
def mbbLogSelf : LogLvl := 1 <<< 21

/-- `MBB_LOG_TASK` -/
def mbbLogTask : LogLvl := 1 <<< 22

/-- `log_levels` -/
def logLevels : List (LogLvl × String) :=
  [(mbbLogMsg, "msg"), (1 <<< 1, "xml"), (1 <<< 2, "http"), (1 <<< 20, "user"),
    (mbbLogSelf, "self"), (mbbLogTask, "task"), (1 <<< 3, "query"), (1 <<< 10, "debug"),
    (1 <<< 11, "debugv")]

/-- `mask_has_lvl` -/
def maskHasLvl (mask lvl : LogLvl) : Bool := decide (mask &&& lvl = lvl)

/-- `log_lvl_name` -/
def logLvlName (lvl : LogLvl) : Option String := logLevels.lookup lvl

/-- `log_lvl_mask` -/
def logLvlMask (list : List Variant) : LogLvl :=
  list.foldl (fun mask var =>
    match logLevels.find? fun l => decide (variantStr var = some (literal l.2)) with
    | none => mask
    | some l => mask ||| l.1) 0

/-! ## Subscriptions

The table is keyed by sessions. A session has a mask of levels and a list of sessions that it
traces.
-/

/-- `struct thread_log_data`; the signaller only wakes the session. -/
structure ThreadLogData : Type where
  /-- the session with the queue -/
  msgQueue : Int
  /-- levels -/
  lvlMask : LogLvl
  /-- sessions that are traced -/
  traced : List Int

/-- `ht` -/
abbrev LogTable := Ledger Int ThreadLogData

/-- `tld_get_or_creat`: the table with an entry, if the session has a queue -/
def tldGetOrCreat (ht : Option LogTable) (tid : Int) (hasQueue : Bool) : LogTable :=
  let ht := ht.getD .empty
  match ht.get? tid with
  | some _ => ht
  | none => if hasQueue then ht.put tid ⟨tid, 0, []⟩ else ht

/-- `tld_del` -/
def tldDel (ht : LogTable) (tid : Int) : LogTable := ht.drop fun k => decide (k = tid)

/-- `mbb_log_set_lvl_mask` -/
def mbbLogSetLvlMask (ht : Option LogTable) (tid : Int) (hasQueue : Bool) (mask : LogLvl) :
    Option LogTable :=
  if mask = 0 then ht.map fun ht => tldDel ht tid
  else some ((tldGetOrCreat ht tid hasQueue).modify tid fun tld => { tld with lvlMask := mask })

/-- `mbb_log_add_lvl_mask` -/
def mbbLogAddLvlMask (ht : Option LogTable) (tid : Int) (hasQueue : Bool) (mask : LogLvl) :
    Option LogTable :=
  if mask = 0 then ht
  else
    some ((tldGetOrCreat ht tid hasQueue).modify tid fun tld =>
      { tld with lvlMask := tld.lvlMask ||| mask })

/-- `mbb_log_del_lvl_mask` -/
def mbbLogDelLvlMask (ht : Option LogTable) (tid : Int) (mask : LogLvl) : Option LogTable :=
  if mask = 0 then ht
  else
    ht.map fun ht =>
      match ht.get? tid with
      | none => ht
      | some tld =>
        if tld.lvlMask &&& ~~~mask = 0 then tldDel ht tid
        else ht.modify tid fun tld => { tld with lvlMask := tld.lvlMask &&& ~~~mask }

/-- `log_register` -/
def logRegister (ht : Option LogTable) (tid : Int) (hasQueue : Bool) : Option LogTable :=
  some ((tldGetOrCreat ht tid hasQueue).modify tid fun tld =>
    { tld with lvlMask := if tld.lvlMask = 0 then mbbLogMsg else tld.lvlMask })

/-- `mbb_log_unregister` -/
def mbbLogUnregister (ht : Option LogTable) (tid : Int) : Option LogTable :=
  ht.map fun ht => tldDel ht tid

/-- The session that a text names: of the caller, none, or one that is there. A `NULL` is read. -/
def sidOf (has : Int → Bool) (tid : Int) (var : Variant) : Option (Option Int) :=
  (variantStr var).map fun str =>
    if str = literal "self" then some tid
    else
      -- an error of the conversion is not looked at, and gives 0
      let sid := toGint ((strConvToUint64 (utf8Bytes str.chars)).toOption.getD 0)
      if sid = 0 ∨ has sid = false then none else some sid

/-- `get_sid_list` -/
def getSidList (has : Int → Bool) (tid : Int) (varList : List Variant) : Option (List Int) :=
  (varList.mapM (sidOf has tid)).map fun sids =>
    (sids.filterMap id).foldl (fun list sid => if sid ∈ list then list else sid :: list) []

/-- `log_trace_add` -/
def logTraceAdd (ht : Option LogTable) (tid : Int) (hasQueue : Bool) (sidList : List Int) :
    Option LogTable :=
  if sidList = [] then ht
  else
    some ((tldGetOrCreat ht tid hasQueue).modify tid fun tld =>
      { tld with
        lvlMask := if tld.lvlMask = 0 then mbbLogMsg else tld.lvlMask
        traced := sidList.foldl (fun traced sid =>
          if sid ∈ traced then traced else sid :: traced) tld.traced })

/-- `log_trace_del` -/
def logTraceDel (ht : Option LogTable) (tid : Int) (sidList : List Int) : Option LogTable :=
  ht.map fun ht => ht.modify tid fun tld =>
    { tld with traced := sidList.foldl List.erase tld.traced }

/-- `log_trace_zclean` -/
def logTraceZclean (ht : Option LogTable) (has : Int → Bool) (tid : Int) : Option LogTable :=
  ht.map fun ht => ht.modify tid fun tld => { tld with traced := tld.traced.filter has }

/-- `log_trace_clean` -/
def logTraceClean (ht : Option LogTable) (tid : Int) : Option LogTable :=
  ht.map fun ht => ht.modify tid fun tld => { tld with traced := [] }

/-- Methods that change a subscription. -/
inductive LogMethod : Type where
  /-- `mbb-log-on` -/
  | on
  /-- `mbb-log-off` -/
  | off
  /-- `mbb-log-set-levels` -/
  | setLevels
  /-- `mbb-log-add-levels` -/
  | addLevels
  /-- `mbb-log-del-levels` -/
  | delLevels
  /-- `mbb-log-trace-add` -/
  | traceAdd
  /-- `mbb-log-trace-del` -/
  | traceDel
  /-- `mbb-log-trace-clean` -/
  | traceClean
  /-- `mbb-log-trace-zclean` -/
  | traceZclean

/-- A method for a request; none where `NULL` would be read. -/
def logMethod (ht : Option LogTable) (has : Int → Bool) (tid : Int) (hasQueue : Bool)
    (tag : XmlTag) : LogMethod → Option (Option LogTable)
  | .on => some (logRegister ht tid hasQueue)
  | .off => some (mbbLogUnregister ht tid)
  | .setLevels => some (mbbLogSetLvlMask ht tid hasQueue levels)
  | .addLevels => some (mbbLogAddLvlMask ht tid hasQueue levels)
  | .delLevels => some (mbbLogDelLvlMask ht tid levels)
  | .traceAdd => (getSidList has tid sids).map (logTraceAdd ht tid hasQueue)
  | .traceDel => (getSidList has tid sids).map (logTraceDel ht tid)
  | .traceClean => some (logTraceClean ht tid)
  | .traceZclean => some (logTraceZclean ht has tid)
where
  /-- `log_do_levels` -/
  levels := logLvlMask (xmlTagPathAttrList tag (literal "level") (literal "value"))
  /-- sessions of the request -/
  sids := xmlTagPathAttrList tag (literal "sid") (literal "value")

/-! ## Messages

A call takes the lock, goes through the table in some order and pushes. The text has one reference
for the call while the call goes on, and one for each entry.
-/

/-- Who logs: the client of a session, or a task, which keeps the number of the session that has
started it. -/
inductive LogThread : Type where
  /-- a session -/
  | session (tid : Int) (user : Option CStr) (peer : CStr)
  /-- a task -/
  | task (tid id : Int) (name : CStr)

/-- `mbb_thread_get_tid` or `mbb_task_get_tid` -/
def LogThread.tid : LogThread → Int
  | .session tid _ _ => tid
  | .task tid _ _ => tid

/-- The level of what it logs. -/
def LogThread.lvl (lvl : LogLvl) : LogThread → LogLvl
  | .session _ _ _ => lvl
  | .task _ _ _ => mbbLogTask

/-- The attributes of a message. -/
def LogThread.attrs (domain : String) : LogThread → List (String × CStr)
  | .session tid user peer => [("sid", decimal tid), ("user", user.getD (literal "*")),
      ("peer", peer), ("domain", literal domain)]
  | .task tid id name => [("sid", decimal tid), ("task_id", decimal id), ("peer", name),
      ("domain", literal domain)]

/-- `log_msg_new` or `log_task_msg_new` -/
def logMsgNew [Glib] (thread : LogThread) (domain : String) (msg : CStr) : List Char :=
  "<log".toList ++
    (thread.attrs domain).flatMap (fun a =>
      ' ' :: a.1.toList ++ "='".toList ++ Glib.escapeText a.2.chars ++ "'".toList) ++
    "><message value='".toList ++ Glib.escapeText msg.chars ++ "'/></log>".toList

/-- `log_lvl_ispermit` for `log_mask_key` -/
def logLvlIspermit (logMask lvl : LogLvl) : Bool :=
  if logMask = 0 then true else maskHasLvl logMask lvl

/-- The level and the domain of what is logged, if it is. -/
def logDomain (logMask : LogLvl) (thread : LogThread) (lvl : LogLvl) : Option (LogLvl × String) :=
  if logLvlIspermit logMask lvl then
    (logLvlName (thread.lvl lvl)).map fun domain => (thread.lvl lvl, domain)
  else none

/-- The test of `mbb_log_push`: the subscriber `key` wants a message of level `lvl` by `tid`. -/
def logWants (key : Int) (tld : ThreadLogData) (lvl : LogLvl) (tid : Int) : Bool :=
  (if tld.traced ≠ [] then decide (tid ∈ tld.traced)
    else if key = tid then maskHasLvl tld.lvlMask mbbLogSelf
    else decide (lvl ≠ mbbLogSelf)) &&
    maskHasLvl tld.lvlMask lvl

namespace Log

/-- A text that is shared, and the call that has made it. -/
structure Text : Type where
  /-- the call -/
  call : ℕ
  /-- the text -/
  text : List UInt8

/-- `struct log_msg`, with where the call of `mbb_log_push_all` is in the table. -/
structure Call : Type where
  /-- level -/
  lvl : LogLvl
  /-- who logs -/
  tid : Int
  /-- the text, once it is made -/
  text : List UInt8
  /-- `shared` -/
  shared : Option ℕ
  /-- the session to whose queue the message is about to be pushed -/
  pending : Option Int
  /-- subscribers that have not been asked -/
  todo : List Int
  /-- the subscribers -/
  table : LogTable

/-- The subscriber wants the message. -/
def Call.wants (call : Call) (key : Int) : Bool :=
  (call.table.get? key).any fun tld => logWants key tld call.lvl call.tid

/-- Where a session is. -/
inductive Phase : Type where
  /-- it serves its client -/
  | running
  /-- `mbb_log_unregister` has been called -/
  | leaving
  /-- its queue is freed -/
  | freed
  /-- `mbb_session_quit` -/
  | gone
  deriving DecidableEq

/-- The queue of a session. -/
structure LogQueue : Type where
  /-- the queue -/
  queue : MsgQueue
  /-- `un.msg` of entries with a text that is shared -/
  msg : ℕ → Option ℕ
  /-- the texts among what has been pushed that are shared -/
  log : List (Option ℕ)

/-- A session; those of HTTP have no queue. -/
structure Session : Type where
  /-- where it is -/
  phase : Phase
  /-- `msg_queue` -/
  queue : Option LogQueue

/-- The daemon, as far as logs are concerned, with the calls that have returned. -/
structure State : Type where
  /-- sessions -/
  sessions : Ledger Int Session
  /-- `session_id` -/
  sessionId : ℕ
  /-- `ht` of `mbblog.c` -/
  ht : Option LogTable
  /-- texts -/
  heap : RcHeap Text
  /-- calls -/
  calls : Ledger ℕ Call
  /-- the next call -/
  callId : ℕ
  /-- calls that have returned -/
  returned : List (ℕ × Call)
  /-- a queue has been used after it was freed -/
  fault : Bool

/-- Before the first session. -/
def State.start : State := ⟨.empty, 1, none, .empty, .empty, 0, [], false⟩

/-- `mbb_session_has` -/
def State.has (s : State) (sid : Int) : Bool :=
  (s.sessions.get? sid).any fun session => decide (session.phase ≠ .gone)

namespace LogQueue

/-- `mbb_msg_queue_new` -/
def new : LogQueue := ⟨.new, fun _ => none, []⟩

/-- `mbb_msg_queue_push_shared` -/
def pushShared (q : LogQueue) (m : ℕ) (text : List UInt8) : LogQueue where
  queue := q.queue.push .shared text
  msg := Function.update q.msg q.queue.fresh (some m)
  log := q.log ++ [some m]

/-- `mbb_msg_queue_push_alloc` and `mbb_msg_queue_push_const` -/
def pushOwn (q : LogQueue) (type : MsgType) (text : List UInt8) : LogQueue where
  queue := q.queue.push type text
  msg := Function.update q.msg q.queue.fresh none
  log := q.log ++ [none]

/-- The texts that its entries share. -/
def held (q : LogQueue) : List ℕ := q.queue.entries.filterMap q.msg

/-- What a step of `mbb_msg_queue_pop` does with the text of its entry. -/
def popHeap (q : LogQueue) (c : MsgStep) (heap : RcHeap Text) : RcHeap Text :=
  match c, q.queue.pop with
  | .send _, .peeked e => ((q.msg e).map heap.use).getD heap
  | .record, .sent e len n =>
    -- `msg_entry_free`, unless bytes are left
    if 0 < n ∧ ¬ n < len then ((q.msg e).map heap.release).getD heap else heap
  | _, _ => heap

/-- `mbb_msg_queue_free`: the entries are gone -/
def free (q : LogQueue) : LogQueue := { q with queue := { q.queue with queue := none } }

end LogQueue

/-- What threads do. -/
inductive Act : Type where
  /-- a client connects -/
  | connect (http : Bool)
  /-- a thread logs: `mbb_log_push_all` up to the first subscriber -/
  | log (logMask : LogLvl) (thread : LogThread) (lvl : LogLvl) (msg : CStr) (order : List Int)
  /-- the next subscriber is asked -/
  | ask (c : ℕ)
  /-- the message is pushed -/
  | push (c : ℕ)
  /-- the call returns -/
  | ret (c : ℕ)
  /-- a session answers its client -/
  | answer (tid : Int) (type : MsgType) (text : List UInt8)
  /-- a session sends -/
  | pop (tid : Int) (c : MsgStep)
  /-- a session calls a method -/
  | method (tid : Int) (m : LogMethod) (tag : XmlTag)
  /-- a session ends: `mbb_log_unregister` -/
  | leave (tid : Int)
  /-- `mbb_msg_queue_free` -/
  | free (tid : Int)
  /-- `mbb_session_quit` -/
  | quit (tid : Int)

namespace State

variable (s : State)

/-- `msg_get_shared_ref`: the text of the message, and the memory with it, one reference more -/
def msgGetSharedRef (c : ℕ) (call : Call) : RcHeap Text × ℕ :=
  match call.shared with
  | some m => (s.heap.retain m, m)
  | none => ((s.heap.alloc ⟨c, call.text⟩).retain s.heap.made.length, s.heap.made.length)

/-- The call asks the next subscriber. -/
def ask (c : ℕ) : Option State :=
  match s.calls.get? c with
  | some ⟨lvl, tid, text, shared, none, key :: todo, table⟩ =>
    let call : Call := ⟨lvl, tid, text, shared, none, key :: todo, table⟩
    match (s.ht.getD .empty).get? key with
    | none => none
    | some tld =>
      if logWants key tld lvl tid then
        let r := s.msgGetSharedRef c call
        some { s with
          heap := r.1
          calls := s.calls.modify c fun call =>
            { call with shared := some r.2, pending := some tld.msgQueue, todo } }
      else some { s with calls := s.calls.modify c fun call => { call with todo } }
  | _ => none

/-- The message is pushed to a queue. -/
def push (c : ℕ) : Option State :=
  match s.calls.get? c with
  | some ⟨_, _, text, some m, some tid, _, _⟩ =>
    let calls := s.calls.modify c fun call => { call with pending := none }
    match s.sessions.get? tid with
    | some ⟨phase, some q⟩ =>
      if phase = .running ∨ phase = .leaving then
        some { s with
          calls
          sessions := s.sessions.modify tid fun session =>
            { session with queue := some (q.pushShared m text) } }
      else some { s with calls, fault := true }
    | _ => some { s with calls, fault := true }
  | _ => none

/-- The call gives its own reference back, and the lock. -/
def ret (c : ℕ) : Option State :=
  match s.calls.get? c with
  | some ⟨lvl, tid, text, shared, none, [], table⟩ =>
    some { s with
      heap := (shared.map s.heap.release).getD s.heap
      calls := s.calls.drop fun c' => decide (c' = c)
      returned := (c, ⟨lvl, tid, text, shared, none, [], table⟩) :: s.returned }
  | _ => none

/-- A session sends from its queue. -/
def popQueue (tid : Int) (c : MsgStep) : Option State :=
  match s.sessions.get? tid with
  | some ⟨.running, some q⟩ =>
    (q.queue.step c).map fun queue =>
      { s with
        heap := q.popHeap c s.heap
        sessions := s.sessions.modify tid fun session =>
          { session with queue := some { q with queue } } }
  | _ => none

variable [Glib]

/-- One step, where it can be made. -/
def step : Act → Option State
  | .connect http =>
    -- the numbers of sessions do not start again
    if s.sessionId < 2147483648 then
      some { s with
        sessions := s.sessions.put s.sessionId ⟨.running, if http then none else some .new⟩
        sessionId := s.sessionId + 1 }
    else none
  | .log logMask thread lvl msg order =>
    match logDomain logMask thread lvl with
    | none => some s
    | some (lvl, domain) =>
      match s.ht with
      | none => some s
      | some ht =>
        if ht.rows.isEmpty then some s
        else if order.Perm (ht.rows.map Prod.fst) then
          some { s with
            calls := s.calls.put s.callId
              ⟨lvl, thread.tid, utf8Bytes (logMsgNew thread domain msg), none, none, order, ht⟩
            callId := s.callId + 1 }
        else none
  | .ask c => s.ask c
  | .push c => s.push c
  | .ret c => s.ret c
  | .answer tid type text =>
    match s.sessions.get? tid with
    | some ⟨.running, some q⟩ =>
      if type = .shared then none
      else
        some { s with
          sessions := s.sessions.modify tid fun session =>
            { session with queue := some (q.pushOwn type text) } }
    | _ => none
  | .pop _ (.push _ _) => none
  | .pop tid c => s.popQueue tid c
  | .method tid m tag =>
    match s.sessions.get? tid with
    | some ⟨.running, queue⟩ =>
      if s.calls.rows.isEmpty then
        (logMethod s.ht s.has tid queue.isSome tag m).map fun ht => { s with ht }
      else none
    | _ => none
  | .leave tid =>
    match s.sessions.get? tid with
    | some ⟨.running, some q⟩ =>
      if s.calls.rows.isEmpty ∧ q.queue.pop = .idle then
        some { s with
          ht := mbbLogUnregister s.ht tid
          sessions := s.sessions.modify tid fun session => { session with phase := .leaving } }
      else none
    | _ => none
  | .free tid =>
    match s.sessions.get? tid with
    | some ⟨.leaving, some q⟩ =>
      some { s with
        heap := s.heap.releaseAll q.held
        sessions := s.sessions.modify tid fun _ => ⟨.freed, some q.free⟩ }
    | _ => none
  | .quit tid =>
    match s.sessions.get? tid with
    | some ⟨.running, none⟩ | some ⟨.freed, some _⟩ =>
      some { s with
        sessions := s.sessions.modify tid fun session => { session with phase := .gone } }
    | _ => none

end State

/-- The states of the runs from `s`. -/
def Reaches [Glib] (s s' : State) : Prop :=
  Relation.ReflTransGen (fun s s' => ∃ a, s.step a = some s') s s'

end Log

end Mbb
