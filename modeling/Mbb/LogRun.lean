import Mbb.Log

/-!
# Runs of logs

Whatever sessions, tasks and other threads do, and in whatever order: the table of subscribers has
sessions with a queue that still serve their clients, texts are freed with the last entry that has
them and not before, and each message is pushed once to those who want it and to nobody else.
-/

namespace Mbb

/-! ## The table

The table is read by those who log and changed by the methods of clients. What is said of it here
does not speak of queues: only which sessions may be in it, and that nobody is traced twice.
-/

/-- An entry of the table, where `P` has the sessions that serve their clients and have a queue. -/
structure TldOk (P : Int → Prop) (k : Int) (tld : ThreadLogData) : Prop where
  /-- its own queue -/
  msgQueue : tld.msgQueue = k
  /-- some level -/
  lvlMask : tld.lvlMask ≠ 0
  /-- no session is traced twice -/
  traced : tld.traced.Nodup
  /-- the session -/
  session : P k

/-- The entries of the table. -/
def LogTableOk (P : Int → Prop) (ht : Option LogTable) : Prop :=
  ∀ t ∈ ht, ∀ k tld, t.get? k = some tld → TldOk P k tld

section Table

variable {P : Int → Prop} {ht : Option LogTable} {tid : Int}

/-- More sessions may be in the table, as far as the table is concerned. -/
theorem LogTableOk.mono {P' : Int → Prop} (h : LogTableOk P ht) (hP : ∀ k, P k → P' k) :
    LogTableOk P' ht := by
  intro t ht k tld htld
  have hok := h t ht k tld htld
  exact ⟨hok.msgQueue, hok.lvlMask, hok.traced, hP k hok.session⟩

/-- An entry that is there is changed. -/
theorem LogTableOk.modify (h : LogTableOk P ht) {f : ThreadLogData → ThreadLogData}
    (hqueue : ∀ tld, (f tld).msgQueue = tld.msgQueue)
    (hmask : ∀ tld, tld.lvlMask ≠ 0 → (f tld).lvlMask ≠ 0)
    (htraced : ∀ tld, tld.traced.Nodup → (f tld).traced.Nodup) :
    LogTableOk P (ht.map fun t => t.modify tid f) := by
  intro t' ht' k tld htld
  obtain ⟨t, ht, rfl⟩ := Option.mem_map.mp ht'
  rw [Ledger.get?_modify] at htld
  split at htld
  · rename_i hk
    subst hk
    obtain ⟨old, hold, rfl⟩ := Option.map_eq_some_iff.mp htld
    have hok := h t ht k old hold
    exact ⟨(hqueue old).trans hok.msgQueue, hmask old hok.lvlMask, htraced old hok.traced,
      hok.session⟩
  · exact h t ht k tld htld

/-- An entry is taken out. -/
theorem LogTableOk.drop_ne (h : LogTableOk P ht) :
    LogTableOk (fun k => P k ∧ k ≠ tid) (ht.map fun t => tldDel t tid) := by
  intro t' ht' k tld htld
  obtain ⟨t, ht, rfl⟩ := Option.mem_map.mp ht'
  rw [tldDel, Ledger.get?_drop] at htld
  split at htld
  · cases htld
  · rename_i hk
    have hok := h t ht k tld htld
    exact ⟨hok.msgQueue, hok.lvlMask, hok.traced, hok.session, by simpa using hk⟩

/-- A session leaves the table, and the others trace it no more. -/
theorem LogTableOk.drop (h : LogTableOk P ht) : LogTableOk P (ht.map fun t => tldDel t tid) :=
  h.drop_ne.mono fun _ hk => hk.1

/-- An entry is made if there is none, and gets a level. -/
theorem LogTableOk.create (h : LogTableOk P ht) {hasQueue : Bool}
    (hsession : hasQueue = true → P tid) {f : ThreadLogData → ThreadLogData}
    (hqueue : ∀ tld, (f tld).msgQueue = tld.msgQueue) (hmask : ∀ tld, (f tld).lvlMask ≠ 0)
    (htraced : ∀ tld, tld.traced.Nodup → (f tld).traced.Nodup) :
    LogTableOk P (some ((tldGetOrCreat ht tid hasQueue).modify tid f)) := by
  have hold : ∀ k tld, (ht.getD .empty).get? k = some tld → TldOk P k tld := by
    intro k tld htld
    cases ht with
    | none => cases htld
    | some t => exact h t rfl k tld htld
  -- what is in the table before the change, but for the level of a new entry
  have hcreated : ∀ k tld, (tldGetOrCreat ht tid hasQueue).get? k = some tld →
      TldOk P k (if k = tid then f tld else tld) := by
    intro k tld htld
    rw [tldGetOrCreat] at htld
    have hofOld : (ht.getD .empty).get? k = some tld →
        TldOk P k (if k = tid then f tld else tld) := by
      intro hget
      have hok := hold k tld hget
      split
      · exact ⟨(hqueue tld).trans hok.msgQueue, hmask tld, htraced tld hok.traced, hok.session⟩
      · exact hok
    split at htld
    · exact hofOld htld
    · split at htld
      · rename_i hq
        rw [Ledger.get?_put] at htld
        split at htld
        · rename_i hk
          subst hk
          obtain rfl := Option.some.inj htld
          rw [if_pos rfl]
          exact ⟨hqueue _, hmask _, htraced _ List.nodup_nil, hsession hq⟩
        · exact hofOld htld
      · exact hofOld htld
  intro t' ht' k tld htld
  obtain rfl := Option.mem_some_iff.mp ht'
  rw [Ledger.get?_modify] at htld
  split at htld
  · rename_i hk
    subst hk
    obtain ⟨old, hget, rfl⟩ := Option.map_eq_some_iff.mp htld
    have hok := hcreated k old hget
    rwa [if_pos rfl] at hok
  · rename_i hk
    have hok := hcreated k tld htld
    rwa [if_neg hk] at hok

/-- Sessions that are traced already are not added again. -/
theorem nodup_foldl_add {sids traced : List Int} (h : traced.Nodup) :
    (sids.foldl (fun traced sid => if sid ∈ traced then traced else sid :: traced)
      traced).Nodup := by
  induction sids generalizing traced with
  | nil => exact h
  | cons sid sids ih =>
    rw [List.foldl_cons]
    split
    · exact ih h
    · rename_i hsid
      exact ih (List.nodup_cons.mpr ⟨hsid, h⟩)

/-- Sessions that are traced no more are taken out. -/
theorem nodup_foldl_erase {sids traced : List Int} (h : traced.Nodup) :
    (sids.foldl List.erase traced).Nodup := by
  induction sids generalizing traced with
  | nil => exact h
  | cons sid sids ih => exact ih (h.erase sid)

/-- A mask that would be empty is that of messages. -/
theorem ite_mbbLogMsg_ne_zero (mask : LogLvl) : (if mask = 0 then mbbLogMsg else mask) ≠ 0 := by
  split
  · decide
  · assumption

/-- Every method keeps the table. -/
theorem LogTableOk.method (h : LogTableOk P ht) {has : Int → Bool} {hasQueue : Bool}
    (hsession : hasQueue = true → P tid) {tag : XmlTag} {m : LogMethod} {ht' : Option LogTable}
    (hm : logMethod ht has tid hasQueue tag m = some ht') : LogTableOk P ht' := by
  cases m with
  | on =>
    obtain rfl := Option.some.inj hm
    exact h.create hsession (fun _ => rfl) (fun tld => ite_mbbLogMsg_ne_zero _) fun _ => id
  | off =>
    obtain rfl := Option.some.inj hm
    exact h.drop
  | setLevels =>
    obtain rfl := Option.some.inj hm
    rw [mbbLogSetLvlMask]
    split
    · exact h.drop
    · rename_i hmask
      exact h.create hsession (fun _ => rfl) (fun _ => hmask) fun _ => id
  | addLevels =>
    obtain rfl := Option.some.inj hm
    rw [mbbLogAddLvlMask]
    split
    · exact h
    · rename_i hmask
      refine h.create hsession (fun _ => rfl) (fun tld hzero => hmask ?_) fun _ => id
      exact (BitVec.or_eq_zero_iff.mp hzero).2
  | delLevels =>
    obtain rfl := Option.some.inj hm
    rw [mbbLogDelLvlMask]
    split
    · exact h
    · intro t' ht' k tld htld
      obtain ⟨t, ht, rfl⟩ := Option.mem_map.mp ht'
      split at htld
      · exact h t ht k tld htld
      · rename_i old hold
        split at htld
        · exact h.drop _ (Option.mem_map_of_mem _ ht) k tld htld
        · rename_i hmask
          rw [Ledger.get?_modify] at htld
          split at htld
          · rename_i hk
            subst hk
            rw [hold] at htld
            obtain rfl := Option.some.inj htld
            have hok := h t ht k old hold
            exact ⟨hok.msgQueue, hmask, hok.traced, hok.session⟩
          · exact h t ht k tld htld
  | traceAdd =>
    obtain ⟨sids, -, rfl⟩ := Option.map_eq_some_iff.mp hm
    rw [logTraceAdd]
    split
    · exact h
    · exact h.create hsession (fun _ => rfl) (fun tld => ite_mbbLogMsg_ne_zero _)
        fun _ => nodup_foldl_add
  | traceDel =>
    obtain ⟨sids, -, rfl⟩ := Option.map_eq_some_iff.mp hm
    exact h.modify (fun _ => rfl) (fun _ => id) fun _ => nodup_foldl_erase
  | traceClean =>
    obtain rfl := Option.some.inj hm
    exact h.modify (fun _ => rfl) (fun _ => id) fun _ _ => List.nodup_nil
  | traceZclean =>
    obtain rfl := Option.some.inj hm
    exact h.modify (fun _ => rfl) (fun _ => id) fun _ => List.Nodup.filter _

end Table

namespace Log

/-! ## Queues

A queue of the log is a queue of messages in which some entries hold a text that is shared. What the
entries hold is counted by the references of the texts.
-/

namespace LogQueue

variable {q : LogQueue}

/-- A pushed entry holds what it was given. -/
theorem held_push (hq : q.queue.Inv) (type : MsgType) (text : List UInt8) (o : Option ℕ) :
    (q.queue.push type text).entries.filterMap (Function.update q.msg q.queue.fresh o) =
      q.held ++ o.toList := by
  have hold : q.queue.entries.filterMap (Function.update q.msg q.queue.fresh o) = q.held := by
    refine List.filterMap_congr fun e he => Function.update_of_ne ?_ ..
    exact Nat.ne_of_lt (hq.lt e he)
  rw [MsgQueue.entries_push, List.filterMap_append, hold]
  cases o <;> simp

/-- An entry of the log holds its text. -/
theorem held_pushShared (hq : q.queue.Inv) (m : ℕ) (text : List UInt8) :
    (q.pushShared m text).held = q.held ++ [m] := held_push hq .shared text (some m)

/-- An answer holds no text of the log. -/
theorem held_pushOwn (hq : q.queue.Inv) (type : MsgType) (text : List UInt8) :
    (q.pushOwn type text).held = q.held :=
  (held_push hq type text none).trans (List.append_nil _)

/-- The first entry and the others hold what the queue holds. -/
theorem held_cons {e : ℕ} (he : q.queue.entries.head? = some e) :
    q.held = (q.msg e).toList ++ q.queue.entries.tail.filterMap q.msg := by
  obtain ⟨es, hes⟩ := List.head?_eq_some_iff.mp he
  rw [held, hes, List.tail_cons, List.filterMap_cons]
  cases q.msg e <;> rfl

/-- What is sent is looked into, if it is a text of the log. -/
theorem popHeap_send {e : ℕ} (hpop : q.queue.pop = .peeked e) (n : Int) (heap : RcHeap Text) :
    q.popHeap (.send n) heap = ((q.msg e).map heap.use).getD heap := by
  simp only [popHeap, hpop]

/-- An entry that is recorded as sent gives its text back when all of it was. -/
theorem popHeap_record {e len : ℕ} {n : Int} (hpop : q.queue.pop = .sent e len n)
    (heap : RcHeap Text) : q.popHeap .record heap =
      if 0 < n ∧ ¬ n < len then ((q.msg e).map heap.release).getD heap else heap := by
  simp only [popHeap, hpop]

/-- A queue that sends makes no text. -/
theorem made_popHeap (q : LogQueue) (c : MsgStep) (heap : RcHeap Text) :
    (q.popHeap c heap).made = heap.made := by
  rw [popHeap.eq_def]
  split
  · rename_i e _
    cases q.msg e <;> simp
  · rename_i e _ _ _
    split
    · cases q.msg e <;> simp
    · rfl
  · rfl

/-- What a session does with the texts while it sends, where `other` has the references that are
held elsewhere. -/
theorem pop_counts (hq : q.queue.Inv) {c : MsgStep} (hc : ∀ type text, c ≠ .push type text)
    {queue : MsgQueue} (hstep : q.queue.step c = some queue) {heap : RcHeap Text} (other : ℕ → ℕ)
    (hcounts : heap.Counts fun m => other m + q.held.count m) :
    (q.popHeap c heap).Counts (fun m => other m +
      ({ q with queue } : LogQueue).held.count m) ∧ queue.pushed = q.queue.pushed := by
  cases c with
  | push type text => exact absurd rfl (hc type text)
  | peek =>
    rw [MsgQueue.step] at hstep
    split at hstep
    · obtain rfl := Option.some.inj hstep
      rw [MsgQueue.peek]
      split <;> exact ⟨hcounts, rfl⟩
    · cases hstep
  | send n =>
    rw [MsgQueue.step] at hstep
    split at hstep
    · rename_i e hpop
      have hsent : queue.queue = q.queue.queue ∧ queue.pushed = q.queue.pushed := by
        rw [MsgQueue.send] at hstep
        split at hstep
        · cases hstep
        · simp only at hstep
          split at hstep
          · obtain rfl := Option.some.inj hstep
            exact ⟨rfl, rfl⟩
          · cases hstep
      have hheld : ({ q with queue } : LogQueue).held = q.held := by
        rw [held, held, MsgQueue.entries, hsent.1]
        rfl
      refine ⟨?_, hsent.2⟩
      rw [hheld, popHeap_send hpop]
      cases hmsg : q.msg e with
      | none => exact hcounts
      | some m =>
        refine hcounts.use (a := m) ?_
        have hmem : m ∈ q.held := by
          rw [held_cons (hq.head e hpop), hmsg]
          exact List.mem_cons_self
        have hpos := List.count_pos_iff.mpr hmem
        omega
    · cases hstep
  | record =>
    rw [MsgQueue.step] at hstep
    split at hstep
    · rename_i e len n hpop
      obtain rfl := Option.some.inj hstep
      have hhead := (hq.sent e len n hpop).1
      rw [popHeap_record hpop]
      simp only [MsgQueue.record]
      by_cases hpos : 0 < n
      · by_cases hlen : n < len
        · rw [if_neg (fun h => h.2 hlen), if_pos hpos, if_pos hlen]
          exact ⟨hcounts, rfl⟩
        · rw [if_pos ⟨hpos, hlen⟩, if_pos hpos, if_neg hlen]
          refine ⟨?_, rfl⟩
          rw [held_cons hhead] at hcounts
          change RcHeap.Counts _ fun m => other m + (q.queue.entries.tail.filterMap q.msg).count m
          cases hmsg : q.msg e with
          | none =>
            rw [hmsg] at hcounts
            exact hcounts
          | some m =>
            rw [hmsg] at hcounts
            refine hcounts.release (a := m) ?_ fun m' hm' => ?_
            · simp only [Option.toList_some, List.singleton_append, List.count_cons_self]
              omega
            · simp only [Option.toList_some, List.singleton_append]
              rw [List.count_cons_of_ne (Ne.symm hm')]
      · rw [if_neg (fun h => hpos h.1), if_neg hpos]
        exact ⟨hcounts, rfl⟩
    · cases hstep

end LogQueue

/-! ## What holds in every state

The counts of the texts are right for what queues and calls hold, and each call knows whom it has
pushed to: those it has asked and who wanted the message, once each.
-/

/-- References to a text in the queue of a session. -/
def Session.refs (session : Session) (m : ℕ) : ℕ := (session.queue.elim [] LogQueue.held).count m

/-- References to a text of a call, with the one that is about to be pushed. -/
def Call.refs (call : Call) (m : ℕ) : ℕ :=
  if call.shared = some m then if call.pending = none then 1 else 2 else 0

namespace State

/-- References to a text. -/
def refs (s : State) (m : ℕ) : ℕ :=
  (s.sessions.tally fun session => session.refs m) + s.calls.tally fun call => call.refs m

/-- The texts that were pushed to the queue of a session. -/
def log (s : State) (k : Int) : List (Option ℕ) :=
  ((s.sessions.get? k).bind Session.queue).elim [] LogQueue.log

/-- The session serves its client, and has a queue. -/
def Serves (s : State) (k : Int) : Prop := ∃ q, s.sessions.get? k = some ⟨.running, some q⟩

end State

/-- The texts among what was pushed. -/
def LogOk (made : List Text) (q : LogQueue) : Prop :=
  List.Forall₂ (fun o text => ∀ m ∈ o, (made[m]?).map Text.text = some text) q.log q.queue.pushed

/-- A session. -/
structure SessionOk (made : List Text) (session : Session) : Prop where
  /-- until the queue is freed -/
  live : ∀ q, session.queue = some q → session.phase = .running ∨ session.phase = .leaving →
    q.queue.Inv
  /-- afterwards -/
  dead : ∀ q, session.queue = some q → ¬ (session.phase = .running ∨ session.phase = .leaving) →
    q.held = []
  /-- what was pushed -/
  log : ∀ q, session.queue = some q → LogOk made q

/-- A call: those who have been asked have the message if they want it, but for one to whom it is
about to be pushed. -/
structure CallOk (log : Int → List (Option ℕ)) (made : List Text) (c : ℕ) (call : Call) : Prop where
  /-- nobody is asked twice -/
  nodup : call.todo.Nodup
  /-- subscribers are asked -/
  todo : ∀ k ∈ call.todo, call.table.get? k ≠ none
  /-- the message is pushed to one who wants it -/
  pending : ∀ k ∈ call.pending, k ∉ call.todo ∧ call.wants k = true ∧ call.shared ≠ none
  /-- no text has been made if nobody has wanted it -/
  unmade : call.shared = none → ∀ k, k ∉ call.todo → call.wants k = false
  /-- if it has been made, somebody has wanted it -/
  wanted : call.shared ≠ none → ∃ k, call.wants k = true
  /-- the text, and who has it -/
  made : ∀ m ∈ call.shared, made[m]? = some ⟨c, call.text⟩ ∧ ∀ k, (log k).count (some m) =
    if call.wants k = true ∧ k ∉ call.todo ∧ call.pending ≠ some k then 1 else 0

/-- What holds in every state. -/
structure State.Inv (s : State) : Prop where
  /-- numbers of sessions have been given out -/
  sessionLt : ∀ k session, s.sessions.get? k = some session → k < s.sessionId
  /-- sessions -/
  session : ∀ k session, s.sessions.get? k = some session → SessionOk s.heap.made session
  /-- subscribers -/
  table : LogTableOk s.Serves s.ht
  /-- numbers of calls have been given out -/
  callLt : ∀ c call, s.calls.get? c = some call → c < s.callId
  /-- the table stays as it is while a call goes on -/
  callTable : ∀ c call, s.calls.get? c = some call → s.ht = some call.table
  /-- calls -/
  call : ∀ c call, s.calls.get? c = some call → CallOk s.log s.heap.made c call
  /-- calls that have returned -/
  returned : ∀ r ∈ s.returned, r.1 < s.callId ∧ s.calls.get? r.1 = none ∧
    CallOk s.log s.heap.made r.1 r.2 ∧ r.2.todo = [] ∧ r.2.pending = none
  /-- references -/
  counts : s.heap.Counts s.refs
  /-- no queue is used after it was freed -/
  noFault : s.fault = false

variable {s s' : State}

/-- At first there is nothing. -/
theorem inv_start : State.start.Inv where
  sessionLt k session hk := by cases hk
  session k session hk := by cases hk
  table t ht := by cases ht
  callLt c call hc := by cases hc
  callTable c call hc := by cases hc
  call c call hc := by cases hc
  returned r hr := by cases hr
  counts := RcHeap.Counts.empty
  noFault := rfl

/-- Texts that were made stay made. -/
theorem made_getElem?_mono {made made' : List Text} (hmade : made <+: made') {m : ℕ} {t : Text}
    (h : made[m]? = some t) : made'[m]? = some t := by
  obtain ⟨rest, rfl⟩ := hmade
  rw [List.getElem?_append_left (List.getElem?_eq_some_iff.mp h).1]
  exact h

/-- More texts do no harm to a queue. -/
theorem LogOk.mono {made made' : List Text} {q : LogQueue} (h : LogOk made q)
    (hmade : made <+: made') : LogOk made' q := by
  refine List.Forall₂.imp (fun o text hot m hm => ?_) h
  obtain ⟨t, ht, htext⟩ := Option.map_eq_some_iff.mp (hot m hm)
  rw [made_getElem?_mono hmade ht]
  exact congrArg some htext

/-- Nor to a session. -/
theorem SessionOk.mono {made made' : List Text} {session : Session} (h : SessionOk made session)
    (hmade : made <+: made') : SessionOk made' session :=
  ⟨h.live, h.dead, fun q hq => (h.log q hq).mono hmade⟩

/-- What other calls push is not the text of this one. -/
theorem CallOk.mono {log log' : Int → List (Option ℕ)} {made made' : List Text} {c : ℕ}
    {call : Call} (h : CallOk log made c call) (hmade : made <+: made')
    (hlog : ∀ m t, made[m]? = some t → t.call = c → ∀ k,
      (log' k).count (some m) = (log k).count (some m)) : CallOk log' made' c call := by
  refine ⟨h.nodup, h.todo, h.pending, h.unmade, h.wanted, fun m hm => ?_⟩
  obtain ⟨ht, hcount⟩ := h.made m hm
  refine ⟨made_getElem?_mono hmade ht, fun k => ?_⟩
  rw [hlog m _ ht rfl k]
  exact hcount k

/-! ## Steps of sessions

Most steps change one session; then one lemma gives the invariant, if the session holds afterwards
what it held before.
-/

/-- The entries of the log for each session, after one session has changed. -/
theorem log_modify {tid : Int} {session : Session} (hsession : s.sessions.get? tid = some session)
    {f : Session → Session} (hs : s'.sessions = s.sessions.modify tid f) (k : Int) :
    s'.log k = if k = tid then (f session).queue.elim [] LogQueue.log else s.log k := by
  rw [State.log, hs, Ledger.get?_modify]
  split
  · rw [hsession]
    rfl
  · rfl

/-- A session that serves its client serves it still after a change that keeps its phase and its
queue. -/
theorem serves_modify {tid : Int} {session : Session}
    (hsession : s.sessions.get? tid = some session) {f : Session → Session}
    (hs : s'.sessions = s.sessions.modify tid f)
    (hf : session.phase = .running → session.queue.isSome →
      (f session).phase = .running ∧ (f session).queue.isSome) {k : Int} (h : s.Serves k) :
    s'.Serves k := by
  obtain ⟨q, hq⟩ := h
  rw [State.Serves, hs, Ledger.get?_modify]
  split
  · rename_i hk
    subst hk
    obtain rfl := Option.some.inj (hsession.symm.trans hq)
    obtain ⟨hphase, hqueue⟩ := hf rfl rfl
    obtain ⟨q', hq'⟩ := Option.isSome_iff_exists.mp hqueue
    refine ⟨q', ?_⟩
    rw [hsession, Option.map_some]
    cases hf' : f ⟨.running, some q⟩ with
    | mk phase queue =>
      rw [hf'] at hphase hq'
      obtain rfl : phase = .running := hphase
      obtain rfl : queue = some q' := hq'
      rfl
  · exact ⟨q, hq⟩

/-- One session changes; what it does with texts is in `hcounts`. -/
theorem State.Inv.modify (h : s.Inv) {tid : Int} {session : Session}
    (hsession : s.sessions.get? tid = some session) {f : Session → Session} (heap : RcHeap Text)
    (ht : Option LogTable) (hmade : heap.made = s.heap.made)
    (hok : SessionOk s.heap.made (f session))
    (hlog : ∀ m, ((f session).queue.elim [] LogQueue.log).count (some m) =
      (session.queue.elim [] LogQueue.log).count (some m))
    (htable : LogTableOk { s with sessions := s.sessions.modify tid f }.Serves ht)
    (hcallTable : ∀ c call, s.calls.get? c = some call → ht = some call.table)
    (hcounts : heap.Counts { s with sessions := s.sessions.modify tid f }.refs) :
    State.Inv { s with sessions := s.sessions.modify tid f, heap, ht } := by
  have hlogs : ∀ k m, (State.log { s with sessions := s.sessions.modify tid f, heap, ht } k).count
      (some m) = (s.log k).count (some m) := by
    intro k m
    rw [log_modify hsession rfl]
    split
    · rename_i hk
      rw [hlog, State.log, hk, hsession]
      rfl
    · rfl
  have hcall : ∀ {c call}, CallOk s.log s.heap.made c call →
      CallOk (State.log { s with sessions := s.sessions.modify tid f, heap, ht }) heap.made c
        call := fun hc => hc.mono (by rw [hmade]) fun m _ _ _ k => hlogs k m
  refine ⟨fun k session' hk => ?_, fun k session' hk => ?_, htable, h.callLt, hcallTable,
    fun c call hc => hcall (h.call c call hc), fun r hr => ?_, hcounts, h.noFault⟩
  · rw [Ledger.get?_modify] at hk
    split at hk
    · rename_i hkt
      rw [hkt]
      exact h.sessionLt tid session hsession
    · exact h.sessionLt k session' hk
  · rw [Ledger.get?_modify, hsession] at hk
    split at hk
    · obtain rfl := Option.some.inj hk
      rw [hmade]
      exact hok
    · rw [hmade]
      exact h.session k session' hk
  · obtain ⟨hlt, hnone, hc, htodo⟩ := h.returned r hr
    exact ⟨hlt, hnone, hcall hc, htodo⟩

/-- References after one session has changed. -/
theorem refs_modify {tid : Int} {session : Session} (hsession : s.sessions.get? tid = some session)
    {f : Session → Session} (m : ℕ) :
    State.refs { s with sessions := s.sessions.modify tid f } m + session.refs m =
      s.refs m + (f session).refs m := by
  have htally := Ledger.tally_modify (fun session : Session => session.refs m) hsession f
  simp only [State.refs]
  omega

/-- An answer to the client of a session. -/
theorem State.Inv.answer (h : s.Inv) {tid : Int} {q : LogQueue}
    (hq : s.sessions.get? tid = some ⟨.running, some q⟩) (type : MsgType) (text : List UInt8) :
    State.Inv { s with sessions := s.sessions.modify tid fun session =>
      { session with queue := some (q.pushOwn type text) } } := by
  have hold := h.session tid _ hq
  have hinv := hold.live q rfl (.inl rfl)
  refine h.modify hq s.heap s.ht rfl ⟨?_, ?_, ?_⟩ (fun m => ?_)
    (h.table.mono fun k hk => ?_) h.callTable (h.counts.congr fun m => ?_)
  · intro q' hq' _
    obtain rfl := Option.some.inj hq'
    exact hinv.push type text
  · intro _ _ hphase
    exact absurd (.inl rfl) hphase
  · intro q' hq'
    obtain rfl := Option.some.inj hq'
    refine List.rel_append (hold.log q rfl) (.cons (fun m hm => ?_) .nil)
    cases hm
  · change (q.log ++ [none]).count (some m) = q.log.count (some m)
    simp [List.count_append]
  · exact serves_modify (f := fun session =>
      { session with queue := some (q.pushOwn type text) }) hq rfl (fun _ _ => ⟨rfl, rfl⟩) hk
  · have hrefs := refs_modify hq (f := fun session =>
      { session with queue := some (q.pushOwn type text) }) m
    simp only [Session.refs, Option.elim_some, LogQueue.held_pushOwn hinv] at hrefs
    omega

/-- A queue sends and records what was sent. -/
theorem State.Inv.popQueue (h : s.Inv) {tid : Int} {c : MsgStep}
    (hc : ∀ type text, c ≠ .push type text) (hs : s.popQueue tid c = some s') : s'.Inv := by
  rw [State.popQueue] at hs
  split at hs
  · rename_i q hq
    obtain ⟨queue, hstep, rfl⟩ := Option.map_eq_some_iff.mp hs
    have hold := h.session tid _ hq
    have hinv := hold.live q rfl (.inl rfl)
    have hother : ∀ m, q.held.count m ≤ s.refs m := by
      intro m
      have hle := Ledger.le_tally (fun session : Session => session.refs m) hq
      rw [State.refs]
      exact Nat.le_add_right_of_le hle
    obtain ⟨hcounts, hpushed⟩ := LogQueue.pop_counts hinv hc hstep
      (fun m => s.refs m - q.held.count m)
      (h.counts.congr fun m => Nat.sub_add_cancel (hother m))
    refine h.modify hq _ s.ht (q.made_popHeap c s.heap) ⟨?_, ?_, ?_⟩ (fun m => rfl)
      (h.table.mono fun k hk => ?_) h.callTable (hcounts.congr fun m => ?_)
    · intro q' hq' _
      obtain rfl := Option.some.inj hq'
      exact hinv.step hstep
    · intro _ _ hphase
      exact absurd (.inl rfl) hphase
    · intro q' hq'
      obtain rfl := Option.some.inj hq'
      have hlog := hold.log q rfl
      rw [LogOk, ← hpushed] at hlog
      exact hlog
    · exact serves_modify (f := fun session => { session with queue := some { q with queue } }) hq
        rfl (fun _ _ => ⟨rfl, rfl⟩) hk
    · have hrefs := refs_modify hq (f := fun session =>
        { session with queue := some { q with queue } }) m
      simp only [Session.refs, Option.elim_some] at hrefs
      have hle := hother m
      omega
  · cases hs

/-- Where no call goes on none is found. -/
theorem calls_none (h : s.calls.rows.isEmpty = true) (c : ℕ) : s.calls.get? c = none := by
  rw [Ledger.get?, List.isEmpty_iff.mp h]
  rfl

/-- A session leaves the table; its entries are kept until it is freed. -/
theorem State.Inv.leave (h : s.Inv) {tid : Int} {q : LogQueue}
    (hq : s.sessions.get? tid = some ⟨.running, some q⟩) (hcalls : s.calls.rows.isEmpty = true) :
    State.Inv { s with
      ht := mbbLogUnregister s.ht tid
      sessions := s.sessions.modify tid fun session => { session with phase := .leaving } } := by
  have hold := h.session tid _ hq
  refine h.modify hq s.heap _ rfl ⟨fun q' hq' _ => hold.live q' hq' (.inl rfl),
    fun q' hq' hphase => absurd (.inr rfl) hphase, hold.log⟩ (fun m => rfl)
    (h.table.drop_ne.mono fun k hk => ?_) (fun c call hc => ?_) (h.counts.congr fun m => ?_)
  · obtain ⟨⟨q', hq'⟩, hne⟩ := hk
    refine ⟨q', ?_⟩
    rw [Ledger.get?_modify, if_neg hne]
    exact hq'
  · rw [calls_none hcalls] at hc
    cases hc
  · have hrefs := refs_modify hq (f := fun session => { session with phase := .leaving }) m
    simp only [Session.refs] at hrefs
    omega

/-- The queue of a session is freed, and its entries give their texts back. -/
theorem State.Inv.free (h : s.Inv) {tid : Int} {q : LogQueue}
    (hq : s.sessions.get? tid = some ⟨.leaving, some q⟩) :
    State.Inv { s with
      heap := s.heap.releaseAll q.held
      sessions := s.sessions.modify tid fun _ => ⟨.freed, some q.free⟩ } := by
  have hold := h.session tid _ hq
  refine h.modify hq _ s.ht (RcHeap.made_releaseAll _) ⟨fun q' hq' hphase => ?_,
    fun q' hq' _ => ?_, fun q' hq' => ?_⟩ (fun m => rfl) (h.table.mono fun k hk => ?_) h.callTable
    (h.counts.releaseAll _ fun m => ?_)
  · rcases hphase with hphase | hphase
    · cases hphase
    · cases hphase
  · obtain rfl := Option.some.inj hq'
    rfl
  · obtain rfl := Option.some.inj hq'
    exact hold.log q rfl
  · exact serves_modify (f := fun _ => ⟨.freed, some q.free⟩) hq rfl (fun hphase => by cases hphase)
      hk
  · have hrefs := refs_modify hq (f := fun _ => ⟨.freed, some q.free⟩) m
    have hfree : q.free.held = [] := rfl
    simp only [Session.refs, Option.elim_some, hfree, List.count_nil] at hrefs
    omega

/-- A session without a queue ends, or one that was freed. -/
theorem State.Inv.quit (h : s.Inv) {tid : Int} {session : Session}
    (hsession : s.sessions.get? tid = some session)
    (hphase : session = ⟨.running, none⟩ ∨ session.phase = .freed) :
    State.Inv { s with
      sessions := s.sessions.modify tid fun session => { session with phase := .gone } } := by
  have hold := h.session tid _ hsession
  have hdead : ∀ q, session.queue = some q →
      ¬ (session.phase = .running ∨ session.phase = .leaving) := by
    intro q hq
    rcases hphase with rfl | hphase
    · cases hq
    · rw [hphase]
      decide
  refine h.modify hsession s.heap s.ht rfl ⟨fun q hq hlive => ?_,
    fun q hq _ => hold.dead q hq (hdead q hq), hold.log⟩ (fun m => rfl)
    (h.table.mono fun k hk => ?_) h.callTable (h.counts.congr fun m => ?_)
  · rcases hlive with hlive | hlive
    · cases hlive
    · cases hlive
  · refine serves_modify (f := fun session => { session with phase := .gone }) hsession rfl
      (fun hrun hqueue => ?_) hk
    obtain ⟨q, hq⟩ := Option.isSome_iff_exists.mp hqueue
    exact absurd (.inl hrun) (hdead q hq)
  · have hrefs := refs_modify hsession (f := fun session => { session with phase := .gone }) m
    simp only [Session.refs] at hrefs
    omega

/-- A client changes the levels or the sessions it traces. -/
theorem State.Inv.method (h : s.Inv) {tid : Int} {queue : Option LogQueue}
    (hq : s.sessions.get? tid = some ⟨.running, queue⟩) (hcalls : s.calls.rows.isEmpty = true)
    {m : LogMethod} {tag : XmlTag} {ht : Option LogTable}
    (hm : logMethod s.ht s.has tid queue.isSome tag m = some ht) : State.Inv { s with ht } := by
  have htable : LogTableOk s.Serves ht := by
    refine h.table.method (fun hsome => ?_) hm
    obtain ⟨q, rfl⟩ := Option.isSome_iff_exists.mp hsome
    exact ⟨q, hq⟩
  refine ⟨h.sessionLt, h.session, htable, h.callLt, fun c call hc => ?_, h.call, h.returned,
    h.counts, h.noFault⟩
  rw [calls_none hcalls] at hc
  cases hc

/-- A client connects. -/
theorem State.Inv.connect (h : s.Inv) (http : Bool) :
    State.Inv { s with
      sessions := s.sessions.put s.sessionId ⟨.running, if http then none else some .new⟩
      sessionId := s.sessionId + 1 } := by
  have hnone : s.sessions.get? s.sessionId = none := by
    cases hget : s.sessions.get? s.sessionId with
    | none => rfl
    | some session => exact absurd (h.sessionLt _ _ hget) (lt_irrefl _)
  have hother : ∀ k session, s.sessions.get? k = some session → k ≠ s.sessionId := by
    rintro k session hk rfl
    rw [hnone] at hk
    cases hk
  have hlogs : State.log { s with
      sessions := s.sessions.put s.sessionId ⟨.running, if http then none else some .new⟩
      sessionId := s.sessionId + 1 } = s.log := by
    funext k
    rw [State.log, Ledger.get?_put, State.log]
    split
    · rename_i hk
      rw [hk, hnone]
      cases http <;> rfl
    · rfl
  refine ⟨fun k session hk => ?_, fun k session hk => ?_, h.table.mono fun k hk => ?_, h.callLt,
    h.callTable, ?_, ?_, h.counts.congr fun m => ?_, h.noFault⟩
  · rw [Ledger.get?_put] at hk
    split at hk
    · simp only
      omega
    · have hlt := h.sessionLt k session hk
      simp only
      omega
  · rw [Ledger.get?_put] at hk
    split at hk
    · obtain rfl := Option.some.inj hk
      cases http with
      | true =>
        refine ⟨fun q hq _ => ?_, fun q hq _ => ?_, fun q hq => ?_⟩
        · cases hq
        · cases hq
        · cases hq
      | false =>
        refine ⟨fun q hq _ => ?_, fun q hq hphase => absurd (.inl rfl) hphase, fun q hq => ?_⟩
        · obtain rfl := Option.some.inj hq
          exact MsgQueue.inv_new
        · obtain rfl := Option.some.inj hq
          exact .nil
    · exact h.session k session hk
  · obtain ⟨q, hq⟩ := hk
    refine ⟨q, ?_⟩
    rw [Ledger.get?_put, if_neg (hother k _ hq)]
    exact hq
  · rw [hlogs]
    exact h.call
  · rw [hlogs]
    exact h.returned
  · have htally := Ledger.tally_put (fun session : Session => session.refs m) hnone
      ⟨.running, if http then none else some .new⟩
    have hnew : Session.refs ⟨.running, if http then none else some .new⟩ m = 0 := by
      cases http <;> rfl
    simp only [State.refs]
    omega

/-! ## Steps of calls

A call goes through the sessions of the table in some order. It asks a session, pushes if the
message is wanted, and goes on; sessions come and go meanwhile, but not out of the table while the
call has the lock.
-/

/-- What a session wants of a call, by its row in the table that the call reads. -/
theorem Call.wants_of_get? {call : Call} {k : Int} {tld : ThreadLogData}
    (h : call.table.get? k = some tld) : call.wants k = logWants k tld call.lvl call.tid := by
  rw [Call.wants, h]
  rfl

/-- Who wants something is in the table. -/
theorem Call.get?_of_wants {call : Call} {k : Int} (h : call.wants k = true) :
    ∃ tld, call.table.get? k = some tld := by
  rw [Call.wants] at h
  cases hget : call.table.get? k with
  | none =>
    rw [hget] at h
    cases h
  | some tld => exact ⟨tld, rfl⟩

/-- A message that has not been made has not been pushed. -/
theorem State.Inv.count_fresh (h : s.Inv) (k : Int) :
    (s.log k).count (some s.heap.made.length) = 0 := by
  rw [List.count_eq_zero, State.log]
  intro hmem
  cases hsession : s.sessions.get? k with
  | none =>
    rw [hsession] at hmem
    cases hmem
  | some session =>
    rw [hsession, Option.bind_some] at hmem
    cases hq : session.queue with
    | none =>
      rw [hq] at hmem
      cases hmem
    | some q =>
      rw [hq, Option.elim_some] at hmem
      obtain ⟨i, hi, hget⟩ := List.mem_iff_getElem.mp hmem
      have hlog := (h.session k session hsession).log q hq
      have hlen := hlog.length_eq
      have hmade := List.Forall₂.get hlog hi (hlen ▸ hi) _ hget
      simp at hmade

/-- A thread logs: it gets the lock and reads the table. -/
theorem State.Inv.log_call (h : s.Inv) {ht : LogTable} (hht : s.ht = some ht) {lvl : LogLvl}
    {tid : Int} {text : List UInt8} {order : List Int}
    (horder : order.Perm (ht.rows.map Prod.fst)) : State.Inv { s with
      calls := s.calls.put s.callId ⟨lvl, tid, text, none, none, order, ht⟩
      callId := s.callId + 1 } := by
  have hnone : s.calls.get? s.callId = none := by
    cases hget : s.calls.get? s.callId with
    | none => rfl
    | some call => exact absurd (h.callLt _ _ hget) (Nat.lt_irrefl _)
  have hcall : ∀ c call, (s.calls.put s.callId ⟨lvl, tid, text, none, none, order, ht⟩).get? c =
      some call → c < s.callId + 1 ∧ s.ht = some call.table ∧ CallOk s.log s.heap.made c call := by
    intro c call hc
    rw [Ledger.get?_put] at hc
    split at hc
    · rename_i hnew
      obtain rfl := Option.some.inj hc
      refine ⟨by omega, hht, horder.nodup_iff.mpr ht.nodup, fun k hk hget => ?_, ?_,
        fun _ k hk => ?_, fun hmade => absurd rfl hmade, ?_⟩
      · exact Ledger.get?_eq_none.mp hget (horder.mem_iff.mp hk)
      · intro k hk
        cases hk
      · have hget : ht.get? k = none :=
          Ledger.get?_eq_none.mpr fun hmem => hk (horder.mem_iff.mpr hmem)
        rw [Call.wants, hget]
        rfl
      · intro m hm
        cases hm
    · exact ⟨Nat.lt_succ_of_lt (h.callLt c call hc), h.callTable c call hc, h.call c call hc⟩
  refine ⟨h.sessionLt, h.session, h.table, fun c call hc => (hcall c call hc).1,
    fun c call hc => (hcall c call hc).2.1, fun c call hc => (hcall c call hc).2.2, fun r hr => ?_,
    h.counts.congr fun m => ?_, h.noFault⟩
  · obtain ⟨hlt, hget, hok⟩ := h.returned r hr
    refine ⟨Nat.lt_succ_of_lt hlt, ?_, hok⟩
    rw [Ledger.get?_put, if_neg (Nat.ne_of_lt hlt)]
    exact hget
  · have htally := Ledger.tally_put (fun call : Call => call.refs m) hnone
      ⟨lvl, tid, text, none, none, order, ht⟩
    have hnew : Call.refs ⟨lvl, tid, text, none, none, order, ht⟩ m = 0 := rfl
    simp only [State.refs]
    omega

/-- One call goes on, and may make a text. -/
theorem State.Inv.modify_call (h : s.Inv) {c : ℕ} {call : Call} (hc : s.calls.get? c = some call)
    {f : Call → Call} {heap : RcHeap Text} (hmade : s.heap.made <+: heap.made)
    (htable : (f call).table = call.table) (hok : CallOk s.log heap.made c (f call))
    (hcounts : heap.Counts { s with calls := s.calls.modify c f }.refs) :
    State.Inv { s with heap, calls := s.calls.modify c f } := by
  have hmono : ∀ {c call}, CallOk s.log s.heap.made c call → CallOk s.log heap.made c call :=
    fun hold => hold.mono hmade fun _ _ _ _ _ => rfl
  have hcall : ∀ c' call', (s.calls.modify c f).get? c' = some call' →
      c' < s.callId ∧ s.ht = some call'.table ∧ CallOk s.log heap.made c' call' := by
    intro c' call' hc'
    rw [Ledger.get?_modify] at hc'
    split at hc'
    · rename_i heq
      subst heq
      rw [hc] at hc'
      obtain rfl := Option.some.inj hc'
      exact ⟨h.callLt c' call hc, htable ▸ h.callTable c' call hc, hok⟩
    · exact ⟨h.callLt c' call' hc', h.callTable c' call' hc', hmono (h.call c' call' hc')⟩
  refine ⟨h.sessionLt, fun k session hk => (h.session k session hk).mono hmade, h.table,
    fun c' call' hc' => (hcall c' call' hc').1, fun c' call' hc' => (hcall c' call' hc').2.1,
    fun c' call' hc' => (hcall c' call' hc').2.2, fun r hr => ?_, hcounts, h.noFault⟩
  obtain ⟨hlt, hget, hold, hdone⟩ := h.returned r hr
  exact ⟨hlt, Ledger.get?_modify_eq_none.mpr hget, hmono hold, hdone⟩

/-- The references to a text, after one call has changed. -/
theorem refs_modify_call {c : ℕ} {call : Call} (hc : s.calls.get? c = some call) (f : Call → Call)
    (m : ℕ) : State.refs { s with calls := s.calls.modify c f } m + call.refs m =
      s.refs m + (f call).refs m := by
  have htally := Ledger.tally_modify (fun call : Call => call.refs m) hc f
  simp only [State.refs]
  omega

/-- What a call does when it asks. -/
theorem ask_cases {c : ℕ} (hs : s.ask c = some s') :
    ∃ call key todo tld, s.calls.get? c = some call ∧ call.pending = none ∧
      call.todo = key :: todo ∧ (s.ht.getD .empty).get? key = some tld ∧
      (logWants key tld call.lvl call.tid = true ∧ s' = { s with
          heap := (s.msgGetSharedRef c call).1
          calls := s.calls.modify c fun cl => { cl with
            shared := some (s.msgGetSharedRef c call).2, pending := some tld.msgQueue, todo } } ∨
        logWants key tld call.lvl call.tid = false ∧
          s' = { s with calls := s.calls.modify c fun call => { call with todo } }) := by
  rw [State.ask] at hs
  split at hs
  · rename_i lvl tid text shared key todo table hc
    simp only at hs
    split at hs
    · cases hs
    · rename_i tld htld
      refine ⟨_, key, todo, tld, hc, rfl, rfl, htld, ?_⟩
      split at hs
      · rename_i hw
        exact .inl ⟨hw, (Option.some.inj hs).symm⟩
      · rename_i hw
        exact .inr ⟨Bool.eq_false_iff.mpr hw, (Option.some.inj hs).symm⟩
  · cases hs

section

variable {log : Int → List (Option ℕ)} {made made' : List Text} {c : ℕ} {call : Call} {key : Int}
  {todo : List Int}

/-- A session not among the rest, and not the one that is asked, was not to be asked. -/
theorem notMem_todo {k : Int} (htodo : call.todo = key :: todo) (hk : k ∉ todo) (hne : k ≠ key) :
    k ∉ call.todo := by
  rw [htodo, List.mem_cons, not_or]
  exact ⟨hne, hk⟩

/-- A session that does not want the message is passed. -/
theorem CallOk.ask_unwanted (h : CallOk log made c call) (hpending : call.pending = none)
    (htodo : call.todo = key :: todo) (hw : call.wants key = false) :
    CallOk log made c { call with todo } := by
  have hnodup := h.nodup
  rw [htodo, List.nodup_cons] at hnodup
  refine ⟨hnodup.2, fun k hk => h.todo k (htodo ▸ List.mem_cons_of_mem _ hk), fun k hk => ?_,
    fun hnone k hk => ?_, h.wanted, fun m hm => ⟨(h.made m hm).1, fun k => ?_⟩⟩
  · rw [Option.mem_def] at hk
    rw [hpending] at hk
    cases hk
  · by_cases hkey : k = key
    · rw [hkey]
      exact hw
    · exact h.unmade hnone k (notMem_todo htodo hk hkey)
  · rw [(h.made m hm).2 k]
    by_cases hkey : k = key
    · subst hkey
      rw [if_neg fun hall => hall.2.1 (htodo ▸ List.mem_cons_self),
        if_neg fun hall => Bool.false_ne_true (hw.symm.trans hall.1)]
    · refine if_congr (and_congr_right fun _ => and_congr_left fun _ => ?_) rfl rfl
      rw [htodo, List.mem_cons, not_or]
      exact and_iff_right hkey

/-- For a session that wants the message the text is made, if it was not, and is to be pushed. -/
theorem CallOk.ask_wanted (h : CallOk log made c call) (hpending : call.pending = none)
    (htodo : call.todo = key :: todo) (hw : call.wants key = true) (hmade : made <+: made') {m : ℕ}
    (hm : call.shared = some m ∨ call.shared = none ∧ made'[m]? = some ⟨c, call.text⟩ ∧
      ∀ k, (log k).count (some m) = 0) :
    CallOk log made' c { call with shared := some m, pending := some key, todo } := by
  have hnodup := h.nodup
  rw [htodo, List.nodup_cons] at hnodup
  refine ⟨hnodup.2, fun k hk => h.todo k (htodo ▸ List.mem_cons_of_mem _ hk), fun k hk => ?_,
    fun hnone => ?_, fun _ => ⟨key, hw⟩, fun m' hm' => ?_⟩
  · obtain rfl : key = k := Option.some.inj hk
    exact ⟨hnodup.1, hw, Option.some_ne_none _⟩
  · cases hnone
  · obtain rfl : m = m' := Option.some.inj hm'
    rcases hm with hm | ⟨hnone, hnew, hcount⟩
    · obtain ⟨hget, hcount⟩ := h.made m hm
      refine ⟨made_getElem?_mono hmade hget, fun k => ?_⟩
      rw [hcount k]
      by_cases hkey : k = key
      · subst hkey
        rw [if_neg fun hall => hall.2.1 (htodo ▸ List.mem_cons_self),
          if_neg fun hall => hall.2.2 rfl]
      · refine if_congr (and_congr_right fun _ => ?_) rfl rfl
        rw [htodo, List.mem_cons, not_or, hpending]
        simp [hkey, Ne.symm hkey]
    · refine ⟨hnew, fun k => ?_⟩
      rw [hcount k, if_neg]
      rintro ⟨hwk, hk, hne⟩
      have hkey : k ≠ key := fun heq => hne (congrArg some heq.symm)
      exact Bool.false_ne_true ((h.unmade hnone k (notMem_todo htodo hk hkey)).symm.trans hwk)

end

/-- A call asks the next session. -/
theorem State.Inv.ask (h : s.Inv) {c : ℕ} (hs : s.ask c = some s') : s'.Inv := by
  obtain ⟨call, key, todo, tld, hc, hpending, htodo, htld, hcases⟩ := ask_cases hs
  have hold := h.call c call hc
  have hht := h.callTable c call hc
  rw [hht, Option.getD_some] at htld
  rcases hcases with ⟨hw, rfl⟩ | ⟨hw, rfl⟩
  · -- the subscriber wants the message: one reference more, of a text that may be made now
    have hwants : call.wants key = true := (Call.wants_of_get? htld).trans hw
    rw [(h.table _ hht key tld htld).msgQueue]
    have hrefs := fun m m' => refs_modify_call hc
      (fun cl => { cl with shared := some m, pending := some key, todo }) m'
    simp only [Call.refs, hpending, Option.some_ne_none, if_true, if_false] at hrefs
    cases hshared : call.shared with
    | some m =>
      have hget : s.msgGetSharedRef c call = (s.heap.retain m, m) := by
        simp only [State.msgGetSharedRef, hshared]
      have hmade : s.heap.made <+: (s.heap.retain m).made := by rw [RcHeap.made_retain]
      rw [hget]
      refine h.modify_call hc hmade rfl
        (hold.ask_wanted hpending htodo hwants hmade (.inl hshared)) ?_
      refine h.counts.retain (a := m) ?_ ?_ fun m' hm' => ?_
      · have hle := Ledger.le_tally (fun call : Call => call.refs m) hc
        simp only [Call.refs, hshared, hpending, if_true] at hle
        rw [State.refs]
        exact Nat.add_pos_right _ hle
      · have hm := hrefs m m
        rw [hshared, if_pos rfl, if_pos rfl] at hm
        exact Nat.succ.inj hm
      · have hother := hrefs m m'
        have hne : some m ≠ some m' := fun heq => hm' (Option.some.inj heq).symm
        rw [hshared, if_neg hne, if_neg hne] at hother
        exact hother
    | none =>
      have hget : s.msgGetSharedRef c call =
          ((s.heap.alloc ⟨c, call.text⟩).retain s.heap.made.length, s.heap.made.length) := by
        simp only [State.msgGetSharedRef, hshared]
      have hmade : ((s.heap.alloc ⟨c, call.text⟩).retain s.heap.made.length).made =
          s.heap.made ++ [⟨c, call.text⟩] := by
        rw [RcHeap.made_retain]
        rfl
      have hprefix : s.heap.made <+:
          ((s.heap.alloc ⟨c, call.text⟩).retain s.heap.made.length).made := ⟨_, hmade.symm⟩
      rw [hget]
      refine h.modify_call hc hprefix rfl (hold.ask_wanted hpending htodo hwants hprefix
        (.inr ⟨hshared, ?_, fun k => h.count_fresh k⟩)) ?_
      · rw [hmade, List.getElem?_concat_length]
      · have halloc : (s.heap.alloc ⟨c, call.text⟩).Counts fun m =>
            if m = s.heap.made.length then 1 else s.refs m :=
          h.counts.alloc _ (if_pos rfl) fun m hm => if_neg hm
        refine halloc.retain (a := s.heap.made.length) ?_ ?_ fun m hm => ?_
        · rw [if_pos rfl]
          exact Nat.one_pos
        · have hm := hrefs s.heap.made.length s.heap.made.length
          rw [hshared, if_neg (Option.some_ne_none _).symm, if_pos rfl, h.counts.fresh] at hm
          rw [if_pos rfl]
          exact hm
        · have hother := hrefs s.heap.made.length m
          rw [hshared, if_neg (Option.some_ne_none _).symm,
            if_neg fun heq => hm (Option.some.inj heq).symm] at hother
          rw [if_neg hm]
          exact hother
  · refine h.modify_call hc (List.prefix_refl _) rfl
      (hold.ask_unwanted hpending htodo ((Call.wants_of_get? htld).trans hw)) ?_
    refine h.counts.congr fun m => ?_
    have hrefs := refs_modify_call hc (fun call => { call with todo }) m
    simp only [Call.refs] at hrefs
    omega

/-- What a call does when it pushes: its subscriber serves its client, as nobody can leave. -/
theorem State.Inv.push_cases (h : s.Inv) {c : ℕ} (hs : s.push c = some s') :
    ∃ call m key q, s.calls.get? c = some call ∧ call.shared = some m ∧ call.pending = some key ∧
      s.sessions.get? key = some ⟨.running, some q⟩ ∧ s' = { s with
        calls := s.calls.modify c fun call => { call with pending := none }
        sessions := s.sessions.modify key fun session =>
          { session with queue := some (q.pushShared m call.text) } } := by
  rw [State.push] at hs
  split at hs
  · rename_i lvl tid text m key todo table hc
    obtain ⟨-, hwants, -⟩ := (h.call c _ hc).pending key rfl
    obtain ⟨tld, htld⟩ := Call.get?_of_wants hwants
    obtain ⟨q, hq⟩ := (h.table table (h.callTable c _ hc) key tld htld).session
    simp only [hq, true_or, if_true] at hs
    exact ⟨_, m, key, q, hc, rfl, rfl, hq, (Option.some.inj hs).symm⟩
  · cases hs

/-- The subscriber has the message. -/
theorem CallOk.pushed {log log' : Int → List (Option ℕ)} {made : List Text} {c : ℕ} {call : Call}
    {key : Int} {m : ℕ} (h : CallOk log made c call) (hpending : call.pending = some key)
    (hshared : call.shared = some m)
    (hlog : ∀ k, log' k = if k = key then log key ++ [some m] else log k) :
    CallOk log' made c { call with pending := none } := by
  obtain ⟨htodo, hwants, -⟩ := h.pending key hpending
  refine ⟨h.nodup, h.todo, fun k hk => ?_, h.unmade, h.wanted, fun m' hm' => ?_⟩
  · cases hk
  · obtain rfl : m = m' := Option.some.inj (hshared.symm.trans hm')
    obtain ⟨hget, hcount⟩ := h.made m hshared
    refine ⟨hget, fun k => ?_⟩
    rw [hlog k]
    by_cases hk : k = key
    · subst hk
      rw [if_pos rfl, List.count_append, hcount k, if_neg fun hall => hall.2.2 hpending,
        if_pos ⟨hwants, htodo, (Option.some_ne_none k).symm⟩, List.count_singleton_self]
    · rw [if_neg hk, hcount k]
      refine if_congr (and_congr_right fun _ => and_congr_right fun _ => ?_) rfl rfl
      rw [hpending]
      simp [Ne.symm hk]

/-- A call pushes to the session it has asked. -/
theorem State.Inv.push (h : s.Inv) {c : ℕ} (hs : s.push c = some s') : s'.Inv := by
  obtain ⟨call, m, key, q, hc, hshared, hpending, hq, rfl⟩ := h.push_cases hs
  have hold := h.call c call hc
  have hsession := h.session key _ hq
  have hinv := hsession.live q rfl (.inl rfl)
  obtain ⟨hget, -⟩ := hold.made m hshared
  -- the queue of the subscriber, and nothing else, has one message more
  have hlog : ∀ k, State.log { s with
      calls := s.calls.modify c fun call => { call with pending := none }
      sessions := s.sessions.modify key fun session =>
        { session with queue := some (q.pushShared m call.text) } } k =
      if k = key then s.log key ++ [some m] else s.log k := by
    intro k
    rw [log_modify (f := fun session =>
      { session with queue := some (q.pushShared m call.text) }) hq rfl]
    split
    · rw [State.log, hq]
      rfl
    · rfl
  have hother : ∀ {c' call'}, c' ≠ c → CallOk s.log s.heap.made c' call' →
      CallOk (State.log { s with
        calls := s.calls.modify c fun call => { call with pending := none }
        sessions := s.sessions.modify key fun session =>
          { session with queue := some (q.pushShared m call.text) } }) s.heap.made c' call' := by
    intro c' call' hne hok
    refine hok.mono (List.prefix_refl _) fun m' t ht htc k => ?_
    have hm : some m ≠ some m' := by
      intro heq
      obtain rfl := Option.some.inj heq
      obtain rfl := Option.some.inj (hget.symm.trans ht)
      exact hne htc.symm
    rw [hlog k]
    split
    · rename_i hk
      rw [hk, List.count_append, List.count_singleton, if_neg (by simpa using hm), Nat.add_zero]
    · rfl
  have hcall : ∀ c' call', (s.calls.modify c fun call => { call with pending := none }).get? c' =
      some call' → c' < s.callId ∧ s.ht = some call'.table ∧ CallOk (State.log { s with
        calls := s.calls.modify c fun call => { call with pending := none }
        sessions := s.sessions.modify key fun session =>
          { session with queue := some (q.pushShared m call.text) } }) s.heap.made c' call' := by
    intro c' call' hc'
    rw [Ledger.get?_modify] at hc'
    split at hc'
    · rename_i heq
      subst heq
      rw [hc] at hc'
      obtain rfl := Option.some.inj hc'
      exact ⟨h.callLt c' call hc, h.callTable c' call hc, hold.pushed hpending hshared hlog⟩
    · rename_i hne
      exact ⟨h.callLt c' call' hc', h.callTable c' call' hc', hother hne (h.call c' call' hc')⟩
  refine ⟨fun k session hk => ?_, fun k session hk => ?_, h.table.mono fun k hk => ?_,
    fun c' call' hc' => (hcall c' call' hc').1, fun c' call' hc' => (hcall c' call' hc').2.1,
    fun c' call' hc' => (hcall c' call' hc').2.2, fun r hr => ?_, h.counts.congr fun m' => ?_,
    h.noFault⟩
  · rw [Ledger.get?_modify] at hk
    split at hk
    · rename_i hkk
      rw [hkk]
      exact h.sessionLt key _ hq
    · exact h.sessionLt k session hk
  · rw [Ledger.get?_modify, hq] at hk
    split at hk
    · obtain rfl := Option.some.inj hk
      refine ⟨fun q' hq' _ => ?_, fun _ _ hphase => absurd (.inl rfl) hphase, fun q' hq' => ?_⟩
      · obtain rfl := Option.some.inj hq'
        exact hinv.push .shared call.text
      · obtain rfl := Option.some.inj hq'
        refine List.rel_append (hsession.log q rfl) (.cons (fun m' hm' => ?_) .nil)
        obtain rfl : m = m' := Option.some.inj hm'
        rw [hget]
        rfl
    · exact h.session k session hk
  · exact serves_modify (f := fun session =>
      { session with queue := some (q.pushShared m call.text) }) hq rfl (fun _ _ => ⟨rfl, rfl⟩) hk
  · obtain ⟨hlt, hnone, hok, hdone⟩ := h.returned r hr
    refine ⟨hlt, Ledger.get?_modify_eq_none.mpr hnone, hother ?_ hok, hdone⟩
    intro heq
    rw [heq, hc] at hnone
    cases hnone
  · -- the reference has gone from the call to the queue
    have hcalls := Ledger.tally_modify (fun call : Call => call.refs m') hc
      fun call => { call with pending := none }
    have hsessions := Ledger.tally_modify (fun session : Session => session.refs m') hq
      fun session => { session with queue := some (q.pushShared m call.text) }
    simp only [Session.refs, Option.elim_some, LogQueue.held_pushShared hinv, List.count_append]
      at hsessions
    simp only [Call.refs, hshared, hpending, if_true] at hcalls
    simp only [State.refs, Session.refs, Call.refs]
    by_cases hm : m = m'
    · subst hm
      simp at hcalls hsessions
      omega
    · simp [hm] at hcalls hsessions
      omega

/-- A call returns and gives its own reference back. -/
theorem State.Inv.ret (h : s.Inv) {c : ℕ} (hs : s.ret c = some s') : s'.Inv := by
  rw [State.ret] at hs
  split at hs
  · rename_i lvl tid text shared table hc
    obtain rfl := Option.some.inj hs
    have hold := h.call c _ hc
    have hmade : ((shared.map s.heap.release).getD s.heap).made = s.heap.made := by
      cases shared with
      | none => rfl
      | some m => exact RcHeap.made_release
    have hcall : ∀ c' call', (s.calls.drop fun c' => decide (c' = c)).get? c' = some call' →
        c' ≠ c ∧ s.calls.get? c' = some call' := by
      intro c' call' hc'
      rw [Ledger.get?_drop] at hc'
      split at hc'
      · cases hc'
      · rename_i hne
        exact ⟨by simpa using hne, hc'⟩
    refine ⟨h.sessionLt, fun k session hk => ?_, h.table,
      fun c' call' hc' => h.callLt c' call' (hcall c' call' hc').2,
      fun c' call' hc' => h.callTable c' call' (hcall c' call' hc').2, fun c' call' hc' => ?_,
      fun r hr => ?_, ?_, h.noFault⟩
    · rw [hmade]
      exact h.session k session hk
    · rw [hmade]
      exact h.call c' call' (hcall c' call' hc').2
    · rw [hmade]
      rcases List.mem_cons.mp hr with rfl | hr
      · refine ⟨h.callLt c _ hc, ?_, hold, rfl, rfl⟩
        rw [Ledger.get?_drop, if_pos (by simp)]
      · obtain ⟨hlt, hnone, hok⟩ := h.returned r hr
        refine ⟨hlt, ?_, hok⟩
        rw [Ledger.get?_drop, hnone]
        split <;> rfl
    · have htally := fun m => Ledger.tally_drop (fun call : Call => call.refs m) hc
      simp only [Call.refs, if_true] at htally
      cases shared with
      | none =>
        refine h.counts.congr fun m => ?_
        have hm := htally m
        rw [if_neg (Option.some_ne_none m).symm, Nat.add_zero] at hm
        simp only [State.refs, Call.refs]
        rw [hm]
      | some m =>
        refine h.counts.release (a := m) ?_ fun m' hm' => ?_
        · have hm := htally m
          rw [if_pos rfl] at hm
          simp only [State.refs, Call.refs]
          omega
        · have hm := htally m'
          rw [if_neg fun heq => hm' (Option.some.inj heq).symm, Nat.add_zero] at hm
          simp only [State.refs, Call.refs]
          rw [hm]
  · cases hs

/-! ## Runs -/

/-- A text has references while an entry of a queue or a call has it. -/
theorem refs_pos_iff (m : ℕ) : 0 < s.refs m ↔
    (∃ k session q, s.sessions.get? k = some session ∧ session.queue = some q ∧ m ∈ q.held) ∨
      ∃ c call, s.calls.get? c = some call ∧ call.shared = some m := by
  constructor
  · intro hpos
    by_contra hno
    rw [not_or] at hno
    have hsessions : (s.sessions.tally fun session => session.refs m) = 0 := by
      refine Ledger.tally_eq_zero _ fun k session hk => List.count_eq_zero.mpr fun hmem => ?_
      cases hq : session.queue with
      | none =>
        rw [hq] at hmem
        cases hmem
      | some q =>
        rw [hq] at hmem
        exact hno.1 ⟨k, session, q, hk, hq, hmem⟩
    have hcalls : (s.calls.tally fun call => call.refs m) = 0 :=
      Ledger.tally_eq_zero _ fun c call hc => if_neg fun heq => hno.2 ⟨c, call, hc, heq⟩
    rw [State.refs, hsessions, hcalls] at hpos
    exact Nat.lt_irrefl 0 hpos
  · rintro (⟨k, session, q, hk, hq, hmem⟩ | ⟨c, call, hc, hm⟩)
    · have hle := Ledger.le_tally (fun session : Session => session.refs m) hk
      have hcount := List.count_pos_iff.mpr hmem
      simp only [Session.refs, hq, Option.elim_some] at hle
      rw [State.refs]
      exact Nat.add_pos_left (Nat.lt_of_lt_of_le hcount hle) _
    · have hle := Ledger.le_tally (fun call : Call => call.refs m) hc
      have hpos : 0 < call.refs m := by
        rw [Call.refs, if_pos hm]
        split <;> decide
      rw [State.refs]
      exact Nat.add_pos_right _ (Nat.lt_of_lt_of_le hpos hle)

section

variable [Glib]

/-- **One step of any thread keeps the invariant.** -/
theorem State.Inv.step (h : s.Inv) {a : Act} (hs : s.step a = some s') : s'.Inv := by
  cases a with
  | connect http =>
    rw [State.step] at hs
    split at hs
    · obtain rfl := Option.some.inj hs
      exact h.connect http
    · cases hs
  | log logMask thread lvl msg order =>
    rw [State.step] at hs
    split at hs
    · obtain rfl := Option.some.inj hs
      exact h
    · split at hs
      · obtain rfl := Option.some.inj hs
        exact h
      · rename_i ht hht
        split at hs
        · obtain rfl := Option.some.inj hs
          exact h
        · split at hs
          · rename_i horder
            obtain rfl := Option.some.inj hs
            exact h.log_call hht horder
          · cases hs
  | ask c => exact h.ask hs
  | push c => exact h.push hs
  | ret c => exact h.ret hs
  | answer tid type text =>
    rw [State.step] at hs
    split at hs
    · rename_i q hq
      split at hs
      · cases hs
      · obtain rfl := Option.some.inj hs
        exact h.answer hq type text
    · cases hs
  | pop tid c =>
    cases c with
    | push type text => cases hs
    | peek => exact h.popQueue (fun _ _ hc => by cases hc) hs
    | send n => exact h.popQueue (fun _ _ hc => by cases hc) hs
    | record => exact h.popQueue (fun _ _ hc => by cases hc) hs
  | method tid m tag =>
    rw [State.step] at hs
    split at hs
    · rename_i queue hq
      split at hs
      · rename_i hcalls
        obtain ⟨ht, hm, rfl⟩ := Option.map_eq_some_iff.mp hs
        exact h.method hq hcalls hm
      · cases hs
    · cases hs
  | leave tid =>
    rw [State.step] at hs
    split at hs
    · rename_i q hq
      split at hs
      · rename_i hcalls
        obtain rfl := Option.some.inj hs
        exact h.leave hq hcalls.1
      · cases hs
    · cases hs
  | free tid =>
    rw [State.step] at hs
    split at hs
    · rename_i q hq
      obtain rfl := Option.some.inj hs
      exact h.free hq
    · cases hs
  | quit tid =>
    rw [State.step] at hs
    split at hs
    · rename_i hq
      obtain rfl := Option.some.inj hs
      exact h.quit hq (.inl rfl)
    · rename_i q hq
      obtain rfl := Option.some.inj hs
      exact h.quit hq (.inr rfl)
    · cases hs

/-- **So does a run.** -/
theorem State.Inv.reaches (h : s.Inv) (hs : Reaches s s') : s'.Inv := by
  induction hs with
  | refl => exact h
  | tail _ hstep ih =>
    obtain ⟨a, ha⟩ := hstep
    exact ih.step ha

/-- The call can go on. -/
theorem State.Inv.call_step (h : s.Inv) {c : ℕ} {call : Call} (hc : s.calls.get? c = some call) :
    ∃ a ∈ [Act.ask c, .push c, .ret c], ∃ s', s.step a = some s' := by
  have hold := h.call c call hc
  have hht := h.callTable c call hc
  obtain ⟨lvl, tid, text, shared, pending, todo, table⟩ := call
  cases pending with
  | none =>
    cases todo with
    | nil =>
      refine ⟨.ret c, by simp, ?_⟩
      rw [State.step, State.ret, hc]
      exact ⟨_, rfl⟩
    | cons key todo =>
      refine ⟨.ask c, by simp, ?_⟩
      obtain ⟨tld, htld⟩ := Option.ne_none_iff_exists'.mp (hold.todo key List.mem_cons_self)
      rw [State.step, State.ask, hc]
      simp only [hht, Option.getD_some] at htld ⊢
      rw [htld]
      simp only
      split <;> exact ⟨_, rfl⟩
  | some key =>
    refine ⟨.push c, by simp, ?_⟩
    obtain ⟨-, hwants, hmade⟩ := hold.pending key rfl
    obtain ⟨m, rfl⟩ := Option.ne_none_iff_exists'.mp hmade
    obtain ⟨tld, htld⟩ := Call.get?_of_wants hwants
    obtain ⟨q, hq⟩ := (h.table table hht key tld htld).session
    rw [State.step, State.push, hc]
    simp only [hq]
    exact ⟨_, rfl⟩

/-- **Memory of logs.** In every state that threads reach, whatever they do and in whatever order:
no text and no queue has been used after it was freed; a text is there exactly as long as an entry
of a queue or a call has it; subscribers are sessions that serve their clients and have a queue, and
have some level; and a call of `mbb_log_push_all` never has to wait. -/
theorem logs_safe (h : Reaches .start s) :
    (s.heap.fault = false ∧ s.fault = false) ∧
      (∀ m, (s.heap.mem m).isSome ↔
        (∃ k session q, s.sessions.get? k = some session ∧ session.queue = some q ∧ m ∈ q.held) ∨
          ∃ c call, s.calls.get? c = some call ∧ call.shared = some m) ∧
      (∀ ht ∈ s.ht, ∀ k tld, ht.get? k = some tld → TldOk s.Serves k tld) ∧
      ∀ c call, s.calls.get? c = some call →
        ∃ a ∈ [Act.ask c, .push c, .ret c], ∃ s', s.step a = some s' := by
  have hinv := inv_start.reaches h
  refine ⟨⟨hinv.counts.noFault, hinv.noFault⟩, fun m => ?_, hinv.table,
    fun c call hc => hinv.call_step hc⟩
  rw [hinv.counts.live m, refs_pos_iff]

omit [Glib] in
/-- One session is subscribed, and another one logs. -/
theorem logs_safe_run :
    letI := Glib.plain
    ∃ s, Reaches .start s ∧ (s.heap.mem 0).isSome ∧ s.heap.fault = false := by
  let _ := Glib.plain
  have h : Reaches .start _ := .head ⟨.connect false, rfl⟩ <| .head ⟨.connect false, rfl⟩ <|
    .head ⟨.method 2 .on (xmlTagNew (literal "request") none), rfl⟩ <|
    .head ⟨.log 0 (.session 1 none (literal "peer")) mbbLogMsg (literal "hello") [2], rfl⟩ <|
    .head ⟨.ask 0, rfl⟩ <| .single ⟨.push 0, rfl⟩
  exact ⟨_, h, rfl, (logs_safe h).1.1⟩

/-- **Delivery of logs.** Of a call that has returned, each subscriber that wants the message, by
the table as it was all the time, has had it pushed to its queue once, and nobody else; a text has
been made if and only if somebody wants it, and what is pushed is the text of the call. A session
has been sent a prefix of what was pushed to it. -/
theorem logs_delivered (h : Reaches .start s) :
    (∀ c call, (c, call) ∈ s.returned →
      (call.shared = none ↔ ∀ k, call.wants k = false) ∧
      ∀ m ∈ call.shared, (s.heap.made[m]?).map Text.text = some call.text ∧
        ∀ k, (s.log k).count (some m) = if call.wants k then 1 else 0) ∧
      ∀ k session q, s.sessions.get? k = some session → session.queue = some q →
        List.Forall₂ (fun o text => ∀ m ∈ o, (s.heap.made[m]?).map Text.text = some text)
          (s.log k) q.queue.pushed ∧
        (session.phase = .running → ∃ rest, q.queue.accepted ++ rest = q.queue.pushed.flatten) := by
  have hinv := inv_start.reaches h
  constructor
  · intro c call hr
    obtain ⟨-, -, hok, htodo, hpending⟩ := hinv.returned _ hr
    have hnobody : ∀ k, k ∉ call.todo := fun k => by
      rw [htodo]
      exact List.not_mem_nil
    refine ⟨⟨fun hnone k => hok.unmade hnone k (hnobody k), fun hall => ?_⟩, fun m hm => ?_⟩
    · by_contra hmade
      obtain ⟨k, hk⟩ := hok.wanted hmade
      exact Bool.false_ne_true ((hall k).symm.trans hk)
    obtain ⟨hmade, hcount⟩ := hok.made m hm
    refine ⟨by rw [hmade]; rfl, fun k => ?_⟩
    rw [hcount k]
    refine if_congr ?_ rfl rfl
    rw [htodo, hpending]
    simp
  · intro k session q hk hq
    have hsession := hinv.session k session hk
    refine ⟨?_, fun hphase => ?_⟩
    · rw [State.log, hk, Option.bind_some, hq]
      exact hsession.log q hq
    · obtain ⟨rest, hrest, -⟩ := (hsession.live q hq (.inl hphase)).bytes
      exact ⟨rest, hrest⟩

omit [Glib] in
/-- The same, until the call has returned; the session that logs does not get the message. -/
theorem logs_delivered_run :
    letI := Glib.plain
    ∃ s c call, Reaches .start s ∧ (c, call) ∈ s.returned ∧ call.shared = some 0 ∧
      call.wants 2 = true ∧ (s.log 2).count (some 0) = 1 ∧ (s.log 1).count (some 0) = 0 := by
  let _ := Glib.plain
  have h : Reaches .start _ := .head ⟨.connect false, rfl⟩ <| .head ⟨.connect false, rfl⟩ <|
    .head ⟨.method 2 .on (xmlTagNew (literal "request") none), rfl⟩ <|
    .head ⟨.log 0 (.session 1 none (literal "peer")) mbbLogMsg (literal "hello") [2], rfl⟩ <|
    .head ⟨.ask 0, rfl⟩ <| .head ⟨.push 0, rfl⟩ <| .single ⟨.ret 0, rfl⟩
  have hcount := ((logs_delivered h).1 _ _ List.mem_cons_self).2 0 rfl
  have hwants : ∀ b : Bool, (if b = true then 1 else 0) = b.toNat := by decide
  refine ⟨_, _, _, h, List.mem_cons_self, rfl, ?_, ?_, ?_⟩
  · decide +kernel
  · rw [hcount.2 2, hwants]
    decide +kernel
  · rw [hcount.2 1, hwants]
    decide +kernel

end

end Log

end Mbb
