import Mathlib.Data.List.Nodup
import Mathlib.Logic.Function.Basic
import Mathlib.Logic.Relation
import Mathlib.Tactic.Common

/-!
# Message queues (`mbbd/mbbmsgqueue.c`)

Any thread may push a message, and one thread sends them. `mbb_msg_queue_pop` looks at the
head of the queue with the lock held, sends what is left of it without the lock, and then
moves the offset of the message, or takes the lock again and pops the message. Pushes may
come in between: these are the steps here.

What has been pushed and what has been accepted is noted beside the queue. From the send to
the end of `mbb_msg_queue_pop` the queue still holds the bytes that have just been accepted.
-/

namespace Mbb

/-- The type of a message: who owns its text. -/
inductive MsgType : Type where
  /-- `MSG_CONST` -/
  | const
  /-- `MSG_ALLOC` -/
  | alloc
  /-- `MSG_SHARED` -/
  | shared
  deriving DecidableEq

/-- `struct msg_entry`; `len` is the length of the text. -/
structure MsgEntry : Type where
  /-- type -/
  type : MsgType
  /-- text -/
  text : List UInt8
  /-- offset of what has not been sent -/
  off : ℕ

/-- Where the consumer is in `mbb_msg_queue_pop`. -/
inductive PopState : Type where
  /-- not in it -/
  | idle
  /-- `entry` is the head of the queue -/
  | peeked (entry : ℕ)
  /-- `func` has been called for `len` bytes and has given `n` -/
  | sent (entry len : ℕ) (n : Int)
  deriving DecidableEq

/-- `struct mbb_msg_queue` with its entries by address, the consumer, and what has been pushed
and accepted. -/
structure MsgQueue : Type where
  /-- entries -/
  mem : ℕ → Option MsgEntry
  /-- the next address -/
  fresh : ℕ
  /-- `queue`, none for `NULL` -/
  queue : Option (List ℕ)
  /-- the consumer -/
  pop : PopState
  /-- messages, in the order in which they were pushed -/
  pushed : List (List UInt8)
  /-- bytes that `func` has accepted -/
  accepted : List UInt8

namespace MsgQueue

/-- `mbb_msg_queue_new` -/
def new : MsgQueue := ⟨fun _ => none, 0, none, .idle, [], []⟩

variable (q : MsgQueue)

/-- `queue`, as a list -/
def entries : List ℕ := q.queue.getD []

/-- `mbb_msg_queue_push_entry` -/
def pushEntry (entry : MsgEntry) : MsgQueue :=
  { q with
    mem := Function.update q.mem q.fresh (some { entry with off := 0 })
    fresh := q.fresh + 1
    queue := some (q.entries ++ [q.fresh])
    pushed := q.pushed ++ [entry.text] }

/-- `mbb_msg_queue_push_shared`, `mbb_msg_queue_push_alloc`, `mbb_msg_queue_push_const` -/
def push (type : MsgType) (text : List UInt8) : MsgQueue := q.pushEntry ⟨type, text, 0⟩

/-- The first part of `mbb_msg_queue_pop`. -/
def peek : MsgQueue :=
  match q.entries.head? with
  | none => q
  | some entry => { q with pop := .peeked entry }

/-- The call of `func`, which gives `n`. -/
def send (entry : ℕ) (n : Int) : Option MsgQueue :=
  match q.mem entry with
  | none => none
  | some e =>
    let text := e.text.drop e.off
    let len := e.text.length - e.off
    if n ≤ len then
      some { q with pop := .sent entry len n, accepted := q.accepted ++ text.take n.toNat }
    else none

/-- The rest of `mbb_msg_queue_pop`. -/
def record (entry len : ℕ) (n : Int) : MsgQueue :=
  if 0 < n then
    if n < len then
      { q with
        mem := Function.update q.mem entry
          ((q.mem entry).map fun e => { e with off := e.off + n.toNat })
        pop := .idle }
    else
      -- `g_queue_pop_head`, `msg_entry_free`
      { q with
        mem := Function.update q.mem entry none
        queue := some q.entries.tail
        pop := .idle }
  else { q with pop := .idle }

end MsgQueue

/-- Steps of producers and of the consumer. -/
inductive MsgStep : Type where
  /-- a producer pushes a message -/
  | push (type : MsgType) (text : List UInt8)
  /-- the consumer looks at the head -/
  | peek
  /-- the consumer sends: `func` gives an error, 0, or a count -/
  | send (n : Int)
  /-- the consumer moves the offset, or pops -/
  | record

namespace MsgQueue

/-- One step, where it can be made. -/
def step (q : MsgQueue) : MsgStep → Option MsgQueue
  | .push type text => some (q.push type text)
  | .peek =>
    match q.pop with
    | .idle => some q.peek
    | _ => none
  | .send n =>
    match q.pop with
    | .peeked entry => q.send entry n
    | _ => none
  | .record =>
    match q.pop with
    | .sent entry len n => some (q.record entry len n)
    | _ => none

/-- The states of the runs from `q`. -/
def Reaches (q q' : MsgQueue) : Prop :=
  Relation.ReflTransGen (fun q q' => ∃ c, step q c = some q') q q'

/-- The messages in the queue. -/
def view (q : MsgQueue) : List MsgEntry := q.entries.filterMap q.mem

/-- The bytes of messages, from the offset of the first on. -/
def bytesFrom : List MsgEntry → List UInt8
  | [] => []
  | e :: es => e.text.drop e.off ++ (es.map MsgEntry.text).flatten

/-- What is queued from the offset of the head on. -/
def queued (q : MsgQueue) : List UInt8 := bytesFrom q.view

/-- What the last send has accepted, until it is recorded. -/
def unrecorded (q : MsgQueue) : List UInt8 :=
  match q.pop with
  | .sent entry _ n => ((q.mem entry).elim [] fun e => e.text.drop e.off).take n.toNat
  | _ => []

/-- What has been accepted is a prefix of what has been pushed, and the rest is queued. -/
def Delivered (q : MsgQueue) : Prop := q.accepted ++ q.queued = q.pushed.flatten

/-! ## Delivery -/

variable {q q' : MsgQueue}

theorem bytesFrom_append (es : List MsgEntry) (type : MsgType) (text : List UInt8) :
    bytesFrom (es ++ [⟨type, text, 0⟩]) = bytesFrom es ++ text := by
  cases es with
  | nil => simp [bytesFrom]
  | cons e es => simp [bytesFrom]

/-- Messages of which nothing has been sent. -/
theorem bytesFrom_unsent {es : List MsgEntry} (h : ∀ e ∈ es, e.off = 0) :
    bytesFrom es = (es.map MsgEntry.text).flatten := by
  cases es with
  | nil => rfl
  | cons e es => rw [bytesFrom, h e List.mem_cons_self, List.drop_zero, List.map_cons,
      List.flatten_cons]

/-- What holds in every state. -/
structure Inv (q : MsgQueue) : Prop where
  /-- no entry is queued twice -/
  nodup : q.entries.Nodup
  /-- queued entries have not been freed -/
  found : ∀ e ∈ q.entries, q.mem e ≠ none
  /-- addresses have been given out -/
  lt : ∀ e ∈ q.entries, e < q.fresh
  /-- of messages behind the head nothing has been sent -/
  unsent : ∀ e ∈ q.entries.tail, ∀ m, q.mem e = some m → m.off = 0
  /-- the consumer works at the head -/
  head : ∀ e, q.pop = .peeked e → q.entries.head? = some e
  /-- so it does after a send -/
  sent : ∀ e len n, q.pop = .sent e len n → q.entries.head? = some e ∧
    ∃ m, q.mem e = some m ∧ len = m.text.length - m.off ∧ n ≤ len
  /-- every byte is accepted or queued -/
  bytes : ∃ rest, q.accepted ++ rest = q.pushed.flatten ∧ q.queued = q.unrecorded ++ rest

theorem inv_new : new.Inv where
  nodup := List.nodup_nil
  found e he := by cases he
  lt e he := by cases he
  unsent e he := by cases he
  head e he := by cases he
  sent e len n he := by cases he
  bytes := ⟨[], rfl, rfl⟩

theorem view_cons {e : ℕ} {es : List ℕ} {m : MsgEntry} (hq : q.entries = e :: es)
    (hm : q.mem e = some m) : q.view = m :: es.filterMap q.mem := by
  rw [view, hq, List.filterMap_cons, hm]

/-- A push does not touch the entries that are there. -/
theorem mem_push {e : ℕ} (he : e < q.fresh) (type : MsgType) (text : List UInt8) :
    (q.push type text).mem e = q.mem e :=
  Function.update_of_ne (by omega) ..

theorem mem_push_fresh (type : MsgType) (text : List UInt8) :
    (q.push type text).mem q.fresh = some ⟨type, text, 0⟩ :=
  Function.update_self ..

theorem entries_push (type : MsgType) (text : List UInt8) :
    (q.push type text).entries = q.entries ++ [q.fresh] := rfl

theorem head?_push {e : ℕ} (he : q.entries.head? = some e) (type : MsgType) (text : List UInt8) :
    (q.push type text).entries.head? = some e := by
  rw [entries_push, List.head?_append, he, Option.some_or]

theorem Inv.mem_push_head (h : q.Inv) {e : ℕ} (he : q.entries.head? = some e) (type : MsgType)
    (text : List UInt8) : (q.push type text).mem e = q.mem e :=
  mem_push (h.lt e (List.mem_of_mem_head? he)) ..

theorem Inv.view_push (h : q.Inv) (type : MsgType) (text : List UInt8) :
    (q.push type text).view = q.view ++ [⟨type, text, 0⟩] := by
  rw [view, entries_push, List.filterMap_append, view]
  congr 1
  · exact List.filterMap_congr fun e he => mem_push (h.lt e he) ..
  · rw [List.filterMap_cons, mem_push_fresh, List.filterMap_nil]

theorem Inv.unrecorded_push (h : q.Inv) (type : MsgType) (text : List UInt8) :
    (q.push type text).unrecorded = q.unrecorded := by
  rw [unrecorded, unrecorded]
  change (match q.pop with | .sent entry _ n => _ | _ => _) = _
  cases hpop : q.pop with
  | sent e len n =>
    simp only
    rw [h.mem_push_head (h.sent e len n hpop).1]
  | _ => rfl

theorem Inv.nodup_push (h : q.Inv) (type : MsgType) (text : List UInt8) :
    (q.push type text).entries.Nodup := by
  refine List.nodup_append.mpr ⟨h.nodup, List.nodup_singleton _, fun a ha b hb => ?_⟩
  have := h.lt a ha
  rw [List.mem_singleton.mp hb]
  omega

theorem Inv.unsent_push (h : q.Inv) {type : MsgType} {text : List UInt8} {e : ℕ}
    (he : e ∈ (q.push type text).entries.tail) {m : MsgEntry}
    (hm : (q.push type text).mem e = some m) : m.off = 0 := by
  rw [entries_push] at he
  cases hl : q.entries with
  | nil => rw [hl] at he; cases he
  | cons a l =>
    rw [hl, List.cons_append, List.tail_cons] at he
    rcases List.mem_append.mp he with he | he
    · have hq : e ∈ q.entries := by rw [hl]; exact List.mem_cons_of_mem a he
      rw [mem_push (h.lt e hq)] at hm
      exact h.unsent e (by rwa [hl]) m hm
    · rw [List.mem_singleton.mp he, mem_push_fresh] at hm
      rw [← Option.some.inj hm]

theorem Inv.push (h : q.Inv) (type : MsgType) (text : List UInt8) : (q.push type text).Inv := by
  have hlt : ∀ e ∈ (q.push type text).entries, e ∈ q.entries ∨ e = q.fresh := by
    intro e he
    rwa [entries_push, List.mem_append, List.mem_singleton] at he
  refine ⟨h.nodup_push type text, fun e he => ?_, fun e he => ?_, fun e he m hm => ?_,
    fun e he => head?_push (h.head e he) .., fun e len n he => ?_, ?_⟩
  · rcases hlt e he with he | rfl
    · rw [mem_push (h.lt e he)]
      exact h.found e he
    · rw [mem_push_fresh]
      exact Option.some_ne_none _
  · change e < q.fresh + 1
    rcases hlt e he with he | rfl
    · have := h.lt e he
      omega
    · omega
  · exact h.unsent_push he hm
  · obtain ⟨he, m, hm, hlen⟩ := h.sent e len n he
    exact ⟨head?_push he .., m, (h.mem_push_head he ..).trans hm, hlen⟩
  · obtain ⟨rest, hrest, hqueued⟩ := h.bytes
    refine ⟨rest ++ text, ?_, ?_⟩
    · change q.accepted ++ (rest ++ text) = (q.pushed ++ [text]).flatten
      rw [← List.append_assoc, hrest, List.flatten_concat]
    · rw [queued, h.view_push, bytesFrom_append, h.unrecorded_push, ← List.append_assoc,
        ← hqueued, queued]

theorem Inv.peek (h : q.Inv) (hidle : q.pop = .idle) : q.peek.Inv := by
  rw [MsgQueue.peek]
  cases hhead : q.entries.head? with
  | none => exact h
  | some e =>
    refine ⟨h.nodup, h.found, h.lt, h.unsent, fun e' he' => ?_, fun e' len n he' => ?_, ?_⟩
    · cases he'
      exact hhead
    · cases he'
    · obtain ⟨rest, hrest, hqueued⟩ := h.bytes
      rw [unrecorded, hidle] at hqueued
      exact ⟨rest, hrest, hqueued⟩

/-- The send can be made, whatever `func` gives, and accepts bytes that are queued. -/
theorem Inv.send (h : q.Inv) {e : ℕ} (hpop : q.pop = .peeked e) :
    ∃ m, q.mem e = some m ∧ ∀ n : Int, n ≤ (m.text.length - m.off : ℕ) →
      ∃ q', q.send e n = some q' ∧ q'.Inv := by
  have hhead := h.head e hpop
  obtain ⟨m, hm⟩ := Option.ne_none_iff_exists'.mp (h.found e (List.mem_of_mem_head? hhead))
  refine ⟨m, hm, fun n hn => ?_⟩
  rw [MsgQueue.send, hm]
  simp only [if_pos hn]
  refine ⟨_, rfl, h.nodup, h.found, h.lt, h.unsent, fun e' he' => ?_, fun e' len n' he' => ?_, ?_⟩
  · cases he'
  · cases he'
    exact ⟨hhead, m, hm, rfl, hn⟩
  · obtain ⟨rest, hrest, hqueued⟩ := h.bytes
    obtain ⟨es, hes⟩ : ∃ es, q.entries = e :: es := List.head?_eq_some_iff.mp hhead
    have hrest' : rest = m.text.drop m.off ++ ((es.filterMap q.mem).map MsgEntry.text).flatten := by
      rw [queued, view_cons hes hm, bytesFrom, unrecorded, hpop] at hqueued
      exact hqueued.symm
    -- the bytes accepted move from the rest to the front
    refine ⟨(m.text.drop m.off).drop n.toNat ++ ((es.filterMap q.mem).map MsgEntry.text).flatten,
      ?_, ?_⟩
    · change (q.accepted ++ (m.text.drop m.off).take n.toNat) ++ _ = q.pushed.flatten
      rw [← hrest, hrest', List.append_assoc, ← List.append_assoc (List.take _ _),
        List.take_append_drop]
    · change q.queued = (((q.mem e).elim [] fun e => e.text.drop e.off).take n.toNat) ++ _
      rw [queued, view_cons hes hm, bytesFrom, hm, Option.elim_some, ← List.append_assoc,
        List.take_append_drop]

/-- Other entries than the one that is written. -/
theorem filterMap_update {e : ℕ} {es : List ℕ} (he : e ∉ es) (m : Option MsgEntry) :
    es.filterMap (Function.update q.mem e m) = es.filterMap q.mem := by
  refine List.filterMap_congr fun e' he' => Function.update_of_ne ?_ ..
  rintro rfl
  exact he he'

/-- The consumer is done: the entry at the head has been written, the queue is as it was or
without its head, and the rest of the bytes is queued. -/
theorem Inv.recorded (h : q.Inv) {e : ℕ} {es : List ℕ} {m : Option MsgEntry}
    {queue : Option (List ℕ)} (hes : q.entries = e :: es)
    (hqueue : queue.getD [] = e :: es ∧ m ≠ none ∨ queue.getD [] = es)
    {rest : List UInt8} (hrest : q.accepted ++ rest = q.pushed.flatten)
    (hbytes : bytesFrom ((queue.getD []).filterMap (Function.update q.mem e m)) = rest) :
    Inv { q with mem := Function.update q.mem e m, queue, pop := .idle } := by
  have hnodup := List.nodup_cons.mp (hes ▸ h.nodup)
  have hne : ∀ {e'}, e' ∈ es → e' ≠ e := fun he' heq => hnodup.1 (heq ▸ he')
  have hmem : ∀ {e'}, e' ∈ es → Function.update q.mem e m e' = q.mem e' := fun he' =>
    Function.update_of_ne (hne he') ..
  have hsub : ∀ e' ∈ queue.getD [], e' ∈ q.entries := by
    intro e' he'
    rw [hes]
    rcases hqueue with ⟨hq, -⟩ | hq
    · exact hq ▸ he'
    · exact List.mem_cons_of_mem _ (hq ▸ he')
  refine ⟨?_, fun e' he' => ?_, fun e' he' => h.lt e' (hsub e' he'), fun e' he' m' hm' => ?_,
    fun e' he' => ?_, fun e' len n he' => ?_, rest, hrest, hbytes⟩
  · rcases hqueue with ⟨hq, -⟩ | hq
    · change (queue.getD []).Nodup
      rw [hq, ← hes]
      exact h.nodup
    · change (queue.getD []).Nodup
      rw [hq]
      exact hnodup.2
  · change Function.update q.mem e m e' ≠ none
    by_cases heq : e' = e
    · subst heq
      rw [Function.update_self]
      rcases hqueue with ⟨-, hm⟩ | hq
      · exact hm
      · exact absurd (hq ▸ he' : e' ∈ es) hnodup.1
    · rw [Function.update_of_ne heq]
      exact h.found e' (hsub e' he')
  · have he'' : e' ∈ es := by
      change e' ∈ (queue.getD []).tail at he'
      rcases hqueue with ⟨hq, -⟩ | hq
      · rw [hq] at he'
        exact he'
      · rw [hq] at he'
        exact List.mem_of_mem_tail he'
    refine h.unsent e' (by rw [hes]; exact he'') m' ?_
    rw [← hmem he'']
    exact hm'
  · cases he'
  · cases he'

theorem Inv.record (h : q.Inv) {e len : ℕ} {n : Int} (hpop : q.pop = .sent e len n) :
    (q.record e len n).Inv := by
  obtain ⟨hhead, m, hm, hlen, hn⟩ := h.sent e len n hpop
  obtain ⟨es, hes⟩ : ∃ es, q.entries = e :: es := List.head?_eq_some_iff.mp hhead
  obtain ⟨rest, hrest, hqueued⟩ := h.bytes
  have hnot : e ∉ es := (List.nodup_cons.mp (hes ▸ h.nodup)).1
  have hbytes : m.text.drop m.off ++ ((es.filterMap q.mem).map MsgEntry.text).flatten =
      (m.text.drop m.off).take n.toNat ++ rest := by
    rw [queued, view_cons hes hm, bytesFrom, unrecorded, hpop] at hqueued
    simpa only [hm, Option.elim_some] using hqueued
  rw [MsgQueue.record]
  split
  · rename_i hpos
    split
    · -- a short count: the offset of the head moves
      rw [hm, Option.map_some]
      refine h.recorded hes (Or.inl ⟨hes, Option.some_ne_none _⟩) hrest ?_
      change bytesFrom (q.entries.filterMap _) = rest
      rw [hes, List.filterMap_cons, Function.update_self, filterMap_update hnot]
      have hsplit := List.take_append_drop n.toNat (m.text.drop m.off)
      have hrest' : (m.text.drop m.off).drop n.toNat ++
          ((es.filterMap q.mem).map MsgEntry.text).flatten = rest := by
        apply (List.append_right_inj ((m.text.drop m.off).take n.toNat)).mp
        rw [← List.append_assoc, hsplit]
        exact hbytes
      rw [List.drop_drop] at hrest'
      exact hrest'
    · -- the head has gone out and is popped
      have hall : (m.text.drop m.off).take n.toNat = m.text.drop m.off := by
        apply List.take_of_length_le
        rw [List.length_drop]
        omega
      refine h.recorded hes (Or.inr ?_) hrest ?_
      · rw [Option.getD_some, hes, List.tail_cons]
      · rw [Option.getD_some, hes, List.tail_cons, filterMap_update hnot, bytesFrom_unsent]
        · rw [hall] at hbytes
          exact List.append_cancel_left hbytes
        · intro m' hm'
          obtain ⟨e', he', hm'⟩ := List.mem_filterMap.mp hm'
          exact h.unsent e' (by rw [hes]; exact he') m' hm'
  · refine ⟨h.nodup, h.found, h.lt, h.unsent, fun e' he' => ?_, fun e' len n he' => ?_, ?_⟩
    · cases he'
    · cases he'
    · refine ⟨rest, hrest, hqueued.trans ?_⟩
      have hzero : n.toNat = 0 := by omega
      rw [unrecorded, hpop]
      simp only [hzero, List.take_zero]
      rfl

theorem Inv.step (h : q.Inv) {c : MsgStep} (hc : q.step c = some q') : q'.Inv := by
  cases c with
  | push type text =>
    obtain rfl := Option.some.inj hc
    exact h.push type text
  | peek =>
    rw [MsgQueue.step] at hc
    split at hc
    · rename_i hpop
      obtain rfl := Option.some.inj hc
      exact h.peek hpop
    · cases hc
  | send n =>
    rw [MsgQueue.step] at hc
    split at hc
    · rename_i e hpop
      obtain ⟨m, hm, hsend⟩ := h.send hpop
      by_cases hn : n ≤ (m.text.length - m.off : ℕ)
      · obtain ⟨q'', hq'', hinv⟩ := hsend n hn
        obtain rfl := Option.some.inj (hc.symm.trans hq'')
        exact hinv
      · rw [MsgQueue.send, hm] at hc
        simp only [if_neg hn] at hc
        cases hc
    · cases hc
  | record =>
    rw [MsgQueue.step] at hc
    split at hc
    · rename_i e len n hpop
      obtain rfl := Option.some.inj hc
      exact h.record hpop
    · cases hc

theorem Inv.reaches (h : q.Inv) (hq : Reaches q q') : q'.Inv := by
  induction hq with
  | refl => exact h
  | tail _ hstep ih =>
    obtain ⟨c, hc⟩ := hstep
    exact ih.step hc

/-- What has been accepted is a prefix of what has been pushed. The rest is queued from the
offset of the head on, behind the bytes of a send that is not recorded yet; and the consumer
never meets an entry that has been freed. -/
theorem queue_delivery (h : Reaches new q) :
    (∃ rest, q.accepted ++ rest = q.pushed.flatten ∧ q.queued = q.unrecorded ++ rest) ∧
      ((∀ e len n, q.pop ≠ .sent e len n) → q.Delivered) ∧
      ∀ e, q.pop = .peeked e → q.mem e ≠ none := by
  have hinv := inv_new.reaches h
  obtain ⟨rest, hrest, hqueued⟩ := hinv.bytes
  refine ⟨⟨rest, hrest, hqueued⟩, fun hpop => ?_, fun e he => ?_⟩
  · have hun : q.unrecorded = [] := by
      rw [unrecorded]
      split
      · rename_i e len n heq
        exact absurd heq (hpop e len n)
      · rfl
    rw [Delivered, hqueued, hun]
    exact hrest
  · exact hinv.found e (List.mem_of_mem_head? (hinv.head e he))

theorem queue_delivery_short : ∃ q, Reaches new q ∧ q.accepted = [1] ∧ q.Delivered := by
  have h : Reaches new _ := .head ⟨.push .const [1, 2], rfl⟩ <| .head ⟨.peek, rfl⟩ <|
    .head ⟨.send 1, rfl⟩ <| .single ⟨.record, rfl⟩
  refine ⟨_, h, rfl, (queue_delivery h).2.1 fun e len n hpop => ?_⟩
  cases hpop

/-- The byte has been accepted, and the message has not been popped. -/
theorem not_delivered_before_pop : ∃ q, Reaches new q ∧ ¬ q.Delivered := by
  have h : Reaches new _ := .head ⟨.push .const [1], rfl⟩ <| .head ⟨.peek, rfl⟩ <|
    .single ⟨.send 1, rfl⟩
  refine ⟨_, h, ?_⟩
  change ¬ [1] ++ [1] = [1]
  decide

end MsgQueue

end Mbb
