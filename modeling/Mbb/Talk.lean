import Mathlib.Logic.Relation
import Mathlib.Tactic.Common
import Mbb.HttpBatch

/-!
# Talking to the daemon (`mbbsh/nettalker.c`, `mbbsh/handler.c`)

The shell has two threads. The main one writes a request and waits for the answer in
`sync_handler_get_tag`; another reads the socket, gives each answer to the main thread through
`xml_tag`, and waits in `sync_handler` until the main thread is done with it. Both wait for
conditions, with a mutex each, but neither holds the mutex when it writes `xml_tag`.

The program counters of both threads are modelled statement by statement, with the mutexes, the
waiting, and wakeups without a signal. The daemon answers requests one after the other, and says
other things in between. What has been said, answered and taken for an answer is noted beside.

`talk_half_say`, by which Lua asks, has the same statements in the same order: it returns with the
tag where `talk_say` calls `func`, and the next call of it begins with `sync_handler_cont`.
-/

namespace Mbb

/-- Where the main thread is in `talk_say`, or in `talk_half_say`. -/
inductive MainPc : Type where
  /-- it does not ask -/
  | idle
  /-- `sync_handler_get_tag`: at `g_mutex_lock(recv_mutex)` -/
  | getLock (msg : CStr)
  /-- at `xml_tag == NULL` -/
  | getCheck (msg : CStr)
  /-- in `g_cond_wait(recv_cond, recv_mutex)` -/
  | getAsleep (msg : CStr)
  /-- woken, and about to have the mutex again -/
  | getAwake (msg : CStr)
  /-- at `g_mutex_unlock(recv_mutex)` -/
  | getUnlock (msg : CStr)
  /-- at `return xml_tag` -/
  | getReturn (msg : CStr)
  /-- at `func(tag, data)`, or between two calls of `talk_half_say` -/
  | func (msg : CStr) (tag : XmlTag)
  /-- `sync_handler_cont`: at `xml_tag = NULL` -/
  | contClear
  /-- at `g_mutex_lock(cont_mutex)` -/
  | contLock
  /-- at `g_cond_signal(cont_cond)` -/
  | contSignal
  /-- at `g_mutex_unlock(cont_mutex)` -/
  | contUnlock

/-- Where the thread that reads is. -/
inductive ReaderPc : Type where
  /-- at `read` in `talk_thread` -/
  | read
  /-- `sync_handler`: at `xml_tag = tag` -/
  | set (tag : XmlTag)
  /-- at `g_mutex_lock(recv_mutex)` -/
  | recvLock
  /-- at `g_cond_signal(recv_cond)` -/
  | recvSignal
  /-- at `g_mutex_unlock(recv_mutex)` -/
  | recvUnlock
  /-- at `g_mutex_lock(cont_mutex)` -/
  | contLock
  /-- at `xml_tag != NULL` -/
  | contCheck
  /-- in `g_cond_wait(cont_cond, cont_mutex)` -/
  | contAsleep
  /-- woken, and about to have the mutex again -/
  | contAwake
  /-- at `g_mutex_unlock(cont_mutex)` -/
  | contUnlock

/-- The threads. -/
inductive TalkThread : Type where
  /-- the main thread, which asks -/
  | main
  /-- the thread that reads the socket -/
  | reader
  deriving DecidableEq

/-- `response` and `auth` are given to `sync_handler`, all others are done with at once. -/
def isSync (tag : XmlTag) : Bool :=
  decide (tag.name = literal "response") || decide (tag.name = literal "auth")

/-- The shell and what is on its way. -/
structure Talk : Type where
  /-- where the main thread is -/
  main : MainPc
  /-- where the thread that reads is -/
  reader : ReaderPc
  /-- `xml_tag` -/
  xmlTag : Option XmlTag
  /-- who has `recv_mutex` -/
  recvMutex : Option TalkThread
  /-- who has `cont_mutex` -/
  contMutex : Option TalkThread
  /-- what the daemon has sent, and has not been read -/
  incoming : List XmlTag
  /-- requests that the daemon has not answered -/
  pending : List CStr
  /-- requests, in the order in which they were written -/
  said : List CStr
  /-- requests with the answers of the daemon -/
  answered : List (CStr × XmlTag)
  /-- requests with what was taken for their answer -/
  got : List (CStr × XmlTag)

/-- Steps. -/
inductive TalkStep : Type where
  /-- `talk_say` or `talk_half_say` is called, and `talk_write` writes the request -/
  | say (msg : CStr)
  /-- the next statement of the main thread -/
  | main
  /-- the next statement of the other -/
  | reader
  /-- the daemon answers a request -/
  | answer (tag : XmlTag)
  /-- the daemon says something else -/
  | notify (tag : XmlTag)
  /-- the main thread is woken without a signal -/
  | wakeMain
  /-- the thread that reads is woken without a signal -/
  | wakeReader

namespace Talk

/-- `talk_init` -/
def init : Talk where
  main := .idle
  reader := .read
  xmlTag := none
  recvMutex := none
  contMutex := none
  incoming := []
  pending := []
  said := []
  answered := []
  got := []

variable (s : Talk)

/-- Where the main thread is after a signal to `recv_cond`, which wakes it if it sleeps. -/
def wakeMain : MainPc :=
  match s.main with
  | .getAsleep msg => .getAwake msg
  | pc => pc

/-- Where the thread that reads is after a signal to `cont_cond`, which wakes it if it sleeps. -/
def wakeReader : ReaderPc :=
  match s.reader with
  | .contAsleep => .contAwake
  | pc => pc

/-- The next statement of the main thread, if it is not held up. -/
def mainStep : Option Talk :=
  match s.main with
  | .idle => none
  | .getLock msg =>
    if s.recvMutex = none then some { s with main := .getCheck msg, recvMutex := some .main }
    else none
  | .getCheck msg =>
    match s.xmlTag with
    | none => some { s with main := .getAsleep msg, recvMutex := none }
    | some _ => some { s with main := .getUnlock msg }
  | .getAsleep _ => none
  | .getAwake msg =>
    if s.recvMutex = none then some { s with main := .getCheck msg, recvMutex := some .main }
    else none
  | .getUnlock msg => some { s with main := .getReturn msg, recvMutex := none }
  | .getReturn msg =>
    s.xmlTag.map fun tag => { s with main := .func msg tag, got := s.got ++ [(msg, tag)] }
  | .func _ _ => some { s with main := .contClear }
  | .contClear => some { s with main := .contLock, xmlTag := none }
  | .contLock =>
    if s.contMutex = none then some { s with main := .contSignal, contMutex := some .main }
    else none
  | .contSignal => some { s with main := .contUnlock, reader := s.wakeReader }
  | .contUnlock => some { s with main := .idle, contMutex := none }

/-- The next statement of the thread that reads, if it is not held up. -/
def readerStep : Option Talk :=
  match s.reader with
  | .read =>
    match s.incoming with
    | [] => none
    | tag :: incoming =>
      some { s with incoming, reader := if isSync tag then .set tag else .read }
  | .set tag => some { s with reader := .recvLock, xmlTag := some tag }
  | .recvLock =>
    if s.recvMutex = none then some { s with reader := .recvSignal, recvMutex := some .reader }
    else none
  | .recvSignal => some { s with reader := .recvUnlock, main := s.wakeMain }
  | .recvUnlock => some { s with reader := .contLock, recvMutex := none }
  | .contLock =>
    if s.contMutex = none then some { s with reader := .contCheck, contMutex := some .reader }
    else none
  | .contCheck =>
    match s.xmlTag with
    | none => some { s with reader := .contUnlock }
    | some _ => some { s with reader := .contAsleep, contMutex := none }
  | .contAsleep => none
  | .contAwake =>
    if s.contMutex = none then some { s with reader := .contCheck, contMutex := some .reader }
    else none
  | .contUnlock => some { s with reader := .read, contMutex := none }

/-- One step, where it can be made. -/
def step : TalkStep → Option Talk
  | .say msg =>
    match s.main with
    | .idle =>
      some { s with main := .getLock msg, pending := s.pending ++ [msg], said := s.said ++ [msg] }
    | _ => none
  | .main => s.mainStep
  | .reader => s.readerStep
  | .answer tag =>
    match s.pending with
    | [] => none
    | msg :: pending =>
      if isSync tag then
        some { s with
          pending
          incoming := s.incoming ++ [tag]
          answered := s.answered ++ [(msg, tag)] }
      else none
  | .notify tag => if isSync tag then none else some { s with incoming := s.incoming ++ [tag] }
  | .wakeMain => some { s with main := s.wakeMain }
  | .wakeReader => some { s with reader := s.wakeReader }

/-- The states of the runs from `s`. -/
def Reaches (s s' : Talk) : Prop :=
  Relation.ReflTransGen (fun s s' => ∃ c, step s c = some s') s s'

end Talk

/-! ## The invariant -/

namespace MainPc

/-- The main thread has `recv_mutex`. -/
def HasRecv : MainPc → Prop
  | .getCheck _ => True
  | .getUnlock _ => True
  | _ => False

/-- The main thread has `cont_mutex`. -/
def HasCont : MainPc → Prop
  | .contSignal => True
  | .contUnlock => True
  | _ => False

end MainPc

namespace ReaderPc

/-- The thread that reads has `recv_mutex`. -/
def HasRecv : ReaderPc → Prop
  | .recvSignal => True
  | .recvUnlock => True
  | _ => False

/-- The thread that reads has `cont_mutex`. -/
def HasCont : ReaderPc → Prop
  | .contCheck => True
  | .contUnlock => True
  | _ => False

/-- The answer that it has, and has not given away. -/
def hand : ReaderPc → Option XmlTag
  | .set tag => some tag
  | _ => none

end ReaderPc

namespace Talk

variable {s s' : Talk}

/-- The answers on their way to the main thread. -/
def inFlight (s : Talk) : List XmlTag :=
  s.incoming.filter isSync ++ s.reader.hand.toList ++ s.xmlTag.toList

/-- Nothing is asked, and no answer is on its way. -/
def Quiet (s : Talk) : Prop := s.pending = [] ∧ s.inFlight = [] ∧ s.got = s.answered

/-- The answer to a request is on its way. -/
def Coming (s : Talk) (msg : CStr) (tag : XmlTag) : Prop :=
  s.pending = [] ∧ s.inFlight = [tag] ∧ s.answered = s.got ++ [(msg, tag)]

/-- Where a request and its answer are, by where the main thread is. -/
def Asked (s : Talk) : MainPc → Prop
  | .getLock msg | .getCheck msg | .getAsleep msg | .getAwake msg =>
    (s.pending = [msg] ∧ s.inFlight = [] ∧ s.got = s.answered) ∨ ∃ tag, s.Coming msg tag
  | .getUnlock msg | .getReturn msg => ∃ tag, s.Coming msg tag ∧ s.xmlTag = some tag
  | .func msg tag => s.pending = [] ∧ s.inFlight = [tag] ∧ s.xmlTag = some tag ∧
    s.got = s.answered ∧ s.got.getLast? = some (msg, tag)
  | .contClear => s.pending = [] ∧ s.got = s.answered ∧
    ∃ tag, s.inFlight = [tag] ∧ s.xmlTag = some tag
  | .idle | .contLock | .contSignal | .contUnlock => s.Quiet

/-- What holds in every state. A thread that sleeps although what it waits for is there is about to
be woken, which is why no wakeup is lost; and at most one request is under way. -/
structure Inv (s : Talk) : Prop where
  /-- the main thread has `recv_mutex` where its program counter says so -/
  recvMain : s.recvMutex = some .main ↔ s.main.HasRecv
  /-- the thread that reads has `recv_mutex` where its program counter says so -/
  recvReader : s.recvMutex = some .reader ↔ s.reader.HasRecv
  /-- the main thread has `cont_mutex` where its program counter says so -/
  contMain : s.contMutex = some .main ↔ s.main.HasCont
  /-- the thread that reads has `cont_mutex` where its program counter says so -/
  contReader : s.contMutex = some .reader ↔ s.reader.HasCont
  /-- the main thread sleeps with an answer there only when it will be woken -/
  asleepMain : ∀ msg, s.main = .getAsleep msg → s.xmlTag ≠ none →
    s.reader = .recvLock ∨ s.reader = .recvSignal
  /-- the thread that reads sleeps with the answer taken only when it will be woken -/
  asleepReader : s.reader = .contAsleep → s.xmlTag = none →
    s.main = .contLock ∨ s.main = .contSignal
  /-- the request and its answer are where they belong for the main thread -/
  asked : s.Asked s.main
  /-- each request has been answered or is pending, in the order in which they were written -/
  said : s.said = s.answered.map Prod.fst ++ s.pending

theorem inv_init : init.Inv where
  recvMain := by simp [init, MainPc.HasRecv]
  recvReader := by simp [init, ReaderPc.HasRecv]
  contMain := by simp [init, MainPc.HasCont]
  contReader := by simp [init, ReaderPc.HasCont]
  asleepMain msg h := by cases h
  asleepReader h := by cases h
  asked := ⟨rfl, rfl, rfl⟩
  said := rfl

theorem Inv.say (h : s.Inv) (msg : CStr) (hmain : s.main = .idle) :
    Inv { s with
      main := .getLock msg, pending := s.pending ++ [msg], said := s.said ++ [msg] } where
  recvMain := by simpa [MainPc.HasRecv, hmain] using h.recvMain
  recvReader := h.recvReader
  contMain := by simpa [MainPc.HasCont, hmain] using h.contMain
  contReader := h.contReader
  asleepMain msg h := by cases h
  asleepReader hr hx := by
    have := h.asleepReader hr hx
    simp [hmain] at this
  asked := by
    have hq : s.Quiet := by simpa [Asked, hmain] using h.asked
    refine .inl ⟨?_, hq.2⟩
    rw [hq.1]
    rfl
  said := by rw [h.said, List.append_assoc]

/-- The main thread goes on, and neither `xml_tag` nor what is on its way changes. -/
theorem Inv.moveMain (h : s.Inv) {main : MainPc} {recvMutex contMutex : Option TalkThread}
    (hrecv : (recvMutex = some .main ↔ main.HasRecv) ∧
      (recvMutex = some .reader ↔ s.recvMutex = some .reader))
    (hcont : (contMutex = some .main ↔ main.HasCont) ∧
      (contMutex = some .reader ↔ s.contMutex = some .reader))
    (hasleep : ∀ msg, main = .getAsleep msg → s.xmlTag = none)
    (hreader : s.main = .contLock ∨ s.main = .contSignal → main = .contLock ∨ main = .contSignal)
    (hasked : s.Asked main) : Inv { s with main, recvMutex, contMutex } where
  recvMain := hrecv.1
  recvReader := hrecv.2.trans h.recvReader
  contMain := hcont.1
  contReader := hcont.2.trans h.contReader
  asleepMain msg hm hx := absurd (hasleep msg hm) hx
  asleepReader hr hx := hreader (h.asleepReader hr hx)
  asked := by cases main <;> exact hasked
  said := h.said

/-- `xml_tag` is there when an answer is. -/
theorem Coming.xmlTag {msg : CStr} {tag tag' : XmlTag} (h : s.Coming msg tag)
    (hx : s.xmlTag = some tag') : s.xmlTag = some tag := by
  have hin := h.2.1
  rw [inFlight, hx, Option.toList_some] at hin
  obtain ⟨-, heq⟩ := List.append_inj' (hin.trans (List.nil_append [tag]).symm) rfl
  rw [hx, List.singleton_inj.mp heq]

/-- `return xml_tag` -/
theorem Inv.take (h : s.Inv) {msg : CStr} {tag : XmlTag} (hmain : s.main = .getReturn msg)
    (hasked : s.Asked (.getReturn msg)) (hx : s.xmlTag = some tag) :
    Inv { s with main := .func msg tag, got := s.got ++ [(msg, tag)] } where
  recvMain := by simpa [MainPc.HasRecv, hmain] using h.recvMain
  recvReader := h.recvReader
  contMain := by simpa [MainPc.HasCont, hmain] using h.contMain
  contReader := h.contReader
  asleepMain msg hm := by cases hm
  asleepReader hr hnone := by
    rw [hx] at hnone
    cases hnone
  asked := by
    obtain ⟨tag', ⟨hpending, hin, hanswered⟩, hx'⟩ := hasked
    obtain rfl : tag' = tag := Option.some.inj (hx'.symm.trans hx)
    exact ⟨hpending, hin, hx, hanswered.symm, List.getLast?_concat⟩
  said := h.said

/-- `xml_tag = NULL` -/
theorem Inv.clear (h : s.Inv) (hmain : s.main = .contClear) (hasked : s.Asked .contClear) :
    Inv { s with main := .contLock, xmlTag := none } where
  recvMain := by simpa [MainPc.HasRecv, hmain] using h.recvMain
  recvReader := h.recvReader
  contMain := by simpa [MainPc.HasCont, hmain] using h.contMain
  contReader := h.contReader
  asleepMain msg hm := by cases hm
  asleepReader _ _ := .inl rfl
  asked := by
    obtain ⟨hpending, hgot, tag, hin, hx⟩ := hasked
    refine ⟨hpending, ?_, hgot⟩
    rw [inFlight, hx, Option.toList_some] at hin
    obtain ⟨hrest, -⟩ := List.append_inj' (hin.trans (List.nil_append [tag]).symm) rfl
    change s.incoming.filter isSync ++ s.reader.hand.toList ++ [] = []
    rw [hrest, List.append_nil]
  said := h.said

/-- The signals do not change what a thread has. -/
theorem wakeReader_spec (s : Talk) : s.wakeReader ≠ .contAsleep ∧
    (s.wakeReader.HasRecv ↔ s.reader.HasRecv) ∧ (s.wakeReader.HasCont ↔ s.reader.HasCont) ∧
    s.wakeReader.hand = s.reader.hand ∧
    (s.wakeReader = .recvLock ↔ s.reader = .recvLock) ∧
    (s.wakeReader = .recvSignal ↔ s.reader = .recvSignal) := by
  rw [wakeReader.eq_def]
  cases s.reader <;> simp [ReaderPc.HasRecv, ReaderPc.HasCont, ReaderPc.hand]

theorem wakeMain_spec (s : Talk) : (∀ msg, s.wakeMain ≠ .getAsleep msg) ∧
    (s.wakeMain.HasRecv ↔ s.main.HasRecv) ∧ (s.wakeMain.HasCont ↔ s.main.HasCont) ∧
    (∀ s' : Talk, s'.Asked s.wakeMain ↔ s'.Asked s.main) ∧
    (s.wakeMain = .contLock ↔ s.main = .contLock) ∧
    (s.wakeMain = .contSignal ↔ s.main = .contSignal) := by
  rw [wakeMain.eq_def]
  cases s.main <;> simp [MainPc.HasRecv, MainPc.HasCont, Asked]

/-- `g_cond_signal(cont_cond)` -/
theorem Inv.signalCont (h : s.Inv) (hmain : s.main = .contSignal) :
    Inv { s with main := .contUnlock, reader := s.wakeReader } where
  recvMain := by simpa [MainPc.HasRecv, hmain] using h.recvMain
  recvReader := h.recvReader.trans s.wakeReader_spec.2.1.symm
  contMain := by simpa [MainPc.HasCont, hmain] using h.contMain
  contReader := h.contReader.trans s.wakeReader_spec.2.2.1.symm
  asleepMain msg hm := by cases hm
  asleepReader hr := absurd hr s.wakeReader_spec.1
  asked := by
    have hq : s.Quiet := by simpa [Asked, hmain] using h.asked
    refine ⟨hq.1, ?_, hq.2.2⟩
    change s.incoming.filter isSync ++ s.wakeReader.hand.toList ++ s.xmlTag.toList = []
    rw [s.wakeReader_spec.2.2.2.1]
    exact hq.2.1
  said := h.said

theorem Inv.main (h : s.Inv) (hs : s.mainStep = some s') : s'.Inv := by
  have hrm := h.recvMain
  have hcm := h.contMain
  have hasked := h.asked
  rw [Talk.mainStep.eq_def] at hs
  split at hs
  · cases hs
  · rename_i msg hmain
    split at hs
    · rename_i hnone
      cases hs
      rw [hmain] at hasked hcm
      exact h.moveMain ⟨by simp [MainPc.HasRecv], by simp [hnone]⟩ ⟨hcm, Iff.rfl⟩ (by simp)
        (by simp [hmain]) hasked
    · cases hs
  · rename_i msg hmain
    rw [hmain] at hasked hrm hcm
    have hmine : s.recvMutex = some .main := hrm.mpr trivial
    split at hs
    · rename_i hx
      cases hs
      exact h.moveMain ⟨by simp [MainPc.HasRecv], by simp [hmine]⟩ ⟨hcm, Iff.rfl⟩ (fun _ _ => hx)
        (by simp [hmain]) hasked
    · rename_i tag hx
      cases hs
      refine h.moveMain ⟨hrm, Iff.rfl⟩ ⟨hcm, Iff.rfl⟩ (by simp) (by simp [hmain]) ?_
      rcases hasked with ⟨-, hin, -⟩ | ⟨tag', hcoming⟩
      · simp [inFlight, hx] at hin
      · exact ⟨tag', hcoming, hcoming.xmlTag hx⟩
  · cases hs
  · rename_i msg hmain
    split at hs
    · rename_i hnone
      cases hs
      rw [hmain] at hasked hcm
      exact h.moveMain ⟨by simp [MainPc.HasRecv], by simp [hnone]⟩ ⟨hcm, Iff.rfl⟩ (by simp)
        (by simp [hmain]) hasked
    · cases hs
  · rename_i msg hmain
    cases hs
    rw [hmain] at hasked hrm hcm
    have hmine : s.recvMutex = some .main := hrm.mpr trivial
    exact h.moveMain ⟨by simp [MainPc.HasRecv], by simp [hmine]⟩ ⟨hcm, Iff.rfl⟩ (by simp)
      (by simp [hmain]) hasked
  · rename_i msg hmain
    obtain ⟨tag, hx, rfl⟩ := Option.map_eq_some_iff.mp hs
    rw [hmain] at hasked
    exact h.take hmain hasked hx
  · rename_i msg tag hmain
    cases hs
    rw [hmain] at hasked hrm hcm
    obtain ⟨hpending, hin, hx, hgot, -⟩ := hasked
    exact h.moveMain ⟨hrm, Iff.rfl⟩ ⟨hcm, Iff.rfl⟩ (by simp) (by simp [hmain])
      ⟨hpending, hgot, tag, hin, hx⟩
  · rename_i hmain
    cases hs
    rw [hmain] at hasked hrm hcm
    exact h.clear hmain hasked
  · rename_i hmain
    split at hs
    · rename_i hnone
      cases hs
      rw [hmain] at hasked hrm
      exact h.moveMain ⟨hrm, Iff.rfl⟩ ⟨by simp [MainPc.HasCont], by simp [hnone]⟩ (by simp)
        (by simp) hasked
    · cases hs
  · rename_i hmain
    cases hs
    exact h.signalCont hmain
  · rename_i hmain
    cases hs
    rw [hmain] at hasked hrm hcm
    have hmine : s.contMutex = some .main := hcm.mpr trivial
    exact h.moveMain ⟨hrm, Iff.rfl⟩ ⟨by simp [MainPc.HasCont], by simp [hmine]⟩ (by simp)
      (by simp [hmain]) hasked

theorem Asked.congr {pc : MainPc} (h : s.Asked pc) (hpending : s'.pending = s.pending)
    (hin : s'.inFlight = s.inFlight) (hgot : s'.got = s.got) (hanswered : s'.answered = s.answered)
    (hx : s'.xmlTag = s.xmlTag) : s'.Asked pc := by
  cases pc <;>
    simpa only [Asked, Quiet, Coming, hpending, hin, hgot, hanswered, hx] using h

/-- Only a main thread that waits has an answer on its way that is not in `xml_tag`. -/
theorem Asked.given {pc : MainPc} {tag : XmlTag} (h : s.Asked pc) (hin : s.inFlight = [tag])
    (hx : s.xmlTag = none) (hpending : s'.pending = s.pending) (hin' : s'.inFlight = [tag])
    (hgot : s'.got = s.got) (hanswered : s'.answered = s.answered) : s'.Asked pc := by
  cases pc <;> simp only [Asked, Quiet, Coming, hin, hx] at h
  case getLock | getCheck | getAsleep | getAwake =>
    simpa only [Asked, Coming, hpending, hin', hgot, hanswered] using h
  all_goals simp at h

/-- Only a main thread that waits has a request that is not answered. -/
theorem Asked.answer {pc : MainPc} {msg : CStr} {pending : List CStr} {tag : XmlTag}
    (h : s.Asked pc) (hs : s.pending = msg :: pending) (hpending : s'.pending = pending)
    (hin : s.inFlight = [] → s'.inFlight = [tag]) (hgot : s'.got = s.got)
    (hanswered : s'.answered = s.answered ++ [(msg, tag)]) : s'.Asked pc := by
  cases pc <;> simp only [Asked, Quiet, Coming, hs] at h
  case getLock | getCheck | getAsleep | getAwake =>
    rcases h with ⟨hmsg, hnone, hall⟩ | ⟨tag', hmsg, -⟩
    · obtain ⟨rfl, rfl⟩ := List.cons_eq_cons.mp hmsg
      refine .inr ⟨tag, hpending, hin hnone, ?_⟩
      rw [hanswered, hgot, hall]
    · cases hmsg
  all_goals simp at h

/-- There is never more than one answer on its way. -/
theorem Inv.length_inFlight (h : s.Inv) : s.inFlight.length ≤ 1 := by
  have hasked := h.asked
  cases hmain : s.main <;> simp only [hmain, Asked, Quiet, Coming] at hasked
  case getUnlock | getReturn =>
    obtain ⟨tag, ⟨-, hin, -⟩, -⟩ := hasked
    exact hin ▸ le_rfl
  case func => exact hasked.2.1 ▸ le_rfl
  case contClear =>
    obtain ⟨-, -, tag, hin, -⟩ := hasked
    exact hin ▸ le_rfl
  case idle | contLock | contSignal | contUnlock => exact hasked.2.1 ▸ Nat.zero_le _
  all_goals
    rcases hasked with ⟨-, hin, -⟩ | ⟨tag, -, hin, -⟩
    · exact hin ▸ Nat.zero_le _
    · exact hin ▸ le_rfl

/-- The thread that reads goes on, and `xml_tag` does not change. -/
theorem Inv.moveReader (h : s.Inv) {reader : ReaderPc} {recvMutex contMutex : Option TalkThread}
    {incoming : List XmlTag}
    (hrecv : (recvMutex = some .reader ↔ reader.HasRecv) ∧
      (recvMutex = some .main ↔ s.recvMutex = some .main))
    (hcont : (contMutex = some .reader ↔ reader.HasCont) ∧
      (contMutex = some .main ↔ s.contMutex = some .main))
    (hwakes : s.reader = .recvLock → reader = .recvSignal) (hsignal : s.reader ≠ .recvSignal)
    (hasleep : reader = .contAsleep → s.xmlTag ≠ none)
    (hin : incoming.filter isSync ++ reader.hand.toList =
      s.incoming.filter isSync ++ s.reader.hand.toList) :
    Inv { s with reader, recvMutex, contMutex, incoming } where
  recvMain := hrecv.2.trans h.recvMain
  recvReader := hrecv.1
  contMain := hcont.2.trans h.contMain
  contReader := hcont.1
  asleepMain msg hm hx :=
    (h.asleepMain msg hm hx).elim (fun hr => .inr (hwakes hr)) fun hr => absurd hr hsignal
  asleepReader hr hx := absurd hx (hasleep hr)
  asked := h.asked.congr rfl (congrArg (· ++ s.xmlTag.toList) hin) rfl rfl rfl
  said := h.said

/-- `xml_tag = tag` -/
theorem Inv.give (h : s.Inv) {tag : XmlTag} (hreader : s.reader = .set tag) :
    Inv { s with reader := .recvLock, xmlTag := some tag } := by
  have hlen := h.length_inFlight
  rw [inFlight, hreader, ReaderPc.hand, Option.toList_some, List.length_append, List.length_append,
    List.length_singleton] at hlen
  have hx : s.xmlTag = none := by
    cases hx : s.xmlTag with
    | none => rfl
    | some t =>
      rw [hx, Option.toList_some, List.length_singleton] at hlen
      omega
  have hincoming : s.incoming.filter isSync = [] := List.length_eq_zero_iff.mp (by omega)
  have hin : s.inFlight = [tag] := by
    rw [inFlight, hincoming, hreader, hx]
    rfl
  have hin' : inFlight { s with reader := .recvLock, xmlTag := some tag } = [tag] := by
    rw [inFlight]
    change s.incoming.filter isSync ++ [] ++ [tag] = _
    rw [hincoming]
    rfl
  refine ⟨h.recvMain, ?_, h.contMain, ?_, fun _ _ _ => .inl rfl, by simp, ?_, h.said⟩
  · simpa [ReaderPc.HasRecv, hreader] using h.recvReader
  · simpa [ReaderPc.HasCont, hreader] using h.contReader
  · exact h.asked.given hin hx rfl hin' rfl rfl

/-- `g_cond_signal(recv_cond)` -/
theorem Inv.signalRecv (h : s.Inv) (hreader : s.reader = .recvSignal) :
    Inv { s with reader := .recvUnlock, main := s.wakeMain } where
  recvMain := h.recvMain.trans s.wakeMain_spec.2.1.symm
  recvReader := by simpa [ReaderPc.HasRecv, hreader] using h.recvReader
  contMain := h.contMain.trans s.wakeMain_spec.2.2.1.symm
  contReader := by simpa [ReaderPc.HasCont, hreader] using h.contReader
  asleepMain msg hm := absurd hm (s.wakeMain_spec.1 msg)
  asleepReader hr := by cases hr
  asked := by
    refine Asked.congr ((s.wakeMain_spec.2.2.2.1 s).mpr h.asked) rfl ?_ rfl rfl rfl
    rw [inFlight, inFlight, hreader]
    rfl
  said := h.said

theorem Inv.reader (h : s.Inv) (hs : s.readerStep = some s') : s'.Inv := by
  have hrr := h.recvReader
  have hcr := h.contReader
  rw [Talk.readerStep.eq_def] at hs
  split at hs
  · rename_i hreader
    rw [hreader] at hrr hcr
    split at hs
    · cases hs
    · rename_i tag incoming hincoming
      cases hs
      refine h.moveReader ⟨?_, Iff.rfl⟩ ⟨?_, Iff.rfl⟩ (by simp [hreader]) (by simp [hreader]) ?_ ?_
      · split <;> exact hrr
      · split <;> exact hcr
      · split <;> simp
      · have hlen := h.length_inFlight
        rw [inFlight, hincoming, List.filter_cons, List.length_append, List.length_append] at hlen
        rw [hincoming, hreader, List.filter_cons]
        cases hsync : isSync tag with
        | true =>
          -- it is the only answer
          rw [hsync, if_pos rfl, List.length_cons] at hlen
          have hnil : incoming.filter isSync = [] := List.length_eq_zero_iff.mp (by omega)
          rw [hnil]
          rfl
        | false => rfl
  · rename_i tag hreader
    cases hs
    exact h.give hreader
  · rename_i hreader
    rw [hreader] at hcr
    split at hs
    · rename_i hnone
      cases hs
      exact h.moveReader ⟨by simp [ReaderPc.HasRecv], by simp [hnone]⟩ ⟨hcr, Iff.rfl⟩ (fun _ => rfl)
        (by simp [hreader]) (by simp) (by rw [hreader]; rfl)
    · cases hs
  · rename_i hreader
    cases hs
    exact h.signalRecv hreader
  · rename_i hreader
    rw [hreader] at hrr hcr
    have hmine : s.recvMutex = some .reader := hrr.mpr trivial
    cases hs
    exact h.moveReader ⟨by simp [ReaderPc.HasRecv], by simp [hmine]⟩ ⟨hcr, Iff.rfl⟩
      (by simp [hreader]) (by simp [hreader]) (by simp) (by rw [hreader]; rfl)
  · rename_i hreader
    rw [hreader] at hrr
    split at hs
    · rename_i hnone
      cases hs
      exact h.moveReader ⟨hrr, Iff.rfl⟩ ⟨by simp [ReaderPc.HasCont], by simp [hnone]⟩
        (by simp [hreader]) (by simp [hreader]) (by simp) (by rw [hreader]; rfl)
    · cases hs
  · rename_i hreader
    rw [hreader] at hrr hcr
    have hmine : s.contMutex = some .reader := hcr.mpr trivial
    split at hs
    · cases hs
      exact h.moveReader ⟨hrr, Iff.rfl⟩ ⟨hcr, Iff.rfl⟩ (by simp [hreader]) (by simp [hreader])
        (by simp) (by rw [hreader]; rfl)
    · rename_i tag hx
      cases hs
      exact h.moveReader ⟨hrr, Iff.rfl⟩ ⟨by simp [ReaderPc.HasCont], by simp [hmine]⟩
        (by simp [hreader]) (by simp [hreader]) (by simp [hx]) (by rw [hreader]; rfl)
  · cases hs
  · rename_i hreader
    rw [hreader] at hrr
    split at hs
    · rename_i hnone
      cases hs
      exact h.moveReader ⟨hrr, Iff.rfl⟩ ⟨by simp [ReaderPc.HasCont], by simp [hnone]⟩
        (by simp [hreader]) (by simp [hreader]) (by simp) (by rw [hreader]; rfl)
    · cases hs
  · rename_i hreader
    rw [hreader] at hrr hcr
    have hmine : s.contMutex = some .reader := hcr.mpr trivial
    cases hs
    exact h.moveReader ⟨hrr, Iff.rfl⟩ ⟨by simp [ReaderPc.HasCont], by simp [hmine]⟩
      (by simp [hreader]) (by simp [hreader]) (by simp) (by rw [hreader]; rfl)

theorem Inv.answer (h : s.Inv) {msg : CStr} {pending : List CStr} {tag : XmlTag}
    (hpending : s.pending = msg :: pending) (hsync : isSync tag = true) :
    Inv { s with
      pending, incoming := s.incoming ++ [tag], answered := s.answered ++ [(msg, tag)] } where
  recvMain := h.recvMain
  recvReader := h.recvReader
  contMain := h.contMain
  contReader := h.contReader
  asleepMain := h.asleepMain
  asleepReader := h.asleepReader
  asked := by
    refine h.asked.answer hpending rfl (fun hin => ?_) rfl rfl
    rw [inFlight, List.append_eq_nil_iff, List.append_eq_nil_iff] at hin
    rw [inFlight, List.filter_append, hin.1.1, List.filter_cons, hsync]
    change [] ++ [tag] ++ s.reader.hand.toList ++ s.xmlTag.toList = [tag]
    rw [hin.1.2, hin.2]
    rfl
  said := by
    rw [h.said, hpending, List.map_append, List.append_assoc]
    rfl

theorem Inv.notify (h : s.Inv) {tag : XmlTag} (hsync : isSync tag = false) :
    Inv { s with incoming := s.incoming ++ [tag] } where
  recvMain := h.recvMain
  recvReader := h.recvReader
  contMain := h.contMain
  contReader := h.contReader
  asleepMain := h.asleepMain
  asleepReader := h.asleepReader
  asked := by
    refine h.asked.congr rfl ?_ rfl rfl rfl
    rw [inFlight, inFlight, List.filter_append, List.filter_cons, hsync]
    simp
  said := h.said

theorem Inv.wakeMain (h : s.Inv) : Inv { s with main := s.wakeMain } where
  recvMain := h.recvMain.trans s.wakeMain_spec.2.1.symm
  recvReader := h.recvReader
  contMain := h.contMain.trans s.wakeMain_spec.2.2.1.symm
  contReader := h.contReader
  asleepMain msg hm := absurd hm (s.wakeMain_spec.1 msg)
  asleepReader hr hx := (h.asleepReader hr hx).imp s.wakeMain_spec.2.2.2.2.1.mpr
    s.wakeMain_spec.2.2.2.2.2.mpr
  asked := ((s.wakeMain_spec.2.2.2.1 s).mpr h.asked).congr rfl rfl rfl rfl rfl
  said := h.said

theorem Inv.wakeReader (h : s.Inv) : Inv { s with reader := s.wakeReader } where
  recvMain := h.recvMain
  recvReader := h.recvReader.trans s.wakeReader_spec.2.1.symm
  contMain := h.contMain
  contReader := h.contReader.trans s.wakeReader_spec.2.2.1.symm
  asleepMain msg hm hx := (h.asleepMain msg hm hx).imp s.wakeReader_spec.2.2.2.2.1.mpr
    s.wakeReader_spec.2.2.2.2.2.mpr
  asleepReader hr := absurd hr s.wakeReader_spec.1
  asked := by
    refine h.asked.congr rfl ?_ rfl rfl rfl
    rw [inFlight, inFlight]
    change _ ++ s.wakeReader.hand.toList ++ _ = _
    rw [s.wakeReader_spec.2.2.2.1]
  said := h.said

theorem Inv.step (h : s.Inv) {c : TalkStep} (hs : s.step c = some s') : s'.Inv := by
  cases c with
  | say msg =>
    simp only [Talk.step] at hs
    split at hs
    · rename_i hmain
      cases hs
      exact h.say msg hmain
    · cases hs
  | main => exact h.main hs
  | reader => exact h.reader hs
  | answer tag =>
    simp only [Talk.step] at hs
    split at hs
    · cases hs
    · rename_i msg pending hpending
      split at hs
      · rename_i hsync
        cases hs
        exact h.answer hpending hsync
      · cases hs
  | notify tag =>
    simp only [Talk.step] at hs
    split at hs
    · cases hs
    · rename_i hsync
      cases hs
      exact h.notify (Bool.not_eq_true _ ▸ hsync)
  | wakeMain =>
    cases hs
    exact h.wakeMain
  | wakeReader =>
    cases hs
    exact h.wakeReader

theorem Inv.reaches (h : s.Inv) (hs : Reaches s s') : s'.Inv := by
  induction hs with
  | refl => exact h
  | tail _ hstep ih =>
    obtain ⟨c, hc⟩ := hstep
    exact ih.step hc

/-- **Each request gets its own answer.** Whatever the order of the steps, and with wakeups at any
time: what the main thread takes for the answer to a request is what the daemon has answered to it,
none is lost or taken twice, and the requests are answered in the order in which they were written.
There is at most one that has not been taken, and `func` is given the answer to the last request. -/
theorem talk_answers (h : Reaches init s) :
    (s.got = s.answered ∨ ∃ p, s.answered = s.got ++ [p]) ∧
      s.said = s.answered.map Prod.fst ++ s.pending ∧ s.pending.length ≤ 1 ∧
      ∀ msg tag, s.main = .func msg tag → s.got.getLast? = some (msg, tag) := by
  have hinv := inv_init.reaches h
  have hasked := hinv.asked
  have hgot : (s.got = s.answered ∨ ∃ p, s.answered = s.got ++ [p]) ∧ s.pending.length ≤ 1 := by
    cases hmain : s.main <;> simp only [hmain, Asked, Quiet, Coming] at hasked
    case getUnlock | getReturn =>
      obtain ⟨tag, ⟨hpending, -, hanswered⟩, -⟩ := hasked
      exact ⟨.inr ⟨_, hanswered⟩, by simp [hpending]⟩
    case func => exact ⟨.inl hasked.2.2.2.1, by simp [hasked.1]⟩
    case contClear => exact ⟨.inl hasked.2.1, by simp [hasked.1]⟩
    case idle | contLock | contSignal | contUnlock =>
      exact ⟨.inl hasked.2.2, by simp [hasked.1]⟩
    all_goals
      rcases hasked with ⟨hpending, -, hall⟩ | ⟨tag, hpending, -, hanswered⟩
      · exact ⟨.inl hall, by simp [hpending]⟩
      · exact ⟨.inr ⟨_, hanswered⟩, by simp [hpending]⟩
  refine ⟨hgot.1, hinv.said, hgot.2, fun msg tag hmain => ?_⟩
  rw [hmain] at hasked
  exact hasked.2.2.2.2

/-- The main thread sleeps before the answer comes, and gets it. -/
theorem talk_answers_slept : ∃ (s : Talk) (msg : CStr) (tag : XmlTag), Reaches init s ∧
    s.main = .func msg tag ∧ s.got = [(msg, tag)] ∧ s.got.getLast? = some (msg, tag) := by
  let tag := mbbXmlMsgOk
  have h : Reaches init _ := .head ⟨.say (literal "<request/>"), rfl⟩ <| .head ⟨.main, rfl⟩ <|
    .head ⟨.main, rfl⟩ <|
    .head ⟨.answer tag, rfl⟩ <| .head ⟨.reader, rfl⟩ <| .head ⟨.reader, rfl⟩ <|
    .head ⟨.reader, rfl⟩ <| .head ⟨.reader, rfl⟩ <| .head ⟨.reader, rfl⟩ <| .head ⟨.main, rfl⟩ <|
    .head ⟨.main, rfl⟩ <| .head ⟨.main, rfl⟩ <| .single ⟨.main, rfl⟩
  exact ⟨_, _, tag, h, rfl, rfl, (talk_answers h).2.2.2 _ _ rfl⟩

theorem free_of_no_owner {o : Option TalkThread} (hm : o ≠ some .main) (hr : o ≠ some .reader) :
    o = none := by
  match o with
  | none => rfl
  | some .main => exact absurd rfl hm
  | some .reader => exact absurd rfl hr

/-- Who has `recv_mutex` will give it back. -/
theorem Inv.recv_progress (h : s.Inv) (hmain : ¬ s.main.HasRecv) :
    s.recvMutex = none ∨ ∃ s', s.readerStep = some s' := by
  by_cases hr : s.recvMutex = some .reader
  · have hreader := h.recvReader.mp hr
    rw [Talk.readerStep.eq_def]
    cases hpc : s.reader <;> simp [hpc, ReaderPc.HasRecv] at hreader ⊢
  · exact .inl (free_of_no_owner (fun hm => hmain (h.recvMain.mp hm)) hr)

/-- Who has `cont_mutex` will give it back. -/
theorem Inv.cont_progress (h : s.Inv) (hmain : ¬ s.main.HasCont) :
    s.contMutex = none ∨ ∃ s', s.readerStep = some s' := by
  by_cases hr : s.contMutex = some .reader
  · have hreader := h.contReader.mp hr
    rw [Talk.readerStep.eq_def]
    cases hpc : s.reader <;> simp [hpc, ReaderPc.HasCont] at hreader ⊢
    cases s.xmlTag <;> simp
  · exact .inl (free_of_no_owner (fun hm => hmain (h.contMain.mp hm)) hr)

/-- When the main thread sleeps and its answer is on its way, the other can go on. -/
theorem Inv.reader_progress (h : s.Inv) {msg : CStr} {tag : XmlTag}
    (hmain : s.main = .getAsleep msg) (hin : s.inFlight = [tag]) :
    ∃ s', s.readerStep = some s' := by
  have hrecv := h.recv_progress (by simp [hmain, MainPc.HasRecv])
  have hcont := h.cont_progress (by simp [hmain, MainPc.HasCont])
  cases hpc : s.reader with
  | read =>
    cases hincoming : s.incoming with
    | nil =>
      -- then the answer is in `xml_tag`, and the main thread would be woken
      rw [inFlight, hincoming, hpc] at hin
      have hx : s.xmlTag ≠ none := by
        intro hx
        rw [hx] at hin
        cases hin
      have hwakes := h.asleepMain msg hmain hx
      simp [hpc] at hwakes
    | cons tag' incoming =>
      rw [Talk.readerStep.eq_def, hpc]
      simp only [hincoming]
      exact ⟨_, rfl⟩
  | set tag' => exact ⟨_, by rw [Talk.readerStep.eq_def, hpc]⟩
  | recvLock =>
    rcases hrecv with hnone | hs
    · rw [Talk.readerStep.eq_def, hpc]
      simp only [hnone, if_true]
      exact ⟨_, rfl⟩
    · exact hs
  | recvSignal => exact ⟨_, by rw [Talk.readerStep.eq_def, hpc]⟩
  | recvUnlock => exact ⟨_, by rw [Talk.readerStep.eq_def, hpc]⟩
  | contLock =>
    rcases hcont with hnone | hs
    · rw [Talk.readerStep.eq_def, hpc]
      simp only [hnone, if_true]
      exact ⟨_, rfl⟩
    · exact hs
  | contCheck =>
    rw [Talk.readerStep.eq_def, hpc]
    cases s.xmlTag with
    | none => exact ⟨_, rfl⟩
    | some tag' => exact ⟨_, rfl⟩
  | contAsleep =>
    -- both would sleep: one of them is about to be woken, whatever `xml_tag` is
    by_cases hx : s.xmlTag = none
    · have hwakes := h.asleepReader hpc hx
      simp [hmain] at hwakes
    · have hwakes := h.asleepMain msg hmain hx
      simp [hpc] at hwakes
  | contAwake =>
    rcases hcont with hnone | hs
    · rw [Talk.readerStep.eq_def, hpc]
      simp only [hnone, if_true]
      exact ⟨_, rfl⟩
    · exact hs
  | contUnlock => exact ⟨_, by rw [Talk.readerStep.eq_def, hpc]⟩

/-- **No wakeup is lost.** As long as the main thread is in `talk_say`, one of the threads can go on
without being woken by chance, or the daemon has not answered yet. -/
theorem talk_no_deadlock (h : Reaches init s) (hmain : s.main ≠ .idle) :
    (∃ s', s.step .main = some s') ∨ (∃ s', s.step .reader = some s') ∨ s.pending ≠ [] := by
  have hinv := inv_init.reaches h
  have hasked := hinv.asked
  change (∃ s', s.mainStep = some s') ∨ (∃ s', s.readerStep = some s') ∨ s.pending ≠ []
  cases hpc : s.main with
  | idle => exact absurd hpc hmain
  | getLock msg =>
    rcases hinv.recv_progress (by simp [hpc, MainPc.HasRecv]) with hnone | hs
    · left
      rw [Talk.mainStep.eq_def, hpc]
      simp only [hnone, if_true]
      exact ⟨_, rfl⟩
    · exact .inr (.inl hs)
  | getCheck msg =>
    left
    rw [Talk.mainStep.eq_def, hpc]
    cases s.xmlTag with
    | none => exact ⟨_, rfl⟩
    | some tag => exact ⟨_, rfl⟩
  | getAsleep msg =>
    rw [hpc] at hasked
    rcases hasked with ⟨hpending, -⟩ | ⟨tag, -, hin, -⟩
    · exact .inr (.inr (by simp [hpending]))
    · exact .inr (.inl (hinv.reader_progress hpc hin))
  | getAwake msg =>
    rcases hinv.recv_progress (by simp [hpc, MainPc.HasRecv]) with hnone | hs
    · left
      rw [Talk.mainStep.eq_def, hpc]
      simp only [hnone, if_true]
      exact ⟨_, rfl⟩
    · exact .inr (.inl hs)
  | getUnlock msg => exact .inl ⟨_, by rw [Talk.mainStep.eq_def, hpc]⟩
  | getReturn msg =>
    rw [hpc] at hasked
    obtain ⟨tag, -, hx⟩ := hasked
    left
    rw [Talk.mainStep.eq_def, hpc]
    simp only [hx, Option.map_some]
    exact ⟨_, rfl⟩
  | func msg tag => exact .inl ⟨_, by rw [Talk.mainStep.eq_def, hpc]⟩
  | contClear => exact .inl ⟨_, by rw [Talk.mainStep.eq_def, hpc]⟩
  | contLock =>
    rcases hinv.cont_progress (by simp [hpc, MainPc.HasCont]) with hnone | hs
    · left
      rw [Talk.mainStep.eq_def, hpc]
      simp only [hnone, if_true]
      exact ⟨_, rfl⟩
    · exact .inr (.inl hs)
  | contSignal => exact .inl ⟨_, by rw [Talk.mainStep.eq_def, hpc]⟩
  | contUnlock => exact .inl ⟨_, by rw [Talk.mainStep.eq_def, hpc]⟩

/-- The reader sleeps, and the main thread has not signalled yet that it is done. -/
theorem talk_no_deadlock_asleep : ∃ s : Talk, Reaches init s ∧ s.reader = .contAsleep ∧
    s.main = .contLock ∧ ((∃ s', s.step .main = some s') ∨ (∃ s', s.step .reader = some s') ∨
      s.pending ≠ []) := by
  let tag := mbbXmlMsgOk
  have h : Reaches init _ := .head ⟨.say (literal "<request/>"), rfl⟩ <| .head ⟨.answer tag, rfl⟩ <|
    .head ⟨.reader, rfl⟩ <| .head ⟨.reader, rfl⟩ <| .head ⟨.reader, rfl⟩ <| .head ⟨.reader, rfl⟩ <|
    .head ⟨.reader, rfl⟩ <| .head ⟨.reader, rfl⟩ <| .head ⟨.reader, rfl⟩ <| .head ⟨.main, rfl⟩ <|
    .head ⟨.main, rfl⟩ <| .head ⟨.main, rfl⟩ <| .head ⟨.main, rfl⟩ <| .head ⟨.main, rfl⟩ <|
    .single ⟨.main, rfl⟩
  exact ⟨_, h, rfl, rfl, talk_no_deadlock h (by simp)⟩

end Talk

end Mbb
