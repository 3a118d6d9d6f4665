import Mbb.XmlClient

/-!
# Runs of the thread of a client

What the thread itself pushes is one answer for each element, in order, behind what a method of
authentication has pushed for it, and besides at most one message for a kill and one for text that
is not XML. The latter ends what is read; the former does so but for what one more `read` gives. Log
messages may stand anywhere between them.
-/

namespace Mbb

open Markup

/-- Of the messages pushed, those of the thread itself. -/
def ownMessages (pushes : List (Bool × List UInt8)) : List (List UInt8) :=
  (pushes.filter Prod.fst).map Prod.snd

theorem ownMessages_append (pushes pushes' : List (Bool × List UInt8)) :
    ownMessages (pushes ++ pushes') = ownMessages pushes ++ ownMessages pushes' := by
  rw [ownMessages, List.filter_append, List.map_append]
  rfl

theorem ownMessages_concat (pushes : List (Bool × List UInt8)) (own : Bool) (text : List UInt8) :
    ownMessages (pushes ++ [(own, text)]) = ownMessages pushes ++ if own then [text] else [] := by
  rw [ownMessages_append]
  cases own <;> rfl

variable [Glib] [HashOrder]

/-- For elements, one after the other, what a method of authentication pushes, and the answer. -/
def answers : List (XmlTag × Outside) → Option Int → List (List UInt8)
  | [], _ => []
  | (tag, o) :: served, user =>
    ownMessages (processXml o tag user).pushed ++
      utf8Bytes (processXml o tag user).answer :: answers served (processXml o tag user).user

/-- The user after elements. -/
def userAfter : List (XmlTag × Outside) → Option Int → Option Int
  | [], user => user
  | (tag, o) :: served, user => userAfter served (processXml o tag user).user

theorem answers_append (l l' : List (XmlTag × Outside)) (user : Option Int) :
    answers (l ++ l') user = answers l user ++ answers l' (userAfter l user) := by
  induction l generalizing user with
  | nil => rfl
  | cons p l ih =>
    rw [List.cons_append, answers, ih, answers, userAfter, List.append_assoc, List.cons_append]

theorem userAfter_append (l l' : List (XmlTag × Outside)) (user : Option Int) :
    userAfter (l ++ l') user = userAfter l' (userAfter l user) := by
  induction l generalizing user with
  | nil => rfl
  | cons p l ih => rw [List.cons_append, userAfter, ih, userAfter]

/-- Only authentication changes the user. -/
theorem user_processXml (o : Outside) (tag : XmlTag) (user : Option Int) :
    (processXml o tag user).user = (authenticates o tag).or user := by
  unfold processXml authenticates
  by_cases hauth : tag.name = literal "auth"
  · rw [if_pos hauth, if_pos hauth, processAuth]
    obtain ⟨login, secret, type⟩ := authArgs tag
    cases login with
    | none => rfl
    | some login =>
      dsimp only
      cases o.auth login secret type <;> rfl
  · rw [if_neg hauth, if_neg hauth, Option.none_or]
    split
    · cases user with
      | none => rfl
      | some id =>
        simp only [processXmlRequest]
        split <;> rfl
    · rfl

/-- A call is made for the user of the session. -/
theorem user_of_call {o : Outside} {tag : XmlTag} {user : Option Int} {id : Int}
    {name : Option CStr} (h : (processXml o tag user).call = some (id, name)) : user = some id := by
  unfold processXml at h
  split at h
  · rw [processAuth] at h
    split at h
    · cases h
    · split at h <;> cases h
  · split at h
    · cases user with
      | none => cases h
      | some id' =>
        simp only [processXmlRequest] at h
        split at h
        · cases h
        · cases h
          rfl
    · cases h

/-- Who is the user is who was authenticated last. -/
theorem exists_auth_of_userAfter {l : List (XmlTag × Outside)} {user : Option Int} {id : Int}
    (h : userAfter l user = some id) :
    (user = some id ∧ ∀ p ∈ l, authenticates p.2 p.1 = none) ∨
    ∃ before p after, l = before ++ p :: after ∧ authenticates p.2 p.1 = some id ∧
      ∀ q ∈ after, authenticates q.2 q.1 = none := by
  induction l generalizing user with
  | nil => exact .inl ⟨h, List.forall_mem_nil _⟩
  | cons p l ih =>
    rw [userAfter, user_processXml] at h
    rcases ih h with ⟨huser, hnone⟩ | ⟨before, q, after, rfl, hq, hafter⟩
    · cases hauth : authenticates p.2 p.1 with
      | none =>
        rw [hauth, Option.none_or] at huser
        exact .inl ⟨huser, List.forall_mem_cons.mpr ⟨hauth, hnone⟩⟩
      | some id' =>
        rw [hauth, Option.some_or] at huser
        exact .inr ⟨[], p, l, rfl, hauth.trans huser, hnone⟩
    · exact .inr ⟨p :: before, q, after, rfl, hq, hafter⟩

/-- The thread has asked for bytes to read, or has not done with those that it has read. -/
def ClientLoc.Reading : ClientLoc → Prop
  | .poll pollin _ => pollin = true
  | .read _ => True
  | .parse _ _ _ => True
  | _ => False

/-- How often bytes will be read before the thread is back at the head of the loop, at most. -/
def ClientLoc.asks : ClientLoc → ℕ
  | .poll true _ => 1
  | .read _ => 1
  | _ => 0

namespace XmlClient

variable {s s' : XmlClient}

/-- What the thread has pushed. -/
def Messages (s : XmlClient) : Prop :=
  ∃ before after kill err, s.served = before ++ after ∧
    ownMessages s.pushes =
      answers before none ++ kill ++ answers after (userAfter before none) ++ err ∧
    (kill = [] ∧ after = [] ∨ ∃ msg, kill = [utf8Bytes (killMessage msg)]) ∧
    (err = [] ∨ err = [utf8Bytes invalidXmlMessage] ∧ ¬ s.loc.Reading) ∧
    (s.sendOnly = false ↔ kill = [] ∧ err = [])

/-- Calls are made for the user after the elements before. -/
def CallsAfter (served : List (XmlTag × Outside)) (calls : List (ℕ × Int × Option CStr)) : Prop :=
  ∀ c ∈ calls, c.1 < served.length ∧ userAfter (served.take c.1) none = some c.2.1

/-- All but log messages that came last has been sent. -/
def Drained (s : XmlClient) : Prop :=
  ∃ sent rest, s.pushes = sent ++ rest ∧ s.queue.accepted = (sent.map Prod.snd).flatten ∧
    ∀ p ∈ rest, p.1 = false

/-- What holds in every state. -/
structure Inv (s : XmlClient) : Prop where
  /-- the queue -/
  queue : s.queue.Inv
  /-- what has been pushed to the queue -/
  pushed : s.pushes.map Prod.snd = s.queue.pushed
  /-- the user -/
  user : s.user = userAfter s.served none
  /-- the tags of the parser are the elements that have been answered -/
  given : s.parser.given = s.served.map Prod.fst
  /-- the messages of the thread -/
  messages : s.Messages
  /-- the calls -/
  calls : CallsAfter s.served s.calls
  /-- the queue is not popped anywhere else -/
  idle : s.loc ≠ .popping → s.queue.pop = .idle
  /-- so it is when the loop is left with nothing to send -/
  drained : s.loc = .quit true → s.Drained

theorem inv_start : start.Inv where
  queue := MsgQueue.inv_new
  pushed := rfl
  user := rfl
  given := rfl
  messages := ⟨[], [], [], [], rfl, rfl, .inl ⟨rfl, rfl⟩, .inl rfl, by simp [start]⟩
  calls := List.forall_mem_nil _
  idle _ := rfl
  drained h := by cases h

/-- The thread goes on elsewhere, or what it is told by others changes. -/
theorem Inv.move (h : s.Inv) {loc : ClientLoc} (killed : Bool) (killMsg : Option CStr)
    (reads : ℕ) {parser : XmlParser} (hgiven : parser.given = s.parser.given)
    (hread : s.sendOnly = true → loc.Reading → s.loc.Reading)
    (hidle : loc ≠ .popping → s.queue.pop = .idle) (hdrained : loc = .quit true → s.Drained) :
    Inv { s with loc, killed, killMsg, reads, parser } where
  queue := h.queue
  pushed := h.pushed
  user := h.user
  given := hgiven.trans h.given
  messages := by
    obtain ⟨before, after, kill, err, hserved, hown, hkill, herr, hsend⟩ := h.messages
    refine ⟨before, after, kill, err, hserved, hown, hkill, ?_, hsend⟩
    rcases herr with rfl | ⟨rfl, hloc⟩
    · exact .inl rfl
    · refine .inr ⟨rfl, fun hr => hloc (hread ?_ hr)⟩
      cases hs : s.sendOnly with
      | true => rfl
      | false => cases (hsend.mp hs).2
  calls := h.calls
  idle := hidle
  drained := hdrained

omit [Glib] [HashOrder] in
theorem pushed_push (h : s.pushes.map Prod.snd = s.queue.pushed) (own : Bool) (type : MsgType)
    (text : List UInt8) :
    (s.push own type text).pushes.map Prod.snd = (s.push own type text).queue.pushed := by
  change (s.pushes ++ [(own, text)]).map Prod.snd = s.queue.pushed ++ [text]
  rw [List.map_append, h]
  rfl

omit [Glib] [HashOrder] in
/-- The queue, after messages that are pushed while an element is answered. -/
theorem queue_pushMeanwhile {queue : MsgQueue} (h : queue.Inv)
    (pushed : List (Bool × List UInt8)) :
    let queue' := pushed.foldl
      (fun queue p => queue.push (if p.1 then .alloc else .shared) p.2) queue
    queue'.Inv ∧ queue'.pushed = queue.pushed ++ pushed.map Prod.snd ∧ queue'.pop = queue.pop := by
  induction pushed generalizing queue with
  | nil => exact ⟨h, (List.append_nil _).symm, rfl⟩
  | cons p pushed ih =>
    obtain ⟨hinv, hpushed, hpop⟩ := ih (h.push (if p.1 then .alloc else .shared) p.2)
    refine ⟨hinv, hpushed.trans ?_, hpop⟩
    exact List.append_assoc queue.pushed [p.2] _

/-- Another thread pushes a message. -/
theorem Inv.log (h : s.Inv) (text : List UInt8) : (s.push false .shared text).Inv where
  queue := h.queue.push _ _
  pushed := pushed_push h.pushed ..
  user := h.user
  given := h.given
  messages := by
    obtain ⟨before, after, kill, err, hserved, hown, hrest⟩ := h.messages
    refine ⟨before, after, kill, err, hserved, ?_, hrest⟩
    change ownMessages (s.pushes ++ [(false, text)]) = _
    rw [ownMessages_concat, hown]
    exact List.append_nil _
  calls := h.calls
  idle := h.idle
  drained hloc := by
    obtain ⟨sent, rest, hpushes, haccepted, hlog⟩ := h.drained hloc
    refine ⟨sent, rest ++ [(false, text)], ?_, haccepted, ?_⟩
    · change s.pushes ++ [(false, text)] = _
      rw [hpushes, List.append_assoc]
    · intro p hp
      rcases List.mem_append.mp hp with hp | hp
      · exact hlog p hp
      · rw [List.mem_singleton.mp hp]

/-- The thread itself pushes a message, when it does not pop. -/
theorem inv_tell (hqueue : s.queue.Inv) (hpushed : s.pushes.map Prod.snd = s.queue.pushed)
    (type : MsgType) (text : List UInt8) {loc : ClientLoc}
    {sendOnly : Bool} {user : Option Int} {served : List (XmlTag × Outside)}
    {calls : List (ℕ × Int × Option CStr)} {parser : XmlParser}
    (hidle : s.queue.pop = .idle) (hquit : loc ≠ .quit true) (huser : user = userAfter served none)
    (hgiven : parser.given = served.map Prod.fst)
    (hcalls : CallsAfter served calls)
    (hmessages : Messages
      { s.push true type text with loc, sendOnly, user, served, calls, parser }) :
    Inv { s.push true type text with loc, sendOnly, user, served, calls, parser } where
  queue := hqueue.push _ _
  pushed := pushed_push hpushed ..
  user := huser
  given := hgiven
  messages := hmessages
  calls := hcalls
  idle _ := hidle
  drained hloc := absurd hloc hquit

/-- The session has been killed, and the thread has not sent the message yet. -/
theorem Inv.kill (h : s.Inv) (hloc : s.loc = .head) (hsend : s.sendOnly = false) :
    Inv { s.push true (killType s.killMsg) (utf8Bytes (killMessage s.killMsg)) with
      sendOnly := true, loc := .poll true true } := by
  refine inv_tell h.queue h.pushed _ _ (h.idle (by simp [hloc])) (by simp) h.user h.given h.calls ?_
  obtain ⟨before, after, kill, err, hserved, hown, hkill, -, hnone⟩ := h.messages
  obtain ⟨rfl, rfl⟩ := hnone.mp hsend
  obtain rfl : after = [] := by simpa using hkill
  refine ⟨before, [], _, [], hserved, ?_, .inr ⟨s.killMsg, rfl⟩, .inl rfl, by simp⟩
  change ownMessages (s.pushes ++ [(true, _)]) = _
  rw [ownMessages_concat, hown]
  simp [answers]

/-- Text that is not XML. -/
theorem Inv.invalidXml (h : s.Inv) (hloc : s.loc ≠ .popping) (hreading : s.loc.Reading) :
    s.invalidXml.Inv := by
  refine inv_tell h.queue h.pushed _ _ (h.idle hloc) (by simp) h.user h.given h.calls ?_
  obtain ⟨before, after, kill, err, hserved, hown, hkill, herr, -⟩ := h.messages
  obtain rfl : err = [] := herr.resolve_right fun hr => hr.2 hreading
  refine ⟨before, after, kill, _, hserved, ?_, hkill, .inr ⟨rfl, id⟩, by simp⟩
  change ownMessages (s.pushes ++ [(true, _)]) = _
  rw [ownMessages_concat, hown, List.append_nil]
  rfl

theorem CallsAfter.concat {served : List (XmlTag × Outside)} {calls : List (ℕ × Int × Option CStr)}
    (h : CallsAfter served calls) (tag : XmlTag) (o : Outside) :
    CallsAfter (served ++ [(tag, o)]) (calls ++ ((processXml o tag (userAfter served none)).call.map
      fun c => (served.length, c)).toList) := by
  intro c hc
  rw [List.length_append, List.length_singleton]
  rcases List.mem_append.mp hc with hc | hc
  · obtain ⟨hlt, huser⟩ := h c hc
    rw [List.take_append_of_le_length hlt.le]
    exact ⟨by omega, huser⟩
  · obtain ⟨call, hcall, rfl⟩ := Option.map_eq_some_iff.mp (Option.mem_toList.mp hc)
    rw [List.take_left]
    exact ⟨by omega, user_of_call hcall⟩

/-- An element is answered. -/
theorem Inv.serve (h : s.Inv) (hreading : s.loc.Reading) (hpop : s.loc ≠ .popping)
    {parser : XmlParser} (o : Outside) {tag : XmlTag}
    (hgiven : parser.given = s.parser.given ++ [tag]) (events : List Event)
    (wellFormed pollout : Bool) :
    (serve { s with parser, loc := .parse events wellFormed pollout } o tag).Inv := by
  have huser : (processXml o tag s.user).user = userAfter (s.served ++ [(tag, o)]) none := by
    rw [userAfter_append, ← h.user]
    rfl
  obtain ⟨hqueue, hpushed, hidle⟩ := queue_pushMeanwhile h.queue (processXml o tag s.user).pushed
  refine inv_tell (s := pushMeanwhile _ _) hqueue ?_ _ _ (hidle.trans (h.idle hpop))
    (fun hquit => by cases hquit) huser ?_ ?_ ?_
  · change (s.pushes ++ _).map Prod.snd = _
    rw [List.map_append, h.pushed]
    exact hpushed.symm
  · change parser.given = (s.served ++ [(tag, o)]).map Prod.fst
    rw [hgiven, h.given, List.map_append]
    rfl
  · have hcalls := h.calls.concat tag o
    rwa [← h.user] at hcalls
  · obtain ⟨before, after, kill, err, hserved, hown, hkill, herr, hsend⟩ := h.messages
    obtain rfl : err = [] := herr.resolve_right fun hr => hr.2 hreading
    have hanswer : ownMessages (s.pushes ++ (processXml o tag s.user).pushed ++
        [(true, utf8Bytes (processXml o tag s.user).answer)]) =
          answers before none ++ kill ++ answers (after ++ [(tag, o)]) (userAfter before none) := by
      rw [ownMessages_concat, ownMessages_append, hown, answers_append, ← userAfter_append,
        ← hserved, ← h.user]
      simp [answers]
    rcases hkill with ⟨rfl, rfl⟩ | hkill
    · refine ⟨before ++ [(tag, o)], [], [], [], ?_, ?_, .inl ⟨rfl, rfl⟩, .inl rfl, hsend⟩
      · change s.served ++ _ = _
        rw [hserved, List.append_nil, List.append_nil]
      · refine hanswer.trans ?_
        rw [List.nil_append, List.append_nil, answers_append, List.append_nil]
        simp [answers]
    · refine ⟨before, after ++ [(tag, o)], kill, [], ?_, ?_, .inr hkill, .inl rfl, hsend⟩
      · change s.served ++ _ = _
        rw [hserved, List.append_assoc]
      · refine hanswer.trans ?_
        rw [List.append_nil]

omit [HashOrder] in
/-- A callback closes at most one tag at the outside. -/
theorem given_callback {parser parser' : XmlParser} {e : Event}
    (h : callback parser e = .ok parser') :
    parser'.given = parser.given ∨ ∃ tag, parser'.given = parser.given ++ [tag] := by
  cases e with
  | start name attrs =>
    obtain rfl := Except.ok.inj h
    rw [parserStartElem]
    split <;> exact .inl rfl
  | text text =>
    rw [callback, parserText] at h
    split at h
    · cases h
      exact .inl rfl
    · split at h
      · cases h
      · cases h
        exact .inl rfl
  | finish name =>
    rw [callback, parserEndElem] at h
    split at h
    · cases h
    · split at h
      · cases h
      · split at h
        · cases h
        · split at h
          · cases h
            exact .inr ⟨_, rfl⟩
          · cases h
            exact .inl rfl

theorem Inv.event (h : s.Inv) {o : Outside} {e : Event} {events : List Event}
    {wellFormed pollout : Bool} (hloc : s.loc = .parse (e :: events) wellFormed pollout)
    (hs : s.event o e events wellFormed pollout = some s') : s'.Inv := by
  have hreading : s.loc.Reading := by rw [hloc]; trivial
  have hpop : s.loc ≠ .popping := by rw [hloc]; simp
  rw [XmlClient.event] at hs
  split at hs
  · cases hs
  · cases hs
    exact h.invalidXml hpop hreading
  · rename_i parser hcallback
    rcases given_callback hcallback with hgiven | ⟨tag, hgiven⟩
    · rw [hgiven, List.drop_length] at hs
      cases hs
      exact h.move _ _ _ hgiven (fun _ _ => hreading) (fun _ => h.idle hpop) (by simp)
    · rw [hgiven, List.drop_left] at hs
      cases hs
      exact h.serve hreading hpop o hgiven events wellFormed pollout

/-- A part of `mbb_msg_queue_pop`. -/
theorem Inv.queueStep (h : s.Inv) {c : MsgStep} {queue : MsgQueue} {loc : ClientLoc}
    (hc : s.queue.step c = some queue) (hpushed : queue.pushed = s.queue.pushed)
    (hreading : ¬ loc.Reading) (hidle : loc ≠ .popping → queue.pop = .idle)
    (hquit : loc ≠ .quit true) : Inv { s with queue, loc } where
  queue := h.queue.step hc
  pushed := h.pushed.trans hpushed.symm
  user := h.user
  given := h.given
  messages := by
    obtain ⟨before, after, kill, err, hserved, hown, hkill, herr, hsend⟩ := h.messages
    exact ⟨before, after, kill, err, hserved, hown, hkill,
      herr.imp_right fun he => ⟨he.1, hreading⟩,
      hsend⟩
  calls := h.calls
  idle := hidle
  drained hloc := absurd hloc hquit

/-- An empty queue has been sent. -/
theorem Inv.drained_of_isEmpty (h : s.Inv) (hidle : s.queue.pop = .idle)
    (hempty : s.isEmpty = true) : s.Drained := by
  obtain ⟨rest, hrest, hqueued⟩ := h.queue.bytes
  have hnil : s.queue.queued = [] := by
    rw [MsgQueue.queued, MsgQueue.view, List.isEmpty_iff.mp hempty]
    rfl
  have hun : s.queue.unrecorded = [] := by rw [MsgQueue.unrecorded, hidle]
  rw [hnil, hun, List.nil_append] at hqueued
  refine ⟨s.pushes, [], (List.append_nil _).symm, ?_, List.forall_mem_nil _⟩
  rw [h.pushed, ← hrest, ← hqueued, List.append_nil]

theorem Inv.enterPoll (h : s.Inv) (hloc : s.loc = .head) : s.enterPoll.Inv := by
  have hidle := h.idle (by simp [hloc])
  rw [XmlClient.enterPoll]
  split
  · rename_i hempty
    split
    · exact h.move _ _ _ rfl (fun _ hr => absurd hr id) (fun _ => hidle)
        fun _ => h.drained_of_isEmpty hidle hempty
    · rename_i hsend
      exact h.move _ _ _ rfl (fun hs => absurd hs hsend) (fun _ => hidle) (by simp)
  · refine h.move _ _ _ rfl (fun hs hr => ?_) (fun _ => hidle) (by simp)
    rw [hs] at hr
    cases hr

theorem Inv.top (h : s.Inv) (hloc : s.loc = .head) : s.top.Inv := by
  rw [XmlClient.top]
  split
  · rename_i hkill
    rw [Bool.and_eq_true, Bool.not_eq_true'] at hkill
    exact h.kill hloc hkill.2
  · exact h.enterPoll hloc

theorem Inv.afterRead (h : s.Inv) (hloc : s.loc ≠ .popping) (pollout : Bool) :
    (s.afterRead pollout).Inv := by
  have hidle := h.idle hloc
  rw [XmlClient.afterRead]
  cases pollout with
  | true => exact h.move _ _ _ rfl (fun _ hr => absurd hr id) (fun _ => hidle) (by simp)
  | false => exact h.move _ _ _ rfl (fun _ hr => absurd hr id) (fun _ => hidle) (by simp)

/-- `poll` returns: the thread goes on elsewhere, and reads only if it has asked for that. -/
theorem poll_cases {result : PollResult} (hs : s.step (.poll result) = some s') :
    ∃ loc, s' = { s with loc } ∧ s.loc ≠ .popping ∧ loc ≠ .popping ∧ loc ≠ .quit true ∧
      loc.asks ≤ s.loc.asks ∧ (loc.Reading → s.loc.Reading) := by
  simp only [step] at hs
  split at hs
  · rename_i pollin pollout hloc
    split at hs
    · cases hs
      exact ⟨_, rfl, by simp [hloc], by simp, by simp, Nat.zero_le _, fun hr => absurd hr id⟩
    · cases hs
      exact ⟨_, rfl, by simp [hloc], by simp, by simp, Nat.zero_le _, fun hr => absurd hr id⟩
    · split at hs
      · cases hs
      · rename_i rin rout hasked
        split at hs
        · rename_i hrin
          cases hs
          have hask : pollin = true ∧ (rout = true → pollout = true) := by
            simpa [hrin] using hasked
          rw [hask.1] at hloc
          rw [hloc]
          exact ⟨_, rfl, by simp, by simp, by simp, le_rfl, fun _ => rfl⟩
        · cases hs
          refine ⟨_, rfl, by simp [hloc], ?_⟩
          cases rout with
          | true => exact ⟨by simp, by simp, Nat.zero_le _, fun hr => absurd hr id⟩
          | false => exact ⟨by simp, by simp, Nat.zero_le _, fun hr => absurd hr id⟩
  · cases hs

theorem Inv.poll (h : s.Inv) {result : PollResult}
    (hs : s.step (.poll result) = some s') : s'.Inv := by
  obtain ⟨loc, rfl, hpop, -, hquit, -, hreading⟩ := poll_cases hs
  exact h.move _ _ _ rfl (fun _ => hreading) (fun _ => h.idle hpop) fun hloc => absurd hloc hquit

theorem Inv.read (h : s.Inv) {result : Option (List Event × Bool)}
    (hs : s.step (.read result) = some s') : s'.Inv := by
  simp only [step] at hs
  split at hs
  · rename_i pollout hloc
    have hidle := h.idle (by simp [hloc])
    split at hs
    · cases hs
      exact h.move _ _ _ rfl (fun _ hr => absurd hr id) (fun _ => hidle) (by simp)
    · cases hs
      refine h.move _ _ _ rfl (fun _ _ => ?_) (fun _ => hidle) (by simp)
      rw [hloc]
      trivial
  · cases hs

theorem Inv.peek (h : s.Inv) (hs : s.step .peek = some s') : s'.Inv := by
  simp only [step] at hs
  split at hs
  · rename_i hloc
    obtain ⟨queue, hqueue, rfl⟩ := Option.map_eq_some_iff.mp hs
    have hidle := h.idle (by simp [hloc])
    have hpeek : queue = s.queue.peek := by simpa [MsgQueue.step, hidle] using hqueue.symm
    have hpushed : queue.pushed = s.queue.pushed := by
      rw [hpeek, MsgQueue.peek]
      split <;> rfl
    refine h.queueStep hqueue hpushed ?_ ?_ ?_
    · split <;> exact id
    · intro hne
      split at hne
      · rename_i hempty
        rw [hpeek, MsgQueue.peek, List.isEmpty_iff.mp hempty]
        exact hidle
      · exact absurd rfl hne
    · split <;> simp
  · cases hs

theorem Inv.send (h : s.Inv) {n : Int} (hs : s.step (.send n) = some s') : s'.Inv := by
  simp only [step] at hs
  split at hs
  · rename_i hloc
    obtain ⟨queue, hqueue, rfl⟩ := Option.map_eq_some_iff.mp hs
    have hpushed : queue.pushed = s.queue.pushed := by
      simp only [MsgQueue.step, MsgQueue.send] at hqueue
      split at hqueue
      · split at hqueue
        · cases hqueue
        · split at hqueue
          · cases hqueue
            rfl
          · cases hqueue
      · cases hqueue
    refine h.queueStep hqueue hpushed ?_ ?_ ?_
    · rw [hloc]
      exact id
    · exact fun hne => absurd hloc hne
    · simp [hloc]
  · cases hs

theorem Inv.record (h : s.Inv) (hs : s.step .record = some s') : s'.Inv := by
  simp only [step] at hs
  split at hs
  · rename_i e len n hloc hpop
    obtain ⟨queue, hqueue, rfl⟩ := Option.map_eq_some_iff.mp hs
    have hrecord : queue = s.queue.record e len n := by
      simpa [MsgQueue.step, hpop] using hqueue.symm
    have hdone : queue.pushed = s.queue.pushed ∧ queue.pop = .idle := by
      rw [hrecord, MsgQueue.record]
      split
      · split <;> exact ⟨rfl, rfl⟩
      · exact ⟨rfl, rfl⟩
    refine h.queueStep hqueue hdone.1 ?_ (fun _ => hdone.2) ?_
    · split <;> exact id
    · split <;> simp
  · cases hs

theorem Inv.step (h : s.Inv) {c : ClientStep} (hs : s.step c = some s') : s'.Inv := by
  cases c with
  | kill msg =>
    cases hs
    exact h.move _ _ _ rfl (fun _ hr => hr) h.idle h.drained
  | log text =>
    cases hs
    exact h.log text
  | top =>
    simp only [XmlClient.step] at hs
    split at hs
    · rename_i hloc
      cases hs
      exact h.top hloc
    · cases hs
  | poll result => exact h.poll hs
  | read result => exact h.read hs
  | event o =>
    simp only [XmlClient.step] at hs
    split at hs
    · rename_i hloc
      exact h.event hloc hs
    · cases hs
  | parsed =>
    simp only [XmlClient.step] at hs
    split at hs
    · rename_i wellFormed pollout hloc
      cases hs
      cases wellFormed with
      | true => exact h.afterRead (by simp [hloc]) pollout
      | false => exact h.invalidXml (by simp [hloc]) (by rw [hloc]; trivial)
    · cases hs
  | peek => exact h.peek hs
  | send n => exact h.send hs
  | record => exact h.record hs

theorem Inv.reaches (h : s.Inv) (hs : Reaches s s') : s'.Inv := by
  induction hs with
  | refl => exact h
  | tail _ hstep ih =>
    obtain ⟨c, hc⟩ := hstep
    exact ih.step hc

/-- **What a client gets.** Of its own the thread pushes one answer for each element that it was
given, in order, behind what a method of authentication has pushed for it, and besides at most one
message for a kill, and last at most one for text that is not XML. What the socket has taken is
always a part of what was pushed, from its start on; and when the loop ends because nothing is left
to send, all of it has been taken but for log messages that were pushed last. -/
theorem client_messages (h : Reaches start s) :
    s.parser.given = s.served.map Prod.fst ∧
    (∃ before after kill err, s.served = before ++ after ∧
      ownMessages s.pushes =
        answers before none ++ kill ++ answers after (userAfter before none) ++ err ∧
      (kill = [] ∧ after = [] ∨ ∃ msg, kill = [utf8Bytes (killMessage msg)]) ∧
      (err = [] ∨ err = [utf8Bytes invalidXmlMessage])) ∧
    (∃ rest, s.queue.accepted ++ rest = (s.pushes.map Prod.snd).flatten) ∧
    (s.loc = .quit true → ∃ sent rest, s.pushes = sent ++ rest ∧
      s.queue.accepted = (sent.map Prod.snd).flatten ∧ ∀ p ∈ rest, p.1 = false) := by
  have hinv := inv_start.reaches h
  refine ⟨hinv.given, ?_, ?_, hinv.drained⟩
  · obtain ⟨before, after, kill, err, hserved, hown, hkill, herr, -⟩ := hinv.messages
    exact ⟨before, after, kill, err, hserved, hown, hkill, herr.imp_right And.left⟩
  · obtain ⟨rest, hrest, -⟩ := hinv.queue.bytes
    exact ⟨rest, by rw [hrest, hinv.pushed]⟩

/-- A daemon that knows one user, and no method. -/
def exampleOutside : Outside := ⟨fun _ _ _ => some 7, fun _ _ _ => [], fun _ _ _ => none⟩

/-- The same, with salt for who has not told a secret. -/
def exampleSalt : Outside :=
  { exampleOutside with
    auth := fun _ secret _ => secret.map fun _ => 7
    pushed := fun _ secret _ =>
      if secret.isNone then [(true, utf8Bytes "<salt>x</salt>".toList)] else [] }

/-- A request, as GMarkup reports it. -/
def exampleEvents : List Event :=
  [.start "auth".toList [("login".toList, "x".toList)], .finish "auth".toList,
    .start "request".toList [("name".toList, "y".toList)], .finish "request".toList]

omit [Glib] [HashOrder] in
theorem client_messages_kill :
    letI := Glib.plain
    letI := HashOrder.plain
    ∃ s, Reaches start s ∧ s.served.length = 2 ∧ (ownMessages s.pushes).length = 4 ∧
      ∃ before after kill err, s.served = before ++ after ∧
        ownMessages s.pushes =
          answers before none ++ kill ++ answers after (userAfter before none) ++ err ∧
        (kill = [] ∧ after = [] ∨ ∃ msg, kill = [utf8Bytes (killMessage msg)]) ∧
        (err = [] ∨ err = [utf8Bytes invalidXmlMessage]) := by
  let _ := Glib.plain
  let _ := HashOrder.plain
  have h : Reaches start _ := .head ⟨.top, rfl⟩ <| .head ⟨.poll (.events true false), rfl⟩ <|
    .head ⟨.read (some (exampleEvents, true)), rfl⟩ <| .head ⟨.event exampleSalt, rfl⟩ <|
    .head ⟨.event exampleSalt, rfl⟩ <| .head ⟨.event exampleSalt, rfl⟩ <|
    .head ⟨.event exampleSalt, rfl⟩ <| .head ⟨.kill none, rfl⟩ <| .head ⟨.parsed, rfl⟩ <|
    .single ⟨.top, rfl⟩
  exact ⟨_, h, rfl, rfl, (client_messages h).2.1⟩

/-- **No call without authentication.** Each call is made for the user that the last element before
the request that authenticated anyone has authenticated. -/
theorem calls_authenticated (h : Reaches start s) {k : ℕ} {id : Int} {name : Option CStr}
    (hcall : (k, id, name) ∈ s.calls) :
    ∃ before p between q after, s.served = before ++ p :: between ++ q :: after ∧
      (before ++ p :: between).length = k ∧ authenticates p.2 p.1 = some id ∧
      ∀ r ∈ between, authenticates r.2 r.1 = none := by
  obtain ⟨hlt, huser⟩ := (inv_start.reaches h).calls _ hcall
  rcases exists_auth_of_userAfter huser with ⟨hnone, -⟩ | ⟨before, p, between, hsplit, hp, hno⟩
  · cases hnone
  · refine ⟨before, p, between, s.served[k], s.served.drop (k + 1), ?_, ?_, hp, hno⟩
    · rw [← hsplit, List.cons_getElem_drop_succ, List.take_append_drop]
    · rw [← hsplit, List.length_take]
      omega

omit [Glib] [HashOrder] in
theorem calls_authenticated_one :
    letI := Glib.plain
    letI := HashOrder.plain
    ∃ s, Reaches start s ∧ (1, 7, some (literal "y")) ∈ s.calls ∧
      ∃ before p between q after, s.served = before ++ p :: between ++ q :: after ∧
        (before ++ p :: between).length = 1 ∧ authenticates p.2 p.1 = some 7 ∧
        ∀ r ∈ between, authenticates r.2 r.1 = none := by
  let _ := Glib.plain
  let _ := HashOrder.plain
  have h : Reaches start _ := .head ⟨.top, rfl⟩ <| .head ⟨.poll (.events true false), rfl⟩ <|
    .head ⟨.read (some (exampleEvents, true)), rfl⟩ <| .head ⟨.event exampleOutside, rfl⟩ <|
    .head ⟨.event exampleOutside, rfl⟩ <| .head ⟨.event exampleOutside, rfl⟩ <|
    .single ⟨.event exampleOutside, rfl⟩
  have hcall : (1, 7, some (literal "y")) ∈ [(1, (7 : Int), some (literal "y"))] :=
    List.mem_singleton_self _
  exact ⟨_, h, hcall, calls_authenticated h hcall⟩

/-! ## Killed sessions

After a kill the thread notices at its next turn. Until then one more `read` may give events that
are served.
-/

/-- How often the thread of a killed session will have read at most. -/
def readsLeft (s : XmlClient) : ℕ := s.reads + (if s.sendOnly then 0 else 1) + s.loc.asks

omit [Glib] [HashOrder] in
theorem readsLeft_le (hreads : s'.reads = s.reads) (hsend : s.sendOnly = true → s'.sendOnly = true)
    (hasks : s'.loc.asks ≤ s.loc.asks) : s'.readsLeft ≤ s.readsLeft := by
  rw [readsLeft, readsLeft, hreads]
  cases hs : s.sendOnly with
  | true =>
    rw [hsend hs]
    omega
  | false =>
    split <;> simp only [Bool.false_eq_true, if_false] <;> omega

omit [HashOrder] in
theorem readsLeft_top (hk : s.killed = true) (hloc : s.loc = .head) :
    s.top.killed = true ∧ s.top.readsLeft ≤ s.readsLeft := by
  rw [XmlClient.top, hk]
  cases hs : s.sendOnly with
  | false =>
    -- the round with the message asks for bytes, and is the last to do so
    refine ⟨hk, ?_⟩
    simp [readsLeft, hs, hloc, push, ClientLoc.asks]
  | true =>
    simp only [Bool.not_true, Bool.and_false, Bool.false_eq_true, if_false, XmlClient.enterPoll, hs,
      if_true]
    split
    · exact ⟨hk, readsLeft_le rfl (fun _ => rfl) (Nat.zero_le _)⟩
    · exact ⟨hk, readsLeft_le rfl (fun _ => rfl) (Nat.zero_le _)⟩

theorem readsLeft_event (hk : s.killed = true) {o : Outside} {e : Event} {events : List Event}
    {wellFormed pollout : Bool} (hs : s.event o e events wellFormed pollout = some s') :
    s'.killed = true ∧ s'.readsLeft ≤ s.readsLeft := by
  rw [XmlClient.event] at hs
  split at hs
  · cases hs
  · cases hs
    exact ⟨hk, readsLeft_le rfl (fun _ => rfl) (Nat.zero_le _)⟩
  · dsimp only at hs
    split at hs
    · cases hs
      exact ⟨hk, readsLeft_le rfl id (Nat.zero_le _)⟩
    · cases hs
      exact ⟨hk, readsLeft_le rfl id (Nat.zero_le _)⟩

/-- No step of a killed session lets it read more than it could before. -/
theorem readsLeft_step (hk : s.killed = true) {c : ClientStep} (hs : s.step c = some s') :
    s'.killed = true ∧ s'.readsLeft ≤ s.readsLeft := by
  cases c with
  | kill msg =>
    cases hs
    exact ⟨rfl, le_rfl⟩
  | log text =>
    cases hs
    exact ⟨hk, le_rfl⟩
  | top =>
    simp only [XmlClient.step] at hs
    split at hs
    · rename_i hloc
      cases hs
      exact readsLeft_top hk hloc
    · cases hs
  | poll result =>
    obtain ⟨loc, rfl, -, -, -, hasks, -⟩ := poll_cases hs
    exact ⟨hk, readsLeft_le rfl id hasks⟩
  | read result =>
    simp only [XmlClient.step] at hs
    split at hs
    · rename_i pollout hloc
      split at hs
      · cases hs
        exact ⟨hk, readsLeft_le rfl id (Nat.zero_le _)⟩
      · cases hs
        refine ⟨hk, ?_⟩
        simp only [readsLeft, hloc, ClientLoc.asks]
        omega
    · cases hs
  | event o =>
    simp only [XmlClient.step] at hs
    split at hs
    · exact readsLeft_event hk hs
    · cases hs
  | parsed =>
    simp only [XmlClient.step] at hs
    split at hs
    · rename_i wellFormed pollout hloc
      cases hs
      cases wellFormed with
      | true => exact ⟨hk, readsLeft_le rfl id (by cases pollout <;> exact Nat.zero_le _)⟩
      | false => exact ⟨hk, readsLeft_le rfl (fun _ => rfl) (Nat.zero_le _)⟩
    · cases hs
  | peek =>
    simp only [XmlClient.step] at hs
    split at hs
    · obtain ⟨queue, -, rfl⟩ := Option.map_eq_some_iff.mp hs
      exact ⟨hk, readsLeft_le rfl id (by cases s.isEmpty <;> exact Nat.zero_le _)⟩
    · cases hs
  | send n =>
    simp only [XmlClient.step] at hs
    split at hs
    · obtain ⟨queue, -, rfl⟩ := Option.map_eq_some_iff.mp hs
      exact ⟨hk, le_rfl⟩
    · cases hs
  | record =>
    simp only [XmlClient.step] at hs
    split at hs
    · rename_i e len n hloc hpop
      obtain ⟨queue, -, rfl⟩ := Option.map_eq_some_iff.mp hs
      refine ⟨hk, readsLeft_le rfl id ?_⟩
      by_cases hn : n < 0 <;> simp [hn, ClientLoc.asks]
    · cases hs

/-- **A killed session reads at most twice more**: once if it is about to, and once more because
`POLLIN` is asked for in the round that pushes the message for the kill. -/
theorem killed_reads_twice (hk : s.killed = true) (h : Reaches s s') : s'.reads ≤ s.reads + 2 := by
  have hleft : s'.killed = true ∧ s'.readsLeft ≤ s.readsLeft := by
    induction h with
    | refl => exact ⟨hk, le_rfl⟩
    | tail _ hstep ih =>
      obtain ⟨c, hc⟩ := hstep
      obtain ⟨hk', hle⟩ := readsLeft_step ih.1 hc
      exact ⟨hk', hle.trans ih.2⟩
  have hle : s'.reads ≤ s'.readsLeft := by
    rw [readsLeft]
    omega
  have hasks : s.loc.asks ≤ 1 := by
    rw [ClientLoc.asks.eq_def]
    split <;> omega
  have hge : s.readsLeft ≤ s.reads + 2 := by
    rw [readsLeft]
    split <;> omega
  omega

omit [Glib] [HashOrder] in
/-- Both reads are made. -/
theorem killed_reads_twice_poll :
    letI := Glib.plain
    letI := HashOrder.plain
    ∃ s s', Reaches start s ∧ s.killed = true ∧ Reaches s s' ∧ s.reads = 0 ∧ s'.reads = 2 ∧
      s'.reads ≤ s.reads + 2 := by
  let _ := Glib.plain
  let _ := HashOrder.plain
  let s : XmlClient := { start with loc := .poll true false, killed := true }
  have hs : Reaches start s := .head ⟨.top, rfl⟩ <| .single ⟨.kill none, rfl⟩
  have h : Reaches s _ := .head ⟨.poll (.events true false), rfl⟩ <|
    .head ⟨.read (some ([], true)), rfl⟩ <| .head ⟨.parsed, rfl⟩ <| .head ⟨.top, rfl⟩ <|
    .head ⟨.poll (.events true false), rfl⟩ <| .single ⟨.read (some ([], true)), rfl⟩
  exact ⟨_, _, hs, rfl, h, rfl, rfl, killed_reads_twice rfl h⟩

end XmlClient

end Mbb
