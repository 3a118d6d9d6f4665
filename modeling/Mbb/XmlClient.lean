import Mbb.MsgQueue
import Mbb.XmlPath

/-!
# The thread of a client (`mbbd/mbbthreadxml.c`)

The thread polls the socket of its client, gives what it reads to the parser, and pushes one answer
for each element to the queue of messages, which it sends when the socket takes bytes. Other threads
push log messages to the same queue, and `mbb-kill-session` marks the session as killed, both at any
time: all of these are steps here, and so are the parts of `mbb_msg_queue_pop`.

What GMarkup reports of the bytes that are read comes from outside, as does what authentication and
the methods of the daemon return; `processXml` is given that for each element. A method of
authentication may itself push messages to the queue, as that with salt does. Noted beside the
thread are the elements it has answered, the calls it has made, how often it has read, and for each
message in the queue whether it is its own.
-/

namespace Mbb

open Markup

/-- The bytes of a text. -/
def utf8Bytes (s : List Char) : List UInt8 := s.flatMap String.utf8EncodeChar

/-- What the rest of the daemon does for an element. -/
structure Outside : Type where
  /-- `mbb_auth`: login, secret and type -/
  auth : CStr → Option CStr → Option CStr → Option Int
  /-- What is pushed to the queue of the client meanwhile: messages of the method that
  authenticates, which are marked, and messages of the log. -/
  pushed : CStr → Option CStr → Option CStr → List (Bool × List UInt8)
  /-- `mbb_func_call` for a user; the outer `none` is the result `FALSE`, the inner one the answer
  `NULL`. -/
  call : Int → Option CStr → XmlTag → Option (Option XmlTag)

/-- What comes of an element. -/
structure XmlServed : Type where
  /-- the messages that are pushed before the answer -/
  pushed : List (Bool × List UInt8)
  /-- the type of the message that is pushed -/
  type : MsgType
  /-- the message -/
  answer : List Char
  /-- the user afterwards -/
  user : Option Int
  /-- the call: for which user, and of which method -/
  call : Option (Int × Option CStr)

/-- `push_response` -/
def pushResponse (result : String) (desc : Option String) : List Char :=
  match desc with
  | none => ("<response result='" ++ result ++ "'/>").toList
  | some desc => ("<response result='" ++ result ++ "' desc='" ++ desc ++ "'/>").toList

/-- `MSG_AUTH_FAILED` -/
def msgAuthFailed : List Char := "<auth result='failed'/>".toList

/-- `MSG_AUTH_OK` -/
def msgAuthOk : List Char := "<auth result='ok'/>".toList

/-- `XTV_AUTH_LOGIN_`, `XTV_AUTH_SECRET_` and `XTV_AUTH_TYPE_` -/
def xtvAuth : List (XmlTagVar CStr) :=
  ["login", "secret", "type"].map fun name => ⟨none, some (literal name), id, true⟩

/-- What an element of authentication asks for: `login`, `secret` and `type`. -/
def authArgs (tag : XmlTag) : Option CStr × Option CStr × Option CStr :=
  match (xmlTagGetValuesv tag xtvAuth 0).1 with
  | [login, secret, type] => (login, secret, type)
  | _ => (none, none, none)

/-- The user that an element authenticates, if it does. -/
def authenticates (o : Outside) (tag : XmlTag) : Option Int :=
  if tag.name = literal "auth" then
    match authArgs tag with
    | (none, _, _) => none
    | (some login, secret, type) => o.auth login secret type
  else none

/-- `process_auth`; `mbb_session_auth` keeps the user when it fails. -/
def processAuth (o : Outside) (tag : XmlTag) (user : Option Int) : XmlServed :=
  match authArgs tag with
  | (none, _, _) => ⟨[], .const, msgAuthFailed, user, none⟩
  | (some login, secret, type) =>
    match o.auth login secret type with
    | none => ⟨o.pushed login secret type, .const, msgAuthFailed, user, none⟩
    | some id => ⟨o.pushed login secret type, .const, msgAuthOk, some id, none⟩

section

variable [Glib] [HashOrder]

/-- `process_request` for the user of the session -/
def processXmlRequest (o : Outside) (tag : XmlTag) (id : Int) : XmlServed :=
  match xmlTagGetAttr tag (literal "name") with
  | none => ⟨[], .alloc, pushResponse "error" (some "bad format"), some id, none⟩
  | some var =>
    let funcName := variantStr var
    let answer :=
      match o.call id funcName tag with
      | none => pushResponse "error" (some "no such function")
      | some none => pushResponse "ok" none
      | some (some ans) => xmlTagToStringEscape ans
    ⟨[], .alloc, answer, some id, some (id, funcName)⟩

/-- `process_xml` -/
def processXml (o : Outside) (tag : XmlTag) (user : Option Int) : XmlServed :=
  if tag.name = literal "auth" then processAuth o tag user
  else if tag.name = literal "request" then
    match user with
    | none => ⟨[], .alloc, pushResponse "error" (some "unauthorized"), none, none⟩
    | some id => processXmlRequest o tag id
  else ⟨[], .alloc, pushResponse "error" (some "unknown query"), user, none⟩

/-- `push_kill_message` -/
def killMessage (msg : Option CStr) : List Char :=
  match msg with
  | none => "<kill/>".toList
  | some msg => "<kill msg='".toList ++ Glib.escapeText msg.chars ++ "'/>".toList

/-- The type of that message. -/
def killType (msg : Option CStr) : MsgType := if msg.isSome then .alloc else .const

/-- `push_error_message` for `invalid xml` -/
def invalidXmlMessage : List Char :=
  "<response result='error' desc='".toList ++ Glib.escapeText "invalid xml".toList ++ "'/>".toList

end

/-- Where the thread is in `xml_client_loop`. -/
inductive ClientLoc : Type where
  /-- at the head of the loop -/
  | head
  /-- in `poll`, with the events it asks for -/
  | poll (pollin pollout : Bool)
  /-- at `read`, and whether `POLLOUT` is there too -/
  | read (pollout : Bool)
  /-- in `xml_parser_parse`: the callbacks to come, whether GMarkup has no error behind them, and
  whether `POLLOUT` is there -/
  | parse (events : List Event) (wellFormed pollout : Bool)
  /-- at `mbb_msg_queue_pop` -/
  | pop
  /-- in `mbb_msg_queue_pop` -/
  | popping
  /-- behind the loop; whether it has sent all it had to send -/
  | quit (drained : Bool)

/-- What `poll` returns. -/
inductive PollResult : Type where
  /-- an error -/
  | error
  /-- `EINTR`, or no event -/
  | again
  /-- `revents` -/
  | events (pollin pollout : Bool)

/-- The thread of a client. -/
structure XmlClient : Type where
  /-- where it is -/
  loc : ClientLoc
  /-- `send_only` -/
  sendOnly : Bool
  /-- `ss.killed` -/
  killed : Bool
  /-- `ss.kill_msg` -/
  killMsg : Option CStr
  /-- `ss.user` -/
  user : Option Int
  /-- `parser` -/
  parser : XmlParser
  /-- `msg_queue` -/
  queue : MsgQueue
  /-- the messages pushed, and whether the thread pushed them itself -/
  pushes : List (Bool × List UInt8)
  /-- the elements that have been answered -/
  served : List (XmlTag × Outside)
  /-- the calls: after how many elements, for which user, and of which method -/
  calls : List (ℕ × Int × Option CStr)
  /-- how often bytes have been read -/
  reads : ℕ

/-- Steps of the thread, and of others. -/
inductive ClientStep : Type where
  /-- another thread kills the session; a user who does it is named -/
  | kill (msg : Option CStr)
  /-- a log message is pushed -/
  | log (text : List UInt8)
  /-- the head of the loop -/
  | top
  /-- `poll` returns -/
  | poll (result : PollResult)
  /-- `read` returns: nothing or an error, or bytes of which GMarkup reports events -/
  | read (result : Option (List Event × Bool))
  /-- the next callback of the parser -/
  | event (o : Outside)
  /-- `xml_parser_parse` returns -/
  | parsed
  /-- `mbb_msg_queue_pop` looks at the head -/
  | peek
  /-- `write` returns -/
  | send (n : Int)
  /-- the rest of `mbb_msg_queue_pop` -/
  | record

namespace XmlClient

/-- `mbb_thread_xml_client`, before the loop -/
def start : XmlClient where
  loc := .head
  sendOnly := false
  killed := false
  killMsg := none
  user := none
  parser := xmlParserNew
  queue := .new
  pushes := []
  served := []
  calls := []
  reads := 0

variable (s : XmlClient)

/-- A message is pushed. -/
def push (own : Bool) (type : MsgType) (text : List UInt8) : XmlClient :=
  { s with
    queue := s.queue.push type text
    pushes := s.pushes ++ [(own, text)] }

/-- Messages are pushed while an element is answered. -/
def pushMeanwhile (pushed : List (Bool × List UInt8)) : XmlClient :=
  { s with
    queue := pushed.foldl (fun queue p => queue.push (if p.1 then .alloc else .shared) p.2) s.queue
    pushes := s.pushes ++ pushed }

/-- `mbb_msg_queue_is_empty` -/
def isEmpty : Bool := s.queue.entries.isEmpty

/-- The events `poll` is called for, or the end of the loop. -/
def enterPoll : XmlClient :=
  if s.isEmpty then
    if s.sendOnly then { s with loc := .quit true }
    else { s with loc := .poll true false }
  else { s with loc := .poll (!s.sendOnly) true }

/-- Behind what is read. -/
def afterRead (pollout : Bool) : XmlClient := { s with loc := if pollout then .pop else .head }

section

variable [Glib] [HashOrder]

/-- The head of the loop. `pfd.events` is set before the session is found to be killed, so `POLLIN`
is in it once more. -/
def top : XmlClient :=
  if s.killed && !s.sendOnly then
    { s.push true (killType s.killMsg) (utf8Bytes (killMessage s.killMsg)) with
      sendOnly := true
      loc := .poll true true }
  else s.enterPoll

/-- `xml_parser_parse` has failed. -/
def invalidXml : XmlClient :=
  { s.push true .alloc (utf8Bytes invalidXmlMessage) with sendOnly := true, loc := .head }

/-- `process_xml` -/
def serve (o : Outside) (tag : XmlTag) : XmlClient :=
  let r := processXml o tag s.user
  { (s.pushMeanwhile r.pushed).push true r.type (utf8Bytes r.answer) with
    user := r.user
    served := s.served ++ [(tag, o)]
    calls := s.calls ++ (r.call.map fun c => (s.served.length, c)).toList }

/-- A callback: a tag that is closed at the outside is given to `process_xml`. -/
def event (o : Outside) (e : Event) (events : List Event) (wellFormed pollout : Bool) :
    Option XmlClient :=
  match callback s.parser e with
  | .error .noTag => none
  | .error (.unexpectedClosed _ _) => some s.invalidXml
  | .ok parser =>
    let s' := { s with parser, loc := .parse events wellFormed pollout }
    match parser.given.drop s.parser.given.length with
    | [] => some s'
    | tag :: _ => some (s'.serve o tag)

/-- One step, where it can be made. -/
def step : ClientStep → Option XmlClient
  | .kill msg => some { s with killed := true, killMsg := msg.or s.killMsg }
  | .log text => some (s.push false .shared text)
  | .top =>
    match s.loc with
    | .head => some s.top
    | _ => none
  | .poll result =>
    match s.loc with
    | .poll pollin pollout =>
      match result with
      | .error => some { s with loc := .quit false }
      | .again => some { s with loc := .head }
      | .events rin rout =>
        -- only what was asked for is in `revents`
        if (rin && !pollin) || (rout && !pollout) then none
        else if rin then some { s with loc := .read rout }
        else some (s.afterRead rout)
    | _ => none
  | .read result =>
    match s.loc with
    | .read pollout =>
      match result with
      | none => some { s with loc := .quit false }
      | some (events, wellFormed) =>
        some { s with loc := .parse events wellFormed pollout, reads := s.reads + 1 }
    | _ => none
  | .event o =>
    match s.loc with
    | .parse (e :: events) wellFormed pollout => s.event o e events wellFormed pollout
    | _ => none
  | .parsed =>
    match s.loc with
    | .parse [] wellFormed pollout =>
      some (if wellFormed then s.afterRead pollout else s.invalidXml)
    | _ => none
  | .peek =>
    match s.loc with
    | .pop =>
      (s.queue.step .peek).map fun queue =>
        { s with queue, loc := if s.isEmpty then .head else .popping }
    | _ => none
  | .send n =>
    match s.loc with
    | .popping => (s.queue.step (.send n)).map fun queue => { s with queue }
    | _ => none
  | .record =>
    match s.loc, s.queue.pop with
    | .popping, .sent _ _ n =>
      (s.queue.step .record).map fun queue =>
        { s with queue, loc := if n < 0 then .quit false else .head }
    | _, _ => none

/-- The states of the runs from `s`. -/
def Reaches (s s' : XmlClient) : Prop :=
  Relation.ReflTransGen (fun s s' => ∃ c, step s c = some s') s s'

end

end XmlClient

end Mbb
