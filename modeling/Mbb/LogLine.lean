import Mathlib.Data.List.Find
import Mbb.LogRun

/-!
# Lines of logs (`mbbsh/handler.c`)

What a client prints of a message of the log that the daemon has written. Whatever characters the
message and the names in it have, they are printed as they are, but that GMarkup makes a blank of a
tab and of the end of a line, since they are values of attributes.
-/

namespace Mbb

open Markup

/-- A text of an attribute as `%s`, between two others. -/
def logPart (tag : XmlTag) (name before behind : String) : List Char :=
  match xmlTagGetAttr tag (literal name) with
  | none => []
  | some var =>
    before.toList ++ ((variantStr var).elim "(null)".toList CStr.chars) ++ behind.toList

/-- The message in `log_handler`. -/
def logMessage (tag : XmlTag) : List Char :=
  match xmlTagPathAttr tag (some (literal "message")) (literal "value") with
  | none => []
  | some var => (variantStr var).elim "(null)".toList CStr.chars

/-- `log_handler`: what is printed -/
def logHandler (tag : XmlTag) : Option (List Char) :=
  let string := logPart tag "sid" "#" " " ++ logPart tag "user" "" "@" ++
    logPart tag "peer" "" "" ++ logPart tag "task_id" ":" "" ++ logPart tag "domain" "[" "]" ++
    ": ".toList ++ logMessage tag
  if 0 < string.length then some ("LOG: ".toList ++ string ++ "\n".toList) else none

/-- A string as GMarkup gives it when it is the value of an attribute. -/
def CStr.blanks (s : CStr) : CStr where
  chars := attrBlanks s.chars
  noNul := fun h => by
    obtain ⟨c, hc, heq⟩ := mem_foldReturns h
    split at heq
    · cases heq
    · exact s.noNul (heq ▸ hc)

/-- A string without tabs and ends of lines is given as it is. -/
theorem CStr.blanks_eq_self {s : CStr} (h : ∀ c ∈ s.chars, c ≠ '\t' ∧ c ≠ '\n' ∧ c ≠ '\r') :
    s.blanks = s :=
  CStr.chars_injective <| foldReturns_eq_self fun c hc => by
    obtain ⟨htab, hline, hreturn⟩ := h c hc
    exact ⟨hreturn, if_neg (by simp [htab, hline, hreturn])⟩

theorem blanks_decimal (n : Int) : (decimal n).blanks = decimal n := by
  refine CStr.blanks_eq_self fun c hc => ?_
  rcases List.mem_append.mp hc with hsign | hdigit
  · split at hsign
    · obtain rfl := List.mem_singleton.mp hsign
      decide
    · cases hsign
  · have hdigit := Nat.isDigit_of_mem_toDigits (by decide) (by decide) hdigit
    refine ⟨?_, ?_, ?_⟩ <;>
      · rintro rfl
        revert hdigit
        decide

/-- Who logs, with names as GMarkup gives them. -/
def LogThread.blanks : LogThread → LogThread
  | .session tid user peer => .session tid (user.map CStr.blanks) peer.blanks
  | .task tid id name => .task tid id name.blanks

/-- The line for a message. -/
def LogThread.line (thread : LogThread) (domain msg : CStr) : List Char :=
  let origin :=
    match thread with
    | .session tid user peer => "#".toList ++ (decimal tid).chars ++ " ".toList ++
        (user.getD (literal "*")).chars ++ "@".toList ++ peer.chars
    | .task tid id name => "#".toList ++ (decimal tid).chars ++ " ".toList ++ name.chars ++
        ":".toList ++ (decimal id).chars
  "LOG: ".toList ++ (origin ++ "[".toList ++ domain.chars ++ "]".toList ++ ": ".toList ++
    msg.chars) ++ "\n".toList

/-- A message as an element. -/
def logElement (attrs : List (String × CStr)) (msg : CStr) : Element :=
  .node "log".toList (attrs.map fun a => (a.1.toList, a.2.chars)) []
    (.cons (.leaf "message".toList [("value".toList, msg.chars)]) [] .nil)

/-- Names in messages. -/
def logNames : List String :=
  ["log", "sid", "user", "peer", "task_id", "domain", "message", "value"]

/-- Attributes with names of messages, no two of one name. -/
def LogAttrs (attrs : List (String × CStr)) : Prop :=
  attrs.map Prod.fst ⊆ logNames ∧ ((attrs.map Prod.fst).map String.toList).Nodup

theorem LogThread.logAttrs (thread : LogThread) (domain : String) :
    LogAttrs (thread.attrs domain) := by
  cases thread with
  | session tid user peer =>
    change ["sid", "user", "peer", "domain"] ⊆ logNames ∧
      (["sid", "user", "peer", "domain"].map String.toList).Nodup
    decide
  | task tid id name =>
    change ["sid", "task_id", "peer", "domain"] ⊆ logNames ∧
      (["sid", "task_id", "peer", "domain"].map String.toList).Nodup
    decide

theorem LogAttrs.map {attrs : List (String × CStr)} (h : LogAttrs attrs) (f : CStr → CStr) :
    LogAttrs (attrs.map fun a => (a.1, f a.2)) := by
  rw [LogAttrs, List.map_map]
  exact h

/-- What GMarkup reads of a message. -/
theorem map_logElement (attrs : List (String × CStr)) (msg : CStr) :
    (logElement attrs msg).map attrBlanks textLines =
      logElement (attrs.map fun a => (a.1, a.2.blanks)) msg.blanks := by
  rw [logElement, logElement, Element.map, Items.map, Element.map, Items.map, mapAttrs,
    List.map_map, List.map_map]
  rfl

section

variable [Glib] {thread : LogThread} {domain : String} {msg : CStr}

theorem logMsgNew_eq_text : logMsgNew thread domain msg =
    (logElement (thread.attrs domain) msg).text Glib.escapeText := by
  have hattrs : attrsText Glib.escapeText
      ((thread.attrs domain).map fun a => (a.1.toList, a.2.chars)) =
      (thread.attrs domain).flatMap (fun a =>
        ' ' :: a.1.toList ++ "='".toList ++ Glib.escapeText a.2.chars ++ "'".toList) := by
    rw [attrsText, List.flatMap_map]
    simp
  -- its equation is slow to derive, as texts are compared there
  delta logMsgNew
  rw [logElement, Element.text, Items.text, Element.text, Items.text, hattrs, Glib.escapeText_nil]
  simp [attrsText]

variable {attrs : List (String × CStr)}

theorem valid_logElement (h : ∀ name ∈ logNames, Glib.validName name.toList)
    (hattrs : LogAttrs attrs) : (logElement attrs msg).Valid Glib.validName := by
  refine ⟨h _ (by decide), ⟨fun a ha => ?_, ?_⟩, ⟨h _ (by decide), ?_⟩, trivial⟩
  · obtain ⟨b, hb, rfl⟩ := List.mem_map.mp ha
    exact h b.1 (hattrs.1 (List.mem_map_of_mem hb))
  · have hnodup := hattrs.2
    rw [List.map_map] at hnodup ⊢
    exact hnodup
  · exact ⟨List.forall_mem_singleton.mpr (h _ (by decide)), List.nodup_singleton _⟩

/-- What `printf` makes of an attribute of an element. -/
theorem logPart_elementTag (e : Element) (name before behind : String) :
    logPart (elementTag e) name before behind =
      ((elementAttr e (literal name)).map fun value =>
        before.toList ++ value.chars ++ behind.toList).getD [] := by
  rw [logPart, getAttr_elementTag]
  cases elementAttr e (literal name) <;> rfl

omit [Glib] in
theorem elementAttr_logElement (hattrs : LogAttrs attrs) {name : String} (hname : name ∈ logNames) :
    elementAttr (logElement attrs msg) (literal name) =
      (attrs.reverse.find? fun a => decide (a.1 = name)).map Prod.snd := by
  have hsnd : ((fun a : List Char × List Char => cstr a.2) ∘ fun a : String × CStr =>
      (a.1.toList, a.2.chars)) = Prod.snd := by
    funext a
    exact cstr_chars a.2
  have hliteral : ∀ a ∈ logNames, ∀ b ∈ logNames, literal a = literal b → a = b := by decide
  rw [elementAttr, logElement, Element.attrs, ← List.map_reverse, List.find?_map,
    Option.map_map, hsnd]
  refine congrArg _ (List.find?_congr fun a ha => ?_)
  have hmem := hattrs.1 (List.mem_map_of_mem (List.mem_reverse.mp ha))
  exact decide_eq_decide.mpr ⟨hliteral _ hmem _ hname, fun heq => congrArg literal heq⟩

theorem logMessage_logElement : logMessage (elementTag (logElement attrs msg)) = msg.chars := by
  have hpath : pathNames (literal "message") = [literal "message"] := by decide
  rw [logMessage, xmlTagPathAttr, xmlTagPath, hpath, xmlTagPathLoop_elementTag]
  have hfirst : elementFirst [literal "message"] (logElement attrs msg) =
      some (.leaf "message".toList [("value".toList, msg.chars)]) := rfl
  rw [hfirst]
  simp only [Option.map_some]
  rw [getAttr_elementTag]
  have hattr : elementAttr (.leaf "message".toList [("value".toList, msg.chars)])
      (literal "value") = some (cstr msg.chars) := rfl
  rw [hattr, cstr_chars]
  rfl

/-- What `log_handler` prints of a message. -/
theorem logHandler_logElement (hattrs : LogAttrs attrs) :
    let part (name before behind : String) : List Char :=
      ((attrs.reverse.find? fun a => decide (a.1 = name)).map fun a =>
        before.toList ++ a.2.chars ++ behind.toList).getD []
    logHandler (elementTag (logElement attrs msg)) =
      some ("LOG: ".toList ++ (part "sid" "#" " " ++ part "user" "" "@" ++ part "peer" "" "" ++
        part "task_id" ":" "" ++ part "domain" "[" "]" ++ ": ".toList ++ msg.chars) ++
          "\n".toList) := by
  intro part
  have hpart : ∀ name ∈ logNames, ∀ before behind,
      logPart (elementTag (logElement attrs msg)) name before behind =
        part name before behind := by
    intro name hname before behind
    rw [logPart_elementTag, elementAttr_logElement hattrs hname, Option.map_map]
    rfl
  have hpos : ∀ names : List Char, 0 < (names ++ ": ".toList ++ msg.chars).length := by
    intro names
    simp only [List.length_append]
    exact Nat.add_pos_left (Nat.add_pos_right _ (by decide)) _
  rw [logHandler, logMessage_logElement, if_pos (hpos _), hpart "sid" (by decide),
    hpart "user" (by decide), hpart "peer" (by decide), hpart "task_id" (by decide),
    hpart "domain" (by decide)]

/-- **A line of the log.** What a session or a task logs is read by a client as one element, and
printed with the names and the message as they were, whatever characters they have, but that tabs
and ends of lines have become blanks. -/
theorem log_line [Glib.Reads attrBlanks textLines]
    (h : ∀ name ∈ logNames, Glib.validName name.toList) :
    ∃ tag, xmlParserParse xmlParserNew (logMsgNew thread domain msg) = .ok ⟨none, [tag]⟩ ∧
      tag.name = literal "log" ∧
      logHandler tag = some (thread.blanks.line (literal domain).blanks msg.blanks) := by
  have hattrs := thread.logAttrs domain
  refine ⟨elementTag (logElement ((thread.attrs domain).map fun a => (a.1, a.2.blanks)) msg.blanks),
    ?_, ?_, ?_⟩
  · rw [logMsgNew_eq_text, parse_element attrBlanks textLines
      (valid_logElement h hattrs), map_logElement]
  · rw [name_elementTag_eq]
    rfl
  · rw [logHandler_logElement (hattrs.map CStr.blanks)]
    delta LogThread.line
    cases thread with
    | session tid user peer =>
      cases user with
      | none =>
        have hstar : (literal "*").blanks = literal "*" := by decide
        simp [LogThread.attrs, LogThread.blanks, blanks_decimal, hstar]
      | some user => simp [LogThread.attrs, LogThread.blanks, blanks_decimal]
    | task tid id name => simp [LogThread.attrs, LogThread.blanks, blanks_decimal]

end

/-- The reader, with what GMarkup makes of attributes and text. -/
abbrev Glib.blanking : Glib :=
  { Glib.plain with report := fun text =>
      (Markup.read text).map (Event.map attrBlanks textLines) }

theorem Glib.reads_blanking : @Glib.Reads Glib.blanking attrBlanks textLines :=
  @Glib.Reads.mk Glib.blanking _ _ fun e h => by
    have hempty : ∀ s, (textLines s).isEmpty = s.isEmpty := isEmpty_foldReturns _
    rw [← Element.events_map hempty, ← read_text h]
    exact filter_map_proper hempty _

/-- A message with signs of markup and two lines in it. -/
theorem log_line_quotes :
    letI := Glib.blanking
    ∃ tag, xmlParserParse xmlParserNew (logMsgNew (.session 7 (some (literal "o'hara"))
        (literal "127.0.0.1")) "msg" (literal "</log> &\r\n more")) = .ok ⟨none, [tag]⟩ ∧
      logHandler tag = some "LOG: #7 o'hara@127.0.0.1[msg]: </log> &  more\n".toList := by
  let _ := Glib.blanking
  have _ := Glib.reads_blanking
  have hnames : ∀ name ∈ logNames, PlainName name.toList := by
    have hall : ∀ name ∈ logNames, name.toList ≠ [] ∧ name.toList.all isNameChar = true := by decide
    intro name hname
    exact ⟨(hall name hname).1, List.all_eq_true.mp (hall name hname).2⟩
  obtain ⟨tag, hparse, -, hline⟩ := @log_line _ (.session 7 (some (literal "o'hara"))
    (literal "127.0.0.1")) "msg" (literal "</log> &\r\n more") _ hnames
  refine ⟨tag, hparse, hline.trans ?_⟩
  decide

end Mbb
