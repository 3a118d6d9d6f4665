import Mbb.XmlRoundTrip

/-!
# Batched requests (`mbbd/mbbthreadhttp.c`, `lib/xmltag.c`)

A request without a method in its url is a batch: each child `request` of the document is a call.
The childs are stored as the first, the last, and so on to the second, and so are the answers that
are added to the answer of the batch. `xml_tag_reorder` puts the others of the first tag behind it
one after the other, which turns their order round.
-/

namespace Mbb

open Markup

/-! ## Reordering

Childs of one name are linked in an order that is not that of the document. A second pass over them
turns the others than the first round.
-/

/-- The loop of `xml_tag_reorder`: of the tags that are left the first goes to the front of
`behind`, the tags behind the first of all. -/
def Siblings.reorderLoop : Siblings → Siblings → Siblings
  | .last xt, behind => .cons xt behind
  | .cons xt next, behind => next.reorderLoop (.cons xt behind)

/-- `xml_tag_reorder` -/
def xmlTagReorder : Siblings → Siblings
  | .last tag => .last tag
  | .cons tag (.last xt) => .cons tag (.last xt)
  | .cons tag (.cons xt next) => .cons tag (next.reorderLoop (.last xt))

/-- Change the childs of a name where they stand. -/
def ChildTable.modify (f : Siblings → Siblings) : ChildTable → CStr → ChildTable
  | .nil, _ => .nil
  | .cons name tags rest, k =>
    if name = k then .cons name (f tags) rest else .cons name tags (rest.modify f k)

/-- `xml_tag_reorder` of `xml_tag_get_child`; nothing happens when there is no such child. -/
def xmlTagReorderChilds : XmlTag → CStr → XmlTag
  | .mk name attrs body childs, k => .mk name attrs body (childs.modify xmlTagReorder k)

theorem tags_reorderLoop : ∀ tags behind : Siblings,
    (tags.reorderLoop behind).tags = tags.tags.reverse ++ behind.tags
  | .last _, _ => rfl
  | .cons xt next, behind => by
    rw [Siblings.reorderLoop, tags_reorderLoop next, Siblings.tags, Siblings.tags,
      List.reverse_cons, List.append_assoc, List.singleton_append]

/-- What stands as first, last, and so on to the second gets the order it was added in. -/
theorem tags_reorder : ∀ tags : Siblings, (xmlTagReorder tags).tags = linked tags.tags
  | .last _ => rfl
  | .cons _ (.last _) => rfl
  | .cons tag (.cons xt next) => by
    rw [xmlTagReorder, Siblings.tags, tags_reorderLoop]
    simp only [Siblings.tags, linked, List.reverse_cons]

theorem ChildTable.get?_modify (f : Siblings → Siblings) (k : CStr) : ∀ table : ChildTable,
    (table.modify f k).get? k = (table.get? k).map f
  | .nil => rfl
  | .cons name tags rest => by
    rw [modify]
    split
    · rename_i heq
      rw [get?, get?, if_pos heq, if_pos heq, Option.map_some]
    · rename_i hne
      rw [get?, get?, if_neg hne, if_neg hne, get?_modify f k rest]

theorem getChilds_reorderChilds : ∀ (tag : XmlTag) (k : CStr),
    xmlTagGetChilds (xmlTagReorderChilds tag k) k = linked (xmlTagGetChilds tag k)
  | .mk name attrs body childs, k => by
    rw [xmlTagReorderChilds, xmlTagGetChilds, xmlTagGetChilds, XmlTag.childs, XmlTag.childs,
      ChildTable.get?_modify]
    cases childs.get? k with
    | none => rfl
    | some tags => exact tags_reorder tags

/-! ## Messages (`mbbd/mbbxmlmsg.c`) -/

/-- A string of the source. -/
def literal (s : String) : CStr := cstr s.toList

/-- `mbb_xml_msg_response` -/
def mbbXmlMsgResponse (result : CStr) (msg : Option CStr) : XmlTag :=
  let tag := xmlTagSetAttr (xmlTagNew (literal "response") none) (literal "result")
    (.staticString (some result))
  match msg with
  | none => tag
  | some msg => xmlTagSetAttr tag (literal "desc") (.string (some msg))

/-- `mbb_xml_msg_ok` -/
def mbbXmlMsgOk : XmlTag := mbbXmlMsgResponse (literal "ok") none

/-- A pointer to a string, as `%s` writes it. -/
def formatString (str : Option CStr) : List Char :=
  match str with
  | none => "(null)".toList
  | some str => str.chars

/-- `mbb_xml_msg(MBB_MSG_UNKNOWN_METHOD, method)` -/
def unknownMethod (method : Option CStr) : XmlTag :=
  mbbXmlMsgResponse (literal "error")
    (some (cstr ("method ".toList ++ formatString method ++ " not found".toList)))

/-! ## Requests -/

/-- `mbb_func_call`: the name of a method and the tag of its arguments. The outer `none` is the
result `FALSE`, the inner one the answer `NULL`. -/
abbrev FuncCall (σ : Type) : Type := Option CStr → XmlTag → σ → Option (Option XmlTag) × σ

/-- `xml_tag_get_attr` -/
def xmlTagGetAttr (tag : XmlTag) (optName : CStr) : Option Variant := tag.attrs.get? optName

theorem getAttr_setAttr : ∀ (tag : XmlTag) (k : CStr) (var : Variant) (k' : CStr),
    xmlTagGetAttr (xmlTagSetAttr tag k var) k' = if k = k' then some var else xmlTagGetAttr tag k'
  | .mk name attrs body childs, k, var, k' => by
    rw [xmlTagSetAttr, xmlTagGetAttr, xmlTagGetAttr, XmlTag.attrs, XmlTag.attrs, Ledger.get?_put]
    simp only [eq_comm]

/-- The pointer that `variant_get_string` returns. -/
def variantStr : Variant → Option CStr
  | .string str => str
  | .staticString str => str
  | _ => none

/-- The tag for what a call returns. -/
def callAnswer (method : Option CStr) : Option (Option XmlTag) → XmlTag
  | none => unknownMethod method
  | some none => mbbXmlMsgOk
  | some (some tag) => tag

/-- The same in a batch. -/
def batchAnswer (method : Option CStr) (ret : Option (Option XmlTag)) : XmlTag :=
  xmlTagSetAttr (callAnswer method ret) (literal "origin") (.staticString method)

section

variable {σ : Type} (call : FuncCall σ)

/-- The loop of `process_request`. -/
def processBatchLoop : List XmlTag → XmlTag → σ → XmlTag × σ
  | [], ans, s => (ans, s)
  | xt :: xts, ans, s =>
    match xmlTagGetAttr xt (literal "name") with
    | none => processBatchLoop xts ans s
    | some var =>
      let method := variantStr var
      let r := call method xt s
      processBatchLoop xts (xmlTagAddChild ans (batchAnswer method r.1)) r.2

/-- `process_request` for a batch. -/
def processBatch (root : XmlTag) (s : σ) : XmlTag × σ :=
  let root := xmlTagReorderChilds root (literal "request")
  let r := processBatchLoop call (xmlTagGetChilds root (literal "request")) mbbXmlMsgOk s
  (xmlTagReorderChilds r.1 (literal "response"), r.2)

/-- `process_request` for one method. -/
def processMethod (method : CStr) (rootTag : Option XmlTag) (s : σ) : Option XmlTag × σ :=
  let root := rootTag.getD (xmlTagNew (literal "request") none)
  let root := xmlTagSetAttr root (literal "name") (.staticString (some method))
  match call (some method) root s with
  | (none, s) => (some (unknownMethod (some method)), s)
  | (some ans, s) => (ans, s)

/-- `process_request`: the tag given to `push_http_xml_msg`. `none` is the use of a root tag that
is not there. -/
def processRequest (method : Option CStr) (rootTag : Option XmlTag) (s : σ) :
    Option (Option XmlTag × σ) :=
  match method, rootTag with
  | some method, rootTag => some (processMethod call method rootTag s)
  | none, none => none
  | none, some root =>
    let r := processBatch call root s
    some (some r.1, r.2)

end

/-- `process_tag`, on the `root_tag` so far -/
def processTag (rootTag : Option XmlTag) (tag : XmlTag) : Option XmlTag :=
  match rootTag with
  | none => if tag.name = literal "request" then some tag else none
  | some root => some root

/-! ## The order of calls

The childs `request` of the parsed document are reordered before they are called, so the calls are
in the order of the document, and so are the answers.
-/

/-- Calls one after the other: what they return. -/
def callAll {σ : Type} (call : FuncCall σ) : List (CStr × XmlTag) → σ →
    List (Option (Option XmlTag)) × σ
  | [], s => ([], s)
  | (method, tag) :: calls, s =>
    let r := call (some method) tag s
    let rs := callAll call calls r.2
    (r.1 :: rs.1, rs.2)

/-- The value of an attribute of an element: the last one of that name. -/
def elementAttr (e : Element) (k : CStr) : Option CStr :=
  (e.attrs.reverse.find? fun a => decide (cstr a.1 = k)).map fun a => cstr a.2

section

variable [Glib]

/-- The calls of a document: its childs `request` that have a name, in the order of the document. -/
def documentCalls (e : Element) : List (CStr × XmlTag) :=
  (e.childs.filter fun c => decide (cstr c.name = literal "request")).filterMap fun c =>
    (elementAttr c (literal "name")).map fun method => (method, elementTag c)

/-! ### The tags of a document -/

theorem name_elementTag_eq (e : Element) : (elementTag e).name = cstr e.name := by
  cases e with
  | leaf name attrs =>
    rw [elementTag, name_startTag]
    rfl
  | node name attrs text items =>
    rw [elementTag, name_addItems, name_addRun, name_startTag]
    rfl

theorem getChilds_addRun (text : List Char) (tag : XmlTag) (n : CStr) :
    xmlTagGetChilds (addRun text tag) n = xmlTagGetChilds tag n := by
  rw [xmlTagGetChilds, xmlTagGetChilds, childs_addRun]

theorem getChilds_addItems (n : CStr) : ∀ (items : Items) (tag : XmlTag),
    xmlTagGetChilds (addItems items tag) n =
      ((items.elements.filter fun c => decide (cstr c.name = n)).map elementTag).foldl linkSecond
        (xmlTagGetChilds tag n)
  | .nil, _ => rfl
  | .cons e text items, tag => by
    rw [addItems, getChilds_addItems n items, getChilds_addRun, getChilds_addChild,
      name_elementTag_eq, Items.elements]
    by_cases hn : cstr e.name = n
    · rw [if_pos hn, List.filter_cons_of_pos (by simpa using hn), List.map_cons, List.foldl_cons]
    · rw [if_neg hn, List.filter_cons_of_neg (by simpa using hn)]

/-- Childs of one name stand as the first, the last, and so on to the second. -/
theorem getChilds_elementTag (n : CStr) (e : Element) :
    xmlTagGetChilds (elementTag e) n =
      linked ((e.childs.filter fun c => decide (cstr c.name = n)).map elementTag) := by
  cases e with
  | leaf name attrs =>
    rw [elementTag, startTag_eq]
    rfl
  | node name attrs text items =>
    have hnil : xmlTagGetChilds (addRun text (startTag name attrs)) n = [] := by
      rw [getChilds_addRun, startTag_eq]
      rfl
    rw [elementTag, getChilds_addItems, hnil, foldl_linkSecond]
    rfl

theorem attrs_addItems : ∀ (items : Items) (tag : XmlTag), (addItems items tag).attrs = tag.attrs
  | .nil, _ => rfl
  | .cons e text items, tag => by
    rw [addItems, attrs_addItems items, TagPlan.attrs_addRun]
    cases tag
    rfl

theorem attrs_elementTag (e : Element) :
    (elementTag e).attrs = (startTag e.name e.attrs).attrs := by
  cases e with
  | leaf name attrs =>
    rw [elementTag]
    rfl
  | node name attrs text items =>
    rw [elementTag, attrs_addItems, TagPlan.attrs_addRun]
    rfl

/-- An attribute is set for each of an element, so the last one of a name stays. -/
theorem getAttr_elementTag (e : Element) (k : CStr) :
    xmlTagGetAttr (elementTag e) k = (elementAttr e k).map fun value => .string (some value) := by
  have hfold : ∀ (attrs : List (List Char × List Char)) (tag : XmlTag),
      xmlTagGetAttr (attrs.foldl (fun tag a =>
        xmlTagSetAttr tag (cstr a.1) (.string (some (cstr a.2)))) tag) k =
      ((attrs.reverse.find? fun a => decide (cstr a.1 = k)).map fun a =>
        Variant.string (some (cstr a.2))).or (xmlTagGetAttr tag k) := by
    intro attrs
    induction attrs with
    | nil => exact fun tag => rfl
    | cons a attrs ih =>
      intro tag
      rw [List.foldl_cons, ih, getAttr_setAttr, List.reverse_cons, List.find?_append]
      cases attrs.reverse.find? fun a => decide (cstr a.1 = k) with
      | some b => rfl
      | none =>
        by_cases hk : cstr a.1 = k
        · simp [hk]
        · simp [hk]
  rw [xmlTagGetAttr, attrs_elementTag, elementAttr, Option.map_map]
  exact (hfold e.attrs _).trans (by simp [xmlTagGetAttr, xmlTagNew, XmlTag.attrs, Ledger.empty,
    Ledger.get?, Function.comp_def])

/-! ### The loop -/

variable {σ : Type} {call : FuncCall σ}

/-- The answers in a batch for calls and what they return. -/
def batchAnswers (calls : List (CStr × XmlTag)) (rets : List (Option (Option XmlTag))) :
    List XmlTag :=
  List.zipWith (fun c ret => batchAnswer (some c.1) ret) calls rets

omit [Glib] in
theorem length_callAll (calls : List (CStr × XmlTag)) (s : σ) :
    (callAll call calls s).1.length = calls.length := by
  induction calls generalizing s with
  | nil => rfl
  | cons c calls ih => rw [callAll, List.length_cons, ih, List.length_cons]

/-- The loop calls what has a name, in order, and adds an answer for each call. -/
theorem processBatchLoop_eq (cs : List Element) (ans : XmlTag) (s : σ) :
    let calls := cs.filterMap fun c =>
      (elementAttr c (literal "name")).map fun method => (method, elementTag c)
    processBatchLoop call (cs.map elementTag) ans s =
      ((batchAnswers calls (callAll call calls s).1).foldl xmlTagAddChild ans,
        (callAll call calls s).2) := by
  induction cs generalizing ans s with
  | nil => rfl
  | cons c cs ih =>
    simp only [List.map_cons, processBatchLoop, List.filterMap_cons]
    rw [getAttr_elementTag]
    cases elementAttr c (literal "name") with
    | none => exact ih ans s
    | some method =>
      simp only [Option.map_some, variantStr]
      exact ih _ _

omit [Glib] in
theorem name_setAttr : ∀ (tag : XmlTag) (k : CStr) (var : Variant),
    (xmlTagSetAttr tag k var).name = tag.name
  | .mk _ _ _ _, _, _ => rfl

omit [Glib] in
theorem name_batchAnswer (method : Option CStr) {ret : Option (Option XmlTag)}
    (h : ∀ tag, ret = some (some tag) → tag.name = literal "response") :
    (batchAnswer method ret).name = literal "response" := by
  rw [batchAnswer, name_setAttr]
  match ret with
  | none => rfl
  | some none => rfl
  | some (some tag) => exact h tag rfl

omit [Glib] in
/-- Each answer of the calls is a response. -/
theorem name_batchAnswers
    (hname : ∀ method tag s ans, (call method tag s).1 = some (some ans) →
      ans.name = literal "response") (calls : List (CStr × XmlTag)) (s : σ) :
    ∀ ans ∈ batchAnswers calls (callAll call calls s).1, ans.name = literal "response" := by
  induction calls generalizing s with
  | nil => exact List.forall_mem_nil _
  | cons c calls ih =>
    refine List.forall_mem_cons.mpr ⟨name_batchAnswer _ fun tag htag => ?_, ih _⟩
    exact hname _ _ _ _ htag

omit [Glib] in
theorem origin_batchAnswer (method : Option CStr) (ret : Option (Option XmlTag)) :
    xmlTagGetAttr (batchAnswer method ret) (literal "origin") = some (.staticString method) := by
  rw [batchAnswer, getAttr_setAttr, if_pos rfl]

omit [Glib] in
theorem origin_batchAnswers (calls : List (CStr × XmlTag)) (s : σ) :
    (batchAnswers calls (callAll call calls s).1).map (xmlTagGetAttr · (literal "origin")) =
      calls.map fun c => some (.staticString (some c.1)) := by
  induction calls generalizing s with
  | nil => rfl
  | cons c calls ih =>
    rw [callAll, batchAnswers, List.zipWith_cons_cons, List.map_cons, List.map_cons,
      origin_batchAnswer]
    exact congrArg _ (ih _)

omit [Glib] in
/-- Responses that are added to an answer without childs stand in order when they are reordered. -/
theorem getChilds_responses {answers : List XmlTag}
    (h : ∀ ans ∈ answers, ans.name = literal "response") :
    xmlTagGetChilds (xmlTagReorderChilds (answers.foldl xmlTagAddChild mbbXmlMsgOk)
      (literal "response")) (literal "response") = answers := by
  have hall : answers.filter (fun ans => decide (ans.name = literal "response")) = answers :=
    List.filter_eq_self.mpr fun ans hans => decide_eq_true (h ans hans)
  have hnone : xmlTagGetChilds mbbXmlMsgOk (literal "response") = [] := rfl
  rw [getChilds_reorderChilds, getChilds_addAll, hall, hnone, foldl_linkSecond, linked_linked]

/-- **A batch is executed and answered in document order.** The text of a document with the root
`request` is parsed; the methods that its childs `request` name are called in their order, and the
answer has one response for each call, in that order and with the method for its origin. -/
theorem batch_in_document_order
    (hname : ∀ method tag s ans, (call method tag s).1 = some (some ans) →
      ans.name = literal "response")
    (e : Element) (hroot : cstr e.name = literal "request") (text : List Char)
    (htext : (Glib.report text).filter Event.isProper = e.events) (s : σ) :
    ∃ parser ans, xmlParserParse xmlParserNew text = .ok parser ∧
      processRequest call none (parser.given.foldl processTag none) s =
        some (some ans, (callAll call (documentCalls e) s).2) ∧
      xmlTagGetChilds ans (literal "response") =
        batchAnswers (documentCalls e) (callAll call (documentCalls e) s).1 ∧
      (xmlTagGetChilds ans (literal "response")).length = (documentCalls e).length ∧
      (xmlTagGetChilds ans (literal "response")).map (xmlTagGetAttr · (literal "origin")) =
        (documentCalls e).map fun c => some (.staticString (some c.1)) := by
  have hparse : xmlParserParse xmlParserNew text = .ok ⟨none, [elementTag e]⟩ := by
    have hfeed : feed (Glib.report text) xmlParserNew = .ok ⟨none, [elementTag e]⟩ := by
      rw [← feed_filter, htext]
      exact feed_root e []
    exact hfeed
  have hgiven : [elementTag e].foldl processTag none = some (elementTag e) := by
    rw [List.foldl_cons, List.foldl_nil, processTag, if_pos]
    rw [name_elementTag_eq, hroot]
  -- the childs are put right, so they are visited in the order of the document
  have hchilds : xmlTagGetChilds (xmlTagReorderChilds (elementTag e) (literal "request"))
      (literal "request") =
      (e.childs.filter fun c => decide (cstr c.name = literal "request")).map elementTag := by
    rw [getChilds_reorderChilds, getChilds_elementTag, linked_linked]
  have hans := getChilds_responses (name_batchAnswers hname (documentCalls e) s)
  refine ⟨_, _, hparse, ?_, hans, ?_, ?_⟩
  · rw [hgiven, processRequest, processBatch, hchilds, processBatchLoop_eq]
    rfl
  · rw [hans, batchAnswers, List.length_zipWith, length_callAll, Nat.min_self]
  · rw [hans, origin_batchAnswers]

end

/-- Calls are counted; the method `one` answers with a tag, `two` with `NULL`, others are not
known. -/
def exampleCall : FuncCall ℕ := fun method _ n =>
  if method = some (literal "one") then (some (some (xmlTagNew (literal "response") none)), n + 1)
  else if method = some (literal "two") then (some none, n + 1)
  else (none, n + 1)

/-- A child `request` that names a method. -/
def exampleRequest (method : String) : Element :=
  .leaf "request".toList [("name".toList, method.toList)]

/-- Three calls, and among them a child that has no name. -/
def exampleBatch : Element :=
  .node "request".toList [] []
    (.cons (exampleRequest "one") [] (.cons (.leaf "request".toList []) []
      (.cons (exampleRequest "two") [] (.cons (exampleRequest "three") [] .nil))))

theorem batch_in_document_order_three :
    letI := Glib.plain
    ∃ parser ans,
      xmlParserParse xmlParserNew (exampleBatch.text Glib.escapeText) = .ok parser ∧
      processRequest exampleCall none (parser.given.foldl processTag none) 0 =
        some (some ans, 3) ∧
      (xmlTagGetChilds ans (literal "response")).map (xmlTagGetAttr · (literal "origin")) =
        ["one", "two", "three"].map fun m => some (.staticString (some (literal m))) := by
  let _ := Glib.plain
  have hname : ∀ method tag n ans, (exampleCall method tag n).1 = some (some ans) →
      ans.name = literal "response" := by
    intro method tag n ans hans
    simp only [exampleCall] at hans
    split at hans
    · obtain rfl := Option.some.inj (Option.some.inj hans)
      rfl
    · split at hans <;> cases hans
  have hvalid : exampleBatch.Valid PlainName := by
    have hreq : PlainName "request".toList := ⟨by decide, List.all_eq_true.mp (by decide)⟩
    have hkey : PlainName "name".toList := ⟨by decide, List.all_eq_true.mp (by decide)⟩
    have hattr : ∀ v : List Char, ValidAttrs PlainName [("name".toList, v)] := fun v =>
      ⟨List.forall_mem_singleton.mpr hkey, List.nodup_singleton _⟩
    have hnil : ValidAttrs PlainName [] := ⟨List.forall_mem_nil _, List.nodup_nil⟩
    exact ⟨hreq, hnil, ⟨hreq, hattr _⟩, ⟨hreq, hnil⟩, ⟨hreq, hattr _⟩, ⟨hreq, hattr _⟩, trivial⟩
  obtain ⟨parser, ans, hparse, hproc, -, -, horigin⟩ := batch_in_document_order hname exampleBatch
    rfl _ (read_text hvalid) 0
  exact ⟨parser, ans, hparse, hproc, horigin⟩

end Mbb
