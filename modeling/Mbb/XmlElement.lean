import Mbb.XmlParser

/-!
# Elements of tags

The text that `xml_tag_process` writes is that of an element, and the callbacks of the parser
make a tag of what is reported of an element. While it is open, the tag is changed where it is
linked to its parent, which comes to the same as to add it to the parent when it is done.
-/

namespace Mbb

open Markup

/-! ## What is written

The writer goes through the tables of a tag as they are visited; an element is the same with all of
that left out but names, values and their order.
-/

/-- Attributes that have a string. -/
def attrStrings (attrs : List (CStr × Variant)) : List (List Char × List Char) :=
  attrs.filterMap fun a => (variantToString a.2).map fun value => (a.1.chars, value.chars)

/-- The text of the body. -/
def bodyText (body : Option Variant) : List Char :=
  ((body.bind variantToString).map CStr.chars).getD []

/-- Elements with no text behind them. -/
def itemsOf : List Element → Items
  | [] => .nil
  | e :: es => .cons e [] (itemsOf es)

mutual

/-- The element that is written for a tag. -/
def XmlTag.element : XmlTag → Element
  | .mk name attrs body childs =>
    match body, childs with
    | none, .nil => .leaf name.chars (attrStrings attrs.rows)
    | body, childs =>
      .node name.chars (attrStrings attrs.rows) (bodyText body) (itemsOf childs.elements)

/-- The elements for the childs. -/
def ChildTable.elements : ChildTable → List Element
  | .nil => []
  | .cons _ tags rest => tags.elements ++ rest.elements

/-- The elements for the childs of one name. -/
def Siblings.elements : Siblings → List Element
  | .last tag => [tag.element]
  | .cons tag next => tag.element :: next.elements

end

/-- A tag without body and childs, or with one of them. -/
theorem element_cases (name : CStr) (attrs : Ledger CStr Variant) (body : Option Variant)
    (childs : ChildTable) :
    (body = none ∧ childs = .nil ∧
        (XmlTag.mk name attrs body childs).element =
          .leaf name.chars (attrStrings attrs.rows)) ∨
      ((body = none → childs = .nil → False) ∧
        (XmlTag.mk name attrs body childs).element =
          .node name.chars (attrStrings attrs.rows) (bodyText body)
            (itemsOf childs.elements)) := by
  cases body with
  | some var => exact Or.inr ⟨nofun, by rw [XmlTag.element]; nofun⟩
  | none =>
    cases childs with
    | nil => exact Or.inl ⟨rfl, rfl, by rw [XmlTag.element]⟩
    | cons n tags rest => exact Or.inr ⟨nofun, by rw [XmlTag.element]; nofun⟩

section

variable [Glib]

/-- The text of elements without text between them. -/
theorem text_itemsOf (es : List Element) :
    (itemsOf es).text Glib.escapeText = es.flatMap (·.text Glib.escapeText) := by
  induction es with
  | nil => rfl
  | cons e es ih =>
    rw [itemsOf, Items.text, Glib.escapeText_nil, List.append_nil, ih, List.flatMap_cons]

/-- The loop over the attributes writes those of the element. -/
theorem processAttrs_eq (attrs : List (CStr × Variant)) (string : List Char) :
    attrs.foldl (xmlTagProcessAttr true) string =
      string ++ attrsText Glib.escapeText (attrStrings attrs) := by
  induction attrs generalizing string with
  | nil => exact (List.append_nil _).symm
  | cons a attrs ih =>
    rw [List.foldl_cons, ih, xmlTagProcessAttr]
    cases hvalue : variantToString a.2 with
    | none => simp [attrStrings, hvalue]
    | some value => simp [attrsText, attrStrings, processValue, hvalue]

/-- The body is written as the text of the element. -/
theorem processBody_eq (body : Option Variant) (string : List Char) :
    processBody true body string = string ++ Glib.escapeText (bodyText body) := by
  rw [processBody, bodyText]
  cases body.bind variantToString with
  | none => simp [Glib.escapeText_nil]
  | some value => rfl

mutual

/-- **What is written of a tag is the text of its element.** The writer gets a string and appends to
it, so the result is said of any string. -/
theorem processTag_eq : ∀ (tag : XmlTag) (string : List Char),
    xmlTagProcessTag true tag string = string ++ tag.element.text Glib.escapeText
  | .mk name attrs body childs, string => by
    have hchilds := processChilds_eq childs
    rcases element_cases name attrs body childs with ⟨rfl, rfl, helement⟩ | ⟨hne, helement⟩
    · rw [helement, xmlTagProcessTag, processAttrs_eq]
      simp [Element.text]
    · rw [helement, xmlTagProcessTag, processAttrs_eq, processBody_eq, hchilds]
      · simp [Element.text, text_itemsOf]
      · exact hne

/-- Likewise for the childs, name by name. -/
theorem processChilds_eq : ∀ (table : ChildTable) (string : List Char),
    xmlTagProcessChilds true table string =
      string ++ table.elements.flatMap (·.text Glib.escapeText)
  | .nil, string => (List.append_nil _).symm
  | .cons _ tags rest, string => by
    rw [xmlTagProcessChilds, processChilds_eq rest, process_eq tags, ChildTable.elements,
      List.flatMap_append, List.append_assoc]

/-- Likewise for the tags of one name. -/
theorem process_eq : ∀ (tags : Siblings) (string : List Char),
    xmlTagProcess true tags string = string ++ tags.elements.flatMap (·.text Glib.escapeText)
  | .last tag, string => by
    rw [xmlTagProcess, processTag_eq tag, Siblings.elements, List.flatMap_singleton]
  | .cons tag next, string => by
    rw [xmlTagProcess, process_eq next, processTag_eq tag, Siblings.elements, List.flatMap_cons,
      List.append_assoc]

end

/-- `xml_tag_to_string_escape` writes the element of the visited tag. -/
theorem toStringEscape_eq [HashOrder] (tag : XmlTag) :
    xmlTagToStringEscape tag = tag.visited.element.text Glib.escapeText := by
  rw [xmlTagToStringEscape, xmlTagToStringCommon, xmlTagProcess, processTag_eq, List.nil_append]

end

/-! ## What is parsed

The parser keeps the stack of open tags, each linked to its parent already. Here a path from the
root stands for the stack, and a callback is a change of the tag at the path.
-/

/-! ### Tags that are open -/

/-- A child does not change the name. -/
theorem name_addChild : ∀ tag child : XmlTag, (xmlTagAddChild tag child).name = tag.name
  | .mk _ _ _ _, _ => rfl

/-- Text does not change the name. -/
theorem name_addText (text : List Char) (tag : XmlTag) : (addText text tag).name = tag.name := by
  cases tag
  rfl

/-- A tag that begins has no body and no childs. -/
theorem startTag_eq (name : List Char) (attrs : List (List Char × List Char)) :
    startTag name attrs = .mk (cstr name) (startTag name attrs).attrs none .nil := by
  have hfold : ∀ tag : XmlTag, attrs.foldl (fun tag a =>
      xmlTagSetAttr tag (cstr a.1) (.string (some (cstr a.2)))) tag =
      .mk tag.name (attrs.foldl (fun tag a =>
        xmlTagSetAttr tag (cstr a.1) (.string (some (cstr a.2)))) tag).attrs tag.body
        tag.childs := by
    induction attrs with
    | nil =>
      rintro ⟨n, as, body, childs⟩
      rfl
    | cons a attrs ih =>
      rintro ⟨n, as, body, childs⟩
      exact ih _
  exact hfold _

/-- A start gives the tag its name, with the attributes put one by one. -/
theorem name_startTag (name : List Char) (attrs : List (List Char × List Char)) :
    (startTag name attrs).name = cstr name := by
  rw [startTag_eq]
  rfl

namespace Siblings

/-- The newest of the tags of a name is the one that was linked last. -/
theorem newest_link : ∀ (tags : Siblings) (child : XmlTag), (tags.link child).newest = child
  | .last _, _ => rfl
  | .cons _ _, _ => rfl

/-- To change a tag after it was linked is to link it changed. -/
theorem modifyNewest_link (f : XmlTag → XmlTag) : ∀ (tags : Siblings) (child : XmlTag),
    (tags.link child).modifyNewest f = tags.link (f child)
  | .last _, _ => rfl
  | .cons _ _, _ => rfl

/-- The newest tag, after a change to it. -/
theorem newest_modifyNewest (f : XmlTag → XmlTag) : ∀ tags : Siblings,
    (tags.modifyNewest f).newest = f tags.newest
  | .last _ => rfl
  | .cons _ (.last _) => rfl
  | .cons _ (.cons _ _) => rfl

/-- Two changes of the newest tag are one. -/
theorem modifyNewest_modifyNewest (f g : XmlTag → XmlTag) : ∀ tags : Siblings,
    (tags.modifyNewest f).modifyNewest g = tags.modifyNewest fun tag => g (f tag)
  | .last _ => rfl
  | .cons _ (.last _) => rfl
  | .cons _ (.cons _ _) => rfl

/-- No change of the newest tag is none. -/
theorem modifyNewest_id : ∀ tags : Siblings, tags.modifyNewest (fun tag => tag) = tags
  | .last _ => rfl
  | .cons _ (.last _) => rfl
  | .cons _ (.cons _ _) => rfl

end Siblings

namespace ChildTable

/-- The tags of a name in a table to which a child was added. -/
theorem get?_add : ∀ (table : ChildTable) (child : XmlTag) (k : CStr),
    (table.add child).get? k = if child.name = k then
      some (((table.get? k).map fun tags => tags.link child).getD (.last child))
    else table.get? k
  | .nil, child, k => rfl
  | .cons name tags rest, child, k => by
    rw [add]
    split
    · rename_i heq
      rw [get?, get?, heq]
      split <;> rfl
    · rename_i hne
      rw [get?, get?, get?_add rest child k]
      split
      · rename_i hk
        rw [if_neg fun h => hne (hk.trans h.symm)]
      · rfl

/-- To change a child after it was added is to add it changed, if its name stays. -/
theorem modifyNewest_add {f : XmlTag → XmlTag} {child : XmlTag} (hf : (f child).name = child.name) :
    ∀ table : ChildTable, (table.add child).modifyNewest f child.name = table.add (f child)
  | .nil => by
    rw [add, modifyNewest, if_pos rfl, add, hf]
    rfl
  | .cons name tags rest => by
    rw [add, add, hf]
    split
    · rename_i heq
      rw [modifyNewest, if_pos heq, Siblings.modifyNewest_link]
    · rename_i hne
      rw [modifyNewest, if_neg hne, modifyNewest_add hf rest]

/-- A change of the newest tag of a name is seen under this name. -/
theorem get?_modifyNewest (f : XmlTag → XmlTag) (k : CStr) : ∀ table : ChildTable,
    (table.modifyNewest f k).get? k = (table.get? k).map (Siblings.modifyNewest f)
  | .nil => rfl
  | .cons name tags rest => by
    rw [modifyNewest]
    split
    · rename_i heq
      rw [get?, get?, if_pos heq, if_pos heq, Option.map_some]
    · rename_i hne
      rw [get?, get?, if_neg hne, if_neg hne, get?_modifyNewest f k rest]

/-- Two changes under one name are one. -/
theorem modifyNewest_modifyNewest (f g : XmlTag → XmlTag) (k : CStr) : ∀ table : ChildTable,
    (table.modifyNewest f k).modifyNewest g k = table.modifyNewest (fun tag => g (f tag)) k
  | .nil => rfl
  | .cons name tags rest => by
    rw [modifyNewest, modifyNewest]
    split
    · rename_i heq
      rw [modifyNewest, if_pos heq, Siblings.modifyNewest_modifyNewest]
    · rename_i hne
      rw [modifyNewest, if_neg hne, modifyNewest_modifyNewest f g k rest]

/-- No change under a name is none. -/
theorem modifyNewest_id (k : CStr) : ∀ table : ChildTable,
    table.modifyNewest (fun tag => tag) k = table
  | .nil => rfl
  | .cons name tags rest => by
    rw [modifyNewest, Siblings.modifyNewest_id, modifyNewest_id k rest, ite_self]

end ChildTable

namespace XmlTag

/-- No change of the open tag is none. -/
theorem modifyAt_id (path : List CStr) : ∀ tag : XmlTag,
    tag.modifyAt (fun tag => tag) path = tag := by
  induction path with
  | nil => exact fun tag => rfl
  | cons n path ih =>
    rintro ⟨name, attrs, body, childs⟩
    have hfun : modifyAt (fun tag => tag) path = fun tag => tag := funext ih
    rw [modifyAt, hfun, ChildTable.modifyNewest_id]

/-- Two changes at one path are one. -/
theorem modifyAt_modifyAt (f g : XmlTag → XmlTag) (path : List CStr) : ∀ tag : XmlTag,
    (tag.modifyAt f path).modifyAt g path = tag.modifyAt (fun t => g (f t)) path := by
  induction path with
  | nil => exact fun tag => rfl
  | cons n path ih =>
    rintro ⟨name, attrs, body, childs⟩
    have hfun : (fun t => modifyAt g path (modifyAt f path t)) =
        modifyAt (fun t => g (f t)) path := funext ih
    rw [modifyAt, modifyAt, ChildTable.modifyNewest_modifyNewest, hfun, modifyAt]

/-- A path may be followed in two parts. -/
theorem modifyAt_append (f : XmlTag → XmlTag) (path path' : List CStr) : ∀ tag : XmlTag,
    tag.modifyAt f (path ++ path') = tag.modifyAt (fun t => t.modifyAt f path') path := by
  induction path with
  | nil => exact fun tag => rfl
  | cons n path ih =>
    rintro ⟨name, attrs, body, childs⟩
    have hfun : modifyAt f (path ++ path') = modifyAt (fun t => t.modifyAt f path') path :=
      funext ih
    rw [List.cons_append, modifyAt, hfun, modifyAt]

/-- The tag at a path is found in two parts as well. -/
theorem tagAt_append (path path' : List CStr) : ∀ tag : XmlTag,
    tag.tagAt (path ++ path') = (tag.tagAt path).bind (tagAt path') := by
  induction path with
  | nil => exact fun tag => rfl
  | cons n path ih =>
    intro tag
    rw [List.cons_append, tagAt, tagAt, Option.bind_assoc]
    exact congrArg _ (funext fun tags => ih tags.newest)

/-- The tag at a path, after it was changed there. -/
theorem tagAt_modifyAt (f : XmlTag → XmlTag) (path : List CStr) : ∀ tag : XmlTag,
    (tag.modifyAt f path).tagAt path = (tag.tagAt path).map f := by
  induction path with
  | nil => exact fun tag => rfl
  | cons n path ih =>
    rintro ⟨name, attrs, body, table⟩
    rw [modifyAt, tagAt, tagAt, childs, childs, ChildTable.get?_modifyNewest, Option.bind_map,
      Option.map_bind]
    refine congrArg _ (funext fun tags => ?_)
    simp only [Function.comp_apply, Siblings.newest_modifyNewest, ih]

/-- The tag just added is at the end of the path. -/
theorem tagAt_addChild {path : List CStr} {root tag : XmlTag} (h : root.tagAt path = some tag)
    (child : XmlTag) :
    (root.modifyAt (xmlTagAddChild · child) path).tagAt (path ++ [child.name]) = some child := by
  rw [tagAt_append, tagAt_modifyAt, h, Option.map_some, Option.bind_some]
  obtain ⟨name, attrs, body, table⟩ := tag
  rw [xmlTagAddChild, tagAt, childs, ChildTable.get?_add, if_pos rfl]
  cases table.get? child.name with
  | none => rfl
  | some tags =>
    rw [Option.map_some, Option.getD_some, Option.bind_some, Siblings.newest_link]
    rfl

/-- To change the tag just added is to add it changed. -/
theorem modifyAt_addChild {f : XmlTag → XmlTag} {child : XmlTag}
    (hf : (f child).name = child.name) (path : List CStr) (root : XmlTag) :
    (root.modifyAt (xmlTagAddChild · child) path).modifyAt f (path ++ [child.name]) =
      root.modifyAt (xmlTagAddChild · (f child)) path := by
  rw [modifyAt_append, modifyAt_modifyAt]
  refine congrArg (root.modifyAt · path) (funext fun tag => ?_)
  obtain ⟨name, attrs, body, table⟩ := tag
  simp only [xmlTagAddChild, modifyAt]
  rw [ChildTable.modifyNewest_add hf]

end XmlTag

/-! ### Elements

The events of an element make one tag. The induction is over the element, with any tag open and any
path to it.
-/

section

variable [Glib]

/-- A run of text in a tag. -/
def addRun (text : List Char) (tag : XmlTag) : XmlTag :=
  match stripNonGraph text with
  | [] => tag
  | text => addText text tag

mutual

/-- The tag that is made of an element. -/
def elementTag : Element → XmlTag
  | .leaf name attrs => startTag name attrs
  | .node name attrs text items => addItems items (addRun text (startTag name attrs))

/-- Elements and texts are added to a tag. -/
def addItems : Items → XmlTag → XmlTag
  | .nil, tag => tag
  | .cons element text items, tag =>
    addItems items (addRun text (xmlTagAddChild tag (elementTag element)))

end

/-- A run of text does not change the name. -/
theorem name_addRun (text : List Char) (tag : XmlTag) : (addRun text tag).name = tag.name := by
  rw [addRun]
  split
  · rfl
  · exact name_addText _ tag

/-- Nor does what is in an element. -/
theorem name_addItems : ∀ (items : Items) (tag : XmlTag), (addItems items tag).name = tag.name
  | .nil, _ => rfl
  | .cons element text items, tag => by
    rw [addItems, name_addItems items, name_addRun, name_addChild]

/-- The callbacks one after the other. -/
def feed (events : List Event) (parser : XmlParser) : Except ParserError XmlParser :=
  events.foldlM callback parser

/-- Events are taken in two parts, the second one if the first makes no error. -/
theorem feed_append (es es' : List Event) (parser : XmlParser) :
    feed (es ++ es') parser = (feed es parser).bind (feed es') :=
  List.foldlM_append

/-- The first event, and the others. -/
theorem feed_cons (e : Event) (es : List Event) (parser : XmlParser) :
    feed (e :: es) parser = (callback parser e).bind (feed es) :=
  List.foldlM_cons

/-- The parser with an open tag at the end of the path. -/
def opened (root : XmlTag) (path : List CStr) (given : List XmlTag) : XmlParser :=
  ⟨some (root, path), given⟩

/-- A run of no text is ignored. -/
theorem feed_filter (es : List Event) (parser : XmlParser) :
    feed (es.filter Event.isProper) parser = feed es parser := by
  induction es generalizing parser with
  | nil => rfl
  | cons e es ih =>
    by_cases he : e.isProper = true
    · rw [List.filter_cons_of_pos he, feed_cons, feed_cons]
      exact congrArg _ (funext ih)
    · rw [List.filter_cons_of_neg he, ih, feed_cons]
      cases e with
      | start name attrs => exact absurd rfl he
      | finish name => exact absurd rfl he
      | text s =>
        obtain rfl : s = [] := by simpa [Event.isProper] using he
        rfl

variable {root tag : XmlTag} {path : List CStr} {given : List XmlTag}

/-- A run of text goes to the tag that is open. -/
theorem feed_text (s : List Char) :
    feed (textEvents s) (opened root path given) =
      .ok (opened (root.modifyAt (addRun s) path) path given) := by
  rw [textEvents, feed_filter, feed_cons, callback, parserText, opened]
  cases hs : stripNonGraph s with
  | nil =>
    have hrun : addRun s = fun tag => tag := funext fun tag => by rw [addRun, hs]
    rw [hrun, XmlTag.modifyAt_id]
    rfl
  | cons c cs =>
    have hrun : addRun s = addText (c :: cs) := funext fun tag => by rw [addRun, hs]
    rw [hrun]
    rfl

/-- A start adds an empty tag to the one that is open, and opens it. -/
theorem feed_start (name : List Char) (attrs : List (List Char × List Char)) (es : List Event) :
    feed (.start name attrs :: es) (opened root path given) =
      feed es (opened (root.modifyAt (xmlTagAddChild · (startTag name attrs)) path)
        (path ++ [(startTag name attrs).name]) given) :=
  feed_cons _ _ _

/-- A finish closes the tag that is open; its name is that of the start. -/
theorem feed_finish {n : CStr} {name : List Char} (h : root.tagAt (path ++ [n]) = some tag)
    (hname : tag.name = cstr name) :
    feed [.finish name] (opened root (path ++ [n]) given) = .ok (opened root path given) := by
  have hne : path ++ [n] ≠ [] := by simp
  rw [feed_cons, callback, opened, parserEndElem]
  simp only [h, hname, ne_eq, not_true_eq_false, if_false, hne, List.dropLast_concat]
  rfl

mutual

/-- An element becomes a child of the open tag. -/
theorem feed_element : ∀ (e : Element) {root tag : XmlTag} {path : List CStr}
    {given : List XmlTag}, root.tagAt path = some tag →
    feed e.events (opened root path given) =
      .ok (opened (root.modifyAt (xmlTagAddChild · (elementTag e)) path) path given)
  | .leaf name attrs, root, tag, path, given, h => by
    rw [Element.events, feed_start,
      feed_finish (XmlTag.tagAt_addChild h _) (name_startTag name attrs), elementTag]
  | .node name attrs text items, root, tag, path, given, h => by
    have hchild := XmlTag.tagAt_addChild h (startTag name attrs)
    -- the childs are added to the tag that is open now
    have htext : (root.modifyAt (xmlTagAddChild · (startTag name attrs)) path).modifyAt
        (addRun text) (path ++ [(startTag name attrs).name]) =
        root.modifyAt (xmlTagAddChild · (addRun text (startTag name attrs))) path :=
      XmlTag.modifyAt_addChild (name_addRun _ _) path root
    have hname := name_addRun text (startTag name attrs)
    have hopen := XmlTag.tagAt_addChild h (addRun text (startTag name attrs))
    rw [hname] at hopen
    have hitems : feed items.events (opened _ _ given) = .ok (opened _ _ given) :=
      feed_items items hopen
    have hadd := XmlTag.modifyAt_addChild (f := addItems items)
      (name_addItems items (addRun text (startTag name attrs))) path root
    rw [hname] at hadd
    have hend := XmlTag.tagAt_addChild h (addItems items (addRun text (startTag name attrs)))
    rw [name_addItems, hname] at hend
    rw [Element.events, List.cons_append, feed_start, feed_append, feed_append, feed_text,
      htext, Except.bind, hitems, Except.bind, hadd,
      feed_finish hend (by rw [name_addItems, hname, name_startTag]), elementTag]

/-- What is in an element is added to the tag that is open, part by part. -/
theorem feed_items : ∀ (items : Items) {root tag : XmlTag} {path : List CStr}
    {given : List XmlTag}, root.tagAt path = some tag →
    feed items.events (opened root path given) =
      .ok (opened (root.modifyAt (addItems items) path) path given)
  | .nil, root, tag, path, given, h => by
    have hid : addItems .nil = fun tag => tag := funext fun tag => by rw [addItems]
    rw [Items.events, hid, XmlTag.modifyAt_id]
    rfl
  | .cons e text items, root, tag, path, given, h => by
    have hchild : (root.modifyAt (xmlTagAddChild · (elementTag e)) path).tagAt path =
        some (xmlTagAddChild tag (elementTag e)) := by
      rw [XmlTag.tagAt_modifyAt, h, Option.map_some]
    have hopen : ((root.modifyAt (xmlTagAddChild · (elementTag e)) path).modifyAt
        (addRun text) path).tagAt path =
        some (addRun text (xmlTagAddChild tag (elementTag e))) := by
      rw [XmlTag.tagAt_modifyAt, hchild, Option.map_some]
    rw [Items.events, feed_append, feed_append, feed_element e h, Except.bind, feed_text,
      Except.bind, feed_items items hopen, XmlTag.modifyAt_modifyAt, XmlTag.modifyAt_modifyAt]
    rfl

end

/-- The outermost element is handed over. -/
theorem feed_root : ∀ (e : Element) (given : List XmlTag),
    feed e.events ⟨none, given⟩ = .ok ⟨none, given ++ [elementTag e]⟩
  | .leaf name attrs, given => by
    have hend : parserEndElem name ⟨some (startTag name attrs, []), given⟩ =
        .ok ⟨none, given ++ [startTag name attrs]⟩ := by
      simp [parserEndElem, XmlTag.tagAt, name_startTag]
    rw [Element.events, feed_cons, callback, Except.bind, feed_cons, callback, parserStartElem]
    simp only [hend]
    rfl
  | .node name attrs text items, given => by
    have hname : (addItems items (addRun text (startTag name attrs))).name = cstr name := by
      rw [name_addItems, name_addRun, name_startTag]
    have hend : feed [.finish name]
        (opened (addItems items (addRun text (startTag name attrs))) [] given) =
        .ok ⟨none, given ++ [addItems items (addRun text (startTag name attrs))]⟩ := by
      rw [feed_cons, callback, opened, parserEndElem]
      simp only [XmlTag.tagAt, hname, ne_eq, not_true_eq_false, if_false, if_true]
      rfl
    have hitems : feed items.events (opened (addRun text (startTag name attrs)) [] given) =
        .ok (opened _ [] given) := feed_items items rfl
    have hstart : parserStartElem name attrs ⟨none, given⟩ =
        opened (startTag name attrs) [] given := rfl
    rw [Element.events, List.cons_append, feed_cons, callback, Except.bind, feed_append,
      feed_append, hstart, feed_text]
    simp only [XmlTag.modifyAt] at hitems ⊢
    rw [Except.bind, hitems, Except.bind, hend, elementTag]

/-- The parser makes a tag of what GMarkup reads of an element. -/
theorem parse_element (attr text : List Char → List Char) [Glib.Reads attr text] {e : Element}
    (h : e.Valid Glib.validName) :
    xmlParserParse xmlParserNew (e.text Glib.escapeText) =
      .ok ⟨none, [elementTag (e.map attr text)]⟩ := by
  have hfeed := feed_root (e.map attr text) []
  rw [← Glib.Reads.report_text e h, feed_filter] at hfeed
  exact hfeed

end

end Mbb
