import Mbb.XmlTag
import Mbb.Lib.Markup
import Mathlib.Data.List.DropRight

/-!
# Writing and parsing XML (`lib/xmltag.c`, `lib/xmlparser.c`)

`xml_tag_process` writes a tag with its childs in the order of the table and of `next`. The
parser gets what GMarkup reports of a text, and builds tags of it with `xml_tag_add_child`.

`tag_list` holds pointers to the open tags. A tag is linked to its parent as soon as it is open,
and is reached from there as the child last added under its name, for no other is added to the
parent before it is closed. So `tag_list` is the outermost tag here, and the names that lead from
it to the tag in front of the list.
-/

namespace Mbb

open Markup

/-- What is used of GLib. -/
class Glib : Type where
  /-- `g_markup_escape_text` -/
  escapeText : List Char → List Char
  /-- No text is no text. -/
  escapeText_nil : escapeText [] = []
  /-- `g_unichar_isgraph` -/
  isgraph : Char → Bool
  /-- names that the parser of GMarkup takes -/
  validName : List Char → Prop
  /-- the callbacks of `g_markup_parse_context_parse` for a text -/
  report : List Char → List Event

/-- GMarkup gives the values of attributes as `attr`, and runs of text as `text` of them. -/
class Glib.Reads [Glib] (attr text : List Char → List Char) : Prop where
  /-- Of a document, elements, attributes and runs of text are reported in order, with escapes
  undone. -/
  report_text : ∀ e : Element, e.Valid Glib.validName →
    (Glib.report (e.text Glib.escapeText)).filter Event.isProper = (e.map attr text).events

/-! ## Tags -/

/-- `xml_tag_set_attr` -/
def xmlTagSetAttr : XmlTag → CStr → Variant → XmlTag
  | .mk name attrs body childs, optName, var => .mk name (attrs.put optName var) body childs

/-- `xml_tag_new` without attributes -/
def xmlTagNew (name : CStr) (body : Option Variant) : XmlTag := .mk name .empty body .nil

/-- `xml_tag_set_body` -/
def xmlTagSetBody : XmlTag → Option Variant → XmlTag
  | .mk name attrs _ childs, body => .mk name attrs body childs

namespace Siblings

/-- The tag is put behind the first. -/
def link : Siblings → XmlTag → Siblings
  | .last prev, child => .cons prev (.last child)
  | .cons prev next, child => .cons prev (.cons child next)

/-- The tag last put into the list, as long as only `link` was used. -/
def newest : Siblings → XmlTag
  | .last tag => tag
  | .cons _ (.last tag) => tag
  | .cons _ (.cons tag _) => tag

/-- Change that tag. -/
def modifyNewest (f : XmlTag → XmlTag) : Siblings → Siblings
  | .last tag => .last (f tag)
  | .cons first (.last tag) => .cons first (.last (f tag))
  | .cons first (.cons tag next) => .cons first (.cons (f tag) next)

end Siblings

namespace ChildTable

/-- `g_hash_table_lookup` -/
def get? : ChildTable → CStr → Option Siblings
  | .nil, _ => none
  | .cons name tags rest, k => if name = k then some tags else rest.get? k

/-- The childs with the tag added: behind the first of its name, if there is one. -/
def add : ChildTable → XmlTag → ChildTable
  | .nil, child => .cons child.name (.last child) .nil
  | .cons name tags rest, child =>
    if name = child.name then .cons name (tags.link child) rest
    else .cons name tags (rest.add child)

/-- Change the child last added under a name. -/
def modifyNewest (f : XmlTag → XmlTag) : ChildTable → CStr → ChildTable
  | .nil, _ => .nil
  | .cons name tags rest, k =>
    if name = k then .cons name (tags.modifyNewest f) rest
    else .cons name tags (rest.modifyNewest f k)

end ChildTable

/-- `xml_tag_add_child` -/
def xmlTagAddChild : XmlTag → XmlTag → XmlTag
  | .mk name attrs body childs, child => .mk name attrs body (childs.add child)

/-- `xml_tag_get_child`, with the others of that name by `next`. -/
def xmlTagGetChilds (tag : XmlTag) (name : CStr) : List XmlTag :=
  match tag.childs.get? name with
  | none => []
  | some tags => tags.tags

/-! ## Writing

Attributes and bodies are escaped or not, by a flag; the childs follow in the order of the tables.
-/

section

variable [Glib]

/-- A value as it is written. -/
def processValue (escape : Bool) (value : CStr) : List Char :=
  if escape then Glib.escapeText value.chars else value.chars

/-- `xml_tag_process_attr` -/
def xmlTagProcessAttr (escape : Bool) (string : List Char) (attr : CStr × Variant) : List Char :=
  match variantToString attr.2 with
  | none => string
  | some value =>
    string ++ ' ' :: (attr.1.chars ++ ['=', '\''] ++ processValue escape value ++ ['\''])

/-- The body in `xml_tag_process`. -/
def processBody (escape : Bool) (body : Option Variant) (string : List Char) : List Char :=
  match body.bind variantToString with
  | none => string
  | some value => string ++ processValue escape value

mutual

/-- `xml_tag_process` -/
def xmlTagProcess (escape : Bool) : Siblings → List Char → List Char
  | .last tag, string => xmlTagProcessTag escape tag string
  | .cons tag next, string => xmlTagProcess escape next (xmlTagProcessTag escape tag string)

/-- One round of the loop. -/
def xmlTagProcessTag (escape : Bool) : XmlTag → List Char → List Char
  | .mk name attrs body childs, string =>
    let string := attrs.rows.foldl (xmlTagProcessAttr escape) (string ++ '<' :: name.chars)
    match body, childs with
    | none, .nil => string ++ ['/', '>']
    | body, childs =>
      xmlTagProcessChilds escape childs (processBody escape body (string ++ ['>'])) ++
        '<' :: '/' :: name.chars ++ ['>']

/-- `foreach_child` for each name in the table -/
def xmlTagProcessChilds (escape : Bool) : ChildTable → List Char → List Char
  | .nil, string => string
  | .cons _ tags rest, string =>
    xmlTagProcessChilds escape rest (xmlTagProcess escape tags string)

end

/-- `xml_tag_to_string_common`; the tag is not a child, so `next` is `NULL`. -/
def xmlTagToStringCommon [HashOrder] (tag : XmlTag) (escape : Bool) : List Char :=
  xmlTagProcess escape (.last tag.visited) []

/-- `xml_tag_to_string_escape` -/
def xmlTagToStringEscape [HashOrder] (tag : XmlTag) : List Char := xmlTagToStringCommon tag true

end

/-! ## Parsing

The callbacks for the events of GMarkup. Each works on the tag that is open at the time.
-/

namespace XmlTag

/-- The tag to which the names lead. -/
def tagAt : List CStr → XmlTag → Option XmlTag
  | [], tag => some tag
  | name :: path, tag => (tag.childs.get? name).bind fun tags => tagAt path tags.newest

/-- Change the tag to which the names lead. -/
def modifyAt (f : XmlTag → XmlTag) : List CStr → XmlTag → XmlTag
  | [], tag => f tag
  | n :: path, .mk name attrs body childs =>
    .mk name attrs body (childs.modifyNewest (modifyAt f path) n)

end XmlTag

/-- `struct xml_parser` -/
structure XmlParser : Type where
  /-- `tag_list`, if it is not empty: the last tag, and the names from it to the first -/
  tagList : Option (XmlTag × List CStr)
  /-- the tags for which `user_func` was called -/
  given : List XmlTag

/-- Ways to fail. -/
inductive ParserError : Type where
  /-- `unexpected closed tag '%s', must be '%s'` -/
  | unexpectedClosed (elemName tagName : CStr)
  /-- `tag_list` is `NULL`. -/
  | noTag

/-- The string of C in a text: up to the first `'\0'`. -/
def cstr (s : List Char) : CStr where
  chars := s.takeWhile (· ≠ '\x00')
  noNul := fun h => by simpa using List.mem_takeWhile_imp h

/-- The tag that `parser_start_elem` makes. -/
def startTag (elemName : List Char) (attrs : List (List Char × List Char)) : XmlTag :=
  attrs.foldl (fun tag a => xmlTagSetAttr tag (cstr a.1) (.string (some (cstr a.2))))
    (xmlTagNew (cstr elemName) none)

/-- `parser_start_elem` -/
def parserStartElem (elemName : List Char) (attrs : List (List Char × List Char))
    (parser : XmlParser) : XmlParser :=
  let tag := startTag elemName attrs
  match parser.tagList with
  | none => { parser with tagList := some (tag, []) }
  | some (root, path) =>
    { parser with
      tagList := some (root.modifyAt (xmlTagAddChild · tag) path, path ++ [tag.name]) }

/-- `strip_non_graph` -/
def stripNonGraph [Glib] (text : List Char) : List Char :=
  (text.dropWhile fun uc => !Glib.isgraph uc).rdropWhile fun uc => !Glib.isgraph uc

/-- `variant_get_string`, as `%s` writes it. -/
def variantGetString : Variant → List Char
  | .string (some str) => str.chars
  | .staticString (some str) => str.chars
  | _ => "(null)".toList

/-- A text is added to the body. -/
def addText (text : List Char) (tag : XmlTag) : XmlTag :=
  let body :=
    match tag.body with
    | none => text
    | some var => variantGetString var ++ text
  xmlTagSetBody tag (some (.staticString (some (cstr body))))

/-- `parser_text` -/
def parserText [Glib] (text : List Char) (parser : XmlParser) : Except ParserError XmlParser :=
  match stripNonGraph text with
  | [] => .ok parser
  | text =>
    match parser.tagList with
    | none => .error .noTag
    | some (root, path) =>
      .ok { parser with tagList := some (root.modifyAt (addText text) path, path) }

/-- `parser_end_elem` -/
def parserEndElem (elemName : List Char) (parser : XmlParser) : Except ParserError XmlParser :=
  match parser.tagList with
  | none => .error .noTag
  | some (root, path) =>
    match root.tagAt path with
    | none => .error .noTag
    | some tag =>
      if tag.name ≠ cstr elemName then .error (.unexpectedClosed (cstr elemName) tag.name)
      else if path = [] then .ok { tagList := none, given := parser.given ++ [root] }
      else .ok { parser with tagList := some (root, path.dropLast) }

/-- The callbacks. -/
def callback [Glib] (parser : XmlParser) : Event → Except ParserError XmlParser
  | .start name attrs => .ok (parserStartElem name attrs parser)
  | .text s => parserText s parser
  | .finish name => parserEndElem name parser

/-- `xml_parser_new` -/
def xmlParserNew : XmlParser := ⟨none, []⟩

/-- `xml_parser_parse` -/
def xmlParserParse [Glib] (parser : XmlParser) (text : List Char) : Except ParserError XmlParser :=
  (Glib.report text).foldlM callback parser

end Mbb
