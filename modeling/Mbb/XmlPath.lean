import Mathlib.Data.List.Rotate
import Mbb.HttpBatch

/-!
# Paths into tags and the arguments of a request (`lib/xmltag.c`, `mbbd/mbbxtv.c`)

`xml_tag_path` goes from a tag to the first child of each name of a path, and `xml_tag_path_list`
to all of them, from the last that it visits to the first. The childs of a name are stored as the
first, the last, and so on to the second, so on every level the list has them in the order of the
document but for the first, which comes last.

A method says which attributes of its request it needs by a table of `struct xml_tag_var`.
-/

namespace Mbb

open Markup

/-! ## Paths

The walk over a path pushes what it finds in front of a list, so that the list comes out turned
round on every level.
-/

/-- `g_strsplit` at `/`, without a limit -/
def pathNames (path : CStr) : List CStr :=
  if path.chars = [] then [] else (path.chars.splitOn '/').map cstr

/-- `xml_tag_get_child` -/
def xmlTagGetChild (tag : XmlTag) (name : CStr) : Option XmlTag := (xmlTagGetChilds tag name).head?

/-- The loop of `xml_tag_path`. -/
def xmlTagPathLoop : List CStr → XmlTag → Option XmlTag
  | [], child => some child
  | name :: names, child =>
    match xmlTagGetChild child name with
    | none => none
    | some child => xmlTagPathLoop names child

/-- `xml_tag_path` -/
def xmlTagPath (tag : XmlTag) : Option CStr → Option XmlTag
  | none => some tag
  | some path => xmlTagPathLoop (pathNames path) tag

section

variable {P : Type} (func : XmlTag → Option P)

/-- `xml_tag_path_walk`; without a function of its own the tag itself is kept. -/
def xmlTagPathWalk : List CStr → XmlTag → List P → List P
  | [], tag, list =>
    match func tag with
    | none => list
    | some ptr => ptr :: list
  | name :: names, tag, list =>
    (xmlTagGetChilds tag name).foldl (fun list child => xmlTagPathWalk names child list) list

/-- `xml_tag_path_go` -/
def xmlTagPathGo (tag : XmlTag) (path : CStr) : List P :=
  xmlTagPathWalk func (pathNames path) tag []

end

/-- `xml_tag_path_list` -/
def xmlTagPathList (tag : XmlTag) (path : CStr) : List XmlTag := xmlTagPathGo some tag path

/-- `xml_tag_path_attr` -/
def xmlTagPathAttr (tag : XmlTag) (path : Option CStr) (attr : CStr) : Option Variant :=
  match xmlTagPath tag path with
  | none => none
  | some child => xmlTagGetAttr child attr

/-- `xml_tag_path_attr_list` -/
def xmlTagPathAttrList (tag : XmlTag) (path attr : CStr) : List Variant :=
  xmlTagPathGo (xmlTagGetAttr · attr) tag path

/-- `xml_tag_path_body` -/
def xmlTagPathBody (tag : XmlTag) (path : Option CStr) : Option Variant :=
  match xmlTagPath tag path with
  | none => none
  | some child => child.body

/-- The tags that `xml_tag_path_walk` visits at the end of the path. -/
def tagsAt : List CStr → XmlTag → List XmlTag
  | [], tag => [tag]
  | name :: names, tag => (xmlTagGetChilds tag name).flatMap (tagsAt names)

/-- The walk puts what it finds in front, so the last comes first. -/
theorem xmlTagPathWalk_eq {P : Type} (func : XmlTag → Option P) (names : List CStr) (tag : XmlTag)
    (list : List P) :
    xmlTagPathWalk func names tag list = ((tagsAt names tag).filterMap func).reverse ++ list := by
  induction names generalizing tag list with
  | nil =>
    rw [xmlTagPathWalk, tagsAt, List.filterMap_cons, List.filterMap_nil]
    cases func tag with
    | none => rfl
    | some ptr => rfl
  | cons name names ih =>
    rw [xmlTagPathWalk, tagsAt]
    generalize xmlTagGetChilds tag name = childs
    induction childs generalizing list with
    | nil => rfl
    | cons child childs ihc =>
      rw [List.foldl_cons, ih, ihc, List.flatMap_cons, List.filterMap_append, List.reverse_append,
        List.append_assoc]

/-- The tag of `xml_tag_path` is the first one visited, and so the last of `xml_tag_path_list`. -/
theorem xmlTagPathLoop_head {names : List CStr} {tag child : XmlTag}
    (h : xmlTagPathLoop names tag = some child) : (tagsAt names tag).head? = some child := by
  induction names generalizing tag with
  | nil => exact h
  | cons name names ih =>
    rw [xmlTagPathLoop, xmlTagGetChild] at h
    rw [tagsAt]
    cases hchilds : xmlTagGetChilds tag name with
    | nil => simp [hchilds] at h
    | cons first childs =>
      rw [hchilds] at h
      rw [List.flatMap_cons, List.head?_append, ih h, Option.some_or]

/-! ### Paths into documents -/

/-- The childs of an element with a name, the first of them last. -/
def childsRotated (name : CStr) (e : Element) : List Element :=
  (e.childs.filter fun c => decide (cstr c.name = name)).rotate 1

/-- The elements to which names lead, with the first child last on every level. -/
def elementsRotated : List CStr → Element → List Element
  | [], e => [e]
  | name :: names, e => (childsRotated name e).flatMap (elementsRotated names)

/-- The element to which names lead by the first child on every level. -/
def elementFirst : List CStr → Element → Option Element
  | [], e => some e
  | name :: names, e =>
    match e.childs.find? fun c => decide (cstr c.name = name) with
    | none => none
    | some c => elementFirst names c

theorem reverse_linked {α : Type} : ∀ l : List α, (linked l).reverse = l.rotate 1
  | [] => rfl
  | first :: others => by
    rw [linked, List.reverse_cons, List.reverse_reverse, List.rotate_cons_succ, List.rotate_zero]

section

variable [Glib]

theorem tagsAt_elementTag (names : List CStr) (e : Element) :
    (tagsAt names (elementTag e)).reverse = (elementsRotated names e).map elementTag := by
  induction names generalizing e with
  | nil => rfl
  | cons name names ih =>
    have hchilds : (xmlTagGetChilds (elementTag e) name).reverse =
        (childsRotated name e).map elementTag := by
      rw [getChilds_elementTag, reverse_linked, childsRotated, List.map_rotate]
    rw [tagsAt, elementsRotated, List.reverse_flatMap, hchilds, List.flatMap_map, List.map_flatMap]
    exact congrArg (List.flatMap · _) (funext fun c => ih c)

theorem xmlTagPathLoop_elementTag (names : List CStr) (e : Element) :
    xmlTagPathLoop names (elementTag e) = (elementFirst names e).map elementTag := by
  induction names generalizing e with
  | nil => rfl
  | cons name names ih =>
    have hhead : xmlTagGetChild (elementTag e) name =
        (e.childs.find? fun c => decide (cstr c.name = name)).map elementTag := by
      rw [xmlTagGetChild, getChilds_elementTag, ← List.head?_filter]
      cases e.childs.filter fun c => decide (cstr c.name = name) with
      | nil => rfl
      | cons first others => rfl
    rw [xmlTagPathLoop, elementFirst, hhead]
    cases e.childs.find? fun c => decide (cstr c.name = name) with
    | none => rfl
    | some c => exact ih c

/-- **Paths into a parsed document.** The list of tags that a path gives has the elements at the
path, in the order of the document but that on every level the first child comes last, and the list
that a path and an attribute give has the values of the attribute in these elements, in the same
order. The tag at the path is the one reached by the first child on every level, and it is the last
of the list of tags. -/
theorem path_lists_of_document (text : List Char) (e : Element)
    (htext : (Glib.report text).filter Event.isProper = e.events) (path attr : CStr) :
    ∃ tag, xmlParserParse xmlParserNew text = .ok ⟨none, [tag]⟩ ∧
      xmlTagPathList tag path = (elementsRotated (pathNames path) e).map elementTag ∧
      xmlTagPath tag (some path) = (elementFirst (pathNames path) e).map elementTag ∧
      (xmlTagPathAttrList tag path attr).map variantStr =
        ((elementsRotated (pathNames path) e).filterMap (elementAttr · attr)).map some ∧
      (xmlTagPathAttr tag (some path) attr).map variantStr =
        ((elementFirst (pathNames path) e).bind (elementAttr · attr)).map some ∧
      ∀ child, xmlTagPath tag (some path) = some child →
        (xmlTagPathList tag path).getLast? = some child := by
  have hparse : feed (Glib.report text) xmlParserNew = .ok ⟨none, [elementTag e]⟩ := by
    rw [← feed_filter, htext]
    exact feed_root e []
  refine ⟨elementTag e, hparse, ?_, xmlTagPathLoop_elementTag _ e, ?_, ?_, ?_⟩
  · rw [xmlTagPathList, xmlTagPathGo, xmlTagPathWalk_eq, List.append_nil, List.filterMap_some]
    exact tagsAt_elementTag _ e
  · rw [xmlTagPathAttrList, xmlTagPathGo, xmlTagPathWalk_eq, List.append_nil,
      ← List.filterMap_reverse, tagsAt_elementTag, List.filterMap_map, List.map_filterMap,
      List.map_filterMap]
    refine List.filterMap_congr fun c _ => ?_
    rw [Function.comp_apply, getAttr_elementTag, Option.map_map]
    rfl
  · rw [xmlTagPathAttr, xmlTagPath, xmlTagPathLoop_elementTag]
    cases elementFirst (pathNames path) e with
    | none => rfl
    | some c =>
      simp only [Option.map_some, Option.bind_some]
      rw [getAttr_elementTag, Option.map_map]
      rfl
  · intro child hchild
    rw [xmlTagPathList, xmlTagPathGo, xmlTagPathWalk_eq, List.append_nil, List.getLast?_reverse,
      List.filterMap_some]
    exact xmlTagPathLoop_head hchild

end

/-- `<request><level value='one'/><level value='two'/><level value='three'/></request>` -/
def exampleLevels : Element :=
  let level (value : String) : Element :=
    .leaf "level".toList [("value".toList, value.toList)]
  .node "request".toList [] []
    (.cons (level "one") [] (.cons (level "two") [] (.cons (level "three") [] .nil)))

theorem path_lists_of_levels :
    letI := Glib.plain
    ∃ tag, xmlParserParse xmlParserNew (exampleLevels.text Glib.escapeText) = .ok ⟨none, [tag]⟩ ∧
      (xmlTagPathAttrList tag (literal "level") (literal "value")).map variantStr =
        ["two", "three", "one"].map fun s => some (literal s) := by
  let _ := Glib.plain
  have hvalid : exampleLevels.Valid PlainName := by
    have hreq : PlainName "request".toList := ⟨by decide, List.all_eq_true.mp (by decide)⟩
    have hlevel : PlainName "level".toList := ⟨by decide, List.all_eq_true.mp (by decide)⟩
    have hkey : PlainName "value".toList := ⟨by decide, List.all_eq_true.mp (by decide)⟩
    have hattr : ∀ v : List Char, ValidAttrs PlainName [("value".toList, v)] := fun v =>
      ⟨List.forall_mem_singleton.mpr hkey, List.nodup_singleton _⟩
    have hnil : ValidAttrs PlainName [] := ⟨List.forall_mem_nil _, List.nodup_nil⟩
    exact ⟨hreq, hnil, ⟨hlevel, hattr _⟩, ⟨hlevel, hattr _⟩, ⟨hlevel, hattr _⟩, trivial⟩
  obtain ⟨tag, hparse, -, -, hlist, -⟩ := path_lists_of_document _ exampleLevels (read_text hvalid)
    (literal "level") (literal "value")
  exact ⟨tag, hparse, hlist⟩

/-! ## Arguments

The table of a method is gone through from the first entry; the first that is missing or invalid
ends it with a message that names it.
-/

/-- `struct xml_tag_var`, with whether a method can do without it. -/
structure XmlTagVar (V : Type) : Type where
  /-- path -/
  path : Option CStr
  /-- name of the attribute, `none` for the body -/
  name : Option CStr
  /-- conv: `none` is the result `FALSE`. -/
  conv : Option CStr → Option V
  /-- optional -/
  optional : Bool

/-- What `xml_tag_get_valuesv` returns for an entry that it stops at. -/
structure XtvError : Type where
  /-- number of the entry -/
  no : ℕ
  /-- `*argp`, if the value is there and is not converted -/
  arg : Option (Option CStr)

section

variable {V : Type} (tag : XmlTag)

/-- The value that an entry stands for. -/
def XmlTagVar.find (xtv : XmlTagVar V) : Option Variant :=
  match xtv.name with
  | none => xmlTagPathBody tag xtv.path
  | some name => xmlTagPathAttr tag xtv.path name

/-- `xml_tag_get_valuesv`: the variables that have been written, from the first on, and the entry
that it stops at. -/
def xmlTagGetValuesv : List (XmlTagVar V) → ℕ → List (Option V) × Option XtvError
  | [], _ => ([], none)
  | xtv :: pp, no =>
    match xtv.find tag with
    | none =>
      if xtv.optional then
        let r := xmlTagGetValuesv pp (no + 1)
        (none :: r.1, r.2)
      else ([], some ⟨no, none⟩)
    | some var =>
      let str := variantStr var
      match xtv.conv str with
      | none => ([], some ⟨no, some str⟩)
      | some v =>
        let r := xmlTagGetValuesv pp (no + 1)
        (some v :: r.1, r.2)

/-- `MBB_MSG_XTV_MISSED` and `MBB_MSG_XTV_INVALID` -/
def xtvMessage (p : XmlTagVar V) (arg : Option CStr) : XmlTag :=
  let entry := "xml entry ".toList ++ formatString p.path ++ ":".toList ++ formatString p.name
  mbbXmlMsgResponse (literal "error") (some (cstr (match arg with
    | none => entry ++ " missed".toList
    | some arg => entry ++ " has invalid value ".toList ++ arg.chars)))

/-- `mbb_xtv_call_z`: the answer, or the variables. -/
def mbbXtvCallZ (xtv : List (XmlTagVar V)) : Except XmlTag (List (Option V)) :=
  match xmlTagGetValuesv tag xtv 0 with
  | (vals, none) => .ok vals
  | (vals, some err) =>
    match xtv[err.no]? with
    | none => .ok vals
    | some p => .error (xtvMessage p err.arg.join)

/-- What a tag has for an entry: a value, nothing where nothing is needed, or what is wrong. -/
def XmlTagVar.status (xtv : XmlTagVar V) : Except (Option (Option CStr)) (Option V) :=
  match xtv.find tag with
  | none => if xtv.optional then .ok none else .error none
  | some var =>
    match xtv.conv (variantStr var) with
    | none => .error (some (variantStr var))
    | some v => .ok (some v)

variable {tag}

variable {pp : List (XmlTagVar V)} {no : ℕ}

/-- Variables have been written for entries without a fault, up to the first that has one. -/
def WrittenUpTo (tag : XmlTag) (pp : List (XmlTagVar V)) (no : ℕ)
    (r : List (Option V) × Option XtvError) : Prop :=
  ∃ front back, pp = front ++ back ∧ front.map (·.status tag) = r.1.map .ok ∧
    match r.2 with
    | none => back = []
    | some err => err.no = no + front.length ∧
      ∃ xtv rest, back = xtv :: rest ∧ xtv.status tag = .error err.arg

theorem WrittenUpTo.cons {r : List (Option V) × Option XtvError}
    (h : WrittenUpTo tag pp (no + 1) r) {xtv : XmlTagVar V} {v : Option V}
    (hv : xtv.status tag = .ok v) : WrittenUpTo tag (xtv :: pp) no (v :: r.1, r.2) := by
  obtain ⟨front, back, rfl, hfront, hback⟩ := h
  refine ⟨xtv :: front, back, rfl, ?_, ?_⟩
  · rw [List.map_cons, hv, hfront]
    rfl
  · cases hr : r.2 with
    | none => rwa [hr] at hback
    | some err =>
      rw [hr] at hback
      refine ⟨?_, hback.2⟩
      rw [hback.1, List.length_cons]
      omega

theorem WrittenUpTo.stop {xtv : XmlTagVar V} {arg : Option (Option CStr)}
    (h : xtv.status tag = .error arg) : WrittenUpTo tag (xtv :: pp) no ([], some ⟨no, arg⟩) :=
  ⟨[], xtv :: pp, rfl, rfl, rfl, xtv, pp, rfl, h⟩

/-- The loop goes on as long as nothing is wrong. -/
theorem xmlTagGetValuesv_spec (pp : List (XmlTagVar V)) (no : ℕ) :
    WrittenUpTo tag pp no (xmlTagGetValuesv tag pp no) := by
  induction pp generalizing no with
  | nil => exact ⟨[], [], rfl, rfl, rfl⟩
  | cons xtv pp ih =>
    rw [xmlTagGetValuesv]
    cases hfind : xtv.find tag with
    | none =>
      by_cases hopt : xtv.optional = true
      · simp only [hopt, if_true]
        exact (ih (no + 1)).cons (by simp [XmlTagVar.status, hfind, hopt])
      · simp only [hopt]
        exact .stop (by simp [XmlTagVar.status, hfind, hopt])
    | some var =>
      cases hconv : xtv.conv (variantStr var) with
      | none =>
        simp only [hconv]
        exact .stop (by simp [XmlTagVar.status, hfind, hconv])
      | some v =>
        simp only [hconv]
        exact (ih (no + 1)).cons (by simp [XmlTagVar.status, hfind, hconv])

/-- **The arguments of a request.** Either every entry of the table has its value or can do without,
and these are what the method gets; or the answer names the first entry that has not, as missed or
with the value that it has. -/
theorem xtv_call_names_first (tag : XmlTag) (xtv : List (XmlTagVar V)) :
    (∃ vals, mbbXtvCallZ tag xtv = .ok vals ∧ xtv.map (·.status tag) = vals.map .ok) ∨
    ∃ front p back arg, xtv = front ++ p :: back ∧
      (∀ q ∈ front, ∃ v, q.status tag = .ok v) ∧ p.status tag = .error arg ∧
      mbbXtvCallZ tag xtv = .error (xtvMessage p arg.join) := by
  have hspec : WrittenUpTo tag xtv 0 _ := xmlTagGetValuesv_spec xtv 0
  obtain ⟨front, back, hsplit, hfront, hback⟩ := hspec
  rw [mbbXtvCallZ]
  generalize xmlTagGetValuesv tag xtv 0 = r at hfront hback
  obtain ⟨vals, err⟩ := r
  cases err with
  | none =>
    obtain rfl : back = [] := hback
    refine .inl ⟨vals, rfl, ?_⟩
    rwa [hsplit, List.append_nil]
  | some err =>
    obtain ⟨hno, p, rest, rfl, hp⟩ := hback
    refine .inr ⟨front, p, rest, err.arg, hsplit, fun q hq => ?_, hp, ?_⟩
    · have hok : q.status tag ∈ vals.map .ok := hfront ▸ List.mem_map_of_mem hq
      obtain ⟨v, -, hv⟩ := List.mem_map.mp hok
      exact ⟨v, hv.symm⟩
    · have hget : xtv[err.no]? = some p := by
        rw [hno, Nat.zero_add, hsplit, List.getElem?_append_right le_rfl, Nat.sub_self]
        rfl
      simp only [hget]

end

end Mbb
