import Mbb.Stat
import Mbb.Lib.Json

/-!
# XML tags (`lib/xmltag.c`, `lib/variant.c`)

A tag has a name, a table of attributes, a body and a table of childs. The table of childs
holds the first child of each name, and `next` leads from a child to the others of its name.
Texts are sequences of characters here: strings are valid UTF-8, and what is written is too.

`g_hash_table_foreach` goes through a table in an order of its own. `visited` is a tag with
its tables in that order.
-/

namespace Mbb

/-- A string of C: characters, no one of which is the end of the string. -/
structure CStr : Type where
  /-- the characters -/
  chars : List Char
  /-- no `'\0'` -/
  noNul : '\x00' ∉ chars
  deriving DecidableEq

theorem CStr.chars_injective : Function.Injective CStr.chars := by
  rintro ⟨s, hs⟩ ⟨t, ht⟩ rfl
  rfl

/-- `%d` and `%ld` -/
def decimal (n : Int) : CStr where
  chars := (if n < 0 then ['-'] else []) ++ Nat.toDigits 10 n.natAbs
  noNul := by
    intro h
    rcases List.mem_append.mp h with h | h
    · split at h <;> simp at h
    · have := Nat.isDigit_of_mem_toDigits (by decide) (by decide) h
      revert this
      decide

/-- `struct variant`; of a pointer only what `convert` gives. -/
inductive Variant : Type where
  /-- `VARIANT_INT` -/
  | int (num : Int)
  /-- `VARIANT_LONG` -/
  | long (lnum : Int)
  /-- `VARIANT_STRING` -/
  | string (str : Option CStr)
  /-- `VARIANT_STATIC_STRING` -/
  | staticString (str : Option CStr)
  /-- `VARIANT_POINTER` -/
  | pointer (convert : Option CStr)

/-- `variant_to_string` -/
def variantToString : Variant → Option CStr
  | .int num => some (decimal num)
  | .long lnum => some (decimal lnum)
  | .string str => str
  | .staticString str => str
  | .pointer convert => convert

/-- What is made of the attributes that have a string keeps their order, so no name comes twice. -/
theorem sublist_strings {β κ : Type} (make : CStr → CStr → β) {key : β → κ} (name : CStr → κ)
    (h : ∀ n value, key (make n value) = name n) (attrs : List (CStr × Variant)) :
    ((attrs.filterMap fun a => (variantToString a.2).map (make a.1)).map key).Sublist
      (attrs.map fun a => name a.1) := by
  induction attrs with
  | nil => exact List.Sublist.refl _
  | cons a attrs ih =>
    rw [List.filterMap_cons]
    cases variantToString a.2 with
    | none => exact ih.cons _
    | some value =>
      simp only [Option.map_some, List.map_cons, h]
      exact ih.cons_cons _

mutual

/-- `struct xml_tag`, without `next` -/
inductive XmlTag : Type where
  /-- name, attributes, body and childs -/
  | mk (name : CStr) (attrs : Ledger CStr Variant) (body : Option Variant) (childs : ChildTable)

/-- `childs`, by names -/
inductive ChildTable : Type where
  /-- no more -/
  | nil
  /-- a name, and the childs of that name -/
  | cons (name : CStr) (tags : Siblings) (rest : ChildTable)

/-- A child, and the others of its name by `next`. -/
inductive Siblings : Type where
  /-- `next` is `NULL` -/
  | last (tag : XmlTag)
  /-- `next` -/
  | cons (tag : XmlTag) (next : Siblings)

end

namespace Siblings

/-- The tags one after the other. -/
def tags : Siblings → List XmlTag
  | .last tag => [tag]
  | .cons tag next => tag :: next.tags

end Siblings

namespace ChildTable

/-- The rows of the table. -/
def rows : ChildTable → List (CStr × Siblings)
  | .nil => []
  | .cons name tags rest => (name, tags) :: rest.rows

/-- A table of rows. -/
def ofRows : List (CStr × Siblings) → ChildTable
  | [] => .nil
  | (name, tags) :: rows => .cons name tags (ofRows rows)

theorem rows_ofRows (rows : List (CStr × Siblings)) : (ofRows rows).rows = rows := by
  induction rows with
  | nil => rfl
  | cons r rows ih => rw [ofRows, ChildTable.rows, ih]

end ChildTable

namespace XmlTag

/-- `name` -/
def name : XmlTag → CStr
  | .mk name _ _ _ => name

/-- `attrs` -/
def attrs : XmlTag → Ledger CStr Variant
  | .mk _ attrs _ _ => attrs

/-- `body` -/
def body : XmlTag → Option Variant
  | .mk _ _ body _ => body

/-- `childs` -/
def childs : XmlTag → ChildTable
  | .mk _ _ _ childs => childs

end XmlTag

/-! ## Tables in the order of `g_hash_table_foreach` -/

/-- A table with its rows in the order of `g_hash_table_foreach`. -/
def visitedTable [HashOrder] {V : Type} (table : Ledger CStr V) : Ledger CStr V where
  rows := HashOrder.order table.rows
  nodup := (HashOrder.perm table.rows).map Prod.fst |>.nodup_iff.mpr table.nodup

mutual

/-- The tag as it is visited. -/
def XmlTag.visited [HashOrder] : XmlTag → XmlTag
  | .mk name attrs body childs =>
    .mk name (visitedTable attrs) body (.ofRows (HashOrder.order childs.visitedRows))

/-- The rows of a table, with the tags as they are visited. -/
def ChildTable.visitedRows [HashOrder] : ChildTable → List (CStr × Siblings)
  | .nil => []
  | .cons name tags rest => (name, tags.visited) :: rest.visitedRows

/-- The siblings as they are visited. -/
def Siblings.visited [HashOrder] : Siblings → Siblings
  | .last tag => .last tag.visited
  | .cons tag next => .cons tag.visited next.visited

end

theorem ChildTable.visitedRows_eq [HashOrder] : ∀ table : ChildTable,
    table.visitedRows = table.rows.map fun r => (r.1, r.2.visited)
  | .nil => rfl
  | .cons name tags rest => by
    rw [ChildTable.visitedRows, ChildTable.rows, List.map_cons, rest.visitedRows_eq]

/-! ## JSON -/

/-- `escape_chars` and `escape_pchars` -/
def jsonEscapes : List (Char × Char) :=
  ['\\', '/', '"', '\x08', '\x0c', '\n', '\r', '\t'].zip
    ['\\', '/', '"', 'b', 'f', 'n', 'r', 't']

/-- One character in `json_escape`. -/
def jsonEscapeChar (uc : Char) : List Char :=
  if 0x80 ≤ uc.toNat then [uc]
  else
    match jsonEscapes.lookup uc with
    | some p => ['\\', p]
    | none =>
      -- `uc < ' '`; `%x` writes no leading zeros
      if uc.toNat < 0x20 then '\\' :: 'u' :: Nat.toDigits 16 uc.toNat else [uc]

/-- `json_escape` -/
def jsonEscape (str : CStr) (string : List Char) : List Char :=
  string ++ ['"'] ++ str.chars.flatMap jsonEscapeChar ++ ['"']

/-- The comma before a member, unless it is the first. -/
def jsonComma (string : List Char) : List Char :=
  if string.getLast? ≠ some '{' then string ++ [','] else string

/-- `xml_tag_to_json_add_attr` -/
def xmlTagToJsonAddAttr (string : List Char) (attr : CStr × Variant) : List Char :=
  match variantToString attr.2 with
  | none => string
  | some value => jsonEscape value (jsonEscape attr.1 (jsonComma string) ++ [':'])

mutual

/-- `xml_tag_to_json_add_tag` -/
def xmlTagToJsonAddTag : XmlTag → List Char → List Char
  | .mk _ attrs _ childs, string =>
    xmlTagToJsonAddChilds childs (attrs.rows.foldl xmlTagToJsonAddAttr (string ++ ['{'])) ++ ['}']

/-- `xml_tag_to_json_add` for each name in the table -/
def xmlTagToJsonAddChilds : ChildTable → List Char → List Char
  | .nil, string => string
  | .cons name tags rest, string =>
    xmlTagToJsonAddChilds rest
      (xmlTagToJsonAddTags tags (jsonEscape name (jsonComma string) ++ [':'] ++ ['[']) ++ [']'])

/-- The loop of `xml_tag_to_json_add`. -/
def xmlTagToJsonAddTags : Siblings → List Char → List Char
  | .last tag, string => xmlTagToJsonAddTag tag string
  | .cons tag next, string => xmlTagToJsonAddTags next (xmlTagToJsonAddTag tag string ++ [','])

end

/-- `xml_tag_to_json` -/
def xmlTagToJson [HashOrder] (tag : XmlTag) : List Char := xmlTagToJsonAddTag tag.visited []

end Mbb
