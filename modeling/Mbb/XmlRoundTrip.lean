import Mbb.XmlElement

/-!
# Tags through XML and back

`xml_tag_add_child` puts a child behind the first of its name, so the childs of one name stand
as the first, the last, and so on to the second. They are written in that order and added again
in that order, and stand in the order of the original calls then.
-/

namespace Mbb

open Markup

/-! ## Childs of one name

`linked` is the order that `xml_tag_add_child` makes of a list of childs. It is its own inverse,
which is why a tag that is written and read has the order of the calls.
-/

/-- A child behind the first. -/
def linkSecond {α : Type} : List α → α → List α
  | [], child => [child]
  | first :: others, child => first :: child :: others

/-- The order in which childs stand after `xml_tag_add_child` for each. -/
def linked {α : Type} : List α → List α
  | [] => []
  | first :: others => first :: others.reverse

/-- Put behind the first twice, childs stand as they were called. -/
theorem linked_linked {α : Type} : ∀ l : List α, linked (linked l) = l
  | [] => rfl
  | first :: others => by rw [linked, linked, List.reverse_reverse]

/-- The order of childs does not depend on what they are. -/
theorem map_linked {α β : Type} (f : α → β) : ∀ l : List α, (linked l).map f = linked (l.map f)
  | [] => rfl
  | first :: others => by rw [linked, List.map_cons, List.map_reverse, List.map_cons, linked]

/-- Childs that are put behind the first one by one stand as `linked` has them. -/
theorem foldl_linkSecond {α : Type} (l : List α) : l.foldl linkSecond [] = linked l := by
  have hfold : ∀ (first : α) (others l : List α),
      l.foldl linkSecond (first :: others) = first :: (l.reverse ++ others) := by
    intro first others l
    induction l generalizing others with
    | nil => rfl
    | cons x l ih =>
      rw [List.foldl_cons, linkSecond, ih, List.reverse_cons, List.append_assoc]
      rfl
  cases l with
  | nil => rfl
  | cons first others =>
    rw [List.foldl_cons, linkSecond, hfold, List.append_nil, linked]

/-- The tags of one name after `xml_tag_add_child`. -/
theorem tags_link : ∀ (tags : Siblings) (child : XmlTag),
    (tags.link child).tags = linkSecond tags.tags child
  | .last _, _ => rfl
  | .cons _ _, _ => rfl

/-- A child that is added stands among those of its name, and nowhere else. -/
theorem getChilds_addChild : ∀ (tag child : XmlTag) (n : CStr),
    xmlTagGetChilds (xmlTagAddChild tag child) n =
      if child.name = n then linkSecond (xmlTagGetChilds tag n) child else xmlTagGetChilds tag n
  | .mk name attrs body childs, child, n => by
    rw [xmlTagAddChild, xmlTagGetChilds, xmlTagGetChilds, XmlTag.childs, XmlTag.childs,
      ChildTable.get?_add]
    by_cases hn : child.name = n
    · rw [if_pos hn, if_pos hn]
      cases childs.get? n with
      | none => rfl
      | some tags => exact tags_link tags child
    · rw [if_neg hn, if_neg hn]

/-- Childs that are added one after the other. -/
theorem getChilds_addAll (childs : List XmlTag) (tag : XmlTag) (n : CStr) :
    xmlTagGetChilds (childs.foldl xmlTagAddChild tag) n =
      (childs.filter fun child => decide (child.name = n)).foldl linkSecond
        (xmlTagGetChilds tag n) := by
  induction childs generalizing tag with
  | nil => rfl
  | cons child childs ih =>
    rw [List.foldl_cons, ih, getChilds_addChild]
    by_cases hn : child.name = n
    · rw [if_pos hn, List.filter_cons_of_pos (by simpa using hn), List.foldl_cons]
    · rw [if_neg hn, List.filter_cons_of_neg (by simpa using hn)]

/-! ### Tables in any order

A hash table is visited in an order of its own. What is said of rows here holds of any order, since
no two rows have one name.
-/

section

variable {α : Type} {name : α → CStr} {rows : List (CStr × List α)}

/-- No row of a table has a name that is no key. -/
theorem filter_rows_of_notMem (hname : ∀ r ∈ rows, ∀ a ∈ r.2, name a = r.1) {n : CStr}
    (hn : n ∉ rows.map Prod.fst) :
    (rows.flatMap Prod.snd).filter (fun a => decide (name a = n)) = [] := by
  refine List.filter_eq_nil_iff.mpr fun a ha h => hn ?_
  obtain ⟨r, hr, har⟩ := List.mem_flatMap.mp ha
  rw [← of_decide_eq_true h, hname r hr a har]
  exact List.mem_map_of_mem hr

/-- What stands under a name is what has that name. -/
theorem filter_rows_of_mem (hnodup : (rows.map Prod.fst).Nodup)
    (hname : ∀ r ∈ rows, ∀ a ∈ r.2, name a = r.1) {n : CStr} {as : List α} (h : (n, as) ∈ rows) :
    (rows.flatMap Prod.snd).filter (fun a => decide (name a = n)) = as := by
  induction rows with
  | nil => cases h
  | cons r rows ih =>
    have hrest := fun r' hr' => hname r' (List.mem_cons_of_mem _ hr')
    obtain ⟨hnot, hnodup⟩ := List.nodup_cons.mp hnodup
    rw [List.flatMap_cons, List.filter_append]
    rcases List.mem_cons.mp h with rfl | h
    · have hall : as.filter (fun a => decide (name a = n)) = as :=
        List.filter_eq_self.mpr fun a ha => decide_eq_true (hname (n, as) List.mem_cons_self a ha)
      rw [hall, filter_rows_of_notMem hrest hnot, List.append_nil]
    · have hnone : r.2.filter (fun a => decide (name a = n)) = [] := by
        refine List.filter_eq_nil_iff.mpr fun a ha heq => hnot ?_
        rw [← hname r List.mem_cons_self a ha, of_decide_eq_true heq]
        exact List.mem_map_of_mem h
      rw [hnone, List.nil_append, ih hnodup hrest h]

end

namespace ChildTable

/-- Names stand once in the table, and each is the name of the tags under it. -/
def Proper (table : ChildTable) : Prop :=
  (table.rows.map Prod.fst).Nodup ∧ ∀ r ∈ table.rows, ∀ tag ∈ r.2.tags, tag.name = r.1

/-- The rows of a table with one child more: the old ones, a new one, or one to which the child was
linked. -/
theorem mem_rows_add : ∀ (table : ChildTable) (child : XmlTag) (r : CStr × Siblings),
    r ∈ (table.add child).rows → r ∈ table.rows ∨ r = (child.name, .last child) ∨
      ∃ tags, (child.name, tags) ∈ table.rows ∧ r = (child.name, tags.link child)
  | .nil, child, r, h => Or.inr (Or.inl (List.mem_singleton.mp h))
  | .cons name tags rest, child, r, h => by
    rw [add] at h
    split at h
    · rename_i heq
      obtain rfl := heq
      rcases List.mem_cons.mp h with rfl | h
      · exact Or.inr (Or.inr ⟨tags, List.mem_cons_self, rfl⟩)
      · exact Or.inl (List.mem_cons_of_mem _ h)
    · rcases List.mem_cons.mp h with rfl | h
      · exact Or.inl List.mem_cons_self
      · rcases mem_rows_add rest child r h with h | h | ⟨tags', h, heq⟩
        · exact Or.inl (List.mem_cons_of_mem _ h)
        · exact Or.inr (Or.inl h)
        · exact Or.inr (Or.inr ⟨tags', List.mem_cons_of_mem _ h, heq⟩)

/-- Each name has one row. -/
theorem keys_add : ∀ (table : ChildTable) (child : XmlTag), (table.rows.map Prod.fst).Nodup →
    ((table.add child).rows.map Prod.fst).Nodup
  | .nil, child, _ => List.nodup_singleton _
  | .cons name tags rest, child, h => by
    rw [add]
    split
    · exact h
    · rename_i hne
      obtain ⟨hnot, hnodup⟩ := List.nodup_cons.mp h
      refine List.nodup_cons.mpr ⟨fun hmem => ?_, keys_add rest child hnodup⟩
      obtain ⟨r, hr, heq⟩ := List.mem_map.mp hmem
      rcases mem_rows_add rest child r hr with hr | rfl | ⟨tags', -, rfl⟩
      · exact hnot (heq ▸ List.mem_map_of_mem hr)
      · exact hne heq.symm
      · exact hne heq.symm

/-- A tag among those with a new one is the new one or an old one. -/
theorem mem_tags_link {tags : Siblings} {child tag : XmlTag} (h : tag ∈ (tags.link child).tags) :
    tag = child ∨ tag ∈ tags.tags := by
  rw [tags_link] at h
  cases htags : tags.tags with
  | nil =>
    rw [htags] at h
    exact Or.inl (List.mem_singleton.mp h)
  | cons first others =>
    rw [htags, linkSecond] at h
    rcases List.mem_cons.mp h with h | h
    · exact Or.inr (h ▸ List.mem_cons_self)
    · rcases List.mem_cons.mp h with h | h
      · exact Or.inl h
      · exact Or.inr (List.mem_cons_of_mem _ h)

/-- A table in which every child stands under its own name stays so. -/
theorem Proper.add {table : ChildTable} (h : table.Proper) (child : XmlTag) :
    (table.add child).Proper := by
  refine ⟨keys_add table child h.1, fun r hr tag htag => ?_⟩
  rcases mem_rows_add table child r hr with hr | rfl | ⟨tags, hmem, rfl⟩
  · exact h.2 r hr tag htag
  · obtain rfl := List.mem_singleton.mp htag
    rfl
  · rcases mem_tags_link htag with rfl | htag
    · rfl
    · exact h.2 _ hmem tag htag

/-- What is found under a name is a row. -/
theorem mem_rows_of_get? {k : CStr} {tags : Siblings} : ∀ table : ChildTable,
    table.get? k = some tags → (k, tags) ∈ table.rows
  | .nil, h => by cases h
  | .cons name tags' rest, h => by
    rw [get?] at h
    split at h
    · rename_i heq
      obtain rfl := heq
      obtain rfl := Option.some.inj h
      exact List.mem_cons_self
    · exact List.mem_cons_of_mem _ (mem_rows_of_get? rest h)

/-- Where nothing is found there is no row. -/
theorem notMem_of_get? {k : CStr} : ∀ table : ChildTable,
    table.get? k = none → k ∉ table.rows.map Prod.fst
  | .nil, _ => List.not_mem_nil
  | .cons name tags rest, h => by
    rw [get?] at h
    split at h
    · cases h
    · rename_i hne
      rw [rows, List.map_cons, List.mem_cons, not_or]
      exact ⟨fun heq => hne heq.symm, notMem_of_get? rest h⟩

end ChildTable

/-! ## The tag that comes back

The tag that is written is the visited one; the tag that comes back is computed from it without the
text, by the results on elements.
-/

/-- The tags of a name are visited one by one. -/
theorem Siblings.tags_visited [HashOrder] : ∀ tags : Siblings,
    tags.visited.tags = tags.tags.map XmlTag.visited
  | .last tag => rfl
  | .cons tag next => by
    rw [Siblings.visited, Siblings.tags, tags_visited next, Siblings.tags, List.map_cons]

/-- The elements of the tags of a name. -/
theorem Siblings.elements_eq : ∀ tags : Siblings, tags.elements = tags.tags.map XmlTag.element
  | .last tag => rfl
  | .cons tag next => by
    rw [Siblings.elements, elements_eq next, Siblings.tags, List.map_cons]

/-- The elements of a table that is made of rows, in the order of the rows. -/
theorem ChildTable.elements_ofRows (rows : List (CStr × Siblings)) :
    (ChildTable.ofRows rows).elements = rows.flatMap fun r => r.2.tags.map XmlTag.element := by
  induction rows with
  | nil => rfl
  | cons r rows ih =>
    rw [ChildTable.ofRows, ChildTable.elements, ih, Siblings.elements_eq, List.flatMap_cons]

/-- A string read from its own characters is the same string. -/
theorem cstr_chars (str : CStr) : cstr str.chars = str := by
  apply CStr.chars_injective
  refine List.takeWhile_eq_self_iff.mpr fun c hc => decide_eq_true ?_
  rintro rfl
  exact str.noNul hc

/-- A visit keeps the name. -/
theorem name_visited [HashOrder] (tag : XmlTag) : tag.visited.name = tag.name := by
  cases tag
  rfl

/-- Text adds no child. -/
theorem childs_addText (text : List Char) (tag : XmlTag) :
    (addText text tag).childs = tag.childs := by
  cases tag
  rfl

section

variable [Glib]

/-- A run of text adds no child, whatever it is made of. -/
theorem childs_addRun (text : List Char) (tag : XmlTag) :
    (addRun text tag).childs = tag.childs := by
  rw [addRun]
  split
  · rfl
  · exact childs_addText _ tag

/-- Elements without text between them are added as childs, in their order. -/
theorem addItems_itemsOf (es : List Element) (tag : XmlTag) :
    addItems (itemsOf es) tag = (es.map elementTag).foldl xmlTagAddChild tag := by
  induction es generalizing tag with
  | nil => rfl
  | cons e es ih =>
    have hrun : ∀ tag, addRun [] tag = tag := fun tag => rfl
    rw [itemsOf, addItems, hrun, ih, List.map_cons, List.foldl_cons]

/-- The parser gives the tag its name back. -/
theorem name_elementTag (tag : XmlTag) : (elementTag tag.element).name = tag.name := by
  cases tag with
  | mk name attrs body childs =>
    rcases element_cases name attrs body childs with ⟨-, -, helement⟩ | ⟨-, helement⟩
    · rw [helement, elementTag, name_startTag, cstr_chars, XmlTag.name]
    · rw [helement, elementTag, name_addItems, name_addRun, name_startTag, cstr_chars, XmlTag.name]

variable [HashOrder]

/-- The tag that is made of what is written. -/
def reparsed (tag : XmlTag) : XmlTag := elementTag tag.visited.element

/-- The tag without its childs. -/
def reparsedSelf (name : CStr) (attrs : Ledger CStr Variant) (body : Option Variant) : XmlTag :=
  addRun (bodyText body) (startTag name.chars (attrStrings (HashOrder.order attrs.rows)))

/-- The childs in the order in which they are written. -/
def writtenChilds (childs : ChildTable) : List XmlTag :=
  (HashOrder.order childs.visitedRows).flatMap fun r =>
    r.2.tags.map fun tag => elementTag tag.element

/-- The tag that comes back is made of its own part and of the childs that were written. -/
theorem reparsed_mk (name : CStr) (attrs : Ledger CStr Variant) (body : Option Variant)
    (childs : ChildTable) :
    reparsed (.mk name attrs body childs) =
      (writtenChilds childs).foldl xmlTagAddChild (reparsedSelf name attrs body) := by
  have hchilds : (ChildTable.ofRows (HashOrder.order childs.visitedRows)).elements.map
      elementTag = writtenChilds childs := by
    rw [ChildTable.elements_ofRows, List.map_flatMap, writtenChilds]
    simp only [List.map_map, Function.comp_def]
  rw [reparsed, XmlTag.visited, ← hchilds]
  rcases element_cases name (visitedTable attrs) body
    (.ofRows (HashOrder.order childs.visitedRows)) with ⟨rfl, hnil, helement⟩ | ⟨-, helement⟩
  · rw [helement, hnil]
    rfl
  · rw [helement, elementTag, addItems_itemsOf]
    rfl

/-- The tag that comes back has the name of the one that was written. -/
theorem name_reparsed (tag : XmlTag) : (reparsed tag).name = tag.name := by
  rw [reparsed, name_elementTag, name_visited]

/-! ### Childs -/

/-- The rows of a table as they are written. -/
def writtenRows (childs : ChildTable) : List (CStr × List XmlTag) :=
  (HashOrder.order childs.visitedRows).map fun r =>
    (r.1, r.2.tags.map fun tag => elementTag tag.element)

/-- The rows are written in the order of the hash table, each once. -/
theorem writtenRows_perm (childs : ChildTable) :
    (writtenRows childs).Perm (childs.rows.map fun r => (r.1, r.2.tags.map reparsed)) := by
  have hrow : (childs.rows.map fun r => (r.1, r.2.tags.map reparsed)) =
      childs.visitedRows.map fun r =>
        (r.1, r.2.tags.map fun tag => elementTag tag.element) := by
    rw [ChildTable.visitedRows_eq, List.map_map]
    refine List.map_congr_left fun r _ => ?_
    simp only [Function.comp_apply, Siblings.tags_visited, List.map_map]
    rfl
  rw [hrow]
  exact (HashOrder.perm _).map _

/-- Among the childs that are written those of one name stand as in the tag. -/
theorem getChilds_written {childs : ChildTable} (h : childs.Proper) (n : CStr) :
    (writtenChilds childs).filter (fun child => decide (child.name = n)) =
      match childs.get? n with
      | none => []
      | some tags => tags.tags.map reparsed := by
  have hflat : writtenChilds childs = (writtenRows childs).flatMap Prod.snd := by
    rw [writtenRows, List.flatMap_map]
    rfl
  have hperm := writtenRows_perm childs
  have hkeys : ((writtenRows childs).map Prod.fst).Perm (childs.rows.map Prod.fst) := by
    have hmap := hperm.map Prod.fst
    rwa [List.map_map] at hmap
  have hname : ∀ r ∈ writtenRows childs, ∀ tag ∈ r.2, tag.name = r.1 := by
    intro r hr tag htag
    obtain ⟨r', hr', rfl⟩ := List.mem_map.mp (hperm.mem_iff.mp hr)
    obtain ⟨t, ht, rfl⟩ := List.mem_map.mp htag
    rw [name_reparsed]
    exact h.2 r' hr' t ht
  rw [hflat]
  cases hget : childs.get? n with
  | none =>
    exact filter_rows_of_notMem hname fun hn => ChildTable.notMem_of_get? childs hget
      (hkeys.mem_iff.mp hn)
  | some tags =>
    refine filter_rows_of_mem (hkeys.nodup_iff.mpr h.1) hname (hperm.mem_iff.mpr ?_)
    exact List.mem_map_of_mem (f := fun r : CStr × Siblings => (r.1, r.2.tags.map reparsed))
      (ChildTable.mem_rows_of_get? childs hget)

/-- Childs come back in the order of the calls that would give the order they stand in. -/
theorem getChilds_reparsed {tag : XmlTag} (h : tag.childs.Proper) (n : CStr) :
    xmlTagGetChilds (reparsed tag) n = linked ((xmlTagGetChilds tag n).map reparsed) := by
  obtain ⟨name, attrs, body, childs⟩ := tag
  have hself : xmlTagGetChilds (reparsedSelf name attrs body) n = [] := by
    rw [xmlTagGetChilds, reparsedSelf, childs_addRun, startTag_eq]
    rfl
  rw [XmlTag.childs] at h
  rw [reparsed_mk, getChilds_addAll, hself, foldl_linkSecond, getChilds_written h, xmlTagGetChilds,
    XmlTag.childs]
  cases childs.get? n with
  | none => rfl
  | some tags => rfl

end

/-! ### Attributes

An attribute comes back as a string, whatever kind of value it had.
-/

/-- Childs are all that is added. -/
theorem foldl_addChild_same (childs : List XmlTag) (tag : XmlTag) :
    (childs.foldl xmlTagAddChild tag).name = tag.name ∧
      (childs.foldl xmlTagAddChild tag).attrs = tag.attrs ∧
      (childs.foldl xmlTagAddChild tag).body = tag.body := by
  induction childs generalizing tag with
  | nil => exact ⟨rfl, rfl, rfl⟩
  | cons child childs ih =>
    obtain ⟨name, attrs, body, table⟩ := tag
    exact ih _

section

variable {K V : Type} [DecidableEq K]

/-- Keys that are not put keep their values. -/
theorem get?_foldl_put_of_notMem (ps : List (K × V)) {k : K} (h : k ∉ ps.map Prod.fst)
    (l : Ledger K V) : (ps.foldl (fun l p => l.put p.1 p.2) l).get? k = l.get? k := by
  induction ps generalizing l with
  | nil => rfl
  | cons p ps ih =>
    rw [List.map_cons, List.mem_cons, not_or] at h
    rw [List.foldl_cons, ih h.2, Ledger.get?_put, if_neg h.1]

/-- With one pair for a key its value is found. -/
theorem get?_foldl_put_of_mem {ps : List (K × V)} (hnodup : (ps.map Prod.fst).Nodup) {k : K} {v : V}
    (h : (k, v) ∈ ps) (l : Ledger K V) :
    (ps.foldl (fun l p => l.put p.1 p.2) l).get? k = some v := by
  induction ps generalizing l with
  | nil => cases h
  | cons p ps ih =>
    obtain ⟨hnot, hnodup⟩ := List.nodup_cons.mp hnodup
    rw [List.foldl_cons]
    rcases List.mem_cons.mp h with rfl | h
    · rw [get?_foldl_put_of_notMem ps hnot, Ledger.get?_put, if_pos rfl]
    · exact ih hnodup h _

end

/-- `xml_tag_get_attr`, as a string -/
def attrString (attrs : Ledger CStr Variant) (k : CStr) : Option CStr :=
  (attrs.get? k).bind variantToString

/-- The attributes that the parser sets. -/
def parsedAttrs (attrs : List (CStr × Variant)) : List (CStr × Variant) :=
  attrs.filterMap fun a => (variantToString a.2).map fun value => (a.1, .string (some value))

/-- The attributes of the tag that a start makes. -/
theorem attrs_startTag (name : List Char) (attrs : List (CStr × Variant)) :
    (startTag name (attrStrings attrs)).attrs =
      (parsedAttrs attrs).foldl (fun l p => l.put p.1 p.2) .empty := by
  have hfold : ∀ tag : XmlTag, ((attrStrings attrs).foldl (fun tag a =>
      xmlTagSetAttr tag (cstr a.1) (.string (some (cstr a.2)))) tag).attrs =
      (parsedAttrs attrs).foldl (fun l p => l.put p.1 p.2) tag.attrs := by
    induction attrs with
    | nil => exact fun tag => rfl
    | cons a attrs ih =>
      rintro ⟨n, as, body, childs⟩
      rw [attrStrings, parsedAttrs, List.filterMap_cons, List.filterMap_cons]
      cases variantToString a.2 with
      | none => exact ih _
      | some value =>
        rw [Option.map_some, Option.map_some, List.foldl_cons, List.foldl_cons, cstr_chars,
          cstr_chars]
        exact ih _
  exact hfold _

/-- Attributes with strings come back, in whatever order they are written. -/
theorem attrString_startTag (name : List Char) {attrs : Ledger CStr Variant}
    {rows : List (CStr × Variant)} (hperm : rows.Perm attrs.rows) (k : CStr) :
    attrString (startTag name (attrStrings rows)).attrs k = attrString attrs k := by
  have hkeys : ((parsedAttrs rows).map Prod.fst).Sublist (rows.map Prod.fst) :=
    sublist_strings (fun n value => (n, Variant.string (some value))) id (fun _ _ => rfl) rows
  have hnodup : (rows.map Prod.fst).Nodup := (hperm.map Prod.fst).nodup_iff.mpr attrs.nodup
  -- what stands under the key has no string
  have hnone : (∀ a ∈ rows, a.1 = k → variantToString a.2 = none) →
      attrString (startTag name (attrStrings rows)).attrs k = none := by
    intro h
    rw [attrString, attrs_startTag, get?_foldl_put_of_notMem]
    · rfl
    · intro hk
      obtain ⟨p, hp, rfl⟩ := List.mem_map.mp hk
      obtain ⟨a, ha, heq⟩ := List.mem_filterMap.mp hp
      obtain ⟨value, hvalue, rfl⟩ := Option.map_eq_some_iff.mp heq
      rw [h a ha rfl] at hvalue
      cases hvalue
  cases hget : attrs.get? k with
  | none =>
    have hval : attrString attrs k = none := by rw [attrString, hget]; rfl
    rw [hval]
    refine hnone fun a ha hk => absurd ?_ (Ledger.get?_eq_none.mp hget)
    exact hk ▸ List.mem_map_of_mem (hperm.mem_iff.mp ha)
  | some var =>
    have hval : attrString attrs k = variantToString var := by rw [attrString, hget]; rfl
    rw [hval]
    cases hvalue : variantToString var with
    | none =>
      refine hnone fun a ha hk => ?_
      have hsame := Ledger.get?_of_mem (hperm.mem_iff.mp ha)
      rw [hk, hget] at hsame
      rw [← Option.some.inj hsame, hvalue]
    | some value =>
      have hmem : (k, var) ∈ rows := by
        rw [hperm.mem_iff]
        obtain ⟨r, hr, heq⟩ := Option.map_eq_some_iff.mp hget
        have hk := List.find?_some hr
        rw [← of_decide_eq_true hk, ← heq]
        exact List.mem_of_find?_eq_some hr
      have hparsed : (k, Variant.string (some value)) ∈ parsedAttrs rows :=
        List.mem_filterMap.mpr ⟨(k, var), hmem, by rw [hvalue, Option.map_some]⟩
      rw [attrString, attrs_startTag, get?_foldl_put_of_mem (hkeys.nodup hnodup) hparsed]
      rfl

/-! ## Round trip -/

/-- A tag with the childs for which `xml_tag_add_child` is called, in the order of the calls. -/
inductive TagPlan : Type where
  /-- name, attributes, body and childs -/
  | mk (name : CStr) (attrs : Ledger CStr Variant) (body : Option Variant)
    (childs : List TagPlan)

namespace TagPlan

/-- The name. -/
def name : TagPlan → CStr
  | .mk name _ _ _ => name

/-- The attributes. -/
def attrs : TagPlan → Ledger CStr Variant
  | .mk _ attrs _ _ => attrs

/-- The body. -/
def body : TagPlan → Option Variant
  | .mk _ _ body _ => body

/-- The childs. -/
def childs : TagPlan → List TagPlan
  | .mk _ _ _ childs => childs

mutual

/-- The tag that is built. -/
def build : TagPlan → XmlTag
  | .mk name attrs body childs => (buildAll childs).foldl xmlTagAddChild (.mk name attrs body .nil)

/-- The childs that are built. -/
def buildAll : List TagPlan → List XmlTag
  | [] => []
  | p :: ps => p.build :: buildAll ps

end

/-- The tag has the name, attributes and body of the plan, and for each name its childs are those
of the plan in the order of the calls. -/
inductive Restored : TagPlan → XmlTag → Prop
  /-- So it is, and so it is for the childs. -/
  | intro {p : TagPlan} {tag : XmlTag} (name : tag.name = p.name)
      (attrs : ∀ k, attrString tag.attrs k = attrString p.attrs k)
      (body : tag.body.bind variantToString = p.body.bind variantToString)
      (childs : ∀ n, List.Forall₂ Restored (p.childs.filter fun c => decide (c.name = n))
        (xmlTagGetChilds tag n)) : Restored p tag

section

variable [Glib]

/-- Not empty, and with graphic characters at the ends. -/
def Graphic (s : List Char) : Prop :=
  s ≠ [] ∧ (∀ c ∈ s.head?, Glib.isgraph c = true) ∧ ∀ c ∈ s.getLast?, Glib.isgraph c = true

/-- The body is a string with graphic characters at the ends. -/
def GoodBody (body : Option Variant) : Prop :=
  ∀ var ∈ body, ∃ value, variantToString var = some value ∧ Graphic value.chars

mutual

/-- Names are valid, and bodies are such strings. -/
def Good : TagPlan → Prop
  | .mk name attrs body childs =>
    Glib.validName name.chars ∧ (∀ a ∈ attrs.rows, Glib.validName a.1.chars) ∧ GoodBody body ∧
      GoodAll childs

/-- So it is for each. -/
def GoodAll : List TagPlan → Prop
  | [] => True
  | p :: ps => p.Good ∧ GoodAll ps

end

end

/-- Plans are carried out one by one. -/
theorem buildAll_eq : ∀ ps : List TagPlan, buildAll ps = ps.map build
  | [] => rfl
  | p :: ps => by rw [buildAll, buildAll_eq ps, List.map_cons]

/-! ### The tag that is built -/

/-- Childs that are added leave every child under its own name. -/
theorem proper_foldl (childs : List XmlTag) : ∀ tag : XmlTag, tag.childs.Proper →
    (childs.foldl xmlTagAddChild tag).childs.Proper := by
  induction childs with
  | nil => exact fun tag h => h
  | cons child childs ih =>
    rintro ⟨name, attrs, body, table⟩ h
    exact ih _ (ChildTable.Proper.add h child)

/-- A tag that was built has every child under its own name. -/
theorem proper_build : ∀ p : TagPlan, p.build.childs.Proper
  | .mk name attrs body childs => by
    rw [build]
    exact proper_foldl _ _ ⟨List.nodup_nil, fun r hr => (List.not_mem_nil hr).elim⟩

/-- A plan gives its name to the tag. -/
theorem name_build : ∀ p : TagPlan, p.build.name = p.name
  | .mk name attrs body childs => by
    rw [build, (foldl_addChild_same _ _).1]
    rfl

/-- The order in which childs stand. -/
theorem getChilds_build : ∀ (p : TagPlan) (n : CStr),
    xmlTagGetChilds p.build n =
      linked ((p.childs.filter fun c => decide (c.name = n)).map build)
  | .mk name attrs body childs, n => by
    have hfilter : (childs.map build).filter (fun child => decide (child.name = n)) =
        (childs.filter fun c => decide (c.name = n)).map build := by
      rw [List.filter_map]
      congr 1
      refine List.filter_congr fun c _ => ?_
      rw [Function.comp_apply, name_build]
    rw [build, getChilds_addAll, buildAll_eq, hfilter, TagPlan.childs, ← foldl_linkSecond]
    rfl

/-! ### The tag that comes back -/

section

variable [Glib]

/-- Text that begins and ends with graphic characters is not cut. -/
theorem stripNonGraph_graphic {s : List Char} (h : Graphic s) : stripNonGraph s = s := by
  obtain ⟨hne, hhead, hlast⟩ := h
  obtain ⟨c, cs, rfl⟩ := List.exists_cons_of_ne_nil hne
  have hfirst : (c :: cs).dropWhile (fun uc => !Glib.isgraph uc) = c :: cs := by
    rw [List.dropWhile_cons_of_neg]
    simp [hhead c rfl]
  rw [stripNonGraph, hfirst]
  refine List.rdropWhile_eq_self_iff.mpr fun hne' => ?_
  simp [hlast _ (List.getLast?_eq_some_getLast hne')]

/-- The body comes back. -/
theorem body_addRun {body : Option Variant} (h : GoodBody body) {tag : XmlTag}
    (htag : tag.body = none) :
    (addRun (bodyText body) tag).body.bind variantToString = body.bind variantToString := by
  cases body with
  | none => exact congrArg (Option.bind · variantToString) htag
  | some var =>
    obtain ⟨value, hvalue, hgraphic⟩ := h var rfl
    have htext : bodyText (some var) = value.chars := by
      rw [bodyText, Option.bind_some, hvalue]
      rfl
    obtain ⟨c, cs, hcons⟩ := List.exists_cons_of_ne_nil hgraphic.1
    have hrun : addRun value.chars tag = addText value.chars tag := by
      rw [addRun, stripNonGraph_graphic hgraphic, hcons]
    obtain ⟨name, attrs, body, childs⟩ := tag
    obtain rfl : body = none := htag
    have hbody : (addText value.chars (.mk name attrs none childs)).body =
        some (.staticString (some (cstr value.chars))) := rfl
    rw [htext, hrun, hbody, cstr_chars, Option.bind_some, Option.bind_some, hvalue]
    rfl

/-- Text adds no attribute. -/
theorem attrs_addRun (text : List Char) (tag : XmlTag) : (addRun text tag).attrs = tag.attrs := by
  obtain ⟨name, attrs, body, childs⟩ := tag
  rw [addRun]
  split <;> rfl

variable [HashOrder]

/-- What comes back of a tag but for its childs. -/
theorem reparsed_same {p : TagPlan} (h : GoodBody p.body) :
    (∀ k, attrString (reparsed p.build).attrs k = attrString p.attrs k) ∧
      (reparsed p.build).body.bind variantToString = p.body.bind variantToString := by
  obtain ⟨name, attrs, body, childs⟩ := p
  obtain ⟨-, hattrs, hbody⟩ := foldl_addChild_same (buildAll childs) (.mk name attrs body .nil)
  rw [build]
  generalize (buildAll childs).foldl xmlTagAddChild (.mk name attrs body .nil) = tag at hattrs hbody
  obtain ⟨n, as, b, table⟩ := tag
  obtain rfl : as = attrs := hattrs
  obtain rfl : b = body := hbody
  rw [reparsed_mk, (foldl_addChild_same _ _).2.1, (foldl_addChild_same _ _).2.2, reparsedSelf,
    attrs_addRun]
  refine ⟨attrString_startTag _ (HashOrder.perm _), body_addRun h ?_⟩
  rw [startTag_eq]
  rfl

mutual

/-- **One tag.** What comes back has the name, the attributes, the body and the childs of the plan,
in the order of the calls; the childs come back by the same. -/
theorem restored_reparsed : ∀ p : TagPlan, p.Good → p.Restored (reparsed p.build)
  | .mk name attrs body childs, h => by
    have hall := restored_all childs h.2.2.2
    obtain ⟨hattrs, hbody⟩ := reparsed_same (p := .mk name attrs body childs) h.2.2.1
    refine .intro ?_ hattrs hbody fun n => ?_
    · rw [name_reparsed, name_build]
    · -- twice linked is the order of the calls
      rw [getChilds_reparsed (proper_build _), getChilds_build, map_linked, linked_linked,
        List.map_map, List.forall₂_map_right_iff, List.forall₂_same]
      exact fun c hc => hall c (List.mem_filter.mp hc).1

/-- The childs of a tag come back, one by one. -/
theorem restored_all : ∀ ps : List TagPlan, GoodAll ps → ∀ p ∈ ps, p.Restored (reparsed p.build)
  | [], _ => List.forall_mem_nil _
  | p :: ps, h => List.forall_mem_cons.mpr ⟨restored_reparsed p h.1, restored_all ps h.2⟩

end

end

end TagPlan

/-! ### Valid names

The parser takes a name only as GMarkup does. The names of a plan are assumed to be such; here they
are followed into the element that is written.
-/

section

variable [Glib]

mutual

/-- All names in the tag are valid. -/
def XmlTag.Named : XmlTag → Prop
  | .mk name attrs _ childs =>
    Glib.validName name.chars ∧ (∀ a ∈ attrs.rows, Glib.validName a.1.chars) ∧ childs.Named

/-- All names in the childs are valid. -/
def ChildTable.Named : ChildTable → Prop
  | .nil => True
  | .cons _ tags rest => tags.Named ∧ rest.Named

/-- All names in the tags are valid. -/
def Siblings.Named : Siblings → Prop
  | .last tag => tag.Named
  | .cons tag next => tag.Named ∧ next.Named

end

/-- Valid names stay valid when a tag with valid names is linked. -/
theorem Siblings.Named.link {child : XmlTag} (hchild : child.Named) : ∀ {tags : Siblings},
    tags.Named → (tags.link child).Named
  | .last _, h => ⟨h, hchild⟩
  | .cons _ _, h => ⟨h.1, hchild, h.2⟩

/-- Likewise for a table. -/
theorem ChildTable.Named.add {child : XmlTag} (hchild : child.Named) : ∀ {table : ChildTable},
    table.Named → (table.add child).Named
  | .nil, _ => ⟨hchild, trivial⟩
  | .cons name tags rest, h => by
    rw [ChildTable.add]
    split
    · exact ⟨Siblings.Named.link hchild h.1, h.2⟩
    · exact ⟨h.1, ChildTable.Named.add hchild h.2⟩

/-- Likewise for childs that are added one after the other. -/
theorem named_foldl {childs : List XmlTag} (h : ∀ child ∈ childs, child.Named) :
    ∀ {tag : XmlTag}, tag.Named → (childs.foldl xmlTagAddChild tag).Named := by
  induction childs with
  | nil => exact fun htag => htag
  | cons child childs ih =>
    rintro ⟨name, attrs, body, table⟩ htag
    exact ih (fun c hc => h c (List.mem_cons_of_mem _ hc))
      ⟨htag.1, htag.2.1, ChildTable.Named.add (h child List.mem_cons_self) htag.2.2⟩

mutual

/-- A good plan makes a tag with valid names. -/
theorem named_build : ∀ p : TagPlan, p.Good → p.build.Named
  | .mk name attrs body childs, h => by
    rw [TagPlan.build]
    exact named_foldl (named_buildAll childs h.2.2.2) ⟨h.1, h.2.1, trivial⟩

/-- Good plans make tags with valid names. -/
theorem named_buildAll : ∀ ps : List TagPlan, TagPlan.GoodAll ps →
    ∀ tag ∈ TagPlan.buildAll ps, tag.Named
  | [], _ => List.forall_mem_nil _
  | p :: ps, h => List.forall_mem_cons.mpr ⟨named_build p h.1, named_buildAll ps h.2⟩

end

/-- Attributes with valid names, each once, are valid in an element. -/
theorem validAttrs_attrStrings {attrs : List (CStr × Variant)} (hnodup : (attrs.map Prod.fst).Nodup)
    (h : ∀ a ∈ attrs, Glib.validName a.1.chars) :
    ValidAttrs Glib.validName (attrStrings attrs) := by
  constructor
  · intro a ha
    obtain ⟨b, hb, heq⟩ := List.mem_filterMap.mp ha
    obtain ⟨value, -, rfl⟩ := Option.map_eq_some_iff.mp heq
    exact h b hb
  · have hsub : ((attrStrings attrs).map Prod.fst).Sublist
        ((attrs.map Prod.fst).map CStr.chars) := by
      rw [List.map_map]
      exact sublist_strings (fun n value => (n.chars, value.chars)) CStr.chars (fun _ _ => rfl)
        attrs
    exact hsub.nodup (hnodup.map CStr.chars_injective)

/-- Valid elements are valid as the content of another one. -/
theorem valid_itemsOf {es : List Element} (h : ∀ e ∈ es, e.Valid Glib.validName) :
    (itemsOf es).Valid Glib.validName := by
  induction es with
  | nil => trivial
  | cons e es ih =>
    exact ⟨h e List.mem_cons_self, ih fun e he => h e (List.mem_cons_of_mem _ he)⟩

mutual

/-- **A tag with valid names is a valid element**, so GMarkup reads what is written of it. -/
theorem valid_element : ∀ tag : XmlTag, tag.Named → tag.element.Valid Glib.validName
  | .mk name attrs body childs, h => by
    have hchilds := valid_elements childs h.2.2
    have hattrs := validAttrs_attrStrings attrs.nodup h.2.1
    rcases element_cases name attrs body childs with ⟨-, -, helement⟩ | ⟨-, helement⟩
    · rw [helement]
      exact ⟨h.1, hattrs⟩
    · rw [helement]
      exact ⟨h.1, hattrs, valid_itemsOf hchilds⟩

/-- Likewise for the childs of a tag. -/
theorem valid_elements : ∀ table : ChildTable, table.Named →
    ∀ e ∈ table.elements, e.Valid Glib.validName
  | .nil, _ => List.forall_mem_nil _
  | .cons _ tags rest, h =>
    List.forall_mem_append.mpr ⟨valid_tags tags h.1, valid_elements rest h.2⟩

/-- Likewise for the tags of one name. -/
theorem valid_tags : ∀ tags : Siblings, tags.Named → ∀ e ∈ tags.elements, e.Valid Glib.validName
  | .last tag, h => List.forall_mem_singleton.mpr (valid_element tag h)
  | .cons tag next, h => List.forall_mem_cons.mpr ⟨valid_element tag h.1, valid_tags next h.2⟩

end

/-- A table made of rows with valid names has valid names. -/
theorem ChildTable.named_ofRows {rows : List (CStr × Siblings)} (h : ∀ r ∈ rows, r.2.Named) :
    (ChildTable.ofRows rows).Named := by
  induction rows with
  | nil => trivial
  | cons r rows ih =>
    exact ⟨h r List.mem_cons_self, ih fun r hr => h r (List.mem_cons_of_mem _ hr)⟩

variable [HashOrder]

mutual

/-- The order in which a hash table is visited changes no name. -/
theorem named_visited : ∀ tag : XmlTag, tag.Named → tag.visited.Named
  | .mk _ _ _ childs, h =>
    ⟨h.1, fun a ha => h.2.1 a ((HashOrder.perm _).mem_iff.mp ha),
      ChildTable.named_ofRows fun r hr =>
        named_visitedRows childs h.2.2 r ((HashOrder.perm _).mem_iff.mp hr)⟩

/-- Likewise for the rows of a table. -/
theorem named_visitedRows : ∀ table : ChildTable, table.Named →
    ∀ r ∈ table.visitedRows, r.2.Named
  | .nil, _ => List.forall_mem_nil _
  | .cons _ tags rest, h =>
    List.forall_mem_cons.mpr ⟨named_visitedTags tags h.1, named_visitedRows rest h.2⟩

/-- Likewise for the tags of one name. -/
theorem named_visitedTags : ∀ tags : Siblings, tags.Named → tags.visited.Named
  | .last tag, h => named_visited tag h
  | .cons tag next, h => ⟨named_visited tag h.1, named_visitedTags next h.2⟩

end

/-- What is written for a tag is parsed as a tag with the same attributes, body and childs, and
with the childs of each name in the order of the calls of `xml_tag_add_child`, as long as GMarkup
gives attributes and text as they were written. -/
theorem xml_round_trip [Glib.Reads id id] (p : TagPlan) (h : p.Good) :
    ∃ tag, xmlParserParse xmlParserNew (xmlTagToStringEscape p.build) = .ok ⟨none, [tag]⟩ ∧
      p.Restored tag := by
  have hvalid := valid_element _ (named_visited _ (named_build p h))
  refine ⟨reparsed p.build, ?_, TagPlan.restored_reparsed p h⟩
  rw [toStringEscape_eq, parse_element id id hvalid, Element.map_id]
  rfl

end

/-- A reader of the text of elements, and ASCII for graphic characters. -/
abbrev Glib.plain : Glib where
  escapeText := Markup.escapeText
  escapeText_nil := rfl
  isgraph := fun c => decide (0x21 ≤ c.toNat ∧ c.toNat ≤ 0x7e)
  validName := PlainName
  report := Markup.read

/-- The reader of the library gives attributes and text as they are. -/
theorem Glib.reads_plain : @Glib.Reads Glib.plain id id :=
  @Glib.Reads.mk Glib.plain _ _ fun e h => by
    rw [Element.map_id]
    exact read_text h

/-- A child with a number for its body. -/
def numberPlan (n : Int) : TagPlan := .mk ⟨"item".toList, by decide⟩ .empty (some (.int n)) []

/-- Three childs of one name, in a tag with an attribute that has a quote. -/
theorem xml_round_trip_three :
    letI := Glib.plain
    letI := HashOrder.plain
    let p := TagPlan.mk ⟨"list".toList, by decide⟩
      ⟨[(⟨"of".toList, by decide⟩, .string (some ⟨"it's".toList, by decide⟩))], by decide⟩ none
      [numberPlan 1, numberPlan 2, numberPlan 3]
    String.ofList (xmlTagToStringEscape p.build) =
        "<list of='it&apos;s'><item>1</item><item>3</item><item>2</item></list>" ∧
      ∃ tag, xmlParserParse xmlParserNew (xmlTagToStringEscape p.build) = .ok ⟨none, [tag]⟩ ∧
        p.Restored tag := by
  let _ := Glib.plain
  let _ := HashOrder.plain
  have _ := Glib.reads_plain
  have hitem : ∀ n : Int, TagPlan.Graphic (decimal n).chars → (numberPlan n).Good := by
    refine fun n hn => ⟨⟨by decide, List.all_eq_true.mp (by decide)⟩, List.forall_mem_nil _, ?_,
      trivial⟩
    rintro var ⟨⟩
    exact ⟨decimal n, rfl, hn⟩
  refine ⟨by decide, xml_round_trip _ ⟨⟨by decide, List.all_eq_true.mp (by decide)⟩, ?_, nofun, ?_⟩⟩
  · exact List.forall_mem_singleton.mpr ⟨by decide, List.all_eq_true.mp (by decide)⟩
  · refine ⟨hitem 1 ?_, hitem 2 ?_, hitem 3 ?_, trivial⟩
    all_goals exact ⟨by decide, (Option.all_eq_true _ _).mp rfl, (Option.all_eq_true _ _).mp rfl⟩

end Mbb
