import Mathlib.Order.WithBot
import Mbb.HttpBatch
import Mbb.Lib.Chain
import Mbb.Lib.StableSort
import Mbb.Strcmp

/-!
# Sorting siblings (`lib/xmltag.c`)

`xml_tag_sort_by_attr` sorts the childs of one name where they are: the list is cut in two by a
slow and a fast pointer, the parts are sorted, and `xml_tag_sort_merge` links the tags anew behind
a tag on the stack. So tags are cells here, and a list of siblings is what `next` leads through.
Loops have fuel; without enough of it there is no result. Lists of siblings end, and a tag stands
in one of them only, whatever the functions have done.
-/

namespace Mbb

/-! ## Merge sort

The list is cut in half, the halves are sorted and merged by changing `next`; nothing is allocated.
-/

/-- The loop of `xml_tag_sort_merge`. -/
structure MergeState : Type where
  /-- `next` of the tags -/
  next : ℕ → Option ℕ
  /-- `tag.next`, of the tag on the stack -/
  tagNext : Option ℕ
  /-- `xt`; `none` is the tag on the stack. -/
  xt : Option ℕ

/-- `xt->next = v` -/
def MergeState.link (st : MergeState) (v : Option ℕ) : MergeState :=
  match st.xt with
  | none => { st with tagNext := v }
  | some xt => { st with next := Function.update st.next xt v }

/-- `xt = xt->next = a` -/
def MergeState.push (st : MergeState) (a : ℕ) : MergeState :=
  { st.link (some a) with xt := some a }

section

variable (cmp : ℕ → ℕ → Int)

/-- The loop of `xml_tag_sort_merge`, and the assignment behind it. -/
def xmlTagSortMergeLoop : ℕ → MergeState → Option ℕ → Option ℕ → Option MergeState
  | 0, _, _, _ => none
  | fuel + 1, st, some xt1, some xt2 =>
    if cmp xt1 xt2 ≤ 0 then
      let st := st.push xt1
      xmlTagSortMergeLoop fuel st (st.next xt1) (some xt2)
    else
      let st := st.push xt2
      xmlTagSortMergeLoop fuel st (some xt1) (st.next xt2)
  | _ + 1, st, some xt1, none => some (st.link (some xt1))
  | _ + 1, st, none, xt2 => some (st.link xt2)

/-- `xml_tag_sort_merge`; `tag.next` has no value before it gets one. -/
def xmlTagSortMerge (fuel : ℕ) (next : ℕ → Option ℕ) (xt1 xt2 : Option ℕ) :
    Option ((ℕ → Option ℕ) × Option ℕ) :=
  (xmlTagSortMergeLoop cmp fuel ⟨next, none, none⟩ xt1 xt2).map fun st => (st.next, st.tagNext)

/-- The loop of `xml_tag_sort_real`: where `xt1` is at its end. -/
def xmlTagSplitLoop (next : ℕ → Option ℕ) : ℕ → ℕ → ℕ → Option ℕ
  | 0, _, _ => none
  | fuel + 1, xt1, xt2 =>
    match next xt2 with
    | none => some xt1
    | some xt2 =>
      match next xt2 with
      | none => some xt1
      | some xt2 => (next xt1).bind fun xt1 => xmlTagSplitLoop next fuel xt1 xt2

/-- `xml_tag_sort_real` -/
def xmlTagSortReal : ℕ → (ℕ → Option ℕ) → Option ℕ → Option ((ℕ → Option ℕ) × Option ℕ)
  | 0, _, _ => none
  | _ + 1, next, none => some (next, none)
  | fuel + 1, next, some tag =>
    match next tag with
    | none => some (next, some tag)
    | some xt2 =>
      (xmlTagSplitLoop next fuel tag xt2).bind fun xt1 =>
      (xmlTagSortReal fuel (Function.update next xt1 none) (some tag)).bind fun r1 =>
      (xmlTagSortReal fuel r1.1 (next xt1)).bind fun r2 =>
      xmlTagSortMerge cmp fuel r2.1 r1.2 r2.2

end

/-! ## Tags -/

/-- Tags in memory, known by numbers. -/
structure TagHeap : Type where
  /-- `name` -/
  name : ℕ → CStr
  /-- `next` -/
  next : ℕ → Option ℕ
  /-- `attrs` -/
  attrs : ℕ → Ledger CStr Variant
  /-- `childs`, if there is a table: the first child of a name -/
  childs : ℕ → Option (Ledger CStr ℕ)

namespace TagHeap

variable (h : TagHeap)

/-- `xml_tag_get_child` -/
def xmlTagGetChild (tag : ℕ) (name : CStr) : Option ℕ := (h.childs tag).bind fun ht => ht.get? name

/-- `xml_tag_add_child` -/
def xmlTagAddChild (tag child : ℕ) : TagHeap :=
  let insert := fun ht : Ledger CStr ℕ =>
    { h with childs := Function.update h.childs tag (some (ht.put (h.name child) child)) }
  match h.childs tag with
  | none => insert Ledger.empty
  | some ht =>
    match ht.get? (h.name child) with
    | none => insert ht
    | some prev =>
      { h with
        next := Function.update (Function.update h.next child (h.next prev)) prev (some child) }

/-- The loop of `xml_tag_reorder`: `xt` is put behind `tag`. -/
def xmlTagReorderLoop (tag : ℕ) : ℕ → (ℕ → Option ℕ) → Option ℕ → Option (ℕ → Option ℕ)
  | 0, _, _ => none
  | _ + 1, next, none => some next
  | fuel + 1, next, some xt =>
    xmlTagReorderLoop tag fuel (Function.update (Function.update next xt (next tag)) tag (some xt))
      (next xt)

/-- `xml_tag_reorder` -/
def xmlTagReorder (fuel : ℕ) (tag : Option ℕ) : Option TagHeap :=
  match tag with
  | none => some h
  | some tag =>
    match h.next tag with
    | none => some h
    | some xt =>
      match h.next xt with
      | none => some h
      | some next =>
        (xmlTagReorderLoop tag fuel (Function.update h.next xt none) (some next)).map fun next =>
          { h with next }

/-- `xml_tag_sort_with_data` -/
def xmlTagSortWithData (fuel : ℕ) (tag : ℕ) (name : CStr) (cmp : ℕ → ℕ → Int) : Option TagHeap :=
  match h.xmlTagGetChild tag name with
  | none => some h
  | some old =>
    (xmlTagSortReal cmp fuel h.next (some old)).map fun r =>
      if some old ≠ r.2 then
        -- `g_hash_table_steal` and `g_hash_table_insert`
        let table := fun ht : Ledger CStr ℕ =>
          match r.2 with
          | none => ht.drop fun k => decide (k = name)
          | some xt => ht.put name xt
        { h with next := r.1, childs := Function.update h.childs tag ((h.childs tag).map table) }
      else { h with next := r.1 }

/-- `xml_tag_get_attr` -/
def xmlTagGetAttr (tag : ℕ) (optName : CStr) : Option Variant := (h.attrs tag).get? optName

/-- `xml_tag_attr_cmp` -/
def xmlTagAttrCmp (attr : CStr) (xt1 xt2 : ℕ) : Int :=
  match h.xmlTagGetAttr xt1 attr, h.xmlTagGetAttr xt2 attr with
  | none, none => 0
  | none, some _ => -1
  | some _, none => 1
  | some v1, some v2 => gStrcmp0 (variantStr v1) (variantStr v2)

/-- `xml_tag_sort_by_attr` -/
def xmlTagSortByAttr (fuel : ℕ) (tag : ℕ) (name attr : CStr) : Option TagHeap :=
  h.xmlTagSortWithData fuel tag name (h.xmlTagAttrCmp attr)

end TagHeap

/-! ## The merge

The loop has what is merged and the two rests. Merged is what hangs from the tag on the stack, and
its last tag is the one that is linked next.
-/

namespace MergeState

variable {st : MergeState} {b : List ℕ}

/-- The tags `b` are linked behind the tag on the stack, and the link of the last one is to be
set. -/
def Built (st : MergeState) (b : List ℕ) : Prop :=
  match st.xt with
  | none => b = []
  | some xt => ∃ b', b = b' ++ [xt] ∧ Seg st.next st.tagNext b' (some xt)

theorem Built.link (h : st.Built b) (hnd : b.Nodup) (v : Option ℕ) :
    Seg (st.link v).next (st.link v).tagNext b v := by
  rw [Built] at h
  rw [MergeState.link]
  cases hxt : st.xt with
  | none =>
    rw [hxt] at h
    rw [h]
    exact rfl
  | some xt =>
    rw [hxt] at h
    obtain ⟨b', rfl, hseg⟩ := h
    have hnot : xt ∉ b' := fun hmem =>
      (List.nodup_append.mp hnd).2.2 xt hmem xt (List.mem_singleton_self xt) rfl
    exact Seg.concat_iff.mpr ⟨(Seg.update_iff hnot v).mpr hseg, Function.update_self xt v st.next⟩

/-- Other tags keep their links. -/
theorem Built.link_next (h : st.Built b) (v : Option ℕ) {a : ℕ} (ha : a ∉ b) :
    (st.link v).next a = st.next a := by
  rw [Built] at h
  rw [MergeState.link]
  cases hxt : st.xt with
  | none => rfl
  | some xt =>
    rw [hxt] at h
    obtain ⟨b', rfl, -⟩ := h
    have hne : a ≠ xt := by
      rintro rfl
      exact ha (List.mem_append_right b' (List.mem_singleton_self a))
    exact Function.update_of_ne hne v st.next

/-- What is left is linked behind. -/
theorem Built.link_rest (h : st.Built b) {v : Option ℕ} {l : List ℕ} (hl : Seg st.next v l none)
    (hnd : (b ++ l).Nodup) : Seg (st.link v).next (st.link v).tagNext (b ++ l) none := by
  obtain ⟨hb, -, hdisj⟩ := List.nodup_append.mp hnd
  refine Seg.append_iff.mpr ⟨v, h.link hb v, (Seg.congr fun a ha => ?_).mpr hl⟩
  exact h.link_next v fun hab => hdisj a hab a ha rfl

/-- Before a turn of the loop: the tags `b` are linked, those of `l1` and `l2` are to come. -/
structure Todo (st : MergeState) (b : List ℕ) (xt1 : Option ℕ) (l1 : List ℕ) (xt2 : Option ℕ)
    (l2 : List ℕ) : Prop where
  built : st.Built b
  seg1 : Seg st.next xt1 l1 none
  seg2 : Seg st.next xt2 l2 none
  nodup : (b ++ (l1 ++ l2)).Nodup

variable {xt1 xt2 : Option ℕ} {l1 l2 : List ℕ}

theorem Todo.swap (h : st.Todo b xt1 l1 xt2 l2) : st.Todo b xt2 l2 xt1 l1 where
  built := h.built
  seg1 := h.seg2
  seg2 := h.seg1
  nodup := (List.perm_append_comm.append_left b).nodup_iff.mp h.nodup

/-- The first tag of `l1` is taken. -/
theorem Todo.take {a : ℕ} (h : st.Todo b xt1 (a :: l1) xt2 l2) :
    (st.push a).Todo (b ++ [a]) ((st.push a).next a) l1 xt2 l2 := by
  obtain ⟨hb, -, hdisj⟩ := List.nodup_append.mp h.nodup
  -- no link of a tag that is to come is set
  have hfar : ∀ c ∈ a :: l1 ++ l2, (st.push a).next c = st.next c := fun c hc =>
    h.built.link_next (some a) fun hcb => hdisj c hcb c hc rfl
  constructor
  · exact ⟨b, rfl, h.built.link hb (some a)⟩
  · rw [hfar a List.mem_cons_self]
    exact (Seg.congr fun c hc => hfar c (by simp [hc])).mpr h.seg1.2
  · exact (Seg.congr fun c hc => hfar c (List.mem_append_right _ hc)).mpr h.seg2
  · rw [List.append_assoc]
    exact h.nodup

/-- Tags that are neither linked nor to come are as they were. -/
theorem Todo.push_next {a c : ℕ} (h : st.Todo b xt1 l1 xt2 l2) (hc : c ∉ b ++ (l1 ++ l2)) :
    (st.push a).next c = st.next c :=
  h.built.link_next (some a) fun hcb => hc (List.mem_append_left _ hcb)

end MergeState

section Sorting

variable {cmp : ℕ → ℕ → Int} {κ : Type} [LinearOrder κ] {key : ℕ → κ}

/-- The loop of the merge comes to its end with all tags linked, in the order of the merge. -/
theorem mergeLoop_spec (hcmp : ∀ a b, cmp a b ≤ 0 ↔ key a ≤ key b) :
    ∀ (l1 l2 : List ℕ) {st : MergeState} {xt1 xt2 : Option ℕ} {b : List ℕ},
      st.Todo b xt1 l1 xt2 l2 →
      ∃ st', (∀ fuel, l1.length + l2.length < fuel →
          xmlTagSortMergeLoop cmp fuel st xt1 xt2 = some st') ∧
        Seg st'.next st'.tagNext (b ++ l1.merge l2 fun a b => decide (key a ≤ key b)) none ∧
        ∀ a, a ∉ b ++ (l1 ++ l2) → st'.next a = st.next a
  | [], l2, st, xt1, xt2, b, h => by
    refine ⟨st.link xt2, fun fuel hfuel => ?_, ?_, fun a ha => h.built.link_next xt2 ?_⟩
    · obtain ⟨fuel, rfl⟩ := Nat.exists_eq_add_one_of_ne_zero (Nat.ne_zero_of_lt hfuel)
      rw [seg_nil.mp h.seg1, xmlTagSortMergeLoop]
    · rw [List.nil_merge]
      exact h.built.link_rest h.seg2 h.nodup
    · exact fun hmem => ha (List.mem_append_left _ hmem)
  | a1 :: l1, [], st, xt1, xt2, b, h => by
    refine ⟨st.link xt1, fun fuel hfuel => ?_, ?_, fun a ha => h.built.link_next xt1 ?_⟩
    · obtain ⟨fuel, rfl⟩ := Nat.exists_eq_add_one_of_ne_zero (Nat.ne_zero_of_lt hfuel)
      rw [h.seg1.1, seg_nil.mp h.seg2, xmlTagSortMergeLoop]
    · have hnd := h.nodup
      rw [List.append_nil] at hnd
      rw [List.merge_right]
      exact h.built.link_rest h.seg1 hnd
    · exact fun hmem => ha (List.mem_append_left _ hmem)
  | a1 :: l1, a2 :: l2, st, xt1, xt2, b, h => by
    by_cases hle : key a1 ≤ key a2
    · obtain ⟨st', hrun, hseg, hframe⟩ := mergeLoop_spec hcmp l1 (a2 :: l2) h.take
      refine ⟨st', fun fuel hfuel => ?_, ?_, fun a ha => ?_⟩
      · obtain ⟨fuel, rfl⟩ := Nat.exists_eq_add_one_of_ne_zero (Nat.ne_zero_of_lt hfuel)
        rw [List.length_cons] at hfuel
        have hrun := hrun fuel (by omega)
        rw [h.seg2.1] at hrun
        rw [h.seg1.1, h.seg2.1, xmlTagSortMergeLoop, if_pos ((hcmp a1 a2).mpr hle)]
        exact hrun
      · rw [List.cons_merge_cons_pos _ _ _ (decide_eq_true hle), List.append_cons]
        exact hseg
      · rw [← h.push_next ha]
        refine hframe a fun hmem => ha ?_
        rw [List.append_assoc] at hmem
        exact hmem
    · obtain ⟨st', hrun, hseg, hframe⟩ := mergeLoop_spec hcmp (a1 :: l1) l2 h.swap.take.swap
      refine ⟨st', fun fuel hfuel => ?_, ?_, fun a ha => ?_⟩
      · obtain ⟨fuel, rfl⟩ := Nat.exists_eq_add_one_of_ne_zero (Nat.ne_zero_of_lt hfuel)
        rw [List.length_cons, List.length_cons] at hfuel
        have hrun := hrun fuel (by rw [List.length_cons]; omega)
        rw [h.seg1.1] at hrun
        rw [h.seg1.1, h.seg2.1, xmlTagSortMergeLoop, if_neg fun hcle => hle ((hcmp a1 a2).mp hcle)]
        exact hrun
      · rw [List.cons_merge_cons_neg _ _ _ (by simpa using hle), List.append_cons]
        exact hseg
      · rw [← h.push_next ha]
        refine hframe a fun hmem => ha ?_
        simp only [List.mem_append, List.mem_cons, List.not_mem_nil, or_false] at hmem ⊢
        tauto
termination_by l1 l2 => l1.length + l2.length

/-- `xml_tag_sort_merge` of two lists -/
theorem sortMerge_spec (hcmp : ∀ a b, cmp a b ≤ 0 ↔ key a ≤ key b) {next : ℕ → Option ℕ}
    {xt1 xt2 : Option ℕ} {l1 l2 : List ℕ} (h1 : Seg next xt1 l1 none) (h2 : Seg next xt2 l2 none)
    (hnd : (l1 ++ l2).Nodup) :
    ∃ next' p', (∀ fuel, l1.length + l2.length < fuel →
        xmlTagSortMerge cmp fuel next xt1 xt2 = some (next', p')) ∧
      Seg next' p' (l1.merge l2 fun a b => decide (key a ≤ key b)) none ∧
      ∀ a, a ∉ l1 ++ l2 → next' a = next a := by
  have htodo : MergeState.Todo ⟨next, none, none⟩ [] xt1 l1 xt2 l2 := ⟨rfl, h1, h2, hnd⟩
  obtain ⟨st', hrun, hseg, hframe⟩ := mergeLoop_spec hcmp l1 l2 htodo
  refine ⟨st'.next, st'.tagNext, fun fuel hfuel => ?_, hseg, hframe⟩
  rw [xmlTagSortMerge, hrun fuel hfuel, Option.map_some]

/-- `xt2` is ahead and goes two tags a turn, so `xt1` does not come to the last tag. -/
theorem splitLoop_spec {next : ℕ → Option ℕ} : ∀ (l2 : List ℕ) {x1 x2 : ℕ} {l1 : List ℕ},
    Seg next (next x1) (l1 ++ x2 :: l2) none →
    ∃ l x l', x1 :: (l1 ++ x2 :: l2) = l ++ x :: l' ∧ l' ≠ [] ∧
      ∀ fuel, l2.length < fuel → xmlTagSplitLoop next fuel x1 x2 = some x
  | [], x1, x2, l1, h => by
    obtain ⟨-, hx2⟩ := Seg.concat_iff.mp h
    refine ⟨[], x1, l1 ++ [x2], rfl, by simp, fun fuel hfuel => ?_⟩
    obtain ⟨fuel, rfl⟩ := Nat.exists_eq_add_one_of_ne_zero (Nat.ne_zero_of_lt hfuel)
    rw [xmlTagSplitLoop, hx2]
  | [y], x1, x2, l1, h => by
    obtain ⟨-, -, -, hx2, hy⟩ := Seg.append_iff.mp h
    refine ⟨[], x1, l1 ++ [x2, y], rfl, by simp, fun fuel hfuel => ?_⟩
    obtain ⟨fuel, rfl⟩ := Nat.exists_eq_add_one_of_ne_zero (Nat.ne_zero_of_lt hfuel)
    simp only [xmlTagSplitLoop, hx2, seg_nil.mp hy]
  | y :: z :: l2, x1, x2, l1, h => by
    obtain ⟨-, -, -, hx2, hy, -⟩ := Seg.append_iff.mp h
    -- the tag behind `x1`, and what is between it and `z`
    obtain ⟨x1', l1', heq⟩ : ∃ x1' l1', l1 ++ x2 :: y :: z :: l2 = x1' :: (l1' ++ z :: l2) := by
      cases l1 with
      | nil => exact ⟨x2, [y], rfl⟩
      | cons c l1 => exact ⟨c, l1 ++ [x2, y], by simp⟩
    rw [heq] at h
    obtain ⟨l, x, l', hl, hne, hrun⟩ := splitLoop_spec l2 h.2
    refine ⟨x1 :: l, x, l', ?_, hne, fun fuel hfuel => ?_⟩
    · rw [heq, hl, List.cons_append]
    · obtain ⟨fuel, rfl⟩ := Nat.exists_eq_add_one_of_ne_zero (Nat.ne_zero_of_lt hfuel)
      simp only [List.length_cons] at hfuel
      simp only [xmlTagSplitLoop, hx2, hy, h.1, Option.bind_some]
      exact hrun fuel (by omega)

/-- **The sort of a list of tags ends, and it is stable.** -/
theorem sortReal_spec (hcmp : ∀ a b, cmp a b ≤ 0 ↔ key a ≤ key b) : ∀ (l : List ℕ)
    {next : ℕ → Option ℕ} {p : Option ℕ}, Seg next p l none →
    ∃ next' p' l', (∀ fuel, l.length + 1 < fuel →
        xmlTagSortReal cmp fuel next p = some (next', p')) ∧
      Seg next' p' l' none ∧ StableSort key l l' ∧ ∀ a, a ∉ l → next' a = next a
  | [], next, p, h => by
    refine ⟨next, none, [], fun fuel hfuel => ?_, rfl, StableSort.short (by simp), fun _ _ => rfl⟩
    obtain ⟨fuel, rfl⟩ := Nat.exists_eq_add_one_of_ne_zero (Nat.ne_zero_of_lt hfuel)
    rw [seg_nil.mp h, xmlTagSortReal]
  | [a], next, p, h => by
    refine ⟨next, p, [a], fun fuel hfuel => ?_, h, StableSort.short (by simp), fun _ _ => rfl⟩
    obtain ⟨fuel, rfl⟩ := Nat.exists_eq_add_one_of_ne_zero (Nat.ne_zero_of_lt hfuel)
    simp only [h.1, xmlTagSortReal, seg_nil.mp h.2]
  | a :: b :: l, next, p, h => by
    have hsplit := splitLoop_spec l (show Seg next (next a) ([] ++ b :: l) none from h.2)
    obtain ⟨s, x, t, heq, hne, hsplit⟩ := hsplit
    rw [List.nil_append, List.append_cons] at heq
    have hlen : l.length + 1 + 1 = s.length + (t.length + 1) := by
      simpa using congrArg List.length heq
    have ht : 0 < t.length := List.length_pos_iff.mpr hne
    have hlt1 : (s ++ [x]).length < (a :: b :: l).length := by simp; omega
    have hlt2 : t.length < (a :: b :: l).length := by simp; omega
    have hseg := h
    rw [heq, ← List.append_cons] at hseg
    have hnd := hseg.nodup
    rw [List.append_cons] at hnd
    have hdisj : ∀ c ∈ t, c ∉ s ++ [x] := fun c hc hmem =>
      (List.nodup_append.mp hnd).2.2 c hmem c hc rfl
    obtain ⟨hcut1, hcut2⟩ := hseg.cut
    -- the two parts are sorted, and neither sort changes the other part
    obtain ⟨next1, p1, l1, hrun1, hseg1, hsort1, hframe1⟩ := sortReal_spec hcmp (s ++ [x]) hcut1
    have hcut2' : Seg next1 (next x) t none :=
      (Seg.congr fun c hc => hframe1 c (hdisj c hc)).mpr hcut2
    obtain ⟨next2, p2, l2, hrun2, hseg2, hsort2, hframe2⟩ := sortReal_spec hcmp t hcut2'
    have hseg1' : Seg next2 p1 l1 none := by
      refine (Seg.congr fun c hc => hframe2 c fun hct => ?_).mpr hseg1
      exact hdisj c hct (hsort1.perm.mem_iff.mp hc)
    have hperm := hsort1.perm.append hsort2.perm
    obtain ⟨next3, p3, hrun3, hseg3, hframe3⟩ :=
      sortMerge_spec hcmp hseg1' hseg2 (hperm.nodup_iff.mpr hnd)
    refine ⟨next3, p3, _, fun fuel hfuel => ?_, hseg3, ?_, fun c hc => ?_⟩
    · obtain ⟨fuel, rfl⟩ := Nat.exists_eq_add_one_of_ne_zero (Nat.ne_zero_of_lt hfuel)
      simp only [List.length_cons] at hfuel
      have hlen1 := hsort1.perm.length_eq
      have hlen2 := hsort2.perm.length_eq
      rw [List.length_append, List.length_singleton] at hlen1
      simp only [h.1, xmlTagSortReal, h.2.1]
      rw [hsplit fuel (by omega), Option.bind_some, ← h.1, hrun1 fuel (by simp; omega),
        Option.bind_some, hrun2 fuel (by omega), Option.bind_some]
      exact hrun3 fuel (by omega)
    · rw [heq]
      exact hsort1.merge hsort2
    · rw [heq] at hc
      have hcx : c ≠ x := by
        rintro rfl
        exact hc (by simp)
      rw [hframe3 c fun hmem => hc (hperm.mem_iff.mp hmem),
        hframe2 c fun hmem => hc (List.mem_append_right _ hmem),
        hframe1 c fun hmem => hc (List.mem_append_left _ hmem), Function.update_of_ne hcx]
termination_by l => l.length

end Sorting

/-! ## The order of an attribute

Tags are compared by the value of an attribute as strings; those without it come first.
-/

/-- `NULL` comes before all strings. -/
def strKey : Option CStr → WithBot CStr
  | none => ⊥
  | some s => s

/-- The sign of the comparison. -/
theorem gStrcmp0_sign : ∀ s t : Option CStr,
    (gStrcmp0 s t ≤ 0 ↔ strKey s ≤ strKey t) ∧ (gStrcmp0 s t = 0 ↔ strKey s = strKey t)
  | none, none => by simp [gStrcmp0, strKey]
  | none, some t => by simp [gStrcmp0, strKey]
  | some s, none => by simp [gStrcmp0, strKey]
  | some s, some t => by
    rw [gStrcmp0, strcmp_nonpos, strcmp_eq_zero, strKey, strKey, WithBot.coe_le_coe,
      WithBot.coe_inj]
    exact ⟨Iff.rfl, Iff.rfl⟩

namespace TagHeap

variable {h h' : TagHeap} {attr : CStr}

/-- What a tag is sorted by; no attribute comes before all attributes. -/
def attrKey (h : TagHeap) (attr : CStr) (xt : ℕ) : WithBot (WithBot CStr) :=
  match h.xmlTagGetAttr xt attr with
  | none => ⊥
  | some v => strKey (variantStr v)

theorem attrCmp_sign (xt1 xt2 : ℕ) :
    (h.xmlTagAttrCmp attr xt1 xt2 ≤ 0 ↔ h.attrKey attr xt1 ≤ h.attrKey attr xt2) ∧
      (h.xmlTagAttrCmp attr xt1 xt2 = 0 ↔ h.attrKey attr xt1 = h.attrKey attr xt2) := by
  rw [xmlTagAttrCmp, attrKey, attrKey]
  cases h.xmlTagGetAttr xt1 attr with
  | none => cases h.xmlTagGetAttr xt2 attr <;> simp
  | some v1 =>
    cases h.xmlTagGetAttr xt2 attr with
    | none => simp
    | some v2 =>
      obtain ⟨hle, heq⟩ := gStrcmp0_sign (variantStr v1) (variantStr v2)
      exact ⟨hle.trans WithBot.coe_le_coe.symm, heq.trans WithBot.coe_inj.symm⟩

theorem attrCmp_nonpos (h : TagHeap) (attr : CStr) (xt1 xt2 : ℕ) :
    h.xmlTagAttrCmp attr xt1 xt2 ≤ 0 ↔ h.attrKey attr xt1 ≤ h.attrKey attr xt2 :=
  (attrCmp_sign xt1 xt2).1

/-- `l'` is `l`, sorted by an attribute. -/
structure SortedByAttr (h : TagHeap) (attr : CStr) (l l' : List ℕ) : Prop where
  /-- the same tags -/
  perm : l'.Perm l
  /-- tags without the attribute come first -/
  without : l'.Pairwise fun xt1 xt2 =>
    h.xmlTagGetAttr xt2 attr = none → h.xmlTagGetAttr xt1 attr = none
  /-- the others in the order of their strings -/
  ascending : l'.Pairwise fun xt1 xt2 => ∀ v1 v2, h.xmlTagGetAttr xt1 attr = some v1 →
    h.xmlTagGetAttr xt2 attr = some v2 → strKey (variantStr v1) ≤ strKey (variantStr v2)
  /-- tags that compare equal are as before -/
  stable : ∀ xt1 xt2, h.xmlTagAttrCmp attr xt1 xt2 = 0 → [xt1, xt2].Sublist l →
    [xt1, xt2].Sublist l'

theorem sortedByAttr {l l' : List ℕ} (hs : StableSort (h.attrKey attr) l l') :
    h.SortedByAttr attr l l' where
  perm := hs.perm
  without := hs.sorted.imp fun {xt1 xt2} hle hnone => by
    rw [attrKey, attrKey, hnone] at hle
    cases hxt1 : h.xmlTagGetAttr xt1 attr with
    | none => rfl
    | some v1 =>
      rw [hxt1] at hle
      exact absurd (le_bot_iff.mp hle) WithBot.coe_ne_bot
  ascending := hs.sorted.imp fun {xt1 xt2} hle v1 v2 h1 h2 => by
    rw [attrKey, attrKey, h1, h2] at hle
    exact WithBot.coe_le_coe.mp hle
  stable := fun xt1 xt2 hcmp hsub => hs.before ((attrCmp_sign xt1 xt2).2.mp hcmp) hsub

/-! ## Lists of childs

What the heap has to be like for the functions to work: lists end, and have no tag in common.
-/

/-- The childs of a name. -/
def Siblings (h : TagHeap) (tag : ℕ) (name : CStr) (l : List ℕ) : Prop :=
  Seg h.next (h.xmlTagGetChild tag name) l none

/-- The tag is a child. -/
def Linked (h : TagHeap) (a : ℕ) : Prop := ∃ tag name l, h.Siblings tag name l ∧ a ∈ l

/-- All lists of childs end, and a tag stands in one of them only. -/
structure WF (h : TagHeap) : Prop where
  ends : ∀ tag name, ∃ l, h.Siblings tag name l
  apart : ∀ {tag name l tag' name' l' a}, h.Siblings tag name l → h.Siblings tag' name' l' →
    a ∈ l → a ∈ l' → (tag', name') = (tag, name)

/-- Nothing is changed but the childs of one name, which are `l` now. -/
structure SameBut (h h' : TagHeap) (tag : ℕ) (name : CStr) (l : List ℕ) : Prop where
  names : h'.name = h.name
  attrs : h'.attrs = h.attrs
  next : ∀ a, a ∉ l → h'.next a = h.next a
  child : ∀ tag' name', (tag', name') ≠ (tag, name) →
    h'.xmlTagGetChild tag' name' = h.xmlTagGetChild tag' name'

variable {tag tag' child : ℕ} {name name' : CStr} {l l' m : List ℕ}

/-- The tags of another list are not among those of `l'`. -/
theorem WF.not_mem (hwf : h.WF) (hl : h.Siblings tag name l)
    (hmem : ∀ a ∈ l', a ∈ l ∨ ¬ h.Linked a) (hne : (tag', name') ≠ (tag, name))
    (hm : h.Siblings tag' name' m) {a : ℕ} (ha : a ∈ m) : a ∉ l' := by
  intro hal'
  rcases hmem a hal' with hal | hnot
  · exact hne (hwf.apart hl hm hal ha)
  · exact hnot ⟨tag', name', m, hm, ha⟩

/-- The other lists are as they were. -/
theorem SameBut.siblings_iff (hsame : h.SameBut h' tag name l') (hwf : h.WF)
    (hl : h.Siblings tag name l) (hmem : ∀ a ∈ l', a ∈ l ∨ ¬ h.Linked a)
    (hne : (tag', name') ≠ (tag, name)) : h'.Siblings tag' name' m ↔ h.Siblings tag' name' m := by
  have hkept : ∀ {m}, h.Siblings tag' name' m → h'.Siblings tag' name' m := by
    intro m hm
    rw [Siblings, hsame.child tag' name' hne]
    exact (Seg.congr fun a ha => hsame.next a (hwf.not_mem hl hmem hne hm ha)).mpr hm
  refine ⟨fun hm => ?_, hkept⟩
  obtain ⟨m', hm'⟩ := hwf.ends tag' name'
  rw [hm.unique (hkept hm')]
  exact hm'

/-- **One list is changed, and it gets no tag of another list.** -/
theorem WF.change (hwf : h.WF) (hl : h.Siblings tag name l) (hl' : h'.Siblings tag name l')
    (hmem : ∀ a ∈ l', a ∈ l ∨ ¬ h.Linked a) (hsame : h.SameBut h' tag name l') : h'.WF := by
  have hiff : ∀ {tag' name' m}, (tag', name') ≠ (tag, name) →
      (h'.Siblings tag' name' m ↔ h.Siblings tag' name' m) := hsame.siblings_iff hwf hl hmem
  constructor
  · intro tag' name'
    by_cases heq : (tag', name') = (tag, name)
    · obtain ⟨rfl, rfl⟩ := Prod.mk.inj heq
      exact ⟨l', hl'⟩
    · obtain ⟨m, hm⟩ := hwf.ends tag' name'
      exact ⟨m, (hiff heq).mpr hm⟩
  · intro tag1 name1 m1 tag2 name2 m2 a hm1 hm2 ha1 ha2
    by_contra hne
    by_cases heq1 : (tag1, name1) = (tag, name)
    · rw [heq1] at hne
      obtain ⟨rfl, rfl⟩ := Prod.mk.inj heq1
      rw [hm1.unique hl'] at ha1
      exact hwf.not_mem hl hmem hne ((hiff hne).mp hm2) ha2 ha1
    · by_cases heq2 : (tag2, name2) = (tag, name)
      · obtain ⟨rfl, rfl⟩ := Prod.mk.inj heq2
        rw [hm2.unique hl'] at ha2
        exact hwf.not_mem hl hmem heq1 ((hiff heq1).mp hm1) ha1 ha2
      · exact hne (hwf.apart ((hiff heq1).mp hm1) ((hiff heq2).mp hm2) ha1 ha2)

/-- The childs of one name in another order. -/
theorem WF.permute (hwf : h.WF) (hl : h.Siblings tag name l) (hl' : h'.Siblings tag name l')
    (hperm : l'.Perm l) (hsame : h.SameBut h' tag name l) : h'.WF := by
  have hsame' : h.SameBut h' tag name l' :=
    ⟨hsame.names, hsame.attrs, fun a ha => hsame.next a fun hmem => ha (hperm.mem_iff.mpr hmem),
      hsame.child⟩
  exact hwf.change hl hl' (fun a ha => Or.inl (hperm.mem_iff.mp ha)) hsame'

/-! ## Childs are added -/

/-- Tags as `xml_tag_new` leaves them. -/
def fresh (name : ℕ → CStr) (attrs : ℕ → Ledger CStr Variant) : TagHeap :=
  ⟨name, fun _ => none, attrs, fun _ => none⟩

theorem siblings_fresh {names : ℕ → CStr} {attrs : ℕ → Ledger CStr Variant} :
    (fresh names attrs).Siblings tag name l ↔ l = [] := by
  cases l with
  | nil => exact iff_of_true rfl rfl
  | cons a l => exact iff_of_false (fun h => Option.some_ne_none a h.1.symm) (List.cons_ne_nil a l)

theorem not_linked_fresh {names : ℕ → CStr} {attrs : ℕ → Ledger CStr Variant} (a : ℕ) :
    ¬ (fresh names attrs).Linked a := by
  rintro ⟨tag, name, l, hl, ha⟩
  rw [siblings_fresh.mp hl] at ha
  exact List.not_mem_nil ha

theorem wf_fresh (names : ℕ → CStr) (attrs : ℕ → Ledger CStr Variant) :
    (fresh names attrs).WF where
  ends := fun _ _ => ⟨[], siblings_fresh.mpr rfl⟩
  apart := fun {tag name l _ _ _ a} hl _ ha _ =>
    absurd ⟨tag, name, l, hl, ha⟩ (not_linked_fresh a)

/-- A child is registered as the first of its name. -/
theorem getChild_put {ht : Ledger CStr ℕ}
    (hht : ∀ name', ht.get? name' = h.xmlTagGetChild tag name') (next : ℕ → Option ℕ) (a tag' : ℕ)
    (name' : CStr) :
    (TagHeap.mk h.name next h.attrs
        (Function.update h.childs tag (some (ht.put name a)))).xmlTagGetChild tag' name' =
      if (tag', name') = (tag, name) then some a else h.xmlTagGetChild tag' name' := by
  by_cases htag : tag' = tag
  · obtain rfl := htag
    rw [← hht name']
    simp [xmlTagGetChild, Ledger.get?_put]
  · simp [xmlTagGetChild, htag]

/-- A child comes second, or it is the first. -/
theorem addChild_spec (hl : h.Siblings tag (h.name child) l) (hnew : child ∉ l)
    (hnext : h.next child = none) :
    (h.xmlTagAddChild tag child).Siblings tag (h.name child) (l.take 1 ++ child :: l.drop 1) ∧
      h.SameBut (h.xmlTagAddChild tag child) tag (h.name child)
        (l.take 1 ++ child :: l.drop 1) := by
  cases hprev : h.xmlTagGetChild tag (h.name child) with
  | none =>
    -- the table, or a new one
    obtain ⟨ht, hget, heq⟩ : ∃ ht : Ledger CStr ℕ,
        (∀ name', ht.get? name' = h.xmlTagGetChild tag name') ∧ h.xmlTagAddChild tag child =
          ⟨h.name, h.next, h.attrs,
            Function.update h.childs tag (some (ht.put (h.name child) child))⟩ := by
      cases hht : h.childs tag with
      | none =>
        refine ⟨Ledger.empty, fun name' => ?_, by simp only [xmlTagAddChild, hht]⟩
        rw [xmlTagGetChild, hht, Ledger.get?_empty, Option.bind_none]
      | some ht =>
        rw [xmlTagGetChild, hht, Option.bind_some] at hprev
        refine ⟨ht, fun name' => ?_, by simp only [xmlTagAddChild, hht, hprev]⟩
        rw [xmlTagGetChild, hht, Option.bind_some]
    rw [Siblings, hprev] at hl
    rw [hl.eq_nil, heq]
    refine ⟨?_, rfl, rfl, fun _ _ => rfl, fun tag' name' hne => ?_⟩
    · rw [Siblings, getChild_put hget, if_pos rfl]
      exact ⟨rfl, hnext⟩
    · rw [getChild_put hget, if_neg hne]
  | some prev =>
    have hadd : h.xmlTagAddChild tag child =
        { h with
          next := Function.update (Function.update h.next child (h.next prev)) prev
            (some child) } := by
      obtain ⟨ht, hht, hget⟩ := Option.bind_eq_some_iff.mp hprev
      simp only [xmlTagAddChild, hht, hget]
    have hnd := hl.nodup
    rw [Siblings, hprev] at hl
    cases l with
    | nil => exact absurd hl (Option.some_ne_none prev)
    | cons a l =>
      obtain rfl := Option.some.inj hl.1
      have hne : child ≠ prev := List.ne_of_not_mem_cons hnew
      have hchild : child ∉ l := List.not_mem_of_not_mem_cons hnew
      have hlast : prev ∉ l := (List.nodup_cons.mp hnd).1
      rw [hadd]
      refine ⟨⟨hprev, Function.update_self prev _ _, ?_⟩, rfl, rfl, fun b hb => ?_,
        fun _ _ _ => rfl⟩
      · simp only [Function.update_of_ne hne, Function.update_self, List.drop_succ_cons,
          List.drop_zero]
        exact (Seg.update_iff hlast _).mpr ((Seg.update_iff hchild _).mpr hl.2)
      · have hbp : b ≠ prev := fun heq => hb (by simp [heq])
        have hbc : b ≠ child := fun heq => hb (by simp [heq])
        exact (Function.update_of_ne hbp _ _).trans (Function.update_of_ne hbc _ _)

/-- A child that is in no list is added. -/
theorem WF.addChild (hwf : h.WF) (hnew : ¬ h.Linked child) (hnext : h.next child = none) (tag : ℕ) :
    (h.xmlTagAddChild tag child).WF ∧
      ∀ a, (h.xmlTagAddChild tag child).Linked a → a = child ∨ h.Linked a := by
  obtain ⟨l, hl⟩ := hwf.ends tag (h.name child)
  have hnotin : child ∉ l := fun hmem => hnew ⟨tag, h.name child, l, hl, hmem⟩
  obtain ⟨hl', hsame⟩ := addChild_spec hl hnotin hnext
  have hmem : ∀ a ∈ l.take 1 ++ child :: l.drop 1, a = child ∨ a ∈ l := by
    intro a ha
    rcases List.mem_append.mp ha with ha | ha
    · exact Or.inr (List.mem_of_mem_take ha)
    · exact (List.mem_cons.mp ha).imp_right List.mem_of_mem_drop
  have hmem' : ∀ a ∈ l.take 1 ++ child :: l.drop 1, a ∈ l ∨ ¬ h.Linked a := by
    intro a ha
    rcases hmem a ha with rfl | hal
    · exact Or.inr hnew
    · exact Or.inl hal
  refine ⟨hwf.change hl hl' hmem' hsame, ?_⟩
  rintro a ⟨tag', name', m, hm, ha⟩
  by_cases heq : (tag', name') = (tag, h.name child)
  · obtain ⟨rfl, rfl⟩ := Prod.mk.inj heq
    rw [hm.unique hl'] at ha
    exact (hmem a ha).imp_right fun hal => ⟨tag', h.name child, l, hl, hal⟩
  · exact Or.inr ⟨tag', name', m, (hsame.siblings_iff hwf hl hmem' heq).mp hm, ha⟩

/-! ## The sort

The head of the list may be another tag after it, and the table of the parent is set to it.
-/

/-- The sort of the childs of one name. -/
theorem sortWithData_spec {cmp : ℕ → ℕ → Int} {κ : Type} [LinearOrder κ] {key : ℕ → κ}
    (hcmp : ∀ a b, cmp a b ≤ 0 ↔ key a ≤ key b) (hl : h.Siblings tag name l) :
    ∃ h' l', (∀ fuel, l.length + 1 < fuel → h.xmlTagSortWithData fuel tag name cmp = some h') ∧
      h'.Siblings tag name l' ∧ StableSort key l l' ∧ h.SameBut h' tag name l := by
  cases hold : h.xmlTagGetChild tag name with
  | none =>
    have hnil : l = [] := by
      rw [Siblings, hold] at hl
      exact hl.eq_nil
    refine ⟨h, l, fun fuel _ => ?_, hl, StableSort.short (by simp [hnil]), rfl, rfl, fun _ _ => rfl,
      fun _ _ _ => rfl⟩
    rw [xmlTagSortWithData, hold]
  | some old =>
    obtain ⟨ht, hht, -⟩ := Option.bind_eq_some_iff.mp hold
    rw [Siblings, hold] at hl
    obtain ⟨next', p', l', hrun, hseg, hsort, hframe⟩ := sortReal_spec hcmp l hl
    -- there is a first tag after the sort as well
    obtain ⟨xt, rfl⟩ : ∃ xt, p' = some xt := by
      cases l' with
      | nil =>
        rw [← hsort.perm.nil_eq] at hl
        exact absurd hl (Option.some_ne_none old)
      | cons xt l' => exact ⟨xt, hseg.1⟩
    by_cases hxt : old = xt
    · obtain rfl := hxt
      refine ⟨{ h with next := next' }, l', fun fuel hfuel => ?_, ?_, hsort, rfl, rfl, hframe,
        fun _ _ _ => rfl⟩
      · simp only [xmlTagSortWithData, hold, hrun fuel hfuel, Option.map_some]
        rw [if_neg fun hne => hne rfl]
      · have hchild : TagHeap.xmlTagGetChild { h with next := next' } tag name = some old := hold
        rw [Siblings, hchild]
        exact hseg
    · have hget : ∀ name', ht.get? name' = h.xmlTagGetChild tag name' := fun name' => by
        rw [xmlTagGetChild, hht, Option.bind_some]
      refine ⟨⟨h.name, next', h.attrs, Function.update h.childs tag (some (ht.put name xt))⟩, l',
        fun fuel hfuel => ?_, ?_, hsort, rfl, rfl, hframe, fun tag' name' hne => ?_⟩
      · simp only [xmlTagSortWithData, hold, hrun fuel hfuel, Option.map_some, hht]
        rw [if_pos fun heq => hxt (Option.some.inj heq)]
      · rw [Siblings, getChild_put hget, if_pos rfl]
        exact hseg
      · rw [getChild_put hget, if_neg hne]

/-- **The childs of one name are sorted by an attribute.** -/
theorem xmlTagSortByAttr_spec (hwf : h.WF) (tag : ℕ) (name attr : CStr) :
    ∃ h' l l', h.Siblings tag name l ∧ h'.Siblings tag name l' ∧
      (∀ fuel, l.length + 1 < fuel → h.xmlTagSortByAttr fuel tag name attr = some h') ∧
      h.SortedByAttr attr l l' ∧ h'.xmlTagGetChild tag name = l'.head? ∧
      h.SameBut h' tag name l ∧
      (∀ tag' name' m, (tag', name') ≠ (tag, name) → h.Siblings tag' name' m →
        h'.Siblings tag' name' m) ∧ h'.WF := by
  obtain ⟨l, hl⟩ := hwf.ends tag name
  obtain ⟨h', l', hrun, hl', hsort, hsame⟩ := sortWithData_spec (attrCmp_nonpos h attr) hl
  exact ⟨h', l, l', hl, hl', hrun, sortedByAttr hsort, hl'.head?, hsame,
    fun tag' name' m hne => (hsame.siblings_iff hwf hl (fun a ha => Or.inl ha) hne).mpr,
    hwf.permute hl hl' hsort.perm hsame⟩

/-- Units: 1 has the name `b`, 2 has none, 3 has the name `a`. -/
def unitAttrs : ℕ → Ledger CStr Variant
  | 1 => Ledger.empty.put (literal "name") (.string (some (literal "b")))
  | 3 => Ledger.empty.put (literal "name") (.string (some (literal "a")))
  | _ => Ledger.empty

/-- The units in an answer, which is the tag 0. -/
def unitTags : TagHeap :=
  (((fresh (fun _ => literal "unit") unitAttrs).xmlTagAddChild 0 1).xmlTagAddChild 0
    2).xmlTagAddChild 0 3

theorem unitTags_wf : unitTags.WF := by
  have hwf0 := wf_fresh (fun _ => literal "unit") unitAttrs
  obtain ⟨hwf1, hlinked1⟩ := hwf0.addChild (not_linked_fresh 1) rfl 0
  have hnew2 := fun hlinked => (hlinked1 2 hlinked).elim (by decide) (not_linked_fresh 2)
  obtain ⟨hwf2, hlinked2⟩ := hwf1.addChild hnew2 rfl 0
  have hnew3 := fun hlinked => (hlinked2 3 hlinked).elim (by decide) fun hlinked =>
    (hlinked1 3 hlinked).elim (by decide) (not_linked_fresh 3)
  exact (hwf2.addChild hnew3 rfl 0).1

theorem unitTags_sorted : unitTags.WF ∧ unitTags.Siblings 0 (literal "unit") [1, 3, 2] ∧
    ∃ h', (∀ fuel, 4 < fuel →
        unitTags.xmlTagSortByAttr fuel 0 (literal "unit") (literal "name") = some h') ∧
      h'.Siblings 0 (literal "unit") [2, 3, 1] := by
  have hl : unitTags.Siblings 0 (literal "unit") [1, 3, 2] := ⟨rfl, rfl, rfl, rfl⟩
  refine ⟨unitTags_wf, hl, ?_⟩
  obtain ⟨h', l, l', hl1, hl', hrun, -⟩ :=
    xmlTagSortByAttr_spec unitTags_wf 0 (literal "unit") (literal "name")
  obtain rfl := hl.unique hl1
  refine ⟨h', hrun, ?_⟩
  obtain rfl := Option.some.inj (hrun 5 (by decide))
  exact ⟨rfl, rfl, rfl, rfl⟩

/-! ## Whatever is done to the tags

Every heap that the functions can make is of that kind, so nothing has to be assumed of the one that
is sorted.
-/

/-- The tags of `r` come behind `tag` one after the other, the last one first. -/
theorem reorderLoop_spec {tag : ℕ} : ∀ (r : List ℕ) {next : ℕ → Option ℕ} {xt : Option ℕ}
    {b : List ℕ}, Seg next (next tag) b none → Seg next xt r none → (tag :: (r ++ b)).Nodup →
    ∃ next', (∀ fuel, r.length < fuel → xmlTagReorderLoop tag fuel next xt = some next') ∧
      Seg next' (next' tag) (r.reverse ++ b) none ∧
      ∀ c, c ∉ tag :: (r ++ b) → next' c = next c
  | [], next, xt, b, hb, hr, _ => by
    refine ⟨next, fun fuel hfuel => ?_, hb, fun _ _ => rfl⟩
    obtain ⟨fuel, rfl⟩ := Nat.exists_eq_add_one_of_ne_zero (Nat.ne_zero_of_lt hfuel)
    rw [seg_nil.mp hr, xmlTagReorderLoop]
  | x :: r, next, xt, b, hb, hr, hnd => by
    have hperm : (tag :: (x :: r ++ b)).Perm (tag :: (r ++ x :: b)) :=
      List.perm_middle.symm.cons tag
    obtain ⟨htag, hrb⟩ := List.nodup_cons.mp hnd
    obtain ⟨hx, -⟩ := List.nodup_cons.mp hrb
    have hxt : x ≠ tag := fun heq => htag (by simp [heq])
    -- the links of the other tags are not set
    have hfar : ∀ c, c ≠ x → c ≠ tag →
        Function.update (Function.update next x (next tag)) tag (some x) c = next c := by
      intro c hcx hct
      rw [Function.update_of_ne hct, Function.update_of_ne hcx]
    have hfar' : ∀ c ∈ r ++ b,
        Function.update (Function.update next x (next tag)) tag (some x) c = next c := fun c hc =>
      hfar c (ne_of_mem_of_not_mem hc hx) (ne_of_mem_of_not_mem (List.mem_cons_of_mem x hc) htag)
    have hb' : Seg (Function.update (Function.update next x (next tag)) tag (some x))
        (Function.update (Function.update next x (next tag)) tag (some x) tag) (x :: b) none := by
      rw [Function.update_self, seg_cons, Function.update_of_ne hxt, Function.update_self]
      exact ⟨rfl, (Seg.congr fun c hc => hfar' c (List.mem_append_right r hc)).mpr hb⟩
    have hr' := (Seg.congr fun c hc => hfar' c (List.mem_append_left b hc)).mpr hr.2
    obtain ⟨next', hrun, hseg, hframe⟩ := reorderLoop_spec r hb' hr' (hperm.nodup_iff.mp hnd)
    refine ⟨next', fun fuel hfuel => ?_, ?_, fun c hc => ?_⟩
    · obtain ⟨fuel, rfl⟩ := Nat.exists_eq_add_one_of_ne_zero (Nat.ne_zero_of_lt hfuel)
      rw [List.length_cons] at hfuel
      rw [hr.1, xmlTagReorderLoop]
      exact hrun fuel (by omega)
    · rw [List.reverse_cons, List.append_assoc]
      exact hseg
    · rw [hframe c fun hmem => hc (hperm.mem_iff.mpr hmem)]
      apply hfar
      · exact fun heq => hc (by simp [heq])
      · exact fun heq => hc (by simp [heq])

theorem SameBut.refl (h : TagHeap) (tag : ℕ) (name : CStr) (l : List ℕ) :
    h.SameBut h tag name l := ⟨rfl, rfl, fun _ _ => rfl, fun _ _ _ => rfl⟩

/-- The childs behind the first one are turned round. -/
theorem xmlTagReorder_spec : ∀ {l : List ℕ}, h.Siblings tag name l →
    ∃ h', (∀ fuel, l.length < fuel →
        h.xmlTagReorder fuel (h.xmlTagGetChild tag name) = some h') ∧
      h'.Siblings tag name (l.take 1 ++ (l.drop 1).reverse) ∧ h.SameBut h' tag name l
  | [], hl => by
    refine ⟨h, fun fuel _ => ?_, hl, SameBut.refl h tag name []⟩
    rw [seg_nil.mp hl, xmlTagReorder]
  | [t], hl => by
    refine ⟨h, fun fuel _ => ?_, hl, SameBut.refl h tag name [t]⟩
    simp only [xmlTagReorder, hl.1, seg_nil.mp hl.2]
  | [t, a], hl => by
    refine ⟨h, fun fuel _ => ?_, hl, SameBut.refl h tag name [t, a]⟩
    simp only [xmlTagReorder, hl.1, hl.2.1, seg_nil.mp hl.2.2]
  | t :: a :: x :: r, hl => by
    have hnd := hl.nodup
    have hcut := Seg.cut (l := [t]) hl
    obtain ⟨⟨-, hfirst⟩, hrest⟩ := hcut
    rw [hl.2.2.1] at hrest
    have hperm : (t :: (x :: r ++ [a])).Perm (t :: a :: x :: r) :=
      (List.perm_append_singleton a (x :: r)).cons t
    obtain ⟨next', hrun, hseg, hframe⟩ :=
      reorderLoop_spec (x :: r) hfirst hrest (hperm.nodup_iff.mpr hnd)
    refine ⟨{ h with next := next' }, fun fuel hfuel => ?_, ⟨hl.1, ?_⟩, rfl, rfl, fun c hc => ?_,
      fun _ _ _ => rfl⟩
    · simp only [List.length_cons] at hfuel hrun
      simp only [xmlTagReorder, hl.1, hl.2.1, hl.2.2.1]
      rw [hrun fuel (by omega), Option.map_some]
    · rw [List.drop_succ_cons, List.drop_zero, List.reverse_cons]
      exact hseg
    · rw [← hperm.mem_iff] at hc
      have hca : c ≠ a := fun heq => hc (by simp [heq])
      exact (hframe c hc).trans (Function.update_of_ne hca none h.next)

/-- With enough fuel that is the result. -/
def Gives (run : ℕ → Option TagHeap) (h : TagHeap) : Prop :=
  ∃ n, ∀ fuel, n < fuel → run fuel = some h

theorem Gives.unique {run : ℕ → Option TagHeap} (hrun : Gives run h) (hrun' : Gives run h') :
    h' = h := by
  obtain ⟨n, hn⟩ := hrun
  obtain ⟨n', hn'⟩ := hrun'
  have hn := hn (n + n' + 1) (by omega)
  rw [hn' (n + n' + 1) (by omega)] at hn
  exact Option.some.inj hn

/-- Tags that the functions have made of new ones. -/
inductive Reach : TagHeap → Prop where
  /-- `xml_tag_new` -/
  | fresh (names : ℕ → CStr) (attrs : ℕ → Ledger CStr Variant) : Reach (fresh names attrs)
  /-- `xml_tag_add_child` of a tag that is no child -/
  | addChild {h : TagHeap} {child : ℕ} (tag : ℕ) : Reach h → ¬ h.Linked child →
    h.next child = none → Reach (h.xmlTagAddChild tag child)
  /-- `xml_tag_set_attr` -/
  | setAttr {h : TagHeap} (tag : ℕ) (optName : CStr) (var : Variant) : Reach h →
    Reach { h with attrs := Function.update h.attrs tag ((h.attrs tag).put optName var) }
  /-- `xml_tag_reorder` of childs -/
  | reorder {h h' : TagHeap} (tag : ℕ) (name : CStr) : Reach h →
    Gives (fun fuel => h.xmlTagReorder fuel (h.xmlTagGetChild tag name)) h' → Reach h'
  /-- `xml_tag_sort_by_attr` -/
  | sortByAttr {h h' : TagHeap} (tag : ℕ) (name attr : CStr) : Reach h →
    Gives (fun fuel => h.xmlTagSortByAttr fuel tag name attr) h' → Reach h'

/-- **Whatever is done to tags, lists of childs end, and a tag stands in one of them.** -/
theorem Reach.wf (hreach : h.Reach) : h.WF := by
  induction hreach with
  | fresh names attrs => exact wf_fresh names attrs
  | addChild tag _ hnew hnext ih => exact (ih.addChild hnew hnext tag).1
  | setAttr tag optName var _ ih => exact ⟨ih.ends, ih.apart⟩
  | @reorder h h' tag name _ hrun ih =>
    obtain ⟨l, hl⟩ := ih.ends tag name
    obtain ⟨h'', hrun'', hl', hsame⟩ := xmlTagReorder_spec hl
    obtain rfl := Gives.unique hrun ⟨l.length, hrun''⟩
    refine ih.permute hl hl' ?_ hsame
    calc
      (l.take 1 ++ (l.drop 1).reverse).Perm (l.take 1 ++ l.drop 1) :=
        (List.reverse_perm (l.drop 1)).append_left (l.take 1)
      _ = l := List.take_append_drop 1 l
  | @sortByAttr h h' tag name attr _ hrun ih =>
    obtain ⟨l, hl⟩ := ih.ends tag name
    obtain ⟨h'', l', hrun'', hl', hsort, hsame⟩ := sortWithData_spec (attrCmp_nonpos h attr) hl
    obtain rfl := Gives.unique hrun ⟨l.length + 1, hrun''⟩
    exact ih.permute hl hl' hsort.perm hsame

end TagHeap

end Mbb
