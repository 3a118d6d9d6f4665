import Mbb.Map
import Mbb.SlicerChange

/-!
# The queues of a map

The entries of a queue are in order and do not overlap (`Ordered`), so each second key
has one owner at most (`ownerAt`). `map_data_add` gives the keys of the new entry to
its owner or finds an entry that overlaps it; joining entries of one owner is
invisible.

What the handlers of the map know is a relation `R` between their state and a multiset
of nodes with data: `Tracks` says that they follow each link that comes and goes.
-/

namespace Mbb

variable {Q α ν : Type} [LinearOrder Q] [Zero Q] [DecidableEq α]
  {dom : Q → Prop} {ok : Span Q → Prop} {ops : SliceOps Q} {h : MapHandlers ν α}

/-! ## Owners

A queue as a function from second keys to owners. This is all that a lookup sees of it.
-/

/-- The owner of a key. -/
def ownerAt (es : List (MapEntry Q α)) (p : Q) : Option α :=
  (es.find? fun e => decide (e.slice.Mem p)).map MapEntry.data

omit [DecidableEq α] in
@[simp] theorem ownerAt_nil (p : Q) : ownerAt ([] : List (MapEntry Q α)) p = none := rfl

omit [DecidableEq α] in
theorem ownerAt_cons (e : MapEntry Q α) (es : List (MapEntry Q α)) (p : Q) :
    ownerAt (e :: es) p = if e.slice.Mem p then some e.data else ownerAt es p := by
  by_cases hm : e.slice.Mem p <;> simp [ownerAt, hm]

omit [DecidableEq α] in
theorem ownerAt_append (A B : List (MapEntry Q α)) (p : Q) :
    ownerAt (A ++ B) p = (ownerAt A p).or (ownerAt B p) := by
  simp only [ownerAt, List.find?_append]
  cases A.find? fun e => decide (e.slice.Mem p) <;> simp

omit [DecidableEq α] in
theorem ownerAt_eq_none {es : List (MapEntry Q α)} {p : Q} :
    ownerAt es p = none ↔ ∀ e ∈ es, ¬ e.slice.Mem p := by
  simp [ownerAt]

omit [DecidableEq α] in
theorem ownerAt_mem {es : List (MapEntry Q α)} {p : Q} {a : α} (ha : ownerAt es p = some a) :
    ∃ e ∈ es, e.slice.Mem p ∧ e.data = a := by
  obtain ⟨e, he, rfl⟩ := Option.map_eq_some_iff.mp ha
  exact ⟨e, List.mem_of_find?_eq_some he, by simpa using List.find?_some he, rfl⟩

/-! ## Order

Entries in order, one before the other, so a key is in one of them at most.
-/

/-- The slices of the entries are `ok`, in order and disjoint. -/
structure Ordered (ok : Span Q → Prop) (es : List (MapEntry Q α)) : Prop where
  /-- each slice is admissible -/
  ok : ∀ e ∈ es, ok e.slice
  /-- each slice ends before the next begins -/
  before : es.Pairwise fun a b => a.slice.Before b.slice

/-- What the second keys must satisfy for joining. -/
structure SliceOps.Joins (o : SliceOps Q) (dom : Q → Prop) (ok : Span Q → Prop) : Prop where
  /-- the comparison is the order -/
  lawful : o.Lawful dom
  /-- admissible slices have their bounds in order -/
  proper : ∀ {s : Span Q}, ok s → s.Proper dom
  /-- slices one after the other can be joined -/
  join : ∀ {a b : Span Q}, ok a → ok b → a.Before b → ok ⟨a.lo, b.hi⟩

/-- And for cutting. -/
structure SliceOps.Cuts (o : SliceOps Q) (dom : Q → Prop) (ok : Span Q → Prop) : Prop extends
    o.Joins dom ok where
  /-- neighbours of the bounds are right where a slice is cut -/
  fits : ∀ {a r : Span Q}, ok a → ok r → o.Fits dom a r
  /-- the parts outside of a cut are admissible -/
  parts : ∀ {a r y : Span Q} {x z : Option (Span Q)}, ok a → ok r →
    sliceCross o a r = some (x, y, z) → (∀ s ∈ x, ok s) ∧ ∀ s ∈ z, ok s

omit [DecidableEq α] in
theorem Ordered.nil : Ordered ok ([] : List (MapEntry Q α)) := ⟨by simp, List.Pairwise.nil⟩

omit [DecidableEq α] in
/-- In an ordered queue the owner of a key is that of any entry it is in. -/
theorem Ordered.ownerAt_of_mem {es : List (MapEntry Q α)} (ho : Ordered ok es) {e : MapEntry Q α}
    {p : Q} (he : e ∈ es) (hm : e.slice.Mem p) : ownerAt es p = some e.data := by
  rcases hf : es.find? fun e => decide (e.slice.Mem p) with _ | e'
  · exact absurd hm (by simpa using List.find?_eq_none.mp hf e he)
  · have hm' : e'.slice.Mem p := by simpa using List.find?_some hf
    have he' := List.mem_of_find?_eq_some hf
    rw [ownerAt, hf, eq_of_mem_of_before (f := MapEntry.slice) ho.before he he' hm hm']
    rfl

omit [DecidableEq α] in
theorem Ordered.append {A B : List (MapEntry Q α)} :
    Ordered ok (A ++ B) ↔ Ordered ok A ∧ Ordered ok B ∧
      ∀ a ∈ A, ∀ b ∈ B, a.slice.Before b.slice := by
  constructor
  · rintro ⟨h1, h2⟩
    obtain ⟨hA, hB, hAB⟩ := List.pairwise_append.mp h2
    exact ⟨⟨fun e he => h1 e (List.mem_append_left _ he), hA⟩,
      ⟨fun e he => h1 e (List.mem_append_right _ he), hB⟩, hAB⟩
  · rintro ⟨hA, hB, hAB⟩
    exact ⟨fun e he => (List.mem_append.mp he).elim (hA.ok e) (hB.ok e),
      List.pairwise_append.mpr ⟨hA.before, hB.before, hAB⟩⟩

omit [DecidableEq α] in
theorem Ordered.cons {e : MapEntry Q α} {B : List (MapEntry Q α)} :
    Ordered ok (e :: B) ↔ ok e.slice ∧ Ordered ok B ∧ ∀ b ∈ B, e.slice.Before b.slice := by
  constructor
  · rintro ⟨h1, h2⟩
    obtain ⟨hB, hp⟩ := List.pairwise_cons.mp h2
    exact ⟨h1 e List.mem_cons_self, ⟨fun b hb => h1 b (List.mem_cons_of_mem _ hb), hp⟩, hB⟩
  · rintro ⟨h1, h2, h3⟩
    refine ⟨fun b hb => ?_, List.pairwise_cons.mpr ⟨h3, h2.before⟩⟩
    rcases List.mem_cons.mp hb with rfl | hb
    · exact h1
    · exact h2.ok b hb

omit [DecidableEq α] in
theorem Ordered.sublist {A B : List (MapEntry Q α)} (hB : Ordered ok B) (hs : A.Sublist B) :
    Ordered ok A := ⟨fun e he => hB.ok e (hs.subset he), hB.before.sublist hs⟩

/-! ## Lookup -/

omit [DecidableEq α] in
/-- The loop of `map_find` finds the owner. -/
theorem mapDataFind_eq (hj : ops.Joins dom ok) {p : Q} (hp : dom p) (es : List (MapEntry Q α)) :
    Ordered ok es → mapDataFind ops p es = ownerAt es p := by
  induction es with
  | nil => exact fun _ => rfl
  | cons e es ih =>
    intro ho
    obtain ⟨hok, hes, hlt⟩ := Ordered.cons.mp ho
    rw [ownerAt_cons, mapDataFind]
    rcases hj.lawful.sliceCmpPoint_cases (hj.proper hok) hp with ⟨hc, hm⟩ | ⟨hc, h0, hlo⟩ |
      ⟨hc, h0, hhi⟩
    · rw [if_pos hc, if_pos hm]
    · -- the key lies before `e`, hence before the rest
      have hn : ∀ b ∈ e :: es, ¬ b.slice.Mem p := by
        intro b hb hm
        rcases List.mem_cons.mp hb with rfl | hb
        · exact absurd (hm.1.resolve_left h0) (not_le.mpr hlo)
        · obtain ⟨h1, h2, h3⟩ := hlt b hb
          have := hm.1.resolve_left h2
          have := ((hj.proper hok).le.resolve_left h0).resolve_left h1
          order
      rw [hc, if_neg (by decide), if_pos (by decide), if_neg (hn e List.mem_cons_self)]
      exact (ownerAt_eq_none.mpr fun b hb => hn b (List.mem_cons_of_mem _ hb)).symm
    · rw [hc, if_neg (by decide), if_neg (by decide), ih hes, if_neg]
      exact fun hm => absurd (hm.2.resolve_left h0) (not_le.mpr hhi)

/-! ## Joining

Two entries of one owner that touch become one; the owners are the same before and after.
-/

/-- `e` is `cur` joined with the entry `l` right before it and the entry `r` right after
it, as far as these are given. -/
structure Joined (dom : Q → Prop) (l : Option (MapEntry Q α)) (cur : MapEntry Q α)
    (r : Option (MapEntry Q α)) (e : MapEntry Q α) : Prop where
  /-- the owner stays -/
  data : e.data = cur.data
  /-- the begin is that of the first -/
  lo : e.slice.lo = (l.getD cur).slice.lo
  /-- the end is that of the last -/
  hi : e.slice.hi = (r.getD cur).slice.hi
  /-- the first has the same owner and no gap after it -/
  left : ∀ x ∈ l, x.data = cur.data ∧ x.slice.Before cur.slice ∧ Next dom x.slice.hi cur.slice.lo
  /-- neither has the last -/
  right : ∀ x ∈ r, x.data = cur.data ∧ cur.slice.Before x.slice ∧ Next dom cur.slice.hi x.slice.lo

section Joined

variable {l r : Option (MapEntry Q α)} {cur e : MapEntry Q α}

omit [DecidableEq α] in
/-- Two slices without gap between them, as one. -/
theorem mem_join {a b : Span Q} {p : Q} (ha : a.Proper dom) (hb : b.Proper dom) (hp : dom p)
    (hab : a.Before b) (hn : Next dom a.hi b.lo) :
    Span.Mem ⟨a.lo, b.hi⟩ p ↔ a.Mem p ∨ b.Mem p := by
  obtain ⟨h1, h2, h3⟩ := hab
  constructor
  · rintro ⟨hlo, hhi⟩
    rcases hn.2 p hp with hle | hle
    · exact Or.inl ⟨hlo, Or.inr hle⟩
    · exact Or.inr ⟨Or.inr hle, hhi⟩
  · rintro (⟨hlo, hhi⟩ | ⟨hlo, hhi⟩)
    · refine ⟨hlo, ?_⟩
      have := hhi.resolve_left h1
      exact (hb.le.resolve_left h2).imp id fun _ => by order
    · refine ⟨?_, hhi⟩
      have := hlo.resolve_left h2
      rcases ha.le with h0 | h0 | h0
      · exact Or.inl h0
      · exact absurd h0 h1
      · exact Or.inr (by show a.lo ≤ p; order)

omit [DecidableEq α] in
theorem Joined.slice_ok (hj : ops.Joins dom ok) (h : Joined dom l cur r e) (hcur : ok cur.slice)
    (hl : ∀ x ∈ l, ok x.slice) (hr : ∀ x ∈ r, ok x.slice) : ok e.slice := by
  have he : e.slice = ⟨(l.getD cur).slice.lo, (r.getD cur).slice.hi⟩ := by
    rw [← h.lo, ← h.hi]
  rw [he]
  rcases l with _ | x
  · rcases r with _ | y
    · exact hcur
    · exact hj.join hcur (hr y rfl) (h.right y rfl).2.1
  · have hx := hj.join (hl x rfl) hcur (h.left x rfl).2.1
    rcases r with _ | y
    · exact hx
    · have hy : (⟨x.slice.lo, cur.slice.hi⟩ : Span Q).Before y.slice := (h.right y rfl).2.1
      exact hj.join (a := ⟨x.slice.lo, cur.slice.hi⟩) hx (hr y rfl) hy

omit [DecidableEq α] in
/-- The keys of a joined entry. -/
theorem Joined.mem (hj : ops.Joins dom ok) (h : Joined dom l cur r e) (hcur : ok cur.slice)
    (hl : ∀ x ∈ l, ok x.slice) (hr : ∀ x ∈ r, ok x.slice) {p : Q} (hp : dom p) :
    e.slice.Mem p ↔ (∃ x ∈ l, x.slice.Mem p) ∨ cur.slice.Mem p ∨ ∃ x ∈ r, x.slice.Mem p := by
  have he : e.slice = ⟨(l.getD cur).slice.lo, (r.getD cur).slice.hi⟩ := by
    rw [← h.lo, ← h.hi]
  rw [he]
  have hpc := hj.proper hcur
  rcases l with _ | x
  · rcases r with _ | y
    · simp
    · obtain ⟨-, hb, hn⟩ := h.right y rfl
      simpa using mem_join hpc (hj.proper (hr y rfl)) hp hb hn
  · obtain ⟨-, hb, hn⟩ := h.left x rfl
    have hx := mem_join (hj.proper (hl x rfl)) hpc hp hb hn
    rcases r with _ | y
    · simpa using hx
    · obtain ⟨-, hb', hn'⟩ := h.right y rfl
      have hxc := hj.proper (hj.join (hl x rfl) hcur hb)
      have hy := mem_join (a := ⟨x.slice.lo, cur.slice.hi⟩) hxc (hj.proper (hr y rfl)) hp hb' hn'
      simp only [Option.getD_some, Option.mem_some_iff, exists_eq_left']
      rw [← or_assoc, ← hx]
      exact hy

omit [DecidableEq α] in
/-- What is before the new entry and its left neighbour is before both joined. -/
theorem Joined.before_of_left (h : Joined dom l cur r e) {a : Slice Q}
    (hcur : a.Before cur.slice) (hl : ∀ x ∈ l, a.Before x.slice) : a.Before e.slice := by
  have hb : a.Before (l.getD cur).slice := by
    rcases l with _ | x
    · exact hcur
    · exact hl x rfl
  refine ⟨hb.1, ?_, ?_⟩
  · rw [h.lo]
    exact hb.2.1
  · rw [h.lo]
    exact hb.2.2

omit [DecidableEq α] in
/-- What is after the new entry and its right neighbour is after both joined. -/
theorem Joined.before_of_right (h : Joined dom l cur r e) {b : Slice Q}
    (hcur : cur.slice.Before b) (hr : ∀ x ∈ r, x.slice.Before b) : e.slice.Before b := by
  have hb : (r.getD cur).slice.Before b := by
    rcases r with _ | x
    · exact hcur
    · exact hr x rfl
  refine ⟨?_, hb.2.1, ?_⟩
  · rw [h.hi]
    exact hb.1
  · rw [h.hi]
    exact hb.2.2

end Joined

/-- The queue `es'` is `es` with the keys of `cur`, which had no owner, given to its
owner. -/
structure Added (dom : Q → Prop) (cur : MapEntry Q α) (es es' : List (MapEntry Q α)) : Prop where
  /-- nobody had the keys -/
  free : ∀ p, dom p → cur.slice.Mem p → ownerAt es p = none
  /-- now the owner of `cur` has them -/
  owner : ∀ p, dom p → ownerAt es' p = if cur.slice.Mem p then some cur.data else ownerAt es p

omit [DecidableEq α] in
/-- An entry joined with its neighbours, put in their place. -/
theorem Joined.added (hj : ops.Joins dom ok) {l r : Option (MapEntry Q α)} {cur e : MapEntry Q α}
    {A B : List (MapEntry Q α)} (hcur : ok cur.slice) (h : Joined dom l cur r e)
    (ho : Ordered ok (A ++ l.toList ++ (r.toList ++ B)))
    (hA : ∀ a ∈ A ++ l.toList, a.slice.Before cur.slice)
    (hB : ∀ b ∈ r.toList ++ B, cur.slice.Before b.slice) :
    Ordered ok (A ++ e :: B) ∧ Added dom cur (A ++ l.toList ++ (r.toList ++ B)) (A ++ e :: B) := by
  obtain ⟨hAl, hrB, hlr⟩ := Ordered.append.mp ho
  obtain ⟨hoA, hol, hAl'⟩ := Ordered.append.mp hAl
  obtain ⟨hor, hoB, hrB'⟩ := Ordered.append.mp hrB
  have hl : ∀ x ∈ l, ok x.slice := fun x hx => hol.ok x (by simpa using hx)
  have hr : ∀ x ∈ r, ok x.slice := fun x hx => hor.ok x (by simpa using hx)
  have hok := h.slice_ok hj hcur hl hr
  -- the neighbours further out stay before and after
  have hAe : ∀ a ∈ A, a.slice.Before e.slice := fun a ha =>
    h.before_of_left (hA a (by simp [ha])) fun x hx => hAl' a ha x (by simpa using hx)
  have heB : ∀ b ∈ B, e.slice.Before b.slice := fun b hb =>
    h.before_of_right (hB b (by simp [hb])) fun x hx => hrB' x (by simpa using hx) b hb
  have ho' : Ordered ok (A ++ e :: B) :=
    Ordered.append.mpr ⟨hoA, Ordered.cons.mpr ⟨hok, hoB, heB⟩, fun a ha b hb => by
      rcases List.mem_cons.mp hb with rfl | hb
      · exact hAe a ha
      · exact hlr a (by simp [ha]) b (by simp [hb])⟩
  refine ⟨ho', ?_, ?_⟩
  · intro p hp hm
    rw [ownerAt_eq_none]
    intro x hx hmx
    rcases List.mem_append.mp hx with hx | hx
    · exact (hA x hx).not_mem hmx hm
    · exact (hB x hx).not_mem hm hmx
  · intro p hp
    have hmem := h.mem hj hcur hl hr hp
    by_cases hme : e.slice.Mem p
    · rw [ho'.ownerAt_of_mem (by simp) hme]
      by_cases hmc : cur.slice.Mem p
      · rw [if_pos hmc, h.data]
      · rw [if_neg hmc, h.data]
        rcases hmem.mp hme with ⟨x, hx, hxm⟩ | hx | ⟨x, hx, hxm⟩
        · rw [ho.ownerAt_of_mem (e := x) (by simp [Option.mem_def.mp hx]) hxm, (h.left x hx).1]
        · exact absurd hx hmc
        · rw [ho.ownerAt_of_mem (e := x) (by simp [Option.mem_def.mp hx]) hxm, (h.right x hx).1]
    · have hnl : ownerAt l.toList p = none := ownerAt_eq_none.mpr fun x hx hxm =>
        hme (hmem.mpr (Or.inl ⟨x, by simpa using hx, hxm⟩))
      have hnr : ownerAt r.toList p = none := ownerAt_eq_none.mpr fun x hx hxm =>
        hme (hmem.mpr (Or.inr (Or.inr ⟨x, by simpa using hx, hxm⟩)))
      rw [if_neg fun hc => hme (hmem.mpr (Or.inr (Or.inl hc)))]
      simp [ownerAt_append, ownerAt_cons, hme, hnl, hnr]

/-! ## The loop of `map_data_add`

The scan goes past the entries before the new one, and ends at the first that is not.
-/

omit [LinearOrder Q] [DecidableEq α] in
/-- The loop passes the entries before the new one. It stops at an entry that compares as equal,
or at one that compares as greater, or at the end. -/
theorem mapDataScan_cases [DecidableEq Q] (ops : SliceOps Q) (cur : Slice Q)
    (ls : List (Link (MapEntry Q α))) :
    ∃ A B, ls = A ++ B ∧ (∀ a ∈ A, 0 < sliceCmp ops cur a.val.slice) ∧
      ((∃ b B', B = b :: B' ∧ sliceCmp ops cur b.val.slice = 0 ∧
          mapDataScan ops cur ls = .cross b.val) ∨
        (∀ b ∈ B.head?, sliceCmp ops cur b.val.slice < 0) ∧
          mapDataScan ops cur ls = match B with
            | [] => .tail
            | b :: _ => .before b.id) := by
  induction ls with
  | nil => exact ⟨[], [], rfl, by simp, Or.inr ⟨by simp, rfl⟩⟩
  | cons l ls ih =>
    rw [mapDataScan]
    by_cases hpos : 0 < sliceCmp ops cur l.val.slice
    · obtain ⟨A, B, rfl, hA, hB⟩ := ih
      rw [if_pos hpos]
      exact ⟨l :: A, B, rfl, List.forall_mem_cons.mpr ⟨hpos, hA⟩, hB⟩
    · rw [if_neg hpos]
      refine ⟨[], l :: ls, rfl, by simp, ?_⟩
      by_cases hneg : sliceCmp ops cur l.val.slice < 0
      · rw [if_pos hneg]
        exact Or.inr ⟨by simpa using hneg, rfl⟩
      · rw [if_neg hneg]
        exact Or.inl ⟨l, ls, rfl, by omega, rfl⟩

omit [DecidableEq α] in
/-- In an ordered queue it stops between the entries before and the entries after the new one. -/
theorem before_of_scan (hj : ops.Joins dom ok) {cur : Slice Q} (hcur : ok cur)
    {A B : List (Link (MapEntry Q α))} (ho : Ordered ok ((A ++ B).map Link.val))
    (hA : ∀ a ∈ A, 0 < sliceCmp ops cur a.val.slice)
    (hB : ∀ b ∈ B.head?, sliceCmp ops cur b.val.slice < 0) :
    (∀ a ∈ A, a.val.slice.Before cur) ∧ ∀ b ∈ B, cur.Before b.val.slice := by
  rw [List.map_append] at ho
  obtain ⟨hoA, hoB, -⟩ := Ordered.append.mp ho
  have hpc := hj.proper hcur
  refine ⟨fun a ha => ?_, ?_⟩
  · exact (hj.lawful.sliceCmp_pos hpc (hj.proper (hoA.ok _ (List.mem_map_of_mem ha)))).mp (hA a ha)
  · cases B with
    | nil => simp
    | cons b B =>
      obtain ⟨hok, -, hlt⟩ := Ordered.cons.mp hoB
      have hbef := (hj.lawful.sliceCmp_neg hpc (hj.proper hok)).mp (hB b rfl)
      refine List.forall_mem_cons.mpr ⟨hbef, fun c hc => ?_⟩
      exact hbef.trans (hj.proper hok) (hlt _ (List.mem_map_of_mem hc))

/-! ## What the handlers know

The nodes of a queue as a multiset, with which the state of the handlers keeps step.
-/

/-- The nodes of some links of the queue `id`, with their data. -/
def nodesOf (id : ℕ) (ls : List (Link (MapEntry Q α))) : Multiset (MapNode × α) :=
  ↑(ls.map fun l => ((⟨id, l.id⟩ : MapNode), l.val.data))

omit [LinearOrder Q] [Zero Q] [DecidableEq α] in
theorem nodesOf_append (id : ℕ) (A B : List (Link (MapEntry Q α))) :
    nodesOf id (A ++ B) = nodesOf id A + nodesOf id B := by
  simp [nodesOf]

omit [LinearOrder Q] [Zero Q] [DecidableEq α] in
theorem nodesOf_cons (id : ℕ) (l : Link (MapEntry Q α)) (B : List (Link (MapEntry Q α))) :
    nodesOf id (l :: B) = (⟨id, l.id⟩, l.val.data) ::ₘ nodesOf id B := rfl

/-- The nodes of a queue, with the data of their links. -/
def MapQueue.regs (q : MapQueue Q α) : Multiset (MapNode × α) := nodesOf q.id q.queue.links

/-- The handlers keep `R` up to date. -/
structure MapHandlers.Tracks (h : MapHandlers ν α)
    (R : ν → Multiset (MapNode × α) → Prop) : Prop where
  /-- a new node -/
  add : ∀ {n : ν} {nd : MapNode} {a : α} {M : Multiset (MapNode × α)},
    R n M → R (h.nodeAdd nd a n) ((nd, a) ::ₘ M)
  /-- a node that goes -/
  del : ∀ {n : ν} {nd : MapNode} {a : α} {M : Multiset (MapNode × α)},
    R n ((nd, a) ::ₘ M) → R (h.nodeDel nd a n) M

omit [LinearOrder Q] [Zero Q] [DecidableEq α] in
theorem MapQueue.regs_insert {q : MapQueue Q α} (q' : MapQueue Q α)
    {A B : List (Link (MapEntry Q α))} {l : Link (MapEntry Q α)} (hid : q'.id = q.id)
    (hl : q.queue.links = A ++ B) (hl' : q'.queue.links = A ++ l :: B) :
    q'.regs = (⟨q.id, l.id⟩, l.val.data) ::ₘ q.regs := by
  rw [regs, regs, hl, hl', hid, nodesOf_append, nodesOf_cons, nodesOf_append, Multiset.add_cons]

omit [LinearOrder Q] [Zero Q] [DecidableEq α] in
theorem MapQueue.regs_set {q : MapQueue Q α} (q' : MapQueue Q α)
    {A B : List (Link (MapEntry Q α))} {l : Link (MapEntry Q α)} {e : MapEntry Q α}
    (hid : q'.id = q.id) (hl : q.queue.links = A ++ l :: B)
    (hl' : q'.queue.links = A ++ ⟨l.id, e⟩ :: B)
    (he : e.data = l.val.data) : q'.regs = q.regs := by
  rw [regs, regs, hl, hl', hid, nodesOf_append, nodesOf_cons, nodesOf_append, nodesOf_cons, he]

/-! ## Adding

The ways in which an entry gets into a queue, and what each of them does to owners and nodes.
-/

/-- Where entries of one owner compare as adjacent, there is no gap between them. -/
def Mergeable (ops : SliceOps Q) (dom : Q → Prop) (cur : MapEntry Q α)
    (es : List (MapEntry Q α)) : Prop :=
  ∀ e ∈ es, e.data = cur.data →
    (e.slice.Before cur.slice → ops.cmp cur.slice.lo e.slice.hi = 1 →
      Next dom e.slice.hi cur.slice.lo) ∧
    (cur.slice.Before e.slice → ops.cmp e.slice.lo cur.slice.hi = 1 →
      Next dom cur.slice.hi e.slice.lo)

/-- So it is with the entries next to the new one, which are the only ones it is joined with. -/
def Seamless (ops : SliceOps Q) (dom : Q → Prop) (cur : MapEntry Q α)
    (es : List (MapEntry Q α)) : Prop :=
  ∀ A B, es = A ++ B → (∀ a ∈ A, a.slice.Before cur.slice) → (∀ b ∈ B, cur.slice.Before b.slice) →
    (∀ a ∈ A.getLast?, a.data = cur.data → ops.cmp cur.slice.lo a.slice.hi = 1 →
      Next dom a.slice.hi cur.slice.lo) ∧
    ∀ b ∈ B.head?, b.data = cur.data → ops.cmp b.slice.lo cur.slice.hi = 1 →
      Next dom cur.slice.hi b.slice.lo

omit [DecidableEq α] in
theorem Mergeable.seamless {cur : MapEntry Q α} {es : List (MapEntry Q α)}
    (h : Mergeable ops dom cur es) : Seamless ops dom cur es := by
  rintro A B rfl hA hB
  refine ⟨fun a ha hd => ?_, fun b hb hd => ?_⟩
  · have hmem := List.mem_of_getLast? ha
    exact (h a (List.mem_append_left _ hmem) hd).1 (hA a hmem)
  · have hmem := List.mem_of_mem_head? hb
    exact (h b (List.mem_append_right _ hmem) hd).2 (hB b hmem)

omit [DecidableEq α] in
/-- The entries next to the new one, as links. -/
theorem Seamless.links {q : MapQueue Q α} {cur : MapEntry Q α}
    {A B : List (Link (MapEntry Q α))} (h : Seamless ops dom cur q.queue.vals)
    (hl : q.queue.links = A ++ B) (hA : ∀ x ∈ A, x.val.slice.Before cur.slice)
    (hB : ∀ x ∈ B, cur.slice.Before x.val.slice) :
    (∀ a ∈ A.getLast?, a.val.data = cur.data → ops.cmp cur.slice.lo a.val.slice.hi = 1 →
      Next dom a.val.slice.hi cur.slice.lo) ∧
    ∀ b ∈ B.head?, b.val.data = cur.data → ops.cmp b.val.slice.lo cur.slice.hi = 1 →
      Next dom cur.slice.hi b.val.slice.lo := by
  have hvals : q.queue.vals = A.map Link.val ++ B.map Link.val := by
    rw [Queue.vals, hl, List.map_append]
  obtain ⟨hleft, hright⟩ := h _ _ hvals (List.forall_mem_map.mpr hA) (List.forall_mem_map.mpr hB)
  refine ⟨fun a ha => hleft a.val ?_, fun b hb => hright b.val ?_⟩
  · rw [List.getLast?_map, Option.mem_def.mp ha]
    rfl
  · rw [List.head?_map, Option.mem_def.mp hb]
    rfl

/-- A link may be dropped behind the handlers' back: they do not mind, or it does not
happen because no entry of the owner comes after `cur`. -/
def Droppable (R : ν → Multiset (MapNode × α) → Prop) (cur : MapEntry Q α)
    (es : List (MapEntry Q α)) : Prop :=
  (∀ n x M, R n (x ::ₘ M) → R n M) ∨
    ∀ e ∈ es, e.data = cur.data → ¬ cur.slice.Before e.slice

omit [LinearOrder Q] [Zero Q] in
theorem mapDataSplit_cases (hdup : ∀ k, ops.dup k = k) (a b : MapEntry Q α) :
    mapDataSplit ops a b = none ∨
      a.data = b.data ∧ ops.cmp b.slice.lo a.slice.hi = 1 ∧
        mapDataSplit ops a b = some ⟨⟨a.slice.lo, b.slice.hi⟩, a.data⟩ := by
  rw [mapDataSplit, hdup, hdup]
  by_cases hd : a.data = b.data
  · rw [if_neg (not_not.mpr hd)]
    by_cases hc : ops.cmp b.slice.lo a.slice.hi = 1
    · rw [if_neg (not_not.mpr hc)]
      exact Or.inr ⟨hd, hc, rfl⟩
    · rw [if_pos hc]
      exact Or.inl rfl
  · rw [if_pos hd]
    exact Or.inl rfl

/-- What an insertion between `A` and `B` does: `cur`, joined with its neighbours `l` and `r`
as far as these compare as adjacent, stands between `A'` and `B'`. The handlers know it, but
where both are joined they have not heard that a link is gone. -/
structure Spliced (ops : SliceOps Q) (R : ν → Multiset (MapNode × α) → Prop)
    (M : Multiset (MapNode × α)) (cur : MapEntry Q α) (A B : List (Link (MapEntry Q α)))
    (q q' : MapQueue Q α) (n : ν) : Prop where
  /-- the queue is the same object -/
  id : q'.id = q.id
  /-- the links and what the handlers know -/
  shape : ∃ A' B' l r i, A = A' ++ Option.toList l ∧ B = Option.toList r ++ B' ∧
    q'.queue.links = A' ++ ⟨i, ⟨⟨((l.map Link.val).getD cur).slice.lo,
      ((r.map Link.val).getD cur).slice.hi⟩, cur.data⟩⟩ :: B' ∧
    (∀ x ∈ l, x.val.data = cur.data ∧ ops.cmp cur.slice.lo x.val.slice.hi = 1) ∧
    (∀ x ∈ r, x.val.data = cur.data ∧ ops.cmp x.val.slice.lo cur.slice.hi = 1) ∧
    (R n (q'.regs + M) ∨ ∃ a b, l = some a ∧ r = some b ∧
      R n ((⟨q.id, b.id⟩, b.val.data) ::ₘ (q'.regs + M)))

/-- The shape of a queue after an insertion: `cur`, joined with its neighbours `l` and `r`
as far as these are given, stands between `A` and `B`. -/
structure Inserted (dom : Q → Prop) (cur : MapEntry Q α) (A B : List (Link (MapEntry Q α)))
    (q q' : MapQueue Q α) : Prop where
  /-- the queue is the same object -/
  id : q'.id = q.id
  /-- the links -/
  shape : ∃ A' B' l r i e, A = A' ++ Option.toList l ∧ B = Option.toList r ++ B' ∧
    q'.queue.links = A' ++ ⟨i, e⟩ :: B' ∧ Joined dom (l.map Link.val) cur (r.map Link.val) e

section Insert

variable {R : ν → Multiset (MapNode × α) → Prop} {q : MapQueue Q α} {cur : MapEntry Q α}
  {s : MapState Q α ν} {M : Multiset (MapNode × α)} {A B : List (Link (MapEntry Q α))}
  {a b : Link (MapEntry Q α)}

omit [LinearOrder Q] [Zero Q] [DecidableEq α] in
/-- A new link between `A` and `B`. -/
theorem spliced_new (ops : SliceOps Q) (hR : h.Tracks R) (q' : MapQueue Q α) (hid : q'.id = q.id)
    (hl : q.queue.links = A ++ B) (hl' : q'.queue.links = A ++ ⟨q.queue.fresh, cur⟩ :: B)
    (hreg : R s.nodes (q.regs + M)) :
    Spliced ops R M cur A B q q' (h.nodeAdd ⟨q.id, q.queue.fresh⟩ cur.data s.nodes) := by
  refine ⟨hid, A, B, none, none, q.queue.fresh, by simp, by simp, hl', by simp, by simp, ?_⟩
  left
  rw [MapQueue.regs_insert q' hid hl hl', Multiset.cons_add]
  exact hR.add hreg

omit [LinearOrder Q] [Zero Q] in
/-- The end of `map_data_add` at the tail. -/
theorem mapDataAddTail_spec (cur : MapEntry Q α) (hdup : ∀ k, ops.dup k = k) (hR : h.Tracks R)
    (hl : q.queue.links = A ++ [a]) (hreg : R s.nodes (q.regs + M)) :
    ∃ q' n', mapDataAddTail ops h q cur s = (q', { s with nodes := n' }) ∧
      Spliced ops R M cur (A ++ [a]) [] q q' n' := by
  simp only [mapDataAddTail]
  rw [Queue.tail?_append hl]
  simp only
  rw [Queue.get?_mid (B := []) hl]
  simp only [Option.bind_some]
  rcases mapDataSplit_cases hdup a.val cur with hs | ⟨hd, hc, hs⟩
  · rw [hs]
    refine ⟨_, _, rfl, spliced_new ops (q := q) (B := []) hR _ rfl (by simpa using hl) ?_ hreg⟩
    rw [Queue.links_pushTail, hl]
  · rw [hs]
    have hl' := Queue.links_set hl ⟨⟨a.val.slice.lo, cur.slice.hi⟩, a.val.data⟩
    refine ⟨_, s.nodes, rfl, rfl, A, [], some a, none, a.id, rfl, rfl, ?_, ?_, by simp, ?_⟩
    · rw [← hd]
      exact hl'
    · rintro x hx
      obtain rfl : a = x := by simpa using hx
      exact ⟨hd, hc⟩
    · left
      rw [MapQueue.regs_set (q := q) (q.setEntry a.id _) rfl hl hl' rfl]
      exact hreg

omit [LinearOrder Q] [Zero Q] in
/-- `map_data_split_links` drops the second link, if it joins it to the first. -/
theorem mapDataSplitLinks_spec (hdup : ∀ k, ops.dup k = k)
    (hl : q.queue.links = A ++ a :: b :: B) :
    mapDataSplitLinks ops q a.id b.id = q ∨
      ∃ q', mapDataSplitLinks ops q a.id b.id = q' ∧ a.val.data = b.val.data ∧
        ops.cmp b.val.slice.lo a.val.slice.hi = 1 ∧ q'.id = q.id ∧
        q'.queue.links = A ++ ⟨a.id, ⟨⟨a.val.slice.lo, b.val.slice.hi⟩, a.val.data⟩⟩ :: B ∧
        q.regs = (⟨q.id, b.id⟩, b.val.data) ::ₘ q'.regs := by
  have hlb : q.queue.links = (A ++ [a]) ++ b :: B := by simpa using hl
  rw [mapDataSplitLinks, Queue.get?_mid hl, Queue.get?_mid hlb]
  simp only
  rcases mapDataSplit_cases hdup a.val b.val with hs | ⟨hd, hc, hs⟩
  · rw [hs]
    exact Or.inl rfl
  · rw [hs]
    refine Or.inr ⟨_, rfl, hd, hc, rfl, ?_, ?_⟩
    all_goals
      have hl₁ := Queue.links_set hl ⟨⟨a.val.slice.lo, b.val.slice.hi⟩, a.val.data⟩
      have hl₁' : (q.queue.set a.id ⟨⟨a.val.slice.lo, b.val.slice.hi⟩, a.val.data⟩).links =
          (A ++ [⟨a.id, ⟨⟨a.val.slice.lo, b.val.slice.hi⟩, a.val.data⟩⟩]) ++ b :: B := by
        simpa using hl₁
      have hl₂ := Queue.links_deleteLink hl₁'
    · simpa [MapQueue.setEntry, MapQueue.deleteLink] using hl₂
    · rw [← MapQueue.regs_set (q := q) (q.setEntry a.id _) rfl hl hl₁ rfl]
      exact MapQueue.regs_insert (q := (q.setEntry a.id _).deleteLink b.id) _ rfl hl₂ hl₁'

omit [LinearOrder Q] [Zero Q] in
/-- The end of `map_data_add` before a link, when the new entry joins the link. -/
theorem mapDataAddBefore_join (hdup : ∀ k, ops.dup k = k)
    (hl : q.queue.links = A ++ b :: B) (hreg : R s.nodes (q.regs + M))
    (hd : cur.data = b.val.data) (hc : ops.cmp b.val.slice.lo cur.slice.hi = 1)
    (hs : mapDataSplit ops cur b.val = some ⟨⟨cur.slice.lo, b.val.slice.hi⟩, cur.data⟩) :
    ∃ q', mapDataAddBefore ops h q b.id cur s = (q', s) ∧
      Spliced ops R M cur A (b :: B) q q' s.nodes := by
  have hright : ∀ x ∈ some b, x.val.data = cur.data ∧ ops.cmp x.val.slice.lo cur.slice.hi = 1 := by
    intro x hx
    obtain rfl : b = x := by simpa using hx
    exact ⟨hd.symm, hc⟩
  simp only [mapDataAddBefore]
  rw [Queue.get?_mid hl]
  simp only
  rw [hs]
  simp only
  have hl₁ := Queue.links_set hl ⟨⟨cur.slice.lo, b.val.slice.hi⟩, cur.data⟩
  have hreg₁ : R s.nodes
      ((q.setEntry b.id ⟨⟨cur.slice.lo, b.val.slice.hi⟩, cur.data⟩).regs + M) := by
    rw [MapQueue.regs_set (q := q) (q.setEntry b.id _) rfl hl hl₁ hd]
    exact hreg
  have hid : (q.setEntry b.id ⟨⟨cur.slice.lo, b.val.slice.hi⟩, cur.data⟩).id = q.id := rfl
  change (q.setEntry b.id _).queue.links = _ at hl₁
  generalize q.setEntry b.id ⟨⟨cur.slice.lo, b.val.slice.hi⟩, cur.data⟩ = q₁ at hl₁ hreg₁ hid
  rw [Queue.prev?_mid hl₁]
  rcases List.eq_nil_or_concat' A with rfl | ⟨A', a, rfl⟩
  · exact ⟨q₁, rfl, hid, [], B, none, some b, b.id, rfl, rfl, hl₁, by simp, hright, Or.inl hreg₁⟩
  · rw [List.getLast?_concat, Option.map_some]
    simp only
    rcases mapDataSplitLinks_spec (a := a) hdup (by simpa using hl₁) with hs' |
      ⟨q₂, hs', hd', hc', hid', hl₂, hreg₂⟩
    · rw [hs']
      exact ⟨q₁, rfl, hid, A' ++ [a], B, none, some b, b.id, by simp, rfl, hl₁, by simp, hright,
        Or.inl hreg₁⟩
    · -- both neighbours join: the link of `b` is dropped without notice
      rw [hs']
      refine ⟨q₂, rfl, hid'.trans hid, A', B, some a, some b, a.id, rfl, rfl, ?_, ?_, hright,
        Or.inr ⟨a, b, rfl, rfl, ?_⟩⟩
      · rw [hl₂, hd']
        rfl
      · intro x hx
        obtain rfl : a = x := by simpa using hx
        exact ⟨hd', hc'⟩
      · rw [hreg₂, Multiset.cons_add, hid] at hreg₁
        rw [← hd]
        exact hreg₁

omit [LinearOrder Q] [Zero Q] in
/-- The end of `map_data_add` before a link. -/
theorem mapDataAddBefore_spec (cur : MapEntry Q α) (hdup : ∀ k, ops.dup k = k) (hR : h.Tracks R)
    (hl : q.queue.links = A ++ b :: B) (hreg : R s.nodes (q.regs + M)) :
    ∃ q' n', mapDataAddBefore ops h q b.id cur s = (q', { s with nodes := n' }) ∧
      Spliced ops R M cur A (b :: B) q q' n' := by
  rcases mapDataSplit_cases hdup cur b.val with hs | ⟨hd, hc, hs⟩
  · simp only [mapDataAddBefore]
    rw [Queue.get?_mid hl]
    simp only
    rw [hs, Queue.prev?_mid hl]
    have hnew := spliced_new ops (q := q) hR
      ⟨q.id, q.queue.insertBefore b.id cur⟩ rfl hl (Queue.links_insertBefore hl cur) hreg
    rcases List.eq_nil_or_concat' A with rfl | ⟨A', a, rfl⟩
    · exact ⟨_, _, rfl, hnew⟩
    · rw [List.getLast?_concat, Option.map_some]
      simp only
      have hl' : q.queue.links = A' ++ a :: (b :: B) := by simpa using hl
      rw [Queue.get?_mid hl', Option.bind_some]
      rcases mapDataSplit_cases hdup a.val cur with hs' | ⟨hd', hc', hs'⟩
      · rw [hs']
        exact ⟨_, _, rfl, hnew⟩
      · rw [hs']
        have hl₁ := Queue.links_set hl' ⟨⟨a.val.slice.lo, cur.slice.hi⟩, a.val.data⟩
        refine ⟨_, s.nodes, rfl, rfl, A', b :: B, some a, none, a.id, rfl, rfl, ?_, ?_, by simp, ?_⟩
        · rw [← hd']
          exact hl₁
        · intro x hx
          obtain rfl : a = x := by simpa using hx
          exact ⟨hd', hc'⟩
        · left
          rw [MapQueue.regs_set (q := q) (q.setEntry a.id _) rfl hl' hl₁ rfl]
          exact hreg
  · obtain ⟨q', he, hrest⟩ := mapDataAddBefore_join (h := h) hdup hl hreg hd hc hs
    exact ⟨q', s.nodes, he, hrest⟩

/-- **`map_data_add`** on any queue: it stops at an entry that compares as equal, or joins the
new entry to its neighbours as they compare. -/
theorem mapDataInsert_splice (cur : MapEntry Q α) (hdup : ∀ k, ops.dup k = k) (hR : h.Tracks R)
    (hreg : R s.nodes (q.regs + M)) :
    (∃ A b B, q.queue.links = A ++ b :: B ∧ (∀ a ∈ A, 0 < sliceCmp ops cur.slice a.val.slice) ∧
      sliceCmp ops cur.slice b.val.slice = 0 ∧
      mapDataInsert ops h q cur s = (q, { s with cross := some ⟨b.val.slice, b.val.data⟩ })) ∨
    ∃ A B q' n', q.queue.links = A ++ B ∧ (∀ a ∈ A, 0 < sliceCmp ops cur.slice a.val.slice) ∧
      (∀ b ∈ B.head?, sliceCmp ops cur.slice b.val.slice < 0) ∧
      mapDataInsert ops h q cur s = (q', { s with nodes := n' }) ∧
      Spliced ops R M cur A B q q' n' := by
  by_cases hlen : q.queue.length = 0
  · have hl : q.queue.links = [] ++ [] := List.length_eq_zero_iff.mp hlen
    have hl' : (q.queue.pushTail cur).links = [] ++ ⟨q.queue.fresh, cur⟩ :: [] := by
      rw [Queue.links_pushTail, hl]
      rfl
    refine Or.inr ⟨[], [], ⟨q.id, q.queue.pushTail cur⟩, _, hl, by simp, by simp, ?_,
      spliced_new ops (q := q) hR _ rfl hl hl' hreg⟩
    rw [mapDataInsert, if_pos hlen]
    rfl
  · rw [mapDataInsert, if_neg hlen]
    obtain ⟨A, B, hl, hA, ⟨b, B', rfl, hb, hscan⟩ | ⟨hB, hscan⟩⟩ :=
      mapDataScan_cases ops cur.slice q.queue.links
    · refine Or.inl ⟨A, b, B', hl, hA, hb, ?_⟩
      rw [hscan]
      simp only [hdup]
    · rw [hscan]
      rcases B with _ | ⟨b, B⟩
      · obtain ⟨A', a, rfl⟩ : ∃ A' a, A = A' ++ [a] := by
          rcases List.eq_nil_or_concat' A with rfl | h
          · exact absurd (by rw [Queue.length, hl]; rfl) hlen
          · exact h
        obtain ⟨q', n', he, hsp⟩ := mapDataAddTail_spec (h := h) cur hdup hR
          (by simpa using hl) hreg
        exact Or.inr ⟨A' ++ [a], [], q', n', hl, hA, hB, he, hsp⟩
      · obtain ⟨q', n', he, hsp⟩ := mapDataAddBefore_spec (h := h) cur hdup hR hl hreg
        exact Or.inr ⟨A, b :: B, q', n', hl, hA, hB, he, hsp⟩

omit [DecidableEq α] in
/-- Where what compares as adjacent has no gap, the entry is joined without gaps. -/
theorem Spliced.inserted {q' : MapQueue Q α} {n : ν} (hsp : Spliced ops R M cur A B q q' n)
    (hl : q.queue.links = A ++ B) (hA : ∀ x ∈ A, x.val.slice.Before cur.slice)
    (hB : ∀ x ∈ B, cur.slice.Before x.val.slice) (hmerge : Seamless ops dom cur q.queue.vals) :
    Inserted dom cur A B q q' := by
  obtain ⟨hleft, hright⟩ := hmerge.links hl hA hB
  obtain ⟨hid, A', B', l, r, i, rfl, rfl, hl', hadj, hadj', -⟩ := hsp
  refine ⟨hid, A', B', l, r, i, _, rfl, rfl, hl', rfl, rfl, rfl, ?_, ?_⟩
  · intro x hx
    obtain ⟨y, rfl, rfl⟩ := Option.map_eq_some_iff.mp hx
    obtain ⟨hd, hc⟩ := hadj y rfl
    exact ⟨hd, hA y (by simp), hleft y (by simp) hd hc⟩
  · intro x hx
    obtain ⟨y, rfl, rfl⟩ := Option.map_eq_some_iff.mp hx
    obtain ⟨hd, hc⟩ := hadj' y rfl
    exact ⟨hd, hB y (by simp), hright y (by simp) hd hc⟩

omit [DecidableEq α] in
/-- Where links may be dropped, the handlers know the queue. -/
theorem Spliced.known {q' : MapQueue Q α} {n : ν} (hsp : Spliced ops R M cur A B q q' n)
    (hl : q.queue.links = A ++ B) (hB : ∀ x ∈ B, cur.slice.Before x.val.slice)
    (hdrop : Droppable R cur q.queue.vals) : R n (q'.regs + M) := by
  obtain ⟨-, A', B', l, r, i, rfl, rfl, -, -, hadj, hreg | ⟨a, b, rfl, rfl, hreg⟩⟩ := hsp
  · exact hreg
  · rcases hdrop with hdrop | hdrop
    · exact hdrop _ _ _ hreg
    · exact absurd (hB b (by simp)) (hdrop b.val (by simp [Queue.vals, hl]) (hadj b rfl).1)

omit [DecidableEq α] in
/-- Read off the links: the entries stay in order, and the keys of `cur` get its owner. -/
theorem Inserted.added (hj : ops.Joins dom ok) {q' : MapQueue Q α} (hcur : ok cur.slice)
    (hi : Inserted dom cur A B q q') (hl : q.queue.links = A ++ B)
    (ho : Ordered ok q.queue.vals) (hA : ∀ x ∈ A, x.val.slice.Before cur.slice)
    (hB : ∀ x ∈ B, cur.slice.Before x.val.slice) :
    Ordered ok q'.queue.vals ∧ Added dom cur q.queue.vals q'.queue.vals := by
  obtain ⟨-, A', B', l, r, i, e, rfl, rfl, hl', hjoin⟩ := hi
  have hv : q.queue.vals = A'.map Link.val ++ (l.map Link.val).toList ++
      ((r.map Link.val).toList ++ B'.map Link.val) := by
    rw [Queue.vals, hl]
    cases l <;> cases r <;> simp
  have hv' : q'.queue.vals = A'.map Link.val ++ e :: B'.map Link.val := by
    rw [Queue.vals, hl']
    simp
  rw [hv] at ho ⊢
  rw [hv']
  refine hjoin.added hj hcur ho ?_ ?_
  · intro x hx
    obtain ⟨y, hy, rfl⟩ : ∃ y ∈ A' ++ l.toList, y.val = x := by
      rw [← List.mem_map]
      cases l <;> simpa using hx
    exact hA y hy
  · intro x hx
    obtain ⟨y, hy, rfl⟩ : ∃ y ∈ r.toList ++ B', y.val = x := by
      rw [← List.mem_map]
      cases r <;> simpa using hx
    exact hB y hy

/-- **`map_data_add`** on a queue finds an entry that overlaps the new one, or adds the
new one. -/
theorem mapDataInsert_spec (hj : ops.Joins dom ok) (hR : h.Tracks R) (hcur : ok cur.slice)
    (ho : Ordered ok q.queue.vals) (hmerge : Seamless ops dom cur q.queue.vals)
    (hdrop : Droppable R cur q.queue.vals) (hreg : R s.nodes (q.regs + M)) :
    (∃ e ∈ q.queue.vals, e.slice.Meets cur.slice ∧
      mapDataInsert ops h q cur s = (q, { s with cross := some ⟨e.slice, e.data⟩ })) ∨
    ∃ q' n', mapDataInsert ops h q cur s = (q', { s with nodes := n' }) ∧ q'.id = q.id ∧
      Ordered ok q'.queue.vals ∧ Added dom cur q.queue.vals q'.queue.vals ∧
      R n' (q'.regs + M) := by
  rcases mapDataInsert_splice (h := h) cur hj.lawful.dup_eq hR hreg with
    ⟨A, b, B, hl, hA, hb, he⟩ | ⟨A, B, q', n', hl, hA, hB, he, hsp⟩
  · have hmem : b.val ∈ q.queue.vals := by simp [Queue.vals, hl]
    refine Or.inl ⟨b.val, hmem, ?_, he⟩
    exact ((hj.lawful.sliceCmp_eq_zero (hj.proper hcur) (hj.proper (ho.ok _ hmem))).mp hb).symm
  · obtain ⟨hA', hB'⟩ := before_of_scan hj hcur (hl ▸ ho) hA hB
    obtain ⟨ho', hadd⟩ := (hsp.inserted hl hA' hB' hmerge).added hj hcur hl ho hA' hB'
    exact Or.inr ⟨q', n', he, hsp.id, ho', hadd, hsp.known hl hB' hdrop⟩

end Insert

end Mbb
