import Mbb.SliceOrder
import Mathlib.Data.List.Induction
import Mathlib.Data.Multiset.Basic
import Mathlib.Algebra.Order.Group.Multiset

/-!
# The change of a range of a slicer

`WF` is the shape every slicer keeps: its slices tile the whole range and the tree
leads from each slice to its own link. `applyChange_rule` is the rule all results
about `slicer_insert` and `slicer_delete` are derived from. It is a rule for data
operations with effects: the caller gives

* `I s L`, an assertion on the state `s` and the data `L` alive in it;
* `K a b`, "`b` is a copy of `a`";
* `Q s a b`, "`b` is what the change makes of `a`", which later steps must keep.

After the change each entry comes from an old one: inside the range by `Q`, outside
by `K`. The rule does not say in which order the slices were visited, because that
depends on the slice the tree lookup returns.
-/

namespace Mbb

variable {P : Type} [LinearOrder P] [Zero P] {σ D X : Type}

namespace Slicer

/-- The data held by some links. -/
def liveData (ls : List (Link (SlicerEntry P D))) : Multiset (Option D) :=
  ↑(ls.map fun l => l.val.data)

omit [LinearOrder P] [Zero P] in
theorem liveData_append (A B : List (Link (SlicerEntry P D))) :
    liveData (A ++ B) = liveData A + liveData B := by
  simp [liveData]

omit [LinearOrder P] [Zero P] in
theorem liveData_cons (l : Link (SlicerEntry P D)) (B : List (Link (SlicerEntry P D))) :
    liveData (l :: B) = l.val.data ::ₘ liveData B := rfl

/-- The slices of some links. -/
def slicesOf (ls : List (Link (SlicerEntry P D))) : List (Slice P) := ls.map fun l => l.val.slice

/-- The tree leads from each slice of the queue to its link, and holds nothing else. -/
def Sync (sl : Slicer P D) : Prop :=
  sl.tree.toList = sl.queue.links.map fun l => (l.val.slice, l.id)

/-- The slices tile the range `w` and the tree is in step with the queue. -/
structure WF (dom : P → Prop) (w : Span P) (sl : Slicer P D) : Prop where
  /-- the slices lie side by side from `w.lo` to `w.hi` -/
  tiles : Tiles dom w.lo w.hi (slicesOf sl.queue.links)
  /-- the tree knows the links -/
  sync : sl.Sync

variable {dom : P → Prop} {w r : Span P} {o : SliceOps P} {d : SliceDataOps σ D X}
  {sl : Slicer P D} {A B : List (Link (SlicerEntry P D))} {l : Link (SlicerEntry P D)} {s : σ}

omit [LinearOrder P] [Zero P] in
theorem mem_slicesOf {ls : List (Link (SlicerEntry P D))} (hl : l ∈ ls) :
    l.val.slice ∈ slicesOf ls := List.mem_map_of_mem hl

theorem WF.proper (h : sl.WF dom w) (hl : l ∈ sl.queue.links) : l.val.slice.Proper dom :=
  h.tiles.proper _ (mem_slicesOf hl)

theorem WF.pairwise (h : sl.WF dom w) :
    sl.queue.links.Pairwise fun a b => a.val.slice.Before b.val.slice :=
  List.pairwise_map.mp h.tiles.pairwise

/-- The links on both sides of `l`. -/
theorem WF.around (h : sl.WF dom w) (hl : sl.queue.links = A ++ l :: B) :
    (∀ a ∈ A, a.val.slice.Before l.val.slice) ∧ ∀ b ∈ B, l.val.slice.Before b.val.slice := by
  have hpw := h.pairwise
  rw [hl] at hpw
  obtain ⟨-, hlB, hAl⟩ := List.pairwise_append.mp hpw
  exact ⟨fun a ha => hAl a ha l List.mem_cons_self, (List.pairwise_cons.mp hlB).1⟩

theorem WF.not_before_behind (h : sl.WF dom w) (hl : sl.queue.links = A ++ l :: B) {r : Span P}
    (hr : ¬ l.val.slice.Before r) : ∀ b ∈ B, ¬ b.val.slice.Before r := fun b hb hbr =>
  hr (((h.around hl).2 b hb).trans (h.proper (hl ▸ by simp [hb])) hbr)

theorem WF.not_before_front (h : sl.WF dom w) (hl : sl.queue.links = A ++ l :: B) {r : Span P}
    (hr : ¬ r.Before l.val.slice) : ∀ a ∈ A, ¬ r.Before a.val.slice := fun a ha hra =>
  hr (hra.trans (h.proper (hl ▸ by simp [ha])) ((h.around hl).1 a ha))

/-- A range that ends before `l` ends before everything behind `l`. -/
theorem WF.not_meets_behind (h : sl.WF dom w) (hl : sl.queue.links = A ++ l :: B) {r : Span P}
    (hr : ¬ l.val.slice.Before r) (hm : ¬ l.val.slice.Meets r) :
    ∀ b ∈ B, ¬ b.val.slice.Meets r := by
  have hrl : r.Before l.val.slice := by
    by_contra hno
    exact hm ⟨hr, hno⟩
  exact fun b hb hbr => hbr.2 (hrl.trans (h.proper (hl ▸ by simp)) ((h.around hl).2 b hb))

/-- A range that begins after `l` begins after everything before `l`. -/
theorem WF.not_meets_front (h : sl.WF dom w) (hl : sl.queue.links = A ++ l :: B) {r : Span P}
    (hr : ¬ r.Before l.val.slice) (hm : ¬ l.val.slice.Meets r) :
    ∀ a ∈ A, ¬ a.val.slice.Meets r := by
  have hlr : l.val.slice.Before r := by
    by_contra hno
    exact hm ⟨hno, hr⟩
  exact fun a ha har => har.1 (((h.around hl).1 a ha).trans (h.proper (hl ▸ by simp)) hlr)

/-! ## Tree and queue together

A slice goes into both and leaves both; the tree always leads to the links of the queue.
-/

section Tree

variable [TreeShape P] (ho : o.Lawful dom)
include ho

/-- Removing a link from the queue and its slice from the tree. -/
theorem sync_remove (hs : sl.Sync) (hl : sl.queue.links = A ++ l :: B)
    (hp : ∀ m ∈ A ++ l :: B, m.val.slice.Proper dom)
    (hpw : (A ++ l :: B).Pairwise fun a b => a.val.slice.Before b.val.slice) (n : Int) :
    (⟨sl.queue.deleteLink l.id, treeRemove o sl.tree l.val.slice, n⟩ : Slicer P D).Sync := by
  have hpl := hp l (by simp)
  obtain ⟨-, hB, hA⟩ := List.pairwise_append.mp hpw
  obtain ⟨hB, -⟩ := List.pairwise_cons.mp hB
  rw [Sync, hl, List.map_append, List.map_cons] at hs
  rw [Sync, Queue.links_deleteLink hl, List.map_append, treeRemove, Balance.toList_run]
  refine Tree.toList_remove hs ?_ ?_ ?_
  · intro a ha
    obtain ⟨m, hm, rfl⟩ := List.mem_map.mp ha
    exact (ho.sliceCmp_pos hpl (hp m (by simp [hm]))).mpr (hA m hm l (by simp))
  · refine (ho.sliceCmp_eq_zero hpl hpl).mpr ?_
    have hn : ¬ l.val.slice.Before l.val.slice := fun h => h.asymm hpl hpl h
    exact ⟨hn, hn⟩
  · intro b hb
    obtain ⟨m, hm, rfl⟩ := List.mem_map.mp hb
    exact (ho.sliceCmp_neg hpl (hp m (by simp [hm]))).mpr (hB m hm)

omit ho in
theorem links_insertBefore {next : Option ℕ} (hl : sl.queue.links = A ++ B)
    (hn : next = B.head?.map Link.id) (e : SlicerEntry P D) :
    (sl.insertBefore o next e).queue.links = A ++ ⟨sl.queue.fresh, e⟩ :: B := by
  cases B with
  | nil =>
    subst hn
    simp only [insertBefore, List.head?_nil, Option.map_none, Queue.links_pushTail, hl]
    simp
  | cons b B =>
    subst hn
    exact Queue.links_insertBefore hl e

/-- Inserting an entry whose slice lies between those of its neighbours. -/
theorem sync_insertBefore {next : Option ℕ} {e : SlicerEntry P D} (hs : sl.Sync)
    (hl : sl.queue.links = A ++ B) (hn : next = B.head?.map Link.id)
    (he : e.slice.Proper dom) (hp : ∀ m ∈ A ++ B, m.val.slice.Proper dom)
    (hA : ∀ a ∈ A, a.val.slice.Before e.slice) (hB : ∀ b ∈ B, e.slice.Before b.val.slice) :
    (sl.insertBefore o next e).Sync := by
  rw [Sync, hl, List.map_append] at hs
  rw [Sync, links_insertBefore hl hn, List.map_append, List.map_cons]
  simp only [insertBefore, treeInsert, Balance.toList_run]
  refine Tree.toList_insert hs ?_ ?_
  · intro a ha
    obtain ⟨m, hm, rfl⟩ := List.mem_map.mp ha
    exact (ho.sliceCmp_pos he (hp m (by simp [hm]))).mpr (hA m hm)
  · intro b hb
    obtain ⟨m, hm, rfl⟩ := List.mem_map.mp hb
    exact (ho.sliceCmp_neg he (hp m (by simp [hm]))).mpr (hB m hm)

omit [TreeShape P] in
/-- The lookup of a range returns a link whose slice meets it, when there is one. -/
theorem treeLookup_spec (hwf : sl.WF dom w) (hr : r.Proper dom)
    (hex : ∃ l ∈ sl.queue.links, l.val.slice.Meets r) :
    ∃ l ∈ sl.queue.links, treeLookup o sl.tree r = some l.id ∧ l.val.slice.Meets r := by
  obtain ⟨l, hl, hm⟩ := hex
  have hcmp : ∀ m ∈ sl.queue.links, (sliceCmp o r m.val.slice = 0 ↔ m.val.slice.Meets r) :=
    fun m hm => (ho.sliceCmp_eq_zero hr (hwf.proper hm)).trans
      ⟨Span.Meets.symm, Span.Meets.symm⟩
  have hdir : Tree.Directed (sliceCmp o r) sl.tree.toList := by
    rw [hwf.sync]
    refine List.pairwise_map.mpr (hwf.pairwise.imp_of_mem ?_)
    intro a b ha hb hab
    have hpa := hwf.proper ha
    have hpb := hwf.proper hb
    refine ⟨fun h => ?_, fun h => ?_⟩
    · exact (ho.sliceCmp_neg hr hpb).mpr (((ho.sliceCmp_neg hr hpa).mp h).trans hpa hab)
    · exact (ho.sliceCmp_pos hr hpa).mpr (hab.trans hpb ((ho.sliceCmp_pos hr hpb).mp h))
  have hmem : (l.val.slice, l.id) ∈ sl.tree.toList := by
    rw [hwf.sync]
    exact List.mem_map_of_mem hl
  obtain ⟨i, hi⟩ := Tree.lookup_isSome hdir hmem ((hcmp l hl).mpr hm)
  obtain ⟨k, hk, hz⟩ := Tree.lookup_mem hi
  rw [hwf.sync] at hk
  obtain ⟨l', hl', heq⟩ := List.mem_map.mp hk
  obtain ⟨rfl, rfl⟩ := Prod.mk.inj heq
  exact ⟨l', hl', hi, (hcmp l' hl').mp hz⟩

end Tree

/-! ## One link

What the change of one slice does to queue, tree and data: it is cut in at most three parts, of
which the middle one gets the operation.
-/

/-- What the data operations owe the rule. `S` is the data the change may meet. -/
structure Contract (d : SliceDataOps σ D X) (op : Option D → X → σ → Option D × σ) (x : X)
    (I : σ → Multiset (Option D) → Prop) (K : Option D → Option D → Prop)
    (Q : σ → Option D → Option D → Prop) (S : Option D → Prop) : Prop where
  /-- untouched data is its own copy -/
  copy_refl : ∀ a, K a a
  /-- `dup` makes a copy and adds it to the live data -/
  dup : ∀ {s a L}, I s (a ::ₘ L) → I (d.dup a s).2 ((d.dup a s).1 ::ₘ a ::ₘ L) ∧
    K a (d.dup a s).1 ∧ ∀ b c, Q s b c → Q (d.dup a s).2 b c
  /-- the operation, applied to a copy, makes changed data -/
  op : ∀ {s a L}, S a → I s (a ::ₘ L) →
    I (op (d.dup a s).1 x (d.dup a s).2).2 ((op (d.dup a s).1 x (d.dup a s).2).1 ::ₘ a ::ₘ L) ∧
    Q (op (d.dup a s).1 x (d.dup a s).2).2 a (op (d.dup a s).1 x (d.dup a s).2).1 ∧
    ∀ b c, Q s b c → Q (op (d.dup a s).1 x (d.dup a s).2).2 b c
  /-- `free` withdraws the data -/
  free : ∀ {s a L}, I s (some a ::ₘ L) → I (d.free a s) L ∧ ∀ b c, Q s b c → Q (d.free a s) b c
  /-- `NULL` is not alive -/
  null : ∀ {s L}, I s (none ::ₘ L) → I s L

variable {op : Option D → X → σ → Option D × σ} {counted : Option D → Bool} {x : X}
  {I : σ → Multiset (Option D) → Prop} {K : Option D → Option D → Prop}
  {Q : σ → Option D → Option D → Prop} {S : Option D → Prop}

omit [LinearOrder P] [Zero P] in
theorem liveData_insert (g : Link (SlicerEntry P D)) :
    liveData (A ++ g :: B) = g.val.data ::ₘ liveData (A ++ B) := by
  rw [liveData_append, liveData_cons, Multiset.add_cons, liveData_append]

section Change

variable [TreeShape P] (ho : o.Lawful dom) (hc : Contract d op x I K Q S)
include ho

/-- A slicer that differs from an insertion in its count only. -/
theorem insert_spec (sl' : Slicer P D) {next : Option ℕ} {e : SlicerEntry P D}
    (hq : sl'.queue = (sl.insertBefore o next e).queue)
    (ht : sl'.tree = (sl.insertBefore o next e).tree) (hs : sl.Sync)
    (hl : sl.queue.links = A ++ B) (hn : next = B.head?.map Link.id)
    (hp : ∀ t ∈ slicesOf A ++ e.slice :: slicesOf B, t.Proper dom)
    (hpw : (slicesOf A ++ e.slice :: slicesOf B).Pairwise Span.Before) :
    sl'.queue.links = A ++ ⟨sl.queue.fresh, e⟩ :: B ∧ sl'.Sync := by
  obtain ⟨-, hB, hA⟩ := List.pairwise_append.mp hpw
  obtain ⟨hB, -⟩ := List.pairwise_cons.mp hB
  refine ⟨by rw [hq, links_insertBefore hl hn], ?_⟩
  rw [Sync, hq, ht]
  refine sync_insertBefore ho hs hl hn (hp _ (by simp)) ?_ ?_ ?_
  · intro m hm
    refine hp _ ?_
    rcases List.mem_append.mp hm with hm | hm
    · exact List.mem_append_left _ (mem_slicesOf hm)
    · exact List.mem_append_right _ (List.mem_cons_of_mem _ (mem_slicesOf hm))
  · exact fun a ha => hA _ (mem_slicesOf ha) _ List.mem_cons_self
  · exact fun b hb => hB _ (mem_slicesOf hb)

include hc

/-- `insert_dup` of the part of a cut that may be missing. -/
theorem insertDupIf_spec (part : Option (Slice P)) {next : Option ℕ} {a : Option D}
    (hs : sl.Sync) (hl : sl.queue.links = A ++ B) (hn : next = B.head?.map Link.id)
    (hp : ∀ t ∈ slicesOf A ++ part.toList ++ slicesOf B, t.Proper dom)
    (hpw : (slicesOf A ++ part.toList ++ slicesOf B).Pairwise Span.Before)
    (hI : I s (a ::ₘ liveData (A ++ B))) :
    ∃ sl' s' G, sl.insertDupIf o d next a part s = (sl', s') ∧
      sl'.queue.links = A ++ G ++ B ∧ sl'.Sync ∧ slicesOf G = part.toList ∧
      (∀ g ∈ G, K a g.val.data) ∧ I s' (a ::ₘ liveData (A ++ G ++ B)) ∧
      ∀ b c, Q s b c → Q s' b c := by
  cases part with
  | none => exact ⟨sl, s, [], rfl, by simpa using hl, hs, rfl, by simp, by simpa using hI,
      fun _ _ h => h⟩
  | some slice =>
    obtain ⟨hI', hK, hQ⟩ := hc.dup hI
    simp only [Option.toList_some, List.append_assoc, List.singleton_append] at hp hpw
    let e : SlicerEntry P D := ⟨slice, (d.dup a s).1⟩
    obtain ⟨h1, h2⟩ := insert_spec (e := e) ho (sl.insertDup o d next a slice s).1
      (by simp only [insertDup]; split <;> rfl) (by simp only [insertDup]; split <;> rfl)
      hs hl hn hp hpw
    refine ⟨(sl.insertDup o d next a slice s).1, (d.dup a s).2, [⟨sl.queue.fresh, e⟩], rfl,
      by rw [h1, List.append_assoc, List.singleton_append], h2, rfl, ?_, ?_, hQ⟩
    · intro g hg
      obtain rfl := List.mem_singleton.mp hg
      exact hK
    · rw [Multiset.cons_swap] at hI'
      rw [List.append_assoc, List.singleton_append, liveData_insert]
      exact hI'

/-- `insert_add` or `insert_del` of the middle part of a cut. -/
theorem insertOp_spec {slice : Slice P} {next : Option ℕ} {a : Option D} (hs : sl.Sync)
    (hl : sl.queue.links = A ++ B) (hn : next = B.head?.map Link.id)
    (hp : ∀ t ∈ slicesOf A ++ slice :: slicesOf B, t.Proper dom)
    (hpw : (slicesOf A ++ slice :: slicesOf B).Pairwise Span.Before)
    (hS : S a) (hI : I s (a ::ₘ liveData (A ++ B))) :
    ∃ sl' s' g, sl.insertOp o d op counted next a x slice s = (sl', s') ∧
      sl'.queue.links = A ++ g :: B ∧ sl'.Sync ∧ g.val.slice = slice ∧
      Q s' a g.val.data ∧ I s' (a ::ₘ liveData (A ++ g :: B)) ∧ ∀ b c, Q s b c → Q s' b c := by
  obtain ⟨hI', hQ, hmono⟩ := hc.op hS hI
  let e : SlicerEntry P D := ⟨slice, (op (d.dup a s).1 x (d.dup a s).2).1⟩
  obtain ⟨h1, h2⟩ := insert_spec (e := e) ho
    (sl.insertOp o d op counted next a x slice s).1
    (by simp only [insertOp]; split <;> rfl) (by simp only [insertOp]; split <;> rfl)
    hs hl hn hp hpw
  refine ⟨_, _, ⟨sl.queue.fresh, e⟩, rfl, h1, h2, rfl, hQ, ?_, hmono⟩
  rw [liveData_insert, Multiset.cons_swap]
  exact hI'

omit ho [LinearOrder P] [Zero P] [TreeShape P] in
theorem entryFree_spec {a : Option D} {slice : Slice P} {L : Multiset (Option D)}
    (hI : I s (a ::ₘ L)) :
    ∃ sl' s', sl.entryFree d ⟨slice, a⟩ s = (sl', s') ∧ sl'.queue = sl.queue ∧
      sl'.tree = sl.tree ∧ I s' L ∧ ∀ b c, Q s b c → Q s' b c := by
  cases a with
  | none => exact ⟨sl, s, rfl, rfl, rfl, hc.null hI, fun _ _ h => h⟩
  | some a =>
    obtain ⟨h1, h2⟩ := hc.free hI
    exact ⟨_, _, rfl, rfl, rfl, h1, h2⟩

/-- `e'` is a piece of `e` after the change of `r`: changed when inside `r`, a copy
when outside. -/
def Piece (r : Span P) (K : Option D → Option D → Prop) (Q : Option D → Option D → Prop)
    (e e' : SlicerEntry P D) : Prop :=
  (∀ p, e'.slice.Mem p → e.slice.Mem p) ∧
    ((∀ p, e'.slice.Mem p → r.Mem p) ∧ Q e.data e'.data ∨
      (∀ p, e'.slice.Mem p → ¬ r.Mem p) ∧ K e.data e'.data)

omit ho hc [TreeShape P] in
theorem Piece.mono {Q Q' : Option D → Option D → Prop} {e e' : SlicerEntry P D}
    (h : ∀ b c, Q b c → Q' b c) (hp : Piece r K Q e e') : Piece r K Q' e e' :=
  ⟨hp.1, hp.2.imp (fun h' => ⟨h'.1, h _ _ h'.2⟩) id⟩

omit ho [TreeShape P] in
/-- An entry the range does not meet is a piece of itself. -/
theorem Piece.refl {Q : Option D → Option D → Prop} {e : SlicerEntry P D}
    (h : ¬ e.slice.Meets r) : Piece r K Q e e :=
  ⟨fun _ hp => hp, Or.inr ⟨fun _ hp hr => h (.of_mem hp hr), hc.copy_refl _⟩⟩

omit hc in
theorem changeData_none (hwf : sl.WF dom w) (hr : r.Proper dom)
    (hl : sl.queue.links = A ++ l :: B) (hm : ¬ l.val.slice.Meets r) (func : OpFunc P σ D X) :
    sl.changeData o d l.id x r func s = none := by
  rw [changeData, Queue.get?_mid hl]
  simp only
  rw [ho.sliceCross_none (hwf.proper (hl ▸ by simp)) hr hm]

omit ho hc [TreeShape P] in
/-- Where the parts of a cut stand for the slice of a link, the slices still tile the whole
range. -/
theorem WF.tiles_cut (hwf : sl.WF dom w) (hl : sl.queue.links = A ++ l :: B)
    {parts : List (Slice P)} (hcut : Tiles dom l.val.slice.lo l.val.slice.hi parts) :
    Tiles dom w.lo w.hi (slicesOf A ++ parts ++ slicesOf B) := by
  have h1 : Tiles dom w.lo w.hi (slicesOf A ++ [l.val.slice] ++ slicesOf B) := by
    have := hwf.tiles
    rw [hl] at this
    simpa [slicesOf] using this
  obtain ⟨a, b, h2, h3⟩ := h1.focus (by simp)
  rw [h2.eq_of_single] at hcut
  exact h3 _ hcut

/-- `change_data` replaces a link the range meets by the pieces of its entry. -/
theorem changeData_some (hr : o.Fits dom w r) (hwf : sl.WF dom w)
    (hl : sl.queue.links = A ++ l :: B) (hm : l.val.slice.Meets r) (hS : S l.val.data)
    (hI : I s (liveData sl.queue.links)) :
    ∃ sl' s' G, sl.changeData o d l.id x r (insertOp o d op counted) s = some (sl', s') ∧
      sl'.WF dom w ∧ sl'.queue.links = A ++ G ++ B ∧ I s' (liveData sl'.queue.links) ∧
      (∀ g ∈ G, Piece r K (Q s') l.val g.val) ∧ ∀ b c, Q s b c → Q s' b c := by
  have hlm : l ∈ sl.queue.links := by simp [hl]
  obtain ⟨before, mid, after, hcross, hcut, hmid, hbefore, hafter⟩ :=
    ho.sliceCross_some (hwf.proper hlm) (hr.tile hwf.tiles (mem_slicesOf hlm)) hm
  have htiles : Tiles dom w.lo w.hi
      (slicesOf A ++ (before.toList ++ mid :: after.toList) ++ slicesOf B) :=
    hwf.tiles_cut hl hcut
  have hpw := htiles.pairwise
  have hprop := htiles.proper
  rw [hl, liveData_insert] at hI
  -- take the link out, then insert the parts one by one before the next link
  have hs₁ := sync_remove ho hwf.sync hl (fun m hm => hwf.proper (hl ▸ hm))
    (hl ▸ hwf.pairwise) sl.count
  obtain ⟨sl₂, s₂, G₀, he₂, hl₂, hs₂, hG₀, hK₀, hI₂, hQ₂⟩ :=
    insertDupIf_spec ho hc before hs₁ (Queue.links_deleteLink hl) rfl
      (fun t ht => hprop t (by
        simp only [List.append_assoc, List.mem_append, List.mem_cons] at ht ⊢; tauto))
      (hpw.sublist (by simp)) hI
  have hA₂ : slicesOf (A ++ G₀) = slicesOf A ++ before.toList := by
    rw [← hG₀]
    exact List.map_append
  obtain ⟨sl₃, s₃, g, he₃, hl₃, hs₃, hg, hQg, hI₃, hQ₃⟩ :=
    insertOp_spec ho hc hs₂ hl₂ rfl
      (fun t ht => hprop t (by
        rw [hA₂] at ht
        simp only [List.append_assoc, List.mem_append, List.mem_cons] at ht ⊢; tauto))
      (by rw [hA₂]; exact hpw.sublist (by simp)) hS hI₂
  have hA₃ : slicesOf (A ++ G₀ ++ [g]) = slicesOf A ++ before.toList ++ [mid] := by
    rw [← hA₂, ← hg]
    exact List.map_append
  obtain ⟨sl₄, s₄, G₂, he₄, hl₄, hs₄, hG₂, hK₂, hI₄, hQ₄⟩ :=
    insertDupIf_spec (A := A ++ G₀ ++ [g]) ho hc after hs₃ (by simpa using hl₃) rfl
      (fun t ht => hprop t (by
        rw [hA₃] at ht
        simp only [List.append_assoc, List.mem_append, List.mem_cons] at ht ⊢; tauto))
      (by rw [hA₃]; simpa using hpw) (by simpa using hI₃)
  obtain ⟨sl₅, s₅, he₅, hq₅, ht₅, hI₅, hQ₅⟩ :=
    entryFree_spec hc hI₄
  have hl₅ : sl₅.queue.links = A ++ (G₀ ++ [g] ++ G₂) ++ B := by
    rw [hq₅, hl₄]
    simp
  refine ⟨sl₅, s₅, G₀ ++ [g] ++ G₂, ?_, ⟨?_, ?_⟩, hl₅, ?_, ?_, ?_⟩
  · rw [changeData, Queue.get?_mid hl]
    simp only
    rw [hcross, Queue.next?_mid hl]
    simp only
    rw [he₂]
    simp only
    rw [he₃]
    simp only
    rw [he₄]
    exact congrArg some he₅
  · rw [hl₅]
    have : slicesOf (A ++ (G₀ ++ [g] ++ G₂) ++ B) =
        slicesOf A ++ (before.toList ++ mid :: after.toList) ++ slicesOf B := by
      rw [← hG₀, ← hG₂, ← hg]
      simp [slicesOf]
    rw [this]
    exact htiles
  · rw [Sync, hq₅, ht₅]
    exact hs₄
  · rw [hl₅]
    simpa using hI₅
  · have hsub : ∀ t ∈ before.toList ++ mid :: after.toList, ∀ p, t.Mem p → l.val.slice.Mem p :=
      fun t ht p hp => hcut.sub ht hp
    intro g' hg'
    rcases List.mem_append.mp hg' with hg' | hg'
    · rcases List.mem_append.mp hg' with hg' | hg'
      · have hmem : g'.val.slice ∈ before.toList := hG₀ ▸ mem_slicesOf hg'
        refine ⟨hsub _ (List.mem_append_left _ hmem), Or.inr ⟨?_, hK₀ g' hg'⟩⟩
        exact fun p hp => (hbefore _ (Option.mem_toList.mp hmem)).not_mem hp
      · obtain rfl := List.mem_singleton.mp hg'
        refine ⟨hsub _ (by simp [hg]), Or.inl ⟨?_, hQ₅ _ _ (hQ₄ _ _ hQg)⟩⟩
        intro p hp
        rw [hg] at hp
        exact ((hmid p).mp hp).2
    · have hmem : g'.val.slice ∈ after.toList := hG₂ ▸ mem_slicesOf hg'
      refine ⟨hsub _ (by simp [Option.mem_toList.mp hmem]), Or.inr ⟨?_, hK₂ g' hg'⟩⟩
      exact fun p hp hr' => (hafter _ (Option.mem_toList.mp hmem)).not_mem hr' hp
  · exact fun b c h => hQ₅ _ _ (hQ₄ _ _ (hQ₃ _ _ (hQ₂ _ _ h)))

/-! ## The two loops

Each loop goes on as long as slices meet the range. The invariant has the part that is done, the
part that is to be done, and what lies between.
-/

/-- The loop towards the tail changes the links of `F` the range meets; no link of
`F` is before the range, so the first one it does not meet ends the run. -/
theorem changeForward_spec (hr : o.Fits dom w r) (F : List (Link (SlicerEntry P D))) :
    ∀ (fuel : ℕ) {A : List (Link (SlicerEntry P D))} {sl : Slicer P D} {s : σ},
      sl.WF dom w → sl.queue.links = A ++ F → F.length ≤ fuel →
      (∀ f ∈ F, ¬ f.val.slice.Before r) → (∀ f ∈ F, f.val.slice.Meets r → S f.val.data) →
      I s (liveData sl.queue.links) →
      ∃ sl' s' C, changeForward o d x r (insertOp o d op counted) fuel sl
          (F.head?.map Link.id) s = (sl', s') ∧
        sl'.WF dom w ∧ sl'.queue.links = A ++ C ∧ I s' (liveData sl'.queue.links) ∧
        (∀ c ∈ C, ∃ f ∈ F, Piece r K (Q s') f.val c.val) ∧ ∀ a b, Q s a b → Q s' a b := by
  induction F with
  | nil =>
    intro fuel A sl s hwf hl _ _ _ hI
    refine ⟨sl, s, [], ?_, hwf, hl, hI, by simp, fun _ _ h => h⟩
    cases fuel <;> rfl
  | cons f F ih =>
    intro fuel A sl s hwf hl hfuel hF hS hI
    obtain ⟨n, rfl⟩ : ∃ n, fuel = n + 1 := ⟨fuel - 1, by simp at hfuel; omega⟩
    by_cases hm : f.val.slice.Meets r
    · obtain ⟨sl₁, s₁, G, he, hwf₁, hl₁, hI₁, hG, hQ₁⟩ := changeData_some
        ho hc hr hwf hl hm (hS f List.mem_cons_self hm) hI
      obtain ⟨sl', s', C, he', hwf', hl', hI', hC, hQ'⟩ := ih n hwf₁ hl₁
        (by simpa using hfuel) (fun g hg => hF g (List.mem_cons_of_mem _ hg))
        (fun g hg => hS g (List.mem_cons_of_mem _ hg)) hI₁
      refine ⟨sl', s', G ++ C, ?_, hwf', by rw [hl', List.append_assoc], hI', ?_, ?_⟩
      · simp only [List.head?_cons, Option.map_some, changeForward]
        rw [he, Queue.next?_mid hl]
        exact he'
      · intro c hcm
        rcases List.mem_append.mp hcm with hcm | hcm
        · exact ⟨f, List.mem_cons_self, (hG c hcm).mono hQ'⟩
        · obtain ⟨g, hg, hp⟩ := hC c hcm
          exact ⟨g, List.mem_cons_of_mem _ hg, hp⟩
      · exact fun a b h => hQ' _ _ (hQ₁ _ _ h)
    · refine ⟨sl, s, f :: F, ?_, hwf, hl, hI, ?_, fun _ _ h => h⟩
      · simp only [List.head?_cons, Option.map_some, changeForward]
        rw [changeData_none ho hwf hr.proper hl hm]
      · intro c hcm
        refine ⟨c, hcm, Piece.refl hc ?_⟩
        rcases List.mem_cons.mp hcm with rfl | hcF
        · exact hm
        · exact hwf.not_meets_behind hl (hF f List.mem_cons_self) hm c hcF

/-- The loop towards the head, in the same way for links none of which is after the
range. -/
theorem changeBackward_spec (hr : o.Fits dom w r) (A : List (Link (SlicerEntry P D))) :
    ∀ (fuel : ℕ) {C : List (Link (SlicerEntry P D))} {sl : Slicer P D} {s : σ},
      sl.WF dom w → sl.queue.links = A ++ C → A.length ≤ fuel →
      (∀ f ∈ A, ¬ r.Before f.val.slice) → (∀ f ∈ A, f.val.slice.Meets r → S f.val.data) →
      I s (liveData sl.queue.links) →
      ∃ sl' s' G, changeBackward o d x r (insertOp o d op counted) fuel sl
          (A.getLast?.map Link.id) s = (sl', s') ∧
        sl'.WF dom w ∧ sl'.queue.links = G ++ C ∧ I s' (liveData sl'.queue.links) ∧
        (∀ g ∈ G, ∃ f ∈ A, Piece r K (Q s') f.val g.val) ∧ ∀ a b, Q s a b → Q s' a b := by
  induction A using List.reverseRecOn with
  | nil =>
    intro fuel C sl s hwf hl _ _ _ hI
    refine ⟨sl, s, [], ?_, hwf, hl, hI, by simp, fun _ _ h => h⟩
    cases fuel <;> rfl
  | append_singleton A f ih =>
    intro fuel C sl s hwf hl hfuel hF hS hI
    obtain ⟨n, rfl⟩ : ∃ n, fuel = n + 1 := ⟨fuel - 1, by simp at hfuel; omega⟩
    have hfm : f ∈ A ++ [f] := by simp
    rw [List.append_assoc, List.singleton_append] at hl
    by_cases hm : f.val.slice.Meets r
    · obtain ⟨sl₁, s₁, G₁, he, hwf₁, hl₁, hI₁, hG₁, hQ₁⟩ := changeData_some
        ho hc hr hwf hl hm (hS f hfm hm) hI
      rw [List.append_assoc] at hl₁
      obtain ⟨sl', s', G, he', hwf', hl', hI', hG, hQ'⟩ := ih n hwf₁ hl₁
        (by simpa using hfuel) (fun g hg => hF g (by simp [hg]))
        (fun g hg => hS g (by simp [hg])) hI₁
      refine ⟨sl', s', G ++ G₁, ?_, hwf', by rw [hl', List.append_assoc], hI', ?_, ?_⟩
      · simp only [List.getLast?_concat, Option.map_some, changeBackward]
        rw [he, Queue.prev?_mid hl]
        exact he'
      · intro c hcm
        rcases List.mem_append.mp hcm with hcm | hcm
        · obtain ⟨g, hg, hp⟩ := hG c hcm
          exact ⟨g, by simp [hg], hp⟩
        · exact ⟨f, hfm, (hG₁ c hcm).mono hQ'⟩
      · exact fun a b h => hQ' _ _ (hQ₁ _ _ h)
    · refine ⟨sl, s, A ++ [f], ?_, hwf, by simpa using hl, hI, ?_, fun _ _ h => h⟩
      · simp only [List.getLast?_concat, Option.map_some, changeBackward]
        rw [changeData_none ho hwf hr.proper hl hm]
      · intro c hcm
        refine ⟨c, hcm, Piece.refl hc ?_⟩
        rcases List.mem_append.mp hcm with hcA | hcf
        · exact hwf.not_meets_front hl (hF f hfm) hm c hcA
        · obtain rfl := List.mem_singleton.mp hcf
          exact hm

/-! ## The whole change -/

omit hc ho in
theorem applyChange_skip {b e : P} (h : 0 < beginEndCmp o b e) (func : OpFunc P σ D X) :
    sl.applyChange o d x b e func s = some (sl, s) := by
  rw [applyChange, if_pos h]

/-- **The change of a range**, for whichever of the overlapping slices the lookup
returns. -/
theorem applyChange_rule {b e : P} (hd : ∃ p, dom p) (hr : o.Fits dom w ⟨b, e⟩)
    (hmeet : w.Meets ⟨b, e⟩) (hwf : sl.WF dom w)
    (hS : ∀ l ∈ sl.queue.links, l.val.slice.Meets ⟨b, e⟩ → S l.val.data)
    (hI : I s (liveData sl.queue.links)) :
    ∃ sl' s', sl.applyChange o d x b e (insertOp o d op counted) s = some (sl', s') ∧
      sl'.WF dom w ∧ I s' (liveData sl'.queue.links) ∧
      ∀ l' ∈ sl'.queue.links, ∃ l ∈ sl.queue.links, Piece ⟨b, e⟩ K (Q s') l.val l'.val := by
  have hskip : ¬ 0 < beginEndCmp o b e := by
    rw [ho.beginEndCmp_pos hr.proper.lo_dom hr.proper.hi_dom]
    rintro ⟨h1, h2, h3⟩
    exact absurd ((hr.proper.le.resolve_left h1).resolve_left h2) (not_le.mpr h3)
  -- a point of the range is covered by some slice
  have hex : ∃ l ∈ sl.queue.links, l.val.slice.Meets ⟨b, e⟩ := by
    obtain ⟨p, hp, hpw, hpr⟩ := hmeet.exists_mem hd hwf.tiles.whole hr.proper
    obtain ⟨t, ht, hpt⟩ := hwf.tiles.cover hp hpw
    obtain ⟨l, hl, rfl⟩ := List.mem_map.mp ht
    exact ⟨l, hl, .of_mem hpt hpr⟩
  obtain ⟨l, hlm, hlook, hm⟩ := treeLookup_spec ho hwf hr.proper hex
  obtain ⟨A, F, hl⟩ := List.append_of_mem hlm
  have hlen : sl.queue.length = A.length + F.length + 1 := by
    rw [Queue.length, hl]
    simp
    omega
  obtain ⟨sl₁, s₁, C, he₁, hwf₁, hl₁, hI₁, hC, hQ₁⟩ :=
    changeForward_spec ho hc hr (l :: F) sl.queue.length hwf hl
      (by rw [hlen, List.length_cons]; omega)
      (List.forall_mem_cons.mpr ⟨hm.1, hwf.not_before_behind hl hm.1⟩)
      (fun f hf => hS f (by rw [hl]; exact List.mem_append_right _ hf)) hI
  obtain ⟨sl₂, s₂, G, he₂, hwf₂, hl₂, hI₂, hG, hQ₂⟩ :=
    changeBackward_spec ho hc hr A sl.queue.length hwf₁ hl₁
      (by omega) (hwf.not_before_front hl hm.2)
      (fun f hf => hS f (by rw [hl]; exact List.mem_append_left _ hf)) hI₁
  refine ⟨sl₂, s₂, ?_, hwf₂, hI₂, ?_⟩
  · rw [applyChange, if_neg hskip, changeRange, hlook]
    simp only
    rw [List.head?_cons, Option.map_some] at he₁
    rw [he₁, Queue.prev?_mid hl]
    simp only
    rw [he₂]
  · intro l' hl'
    rw [hl₂] at hl'
    rw [hl]
    rcases List.mem_append.mp hl' with hl' | hl'
    · obtain ⟨f, hf, hp⟩ := hG l' hl'
      exact ⟨f, List.mem_append_left _ hf, hp⟩
    · obtain ⟨f, hf, hp⟩ := hC l' hl'
      exact ⟨f, List.mem_append_right _ hf, hp.mono hQ₂⟩

end Change

end Slicer

end Mbb
