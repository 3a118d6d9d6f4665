import Mbb.MapChange
import Mathlib.Data.Multiset.Bind

/-!
# Removing entries from a map

`map_node_remove` and `map_remove_custom` take links out of the queues where they lie,
without touching the slices. Both come down to keeping the links that satisfy a
predicate (`MapQueue.keep`), and so do whole lists of nodes. `map_clear` releases
everything; `map_glue_null` only joins slices without entries.
-/

namespace Mbb

variable {P Q α ν : Type} [LinearOrder P] [Zero P] [LinearOrder Q] [Zero Q] [DecidableEq α]

/-! ## Keeping some links

All removals filter the links of all queues by a predicate. Here they are brought to that form, and
compositions of them too.
-/

/-- The queue with the links that satisfy `g`. -/
def MapQueue.keep (g : MapNode → α → Bool) (q : MapQueue Q α) : MapQueue Q α :=
  ⟨q.id, q.queue.keep fun l => g ⟨q.id, l.id⟩ l.val.data⟩

/-- The nodes of a map with their data. -/
def mapRegs (sl : MapSlicer P Q α) : Multiset (MapNode × α) :=
  ((Slicer.liveData sl.queue.links).map regsOf).sum

/-- `map_node_remove` for each node of a list. -/
def mapNodesRemove : List MapNode → Map P Q α → Option (Map P Q α)
  | [], m => some m
  | nd :: ns, m => (mapNodeRemove nd m).bind (mapNodesRemove ns)

section Keep

variable {g : MapNode → α → Bool} {q : MapQueue Q α} {sl : MapSlicer P Q α} {keys : SliceOps P}

omit [LinearOrder Q] [Zero Q] [DecidableEq α] in
theorem MapQueue.mem_regs {nd : MapNode} {a : α} :
    (nd, a) ∈ q.regs ↔ nd.queue = q.id ∧ ∃ e, ⟨nd.list, e⟩ ∈ q.queue.links ∧ e.data = a := by
  rw [regs, nodesOf, Multiset.mem_coe, List.mem_map]
  constructor
  · rintro ⟨l, hl, heq⟩
    obtain ⟨rfl, rfl⟩ := Prod.mk.inj heq
    exact ⟨rfl, l.val, hl, rfl⟩
  · rintro ⟨hid, e, hl, rfl⟩
    refine ⟨_, hl, ?_⟩
    rw [← hid]

omit [LinearOrder Q] [Zero Q] [DecidableEq α] in
theorem MapQueue.regs_keep : (q.keep g).regs = q.regs.filter fun x => g x.1 x.2 := by
  rw [regs, regs, nodesOf, nodesOf, Multiset.filter_coe, keep, Queue.keep, List.filter_map]
  simp only [Function.comp_def, Bool.decide_eq_true]

omit [LinearOrder Q] [Zero Q] [DecidableEq α] in
theorem regsOf_map_keep (a : Option (MapQueue Q α)) :
    regsOf (a.map (MapQueue.keep g)) = (regsOf a).filter fun x => g x.1 x.2 := by
  rcases a with _ | q
  · rfl
  · exact MapQueue.regs_keep

omit [LinearOrder P] [Zero P] [LinearOrder Q] [Zero Q] [DecidableEq α] in
theorem liveData_mapData {D : Type} (f : D → D) (sl : Slicer P D) :
    Slicer.liveData (sl.mapData f).queue.links =
      (Slicer.liveData sl.queue.links).map (Option.map f) := by
  rw [Slicer.liveData, Slicer.liveData, Multiset.map_coe, List.map_map]
  simp only [Slicer.mapData, Queue.mapVals, List.map_map]
  rfl

omit [LinearOrder P] [Zero P] [LinearOrder Q] [Zero Q] [DecidableEq α] in
theorem mapRegs_keep :
    mapRegs (sl.mapData (MapQueue.keep g)) = (mapRegs sl).filter fun x => g x.1 x.2 := by
  rw [mapRegs, mapRegs, liveData_mapData, Multiset.map_map]
  induction Slicer.liveData sl.queue.links using Multiset.induction with
  | empty => simp
  | cons a L ih =>
    simp only [Multiset.map_cons, Multiset.sum_cons, Multiset.filter_add]
    rw [ih, ← regsOf_map_keep]
    rfl

omit [LinearOrder P] [Zero P] [LinearOrder Q] [Zero Q] [DecidableEq α] in
theorem mem_mapRegs {x : MapNode × α} :
    x ∈ mapRegs sl ↔ ∃ l ∈ sl.queue.links, ∃ q, l.val.data = some q ∧ x ∈ q.regs := by
  rw [mapRegs]
  induction sl.queue.links with
  | nil => simp [Slicer.liveData]
  | cons l ls ih =>
    rw [Slicer.liveData_cons, Multiset.map_cons, Multiset.sum_cons, Multiset.mem_add, ih]
    simp only [List.mem_cons, exists_eq_or_imp]
    refine or_congr ?_ Iff.rfl
    rcases l.val.data with _ | q <;> simp [regsOf]

/-- Removal looks up the same slice as before. -/
theorem find_mapData {D : Type} (f : D → D) (sl : Slicer P D) (p : P) :
    (sl.mapData f).find keys p = (sl.find keys p).map f := by
  simp only [Slicer.find, Slicer.mapData]
  rcases sl.tree.lookup fun s => -sliceCmpPoint keys s p with _ | i
  · rfl
  · simp only [Queue.get?_mapVals]
    rcases sl.queue.get? i with _ | e
    · rfl
    · rfl

theorem wf_mapData {D : Type} {domK : P → Prop} {w : Span P} {sl : Slicer P D} (f : D → D)
    (h : sl.WF domK w) : (sl.mapData f).WF domK w := by
  constructor
  · have hs : Slicer.slicesOf (sl.mapData f).queue.links = Slicer.slicesOf sl.queue.links := by
      simp [Slicer.slicesOf, Slicer.mapData, Queue.mapVals]
    rw [hs]
    exact h.tiles
  · have hs := h.sync
    rw [Slicer.Sync] at hs ⊢
    simp only [Slicer.mapData, Queue.mapVals, List.map_map]
    exact hs

omit [LinearOrder P] [Zero P] in
theorem mapData_congr {D : Type} {f f' : D → D} {sl : Slicer P D}
    (h : ∀ l ∈ sl.queue.links, ∀ q, l.val.data = some q → f q = f' q) :
    sl.mapData f = sl.mapData f' := by
  have hq : sl.queue.mapVals (fun e => { e with data := e.data.map f }) =
      sl.queue.mapVals (fun e => { e with data := e.data.map f' }) := by
    refine Queue.ext (List.map_congr_left fun l hl => ?_) rfl
    have hd : l.val.data.map f = l.val.data.map f' := by
      rcases hq : l.val.data with _ | q
      · rfl
      · exact congrArg some (h l hl q hq)
    simp only [hd]
  rw [Slicer.mapData, Slicer.mapData, hq]

omit [LinearOrder P] [Zero P] in
theorem mapData_mapData {D : Type} (f f' : D → D) (sl : Slicer P D) :
    (sl.mapData f).mapData f' = sl.mapData (f' ∘ f) := by
  simp only [Slicer.mapData, Queue.mapVals, List.map_map]
  congr 2
  refine List.map_congr_left fun l _ => ?_
  simp only [Function.comp_apply, Option.map_map]

omit [LinearOrder P] [Zero P] in
theorem mapData_id {D : Type} {f : D → D} (h : ∀ q, f q = q) (sl : Slicer P D) :
    sl.mapData f = sl := by
  obtain rfl : f = id := funext h
  simp [Slicer.mapData, Queue.mapVals]

omit [LinearOrder P] [Zero P] [LinearOrder Q] [Zero Q] [DecidableEq α] in
/-- `map_node_remove` of a node of the map. -/
theorem mapNodeRemove_eq {nd : MapNode} {a : α} (hx : (nd, a) ∈ mapRegs sl) :
    mapNodeRemove nd (some sl) =
      some (some (sl.mapData (MapQueue.keep fun n _ => decide (n ≠ nd)))) := by
  obtain ⟨l, hl, q, hq, hx⟩ := mem_mapRegs.mp hx
  obtain ⟨hid, e, he, -⟩ := MapQueue.mem_regs.mp hx
  rw [mapNodeRemove, if_pos]
  · have hf : (fun q : MapQueue Q α => if q.id = nd.queue then q.deleteLink nd.list else q) =
        MapQueue.keep fun n _ => decide (n ≠ nd) := by
      funext q
      obtain ⟨i, j⟩ := nd
      by_cases hi : q.id = i
      · rw [if_pos hi, MapQueue.deleteLink, MapQueue.keep, Queue.deleteLink_eq_keep]
        congr 1
        exact Queue.keep_congr fun l _ => by simp [hi, bne, beq_eq_decide]
      · rw [if_neg hi, MapQueue.keep, Queue.keep_true]
        intro l _
        simp [hi]
    rw [hf]
  · rw [List.any_eq_true]
    refine ⟨l.val, List.mem_map_of_mem hl, ?_⟩
    rw [hq]
    have hg := Queue.get?_of_mem he
    simp only at hg
    simp [hid, hg]

omit [LinearOrder P] [Zero P] [LinearOrder Q] [Zero Q] [DecidableEq α] in
/-- `map_node_remove` of several nodes of the map. -/
theorem mapNodesRemove_eq (ns : List MapNode) : ∀ {sl : MapSlicer P Q α}, ns.Nodup →
    (∀ nd ∈ ns, ∃ a, (nd, a) ∈ mapRegs sl) →
    mapNodesRemove ns (some sl) =
      some (some (sl.mapData (MapQueue.keep fun n _ => decide (n ∉ ns)))) := by
  induction ns with
  | nil =>
    intro sl _ _
    rw [mapNodesRemove, mapData_id]
    intro q
    rw [MapQueue.keep, Queue.keep_true]
    simp
  | cons nd ns ih =>
    intro sl hn hx
    obtain ⟨hnd, hns⟩ := List.nodup_cons.mp hn
    obtain ⟨a, ha⟩ := hx nd List.mem_cons_self
    rw [mapNodesRemove, mapNodeRemove_eq ha, Option.bind_some, ih hns, mapData_mapData]
    · congr 3
      funext q
      simp only [Function.comp_apply, MapQueue.keep, Queue.keep_keep]
      congr 1
      refine Queue.keep_congr fun l _ => ?_
      by_cases h1 : (⟨q.id, l.id⟩ : MapNode) = nd <;>
        by_cases h2 : (⟨q.id, l.id⟩ : MapNode) ∈ ns <;> simp [h1, h2]
    · intro nd' hnd'
      obtain ⟨a', ha'⟩ := hx nd' (List.mem_cons_of_mem _ hnd')
      refine ⟨a', ?_⟩
      rw [mapRegs_keep, Multiset.mem_filter]
      refine ⟨ha', ?_⟩
      simp only [decide_eq_true_eq]
      rintro rfl
      exact hnd hnd'

omit [LinearOrder Q] [Zero Q] [DecidableEq α] in
/-- The loop of `map_data_remove_custom`. -/
theorem mapDataRemoveCustom_eq (cmp : α → Bool) (q : MapQueue Q α) :
    mapDataRemoveCustom cmp q = q.keep fun _ d => !cmp d := by
  have hloop : ∀ (ls : List (Link (MapEntry Q α))) (qu : Queue (MapEntry Q α)),
      ls.foldl (fun qu l => if cmp l.val.data then qu.deleteLink l.id else qu) qu =
        qu.keep fun l => !ls.any fun m => cmp m.val.data && m.id == l.id := by
    intro ls
    induction ls with
    | nil => exact fun qu => (Queue.keep_true (by simp)).symm
    | cons m ls ih =>
      intro qu
      rw [List.foldl_cons, ih]
      rcases hc : cmp m.val.data with _ | _
      · rw [if_neg (by simp)]
        exact Queue.keep_congr fun l _ => by simp [hc]
      · rw [if_pos rfl, Queue.deleteLink_eq_keep, Queue.keep_keep]
        refine Queue.keep_congr fun l _ => ?_
        simp [hc, bne, Bool.beq_comm]
  rw [mapDataRemoveCustom, hloop, MapQueue.keep]
  congr 1
  refine Queue.keep_congr fun l hl => congrArg _ ?_
  rcases hc : cmp l.val.data with _ | _
  · rw [List.any_eq_false]
    intro m hm
    by_cases hid : m.id = l.id
    · rw [Queue.eq_of_id_eq hm hl hid, hc]
      simp
    · simp [hid]
  · rw [List.any_eq_true]
    exact ⟨l, hl, by simp [hc]⟩

omit [LinearOrder P] [Zero P] [LinearOrder Q] [Zero Q] [DecidableEq α] in
theorem mapRemoveCustom_eq (cmp : α → Bool) (sl : MapSlicer P Q α) :
    mapRemoveCustom cmp (some sl) = some (sl.mapData (MapQueue.keep fun _ d => !cmp d)) :=
  congrArg (fun f => some (sl.mapData f)) (funext (mapDataRemoveCustom_eq cmp))

end Keep

/-! ## What is left

A filtered queue is in order, and what it has lost has no owner.
-/

section Rules

variable {R : ν → Multiset (MapNode × α) → Prop} {dom : Q → Prop} {ok : Span Q → Prop}
  {ops : SliceOps Q} {h : MapHandlers ν α} {keys : SliceOps P} {domK : P → Prop} {w : Span P}
  {sl : MapSlicer P Q α} {s : MapState Q α ν} {g : MapNode → α → Bool}

omit [DecidableEq α] in
/-- The owners among the entries kept. -/
theorem Ordered.ownerAt_filter {es : List (MapEntry Q α)} (ho : Ordered ok es) (g : α → Bool)
    (p : Q) : ownerAt (es.filter fun e => g e.data) p = (ownerAt es p).filter g := by
  induction es with
  | nil => rfl
  | cons e es ih =>
    obtain ⟨-, hes, hlt⟩ := Ordered.cons.mp ho
    by_cases hm : e.slice.Mem p
    · rw [ownerAt_cons, if_pos hm]
      rcases hg : g e.data with _ | _
      · -- the key was in `e`, so in none of the others
        rw [List.filter_cons_of_neg (by simp [hg]), Option.filter_some_neg (by simp [hg]),
          ownerAt_eq_none]
        intro b hb
        exact (hlt b (List.mem_of_mem_filter hb)).not_mem hm
      · rw [List.filter_cons_of_pos (by simp [hg]), ownerAt_cons, if_pos hm,
          Option.filter_some_pos hg]
    · rw [ownerAt_cons, if_neg hm, ← ih hes]
      rcases hg : g e.data with _ | _
      · rw [List.filter_cons_of_neg (by simp [hg])]
      · rw [List.filter_cons_of_pos (by simp [hg]), ownerAt_cons, if_neg hm]

omit [LinearOrder Q] [Zero Q] [DecidableEq α] in
theorem entries_keep (a : Option (MapQueue Q α)) (g : α → Bool) :
    MapQueue.entries (a.map (MapQueue.keep fun _ d => g d)) =
      (MapQueue.entries a).filter fun e => g e.data := by
  rcases a with _ | q
  · rfl
  · simp only [Option.map_some, MapQueue.entries, MapQueue.keep, Queue.keep, Queue.vals,
      List.filter_map]
    rfl

omit [LinearOrder Q] [Zero Q] [DecidableEq α] in
theorem contentAt_keep (sl : MapSlicer P Q α) (g : α → Bool) (p : P) :
    contentAt keys (sl.mapData (MapQueue.keep fun _ d => g d)) p =
      (contentAt keys sl p).filter fun e => g e.data := by
  rw [contentAt, find_mapData, entries_keep]
  rfl

omit [DecidableEq α] in
/-- Keeping some links keeps the map in order. -/
theorem MapOK.keep (hm : MapOK R domK w ok sl s) {n : ν}
    (hreg : R n ((mapRegs sl).filter fun x => g x.1 x.2)) :
    MapOK R domK w ok (sl.mapData (MapQueue.keep g)) { s with nodes := n } := by
  have haddr : addresses (Slicer.liveData (sl.mapData (MapQueue.keep g)).queue.links) =
      addresses (Slicer.liveData sl.queue.links) := by
    rw [liveData_mapData, addresses, addresses, Multiset.filterMap_map]
    congr 1
    funext a
    rcases a with _ | q <;> rfl
  refine ⟨wf_mapData _ hm.wf, ?_, ?_, ?_, ?_⟩
  · rw [← mapRegs_keep] at hreg
    exact hreg
  · rw [haddr]
    exact hm.live.nodup
  · rw [haddr]
    exact hm.live.lt
  · intro a ha
    rw [liveData_mapData] at ha
    obtain ⟨b, hb, rfl⟩ := Multiset.mem_map.mp ha
    have hord := hm.live.ordered b hb
    rcases b with _ | q
    · exact .nil
    · exact hord.sublist (List.filter_sublist.map Link.val)

omit [LinearOrder Q] [Zero Q] [DecidableEq α] in
/-- No node occurs twice. -/
theorem nodup_nodes {L : Multiset (Option (MapQueue Q α))} (hn : (addresses L).Nodup) :
    ((L.map regsOf).sum.map Prod.fst).Nodup := by
  induction L using Multiset.induction with
  | empty => simp
  | cons a L ih =>
    rcases a with _ | q
    · simpa [regsOf] using ih (by simpa using hn)
    · rw [addresses_some, Multiset.nodup_cons] at hn
      rw [Multiset.map_cons, Multiset.sum_cons, Multiset.map_add, Multiset.nodup_add]
      refine ⟨?_, ih hn.2, ?_⟩
      · have hq : (q.queue.links.map fun l => (⟨q.id, l.id⟩ : MapNode)).Nodup := by
          have := q.queue.nodup.map (f := fun i => (⟨q.id, i⟩ : MapNode))
            fun i j hij => (MapNode.mk.inj hij).2
          simpa [Function.comp_def] using this
        simpa [regsOf, MapQueue.regs, nodesOf, Function.comp_def] using hq
      · -- the other queues have other addresses
        rw [Multiset.disjoint_left]
        intro nd hnd hnd'
        obtain ⟨x, hx, rfl⟩ := Multiset.mem_map.mp hnd
        obtain ⟨y, hy, hxy⟩ := Multiset.mem_map.mp hnd'
        obtain ⟨M, hM, hyM⟩ := Multiset.mem_join.mp hy
        obtain ⟨b, hb, rfl⟩ := Multiset.mem_map.mp hM
        rcases b with _ | q'
        · simp [regsOf] at hyM
        · have h1 := (MapQueue.mem_regs (a := x.2)).mp hx
          have h2 := (MapQueue.mem_regs (a := y.2)).mp hyM
          refine hn.1 ?_
          rw [addresses, Multiset.mem_filterMap]
          refine ⟨some q', hb, ?_⟩
          rw [Option.map_some, ← h2.1, hxy, h1.1]

omit [LinearOrder P] [Zero P] in
/-- `map_clear` withdraws all nodes. -/
theorem mapClear_rule (ops : SliceOps Q) (hR : h.Tracks R) (sl : MapSlicer P Q α)
    (hL : Live R ok s (Slicer.liveData sl.queue.links)) :
    ∃ n, mapClear ops h (some sl) s = (none, { s with nodes := n }) ∧ R n 0 := by
  have hloop : ∀ (ls : List (Link (SlicerEntry P (MapQueue Q α)))) {s : MapState Q α ν},
      Live R ok s (Slicer.liveData ls) →
      ∃ n, (ls.map Link.val).foldl (fun s entry =>
          entry.data.elim s fun data => (mapDataOps ops h).free data s) s = { s with nodes := n } ∧
        R n 0 := by
    intro ls
    induction ls with
    | nil => exact fun {s} hL => ⟨s.nodes, rfl, by simpa [Slicer.liveData] using hL.reg⟩
    | cons l ls ih =>
      intro s hL
      rw [Slicer.liveData_cons] at hL
      rw [List.map_cons, List.foldl_cons]
      rcases hd : l.val.data with _ | q
      · rw [hd] at hL
        exact ih (Live.null.mp hL)
      · rw [hd] at hL
        obtain ⟨n, he, hr⟩ := mapDataFree_spec (M := ((Slicer.liveData ls).map regsOf).sum) hR
          (by simpa [regsOf] using hL.reg)
        have hfree : (mapDataOps ops h).free q s = { s with nodes := n } := he
        rw [Option.elim_some, hfree]
        exact ih (hL.tail hr)
  obtain ⟨n, he, hr⟩ := hloop sl.queue.links hL
  refine ⟨n, ?_, hr⟩
  rw [mapClear, ← he, Slicer.destroy]
  congr 2
  funext s e
  rcases e.data with _ | q <;> rfl

omit [LinearOrder Q] [Zero Q] [DecidableEq α] in
/-- The entries at a key after gluing. -/
theorem contentAt_glued {sl' : MapSlicer P Q α} (ho : keys.Lawful domK) (hwf : sl.WF domK w)
    (hwf' : sl'.WF domK w)
    (hglued : ∀ l' ∈ sl'.queue.links, Slicer.Glued domK mapDataIsNull sl.queue.links l') {p : P}
    (hp : domK p) (hw : w.Mem p) : contentAt keys sl' p = contentAt keys sl p := by
  obtain ⟨l', hl', hm', hf'⟩ := hwf'.exists_mem ho hp hw
  obtain ⟨l, hl, hlm, hcase⟩ := hglued l' hl' p hp hm'
  rw [contentAt, contentAt, hf', Slicer.find_of_mem ho hwf hp hl hlm]
  rcases hcase with heq | ⟨hnone, hnull⟩
  · rw [heq]
  · -- an empty queue was replaced by `NULL`
    rw [hnone]
    rcases hd : l.val.data with _ | q
    · rfl
    · rw [hd] at hnull
      have hlen : q.queue.length = 0 := by simpa [mapDataIsNull] using hnull
      have hnil : q.queue.links = [] := List.length_eq_zero_iff.mp hlen
      rw [MapQueue.entries, MapQueue.entries, Queue.vals, hnil]
      rfl

/-- `map_glue_null` keeps the entries at every key. -/
theorem mapGlueNull_rule [TreeShape P] (ops : SliceOps Q) (ho : keys.Lawful domK)
    (hR : h.Tracks R) (hm : MapOK R domK w ok sl s) :
    ∃ sl' s', mapGlueNull ops h keys (some sl) s = (some sl', s') ∧ MapOK R domK w ok sl' s' ∧
      s'.cross = s.cross ∧
      ∀ p, domK p → w.Mem p → contentAt keys sl' p = contentAt keys sl p := by
  obtain ⟨sl', s', he, hwf, ⟨hL, hc⟩, hglued⟩ := Slicer.glueNull_rule (d := mapDataOps ops h)
    (I := fun s' L => Live R ok s' L ∧ s'.cross = s.cross) ho
    (fun {s' L} => and_congr_left fun _ => Live.null)
    (fun {s' q L} _ hI => by
      obtain ⟨h1, h2⟩ := mapDataFree_live hR hI.1
      exact ⟨h1, h2.trans hI.2⟩) rfl hm.wf ⟨hm.live, rfl⟩
  exact ⟨sl', s', by rw [mapGlueNull, he], ⟨hwf, hL⟩, hc,
    fun p hp hw => contentAt_glued ho hm.wf hwf hglued hp hw⟩

end Rules

end Mbb
