import Mbb.MapRun

/-!
# Searching and gluing a map

`slicer_search` starts at whichever slice the tree finds and goes on in both directions while the
slices meet the range. The slices are in order, so it sees all that meet it. `map_search` then
looks through their queues. `map_glue_null` changes the slices and nothing that is found in them.
-/

namespace Mbb

variable {P Q α ν : Type} [LinearOrder P] [Zero P] [LinearOrder Q] [Zero Q]

/-! ## The slices of a search

From the slice where the tree stops the search goes in both directions as long as slices meet the
range. Since they are in order, it sees them all.
-/

namespace Slicer

variable {D : Type} {dom : P → Prop} {w r : Span P} {o : SliceOps P} {sl : Slicer P D}
  {A B : List (Link (SlicerEntry P D))} {l : Link (SlicerEntry P D)} {x : D}

section

variable (ho : o.Lawful dom)
include ho

/-- The loop towards the tail sees the links of `F` that meet the range: none of them is before
the range, so the first one it does not meet is behind it. -/
theorem mem_searchForward (hwf : sl.WF dom w) (hr : r.Proper dom)
    (F : List (Link (SlicerEntry P D))) :
    ∀ {fuel : ℕ} {A : List (Link (SlicerEntry P D))} {queue : List D},
      sl.queue.links = A ++ F → F.length ≤ fuel → (∀ f ∈ F, ¬ f.val.slice.Before r) →
      (x ∈ sl.searchForward o r fuel (F.head?.map Link.id) queue ↔
        x ∈ queue ∨ ∃ f ∈ F, f.val.slice.Meets r ∧ f.val.data = some x) := by
  induction F with
  | nil =>
    intro fuel A queue _ _ _
    cases fuel <;> simp [searchForward]
  | cons f F ih =>
    intro fuel A queue hl hfuel hF
    obtain ⟨n, rfl⟩ : ∃ n, fuel = n + 1 := ⟨fuel - 1, by simp at hfuel; omega⟩
    have hpf : f.val.slice.Proper dom := hwf.proper (hl ▸ by simp)
    have hz : sliceCmp o r f.val.slice = 0 ↔ f.val.slice.Meets r :=
      (ho.sliceCmp_eq_zero hr hpf).trans ⟨Span.Meets.symm, Span.Meets.symm⟩
    simp only [List.head?_cons, Option.map_some, searchForward]
    rw [Queue.get?_mid hl, Queue.next?_mid hl]
    simp only
    by_cases hm : f.val.slice.Meets r
    · rw [if_neg (not_not.mpr (hz.mpr hm)), ih (A := A ++ [f]) (by simpa using hl)
        (by simpa using hfuel) fun g hg => hF g (List.mem_cons_of_mem _ hg)]
      simp only [List.mem_append, Option.mem_toList, List.exists_mem_cons_iff, hm, true_and,
        or_assoc]
    · rw [if_pos fun h => hm (hz.mp h)]
      refine ⟨Or.inl, fun h => h.resolve_right ?_⟩
      rintro ⟨g, hg, hgm, -⟩
      rcases List.mem_cons.mp hg with rfl | hg
      · exact hm hgm
      · exact hwf.not_meets_behind hl (hF f List.mem_cons_self) hm g hg hgm

/-- The loop towards the head, in the same way for links none of which is behind the range. -/
theorem mem_searchBackward (hwf : sl.WF dom w) (hr : r.Proper dom)
    (A : List (Link (SlicerEntry P D))) :
    ∀ {fuel : ℕ} {B : List (Link (SlicerEntry P D))} {queue : List D},
      sl.queue.links = A ++ B → A.length ≤ fuel → (∀ f ∈ A, ¬ r.Before f.val.slice) →
      (x ∈ sl.searchBackward o r fuel (A.getLast?.map Link.id) queue ↔
        x ∈ queue ∨ ∃ f ∈ A, f.val.slice.Meets r ∧ f.val.data = some x) := by
  induction A using List.reverseRecOn with
  | nil =>
    intro fuel B queue _ _ _
    cases fuel <;> simp [searchBackward]
  | append_singleton A f ih =>
    intro fuel B queue hl hfuel hF
    obtain ⟨n, rfl⟩ : ∃ n, fuel = n + 1 := ⟨fuel - 1, by simp at hfuel; omega⟩
    rw [List.append_assoc, List.singleton_append] at hl
    have hpf : f.val.slice.Proper dom := hwf.proper (hl ▸ by simp)
    have hz : sliceCmp o r f.val.slice = 0 ↔ f.val.slice.Meets r :=
      (ho.sliceCmp_eq_zero hr hpf).trans ⟨Span.Meets.symm, Span.Meets.symm⟩
    simp only [List.getLast?_concat, Option.map_some, searchBackward]
    rw [Queue.get?_mid hl, Queue.prev?_mid hl]
    simp only
    by_cases hm : f.val.slice.Meets r
    · rw [if_neg (not_not.mpr (hz.mpr hm)), ih (B := f :: B) hl
        (by simpa using hfuel) fun g hg => hF g (by simp [hg])]
      simp only [List.mem_append, Option.mem_toList, List.mem_singleton, or_and_right, exists_or,
        exists_eq_left, hm, true_and, or_assoc, or_comm]
    · rw [if_pos fun h => hm (hz.mp h)]
      refine ⟨Or.inl, fun h => h.resolve_right ?_⟩
      rintro ⟨g, hg, hgm, -⟩
      rcases List.mem_append.mp hg with hg | hg
      · exact hwf.not_meets_front hl (hF f (by simp)) hm g hg hgm
      · obtain rfl := List.mem_singleton.mp hg
        exact hm hgm

/-- **`slicer_search`** finds the data of the slices that meet the range. -/
theorem search_spec {b e : P} (hwf : sl.WF dom w) (hr : Span.Proper dom ⟨b, e⟩)
    (hcr : Crosses dom w ⟨b, e⟩) :
    ∃ found, sl.search o b e = some found ∧
      ∀ x, x ∈ found.getD [] ↔
        ∃ l ∈ sl.queue.links, l.val.slice.Meets ⟨b, e⟩ ∧ l.val.data = some x := by
  obtain ⟨p, hp, hwp, hrp⟩ := hcr
  obtain ⟨l₀, hl₀, hm₀, -⟩ := hwf.exists_mem ho hp hwp
  obtain ⟨l, hlm, hlook, hm⟩ := treeLookup_spec ho hwf hr ⟨l₀, hl₀, .of_mem hm₀ hrp⟩
  obtain ⟨A, F, hl⟩ := List.append_of_mem hlm
  have hlen : sl.queue.length = A.length + F.length + 1 := by
    rw [Queue.length, hl]
    simp
    omega
  refine ⟨_, by rw [search, hlook]; simp only; rw [Queue.get?_mid hl], fun x => ?_⟩
  rw [Queue.next?_mid hl, Queue.prev?_mid hl]
  have hget : ∀ q : List D, (if q.length = 0 then none else some q).getD [] = q := by
    intro q
    split
    · exact (List.length_eq_zero_iff.mp ‹_›).symm
    · rfl
  rw [hget, mem_searchBackward ho hwf hr A hl (by omega) ?_,
    mem_searchForward ho hwf hr F (A := A ++ [l]) (by simpa using hl) (by omega) ?_, hl]
  · simp only [List.mem_append, List.mem_cons, Option.mem_toList, or_and_right, exists_or,
      exists_eq_left, hm, true_and, or_comm, or_left_comm]
  · exact hwf.not_before_behind hl hm.1
  · exact hwf.not_before_front hl hm.2

/-- Outside the range of a slicer there is nothing. -/
theorem find_outside (hwf : sl.WF dom w) {p : P} (hp : dom p) (hw : ¬ w.Mem p) :
    sl.find o p = none := by
  rw [find]
  rcases hlook : sl.tree.lookup fun s => -sliceCmpPoint o s p with _ | i
  · rfl
  · obtain ⟨k, hk, hz⟩ := Tree.lookup_mem hlook
    rw [hwf.sync] at hk
    obtain ⟨l, hl, heq⟩ := List.mem_map.mp hk
    obtain ⟨rfl, rfl⟩ := Prod.mk.inj heq
    have hm : l.val.slice.Mem p := (ho.sliceCmpPoint_eq_zero (hwf.proper hl) hp).mp (by omega)
    exact absurd (hwf.tiles.sub (mem_slicesOf hl) hm) hw

end

end Slicer

/-! ## The entries of a search

In the queue of each such slice the entries that meet the second range are taken.
-/

section Search

variable {dom : Q → Prop} {domK : P → Prop} {w key : Span P} {dkey : Span Q} {ops : SliceOps Q}
  {keys : SliceOps P} {sl : MapSlicer P Q α}

theorem mem_mapDataSearch {a : α} (es : List (MapEntry Q α)) :
    ∀ {found : List α}, a ∈ mapDataSearch ops dkey es found ↔
      a ∈ found ∨ ∃ e ∈ es, sliceCmp ops dkey e.slice = 0 ∧ e.data = a := by
  induction es with
  | nil => simp [mapDataSearch]
  | cons e es ih =>
    intro found
    rw [mapDataSearch, ih]
    by_cases hz : sliceCmp ops dkey e.slice = 0
    · rw [if_pos hz, List.mem_cons, List.exists_mem_cons_iff, and_iff_right hz, eq_comm, or_assoc,
        or_left_comm]
    · rw [if_neg hz, List.exists_mem_cons_iff]
      simp only [hz, false_and, false_or]

theorem mem_foldl_mapDataSearch {a : α} (qs : List (MapQueue Q α)) :
    ∀ {found : List α},
      a ∈ qs.foldl (fun found q => mapDataSearch ops dkey q.queue.vals found) found ↔
        a ∈ found ∨ ∃ q ∈ qs, ∃ e ∈ q.queue.vals, sliceCmp ops dkey e.slice = 0 ∧ e.data = a := by
  induction qs with
  | nil => simp
  | cons q qs ih =>
    intro found
    rw [List.foldl_cons, ih, mem_mapDataSearch, List.exists_mem_cons_iff, or_assoc]

/-- What `map_search` finds: entries that meet the second range, in slices that meet the first. -/
theorem mapSearch_spec (ops : SliceOps Q) (dkey : Slice Q) (ho : keys.Lawful domK)
    (hwf : sl.WF domK w) (hkey : key.Proper domK) (hcr : Slicer.Crosses domK w key) :
    ∃ found, mapSearch ops keys (some sl) key dkey = some found ∧
      ∀ a, a ∈ found ↔ ∃ l ∈ sl.queue.links, l.val.slice.Meets key ∧
        ∃ e ∈ MapQueue.entries l.val.data, sliceCmp ops dkey e.slice = 0 ∧ e.data = a := by
  obtain ⟨keyQueue, hs, hmem⟩ := Slicer.search_spec ho hwf hkey hcr
  have hqueues : ∀ a, (∃ q ∈ keyQueue.getD [], ∃ e ∈ q.queue.vals,
      sliceCmp ops dkey e.slice = 0 ∧ e.data = a) ↔
      ∃ l ∈ sl.queue.links, l.val.slice.Meets key ∧
        ∃ e ∈ MapQueue.entries l.val.data, sliceCmp ops dkey e.slice = 0 ∧ e.data = a := by
    intro a
    constructor
    · rintro ⟨q, hq, hex⟩
      obtain ⟨l, hl, hm, hd⟩ := (hmem q).mp hq
      refine ⟨l, hl, hm, ?_⟩
      rw [hd]
      exact hex
    · rintro ⟨l, hl, hm, hex⟩
      rcases hd : l.val.data with _ | q
      · rw [hd] at hex
        obtain ⟨e, he, -⟩ := hex
        cases he
      · rw [hd] at hex
        exact ⟨q, (hmem q).mpr ⟨l, hl, hm, hd⟩, hex⟩
  refine ⟨_, by rw [mapSearch, hs, Option.map_some], fun a => ?_⟩
  rw [← hqueues a]
  cases keyQueue with
  | none => simp
  | some qs => exact (mem_foldl_mapDataSearch qs).trans (by simp)

/-- **Search.** For every map whose slices tile the keys and whose queues are in order, `map_search`
returns the owners that `map_find` finds at the points of the two ranges. -/
theorem map_search_owners (ho : keys.Lawful domK) (hq : ops.Lawful dom) (hwf : sl.WF domK w)
    (hord : ∀ e ∈ sl.entries, Ordered (Span.Proper dom) (MapQueue.entries e.data))
    (hkey : key.Proper domK) (hcr : Slicer.Crosses domK w key) (hdkey : dkey.Proper dom)
    (hne : ∃ d, dom d ∧ dkey.Mem d) :
    ∃ found, mapSearch ops keys (some sl) key dkey = some found ∧
      ∀ a, a ∈ found ↔ ∃ k d, domK k ∧ key.Mem k ∧ dom d ∧ dkey.Mem d ∧
        mapFind ops keys (some sl) k d = some (some a) := by
  have hj : ops.Joins dom (Span.Proper dom) := ⟨hq, id, fun ha hb hab => ha.join hb hab⟩
  have hlink : ∀ l ∈ sl.queue.links,
      Ordered (Span.Proper dom) (MapQueue.entries l.val.data) := fun l hl =>
    hord l.val (List.mem_map_of_mem hl)
  obtain ⟨found, hs, hmem⟩ := mapSearch_spec ops dkey ho hwf hkey hcr
  refine ⟨found, hs, fun a => (hmem a).trans ⟨?_, ?_⟩⟩
  · rintro ⟨l, hl, hlm, e, he, hz, rfl⟩
    -- a point that the slice and the entry have in common with the ranges
    obtain ⟨k, hk, hkl, hkk⟩ := hlm.exists_mem (hcr.imp fun _ h => h.1) (hwf.proper hl) hkey
    have hpe := (hlink l hl).ok e he
    obtain ⟨d, hd, hdd, hde⟩ := ((hq.sliceCmp_eq_zero hdkey hpe).mp hz).exists_mem
      (hne.imp fun _ h => h.1) hdkey hpe
    refine ⟨k, d, hk, hkk, hd, hdd, ?_⟩
    rw [mapFind, Option.map_some, Slicer.find_of_mem ho hwf hk hl hkl,
      mapDataFind_eq hj hd _ (hlink l hl), (hlink l hl).ownerAt_of_mem he hde]
  · rintro ⟨k, d, hk, hkk, hd, hdd, hf⟩
    by_cases hw : w.Mem k
    · obtain ⟨l, hl, hkl, hfind⟩ := hwf.exists_mem ho hk hw
      rw [mapFind, Option.map_some, hfind, mapDataFind_eq hj hd _ (hlink l hl)] at hf
      obtain ⟨e, he, hde, hea⟩ := ownerAt_mem (Option.some.inj hf)
      refine ⟨l, hl, .of_mem hkl hkk, e, he, ?_, hea⟩
      exact (hq.sliceCmp_eq_zero hdkey ((hlink l hl).ok e he)).mpr (.of_mem hdd hde)
    · rw [mapFind, Option.map_some, Slicer.find_outside ho hwf hk hw] at hf
      cases hf

end Search

/-- Two owners at some keys, and a search that is open at one end of each range. -/
theorem map_search_owners_open :
    letI := TreeShape.plain ℤ
    ∃ sl s, runMap intOps (MapHandlers.null ℕ) intOps
        [.add ⟨1, 5⟩ ⟨-2, -1⟩ 7, .add ⟨3, 9⟩ ⟨1, 4⟩ 8]
        (some ((Slicer.new : MapSlicer ℤ ℤ ℕ).init intOps 0 0)) ⟨0, (), none⟩ =
        some (some sl, s) ∧
      ∃ found, mapSearch intOps intOps (some sl) ⟨4, 0⟩ ⟨0, 1⟩ = some found ∧
        ∀ a, a ∈ found ↔ ∃ k d : ℤ, k ≠ 0 ∧ Span.Mem ⟨4, 0⟩ k ∧ d ≠ 0 ∧ Span.Mem ⟨0, 1⟩ d ∧
          mapFind intOps intOps (some sl) k d = some (some a) := by
  let _ := TreeShape.plain ℤ
  have hproper : ∀ {b e : ℤ}, b = 0 ∨ e = 0 ∨ b ≤ e → Span.Proper (· ≠ 0) (⟨b, e⟩ : Span ℤ) :=
    fun h => ⟨id, id, h⟩
  obtain ⟨sl, s, he, hm⟩ := runMap_ok (w := ⟨0, 0⟩) (h := MapHandlers.null ℕ)
    intOps_exact.lawful intOps_exact.neighbours intOps_exact
    [.add ⟨1, 5⟩ ⟨-2, -1⟩ 7, .add ⟨3, 9⟩ ⟨1, 4⟩ 8] (by
      intro a ha
      simp only [List.mem_cons, List.not_mem_nil, or_false] at ha
      rcases ha with rfl | rfl
      · exact ⟨1, -1, by decide, by decide, by decide, by decide, by decide⟩
      · exact ⟨3, 1, by decide, by decide, by decide, by decide, by decide⟩)
    (mapOK_init (R := fun _ _ => True) (s := ⟨0, (), none⟩) intOps_exact.lawful
      (hproper (Or.inl rfl)) trivial)
  refine ⟨sl, s, he, map_search_owners intOps_exact.lawful intOps_exact.lawful hm.wf ?_
    (hproper (by decide)) ⟨4, by decide, by decide, by decide⟩ (hproper (by decide))
    ⟨1, by decide, by decide⟩⟩
  intro e hent
  obtain ⟨l, hl, rfl⟩ := List.mem_map.mp hent
  exact hm.live.ordered _ (mem_liveData hl)

/-! ## Gluing

Slices without entries are joined; nothing that can be looked up changes.
-/

/-- **Gluing is invisible.** For every map whose slices tile the keys, `map_glue_null` ends. The
slices tile the same keys and the tree holds them; `map_find` finds the same at every point; the
slices with a queue that is not empty are kept with their queues; and of two neighbours one is such
a slice. -/
theorem map_glue_invisible [TreeShape P] [DecidableEq α] {domK : P → Prop} {w : Span P}
    {keys : SliceOps P} {sl : MapSlicer P Q α} (ops : SliceOps Q) (h : MapHandlers ν α)
    (ho : keys.Lawful domK) (hwf : sl.WF domK w) (s : MapState Q α ν) :
    ∃ sl' s', Slicer.GlueNulls keys (mapDataOps ops h) mapDataIsNull sl sl.queue.head? none none s
        (sl', s') ∧
      mapGlueNull ops h keys (some sl) s = (some sl', s') ∧ sl'.WF domK w ∧
      (∀ k d, domK k → mapFind ops keys (some sl') k d = mapFind ops keys (some sl) k d) ∧
      (sl'.entries.filter fun e => !mapDataIsNull e.data) =
        (sl.entries.filter fun e => !mapDataIsNull e.data) ∧
      sl'.entries.IsChain fun a b => ¬ (mapDataIsNull a.data ∧ mapDataIsNull b.data) := by
  obtain ⟨sl', s', he, hrun, hwf', -, hglued, hspread⟩ := Slicer.glueNull_run
    (d := mapDataOps ops h) (s := s) (I := fun _ _ => True) ho Iff.rfl (fun _ _ => trivial) rfl hwf
    trivial
  obtain ⟨hfull, hapart⟩ := hspread rfl
  refine ⟨sl', s', hrun, by rw [mapGlueNull, he], hwf', fun k d hk => ?_, ?_, ?_⟩
  · have hcont : contentAt keys sl' k = contentAt keys sl k := by
      by_cases hw : w.Mem k
      · exact contentAt_glued ho hwf hwf' hglued hk hw
      · rw [contentAt, contentAt, Slicer.find_outside ho hwf hk hw,
          Slicer.find_outside ho hwf' hk hw]
    rw [mapFind, mapFind, Option.map_some, Option.map_some]
    exact congrArg (fun es => some (mapDataFind ops d es)) hcont
  · rw [Slicer.entries, Slicer.entries, Queue.vals, Queue.vals, List.filter_map, List.filter_map]
    exact congrArg (List.map Link.val) hfull
  · rw [Slicer.entries, Queue.vals, List.isChain_map]
    refine hapart.imp fun a b hab hnull => ?_
    simp only [Slicer.isFull, hnull.1, hnull.2, Bool.not_true, Bool.false_eq_true, or_self] at hab

/-- A map in which two slices have lost their queues is glued. -/
theorem map_glue_invisible_deleted :
    letI := TreeShape.plain ℤ
    ∃ sl s, runMap intOps (MapHandlers.null ℕ) intOps
        [.add ⟨1, 5⟩ ⟨-2, -1⟩ 7, .add ⟨6, 9⟩ ⟨1, 4⟩ 8, .del ⟨1, 5⟩ ⟨0, 0⟩ none]
        (some ((Slicer.new : MapSlicer ℤ ℤ ℕ).init intOps 0 0)) ⟨0, (), none⟩ =
        some (some sl, s) ∧
      ∃ sl' s', mapGlueNull intOps (MapHandlers.null ℕ) intOps (some sl) s = (some sl', s') ∧
        sl'.WF (· ≠ 0) ⟨0, 0⟩ := by
  let _ := TreeShape.plain ℤ
  obtain ⟨sl, s, he, hm⟩ := runMap_ok (w := ⟨0, 0⟩) (h := MapHandlers.null ℕ)
    intOps_exact.lawful intOps_exact.neighbours intOps_exact
    [.add ⟨1, 5⟩ ⟨-2, -1⟩ 7, .add ⟨6, 9⟩ ⟨1, 4⟩ 8, .del ⟨1, 5⟩ ⟨0, 0⟩ none] (by
      intro a ha
      simp only [List.mem_cons, List.not_mem_nil, or_false] at ha
      rcases ha with rfl | rfl | rfl
      · exact ⟨1, -1, by decide, by decide, by decide, by decide, by decide⟩
      · exact ⟨6, 1, by decide, by decide, by decide, by decide, by decide⟩
      · exact ⟨1, 1, by decide, by decide, by decide, by decide, by decide⟩)
    (mapOK_init (R := fun _ _ => True) (s := ⟨0, (), none⟩) intOps_exact.lawful
      ⟨id, id, Or.inl rfl⟩ trivial)
  obtain ⟨sl', s', -, hglue, hwf, -⟩ := map_glue_invisible intOps (MapHandlers.null ℕ)
    intOps_exact.lawful hm.wf s
  exact ⟨sl, s, he, sl', s', hglue, hwf⟩

end Mbb
