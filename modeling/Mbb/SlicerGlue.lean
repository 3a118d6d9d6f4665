import Mbb.SlicerChange
import Mathlib.Data.List.Chain

/-!
# Lookup, creation and gluing of a slicer

`slicer_find` returns the data of the slice a point is in. `slicer_glue_null`
replaces each run of entries without data by one entry with `NULL` data; what it
does to a point is seen through `Glued`.
-/

namespace Mbb

namespace Slicer

variable {P : Type} [LinearOrder P] [Zero P] {σ D X : Type}
  {dom : P → Prop} {w : Span P} {o : SliceOps P} {d : SliceDataOps σ D X}
  {sl : Slicer P D} {A B : List (Link (SlicerEntry P D))} {l : Link (SlicerEntry P D)} {s : σ}

/-! ## Lookup -/

section Find

variable (ho : o.Lawful dom)
include ho

/-- A lookup returns the data of the slice the point is in. -/
theorem find_of_mem (hwf : sl.WF dom w) {p : P} (hp : dom p) (hl : l ∈ sl.queue.links)
    (hm : l.val.slice.Mem p) : sl.find o p = l.val.data := by
  have hdir : Tree.Directed (fun t => -sliceCmpPoint o t p) sl.tree.toList := by
    rw [hwf.sync]
    refine List.pairwise_map.mpr (hwf.pairwise.imp_of_mem ?_)
    rintro a b ha hb ⟨h1, h2, h3⟩
    have hpa := ho.sliceCmpPoint_cases (hwf.proper ha) hp
    have hpb := ho.sliceCmpPoint_cases (hwf.proper hb) hp
    constructor
    · intro hneg
      -- `p` lies before `a`, hence before `b`
      rcases hpa with ⟨h, -⟩ | ⟨-, h0, hlt⟩ | ⟨h, -⟩
      · simp only [h] at hneg
        omega
      · have hle := ((hwf.proper ha).le.resolve_left h0).resolve_left h1
        rcases hpb with ⟨-, hmb⟩ | ⟨h, -⟩ | ⟨-, hb0, hlt'⟩
        · have := hmb.1.resolve_left h2
          order
        · simp [h]
        · have := ((hwf.proper hb).le.resolve_left h2).resolve_left hb0
          order
      · simp only [h] at hneg
        omega
    · intro hpos
      -- `p` lies after `b`, hence after `a`
      rcases hpb with ⟨h, -⟩ | ⟨h, -⟩ | ⟨-, h0, hlt⟩
      · simp only [h] at hpos
        omega
      · simp only [h] at hpos
        omega
      · have hle := ((hwf.proper hb).le.resolve_left h2).resolve_left h0
        rcases hpa with ⟨-, hma⟩ | ⟨-, ha0, hlt'⟩ | ⟨h, -⟩
        · have := hma.2.resolve_left h1
          order
        · have := ((hwf.proper ha).le.resolve_left ha0).resolve_left h1
          order
        · simp [h]
  have hmem : (l.val.slice, l.id) ∈ sl.tree.toList := by
    rw [hwf.sync]
    exact List.mem_map_of_mem hl
  have hz : -sliceCmpPoint o l.val.slice p = 0 := by
    rw [(ho.sliceCmpPoint_eq_zero (hwf.proper hl) hp).mpr hm]
    rfl
  obtain ⟨i, hi⟩ := Tree.lookup_isSome hdir hmem hz
  obtain ⟨k, hk, hz'⟩ := Tree.lookup_mem hi
  rw [hwf.sync] at hk
  obtain ⟨l', hl', heq⟩ := List.mem_map.mp hk
  obtain ⟨rfl, rfl⟩ := Prod.mk.inj heq
  have hm' : l'.val.slice.Mem p :=
    (ho.sliceCmpPoint_eq_zero (hwf.proper hl') hp).mp (by omega)
  obtain rfl := eq_of_mem_of_before (f := fun l => l.val.slice) hwf.pairwise hl hl' hm hm'
  rw [find, hi]
  simp only
  rw [Queue.get?_of_mem hl]
  rfl

/-- Every point of the range is in the slice of one link. -/
theorem WF.exists_mem (hwf : sl.WF dom w) {p : P} (hp : dom p) (hw : w.Mem p) :
    ∃ l ∈ sl.queue.links, l.val.slice.Mem p ∧ sl.find o p = l.val.data := by
  obtain ⟨t, ht, hm⟩ := hwf.tiles.cover hp hw
  obtain ⟨l, hl, rfl⟩ := List.mem_map.mp ht
  exact ⟨l, hl, hm, find_of_mem ho hwf hp hl hm⟩

/-- `slicer_new` and `slicer_init` make one slice. -/
theorem wf_init [TreeShape P] {b e : P} (h : Span.Proper dom ⟨b, e⟩) :
    ((new : Slicer P D).init o b e).WF dom ⟨b, e⟩ ∧
      ∀ l ∈ ((new : Slicer P D).init o b e).queue.links, l.val.data = none := by
  have hq : ((new : Slicer P D).init o b e).queue.links = [⟨0, ⟨⟨b, e⟩, none⟩⟩] := by
    simp only [init, new, Queue.length, Queue.links_empty, List.length_nil, if_true,
      ho.dup_eq, ite_self, Queue.links_pushHead]
    rfl
  have ht : ((new : Slicer P D).init o b e).tree.toList = [(⟨b, e⟩, 0)] := by
    simp only [init, new, Queue.length, Queue.links_empty, List.length_nil, if_true,
      ho.dup_eq, ite_self, treeInsert, Balance.toList_run, Tree.insert, Tree.toList_node,
      Tree.toList_nil, List.nil_append]
    rfl
  refine ⟨⟨?_, ?_⟩, ?_⟩
  · rw [hq]
    exact .single h
  · rw [Sync, ht, hq]
    rfl
  · rw [hq]
    intro l hl
    obtain rfl := List.mem_singleton.mp hl
    rfl

end Find

/-! ## Runs of the loops

The loops of the model count their passes down from the length of the queue. These relations
are the loops as they stand in the code: a derivation is a run that ends. -/

section Runs

variable [TreeShape P] (o : SliceOps P) (d : SliceDataOps σ D X)

/-- The loop of `slicer_glue`, with `lto` where it stops. -/
inductive GlueRemoves (lto : Option ℕ) :
    Slicer P D → Option ℕ → σ → Slicer P D × σ → Prop where
  /-- `from == to` -/
  | stop {sl : Slicer P D} {s : σ} : GlueRemoves lto sl lto s (sl, s)
  /-- a link is removed -/
  | pass {sl : Slicer P D} {s : σ} {list : ℕ} {entry : SlicerEntry P D} {r : Slicer P D × σ}
    (hne : some list ≠ lto) (hget : sl.queue.get? list = some entry)
    (hrest : GlueRemoves lto
      (entryFree d ⟨sl.queue.deleteLink list, treeRemove o sl.tree entry.slice, sl.count⟩ entry s).1
      (sl.queue.next? list)
      (entryFree d ⟨sl.queue.deleteLink list, treeRemove o sl.tree entry.slice, sl.count⟩ entry s).2
      r) : GlueRemoves lto sl (some list) s r

/-- `slicer_glue` -/
inductive Glues : Slicer P D → ℕ → ℕ → σ → Slicer P D × σ → Prop where
  /-- `from == to` -/
  | same {sl : Slicer P D} {s : σ} {list : ℕ} : Glues sl list list s (sl, s)
  /-- the links are removed, and one is inserted for them -/
  | run {sl : Slicer P D} {s : σ} {lfrom lto : ℕ} {first last : SlicerEntry P D}
    {r : Slicer P D × σ} (hne : lfrom ≠ lto) (hfirst : sl.queue.get? lfrom = some first)
    (hlast : sl.queue.get? lto = some last)
    (hrest : GlueRemoves o d (sl.queue.next? lto) sl (some lfrom) s r) :
    Glues sl lfrom lto s
      (r.1.insertBefore o (sl.queue.next? lto) ⟨⟨o.dup first.slice.lo, o.dup last.slice.hi⟩, none⟩,
        r.2)

/-- The glue of a run of null entries: `to` is set when there are two of them. -/
inductive GlueRuns : Slicer P D → Option ℕ → Option ℕ → σ → Slicer P D × σ → Prop where
  /-- `to == NULL` -/
  | short {sl : Slicer P D} {s : σ} {lfrom : Option ℕ} : GlueRuns sl lfrom none s (sl, s)
  /-- both ends are set -/
  | long {sl : Slicer P D} {s : σ} {lfrom lto : ℕ} {r : Slicer P D × σ}
    (hglue : Glues o d sl lfrom lto s r) : GlueRuns sl (some lfrom) (some lto) s r

/-- The loop of `slicer_glue_null` and what follows it. -/
inductive GlueNulls (isNull : Option D → Bool) :
    Slicer P D → Option ℕ → Option ℕ → Option ℕ → σ → Slicer P D × σ → Prop where
  /-- the end of the queue -/
  | tail {sl : Slicer P D} {s : σ} {lfrom lto : Option ℕ} {r : Slicer P D × σ}
    (hrun : GlueRuns o d sl lfrom lto s r) : GlueNulls isNull sl none lfrom lto s r
  /-- the first null entry of a run -/
  | first {sl : Slicer P D} {s : σ} {list : ℕ} {lto : Option ℕ} {entry : SlicerEntry P D}
    {r : Slicer P D × σ} (hget : sl.queue.get? list = some entry)
    (hnull : isNull entry.data = true)
    (hrest : GlueNulls isNull sl (sl.queue.next? list) (some list) none s r) :
    GlueNulls isNull sl (some list) none lto s r
  /-- one more -/
  | more {sl : Slicer P D} {s : σ} {list lfrom : ℕ} {lto : Option ℕ} {entry : SlicerEntry P D}
    {r : Slicer P D × σ} (hget : sl.queue.get? list = some entry)
    (hnull : isNull entry.data = true)
    (hrest : GlueNulls isNull sl (sl.queue.next? list) (some lfrom) (some list) s r) :
    GlueNulls isNull sl (some list) (some lfrom) lto s r
  /-- an entry with data: the run before it ends -/
  | other {sl : Slicer P D} {s : σ} {list : ℕ} {lfrom lto : Option ℕ} {entry : SlicerEntry P D}
    {r₁ r : Slicer P D × σ} (hget : sl.queue.get? list = some entry)
    (hnull : isNull entry.data = false) (hrun : GlueRuns o d sl lfrom lto s r₁)
    (hrest : GlueNulls isNull r₁.1 (r₁.1.queue.next? list) none none r₁.2 r) :
    GlueNulls isNull sl (some list) lfrom lto s r

end Runs

/-! ## Gluing

A run of entries without data is replaced by one. The invariant of the loop has what was glued
already, the run so far, and the entries to come.
-/

section Glue

variable [TreeShape P] (ho : o.Lawful dom) {I : σ → Multiset (Option D) → Prop}
  {isNull : Option D → Bool}
  (hnull : ∀ {s L}, I s (none ::ₘ L) ↔ I s L)
  (hfree : ∀ {s a L}, isNull (some a) = true → I s (some a ::ₘ L) → I (d.free a s) L)
include ho hnull hfree

/-- The loop of `slicer_glue` removes the links of a run without data. -/
theorem glueRemove_spec (N : List (Link (SlicerEntry P D))) :
    ∀ (fuel : ℕ) {sl : Slicer P D} {s : σ}, sl.Sync → sl.queue.links = A ++ N ++ B →
      N.length ≤ fuel → (∀ m ∈ A ++ N ++ B, m.val.slice.Proper dom) →
      ((A ++ N ++ B).Pairwise fun a b => a.val.slice.Before b.val.slice) →
      (∀ n ∈ N, isNull n.val.data = true) → I s (liveData sl.queue.links) →
      ∃ sl' s', glueRemove o d fuel sl ((N ++ B).head?.map Link.id) (B.head?.map Link.id) s =
          (sl', s') ∧
        GlueRemoves o d (B.head?.map Link.id) sl ((N ++ B).head?.map Link.id) s (sl', s') ∧
        sl'.Sync ∧ sl'.queue.links = A ++ B ∧ I s' (liveData sl'.queue.links) := by
  induction N with
  | nil =>
    intro fuel sl s hs hl _ _ _ _ hI
    refine ⟨sl, s, ?_, .stop, hs, by simpa using hl, hI⟩
    cases fuel with
    | zero => rfl
    | succ n =>
      cases B with
      | nil => rfl
      | cons b B =>
        simp only [List.nil_append, List.head?_cons, Option.map_some, glueRemove, if_true]
  | cons n N ih =>
    intro fuel sl s hs hl hfuel hp hpw hN hI
    obtain ⟨k, rfl⟩ : ∃ k, fuel = k + 1 := ⟨fuel - 1, by simp at hfuel; omega⟩
    have hl' : sl.queue.links = A ++ n :: (N ++ B) := by simpa using hl
    have hne : ¬ some n.id = B.head?.map Link.id := by
      intro h
      obtain ⟨b, hb, hid⟩ := Option.map_eq_some_iff.mp h.symm
      exact Queue.id_ne_right hl' b (by simp [List.mem_of_mem_head? hb]) hid
    have hp' : ∀ m ∈ A ++ n :: (N ++ B), m.val.slice.Proper dom := by simpa using hp
    have hpw' : (A ++ n :: (N ++ B)).Pairwise fun a b => a.val.slice.Before b.val.slice := by
      simpa using hpw
    have hs₁ := sync_remove ho hs hl' hp' hpw' sl.count
    have hl₁ := Queue.links_deleteLink hl'
    rw [hl', liveData_insert] at hI
    -- release the data of the entry
    obtain ⟨sl₂, s₂, he₂, hq₂, ht₂, hI₂⟩ : ∃ sl₂ s₂,
        entryFree d ⟨sl.queue.deleteLink n.id, treeRemove o sl.tree n.val.slice, sl.count⟩
          n.val s = (sl₂, s₂) ∧ sl₂.queue = sl.queue.deleteLink n.id ∧
        sl₂.tree = treeRemove o sl.tree n.val.slice ∧ I s₂ (liveData (A ++ (N ++ B))) := by
      have hn := hN n List.mem_cons_self
      simp only [entryFree]
      rcases hd : n.val.data with _ | a
      · exact ⟨_, _, rfl, rfl, rfl, hnull.mp (hd ▸ hI)⟩
      · exact ⟨_, _, rfl, rfl, rfl, hfree (hd ▸ hn) (hd ▸ hI)⟩
    have hl₂ : sl₂.queue.links = A ++ N ++ B := by rw [hq₂, hl₁, List.append_assoc]
    obtain ⟨sl', s', he', hrun, hs', hl'', hI'⟩ := ih _ (s := s₂)
      (by rw [Sync, hq₂, ht₂]; exact hs₁) hl₂ (by simpa using hfuel)
      (fun m hm => hp m (by
        simp only [List.append_assoc, List.mem_append, List.mem_cons] at hm ⊢; tauto))
      (hpw.sublist (by simp)) (fun m hm => hN m (List.mem_cons_of_mem _ hm))
      (by rw [hl₂, List.append_assoc]; exact hI₂)
    refine ⟨sl', s', ?_, .pass hne (Queue.get?_mid hl') ?_, hs', hl'', hI'⟩
    · simp only [List.cons_append, List.head?_cons, Option.map_some, glueRemove]
      rw [if_neg hne, Queue.get?_mid hl', Queue.next?_mid hl']
      simp only
      rw [he₂]
      exact he'
    · rw [he₂, Queue.next?_mid hl']
      exact hrun

/-- `slicer_glue` replaces a run of links without data by one link. -/
theorem glue_spec {n m : Link (SlicerEntry P D)} {N : List (Link (SlicerEntry P D))}
    (hwf : sl.WF dom w) (hl : sl.queue.links = A ++ (n :: N ++ [m]) ++ B)
    (hN : ∀ k ∈ n :: N ++ [m], isNull k.val.data = true) (hI : I s (liveData sl.queue.links)) :
    ∃ sl' s' g, sl.glue o d n.id m.id s = (sl', s') ∧ Glues o d sl n.id m.id s (sl', s') ∧
      sl'.WF dom w ∧
      sl'.queue.links = A ++ g :: B ∧ I s' (liveData sl'.queue.links) ∧ g.val.data = none ∧
      ∀ p, dom p → g.val.slice.Mem p → ∃ k ∈ n :: N ++ [m], k.val.slice.Mem p := by
  have hln : sl.queue.links = A ++ n :: (N ++ [m] ++ B) := by simpa using hl
  have hlm : sl.queue.links = (A ++ n :: N) ++ m :: B := by simpa using hl
  have hne : n.id ≠ m.id := fun h => Queue.id_ne_right hln m (by simp) h.symm
  have hp : ∀ k ∈ A ++ (n :: N ++ [m]) ++ B, k.val.slice.Proper dom := fun k hk =>
    hwf.proper (hl ▸ hk)
  obtain ⟨sl₁, s₁, he₁, hrem, hs₁, hl₁, hI₁⟩ := glueRemove_spec (I := I) (d := d)
    ho hnull hfree (n :: N ++ [m]) sl.queue.length hwf.sync hl
    (by rw [Queue.length, hl]; simp; omega) hp (hl ▸ hwf.pairwise) hN hI
  -- the tiling with the run replaced by one slice
  have ht : Tiles dom w.lo w.hi (slicesOf A ++ slicesOf (n :: N ++ [m]) ++ slicesOf B) := by
    have := hwf.tiles
    rw [hl] at this
    simpa [slicesOf] using this
  obtain ⟨a, b, hrun, hrep⟩ := ht.focus (by simp [slicesOf])
  have ha : n.val.slice.lo = a := by
    have h' : Tiles dom a b (n.val.slice :: (slicesOf N ++ [m.val.slice])) := by
      simpa [slicesOf] using hrun
    exact h'.head_lo
  have hb : m.val.slice.hi = b := by
    have h' : Tiles dom a b ((n.val.slice :: slicesOf N) ++ [m.val.slice]) := by
      simpa [slicesOf] using hrun
    exact h'.last_hi
  have htiles := hrep [⟨a, b⟩] (.single hrun.whole)
  have hpw := htiles.pairwise
  rw [List.append_assoc, List.singleton_append] at htiles hpw
  let e : SlicerEntry P D := ⟨⟨a, b⟩, none⟩
  obtain ⟨hl', hs'⟩ := insert_spec (e := e)
    ho _ rfl rfl hs₁ hl₁ rfl htiles.proper hpw
  refine ⟨_, s₁, ⟨sl₁.queue.fresh, e⟩, ?_, ?_, ⟨?_, hs'⟩, hl', ?_, rfl, ?_⟩
  · rw [glue, if_neg hne, Queue.get?_mid hln, Queue.get?_mid hlm]
    simp only
    rw [Queue.next?_mid hlm, ho.dup_eq, ho.dup_eq, ha, hb]
    have he₁' : glueRemove o d sl.queue.length sl (some n.id) (B.head?.map Link.id) s =
        (sl₁, s₁) := he₁
    rw [he₁']
  · have hglue := Glues.run (o := o) (d := d) (s := s) (r := (sl₁, s₁)) hne (Queue.get?_mid hln)
      (Queue.get?_mid hlm) (by rw [Queue.next?_mid hlm]; exact hrem)
    rw [Queue.next?_mid hlm, ho.dup_eq, ho.dup_eq, ha, hb] at hglue
    exact hglue
  · rw [hl']
    simpa [slicesOf] using htiles
  · rw [hl', liveData_insert, hnull]
    rw [hl₁] at hI₁
    exact hI₁
  · intro p hd hm
    obtain ⟨t, ht, hm'⟩ := hrun.cover hd hm
    obtain ⟨k, hk, rfl⟩ := List.mem_map.mp ht
    exact ⟨k, hk, hm'⟩

/-- What gluing leaves at each point: an old entry, or `NULL` where an entry without
data was. -/
def Glued (dom : P → Prop) (isNull : Option D → Bool) (old : List (Link (SlicerEntry P D)))
    (l' : Link (SlicerEntry P D)) : Prop :=
  ∀ p, dom p → l'.val.slice.Mem p → ∃ l ∈ old, l.val.slice.Mem p ∧
    (l'.val = l.val ∨ l'.val.data = none ∧ isNull l.val.data = true)

/-- The pointers `from` and `to` of `slicer_glue_null` after the null links `R`. -/
def runEnds (R : List (Link (SlicerEntry P D))) : Option ℕ × Option ℕ :=
  (R.head?.map Link.id, if 2 ≤ R.length then R.getLast?.map Link.id else none)

omit ho hnull hfree [LinearOrder P] [Zero P] [TreeShape P] in
theorem runEnds_cases (R : List (Link (SlicerEntry P D))) :
    (R.length < 2 ∧ (runEnds R).2 = none) ∨
      ∃ n N m, R = n :: N ++ [m] ∧ runEnds R = (some n.id, some m.id) := by
  match R with
  | [] => exact Or.inl ⟨by simp, rfl⟩
  | [a] => exact Or.inl ⟨by simp, rfl⟩
  | n :: a :: R =>
    refine Or.inr ⟨n, (a :: R).dropLast, (a :: R).getLast (by simp), ?_, ?_⟩
    · rw [List.cons_append, List.dropLast_append_getLast]
    · simp [runEnds, List.getLast?_eq_some_getLast]

omit ho hnull hfree [LinearOrder P] [Zero P] [TreeShape P] in
theorem runEnds_concat (r f : Link (SlicerEntry P D)) (R : List (Link (SlicerEntry P D))) :
    runEnds (r :: R ++ [f]) = (some r.id, some f.id) := by
  rw [runEnds, if_pos (by simp), List.getLast?_concat]
  rfl

omit ho hnull hfree [TreeShape P] in
theorem Glued.of_mem {old : List (Link (SlicerEntry P D))} (h : l ∈ old) :
    Glued dom isNull old l := fun _ _ hm => ⟨l, h, hm, Or.inl rfl⟩

/-- Has the link data? -/
def isFull (isNull : Option D → Bool) (l : Link (SlicerEntry P D)) : Bool := !isNull l.val.data

/-- What gluing leaves of the links `old` in the queue. -/
structure Spread (isNull : Option D → Bool) (old new : List (Link (SlicerEntry P D))) : Prop where
  /-- links with data are kept, as they are and in their order -/
  full : new.filter (isFull isNull) = old.filter (isFull isNull)
  /-- of two neighbours one has data -/
  apart : new.IsChain fun a b => isFull isNull a = true ∨ isFull isNull b = true

omit ho hnull hfree [LinearOrder P] [Zero P] [TreeShape P] in
/-- One link at most is left of a run of null entries. -/
theorem Spread.addRun {old R R' : List (Link (SlicerEntry P D))} (hA : Spread isNull old A)
    (hlast : ∀ a ∈ A.getLast?, isFull isNull a = true) (hR : ∀ r ∈ R, isNull r.val.data = true)
    (hlen : R'.length ≤ 1) (hR' : ∀ g ∈ R', isNull g.val.data = true) :
    Spread isNull (old ++ R) (A ++ R') where
  full := by
    have hnil : ∀ N : List (Link (SlicerEntry P D)), (∀ n ∈ N, isNull n.val.data = true) →
        N.filter (isFull isNull) = [] := fun N hN =>
      List.filter_eq_nil_iff.mpr fun n hn => by simp [isFull, hN n hn]
    rw [List.filter_append, List.filter_append, hnil R hR, hnil R' hR', hA.full]
  apart := by
    match R', hlen with
    | [], _ => simpa using hA.apart
    | [g], _ =>
      exact hA.apart.append (List.isChain_singleton g) fun a ha _ _ => Or.inl (hlast a ha)

omit ho hnull hfree [LinearOrder P] [Zero P] [TreeShape P] in
theorem Spread.addFull {old : List (Link (SlicerEntry P D))} (hA : Spread isNull old A)
    (hl : isFull isNull l = true) : Spread isNull (old ++ [l]) (A ++ [l]) where
  full := by rw [List.filter_append, List.filter_append, hA.full]
  apart := hA.apart.append (List.isChain_singleton l) fun _ _ b hb => by
    obtain rfl : l = b := by simpa using hb
    exact Or.inr hl

/-- The run behind the loop is glued, or is too short to be: one link without data is left of it,
or none. -/
theorem glueRun_spec {old R : List (Link (SlicerEntry P D))} (hwf : sl.WF dom w)
    (hl : sl.queue.links = A ++ R ++ B) (hR : ∀ r ∈ R, isNull r.val.data = true)
    (hI : I s (liveData sl.queue.links)) (hold : ∀ r ∈ R, r ∈ old) :
    ∃ sl' s' R', sl.glueRun o d (runEnds R).1 (runEnds R).2 s = (sl', s') ∧
      GlueRuns o d sl (runEnds R).1 (runEnds R).2 s (sl', s') ∧ sl'.WF dom w ∧
      sl'.queue.links = A ++ R' ++ B ∧ I s' (liveData sl'.queue.links) ∧ R'.length ≤ 1 ∧
      ∀ g ∈ R', Glued dom isNull old g ∧ (g.val.data = none ∨ isNull g.val.data = true) := by
  rcases runEnds_cases R with ⟨hlen, h2⟩ | ⟨n, N, m, rfl, h2⟩
  · refine ⟨sl, s, R, ?_, ?_, hwf, hl, hI, by omega, ?_⟩
    · rw [h2]
      rcases (runEnds R).1 with _ | _ <;> rfl
    · rw [h2]
      exact .short
    · exact fun g hg => ⟨.of_mem (hold g hg), Or.inr (hR g hg)⟩
  · obtain ⟨sl', s', g, he, hrun, hwf', hl', hI', hg, hcov⟩ :=
      glue_spec (I := I) (d := d) ho hnull hfree hwf hl hR hI
    refine ⟨sl', s', [g], ?_, ?_, hwf', by simpa using hl', hI', le_rfl, ?_⟩
    · rw [h2]
      exact he
    · rw [h2]
      exact .long hrun
    · intro l' hl''
      obtain rfl := List.mem_singleton.mp hl''
      refine ⟨fun p hd hm => ?_, Or.inl hg⟩
      obtain ⟨k, hk, hkm⟩ := hcov p hd hm
      exact ⟨k, hold k hk, hkm, Or.inr ⟨hg, hR k hk⟩⟩

/-- The invariant of the loop of `slicer_glue_null`, with the links `A` that it made from `O`, the
null links `R` behind it, and the links `F` still to come. -/
structure GlueInv (dom : P → Prop) (w : Span P) (isNull : Option D → Bool)
    (I : σ → Multiset (Option D) → Prop) (old O A R F : List (Link (SlicerEntry P D)))
    (sl : Slicer P D) (s : σ) : Prop where
  /-- the tiling -/
  wf : sl.WF dom w
  /-- the queue -/
  links : sl.queue.links = A ++ R ++ F
  /-- The run is null. -/
  null : ∀ r ∈ R, isNull r.val.data = true
  /-- what is known of the data alive -/
  data : I s (liveData sl.queue.links)
  /-- what was made -/
  glued : ∀ a ∈ A, Glued dom isNull old a
  /-- What was not yet glued is as it was. -/
  rest : ∀ r ∈ R ++ F, r ∈ old
  /-- What was made ends in a link with data. -/
  spread : isNull none = true → Spread isNull O A ∧ ∀ a ∈ A.getLast?, isFull isNull a = true

namespace GlueInv

variable {old O R F : List (Link (SlicerEntry P D))} {f : Link (SlicerEntry P D)}

omit ho hnull hfree [TreeShape P] in
/-- The run goes on. -/
theorem more (h : GlueInv dom w isNull I old O A R (f :: F) sl s)
    (hnf : isNull f.val.data = true) : GlueInv dom w isNull I old O A (R ++ [f]) F sl s where
  wf := h.wf
  links := by simpa using h.links
  null := List.forall_mem_append.mpr ⟨h.null, List.forall_mem_singleton.mpr hnf⟩
  data := h.data
  glued := h.glued
  rest := by simpa using h.rest
  spread := h.spread

/-- The run ends, and what is left of it is added to what was made. -/
theorem run (h : GlueInv dom w isNull I old O A R F sl s) :
    ∃ sl' s' R', sl.glueRun o d (runEnds R).1 (runEnds R).2 s = (sl', s') ∧
      GlueRuns o d sl (runEnds R).1 (runEnds R).2 s (sl', s') ∧ sl'.WF dom w ∧
      sl'.queue.links = A ++ R' ++ F ∧ I s' (liveData sl'.queue.links) ∧
      (∀ l' ∈ A ++ R', Glued dom isNull old l') ∧
      (isNull none = true → Spread isNull (O ++ R) (A ++ R')) := by
  obtain ⟨sl', s', R', he, hrun, hwf', hl', hI', hlen, hR'⟩ := glueRun_spec (B := F) (I := I)
    (d := d) ho hnull hfree h.wf h.links h.null h.data fun r hr =>
      h.rest r (List.mem_append_left _ hr)
  refine ⟨sl', s', R', he, hrun, hwf', hl', hI', ?_, fun h0 => ?_⟩
  · exact List.forall_mem_append.mpr ⟨h.glued, fun g hg => (hR' g hg).1⟩
  · obtain ⟨hspread, hlast⟩ := h.spread h0
    refine hspread.addRun hlast h.null hlen fun g hg => ?_
    rcases (hR' g hg).2 with hnone | hnull
    · rw [hnone, h0]
    · exact hnull

/-- The run ends before a link with data. -/
theorem other (h : GlueInv dom w isNull I old O A R (f :: F) sl s)
    (hnf : isNull f.val.data = false) :
    ∃ sl' s' A', sl.glueRun o d (runEnds R).1 (runEnds R).2 s = (sl', s') ∧
      GlueRuns o d sl (runEnds R).1 (runEnds R).2 s (sl', s') ∧
      sl'.queue.links = A' ++ f :: F ∧
      GlueInv dom w isNull I old (O ++ R ++ [f]) (A' ++ [f]) [] F sl' s' := by
  obtain ⟨sl', s', R', he, hrun, hwf', hl', hI', hglued, hspread⟩ :=
    h.run (d := d) ho hnull hfree
  refine ⟨sl', s', A ++ R', he, hrun, hl', ?_⟩
  exact
    { wf := hwf'
      links := by simpa using hl'
      null := List.forall_mem_nil _
      data := hI'
      glued := List.forall_mem_append.mpr
        ⟨hglued, List.forall_mem_singleton.mpr (.of_mem (h.rest f (by simp)))⟩
      rest := fun r hr => h.rest r (List.mem_append_right _ (List.mem_cons_of_mem _ hr))
      spread := fun h0 => by
        have hfull : isFull isNull f = true := by simp [isFull, hnf]
        refine ⟨(hspread h0).addFull hfull, fun a ha => ?_⟩
        rw [List.getLast?_concat] at ha
        obtain rfl := Option.some.inj ha
        exact hfull }

end GlueInv

/-- The loop of `slicer_glue_null` from its invariant. -/
theorem glueNullLoop_spec {old : List (Link (SlicerEntry P D))}
    (F : List (Link (SlicerEntry P D))) :
    ∀ {fuel : ℕ} {sl : Slicer P D} {s : σ} {A R O : List (Link (SlicerEntry P D))},
      GlueInv dom w isNull I old O A R F sl s → F.length ≤ fuel →
      ∃ sl' s', glueNullLoop o d isNull fuel sl (F.head?.map Link.id) (runEnds R).1
          (runEnds R).2 s = (sl', s') ∧
        GlueNulls o d isNull sl (F.head?.map Link.id) (runEnds R).1 (runEnds R).2 s (sl', s') ∧
        sl'.WF dom w ∧ I s' (liveData sl'.queue.links) ∧
        (∀ l' ∈ sl'.queue.links, Glued dom isNull old l') ∧
        (isNull none = true → Spread isNull (O ++ R ++ F) sl'.queue.links) := by
  induction F with
  | nil =>
    intro fuel sl s A R O h _
    obtain ⟨sl', s', R', he, hrun, hwf', hl', hI', hglued, hspread⟩ :=
      h.run (d := d) ho hnull hfree
    rw [List.append_nil] at hl'
    refine ⟨sl', s', ?_, .tail hrun, hwf', hI', ?_, fun h0 => ?_⟩
    · rw [List.head?_nil, Option.map_none, ← he]
      cases fuel <;> rfl
    · rw [hl']
      exact hglued
    · rw [hl', List.append_nil]
      exact hspread h0
  | cons f F ih =>
    intro fuel sl s A R O h hfuel
    obtain ⟨k, rfl⟩ : ∃ k, fuel = k + 1 := ⟨fuel - 1, by simp at hfuel; omega⟩
    have hfuel' : F.length ≤ k := by simpa using hfuel
    have hget := Queue.get?_mid h.links
    simp only [List.head?_cons, Option.map_some, glueNullLoop]
    rw [hget]
    simp only
    by_cases hnf : isNull f.val.data = true
    · obtain ⟨sl', s', he, hrun, hwf', hI', hG, hsp'⟩ := ih (h.more hnf) hfuel'
      refine ⟨sl', s', ?_, ?_, hwf', hI', hG, by simpa using hsp'⟩
      · rw [if_pos hnf, Queue.next?_mid h.links]
        cases R with
        | nil => exact he
        | cons r R =>
          rw [runEnds_concat] at he
          exact he
      · cases R with
        | nil =>
          refine .first hget hnf ?_
          rw [Queue.next?_mid h.links]
          exact hrun
        | cons r R =>
          rw [runEnds_concat] at hrun
          refine .more hget hnf ?_
          rw [Queue.next?_mid h.links]
          exact hrun
    · have hnf' : isNull f.val.data = false := by simpa using hnf
      rw [if_neg hnf]
      obtain ⟨sl₁, s₁, A', he₁, hrun₁, hl₁, h₁⟩ := h.other (d := d) ho hnull hfree hnf'
      obtain ⟨sl', s', he, hrun, hwf', hI', hG, hsp'⟩ := ih h₁ hfuel'
      refine ⟨sl', s', ?_, .other hget hnf' hrun₁ ?_, hwf', hI', hG, by simpa using hsp'⟩
      · rw [he₁]
        simp only
        rw [Queue.next?_mid hl₁]
        exact he
      · rw [Queue.next?_mid hl₁]
        exact hrun

/-- **Gluing**: the loop ends, keeps the tiling, only turns data that counts as null into `NULL`,
and leaves no run of null entries. -/
theorem glueNull_run (hd : d.isNull = some isNull) (hwf : sl.WF dom w)
    (hI : I s (liveData sl.queue.links)) :
    ∃ sl' s', sl.glueNull o d s = (sl', s') ∧
      GlueNulls o d isNull sl sl.queue.head? none none s (sl', s') ∧ sl'.WF dom w ∧
      I s' (liveData sl'.queue.links) ∧
      (∀ l' ∈ sl'.queue.links, Glued dom isNull sl.queue.links l') ∧
      (isNull none = true → Spread isNull sl.queue.links sl'.queue.links) := by
  rw [glueNull, hd]
  have hinv : GlueInv dom w isNull I sl.queue.links [] [] [] sl.queue.links sl s :=
    { wf := hwf
      links := rfl
      null := List.forall_mem_nil _
      data := hI
      glued := List.forall_mem_nil _
      rest := fun r hr => hr
      spread := fun _ => ⟨⟨rfl, List.isChain_nil⟩, by simp⟩ }
  exact glueNullLoop_spec (d := d) ho hnull hfree sl.queue.links hinv le_rfl

/-- **Gluing** keeps the tiling and only turns data that counts as null into `NULL`. -/
theorem glueNull_rule (hd : d.isNull = some isNull) (hwf : sl.WF dom w)
    (hI : I s (liveData sl.queue.links)) :
    ∃ sl' s', sl.glueNull o d s = (sl', s') ∧ sl'.WF dom w ∧ I s' (liveData sl'.queue.links) ∧
      ∀ l' ∈ sl'.queue.links, Glued dom isNull sl.queue.links l' := by
  obtain ⟨sl', s', he, -, hwf', hI', hG, -⟩ := glueNull_run (I := I) (d := d) ho hnull hfree hd
    hwf hI
  exact ⟨sl', s', he, hwf', hI', hG⟩

end Glue

end Slicer

end Mbb
