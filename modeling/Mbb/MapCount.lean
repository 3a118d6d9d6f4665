import Mbb.MapNodes

/-!
# The counter of a map

`slicer_count` is meant to be the number of slices that have data. `insert_dup` and `insert_del`
count what they insert when it is there; `insert_add` counts it in any case. What `map_data_add`
returns is `NULL` when it does nothing because a crossing was found before, and the slice it was
called for has no queue. So the counter is right as long as no `map_add` visits such a slice after
the crossing.
-/

namespace Mbb

variable {P Q α ν : Type} [LinearOrder P] [Zero P] [LinearOrder Q] [Zero Q] [DecidableEq α]

/-! ## The counter

The right value of the counter is the number of slices with data, and it is kept by copying and
releasing.
-/

namespace Slicer

variable {σ D X : Type}

/-- The number of data that are there. -/
def filled (L : Multiset (Option D)) : ℕ := L.countP fun a => a.isSome

/-- The counter is the number of entries with data. -/
def CountRight (sl : Slicer P D) : Prop :=
  sl.count = (sl.entries.countP fun e => e.data.isSome : ℕ)

@[simp] theorem filled_cons (a : Option D) (L : Multiset (Option D)) :
    filled (a ::ₘ L) = filled L + if a.isSome then 1 else 0 := Multiset.countP_cons _ a L

omit [LinearOrder P] [Zero P] in
theorem filled_liveData (sl : Slicer P D) :
    filled (liveData sl.queue.links) = sl.entries.countP fun e => e.data.isSome := by
  rw [filled, liveData, Multiset.coe_countP, entries, Queue.vals, List.countP_map, List.countP_map]
  simp [Function.comp_def]

omit [LinearOrder P] [Zero P] in
theorem countRight_iff {sl : Slicer P D} :
    sl.CountRight ↔ sl.count = filled (liveData sl.queue.links) := by
  rw [CountRight, filled_liveData]

/-- The counter after one more, -/
theorem count_insert {n : Int} {L : Multiset (Option D)} (hn : n = filled L) (a : Option D) :
    (if a.isSome then n + 1 else n) = filled (a ::ₘ L) := by
  rw [filled_cons, hn]
  split <;> simp

/-- and after one less. -/
theorem count_free {n : Int} {a : D} {L : Multiset (Option D)} (hn : n = filled (some a ::ₘ L)) :
    n - 1 = filled L := by
  rw [hn, filled_cons]
  simp

/-- An operation whose result is counted when it is there keeps the counter right. -/
theorem steps_isSome (d : SliceDataOps σ D X) (op : Option D → X → σ → Option D × σ) (x : X) :
    Steps d op Option.isSome x fun _ L n _ => n = filled L where
  dup hn := count_insert hn _
  op hn := count_insert hn _
  free hn := count_free hn
  null hn := by simpa using hn

end Slicer

/-! ## Adding

The one place where it goes wrong: a slice without data is visited after the crossing, and is
counted though it still has none.
-/

/-- After the first queue with an entry that overlaps the new one, none is `NULL`. -/
def FilledAfter (ops : SliceOps Q) (cur : MapEntry Q α) : List (Option (MapQueue Q α)) → Prop
  | [] => True
  | a :: as =>
    if Blocked ops cur (MapQueue.entries a) then none ∉ as else FilledAfter ops cur as

instance decidableFilledAfter (ops : SliceOps Q) (cur : MapEntry Q α) :
    ∀ as, Decidable (FilledAfter ops cur as)
  | [] => inferInstanceAs (Decidable True)
  | a :: as =>
    haveI := decidableFilledAfter ops cur as
    haveI : Decidable (none ∉ as) :=
      decidable_of_iff (as.all Option.isSome = true) (by
        rw [List.all_eq_true]
        constructor
        · intro hall hmem
          exact absurd (hall none hmem) (by simp)
        · intro hnot b hb
          exact Option.isSome_iff_ne_none.mpr fun hb' => hnot (hb' ▸ hb))
    inferInstanceAs (Decidable (if Blocked ops cur (MapQueue.entries a) then none ∉ as
      else FilledAfter ops cur as))

/-- The counter is right, and will be when the queues `as` have been visited. -/
def Counting (ops : SliceOps Q) (cur : MapEntry Q α) (s : MapState Q α ν)
    (L : Multiset (Option (MapQueue Q α))) (n : Int) (as : List (Option (MapQueue Q α))) : Prop :=
  n = Slicer.filled L ∧ if s.cross.isSome then none ∉ as else FilledAfter ops cur as

section Data

variable {ops : SliceOps Q} {h : MapHandlers ν α} {s : MapState Q α ν} {cur : MapEntry Q α}

omit [LinearOrder Q] [Zero Q] [DecidableEq α] in
theorem mapDataDup_copy (h : MapHandlers ν α) (a : Option (MapQueue Q α)) (s : MapState Q α ν) :
    Copy a (mapDataDup h a s).1 ∧ (mapDataDup h a s).2.cross = s.cross := by
  rcases a with _ | q
  · exact ⟨rfl, rfl⟩
  · obtain ⟨q', n', he, -, hv, -⟩ := mapDataDup_some (h.tracks_true) q (M := 0) (s := s) trivial
    rw [he]
    exact ⟨congrArg some hv, rfl⟩

omit [LinearOrder Q] [Zero Q] [DecidableEq α] in
theorem mapDataFree_cross (h : MapHandlers ν α) (q : MapQueue Q α) (s : MapState Q α ν) :
    (mapDataFree h q s).cross = s.cross := by
  obtain ⟨n', he, -⟩ := mapDataFree_spec (h.tracks_true) (q := q) (s := s) (M := 0) trivial
  rw [he]

/-- `map_data_add` finds a crossing when an entry blocks the new one. -/
theorem mapDataInsert_cross (cur : MapEntry Q α) (hdup : ∀ k, ops.dup k = k) (q : MapQueue Q α)
    (hs : s.cross = none) :
    (mapDataInsert ops h q cur s).2.cross.isSome ↔ Blocked ops cur q.queue.vals := by
  rcases mapDataInsert_splice (h := h) (s := s) (q := q) (M := 0) cur hdup (h.tracks_true) trivial
    with ⟨A, b, B, hl, hA, hb, he⟩ | ⟨A, B, q', n', hl, hA, hB, he, -⟩
  · obtain ⟨-, hdrop⟩ := split_passes hl hA fun x hx => by
      obtain rfl : b = x := by simpa using hx
      omega
    rw [he]
    refine iff_of_true rfl ⟨b.val, ?_, hb⟩
    rw [hdrop]
    rfl
  · obtain ⟨-, hdrop⟩ := split_passes hl hA fun b hb => not_lt.mpr (hB b hb).le
    rw [he]
    refine iff_of_false (by simp [hs]) ?_
    rintro ⟨e, hmem, hz⟩
    rw [hdrop, List.head?_map] at hmem
    obtain ⟨b, hb, rfl⟩ := Option.map_eq_some_iff.mp hmem
    exact (hB b hb).ne hz

/-- `map_data_add` to a copy of the next queue: there is a result, and what is left to visit is
as before. -/
theorem mapDataAdd_counting (hdup : ∀ k, ops.dup k = k) {a c : Option (MapQueue Q α)}
    {as : List (Option (MapQueue Q α))} (hcopy : Copy a c)
    (hrest : if s.cross.isSome then none ∉ a :: as else FilledAfter ops cur (a :: as)) :
    ∃ c' s', mapDataAdd ops h c ⟨cur.slice, some cur.data⟩ s = (c', s') ∧ c'.isSome ∧
      if s'.cross.isSome then none ∉ as else FilledAfter ops cur as := by
  simp only [mapDataAdd]
  by_cases hs : s.cross.isSome
  · rw [if_pos hs] at hrest ⊢
    refine ⟨c, s, rfl, ?_, ?_⟩
    · -- the slice has a queue, so its copy is one
      rcases a with _ | a
      · exact absurd List.mem_cons_self hrest
      · rcases c with _ | c
        · cases hcopy
        · rfl
    · rw [if_pos hs]
      exact fun hmem => hrest (List.mem_cons_of_mem _ hmem)
  · rw [if_neg hs] at hrest ⊢
    refine ⟨_, _, rfl, rfl, ?_⟩
    obtain ⟨q, s₁, hq, hv, hs₁⟩ : ∃ q s₁, queueOrNew c s = (q, s₁) ∧
        q.queue.vals = MapQueue.entries a ∧ s₁.cross = none := by
      rw [← hcopy.entries]
      rcases c with _ | c
      · exact ⟨_, _, rfl, rfl, by simpa using hs⟩
      · exact ⟨_, _, rfl, rfl, by simpa using hs⟩
    have hcross := mapDataInsert_cross (h := h) cur hdup q hs₁
    rw [hv] at hcross
    rw [hq]
    simp only [hcross]
    exact hrest

open Slicer in
/-- `map_add` keeps the counter right. -/
theorem steps_add (hdup : ∀ k, ops.dup k = k) :
    Steps (mapDataOps ops h) (mapDataAdd ops h) (fun _ => true) ⟨cur.slice, some cur.data⟩
      (Counting ops cur) where
  dup := by
    rintro s a L n as ⟨hn, hrest⟩
    refine ⟨count_insert hn _, ?_⟩
    rw [show ((mapDataOps ops h).dup a s).2.cross = s.cross from (mapDataDup_copy h a s).2]
    exact hrest
  op := by
    rintro s a L n as ⟨hn, hrest⟩
    obtain ⟨hcopy, hcross⟩ := mapDataDup_copy h a s
    rw [← hcross] at hrest
    obtain ⟨c', s', he, hsome, hrest'⟩ := mapDataAdd_counting (h := h) hdup hcopy hrest
    have he' : mapDataAdd ops h ((mapDataOps ops h).dup a s).1 ⟨cur.slice, some cur.data⟩
        ((mapDataOps ops h).dup a s).2 = (c', s') := he
    rw [he']
    refine ⟨?_, hrest'⟩
    rw [filled_cons, hn, hsome]
    simp
  free := by
    rintro s q L n as ⟨hn, hrest⟩
    refine ⟨count_free hn, ?_⟩
    rw [show ((mapDataOps ops h).free q s).cross = s.cross from mapDataFree_cross h q s]
    exact hrest
  null := by
    rintro s L n as ⟨hn, hrest⟩
    exact ⟨by simpa using hn, hrest⟩

end Data

/-! ## Runs

In runs without such a visit the counter is right, for both kinds of maps.
-/

/-- The two kinds of maps. -/
inductive MapKind : Type where
  /-- of `inet_map_init` -/
  | inet
  /-- of `time_map_init` -/
  | time
  deriving DecidableEq

namespace MapKind

/-- The operations on the keys. -/
def keys : MapKind → SliceOps ℕ
  | inet => inetOps
  | time => timeOps

/-- The operations on the second keys. -/
def ops : MapKind → SliceOps ℕ
  | inet => timeOps
  | time => inetOps

/-- The map at the start. -/
def init [TreeShape ℕ] : MapKind → Map ℕ ℕ ℕ
  | inet => inetMapInit
  | time => timeMapInit

theorem dup_ops (kind : MapKind) (k : ℕ) : kind.ops.dup k = k := by
  cases kind <;> rfl

end MapKind

/-- `slicer_count` of the slicer of a map is the number of its entries whose data is not `NULL`. -/
def MapCountRight (m : Map P Q α) : Prop := ∃ sl, m = some sl ∧ sl.CountRight

/-- No `map_add` of the act comes to a slice without a queue after it has found a crossing. -/
def MapAct.Countable (ops : SliceOps Q) (keys : SliceOps P) (m : Map P Q α) : MapAct P Q α → Prop
  | .add key dkey ptr => FilledAfter ops ⟨dkey, ptr⟩ (mapVisited keys m key)
  | .del _ _ _ => True
  | .glueNull => True

/-- Nor any act of a run. -/
def CountableRun [TreeShape P] (ops : SliceOps Q) (h : MapHandlers ν α) (keys : SliceOps P) :
    List (MapAct P Q α) → Map P Q α → MapState Q α ν → Prop
  | [], _, _ => True
  | a :: as, m, s => a.Countable ops keys m ∧
    ∀ m' s', a.exec ops h keys m s = some (m', s') → CountableRun ops h keys as m' s'

section Run

variable [TreeShape P] {ops : SliceOps Q} {h : MapHandlers ν α} {keys : SliceOps P}

/-- One act. -/
theorem MapAct.exec_count (hdup : ∀ k, ops.dup k = k) {act : MapAct P Q α} {m m' : Map P Q α}
    {s s' : MapState Q α ν} (hm : MapCountRight m) (hact : act.Countable ops keys m)
    (he : act.exec ops h keys m s = some (m', s')) : MapCountRight m' := by
  obtain ⟨sl, rfl, hc⟩ := hm
  rw [Slicer.countRight_iff] at hc
  cases act with
  | add key dkey ptr =>
    simp only [exec, mapAdd, hdup] at he
    obtain ⟨⟨sl', s₁⟩, hins, heq⟩ := Option.map_eq_some_iff.mp he
    obtain ⟨rfl, rfl⟩ := Prod.mk.inj heq
    refine ⟨sl', rfl, Slicer.countRight_iff.mpr ?_⟩
    have hstart : Counting ops ⟨dkey, ptr⟩ { s with cross := none }
        (Slicer.liveData sl.queue.links) sl.count (sl.visited keys key.lo key.hi) := ⟨hc, hact⟩
    rcases Slicer.applyChange_steps (steps_add hdup) hstart hins with hJ | ⟨rfl, -⟩
    · exact hJ.1
    · exact hc
  | del key dkey ptr =>
    simp only [exec, mapDel] at he
    obtain ⟨⟨sl', s₁⟩, hdel, heq⟩ := Option.map_eq_some_iff.mp he
    obtain ⟨rfl, rfl⟩ := Prod.mk.inj heq
    refine ⟨sl', rfl, Slicer.countRight_iff.mpr ?_⟩
    rcases Slicer.applyChange_steps (Slicer.steps_isSome _ _ _) hc hdel with hJ | ⟨rfl, -⟩
    · exact hJ
    · exact hc
  | glueNull =>
    obtain ⟨rfl, rfl⟩ := Prod.mk.inj (Option.some.inj he)
    refine ⟨_, rfl, Slicer.countRight_iff.mpr ?_⟩
    refine Slicer.glueNull_holds (J := fun _ L n => n = Slicer.filled L) ?_ ?_ hc
    · intro s L n
      simp
    · exact Slicer.count_free

/-- The counter stays right in runs whose acts do not come to such a slice. -/
theorem runMap_count (hdup : ∀ k, ops.dup k = k) (acts : List (MapAct P Q α)) {m m' : Map P Q α}
    {s s' : MapState Q α ν} (hm : MapCountRight m) (hcount : CountableRun ops h keys acts m s)
    (he : runMap ops h keys acts m s = some (m', s')) : MapCountRight m' := by
  refine runMap_keeps (I := fun m _ => MapCountRight m) (fun hm hcount he => ?_) acts hm hcount he
  exact ⟨MapAct.exec_count hdup hm hcount.1 he, hcount.2 _ _ he⟩

end Run

omit [LinearOrder P] in
/-- A slicer at its start counts no entry, and has none with data. -/
theorem Slicer.countRight_init [TreeShape P] {D : Type} [DecidableEq P] (o : SliceOps P)
    (b e : P) : ((new : Slicer P D).init o b e).CountRight := by
  rw [CountRight]
  rfl

/-- **The counter.** In every run of `map_add`, `map_del` and `map_glue_null` on a map of addresses
or of times in which no `map_add` comes to a slice without a queue after it has found a crossing,
the counter of the slicer is the number of its entries with data. -/
theorem slicer_count_right [TreeShape ℕ] (kind : MapKind) (h : MapHandlers ν ℕ)
    (acts : List (MapAct ℕ ℕ ℕ)) {m : Map ℕ ℕ ℕ} {s₀ s : MapState ℕ ℕ ν}
    (hcount : CountableRun kind.ops h kind.keys acts kind.init s₀)
    (hrun : runMap kind.ops h kind.keys acts kind.init s₀ = some (m, s)) : MapCountRight m := by
  have hinit : MapCountRight (MapKind.init kind) := by
    cases kind with
    | inet => exact ⟨_, rfl, Slicer.countRight_init _ _ _⟩
    | time => exact ⟨_, rfl, Slicer.countRight_init _ _ _⟩
  exact runMap_count kind.dup_ops acts hinit hcount hrun

/-- A rectangle, one that crosses it, a part taken away. -/
def crossingActs : List (MapAct ℕ ℕ ℕ) :=
  [.add ⟨10, 20⟩ ⟨10, 19⟩ 7, .add ⟨10, 20⟩ ⟨15, 30⟩ 8, .del ⟨12, 16⟩ ⟨10, 19⟩ none, .glueNull]

theorem slicer_count_right_crossing :
    letI := TreeShape.plain ℕ
    ∃ m s, runMap timeOps (MapHandlers.null ℕ) inetOps crossingActs inetMapInit ⟨0, (), none⟩ =
        some (m, s) ∧ MapCountRight m := by
  let _ := TreeShape.plain ℕ
  have hsome : (runMap timeOps (MapHandlers.null ℕ) inetOps crossingActs inetMapInit
      ⟨0, (), none⟩).isSome = true := by decide
  obtain ⟨⟨m, s⟩, hrun⟩ := Option.isSome_iff_exists.mp hsome
  have hfirst : MapAct.Countable timeOps inetOps inetMapInit
      (.add ⟨10, 20⟩ ⟨10, 19⟩ 7 : MapAct ℕ ℕ ℕ) := by
    rw [MapAct.Countable]
    decide
  have hsecond : (MapAct.exec timeOps (MapHandlers.null ℕ) inetOps inetMapInit ⟨0, (), none⟩
      (.add ⟨10, 20⟩ ⟨10, 19⟩ 7)).map (fun p =>
        decide (FilledAfter timeOps ⟨⟨15, 30⟩, 8⟩ (mapVisited inetOps p.1 ⟨10, 20⟩))) =
      some true := by decide
  have hcount : CountableRun timeOps (MapHandlers.null ℕ) inetOps crossingActs inetMapInit
      ⟨0, (), none⟩ := by
    refine ⟨hfirst, fun m₁ s₁ he => ⟨?_, fun _ _ _ => ⟨trivial, fun _ _ _ =>
      ⟨trivial, fun _ _ _ => trivial⟩⟩⟩⟩
    rw [he, Option.map_some, Option.some.injEq, decide_eq_true_eq] at hsecond
    exact hsecond
  exact ⟨m, s, hrun, slicer_count_right .inet _ _ hcount hrun⟩

/-- A rectangle, and one that crosses it and reaches beyond it on both sides. -/
def beyondActs : List (MapAct ℕ ℕ ℕ) :=
  [.add ⟨10, 20⟩ ⟨10, 19⟩ 7, .add ⟨5, 30⟩ ⟨15, 30⟩ 8]

/-- The last slice visited has no queue, but is counted. -/
theorem not_countRight_beyond :
    letI := TreeShape.plain ℕ
    ∃ m s, runMap timeOps (MapHandlers.null ℕ) inetOps beyondActs inetMapInit ⟨0, (), none⟩ =
        some (m, s) ∧ ¬ MapCountRight m := by
  let _ := TreeShape.plain ℕ
  have hcounts : (runMap timeOps (MapHandlers.null ℕ) inetOps beyondActs inetMapInit
      ⟨0, (), none⟩).map (fun p => p.1.map fun sl : MapSlicer ℕ ℕ ℕ =>
        decide (sl.count = (sl.entries.countP fun e => e.data.isSome : ℕ))) =
      some (some false) := by decide
  obtain ⟨⟨m, s⟩, hrun, hm⟩ := Option.map_eq_some_iff.mp hcounts
  refine ⟨m, s, hrun, ?_⟩
  rintro ⟨sl, rfl, hc⟩
  exact of_decide_eq_false (Option.some.inj hm) hc

end Mbb
