import Mbb.Lib.Bisect
import Mbb.AddUnit

/-!
# The compiled lookup table (`MbbUMap` of `mbbd/mbbinetmap.c`)

For the accounting of flows the global map is compiled into an array of the slices that
have owners, each with a list of its intervals from the last to the first. An address is
found by binary search; in the list only the head may be without end.
-/

namespace Mbb

/-- `struct umap_data_entry`; `next` is the tail of the list. -/
structure UmapDataEntry : Type where
  /-- unit -/
  unit : ℕ
  /-- first instant -/
  min : Int
  /-- last instant, or 0 -/
  max : Int

/-- `struct umap_entry` -/
structure UmapEntry : Type where
  /-- the intervals, the last one first -/
  data : List UmapDataEntry
  /-- first address -/
  min : ℕ
  /-- last address -/
  max : ℕ

/-! ## Compilation

The slices with owners become an array in order of addresses; the entries of a slice are put in a
list from the last to the first.
-/

/-- `umap_get_data`: each interval is put before those read so far. -/
def umapGetData (mem : Memory) (es : List (MapEntry ℕ ℕ)) : List UmapDataEntry :=
  es.foldl (fun data e => ⟨(mem.entry e.data).owner, pointerToTime e.slice.lo,
    pointerToTime e.slice.hi⟩ :: data) []

/-- One pass of the loop of `umap_init`: a slice without entries is left out. -/
def umapEntryOf (mem : Memory) (entry : SlicerEntry ℕ (MapQueue ℕ ℕ)) : Option UmapEntry :=
  if (MapQueue.entries entry.data).isEmpty then none
  else
    let data := umapGetData mem (MapQueue.entries entry.data)
    if data.isEmpty then none
    else some ⟨data, pointerToIpv4 entry.slice.lo, pointerToIpv4 entry.slice.hi⟩

/-- `umap_init` -/
def umapInit (mem : Memory) (sl : MapSlicer ℕ ℕ ℕ) : List UmapEntry :=
  sl.entries.filterMap (umapEntryOf mem)

/-- An array without elements is released, and `NULL` returned. -/
def umapOrNull (array : List UmapEntry) : Option (List UmapEntry) :=
  if array.length = 0 then none else some array

/-- `mbb_umap_create` -/
def mbbUmapCreate (mem : Memory) (globalMap : Map ℕ ℕ ℕ) : Option (List UmapEntry) :=
  match globalMap with
  | none => none
  | some sl => if sl.count = 0 then none else umapOrNull (umapInit mem sl)

/-- `mbb_umap_from_unit`; the outer `none` is a failed assertion. -/
def mbbUmapFromUnit [TreeShape ℕ] (mem : Memory) (unit : MbbUnit) :
    Option (Option (List UmapEntry)) :=
  match unit.map with
  | none => some none
  | some sl =>
    if sl.count = 0 then some none
    else
      match mapAddMap (MapHandlers.null ℕ) inetMapInit unit.map ⟨0, (), none⟩ with
      | none => none
      | some (imap, s) =>
        if s.cross.isSome then some none
        else some (imap.bind fun sl => umapOrNull (umapInit mem sl))

/-! ## Search -/

/-- `umap_bsearch`. An array in memory has far less than `2 ^ 30` elements, so the indices
and their sums are numbers here. -/
def umapBsearch (base : List UmapEntry) (ip : ℕ) : Option UmapEntry :=
  bisect (fun entry => if ip < entry.min then -1 else if ip > entry.max then 1 else 0) base

/-- The loop of `umap_data_search`. -/
def umapDataLoop (t : Int) : List UmapDataEntry → Option ℕ
  | [] => none
  | data :: next =>
    if t > data.max then none
    else if t ≥ data.min then some data.unit
    else umapDataLoop t next

/-- `umap_data_search`; its list is not empty. -/
def umapDataSearch (data : List UmapDataEntry) (t : Int) : Option ℕ :=
  match data with
  | [] => none
  | head :: next =>
    if head.max = 0 then if t ≥ head.min then some head.unit else umapDataLoop t next
    else umapDataLoop t (head :: next)

/-- `mbb_umap_find` -/
def mbbUmapFind (umap : List UmapEntry) (ip : ℕ) (t : Int) : Option ℕ :=
  match umapBsearch umap ip with
  | none => none
  | some entry => umapDataSearch entry.data t

/-! ## The list of intervals

The list is searched from the last interval, which alone may be open. The queue is searched from the
first; both find the one interval that has the time.
-/

section Data

variable {mem : Memory} {es : List (MapEntry ℕ ℕ)} {t : ℕ}

theorem umapGetData_concat (es : List (MapEntry ℕ ℕ)) (e : MapEntry ℕ ℕ) :
    umapGetData mem (es ++ [e]) = ⟨(mem.entry e.data).owner, pointerToTime e.slice.lo,
      pointerToTime e.slice.hi⟩ :: umapGetData mem es := by
  rw [umapGetData, List.foldl_append]
  rfl

theorem umapGetData_isEmpty (es : List (MapEntry ℕ ℕ)) :
    (umapGetData mem es).isEmpty = es.isEmpty := by
  rcases List.eq_nil_or_concat' es with rfl | ⟨es, e, rfl⟩
  · rfl
  · rw [umapGetData_concat]
    simp

/-- Bounds of an interval as `time_t`. -/
theorem TimeSpan.pointerToTime_eq {r : Span ℕ} (hr : TimeSpan r) :
    pointerToTime r.lo = r.lo ∧ pointerToTime r.hi = r.hi := by
  have hlt : ∀ {p : ℕ}, (p ≠ 0 → timeDom p) → p < 2 ^ 63 := by
    intro p hp
    by_cases h0 : p = 0
    · omega
    · have := hp h0
      rw [timeDom] at this
      omega
  exact ⟨pointerToTime_of_lt (hlt hr.lo_dom), pointerToTime_of_lt (hlt hr.hi_dom)⟩

/-- The owner by a queue with one more interval at its end. -/
theorem ownerAt_concat (es : List (MapEntry ℕ ℕ)) (e : MapEntry ℕ ℕ)
    (ho : Ordered TimeSpan (es ++ [e])) :
    ownerAt (es ++ [e]) t = if e.slice.Mem t then some e.data else ownerAt es t := by
  by_cases hm : e.slice.Mem t
  · rw [if_pos hm, ho.ownerAt_of_mem (by simp) hm]
  · rw [if_neg hm, ownerAt_append, ownerAt_cons, if_neg hm, ownerAt_nil, Option.or_none]

/-- The loop over intervals that all have an end. -/
theorem umapDataLoop_eq (mem : Memory) (ho : Ordered TimeSpan es) (hhi : ∀ e ∈ es, e.slice.hi ≠ 0) :
    umapDataLoop t (umapGetData mem es) = (ownerAt es t).map fun d => (mem.entry d).owner := by
  induction es using List.reverseRecOn with
  | nil => rfl
  | append_singleton es e ih =>
    obtain ⟨hoes, hoe, hlt⟩ := Ordered.append.mp ho
    have hok := hoe.ok e (by simp)
    obtain ⟨h1, h2⟩ := TimeSpan.pointerToTime_eq hok
    have he := hhi e (by simp)
    rw [umapGetData_concat, umapDataLoop, h1, h2, ownerAt_concat es e ho]
    by_cases hgt : (t : Int) > e.slice.hi
    · -- all intervals end before `t`
      have hnone : ownerAt es t = none := by
        rw [ownerAt_eq_none]
        intro x hx hm
        obtain ⟨h3, h4, h5⟩ := hlt x hx e (by simp)
        have := hm.2.resolve_left h3
        have := (hok.le.resolve_left h4).resolve_left he
        omega
      have hmem : ¬ e.slice.Mem t := fun hm => by
        have := hm.2.resolve_left he
        omega
      simp only
      rw [if_pos hgt, if_neg hmem, hnone]
      rfl
    · simp only
      rw [if_neg hgt]
      by_cases hge : (t : Int) ≥ e.slice.lo
      · rw [if_pos hge, if_pos ⟨Or.inr (by omega), Or.inr (by omega)⟩]
        rfl
      · have hmem : ¬ e.slice.Mem t := fun hm => by
          have := hm.1
          omega
        rw [if_neg hge, if_neg hmem]
        exact ih hoes fun x hx => hhi x (by simp [hx])

/-- **The list of a slice** gives the unit of the owner. -/
theorem umapDataSearch_eq (ho : Ordered TimeSpan es) :
    umapDataSearch (umapGetData mem es) t = (ownerAt es t).map fun d => (mem.entry d).owner := by
  rcases List.eq_nil_or_concat' es with rfl | ⟨es, e, rfl⟩
  · rfl
  · obtain ⟨hoes, hoe, hlt⟩ := Ordered.append.mp ho
    -- only the last interval may be without end
    have hhi : ∀ x ∈ es, x.slice.hi ≠ 0 := fun x hx => (hlt x hx e (by simp)).1
    obtain ⟨h1, h2⟩ := TimeSpan.pointerToTime_eq (hoe.ok e (by simp))
    by_cases h0 : e.slice.hi = 0
    · rw [umapGetData_concat, umapDataSearch]
      simp only
      rw [if_pos (by rw [h2, h0]; rfl), h1, ownerAt_concat es e ho]
      by_cases hge : (t : Int) ≥ e.slice.lo
      · rw [if_pos hge, if_pos ⟨Or.inr (by omega), Or.inl h0⟩]
        rfl
      · have hmem : ¬ e.slice.Mem t := fun hm => by
          have := hm.1
          omega
        rw [if_neg hge, if_neg hmem]
        exact umapDataLoop_eq mem hoes hhi
    · have hloop := umapDataLoop_eq mem (t := t) ho fun x hx => by
        rcases List.mem_append.mp hx with hx | hx
        · exact hhi x hx
        · rw [List.mem_singleton.mp hx]
          exact h0
      rw [← hloop, umapGetData_concat, umapDataSearch]
      simp only
      rw [if_neg]
      rw [h2]
      omega

end Data

/-! ## The array

Binary search finds the slice of an address, as the slices are in order and apart.
-/

section Table

variable {mem : Memory} {sl : MapSlicer ℕ ℕ ℕ} {ip t : ℕ}

/-- The slices partition the addresses, and the queues are in order. -/
structure UmapReady (sl : MapSlicer ℕ ℕ ℕ) : Prop where
  /-- the slices -/
  wf : sl.WF inetDom inetWhole
  /-- the queues, whose bounds are times below `2 ^ 31 - 1` -/
  ordered : ∀ e ∈ sl.entries,
    Ordered (fun r => r.Proper fun t => t < 2 ^ 31 - 1) (MapQueue.entries e.data)

/-- The keys of a slice in the array. -/
theorem slice_bounds (hwf : sl.WF inetDom inetWhole) {e : SlicerEntry ℕ (MapQueue ℕ ℕ)}
    (he : e ∈ sl.entries) :
    pointerToIpv4 e.slice.lo = e.slice.lo ∧ pointerToIpv4 e.slice.hi = e.slice.hi ∧
      e.slice.lo ≤ e.slice.hi ∧ ∀ p, e.slice.Mem p ↔ e.slice.lo ≤ p ∧ p ≤ e.slice.hi := by
  obtain ⟨l, hl, rfl⟩ := List.mem_map.mp he
  have hp := hwf.proper hl
  obtain ⟨h0, hle⟩ := hwf.tiles.le_hi (by decide) _ (Slicer.mem_slicesOf hl)
  have hlo : l.val.slice.lo ≤ l.val.slice.hi := by
    rcases hp.le with h | h | h
    · omega
    · exact absurd h h0
    · exact h
  have hhi : l.val.slice.hi < 2 ^ 32 := hp.hi_dom h0
  refine ⟨pointerToIpv4_of_lt (lt_of_le_of_lt hlo hhi), pointerToIpv4_of_lt hhi, hlo, fun p => ?_⟩
  rw [Span.Mem]
  omega

/-- What the array holds. -/
theorem mem_umapInit {x : UmapEntry} (hwf : sl.WF inetDom inetWhole) :
    x ∈ umapInit mem sl ↔ ∃ e ∈ sl.entries, MapQueue.entries e.data ≠ [] ∧
      x = ⟨umapGetData mem (MapQueue.entries e.data), e.slice.lo, e.slice.hi⟩ := by
  rw [umapInit, List.mem_filterMap]
  refine exists_congr fun e => and_congr_right fun he => ?_
  obtain ⟨h1, h2, -⟩ := slice_bounds hwf he
  rw [umapEntryOf]
  simp only [umapGetData_isEmpty, List.isEmpty_iff, h1, h2]
  by_cases hnil : MapQueue.entries e.data = []
  · simp [hnil]
  · simp only [hnil, if_false, Option.some.injEq, ne_eq, not_false_eq_true, true_and]
    exact eq_comm

/-- The directions of `umap_bsearch` are in order. -/
theorem umapInit_inOrder (hwf : sl.WF inetDom inetWhole) (ip : ℕ) :
    InOrder
      (fun entry : UmapEntry => if ip < entry.min then -1 else if ip > entry.max then 1 else 0)
      (umapInit mem sl) := by
  have hpw : (umapInit mem sl).Pairwise fun a b => a.max < b.min := by
    rw [umapInit, List.pairwise_filterMap]
    have hes : sl.entries.Pairwise fun a b => a.slice.Before b.slice :=
      List.pairwise_map.mpr hwf.pairwise
    refine hes.imp_of_mem fun {a b} ha hb hab x hx y hy => ?_
    obtain ⟨_, h1, -⟩ := slice_bounds hwf ha
    obtain ⟨h2, -⟩ := slice_bounds hwf hb
    have hval : ∀ {e : SlicerEntry ℕ (MapQueue ℕ ℕ)} {x : UmapEntry},
        umapEntryOf mem e = some x →
        x.min = pointerToIpv4 e.slice.lo ∧ x.max = pointerToIpv4 e.slice.hi := by
      intro e x hx
      rw [umapEntryOf] at hx
      split at hx
      · cases hx
      · simp only at hx
        split at hx
        · cases hx
        · obtain rfl := Option.some.inj hx
          exact ⟨rfl, rfl⟩
    rw [(hval hx).2, (hval hy).1, h1, h2]
    exact hab.2.2
  have hle : ∀ x ∈ umapInit mem sl, x.min ≤ x.max := by
    intro x hx
    obtain ⟨e, he, -, rfl⟩ := (mem_umapInit hwf).mp hx
    exact (slice_bounds hwf he).2.2.1
  refine hpw.imp_of_mem fun {a b} ha hb hab => ?_
  have := hle a ha
  have := hle b hb
  simp only
  split_ifs <;> omega

/-- **The array** gives the unit of the owner. -/
theorem mbbUmapFind_init (mem : Memory) (hwf : sl.WF inetDom inetWhole)
    (hord : ∀ e ∈ sl.entries, Ordered TimeSpan (MapQueue.entries e.data)) (hip : inetDom ip) :
    mbbUmapFind (umapInit mem sl) ip t =
      (inetOwner sl ip t).map fun d => (mem.entry d).owner := by
  obtain ⟨l, hl, hlm, hf⟩ := hwf.exists_mem inetOps_lawful hip (Slicer.inetWhole_mem hip)
  have hle : l.val ∈ sl.entries := List.mem_map_of_mem hl
  rw [inetOwner, contentAt, hf, mbbUmapFind, umapBsearch]
  rcases bisect_spec (umapInit_inOrder hwf ip) with ⟨x, hx, h0, hb⟩ | ⟨hno, hb⟩
  · rw [hb]
    obtain ⟨e, he, -, rfl⟩ := (mem_umapInit hwf).mp hx
    -- the element found is that of the slice the address is in
    have hmem : e.slice.Mem ip := by
      rw [(slice_bounds hwf he).2.2.2]
      simp only at h0
      split_ifs at h0 <;> omega
    obtain ⟨l', hl', rfl⟩ := List.mem_map.mp he
    obtain rfl := eq_of_mem_of_before (f := fun l => l.val.slice) hwf.pairwise hl hl' hlm hmem
    exact umapDataSearch_eq (hord _ hle)
  · rw [hb]
    have hnil : MapQueue.entries l.val.data = [] := by
      by_contra hne
      refine hno _ ((mem_umapInit hwf).mpr ⟨l.val, hle, hne, rfl⟩) ?_
      have := ((slice_bounds hwf hle).2.2.2 ip).mp hlm
      simp only
      split_ifs <;> omega
    rw [hnil]
    rfl

theorem UmapReady.ordered_timeSpan (h : UmapReady sl) :
    ∀ e ∈ sl.entries, Ordered TimeSpan (MapQueue.entries e.data) := by
  intro e he
  refine ⟨fun x hx => ?_, (h.ordered e he).before⟩
  obtain ⟨h1, h2, h3⟩ := (h.ordered e he).ok x hx
  refine ⟨fun h0 => ?_, fun h0 => ?_, h3⟩
  · have := h1 h0
    rw [timeDom]
    omega
  · have := h2 h0
    rw [timeDom]
    omega

theorem UmapReady.mapFind_eq (h : UmapReady sl) (hip : ip < 2 ^ 32) (ht : t < 2 ^ 31) :
    mapFind timeOps inetOps (some sl) (ipv4ToPointer ip) (timeToPointer t) =
      some (inetOwner sl ip t) := by
  rw [ipv4ToPointer_of_lt hip, timeToPointer_of_lt (by omega)]
  obtain ⟨l, hl, -, hf⟩ := h.wf.exists_mem inetOps_lawful hip (Slicer.inetWhole_mem hip)
  have ho : Ordered TimeSpan (contentAt inetOps sl ip) := by
    rw [contentAt, hf]
    exact h.ordered_timeSpan _ (List.mem_map_of_mem hl)
  exact congrArg some (mapDataFind_eq timeOps_joins ht _ ho)

/-- The array is empty when no point has an owner. -/
theorem UmapReady.init_eq_nil (h : UmapReady sl) :
    umapInit mem sl = [] ↔ ∀ ip t, ip < 2 ^ 32 → t < 2 ^ 31 - 1 → inetOwner sl ip t = none := by
  constructor
  · intro hnil ip t hip _
    have hfind := mbbUmapFind_init mem (t := t) h.wf h.ordered_timeSpan hip
    rw [hnil] at hfind
    exact Option.map_eq_none_iff.mp hfind.symm
  · intro hno
    rw [List.eq_nil_iff_forall_not_mem]
    intro x hx
    obtain ⟨e, he, hne, -⟩ := (mem_umapInit h.wf).mp hx
    obtain ⟨me, hme⟩ := List.exists_mem_of_ne_nil _ hne
    obtain ⟨l, hl, rfl⟩ := List.mem_map.mp he
    obtain ⟨ip, hip, him⟩ := (h.wf.proper hl).exists_mem exists_inetDom
    have hord := h.ordered _ he
    obtain ⟨t, ht, htm⟩ := (hord.ok me hme).exists_mem ⟨0, by decide⟩
    have hown := hno ip t hip ht
    rw [inetOwner, contentAt, Slicer.find_of_mem inetOps_lawful h.wf hip hl him,
      hord.ownerAt_of_mem hme htm] at hown
    cases hown

/-- The number of queues that are not `NULL`. -/
def queueCount (sl : MapSlicer ℕ ℕ ℕ) : ℕ := (sl.entries.filter fun e => e.data.isSome).length

/-- **The compiled table agrees with the map.** -/
theorem umap_agrees (mem : Memory) {m : Map ℕ ℕ ℕ} (hm : ∀ sl ∈ m, UmapReady sl)
    (hcount : ∀ sl ∈ m, (queueCount sl : Int) ≤ sl.count) :
    (∀ umap, mbbUmapCreate mem m = some umap → ∀ ip t : ℕ, ip < 2 ^ 32 → t < 2 ^ 31 - 1 →
      mbbUmapFind umap ip t =
        (mapFind timeOps inetOps m (ipv4ToPointer ip) (timeToPointer t)).join.map
          fun d => (mem.entry d).owner) ∧
    (mbbUmapCreate mem m = none ↔ ∀ ip t : ℕ, ip < 2 ^ 32 → t < 2 ^ 31 - 1 →
      (mapFind timeOps inetOps m (ipv4ToPointer ip) (timeToPointer t)).join = none) := by
  rcases m with _ | sl
  · refine ⟨fun umap h => ?_, iff_of_true rfl fun _ _ _ _ => rfl⟩
    cases h
  · have h := hm sl rfl
    have hfind : ∀ {ip t : ℕ}, ip < 2 ^ 32 → t < 2 ^ 31 - 1 →
        (mapFind timeOps inetOps (some sl) (ipv4ToPointer ip) (timeToPointer t)).join =
          inetOwner sl ip t := by
      intro ip t hip ht
      rw [h.mapFind_eq hip (by omega)]
      rfl
    -- without queues there is nothing to put into the array
    have hzero : sl.count = 0 → umapInit mem sl = [] := by
      intro h0
      have hlen : queueCount sl = 0 := by
        have := hcount sl rfl
        omega
      rw [List.eq_nil_iff_forall_not_mem]
      intro x hx
      obtain ⟨e, he, hne, -⟩ := (mem_umapInit h.wf).mp hx
      have hmem : e ∈ sl.entries.filter fun e => e.data.isSome := by
        refine List.mem_filter.mpr ⟨he, ?_⟩
        rcases hd : e.data with _ | q
        · rw [hd] at hne
          exact absurd rfl hne
        · rfl
      rw [List.length_eq_zero_iff.mp hlen] at hmem
      cases hmem
    have hcreate : mbbUmapCreate mem (some sl) = umapOrNull (umapInit mem sl) := by
      rw [mbbUmapCreate]
      split
      · rw [hzero ‹_›]
        rfl
      · rfl
    rw [hcreate, umapOrNull]
    constructor
    · intro umap hu ip t hip ht
      split at hu
      · cases hu
      · obtain rfl := Option.some.inj hu
        rw [hfind hip ht]
        exact mbbUmapFind_init mem h.wf h.ordered_timeSpan hip
    · rw [ite_eq_left_iff, List.length_eq_zero_iff]
      simp only [reduceCtorEq, imp_false, not_not]
      rw [h.init_eq_nil]
      refine forall_congr' fun ip => forall_congr' fun t => forall_congr' fun hip =>
        forall_congr' fun ht => ?_
      rw [hfind hip ht]

/-- The table `mbb_umap_from_unit` makes agrees with the unit's map. -/
theorem mbbUmapFromUnit_agrees [TreeShape ℕ] (mem : Memory) {unit : MbbUnit}
    (hu : GlobalMap.UnitOK unit) :
    ∃ r, mbbUmapFromUnit mem unit = some r ∧
      ∀ umap, r = some umap → ∀ ip t : ℕ, ip < 2 ^ 32 → t < 2 ^ 31 →
        mbbUmapFind umap ip t = (unit.lookup t ip).map fun d => (mem.entry d).owner := by
  rw [mbbUmapFromUnit]
  rcases hmap : unit.map with _ | sl
  · exact ⟨none, rfl, fun umap h => by cases h⟩
  · simp only
    split
    · exact ⟨none, rfl, fun umap h => by cases h⟩
    · obtain ⟨s, hm⟩ := hu.map sl hmap
      obtain ⟨sl', s', hadd, hnc, hm', hown⟩ := mapAddMap_empty hm
      rw [hadd]
      simp only [hnc, Option.isSome_none, Bool.false_eq_true, if_false, Option.bind_some]
      refine ⟨_, rfl, fun umap h ip t hip ht => ?_⟩
      rw [umapOrNull] at h
      split at h
      · cases h
      · obtain rfl := Option.some.inj h
        rw [hu.lookup_eq ht hip, hmap, ← hown ip t hip ht]
        refine mbbUmapFind_init mem hm'.wf (fun e he => ?_) hip
        obtain ⟨l, hl, rfl⟩ := List.mem_map.mp he
        exact hm'.live.ordered _ (mem_liveData hl)

end Table

/-- A map with one range. -/
theorem umap_agrees_example :
    letI := TreeShape.plain ℕ
    ∃ sl s, mapAdd timeOps (MapHandlers.null ℕ) inetOps inetMapInit ⟨0x0a000000, 0x0affffff⟩
        ⟨100, 200⟩ 1 (⟨0, (), none⟩ : UnitState) = some (some sl, s) ∧
      UmapReady sl ∧
      (mbbUmapCreate (exampleMemory []) (some sl) = none ↔
        ∀ ip t : ℕ, ip < 2 ^ 32 → t < 2 ^ 31 - 1 →
          (mapFind timeOps inetOps (some sl) (ipv4ToPointer ip) (timeToPointer t)).join =
            none) := by
  let _ := TreeShape.plain ℕ
  have hok : InetOk ⟨0x0a000000, 0x0affffff⟩ := ⟨by decide, by decide, by decide, by decide⟩
  have hd : TimeSpan ⟨100, 200⟩ :=
    ⟨fun _ => by rw [timeDom]; decide, fun _ => by rw [timeDom]; decide, by decide⟩
  have hinit : InetMapOK (fun _ _ => True) (inetSlicerNew (MapQueue ℕ ℕ))
      (⟨0, (), none⟩ : UnitState) := inetMapOK_init trivial
  obtain ⟨sl, s, hadd, hm, -⟩ := mapAdd_rule inetOps_lawful timeOps_joins
    nullHandlers_tracks hinit hok.fits.1 hok.fits.2 hd fun p hp hw _ =>
      ⟨(timeOps_mergeable hd (hinit.ordered_at inetOps_lawful hp hw)).seamless,
        Or.inl fun _ _ _ h => h⟩
  have hrun : (mapAdd timeOps (MapHandlers.null ℕ) inetOps inetMapInit ⟨0x0a000000, 0x0affffff⟩
      ⟨100, 200⟩ 1 (⟨0, (), none⟩ : UnitState)).all (fun r => r.1.all fun sl =>
        (sl.entries.all fun e => (MapQueue.entries e.data).all fun x =>
          decide (x.slice.lo < 2 ^ 31 - 1) && decide (x.slice.hi < 2 ^ 31 - 1)) &&
        decide ((queueCount sl : Int) ≤ sl.count)) = true := by
    decide +kernel
  have hadd' : mapAdd timeOps (MapHandlers.null ℕ) inetOps inetMapInit ⟨0x0a000000, 0x0affffff⟩
      ⟨100, 200⟩ 1 (⟨0, (), none⟩ : UnitState) = some (some sl, s) := hadd
  rw [hadd'] at hrun
  simp only [Option.all_some, Bool.and_eq_true, List.all_eq_true, decide_eq_true_eq] at hrun
  have hready : UmapReady sl := by
    refine ⟨hm.wf, fun e he => ?_⟩
    obtain ⟨l, hl, rfl⟩ := List.mem_map.mp he
    have hord := hm.live.ordered _ (mem_liveData hl)
    refine ⟨fun x hx => ?_, hord.before⟩
    obtain ⟨h1, h2⟩ := hrun.1 _ he x hx
    exact ⟨fun _ => h1, fun _ => h2, (hord.ok x hx).le⟩
  refine ⟨sl, s, hadd', hready, (umap_agrees (exampleMemory []) (m := some sl) ?_ ?_).2⟩
  · intro sl' hsl'
    obtain rfl := Option.some.inj hsl'
    exact hready
  · intro sl' hsl'
    obtain rfl := Option.some.inj hsl'
    exact hrun.2

end Mbb
