import Mbb.MapRemove

/-!
# Runs of a map

For keys that are linear orders with exact neighbours, `map_add` and `map_del` have the meaning
one reads off their arguments: a rectangle gets an owner, unless some point of it has one, or
loses its owners. What lies between entries of one owner is no part of either when they are
joined, because they are joined only when nothing lies between.
-/

namespace Mbb

variable {P Q α ν : Type} [LinearOrder P] [Zero P] [LinearOrder Q] [Zero Q] [DecidableEq α]

/-- What the users of a map do with it. -/
inductive MapAct (P Q α : Type) : Type where
  /-- `map_add` -/
  | add (key : Slice P) (dkey : Slice Q) (ptr : α)
  /-- `map_del` -/
  | del (key : Slice P) (dkey : Slice Q) (ptr : Option α)
  /-- `map_glue_null` -/
  | glueNull

section Model

variable [TreeShape P] (ops : SliceOps Q) (h : MapHandlers ν α) (keys : SliceOps P)

/-- One act. -/
def MapAct.exec (m : Map P Q α) (s : MapState Q α ν) :
    MapAct P Q α → Option (Map P Q α × MapState Q α ν)
  | .add key dkey ptr => mapAdd ops h keys m key dkey ptr s
  | .del key dkey ptr => mapDel ops h keys m key dkey ptr s
  | .glueNull => some (mapGlueNull ops h keys m s)

/-- The acts one after the other. -/
def runMap : List (MapAct P Q α) → Map P Q α → MapState Q α ν →
    Option (Map P Q α × MapState Q α ν)
  | [], m, s => some (m, s)
  | a :: as, m, s => (a.exec ops h keys m s).bind fun r => runMap as r.1 r.2

variable {ops h keys} in
/-- What each act keeps where it may be made holds at the end of a run; `Ok` says of the acts that
are left that they may be made. -/
theorem runMap_keeps {I : Map P Q α → MapState Q α ν → Prop}
    {Ok : List (MapAct P Q α) → Map P Q α → MapState Q α ν → Prop}
    (hstep : ∀ {a as m m' s s'}, I m s → Ok (a :: as) m s →
      a.exec ops h keys m s = some (m', s') → I m' s' ∧ Ok as m' s') (acts : List (MapAct P Q α)) :
    ∀ {m m' : Map P Q α} {s s' : MapState Q α ν}, I m s → Ok acts m s →
      runMap ops h keys acts m s = some (m', s') → I m' s' := by
  induction acts with
  | nil =>
    intro m m' s s' hI _ he
    obtain ⟨rfl, rfl⟩ := Prod.mk.inj (Option.some.inj he)
    exact hI
  | cons a as ih =>
    intro m m' s s' hI hok he
    obtain ⟨⟨m₁, s₁⟩, he₁, he⟩ := Option.bind_eq_some_iff.mp he
    obtain ⟨hI₁, hok₁⟩ := hstep hI hok he₁
    exact ih hI₁ hok₁ he

end Model

/-- The rectangle of an act, if it has one, satisfies `C`. -/
def MapAct.On (C : Slice P → Slice Q → Prop) : MapAct P Q α → Prop
  | .add key dkey _ => C key dkey
  | .del key dkey _ => C key dkey
  | .glueNull => True

/-! ## Second keys with exact neighbours

For such keys the conditions on cuts are met by every range, and entries are joined only where
nothing lies between them.
-/

/-- Second keys in a linear order, with exact neighbours that are never `NULL`, and compared as
`1` with their neighbour. -/
structure SliceOps.Exact (o : SliceOps Q) : Prop where
  /-- the comparison is the order -/
  lawful : o.Lawful (· ≠ 0)
  /-- `inc` and `dec` are the neighbours -/
  neighbours : o.Neighbours (· ≠ 0) ⟨0, 0⟩
  /-- the difference to the neighbour is 1 -/
  cmp_one : ∀ {x y : Q}, x ≠ 0 → y ≠ 0 → (o.cmp x y = 1 ↔ Next (· ≠ 0) y x)

namespace SliceOps.Exact

variable {ops : SliceOps Q} (hx : ops.Exact)
include hx

theorem fits {a r : Span Q} (hr : r.Proper (· ≠ 0)) : ops.Fits (· ≠ 0) a r where
  proper := hr
  dec_ok h0 _ := hx.neighbours.dec_ok _ h0 h0 (Or.inl rfl)
  inc_ok h0 _ := hx.neighbours.inc_ok _ h0 h0 (Or.inl rfl)

/-- Slices of such keys can be joined and cut. -/
theorem cuts : ops.Cuts (· ≠ 0) (Span.Proper (· ≠ 0)) where
  lawful := hx.lawful
  proper h := h
  join ha hb hab := ha.join hb hab
  fits _ hr := hx.fits hr
  parts {a r y x z} ha hr hcross := by
    have hmeet : a.Meets r := by
      by_contra hn
      rw [hx.lawful.sliceCross_none ha hr hn] at hcross
      cases hcross
    obtain ⟨x', y', z', hcross', htiles, -⟩ := hx.lawful.sliceCross_some ha (hx.fits hr) hmeet
    rw [hcross] at hcross'
    obtain ⟨rfl, rfl, rfl⟩ : x = x' ∧ y = y' ∧ z = z' := by simpa using hcross'
    exact ⟨fun s hs => htiles.proper s (by simp [Option.mem_def.mp hs]),
      fun s hs => htiles.proper s (by simp [Option.mem_def.mp hs])⟩

omit [DecidableEq α] in
/-- Entries are joined without gaps. -/
theorem mergeable (cur : MapEntry Q α) (es : List (MapEntry Q α)) :
    Mergeable ops (· ≠ 0) cur es := fun _ _ _ =>
  ⟨fun hb hc => (hx.cmp_one hb.2.1 hb.1).mp hc, fun hb hc => (hx.cmp_one hb.2.1 hb.1).mp hc⟩

end SliceOps.Exact

/-! ## Rectangles

The rules of the map said of points, and kept by every run.
-/

omit [DecidableEq α] in
/-- Handlers about which nothing is known. -/
theorem MapHandlers.tracks_true (h : MapHandlers ν α) : h.Tracks fun _ _ => True :=
  ⟨fun _ => trivial, fun _ => trivial⟩

section Rects

variable [TreeShape P] {ops : SliceOps Q} {keys : SliceOps P} {w : Span P} {key : Slice P}
  {dkey : Slice Q} {h : MapHandlers ν α} {sl : MapSlicer P Q α} {s : MapState Q α ν}

/-- A map of such keys in order, whatever its handlers know. -/
abbrev PlainMapOK (w : Span P) (sl : MapSlicer P Q α) (s : MapState Q α ν) : Prop :=
  MapOK (fun _ _ => True) (· ≠ 0) w (Span.Proper (· ≠ 0)) sl s

/-- The point is a point of the map, and of the rectangle. -/
structure InRect (w : Span P) (key : Slice P) (dkey : Slice Q) (p : P) (q : Q) : Prop where
  /-- a key -/
  key_ne : p ≠ 0
  /-- of the map -/
  whole : w.Mem p
  /-- of the rectangle -/
  key_mem : key.Mem p
  /-- a second key -/
  dkey_ne : q ≠ 0
  /-- of the rectangle -/
  dkey_mem : dkey.Mem q

/-- The rectangle has a point in the map. -/
def InMap (w : Span P) (key : Slice P) (dkey : Slice Q) : Prop := ∃ p q, InRect w key dkey p q

/-- What `map_add` promises: `found` when some point of the rectangle has an owner, else the
rectangle has the owner and all else is as before. -/
structure AddsRect (ops : SliceOps Q) (keys : SliceOps P) (w : Span P) (key : Slice P)
    (dkey : Slice Q) (ptr : α) (sl sl' : MapSlicer P Q α) (cross : Option (MapCross Q α)) :
    Prop where
  /-- a point has an owner -/
  found : cross.isSome ↔
    ∃ p q a, InRect w key dkey p q ∧ mapFind ops keys (some sl) p q = some (some a)
  /-- one of them is named -/
  data : ∀ c, cross = some c →
    ∃ p q, InRect w key dkey p q ∧ mapFind ops keys (some sl) p q = some (some c.data)
  /-- the owners afterwards -/
  owner : cross = none → ∀ p q, p ≠ 0 → w.Mem p → q ≠ 0 →
    mapFind ops keys (some sl') p q =
      if key.Mem p ∧ dkey.Mem q then some (some ptr) else mapFind ops keys (some sl) p q

/-- What `map_del` promises: points of the rectangle lose the owner, or any owner for `NULL`. -/
def DelsRect (ops : SliceOps Q) (keys : SliceOps P) (w : Span P) (key : Slice P) (dkey : Slice Q)
    (ptr : Option α) (sl sl' : MapSlicer P Q α) : Prop :=
  ∀ p q, p ≠ 0 → w.Mem p → q ≠ 0 →
    mapFind ops keys (some sl') p q =
      if key.Mem p ∧ dkey.Mem q ∧ (ptr = none ∨ mapFind ops keys (some sl) p q = some ptr)
      then some none else mapFind ops keys (some sl) p q

omit [TreeShape P] in
theorem InMap.spans (h : InMap w key dkey) :
    Slicer.Crosses (· ≠ 0) w key ∧ dkey.Proper (· ≠ 0) ∧ ∃ q : Q, q ≠ 0 := by
  obtain ⟨p, q, hp, hw, hkp, hq, hdq⟩ := h
  refine ⟨⟨p, hp, hw, hkp⟩, ⟨id, id, ?_⟩, q, hq⟩
  rcases hdq.1 with h1 | h1
  · exact Or.inl h1
  · exact Or.inr (hdq.2.imp id fun h2 => h1.trans h2)

section

variable (hk : keys.Lawful (· ≠ 0)) (hn : keys.Neighbours (· ≠ 0) w) (hx : ops.Exact)
include hk hn hx

theorem mapAdd_rect (hm : PlainMapOK w sl s) (hin : InMap w key dkey) (ptr : α) :
    ∃ sl' s', mapAdd ops h keys (some sl) key dkey ptr s = some (some sl', s') ∧
      PlainMapOK w sl' s' ∧ AddsRect ops keys w key dkey ptr sl sl' s'.cross := by
  obtain ⟨hcr, hd, hne⟩ := hin.spans
  obtain ⟨sl', s', he, hm', hcont, hcross⟩ := mapAdd_rule hk hx.cuts.toJoins
    (h.tracks_true) hm (hcr.fits hn) hcr hd fun p _ _ _ =>
      ⟨(hx.mergeable _ _).seamless, Or.inl fun _ _ _ _ => trivial⟩
  have hfind := fun {p q} hp hw hq => hm.mapFind_eq (p := p) (q := q) hk hx.cuts.toJoins hp hw hq
  have hfind' := fun {p q} hp hw hq => hm'.mapFind_eq (p := p) (q := q) hk hx.cuts.toJoins hp hw hq
  -- a crossing names the owner of a point
  have hdata : ∀ c, s'.cross = some c →
      ∃ p q, InRect w key dkey p q ∧ mapFind ops keys (some sl) p q = some (some c.data) := by
    intro c hc
    obtain ⟨p, hp, hw, hkp, e, hes, hmeet, rfl⟩ := hcross c hc
    have hord := hm.ordered_at hk hp hw
    obtain ⟨q, hq, heq, hdq⟩ := hmeet.exists_mem hne (hord.ok e hes) hd
    refine ⟨p, q, ⟨hp, hw, hkp, hq, hdq⟩, ?_⟩
    rw [hfind hp hw hq, hord.ownerAt_of_mem hes heq]
  -- without one, the entry was added at each key
  have hadd : s'.cross = none → ∀ {p}, p ≠ 0 → w.Mem p → key.Mem p →
      Added (· ≠ 0) ⟨dkey, ptr⟩ (contentAt keys sl p) (contentAt keys sl' p) := by
    intro hc p hp hw hkp
    refine ((hcont p hp hw).1 hkp).resolve_right fun hcr => ?_
    rw [hc] at hcr
    exact Bool.noConfusion hcr.1
  refine ⟨sl', s', he, hm', ⟨?_, ?_⟩, hdata, ?_⟩
  · intro hsome
    obtain ⟨c, hc⟩ := Option.isSome_iff_exists.mp hsome
    obtain ⟨p, q, hr, hf⟩ := hdata c hc
    exact ⟨p, q, c.data, hr, hf⟩
  · rintro ⟨p, q, a, hr, hf⟩
    by_contra hnone
    have hfree := (hadd (Option.not_isSome_iff_eq_none.mp hnone) hr.key_ne hr.whole
      hr.key_mem).free q hr.dkey_ne hr.dkey_mem
    rw [hfind hr.key_ne hr.whole hr.dkey_ne, hfree] at hf
    cases hf
  · intro hc p q hp hw hq
    rw [hfind' hp hw hq, hfind hp hw hq]
    by_cases hkp : key.Mem p
    · rw [(hadd hc hp hw hkp).owner q hq]
      by_cases hdq : dkey.Mem q
      · rw [if_pos hdq, if_pos ⟨hkp, hdq⟩]
      · rw [if_neg hdq, if_neg fun hr => hdq hr.2]
    · rw [(hcont p hp hw).2 hkp, if_neg fun hr => hkp hr.1]

theorem mapDel_rect (hm : PlainMapOK w sl s) (hin : InMap w key dkey) (ptr : Option α) :
    ∃ sl' s', mapDel ops h keys (some sl) key dkey ptr s = some (some sl', s') ∧
      PlainMapOK w sl' s' ∧ DelsRect ops keys w key dkey ptr sl sl' := by
  obtain ⟨hcr, hd, -⟩ := hin.spans
  obtain ⟨sl', s', he, hm', -, hcont⟩ := mapDel_rule (s := s) hk hx.cuts (h.tracks_true) hm
    (hcr.fits hn) hcr hd ptr
  refine ⟨sl', s', he, hm', fun p q hp hw hq => ?_⟩
  rw [hm.mapFind_eq hk hx.cuts.toJoins hp hw hq, hm'.mapFind_eq hk hx.cuts.toJoins hp hw hq]
  by_cases hkp : key.Mem p
  · rw [(hcont p hp hw).1 hkp q hq]
    cases ownerAt (contentAt keys sl p) q with
    | none => simp only [ite_self]
    | some a =>
      have hnames : (∀ b ∈ some a, (⟨dkey, ptr⟩ : MapArg Q α).Names b) ↔
          ptr = none ∨ some (some a) = some ptr := by
        simp only [Option.mem_some_iff, forall_eq', MapArg.Names, Option.some.injEq]
        rw [eq_comm (a := ptr) (b := some a)]
      simp only [hnames, hkp, true_and]
      split <;> rfl
  · rw [(hcont p hp hw).2 hkp, if_neg fun hr => hkp hr.1]

/-- Each act keeps the map in order. -/
theorem MapAct.exec_ok {act : MapAct P Q α} (hin : act.On (InMap w)) (hm : PlainMapOK w sl s) :
    ∃ sl' s', act.exec ops h keys (some sl) s = some (some sl', s') ∧ PlainMapOK w sl' s' := by
  cases act with
  | add key dkey ptr =>
    obtain ⟨sl', s', he, hm', -⟩ := mapAdd_rect (h := h) hk hn hx hm hin ptr
    exact ⟨sl', s', he, hm'⟩
  | del key dkey ptr =>
    obtain ⟨sl', s', he, hm', -⟩ := mapDel_rect (h := h) hk hn hx hm hin ptr
    exact ⟨sl', s', he, hm'⟩
  | glueNull =>
    obtain ⟨sl', s', he, hm', -⟩ := mapGlueNull_rule ops hk (h.tracks_true) hm
    exact ⟨sl', s', congrArg some he, hm'⟩

/-- A run of any acts keeps a map well formed. -/
theorem runMap_ok (acts : List (MapAct P Q α)) :
    ∀ {sl : MapSlicer P Q α} {s : MapState Q α ν}, (∀ a ∈ acts, a.On (InMap w)) →
      PlainMapOK w sl s →
      ∃ sl' s', runMap ops h keys acts (some sl) s = some (some sl', s') ∧ PlainMapOK w sl' s' := by
  induction acts with
  | nil => exact fun {sl s} _ hm => ⟨sl, s, rfl, hm⟩
  | cons a as ih =>
    intro sl s hin hm
    obtain ⟨sl₁, s₁, he₁, hm₁⟩ := a.exec_ok (h := h) hk hn hx (hin a List.mem_cons_self) hm
    obtain ⟨sl', s', he, hm'⟩ := ih (fun b hb => hin b (List.mem_cons_of_mem _ hb)) hm₁
    refine ⟨sl', s', ?_, hm'⟩
    rw [runMap, he₁]
    exact he

/-- **Rectangles.** In every run from a map that is empty, queues are sorted and their slices
apart, `map_add` of a rectangle finds that it crosses another or gives it its owner, and
`map_del` takes exactly the owner asked for from exactly the rectangle. -/
theorem map_rectangles (hw : w.Proper (· ≠ 0)) (acts : List (MapAct P Q α))
    (hin : ∀ a ∈ acts, a.On (InMap w)) (s₀ : MapState Q α ν) :
    ∃ sl s, runMap ops h keys acts (some ((Slicer.new : MapSlicer P Q α).init keys w.lo w.hi)) s₀ =
        some (some sl, s) ∧
      (∀ e ∈ sl.entries,
        (MapQueue.entries e.data).Pairwise fun a b => a.slice.Before b.slice) ∧
      (∀ key dkey ptr, InMap w key dkey →
        ∃ sl' s', mapAdd ops h keys (some sl) key dkey ptr s = some (some sl', s') ∧
          AddsRect ops keys w key dkey ptr sl sl' s'.cross) ∧
      ∀ key dkey ptr, InMap w key dkey →
        ∃ sl' s', mapDel ops h keys (some sl) key dkey ptr s = some (some sl', s') ∧
          DelsRect ops keys w key dkey ptr sl sl' := by
  obtain ⟨sl, s, he, hm⟩ := runMap_ok (h := h) hk hn hx acts hin
    (mapOK_init (R := fun _ _ => True) (s := s₀) hk hw trivial)
  refine ⟨sl, s, he, fun e hent => ?_, fun key dkey ptr hr => ?_, fun key dkey ptr hr => ?_⟩
  · obtain ⟨l, hl, rfl⟩ := List.mem_map.mp hent
    exact (hm.live.ordered _ (mem_liveData hl)).before
  · obtain ⟨sl', s', he', -, hadd⟩ := mapAdd_rect (h := h) hk hn hx hm hr ptr
    exact ⟨sl', s', he', hadd⟩
  · obtain ⟨sl', s', he', -, hdel⟩ := mapDel_rect (h := h) hk hn hx hm hr ptr
    exact ⟨sl', s', he', hdel⟩

end

end Rects

/-- Second keys that are numbers other than zero: `-1` and `1` are neighbours. -/
def intOps : SliceOps ℤ where
  cmp x y := (if 0 < x then x - 1 else x) - (if 0 < y then y - 1 else y)
  dup := id
  inc k := if k = -1 then 1 else k + 1
  dec k := if k = 1 then -1 else k - 1

theorem intOps_exact : intOps.Exact where
  lawful := by
    refine ⟨fun ha hb => ?_, fun ha hb => ?_, fun _ => rfl⟩ <;>
      · simp only [intOps]
        split <;> split <;> omega
  neighbours := by
    refine ⟨fun k hk _ _ => ?_, fun k hk _ _ => ?_⟩ <;> simp only [intOps, Next]
    · split
      · exact ⟨by omega, by omega, by omega, fun c hc => by omega⟩
      · exact ⟨by omega, by omega, by omega, fun c hc => by omega⟩
    · split
      · exact ⟨by omega, by omega, by omega, fun c hc => by omega⟩
      · exact ⟨by omega, by omega, by omega, fun c hc => by omega⟩
  cmp_one {x y} hx hy := by
    simp only [intOps, Next]
    constructor
    · intro h
      refine ⟨by split at h <;> split at h <;> omega, fun c hc => ?_⟩
      split at h <;> split at h <;> omega
    · rintro ⟨hlt, hnext⟩
      have hy1 := hnext (y + 1)
      have hx1 := hnext (x - 1)
      split <;> split <;> omega

/-- Two rectangles of one owner side by side, a column of them deleted, and one more above. -/
theorem map_rectangles_joined :
    letI := TreeShape.plain ℤ
    ∃ sl s, runMap intOps (MapHandlers.null ℕ) intOps
        [.add ⟨1, 5⟩ ⟨-2, -1⟩ 7, .add ⟨3, 9⟩ ⟨1, 4⟩ 7, .del ⟨4, 4⟩ ⟨0, 0⟩ none]
        (some ((Slicer.new : MapSlicer ℤ ℤ ℕ).init intOps 0 0)) ⟨0, (), none⟩ =
        some (some sl, s) ∧
      ∃ sl' s', mapAdd intOps (MapHandlers.null ℕ) intOps (some sl) ⟨2, 3⟩ ⟨5, 0⟩ 8 s =
          some (some sl', s') ∧
        AddsRect intOps intOps ⟨0, 0⟩ ⟨2, 3⟩ ⟨5, 0⟩ 8 sl sl' s'.cross := by
  let _ := TreeShape.plain ℤ
  have hw : Span.Proper (· ≠ 0) (⟨0, 0⟩ : Span ℤ) := ⟨id, id, Or.inl rfl⟩
  obtain ⟨sl, s, he, -, hadd, -⟩ := map_rectangles (α := ℕ) (h := MapHandlers.null ℕ)
    intOps_exact.lawful intOps_exact.neighbours intOps_exact hw
    [.add ⟨1, 5⟩ ⟨-2, -1⟩ 7, .add ⟨3, 9⟩ ⟨1, 4⟩ 7, .del ⟨4, 4⟩ ⟨0, 0⟩ none] (by
      intro a ha
      simp only [List.mem_cons, List.not_mem_nil, or_false] at ha
      rcases ha with rfl | rfl | rfl
      · exact ⟨1, -1, by decide, by decide, by decide, by decide, by decide⟩
      · exact ⟨3, 1, by decide, by decide, by decide, by decide, by decide⟩
      · exact ⟨4, 1, by decide, by decide, by decide, by decide, by decide⟩) ⟨0, (), none⟩
  exact ⟨sl, s, he, hadd ⟨2, 3⟩ ⟨5, 0⟩ 8
    ⟨2, 5, by decide, by decide, by decide, by decide, by decide⟩⟩

end Mbb
