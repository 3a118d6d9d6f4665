import Mbb.MapKeys
import Mbb.MapRun

/-!
# Gaps in time maps

`map_data_split` joins two entries of one owner when the begin of the second compares as `1` with
the end of the first. `inet_cmp` returns `1` for any greater address, so in a time map a new range
swallows the addresses between it and the next range of the same owner. As long as no range is
added beside a gap of its owner, the owners are those of the rectangles added, at the instants
below `2 ^ 31`: what `time_cmp` says of a later one and an early begin has the wrong sign.
-/

namespace Mbb

/-- A rectangle for a time map, and its owner. -/
structure TimeRect : Type where
  /-- the times -/
  key : Slice ℕ
  /-- the addresses -/
  dkey : Slice ℕ
  /-- the owner -/
  ptr : ℕ

/-- The rectangle has the point. -/
def TimeRect.Has (r : TimeRect) (t ip : ℕ) : Prop := r.key.Mem t ∧ r.dkey.Mem ip

section Model

variable [TreeShape ℕ] {ν : Type} (h : MapHandlers ν ℕ) (s₀ : MapState ℕ ℕ ν)

/-- The maps that are reached from `time_map_init` when `map_add` is called for rectangles, the
last one first, each with `C`, and finds no cross. -/
inductive TimeMapRun (C : Map ℕ ℕ ℕ → TimeRect → Prop) :
    List TimeRect → Map ℕ ℕ ℕ → MapState ℕ ℕ ν → Prop where
  /-- `time_map_init` -/
  | init : TimeMapRun C [] timeMapInit s₀
  /-- `map_add` -/
  | add {rs : List TimeRect} {m m' : Map ℕ ℕ ℕ} {s s' : MapState ℕ ℕ ν} (r : TimeRect)
    (run : TimeMapRun C rs m s) (cond : C m r)
    (call : mapAdd inetOps h timeOps m r.key r.dkey r.ptr s = some (m', s'))
    (cross : s'.cross = none) : TimeMapRun C (r :: rs) m' s'

end Model

/-- The owner of an address at an instant. -/
abbrev timeOwner (m : Map ℕ ℕ ℕ) (t ip : ℕ) : Option (Option ℕ) := mapFind inetOps timeOps m t ip

/-- Each owner has the points of its rectangles and no others, at the instants that `time_cmp` has
in order. -/
def OwnsRects (rs : List TimeRect) (m : Map ℕ ℕ ℕ) : Prop :=
  ∀ t ip ptr, timeDom t → inetDom ip →
    (timeOwner m t ip = some (some ptr) ↔ ∃ r ∈ rs, r.ptr = ptr ∧ r.Has t ip)

/-- The rectangle is one of times that are encoded rightly and of addresses, and at each of these
times the owned address next to it on either side, if the owner is the same, touches it.

This is enough for a rectangle to do no harm, not what each harmless one has: one whose times or
addresses are out of order has no points, and a time of `2 ^ 31 - 1` or later can be in order with
those that happen to be in the map. -/
structure Gapless (m : Map ℕ ℕ ℕ) (r : TimeRect) : Prop where
  /-- times -/
  interval : Slicer.Interval r.key.lo r.key.hi
  /-- the time before the first is not taken for an open end -/
  start_ne : r.key.lo ≠ 1
  /-- addresses -/
  dkey : r.dkey.Proper inetDom
  /-- the next owned address before the range -/
  below : ∀ t ip, timeDom t → r.key.Mem t → ip < r.dkey.lo → timeOwner m t ip = some (some r.ptr) →
    (∀ x, ip < x → x < r.dkey.lo → timeOwner m t x = some none) → ip + 1 = r.dkey.lo
  /-- the next owned address behind the range -/
  above : ∀ t ip, timeDom t → r.key.Mem t → inetDom ip → r.dkey.hi ≠ 0 → r.dkey.hi < ip →
    timeOwner m t ip = some (some r.ptr) →
    (∀ x, r.dkey.hi < x → x < ip → timeOwner m t x = some none) → r.dkey.hi + 1 = ip

theorem inetOps_joins : inetOps.Joins inetDom (Span.Proper inetDom) where
  lawful := inetOps_lawful
  proper h := h
  join ha hb hab := ha.join hb hab

section Queue

variable {A B : List (MapEntry ℕ ℕ)} {cur : MapEntry ℕ ℕ}

/-- Nothing is owned between the entries before the new one and the new one. -/
theorem not_mem_of_last {a : MapEntry ℕ ℕ} (ho : Ordered (Span.Proper inetDom) (A ++ B))
    (hB : ∀ b ∈ B, cur.slice.Before b.slice) (hcur : cur.slice.Proper inetDom)
    (ha : a ∈ A.getLast?) (ha0 : a.slice.hi ≠ 0) (hlo : cur.slice.lo ≠ 0) {x : ℕ}
    (hax : a.slice.hi < x) (hx : x < cur.slice.lo) : ownerAt (A ++ B) x = none := by
  obtain ⟨A', rfl⟩ := List.getLast?_eq_some_iff.mp ha
  refine ownerAt_eq_none.mpr fun e he hm => ?_
  rcases List.mem_append.mp he with he | he
  · rcases List.mem_append.mp he with he | he
    · -- before the last one, so before `x`
      have hbef : e.slice.Before a.slice :=
        (List.pairwise_append.mp (List.pairwise_append.mp ho.before).1).2.2 e he a
          (List.mem_singleton_self a)
      have hle := (ho.ok a (by simp)).le.resolve_left hbef.2.1 |>.resolve_left ha0
      have := hm.2.resolve_left hbef.1
      have := hbef.2.2
      omega
    · obtain rfl := List.mem_singleton.mp he
      have := hm.2.resolve_left ha0
      omega
  · obtain ⟨h1, h2, h3⟩ := hB e he
    have := hm.1.resolve_left h2
    have := (hcur.le.resolve_left hlo).resolve_left h1
    omega

/-- Nor between it and the entries after it. -/
theorem not_mem_of_head {b : MapEntry ℕ ℕ} (ho : Ordered (Span.Proper inetDom) (A ++ B))
    (hA : ∀ a ∈ A, a.slice.Before cur.slice) (hcur : cur.slice.Proper inetDom)
    (hb : b ∈ B.head?) (hb0 : b.slice.lo ≠ 0) (hhi : cur.slice.hi ≠ 0) {x : ℕ}
    (hx : cur.slice.hi < x) (hxb : x < b.slice.lo) : ownerAt (A ++ B) x = none := by
  obtain ⟨B', rfl⟩ := List.head?_eq_some_iff.mp hb
  refine ownerAt_eq_none.mpr fun e he hm => ?_
  rcases List.mem_append.mp he with he | he
  · obtain ⟨h1, h2, h3⟩ := hA e he
    have := hm.2.resolve_left h1
    have := (hcur.le.resolve_left h2).resolve_left hhi
    omega
  · rcases List.mem_cons.mp he with rfl | he
    · have := hm.1.resolve_left hb0
      omega
    · have hbef : b.slice.Before e.slice :=
        (List.pairwise_cons.mp (List.pairwise_append.mp ho.before).2.1).1 e he
      have hle := (ho.ok b (by simp)).le.resolve_left hb0 |>.resolve_left hbef.1
      have := hm.1.resolve_left hbef.2.1
      have := hbef.2.2
      omega

end Queue

/-- A time map in order, whatever its handlers know. -/
abbrev TimeMapOK {ν : Type} (sl : MapSlicer ℕ ℕ ℕ) (s : MapState ℕ ℕ ν) : Prop :=
  MapOK (fun _ _ => True) timeDom timeWhole (Span.Proper inetDom) sl s

section Step

variable {ν : Type} {sl sl' : MapSlicer ℕ ℕ ℕ} {s s' : MapState ℕ ℕ ν} {r : TimeRect} {t ip : ℕ}

theorem TimeMapOK.timeOwner_eq (hm : TimeMapOK sl s) (ht : timeDom t) (hip : inetDom ip) :
    timeOwner (some sl) t ip = some (ownerAt (contentAt timeOps sl t) ip) :=
  hm.mapFind_eq timeOps_lawful inetOps_joins ht (Slicer.timeWhole_mem t) hip

/-- No gap is swallowed. -/
theorem Gapless.seamless (hg : Gapless (some sl) r) (hm : TimeMapOK sl s) (ht : timeDom t)
    (hkey : r.key.Mem t) :
    Seamless inetOps inetDom ⟨r.dkey, r.ptr⟩ (contentAt timeOps sl t) := by
  have ho := hm.ordered_at timeOps_lawful ht (Slicer.timeWhole_mem t)
  have hnext : ∀ {x y : ℕ}, x + 1 = y → Next inetDom x y := by
    rintro x y rfl
    exact ⟨by omega, fun c _ => by omega⟩
  intro A B hes hA hB
  rw [hes] at ho
  refine ⟨fun a ha hd _ => ?_, fun b hb hd _ => ?_⟩
  · have hmem := List.mem_of_getLast? ha
    obtain ⟨h1, h2, h3⟩ := hA a hmem
    have hpa := ho.ok a (List.mem_append_left _ hmem)
    have hdom := hpa.hi_dom h1
    apply hnext
    refine hg.below t a.slice.hi ht hkey h3 ?_ fun x hax hx => ?_
    · rw [hm.timeOwner_eq ht hdom, hes,
        ho.ownerAt_of_mem (List.mem_append_left _ hmem) ⟨hpa.le.imp id (·.resolve_left h1),
          Or.inr le_rfl⟩, hd]
    · rw [hm.timeOwner_eq ht (lt_trans hx (hg.dkey.lo_dom h2)), hes,
        not_mem_of_last ho hB hg.dkey ha h1 h2 hax hx]
  · have hmem := List.mem_of_mem_head? hb
    obtain ⟨h1, h2, h3⟩ := hB b hmem
    have hpb := ho.ok b (List.mem_append_right _ hmem)
    have hdom := hpb.lo_dom h2
    apply hnext
    refine hg.above t b.slice.lo ht hkey hdom h1 h3 ?_ fun x hx hxb => ?_
    · rw [hm.timeOwner_eq ht hdom, hes,
        ho.ownerAt_of_mem (List.mem_append_right _ hmem) ⟨Or.inr le_rfl, hpb.le.resolve_left h2⟩,
        hd]
    · rw [hm.timeOwner_eq ht (lt_trans hxb hdom), hes,
        not_mem_of_head ho hA hg.dkey hb h2 h1 hx hxb]

variable [TreeShape ℕ] {h : MapHandlers ν ℕ} {rs : List TimeRect}

/-- One rectangle: its points get the owner, unless it crosses another. -/
theorem mapAdd_gapless (rs : List TimeRect) (hm : TimeMapOK sl s) (hg : Gapless (some sl) r) :
    ∃ sl' s', mapAdd inetOps h timeOps (some sl) r.key r.dkey r.ptr s = some (some sl', s') ∧
      TimeMapOK sl' s' ∧
      (s'.cross = none → OwnsRects rs (some sl) → OwnsRects (r :: rs) (some sl')) := by
  obtain ⟨hfits, hcr⟩ := Slicer.interval_fits hg.interval hg.start_ne
  obtain ⟨sl', s', he, hm', hcont, -⟩ := mapAdd_rule (s := s) timeOps_lawful
    inetOps_joins h.tracks_true hm hfits hcr hg.dkey fun t ht _ hkey =>
      ⟨hg.seamless hm ht hkey, Or.inl fun _ _ _ _ => trivial⟩
  refine ⟨sl', s', he, hm', fun hc hown t ip ptr ht hip => ?_⟩
  have hold := hown t ip ptr ht hip
  rw [hm.timeOwner_eq ht hip, Option.some.injEq] at hold
  rw [TimeMapOK.timeOwner_eq hm' ht hip, Option.some.injEq]
  obtain ⟨hin, hout⟩ := hcont t ht (Slicer.timeWhole_mem t)
  have hcons : (∃ r' ∈ r :: rs, r'.ptr = ptr ∧ r'.Has t ip) ↔
      (r.ptr = ptr ∧ r.Has t ip) ∨ ∃ r' ∈ rs, r'.ptr = ptr ∧ r'.Has t ip := by
    simp only [List.mem_cons, exists_eq_or_imp]
  rw [hcons, ← hold]
  by_cases hkey : r.key.Mem t
  · have hadd := (hin hkey).resolve_right fun hcross => by simp [hc] at hcross
    rw [hadd.owner ip hip]
    by_cases hdkey : r.dkey.Mem ip
    · rw [if_pos hdkey, hadd.free ip hip hdkey]
      simp [TimeRect.Has, hkey, hdkey]
    · rw [if_neg hdkey]
      simp [TimeRect.Has, hdkey]
  · rw [hout hkey]
    simp [TimeRect.Has, hkey]

/-- Every map that is reached is in order, and owners have their rectangles. -/
theorem TimeMapRun.ownsRects {s₀ : MapState ℕ ℕ ν} {m : Map ℕ ℕ ℕ}
    (hrun : TimeMapRun h s₀ Gapless rs m s) :
    ∃ sl, m = some sl ∧ TimeMapOK sl s ∧ OwnsRects rs m := by
  induction hrun with
  | init =>
    have hm : TimeMapOK (timeSlicerNew (MapQueue ℕ ℕ)) s₀ :=
      mapOK_init timeOps_lawful Slicer.timeWhole_proper trivial
    refine ⟨_, rfl, hm, fun t ip ptr ht hip => ?_⟩
    have hown := TimeMapOK.timeOwner_eq hm ht hip
    have hnil : contentAt timeOps (timeSlicerNew (MapQueue ℕ ℕ)) t = [] :=
      contentAt_init timeOps_lawful Slicer.timeWhole_proper ht (Slicer.timeWhole_mem t)
    rw [hnil] at hown
    have hinit : timeOwner timeMapInit t ip = some none := hown
    simp [hinit]
  | @add rs m m' s s' r hrun cond call cross ih =>
    obtain ⟨sl, rfl, hm, hown⟩ := ih
    obtain ⟨sl', s₁, he, hm', hstep⟩ := mapAdd_gapless (h := h) rs hm cond
    obtain ⟨rfl, rfl⟩ := Prod.mk.inj (Option.some.inj (call.symm.trans he))
    exact ⟨sl', rfl, hm', hstep cross hown⟩

end Step

/-- **Gaps.** In every run of `map_add` without crossing in which no range is added beside a gap
of its owner, each owner has the points of its rectangles and no others at the instants below
`2 ^ 31`, and the next such call returns. -/
theorem time_map_gapless [TreeShape ℕ] {ν : Type} {h : MapHandlers ν ℕ} {s₀ s : MapState ℕ ℕ ν}
    {rs : List TimeRect} {m : Map ℕ ℕ ℕ} (hrun : TimeMapRun h s₀ Gapless rs m s) :
    OwnsRects rs m ∧ ∀ r, Gapless m r →
      ∃ m' s', mapAdd inetOps h timeOps m r.key r.dkey r.ptr s = some (m', s') := by
  obtain ⟨sl, rfl, hm, hown⟩ := hrun.ownsRects
  refine ⟨hown, fun r hg => ?_⟩
  obtain ⟨sl', s', he, -⟩ := mapAdd_gapless (h := h) rs hm hg
  exact ⟨some sl', s', he⟩

/-- The addresses from `lo` to `hi` for owner 1, at the times from 100 to 200. -/
def rangeRect (lo hi : ℕ) : TimeRect := ⟨⟨100, 200⟩, ⟨lo, hi⟩, 1⟩

/-- `map_add` of such a rectangle, without handlers. -/
def addRange [TreeShape ℕ] (lo hi : ℕ) (p : Map ℕ ℕ ℕ × MapState ℕ ℕ Unit) :
    Option (Map ℕ ℕ ℕ × MapState ℕ ℕ Unit) :=
  mapAdd inetOps (MapHandlers.null ℕ) timeOps p.1 (rangeRect lo hi).key (rangeRect lo hi).dkey
    (rangeRect lo hi).ptr p.2

/-- A map without rectangles. -/
def emptyTimeMap [TreeShape ℕ] : Map ℕ ℕ ℕ × MapState ℕ ℕ Unit := (timeMapInit, ⟨0, (), none⟩)

/-- Two calls that find no cross. -/
theorem timeMapRun_two [TreeShape ℕ] {C : Map ℕ ℕ ℕ → TimeRect → Prop} {lo hi lo' hi' : ℕ}
    {m m' : Map ℕ ℕ ℕ} {s s' : MapState ℕ ℕ Unit}
    (hfirst : addRange lo hi emptyTimeMap = some (m, s)) (hcross : s.cross = none)
    (hsecond : addRange lo' hi' (m, s) = some (m', s')) (hcross' : s'.cross = none)
    (hC : C timeMapInit (rangeRect lo hi)) (hC' : C m (rangeRect lo' hi')) :
    TimeMapRun (MapHandlers.null ℕ) emptyTimeMap.2 C [rangeRect lo' hi', rangeRect lo hi] m' s' :=
  .add _ (.add _ .init hC hfirst hcross) hC' hsecond hcross'

/-- Two ranges that touch: they are joined, and nothing else gets the owner. -/
theorem time_map_gapless_touching :
    letI := TreeShape.plain ℕ
    ∃ m s, TimeMapRun (MapHandlers.null ℕ) emptyTimeMap.2 Gapless
        [rangeRect 20 29, rangeRect 10 19] m s ∧
      OwnsRects [rangeRect 20 29, rangeRect 10 19] m := by
  let _ := TreeShape.plain ℕ
  have hcalls : ((addRange 10 19 emptyTimeMap).bind fun p => (addRange 20 29 p).map fun p' =>
      (p.2.cross.isNone, p'.2.cross.isNone)) = some (true, true) := by decide
  obtain ⟨⟨m, s⟩, hfirst, hcalls⟩ := Option.bind_eq_some_iff.mp hcalls
  obtain ⟨⟨m', s'⟩, hsecond, hcross⟩ := Option.map_eq_some_iff.mp hcalls
  obtain ⟨h1, h2⟩ := Prod.mk.inj hcross
  have hspan : ∀ lo hi, lo ≤ hi → hi < 2 ^ 32 → (rangeRect lo hi).dkey.Proper inetDom := by
    intro lo hi hle hlt
    exact ⟨fun _ => lt_of_le_of_lt hle hlt, fun _ => hlt, Or.inr (Or.inr hle)⟩
  have htimes : Slicer.Interval 100 200 := ⟨by decide, by decide, by decide⟩
  -- before the first call nothing has an owner
  have hnone : OwnsRects [] timeMapInit :=
    (time_map_gapless (.init : TimeMapRun (MapHandlers.null ℕ) emptyTimeMap.2 Gapless _ _ _)).1
  have hgap : Gapless timeMapInit (rangeRect 10 19) := by
    refine ⟨htimes, by decide, hspan 10 19 (by decide) (by decide), ?_, ?_⟩
    · intro t ip ht _ hlt hown
      have hip : inetDom ip := lt_trans hlt (by decide)
      obtain ⟨r, hr, -⟩ := (hnone t ip _ ht hip).mp hown
      cases hr
    · intro t ip ht _ hip _ _ hown
      obtain ⟨r, hr, -⟩ := (hnone t ip _ ht hip).mp hown
      cases hr
  -- before the second, the addresses from 10 to 19 do
  have hone := (time_map_gapless (.add _ .init hgap hfirst (Option.isNone_iff_eq_none.mp h1))).1
  have hrange : ∀ {t ip}, (rangeRect 10 19).Has t ip → 10 ≤ ip ∧ ip ≤ 19 := by
    intro t ip hr
    exact ⟨hr.2.1.resolve_left (by decide), hr.2.2.resolve_left (by decide)⟩
  have hgap' : Gapless m (rangeRect 20 29) := by
    refine ⟨htimes, by decide, hspan 20 29 (by decide) (by decide), ?_, ?_⟩
    · intro t ip ht hkey hlt hown hfree
      have hip : inetDom ip := lt_trans hlt (by decide)
      obtain ⟨r, hr, -, hhas⟩ := (hone t ip _ ht hip).mp hown
      obtain rfl := List.mem_singleton.mp hr
      have hle := hrange hhas
      by_contra hne
      have hlt' : ip < 19 := by
        have : (rangeRect 20 29).dkey.lo = 20 := rfl
        omega
      -- 19 lies between and has the owner
      have h19 : timeOwner m t 19 = some (some 1) :=
        (hone t 19 1 ht (by rw [inetDom]; decide)).mpr
          ⟨_, List.mem_singleton_self _, rfl, hkey, by decide⟩
      rw [hfree 19 hlt' (by decide)] at h19
      cases h19
    · intro t ip ht _ hip _ hlt hown
      obtain ⟨r, hr, -, hhas⟩ := (hone t ip _ ht hip).mp hown
      obtain rfl := List.mem_singleton.mp hr
      have hle := (hrange hhas).2
      have : 29 < ip := hlt
      omega
  have hrun := timeMapRun_two hfirst (Option.isNone_iff_eq_none.mp h1) hsecond
    (Option.isNone_iff_eq_none.mp h2) hgap hgap'
  exact ⟨m', s', hrun, (time_map_gapless hrun).1⟩

/-- Ranges with a gap between them: the address 25 in the gap gets the owner too. -/
theorem not_ownsRects_gap :
    letI := TreeShape.plain ℕ
    ∃ m s, TimeMapRun (MapHandlers.null ℕ) emptyTimeMap.2 (fun _ _ => True)
        [rangeRect 30 39, rangeRect 10 19] m s ∧
      ¬ OwnsRects [rangeRect 30 39, rangeRect 10 19] m := by
  let _ := TreeShape.plain ℕ
  have hcalls : ((addRange 10 19 emptyTimeMap).bind fun p => (addRange 30 39 p).map fun p' =>
      (p.2.cross.isNone, p'.2.cross.isNone, timeOwner p'.1 150 25)) =
      some (true, true, some (some 1)) := by decide
  obtain ⟨⟨m, s⟩, hfirst, hcalls⟩ := Option.bind_eq_some_iff.mp hcalls
  obtain ⟨⟨m', s'⟩, hsecond, hcross⟩ := Option.map_eq_some_iff.mp hcalls
  obtain ⟨h1, h2⟩ := Prod.mk.inj hcross
  obtain ⟨h2, hown⟩ := Prod.mk.inj h2
  refine ⟨m', s', timeMapRun_two hfirst (Option.isNone_iff_eq_none.mp h1) hsecond
    (Option.isNone_iff_eq_none.mp h2) trivial trivial, fun hrects => ?_⟩
  obtain ⟨r, hr, -, -, hlo, hhi⟩ :=
    (hrects 150 25 1 (by rw [timeDom]; decide) (by rw [inetDom]; decide)).mp hown
  simp only [List.mem_cons, List.not_mem_nil, or_false] at hr
  rcases hr with rfl | rfl
  · exact absurd hlo (by decide)
  · exact absurd hhi (by decide)

end Mbb
