import Mbb.UnitMap

/-!
# From unit maps to inet maps

`map_add_map` adds the rectangles of a unit's map, which come in order of time, to a map
of addresses. As long as the rectangles do not overlap what is there, each point of the
unit's map gets its owner and nothing else changes. At the first crossing it stops, with
the rectangles before it added in full and that one in part.
-/

namespace Mbb

/-- A rectangle of a unit's map: an interval of time and a range of addresses with its
owner. -/
abbrev Rect : Type := Slice ℕ × MapEntry ℕ ℕ

/-- The rectangle has the point. -/
def Rect.Has (r : Rect) (t ip : ℕ) : Prop := r.1.Mem t ∧ r.2.slice.Mem ip

instance (r : Rect) (t ip : ℕ) : Decidable (r.Has t ip) := inferInstanceAs (Decidable (_ ∧ _))

section Model

variable [TreeShape ℕ] {ν : Type} (h : MapHandlers ν ℕ)

/-- The loops of `map_add_map`; it returns `FALSE` when the state has a crossing. -/
def mapAddRects : List Rect → Map ℕ ℕ ℕ → MapState ℕ ℕ ν → Option (Map ℕ ℕ ℕ × MapState ℕ ℕ ν)
  | [], map, s => some (map, s)
  | (dkey, e) :: rs, map, s =>
    match mapAdd timeOps h inetOps map e.slice dkey e.data s with
    | none => none
    | some (map, s) => if s.cross.isSome then some (map, s) else mapAddRects rs map s

/-- `map_add_map` -/
def mapAddMap (map unitMap : Map ℕ ℕ ℕ) (s : MapState ℕ ℕ ν) :
    Option (Map ℕ ℕ ℕ × MapState ℕ ℕ ν) := mapAddRects h (mapRects unitMap) map s

end Model

/-! ## Rectangles

The map of a unit is a list of rectangles in order of time. The owner of a point is that of the
rectangle it lies in.
-/

/-- The owner of a point by some rectangles. -/
def rectOwner (rs : List Rect) (t ip : ℕ) : Option ℕ :=
  (rs.find? fun r => decide (r.Has t ip)).map fun r => r.2.data

/-- The rectangles come in order of time and do not overlap. -/
structure Laid (rs : List Rect) : Prop where
  /-- intervals of time -/
  time : ∀ r ∈ rs, TimeSpan r.1
  /-- ranges of addresses -/
  inet : ∀ r ∈ rs, InetOk r.2.slice
  /-- one after the other, or side by side -/
  apart : rs.Pairwise fun a b => a.1.Before b.1 ∨ a.1 = b.1 ∧ a.2.slice.Before b.2.slice

section Rects

variable {rs : List Rect} {r a b : Rect} {t ip : ℕ}

theorem rectOwner_append (rs rs' : List Rect) (t ip : ℕ) :
    rectOwner (rs ++ rs') t ip = (rectOwner rs t ip).or (rectOwner rs' t ip) := by
  simp only [rectOwner, List.find?_append]
  cases rs.find? fun r => decide (r.Has t ip) <;> simp

theorem rectOwner_single (r : Rect) (t ip : ℕ) :
    rectOwner [r] t ip = if r.Has t ip then some r.2.data else none := by
  by_cases hr : r.Has t ip <;> simp [rectOwner, hr]

theorem rectOwner_mem {d : ℕ} (h : rectOwner rs t ip = some d) :
    ∃ r ∈ rs, r.Has t ip ∧ r.2.data = d := by
  obtain ⟨r, hr, rfl⟩ := Option.map_eq_some_iff.mp h
  exact ⟨r, List.mem_of_find?_eq_some hr, by simpa using List.find?_some hr, rfl⟩

theorem rectOwner_ne_none (hr : r ∈ rs) (hh : r.Has t ip) : rectOwner rs t ip ≠ none := by
  intro hn
  rw [rectOwner, Option.map_eq_none_iff, List.find?_eq_none] at hn
  exact hn r hr (by simpa using hh)

/-- Rectangles apart have no point in common. -/
theorem not_has_of_apart (h : a.1.Before b.1 ∨ a.1 = b.1 ∧ a.2.slice.Before b.2.slice)
    (ha : a.Has t ip) : ¬ b.Has t ip := by
  rintro ⟨hbt, hbi⟩
  rcases h with h | ⟨-, h⟩
  · exact h.not_mem ha.1 hbt
  · exact h.not_mem ha.2 hbi

/-- A point of a rectangle has its owner. -/
theorem Laid.rectOwner_of_mem (h : Laid rs) (hr : r ∈ rs) (hh : r.Has t ip) :
    rectOwner rs t ip = some r.2.data := by
  rcases ho : rectOwner rs t ip with _ | d
  · exact absurd ho (rectOwner_ne_none hr hh)
  · obtain ⟨r', hr', hh', rfl⟩ := rectOwner_mem ho
    have hsym : rs.Pairwise fun a b => ¬ (a.Has t ip ∧ b.Has t ip) :=
      h.apart.imp fun {a b} hab (hh : a.Has t ip ∧ b.Has t ip) => not_has_of_apart hab hh.1 hh.2
    have : Std.Symm fun a b : Rect => ¬ (a.Has t ip ∧ b.Has t ip) :=
      ⟨fun _ _ hn hh => hn hh.symm⟩
    by_cases heq : r' = r
    · rw [heq]
    · exact absurd ⟨hh', hh⟩ (hsym.forall hr' hr heq)

/-- The rectangles of a unit's map. -/
theorem UnitMapOK.laid {sl : MapSlicer ℕ ℕ ℕ} {s : UnitState} (hm : UnitMapOK sl s) :
    Laid (mapRects (some sl)) := by
  have hord : ∀ e ∈ sl.entries, Ordered InetOk (MapQueue.entries e.data) := by
    intro e he
    obtain ⟨l, hl, rfl⟩ := List.mem_map.mp he
    exact hm.live.ordered _ (mem_liveData hl)
  have hmem : ∀ r ∈ mapRects (some sl), ∃ e ∈ sl.entries, r.1 = e.slice ∧
      r.2 ∈ MapQueue.entries e.data := by
    intro r hr
    obtain ⟨e, he, hr⟩ := List.mem_flatMap.mp hr
    obtain ⟨me, hme, rfl⟩ := List.mem_map.mp hr
    exact ⟨e, he, rfl, hme⟩
  refine ⟨?_, ?_, ?_⟩
  · intro r hr
    obtain ⟨e, he, h1, -⟩ := hmem r hr
    obtain ⟨l, hl, rfl⟩ := List.mem_map.mp he
    rw [h1]
    exact hm.wf.proper hl
  · intro r hr
    obtain ⟨e, he, -, h2⟩ := hmem r hr
    exact (hord e he).ok _ h2
  · rw [mapRects, List.pairwise_flatMap]
    refine ⟨fun e he => ?_, ?_⟩
    · rw [List.pairwise_map]
      exact (hord e he).before.imp fun hab => Or.inr ⟨rfl, hab⟩
    · rw [Slicer.entries, Queue.vals, List.pairwise_map]
      refine hm.wf.pairwise.imp fun hab x hx y hy => Or.inl ?_
      obtain ⟨_, -, rfl⟩ := List.mem_map.mp hx
      obtain ⟨_, -, rfl⟩ := List.mem_map.mp hy
      exact hab

/-- The owner by the rectangles is the owner in the unit's map. -/
theorem UnitMapOK.rectOwner_eq {sl : MapSlicer ℕ ℕ ℕ} {s : UnitState} (hm : UnitMapOK sl s)
    (ht : timeDom t) :
    rectOwner (mapRects (some sl)) t ip = ownerAt (contentAt timeOps sl t) ip := by
  obtain ⟨l, hl, hlm, hf⟩ := hm.wf.exists_mem timeOps_lawful ht (Slicer.timeWhole_mem t)
  have hc : contentAt timeOps sl t = MapQueue.entries l.val.data := by
    rw [contentAt, hf]
  rw [hc]
  rcases ho : ownerAt (MapQueue.entries l.val.data) ip with _ | d
  · rcases hr : rectOwner (mapRects (some sl)) t ip with _ | d
    · rfl
    · obtain ⟨r, hr, hh, -⟩ := rectOwner_mem hr
      obtain ⟨e, he, hr⟩ := List.mem_flatMap.mp hr
      obtain ⟨me, hme, rfl⟩ := List.mem_map.mp hr
      obtain ⟨l', hl', rfl⟩ := List.mem_map.mp he
      -- the interval of the rectangle is the slice of the instant
      obtain rfl := eq_of_mem_of_before (f := fun l => l.val.slice) hm.wf.pairwise hl hl' hlm hh.1
      exact absurd hh.2 (ownerAt_eq_none.mp ho me hme)
  · obtain ⟨me, hme, hmm, rfl⟩ := ownerAt_mem ho
    have hr : (⟨l.val.slice, me⟩ : Rect) ∈ mapRects (some sl) :=
      List.mem_flatMap.mpr ⟨l.val, List.mem_map_of_mem hl, List.mem_map_of_mem hme⟩
    exact hm.laid.rectOwner_of_mem hr ⟨hlm, hmm⟩

end Rects

/-! ## Adding them

The invariant of the loop: the rectangles so far are painted, and nothing else has changed. It ends
with all of them, or halts at the first that crosses.
-/

section Add

variable [TreeShape ℕ] {ν : Type} {h : MapHandlers ν ℕ}
  {R : ν → Multiset (MapNode × ℕ) → Prop}

/-- A map of addresses in order. -/
abbrev InetMapOK (R : ν → Multiset (MapNode × ℕ) → Prop) (sl : MapSlicer ℕ ℕ ℕ)
    (s : MapState ℕ ℕ ν) : Prop := MapOK R inetDom inetWhole TimeSpan sl s

/-- The owner of an address at an instant. -/
abbrev inetOwner (sl : MapSlicer ℕ ℕ ℕ) (ip t : ℕ) : Option ℕ := ownerAt (contentAt inetOps sl ip) t

/-- The map has the owners of `old` and of the rectangles, which took nothing from
anybody. -/
def Painted (old : ℕ → ℕ → Option ℕ) (rs : List Rect) (sl : MapSlicer ℕ ℕ ℕ) : Prop :=
  ∀ ip t, inetDom ip → timeDom t →
    inetOwner sl ip t = (rectOwner rs t ip).or (old ip t) ∧
      (rectOwner rs t ip ≠ none → old ip t = none)

/-- A crossing left the map with some of the rectangles: it names the owner of a point of
one of them. -/
structure Halted (old : ℕ → ℕ → Option ℕ) (rs : List Rect) (sl : MapSlicer ℕ ℕ ℕ)
    (c : MapCross ℕ ℕ) : Prop where
  /-- where they cross -/
  point : ∃ ip t, inetDom ip ∧ timeDom t ∧ rectOwner rs t ip ≠ none ∧ old ip t = some c.data
  /-- only points without owner have changed, and to an owner of a rectangle -/
  change : ∀ ip t, inetDom ip → timeDom t → inetOwner sl ip t = old ip t ∨
    old ip t = none ∧ ∃ r ∈ rs, inetOwner sl ip t = some r.2.data

variable {old : ℕ → ℕ → Option ℕ} {done rs : List Rect} {dkey : Slice ℕ} {e : MapEntry ℕ ℕ}
  {sl : MapSlicer ℕ ℕ ℕ} {s : MapState ℕ ℕ ν}

omit [TreeShape ℕ] in
/-- The rectangles come in order of time, so a queue has no entry of the owner of the next
one after it. -/
theorem Painted.droppable (hp : Painted old done sl) (hm : InetMapOK R sl s)
    (hlaid : Laid (done ++ (dkey, e) :: rs))
    (hnew : ∀ ip t, inetDom ip → timeDom t → old ip t ≠ some e.data) {ip : ℕ}
    (hip : inetDom ip) (hw : inetWhole.Mem ip) (hmem : e.slice.Mem ip) :
    Droppable R ⟨dkey, e.data⟩ (contentAt inetOps sl ip) := by
  refine Or.inr fun x hx hd hbef => ?_
  have ho := hm.ordered_at inetOps_lawful hip hw
  obtain ⟨t, ht, hxt⟩ := (ho.ok x hx).exists_mem exists_timeDom
  have hown := (hp ip t hip ht).1
  rw [inetOwner, ho.ownerAt_of_mem hx hxt, hd] at hown
  rcases hr : rectOwner done t ip with _ | d
  · rw [hr, Option.none_or] at hown
    exact hnew ip t hip ht hown.symm
  · obtain ⟨a, ha, hh, -⟩ := rectOwner_mem hr
    have hdk := hlaid.time (dkey, e) (by simp)
    rcases (List.pairwise_append.mp hlaid.apart).2.2 a ha (dkey, e) (by simp) with hab | ⟨-, hab⟩
    · exact (hab.trans hdk hbef).not_mem hh.1 hxt
    · exact hab.not_mem hh.2 hmem

omit [TreeShape ℕ] in
/-- Nobody had a point that a rectangle has got, and it changes no other. -/
theorem Painted.added {sl' : MapSlicer ℕ ℕ ℕ} (hp : Painted old done sl) {ip t : ℕ}
    (hip : inetDom ip) (ht : timeDom t)
    (hadd : Added timeDom ⟨dkey, e.data⟩ (contentAt inetOps sl ip) (contentAt inetOps sl' ip)) :
    (dkey.Mem t → rectOwner done t ip = none ∧ old ip t = none ∧
      inetOwner sl' ip t = some e.data) ∧
      (¬ dkey.Mem t → inetOwner sl' ip t = inetOwner sl ip t) := by
  have hown := hadd.owner t ht
  refine ⟨fun hmt => ?_, fun hmt => hown.trans (if_neg hmt)⟩
  have hfree := (hp ip t hip ht).1
  rw [inetOwner, hadd.free t ht hmt] at hfree
  obtain ⟨h1, h2⟩ := Option.or_eq_none_iff.mp hfree.symm
  exact ⟨h1, h2, hown.trans (if_pos hmt)⟩

omit [TreeShape ℕ] in
/-- A rectangle more, painted. -/
theorem Painted.snoc {sl' : MapSlicer ℕ ℕ ℕ} (hp : Painted old done sl)
    (hin : ∀ ip, inetDom ip → e.slice.Mem ip →
      Added timeDom ⟨dkey, e.data⟩ (contentAt inetOps sl ip) (contentAt inetOps sl' ip))
    (hout : ∀ ip, inetDom ip → ¬ e.slice.Mem ip →
      contentAt inetOps sl' ip = contentAt inetOps sl ip) :
    Painted old (done ++ [(dkey, e)]) sl' := by
  intro ip t hip ht
  have hpaint : rectOwner (done ++ [(dkey, e)]) t ip = (rectOwner done t ip).or
      (if dkey.Mem t ∧ e.slice.Mem ip then some e.data else none) := by
    rw [rectOwner_append, rectOwner_single]
    rfl
  obtain ⟨hown, hold⟩ := hp ip t hip ht
  rw [hpaint]
  by_cases hmem : e.slice.Mem ip
  · obtain ⟨hgot, hkept⟩ := hp.added hip ht (hin ip hip hmem)
    by_cases hmt : dkey.Mem t
    · obtain ⟨h1, h2, h3⟩ := hgot hmt
      rw [h3, if_pos ⟨hmt, hmem⟩, h1, h2]
      exact ⟨rfl, fun _ => rfl⟩
    · rw [hkept hmt, if_neg fun hc => hmt hc.1, Option.or_none]
      exact ⟨hown, hold⟩
  · rw [inetOwner, hout ip hip hmem, if_neg fun hc => hmem hc.2, Option.or_none]
    exact ⟨hown, hold⟩

omit [TreeShape ℕ] in
/-- What was there before the next rectangle. -/
theorem Painted.before (hp : Painted old done sl) {ip t : ℕ} (hip : inetDom ip)
    (ht : timeDom t) :
    inetOwner sl ip t = old ip t ∨
      old ip t = none ∧ ∃ r ∈ done ++ [(dkey, e)], inetOwner sl ip t = some r.2.data := by
  obtain ⟨hown, hold⟩ := hp ip t hip ht
  rcases hr : rectOwner done t ip with _ | d
  · rw [hown, hr]
    exact Or.inl rfl
  · obtain ⟨a, ha, -, rfl⟩ := rectOwner_mem hr
    rw [hown, hr]
    exact Or.inr ⟨hold (by simp [hr]), a, by simp [ha], rfl⟩

omit [TreeShape ℕ] in
/-- An entry that a rectangle meets was there before all the rectangles. -/
theorem Painted.crossed (hp : Painted old done sl) (hm : InetMapOK R sl s)
    (hlaid : Laid (done ++ (dkey, e) :: rs)) {ip : ℕ} (hip : inetDom ip)
    (hw : inetWhole.Mem ip) (hmem : e.slice.Mem ip) {x : MapEntry ℕ ℕ}
    (hx : x ∈ contentAt inetOps sl ip) (hmeet : x.slice.Meets dkey) :
    ∃ t, timeDom t ∧ dkey.Mem t ∧ old ip t = some x.data := by
  have ho := hm.ordered_at inetOps_lawful hip hw
  obtain ⟨t, ht, hxt, hdt⟩ :=
    hmeet.exists_mem exists_timeDom (ho.ok x hx) (hlaid.time (dkey, e) (by simp))
  have hown := (hp ip t hip ht).1
  rw [inetOwner, ho.ownerAt_of_mem hx hxt] at hown
  refine ⟨t, ht, hdt, ?_⟩
  -- the rectangles before do not have the point
  rcases hr : rectOwner done t ip with _ | d
  · rw [hr, Option.none_or] at hown
    exact hown.symm
  · obtain ⟨a, ha, hh, -⟩ := rectOwner_mem hr
    have hab := (List.pairwise_append.mp hlaid.apart).2.2 a ha (dkey, e) (by simp)
    exact absurd ⟨hdt, hmem⟩ (not_has_of_apart hab hh)

/-- One rectangle. -/
theorem mapAddRect_spec (hR : h.Tracks R) (hlaid : Laid (done ++ (dkey, e) :: rs))
    (hm : InetMapOK R sl s) (hp : Painted old done sl)
    (hnew : ∀ ip t, inetDom ip → timeDom t → old ip t ≠ some e.data) :
    ∃ sl' s', mapAdd timeOps h inetOps (some sl) e.slice dkey e.data s = some (some sl', s') ∧
      InetMapOK R sl' s' ∧
      (s'.cross = none → Painted old (done ++ [(dkey, e)]) sl') ∧
      ∀ c, s'.cross = some c → Halted old (done ++ [(dkey, e)]) sl' c := by
  have hdk := hlaid.time (dkey, e) (by simp)
  have hok := hlaid.inet (dkey, e) (by simp)
  obtain ⟨sl', s', he, hm', hcont, hcross⟩ := mapAdd_rule (s := s)
    inetOps_lawful timeOps_joins hR hm hok.fits.1 hok.fits.2 hdk
    (fun ip hip hw hmem => ⟨(timeOps_mergeable hdk (hm.ordered_at inetOps_lawful hip hw)).seamless,
      hp.droppable hm hlaid hnew hip hw hmem⟩)
  refine ⟨sl', s', he, hm', fun hnc => hp.snoc (fun ip hip hmem => ?_) fun ip hip hmem => ?_,
    fun c hc => ⟨?_, fun ip t hip ht => ?_⟩⟩
  · have hin := (hcont ip hip (Slicer.inetWhole_mem hip)).1 hmem
    exact hin.resolve_right fun hc => by simp [hnc] at hc
  · exact (hcont ip hip (Slicer.inetWhole_mem hip)).2 hmem
  · obtain ⟨ip, hip, hw, hmem, x, hx, hmeet, rfl⟩ := hcross c hc
    obtain ⟨t, ht, hdt, hold⟩ := hp.crossed hm hlaid hip hw hmem hx hmeet
    have hrect : rectOwner (done ++ [(dkey, e)]) t ip ≠ none :=
      rectOwner_ne_none (r := (dkey, e)) (by simp) ⟨hdt, hmem⟩
    exact ⟨ip, t, hip, ht, hrect, hold⟩
  · -- at an address the crossing has left alone, what was there before stands
    obtain ⟨hin, hout⟩ := hcont ip hip (Slicer.inetWhole_mem hip)
    by_cases hmem : e.slice.Mem ip
    · rcases hin hmem with hadd | ⟨-, hsame⟩
      · obtain ⟨hgot, hkept⟩ := hp.added hip ht hadd
        by_cases hmt : dkey.Mem t
        · obtain ⟨-, hfree, hnow⟩ := hgot hmt
          exact Or.inr ⟨hfree, (dkey, e), by simp, hnow⟩
        · rw [hkept hmt]
          exact hp.before hip ht
      · rw [inetOwner, hsame]
        exact hp.before hip ht
    · rw [inetOwner, hout hmem]
      exact hp.before hip ht

/-- **`map_add_map`**, after the rectangles `done`. -/
theorem mapAddRects_spec (hR : h.Tracks R) (rs : List Rect) :
    ∀ (done : List Rect) {sl : MapSlicer ℕ ℕ ℕ} {s : MapState ℕ ℕ ν}, Laid (done ++ rs) →
      InetMapOK R sl s → Painted old done sl → s.cross = none →
      (∀ r ∈ rs, ∀ ip t, inetDom ip → timeDom t → old ip t ≠ some r.2.data) →
      ∃ sl' s', mapAddRects h rs (some sl) s = some (some sl', s') ∧ InetMapOK R sl' s' ∧
        (s'.cross = none → Painted old (done ++ rs) sl') ∧
        ∀ c, s'.cross = some c → Halted old (done ++ rs) sl' c := by
  induction rs with
  | nil =>
    intro done sl s _ hm hp hc _
    rw [List.append_nil]
    exact ⟨sl, s, rfl, hm, fun _ => hp, fun c hc' => by rw [hc] at hc'; cases hc'⟩
  | cons r rs ih =>
    intro done sl s hlaid hm hp _ hnew
    obtain ⟨dkey, e⟩ := r
    obtain ⟨sl₁, s₁, he₁, hm₁, hp₁, hh₁⟩ := mapAddRect_spec hR hlaid hm hp
      (hnew (dkey, e) List.mem_cons_self)
    rw [mapAddRects, he₁]
    simp only
    have happ : done ++ (dkey, e) :: rs = done ++ [(dkey, e)] ++ rs := by simp
    rcases hc : s₁.cross with _ | c
    · rw [if_neg (by simp), happ]
      exact ih _ (happ ▸ hlaid) hm₁ (hp₁ hc) hc fun r hr => hnew r (List.mem_cons_of_mem _ hr)
    · rw [if_pos (by simp)]
      have hsome : ¬ s₁.cross = none := by simp [hc]
      refine ⟨sl₁, s₁, rfl, hm₁, fun hn => absurd hn hsome, fun c' hc' => ?_⟩
      obtain ⟨⟨ip, t, hip, ht, hown, hold⟩, hch⟩ := hh₁ c' hc'
      rw [happ]
      refine ⟨⟨ip, t, hip, ht, ?_, hold⟩, fun ip t hip ht => ?_⟩
      · rw [rectOwner_append]
        exact fun hn => hown (Option.or_eq_none_iff.mp hn).1
      · rcases hch ip t hip ht with h' | ⟨h1, r, hr, h2⟩
        · exact Or.inl h'
        · exact Or.inr ⟨h1, r, List.mem_append_left _ hr, h2⟩

end Add

/-! ## The transposed map

Into an empty map nothing can cross, so all is painted, and the two maps have the same points with
their coordinates exchanged.
-/

section Transpose

variable [TreeShape ℕ] {mem : Memory}

theorem inetMapOK_init {ν : Type} {R : ν → Multiset (MapNode × ℕ) → Prop} {s : MapState ℕ ℕ ν}
    (hR : R s.nodes 0) : InetMapOK R (inetSlicerNew (MapQueue ℕ ℕ)) s :=
  mapOK_init inetOps_lawful Slicer.inetWhole_proper hR

theorem inetOwner_init {ip t : ℕ} (hip : inetDom ip) :
    inetOwner (inetSlicerNew (MapQueue ℕ ℕ)) ip t = none := by
  have hc : contentAt inetOps (inetSlicerNew (MapQueue ℕ ℕ)) ip = [] :=
    contentAt_init inetOps_lawful Slicer.inetWhole_proper hip (Slicer.inetWhole_mem hip)
  rw [inetOwner, hc]
  rfl

omit [TreeShape ℕ] in
/-- A lookup in a map of addresses gives the owner. -/
theorem InetMapOK.mapFind_eq {ν : Type} {R : ν → Multiset (MapNode × ℕ) → Prop}
    {sl : MapSlicer ℕ ℕ ℕ} {s : MapState ℕ ℕ ν} (hm : InetMapOK R sl s) {ip t : ℕ}
    (hip : ip < 2 ^ 32) (ht : t < 2 ^ 31) :
    mapFind timeOps inetOps (some sl) (ipv4ToPointer ip) (timeToPointer t) =
      some (inetOwner sl ip t) := by
  rw [ipv4ToPointer_of_lt hip, timeToPointer_of_lt (by omega)]
  exact MapOK.mapFind_eq inetOps_lawful timeOps_joins hm hip (Slicer.inetWhole_mem hip) ht

omit [TreeShape ℕ] in
/-- A lookup in the map of a unit gives the owner of the rectangles in it. -/
theorem UnitMapOK.mapFind_eq {sl : MapSlicer ℕ ℕ ℕ} {s : UnitState} (hm : UnitMapOK sl s)
    {ip t : ℕ} (hip : ip < 2 ^ 32) (ht : t < 2 ^ 31) :
    mapFind inetOps timeOps (some sl) (timeToPointer t) (ipv4ToPointer ip) =
      some (rectOwner (mapRects (some sl)) t ip) := by
  rw [ipv4ToPointer_of_lt hip, timeToPointer_of_lt (by omega), UnitMapOK.rectOwner_eq hm ht]
  exact MapOK.mapFind_eq timeOps_lawful inetOps_cuts.toJoins hm ht (Slicer.timeWhole_mem t) hip

/-- A unit's map added to an empty map of addresses. -/
theorem mapAddMap_empty {sl : MapSlicer ℕ ℕ ℕ} {s : UnitState} (hm : UnitMapOK sl s) :
    ∃ sl' s', mapAddMap (MapHandlers.null ℕ) inetMapInit (some sl) ⟨0, (), none⟩ =
        some (some sl', s') ∧ s'.cross = none ∧ InetMapOK (fun _ _ => True) sl' s' ∧
      ∀ ip t, inetDom ip → timeDom t →
        inetOwner sl' ip t = rectOwner (mapRects (some sl)) t ip := by
  obtain ⟨sl', s', he, hm', hp, hh⟩ := mapAddRects_spec
    (s := ⟨0, (), none⟩) nullHandlers_tracks (mapRects (some sl)) [] (by simpa using hm.laid)
    (inetMapOK_init trivial)
    (fun ip t hip _ => ⟨inetOwner_init hip, fun hn => absurd rfl hn⟩) rfl
    (fun _ _ _ _ _ _ => by simp)
  have hnc : s'.cross = none := by
    rcases hc : s'.cross with _ | c
    · rfl
    · obtain ⟨_, _, _, _, _, hold⟩ := (hh c hc).point
      cases hold
  refine ⟨sl', s', he, hnc, hm', fun ip t hip ht => ?_⟩
  rw [(hp hnc ip t hip ht).1, List.nil_append, Option.or_none]

/-- **Transposing a unit's map** loses and gains nothing. -/
theorem transpose_unit_map {unit unit' : MbbUnit} (hcod : ∀ e ∈ unit.sep, mem.Codable e)
    (hreb : mbbUnitMapRebuild mem unit = some (unit', none)) :
    ∃ imap s, mapAddMap (MapHandlers.null ℕ) inetMapInit unit'.map ⟨0, (), none⟩ =
        some (imap, s) ∧ s.cross = none ∧
      ∀ ip t : ℕ, ip < 2 ^ 32 → t ≤ 2 ^ 31 - 2 →
        mapFind timeOps inetOps imap (ipv4ToPointer ip) (timeToPointer t) =
          if unit'.map.isSome then
            mapFind inetOps timeOps unit'.map (timeToPointer t) (ipv4ToPointer ip)
          else some none := by
  by_cases hne : unit.sep = []
  · rw [mbbUnitMapRebuild, if_pos (by rw [hne]; rfl)] at hreb
    have hmap : unit'.map = none := by
      obtain ⟨rfl, -⟩ := Prod.mk.inj (Option.some.inj hreb)
      simp only
      cases unit.map <;> rfl
    rw [hmap]
    refine ⟨_, _, rfl, rfl, fun ip t hip ht => ?_⟩
    rw [if_neg (by simp), inetMapInit,
      InetMapOK.mapFind_eq (s := (⟨0, (), none⟩ : UnitState)) (R := fun _ _ => True)
        (inetMapOK_init trivial) hip (by omega), inetOwner_init hip]
  · rcases rebuild_cases hne hcod with ⟨sl, s, he, hm, -⟩ | ⟨e, f, A, B, he, -⟩
    · rw [he] at hreb
      obtain ⟨rfl, -⟩ := Prod.mk.inj (Option.some.inj hreb)
      obtain ⟨sl', s', hadd, hnc, hm', hown⟩ := mapAddMap_empty hm
      refine ⟨_, _, hadd, hnc, fun ip t hip ht => ?_⟩
      rw [if_pos (by simp), InetMapOK.mapFind_eq hm' hip (by omega),
        UnitMapOK.mapFind_eq hm hip (by omega), hown ip t hip (by rw [timeDom]; omega)]
    · rw [he] at hreb
      cases hreb

end Transpose

/-- The map of a unit with one inclusive and one exclusive entry. -/
theorem transpose_unit_map_example :
    letI := TreeShape.plain ℕ
    ∃ unit', mbbUnitMapRebuild (exampleMemory [1, 2]) ((exampleMemory [1, 2]).unit 0) =
        some (unit', none) ∧
      ∃ imap s, mapAddMap (MapHandlers.null ℕ) inetMapInit unit'.map ⟨0, (), none⟩ =
        some (imap, s) ∧ s.cross = none := by
  let _ := TreeShape.plain ℕ
  have hex : ∃ unit', mbbUnitMapRebuild (exampleMemory [1, 2]) ((exampleMemory [1, 2]).unit 0) =
      some (unit', none) := ⟨_, rfl⟩
  obtain ⟨unit', he⟩ := hex
  obtain ⟨imap, s, h1, h2, -⟩ := transpose_unit_map (fun e _ => exampleMemory_codable _ e) he
  exact ⟨unit', he, imap, s, h1, h2⟩

end Mbb
