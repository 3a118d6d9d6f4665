import Mbb.WorldRun

/-!
# Adding a unit to the global map

In every world the commands lead to, `mbb_map_add_unit` of a unit that has nothing in the
global map is all or nothing. It fails exactly when the unit's map and the global map
have a point in common, and then all lookups in the global map give what they gave
before.

The points are the instants below `2 ^ 31`. The last of them is no effective time of an
entry, but it counts: an interval without end goes beyond every time an entry can have.
-/

namespace Mbb

/-- `map_find` on the map of a unit, which has no owners without a slicer. -/
def MbbUnit.lookup (unit : MbbUnit) (t ip : ℕ) : Option ℕ :=
  (mapFind inetOps timeOps unit.map (timeToPointer t) (ipv4ToPointer ip)).join

theorem GlobalMap.UnitOK.lookup_eq {unit : MbbUnit} (hu : UnitOK unit) {t ip : ℕ}
    (ht : t < 2 ^ 31) (hip : ip < 2 ^ 32) :
    unit.lookup t ip = rectOwner (mapRects unit.map) t ip := by
  rcases hmap : unit.map with _ | sl
  · simp [MbbUnit.lookup, hmap, mapFind, mapRects, rectOwner]
  · obtain ⟨s, hm⟩ := hu.map sl hmap
    rw [MbbUnit.lookup, hmap, UnitMapOK.mapFind_eq hm hip ht]
    rfl

/-- What `mbb_map_add_unit` does to lookups. -/
structure AddedUnit (g : GlobalMap) (unit : MbbUnit) (g' : GlobalMap)
    (cross : Option (MapCross ℕ ℕ)) : Prop where
  /-- it returns `TRUE` when the maps have no point in common -/
  true_iff : cross = none ↔ ∀ ip t, ip < 2 ^ 32 → t < 2 ^ 31 →
    unit.lookup t ip ≠ none → g.lookup ip t = none
  /-- then the points of the unit's map get their owner from it -/
  added : cross = none → ∀ ip t, ip < 2 ^ 32 → t < 2 ^ 31 →
    g'.lookup ip t = (unit.lookup t ip).or (g.lookup ip t)
  /-- otherwise nothing has changed -/
  undone : ∀ c, cross = some c → ∀ ip t, ip < 2 ^ 32 → t < 2 ^ 31 →
    g'.lookup ip t = g.lookup ip t
  /-- and `cross.data` owns a point of the unit's map -/
  point : ∀ c, cross = some c → ∃ ip t, ip < 2 ^ 32 ∧ t < 2 ^ 31 ∧
    unit.lookup t ip ≠ none ∧ g.lookup ip t = some c.data

section Tree

variable [TreeShape ℕ] {g : GlobalMap} {unit : MbbUnit}

theorem mbbMapAddUnit_addedUnit (hg : g.OK) (hu : GlobalMap.UnitOK unit)
    (hfree : ∀ e ∈ unit.sep, ¬ g.Holds e) :
    ∃ g' cross, g.mbbMapAddUnit unit = some (g', cross) ∧ AddedUnit g unit g' cross := by
  obtain ⟨g', cross, he, hg', ha⟩ := GlobalMap.mbbMapAddUnit_spec hg hu hfree
  have hpoint : ∀ c, cross = some c → ∃ ip t, ip < 2 ^ 32 ∧ t < 2 ^ 31 ∧
      unit.lookup t ip ≠ none ∧ g.lookup ip t = some c.data := by
    intro c hc
    obtain ⟨⟨ip, t, hip, ht, hr, hown⟩, -⟩ := ha.undone c hc
    refine ⟨ip, t, hip, ht, ?_, ?_⟩
    · rw [hu.lookup_eq ht hip]
      exact hr
    · rw [hg.lookup_eq hip ht]
      exact hown
  refine ⟨g', cross, he, ⟨fun hc ip t hip ht hne => ?_, fun hno => ?_⟩, ?_, ?_, hpoint⟩
  · rw [hu.lookup_eq ht hip] at hne
    rw [hg.lookup_eq hip ht]
    exact (ha.added hc ip t hip ht).2 hne
  · rcases cross with _ | c
    · rfl
    · obtain ⟨ip, t, hip, ht, hne, hown⟩ := hpoint c rfl
      rw [hno ip t hip ht hne] at hown
      cases hown
  · intro hc ip t hip ht
    rw [hg'.lookup_eq hip ht, hg.lookup_eq hip ht, hu.lookup_eq ht hip]
    exact (ha.added hc ip t hip ht).1
  · intro c hc ip t hip ht
    rw [hg'.lookup_eq hip ht, hg.lookup_eq hip ht]
    exact (ha.undone c hc).2 ip t hip ht

/-- **Adding a unit is all or nothing**, in every world a run leads to. -/
theorem add_unit_all_or_nothing {w₀ : World} (hs : w₀.Start) (cs : List Cmd)
    (hok : World.RunOk cs w₀) :
    ∃ w, World.run cs w₀ = some w ∧
      ∀ u, (∀ r ∈ mapRects w.glob.map, (w.mem.entry r.2.data).owner ≠ u) →
        ∃ g' cross, w.glob.mbbMapAddUnit (w.unit u) = some (g', cross) ∧
          AddedUnit w.glob (w.unit u) g' cross ∧
          ∀ c, cross = some c → (w.mem.entry c.data).owner ≠ u := by
  obtain ⟨w, he, h⟩ := World.run_inv cs hs.inv hok
  refine ⟨w, he, fun u hfree => ?_⟩
  obtain ⟨g', cross, hadd, ha⟩ := mbbMapAddUnit_addedUnit h.glob (h.units u) fun e hsep hd => by
    obtain ⟨r, hr, rfl⟩ := hd
    exact hfree r hr (h.owner u _ hsep)
  refine ⟨g', cross, hadd, ha, fun c hc => ?_⟩
  obtain ⟨ip, t, hip, ht, -, hown⟩ := ha.point c hc
  rw [h.glob.lookup_eq hip ht] at hown
  obtain ⟨r, hr, hd⟩ := h.glob.holds_iff.mpr ⟨ip, t, hip, ht, hown⟩
  rw [← hd]
  exact hfree r hr

end Tree

/-- The units of the example world, one after the other. -/
theorem add_unit_all_or_nothing_example :
    letI := TreeShape.plain ℕ
    ∃ w, World.run [.mapReload [1], .unitMapRebuild "a"] exampleWorld = some w ∧
      (∀ r ∈ mapRects w.glob.map, (w.mem.entry r.2.data).owner ≠ 0) ∧
      ∃ g' cross, w.glob.mbbMapAddUnit (w.unit 0) = some (g', cross) ∧
        AddedUnit w.glob (w.unit 0) g' cross := by
  let _ := TreeShape.plain ℕ
  obtain ⟨w, he, h⟩ := add_unit_all_or_nothing exampleWorld_start
    [.mapReload [1], .unitMapRebuild "a"] ⟨trivial, fun _ _ _ => ⟨trivial, fun _ _ _ => trivial⟩⟩
  have hfree : ∀ r ∈ mapRects w.glob.map, (w.mem.entry r.2.data).owner ≠ 0 := by
    have hrun : (World.run [.mapReload [1], .unitMapRebuild "a"] exampleWorld).all
        (fun w => (mapRects w.glob.map).all fun r => (w.mem.entry r.2.data).owner != 0) = true := by
      decide +kernel
    rw [he] at hrun
    simpa using hrun
  obtain ⟨g', cross, hadd, ha, -⟩ := h 0 hfree
  exact ⟨w, he, hfree, g', cross, hadd, ha⟩

/-! ## The last instant

An interval without end covers the last instant, and so may that of another unit. The two cross
there, and the unit cannot be added, though they have no other point in common.
-/

/-- Both units include 10.0.0.0/8 for ever and exclude it up to `2 ^ 31 - 2`. -/
def cornerWorld : World where
  mem := ⟨fun e => ⟨e, tenBlock, decide (e % 2 = 1), 0, if e % 2 = 1 then 0 else 2 ^ 31 - 2, 0,
      if e ≤ 2 then 0 else 1⟩,
    fun u => ⟨u, none, false, 0, 0, if u = 0 then [1, 2] else if u = 1 then [3, 4] else [], none⟩⟩
  unitByName name := if name = "a" then some 0 else if name = "b" then some 1 else none
  pool id := if 1 ≤ id ∧ id ≤ 4 then some id.toNat else none
  glob := ⟨none, fun _ => [], 0⟩
  mapGlueAuto := false

/-- The entries of the separators are 1 and 2, and 3 and 4. -/
theorem cornerWorld_sep {u e : ℕ} (he : e ∈ (cornerWorld.unit u).sep) :
    (u = 0 ∧ (e = 1 ∨ e = 2)) ∨ (u = 1 ∧ (e = 3 ∨ e = 4)) := by
  simp only [cornerWorld, World.unit] at he
  split at he
  · exact Or.inl ⟨‹_›, by simpa using he⟩
  · split at he
    · exact Or.inr ⟨‹_›, by simpa using he⟩
    · cases he

theorem cornerWorld_start : cornerWorld.Start where
  owner u e he := by
    rcases cornerWorld_sep he with ⟨rfl, rfl | rfl⟩ | ⟨rfl, rfl | rfl⟩ <;> rfl
  nodup u := by
    simp only [cornerWorld, World.unit]
    split_ifs <;> simp
  pool id e := by
    constructor
    · intro h
      simp only [cornerWorld] at h
      split at h
      · rename_i hid
        obtain rfl := Option.some.inj h
        have hcases : id = 1 ∨ id = 2 ∨ id = 3 ∨ id = 4 := by omega
        rcases hcases with rfl | rfl | rfl | rfl <;> exact ⟨rfl, by decide⟩
      · cases h
    · rintro ⟨rfl, he⟩
      rcases cornerWorld_sep he with ⟨-, rfl | rfl⟩ | ⟨-, rfl | rfl⟩ <;> rfl
  codable u e he := by
    rcases cornerWorld_sep he with ⟨-, rfl | rfl⟩ | ⟨-, rfl | rfl⟩ <;>
      exact ⟨by decide, by decide, by decide, by decide, by decide⟩
  units _ := rfl
  map := rfl
  nodes _ := rfl

/-- The units cross, although no time up to `2 ^ 31 - 2` has an owner in the map of the
second. -/
theorem add_unit_crosses_at_last_instant :
    letI := TreeShape.plain ℕ
    cornerWorld.Start ∧ World.RunOk [.mapReload [0], .unitMapRebuild "b"] cornerWorld ∧
    ∃ w, World.run [.mapReload [0], .unitMapRebuild "b"] cornerWorld = some w ∧
      (∀ r ∈ mapRects w.glob.map, (w.mem.entry r.2.data).owner ≠ 1) ∧
      (∃ g' c, w.glob.mbbMapAddUnit (w.unit 1) = some (g', some c)) ∧
      ¬ ∃ ip t, ip < 2 ^ 32 ∧ t ≤ 2 ^ 31 - 2 ∧ (w.unit 1).lookup t ip ≠ none ∧
        w.glob.lookup ip t ≠ none := by
  let _ := TreeShape.plain ℕ
  have hok : World.RunOk [.mapReload [0], .unitMapRebuild "b"] cornerWorld :=
    ⟨trivial, fun _ _ _ => ⟨trivial, fun _ _ _ => trivial⟩⟩
  obtain ⟨w, he, h⟩ := World.run_inv _ cornerWorld_start.inv hok
  have hrun : (World.run [.mapReload [0], .unitMapRebuild "b"] cornerWorld).all
      (fun w => (mapRects w.glob.map).all (fun r => (w.mem.entry r.2.data).owner != 1) &&
        ((w.glob.mbbMapAddUnit (w.unit 1)).map fun r => r.2.isSome) == some true &&
        (mapRects (w.unit 1).map).all fun r => r.1.lo == 2 ^ 31 - 1) = true := by
    decide +kernel
  rw [he] at hrun
  simp only [Option.all_some, Bool.and_eq_true, beq_iff_eq, List.all_eq_true, bne_iff_ne] at hrun
  obtain ⟨⟨hfree, hcross⟩, hlast⟩ := hrun
  obtain ⟨⟨g', cross⟩, hadd, hsome⟩ := Option.map_eq_some_iff.mp hcross
  obtain ⟨c, hc⟩ := Option.isSome_iff_exists.mp hsome
  simp only at hc
  subst hc
  refine ⟨cornerWorld_start, hok, w, he, hfree, ⟨g', c, hadd⟩, ?_⟩
  rintro ⟨ip, t, hip, ht, hne, -⟩
  -- the rectangles of the unit begin after `t`
  rw [(h.units 1).lookup_eq (by omega) hip] at hne
  obtain ⟨d, hd⟩ := Option.ne_none_iff_exists'.mp hne
  obtain ⟨r, hr, ⟨hmem, -⟩, -⟩ := rectOwner_mem hd
  have hlo := hlast r hr
  rw [Span.Mem, hlo] at hmem
  omega

end Mbb
