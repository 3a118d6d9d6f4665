import Mbb.World

/-!
# The global map and the nodes of its entries

`GlobalMap.OK` says that the node lists hold exactly the nodes of the global map. So
`mbb_map_del_inet` finds every link it looks for, and removes all the points of the
entry. `mbb_map_add_unit` is all or nothing: when it meets a crossing, it undoes what it
has added through the node lists.
-/

namespace Mbb

/-! ## The handlers -/

/-- The node lists hold the nodes `M`, each with its owner. -/
def PoolReg (nodes : NodeLists) (M : Multiset (MapNode × ℕ)) : Prop :=
  ∀ a, (nodes a : Multiset MapNode) = (M.filter fun x => x.2 = a).map Prod.fst

theorem poolHandlers_tracks : poolHandlers.Tracks PoolReg where
  add {n nd a M} h b := by
    simp only [poolHandlers, mbbInetPoolMapAddHandler]
    by_cases hb : b = a
    · subst hb
      rw [Function.update_self,
        Multiset.filter_cons_of_pos (p := fun x : MapNode × ℕ => x.2 = b) _ rfl,
        Multiset.map_cons, ← h b]
      rfl
    · rw [Function.update_of_ne hb, Multiset.filter_cons_of_neg _ (by simpa using Ne.symm hb), h b]
  del {n nd a M} h b := by
    simp only [poolHandlers, mbbInetPoolMapDelHandler]
    have hb := h b
    by_cases heq : b = a
    · subst heq
      rw [Multiset.filter_cons_of_pos (p := fun x : MapNode × ℕ => x.2 = b) _ rfl,
        Multiset.map_cons] at hb
      rw [Function.update_self, ← Multiset.coe_erase, hb, Multiset.erase_cons_head]
    · rw [Multiset.filter_cons_of_neg _ (by simpa using Ne.symm heq)] at hb
      rw [Function.update_of_ne heq, hb]

theorem poolReg_zero {nodes : NodeLists} : PoolReg nodes 0 ↔ ∀ a, nodes a = [] := by
  refine forall_congr' fun a => ?_
  simp

/-! ## The global map -/

namespace GlobalMap

/-- The node lists hold the nodes of the map, which is in order. -/
def OK (g : GlobalMap) : Prop :=
  match g.map with
  | none => PoolReg g.nodes 0
  | some sl => InetMapOK PoolReg sl g.state

/-- The owner of an address at an instant. -/
def owner (g : GlobalMap) (ip t : ℕ) : Option ℕ :=
  match g.map with
  | none => none
  | some sl => inetOwner sl ip t

/-- The map refers to the entry. -/
def Holds (g : GlobalMap) (d : ℕ) : Prop := ∃ r ∈ mapRects g.map, r.2.data = d

variable {g : GlobalMap}

theorem OK.holds_iff (hg : g.OK) {d : ℕ} :
    g.Holds d ↔ ∃ ip t, inetDom ip ∧ timeDom t ∧ g.owner ip t = some d := by
  rcases hm : g.map with _ | sl
  · simp [Holds, owner, hm, mapRects]
  · simp only [OK, hm] at hg
    rw [Holds, hm, MapOK.exists_rect_iff inetOps_lawful id
      exists_inetDom exists_timeDom hg]
    simp only [owner, hm]
    constructor
    · rintro ⟨ip, t, hip, -, ht, hown⟩
      exact ⟨ip, t, hip, ht, hown⟩
    · rintro ⟨ip, t, hip, ht, hown⟩
      exact ⟨ip, t, hip, Slicer.inetWhole_mem hip, ht, hown⟩

/-- The owners of `g'` are those of `g` that `keep` keeps. -/
def Kept (keep : ℕ → Bool) (g g' : GlobalMap) : Prop :=
  ∀ ip t, inetDom ip → timeDom t → g'.owner ip t = (g.owner ip t).filter keep

/-- `map_find` on the global map, which has no owners without a slicer. -/
def lookup (g : GlobalMap) (ip t : ℕ) : Option ℕ :=
  (mapFind timeOps inetOps g.map (ipv4ToPointer ip) (timeToPointer t)).join

theorem OK.lookup_eq (hg : g.OK) {ip t : ℕ} (hip : ip < 2 ^ 32) (ht : t < 2 ^ 31) :
    g.lookup ip t = g.owner ip t := by
  rcases hm : g.map with _ | sl
  · simp [lookup, owner, hm, mapFind]
  · simp only [OK, hm] at hg
    rw [lookup, hm, InetMapOK.mapFind_eq hg hip ht]
    simp [owner, hm]

/-! ## Removing -/

/-- The node list of an entry names its links. -/
theorem mem_nodes {sl : MapSlicer ℕ ℕ ℕ} {s : MapState ℕ ℕ NodeLists}
    (hm : InetMapOK PoolReg sl s) {e : ℕ} {nd : MapNode} :
    nd ∈ s.nodes e ↔ (nd, e) ∈ mapRegs sl := by
  rw [← Multiset.mem_coe, hm.live.reg e, Multiset.mem_map]
  constructor
  · rintro ⟨x, hx, rfl⟩
    obtain ⟨hx', rfl⟩ := Multiset.mem_filter.mp hx
    exact hx'
  · exact fun hx => ⟨_, Multiset.mem_filter.mpr ⟨hx, rfl⟩, rfl⟩

theorem nodup_nodes_entry {sl : MapSlicer ℕ ℕ ℕ} {s : MapState ℕ ℕ NodeLists}
    (hm : InetMapOK PoolReg sl s) (e : ℕ) : (s.nodes e).Nodup := by
  rw [← Multiset.coe_nodup, hm.live.reg e]
  exact Multiset.nodup_of_le (Multiset.map_le_map (Multiset.filter_le _ _))
    (nodup_nodes hm.live.nodup)

/-- Removing the nodes of an entry keeps the links of the others. -/
theorem mapNodesRemove_entry {sl : MapSlicer ℕ ℕ ℕ} {s : MapState ℕ ℕ NodeLists}
    (hm : InetMapOK PoolReg sl s) (e : ℕ) :
    mapNodesRemove (s.nodes e) (some sl) =
      some (some (sl.mapData (MapQueue.keep fun _ d => decide (d ≠ e)))) := by
  rw [mapNodesRemove_eq _ (nodup_nodes_entry hm e) fun nd hnd => ⟨e, (mem_nodes hm).mp hnd⟩]
  congr 2
  refine mapData_congr fun l hl q hq => ?_
  rw [MapQueue.keep, MapQueue.keep]
  congr 1
  refine Queue.keep_congr fun m hmq => ?_
  rw [decide_eq_decide, not_iff_not, mem_nodes hm]
  have hreg : ((⟨q.id, m.id⟩ : MapNode), m.val.data) ∈ mapRegs sl :=
    mem_mapRegs.mpr ⟨l, hl, q, hq, MapQueue.mem_regs.mpr ⟨rfl, m.val, hmq, rfl⟩⟩
  constructor
  · intro h
    exact (Prod.mk.inj (Multiset.inj_on_of_nodup_map (nodup_nodes hm.live.nodup) _ hreg _ h rfl)).2
  · rintro rfl
    exact hreg

theorem mbbMapDelInet_spec (hg : g.OK) (e : ℕ) :
    ∃ g', g.mbbMapDelInet e = some g' ∧ g'.OK ∧ Kept (fun d => decide (d ≠ e)) g g' := by
  rcases hmap : g.map with _ | sl
  · simp only [OK, hmap] at hg
    have hnil := poolReg_zero.mp hg
    refine ⟨⟨none, Function.update g.nodes e [], g.fresh⟩, ?_, ?_, ?_⟩
    · rw [mbbMapDelInet, hnil e, hmap]
      rfl
    · simp only [OK]
      rw [← hnil e, Function.update_eq_self]
      exact hg
    · intro ip t _ _
      simp [owner, hmap]
  · simp only [OK, hmap] at hg
    refine ⟨⟨some (sl.mapData (MapQueue.keep fun _ d => decide (d ≠ e))),
      Function.update g.nodes e [], g.fresh⟩, ?_, ?_, ?_⟩
    · rw [mbbMapDelInet, hmap, show g.nodes = g.state.nodes from rfl, mapNodesRemove_entry hg e]
      rfl
    · refine MapOK.keep (s := g.state) hg fun a => ?_
      simp only
      rw [Multiset.filter_filter]
      by_cases ha : a = e
      · subst ha
        rw [Function.update_self, Multiset.filter_eq_nil.mpr fun x _ => by simp]
        rfl
      · rw [Function.update_of_ne ha]
        have := hg.live.reg a
        rw [show g.nodes = g.state.nodes from rfl, this]
        congr 1
        refine Multiset.filter_congr fun x _ => ?_
        constructor
        · rintro rfl
          exact ⟨rfl, by simpa using ha⟩
        · exact fun h => h.1
    · intro ip t hip _
      simp only [owner, hmap, inetOwner, contentAt_keep]
      exact Ordered.ownerAt_filter (MapOK.ordered_at inetOps_lawful hg hip
        (Slicer.inetWhole_mem hip)) (fun d => decide (d ≠ e)) t

theorem mbbMapDelUnit_spec (sep : List ℕ) : ∀ {g : GlobalMap}, g.OK →
    ∃ g', g.mbbMapDelUnit sep = some g' ∧ g'.OK ∧ Kept (fun d => decide (d ∉ sep)) g g' := by
  induction sep with
  | nil =>
    intro g hg
    refine ⟨g, rfl, hg, fun ip t _ _ => ?_⟩
    rcases g.owner ip t with _ | d
    · rfl
    · rw [Option.filter_some_pos (by simp)]
  | cons e sep ih =>
    intro g hg
    obtain ⟨g₁, he₁, hg₁, hk₁⟩ := mbbMapDelInet_spec hg e
    obtain ⟨g', he, hg', hk⟩ := ih hg₁
    refine ⟨g', ?_, hg', fun ip t hip ht => ?_⟩
    · rw [mbbMapDelUnit, List.foldlM_cons, he₁]
      exact he
    · rw [hk ip t hip ht, hk₁ ip t hip ht, Option.filter_filter]
      congr 1
      funext d
      by_cases h1 : d = e <;> by_cases h2 : d ∈ sep <;> simp [h1, h2]

theorem mbbMapClear_spec (hg : g.OK) : g.mbbMapClear.OK ∧ g.mbbMapClear.map = none := by
  rcases hmap : g.map with _ | sl
  · simp only [OK, hmap] at hg
    simp only [mbbMapClear, hmap, mapClear, ofResult, OK]
    exact ⟨hg, trivial⟩
  · simp only [OK, hmap] at hg
    obtain ⟨n, he, hr⟩ := mapClear_rule timeOps poolHandlers_tracks sl hg.live
    simp only [mbbMapClear, hmap, he, ofResult, OK]
    exact ⟨hr, trivial⟩

section Tree

variable [TreeShape ℕ]

theorem mbbMapInit_spec (hg : g.OK) :
    ∃ sl, g.mbbMapInit.map = some sl ∧ InetMapOK PoolReg sl g.mbbMapInit.state ∧
      ∀ ip t, inetDom ip → inetOwner sl ip t = g.owner ip t := by
  rcases hmap : g.map with _ | sl
  · simp only [OK, hmap] at hg
    have hinit : g.mbbMapInit = { g with map := inetMapInit } := by
      rw [mbbMapInit, hmap]
      rfl
    rw [hinit]
    refine ⟨_, rfl, inetMapOK_init hg, fun ip t hip => ?_⟩
    simp only [owner, hmap]
    exact inetOwner_init hip
  · simp only [OK, hmap] at hg
    have hinit : g.mbbMapInit = g := by
      rw [mbbMapInit, hmap]
      rfl
    rw [hinit]
    refine ⟨sl, hmap, hg, fun ip t hip => ?_⟩
    simp only [owner, hmap]

theorem glueNull_spec (hg : g.OK) :
    g.glueNull.OK ∧ ∀ ip t, inetDom ip → g.glueNull.owner ip t = g.owner ip t := by
  rcases hmap : g.map with _ | sl
  · simp only [OK, hmap] at hg
    simp only [glueNull, hmap, mapGlueNull, ofResult, OK, owner]
    exact ⟨hg, fun _ _ _ => trivial⟩
  · simp only [OK, hmap] at hg
    obtain ⟨sl', s', he, hm', hc, hcont⟩ := mapGlueNull_rule timeOps inetOps_lawful
      poolHandlers_tracks hg
    simp only [glueNull, hmap, he, ofResult, OK, owner]
    refine ⟨⟨hm'.wf, hm'.live.setCross⟩, fun ip t hip => ?_⟩
    rw [inetOwner, hcont ip hip (Slicer.inetWhole_mem hip)]

theorem mbbMapAutoGlue_spec (hg : g.OK) (auto : Bool) :
    (g.mbbMapAutoGlue auto).OK ∧
      ∀ ip t, inetDom ip → (g.mbbMapAutoGlue auto).owner ip t = g.owner ip t := by
  rw [mbbMapAutoGlue]
  rcases auto with _ | _
  · exact ⟨hg, fun _ _ _ => rfl⟩
  · exact glueNull_spec hg

/-! ## Adding a unit -/

/-- A unit whose map is in order and refers to entries of its separator only. -/
structure UnitOK (unit : MbbUnit) : Prop where
  /-- the map is in order -/
  map : ∀ sl, unit.map = some sl → ∃ s, UnitMapOK sl s
  /-- its owners are entries of the unit -/
  data : ∀ r ∈ mapRects unit.map, r.2.data ∈ unit.sep

omit [TreeShape ℕ] in
theorem UnitOK.laid {unit : MbbUnit} (hu : UnitOK unit) : Laid (mapRects unit.map) := by
  rcases hmap : unit.map with _ | sl
  · exact ⟨by simp [mapRects], by simp [mapRects], List.Pairwise.nil⟩
  · obtain ⟨s, hm⟩ := hu.map sl hmap
    exact hm.laid

/-- What `mbb_map_add_unit` makes of the owners: it adds those of the unit's map, or finds
a point that has an owner already and leaves all as it was. -/
structure UnitAdded (g : GlobalMap) (rs : List Rect) (g' : GlobalMap)
    (cross : Option (MapCross ℕ ℕ)) : Prop where
  /-- `TRUE` -/
  added : cross = none → ∀ ip t, inetDom ip → timeDom t →
    g'.owner ip t = (rectOwner rs t ip).or (g.owner ip t) ∧
      (rectOwner rs t ip ≠ none → g.owner ip t = none)
  /-- `FALSE` -/
  undone : ∀ c, cross = some c →
    (∃ ip t, inetDom ip ∧ timeDom t ∧ rectOwner rs t ip ≠ none ∧ g.owner ip t = some c.data) ∧
      ∀ ip t, inetDom ip → timeDom t → g'.owner ip t = g.owner ip t

theorem mbbMapAddUnit_spec (hg : g.OK) {unit : MbbUnit} (hu : UnitOK unit)
    (hfree : ∀ e ∈ unit.sep, ¬ g.Holds e) :
    ∃ g' cross, g.mbbMapAddUnit unit = some (g', cross) ∧ g'.OK ∧
      UnitAdded g (mapRects unit.map) g' cross := by
  have hnew : ∀ e ∈ unit.sep, ∀ ip t, inetDom ip → timeDom t → g.owner ip t ≠ some e :=
    fun e he ip t hip ht ho => hfree e he (hg.holds_iff.mpr ⟨ip, t, hip, ht, ho⟩)
  obtain ⟨sl, hmap, hm, hown⟩ := mbbMapInit_spec hg
  have hpaint : Painted g.owner [] sl := fun ip t hip _ =>
    ⟨hown ip t hip, fun hn => absurd rfl hn⟩
  obtain ⟨sl', s', he, hm', hp, hh⟩ := mapAddRects_spec
    poolHandlers_tracks (mapRects unit.map) [] (by simpa using hu.laid) hm hpaint rfl
    (fun r hr => hnew _ (hu.data r hr))
  rw [List.nil_append] at hp hh
  have hadd : mapAddMap poolHandlers g.mbbMapInit.map unit.map g.mbbMapInit.state =
      some (some sl', s') := by
    rw [hmap]
    exact he
  have hok : (ofResult (some sl', s')).OK := ⟨hm'.wf, hm'.live.setCross⟩
  simp only [mbbMapAddUnit]
  rw [hadd]
  simp only
  rcases hc : s'.cross with _ | c
  · exact ⟨_, _, rfl, hok, fun _ => hp hc, fun c hc' => by cases hc'⟩
  · simp only
    obtain ⟨g', hdel, hok', hk⟩ := mbbMapDelUnit_spec unit.sep hok
    rw [hdel]
    refine ⟨_, _, rfl, hok', fun hn => absurd hn (by simp), fun c' hc' => ?_⟩
    obtain rfl := Option.some.inj hc'
    refine ⟨(hh c hc).point, fun ip t hip ht => ?_⟩
    rw [hk ip t hip ht]
    -- the owners of the unit go, the others were there before
    rcases (hh c hc).change ip t hip ht with hsame | ⟨hnone, r, hr, hown'⟩
    · have hsame' : (ofResult (some sl', s')).owner ip t = g.owner ip t := hsame
      rw [hsame']
      rcases ho : g.owner ip t with _ | d
      · rfl
      · rw [Option.filter_some_pos]
        simpa using fun hd => hnew d hd ip t hip ht ho
    · have hown'' : (ofResult (some sl', s')).owner ip t = some r.2.data := hown'
      rw [hown'', hnone, Option.filter_some_neg]
      simpa using hu.data r hr

end Tree

end GlobalMap

end Mbb
