import Mbb.WorldStep

/-!
# Runs of the commands

Every command keeps the node lists of the entries equal to the nodes of the global map,
and keeps the maps of the units and the global map to entries that are still in the
separator of their unit. So a node that `mbb_map_del_inet` follows is never stale.
-/

namespace Mbb

namespace World

variable {w : World} {u : ℕ}

section Tree

variable [TreeShape ℕ]

/-! ## Commands

Each command is made of steps that keep the invariant; here they are put together.
-/

theorem mapAutoGlue_inv (h : w.Inv) {g : GlobalMap} (hg : g.OK)
    (hd : ∀ d, g.Holds d → w.glob.Holds d) (auto : Bool) :
    { w with glob := g.mbbMapAutoGlue auto }.Inv := by
  obtain ⟨hg', ho'⟩ := GlobalMap.mbbMapAutoGlue_spec hg auto
  refine h.setGlob hg' fun d hd' => Or.inl (hd d ?_)
  exact GlobalMap.holds_of_owner hg hg' (fun ip t hip _ => ho' ip t hip) hd'

/-- What the database and the allocator promise, and that the times and ranges of new
entries can be encoded: an entry that is accepted gets a new address and a new id. -/
def Admissible (w : World) : Cmd → Prop
  | .unitAddInet name inet exclusive nice inherit id time ptr =>
    ∀ u, w.unitByName name = some u →
      (w.unitAddInet u inet exclusive nice inherit id time ptr).2 = .ok →
      (∀ v, ptr ∉ (w.unit v).sep) ∧ w.pool id = none ∧
        (w.mem.setEntry ptr (newEntry inet exclusive nice inherit id time u)).Codable ptr
  | _ => True

/-- Each command of a run is admissible when it comes. -/
def RunOk : List Cmd → World → Prop
  | [], _ => True
  | c :: cs, w => w.Admissible c ∧ ∀ w' ans, w.exec c = some (w', ans) → RunOk cs w'

omit [TreeShape ℕ] in
theorem withUnit_inv (h : w.Inv) {name : String} {f : ℕ → Option (World × Answer)}
    (hf : ∀ u, w.unitByName name = some u → ∃ w' ans, f u = some (w', ans) ∧ w'.Inv) :
    ∃ w' ans, w.withUnit name f = some (w', ans) ∧ w'.Inv := by
  rw [withUnit]
  rcases hu : w.unitByName name with _ | u
  · exact ⟨w, _, rfl, h⟩
  · exact hf u hu

omit [TreeShape ℕ] in
/-- `unit_add_inet` -/
theorem unitAddInet_inv (h : w.Inv) {inet : Inet} {exclusive inherit : Bool} {nice ptr : ℕ}
    {id time : Int}
    (hadm : (w.unitAddInet u inet exclusive nice inherit id time ptr).2 = .ok →
      (∀ v, ptr ∉ (w.unit v).sep) ∧ w.pool id = none ∧
        (w.mem.setEntry ptr (newEntry inet exclusive nice inherit id time u)).Codable ptr) :
    (w.unitAddInet u inet exclusive nice inherit id time ptr).1.Inv := by
  rw [unitAddInet] at hadm ⊢
  split at hadm
  · rw [if_pos ‹_›]
    exact h
  · rw [if_neg ‹_›]
    split at hadm
    · rw [if_pos ‹_›]
      exact h
    · rw [if_neg ‹_›]
      obtain ⟨hptr, hid, hcod⟩ := hadm rfl
      exact mbbUnitAddInet_inv h rfl hptr hid hcod

/-- **Each command** succeeds and keeps the world consistent. -/
theorem exec_inv (h : w.Inv) {c : Cmd} (hc : w.Admissible c) :
    ∃ w' ans, w.exec c = some (w', ans) ∧ w'.Inv := by
  cases c with
  | mapAddUnit name =>
    refine withUnit_inv h fun u _ => ?_
    obtain ⟨w', cross, he, h'⟩ := replaceUnit_inv h u
    rw [mapAddUnit, he]
    exact ⟨_, _, rfl, h'⟩
  | mapDelUnit name =>
    refine withUnit_inv h fun u _ => ?_
    obtain ⟨g, he, hg, hk⟩ := GlobalMap.mbbMapDelUnit_spec (w.unit u).sep h.glob
    rw [he]
    exact ⟨_, _, rfl, mapAutoGlue_inv h hg (fun d hd => (hk.holds h.glob hg hd).1) _⟩
  | mapReload units =>
    obtain ⟨w', he, h'⟩ := reloadUnits_inv units (mbbMapClear_inv h)
    rw [exec, he]
    exact ⟨_, _, rfl, h'⟩
  | mapReloadUnit name => exact withUnit_inv h fun u _ => mbbMapReloadUnit_inv h u
  | mapClear => exact ⟨_, _, rfl, mbbMapClear_inv h⟩
  | mapGlueNull => exact ⟨_, _, rfl, mapAutoGlue_inv h h.glob (fun _ hd => hd) true⟩
  | unitMapRebuild name =>
    refine withUnit_inv h fun u _ => ?_
    obtain ⟨unit', pp, he⟩ := rebuild_isSome (h.codable u)
    have he' : mbbUnitMapRebuild w.mem (w.unit u) = some (unit', pp) := he
    rw [unitMapRebuild, he']
    rcases pp with _ | pp
    · obtain ⟨map, rfl, hu⟩ := rebuild_unitOK (h.codable u) he'
      exact ⟨_, _, rfl, h.setMap hu⟩
    · exact ⟨w, _, rfl, h⟩
  | unitMapClear name =>
    refine withUnit_inv h fun u _ => ⟨_, _, rfl, h.setMap ?_⟩
    rw [mapClear_unit]
    exact unitOK_null _ _
  | unitAddInet name inet exclusive nice inherit id time ptr =>
    exact withUnit_inv h fun u hu => ⟨_, _, rfl, unitAddInet_inv h (hc u hu)⟩
  | unitDropInet id db =>
    rw [exec]
    rcases hp : w.pool id with _ | e
    · exact ⟨w, _, rfl, h⟩
    · rcases db with _ | _
      · exact ⟨w, _, rfl, h⟩
      · obtain ⟨w', he, h'⟩ := mbbUnitDelInet_inv h e
        simp only [if_true]
        rw [he]
        exact ⟨_, _, rfl, h'⟩
  | unitClearInet name db =>
    refine withUnit_inv h fun u _ => ?_
    rcases db with _ | _
    · exact ⟨w, _, rfl, h⟩
    · obtain ⟨w', he, h'⟩ := mbbUnitClearInet_inv h u
      simp only [if_true]
      rw [he]
      exact ⟨_, _, rfl, h'⟩

/-- **Runs of the world.** A run of admissible commands gets to its end, and keeps the invariant. -/
theorem run_inv (cs : List Cmd) : ∀ {w : World}, w.Inv → RunOk cs w →
    ∃ w', run cs w = some w' ∧ w'.Inv := by
  induction cs with
  | nil => exact fun {w} h _ => ⟨w, rfl, h⟩
  | cons c cs ih =>
    intro w h hok
    obtain ⟨w₁, ans, he₁, h₁⟩ := exec_inv h hok.1
    obtain ⟨w', he, h'⟩ := ih h₁ (hok.2 w₁ ans he₁)
    refine ⟨w', ?_, h'⟩
    rw [run, he₁]
    exact he

end Tree

/-! ## The start, and what holds after it

At the start there are units with their entries, but no maps yet, neither of the units nor the
global one.
-/

/-- A world with empty maps. -/
structure Start (w : World) : Prop where
  /-- the entries of a separator belong to the unit -/
  owner : ∀ u, ∀ e ∈ (w.unit u).sep, (w.mem.entry e).owner = u
  /-- an entry is in a separator once -/
  nodup : ∀ u, (w.unit u).sep.Nodup
  /-- the pool has the entries of the separators -/
  pool : ∀ id e, w.pool id = some e ↔
    (w.mem.entry e).id = id ∧ e ∈ (w.unit (w.mem.entry e).owner).sep
  /-- ranges and times can be encoded -/
  codable : ∀ u, ∀ e ∈ (w.unit u).sep, w.mem.Codable e
  /-- no unit has a map -/
  units : ∀ u, (w.unit u).map = none
  /-- the global map is not there -/
  map : w.glob.map = none
  /-- nor is any node -/
  nodes : ∀ e, w.glob.nodes e = []

theorem Start.inv (h : w.Start) : w.Inv where
  owner := h.owner
  nodup := h.nodup
  pool := h.pool
  codable := h.codable
  units u := ⟨fun _ hsl => absurd hsl (by simp [h.units u]), by simp [h.units u, mapRects]⟩
  glob := by
    simp only [GlobalMap.OK, h.map]
    exact poolReg_zero.mpr h.nodes
  held d hd := by
    obtain ⟨r, hr, -⟩ := hd
    rw [h.map] at hr
    cases hr

end World

/-- The nodes of a queue whose data is `e`. -/
def queueNodes (e : ℕ) (queue : Option (MapQueue ℕ ℕ)) : List MapNode :=
  match queue with
  | none => []
  | some q => (q.queue.links.filter fun l => decide (l.val.data = e)).map fun l => ⟨q.id, l.id⟩

/-- The pairs of queue and link of a map whose data is `e`. -/
def mapNodes (m : Map ℕ ℕ ℕ) (e : ℕ) : List MapNode :=
  match m with
  | none => []
  | some sl => sl.entries.flatMap fun entry => queueNodes e entry.data

theorem coe_queueNodes (e : ℕ) (a : Option (MapQueue ℕ ℕ)) :
    (queueNodes e a : Multiset MapNode) = ((regsOf a).filter fun x => x.2 = e).map Prod.fst := by
  rcases a with _ | q
  · rfl
  · simp only [queueNodes, regsOf, MapQueue.regs, nodesOf, Multiset.filter_coe, Multiset.map_coe,
      List.filter_map, List.map_map]
    rfl

theorem coe_mapNodes (sl : MapSlicer ℕ ℕ ℕ) (e : ℕ) :
    (mapNodes (some sl) e : Multiset MapNode) =
      ((mapRegs sl).filter fun x => x.2 = e).map Prod.fst := by
  simp only [mapNodes, mapRegs, Slicer.entries, Queue.vals]
  induction sl.queue.links with
  | nil => rfl
  | cons l ls ih =>
    rw [List.map_cons, List.flatMap_cons, ← Multiset.coe_add, ih, Slicer.liveData_cons,
      Multiset.map_cons, Multiset.sum_cons, Multiset.filter_add, Multiset.map_add, coe_queueNodes]

/-- The node list of an entry holds its nodes of the global map, each once. -/
theorem GlobalMap.OK.nodes_perm {g : GlobalMap} (hg : g.OK) (e : ℕ) :
    (g.nodes e).Perm (mapNodes g.map e) ∧ (g.nodes e).Nodup := by
  rcases hm : g.map with _ | sl
  · simp only [OK, hm] at hg
    rw [poolReg_zero.mp hg e]
    exact ⟨List.Perm.refl _, List.nodup_nil⟩
  · simp only [OK, hm] at hg
    refine ⟨?_, nodup_nodes_entry hg e⟩
    rw [← Multiset.coe_eq_coe, coe_mapNodes]
    exact hg.live.reg e

/-- **Back pointers.** After every run the node list of each entry holds exactly the pairs
of queue and link of the global map whose data is the entry, and every entry a map refers
to is in the separator of its unit. -/
theorem back_pointers [TreeShape ℕ] {w₀ : World} (hs : w₀.Start) (cs : List Cmd)
    (hok : World.RunOk cs w₀) :
    ∃ w, World.run cs w₀ = some w ∧
      (∀ e, (w.glob.nodes e).Perm (mapNodes w.glob.map e) ∧ (w.glob.nodes e).Nodup) ∧
      (∀ u, ∀ r ∈ mapRects (w.unit u).map,
        (w.mem.entry r.2.data).owner = u ∧ r.2.data ∈ (w.unit u).sep) ∧
      ∀ r ∈ mapRects w.glob.map, r.2.data ∈ (w.unit (w.mem.entry r.2.data).owner).sep := by
  obtain ⟨w, he, h⟩ := World.run_inv cs hs.inv hok
  refine ⟨w, he, h.glob.nodes_perm, fun u r hr => ?_, fun r hr => h.held _ ⟨r, hr, rfl⟩⟩
  have hsep := (h.units u).data r hr
  exact ⟨h.owner u _ hsep, hsep⟩

/-- Two units: the first has the entries 1 and 2 of `exampleEntry`, the second none. -/
def exampleWorld : World where
  mem := ⟨exampleEntry, fun u => ⟨u, none, false, 0, 0, if u = 0 then [1, 2] else [], none⟩⟩
  unitByName name := if name = "a" then some 0 else if name = "b" then some 1 else none
  pool id := if id = 1 then some 1 else if id = 2 then some 2 else none
  glob := ⟨none, fun _ => [], 0⟩
  mapGlueAuto := true

theorem exampleWorld_start : exampleWorld.Start where
  owner u e he := by
    by_cases hu : u = 0
    · subst hu
      have : e = 1 ∨ e = 2 := by simpa [exampleWorld, World.unit] using he
      rcases this with rfl | rfl <;> rfl
    · simp [exampleWorld, World.unit, hu] at he
  nodup u := by
    by_cases hu : u = 0 <;> simp [exampleWorld, World.unit, hu]
  pool id e := by
    have howner : (exampleWorld.mem.entry e).owner = 0 := by
      simp only [exampleWorld, exampleEntry]
      split <;> rfl
    rw [howner]
    simp only [exampleWorld, World.unit, exampleEntry]
    constructor
    · intro h
      split at h
      · obtain rfl := Option.some.inj h
        exact ⟨by simp [*], by simp⟩
      · split at h
        · obtain rfl := Option.some.inj h
          exact ⟨by simp [*], by simp⟩
        · cases h
    · rintro ⟨rfl, hmem⟩
      have : e = 1 ∨ e = 2 := by simpa using hmem
      rcases this with rfl | rfl <;> rfl
  codable u e _ := (exampleMemory_codable [] e).congr rfl (fun _ => rfl) fun _ => rfl
  units _ := rfl
  map := rfl
  nodes _ := rfl

/-- A run that adds an entry, fills the global map, drops an entry and clears a unit. -/
theorem back_pointers_example :
    letI := TreeShape.plain ℕ
    ∃ w, World.run [.unitAddInet "b" ⟨0x0b000000, 8, by decide, by decide⟩ false 0 false 3 1000 7,
        .mapReload [0, 1], .unitDropInet 2 true, .mapGlueNull, .mapReloadUnit "b",
        .unitClearInet "a" true] exampleWorld = some w ∧
      ∀ e, (w.glob.nodes e).Perm (mapNodes w.glob.map e) := by
  let _ := TreeShape.plain ℕ
  obtain ⟨w, he, hn, -⟩ := back_pointers exampleWorld_start
    [.unitAddInet "b" ⟨0x0b000000, 8, by decide, by decide⟩ false 0 false 3 1000 7,
      .mapReload [0, 1], .unitDropInet 2 true, .mapGlueNull, .mapReloadUnit "b",
      .unitClearInet "a" true] (by
    refine ⟨fun u hu _ => ⟨fun v => ?_, rfl, ?_⟩, fun _ _ _ => ⟨trivial, fun _ _ _ => ⟨trivial,
      fun _ _ _ => ⟨trivial, fun _ _ _ => ⟨trivial, fun _ _ _ => ⟨trivial, fun _ _ _ =>
        trivial⟩⟩⟩⟩⟩⟩
    · by_cases hv : v = 0 <;> simp [exampleWorld, World.unit, hv]
    · obtain rfl : 1 = u := Option.some.inj hu
      exact ⟨by decide, by decide, by decide, by decide, by decide⟩)
  exact ⟨w, he, fun e => (hn e).1⟩

end Mbb
