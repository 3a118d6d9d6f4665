import Mbb.Nodes
import Mbb.Separator

/-!
# What the steps of the commands preserve

`World.Inv` is what holds between two commands: separators, pool and owners agree, the
node lists hold the nodes of the global map, and the maps refer to entries that are still
in the separator of their unit. Each function the commands are made of keeps it.
-/

namespace Mbb

/-- The entries, units and maps are consistent. -/
structure World.Inv (w : World) : Prop where
  /-- the entries of a separator belong to the unit -/
  owner : ∀ u, ∀ e ∈ (w.unit u).sep, (w.mem.entry e).owner = u
  /-- an entry is in a separator once -/
  nodup : ∀ u, (w.unit u).sep.Nodup
  /-- the pool has the entries of the separators -/
  pool : ∀ id e, w.pool id = some e ↔
    (w.mem.entry e).id = id ∧ e ∈ (w.unit (w.mem.entry e).owner).sep
  /-- ranges and times can be encoded -/
  codable : ∀ u, ∀ e ∈ (w.unit u).sep, w.mem.Codable e
  /-- the maps of the units -/
  units : ∀ u, GlobalMap.UnitOK (w.unit u)
  /-- the node lists -/
  glob : w.glob.OK
  /-- the global map refers to entries of separators -/
  held : ∀ d, w.glob.Holds d → d ∈ (w.unit (w.mem.entry d).owner).sep

/-! ## Steps of the global map

Removing by lists removes exactly what the lists have, and nothing that another entry owns.
-/

namespace GlobalMap

variable {g g' : GlobalMap}

theorem Kept.holds {keep : ℕ → Bool} (hk : Kept keep g g') (hg : g.OK) (hg' : g'.OK) {d : ℕ}
    (hd : g'.Holds d) : g.Holds d ∧ keep d = true := by
  obtain ⟨ip, t, hip, ht, hown⟩ := hg'.holds_iff.mp hd
  rw [hk ip t hip ht, Option.filter_eq_some_iff] at hown
  exact ⟨hg.holds_iff.mpr ⟨ip, t, hip, ht, hown.1⟩, hown.2⟩

theorem holds_of_owner (hg : g.OK) (hg' : g'.OK)
    (h : ∀ ip t, inetDom ip → timeDom t → g'.owner ip t = g.owner ip t) {d : ℕ}
    (hd : g'.Holds d) : g.Holds d := by
  obtain ⟨ip, t, hip, ht, hown⟩ := hg'.holds_iff.mp hd
  exact hg.holds_iff.mpr ⟨ip, t, hip, ht, (h ip t hip ht).symm.trans hown⟩

theorem UnitAdded.holds {unit : MbbUnit} {cross : Option (MapCross ℕ ℕ)}
    (ha : UnitAdded g (mapRects unit.map) g' cross) (hg : g.OK) (hg' : g'.OK)
    (hu : UnitOK unit) {d : ℕ} (hd : g'.Holds d) : g.Holds d ∨ d ∈ unit.sep := by
  rcases cross with _ | c
  · obtain ⟨ip, t, hip, ht, hown⟩ := hg'.holds_iff.mp hd
    rw [(ha.added rfl ip t hip ht).1, Option.or_eq_some_iff] at hown
    rcases hown with hown | ⟨-, hown⟩
    · obtain ⟨r, hr, -, rfl⟩ := rectOwner_mem hown
      exact Or.inr (hu.data r hr)
    · exact Or.inl (hg.holds_iff.mpr ⟨ip, t, hip, ht, hown⟩)
  · exact Or.inl (holds_of_owner hg hg' (ha.undone c rfl).2 hd)

/-- The node list of an entry the map does not refer to is empty. -/
theorem OK.nodes_eq_nil (hg : g.OK) {e : ℕ} (he : ¬ g.Holds e) : g.nodes e = [] := by
  rcases hm : g.map with _ | sl
  · simp only [OK, hm] at hg
    exact poolReg_zero.mp hg e
  · simp only [OK, hm] at hg
    rw [List.eq_nil_iff_forall_not_mem]
    intro nd hnd
    obtain ⟨l, hl, q, hq, hreg⟩ := mem_mapRegs.mp ((mem_nodes hg).mp hnd)
    obtain ⟨-, me, hme, rfl⟩ := MapQueue.mem_regs.mp hreg
    refine he ⟨(l.val.slice, me), ?_, rfl⟩
    rw [hm]
    refine List.mem_flatMap.mpr ⟨l.val, List.mem_map_of_mem hl, List.mem_map_of_mem ?_⟩
    rw [hq]
    exact List.mem_map_of_mem (f := Link.val) hme

end GlobalMap

/-! ## Memory

Changes of units and entries, and what of the invariant they do not touch.
-/

section Memory

variable {mem mem' : Memory} {e : ℕ}

/-- Effective times and block of an entry, when the times of the units stay. -/
theorem Memory.Codable.congr (h : mem.Codable e) (he : mem'.entry e = mem.entry e)
    (hs : ∀ u, (mem'.unit u).getStart = (mem.unit u).getStart)
    (ht : ∀ u, (mem'.unit u).getEnd = (mem.unit u).getEnd) : mem'.Codable e := by
  have h1 : mem'.getStart e = mem.getStart e := by
    rw [Memory.getStart, Memory.getStart, he, hs]
  have h2 : mem'.getEnd e = mem.getEnd e := by
    rw [Memory.getEnd, Memory.getEnd, he, ht]
  exact ⟨h1 ▸ h.start, h2 ▸ h.stop, h1 ▸ h.start_ne, he ▸ h.block⟩

end Memory

namespace World

variable {w : World} {u : ℕ}

@[simp] theorem unit_setUnit_self (w : World) (u : ℕ) (unit : MbbUnit) :
    (w.setUnit u unit).unit u = unit := Function.update_self ..

theorem unit_setUnit_of_ne {v : ℕ} (hv : v ≠ u) (unit : MbbUnit) :
    (w.setUnit u unit).unit v = w.unit v := Function.update_of_ne hv ..

/-- A property of every unit, after one of them was replaced. -/
theorem forall_setUnit {P : ℕ → MbbUnit → Prop} (unit : MbbUnit) (hself : P u unit)
    (hother : ∀ v, v ≠ u → P v (w.unit v)) (v : ℕ) : P v ((w.setUnit u unit).unit v) := by
  by_cases hv : v = u
  · subst hv
    rw [unit_setUnit_self]
    exact hself
  · rw [unit_setUnit_of_ne hv]
    exact hother v hv

/-- The world with another separator and map of a unit. -/
theorem codable_setUnit {sep : List ℕ} {map : Map ℕ ℕ ℕ} {e : ℕ} (h : w.mem.Codable e) :
    (w.setUnit u { w.unit u with sep := sep, map := map }).mem.Codable e := by
  have hget : ∀ v, ((w.setUnit u { w.unit u with sep := sep, map := map }).mem.unit v).getStart =
      (w.mem.unit v).getStart ∧
      ((w.setUnit u { w.unit u with sep := sep, map := map }).mem.unit v).getEnd =
        (w.mem.unit v).getEnd := by
    intro v
    by_cases hv : v = u
    · subst hv
      simp only [setUnit, Function.update_self]
      exact ⟨rfl, rfl⟩
    · simp only [setUnit, Function.update_of_ne hv, and_self]
  exact h.congr rfl (fun v => (hget v).1) fun v => (hget v).2

/-- The global map replaced. -/
theorem Inv.setGlob (h : w.Inv) {g : GlobalMap} (hg : g.OK)
    (hd : ∀ d, g.Holds d → w.glob.Holds d ∨ d ∈ (w.unit (w.mem.entry d).owner).sep) :
    { w with glob := g }.Inv :=
  ⟨h.owner, h.nodup, h.pool, h.codable, h.units, hg, fun d hd' => (hd d hd').elim (h.held d) id⟩

/-- The map of a unit replaced. -/
theorem Inv.setMap (h : w.Inv) {map : Map ℕ ℕ ℕ}
    (hu : GlobalMap.UnitOK { w.unit u with map := map }) :
    (w.setUnit u { w.unit u with map := map }).Inv := by
  have hsep : ∀ v, ((w.setUnit u { w.unit u with map := map }).unit v).sep = (w.unit v).sep :=
    forall_setUnit (P := fun v unit => unit.sep = (w.unit v).sep) _ rfl fun _ _ => rfl
  refine ⟨?_, ?_, ?_, ?_, ?_, h.glob, ?_⟩
  · intro v e he
    exact h.owner v e (hsep v ▸ he)
  · intro v
    rw [hsep]
    exact h.nodup v
  · intro id e
    rw [hsep]
    exact h.pool id e
  · intro v e he
    exact codable_setUnit (h.codable v e (hsep v ▸ he))
  · exact forall_setUnit (P := fun _ unit => GlobalMap.UnitOK unit) _ hu fun v _ => h.units v
  · intro d hd
    rw [hsep]
    exact h.held d hd

/-- The entries in `gone` leave the separator of their unit, the pool and the maps. -/
theorem Inv.drop (h : w.Inv) (gone : ℕ → Prop) {sep : List ℕ} {map : Map ℕ ℕ ℕ} {g : GlobalMap}
    {pool : Int → Option ℕ} (hgone : ∀ d, gone d → d ∈ (w.unit u).sep)
    (hsep : ∀ d, d ∈ sep ↔ d ∈ (w.unit u).sep ∧ ¬ gone d) (hnd : sep.Nodup)
    (hpool : ∀ id d, pool id = some d ↔ w.pool id = some d ∧ ¬ gone d)
    (hu : GlobalMap.UnitOK { w.unit u with sep := sep, map := map }) (hg : g.OK)
    (hheld : ∀ d, g.Holds d → w.glob.Holds d ∧ ¬ gone d) :
    ({ w.setUnit u { w.unit u with sep := sep, map := map } with
      glob := g, pool := pool } : World).Inv := by
  -- an entry is in the separator of its owner only
  have hmem := forall_setUnit (w := w) (u := u)
    (P := fun v unit => ∀ d, d ∈ unit.sep ↔ d ∈ (w.unit v).sep ∧ ¬ gone d)
    { w.unit u with sep := sep, map := map } hsep fun v hv d =>
      ⟨fun hd => ⟨hd, fun hgd => hv ((h.owner v d hd).symm.trans (h.owner u d (hgone d hgd)))⟩,
        fun hd => hd.1⟩
  refine ⟨?_, ?_, ?_, ?_, ?_, hg, ?_⟩
  · exact fun v d hd => h.owner v d ((hmem v d).mp hd).1
  · exact forall_setUnit (P := fun _ unit => unit.sep.Nodup) _ hnd fun v _ => h.nodup v
  · intro id d
    refine (hpool id d).trans (Iff.trans ?_ (and_congr_right fun _ => (hmem _ d).symm))
    rw [h.pool id d, and_assoc]
    rfl
  · exact fun v d hd => codable_setUnit (h.codable v d ((hmem v d).mp hd).1)
  · exact forall_setUnit (P := fun _ unit => GlobalMap.UnitOK unit) _ hu fun v _ => h.units v
  · intro d hd
    obtain ⟨hd', hng⟩ := hheld d hd
    exact (hmem _ d).mpr ⟨h.held d hd', hng⟩

/-- An entry that is in no separator is written. -/
theorem Inv.setEntry (h : w.Inv) {ptr : ℕ} (e : InetPoolEntry)
    (hptr : ∀ v, ptr ∉ (w.unit v).sep) : ({ w with mem := w.mem.setEntry ptr e } : World).Inv := by
  have hother : ∀ {d : ℕ}, d ≠ ptr → (w.mem.setEntry ptr e).entry d = w.mem.entry d :=
    fun hd => Function.update_of_ne hd ..
  have hne : ∀ {v d : ℕ}, d ∈ (w.unit v).sep → d ≠ ptr := fun hd heq => hptr _ (heq ▸ hd)
  refine ⟨?_, h.nodup, ?_, ?_, h.units, h.glob, ?_⟩
  · intro v d hd
    simp only [hother (hne hd)]
    exact h.owner v d hd
  · intro id d
    by_cases hd : d = ptr
    · subst hd
      exact iff_of_false (fun hp => hptr _ ((h.pool id d).mp hp).2) fun hp => hptr _ hp.2
    · simp only [hother hd]
      exact h.pool id d
  · intro v d hd
    exact (h.codable v d hd).congr (hother (hne hd)) (fun _ => rfl) fun _ => rfl
  · intro d hd
    have hin := h.held d hd
    simp only [hother (hne hin)]
    exact hin

/-- An entry enters the separator of its owner and the pool. -/
theorem Inv.enter (h : w.Inv) {ptr : ℕ} {sep : List ℕ} (howner : (w.mem.entry ptr).owner = u)
    (hptr : ptr ∉ (w.unit u).sep) (hid : w.pool (w.mem.entry ptr).id = none)
    (hcod : w.mem.Codable ptr) (hperm : sep.Perm (ptr :: (w.unit u).sep)) :
    ({ w.setUnit u { w.unit u with sep := sep } with
      pool := Function.update w.pool (w.mem.entry ptr).id (some ptr) } : World).Inv := by
  have hmem := forall_setUnit (w := w) (u := u)
    (P := fun v unit => ∀ d, d ∈ unit.sep ↔ d ∈ (w.unit v).sep ∨ d = ptr ∧ v = u)
    { w.unit u with sep := sep }
    (fun d => by rw [hperm.mem_iff, List.mem_cons]; tauto) fun v hv d => by simp [hv]
  refine ⟨?_, ?_, ?_, ?_, ?_, h.glob, fun d hd => (hmem _ d).mpr (Or.inl (h.held d hd))⟩
  · intro v d hd
    rcases (hmem v d).mp hd with hd | ⟨rfl, rfl⟩
    · exact h.owner v d hd
    · exact howner
  · exact forall_setUnit (P := fun _ unit => unit.sep.Nodup) _
      (hperm.nodup_iff.mpr (List.nodup_cons.mpr ⟨hptr, h.nodup u⟩)) fun v _ => h.nodup v
  · intro id d
    refine Iff.trans ?_ (and_congr_right fun _ => (hmem _ d).symm)
    change Function.update w.pool (w.mem.entry ptr).id (some ptr) id = some d ↔
      (w.mem.entry d).id = id ∧
        (d ∈ (w.unit (w.mem.entry d).owner).sep ∨ d = ptr ∧ (w.mem.entry d).owner = u)
    by_cases hide : id = (w.mem.entry ptr).id
    · -- the id was free, so that only the new entry has it
      subst hide
      rw [Function.update_self]
      constructor
      · intro hp
        obtain rfl := Option.some.inj hp
        exact ⟨rfl, Or.inr ⟨rfl, howner⟩⟩
      · rintro ⟨hd, hin | ⟨rfl, -⟩⟩
        · have hp := (h.pool _ d).mpr ⟨hd, hin⟩
          rw [hid] at hp
          cases hp
        · rfl
    · rw [Function.update_of_ne hide, h.pool id d]
      refine and_congr_right fun hd => ⟨Or.inl, fun hin => hin.resolve_right ?_⟩
      rintro ⟨rfl, -⟩
      exact hide hd.symm
  · intro v d hd
    refine codable_setUnit ?_
    rcases (hmem v d).mp hd with hd | ⟨rfl, -⟩
    · exact h.codable v d hd
    · exact hcod
  · refine forall_setUnit (P := fun _ unit => GlobalMap.UnitOK unit) _ ?_ fun v _ => h.units v
    refine ⟨(h.units u).map, fun r hr => ?_⟩
    exact hperm.mem_iff.mpr (List.mem_cons_of_mem _ ((h.units u).data r hr))

/-! ## Steps of the units

The functions of a unit, with the rebuild of its map, which may fail and then leaves the old one.
-/

/-- A unit without a map. -/
theorem unitOK_null (unit : MbbUnit) (sep : List ℕ) :
    GlobalMap.UnitOK { unit with sep := sep, map := none } :=
  ⟨fun _ hsl => absurd hsl (by simp), by simp [mapRects]⟩

/-- `map_clear` of the map of a unit. -/
theorem mapClear_unit (m : Map ℕ ℕ ℕ) :
    (Mbb.mapClear inetOps (MapHandlers.null ℕ) m (⟨0, (), none⟩ : UnitState)).1 = none := by
  cases m <;> rfl

/-- What the map of a unit refers to. -/
theorem unitMap_rect_iff {sl : MapSlicer ℕ ℕ ℕ} {s : UnitState} (hm : UnitMapOK sl s) {d : ℕ} :
    (∃ r ∈ mapRects (some sl), r.2.data = d) ↔
      ∃ t ip, timeDom t ∧ inetDom ip ∧ ownerAt (contentAt timeOps sl t) ip = some d := by
  rw [MapOK.exists_rect_iff timeOps_lawful (fun h => InetOk.proper h)
    exists_timeDom exists_inetDom hm]
  constructor
  · rintro ⟨t, ip, ht, -, hip, hown⟩
    exact ⟨t, ip, ht, hip, hown⟩
  · rintro ⟨t, ip, ht, hip, hown⟩
    exact ⟨t, ip, ht, Slicer.timeWhole_mem t, hip, hown⟩

/-- `map_remove_custom` of the map of a unit. -/
theorem unitOK_remove {unit : MbbUnit} (hu : GlobalMap.UnitOK unit) (e : ℕ) :
    GlobalMap.UnitOK { unit with
      sep := unit.sep.erase e, map := mapRemoveCustom (fun d => decide (d = e)) unit.map } := by
  rcases hmap : unit.map with _ | sl
  · exact unitOK_null unit _
  · obtain ⟨s, hm⟩ := hu.map sl hmap
    rw [mapRemoveCustom_eq]
    have hm' := MapOK.keep (g := fun _ d => !decide (d = e)) (n := ()) hm trivial
    refine ⟨fun sl' hsl' => ?_, fun r hr => ?_⟩
    · obtain rfl := Option.some.inj hsl'
      exact ⟨_, hm'⟩
    · -- the owners left are owners of before
      obtain ⟨t, ip, ht, hip, hown⟩ := (unitMap_rect_iff hm').mp ⟨r, hr, rfl⟩
      rw [contentAt_keep, Ordered.ownerAt_filter (MapOK.ordered_at timeOps_lawful hm ht
        (Slicer.timeWhole_mem t)) (fun d => !decide (d = e)), Option.filter_eq_some_iff] at hown
      obtain ⟨r', hr', hd⟩ := (unitMap_rect_iff hm).mpr ⟨t, ip, ht, hip, hown.1⟩
      have hsep := hu.data r' (by rw [hmap]; exact hr')
      rw [hd] at hsep
      exact (List.mem_erase_of_ne (by simpa using hown.2)).mpr hsep

/-- `mbb_unit_del_inet` -/
theorem mbbUnitDelInet_inv (h : w.Inv) (e : ℕ) :
    ∃ w', w.mbbUnitDelInet (w.mem.entry e).owner e = some w' ∧ w'.Inv := by
  generalize hu : (w.mem.entry e).owner = u
  rw [mbbUnitDelInet]
  by_cases hmem : e ∈ (w.unit u).sep
  swap
  · rw [if_neg hmem]
    exact ⟨w, rfl, h⟩
  rw [if_pos hmem]
  obtain ⟨g, hdel, hg, hk⟩ := GlobalMap.mbbMapDelInet_spec h.glob e
  have hdel' : (w.setUnit u { w.unit u with
      sep := (w.unit u).sep.erase e
      map := mapRemoveCustom (fun d => decide (d = e)) (w.unit u).map }).glob.mbbMapDelInet e =
      some g := hdel
  simp only
  rw [hdel']
  refine ⟨_, rfl, h.drop (fun d => d = e) ?_ ?_ ((h.nodup u).erase e) ?_
    (unitOK_remove (h.units u) e) hg fun d hd => ?_⟩
  · rintro d rfl
    exact hmem
  · exact fun d => (h.nodup u).mem_erase_iff.trans and_comm
  · intro id d
    have he := (h.pool (w.mem.entry e).id e).mpr ⟨rfl, by rw [hu]; exact hmem⟩
    change Function.update w.pool (w.mem.entry e).id none id = some d ↔ _
    by_cases hid : id = (w.mem.entry e).id
    · -- the id of the entry is free again
      subst hid
      refine iff_of_false (by simp) fun hd => hd.2 ?_
      exact Option.some.inj (hd.1.symm.trans he)
    · rw [Function.update_of_ne hid]
      refine (and_iff_left_of_imp ?_).symm
      rintro hd rfl
      exact hid ((h.pool id d).mp hd).1.symm
  · obtain ⟨hd', hne⟩ := hk.holds h.glob hg hd
    exact ⟨hd', by simpa using hne⟩

/-- The pool after the entries of a separator have gone. -/
theorem foldl_pool_none (mem : Memory) (sep : List ℕ) (pool : Int → Option ℕ) (id : Int) :
    sep.foldl (fun pool e => Function.update pool (mem.entry e).id none) pool id =
      if ∃ e ∈ sep, (mem.entry e).id = id then none else pool id := by
  induction sep generalizing pool with
  | nil => simp
  | cons e sep ih =>
    rw [List.foldl_cons, ih]
    by_cases hid : (mem.entry e).id = id
    · subst hid
      simp
    · rw [Function.update_of_ne (Ne.symm hid)]
      simp [hid]

/-- `mbb_unit_clear_inet` -/
theorem mbbUnitClearInet_inv (h : w.Inv) (u : ℕ) :
    ∃ w', w.mbbUnitClearInet u = some w' ∧ w'.Inv := by
  obtain ⟨g, hdel, hg, hk⟩ := GlobalMap.mbbMapDelUnit_spec (w.unit u).sep h.glob
  rw [mbbUnitClearInet, hdel]
  simp only [mapClear_unit, Option.map_some]
  refine ⟨_, rfl, h.drop (fun d => d ∈ (w.unit u).sep) (fun _ hd => hd) (by simp)
    List.nodup_nil (fun id d => ?_) (unitOK_null _ _) hg fun d hd => ?_⟩
  · rw [foldl_pool_none]
    split
    · rename_i hex
      obtain ⟨e, he, hid⟩ := hex
      refine iff_of_false (by simp) fun hd => hd.2 ?_
      -- the id leads to one entry only
      have h2 := (h.pool id e).mpr ⟨hid, by rw [h.owner u e he]; exact he⟩
      rw [Option.some.inj (hd.1.symm.trans h2)]
      exact he
    · rename_i hex
      exact (and_iff_left_of_imp fun hd hin => hex ⟨d, hin, ((h.pool id d).mp hd).1⟩).symm
  · obtain ⟨hd', hne⟩ := hk.holds h.glob hg hd
    exact ⟨hd', by simpa using hne⟩

/-- `mbb_unit_add_inet` of a new entry. -/
theorem mbbUnitAddInet_inv (h : w.Inv) {ptr : ℕ} {e : InetPoolEntry} (howner : e.owner = u)
    (hptr : ∀ v, ptr ∉ (w.unit v).sep) (hid : w.pool e.id = none)
    (hcod : (w.mem.setEntry ptr e).Codable ptr) :
    (w.mbbUnitAddInet u ptr e).Inv := by
  have hheld : ¬ w.glob.Holds ptr := fun hd => hptr _ (h.held ptr hd)
  have hglob : { w.glob with nodes := Function.update w.glob.nodes ptr [] } = w.glob := by
    rw [← h.glob.nodes_eq_nil hheld, Function.update_eq_self]
  have hnot : ¬ ptr ∈ (({ w with
      mem := w.mem.setEntry ptr e
      glob := { w.glob with nodes := Function.update w.glob.nodes ptr [] } } : World).unit u).sep :=
    hptr u
  simp only [mbbUnitAddInet]
  rw [if_neg hnot, hglob]
  have hself : (w.mem.setEntry ptr e).entry ptr = e := Function.update_self ..
  have hperm : (separatorAdd (w.mem.setEntry ptr e) ptr (w.unit u).sep).Perm
      (ptr :: (w.unit u).sep) := separatorAdd_perm ptr _
  have henter := (h.setEntry e hptr).enter (u := u) (by rw [hself]; exact howner) (hptr u)
    (by rw [hself]; exact hid) hcod hperm
  simp only [hself] at henter
  exact henter

section Tree

variable [TreeShape ℕ]

/-- `mbb_unit_map_rebuild` -/
theorem rebuild_unitOK {mem : Memory} {unit unit' : MbbUnit}
    (hcod : ∀ e ∈ unit.sep, mem.Codable e)
    (h : mbbUnitMapRebuild mem unit = some (unit', none)) :
    ∃ map, unit' = { unit with map := map } ∧ GlobalMap.UnitOK unit' := by
  by_cases hne : unit.sep = []
  · rw [mbbUnitMapRebuild, if_pos (by rw [hne]; rfl)] at h
    obtain ⟨rfl, -⟩ := Prod.mk.inj (Option.some.inj h)
    simp only [mapClear_unit]
    exact ⟨none, rfl, unitOK_null unit _⟩
  · rcases rebuild_cases hne hcod with ⟨sl, s, he, hm, hr, -⟩ | ⟨e, f, A, B, he, -⟩
    · rw [he] at h
      obtain ⟨rfl, -⟩ := Prod.mk.inj (Option.some.inj h)
      refine ⟨_, rfl, fun sl' hsl' => ?_, fun r hr' => ?_⟩
      · obtain rfl := Option.some.inj hsl'
        exact ⟨s, hm⟩
      · obtain ⟨t, ip, ht, hip, hown⟩ := (unitMap_rect_iff hm).mp ⟨r, hr', rfl⟩
        rw [hr t ip ht hip] at hown
        obtain ⟨A, B, hsep, -⟩ := lastOwner_eq_some hown
        simp only
        rw [hsep]
        simp
    · rw [he] at h
      cases h

theorem rebuild_isSome {mem : Memory} {unit : MbbUnit} (hcod : ∀ e ∈ unit.sep, mem.Codable e) :
    ∃ unit' pp, mbbUnitMapRebuild mem unit = some (unit', pp) := by
  obtain ⟨unit', pp, he, -⟩ := unitMapRebuild_true unit hcod
  exact ⟨unit', pp, he⟩

/-- Taking a unit out of the global map and adding it. -/
theorem replaceUnit_inv (h : w.Inv) (u : ℕ) :
    ∃ w' cross, w.replaceUnit u = some (w', cross) ∧ w'.Inv := by
  obtain ⟨g₁, he₁, hg₁, hk₁⟩ := GlobalMap.mbbMapDelUnit_spec (w.unit u).sep h.glob
  have hfree : ∀ e ∈ (w.unit u).sep, ¬ g₁.Holds e := fun e he hd => by
    have := (hk₁.holds h.glob hg₁ hd).2
    simp [he] at this
  obtain ⟨g₂, cross, he₂, hg₂, ha⟩ := GlobalMap.mbbMapAddUnit_spec hg₁ (h.units u) hfree
  have hin : ∀ d ∈ (w.unit u).sep, d ∈ (w.unit (w.mem.entry d).owner).sep := fun d hd => by
    rw [h.owner u d hd]
    exact hd
  have hd₂ : ∀ d, g₂.Holds d → w.glob.Holds d ∨ d ∈ (w.unit (w.mem.entry d).owner).sep :=
    fun d hd => (ha.holds hg₁ hg₂ (h.units u) hd).imp
      (fun h' => (hk₁.holds h.glob hg₁ h').1) (hin d)
  rw [replaceUnit, he₁, Option.bind_some, he₂, Option.bind_some]
  rcases cross with _ | c
  · exact ⟨_, _, rfl, h.setGlob hg₂ hd₂⟩
  · simp only
    obtain ⟨g₃, he₃, hg₃, hk₃⟩ := GlobalMap.mbbMapDelUnit_spec (w.unit u).sep hg₂
    obtain ⟨hg₄, ho₄⟩ := GlobalMap.mbbMapAutoGlue_spec hg₃ w.mapGlueAuto
    rw [he₃]
    refine ⟨_, _, rfl, h.setGlob hg₄ fun d hd => hd₂ d ?_⟩
    exact (hk₃.holds hg₂ hg₃
      (GlobalMap.holds_of_owner hg₃ hg₄ (fun ip t hip _ => ho₄ ip t hip) hd)).1

/-- `mbb_map_reload_unit` -/
theorem mbbMapReloadUnit_inv (h : w.Inv) (u : ℕ) :
    ∃ w' ans, w.mbbMapReloadUnit u = some (w', ans) ∧ w'.Inv := by
  obtain ⟨unit', pp, he⟩ := rebuild_isSome (h.codable u)
  have he' : mbbUnitMapRebuild w.mem (w.unit u) = some (unit', pp) := he
  rw [mbbMapReloadUnit, he']
  rcases pp with _ | pp
  · obtain ⟨map, rfl, hu⟩ := rebuild_unitOK (h.codable u) he'
    obtain ⟨w', cross, hr, hinv⟩ := replaceUnit_inv (h.setMap hu) u
    simp only
    rw [hr]
    exact ⟨_, _, rfl, hinv⟩
  · exact ⟨w, _, rfl, h⟩

/-- The loop of `mbb_map_reload`. -/
theorem reloadUnits_inv (us : List ℕ) : ∀ {w : World}, w.Inv →
    ∃ w', reloadUnits us w = some w' ∧ w'.Inv := by
  induction us with
  | nil => exact fun {w} h => ⟨w, rfl, h⟩
  | cons u us ih =>
    intro w h
    obtain ⟨w₁, ans, he₁, h₁⟩ := mbbMapReloadUnit_inv h u
    obtain ⟨w', he, h'⟩ := ih h₁
    refine ⟨w', ?_, h'⟩
    rw [reloadUnits, he₁]
    exact he

omit [TreeShape ℕ] in
/-- `mbb_map_clear` -/
theorem mbbMapClear_inv (h : w.Inv) : { w with glob := w.glob.mbbMapClear }.Inv := by
  obtain ⟨hg, hmap⟩ := GlobalMap.mbbMapClear_spec h.glob
  refine h.setGlob hg fun d hd => ?_
  obtain ⟨r, hr, -⟩ := hd
  rw [hmap] at hr
  cases hr

end Tree

end World

end Mbb
