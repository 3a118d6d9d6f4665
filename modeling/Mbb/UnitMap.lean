import Mbb.Unit
import Mbb.Lib.Layers

/-!
# The meaning of a unit's map

The entries of a separator are layers over the plane of times and addresses: the map of
the unit gives each point to the last entry that covers it, if that one is inclusive.
The rebuild fails exactly when two inclusive entries claim a point with no exclusive
entry covering it in between, and then it leaves the old map alone.

Entries of equal rank keep the order in which they were added, but the map does not
depend on it.
-/

namespace Mbb

namespace Memory

variable (mem : Memory)

/-- The entry is inclusive. -/
def flag (e : ℕ) : Bool := (mem.entry e).flag

/-- The entry covers the instant `x.1` and the address `x.2`. -/
def Covers (e : ℕ) (x : ℕ × ℕ) : Prop :=
  (mem.getStart e = 0 ∨ mem.getStart e ≤ x.1) ∧ (mem.getEnd e = 0 ∨ (x.1 : Int) ≤ mem.getEnd e) ∧
    (inet2range (mem.entry e).inet).rMin ≤ x.2 ∧ x.2 ≤ (inet2range (mem.entry e).inet).rMax

instance (e : ℕ) (x : ℕ × ℕ) : Decidable (mem.Covers e x) := inferInstanceAs (Decidable (_ ∧ _))

/-- The effective times and the block of the entry can be encoded as keys. -/
structure Codable (e : ℕ) : Prop where
  /-- the start is an instant, or open -/
  start : 0 ≤ mem.getStart e ∧ mem.getStart e < 2 ^ 31 - 1
  /-- the end is an instant, or open -/
  stop : 0 ≤ mem.getEnd e ∧ mem.getEnd e < 2 ^ 31 - 1
  /-- the start has a key before it that is not `NULL` -/
  start_ne : mem.getStart e ≠ 1
  /-- the bounds of the block do not turn into the wrong `NULL` -/
  block : Slicer.GoodBlock (mem.entry e).inet

/-- The owner of a point after the entries of a queue. -/
abbrev owner (es : List ℕ) (x : ℕ × ℕ) : Option ℕ := lastOwner mem.flag mem.Covers es x

/-- The keys of an entry in the map of its unit. -/
def keySpan (e : ℕ) : Span ℕ := ⟨timeToPointer (mem.getStart e), timeToPointer (mem.getEnd e)⟩

variable {mem} {e : ℕ}

theorem Codable.keySpan_eq (h : mem.Codable e) :
    mem.keySpan e = ⟨(mem.getStart e).toNat, (mem.getEnd e).toNat⟩ := by
  have h1 := h.start
  have h2 := h.stop
  rw [keySpan]
  congr 1
  · conv_lhs => rw [← Int.toNat_of_nonneg h1.1]
    exact timeToPointer_of_lt (by omega)
  · conv_lhs => rw [← Int.toNat_of_nonneg h2.1]
    exact timeToPointer_of_lt (by omega)

theorem Codable.covers_iff (h : mem.Codable e) (t ip : ℕ) :
    mem.Covers e (t, ip) ↔
      (mem.keySpan e).Mem t ∧ (Slicer.blockSpan (mem.entry e).inet).Mem ip := by
  have h1 := h.start
  have h2 := h.stop
  rw [Slicer.blockSpan_mem h.block, h.keySpan_eq, Covers, Span.Mem]
  simp only
  omega

theorem Codable.inetOk (h : mem.Codable e) : InetOk (Slicer.blockSpan (mem.entry e).inet) := by
  rw [Slicer.blockSpan_eq]
  exact ⟨h.block.1, h.block.2, inet2range_le _, inet2range_lt _⟩

/-- Above all bounds nothing changes any more. -/
theorem Codable.covers_min (h : mem.Codable e) (t ip : ℕ) :
    mem.Covers e (t, ip) ↔ mem.Covers e (min t (2 ^ 31 - 1), ip) := by
  have h1 := h.start
  have h2 := h.stop
  simp only [Covers]
  omega

/-- The interval of the entry is either skipped, and then it covers nothing, or it fits. -/
theorem Codable.skip_or_fits (h : mem.Codable e) :
    (0 < beginEndCmp timeOps (mem.keySpan e).lo (mem.keySpan e).hi ∧
      ∀ t, ¬ (mem.keySpan e).Mem t) ∨
    timeOps.Fits timeDom timeWhole (mem.keySpan e) ∧
      Slicer.Crosses timeDom timeWhole (mem.keySpan e) := by
  have h1 := h.start
  have h2 := h.stop
  have h3 := h.start_ne
  rw [h.keySpan_eq]
  by_cases hle : (mem.getStart e).toNat = 0 ∨ (mem.getEnd e).toNat = 0 ∨
      (mem.getStart e).toNat ≤ (mem.getEnd e).toNat
  · refine Or.inr (Slicer.interval_fits ⟨by omega, by omega, hle⟩ (by omega))
  · refine Or.inl ⟨?_, fun t ht => ?_⟩
    · rw [timeOps_lawful.beginEndCmp_pos (fun _ => by simp only [timeDom]; omega)
        (fun _ => by simp only [timeDom]; omega)]
      simp only
      omega
    · rw [Span.Mem] at ht
      simp only at ht
      omega

end Memory

/-! ## One entry

An entry is a layer: its block and its effective interval, with the flag of inclusion. Adding it to
the map, or deleting it, paints the layer.
-/

section Step

variable [TreeShape ℕ] {mem : Memory}

/-- A map of a unit in order. -/
abbrev UnitMapOK (sl : MapSlicer ℕ ℕ ℕ) (s : UnitState) : Prop :=
  MapOK (fun _ _ => True) timeDom timeWhole InetOk sl s

/-- The map gives each point the owner it has after the entries `A`. -/
def Represents (mem : Memory) (sl : MapSlicer ℕ ℕ ℕ) (A : List ℕ) : Prop :=
  ∀ t ip, timeDom t → inetDom ip → ownerAt (contentAt timeOps sl t) ip = mem.owner A (t, ip)

omit [TreeShape ℕ] in
theorem nullHandlers_tracks :
    (MapHandlers.null ℕ).Tracks (fun (_ : Unit) (_ : Multiset (MapNode × ℕ)) => True) :=
  ⟨fun _ => trivial, fun _ => trivial⟩

omit [TreeShape ℕ] in
/-- A piece of an entry in the map lies in the block of the entry, so a second piece of it
can only be added by crossing the first. -/
theorem Represents.mergeable {sl : MapSlicer ℕ ℕ ℕ} {s : UnitState} {A : List ℕ} {e t : ℕ}
    (hm : UnitMapOK sl s) (hr : Represents mem sl A) (he : mem.Codable e) (ht : timeDom t) :
    Mergeable inetOps inetDom ⟨Slicer.blockSpan (mem.entry e).inet, e⟩
      (contentAt timeOps sl t) := by
  intro x hx hd
  have ho := hm.ordered_at timeOps_lawful ht (Slicer.timeWhole_mem t)
  have hok := ho.ok x hx
  obtain ⟨ip, hip, hmx⟩ := hok.proper.exists_mem exists_inetDom
  have hown := hr t ip ht hip
  rw [ho.ownerAt_of_mem hx hmx, hd] at hown
  obtain ⟨-, -, -, -, hcov, -⟩ := lastOwner_eq_some hown.symm
  have hmb := ((he.covers_iff t ip).mp hcov).2
  exact ⟨fun hb => absurd hmb (hb.not_mem hmx), fun hb => absurd hmx (hb.not_mem hmb)⟩

/-- `unit_map_add_inet` in terms of the spans of the entry. -/
theorem unitMapAddInet_eq (map : Map ℕ ℕ ℕ) (e : ℕ) (s : UnitState) :
    unitMapAddInet mem map e s =
      if mem.flag e = true then
        mapAdd inetOps (MapHandlers.null ℕ) timeOps map (mem.keySpan e)
          (Slicer.blockSpan (mem.entry e).inet) e s
      else
        (mapDel inetOps (MapHandlers.null ℕ) timeOps map (mem.keySpan e)
          (Slicer.blockSpan (mem.entry e).inet) none s).map fun r =>
            (r.1, { r.2 with cross := none }) := rfl

/-- What one pass of the rebuild does after the entries `A`: it takes the entry in, or
finds an entry that still owns a point it covers. -/
structure Passed (mem : Memory) (A : List ℕ) (e : ℕ) (sl' : MapSlicer ℕ ℕ ℕ) (s' : UnitState) :
    Prop where
  /-- taken in -/
  taken : s'.cross = none → UnitMapOK sl' s' ∧ Represents mem sl' (A ++ [e])
  /-- then it claims no point that has an owner -/
  free : s'.cross = none → ∀ t ip, timeDom t → inetDom ip →
    ¬ (mem.flag e = true ∧ mem.Covers e (t, ip) ∧ mem.owner A (t, ip) ≠ none)
  /-- not taken in -/
  cross : ∀ c, s'.cross = some c → mem.flag e = true ∧ ∃ t ip, timeDom t ∧ inetDom ip ∧
    mem.Covers e (t, ip) ∧ mem.owner A (t, ip) = some c.data

variable {sl : MapSlicer ℕ ℕ ℕ} {s : UnitState} {A : List ℕ} {e : ℕ}

omit [TreeShape ℕ] in
/-- An entry whose interval is skipped covers nothing. -/
theorem passed_skip (hm : UnitMapOK sl s) (hr : Represents mem sl A) (he : mem.Codable e)
    (hnone : ∀ t, ¬ (mem.keySpan e).Mem t) : Passed mem A e sl { s with cross := none } where
  taken _ := by
    refine ⟨⟨hm.wf, hm.live.setCross⟩, fun t ip ht hip => ?_⟩
    rw [hr t ip ht hip, Memory.owner, Memory.owner, lastOwner_concat, if_neg]
    exact fun hc => hnone t ((he.covers_iff t ip).mp hc).1
  free _ t ip _ _ hc := hnone t ((he.covers_iff t ip).mp hc.2.1).1
  cross c hc := by cases hc

/-- An inclusive entry. -/
theorem passed_add (hm : UnitMapOK sl s) (hr : Represents mem sl A) (he : mem.Codable e)
    (hf : mem.flag e = true) (hfits : timeOps.Fits timeDom timeWhole (mem.keySpan e))
    (hcr : Slicer.Crosses timeDom timeWhole (mem.keySpan e)) :
    ∃ sl' s', mapAdd inetOps (MapHandlers.null ℕ) timeOps (some sl) (mem.keySpan e)
      (Slicer.blockSpan (mem.entry e).inet) e s = some (some sl', s') ∧
      Passed mem A e sl' s' := by
  obtain ⟨sl', s', hadd, hm', hcont, hcross⟩ := mapAdd_rule (s := s)
    timeOps_lawful inetOps_cuts.toJoins nullHandlers_tracks hm hfits hcr he.inetOk
    (fun t ht _ _ => ⟨(hr.mergeable hm he ht).seamless, Or.inl fun _ _ _ h => h⟩)
  -- without a crossing the entry is in every slice of its interval
  have hin : s'.cross = none → ∀ t, timeDom t → (mem.keySpan e).Mem t →
      Added inetDom ⟨Slicer.blockSpan (mem.entry e).inet, e⟩ (contentAt timeOps sl t)
        (contentAt timeOps sl' t) := by
    intro hnc t ht hk
    refine ((hcont t ht (Slicer.timeWhole_mem t)).1 hk).resolve_right fun h => ?_
    simp [hnc] at h
  refine ⟨sl', s', hadd, fun hnc => ⟨hm', ?_⟩, ?_, ?_⟩
  · intro t ip ht hip
    rw [Memory.owner, lastOwner_concat, if_pos hf]
    by_cases hk : (mem.keySpan e).Mem t
    · rw [(hin hnc t ht hk).owner ip hip, hr t ip ht hip]
      refine if_congr ?_ rfl rfl
      rw [he.covers_iff]
      exact ⟨fun h => ⟨hk, h⟩, fun h => h.2⟩
    · rw [(hcont t ht (Slicer.timeWhole_mem t)).2 hk, hr t ip ht hip, if_neg]
      exact fun hc => hk ((he.covers_iff t ip).mp hc).1
  · rintro hnc t ip ht hip ⟨-, hcov, hown⟩
    obtain ⟨hk, hb⟩ := (he.covers_iff t ip).mp hcov
    rw [← hr t ip ht hip] at hown
    exact hown ((hin hnc t ht hk).free ip hip hb)
  · intro c hc
    obtain ⟨t, ht, hw, hk, x, hx, hmeet, rfl⟩ := hcross c hc
    have ho := hm.ordered_at timeOps_lawful ht hw
    obtain ⟨ip, hip, hxm, hbm⟩ := hmeet.exists_mem exists_inetDom
      (ho.ok x hx).proper he.inetOk.proper
    refine ⟨hf, t, ip, ht, hip, (he.covers_iff t ip).mpr ⟨hk, hbm⟩, ?_⟩
    rw [← hr t ip ht hip]
    exact ho.ownerAt_of_mem hx hxm

/-- An exclusive entry. -/
theorem passed_del (hm : UnitMapOK sl s) (hr : Represents mem sl A) (he : mem.Codable e)
    (hf : mem.flag e = false) (hfits : timeOps.Fits timeDom timeWhole (mem.keySpan e))
    (hcr : Slicer.Crosses timeDom timeWhole (mem.keySpan e)) :
    ∃ sl' s', mapDel inetOps (MapHandlers.null ℕ) timeOps (some sl) (mem.keySpan e)
      (Slicer.blockSpan (mem.entry e).inet) none s = some (some sl', s') ∧
      Passed mem A e sl' { s' with cross := none } := by
  obtain ⟨sl', s', hdel, hm', -, hcont⟩ := mapDel_rule (s := s)
    timeOps_lawful inetOps_cuts nullHandlers_tracks hm hfits hcr he.inetOk none
  refine ⟨sl', s', hdel, fun _ => ⟨⟨hm'.wf, hm'.live.setCross⟩, ?_⟩, ?_, ?_⟩
  · intro t ip ht hip
    obtain ⟨hin, hout⟩ := hcont t ht (Slicer.timeWhole_mem t)
    have hff : ¬ mem.flag e = true := by
      rw [hf]
      decide
    rw [Memory.owner, lastOwner_concat, if_neg hff]
    by_cases hk : (mem.keySpan e).Mem t
    · rw [hin hk ip hip, hr t ip ht hip]
      refine if_congr ?_ rfl rfl
      rw [he.covers_iff]
      exact ⟨fun h => ⟨hk, h.1⟩, fun h => ⟨h.2, fun a _ => Or.inl rfl⟩⟩
    · rw [hout hk, hr t ip ht hip, if_neg]
      exact fun hc => hk ((he.covers_iff t ip).mp hc).1
  · rintro - t ip - - ⟨hf', -⟩
    rw [hf] at hf'
    cases hf'
  · intro c hc
    cases hc

/-- One pass of the rebuild. -/
theorem unitMapAddInet_spec (hm : UnitMapOK sl s) (hr : Represents mem sl A)
    (he : mem.Codable e) :
    ∃ sl' s', unitMapAddInet mem (some sl) e s = some (some sl', s') ∧ Passed mem A e sl' s' := by
  rw [unitMapAddInet_eq]
  by_cases hf : mem.flag e = true
  · rw [if_pos hf]
    rcases he.skip_or_fits with ⟨hskip, hnone⟩ | ⟨hfits, hcr⟩
    · exact ⟨sl, _, mapAdd_skip hskip _ _, passed_skip hm hr he hnone⟩
    · exact passed_add hm hr he hf hfits hcr
  · rw [if_neg hf]
    rcases he.skip_or_fits with ⟨hskip, hnone⟩ | ⟨hfits, hcr⟩
    · refine ⟨sl, _, ?_, passed_skip hm hr he hnone⟩
      rw [mapDel_skip hskip]
      rfl
    · obtain ⟨sl', s', hdel, hp⟩ := passed_del hm hr he (by simpa using hf) hfits hcr
      refine ⟨sl', _, ?_, hp⟩
      rw [hdel]
      rfl

/-! ## The whole queue

The loop paints the layers from the first to the last, and stops at the first that clashes.
-/

/-- The loop of the rebuild, after the entries `A`. -/
theorem rebuildLoop_spec (B : List ℕ) : ∀ {sl : MapSlicer ℕ ℕ ℕ} {s : UnitState} {A : List ℕ},
    UnitMapOK sl s → Represents mem sl A → (∀ e ∈ B, mem.Codable e) →
    (∀ t ip, timeDom t → inetDom ip → ¬ Clash mem.flag mem.Covers A (t, ip)) →
    (∃ sl' s', rebuildLoop mem B (some sl) s = some (.ok (some sl')) ∧ UnitMapOK sl' s' ∧
      Represents mem sl' (A ++ B) ∧
      ∀ t ip, timeDom t → inetDom ip → ¬ Clash mem.flag mem.Covers (A ++ B) (t, ip)) ∨
    ∃ e f B₁ B₂, rebuildLoop mem B (some sl) s = some (.error (e, f)) ∧ B = B₁ ++ f :: B₂ ∧
      mem.flag f = true ∧ ∃ t ip, timeDom t ∧ inetDom ip ∧ mem.Covers f (t, ip) ∧
        mem.owner (A ++ B₁) (t, ip) = some e := by
  induction B with
  | nil =>
    intro sl s A hm hr _ hno
    exact Or.inl ⟨sl, s, rfl, hm, by simpa using hr, by simpa using hno⟩
  | cons f B ih =>
    intro sl s A hm hr hcod hno
    obtain ⟨sl', s', he, hp⟩ := unitMapAddInet_spec hm hr (hcod f List.mem_cons_self)
    rcases hc : s'.cross with _ | c
    · obtain ⟨hm', hr'⟩ := hp.taken hc
      have hloop : rebuildLoop mem (f :: B) (some sl) s = rebuildLoop mem B (some sl') s' := by
        rw [rebuildLoop, he]
        simp only
        rw [hc]
      rw [hloop]
      rcases ih hm' hr' (fun e he => hcod e (List.mem_cons_of_mem _ he)) (by
        intro t ip ht hip
        rw [clash_concat, not_or]
        exact ⟨hno t ip ht hip, hp.free hc t ip ht hip⟩) with h | h
      · exact Or.inl (by simpa using h)
      · obtain ⟨e, g, B₁, B₂, h1, rfl, h3, t, ip, h4⟩ := h
        exact Or.inr ⟨e, g, f :: B₁, B₂, h1, rfl, h3, t, ip, by simpa using h4⟩
    · obtain ⟨hf, t, ip, ht, hip, hcov, hown⟩ := hp.cross c hc
      refine Or.inr ⟨c.data, f, [], B, ?_, rfl, hf, t, ip, ht, hip, hcov, by simpa using hown⟩
      rw [rebuildLoop, he]
      simp only
      rw [hc]

omit [TreeShape ℕ] in
/-- A clash at any instant is one at an instant the map orders rightly. -/
theorem clash_iff_dom {es : List ℕ} (hcod : ∀ e ∈ es, mem.Codable e) :
    (∃ x, Clash mem.flag mem.Covers es x) ↔
      ∃ t ip, timeDom t ∧ inetDom ip ∧ Clash mem.flag mem.Covers es (t, ip) := by
  constructor
  · rintro ⟨⟨t, ip⟩, A, e, B, f, C, rfl, he, hf, hce, hcf, hB⟩
    have hmin : ∀ g ∈ A ++ e :: (B ++ f :: C), (mem.Covers g (t, ip) ↔
        mem.Covers g (min t (2 ^ 31 - 1), ip)) := fun g hg => (hcod g hg).covers_min t ip
    refine ⟨min t (2 ^ 31 - 1), ip, ?_, ?_, A, e, B, f, C, rfl, he, hf, ?_, ?_, ?_⟩
    · rw [timeDom]
      omega
    · exact lt_of_le_of_lt hce.2.2.2 (inet2range_lt _)
    · exact (hmin e (by simp)).mp hce
    · exact (hmin f (by simp)).mp hcf
    · exact fun g hg hgf hgc => hB g hg hgf ((hmin g (by simp [hg])).mpr hgc)
  · rintro ⟨t, ip, -, -, h⟩
    exact ⟨(t, ip), h⟩

omit [TreeShape ℕ] in
/-- A clash in a part of the queue is one in the queue. -/
theorem clash_append_of_owner {A B : List ℕ} {e f t ip : ℕ} (hf : mem.flag f = true)
    (hcov : mem.Covers f (t, ip)) (hown : mem.owner A (t, ip) = some e) :
    Clash mem.flag mem.Covers (A ++ f :: B) (t, ip) := by
  obtain ⟨A₁, A₂, rfl, h1, h2, h3⟩ := lastOwner_eq_some hown
  exact ⟨A₁, e, A₂, f, B, by simp, h1, hf, h2, hcov, fun g hg _ => h3 g hg⟩

theorem represents_init : Represents mem (timeSlicerNew (MapQueue ℕ ℕ)) [] := by
  intro t ip ht hip
  have hc : contentAt timeOps (timeSlicerNew (MapQueue ℕ ℕ)) t = [] :=
    contentAt_init timeOps_lawful Slicer.timeWhole_proper ht (Slicer.timeWhole_mem t)
  rw [hc]
  rfl

/-- A rebuild of a non-empty separator: a new map with the right owners, or a clash. -/
theorem rebuild_cases {unit : MbbUnit} (hne : unit.sep ≠ [])
    (hcod : ∀ e ∈ unit.sep, mem.Codable e) :
    (∃ sl s, mbbUnitMapRebuild mem unit = some ({ unit with map := some sl }, none) ∧
      UnitMapOK sl s ∧ Represents mem sl unit.sep ∧
      ∀ x, ¬ Clash mem.flag mem.Covers unit.sep x) ∨
    ∃ e f A B, mbbUnitMapRebuild mem unit = some (unit, some (e, f)) ∧ unit.sep = A ++ f :: B ∧
      mem.flag f = true ∧ ∃ t ip, timeDom t ∧ inetDom ip ∧ mem.Covers f (t, ip) ∧
        mem.owner A (t, ip) = some e := by
  have hlen : ¬ unit.sep.length = 0 := fun h => hne (List.length_eq_zero_iff.mp h)
  have hinit : UnitMapOK (timeSlicerNew (MapQueue ℕ ℕ)) ⟨0, (), none⟩ :=
    mapOK_init timeOps_lawful Slicer.timeWhole_proper trivial
  rw [mbbUnitMapRebuild, if_neg hlen, timeMapInit]
  rcases rebuildLoop_spec unit.sep hinit represents_init hcod (fun _ _ _ _ => not_clash_nil) with
    ⟨sl, s, he, hm, hr, hno⟩ | ⟨e, f, A, B, he, hsep, hf, t, ip, h⟩
  · rw [he]
    refine Or.inl ⟨sl, s, rfl, hm, hr, fun x hx => ?_⟩
    obtain ⟨t, ip, ht, hip, hc⟩ := (clash_iff_dom hcod).mp ⟨x, hx⟩
    exact hno t ip ht hip hc
  · rw [he]
    exact Or.inr ⟨e, f, A, B, rfl, hsep, hf, t, ip, h⟩

/-- A rebuild returns `TRUE` exactly when nothing clashes, and then lookups give the last
entry covering a point, if it is inclusive. -/
theorem unitMapRebuild_true (unit : MbbUnit) (hcod : ∀ e ∈ unit.sep, mem.Codable e) :
    ∃ unit' pp, mbbUnitMapRebuild mem unit = some (unit', pp) ∧
      (pp = none ↔ ∀ x, ¬ Clash mem.flag mem.Covers unit.sep x) ∧
      (pp = none → if unit.sep = [] then unit'.map = none else
        ∀ t ip : ℕ, t ≤ 2 ^ 31 - 2 → ip < 2 ^ 32 →
          mapFind inetOps timeOps unit'.map (timeToPointer t) (ipv4ToPointer ip) =
            some (lastOwner mem.flag mem.Covers unit.sep (t, ip))) := by
  by_cases hne : unit.sep = []
  · refine ⟨{ unit with map := none }, none, ?_, ?_, fun _ => by rw [if_pos hne]⟩
    · rw [mbbUnitMapRebuild, if_pos (by rw [hne]; rfl)]
      cases unit.map <;> rfl
    · refine iff_of_true rfl fun x => ?_
      rw [hne]
      exact not_clash_nil
  · rcases rebuild_cases hne hcod with ⟨sl, s, he, hm, hr, hno⟩ |
      ⟨e, f, A, B, he, hsep, hf, t, ip, ht, hip, hcov, hown⟩
    · refine ⟨_, none, he, iff_of_true rfl hno, fun _ => ?_⟩
      rw [if_neg hne]
      intro t ip ht hip
      have htd : timeDom t := by
        rw [timeDom]
        omega
      rw [timeToPointer_of_lt (by omega), ipv4ToPointer_of_lt hip,
        hm.mapFind_eq timeOps_lawful inetOps_cuts.toJoins htd (Slicer.timeWhole_mem t) hip,
        hr t ip htd hip]
    · refine ⟨unit, some (e, f), he, iff_of_false (by simp) fun hno => hno (t, ip) ?_, by simp⟩
      rw [hsep]
      exact clash_append_of_owner hf hcov hown

/-- A rebuild that returns `FALSE` leaves the unit alone and names two inclusive entries,
the first of which owned a point of the second when that one came. -/
theorem unitMapRebuild_false {unit unit' : MbbUnit} {e f : ℕ}
    (hcod : ∀ e ∈ unit.sep, mem.Codable e)
    (h : mbbUnitMapRebuild mem unit = some (unit', some (e, f))) :
    unit' = unit ∧ ∃ A B t ip, unit.sep = A ++ f :: B ∧ mem.flag e = true ∧ mem.flag f = true ∧
      mem.Covers e (t, ip) ∧ mem.Covers f (t, ip) ∧
      lastOwner mem.flag mem.Covers A (t, ip) = some e := by
  by_cases hne : unit.sep = []
  · rw [mbbUnitMapRebuild, if_pos (by rw [hne]; rfl)] at h
    cases h
  · rcases rebuild_cases hne hcod with ⟨sl, s, he, -⟩ |
      ⟨e', f', A, B, he, hsep, hf, t, ip, -, -, hcov, hown⟩
    · rw [he] at h
      cases h
    · rw [he] at h
      cases h
      obtain ⟨-, -, -, hfe, hce, -⟩ := lastOwner_eq_some hown
      exact ⟨rfl, A, B, t, ip, hsep, hfe, hf, hce, hcov, hown⟩

/-- **The meaning of a unit's map.** -/
theorem unit_map_rebuild_meaning {unit : MbbUnit} (hcod : ∀ e ∈ unit.sep, mem.Codable e) :
    ∃ unit' pp, mbbUnitMapRebuild mem unit = some (unit', pp) ∧
      (pp = none ↔ ∀ x, ¬ Clash mem.flag mem.Covers unit.sep x) ∧
      (pp = none → if unit.sep = [] then unit'.map = none else
        ∀ t ip : ℕ, t ≤ 2 ^ 31 - 2 → ip < 2 ^ 32 →
          mapFind inetOps timeOps unit'.map (timeToPointer t) (ipv4ToPointer ip) =
            some (lastOwner mem.flag mem.Covers unit.sep (t, ip))) ∧
      ∀ e f, pp = some (e, f) → unit'.map = unit.map ∧
        ∃ A B t ip, unit.sep = A ++ f :: B ∧ mem.flag e = true ∧ mem.flag f = true ∧
          mem.Covers e (t, ip) ∧ mem.Covers f (t, ip) ∧
          lastOwner mem.flag mem.Covers A (t, ip) = some e := by
  obtain ⟨unit', pp, he, hiff, hfind⟩ := unitMapRebuild_true unit hcod
  refine ⟨unit', pp, he, hiff, hfind, ?_⟩
  rintro e f rfl
  obtain ⟨rfl, hrest⟩ := unitMapRebuild_false hcod he
  exact ⟨rfl, hrest⟩

end Step

/-- 10.0.0.0/8 -/
def tenBlock : Inet := ⟨0x0a000000, 8, by decide, by decide⟩

/-- Entry 1 includes 10.0.0.0/8 for ever, the others exclude 10.1.0.0/16 from 100 to
200. -/
def exampleEntry (e : ℕ) : InetPoolEntry :=
  if e = 1 then ⟨1, tenBlock, true, 0, 0, 0, 0⟩
  else ⟨2, ⟨0x0a010000, 16, by decide, by decide⟩, false, 100, 200, 0, 0⟩

/-- These entries, and units with the same separator. -/
def exampleMemory (sep : List ℕ) : Memory :=
  ⟨exampleEntry, fun u => ⟨u, none, false, 0, 0, sep, none⟩⟩

theorem exampleMemory_codable (sep : List ℕ) (e : ℕ) : (exampleMemory sep).Codable e := by
  have hcases : (exampleMemory sep).entry e = exampleEntry 1 ∨
      (exampleMemory sep).entry e = exampleEntry 2 := by
    by_cases h : e = 1
    · exact Or.inl (congrArg exampleEntry h)
    · exact Or.inr (if_neg h)
  rcases hcases with he | he
  · have h1 : (exampleMemory sep).getStart e = 0 := by rw [Memory.getStart, he]; rfl
    have h2 : (exampleMemory sep).getEnd e = 0 := by rw [Memory.getEnd, he]; rfl
    exact ⟨by rw [h1]; decide, by rw [h2]; decide, by rw [h1]; decide, by rw [he]; decide,
      by rw [he]; decide⟩
  · have h1 : (exampleMemory sep).getStart e = 100 := by rw [Memory.getStart, he]; rfl
    have h2 : (exampleMemory sep).getEnd e = 200 := by rw [Memory.getEnd, he]; rfl
    exact ⟨by rw [h1]; decide, by rw [h2]; decide, by rw [h1]; decide, by rw [he]; decide,
      by rw [he]; decide⟩

/-- The rebuild at the separator with entries 1 and 2. -/
theorem unit_map_rebuild_meaning_example :
    letI := TreeShape.plain ℕ
    ∃ unit' pp, mbbUnitMapRebuild (exampleMemory [1, 2]) ((exampleMemory [1, 2]).unit 0) =
        some (unit', pp) ∧
      (pp = none ↔ ∀ x, ¬ Clash (exampleMemory [1, 2]).flag (exampleMemory [1, 2]).Covers
        [1, 2] x) := by
  let _ := TreeShape.plain ℕ
  obtain ⟨unit', pp, he, hpp, -⟩ := unit_map_rebuild_meaning
    fun e _ => exampleMemory_codable _ e
  exact ⟨unit', pp, he, hpp⟩

/-- With an empty separator the rebuild returns `TRUE` and leaves no slicer, on which
`map_find` cannot be called. -/
theorem unit_map_rebuild_empty :
    letI := TreeShape.plain ℕ
    ∃ unit', mbbUnitMapRebuild (exampleMemory []) ((exampleMemory []).unit 0) =
        some (unit', none) ∧
      ¬ mapFind inetOps timeOps unit'.map (timeToPointer 0) (ipv4ToPointer 0) =
        some (lastOwner (exampleMemory []).flag (exampleMemory []).Covers [] (0, 0)) := by
  let _ := TreeShape.plain ℕ
  exact ⟨_, rfl, by simp [mapClear, exampleMemory, mapFind]⟩

end Mbb
