import Mbb.UnitMap

/-!
# The order of a separator

`separator_add` keeps the queue sorted by priority, inclusive entries first. Entries
that tie stand in the order they came, which the rebuilt map does not show.
-/

namespace Mbb

variable {mem : Memory}

/-- The rank of an entry in a separator: its priority, inclusive before exclusive. -/
def Memory.rank (mem : Memory) (e : ℕ) : ℕ :=
  2 * (mem.entry e).nice + if mem.flag e then 0 else 1

/-- The separator after entries were added in the order given. -/
def separatorAddAll (mem : Memory) (es : List ℕ) : List ℕ :=
  es.foldl (fun sep e => separatorAdd mem e sep) []

/-- The rank decides whether an entry is inclusive. -/
theorem flag_of_rank (a b : ℕ) (h : mem.rank a = mem.rank b) : mem.flag a = mem.flag b := by
  rw [Memory.rank, Memory.rank] at h
  rcases ha : mem.flag a with _ | _ <;> rcases hb : mem.flag b with _ | _
  · rfl
  · rw [ha, hb] at h
    simp only [Bool.false_eq_true, if_false, if_true] at h
    omega
  · rw [ha, hb] at h
    simp only [Bool.false_eq_true, if_false, if_true] at h
    omega
  · rfl

/-- `entry_cmp` compares ranks. -/
theorem entryCmp_neg {a b : ℕ} (ha : (mem.entry a).nice < 2 ^ 31)
    (hb : (mem.entry b).nice < 2 ^ 31) :
    entryCmp (mem.entry a) (mem.entry b) < 0 ↔ mem.rank a < mem.rank b := by
  have hd : toGint (toGint (mem.entry a).nice - toGint (mem.entry b).nice) =
      ((mem.entry a).nice : Int) - (mem.entry b).nice := by
    rw [toGint_of_lt (n := (mem.entry a).nice) (by omega) (by omega),
      toGint_of_lt (n := (mem.entry b).nice) (by omega) (by omega),
      toGint_of_lt (by omega) (by omega)]
  rw [entryCmp, hd]
  rcases hfa : (mem.entry a).flag with _ | _ <;> rcases hfb : (mem.entry b).flag with _ | _ <;>
    simp only [Memory.rank, Memory.flag, boolToGint, hfa, hfb, Bool.false_eq_true, if_false,
      if_true] <;>
    split_ifs <;> omega

theorem separatorAdd_perm (e : ℕ) (sep : List ℕ) : (separatorAdd mem e sep).Perm (e :: sep) := by
  induction sep with
  | nil => exact List.Perm.refl _
  | cons x xs ih =>
    rw [separatorAdd]
    split
    · exact List.Perm.refl _
    · exact (ih.cons x).trans (List.Perm.swap e x xs)

theorem separatorAdd_sorted {e : ℕ} (he : (mem.entry e).nice < 2 ^ 31) {sep : List ℕ}
    (hnice : ∀ x ∈ sep, (mem.entry x).nice < 2 ^ 31)
    (hs : sep.Pairwise fun a b => mem.rank a ≤ mem.rank b) :
    (separatorAdd mem e sep).Pairwise fun a b => mem.rank a ≤ mem.rank b := by
  induction sep with
  | nil => exact List.pairwise_singleton _ _
  | cons x xs ih =>
    obtain ⟨hx, hxs⟩ := List.pairwise_cons.mp hs
    have hcmp := entryCmp_neg he (hnice x List.mem_cons_self)
    rw [separatorAdd]
    split
    · rename_i hlt
      have hlt' := hcmp.mp hlt
      refine List.pairwise_cons.mpr ⟨fun y hy => ?_, hs⟩
      rcases List.mem_cons.mp hy with rfl | hy
      · exact hlt'.le
      · exact hlt'.le.trans (hx y hy)
    · rename_i hge
      have hle : mem.rank x ≤ mem.rank e := not_lt.mp fun h => hge (hcmp.mpr h)
      refine List.pairwise_cons.mpr
        ⟨fun y hy => ?_, ih (fun y hy => hnice y (List.mem_cons_of_mem _ hy)) hxs⟩
      rcases List.mem_cons.mp ((separatorAdd_perm e xs).mem_iff.mp hy) with rfl | hy
      · exact hle
      · exact hx y hy

/-- Adding entries one by one sorts them. -/
theorem separatorAddAll_spec {es : List ℕ} (hnice : ∀ e ∈ es, (mem.entry e).nice < 2 ^ 31) :
    (separatorAddAll mem es).Perm es ∧
      (separatorAddAll mem es).Pairwise fun a b => mem.rank a ≤ mem.rank b := by
  induction es using List.reverseRecOn with
  | nil => exact ⟨List.Perm.refl _, List.Pairwise.nil⟩
  | append_singleton es e ih =>
    obtain ⟨hp, hs⟩ := ih fun x hx => hnice x (by simp [hx])
    have heq : separatorAddAll mem (es ++ [e]) = separatorAdd mem e (separatorAddAll mem es) := by
      rw [separatorAddAll, List.foldl_append]
      rfl
    rw [heq]
    refine ⟨?_, separatorAdd_sorted (hnice e (by simp)) (fun x hx => ?_) hs⟩
    · exact (separatorAdd_perm e _).trans ((hp.cons e).trans (List.perm_append_singleton e es).symm)
    · exact hnice x (by simp [hp.mem_iff.mp hx])

/-- **The rebuilt map does not depend on the order of arrival.** -/
theorem rebuild_order_independent [TreeShape ℕ] {es es' : List ℕ} (hp : es.Perm es')
    (hn : es.Nodup) (hcod : ∀ e ∈ es, mem.Codable e)
    (hnice : ∀ e ∈ es, (mem.entry e).nice < 2 ^ 31) (unit : MbbUnit) :
    ∃ u pp u' pp',
      mbbUnitMapRebuild mem { unit with sep := separatorAddAll mem es } = some (u, pp) ∧
      mbbUnitMapRebuild mem { unit with sep := separatorAddAll mem es' } = some (u', pp') ∧
      (pp = none ↔ pp' = none) ∧
      (pp = none → ∀ t ip : ℕ, t ≤ 2 ^ 31 - 2 → ip < 2 ^ 32 →
        mapFind inetOps timeOps u.map (timeToPointer t) (ipv4ToPointer ip) =
          mapFind inetOps timeOps u'.map (timeToPointer t) (ipv4ToPointer ip)) := by
  obtain ⟨hps, hs⟩ := separatorAddAll_spec hnice
  obtain ⟨hps', hs'⟩ := separatorAddAll_spec fun e he => hnice e (hp.mem_iff.mpr he)
  have hpp : (separatorAddAll mem es).Perm (separatorAddAll mem es') :=
    hps.trans (hp.trans hps'.symm)
  have hnd : (separatorAddAll mem es).Nodup := hps.nodup_iff.mpr hn
  obtain ⟨u, pp, he, hiff, hfind⟩ := unitMapRebuild_true
    { unit with sep := separatorAddAll mem es } fun e he => hcod e (hps.mem_iff.mp he)
  obtain ⟨u', pp', he', hiff', hfind'⟩ := unitMapRebuild_true
    { unit with sep := separatorAddAll mem es' } fun e he =>
      hcod e (hp.mem_iff.mpr (hps'.mem_iff.mp he))
  have hclash : ∀ x, Clash mem.flag mem.Covers (separatorAddAll mem es) x ↔
      Clash mem.flag mem.Covers (separatorAddAll mem es') x :=
    fun x => clash_perm flag_of_rank hs hs' hnd hpp
  have hiff'' : pp = none ↔ pp' = none := by
    rw [hiff, hiff']
    exact forall_congr' fun x => not_congr (hclash x)
  refine ⟨u, pp, u', pp', he, he', hiff'', fun hpn t ip ht hip => ?_⟩
  have h1 := hfind hpn
  have h2 := hfind' (hiff''.mp hpn)
  simp only at h1 h2
  by_cases hnil : separatorAddAll mem es = []
  · have hnil' : separatorAddAll mem es' = [] := by
      rw [hnil] at hpp
      exact hpp.nil_eq.symm
    rw [if_pos hnil] at h1
    rw [if_pos hnil'] at h2
    rw [h1, h2]
  · have hnil' : ¬ separatorAddAll mem es' = [] := fun h => by
      rw [h] at hpp
      exact hnil hpp.eq_nil
    rw [if_neg hnil] at h1
    rw [if_neg hnil'] at h2
    rw [h1 t ip ht hip, h2 t ip ht hip, lastOwner_perm flag_of_rank hs hs' hnd hpp]
    exact hiff.mp hpn (t, ip)

/-- Both orders of two entries with the same priority. -/
theorem rebuild_order_independent_example :
    letI := TreeShape.plain ℕ
    ∃ u pp u' pp',
      mbbUnitMapRebuild (exampleMemory [])
        { (exampleMemory []).unit 0 with sep := separatorAddAll (exampleMemory []) [1, 2] } =
          some (u, pp) ∧
      mbbUnitMapRebuild (exampleMemory [])
        { (exampleMemory []).unit 0 with sep := separatorAddAll (exampleMemory []) [2, 1] } =
          some (u', pp') ∧ (pp = none ↔ pp' = none) := by
  let _ := TreeShape.plain ℕ
  obtain ⟨u, pp, u', pp', h1, h2, h3, -⟩ := rebuild_order_independent
    (List.Perm.swap 2 1 [])
    (by decide) (fun e _ => exampleMemory_codable [] e) (by decide) ((exampleMemory []).unit 0)
  exact ⟨u, pp, u', pp', h1, h2, h3⟩

end Mbb
