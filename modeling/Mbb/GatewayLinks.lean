import Mbb.OfficeStep

/-!
# Looking up and admitting links

`mbb_gateway_get_link` leaves the queue of an interface at the first link that begins after the
time asked for, and `mbb_gateway_can_add` asks in another order than `gw_queue_insert_gl` does.
Both are right because the links stand in the order of their times and do not overlap.
-/

namespace Mbb

/-- The links of an interface. -/
def MbbGateway.linksOf (gw : MbbGateway) (link : ℕ) : List MbbGwLink := (gw.queue link).getD []

/-- The queues of a gateway are sorted, with disjoint intervals. -/
structure MbbGateway.Ordered (gw : MbbGateway) : Prop where
  /-- intervals -/
  valid : ∀ link, ∀ gl ∈ gw.linksOf link, gl.Valid
  /-- in order, without overlaps -/
  order : ∀ link, (gw.linksOf link).Pairwise MbbGwLink.Before

/-- The link is in force at the time `t`. -/
def MbbGwLink.InForce (gl : MbbGwLink) (t : Int) : Prop :=
  (gl.start = 0 ∨ gl.start ≤ t) ∧ (gl.stop = 0 ∨ t ≤ gl.stop)

instance (gl : MbbGwLink) (t : Int) : Decidable (gl.InForce t) :=
  inferInstanceAs (Decidable (_ ∧ _))

/-! ## Lookup

The loop may stop at the first link that begins after the time, since all that follow begin later
still.
-/

section Lookup

variable {gl : MbbGwLink} {t : Int}

theorem mbbTimeRcmp_neg (ht : 0 < t) {ta tb : Int} :
    mbbTimeRcmp t ta tb < 0 ↔ ta ≠ 0 ∧ t < ta := by
  have heb : mbbTimeEbcmp t ta < 0 ↔ _ := mbbTimeEbcmp_neg
  rw [mbbTimeRcmp]
  split
  · omega
  · split <;> omega

theorem mbbTimeRcmp_eq_zero (ht : 0 < t) :
    mbbTimeRcmp t gl.start gl.stop = 0 ↔ gl.InForce t := by
  have heb : mbbTimeEbcmp t gl.start < 0 ↔ _ := mbbTimeEbcmp_neg
  have hbe : mbbTimeBecmp t gl.stop > 0 ↔ _ := mbbTimeBecmp_pos
  rw [mbbTimeRcmp, MbbGwLink.InForce]
  split
  · omega
  · split <;> omega

/-- Links that come after one which has not ended are not in force. -/
theorem MbbGwLink.Before.not_inForce {c : MbbGwLink} (h : gl.Before c) (hle : t ≤ gl.stop) :
    ¬ c.InForce t := by
  obtain ⟨-, hc, hlt⟩ := h
  rintro ⟨hstart, -⟩
  omega

/-- The loop finds the links of the queue that are in force. -/
theorem gwQueueGetLink_toList (ht : 0 < t) {q : List MbbGwLink} (hv : ∀ gl ∈ q, gl.Valid)
    (hq : q.Pairwise MbbGwLink.Before) :
    (gwQueueGetLink t q).toList = q.filter fun gl => gl.InForce t := by
  induction q with
  | nil => rfl
  | cons gl q ih =>
    obtain ⟨hgl, hq⟩ := List.pairwise_cons.mp hq
    have hvalid := hv gl List.mem_cons_self
    rw [MbbGwLink.Valid, mbbTimeBecmp_nonpos] at hvalid
    rw [gwQueueGetLink]
    by_cases hin : gl.InForce t
    · -- the others begin after it ends
      have hrest : q.filter (fun gl => gl.InForce t) = [] := by
        refine List.filter_eq_nil_iff.mpr fun c hc => ?_
        have hle : t ≤ gl.stop := hin.2.resolve_left (hgl c hc).1
        simpa using (hgl c hc).not_inForce hle
      rw [List.filter_cons_of_pos (by simpa using hin), hrest,
        if_pos ((mbbTimeRcmp_eq_zero ht).mpr hin)]
      rfl
    · rw [List.filter_cons_of_neg (by simpa using hin),
        if_neg fun h => hin ((mbbTimeRcmp_eq_zero ht).mp h)]
      by_cases hneg : mbbTimeRcmp t gl.start gl.stop < 0
      · -- the early exit: what comes later begins later still
        rw [if_pos hneg]
        obtain ⟨h0, hlt⟩ := (mbbTimeRcmp_neg ht).mp hneg
        refine (List.filter_eq_nil_iff.mpr fun c hc => ?_).symm
        have hle : t ≤ gl.stop := by
          have := (hgl c hc).1
          omega
        simpa using (hgl c hc).not_inForce hle
      · rw [if_neg hneg]
        exact ih (fun c hc => hv c (List.mem_cons_of_mem _ hc)) hq

end Lookup

theorem mbbGatewayGetLink_eq (gw : MbbGateway) (link : ℕ) (t : Int) :
    mbbGatewayGetLink gw link t = gwQueueGetLink t (gw.linksOf link) := by
  rw [mbbGatewayGetLink, MbbGateway.linksOf, MbbGateway.queue]
  cases gw.ht with
  | none => rfl
  | some ht =>
    simp only [Option.bind_some]
    cases ht.lookup link <;> rfl

/-- **The link in force.** A lookup gives the one link of the interface that is in force at the
time, and `NULL` when there is none. -/
theorem link_in_force (gw : MbbGateway) (h : gw.Ordered) (link : ℕ) (t : Int) (ht : 0 < t) :
    (∀ gl, mbbGatewayGetLink gw link t = some gl ↔ gl ∈ gw.linksOf link ∧ gl.InForce t) ∧
      (mbbGatewayGetLink gw link t = none ↔ ∀ gl ∈ gw.linksOf link, ¬ gl.InForce t) ∧
      ((gw.linksOf link).filter fun gl => gl.InForce t).length ≤ 1 := by
  have hlist := gwQueueGetLink_toList ht (h.valid link) (h.order link)
  rw [← mbbGatewayGetLink_eq] at hlist
  have hsome : ∀ gl, mbbGatewayGetLink gw link t = some gl ↔
      gl ∈ gw.linksOf link ∧ gl.InForce t := by
    intro gl
    rw [← Option.mem_toList.trans Option.mem_def, hlist, List.mem_filter, decide_eq_true_iff]
  refine ⟨hsome, ?_, ?_⟩
  · rw [Option.eq_none_iff_forall_ne_some]
    refine forall_congr' fun gl => ?_
    rw [ne_eq, hsome, not_and]
  · rw [← hlist]
    cases mbbGatewayGetLink gw link t <;> simp

/-- A gateway with three links of the interface 3. -/
def threeLinks : MbbGateway :=
  ⟨1, 0xc0a80001, some [(3, [⟨5, 3, 0, 100⟩, ⟨6, 3, 200, 300⟩, ⟨7, 3, 301, 0⟩])]⟩

theorem threeLinks_ordered : threeLinks.Ordered := by
  have hlinks : ∀ link, threeLinks.linksOf link =
      if link = 3 then [⟨5, 3, 0, 100⟩, ⟨6, 3, 200, 300⟩, ⟨7, 3, 301, 0⟩] else [] := by
    intro link
    by_cases hl : link = 3
    · rw [hl]
      rfl
    · rw [if_neg hl, MbbGateway.linksOf, MbbGateway.queue, threeLinks, Option.bind_some,
        List.lookup_cons, beq_eq_false_iff_ne.mpr hl]
      rfl
  refine ⟨fun link => ?_, fun link => ?_⟩
  · rw [hlinks]
    split
    · simp [MbbGwLink.Valid, mbbTimeBecmp, timecmp]
    · simp
  · rw [hlinks]
    split
    · simp [MbbGwLink.Before]
    · exact List.Pairwise.nil

/-- Between the first two links none is in force. -/
theorem link_in_force_gap :
    mbbGatewayGetLink threeLinks 3 150 = none ∧
      mbbGatewayGetLink threeLinks 3 300 = some ⟨6, 3, 200, 300⟩ :=
  ⟨(link_in_force threeLinks threeLinks_ordered 3 150 (by decide)).2.1.mpr (by decide),
    ((link_in_force threeLinks threeLinks_ordered 3 300 (by decide)).1 _).mpr (by decide)⟩

/-! ## The check before an insertion

The check puts its questions to the links in another order than the insertion does. In a queue in
order the answers come to the same.
-/

section Check

variable {gl : MbbGwLink} {q : List MbbGwLink}

theorem gwQueueCanAdd_cons {create : Bool} {cur : MbbGwLink} (q : List MbbGwLink)
    (h : create = true ∨ cur.id ≠ gl.id) :
    gwQueueCanAdd gl create (cur :: q) =
      if mbbTimeEbcmp gl.stop cur.start < 0 then true
      else if mbbTimeBecmp gl.start cur.stop > 0 then gwQueueCanAdd gl create q
      else false := by
  rw [gwQueueCanAdd, if_neg]
  rintro ⟨hc, hid⟩
  rcases h with h | h
  · exact Bool.false_ne_true (hc.symm.trans h)
  · exact h hid

/-- The two loops ask the same questions, and at most one of them has the answer yes. -/
theorem gwQueueCanAdd_create (hgl : gl.Valid) (hv : ∀ cur ∈ q, cur.Valid) :
    gwQueueCanAdd gl true q = (gwQueueInsertGl gl q).isSome := by
  induction q with
  | nil => rfl
  | cons cur q ih =>
    have ih := ih fun c hc => hv c (List.mem_cons_of_mem _ hc)
    rw [gwQueueCanAdd_cons q (Or.inl rfl), gwQueueInsertGl]
    by_cases he : mbbTimeEbcmp gl.stop cur.start < 0
    · have hb : ¬ mbbTimeBecmp gl.start cur.stop > 0 := fun hb =>
        (MbbGwLink.ebcmp_neg_iff.mp he).asymm hgl (hv cur List.mem_cons_self)
          (MbbGwLink.becmp_pos_iff.mp hb)
      rw [if_pos he, if_neg hb, if_pos he]
      rfl
    · rw [if_neg he]
      by_cases hb : mbbTimeBecmp gl.start cur.stop > 0
      · rw [if_pos hb, if_pos hb, ih, Option.isSome_map]
      · rw [if_neg hb, if_neg hb, if_neg he]
        rfl

/-- A link that is passed over is not asked about. -/
theorem gwQueueCanAdd_mid {a b : List MbbGwLink} {old : MbbGwLink} (hid : old.id = gl.id)
    (ha : ∀ c ∈ a, c.id ≠ gl.id) (hb : ∀ c ∈ b, c.id ≠ gl.id) :
    gwQueueCanAdd gl false (a ++ old :: b) = gwQueueCanAdd gl true (a ++ b) := by
  induction a with
  | nil =>
    rw [List.nil_append, List.nil_append, gwQueueCanAdd, if_pos ⟨rfl, hid⟩]
    induction b with
    | nil => rfl
    | cons c b ih =>
      rw [gwQueueCanAdd_cons b (Or.inl rfl),
        gwQueueCanAdd_cons b (Or.inr (hb c List.mem_cons_self)),
        ih fun c' hc => hb c' (List.mem_cons_of_mem _ hc)]
  | cons c a ih =>
    rw [List.cons_append, List.cons_append, gwQueueCanAdd_cons (a ++ b) (Or.inl rfl),
      gwQueueCanAdd_cons (a ++ old :: b) (Or.inr (ha c List.mem_cons_self)),
      ih fun c' hc => ha c' (List.mem_cons_of_mem _ hc)]

end Check

/-- A new link is admitted when it can be inserted. -/
theorem MbbGateway.Ordered.canAdd_create {gw : MbbGateway} (h : gw.Ordered) {gl : MbbGwLink}
    (hgl : gl.Valid) : mbbGatewayCanAdd gw gl true = (mbbGatewayAddLink gw gl).1 := by
  have hv := h.valid gl.link
  rw [mbbGatewayCanAdd, mbbGatewayAddLink]
  rw [MbbGateway.linksOf, MbbGateway.queue] at hv
  rw [MbbGateway.queue]
  cases hht : gw.ht with
  | none => rfl
  | some ht =>
    rw [hht] at hv
    simp only [Option.bind_some] at hv ⊢
    cases hq : ht.lookup gl.link with
    | none => rfl
    | some q =>
      rw [hq, Option.getD_some] at hv
      simp only [gwQueueCanAdd_create hgl hv]
      cases gwQueueInsertGl gl q <;> rfl

/-- The queue of the interface, seen from one of its links. -/
theorem MbbGateway.queue_of_mem {gw : MbbGateway} {link : ℕ} {gl : MbbGwLink}
    (hgl : gl ∈ gw.linksOf link) : ∃ a b, gw.queue link = some (a ++ gl :: b) := by
  rw [linksOf] at hgl
  cases hq : gw.queue link with
  | none => simp [hq] at hgl
  | some q =>
    rw [hq, Option.getD_some] at hgl
    obtain ⟨a, b, rfl⟩ := List.append_of_mem hgl
    exact ⟨a, b, rfl⟩

theorem MbbGateway.queue_setQueue {gw : MbbGateway} {link : ℕ} {q q' : List MbbGwLink}
    (hq : gw.queue link = some q) : (gw.setQueue link q').queue link = some q' := by
  obtain ⟨ht, hht, hlk⟩ := Option.bind_eq_some_iff.mp hq
  rw [queue, setQueue, hht, Option.map_some, Option.bind_some]
  obtain ⟨l₁, l₂, rfl, hleft⟩ := lookup_split hlk
  rw [List.map_append, List.map_cons, if_pos rfl]
  refine lookup_mid fun hm => hleft ?_
  obtain ⟨e, he, heq⟩ := List.mem_map.mp hm
  obtain ⟨e', he', rfl⟩ := List.mem_map.mp he
  refine List.mem_map.mpr ⟨e', he', ?_⟩
  split at heq
  · rename_i hk
    exact hk
  · exact heq

/-- A link whose times have been changed is admitted when it can be reordered. -/
theorem MbbGateway.Ordered.canAdd_again {gw : MbbGateway} (h : gw.Ordered) {gl gl' : MbbGwLink}
    (hgl : gl ∈ gw.linksOf gl.link) (hid : gl'.id = gl.id) (hlink : gl'.link = gl.link)
    (hgl' : gl'.Valid) (hids : ((gw.linksOf gl.link).map MbbGwLink.id).Nodup) :
    mbbGatewayCanAdd (gw.writeLink gl') gl' false =
      (mbbGatewayReorderLink (gw.writeLink gl') gl').1 := by
  rw [← hlink] at hgl hids
  have hv := h.valid gl'.link
  obtain ⟨a, b, hq⟩ := queue_of_mem hgl
  rw [linksOf, hq, Option.getD_some] at hv hids
  obtain ⟨ha, hb, -⟩ := ids_mid hids
  rw [← hid] at ha hb
  have hq' : (gw.writeLink gl').queue gl'.link = some (a ++ gl' :: b) := by
    rw [writeLink, hq]
    simp only [map_write_mid hid (hid ▸ ha) (hid ▸ hb)]
    exact queue_setQueue hq
  have hfind : ¬ (a ++ gl' :: b).all (fun cur => decide (cur.id ≠ gl'.id)) = true := by
    intro hall
    exact absurd (List.all_eq_true.mp hall gl' (by simp)) (by simp)
  have hvalid : ∀ c ∈ a ++ b, c.Valid := fun c hc => hv c (by
    rcases List.mem_append.mp hc with hc | hc
    · exact List.mem_append_left _ hc
    · exact List.mem_append_right _ (List.mem_cons_of_mem _ hc))
  rw [mbbGatewayCanAdd, mbbGatewayReorderLink, hq']
  simp only [if_neg hfind, gwQueueCanAdd_mid rfl ha hb, gwQueueDelete_mid ha,
    gwQueueCanAdd_create hgl' hvalid]
  split
  · -- alone in its queue, the link is not asked about at all
    rename_i hlen
    have hnil : a ++ b = [] := by
      rw [List.length_append, List.length_cons] at hlen
      refine List.length_eq_zero_iff.mp ?_
      rw [List.length_append]
      omega
    rw [hnil]
    rfl
  · cases gwQueueInsertGl gl' (a ++ b) <;> rfl

/-- So `add_gwlink` does not make a row in vain. -/
theorem Office.addGwlink_ne_unpossible (s : Office) (e : Env) (addr : Option ℕ)
    (gwName : String) (link : ℕ) (opName : String) :
    (s.addGwlink e addr gwName link opName).1 ≠ some .unpossible := by
  rw [addGwlink]
  split
  · simp
  · split
    · simp
    · simp only
      split
      · simp
      · rename_i hcan
        split
        · simp
        · obtain ⟨queues, hadd⟩ := mbbGatewayAddLink_of_canAdd rfl ((Bool.not_eq_false _).mp hcan)
          simp [hadd]

/-- **The check decides.** `mbb_gateway_can_add` says of a new link whether it can be added, and
of a link in its queue, with other times, whether it can be reordered; and `add_gwlink` never
finds after the database that it cannot. -/
theorem can_add_decides :
    (∀ gw : MbbGateway, gw.Ordered → ∀ gl : MbbGwLink, gl.Valid →
      (mbbGatewayCanAdd gw gl true = true ↔ (mbbGatewayAddLink gw gl).1 = true)) ∧
    (∀ gw : MbbGateway, gw.Ordered → ∀ gl ∈ gw.linksOf gl.link,
      ((gw.linksOf gl.link).map MbbGwLink.id).Nodup → ∀ start stop,
        let gl' := { gl with start := start, stop := stop }
        gl'.Valid → (mbbGatewayCanAdd (gw.writeLink gl') gl' false = true ↔
          (mbbGatewayReorderLink (gw.writeLink gl') gl').1 = true)) ∧
    ∀ (s : Office) (e : Env) (addr : Option ℕ) (gwName : String) (link : ℕ)
      (opName : String), (s.addGwlink e addr gwName link opName).1 ≠ some .unpossible := by
  refine ⟨fun gw h gl hgl => ?_, ?_, Office.addGwlink_ne_unpossible⟩
  · rw [h.canAdd_create hgl]
  · intro gw h gl hmem hids start stop gl' hgl'
    rw [h.canAdd_again hmem (rfl : gl'.id = gl.id) rfl hgl' hids]

/-- A link that fits between the first two of three, and the second of them with times that do
not. -/
theorem can_add_decides_moved :
    (mbbGatewayAddLink threeLinks ⟨8, 3, 110, 120⟩).1 = true ∧
      ¬ (mbbGatewayReorderLink (threeLinks.writeLink ⟨6, 3, 50, 250⟩) ⟨6, 3, 50, 250⟩).1 = true :=
  ⟨(can_add_decides.1 threeLinks threeLinks_ordered ⟨8, 3, 110, 120⟩
      (by rw [MbbGwLink.Valid]; decide)).mp (by decide),
    (not_congr (can_add_decides.2.1 threeLinks threeLinks_ordered ⟨6, 3, 200, 300⟩ (by decide)
      (by decide) 50 250 (by rw [MbbGwLink.Valid]; decide))).mp (by decide)⟩

end Mbb
