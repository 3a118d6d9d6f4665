import Mbb.Command
import Mbb.Gateway

/-!
# The queues of a gateway in every run

Links of one interface never overlap in time, and each queue lists them in order. A link
whose times are to change is changed in its place, taken out and inserted again; if it
collides there, it is put back before its old neighbour and its times are changed back.
-/

namespace Mbb

/-! ## Commands -/

/-- A gateway and the links that are joined to it. -/
structure GwState : Type where
  /-- the gateway -/
  gw : MbbGateway
  /-- the links added and not deleted -/
  links : List MbbGwLink

/-- Changes of the links of a gateway. -/
inductive GwCmd : Type where
  /-- `mbb_gateway_add_link` of a new link -/
  | add (gl : MbbGwLink)
  /-- `gwlink_mod_time` -/
  | modTime (id start stop : Int)
  /-- `mbb_gateway_del_link` -/
  | del (id : Int)

namespace GwState

/-- `mbb_gwlink_get_by_id` -/
def linkById (s : GwState) (id : Int) : Option MbbGwLink :=
  s.links.find? fun gl => decide (gl.id = id)

/-- `mbb_gateway_add_link`, and `mbb_gwlink_join` when it succeeds. A link whose id is in
use is none of the new ones. -/
def addLink (s : GwState) (gl : MbbGwLink) : Option MbbMsg × GwState :=
  -- ids come from the database, which gives each out once
  if (s.linkById gl.id).isSome then (none, s)
  else
    match mbbGatewayAddLink s.gw gl with
    | (true, gw) => (none, ⟨gw, gl :: s.links⟩)
    | (false, gw) => (some .unpossible, { s with gw })

/-- `gwlink_mod_time` up to the call of the database. -/
def gwlinkModTime (s : GwState) (id start stop : Int) : Option MbbMsg × GwState :=
  match modTimeArgs start stop with
  | some msg => (some msg, s)
  | none =>
    match s.linkById id with
    | none => (some .unknownGwlink, s)
    | some gl =>
      let start := timeOr start gl.start
      let stop := timeOr stop gl.stop
      if mbbTimeBecmp start stop > 0 then (some .invalidTimeOrder, s)
      else
        match gwlinkSwapTime s.gw gl start stop with
        | (ok, gw, gl) =>
          -- after a collision the old times have been written back into the link
          (if ok then none else some .timeCollision,
            ⟨gw, s.links.map fun cur => if cur.id = gl.id then gl else cur⟩)

/-- `mbb_gwlink_remove` -/
def delLink (s : GwState) (id : Int) : Option MbbMsg × GwState :=
  match s.linkById id with
  | none => (some .unknownGwlink, s)
  | some gl =>
    (none, ⟨mbbGatewayDelLink s.gw gl, s.links.filter fun cur => decide (cur.id ≠ id)⟩)

/-- One command: the error it answers with, if any, and the state after it. -/
def exec (s : GwState) : GwCmd → Option MbbMsg × GwState
  | .add gl => s.addLink gl
  | .modTime id start stop => s.gwlinkModTime id start stop
  | .del id => s.delLink id

/-- A run. -/
def run (s : GwState) (cmds : List GwCmd) : GwState := cmds.foldl (fun s c => (s.exec c).2) s

end GwState

/-! ## Order

Times are compared by functions for which `0` is an open end, on one side or on the other. Here they
are turned into an order of links.
-/

/-- An interval as the commands admit it. -/
def MbbGwLink.Valid (gl : MbbGwLink) : Prop := mbbTimeBecmp gl.start gl.stop ≤ 0

/-- The one link ends, with an instant between, before the other begins. -/
def MbbGwLink.Before (a b : MbbGwLink) : Prop := a.stop ≠ 0 ∧ b.start ≠ 0 ∧ a.stop < b.start

/-- A begin comes after an end, which an open one never does. -/
theorem mbbTimeBecmp_pos {ta tb : Int} : mbbTimeBecmp ta tb > 0 ↔ tb ≠ 0 ∧ ta ≠ 0 ∧ tb < ta := by
  rw [mbbTimeBecmp, timecmp]
  split
  · omega
  · split
    · omega
    · split <;> omega

/-- An end comes before a begin. -/
theorem mbbTimeEbcmp_neg {ta tb : Int} : mbbTimeEbcmp ta tb < 0 ↔ ta ≠ 0 ∧ tb ≠ 0 ∧ ta < tb := by
  rw [mbbTimeEbcmp, timecmp]
  split
  · omega
  · split
    · omega
    · split <;> omega

/-- A begin comes no later than an end. -/
theorem mbbTimeBecmp_nonpos {ta tb : Int} :
    mbbTimeBecmp ta tb ≤ 0 ↔ ta = 0 ∨ tb = 0 ∨ ta ≤ tb := by
  rw [← not_iff_not, not_le]
  refine mbbTimeBecmp_pos.trans ?_
  omega

namespace MbbGwLink

/-- Links that lie one before the other, the middle one not being empty. -/
theorem Before.trans {a b c : MbbGwLink} (hb : b.Valid) (hab : a.Before b) (hbc : b.Before c) :
    a.Before c := by
  obtain ⟨ha, hb₀, hlt⟩ := hab
  obtain ⟨hb₁, hc, hlt'⟩ := hbc
  rw [Valid, mbbTimeBecmp_nonpos] at hb
  exact ⟨ha, hc, by omega⟩

/-- The test of the loop, as an order of links. -/
theorem becmp_pos_iff {gl cur : MbbGwLink} :
    mbbTimeBecmp gl.start cur.stop > 0 ↔ cur.Before gl := mbbTimeBecmp_pos

/-- The test for the neighbour, as an order of links. -/
theorem ebcmp_neg_iff {gl cur : MbbGwLink} :
    mbbTimeEbcmp gl.stop cur.start < 0 ↔ gl.Before cur := mbbTimeEbcmp_neg

end MbbGwLink

/-- Where `gw_queue_insert_gl` succeeds, the queue stays in order and has the link once
more. -/
theorem gwQueueInsertGl_spec {gl : MbbGwLink} {q q' : List MbbGwLink}
    (hv : ∀ cur ∈ q, cur.Valid) (hq : q.Pairwise MbbGwLink.Before)
    (h : gwQueueInsertGl gl q = some q') :
    q'.Pairwise MbbGwLink.Before ∧ q'.Perm (gl :: q) := by
  induction q generalizing q' with
  | nil =>
    obtain rfl := Option.some.inj h
    exact ⟨List.pairwise_singleton _ _, List.Perm.refl _⟩
  | cons cur rest ih =>
    obtain ⟨hcur, hrest⟩ := List.pairwise_cons.mp hq
    rw [gwQueueInsertGl] at h
    -- the loop passes the links before the new one, and stops at the first that is not
    by_cases hb : mbbTimeBecmp gl.start cur.stop > 0
    · rw [if_pos hb] at h
      obtain ⟨r, hr, rfl⟩ := Option.map_eq_some_iff.mp h
      obtain ⟨hp, hperm⟩ := ih (fun c hc => hv c (List.mem_cons_of_mem _ hc)) hrest hr
      refine ⟨List.pairwise_cons.mpr ⟨fun c hc => ?_, hp⟩,
        (hperm.cons cur).trans (List.Perm.swap _ _ _)⟩
      rcases List.mem_cons.mp (hperm.mem_iff.mp hc) with rfl | hc
      · exact MbbGwLink.becmp_pos_iff.mp hb
      · exact hcur c hc
    · rw [if_neg hb] at h
      by_cases he : mbbTimeEbcmp gl.stop cur.start < 0
      · rw [if_pos he] at h
        obtain rfl := Option.some.inj h
        have hglcur := MbbGwLink.ebcmp_neg_iff.mp he
        refine ⟨List.pairwise_cons.mpr ⟨fun c hc => ?_, hq⟩, List.Perm.refl _⟩
        rcases List.mem_cons.mp hc with rfl | hc
        · exact hglcur
        · exact hglcur.trans (hv cur List.mem_cons_self) (hcur c hc)
      · rw [if_neg he] at h
        cases h

/-- Two valid intervals are before each other in one direction only. -/
theorem MbbGwLink.Before.asymm {a b : MbbGwLink} (ha : a.Valid) (hb : b.Valid)
    (hab : a.Before b) : ¬ b.Before a := by
  obtain ⟨ha₁, hb₀, hlt⟩ := hab
  rw [Valid, mbbTimeBecmp_nonpos] at ha hb
  rintro ⟨hb₁, ha₀, hlt'⟩
  omega

/-- A link that has been taken out of a queue in order is put in again where it was. -/
theorem gwQueueInsertGl_mid {gl : MbbGwLink} {a b : List MbbGwLink} (hgl : gl.Valid)
    (hb : ∀ c ∈ b, c.Valid) (hp : (a ++ gl :: b).Pairwise MbbGwLink.Before) :
    gwQueueInsertGl gl (a ++ b) = some (a ++ gl :: b) := by
  induction a with
  | nil =>
    cases b with
    | nil => rfl
    | cons d b =>
      have hd : gl.Before d := (List.pairwise_cons.mp hp).1 d List.mem_cons_self
      have hnot : ¬ mbbTimeBecmp gl.start d.stop > 0 := fun h =>
        hd.asymm hgl (hb d List.mem_cons_self) (MbbGwLink.becmp_pos_iff.mp h)
      rw [List.nil_append, gwQueueInsertGl, if_neg hnot, if_pos (MbbGwLink.ebcmp_neg_iff.mpr hd)]
      rfl
  | cons c a ih =>
    obtain ⟨hc, hp⟩ := List.pairwise_cons.mp hp
    have hlt : c.Before gl := hc gl (List.mem_append_right a List.mem_cons_self)
    rw [List.cons_append, gwQueueInsertGl, if_pos (MbbGwLink.becmp_pos_iff.mpr hlt), ih hp]
    rfl

/-! ## One link in its queue

A queue is a list split at the link that is looked at. Insertion, removal and the way back to the
old place are said for this form.
-/

section Place

variable {gl : MbbGwLink} {a b : List MbbGwLink}

/-- A link is taken out where it stands. -/
theorem gwQueueDelete_mid (ha : ∀ c ∈ a, c.id ≠ gl.id) :
    gwQueueDelete gl.id (a ++ gl :: b) = a ++ b := by
  rw [gwQueueDelete, List.eraseP_append_right _ fun c hc => by simpa using ha c hc,
    List.eraseP_cons_of_pos (by simp)]

/-- The neighbour of a link. -/
theorem gwQueueNext_mid (ha : ∀ c ∈ a, c.id ≠ gl.id) :
    gwQueueNext gl.id (a ++ gl :: b) = b.head? := by
  induction a with
  | nil => rw [List.nil_append, gwQueueNext, if_pos rfl]
  | cons c a ih =>
    rw [List.cons_append, gwQueueNext, if_neg (ha c List.mem_cons_self)]
    exact ih fun c' h => ha c' (List.mem_cons_of_mem _ h)

/-- The saved neighbour is where the link was. -/
theorem gwQueuePutBack_mid (hab : ∀ c ∈ a, ∀ d ∈ b, c.id ≠ d.id) :
    gwQueuePutBack gl b.head? (a ++ b) = a ++ gl :: b := by
  cases b with
  | nil => rw [List.head?_nil, List.append_nil, gwQueuePutBack]
  | cons d b =>
    rw [List.head?_cons]
    induction a with
    | nil => rw [List.nil_append, gwQueuePutBack, if_pos rfl, List.nil_append]
    | cons c a ih =>
      rw [List.cons_append, gwQueuePutBack,
        if_neg (hab c List.mem_cons_self d List.mem_cons_self),
        ih fun c' h => hab c' (List.mem_cons_of_mem _ h)]
      rfl

/-- Writing the object of one link. -/
theorem map_write_mid {gl' : MbbGwLink} (hid : gl'.id = gl.id) (ha : ∀ c ∈ a, c.id ≠ gl.id)
    (hb : ∀ c ∈ b, c.id ≠ gl.id) :
    ((a ++ gl :: b).map fun cur => if cur.id = gl'.id then gl' else cur) = a ++ gl' :: b := by
  have hkeep : ∀ l : List MbbGwLink, (∀ c ∈ l, c.id ≠ gl.id) →
      (l.map fun cur => if cur.id = gl'.id then gl' else cur) = l := by
    intro l hl
    refine (List.map_congr_left fun c hc => ?_).trans (List.map_id l)
    rw [hid, if_neg (hl c hc), id]
  rw [List.map_append, List.map_cons, hkeep a ha, hkeep b hb, if_pos hid.symm]

end Place

/-! ## One queue in its table

The table has a queue for each interface. It is split at the queue that is looked at, and the rest
is never touched.
-/

section Table

variable {gw : MbbGateway} {l₁ l₂ : List (ℕ × List MbbGwLink)} {link : ℕ} {q : List MbbGwLink}

/-- A queue of a table divides it, when no two queues are of one interface. -/
theorem lookup_split {t : List (ℕ × List MbbGwLink)} (h : t.lookup link = some q) :
    ∃ l₁ l₂, t = l₁ ++ (link, q) :: l₂ ∧ link ∉ l₁.map Prod.fst := by
  induction t with
  | nil => cases h
  | cons e t ih =>
    obtain ⟨k, r⟩ := e
    rw [List.lookup_cons] at h
    by_cases hk : link = k
    · subst hk
      rw [beq_self_eq_true] at h
      obtain rfl : r = q := by simpa using h
      exact ⟨[], t, rfl, List.not_mem_nil⟩
    · rw [beq_eq_false_iff_ne.mpr hk] at h
      obtain ⟨l₁, l₂, rfl, hnot⟩ := ih h
      refine ⟨(k, r) :: l₁, l₂, rfl, ?_⟩
      rw [List.map_cons, List.mem_cons, not_or]
      exact ⟨hk, hnot⟩

/-- The queue of an interface is found behind those of others. -/
theorem lookup_mid (h₁ : link ∉ l₁.map Prod.fst) :
    (l₁ ++ (link, q) :: l₂).lookup link = some q := by
  induction l₁ with
  | nil => simp
  | cons e l₁ ih =>
    rw [List.map_cons, List.mem_cons, not_or] at h₁
    rw [List.cons_append, List.lookup_cons, beq_eq_false_iff_ne.mpr h₁.1]
    exact ih h₁.2

/-- Where no queue is found there is none. -/
theorem lookup_eq_none {t : List (ℕ × List MbbGwLink)} (h : t.lookup link = none) :
    link ∉ t.map Prod.fst := by
  induction t with
  | nil => exact List.not_mem_nil
  | cons e t ih =>
    rw [List.lookup_cons] at h
    by_cases hk : link = e.1
    · rw [hk, beq_self_eq_true] at h
      cases h
    · rw [beq_eq_false_iff_ne.mpr hk] at h
      rw [List.map_cons, List.mem_cons, not_or]
      exact ⟨hk, ih h⟩

/-- The gateway has this table, with the queue of the interface in its place. -/
structure AtQueue (gw : MbbGateway) (l₁ l₂ : List (ℕ × List MbbGwLink)) (link : ℕ)
    (q : List MbbGwLink) : Prop where
  /-- the table -/
  ht : gw.ht = some (l₁ ++ (link, q) :: l₂)
  /-- no queue of the interface before -/
  left : link ∉ l₁.map Prod.fst
  /-- nor after -/
  right : link ∉ l₂.map Prod.fst

/-- The queue that is found. -/
theorem AtQueue.queue (h : AtQueue gw l₁ l₂ link q) : gw.queue link = some q := by
  rw [MbbGateway.queue, h.ht, Option.bind_some, lookup_mid h.left]

/-- The table after its queue was replaced. -/
theorem AtQueue.setQueue_eq (h : AtQueue gw l₁ l₂ link q) (q' : List MbbGwLink) :
    gw.setQueue link q' = { gw with ht := some (l₁ ++ (link, q') :: l₂) } := by
  have hkeep : ∀ l : List (ℕ × List MbbGwLink), link ∉ l.map Prod.fst →
      (l.map fun e => if e.1 = link then (link, q') else e) = l := by
    intro l hl
    refine (List.map_congr_left fun e he => ?_).trans (List.map_id l)
    rw [if_neg fun hk => hl (List.mem_map.mpr ⟨e, he, hk⟩), id]
  rw [MbbGateway.setQueue, h.ht, Option.map_some, List.map_append, List.map_cons,
    hkeep l₁ h.left, hkeep l₂ h.right, if_pos rfl]

/-- The new queue stands where the old one did. -/
theorem AtQueue.setQueue (h : AtQueue gw l₁ l₂ link q) (q' : List MbbGwLink) :
    AtQueue (gw.setQueue link q') l₁ l₂ link q' := by
  rw [h.setQueue_eq]
  exact ⟨rfl, h.left, h.right⟩

/-- To put the same queue there changes nothing. -/
theorem AtQueue.setQueue_self (h : AtQueue gw l₁ l₂ link q) : gw.setQueue link q = gw := by
  rw [h.setQueue_eq]
  obtain ⟨id, addr, ht⟩ := gw
  obtain rfl : ht = _ := h.ht
  rfl

/-- Of two replacements the second one counts. -/
theorem AtQueue.setQueue_setQueue (h : AtQueue gw l₁ l₂ link q) (q' q'' : List MbbGwLink) :
    (gw.setQueue link q').setQueue link q'' = gw.setQueue link q'' := by
  rw [(h.setQueue q').setQueue_eq, h.setQueue_eq, h.setQueue_eq]

/-- The queues of other interfaces. -/
theorem AtQueue.filter_ne (h : AtQueue gw l₁ l₂ link q) :
    (l₁ ++ (link, q) :: l₂).filter (fun e => decide (e.1 ≠ link)) = l₁ ++ l₂ := by
  have hkeep : ∀ l : List (ℕ × List MbbGwLink), link ∉ l.map Prod.fst →
      l.filter (fun e => decide (e.1 ≠ link)) = l := by
    intro l hl
    refine List.filter_eq_self.mpr fun e he => decide_eq_true fun hk => ?_
    exact hl (List.mem_map.mpr ⟨e, he, hk⟩)
  rw [List.filter_append, List.filter_cons, hkeep l₁ h.left, hkeep l₂ h.right,
    if_neg (by simp)]

end Table

/-! ## The link is taken out and put in again

`mod_time` changes a link in place and then reorders its queue. If the link collides at its new
place it is put back before its old neighbour, and its times are changed back.
-/

section Swap

variable {gw : MbbGateway} {l₁ l₂ : List (ℕ × List MbbGwLink)} {gl : MbbGwLink}
  {a b : List MbbGwLink}

/-- The ids of a queue, seen from one of its links. -/
theorem ids_mid (hnd : ((a ++ gl :: b).map MbbGwLink.id).Nodup) :
    (∀ c ∈ a, c.id ≠ gl.id) ∧ (∀ c ∈ b, c.id ≠ gl.id) ∧ ∀ c ∈ a, ∀ d ∈ b, c.id ≠ d.id := by
  rw [List.map_append] at hnd
  obtain ⟨-, hndb, hdis⟩ := List.nodup_append.mp hnd
  rw [List.map_cons, List.nodup_cons] at hndb
  refine ⟨fun c hc => ?_, fun c hc heq => ?_, fun c hc d hd => ?_⟩
  · exact hdis c.id (List.mem_map_of_mem hc) gl.id (by simp)
  · exact hndb.1 (heq ▸ List.mem_map_of_mem hc)
  · exact hdis c.id (List.mem_map_of_mem hc) d.id (by simp [hd, List.mem_map_of_mem])

/-- A link that is written to is changed in its queue. -/
theorem AtQueue.writeLink (h : AtQueue gw l₁ l₂ gl.link (a ++ gl :: b))
    (hnd : ((a ++ gl :: b).map MbbGwLink.id).Nodup) {gl' : MbbGwLink} (hid : gl'.id = gl.id)
    (hlink : gl'.link = gl.link) :
    gw.writeLink gl' = gw.setQueue gl.link (a ++ gl' :: b) := by
  obtain ⟨ha, hb, -⟩ := ids_mid hnd
  rw [MbbGateway.writeLink, hlink, h.queue]
  simp only [map_write_mid hid ha hb]

/-- A link is reordered in its queue, or nothing changes. -/
theorem mbbGatewayReorderLink_spec (h : AtQueue gw l₁ l₂ gl.link (a ++ gl :: b))
    (hnd : ((a ++ gl :: b).map MbbGwLink.id).Nodup) (hv : ∀ c ∈ a ++ b, c.Valid)
    (hp : (a ++ b).Pairwise MbbGwLink.Before) :
    (∃ q, mbbGatewayReorderLink gw gl = (true, gw.setQueue gl.link q) ∧
      q.Perm (gl :: (a ++ b)) ∧ q.Pairwise MbbGwLink.Before) ∨
    mbbGatewayReorderLink gw gl = (false, gw) := by
  obtain ⟨ha, hb, hab⟩ := ids_mid hnd
  have hfind : ¬ (a ++ gl :: b).all (fun cur => decide (cur.id ≠ gl.id)) = true := by
    intro hall
    exact absurd (List.all_eq_true.mp hall gl (by simp)) (by simp)
  have hsame := h.setQueue_self
  simp only [mbbGatewayReorderLink, h.queue, if_neg hfind, gwQueueDelete_mid ha,
    gwQueueNext_mid ha]
  by_cases hlen : (a ++ gl :: b).length = 1
  · rw [if_pos hlen]
    -- alone in its queue, the link stays without a test
    have hnil : a = [] ∧ b = [] := by
      rw [List.length_append, List.length_cons] at hlen
      exact ⟨List.length_eq_zero_iff.mp (by omega), List.length_eq_zero_iff.mp (by omega)⟩
    obtain ⟨rfl, rfl⟩ := hnil
    exact Or.inl ⟨[gl], by rw [List.nil_append] at hsame; rw [hsame], List.Perm.refl _,
      List.pairwise_singleton _ _⟩
  · rw [if_neg hlen]
    cases hins : gwQueueInsertGl gl (a ++ b) with
    | some q =>
      obtain ⟨hq, hperm⟩ := gwQueueInsertGl_spec hv hp hins
      exact Or.inl ⟨q, rfl, hperm, hq⟩
    -- put back next to the saved neighbour, the link is where it was
    | none =>
      simp only [gwQueuePutBack_mid hab, hsame]
      exact Or.inr trivial

/-- What a change of times makes of a gateway: the link is in its queue with its new
times, or nothing has changed. -/
theorem gwlinkSwapTime_spec (h : AtQueue gw l₁ l₂ gl.link (a ++ gl :: b))
    (hnd : ((a ++ gl :: b).map MbbGwLink.id).Nodup) (hv : ∀ c ∈ a ++ b, c.Valid)
    (hp : (a ++ b).Pairwise MbbGwLink.Before) (start stop : Int) :
    (∃ q, gwlinkSwapTime gw gl start stop =
        (true, gw.setQueue gl.link q, { gl with start := start, stop := stop }) ∧
      q.Perm ({ gl with start := start, stop := stop } :: (a ++ b)) ∧
      q.Pairwise MbbGwLink.Before) ∨
    gwlinkSwapTime gw gl start stop = (false, gw, gl) := by
  let gl' : MbbGwLink := { gl with start := start, stop := stop }
  have hnd' : ((a ++ gl' :: b).map MbbGwLink.id).Nodup := by
    rw [List.map_append, List.map_cons] at hnd ⊢
    exact hnd
  have hw : gw.writeLink gl' = gw.setQueue gl.link (a ++ gl' :: b) := h.writeLink hnd rfl rfl
  have h' : AtQueue (gw.writeLink gl') l₁ l₂ gl'.link (a ++ gl' :: b) := by
    rw [hw]
    exact h.setQueue _
  rcases mbbGatewayReorderLink_spec h' hnd' hv hp with ⟨q, hre, hperm, hq⟩ | hre
  · refine Or.inl ⟨q, ?_, hperm, hq⟩
    have hset : (gw.writeLink gl').setQueue gl.link q = gw.setQueue gl.link q := by
      rw [hw, h.setQueue_setQueue]
    simp only [gwlinkSwapTime]
    rw [hre]
    simp only [gl', hset]
  · refine Or.inr ?_
    -- the times are swapped back in an object that is in the queue again
    have hback : (gw.writeLink gl').writeLink gl = gw := by
      have hw' : (gw.writeLink gl').writeLink gl =
          (gw.writeLink gl').setQueue gl.link (a ++ gl :: b) := h'.writeLink hnd' rfl rfl
      rw [hw', hw, h.setQueue_setQueue, h.setQueue_self]
    simp only [gwlinkSwapTime]
    rw [hre]
    simp only [gl', hback]

/-- With the times it has, a link stays where it is. -/
theorem gwlinkSwapTime_self (h : AtQueue gw l₁ l₂ gl.link (a ++ gl :: b))
    (hnd : ((a ++ gl :: b).map MbbGwLink.id).Nodup) (hgl : gl.Valid) (hb : ∀ c ∈ b, c.Valid)
    (hp : (a ++ gl :: b).Pairwise MbbGwLink.Before) :
    gwlinkSwapTime gw gl gl.start gl.stop = (true, gw, gl) := by
  obtain ⟨ha, -, -⟩ := ids_mid hnd
  have hwrite : gw.writeLink gl = gw := by
    rw [h.writeLink hnd rfl rfl, h.setQueue_self]
  have hfind : ¬ (a ++ gl :: b).all (fun cur => decide (cur.id ≠ gl.id)) = true := by
    intro hall
    exact absurd (List.all_eq_true.mp hall gl (by simp)) (by simp)
  have hreorder : mbbGatewayReorderLink gw gl = (true, gw) := by
    simp only [mbbGatewayReorderLink, h.queue, if_neg hfind, gwQueueDelete_mid ha,
      gwQueueInsertGl_mid hgl hb hp, h.setQueue_self, ite_self]
  simp only [gwlinkSwapTime]
  rw [hwrite, hreorder]

end Swap

/-! ## The invariant

The table and the list of links have the same links; each queue is in order and without overlaps;
ids are distinct.
-/

/-- The queues by interface. -/
def MbbGateway.table (gw : MbbGateway) : List (ℕ × List MbbGwLink) := gw.ht.getD []

/-- The links in the queues. -/
def MbbGateway.allLinks (gw : MbbGateway) : List MbbGwLink := gw.table.flatMap Prod.snd

/-- A queue of the interface `link`. -/
structure QueueOk (link : ℕ) (q : List MbbGwLink) : Prop where
  /-- not empty -/
  ne_nil : q ≠ []
  /-- in order, without overlaps -/
  order : q.Pairwise MbbGwLink.Before
  /-- of the interface -/
  own : ∀ gl ∈ q, gl.link = link

/-- What holds of a gateway in every state. -/
structure GwState.Inv (s : GwState) : Prop where
  /-- the table is there as long as it has queues -/
  table : s.gw.ht ≠ some []
  /-- one queue for an interface -/
  keys : (s.gw.table.map Prod.fst).Nodup
  /-- each queue -/
  queue : ∀ e ∈ s.gw.table, QueueOk e.1 e.2
  /-- intervals -/
  valid : ∀ gl ∈ s.links, gl.Valid
  /-- one link for an id -/
  ids : (s.links.map MbbGwLink.id).Nodup
  /-- each link once in all queues together -/
  once : s.gw.allLinks.Perm s.links

namespace GwState

variable {s : GwState}

/-- A table with queues in it has been made. -/
theorem ht_eq_some {gw : MbbGateway} {t : List (ℕ × List MbbGwLink)} (h : gw.table = t)
    (hne : t ≠ []) : gw.ht = some t := by
  rw [MbbGateway.table] at h
  cases hht : gw.ht with
  | none =>
    rw [hht] at h
    exact absurd h.symm hne
  | some t' =>
    rw [hht] at h
    rw [← h]
    rfl

/-- The table, split at the queue of an interface. -/
theorem AtQueue.table {gw : MbbGateway} {l₁ l₂ : List (ℕ × List MbbGwLink)} {link : ℕ}
    {q : List MbbGwLink} (h : AtQueue gw l₁ l₂ link q) : gw.table = l₁ ++ (link, q) :: l₂ := by
  rw [MbbGateway.table, h.ht]
  rfl

/-- Where a link is. -/
theorem Inv.atQueue (h : s.Inv) {gl : MbbGwLink} (hgl : gl ∈ s.links) :
    ∃ l₁ l₂ a b, AtQueue s.gw l₁ l₂ gl.link (a ++ gl :: b) := by
  obtain ⟨e, he, hmem⟩ := List.mem_flatMap.mp (h.once.mem_iff.mpr hgl)
  have hlink := (h.queue e he).own gl hmem
  obtain ⟨l₁, l₂, ht⟩ := List.append_of_mem he
  obtain ⟨a, b, hq⟩ := List.append_of_mem hmem
  have hkeys := h.keys
  rw [ht, List.map_append, List.map_cons] at hkeys
  obtain ⟨-, hnd₂, hdis⟩ := List.nodup_append.mp hkeys
  refine ⟨l₁, l₂, a, b, ?_, fun hm => ?_, fun hm => ?_⟩
  · rw [← hq, hlink]
    exact ht_eq_some ht (by simp)
  · exact hdis _ hm _ List.mem_cons_self hlink
  · exact (List.nodup_cons.mp hnd₂).1 (hlink ▸ hm)

/-- A change to one queue. -/
theorem Inv.ofQueue (h : s.Inv) {l₁ l₂ : List (ℕ × List MbbGwLink)} {link : ℕ}
    {q : List MbbGwLink} (hat : AtQueue s.gw l₁ l₂ link q) {q' links' : List MbbGwLink}
    (hq' : QueueOk link q') (hvalid : ∀ gl ∈ links', gl.Valid)
    (hids : (links'.map MbbGwLink.id).Nodup)
    (honce : (l₁.flatMap Prod.snd ++ (q' ++ l₂.flatMap Prod.snd)).Perm links') :
    Inv ⟨s.gw.setQueue link q', links'⟩ := by
  have hat' := hat.setQueue q'
  have ht := AtQueue.table hat
  have ht' := AtQueue.table hat'
  constructor
  · rw [hat'.ht]
    simp
  · have hkeys := h.keys
    rw [ht] at hkeys
    rw [ht']
    simpa using hkeys
  -- the other queues are those of before
  · intro e he
    rw [ht'] at he
    rcases List.mem_append.mp he with he | he
    · exact h.queue e (by rw [ht]; exact List.mem_append_left _ he)
    · rcases List.mem_cons.mp he with rfl | he
      · exact hq'
      · exact h.queue e (by rw [ht]; exact List.mem_append_right _ (List.mem_cons_of_mem _ he))
  · exact hvalid
  · exact hids
  · rw [MbbGateway.allLinks, ht', List.flatMap_append, List.flatMap_cons]
    exact honce

/-- A link that is found by its id is there. -/
theorem mem_of_linkById {id : Int} {gl : MbbGwLink} (h : s.linkById id = some gl) :
    gl ∈ s.links ∧ gl.id = id := by
  rw [linkById] at h
  exact ⟨List.mem_of_find?_eq_some h, by simpa using List.find?_some h⟩

/-- An id that is not found is that of no link. -/
theorem linkById_eq_none {id : Int} (h : ¬ (s.linkById id).isSome = true) :
    ∀ gl ∈ s.links, gl.id ≠ id := by
  rw [Option.isSome_iff_ne_none, not_not] at h
  exact fun gl hgl heq => absurd (decide_eq_true heq) (List.find?_eq_none.mp h gl hgl)

/-- The links of a gateway are those of one queue and those of the others. -/
theorem Inv.perm_split (h : s.Inv) {l₁ l₂ : List (ℕ × List MbbGwLink)} {link : ℕ}
    {q : List MbbGwLink} (hat : AtQueue s.gw l₁ l₂ link q) :
    (l₁.flatMap Prod.snd ++ (q ++ l₂.flatMap Prod.snd)).Perm s.links := by
  have honce := h.once
  rwa [MbbGateway.allLinks, AtQueue.table hat, List.flatMap_append, List.flatMap_cons] at honce

/-- A queue is in order and has links of its interface. -/
theorem Inv.queueOk (h : s.Inv) {l₁ l₂ : List (ℕ × List MbbGwLink)} {link : ℕ}
    {q : List MbbGwLink} (hat : AtQueue s.gw l₁ l₂ link q) : QueueOk link q :=
  h.queue (link, q) (by rw [AtQueue.table hat]; simp)

/-- A link in a queue is a link of the gateway. -/
theorem Inv.mem_of_queue (h : s.Inv) {l₁ l₂ : List (ℕ × List MbbGwLink)} {link : ℕ}
    {q : List MbbGwLink} (hat : AtQueue s.gw l₁ l₂ link q) {gl : MbbGwLink} (hgl : gl ∈ q) :
    gl ∈ s.links := (h.perm_split hat).mem_iff.mp (by simp [hgl])

/-! ## Each command

What a command does to the invariant, and that a command that fails changes nothing.
-/

section Add

variable {gl : MbbGwLink}

/-- A link with a new id makes no id appear twice. -/
theorem nodup_ids_cons (h : s.Inv) (hfresh : ∀ c ∈ s.links, c.id ≠ gl.id) :
    ((gl :: s.links).map MbbGwLink.id).Nodup := by
  rw [List.map_cons, List.nodup_cons]
  refine ⟨fun hm => ?_, h.ids⟩
  obtain ⟨c, hc, heq⟩ := List.mem_map.mp hm
  exact hfresh c hc heq

/-- The first link of an interface. -/
theorem Inv.addQueue (h : s.Inv) (hgl : gl.Valid) (hfresh : ∀ c ∈ s.links, c.id ≠ gl.id)
    (hlk : s.gw.table.lookup gl.link = none) :
    Inv ⟨{ s.gw with ht := some ((gl.link, [gl]) :: s.gw.table) }, gl :: s.links⟩ := by
  constructor
  · simp
  · exact List.nodup_cons.mpr ⟨lookup_eq_none hlk, h.keys⟩
  · intro e he
    rcases List.mem_cons.mp he with rfl | he
    · refine ⟨by simp, List.pairwise_singleton _ _, fun c hc => ?_⟩
      rw [List.mem_singleton.mp hc]
    · exact h.queue e he
  · exact List.forall_mem_cons.mpr ⟨hgl, h.valid⟩
  · exact nodup_ids_cons h hfresh
  · exact h.once.cons gl

/-- Another link of an interface. -/
theorem Inv.insertLink (h : s.Inv) (hgl : gl.Valid) (hfresh : ∀ c ∈ s.links, c.id ≠ gl.id)
    {l₁ l₂ : List (ℕ × List MbbGwLink)} {q q' : List MbbGwLink}
    (hat : AtQueue s.gw l₁ l₂ gl.link q) (hins : gwQueueInsertGl gl q = some q') :
    Inv ⟨s.gw.setQueue gl.link q', gl :: s.links⟩ := by
  have hok := h.queueOk hat
  obtain ⟨hp, hperm⟩ := gwQueueInsertGl_spec
    (fun c hc => h.valid c (h.mem_of_queue hat hc)) hok.order hins
  have hne : q' ≠ [] := fun hnil => by simp [hnil] at hperm
  have hown : ∀ c ∈ q', c.link = gl.link := by
    intro c hc
    rcases List.mem_cons.mp (hperm.mem_iff.mp hc) with rfl | hc
    · rfl
    · exact hok.own c hc
  refine h.ofQueue hat ⟨hne, hp, hown⟩ (List.forall_mem_cons.mpr ⟨hgl, h.valid⟩)
    (nodup_ids_cons h hfresh) ?_
  exact ((hperm.append_right _).append_left _).trans
    (List.perm_middle.trans ((h.perm_split hat).cons gl))

/-- The table is split at a queue that is found. -/
theorem Inv.atQueue_of_lookup (h : s.Inv) {link : ℕ} {q : List MbbGwLink}
    (hlk : s.gw.table.lookup link = some q) : ∃ l₁ l₂, AtQueue s.gw l₁ l₂ link q := by
  obtain ⟨l₁, l₂, ht, hleft⟩ := lookup_split hlk
  refine ⟨l₁, l₂, ht_eq_some ht (by simp), hleft, fun hm => ?_⟩
  have hkeys := h.keys
  rw [ht, List.map_append, List.map_cons] at hkeys
  exact (List.nodup_cons.mp (List.nodup_append.mp hkeys).2.1).1 hm

/-- A command fails and changes nothing, or succeeds and keeps the invariant. -/
def Sound (s : GwState) (r : Option MbbMsg × GwState) : Prop :=
  (∃ msg, r = (some msg, s)) ∨ ∃ s', r = (none, s') ∧ s'.Inv

/-- **A link is added**, to the queue of its interface or to a new one, or is refused. -/
theorem Inv.addLink (h : s.Inv) (hgl : gl.Valid) : s.Sound (s.addLink gl) := by
  rw [GwState.addLink]
  by_cases hid : (s.linkById gl.id).isSome = true
  · rw [if_pos hid]
    exact Or.inr ⟨s, rfl, h⟩
  · have hfresh := linkById_eq_none hid
    rw [if_neg hid, mbbGatewayAddLink]
    cases hht : s.gw.ht with
    | none =>
      have htab : s.gw.table = [] := by rw [MbbGateway.table, hht]; rfl
      have hadd := h.addQueue hgl hfresh (by rw [htab]; rfl)
      rw [htab] at hadd
      exact Or.inr ⟨_, rfl, hadd⟩
    | some ht =>
      have htab : s.gw.table = ht := by rw [MbbGateway.table, hht]; rfl
      cases hlk : ht.lookup gl.link with
      | none =>
        have hadd := h.addQueue hgl hfresh (by rw [htab, hlk])
        rw [htab] at hadd
        simp only [hlk]
        exact Or.inr ⟨_, rfl, hadd⟩
      | some q =>
        obtain ⟨l₁, l₂, hat⟩ := h.atQueue_of_lookup (by rw [htab, hlk])
        cases hins : gwQueueInsertGl gl q with
        | none =>
          simp only [hlk, hins]
          exact Or.inl ⟨_, rfl⟩
        | some q' =>
          simp only [hlk, hins]
          exact Or.inr ⟨_, rfl, h.insertLink hgl hfresh hat hins⟩

end Add

section Change

variable {gl : MbbGwLink} {l₁ l₂ : List (ℕ × List MbbGwLink)} {a b : List MbbGwLink}

/-- In a queue no id appears twice. -/
theorem Inv.nodup_queue (h : s.Inv) {link : ℕ} {q : List MbbGwLink}
    (hat : AtQueue s.gw l₁ l₂ link q) : (q.map MbbGwLink.id).Nodup := by
  have hall := ((h.perm_split hat).map MbbGwLink.id).nodup_iff.mpr h.ids
  rw [List.map_append, List.map_append] at hall
  exact (List.nodup_append.mp (List.nodup_append.mp hall).2.1).1

/-- The other links, as the list of links has them. -/
theorem Inv.perm_others (h : s.Inv) (hat : AtQueue s.gw l₁ l₂ gl.link (a ++ gl :: b)) :
    (gl :: (l₁.flatMap Prod.snd ++ ((a ++ b) ++ l₂.flatMap Prod.snd))).Perm s.links := by
  refine List.Perm.trans ?_ (h.perm_split hat)
  refine List.perm_middle.symm.trans (List.Perm.append_left _ ?_)
  exact (List.perm_middle.append_right _).symm

/-- No other link has the id. -/
theorem Inv.others_id (h : s.Inv) (hat : AtQueue s.gw l₁ l₂ gl.link (a ++ gl :: b)) :
    ∀ c ∈ l₁.flatMap Prod.snd ++ ((a ++ b) ++ l₂.flatMap Prod.snd), c.id ≠ gl.id := by
  have hall := ((h.perm_others hat).map MbbGwLink.id).nodup_iff.mpr h.ids
  rw [List.map_cons, List.nodup_cons] at hall
  exact fun c hc heq => hall.1 (List.mem_map.mpr ⟨c, hc, heq⟩)

/-- To write to a link changes no list that it is not in. -/
theorem map_write_of_ne {gl' : MbbGwLink} {l : List MbbGwLink} (hl : ∀ c ∈ l, c.id ≠ gl'.id) :
    (l.map fun cur => if cur.id = gl'.id then gl' else cur) = l := by
  refine (List.map_congr_left fun c hc => ?_).trans (List.map_id l)
  rw [if_neg (hl c hc), id]

/-- To write what is there changes nothing. -/
theorem map_write_self (h : s.Inv) (hgl : gl ∈ s.links) :
    (s.links.map fun cur => if cur.id = gl.id then gl else cur) = s.links := by
  refine (List.map_congr_left fun c hc => ?_).trans (List.map_id _)
  by_cases hid : c.id = gl.id
  · rw [if_pos hid, id]
    exact (List.inj_on_of_nodup_map h.ids hc hgl hid).symm
  · rw [if_neg hid, id]

/-- A change of times that succeeds. -/
theorem Inv.retime (h : s.Inv) (hat : AtQueue s.gw l₁ l₂ gl.link (a ++ gl :: b))
    {gl' : MbbGwLink} (hid : gl'.id = gl.id) (hlink : gl'.link = gl.link) (hv : gl'.Valid)
    {q : List MbbGwLink} (hq : q.Pairwise MbbGwLink.Before) (hperm : q.Perm (gl' :: (a ++ b))) :
    Inv ⟨s.gw.setQueue gl.link q,
      s.links.map fun cur => if cur.id = gl'.id then gl' else cur⟩ := by
  have hne : q ≠ [] := fun hnil => by simp [hnil] at hperm
  have hown : ∀ c ∈ q, c.link = gl.link := by
    intro c hc
    rcases List.mem_cons.mp (hperm.mem_iff.mp hc) with rfl | hc
    · exact hlink
    · refine (h.queueOk hat).own c ?_
      rcases List.mem_append.mp hc with hc | hc <;> simp [hc]
  -- ids tell links apart, so that the times of no other link are written
  have hlinks := (h.perm_others hat).map fun cur => if cur.id = gl'.id then gl' else cur
  rw [List.map_cons, if_pos hid.symm,
    map_write_of_ne fun c hc => by rw [hid]; exact h.others_id hat c hc] at hlinks
  refine h.ofQueue hat ⟨hne, hq, hown⟩ (fun c hc => ?_) ?_ ?_
  · rcases List.mem_cons.mp (hlinks.mem_iff.mpr hc) with rfl | hc
    · exact hv
    · exact h.valid c ((h.perm_others hat).mem_iff.mp (List.mem_cons_of_mem _ hc))
  · have hids : (s.links.map fun cur => if cur.id = gl'.id then gl' else cur).map MbbGwLink.id =
        s.links.map MbbGwLink.id := by
      rw [List.map_map]
      refine List.map_congr_left fun c _ => ?_
      by_cases hc : c.id = gl'.id
      · rw [Function.comp_apply, if_pos hc, hc]
      · rw [Function.comp_apply, if_neg hc]
    rw [hids]
    exact h.ids
  · refine List.Perm.trans ((hperm.append_right _).append_left _) ?_
    exact List.perm_middle.trans hlinks

/-- A change of times with the outcome that it reports. -/
theorem Inv.swapTime (h : s.Inv) (hgl : gl ∈ s.links) {start stop : Int}
    (hv : mbbTimeBecmp start stop ≤ 0) :
    (∃ gw gl', gwlinkSwapTime s.gw gl start stop = (true, gw, gl') ∧
      Inv ⟨gw, s.links.map fun cur => if cur.id = gl'.id then gl' else cur⟩) ∨
    gwlinkSwapTime s.gw gl start stop = (false, s.gw, gl) := by
  obtain ⟨l₁, l₂, a, b, hat⟩ := h.atQueue hgl
  have hp : (a ++ b).Pairwise MbbGwLink.Before :=
    (h.queueOk hat).order.sublist (List.Sublist.append_left (List.sublist_cons_self gl b) a)
  have hvalid : ∀ c ∈ a ++ b, c.Valid := by
    intro c hc
    refine h.valid c (h.mem_of_queue hat ?_)
    rcases List.mem_append.mp hc with hc | hc <;> simp [hc]
  rcases gwlinkSwapTime_spec hat (h.nodup_queue hat) hvalid hp start stop with
    ⟨q, heq, hperm, hq⟩ | heq
  · have hid : ({ gl with start := start, stop := stop } : MbbGwLink).id = gl.id := rfl
    exact Or.inl ⟨_, _, heq, h.retime hat hid rfl hv hq hperm⟩
  · exact Or.inr heq

/-- A change of times to those the link has. -/
theorem Inv.swapTime_self (h : s.Inv) (hgl : gl ∈ s.links) :
    gwlinkSwapTime s.gw gl gl.start gl.stop = (true, s.gw, gl) := by
  obtain ⟨l₁, l₂, a, b, hat⟩ := h.atQueue hgl
  refine gwlinkSwapTime_self hat (h.nodup_queue hat) (h.valid gl hgl) (fun c hc => ?_)
    (h.queueOk hat).order
  exact h.valid c (h.mem_of_queue hat (List.mem_append_right a (List.mem_cons_of_mem gl hc)))

/-- A deletion. -/
theorem Inv.delete (h : s.Inv) (hgl : gl ∈ s.links) :
    Inv ⟨mbbGatewayDelLink s.gw gl, s.links.filter fun cur => decide (cur.id ≠ gl.id)⟩ := by
  obtain ⟨l₁, l₂, a, b, hat⟩ := h.atQueue hgl
  obtain ⟨ha, -, -⟩ := ids_mid (h.nodup_queue hat)
  have hfind : ¬ (a ++ gl :: b).all (fun cur => decide (cur.id ≠ gl.id)) = true := by
    intro hall
    exact absurd (List.all_eq_true.mp hall gl (by simp)) (by simp)
  have hothers : (l₁.flatMap Prod.snd ++ ((a ++ b) ++ l₂.flatMap Prod.snd)).Perm
      (s.links.filter fun cur => decide (cur.id ≠ gl.id)) := by
    have hf := (h.perm_others hat).filter fun cur => decide (cur.id ≠ gl.id)
    rw [List.filter_cons, if_neg (by simp), List.filter_eq_self.mpr fun c hc =>
      decide_eq_true (h.others_id hat c hc)] at hf
    exact hf
  have hvalid : ∀ c ∈ s.links.filter (fun cur => decide (cur.id ≠ gl.id)), c.Valid :=
    fun c hc => h.valid c (List.mem_of_mem_filter hc)
  have hids : ((s.links.filter fun cur => decide (cur.id ≠ gl.id)).map MbbGwLink.id).Nodup :=
    h.ids.sublist (List.filter_sublist.map _)
  rw [mbbGatewayDelLink, hat.ht]
  simp only [lookup_mid hat.left, if_neg hfind, gwQueueDelete_mid ha]
  -- the last link takes its queue with it, and the last queue the table
  cases hab : a ++ b with
  | nil =>
    have hkeys := h.keys
    rw [hab, List.nil_append, ← List.flatMap_append] at hothers
    rw [AtQueue.table hat, List.map_append, List.map_cons] at hkeys
    have hkeys' : ((l₁ ++ l₂).map Prod.fst).Nodup := by
      rw [List.map_append]
      exact hkeys.sublist (List.Sublist.append_left (List.sublist_cons_self _ _) _)
    have hqueue : ∀ e ∈ l₁ ++ l₂, QueueOk e.1 e.2 := by
      intro e he
      refine h.queue e ?_
      rw [AtQueue.table hat]
      rcases List.mem_append.mp he with he | he <;> simp [he]
    simp only [hat.filter_ne]
    cases ht : l₁ ++ l₂ with
    | nil =>
      rw [ht] at hothers
      exact ⟨by simp, List.nodup_nil, fun e he => absurd he List.not_mem_nil, hvalid, hids, hothers⟩
    | cons e t =>
      rw [ht] at hothers hkeys' hqueue
      exact ⟨by simp, hkeys', hqueue, hvalid, hids, hothers⟩
  | cons c q =>
    have hok := h.queueOk hat
    have hsub : (a ++ b).Sublist (a ++ gl :: b) :=
      List.Sublist.append_left (List.sublist_cons_self gl b) a
    simp only
    rw [← hab]
    refine h.ofQueue hat ⟨?_, hok.order.sublist hsub, fun c hc => ?_⟩ hvalid hids hothers
    · rw [hab]
      simp
    · exact hok.own c (hsub.subset hc)

end Change

/-! ## Every run -/

/-- The interval of a new link is in order. -/
def CmdOk : GwCmd → Prop
  | .add gl => gl.Valid
  | .modTime _ _ _ => True
  | .del _ => True

/-- **The times of a link are changed**, or the link is as it was. -/
theorem Inv.modTime (h : s.Inv) (id start stop : Int) :
    s.Sound (s.gwlinkModTime id start stop) := by
  rw [gwlinkModTime]
  cases modTimeArgs start stop with
  | some msg => exact Or.inl ⟨msg, rfl⟩
  | none =>
    cases hgl : s.linkById id with
    | none => exact Or.inl ⟨_, rfl⟩
    | some gl =>
      have hmem := (mem_of_linkById hgl).1
      by_cases hv : mbbTimeBecmp (timeOr start gl.start) (timeOr stop gl.stop) > 0
      · simp only [if_pos hv]
        exact Or.inl ⟨_, rfl⟩
      · simp only [if_neg hv]
        rcases h.swapTime hmem (not_lt.mp hv) with ⟨gw, gl', heq, hinv⟩ | heq
        · rw [heq]
          exact Or.inr ⟨_, rfl, hinv⟩
        · rw [heq]
          simp only [map_write_self h hmem]
          exact Or.inl ⟨_, rfl⟩

/-- A change that leaves the times of the link leaves everything. -/
theorem Inv.modTime_self (h : s.Inv) {id start stop : Int} {gl : MbbGwLink} {st : GwState}
    (hgl : s.linkById id = some gl) (hstart : timeOr start gl.start = gl.start)
    (hstop : timeOr stop gl.stop = gl.stop) (hmod : s.gwlinkModTime id start stop = (none, st)) :
    st = s := by
  have hmem := (mem_of_linkById hgl).1
  rw [gwlinkModTime] at hmod
  split at hmod
  · cases hmod
  · simp only [hgl, hstart, hstop] at hmod
    split at hmod
    · cases hmod
    · rw [h.swapTime_self hmem] at hmod
      simp only [if_true, map_write_self h hmem] at hmod
      exact (Prod.mk.inj hmod).2.symm

/-- **One command keeps the invariant.** -/
theorem Inv.exec (h : s.Inv) {c : GwCmd} (hc : CmdOk c) : s.Sound (s.exec c) := by
  cases c with
  | add gl => exact h.addLink hc
  | modTime id start stop => exact h.modTime id start stop
  | del id =>
    rw [GwState.exec, delLink]
    cases hgl : s.linkById id with
    | none => exact Or.inl ⟨_, rfl⟩
    | some gl =>
      obtain ⟨hmem, rfl⟩ := mem_of_linkById hgl
      exact Or.inr ⟨_, rfl, h.delete hmem⟩

/-- **So does a run.** -/
theorem Inv.run (h : s.Inv) {cmds : List GwCmd} (hc : ∀ c ∈ cmds, CmdOk c) : (s.run cmds).Inv := by
  induction cmds generalizing s with
  | nil => exact h
  | cons c cmds ih =>
    refine ih ?_ fun c' h' => hc c' (List.mem_cons_of_mem _ h')
    change (s.exec c).2.Inv
    -- a command that fails leaves the state, so the invariant stays for the rest
    rcases h.exec (hc c List.mem_cons_self) with ⟨msg, heq⟩ | ⟨s', heq, hs'⟩
    · rw [heq]
      exact h
    · rw [heq]
      exact hs'

/-- A new gateway. -/
def new (id : Int) (addr : ℕ) : GwState := ⟨⟨id, addr, none⟩, []⟩

/-- A new gateway has no links. -/
theorem Inv.new (id : Int) (addr : ℕ) : (GwState.new id addr).Inv :=
  ⟨by simp [GwState.new], List.nodup_nil, fun _ h => absurd h List.not_mem_nil,
    fun _ h => absurd h List.not_mem_nil, List.nodup_nil, List.Perm.refl _⟩

/-- **The queues of a gateway.** In every run they are in order and without overlaps, none
is empty, and each link is in one queue once; a command that reports a collision, or any
other error, leaves the queues and the times of the links as they were. -/
theorem gateway_queues (id : Int) (addr : ℕ) (cmds : List GwCmd) (hc : ∀ c ∈ cmds, CmdOk c) :
    ((new id addr).run cmds).Inv ∧
      ∀ c, CmdOk c → ∀ msg, (((new id addr).run cmds).exec c).1 = some msg →
        (((new id addr).run cmds).exec c).2 = (new id addr).run cmds := by
  have hinv := Inv.run (Inv.new id addr) hc
  refine ⟨hinv, fun c hok msg he => ?_⟩
  rcases hinv.exec hok with ⟨msg', heq⟩ | ⟨s', heq, -⟩
  · rw [heq]
  · rw [heq] at he
    cases he

/-- Two links of one interface; the first is to take the time of the second, and that is a
collision. -/
theorem gateway_queues_collision :
    let s := (new 1 0xc0a80001).run [.add ⟨5, 3, 100, 200⟩, .add ⟨6, 3, 300, 0⟩]
    s.gw.ht = some [(3, [⟨5, 3, 100, 200⟩, ⟨6, 3, 300, 0⟩])] ∧
      (s.exec (.modTime 5 100 400)).1 = some .timeCollision ∧
      s.Inv ∧ (s.exec (.modTime 5 100 400)).2 = s := by
  have h := gateway_queues 1 0xc0a80001 [.add ⟨5, 3, 100, 200⟩, .add ⟨6, 3, 300, 0⟩]
    (by simp [CmdOk, MbbGwLink.Valid, mbbTimeBecmp, timecmp])
  exact ⟨by decide, by decide, h.1, h.2 _ trivial .timeCollision (by decide)⟩

end GwState

end Mbb
