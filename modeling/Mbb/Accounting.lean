import Mathlib.Algebra.Order.Group.Nat
import Mbb.Lib.Marginal
import Mbb.NetflowUpdate

/-!
# What a pool accounts for

The bytes of a flow are those of its payload and 28 for the header of each packet. The sum
is taken in 32 bits, so the totals of a pool are exact as long as no accounted flow reaches
4 GiB; a flow that does loses a multiple of 4 GiB.
-/

namespace Mbb

/-- The bytes of a flow, headers included. -/
def FlowRec.bytes (r : FlowRec) : ℕ := r.dOctets.toNat + 28 * r.dPkts.toNat

/-- The rows of a hash table summed: in and out. -/
def bytesTotal {K : Type} (ht : Ledger K StatRec) : ℕ × ℕ :=
  ((ht.rows.map fun r => r.2.1.toNat).sum, (ht.rows.map fun r => r.2.2.toNat).sum)

namespace FlowEnv

variable (env : FlowEnv)

/-- The records of a stream, read and processed one after the other. -/
def processFlows : List FlowRec → StatPool → StatPool
  | [], pool => pool
  | r :: flow, pool => processFlows flow (env.processFlowData (env.flowData r) pool)

/-! ## What is to be accounted

The statement of the purpose, in numbers and without words of the machine: each side of a flow that
belongs to a unit of the map is due its bytes once.
-/

/-- The time of a record. -/
def time (r : FlowRec) : Int := (env.flowData r).begin

/-- The unit of the source. -/
def srcUnit (r : FlowRec) : Option ℕ := mbbUmapFind env.umap r.srcaddr.toNat (env.time r)

/-- The unit of the destination. -/
def dstUnit (r : FlowRec) : Option ℕ := mbbUmapFind env.umap r.dstaddr.toNat (env.time r)

/-- The link of the output interface. -/
def outLink (r : FlowRec) : Option MbbGwLink :=
  mbbGatewayFindLink env.gws r.exaddr.toNat r.output.toNat (env.time r)

/-- The link of the input interface. -/
def inLink (r : FlowRec) : Option MbbGwLink :=
  mbbGatewayFindLink env.gws r.exaddr.toNat r.input.toNat (env.time r)

/-- A direction counts: this side is mapped, the other is not local, there is a link. -/
def counted (unit peer : Option ℕ) (link : Option MbbGwLink) : Bool :=
  unit.isSome && !env.islocal peer && link.isSome

/-- The record counts as outgoing. -/
def outCounted (r : FlowRec) : Bool := env.counted (env.srcUnit r) (env.dstUnit r) (env.outLink r)

/-- The record counts as incoming. -/
def inCounted (r : FlowRec) : Bool := env.counted (env.dstUnit r) (env.srcUnit r) (env.inLink r)

/-- The outgoing bytes of the records. -/
def outBytes (recs : List FlowRec) : ℕ := ((recs.filter env.outCounted).map FlowRec.bytes).sum

/-- The incoming bytes of the records. -/
def inBytes (recs : List FlowRec) : ℕ := ((recs.filter env.inCounted).map FlowRec.bytes).sum

/-- No byte of the record is lost: the count fits into 32 bits, and the id of the link is
not one that stands for no link. -/
def Kept (r : FlowRec) (link : Option MbbGwLink) : Prop :=
  r.bytes = 0 ∨ r.bytes < 2 ^ 32 ∧ ∀ gl ∈ link, 0 ≤ gl.id

/-! ## What is accounted

The loop over the flows of a packet feeds entries to the pool. Here it is read as one list of
entries, with what each flow adds.
-/

theorem processFlows_eq (recs : List FlowRec) (pool : StatPool) :
    env.processFlows recs pool =
      (recs.flatMap fun r => env.flowEntries (env.flowData r)).foldl mbbStatFeed pool := by
  induction recs generalizing pool with
  | nil => rfl
  | cons r recs ih =>
    rw [processFlows, ih, env.processFlowData_eq, List.flatMap_cons, List.foldl_append]

/-- What the code accounts for a direction of the record. -/
def accounted (r : FlowRec) (c : Bool) (link : Option MbbGwLink) : ℕ :=
  if c ∧ ∀ gl ∈ link, 0 ≤ gl.id then r.bytes % 2 ^ 32 else 0

theorem toNat_nbytes (r : FlowRec) :
    ((env.flowData r).nbytes.setWidth 64).toNat = r.bytes % 2 ^ 32 := by
  have hlt := (env.flowData r).nbytes.isLt
  rw [BitVec.toNat_setWidth_of_le (by decide)]
  rw [flowData, FlowRec.bytes, BitVec.toNat_add, BitVec.toNat_mul, flowHeaderSize,
    Nat.add_mod_mod, Nat.mul_comm]
  rfl

/-- The id tested by `process_flow_data`. -/
theorem getLinkId_nonneg (gw : BitVec 32) (n : BitVec 16) (t : Int) :
    0 ≤ env.getLinkId gw n t ↔ (mbbGatewayFindLink env.gws gw.toNat n.toNat t).isSome ∧
      ∀ gl ∈ mbbGatewayFindLink env.gws gw.toNat n.toNat t, 0 ≤ gl.id := by
  rw [getLinkId]
  cases mbbGatewayFindLink env.gws gw.toNat n.toNat t with
  | none => simp
  | some gl => simp

/-- The sum of one direction's entries. -/
theorem sum_sideEntries (unit peer : Option ℕ) (gw : BitVec 32) (n : BitVec 16) (bytes : StatRec)
    (t : Int) (f : StatRec → ℕ) :
    ((env.sideEntries unit (env.islocal peer) (env.getLinkId gw n t) bytes t).map fun e =>
        f e.bytes).sum =
      if env.counted unit peer (mbbGatewayFindLink env.gws gw.toNat n.toNat t) ∧
          ∀ gl ∈ mbbGatewayFindLink env.gws gw.toNat n.toNat t, 0 ≤ gl.id
        then f bytes else 0 := by
  -- an address without unit feeds nothing; else the peer and the link decide
  have hid := env.getLinkId_nonneg gw n t
  cases unit with
  | none => simp [sideEntries, counted]
  | some u =>
    rw [sideEntries, counted]
    by_cases hl : env.islocal peer = true
    · simp [hl]
    · by_cases hn : 0 ≤ env.getLinkId gw n t
      · obtain ⟨hs, hg⟩ := hid.mp hn
        rw [if_neg hl, if_pos hn, if_pos ⟨by simp [hl, hs], hg⟩]
        simp
      · rw [if_neg hl, if_neg hn, if_neg]
        · rfl
        · rintro ⟨hs, hg⟩
          exact hn (hid.mpr ⟨by simp_all, hg⟩)

theorem sum_flowEntries (r : FlowRec) :
    ((env.flowEntries (env.flowData r)).map fun e => e.bytes.2.toNat).sum =
        accounted r (env.outCounted r) (env.outLink r) ∧
      ((env.flowEntries (env.flowData r)).map fun e => e.bytes.1.toNat).sum =
        accounted r (env.inCounted r) (env.inLink r) := by
  have hsplit : ∀ f : StatRec → ℕ,
      ((env.flowEntries (env.flowData r)).map fun e => f e.bytes).sum =
        (if env.outCounted r ∧ ∀ gl ∈ env.outLink r, 0 ≤ gl.id then
          f (0, (env.flowData r).nbytes.setWidth 64) else 0) +
        if env.inCounted r ∧ ∀ gl ∈ env.inLink r, 0 ≤ gl.id then
          f ((env.flowData r).nbytes.setWidth 64, 0) else 0 := by
    intro f
    rw [flowEntries, List.map_append, List.sum_append, env.sum_sideEntries, env.sum_sideEntries]
    rfl
  have hzero : (0 : BitVec 64).toNat = 0 := rfl
  constructor
  · refine (hsplit fun b => b.2.toNat).trans ?_
    simp only [env.toNat_nbytes, hzero, ite_self, add_zero]
    rfl
  · refine (hsplit fun b => b.1.toNat).trans ?_
    simp only [env.toNat_nbytes, hzero, ite_self, zero_add]
    rfl

/-! ## The totals

The bytes of the entries are added up in words of 64 bits. They are what is due if and only if no
flow that counts has lost a multiple of `2 ^ 32` on the way.
-/

/-- The totals of a pool are those of the entries, when these fit. -/
theorem bytesTotal_feedAll [HashOrder] {K : Type} [DecidableEq K] (v : StatView K)
    (es : List StatEntry) (hin : (es.map fun e => e.bytes.1.toNat).sum < 2 ^ 64)
    (hout : (es.map fun e => e.bytes.2.toNat).sum < 2 ^ 64) :
    bytesTotal (v.pool (es.foldl mbbStatFeed mbbStatPoolNew)) =
      ((es.map fun e => e.bytes.1.toNat).sum, (es.map fun e => e.bytes.2.toNat).sum) := by
  -- one side at a time: the word of a row is the sum of its entries, which is below 2 ^ 64
  have hside : ∀ φ : StatRec →+ BitVec 64, (es.map fun e => (φ e.bytes).toNat).sum < 2 ^ 64 →
      ((v.pool (es.foldl mbbStatFeed mbbStatPoolNew)).rows.map fun r => (φ r.2).toNat).sum =
        (es.map fun e => (φ e.bytes).toNat).sum := by
    intro φ hφ
    have hadd : ∀ k, (φ (Ledger.amount (v.posts es) k)).toNat =
        Ledger.amount ((v.posts es).map fun e => (e.1, (φ e.2).toNat)) k := by
      intro k
      rw [← Ledger.amount_map_hom, Ledger.toNat_amount, List.map_map]
      · rfl
      · refine lt_of_le_of_lt (Ledger.amount_le_sum _ k) ?_
        rw [List.map_map, List.map_map, StatView.posts, List.map_map]
        exact hφ
    have hmarg := recUpdate_posts.marginal_foldl_empty (fun _ => ()) (f := fun r => (φ r).toNat)
      (by rw [map_zero]; rfl) (v.posts es) hadd ()
    rw [← v.pool_new, ← v.pool_feedAll, Ledger.marginal, Ledger.amount_unit, Ledger.amount_unit,
      List.map_map, List.map_map, StatView.posts, List.map_map] at hmarg
    exact hmarg
  exact Prod.ext (hside (AddMonoidHom.fst _ _) hin) (hside (AddMonoidHom.snd _ _) hout)

/-- Sums of parts are those of the wholes iff each part is its whole. -/
theorem sum_eq_iff_of_le {α : Type} {f g : α → ℕ} {l : List α} (h : ∀ a ∈ l, f a ≤ g a) :
    (l.map f).sum = (l.map g).sum ↔ ∀ a ∈ l, f a = g a := by
  induction l with
  | nil => simp
  | cons a l ih =>
    have hrest := fun b hb => h b (List.mem_cons_of_mem a hb)
    have hhead := h a List.mem_cons_self
    have hsum := List.sum_le_sum hrest
    rw [List.map_cons, List.map_cons, List.sum_cons, List.sum_cons, List.forall_mem_cons,
      ← ih hrest]
    omega

theorem accounted_le (r : FlowRec) (c : Bool) (link : Option MbbGwLink) :
    accounted r c link ≤ if c then r.bytes else 0 := by
  cases c with
  | false => exact le_of_eq (if_neg fun h => absurd h.1 (by decide))
  | true =>
    rw [accounted]
    split
    · exact Nat.mod_le _ _
    · exact Nat.zero_le _

/-- The bytes of a direction that counts are all accounted iff none is lost. -/
theorem accounted_eq_iff (r : FlowRec) (c : Bool) (link : Option MbbGwLink) :
    (accounted r c link = if c then r.bytes else 0) ↔ (c = true → Kept r link) := by
  cases c with
  | false =>
    exact iff_of_true (if_neg fun h => absurd h.1 (by decide)) fun h => absurd h (by decide)
  | true =>
    rw [accounted, Kept, if_pos rfl]
    by_cases hid : ∀ gl ∈ link, 0 ≤ gl.id
    · rw [if_pos ⟨rfl, hid⟩]
      refine ⟨fun h _ => Or.inr ⟨?_, hid⟩, fun h => ?_⟩
      · rw [← h]
        exact Nat.mod_lt _ (by decide)
      · rcases h rfl with h | h
        · rw [h, Nat.zero_mod]
        · exact Nat.mod_eq_of_lt h.1
    · rw [if_neg fun h => hid h.2]
      -- a link with a negative id is taken for none, so only a record without bytes is kept
      refine ⟨fun h _ => Or.inl h.symm, fun h => ?_⟩
      rcases h rfl with h | h
      · exact h.symm
      · exact absurd h.2 hid

theorem sum_filter_bytes (p : FlowRec → Bool) (recs : List FlowRec) :
    ((recs.filter p).map FlowRec.bytes).sum =
      (recs.map fun r => if p r then r.bytes else 0).sum := by
  induction recs with
  | nil => rfl
  | cons r recs ih =>
    rw [List.filter_cons, List.map_cons, List.sum_cons, ← ih]
    by_cases hp : p r = true
    · rw [if_pos hp, if_pos hp, List.map_cons, List.sum_cons]
    · rw [if_neg hp, if_neg hp, Nat.zero_add]

/-- The entries of the records, summed. -/
theorem sum_entries (recs : List FlowRec) :
    ((recs.flatMap fun r => env.flowEntries (env.flowData r)).map fun e => e.bytes.1.toNat).sum =
        (recs.map fun r => accounted r (env.inCounted r) (env.inLink r)).sum ∧
      ((recs.flatMap fun r => env.flowEntries (env.flowData r)).map fun e => e.bytes.2.toNat).sum =
        (recs.map fun r => accounted r (env.outCounted r) (env.outLink r)).sum := by
  induction recs with
  | nil => exact ⟨rfl, rfl⟩
  | cons r recs ih =>
    obtain ⟨hout, hin⟩ := env.sum_flowEntries r
    simp only [List.flatMap_cons, List.map_append, List.sum_append, List.map_cons, List.sum_cons,
      ih.1, ih.2, hin, hout, and_self]

/-- **Accounting.** The totals of the pool are the bytes of the records exactly when no
record that counts loses bytes. -/
theorem accounting_exact_iff (recs : List FlowRec) (hin : env.inBytes recs < 2 ^ 64)
    (hout : env.outBytes recs < 2 ^ 64) :
    (bytesTotal (env.processFlows recs mbbStatPoolNew).ustat =
          (env.inBytes recs, env.outBytes recs) ∧
        bytesTotal (env.processFlows recs mbbStatPoolNew).lstat =
          (env.inBytes recs, env.outBytes recs) ∧
        bytesTotal (env.processFlows recs mbbStatPoolNew).ulstat =
          (env.inBytes recs, env.outBytes recs)) ↔
      ∀ r ∈ recs, (env.inCounted r = true → Kept r (env.inLink r)) ∧
        (env.outCounted r = true → Kept r (env.outLink r)) := by
  -- the totals do not depend on the order in which a table is read
  let _ := HashOrder.plain
  rw [inBytes, sum_filter_bytes] at hin ⊢
  rw [outBytes, sum_filter_bytes] at hout ⊢
  obtain ⟨hes₁, hes₂⟩ := env.sum_entries recs
  have hle₁ : ∀ r ∈ recs, accounted r (env.inCounted r) (env.inLink r) ≤
      if env.inCounted r then r.bytes else 0 := fun r _ => accounted_le r _ _
  have hle₂ : ∀ r ∈ recs, accounted r (env.outCounted r) (env.outLink r) ≤
      if env.outCounted r then r.bytes else 0 := fun r _ => accounted_le r _ _
  have hlt₁ := lt_of_le_of_lt (List.sum_le_sum hle₁) hin
  have hlt₂ := lt_of_le_of_lt (List.sum_le_sum hle₂) hout
  -- the exact sums fit into 64 bits, so what is accounted does too
  rw [← hes₁] at hlt₁
  rw [← hes₂] at hlt₂
  have htab : ∀ {K : Type} [DecidableEq K] (v : StatView K),
      bytesTotal (v.pool (env.processFlows recs mbbStatPoolNew)) = _ := fun v =>
    (congrArg (fun p => bytesTotal (v.pool p)) (env.processFlows_eq recs mbbStatPoolNew)).trans
      (bytesTotal_feedAll v _ hlt₁ hlt₂)
  have hsides : ((recs.flatMap fun r => env.flowEntries (env.flowData r)).map fun e =>
        e.bytes.1.toNat).sum = (recs.map fun r => if env.inCounted r then r.bytes else 0).sum ∧
      ((recs.flatMap fun r => env.flowEntries (env.flowData r)).map fun e =>
        e.bytes.2.toNat).sum = (recs.map fun r => if env.outCounted r then r.bytes else 0).sum ↔
      ∀ r ∈ recs, (env.inCounted r = true → Kept r (env.inLink r)) ∧
        (env.outCounted r = true → Kept r (env.outLink r)) := by
    rw [hes₁, hes₂, sum_eq_iff_of_le hle₁, sum_eq_iff_of_le hle₂, ← forall₂_and]
    refine forall₂_congr fun r _ => and_congr (accounted_eq_iff r _ _) (accounted_eq_iff r _ _)
  rw [← hsides]
  constructor
  · rintro ⟨hu, -⟩
    exact Prod.mk.inj ((htab unitView).symm.trans hu)
  · rintro ⟨h₁, h₂⟩
    have h := congrArg₂ Prod.mk h₁ h₂
    exact ⟨(htab unitView).trans h, (htab linkView).trans h, (htab unitLinkView).trans h⟩

/-- A packet of 1000 octets that comes in by the link. -/
def exampleReply : FlowRec :=
  { exampleFlow with
    srcaddr := 0x01010101, dstaddr := 0x0a000002, dOctets := 1000, input := 3, output := 4 }

/-- Two packets that go out, and between them one that comes in. -/
theorem accounting_exact_packet :
    let recs := [exampleFlow, exampleReply, exampleFlow]
    bytesTotal (exampleEnv.processFlows recs mbbStatPoolNew).ustat = (1028, 256) ∧
      (∀ r ∈ recs, (exampleEnv.inCounted r = true → Kept r (exampleEnv.inLink r)) ∧
        (exampleEnv.outCounted r = true → Kept r (exampleEnv.outLink r))) := by
  intro recs
  have h := exampleEnv.accounting_exact_iff recs (by decide +kernel) (by decide +kernel)
  have hu : bytesTotal (exampleEnv.processFlows recs mbbStatPoolNew).ustat = (1028, 256) ∧
      bytesTotal (exampleEnv.processFlows recs mbbStatPoolNew).lstat = (1028, 256) ∧
      bytesTotal (exampleEnv.processFlows recs mbbStatPoolNew).ulstat = (1028, 256) := by
    decide +kernel
  have hex : (exampleEnv.inBytes recs, exampleEnv.outBytes recs) = (1028, 256) := by
    decide +kernel
  rw [hex] at h
  exact ⟨hu.1, h.mp hu⟩

/-- A packet that says it has 4 GiB less one byte: 27 bytes are accounted. -/
theorem accounting_drops_4GiB :
    exampleEnv.inBytes [{ exampleFlow with dOctets := 0xffffffff }] = 0 ∧
      exampleEnv.outBytes [{ exampleFlow with dOctets := 0xffffffff }] = 4294967323 ∧
      4294967323 < 2 ^ 64 ∧
      bytesTotal (exampleEnv.processFlows [{ exampleFlow with dOctets := 0xffffffff }]
        mbbStatPoolNew).ustat = (0, 27) := by
  decide +kernel

end FlowEnv

end Mbb
