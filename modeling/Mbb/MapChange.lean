import Mbb.MapCut
import Mbb.SlicerRun
import Mathlib.Algebra.BigOperators.Group.Multiset.Basic

/-!
# Adding to and deleting from a map

`MapOK` is what every map keeps: its slices tile the keys, its queues are in order and
at different addresses, and the handlers know the nodes there are. The rules say what
`map_add` and `map_del` do to the queue at each key, in terms of owners.

`map_add` may find an entry that overlaps the new one after it has changed some slices.
Then it stops changing anything, so each slice of the range holds the new entry or is as
it was.
-/

namespace Mbb

variable {P Q α ν : Type} [LinearOrder P] [Zero P] [LinearOrder Q] [Zero Q] [DecidableEq α]

/-! ## Queues that are alive

The slicer makes, copies and frees queues. What it must not do is to give two slices one queue, or
to lose one that the handlers know.
-/

/-- The nodes of a queue that may be `NULL`. -/
def regsOf (a : Option (MapQueue Q α)) : Multiset (MapNode × α) :=
  match a with
  | none => 0
  | some q => q.regs

/-- The addresses of queues. -/
def addresses (L : Multiset (Option (MapQueue Q α))) : Multiset ℕ :=
  L.filterMap fun a => a.map MapQueue.id

/-- The queues `L` are at different addresses, and the handlers know their nodes. -/
structure Known (R : ν → Multiset (MapNode × α) → Prop) (s : MapState Q α ν)
    (L : Multiset (Option (MapQueue Q α))) : Prop where
  /-- the handlers know the nodes -/
  reg : R s.nodes (L.map regsOf).sum
  /-- no two queues share an address -/
  nodup : (addresses L).Nodup
  /-- addresses have been given out -/
  lt : ∀ i ∈ addresses L, i < s.fresh

/-- The queues `L` are in order and at different addresses, and the handlers know their
nodes. -/
structure Live (R : ν → Multiset (MapNode × α) → Prop) (ok : Span Q → Prop)
    (s : MapState Q α ν) (L : Multiset (Option (MapQueue Q α))) : Prop where
  /-- the handlers know the nodes -/
  reg : R s.nodes (L.map regsOf).sum
  /-- no two queues share an address -/
  nodup : (addresses L).Nodup
  /-- addresses have been given out -/
  lt : ∀ i ∈ addresses L, i < s.fresh
  /-- the entries are in order -/
  ordered : ∀ a ∈ L, Ordered ok (MapQueue.entries a)

section Live

variable {R : ν → Multiset (MapNode × α) → Prop} {dom : Q → Prop} {ok : Span Q → Prop}
  {ops : SliceOps Q} {h : MapHandlers ν α} {s : MapState Q α ν}
  {L : Multiset (Option (MapQueue Q α))} {q : MapQueue Q α}

omit [LinearOrder Q] [Zero Q] [DecidableEq α] in
@[simp] theorem addresses_none (L : Multiset (Option (MapQueue Q α))) :
    addresses (none ::ₘ L) = addresses L := by
  simp [addresses]

omit [LinearOrder Q] [Zero Q] [DecidableEq α] in
@[simp] theorem addresses_some (q : MapQueue Q α) (L : Multiset (Option (MapQueue Q α))) :
    addresses (some q ::ₘ L) = q.id ::ₘ addresses L := by
  simp [addresses]

omit [LinearOrder Q] [Zero Q] [DecidableEq α] in
theorem Known.null : Known R s (none ::ₘ L) ↔ Known R s L := by
  constructor
  · rintro ⟨h1, h2, h3⟩
    exact ⟨by simpa [regsOf] using h1, by simpa using h2, by simpa using h3⟩
  · rintro ⟨h1, h2, h3⟩
    exact ⟨by simpa [regsOf] using h1, by simpa using h2, by simpa using h3⟩

omit [LinearOrder Q] [Zero Q] [DecidableEq α] in
/-- One queue in place of another at the same address. -/
theorem Known.replace {q' : MapQueue Q α} {n : ν} (hL : Known R s (some q ::ₘ L))
    (hid : q'.id = q.id) (hreg : R n (q'.regs + (L.map regsOf).sum)) :
    Known R { s with nodes := n } (some q' ::ₘ L) where
  reg := by simpa [regsOf] using hreg
  nodup := by simpa [hid] using hL.nodup
  lt := by simpa [hid] using hL.lt

omit [LinearOrder Q] [Zero Q] [DecidableEq α] in
/-- A queue at a new address. -/
theorem Known.new {n : ν} {c : Option (MapCross Q α)} (hL : Known R s L) (hid : q.id = s.fresh)
    (hreg : R n (q.regs + (L.map regsOf).sum)) :
    Known R ⟨s.fresh + 1, n, c⟩ (some q ::ₘ L) where
  reg := by simpa [regsOf] using hreg
  nodup := by
    rw [addresses_some, Multiset.nodup_cons, hid]
    exact ⟨fun hi => lt_irrefl _ (hL.lt _ hi), hL.nodup⟩
  lt i hi := by
    rw [addresses_some, hid] at hi
    rcases Multiset.mem_cons.mp hi with rfl | hi
    · exact Nat.lt_succ_self _
    · exact Nat.lt_succ_of_lt (hL.lt i hi)

omit [LinearOrder Q] [Zero Q] [DecidableEq α] in
theorem Known.setCross {c : Option (MapCross Q α)} (hL : Known R s L) :
    Known R { s with cross := c } L := ⟨hL.reg, hL.nodup, hL.lt⟩

omit [LinearOrder Q] [Zero Q] [DecidableEq α] in
theorem Known.tail {a : Option (MapQueue Q α)} {n : ν} (hL : Known R s (a ::ₘ L))
    (hreg : R n (L.map regsOf).sum) : Known R { s with nodes := n } L where
  reg := hreg
  nodup := Multiset.nodup_of_le (Multiset.filterMap_le_filterMap _ (Multiset.le_cons_self L a))
    hL.nodup
  lt i hi := hL.lt i (Multiset.mem_of_le
    (Multiset.filterMap_le_filterMap _ (Multiset.le_cons_self L a)) hi)

omit [DecidableEq α] in
theorem Live.known (hL : Live R ok s L) : Known R s L := ⟨hL.reg, hL.nodup, hL.lt⟩

omit [DecidableEq α] in
theorem Known.live (hL : Known R s L) (hord : ∀ a ∈ L, Ordered ok (MapQueue.entries a)) :
    Live R ok s L := ⟨hL.reg, hL.nodup, hL.lt, hord⟩

omit [DecidableEq α] in
theorem Live.null : Live R ok s (none ::ₘ L) ↔ Live R ok s L := by
  constructor
  · intro hL
    exact (Known.null.mp hL.known).live fun a ha => hL.ordered a (Multiset.mem_cons_of_mem ha)
  · intro hL
    exact (Known.null.mpr hL.known).live (Multiset.forall_mem_cons.mpr ⟨.nil, hL.ordered⟩)

omit [DecidableEq α] in
/-- One queue in place of another at the same address. -/
theorem Live.replace {q' : MapQueue Q α} {n : ν} (hL : Live R ok s (some q ::ₘ L))
    (hid : q'.id = q.id) (hord : Ordered ok q'.queue.vals)
    (hreg : R n (q'.regs + (L.map regsOf).sum)) :
    Live R ok { s with nodes := n } (some q' ::ₘ L) :=
  (hL.known.replace hid hreg).live (Multiset.forall_mem_cons.mpr
    ⟨hord, fun a ha => hL.ordered a (Multiset.mem_cons_of_mem ha)⟩)

omit [DecidableEq α] in
/-- A queue at a new address. -/
theorem Live.new {n : ν} {c : Option (MapCross Q α)} (hL : Live R ok s L) (hid : q.id = s.fresh)
    (hord : Ordered ok q.queue.vals) (hreg : R n (q.regs + (L.map regsOf).sum)) :
    Live R ok ⟨s.fresh + 1, n, c⟩ (some q ::ₘ L) :=
  (hL.known.new hid hreg).live (Multiset.forall_mem_cons.mpr ⟨hord, hL.ordered⟩)

omit [DecidableEq α] in
theorem Live.setCross {c : Option (MapCross Q α)} (hL : Live R ok s L) :
    Live R ok { s with cross := c } L := hL.known.setCross.live hL.ordered

omit [DecidableEq α] in
theorem Live.tail {a : Option (MapQueue Q α)} {n : ν} (hL : Live R ok s (a ::ₘ L))
    (hreg : R n (L.map regsOf).sum) : Live R ok { s with nodes := n } L :=
  (hL.known.tail hreg).live fun b hb => hL.ordered b (Multiset.mem_cons_of_mem hb)

/-! ## The contract of the data operations

What `map_data_add` and `map_data_del` do to one queue, in the form in which the rule of the slicer
asks for it.
-/

/-- The second queue is a copy of the first. -/
def Copy (a c : Option (MapQueue Q α)) : Prop :=
  c.map (fun q => q.queue.vals) = a.map fun q => q.queue.vals

omit [LinearOrder Q] [Zero Q] [DecidableEq α] in
theorem Copy.entries {a c : Option (MapQueue Q α)} (hc : Copy a c) :
    MapQueue.entries c = MapQueue.entries a := by
  rcases a with _ | a <;> rcases c with _ | c
  · rfl
  · cases hc
  · cases hc
  · exact Option.some.inj hc

omit [LinearOrder Q] [Zero Q] [DecidableEq α] in
theorem mapDataDup_known (hR : h.Tracks R) {a : Option (MapQueue Q α)}
    (hL : Known R s (a ::ₘ L)) :
    Known R (mapDataDup h a s).2 ((mapDataDup h a s).1 ::ₘ a ::ₘ L) ∧
      Copy a (mapDataDup h a s).1 ∧ (mapDataDup h a s).2.cross = s.cross := by
  rcases a with _ | q
  · exact ⟨Known.null.mpr hL, rfl, rfl⟩
  · obtain ⟨q', n', he, hid, hv, hr⟩ := mapDataDup_some hR q hL.reg
    rw [he]
    exact ⟨hL.new hid hr, congrArg some hv, rfl⟩

omit [DecidableEq α] in
theorem mapDataDup_spec (hR : h.Tracks R) {a : Option (MapQueue Q α)}
    (hL : Live R ok s (a ::ₘ L)) :
    Live R ok (mapDataDup h a s).2 ((mapDataDup h a s).1 ::ₘ a ::ₘ L) ∧
      Copy a (mapDataDup h a s).1 ∧ (mapDataDup h a s).2.cross = s.cross := by
  obtain ⟨hK, hcopy, hcross⟩ := mapDataDup_known hR hL.known
  refine ⟨hK.live (Multiset.forall_mem_cons.mpr ⟨?_, hL.ordered⟩), hcopy, hcross⟩
  rw [hcopy.entries]
  exact hL.ordered a (Multiset.mem_cons_self _ _)

omit [LinearOrder Q] [Zero Q] [DecidableEq α] in
theorem mapDataFree_known (hR : h.Tracks R) (hL : Known R s (some q ::ₘ L)) :
    Known R (mapDataFree h q s) L ∧ (mapDataFree h q s).cross = s.cross := by
  obtain ⟨n', he, hr⟩ := mapDataFree_spec (M := (L.map regsOf).sum) hR
    (by simpa [regsOf] using hL.reg)
  rw [he]
  exact ⟨hL.tail hr, rfl⟩

omit [DecidableEq α] in
theorem mapDataFree_live (hR : h.Tracks R) (hL : Live R ok s (some q ::ₘ L)) :
    Live R ok (mapDataFree h q s) L ∧ (mapDataFree h q s).cross = s.cross := by
  obtain ⟨hK, hcross⟩ := mapDataFree_known hR hL.known
  exact ⟨hK.live fun a ha => hL.ordered a (Multiset.mem_cons_of_mem ha), hcross⟩

/-- Where `map_data_add` has met `cur`: the entry overlaps it and was in one of the queues
of `S`. -/
def CrossOf (cur : Slice Q) (S : Option (MapQueue Q α) → Prop) (c : MapCross Q α) : Prop :=
  ∃ a, S a ∧ ∃ e ∈ MapQueue.entries a, e.slice.Meets cur ∧ c = ⟨e.slice, e.data⟩

/-- The queue after an addition: `cur` is in, or a crossing was found. -/
def AddedOr (dom : Q → Prop) (cur : MapEntry Q α) (s : MapState Q α ν)
    (a c : Option (MapQueue Q α)) : Prop :=
  Added dom cur (MapQueue.entries a) (MapQueue.entries c) ∨ s.cross.isSome ∧ Copy a c

omit [DecidableEq α] in
theorem AddedOr.mono {cur : MapEntry Q α} {s' : MapState Q α ν} {a c : Option (MapQueue Q α)}
    (hs : s.cross.isSome → s'.cross.isSome) (ha : AddedOr dom cur s a c) :
    AddedOr dom cur s' a c := ha.imp id fun h' => ⟨hs h'.1, h'.2⟩

omit [LinearOrder Q] [Zero Q] [DecidableEq α] in
/-- The queue that `map_data_add` adds to. -/
theorem queueOrNew_known {c : Option (MapQueue Q α)} (hL : Known R s (c ::ₘ L)) :
    ∃ q s₁, queueOrNew c s = (q, s₁) ∧ Known R s₁ (some q ::ₘ L) ∧
      q.queue.vals = MapQueue.entries c ∧ (c = some q ∨ q.queue.vals = []) ∧
      s₁.cross = s.cross := by
  rcases c with _ | q
  · refine ⟨_, _, rfl, (Known.null.mp hL).new rfl ?_, rfl, Or.inr rfl, rfl⟩
    simpa [MapQueue.regs, nodesOf] using (Known.null.mp hL).reg
  · exact ⟨q, s, rfl, hL, rfl, Or.inl rfl, rfl⟩

/-- `map_data_add` on a copy of the queue `a`. -/
theorem mapDataAdd_spec (hj : ops.Joins dom ok) (hR : h.Tracks R) {cur : MapEntry Q α}
    (hcur : ok cur.slice) {a c : Option (MapQueue Q α)} (hcopy : Copy a c)
    (hmerge : Seamless ops dom cur (MapQueue.entries a))
    (hdrop : Droppable R cur (MapQueue.entries a)) (hL : Live R ok s (c ::ₘ L)) :
    ∃ c' s', mapDataAdd ops h c ⟨cur.slice, some cur.data⟩ s = (c', s') ∧
      Live R ok s' (c' ::ₘ L) ∧ AddedOr dom cur s' a c' ∧
      (s'.cross = s.cross ∨ ∃ e ∈ MapQueue.entries a, e.slice.Meets cur.slice ∧
        s'.cross = some ⟨e.slice, e.data⟩) ∧ (s.cross.isSome → s'.cross.isSome) := by
  simp only [mapDataAdd]
  by_cases hs : s.cross.isSome
  · rw [if_pos hs]
    exact ⟨c, s, rfl, hL, Or.inr ⟨hs, hcopy⟩, Or.inl rfl, id⟩
  · rw [if_neg hs]
    obtain ⟨q, s₁, hq, hK₁, hvc, hc, hcr⟩ := queueOrNew_known hL.known
    have hv : q.queue.vals = MapQueue.entries a := hvc.trans hcopy.entries
    have hord : Ordered ok q.queue.vals := hvc ▸ hL.ordered c (Multiset.mem_cons_self _ _)
    have hL₁ : Live R ok s₁ (some q ::ₘ L) := hK₁.live (Multiset.forall_mem_cons.mpr
      ⟨hord, fun b hb => hL.ordered b (Multiset.mem_cons_of_mem hb)⟩)
    rw [hq]
    simp only
    have hreg : R s₁.nodes (q.regs + (L.map regsOf).sum) := by simpa [regsOf] using hL₁.reg
    rcases mapDataInsert_spec (s := s₁) (q := q) hj hR hcur hord (hv ▸ hmerge) (hv ▸ hdrop) hreg
      with ⟨e, he, hm, hins⟩ | ⟨q', n', hins, hid, hord', hadd, hreg'⟩
    · rw [hins]
      refine ⟨_, _, rfl, hL₁.setCross, Or.inr ⟨rfl, ?_⟩, Or.inr ⟨e, hv ▸ he, hm, rfl⟩, fun _ => rfl⟩
      rcases hc with rfl | hc
      · exact hcopy
      · rw [hc] at he
        cases he
    · rw [hins]
      refine ⟨_, _, rfl, hL₁.replace hid hord' hreg', Or.inl (hv ▸ hadd), Or.inl hcr, ?_⟩
      exact fun h' => absurd h' hs

/-- `map_data_del` cuts each entry, whatever their order. -/
theorem mapDataDel_known (ops : SliceOps Q) (hR : h.Tracks R) (x : MapArg Q α)
    {c : Option (MapQueue Q α)} (hL : Known R s (c ::ₘ L)) :
    ∃ c' s', mapDataDel ops h c x s = (c', s') ∧ Known R s' (c' ::ₘ L) ∧
      MapQueue.entries c' = (MapQueue.entries c).flatMap (delParts ops x) ∧
      s'.cross = s.cross := by
  rcases c with _ | q
  · exact ⟨none, s, rfl, hL, rfl, rfl⟩
  · have hreg : R s.nodes (q.regs + (L.map regsOf).sum) := by simpa [regsOf] using hL.reg
    obtain ⟨q', n', G, he, hid, hl, hG, hr⟩ := mapDataDelLoop_spec (x := x) hR
      q.queue.links (A := []) rfl hreg
    have hv : q'.queue.vals = q.queue.vals.flatMap (delParts ops x) := by
      rw [Queue.vals, hl, List.nil_append, hG]
      rfl
    simp only [mapDataDel]
    rw [he]
    by_cases hlen : q'.queue.length = 0
    · have hnil : q'.queue.links = [] := List.length_eq_zero_iff.mp hlen
      rw [if_pos hlen]
      refine ⟨none, _, rfl, Known.null.mpr (hL.tail ?_), ?_, rfl⟩
      · simpa [MapQueue.regs, hnil, nodesOf] using hr
      · rw [Queue.vals, hnil] at hv
        exact hv
    · rw [if_neg hlen]
      exact ⟨some q', _, rfl, hL.replace hid hr, hv, rfl⟩

/-- `map_data_del` on a copy of the queue `a`. -/
theorem mapDataDel_spec (hk : ops.Cuts dom ok) (hR : h.Tracks R) {x : MapArg Q α}
    (hx : ok x.slice) {a c : Option (MapQueue Q α)} (hcopy : Copy a c)
    (hL : Live R ok s (c ::ₘ L)) :
    ∃ c' s', mapDataDel ops h c x s = (c', s') ∧ Live R ok s' (c' ::ₘ L) ∧
      Deleted dom x (MapQueue.entries a) (MapQueue.entries c') ∧ s'.cross = s.cross := by
  obtain ⟨c', s', he, hK, hv, hcross⟩ := mapDataDel_known ops hR x hL.known
  obtain ⟨hord, -, hdel⟩ := flatMap_delParts hk hx (MapQueue.entries c)
    (hL.ordered c (Multiset.mem_cons_self _ _))
  rw [← hv] at hord hdel
  rw [← hcopy.entries]
  exact ⟨c', s', he, hK.live (Multiset.forall_mem_cons.mpr
    ⟨hord, fun b hb => hL.ordered b (Multiset.mem_cons_of_mem hb)⟩), hdel, hcross⟩

open Slicer in
/-- The contract of `map_add`. -/
theorem contract_add (hj : ops.Joins dom ok) (hR : h.Tracks R) (cur : MapEntry Q α)
    (hcur : ok cur.slice) (S : Option (MapQueue Q α) → Prop) :
    Contract (mapDataOps ops h) (mapDataAdd ops h) ⟨cur.slice, some cur.data⟩
      (fun s L => Live R ok s L ∧ ∀ c, s.cross = some c → CrossOf cur.slice S c) Copy
      (AddedOr dom cur)
      fun a => S a ∧ Seamless ops dom cur (MapQueue.entries a) ∧
        Droppable R cur (MapQueue.entries a) where
  copy_refl _ := rfl
  dup := by
    rintro s a L ⟨hL, hcr⟩
    obtain ⟨h1, h2, h3⟩ := mapDataDup_spec hR hL
    exact ⟨⟨h1, fun c hc => hcr c (h3 ▸ hc)⟩, h2,
      fun b c hq => hq.mono fun hs => (congrArg Option.isSome h3).trans hs⟩
  op := by
    rintro s a L ⟨hS, hmerge, hdrop⟩ ⟨hL, hcr⟩
    obtain ⟨h1, h2, h3⟩ := mapDataDup_spec hR hL
    obtain ⟨c', s', he, hL', hadd, hcross, hmono⟩ := mapDataAdd_spec hj hR hcur h2 hmerge hdrop h1
    have he' : mapDataAdd ops h ((mapDataOps ops h).dup a s).1 ⟨cur.slice, some cur.data⟩
        ((mapDataOps ops h).dup a s).2 = (c', s') := he
    rw [he']
    refine ⟨⟨hL', fun c hc => ?_⟩, hadd, fun b c hq => hq.mono fun hs => hmono ?_⟩
    · rcases hcross with hcross | ⟨e, hem, hm, hcross⟩
      · exact hcr c (h3 ▸ hcross ▸ hc)
      · exact ⟨a, hS, e, hem, hm, (Option.some.inj (hcross.symm.trans hc)).symm⟩
    · exact (congrArg Option.isSome h3).trans hs
  free := by
    rintro s q L ⟨hL, hcr⟩
    obtain ⟨h1, h2⟩ := mapDataFree_live hR hL
    exact ⟨⟨h1, fun c hc => hcr c (h2 ▸ hc)⟩,
      fun b c hq => hq.mono fun hs => (congrArg Option.isSome h2).trans hs⟩
  null := fun ⟨hL, hcr⟩ => ⟨Live.null.mp hL, hcr⟩

open Slicer in
/-- The contract of `map_del`. -/
theorem contract_del (hk : ops.Cuts dom ok) (hR : h.Tracks R) {x : MapArg Q α} (hx : ok x.slice)
    (c₀ : Option (MapCross Q α)) :
    Contract (mapDataOps ops h) (mapDataDel ops h) x
      (fun s L => Live R ok s L ∧ s.cross = c₀) Copy
      (fun _ a c => Deleted dom x (MapQueue.entries a) (MapQueue.entries c)) fun _ => True where
  copy_refl _ := rfl
  dup := by
    rintro s a L ⟨hL, hcr⟩
    obtain ⟨h1, h2, h3⟩ := mapDataDup_spec hR hL
    exact ⟨⟨h1, h3.trans hcr⟩, h2, fun _ _ hq => hq⟩
  op := by
    rintro s a L - ⟨hL, hcr⟩
    obtain ⟨h1, h2, h3⟩ := mapDataDup_spec hR hL
    obtain ⟨c', s', he, hL', hdel, hcross⟩ := mapDataDel_spec hk hR hx h2 h1
    have he' : mapDataDel ops h ((mapDataOps ops h).dup a s).1 x
        ((mapDataOps ops h).dup a s).2 = (c', s') := he
    rw [he']
    exact ⟨⟨hL', (hcross.trans h3).trans hcr⟩, hdel, fun _ _ hq => hq⟩
  free := by
    rintro s q L ⟨hL, hcr⟩
    obtain ⟨h1, h2⟩ := mapDataFree_live hR hL
    exact ⟨⟨h1, h2.trans hcr⟩, fun _ _ hq => hq⟩
  null := fun ⟨hL, hcr⟩ => ⟨Live.null.mp hL, hcr⟩

end Live

/-! ## Maps

The rules for whole maps, by the rule of the slicer and the contract.
-/

/-- The entries at a key. -/
def contentAt (keys : SliceOps P) (sl : MapSlicer P Q α) (p : P) : List (MapEntry Q α) :=
  MapQueue.entries (sl.find keys p)

/-- A map in order. -/
structure MapOK (R : ν → Multiset (MapNode × α) → Prop) (domK : P → Prop) (w : Span P)
    (ok : Span Q → Prop) (sl : MapSlicer P Q α) (s : MapState Q α ν) : Prop where
  /-- the slices tile the keys -/
  wf : sl.WF domK w
  /-- the queues are in order and known -/
  live : Live R ok s (Slicer.liveData sl.queue.links)

section Map

variable {R : ν → Multiset (MapNode × α) → Prop} {dom : Q → Prop} {ok : Span Q → Prop}
  {ops : SliceOps Q} {h : MapHandlers ν α} {keys : SliceOps P} {domK : P → Prop} {w key : Span P}
  {sl : MapSlicer P Q α} {s : MapState Q α ν} (ho : keys.Lawful domK)

omit [DecidableEq α] [LinearOrder P] [Zero P] [LinearOrder Q] [Zero Q] in
theorem mem_liveData {l : Link (SlicerEntry P (MapQueue Q α))} (hl : l ∈ sl.queue.links) :
    l.val.data ∈ Slicer.liveData sl.queue.links :=
  Multiset.mem_coe.mpr (List.mem_map_of_mem hl)

include ho

omit [DecidableEq α] in
theorem MapOK.ordered_at (hm : MapOK R domK w ok sl s) {p : P} (hp : domK p) (hw : w.Mem p) :
    Ordered ok (contentAt keys sl p) := by
  obtain ⟨l, hl, -, he⟩ := hm.wf.exists_mem ho hp hw
  rw [contentAt, he]
  exact hm.live.ordered _ (mem_liveData hl)

omit [DecidableEq α] in
/-- **`map_find`** finds the owner. -/
theorem MapOK.mapFind_eq (hj : ops.Joins dom ok) (hm : MapOK R domK w ok sl s) {p : P} {q : Q}
    (hp : domK p) (hw : w.Mem p) (hq : dom q) :
    mapFind ops keys (some sl) p q = some (ownerAt (contentAt keys sl p) q) :=
  congrArg some (mapDataFind_eq hj hq _ (hm.ordered_at ho hp hw))

omit [DecidableEq α] in
/-- What a map refers to is what owns a point of it. -/
theorem MapOK.exists_rect_iff (hok : ∀ {s : Span Q}, ok s → s.Proper dom) (hdK : ∃ p, domK p)
    (hd : ∃ q, dom q) (hm : MapOK R domK w ok sl s) {a : α} :
    (∃ r ∈ mapRects (some sl), r.2.data = a) ↔
      ∃ p q, domK p ∧ w.Mem p ∧ dom q ∧ ownerAt (contentAt keys sl p) q = some a := by
  constructor
  · rintro ⟨r, hr, rfl⟩
    obtain ⟨e, he, hr⟩ := List.mem_flatMap.mp hr
    obtain ⟨me, hme, rfl⟩ := List.mem_map.mp hr
    obtain ⟨l, hl, rfl⟩ := List.mem_map.mp he
    have hord := hm.live.ordered _ (mem_liveData hl)
    obtain ⟨p, hp, hpm⟩ := (hm.wf.proper hl).exists_mem hdK
    obtain ⟨q, hq, hqm⟩ := (hok (hord.ok me hme)).exists_mem hd
    refine ⟨p, q, hp, hm.wf.tiles.sub (Slicer.mem_slicesOf hl) hpm, hq, ?_⟩
    rw [contentAt, Slicer.find_of_mem ho hm.wf hp hl hpm]
    exact hord.ownerAt_of_mem hme hqm
  · rintro ⟨p, q, hp, hwp, -, hown⟩
    obtain ⟨l, hl, -, hf⟩ := hm.wf.exists_mem ho hp hwp
    obtain ⟨me, hme, -, rfl⟩ := ownerAt_mem hown
    rw [contentAt, hf] at hme
    exact ⟨(l.val.slice, me), List.mem_flatMap.mpr
      ⟨l.val, List.mem_map_of_mem hl, List.mem_map_of_mem hme⟩, rfl⟩

variable [TreeShape P]

omit [DecidableEq α] in
/-- A map with one slice and no queue. -/
theorem mapOK_init (hw : w.Proper domK) (hR : R s.nodes 0) :
    MapOK R domK w ok ((Slicer.new : MapSlicer P Q α).init keys w.lo w.hi) s := by
  obtain ⟨hwf, hnone⟩ := Slicer.wf_init (D := MapQueue Q α) ho hw
  have hzero : ∀ (L : List (Link (SlicerEntry P (MapQueue Q α)))),
      (∀ l ∈ L, l.val.data = none) → Live R ok s (Slicer.liveData L) := by
    intro L
    induction L with
    | nil => exact fun _ => ⟨hR, Multiset.nodup_zero, by simp [addresses, Slicer.liveData],
        by simp [Slicer.liveData]⟩
    | cons l L ih =>
      intro hL
      rw [Slicer.liveData_cons, hL l List.mem_cons_self]
      exact Live.null.mpr (ih fun m hm => hL m (List.mem_cons_of_mem _ hm))
  exact ⟨hwf, hzero _ hnone⟩

omit [DecidableEq α] [LinearOrder Q] [Zero Q] in
theorem contentAt_init (hw : w.Proper domK) {p : P} (hp : domK p) (hm : w.Mem p) :
    contentAt keys ((Slicer.new : MapSlicer P Q α).init keys w.lo w.hi) p = [] := by
  obtain ⟨hwf, hnone⟩ := Slicer.wf_init (D := MapQueue Q α) ho hw
  obtain ⟨l, hl, -, hf⟩ := hwf.exists_mem ho hp hm
  rw [contentAt, hf, hnone l hl]
  rfl

omit ho in
/-- A range of keys whose begin is after its end is skipped. -/
theorem mapAdd_skip (hskip : 0 < beginEndCmp keys key.lo key.hi) (dkey : Slice Q) (ptr : α) :
    mapAdd ops h keys (some sl) key dkey ptr s = some (some sl, { s with cross := none }) := by
  rw [mapAdd, Slicer.insert, Slicer.applyChange_skip hskip]
  rfl

omit ho in
theorem mapDel_skip (hskip : 0 < beginEndCmp keys key.lo key.hi) (dkey : Slice Q)
    (ptr : Option α) :
    mapDel ops h keys (some sl) key dkey ptr s = some (some sl, s) := by
  rw [mapDel, Slicer.delete, Slicer.applyChange_skip hskip]
  rfl

/-- **`map_add`** at each key: inside the range the new entry is added, or a crossing was
found and nothing has changed there; outside nothing changes. -/
theorem mapAdd_rule (hj : ops.Joins dom ok) (hR : h.Tracks R) (hm : MapOK R domK w ok sl s)
    (hkey : keys.Fits domK w key) (hcr : Slicer.Crosses domK w key) {dkey : Slice Q} {ptr : α}
    (hd : ok dkey)
    (hS : ∀ p, domK p → w.Mem p → key.Mem p →
      Seamless ops dom ⟨dkey, ptr⟩ (contentAt keys sl p) ∧
        Droppable R ⟨dkey, ptr⟩ (contentAt keys sl p)) :
    ∃ sl' s', mapAdd ops h keys (some sl) key dkey ptr s = some (some sl', s') ∧
      MapOK R domK w ok sl' s' ∧
      (∀ p, domK p → w.Mem p →
        (key.Mem p → Added dom ⟨dkey, ptr⟩ (contentAt keys sl p) (contentAt keys sl' p) ∨
          s'.cross.isSome ∧ contentAt keys sl' p = contentAt keys sl p) ∧
        (¬ key.Mem p → contentAt keys sl' p = contentAt keys sl p)) ∧
      ∀ c, s'.cross = some c → ∃ p, domK p ∧ w.Mem p ∧ key.Mem p ∧
        ∃ e ∈ contentAt keys sl p, e.slice.Meets dkey ∧ c = ⟨e.slice, e.data⟩ := by
  obtain ⟨q, hq, hwq, hkq⟩ := hcr
  -- a link that meets the range has a key of it
  have hpt : ∀ l ∈ sl.queue.links, l.val.slice.Meets key →
      ∃ p, domK p ∧ w.Mem p ∧ key.Mem p ∧ sl.find keys p = l.val.data := by
    intro l hl hmeet
    obtain ⟨p, hp, hpl, hpk⟩ := hmeet.exists_mem ⟨q, hq⟩ (hm.wf.proper hl) hkey.proper
    exact ⟨p, hp, hm.wf.tiles.sub (Slicer.mem_slicesOf hl) hpl, hpk,
      Slicer.find_of_mem ho hm.wf hp hl hpl⟩
  obtain ⟨sl', s', he, hwf', ⟨hL', hcross⟩, hpiece⟩ := Slicer.applyChange_rule
    (s := { s with cross := none }) ho
    (contract_add hj hR ⟨dkey, ptr⟩ hd fun a =>
      ∃ p, domK p ∧ w.Mem p ∧ key.Mem p ∧ sl.find keys p = a)
    ⟨q, hq⟩ hkey (.of_mem hwq hkq) hm.wf
    (fun l hl hmeet => by
      obtain ⟨p, hp, hwp, hkp, hf⟩ := hpt l hl hmeet
      exact ⟨⟨p, hp, hwp, hkp, hf⟩, hf ▸ hS p hp hwp hkp⟩)
    ⟨hm.live.setCross, fun c hc => by cases hc⟩
  refine ⟨sl', s', ?_, ⟨hwf', hL'⟩, ?_, ?_⟩
  · rw [mapAdd, hj.lawful.dup_eq, hj.lawful.dup_eq]
    exact congrArg (Option.map _) he
  · intro p hp hwp
    obtain ⟨hin, hout⟩ := Slicer.find_of_piece ho hm.wf hwf' hpiece hp hwp
    refine ⟨fun hk => ?_, fun hk => (hout hk).entries⟩
    exact (hin hk).imp id fun hc => ⟨hc.1, hc.2.entries⟩
  · intro c hc
    obtain ⟨a, ⟨p, hp, hwp, hkp, hf⟩, hex⟩ := hcross c hc
    exact ⟨p, hp, hwp, hkp, by rw [contentAt, hf]; exact hex⟩

/-- **`map_del`** at each key. -/
theorem mapDel_rule (hk : ops.Cuts dom ok) (hR : h.Tracks R) (hm : MapOK R domK w ok sl s)
    (hkey : keys.Fits domK w key) (hcr : Slicer.Crosses domK w key) {dkey : Slice Q}
    (hd : ok dkey) (ptr : Option α) :
    ∃ sl' s', mapDel ops h keys (some sl) key dkey ptr s = some (some sl', s') ∧
      MapOK R domK w ok sl' s' ∧ s'.cross = s.cross ∧
      ∀ p, domK p → w.Mem p →
        (key.Mem p → Deleted dom ⟨dkey, ptr⟩ (contentAt keys sl p) (contentAt keys sl' p)) ∧
        (¬ key.Mem p → contentAt keys sl' p = contentAt keys sl p) := by
  obtain ⟨q, hq, hwq, hkq⟩ := hcr
  obtain ⟨sl', s', he, hwf', ⟨hL', hcross⟩, hpiece⟩ := Slicer.applyChange_rule
    (s := s) ho
    (contract_del (x := ⟨dkey, ptr⟩) hk hR hd s.cross) ⟨q, hq⟩ hkey (.of_mem hwq hkq) hm.wf
    (fun _ _ _ => trivial) ⟨hm.live, rfl⟩
  refine ⟨sl', s', ?_, ⟨hwf', hL'⟩, hcross, ?_⟩
  · rw [mapDel, hk.lawful.dup_eq, hk.lawful.dup_eq]
    exact congrArg (Option.map _) he
  · intro p hp hwp
    obtain ⟨hin, hout⟩ := Slicer.find_of_piece ho hm.wf hwf' hpiece hp hwp
    exact ⟨hin, fun hk => (hout hk).entries⟩

end Map

end Mbb
