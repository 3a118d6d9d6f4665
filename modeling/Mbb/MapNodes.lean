import Mbb.MapKeys
import Mbb.MapRun
import Mbb.SlicerKeep

/-!
# What the handlers of a map hear

A map announces each link of its queues by `node_add` and withdraws it by `node_del`. This holds
for any keys and whether a crossing is found or not, since it depends on neither the order of
the slices nor that of the entries. There is one exception: `map_data_split_links` deletes a
link in silence. It is reached when a new entry fits exactly between two entries of its owner.
-/

namespace Mbb

variable {P Q α ν : Type} [LinearOrder P] [Zero P] [LinearOrder Q] [Zero Q] [DecidableEq α]

/-! ## The log

A handler that only notes what it hears. What is announced and not withdrawn should be the nodes
there are.
-/

/-- A call of a handler. -/
inductive NodeEvent : Type where
  /-- `node_add` -/
  | add (node : MapNode)
  /-- `node_del` -/
  | del (node : MapNode)
  deriving DecidableEq

/-- The handlers `h` with a log of their calls, the last one first. -/
def MapHandlers.logged (h : MapHandlers ν α) : MapHandlers (ν × List NodeEvent) α where
  nodeAdd nd a n := (h.nodeAdd nd a n.1, .add nd :: n.2)
  nodeDel nd a n := (h.nodeDel nd a n.1, .del nd :: n.2)

/-- How often the node was announced and not withdrawn. -/
def balance (log : List NodeEvent) (nd : MapNode) : ℤ :=
  log.count (.add nd) - log.count (.del nd)

/-- The pairs of queue and link in a map. -/
def allNodes (m : Map P Q α) : List MapNode :=
  match m with
  | none => []
  | some sl => sl.queue.links.flatMap fun l => match l.val.data with
    | none => []
    | some q => q.queue.links.map fun e => ⟨q.id, e.id⟩

/-- The nodes announced and not withdrawn are those of the map. -/
structure Announced (m : Map P Q α) (log : List NodeEvent) : Prop where
  /-- no node is there twice -/
  once : (allNodes m).Nodup
  /-- each node of the map is announced once more than it is withdrawn, others as often -/
  balance_eq : ∀ nd, balance log nd = (allNodes m).count nd
  /-- no node was ever withdrawn that was not announced -/
  earlier : ∀ log', log' <:+ log → ∀ nd, 0 ≤ balance log' nd

/-- What the log knows of some nodes. -/
def Logged (n : ν × List NodeEvent) (M : Multiset (MapNode × α)) : Prop :=
  (∀ nd, balance n.2 nd = (M.map Prod.fst).count nd) ∧
    ∀ log', log' <:+ n.2 → ∀ nd, 0 ≤ balance log' nd

theorem balance_add (log : List NodeEvent) (nd nd' : MapNode) :
    balance (.add nd :: log) nd' = balance log nd' + if nd' = nd then 1 else 0 := by
  by_cases hnd : nd' = nd
  · subst hnd
    simp [balance]
    omega
  · simp [balance, hnd, Ne.symm hnd]

theorem balance_del (log : List NodeEvent) (nd nd' : MapNode) :
    balance (.del nd :: log) nd' = balance log nd' - if nd' = nd then 1 else 0 := by
  by_cases hnd : nd' = nd
  · subst hnd
    simp [balance]
    omega
  · simp [balance, hnd, Ne.symm hnd]

omit [DecidableEq α] in
/-- One more call, after which the balance is right again. -/
theorem Logged.cons {n : ν × List NodeEvent} {M M' : Multiset (MapNode × α)} {n' : ν}
    (ev : NodeEvent) (hn : Logged n M)
    (hbal : ∀ nd, balance (ev :: n.2) nd = ((M'.map Prod.fst).count nd : ℕ)) :
    Logged (n', ev :: n.2) M' := by
  refine ⟨hbal, fun log' hlog nd => ?_⟩
  rcases List.suffix_cons_iff.mp hlog with rfl | hlog
  · rw [hbal nd]
    exact Int.natCast_nonneg _
  · exact hn.2 log' hlog nd

omit [DecidableEq α] in
/-- The log follows each link that comes and goes. -/
theorem MapHandlers.tracks_logged (h : MapHandlers ν α) : h.logged.Tracks Logged where
  add {n nd a M} hn := by
    apply hn.cons
    intro nd'
    rw [balance_add, hn.1 nd', Multiset.map_cons, Multiset.count_cons]
    split <;> simp
  del {n nd a M} hn := by
    apply hn.cons
    intro nd'
    rw [balance_del, hn.1 nd', Multiset.map_cons, Multiset.count_cons]
    split <;> simp

omit [LinearOrder P] [Zero P] [LinearOrder Q] [Zero Q] [DecidableEq α] in
theorem coe_allNodes (sl : MapSlicer P Q α) :
    (↑(allNodes (some sl)) : Multiset MapNode) = (mapRegs sl).map Prod.fst := by
  simp only [allNodes, mapRegs]
  induction sl.queue.links with
  | nil => simp [Slicer.liveData]
  | cons l ls ih =>
    rw [Slicer.liveData_cons, Multiset.map_cons, Multiset.sum_cons, Multiset.map_add, ← ih,
      List.flatMap_cons, ← Multiset.coe_add]
    congr 1
    rcases l.val.data with _ | q
    · simp [regsOf]
    · simp [regsOf, MapQueue.regs, nodesOf, Function.comp_def]

omit [LinearOrder P] [Zero P] [LinearOrder Q] [Zero Q] [DecidableEq α] in
/-- The nodes of queues that are known to the log are announced. -/
theorem Known.announced {sl : MapSlicer P Q α} {s : MapState Q α (ν × List NodeEvent)}
    (hK : Known Logged s (Slicer.liveData sl.queue.links)) : Announced (some sl) s.nodes.2 where
  once := by
    rw [← Multiset.coe_nodup, coe_allNodes]
    exact nodup_nodes hK.nodup
  balance_eq nd := by
    rw [hK.reg.1 nd, ← Multiset.coe_count, coe_allNodes]
    rfl
  earlier := hK.reg.2

/-! ## Links deleted in silence

The exception, and the condition on a step under which it is not reached: no entry is added that
fits exactly between two of its owner.
-/

/-- The loop of `map_data_add` goes past the entry. -/
def passes (ops : SliceOps Q) (cur : Slice Q) (e : MapEntry Q α) : Bool :=
  0 < sliceCmp ops cur e.slice

/-- The loop stops at an entry that overlaps the new one. -/
def Blocked (ops : SliceOps Q) (cur : MapEntry Q α) (es : List (MapEntry Q α)) : Prop :=
  ∃ b ∈ (es.dropWhile (passes ops cur.slice)).head?, sliceCmp ops cur.slice b.slice = 0

/-- The new entry fits between two entries of its owner, one behind the other in the queue: it
begins right after the end of the one and ends right before the begin of the other. -/
def Bridged (ops : SliceOps Q) (cur : MapEntry Q α) (es : List (MapEntry Q α)) : Prop :=
  ∃ a ∈ (es.takeWhile (passes ops cur.slice)).getLast?,
    ∃ b ∈ (es.dropWhile (passes ops cur.slice)).head?, sliceCmp ops cur.slice b.slice < 0 ∧
      a.data = cur.data ∧ ops.cmp cur.slice.lo a.slice.hi = 1 ∧
      b.data = cur.data ∧ ops.cmp b.slice.lo cur.slice.hi = 1

/-- The new entry can be added to the queues, one after the other: it fits between no two
entries of its owner until an entry is found that overlaps it. -/
def Addable (ops : SliceOps Q) (cur : MapEntry Q α) : List (Option (MapQueue Q α)) → Prop
  | [] => True
  | a :: as => ¬ Bridged ops cur (MapQueue.entries a) ∧
    (Blocked ops cur (MapQueue.entries a) ∨ Addable ops cur as)

instance (ops : SliceOps Q) (cur : MapEntry Q α) (es : List (MapEntry Q α)) :
    Decidable (Blocked ops cur es) :=
  inferInstanceAs (Decidable (∃ b ∈ (es.dropWhile (passes ops cur.slice)).head?, _))

instance (ops : SliceOps Q) (cur : MapEntry Q α) (es : List (MapEntry Q α)) :
    Decidable (Bridged ops cur es) :=
  inferInstanceAs (Decidable (∃ a ∈ (es.takeWhile (passes ops cur.slice)).getLast?,
    ∃ b ∈ (es.dropWhile (passes ops cur.slice)).head?, _))

instance decidableAddable (ops : SliceOps Q) (cur : MapEntry Q α) :
    ∀ as, Decidable (Addable ops cur as)
  | [] => inferInstanceAs (Decidable True)
  | a :: as =>
    haveI := decidableAddable ops cur as
    inferInstanceAs (Decidable (¬ Bridged ops cur (MapQueue.entries a) ∧
      (Blocked ops cur (MapQueue.entries a) ∨ Addable ops cur as)))

/-- The queues that `map_add` visits, in that order. -/
def mapVisited (keys : SliceOps P) (m : Map P Q α) (key : Slice P) : List (Option (MapQueue Q α)) :=
  match m with
  | none => []
  | some sl => sl.visited keys key.lo key.hi

/-- The act deletes no link in silence. -/
def MapAct.Heard (ops : SliceOps Q) (keys : SliceOps P) (m : Map P Q α) : MapAct P Q α → Prop
  | .add key dkey ptr => Addable ops ⟨dkey, ptr⟩ (mapVisited keys m key)
  | .del _ _ _ => True
  | .glueNull => True

/-- Each act of a run deletes no link in silence. -/
def HeardRun [TreeShape P] (ops : SliceOps Q) (h : MapHandlers ν α) (keys : SliceOps P) :
    List (MapAct P Q α) → Map P Q α → MapState Q α ν → Prop
  | [], _, _ => True
  | a :: as, m, s => a.Heard ops keys m ∧
    ∀ m' s', a.exec ops h keys m s = some (m', s') → HeardRun ops h keys as m' s'

section Data

variable {R : ν → Multiset (MapNode × α) → Prop} {ops : SliceOps Q} {h : MapHandlers ν α}
  {s : MapState Q α ν} {L : Multiset (Option (MapQueue Q α))} {cur : MapEntry Q α}

omit [DecidableEq α] in
/-- Where the loop stops. -/
theorem split_passes {q : MapQueue Q α} {A B : List (Link (MapEntry Q α))}
    (hl : q.queue.links = A ++ B) (hA : ∀ a ∈ A, 0 < sliceCmp ops cur.slice a.val.slice)
    (hB : ∀ b ∈ B.head?, ¬ 0 < sliceCmp ops cur.slice b.val.slice) :
    q.queue.vals.takeWhile (passes ops cur.slice) = A.map Link.val ∧
      q.queue.vals.dropWhile (passes ops cur.slice) = B.map Link.val := by
  have hpass : ∀ e ∈ A.map Link.val, passes ops cur.slice e = true := by
    intro e he
    obtain ⟨a, ha, rfl⟩ := List.mem_map.mp he
    simpa [passes] using hA a ha
  have hv : q.queue.vals = A.map Link.val ++ B.map Link.val := by
    rw [Queue.vals, hl, List.map_append]
  rw [hv, List.takeWhile_append_of_pos hpass, List.dropWhile_append_of_pos hpass]
  cases B with
  | nil => simp
  | cons b B =>
    have hb : ¬ passes ops cur.slice b.val = true := by simpa [passes] using hB b rfl
    rw [List.map_cons, List.takeWhile_cons_of_neg hb, List.dropWhile_cons_of_neg hb]
    simp

/-- `map_data_add` to a queue, heard by the handlers unless the new entry fits between two
entries of its owner. -/
theorem mapDataInsert_known (hdup : ∀ k, ops.dup k = k) (hR : h.Tracks R) {q : MapQueue Q α}
    (hL : Known R s (some q ::ₘ L)) (hb : ¬ Bridged ops cur q.queue.vals) :
    Known R (mapDataInsert ops h q cur s).2 (some (mapDataInsert ops h q cur s).1 ::ₘ L) ∧
      (Blocked ops cur q.queue.vals → (mapDataInsert ops h q cur s).2.cross.isSome) := by
  have hreg : R s.nodes (q.regs + (L.map regsOf).sum) := by simpa [regsOf] using hL.reg
  rcases mapDataInsert_splice (h := h) cur hdup hR hreg with
    ⟨A, b, B, -, -, -, he⟩ | ⟨A, B, q', n', hl, hA, hB, he, hsp⟩
  · rw [he]
    exact ⟨hL.setCross, fun _ => rfl⟩
  · rw [he]
    obtain ⟨htake, hdrop⟩ := split_passes hl hA fun b hb => not_lt.mpr (hB b hb).le
    obtain ⟨hid, A', B', l, r, i, rfl, rfl, -, hleft, hright, hreg' | ⟨a, b, rfl, rfl, -⟩⟩ := hsp
    · refine ⟨hL.replace hid hreg', fun hbl => ?_⟩
      obtain ⟨e, he, hz⟩ := hbl
      rw [hdrop, List.head?_map] at he
      obtain ⟨b, hb, rfl⟩ := Option.map_eq_some_iff.mp he
      exact absurd hz (hB b hb).ne
    · -- the two neighbours are there
      refine absurd ⟨a.val, ?_, b.val, ?_, hB b (by simp), (hleft a rfl).1, (hleft a rfl).2,
        (hright b rfl).1, (hright b rfl).2⟩ hb
      · rw [htake]
        simp
      · rw [hdrop]
        simp

/-- `map_data_add` on a copy of the queue `a`. -/
theorem mapDataAdd_known (cur : MapEntry Q α) (hdup : ∀ k, ops.dup k = k) (hR : h.Tracks R)
    {a c : Option (MapQueue Q α)} (hcopy : Copy a c) (hL : Known R s (c ::ₘ L))
    (hb : s.cross.isSome ∨ ¬ Bridged ops cur (MapQueue.entries a)) :
    ∃ c' s', mapDataAdd ops h c ⟨cur.slice, some cur.data⟩ s = (c', s') ∧
      Known R s' (c' ::ₘ L) ∧
      (s.cross.isSome ∨ Blocked ops cur (MapQueue.entries a) → s'.cross.isSome) := by
  simp only [mapDataAdd]
  by_cases hs : s.cross.isSome
  · rw [if_pos hs]
    exact ⟨c, s, rfl, hL, fun _ => hs⟩
  · rw [if_neg hs]
    obtain ⟨q, s₁, hq, hL₁, hv, -, -⟩ := queueOrNew_known hL
    rw [hq]
    have hva : q.queue.vals = MapQueue.entries a := hv.trans hcopy.entries
    obtain ⟨hK, hblock⟩ := mapDataInsert_known hdup hR hL₁ (hva ▸ hb.resolve_left hs)
    exact ⟨_, _, rfl, hK, fun h' => hblock (hva ▸ h'.resolve_left hs)⟩

open Slicer in
/-- `map_add` owes the slicer that it is heard. -/
theorem keeps_add (hdup : ∀ k, ops.dup k = k) (hR : h.Tracks R) (cur : MapEntry Q α) :
    Keeps (mapDataOps ops h) (mapDataAdd ops h) ⟨cur.slice, some cur.data⟩ (Known R)
      fun s as => s.cross.isSome ∨ Addable ops cur as where
  dup := by
    intro s a L hL
    obtain ⟨hK, -, hcross⟩ := mapDataDup_known hR hL
    refine ⟨hK, fun as h' => h'.imp (fun hs => ?_) id⟩
    exact (congrArg Option.isSome hcross).trans hs
  op := by
    intro s a L as hT hL
    obtain ⟨hK, hcopy, hcross⟩ := mapDataDup_known hR hL
    have hT' : (mapDataDup h a s).2.cross.isSome ∨ Addable ops cur (a :: as) := by
      rw [hcross]
      exact hT
    obtain ⟨c', s', he, hK', hblock⟩ := mapDataAdd_known cur hdup hR hcopy hK
      (hT'.imp id And.left)
    have he' : (mapDataAdd ops h ((mapDataOps ops h).dup a s).1 ⟨cur.slice, some cur.data⟩
        ((mapDataOps ops h).dup a s).2) = (c', s') := he
    rw [he']
    refine ⟨hK', ?_⟩
    rcases hT' with hs | ⟨-, hbl | hrest⟩
    · exact Or.inl (hblock (Or.inl hs))
    · exact Or.inl (hblock (Or.inr hbl))
    · exact Or.inr hrest
  free := by
    intro s q L hL
    obtain ⟨hK, hcross⟩ := mapDataFree_known hR hL
    refine ⟨hK, fun as h' => h'.imp (fun hs => ?_) id⟩
    exact (congrArg Option.isSome hcross).trans hs
  null := Known.null.mp

open Slicer in
/-- `map_del` keeps the nodes of the cross map known, whatever is deleted. -/
theorem keeps_del (hR : h.Tracks R) (x : MapArg Q α) :
    Keeps (mapDataOps ops h) (mapDataDel ops h) x (Known R) fun _ _ => True where
  dup hL := ⟨(mapDataDup_known hR hL).1, fun _ h' => h'⟩
  op := by
    intro s a L as _ hL
    obtain ⟨c', s', he, hK', -⟩ := mapDataDel_known ops hR x (mapDataDup_known hR hL).1
    have he' : (mapDataDel ops h ((mapDataOps ops h).dup a s).1 x
        ((mapDataOps ops h).dup a s).2) = (c', s') := he
    rw [he']
    exact ⟨hK', trivial⟩
  free hL := ⟨(mapDataFree_known hR hL).1, fun _ h' => h'⟩
  null := Known.null.mp

end Data

/-! ## Runs

Under this condition the log is balanced after any run, whether or not crossings were found.
-/

/-- The handlers know the queues of a map. -/
def MapKnown (R : ν → Multiset (MapNode × α) → Prop) (m : Map P Q α) (s : MapState Q α ν) : Prop :=
  ∃ sl, m = some sl ∧ Known R s (Slicer.liveData sl.queue.links)

section Run

variable [TreeShape P] {R : ν → Multiset (MapNode × α) → Prop} {ops : SliceOps Q}
  {h : MapHandlers ν α} {keys : SliceOps P}

/-- One act. -/
theorem MapAct.exec_known (hdup : ∀ k, ops.dup k = k) (hR : h.Tracks R) {act : MapAct P Q α}
    {m m' : Map P Q α} {s s' : MapState Q α ν} (hm : MapKnown R m s) (hact : act.Heard ops keys m)
    (he : act.exec ops h keys m s = some (m', s')) : MapKnown R m' s' := by
  obtain ⟨sl, rfl, hK⟩ := hm
  cases act with
  | add key dkey ptr =>
    simp only [exec, mapAdd, hdup] at he
    obtain ⟨⟨sl', s₁⟩, hins, heq⟩ := Option.map_eq_some_iff.mp he
    obtain ⟨rfl, rfl⟩ := Prod.mk.inj heq
    exact ⟨sl', rfl, Slicer.applyChange_keeps (keeps_add hdup hR ⟨dkey, ptr⟩) _ (Or.inr hact)
      hK.setCross hins⟩
  | del key dkey ptr =>
    simp only [exec, mapDel] at he
    obtain ⟨⟨sl', s₁⟩, hdel, heq⟩ := Option.map_eq_some_iff.mp he
    obtain ⟨rfl, rfl⟩ := Prod.mk.inj heq
    exact ⟨sl', rfl, Slicer.applyChange_keeps (keeps_del hR _) _ trivial hK hdel⟩
  | glueNull =>
    obtain ⟨rfl, rfl⟩ := Prod.mk.inj (Option.some.inj he)
    exact ⟨_, rfl, Slicer.glueNull_keeps (d := mapDataOps ops h) Known.null
      (fun hL => (mapDataFree_known hR hL).1) hK⟩

/-- The nodes stay known in runs in which each act is heard. -/
theorem runMap_known (hdup : ∀ k, ops.dup k = k) (hR : h.Tracks R) (acts : List (MapAct P Q α))
    {m m' : Map P Q α} {s s' : MapState Q α ν} (hm : MapKnown R m s)
    (hheard : HeardRun ops h keys acts m s) (he : runMap ops h keys acts m s = some (m', s')) :
    MapKnown R m' s' := by
  refine runMap_keeps (I := MapKnown R) (fun hm hheard he => ?_) acts hm hheard he
  exact ⟨MapAct.exec_known hdup hR hm hheard.1 he, hheard.2 _ _ he⟩

end Run

/-- **Nodes.** In every run of `map_add`, `map_del` and `map_glue_null` on a map of addresses and
times in which no link is deleted in silence, the nodes announced and not withdrawn are those of
the map. -/
theorem nodes_announced [TreeShape ℕ] (h : MapHandlers ν ℕ) (acts : List (MapAct ℕ ℕ ℕ))
    {m : Map ℕ ℕ ℕ} {s₀ s : MapState ℕ ℕ (ν × List NodeEvent)} (hlog : s₀.nodes.2 = [])
    (hheard : HeardRun timeOps h.logged inetOps acts inetMapInit s₀)
    (hrun : runMap timeOps h.logged inetOps acts inetMapInit s₀ = some (m, s)) :
    Announced m s.nodes.2 := by
  have hempty : Logged s₀.nodes (0 : Multiset (MapNode × ℕ)) := by
    refine ⟨fun nd => by simp [balance, hlog], fun log' hs nd => ?_⟩
    rw [hlog, List.suffix_nil] at hs
    simp [balance, hs]
  have hok : MapOK Logged inetDom inetWhole (fun _ : Span ℕ => True)
      (inetSlicerNew (MapQueue ℕ ℕ)) s₀ := mapOK_init inetOps_lawful Slicer.inetWhole_proper hempty
  have hinit : MapKnown Logged inetMapInit s₀ := ⟨_, rfl, hok.live.known⟩
  obtain ⟨sl, rfl, hK⟩ := runMap_known (fun _ => rfl) h.tracks_logged acts hinit hheard hrun
  exact hK.announced

/-- The state before any call. -/
def silentState : MapState ℕ ℕ (Unit × List NodeEvent) := ⟨0, ((), []), none⟩

/-- Two times of one owner that touch at some addresses, then a part of both taken away. -/
def touchingActs : List (MapAct ℕ ℕ ℕ) :=
  [.add ⟨10, 20⟩ ⟨10, 19⟩ 7, .add ⟨15, 30⟩ ⟨20, 30⟩ 7, .del ⟨12, 16⟩ ⟨15, 22⟩ none, .glueNull]

theorem nodes_announced_touching :
    letI := TreeShape.plain ℕ
    ∃ m s, runMap timeOps (MapHandlers.null ℕ).logged inetOps touchingActs inetMapInit silentState =
        some (m, s) ∧ Announced m s.nodes.2 := by
  let _ := TreeShape.plain ℕ
  have hsome : (runMap timeOps (MapHandlers.null ℕ).logged inetOps touchingActs inetMapInit
      silentState).isSome = true := by decide
  obtain ⟨⟨m, s⟩, hrun⟩ := Option.isSome_iff_exists.mp hsome
  have hfirst : MapAct.Heard timeOps inetOps inetMapInit
      (.add ⟨10, 20⟩ ⟨10, 19⟩ 7 : MapAct ℕ ℕ ℕ) := by
    rw [MapAct.Heard]
    decide
  have hsecond : (MapAct.exec timeOps (MapHandlers.null ℕ).logged inetOps inetMapInit silentState
      (.add ⟨10, 20⟩ ⟨10, 19⟩ 7)).map (fun p =>
        decide (Addable timeOps ⟨⟨20, 30⟩, 7⟩ (mapVisited inetOps p.1 ⟨15, 30⟩))) =
      some true := by decide
  have hheard : HeardRun timeOps (MapHandlers.null ℕ).logged inetOps touchingActs inetMapInit
      silentState := by
    refine ⟨hfirst, fun m₁ s₁ he => ⟨?_, fun _ _ _ => ⟨trivial, fun _ _ _ =>
      ⟨trivial, fun _ _ _ => trivial⟩⟩⟩⟩
    rw [he, Option.map_some, Option.some.injEq, decide_eq_true_eq] at hsecond
    exact hsecond
  exact ⟨m, s, hrun, nodes_announced _ _ rfl hheard hrun⟩

/-- A time that fits between two of the same owner. -/
def bridgeActs : List (MapAct ℕ ℕ ℕ) :=
  [.add ⟨10, 20⟩ ⟨10, 19⟩ 7, .add ⟨10, 20⟩ ⟨21, 30⟩ 7, .add ⟨10, 20⟩ ⟨20, 20⟩ 7]

/-- The link of the later one is deleted, but its node never withdrawn. -/
theorem not_announced_bridge :
    letI := TreeShape.plain ℕ
    ∃ m s, runMap timeOps (MapHandlers.null ℕ).logged inetOps bridgeActs inetMapInit silentState =
        some (m, s) ∧ ¬ Announced m s.nodes.2 := by
  let _ := TreeShape.plain ℕ
  have hnode : (runMap timeOps (MapHandlers.null ℕ).logged inetOps bridgeActs inetMapInit
      silentState).map (fun p => (balance p.2.nodes.2 ⟨2, 1⟩, (allNodes p.1).count ⟨2, 1⟩)) =
      some (1, 0) := by decide
  obtain ⟨⟨m, s⟩, hrun, hpair⟩ := Option.map_eq_some_iff.mp hnode
  obtain ⟨hbal, hcount⟩ := Prod.mk.inj hpair
  refine ⟨m, s, hrun, fun hann => ?_⟩
  have heq := hann.balance_eq ⟨2, 1⟩
  rw [hbal, hcount] at heq
  exact absurd heq (by decide)

end Mbb
