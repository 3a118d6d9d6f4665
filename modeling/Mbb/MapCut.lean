import Mbb.MapQueue
import Mathlib.Tactic.Abel

/-!
# Deletion from the queues of a map, copies and release

`map_data_del` takes the keys of a slice away from their owners: each entry leaves the
parts of it outside the slice. A copy of a queue has the same entries under new links,
and the handlers of the map hear of each link that comes and goes.
-/

namespace Mbb

variable {Q α ν : Type} [LinearOrder Q] [Zero Q] [DecidableEq α]
  {dom : Q → Prop} {ok : Span Q → Prop} {ops : SliceOps Q} {h : MapHandlers ν α}

/-! ## Deleting

The loop over the entries, each of which leaves the parts outside of the slice.
-/

/-- The argument of `map_del` concerns the entries of this owner. -/
def MapArg.Names (x : MapArg Q α) (a : α) : Prop := x.data = none ∨ x.data = some a

instance (x : MapArg Q α) (a : α) : Decidable (x.Names a) := inferInstanceAs (Decidable (_ ∨ _))

/-- What `map_data_del` leaves of an entry. -/
def delParts (ops : SliceOps Q) (x : MapArg Q α) (e : MapEntry Q α) : List (MapEntry Q α) :=
  if x.Names e.data then
    match sliceCross ops e.slice x.slice with
    | none => [e]
    | some (before, _, after) => (before.toList ++ after.toList).map fun sl => ⟨sl, e.data⟩
  else [e]

section Delete

variable {R : ν → Multiset (MapNode × α) → Prop} {q : MapQueue Q α} {x : MapArg Q α}
  {s : MapState Q α ν} {M : Multiset (MapNode × α)} {A B : List (Link (MapEntry Q α))}
  {l : Link (MapEntry Q α)}

omit [DecidableEq α] [LinearOrder Q] [Zero Q] in
/-- A part of a cut gets a link of its own before `l`. -/
theorem insertPart_spec (hR : h.Tracks R) {part : Option (Slice Q)} {d : α}
    (hl : q.queue.links = A ++ l :: B) (hreg : R s.nodes M) :
    ∃ q' n' G, insertPart h q l.id part d s = (q', { s with nodes := n' }) ∧ q'.id = q.id ∧
      q'.queue.links = A ++ G ++ l :: B ∧ G.map Link.val = part.toList.map (⟨·, d⟩) ∧
      R n' (nodesOf q.id G + M) := by
  rcases part with _ | slice
  · exact ⟨q, s.nodes, [], rfl, rfl, by simpa using hl, rfl, by simpa [nodesOf] using hreg⟩
  · have hl' := Queue.links_insertBefore hl ⟨slice, d⟩
    exact ⟨_, _, [⟨q.queue.fresh, ⟨slice, d⟩⟩], rfl, rfl, by simpa using hl', rfl, hR.add hreg⟩

/-- One pass of the loop replaces a link by what is left of its entry. -/
theorem mapDataDelLink_spec (hR : h.Tracks R) (hl : q.queue.links = A ++ l :: B)
    (hreg : R s.nodes (q.regs + M)) :
    ∃ q' n' G, mapDataDelLink ops h x q l s = (q', { s with nodes := n' }) ∧ q'.id = q.id ∧
      q'.queue.links = A ++ G ++ B ∧ G.map Link.val = delParts ops x l.val ∧
      R n' (q'.regs + M) := by
  have hsame : ∃ q' n' G, (q, s) = (q', { s with nodes := n' }) ∧ q'.id = q.id ∧
      q'.queue.links = A ++ G ++ B ∧ G.map Link.val = [l.val] ∧ R n' (q'.regs + M) :=
    ⟨q, s.nodes, [l], rfl, rfl, by simpa using hl, rfl, hreg⟩
  rw [mapDataDelLink, delParts]
  by_cases hn : x.Names l.val.data
  · have hn' : ¬ (x.data.isSome ∧ x.data ≠ some l.val.data) := by
      rcases hn with hn | hn <;> simp [hn]
    rw [if_neg hn', if_pos hn]
    rcases sliceCross ops l.val.slice x.slice with _ | ⟨before, mid, after⟩
    · exact hsame
    · simp only
      -- the handlers see the link withdrawn first; it is deleted last
      rw [MapQueue.regs, hl, nodesOf_append, nodesOf_cons, Multiset.add_cons,
        Multiset.cons_add] at hreg
      obtain ⟨q₁, n₁, G₁, he₁, hid₁, hl₁, hG₁, hr₁⟩ := insertPart_spec (q := q)
        (s := q.handleDel h l.id l.val.data s) (d := l.val.data) hR hl
        (hR.del hreg)
      obtain ⟨q₂, n₂, G₂, he₂, hid₂, hl₂, hG₂, hr₂⟩ := insertPart_spec (q := q₁)
        (s := { q.handleDel h l.id l.val.data s with nodes := n₁ })
        (d := l.val.data) hR hl₁ hr₁
      rw [he₁]
      simp only
      rw [he₂]
      refine ⟨_, n₂, G₁ ++ G₂, rfl, hid₂.trans hid₁, ?_, ?_, ?_⟩
      · rw [MapQueue.deleteLink, Queue.links_deleteLink hl₂, List.append_assoc A]
      · rw [List.map_append, hG₁, hG₂, List.map_append]
      · have hreg' : (q₂.deleteLink l.id).regs = nodesOf q₁.id G₂ + (nodesOf q.id G₁ +
            (nodesOf q.id A + nodesOf q.id B)) := by
          rw [MapQueue.regs, MapQueue.deleteLink, Queue.links_deleteLink hl₂]
          simp only [nodesOf_append, hid₂, hid₁]
          abel
        rw [hreg']
        simpa only [add_assoc] using hr₂
  · have hn' : x.data.isSome ∧ x.data ≠ some l.val.data := by
      rw [MapArg.Names, not_or] at hn
      exact ⟨Option.isSome_iff_ne_none.mpr hn.1, hn.2⟩
    rw [if_pos hn', if_neg hn]
    exact hsame

/-- The loop replaces each link by what is left of its entry. -/
theorem mapDataDelLoop_spec (hR : h.Tracks R) (ls : List (Link (MapEntry Q α))) :
    ∀ {q : MapQueue Q α} {s : MapState Q α ν} {A : List (Link (MapEntry Q α))},
      q.queue.links = A ++ ls → R s.nodes (q.regs + M) →
      ∃ q' n' G, mapDataDelLoop ops h x ls q s = (q', { s with nodes := n' }) ∧ q'.id = q.id ∧
        q'.queue.links = A ++ G ∧ G.map Link.val = (ls.map Link.val).flatMap (delParts ops x) ∧
        R n' (q'.regs + M) := by
  induction ls with
  | nil => exact fun {q s A} hl hreg => ⟨q, s.nodes, [], rfl, rfl, hl, rfl, hreg⟩
  | cons l ls ih =>
    intro q s A hl hreg
    obtain ⟨q₁, n₁, G₁, he₁, hid₁, hl₁, hG₁, hr₁⟩ := mapDataDelLink_spec (x := x)
      hR hl hreg
    obtain ⟨q', n', G, he, hid, hl', hG, hr⟩ := ih (s := { s with nodes := n₁ }) hl₁ hr₁
    refine ⟨q', n', G₁ ++ G, ?_, hid.trans hid₁, by rw [hl', List.append_assoc], ?_, hr⟩
    · rw [mapDataDelLoop, he₁]
      exact he
    · rw [List.map_append, hG₁, hG]
      rfl

/-! ## The owners after a deletion

The parts of an entry have its owner, and no key of the slice has one.
-/

/-- The entries `es` lie in `e`, in order, and have its keys outside of the slice deleted. -/
structure LeftOf (dom : Q → Prop) (ok : Span Q → Prop) (x : MapArg Q α) (e : MapEntry Q α)
    (es : List (MapEntry Q α)) : Prop where
  /-- in order -/
  ordered : Ordered ok es
  /-- before what `e` is before -/
  before : ∀ b : Span Q, e.slice.Before b → ∀ g ∈ es, g.slice.Before b
  /-- after what `e` is after -/
  after : ∀ b : Span Q, b.Before e.slice → ∀ g ∈ es, b.Before g.slice
  /-- the owner -/
  owner : ∀ p, dom p → ownerAt es p =
    if e.slice.Mem p ∧ ¬ (x.Names e.data ∧ x.slice.Mem p) then some e.data else none

/-- An entry of another owner, or outside of the slice, is left whole. -/
theorem LeftOf.whole {e : MapEntry Q α} (he : ok e.slice)
    (h : x.Names e.data → ¬ e.slice.Meets x.slice) : LeftOf dom ok x e [e] := by
  refine ⟨Ordered.cons.mpr ⟨he, .nil, by simp⟩, fun b hb g hg => ?_, fun b hb g hg => ?_,
    fun p _ => ?_⟩
  · obtain rfl := List.mem_singleton.mp hg
    exact hb
  · obtain rfl := List.mem_singleton.mp hg
    exact hb
  · simp only [ownerAt_cons, ownerAt_nil]
    refine if_congr ?_ rfl rfl
    exact ⟨fun hp => ⟨hp, fun hx' => h hx'.1 (.of_mem hp hx'.2)⟩, fun hp => hp.1⟩

/-- An entry the slice cuts is left with the tiles on both sides of the slice. -/
theorem LeftOf.cut {e : MapEntry Q α} {before after : Option (Span Q)} {mid : Span Q}
    (htiles : Tiles dom e.slice.lo e.slice.hi (before.toList ++ mid :: after.toList))
    (hn : x.Names e.data) (hok : ∀ sl, sl ∈ before ∨ sl ∈ after → ok sl)
    (hmid : ∀ p, mid.Mem p ↔ e.slice.Mem p ∧ x.slice.Mem p)
    (hbefore : ∀ sl ∈ before, sl.Before x.slice) (hafter : ∀ sl ∈ after, x.slice.Before sl) :
    LeftOf dom ok x e ((before.toList ++ after.toList).map (⟨·, e.data⟩)) := by
  -- the parts are the tiles without the middle one
  have hsub : (before.toList ++ after.toList).Sublist (before.toList ++ mid :: after.toList) :=
    List.Sublist.append_left (List.sublist_cons_self _ _) _
  have hmem : ∀ {g : MapEntry Q α},
      g ∈ (before.toList ++ after.toList).map (⟨·, e.data⟩) →
      g.slice ∈ before.toList ++ mid :: after.toList ∧ (g.slice ∈ before ∨ g.slice ∈ after) := by
    intro g hg
    obtain ⟨sl, hsl, rfl⟩ := List.mem_map.mp hg
    refine ⟨hsub.subset hsl, ?_⟩
    simpa using hsl
  have hout : ∀ {sl : Span Q}, sl ∈ before ∨ sl ∈ after → ∀ {p}, sl.Mem p → ¬ x.slice.Mem p := by
    rintro sl (hsl | hsl) p hm
    · exact (hbefore sl hsl).not_mem hm
    · exact fun hx' => (hafter sl hsl).not_mem hx' hm
  have hord : Ordered ok ((before.toList ++ after.toList).map
      fun sl => (⟨sl, e.data⟩ : MapEntry Q α)) :=
    ⟨fun g hg => hok _ (hmem hg).2, List.pairwise_map.mpr (htiles.pairwise.sublist hsub)⟩
  refine ⟨hord, fun b hb g hg => ?_, fun b hb g hg => ?_, fun p hp => ?_⟩
  · obtain ⟨h0, hle⟩ := htiles.le_hi hb.1 _ (hmem hg).1
    exact ⟨h0, hb.2.1, lt_of_le_of_lt hle hb.2.2⟩
  · obtain ⟨h0, hle⟩ := htiles.lo_le hb.2.1 _ (hmem hg).1
    exact ⟨hb.1, h0, lt_of_lt_of_le hb.2.2 hle⟩
  · by_cases hc : e.slice.Mem p ∧ ¬ (x.Names e.data ∧ x.slice.Mem p)
    · rw [if_pos hc]
      obtain ⟨sl, hsl, hslm⟩ := htiles.cover hp hc.1
      have hne : sl ≠ mid := fun h => hc.2 ⟨hn, ((hmid p).mp (h ▸ hslm)).2⟩
      have hpart : sl ∈ before.toList ++ after.toList := by
        simp only [List.mem_append, List.mem_cons] at hsl ⊢
        tauto
      exact hord.ownerAt_of_mem (e := ⟨sl, e.data⟩) (List.mem_map_of_mem hpart) hslm
    · rw [if_neg hc, ownerAt_eq_none]
      intro g hg hgm
      exact hc ⟨htiles.sub (hmem hg).1 hgm, fun hx' => hout (hmem hg).2 hgm hx'.2⟩

theorem delParts_leftOf (hk : ops.Cuts dom ok) {e : MapEntry Q α} (he : ok e.slice)
    (hx : ok x.slice) : LeftOf dom ok x e (delParts ops x e) := by
  have hpe := hk.proper he
  rw [delParts]
  by_cases hn : x.Names e.data
  · rw [if_pos hn]
    by_cases hm : e.slice.Meets x.slice
    · obtain ⟨before, mid, after, hcross, htiles, hmid, hbefore, hafter⟩ :=
        hk.lawful.sliceCross_some hpe (hk.fits he hx) hm
      obtain ⟨hokb, hoka⟩ := hk.parts he hx hcross
      rw [hcross]
      exact .cut htiles hn (fun sl hsl => hsl.elim (hokb sl) (hoka sl)) hmid hbefore hafter
    · rw [hk.lawful.sliceCross_none hpe (hk.proper hx) hm]
      exact .whole he fun _ => hm
  · rw [if_neg hn]
    exact .whole he fun hn' => absurd hn' hn

/-- The queue `es'` is `es` without the keys the argument of `map_del` takes away. -/
def Deleted (dom : Q → Prop) (x : MapArg Q α) (es es' : List (MapEntry Q α)) : Prop :=
  ∀ p, dom p → ownerAt es' p =
    if x.slice.Mem p ∧ ∀ a ∈ ownerAt es p, x.Names a then none else ownerAt es p

/-- Deletion keeps the order and takes away the keys of the slice. -/
theorem flatMap_delParts (hk : ops.Cuts dom ok) (hx : ok x.slice) (es : List (MapEntry Q α)) :
    Ordered ok es → Ordered ok (es.flatMap (delParts ops x)) ∧
      (∀ b : Span Q, (∀ e ∈ es, b.Before e.slice) →
        ∀ g ∈ es.flatMap (delParts ops x), b.Before g.slice) ∧
      Deleted dom x es (es.flatMap (delParts ops x)) := by
  induction es with
  | nil => exact fun _ => ⟨.nil, by simp, fun p _ => by simp⟩
  | cons e es ih =>
    intro ho
    obtain ⟨he, hes, hlt⟩ := Ordered.cons.mp ho
    obtain ⟨ho', hbef', hown'⟩ := ih hes
    obtain ⟨hoe, hae, hbe, howne⟩ := delParts_leftOf (x := x) hk he hx
    rw [List.flatMap_cons]
    have hord : Ordered ok (delParts ops x e ++ es.flatMap (delParts ops x)) :=
      Ordered.append.mpr ⟨hoe, ho', fun a ha =>
        hbef' a.slice fun b hb => hae b.slice (hlt b hb) a ha⟩
    refine ⟨hord, ?_, ?_⟩
    · intro b hb g hg
      rcases List.mem_append.mp hg with hg | hg
      · exact hbe b (hb e List.mem_cons_self) g hg
      · exact hbef' b (fun e' he' => hb e' (List.mem_cons_of_mem _ he')) g hg
    · intro p hp
      rw [ownerAt_append, howne p hp, hown' p hp, ownerAt_cons]
      by_cases hm : e.slice.Mem p
      · -- the key was in `e`, so in none of the others
        have hnone : ownerAt es p = none := ownerAt_eq_none.mpr fun b hb hbm =>
          (hlt b hb).not_mem hm hbm
        by_cases hd : x.Names e.data ∧ x.slice.Mem p
        · simp [hm, hd.1, hd.2, hnone]
        · have hd' : ¬ (x.slice.Mem p ∧ x.Names e.data) := fun h => hd ⟨h.2, h.1⟩
          simp [hm, hd, hd', hnone]
      · simp [hm]

end Delete

/-! ## Copying and releasing -/

section Copy

variable {R : ν → Multiset (MapNode × α) → Prop} {M : Multiset (MapNode × α)}

omit [LinearOrder Q] [Zero Q] [DecidableEq α] in
/-- The loop of `map_data_dup` appends the entries. -/
theorem mapDataDupLoop_spec (hR : h.Tracks R) (es : List (MapEntry Q α)) :
    ∀ {q : MapQueue Q α} {s : MapState Q α ν}, R s.nodes (q.regs + M) →
      ∃ q' n', mapDataDupLoop h es q s = (q', { s with nodes := n' }) ∧ q'.id = q.id ∧
        q'.queue.vals = q.queue.vals ++ es ∧ R n' (q'.regs + M) := by
  induction es with
  | nil => exact fun {q s} hreg => ⟨q, s.nodes, rfl, rfl, by simp, hreg⟩
  | cons e es ih =>
    intro q s hreg
    have hl := Queue.links_pushTail q.queue e
    have hreg₁ : R (h.nodeAdd ⟨q.id, q.queue.fresh⟩ e.data s.nodes)
        (MapQueue.regs ⟨q.id, q.queue.pushTail e⟩ + M) := by
      rw [MapQueue.regs_insert (q := q) ⟨q.id, q.queue.pushTail e⟩ rfl
        (List.append_nil _).symm hl, Multiset.cons_add]
      exact hR.add hreg
    obtain ⟨q', n', he, hid, hv, hr⟩ := ih (q := ⟨q.id, q.queue.pushTail e⟩)
      (s := q.handleAdd h q.queue.fresh e.data s) hreg₁
    refine ⟨q', n', he, hid, ?_, hr⟩
    rw [hv, Queue.vals, Queue.vals, hl]
    simp

omit [LinearOrder Q] [Zero Q] [DecidableEq α] in
/-- `map_data_dup` makes a queue of its own with the same entries. -/
theorem mapDataDup_some (hR : h.Tracks R) (q : MapQueue Q α) {s : MapState Q α ν}
    (hreg : R s.nodes M) :
    ∃ q' n', mapDataDup h (some q) s = (some q', ⟨s.fresh + 1, n', s.cross⟩) ∧ q'.id = s.fresh ∧
      q'.queue.vals = q.queue.vals ∧ R n' (q'.regs + M) := by
  obtain ⟨q', n', he, hid, hv, hr⟩ := mapDataDupLoop_spec (M := M) hR q.queue.vals
    (q := (queueNew s).1) (s := (queueNew s).2) (by simpa [queueNew, MapQueue.regs, nodesOf])
  refine ⟨q', n', ?_, hid, hv, hr⟩
  simp only [mapDataDup]
  rw [he]
  rfl

omit [LinearOrder Q] [Zero Q] [DecidableEq α] in
/-- `map_data_free` withdraws the nodes of the queue. -/
theorem mapDataFree_spec (hR : h.Tracks R) {q : MapQueue Q α} {s : MapState Q α ν}
    (hreg : R s.nodes (q.regs + M)) :
    ∃ n', mapDataFree h q s = { s with nodes := n' } ∧ R n' M := by
  have hloop : ∀ (ls : List (Link (MapEntry Q α))) {s : MapState Q α ν},
      R s.nodes (nodesOf q.id ls + M) →
      ∃ n', ls.foldl (fun s l => q.handleDel h l.id l.val.data s) s = { s with nodes := n' } ∧
        R n' M := by
    intro ls
    induction ls with
    | nil => exact fun {s} hreg => ⟨s.nodes, rfl, by simpa [nodesOf] using hreg⟩
    | cons l ls ih =>
      intro s hreg
      rw [nodesOf_cons, Multiset.cons_add] at hreg
      obtain ⟨n', he, hr⟩ := ih (s := q.handleDel h l.id l.val.data s) (hR.del hreg)
      exact ⟨n', he, hr⟩
  exact hloop q.queue.links hreg

end Copy

end Mbb
