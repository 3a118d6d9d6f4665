import Mbb.OfficeLinks

/-!
# Gateway links in memory

A link is known by its id in a table of its own, and is in the queues of its gateway. The
two agree; one link at a time changes.
-/

namespace Mbb

namespace GwState

variable {s st : GwState} {id k : Int} {gl : MbbGwLink}

/-! ## One gateway -/

theorem linkById_cons (gl : MbbGwLink) (queues : MbbGateway) (k : Int) :
    linkById ⟨queues, gl :: s.links⟩ k = if gl.id = k then some gl else s.linkById k := by
  rw [linkById, List.find?_cons]
  by_cases hk : gl.id = k
  · rw [decide_eq_true hk, if_pos hk]
  · rw [decide_eq_false hk, if_neg hk]
    rfl

theorem linkById_filter (queues : MbbGateway) (hk : k ≠ id) :
    linkById ⟨queues, s.links.filter fun cur => decide (cur.id ≠ id)⟩ k = s.linkById k := by
  rw [linkById, linkById, List.find?_filter]
  congr 1
  funext cur
  by_cases hcur : cur.id = k
  · rw [decide_eq_true hcur, decide_eq_true (p := _ ∧ _)]
    refine ⟨decide_eq_true fun h => hk (hcur.symm.trans h), rfl⟩
  · rw [decide_eq_false hcur, decide_eq_false (p := _ ∧ _)]
    exact fun h => Bool.false_ne_true h.2

/-- Writing one link does not change which has another id. -/
theorem find?_write_of_ne {gl' : MbbGwLink} (hk : k ≠ gl'.id) (l : List MbbGwLink) :
    (l.map fun cur => if cur.id = gl'.id then gl' else cur).find?
      (fun gl => decide (gl.id = k)) = l.find? fun gl => decide (gl.id = k) := by
  induction l with
  | nil => rfl
  | cons c l ih =>
    rw [List.map_cons, List.find?_cons, List.find?_cons, ih]
    by_cases hc : c.id = gl'.id
    · rw [if_pos hc, hc, decide_eq_false fun h => hk h.symm]
    · rw [if_neg hc]

/-- Writing one link that is in the list. -/
theorem find?_write_self {gl' : MbbGwLink} {l : List MbbGwLink}
    (hgl : (l.find? fun gl => decide (gl.id = gl'.id)) = some gl) :
    (l.map fun cur => if cur.id = gl'.id then gl' else cur).find?
      (fun gl => decide (gl.id = gl'.id)) = some gl' := by
  -- by induction on the list, up to the first link with the id
  induction l with
  | nil => cases hgl
  | cons c l ih =>
    rw [List.map_cons, List.find?_cons]
    by_cases hc : c.id = gl'.id
    · rw [if_pos hc, decide_eq_true rfl]
    · rw [if_neg hc, decide_eq_false hc]
      rw [List.find?_cons, decide_eq_false hc] at hgl
      exact ih hgl

theorem linkById_write (queues : MbbGateway) (gl' : MbbGwLink)
    (hgl : s.linkById gl'.id = some gl) (k : Int) :
    linkById ⟨queues, s.links.map fun cur => if cur.id = gl'.id then gl' else cur⟩ k =
      if k = gl'.id then some gl' else s.linkById k := by
  by_cases hk : k = gl'.id
  · rw [if_pos hk, hk]
    exact find?_write_self hgl
  · rw [if_neg hk]
    exact find?_write_of_ne hk s.links

/-- What `gwlink_mod_time` does to the links when it comes to the database. -/
theorem gwlinkModTime_links {start stop : Int} (hgl : s.linkById id = some gl)
    (h : s.gwlinkModTime id start stop = (none, st)) (k : Int) :
    st.linkById k = if k = id then
      some { gl with start := timeOr start gl.start, stop := timeOr stop gl.stop }
      else s.linkById k := by
  have hid : gl.id = id := (mem_of_linkById hgl).2
  rw [gwlinkModTime] at h
  split at h
  · cases h
  · simp only [hgl] at h
    split at h
    · cases h
    · rw [gwlinkSwapTime] at h
      split at h
      · obtain ⟨-, rfl⟩ := Prod.mk.inj h
        subst hid
        exact linkById_write _
          { gl with start := timeOr start gl.start, stop := timeOr stop gl.stop } hgl k
      · cases (Prod.mk.inj h).1

end GwState

namespace Records

variable {mem : Records} {id gw k : Int} {g : GatewayRec} {st : GwState}

/-! ## The table of links -/

/-- A link of the table, with its interface and times. -/
def linkView (mem : Records) (id : Int) : Option (GwLinkRec × MbbGwLink) :=
  (mem.gwlinkById id).map fun r => (r.1, r.2.2)

/-- The table of links and the gateways agree. -/
structure GwOk (mem : Records) : Prop where
  /-- each gateway -/
  inv : ∀ {gw g}, mem.gateways.get? gw = some g → g.st.Inv
  /-- a link of a gateway is in the table -/
  belongs : ∀ {gw g id gl}, mem.gateways.get? gw = some g → g.st.linkById id = some gl →
    ∃ op, mem.gwlinks.get? id = some ⟨op, gw⟩
  /-- a link of the table is one of its gateway -/
  found : ∀ {id r}, mem.gwlinks.get? id = some r → ∃ gl, mem.linkView id = some (r, gl)

theorem gwlinkById_eq_some {r : GwLinkRec} {gl : MbbGwLink} :
    mem.gwlinkById id = some (r, g, gl) ↔
      mem.gwlinks.get? id = some r ∧ mem.gateways.get? r.gw = some g ∧
        g.st.linkById id = some gl := by
  rw [gwlinkById]
  constructor
  · intro h
    obtain ⟨r', hr', h⟩ := Option.bind_eq_some_iff.mp h
    obtain ⟨g', hg', h⟩ := Option.bind_eq_some_iff.mp h
    obtain ⟨gl', hgl', h⟩ := Option.map_eq_some_iff.mp h
    cases h
    exact ⟨hr', hg', hgl'⟩
  · rintro ⟨hr, hg, hgl⟩
    rw [hr, Option.bind_some, hg, Option.bind_some, hgl, Option.map_some]

theorem linkView_eq {r : GwLinkRec} (hr : mem.gwlinks.get? id = some r)
    (hg : mem.gateways.get? r.gw = some g) :
    mem.linkView id = (g.st.linkById id).map fun gl => (r, gl) := by
  rw [linkView, gwlinkById, hr, Option.bind_some, hg, Option.bind_some, Option.map_map]
  rfl

theorem linkView_eq_none (hr : mem.gwlinks.get? id = none) : mem.linkView id = none := by
  rw [linkView, gwlinkById, hr]
  rfl

/-- Other links do not see a change of the links of a gateway, nor a change of the table. -/
theorem linkView_of_ne {mem' : Records} (hk : mem'.gwlinks.get? k = mem.gwlinks.get? k)
    (hg : mem.gateways.get? gw = some g)
    (hgw : mem'.gateways = mem.gateways.modify gw fun g => { g with st })
    (hst : st.linkById k = g.st.linkById k) : mem'.linkView k = mem.linkView k := by
  cases hr : mem.gwlinks.get? k with
  | none =>
    rw [linkView_eq_none hr, linkView_eq_none (hk.trans hr)]
  | some r =>
    by_cases hrgw : r.gw = gw
    · have hg' : mem'.gateways.get? r.gw = some { g with st } := by
        rw [hgw, Ledger.get?_modify, if_pos hrgw, hg, Option.map_some]
      rw [linkView_eq (hk.trans hr) hg', linkView_eq hr (hrgw ▸ hg), hst]
    · have hg' : mem'.gateways.get? r.gw = mem.gateways.get? r.gw := by
        rw [hgw, Ledger.get?_modify, if_neg hrgw]
      rw [linkView, linkView, gwlinkById, gwlinkById, hk, hr, Option.bind_some, Option.bind_some,
        hg']

/-- A gateway and the table after a change of one link: `v` is what is found of it. -/
theorem GwOk.change (h : mem.GwOk) {mem' : Records} {v : Option (GwLinkRec × MbbGwLink)}
    (hg : mem.gateways.get? gw = some g)
    (hgw : mem'.gateways = mem.gateways.modify gw fun g => { g with st }) (hinv : st.Inv)
    (hk : ∀ k, k ≠ id → mem'.gwlinks.get? k = mem.gwlinks.get? k)
    (hst : ∀ k, k ≠ id → st.linkById k = g.st.linkById k) (hview : mem'.linkView id = v)
    (hfound : ∀ r, mem'.gwlinks.get? id = some r → ∃ gl, v = some (r, gl))
    (hhere : ∀ gl, st.linkById id = some gl → ∃ op, mem'.gwlinks.get? id = some ⟨op, gw⟩)
    (haway : ∀ gw' g' gl, gw' ≠ gw → mem.gateways.get? gw' = some g' →
      g'.st.linkById id ≠ some gl) :
    mem'.GwOk ∧ mem'.linkView = Function.update mem.linkView id v := by
  have hget : ∀ gw' g', mem'.gateways.get? gw' = some g' →
      (gw' = gw ∧ g' = { g with st }) ∨ (gw' ≠ gw ∧ mem.gateways.get? gw' = some g') := by
    intro gw' g' hg'
    rw [hgw, Ledger.get?_modify] at hg'
    by_cases heq : gw' = gw
    · rw [if_pos heq, hg] at hg'
      exact Or.inl ⟨heq, (Option.some.inj hg').symm⟩
    · rw [if_neg heq] at hg'
      exact Or.inr ⟨heq, hg'⟩
  have hother : ∀ k, k ≠ id → mem'.linkView k = mem.linkView k := fun k hne =>
    linkView_of_ne (hk k hne) hg hgw (hst k hne)
  -- each fact for the link and for the others, in the gateway that changes and in the others
  refine ⟨⟨fun {gw' g'} hg' => ?_, fun {gw' g' i gl} hg' hgl => ?_, fun {i r} hr => ?_⟩, ?_⟩
  · rcases hget gw' g' hg' with ⟨-, rfl⟩ | ⟨-, hg'⟩
    · exact hinv
    · exact h.inv hg'
  · by_cases hi : i = id
    · subst hi
      rcases hget gw' g' hg' with ⟨rfl, rfl⟩ | ⟨hne, hg'⟩
      · exact hhere gl hgl
      · exact absurd hgl (haway gw' g' gl hne hg')
    · rw [hk i hi]
      rcases hget gw' g' hg' with ⟨rfl, rfl⟩ | ⟨-, hg'⟩
      · rw [hst i hi] at hgl
        exact h.belongs hg hgl
      · exact h.belongs hg' hgl
  · by_cases hi : i = id
    · subst hi
      obtain ⟨gl, hgl⟩ := hfound r hr
      exact ⟨gl, hview.trans hgl⟩
    · rw [hother i hi]
      rw [hk i hi] at hr
      exact h.found hr
  · funext k
    rw [Function.update_apply]
    by_cases hne : k = id
    · rw [if_pos hne, hne]
      exact hview
    · rw [if_neg hne]
      exact hother k hne

/-- What is found of a link whose gateway is changed. -/
theorem linkView_change {mem' : Records} {r : GwLinkRec} (hr : mem'.gwlinks.get? id = some r)
    (hg : mem.gateways.get? r.gw = some g)
    (hgw : mem'.gateways = mem.gateways.modify r.gw fun g => { g with st }) :
    mem'.linkView id = (st.linkById id).map fun gl => (r, gl) := by
  refine linkView_eq (g := { g with st }) hr ?_
  rw [hgw, Ledger.get?_modify, if_pos rfl, hg, Option.map_some]

/-- A link is in the gateway the table gives it and in no other. -/
theorem GwOk.away (h : mem.GwOk) {r : GwLinkRec} (hr : mem.gwlinks.get? id = some r) :
    ∀ gw' g' gl, gw' ≠ r.gw → mem.gateways.get? gw' = some g' → g'.st.linkById id ≠ some gl := by
  intro gw' g' gl hne hg hgl
  obtain ⟨op, hop⟩ := h.belongs hg hgl
  rw [hr] at hop
  exact hne (congrArg GwLinkRec.gw (Option.some.inj hop)).symm

/-! ## The commands -/

/-- A link with a new id is in no gateway. -/
theorem GwOk.linkById_fresh (h : mem.GwOk) (hid : mem.gwlinks.get? id = none)
    (hg : mem.gateways.get? gw = some g) : g.st.linkById id = none := by
  cases hgl : g.st.linkById id with
  | none => rfl
  | some gl =>
    obtain ⟨op, hop⟩ := h.belongs hg hgl
    rw [hid] at hop
    cases hop

theorem addLink_inv {gl : MbbGwLink} {queues : MbbGateway} (h : st.Inv) (hv : gl.Valid)
    (hfresh : st.linkById gl.id = none) (hadd : mbbGatewayAddLink st.gw gl = (true, queues)) :
    GwState.Inv ⟨queues, gl :: st.links⟩ := by
  have hnone : ¬ (st.linkById gl.id).isSome = true := by rw [hfresh]; exact Bool.false_ne_true
  have hsound := h.addLink hv
  rw [GwState.addLink, if_neg hnone, hadd] at hsound
  rcases hsound with ⟨msg, heq⟩ | ⟨st', heq, hst'⟩
  · cases heq
  · obtain rfl := (Prod.mk.inj heq).2
    exact hst'

theorem GwOk.addLink (h : mem.GwOk) (gl : MbbGwLink) (op : Int) {queues : MbbGateway}
    (hg : mem.gateways.get? gw = some g) (hfresh : mem.gwlinks.get? gl.id = none)
    (hv : gl.Valid) (hadd : mbbGatewayAddLink g.st.gw gl = (true, queues)) {mem' : Records}
    (hmem : mem' = (mem.setGateway gw ⟨queues, gl :: g.st.links⟩).gwlinkJoin gl.id ⟨op, gw⟩) :
    mem'.GwOk ∧
      mem'.linkView = Function.update mem.linkView gl.id (some (⟨op, gw⟩, gl)) := by
  have hst := GwState.linkById_cons (s := g.st) gl queues
  have hother : ∀ k, k ≠ gl.id →
      GwState.linkById ⟨queues, gl :: g.st.links⟩ k = g.st.linkById k := by
    intro k hk
    rw [hst k, if_neg fun heq => hk heq.symm]
  have hk : ∀ k, mem'.gwlinks.get? k = if k = gl.id then some ⟨op, gw⟩ else mem.gwlinks.get? k := by
    intro k
    rw [hmem]
    exact Ledger.get?_put mem.gwlinks gl.id ⟨op, gw⟩ k
  have hrow : mem'.gwlinks.get? gl.id = some ⟨op, gw⟩ := (hk gl.id).trans (if_pos rfl)
  have hgw : mem'.gateways =
      mem.gateways.modify gw fun g' => { g' with st := ⟨queues, gl :: g.st.links⟩ } := by
    rw [hmem]
    rfl
  have hview : mem'.linkView gl.id = some (⟨op, gw⟩, gl) := by
    rw [linkView_change (r := ⟨op, gw⟩) hrow hg hgw, hst, if_pos rfl, Option.map_some]
  refine h.change hg hgw (addLink_inv (h.inv hg) hv (h.linkById_fresh hfresh hg) hadd)
    (fun k hne => (hk k).trans (if_neg hne)) hother hview (fun r hr => ?_) (fun _ _ => ⟨op, hrow⟩)
    fun gw' g' gl' _ hg' hgl' => ?_
  · rw [hrow] at hr
    exact ⟨gl, by rw [Option.some.inj hr]⟩
  · rw [h.linkById_fresh hfresh hg'] at hgl'
    cases hgl'

theorem GwOk.delLink (h : mem.GwOk) {r : GwLinkRec} {gl : MbbGwLink}
    (hgl : mem.gwlinkById id = some (r, g, gl)) {mem' : Records}
    (hmem : mem' = (mem.setGateway r.gw (g.st.delLink id).2).gwlinkDetach id r) :
    mem'.GwOk ∧ mem'.linkView = Function.update mem.linkView id none := by
  obtain ⟨hr, hg, hlink⟩ := gwlinkById_eq_some.mp hgl
  have hdel : (g.st.delLink id).2 = ⟨mbbGatewayDelLink g.st.gw gl,
      g.st.links.filter fun cur => decide (cur.id ≠ id)⟩ := by
    rw [GwState.delLink, hlink]
  have hinv : (g.st.delLink id).2.Inv := by
    rcases GwState.Inv.exec (c := .del id) (h.inv hg) trivial with ⟨msg, heq⟩ | ⟨st', heq, hst'⟩
    · rw [GwState.exec] at heq
      rw [heq]
      exact h.inv hg
    · rw [GwState.exec] at heq
      rw [heq]
      exact hst'
  have hother : ∀ k, k ≠ id → (g.st.delLink id).2.linkById k = g.st.linkById k := by
    intro k hk
    rw [hdel]
    exact GwState.linkById_filter _ hk
  have hk : ∀ k, mem'.gwlinks.get? k =
      if decide (k = id) then none else mem.gwlinks.get? k := by
    intro k
    rw [hmem]
    exact Ledger.get?_drop mem.gwlinks (fun k => decide (k = id)) k
  have hnone : mem'.gwlinks.get? id = none := (hk id).trans (if_pos (decide_eq_true rfl))
  have hkeep : ∀ k, k ≠ id → mem'.gwlinks.get? k = mem.gwlinks.get? k := by
    intro k hne
    rw [hk, if_neg (by rwa [decide_eq_true_iff])]
  have hgw : mem'.gateways =
      mem.gateways.modify r.gw fun g' => { g' with st := (g.st.delLink id).2 } := by
    rw [hmem]
    rfl
  refine h.change hg hgw hinv hkeep hother (linkView_eq_none hnone) (fun r' hr' => ?_)
    (fun gl' hgl' => ?_) (h.away hr)
  · rw [hnone] at hr'
    cases hr'
  · -- the gateway does not have the link any more
    rw [hdel] at hgl'
    obtain ⟨hin, hid⟩ := GwState.mem_of_linkById hgl'
    exact absurd hid (of_decide_eq_true (List.mem_filter.mp hin).2)

theorem GwOk.modTime (h : mem.GwOk) {r : GwLinkRec} {gl : MbbGwLink} {start stop : Int}
    (hgl : mem.gwlinkById id = some (r, g, gl))
    (hmod : g.st.gwlinkModTime id start stop = (none, st)) :
    (mem.setGateway r.gw st).GwOk ∧
      (mem.setGateway r.gw st).linkView = Function.update mem.linkView id
        (some (r, { gl with start := timeOr start gl.start, stop := timeOr stop gl.stop })) := by
  obtain ⟨hr, hg, hlink⟩ := gwlinkById_eq_some.mp hgl
  have hlinks := GwState.gwlinkModTime_links hlink hmod
  have hinv : st.Inv := by
    rcases (h.inv hg).modTime id start stop with ⟨msg, heq⟩ | ⟨st', heq, hst'⟩
    · rw [hmod] at heq
      cases heq
    · rw [hmod] at heq
      obtain rfl := (Prod.mk.inj heq).2
      exact hst'
  have hother : ∀ k, k ≠ id → st.linkById k = g.st.linkById k := by
    intro k hk
    rw [hlinks, if_neg hk]
  have hr' : (mem.setGateway r.gw st).gwlinks.get? id = some r := hr
  have hview : (mem.setGateway r.gw st).linkView id =
      some (r, { gl with start := timeOr start gl.start, stop := timeOr stop gl.stop }) := by
    rw [linkView_change hr' hg rfl, hlinks, if_pos rfl, Option.map_some]
  refine h.change hg rfl hinv (fun k _ => rfl) hother hview (fun r' hr'' => ?_)
    (fun _ _ => ⟨r.op, hr'⟩) (h.away hr)
  obtain rfl := Option.some.inj (hr'.symm.trans hr'')
  exact ⟨_, rfl⟩

/-- The times a link has leave memory as it was. -/
theorem GwOk.sameTime (h : mem.GwOk) {r : GwLinkRec} {gl : MbbGwLink} {start stop : Int}
    (hgl : mem.gwlinkById id = some (r, g, gl)) (hstart : timeOr start gl.start = gl.start)
    (hstop : timeOr stop gl.stop = gl.stop)
    (hmod : g.st.gwlinkModTime id start stop = (none, st)) : mem.setGateway r.gw st = mem := by
  obtain ⟨-, hg, hlink⟩ := gwlinkById_eq_some.mp hgl
  obtain rfl : st = g.st := (h.inv hg).modTime_self hlink hstart hstop hmod
  rw [setGateway, Ledger.modify_eq_self hg rfl]

/-- A collision leaves memory as it was. -/
theorem GwOk.collision (h : mem.GwOk) {r : GwLinkRec} {gl : MbbGwLink} {start stop : Int}
    {msg : MbbMsg} (hgl : mem.gwlinkById id = some (r, g, gl))
    (hmod : g.st.gwlinkModTime id start stop = (some msg, st)) :
    mem.setGateway r.gw st = mem := by
  obtain ⟨-, hg, -⟩ := gwlinkById_eq_some.mp hgl
  have hst : st = g.st := by
    rcases (h.inv hg).modTime id start stop with ⟨msg', heq⟩ | ⟨st', heq, -⟩
    · rw [hmod] at heq
      exact (Prod.mk.inj heq).2
    · rw [hmod] at heq
      cases heq
  rw [setGateway, Ledger.modify_eq_self hg (by rw [hst])]

end Records

end Mbb
