import Mbb.GatewayLinks
import Mbb.LoadRows
import Mbb.OfficeMirror

/-!
# A restart

When the daemon stops and starts again, it makes its records from the rows. After any run of
commands that keeps records and rows alike, these are the records it had, in whatever order the
rows come: consumers, units and entries with their times and references, and the queues of the
gateways.
-/

namespace Mbb

/-! ## Queues of the same links

The rows of links come in any order, and each is inserted into its queue. The queue that comes out
has the same links in order, and there is only one such queue.
-/

namespace GwState

variable {s s' : GwState} {gl c : MbbGwLink}

/-- What the queue of an interface has. -/
theorem Inv.mem_linksOf (h : s.Inv) (link : ℕ) :
    gl ∈ s.gw.linksOf link ↔ gl ∈ s.links ∧ gl.link = link := by
  constructor
  · intro hgl
    rw [MbbGateway.linksOf] at hgl
    cases hq : s.gw.queue link with
    | none => simp [hq] at hgl
    | some q =>
      rw [hq, Option.getD_some] at hgl
      obtain ⟨ht, hht, hlk⟩ := Option.bind_eq_some_iff.mp hq
      obtain ⟨l₁, l₂, hat⟩ := h.atQueue_of_lookup (by rw [MbbGateway.table, hht]; exact hlk)
      exact ⟨h.mem_of_queue hat hgl, (h.queueOk hat).own gl hgl⟩
  · rintro ⟨hgl, rfl⟩
    obtain ⟨l₁, l₂, a, b, hat⟩ := h.atQueue hgl
    rw [MbbGateway.linksOf, hat.queue]
    simp

/-- The queue of an interface is in order, and is there when it has links. -/
theorem Inv.linksOf (h : s.Inv) (link : ℕ) :
    (s.gw.linksOf link).Pairwise MbbGwLink.Before ∧
      s.gw.queue link = if s.gw.linksOf link = [] then none else some (s.gw.linksOf link) := by
  rw [MbbGateway.linksOf]
  cases hq : s.gw.queue link with
  | none => simp
  | some q =>
    obtain ⟨ht, hht, hlk⟩ := Option.bind_eq_some_iff.mp hq
    obtain ⟨l₁, l₂, hat⟩ := h.atQueue_of_lookup (by rw [MbbGateway.table, hht]; exact hlk)
    have hok := h.queueOk hat
    rw [Option.getD_some, if_neg hok.ne_nil]
    exact ⟨hok.order, rfl⟩

theorem not_before_self (h : gl.Valid) : ¬ gl.Before gl := fun hb => hb.asymm h h hb

/-- Gateways that have the same links have the same queues. -/
theorem Inv.queue_eq (h : s.Inv) (h' : s'.Inv) (hlinks : ∀ gl, gl ∈ s.links ↔ gl ∈ s'.links)
    (link : ℕ) : s.gw.queue link = s'.gw.queue link := by
  have hnodup : ∀ {s : GwState}, s.Inv → (s.gw.linksOf link).Nodup := by
    intro s h
    refine List.Pairwise.imp_of_mem (fun {a b} ha _ hab heq => ?_) (h.linksOf link).1
    subst heq
    exact not_before_self (h.valid a ((h.mem_linksOf link).mp ha).1) hab
  have hperm : (s.gw.linksOf link).Perm (s'.gw.linksOf link) := by
    refine (List.perm_ext_iff_of_nodup (hnodup h) (hnodup h')).mpr fun gl => ?_
    rw [h.mem_linksOf, h'.mem_linksOf, hlinks]
  have heq : s.gw.linksOf link = s'.gw.linksOf link := by
    refine List.Perm.eq_of_pairwise (fun a b ha hb hab hba => ?_) (h.linksOf link).1
      (h'.linksOf link).1 hperm
    exact absurd hba (hab.asymm (h.valid a ((h.mem_linksOf link).mp ha).1)
      (h'.valid b ((h'.mem_linksOf link).mp hb).1))
  rw [(h.linksOf link).2, (h'.linksOf link).2, heq]

/-- Two links of one interface do not overlap. -/
theorem Inv.apart (h : s.Inv) (hgl : gl ∈ s.links) (hc : c ∈ s.links) (hlink : c.link = gl.link)
    (hne : c ≠ gl) : c.Before gl ∨ gl.Before c := by
  have hgl' := (h.mem_linksOf gl.link).mpr ⟨hgl, rfl⟩
  have hc' := (h.mem_linksOf gl.link).mpr ⟨hc, hlink⟩
  have hall := List.Pairwise.forall_of_forall_of_flip
    (R := fun a b => a ≠ b → a.Before b ∨ b.Before a) (fun a _ hne => absurd rfl hne)
    ((h.linksOf gl.link).1.imp fun hab _ => Or.inl hab)
    ((h.linksOf gl.link).1.imp fun hab _ => Or.inr hab)
  exact hall hc' hgl' hne

/-- A link that overlaps with none is inserted. -/
theorem gwQueueInsertGl_isSome {q : List MbbGwLink} (h : ∀ c ∈ q, c.Before gl ∨ gl.Before c) :
    ∃ q', gwQueueInsertGl gl q = some q' := by
  induction q with
  | nil => exact ⟨_, rfl⟩
  | cons c q ih =>
    rw [gwQueueInsertGl]
    by_cases hb : mbbTimeBecmp gl.start c.stop > 0
    · obtain ⟨q', hq'⟩ := ih fun c' hc' => h c' (List.mem_cons_of_mem _ hc')
      rw [if_pos hb, hq']
      exact ⟨_, rfl⟩
    · rcases h c List.mem_cons_self with hbefore | hbefore
      · exact absurd (MbbGwLink.becmp_pos_iff.mpr hbefore) hb
      · rw [if_neg hb, if_pos (MbbGwLink.ebcmp_neg_iff.mpr hbefore)]
        exact ⟨_, rfl⟩

/-- A gateway that has some of the links of another takes one more of them. -/
theorem Inv.addLink_part (h : s.Inv) (h' : s'.Inv) (hpart : ∀ c ∈ s.links, c ∈ s'.links)
    (hgl : gl ∈ s'.links) (hnew : s.linkById gl.id = none) :
    ∃ gw, s.addLink gl = (none, ⟨gw, gl :: s.links⟩) ∧ Inv ⟨gw, gl :: s.links⟩ ∧
      gw.addr = s.gw.addr := by
  have hne : ∀ c ∈ s.links, c ≠ gl := by
    rintro c hc rfl
    exact linkById_eq_none (by rw [hnew]; exact Bool.false_ne_true) c hc rfl
  have hadd : ∃ gw, mbbGatewayAddLink s.gw gl = (true, gw) ∧ gw.addr = s.gw.addr := by
    rw [mbbGatewayAddLink]
    cases hht : s.gw.ht with
    | none => exact ⟨_, rfl, rfl⟩
    | some ht =>
      cases hlk : ht.lookup gl.link with
      | none =>
        simp only [hlk]
        exact ⟨_, rfl, rfl⟩
      | some q =>
        obtain ⟨l₁, l₂, hat⟩ := h.atQueue_of_lookup (by rw [MbbGateway.table, hht]; exact hlk)
        have hapart : ∀ c ∈ q, c.Before gl ∨ gl.Before c := fun c hc =>
          h'.apart hgl (hpart c (h.mem_of_queue hat hc)) ((h.queueOk hat).own c hc)
            (hne c (h.mem_of_queue hat hc))
        obtain ⟨q', hq'⟩ := gwQueueInsertGl_isSome hapart
        simp only [hlk, hq']
        exact ⟨_, rfl, rfl⟩
  obtain ⟨gw, hadd, haddr⟩ := hadd
  refine ⟨gw, ?_, Records.addLink_inv h (h'.valid gl hgl) hnew hadd, haddr⟩
  rw [GwState.addLink, hnew, hadd]
  rfl

end GwState

/-! ## Links of operators

An operator has the links that name it. The load makes these lists from the links, so they must have
been right before.
-/

/-- An operator lists the links that name it. -/
def Records.OpLinked (mem : Records) : Prop :=
  Linked (mem.operators.col OperatorRec.links) (mem.gwlinks.col fun r => some r.op)

namespace Records.OpLinked

variable {mem : Records} {id : Int}

theorem gwlinkJoin (h : mem.OpLinked) (gw : Int) (st : GwState) {r : GwLinkRec} {op : OperatorRec}
    (hop : mem.operators.get? r.op = some op) (hid : mem.gwlinks.get? id = none) :
    ((mem.setGateway gw st).gwlinkJoin id r).OpLinked := by
  change Linked ((mem.operators.modify r.op _).col _) ((mem.gwlinks.put id r).col _)
  rw [Ledger.col_modify hop, Ledger.col_put]
  exact h.attach (Ledger.col_of_get? hop _) (Or.inl (Ledger.col_eq_none.mpr hid))
    fun x => List.mem_cons

theorem gwlinkDetach (h : mem.OpLinked) (gw : Int) (st : GwState) {r : GwLinkRec}
    (hr : mem.gwlinks.get? id = some r) : ((mem.setGateway gw st).gwlinkDetach id r).OpLinked := by
  have hup := Ledger.col_of_get? hr fun r : GwLinkRec => some r.op
  obtain ⟨l, hl⟩ := h.exists_parent hup
  obtain ⟨op, hop, rfl⟩ := Option.map_eq_some_iff.mp hl
  change Linked ((mem.operators.modify r.op _).col _) ((mem.gwlinks.drop _).col _)
  rw [Ledger.col_modify hop, Ledger.col_drop_one]
  exact h.detach_one hl hup (Or.inl rfl)

end Records.OpLinked

namespace Office

variable {s s' : Office} {e : Env} {c : OfficeCmd}

/-- A link comes only to an operator that is there. -/
theorem addGwlink_opLinked (h : s.mem.OpLinked) (hinv : s.MirrorInv) (addr : Option ℕ)
    (gwName : String) (link : ℕ) (opName : String) :
    (s.addGwlink e addr gwName link opName).2.mem.OpLinked := by
  rw [addGwlink]
  split
  · exact h
  · rename_i gw g hgw
    split
    · exact h
    · rename_i op r hop
      simp only
      split
      · exact h
      · rename_i hcan
        split
        · exact h
        · rename_i rows hrows
          obtain ⟨queues, hadd⟩ := mbbGatewayAddLink_of_canAdd rfl ((Bool.not_eq_false _).mp hcan)
          obtain ⟨hfresh, -⟩ := dbInsertRet_eq_some hrows
          simp only [hadd]
          exact h.gwlinkJoin (r := ⟨op, gw⟩) gw _ (Ledger.get?_of_find? hop)
            (hinv.gwlinks_fresh hfresh)

theorem Commit.opLinked (hc : Commit s e c s') (h : s.mem.OpLinked) (hinv : s.MirrorInv)
    (hnew : ∀ addr gwName link opName, c ≠ .addGwlink addr gwName link opName) :
    s'.mem.OpLinked := by
  cases hc with
  | addGwlink hgw hop hcan hrows hadd => exact absurd rfl (hnew _ _ _ _)
  | dropGwlink hgl =>
    exact h.gwlinkDetach _ _ (Records.gwlinkById_eq_some.mp hgl).1
  | dropConsumer hcon hunits =>
    rename_i name id con
    obtain ⟨users, hmem⟩ := leaveUser_eq s.mem id con
    rw [hmem]
    exact h
  | dropUnit hu hsep =>
    rename_i name id u
    obtain ⟨-, consumers, hmem⟩ := hinv.mirror.unitRemove id u
    rw [hmem]
    exact h
  | dropInet hentry =>
    rw [hinv.coherent.unitDelInet_eq hentry]
    exact h
  | _ => exact h

theorem MirrorInv.exec_opLinked (hinv : s.MirrorInv) (h : s.mem.OpLinked)
    (hstep : MirrorStep s e c) {r : Option MbbMsg × Office} (hexec : s.exec e c = some r) :
    r.2.mem.OpLinked := by
  by_cases hnew : ∃ addr gwName link opName, c = .addGwlink addr gwName link opName
  · obtain ⟨addr, gwName, link, opName, rfl⟩ := hnew
    obtain rfl := Option.some.inj hexec
    exact addGwlink_opLinked h hinv addr gwName link opName
  · rcases exec_outcome hexec with heq | ⟨-, hcommit⟩ | ⟨-, hslip⟩
    · rw [heq]
      exact h
    · refine hcommit.opLinked h hinv fun addr gwName link opName heq => hnew ?_
      exact ⟨addr, gwName, link, opName, heq⟩
    · rw [hslip.unchanged hinv hstep]
      exact h

theorem MirrorInv.reach_opLinked {s₀ : Office} (h₀ : s₀.MirrorInv) (hop : s₀.mem.OpLinked)
    (h : Reaches MirrorStep s₀ s) : s.mem.OpLinked := by
  induction h with
  | refl => exact hop
  | tail hreach hstep ih =>
    obtain ⟨e, c, msg, hok, hexec⟩ := hstep
    exact (h₀.reach hreach).exec_opLinked ih hok hexec

end Office

/-! ## The same records

Two states have the same records if they agree on what the rows show; ids of the memory, and what is
computed anew, do not count.
-/

section Same

variable {V V' W P C : Type}

theorem col_map (l : Ledger Int V) (f : V → W) (g : W → P) (k : Int) :
    l.col (fun v => g (f v)) k = (l.col f k).map g := by
  rw [Ledger.col, Ledger.col, Option.map_map]
  rfl

/-- What a column says of a column that is part of it. -/
theorem col_congr {l l' : Ledger Int V} {f : V → W} (h : l.col f = l'.col f) (g : W → P) :
    (l.col fun v => g (f v)) = l'.col fun v => g (f v) := by
  funext k
  rw [col_map l f g, col_map l' f g, h]

/-- Tables that agree in a column match. -/
theorem matches_of_col {l : Ledger Int V} {l' : Ledger Int V'} {f : V → W} {g : V' → W}
    (h : l.col f = l'.col g) : l.Matches (fun v v' => f v = g v') l' := by
  intro k
  have hk := congrFun h k
  rw [Ledger.col, Ledger.col] at hk
  cases hv : l.get? k with
  | none =>
    rw [hv] at hk
    rw [Option.map_eq_none_iff.mp hk.symm]
    exact .none
  | some v =>
    rw [hv, Option.map_some] at hk
    obtain ⟨v', hv', heq⟩ := Option.map_eq_some_iff.mp hk.symm
    rw [hv']
    exact .some heq.symm

theorem col_of_matches {l : Ledger Int V} {l' : Ledger Int V'} {f : V → W} {g : V' → W}
    {R : V → V' → Prop} (h : l.Matches R l') (hR : ∀ v v', R v v' → f v = g v') :
    l.col f = l'.col g := by
  funext k
  have hk := h k
  rw [Ledger.col, Ledger.col]
  generalize l.get? k = v at hk ⊢
  generalize l'.get? k = v' at hk ⊢
  cases hk with
  | none => rfl
  | some h => exact congrArg some (hR _ _ h)

/-- Parents that agree in a column, and whose children name the same parents, list the same
children. -/
theorem matches_of_linked {l : Ledger Int V} {l' : Ledger Int V} {f : V → W} {kids : V → List C}
    {up : C → Option (Option Int)} (h : l.col f = l'.col f) (hl : Linked (l.col kids) up)
    (hl' : Linked (l'.col kids) up) :
    l.Matches (fun v v' => f v = f v' ∧ ∀ c, c ∈ kids v ↔ c ∈ kids v') l' := by
  intro k
  have hk := matches_of_col h k
  cases hv : l.get? k with
  | none =>
    rw [hv] at hk
    cases hv' : l'.get? k with
    | none => exact .none
    | some v' =>
      rw [hv'] at hk
      cases hk
  | some v =>
    obtain ⟨v', hv', heq⟩ := (matches_of_col h).get? hv
    rw [hv']
    refine .some ⟨heq, fun c => ?_⟩
    exact (hl.mem_iff (Ledger.col_of_get? hv _) c).trans
      (hl'.mem_iff (Ledger.col_of_get? hv' _) c).symm

end Same

/-- A gateway without the objects of its links. -/
def GatewayRec.kept (g : GatewayRec) : String × ℕ := (g.name, g.st.gw.addr)

/-- The records are the same. The lists of children need not be in the same order. -/
structure Records.Same (a b : Records) : Prop where
  /-- consumers -/
  consumers : a.consumers.Matches
    (fun r r' => r.kept = r'.kept ∧ ∀ u, u ∈ r.units ↔ u ∈ r'.units) b.consumers
  /-- units -/
  units : a.units.Matches (fun u u' => u.kept = u'.kept ∧ ∀ k, k ∈ u.sep ↔ k ∈ u'.sep) b.units
  /-- entries -/
  inets : ∀ id, a.inets.get? id = b.inets.get? id
  /-- users -/
  users : a.users.Matches (fun u u' => u.kept = u'.kept ∧ ∀ c, c ∈ u.childs ↔ c ∈ u'.childs) b.users
  /-- operators -/
  operators : a.operators.Matches
    (fun o o' => o.name = o'.name ∧ ∀ k, k ∈ o.links ↔ k ∈ o'.links) b.operators
  /-- gateways -/
  gateways : a.gateways.Matches (fun g g' => g.kept = g'.kept ∧
    ∀ link, g.st.gw.queue link = g'.st.gw.queue link) b.gateways
  /-- links -/
  gwlinks : ∀ id, a.gwlinks.get? id = b.gwlinks.get? id

/-! ## The loads

The tables are loaded one after the other, each with what the earlier ones have made.
-/

/-- **A table is loaded.** Each row is accepted, and the records then show what the rows say. -/
theorem mbbDbLoad_table {R C V : Type} {func : C → Records → Except DbLoadError LoadedRow}
    {Shows : Int × R → C → Prop} {l : Ledger Int R} {cells : List C}
    (hcells : ShowsTable Shows l cells) {w : Records → Int → Option V} {f : R → V}
    {Q : Records → Prop} {mem : Records} (warnings : List String)
    (hstep : ∀ r c m, l.get? r.1 = some r.2 → Shows r c → w m r.1 = none → Q m →
      ∃ x, func c m = .ok x ∧ x.warning = none ∧ Q x.mem ∧
        w x.mem = Function.update (w m) r.1 (some (f r.2)))
    (hQ : Q mem) (hview : w mem = fun _ => none) :
    ∃ mem', mbbDbLoad func cells mem warnings = (none, mem', warnings) ∧ Q mem' ∧
      w mem' = l.col f := by
  obtain ⟨rows, hperm, hrows⟩ := hcells
  have hnodup : (rows.map Prod.fst).Nodup := (hperm.map Prod.fst).nodup_iff.mpr l.nodup
  have hrun : ∃ mem', mbbDbLoadLoop func cells [] mem warnings = (none, mem', warnings) ∧
      Q mem' ∧ w mem' = rowsView f ([] ++ rows) := by
    refine mbbDbLoadLoop_run (P := fun pre m => Q m ∧ w m = rowsView f pre) ?_ hrows ⟨hQ, hview⟩
    rintro pre r post c m heq hr ⟨hQ, hview⟩
    rw [List.nil_append] at heq
    have hfresh : r.1 ∉ pre.map Prod.fst := by
      rw [← heq, List.map_append, List.map_cons] at hnodup
      exact fun hm => (List.nodup_append.mp hnodup).2.2 _ hm _ List.mem_cons_self rfl
    have hnone : w m r.1 = none := by
      rw [hview, rowsView, Option.map_eq_none_iff, List.find?_eq_none]
      exact fun r' hr' hk => hfresh (List.mem_map.mpr ⟨r', hr', of_decide_eq_true hk⟩)
    have hmem : r ∈ rows := by
      rw [← heq]
      simp
    obtain ⟨x, hx, hwarn, hQ', hview'⟩ :=
      hstep r c m (Ledger.get?_of_mem (hperm.mem_iff.mp hmem)) hr hnone hQ
    exact ⟨x, hx, hwarn, hQ', by rw [hview', rowsView_concat f hfresh, hview]⟩
  obtain ⟨mem', hload, hQ', hview'⟩ := hrun
  rw [List.nil_append, rowsView_perm f hperm] at hview'
  exact ⟨mem', hload, hQ', hview'⟩

section Loads

variable {s : Office} {mem : Records} (warnings : List String)

theorem ConsumerRec.Mirrors.kept {r : ConsumerRec} {row : ConsumerRow} (h : r.Mirrors row) :
    r.kept = row.loaded := by
  rw [ConsumerRec.kept, ConsumerRow.loaded, h.name, h.user, h.start.1, h.stop.1]

theorem UnitRec.Mirrors.kept {u : UnitRec} {row : UnitRow} (h : u.Mirrors row) :
    u.kept = row.loaded := by
  rw [UnitRec.kept, UnitRow.loaded, h.name, h.con, h.start.1, h.stop.1, h.isLocal]

theorem EntryRec.Mirrors.eq_loaded {e : EntryRec} {row : InetRow} (h : e.Mirrors row) :
    e = row.loaded := by
  rw [InetRow.loaded, h.start.1, h.stop.1, ← h.owner, ← h.inet, ← h.flag, ← h.nice,
    Int.toNat_natCast]

/-- A record whose row is there. -/
theorem exists_of_row {V R : Type} {M : V → R → Prop} {l : Ledger Int V} {rows : Ledger Int R}
    (h : l.Matches M rows) {k : Int} {row : R} (hrow : rows.get? k = some row) :
    ∃ v, l.get? k = some v ∧ M v row := by
  have hk := h k
  rw [hrow] at hk
  generalize hv : l.get? k = v at hk
  cases hk with
  | some hM => exact ⟨_, rfl, hM⟩

theorem exists_of_col {V W : Type} {l l' : Ledger Int V} {f : V → W} (h : l.col f = l'.col f)
    {k : Int} {v' : V} (hv' : l'.get? k = some v') : ∃ v, l.get? k = some v := by
  obtain ⟨v, hv, -⟩ := exists_of_row (matches_of_col h) hv'
  exact ⟨v, hv⟩

theorem Office.MirrorInv.loadConsumers (h : s.MirrorInv) {cells : List ConsumerCells}
    (hcells : ShowsTable (fun r c => ConsumerCells.Shows r c) s.db.consumers cells)
    (hmem : mem.Coherent) (hnone : mem.consumers.col ConsumerRec.kept = fun _ => none)
    (husers : mem.users.col MbbUser.kept = s.mem.users.col MbbUser.kept) :
    ∃ mem', mbbDbLoad Mbb.loadConsumers cells mem warnings = (none, mem', warnings) ∧
      mem'.Coherent ∧ mem'.consumers.col ConsumerRec.kept = s.mem.consumers.col ConsumerRec.kept ∧
      mem'.users.col MbbUser.kept = s.mem.users.col MbbUser.kept ∧
      ∃ consumers users, mem' = { mem with consumers, users } := by
  obtain ⟨mem', hload, ⟨hcoh, husers', hframe⟩, hview⟩ := mbbDbLoad_table hcells warnings
    (w := fun m => m.consumers.col ConsumerRec.kept)
    (Q := fun m => m.Coherent ∧ m.users.col MbbUser.kept = s.mem.users.col MbbUser.kept ∧
      ∃ consumers users, m = { mem with consumers, users }) (f := ConsumerRow.loaded)
    (fun r c m hrow hr hfresh hQ => by
      obtain ⟨hcoh, husers, consumers, users, rfl⟩ := hQ
      -- the user of the row is there: the consumer in memory refers to it
      have huser : ∀ u ∈ r.2.userId, ∃ v, users.get? u = some v := by
        intro u hu
        obtain ⟨con, hcon, hM⟩ := exists_of_row h.mirror.consumers hrow
        have hup := Ledger.col_of_get? hcon ConsumerRec.user
        rw [hM.user, hu] at hup
        obtain ⟨l, hl⟩ := h.coherent.users.exists_parent hup
        obtain ⟨v', hv', -⟩ := Option.map_eq_some_iff.mp hl
        exact exists_of_col husers hv'
      obtain ⟨x, hx, hwarn, hcoh', hview, husers', consumers', users', hmem'⟩ :=
        loadConsumers_row hr hcoh (Ledger.col_eq_none.mp hfresh) huser
      exact ⟨x, hx, hwarn, ⟨hcoh', husers'.trans husers, consumers', users', hmem'⟩, hview⟩)
    ⟨hmem, husers, _, _, rfl⟩ hnone
  refine ⟨mem', hload, hcoh, ?_, husers', hframe⟩
  exact hview.trans (col_of_matches h.mirror.consumers fun _ _ hM => hM.kept).symm

theorem Office.MirrorInv.loadUnits (h : s.MirrorInv) {cells : List UnitCells}
    (hcells : ShowsTable (fun r c => UnitCells.Shows r c) s.db.units cells)
    (hmem : mem.Coherent) (hnone : mem.units.col UnitRec.kept = fun _ => none)
    (hcons : mem.consumers.col ConsumerRec.kept = s.mem.consumers.col ConsumerRec.kept) :
    ∃ mem', mbbDbLoad Mbb.loadUnits cells mem warnings = (none, mem', warnings) ∧
      mem'.Coherent ∧ mem'.units.col UnitRec.kept = s.mem.units.col UnitRec.kept ∧
      mem'.consumers.col ConsumerRec.kept = s.mem.consumers.col ConsumerRec.kept ∧
      ∃ consumers units, mem' = { mem with consumers, units } := by
  obtain ⟨mem', hload, ⟨hcoh, hcons', hframe⟩, hview⟩ := mbbDbLoad_table hcells warnings
    (w := fun m => m.units.col UnitRec.kept)
    (Q := fun m => m.Coherent ∧
      m.consumers.col ConsumerRec.kept = s.mem.consumers.col ConsumerRec.kept ∧
      ∃ consumers units, m = { mem with consumers, units }) (f := UnitRow.loaded)
    (fun r c m hrow hr hfresh hQ => by
      obtain ⟨hcoh, hcons, consumers, units, rfl⟩ := hQ
      have hcon : ∀ k ∈ r.2.consumerId, ∃ v, consumers.get? k = some v := by
        intro k hk
        obtain ⟨u, hu, hM⟩ := exists_of_row h.mirror.units hrow
        have hup := Ledger.col_of_get? hu UnitRec.con
        rw [hM.con, hk] at hup
        obtain ⟨l, hl⟩ := h.coherent.units.exists_parent hup
        obtain ⟨v', hv', -⟩ := Option.map_eq_some_iff.mp hl
        exact exists_of_col hcons hv'
      obtain ⟨x, hx, hwarn, hcoh', hview, hcons', consumers', units', hmem'⟩ :=
        loadUnits_row hr hcoh (Ledger.col_eq_none.mp hfresh) hcon
      exact ⟨x, hx, hwarn, ⟨hcoh', hcons'.trans hcons, consumers', units', hmem'⟩, hview⟩)
    ⟨hmem, hcons, _, _, rfl⟩ hnone
  refine ⟨mem', hload, hcoh, ?_, hcons', hframe⟩
  exact hview.trans (col_of_matches h.mirror.units fun _ _ hM => hM.kept).symm

theorem Office.MirrorInv.loadIpPool (h : s.MirrorInv) {cells : List InetCells}
    (hcells : ShowsTable (fun r c => InetCells.Shows r c) s.db.unitIpPool cells)
    (hmem : mem.Coherent) (hnone : mem.inets.get? = fun _ => none)
    (hunits : mem.units.col UnitRec.kept = s.mem.units.col UnitRec.kept) :
    ∃ mem', mbbDbLoad Mbb.loadIpPool cells mem warnings = (none, mem', warnings) ∧
      mem'.Coherent ∧ mem'.inets.get? = s.mem.inets.get? ∧
      mem'.units.col UnitRec.kept = s.mem.units.col UnitRec.kept ∧
      ∃ units inets, mem' = { mem with units, inets } := by
  obtain ⟨mem', hload, ⟨hcoh, hunits', hframe⟩, hview⟩ := mbbDbLoad_table hcells warnings
    (w := fun m => m.inets.get?)
    (Q := fun m => m.Coherent ∧ m.units.col UnitRec.kept = s.mem.units.col UnitRec.kept ∧
      ∃ units inets, m = { mem with units, inets }) (f := InetRow.loaded)
    (fun r c m hrow hr hfresh hQ => by
      obtain ⟨hcoh, hunits, units, inets, rfl⟩ := hQ
      have hunit : ∃ u, units.get? r.2.unitId = some u := by
        obtain ⟨e, he, hM⟩ := exists_of_row h.mirror.inets hrow
        obtain ⟨u, hu, -⟩ := h.coherent.owner_of_entry he
        rw [hM.owner] at hu
        exact exists_of_col hunits hu
      obtain ⟨u, hu⟩ := hunit
      obtain ⟨x, hx, hwarn, hcoh', hview, hunits', units', inets', hmem'⟩ :=
        loadIpPool_row hr hcoh hfresh hu
      exact ⟨x, hx, hwarn, ⟨hcoh', hunits'.trans hunits, units', inets', hmem'⟩, hview⟩)
    ⟨hmem, hunits, _, _, rfl⟩ hnone
  refine ⟨mem', hload, hcoh, ?_, hunits', hframe⟩
  rw [hview]
  funext k
  have hk := congrFun (col_of_matches (f := fun e : EntryRec => e) h.mirror.inets
    fun _ _ hM => hM.eq_loaded) k
  rw [Ledger.col, Option.map_id'] at hk
  exact hk.symm

/-- Gateways without links. -/
theorem loadGateways {gws : Ledger Int GatewayRec} {cells : List GatewayCells}
    (hcells : ShowsTable (fun r c => GatewayCells.Shows r c) gws cells)
    (hnone : mem.gateways.get? = fun _ => none) :
    ∃ mem', mbbDbLoad loadGateway cells mem warnings = (none, mem', warnings) ∧
      mem'.gateways.col GatewayRec.kept = gws.col GatewayRec.kept ∧
      (∀ k g, mem'.gateways.get? k = some g → g.st.Inv ∧ g.st.links = []) ∧
      ∃ gateways, mem' = { mem with gateways } := by
  have hempty : mem.gateways.col GatewayRec.kept = fun _ => none := by
    funext k
    rw [Ledger.col, hnone]
    rfl
  have hnew : ∀ k g, mem.gateways.get? k = some g → g.st.Inv ∧ g.st.links = [] := by
    intro k g hg
    rw [hnone] at hg
    cases hg
  obtain ⟨mem', hload, ⟨hnew', hframe⟩, hview⟩ := mbbDbLoad_table hcells warnings
    (w := fun m => m.gateways.col GatewayRec.kept)
    (Q := fun m => (∀ k g, m.gateways.get? k = some g → g.st.Inv ∧ g.st.links = []) ∧
      ∃ gateways, m = { mem with gateways }) (f := GatewayRec.kept)
    (fun r c m hrow hr hfresh hQ => by
      obtain ⟨hnew, gateways, rfl⟩ := hQ
      obtain ⟨x, hx, hwarn, hmem⟩ := loadGateway_row hr
      refine ⟨x, hx, hwarn, ⟨fun k g hg => ?_, _, hmem⟩, ?_⟩
      · rw [hmem, Ledger.get?_put] at hg
        by_cases hk : k = r.1
        · rw [if_pos hk] at hg
          rw [← Option.some.inj hg]
          exact ⟨GwState.Inv.new _ _, rfl⟩
        · rw [if_neg hk] at hg
          exact hnew k g hg
      · rw [hmem]
        exact Ledger.col_put _ _ _ _)
    ⟨hnew, _, rfl⟩ hempty
  exact ⟨mem', hload, hview, hnew', hframe⟩

/-- Operators without links. -/
theorem loadOperators {ops : Ledger Int OperatorRec} {cells : List OperatorCells}
    (hcells : ShowsTable (fun r c => OperatorCells.Shows r c) ops cells)
    (hnone : mem.operators.get? = fun _ => none) (hlinks : mem.gwlinks.get? = fun _ => none) :
    ∃ mem', mbbDbLoad loadOperator cells mem warnings = (none, mem', warnings) ∧
      mem'.operators.col OperatorRec.name = ops.col OperatorRec.name ∧ mem'.OpLinked ∧
      ∃ operators, mem' = { mem with operators } := by
  have hempty : ∀ {V : Type} (f : OperatorRec → V), mem.operators.col f = fun _ => none := by
    intro V f
    funext k
    rw [Ledger.col, hnone]
    rfl
  have hop : mem.OpLinked := by
    rw [Records.OpLinked, hempty]
    refine ⟨fun {p l} hp => ?_, fun {c p} hup => ?_⟩
    · cases hp
    · rw [Ledger.col, hlinks] at hup
      cases hup
  obtain ⟨mem', hload, ⟨hop', hframe⟩, hview⟩ := mbbDbLoad_table hcells warnings
    (w := fun m => m.operators.col OperatorRec.name)
    (Q := fun m => m.OpLinked ∧ ∃ operators, m = { mem with operators }) (f := OperatorRec.name)
    (fun r c m hrow hr hfresh hQ => by
      obtain ⟨hop, operators, rfl⟩ := hQ
      obtain ⟨x, hx, hwarn, hmem⟩ := loadOperator_row hr
      refine ⟨x, hx, hwarn, ⟨?_, _, hmem⟩, ?_⟩
      · rw [hmem, Records.OpLinked, Ledger.col_put]
        exact hop.newParent (Ledger.col_eq_none.mpr (Ledger.col_eq_none.mp hfresh))
      · rw [hmem]
        exact Ledger.col_put _ _ _ _)
    ⟨hop, _, rfl⟩ (hempty _)
  exact ⟨mem', hload, hview, hop', hframe⟩

/-- A gateway has those links of another that are loaded. -/
structure GatewayRec.PartOf (links : Ledger Int GwLinkRec) (g g' : GatewayRec) : Prop where
  /-- name and address -/
  kept : g.kept = g'.kept
  /-- the queues -/
  inv : g.st.Inv
  /-- the links -/
  mem_iff : ∀ gl, gl ∈ g.st.links ↔ gl ∈ g'.st.links ∧ links.get? gl.id ≠ none

theorem GwState.Inv.linkById_of_mem {st : GwState} (h : st.Inv) {gl : MbbGwLink}
    (hgl : gl ∈ st.links) : st.linkById gl.id = some gl := by
  cases hfind : st.linkById gl.id with
  | none =>
    exact absurd rfl (GwState.linkById_eq_none (by rw [hfind]; exact Bool.false_ne_true) gl hgl)
  | some c =>
    obtain ⟨hc, hid⟩ := GwState.mem_of_linkById hfind
    rw [List.inj_on_of_nodup_map h.ids hc hgl hid]

/-- The row of a link, and the link in memory. -/
theorem Office.MirrorInv.link_of_row (h : s.MirrorInv) {id : Int} {row : GwlinkRow}
    (hrow : s.db.gwlinks.get? id = some row) :
    ∃ g, s.mem.gwlinks.get? id = some ⟨row.operId, row.gwId⟩ ∧
      s.mem.gateways.get? row.gwId = some g ∧ row.loaded id ∈ g.st.links := by
  have hrel := h.mirror.gwlinks id
  rw [hrow] at hrel
  generalize hview : s.mem.linkView id = v at hrel
  cases hrel with
  | some hM =>
    rename_i p
    obtain ⟨⟨r, g, gl⟩, hgl, rfl⟩ := Option.map_eq_some_iff.mp hview
    obtain ⟨hr, hg, hlink⟩ := Records.gwlinkById_eq_some.mp hgl
    obtain ⟨hmem, hid⟩ := GwState.mem_of_linkById hlink
    obtain ⟨op, gw⟩ := r
    obtain ⟨gid, link, start, stop⟩ := gl
    obtain rfl : op = row.operId := hM.op
    obtain rfl : gw = row.gwId := hM.gw
    obtain rfl : gid = id := hid
    have hlink' : row.link.toNat = link := by rw [← hM.link, Int.toNat_natCast]
    have hstart : row.timeStart.getD 0 = start := hM.start.1
    have hstop : row.timeEnd.getD 0 = stop := hM.stop.1
    refine ⟨g, hr, hg, ?_⟩
    rw [GwlinkRow.loaded, hlink', hstart, hstop]
    exact hmem

theorem Office.MirrorInv.gwlinks_eq (h : s.MirrorInv) :
    s.mem.gwlinks.get? = s.db.gwlinks.col fun row => (⟨row.operId, row.gwId⟩ : GwLinkRec) := by
  funext id
  rw [Ledger.col]
  cases hrow : s.db.gwlinks.get? id with
  | none => exact h.gwlinks_fresh hrow
  | some row =>
    obtain ⟨g, hr, -⟩ := h.link_of_row hrow
    exact hr

/-- A link of a gateway is in no other. -/
theorem Office.MirrorInv.gateway_of_link (h : s.MirrorInv) {k gw op : Int} {g : GatewayRec}
    {gl : MbbGwLink} (hg : s.mem.gateways.get? k = some g) (hgl : gl ∈ g.st.links)
    (hlink : s.mem.gwlinks.get? gl.id = some ⟨op, gw⟩) : k = gw := by
  obtain ⟨op', hop'⟩ := h.gwOk.belongs hg ((h.gwOk.inv hg).linkById_of_mem hgl)
  rw [hlink] at hop'
  exact (congrArg GwLinkRec.gw (Option.some.inj hop')).symm

/-- One more link is loaded. -/
theorem Office.MirrorInv.partOf_step (h : s.MirrorInv) {id : Int} {row : GwlinkRow}
    (hrow : s.db.gwlinks.get? id = some row) (hfresh : mem.gwlinks.get? id = none)
    (hgws : mem.gateways.Matches (GatewayRec.PartOf mem.gwlinks) s.mem.gateways) :
    ∃ g st, mem.gateways.get? row.gwId = some g ∧ g.st.addLink (row.loaded id) = (none, st) ∧
      (mem.gateways.modify row.gwId fun g => { g with st }).Matches
        (GatewayRec.PartOf (mem.gwlinks.put id ⟨row.operId, row.gwId⟩)) s.mem.gateways := by
  obtain ⟨g₀, hr, hg₀, hgl⟩ := h.link_of_row hrow
  obtain ⟨g, hg, hpart⟩ := exists_of_row hgws hg₀
  have hinv₀ := h.gwOk.inv hg₀
  have hnew : g.st.linkById (row.loaded id).id = none := by
    cases hfind : g.st.linkById (row.loaded id).id with
    | none => rfl
    | some c =>
      obtain ⟨hc, hid⟩ := GwState.mem_of_linkById hfind
      exact absurd (hid ▸ hfresh) ((hpart.mem_iff c).mp hc).2
  obtain ⟨gw, hadd, hinv, haddr⟩ := hpart.inv.addLink_part hinv₀
    (fun c hc => ((hpart.mem_iff c).mp hc).1) hgl hnew
  refine ⟨g, _, hg, hadd, fun k => ?_⟩
  have hput : ∀ c : MbbGwLink, (mem.gwlinks.put id ⟨row.operId, row.gwId⟩).get? c.id ≠ none ↔
      c.id = id ∨ mem.gwlinks.get? c.id ≠ none := by
    intro c
    rw [Ledger.get?_put]
    by_cases hc : c.id = id <;> simp [hc]
  rw [Ledger.get?_modify]
  by_cases hk : k = row.gwId
  · rw [if_pos hk, hk, hg, hg₀, Option.map_some]
    refine .some ⟨?_, hinv, fun c => ?_⟩
    · have hkept := hpart.kept
      rw [GatewayRec.kept, GatewayRec.kept, Prod.mk.injEq] at hkept ⊢
      exact ⟨hkept.1, haddr.trans hkept.2⟩
    · rw [hput, List.mem_cons, hpart.mem_iff]
      constructor
      · rintro (rfl | ⟨hc, hloaded⟩)
        · exact ⟨hgl, .inl rfl⟩
        · exact ⟨hc, .inr hloaded⟩
      · rintro ⟨hc, hid | hloaded⟩
        · exact .inl (List.inj_on_of_nodup_map hinv₀.ids hc hgl hid)
        · exact .inr ⟨hc, hloaded⟩
  · rw [if_neg hk]
    have hrel := hgws k
    generalize hg' : mem.gateways.get? k = v at hrel
    generalize hg₀' : s.mem.gateways.get? k = v₀ at hrel
    cases hrel with
    | none => exact .none
    | some hpart' =>
      refine .some ⟨hpart'.kept, hpart'.inv, fun c => ?_⟩
      rw [hput, hpart'.mem_iff]
      refine and_congr_right fun hc => ⟨.inr, fun hor => hor.resolve_left fun hid => hk ?_⟩
      -- a link of this id is at the other gateway
      exact h.gateway_of_link hg₀' hc (hid ▸ hr)

theorem Office.MirrorInv.loadGwlinks (h : s.MirrorInv) (hop : s.mem.OpLinked)
    {cells : List GwlinkCells}
    (hcells : ShowsTable (fun r c => GwlinkCells.Shows r c) s.db.gwlinks cells)
    (hnone : mem.gwlinks.get? = fun _ => none)
    (hgws : mem.gateways.col GatewayRec.kept = s.mem.gateways.col GatewayRec.kept)
    (hnew : ∀ k g, mem.gateways.get? k = some g → g.st.Inv ∧ g.st.links = [])
    (hops : mem.operators.col OperatorRec.name = s.mem.operators.col OperatorRec.name)
    (hlinked : mem.OpLinked) :
    ∃ mem', mbbDbLoad loadGwlink cells mem warnings = (none, mem', warnings) ∧
      mem'.gwlinks.get? = s.mem.gwlinks.get? ∧
      mem'.gateways.Matches (fun g g' => g.kept = g'.kept ∧ g.st.Inv ∧
        ∀ gl, gl ∈ g.st.links ↔ gl ∈ g'.st.links) s.mem.gateways ∧
      mem'.operators.col OperatorRec.name = s.mem.operators.col OperatorRec.name ∧
      mem'.OpLinked ∧ ∃ gateways operators gwlinks,
        mem' = { mem with gateways, operators, gwlinks } := by
  have hstart : mem.gateways.Matches (GatewayRec.PartOf mem.gwlinks) s.mem.gateways := by
    intro k
    have hrel := matches_of_col hgws k
    generalize hg : mem.gateways.get? k = v at hrel
    generalize s.mem.gateways.get? k = v' at hrel
    cases hrel with
    | none => exact .none
    | some hkept =>
      obtain ⟨hinv, hlinks⟩ := hnew k _ hg
      refine .some ⟨hkept, hinv, fun gl => ?_⟩
      simp [hlinks, hnone]
  obtain ⟨mem', hload, ⟨hgws', hops', hlinked', hframe⟩, hview⟩ := mbbDbLoad_table hcells warnings
    (w := fun m => m.gwlinks.get?)
    (Q := fun m => m.gateways.Matches (GatewayRec.PartOf m.gwlinks) s.mem.gateways ∧
      m.operators.col OperatorRec.name = s.mem.operators.col OperatorRec.name ∧ m.OpLinked ∧
      ∃ gateways operators gwlinks, m = { mem with gateways, operators, gwlinks })
    (f := fun row => (⟨row.operId, row.gwId⟩ : GwLinkRec))
    (fun r c m hrow hr hfresh hQ => by
      obtain ⟨hgws, hops, hlinked, gateways, operators, gwlinks, rfl⟩ := hQ
      obtain ⟨g, st, hg, hadd, hgws'⟩ := h.partOf_step hrow hfresh hgws
      have hoper : ∃ op, operators.get? r.2.operId = some op := by
        obtain ⟨g₀, hlink, -⟩ := h.link_of_row hrow
        obtain ⟨l, hl⟩ := hop.exists_parent (Ledger.col_of_get? hlink fun r => some r.op)
        obtain ⟨op, hop', -⟩ := Option.map_eq_some_iff.mp hl
        exact exists_of_col hops hop'
      obtain ⟨op, hoper⟩ := hoper
      obtain ⟨x, hx, hwarn, hmem⟩ := loadGwlink_row hr hg hoper hadd
      refine ⟨x, hx, hwarn, ⟨?_, ?_, ?_, _, _, _, hmem⟩, ?_⟩
      · rw [hmem]
        exact hgws'
      · rw [hmem]
        exact (Ledger.col_modify_same (by intro o; rfl) _ _).trans hops
      · rw [hmem]
        exact hlinked.gwlinkJoin (r := ⟨r.2.operId, r.2.gwId⟩) _ _ hoper hfresh
      · rw [hmem]
        funext k
        rw [Function.update_apply]
        exact Ledger.get?_put _ _ _ k)
    ⟨hstart, hops, hlinked, _, _, _, rfl⟩ hnone
  have hlinks : mem'.gwlinks.get? = s.mem.gwlinks.get? := hview.trans h.gwlinks_eq.symm
  refine ⟨mem', hload, hlinks, fun k => ?_, hops', hlinked', hframe⟩
  have hrel := hgws' k
  generalize mem'.gateways.get? k = v at hrel
  generalize hg' : s.mem.gateways.get? k = v' at hrel
  cases hrel with
  | none => exact .none
  | some hpart =>
    refine .some ⟨hpart.kept, hpart.inv, fun gl => ?_⟩
    rw [hpart.mem_iff, hlinks]
    refine and_iff_left_of_imp fun hgl => ?_
    obtain ⟨op, hop'⟩ := h.gwOk.belongs hg' ((h.gwOk.inv hg').linkById_of_mem hgl)
    rw [hop']
    exact Option.some_ne_none _

end Loads

/-! ## The restart

All loads together, from the rows of a state that any run has reached.
-/

/-- The answers to the queries are those of a database with these rows. Operators and gateways do
not change here, and their rows are what memory has of them. -/
structure DbCells.Shows (t : DbCells) (s : Office) : Prop where
  /-- `QUERY_CONSUMERS` -/
  consumers : ShowsTable (fun r c => ConsumerCells.Shows r c) s.db.consumers t.consumers
  /-- `QUERY_ACCUNITS` -/
  units : ShowsTable (fun r c => UnitCells.Shows r c) s.db.units t.units
  /-- `QUERY_UNIT_IP_POOL` -/
  unitIpPool : ShowsTable (fun r c => InetCells.Shows r c) s.db.unitIpPool t.unitIpPool
  /-- `QUERY_GATEWAYS` -/
  gateways : ShowsTable (fun r c => GatewayCells.Shows r c) s.mem.gateways t.gateways
  /-- `QUERY_OPERATORS` -/
  operators : ShowsTable (fun r c => OperatorCells.Shows r c) s.mem.operators t.operators
  /-- `QUERY_GWLINKS` -/
  gwlinks : ShowsTable (fun r c => GwlinkCells.Shows r c) s.db.gwlinks t.gwlinks

/-- The records when users and groups have been loaded. -/
def Records.ofUsers (users : Ledger Int MbbUser) : Records where
  consumers := .empty
  units := .empty
  inets := .empty
  users := users
  operators := .empty
  gateways := .empty
  gwlinks := .empty

theorem Records.coherent_ofUsers {users : Ledger Int MbbUser}
    (h : ∀ id u, users.get? id = some u → u.childs = []) : (Records.ofUsers users).Coherent := by
  have hnil : ∀ {P C : Type}, Linked (fun _ : P => (none : Option (List C))) fun _ => none :=
    Linked.nil
  refine ⟨hnil, hnil, fun {p l} hl c => ?_, fun {c p} hup => ?_⟩
  · obtain ⟨u, hu, rfl⟩ := Option.map_eq_some_iff.mp hl
    rw [h p u hu]
    exact iff_of_false List.not_mem_nil (by simp [ofUsers, Ledger.col])
  · cases hup

section Same

variable {s : Office} {mem : Records}

/-- What is found of a link depends on the links of the gateways only. -/
theorem Office.MirrorInv.linkView_same (h : s.MirrorInv)
    (hlinks : mem.gwlinks.get? = s.mem.gwlinks.get?)
    (hgws : mem.gateways.Matches (fun g g' => g.kept = g'.kept ∧ g.st.Inv ∧
      ∀ gl, gl ∈ g.st.links ↔ gl ∈ g'.st.links) s.mem.gateways) :
    mem.linkView = s.mem.linkView := by
  funext id
  cases hr : s.mem.gwlinks.get? id with
  | none =>
    rw [Records.linkView_eq_none hr, Records.linkView_eq_none ((congrFun hlinks id).trans hr)]
  | some r =>
    obtain ⟨gl, hgl⟩ := h.gwOk.found hr
    obtain ⟨⟨r', g', gl'⟩, hby, heq⟩ := Option.map_eq_some_iff.mp hgl
    cases heq
    obtain ⟨-, hg', hlink⟩ := Records.gwlinkById_eq_some.mp hby
    obtain ⟨hmem, hid⟩ := GwState.mem_of_linkById hlink
    obtain ⟨g, hg, -, hinv, hiff⟩ := exists_of_row hgws hg'
    rw [hgl, Records.linkView_eq ((congrFun hlinks id).trans hr) hg, ← hid,
      hinv.linkById_of_mem ((hiff _).mpr hmem)]
    rfl

theorem ConsumerRec.Mirrors.of_kept {r r' : ConsumerRec} {row : ConsumerRow} (h : r'.Mirrors row)
    (hkept : r.kept = r'.kept) : r.Mirrors row := by
  obtain ⟨hname, hstart, hstop, huser⟩ : r.name = r'.name ∧ r.start = r'.start ∧
      r.stop = r'.stop ∧ r.user = r'.user := by simpa [ConsumerRec.kept] using hkept
  exact ⟨hname.trans h.name, huser.trans h.user, hstart ▸ h.start, hstop ▸ h.stop⟩

theorem UnitRec.Mirrors.of_kept {u u' : UnitRec} {row : UnitRow} (h : u'.Mirrors row)
    (hkept : u.kept = u'.kept) : u.Mirrors row := by
  obtain ⟨hname, hcon, hstart, hstop, hlocal⟩ : u.name = u'.name ∧ u.con = u'.con ∧
      u.start = u'.start ∧ u.stop = u'.stop ∧ u.isLocal = u'.isLocal := by
    simpa [UnitRec.kept] using hkept
  exact ⟨hname.trans h.name, hcon.trans h.con, hstart ▸ h.start, hstop ▸ h.stop,
    hlocal.trans h.isLocal⟩

/-- Tables that agree in a column match the same rows. -/
theorem matches_trans_col {V W R : Type} {l l' : Ledger Int V} {rows : Ledger Int R} {f : V → W}
    {M : V → R → Prop} (h : l.col f = l'.col f) (h' : l'.Matches M rows)
    (hM : ∀ v v' row, f v = f v' → M v' row → M v row) : l.Matches M rows := by
  intro k
  have hk := matches_of_col h k
  have hk' := h' k
  generalize l.get? k = v at hk ⊢
  generalize l'.get? k = v' at hk hk'
  generalize rows.get? k = w at hk' ⊢
  cases hk with
  | none => exact hk'
  | some hf =>
    cases hk' with
    | some hM' => exact .some (hM _ _ _ hf hM')

end Same

/-- What the loads make of the rows of a database whose records these are. -/
structure Records.LoadedAs (mem mem' : Records) : Prop where
  /-- consumers -/
  consumers : mem.consumers.col ConsumerRec.kept = mem'.consumers.col ConsumerRec.kept
  /-- units -/
  units : mem.units.col UnitRec.kept = mem'.units.col UnitRec.kept
  /-- entries -/
  inets : mem.inets.get? = mem'.inets.get?
  /-- users -/
  users : mem.users.col MbbUser.kept = mem'.users.col MbbUser.kept
  /-- their references -/
  coherent : mem.Coherent
  /-- operators -/
  operators : mem.operators.col OperatorRec.name = mem'.operators.col OperatorRec.name
  /-- their links -/
  opLinked : mem.OpLinked
  /-- gateways -/
  gateways : mem.gateways.Matches (fun g g' => g.kept = g'.kept ∧ g.st.Inv ∧
    ∀ gl, gl ∈ g.st.links ↔ gl ∈ g'.st.links) mem'.gateways
  /-- links -/
  gwlinks : mem.gwlinks.get? = mem'.gwlinks.get?

namespace Records.LoadedAs

variable {s : Office} {mem : Records}

/-- Children name the same parents, so parents list the same children. -/
theorem same (hl : mem.LoadedAs s.mem) (h : s.MirrorInv) (hop : s.mem.OpLinked) :
    mem.Same s.mem := by
  have hcon : mem.units.col UnitRec.con = s.mem.units.col UnitRec.con :=
    col_congr hl.units fun k => k.2.1
  have howner : (mem.inets.col fun e => some e.owner) = s.mem.inets.col fun e => some e.owner := by
    funext k
    rw [Ledger.col, hl.inets, Ledger.col]
  have huser : mem.consumers.col ConsumerRec.user = s.mem.consumers.col ConsumerRec.user :=
    col_congr hl.consumers fun k => k.2.2.2
  have hoper : (mem.gwlinks.col fun r => some r.op) = s.mem.gwlinks.col fun r => some r.op := by
    funext k
    rw [Ledger.col, hl.gwlinks, Ledger.col]
  obtain ⟨hunits, hinets, husers⟩ := hl.coherent
  have hops := hl.opLinked
  rw [hcon] at hunits
  rw [howner] at hinets
  rw [huser] at husers
  rw [OpLinked, hoper] at hops
  refine ⟨matches_of_linked hl.consumers hunits h.coherent.units,
    matches_of_linked hl.units hinets h.coherent.inets, congrFun hl.inets,
    matches_of_linked hl.users husers h.coherent.users, matches_of_linked hl.operators hops hop,
    fun k => ?_, congrFun hl.gwlinks⟩
  have hrel := hl.gateways k
  generalize mem.gateways.get? k = v at hrel
  generalize hg' : s.mem.gateways.get? k = v' at hrel
  cases hrel with
  | none => exact .none
  | some hg => exact .some ⟨hg.1, hg.2.1.queue_eq (h.gwOk.inv hg') hg.2.2⟩

theorem mirrorInv (hl : mem.LoadedAs s.mem) (h : s.MirrorInv) : Office.MirrorInv ⟨mem, s.db⟩ := by
  have hview := h.linkView_same hl.gwlinks hl.gateways
  refine ⟨⟨?_, ?_, fun k => ?_, fun id => ?_⟩, hl.coherent, ?_⟩
  · exact matches_trans_col hl.consumers h.mirror.consumers fun _ _ _ hkept hM => hM.of_kept hkept
  · exact matches_trans_col hl.units h.mirror.units fun _ _ _ hkept hM => hM.of_kept hkept
  · change Option.Rel _ (mem.inets.get? k) _
    rw [hl.inets]
    exact h.mirror.inets k
  · change Option.Rel _ (mem.linkView id) _
    rw [hview]
    exact h.mirror.gwlinks id
  · refine ⟨fun {gw g} hg => ?_, fun {gw g id gl} hg hgl => ?_, fun {id r} hr => ?_⟩
    · obtain ⟨g', -, -, hinv, -⟩ := hl.gateways.get? hg
      exact hinv
    · obtain ⟨g', hg', -, -, hiff⟩ := hl.gateways.get? hg
      obtain ⟨hmem, hid⟩ := GwState.mem_of_linkById hgl
      change ∃ op, mem.gwlinks.get? id = some ⟨op, gw⟩
      rw [hl.gwlinks, ← hid]
      exact h.gwOk.belongs hg' ((h.gwOk.inv hg').linkById_of_mem ((hiff gl).mp hmem))
    · change ∃ gl, mem.linkView id = some (r, gl)
      rw [hview]
      exact h.gwOk.found ((congrFun hl.gwlinks id).symm.trans hr)

end Records.LoadedAs

/-- The loads one after the other; what one has made stays as it is in the later ones. -/
theorem Office.MirrorInv.dbLoad {s : Office} (h : s.MirrorInv) (hop : s.mem.OpLinked) {t : DbCells}
    (ht : t.Shows s) {users : Ledger Int MbbUser}
    (husers : users.col MbbUser.kept = s.mem.users.col MbbUser.kept)
    (hchilds : ∀ id u, users.get? id = some u → u.childs = []) :
    ∃ mem, Mbb.dbLoad t (.ofUsers users) = (none, mem, []) ∧ mem.LoadedAs s.mem := by
  obtain ⟨m₁, hload₁, hcoh₁, hcons₁, husers₁, c₁, u₁, hm₁⟩ := h.loadConsumers [] ht.consumers
    (Records.coherent_ofUsers hchilds) rfl husers
  obtain ⟨m₂, hload₂, hcoh₂, hunits₂, hcons₂, c₂, u₂, hm₂⟩ := h.loadUnits [] ht.units hcoh₁
    (by rw [hm₁]; rfl) hcons₁
  obtain ⟨m₃, hload₃, hcoh₃, hinets₃, hunits₃, u₃, i₃, hm₃⟩ := h.loadIpPool [] ht.unitIpPool hcoh₂
    (by rw [hm₂, hm₁]; rfl) hunits₂
  have hnone : m₃.gateways.get? = (fun _ => none) ∧ m₃.operators.get? = (fun _ => none) ∧
      m₃.gwlinks.get? = fun _ => none := by
    rw [hm₃, hm₂, hm₁]
    exact ⟨rfl, rfl, rfl⟩
  obtain ⟨m₄, hload₄, hgws₄, hnew₄, g₄, hm₄⟩ := loadGateways [] ht.gateways hnone.1
  have hnone₄ : m₄.operators.get? = (fun _ => none) ∧ m₄.gwlinks.get? = fun _ => none := by
    rw [hm₄]
    exact hnone.2
  obtain ⟨m₅, hload₅, hops₅, hlinked₅, o₅, hm₅⟩ := loadOperators [] ht.operators hnone₄.1 hnone₄.2
  have hgws₅ : m₅.gateways = m₄.gateways ∧ m₅.gwlinks = m₄.gwlinks := by
    rw [hm₅]
    exact ⟨rfl, rfl⟩
  rw [← hgws₅.1] at hgws₄ hnew₄
  rw [← hgws₅.2] at hnone₄
  obtain ⟨m₆, hload₆, hlinks₆, hgws₆, hops₆, hlinked₆, g₆, o₆, l₆, hm₆⟩ :=
    h.loadGwlinks [] hop ht.gwlinks hnone₄.2 hgws₄ hnew₄ hops₅ hlinked₅
  refine ⟨m₆, ?_, ?_, ?_, ?_, ?_, ?_, hops₆, hlinked₆, hgws₆, hlinks₆⟩
  · rw [Mbb.dbLoad, hload₁, dbLoadThen, hload₂, dbLoadThen, hload₃, dbLoadThen, hload₄, dbLoadThen,
      hload₅, dbLoadThen, hload₆]
  · rw [hm₆, hm₅, hm₄, hm₃]
    exact hcons₂
  · rw [hm₆, hm₅, hm₄]
    exact hunits₃
  · rw [hm₆, hm₅, hm₄]
    exact hinets₃
  · rw [hm₆, hm₅, hm₄, hm₃, hm₂]
    exact husers₁
  · rw [hm₆, hm₅, hm₄]
    exact ⟨hcoh₃.units, hcoh₃.inets, hcoh₃.users⟩

/-- **A restart changes nothing.** After any run of commands that keeps records and rows alike, the
rows are loaded without an error and without a warning, in whatever order they come and whatever
numerals are written for the numbers. The records are those that were there, and records and rows
are alike again, so that the daemon can go on from them. -/
theorem restart_same {s₀ s : Office} (h₀ : s₀.MirrorInv) (hop : s₀.mem.OpLinked)
    (hreach : Office.Reaches Office.MirrorStep s₀ s) {t : DbCells} (ht : t.Shows s)
    {users : Ledger Int MbbUser} (husers : users.col MbbUser.kept = s.mem.users.col MbbUser.kept)
    (hchilds : ∀ id u, users.get? id = some u → u.childs = []) :
    ∃ mem, dbLoad t (.ofUsers users) = (none, mem, []) ∧ mem.Same s.mem ∧
      Office.MirrorInv ⟨mem, s.db⟩ ∧ mem.OpLinked := by
  have h := h₀.reach hreach
  have hop := h₀.reach_opLinked hop hreach
  obtain ⟨mem, hload, hl⟩ := h.dbLoad hop ht husers hchilds
  exact ⟨mem, hload, hl.same h hop, hl.mirrorInv h, hl.opLinked⟩

/-- A consumer with a unit that has its times from it. -/
theorem restart_same_unit :
    let e : Env := ⟨1000, 1, fun _ => true⟩
    let s₁ := (Office.empty.addConsumer e "con").2
    let s₂ := (s₁.consumerAddUnit e "con" "unit" true).2
    let t : DbCells := ⟨[⟨some "1", "con", none, some "1000", some "0"⟩],
      [⟨some "01", "unit", some "1", some "f", none, none⟩], [], [], [], []⟩
    ∃ mem, dbLoad t (.ofUsers .empty) = (none, mem, []) ∧ mem.Same s₂.mem ∧
      (mem.units.get? 1).map UnitRec.kept = some ("unit", some 1, -1, -1, false) := by
  intro e s₁ s₂ t
  have hstep : ∀ s, Office.MirrorStep s e (.addConsumer "con") ∧
      Office.MirrorStep s e (.consumerAddUnit "con" "unit" true) := fun s =>
    ⟨⟨(by decide : (0 : Int) ≤ 1000), trivial⟩, ⟨(by decide : (0 : Int) ≤ 1000), trivial⟩⟩
  have hreach : Office.Reaches Office.MirrorStep Office.empty s₂ :=
    .head ⟨e, .addConsumer "con", none, (hstep _).1, rfl⟩ <|
      .single ⟨e, .consumerAddUnit "con" "unit" true, none, (hstep _).2, rfl⟩
  have hid : ∀ str, UintText (textBytes str) 1 → ShowsUint (some str) 1 := fun str h =>
    ⟨str, 1, rfl, h, by decide, rfl⟩
  have hcon : ConsumerCells.Shows (1, ⟨"con", none, some 1000, some 0⟩)
      ⟨some "1", "con", none, some "1000", some "0"⟩ :=
    ⟨hid "1" ⟨by decide, by decide⟩, rfl, rfl,
      ⟨"1000", 1000, rfl, ⟨by decide, by decide⟩, by decide, rfl⟩,
      ⟨"0", 0, rfl, ⟨by decide, by decide⟩, by decide, rfl⟩⟩
  have hunit : UnitCells.Shows (1, ⟨"unit", some 1, none, none, false⟩)
      ⟨some "01", "unit", some "1", some "f", none, none⟩ :=
    ⟨hid "01" ⟨by decide, by decide⟩, rfl, hid "1" ⟨by decide, by decide⟩, .inl rfl, rfl, rfl⟩
  have ht : t.Shows s₂ := ⟨⟨_, .refl _, .cons hcon .nil⟩, ⟨_, .refl _, .cons hunit .nil⟩,
    ⟨_, .refl _, .nil⟩, ⟨_, .refl _, .nil⟩, ⟨_, .refl _, .nil⟩, ⟨_, .refl _, .nil⟩⟩
  have husers : (.empty : Ledger Int MbbUser).col MbbUser.kept =
      s₂.mem.users.col MbbUser.kept := rfl
  obtain ⟨mem, hload, hsame, -⟩ := restart_same Office.MirrorInv.empty Linked.nil hreach ht husers
    (fun _ _ h => by cases h)
  obtain ⟨u, hu, hkept, -⟩ := exists_of_row hsame.units (k := 1) rfl
  exact ⟨mem, hload, hsame, by rw [hu, Option.map_some, hkept]; rfl⟩

end Mbb
