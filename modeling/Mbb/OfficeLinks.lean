import Mbb.Lib.Links
import Mbb.OfficeStep

/-!
# References in memory

Consumers and units, units and entries, users and consumers refer to each other. A command
that succeeds changes both sides, and the ids in memory are those of the rows.
-/

namespace Mbb

/-- What `mbb_db_insert_ret` does when it succeeds. -/
theorem dbInsertRet_eq_some {R : Type} {table rows : Ledger Int R} {ok : Bool} {id : Int} {row : R}
    (h : dbInsertRet table ok id row = some rows) :
    ∃ hfresh : table.get? id = none, rows = table.insert id row hfresh := by
  rw [dbInsertRet] at h
  split at h
  · rename_i hok
    exact ⟨hok.2.2, (Option.some.inj h).symm⟩
  · cases h

/-- The references agree. -/
structure Records.Coherent (mem : Records) : Prop where
  /-- units of consumers -/
  units : Linked (mem.consumers.col ConsumerRec.units) (mem.units.col UnitRec.con)
  /-- entries of units -/
  inets : Linked (mem.units.col UnitRec.sep) (mem.inets.col fun e => some e.owner)
  /-- consumers of users -/
  users : Linked (mem.users.col MbbUser.childs) (mem.consumers.col ConsumerRec.user)

/-- The ids in memory are those of the rows. -/
structure Office.Keyed (s : Office) : Prop where
  /-- consumers -/
  consumers : s.mem.consumers.SameKeys s.db.consumers
  /-- units -/
  units : s.mem.units.SameKeys s.db.units
  /-- entries -/
  inets : s.mem.inets.SameKeys s.db.unitIpPool

namespace Records.Coherent

variable {mem : Records} {id : Int}

/-! ## Consumers -/

theorem consumerJoin (h : mem.Coherent) (hid : mem.consumers.get? id = none) (name : String)
    (start stop : Int) : (mem.consumerJoin id name start stop).Coherent := by
  refine ⟨?_, h.inets, ?_⟩
  · change Linked ((mem.consumers.put id _).col _) _
    rw [Ledger.col_put]
    exact h.units.newParent (Ledger.col_eq_none.mpr hid)
  · change Linked _ ((mem.consumers.put id _).col _)
    rw [Ledger.col_put]
    exact h.users.orphan (Or.inl (Ledger.col_eq_none.mpr hid)) (Or.inr rfl)

/-- A consumer without units goes. -/
theorem consumerRemove (h : mem.Coherent) {con : ConsumerRec}
    (hcon : mem.consumers.get? id = some con) (hunits : con.units = []) :
    ((mem.leaveUser id con).consumerRemove id).Coherent := by
  have hkids := Ledger.col_of_get? hcon ConsumerRec.units
  rw [hunits] at hkids
  have hup := Ledger.col_of_get? hcon ConsumerRec.user
  rw [leaveUser]
  cases huser : con.user with
  | none =>
    rw [huser] at hup
    refine ⟨?_, h.inets, ?_⟩
    · change Linked ((mem.consumers.drop _).col _) _
      rw [Ledger.col_drop_one]
      exact h.units.dropParent hkids
    · change Linked _ ((mem.consumers.drop _).col _)
      rw [Ledger.col_drop_one]
      exact h.users.orphan (Or.inr hup) (Or.inl rfl)
  | some user =>
    rw [huser] at hup
    -- the user forgets the consumer before the consumer goes
    obtain ⟨l, hl⟩ := h.users.exists_parent hup
    obtain ⟨r, hr, rfl⟩ := Option.map_eq_some_iff.mp hl
    refine ⟨?_, h.inets, ?_⟩
    · change Linked ((mem.consumers.drop _).col _) _
      rw [Ledger.col_drop_one]
      exact h.units.dropParent hkids
    · change Linked ((mem.users.modify user _).col _) ((mem.consumers.drop _).col _)
      rw [Ledger.col_drop_one, Ledger.col_modify hr]
      exact h.users.detach_one hl hup (Or.inl rfl)

/-- A change of a consumer that is about neither its user nor its units. -/
theorem modConsumer (h : mem.Coherent) {f : ConsumerRec → ConsumerRec}
    (hunits : ∀ r, (f r).units = r.units) (huser : ∀ r, (f r).user = r.user) (id : Int) :
    ({ mem with consumers := mem.consumers.modify id f } : Records).Coherent := by
  refine ⟨?_, h.inets, ?_⟩
  · change Linked ((mem.consumers.modify id f).col _) _
    rw [Ledger.col_modify_same hunits]
    exact h.units
  · change Linked _ ((mem.consumers.modify id f).col _)
    rw [Ledger.col_modify_same huser]
    exact h.users

/-- A change of a user and a consumer that refer to each other. -/
theorem modUser (h : mem.Coherent) {f : MbbUser → MbbUser} {g : ConsumerRec → ConsumerRec}
    {user : Int} (hunits : ∀ r, (g r).units = r.units)
    (hlinked : Linked ((mem.users.modify user f).col MbbUser.childs)
      ((mem.consumers.modify id g).col ConsumerRec.user)) :
    ({ mem with
      users := mem.users.modify user f, consumers := mem.consumers.modify id g } :
      Records).Coherent := by
  refine ⟨?_, h.inets, hlinked⟩
  change Linked ((mem.consumers.modify id g).col _) _
  rw [Ledger.col_modify_same hunits]
  exact h.units

theorem setUser (h : mem.Coherent) {con : ConsumerRec} {user : Int} {r : MbbUser}
    (hcon : mem.consumers.get? id = some con) (hr : mem.users.get? user = some r)
    (hnone : con.user = none) :
    ((mem.userAddConsumer user id).setConsumerUser id (some user)).Coherent := by
  have hup := Ledger.col_of_get? hcon ConsumerRec.user
  rw [hnone] at hup
  simp only [Records.setConsumerUser, Records.userAddConsumer]
  apply h.modUser
  · exact fun _ => rfl
  · rw [Ledger.col_modify hr, Ledger.col_modify hcon]
    exact h.users.attach_one (Ledger.col_of_get? hr _) (Or.inr hup)

theorem unsetUser (h : mem.Coherent) {con : ConsumerRec} {user : Int}
    (hcon : mem.consumers.get? id = some con) (huser : con.user = some user) :
    ((mem.userDelConsumer user id).setConsumerUser id none).Coherent := by
  have hup := Ledger.col_of_get? hcon ConsumerRec.user
  rw [huser] at hup
  obtain ⟨l, hl⟩ := h.users.exists_parent hup
  obtain ⟨r, hr, rfl⟩ := Option.map_eq_some_iff.mp hl
  simp only [Records.setConsumerUser, Records.userDelConsumer]
  apply h.modUser
  · exact fun _ => rfl
  · rw [Ledger.col_modify hr, Ledger.col_modify hcon]
    exact h.users.detach_one hl hup (Or.inr rfl)

/-! ## Units -/

theorem unitJoin (h : mem.Coherent) (hid : mem.units.get? id = none) (name : String)
    (start stop : Int) : (mem.unitJoin id name none start stop).Coherent := by
  refine ⟨?_, ?_, h.users⟩
  · change Linked _ ((mem.units.put id _).col _)
    rw [Ledger.col_put]
    exact h.units.orphan (Or.inl (Ledger.col_eq_none.mpr hid)) (Or.inr rfl)
  · change Linked ((mem.units.put id _).col _) _
    rw [Ledger.col_put]
    exact h.inets.newParent (Ledger.col_eq_none.mpr hid)

theorem consumerAddUnit (h : mem.Coherent) {con : Int} {r : ConsumerRec}
    (hcon : mem.consumers.get? con = some r) (hid : mem.units.get? id = none) (name : String)
    (start stop : Int) :
    ((mem.consumerAddUnit con id).unitJoin id name (some con) start stop).Coherent := by
  refine ⟨?_, ?_, ?_⟩
  · change Linked ((mem.consumers.modify con _).col _) ((mem.units.put id _).col _)
    rw [Ledger.col_modify hcon, Ledger.col_put]
    exact h.units.attach_one (Ledger.col_of_get? hcon _) (Or.inl (Ledger.col_eq_none.mpr hid))
  · change Linked ((mem.units.put id _).col _) _
    rw [Ledger.col_put]
    exact h.inets.newParent (Ledger.col_eq_none.mpr hid)
  · change Linked _ ((mem.consumers.modify con _).col _)
    rw [Ledger.col_modify_same (by intro r; rfl)]
    exact h.users

/-- A unit without entries goes. -/
theorem unitRemove (h : mem.Coherent) {u : UnitRec} (hu : mem.units.get? id = some u)
    (hsep : u.sep = []) : (mem.unitRemove id u).Coherent := by
  have hkids := Ledger.col_of_get? hu UnitRec.sep
  rw [hsep] at hkids
  have hup := Ledger.col_of_get? hu UnitRec.con
  rw [Records.unitRemove, leaveConsumer]
  cases hcon : u.con with
  | none =>
    rw [hcon] at hup
    refine ⟨?_, ?_, h.users⟩
    · change Linked _ ((mem.units.drop _).col _)
      rw [Ledger.col_drop_one]
      exact h.units.orphan (Or.inr hup) (Or.inl rfl)
    · change Linked ((mem.units.drop _).col _) _
      rw [Ledger.col_drop_one]
      exact h.inets.dropParent hkids
  | some con =>
    rw [hcon] at hup
    obtain ⟨l, hl⟩ := h.units.exists_parent hup
    obtain ⟨r, hr, rfl⟩ := Option.map_eq_some_iff.mp hl
    refine ⟨?_, ?_, ?_⟩
    · change Linked ((mem.consumers.modify con _).col _) ((mem.units.drop _).col _)
      rw [Ledger.col_modify hr, Ledger.col_drop_one]
      exact h.units.detach_one hl hup (Or.inl rfl)
    · change Linked ((mem.units.drop _).col _) _
      rw [Ledger.col_drop_one]
      exact h.inets.dropParent hkids
    · change Linked _ ((mem.consumers.modify con _).col _)
      rw [Ledger.col_modify_same (by intro r; rfl)]
      exact h.users

/-- A change of a unit that is about neither its consumer nor its entries. -/
theorem modUnit (h : mem.Coherent) {f : UnitRec → UnitRec} (hcon : ∀ r, (f r).con = r.con)
    (hsep : ∀ r, (f r).sep = r.sep) (id : Int) :
    ({ mem with units := mem.units.modify id f } : Records).Coherent := by
  refine ⟨?_, ?_, h.users⟩
  · change Linked _ ((mem.units.modify id f).col _)
    rw [Ledger.col_modify_same hcon]
    exact h.units
  · change Linked ((mem.units.modify id f).col _) _
    rw [Ledger.col_modify_same hsep]
    exact h.inets

/-- A change of a consumer and a unit that refer to each other. -/
theorem modOwner (h : mem.Coherent) {f : ConsumerRec → ConsumerRec} {g : UnitRec → UnitRec}
    {con : Int} (huser : ∀ r, (f r).user = r.user) (hsep : ∀ r, (g r).sep = r.sep)
    (hlinked : Linked ((mem.consumers.modify con f).col ConsumerRec.units)
      ((mem.units.modify id g).col UnitRec.con)) :
    ({ mem with
      consumers := mem.consumers.modify con f, units := mem.units.modify id g } :
      Records).Coherent := by
  refine ⟨hlinked, ?_, ?_⟩
  · change Linked ((mem.units.modify id g).col _) _
    rw [Ledger.col_modify_same hsep]
    exact h.inets
  · change Linked _ ((mem.consumers.modify con f).col _)
    rw [Ledger.col_modify_same huser]
    exact h.users

theorem setConsumer (h : mem.Coherent) {u : UnitRec} {con : Int} {r : ConsumerRec}
    (hu : mem.units.get? id = some u) (hr : mem.consumers.get? con = some r)
    (hnone : u.con = none) :
    ((mem.setUnitConsumer id (some con)).consumerAddUnit con id).Coherent := by
  have hup := Ledger.col_of_get? hu UnitRec.con
  rw [hnone] at hup
  simp only [Records.consumerAddUnit, Records.setUnitConsumer]
  apply h.modOwner
  · exact fun _ => rfl
  · exact fun _ => rfl
  · rw [Ledger.col_modify hr, Ledger.col_modify hu]
    exact h.units.attach_one (Ledger.col_of_get? hr _) (Or.inr hup)

theorem unsetConsumer (h : mem.Coherent) {u : UnitRec} {con : Int}
    (hu : mem.units.get? id = some u) (hcon : u.con = some con) :
    ((mem.consumerDelUnit con id).setUnitConsumer id none).Coherent := by
  have hup := Ledger.col_of_get? hu UnitRec.con
  rw [hcon] at hup
  obtain ⟨l, hl⟩ := h.units.exists_parent hup
  obtain ⟨r, hr, rfl⟩ := Option.map_eq_some_iff.mp hl
  simp only [Records.setUnitConsumer, Records.consumerDelUnit]
  apply h.modOwner
  · exact fun _ => rfl
  · exact fun _ => rfl
  · rw [Ledger.col_modify hr, Ledger.col_modify hu]
    exact h.units.detach_one hl hup (Or.inr rfl)

/-! ## Inet entries -/

theorem unitAddInet (h : mem.Coherent) {entry : EntryRec} {u : UnitRec}
    (hu : mem.units.get? entry.owner = some u) (hid : mem.inets.get? id = none) :
    (mem.unitAddInet id entry).Coherent := by
  refine ⟨?_, ?_, h.users⟩
  · change Linked _ ((mem.units.modify entry.owner _).col _)
    rw [Ledger.col_modify_same (by intro r; rfl)]
    exact h.units
  · change Linked ((mem.units.modify entry.owner _).col _) ((mem.inets.put id _).col _)
    rw [Ledger.col_modify hu, Ledger.col_put]
    exact h.inets.attach (Ledger.col_of_get? hu _) (Or.inl (Ledger.col_eq_none.mpr hid))
      fun x => List.mem_cons

/-- An entry is in the separator of its unit. -/
theorem owner_of_entry (h : mem.Coherent) {entry : EntryRec}
    (hentry : mem.inets.get? id = some entry) :
    ∃ u, mem.units.get? entry.owner = some u ∧ id ∈ u.sep := by
  have hup := Ledger.col_of_get? hentry fun e : EntryRec => some e.owner
  obtain ⟨l, hl⟩ := h.inets.exists_parent hup
  obtain ⟨u, hu, rfl⟩ := Option.map_eq_some_iff.mp hl
  exact ⟨u, hu, (h.inets.mem_iff hl id).mpr hup⟩

theorem unitDelInet_eq (h : mem.Coherent) {entry : EntryRec}
    (hentry : mem.inets.get? id = some entry) :
    mem.unitDelInet id entry = { mem with
      units := mem.units.modify entry.owner fun u =>
        { u with sep := u.sep.filter fun k => decide (k ≠ id) }
      inets := mem.inets.drop fun k => decide (k = id) } := by
  obtain ⟨u, hu, hmem⟩ := h.owner_of_entry hentry
  rw [Records.unitDelInet, if_pos]
  rw [hu, Option.any_some]
  exact decide_eq_true hmem

theorem unitDelInet (h : mem.Coherent) {entry : EntryRec}
    (hentry : mem.inets.get? id = some entry) : (mem.unitDelInet id entry).Coherent := by
  obtain ⟨u, hu, -⟩ := h.owner_of_entry hentry
  rw [h.unitDelInet_eq hentry]
  refine ⟨?_, ?_, h.users⟩
  · change Linked _ ((mem.units.modify entry.owner _).col _)
    rw [Ledger.col_modify_same (by intro r; rfl)]
    exact h.units
  · change Linked ((mem.units.modify entry.owner _).col _) ((mem.inets.drop _).col _)
    rw [Ledger.col_modify hu, Ledger.col_drop_one]
    exact h.inets.detach_one (Ledger.col_of_get? hu _)
      (Ledger.col_of_get? hentry fun e : EntryRec => some e.owner) (Or.inl rfl)

theorem unitClearInet (h : mem.Coherent) {u : UnitRec} (hu : mem.units.get? id = some u) :
    (mem.unitClearInet id u).Coherent := by
  have hkids := Ledger.col_of_get? hu UnitRec.sep
  refine ⟨?_, ?_, h.users⟩
  · change Linked _ ((mem.units.modify id _).col _)
    rw [Ledger.col_modify_same (by intro r; rfl)]
    exact h.units
  · change Linked ((mem.units.modify id _).col _) ((mem.inets.drop _).col _)
    rw [Ledger.col_modify hu]
    -- all entries leave at once: those the unit lists are those it owns
    refine h.inets.detach (S := fun k => k ∈ u.sep) hkids ?_ ?_ ?_ ?_
    · exact fun k hk => (h.inets.mem_iff hkids k).mp hk
    · intro k hk
      rw [Ledger.col_drop, if_pos (decide_eq_true hk)]
      exact Or.inl rfl
    · intro k hk
      rw [Ledger.col_drop, if_neg (by rwa [decide_eq_true_iff])]
    · intro k
      refine iff_of_false List.not_mem_nil fun hk => hk.2 hk.1

/-- A change of an entry that is not about its owner. -/
theorem modEntry (h : mem.Coherent) {f : EntryRec → EntryRec}
    (howner : ∀ r, (f r).owner = r.owner) (id : Int) :
    ({ mem with inets := mem.inets.modify id f } : Records).Coherent := by
  refine ⟨h.units, ?_, h.users⟩
  change Linked _ ((mem.inets.modify id f).col _)
  rw [Ledger.col_modify_same (by intro r; exact congrArg some (howner r))]
  exact h.inets

end Records.Coherent

namespace Office

variable {s s' : Office} {e : Env} {c : OfficeCmd}

/-- A command that succeeds keeps the references in agreement. -/
theorem Commit.coherent (hc : Commit s e c s') (h : s.mem.Coherent) (hk : s.Keyed) :
    s'.mem.Coherent := by
  cases hc with
  | addConsumer hrows =>
    obtain ⟨hfresh, -⟩ := dbInsertRet_eq_some hrows
    exact h.consumerJoin ((hk.consumers _).mpr hfresh) _ _ _
  | dropConsumer hcon hunits => exact h.consumerRemove hcon hunits
  | consumerModName id => exact h.modConsumer (by intro r; rfl) (by intro r; rfl) id
  | consumerModTime hset => exact h.modConsumer (by intro r; rfl) (by intro r; rfl) _
  | consumerSetUser hcon huser hnone => exact h.setUser hcon huser hnone
  | consumerUnsetUser hcon huser => exact h.unsetUser hcon huser
  | addUnit hrows =>
    obtain ⟨hfresh, -⟩ := dbInsertRet_eq_some hrows
    exact h.unitJoin ((hk.units _).mpr hfresh) _ _ _
  | consumerAddUnit hcon hopen hrows =>
    obtain ⟨hfresh, -⟩ := dbInsertRet_eq_some hrows
    exact h.consumerAddUnit hcon ((hk.units _).mpr hfresh) _ _ _
  | dropUnit hu hsep => exact h.unitRemove hu hsep
  | unitModName id => exact h.modUnit (by intro r; rfl) (by intro r; rfl) id
  | unitModTime hset => exact h.modUnit (by intro r; rfl) (by intro r; rfl) _
  | unitSetConsumer hu hcon hnone => exact h.setConsumer hu hcon hnone
  | unitUnsetConsumer hu hcon hown => exact h.unsetConsumer hu hcon
  | @unitInheritTime name id con u hu hcon =>
    have htimes : (s.mem.setUnitTime id (s.mem.unitGetStart u) (s.mem.unitGetEnd u)).Coherent :=
      h.modUnit (by intro r; rfl) (by intro r; rfl) id
    -- first the times, which are in no reference, then the consumer
    refine htimes.unsetConsumer (u := { u with
      start := s.mem.unitGetStart u, stop := s.mem.unitGetEnd u }) ?_ hcon
    change (s.mem.units.modify id _).get? id = _
    rw [Ledger.get?_modify, if_pos rfl, hu, Option.map_some]
  | unitLocal id => exact h.modUnit (by intro r; rfl) (by intro r; rfl) id
  | unitAddInet hu hopen hrows =>
    obtain ⟨hfresh, -⟩ := dbInsertRet_eq_some hrows
    exact h.unitAddInet (Ledger.get?_of_find? hu) ((hk.inets _).mpr hfresh)
  | dropInet hentry => exact h.unitDelInet hentry
  | unitClearInet hu => exact h.unitClearInet hu
  | unitModInetTime hentry htest hdb => exact h.modEntry (by intro r; rfl) _
  | unitModInetNice hentry hnice hdb => exact h.modEntry (by intro r; rfl) _
  | addGwlink hgw hop hcan hrows hadd => exact ⟨h.units, h.inets, h.users⟩
  | dropGwlink hgl => exact ⟨h.units, h.inets, h.users⟩
  | gwlinkModTime hset => exact ⟨h.units, h.inets, h.users⟩

end Office

end Mbb
