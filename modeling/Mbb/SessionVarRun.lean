import Mbb.SessionVar

/-!
# Runs of sessions with variables

As long as no variable ends while a session is being made, variables and data are freed once and not
used afterwards, and what one session has for a variable is its own matter. A session that has been
made when a variable ends, and is put into the table then, reads the variable that has been freed.
-/

namespace Mbb

namespace SessionVar

open MemEvent

variable {V : Type} {s s' : State V} {k v : ℕ}

/-! ## Data of sessions -/

theorem ptr_modify {session : Session} (hk : s.sessions.get? k = some session)
    {f : Session → Session} (hs : s'.sessions = s.sessions.modify k f) (k' v' : ℕ) :
    s'.ptr k' v' = if k' = k then (f session).vars.get? v' else s.ptr k' v' := by
  rw [State.ptr, hs, Ledger.get?_modify]
  split
  · rw [hk]
    rfl
  · rfl

/-- One datum more. -/
theorem ptr_insert {session : Session} (hk : s.sessions.get? k = some session) {data : Ptr}
    (hs : s'.sessions = s.sessions.modify k fun session =>
      { session with vars := session.vars.put v data }) (k' v' : ℕ) :
    s'.ptr k' v' = if k' = k ∧ v' = v then some data else s.ptr k' v' := by
  rw [ptr_modify hk hs]
  split
  · rename_i hkk
    rw [Ledger.get?_put]
    by_cases hv : v' = v
    · rw [if_pos hv, if_pos ⟨hkk, hv⟩]
    · rw [if_neg hv, if_neg fun h => hv h.2, State.ptr, hkk, hk]
      rfl
  · rename_i hkk
    rw [if_neg fun h => hkk h.1]

/-! ## What holds in every state

Which variables and data are live, and who can reach them: variables by the list and by sessions,
data by one session each.
-/

/-- What has been allocated and not freed. -/
def State.live (s : State V) : Set Obj :=
  {o | (∃ v ∈ s.alive, o = .var v) ∨ ∃ k v n, s.ptr k v = some (.own n) ∧ o = .data (.own n)}

/-- What holds in every state. Sessions have entries of live variables only, no datum has two
sessions, and what the trace has allocated and not freed is what is live. -/
structure State.Inv (s : State V) : Prop where
  /-- numbers of variables have been given out -/
  varLt : ∀ v ∈ s.alive, v < s.varId
  /-- no variable is twice among those that are alive -/
  nodup : s.alive.Nodup
  /-- no variable is twice in the queue -/
  queueNodup : s.varQueue.Nodup
  /-- variables in the queue have not been freed -/
  queue : ∀ v ∈ s.varQueue, v ∈ s.alive
  /-- both operations, or none -/
  both : ∀ v, (s.priv v).opNew = (s.priv v).opFree
  /-- numbers of sessions have been given out -/
  sessionLt : ∀ k session, s.sessions.get? k = some session → k < s.sessionNo
  /-- sessions have data of variables that have not been freed -/
  entry : ∀ k v data, s.ptr k v = some data → v ∈ s.alive ∧
    if (s.priv v).opNew then ∃ n < s.dataId, data = .own n else data = .static v
  /-- data that are made are not shared -/
  owner : ∀ k v k' v' n, s.ptr k v = some (.own n) → s.ptr k' v' = some (.own n) → k = k' ∧ v = v'
  /-- what has happened leaves allocated what is live -/
  trace : Holds s.trace s.live
  /-- numbers of data that are to come have not been used -/
  freshData : ∀ n, s.dataId ≤ n → .alloc (.data (.own n)) ∉ s.trace
  /-- numbers of variables that are to come have not been used -/
  freshVar : ∀ v, s.varId ≤ v → .alloc (.var v) ∉ s.trace

theorem inv_start : (State.start : State V).Inv where
  varLt v hv := by cases hv
  nodup := List.nodup_nil
  queueNodup := List.nodup_nil
  queue v hv := by cases hv
  both _ := rfl
  sessionLt k session hk := by cases hk
  entry k v data hk := by cases hk
  owner k v k' v' n hk := by cases hk
  trace := by
    refine Holds.nil.congr fun o => (iff_of_false (Set.notMem_empty o) ?_)
    rintro (⟨v, hv, -⟩ | ⟨k, v, n, hk, -⟩)
    · cases hv
    · cases hk
  freshData n _ hn := by cases hn
  freshVar v _ hv := by cases hv

theorem State.Inv.own_lt (h : s.Inv) {n : ℕ} (hk : s.ptr k v = some (.own n)) : n < s.dataId := by
  obtain ⟨-, hdata⟩ := h.entry k v _ hk
  split at hdata
  · obtain ⟨m, hm, heq⟩ := hdata
    obtain rfl := Ptr.own.inj heq
    exact hm
  · cases hdata

/-- A session gets a datum for a variable. -/
theorem State.Inv.sessionInsertVar (h : s.Inv) {session : Session}
    (hk : s.sessions.get? k = some session) (hv : v ∈ s.alive) (hnone : s.ptr k v = none) (x : V) :
    (s.sessionInsertVar k v x).Inv := by
  have hvar : Obj.var v ∈ s.live := .inl ⟨v, hv, rfl⟩
  have huse : Holds (s.trace ++ [.use (.var v)]) s.live :=
    h.trace.uses fun e he => ⟨_, hvar, List.mem_singleton.mp he⟩
  have hsessions : ∀ data k' session', (s.sessions.modify k fun session =>
      { session with vars := session.vars.put v data }).get? k' = some session' →
      k' < s.sessionNo := by
    intro data k' session' hk'
    cases hget : s.sessions.get? k' with
    | none =>
      rw [Ledger.get?_modify_eq_none.mpr hget] at hk'
      cases hk'
    | some old => exact h.sessionLt k' old hget
  have hother : ∀ {k' v' data}, s.ptr k' v' = some data → ¬ (k' = k ∧ v' = v) := by
    rintro k' v' data hptr ⟨rfl, rfl⟩
    rw [hnone] at hptr
    cases hptr
  rw [State.sessionInsertVar]
  split
  · rename_i hnew
    have hptr : ∀ k' v', State.ptr { s with
        sessions := s.sessions.modify k fun session =>
          { session with vars := session.vars.put v (.own s.dataId) }
        dataId := s.dataId + 1
        value := Function.update s.value (.own s.dataId) (some x)
        trace := s.trace ++ [.use (.var v), .alloc (.data (.own s.dataId))] } k' v' =
        if k' = k ∧ v' = v then some (.own s.dataId) else s.ptr k' v' := ptr_insert hk rfl
    refine ⟨h.varLt, h.nodup, h.queueNodup, h.queue, h.both, hsessions _, fun k' v' data hd => ?_,
      fun k₁ v₁ k₂ v₂ n h₁ h₂ => ?_, ?_, fun n hn => ?_, fun v' hv' => ?_⟩
    · rw [hptr] at hd
      split at hd
      · rename_i heq
        obtain rfl := Option.some.inj hd
        rw [heq.2]
        refine ⟨hv, ?_⟩
        rw [if_pos hnew]
        exact ⟨s.dataId, Nat.lt_succ_self _, rfl⟩
      · obtain ⟨halive, hdata⟩ := h.entry k' v' data hd
        refine ⟨halive, ?_⟩
        split at hdata
        · rename_i hopNew
          obtain ⟨n, hn, rfl⟩ := hdata
          rw [if_pos hopNew]
          exact ⟨n, Nat.lt_succ_of_lt hn, rfl⟩
        · rename_i hopNew
          rw [if_neg hopNew]
          exact hdata
    · rw [hptr] at h₁ h₂
      split at h₁
      · rename_i heq₁
        obtain rfl := Ptr.own.inj (Option.some.inj h₁)
        split at h₂
        · rename_i heq₂
          exact ⟨heq₁.1.trans heq₂.1.symm, heq₁.2.trans heq₂.2.symm⟩
        · exact absurd (h.own_lt h₂) (Nat.lt_irrefl _)
      · split at h₂
        · obtain rfl := Ptr.own.inj (Option.some.inj h₂)
          exact absurd (h.own_lt h₁) (Nat.lt_irrefl _)
        · exact h.owner k₁ v₁ k₂ v₂ n h₁ h₂
    · have halloc := huse.alloc (o := .data (.own s.dataId)) fun hmem => by
        rcases List.mem_append.mp hmem with hmem | hmem
        · exact h.freshData _ (Nat.le_refl _) hmem
        · cases List.mem_singleton.mp hmem
      rw [List.append_assoc] at halloc
      refine halloc.congr fun o => ?_
      constructor
      · rintro (rfl | hvar | ⟨k', v', n, hptr', rfl⟩)
        · refine .inr ⟨k, v, s.dataId, ?_, rfl⟩
          rw [hptr, if_pos ⟨rfl, rfl⟩]
        · exact .inl hvar
        · refine .inr ⟨k', v', n, ?_, rfl⟩
          rw [hptr, if_neg (hother hptr')]
          exact hptr'
      · rintro (hvar | ⟨k', v', n, hptr', rfl⟩)
        · exact .inr (.inl hvar)
        · rw [hptr] at hptr'
          split at hptr'
          · obtain rfl := Ptr.own.inj (Option.some.inj hptr')
            exact .inl rfl
          · exact .inr (.inr ⟨k', v', n, hptr', rfl⟩)
    · intro hmem
      rcases List.mem_append.mp hmem with hmem | hmem
      · exact h.freshData n (Nat.le_of_succ_le hn) hmem
      · simp only [List.mem_cons, List.not_mem_nil, or_false, reduceCtorEq, false_or,
          MemEvent.alloc.injEq, Obj.data.injEq, Ptr.own.injEq] at hmem
        exact absurd hn (by rw [hmem]; exact Nat.not_succ_le_self _)
    · intro hmem
      rcases List.mem_append.mp hmem with hmem | hmem
      · exact h.freshVar v' hv' hmem
      · simp at hmem
  · rename_i hnew
    have hptr : ∀ k' v', State.ptr { s with
        sessions := s.sessions.modify k fun session =>
          { session with vars := session.vars.put v (.static v) }
        trace := s.trace ++ [.use (.var v)] } k' v' =
        if k' = k ∧ v' = v then some (.static v) else s.ptr k' v' := ptr_insert hk rfl
    have hown : ∀ {k' v' n}, State.ptr { s with
        sessions := s.sessions.modify k fun session =>
          { session with vars := session.vars.put v (.static v) }
        trace := s.trace ++ [.use (.var v)] } k' v' = some (.own n) ↔
        s.ptr k' v' = some (.own n) := by
      intro k' v' n
      rw [hptr]
      split
      · rename_i heq
        rw [heq.1, heq.2, hnone]
        simp
      · rfl
    refine ⟨h.varLt, h.nodup, h.queueNodup, h.queue, h.both, hsessions _, fun k' v' data hd => ?_,
      fun k₁ v₁ k₂ v₂ n h₁ h₂ => h.owner k₁ v₁ k₂ v₂ n (hown.mp h₁) (hown.mp h₂),
      huse.congr fun o => ?_, fun n hn hmem => ?_, fun v' hv' hmem => ?_⟩
    · rw [hptr] at hd
      split at hd
      · rename_i heq
        obtain rfl := Option.some.inj hd
        rw [heq.2]
        refine ⟨hv, ?_⟩
        rw [if_neg hnew]
      · exact h.entry k' v' data hd
    · refine or_congr Iff.rfl ?_
      simp only [hown]
    · rcases List.mem_append.mp hmem with hmem | hmem
      · exact h.freshData n hn hmem
      · cases List.mem_singleton.mp hmem
    · rcases List.mem_append.mp hmem with hmem | hmem
      · exact h.freshVar v' hv' hmem
      · cases List.mem_singleton.mp hmem

/-! ## Steps -/

/-- What a new datum leaves as it is. -/
theorem sessionInsertVar_same {session : Session} (hk : s.sessions.get? k = some session) (x : V) :
    (s.sessionInsertVar k v x).alive = s.alive ∧
      (∃ session', (s.sessionInsertVar k v x).sessions.get? k = some session' ∧
        session'.listed = session.listed) ∧
      (∀ k' v', ¬ (k' = k ∧ v' = v) → (s.sessionInsertVar k v x).ptr k' v' = s.ptr k' v') ∧
      ∀ data, (∀ n, data = .own n → n < s.dataId) →
        (s.sessionInsertVar k v x).value data = s.value data := by
  have hget : ∀ data, ∃ session', (s.sessions.modify k fun session =>
      { session with vars := session.vars.put v data }).get? k = some session' ∧
      session'.listed = session.listed := by
    intro data
    rw [Ledger.get?_modify, if_pos rfl, hk]
    exact ⟨_, rfl, rfl⟩
  rw [State.sessionInsertVar]
  split
  · refine ⟨rfl, hget _, fun k' v' hne => (ptr_insert hk rfl k' v').trans (if_neg hne),
      fun data hdata => Function.update_of_ne ?_ ..⟩
    rintro rfl
    exact Nat.lt_irrefl _ (hdata _ rfl)
  · exact ⟨rfl, hget _, fun k' v' hne => (ptr_insert hk rfl k' v').trans (if_neg hne),
      fun data _ => rfl⟩

theorem State.Inv.sessionVarsInit {vs : List ℕ} (h : s.Inv) {session : Session}
    (hk : s.sessions.get? k = some session) (hnodup : vs.Nodup)
    (hvs : ∀ v ∈ vs, v ∈ s.alive ∧ s.ptr k v = none) (x : ℕ → V) :
    (vs.foldl (fun s v => s.sessionInsertVar k v (x v)) s).Inv ∧
      ∀ k' v', k' ≠ k → (vs.foldl (fun s v => s.sessionInsertVar k v (x v)) s).ptr k' v' =
        s.ptr k' v' ∧ (vs.foldl (fun s v => s.sessionInsertVar k v (x v)) s).view k' v' =
        s.view k' v' := by
  induction vs generalizing s session with
  | nil => exact ⟨h, fun _ _ _ => ⟨rfl, rfl⟩⟩
  | cons v vs ih =>
    obtain ⟨hnew, hnodup⟩ := List.nodup_cons.mp hnodup
    obtain ⟨hv, hnone⟩ := hvs v List.mem_cons_self
    have hinsert := h.sessionInsertVar hk hv hnone (x v)
    obtain ⟨halive, ⟨session', hk', -⟩, hptr, hvalue⟩ := sessionInsertVar_same (v := v) hk (x v)
    obtain ⟨hinv, hsame⟩ := ih hinsert hk' hnodup fun v' hv' => by
      obtain ⟨hv'', hnone'⟩ := hvs v' (List.mem_cons_of_mem _ hv')
      refine ⟨halive ▸ hv'', ?_⟩
      rw [hptr k v' fun heq => hnew (heq.2 ▸ hv')]
      exact hnone'
    refine ⟨hinv, fun k' v' hne => ?_⟩
    obtain ⟨hptr', hview⟩ := hsame k' v' hne
    rw [List.foldl_cons, hptr', hview, State.view, hptr k' v' fun heq => hne heq.1]
    refine ⟨rfl, ?_⟩
    rw [State.view]
    cases hget : s.ptr k' v' with
    | none => rfl
    | some data =>
      refine hvalue data fun n hn => ?_
      rw [hn] at hget
      exact h.own_lt hget

/-- `mbb_session_new`, up to the lock. -/
theorem State.Inv.enter (h : s.Inv) (x : ℕ → V) (hs : s.step (.enter x) = some s') :
    s'.Inv ∧ ∀ k' v', k' ≠ s.sessionNo → s'.ptr k' v' = s.ptr k' v' ∧
      s'.view k' v' = s.view k' v' := by
  obtain rfl := Option.some.inj hs
  have hnone : s.sessions.get? s.sessionNo = none := by
    cases hget : s.sessions.get? s.sessionNo with
    | none => rfl
    | some session => exact absurd (h.sessionLt _ _ hget) (Nat.lt_irrefl _)
  have hptr : ∀ k' v', State.ptr { s with
      sessionNo := s.sessionNo + 1
      sessions := s.sessions.put s.sessionNo ⟨.empty, false⟩ } k' v' = s.ptr k' v' := by
    intro k' v'
    rw [State.ptr, Ledger.get?_put, State.ptr]
    split
    · rename_i hk
      rw [hk, hnone]
      rfl
    · rfl
  have hput : State.Inv { s with
      sessionNo := s.sessionNo + 1
      sessions := s.sessions.put s.sessionNo ⟨.empty, false⟩ } := by
    refine ⟨h.varLt, h.nodup, h.queueNodup, h.queue, h.both, fun k session hk => ?_,
      fun k v data hd => h.entry k v data (hptr k v ▸ hd),
      fun k v k' v' n h₁ h₂ => h.owner k v k' v' n (hptr k v ▸ h₁) (hptr k' v' ▸ h₂),
      h.trace.congr fun o => ?_, h.freshData, h.freshVar⟩
    · rw [Ledger.get?_put] at hk
      split at hk
      · rename_i heq
        rw [heq]
        exact Nat.lt_succ_self _
      · exact Nat.lt_succ_of_lt (h.sessionLt k session hk)
    · refine or_congr Iff.rfl ?_
      simp only [hptr]
  have hget : Ledger.get? (s.sessions.put s.sessionNo ⟨.empty, false⟩) s.sessionNo =
      some ⟨.empty, false⟩ := by rw [Ledger.get?_put, if_pos rfl]
  obtain ⟨hinv, hsame⟩ := hput.sessionVarsInit hget h.queueNodup
    (fun v hv => ⟨h.queue v hv, by rw [hptr, State.ptr, hnone]; rfl⟩) x
  refine ⟨hinv, fun k' v' hne => ?_⟩
  obtain ⟨hptr', hview⟩ := hsame k' v' hne
  refine ⟨hptr'.trans (hptr k' v'), hview.trans ?_⟩
  rw [State.view, hptr]
  rfl

theorem State.Inv.getData (h : s.Inv) {session : Session} (hk : s.sessions.get? k = some session)
    (hv : v ∈ s.alive) (x : V) : (s.getData k v x).Inv ∧ (s.getData k v x).alive = s.alive ∧
      (∃ data, (s.getData k v x).ptr k v = some data) ∧
      ∀ k' v' data, s.ptr k' v' = some data → (s.getData k v x).ptr k' v' = some data ∧
        (s.getData k v x).value data = s.value data := by
  rw [State.getData]
  split
  · rename_i data hdata
    exact ⟨h, rfl, ⟨data, hdata⟩, fun _ _ _ hptr => ⟨hptr, rfl⟩⟩
  · rename_i hnone
    obtain ⟨halive, -, hptr, hvalue⟩ := sessionInsertVar_same (v := v) hk x
    refine ⟨h.sessionInsertVar hk hv hnone x, halive, ?_, fun k' v' data hd => ?_⟩
    · rw [State.sessionInsertVar]
      split
      · exact ⟨_, (ptr_insert hk rfl k v).trans (if_pos ⟨rfl, rfl⟩)⟩
      · exact ⟨_, (ptr_insert hk rfl k v).trans (if_pos ⟨rfl, rfl⟩)⟩
    · have hne : ¬ (k' = k ∧ v' = v) := by
        rintro ⟨rfl, rfl⟩
        rw [hnone] at hd
        cases hd
      refine ⟨(hptr k' v' hne).trans hd, hvalue data ?_⟩
      rintro n rfl
      exact h.own_lt hd

/-- What is used is live. -/
theorem State.Inv.useData (h : s.Inv) (hv : v ∈ s.alive) : (s.useData k v).Inv := by
  have htrace : Holds (s.useData k v).trace s.live := by
    refine h.trace.uses fun e he => ?_
    rcases List.mem_cons.mp he with rfl | he
    · exact ⟨_, .inl ⟨v, hv, rfl⟩, rfl⟩
    · obtain ⟨data, hdata, heq⟩ := List.mem_filterMap.mp he
      cases data with
      | static v' => cases heq
      | own n =>
        obtain rfl := Option.some.inj heq
        exact ⟨_, .inr ⟨k, v, n, Option.mem_toList.mp hdata, rfl⟩, rfl⟩
  have halloc : ∀ o, .alloc o ∈ (s.useData k v).trace → .alloc o ∈ s.trace := by
    intro o hmem
    rcases List.mem_append.mp hmem with hmem | hmem
    · exact hmem
    · rcases List.mem_cons.mp hmem with heq | hmem
      · cases heq
      · obtain ⟨data, -, heq⟩ := List.mem_filterMap.mp hmem
        cases data <;> cases heq
  exact ⟨h.varLt, h.nodup, h.queueNodup, h.queue, h.both, h.sessionLt, h.entry, h.owner, htrace,
    fun n hn hmem => h.freshData n hn (halloc _ hmem),
    fun v' hv' hmem => h.freshVar v' hv' (halloc _ hmem)⟩

/-- `mbb_session_new`, with the lock. -/
theorem State.Inv.list (h : s.Inv) (hs : s.step (.list k) = some s') :
    s'.Inv ∧ (∀ k' v', s'.ptr k' v' = s.ptr k' v') ∧ s'.value = s.value := by
  rw [State.step] at hs
  split at hs
  · rename_i vars hk
    obtain rfl := Option.some.inj hs
    have hptr : ∀ k' v', State.ptr { s with
        sessions := s.sessions.modify k fun session => { session with listed := true } } k' v' =
        s.ptr k' v' := by
      intro k' v'
      rw [ptr_modify (f := fun session => { session with listed := true }) hk rfl]
      split
      · rename_i heq
        rw [State.ptr, heq, hk]
        rfl
      · rfl
    refine ⟨⟨h.varLt, h.nodup, h.queueNodup, h.queue, h.both, fun k' session hk' => ?_,
      fun k v data hd => h.entry k v data (hptr k v ▸ hd),
      fun k v k' v' n h₁ h₂ => h.owner k v k' v' n (hptr k v ▸ h₁) (hptr k' v' ▸ h₂),
      h.trace.congr fun o => ?_, h.freshData, h.freshVar⟩, hptr, rfl⟩
    · cases hget : s.sessions.get? k' with
      | none =>
        rw [Ledger.get?_modify_eq_none.mpr hget] at hk'
        cases hk'
      | some old => exact h.sessionLt k' old hget
    · refine or_congr Iff.rfl ?_
      simp only [hptr]
  · cases hs

/-- `mbb_session_var_new` -/
theorem State.Inv.addVar (h : s.Inv) {priv : Priv} {x : V}
    (hs : s.step (.addVar priv x) = some s') : s'.Inv ∧ (∀ k' v', s'.ptr k' v' = s.ptr k' v') ∧
      ∀ n, s'.value (.own n) = s.value (.own n) := by
  rw [State.step] at hs
  split at hs
  · rename_i hboth
    obtain rfl := Option.some.inj hs
    have hne : ∀ v ∈ s.alive, v ≠ s.varId := fun v hv => Nat.ne_of_lt (h.varLt v hv)
    have hnew : s.varId ∉ s.alive := fun hmem => hne _ hmem rfl
    refine ⟨⟨fun v hv => ?_, List.nodup_cons.mpr ⟨hnew, h.nodup⟩, ?_, fun v hv => ?_, fun v => ?_,
      h.sessionLt, fun k v data hd => ?_, h.owner, ?_, fun n hn hmem => ?_, fun v hv hmem => ?_⟩,
      fun _ _ => rfl, fun n => ?_⟩
    · rcases List.mem_cons.mp hv with rfl | hv
      · exact Nat.lt_succ_self _
      · exact Nat.lt_succ_of_lt (h.varLt v hv)
    · refine List.nodup_append.mpr ⟨h.queueNodup, List.pairwise_singleton _ _, ?_⟩
      rintro v hv _ hv' rfl
      rw [List.mem_singleton.mp hv'] at hv
      exact hnew (h.queue _ hv)
    · rcases List.mem_append.mp hv with hv | hv
      · exact List.mem_cons_of_mem _ (h.queue v hv)
      · rw [List.mem_singleton.mp hv]
        exact List.mem_cons_self
    · by_cases hv : v = s.varId
      · subst hv
        simpa using hboth
      · simpa [hv] using h.both v
    · obtain ⟨halive, hdata⟩ := h.entry k v data hd
      refine ⟨List.mem_cons_of_mem _ halive, ?_⟩
      simp only [Function.update_of_ne (hne v halive)]
      exact hdata
    · refine (h.trace.alloc (h.freshVar _ (Nat.le_refl _))).congr fun o => ?_
      constructor
      · rintro (rfl | ⟨v, hv, rfl⟩ | hdata)
        · exact .inl ⟨_, List.mem_cons_self, rfl⟩
        · exact .inl ⟨v, List.mem_cons_of_mem _ hv, rfl⟩
        · exact .inr hdata
      · rintro (⟨v, hv, rfl⟩ | hdata)
        · rcases List.mem_cons.mp hv with rfl | hv
          · exact .inl rfl
          · exact .inr (.inl ⟨v, hv, rfl⟩)
        · exact .inr (.inr hdata)
    · rcases List.mem_append.mp hmem with hmem | hmem
      · exact h.freshData n hn hmem
      · cases List.mem_singleton.mp hmem
    · rcases List.mem_append.mp hmem with hmem | hmem
      · exact h.freshVar v (Nat.le_of_succ_le hv) hmem
      · obtain rfl := Obj.var.inj (MemEvent.alloc.inj (List.mem_singleton.mp hmem))
        exact Nat.not_succ_le_self _ hv
    · have hne : Ptr.own n ≠ .static s.varId := fun heq => by cases heq
      exact Function.update_of_ne hne (some x) s.value
  · cases hs

/-- A datum that is to be freed has been made for the session. -/
theorem State.Inv.freed_own (h : s.Inv) {data : Ptr} (hptr : s.ptr k v = some data) {o : Obj}
    (ho : s.freed (v, data) = some o) : ∃ n, data = .own n ∧ o = .data (.own n) := by
  obtain ⟨-, hdata⟩ := h.entry k v data hptr
  rw [State.freed] at ho
  split at ho
  · rename_i hfree
    rw [if_pos ((h.both v).trans hfree)] at hdata
    obtain ⟨n, -, rfl⟩ := hdata
    exact ⟨n, rfl, (Option.some.inj ho).symm⟩
  · cases ho

theorem State.Inv.freed_of_own (h : s.Inv) {n : ℕ} (hptr : s.ptr k v = some (.own n)) :
    s.freed (v, .own n) = some (.data (.own n)) := by
  obtain ⟨-, hdata⟩ := h.entry k v _ hptr
  split at hdata
  · rename_i hnew
    rw [State.freed, if_pos ((h.both v).symm.trans hnew)]
  · cases hdata

/-- `mbb_var_free`, while no session is being made. -/
theorem State.Inv.delVar (h : s.Inv) (hsettled : s.Settled) (hs : s.step (.delVar v) = some s') :
    s'.Inv ∧ (∀ k' v', s'.ptr k' v' = if v' = v then none else s.ptr k' v') ∧
      s'.value = s.value := by
  rw [State.step] at hs
  split at hs
  · rename_i hv
    obtain rfl := Option.some.inj hs
    have hptr : ∀ k' v', State.ptr { s with
        alive := s.alive.erase v
        varQueue := s.varQueue.erase v
        sessions := s.sessions.update (fun _ => true) fun session =>
          if session.listed then
            { session with vars := session.vars.drop fun v' => decide (v' = v) }
          else session
        trace := s.trace ++ s.delTrace v ++ [.free (.var v)] } k' v' =
        if v' = v then none else s.ptr k' v' := by
      intro k' v'
      rw [State.ptr, Ledger.get?_update, State.ptr]
      cases hk : s.sessions.get? k' with
      | none => simp
      | some session =>
        simp only [Option.map_some, Option.bind_some, hsettled k' session hk, if_true]
        rw [Ledger.get?_drop]
        simp
    have hown : ∀ {k' v' n}, State.ptr { s with
        alive := s.alive.erase v
        varQueue := s.varQueue.erase v
        sessions := s.sessions.update (fun _ => true) fun session =>
          if session.listed then
            { session with vars := session.vars.drop fun v' => decide (v' = v) }
          else session
        trace := s.trace ++ s.delTrace v ++ [.free (.var v)] } k' v' = some (.own n) →
        v' ≠ v ∧ s.ptr k' v' = some (.own n) := by
      intro k' v' n hd
      rw [hptr] at hd
      split at hd
      · cases hd
      · rename_i hne
        exact ⟨hne, hd⟩
    have halloc : ∀ o, .alloc o ∈ s.trace ++ s.delTrace v ++ [.free (.var v)] →
        .alloc o ∈ s.trace := by
      intro o hmem
      rcases List.mem_append.mp hmem with hmem | hmem
      · rcases List.mem_append.mp hmem with hmem | hmem
        · exact hmem
        · obtain ⟨r, -, hmem⟩ := List.mem_flatMap.mp hmem
          simp at hmem
      · cases List.mem_singleton.mp hmem
    refine ⟨⟨fun v' hv' => h.varLt v' (List.mem_of_mem_erase hv'), h.nodup.erase v,
      h.queueNodup.erase v, fun v' hv' => ?_, h.both, fun k session hk => ?_,
      fun k v' data hd => ?_,
      fun k₁ v₁ k₂ v₂ n h₁ h₂ => h.owner k₁ v₁ k₂ v₂ n (hown h₁).2 (hown h₂).2, ?_,
      fun n hn hmem => h.freshData n hn (halloc _ hmem),
      fun v' hv' hmem => h.freshVar v' hv' (halloc _ hmem)⟩, hptr, rfl⟩
    · obtain ⟨hne, hmem⟩ := h.queueNodup.mem_erase_iff.mp hv'
      exact h.nodup.mem_erase_iff.mpr ⟨hne, h.queue v' hmem⟩
    · rw [Ledger.get?_update] at hk
      obtain ⟨old, hold, -⟩ := Option.map_eq_some_iff.mp hk
      exact h.sessionLt k old hold
    · rw [hptr] at hd
      split at hd
      · cases hd
      · rename_i hne
        obtain ⟨halive, hdata⟩ := h.entry k v' data hd
        exact ⟨h.nodup.mem_erase_iff.mpr ⟨hne, halive⟩, hdata⟩
    · -- the data that are freed are those of the variable, each once
      have hdel : ∀ r ∈ s.sessions.rows, ∀ o, (if r.2.listed then
          (r.2.vars.get? v).bind fun data => s.freed (v, data) else none) = some o →
          ∃ n, s.ptr r.1 v = some (.own n) ∧ o = .data (.own n) := by
        intro r hr o ho
        rw [if_pos (hsettled r.1 r.2 (Ledger.get?_of_mem hr))] at ho
        obtain ⟨data, hdata, ho⟩ := Option.bind_eq_some_iff.mp ho
        have hptr' : s.ptr r.1 v = some data := by
          rw [State.ptr, Ledger.get?_of_mem hr]
          exact hdata
        obtain ⟨n, rfl, rfl⟩ := h.freed_own hptr' ho
        exact ⟨n, hptr', rfl⟩
      have hvar : Obj.var v ∈ s.live := .inl ⟨v, hv, rfl⟩
      have hnot : Obj.var v ∉ s.sessions.rows.filterMap fun r => if r.2.listed then
          (r.2.vars.get? v).bind fun data => s.freed (v, data) else none := by
        intro hmem
        obtain ⟨r, hr, ho⟩ := List.mem_filterMap.mp hmem
        obtain ⟨n, -, heq⟩ := hdel r hr _ ho
        cases heq
      have hrelease := h.trace.release (fun _ => [Obj.var v])
        (fun r _ o ho => by
          obtain rfl := List.mem_singleton.mp ho
          exact ⟨hvar, hnot⟩)
        (fun r hr o ho => by
          obtain ⟨n, hptr', rfl⟩ := hdel r hr o ho
          exact .inr ⟨r.1, v, n, hptr', rfl⟩)
        (s.sessions.nodup_filterMap fun k w k' w' o hw hw' ho ho' => by
          obtain ⟨n, hptr₁, rfl⟩ := hdel (k, w) (Ledger.mem_of_get? hw) _ ho
          obtain ⟨n', hptr₂, heq⟩ := hdel (k', w') (Ledger.mem_of_get? hw') _ ho'
          obtain rfl := Ptr.own.inj (Obj.data.inj heq)
          exact (h.owner k v k' v n hptr₁ hptr₂).1)
      refine (hrelease.free ⟨hvar, hnot⟩).congr fun o => ?_
      constructor
      · rintro ⟨⟨⟨v', hv', rfl⟩ | ⟨k', v', n, hptr', rfl⟩, hfreed⟩, hne⟩
        · exact .inl ⟨v', h.nodup.mem_erase_iff.mpr ⟨fun heq => hne (heq ▸ rfl), hv'⟩, rfl⟩
        · refine .inr ⟨k', v', n, ?_, rfl⟩
          rw [hptr, if_neg]
          · exact hptr'
          rintro rfl
          obtain ⟨session, hk, hdata⟩ := Option.bind_eq_some_iff.mp hptr'
          refine hfreed (List.mem_filterMap.mpr ⟨(k', session), Ledger.mem_of_get? hk, ?_⟩)
          rw [if_pos (hsettled k' session hk), hdata]
          exact h.freed_of_own hptr'
      · rintro (⟨v', hv', rfl⟩ | ⟨k', v', n, hd, rfl⟩)
        · obtain ⟨hne, halive⟩ := h.nodup.mem_erase_iff.mp hv'
          refine ⟨⟨.inl ⟨v', halive, rfl⟩, fun hmem => ?_⟩, fun heq => hne (Obj.var.inj heq)⟩
          obtain ⟨r, hr, ho⟩ := List.mem_filterMap.mp hmem
          obtain ⟨n, -, heq⟩ := hdel r hr _ ho
          cases heq
        · obtain ⟨hne, hptr'⟩ := hown hd
          refine ⟨⟨.inr ⟨k', v', n, hptr', rfl⟩, fun hmem => ?_⟩, fun heq => by cases heq⟩
          obtain ⟨r, hr, ho⟩ := List.mem_filterMap.mp hmem
          obtain ⟨n', hptr₁, heq⟩ := hdel r hr _ ho
          obtain rfl := Ptr.own.inj (Obj.data.inj heq)
          exact hne (h.owner _ _ _ _ n hptr' hptr₁).2
  · cases hs

/-- `mbb_session_quit` -/
theorem State.Inv.quit (h : s.Inv) (hs : s.step (.quit k) = some s') :
    s'.Inv ∧ (∀ k' v', s'.ptr k' v' = if k' = k then none else s.ptr k' v') ∧
      s'.value = s.value := by
  rw [State.step] at hs
  split at hs
  · rename_i vars hk
    obtain rfl := Option.some.inj hs
    have hptr : ∀ k' v', State.ptr { s with
        sessions := s.sessions.drop fun k' => decide (k' = k)
        trace := s.trace ++ s.finiTrace ⟨vars, true⟩ } k' v' =
        if k' = k then none else s.ptr k' v' := by
      intro k' v'
      rw [State.ptr, Ledger.get?_drop]
      by_cases heq : k' = k
      · rw [if_pos (decide_eq_true heq), if_pos heq]
        rfl
      · rw [if_neg (by rwa [decide_eq_true_iff]), if_neg heq, State.ptr]
    have hown : ∀ {k' v' n}, State.ptr { s with
        sessions := s.sessions.drop fun k' => decide (k' = k)
        trace := s.trace ++ s.finiTrace ⟨vars, true⟩ } k' v' = some (.own n) →
        k' ≠ k ∧ s.ptr k' v' = some (.own n) := by
      intro k' v' n hd
      rw [hptr] at hd
      split at hd
      · cases hd
      · rename_i hne
        exact ⟨hne, hd⟩
    have hrow : ∀ r ∈ vars.rows, s.ptr k r.1 = some r.2 := by
      intro r hr
      rw [State.ptr, hk]
      exact Ledger.get?_of_mem hr
    have halloc : ∀ o, .alloc o ∈ s.trace ++ s.finiTrace ⟨vars, true⟩ → .alloc o ∈ s.trace := by
      intro o hmem
      rcases List.mem_append.mp hmem with hmem | hmem
      · exact hmem
      · obtain ⟨r, -, hmem⟩ := List.mem_flatMap.mp hmem
        simp at hmem
    refine ⟨⟨h.varLt, h.nodup, h.queueNodup, h.queue, h.both, fun k' session hk' => ?_,
      fun k' v' data hd => ?_,
      fun k₁ v₁ k₂ v₂ n h₁ h₂ => h.owner k₁ v₁ k₂ v₂ n (hown h₁).2 (hown h₂).2, ?_,
      fun n hn hmem => h.freshData n hn (halloc _ hmem),
      fun v' hv' hmem => h.freshVar v' hv' (halloc _ hmem)⟩, hptr, rfl⟩
    · rw [Ledger.get?_drop] at hk'
      split at hk'
      · cases hk'
      · exact h.sessionLt k' session hk'
    · rw [hptr] at hd
      split at hd
      · cases hd
      · exact h.entry k' v' data hd
    · have hdel : ∀ r ∈ vars.rows, ∀ o, s.freed r = some o →
          ∃ n, s.ptr k r.1 = some (.own n) ∧ o = .data (.own n) := by
        intro r hr o ho
        obtain ⟨n, heq, rfl⟩ := h.freed_own (hrow r hr) ho
        exact ⟨n, heq ▸ hrow r hr, rfl⟩
      have hrelease := h.trace.release (fun r : ℕ × Ptr => [Obj.var r.1])
        (fun r hr o ho => by
          obtain rfl := List.mem_singleton.mp ho
          refine ⟨.inl ⟨r.1, (h.entry k r.1 r.2 (hrow r hr)).1, rfl⟩, fun hmem => ?_⟩
          obtain ⟨r', hr', ho'⟩ := List.mem_filterMap.mp hmem
          obtain ⟨n, -, heq⟩ := hdel r' hr' _ ho'
          cases heq)
        (fun r hr o ho => by
          obtain ⟨n, hptr', rfl⟩ := hdel r hr o ho
          exact .inr ⟨k, r.1, n, hptr', rfl⟩)
        (vars.nodup_filterMap fun v₁ w v₂ w' o hw hw' ho ho' => by
          obtain ⟨n, hptr₁, rfl⟩ := hdel (v₁, w) (Ledger.mem_of_get? hw) _ ho
          obtain ⟨n', hptr₂, heq⟩ := hdel (v₂, w') (Ledger.mem_of_get? hw') _ ho'
          obtain rfl := Ptr.own.inj (Obj.data.inj heq)
          exact (h.owner k v₁ k v₂ n hptr₁ hptr₂).2)
      refine hrelease.congr fun o => ?_
      constructor
      · rintro ⟨⟨v', hv', rfl⟩ | ⟨k', v', n, hptr', rfl⟩, hfreed⟩
        · exact .inl ⟨v', hv', rfl⟩
        · refine .inr ⟨k', v', n, ?_, rfl⟩
          rw [hptr, if_neg]
          · exact hptr'
          rintro rfl
          have hdata : vars.get? v' = some (.own n) := by
            rw [State.ptr, hk] at hptr'
            exact hptr'
          exact hfreed (List.mem_filterMap.mpr
            ⟨(v', .own n), Ledger.mem_of_get? hdata, h.freed_of_own hptr'⟩)
      · rintro (⟨v', hv', rfl⟩ | ⟨k', v', n, hd, rfl⟩)
        · refine ⟨.inl ⟨v', hv', rfl⟩, fun hmem => ?_⟩
          obtain ⟨r, hr, ho⟩ := List.mem_filterMap.mp hmem
          obtain ⟨n, -, heq⟩ := hdel r hr _ ho
          cases heq
        · obtain ⟨hne, hptr'⟩ := hown hd
          refine ⟨.inr ⟨k', v', n, hptr', rfl⟩, fun hmem => ?_⟩
          obtain ⟨r, hr, ho⟩ := List.mem_filterMap.mp hmem
          obtain ⟨n', hptr₁, heq⟩ := hdel r hr _ ho
          obtain rfl := Ptr.own.inj (Obj.data.inj heq)
          exact hne (h.owner _ _ _ _ n hptr' hptr₁).1
  · cases hs

/-- A variable is looked at: what other sessions have stays as it is. -/
theorem State.Inv.lookup (h : s.Inv) {session : Session} (hk : s.sessions.get? k = some session)
    (hv : v ∈ s.alive) (x : V) : ((s.getData k v x).useData k v).Inv ∧
      ∀ k' v' data, s.ptr k' v' = some data →
        ((s.getData k v x).useData k v).ptr k' v' = some data ∧
          ((s.getData k v x).useData k v).value data = s.value data := by
  obtain ⟨hget, halive, -, hsame⟩ := h.getData hk hv x
  exact ⟨hget.useData (halive ▸ hv), hsame⟩

/-- Values are nobody's business. -/
theorem State.Inv.value (h : s.Inv) (value : Ptr → Option V) : State.Inv { s with value } :=
  ⟨h.varLt, h.nodup, h.queueNodup, h.queue, h.both, h.sessionLt, h.entry, h.owner, h.trace,
    h.freshData, h.freshVar⟩

/-- What a step writes to the datum that a session has for a variable. -/
def written (k v : ℕ) : Act V → Option V
  | .write k' v' _ y => if k' = k ∧ v' = v then some y else none
  | _ => none

/-- `mbb_session_var_read` -/
theorem State.Inv.read (h : s.Inv) {k₀ v₀ : ℕ} {x : V} (hs : s.step (.read k₀ v₀ x) = some s') :
    s'.Inv ∧ ∀ k v n, s.ptr k v = some (.own n) →
      s'.ptr k v = some (.own n) ∧ s'.value (.own n) = s.value (.own n) := by
  rw [State.step] at hs
  split at hs
  · rename_i vars hk
    obtain ⟨hv, hs⟩ := Option.ite_none_right_eq_some.mp hs
    obtain rfl := Option.some.inj hs
    obtain ⟨hinv, hsame⟩ := h.lookup hk hv x
    exact ⟨hinv, fun k v n hptr => hsame k v _ hptr⟩
  · cases hs

/-- `mbb_session_var_write` -/
theorem State.Inv.write (h : s.Inv) {k₀ v₀ : ℕ} {x y : V}
    (hs : s.step (.write k₀ v₀ x y) = some s') :
    s'.Inv ∧ ∀ k v n, s.ptr k v = some (.own n) → s'.ptr k v = some (.own n) ∧
      s'.value (.own n) = (written k v (.write k₀ v₀ x y)).or (s.value (.own n)) := by
  rw [State.step] at hs
  split at hs
  · rename_i vars hk
    obtain ⟨hv, hs⟩ := Option.ite_none_right_eq_some.mp hs
    obtain rfl := Option.some.inj hs
    obtain ⟨hinv, hsame⟩ := h.lookup hk hv x
    refine ⟨hinv.value _, fun k v n hptr => ?_⟩
    obtain ⟨hptr', hvalue⟩ := hsame k v _ hptr
    refine ⟨hptr', ?_⟩
    rw [written]
    split
    · rename_i heq
      obtain ⟨rfl, rfl⟩ := heq
      exact if_pos hptr'
    · rename_i hne
      refine (if_neg fun heq => hne ?_).trans hvalue
      exact hinv.owner k₀ v₀ k v n heq hptr'
  · cases hs

/-! ## Runs -/

/-- **What one step does**: the state stays sound, and a datum of a session is touched by its own
writes, by the end of the session and by the end of the variable only. -/
theorem State.Inv.step (h : s.Inv) {a : Act V} (hs : s.step a = some s')
    (hdel : ∀ v, a = .delVar v → s.Settled) : s'.Inv ∧ ∀ k v n, s.ptr k v = some (.own n) →
      a ≠ .quit k → a ≠ .delVar v → s'.ptr k v = some (.own n) ∧
        s'.value (.own n) = (written k v a).or (s.value (.own n)) := by
  cases a with
  | addVar priv x =>
    obtain ⟨hinv, hptr, hvalue⟩ := h.addVar hs
    exact ⟨hinv, fun k v n hd _ _ => ⟨(hptr k v).trans hd, hvalue n⟩⟩
  | delVar v₀ =>
    obtain ⟨hinv, hptr, hvalue⟩ := h.delVar (hdel v₀ rfl) hs
    refine ⟨hinv, fun k v n hd _ hne => ⟨?_, by rw [hvalue]; rfl⟩⟩
    rw [hptr, if_neg fun heq => hne (by rw [heq])]
    exact hd
  | enter x =>
    obtain ⟨hinv, hsame⟩ := h.enter x hs
    refine ⟨hinv, fun k v n hd _ _ => ?_⟩
    have hne : k ≠ s.sessionNo := by
      obtain ⟨session, hk, -⟩ := Option.bind_eq_some_iff.mp hd
      exact Nat.ne_of_lt (h.sessionLt k session hk)
    obtain ⟨hptr, hview⟩ := hsame k v hne
    rw [State.view, State.view, hptr, hd] at hview
    exact ⟨hptr.trans hd, hview⟩
  | list k₀ =>
    obtain ⟨hinv, hptr, hvalue⟩ := h.list hs
    exact ⟨hinv, fun k v n hd _ _ => ⟨(hptr k v).trans hd, by rw [hvalue]; rfl⟩⟩
  | read k₀ v₀ x =>
    obtain ⟨hinv, hsame⟩ := h.read hs
    exact ⟨hinv, fun k v n hd _ _ => hsame k v n hd⟩
  | write k₀ v₀ x y =>
    obtain ⟨hinv, hsame⟩ := h.write hs
    exact ⟨hinv, fun k v n hd _ _ => hsame k v n hd⟩
  | quit k₀ =>
    obtain ⟨hinv, hptr, hvalue⟩ := h.quit hs
    refine ⟨hinv, fun k v n hd hne _ => ⟨?_, by rw [hvalue]; rfl⟩⟩
    rw [hptr, if_neg fun heq => hne (by rw [heq])]
    exact hd

theorem Run.inv {acts : List (Act V)} (h : Run s acts s') (hs : s.Inv) : s'.Inv := by
  induction h with
  | nil => exact hs
  | snoc _ ha hdel ih => exact (ih.step ha hdel).1

/-- What a session has in the end is what it has written last. -/
theorem Run.value {acts : List (Act V)} (h : Run s acts s') (hs : s.Inv) {n : ℕ}
    (hptr : s.ptr k v = some (.own n)) (hquit : .quit k ∉ acts) (hdel : .delVar v ∉ acts) :
    s'.ptr k v = some (.own n) ∧
      s'.value (.own n) = (acts.reverse.findSome? (written k v)).or (s.value (.own n)) := by
  induction h with
  | nil => exact ⟨hptr, rfl⟩
  | @snoc t t' acts a hrun ha hsettled ih =>
    rw [List.mem_append, not_or] at hquit hdel
    obtain ⟨hptr', hvalue⟩ := ih hquit.1 hdel.1
    obtain ⟨hptr'', hvalue'⟩ := ((hrun.inv hs).step ha hsettled).2 k v n hptr'
      (fun heq => hquit.2 (heq ▸ List.mem_cons_self))
      (fun heq => hdel.2 (heq ▸ List.mem_cons_self))
    refine ⟨hptr'', ?_⟩
    rw [hvalue', hvalue, List.reverse_append, List.reverse_singleton, List.singleton_append,
      List.findSome?_cons]
    cases written k v a <;> rfl

/-! ## A session that is being made

Between the copy of the list and the entry into the table a session holds variables that can end
meanwhile. From every such state the failure can be reached.
-/

/-- The loop of `mbb_session_del_var` does not see it. -/
theorem step_delVar_unlisted (hv : v ∈ s.alive) {vars : Ledger ℕ Ptr}
    (hk : s.sessions.get? k = some ⟨vars, false⟩) : ∃ t, s.step (.delVar v) = some t ∧
      t.sessions.get? k = some ⟨vars, false⟩ ∧
        t.trace = s.trace ++ s.delTrace v ++ [.free (.var v)] := by
  refine ⟨_, if_pos hv, ?_, rfl⟩
  rw [Ledger.get?_update, hk]
  rfl

theorem step_list {vars : Ledger ℕ Ptr} (hk : s.sessions.get? k = some ⟨vars, false⟩) :
    ∃ t, s.step (.list k) = some t ∧ t.sessions.get? k = some ⟨vars, true⟩ ∧ t.trace = s.trace := by
  rw [State.step, hk]
  refine ⟨_, rfl, ?_, rfl⟩
  rw [Ledger.get?_modify, if_pos rfl, hk]
  rfl

theorem step_quit {vars : Ledger ℕ Ptr} (hk : s.sessions.get? k = some ⟨vars, true⟩) :
    ∃ t, s.step (.quit k) = some t ∧ t.trace = s.trace ++ s.finiTrace ⟨vars, true⟩ := by
  rw [State.step, hk]
  exact ⟨_, rfl, rfl⟩

theorem use_mem_finiTrace {session : Session} {data : Ptr} (h : session.vars.get? v = some data) :
    .use (.var v) ∈ s.finiTrace session :=
  List.mem_flatMap.mpr ⟨(v, data), Ledger.mem_of_get? h,
    List.mem_append_left _ (List.mem_singleton.mpr rfl)⟩

/-! ## Main results -/

/-- **Variables and data are freed once**: in every state that is reached, what has been made and
not freed is the variables that are there and what sessions have for them, and nothing is used
after it has been freed. This needs that no variable ends while a session is being made: the
session that has been made then uses the variable when it quits. -/
theorem session_vars_safe {acts : List (Act V)} (h : Run .start acts s) :
    NoUseAfterFree s.trace ∧
      (∀ o, .alloc o ∈ s.trace ∧ .free o ∉ s.trace ↔ (∃ v ∈ s.alive, o = .var v) ∨
        ∃ k v n, s.ptr k v = some (.own n) ∧ o = .data (.own n)) ∧
      ∀ k v vars data, s.sessions.get? k = some ⟨vars, false⟩ → vars.get? v = some data →
        ∃ t₁ t₂ t₃, s.step (.delVar v) = some t₁ ∧ t₁.step (.list k) = some t₂ ∧
          t₂.step (.quit k) = some t₃ ∧ ¬ NoUseAfterFree t₃.trace := by
  have hinv := h.inv inv_start
  refine ⟨hinv.trace.noUseAfterFree, fun o => (hinv.trace.mem_iff o).symm,
    fun k v vars data hk hdata => ?_⟩
  have hptr : s.ptr k v = some data := by
    rw [State.ptr, hk]
    exact hdata
  obtain ⟨hv, -⟩ := hinv.entry k v data hptr
  obtain ⟨t₁, h₁, hk₁, htrace₁⟩ := step_delVar_unlisted hv hk
  obtain ⟨t₂, h₂, hk₂, htrace₂⟩ := step_list hk₁
  obtain ⟨t₃, h₃, htrace₃⟩ := step_quit hk₂
  refine ⟨t₁, t₂, t₃, h₁, h₂, h₃, fun hsafe => ?_⟩
  -- the entry of the variable is still there, and it has been freed
  refine (hsafe (s.trace ++ s.delTrace v) (.var v) (t₂.finiTrace ⟨vars, true⟩) ?_).1
    (use_mem_finiTrace hdata)
  rw [htrace₃, htrace₂, htrace₁, List.append_assoc, List.singleton_append]

/-- One session is there, another one is being made. -/
theorem session_vars_safe_run : ∃ s : State ℕ,
    Run .start [.addVar ⟨true, true⟩ 5, .enter fun _ => 5, .list 0, .write 0 0 5 7,
      .enter fun _ => 5] s ∧ NoUseAfterFree s.trace ∧
      ∃ t₁ t₂ t₃, s.step (.delVar 0) = some t₁ ∧ t₁.step (.list 1) = some t₂ ∧
        t₂.step (.quit 1) = some t₃ ∧ ¬ NoUseAfterFree t₃.trace := by
  have run : Run (.start : State ℕ) [.addVar ⟨true, true⟩ 5, .enter fun _ => 5, .list 0,
      .write 0 0 5 7, .enter fun _ => 5] _ :=
    Run.nil _ |>.snoc rfl (fun _ heq => by cases heq)
      |>.snoc rfl (fun _ heq => by cases heq)
      |>.snoc rfl (fun _ heq => by cases heq)
      |>.snoc rfl (fun _ heq => by cases heq)
      |>.snoc rfl (fun _ heq => by cases heq)
  exact ⟨_, run, (session_vars_safe run).1, (session_vars_safe run).2.2 1 0 _ _ rfl rfl⟩

/-- **A session has its own values**: a datum that a session has for a variable stays where it is,
and its value is what the session has written last, whatever other sessions and other variables
do. -/
theorem session_view_run {acts acts' : List (Act V)} (h : Run .start acts s)
    (h' : Run s acts' s') {n : ℕ} (hptr : s.ptr k v = some (.own n)) (hquit : .quit k ∉ acts')
    (hdel : .delVar v ∉ acts') :
    s'.ptr k v = some (.own n) ∧
      s'.view k v = (acts'.reverse.findSome? (written k v)).or (s.view k v) := by
  obtain ⟨hptr', hvalue⟩ := h'.value (h.inv inv_start) hptr hquit hdel
  refine ⟨hptr', ?_⟩
  rw [State.view, hptr', State.view, hptr]
  exact hvalue

/-- Another session writes, too. -/
theorem session_view_run_two : ∃ s : State ℕ,
    Run .start [.addVar ⟨true, true⟩ 5, .enter fun _ => 5, .list 0, .enter fun _ => 5, .list 1] s ∧
      ∃ s', Run s [.write 0 0 5 7, .write 1 0 5 8] s' ∧ s'.view 0 0 = some 7 ∧
        s'.view 1 0 = some 8 := by
  have run : Run (.start : State ℕ) [.addVar ⟨true, true⟩ 5, .enter fun _ => 5, .list 0,
      .enter fun _ => 5, .list 1] _ :=
    Run.nil _ |>.snoc rfl (fun _ heq => by cases heq)
      |>.snoc rfl (fun _ heq => by cases heq)
      |>.snoc rfl (fun _ heq => by cases heq)
      |>.snoc rfl (fun _ heq => by cases heq)
      |>.snoc rfl (fun _ heq => by cases heq)
  have hview : ∀ s', Run _ [.write 0 0 5 7, .write 1 0 5 8] s' →
      s'.view 0 0 = some 7 ∧ s'.view 1 0 = some 8 := fun s' h =>
    ⟨(session_view_run run h (n := 0) rfl (by simp) (by simp)).2,
      (session_view_run run h (n := 1) rfl (by simp) (by simp)).2⟩
  refine ⟨_, run, Exists.imp (fun s' h => ⟨h, hview s' h⟩) ?_⟩
  exact ⟨_, Run.nil _ |>.snoc rfl (fun _ heq => by cases heq)
    |>.snoc rfl (fun _ heq => by cases heq)⟩

end SessionVar

end Mbb
