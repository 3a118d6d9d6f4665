import Mbb.Var

/-!
# Who can change variables

Threads without the capability of wheel change a value by `mbb-var-set` only, of a variable whose
`cap_write` they have; whatever else they call leaves values, variables, caches and modules as they
are.
-/

namespace Mbb

namespace Vars

variable {E V : Type} {s s' : Vars E V} {c : VarCaller E}

/-- What `mbb_var_write` does. -/
theorem varWrite_cases {var : MbbVar E V} {arg : String} {ok : Bool}
    (h : s.varWrite c var arg = some (ok, s')) : ∃ op, var.vdef.opWrite = some op ∧
      ((op arg = none ∧ ok = false ∧ s' = (s.getData c.session var).2) ∨
        ∃ f, op arg = some f ∧ ok = true ∧
          s' = (s.getData c.session var).2.setValue f (s.getData c.session var).1) := by
  rw [varWrite] at h
  cases hop : var.vdef.opWrite with
  | none =>
    rw [hop] at h
    cases h
  | some op =>
    rw [hop] at h
    refine ⟨op, rfl, ?_⟩
    cases harg : op arg with
    | none =>
      simp only [harg, Option.some.injEq, Prod.mk.injEq] at h
      exact .inl ⟨rfl, h.1.symm, h.2.symm⟩
    | some f =>
      simp only [harg, Option.some.injEq, Prod.mk.injEq] at h
      exact .inr ⟨f, rfl, h.1.symm, h.2.symm⟩

/-! ## Places

Where `getData` finds a value, and what it makes first: a session gets a place of its own when it
looks at a variable with values of sessions for the first time.
-/

/-- `op_new`, where sessions have values of their own -/
def ownNew (var : MbbVar E V) : Option (V → V) := if var.session then var.opNew else none

/-- The session has a value of its own. -/
def fill (s : Vars E V) (k : ℕ) (var : MbbVar E V) (opNew : V → V) : Vars E V :=
  let mine := (s.data k var.id).getD (opNew (s.cells var.ptr))
  { s with data := Function.update s.data k (Function.update (s.data k) var.id (some mine)) }

theorem fill_of_some {k : ℕ} {var : MbbVar E V} {x : V} (h : s.data k var.id = some x)
    (opNew : V → V) : s.fill k var opNew = s := by
  rw [fill, h, Option.getD_some, ← h, Function.update_eq_self, Function.update_eq_self]

theorem getData_eq (s : Vars E V) (k : ℕ) (var : MbbVar E V) :
    s.getData k var = match ownNew var with
      | none => (.cell var.ptr, s)
      | some opNew => (.own k var.id, s.fill k var opNew) := by
  rw [getData, ownNew]
  cases var.session with
  | false => rfl
  | true =>
    cases var.opNew with
    | none => rfl
    | some opNew =>
      cases hdata : s.data k var.id with
      | none => simp only [if_true, fill, hdata, Option.getD_none]
      | some x => simp only [if_true, fill_of_some hdata]

/-- The place of a variable is its `ptr` unless sessions have values of their own, and else that of
the session. -/
theorem getData_place (s : Vars E V) (k : ℕ) (var : MbbVar E V) :
    (ownNew var = none ∧ (s.getData k var).1 = .cell var.ptr) ∨
      (s.getData k var).1 = .own k var.id := by
  rw [getData_eq]
  cases ownNew var with
  | none => exact .inl ⟨rfl, rfl⟩
  | some opNew => exact .inr rfl

/-! ## What stays

What a call has left alone, as a relation of states that calls one after the other keep.
-/

/-- Values at the places in `P` and `Q` stay, and so does everything that is not a value. -/
structure Frame (P : ℕ → Prop) (Q : ℕ → ℕ → Prop) (s s' : Vars E V) : Prop where
  /-- variables -/
  table : s'.table = s.table
  /-- the global cache -/
  cache : s'.cache = s.cache
  /-- those of sessions -/
  cached : s'.cached = s.cached
  /-- modules -/
  run : s'.run = s.run
  /-- values -/
  cells : ∀ p, P p → s'.cells p = s.cells p
  /-- values of sessions -/
  data : ∀ k id x, Q k id → s.data k id = some x → s'.data k id = some x

section Frame

variable {P : ℕ → Prop} {Q : ℕ → ℕ → Prop}

theorem Frame.refl (s : Vars E V) : Frame P Q s s :=
  ⟨rfl, rfl, rfl, rfl, fun _ _ => rfl, fun _ _ _ _ h => h⟩

theorem Frame.trans {s'' : Vars E V} (h : Frame P Q s s') (h' : Frame P Q s' s'') :
    Frame P Q s s'' :=
  ⟨h'.table.trans h.table, h'.cache.trans h.cache, h'.cached.trans h.cached, h'.run.trans h.run,
    fun p hp => (h'.cells p hp).trans (h.cells p hp),
    fun k id x hq hx => h'.data k id x hq (h.data k id x hq hx)⟩

theorem Frame.mono {P' : ℕ → Prop} {Q' : ℕ → ℕ → Prop} (h : Frame P Q s s')
    (hP : ∀ p, P' p → P p) (hQ : ∀ k id, Q' k id → Q k id) : Frame P' Q' s s' :=
  ⟨h.table, h.cache, h.cached, h.run, fun p hp => h.cells p (hP p hp),
    fun k id x hq hx => h.data k id x (hQ k id hq) hx⟩

theorem frame_getData (s : Vars E V) (k : ℕ) (var : MbbVar E V) :
    Frame P Q s (s.getData k var).2 := by
  rw [getData_eq]
  cases ownNew var with
  | none => exact .refl s
  | some opNew =>
    refine ⟨rfl, rfl, rfl, rfl, fun _ _ => rfl, fun k' id x _ hx => ?_⟩
    by_cases hk : k' = k
    · subst hk
      by_cases hid : id = var.id
      · subst hid
        simp [fill, hx]
      · simpa [fill, hid] using hx
    · simpa [fill, hk] using hx

theorem frame_setValue {place : Place} {f : V → V} (hcell : ∀ p, place = .cell p → ¬ P p)
    (hown : ∀ k id, place = .own k id → ¬ Q k id) : Frame P Q s (s.setValue f place) := by
  cases place with
  | cell p =>
    refine ⟨rfl, rfl, rfl, rfl, fun p' hp' => ?_, fun _ _ _ _ hx => hx⟩
    have hne : p' ≠ p := fun heq => hcell p rfl (heq ▸ hp')
    simp [setValue, hne]
  | own k id =>
    refine ⟨rfl, rfl, rfl, rfl, fun _ _ => rfl, fun k' id' x hq hx => ?_⟩
    by_cases hk : k' = k
    · subst hk
      have hne : id' ≠ id := fun heq => hown k' id rfl (heq ▸ hq)
      simpa [setValue, hne] using hx
    · simpa [setValue, hk] using hx

theorem frame_varRead {var : MbbVar E V} {text : Option String}
    (h : s.varRead c var = some (text, s')) : Frame P Q s s' := by
  rw [varRead] at h
  split at h
  · cases h
  · simp only [Option.some.injEq, Prod.mk.injEq] at h
    rw [← h.2]
    exact frame_getData s c.session var

theorem frame_varWrite {var : MbbVar E V} {arg : String} {ok : Bool}
    (h : s.varWrite c var arg = some (ok, s')) (hcell : ownNew var = none → ¬ P var.ptr)
    (hown : ¬ Q c.session var.id) : Frame P Q s s' := by
  obtain ⟨op, -, ⟨-, -, rfl⟩ | ⟨f, -, -, rfl⟩⟩ := varWrite_cases h
  · exact frame_getData s c.session var
  · refine (frame_getData s c.session var).trans (frame_setValue (fun p hp => ?_) fun k id hp => ?_)
    · rcases getData_place s c.session var with ⟨hnew, hplace⟩ | hplace
      · obtain rfl := Place.cell.inj (hp.symm.trans hplace)
        exact hcell hnew
      · cases hp.symm.trans hplace
    · rcases getData_place s c.session var with ⟨-, hplace⟩ | hplace
      · cases hp.symm.trans hplace
      · obtain ⟨rfl, rfl⟩ := Place.own.inj (hp.symm.trans hplace)
        exact hown

theorem frame_showVarsLoop {re : Option (String → Bool)} {rows : List (String × MbbVar E V)}
    {l : List (String × Option String)} (h : showVarsLoop c re rows s = some (l, s')) :
    Frame P Q s s' := by
  induction rows generalizing s l with
  | nil =>
    obtain ⟨-, rfl⟩ := Prod.mk.inj (Option.some.inj h)
    exact .refl s
  | cons r rows ih =>
    rw [showVarsLoop] at h
    split at h
    · split at h
      · cases h
      · rename_i hread
        obtain ⟨rest, hrest, heq⟩ := Option.map_eq_some_iff.mp h
        obtain ⟨-, rfl⟩ := Prod.mk.inj heq
        exact (frame_varRead hread).trans (ih hrest)
    · exact ih h

theorem frame_sessionVarsInit (s : Vars E V) (k : ℕ) : Frame P Q s (s.sessionVarsInit k) := by
  rw [sessionVarsInit]
  generalize s.table.rows = rows
  induction rows generalizing s with
  | nil => exact .refl s
  | cons r rows ih => exact (frame_getData s k r.2).trans (ih _)

end Frame

/-! ## Threads without the capability

Without wheel there is one way to change a value, and it asks for `cap_write`.
-/

/-- The thread has the capability of wheel, or that of root. -/
def Wheel (c : VarCaller E) : Prop := mbbCapCheck c.cap (capOf mbbCapWheelId) = true

instance (c : VarCaller E) : Decidable (Wheel c) :=
  inferInstanceAs (Decidable (mbbCapCheck c.cap (capOf mbbCapWheelId) = true))

/-- A thread that may call the methods of root may call those of wheel. -/
theorem wheel_of_root (h : mbbCapCheck c.cap (capOf mbbCapRootId) = true) : Wheel c := by
  rw [Wheel]
  rw [mbbCapCheck] at h ⊢
  split at h
  · exact absurd h (by decide)
  · rename_i hne
    rw [if_neg hne]
    have hroot : mbbCapIsRoot c.cap = true := by
      rcases Bool.or_eq_true_iff.mp h with hroot | hroot
      · exact hroot
      · exact hroot
    rw [hroot, Bool.true_or]

/-- Nobody can write to a place by `mbb-var-set`. A variable of which sessions have values of their
own is written there, and not at its `ptr`. -/
def CellGuarded (table : Ledger String (MbbVar E V)) (es : List (VarEvent E V)) (p : ℕ) : Prop :=
  ∀ c name value, .call c (.varSet name value) ∈ es → ∀ var, table.get? name = some var →
    ownNew var = none → var.ptr = p → canWrite var c.cap = false

/-- The session cannot write to a place of its own. -/
def DataGuarded (table : Ledger String (MbbVar E V)) (es : List (VarEvent E V)) (k id : ℕ) : Prop :=
  ∀ c name value, .call c (.varSet name value) ∈ es → c.session = k →
    ∀ var, table.get? name = some var → var.id = id → canWrite var c.cap = false

/-- What `mbb_var_get_by_name` finds. -/
theorem getByName_eq_some {name : String} {var : MbbVar E V} (h : s.getByName name = some var) :
    s.table.get? name = some var ∧ s.isAlive var = true := by
  rw [getByName] at h
  split at h
  · cases h
  · rename_i hget
    obtain ⟨halive, h⟩ := Option.ite_none_right_eq_some.mp h
    obtain rfl := Option.some.inj h
    exact ⟨hget, halive⟩

theorem getByName_congr {t : Vars E V} (htable : t.table = s.table) (hrun : t.run = s.run)
    (name : String) : t.getByName name = s.getByName name := by
  have halive : ∀ var, t.isAlive var = s.isAlive var := fun var => by rw [isAlive, isAlive, hrun]
  rw [getByName, getByName, htable]
  simp only [halive]

/-- One call. -/
theorem frame_call {cmd : VarCmd E V} {answer : VarAnswer} (hwheel : ¬ Wheel c)
    (h : s.call c cmd = some (answer, s')) :
    Frame (CellGuarded s.table [.call c cmd]) (DataGuarded s.table [.call c cmd]) s s' := by
  rw [call] at h
  split at h
  · rename_i hcap
    cases cmd with
    | varList =>
      obtain ⟨-, rfl⟩ := Prod.mk.inj (Option.some.inj h)
      exact .refl s
    | varShow name =>
      simp only [method] at h
      split at h
      · obtain ⟨-, rfl⟩ := Prod.mk.inj (Option.some.inj h)
        exact .refl s
      · split at h
        · obtain ⟨-, rfl⟩ := Prod.mk.inj (Option.some.inj h)
          exact .refl s
        · obtain ⟨r, hr, heq⟩ := Option.map_eq_some_iff.mp h
          obtain ⟨-, rfl⟩ := Prod.mk.inj heq
          exact frame_varRead hr
    | varSet name value =>
      simp only [method] at h
      split at h
      · obtain ⟨-, rfl⟩ := Prod.mk.inj (Option.some.inj h)
        exact .refl s
      · rename_i var hvar
        split at h
        · obtain ⟨-, rfl⟩ := Prod.mk.inj (Option.some.inj h)
          exact .refl s
        · rename_i hwrite
          obtain ⟨r, hr, heq⟩ := Option.map_eq_some_iff.mp h
          obtain ⟨-, rfl⟩ := Prod.mk.inj heq
          have hwrite : canWrite var c.cap = true := by simpa using hwrite
          have hget := (getByName_eq_some hvar).1
          refine frame_varWrite hr (fun hnew hp => ?_) fun hq => ?_
          · have hnot := hp c name value List.mem_cons_self var hget hnew rfl
            rw [hwrite] at hnot
            cases hnot
          · have hnot := hq c name value List.mem_cons_self rfl var hget rfl
            rw [hwrite] at hnot
            cases hnot
    | showVars re =>
      simp only [method] at h
      obtain ⟨r, hr, heq⟩ := Option.map_eq_some_iff.mp h
      obtain ⟨-, rfl⟩ := Prod.mk.inj heq
      exact frame_showVarsLoop hr
    | cacheShow name =>
      simp only [method] at h
      split at h
      · obtain ⟨-, rfl⟩ := Prod.mk.inj (Option.some.inj h)
        exact .refl s
      · obtain ⟨-, rfl⟩ := Prod.mk.inj (Option.some.inj h)
        exact .refl s
    | cacheList =>
      obtain ⟨-, rfl⟩ := Prod.mk.inj (Option.some.inj h)
      exact .refl s
    | showCached =>
      obtain ⟨-, rfl⟩ := Prod.mk.inj (Option.some.inj h)
      exact .refl s
    | moduleLoad m funcs vars => exact absurd (wheel_of_root hcap) hwheel
    | moduleUnload m => exact absurd (wheel_of_root hcap) hwheel
    | _ => exact absurd hcap hwheel
  · obtain ⟨-, rfl⟩ := Prod.mk.inj (Option.some.inj h)
    exact .refl s

/-- One event without wheel. -/
theorem frame_exec {e : VarEvent E V} {answers : List (BitVec 32 × VarAnswer)}
    (h : s.exec e = some (answers, s')) (he : ∀ c cmd, e = .call c cmd → ¬ Wheel c) :
    Frame (CellGuarded s.table [e]) (DataGuarded s.table [e]) s s' := by
  cases e with
  | enter k =>
    obtain ⟨-, rfl⟩ := Prod.mk.inj (Option.some.inj h)
    exact frame_sessionVarsInit s k
  | call c cmd =>
    obtain ⟨r, hcall, heq⟩ := Option.map_eq_some_iff.mp h
    obtain ⟨-, rfl⟩ := Prod.mk.inj heq
    exact frame_call (he c cmd rfl) hcall

/-- **Who can change variables**: calls of threads that are not in wheel leave variables, caches and
modules as they are, and so every value that none of them can write by `mbb-var-set`. -/
theorem var_confined {es : List (VarEvent E V)} {answers : List (BitVec 32 × VarAnswer)}
    (h : execAll es s = some (answers, s')) (hes : ∀ c cmd, .call c cmd ∈ es → ¬ Wheel c) :
    Frame (CellGuarded s.table es) (DataGuarded s.table es) s s' := by
  induction es generalizing s answers with
  | nil =>
    obtain ⟨-, rfl⟩ := Prod.mk.inj (Option.some.inj h)
    exact .refl s
  | cons e es ih =>
    rw [execAll] at h
    split at h
    · cases h
    · rename_i answers₁ t hexec
      obtain ⟨r, hr, heq⟩ := Option.map_eq_some_iff.mp h
      obtain ⟨-, rfl⟩ := Prod.mk.inj heq
      have hfirst := frame_exec hexec fun c cmd heq => hes c cmd (heq ▸ List.mem_cons_self)
      have hrest := ih hr fun c cmd hmem => hes c cmd (List.mem_cons_of_mem _ hmem)
      rw [hfirst.table] at hrest
      refine Frame.trans (hfirst.mono (fun p hp => ?_) fun k id hq => ?_)
        (hrest.mono (fun p hp => ?_) fun k id hq => ?_)
      · exact fun c name value hmem =>
          hp c name value (List.mem_singleton.mp hmem ▸ List.mem_cons_self)
      · exact fun c name value hmem =>
          hq c name value (List.mem_singleton.mp hmem ▸ List.mem_cons_self)
      · exact fun c name value hmem => hp c name value (List.mem_cons_of_mem _ hmem)
      · exact fun c name value hmem => hq c name value (List.mem_cons_of_mem _ hmem)

/-- `netflow.store.dir` -/
def exampleStoreDir : MbbVar Unit String where
  id := 0
  vdef :=
    { opRead := some fun _ dir => some dir
      opWrite := some fun dir => some fun _ => dir
      capRead := mbbCapAll
      capWrite := capOf mbbCapRootId }
  session := false
  ptr := 0
  opNew := none
  mod := some 0

/-- `private.table` -/
def examplePrivate : MbbVar Unit String where
  id := 1
  vdef := { opRead := none, opWrite := none, capRead := 0#32, capWrite := 0#32 }
  session := true
  ptr := 1
  opNew := some id
  mod := some 1

/-- The modules are loaded, and one value is `x`. -/
def exampleVars (x : String) : Vars Unit String where
  table :=
    ⟨[("netflow.store.dir", exampleStoreDir), ("@.private.table", examplePrivate)], by decide⟩
  varId := 2
  cells := fun p => if p = 0 then "/tmp/" else x
  data := fun _ _ => none
  cache := .empty
  cached := fun _ => .empty
  run := ⟨[(0, true), (1, true)], by decide⟩

/-- A thread with one capability. -/
def exampleThread (id : ℕ) : VarCaller Unit := ⟨0, capOf id, ()⟩

/-- A user who is not in root does not change `netflow.store.dir`. -/
theorem var_confined_user : ∃ s',
    execAll [.call (exampleThread 20) (.varSet "netflow.store.dir" "/")] (exampleVars "") =
      some ([(capOf 20, .notCapable)], s') ∧ s'.cells 0 = "/tmp/" := by
  have hrun : execAll [.call (exampleThread 20) (.varSet "netflow.store.dir" "/")]
      (exampleVars "") = some ([(capOf 20, .notCapable)], exampleVars "") := rfl
  refine ⟨_, hrun, (var_confined hrun (fun c cmd hmem => ?_)).cells 0 ?_⟩
  · cases List.mem_singleton.mp hmem
    decide
  · intro c name value hmem var hget hnew hptr
    cases List.mem_singleton.mp hmem
    cases hget
    decide

end Vars

end Mbb
