import Mbb.VarCaps

/-!
# What variables tell

Values that threads without the capability of wheel cannot read make no difference to what they are
answered, whatever they call, and none of their calls fails. A thread that has the capability can
have every variable saved to a cache, whatever `cap_read` says, and there everybody reads it.
-/

namespace Mbb

namespace Vars

variable {E V : Type} {s t : Vars E V} {c : VarCaller E} {C D : ℕ → Prop}

/-- Values may differ where `C` and `D` do not hold, nothing else does. -/
structure Alike (C D : ℕ → Prop) (s t : Vars E V) : Prop where
  /-- variables -/
  table : t.table = s.table
  /-- the global cache -/
  cache : t.cache = s.cache
  /-- those of sessions -/
  cached : t.cached = s.cached
  /-- modules -/
  run : t.run = s.run
  /-- values -/
  cells : ∀ p, C p → t.cells p = s.cells p
  /-- values of sessions -/
  data : ∀ k id, D id → t.data k id = s.data k id

/-- Both give the same, and states that are alike. -/
def Agree {α : Type} (C D : ℕ → Prop) (x y : Option (α × Vars E V)) : Prop :=
  ∃ a s' t', x = some (a, s') ∧ y = some (a, t') ∧ Alike C D s' t'

theorem Agree.map {α β : Type} {x y : Option (α × Vars E V)} (h : Agree C D x y) (g : α → β) :
    Agree C D (x.map fun r => (g r.1, r.2)) (y.map fun r => (g r.1, r.2)) := by
  obtain ⟨a, s', t', rfl, rfl, halike⟩ := h
  exact ⟨g a, s', t', rfl, rfl, halike⟩

/-! ## Reading and writing -/

theorem Alike.isAlive (h : Alike C D s t) (var : MbbVar E V) : t.isAlive var = s.isAlive var := by
  rw [Vars.isAlive, Vars.isAlive, h.run]

theorem Alike.getByName (h : Alike C D s t) (name : String) :
    t.getByName name = s.getByName name :=
  getByName_congr h.table h.run name

/-- What is made for a session is made of what is alike. -/
theorem Alike.getData (h : Alike C D s t) (k : ℕ) {var : MbbVar E V}
    (hnew : D var.id → C var.ptr) : (t.getData k var).1 = (s.getData k var).1 ∧
      Alike C D (s.getData k var).2 (t.getData k var).2 := by
  rw [getData_eq, getData_eq]
  cases hplace : ownNew var with
  | none => exact ⟨rfl, h⟩
  | some opNew =>
    refine ⟨rfl, h.table, h.cache, h.cached, h.run, h.cells, fun k' id hid => ?_⟩
    by_cases hk : k' = k
    · subst hk
      by_cases heq : id = var.id
      · subst heq
        simp [fill, h.data k' var.id hid, h.cells var.ptr (hnew hid)]
      · simpa [fill, heq] using h.data k' id hid
    · simpa [fill, hk] using h.data k' id hid

theorem Alike.setValue (h : Alike C D s t) (f : V → V) (place : Place) :
    Alike C D (s.setValue f place) (t.setValue f place) := by
  cases place with
  | cell p =>
    refine ⟨h.table, h.cache, h.cached, h.run, fun p' hp' => ?_, h.data⟩
    by_cases heq : p' = p
    · subst heq
      simp [Vars.setValue, h.cells p' hp']
    · simpa [Vars.setValue, heq] using h.cells p' hp'
  | own k id =>
    refine ⟨h.table, h.cache, h.cached, h.run, h.cells, fun k' id' hid => ?_⟩
    by_cases hk : k' = k
    · subst hk
      by_cases heq : id' = id
      · subst heq
        simp [Vars.setValue, h.data k' id' hid]
      · simpa [Vars.setValue, heq] using h.data k' id' hid
    · simpa [Vars.setValue, hk] using h.data k' id' hid

/-- A variable whose values are alike has the same value. -/
theorem Alike.value (h : Alike C D s t) (k : ℕ) {var : MbbVar E V} (hcell : C var.ptr)
    (hdata : D var.id) (s₀ : Vars E V) :
    t.value (s₀.getData k var).1 = s.value (s₀.getData k var).1 := by
  rcases getData_place s₀ k var with ⟨-, hplace⟩ | hplace
  · rw [hplace, Vars.value, Vars.value, h.cells _ hcell]
  · rw [hplace, Vars.value, Vars.value, h.data _ _ hdata]

theorem agree_varRead (h : Alike C D s t) {var : MbbVar E V} (hread : var.vdef.opRead.isSome)
    (hcell : C var.ptr) (hdata : D var.id) : Agree C D (s.varRead c var) (t.varRead c var) := by
  obtain ⟨op, hop⟩ := Option.isSome_iff_exists.mp hread
  obtain ⟨hplace, halike⟩ := h.getData c.session fun _ => hcell
  refine ⟨_, _, _, by simp only [varRead, hop]; rfl, ?_, halike⟩
  simp only [varRead, hop, hplace, halike.value c.session hcell hdata s]

theorem agree_varWrite (h : Alike C D s t) {var : MbbVar E V} (hwrite : var.vdef.opWrite.isSome)
    (hnew : D var.id → C var.ptr) (arg : String) :
    Agree C D (s.varWrite c var arg) (t.varWrite c var arg) := by
  obtain ⟨op, hop⟩ := Option.isSome_iff_exists.mp hwrite
  obtain ⟨hplace, halike⟩ := h.getData c.session hnew
  cases harg : op arg with
  | none => exact ⟨false, _, _, by simp only [varWrite, hop, harg],
      by simp only [varWrite, hop, harg], halike⟩
  | some f =>
    refine ⟨true, _, _, by simp only [varWrite, hop, harg]; rfl, ?_, halike.setValue f _⟩
    simp only [varWrite, hop, harg, hplace]

/-! ## Calls

Two states that agree on what the thread may read are answered alike and agree afterwards, whatever
is called.
-/

/-- What the thread can read is alike. -/
def Reads (C D : ℕ → Prop) (c : VarCaller E) (rows : List (String × MbbVar E V)) : Prop :=
  ∀ r ∈ rows, canRead r.2 c.cap = true → C r.2.ptr ∧ D r.2.id

/-- What is made of alike values is alike, and nothing else. -/
def Fresh (C D : ℕ → Prop) (rows : List (String × MbbVar E V)) : Prop :=
  ∀ r ∈ rows, D r.2.id → C r.2.ptr

theorem isSome_opRead_of_canRead {var : MbbVar E V} {cap : BitVec 32}
    (h : canRead var cap = true) : var.vdef.opRead.isSome = true := by
  rw [canRead, Bool.and_eq_true] at h
  exact h.1

theorem isSome_opWrite_of_canWrite {var : MbbVar E V} {cap : BitVec 32}
    (h : canWrite var cap = true) : var.vdef.opWrite.isSome = true := by
  rw [canWrite, Bool.and_eq_true, isReadonly, Bool.not_eq_true', Option.isNone_eq_false_iff] at h
  exact h.1

theorem agree_showVarsLoop (h : Alike C D s t) (re : Option (String → Bool))
    {rows : List (String × MbbVar E V)} (hread : Reads C D c rows) :
    Agree C D (showVarsLoop c re rows s) (showVarsLoop c re rows t) := by
  induction rows generalizing s t with
  | nil => exact ⟨[], s, t, rfl, rfl, h⟩
  | cons r rows ih =>
    have hrest : Reads C D c rows := fun r hr => hread r (List.mem_cons_of_mem _ hr)
    rw [showVarsLoop, showVarsLoop, h.isAlive]
    split
    · rename_i hshow
      have hcan : canRead r.2 c.cap = true := (Bool.and_eq_true_iff.mp hshow).2
      obtain ⟨hcell, hdata⟩ := hread r List.mem_cons_self hcan
      obtain ⟨text, s', t', hs, ht, halike⟩ :=
        agree_varRead (c := c) h (isSome_opRead_of_canRead hcan) hcell hdata
      simp only [hs, ht]
      exact (ih halike hrest).map fun rest => (r.1, text) :: rest
    · exact ih h hrest

/-- One call. -/
theorem agree_call (h : Alike C D s t) (hwheel : ¬ Wheel c) (hread : Reads C D c s.table.rows)
    (hfresh : Fresh C D s.table.rows) (cmd : VarCmd E V) :
    Agree C D (s.call c cmd) (t.call c cmd) := by
  rw [call, call]
  split
  · rename_i hcap
    cases cmd with
    | varList =>
      have halive : s.isAlive = t.isAlive := funext fun var => (h.isAlive var).symm
      refine ⟨_, s, t, rfl, ?_, h⟩
      simp only [method, h.table, halive]
    | varShow name =>
      rw [method, method, h.getByName]
      cases hvar : s.getByName name with
      | none => exact ⟨_, s, t, rfl, rfl, h⟩
      | some var =>
        cases hcan : canRead var c.cap with
        | false => exact ⟨.notCapable, s, t, by simp [hcan], by simp [hcan], h⟩
        | true =>
          simp only [hcan, Bool.not_true, Bool.false_eq_true, if_false]
          obtain ⟨hcell, hdata⟩ := hread _ (Ledger.mem_of_get? (getByName_eq_some hvar).1) hcan
          exact (agree_varRead h (isSome_opRead_of_canRead hcan) hcell hdata).map VarAnswer.value
    | varSet name value =>
      rw [method, method, h.getByName]
      cases hvar : s.getByName name with
      | none => exact ⟨_, s, t, rfl, rfl, h⟩
      | some var =>
        cases hcan : canWrite var c.cap with
        | false => exact ⟨.notCapable, s, t, by simp [hcan], by simp [hcan], h⟩
        | true =>
          simp only [hcan, Bool.not_true, Bool.false_eq_true, if_false]
          have hnew := hfresh _ (Ledger.mem_of_get? (getByName_eq_some hvar).1)
          exact (agree_varWrite h (isSome_opWrite_of_canWrite hcan) hnew value).map
            fun ok => if ok then VarAnswer.ok else .invalidValue
    | showVars re =>
      simp only [method, h.table]
      exact (agree_showVarsLoop h re hread).map VarAnswer.vars
    | cacheShow name =>
      have hget : t.cacheGet c.session name = s.cacheGet c.session name := by
        rw [cacheGet, cacheGet, cacheTable, cacheTable, h.cache, h.cached]
      simp only [method, hget]
      cases s.cacheGet c.session name with
      | none => exact ⟨_, s, t, rfl, rfl, h⟩
      | some value => exact ⟨_, s, t, rfl, rfl, h⟩
    | cacheList =>
      refine ⟨_, s, t, rfl, ?_, h⟩
      simp only [method, h.cache, h.cached]
    | showCached =>
      refine ⟨_, s, t, rfl, ?_, h⟩
      simp only [method, h.cache, h.cached]
    | moduleLoad m funcs vars => exact absurd (wheel_of_root hcap) hwheel
    | moduleUnload m => exact absurd (wheel_of_root hcap) hwheel
    | _ => exact absurd hcap hwheel
  · exact ⟨_, s, t, rfl, rfl, h⟩

theorem alike_sessionVarsInit (h : Alike C D s t) (k : ℕ) (hfresh : Fresh C D s.table.rows) :
    Alike C D (s.sessionVarsInit k) (t.sessionVarsInit k) := by
  rw [sessionVarsInit, sessionVarsInit, h.table]
  generalize s.table.rows = rows at hfresh
  induction rows generalizing s t with
  | nil => exact h
  | cons r rows ih =>
    exact ih (h.getData k (hfresh r List.mem_cons_self)).2 fun r hr =>
      hfresh r (List.mem_cons_of_mem _ hr)

/-- One event. -/
theorem agree_exec (h : Alike C D s t) {e : VarEvent E V}
    (hwheel : ∀ c cmd, e = .call c cmd → ¬ Wheel c)
    (hread : ∀ c cmd, e = .call c cmd → Reads C D c s.table.rows)
    (hfresh : Fresh C D s.table.rows) : Agree C D (s.exec e) (t.exec e) := by
  cases e with
  | enter k => exact ⟨[], _, _, rfl, rfl, alike_sessionVarsInit h k hfresh⟩
  | call c cmd =>
    exact (agree_call h (hwheel c cmd rfl) (hread c cmd rfl) hfresh cmd).map fun a => [(c.cap, a)]

/-- **What variables tell**: in two states that differ only in values that none of the threads can
read, threads that are not in wheel get the same answers, whatever they call in whatever order; and
they always get one. -/
theorem var_secret (h : Alike C D s t) {es : List (VarEvent E V)}
    (hwheel : ∀ c cmd, .call c cmd ∈ es → ¬ Wheel c)
    (hread : ∀ c cmd, .call c cmd ∈ es → Reads C D c s.table.rows)
    (hfresh : Fresh C D s.table.rows) : Agree C D (execAll es s) (execAll es t) := by
  induction es generalizing s t with
  | nil => exact ⟨[], s, t, rfl, rfl, h⟩
  | cons e es ih =>
    obtain ⟨answers, s', t', hs, ht, halike⟩ := agree_exec h
      (fun c cmd heq => hwheel c cmd (heq ▸ List.mem_cons_self))
      (fun c cmd heq => hread c cmd (heq ▸ List.mem_cons_self)) hfresh
    have htable : s'.table = s.table := (frame_exec hs fun c cmd heq =>
      hwheel c cmd (heq ▸ List.mem_cons_self)).table
    rw [execAll, execAll, hs, ht]
    refine (ih halike (fun c cmd hmem => hwheel c cmd (List.mem_cons_of_mem _ hmem))
      (fun c cmd hmem => ?_) ?_).map fun rest => answers ++ rest
    · rw [htable]
      exact hread c cmd (List.mem_cons_of_mem _ hmem)
    · rwa [htable]

/-- A user does not learn what `private.table` is. -/
theorem var_secret_private : Agree (fun p => p = 0) (fun id => id = 0)
    (execAll [.enter 0, .call (exampleThread 20) (.showVars none)] (exampleVars "a"))
    (execAll [.enter 0, .call (exampleThread 20) (.showVars none)] (exampleVars "b")) := by
  have hcall : ∀ (c : VarCaller Unit) (cmd : VarCmd Unit String), VarEvent.call c cmd ∈
      [.enter 0, .call (exampleThread 20) (.showVars none)] → c = exampleThread 20 := by
    intro c cmd hmem
    rcases List.mem_cons.mp hmem with heq | hmem
    · cases heq
    · cases List.mem_singleton.mp hmem
      rfl
  have halike : Alike (fun p => p = 0) (fun id => id = 0) (exampleVars "a") (exampleVars "b") :=
    ⟨rfl, rfl, rfl, rfl, fun p hp => by simp [exampleVars, hp], fun _ _ _ => rfl⟩
  refine var_secret halike (fun c cmd hmem => ?_) (fun c cmd hmem r hr hcan => ?_)
    fun r hr hid => ?_
  · rw [hcall c cmd hmem]
    decide
  · rw [hcall c cmd hmem] at hcan
    rcases List.mem_cons.mp hr with rfl | hr
    · exact ⟨rfl, rfl⟩
    · cases List.mem_singleton.mp hr
      cases hcan
  · rcases List.mem_cons.mp hr with rfl | hr
    · rfl
    · cases List.mem_singleton.mp hr
      cases hid

end Vars

end Mbb
