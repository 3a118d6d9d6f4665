import Mbb.VarSecret

/-!
# What wheel can do with variables

The caches ask for neither `cap_read` nor `cap_write`. With the capability of wheel a thread gives
every variable that is not read-only every value that it takes, by a text that is put into a cache
and loaded from there; and a value that is saved to a cache is shown to everybody. A variable that
has no `op_read`, such as `private.table`, is not asked for before it is saved either: then the
server ends.
-/

namespace Mbb

namespace Vars

variable {E V : Type} {s t : Vars E V} {c : VarCaller E}

/-! ## Writing

A text is put into the cache under the name of the variable, and loading the cache writes it.
-/

/-- Caches do not matter for values. -/
theorem getData_congr (hcells : t.cells = s.cells) (hdata : t.data = s.data) (k : ℕ)
    (var : MbbVar E V) : (t.getData k var).1 = (s.getData k var).1 ∧
      (t.getData k var).2.cells = (s.getData k var).2.cells ∧
      (t.getData k var).2.data = (s.getData k var).2.data := by
  rw [getData_eq, getData_eq]
  cases ownNew var with
  | none => exact ⟨rfl, hcells, hdata⟩
  | some opNew => exact ⟨rfl, hcells, by simp only [fill, hcells, hdata]⟩

theorem value_congr (hcells : t.cells = s.cells) (hdata : t.data = s.data) (place : Place) :
    t.value place = s.value place := by
  cases place with
  | cell p => rw [value, value, hcells]
  | own k id => rw [value, value, hdata]

theorem value_setValue (s : Vars E V) (f : V → V) (place : Place) :
    (s.setValue f place).value place = (s.value place).map f := by
  cases place with
  | cell p => simp [value, setValue]
  | own k id => simp [value, setValue]

/-- What a text in a cache leaves as it is. -/
theorem cacheAdd_spec (s : Vars E V) (k : ℕ) (name value : String) :
    (s.cacheAdd k name value).cacheGet k name = some value ∧
      (s.cacheAdd k name value).table = s.table ∧ (s.cacheAdd k name value).run = s.run ∧
      (s.cacheAdd k name value).cells = s.cells ∧ (s.cacheAdd k name value).data = s.data := by
  rw [cacheGet, cacheTable, cacheAdd, setCacheTable]
  split
  · refine ⟨?_, rfl, rfl, rfl, rfl⟩
    simp [Ledger.get?_put]
  · refine ⟨?_, rfl, rfl, rfl, rfl⟩
    simp [Ledger.get?_put]

/-- A text is put into a cache, and loaded from there. -/
theorem wheel_writes (hwheel : Wheel c) {name arg : String} {var : MbbVar E V}
    {op : String → Option (V → V)} {f : V → V} (hvar : s.getByName name = some var)
    (hop : var.vdef.opWrite = some op) (harg : op arg = some f) :
    ∃ t, execAll [.call c (.cacheAdd name (some arg)), .call c (.cacheLoad name)] s =
        some ([(c.cap, .ok), (c.cap, .ok)], t) ∧
      t.value (s.getData c.session var).1 =
        ((s.getData c.session var).2.value (s.getData c.session var).1).map f := by
  obtain ⟨hget, htable, hrun, hcells, hdata⟩ := s.cacheAdd_spec c.session name arg
  obtain ⟨hplace, hcells', hdata'⟩ := getData_congr hcells hdata c.session var
  have hadd : s.call c (.cacheAdd name (some arg)) =
      some (.ok, s.cacheAdd c.session name arg) := if_pos hwheel
  have hwrite : (s.cacheAdd c.session name arg).varWrite c var arg = some (true,
      ((s.cacheAdd c.session name arg).getData c.session var).2.setValue f
        ((s.cacheAdd c.session name arg).getData c.session var).1) := by
    simp only [varWrite, hop, harg]
  have hload : (s.cacheAdd c.session name arg).call c (.cacheLoad name) = some (.ok,
      ((s.cacheAdd c.session name arg).getData c.session var).2.setValue f
        ((s.cacheAdd c.session name arg).getData c.session var).1) := by
    refine (if_pos hwheel).trans ?_
    simp only [method, hget, getByName_congr htable hrun, hvar, isReadonly, hop, hwrite]
    rfl
  refine ⟨((s.cacheAdd c.session name arg).getData c.session var).2.setValue f
    ((s.cacheAdd c.session name arg).getData c.session var).1, ?_, ?_⟩
  · simp only [execAll, exec, hadd, hload, Option.map_some]
    rfl
  · rw [← hplace, value_setValue, value_congr hcells' hdata']

/-! ## Reading

Saving to the cache reads the value, and the cache is shown.
-/

/-- Threads that have the same cache for a name. -/
theorem cacheTable_eq {k k' : ℕ} {name : String} (h : k' = k ∨ hasSessionPrefix name = false) :
    s.cacheTable k' name = s.cacheTable k name := by
  rcases h with rfl | hglobal
  · rfl
  · simp [cacheTable, hglobal]

/-- A value is saved to a cache, and another thread is shown it. -/
theorem wheel_reads (hwheel : Wheel c) {name text : String} {var : MbbVar E V}
    {op : E → V → Option String} (hvar : s.getByName name = some var)
    (hop : var.vdef.opRead = some op)
    (htext : ((s.getData c.session var).2.value (s.getData c.session var).1).bind (op c.env) =
      some text) {c' : VarCaller E} (hall : mbbCapCheck c'.cap mbbCapAll = true)
    (hcache : c'.session = c.session ∨ hasSessionPrefix name = false) :
    ∃ t, execAll [.call c (.cacheAdd name none), .call c' (.cacheShow name)] s =
      some ([(c.cap, .ok), (c'.cap, .value (some text))], t) := by
  have hadd : s.call c (.cacheAdd name none) =
      some (.ok, (s.getData c.session var).2.cacheAdd c.session name text) := by
    refine (if_pos hwheel).trans ?_
    simp only [method, hvar, cacheSave, varRead, hop, htext, Option.map_some]
  have hget : ((s.getData c.session var).2.cacheAdd c.session name text).cacheGet c'.session name =
      some text := by
    rw [cacheGet, cacheTable_eq hcache]
    exact (cacheAdd_spec _ c.session name text).1
  have hshow : ((s.getData c.session var).2.cacheAdd c.session name text).call c'
      (.cacheShow name) = some (.value (some text),
        (s.getData c.session var).2.cacheAdd c.session name text) := by
    refine (if_pos hall).trans ?_
    simp only [method, hget]
  refine ⟨(s.getData c.session var).2.cacheAdd c.session name text, ?_⟩
  simp only [execAll, exec, hadd, hshow, Option.map_some]
  rfl

/-! ## Variables without `op_read` -/

theorem cacheSave_eq_none {name : String} {var : MbbVar E V} (h : var.vdef.opRead = none)
    (s : Vars E V) : s.cacheSave c name var = none := by
  simp only [cacheSave, varRead, h]

/-- The loop ends at such a variable, if it does not end before. -/
theorem varsDo_eq_none {func : Vars E V → String → MbbVar E V → Option (Vars E V)}
    {rows : List (String × MbbVar E V)} {r : String × MbbVar E V} (hr : r ∈ rows)
    (h : ∀ s, func s r.1 r.2 = none) (s : Vars E V) : varsDo func rows s = none := by
  induction rows generalizing s with
  | nil => cases hr
  | cons r' rows ih =>
    rw [varsDo]
    rcases List.mem_cons.mp hr with rfl | hr
    · rw [h s, Option.bind_none]
    · exact Option.bind_eq_none_iff.mpr fun s' _ => ih hr s'

theorem cacheAdd_eq_none (hwheel : Wheel c) {name : String} {var : MbbVar E V}
    (hvar : s.getByName name = some var) (h : var.vdef.opRead = none) :
    s.call c (.cacheAdd name none) = none := by
  refine (if_pos hwheel).trans ?_
  simp only [method, hvar, cacheSave_eq_none h, Option.map_none]

theorem moduleVarsSave_eq_none (hwheel : Wheel c) {name : String} {var : MbbVar E V} {m : ℕ}
    (hvar : s.getByName name = some var) (hmod : var.mod = some m) (h : var.vdef.opRead = none) :
    s.call c (.moduleVarsSave m) = none := by
  have halive : s.isAlive var = true := (getByName_eq_some hvar).2
  refine (if_pos hwheel).trans ?_
  rw [isAlive, hmod] at halive
  rw [method]
  cases hrun : s.run.get? m with
  | none => simp [hrun] at halive
  | some run =>
    have hmem : (name, var) ∈ s.moduleVars m :=
      List.mem_filter.mpr ⟨Ledger.mem_of_get? (getByName_eq_some hvar).1, decide_eq_true hmod⟩
    exact congrArg (Option.map _) (varsDo_eq_none hmem (fun s => cacheSave_eq_none h s) s)

/-- **What wheel can do with variables**: in every state, with every variable that is alive. By two
calls a thread in wheel writes it, whatever `cap_write` says, and by one it has the value shown to
everybody who calls, whatever `cap_read` says; and if it has no `op_read`, both that call and
`mbb-module-vars-save` of its module call what is `NULL`. -/
theorem var_wheel (hwheel : Wheel c) {name : String} {var : MbbVar E V}
    (hvar : s.getByName name = some var) :
    (∀ op arg f, var.vdef.opWrite = some op → op arg = some f →
      ∃ t, execAll [.call c (.cacheAdd name (some arg)), .call c (.cacheLoad name)] s =
          some ([(c.cap, .ok), (c.cap, .ok)], t) ∧
        t.value (s.getData c.session var).1 =
          ((s.getData c.session var).2.value (s.getData c.session var).1).map f) ∧
    (∀ op text (c' : VarCaller E), var.vdef.opRead = some op →
      ((s.getData c.session var).2.value (s.getData c.session var).1).bind (op c.env) = some text →
      mbbCapCheck c'.cap mbbCapAll = true →
      (c'.session = c.session ∨ hasSessionPrefix name = false) →
      ∃ t, execAll [.call c (.cacheAdd name none), .call c' (.cacheShow name)] s =
        some ([(c.cap, .ok), (c'.cap, .value (some text))], t)) ∧
    (var.vdef.opRead = none → s.call c (.cacheAdd name none) = none ∧
      ∀ m, var.mod = some m → s.call c (.moduleVarsSave m) = none) :=
  ⟨fun _ _ _ hop harg => wheel_writes hwheel hvar hop harg,
    fun _ _ _ hop htext hall hcache => wheel_reads hwheel hvar hop htext hall hcache,
    fun hread => ⟨cacheAdd_eq_none hwheel hvar hread,
      fun _ hmod => moduleVarsSave_eq_none hwheel hvar hmod hread⟩⟩

/-- A user in wheel changes `netflow.store.dir`, and saves `private.table`. -/
theorem var_wheel_netflow :
    (∃ t, execAll [.call (exampleThread mbbCapWheelId) (.cacheAdd "netflow.store.dir" (some "/")),
        .call (exampleThread mbbCapWheelId) (.cacheLoad "netflow.store.dir")] (exampleVars "") =
          some ([(capOf mbbCapWheelId, .ok), (capOf mbbCapWheelId, .ok)], t) ∧
      t.cells 0 = "/") ∧
    (exampleVars "").call (exampleThread mbbCapWheelId) (.cacheAdd "@.private.table" none) =
      none := by
  have hwheel : Wheel (exampleThread mbbCapWheelId) := by decide
  have hdir : (exampleVars "").getByName "netflow.store.dir" = some exampleStoreDir := rfl
  have hprivate : (exampleVars "").getByName "@.private.table" = some examplePrivate := rfl
  obtain ⟨t, hrun, hvalue⟩ := (var_wheel hwheel hdir).1 _ "/" _ rfl rfl
  exact ⟨⟨t, hrun, Option.some.inj hvalue⟩, ((var_wheel hwheel hprivate).2.2 rfl).1⟩

end Vars

end Mbb
