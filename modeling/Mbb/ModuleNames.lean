import Mbb.ModuleRun

/-!
# Names of modules (`mbbd/mbbmodule.c`, `mbbd/mbbfunc.c`)

Modules register functions and variables under names. A name that is taken is refused, and its entry
stays unmarked; when the module is unloaded, the names of its marked entries are given up. So no
module hides or takes away what is not its own, in whatever order modules are loaded and unloaded,
and whether or not they are stopped.
-/

namespace Mbb

/-! ## Marks

A module comes with a list of names. `mregister` puts those that are free into the table and marks
them; `unregister` takes out what belongs to the module.
-/

/-- `mbb_func_mregister` and `mbb_var_mregister`, as far as the entries are concerned: an entry is
marked, by its `module` or `mod`, when its name is registered. -/
def marks (m : ℕ) (table : Registry) : List String → List (String × Bool)
  | [] => []
  | name :: names =>
    if (table.get? name).isSome then (name, false) :: marks m table names
    else (name, true) :: marks m (table.put name (some m)) names

/-- `mbb_func_unregister_all`, and `mbb_var_unregister` for variables, entry by entry -/
def unregisterAll (table : Registry) (entries : List (String × Bool)) : Registry :=
  entries.foldl (fun table e => if e.2 then table.drop fun name => decide (name = e.1) else table)
    table

/-- The marks stand beside the names. -/
theorem map_marks (m : ℕ) (table : Registry) (names : List String) :
    (marks m table names).map Prod.fst = names := by
  induction names generalizing table with
  | nil => rfl
  | cons name names ih =>
    rw [marks]
    split
    · rw [List.map_cons, ih]
    · rw [List.map_cons, ih]

/-- As many names are counted as were marked. -/
theorem mregister_count (m : ℕ) (table : Registry) (names : List String) :
    (mregister m table names).2 = (marks m table names).countP Prod.snd := by
  induction names generalizing table with
  | nil => rfl
  | cons name names ih =>
    rw [mregister, marks]
    split
    · rw [ih, List.countP_cons_of_neg (by simp)]
    · rw [List.countP_cons_of_pos (by simp)]
      exact congrArg (· + 1) (ih _)

/-- Only names that are free are marked. -/
theorem get?_of_mem_marks {m : ℕ} {table : Registry} {names : List String} {f : String}
    (h : (f, true) ∈ marks m table names) : table.get? f = none := by
  induction names generalizing table with
  | nil => cases h
  | cons name names ih =>
    rw [marks] at h
    split at h
    · rcases List.mem_cons.mp h with heq | h
      · cases heq
      · exact ih h
    · rename_i hfree
      rcases List.mem_cons.mp h with heq | h
      · cases heq
        simpa using hfree
      · have hput := ih h
        rw [Ledger.get?_put] at hput
        split at hput
        · cases hput
        · exact hput

/-- The names that are marked are the module's, and the others what they were. -/
theorem get?_mregister_eq (m : ℕ) (table : Registry) (names : List String) (f : String) :
    (mregister m table names).1.get? f =
      if (f, true) ∈ marks m table names then some (some m) else table.get? f := by
  induction names generalizing table with
  | nil => simp [mregister, marks]
  | cons name names ih =>
    rw [mregister, marks]
    split
    · rw [ih]
      simp
    · rw [ih, Ledger.get?_put]
      by_cases hf : f = name
      · simp [hf]
      · simp [hf]

/-- The names that a module has are given up, those of others are kept. -/
theorem get?_unregister (m : ℕ) (table : Registry) (f : String) : (unregister m table).get? f =
    if table.get? f = some (some m) then none else table.get? f := by
  rw [unregister, Ledger.get?_drop]
  simp only [beq_iff_eq]

/-- Likewise name by name, for the marked entries. -/
theorem get?_unregisterAll (table : Registry) (entries : List (String × Bool)) (f : String) :
    (unregisterAll table entries).get? f =
      if (f, true) ∈ entries then none else table.get? f := by
  induction entries generalizing table with
  | nil => simp [unregisterAll]
  | cons e entries ih =>
    obtain ⟨name, marked⟩ := e
    rw [unregisterAll, List.foldl_cons]
    cases marked with
    | false =>
      refine (ih table).trans ?_
      simp
    | true =>
      refine (ih _).trans ?_
      rw [if_pos rfl, Ledger.get?_drop]
      by_cases hf : f = name
      · simp [hf]
      · simp [hf]

namespace Modules

variable {s s' : Modules} {builtin builtinVars : List String}

/-! ## What most steps leave as it is

Calls, returns and tasks touch counts and keys of threads. They keep the tables of names and, of
each module, its name, its handle and its entries.
-/

/-- What is in a record from the load on -/
def fixed (r : MbbModule) : MbbModule := { r with useCount := 0, run := false, readers := 0 }

/-- The same but for counters, locks and keys, and what is stopped. -/
structure Kept (s s' : Modules) : Prop where
  /-- functions -/
  funcs : s'.funcs = s.funcs
  /-- variables -/
  vars : s'.vars = s.vars
  /-- addresses given out -/
  fresh : s'.fresh = s.fresh
  /-- modules -/
  fixed : s'.modules.col Modules.fixed = s.modules.col Modules.fixed

/-- A step that does nothing. -/
theorem Kept.refl (s : Modules) : s.Kept s := ⟨rfl, rfl, rfl, rfl⟩

/-- Steps one after the other. -/
theorem Kept.trans {s'' : Modules} (h : s.Kept s') (h' : s'.Kept s'') : s.Kept s'' :=
  ⟨h'.funcs.trans h.funcs, h'.vars.trans h.vars, h'.fresh.trans h.fresh, h'.fixed.trans h.fixed⟩

/-- The key of a thread, and the uses of a module, are not what names depend on. -/
theorem Kept.setKey_hold (s : Modules) (th key : Option ℕ) (m : ℕ) (n : Int) :
    s.Kept ((s.setKey th key).hold m n) := by
  have hfixed : ∀ s : Modules, (s.hold m n).modules.col Modules.fixed =
      s.modules.col Modules.fixed := fun s => Ledger.col_modify_same (by intro r; rfl) s.modules m
  cases th with
  | none => exact ⟨rfl, rfl, rfl, hfixed s⟩
  | some th => exact ⟨rfl, rfl, rfl, hfixed (s.setKey (some th) key)⟩

/-- A step that only touches modules in use. -/
theorem Touched.kept (h : s.Touched s') : s.Kept s' := by
  rcases h with rfl | ⟨th, key, m, n, rfl⟩
  · exact .refl s'
  · exact .setKey_hold s th key m n

/-- A module gives up the modules that it depends on. -/
theorem Kept.unuseDeps {deps : List ℕ} (h : Modules.unuseDeps deps s = some s') : s.Kept s' := by
  induction deps generalizing s with
  | nil =>
    obtain rfl := Option.some.inj h
    exact .refl s
  | cons m deps ih =>
    rw [Modules.unuseDeps] at h
    split at h
    · cases h
    · rename_i huse
      exact (touched_of_unuse huse).kept.trans (ih h)

/-- A module that is there stays there, with the same entries. -/
theorem Kept.get? (h : s.Kept s') {m : ℕ} {r' : MbbModule} (hr : s'.modules.get? m = some r') :
    ∃ r, s.modules.get? m = some r ∧ Modules.fixed r = Modules.fixed r' := by
  have hcol : s.modules.col Modules.fixed m = some (Modules.fixed r') := by
    rw [← h.fixed, Ledger.col_of_get? hr]
  exact Option.map_eq_some_iff.mp hcol

/-! ## Names

The tables and the marks of the modules say the same: a name in the table belongs to the module in
which it is marked, or to the server.
-/

/-- The entries of a module: those that are marked have the names that are registered for it. -/
structure Entries (s : Modules) (m : ℕ) (r : MbbModule) (fs vs : List (String × Bool)) : Prop where
  /-- the table of functions -/
  functions : fs.map Prod.fst = r.functions.getD []
  /-- the variables -/
  vars : vs.map Prod.fst = r.vars
  /-- functions and variables -/
  total : r.total = fs.length + vs.length
  /-- those that are registered -/
  nreg : r.nreg = fs.countP Prod.snd + vs.countP Prod.snd
  /-- names of functions -/
  funcNames : ∀ f, s.funcs.get? f = some (some m) ↔ (f, true) ∈ fs
  /-- names of variables -/
  varNames : ∀ f, s.vars.get? f = some (some m) ↔ (f, true) ∈ vs

/-- The names of a table are those of the server, all of them, and those of modules that are
there. -/
structure NamedIn (names : List String) (table : Registry) (s : Modules) : Prop where
  /-- names of the server -/
  server : ∀ f, table.get? f = some none ↔ f ∈ names
  /-- names of modules -/
  owned : ∀ {f m}, table.get? f = some (some m) → s.modules.get? m ≠ none

/-- Names are those of the server and of modules that are there. -/
structure Named (builtin builtinVars : List String) (s : Modules) : Prop where
  /-- functions -/
  funcs : NamedIn builtin s.funcs s
  /-- variables -/
  vars : NamedIn builtinVars s.vars s
  /-- entries -/
  entries : ∀ {m r}, s.modules.get? m = some r → ∃ fs vs, s.Entries m r fs vs
  /-- no two modules are called the same, or are the same -/
  distinct : ∀ {m m' r r'}, s.modules.get? m = some r → s.modules.get? m' = some r' →
    r.name = r'.name ∨ r.handle = r'.handle ∨ r.info = r'.info → m = m'
  /-- addresses have been given out -/
  lt : ∀ {m}, s.modules.get? m ≠ none → m < s.fresh

/-- The same modules are loaded. -/
theorem Kept.found (h : s.Kept s') {m : ℕ} :
    s'.modules.get? m ≠ none ↔ s.modules.get? m ≠ none := by
  have hcol : s'.modules.col Modules.fixed m = none ↔ s.modules.col Modules.fixed m = none := by
    rw [h.fixed]
  exact not_congr (Ledger.col_eq_none.symm.trans (hcol.trans Ledger.col_eq_none))

/-- Names stay right under steps that leave tables and entries as they are. -/
theorem Named.kept (h : s.Named builtin builtinVars) (hk : s.Kept s') :
    s'.Named builtin builtinVars := by
  refine ⟨?_, ?_, fun hr => ?_, fun hr hr' heq => ?_, fun hm => ?_⟩
  · rw [hk.funcs]
    exact ⟨h.funcs.server, fun hf => hk.found.mpr (h.funcs.owned hf)⟩
  · rw [hk.vars]
    exact ⟨h.vars.server, fun hf => hk.found.mpr (h.vars.owned hf)⟩
  · obtain ⟨r, hget, heq⟩ := hk.get? hr
    obtain ⟨fs, vs, he⟩ := h.entries hget
    have hfunctions := congrArg (fun r => r.functions.getD []) heq
    have hvars := congrArg MbbModule.vars heq
    refine ⟨fs, vs, he.functions.trans hfunctions, he.vars.trans hvars, ?_, ?_, ?_, ?_⟩
    · exact (congrArg MbbModule.total heq).symm.trans he.total
    · exact (congrArg MbbModule.nreg heq).symm.trans he.nreg
    · rw [hk.funcs]
      exact he.funcNames
    · rw [hk.vars]
      exact he.varNames
  · obtain ⟨r, hget, hfix⟩ := hk.get? hr
    obtain ⟨r₂, hget₂, hfix₂⟩ := hk.get? hr'
    refine h.distinct hget hget₂ (heq.imp (fun hname => ?_) (Or.imp (fun hhandle => ?_) fun hinfo =>
      ?_))
    · exact (congrArg MbbModule.name hfix).trans (hname.trans (congrArg MbbModule.name hfix₂).symm)
    · exact (congrArg MbbModule.handle hfix).trans
        (hhandle.trans (congrArg MbbModule.handle hfix₂).symm)
    · exact (congrArg MbbModule.info hfix).trans (hinfo.trans (congrArg MbbModule.info hfix₂).symm)
  · rw [hk.fresh]
    exact h.lt (hk.found.mp hm)

/-! ## Loading

A module is made while `load_module` runs, and only then are its names registered.
-/

/-- What a record is while the load function runs. -/
structure Fits (name : String) (handle info : ℕ) (cur : MbbModule) : Prop where
  /-- its name -/
  name : cur.name = name
  /-- the handle -/
  handle : cur.handle = handle
  /-- the address of its `struct mbb_module_info` -/
  info : cur.info = info
  /-- nothing is registered yet -/
  nreg : cur.nreg = 0
  /-- functions and variables -/
  total : cur.total = (cur.functions.getD []).length + cur.vars.length

/-- What `load_module` does registers nothing yet. -/
theorem kept_loadAct (cur : MbbModule) (act : LoadAct) : s.Kept (s.loadAct cur act).1 := by
  cases act with
  | importModule name =>
    rw [loadAct, mbbModuleImport]
    cases s.byName name with
    | none => exact .refl s
    | some p =>
      obtain ⟨m, r⟩ := p
      simp only
      split
      · cases huse : s.mbbModuleUse (some m) none with
        | none => exact .refl s
        | some p =>
          obtain ⟨ok, s'⟩ := p
          exact (touched_of_use huse).kept
      · exact .refl s
  | addFunctions fs =>
    rw [loadAct]
    cases cur.functions with
    | none => exact .refl s
    | some _ => exact .refl s
  | _ => exact .refl s

/-- The module that is being loaded stays the one it is. -/
theorem Fits.loadAct {name : String} {handle info : ℕ} {cur : MbbModule}
    (h : Fits name handle info cur) (act : LoadAct) :
    Fits name handle info (s.loadAct cur act).2 := by
  cases act with
  | importModule name =>
    rw [Modules.loadAct, mbbModuleImport]
    cases s.byName name with
    | none => exact h
    | some p =>
      simp only
      split
      · exact ⟨h.name, h.handle, h.info, h.nreg, h.total⟩
      · exact h
  | addFunctions fs =>
    rw [Modules.loadAct]
    cases hfs : cur.functions with
    | none =>
      refine ⟨h.name, h.handle, h.info, h.nreg, ?_⟩
      have htotal := h.total
      rw [hfs] at htotal
      simp only [Option.getD_none, List.length_nil, Option.getD_some] at htotal ⊢
      omega
    | some _ => exact h
  | addVar v =>
    refine ⟨h.name, h.handle, h.info, h.nreg, ?_⟩
    have htotal := h.total
    simp only [Modules.loadAct, List.length_cons]
    omega
  | exportData => exact ⟨h.name, h.handle, h.info, h.nreg, h.total⟩
  | onready => exact ⟨h.name, h.handle, h.info, h.nreg, h.total⟩

/-- Likewise for all acts, one after the other. -/
theorem loadActs_kept {name : String} {handle info : ℕ} (acts : List LoadAct) {cur : MbbModule}
    (h : Fits name handle info cur) :
    s.Kept (loadActs acts s cur).1 ∧ Fits name handle info (loadActs acts s cur).2 := by
  induction acts generalizing s cur with
  | nil => exact ⟨.refl s, h⟩
  | cons act acts ih =>
    obtain ⟨hkept, hfits⟩ := ih (s := (s.loadAct cur act).1) (h.loadAct (s := s) act)
    exact ⟨(kept_loadAct cur act).trans hkept, hfits⟩

/-- No module has that name, handle or address of a `struct mbb_module_info`. -/
def Free (s : Modules) (name : String) (handle info : ℕ) : Prop :=
  ∀ m r, s.modules.get? m = some r → r.name ≠ name ∧ r.handle ≠ handle ∧ r.info ≠ info

/-- Where a search finds nothing, no row is what is searched for. -/
theorem eq_false_of_find? {l : Ledger ℕ MbbModule} {p : MbbModule → Bool} (h : l.find? p = none)
    {m : ℕ} {r : MbbModule} (hr : l.get? m = some r) : p r = false := by
  simpa using List.find?_eq_none.mp h (m, r) (Ledger.mem_of_get? hr)

/-- A module that passes the checks has a name, a handle and an information that no other has. -/
theorem free_of_check {name : String} {handle : ℕ} {info : Option ModuleInfo}
    {p : ℕ × List LoadAct} (hname : s.byName name = none)
    (h : s.checkModLoaded handle info = .ok p) : s.Free name handle p.1 := by
  intro m r hr
  unfold checkModLoaded at h
  split at h
  · cases h
  · split at h
    · cases h
    · split at h
      · cases h
      · rename_i hhandle
        split at h
        · cases h
        · rename_i hinfo
          cases h
          simp only [Option.isSome_iff_ne_none, ne_eq, not_not] at hhandle hinfo
          exact ⟨of_decide_eq_false (eq_false_of_find? hname hr),
            of_decide_eq_false (eq_false_of_find? hhandle hr),
            of_decide_eq_false (eq_false_of_find? hinfo hr)⟩

/-- A load that fails registers nothing, and one that does not has a new module. -/
theorem mbbModuleLoad_cases (s : Modules) (name : String) (dir : Bool)
    (dl : Option (ℕ × Option ModuleInfo)) :
    ((s.mbbModuleLoad name dir dl).1 ≠ none ∧ s.Kept (s.mbbModuleLoad name dir dl).2) ∨
      ∃ s₁ module handle info, s.Kept s₁ ∧ Fits name handle info module ∧
        s.Free name handle info ∧
        s.mbbModuleLoad name dir dl = (none, s₁.mbbModuleRegData module) := by
  unfold mbbModuleLoad
  split
  · exact .inl ⟨Option.some_ne_none _, .refl s⟩
  · split
    · exact .inl ⟨Option.some_ne_none _, .refl s⟩
    · rename_i hname
      split
      · exact .inl ⟨Option.some_ne_none _, .refl s⟩
      · rename_i handle info
        split
        · exact .inl ⟨Option.some_ne_none _, .refl s⟩
        · rename_i id acts hcheck
          obtain ⟨hkept, hfits⟩ := loadActs_kept (s := s) acts
            (⟨rfl, rfl, rfl, rfl, rfl⟩ : Fits name handle id (mbbModuleNew name handle id))
          simp only
          split
          · exact .inl ⟨Option.some_ne_none _, hkept⟩
          · refine .inr ⟨_, _, handle, id, hkept, hfits, free_of_check ?_ hcheck, rfl⟩
            simpa using hname

/-- Names of other modules are not taken. -/
theorem own_mregister {table : Registry} {es : List (String × Bool)} {m k : ℕ} (hk : k ≠ m)
    (h : ∀ f, table.get? f = some (some k) ↔ (f, true) ∈ es) (names : List String) (f : String) :
    (mregister m table names).1.get? f = some (some k) ↔ (f, true) ∈ es := by
  rw [get?_mregister_eq]
  split
  · rename_i hmark
    refine iff_of_false (fun heq => hk (Option.some.inj (Option.some.inj heq)).symm) fun hmem => ?_
    have htaken := (h f).mpr hmem
    rw [get?_of_mem_marks hmark] at htaken
    cases htaken
  · exact h f

/-- The names of the new module are those of its marked entries. -/
theorem own_mregister_self {table : Registry} {m : ℕ} (h : ∀ f, table.get? f ≠ some (some m))
    (names : List String) (f : String) : (mregister m table names).1.get? f = some (some m) ↔
      (f, true) ∈ marks m table names := by
  rw [get?_mregister_eq]
  split
  · rename_i hmark
    exact iff_of_true rfl hmark
  · rename_i hmark
    exact iff_of_false (h f) hmark

/-- When a module gives up its names, other modules have theirs still. -/
theorem own_unregister {table : Registry} {es : List (String × Bool)} {m k : ℕ} (hk : k ≠ m)
    (h : ∀ f, table.get? f = some (some k) ↔ (f, true) ∈ es) (f : String) :
    (unregister m table).get? f = some (some k) ↔ (f, true) ∈ es := by
  rw [get?_unregister]
  split
  · rename_i hown
    refine iff_of_false (fun heq => by cases heq) fun hmem => hk ?_
    exact Option.some.inj (Option.some.inj ((h f).mpr hmem |>.symm.trans hown))
  · exact h f

/-- The new record has what it is made of, and owns the names that were free. -/
theorem regData_record {name : String} {handle info : ℕ} {module : MbbModule}
    (hfits : Fits name handle info module) (hfuncs : ∀ f, s.funcs.get? f ≠ some (some s.fresh))
    (hvars : ∀ f, s.vars.get? f ≠ some (some s.fresh)) :
    ∃ r : MbbModule,
      (∀ k, (s.mbbModuleRegData module).modules.get? k =
        if k = s.fresh then some r else s.modules.get? k) ∧
      r.name = name ∧ r.handle = handle ∧ r.info = info ∧
      (s.mbbModuleRegData module).Entries s.fresh r
        (marks s.fresh s.funcs (module.functions.getD [])) (marks s.fresh s.vars module.vars) := by
  refine ⟨_, fun k => Ledger.get?_put _ _ _ k, hfits.name, hfits.handle, hfits.info,
    map_marks _ _ _, map_marks _ _ _, ?_, ?_, own_mregister_self hfuncs _,
    own_mregister_self hvars _⟩
  · rw [← List.length_map (f := Prod.fst), map_marks, ← List.length_map (f := Prod.fst),
      map_marks]
    exact hfits.total
  · rw [← mregister_count, ← mregister_count]
    change module.nreg + _ + _ = _
    rw [hfits.nreg, Nat.zero_add]

/-- A module that is put in keeps the names that are there, and gets those that are free. -/
theorem NamedIn.mregister {names : List String} {table : Registry} {m : ℕ}
    (h : NamedIn names table s) (hs : ∀ {k}, s.modules.get? k ≠ none → s'.modules.get? k ≠ none)
    (hm : s'.modules.get? m ≠ none) (fs : List String) :
    NamedIn names (mregister m table fs).1 s' := by
  refine ⟨fun f => ?_, fun {f k} hf => ?_⟩
  · rw [get?_mregister_eq, ← h.server f]
    split
    · rename_i hmark
      rw [get?_of_mem_marks hmark]
      exact iff_of_false (fun heq => by cases heq) fun heq => by cases heq
    · exact Iff.rfl
  · rcases get?_mregister hf with heq | hold
    · exact Option.some.inj heq ▸ hm
    · exact hs (h.owned hold)

/-- **A module is registered.** The names it gets are those that are free, and its marks say so. -/
theorem Named.regData {name : String} {handle info : ℕ} {module : MbbModule}
    (h : s.Named builtin builtinVars) (hfits : Fits name handle info module)
    (hfree : s.Free name handle info) :
    (s.mbbModuleRegData module).Named builtin builtinVars := by
  have hnone : s.modules.get? s.fresh = none := by
    by_contra hne
    exact Nat.lt_irrefl _ (h.lt hne)
  have hfuncs : ∀ f, s.funcs.get? f ≠ some (some s.fresh) := fun f hf =>
    h.funcs.owned hf hnone
  have hvars : ∀ f, s.vars.get? f ≠ some (some s.fresh) := fun f hf => h.vars.owned hf hnone
  obtain ⟨r, hget, hname, hhandle, hinfo, hentries⟩ := regData_record hfits hfuncs hvars
  have hself : (s.mbbModuleRegData module).modules.get? s.fresh ≠ none := by
    rw [hget, if_pos rfl]
    exact Option.some_ne_none r
  have hold : ∀ {k}, s.modules.get? k ≠ none →
      (s.mbbModuleRegData module).modules.get? k ≠ none := fun {k} hk => by
    rw [hget]
    split
    · exact Option.some_ne_none r
    · exact hk
  refine ⟨h.funcs.mregister hold hself _, h.vars.mregister hold hself _, fun {k r'} hr => ?_,
    fun {k k' r₁ r₂} hr hr' heq => ?_, fun {k} hk => ?_⟩
  · rw [hget] at hr
    split at hr
    · rename_i heq
      obtain rfl := Option.some.inj hr
      exact ⟨_, _, heq ▸ hentries⟩
    · rename_i hne
      obtain ⟨fs, vs, he⟩ := h.entries hr
      exact ⟨fs, vs, he.functions, he.vars, he.total, he.nreg, own_mregister hne he.funcNames _,
        own_mregister hne he.varNames _⟩
  · -- the new one is different from all others
    have hdiff : ∀ {k r'}, s.modules.get? k = some r' →
        ¬ (r.name = r'.name ∨ r.handle = r'.handle ∨ r.info = r'.info) := by
      rintro k r' hr' (heq | heq | heq)
      · exact (hfree k r' hr').1 (heq.symm.trans hname)
      · exact (hfree k r' hr').2.1 (heq.symm.trans hhandle)
      · exact (hfree k r' hr').2.2 (heq.symm.trans hinfo)
    rw [hget] at hr hr'
    split at hr
    · rename_i hk
      obtain rfl := Option.some.inj hr
      split at hr'
      · rename_i hk'
        exact hk.trans hk'.symm
      · exact absurd heq (hdiff hr')
    · split at hr'
      · obtain rfl := Option.some.inj hr'
        exact absurd (heq.imp Eq.symm (Or.imp Eq.symm Eq.symm)) (hdiff hr)
      · exact h.distinct hr hr' heq
  · rw [hget] at hk
    change k < s.fresh + 1
    split at hk
    · omega
    · exact Nat.lt_succ_of_lt (h.lt hk)

/-! ## Unloading

A module that is not used is taken from the list, and its marked names from the tables.
-/

/-- `mbb_module_unload`, without the uses of imported modules -/
def forget (s : Modules) (m : ℕ) : Modules :=
  { s with
    funcs := unregister m s.funcs
    vars := unregister m s.vars
    modules := s.modules.drop fun k => decide (k = m) }

/-- After a module is forgotten the others are found as before. -/
theorem get?_forget (s : Modules) (m k : ℕ) :
    (s.forget m).modules.get? k = if k = m then none else s.modules.get? k := by
  rw [forget, Ledger.get?_drop]
  simp only [decide_eq_true_eq]

/-- **Unloading.** It is refused and nothing changes, or the module is forgotten with all its names.
-/
theorem mbbModuleUnload_cases {name : String} {e : Option ModuleError}
    (h : s.mbbModuleUnload name = some (e, s')) :
    (e ≠ none ∧ s' = s) ∨ (e = none ∧ ∃ m r, s.byName name = some (m, r) ∧
      (s.forget m).Kept s') := by
  unfold mbbModuleUnload at h
  split at h
  · cases h
    exact .inl ⟨Option.some_ne_none _, rfl⟩
  · split at h
    · cases h
      exact .inl ⟨Option.some_ne_none _, rfl⟩
    · rename_i m r hname
      split at h
      · cases h
        exact .inl ⟨Option.some_ne_none _, rfl⟩
      · split at h
        · cases h
        · rename_i hdeps
          cases h
          have hkept := Kept.unuseDeps hdeps
          refine .inr ⟨rfl, m, r, hname, hkept.funcs, hkept.vars, hkept.fresh, ?_⟩
          funext k
          rw [forget, Ledger.col_drop, Ledger.col_drop, hkept.fixed]

/-- A module that goes takes its names with it. -/
theorem NamedIn.unregister {names : List String} {table : Registry} {m : ℕ}
    (h : NamedIn names table s)
    (hs : ∀ {k}, k ≠ m → s.modules.get? k ≠ none → s'.modules.get? k ≠ none) :
    NamedIn names (unregister m table) s' := by
  refine ⟨fun f => ?_, fun {f k} hf => ?_⟩
  · rw [get?_unregister, ← h.server f]
    split
    · rename_i hown
      rw [hown]
      exact iff_of_false (fun heq => by cases heq) fun heq => by cases heq
    · exact Iff.rfl
  · rw [get?_unregister] at hf
    split at hf
    · cases hf
    · rename_i hown
      exact hs (fun heq => hown (heq ▸ hf)) (h.owned hf)

/-- **A module is forgotten.** Its names are free, and every other module has its own. -/
theorem Named.forget (h : s.Named builtin builtinVars) (m : ℕ) :
    (s.forget m).Named builtin builtinVars := by
  have hold : ∀ {k}, k ≠ m → s.modules.get? k ≠ none → (s.forget m).modules.get? k ≠ none :=
    fun {k} hne hk => by
      rw [get?_forget, if_neg hne]
      exact hk
  refine ⟨h.funcs.unregister hold, h.vars.unregister hold, fun {k r} hr => ?_,
    fun {k k' r r'} hr hr' heq => ?_, fun {k} hk => ?_⟩
  · rw [get?_forget] at hr
    split at hr
    · cases hr
    · rename_i hne
      obtain ⟨fs, vs, he⟩ := h.entries hr
      exact ⟨fs, vs, he.functions, he.vars, he.total, he.nreg, own_unregister hne he.funcNames,
        own_unregister hne he.varNames⟩
  · rw [get?_forget] at hr hr'
    split at hr
    · cases hr
    · split at hr'
      · cases hr'
      · exact h.distinct hr hr' heq
  · rw [get?_forget] at hk
    split at hk
    · exact absurd rfl hk
    · exact h.lt hk

/-! ## Other steps -/

/-- A call of a function changes no name. -/
theorem kept_call {th : ℕ} {name : String} {cap ok : Bool}
    (h : s.mbbFuncCall th name cap = some (ok, s')) : s.Kept s' := by
  unfold mbbFuncCall at h
  split at h
  · cases h
    exact .refl s
  · split at h
    · cases h
      exact .refl s
    · split at h
      · cases h
      · rename_i huse
        cases h
        exact (touched_of_use huse).kept
      · rename_i huse
        cases h
        have hkept := (touched_of_use huse).kept
        exact ⟨hkept.funcs, hkept.vars, hkept.fresh, hkept.fixed⟩

/-- Nor does the return from it. -/
theorem kept_return {th : ℕ} (h : s.mbbFuncReturn th = some s') : s.Kept s' := by
  unfold mbbFuncReturn at h
  split at h
  · cases h
    exact .refl s
  · split at h
    · cases h
    · rename_i huse
      cases h
      have hkept := (touched_of_unuse huse).kept
      exact ⟨hkept.funcs, hkept.vars, hkept.fresh, hkept.fixed⟩

/-- Nor does the end of a task. -/
theorem kept_taskFree {id : ℕ} {th : Option ℕ} (h : s.mbbTaskFree id th = some s') : s.Kept s' := by
  unfold mbbTaskFree at h
  split at h
  · cases h
    exact .refl s
  · split at h
    · cases h
    · rename_i huse
      cases h
      have hkept := (touched_of_unuse huse).kept
      exact ⟨hkept.funcs, hkept.vars, hkept.fresh, hkept.fixed⟩

/-- Nor does a new task. -/
theorem kept_taskNew {th : ℕ} (h : s.mbbTaskNew th = some s') : s.Kept s' := by
  unfold mbbTaskNew at h
  simp only at h
  split at h
  · cases h
  · rename_i huse
    cases h
    have hkept := (touched_of_use huse).kept
    exact ⟨hkept.funcs, hkept.vars, hkept.fresh, hkept.fixed⟩

/-- Nor does a task that a thread begins to work on. -/
theorem kept_taskCreate {th : ℕ} {thread : Bool} (h : s.mbbTaskCreate th thread = some s') :
    s.Kept s' := by
  unfold mbbTaskCreate at h
  split at h
  · cases h
  · rename_i hnew
    split at h
    · cases h
      exact kept_taskNew hnew
    · exact (kept_taskNew hnew).trans (kept_taskFree h)

/-- Nor do changes of what names do not depend on, such as whether a module runs. -/
theorem kept_modify (s : Modules) (m : ℕ) {f : MbbModule → MbbModule}
    (hf : ∀ r, Modules.fixed (f r) = Modules.fixed r) (ready : List ℕ) :
    s.Kept { s with modules := s.modules.modify m f, ready } :=
  ⟨rfl, rfl, rfl, Ledger.col_modify_same hf s.modules m⟩

/-- One step. -/
theorem Named.exec (h : s.Named builtin builtinVars) {c : ModuleCmd} (hc : s.exec c = some s') :
    s'.Named builtin builtinVars := by
  cases c with
  | load name dir dl =>
    obtain rfl := Option.some.inj hc
    rcases s.mbbModuleLoad_cases name dir dl with ⟨-, hkept⟩ |
      ⟨s₁, module, handle, info, hkept, hfits, hfree, heq⟩
    · exact h.kept hkept
    · rw [heq]
      refine (h.kept hkept).regData hfits fun m r' hr' => ?_
      obtain ⟨r, hr, hfix⟩ := hkept.get? hr'
      obtain ⟨hname, hhandle, hinfo⟩ := hfree m r hr
      exact ⟨fun he => hname ((congrArg MbbModule.name hfix).trans he),
        fun he => hhandle ((congrArg MbbModule.handle hfix).trans he),
        fun he => hinfo ((congrArg MbbModule.info hfix).trans he)⟩
  | ready m =>
    change s.onreadyDone m = some s' at hc
    unfold onreadyDone at hc
    split at hc
    · split at hc
      · cases hc
      · cases hc
        exact h.kept (s.kept_modify m (by intro r; rfl) _)
    · cases hc
      exact h
  | unload name =>
    obtain ⟨r, hr, rfl⟩ := Option.map_eq_some_iff.mp hc
    rcases mbbModuleUnload_cases hr with ⟨-, heq⟩ | ⟨-, m, -, -, hkept⟩
    · rw [heq]
      exact h
    · exact (h.forget m).kept hkept
  | run name run =>
    obtain rfl := Option.some.inj hc
    unfold moduleDoRun
    split
    · exact h
    · split
      · exact h
      · split
        · exact h
        · exact h.kept (s.kept_modify _ (by intro r; rfl) s.ready)
  | call th name cap =>
    obtain ⟨r, hr, rfl⟩ := Option.map_eq_some_iff.mp hc
    exact h.kept (kept_call hr)
  | ret th => exact h.kept (kept_return hc)
  | task th thread => exact h.kept (kept_taskCreate hc)
  | taskEnd id => exact h.kept (kept_taskFree hc)

/-- The names of the server are in the table from the start, and belong to no module. -/
theorem get?_builtin (builtin : List String) (table : Registry) (f : String) :
    (builtin.foldl (fun table name => table.put name none) table).get? f =
      if f ∈ builtin then some none else table.get? f := by
  induction builtin generalizing table with
  | nil => simp
  | cons name builtin ih =>
    rw [List.foldl_cons, ih, Ledger.get?_put]
    by_cases hf : f = name
    · simp [hf]
    · simp [hf]

/-- So the table has no name of a module at first. -/
theorem NamedIn.init (names : List String) :
    NamedIn names (names.foldl (fun table name => table.put name none) .empty) s := by
  refine ⟨fun f => ?_, fun {f m} hf => ?_⟩
  · rw [get?_builtin]
    simp
  · rw [get?_builtin] at hf
    split at hf
    · cases hf
    · cases hf

/-- **At first** there are the names of the server alone. -/
theorem Named.init (builtin builtinVars : List String) :
    (init builtin builtinVars).Named builtin builtinVars :=
  ⟨.init builtin, .init builtinVars, fun hr => (by cases hr), fun hr => (by cases hr),
    fun hm => absurd rfl hm⟩

/-- **In every run** names are right. -/
theorem Named.reaches {P : Modules → ModuleCmd → Prop} (h : s.Named builtin builtinVars)
    (hs : Reaches P s s') : s'.Named builtin builtinVars := by
  induction hs with
  | refl => exact h
  | tail _ hstep ih =>
    obtain ⟨c, -, hc⟩ := hstep
    exact ih.exec hc

/-- **Names of modules**: in every state of every run, names of functions are those of the server,
all of them, and those of marked entries of modules that are loaded, and names of variables too; no
two modules are the same or called the same; a call does not find a module that has been freed; and
to give up the names of marked entries is to give up what is registered for the module, and nothing
else. -/
theorem module_names (builtin builtinVars : List String) {P : Modules → ModuleCmd → Prop}
    (h : Reaches P (init builtin builtinVars) s) :
    s.Named builtin builtinVars ∧ (∀ th name cap, s.mbbFuncCall th name cap ≠ none) ∧
      ∀ m r, s.modules.get? m = some r → ∃ fs vs, s.Entries m r fs vs ∧
        (∀ f, (unregisterAll s.funcs fs).get? f = (unregister m s.funcs).get? f) ∧
        ∀ f, (unregisterAll s.vars vs).get? f = (unregister m s.vars).get? f := by
  have hn := (Named.init builtin builtinVars).reaches h
  refine ⟨hn, fun th name cap hcall => ?_, fun m r hr => ?_⟩
  · unfold mbbFuncCall at hcall
    split at hcall
    · cases hcall
    · rename_i mod hmod
      have halive : ∀ m, mod = some m → s.modules.get? m ≠ none :=
        fun m heq => hn.funcs.owned (heq ▸ hmod)
      obtain ⟨ok, s', huse⟩ := exists_use halive (some th)
      split at hcall
      · cases hcall
      · rw [huse] at hcall
        cases ok with
        | false => cases hcall
        | true => cases hcall
  · obtain ⟨fs, vs, he⟩ := hn.entries hr
    refine ⟨fs, vs, he, fun f => ?_, fun f => ?_⟩
    · rw [get?_unregisterAll, get?_unregister]
      exact if_congr (he.funcNames f).symm rfl rfl
    · rw [get?_unregisterAll, get?_unregister]
      exact if_congr (he.varNames f).symm rfl rfl

/-- `a.so` does not get the names of a function and of a variable of the server, nor `b.so` one of
`a.so`. -/
theorem module_names_taken : ∃ s, execAll (init ["show"] ["module.dir"]) [
      .load "a.so" true
        (some (1, some ⟨1, some [.addFunctions ["show", "a"], .addVar "module.dir"]⟩)),
      .load "b.so" true (some (2, some ⟨2, some [.addFunctions ["a", "b"]]⟩)),
      .unload "b.so"] = some s ∧ s.Named ["show"] ["module.dir"] := by
  obtain ⟨s, hs⟩ : ∃ s, execAll (init ["show"] ["module.dir"]) [
      .load "a.so" true
        (some (1, some ⟨1, some [.addFunctions ["show", "a"], .addVar "module.dir"]⟩)),
      .load "b.so" true (some (2, some ⟨2, some [.addFunctions ["a", "b"]]⟩)),
      .unload "b.so"] = some s := ⟨_, rfl⟩
  have h : Reaches (fun _ _ => True) (init ["show"] ["module.dir"]) s :=
    reaches_execAll _ (fun _ _ _ => trivial) hs
  exact ⟨s, hs, (module_names ["show"] ["module.dir"] h).1⟩

/-- What a module has registered is given up again. -/
theorem get?_unregister_mregister {m : ℕ} {table : Registry}
    (h : ∀ f, table.get? f ≠ some (some m)) (names : List String) (f : String) :
    (unregister m (mregister m table names).1).get? f = table.get? f := by
  rw [get?_unregister, get?_mregister_eq]
  by_cases hmark : (f, true) ∈ marks m table names
  · rw [if_pos hmark, if_pos rfl, get?_of_mem_marks hmark]
  · rw [if_neg hmark, if_neg (h f)]

/-- **Loading and unloading**: in every state of every run, a module that has been loaded can be
unloaded without a trace: names and modules are what they were. -/
theorem load_unload {P : Modules → ModuleCmd → Prop}
    (h : Reaches P (init builtin builtinVars) s)
    {name : String} {dir : Bool} {dl : Option (ℕ × Option ModuleInfo)} {s'' : Modules}
    (hload : s.mbbModuleLoad name dir dl = (none, s'))
    (hunload : s'.mbbModuleUnload name = some (none, s'')) :
    (∀ f, s''.funcs.get? f = s.funcs.get? f) ∧ (∀ f, s''.vars.get? f = s.vars.get? f) ∧
      s''.modules.col fixed = s.modules.col fixed := by
  have hn := (Named.init builtin builtinVars).reaches h
  have hn' : s'.Named builtin builtinVars := hn.exec (c := .load name dir dl) (by rw [exec, hload])
  rcases s.mbbModuleLoad_cases name dir dl with ⟨hne, -⟩ |
    ⟨s₁, module, handle, info, hkept, hfits, -, heq⟩
  · exact absurd (congrArg Prod.fst hload) hne
  obtain rfl : s' = s₁.mbbModuleRegData module := congrArg Prod.snd (hload.symm.trans heq)
  have hn₁ := hn.kept hkept
  have hnone : s₁.modules.get? s₁.fresh = none := by
    by_contra hne
    exact Nat.lt_irrefl _ (hn₁.lt hne)
  rcases mbbModuleUnload_cases hunload with ⟨hne, -⟩ | ⟨-, m, r, hname, hforget⟩
  · exact absurd rfl hne
  -- it is the new module that is unloaded
  obtain rfl : m = s₁.fresh := by
    refine hn'.distinct (Ledger.get?_of_find? hname) ((Ledger.get?_put _ _ _ _).trans (if_pos rfl))
      (.inl ?_)
    have hp : decide (r.name = name) = true :=
      List.find?_some (p := fun r : ℕ × MbbModule => decide (r.2.name = name)) hname
    exact (of_decide_eq_true hp).trans hfits.name.symm
  refine ⟨fun f => ?_, fun f => ?_, ?_⟩
  · rw [hforget.funcs, ← hkept.funcs]
    exact get?_unregister_mregister (fun f hf => hn₁.funcs.owned hf hnone) _ f
  · rw [hforget.vars, ← hkept.vars]
    exact get?_unregister_mregister (fun f hf => hn₁.vars.owned hf hnone) _ f
  · rw [hforget.fixed, ← hkept.fixed]
    funext k
    rw [Modules.forget, Ledger.col_drop_one]
    by_cases hk : k = s₁.fresh
    · rw [hk, Function.update_self, Ledger.col_eq_none.mpr hnone]
    · rw [Function.update_of_ne hk, mbbModuleRegData, Ledger.col_put, Function.update_of_ne hk]

/-- A module whose function and variable are not all registered comes and goes. -/
theorem load_unload_taken : ∃ s', (init ["show"] ["module.dir"]).mbbModuleLoad "a.so" true
      (some (1, some ⟨1, some [.addFunctions ["show", "a"], .addVar "module.dir"]⟩)) = (none, s') ∧
    ∃ s'', s'.mbbModuleUnload "a.so" = some (none, s'') ∧
      (∀ f, s''.funcs.get? f = (init ["show"] ["module.dir"]).funcs.get? f) ∧
      ∀ f, s''.vars.get? f = (init ["show"] ["module.dir"]).vars.get? f := by
  obtain ⟨s', s'', hload, hunload⟩ : ∃ s' s'',
      (init ["show"] ["module.dir"]).mbbModuleLoad "a.so" true
        (some (1, some ⟨1, some [.addFunctions ["show", "a"], .addVar "module.dir"]⟩)) =
          (none, s') ∧
      s'.mbbModuleUnload "a.so" = some (none, s'') := ⟨_, _, rfl, rfl⟩
  have h : Reaches (fun _ _ => True) (init ["show"] ["module.dir"])
      (init ["show"] ["module.dir"]) := .refl
  have hsame := load_unload h hload hunload
  exact ⟨s', hload, s'', hunload, hsame.1, hsame.2.1⟩

end Modules

end Mbb
