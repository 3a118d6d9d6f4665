import Mbb.Module
import Mathlib.Tactic.Linarith

/-!
# Counting the uses of modules

What uses a module can be counted: its running calls, the live tasks started in them, and
the imports by loaded modules. `use_count` is that number and the reader lock is held that
many times, as long as no module is imported or given a task while it is stopped, no task is
started in a call whose module the thread does not have as its last used one any more, and no
module imports others and then turns out to be void.

In the middle of an operation counter and lock are ahead of the uses, or behind them.
`Counted s d` says by how much.
-/

namespace Mbb

namespace Modules

variable {s s' : Modules} {m k : ℕ} {d : ℕ → Int}

/-! ## Uses

What uses a module, counted without looking at the counter: calls, tasks by the module whose call
started them, and imports.
-/

/-- How often loaded modules have imported a module. -/
def imports (s : Modules) (m : ℕ) : ℕ := s.modules.sumBy fun r => r.deps.count m

/-- Running calls of a module, live tasks that were started in them, and imports of it. -/
def uses (s : Modules) (m : ℕ) : ℕ :=
  s.calls.countP (fun c => c.2 == some m) + s.tasks.countP (fun t => t.startedBy == some m) +
    s.imports m

/-- Counter and lock of each module are `d` ahead of what uses it, and users refer to
modules that are there. -/
structure Counted (s : Modules) (d : ℕ → Int) : Prop where
  /-- the use count -/
  count : ∀ {m r}, s.modules.get? m = some r → r.useCount = s.uses m + d m
  /-- the lock; `onready` runs with it -/
  lock : ∀ {m r}, s.modules.get? m = some r → r.readers = s.uses m + s.ready.count m + d m
  /-- no module that is used has been freed -/
  alive : ∀ {m}, s.uses m ≠ 0 ∨ m ∈ s.ready → s.modules.get? m ≠ none

/-- What else holds in every run. -/
structure Tidy (s : Modules) : Prop where
  /-- functions are those of modules that are there -/
  funcs : ∀ {f m}, s.funcs.get? f = some (some m) → s.modules.get? m ≠ none
  /-- the module a thread has used last is that of a running call -/
  key : ∀ {th m}, s.keys th = some m → (th, some m) ∈ s.calls
  /-- addresses have been given out -/
  lt : ∀ {m}, s.modules.get? m ≠ none → m < s.fresh
  /-- task ids too -/
  taskLt : ∀ {t}, t ∈ s.tasks → t.id < s.taskId

/-- One use of a module, or none of `NULL`. -/
def one (mod : Option ℕ) (k : ℕ) : Int := if mod = some k then 1 else 0

theorem one_eq (mod : Option ℕ) (k : ℕ) : one mod k = if (mod == some k) = true then 1 else 0 := by
  rw [one]
  exact if_congr beq_iff_eq.symm rfl rfl

/-- The offset is what it is at the modules that are loaded. -/
theorem Counted.congr {d' : ℕ → Int} (h : s.Counted d)
    (hd : ∀ k, s.modules.get? k ≠ none → d k = d' k) : s.Counted d' where
  count hr := by rw [← hd _ (hr ▸ Option.some_ne_none _)]; exact h.count hr
  lock hr := by rw [← hd _ (hr ▸ Option.some_ne_none _)]; exact h.lock hr
  alive := h.alive

/-! ## Holding and releasing

Each operation of the lock, and by how much it sets counter and uses apart.
-/

theorem get?_hold (s : Modules) (m : ℕ) (n : Int) (k : ℕ) :
    (s.hold m n).modules.get? k = if k = m then (s.modules.get? m).map fun r =>
      { r with useCount := r.useCount + n, readers := r.readers + n } else s.modules.get? k :=
  Ledger.get?_modify _ _ _ _

theorem get?_hold_eq_none {n : Int} : (s.hold m n).modules.get? k = none ↔
    s.modules.get? k = none := Ledger.get?_modify_eq_none

@[simp] theorem uses_hold (s : Modules) (m : ℕ) (n : Int) (k : ℕ) :
    (s.hold m n).uses k = s.uses k := by
  have himports : (s.hold m n).imports k = s.imports k := by
    exact Ledger.sumBy_modify_same (f := fun r : MbbModule => r.deps.count k)
      (by intro r; rfl) s.modules m
  rw [uses, uses, himports]
  rfl

theorem Counted.hold (h : s.Counted d) (m : ℕ) (n : Int) :
    (s.hold m n).Counted fun k => d k + if k = m then n else 0 where
  count {k r} hr := by
    rw [get?_hold] at hr
    rw [uses_hold]
    by_cases hk : k = m
    · rw [if_pos hk] at hr ⊢
      obtain ⟨r, hr', rfl⟩ := Option.map_eq_some_iff.mp hr
      have := h.count (hk ▸ hr')
      simp only
      omega
    · rw [if_neg hk] at hr ⊢
      rw [add_zero]
      exact h.count hr
  lock {k r} hr := by
    rw [get?_hold] at hr
    rw [uses_hold]
    by_cases hk : k = m
    · rw [if_pos hk] at hr ⊢
      obtain ⟨r, hr', rfl⟩ := Option.map_eq_some_iff.mp hr
      have := h.lock (hk ▸ hr')
      change r.readers + n = s.uses k + s.ready.count k + (d k + n)
      omega
    · rw [if_neg hk] at hr ⊢
      rw [add_zero]
      exact h.lock hr
  alive {k} hk := by
    rw [uses_hold] at hk
    exact not_congr get?_hold_eq_none |>.mpr (h.alive hk)

theorem Counted.setKey (h : s.Counted d) (th key : Option ℕ) : (s.setKey th key).Counted d := by
  cases th with
  | none => exact h
  | some th => exact ⟨h.count, h.lock, h.alive⟩

/-- What `_mbb_module_use` does. -/
theorem mbbModuleUse_cases {mod th : Option ℕ} {ok : Bool}
    (h : s.mbbModuleUse mod th = some (ok, s')) :
    (ok = true ∧ mod = none ∧ s' = s) ∨
      ∃ m r, mod = some m ∧ s.modules.get? m = some r ∧ r.run = ok ∧
        s' = if ok then (s.setKey th (some m)).hold m 1 else s := by
  cases mod with
  | none =>
    obtain ⟨rfl, rfl⟩ := Prod.mk.inj (Option.some.inj h)
    exact Or.inl ⟨rfl, rfl, rfl⟩
  | some m =>
    rw [mbbModuleUse] at h
    cases hr : s.modules.get? m with
    | none =>
      simp only [hr] at h
      cases h
    | some r =>
      simp only [hr] at h
      refine Or.inr ⟨m, r, rfl, hr, ?_⟩
      cases hrun : r.run with
      | true =>
        rw [hrun, if_pos rfl] at h
        obtain ⟨rfl, rfl⟩ := Prod.mk.inj (Option.some.inj h)
        exact ⟨rfl, rfl⟩
      | false =>
        rw [hrun, if_neg Bool.false_ne_true] at h
        obtain ⟨rfl, rfl⟩ := Prod.mk.inj (Option.some.inj h)
        exact ⟨rfl, rfl⟩

/-- What `_mbb_module_unuse` does. -/
theorem mbbModuleUnuse_cases {mod th : Option ℕ} (h : s.mbbModuleUnuse mod th = some s') :
    (mod = none ∧ s' = s) ∨
      ∃ m, mod = some m ∧ s.modules.get? m ≠ none ∧ s' = (s.setKey th none).hold m (-1) := by
  cases mod with
  | none =>
    obtain rfl := Option.some.inj h
    exact Or.inl ⟨rfl, rfl⟩
  | some m =>
    rw [mbbModuleUnuse] at h
    cases hr : s.modules.get? m with
    | none =>
      simp only [hr] at h
      cases h
    | some r =>
      simp only [hr] at h
      obtain rfl := Option.some.inj h
      exact Or.inr ⟨m, rfl, hr ▸ Option.some_ne_none r, rfl⟩

/-- What using and releasing a module can do: nothing, or a key and a hold. -/
def Touched (s s' : Modules) : Prop :=
  s' = s ∨ ∃ th key m n, s' = (s.setKey th key).hold m n

theorem touched_of_use {mod th : Option ℕ} {ok : Bool}
    (h : s.mbbModuleUse mod th = some (ok, s')) : s.Touched s' := by
  rcases mbbModuleUse_cases h with ⟨-, -, rfl⟩ | ⟨m, r, -, -, -, rfl⟩
  · exact Or.inl rfl
  · cases ok with
    | false => exact Or.inl rfl
    | true => exact Or.inr ⟨th, some m, m, 1, rfl⟩

theorem touched_of_unuse {mod th : Option ℕ} (h : s.mbbModuleUnuse mod th = some s') :
    s.Touched s' := by
  rcases mbbModuleUnuse_cases h with ⟨-, rfl⟩ | ⟨m, -, -, rfl⟩
  · exact Or.inl rfl
  · exact Or.inr ⟨th, none, m, -1, rfl⟩

theorem Counted.use {mod th : Option ℕ} (h : s.Counted d)
    (huse : s.mbbModuleUse mod th = some (true, s')) : s'.Counted fun k => d k + one mod k := by
  rcases mbbModuleUse_cases huse with ⟨-, rfl, rfl⟩ | ⟨m, r, rfl, -, -, rfl⟩
  · exact h.congr fun k _ => by simp [one]
  · rw [if_pos rfl]
    refine ((h.setKey th (some m)).hold m 1).congr fun k _ => ?_
    simp only [one, Option.some.injEq, eq_comm]

theorem Counted.unuse {mod th : Option ℕ} (h : s.Counted d)
    (huse : s.mbbModuleUnuse mod th = some s') : s'.Counted fun k => d k - one mod k := by
  rcases mbbModuleUnuse_cases huse with ⟨rfl, rfl⟩ | ⟨m, rfl, -, rfl⟩
  · exact h.congr fun k _ => by simp [one]
  · refine ((h.setKey th none).hold m (-1)).congr fun k _ => ?_
    by_cases hk : k = m
    · simp only [one, hk, if_true]
      omega
    · have hne : ¬ some m = some k := fun heq => hk (Option.some.inj heq).symm
      simp only [one, if_neg hk, if_neg hne]
      omega

/-! ## Calls and tasks -/

section

variable {α : Type} (f : α → Option ℕ)

theorem countP_cons_one (l : List α) (c : α) (k : ℕ) :
    (((c :: l).countP fun c => f c == some k : ℕ) : Int) =
      (l.countP fun c => f c == some k : ℕ) + one (f c) k := by
  rw [List.countP_cons, one_eq]
  push_cast
  rfl

theorem countP_erase_one [BEq α] [LawfulBEq α] {l : List α} {c : α} (hc : c ∈ l) (k : ℕ) :
    (((l.erase c).countP fun c => f c == some k : ℕ) : Int) =
      (l.countP fun c => f c == some k : ℕ) - one (f c) k := by
  have hcons := countP_cons_one f (l.erase c) c k
  rw [(List.perm_cons_erase hc).countP_eq fun c => f c == some k]
  omega

end

/-- Another list of calls or tasks: users that come are counted by then, users that go are
no more. -/
theorem Counted.users {calls : List (ℕ × Option ℕ)} {tasks : List LiveTask} {d' : ℕ → Int}
    {n : ℕ} (h : s.Counted d)
    (hd : ∀ k, s.modules.get? k ≠ none → ((calls.countP fun c => c.2 == some k : ℕ) : Int) +
      (tasks.countP fun t => t.startedBy == some k : ℕ) + d' k =
        (s.calls.countP fun c => c.2 == some k : ℕ) +
          (s.tasks.countP fun t => t.startedBy == some k : ℕ) + d k)
    (hcalls : ∀ c ∈ calls, ∀ k, c.2 = some k → s.modules.get? k ≠ none)
    (htasks : ∀ t ∈ tasks, ∀ k, t.startedBy = some k → s.modules.get? k ≠ none) :
    Counted { s with calls, tasks, taskId := n } d' where
  count {k r} hr := by
    have h₁ := h.count hr
    have h₂ := hd k (hr ▸ Option.some_ne_none r)
    simp only [uses, imports] at h₁ ⊢
    omega
  lock {k r} hr := by
    have h₁ := h.lock hr
    have h₂ := hd k (hr ▸ Option.some_ne_none r)
    simp only [uses, imports] at h₁ ⊢
    omega
  alive {k} hk := by
    by_cases hc : 0 < calls.countP fun c => c.2 == some k
    · obtain ⟨c, hc, hck⟩ := List.countP_pos_iff.mp hc
      exact hcalls c hc k (eq_of_beq hck)
    · by_cases ht : 0 < tasks.countP fun t => t.startedBy == some k
      · obtain ⟨t, ht, htk⟩ := List.countP_pos_iff.mp ht
        exact htasks t ht k (eq_of_beq htk)
      · refine h.alive (hk.imp (fun hk => ?_) id)
        simp only [uses, imports] at hk ⊢
        omega

/-! ## The load function

While it runs, imports are held that no loaded module has yet.
-/

/-- The module is there and not stopped. -/
def running (s : Modules) (m : ℕ) : Bool := (s.modules.get? m).any MbbModule.run

/-- The modules that the calls of a load function import. -/
def imported (s : Modules) (acts : List LoadAct) : List ℕ :=
  acts.filterMap fun
    | .importModule name => (s.byName name).bind fun r => if r.2.exported then some r.1 else none
    | _ => none

/-- How many functions and variables the calls of a load function add; there is one table
of functions. -/
def loadTotal : List LoadAct → Option (List String) → ℕ
  | [], _ => 0
  | .addFunctions fs :: acts, none => fs.length + loadTotal acts (some fs)
  | .addVar _ :: acts, functions => 1 + loadTotal acts functions
  | _ :: acts, functions => loadTotal acts functions

theorem imported_congr {acts : List LoadAct}
    (h : ∀ name, (s'.byName name).map (fun r => (r.1, r.2.exported)) =
      (s.byName name).map fun r => (r.1, r.2.exported)) :
    s'.imported acts = s.imported acts := by
  refine List.filterMap_congr fun act _ => ?_
  cases act with
  | importModule name =>
    have hb : ∀ s : Modules,
        (s.byName name).bind (fun r => if r.2.exported then some r.1 else none) =
        ((s.byName name).map fun r => (r.1, r.2.exported)).bind
          fun r => if r.2 then some r.1 else none := by
      intro s
      rw [Option.bind_map]
      rfl
    simp only [hb, h]
  | _ => rfl

/-- The same but for counters and locks. -/
structure Alike (s s' : Modules) : Prop where
  /-- names -/
  names : ∀ name, (s'.byName name).map (fun r => (r.1, r.2.exported)) =
    (s.byName name).map fun r => (r.1, r.2.exported)
  /-- addresses -/
  found : ∀ k, s'.modules.get? k = none ↔ s.modules.get? k = none
  /-- stopped or not -/
  running : ∀ k, s'.running k = s.running k
  /-- users -/
  uses : ∀ k, s'.uses k = s.uses k
  /-- everything else -/
  rest : ∃ modules, s' = { s with modules }

theorem Alike.refl (s : Modules) : s.Alike s :=
  ⟨fun _ => rfl, fun _ => Iff.rfl, fun _ => rfl, fun _ => rfl, s.modules, rfl⟩

theorem Alike.trans {s'' : Modules} (h : s.Alike s') (h' : s'.Alike s'') : s.Alike s'' := by
  refine ⟨fun name => (h'.names name).trans (h.names name),
    fun k => (h'.found k).trans (h.found k), fun k => (h'.running k).trans (h.running k),
    fun k => (h'.uses k).trans (h.uses k), ?_⟩
  obtain ⟨modules, rfl⟩ := h.rest
  obtain ⟨modules', rfl⟩ := h'.rest
  exact ⟨modules', rfl⟩

theorem Alike.hold (s : Modules) (m : ℕ) (n : Int) : s.Alike (s.hold m n) := by
  refine ⟨fun name => ?_, fun k => get?_hold_eq_none, fun k => ?_, uses_hold s m n, _, rfl⟩
  · rw [byName, Modules.hold, Ledger.find?_modify (by intro r; rfl), Option.map_map, byName]
    congr 1
    funext r
    by_cases hk : r.1 = m <;> simp [hk]
  · rw [Modules.running, get?_hold, Modules.running]
    by_cases hk : k = m
    · rw [if_pos hk, hk]
      cases s.modules.get? m <;> rfl
    · rw [if_neg hk]

/-- One import. -/
theorem mbbModuleImport_spec (cur : MbbModule) (name : String) (h : s.Counted d) :
    s.Alike (s.mbbModuleImport cur name).1 ∧
      (s.mbbModuleImport cur name).1.Counted (fun k => d k +
        if s.running k then ((s.imported [.importModule name]).count k : Int) else 0) ∧
      (s.mbbModuleImport cur name).2 =
        { cur with deps := s.imported [.importModule name] ++ cur.deps } ∧
      ∀ k ∈ s.imported [.importModule name], s.modules.get? k ≠ none := by
  rw [mbbModuleImport]
  cases hname : s.byName name with
  | none =>
    have hnil : s.imported [.importModule name] = [] := by simp [imported, hname]
    rw [hnil]
    exact ⟨.refl s, h.congr fun k _ => by simp, rfl, by simp⟩
  | some p =>
    obtain ⟨m, r⟩ := p
    have hr : s.modules.get? m = some r := Ledger.get?_of_find? hname
    simp only
    by_cases hex : r.exported = true
    · have hone : s.imported [.importModule name] = [m] := by simp [imported, hname, hex]
      have hrunning : s.running m = r.run := by rw [running, hr, Option.any_some]
      rw [if_pos hex, hone, mbbModuleUse, hr]
      simp only [List.singleton_append]
      have hne : ∀ k ∈ [m], s.modules.get? k ≠ none := by
        intro k hk
        rw [List.mem_singleton.mp hk, hr]
        exact Option.some_ne_none r
      have hcount : ∀ {k}, k ≠ m → [m].count k = 0 := fun hk =>
        List.count_eq_zero_of_not_mem fun hmem => hk (List.mem_singleton.mp hmem)
      by_cases hrun : r.run = true
      · rw [if_pos hrun]
        refine ⟨.hold s m 1, (h.hold m 1).congr fun k _ => ?_, trivial, hne⟩
        by_cases hk : k = m
        · simp [hk, hrunning, hrun]
        · simp [hk, hcount hk]
      · rw [if_neg hrun]
        refine ⟨.refl s, h.congr fun k _ => ?_, trivial, hne⟩
        by_cases hk : k = m
        · simp [hk, hrunning, hrun]
        · simp [hcount hk]
    · have hnil : s.imported [.importModule name] = [] := by simp [imported, hname, hex]
      rw [if_neg hex, hnil]
      exact ⟨.refl s, h.congr fun k _ => by simp, rfl, by simp⟩

/-- What a load function leaves behind. -/
structure Loaded (s : Modules) (d : ℕ → Int) (acts : List LoadAct) (cur : MbbModule)
    (r : Modules × MbbModule) : Prop where
  /-- the other modules -/
  alike : s.Alike r.1
  /-- imports of modules that run have been counted -/
  counted : r.1.Counted fun k => d k +
    if s.running k then ((s.imported acts).count k : Int) else 0
  /-- all imports have been noted -/
  deps : ∀ k, r.2.deps.count k = (s.imported acts).count k + cur.deps.count k
  /-- they are of modules that are there -/
  found : ∀ k ∈ s.imported acts, s.modules.get? k ≠ none
  /-- functions and variables -/
  total : r.2.total = cur.total + loadTotal acts cur.functions
  /-- nobody uses the new module -/
  unused : r.2.useCount = cur.useCount ∧ r.2.readers = cur.readers

theorem imported_cons (s : Modules) (act : LoadAct) (acts : List LoadAct) :
    s.imported (act :: acts) = s.imported [act] ++ s.imported acts := by
  rw [imported, imported, imported, ← List.filterMap_append, List.singleton_append]

/-- A call that imports nothing, and the others. -/
theorem Loaded.cons {act : LoadAct} {acts : List LoadAct} {cur cur' : MbbModule}
    {r : Modules × MbbModule} (h : s.Loaded d acts cur' r) (hact : s.imported [act] = [])
    (hdeps : cur'.deps = cur.deps)
    (htotal : cur'.total + loadTotal acts cur'.functions =
      cur.total + loadTotal (act :: acts) cur.functions)
    (hun : cur'.useCount = cur.useCount ∧ cur'.readers = cur.readers) :
    s.Loaded d (act :: acts) cur r where
  alike := h.alike
  counted := by
    rw [imported_cons, hact, List.nil_append]
    exact h.counted
  deps k := by
    rw [imported_cons, hact, List.nil_append, h.deps, hdeps]
  found := by
    rw [imported_cons, hact, List.nil_append]
    exact h.found
  total := h.total.trans htotal
  unused := ⟨h.unused.1.trans hun.1, h.unused.2.trans hun.2⟩

theorem loadActs_spec (acts : List LoadAct) :
    ∀ {s : Modules} {d : ℕ → Int} {cur : MbbModule}, s.Counted d →
      s.Loaded d acts cur (loadActs acts s cur) := by
  induction acts with
  | nil =>
    intro s d cur h
    refine ⟨.refl s, h.congr fun k _ => ?_, fun k => ?_, fun k hk => ?_, rfl, rfl, rfl⟩
    · simp [imported]
    · simp [imported, loadActs]
    · cases hk
  | cons act acts ih =>
    intro s d cur h
    cases act with
    | importModule name =>
      obtain ⟨halike, hcounted, hcur, hfound⟩ := mbbModuleImport_spec cur name h
      have hl := @ih _ _ (s.mbbModuleImport cur name).2 hcounted
      have himp : (s.mbbModuleImport cur name).1.imported acts = s.imported acts :=
        imported_congr halike.names
      refine ⟨halike.trans hl.alike, ?_, fun k => ?_, fun k hk => ?_, ?_, ?_⟩
      · refine hl.counted.congr fun k _ => ?_
        rw [imported_cons s _ acts, List.count_append, halike.running, himp]
        split
        · push_cast
          omega
        · omega
      · rw [imported_cons s _ acts, List.count_append]
        refine (hl.deps k).trans ?_
        rw [himp, hcur, List.count_append]
        omega
      · rw [imported_cons s _ acts] at hk
        rcases List.mem_append.mp hk with hk | hk
        · exact hfound k hk
        · exact (not_congr (halike.found k)).mp (hl.found k (himp ▸ hk))
      · refine hl.total.trans ?_
        rw [hcur]
        rfl
      · refine hl.unused.imp (fun h => h.trans ?_) fun h => h.trans ?_ <;> rw [hcur]
    | exportData => exact (ih h).cons rfl rfl rfl ⟨rfl, rfl⟩
    | addFunctions fs =>
      rw [loadActs, loadAct]
      cases hf : cur.functions with
      | none =>
        refine (ih h).cons rfl rfl ?_ ⟨rfl, rfl⟩
        rw [hf, loadTotal]
        exact Nat.add_assoc _ _ _
      | some fs' =>
        refine (ih h).cons rfl rfl ?_ ⟨rfl, rfl⟩
        rw [hf]
        rfl
    | addVar name =>
      refine (ih h).cons rfl rfl ?_ ⟨rfl, rfl⟩
      exact Nat.add_assoc _ _ _
    | onready => exact (ih h).cons rfl rfl rfl ⟨rfl, rfl⟩

end Modules

end Mbb
