import Mbb.ModuleUse

/-!
# Modules in every run

Each step leaves counters and locks right, or off by what `offset` says: a load may import
modules that are stopped, or be void after it has imported some, and a task may be started
in a call of a module that has been stopped meanwhile, or that the thread does not have as its
last used one any more. In the runs without such steps no module is unloaded that is in use.
-/

namespace Mbb

namespace Modules

variable {s s' : Modules} {m k : ℕ} {d : ℕ → Int}

/-- Counters and locks are right. -/
structure Inv (s : Modules) : Prop where
  /-- uses -/
  counted : s.Counted fun _ => 0
  /-- the rest -/
  tidy : s.Tidy
  /-- tasks have the module that they were started by -/
  tasks : ∀ {t}, t ∈ s.tasks → t.mod = t.startedBy

/-! ## Calls

A call uses the module of its function for as long as it goes on, unless it was stopped before.
-/

theorem Tidy.hold (h : s.Tidy) (m : ℕ) (n : Int) : (s.hold m n).Tidy where
  funcs hf := not_congr get?_hold_eq_none |>.mpr (h.funcs hf)
  key := h.key
  lt hm := h.lt (not_congr get?_hold_eq_none |>.mp hm)
  taskLt := h.taskLt

/-- A module can be used, if it is there. -/
theorem exists_use {mod : Option ℕ} (h : ∀ m, mod = some m → s.modules.get? m ≠ none)
    (th : Option ℕ) : ∃ ok s', s.mbbModuleUse mod th = some (ok, s') := by
  cases mod with
  | none => exact ⟨true, s, rfl⟩
  | some m =>
    obtain ⟨r, hr⟩ := Option.ne_none_iff_exists'.mp (h m rfl)
    rw [mbbModuleUse, hr]
    by_cases hrun : r.run = true
    · simp only [if_pos hrun]
      exact ⟨_, _, rfl⟩
    · simp only [if_neg hrun]
      exact ⟨_, _, rfl⟩

theorem exists_unuse {mod : Option ℕ} (h : ∀ m, mod = some m → s.modules.get? m ≠ none)
    (th : Option ℕ) : ∃ s', s.mbbModuleUnuse mod th = some s' := by
  cases mod with
  | none => exact ⟨s, rfl⟩
  | some m =>
    obtain ⟨r, hr⟩ := Option.ne_none_iff_exists'.mp (h m rfl)
    rw [mbbModuleUnuse, hr]
    exact ⟨_, rfl⟩

theorem Counted.alive_of_call (h : s.Counted d) {c : ℕ × Option ℕ} (hc : c ∈ s.calls)
    (hm : c.2 = some m) : s.modules.get? m ≠ none := by
  have hpos : 0 < s.calls.countP fun c => c.2 == some m :=
    List.countP_pos_iff.mpr ⟨c, hc, by simp [hm]⟩
  exact h.alive (Or.inl (by rw [uses]; omega))

theorem Counted.alive_of_task (h : s.Counted d) {t : LiveTask} (ht : t ∈ s.tasks)
    (hm : t.startedBy = some m) : s.modules.get? m ≠ none := by
  have hpos : 0 < s.tasks.countP fun t => t.startedBy == some m :=
    List.countP_pos_iff.mpr ⟨t, ht, by simp [hm]⟩
  exact h.alive (Or.inl (by rw [uses]; omega))

/-- The same but for the counters, locks and keys. -/
structure Framed (s s' : Modules) : Prop where
  /-- calls -/
  calls : s'.calls = s.calls
  /-- tasks -/
  tasks : s'.tasks = s.tasks
  /-- task ids -/
  taskId : s'.taskId = s.taskId
  /-- functions -/
  funcs : s'.funcs = s.funcs
  /-- addresses given out -/
  fresh : s'.fresh = s.fresh
  /-- modules that are there -/
  found : ∀ k, s'.modules.get? k = none ↔ s.modules.get? k = none

theorem Framed.refl (s : Modules) : s.Framed s := ⟨rfl, rfl, rfl, rfl, rfl, fun _ => Iff.rfl⟩

theorem Framed.setKey_hold (s : Modules) (th key : Option ℕ) (m : ℕ) (n : Int) :
    s.Framed ((s.setKey th key).hold m n) := by
  cases th with
  | none => exact ⟨rfl, rfl, rfl, rfl, rfl, fun _ => get?_hold_eq_none⟩
  | some th => exact ⟨rfl, rfl, rfl, rfl, rfl, fun _ => get?_hold_eq_none⟩

theorem Touched.framed (h : s.Touched s') : s.Framed s' := by
  rcases h with rfl | ⟨th, key, m, n, rfl⟩
  · exact .refl s'
  · exact .setKey_hold s th key m n

theorem Tidy.users {calls : List (ℕ × Option ℕ)} {tasks : List LiveTask} {n : ℕ} (h : s.Tidy)
    (hf : s.Framed s') (hkey : ∀ {th m}, s'.keys th = some m → (th, some m) ∈ calls)
    (htask : ∀ {t}, t ∈ tasks → t.id < n) : Tidy { s' with calls, tasks, taskId := n } where
  funcs hfm := not_congr (hf.found _) |>.mpr (h.funcs (hf.funcs ▸ hfm))
  key := hkey
  lt hm := hf.fresh ▸ h.lt (not_congr (hf.found _) |>.mp hm)
  taskLt := htask

theorem Inv.call (h : s.Inv) (th : ℕ) (name : String) (cap : Bool) :
    ∃ ok s', s.mbbFuncCall th name cap = some (ok, s') ∧ s'.Inv := by
  rw [mbbFuncCall]
  cases hf : s.funcs.get? name with
  | none => exact ⟨_, _, rfl, h⟩
  | some mod =>
    have hmod : ∀ m, mod = some m → s.modules.get? m ≠ none := by
      rintro m rfl
      exact h.tidy.funcs hf
    simp only
    by_cases hcap : (!cap) = true
    · rw [if_pos hcap]
      exact ⟨_, _, rfl, h⟩
    · rw [if_neg hcap]
      obtain ⟨ok, s₁, huse⟩ := exists_use hmod (some th)
      have hframe := (touched_of_use huse).framed
      rw [huse]
      cases ok with
      | false =>
        rcases mbbModuleUse_cases huse with ⟨hok, -, -⟩ | ⟨m, r, -, -, -, rfl⟩
        · cases hok
        · exact ⟨_, _, rfl, h⟩
      | true =>
        refine ⟨_, _, rfl, ?_, h.tidy.users hframe (fun {th' m} hk => ?_) ?_,
          fun ht => h.tasks (hframe.tasks ▸ ht)⟩
        · refine (h.counted.use huse).users (n := s₁.taskId) (fun k _ => ?_) (fun c hc k hk => ?_)
            fun t ht k hk => ?_
          · rw [countP_cons_one Prod.snd]
            dsimp only
            omega
          · refine not_congr (hframe.found k) |>.mpr ?_
            rcases List.mem_cons.mp hc with rfl | hc
            · exact hmod k hk
            · exact h.counted.alive_of_call (hframe.calls ▸ hc) hk
          · exact not_congr (hframe.found k) |>.mpr
              (h.counted.alive_of_task (hframe.tasks ▸ ht) hk)
        · rcases mbbModuleUse_cases huse with ⟨-, rfl, rfl⟩ | ⟨m', r, rfl, -, -, rfl⟩
          · exact List.mem_cons_of_mem _ (h.tidy.key hk)
          · -- the thread that calls has the key of the call
            rw [if_pos rfl] at hk
            change Function.update s.keys th (some m') th' = some m at hk
            rw [Function.update_apply] at hk
            split at hk
            · rename_i heq
              rw [heq, ← hk]
              exact List.mem_cons_self
            · exact List.mem_cons_of_mem _ (h.tidy.key hk)
        · rw [hframe.tasks, hframe.taskId]
          exact h.tidy.taskLt

theorem Inv.ret (h : s.Inv) (th : ℕ) : ∃ s', s.mbbFuncReturn th = some s' ∧ s'.Inv := by
  rw [mbbFuncReturn]
  cases hc : s.calls.find? fun c => decide (c.1 = th) with
  | none => exact ⟨_, rfl, h⟩
  | some c =>
    have hmem : c ∈ s.calls := List.mem_of_find?_eq_some hc
    have hth : c.1 = th := by simpa using List.find?_some hc
    obtain ⟨s₁, huse⟩ := exists_unuse (fun m hm => h.counted.alive_of_call hmem hm) (some th)
    have hframe := (touched_of_unuse huse).framed
    simp only [huse]
    refine ⟨_, rfl, ?_, h.tidy.users hframe (fun {th' m} hk => ?_) ?_,
      fun ht => h.tasks (hframe.tasks ▸ ht)⟩
    · refine (h.counted.unuse huse).users (n := s₁.taskId) (fun k _ => ?_) (fun c hc k hk => ?_)
        fun t ht k hk => ?_
      · rw [hframe.calls, countP_erase_one Prod.snd hmem]
        omega
      · exact not_congr (hframe.found k) |>.mpr
          (h.counted.alive_of_call (hframe.calls ▸ List.mem_of_mem_erase hc) hk)
      · exact not_congr (hframe.found k) |>.mpr
          (h.counted.alive_of_task (hframe.tasks ▸ ht) hk)
    · rw [hframe.calls]
      rcases mbbModuleUnuse_cases huse with ⟨hnone, rfl⟩ | ⟨m', hm', -, rfl⟩
      · refine (List.mem_erase_of_ne fun heq => ?_).mpr (h.tidy.key hk)
        rw [← heq] at hnone
        cases hnone
      · change Function.update s.keys th none th' = some m at hk
        rw [Function.update_apply] at hk
        split at hk
        · cases hk
        · rename_i hne
          exact (List.mem_erase_of_ne fun heq => hne
            ((congrArg Prod.fst heq).trans hth)).mpr (h.tidy.key hk)
    · rw [hframe.tasks, hframe.taskId]
      exact h.tidy.taskLt

/-! ## Tasks

A task uses the module that the thread has as its last used one. That this is the module whose call
started it is asked of the step.
-/

/-- `_mbb_module_use` for the last used module of a thread leaves the keys as they are. -/
theorem use_key {th : ℕ} {ok : Bool} (huse : s.mbbModuleUse (s.keys th) (some th) = some (ok, s')) :
    s'.keys = s.keys := by
  rcases mbbModuleUse_cases huse with ⟨-, -, rfl⟩ | ⟨m, r, hm, -, -, rfl⟩
  · rfl
  · cases ok with
    | false => rfl
    | true =>
      change Function.update s.keys th (some m) = s.keys
      rw [← hm, Function.update_eq_self]

/-- The module whose call a thread is in has that call. -/
theorem mem_calls_of_inCall {th : ℕ} (h : s.inCall th = some k) : (th, some k) ∈ s.calls := by
  obtain ⟨c, hc, hk⟩ := Option.bind_eq_some_iff.mp h
  have hth := List.find?_some hc
  simp only [Bool.and_eq_true, decide_eq_true_eq] at hth
  have heq : c = (th, some k) := Prod.ext hth.1 hk
  exact heq ▸ List.mem_of_find?_eq_some hc

/-- A thread that has used a module last is in a call of some module. -/
theorem Tidy.inCall_ne_none (h : s.Tidy) {th : ℕ} (hkey : s.keys th = some m) :
    s.inCall th ≠ none := by
  have hsome : (s.calls.find? fun c => decide (c.1 = th) && c.2.isSome).isSome = true :=
    List.find?_isSome.mpr ⟨_, h.key hkey, by simp⟩
  obtain ⟨c, hc⟩ := Option.isSome_iff_exists.mp hsome
  have hc' := List.find?_some hc
  simp only [Bool.and_eq_true] at hc'
  obtain ⟨k, hk⟩ := Option.isSome_iff_exists.mp hc'.2
  rw [inCall, hc, Option.bind_some, hk]
  exact Option.some_ne_none k

/-- What counters and locks are ahead when a task has been started: the use that has been made,
less the task, or less its end where there is no thread for it. -/
def taskOffset (s : Modules) (th : ℕ) (thread : Bool) (k : ℕ) : Int :=
  (if (s.keys th).all s.running then one (s.keys th) k else 0) -
    one (if thread then s.inCall th else s.keys th) k

/-- A use that is refused counts nothing. -/
theorem Counted.use_any {mod th : Option ℕ} {ok : Bool} (h : s.Counted d)
    (huse : s.mbbModuleUse mod th = some (ok, s')) :
    s'.Counted fun k => d k + if mod.all s.running then one mod k else 0 := by
  cases ok with
  | true =>
    refine (h.use huse).congr fun k _ => ?_
    rcases mbbModuleUse_cases huse with ⟨-, rfl, -⟩ | ⟨m, r, rfl, hr, hrun, -⟩
    · rfl
    · rw [Option.all_some, running, hr, Option.any_some, hrun, if_pos rfl]
  | false =>
    rcases mbbModuleUse_cases huse with ⟨hok, -⟩ | ⟨m, r, rfl, hr, hrun, rfl⟩
    · cases hok
    · refine h.congr fun k _ => ?_
      rw [Option.all_some, running, hr, Option.any_some, hrun, if_neg Bool.false_ne_true, add_zero]

theorem Inv.taskNew (h : s.Inv) (th : ℕ) :
    ∃ s', s.mbbTaskNew th = some s' ∧ s'.Counted (s.taskOffset th true) ∧ s'.Tidy ∧
      s'.tasks = ⟨s.taskId, s.keys th, s.inCall th⟩ :: s.tasks ∧
      ∀ k, s.keys th = some k → s'.modules.get? k ≠ none := by
  have hmod : ∀ m, s.keys th = some m → s.modules.get? m ≠ none := fun m hm =>
    h.counted.alive_of_call (h.tidy.key hm) rfl
  obtain ⟨ok, s₁, huse⟩ := exists_use hmod (some th)
  have hframe := (touched_of_use huse).framed
  have hkeys := use_key huse
  have hin : s₁.inCall th = s.inCall th := by rw [inCall, hframe.calls, inCall]
  rw [mbbTaskNew, huse]
  refine ⟨_, rfl, ?_, h.tidy.users hframe (fun {th' m} hk => ?_) fun {t} ht => ?_, ?_,
    fun k hk => not_congr (hframe.found k) |>.mpr (hmod k hk)⟩
  · refine (h.counted.use_any huse).users (fun k _ => ?_) (fun c hc k hk => ?_) fun t ht k hk => ?_
    · rw [countP_cons_one LiveTask.startedBy, taskOffset, if_pos rfl, hin]
      dsimp only
      omega
    · exact not_congr (hframe.found k) |>.mpr (h.counted.alive_of_call (hframe.calls ▸ hc) hk)
    · refine not_congr (hframe.found k) |>.mpr ?_
      rcases List.mem_cons.mp ht with rfl | ht
      · exact h.counted.alive_of_call (mem_calls_of_inCall (hin.symm.trans hk)) rfl
      · exact h.counted.alive_of_task (hframe.tasks ▸ ht) hk
  · rw [hframe.calls]
    exact h.tidy.key (hkeys ▸ hk)
  · rw [hframe.taskId]
    rcases List.mem_cons.mp ht with rfl | ht
    · exact hframe.taskId ▸ Nat.lt_succ_self _
    · exact Nat.lt_succ_of_lt (h.tidy.taskLt (hframe.tasks ▸ ht))
  · rw [hframe.tasks, hframe.taskId, hin]

/-- The task that is freed does not count any more, whatever the counters are, and the module it
has is released. -/
theorem taskFree_spec (hc : s.Counted d) (ht : s.Tidy) {id : ℕ} {t : LiveTask}
    (hfind : s.tasks.find? (fun t => decide (t.id = id)) = some t)
    (hmod : ∀ m, t.mod = some m → s.modules.get? m ≠ none) (th : Option ℕ) :
    ∃ s', s.mbbTaskFree id th = some s' ∧
      s'.Counted (fun k => d k + one t.startedBy k - one t.mod k) ∧ s'.Tidy ∧
      s'.tasks = s.tasks.erase t := by
  have hmem : t ∈ s.tasks := List.mem_of_find?_eq_some hfind
  obtain ⟨s₁, huse⟩ := exists_unuse hmod th
  have hframe := (touched_of_unuse huse).framed
  rw [mbbTaskFree, hfind]
  simp only [huse]
  refine ⟨_, rfl, ?_, ht.users hframe (fun {th' m} hk => ?_) fun {t'} ht' => ?_,
    by rw [hframe.tasks]⟩
  · refine (hc.unuse huse).users (n := s₁.taskId) (fun k _ => ?_) (fun c hmem k hk => ?_)
      fun t' ht' k hk => ?_
    · rw [hframe.tasks, countP_erase_one LiveTask.startedBy hmem]
      omega
    · exact not_congr (hframe.found k) |>.mpr (hc.alive_of_call (hframe.calls ▸ hmem) hk)
    · exact not_congr (hframe.found k) |>.mpr
        (hc.alive_of_task (hframe.tasks ▸ List.mem_of_mem_erase ht') hk)
  · rw [hframe.calls]
    refine ht.key ?_
    rcases mbbModuleUnuse_cases huse with ⟨-, rfl⟩ | ⟨m', -, -, rfl⟩
    · exact hk
    · cases th with
      | none => exact hk
      | some th =>
        change Function.update s.keys th none th' = some m at hk
        rw [Function.update_apply] at hk
        split at hk
        · cases hk
        · exact hk
  · rw [hframe.taskId]
    exact ht.taskLt (hframe.tasks ▸ List.mem_of_mem_erase ht')

theorem Inv.taskCreate (h : s.Inv) (th : ℕ) (thread : Bool) :
    ∃ s', s.mbbTaskCreate th thread = some s' ∧ s'.Counted (s.taskOffset th thread) ∧ s'.Tidy ∧
      ∀ t ∈ s'.tasks, t ∈ s.tasks ∨
        thread = true ∧ t.mod = s.keys th ∧ t.startedBy = s.inCall th := by
  obtain ⟨s₁, hnew, hcounted, htidy, htasks, hmod⟩ := h.taskNew th
  rw [mbbTaskCreate, hnew]
  cases thread with
  | true =>
    refine ⟨s₁, rfl, hcounted, htidy, fun t ht => ?_⟩
    rw [htasks] at ht
    rcases List.mem_cons.mp ht with rfl | ht
    · exact Or.inr ⟨rfl, rfl, rfl⟩
    · exact Or.inl ht
  | false =>
    have hfind : s₁.tasks.find? (fun t => decide (t.id = s.taskId)) =
        some ⟨s.taskId, s.keys th, s.inCall th⟩ := by
      rw [htasks]
      exact List.find?_cons_of_pos (decide_eq_true rfl)
    obtain ⟨s₂, hs₂, hcounted₂, htidy₂, htasks₂⟩ :=
      taskFree_spec hcounted htidy hfind hmod (some th)
    refine ⟨s₂, hs₂, hcounted₂.congr fun k _ => ?_, htidy₂, fun t ht => Or.inl ?_⟩
    · simp only [taskOffset, if_true, Bool.false_eq_true, if_false]
      omega
    · rw [htasks₂, htasks, List.erase_cons_head] at ht
      exact ht

/-- A task ends, and its module is released. -/
theorem Inv.taskEnd (h : s.Inv) (id : ℕ) : ∃ s', s.mbbTaskFree id none = some s' ∧ s'.Inv := by
  cases hfind : s.tasks.find? fun t => decide (t.id = id) with
  | none => exact ⟨s, by rw [mbbTaskFree, hfind], h⟩
  | some t =>
    have hmem : t ∈ s.tasks := List.mem_of_find?_eq_some hfind
    obtain ⟨s', hs', hcounted, htidy, htasks⟩ := taskFree_spec h.counted h.tidy hfind
      (fun m hm => h.counted.alive_of_task hmem ((h.tasks hmem).symm.trans hm)) none
    refine ⟨s', hs', hcounted.congr fun k _ => ?_, htidy, fun ht => ?_⟩
    · rw [h.tasks hmem]
      omega
    · rw [htasks] at ht
      exact h.tasks (List.mem_of_mem_erase ht)

/-! ## Running, stopping and `onready` -/

/-- A change of one module that leaves its counter and its list of imports alone. -/
theorem Inv.modify (h : s.Inv) {m : ℕ} {f : MbbModule → MbbModule} {ready : List ℕ} {n : Int}
    (hcount : ∀ r, (f r).useCount = r.useCount) (hdeps : ∀ r, (f r).deps = r.deps)
    (hlock : ∀ r, (f r).readers = r.readers + n)
    (hready : ∀ k, (ready.count k : Int) = s.ready.count k + if k = m then n else 0)
    (hsub : ∀ k ∈ ready, k ∈ s.ready) :
    Inv { s with modules := s.modules.modify m f, ready } := by
  have huses : ∀ k,
      Modules.uses { s with modules := s.modules.modify m f, ready } k = s.uses k := by
    intro k
    rw [uses, uses, imports, imports, Ledger.sumBy_modify_same (fun r => by rw [hdeps])]
  have hfound : ∀ k, (s.modules.modify m f).get? k ≠ none ↔ s.modules.get? k ≠ none := fun k =>
    not_congr Ledger.get?_modify_eq_none
  have hget : ∀ {k r}, (s.modules.modify m f).get? k = some r →
      ∃ r', s.modules.get? k = some r' ∧ r.useCount = r'.useCount ∧
        r.readers = r'.readers + if k = m then n else 0 := by
    intro k r hr
    rw [Ledger.get?_modify] at hr
    by_cases hk : k = m
    · rw [if_pos hk] at hr ⊢
      obtain ⟨r', hr', rfl⟩ := Option.map_eq_some_iff.mp hr
      exact ⟨r', hk ▸ hr', hcount r', hlock r'⟩
    · rw [if_neg hk] at hr ⊢
      exact ⟨r, hr, rfl, (add_zero _).symm⟩
  refine ⟨⟨fun hr => ?_, fun {k r} hr => ?_, fun {k} hk => ?_⟩,
    ⟨fun hf => (hfound _).mpr (h.tidy.funcs hf), h.tidy.key,
      fun hm => h.tidy.lt ((hfound _).mp hm), h.tidy.taskLt⟩, h.tasks⟩
  · obtain ⟨r', hr', hc, -⟩ := hget hr
    rw [huses, hc]
    exact h.counted.count hr'
  · obtain ⟨r', hr', -, hl⟩ := hget hr
    have hlock := h.counted.lock hr'
    rw [huses, hl, hready]
    omega
  · rw [huses] at hk
    exact (hfound k).mpr (h.counted.alive (hk.imp id (hsub k)))

theorem Inv.doRun (h : s.Inv) (name : String) (run : Bool) : (s.moduleDoRun name run).2.Inv := by
  rw [moduleDoRun]
  split
  · exact h
  · split
    · exact h
    · split
      · exact h
      · exact h.modify (n := 0) (fun _ => rfl) (fun _ => rfl) (fun _ => (add_zero _).symm)
          (fun _ => by simp) fun _ hk => hk

theorem Inv.onready (h : s.Inv) (m : ℕ) : ∃ s', s.onreadyDone m = some s' ∧ s'.Inv := by
  rw [onreadyDone]
  by_cases hm : m ∈ s.ready
  · obtain ⟨r, hr⟩ := Option.ne_none_iff_exists'.mp (h.counted.alive (Or.inr hm))
    rw [if_pos hm, hr]
    refine ⟨_, rfl, h.modify (n := -1) (fun _ => rfl) (fun _ => rfl) (fun _ => rfl) (fun k => ?_)
      fun _ => List.mem_of_mem_erase⟩
    have hpos : 0 < s.ready.count m := List.count_pos_iff.mpr hm
    by_cases hk : k = m
    · rw [if_pos hk, hk, List.count_erase_self]
      omega
    · rw [if_neg hk, List.count_erase_of_ne hk]
      omega
  · rw [if_neg hm]
    exact ⟨s, rfl, h⟩

/-! ## Unloading

When the lock is free nothing uses the module, so it may go, and the modules it has imported have
one use less each.
-/

/-- The imported modules are released. -/
theorem unuseDeps_spec (deps : List ℕ) :
    ∀ {s : Modules} {d : ℕ → Int}, s.Counted d → (∀ k ∈ deps, s.modules.get? k ≠ none) →
      ∃ s', unuseDeps deps s = some s' ∧ s.Alike s' ∧
        (s'.Counted fun k => d k - deps.count k) ∧
        ∀ k, s'.modules.col MbbModule.deps k = s.modules.col MbbModule.deps k := by
  induction deps with
  | nil =>
    intro s d h _
    exact ⟨s, rfl, .refl s, h.congr fun k _ => by simp, fun k => rfl⟩
  | cons m deps ih =>
    intro s d h hdeps
    obtain ⟨r, hr⟩ := Option.ne_none_iff_exists'.mp (hdeps m List.mem_cons_self)
    have halike := Alike.hold s m (-1)
    obtain ⟨s', hs', halike', hcounted, hcol⟩ := ih (h.hold m (-1)) fun k hk =>
      not_congr (halike.found k) |>.mpr (hdeps k (List.mem_cons_of_mem _ hk))
    rw [unuseDeps, mbbModuleUnuse, hr]
    refine ⟨s', hs', halike.trans halike', hcounted.congr fun k _ => ?_, fun k => (hcol k).trans ?_⟩
    · rw [List.count_cons]
      by_cases hk : k = m
      · simp only [hk, beq_self_eq_true, if_true]
        push_cast
        omega
      · have hk' : ¬ m = k := fun heq => hk heq.symm
        simp only [hk, hk', beq_iff_eq, if_false]
        push_cast
        omega
    · exact congrFun (Ledger.col_modify_same (by intro r; rfl) s.modules m) k

theorem Alike.tidy (h : s.Alike s') (ht : s.Tidy) : s'.Tidy := by
  obtain ⟨modules, rfl⟩ := h.rest
  exact ⟨fun hf => not_congr (h.found _) |>.mpr (ht.funcs hf), ht.key,
    fun hm => ht.lt (not_congr (h.found _) |>.mp hm), ht.taskLt⟩

theorem Counted.tables (h : s.Counted d) (funcs vars : Registry) :
    Counted { s with funcs, vars } d := ⟨h.count, h.lock, h.alive⟩

/-- Modules that are imported are there. -/
theorem Counted.alive_of_dep (h : s.Counted d) {r : MbbModule} (hr : s.modules.get? m = some r)
    (hk : k ∈ r.deps) : s.modules.get? k ≠ none := by
  have hpos : 0 < r.deps.count k := List.count_pos_iff.mpr hk
  have hle : r.deps.count k ≤ s.imports k := Ledger.le_sumBy (f := fun r => r.deps.count k) hr
  exact h.alive (Or.inl (by rw [uses]; omega))

/-- A module that nobody holds can go, with its imports. -/
theorem Counted.drop {r : MbbModule} (h : s.Counted fun k => - (r.deps.count k : Int))
    (hr : s.modules.col MbbModule.deps m = some r.deps) (huses : s.uses m = 0)
    (hready : m ∉ s.ready) :
    Counted { s with modules := s.modules.drop fun k => decide (k = m) } fun _ => 0 := by
  obtain ⟨r', hr', hdeps⟩ := Option.map_eq_some_iff.mp hr
  have huses' : ∀ k, s.uses k =
      Modules.uses { s with modules := s.modules.drop fun k => decide (k = m) } k +
        r.deps.count k := by
    intro k
    have := Ledger.sumBy_drop_one (f := fun r : MbbModule => r.deps.count k) hr'
    rw [hdeps] at this
    simp only [uses, imports]
    omega
  have hget : ∀ {k r'}, (s.modules.drop fun k => decide (k = m)).get? k = some r' →
      s.modules.get? k = some r' := by
    intro k r' hk
    rw [Ledger.get?_drop] at hk
    split at hk
    · cases hk
    · exact hk
  refine ⟨fun {k r} hk => ?_, fun {k r} hk => ?_, fun {k} hk => ?_⟩
  · have hcount := h.count (hget hk)
    rw [huses'] at hcount
    push_cast at hcount
    omega
  · have hlock := h.lock (hget hk)
    rw [huses'] at hlock
    push_cast at hlock
    simp only
    omega
  · have hne : k ≠ m := by
      rintro rfl
      rw [huses'] at huses
      rcases hk with hk | hk
      · omega
      · exact hready hk
    rw [Ledger.get?_drop, if_neg (by simpa using hne)]
    exact h.alive (hk.imp (fun hk => by rw [huses']; omega) id)

/-- A module that is used, or whose `onready` runs, is not unloaded. -/
theorem Inv.unload (h : s.Inv) (name : String) :
    ∃ e s', s.mbbModuleUnload name = some (e, s') ∧ s'.Inv ∧
      (e = none → ∃ m r, s.byName name = some (m, r) ∧ s.uses m = 0) := by
  rw [mbbModuleUnload]
  split
  · exact ⟨_, _, rfl, h, fun he => by cases he⟩
  · cases hname : s.byName name with
    | none => exact ⟨_, _, rfl, h, fun he => by cases he⟩
    | some p =>
      obtain ⟨m, r⟩ := p
      have hr : s.modules.get? m = some r := Ledger.get?_of_find? hname
      have hlock := h.counted.lock hr
      simp only
      by_cases hreaders : r.readers ≠ 0
      · rw [if_pos hreaders]
        exact ⟨_, _, rfl, h, fun he => by cases he⟩
      · rw [if_neg hreaders]
        have huses : s.uses m = 0 := by omega
        have hready : m ∉ s.ready := List.count_eq_zero.mp (by omega)
        obtain ⟨s', hs', halike, hcounted, hcol⟩ := unuseDeps_spec r.deps
          (h.counted.tables (unregister m s.funcs) (unregister m s.vars))
          fun k hk => h.counted.alive_of_dep hr hk
        simp only [hs']
        refine ⟨_, _, rfl, ⟨?_, ?_, ?_⟩, fun _ => ⟨m, r, rfl, huses⟩⟩
        · refine (hcounted.congr fun k _ => zero_sub _).drop
            ((hcol m).trans (Ledger.col_of_get? hr _)) ((halike.uses m).trans huses) ?_
          obtain ⟨modules, rfl⟩ := halike.rest
          exact hready
        · obtain ⟨modules, rfl⟩ := halike.rest
          refine ⟨fun {f k} hf => ?_, h.tidy.key, fun {k} hk => ?_, h.tidy.taskLt⟩
          · -- the functions of the module have gone with it
            change (s.funcs.drop fun name => s.funcs.get? name == some (some m)).get? f =
              some (some k) at hf
            rw [Ledger.get?_drop] at hf
            split at hf
            · cases hf
            · rename_i hne
              have hkm : k ≠ m := by
                rintro rfl
                exact hne (by rw [hf, beq_self_eq_true])
              rw [Ledger.get?_drop, if_neg (by simpa using hkm)]
              exact not_congr (halike.found k) |>.mpr (h.tidy.funcs hf)
          · rw [Ledger.get?_drop] at hk
            split at hk
            · exact absurd rfl hk
            · exact h.tidy.lt (not_congr (halike.found k) |>.mp hk)
        · obtain ⟨modules, rfl⟩ := halike.rest
          exact h.tasks

/-! ## Loading

The new module has no uses, and its imports have one more each.
-/

/-- The calls that the load function makes, if it is called. -/
def loadCalls (s : Modules) (name : String) (dir : Bool) (dl : Option (ℕ × Option ModuleInfo)) :
    Option (List LoadAct) :=
  if !checkModName name || !dir || (s.byName name).isSome then none
  else dl.bind fun dl => (s.checkModLoaded dl.1 dl.2).toOption.map Prod.snd

/-- What counters and locks are ahead after a load. -/
def loadOffset (s : Modules) (acts : List LoadAct) (k : ℕ) : Int :=
  if loadTotal acts none = 0 then if s.running k then (s.imported acts).count k else 0
  else if s.running k then 0 else - ((s.imported acts).count k : Int)

theorem get?_mregister {names : List String} :
    ∀ {table : Registry} {f : String} {x : Option ℕ},
      (mregister m table names).1.get? f = some x → x = some m ∨ table.get? f = some x := by
  induction names with
  | nil => exact fun h => Or.inr h
  | cons name names ih =>
    intro table f x h
    rw [mregister] at h
    split at h
    · exact ih h
    · rcases ih h with h | h
      · exact Or.inl h
      · rw [Ledger.get?_put] at h
        split at h
        · exact Or.inl (Option.some.inj h).symm
        · exact Or.inr h

/-- The record of the new module is put in, under an address of its own. -/
theorem get?_regData (s : Modules) (module : MbbModule) :
    ∃ r : MbbModule, r.useCount = module.useCount ∧
      r.readers = (if module.onready then module.readers + 1 else module.readers) ∧
      ∀ k, (s.mbbModuleRegData module).modules.get? k =
        if k = s.fresh then some r else s.modules.get? k := by
  refine ⟨_, ?_, ?_, fun k => Ledger.get?_put _ _ _ k⟩
  · rfl
  · rfl

theorem uses_regData {module : MbbModule} (hnone : s.modules.get? s.fresh = none) (k : ℕ) :
    (s.mbbModuleRegData module).uses k = s.uses k + module.deps.count k := by
  simp only [uses, imports, mbbModuleRegData]
  rw [Ledger.sumBy_put hnone]
  dsimp only
  omega

/-- Only the new module can have been put on the list. -/
theorem ready_regData (s : Modules) (module : MbbModule) (k : ℕ) :
    (s.mbbModuleRegData module).ready.count k =
      s.ready.count k + if k = s.fresh ∧ module.onready = true then 1 else 0 := by
  rw [mbbModuleRegData]
  simp only
  cases module.onready with
  | false => simp
  | true =>
    rw [if_pos rfl, List.count_cons]
    by_cases hk : k = s.fresh
    · simp [hk]
    · simp [hk, Ne.symm hk]

/-- Nothing uses a module that does not exist. -/
theorem Counted.unused (h : s.Counted d) {m : ℕ} (hnone : s.modules.get? m = none) :
    s.uses m = 0 ∧ s.ready.count m = 0 := by
  refine ⟨?_, List.count_eq_zero.mpr fun hm => h.alive (Or.inr hm) hnone⟩
  by_contra hne
  exact h.alive (Or.inl hne) hnone

/-- The new module imports what its load function has noted. -/
theorem Counted.regData {module : MbbModule} (h : s.Counted d)
    (hlt : ∀ {m}, s.modules.get? m ≠ none → m < s.fresh)
    (hdeps : ∀ k ∈ module.deps, s.modules.get? k ≠ none) (hcount : module.useCount = 0)
    (hlock : module.readers = 0) (hd : d s.fresh = 0) :
    (s.mbbModuleRegData module).Counted fun k => d k - module.deps.count k := by
  have hnone : s.modules.get? s.fresh = none := by
    by_contra hne
    exact Nat.lt_irrefl _ (hlt hne)
  have hfree := h.unused hnone
  have hself : module.deps.count s.fresh = 0 :=
    List.count_eq_zero.mpr fun hm => hdeps _ hm hnone
  obtain ⟨r, hruse, hrlock, hget⟩ := s.get?_regData module
  refine ⟨fun {k r'} hk => ?_, fun {k r'} hk => ?_, fun {k} hk => ?_⟩
  · rw [hget] at hk
    rw [uses_regData hnone]
    split at hk
    · rename_i heq
      obtain rfl := Option.some.inj hk
      rw [heq, hfree.1, hself, hd]
      exact hruse.trans hcount
    · rw [h.count hk]
      push_cast
      omega
  · rw [hget] at hk
    rw [uses_regData hnone, ready_regData]
    split at hk
    · rename_i heq
      obtain rfl := Option.some.inj hk
      rw [heq, hfree.1, hfree.2, hself, hd, hrlock]
      simp only [hlock, true_and]
      cases module.onready <;> simp
    · rename_i hne
      rw [h.lock hk]
      simp only [hne, false_and, if_false]
      push_cast
      omega
  · rw [hget]
    split
    · exact Option.some_ne_none _
    · rename_i hne
      by_cases hd : k ∈ module.deps
      · exact hdeps k hd
      · refine h.alive ?_
        rw [uses_regData hnone, List.count_eq_zero.mpr hd, add_zero] at hk
        refine hk.imp id fun hk => ?_
        have := List.count_pos_iff.mpr hk
        rw [ready_regData, if_neg (fun h => hne h.1)] at this
        exact List.count_pos_iff.mp this

theorem Tidy.regData {module : MbbModule} (h : s.Tidy) : (s.mbbModuleRegData module).Tidy := by
  obtain ⟨r, -, -, hget⟩ := s.get?_regData module
  refine ⟨fun {f k} hf => ?_, h.key, fun {k} hk => ?_, h.taskLt⟩
  · rw [hget]
    split
    · exact Option.some_ne_none _
    · rename_i hne
      rcases get?_mregister hf with hk | hk
      · exact absurd (Option.some.inj hk) hne
      · exact h.funcs hk
  · rw [hget] at hk
    change k < s.fresh + 1
    split at hk
    · omega
    · exact Nat.lt_succ_of_lt (h.lt hk)

theorem Inv.load (h : s.Inv) (name : String) (dir : Bool) (dl : Option (ℕ × Option ModuleInfo)) :
    (s.mbbModuleLoad name dir dl).2.Counted
        (fun k => ((s.loadCalls name dir dl).map fun acts => s.loadOffset acts k).getD 0) ∧
      (s.mbbModuleLoad name dir dl).2.Tidy ∧ (s.mbbModuleLoad name dir dl).2.tasks = s.tasks := by
  unfold mbbModuleLoad loadCalls
  by_cases hname : (!checkModName name || !dir) = true
  · simp only [hname, Bool.true_or, if_true]
    exact ⟨h.counted, h.tidy, trivial⟩
  rw [if_neg hname]
  by_cases hex : (s.byName name).isSome = true
  · simp only [hex, Bool.or_true, if_true]
    exact ⟨h.counted, h.tidy, trivial⟩
  rw [if_neg hex, if_neg (by simpa using ⟨by simpa using hname, by simpa using hex⟩)]
  cases dl with
  | none => exact ⟨h.counted, h.tidy, rfl⟩
  | some dl =>
    simp only [Option.bind_some]
    cases hcheck : s.checkModLoaded dl.1 dl.2 with
    | error e => exact ⟨h.counted, h.tidy, rfl⟩
    | ok p =>
      obtain ⟨id, acts⟩ := p
      have hl := @loadActs_spec acts s _ (mbbModuleNew name dl.1 id) h.counted
      have htotal : (loadActs acts s (mbbModuleNew name dl.1 id)).2.total = loadTotal acts none :=
        hl.total.trans (Nat.zero_add _)
      simp only [Except.toOption, Option.map_some, Option.getD_some, loadOffset, htotal]
      have htasks : (loadActs acts s (mbbModuleNew name dl.1 id)).1.tasks = s.tasks := by
        obtain ⟨modules, hrest⟩ := hl.alike.rest
        rw [hrest]
      by_cases hzero : loadTotal acts none = 0
      · simp only [hzero, if_true]
        exact ⟨hl.counted.congr fun k _ => by rw [zero_add], hl.alike.tidy h.tidy, htasks⟩
      · simp only [hzero, if_false]
        have htidy := hl.alike.tidy h.tidy
        have hdeps : ∀ k, (loadActs acts s (mbbModuleNew name dl.1 id)).2.deps.count k =
            (s.imported acts).count k := fun k => (hl.deps k).trans (Nat.add_zero _)
        have hfresh : s.modules.get? s.fresh = none := by
          by_contra hne
          exact Nat.lt_irrefl _ (h.tidy.lt hne)
        refine ⟨(hl.counted.regData htidy.lt (fun k hk => ?_) hl.unused.1 hl.unused.2 ?_).congr
          fun k _ => ?_, htidy.regData, htasks⟩
        · refine not_congr (hl.alike.found k) |>.mpr (hl.found k ?_)
          exact List.count_pos_iff.mp (hdeps k ▸ List.count_pos_iff.mpr hk)
        · obtain ⟨modules, hrest⟩ := hl.alike.rest
          have hrun : s.running s.fresh = false := by rw [running, hfresh, Option.any_none]
          rw [show (loadActs acts s (mbbModuleNew name dl.1 id)).1.fresh = s.fresh by rw [hrest],
            hrun]
          rfl
        · rw [hdeps]
          split <;> omega

/-! ## Runs

The invariant with the sum of the offsets; in runs whose steps have none it says that counts are
right.
-/

/-- The step unbalances nothing: a load function that adds something imports modules that run
only, one that adds nothing imports stopped modules only. A task that is started in a call of a
module finds it as the last used one of the thread, and it still runs; where there is no thread for
the task, only what is found has to run. -/
def StepOk (s : Modules) : ModuleCmd → Prop
  | .load name dir dl => ∀ acts, s.loadCalls name dir dl = some acts →
      ∀ k ∈ s.imported acts, s.running k = true ↔ loadTotal acts none ≠ 0
  | .task th thread => ∀ k, (if thread then s.inCall th else s.keys th) = some k →
      s.keys th = some k ∧ s.running k = true
  | _ => True

/-- What counters and locks are ahead after a step. -/
def offset (s : Modules) : ModuleCmd → ℕ → Int
  | .load name dir dl, k => ((s.loadCalls name dir dl).map fun acts => s.loadOffset acts k).getD 0
  | .task th thread, k => s.taskOffset th thread k
  | _, _ => 0

/-- The task that a step starts, if it starts one that lives. -/
def Starts (s : Modules) (c : ModuleCmd) (t : LiveTask) : Prop :=
  ∃ th, c = .task th true ∧ t.mod = s.keys th ∧ t.startedBy = s.inCall th

/-- Every step can be made, and leaves counters and locks right but for its offset. -/
theorem Inv.exec (h : s.Inv) (c : ModuleCmd) :
    ∃ s', s.exec c = some s' ∧ s'.Counted (s.offset c) ∧ s'.Tidy ∧
      ∀ t ∈ s'.tasks, t.mod = t.startedBy ∨ s.Starts c t := by
  cases c with
  | load name dir dl =>
    obtain ⟨hcounted, htidy, htasks⟩ := h.load name dir dl
    exact ⟨_, rfl, hcounted, htidy, fun t ht => Or.inl (h.tasks (htasks ▸ ht))⟩
  | ready m =>
    obtain ⟨s', hs', hinv⟩ := h.onready m
    exact ⟨s', hs', hinv.counted, hinv.tidy, fun t ht => Or.inl (hinv.tasks ht)⟩
  | unload name =>
    obtain ⟨e, s', hs', hinv, -⟩ := h.unload name
    exact ⟨s', by rw [Modules.exec, hs', Option.map_some], hinv.counted, hinv.tidy,
      fun t ht => Or.inl (hinv.tasks ht)⟩
  | run name run =>
    have hinv := h.doRun name run
    exact ⟨_, rfl, hinv.counted, hinv.tidy, fun t ht => Or.inl (hinv.tasks ht)⟩
  | call th name cap =>
    obtain ⟨ok, s', hs', hinv⟩ := h.call th name cap
    exact ⟨s', by rw [Modules.exec, hs', Option.map_some], hinv.counted, hinv.tidy,
      fun t ht => Or.inl (hinv.tasks ht)⟩
  | ret th =>
    obtain ⟨s', hs', hinv⟩ := h.ret th
    exact ⟨s', hs', hinv.counted, hinv.tidy, fun t ht => Or.inl (hinv.tasks ht)⟩
  | task th thread =>
    obtain ⟨s', hs', hcounted, htidy, htasks⟩ := h.taskCreate th thread
    refine ⟨s', hs', hcounted, htidy, fun t ht => ?_⟩
    rcases htasks t ht with hold | ⟨rfl, hmod, hby⟩
    · exact Or.inl (h.tasks hold)
    · exact Or.inr ⟨th, rfl, hmod, hby⟩
  | taskEnd id =>
    obtain ⟨s', hs', hinv⟩ := h.taskEnd id
    exact ⟨s', hs', hinv.counted, hinv.tidy, fun t ht => Or.inl (hinv.tasks ht)⟩

/-- The last used module of a thread is the one whose call it is in. -/
theorem keys_eq_inCall {th : ℕ} (h : s.StepOk (.task th true)) (ht : s.Tidy) :
    s.keys th = s.inCall th := by
  cases hin : s.inCall th with
  | some k => exact (h k hin).1
  | none =>
    by_contra hne
    obtain ⟨m, hm⟩ := Option.ne_none_iff_exists'.mp hne
    exact ht.inCall_ne_none hm hin

theorem offset_eq_zero {c : ModuleCmd} (h : s.StepOk c) (ht : s.Tidy) (k : ℕ) :
    s.offset c k = 0 := by
  cases c with
  | load name dir dl =>
    rw [offset]
    cases hcalls : s.loadCalls name dir dl with
    | none => rfl
    | some acts =>
      rw [Option.map_some, Option.getD_some, loadOffset]
      have hok := h acts hcalls k
      by_cases hk : k ∈ s.imported acts
      · by_cases htotal : loadTotal acts none = 0
        · rw [if_pos htotal, if_neg fun hrun => (hok hk).mp hrun htotal]
        · rw [if_neg htotal, if_pos ((hok hk).mpr htotal)]
      · simp [List.count_eq_zero.mpr hk]
  | task th thread =>
    have heq : (if thread then s.inCall th else s.keys th) = s.keys th := by
      cases thread with
      | true => exact (keys_eq_inCall h ht).symm
      | false => rfl
    rw [offset, taskOffset, heq]
    cases hkey : s.keys th with
    | none => rfl
    | some m =>
      rw [Option.all_some, (h m (heq.trans hkey)).2, if_pos rfl, sub_self]
  | _ => rfl

theorem Inv.init (builtin vars : List String) : (init builtin vars).Inv := by
  have hfuncs : ∀ (builtin : List String) (table : Registry),
      (∀ f m, table.get? f ≠ some (some m)) → ∀ f m,
        (builtin.foldl (fun table name => table.put name none) table).get? f ≠ some (some m) := by
    intro builtin
    induction builtin with
    | nil => exact fun _ h => h
    | cons name builtin ih =>
      refine fun table h => ih _ fun f m => ?_
      rw [Ledger.get?_put]
      split
      · simp
      · exact h f m
  refine ⟨⟨fun hr => ?_, fun hr => ?_, fun hk => ?_⟩, ⟨fun hf => ?_, fun hk => ?_, fun hm => ?_,
    fun ht => ?_⟩, fun ht => ?_⟩
  · cases hr
  · cases hr
  · rcases hk with hk | hk
    · exact absurd rfl hk
    · cases hk
  · exact absurd hf (hfuncs builtin .empty (fun f m => by simp) _ _)
  · cases hk
  · exact absurd rfl hm
  · cases ht
  · cases ht

theorem Inv.reaches (h : s.Inv) (hs : Reaches StepOk s s') : s'.Inv := by
  induction hs with
  | refl => exact h
  | tail _ hstep ih =>
    obtain ⟨c, hok, hc⟩ := hstep
    obtain ⟨s'', hs'', hcounted, htidy, htasks⟩ := ih.exec c
    obtain rfl := Option.some.inj (hc.symm.trans hs'')
    refine ⟨hcounted.congr fun k _ => offset_eq_zero hok ih.tidy k, htidy, fun {t} ht => ?_⟩
    rcases htasks t ht with hold | ⟨th, rfl, hmod, hby⟩
    · exact hold
    · rw [hmod, hby]
      exact keys_eq_inCall hok ih.tidy

/-- Where no load is in progress, the use count of each module is the number of its running
calls, its live tasks and its imports, and the reader lock is held that many times. -/
def UseCounted (s : Modules) : Prop :=
  s.ready = [] → ∀ m r, s.modules.get? m = some r →
    0 ≤ r.useCount ∧ r.useCount = s.uses m ∧ r.readers = s.uses m

/-- No module is unloaded that a loaded module has imported. -/
def KeepsImported (s : Modules) : Prop :=
  ∀ name s', s.mbbModuleUnload name = some (none, s') → ∀ m r, s.byName name = some (m, r) →
    ∀ k r', s.modules.get? k = some r' → m ∉ r'.deps

theorem use_counting (builtin vars : List String) (h : Reaches StepOk (init builtin vars) s) :
    s.UseCounted ∧ s.KeepsImported ∧ ∀ c, s.exec c ≠ none := by
  have hinv := (Inv.init builtin vars).reaches h
  refine ⟨fun hready m r hr => ?_, fun name s' hs' m r hm k r' hr' hdep => ?_, fun c hc => ?_⟩
  · have hcount := hinv.counted.count hr
    have hlock := hinv.counted.lock hr
    rw [hready, List.count_nil] at hlock
    refine ⟨?_, ?_, ?_⟩ <;> omega
  · obtain ⟨e, s'', hs'', -, hfree⟩ := hinv.unload name
    obtain ⟨rfl, rfl⟩ := Prod.mk.inj (Option.some.inj (hs'.symm.trans hs''))
    obtain ⟨m', r'', hm', huses⟩ := hfree rfl
    obtain ⟨rfl, rfl⟩ := Prod.mk.inj (Option.some.inj (hm.symm.trans hm'))
    have hpos : 0 < r'.deps.count m := List.count_pos_iff.mpr hdep
    have hle : r'.deps.count m ≤ s.imports m :=
      Ledger.le_sumBy (f := fun r => r.deps.count m) hr'
    rw [uses] at huses
    omega
  · obtain ⟨s', hs', -⟩ := hinv.exec c
    rw [hs'] at hc
    cases hc

/-- Steps one after the other. -/
def execAll (s : Modules) (cmds : List ModuleCmd) : Option Modules := cmds.foldlM exec s

theorem reaches_execAll {P : Modules → ModuleCmd → Prop} (cmds : List ModuleCmd) :
    ∀ {s : Modules}, (∀ s, ∀ c ∈ cmds, P s c) → s.execAll cmds = some s' → Reaches P s s' := by
  induction cmds with
  | nil =>
    intro s _ hs
    obtain rfl := Option.some.inj hs
    exact Relation.ReflTransGen.refl
  | cons c cmds ih =>
    intro s hP hs
    rw [execAll, List.foldlM_cons] at hs
    obtain ⟨s₁, hs₁, hs⟩ := Option.bind_eq_some_iff.mp hs
    exact Relation.ReflTransGen.head ⟨c, hP s c List.mem_cons_self, hs₁⟩
      (ih (fun s c hc => hP s c (List.mem_cons_of_mem _ hc)) hs)

/-- `a.so` has exported something and is stopped when `b.so` imports it. Then `a.so` can be
unloaded, and it is `b.so` that has its address. -/
theorem not_use_counted_stopped_import :
    ∃ s, Reaches (fun _ _ => True) (init [] []) s ∧ ¬ s.UseCounted ∧ ¬ s.KeepsImported := by
  refine ⟨_, reaches_execAll [
      .load "a.so" true (some (1, some ⟨1, some [.exportData, .addVar "a"]⟩)),
      .run "a.so" false,
      .load "b.so" true (some (2, some ⟨2, some [.importModule "a.so", .addVar "b"]⟩))]
    (fun _ _ _ => trivial) rfl, fun h => ?_, fun h => ?_⟩
  · obtain ⟨-, hcount, -⟩ := h (by decide) 0 _ rfl
    revert hcount
    decide
  · exact h "a.so" _ rfl 0 _ rfl 1 _ rfl (by decide)

theorem use_counting_import : ∃ s, Reaches StepOk (init [] []) s ∧ s.modules.get? 1 ≠ none ∧
    s.UseCounted ∧ s.KeepsImported ∧ ∀ c, s.exec c ≠ none := by
  have h : Reaches StepOk (init [] []) _ := Relation.ReflTransGen.head
    ⟨.load "a.so" true (some (1, some ⟨1, some [.exportData, .addVar "a"]⟩)), by
      intro acts hacts
      obtain rfl := Option.some.inj hacts
      decide, rfl⟩ <| Relation.ReflTransGen.single
    ⟨.load "b.so" true (some (2, some ⟨2, some [.importModule "a.so", .addVar "b"]⟩)), by
      intro acts hacts
      obtain rfl := Option.some.inj hacts
      decide, rfl⟩
  exact ⟨_, h, by decide, use_counting [] [] h⟩

end Modules

end Mbb
