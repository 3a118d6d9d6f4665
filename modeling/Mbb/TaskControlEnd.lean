import Mathlib.Algebra.GroupWithZero.Nat
import Mathlib.Algebra.Order.BigOperators.Group.List
import Mathlib.Algebra.Order.Group.Nat
import Mbb.TaskControlRun

/-!
# The end of tasks

From every state that is reached the sessions can leave the lock, and a task that one of them
cancels then can free itself. Once a task has been cancelled, or stopped for good, it begins at most
one more step of its work.
-/

namespace Mbb

/-- How many statements a session has still to go. -/
def SessionPc.rank : SessionPc → ℕ
  | .idle => 0
  | .leave => 1
  | .unlock => 2
  | .signal => 3
  | .set _ => 4
  | .test _ => 5
  | .lock _ => 6
  | .setCancel => 7
  | .lookup _ => 8

/-- How many statements the task has the mutex for. -/
def TaskPc.mutexRank : TaskPc → ℕ
  | .check _ => 2
  | .unlock _ => 1
  | _ => 0

/-- How many statements a task that has been cancelled has still to go, if its hook gives up. -/
def TaskPc.endRank : TaskPc → ℕ
  | .gone => 0
  | .release => 1
  | .free => 2
  | .init => 3
  | .fini => 3
  | .work => 4
  | .call => 5
  | .test _ => 6
  | .unlock _ => 7
  | .check _ => 8
  | .asleep _ => 9
  | .awake _ => 9
  | .lock _ => 9
  | .poll _ => 10

/-- The session is about to let the task run. -/
def SessionPc.Raises : SessionPc → Prop
  | .lookup .run => True
  | .lock c => c.target = true
  | .test c => c.target = true
  | .set c => c.target = true
  | _ => False

namespace TaskControl

variable {s s' t : TaskControl} {k : ℕ}

/-! ## Sessions leave the lock

A rank of the sessions falls with each step, until none has the lock.
-/

/-- What sessions and the task have to go until nobody has a lock. -/
def drainRank (s : TaskControl) : ℕ :=
  (s.readers.map fun k => (s.session k).rank).sum + s.task.mutexRank

/-- What a statement of a session does. -/
theorem sessionStep_spec (hs : s.sessionStep k = some t) : ∃ pc,
    t.session = Function.update s.session k pc ∧ pc.rank < (s.session k).rank ∧
      (t.readers = s.readers ∨ t.readers = s.readers.erase k) ∧
      t.task.mutexRank = s.task.mutexRank ∧ t.creator = s.creator ∧
      (s.cancel = true → t.cancel = true) := by
  cases hk : s.session k with
  | idle =>
    simp only [sessionStep, hk] at hs
    cases hs
  | lookup c =>
    simp only [sessionStep, hk, Option.some.injEq] at hs
    subst hs
    refine ⟨_, rfl, ?_, .inl rfl, rfl, rfl, id⟩
    split
    · simp [SessionPc.rank]
    · split <;> simp [SessionPc.rank]
  | setCancel =>
    simp only [sessionStep, hk, Option.some.injEq] at hs
    subst hs
    exact ⟨_, rfl, by decide, .inl rfl, rfl, rfl, fun _ => rfl⟩
  | lock c =>
    simp only [sessionStep, hk, Option.ite_none_right_eq_some, Option.some.injEq] at hs
    obtain ⟨-, rfl⟩ := hs
    exact ⟨_, rfl, Nat.lt_succ_self _, .inl rfl, rfl, rfl, id⟩
  | test c =>
    simp only [sessionStep, hk, Option.some.injEq] at hs
    subst hs
    refine ⟨_, rfl, ?_, .inl rfl, rfl, rfl, id⟩
    split <;> simp [SessionPc.rank]
  | set c =>
    simp only [sessionStep, hk, Option.some.injEq] at hs
    subst hs
    refine ⟨_, rfl, ?_, .inl rfl, rfl, rfl, id⟩
    split <;> simp [SessionPc.rank]
  | signal =>
    simp only [sessionStep, hk, Option.some.injEq] at hs
    subst hs
    refine ⟨_, rfl, by decide, .inl rfl, ?_, rfl, id⟩
    change s.woken.mutexRank = s.task.mutexRank
    rw [woken]
    split
    · rename_i c hc
      rw [hc]
      rfl
    · rfl
  | unlock =>
    simp only [sessionStep, hk, Option.some.injEq] at hs
    subst hs
    exact ⟨_, rfl, by decide, .inl rfl, rfl, rfl, id⟩
  | leave =>
    simp only [sessionStep, hk, Option.some.injEq] at hs
    subst hs
    exact ⟨_, rfl, by decide, .inr rfl, rfl, rfl, id⟩

/-- One of the ranks goes down. -/
theorem sum_update_lt {l : List ℕ} {pcs : ℕ → SessionPc} {pc : SessionPc} (hk : k ∈ l)
    (hl : l.Nodup) (hpc : pc.rank < (pcs k).rank) :
    (l.map fun k' => (Function.update pcs k pc k').rank).sum <
      (l.map fun k' => (pcs k').rank).sum := by
  have hperm := List.perm_cons_erase hk
  rw [(hperm.map _).sum_eq, (hperm.map fun k' => (pcs k').rank).sum_eq]
  have hrest : (l.erase k).map (fun k' => (Function.update pcs k pc k').rank) =
      (l.erase k).map fun k' => (pcs k').rank := by
    refine List.map_congr_left fun k' hk' => ?_
    rw [Function.update_of_ne (hl.mem_erase_iff.mp hk').1]
  rw [List.map_cons, List.map_cons, List.sum_cons, List.sum_cons, hrest, Function.update_self]
  exact Nat.add_lt_add_right hpc _

theorem drainRank_session (h : s.Inv) (hidle : s.session k ≠ .idle)
    (hs : s.sessionStep k = some t) : t.drainRank < s.drainRank := by
  obtain ⟨pc, hsession, hrank, hreaders, hmutex, -⟩ := sessionStep_spec hs
  have hlt := sum_update_lt ((h.readers k).mpr hidle) h.nodup hrank
  rw [drainRank, drainRank, hmutex, hsession]
  refine Nat.add_lt_add_right (lt_of_le_of_lt ?_ hlt) _
  rcases hreaders with hreaders | hreaders
  · rw [hreaders]
  · rw [hreaders]
    exact ((List.erase_sublist).map _).sum_le_sum (by simp)

/-- The task lets the mutex go. -/
theorem exists_taskStep_of_hasMutex (hmutex : s.task.HasMutex) : ∃ t, s.taskStep false = some t ∧
    t.drainRank < s.drainRank ∧ t.creator = s.creator ∧ (s.cancel = true → t.cancel = true) := by
  cases htask : s.task with
  | check c =>
    simp only [taskStep, htask]
    split
    · exact ⟨_, rfl, by simp [drainRank, htask, TaskPc.mutexRank], rfl, id⟩
    · exact ⟨_, rfl, by simp [drainRank, htask, TaskPc.mutexRank], rfl, id⟩
  | unlock c =>
    simp only [taskStep, htask]
    exact ⟨_, rfl, by simp [drainRank, htask, TaskPc.mutexRank], rfl, id⟩
  | _ =>
    rw [htask] at hmutex
    exact hmutex.elim

/-- All sessions leave the lock. -/
theorem Inv.drain (h : s.Inv) : ∃ acts t, Run s acts t ∧ t.readers = [] ∧ t.creator = s.creator ∧
    (s.cancel = true → t.cancel = true) := by
  induction hn : s.drainRank using Nat.strong_induction_on generalizing s with
  | _ n ih =>
    subst hn
    cases hreaders : s.readers with
    | nil => exact ⟨[], s, .nil s, hreaders, rfl, id⟩
    | cons k readers =>
      have hidle : s.session k ≠ .idle :=
        (h.readers k).mp (by rw [hreaders]; exact List.mem_cons_self)
      rcases h.progress hidle with ⟨k', t, hk', ht⟩ | hmutex
      · obtain ⟨-, -, -, -, -, hcreator, hcancel⟩ := sessionStep_spec ht
        obtain ⟨acts, u, hrun, hu, hcreator', hcancel'⟩ :=
          ih _ (drainRank_session h hk' ht) (h.session ht) rfl
        exact ⟨_, u, (Run.one (a := .session k') ht).trans hrun, hu, hcreator'.trans hcreator,
          fun hc => hcancel' (hcancel hc)⟩
      · obtain ⟨t, ht, hlt, hcreator, hcancel⟩ := exists_taskStep_of_hasMutex hmutex
        obtain ⟨acts, u, hrun, hu, hcreator', hcancel'⟩ := ih _ hlt (h.task ht) rfl
        exact ⟨_, u, (Run.one (a := .task false) ht).trans hrun, hu, hcreator'.trans hcreator,
          fun hc => hcancel' (hcancel hc)⟩

/-! ## The task frees itself

With the lock free the task gets it, sees that it is cancelled and ends.
-/

/-- No session is in a command. -/
theorem Inv.idle (h : s.Inv) (hreaders : s.readers = []) (k : ℕ) : s.session k = .idle := by
  by_contra hne
  have hmem := (h.readers k).mpr hne
  rw [hreaders] at hmem
  cases hmem

/-- A task that has been cancelled does not sleep then, and has the mutex when it wants it. -/
theorem Inv.exists_taskStep (h : s.Inv) (hreaders : s.readers = [])
    (hcancel : s.cancel = true ∨ s.task.Left) (hgone : s.task ≠ .gone) :
    ∃ t, s.taskStep false = some t ∧ t.task.endRank < s.task.endRank ∧ t.readers = [] ∧
      (t.cancel = true ∨ t.task.Left) ∧ t.creator = s.creator := by
  have hidle := h.idle hreaders
  have hnone : ¬ s.task.HasMutex → s.mutex = none := by
    intro hnot
    cases hm : s.mutex with
    | none => rfl
    | some o =>
      cases o with
      | task => exact absurd (h.mutexTask.mp hm) hnot
      | session k =>
        have hk := (h.mutexSession k).mp hm
        rw [hidle k] at hk
        exact hk.elim
  have hcancelled : ¬ s.task.Left → s.cancel = true := fun hnot => hcancel.resolve_right hnot
  cases htask : s.task with
  | gone => exact absurd htask hgone
  | release =>
    simp only [taskStep, htask]
    exact ⟨_, rfl, by simp [TaskPc.endRank], hreaders, .inr trivial, rfl⟩
  | free =>
    simp only [taskStep, htask, if_pos hreaders]
    exact ⟨_, rfl, by simp [TaskPc.endRank], hreaders, .inr trivial, rfl⟩
  | asleep c =>
    have hc := hcancelled (by simp [htask, TaskPc.Left])
    rcases h.asleepCancel c htask hc with hrun | ⟨k, hk⟩
    · obtain ⟨k, hk⟩ := h.asleepRun c htask hrun
      rw [hidle k] at hk
      cases hk
    · rw [hidle k] at hk
      exact hk.elim
  | check c =>
    have hc := hcancelled (by simp [htask, TaskPc.Left])
    simp only [taskStep, htask, hc, Bool.not_true, Bool.and_false]
    exact ⟨_, rfl, by simp [TaskPc.endRank], hreaders, .inl rfl, rfl⟩
  | lock c =>
    have hc := hcancelled (by simp [htask, TaskPc.Left])
    simp only [taskStep, htask, if_pos (hnone (by simp [htask, TaskPc.HasMutex]))]
    exact ⟨_, rfl, by simp [TaskPc.endRank], hreaders, .inl hc, rfl⟩
  | awake c =>
    have hc := hcancelled (by simp [htask, TaskPc.Left])
    simp only [taskStep, htask, if_pos (hnone (by simp [htask, TaskPc.HasMutex]))]
    exact ⟨_, rfl, by simp [TaskPc.endRank], hreaders, .inl hc, rfl⟩
  | poll c =>
    have hc := hcancelled (by simp [htask, TaskPc.Left])
    simp only [taskStep, htask]
    refine ⟨_, rfl, ?_, hreaders, .inl hc, rfl⟩
    split <;> simp [TaskPc.endRank]
  | test c =>
    have hc := hcancelled (by simp [htask, TaskPc.Left])
    cases c with
    | loop =>
      simp only [taskStep, htask, hc, if_true]
      exact ⟨_, rfl, by simp [TaskPc.endRank], hreaders, .inl rfl, rfl⟩
    | work =>
      simp only [taskStep, htask]
      exact ⟨_, rfl, by simp [TaskPc.endRank], hreaders, .inl hc, rfl⟩
  | _ =>
    have hc := hcancelled (by simp [htask, TaskPc.Left])
    simp only [taskStep, htask]
    exact ⟨_, rfl, by simp [TaskPc.endRank], hreaders, .inl hc, rfl⟩

theorem Inv.finish (h : s.Inv) (hreaders : s.readers = [])
    (hcancel : s.cancel = true ∨ s.task.Left) :
    ∃ acts t, Run s acts t ∧ t.freed = true ∧ t.creator = s.creator := by
  induction hn : s.task.endRank using Nat.strong_induction_on generalizing s with
  | _ n ih =>
    subst hn
    by_cases hgone : s.task = .gone
    · exact ⟨[], s, .nil s, h.freed.mpr hgone, rfl⟩
    · obtain ⟨t, ht, hlt, hr, hc, hcreator⟩ := h.exists_taskStep hreaders hcancel hgone
      obtain ⟨acts, u, hrun, hfreed, hcreator'⟩ := ih _ hlt (h.task ht) hr hc rfl
      exact ⟨_, u, (Run.one (a := .task false) ht).trans hrun, hfreed, hcreator'.trans hcreator⟩

/-- A session cancels the task. -/
theorem Inv.exists_cancel (h : s.Inv) (hreaders : s.readers = []) (hlisted : s.listed = true) :
    ∃ acts t, Run s acts t ∧ t.cancel = true ∧ t.creator = s.creator := by
  obtain ⟨t₁, h₁, hk₁, hl₁, hc₁⟩ : ∃ t, s.step (.enter 0 .cancel) = some t ∧
      t.session 0 = .lookup .cancel ∧ t.listed = true ∧ t.creator = s.creator := by
    rw [TaskControl.step, h.idle hreaders 0]
    exact ⟨_, rfl, goto_self (s := s) (k := 0) _, hlisted, rfl⟩
  obtain ⟨t₂, h₂, hk₂, hc₂⟩ : ∃ t, t₁.step (.session 0) = some t ∧ t.session 0 = .setCancel ∧
      t.creator = t₁.creator := by
    rw [TaskControl.step, sessionStep, hk₁, hl₁]
    exact ⟨_, rfl, goto_self _, rfl⟩
  obtain ⟨t₃, h₃, hcancel, hc₃⟩ : ∃ t, t₂.step (.session 0) = some t ∧ t.cancel = true ∧
      t.creator = t₂.creator := by
    rw [TaskControl.step, sessionStep, hk₂]
    exact ⟨_, rfl, rfl, rfl⟩
  exact ⟨_, t₃, ((Run.one h₁).snoc h₂).snoc h₃, hcancel, hc₃.trans (hc₂.trans hc₁)⟩

/-- **Sessions do not touch a task that has been freed**, and from every state it can be freed. It
can be freed, too, before the session that has made it has read its id. -/
theorem task_freed {acts : List TaskAct} (h : Run init acts s) :
    (s.freed = true → s.task = .gone ∧ ∀ k, ¬ (s.session k).Uses) ∧
      ∃ acts' t, Run s acts' t ∧ t.freed = true ∧ t.creator = s.creator := by
  have hinv := h.inv inv_init
  constructor
  · intro hfreed
    have hgone := hinv.freed.mp hfreed
    refine ⟨hgone, fun k hk => ?_⟩
    exact hinv.listed.mp (hinv.uses k hk) (by rw [hgone]; trivial)
  · obtain ⟨acts₁, t₁, h₁, hreaders₁, hc₁, -⟩ := hinv.drain
    have hinv₁ := h₁.inv hinv
    by_cases hlisted : t₁.listed = true
    · obtain ⟨acts₂, t₂, h₂, hcancel₂, hc₂⟩ := hinv₁.exists_cancel hreaders₁ hlisted
      have hinv₂ := h₂.inv hinv₁
      obtain ⟨acts₃, t₃, h₃, hreaders₃, hc₃, hcancel₃⟩ := hinv₂.drain
      obtain ⟨acts₄, t₄, h₄, hfreed, hc₄⟩ :=
        (h₃.inv hinv₂).finish hreaders₃ (.inl (hcancel₃ hcancel₂))
      exact ⟨_, t₄, ((h₁.trans h₂).trans h₃).trans h₄, hfreed,
        hc₄.trans (hc₃.trans (hc₂.trans hc₁))⟩
    · have hleft : t₁.task.Left := by
        by_contra hnot
        exact hlisted (hinv₁.listed.mpr hnot)
      obtain ⟨acts₂, t₂, h₂, hfreed, hc₂⟩ := hinv₁.finish hreaders₁ (.inr hleft)
      exact ⟨_, t₂, h₁.trans h₂, hfreed, hc₂.trans hc₁⟩

/-- The work is over at once, and the session that has made the task is late. -/
theorem task_freed_early : ∃ s, Run init [.task true, .task true, .task false, .task true,
    .task true, .task true] s ∧ s.creator = true ∧ s.freed = true ∧ ∀ k, ¬ (s.session k).Uses := by
  have run : Run init [.task true, .task true, .task false, .task true, .task true, .task true] _ :=
    run_foldlM _ rfl
  exact ⟨_, run, rfl, rfl, ((task_freed run).1 rfl).2⟩

/-! ## What is still begun

Once the flag is set the task tests it before each step of its work; it may have tested it before.
-/

/-- The task has been cancelled, or stopped and nobody is about to let it run. -/
def Halted (s : TaskControl) : Prop :=
  s.cancel = true ∨ s.run = false ∧ ∀ k, ¬ (s.session k).Raises

/-- How often the work can still be called. -/
def callsLeft (s : TaskControl) : ℕ :=
  match s.task with
  | .init => 1
  | .call => 1
  | .unlock .loop => if s.cancel then 0 else 1
  | .test .loop => if s.cancel then 0 else 1
  | _ => 0

/-- A statement of the task uses up calls, and leaves `run` and `cancel`. -/
theorem taskStep_calls (h : s.Halted) {b : Bool} (hs : s.taskStep b = some t) :
    t.calls + t.callsLeft ≤ s.calls + s.callsLeft ∧ t.run = s.run ∧ t.cancel = s.cancel ∧
      t.session = s.session ∧ (s.cancel = true → ∀ c, t.task ≠ .asleep c) := by
  have hrun : s.run = true → s.cancel = true := by
    intro hrun
    refine h.resolve_right fun hstopped => ?_
    rw [hrun] at hstopped
    cases hstopped.1
  cases htask : s.task with
  | init =>
    simp only [taskStep, htask, Option.some.injEq] at hs
    subst hs
    cases b
    · simp [callsLeft]
    · simp [callsLeft, htask]
  | call =>
    simp only [taskStep, htask, Option.some.injEq] at hs
    subst hs
    simp [callsLeft, htask]
  | work =>
    simp only [taskStep, htask, Option.some.injEq] at hs
    subst hs
    cases b
    · simp [callsLeft]
    · simp [callsLeft]
  | poll c =>
    simp only [taskStep, htask, Option.some.injEq] at hs
    subst hs
    cases hr : s.run with
    | false => simp [callsLeft]
    | true => cases c <;> simp [callsLeft, hrun hr]
  | lock c =>
    simp only [taskStep, htask, Option.ite_none_right_eq_some, Option.some.injEq] at hs
    obtain ⟨-, rfl⟩ := hs
    simp [callsLeft]
  | awake c =>
    simp only [taskStep, htask, Option.ite_none_right_eq_some, Option.some.injEq] at hs
    obtain ⟨-, rfl⟩ := hs
    simp [callsLeft]
  | check c =>
    simp only [taskStep, htask] at hs
    split at hs
    · rename_i hstopped
      obtain rfl := Option.some.inj hs
      have hcancel : s.cancel = false := by simpa using (Bool.and_eq_true_iff.mp hstopped).2
      simp [callsLeft, hcancel]
    · rename_i hgo
      obtain rfl := Option.some.inj hs
      have hcancel : s.cancel = true := by
        cases hr : s.run with
        | true => exact hrun hr
        | false => simpa [hr] using hgo
      cases c <;> simp [callsLeft, hcancel]
  | asleep c =>
    simp only [taskStep, htask] at hs
    cases hs
  | unlock c =>
    simp only [taskStep, htask, Option.some.injEq] at hs
    subst hs
    cases c <;> simp [callsLeft, htask]
  | test c =>
    cases c with
    | loop =>
      simp only [taskStep, htask, Option.some.injEq] at hs
      subst hs
      cases hc : s.cancel <;> simp [callsLeft, htask, hc]
    | work =>
      simp only [taskStep, htask, Option.some.injEq] at hs
      subst hs
      simp [callsLeft]
  | fini =>
    simp only [taskStep, htask, Option.some.injEq] at hs
    subst hs
    simp [callsLeft]
  | free =>
    simp only [taskStep, htask, Option.ite_none_right_eq_some, Option.some.injEq] at hs
    obtain ⟨-, rfl⟩ := hs
    simp [callsLeft]
  | release =>
    simp only [taskStep, htask, Option.some.injEq] at hs
    subst hs
    simp [callsLeft]
  | gone =>
    simp only [taskStep, htask] at hs
    cases hs

theorem callsLeft_woken (s : TaskControl) :
    callsLeft { s with task := s.woken } = s.callsLeft := by
  rw [callsLeft, callsLeft, woken]
  cases s.task <;> rfl

theorem callsLeft_cancel (s : TaskControl) :
    callsLeft { s with cancel := true } ≤ s.callsLeft := by
  rw [callsLeft, callsLeft]
  cases s.task with
  | unlock c => cases c <;> simp
  | test c => cases c <;> simp
  | _ => exact Nat.le_refl _

theorem woken_eq_asleep {c : PollFrom} (hc : s.woken = .asleep c) : s.task = .asleep c :=
  absurd hc (s.woken_spec.1 c)

theorem Halted.goto (h : s.Halted) (pc : SessionPc)
    (hpc : pc.Raises → s.cancel = true ∨ (s.session k).Raises) : (s.goto k pc).Halted := by
  rcases h with hcancel | ⟨hrun, hraises⟩
  · exact .inl hcancel
  by_cases hnew : pc.Raises
  · rcases hpc hnew with hcancel | hold
    · exact .inl hcancel
    · exact absurd hold (hraises k)
  · refine .inr ⟨hrun, fun k' => ?_⟩
    by_cases hk : k' = k
    · subst hk
      rwa [goto_self]
    · rw [goto_ne hk]
      exact hraises k'

/-- A session goes on: it does not let the task run, unless that has been cancelled. -/
theorem Halted.session (h : s.Halted) (hs : s.sessionStep k = some t) :
    t.Halted ∧ t.calls = s.calls ∧ t.callsLeft ≤ s.callsLeft ∧
      ∀ c, t.task = .asleep c → s.task = .asleep c := by
  cases hk : s.session k with
  | idle =>
    simp only [sessionStep, hk] at hs
    cases hs
  | lookup c =>
    simp only [sessionStep, hk, Option.some.injEq] at hs
    subst hs
    refine ⟨h.goto _ fun hpc => .inr ?_, rfl, Nat.le_refl _, fun _ => id⟩
    rw [hk]
    split at hpc
    · exact hpc.elim
    · split at hpc
      · exact hpc.elim
      · cases c
        · trivial
        · cases hpc
        · contradiction
  | setCancel =>
    simp only [sessionStep, hk, Option.some.injEq] at hs
    subst hs
    exact ⟨.inl rfl, rfl, callsLeft_cancel s, fun _ => id⟩
  | lock c =>
    simp only [sessionStep, hk, Option.ite_none_right_eq_some, Option.some.injEq] at hs
    obtain ⟨-, rfl⟩ := hs
    exact ⟨h.goto _ fun hpc => .inr (hk ▸ hpc), rfl, Nat.le_refl _, fun _ => id⟩
  | test c =>
    simp only [sessionStep, hk, Option.some.injEq] at hs
    subst hs
    refine ⟨h.goto _ fun hpc => .inr ?_, rfl, Nat.le_refl _, fun _ => id⟩
    rw [hk]
    split at hpc
    · exact hpc.elim
    · exact hpc
  | set c =>
    simp only [sessionStep, hk, Option.some.injEq] at hs
    subst hs
    refine ⟨?_, rfl, Nat.le_refl _, fun _ => id⟩
    rcases h with hcancel | ⟨hrun, hraises⟩
    · exact .inl hcancel
    have hstop : c.target = false := by
      have hk' := hraises k
      rw [hk] at hk'
      exact Bool.eq_false_iff.mpr hk'
    have hstopped : Halted s := .inr ⟨hrun, hraises⟩
    rw [hstop]
    rcases hstopped.goto (k := k) .unlock False.elim with hcancel | ⟨-, hothers⟩
    · exact .inl hcancel
    · exact .inr ⟨rfl, hothers⟩
  | signal =>
    simp only [sessionStep, hk, Option.some.injEq] at hs
    subst hs
    exact ⟨h.goto (k := k) .unlock False.elim, rfl, Nat.le_of_eq s.callsLeft_woken,
      fun _ => woken_eq_asleep⟩
  | unlock =>
    simp only [sessionStep, hk, Option.some.injEq] at hs
    subst hs
    exact ⟨h.goto (k := k) .leave False.elim, rfl, Nat.le_refl _, fun _ => id⟩
  | leave =>
    simp only [sessionStep, hk, Option.some.injEq] at hs
    subst hs
    exact ⟨h.goto (k := k) .idle False.elim, rfl, Nat.le_refl _, fun _ => id⟩

/-- One step uses up calls. -/
theorem Halted.step (h : s.Halted) {a : TaskAct} (hs : s.step a = some t)
    (ha : s.cancel = true ∨ ∀ k, a ≠ .enter k .run) :
    t.Halted ∧ t.calls + t.callsLeft ≤ s.calls + s.callsLeft ∧
      (s.cancel = true → t.cancel = true ∧ ∀ c, t.task = .asleep c → s.task = .asleep c) := by
  cases a with
  | task b =>
    obtain ⟨hcalls, hrun, hcancel, hsession, hasleep⟩ := taskStep_calls h hs
    refine ⟨?_, hcalls, fun hc => ⟨hcancel.trans hc, fun c hc' => absurd hc' (hasleep hc c)⟩⟩
    rw [Halted, hrun, hcancel, hsession]
    exact h
  | pollState =>
    rw [TaskControl.step] at hs
    split at hs
    · rename_i htask
      obtain rfl := Option.some.inj hs
      exact ⟨h, by simp [callsLeft], fun hc => ⟨hc, by simp⟩⟩
    · cases hs
  | wake =>
    obtain rfl := Option.some.inj hs
    exact ⟨h, Nat.le_of_eq (congrArg (s.calls + ·) s.callsLeft_woken),
      fun hc => ⟨hc, fun _ => woken_eq_asleep⟩⟩
  | enter k c =>
    rw [TaskControl.step] at hs
    split at hs
    · rename_i hk
      obtain rfl := Option.some.inj hs
      refine ⟨h.goto (k := k) (.lookup c) fun hpc => .inl ?_, Nat.le_refl _,
        fun hc => ⟨hc, fun _ => id⟩⟩
      cases c
      · exact ha.resolve_right fun hne => hne k rfl
      · exact hpc.elim
      · exact hpc.elim
    · cases hs
  | session k =>
    obtain ⟨hhalted, hcalls, hleft, hasleep⟩ := h.session hs
    obtain ⟨-, -, -, -, -, -, hcancel⟩ := sessionStep_spec hs
    exact ⟨hhalted, hcalls ▸ Nat.add_le_add_left hleft _, fun hc => ⟨hcancel hc, hasleep⟩⟩
  | created =>
    obtain ⟨-, hs⟩ := Option.ite_none_right_eq_some.mp hs
    obtain rfl := Option.some.inj hs
    exact ⟨h, Nat.le_refl _, fun hc => ⟨hc, fun _ => id⟩⟩

theorem Run.halted {acts : List TaskAct} (h : Run s acts t) (hs : s.Halted)
    (hacts : s.cancel = true ∨ ∀ k, .enter k .run ∉ acts) :
    t.Halted ∧ t.calls + t.callsLeft ≤ s.calls + s.callsLeft ∧
      (s.cancel = true → t.cancel = true ∧ ∀ c, t.task = .asleep c → s.task = .asleep c) := by
  induction h with
  | nil => exact ⟨hs, Nat.le_refl _, fun hc => ⟨hc, fun _ => id⟩⟩
  | @snoc t t' acts a hrun ha ih =>
    have hbefore : s.cancel = true ∨ ∀ k, .enter k .run ∉ acts := hacts.imp id
      fun hne k hmem => hne k (List.mem_append_left _ hmem)
    obtain ⟨hhalted, hcalls, hcancel⟩ := ih hbefore
    have hlast : t.cancel = true ∨ ∀ k, a ≠ .enter k .run := by
      rcases hacts with hc | hne
      · exact .inl (hcancel hc).1
      · refine .inr fun k heq => hne k (List.mem_append_right _ ?_)
        rw [heq]
        exact List.mem_singleton.mpr rfl
    obtain ⟨hhalted', hcalls', hcancel'⟩ := hhalted.step ha hlast
    refine ⟨hhalted', hcalls'.trans hcalls, fun hc => ?_⟩
    obtain ⟨hc', hasleep⟩ := hcancel hc
    obtain ⟨hc'', hasleep'⟩ := hcancel' hc'
    exact ⟨hc'', fun c hm => hasleep c (hasleep' c hm)⟩

theorem callsLeft_le_one (s : TaskControl) : s.callsLeft ≤ 1 := by
  rw [callsLeft]
  split
  · exact Nat.le_refl _
  · exact Nat.le_refl _
  · split <;> simp
  · split <;> simp
  · simp

/-- **Cancelling and stopping**: from the moment a task has been cancelled, or stopped with nobody
about to let it run again, its work is called at most once more; and a task that has been cancelled
does not go to sleep. -/
theorem task_halts {acts : List TaskAct} (h : Run s acts t) :
    (s.cancel = true → t.calls ≤ s.calls + 1 ∧ ∀ c, t.task = .asleep c → s.task = .asleep c) ∧
      (s.run = false → (∀ k, ¬ (s.session k).Raises) → (∀ k, .enter k .run ∉ acts) →
        t.calls ≤ s.calls + 1) := by
  have hle : t.calls + t.callsLeft ≤ s.calls + s.callsLeft → t.calls ≤ s.calls + 1 := fun hcalls =>
    (Nat.le_add_right _ _).trans (hcalls.trans (Nat.add_le_add_left s.callsLeft_le_one _))
  constructor
  · intro hcancel
    obtain ⟨-, hcalls, hasleep⟩ := h.halted (.inl hcancel) (.inl hcancel)
    exact ⟨hle hcalls, (hasleep hcancel).2⟩
  · intro hrun hraises hacts
    exact hle (h.halted (.inr ⟨hrun, hraises⟩) (.inr hacts)).2.1

/-- The work is called after the task has been cancelled. -/
theorem task_halts_called : ∃ s, Run init [.task true, .enter 0 .cancel, .session 0, .session 0] s ∧
    s.cancel = true ∧ ∃ t, Run s [.task true, .task true, .task true, .task true] t ∧
      t.calls = 1 ∧ t.calls ≤ s.calls + 1 := by
  have run : Run init [.task true, .enter 0 .cancel, .session 0, .session 0] _ :=
    run_foldlM _ rfl
  refine ⟨_, run, rfl, Exists.imp (fun t (h : Run _ [.task true, .task true, .task true,
    .task true] t ∧ t.calls = 1) => ⟨h.1, h.2, ((task_halts h.1).1 rfl).1⟩) ?_⟩
  exact ⟨_, run_foldlM _ rfl, rfl⟩

end TaskControl

end Mbb
