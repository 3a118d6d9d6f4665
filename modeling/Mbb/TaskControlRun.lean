import Mbb.TaskControl

/-!
# Tasks that are run, stopped and cancelled

Sessions find a task in the table only as long as it has not been freed; no wakeup is lost between
them and the task; and a task that has been stopped or cancelled begins at most one more step of
its work.
-/

namespace Mbb

namespace TaskPc

/-- The task has its mutex. -/
def HasMutex : TaskPc → Prop
  | .check _ => True
  | .unlock _ => True
  | _ => False

/-- The task has left the table. -/
def Left : TaskPc → Prop
  | .release => True
  | .gone => True
  | _ => False

end TaskPc

namespace SessionPc

/-- The session has the mutex of the task. -/
def HasMutex : SessionPc → Prop
  | .test _ => True
  | .set _ => True
  | .signal => True
  | .unlock => True
  | _ => False

/-- The session is about to read or write the task. -/
def Uses : SessionPc → Prop
  | .setCancel => True
  | .lock _ => True
  | .test _ => True
  | .set _ => True
  | .signal => True
  | .unlock => True
  | _ => False

/-- The session has set `cancel`, and not yet looked whether the task sleeps. -/
def Cancelling : SessionPc → Prop
  | .lock .cancel => True
  | .test .cancel => True
  | .set .cancel => True
  | _ => False

end SessionPc

namespace TaskControl

variable {s s' : TaskControl} {k : ℕ}

/-- What holds in every state. -/
structure Inv (s : TaskControl) : Prop where
  /-- the reader lock -/
  readers : ∀ k, k ∈ s.readers ↔ s.session k ≠ .idle
  /-- it is not taken twice -/
  nodup : s.readers.Nodup
  /-- the table -/
  listed : s.listed = true ↔ ¬ s.task.Left
  /-- what is freed is over -/
  freed : s.freed = true ↔ s.task = .gone
  /-- sessions have what is in the table -/
  uses : ∀ k, (s.session k).Uses → s.listed = true
  /-- who has the mutex -/
  mutexTask : s.mutex = some .task ↔ s.task.HasMutex
  /-- who has it -/
  mutexSession : ∀ k, s.mutex = some (.session k) ↔ (s.session k).HasMutex
  /-- a task that sleeps and is to run will be woken -/
  asleepRun : ∀ c, s.task = .asleep c → s.run = true → ∃ k, s.session k = .signal
  /-- so will one that has been cancelled -/
  asleepCancel : ∀ c, s.task = .asleep c → s.cancel = true →
    s.run = true ∨ ∃ k, (s.session k).Cancelling

theorem inv_init : init.Inv where
  readers k := by simp [init]
  nodup := List.nodup_nil
  listed := by simp [init, TaskPc.Left]
  freed := by simp [init]
  uses k hk := rfl
  mutexTask := by simp [init, TaskPc.HasMutex]
  mutexSession k := by simp [init, SessionPc.HasMutex]
  asleepRun c hc := by cases hc
  asleepCancel c hc := by cases hc

/-! ## The task -/

/-- The task goes on, and stays in the table. -/
theorem Inv.moveTask (h : s.Inv) {pc : TaskPc} {mutex : Option TaskThread} {calls : ℕ}
    (htask : mutex = some .task ↔ pc.HasMutex)
    (hsession : ∀ k, mutex = some (.session k) ↔ s.mutex = some (.session k))
    (hleft : ¬ s.task.Left) (hpc : ¬ pc.Left)
    (hasleep : ∀ c, pc = .asleep c → s.run = false ∧ s.cancel = false) :
    Inv { s with task := pc, mutex, calls } where
  readers := h.readers
  nodup := h.nodup
  listed := iff_of_true (h.listed.mpr hleft) hpc
  freed := by
    refine h.freed.trans (iff_of_false ?_ ?_)
    · intro heq
      exact hleft (heq ▸ trivial)
    · rintro rfl
      exact hpc trivial
  uses := h.uses
  mutexTask := htask
  mutexSession k := (hsession k).trans (h.mutexSession k)
  asleepRun c hc hrun := by
    rw [(hasleep c hc).1] at hrun
    cases hrun
  asleepCancel c hc hcancel := by
    rw [(hasleep c hc).2] at hcancel
    cases hcancel

/-- The task leaves the table: no session has the reader lock. -/
theorem Inv.free (h : s.Inv) (htask : s.task = .free) (hreaders : s.readers = []) :
    Inv { s with task := .release, listed := false } where
  readers := h.readers
  nodup := h.nodup
  listed := by simp [TaskPc.Left]
  freed := by simpa [htask] using h.freed
  uses k hk := by
    have hidle : s.session k = .idle := by
      by_contra hne
      have hmem := (h.readers k).mpr hne
      rw [hreaders] at hmem
      cases hmem
    rw [hidle] at hk
    exact hk.elim
  mutexTask := by simpa [htask, TaskPc.HasMutex] using h.mutexTask
  mutexSession := h.mutexSession
  asleepRun c hc := by cases hc
  asleepCancel c hc := by cases hc

theorem Inv.release (h : s.Inv) (htask : s.task = .release) :
    Inv { s with task := .gone, freed := true } where
  readers := h.readers
  nodup := h.nodup
  listed := by simpa [htask, TaskPc.Left] using h.listed
  freed := iff_of_true rfl rfl
  uses := h.uses
  mutexTask := by simpa [htask, TaskPc.HasMutex] using h.mutexTask
  mutexSession := h.mutexSession
  asleepRun c hc := by cases hc
  asleepCancel c hc := by cases hc

/-- The task goes on, and the mutex stays with whom it is. -/
theorem Inv.moveTask_same (h : s.Inv) {pc : TaskPc} (hmutex : s.task.HasMutex ↔ pc.HasMutex)
    (hleft : ¬ s.task.Left) (hpc : ¬ pc.Left) (hasleep : ∀ c, pc ≠ .asleep c) (calls : ℕ) :
    Inv { s with task := pc, calls } :=
  h.moveTask (h.mutexTask.trans hmutex) (fun _ => Iff.rfl) hleft hpc
    fun c hc => absurd hc (hasleep c)

/-- It gets the mutex. -/
theorem Inv.acquire (h : s.Inv) {c : PollFrom} (hnone : s.mutex = none) (hleft : ¬ s.task.Left) :
    Inv { s with task := .check c, mutex := some .task } :=
  h.moveTask (by simp [TaskPc.HasMutex]) (by simp [hnone]) hleft id (by simp)

theorem Inv.task (h : s.Inv) {b : Bool} (hs : s.taskStep b = some s') : s'.Inv := by
  cases htask : s.task with
  | init =>
    simp only [taskStep, htask, Option.some.injEq] at hs
    subst hs
    have hleft : ¬ s.task.Left := by simp [htask, TaskPc.Left]
    split
    · exact h.moveTask_same (by simp [htask, TaskPc.HasMutex]) hleft id (by simp) _
    · exact h.moveTask_same (by simp [htask, TaskPc.HasMutex]) hleft id (by simp) _
  | call =>
    simp only [taskStep, htask, Option.some.injEq] at hs
    subst hs
    exact h.moveTask_same (by simp [htask, TaskPc.HasMutex]) (by simp [htask, TaskPc.Left]) id
      (by simp) _
  | work =>
    simp only [taskStep, htask, Option.some.injEq] at hs
    subst hs
    have hleft : ¬ s.task.Left := by simp [htask, TaskPc.Left]
    split
    · exact h.moveTask_same (by simp [htask, TaskPc.HasMutex]) hleft id (by simp) _
    · exact h.moveTask_same (by simp [htask, TaskPc.HasMutex]) hleft id (by simp) _
  | poll c =>
    simp only [taskStep, htask, Option.some.injEq] at hs
    subst hs
    have hleft : ¬ s.task.Left := by simp [htask, TaskPc.Left]
    split
    · exact h.moveTask_same (by simp [htask, TaskPc.HasMutex]) hleft id (by simp) _
    · exact h.moveTask_same (by simp [htask, TaskPc.HasMutex]) hleft id (by simp) _
  | lock c =>
    simp only [taskStep, htask, Option.ite_none_right_eq_some, Option.some.injEq] at hs
    obtain ⟨hnone, rfl⟩ := hs
    exact h.acquire hnone (by simp [htask, TaskPc.Left])
  | awake c =>
    simp only [taskStep, htask, Option.ite_none_right_eq_some, Option.some.injEq] at hs
    obtain ⟨hnone, rfl⟩ := hs
    exact h.acquire hnone (by simp [htask, TaskPc.Left])
  | check c =>
    have hleft : ¬ s.task.Left := by simp [htask, TaskPc.Left]
    have hmine : s.mutex = some .task := h.mutexTask.mpr (by simp [htask, TaskPc.HasMutex])
    simp only [taskStep, htask] at hs
    split at hs
    · rename_i hstopped
      obtain rfl := Option.some.inj hs
      refine h.moveTask (by simp [TaskPc.HasMutex]) (by simp [hmine]) hleft id fun c' _ => ?_
      simpa using hstopped
    · obtain rfl := Option.some.inj hs
      exact h.moveTask_same (by simp [htask, TaskPc.HasMutex]) hleft id (by simp) _
  | asleep c =>
    simp only [taskStep, htask] at hs
    cases hs
  | unlock c =>
    simp only [taskStep, htask, Option.some.injEq] at hs
    subst hs
    have hmine : s.mutex = some .task := h.mutexTask.mpr (by simp [htask, TaskPc.HasMutex])
    exact h.moveTask (by simp [TaskPc.HasMutex]) (by simp [hmine]) (by simp [htask, TaskPc.Left]) id
      (by simp)
  | test c =>
    have hleft : ¬ s.task.Left := by simp [htask, TaskPc.Left]
    cases c with
    | loop =>
      simp only [taskStep, htask, Option.some.injEq] at hs
      subst hs
      split
      · exact h.moveTask_same (by simp [htask, TaskPc.HasMutex]) hleft id (by simp) _
      · exact h.moveTask_same (by simp [htask, TaskPc.HasMutex]) hleft id (by simp) _
    | work =>
      simp only [taskStep, htask, Option.some.injEq] at hs
      subst hs
      exact h.moveTask_same (by simp [htask, TaskPc.HasMutex]) hleft id (by simp) _
  | fini =>
    simp only [taskStep, htask, Option.some.injEq] at hs
    subst hs
    exact h.moveTask_same (by simp [htask, TaskPc.HasMutex]) (by simp [htask, TaskPc.Left]) id
      (by simp) _
  | free =>
    simp only [taskStep, htask, Option.ite_none_right_eq_some, Option.some.injEq] at hs
    obtain ⟨hreaders, rfl⟩ := hs
    exact h.free htask hreaders
  | release =>
    simp only [taskStep, htask, Option.some.injEq] at hs
    subst hs
    exact h.release htask
  | gone =>
    simp only [taskStep, htask] at hs
    cases hs

/-! ## Sessions -/

/-- Another session is where it was. -/
theorem goto_ne {k' : ℕ} (hk : k' ≠ k) (pc : SessionPc) :
    (s.goto k pc).session k' = s.session k' := by
  rw [goto]
  exact Function.update_of_ne hk ..

@[simp] theorem goto_self (pc : SessionPc) : (s.goto k pc).session k = pc := by
  rw [goto]
  exact Function.update_self ..

/-- A session goes on; what it changes does not make the task sleep for good. -/
theorem Inv.moveReaders (h : s.Inv) {pc : SessionPc} {mutex : Option TaskThread} {run cancel : Bool}
    {readers : List ℕ} (hreaders : ∀ k', k' ∈ readers ↔ (s.goto k pc).session k' ≠ .idle)
    (hnodup : readers.Nodup) (huses : pc.Uses → s.listed = true)
    (htask : mutex = some .task ↔ s.mutex = some .task)
    (hmine : mutex = some (.session k) ↔ pc.HasMutex)
    (hothers : ∀ k', k' ≠ k → (mutex = some (.session k') ↔ s.mutex = some (.session k')))
    (hrun : ∀ c, s.task = .asleep c → run = true → ∃ k', (s.goto k pc).session k' = .signal)
    (hcancel : ∀ c, s.task = .asleep c → cancel = true →
      run = true ∨ ∃ k', ((s.goto k pc).session k').Cancelling) :
    Inv { s.goto k pc with mutex, run, cancel, readers } where
  readers := hreaders
  nodup := hnodup
  listed := h.listed
  freed := h.freed
  uses k' hk' := by
    by_cases hk : k' = k
    · subst hk
      exact huses (by simpa using hk')
    · exact h.uses k' (by simpa [goto_ne hk] using hk')
  mutexTask := htask.trans h.mutexTask
  mutexSession k' := by
    by_cases hk : k' = k
    · subst hk
      simpa using hmine
    · simpa [goto_ne hk] using (hothers k' hk).trans (h.mutexSession k')
  asleepRun := hrun
  asleepCancel := hcancel

/-- A session goes on with its command. -/
theorem Inv.moveSession (h : s.Inv) {pc : SessionPc} {mutex : Option TaskThread} {run cancel : Bool}
    (hold : s.session k ≠ .idle) (hpc : pc ≠ .idle) (huses : pc.Uses → s.listed = true)
    (htask : mutex = some .task ↔ s.mutex = some .task)
    (hmine : mutex = some (.session k) ↔ pc.HasMutex)
    (hothers : ∀ k', k' ≠ k → (mutex = some (.session k') ↔ s.mutex = some (.session k')))
    (hrun : ∀ c, s.task = .asleep c → run = true → ∃ k', (s.goto k pc).session k' = .signal)
    (hcancel : ∀ c, s.task = .asleep c → cancel = true →
      run = true ∨ ∃ k', ((s.goto k pc).session k').Cancelling) :
    Inv { s.goto k pc with mutex, run, cancel } := by
  refine h.moveReaders (fun k' => (h.readers k').trans ?_) h.nodup huses htask hmine hothers hrun
    hcancel
  by_cases hk : k' = k
  · subst hk
    simpa [hpc] using hold
  · rw [goto_ne hk]

/-- A session that signals is still there when another one goes on. -/
theorem Inv.signal_goto (h : s.Inv) (hold : s.session k ≠ .signal) (pc : SessionPc) (c : PollFrom)
    (hc : s.task = .asleep c) (hrun : s.run = true) :
    ∃ k', (s.goto k pc).session k' = .signal := by
  obtain ⟨k', hk'⟩ := h.asleepRun c hc hrun
  refine ⟨k', ?_⟩
  rw [goto_ne]
  · exact hk'
  rintro rfl
  exact hold hk'

/-- When a session goes on, there is still one that cancels if the task sleeps and is cancelled,
unless `run` is set. -/
theorem Inv.cancelling_goto (h : s.Inv) {pc : SessionPc}
    (hold : (s.session k).Cancelling → s.run = true ∨ pc.Cancelling) (c : PollFrom)
    (hc : s.task = .asleep c) (hcancel : s.cancel = true) :
    s.run = true ∨ ∃ k', ((s.goto k pc).session k').Cancelling := by
  rcases h.asleepCancel c hc hcancel with hrun | ⟨k', hk'⟩
  · exact .inl hrun
  · by_cases hk : k' = k
    · subst hk
      refine (hold hk').imp id fun hpc => ⟨k', ?_⟩
      rwa [goto_self]
    · refine .inr ⟨k', ?_⟩
      rwa [goto_ne hk]

/-- What a signal leaves as it is. -/
theorem woken_spec (s : TaskControl) : (∀ c, s.woken ≠ .asleep c) ∧
    (s.woken.HasMutex ↔ s.task.HasMutex) ∧ (s.woken.Left ↔ s.task.Left) ∧
    (s.woken = .gone ↔ s.task = .gone) := by
  rw [woken]
  cases s.task <;> simp [TaskPc.HasMutex, TaskPc.Left]

theorem Inv.wake (h : s.Inv) : Inv { s with task := s.woken } where
  readers := h.readers
  nodup := h.nodup
  listed := h.listed.trans (not_congr s.woken_spec.2.2.1.symm)
  freed := h.freed.trans s.woken_spec.2.2.2.symm
  uses := h.uses
  mutexTask := h.mutexTask.trans s.woken_spec.2.1.symm
  mutexSession := h.mutexSession
  asleepRun c hc := absurd hc (s.woken_spec.1 c)
  asleepCancel c hc := absurd hc (s.woken_spec.1 c)

theorem Inv.session (h : s.Inv) (hs : s.sessionStep k = some s') : s'.Inv := by
  have hmine := h.mutexSession k
  have huses := h.uses k
  cases hk : s.session k with
  | idle =>
    simp only [sessionStep, hk] at hs
    cases hs
  | lookup c =>
    simp only [sessionStep, hk, Option.some.injEq] at hs
    subst hs
    rw [hk] at hmine
    split
    · exact h.moveSession (by simp [hk]) (by simp) False.elim Iff.rfl hmine (fun _ _ => Iff.rfl)
        (h.signal_goto (by simp [hk]) _) (h.cancelling_goto (by simp [hk, SessionPc.Cancelling]))
    · rename_i hlisted
      have hlisted : s.listed = true := by simpa using hlisted
      split
      · exact h.moveSession (by simp [hk]) (by simp) (fun _ => hlisted) Iff.rfl hmine
          (fun _ _ => Iff.rfl) (h.signal_goto (by simp [hk]) _)
          (h.cancelling_goto (by simp [hk, SessionPc.Cancelling]))
      · exact h.moveSession (by simp [hk]) (by simp) (fun _ => hlisted) Iff.rfl hmine
          (fun _ _ => Iff.rfl) (h.signal_goto (by simp [hk]) _)
          (h.cancelling_goto (by simp [hk, SessionPc.Cancelling]))
  | setCancel =>
    simp only [sessionStep, hk, Option.some.injEq] at hs
    subst hs
    rw [hk] at hmine huses
    exact h.moveSession (by simp [hk]) (by simp) huses Iff.rfl hmine (fun _ _ => Iff.rfl)
      (h.signal_goto (by simp [hk]) _) fun _ _ _ => .inr ⟨k, by simp [SessionPc.Cancelling]⟩
  | lock c =>
    simp only [sessionStep, hk, Option.ite_none_right_eq_some, Option.some.injEq] at hs
    obtain ⟨hnone, rfl⟩ := hs
    rw [hk] at huses
    refine h.moveSession (by simp [hk]) (by simp) huses (by simp [hnone])
      (by simp [SessionPc.HasMutex]) (fun k' hne => by simp [hnone, Ne.symm hne])
      (h.signal_goto (by simp [hk]) _) (h.cancelling_goto fun hc => .inr ?_)
    rw [hk] at hc
    cases c
    · exact hc
    · exact hc
    · trivial
  | test c =>
    simp only [sessionStep, hk, Option.some.injEq] at hs
    subst hs
    rw [hk] at hmine huses
    split
    · rename_i hrun
      refine h.moveSession (by simp [hk]) (by simp) huses Iff.rfl hmine (fun _ _ => Iff.rfl)
        (h.signal_goto (by simp [hk]) _) (h.cancelling_goto fun hc => .inl ?_)
      rw [hk] at hc
      cases c
      · exact hc.elim
      · exact hc.elim
      · exact hrun
    · refine h.moveSession (by simp [hk]) (by simp) huses Iff.rfl hmine (fun _ _ => Iff.rfl)
        (h.signal_goto (by simp [hk]) _) (h.cancelling_goto fun hc => .inr ?_)
      rw [hk] at hc
      cases c
      · exact hc
      · exact hc
      · trivial
  | set c =>
    simp only [sessionStep, hk, Option.some.injEq] at hs
    subst hs
    rw [hk] at hmine huses
    cases htarget : c.target with
    | true =>
      exact h.moveSession (by simp [hk]) (by simp) huses Iff.rfl hmine (fun _ _ => Iff.rfl)
        (fun _ _ _ => ⟨k, by simp⟩) fun _ _ _ => .inl rfl
    | false =>
      refine h.moveSession (by simp [hk]) (by simp) huses Iff.rfl hmine (fun _ _ => Iff.rfl)
        (fun _ _ hrun => by cases hrun) fun c' hc' hcancel => .inr ?_
      -- nobody else has the mutex, so the task was not about to be woken
      have hrun : s.run = true → False := by
        intro hrun
        obtain ⟨k', hk'⟩ := h.asleepRun c' hc' hrun
        have hother := (h.mutexSession k').mpr (by simp [hk', SessionPc.HasMutex])
        rw [hmine.mpr trivial] at hother
        obtain rfl : k = k' := by simpa using hother
        rw [hk] at hk'
        cases hk'
      have hnot : (s.session k).Cancelling → s.run = true ∨ SessionPc.unlock.Cancelling := by
        intro hc
        rw [hk] at hc
        cases c
        · exact hc.elim
        · exact hc.elim
        · cases htarget
      exact (h.cancelling_goto hnot c' hc' hcancel).resolve_left hrun
  | signal =>
    simp only [sessionStep, hk, Option.some.injEq] at hs
    subst hs
    rw [hk] at hmine huses
    exact h.wake.moveSession (by simp [hk]) (by simp) huses Iff.rfl hmine (fun _ _ => Iff.rfl)
      (fun c hc => absurd hc (s.woken_spec.1 c)) fun c hc => absurd hc (s.woken_spec.1 c)
  | unlock =>
    simp only [sessionStep, hk, Option.some.injEq] at hs
    subst hs
    rw [hk] at hmine
    have hmutex := hmine.mpr trivial
    exact h.moveSession (by simp [hk]) (by simp) False.elim (by simp [hmutex])
      (by simp [SessionPc.HasMutex]) (fun k' hne => by simp [hmutex, Ne.symm hne])
      (h.signal_goto (by simp [hk]) _) (h.cancelling_goto (by simp [hk, SessionPc.Cancelling]))
  | leave =>
    simp only [sessionStep, hk, Option.some.injEq] at hs
    subst hs
    rw [hk] at hmine
    refine h.moveReaders (fun k' => ?_) (h.nodup.erase k) False.elim Iff.rfl hmine
      (fun _ _ => Iff.rfl) (h.signal_goto (by simp [hk]) _)
      (h.cancelling_goto (by simp [hk, SessionPc.Cancelling]))
    rw [h.nodup.mem_erase_iff, h.readers k']
    by_cases heq : k' = k
    · simp [heq]
    · simp [heq, goto_ne heq]

/-- A session gets a command. -/
theorem Inv.enter (h : s.Inv) {c : TaskCmd} (hs : s.step (.enter k c) = some s') : s'.Inv := by
  rw [step] at hs
  split at hs
  · rename_i hk
    obtain rfl := Option.some.inj hs
    have hmine := h.mutexSession k
    rw [hk] at hmine
    have hnew : k ∉ s.readers := fun hmem => (h.readers k).mp hmem hk
    refine h.moveReaders (fun k' => ?_) (List.nodup_cons.mpr ⟨hnew, h.nodup⟩) False.elim Iff.rfl
      hmine (fun _ _ => Iff.rfl) (h.signal_goto (by simp [hk]) _)
      (h.cancelling_goto (by simp [hk, SessionPc.Cancelling]))
    rw [List.mem_cons, h.readers k']
    by_cases heq : k' = k
    · simp [heq]
    · simp [heq, goto_ne heq]
  · cases hs

theorem Inv.step (h : s.Inv) {a : TaskAct} (hs : s.step a = some s') : s'.Inv := by
  cases a with
  | task b => exact h.task hs
  | pollState =>
    rw [TaskControl.step] at hs
    split at hs
    · rename_i htask
      obtain rfl := Option.some.inj hs
      exact h.moveTask_same (by simp [htask, TaskPc.HasMutex]) (by simp [htask, TaskPc.Left]) id
        (by simp) _
    · cases hs
  | wake =>
    obtain rfl := Option.some.inj hs
    exact h.wake
  | enter k c => exact h.enter hs
  | session k => exact h.session hs
  | created =>
    obtain ⟨-, hs⟩ := Option.ite_none_right_eq_some.mp hs
    obtain rfl := Option.some.inj hs
    exact ⟨h.readers, h.nodup, h.listed, h.freed, h.uses, h.mutexTask, h.mutexSession, h.asleepRun,
      h.asleepCancel⟩

theorem Run.inv {acts : List TaskAct} (h : Run s acts s') (hs : s.Inv) : s'.Inv := by
  induction h with
  | nil => exact hs
  | snoc _ ha ih => exact ih.step ha

theorem Run.trans {s'' : TaskControl} {acts acts' : List TaskAct} (h : Run s acts s')
    (h' : Run s' acts' s'') : Run s (acts ++ acts') s'' := by
  induction h' with
  | nil => rwa [List.append_nil]
  | snoc _ ha ih =>
    rw [← List.append_assoc]
    exact ih.snoc ha

theorem Run.one {a : TaskAct} (ha : s.step a = some s') : Run s [a] s' := (Run.nil s).snoc ha

/-- Steps that are made one after the other. -/
theorem run_foldlM (acts : List TaskAct) : ∀ {s t : TaskControl},
    acts.foldlM TaskControl.step s = some t → Run s acts t := by
  induction acts with
  | nil =>
    intro s t h
    obtain rfl := Option.some.inj h
    exact .nil _
  | cons a acts ih =>
    intro s t h
    obtain ⟨u, hu, h⟩ := Option.bind_eq_some_iff.mp h
    exact (Run.one hu).trans (ih h)

/-! ## Wakeups

A signal that nobody waits for is lost. It does no harm, since a task tests the flags with the lock
held before it waits, and a session signals with the lock held after it has set them.
-/

/-- A session that has the mutex can go on. -/
theorem exists_step_of_hasMutex (hk : (s.session k).HasMutex) : ∃ t, s.sessionStep k = some t := by
  rw [sessionStep]
  cases hpc : s.session k with
  | test c => exact ⟨_, rfl⟩
  | set c => exact ⟨_, rfl⟩
  | signal => exact ⟨_, rfl⟩
  | unlock => exact ⟨_, rfl⟩
  | idle => rw [hpc] at hk; exact hk.elim
  | lookup c => rw [hpc] at hk; exact hk.elim
  | setCancel => rw [hpc] at hk; exact hk.elim
  | lock c => rw [hpc] at hk; exact hk.elim
  | leave => rw [hpc] at hk; exact hk.elim

/-- So can one that is not held up by the mutex. -/
theorem exists_step_of_ne_lock (hidle : s.session k ≠ .idle) (hlock : ∀ c, s.session k ≠ .lock c) :
    ∃ t, s.sessionStep k = some t := by
  rw [sessionStep]
  cases hpc : s.session k with
  | idle => exact absurd hpc hidle
  | lock c => exact absurd hpc (hlock c)
  | lookup c => exact ⟨_, rfl⟩
  | setCancel => exact ⟨_, rfl⟩
  | test c => exact ⟨_, rfl⟩
  | set c => exact ⟨_, rfl⟩
  | signal => exact ⟨_, rfl⟩
  | unlock => exact ⟨_, rfl⟩
  | leave => exact ⟨_, rfl⟩

/-- A session in a command can go on, or who has the mutex can. -/
theorem Inv.progress (h : s.Inv) (hidle : s.session k ≠ .idle) :
    (∃ k' t, s.session k' ≠ .idle ∧ s.sessionStep k' = some t) ∨ s.task.HasMutex := by
  by_cases hlock : ∃ c, s.session k = .lock c
  · obtain ⟨c, hc⟩ := hlock
    cases hm : s.mutex with
    | none =>
      have ht : s.sessionStep k = some { s.goto k (.test c) with mutex := some (.session k) } := by
        rw [sessionStep, hc]
        exact if_pos hm
      exact .inl ⟨k, _, hidle, ht⟩
    | some o =>
      cases o with
      | task => exact .inr (h.mutexTask.mp hm)
      | session k' =>
        have hk' := (h.mutexSession k').mp hm
        obtain ⟨t, ht⟩ := exists_step_of_hasMutex hk'
        refine .inl ⟨k', t, fun heq => ?_, ht⟩
        rw [heq] at hk'
        exact hk'
  · obtain ⟨t, ht⟩ := exists_step_of_ne_lock hidle fun c hc => hlock ⟨c, hc⟩
    exact .inl ⟨k, t, hidle, ht⟩

end TaskControl

end Mbb
