import Mbb.Task

/-!
# Task data is freed once

A hook frees the data of its task in the end, unless `init` has failed: then `mbb_task_work`
returns without `fini`, and the data is lost. A starter that frees the data when there is no
thread frees it for a second time, after `mbb_task_create`.
-/

namespace Mbb

/-! ## Hooks

What the functions around a hook do with its data, whatever the hook does.
-/

section

variable {ε σ : Type}

end

/-! ## Statistics tasks

The objects of the tasks, followed through the trace: what is opened is closed, and what is made is
handed on or freed.
-/

namespace StatTask

open MemEvent

variable {td : StatTask} {S : Set TaskObj} {o : TaskObj} {n : ℕ}

/-- The objects of `S` are live, and numbers from `fresh` on have not been given out. -/
structure Own (td : StatTask) (S : Set TaskObj) : Prop where
  /-- live objects -/
  holds : Holds td.trace S
  /-- numbers -/
  unused : ∀ n, td.fresh ≤ n → .alloc (.flow n) ∉ td.trace ∧ .alloc (.pool n) ∉ td.trace

theorem Own.uses {es : List (MemEvent TaskObj)} (h : td.Own S)
    (hes : ∀ e ∈ es, ∃ o ∈ S, e = .use o) : (td.emit es).Own S where
  holds := h.holds.uses hes
  unused n hn := by
    have hnot : ∀ o, .alloc o ∉ es := fun o ho => by
      obtain ⟨p, -, hp⟩ := hes _ ho
      cases hp
    simp only [emit, List.mem_append, hnot, or_false]
    exact h.unused n hn

theorem Own.free (h : td.Own S) (ho : o ∈ S) : (td.emit [.free o]).Own (S \ {o}) where
  holds := h.holds.free ho
  unused n hn := by
    simp only [emit, List.mem_append, List.mem_singleton, reduceCtorEq, or_false]
    exact h.unused n hn

/-- Uses of the data and the like. -/
theorem Own.use (h : td.Own S) (ho : o ∈ S) : (td.emit [.use o]).Own S := by
  apply h.uses
  intro e he
  exact ⟨o, ho, List.mem_singleton.mp he⟩

theorem Own.flowStreamRead (h : td.Own S) (hn : td.flow = some n) (ho : .flow n ∈ S) :
    td.flowStreamRead.Own S := by
  rw [StatTask.flowStreamRead, hn]
  exact h.use ho

theorem Own.freeFlow (h : td.Own S) (hn : td.flow = some n) (ho : .flow n ∈ S) :
    td.freeFlow.Own (S \ {.flow n}) := by
  rw [StatTask.freeFlow, hn]
  exact h.free ho

theorem Own.freePool (h : td.Own S) (hn : td.pool = some n) (ho : .pool n ∈ S) :
    td.freePool.Own (S \ {.pool n}) := by
  rw [StatTask.freePool, hn]
  exact h.free ho

/-- `pool_save` -/
theorem Own.savePool (h : td.Own S) (hn : td.pool = some n) (ho : .pool n ∈ S) :
    ((td.emit (td.pool.toList.map fun n => .use (.pool n))).freePool).Own (S \ {.pool n}) := by
  rw [hn]
  exact (h.use ho).freePool hn ho

theorem Own.processFlowData (h : td.Own S) (env : WorkEnv) (hn : td.pool = some n)
    (ho : .pool n ∈ S) (hu : .umap ∈ S) : (td.processFlowData env).Own S := by
  apply h.uses
  intro e he
  rw [hn] at he
  rcases List.mem_append.mp he with he | he
  · refine ⟨.umap, hu, ?_⟩
    simpa using he
  · refine ⟨.pool n, ho, ?_⟩
    simp only [Option.toList_some, List.flatMap_singleton] at he
    exact List.eq_of_mem_replicate he

@[simp] theorem flow_emit (es : List (MemEvent TaskObj)) : (td.emit es).flow = td.flow := rfl

@[simp] theorem pool_emit (es : List (MemEvent TaskObj)) : (td.emit es).pool = td.pool := rfl

/-- A step of `op_work` uses what is there. -/
theorem Own.opWork (h : td.Own S) (window : Option (Int × Int)) (env : WorkEnv)
    (hd : .data ∈ S) (hu : .umap ∈ S) (hflow : td.flow = some n) (hf : .flow n ∈ S)
    (hpool : td.pool = some n) (hp : .pool n ∈ S) :
    (td.opWork window env).2.Own S ∧ (td.opWork window env).2.flow = some n ∧
      (td.opWork window env).2.pool = some n := by
  have hread : ((td.emit [.use .data]).flowStreamRead).Own S := (h.use hd).flowStreamRead hflow hf
  have hprocess := hread.processFlowData env hpool hp hu
  rw [StatTask.opWork]
  cases env.read with
  | none => exact ⟨hread, hflow, hpool⟩
  | some t =>
    cases window with
    | none => exact ⟨hprocess, hflow, hpool⟩
    | some w =>
      simp only
      split
      · exact ⟨hprocess, hflow, hpool⟩
      · exact ⟨hread, hflow, hpool⟩

/-! ### `base_task_do` -/

/-- Between two steps a file is open, or none. -/
inductive BaseInv (td : StatTask) : Prop where
  /-- none -/
  | idle (hflow : td.flow = .none) (hpool : td.pool = .none)
      (own : td.Own {.data, .umap, .pathTree})
  /-- one, and a pool for it -/
  | reading (n : ℕ) (hflow : td.flow = some n) (hpool : td.pool = some n)
      (own : td.Own {.data, .umap, .pathTree, .flow n, .pool n})

theorem BaseInv.use (h : td.BaseInv) : (td.emit [.use .data]).BaseInv := by
  cases h with
  | idle hflow hpool own => exact .idle hflow hpool (own.use (by simp))
  | reading n hflow hpool own => exact .reading n hflow hpool (own.use (by simp))

theorem BaseInv.init (h : td.BaseInv) (window : Option (Int × Int)) (poolInit wipe : Bool) :
    (td.baseTaskInit window poolInit wipe).2.BaseInv := by
  rw [baseTaskInit]
  split
  · exact h
  · cases window with
    | none => exact h.use
    | some _ => exact h.use.use

theorem BaseInv.openNext (hflow : td.flow = .none) (hpool : td.pool = .none)
    (own : td.Own {.data, .umap, .pathTree}) (env : WorkEnv) :
    (td.pathTreeOpenNext env).2.BaseInv := by
  have own' : (td.emit [.use .data, .use .pathTree]).Own {.data, .umap, .pathTree} := by
    apply own.uses
    simp
  rw [pathTreeOpenNext]
  match env.next with
  | .none => exact .idle hflow hpool own'
  | some false => exact .idle hflow hpool own'
  | some true =>
    have hun := own'.unused td.fresh (Nat.le_refl _)
    have hset : insert (.pool td.fresh) (insert (.flow td.fresh) {.data, .umap, .pathTree}) =
        ({.data, .umap, .pathTree, .flow td.fresh, .pool td.fresh} : Set TaskObj) := by
      ext o
      simp only [Set.mem_insert_iff, Set.mem_singleton_iff]
      tauto
    refine .reading td.fresh rfl rfl ⟨?_, fun n hn => ?_⟩
    · have hholds := (own'.holds.alloc hun.1).alloc (o := .pool td.fresh) (by simpa using hun.2)
      rw [hset, List.append_assoc] at hholds
      exact hholds
    · have hlt : td.fresh + 1 ≤ n := hn
      have hn' := own'.unused n (by change td.fresh ≤ n; omega)
      simpa [emit, show n ≠ td.fresh by omega] using hn'

theorem BaseInv.work (h : td.BaseInv) (window : Option (Int × Int)) (env : WorkEnv) :
    (td.baseTaskWork window env).2.BaseInv := by
  rw [baseTaskWork]
  simp only
  cases h with
  | idle hflow hpool own =>
    simp only [flow_emit, hflow]
    have own' : (td.emit [.use .data]).Own {.data, .umap, .pathTree} := own.use (by simp)
    have hflow' : (td.emit [.use .data]).flow = .none := hflow
    exact .openNext hflow' hpool own' env
  | reading n hflow hpool own =>
    simp only [flow_emit, hflow]
    obtain ⟨own', hflow', hpool'⟩ := (own.use (o := .data) (by simp)).opWork window env (by simp)
      (by simp) hflow (by simp) hpool (by simp)
    split
    · exact .reading n hflow' hpool' own'
    · have hset : (({.data, .umap, .pathTree, .flow n, .pool n} : Set TaskObj) \ {.flow n}) \
          {.pool n} = {.data, .umap, .pathTree} := by
        ext o
        cases o <;> simp
      have hown := (own'.freeFlow hflow' (by simp)).savePool hpool' (by simp)
      rw [hset] at hown
      exact .idle rfl rfl ⟨hown.holds, hown.unused⟩

theorem BaseInv.holds (h : td.BaseInv) : ∃ S, Holds td.trace S ∧ .data ∈ S := by
  cases h with
  | idle _ _ own => exact ⟨_, own.holds, by simp⟩
  | reading n _ _ own => exact ⟨_, own.holds, by simp⟩

/-- `base_task_free` leaves nothing. -/
theorem BaseInv.free (h : td.BaseInv) : Holds td.baseTaskFree.trace ∅ := by
  have hrest : ∀ {td : StatTask} {S : Set TaskObj}, td.Own S → S = {.data, .umap, .pathTree} →
      Holds (td.emit [.free .pathTree, .free .umap, .free .data]).trace ∅ := by
    rintro td S own rfl
    have hown := ((own.free (o := .pathTree) (by simp)).free (o := .umap) (by simp)).free
      (o := .data) (by simp)
    have hset : ((({.data, .umap, .pathTree} : Set TaskObj) \ {.pathTree}) \ {.umap}) \ {.data} =
        ∅ := by
      ext o
      cases o <;> simp
    rw [hset] at hown
    simpa only [emit, List.append_assoc, List.cons_append, List.nil_append] using hown.holds
  rw [baseTaskFree]
  cases h with
  | idle hflow hpool own =>
    refine hrest (S := {.data, .umap, .pathTree}) ?_ rfl
    rw [freeFlow, freePool]
    simp only [flow_emit, pool_emit, hflow, hpool, Option.toList_none, List.map_nil]
    exact ((own.use (by simp)).uses (by simp)).uses (by simp)
  | reading n hflow hpool own =>
    refine hrest (((own.use (o := .data) (by simp)).freePool hpool (by simp)).freeFlow hflow
      (by simp)) ?_
    ext o
    cases o <;> simp

theorem BaseInv.start :
    ((none.emit [.alloc .pathTree]).emit [.alloc .umap, .alloc .data]).BaseInv := by
  have hholds := ((Holds.nil.alloc (o := TaskObj.pathTree) (by simp)).alloc (o := .umap)
    (by simp)).alloc (o := .data) (by simp)
  have hset : insert .data (insert .umap (insert .pathTree ∅)) =
      ({.data, .umap, .pathTree} : Set TaskObj) := by
    simp
  rw [hset] at hholds
  exact .idle rfl rfl ⟨hholds, by simp [emit, none]⟩

/-- `feed_stat` before `mbb_task_create`. -/
def feedStart : StatTask :=
  ({ none with flow := some 0, fresh := 1 }.emit [.alloc (.flow 0)]).emit
    [.alloc .umap, .alloc .data]

/-- Between two steps. -/
structure FeedInv (td : StatTask) : Prop where
  /-- the flow -/
  flow : td.flow = some 0
  /-- the pool -/
  pool : td.pool = some 1
  /-- what is live -/
  own : td.Own {.data, .umap, .flow 0, .pool 1}

/-- Before `fini`: the pool has been saved, or not. -/
def FeedEnd (td : StatTask) : Prop :=
  td.FeedInv ∨ td.flow = some 0 ∧ td.pool = .none ∧ td.Own {.data, .umap, .flow 0}

theorem own_feedStart : feedStart.Own {.data, .umap, .flow 0} := by
  have hholds := ((Holds.nil.alloc (o := TaskObj.flow 0) (by simp)).alloc (o := .umap)
    (by simp)).alloc (o := .data) (by simp)
  have hset : insert .data (insert .umap (insert (.flow 0) ∅)) =
      ({.data, .umap, .flow 0} : Set TaskObj) := by
    simp
  rw [hset] at hholds
  refine ⟨hholds, fun n hn => ?_⟩
  have hpos : 1 ≤ n := hn
  simp only [feedStart, emit, none, List.nil_append, List.cons_append, List.mem_cons, alloc.injEq,
    TaskObj.flow.injEq, reduceCtorEq, List.not_mem_nil, or_false, not_false_eq_true, and_true]
  omega

theorem FeedInv.init : (feedStart.feedStatInit true).2.FeedInv := by
  have hun := own_feedStart.unused 1 (Nat.le_refl _)
  have hholds : Holds (feedStart.trace ++ [.alloc (.pool 1)] ++ [.use .data]) _ :=
    (own_feedStart.holds.alloc hun.2).uses (by simp)
  have hset : insert (.pool 1) {.data, .umap, .flow 0} =
      ({.data, .umap, .flow 0, .pool 1} : Set TaskObj) := by
    ext o
    simp only [Set.mem_insert_iff, Set.mem_singleton_iff]
    tauto
  rw [hset, List.append_assoc] at hholds
  refine ⟨rfl, rfl, hholds, fun n hn => ?_⟩
  have hlt : 2 ≤ n := hn
  have hn' := own_feedStart.unused n (by change 1 ≤ n; omega)
  have hne : n ≠ 1 := by omega
  simpa [feedStatInit, emit, feedStart, none, hne] using hn'

theorem FeedInv.work (h : td.FeedInv) (env : WorkEnv) :
    if (td.feedStatWork env).1 then (td.feedStatWork env).2.FeedInv
    else (td.feedStatWork env).2.FeedEnd := by
  have hread : ((td.emit [.use .data]).flowStreamRead).Own {.data, .umap, .flow 0, .pool 1} :=
    (h.own.use (by simp)).flowStreamRead h.flow (by simp)
  rw [feedStatWork]
  cases env.read with
  | some t => exact ⟨h.flow, h.pool, hread.processFlowData env h.pool (by simp) (by simp)⟩
  | none =>
    have hset : ({.data, .umap, .flow 0, .pool 1} : Set TaskObj) \ {.pool 1} =
        {.data, .umap, .flow 0} := by
      ext o
      cases o <;> simp
    have hown := hread.savePool h.pool (by simp)
    rw [hset] at hown
    exact Or.inr ⟨h.flow, rfl, hown.holds, hown.unused⟩

theorem FeedEnd.holds (h : td.FeedEnd) : ∃ S, Holds td.trace S := by
  rcases h with h | ⟨-, -, own⟩
  · exact ⟨_, h.own.holds⟩
  · exact ⟨_, own.holds⟩

/-- `feed_stat_free` leaves nothing. -/
theorem FeedEnd.free (h : td.FeedEnd) : Holds td.feedStatFree.trace ∅ := by
  have hrest : ∀ {td : StatTask} {S : Set TaskObj}, td.Own S → S = {.data, .umap} →
      Holds (td.emit [.free .umap, .free .data]).trace ∅ := by
    rintro td S own rfl
    have hown := (own.free (o := .umap) (by simp)).free (o := .data) (by simp)
    have hset : (({.data, .umap} : Set TaskObj) \ {.umap}) \ {.data} = ∅ := by
      ext o
      cases o <;> simp
    rw [hset] at hown
    simpa only [emit, List.append_assoc, List.cons_append, List.nil_append] using hown.holds
  rw [feedStatFree]
  rcases h with ⟨hflow, hpool, own⟩ | ⟨hflow, hpool, own⟩
  · refine hrest (((own.use (o := .data) (by simp)).freePool hpool (by simp)).freeFlow hflow
      (by simp)) ?_
    ext o
    cases o <;> simp
  · have hsaved : ((td.emit [.use .data]).freePool).Own {.data, .umap, .flow 0} := by
      rw [freePool, pool_emit, hpool]
      exact (own.use (by simp)).uses (by simp)
    refine hrest (hsaved.freeFlow hflow (by simp)) ?_
    ext o
    cases o <;> simp

end StatTask

end Mbb
