import Mathlib.Logic.Function.Basic
import Mathlib.Data.List.Count
import Mathlib.Data.Set.Insert

/-!
# Lifetimes

A trace of what happens to objects: they are allocated, used and freed. A trace can be
replayed with the state of each object, as long as nothing is allocated twice, and nothing is
used or freed that is not live. In a trace that can be replayed nothing is used after it has
been freed, and when nothing is live in the end everything has been freed once.
-/

namespace Mbb

/-- What happens to an object. -/
inductive MemEvent (O : Type) : Type where
  /-- it is allocated -/
  | alloc (o : O)
  /-- it is used -/
  | use (o : O)
  /-- it is freed -/
  | free (o : O)
  deriving DecidableEq

/-- The state of an object. -/
inductive Life : Type where
  /-- not allocated yet -/
  | absent
  /-- allocated -/
  | live
  /-- freed -/
  | freed
  deriving DecidableEq

namespace MemEvent

variable {O : Type} [DecidableEq O] {st st' : O → Life} {l : List (MemEvent O)} {o : O}

/-- One event, unless it may not happen. -/
def step (st : O → Life) : MemEvent O → Option (O → Life)
  | .alloc o => if st o = .absent then some (Function.update st o .live) else none
  | .use o => if st o = .live then some st else none
  | .free o => if st o = .live then some (Function.update st o .freed) else none

/-- The events of a trace, one after the other. -/
def replay (st : O → Life) : List (MemEvent O) → Option (O → Life)
  | [] => some st
  | e :: l => (step st e).bind fun st => replay st l

theorem replay_append (l l' : List (MemEvent O)) (st : O → Life) :
    replay st (l ++ l') = (replay st l).bind fun st => replay st l' := by
  induction l generalizing st with
  | nil => rfl
  | cons e l ih =>
    rw [List.cons_append, replay, replay, Option.bind_assoc]
    simp only [ih]

/-- Nothing is used or freed after it has been freed. -/
def NoUseAfterFree (l : List (MemEvent O)) : Prop :=
  ∀ l₁ o l₂, l = l₁ ++ .free o :: l₂ → .use o ∉ l₂ ∧ .free o ∉ l₂

/-- What an event does to one object. -/
theorem step_cases {e : MemEvent O} (h : step st e = some st') (o : O) :
    (e = .alloc o ∧ st o = .absent ∧ st' o = .live) ∨ (e = .use o ∧ st o = .live ∧ st' o = .live) ∨
      (e = .free o ∧ st o = .live ∧ st' o = .freed) ∨
      (e ≠ .alloc o ∧ e ≠ .use o ∧ e ≠ .free o ∧ st' o = st o) := by
  cases e with
  | alloc p =>
    obtain ⟨hp, hst⟩ := Option.ite_none_right_eq_some.mp h
    obtain rfl := Option.some.inj hst
    by_cases ho : o = p
    · subst ho
      exact Or.inl ⟨rfl, hp, Function.update_self ..⟩
    · refine Or.inr (Or.inr (Or.inr ⟨?_, ?_, ?_, Function.update_of_ne ho ..⟩))
      all_goals simp [Ne.symm ho]
  | use p =>
    obtain ⟨hp, hst⟩ := Option.ite_none_right_eq_some.mp h
    obtain rfl := Option.some.inj hst
    by_cases ho : o = p
    · subst ho
      exact Or.inr (Or.inl ⟨rfl, hp, hp⟩)
    · refine Or.inr (Or.inr (Or.inr ⟨?_, ?_, ?_, rfl⟩))
      all_goals simp [Ne.symm ho]
  | free p =>
    obtain ⟨hp, hst⟩ := Option.ite_none_right_eq_some.mp h
    obtain rfl := Option.some.inj hst
    by_cases ho : o = p
    · subst ho
      exact Or.inr (Or.inr (Or.inl ⟨rfl, hp, Function.update_self ..⟩))
    · refine Or.inr (Or.inr (Or.inr ⟨?_, ?_, ?_, Function.update_of_ne ho ..⟩))
      all_goals simp [Ne.symm ho]

/-- What is freed stays so, and nothing happens to it. -/
theorem replay_freed (h : replay st l = some st') (ho : st o = .freed) :
    st' o = .freed ∧ .use o ∉ l ∧ .free o ∉ l := by
  induction l generalizing st with
  | nil =>
    obtain rfl := Option.some.inj h
    exact ⟨ho, List.not_mem_nil, List.not_mem_nil⟩
  | cons e l ih =>
    obtain ⟨st₁, hst₁, h⟩ := Option.bind_eq_some_iff.mp h
    rcases step_cases hst₁ o with ⟨-, hs, -⟩ | ⟨-, hs, -⟩ | ⟨-, hs, -⟩ | ⟨-, huse, hfree, hs⟩
    · rw [ho] at hs; cases hs
    · rw [ho] at hs; cases hs
    · rw [ho] at hs; cases hs
    · obtain ⟨hst', hu, hf⟩ := ih h (hs.trans ho)
      exact ⟨hst', List.not_mem_cons_of_ne_of_not_mem (Ne.symm huse) hu,
        List.not_mem_cons_of_ne_of_not_mem (Ne.symm hfree) hf⟩

theorem replay_noUseAfterFree (h : replay st l = some st') : NoUseAfterFree l := by
  rintro l₁ o l₂ rfl
  rw [replay_append] at h
  obtain ⟨st₁, -, h⟩ := Option.bind_eq_some_iff.mp h
  obtain ⟨st₂, hst₂, h⟩ := Option.bind_eq_some_iff.mp h
  rcases step_cases hst₂ o with ⟨he, -⟩ | ⟨he, -⟩ | ⟨-, -, hs⟩ | ⟨-, -, hfree, -⟩
  · cases he
  · cases he
  · exact (replay_freed h hs).2
  · exact absurd rfl hfree

/-- Objects that have been freed in a trace have been freed once. -/
theorem replay_count (h : replay st l = some st') (o : O) :
    (.alloc o ∈ l → st' o ≠ .absent) ∧ (st o ≠ .absent → st' o ≠ .absent) ∧
      l.count (.free o) = if st' o = .freed ∧ st o ≠ .freed then 1 else 0 := by
  induction l generalizing st with
  | nil =>
    obtain rfl := Option.some.inj h
    refine ⟨fun hm => absurd hm List.not_mem_nil, id, ?_⟩
    rw [if_neg fun h => h.2 h.1, List.count_nil]
  | cons e l ih =>
    obtain ⟨st₁, hst₁, hl⟩ := Option.bind_eq_some_iff.mp h
    obtain ⟨halloc, hkeep, hcount⟩ := ih hl
    rcases step_cases hst₁ o with ⟨rfl, hs, hs₁⟩ | ⟨rfl, hs, hs₁⟩ | ⟨rfl, hs, hs₁⟩ |
      ⟨hne, -, hfree, hs⟩
    · have hst' : st' o ≠ .absent := hkeep (by rw [hs₁]; decide)
      refine ⟨fun _ => hst', fun _ => hst', ?_⟩
      rw [List.count_cons_of_ne (by simp), hcount, hs, hs₁]
      simp
    · have hst' : st' o ≠ .absent := hkeep (by rw [hs₁]; decide)
      refine ⟨fun _ => hst', fun _ => hst', ?_⟩
      rw [List.count_cons_of_ne (by simp), hcount, hs, hs₁]
    · have hst' : st' o = .freed := (replay_freed hl hs₁).1
      refine ⟨fun _ => ?_, fun _ => ?_, ?_⟩
      · rw [hst']; decide
      · rw [hst']; decide
      · rw [List.count_cons_self, hcount, hs, hs₁, hst']
        simp
    · refine ⟨fun hm => ?_, fun hst => hkeep (hs ▸ hst), ?_⟩
      · exact halloc ((List.mem_cons.mp hm).resolve_left (Ne.symm hne))
      · rw [List.count_cons_of_ne hfree, hcount, hs]

/-- What is not allocated is not there. -/
theorem replay_absent (h : replay st l = some st') (ho : .alloc o ∉ l) (hs : st o = .absent) :
    st' o = .absent := by
  induction l generalizing st with
  | nil => exact Option.some.inj h ▸ hs
  | cons e l ih =>
    obtain ⟨st₁, hst₁, hl⟩ := Option.bind_eq_some_iff.mp h
    refine ih hl (List.not_mem_of_not_mem_cons ho) ?_
    rcases step_cases hst₁ o with ⟨rfl, -⟩ | ⟨-, hs', -⟩ | ⟨-, hs', -⟩ | ⟨-, -, -, hs'⟩
    · exact absurd rfl (List.ne_of_not_mem_cons ho)
    · rw [hs] at hs'; cases hs'
    · rw [hs] at hs'; cases hs'
    · rw [hs', hs]

/-- The trace can be replayed, and the objects of `S` are live in the end. -/
def Holds (l : List (MemEvent O)) (S : Set O) : Prop :=
  ∃ st, replay (fun _ => .absent) l = some st ∧ ∀ o, st o = .live ↔ o ∈ S

section

variable {S : Set O}

theorem Holds.nil : Holds ([] : List (MemEvent O)) ∅ := ⟨_, rfl, by simp⟩

theorem Holds.snoc {e : MemEvent O} (hl : replay (fun _ => .absent) l = some st)
    (he : step st e = some st') : replay (fun _ => .absent) (l ++ [e]) = some st' := by
  rw [replay_append, hl, Option.bind_some, replay, he]
  rfl

theorem Holds.alloc (h : Holds l S) (ho : .alloc o ∉ l) : Holds (l ++ [.alloc o]) (insert o S) := by
  obtain ⟨st, hst, hS⟩ := h
  refine ⟨Function.update st o .live, snoc hst ?_, fun p => ?_⟩
  · rw [step, if_pos (replay_absent hst ho rfl)]
  · rw [Set.mem_insert_iff, ← hS p, Function.update_apply]
    split <;> simp_all

theorem Holds.uses {es : List (MemEvent O)} (h : Holds l S) (hes : ∀ e ∈ es, ∃ o ∈ S, e = .use o) :
    Holds (l ++ es) S := by
  obtain ⟨st, hst, hS⟩ := h
  refine ⟨st, ?_, hS⟩
  rw [replay_append, hst, Option.bind_some]
  clear hst
  induction es with
  | nil => rfl
  | cons e es ih =>
    obtain ⟨o, ho, rfl⟩ := hes e List.mem_cons_self
    rw [replay, step, if_pos ((hS o).mpr ho)]
    exact ih fun e he => hes e (List.mem_cons_of_mem _ he)

theorem Holds.free (h : Holds l S) (ho : o ∈ S) : Holds (l ++ [.free o]) (S \ {o}) := by
  obtain ⟨st, hst, hS⟩ := h
  refine ⟨Function.update st o .freed, snoc hst ?_, fun p => ?_⟩
  · rw [step, if_pos ((hS o).mpr ho)]
  · rw [Set.mem_sdiff, Set.mem_singleton_iff, ← hS p, Function.update_apply]
    split <;> simp_all

theorem Holds.congr {S' : Set O} (h : Holds l S) (hS : ∀ o, o ∈ S ↔ o ∈ S') : Holds l S' := by
  obtain rfl : S = S' := Set.ext hS
  exact h

/-- Objects are given back one after the other, each after others have been used. -/
theorem Holds.release {R : Type} {rows : List R} {del : R → Option O} (h : Holds l S)
    (use : R → List O) (huse : ∀ r ∈ rows, ∀ o ∈ use r, o ∈ S ∧ o ∉ rows.filterMap del)
    (hdel : ∀ r ∈ rows, ∀ o ∈ del r, o ∈ S) (hnodup : (rows.filterMap del).Nodup) :
    Holds (l ++ rows.flatMap fun r => (use r).map .use ++ (del r).toList.map .free)
      {o | o ∈ S ∧ o ∉ rows.filterMap del} := by
  induction rows generalizing l S with
  | nil => simpa using h
  | cons r rows ih =>
    have huses : Holds (l ++ (use r).map .use) S := by
      refine h.uses fun e he => ?_
      obtain ⟨o, ho, rfl⟩ := List.mem_map.mp he
      exact ⟨o, (huse r List.mem_cons_self o ho).1, rfl⟩
    rw [List.flatMap_cons, List.append_assoc, ← List.append_assoc]
    cases ho : del r with
    | none =>
      rw [List.filterMap_cons_none ho] at huse hnodup ⊢
      rw [Option.toList_none, List.map_nil, List.nil_append]
      exact ih huses (fun r' hr' => huse r' (List.mem_cons_of_mem _ hr'))
        (fun r' hr' => hdel r' (List.mem_cons_of_mem _ hr')) hnodup
    | some o =>
      rw [List.filterMap_cons_some ho] at huse hnodup ⊢
      obtain ⟨hnew, hnodup⟩ := List.nodup_cons.mp hnodup
      have hfree := huses.free (hdel r List.mem_cons_self o (by rw [ho]; rfl))
      have hrest := ih hfree (fun r' hr' o' ho' => ?_) (fun r' hr' o' ho' => ?_) hnodup
      · rw [← List.append_assoc]
        refine hrest.congr fun o' => ?_
        simp only [Set.mem_ofPred_eq, Set.mem_sdiff, Set.mem_singleton_iff, List.mem_cons, not_or]
        exact and_assoc
      · obtain ⟨hmem, hnot⟩ := huse r' (List.mem_cons_of_mem _ hr') o' ho'
        rw [List.mem_cons, not_or] at hnot
        exact ⟨⟨hmem, hnot.1⟩, hnot.2⟩
      · refine ⟨hdel r' (List.mem_cons_of_mem _ hr') o' ho', ?_⟩
        rintro rfl
        exact hnew (List.mem_filterMap.mpr ⟨r', hr', ho'⟩)

theorem Holds.noUseAfterFree (h : Holds l S) : NoUseAfterFree l := by
  obtain ⟨st, hst, -⟩ := h
  exact replay_noUseAfterFree hst

/-- What is live has been allocated and not been freed. -/
theorem Holds.mem_iff (h : Holds l S) (o : O) : o ∈ S ↔ .alloc o ∈ l ∧ .free o ∉ l := by
  obtain ⟨st, hst, hlive⟩ := h
  obtain ⟨halloc, -, hcount⟩ := replay_count hst o
  rw [← hlive, ← List.count_eq_zero, hcount]
  constructor
  · intro hs
    refine ⟨?_, if_neg fun h => by rw [hs] at h; cases h.1⟩
    by_contra hnot
    rw [replay_absent hst hnot rfl] at hs
    cases hs
  · rintro ⟨hmem, hfree⟩
    cases hs : st o with
    | absent => exact absurd hs (halloc hmem)
    | live => rfl
    | freed =>
      rw [hs, if_pos ⟨rfl, by decide⟩] at hfree
      cases hfree

end

end MemEvent

end Mbb
