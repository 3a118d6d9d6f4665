import Mathlib.Data.List.Basic
import Mathlib.Logic.Function.Basic

/-!
# Parents and children

A relation that is stored on both sides: each child names its parent, if it has one, and
each parent lists its children. The two agree as long as every change is made on both
sides.
-/

namespace Mbb

/-- `kids` gives what each parent lists, `up` what each child names; `none` is a record
that does not exist. -/
structure Linked {P C : Type} (kids : P → Option (List C)) (up : C → Option (Option P)) :
    Prop where
  /-- a parent lists the children that name it -/
  mem_iff : ∀ {p l}, kids p = some l → ∀ c, c ∈ l ↔ up c = some (some p)
  /-- a parent that is named exists -/
  exists_parent : ∀ {c p}, up c = some (some p) → ∃ l, kids p = some l

namespace Linked

variable {P C : Type} [DecidableEq P] [DecidableEq C] {kids : P → Option (List C)}
  {up : C → Option (Option P)}

/-- No record, or one without parent. -/
def Orphan (v : Option (Option P)) : Prop := v = none ∨ v = some none

omit [DecidableEq P] in
theorem Orphan.ne {v : Option (Option P)} (h : Orphan v) (p : P) : v ≠ some (some p) := by
  rintro rfl
  rcases h with h | h <;> cases h

omit [DecidableEq P] [DecidableEq C] in
/-- No records. -/
theorem nil : Linked (fun _ : P => (none : Option (List C))) fun _ => none :=
  ⟨(fun h => nomatch h), (fun h => nomatch h)⟩

/-- A child gets a parent. -/
theorem attach (h : Linked kids up) {p : P} {c : C} {l l' : List C} (hp : kids p = some l)
    (hc : Orphan (up c)) (hl' : ∀ x, x ∈ l' ↔ x = c ∨ x ∈ l) :
    Linked (Function.update kids p (some l')) (Function.update up c (some (some p))) := by
  constructor
  · intro q m hq x
    rw [Function.update_apply] at hq ⊢
    by_cases hqp : q = p
    · subst hqp
      rw [if_pos rfl] at hq
      obtain rfl := Option.some.inj hq
      rw [hl', h.mem_iff hp]
      by_cases hx : x = c <;> simp [hx]
    · rw [if_neg hqp] at hq
      rw [h.mem_iff hq]
      by_cases hx : x = c
      · subst hx
        rw [if_pos rfl]
        refine iff_of_false (hc.ne q) fun heq => hqp ?_
        exact (Option.some.inj (Option.some.inj heq)).symm
      · rw [if_neg hx]
  · intro x q hx
    rw [Function.update_apply] at hx ⊢
    by_cases hqp : q = p
    · exact ⟨l', if_pos hqp⟩
    · rw [if_neg hqp]
      by_cases hxc : x = c
      · rw [if_pos hxc] at hx
        exact absurd (Option.some.inj (Option.some.inj hx)).symm hqp
      · rw [if_neg hxc] at hx
        exact h.exists_parent hx

/-- A child gets a parent, and is put before the others. -/
theorem attach_one (h : Linked kids up) {p : P} {c : C} {l : List C} (hp : kids p = some l)
    (hc : Orphan (up c)) :
    Linked (Function.update kids p (some (if c ∈ l then l else c :: l)))
      (Function.update up c (some (some p))) := by
  refine h.attach hp hc fun x => ?_
  by_cases hmem : c ∈ l
  · rw [if_pos hmem]
    refine ⟨Or.inr, fun hx => hx.elim (fun hxc => hxc ▸ hmem) id⟩
  · rw [if_neg hmem, List.mem_cons]

omit [DecidableEq C] in
/-- Children of one parent lose it. -/
theorem detach (h : Linked kids up) {p : P} {l l' : List C} (hp : kids p = some l)
    {up' : C → Option (Option P)} {S : C → Prop} (hS : ∀ c, S c → up c = some (some p))
    (hup : ∀ c, S c → Orphan (up' c)) (hkeep : ∀ c, ¬ S c → up' c = up c)
    (hl' : ∀ x, x ∈ l' ↔ x ∈ l ∧ ¬ S x) :
    Linked (Function.update kids p (some l')) up' := by
  constructor
  · intro q m hq x
    rw [Function.update_apply] at hq
    by_cases hx : S x
    · refine iff_of_false (fun hm => ?_) ((hup x hx).ne q)
      by_cases hqp : q = p
      · rw [if_pos hqp] at hq
        obtain rfl := Option.some.inj hq
        exact ((hl' x).mp hm).2 hx
      · rw [if_neg hqp] at hq
        rw [h.mem_iff hq, hS x hx] at hm
        exact hqp (Option.some.inj (Option.some.inj hm)).symm
    · rw [hkeep x hx]
      by_cases hqp : q = p
      · subst hqp
        rw [if_pos rfl] at hq
        obtain rfl := Option.some.inj hq
        rw [hl', h.mem_iff hp]
        exact and_iff_left hx
      · rw [if_neg hqp] at hq
        exact h.mem_iff hq x
  · intro x q hx
    rw [Function.update_apply]
    by_cases hqp : q = p
    · exact ⟨l', if_pos hqp⟩
    · rw [if_neg hqp]
      refine h.exists_parent (c := x) ?_
      rw [← hkeep x fun hSx => (hup x hSx).ne q hx]
      exact hx

/-- One child loses its parent. -/
theorem detach_one (h : Linked kids up) {p : P} {c : C} {l : List C} (hp : kids p = some l)
    (hc : up c = some (some p)) {v : Option (Option P)} (hv : Orphan v) :
    Linked (Function.update kids p (some (l.filter fun x => decide (x ≠ c))))
      (Function.update up c v) := by
  refine h.detach (S := fun x => x = c) hp ?_ ?_ ?_ ?_
  · rintro x rfl
    exact hc
  · rintro x rfl
    rw [Function.update_self]
    exact hv
  · intro x hx
    exact Function.update_of_ne hx _ _
  · intro x
    rw [List.mem_filter, decide_eq_true_iff]

omit [DecidableEq P] in
/-- A child without parent comes or goes. -/
theorem orphan (h : Linked kids up) {c : C} (hc : Orphan (up c)) {v : Option (Option P)}
    (hv : Orphan v) : Linked kids (Function.update up c v) := by
  constructor
  · intro q m hq x
    rw [h.mem_iff hq, Function.update_apply]
    by_cases hx : x = c
    · rw [if_pos hx, hx]
      exact iff_of_false (hc.ne q) (hv.ne q)
    · rw [if_neg hx]
  · intro x q hx
    rw [Function.update_apply] at hx
    by_cases hxc : x = c
    · rw [if_pos hxc] at hx
      exact absurd hx (hv.ne q)
    · rw [if_neg hxc] at hx
      exact h.exists_parent hx

omit [DecidableEq C] in
/-- A parent comes. -/
theorem newParent (h : Linked kids up) {p : P} (hp : kids p = none) :
    Linked (Function.update kids p (some [])) up := by
  constructor
  · intro q m hq x
    rw [Function.update_apply] at hq
    by_cases hqp : q = p
    · rw [if_pos hqp] at hq
      obtain rfl := Option.some.inj hq
      refine iff_of_false List.not_mem_nil fun hx => ?_
      obtain ⟨l, hl⟩ := h.exists_parent hx
      rw [hqp, hp] at hl
      cases hl
    · rw [if_neg hqp] at hq
      exact h.mem_iff hq x
  · intro x q hx
    rw [Function.update_apply]
    by_cases hqp : q = p
    · exact ⟨[], if_pos hqp⟩
    · rw [if_neg hqp]
      exact h.exists_parent hx

omit [DecidableEq C] in
/-- A parent without children goes. -/
theorem dropParent (h : Linked kids up) {p : P} (hp : kids p = some []) :
    Linked (Function.update kids p none) up := by
  constructor
  · intro q m hq x
    rw [Function.update_apply] at hq
    by_cases hqp : q = p
    · rw [if_pos hqp] at hq
      cases hq
    · rw [if_neg hqp] at hq
      exact h.mem_iff hq x
  · intro x q hx
    have hqp : q ≠ p := by
      rintro rfl
      exact List.not_mem_nil ((h.mem_iff hp x).mpr hx)
    rw [Function.update_apply, if_neg hqp]
    exact h.exists_parent hx

end Linked

end Mbb
