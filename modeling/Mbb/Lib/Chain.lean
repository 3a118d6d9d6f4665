import Mathlib.Data.List.Nodup
import Mathlib.Logic.Function.Basic

/-!
# Linked cells

Cells are linked by a pointer to the next one, which may be null. `Seg next p l q` says that from
the pointer `p` the links lead through the cells `l` to the pointer `q`. A list of cells ends in
null, and so no cell comes twice.
-/

namespace Mbb

variable {α : Type} {next next' : α → Option α} {p q r : Option α} {a : α} {l l' : List α}

/-- From `p` through the cells `l` to `q`. -/
def Seg (next : α → Option α) : Option α → List α → Option α → Prop
  | p, [], q => p = q
  | p, a :: l, q => p = some a ∧ Seg next (next a) l q

@[simp] theorem seg_nil : Seg next p [] q ↔ p = q := Iff.rfl

@[simp] theorem seg_cons : Seg next p (a :: l) q ↔ p = some a ∧ Seg next (next a) l q := Iff.rfl

namespace Seg

theorem append_iff : Seg next p (l ++ l') q ↔ ∃ r, Seg next p l r ∧ Seg next r l' q := by
  induction l generalizing p with
  | nil => simp
  | cons a l ih =>
    rw [List.cons_append, seg_cons, ih]
    constructor
    · rintro ⟨hp, r, hl, hl'⟩
      exact ⟨r, ⟨hp, hl⟩, hl'⟩
    · rintro ⟨r, ⟨hp, hl⟩, hl'⟩
      exact ⟨hp, r, hl, hl'⟩

theorem concat_iff : Seg next p (l ++ [a]) q ↔ Seg next p l (some a) ∧ next a = q := by
  rw [append_iff]
  constructor
  · rintro ⟨r, hl, rfl, hq⟩
    exact ⟨hl, hq⟩
  · rintro ⟨hl, hq⟩
    exact ⟨some a, hl, rfl, hq⟩

/-- Only the links of the cells count. -/
theorem congr (h : ∀ a ∈ l, next' a = next a) : Seg next' p l q ↔ Seg next p l q := by
  induction l generalizing p with
  | nil => exact Iff.rfl
  | cons a l ih =>
    rw [seg_cons, seg_cons, h a List.mem_cons_self,
      ih fun b hb => h b (List.mem_cons_of_mem a hb)]

/-- A cell that is not among them may be linked elsewhere. -/
theorem update_iff [DecidableEq α] (ha : a ∉ l) (v : Option α) :
    Seg (Function.update next a v) p l q ↔ Seg next p l q :=
  congr fun _ hb => Function.update_of_ne (ne_of_mem_of_not_mem hb ha) v next

theorem head? (h : Seg next p l none) : p = l.head? := by
  cases l with
  | nil => exact h
  | cons a l => exact h.1

theorem eq_nil (h : Seg next none l none) : l = [] := List.head?_eq_none_iff.mp h.head?.symm

/-- There is one list of cells from a pointer. -/
theorem unique (h : Seg next p l none) (h' : Seg next p l' none) : l = l' := by
  induction l generalizing p l' with
  | nil =>
    cases l' with
    | nil => rfl
    | cons b l' => exact absurd (h.symm.trans h'.1) (Option.some_ne_none b).symm
  | cons a l ih =>
    cases l' with
    | nil => exact absurd (h'.symm.trans h.1) (Option.some_ne_none a).symm
    | cons b l' =>
      obtain rfl := Option.some.inj (h.1.symm.trans h'.1)
      rw [ih h.2 h'.2]

/-- No cell comes twice, or the list would go round. -/
theorem nodup (h : Seg next p l none) : l.Nodup := by
  induction l generalizing p with
  | nil => exact List.nodup_nil
  | cons a l ih =>
    refine List.nodup_cons.mpr ⟨fun ha => ?_, ih h.2⟩
    obtain ⟨s, t, rfl⟩ := List.append_of_mem ha
    obtain ⟨r, -, rfl, ht⟩ := append_iff.mp h.2
    have heq := congrArg List.length (h.2.unique ht)
    rw [List.length_append, List.length_cons] at heq
    omega

/-- The list is cut behind a cell. -/
theorem cut [DecidableEq α] (h : Seg next p (l ++ a :: l') none) :
    Seg (Function.update next a none) p (l ++ [a]) none ∧
      Seg (Function.update next a none) (next a) l' none := by
  have hnd := h.nodup
  rw [List.nodup_append, List.nodup_cons] at hnd
  obtain ⟨-, ⟨ha', -⟩, hdisj⟩ := hnd
  obtain ⟨r, hl, rfl, hl'⟩ := append_iff.mp h
  have ha : a ∉ l := fun hmem => hdisj a hmem a List.mem_cons_self rfl
  refine ⟨concat_iff.mpr ⟨(update_iff ha none).mpr hl, Function.update_self a none next⟩, ?_⟩
  exact (update_iff ha' none).mpr hl'

end Seg

end Mbb
