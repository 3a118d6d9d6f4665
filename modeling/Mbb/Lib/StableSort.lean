import Mathlib.Order.Lattice
import Mathlib.Data.List.Basic

/-!
# Stable sorting by a key

`StableSort key l l'` says that `l'` has the elements of `l`, in the order of their keys, and that
elements of one key have the order that they have in `l`. Two parts that are sorted so are merged.
-/

namespace Mbb

variable {α κ : Type} [LinearOrder κ] {key : α → κ} {l l' m m' : List α}

/-- `l'` is `l`, sorted by `key`. -/
structure StableSort (key : α → κ) (l l' : List α) : Prop where
  /-- the same elements -/
  perm : l'.Perm l
  /-- in order -/
  sorted : l'.Pairwise fun a b => key a ≤ key b
  /-- elements of one key as before -/
  ties : ∀ k, (l'.filter fun a => decide (key a = k)) = l.filter fun a => decide (key a = k)

namespace StableSort

/-- One element or none is sorted. -/
theorem short (h : l.length ≤ 1) : StableSort key l l where
  perm := List.Perm.refl l
  sorted := by
    match l, h with
    | [], _ => exact List.Pairwise.nil
    | [a], _ => exact List.pairwise_singleton _ a
  ties := fun _ => rfl

theorem merge_sorted (hl : l.Pairwise fun a b => key a ≤ key b)
    (hm : m.Pairwise fun a b => key a ≤ key b) :
    (l.merge m fun a b => decide (key a ≤ key b)).Pairwise fun a b => key a ≤ key b := by
  have htrans : ∀ a b c, decide (key a ≤ key b) → decide (key b ≤ key c) →
      decide (key a ≤ key c) := by
    intro a b c hab hbc
    rw [decide_eq_true_iff] at hab hbc ⊢
    exact hab.trans hbc
  have htotal : ∀ a b, decide (key a ≤ key b) || decide (key b ≤ key a) := by
    intro a b
    rw [Bool.or_eq_true, decide_eq_true_iff, decide_eq_true_iff]
    exact le_total _ _
  have hmerge := List.pairwise_merge htrans htotal l m (hl.imp decide_eq_true)
    (hm.imp decide_eq_true)
  exact hmerge.imp of_decide_eq_true

/-- Of each key, the first list comes first. -/
theorem merge_ties (hl : l.Pairwise fun a b => key a ≤ key b) (k : κ) :
    ((l.merge m fun a b => decide (key a ≤ key b)).filter fun a => decide (key a = k)) =
      (l ++ m).filter fun a => decide (key a = k) := by
  induction l generalizing m with
  | nil => rw [List.nil_merge, List.nil_append]
  | cons a l ihl =>
    induction m with
    | nil => rw [List.merge_right, List.append_nil]
    | cons b m ihm =>
      by_cases hab : key a ≤ key b
      · rw [List.cons_merge_cons_pos _ _ _ (decide_eq_true hab), List.cons_append,
          List.filter_cons, List.filter_cons, ihl (List.pairwise_cons.mp hl).2]
      · -- `b` is taken, and all that is left of the first list has a greater key
        have hlt : ∀ c ∈ a :: l, key b < key c := by
          intro c hc
          rcases List.mem_cons.mp hc with rfl | hc
          · exact not_le.mp hab
          · exact (not_le.mp hab).trans_le ((List.pairwise_cons.mp hl).1 c hc)
        rw [List.cons_merge_cons_neg _ _ _ (by simpa using hab), List.filter_cons, ihm,
          List.filter_append, List.filter_append]
        by_cases hb : key b = k
        · have hnil : ((a :: l).filter fun a => decide (key a = k)) = [] := by
            apply List.filter_eq_nil_iff.mpr
            intro c hc
            rw [decide_eq_true_iff, ← hb]
            exact (hlt c hc).ne'
          rw [hnil, if_pos (decide_eq_true hb), List.filter_cons, if_pos (decide_eq_true hb),
            List.nil_append, List.nil_append]
        · have hb' : ¬ decide (key b = k) = true := by simpa using hb
          rw [if_neg hb', List.filter_cons (x := b), if_neg hb']

/-- **Two parts are merged.** -/
theorem merge (h : StableSort key l l') (hm : StableSort key m m') :
    StableSort key (l ++ m) (l'.merge m' fun a b => decide (key a ≤ key b)) where
  perm := (List.merge_perm_append _).trans (h.perm.append hm.perm)
  sorted := merge_sorted h.sorted hm.sorted
  ties := fun k => by
    rw [merge_ties h.sorted, List.filter_append, List.filter_append, h.ties, hm.ties]

/-- An element that stands before another one of its key stays before it. -/
theorem before {a b : α} (h : StableSort key l l') (hkey : key a = key b)
    (hsub : [a, b].Sublist l) : [a, b].Sublist l' := by
  have hfilter := hsub.filter fun c => decide (key c = key b)
  have hkeep : ([a, b].filter fun c => decide (key c = key b)) = [a, b] := by simp [hkey]
  rw [hkeep, ← h.ties] at hfilter
  exact hfilter.trans List.filter_sublist

end StableSort

end Mbb
