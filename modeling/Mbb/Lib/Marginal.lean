import Mathlib.Algebra.BigOperators.Group.Finset.Piecewise
import Mathlib.Data.BitVec
import Mbb.Lib.Ledger

/-!
# Sums over the rows of a ledger

Rows of a ledger are grouped by a function of the key; the marginal of a group is the sum
of its rows. Posting a list of amounts adds to the marginal what the list has for the
group, so a second ledger that is posted the same amounts under the key of the group holds
the marginals of the first.
-/

namespace Mbb

namespace Ledger

variable {K G V W : Type} [DecidableEq K] [DecidableEq G] [AddCommMonoid V] [AddCommMonoid W]

/-- The rows whose key is in the group `i`, with `f` read from each, summed. -/
def marginal (g : K → G) (f : V → W) (l : Ledger K V) (i : G) : W :=
  amount (l.rows.map fun r => (g r.1, f r.2)) i

theorem amount_unit (es : List (Unit × V)) : amount es () = (es.map Prod.snd).sum := by
  rw [amount, List.filter_eq_self.mpr fun e _ => decide_eq_true rfl]

/-- The keys that have a row. -/
def keys (l : Ledger K V) : Finset K := (l.rows.map Prod.fst).toFinset

theorem total_of_notMem {l : Ledger K V} {k : K} (h : k ∉ l.keys) : l.total k = 0 := by
  refine total_eq_zero (get?_eq_none.mpr fun hmem => h ?_)
  exact List.mem_toFinset.mpr hmem

/-- A marginal as a sum over any keys that include those of the ledger. -/
theorem marginal_eq_sum (g : K → G) {f : V → W} (hf : f 0 = 0) (l : Ledger K V) {S : Finset K}
    (hS : l.keys ⊆ S) (i : G) :
    marginal g f l i = ∑ k ∈ S, if g k = i then f (l.total k) else 0 := by
  have hout : ∀ k ∈ S, k ∉ l.keys → (if g k = i then f (l.total k) else 0) = 0 := by
    intro k _ hk
    rw [total_of_notMem hk, hf, ite_self]
  rw [← Finset.sum_subset hS hout, keys, List.sum_toFinset _ l.nodup, List.map_map, marginal]
  have hrows : ∀ rows : List (K × V), (∀ r ∈ rows, r ∈ l.rows) →
      amount (rows.map fun r => (g r.1, f r.2)) i =
        (rows.map ((fun k => if g k = i then f (l.total k) else 0) ∘ Prod.fst)).sum := by
    intro rows hrows
    induction rows with
    | nil => rfl
    | cons r rows ih =>
      have hr : l.total r.1 = r.2 := by
        rw [total, get?_of_mem (hrows r List.mem_cons_self)]
        rfl
      rw [List.map_cons, amount_cons, ih fun r' h => hrows r' (List.mem_cons_of_mem _ h),
        List.map_cons, List.sum_cons, Function.comp_apply, hr]
      by_cases hi : g r.1 = i
      · rw [if_pos hi, if_pos hi]
      · rw [if_neg hi, if_neg hi, zero_add]
  exact hrows l.rows fun _ h => h

/-- The amounts of a group add up to what the postings have for the group. -/
theorem sum_amount (g : K → G) (es : List (K × V)) {S : Finset K} (hS : ∀ e ∈ es, e.1 ∈ S)
    (i : G) :
    (∑ k ∈ S, if g k = i then amount es k else 0) = amount (es.map fun e => (g e.1, e.2)) i := by
  induction es with
  | nil => simp
  | cons e es ih =>
    have hsplit : ∀ k ∈ S, (if g k = i then amount (e :: es) k else 0) =
        (if e.1 = k then (if g e.1 = i then e.2 else 0) else 0) +
          if g k = i then amount es k else 0 := by
      intro k _
      rw [amount_cons]
      by_cases hk : e.1 = k
      · subst hk
        by_cases hi : g e.1 = i <;> simp [hi]
      · by_cases hi : g k = i <;> simp [hk, hi]
    rw [Finset.sum_congr rfl hsplit, Finset.sum_add_distrib, Finset.sum_ite_eq,
      if_pos (hS e List.mem_cons_self), ih fun e' h => hS e' (List.mem_cons_of_mem _ h),
      List.map_cons, amount_cons]
    by_cases hi : g e.1 = i
    · rw [if_pos hi, if_pos hi]
    · rw [if_neg hi, if_neg hi, zero_add]

/-- The amount after a list of postings. -/
theorem Posts.total_foldl {op : Ledger K V → K → V → Ledger K V} (hop : Posts op)
    (es : List (K × V)) (l : Ledger K V) (k : K) :
    (es.foldl (fun l e => op l e.1 e.2) l).total k = l.total k + amount es k := by
  rw [total, hop.foldl, posted]
  by_cases hk : k ∈ es.map Prod.fst
  · rw [if_pos hk]
    rfl
  · rw [if_neg hk, amount_eq_zero hk, add_zero]
    rfl

theorem amount_map_hom (φ : V →+ W) (es : List (K × V)) (k : K) :
    amount (es.map fun e => (e.1, φ e.2)) k = φ (amount es k) := by
  induction es with
  | nil => exact (map_zero φ).symm
  | cons e es ih =>
    rw [List.map_cons, amount_cons, amount_cons, ih]
    by_cases hk : e.1 = k
    · rw [if_pos hk, if_pos hk, map_add]
    · rw [if_neg hk, if_neg hk]

/-- A list of postings adds to a marginal what it has for the group. -/
theorem Posts.marginal_foldl {op : Ledger K V → K → V → Ledger K V} (hop : Posts op) (g : K → G)
    (es : List (K × V)) (l : Ledger K V) (i : G) :
    marginal g id (es.foldl (fun l e => op l e.1 e.2) l) i =
      marginal g id l i + amount (es.map fun e => (g e.1, e.2)) i := by
  have hS : ∀ e ∈ es, e.1 ∈ (es.foldl (fun l e => op l e.1 e.2) l).keys ∪ l.keys ∪
      (es.map Prod.fst).toFinset := fun e he =>
    Finset.mem_union_right _ (List.mem_toFinset.mpr (List.mem_map.mpr ⟨e, he, rfl⟩))
  rw [marginal_eq_sum g rfl _ (Finset.union_subset_left Finset.subset_union_left),
    marginal_eq_sum g rfl l (Finset.union_subset_right Finset.subset_union_left),
    ← sum_amount g es hS, ← Finset.sum_add_distrib]
  refine Finset.sum_congr rfl fun k _ => ?_
  rw [hop.total_foldl]
  by_cases hi : g k = i
  · simp only [if_pos hi, id_eq]
  · simp only [if_neg hi, add_zero]

/-- From no rows, the marginals of `f` are those of the postings when `f` is additive on
them. -/
theorem Posts.marginal_foldl_empty {op : Ledger K V → K → V → Ledger K V} (hop : Posts op)
    (g : K → G) {f : V → W} (hf : f 0 = 0) (es : List (K × V))
    (h : ∀ k, f (amount es k) = amount (es.map fun e => (e.1, f e.2)) k) (i : G) :
    marginal g f (es.foldl (fun l e => op l e.1 e.2) empty) i =
      amount (es.map fun e => (g e.1, f e.2)) i := by
  have hS : ∀ e ∈ es.map fun e => (e.1, f e.2), e.1 ∈
      (es.foldl (fun l e => op l e.1 e.2) empty).keys ∪ (es.map Prod.fst).toFinset := by
    intro e he
    obtain ⟨e', he', rfl⟩ := List.mem_map.mp he
    exact Finset.mem_union_right _ (List.mem_toFinset.mpr (List.mem_map.mpr ⟨e', he', rfl⟩))
  have hsum := sum_amount g _ hS i
  rw [List.map_map] at hsum
  rw [marginal_eq_sum g hf _ Finset.subset_union_left]
  refine Eq.trans (Finset.sum_congr rfl fun k _ => ?_) hsum
  rw [hop.total_foldl, total_eq_zero (get?_empty k), zero_add, h]

/-- Resetting whole groups. -/
theorem marginal_reset (g : K → G) {p : K → Bool} {q : G → Bool} (hpq : ∀ k, p k = q (g k))
    (l : Ledger K V) (i : G) :
    marginal g id (l.reset p) i = if q i then 0 else marginal g id l i := by
  rw [marginal_eq_sum g rfl (l.reset p) (S := (l.reset p).keys ∪ l.keys)
      Finset.subset_union_left, marginal_eq_sum g rfl l (S := (l.reset p).keys ∪ l.keys)
      Finset.subset_union_right]
  by_cases hq : q i = true
  · rw [if_pos hq]
    refine Finset.sum_eq_zero fun k _ => ?_
    by_cases hi : g k = i
    · rw [if_pos hi, total_reset, hpq, hi, if_pos hq]
      rfl
    · rw [if_neg hi]
  · rw [if_neg hq]
    refine Finset.sum_congr rfl fun k _ => ?_
    by_cases hi : g k = i
    · rw [if_pos hi, if_pos hi, total_reset, hpq, hi, if_neg hq]
    · rw [if_neg hi, if_neg hi]

/-! ## Same rows

Two ledgers may have the same rows in another order; nothing that is looked up or added up tells
them apart.
-/

/-- The ledgers have the same rows, in whatever order. -/
def Same (l l' : Ledger K V) : Prop := ∀ k, l.get? k = l'.get? k

omit [AddCommMonoid V] in
theorem Same.length_eq {l l' : Ledger K V} (h : Same l l') : l.rows.length = l'.rows.length := by
  have hmem : ∀ k, k ∈ l.rows.map Prod.fst ↔ k ∈ l'.rows.map Prod.fst := by
    intro k
    rw [← not_iff_not, ← get?_eq_none, ← get?_eq_none, h k]
  have hperm := (List.perm_ext_iff_of_nodup l.nodup l'.nodup).mpr hmem
  simpa using hperm.length_eq

theorem Same.total_eq {l l' : Ledger K V} (h : Same l l') (k : K) : l.total k = l'.total k := by
  rw [total, total, h k]

/-- Postings that are the same for each key keep rows the same. -/
theorem Posts.same {op : Ledger K V → K → V → Ledger K V} (hop : Posts op)
    {es es' : List (K × V)} (hmem : ∀ k, k ∈ es.map Prod.fst ↔ k ∈ es'.map Prod.fst)
    (hamount : ∀ k, amount es k = amount es' k) {l l' : Ledger K V} (h : Same l l') :
    Same (es.foldl (fun l e => op l e.1 e.2) l) (es'.foldl (fun l e => op l e.1 e.2) l') := by
  intro k
  rw [hop.foldl, hop.foldl, posted, posted, h.total_eq, hamount, h k]
  simp only [hmem]

omit [AddCommMonoid V] in
theorem Same.update {l l' : Ledger K V} (h : Same l l') (p : K → Bool) (f : V → V) :
    Same (l.update p f) (l'.update p f) := by
  intro k
  rw [get?_update, get?_update, h k]

/-! ## Machine words

Sums of words are sums of numbers as long as these fit, and it is enough that the last one does.
-/

/-- Words add up like numbers as long as the sum fits. -/
theorem toNat_amount {w : ℕ} (es : List (K × BitVec w)) (k : K)
    (h : amount (es.map fun e => (e.1, e.2.toNat)) k < 2 ^ w) :
    (amount es k).toNat = amount (es.map fun e => (e.1, e.2.toNat)) k := by
  induction es with
  | nil => exact BitVec.toNat_zero
  | cons e es ih =>
    rw [List.map_cons, amount_cons] at h ⊢
    rw [amount_cons]
    by_cases hk : e.1 = k
    · rw [if_pos hk] at h ⊢
      rw [if_pos hk, BitVec.toNat_add, ih (lt_of_le_of_lt (Nat.le_add_left _ _) h),
        Nat.mod_eq_of_lt h]
    · rw [if_neg hk] at h ⊢
      rw [if_neg hk, ih h]

/-- A group has no more than the whole list. -/
theorem amount_le_sum (es : List (K × ℕ)) (k : K) : amount es k ≤ (es.map Prod.snd).sum := by
  induction es with
  | nil => exact le_refl 0
  | cons e es ih =>
    rw [amount_cons, List.map_cons, List.sum_cons]
    by_cases hk : e.1 = k
    · rw [if_pos hk]
      exact Nat.add_le_add_left ih _
    · rw [if_neg hk]
      exact le_trans ih (Nat.le_add_left _ _)

end Ledger

end Mbb
