import Mathlib.Algebra.BigOperators.Group.List.Basic
import Mathlib.Algebra.GroupWithZero.Nat
import Mathlib.Algebra.Order.BigOperators.Group.List

/-!
# Ledgers

A ledger keeps one amount for each of its keys. Amounts are posted to keys; the rows of
some keys can be reset to zero. Posting a list of amounts adds to each key the sum of what
the list has for it, in whatever order the list comes. Resetting and posting again gives
the same ledger as once, except at the keys that receive something and are not reset.
-/

namespace Mbb

/-- Rows, no two of one key. -/
structure Ledger (K V : Type) : Type where
  /-- the rows -/
  rows : List (K × V)
  /-- one row for a key -/
  nodup : (rows.map Prod.fst).Nodup

namespace Ledger

variable {K V W : Type} [DecidableEq K]

/-- No rows. -/
def empty : Ledger K V := ⟨[], List.nodup_nil⟩

/-- The amount of a key. -/
def get? (l : Ledger K V) (k : K) : Option V :=
  (l.rows.find? fun r => decide (r.1 = k)).map Prod.snd

/-- Change the amounts of the keys in `p`. -/
def update (l : Ledger K V) (p : K → Bool) (f : V → V) : Ledger K V :=
  ⟨l.rows.map fun r => if p r.1 then (r.1, f r.2) else r, by
    have hkeys : (l.rows.map fun r => if p r.1 then (r.1, f r.2) else r).map Prod.fst =
        l.rows.map Prod.fst := by
      rw [List.map_map]
      refine List.map_congr_left fun r _ => ?_
      by_cases h : p r.1 <;> simp [h]
    rw [hkeys]
    exact l.nodup⟩

/-- Nothing is found where there is no row. -/
theorem get?_eq_none {l : Ledger K V} {k : K} : l.get? k = none ↔ k ∉ l.rows.map Prod.fst := by
  rw [get?, Option.map_eq_none_iff, List.find?_eq_none, List.mem_map]
  constructor
  · rintro h ⟨r, hr, rfl⟩
    exact absurd (h r hr) (by simp)
  · intro h r hr hk
    exact h ⟨r, hr, of_decide_eq_true hk⟩

/-- A row for a new key. -/
def insert (l : Ledger K V) (k : K) (v : V) (h : l.get? k = none) : Ledger K V :=
  ⟨l.rows ++ [(k, v)], by
    rw [List.map_append, List.nodup_append]
    refine ⟨l.nodup, by simp, fun a ha b hb => ?_⟩
    obtain rfl : b = k := by simpa using hb
    exact fun hab => get?_eq_none.mp h (hab ▸ ha)⟩

/-! ## Lookup

The rows of a ledger are a list with no key twice, so a lookup may stop at the first row of a key.
Each operation has one lemma that says what a lookup finds after it; later proofs use these lemmas
and not the lists.
-/

/-- A function applied to the amounts of some rows is applied to what is found, if its key is one of
them. -/
theorem find?_mapRows (rows : List (K × V)) (p : K → Bool) (f : V → V) (k : K) :
    ((rows.map fun r => if p r.1 then (r.1, f r.2) else r).find? fun r => decide (r.1 = k)).map
      Prod.snd =
    ((rows.find? fun r => decide (r.1 = k)).map Prod.snd).map fun v => if p k then f v else v := by
  induction rows with
  | nil => rfl
  | cons r rows ih =>
    obtain ⟨k', v⟩ := r
    rw [List.map_cons, List.find?_cons, List.find?_cons]
    by_cases hk : k' = k
    · subst hk
      by_cases hp : p k' <;> simp [hp]
    · by_cases hp : p k' <;> simpa [hp, hk] using ih

/-- An update of the rows of some keys, at a key. -/
theorem get?_update (l : Ledger K V) (p : K → Bool) (f : V → V) (k : K) :
    (l.update p f).get? k = (l.get? k).map fun v => if p k then f v else v :=
  find?_mapRows l.rows p f k

/-- A new row is found at its key and changes nothing at others. -/
theorem get?_insert (l : Ledger K V) {k : K} (v : V) (h : l.get? k = none) (k' : K) :
    (l.insert k v h).get? k' = if k' = k then some v else l.get? k' := by
  rw [get?, insert, List.find?_append, List.find?_singleton]
  by_cases hk : k' = k
  · subst hk
    have hnone := Option.map_eq_none_iff.mp (get?_eq_none.mpr (get?_eq_none.mp h))
    rw [hnone]
    simp
  · rw [if_neg hk, decide_eq_false fun h' => hk h'.symm]
    simp [get?]

/-- The empty ledger has no row. -/
@[simp] theorem get?_empty (k : K) : (empty : Ledger K V).get? k = none := rfl

/-- The rows of one key. -/
theorem filter_rows (l : Ledger K V) (k : K) :
    (l.rows.filter fun r => decide (r.1 = k)) = (l.get? k).toList.map fun v => (k, v) := by
  obtain ⟨rows, hnd⟩ := l
  simp only [get?]
  induction rows with
  | nil => rfl
  | cons r rows ih =>
    obtain ⟨k', v⟩ := r
    rw [List.map_cons, List.nodup_cons] at hnd
    by_cases hk : k' = k
    · subst hk
      have hrest : rows.filter (fun r => decide (r.1 = k')) = [] := by
        refine List.filter_eq_nil_iff.mpr fun r hr hr' => hnd.1 ?_
        exact List.mem_map.mpr ⟨r, hr, of_decide_eq_true hr'⟩
      simp [hrest]
    · simpa [hk] using ih hnd.2

/-- A row is found at its key, since no other row has the key. -/
theorem get?_of_mem {l : Ledger K V} {r : K × V} (h : r ∈ l.rows) : l.get? r.1 = some r.2 := by
  have hmem : r ∈ l.rows.filter fun r' => decide (r'.1 = r.1) :=
    List.mem_filter.mpr ⟨h, decide_eq_true rfl⟩
  rw [filter_rows] at hmem
  obtain ⟨v, hv, hr⟩ := List.mem_map.mp hmem
  rw [← hr]
  exact Option.mem_toList.mp (hr ▸ hv)

/-- What is found at a key is a row. -/
theorem mem_of_get? {l : Ledger K V} {k : K} {v : V} (h : l.get? k = some v) : (k, v) ∈ l.rows := by
  obtain ⟨r, hr, rfl⟩ := Option.map_eq_some_iff.mp h
  have hk : r.1 = k := by simpa using List.find?_some hr
  obtain rfl := hk
  exact List.mem_of_find?_eq_some hr

/-- Rows of different keys give different things. -/
theorem nodup_filterMap (l : Ledger K V) {f : K × V → Option W} (hf : ∀ k v k' v' w,
    l.get? k = some v → l.get? k' = some v' → f (k, v) = some w → f (k', v') = some w → k = k') :
    (l.rows.filterMap f).Nodup := by
  rw [List.Nodup, List.pairwise_filterMap]
  have hkeys : l.rows.Pairwise fun r r' => r.1 ≠ r'.1 := List.pairwise_map.mp l.nodup
  refine hkeys.imp_of_mem fun {r r'} hr hr' hne w hw w' hw' heq => hne ?_
  subst heq
  exact hf _ _ _ _ _ (get?_of_mem hr) (get?_of_mem hr') hw hw'

/-! ## Rows as records -/

/-- Change the row of a key. -/
def modify (l : Ledger K V) (k : K) (f : V → V) : Ledger K V :=
  l.update (fun k' => decide (k' = k)) f

/-- The rows of the keys that are not in `p`. -/
def drop (l : Ledger K V) (p : K → Bool) : Ledger K V :=
  ⟨l.rows.filter fun r => !p r.1, l.nodup.sublist (List.filter_sublist.map _)⟩

/-- A change at one key. -/
theorem get?_modify (l : Ledger K V) (k : K) (f : V → V) (k' : K) :
    (l.modify k f).get? k' = if k' = k then (l.get? k).map f else l.get? k' := by
  rw [modify, get?_update]
  by_cases hk : k' = k
  · simp [hk]
  · cases l.get? k' <;> simp [hk]

/-- Rows that are dropped are found no more. -/
theorem get?_drop (l : Ledger K V) (p : K → Bool) (k : K) :
    (l.drop p).get? k = if p k then none else l.get? k := by
  obtain ⟨rows, hnd⟩ := l
  simp only [get?, drop]
  induction rows with
  | nil => simp
  | cons r rows ih =>
    have ih := ih (List.nodup_cons.mp hnd).2
    by_cases hk : r.1 = k
    · subst hk
      cases hp : p r.1 with
      | true =>
        rw [hp] at ih
        simpa [List.filter_cons, hp] using ih
      | false => simp [hp]
    · cases hp : p r.1 with
      | true => simpa [List.filter_cons, hp, hk] using ih
      | false => simpa [List.filter_cons, hp, hk] using ih

/-- The row of a key, in place of the one it had. -/
def put (l : Ledger K V) (k : K) (v : V) : Ledger K V :=
  (l.drop fun k' => decide (k' = k)).insert k v (by rw [get?_drop]; simp)

/-- What is put at a key is found there, whether there was a row before or not. -/
theorem get?_put (l : Ledger K V) (k : K) (v : V) (k' : K) :
    (l.put k v).get? k' = if k' = k then some v else l.get? k' := by
  rw [put, get?_insert, get?_drop]
  by_cases hk : k' = k <;> simp [hk]

/-- The first row in `p`. -/
def find? (l : Ledger K V) (p : V → Bool) : Option (K × V) := l.rows.find? fun r => p r.2

/-- A row that a search gives is found at its key. -/
theorem get?_of_find? {l : Ledger K V} {p : V → Bool} {r : K × V} (h : l.find? p = some r) :
    l.get? r.1 = some r.2 := get?_of_mem (List.mem_of_find?_eq_some h)

/-- A change that the search does not see. -/
theorem find?_modify {p : V → Bool} {f : V → V} (hp : ∀ v, p (f v) = p v) (l : Ledger K V)
    (k : K) : (l.modify k f).find? p =
      (l.find? p).map fun r => (r.1, if r.1 = k then f r.2 else r.2) := by
  obtain ⟨rows, hnd⟩ := l
  simp only [modify, update, find?]
  clear hnd
  induction rows with
  | nil => rfl
  | cons r rows ih =>
    have hrow : p (if decide (r.1 = k) = true then (r.1, f r.2) else r).2 = p r.2 := by
      by_cases hk : r.1 = k <;> simp [hk, hp]
    rw [List.map_cons, List.find?_cons, List.find?_cons, hrow]
    cases p r.2 with
    | true => by_cases hk : r.1 = k <;> simp [hk]
    | false => exact ih

/-- Two tables have the same keys. -/
def SameKeys (l : Ledger K V) (m : Ledger K W) : Prop := ∀ k, l.get? k = none ↔ m.get? k = none

/-- A change makes no row and removes none. -/
theorem get?_modify_eq_none {l : Ledger K V} {k k' : K} {f : V → V} :
    (l.modify k f).get? k' = none ↔ l.get? k' = none := by
  rw [get?_modify]
  by_cases hk : k' = k
  · rw [if_pos hk, hk, Option.map_eq_none_iff]
  · rw [if_neg hk]

/-- A change on one side keeps the keys the same. -/
theorem SameKeys.modify_left {l : Ledger K V} {m : Ledger K W} (h : l.SameKeys m) (k : K)
    (f : V → V) : (l.modify k f).SameKeys m := fun k' => get?_modify_eq_none.trans (h k')

/-- So does a change on each side. -/
theorem SameKeys.modify {l : Ledger K V} {m : Ledger K W} (h : l.SameKeys m) (k : K)
    (f : V → V) (g : W → W) : (l.modify k f).SameKeys (m.modify k g) :=
  fun k' => (h.modify_left k f k').trans get?_modify_eq_none.symm

/-- A new row on each side, at one key, keeps the keys the same. -/
theorem SameKeys.put {l : Ledger K V} {m : Ledger K W} (h : l.SameKeys m) {k : K} (v : V) (w : W)
    (hk : m.get? k = none) : (l.put k v).SameKeys (m.insert k w hk) := by
  intro k'
  rw [get?_put, get?_insert]
  by_cases hk' : k' = k
  · rw [if_pos hk', if_pos hk']
    exact iff_of_false (Option.some_ne_none v) (Option.some_ne_none w)
  · rw [if_neg hk', if_neg hk']
    exact h k'

/-! ## Columns

A column is one member of the rows as a function of the keys. Rows that are put and dropped change
it as functions are updated.
-/

/-- What `f` reads in the row of each key. -/
def col (l : Ledger K V) (f : V → W) (k : K) : Option W := (l.get? k).map f

/-- A column at a row that is there. -/
theorem col_of_get? {l : Ledger K V} {k : K} {v : V} (h : l.get? k = some v) (f : V → W) :
    l.col f k = some (f v) := by rw [col, h, Option.map_some]

/-- A column has nothing where there is no row. -/
theorem col_eq_none {l : Ledger K V} {f : V → W} {k : K} : l.col f k = none ↔ l.get? k = none :=
  Option.map_eq_none_iff

/-- The column of a table with a row changed. -/
theorem col_modify {l : Ledger K V} {k : K} {v : V} (h : l.get? k = some v) (g : V → V)
    (f : V → W) : (l.modify k g).col f = Function.update (l.col f) k (some (f (g v))) := by
  funext k'
  rw [col, get?_modify, Function.update_apply]
  by_cases hk : k' = k
  · rw [if_pos hk, if_pos hk, h]
    rfl
  · rw [if_neg hk, if_neg hk]
    rfl

/-- A change that the column does not show. -/
theorem col_modify_same {g : V → V} {f : V → W} (hfg : ∀ v, f (g v) = f v) (l : Ledger K V)
    (k : K) : (l.modify k g).col f = l.col f := by
  funext k'
  rw [col, get?_modify, col]
  by_cases hk : k' = k
  · rw [if_pos hk, hk, Option.map_map]
    exact congrArg (fun f => (l.get? k).map f) (funext hfg)
  · rw [if_neg hk]

/-- A column after a row is put. -/
theorem col_put (l : Ledger K V) (k : K) (v : V) (f : V → W) :
    (l.put k v).col f = Function.update (l.col f) k (some (f v)) := by
  funext k'
  rw [col, get?_put, Function.update_apply]
  by_cases hk : k' = k
  · rw [if_pos hk, if_pos hk, Option.map_some]
  · rw [if_neg hk, if_neg hk, col]

/-- A column after rows are dropped. -/
theorem col_drop (l : Ledger K V) (p : K → Bool) (f : V → W) (k : K) :
    (l.drop p).col f k = if p k then none else l.col f k := by
  rw [col, get?_drop]
  by_cases hk : p k = true
  · rw [if_pos hk, if_pos hk, Option.map_none]
  · rw [if_neg hk, if_neg hk, col]

/-- A column after one row is dropped. -/
theorem col_drop_one (l : Ledger K V) (k : K) (f : V → W) :
    (l.drop fun k' => decide (k' = k)).col f = Function.update (l.col f) k none := by
  funext k'
  rw [col_drop, Function.update_apply]
  exact if_congr decide_eq_true_iff rfl rfl

/-! ## Tables that match

Two tables have the same keys, and the rows at a key stand in a relation: a table of objects beside
the rows of a database, for example. The relation is given by the caller.
-/

/-- The two tables have the same keys, and `R` holds between their rows. -/
def Matches (R : V → W → Prop) (l : Ledger K V) (m : Ledger K W) : Prop :=
  ∀ k, Option.Rel R (l.get? k) (m.get? k)

section Matches

variable {R : V → W → Prop} {l : Ledger K V} {m : Ledger K W}

/-- Tables that match have the same keys. -/
theorem Matches.sameKeys (h : l.Matches R m) : l.SameKeys m := by
  intro k
  have hk := h k
  generalize l.get? k = v at hk
  generalize m.get? k = w at hk
  cases hk with
  | some hR => exact iff_of_false (Option.some_ne_none _) (Option.some_ne_none _)
  | none => exact iff_of_true rfl rfl

/-- What is found in one of them has its partner in the other. -/
theorem Matches.get? (h : l.Matches R m) {k : K} {v : V} (hv : l.get? k = some v) :
    ∃ w, m.get? k = some w ∧ R v w := by
  have hk := h k
  rw [hv] at hk
  generalize m.get? k = w at hk
  cases hk with
  | some hR => exact ⟨_, rfl, hR⟩

/-- Changes of both partners that keep the relation keep the tables matching. -/
theorem Matches.modify (h : l.Matches R m) {k : K} {f : V → V} {g : W → W}
    (hR : ∀ v w, l.get? k = some v → R v w → R (f v) (g w)) :
    (l.modify k f).Matches R (m.modify k g) := by
  intro k'
  rw [get?_modify, get?_modify]
  by_cases hk : k' = k
  · rw [if_pos hk, if_pos hk]
    cases hv : l.get? k with
    | none =>
      rw [(h.sameKeys k).mp hv]
      exact .none
    | some v =>
      obtain ⟨w, hw, hvw⟩ := h.get? hv
      rw [hw]
      exact .some (hR v w hv hvw)
  · rw [if_neg hk, if_neg hk]
    exact h k'

/-- A change on one side alone, if the relation does not mind it. -/
theorem Matches.modify_left (h : l.Matches R m) {f : V → V} (hR : ∀ v w, R v w → R (f v) w)
    (k : K) : (l.modify k f).Matches R m := by
  intro k'
  rw [get?_modify]
  by_cases hk : k' = k
  · rw [if_pos hk, hk]
    cases hv : l.get? k with
    | none =>
      rw [(h.sameKeys k).mp hv]
      exact .none
    | some v =>
      obtain ⟨w, hw, hvw⟩ := h.get? hv
      rw [hw]
      exact .some (hR v w hvw)
  · rw [if_neg hk]
    exact h k'

/-- New partners at one key. -/
theorem Matches.put (h : l.Matches R m) {k : K} {v : V} {w : W} (hk : m.get? k = none)
    (hR : R v w) : (l.put k v).Matches R (m.insert k w hk) := by
  intro k'
  rw [get?_put, get?_insert]
  by_cases hk' : k' = k
  · rw [if_pos hk', if_pos hk']
    exact .some hR
  · rw [if_neg hk', if_neg hk']
    exact h k'

/-- Rows are dropped from both tables by conditions that agree on partners. -/
theorem Matches.drop (h : l.Matches R m) {p q : K → Bool}
    (hpq : ∀ k v w, l.get? k = some v → m.get? k = some w → R v w → p k = q k) :
    (l.drop p).Matches R (m.drop q) := by
  intro k
  rw [get?_drop, get?_drop]
  cases hv : l.get? k with
  | none =>
    rw [(h.sameKeys k).mp hv, ite_self, ite_self]
    exact .none
  | some v =>
    obtain ⟨w, hw, hvw⟩ := h.get? hv
    rw [hw, hpq k v w hv hw hvw]
    by_cases hq : q k = true
    · rw [if_pos hq, if_pos hq]
      exact .none
    · rw [if_neg hq, if_neg hq]
      exact .some hvw

/-- A change that changes nothing. -/
theorem modify_eq_self {k : K} {v : V} (h : l.get? k = some v) {f : V → V} (hf : f v = v) :
    l.modify k f = l := by
  obtain ⟨rows, hnd⟩ := l
  rw [modify, update, mk.injEq]
  refine (List.map_congr_left fun r hr => ?_).trans (List.map_id rows)
  by_cases hk : r.1 = k
  · have hr' := get?_of_mem (l := ⟨rows, hnd⟩) hr
    rw [hk, h] at hr'
    rw [if_pos (decide_eq_true hk), ← Option.some.inj hr', hf, id, Option.some.inj hr']
  · rw [if_neg (by rwa [decide_eq_true_iff]), id]

/-- A change at a row leaves the ledger as it is exactly when it leaves the row. -/
theorem modify_eq_self_iff {k : K} {v : V} (h : l.get? k = some v) {f : V → V} :
    l.modify k f = l ↔ f v = v := by
  refine ⟨fun heq => ?_, modify_eq_self h⟩
  have hk := get?_modify l k f k
  rw [heq, if_pos rfl, h, Option.map_some] at hk
  exact (Option.some.inj hk).symm

end Matches

/-! ## Sums over the rows

A member that counts something, added up over all rows.
-/

/-- What `f` reads in the rows, added up. -/
def sumBy (l : Ledger K V) (f : V → ℕ) : ℕ := (l.rows.map fun r => f r.2).sum

section SumBy

variable {l : Ledger K V} {f : V → ℕ} {k : K} {v : V}

/-- A change that keeps what is summed keeps the sum. -/
theorem sumBy_modify_same {g : V → V} (hfg : ∀ v, f (g v) = f v) (l : Ledger K V) (k : K) :
    (l.modify k g).sumBy f = l.sumBy f := by
  rw [sumBy, modify, update, List.map_map, sumBy]
  congr 1
  refine List.map_congr_left fun r _ => ?_
  by_cases hk : r.1 = k <;> simp [hk, hfg]

/-- A new row adds what it has. -/
theorem sumBy_insert (h : l.get? k = none) : (l.insert k v h).sumBy f = l.sumBy f + f v := by
  simp [sumBy, insert]

/-- A row that goes takes its part with it. -/
theorem sumBy_drop_one (h : l.get? k = some v) :
    (l.drop fun k' => decide (k' = k)).sumBy f + f v = l.sumBy f := by
  have hrows : ∀ rows : List (K × V), (rows.map fun r => f r.2).sum =
      ((rows.filter fun r => !decide (r.1 = k)).map fun r => f r.2).sum +
        ((rows.filter fun r => decide (r.1 = k)).map fun r => f r.2).sum := by
    intro rows
    induction rows with
    | nil => rfl
    | cons r rows ih =>
      by_cases hk : r.1 = k
      · simp [hk, ih]
        omega
      · simp [hk, ih]
        omega
  have hone := filter_rows l k
  rw [h] at hone
  rw [sumBy, sumBy, hrows l.rows, hone]
  simp [drop]

/-- Where there is no row nothing is taken off. -/
theorem sumBy_drop_none (h : l.get? k = none) :
    (l.drop fun k' => decide (k' = k)).sumBy f = l.sumBy f := by
  have hrows : (l.rows.filter fun r => !decide (r.1 = k)) = l.rows := by
    refine List.filter_eq_self.mpr fun r hr => ?_
    have hne : r.1 ≠ k := fun hk => get?_eq_none.mp h (List.mem_map.mpr ⟨r, hr, hk⟩)
    simp [hne]
  exact congrArg (fun rows => (rows.map fun r => f r.2).sum) hrows

/-- The same for a row that is put where there was none. -/
theorem sumBy_put (h : l.get? k = none) : (l.put k v).sumBy f = l.sumBy f + f v := by
  rw [put, sumBy_insert, sumBy_drop_none h]

/-- No row has more than the sum. -/
theorem le_sumBy (h : l.get? k = some v) : f v ≤ l.sumBy f := by
  rw [← sumBy_drop_one h]
  exact Nat.le_add_left _ _

end SumBy

/-! ## Posting -/

variable [AddCommMonoid V]

/-- The amount of a key, zero without a row. -/
def total (l : Ledger K V) (k : K) : V := (l.get? k).getD 0

/-- Add an amount in the row of a key. -/
def addTo (l : Ledger K V) (k : K) (v : V) : Ledger K V :=
  l.update (fun k' => decide (k' = k)) (· + v)

/-- An amount added to a row that is there. -/
theorem get?_addTo (l : Ledger K V) (k : K) (v : V) (k' : K) :
    (l.addTo k v).get? k' = if k' = k then (l.get? k).map (· + v) else l.get? k' := by
  rw [addTo, get?_update]
  by_cases hk : k' = k
  · simp [hk]
  · cases l.get? k' <;> simp [hk]

/-- The operation adds an amount to one key. -/
def Posts (op : Ledger K V → K → V → Ledger K V) : Prop :=
  ∀ l k v k', (op l k v).get? k' = if k' = k then some (l.total k + v) else l.get? k'

/-- What a list of postings has for a key. -/
def amount (es : List (K × V)) (k : K) : V :=
  ((es.filter fun e => decide (e.1 = k)).map Prod.snd).sum

/-- No postings, no amount. -/
@[simp] theorem amount_nil (k : K) : amount ([] : List (K × V)) k = 0 := rfl

/-- The first posting counts for its own key. -/
theorem amount_cons (e : K × V) (es : List (K × V)) (k : K) :
    amount (e :: es) k = if e.1 = k then e.2 + amount es k else amount es k := by
  by_cases h : e.1 = k <;> simp [amount, h]

/-- Two lists of postings add up. -/
theorem amount_append (es es' : List (K × V)) (k : K) :
    amount (es ++ es') k = amount es k + amount es' k := by
  rw [amount, List.filter_append, List.map_append, List.sum_append]
  rfl

/-- The order of postings does not count. -/
theorem amount_perm {es es' : List (K × V)} (h : es.Perm es') (k : K) :
    amount es k = amount es' k := ((h.filter _).map _).sum_eq

/-- A key without postings gets nothing. -/
theorem amount_eq_zero {es : List (K × V)} {k : K} (h : k ∉ es.map Prod.fst) :
    amount es k = 0 := by
  have hnil : (es.filter fun e => decide (e.1 = k)) = [] := by
    refine List.filter_eq_nil_iff.mpr fun e he hk => h ?_
    exact List.mem_map.mpr ⟨e, he, of_decide_eq_true hk⟩
  rw [amount, hnil]
  rfl

/-- A key without a row has nothing. -/
theorem total_eq_zero {l : Ledger K V} {k : K} (h : l.get? k = none) : l.total k = 0 := by
  rw [total, h]
  rfl

/-- What the list `es` of postings makes of the amount of a key. -/
def posted (es : List (K × V)) (l : Ledger K V) (k : K) : Option V :=
  if k ∈ es.map Prod.fst then some (l.total k + amount es k) else l.get? k

/-- Posting a list, one after the other. -/
theorem Posts.foldl {op : Ledger K V → K → V → Ledger K V} (hop : Posts op) (es : List (K × V))
    (l : Ledger K V) (k : K) :
    (es.foldl (fun l e => op l e.1 e.2) l).get? k = posted es l k := by
  induction es generalizing l with
  | nil => simp [posted]
  | cons e es ih =>
    have hget := hop l e.1 e.2 k
    rw [List.foldl_cons, ih, posted, posted, amount_cons, total, hget]
    by_cases hk : k = e.1
    · subst hk
      by_cases hmem : e.1 ∈ es.map Prod.fst
      · simp [hmem, add_assoc]
      · simp [hmem, amount_eq_zero hmem]
    · have hmem : k ∈ (e :: es).map Prod.fst ↔ k ∈ es.map Prod.fst := by
        rw [List.map_cons, List.mem_cons, or_iff_right hk]
      simp only [hk, Ne.symm hk, total, if_false, hmem]

/-- Postings read from the rows of a ledger. -/
theorem amount_rows [AddCommMonoid W] (l : Ledger K V) {f : V → W} (hf : f 0 = 0) (k : K) :
    amount (l.rows.map fun r => (r.1, f r.2)) k = f (l.total k) := by
  have hrows : ((l.rows.map fun r => (r.1, f r.2)).filter fun e => decide (e.1 = k)).map Prod.snd =
      (l.rows.filter fun r => decide (r.1 = k)).map fun r => f r.2 := by
    rw [List.filter_map, List.map_map]
    rfl
  rw [amount, hrows, filter_rows, total]
  cases l.get? k with
  | none => simp [hf]
  | some v => simp

/-! ## Reset and post again

Filling a table twice gives the same as filling it once, except at the keys that are filled and not
reset before.
-/

/-- The rows of the keys in `p` set to zero. -/
def reset (l : Ledger K V) (p : K → Bool) : Ledger K V := l.update p fun _ => 0

/-- A reset keeps the rows, with nothing in those of the given keys. -/
theorem get?_reset (l : Ledger K V) (p : K → Bool) (k : K) :
    (l.reset p).get? k = (l.get? k).map fun v => if p k then 0 else v := get?_update l p _ k

/-- What a reset leaves at a key. -/
theorem total_reset (l : Ledger K V) (p : K → Bool) (k : K) :
    (l.reset p).total k = if p k then 0 else l.total k := by
  rw [total, get?_reset, total]
  cases l.get? k with
  | none => simp
  | some v => rfl

/-- `l'` is `l` with the keys in `p` reset and the list `es` then posted. -/
def Refilled (p : K → Bool) (es : List (K × V)) (l l' : Ledger K V) : Prop :=
  ∀ k, l'.get? k = posted es (l.reset p) k

/-- The second time changes the keys that receive something and are not reset. -/
theorem Refilled.twice_iff {V : Type} [AddCancelCommMonoid V] {p : K → Bool} {es : List (K × V)}
    {l l₁ l₂ : Ledger K V} (h₁ : Refilled p es l l₁) (h₂ : Refilled p es l₁ l₂) :
    (∀ k, l₂.get? k = l₁.get? k) ↔ ∀ k, p k = false → amount es k = 0 := by
  refine forall_congr' fun k => ?_
  by_cases hk : k ∈ es.map Prod.fst
  · have hk₁ : l₁.get? k = some ((l.reset p).total k + amount es k) := by
      rw [h₁ k, posted, if_pos hk]
    have htot : l₁.total k = (l.reset p).total k + amount es k := by
      rw [total, hk₁]
      rfl
    rw [h₂ k, posted, if_pos hk, hk₁, Option.some_inj, total_reset, htot, total_reset]
    by_cases hp : p k = true
    · simp [hp]
    · have hp' : p k = false := by simpa using hp
      rw [if_neg hp, if_neg hp, add_eq_left]
      exact ⟨fun h _ => h, fun h => h hp'⟩
  · have hk₁ : l₁.get? k = (l.reset p).get? k := by rw [h₁ k, posted, if_neg hk]
    rw [h₂ k, posted, if_neg hk, get?_reset, hk₁, get?_reset]
    refine ⟨fun _ _ => amount_eq_zero hk, fun _ => ?_⟩
    cases l.get? k with
    | none => rfl
    | some v => by_cases hp : p k = true <;> simp [hp]

end Ledger

end Mbb
