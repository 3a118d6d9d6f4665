import Mathlib.Data.List.Basic

/-!
# Search trees up to shape

A binary search tree whose comparison is only a *direction*: `dir k < 0` sends a
search at the node `k` to the left, `dir k > 0` to the right, `dir k = 0` stops
it. Nothing says that at most one node stops a search, so trees keyed by overlap
(two keys are "equal" when they share a point) are covered.

The meaning of a tree is its in-order list. `Balance` is an arbitrary reshaping
that keeps that list, so that every statement holds for every balancing scheme,
and for whichever of several matching nodes a search happens to meet first.
-/

namespace Mbb

universe u v

/-- A binary tree with a key and a value at each node. -/
inductive Tree (K : Type u) (V : Type v) : Type (max u v) where
  /-- the empty tree -/
  | nil : Tree K V
  /-- left subtree, key, value, right subtree -/
  | node : Tree K V → K → V → Tree K V → Tree K V

namespace Tree

variable {K : Type u} {V : Type v}

/-- The in-order list of the tree's pairs. -/
def toList : Tree K V → List (K × V)
  | nil => []
  | node l k v r => l.toList ++ (k, v) :: r.toList

/-- Descend along `dir` and return the value of the first node that stops the search. -/
def lookup (dir : K → Int) : Tree K V → Option V
  | nil => none
  | node l k v r =>
    if dir k < 0 then l.lookup dir
    else if 0 < dir k then r.lookup dir
    else some v

/-- Insert at the end of the search path. A node that stops the search keeps its
key and gets the new value. -/
def insert (dir : K → Int) (k : K) (v : V) : Tree K V → Tree K V
  | nil => node nil k v nil
  | node l k' v' r =>
    if dir k' < 0 then node (l.insert dir k v) k' v' r
    else if 0 < dir k' then node l k' v' (r.insert dir k v)
    else node l k' v r

/-- Hang a tree under the last node of another one. -/
def join : Tree K V → Tree K V → Tree K V
  | nil, t => t
  | node l k v r, t => node l k v (r.join t)

/-- Remove the first node that stops the search. -/
def remove (dir : K → Int) : Tree K V → Tree K V
  | nil => nil
  | node l k v r =>
    if dir k < 0 then node (l.remove dir) k v r
    else if 0 < dir k then node l k v (r.remove dir)
    else l.join r

@[simp] theorem toList_nil : (nil : Tree K V).toList = [] := rfl

@[simp] theorem toList_node (l : Tree K V) (k : K) (v : V) (r : Tree K V) :
    (node l k v r).toList = l.toList ++ (k, v) :: r.toList := rfl

@[simp] theorem toList_join (s t : Tree K V) : (s.join t).toList = s.toList ++ t.toList := by
  induction s with
  | nil => rfl
  | node l k v r _ ihr => simp [join, ihr]

/-- A search only returns the value of a node that stops it. -/
theorem lookup_mem {dir : K → Int} {t : Tree K V} {v : V} (h : t.lookup dir = some v) :
    ∃ k, (k, v) ∈ t.toList ∧ dir k = 0 := by
  induction t with
  | nil => cases h
  | node l k w r ihl ihr =>
    simp only [lookup] at h
    split at h
    · obtain ⟨k', hmem, hdir⟩ := ihl h
      exact ⟨k', by simp [hmem], hdir⟩
    · split at h
      · obtain ⟨k', hmem, hdir⟩ := ihr h
        exact ⟨k', by simp [hmem], hdir⟩
      · obtain rfl := Option.some.inj h
        exact ⟨k, by simp, by omega⟩

/-- The directions along a list never turn back: once a search would go left, it
goes left at every later key, and whenever it goes right it went right before. -/
def Directed (dir : K → Int) (l : List (K × V)) : Prop :=
  l.Pairwise fun a b => (dir a.1 < 0 → dir b.1 < 0) ∧ (0 < dir b.1 → 0 < dir a.1)

/-- Over a directed list a search stops as soon as some key stops it. -/
theorem lookup_isSome {dir : K → Int} {t : Tree K V} (hd : Directed dir t.toList)
    {k : K} {v : V} (hmem : (k, v) ∈ t.toList) (hk : dir k = 0) :
    ∃ w, t.lookup dir = some w := by
  induction t with
  | nil => cases hmem
  | node l k' v' r ihl ihr =>
    simp only [toList_node] at hd hmem
    obtain ⟨hl, hr, hlr⟩ := List.pairwise_append.mp hd
    obtain ⟨hk'r, hr⟩ := List.pairwise_cons.mp hr
    simp only [lookup]
    rcases List.mem_append.mp hmem with hml | hmr
    · have h0 : ¬ 0 < dir k' := fun hpos => by
        have := (hlr _ hml _ List.mem_cons_self).2 hpos
        simp only [hk] at this
        omega
      by_cases hneg : dir k' < 0
      · rw [if_pos hneg]
        exact ihl hl hml
      · rw [if_neg hneg, if_neg h0]
        exact ⟨v', rfl⟩
    · rcases List.mem_cons.mp hmr with heq | hmr
      · obtain rfl : k = k' := congrArg Prod.fst heq
        rw [if_neg (by omega), if_neg (by omega)]
        exact ⟨v', rfl⟩
      · have hneg : ¬ dir k' < 0 := fun hneg => by
          have := (hk'r _ hmr).1 hneg
          simp only [hk] at this
          omega
        rw [if_neg hneg]
        by_cases hpos : 0 < dir k'
        · rw [if_pos hpos]
          exact ihr hr hmr
        · rw [if_neg hpos]
          exact ⟨v', rfl⟩

/-- Inserting between the keys a search passes on the left and on the right. -/
theorem toList_insert {dir : K → Int} {k : K} {v : V} {t : Tree K V} :
    ∀ {A B : List (K × V)}, t.toList = A ++ B →
      (∀ a ∈ A, 0 < dir a.1) → (∀ b ∈ B, dir b.1 < 0) →
      (t.insert dir k v).toList = A ++ (k, v) :: B := by
  induction t with
  | nil =>
    intro A B h _ _
    obtain ⟨rfl, rfl⟩ := List.append_eq_nil_iff.mp h.symm
    rfl
  | node l k' v' r ihl ihr =>
    intro A B h hA hB
    rw [toList_node] at h
    simp only [insert]
    rcases List.append_eq_append_iff.mp h with ⟨A', hA', hB'⟩ | ⟨B', hA', hB'⟩
    · -- `A` reaches past the left subtree
      rcases List.cons_eq_append_iff.mp hB' with ⟨rfl, rfl⟩ | ⟨A'', rfl, hr⟩
      · have hneg : dir k' < 0 := hB _ List.mem_cons_self
        rw [if_pos hneg, toList_node, ihl (A := A) (B := []) (by simp [hA']) hA (by simp)]
        simp
      · have hpos : 0 < dir k' := hA (k', v') (by simp [hA'])
        rw [if_neg (by omega), if_pos hpos, toList_node,
          ihr hr (fun a ha => hA a (by simp [hA', ha])) hB]
        simp [hA']
    · -- `A` ends inside the left subtree
      have hneg : dir k' < 0 := hB (k', v') (by simp [hB'])
      rw [if_pos hneg, toList_node, ihl hA' hA (fun b hb => hB b (by simp [hB', hb]))]
      simp [hB']

/-- Removing the one key that stops the search. -/
theorem toList_remove {dir : K → Int} {k : K} {v : V} {t : Tree K V} :
    ∀ {A B : List (K × V)}, t.toList = A ++ (k, v) :: B →
      (∀ a ∈ A, 0 < dir a.1) → dir k = 0 → (∀ b ∈ B, dir b.1 < 0) →
      (t.remove dir).toList = A ++ B := by
  induction t with
  | nil =>
    intro A B h _ _ _
    simp at h
  | node l k' v' r ihl ihr =>
    intro A B h hA hk hB
    rw [toList_node] at h
    simp only [remove]
    rcases List.append_eq_append_iff.mp h with ⟨A', hA', hB'⟩ | ⟨B', hA', hB'⟩
    · rcases List.cons_eq_append_iff.mp hB' with ⟨rfl, heq⟩ | ⟨A'', rfl, hr⟩
      · obtain ⟨h1, rfl⟩ := List.cons.inj heq
        obtain rfl : k = k' := congrArg Prod.fst h1
        rw [if_neg (by omega), if_neg (by omega), toList_join]
        simp [hA']
      · have hpos : 0 < dir k' := hA (k', v') (by simp [hA'])
        rw [if_neg (by omega), if_pos hpos, toList_node,
          ihr hr (fun a ha => hA a (by simp [hA', ha])) hk hB]
        simp [hA']
    · rcases List.cons_eq_append_iff.mp hB' with ⟨rfl, heq⟩ | ⟨B'', rfl, hr⟩
      · obtain ⟨h1, rfl⟩ := List.cons.inj heq
        obtain rfl : k' = k := (congrArg Prod.fst h1)
        rw [if_neg (by omega), if_neg (by omega), toList_join]
        simp [hA']
      · have hneg : dir k' < 0 := hB (k', v') (by simp [hr])
        rw [if_pos hneg, toList_node, ihl hA' hA hk (fun b hb => hB b (by simp [hr, hb]))]
        simp [hr]

end Tree

/-- A reshaping of trees that keeps the in-order list: what a balancing scheme does
after an insertion or a removal. -/
structure Balance (K : Type u) (V : Type v) : Type (max u v) where
  /-- the reshaped tree -/
  run : Tree K V → Tree K V
  /-- the order of the nodes is kept -/
  toList_run : ∀ t, (run t).toList = t.toList

attribute [simp] Balance.toList_run

/-- No reshaping at all. -/
def Balance.none (K : Type u) (V : Type v) : Balance K V := ⟨id, fun _ => rfl⟩

end Mbb
