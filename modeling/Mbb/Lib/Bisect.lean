import Mathlib.Data.List.Basic
import Mathlib.Algebra.Order.Ring.Int

/-!
# Binary search in an array

The array is a list whose elements each say where to go on: to the left, to the right,
or that they are what is looked for. When these directions are in order, the search finds
an element that is looked for, if there is one.
-/

namespace Mbb

universe u

variable {α : Type u} {dir : α → Int} {xs : List α}

/-- The loop between the indices `min` and `max`; each pass makes the distance smaller, so
the length of the array bounds it. -/
def bisectLoop (dir : α → Int) (xs : List α) : ℕ → Int → Int → Option α
  | 0, _, _ => none
  | fuel + 1, min, max =>
    if min ≤ max then
      let n := (min + max) >>> (1 : ℕ)
      match xs[n.toNat]? with
      | none => none
      | some x =>
        if dir x < 0 then bisectLoop dir xs fuel min (n - 1)
        else if 0 < dir x then bisectLoop dir xs fuel (n + 1) max
        else some x
    else none

/-- The search in the whole array. -/
def bisect (dir : α → Int) (xs : List α) : Option α :=
  bisectLoop dir xs xs.length 0 (xs.length - 1)

/-- Elements to the left point right if one after them does, elements to the right point
left if one before them does. -/
def InOrder (dir : α → Int) (xs : List α) : Prop :=
  xs.Pairwise fun a b => (dir a < 0 → dir b < 0) ∧ (0 < dir b → 0 < dir a)

/-- A result is an element that is looked for. -/
theorem bisectLoop_mem {x : α} (fuel : ℕ) : ∀ {min max : Int},
    bisectLoop dir xs fuel min max = some x → x ∈ xs ∧ dir x = 0 := by
  induction fuel with
  | zero => exact fun h => by cases h
  | succ fuel ih =>
    intro min max h
    rw [bisectLoop] at h
    split at h
    · simp only at h
      split at h
      · cases h
      · rename_i y hy
        split at h
        · exact ih h
        · split at h
          · exact ih h
          · obtain rfl := Option.some.inj h
            exact ⟨List.mem_of_getElem? hy, by omega⟩
    · cases h

/-- While what is looked for lies between the indices, it is found. -/
theorem bisectLoop_isSome (hd : InOrder dir xs) {i : ℕ} {x : α} (hi : xs[i]? = some x)
    (hx : dir x = 0) (fuel : ℕ) : ∀ (min max : Int), 0 ≤ min → max < xs.length →
      max + 1 - min ≤ fuel → min ≤ i → (i : Int) ≤ max →
      (bisectLoop dir xs fuel min max).isSome = true := by
  have hlt : ∀ {j k : ℕ} {y z : α}, xs[j]? = some y → xs[k]? = some z → j < k →
      (dir y < 0 → dir z < 0) ∧ (0 < dir z → 0 < dir y) := by
    intro j k y z hj hk hjk
    obtain ⟨hj', rfl⟩ := List.getElem?_eq_some_iff.mp hj
    obtain ⟨hk', rfl⟩ := List.getElem?_eq_some_iff.mp hk
    exact List.pairwise_iff_getElem.mp hd j k hj' hk' hjk
  induction fuel with
  | zero => intro min max _ _ _ _ _; omega
  | succ fuel ih =>
    intro min max hmin hmax hfuel h1 h2
    have hn : (min + max) >>> (1 : ℕ) = (min + max) / 2 := Int.shiftRight_eq_div_pow _ 1
    rw [bisectLoop, if_pos (by omega)]
    simp only [hn]
    obtain ⟨y, hy⟩ : ∃ y, xs[((min + max) / 2).toNat]? = some y :=
      ⟨_, List.getElem?_eq_getElem (by omega)⟩
    rw [hy]
    simp only
    split
    · rename_i hneg
      -- the middle points left, so the element is not to the right of it
      refine ih _ _ hmin (by omega) (by omega) h1 ?_
      rcases lt_trichotomy i ((min + max) / 2).toNat with h | h | h
      · omega
      · rw [h, hy] at hi
        obtain rfl := Option.some.inj hi
        omega
      · have := (hlt hy hi h).1 hneg
        omega
    · split
      · rename_i hpos
        refine ih _ _ (by omega) hmax (by omega) ?_ h2
        rcases lt_trichotomy i ((min + max) / 2).toNat with h | h | h
        · have := (hlt hi hy h).2 hpos
          omega
        · rw [h, hy] at hi
          obtain rfl := Option.some.inj hi
          omega
        · omega
      · rfl

/-- **Binary search** finds an element that is looked for, when there is one. -/
theorem bisect_spec (hd : InOrder dir xs) :
    (∃ x ∈ xs, dir x = 0 ∧ bisect dir xs = some x) ∨
      (∀ x ∈ xs, dir x ≠ 0) ∧ bisect dir xs = none := by
  rcases hb : bisect dir xs with _ | x
  · refine Or.inr ⟨fun x hx h0 => ?_, rfl⟩
    obtain ⟨i, hi⟩ := List.getElem?_of_mem hx
    obtain ⟨hlt, -⟩ := List.getElem?_eq_some_iff.mp hi
    have := bisectLoop_isSome hd hi h0 xs.length 0 (xs.length - 1) (by omega)
      (by omega) (by omega) (by omega) (by omega)
    rw [bisect] at hb
    rw [hb] at this
    cases this
  · obtain ⟨hx, h0⟩ := bisectLoop_mem xs.length hb
    exact Or.inl ⟨x, hx, h0, rfl⟩

end Mbb
