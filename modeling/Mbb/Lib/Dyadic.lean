import Mathlib.Algebra.GroupWithZero.Nat

/-!
# Dyadic blocks

The numbers that agree with `a` from bit `k` on form a block of `2 ^ k` numbers. Of two blocks the
finer one lies in the coarser one, or they have nothing in common.
-/

namespace Mbb

/-- `x` and `a` are in one block of `2 ^ k` numbers. -/
def SameBlock (k a x : ℕ) : Prop := x / 2 ^ k = a / 2 ^ k

namespace SameBlock

variable {k j a b x : ℕ}

theorem symm (h : SameBlock k a x) : SameBlock k x a := Eq.symm h

theorem trans (h : SameBlock k a b) (h' : SameBlock k b x) : SameBlock k a x := Eq.trans h' h

/-- In a coarser block too. -/
theorem mono (hkj : k ≤ j) (h : SameBlock k a x) : SameBlock j a x := by
  have hdiv : ∀ n : ℕ, n / 2 ^ j = n / 2 ^ k / 2 ^ (j - k) := by
    intro n
    rw [Nat.div_div_eq_div_mul, ← Nat.pow_add, Nat.add_sub_cancel' hkj]
  rw [SameBlock, hdiv x, hdiv a, h]

/-- A block is a range. -/
theorem iff_range :
    SameBlock k a x ↔ a / 2 ^ k * 2 ^ k ≤ x ∧ x ≤ a / 2 ^ k * 2 ^ k + (2 ^ k - 1) := by
  have hpos := Nat.two_pow_pos k
  rw [SameBlock, Nat.div_eq_iff hpos]
  omega

/-- The bits from `k` on. -/
theorem iff_testBit : SameBlock k a x ↔ ∀ i, k ≤ i → x.testBit i = a.testBit i := by
  constructor
  · intro h i hi
    obtain ⟨n, rfl⟩ := Nat.exists_eq_add_of_le' hi
    rw [← Nat.testBit_div_two_pow, ← Nat.testBit_div_two_pow, h]
  · intro h
    apply Nat.eq_of_testBit_eq
    intro n
    rw [Nat.testBit_div_two_pow, Nat.testBit_div_two_pow]
    exact h _ (Nat.le_add_left k n)

/-- **Blocks are nested or apart.** -/
theorem nested_or_apart (hkj : k ≤ j) (a b : ℕ) :
    (∀ x, SameBlock k a x → SameBlock j b x) ∨ ∀ x, SameBlock k a x → ¬ SameBlock j b x := by
  by_cases h : SameBlock j b a
  · exact Or.inl fun x hx => h.trans (hx.mono hkj)
  · exact Or.inr fun x hx hb => h (hb.trans (hx.mono hkj).symm)

end SameBlock

end Mbb
