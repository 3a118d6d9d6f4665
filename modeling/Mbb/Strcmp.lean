import Mathlib.Data.Char
import Mathlib.Data.List.Lex
import Mbb.XmlTag

/-!
# Comparing strings

`strcmp` on strings in UTF-8 compares bytes, which is the order of their characters. It makes the
strings a linear order.
-/

namespace Mbb

/-- The loop of `strcmp`: the difference where the strings part, the end being 0. -/
def strcmpLoop : List Char → List Char → Int
  | [], [] => 0
  | [], d :: _ => -(d.toNat : Int)
  | c :: _, [] => c.toNat
  | c :: s, d :: t => if c = d then strcmpLoop s t else (c.toNat : Int) - d.toNat

/-- `strcmp` -/
def strcmp (s t : CStr) : Int := strcmpLoop s.chars t.chars

/-- `g_strcmp0` -/
def gStrcmp0 : Option CStr → Option CStr → Int
  | none, t => if t = none then 0 else -1
  | some _, none => 1
  | some s, some t => strcmp s t

instance : LinearOrder CStr := LinearOrder.lift' CStr.chars CStr.chars_injective

theorem toNat_pos_of_ne {c : Char} (h : c ≠ '\x00') : 0 < c.toNat := by
  refine Nat.pos_of_ne_zero fun h0 => h ?_
  exact Char.toNat_inj.mp h0

theorem strcmpLoop_neg : ∀ {s t : List Char}, '\x00' ∉ s → '\x00' ∉ t →
    (strcmpLoop s t < 0 ↔ s < t)
  | [], [], _, _ => by simp [strcmpLoop]
  | [], d :: t, _, ht => by
    have hd := toNat_pos_of_ne (Ne.symm (List.ne_of_not_mem_cons ht))
    have hlt : ([] : List Char) < d :: t := List.nil_lt_cons d t
    refine iff_of_true ?_ hlt
    rw [strcmpLoop]
    omega
  | c :: s, [], _, _ => by
    refine iff_of_false ?_ (List.not_lt_nil (c :: s))
    rw [strcmpLoop]
    omega
  | c :: s, d :: t, hs, ht => by
    have ih := strcmpLoop_neg (List.not_mem_of_not_mem_cons hs) (List.not_mem_of_not_mem_cons ht)
    have hcons : c :: s < d :: t ↔ c < d ∨ c = d ∧ s < t := List.cons_lt_cons_iff
    rw [strcmpLoop, hcons]
    by_cases hcd : c = d
    · rw [if_pos hcd, ih]
      simp [hcd]
    · rw [if_neg hcd]
      have hlt : c < d ↔ c.toNat < d.toNat := Iff.rfl
      simp only [hcd, false_and, or_false, hlt]
      omega

theorem strcmpLoop_eq_zero : ∀ {s t : List Char}, '\x00' ∉ s → '\x00' ∉ t →
    (strcmpLoop s t = 0 ↔ s = t)
  | [], [], _, _ => by simp [strcmpLoop]
  | [], d :: t, _, ht => by
    have hd := toNat_pos_of_ne (Ne.symm (List.ne_of_not_mem_cons ht))
    refine iff_of_false ?_ (List.cons_ne_nil d t).symm
    rw [strcmpLoop]
    omega
  | c :: s, [], hs, _ => by
    have hc := toNat_pos_of_ne (Ne.symm (List.ne_of_not_mem_cons hs))
    refine iff_of_false ?_ (List.cons_ne_nil c s)
    rw [strcmpLoop]
    omega
  | c :: s, d :: t, hs, ht => by
    have ih := strcmpLoop_eq_zero (List.not_mem_of_not_mem_cons hs)
      (List.not_mem_of_not_mem_cons ht)
    rw [strcmpLoop]
    by_cases hcd : c = d
    · rw [if_pos hcd, ih, List.cons.injEq, and_iff_right hcd]
    · rw [if_neg hcd, List.cons.injEq]
      have hne : c.toNat ≠ d.toNat := fun h => hcd (Char.toNat_inj.mp h)
      refine iff_of_false ?_ fun h => hcd h.1
      omega

theorem strcmp_neg (s t : CStr) : strcmp s t < 0 ↔ s < t := strcmpLoop_neg s.noNul t.noNul

theorem strcmp_eq_zero (s t : CStr) : strcmp s t = 0 ↔ s = t :=
  (strcmpLoop_eq_zero s.noNul t.noNul).trans CStr.chars_injective.eq_iff

theorem strcmp_nonpos (s t : CStr) : strcmp s t ≤ 0 ↔ s ≤ t := by
  rw [le_iff_lt_or_eq, strcmp_neg, strcmp_eq_zero, le_iff_lt_or_eq]

end Mbb
