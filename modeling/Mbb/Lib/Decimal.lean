import Mathlib.Algebra.GroupWithZero.Nat
import Mathlib.Data.List.Induction
import Mathlib.Data.List.TakeWhile

/-!
# Decimal numerals in memory

Text as bytes, with the classes of ASCII that scanners ask for. A run of digits has a value,
whatever its length and with zeros in front; a number is printed without them.
-/

namespace Mbb

/-! ## Classes of bytes -/

/-- A digit of ASCII. -/
def isDigit (c : UInt8) : Bool := decide (48 ≤ c.toNat) && decide (c.toNat ≤ 57)

/-- A visible character of ASCII. -/
def isGraph (c : UInt8) : Bool := decide (33 ≤ c.toNat) && decide (c.toNat ≤ 126)

/-- A blank, a tab, or an end of line or page. -/
def isBlank (c : UInt8) : Bool := c == 32 || (decide (9 ≤ c.toNat) && decide (c.toNat ≤ 13))

/-- The value of a digit. -/
def digitValue (c : UInt8) : ℕ := c.toNat - 48

/-- The bytes of a text in ASCII. -/
def asciiBytes (s : String) : List UInt8 := s.toList.map Char.toUInt8

theorem isDigit_iff {c : UInt8} : isDigit c = true ↔ 48 ≤ c.toNat ∧ c.toNat ≤ 57 := by
  rw [isDigit, Bool.and_eq_true, decide_eq_true_iff, decide_eq_true_iff]

theorem isGraph_of_isDigit {c : UInt8} (h : isDigit c = true) : isGraph c = true := by
  rw [isDigit_iff] at h
  rw [isGraph, Bool.and_eq_true, decide_eq_true_iff, decide_eq_true_iff]
  omega

theorem isBlank_of_isDigit {c : UInt8} (h : isDigit c = true) : isBlank c = false := by
  rw [isDigit_iff] at h
  rw [isBlank, Bool.or_eq_false_iff, Bool.and_eq_false_iff, beq_eq_false_iff_ne,
    decide_eq_false_iff_not, decide_eq_false_iff_not]
  refine ⟨fun hc => ?_, by omega⟩
  rw [hc] at h
  exact absurd h.1 (by decide)

/-! ## Runs of digits

The value of a run is found digit by digit, from the left; a scanner computes it in the same way.
-/

/-- The value of a run of digits. -/
def decimalValue (ds : List UInt8) : ℕ := ds.foldl (fun n c => n * 10 + digitValue c) 0

/-- The bytes are digits, one or more. -/
def DigitRun (ds : List UInt8) : Prop := ds ≠ [] ∧ ∀ c ∈ ds, isDigit c = true

instance (ds : List UInt8) : Decidable (DigitRun ds) :=
  decidable_of_iff (ds ≠ [] ∧ ds.all isDigit = true) (and_congr_right fun _ => List.all_eq_true)

theorem foldl_digits (ds : List UInt8) (n : ℕ) :
    ds.foldl (fun n c => n * 10 + digitValue c) n = n * 10 ^ ds.length + decimalValue ds := by
  rw [decimalValue]
  induction ds using List.reverseRecOn with
  | nil => simp
  | append_singleton ds d ih =>
    rw [List.foldl_append, List.foldl_append, List.foldl_cons, List.foldl_cons, List.foldl_nil,
      List.foldl_nil, ih, List.length_append, List.length_singleton, Nat.pow_succ, Nat.add_mul,
      Nat.mul_assoc, Nat.add_assoc]

/-- What has been read so far is never more than the whole. -/
theorem le_foldl_digits (ds : List UInt8) (n : ℕ) :
    n ≤ ds.foldl (fun n c => n * 10 + digitValue c) n := by
  rw [foldl_digits]
  exact (Nat.le_mul_of_pos_right n (Nat.pow_pos (by decide))).trans (Nat.le_add_right _ _)

/-- Where a run in front of a text ends. -/
theorem span_append {is : UInt8 → Bool} {run rest : List UInt8}
    (hrun : ∀ c ∈ run, is c = true) (hrest : ∀ c ∈ rest.head?, is c = false) :
    (run ++ rest).takeWhile is = run ∧ (run ++ rest).dropWhile is = rest := by
  rw [List.takeWhile_append_of_pos hrun, List.dropWhile_append_of_pos hrun]
  cases rest with
  | nil => simp
  | cons c rest =>
    have hc : ¬ is c = true := by simpa using hrest c rfl
    rw [List.takeWhile_cons_of_neg hc, List.dropWhile_cons_of_neg hc, List.append_nil]
    exact ⟨rfl, rfl⟩

/-! ## Printing

The digits of a number, of which there are as few as possible.
-/

/-- A number in decimal. -/
def decimalText (n : ℕ) : List UInt8 := (Nat.toDigits 10 n).map Char.toUInt8

theorem toNat_toUInt8_of_isDigit {c : Char} (h : c.isDigit = true) :
    c.toUInt8.toNat = c.toNat ∧ 48 ≤ c.toNat ∧ c.toNat ≤ 57 := by
  rw [Char.isDigit, Bool.and_eq_true, decide_eq_true_iff, decide_eq_true_iff, ge_iff_le,
    UInt32.le_iff_toNat_le, UInt32.le_iff_toNat_le] at h
  have h' : 48 ≤ c.toNat ∧ c.toNat ≤ 57 := h
  refine ⟨?_, h'⟩
  change c.toNat % 256 = c.toNat
  omega

theorem digitRun_decimalText (n : ℕ) : DigitRun (decimalText n) := by
  refine ⟨by simp [decimalText, Nat.toDigits_ne_nil], fun c hc => ?_⟩
  obtain ⟨d, hd, rfl⟩ := List.mem_map.mp hc
  have hdigit := toNat_toUInt8_of_isDigit (Nat.isDigit_of_mem_toDigits (by decide) (by decide) hd)
  rw [isDigit_iff, hdigit.1]
  exact hdigit.2

theorem decimalValue_decimalText (n : ℕ) : decimalValue (decimalText n) = n := by
  have hfold : ∀ (cs : List Char) (k : ℕ), (∀ c ∈ cs, c.isDigit = true) →
      (cs.map Char.toUInt8).foldl (fun n c => n * 10 + digitValue c) k =
        Nat.ofDigitChars 10 cs k := by
    intro cs
    induction cs with
    | nil => exact fun k _ => Nat.ofDigitChars_nil.symm
    | cons c cs ih =>
      intro k hcs
      have hc := (toNat_toUInt8_of_isDigit (hcs c List.mem_cons_self)).1
      rw [List.map_cons, List.foldl_cons, ih _ fun d hd => hcs d (List.mem_cons_of_mem _ hd),
        Nat.ofDigitChars_cons, digitValue, hc, Nat.mul_comm]
      rfl
  rw [decimalValue, decimalText,
    hfold _ 0 fun c hc => Nat.isDigit_of_mem_toDigits (by decide) (by decide) hc,
    Nat.ofDigitChars_toDigits (by decide) (by decide)]

theorem length_decimalText {n k : ℕ} (hk : 0 < k) (h : n < 10 ^ k) :
    (decimalText n).length ≤ k := by
  rw [decimalText, List.length_map]
  exact (Nat.length_toDigits_le_iff (by decide) hk).mpr h

end Mbb
