import Mbb.Keys
import Mbb.Lib.Dyadic

/-!
# The range of a block (`mbbd/range.c`)

`inet2range` on the words that the source has: an address of 32 bits and a mask of 8, which may be
greater than 32. `Keys` has it for the blocks that `atoinet` accepts, with numbers.
-/

namespace Mbb

/-- `struct inet` -/
structure InetWord : Type where
  /-- `addr` -/
  addr : BitVec 32
  /-- `mask` -/
  mask : BitVec 8

/-- `struct range` -/
structure RangeWord : Type where
  /-- `r_min` -/
  rMin : BitVec 32
  /-- `r_max` -/
  rMax : BitVec 32
  deriving DecidableEq

namespace RangeWord

/-- `range_new_uno` -/
def rangeNewUno (value : BitVec 32) : RangeWord := ⟨value, value⟩

/-- `range_new`; `none` is the `err_quit` of a build with `DBG`. -/
def rangeNew (min max : BitVec 32) : Option RangeWord :=
  if max < min then none else some ⟨min, max⟩

/-- `inet2range` -/
def inet2range (inet : InetWord) : Option RangeWord :=
  if 32 ≤ inet.mask.toNat then some (rangeNewUno inet.addr)
  else
    let tmp : BitVec 32 := 0xffffffff#32 >>> inet.mask.toNat
    let mask := ~~~tmp
    let ip := inet.addr &&& mask
    rangeNew ip (ip ||| tmp)

/-- `x` is in the range. -/
def Has (r : RangeWord) (x : BitVec 32) : Prop := r.rMin ≤ x ∧ x ≤ r.rMax

/-- One range ends before the other begins. -/
def Apart (r r' : RangeWord) : Prop := r.rMax < r'.rMin ∨ r'.rMax < r.rMin

/-- `r` lies in `r'`. -/
def Within (r r' : RangeWord) : Prop := r'.rMin ≤ r.rMin ∧ r.rMax ≤ r'.rMax

end RangeWord

/-- The bits that do not count. -/
def InetWord.free (inet : InetWord) : ℕ := 32 - inet.mask.toNat

/-- `x` and the address agree on the bits that count, the first ones. -/
def InetWord.Agrees (inet : InetWord) (x : BitVec 32) : Prop :=
  ∀ i < min inet.mask.toNat 32, x.getMsbD i = inet.addr.getMsbD i

/-! ## Words as numbers

The masks are shifted words of ones. Bit by bit they are what keeps the upper bits of an address or
fills up the lower ones.
-/

theorem testBit_ones (i : ℕ) : (0xffffffff#32).toNat.testBit i = decide (i < 32) :=
  Nat.testBit_two_pow_sub_one 32 i

/-- The bits that do not count, set. -/
theorem toNat_ones_shift (m : ℕ) : (0xffffffff#32 >>> m).toNat = 2 ^ (32 - m) - 1 := by
  apply Nat.eq_of_testBit_eq
  intro i
  rw [BitVec.toNat_ushiftRight, Nat.testBit_shiftRight, testBit_ones, Nat.testBit_two_pow_sub_one]
  exact decide_eq_decide.mpr (by omega)

/-- The address without them. -/
theorem toNat_and_not_shift (addr : BitVec 32) (m : ℕ) :
    (addr &&& ~~~(0xffffffff#32 >>> m)).toNat = addr.toNat / 2 ^ (32 - m) * 2 ^ (32 - m) := by
  apply Nat.eq_of_testBit_eq
  intro i
  rw [BitVec.toNat_and, Nat.testBit_and, BitVec.testBit_toNat, BitVec.testBit_toNat,
    BitVec.getLsbD_not, ← BitVec.testBit_toNat, ← BitVec.testBit_toNat, toNat_ones_shift,
    Nat.testBit_two_pow_sub_one, Nat.testBit_mul_two_pow, Nat.testBit_div_two_pow]
  by_cases hi : 32 - m ≤ i
  · rw [Nat.sub_add_cancel hi]
    by_cases h32 : i < 32
    · simp [hi, h32]
    · have hbit : addr.toNat.testBit i = false :=
        Nat.testBit_lt_two_pow (addr.isLt.trans_le (Nat.pow_le_pow_right (by decide) (by omega)))
      simp [hbit]
  · simp [hi, Nat.lt_of_not_le hi]

/-- And with all of them. -/
theorem toNat_and_not_or_shift (addr : BitVec 32) (m : ℕ) :
    (addr &&& ~~~(0xffffffff#32 >>> m) ||| 0xffffffff#32 >>> m).toNat =
      addr.toNat / 2 ^ (32 - m) * 2 ^ (32 - m) + (2 ^ (32 - m) - 1) := by
  have hlt : 2 ^ (32 - m) - 1 < 2 ^ (32 - m) := Nat.sub_lt (Nat.two_pow_pos _) Nat.one_pos
  rw [BitVec.toNat_or, toNat_and_not_shift, toNat_ones_shift, Nat.mul_comm,
    Nat.two_pow_add_eq_or_of_lt hlt]

/-! ## The block

In numbers a block is the set of the addresses that agree on the upper bits. Two such sets are
disjoint, or one lies in the other.
-/

namespace RangeWord

variable {inet inet' : InetWord} {r r' : RangeWord} {x : BitVec 32}

/-- There is a range, and its ends are those of a dyadic block. -/
theorem inet2range_spec (inet : InetWord) :
    ∃ r, inet2range inet = some r ∧
      r.rMin.toNat = inet.addr.toNat / 2 ^ inet.free * 2 ^ inet.free ∧
      r.rMax.toNat = inet.addr.toNat / 2 ^ inet.free * 2 ^ inet.free + (2 ^ inet.free - 1) := by
  rw [inet2range, InetWord.free]
  by_cases hm : 32 ≤ inet.mask.toNat
  · rw [if_pos hm, Nat.sub_eq_zero_of_le hm]
    refine ⟨_, rfl, ?_, ?_⟩
    · simp [rangeNewUno]
    · simp [rangeNewUno]
  · rw [if_neg hm]
    have hmin := toNat_and_not_shift inet.addr inet.mask.toNat
    have hmax := toNat_and_not_or_shift inet.addr inet.mask.toNat
    refine ⟨_, if_neg ?_, hmin, hmax⟩
    rw [BitVec.lt_def, hmin, hmax]
    omega

theorem exists_inet2range (inet : InetWord) :
    ∃ r, inet2range inet = some r ∧ r.rMin ≤ r.rMax ∧
      ∀ x, r.Has x ↔ SameBlock inet.free inet.addr.toNat x.toNat := by
  obtain ⟨r, h, hmin, hmax⟩ := inet2range_spec inet
  refine ⟨r, h, ?_, fun x => ?_⟩
  · rw [BitVec.le_def, hmin, hmax]
    exact Nat.le_add_right _ _
  · rw [Has, BitVec.le_def, BitVec.le_def, hmin, hmax, SameBlock.iff_range]

/-- The first bits of a word are the ones from `free` on. -/
theorem agrees_iff_sameBlock :
    inet.Agrees x ↔ SameBlock inet.free inet.addr.toNat x.toNat := by
  have hmsb : ∀ (y : BitVec 32) {i}, i < 32 → y.getMsbD i = y.toNat.testBit (31 - i) := by
    intro y i hi
    rw [BitVec.getMsbD_eq_getLsbD, decide_eq_true hi, Bool.true_and, BitVec.testBit_toNat]
  have hhigh : ∀ (y : BitVec 32) {i}, 32 ≤ i → y.toNat.testBit i = false := by
    intro y i hi
    exact Nat.testBit_lt_two_pow (y.isLt.trans_le (Nat.pow_le_pow_right (by decide) hi))
  rw [SameBlock.iff_testBit, InetWord.Agrees, InetWord.free]
  constructor
  · intro h i hi
    by_cases h32 : i < 32
    · have hbit := h (31 - i) (by omega)
      rwa [hmsb x (by omega), hmsb inet.addr (by omega), Nat.sub_sub_self (by omega)] at hbit
    · rw [hhigh x (by omega), hhigh inet.addr (by omega)]
  · intro h i hi
    rw [hmsb x (by omega), hmsb inet.addr (by omega)]
    exact h (31 - i) (by omega)

/-- Ranges without a common word are apart. -/
theorem apart_of_disjoint (hr : r.rMin ≤ r.rMax) (hr' : r'.rMin ≤ r'.rMax)
    (h : ∀ x, r.Has x → ¬ r'.Has x) : r.Apart r' := by
  by_contra hno
  obtain ⟨h1, h2⟩ := not_or.mp hno
  rw [BitVec.not_lt] at h1 h2
  -- the greater one of the two minima is in both
  rcases BitVec.le_total r.rMin r'.rMin with hle | hle
  · exact h r'.rMin ⟨hle, h1⟩ ⟨BitVec.le_refl _, hr'⟩
  · exact h r.rMin ⟨BitVec.le_refl _, hr⟩ ⟨hle, h2⟩

theorem within_of_forall (hr : r.rMin ≤ r.rMax) (h : ∀ x, r.Has x → r'.Has x) : r.Within r' :=
  ⟨(h r.rMin ⟨BitVec.le_refl _, hr⟩).1, (h r.rMax ⟨hr, BitVec.le_refl _⟩).2⟩

/-- The block with fewer free bits lies in the other one, or is apart from it. -/
theorem within_or_apart (hfree : inet.free ≤ inet'.free)
    (h : ∀ x, r.Has x ↔ SameBlock inet.free inet.addr.toNat x.toNat)
    (h' : ∀ x, r'.Has x ↔ SameBlock inet'.free inet'.addr.toNat x.toNat)
    (hr : r.rMin ≤ r.rMax) (hr' : r'.rMin ≤ r'.rMax) : r.Within r' ∨ r.Apart r' := by
  rcases SameBlock.nested_or_apart hfree inet.addr.toNat inet'.addr.toNat with hin | hout
  · exact Or.inl (within_of_forall hr fun x hx => (h' x).mpr (hin _ ((h x).mp hx)))
  · exact Or.inr (apart_of_disjoint hr hr' fun x hx hx' => hout _ ((h x).mp hx) ((h' x).mp hx'))

end RangeWord

/-- **The range of a block** has the addresses that agree with it on the bits of its mask, and two
ranges of blocks are apart or one lies in the other. -/
theorem inet2range_exact :
    (∀ inet : InetWord, ∃ r, RangeWord.inet2range inet = some r ∧
      ∀ x, r.Has x ↔ inet.Agrees x) ∧
    ∀ inet inet' : InetWord, ∃ r r', RangeWord.inet2range inet = some r ∧
      RangeWord.inet2range inet' = some r' ∧ (r.Apart r' ∨ r.Within r' ∨ r'.Within r) := by
  constructor
  · intro inet
    obtain ⟨r, h, -, hhas⟩ := RangeWord.exists_inet2range inet
    exact ⟨r, h, fun x => (hhas x).trans RangeWord.agrees_iff_sameBlock.symm⟩
  · intro inet inet'
    obtain ⟨r, h, hle, hhas⟩ := RangeWord.exists_inet2range inet
    obtain ⟨r', h', hle', hhas'⟩ := RangeWord.exists_inet2range inet'
    refine ⟨r, r', h, h', ?_⟩
    rcases Nat.le_total inet.free inet'.free with hfree | hfree
    · rcases RangeWord.within_or_apart hfree hhas hhas' hle hle' with hin | hout
      · exact Or.inr (Or.inl hin)
      · exact Or.inl hout
    · rcases RangeWord.within_or_apart hfree hhas' hhas hle' hle with hin | hout
      · exact Or.inr (Or.inr hin)
      · exact Or.inl hout.symm

end Mbb
