import Mbb.Keys

/-!
# The order of times (`mbbd/mbbtime.c`)

The commands check intervals with these comparisons, the maps with those of the
slicer. The two orders agree on instants less than `2 ^ 31` apart; farther apart, the
slicer's comparison sees the low 32 bits of the difference only.
-/

namespace Mbb

/-- `timecmp` -/
def timecmp (a b : Int) : Int := if a < b then -1 else if b < a then 1 else 0

/-- `mbb_time_becmp` -/
def mbbTimeBecmp (ta tb : Int) : Int := if ta = 0 ∨ tb = 0 then -1 else timecmp ta tb

/-- `mbb_time_ebcmp` -/
def mbbTimeEbcmp (ta tb : Int) : Int := if ta = 0 ∨ tb = 0 then 1 else timecmp ta tb

/-- `mbb_time_bbcmp` -/
def mbbTimeBbcmp (ta tb : Int) : Int :=
  if ta = 0 ∧ tb = 0 then 0
  else if ta = 0 then -1
  else if tb = 0 then 1
  else timecmp ta tb

/-- `mbb_time_eecmp` -/
def mbbTimeEecmp (ta tb : Int) : Int :=
  if ta = 0 ∧ tb = 0 then 0
  else if ta = 0 then 1
  else if tb = 0 then -1
  else timecmp ta tb

/-- `mbb_time_rcmp` -/
def mbbTimeRcmp (t ta tb : Int) : Int :=
  if mbbTimeEbcmp t ta < 0 then -1 else if mbbTimeBecmp t tb > 0 then 1 else 0

/-! ## Agreement with the order of the slicer

Both orders look at the difference of two times, the one as a number, the other at its low 32 bits.
-/

/-- `G_MAXLONG` -/
def gMaxLong : Int := 2 ^ 63 - 1

/-- The times `var_conv_utime` and the database admit. -/
def TimeOk (t : Int) : Prop := 0 ≤ t ∧ t ≤ gMaxLong

theorem TimeOk.pointer {t : Int} (h : TimeOk t) :
    pointerToTime (timeToPointer t) = t ∧ (timeToPointer t = 0 ↔ t = 0) := by
  obtain ⟨h0, h1⟩ := h
  rw [gMaxLong] at h1
  obtain ⟨n, rfl⟩ := Int.eq_ofNat_of_zero_le h0
  rw [timeToPointer_of_lt (by omega), pointerToTime_of_lt (by omega)]
  exact ⟨rfl, by omega⟩

/-- The two orders give the same sign for the times `ta` and `tb`, in each of their
four roles. -/
structure OrdersAgree (ta tb : Int) : Prop where
  /-- begin against end -/
  becmp : (beginEndCmp timeOps (timeToPointer ta) (timeToPointer tb)).sign =
    (mbbTimeBecmp ta tb).sign
  /-- end against begin -/
  ebcmp : (endBeginCmp timeOps (timeToPointer ta) (timeToPointer tb)).sign =
    (mbbTimeEbcmp ta tb).sign
  /-- begin against begin -/
  bbcmp : (beginBeginCmp timeOps (timeToPointer ta) (timeToPointer tb)).sign =
    (mbbTimeBbcmp ta tb).sign
  /-- end against end -/
  eecmp : (endEndCmp timeOps (timeToPointer ta) (timeToPointer tb)).sign =
    (mbbTimeEecmp ta tb).sign

/-- The times whose difference keeps its sign as a `gint`. -/
def CloseMod (ta tb : Int) : Prop :=
  ta = 0 ∨ tb = 0 ∨ ta = tb ∨
    (tb < ta ∧ 1 ≤ (ta - tb) % 2 ^ 32 ∧ (ta - tb) % 2 ^ 32 ≤ 2 ^ 31 - 1) ∨
    (ta < tb ∧ 1 ≤ (tb - ta) % 2 ^ 32 ∧ (tb - ta) % 2 ^ 32 ≤ 2 ^ 31)

instance (ta tb : Int) : Decidable (CloseMod ta tb) := inferInstanceAs (Decidable (_ ∨ _))

/-- The low 32 bits of a difference have its sign. -/
theorem sign_toGint_eq_timecmp {ta tb : Int} (ha : ta ≠ 0) (hb : tb ≠ 0) :
    (toGint (ta - tb)).sign = (timecmp ta tb).sign ↔ CloseMod ta tb := by
  have hcases : toGint (ta - tb) = (ta - tb) % 2 ^ 32 ∧ (ta - tb) % 2 ^ 32 < 2 ^ 31 ∨
      toGint (ta - tb) = (ta - tb) % 2 ^ 32 - 2 ^ 32 ∧ 2 ^ 31 ≤ (ta - tb) % 2 ^ 32 := by
    rw [toGint, Int.bmod_def]
    split <;> omega
  rw [CloseMod, timecmp]
  rcases lt_trichotomy ta tb with h | h | h
  · rw [if_pos h, Int.sign_eq_neg_one_of_neg (by decide : (-1 : Int) < 0),
      Int.sign_eq_neg_one_iff_neg]
    omega
  · rw [if_neg (by omega), if_neg (by omega), Int.sign_zero, Int.sign_eq_zero_iff_zero]
    omega
  · rw [if_neg (by omega), if_pos h, Int.sign_one, Int.sign_eq_one_iff_pos]
    omega

/-- With both times set, each of the four comparisons is that of the difference. -/
theorem ordersAgree_of_ne_zero {ta tb : Int} (ha : TimeOk ta) (hb : TimeOk tb) (ha0 : ta ≠ 0)
    (hb0 : tb ≠ 0) : OrdersAgree ta tb ↔ (toGint (ta - tb)).sign = (timecmp ta tb).sign := by
  obtain ⟨hpa, hza⟩ := ha.pointer
  obtain ⟨hpb, hzb⟩ := hb.pointer
  have hcmp : timeCmp (timeToPointer ta) (timeToPointer tb) = toGint (ta - tb) := by
    rw [timeCmp, hpa, hpb]
  constructor
  · intro h
    simpa [beginEndCmp, mbbTimeBecmp, hza, hzb, ha0, hb0, timeOps, hcmp] using h.becmp
  · intro h
    constructor
    · simpa [beginEndCmp, mbbTimeBecmp, hza, hzb, ha0, hb0, timeOps, hcmp] using h
    · simpa [endBeginCmp, mbbTimeEbcmp, hza, hzb, ha0, hb0, timeOps, hcmp] using h
    · simpa [beginBeginCmp, mbbTimeBbcmp, hza, hzb, ha0, hb0, timeOps, hcmp] using h
    · simpa [endEndCmp, mbbTimeEecmp, hza, hzb, ha0, hb0, timeOps, hcmp] using h

/-- With an open end on either side the orders agree. -/
theorem ordersAgree_of_zero {ta tb : Int} (ha : TimeOk ta) (hb : TimeOk tb)
    (h : ta = 0 ∨ tb = 0) : OrdersAgree ta tb := by
  have hza := ha.pointer.2
  have hzb := hb.pointer.2
  constructor
  · simp [beginEndCmp, mbbTimeBecmp, hza, hzb, h]
  · simp [endBeginCmp, mbbTimeEbcmp, hza, hzb, h]
  · by_cases ha0 : ta = 0 <;> by_cases hb0 : tb = 0 <;>
      simp_all [beginBeginCmp, mbbTimeBbcmp]
  · by_cases ha0 : ta = 0 <;> by_cases hb0 : tb = 0 <;>
      simp_all [endEndCmp, mbbTimeEecmp]

theorem ordersAgree_iff {ta tb : Int} (ha : TimeOk ta) (hb : TimeOk tb) :
    OrdersAgree ta tb ↔ CloseMod ta tb := by
  by_cases h : ta = 0 ∨ tb = 0
  · refine iff_of_true (ordersAgree_of_zero ha hb h) ?_
    rcases h with h | h
    · exact Or.inl h
    · exact Or.inr (Or.inl h)
  · push Not at h
    rw [ordersAgree_of_ne_zero ha hb h.1 h.2, sign_toGint_eq_timecmp h.1 h.2]

/-- An interval the time checks accept is not skipped by `slicer_apply_change`. -/
def NotSkipped [TreeShape ℕ] (start stop : Int) : Prop :=
  mbbTimeBecmp start stop ≤ 0 →
    ∀ {σ D X : Type} (d : SliceDataOps σ D X) (sl : Slicer ℕ D) (x : X)
      (func : Slicer.OpFunc ℕ σ D X) (s : σ),
      sl.applyChange timeOps d x (timeToPointer start) (timeToPointer stop) func s =
        sl.changeRange timeOps d x (timeToPointer start) (timeToPointer stop) func s

theorem notSkipped_of_agree [TreeShape ℕ] {start stop : Int} (h : OrdersAgree start stop) :
    NotSkipped start stop := by
  intro hle σ D X d sl x func s
  rw [Slicer.applyChange, if_neg]
  intro hpos
  have hsign := h.becmp
  rw [Int.sign_eq_one_of_pos hpos] at hsign
  have := Int.sign_eq_one_iff_pos.mp hsign.symm
  omega

/-- **The two time orders** agree, and accepted intervals are not skipped, exactly for
times whose difference keeps its sign in 32 bits. -/
theorem time_orders_agree_iff [TreeShape ℕ] {ta tb : Int} (ha : TimeOk ta) (hb : TimeOk tb) :
    OrdersAgree ta tb ∧ NotSkipped ta tb ↔ CloseMod ta tb := by
  rw [← ordersAgree_iff ha hb]
  exact ⟨fun h => h.1, fun h => ⟨h, notSkipped_of_agree h⟩⟩

/-- One hour apart, the orders agree. -/
theorem time_orders_agree_hour :
    letI := TreeShape.plain ℕ
    OrdersAgree 946684800 946688400 ∧ NotSkipped 946684800 946688400 := by
  let _ := TreeShape.plain ℕ
  exact (time_orders_agree_iff ⟨by decide, by decide⟩ ⟨by decide, by decide⟩).mpr (by decide)

/-- The interval from the year 2000 to the year 2100 is accepted by the checks, but the
slicer takes its begin to be after its end. -/
theorem time_orders_differ_century :
    letI := TreeShape.plain ℕ
    TimeOk 946684800 ∧ TimeOk 4102444800 ∧ mbbTimeBecmp 946684800 4102444800 ≤ 0 ∧
      ¬ OrdersAgree 946684800 4102444800 ∧ ¬ NotSkipped 946684800 4102444800 := by
  let _ := TreeShape.plain ℕ
  refine ⟨⟨by decide, by decide⟩, ⟨by decide, by decide⟩, by decide, ?_, ?_⟩
  · intro h
    exact absurd h.becmp (by decide)
  · intro h
    have he := h (by decide) Slicer.countOps (timeSlicerNew ℕ) ()
      (Slicer.insertAdd timeOps Slicer.countOps) 0
    exact absurd (congrArg (Option.map Prod.snd) he) (by decide)

end Mbb
