import Mbb.Slicer

/-!
# What the comparisons of the slicer decide

For keys on which `cmp` has the sign of a linear order, `slice_cmp` decides whether
one slice is before the other and `slice_cross` cuts a slice into the parts before,
inside and after another one. `Fits w r` is what the cut needs of the keys of a
range `r`: the neighbours `dec` and `inc` compute exist and are not `NULL`
whenever there is something of `w` on that side.
-/

namespace Mbb

variable {P : Type} [LinearOrder P] [Zero P]

/-- On the keys of `dom` the comparison has the sign of the order, and a copy of a
key is the key. -/
structure SliceOps.Lawful (o : SliceOps P) (dom : P → Prop) : Prop where
  /-- negative exactly below -/
  cmp_neg : ∀ {a b : P}, dom a → dom b → (o.cmp a b < 0 ↔ a < b)
  /-- positive exactly above -/
  cmp_pos : ∀ {a b : P}, dom a → dom b → (0 < o.cmp a b ↔ b < a)
  /-- copies are equal -/
  dup_eq : ∀ a : P, o.dup a = a

/-- The range `r` can be cut out of the range `w`. -/
structure SliceOps.Fits (o : SliceOps P) (dom : P → Prop) (w r : Span P) : Prop where
  /-- the range has its bounds in order -/
  proper : r.Proper dom
  /-- `dec` of the begin is the key before it, when `w` has one -/
  dec_ok : r.lo ≠ 0 → w.lo = 0 ∨ w.lo < r.lo →
    o.dec r.lo ≠ 0 ∧ dom (o.dec r.lo) ∧ Next dom (o.dec r.lo) r.lo
  /-- `inc` of the end is the key after it, when `w` has one -/
  inc_ok : r.hi ≠ 0 → w.hi = 0 ∨ r.hi < w.hi →
    o.inc r.hi ≠ 0 ∧ dom (o.inc r.hi) ∧ Next dom r.hi (o.inc r.hi)

variable {o : SliceOps P} {dom : P → Prop} {a b r w : Span P} {p : P}

/-- A range that fits the whole fits each of its tiles. -/
theorem SliceOps.Fits.tile {l : List (Span P)} (h : o.Fits dom w r)
    (ht : Tiles dom w.lo w.hi l) (ha : a ∈ l) : o.Fits dom a r where
  proper := h.proper
  dec_ok := by
    intro hr hc
    refine h.dec_ok hr ?_
    by_cases hw : w.lo = 0
    · exact Or.inl hw
    · obtain ⟨h1, h2⟩ := ht.lo_le hw a ha
      exact Or.inr (lt_of_le_of_lt h2 (hc.resolve_left h1))
  inc_ok := by
    intro hr hc
    refine h.inc_ok hr ?_
    by_cases hw : w.hi = 0
    · exact Or.inl hw
    · obtain ⟨h1, h2⟩ := ht.le_hi hw a ha
      exact Or.inr (lt_of_lt_of_le (hc.resolve_left h1) h2)

/-- A comparison that is settled where a key is null. -/
theorem open_iff {x y : P} {n c : Int} {p : Int → Prop} {q : Prop} (hn : ¬ p n)
    (hc : x ≠ 0 → y ≠ 0 → (p c ↔ q)) :
    p (if x = 0 ∨ y = 0 then n else c) ↔ x ≠ 0 ∧ y ≠ 0 ∧ q := by
  by_cases h : x = 0 ∨ y = 0
  · rw [if_pos h]
    refine iff_of_false hn ?_
    rintro ⟨hx, hy, -⟩
    exact h.elim hx hy
  · obtain ⟨hx, hy⟩ := not_or.mp h
    rw [if_neg h, hc hx hy, and_iff_right hx, and_iff_right hy]

namespace SliceOps.Lawful

variable (ho : o.Lawful dom)
include ho

/-! ## The four comparisons

Begins and ends are compared in four ways, of which each takes `NULL` for the right infinity.
-/

theorem endBeginCmp_neg {e b : P} (he : e ≠ 0 → dom e) (hb : b ≠ 0 → dom b) :
    endBeginCmp o e b < 0 ↔ e ≠ 0 ∧ b ≠ 0 ∧ e < b := by
  rw [endBeginCmp]
  apply open_iff (p := fun c => c < 0)
  · decide
  · exact fun h1 h2 => ho.cmp_neg (he h1) (hb h2)

theorem beginEndCmp_pos {b e : P} (hb : b ≠ 0 → dom b) (he : e ≠ 0 → dom e) :
    0 < beginEndCmp o b e ↔ b ≠ 0 ∧ e ≠ 0 ∧ e < b := by
  rw [beginEndCmp]
  apply open_iff (p := fun c => 0 < c)
  · decide
  · exact fun h1 h2 => ho.cmp_pos (hb h1) (he h2)

theorem beginBeginCmp_neg {b₁ b₂ : P} (h₁ : b₁ ≠ 0 → dom b₁) (h₂ : b₂ ≠ 0 → dom b₂) :
    beginBeginCmp o b₁ b₂ < 0 ↔ b₂ ≠ 0 ∧ (b₁ = 0 ∨ b₁ < b₂) := by
  rw [beginBeginCmp]
  by_cases hb₁ : b₁ = 0
  · by_cases hb₂ : b₂ = 0 <;> simp [hb₁, hb₂]
  · by_cases hb₂ : b₂ = 0
    · simp [hb₁, hb₂]
    · simp only [hb₁, hb₂, false_and, if_false, ne_eq, not_false_eq_true, true_and, false_or]
      exact ho.cmp_neg (h₁ hb₁) (h₂ hb₂)

theorem endEndCmp_neg {e₁ e₂ : P} (h₁ : e₁ ≠ 0 → dom e₁) (h₂ : e₂ ≠ 0 → dom e₂) :
    endEndCmp o e₁ e₂ < 0 ↔ e₁ ≠ 0 ∧ (e₂ = 0 ∨ e₁ < e₂) := by
  rw [endEndCmp]
  by_cases he₁ : e₁ = 0
  · by_cases he₂ : e₂ = 0 <;> simp [he₁, he₂]
  · by_cases he₂ : e₂ = 0
    · simp [he₁, he₂]
    · simp only [he₁, he₂, and_false, if_false, ne_eq, not_false_eq_true, true_and, false_or]
      exact ho.cmp_neg (h₁ he₁) (h₂ he₂)

/-! ## `slice_cmp` and `slice_cmp_point`

Slices that overlap count as equal; that is how the tree is searched for a range.
-/

theorem sliceCmp_neg (ha : a.Proper dom) (hb : b.Proper dom) :
    sliceCmp o a b < 0 ↔ a.Before b := by
  rw [sliceCmp]
  have h1 := ho.endBeginCmp_neg ha.hi_dom hb.lo_dom
  split
  · rename_i h
    exact ⟨fun _ => h1.mp h, fun _ => by decide⟩
  · rename_i h
    refine ⟨fun hlt => ?_, fun hab => absurd (h1.mpr hab) h⟩
    split at hlt <;> omega

theorem sliceCmp_pos (ha : a.Proper dom) (hb : b.Proper dom) :
    0 < sliceCmp o a b ↔ b.Before a := by
  rw [sliceCmp]
  have h1 := ho.endBeginCmp_neg ha.hi_dom hb.lo_dom
  have h2 := ho.beginEndCmp_pos ha.lo_dom hb.hi_dom
  split
  · rename_i h
    have hab : a.Before b := h1.mp h
    refine ⟨fun hlt => by omega, fun hba => absurd hba (hab.asymm ha hb)⟩
  · split
    · rename_i h
      obtain ⟨h3, h4, h5⟩ := h2.mp h
      exact ⟨fun _ => ⟨h4, h3, h5⟩, fun _ => by decide⟩
    · rename_i h
      refine ⟨fun hlt => by omega, fun hba => ?_⟩
      exact absurd (h2.mpr ⟨hba.2.1, hba.1, hba.2.2⟩) h

theorem sliceCmp_eq_zero (ha : a.Proper dom) (hb : b.Proper dom) :
    sliceCmp o a b = 0 ↔ a.Meets b := by
  have h1 := ho.sliceCmp_neg ha hb
  have h2 := ho.sliceCmp_pos ha hb
  rw [Span.Meets, ← h1, ← h2]
  omega

/-- `slice_cmp_point` is zero on the points of the slice, positive on the points
before it and negative on those after it. -/
theorem sliceCmpPoint_cases (ha : a.Proper dom) (hp : dom p) :
    (sliceCmpPoint o a p = 0 ∧ a.Mem p) ∨
      (sliceCmpPoint o a p = 1 ∧ a.lo ≠ 0 ∧ p < a.lo) ∨
      (sliceCmpPoint o a p = -1 ∧ a.hi ≠ 0 ∧ a.hi < p) := by
  rw [sliceCmpPoint]
  by_cases h1 : a.lo ≠ 0 ∧ o.cmp p a.lo < 0
  · rw [if_pos h1]
    exact Or.inr (Or.inl ⟨rfl, h1.1, (ho.cmp_neg hp (ha.lo_dom h1.1)).mp h1.2⟩)
  · rw [if_neg h1]
    have hlo : a.lo = 0 ∨ a.lo ≤ p := by
      by_cases h0 : a.lo = 0
      · exact Or.inl h0
      · refine Or.inr (not_lt.mp fun hlt => h1 ⟨h0, ?_⟩)
        exact (ho.cmp_neg hp (ha.lo_dom h0)).mpr hlt
    by_cases h2 : a.hi ≠ 0 ∧ o.cmp a.hi p < 0
    · rw [if_pos h2]
      exact Or.inr (Or.inr ⟨rfl, h2.1, (ho.cmp_neg (ha.hi_dom h2.1) hp).mp h2.2⟩)
    · rw [if_neg h2]
      refine Or.inl ⟨rfl, hlo, ?_⟩
      by_cases h0 : a.hi = 0
      · exact Or.inl h0
      · refine Or.inr (not_lt.mp fun hlt => h2 ⟨h0, ?_⟩)
        exact (ho.cmp_neg (ha.hi_dom h0) hp).mpr hlt

theorem sliceCmpPoint_eq_zero (ha : a.Proper dom) (hp : dom p) :
    sliceCmpPoint o a p = 0 ↔ a.Mem p := by
  rcases ho.sliceCmpPoint_cases ha hp with ⟨h, hm⟩ | ⟨h, h0, hlt⟩ | ⟨h, h0, hlt⟩
  · simp [h, hm]
  · rw [h]
    refine ⟨fun h => by omega, fun hm => ?_⟩
    exact absurd (hm.1.resolve_left h0) (not_le.mpr hlt)
  · rw [h]
    refine ⟨fun h => by omega, fun hm => ?_⟩
    exact absurd (hm.2.resolve_left h0) (not_le.mpr hlt)

/-! ## `slice_cross`

The parts of a slice before, inside and after a range, of which each may be missing.
-/

theorem sliceCross_none (ha : a.Proper dom) (hr : r.Proper dom) (h : ¬ a.Meets r) :
    sliceCross o a r = none := by
  rw [sliceCross, if_pos]
  exact fun h0 => h ((ho.sliceCmp_eq_zero ha hr).mp h0)

omit ho in
/-- The common lower bound of two spans: bounded by it is bounded by both. -/
theorem lo_common {x : P} (hx : x = a.lo ∧ (r.lo = 0 ∨ a.lo ≠ 0 ∧ r.lo ≤ a.lo) ∨
    x = r.lo ∧ r.lo ≠ 0 ∧ (a.lo = 0 ∨ a.lo < r.lo)) (q : P) :
    (x = 0 ∨ x ≤ q) ↔ (a.lo = 0 ∨ a.lo ≤ q) ∧ (r.lo = 0 ∨ r.lo ≤ q) := by
  rcases hx with ⟨rfl, h | ⟨h0, h⟩⟩ | ⟨rfl, h0, h | h⟩
  · simp [h]
  · refine ⟨fun hq => ⟨hq, Or.inr ?_⟩, fun hq => hq.1⟩
    exact le_trans h (hq.resolve_left h0)
  · simp [h]
  · refine ⟨fun hq => ⟨Or.inr ?_, hq⟩, fun hq => hq.2⟩
    exact le_trans h.le (hq.resolve_left h0)

omit ho in
/-- The common upper bound of two spans: bounded by it is bounded by both. -/
theorem hi_common {x : P} (hx : x = a.hi ∧ (r.hi = 0 ∨ a.hi ≠ 0 ∧ a.hi ≤ r.hi) ∨
    x = r.hi ∧ r.hi ≠ 0 ∧ (a.hi = 0 ∨ r.hi < a.hi)) (q : P) :
    (x = 0 ∨ q ≤ x) ↔ (a.hi = 0 ∨ q ≤ a.hi) ∧ (r.hi = 0 ∨ q ≤ r.hi) := by
  rcases hx with ⟨rfl, h | ⟨h0, h⟩⟩ | ⟨rfl, h0, h | h⟩
  · simp [h]
  · refine ⟨fun hq => ⟨hq, Or.inr ?_⟩, fun hq => hq.1⟩
    exact le_trans (hq.resolve_left h0) h
  · simp [h]
  · refine ⟨fun hq => ⟨Or.inr ?_, hq⟩, fun hq => hq.2⟩
    exact le_trans (hq.resolve_left h0) h.le

/-- The left cut of `slice_cross`. -/
theorem cross_left (ha : a.Proper dom) (hr : o.Fits dom a r) :
    ∃ lo x, (if 0 ≤ beginBeginCmp o a.lo r.lo then (a.lo, (none : Option (Slice P)))
        else (r.lo, some ⟨o.dup a.lo, o.dec (o.dup r.lo)⟩)) = (lo, x) ∧
      (lo = a.lo ∧ (r.lo = 0 ∨ a.lo ≠ 0 ∧ r.lo ≤ a.lo) ∨
        lo = r.lo ∧ r.lo ≠ 0 ∧ (a.lo = 0 ∨ a.lo < r.lo)) ∧
      (∀ hi l, Tiles dom lo hi l → Tiles dom a.lo hi (x.toList ++ l)) ∧
      ∀ s ∈ x, s.Before r := by
  have hcmp := ho.beginBeginCmp_neg ha.lo_dom hr.proper.lo_dom
  by_cases hge : 0 ≤ beginBeginCmp o a.lo r.lo
  · refine ⟨a.lo, none, if_pos hge, Or.inl ⟨rfl, ?_⟩, fun _ _ h => h, by simp⟩
    have hn := mt hcmp.mpr (not_lt.mpr hge)
    push Not at hn
    by_cases h0 : r.lo = 0
    · exact Or.inl h0
    · exact Or.inr (hn h0)
  · obtain ⟨h0, hlt⟩ := hcmp.mp (not_le.mp hge)
    obtain ⟨hd0, hdd, hnext⟩ := hr.dec_ok h0 hlt
    have hle : a.lo = 0 ∨ a.lo ≤ o.dec r.lo := by
      by_cases ha0 : a.lo = 0
      · exact Or.inl ha0
      · rcases hnext.2 a.lo (ha.lo_dom ha0) with h | h
        · exact Or.inr h
        · exact absurd (hlt.resolve_left ha0) (not_lt.mpr h)
    refine ⟨r.lo, some ⟨a.lo, o.dec r.lo⟩, ?_, Or.inr ⟨rfl, h0, hlt⟩, ?_, ?_⟩
    · rw [if_neg hge, ho.dup_eq, ho.dup_eq]
    · intro hi l ht
      refine .cons ⟨ha.lo_dom, fun _ => hdd, ?_⟩ hd0 h0 hnext ht
      exact hle.imp id Or.inr
    · intro s hs
      obtain rfl := Option.some.inj hs
      exact ⟨hd0, h0, hnext.1⟩

/-- The right cut of `slice_cross`. -/
theorem cross_right (ha : a.Proper dom) (hr : o.Fits dom a r) :
    ∃ hi z, (if 0 ≤ endEndCmp o r.hi a.hi then (a.hi, (none : Option (Slice P)))
        else (r.hi, some ⟨o.inc (o.dup r.hi), o.dup a.hi⟩)) = (hi, z) ∧
      (hi = a.hi ∧ (r.hi = 0 ∨ a.hi ≠ 0 ∧ a.hi ≤ r.hi) ∨
        hi = r.hi ∧ r.hi ≠ 0 ∧ (a.hi = 0 ∨ r.hi < a.hi)) ∧
      (∀ lo l, Tiles dom lo hi l → Tiles dom lo a.hi (l ++ z.toList)) ∧
      ∀ s ∈ z, r.Before s := by
  have hcmp := ho.endEndCmp_neg hr.proper.hi_dom ha.hi_dom
  by_cases hge : 0 ≤ endEndCmp o r.hi a.hi
  · refine ⟨a.hi, none, if_pos hge, Or.inl ⟨rfl, ?_⟩, fun _ _ h => by simpa using h, by simp⟩
    have hn := mt hcmp.mpr (not_lt.mpr hge)
    push Not at hn
    by_cases h0 : r.hi = 0
    · exact Or.inl h0
    · exact Or.inr (hn h0)
  · obtain ⟨h0, hlt⟩ := hcmp.mp (not_le.mp hge)
    obtain ⟨hi0, hid, hnext⟩ := hr.inc_ok h0 hlt
    have hle : a.hi = 0 ∨ o.inc r.hi ≤ a.hi := by
      by_cases ha0 : a.hi = 0
      · exact Or.inl ha0
      · rcases hnext.2 a.hi (ha.hi_dom ha0) with h | h
        · exact absurd (hlt.resolve_left ha0) (not_lt.mpr h)
        · exact Or.inr h
    refine ⟨r.hi, some ⟨o.inc r.hi, a.hi⟩, ?_, Or.inr ⟨rfl, h0, hlt⟩, ?_, ?_⟩
    · rw [if_neg hge, ho.dup_eq, ho.dup_eq]
    · intro lo l ht
      refine ht.append h0 hi0 hnext (.single ⟨fun _ => hid, ha.hi_dom, Or.inr ?_⟩)
      exact hle
    · intro s hs
      obtain rfl := Option.some.inj hs
      exact ⟨h0, hi0, hnext.1⟩

/-- The cut of `a` by `r`: the parts tile `a`, the middle one has the common points,
the outer ones are before and after `r`. -/
theorem sliceCross_some (ha : a.Proper dom) (hr : o.Fits dom a r) (h : a.Meets r) :
    ∃ x y z, sliceCross o a r = some (x, y, z) ∧
      Tiles dom a.lo a.hi (x.toList ++ y :: z.toList) ∧
      (∀ q, y.Mem q ↔ a.Mem q ∧ r.Mem q) ∧
      (∀ s ∈ x, s.Before r) ∧ ∀ s ∈ z, r.Before s := by
  obtain ⟨lo, x, hx, hlo, htx, hbx⟩ := ho.cross_left ha hr
  obtain ⟨hi, z, hz, hhi, htz, hbz⟩ := ho.cross_right ha hr
  refine ⟨x, ⟨lo, hi⟩, z, ?_, ?_, ?_, hbx, hbz⟩
  · rw [sliceCross, if_neg (not_not.mpr ((ho.sliceCmp_eq_zero ha hr.proper).mpr h)), hx, hz]
    simp only [ho.dup_eq]
  · -- the middle part has its bounds in order because the slices meet
    have hmid : Span.Proper dom ⟨lo, hi⟩ := by
      refine ⟨?_, ?_, ?_⟩
      · rcases hlo with ⟨rfl, -⟩ | ⟨rfl, -, -⟩
        · exact ha.lo_dom
        · exact hr.proper.lo_dom
      · rcases hhi with ⟨rfl, -⟩ | ⟨rfl, -, -⟩
        · exact ha.hi_dom
        · exact hr.proper.hi_dom
      · have h1 : a.hi = 0 ∨ r.lo = 0 ∨ r.lo ≤ a.hi := by
          by_contra hc
          push Not at hc
          exact h.1 hc
        have h2 : r.hi = 0 ∨ a.lo = 0 ∨ a.lo ≤ r.hi := by
          by_contra hc
          push Not at hc
          exact h.2 hc
        rcases hlo with ⟨rfl, -⟩ | ⟨rfl, -, -⟩ <;> rcases hhi with ⟨rfl, -⟩ | ⟨rfl, -, -⟩
        · exact ha.le
        · exact or_left_comm.mp h2
        · exact or_left_comm.mp h1
        · exact hr.proper.le
    have := htz lo _ (.single hmid)
    exact htx a.hi _ this
  · intro q
    rw [Span.Mem, lo_common hlo, hi_common hhi, Span.Mem, Span.Mem]
    exact and_and_and_comm

end SliceOps.Lawful

end Mbb
