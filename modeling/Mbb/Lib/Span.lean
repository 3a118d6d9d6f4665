import Mathlib.Order.Lattice
import Mathlib.Order.MinMax
import Mathlib.Data.List.Basic
import Mathlib.Tactic.Order

/-!
# Spans: closed intervals with open ends

A span is a pair of bounds in a linear order with a distinguished value `0`. As a
lower bound `0` means "no bound below", as an upper bound "no bound above", so the
same value stands for minus infinity at one end and plus infinity at the other.

Neighbourhood (`Next`) is relative to a domain of admissible points, and so is
everything built from it: `Tiles lo hi l` says that the spans of `l` lie side by
side, without gap or overlap, from `lo` to `hi`.
-/

namespace Mbb

universe u

/-- A closed interval; the bound `0` is an open end. -/
structure Span (P : Type u) : Type u where
  /-- lower bound -/
  lo : P
  /-- upper bound -/
  hi : P
  deriving DecidableEq, Repr

namespace Span

variable {P : Type u} [LinearOrder P] [Zero P]

/-- `p` lies between the bounds. -/
def Mem (s : Span P) (p : P) : Prop := (s.lo = 0 ∨ s.lo ≤ p) ∧ (s.hi = 0 ∨ p ≤ s.hi)

instance (s : Span P) (p : P) : Decidable (s.Mem p) := inferInstanceAs (Decidable (_ ∧ _))

/-- `a` ends before `b` begins. -/
def Before (a b : Span P) : Prop := a.hi ≠ 0 ∧ b.lo ≠ 0 ∧ a.hi < b.lo

instance (a b : Span P) : Decidable (a.Before b) := inferInstanceAs (Decidable (_ ∧ _))

/-- Neither span is before the other. -/
def Meets (a b : Span P) : Prop := ¬ a.Before b ∧ ¬ b.Before a

instance (a b : Span P) : Decidable (a.Meets b) := inferInstanceAs (Decidable (_ ∧ _))

/-- The bounds are admissible and in order. -/
structure Proper (dom : P → Prop) (s : Span P) : Prop where
  /-- a lower bound is a point -/
  lo_dom : s.lo ≠ 0 → dom s.lo
  /-- an upper bound is a point -/
  hi_dom : s.hi ≠ 0 → dom s.hi
  /-- the lower bound does not exceed the upper one -/
  le : s.lo = 0 ∨ s.hi = 0 ∨ s.lo ≤ s.hi

variable {dom : P → Prop} {a b c s : Span P} {p : P}

theorem Before.not_mem (h : a.Before b) (ha : a.Mem p) : ¬ b.Mem p := by
  intro hb
  obtain ⟨h1, h2, h3⟩ := h
  have := ha.2.resolve_left h1
  have := hb.1.resolve_left h2
  order

theorem Before.trans (h : a.Before b) (hb : b.Proper dom) (h' : b.Before c) : a.Before c := by
  obtain ⟨h1, h2, h3⟩ := h
  obtain ⟨h4, h5, h6⟩ := h'
  have := (hb.le.resolve_left h2).resolve_left h4
  exact ⟨h1, h5, by order⟩

theorem Before.asymm (h : a.Before b) (ha : a.Proper dom) (hb : b.Proper dom) :
    ¬ b.Before a := by
  intro h'
  obtain ⟨h1, h2, h3⟩ := h
  obtain ⟨h4, h5, h6⟩ := h'
  have := (hb.le.resolve_left h2).resolve_left h4
  have := (ha.le.resolve_left h5).resolve_left h1
  order

theorem Meets.symm (h : a.Meets b) : b.Meets a := ⟨h.2, h.1⟩

/-- Spans with a common point meet. -/
theorem Meets.of_mem (ha : a.Mem p) (hb : b.Mem p) : a.Meets b :=
  ⟨fun h => h.not_mem ha hb, fun h => h.not_mem hb ha⟩

/-- Proper spans that meet have a common point. -/
theorem Meets.exists_mem (hd : ∃ p, dom p) (ha : a.Proper dom) (hb : b.Proper dom)
    (h : a.Meets b) : ∃ p, dom p ∧ a.Mem p ∧ b.Mem p := by
  have hab : a.hi = 0 ∨ b.lo = 0 ∨ b.lo ≤ a.hi := by
    by_contra hc
    push Not at hc
    exact h.1 ⟨hc.1, hc.2.1, hc.2.2⟩
  have hba : b.hi = 0 ∨ a.lo = 0 ∨ a.lo ≤ b.hi := by
    by_contra hc
    push Not at hc
    exact h.2 ⟨hc.1, hc.2.1, hc.2.2⟩
  by_cases hal : a.lo = 0
  · by_cases hbl : b.lo = 0
    · -- no lower bound: any point up to the smaller upper bound
      by_cases hah : a.hi = 0
      · by_cases hbh : b.hi = 0
        · obtain ⟨p, hp⟩ := hd
          exact ⟨p, hp, ⟨Or.inl hal, Or.inl hah⟩, ⟨Or.inl hbl, Or.inl hbh⟩⟩
        · exact ⟨b.hi, hb.hi_dom hbh, ⟨Or.inl hal, Or.inl hah⟩, ⟨Or.inl hbl, Or.inr le_rfl⟩⟩
      · by_cases hbh : b.hi = 0
        · exact ⟨a.hi, ha.hi_dom hah, ⟨Or.inl hal, Or.inr le_rfl⟩, ⟨Or.inl hbl, Or.inl hbh⟩⟩
        · rcases le_total a.hi b.hi with hle | hle
          · exact ⟨a.hi, ha.hi_dom hah, ⟨Or.inl hal, Or.inr le_rfl⟩, ⟨Or.inl hbl, Or.inr hle⟩⟩
          · exact ⟨b.hi, hb.hi_dom hbh, ⟨Or.inl hal, Or.inr hle⟩, ⟨Or.inl hbl, Or.inr le_rfl⟩⟩
    · exact ⟨b.lo, hb.lo_dom hbl, ⟨Or.inl hal, hab.imp id (·.resolve_left hbl)⟩,
        ⟨Or.inr le_rfl, hb.le.resolve_left hbl⟩⟩
  · by_cases hbl : b.lo = 0
    · exact ⟨a.lo, ha.lo_dom hal, ⟨Or.inr le_rfl, ha.le.resolve_left hal⟩,
        ⟨Or.inl hbl, hba.imp id (·.resolve_left hal)⟩⟩
    · -- two lower bounds: the larger one is common
      rcases le_total a.lo b.lo with hle | hle
      · exact ⟨b.lo, hb.lo_dom hbl, ⟨Or.inr hle, hab.imp id (·.resolve_left hbl)⟩,
          ⟨Or.inr le_rfl, hb.le.resolve_left hbl⟩⟩
      · exact ⟨a.lo, ha.lo_dom hal, ⟨Or.inr le_rfl, ha.le.resolve_left hal⟩,
          ⟨Or.inr hle, hba.imp id (·.resolve_left hal)⟩⟩

/-- Spans one after the other, as one. -/
theorem Proper.join (ha : a.Proper dom) (hb : b.Proper dom) (hab : a.Before b) :
    Span.Proper dom ⟨a.lo, b.hi⟩ := by
  obtain ⟨h1, h2, h3⟩ := hab
  refine ⟨ha.lo_dom, hb.hi_dom, ?_⟩
  rcases ha.le with h0 | h0 | h0
  · exact Or.inl h0
  · exact absurd h0 h1
  · exact Or.inr ((hb.le.resolve_left h2).imp id fun h0' => h0.trans (h3.le.trans h0'))

/-- A proper span has a point. -/
theorem Proper.exists_mem (hd : ∃ p, dom p) (h : s.Proper dom) : ∃ p, dom p ∧ s.Mem p := by
  have hself : s.Meets s := by
    have hn : ¬ s.Before s := by
      rintro ⟨h1, h2, h3⟩
      have := (h.le.resolve_left h2).resolve_left h1
      order
    exact ⟨hn, hn⟩
  obtain ⟨p, hp, hm, -⟩ := hself.exists_mem hd h h
  exact ⟨p, hp, hm⟩

end Span

/-! ## Neighbours and tilings

A tiling can be cut at a span, joined and searched; each of these is one lemma here, and the slicer
uses nothing else about order.
-/

variable {P : Type u} [LinearOrder P] [Zero P]

/-- `b` follows `a` directly among the points of `dom`. -/
def Next (dom : P → Prop) (a b : P) : Prop := a < b ∧ ∀ c, dom c → c ≤ a ∨ b ≤ c

/-- The spans of the list lie side by side from `lo` to `hi`. -/
inductive Tiles (dom : P → Prop) : P → P → List (Span P) → Prop where
  /-- one span -/
  | single {lo hi : P} : Span.Proper dom ⟨lo, hi⟩ → Tiles dom lo hi [⟨lo, hi⟩]
  /-- a span, and the rest starts at the next point -/
  | cons {lo m n hi : P} {l : List (Span P)} : Span.Proper dom ⟨lo, m⟩ → m ≠ 0 → n ≠ 0 →
      Next dom m n → Tiles dom n hi l → Tiles dom lo hi (⟨lo, m⟩ :: l)

namespace Tiles

variable {dom : P → Prop} {lo hi m n : P} {l A B : List (Span P)} {s : Span P} {p : P}

theorem ne_nil (h : Tiles dom lo hi l) : l ≠ [] := by
  cases h <;> simp

theorem proper (h : Tiles dom lo hi l) : ∀ s ∈ l, s.Proper dom := by
  induction h with
  | single hp =>
    intro s hs
    obtain rfl := List.mem_singleton.mp hs
    exact hp
  | cons hp _ _ _ _ ih =>
    intro s hs
    rcases List.mem_cons.mp hs with rfl | hs
    · exact hp
    · exact ih s hs

/-- The tiled range is itself a proper span. -/
theorem whole (h : Tiles dom lo hi l) : Span.Proper dom ⟨lo, hi⟩ := by
  induction h with
  | single hp => exact hp
  | cons hp hm hn hnext _ ih =>
    refine ⟨hp.lo_dom, ih.hi_dom, ?_⟩
    rcases hp.le with h0 | h0 | h0
    · exact Or.inl h0
    · exact absurd h0 hm
    · rcases ih.le with h1 | h1 | h1
      · exact absurd h1 hn
      · exact Or.inr (Or.inl h1)
      · have hlt := hnext.1
        refine Or.inr (Or.inr ?_)
        simp only at h0 h1 ⊢
        order

theorem lo_le (h : Tiles dom lo hi l) (hlo : lo ≠ 0) : ∀ s ∈ l, s.lo ≠ 0 ∧ lo ≤ s.lo := by
  induction h with
  | single _ =>
    intro s hs
    obtain rfl := List.mem_singleton.mp hs
    exact ⟨hlo, le_rfl⟩
  | cons hp hm hn hnext _ ih =>
    intro s hs
    rcases List.mem_cons.mp hs with rfl | hs
    · exact ⟨hlo, le_rfl⟩
    · obtain ⟨h1, h2⟩ := ih hn s hs
      have h3 := (hp.le.resolve_left hlo).resolve_left hm
      have h4 := hnext.1
      refine ⟨h1, ?_⟩
      simp only at h3
      order

theorem le_hi (h : Tiles dom lo hi l) (hhi : hi ≠ 0) : ∀ s ∈ l, s.hi ≠ 0 ∧ s.hi ≤ hi := by
  induction h with
  | single _ =>
    intro s hs
    obtain rfl := List.mem_singleton.mp hs
    exact ⟨hhi, le_rfl⟩
  | cons _ hm hn hnext ht ih =>
    intro s hs
    rcases List.mem_cons.mp hs with rfl | hs
    · have h1 := (ht.whole.le.resolve_left hn).resolve_left hhi
      have h2 := hnext.1
      refine ⟨hm, ?_⟩
      simp only at h1 ⊢
      order
    · exact ih hhi s hs

theorem pairwise (h : Tiles dom lo hi l) : l.Pairwise Span.Before := by
  induction h with
  | single _ => exact List.pairwise_singleton _ _
  | cons _ hm hn hnext ht ih =>
    refine List.pairwise_cons.mpr ⟨fun s hs => ?_, ih⟩
    obtain ⟨h1, h2⟩ := ht.lo_le hn s hs
    exact ⟨hm, h1, lt_of_lt_of_le hnext.1 h2⟩

/-- A span of the tiling has no point outside the tiled range. -/
theorem sub (h : Tiles dom lo hi l) (hs : s ∈ l) (hp : s.Mem p) : Span.Mem ⟨lo, hi⟩ p := by
  induction h with
  | single _ =>
    obtain rfl := List.mem_singleton.mp hs
    exact hp
  | @cons lo m n hi l hpr hm hn hnext _ ih =>
    rcases List.mem_cons.mp hs with rfl | hs
    · refine ⟨hp.1, ?_⟩
      by_cases hhi : hi = 0
      · exact Or.inl hhi
      · rename_i ht
        have h1 := (ht.whole.le.resolve_left hn).resolve_left hhi
        have h2 := hp.2.resolve_left hm
        have h3 := hnext.1
        refine Or.inr ?_
        simp only at h1 h2 ⊢
        order
    · obtain ⟨h1, h2⟩ := ih hs
      refine ⟨?_, h2⟩
      rcases hpr.le with h0 | h0 | h0
      · exact Or.inl h0
      · exact absurd h0 hm
      · have h3 := hnext.1
        have h4 := h1.resolve_left hn
        refine Or.inr ?_
        simp only at h0 h4 ⊢
        order

/-- Every point of the tiled range is in one of the spans. -/
theorem cover (h : Tiles dom lo hi l) (hd : dom p) (hp : Span.Mem ⟨lo, hi⟩ p) :
    ∃ s ∈ l, s.Mem p := by
  induction h with
  | single _ => exact ⟨_, List.mem_singleton.mpr rfl, hp⟩
  | cons _ _ _ hnext _ ih =>
    rcases hnext.2 p hd with hle | hle
    · exact ⟨_, List.mem_cons_self, hp.1, Or.inr hle⟩
    · obtain ⟨s, hs, hm⟩ := ih ⟨Or.inr hle, hp.2⟩
      exact ⟨s, List.mem_cons_of_mem _ hs, hm⟩

/-- Two tilings, the second starting at the point after the end of the first. -/
theorem append (hA : Tiles dom lo m A) (hm : m ≠ 0) (hn : n ≠ 0) (hnext : Next dom m n)
    (hB : Tiles dom n hi B) : Tiles dom lo hi (A ++ B) := by
  induction hA with
  | single hp => exact .cons hp hm hn hnext hB
  | cons hp hm' hn' hnext' _ ih => exact .cons hp hm' hn' hnext' (ih hm hnext)

/-- A tiling splits between any two of its spans. -/
theorem split (h : Tiles dom lo hi (A ++ B)) (hA : A ≠ []) (hB : B ≠ []) :
    ∃ m n, Tiles dom lo m A ∧ m ≠ 0 ∧ n ≠ 0 ∧ Next dom m n ∧ Tiles dom n hi B := by
  induction A generalizing lo with
  | nil => exact absurd rfl hA
  | cons s A ih =>
    generalize hl : s :: A ++ B = l at h
    cases h with
    | single hp =>
      rw [List.cons_append] at hl
      obtain ⟨-, hnil⟩ := List.cons.inj hl
      exact absurd (List.append_eq_nil_iff.mp hnil).2 hB
    | @cons _ m n _ l' hp hm hn hnext ht =>
      rw [List.cons_append] at hl
      obtain ⟨rfl, rfl⟩ := List.cons.inj hl
      by_cases hA' : A = []
      · subst hA'
        exact ⟨m, n, .single hp, hm, hn, hnext, ht⟩
      · obtain ⟨m', n', h1, h2, h3, h4, h5⟩ := ih ht hA'
        exact ⟨m', n', .cons hp hm hn hnext h1, h2, h3, h4, h5⟩

/-- Any run of neighbouring spans can be replaced by another tiling of its range. -/
theorem focus {ps : List (Span P)} (h : Tiles dom lo hi (A ++ ps ++ B)) (hps : ps ≠ []) :
    ∃ a b, Tiles dom a b ps ∧
      ∀ qs, Tiles dom a b qs → Tiles dom lo hi (A ++ qs ++ B) := by
  have tail : ∀ {lo}, Tiles dom lo hi (ps ++ B) → ∃ b, Tiles dom lo b ps ∧
      ∀ qs, Tiles dom lo b qs → Tiles dom lo hi (qs ++ B) := by
    intro lo h
    by_cases hB : B = []
    · subst hB
      exact ⟨hi, by simpa using h, fun qs hq => by simpa using hq⟩
    · obtain ⟨m, n, h1, h2, h3, h4, h5⟩ := h.split hps hB
      exact ⟨m, h1, fun qs hq => hq.append h2 h3 h4 h5⟩
  by_cases hA : A = []
  · subst hA
    obtain ⟨b, h1, h2⟩ := tail (by simpa using h)
    exact ⟨lo, b, h1, fun qs hq => by simpa using h2 qs hq⟩
  · rw [List.append_assoc] at h
    obtain ⟨m, n, h1, h2, h3, h4, h5⟩ := h.split hA (by simp [hps])
    obtain ⟨b, h6, h7⟩ := tail h5
    refine ⟨n, b, h6, fun qs hq => ?_⟩
    rw [List.append_assoc]
    exact h1.append h2 h3 h4 (h7 qs hq)

/-- The first span starts where the tiling does. -/
theorem head_lo (h : Tiles dom lo hi (s :: l)) : s.lo = lo := by
  cases h <;> rfl

/-- The last span ends where the tiling does. -/
theorem last_hi (h : Tiles dom lo hi (l ++ [s])) : s.hi = hi := by
  by_cases hl : l = []
  · subst hl
    cases h with
    | single _ => rfl
    | cons _ _ _ _ ht => exact absurd rfl ht.ne_nil
  · obtain ⟨_, _, -, -, -, -, h'⟩ := h.split hl (by simp)
    cases h' with
    | single _ => rfl
    | cons _ _ _ _ ht => exact absurd rfl ht.ne_nil

theorem eq_of_single (h : Tiles dom lo hi [s]) : s = ⟨lo, hi⟩ := by
  cases h with
  | single _ => rfl
  | cons _ _ _ _ ht => exact absurd rfl ht.ne_nil

end Tiles

/-- Among values whose spans are in order, a point is in the span of one at most. -/
theorem eq_of_mem_of_before {β : Type*} {f : β → Span P} {l : List β} {a b : β} {p : P}
    (h : l.Pairwise fun a b => (f a).Before (f b)) (ha : a ∈ l) (hb : b ∈ l)
    (hpa : (f a).Mem p) (hpb : (f b).Mem p) : a = b := by
  induction l with
  | nil => cases ha
  | cons c l ih =>
    obtain ⟨hc, hl⟩ := List.pairwise_cons.mp h
    rcases List.mem_cons.mp ha with rfl | ha'
    · rcases List.mem_cons.mp hb with rfl | hb'
      · rfl
      · exact absurd hpb ((hc b hb').not_mem hpa)
    · rcases List.mem_cons.mp hb with rfl | hb'
      · exact absurd hpa ((hc a ha').not_mem hpb)
      · exact ih hl ha' hb'

end Mbb
