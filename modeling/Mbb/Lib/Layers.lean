import Mathlib.Data.List.Induction
import Mathlib.Data.List.Nodup
import Mathlib.Order.Lattice

/-!
# Layers painted one over the other

A list of layers, each covering some points. A layer with its flag set claims the
points it covers, the others clear them. The owner of a point is the last layer that
covers it, if that one claims (`lastOwner`); two layers clash at a point when both claim
it and nothing clears it in between (`Clash`).

When the layers are sorted by a key that decides the flag, neither the clashes nor, when
there are none, the owners depend on the order of layers with equal keys.
-/

namespace Mbb

universe u v

section Layers

variable {E : Type u} {X : Type v} (flag : E → Bool) (covers : E → X → Prop)
  [∀ e x, Decidable (covers e x)]

/-- The last layer covering the point, if it claims. -/
def lastOwner (es : List E) (x : X) : Option E :=
  (es.reverse.find? fun e => decide (covers e x)).bind fun e => if flag e then some e else none

/-- Two layers claim the point, and no layer between them clears it. -/
def Clash (es : List E) (x : X) : Prop :=
  ∃ A e B f C, es = A ++ e :: (B ++ f :: C) ∧ flag e = true ∧ flag f = true ∧
    covers e x ∧ covers f x ∧ ∀ g ∈ B, flag g = false → ¬ covers g x

variable {flag covers} {es : List E} {x : X} {e : E}

@[simp] theorem lastOwner_nil (x : X) : lastOwner flag covers [] x = none := rfl

theorem lastOwner_concat (es : List E) (e : E) (x : X) :
    lastOwner flag covers (es ++ [e]) x =
      if covers e x then (if flag e then some e else none) else lastOwner flag covers es x := by
  rw [lastOwner, List.reverse_append, List.reverse_singleton, List.singleton_append,
    List.find?_cons]
  by_cases h : covers e x
  · simp [h]
  · simp [h, lastOwner]

/-- An owner is a claiming layer with no layer covering the point after it. -/
theorem lastOwner_eq_some (h : lastOwner flag covers es x = some e) :
    ∃ A B, es = A ++ e :: B ∧ flag e = true ∧ covers e x ∧ ∀ g ∈ B, ¬ covers g x := by
  induction es using List.reverseRecOn with
  | nil => cases h
  | append_singleton es f ih =>
    rw [lastOwner_concat] at h
    by_cases hf : covers f x
    · rw [if_pos hf] at h
      by_cases hflag : flag f
      · rw [if_pos hflag] at h
        obtain rfl := Option.some.inj h
        exact ⟨es, [], rfl, hflag, hf, by simp⟩
      · rw [if_neg hflag] at h
        cases h
    · rw [if_neg hf] at h
      obtain ⟨A, B, rfl, h1, h2, h3⟩ := ih h
      refine ⟨A, B ++ [f], by simp, h1, h2, ?_⟩
      intro g hg
      rcases List.mem_append.mp hg with hg | hg
      · exact h3 g hg
      · obtain rfl := List.mem_singleton.mp hg
        exact hf

/-- A claimed point keeps an owner until it is cleared. -/
theorem lastOwner_ne_none {A B : List E} (he : flag e = true) (hc : covers e x)
    (hB : ∀ g ∈ B, flag g = false → ¬ covers g x) :
    lastOwner flag covers (A ++ e :: B) x ≠ none := by
  induction B using List.reverseRecOn with
  | nil =>
    rw [lastOwner_concat, if_pos hc, if_pos he]
    simp
  | append_singleton B g ih =>
    rw [← List.cons_append, ← List.append_assoc, lastOwner_concat]
    by_cases hg : covers g x
    · rw [if_pos hg]
      by_cases hflag : flag g
      · rw [if_pos hflag]
        simp
      · exact absurd hg (hB g (by simp) (by simpa using hflag))
    · rw [if_neg hg]
      exact ih fun k hk => hB k (by simp [hk])

/-- One more layer clashes exactly when it claims a point that has an owner. -/
theorem clash_concat {f : E} : Clash flag covers (es ++ [f]) x ↔
    Clash flag covers es x ∨
      flag f = true ∧ covers f x ∧ lastOwner flag covers es x ≠ none := by
  constructor
  · rintro ⟨A, e, B, g, C, heq, he, hg, hce, hcg, hB⟩
    rcases List.eq_nil_or_concat' C with rfl | ⟨C, c, rfl⟩
    · have heq' : es ++ [f] = (A ++ e :: B) ++ [g] := by simpa using heq
      obtain ⟨rfl, h2⟩ := List.append_inj' heq' rfl
      obtain rfl := List.singleton_inj.mp h2
      exact Or.inr ⟨hg, hcg, lastOwner_ne_none he hce hB⟩
    · have heq' : es ++ [f] = (A ++ e :: (B ++ g :: C)) ++ [c] := by simpa using heq
      obtain ⟨rfl, -⟩ := List.append_inj' heq' rfl
      exact Or.inl ⟨A, e, B, g, C, rfl, he, hg, hce, hcg, hB⟩
  · rintro (⟨A, e, B, g, C, rfl, he, hg, hce, hcg, hB⟩ | ⟨hf, hcf, ho⟩)
    · exact ⟨A, e, B, g, C ++ [f], by simp, he, hg, hce, hcg, hB⟩
    · obtain ⟨e, he⟩ := Option.ne_none_iff_exists'.mp ho
      obtain ⟨A, B, rfl, h1, h2, h3⟩ := lastOwner_eq_some he
      exact ⟨A, e, B, f, [], by simp, h1, hf, h2, hcf, fun g hg _ => h3 g hg⟩

omit [∀ e x, Decidable (covers e x)] in
theorem not_clash_nil : ¬ Clash flag covers [] x := by
  rintro ⟨A, e, B, f, C, h, -⟩
  exact absurd h.symm (by simp)

end Layers

/-! ## Sorted layers

Layers with equal keys have the same flag, so the order in which they come does not matter, neither
for clashes nor for owners.
-/

section Sorted

variable {E : Type u} {X : Type v} {K : Type*} [LinearOrder K] {flag : E → Bool}
  {covers : E → X → Prop} [∀ e x, Decidable (covers e x)] {key : E → K} {es es' : List E} {x : X}
  (hkey : ∀ a b, key a = key b → flag a = flag b)
include hkey

omit [∀ e x, Decidable (covers e x)] in
/-- In a sorted list without repetition a clash is a matter of membership. -/
theorem clash_iff_of_sorted (hs : es.Pairwise fun a b => key a ≤ key b) (hn : es.Nodup) :
    Clash flag covers es x ↔ ∃ e ∈ es, ∃ f ∈ es, e ≠ f ∧ flag e = true ∧ flag f = true ∧
      covers e x ∧ covers f x ∧ key e ≤ key f ∧
      ∀ g ∈ es, flag g = false → covers g x → ¬ (key e < key g ∧ key g < key f) := by
  constructor
  · rintro ⟨A, e, B, f, C, rfl, he, hf, hce, hcf, hB⟩
    obtain ⟨-, hs', hA⟩ := List.pairwise_append.mp hs
    obtain ⟨heB, hs''⟩ := List.pairwise_cons.mp hs'
    obtain ⟨-, hfC, hBf⟩ := List.pairwise_append.mp hs''
    obtain ⟨hfC, -⟩ := List.pairwise_cons.mp hfC
    refine ⟨e, by simp, f, by simp, ?_, he, hf, hce, hcf, heB f (by simp), ?_⟩
    · rintro rfl
      have := (List.nodup_cons.mp (List.nodup_append.mp hn).2.1).1
      exact this (by simp)
    · rintro g hg hgf hgc ⟨h1, h2⟩
      simp only [List.mem_append, List.mem_cons] at hg
      rcases hg with hg | rfl | hg | rfl | hg
      · exact absurd (hA g hg e (by simp)) (not_le.mpr h1)
      · exact lt_irrefl _ h1
      · exact hB g hg hgf hgc
      · exact lt_irrefl _ h2
      · exact absurd (hfC g hg) (not_le.mpr h2)
  · rintro ⟨e, he, f, hf, hne, hfe, hff, hce, hcf, hle, hbet⟩
    -- between the two stand keys between theirs, and equal keys do not clear
    have key_split : ∀ {a b : E} {A B C : List E}, es = A ++ a :: (B ++ b :: C) →
        flag a = true → flag b = true → covers a x → covers b x →
        (∀ g ∈ es, flag g = false → covers g x → ¬ (key a < key g ∧ key g < key b)) →
        Clash flag covers es x := by
      rintro a b A B C rfl ha hb hca hcb hgap
      refine ⟨A, a, B, b, C, rfl, ha, hb, hca, hcb, fun g hg hgf hgc => ?_⟩
      obtain ⟨-, hs', -⟩ := List.pairwise_append.mp hs
      obtain ⟨haB, hs''⟩ := List.pairwise_cons.mp hs'
      obtain ⟨-, -, hBb⟩ := List.pairwise_append.mp hs''
      refine hgap g (by simp [hg]) hgf hgc ⟨lt_of_le_of_ne (haB g (by simp [hg])) ?_,
        lt_of_le_of_ne (hBb g hg b (by simp)) ?_⟩
      · intro h
        rw [← hkey _ _ h, ha] at hgf
        cases hgf
      · intro h
        rw [hkey _ _ h, hb] at hgf
        cases hgf
    obtain ⟨A, D, rfl⟩ := List.append_of_mem he
    rcases List.mem_append.mp hf with hfA | hfD
    · -- `f` stands before `e`, so their keys are equal
      obtain ⟨A₁, A₂, rfl⟩ := List.append_of_mem hfA
      have hfe' : key f ≤ key e := (List.pairwise_append.mp hs).2.2 f (by simp) e (by simp)
      exact key_split (A := A₁) (a := f) (B := A₂) (b := e) (C := D) (by simp) hff hfe hcf hce
        fun g _ _ _ hgap => absurd (hgap.1.trans hgap.2) (not_lt.mpr hle)
    · rcases List.mem_cons.mp hfD with rfl | hfD
      · exact absurd rfl hne
      · obtain ⟨B, C, rfl⟩ := List.append_of_mem hfD
        exact key_split rfl hfe hff hce hcf hbet

/-- Without clash, the last owner is the owner that has the greatest key of all that cover the
point. -/
theorem lastOwner_iff_of_sorted (hs : es.Pairwise fun a b => key a ≤ key b) (hn : es.Nodup)
    (hno : ¬ Clash flag covers es x) {e : E} :
    lastOwner flag covers es x = some e ↔
      e ∈ es ∧ flag e = true ∧ covers e x ∧ ∀ g ∈ es, covers g x → key g ≤ key e := by
  constructor
  · intro h
    obtain ⟨A, B, rfl, h1, h2, h3⟩ := lastOwner_eq_some h
    refine ⟨by simp, h1, h2, fun g hg hgc => ?_⟩
    rcases List.mem_append.mp hg with hg | hg
    · exact (List.pairwise_append.mp hs).2.2 g hg e (by simp)
    · rcases List.mem_cons.mp hg with rfl | hg
      · exact le_rfl
      · exact absurd hgc (h3 g hg)
  · rintro ⟨hmem, hflag, hcov, hmax⟩
    -- the last layer covering the point has the same key, so it claims too
    obtain ⟨f, hf⟩ : ∃ f, es.reverse.find? (fun e => decide (covers e x)) = some f := by
      have hsome : (es.reverse.find? fun e => decide (covers e x)).isSome = true :=
        List.find?_isSome.mpr ⟨e, by simpa using hmem, by simpa using hcov⟩
      exact Option.isSome_iff_exists.mp hsome
    have hfc : covers f x := by simpa using List.find?_some hf
    obtain ⟨-, as, bs, heq, hbs⟩ := List.find?_eq_some_iff_append.mp hf
    have hes : es = bs.reverse ++ f :: as.reverse := by
      rw [← List.reverse_reverse es, heq]
      simp
    have hfmem : f ∈ es := by simp [hes]
    have hle : key e ≤ key f := by
      have hpos : e ∈ bs.reverse ++ f :: as.reverse := hes ▸ hmem
      rcases List.mem_append.mp hpos with h | h
      · exact (List.pairwise_append.mp (hes ▸ hs)).2.2 e h f (by simp)
      · rcases List.mem_cons.mp h with rfl | h
        · exact le_rfl
        · exact absurd hcov (by simpa using hbs e (by simpa using h))
    have hk : key e = key f := le_antisymm hle (hmax f hfmem hfc)
    have hff : flag f = true := (hkey _ _ hk).symm.trans hflag
    have hef : e = f := by
      by_contra hne
      refine hno ((clash_iff_of_sorted hkey hs hn).mpr ⟨e, hmem, f, hfmem, hne, hflag, hff, hcov,
        hfc, hle, fun g _ _ _ hgap => ?_⟩)
      exact absurd (hgap.1.trans hgap.2) (by rw [hk]; exact lt_irrefl _)
    rw [lastOwner, hf, Option.bind_some, if_pos hff, hef]

omit [∀ e x, Decidable (covers e x)] in
/-- **Order independence**: sorted lists of the same layers clash at the same points. -/
theorem clash_perm (hs : es.Pairwise fun a b => key a ≤ key b)
    (hs' : es'.Pairwise fun a b => key a ≤ key b) (hn : es.Nodup) (hp : es.Perm es') :
    Clash flag covers es x ↔ Clash flag covers es' x := by
  rw [clash_iff_of_sorted hkey hs hn, clash_iff_of_sorted hkey hs' (hp.nodup_iff.mp hn)]
  simp only [hp.mem_iff]

/-- And the owners are the same where they do not clash. -/
theorem lastOwner_perm (hs : es.Pairwise fun a b => key a ≤ key b)
    (hs' : es'.Pairwise fun a b => key a ≤ key b) (hn : es.Nodup) (hp : es.Perm es')
    (hno : ¬ Clash flag covers es x) :
    lastOwner flag covers es x = lastOwner flag covers es' x := by
  have hn' := hp.nodup_iff.mp hn
  have hno' := fun h => hno ((clash_perm hkey hs hs' hn hp).mpr h)
  refine Option.ext fun e => ?_
  rw [lastOwner_iff_of_sorted hkey hs hn hno, lastOwner_iff_of_sorted hkey hs' hn' hno']
  simp only [hp.mem_iff]

end Sorted

end Mbb
