import Mbb.GatewayRun
import Mathlib.Logic.Function.Basic

/-!
# Times over two levels

An entry takes a negative time from its unit, a unit from its consumer. What a consumer or
a unit is set to has therefore to be in order for everything under it.
-/

namespace Mbb

/-- `mbb_time_becmp` finds no fault with the interval. -/
def TimesInOrder (t : Int × Int) : Prop := mbbTimeBecmp t.1 t.2 ≤ 0

/-- The interval of a record with that of its parent in place of negative times. -/
def inherit (t p : Int × Int) : Int × Int := (timeOr t.1 p.1, timeOr t.2 p.2)

/-- Neither time is taken from a parent. -/
def Own (t : Int × Int) : Prop := 0 ≤ t.1 ∧ 0 ≤ t.2

/-- Both tests of an entry mean the same for it: not so for a start before 1970 that
`mbb_time_pbecmp` does not take for the parent's, with an end that is later. -/
def Plain (t : Int × Int) : Prop := -1 ≤ t.1 ∨ t.2 ≤ 0

theorem inherit_of_own {t : Int × Int} (h : Own t) (p : Int × Int) : inherit t p = t := by
  rw [inherit, timeOr_of_nonneg h.1, timeOr_of_nonneg h.2]

theorem inherit_own {t p : Int × Int} (h : Own p) : Own (inherit t p) :=
  ⟨timeOr_nonneg h.1, timeOr_nonneg h.2⟩

/-- What `mbb_time_test_order` lets through is in order. -/
theorem inOrder_of_testOrder {t p : Int × Int} (hp : TimesInOrder p)
    (h : mbbTimeTestOrder t.1 t.2 p.1 p.2 = none) : TimesInOrder (inherit t p) := by
  rcases mbbTimeTestOrder_eq_none.mp h with ⟨h₁, h₂⟩ | h
  · rw [inherit, timeOr_of_neg h₁, timeOr_of_neg h₂]
    exact hp
  · exact h

/-- Times that `mbb_inet_pool_entry_test_time` lets through are in order, whatever is inherited. -/
theorem inOrder_of_pbecmp {t p : Int × Int} (hp : TimesInOrder p) (hplain : Plain t)
    (h : mbbTimePbecmp t.1 t.2 p.1 p.2 ≤ 0) : TimesInOrder (inherit t p) := by
  obtain ⟨t₁, t₂⟩ := t
  obtain ⟨p₁, p₂⟩ := p
  change mbbTimeBecmp p₁ p₂ ≤ 0 at hp
  change -1 ≤ t₁ ∨ t₂ ≤ 0 at hplain
  change mbbTimeBecmp (if t₁ = -1 then p₁ else t₁) (if t₂ = -1 then p₂ else t₂) ≤ 0 at h
  change mbbTimeBecmp (if 0 ≤ t₁ then t₁ else p₁) (if 0 ≤ t₂ then t₂ else p₂) ≤ 0
  rw [mbbTimeBecmp_nonpos] at hp h ⊢
  by_cases h₁ : 0 ≤ t₁
  · have h₁' : t₁ ≠ -1 := by omega
    rw [if_neg h₁'] at h
    rw [if_pos h₁]
    by_cases h₂ : 0 ≤ t₂
    · have h₂' : t₂ ≠ -1 := by omega
      rw [if_neg h₂'] at h
      rw [if_pos h₂]
      exact h
    -- an end below -1 is the parent's for the getters, and before the start for this test
    · rw [if_neg h₂]
      by_cases h₂' : t₂ = -1
      · rw [if_pos h₂'] at h
        exact h
      · rw [if_neg h₂'] at h
        omega
  · rw [if_neg h₁]
    by_cases h₂ : 0 ≤ t₂
    · have h₂' : t₂ ≠ -1 := by omega
      rw [if_neg h₂'] at h
      rw [if_pos h₂]
      by_cases h₁' : t₁ = -1
      · rw [if_pos h₁'] at h
        exact h
      · omega
    -- both times are the parent's
    · rw [if_neg h₂]
      exact hp

/-! ## The hierarchy

Consumers, units and entries with the times they were set to. The interval in force at an entry is
found by going up, and it is in order at every entry if and only if the levels are in order as they
are checked.
-/

/-- The interval of a unit: its own, or with that of its consumer. -/
def unitTimes (C : Int → Option (Int × Int)) (U : Int → Option (Option Int × Int × Int))
    (u : Int) : Option (Int × Int) :=
  (U u).bind fun r => match r with
    | (none, t) => some t
    | (some c, t) => (C c).map (inherit t)

/-- Consumers `C`, units `U` and entries `E` with their parents: all are in order. -/
structure Hierarchy (C : Int → Option (Int × Int)) (U : Int → Option (Option Int × Int × Int))
    (E : Int → Option (Int × Int × Int)) : Prop where
  /-- consumers -/
  con : ∀ {c t}, C c = some t → Own t ∧ TimesInOrder t
  /-- units -/
  unit : ∀ {u r}, U u = some r → ∃ p, unitTimes C U u = some p ∧ TimesInOrder p
  /-- units without consumer -/
  orphan : ∀ {u t}, U u = some (none, t) → Own t
  /-- entries -/
  inet : ∀ {i u t}, E i = some (u, t) →
    Plain t ∧ ∃ p, unitTimes C U u = some p ∧ TimesInOrder (inherit t p)

section UnitTimes

variable {C : Int → Option (Int × Int)} {U : Int → Option (Option Int × Int × Int)} {u : Int}

theorem unitTimes_none {t : Int × Int} (h : U u = some (none, t)) : unitTimes C U u = some t := by
  rw [unitTimes, h, Option.bind_some]

theorem unitTimes_some {t : Int × Int} {c : Int} (h : U u = some (some c, t)) :
    unitTimes C U u = (C c).map (inherit t) := by
  rw [unitTimes, h, Option.bind_some]

theorem unitTimes_eq_none (h : U u = none) : unitTimes C U u = none := by
  rw [unitTimes, h, Option.bind_none]

/-- Only the record of the unit counts. -/
theorem unitTimes_update_of_ne {u' : Int} (h : u' ≠ u) (v : Option (Option Int × Int × Int)) :
    unitTimes C (Function.update U u v) u' = unitTimes C U u' := by
  rw [unitTimes, Function.update_of_ne h, unitTimes]

theorem unitTimes_update_self (v : Option Int × Int × Int) :
    unitTimes C (Function.update U u (some v)) u = unitTimes C (fun _ => some v) u := by
  rw [unitTimes, Function.update_self, unitTimes]

end UnitTimes

namespace Hierarchy

variable {C : Int → Option (Int × Int)} {U : Int → Option (Option Int × Int × Int)}
  {E : Int → Option (Int × Int × Int)}

/-- No records. -/
theorem nil : Hierarchy (fun _ => none) (fun _ => none) fun _ => none :=
  ⟨(fun h => nomatch h), (fun h => nomatch h), (fun h => nomatch h), (fun h => nomatch h)⟩

/-- The interval of a unit is in order and nothing in it is left to inherit. -/
theorem unitTimes (h : Hierarchy C U E) {u : Int} {p : Int × Int}
    (hp : Mbb.unitTimes C U u = some p) : Own p ∧ TimesInOrder p := by
  cases hu : U u with
  | none =>
    rw [unitTimes_eq_none hu] at hp
    cases hp
  | some r =>
    obtain ⟨q, hq, hord⟩ := h.unit hu
    rw [hp] at hq
    obtain rfl := Option.some.inj hq
    refine ⟨?_, hord⟩
    obtain ⟨con, t⟩ := r
    cases con with
    | none =>
      rw [unitTimes_none hu] at hp
      exact Option.some.inj hp ▸ h.orphan hu
    | some c =>
      rw [unitTimes_some hu] at hp
      obtain ⟨q, hc, rfl⟩ := Option.map_eq_some_iff.mp hp
      exact inherit_own (h.con hc).1

/-- A unit changes or comes: it has to be in order, and so the entries under it. -/
theorem setUnit (h : Hierarchy C U E) {u : Int} {con : Option Int} {t p : Int × Int}
    (hp : Mbb.unitTimes C (fun _ => some (con, t)) u = some p) (hord : TimesInOrder p)
    (hown : con = none → Own t)
    (hinet : ∀ {i t'}, E i = some (u, t') → TimesInOrder (inherit t' p)) :
    Hierarchy C (Function.update U u (some (con, t))) E := by
  have htimes : Mbb.unitTimes C (Function.update U u (some (con, t))) u = some p := by
    rw [unitTimes_update_self, hp]
  -- the unit itself by the new interval, all others as before
  refine ⟨h.con, fun {u' r} hu' => ?_, fun {u' t'} hu' => ?_, fun {i u' t'} hi => ?_⟩
  · by_cases huu : u' = u
    · subst huu
      exact ⟨p, htimes, hord⟩
    · rw [Function.update_of_ne huu] at hu'
      rw [unitTimes_update_of_ne huu]
      exact h.unit hu'
  · by_cases huu : u' = u
    · subst huu
      rw [Function.update_self] at hu'
      cases hu'
      exact hown rfl
    · rw [Function.update_of_ne huu] at hu'
      exact h.orphan hu'
  · by_cases huu : u' = u
    · subst huu
      exact ⟨(h.inet hi).1, p, htimes, hinet hi⟩
    · rw [unitTimes_update_of_ne huu]
      exact h.inet hi

/-- An entry changes or comes. -/
theorem setInet (h : Hierarchy C U E) {i u : Int} {t p : Int × Int} (hplain : Plain t)
    (hp : Mbb.unitTimes C U u = some p) (hord : TimesInOrder (inherit t p)) :
    Hierarchy C U (Function.update E i (some (u, t))) := by
  refine ⟨h.con, h.unit, h.orphan, fun {i' u' t'} hi => ?_⟩
  by_cases hii : i' = i
  · rw [hii, Function.update_self] at hi
    cases hi
    exact ⟨hplain, p, hp, hord⟩
  · rw [Function.update_of_ne hii] at hi
    exact h.inet hi

/-- A consumer changes or comes: the units of it have to be in order with it, and so the
entries under them. -/
theorem setCon (h : Hierarchy C U E) {c : Int} {t : Int × Int} (hown : Own t)
    (hord : TimesInOrder t)
    (hunit : ∀ {u t'}, U u = some (some c, t') → TimesInOrder (inherit t' t))
    (hinet : ∀ {u t' i t''}, U u = some (some c, t') → E i = some (u, t'') →
      TimesInOrder (inherit t'' (inherit t' t))) :
    Hierarchy (Function.update C c (some t)) U E := by
  -- a unit of another consumer keeps its times, one of this gets new ones
  have htimes : ∀ u, (∃ t', U u = some (some c, t')) ∨
      Mbb.unitTimes (Function.update C c (some t)) U u = Mbb.unitTimes C U u := by
    intro u
    cases hu : U u with
    | none => exact Or.inr (by rw [unitTimes_eq_none hu, unitTimes_eq_none hu])
    | some r =>
      obtain ⟨_ | c', t'⟩ := r
      · exact Or.inr (by rw [unitTimes_none hu, unitTimes_none hu])
      · by_cases hc : c' = c
        · exact Or.inl ⟨t', by rw [hc]⟩
        · exact Or.inr (by rw [unitTimes_some hu, unitTimes_some hu, Function.update_of_ne hc])
  have hnew : ∀ {u t'}, U u = some (some c, t') →
      Mbb.unitTimes (Function.update C c (some t)) U u = some (inherit t' t) := by
    intro u t' hu
    rw [unitTimes_some hu, Function.update_self, Option.map_some]
  refine ⟨fun {c' t'} hc => ?_, fun {u r} hu => ?_, h.orphan, fun {i u t'} hi => ?_⟩
  · by_cases hcc : c' = c
    · rw [hcc, Function.update_self] at hc
      obtain rfl := Option.some.inj hc
      exact ⟨hown, hord⟩
    · rw [Function.update_of_ne hcc] at hc
      exact h.con hc
  · rcases htimes u with ⟨t', hu'⟩ | heq
    · exact ⟨_, hnew hu', hunit hu'⟩
    · rw [heq]
      exact h.unit hu
  · rcases htimes u with ⟨t'', hu'⟩ | heq
    · exact ⟨(h.inet hi).1, _, hnew hu', hinet hu' hi⟩
    · rw [heq]
      exact h.inet hi

/-- A unit that does not exist has no entries. -/
theorem no_inet (h : Hierarchy C U E) {u : Int} (hu : U u = none) {i : Int} {t : Int × Int}
    (hi : E i = some (u, t)) : False := by
  obtain ⟨-, p, hp, -⟩ := h.inet hi
  rw [unitTimes_eq_none hu] at hp
  cases hp

/-- A consumer that does not exist has no units. -/
theorem no_unit (h : Hierarchy C U E) {c : Int} (hc : C c = none) {u : Int} {t : Int × Int}
    (hu : U u = some (some c, t)) : False := by
  obtain ⟨p, hp, -⟩ := h.unit hu
  rw [unitTimes_some hu, hc] at hp
  cases hp

end Hierarchy

end Mbb
