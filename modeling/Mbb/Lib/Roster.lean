import Mathlib.Data.List.Basic
import Mathlib.Logic.Function.Basic

/-!
# Rosters

A relation between groups and users that is stored on both sides: each group lists its
users, and each user carries a flag for each group. Users that are gone keep a record and no
flags; a group may still list them. What the two sides have of the others is the same.
-/

namespace Mbb

/-- `lists` gives the users each group lists, `flags` the flags each user carries; `none` is
a record that does not exist. The users in `live` are not gone. -/
structure Roster {G U : Type} (lists : G → Option (List U)) (flags : U → Option (G → Bool))
    (live : U → Prop) : Prop where
  /-- a flagged user is there, and is listed by a group that exists -/
  flagged : ∀ {u f g}, flags u = some f → f g = true → live u ∧ ∃ l, lists g = some l ∧ u ∈ l
  /-- a listed user exists, and has the flag unless it is gone -/
  listed : ∀ {g l u}, lists g = some l → u ∈ l → ∃ f, flags u = some f ∧ (live u → f g = true)

/-- No user that is gone is listed. -/
def NoneGone {G U : Type} (lists : G → Option (List U)) (live : U → Prop) : Prop :=
  ∀ g l, lists g = some l → ∀ u ∈ l, live u

namespace Roster

variable {G U : Type} [DecidableEq G] [DecidableEq U] {lists : G → Option (List U)}
  {flags : U → Option (G → Bool)} {live : U → Prop} {g : G} {u : U} {l : List U} {f : G → Bool}

omit [DecidableEq G] [DecidableEq U] in
/-- No records. -/
theorem nil (live : U → Prop) :
    Roster (fun _ : G => (none : Option (List U))) (fun _ => none) live :=
  ⟨(fun h => nomatch h), (fun h => nomatch h)⟩

omit [DecidableEq G] [DecidableEq U] in
theorem live_congr (h : Roster lists flags live) {live' : U → Prop} (heq : ∀ u, live' u ↔ live u) :
    Roster lists flags live' := by
  obtain rfl : live' = live := funext fun u => propext (heq u)
  exact h

omit [DecidableEq G] [DecidableEq U] in
/-- **One relation.** As long as no user that is gone is listed, a group lists the users that
are there and have its flag. -/
theorem mem_iff (h : Roster lists flags live) (hgone : NoneGone lists live)
    (hl : lists g = some l) : u ∈ l ↔ live u ∧ ∃ f, flags u = some f ∧ f g = true := by
  constructor
  · intro hu
    have hlive := hgone g l hl u hu
    obtain ⟨f, hf, hflag⟩ := h.listed hl hu
    exact ⟨hlive, f, hf, hflag hlive⟩
  · rintro ⟨-, f, hf, hflag⟩
    obtain ⟨-, l', hl', hu⟩ := h.flagged hf hflag
    obtain rfl : l' = l := Option.some.inj (hl'.symm.trans hl)
    exact hu

omit [DecidableEq G] [DecidableEq U] in
/-- What does not exist is not listed. -/
theorem not_mem (h : Roster lists flags live) (hu : flags u = none) (hl : lists g = some l) :
    u ∉ l := by
  intro hmem
  obtain ⟨f, hf, -⟩ := h.listed hl hmem
  rw [hu] at hf
  cases hf

/-! ## Groups -/

omit [DecidableEq U] in
/-- A new group. -/
theorem newGroup (h : Roster lists flags live) (hg : lists g = none) :
    Roster (Function.update lists g (some [])) flags live := by
  have hold : ∀ {g' l'}, lists g' = some l' → Function.update lists g (some []) g' = some l' := by
    intro g' l' hl'
    rw [Function.update_apply, if_neg (fun heq => ?_)]
    · exact hl'
    · rw [heq, hg] at hl'
      cases hl'
  constructor
  · intro v f g' hf hflag
    obtain ⟨hlive, l', hl', hv⟩ := h.flagged hf hflag
    exact ⟨hlive, l', hold hl', hv⟩
  · intro g' l' v hl' hv
    rw [Function.update_apply] at hl'
    by_cases hg' : g' = g
    · rw [if_pos hg'] at hl'
      rw [← Option.some.inj hl'] at hv
      cases hv
    · rw [if_neg hg'] at hl'
      exact h.listed hl' hv

/-! ## Users -/

omit [DecidableEq G] in
/-- A new user. -/
theorem enter (h : Roster lists flags live) (hu : flags u = none) :
    Roster lists (Function.update flags u (some fun _ => false)) fun v => v = u ∨ live v := by
  constructor
  · intro v f g hf hflag
    rw [Function.update_apply] at hf
    by_cases hv : v = u
    · rw [if_pos hv] at hf
      rw [← Option.some.inj hf] at hflag
      cases hflag
    · rw [if_neg hv] at hf
      obtain ⟨hlive, hl⟩ := h.flagged hf hflag
      exact ⟨Or.inr hlive, hl⟩
  · intro g l v hl hv
    have hne : v ≠ u := by
      rintro rfl
      exact h.not_mem hu hl hv
    obtain ⟨f, hf, hflag⟩ := h.listed hl hv
    refine ⟨f, ?_, fun hlive => hflag (hlive.resolve_left hne)⟩
    rw [Function.update_apply, if_neg hne]
    exact hf

omit [DecidableEq G] in
/-- A user goes and loses its flags. -/
theorem leave (h : Roster lists flags live) (u : U) :
    Roster lists (Function.update flags u (some fun _ => false)) fun v => v ≠ u ∧ live v := by
  constructor
  · intro v f' g hf' hflag
    rw [Function.update_apply] at hf'
    by_cases hv : v = u
    · rw [if_pos hv] at hf'
      rw [← Option.some.inj hf'] at hflag
      cases hflag
    · rw [if_neg hv] at hf'
      obtain ⟨hlive, hl⟩ := h.flagged hf' hflag
      exact ⟨⟨hv, hlive⟩, hl⟩
  · intro g l v hl hv
    rw [Function.update_apply]
    by_cases hvu : v = u
    · exact ⟨_, if_pos hvu, fun hlive => absurd hvu hlive.1⟩
    · obtain ⟨f', hf', hflag⟩ := h.listed hl hv
      exact ⟨f', (if_neg hvu).trans hf', fun hlive => hflag hlive.2⟩

omit [DecidableEq G] [DecidableEq U] in
/-- No group lists a user without flags; it can go. -/
theorem noneGone_leave (h : Roster lists flags live) (hgone : NoneGone lists live)
    (hf : flags u = some fun _ => false) : NoneGone lists fun v => v ≠ u ∧ live v := by
  intro g l hl v hv
  have hlive := hgone g l hl v hv
  refine ⟨?_, hlive⟩
  rintro rfl
  obtain ⟨f', hf', hflag⟩ := h.listed hl hv
  rw [hf] at hf'
  obtain rfl := Option.some.inj hf'
  cases hflag hlive

/-! ## Entering and leaving a group

Both sides are changed at once: the list of the group and the flag of the user.
-/

omit [DecidableEq U] in
/-- One list is changed, and a user with a flag stays in it. -/
theorem flagged_update (h : Roster lists flags live) (hl : lists g = some l) {l' : List U}
    (hkeep : u ∈ l → u ∈ l') (hf : flags u = some f) {g' : G} (hflag : f g' = true) :
    live u ∧ ∃ l'', Function.update lists g (some l') g' = some l'' ∧ u ∈ l'' := by
  obtain ⟨hlive, m, hm, hmem⟩ := h.flagged hf hflag
  refine ⟨hlive, ?_⟩
  by_cases hg : g' = g
  · subst hg
    obtain rfl : m = l := Option.some.inj (hm.symm.trans hl)
    exact ⟨l', Function.update_self .., hkeep hmem⟩
  · exact ⟨m, (Function.update_of_ne hg ..).trans hm, hmem⟩

/-- A user that is there enters a group. -/
theorem add (h : Roster lists flags live) (hl : lists g = some l) (hf : flags u = some f)
    (hlive : live u) :
    Roster (Function.update lists g (some (u :: l)))
      (Function.update flags u (some (Function.update f g true))) live := by
  constructor
  · intro v f' g' hf' hflag
    rw [Function.update_apply] at hf'
    by_cases hv : v = u
    · subst hv
      rw [if_pos rfl] at hf'
      obtain rfl := Option.some.inj hf'
      rw [Function.update_apply]
      refine ⟨hlive, ?_⟩
      by_cases hg : g' = g
      · exact ⟨_, if_pos hg, List.mem_cons_self⟩
      · rw [Function.update_apply, if_neg hg] at hflag
        rw [if_neg hg]
        exact (h.flagged hf hflag).2
    · rw [if_neg hv] at hf'
      exact h.flagged_update hl (List.mem_cons_of_mem u) hf' hflag
  · intro g' l' v hl' hv
    rw [Function.update_apply] at hl'
    rw [Function.update_apply]
    by_cases hvu : v = u
    · subst hvu
      refine ⟨_, if_pos rfl, fun _ => ?_⟩
      rw [Function.update_apply]
      by_cases hg : g' = g
      · rw [if_pos hg]
      · rw [if_neg hg] at hl' ⊢
        obtain ⟨f', hf', hflag⟩ := h.listed hl' hv
        obtain rfl : f' = f := Option.some.inj (hf'.symm.trans hf)
        exact hflag hlive
    · rw [if_neg hvu]
      by_cases hg : g' = g
      · subst hg
        rw [if_pos rfl] at hl'
        rw [← Option.some.inj hl'] at hv
        exact h.listed hl ((List.mem_cons.mp hv).resolve_left hvu)
      · rw [if_neg hg] at hl'
        exact h.listed hl' hv

/-- A user leaves a group. -/
theorem del (h : Roster lists flags live) (hl : lists g = some l) (hf : flags u = some f) :
    Roster (Function.update lists g (some (l.filter fun v => decide (v ≠ u))))
      (Function.update flags u (some (Function.update f g false))) live := by
  constructor
  · intro v f' g' hf' hflag
    rw [Function.update_apply] at hf'
    by_cases hv : v = u
    · subst hv
      rw [if_pos rfl] at hf'
      obtain rfl := Option.some.inj hf'
      rw [Function.update_apply] at hflag ⊢
      by_cases hg : g' = g
      · rw [if_pos hg] at hflag
        cases hflag
      · rw [if_neg hg] at hflag ⊢
        exact h.flagged hf hflag
    · rw [if_neg hv] at hf'
      apply h.flagged_update hl _ hf' hflag
      exact fun hmem => List.mem_filter.mpr ⟨hmem, decide_eq_true hv⟩
  · intro g' l' v hl' hv
    rw [Function.update_apply] at hl'
    rw [Function.update_apply]
    by_cases hg : g' = g
    · subst hg
      rw [if_pos rfl] at hl'
      rw [← Option.some.inj hl'] at hv
      obtain ⟨hv, hvu⟩ := List.mem_filter.mp hv
      rw [if_neg (of_decide_eq_true hvu)]
      exact h.listed hl hv
    · rw [if_neg hg] at hl'
      obtain ⟨f', hf', hflag⟩ := h.listed hl' hv
      by_cases hvu : v = u
      · subst hvu
        obtain rfl : f' = f := Option.some.inj (hf'.symm.trans hf)
        refine ⟨_, if_pos rfl, fun hlive => ?_⟩
        rw [Function.update_apply, if_neg hg]
        exact hflag hlive
      · exact ⟨f', (if_neg hvu).trans hf', hflag⟩

end Roster

/-! ## No user that is gone

A stronger invariant: no group lists a user that is gone. It is kept as long as users leave their
groups before they go.
-/

namespace NoneGone

variable {G U : Type} [DecidableEq G] {lists : G → Option (List U)} {live : U → Prop} {g : G}
  {l : List U}

omit [DecidableEq G] in
theorem mono (h : NoneGone lists live) {live' : U → Prop} (hle : ∀ u, live u → live' u) :
    NoneGone lists live' := fun g l hl u hu => hle u (h g l hl u hu)

/-- A group lists other users that are there. -/
theorem set (h : NoneGone lists live) (hl : ∀ u ∈ l, live u) :
    NoneGone (Function.update lists g (some l)) live := by
  intro g' l' hl' u hu
  rw [Function.update_apply] at hl'
  by_cases hg : g' = g
  · rw [if_pos hg] at hl'
    rw [← Option.some.inj hl'] at hu
    exact hl u hu
  · rw [if_neg hg] at hl'
    exact h g' l' hl' u hu

end NoneGone

end Mbb
