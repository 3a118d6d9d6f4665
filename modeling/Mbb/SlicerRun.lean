import Mathlib.Algebra.Order.Ring.Int
import Mathlib.Logic.Relation
import Mbb.SlicerGlue

/-!
# Runs of a slicer

Any sequence of `slicer_insert`, `slicer_delete` and `slicer_glue_null` from
`slicer_init` keeps the slices a tiling of the whole range, and one change of a range
applies the data operation once at each point of it and leaves the other points
alone. The data operations are arbitrary functions with effects here; `Effects` are
the states they can lead to.
-/

namespace Mbb

variable {P : Type} [LinearOrder P] [Zero P] {σ D X : Type}

/-- `inc` and `dec` are the exact neighbours of the keys that have one in `w`. -/
structure SliceOps.Neighbours (o : SliceOps P) (dom : P → Prop) (w : Span P) : Prop where
  /-- the key before `k` -/
  dec_ok : ∀ k, k ≠ 0 → dom k → w.lo = 0 ∨ w.lo < k →
    o.dec k ≠ 0 ∧ dom (o.dec k) ∧ Next dom (o.dec k) k
  /-- the key after `k` -/
  inc_ok : ∀ k, k ≠ 0 → dom k → w.hi = 0 ∨ k < w.hi →
    o.inc k ≠ 0 ∧ dom (o.inc k) ∧ Next dom k (o.inc k)

theorem SliceOps.Neighbours.fits {o : SliceOps P} {dom : P → Prop} {w r : Span P}
    (h : o.Neighbours dom w) (hr : r.Proper dom) : o.Fits dom w r where
  proper := hr
  dec_ok h0 hw := h.dec_ok _ h0 (hr.lo_dom h0) hw
  inc_ok h0 hw := h.inc_ok _ h0 (hr.hi_dom h0) hw

/-- One call of a data operation. -/
inductive Effect (d : SliceDataOps σ D X) : σ → σ → Prop
  /-- `add` -/
  | add (a : Option D) (x : X) (s : σ) : Effect d s (d.add a x s).2
  /-- `del` -/
  | del (a : Option D) (x : X) (s : σ) : Effect d s (d.del a x s).2
  /-- `dup` -/
  | dup (a : Option D) (s : σ) : Effect d s (d.dup a s).2
  /-- `free` -/
  | free (a : D) (s : σ) : Effect d s (d.free a s)

/-- Any number of calls of data operations. -/
abbrev Effects (d : SliceDataOps σ D X) : σ → σ → Prop := Relation.ReflTransGen (Effect d)

namespace Slicer

/-- What the users of a slicer do with it. -/
inductive Act (P X : Type) : Type where
  /-- `slicer_insert` -/
  | insert (x : X) (b e : P)
  /-- `slicer_delete` -/
  | delete (x : X) (b e : P)
  /-- `slicer_glue_null` -/
  | glueNull

variable [TreeShape P] (o : SliceOps P) (d : SliceDataOps σ D X)

/-- One act; `none` is a failed assertion. -/
def Act.exec (sl : Slicer P D) (s : σ) : Act P X → Option (Slicer P D × σ)
  | insert x b e => sl.insert o d x b e s
  | delete x b e => sl.delete o d x b e s
  | glueNull => some (sl.glueNull o d s)

/-- The acts one after the other. -/
def runActs : List (Act P X) → Slicer P D → σ → Option (Slicer P D × σ)
  | [], sl, s => some (sl, s)
  | a :: as, sl, s => (a.exec o d sl s).bind fun r => runActs as r.1 r.2

/-- The range of an act, if it has one, satisfies `C`. -/
def Act.On (C : Span P → Prop) : Act P X → Prop
  | insert _ b e => C ⟨b, e⟩
  | delete _ b e => C ⟨b, e⟩
  | glueNull => True

omit [LinearOrder P] [Zero P] [TreeShape P] in
theorem Act.On.mono {C C' : Span P → Prop} {a : Act P X} (h : a.On C) (hC : ∀ r, C r → C' r) :
    a.On C' := by
  cases a with
  | insert x b e => exact hC _ h
  | delete x b e => exact hC _ h
  | glueNull => trivial

variable {o d} {dom : P → Prop} {w r : Span P} {sl sl' : Slicer P D} {s s' : σ} {x : X} {b e : P}
  {op : Option D → X → σ → Option D × σ} {counted : Option D → Bool}

/-! ## One change

The rule of the change, said of points: those in the range have the operation done to their data
once, the others have what they had.
-/

/-- `c` is a copy of `a`: `a` itself, or what `dup` made of it after `s`. -/
def Copied (d : SliceDataOps σ D X) (s : σ) (a c : Option D) : Prop :=
  c = a ∨ ∃ s₁, Effects d s s₁ ∧ c = (d.dup a s₁).1

/-- `c` is the result of one operation on a copy of `a`, both made after `s`. -/
def Applied (d : SliceDataOps σ D X) (op : Option D → X → σ → Option D × σ) (x : X) (s : σ)
    (a c : Option D) : Prop :=
  ∃ s₁, Effects d s s₁ ∧ c = (op (d.dup a s₁).1 x (d.dup a s₁).2).1

/-- The data after a change of `r`: the operation once inside `r`, copies outside. -/
def Changed (o : SliceOps P) (d : SliceDataOps σ D X) (op : Option D → X → σ → Option D × σ)
    (x : X) (dom : P → Prop) (w r : Span P) (s : σ) (sl sl' : Slicer P D) : Prop :=
  ∀ p, dom p → w.Mem p → (r.Mem p → Applied d op x s (sl.find o p) (sl'.find o p)) ∧
    (¬ r.Mem p → Copied d s (sl.find o p) (sl'.find o p))

omit [LinearOrder P] [Zero P] [TreeShape P] in
/-- Operations about which nothing is known meet the contract for `Effects`. -/
theorem contract_effects (hop : ∀ a s, Effect d s (op a x s).2) (s₀ : σ) :
    Contract d op x (fun s _ => Effects d s₀ s) (Copied d s₀) (fun _ => Applied d op x s₀)
      fun _ => True where
  copy_refl _ := Or.inl rfl
  dup {s a _} h := ⟨h.tail (.dup a s), Or.inr ⟨s, h, rfl⟩, fun _ _ hq => hq⟩
  op {s a _} _ h := ⟨(h.tail (.dup a s)).tail (hop _ _), ⟨s, h, rfl⟩, fun _ _ hq => hq⟩
  free {s a _} h := ⟨h.tail (.free a s), fun _ _ hq => hq⟩
  null h := h

/-- The two ranges have a point in common. -/
def Crosses (dom : P → Prop) (w r : Span P) : Prop := ∃ p, dom p ∧ w.Mem p ∧ r.Mem p

section Run

variable (ho : o.Lawful dom)
include ho

omit [TreeShape P] in
/-- Read at the points, pieces say what the data of each point has become. -/
theorem find_of_piece {K Q : Option D → Option D → Prop} (hwf : sl.WF dom w)
    (hwf' : sl'.WF dom w)
    (h : ∀ l' ∈ sl'.queue.links, ∃ l ∈ sl.queue.links, Piece r K Q l.val l'.val) {p : P}
    (hd : dom p) (hp : w.Mem p) :
    (r.Mem p → Q (sl.find o p) (sl'.find o p)) ∧ (¬ r.Mem p → K (sl.find o p) (sl'.find o p)) := by
  obtain ⟨l', hl', hm', he'⟩ := hwf'.exists_mem ho hd hp
  obtain ⟨l, hl, hsub, hpiece⟩ := h l' hl'
  rw [he', find_of_mem ho hwf hd hl (hsub p hm')]
  rcases hpiece with ⟨hin, hQ⟩ | ⟨hout, hK⟩
  · exact ⟨fun _ => hQ, fun hn => absurd (hin p hm') hn⟩
  · exact ⟨fun hy => absurd hy (hout p hm'), fun _ => hK⟩

/-- A change of a range with arbitrary data operations. -/
theorem applyChange_changed (hop : ∀ a s, Effect d s (op a x s).2) (hr : o.Fits dom w ⟨b, e⟩)
    (hcr : Crosses dom w ⟨b, e⟩) (hwf : sl.WF dom w) (s : σ) :
    ∃ sl' s', sl.applyChange o d x b e (insertOp o d op counted) s = some (sl', s') ∧
      sl'.WF dom w ∧ Effects d s s' ∧ Changed o d op x dom w ⟨b, e⟩ s sl sl' := by
  obtain ⟨q, hq, hwq, hrq⟩ := hcr
  obtain ⟨sl', s', he, hwf', hI, hpiece⟩ := applyChange_rule (s := s) ho
    (contract_effects hop s) ⟨q, hq⟩ hr (.of_mem hwq hrq) hwf (fun _ _ _ => trivial) .refl
  exact ⟨sl', s', he, hwf', hI, fun p hp hw => find_of_piece ho hwf hwf' hpiece hp hw⟩

/-! ## Runs

Any list of changes, with ranges whose neighbours are right.
-/

/-- Each act keeps the tiling. -/
theorem Act.exec_wf {a : Act P X} (ha : a.On fun r => o.Fits dom w r ∧ Crosses dom w r)
(hwf : sl.WF dom w) (s : σ) :
    ∃ sl' s', a.exec o d sl s = some (sl', s') ∧ sl'.WF dom w ∧ Effects d s s' := by
  cases a with
  | insert x b e =>
    obtain ⟨sl', s', h1, h2, h3, -⟩ := applyChange_changed ho
      (fun a s => Effect.add (d := d) a x s) ha.1 ha.2 hwf s
    exact ⟨sl', s', h1, h2, h3⟩
  | delete x b e =>
    obtain ⟨sl', s', h1, h2, h3, -⟩ := applyChange_changed ho
      (fun a s => Effect.del (d := d) a x s) ha.1 ha.2 hwf s
    exact ⟨sl', s', h1, h2, h3⟩
  | glueNull =>
    rcases hnull : d.isNull with _ | isNull
    · refine ⟨sl, s, ?_, hwf, .refl⟩
      rw [exec, Slicer.glueNull, hnull]
    · obtain ⟨sl', s', h1, h2, h3, -⟩ := glueNull_rule (d := d)
        (I := fun s' _ => Effects d s s') ho Iff.rfl (fun _ h => h.tail (.free _ _)) hnull hwf .refl
      exact ⟨sl', s', congrArg some h1, h2, h3⟩

/-- A run of any acts keeps a slicer well formed. -/
theorem runActs_wf (acts : List (Act P X)) :
    ∀ {sl : Slicer P D} {s : σ}, (∀ a ∈ acts, a.On fun r => o.Fits dom w r ∧ Crosses dom w r) →
      sl.WF dom w → ∃ sl' s', runActs o d acts sl s = some (sl', s') ∧ sl'.WF dom w := by
  induction acts with
  | nil => exact fun {sl s} _ hwf => ⟨sl, s, rfl, hwf⟩
  | cons a as ih =>
    intro sl s ha hwf
    obtain ⟨sl₁, s₁, he₁, hwf₁, -⟩ := a.exec_wf (d := d) ho (ha a List.mem_cons_self) hwf s
    obtain ⟨sl', s', he, hwf'⟩ := ih (s := s₁)
      (fun c hc => ha c (List.mem_cons_of_mem _ hc)) hwf₁
    refine ⟨sl', s', ?_, hwf'⟩
    rw [runActs, he₁]
    exact he

omit [TreeShape P] in
/-- In a tiling, the points of the range are those that lie in exactly one slice. -/
theorem WF.mem_iff_existsUnique (hwf : sl.WF dom w) {p : P} (hd : dom p) :
    w.Mem p ↔ ∃! l, l ∈ sl.queue.links ∧ l.val.slice.Mem p := by
  constructor
  · intro hp
    obtain ⟨l, hl, hm, -⟩ := hwf.exists_mem (o := o) ho hd hp
    exact ⟨l, ⟨hl, hm⟩, fun l' h' =>
      (eq_of_mem_of_before (f := fun l => l.val.slice) hwf.pairwise hl h'.1 hm h'.2).symm⟩
  · rintro ⟨l, ⟨hl, hm⟩, -⟩
    exact hwf.tiles.sub (mem_slicesOf hl) hm

/-- A run from `slicer_init`, and what one more change does. -/
theorem runActs_changed (hw : w.Proper dom) (acts : List (Act P X))
    (hin : ∀ a ∈ acts, a.On fun r => o.Fits dom w r ∧ Crosses dom w r) (s₀ : σ) :
    ∃ sl s, runActs o d acts ((new : Slicer P D).init o w.lo w.hi) s₀ = some (sl, s) ∧
      sl.WF dom w ∧
      ∀ x b e, o.Fits dom w ⟨b, e⟩ → Crosses dom w ⟨b, e⟩ →
        (∃ sl' s', sl.insert o d x b e s = some (sl', s') ∧ sl'.WF dom w ∧
          Changed o d d.add x dom w ⟨b, e⟩ s sl sl') ∧
        (∃ sl' s', sl.delete o d x b e s = some (sl', s') ∧ sl'.WF dom w ∧
          Changed o d d.del x dom w ⟨b, e⟩ s sl sl') := by
  obtain ⟨sl, s, he, hwf⟩ := runActs_wf (d := d) (s := s₀) ho acts hin (wf_init (D := D) ho hw).1
  refine ⟨sl, s, he, hwf, fun x b e hf hc => ⟨?_, ?_⟩⟩
  · obtain ⟨sl', s', h1, h2, -, h4⟩ := applyChange_changed ho
      (fun a s => Effect.add (d := d) a x s) hf hc hwf s
    exact ⟨sl', s', h1, h2, h4⟩
  · obtain ⟨sl', s', h1, h2, -, h4⟩ := applyChange_changed ho
      (fun a s => Effect.del (d := d) a x s) hf hc hwf s
    exact ⟨sl', s', h1, h2, h4⟩

end Run

omit [TreeShape P] in
/-- With the keys that are not `NULL` as the points, a range that crosses `w` fits. -/
theorem Crosses.fits (hn : o.Neighbours (· ≠ 0) w) (h : Crosses (· ≠ 0) w r) :
    o.Fits (· ≠ 0) w r := by
  obtain ⟨p, -, -, hr⟩ := h
  refine hn.fits ⟨id, id, ?_⟩
  rcases hr.1 with h1 | h1
  · exact Or.inl h1
  · exact Or.inr (hr.2.imp id fun h2 => h1.trans h2)

/-- **Slicer refinement.** Every run keeps the slices a tiling of the whole range, with
the tree in step; a further change of a range is the operation applied once at each
of its points. -/
theorem slicer_run_refines (ho : o.Lawful (· ≠ 0)) (hn : o.Neighbours (· ≠ 0) w)
    (hw : w.Proper (· ≠ 0)) (acts : List (Act P X))
    (hin : ∀ a ∈ acts, a.On (Crosses (· ≠ 0) w)) (s₀ : σ) :
    ∃ sl s, runActs o d acts ((new : Slicer P D).init o w.lo w.hi) s₀ = some (sl, s) ∧
      sl.WF (· ≠ 0) w ∧
      (sl.queue.links.Pairwise fun l m => l.val.slice.Before m.val.slice) ∧
      (∀ p, p ≠ 0 → (w.Mem p ↔ ∃! l, l ∈ sl.queue.links ∧ l.val.slice.Mem p)) ∧
      ∀ x b e, Crosses (· ≠ 0) w ⟨b, e⟩ →
        (∃ sl' s', sl.insert o d x b e s = some (sl', s') ∧ sl'.WF (· ≠ 0) w ∧
          Changed o d d.add x (· ≠ 0) w ⟨b, e⟩ s sl sl') ∧
        (∃ sl' s', sl.delete o d x b e s = some (sl', s') ∧ sl'.WF (· ≠ 0) w ∧
          Changed o d d.del x (· ≠ 0) w ⟨b, e⟩ s sl sl') := by
  obtain ⟨sl, s, he, hwf, hch⟩ := runActs_changed (d := d) ho hw acts
    (fun a ha => (hin a ha).mono fun r hr => ⟨hr.fits hn, hr⟩) s₀
  exact ⟨sl, s, he, hwf, hwf.pairwise, fun p hp => hwf.mem_iff_existsUnique ho hp,
    fun x b e hc => hch x b e (hc.fits hn) hc⟩

/-- Keys that are numbers. -/
def natOps : SliceOps ℕ where
  cmp a b := (a : Int) - b
  dup := id
  inc k := k + 1
  dec k := k - 1

/-- Data that counts how often it was added to; the state counts the calls. -/
def countOps : SliceDataOps ℕ ℕ Unit where
  add a _ s := (some (a.getD 0 + 1), s + 1)
  del a _ s := (a.map Nat.pred, s + 1)
  dup a s := (a, s + 1)
  free _ s := s + 1
  isNull := some fun a => a.getD 0 == 0

/-- The range 10 to 20: two changes that overlap, then a glue. -/
theorem slicer_run_refines_ten_twenty :
    letI := TreeShape.plain ℕ
    ∃ sl s, runActs natOps countOps [.insert () 12 15, .delete () 14 30, .glueNull]
        ((new : Slicer ℕ ℕ).init natOps 10 20) 0 = some (sl, s) ∧
      sl.WF (· ≠ 0) ⟨10, 20⟩ := by
  let _ := TreeShape.plain ℕ
  have ho : natOps.Lawful (· ≠ 0) :=
    ⟨fun _ _ => by simp only [natOps]; omega, fun _ _ => by simp only [natOps]; omega, fun _ => rfl⟩
  have hn : natOps.Neighbours (· ≠ 0) ⟨10, 20⟩ := by
    refine ⟨fun k hk _ h => ?_, fun k hk _ h => ?_⟩ <;> simp only [natOps, Next] at * <;>
      refine ⟨by omega, by omega, by omega, fun p _ => by omega⟩
  have hw : Span.Proper (· ≠ 0) (⟨10, 20⟩ : Span ℕ) := ⟨id, id, by simp⟩
  obtain ⟨sl, s, he, hwf, -⟩ := slicer_run_refines (d := countOps) ho hn hw
    [.insert () 12 15, .delete () 14 30, .glueNull] (by
      intro a ha
      simp only [List.mem_cons, List.not_mem_nil, or_false] at ha
      rcases ha with rfl | rfl | rfl
      · exact ⟨12, by decide, by decide, by decide⟩
      · exact ⟨14, by decide, by decide, by decide⟩
      · trivial) 0
  exact ⟨sl, s, he, hwf⟩

end Slicer

end Mbb
