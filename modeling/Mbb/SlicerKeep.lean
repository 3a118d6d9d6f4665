import Mbb.SlicerChange
import Mathlib.Data.List.TakeWhile

/-!
# What a slicer keeps whatever its keys

The rules about `slicer_insert`, `slicer_delete` and `slicer_glue_null` in terms of keys need
slices that tile a range. An assertion on the data alone is kept without: each operation takes
data out of the queue only when it releases it, and puts in only what the data operations have
made. The data need not be that of slices in order, nor the neighbours of a key be right.
-/

namespace Mbb

namespace Slicer

variable {P : Type} [LinearOrder P] [Zero P] {σ D X : Type}

/-- Does a change of the range `r` touch the slice of the link? -/
def touches (o : SliceOps P) (r : Slice P) (l : Link (SlicerEntry P D)) : Bool :=
  (sliceCross o l.val.slice r).isSome

/-- The data that `slicer_apply_change` visits, in that order: from the slice the lookup finds
towards the tail, then from the slice before it towards the head, each time up to the first one
that the range does not touch. -/
def visited (o : SliceOps P) (sl : Slicer P D) (b e : P) : List (Option D) :=
  if 0 < beginEndCmp o b e then []
  else
    match treeLookup o sl.tree ⟨b, e⟩ with
    | none => []
    | some list =>
      ((sl.queue.links.dropWhile (·.id != list)).takeWhile (touches o ⟨b, e⟩) ++
        (sl.queue.links.takeWhile (·.id != list)).reverse.takeWhile (touches o ⟨b, e⟩)).map
        fun l => l.val.data

/-- What the data operations owe: `I` is an assertion on the state and the data alive in it, and
`T s as` allows the change of the data `as` one after the other. -/
structure Keeps (d : SliceDataOps σ D X) (op : Option D → X → σ → Option D × σ) (x : X)
    (I : σ → Multiset (Option D) → Prop) (T : σ → List (Option D) → Prop) : Prop where
  /-- `dup` adds a copy to the live data -/
  dup : ∀ {s a L}, I s (a ::ₘ L) → I (d.dup a s).2 ((d.dup a s).1 ::ₘ a ::ₘ L) ∧
    ∀ as, T s as → T (d.dup a s).2 as
  /-- the operation, applied to a copy, adds what it makes of it -/
  op : ∀ {s a L as}, T s (a :: as) → I s (a ::ₘ L) →
    I (op (d.dup a s).1 x (d.dup a s).2).2 ((op (d.dup a s).1 x (d.dup a s).2).1 ::ₘ a ::ₘ L) ∧
    T (op (d.dup a s).1 x (d.dup a s).2).2 as
  /-- `free` withdraws the data -/
  free : ∀ {s a L}, I s (some a ::ₘ L) → I (d.free a s) L ∧ ∀ as, T s as → T (d.free a s) as
  /-- `NULL` is not alive -/
  null : ∀ {s L}, I s (none ::ₘ L) → I s L

/-- The same for an assertion that also sees the counter of the slicer and the data still to be
visited. The counter goes up with data that is there, and with what the operation makes as `counted`
says. -/
structure Steps (d : SliceDataOps σ D X) (op : Option D → X → σ → Option D × σ)
    (counted : Option D → Bool) (x : X)
    (J : σ → Multiset (Option D) → Int → List (Option D) → Prop) : Prop where
  /-- `dup` adds a copy to the live data -/
  dup : ∀ {s a L n as}, J s (a ::ₘ L) n as →
    J (d.dup a s).2 ((d.dup a s).1 ::ₘ a ::ₘ L) (if (d.dup a s).1.isSome then n + 1 else n) as
  /-- the operation, applied to a copy, adds what it makes of it -/
  op : ∀ {s a L n as}, J s (a ::ₘ L) n (a :: as) →
    J (op (d.dup a s).1 x (d.dup a s).2).2 ((op (d.dup a s).1 x (d.dup a s).2).1 ::ₘ a ::ₘ L)
      (if counted (op (d.dup a s).1 x (d.dup a s).2).1 then n + 1 else n) as
  /-- `free` withdraws the data -/
  free : ∀ {s a L n as}, J s (some a ::ₘ L) n as → J (d.free a s) L (n - 1) as
  /-- `NULL` is not alive -/
  null : ∀ {s L n as}, J s (none ::ₘ L) n as → J s L n as

variable {o : SliceOps P} {d : SliceDataOps σ D X} {sl : Slicer P D} {r : Slice P} {s : σ}
  {A B : List (Link (SlicerEntry P D))} {l : Link (SlicerEntry P D)} {x : X}
  {op : Option D → X → σ → Option D × σ} {counted : Option D → Bool}
  {I : σ → Multiset (Option D) → Prop} {T : σ → List (Option D) → Prop}
  {J : σ → Multiset (Option D) → Int → List (Option D) → Prop} {as : List (Option D)}

section Change

variable [TreeShape P] (hk : Steps d op counted x J)
include hk

/-! ## One link -/

theorem insertDupIf_steps (part : Option (Slice P)) {next : Option ℕ} {a : Option D}
    (hl : sl.queue.links = A ++ B) (hn : next = B.head?.map Link.id)
    (hJ : J s (a ::ₘ liveData (A ++ B)) sl.count as) :
    ∃ sl' s' G, sl.insertDupIf o d next a part s = (sl', s') ∧
      sl'.queue.links = A ++ G ++ B ∧ J s' (a ::ₘ liveData (A ++ G ++ B)) sl'.count as := by
  cases part with
  | none => exact ⟨sl, s, [], rfl, by simpa using hl, by simpa using hJ⟩
  | some slice =>
    have hq : (sl.insertDup o d next a slice s).1.queue =
        (sl.insertBefore o next ⟨slice, (d.dup a s).1⟩).queue := by
      simp only [insertDup]
      split <;> rfl
    have hc : (sl.insertDup o d next a slice s).1.count =
        if (d.dup a s).1.isSome then sl.count + 1 else sl.count := by
      simp only [insertDup]
      split <;> rfl
    refine ⟨(sl.insertDup o d next a slice s).1, (d.dup a s).2,
      [⟨sl.queue.fresh, ⟨slice, (d.dup a s).1⟩⟩], rfl, ?_, ?_⟩
    · rw [hq, links_insertBefore hl hn, List.append_assoc, List.singleton_append]
    · rw [List.append_assoc, List.singleton_append, liveData_insert, Multiset.cons_swap, hc]
      exact hk.dup hJ

theorem insertOp_steps (slice : Slice P) {next : Option ℕ} {a : Option D}
    (hl : sl.queue.links = A ++ B) (hn : next = B.head?.map Link.id)
    (hJ : J s (a ::ₘ liveData (A ++ B)) sl.count (a :: as)) :
    ∃ sl' s' g, sl.insertOp o d op counted next a x slice s = (sl', s') ∧
      sl'.queue.links = A ++ g :: B ∧ J s' (a ::ₘ liveData (A ++ g :: B)) sl'.count as := by
  have hq : (sl.insertOp o d op counted next a x slice s).1.queue =
      (sl.insertBefore o next ⟨slice, (op (d.dup a s).1 x (d.dup a s).2).1⟩).queue := by
    simp only [insertOp]
    split <;> rfl
  have hc : (sl.insertOp o d op counted next a x slice s).1.count =
      if counted (op (d.dup a s).1 x (d.dup a s).2).1 then sl.count + 1 else sl.count := by
    simp only [insertOp]
    split <;> rfl
  refine ⟨(sl.insertOp o d op counted next a x slice s).1, _,
    ⟨sl.queue.fresh, ⟨slice, (op (d.dup a s).1 x (d.dup a s).2).1⟩⟩, rfl, ?_, ?_⟩
  · rw [hq, links_insertBefore hl hn]
  · rw [liveData_insert, Multiset.cons_swap, hc]
    exact hk.op hJ

omit [LinearOrder P] [Zero P] [TreeShape P] in
theorem entryFree_steps (sl : Slicer P D) (slice : Slice P) {a : Option D}
    {L : Multiset (Option D)} (hJ : J s (a ::ₘ L) sl.count as) :
    ∃ sl' s', sl.entryFree d ⟨slice, a⟩ s = (sl', s') ∧ sl'.queue = sl.queue ∧
      J s' L sl'.count as := by
  cases a with
  | none => exact ⟨sl, s, rfl, rfl, hk.null hJ⟩
  | some a => exact ⟨_, _, rfl, rfl, hk.free hJ⟩

/-- `change_data` puts pieces in the place of a link. -/
theorem changeData_steps (hl : sl.queue.links = A ++ l :: B) (ht : touches o r l = true)
    (hJ : J s (liveData sl.queue.links) sl.count (l.val.data :: as)) :
    ∃ sl' s' G, sl.changeData o d l.id x r (insertOp o d op counted) s = some (sl', s') ∧
      sl'.queue.links = A ++ G ++ B ∧ J s' (liveData sl'.queue.links) sl'.count as := by
  obtain ⟨⟨before, mid, after⟩, hcross⟩ := Option.isSome_iff_exists.mp ht
  rw [hl, liveData_insert] at hJ
  -- take the link out, then insert the parts one by one before the next link
  have hl₀ : (⟨sl.queue.deleteLink l.id, treeRemove o sl.tree l.val.slice, sl.count⟩ :
      Slicer P D).queue.links = A ++ B := Queue.links_deleteLink hl
  obtain ⟨sl₁, s₁, G₁, he₁, hl₁, hJ₁⟩ := insertDupIf_steps (o := o) hk before hl₀ rfl hJ
  obtain ⟨sl₂, s₂, g, he₂, hl₂, hJ₂⟩ := insertOp_steps (o := o) hk mid hl₁ rfl hJ₁
  obtain ⟨sl₃, s₃, G₃, he₃, hl₃, hJ₃⟩ := insertDupIf_steps (A := A ++ G₁ ++ [g]) (o := o) hk
    after (by simpa using hl₂) rfl (by simpa using hJ₂)
  obtain ⟨sl₄, s₄, he₄, hq₄, hJ₄⟩ := entryFree_steps hk sl₃ l.val.slice hJ₃
  have hl₄ : sl₄.queue.links = A ++ (G₁ ++ [g] ++ G₃) ++ B := by
    rw [hq₄, hl₃]
    simp
  refine ⟨sl₄, s₄, G₁ ++ [g] ++ G₃, ?_, hl₄, ?_⟩
  · rw [changeData, Queue.get?_mid hl]
    simp only
    rw [hcross, Queue.next?_mid hl]
    simp only
    rw [he₁]
    simp only
    rw [he₂]
    simp only
    rw [he₃]
    exact congrArg some he₄
  · rw [hl₄]
    simpa using hJ₄

omit hk in
theorem changeData_untouched (hl : sl.queue.links = A ++ l :: B) (ht : touches o r l = false)
    (func : OpFunc P σ D X) : sl.changeData o d l.id x r func s = none := by
  have hcross : sliceCross o l.val.slice r = none := by
    rw [touches] at ht
    simpa using ht
  rw [changeData, Queue.get?_mid hl]
  simp only
  rw [hcross]

/-! ## The two loops -/

/-- The loop towards the tail. -/
theorem changeForward_steps (F : List (Link (SlicerEntry P D))) :
    ∀ (fuel : ℕ) {A : List (Link (SlicerEntry P D))} {sl : Slicer P D} {s : σ},
      sl.queue.links = A ++ F → F.length ≤ fuel →
      J s (liveData sl.queue.links) sl.count
        ((F.takeWhile (touches o r)).map (fun l => l.val.data) ++ as) →
      ∃ sl' s' C, changeForward o d x r (insertOp o d op counted) fuel sl
          (F.head?.map Link.id) s = (sl', s') ∧
        sl'.queue.links = A ++ C ∧ J s' (liveData sl'.queue.links) sl'.count as := by
  induction F with
  | nil =>
    intro fuel A sl s hl _ hJ
    refine ⟨sl, s, [], ?_, hl, hJ⟩
    cases fuel <;> rfl
  | cons f F ih =>
    intro fuel A sl s hl hfuel hJ
    obtain ⟨n, rfl⟩ : ∃ n, fuel = n + 1 := ⟨fuel - 1, by simp at hfuel; omega⟩
    simp only [List.head?_cons, Option.map_some, changeForward]
    cases ht : touches o r f with
    | true =>
      rw [List.takeWhile_cons_of_pos ht, List.map_cons, List.cons_append] at hJ
      obtain ⟨sl₁, s₁, G, he, hl₁, hJ₁⟩ := changeData_steps hk hl ht hJ
      obtain ⟨sl', s', C, he', hl', hJ'⟩ := ih n hl₁ (by simpa using hfuel) hJ₁
      refine ⟨sl', s', G ++ C, ?_, by rw [hl', List.append_assoc], hJ'⟩
      rw [he, Queue.next?_mid hl]
      exact he'
    | false =>
      rw [List.takeWhile_cons_of_neg (by simp [ht])] at hJ
      refine ⟨sl, s, f :: F, ?_, hl, hJ⟩
      rw [changeData_untouched hl ht]

/-- The loop towards the head. -/
theorem changeBackward_steps (A : List (Link (SlicerEntry P D))) :
    ∀ (fuel : ℕ) {C : List (Link (SlicerEntry P D))} {sl : Slicer P D} {s : σ},
      sl.queue.links = A ++ C → A.length ≤ fuel →
      J s (liveData sl.queue.links) sl.count
        ((A.reverse.takeWhile (touches o r)).map fun l => l.val.data) →
      ∃ sl' s', changeBackward o d x r (insertOp o d op counted) fuel sl
          (A.getLast?.map Link.id) s = (sl', s') ∧
        J s' (liveData sl'.queue.links) sl'.count [] := by
  induction A using List.reverseRecOn with
  | nil =>
    intro fuel C sl s _ _ hJ
    refine ⟨sl, s, ?_, hJ⟩
    cases fuel <;> rfl
  | append_singleton A f ih =>
    intro fuel C sl s hl hfuel hJ
    obtain ⟨n, rfl⟩ : ∃ n, fuel = n + 1 := ⟨fuel - 1, by simp at hfuel; omega⟩
    rw [List.append_assoc, List.singleton_append] at hl
    rw [List.reverse_concat] at hJ
    simp only [List.getLast?_concat, Option.map_some, changeBackward]
    cases ht : touches o r f with
    | true =>
      rw [List.takeWhile_cons_of_pos ht, List.map_cons] at hJ
      obtain ⟨sl₁, s₁, G, he, hl₁, hJ₁⟩ := changeData_steps hk hl ht hJ
      rw [List.append_assoc] at hl₁
      obtain ⟨sl', s', he', hJ'⟩ := ih n hl₁ (by simpa using hfuel) hJ₁
      refine ⟨sl', s', ?_, hJ'⟩
      rw [he, Queue.prev?_mid hl]
      exact he'
    | false =>
      rw [List.takeWhile_cons_of_neg (by simp [ht])] at hJ
      refine ⟨sl, s, ?_, hJ⟩
      rw [changeData_untouched hl ht]

/-! ## The whole change -/

omit [LinearOrder P] [Zero P] [TreeShape P] hk in
/-- The queue split at the link that a lookup returned, if it is there. -/
theorem split_at (sl : Slicer P D) (i : ℕ) :
    (∃ l F, l.id = i ∧ sl.queue.links.dropWhile (·.id != i) = l :: F ∧
      sl.queue.links = sl.queue.links.takeWhile (·.id != i) ++ l :: F) ∨
      ∀ l ∈ sl.queue.links, l.id ≠ i := by
  rcases hd : sl.queue.links.dropWhile (·.id != i) with _ | ⟨l, F⟩
  · right
    simpa using List.dropWhile_eq_nil_iff.mp hd
  · left
    have hne : sl.queue.links.dropWhile (·.id != i) ≠ [] := by simp [hd]
    have hl := List.head_dropWhile_not (fun m : Link (SlicerEntry P D) => m.id != i) hne
    simp only [hd, List.head_cons, bne_eq_false_iff_eq] at hl
    refine ⟨l, F, hl, hd, ?_⟩
    rw [← hd, List.takeWhile_append_dropWhile]

omit hk in
/-- Nothing happens to a slicer whose tree leads to a link that is not in the queue. -/
theorem changeRange_dangling {i : ℕ} {b e : P} (hlook : treeLookup o sl.tree ⟨b, e⟩ = some i)
    (hnot : ∀ l ∈ sl.queue.links, l.id ≠ i) (func : OpFunc P σ D X) :
    sl.changeRange o d x b e func s = some (sl, s) := by
  have hget : sl.queue.get? i = none := by
    rw [Queue.get?, List.find?_eq_none.mpr fun l hl => by simpa using hnot l hl]
    rfl
  have hprev : sl.queue.prev? i = none := by
    rw [Queue.prev?, ← List.append_nil sl.queue.links.reverse,
      Queue.nextIn_append fun l hl => hnot l (List.mem_reverse.mp hl)]
    rfl
  have hfwd : changeForward o d x ⟨b, e⟩ func sl.queue.length sl (some i) s = (sl, s) := by
    cases sl.queue.length with
    | zero => rfl
    | succ n =>
      rw [changeForward]
      simp only [changeData, hget]
  have hback : changeBackward o d x ⟨b, e⟩ func sl.queue.length sl none s = (sl, s) := by
    cases sl.queue.length <;> rfl
  rw [changeRange, hlook]
  simp only [hprev, hfwd, hback]

/-- **The change of a range**: all that was to be visited is, or nothing happens at all. -/
theorem applyChange_steps {sl' : Slicer P D} {s' : σ} {b e : P}
    (hJ : J s (liveData sl.queue.links) sl.count (visited o sl b e))
    (he : sl.applyChange o d x b e (insertOp o d op counted) s = some (sl', s')) :
    J s' (liveData sl'.queue.links) sl'.count [] ∨ sl' = sl ∧ s' = s := by
  rw [applyChange] at he
  rw [visited] at hJ
  split at he
  · obtain ⟨rfl, rfl⟩ := Prod.mk.inj (Option.some.inj he)
    exact Or.inr ⟨rfl, rfl⟩
  · rename_i hskip
    rw [if_neg hskip] at hJ
    rcases hlook : treeLookup o sl.tree ⟨b, e⟩ with _ | i
    · rw [changeRange, hlook] at he
      cases he
    · rw [hlook] at hJ
      simp only at hJ
      rcases split_at sl i with ⟨l, F, rfl, hdrop, hl⟩ | hnot
      · rw [hdrop, List.map_append] at hJ
        have hlen : sl.queue.length =
            (sl.queue.links.takeWhile (·.id != l.id)).length + (l :: F).length := by
          rw [Queue.length, ← List.length_append, ← hl]
        obtain ⟨sl₁, s₁, C, he₁, hl₁, hJ₁⟩ := changeForward_steps hk (l :: F)
          sl.queue.length hl (by omega) hJ
        obtain ⟨sl₂, s₂, he₂, hJ₂⟩ := changeBackward_steps hk _ sl.queue.length hl₁ (by omega) hJ₁
        rw [List.head?_cons, Option.map_some] at he₁
        rw [changeRange, hlook] at he
        simp only at he
        rw [he₁, Queue.prev?_mid hl] at he
        simp only at he
        rw [he₂] at he
        obtain ⟨rfl, rfl⟩ := Prod.mk.inj (Option.some.inj he)
        exact Or.inl hJ₂
      · rw [changeRange_dangling hlook hnot] at he
        obtain ⟨rfl, rfl⟩ := Prod.mk.inj (Option.some.inj he)
        exact Or.inr ⟨rfl, rfl⟩

omit [LinearOrder P] [Zero P] [TreeShape P] hk in
/-- An assertion that does not see the counter. -/
theorem Keeps.steps (hk : Keeps d op x I T) (counted : Option D → Bool) :
    Steps d op counted x fun s L _ as => I s L ∧ T s as where
  dup := fun ⟨hI, hT⟩ => ⟨(hk.dup hI).1, (hk.dup hI).2 _ hT⟩
  op := fun ⟨hI, hT⟩ => hk.op hT hI
  free := fun ⟨hI, hT⟩ => ⟨(hk.free hI).1, (hk.free hI).2 _ hT⟩
  null := fun ⟨hI, hT⟩ => ⟨hk.null hI, hT⟩

omit hk in
/-- **The change of a range** keeps the assertion, if the operation may be applied to the data
visited. -/
theorem applyChange_keeps (hk : Keeps d op x I T) (counted : Option D → Bool) {sl' : Slicer P D}
    {s' : σ} {b e : P} (hT : T s (visited o sl b e)) (hI : I s (liveData sl.queue.links))
    (he : sl.applyChange o d x b e (insertOp o d op counted) s = some (sl', s')) :
    I s' (liveData sl'.queue.links) := by
  rcases applyChange_steps (hk.steps counted) ⟨hI, hT⟩ he with h | ⟨rfl, rfl⟩
  · exact h.1
  · exact hI

end Change

/-! ## Gluing -/

section Glue

/-- The assertion holds of a slicer. -/
def Holds (I : σ → Multiset (Option D) → Prop) (r : Slicer P D × σ) : Prop :=
  I r.2 (liveData r.1.queue.links)

/-- The same for an assertion that also sees the counter. -/
def HoldsCount (J : σ → Multiset (Option D) → Int → Prop) (r : Slicer P D × σ) : Prop :=
  J r.2 (liveData r.1.queue.links) r.1.count

variable [TreeShape P] {J : σ → Multiset (Option D) → Int → Prop}
  (hnull : ∀ {s L n}, J s (none ::ₘ L) n ↔ J s L n)
  (hfree : ∀ {s a L n}, J s (some a ::ₘ L) n → J (d.free a s) L (n - 1))
include hnull hfree

/-- The loop of `slicer_glue` releases what it takes out. -/
theorem glueRemove_holds (fuel : ℕ) :
    ∀ {sl : Slicer P D} {lfrom lto : Option ℕ} {s : σ}, HoldsCount J (sl, s) →
      HoldsCount J (glueRemove o d fuel sl lfrom lto s) := by
  induction fuel with
  | zero => exact fun hJ => hJ
  | succ n ih =>
    intro sl lfrom lto s hJ
    cases lfrom with
    | none => exact hJ
    | some i =>
      rw [glueRemove]
      split
      · exact hJ
      · split
        · exact hJ
        · rename_i entry hget
          obtain ⟨A, B, hl⟩ := Queue.exists_of_get? hget
          have hl₁ : (sl.queue.deleteLink i).links = A ++ B := Queue.links_deleteLink hl
          apply ih
          rw [HoldsCount, hl, liveData_insert] at hJ
          rcases hd : entry.data with _ | a
          · simp only [HoldsCount, entryFree, hd, hl₁]
            rw [hd] at hJ
            exact hnull.mp hJ
          · simp only [HoldsCount, entryFree, hd, hl₁]
            rw [hd] at hJ
            exact hfree hJ

omit hfree in
/-- A link without data in any place, or nowhere when there is no such place. -/
theorem insertBefore_holds {next : Option ℕ} {slice : Slice P} (hJ : HoldsCount J (sl, s)) :
    HoldsCount J (sl.insertBefore o next ⟨slice, none⟩, s) := by
  have hperm : ∀ {ls : List (Link (SlicerEntry P D))},
      ls.Perm (⟨sl.queue.fresh, ⟨slice, none⟩⟩ :: sl.queue.links) →
      J s (liveData ls) sl.count := by
    intro ls hp
    have hlive : liveData ls = none ::ₘ liveData sl.queue.links :=
      Multiset.coe_eq_coe.mpr (hp.map _)
    rw [hlive]
    exact hnull.mpr hJ
  cases next with
  | none => exact hperm List.perm_append_comm
  | some i =>
    rcases Queue.insertIn_ids i ⟨sl.queue.fresh, ⟨slice, none⟩⟩ sl.queue.links with h | h
    · have hq : (sl.insertBefore o (some i) ⟨slice, none⟩).queue.links = sl.queue.links := h
      rw [HoldsCount, hq]
      exact hJ
    · exact hperm h

theorem glueRun_holds {lfrom lto : Option ℕ} (hJ : HoldsCount J (sl, s)) :
    HoldsCount J (sl.glueRun o d lfrom lto s) := by
  cases lfrom with
  | none => exact hJ
  | some f =>
    cases lto with
    | none => exact hJ
    | some t =>
      rw [glueRun, glue]
      split
      · exact hJ
      · split
        · exact insertBefore_holds hnull (glueRemove_holds hnull hfree _ hJ)
        · exact hJ

theorem glueNullLoop_holds (isNull : Option D → Bool) (fuel : ℕ) :
    ∀ {sl : Slicer P D} {list lfrom lto : Option ℕ} {s : σ}, HoldsCount J (sl, s) →
      HoldsCount J (glueNullLoop o d isNull fuel sl list lfrom lto s) := by
  induction fuel with
  | zero => exact glueRun_holds hnull hfree
  | succ n ih =>
    intro sl list lfrom lto s hJ
    cases list with
    | none => exact glueRun_holds hnull hfree hJ
    | some i =>
      rw [glueNullLoop]
      split
      · exact hJ
      · split
        · exact ih hJ
        · exact ih (glueRun_holds hnull hfree hJ)

/-- **Gluing** takes data out only when it releases it. -/
theorem glueNull_holds (hJ : HoldsCount J (sl, s)) : HoldsCount J (sl.glueNull o d s) := by
  rw [glueNull]
  split
  · exact hJ
  · exact glueNullLoop_holds hnull hfree _ _ hJ

omit hnull hfree in
/-- **Gluing** keeps an assertion that does not see the counter. -/
theorem glueNull_keeps (hnull : ∀ {s L}, I s (none ::ₘ L) ↔ I s L)
    (hfree : ∀ {s a L}, I s (some a ::ₘ L) → I (d.free a s) L) (hI : Holds I (sl, s)) :
    Holds I (sl.glueNull o d s) :=
  glueNull_holds (J := fun s L _ => I s L) hnull hfree hI

end Glue

end Slicer

end Mbb
