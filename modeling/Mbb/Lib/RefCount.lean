import Mbb.Lib.Ledger
import Mathlib.Logic.Function.Basic

/-!
# Reference counts

Cells of a memory are counted: whoever takes a reference adds one, whoever gives it back takes one
off, and the last one frees the cell. `Counts` says that the counts are right, for a function that
tells how many references to a cell are held. Who holds them is often found by adding up over the
rows of tables, which is what `tally` does.
-/

namespace Mbb

namespace Ledger

variable {K V : Type} [DecidableEq K] (l : Ledger K V) (g : V → ℕ)

/-- A number for each row, added up. -/
def tally : ℕ := (l.rows.map fun r => g r.2).sum

variable {l} {k : K} {v : V}

/-- A row that goes takes its references with it. -/
theorem tally_drop (h : l.get? k = some v) :
    (l.drop fun k' => decide (k' = k)).tally g + g v = l.tally g := by
  have hperm := List.filter_append_perm (fun r : K × V => decide (r.1 = k)) l.rows
  have hsum := (hperm.map fun r => g r.2).sum_eq
  rw [List.map_append, List.sum_append, filter_rows, h] at hsum
  rw [tally, tally, ← hsum, drop, Nat.add_comm]
  simp

/-- A change of a row that goes does not count. -/
theorem drop_modify (f : V → V) : (l.modify k f).drop (fun k' => decide (k' = k)) =
    l.drop fun k' => decide (k' = k) := by
  obtain ⟨rows, hnd⟩ := l
  rw [drop, drop, Ledger.mk.injEq, modify, update]
  simp only
  clear hnd
  induction rows with
  | nil => rfl
  | cons r rows ih =>
    by_cases hk : r.1 = k
    · simpa [hk] using ih
    · simpa [hk] using ih

/-- A row that changes gives up the references it had and gets those it has now. -/
theorem tally_modify (h : l.get? k = some v) (f : V → V) :
    (l.modify k f).tally g + g v = l.tally g + g (f v) := by
  have hget : (l.modify k f).get? k = some (f v) := by
    rw [get?_modify, if_pos rfl, h]
    rfl
  have hold := tally_drop g h
  have hnew := tally_drop g hget
  rw [drop_modify] at hnew
  omega

/-- A new row brings its references. -/
theorem tally_insert (h : l.get? k = none) (v : V) :
    (l.insert k v h).tally g = l.tally g + g v := by
  rw [tally, insert, List.map_append, List.sum_append]
  simp [tally]

/-- Where there is no row nothing is dropped. -/
theorem drop_of_none (h : l.get? k = none) : (l.drop fun k' => decide (k' = k)) = l := by
  obtain ⟨rows, hnd⟩ := l
  rw [drop, Ledger.mk.injEq, List.filter_eq_self]
  intro r hr
  have hne : r.1 ≠ k := by
    rintro rfl
    exact get?_eq_none.mp h (List.mem_map_of_mem hr)
  simp [hne]

/-- The same for a row that is put where there was none. -/
theorem tally_put (h : l.get? k = none) (v : V) : (l.put k v).tally g = l.tally g + g v := by
  rw [put, tally_insert, drop_of_none h]

/-- A row holds no more than all of them. -/
theorem le_tally (h : l.get? k = some v) : g v ≤ l.tally g := by
  have hdrop := tally_drop g h
  omega

/-- Rows that hold nothing add up to nothing. -/
theorem tally_eq_zero (h : ∀ k v, l.get? k = some v → g v = 0) : l.tally g = 0 := by
  refine List.sum_eq_zero fun n hn => ?_
  obtain ⟨r, hr, rfl⟩ := List.mem_map.mp hn
  exact h r.1 r.2 (get?_of_mem hr)

end Ledger

/-- A cell with its count. -/
structure Counted (D : Type) : Type where
  /-- what is in it -/
  data : D
  /-- how many references there are -/
  refCount : Int

/-- A memory of cells that are counted. -/
structure RcHeap (D : Type) : Type where
  /-- the cells that have not been freed -/
  mem : ℕ → Option (Counted D)
  /-- what was put into each cell, by address -/
  made : List D
  /-- a cell has been used after it was freed -/
  fault : Bool

namespace RcHeap

variable {D : Type}

/-- No cells. -/
def empty : RcHeap D := ⟨fun _ => none, [], false⟩

variable (h : RcHeap D) (a : ℕ)

/-- A new cell, with one reference. -/
def alloc (d : D) : RcHeap D :=
  { h with mem := Function.update h.mem h.made.length (some ⟨d, 1⟩), made := h.made ++ [d] }

/-- One more reference. -/
def retain : RcHeap D :=
  match h.mem a with
  | none => { h with fault := true }
  | some c => { h with mem := Function.update h.mem a (some { c with refCount := c.refCount + 1 }) }

/-- One reference less; the last one frees the cell. -/
def release : RcHeap D :=
  match h.mem a with
  | none => { h with fault := true }
  | some c =>
    if c.refCount - 1 = 0 then { h with mem := Function.update h.mem a none }
    else { h with mem := Function.update h.mem a (some { c with refCount := c.refCount - 1 }) }

/-- The cell is read. -/
def use : RcHeap D :=
  match h.mem a with
  | none => { h with fault := true }
  | some _ => h

/-- Several references are given back. -/
def releaseAll (as : List ℕ) : RcHeap D := as.foldl release h

/-- The counts are right: `refs` tells how many references to a cell are held. -/
structure Counts (refs : ℕ → ℕ) : Prop where
  /-- cells are freed with the last reference, and not before -/
  live : ∀ a, (h.mem a).isSome ↔ 0 < refs a
  /-- counts -/
  count : ∀ a c, h.mem a = some c → c.refCount = refs a ∧ h.made[a]? = some c.data
  /-- addresses have been given out -/
  lt : ∀ a, 0 < refs a → a < h.made.length
  /-- no cell has been used after it was freed -/
  noFault : h.fault = false

variable {h a} {refs refs' : ℕ → ℕ}

/-- A reference makes no cell. -/
@[simp] theorem made_retain : (h.retain a).made = h.made := by
  rw [retain]
  split <;> rfl

/-- A cell that is freed was made all the same. -/
@[simp] theorem made_release : (h.release a).made = h.made := by
  rw [release]
  split
  · rfl
  · split <;> rfl

/-- To look into a cell makes none. -/
@[simp] theorem made_use : (h.use a).made = h.made := by
  rw [use]
  split <;> rfl

/-- To give references back makes no cell. -/
@[simp] theorem made_releaseAll (as : List ℕ) : (h.releaseAll as).made = h.made := by
  induction as generalizing h with
  | nil => rfl
  | cons b as ih =>
    change ((h.release b).releaseAll as).made = h.made
    rw [ih, made_release]

namespace Counts

/-- In the empty memory nothing is held. -/
theorem empty : (RcHeap.empty : RcHeap D).Counts fun _ => 0 where
  live a := by simp [RcHeap.empty]
  count a c hc := by cases hc
  lt a ha := absurd ha (Nat.lt_irrefl 0)
  noFault := rfl

/-- The counts are right for any function with the same values. -/
theorem congr (hc : h.Counts refs) (heq : ∀ a, refs' a = refs a) : h.Counts refs' := by
  obtain rfl : refs' = refs := funext heq
  exact hc

/-- A cell to which a reference is held is there, and counts it. -/
theorem get (hc : h.Counts refs) (ha : 0 < refs a) :
    ∃ c, h.mem a = some c ∧ c.refCount = refs a := by
  obtain ⟨c, hmem⟩ := Option.isSome_iff_exists.mp ((hc.live a).mpr ha)
  exact ⟨c, hmem, (hc.count a c hmem).1⟩

/-- A new address is not held. -/
theorem fresh (hc : h.Counts refs) : refs h.made.length = 0 := by
  by_contra hne
  exact Nat.lt_irrefl _ (hc.lt _ (Nat.pos_of_ne_zero hne))

/-- One cell is written, and its references change with it. -/
theorem write (hc : h.Counts refs) {c c' : Counted D} (hmem : h.mem a = some c)
    (hdata : c'.data = c.data) (hcount : c'.refCount = refs' a) (hpos : 0 < refs' a)
    (hother : ∀ b, b ≠ a → refs' b = refs b) :
    Counts { h with mem := Function.update h.mem a (some c') } refs' := by
  refine ⟨fun b => ?_, fun b d hd => ?_, fun b hb => ?_, hc.noFault⟩
  · by_cases hb : b = a
    · subst hb
      simpa using hpos
    · simpa [hb, hother b hb] using hc.live b
  · by_cases hb : b = a
    · subst hb
      obtain rfl : c' = d := by simpa using hd
      exact ⟨hcount, by rw [hdata]; exact (hc.count b c hmem).2⟩
    · rw [hother b hb]
      exact hc.count b d (by simpa [hb] using hd)
  · by_cases hb' : b = a
    · subst hb'
      exact hc.lt b ((hc.live b).mp (by rw [hmem]; rfl))
    · exact hc.lt b (by rwa [hother b hb'] at hb)

/-- **A new cell.** Whoever makes it holds the only reference. -/
theorem alloc (hc : h.Counts refs) (d : D) (hnew : refs' h.made.length = 1)
    (hother : ∀ b, b ≠ h.made.length → refs' b = refs b) : (h.alloc d).Counts refs' := by
  have hlen : (h.alloc d).made.length = h.made.length + 1 := by simp [RcHeap.alloc]
  refine ⟨fun b => ?_, fun b c hcell => ?_, fun b hb => ?_, hc.noFault⟩
  · by_cases hb : b = h.made.length
    · subst hb
      simp [RcHeap.alloc, hnew]
    · simpa [RcHeap.alloc, hb, hother b hb] using hc.live b
  · by_cases hb : b = h.made.length
    · subst hb
      obtain rfl : (⟨d, 1⟩ : Counted D) = c := by simpa [RcHeap.alloc] using hcell
      simp [RcHeap.alloc, hnew]
    · have hold : h.mem b = some c := by simpa [RcHeap.alloc, hb] using hcell
      obtain ⟨hcount, hdata⟩ := hc.count b c hold
      refine ⟨by rw [hother b hb]; exact hcount, ?_⟩
      rw [RcHeap.alloc, List.getElem?_append_left (List.getElem?_eq_some_iff.mp hdata).1]
      exact hdata
  · rw [hlen]
    by_cases hb' : b = h.made.length
    · omega
    · have hlt := hc.lt b (by rwa [hother b hb'] at hb)
      omega

/-- **A reference is taken.** The cell has to be held by someone already. -/
theorem retain (hc : h.Counts refs) (ha : 0 < refs a) (hnew : refs' a = refs a + 1)
    (hother : ∀ b, b ≠ a → refs' b = refs b) : (h.retain a).Counts refs' := by
  obtain ⟨c, hmem, hcount⟩ := hc.get ha
  rw [RcHeap.retain, hmem]
  exact hc.write hmem rfl (by simp only; omega) (by omega) hother

/-- **A reference is given back.** The last one frees the cell. -/
theorem release (hc : h.Counts refs) (hnew : refs' a + 1 = refs a)
    (hother : ∀ b, b ≠ a → refs' b = refs b) : (h.release a).Counts refs' := by
  obtain ⟨c, hmem, hcount⟩ := hc.get (a := a) (by omega)
  rw [RcHeap.release, hmem]
  simp only
  split
  · rename_i hlast
    have hzero : refs' a = 0 := by omega
    refine ⟨fun b => ?_, fun b d hd => ?_, fun b hb => ?_, hc.noFault⟩
    · by_cases hb : b = a
      · subst hb
        simp [hzero]
      · simpa [hb, hother b hb] using hc.live b
    · have hb : b ≠ a := by
        rintro rfl
        simp at hd
      rw [hother b hb]
      exact hc.count b d (by simpa [hb] using hd)
    · have hb' : b ≠ a := by
        rintro rfl
        omega
      exact hc.lt b (by rwa [hother b hb'] at hb)
  · rename_i hmore
    exact hc.write hmem rfl (by simp only; omega) (by omega) hother

/-- A cell that is held may be looked into. -/
theorem use (hc : h.Counts refs) (ha : 0 < refs a) : (h.use a).Counts refs := by
  obtain ⟨c, hmem, -⟩ := hc.get ha
  rw [RcHeap.use, hmem]
  exact hc

/-- **References are given back one after the other**, several of them to one cell perhaps. -/
theorem releaseAll (as : List ℕ) (hc : h.Counts refs) (hnew : ∀ a, refs' a + as.count a = refs a) :
    (h.releaseAll as).Counts refs' := by
  induction as generalizing h refs with
  | nil => exact hc.congr fun a => by simpa using hnew a
  | cons b as ih =>
    have hstep : (h.release b).Counts fun a => refs' a + as.count a := by
      refine hc.release ?_ fun a ha => ?_
      · rw [← hnew b, List.count_cons_self]
        omega
      · rw [← hnew a, List.count_cons_of_ne (Ne.symm ha)]
    exact ih hstep fun a => rfl

end Counts

end RcHeap

end Mbb
