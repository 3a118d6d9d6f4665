import Mbb.World
import Mbb.Separator

/-!
# The order of a separator in every run

`separator_add` puts an entry behind those of its rank, and `mbb_unit_sep_reorder` takes an
entry whose priority has changed out of the queue and adds it again. So the queue is at any
time the list of the entries present in the order of their arrival, sorted by rank without
changing the order of those that tie. Arriving is being added or being reordered.
-/

namespace Mbb

/-! ## The separator of a unit -/

/-- `separator_del` -/
def separatorDel (entry : ℕ) (sep : List ℕ) : List ℕ := sep.erase entry

/-- `separator_has` -/
def separatorHas (entry : ℕ) (sep : List ℕ) : Bool := sep.contains entry

/-- The entries and the separator of one unit. -/
structure SepState : Type where
  /-- the entries -/
  mem : Memory
  /-- queue of the separator -/
  sep : List ℕ

/-- What is done to the separator of a unit. -/
inductive SepAct : Type where
  /-- `mbb_unit_add_inet`, with the values of the entry -/
  | add (entry : ℕ) (e : InetPoolEntry)
  /-- `mbb_unit_del_inet` -/
  | del (entry : ℕ)
  /-- `unit_mod_inet_nice`, when the database has taken the new priority -/
  | modNice (entry nice : ℕ)

namespace SepState

/-- `mbb_unit_add_inet`: the part about the separator. -/
def mbbUnitAddInet (s : SepState) (entry : ℕ) (e : InetPoolEntry) : SepState :=
  if separatorHas entry s.sep = false then
    let mem := s.mem.setEntry entry e
    ⟨mem, separatorAdd mem entry s.sep⟩
  else s

/-- `mbb_unit_del_inet`: the part about the separator. -/
def mbbUnitDelInet (s : SepState) (entry : ℕ) : SepState :=
  if separatorHas entry s.sep then { s with sep := separatorDel entry s.sep } else s

/-- `mbb_unit_sep_reorder` -/
def mbbUnitSepReorder (s : SepState) (entry : ℕ) : SepState :=
  { s with sep := separatorAdd s.mem entry (separatorDel entry s.sep) }

/-- `unit_mod_inet_nice`; the pool has the entries of the separators, no others. -/
def unitModInetNice (s : SepState) (entry nice : ℕ) : SepState :=
  if separatorHas entry s.sep = false then s
  else if (s.mem.entry entry).nice = nice then s
  else
    -- the priority changes while the entry is in the queue
    let s : SepState := ⟨s.mem.setEntry entry { s.mem.entry entry with nice := nice }, s.sep⟩
    s.mbbUnitSepReorder entry

/-- One act. -/
def exec (s : SepState) : SepAct → SepState
  | .add entry e => s.mbbUnitAddInet entry e
  | .del entry => s.mbbUnitDelInet entry
  | .modNice entry nice => s.unitModInetNice entry nice

end SepState

/-! ## The order of arrival

The list of entries by arrival is kept beside the queue. An entry arrives when it is added, and
again when its priority changes.
-/

/-- The entries present, in the order in which they were last added or reordered. -/
def SepAct.arrivals (s : SepState) (arrived : List ℕ) : SepAct → List ℕ
  | .add entry _ => if entry ∈ arrived then arrived else arrived ++ [entry]
  | .del entry => arrived.erase entry
  | .modNice entry nice =>
    if entry ∈ arrived ∧ (s.mem.entry entry).nice ≠ nice then arrived.erase entry ++ [entry]
    else arrived

/-- A run: the separator, and the entries present in the order of arrival. -/
def runSep : List SepAct → SepState × List ℕ → SepState × List ℕ
  | [], r => r
  | a :: as, r => runSep as (r.1.exec a, a.arrivals r.1 r.2)

/-- The priorities that the database admits. -/
def SepAct.NiceOk : SepAct → Prop
  | .add _ e => e.nice < 2 ^ 31
  | .del _ => True
  | .modNice _ nice => nice < 2 ^ 31

/-- The entry `a` may stand before `b`: by priority, inclusive before exclusive. -/
def Memory.Precedes (mem : Memory) (a b : ℕ) : Prop :=
  (mem.entry a).nice < (mem.entry b).nice ∨
    (mem.entry a).nice = (mem.entry b).nice ∧
      ((mem.entry a).flag = true ∨ (mem.entry b).flag = false)

/-- The separator lists the entries that have arrived, each once, sorted; and those of one
priority and flag in the order of their arrival. -/
structure SepSorted (s : SepState) (arrived : List ℕ) : Prop where
  /-- each once -/
  nodup : s.sep.Nodup
  /-- those present, no others -/
  present : ∀ e, e ∈ s.sep ↔ e ∈ arrived
  /-- sorted -/
  sorted : s.sep.Pairwise s.mem.Precedes
  /-- ties -/
  ties : ∀ nice flag,
    (s.sep.filter fun e => decide ((s.mem.entry e).nice = nice ∧ (s.mem.entry e).flag = flag)) =
      arrived.filter fun e => decide ((s.mem.entry e).nice = nice ∧ (s.mem.entry e).flag = flag)

/-! ## Ranks

The loop passes all entries of the same rank, so an entry is put behind those that tie with it.
-/

section Rank

variable {mem : Memory}

theorem Memory.precedes_iff {a b : ℕ} : mem.Precedes a b ↔ mem.rank a ≤ mem.rank b := by
  rw [Precedes, rank, rank, flag, flag]
  rcases (mem.entry a).flag with _ | _ <;> rcases (mem.entry b).flag with _ | _ <;>
    simp only [reduceCtorEq, if_false, if_true, or_false, or_true, or_self, and_true,
      and_false] <;> omega

/-- Priority and flag are the rank. -/
theorem Memory.rank_eq_iff {e nice : ℕ} {flag : Bool} :
    ((mem.entry e).nice = nice ∧ (mem.entry e).flag = flag) ↔
      mem.rank e = 2 * nice + if flag then 0 else 1 := by
  rw [rank, Memory.flag]
  rcases (mem.entry e).flag with _ | _ <;> rcases flag with _ | _ <;>
    simp only [Bool.false_eq_true, Bool.true_eq_false, if_false, if_true, and_true,
      and_false, false_iff] <;> omega

/-- The entries of a rank, after one has been added: it is the last of its rank. -/
theorem separatorAdd_filter {e : ℕ} (he : (mem.entry e).nice < 2 ^ 31) {sep : List ℕ}
    (hnice : ∀ x ∈ sep, (mem.entry x).nice < 2 ^ 31)
    (hs : sep.Pairwise fun a b => mem.rank a ≤ mem.rank b) (r : ℕ) :
    (separatorAdd mem e sep).filter (fun x => decide (mem.rank x = r)) =
      (sep ++ [e]).filter fun x => decide (mem.rank x = r) := by
  induction sep with
  | nil => rfl
  | cons x xs ih =>
    obtain ⟨hx, hxs⟩ := List.pairwise_cons.mp hs
    have hcmp := entryCmp_neg he (hnice x List.mem_cons_self)
    rw [separatorAdd]
    split
    · rename_i hlt
      have hlt' := hcmp.mp hlt
      -- all of them have a greater rank
      have hgt : ∀ y ∈ x :: xs, mem.rank e < mem.rank y := by
        intro y hy
        rcases List.mem_cons.mp hy with rfl | hy
        · exact hlt'
        · exact hlt'.trans_le (hx y hy)
      by_cases her : mem.rank e = r
      · have hnil : (x :: xs).filter (fun x => decide (mem.rank x = r)) = [] := by
          refine List.filter_eq_nil_iff.mpr fun y hy => ?_
          have := hgt y hy
          simp only [decide_eq_true_iff]
          omega
        rw [List.filter_append, hnil, List.filter_cons_of_pos (by simpa using her), hnil,
          List.filter_cons_of_pos (by simpa using her)]
        rfl
      · rw [List.filter_cons_of_neg (by simpa using her), List.filter_append,
          List.filter_cons_of_neg (l := []) (by simpa using her), List.filter_nil,
          List.append_nil]
    · rw [List.cons_append, List.filter_cons, List.filter_cons,
        ih (fun y hy => hnice y (List.mem_cons_of_mem _ hy)) hxs]

end Rank

/-! ## Invariant -/

/-- What holds after every act, in terms of ranks. -/
structure SepInv (s : SepState) (arrived : List ℕ) : Prop where
  /-- each once -/
  perm : s.sep.Perm arrived
  /-- arrived once -/
  nodup : arrived.Nodup
  /-- priorities -/
  nice : ∀ e ∈ s.sep, (s.mem.entry e).nice < 2 ^ 31
  /-- sorted -/
  sorted : s.sep.Pairwise fun a b => s.mem.rank a ≤ s.mem.rank b
  /-- ties -/
  ties : ∀ r, (s.sep.filter fun e => decide (s.mem.rank e = r)) =
    arrived.filter fun e => decide (s.mem.rank e = r)

namespace SepInv

variable {s : SepState} {arrived : List ℕ} {entry : ℕ}

theorem sepSorted (h : SepInv s arrived) : SepSorted s arrived where
  nodup := h.perm.nodup_iff.mpr h.nodup
  present e := h.perm.mem_iff
  sorted := h.sorted.imp Memory.precedes_iff.mpr
  ties nice flag := by
    simp only [Memory.rank_eq_iff]
    exact h.ties _

theorem has_iff (h : SepInv s arrived) : separatorHas entry s.sep = true ↔ entry ∈ arrived := by
  rw [separatorHas, List.contains_iff_mem, h.perm.mem_iff]

theorem has_eq_false (h : SepInv s arrived) :
    separatorHas entry s.sep = false ↔ entry ∉ arrived := by
  rw [← h.has_iff, Bool.not_eq_true]

/-- An entry that is in the queue no more may be written. -/
theorem setEntry (h : SepInv s arrived) (hout : entry ∉ arrived) (e : InetPoolEntry) :
    SepInv ⟨s.mem.setEntry entry e, s.sep⟩ arrived := by
  have hsame : ∀ x ∈ s.sep, (s.mem.setEntry entry e).entry x = s.mem.entry x := by
    intro x hx
    refine Function.update_of_ne ?_ ..
    rintro rfl
    exact hout (h.perm.mem_iff.mp hx)
  have hrank : ∀ x ∈ s.sep, (s.mem.setEntry entry e).rank x = s.mem.rank x := by
    intro x hx
    rw [Memory.rank, Memory.rank, Memory.flag, Memory.flag, hsame x hx]
  refine ⟨h.perm, h.nodup, fun x hx => ?_, ?_, fun r => ?_⟩
  · rw [hsame x hx]
    exact h.nice x hx
  · refine h.sorted.imp_of_mem fun {a b} ha hb hab => ?_
    rw [hrank a ha, hrank b hb]
    exact hab
  · have hfilter : ∀ l : List ℕ, (∀ x ∈ l, x ∈ s.sep) →
        (l.filter fun x => decide ((s.mem.setEntry entry e).rank x = r)) =
          l.filter fun x => decide (s.mem.rank x = r) := fun l hl =>
      List.filter_congr fun x hx => by rw [hrank x (hl x hx)]
    rw [hfilter arrived fun x hx => h.perm.mem_iff.mpr hx]
    exact (hfilter s.sep fun x hx => hx).trans (h.ties r)

theorem erase (h : SepInv s arrived) (entry : ℕ) :
    SepInv ⟨s.mem, separatorDel entry s.sep⟩ (arrived.erase entry) := by
  refine ⟨h.perm.erase entry, h.nodup.erase entry, fun x hx => ?_, ?_, fun r => ?_⟩
  · exact h.nice x (List.mem_of_mem_erase hx)
  · exact h.sorted.sublist List.erase_sublist
  · have hnodup := h.perm.nodup_iff.mpr h.nodup
    simp only [separatorDel]
    rw [hnodup.erase_eq_filter, h.nodup.erase_eq_filter, List.filter_comm, h.ties r,
      List.filter_comm]

theorem add (h : SepInv s arrived) (hout : entry ∉ arrived)
    (hnice : (s.mem.entry entry).nice < 2 ^ 31) :
    SepInv ⟨s.mem, separatorAdd s.mem entry s.sep⟩ (arrived ++ [entry]) := by
  have hperm : (separatorAdd s.mem entry s.sep).Perm (entry :: s.sep) := separatorAdd_perm _ _
  refine ⟨?_, ?_, fun x hx => ?_, separatorAdd_sorted hnice h.nice h.sorted, fun r => ?_⟩
  · exact hperm.trans ((h.perm.cons entry).trans (List.perm_append_singleton entry arrived).symm)
  · rw [← List.concat_eq_append]
    exact h.nodup.concat hout
  · rcases List.mem_cons.mp (hperm.mem_iff.mp hx) with rfl | hx
    · exact hnice
    · exact h.nice x hx
  · exact (separatorAdd_filter hnice h.nice h.sorted r).trans (by
      rw [List.filter_append, List.filter_append, h.ties r])

/-- One act. -/
theorem exec (h : SepInv s arrived) {a : SepAct} (ha : a.NiceOk) :
    SepInv (s.exec a) (a.arrivals s arrived) := by
  cases a with
  | add entry e =>
    rw [SepState.exec, SepState.mbbUnitAddInet, SepAct.arrivals]
    by_cases hin : entry ∈ arrived
    · rw [if_pos hin, if_neg fun hh => h.has_eq_false.mp hh hin]
      exact h
    · rw [if_neg hin, if_pos (h.has_eq_false.mpr hin)]
      refine (h.setEntry hin e).add hin ?_
      simp only [Memory.setEntry, Function.update_self]
      exact ha
  | del entry =>
    rw [SepState.exec, SepState.mbbUnitDelInet, SepAct.arrivals]
    by_cases hin : entry ∈ arrived
    · rw [if_pos (h.has_iff.mpr hin)]
      exact h.erase entry
    · rw [if_neg fun hh => hin (h.has_iff.mp hh), List.erase_of_not_mem hin]
      exact h
  | modNice entry nice =>
    rw [SepState.exec, SepState.unitModInetNice, SepAct.arrivals]
    by_cases hin : entry ∈ arrived
    · rw [if_neg fun hh => h.has_eq_false.mp hh hin]
      by_cases hsame : (s.mem.entry entry).nice = nice
      · rw [if_pos hsame, if_neg fun hh => hh.2 hsame]
        exact h
      · rw [if_neg hsame, if_pos ⟨hin, hsame⟩]
        -- the order of taking out and writing does not matter
        have hout : entry ∉ arrived.erase entry := h.nodup.not_mem_erase
        refine ((h.erase entry).setEntry hout _).add hout ?_
        simp only [Memory.setEntry, Function.update_self]
        exact ha
    · rw [if_pos (h.has_eq_false.mpr hin), if_neg fun hh => hin hh.1]
      exact h

/-- Every run. -/
theorem run (acts : List SepAct) : ∀ {s : SepState} {arrived : List ℕ}, SepInv s arrived →
    (∀ a ∈ acts, a.NiceOk) →
    SepInv (runSep acts (s, arrived)).1 (runSep acts (s, arrived)).2 := by
  induction acts with
  | nil => exact fun h _ => h
  | cons a acts ih =>
    intro s arrived h hnice
    exact ih (h.exec (hnice a List.mem_cons_self)) fun b hb =>
      hnice b (List.mem_cons_of_mem _ hb)

end SepInv

/-- **The order of a separator.** Whatever is added, deleted and given another priority, the
separator lists the entries present once each, by priority and inclusive ones first, and those
of one priority and flag in the order in which they were last added or reordered. -/
theorem separator_order (mem : Memory) (acts : List SepAct) (hnice : ∀ a ∈ acts, a.NiceOk) :
    SepSorted (runSep acts (⟨mem, []⟩, [])).1 (runSep acts (⟨mem, []⟩, [])).2 := by
  refine (SepInv.run acts ⟨List.Perm.refl _, List.nodup_nil, ?_, List.Pairwise.nil, ?_⟩
    hnice).sepSorted
  · exact fun e he => nomatch he
  · exact fun r => rfl

/-- Three entries of priority 5 and one of priority 2; then the first gets priority 7 and 5
again. -/
def reorderActs : List SepAct :=
  let e (nice : ℕ) (flag : Bool) : InetPoolEntry :=
    ⟨0, ⟨0, 32, Nat.two_pow_pos 32, le_refl 32⟩, flag, -1, -1, nice, 0⟩
  [.add 1 (e 5 true), .add 2 (e 5 false), .add 3 (e 5 true), .add 4 (e 2 false), .modNice 1 7,
    .modNice 1 5]

theorem separator_order_again :
    let r := runSep reorderActs (⟨exampleMemory [], []⟩, [])
    r.1.sep = [4, 3, 1, 2] ∧ r.2 = [2, 3, 4, 1] ∧ SepSorted r.1 r.2 :=
  ⟨by decide, by decide,
    separator_order (exampleMemory []) reorderActs (by simp [reorderActs, SepAct.NiceOk])⟩

end Mbb
