import Mbb.Lib.Queue
import Mbb.Lib.SearchTree
import Mbb.Lib.Span

/-!
# The slicer (`mbbd/slicer.c`)

A slicer cuts a range of keys into slices and keeps data with each slice. The
slices stand in a queue; a search tree, in which two slices count as equal when
they overlap, leads from a range to the link of some slice it overlaps.

Keys are pointers: `0` is `NULL`. As the begin of a slice `NULL` is minus
infinity, as its end plus infinity. The data operations may have effects (they
announce nodes, allocate, report a crossing), so they pass a state `σ`; the
result `none` of an operation is an assertion failure, the end of the process.
-/

namespace Mbb

/-- `struct slice`: `lo` is `begin`, `hi` is `end`. -/
abbrev Slice (P : Type) : Type := Span P

/-- `struct slice_ops`, without `free`. -/
structure SliceOps (P : Type) : Type where
  /-- compare two keys -/
  cmp : P → P → Int
  /-- copy a key -/
  dup : P → P
  /-- the next key -/
  inc : P → P
  /-- the previous key -/
  dec : P → P

/-- `struct slice_data_ops`: `D` is the slice data (`none` is `NULL`), `X` the
argument of `add` and `del`, `σ` what the operations have effects on. -/
structure SliceDataOps (σ D X : Type) : Type where
  /-- add an element to the data -/
  add : Option D → X → σ → Option D × σ
  /-- delete an element from the data -/
  del : Option D → X → σ → Option D × σ
  /-- copy the data -/
  dup : Option D → σ → Option D × σ
  /-- release the data -/
  free : D → σ → σ
  /-- does the data hold nothing; a null pointer here when not provided -/
  isNull : Option (Option D → Bool)

/-- `struct slicer_entry` -/
structure SlicerEntry (P D : Type) : Type where
  /-- the slice -/
  slice : Slice P
  /-- its data -/
  data : Option D

/-- `struct slicer`; the tree maps slices to the identities of their links. -/
structure Slicer (P D : Type) : Type where
  /-- the entries in order -/
  queue : Queue (SlicerEntry P D)
  /-- from a slice to its link -/
  tree : Tree (Slice P) ℕ
  /-- number of entries with data, as the code counts them -/
  count : Int

/-- How `GTree` rebalances itself: any reshaping that keeps the order. -/
class TreeShape (P : Type) : Type where
  /-- applied after each insertion and removal -/
  balance : Balance (Slice P) ℕ

/-- A tree that is never rebalanced. -/
abbrev TreeShape.plain (P : Type) : TreeShape P := ⟨Balance.none (Slice P) ℕ⟩

variable {P : Type} [Zero P] [DecidableEq P] (o : SliceOps P)

/-! ## Comparisons -/

/-- `begin_end_cmp` -/
def beginEndCmp (b e : P) : Int :=
  if b = 0 ∨ e = 0 then -1 else o.cmp b e

/-- `end_begin_cmp` -/
def endBeginCmp (e b : P) : Int :=
  if e = 0 ∨ b = 0 then 1 else o.cmp e b

/-- `begin_begin_cmp` -/
def beginBeginCmp (b₁ b₂ : P) : Int :=
  if b₁ = 0 ∧ b₂ = 0 then 0
  else if b₁ = 0 then -1
  else if b₂ = 0 then 1
  else o.cmp b₁ b₂

/-- `end_end_cmp` -/
def endEndCmp (e₁ e₂ : P) : Int :=
  if e₁ = 0 ∧ e₂ = 0 then 0
  else if e₁ = 0 then 1
  else if e₂ = 0 then -1
  else o.cmp e₁ e₂

/-- `slice_cmp`: zero when the slices overlap. -/
def sliceCmp (a b : Slice P) : Int :=
  if endBeginCmp o a.hi b.lo < 0 then -1
  else if 0 < beginEndCmp o a.lo b.hi then 1
  else 0

/-- `slice_cross`: the parts of `a` before, inside and after `b`; `none` when the
two do not overlap (all three pointers are set to `NULL` there). -/
def sliceCross (a b : Slice P) : Option (Option (Slice P) × Slice P × Option (Slice P)) :=
  if sliceCmp o a b ≠ 0 then none
  else
    let left := if 0 ≤ beginBeginCmp o a.lo b.lo then (a.lo, none)
      else (b.lo, some ⟨o.dup a.lo, o.dec (o.dup b.lo)⟩)
    let right := if 0 ≤ endEndCmp o b.hi a.hi then (a.hi, none)
      else (b.hi, some ⟨o.inc (o.dup b.hi), o.dup a.hi⟩)
    some (left.2, ⟨o.dup left.1, o.dup right.1⟩, right.2)

/-- `slice_cmp_point` -/
def sliceCmpPoint (s : Slice P) (p : P) : Int :=
  if s.lo ≠ 0 ∧ o.cmp p s.lo < 0 then 1
  else if s.hi ≠ 0 ∧ o.cmp s.hi p < 0 then -1
  else 0

/-! ## The tree

The tree holds slices by the order of `slice_cmp`, with the link of each. Its shape is a parameter,
since a lookup may come upon any slice of the range.
-/

section Tree

variable [TreeShape P]

/-- `g_tree_insert` with `slice_cmp` -/
def treeInsert (t : Tree (Slice P) ℕ) (s : Slice P) (link : ℕ) : Tree (Slice P) ℕ :=
  TreeShape.balance.run (t.insert (sliceCmp o s) s link)

/-- `g_tree_remove` with `slice_cmp` -/
def treeRemove (t : Tree (Slice P) ℕ) (s : Slice P) : Tree (Slice P) ℕ :=
  TreeShape.balance.run (t.remove (sliceCmp o s))

end Tree

/-- `g_tree_lookup` with `slice_cmp` -/
def treeLookup (t : Tree (Slice P) ℕ) (s : Slice P) : Option ℕ := t.lookup (sliceCmp o s)

/-! ## Changing a range

From the slice that was found the change goes on in both directions, cuts the slices at the ends of
the range, and does the operation on each that lies inside.
-/

namespace Slicer

variable {σ D X : Type} (d : SliceDataOps σ D X)

/-- The entries in queue order. -/
def entries (sl : Slicer P D) : List (SlicerEntry P D) := sl.queue.vals

section Change

variable [TreeShape P]

/-- `insert_before` -/
def insertBefore (sl : Slicer P D) (next : Option ℕ) (entry : SlicerEntry P D) : Slicer P D where
  queue := match next with
    | some n => sl.queue.insertBefore n entry
    | none => sl.queue.pushTail entry
  tree := treeInsert o sl.tree entry.slice sl.queue.fresh
  count := sl.count

/-- `insert_dup` -/
def insertDup (sl : Slicer P D) (next : Option ℕ) (data : Option D) (slice : Slice P) (s : σ) :
    Slicer P D × σ :=
  let r := d.dup data s
  let sl := sl.insertBefore o next ⟨slice, r.1⟩
  (if r.1.isSome then { sl with count := sl.count + 1 } else sl, r.2)

/-- `insert_dup` of a part of a cut, if there is one. -/
def insertDupIf (sl : Slicer P D) (next : Option ℕ) (data : Option D) (part : Option (Slice P))
    (s : σ) : Slicer P D × σ :=
  match part with
  | some slice => sl.insertDup o d next data slice s
  | none => (sl, s)

/-- What `insert_add` and `insert_del` have in common: copy the current data, apply
`op`, insert the result, and count it when `counted` says so. -/
def insertOp (op : Option D → X → σ → Option D × σ) (counted : Option D → Bool)
    (sl : Slicer P D) (next : Option ℕ) (cur : Option D) (x : X) (slice : Slice P) (s : σ) :
    Slicer P D × σ :=
  let r := d.dup cur s
  let r := op r.1 x r.2
  let sl := sl.insertBefore o next ⟨slice, r.1⟩
  (if counted r.1 then { sl with count := sl.count + 1 } else sl, r.2)

/-- `op_func_t` -/
abbrev OpFunc (P σ D X : Type) : Type :=
  Slicer P D → Option ℕ → Option D → X → Slice P → σ → Slicer P D × σ

/-- `insert_add`: the result is counted even when it is `NULL`. -/
def insertAdd : OpFunc P σ D X := insertOp o d d.add fun _ => true

/-- `insert_del` -/
def insertDel : OpFunc P σ D X := insertOp o d d.del Option.isSome

/-- `slicer_entry_free` -/
def entryFree (sl : Slicer P D) (entry : SlicerEntry P D) (s : σ) : Slicer P D × σ :=
  match entry.data with
  | none => (sl, s)
  | some data => ({ sl with count := sl.count - 1 }, d.free data s)

/-- `change_data`; `none` is the result 0: the slice of the link is not touched.
The test of `slice_cmp` at its start is the one `slice_cross` begins with. -/
def changeData (sl : Slicer P D) (list : ℕ) (x : X) (new : Slice P) (func : OpFunc P σ D X)
    (s : σ) : Option (Slicer P D × σ) :=
  match sl.queue.get? list with
  | none => none
  | some entry =>
    match sliceCross o entry.slice new with
    | none => none
    | some (before, mid, after) =>
      let next := sl.queue.next? list
      let sl : Slicer P D :=
        ⟨sl.queue.deleteLink list, treeRemove o sl.tree entry.slice, sl.count⟩
      let r := sl.insertDupIf o d next entry.data before s
      let r := func r.1 next entry.data x mid r.2
      let r := r.1.insertDupIf o d next entry.data after r.2
      some (r.1.entryFree d entry r.2)

/-- The first loop of `slicer_apply_change`: from the link found towards the tail. -/
def changeForward (x : X) (new : Slice P) (func : OpFunc P σ D X) :
    ℕ → Slicer P D → Option ℕ → σ → Slicer P D × σ
  | fuel + 1, sl, some list, s =>
    let next := sl.queue.next? list
    match sl.changeData o d list x new func s with
    | none => (sl, s)
    | some r => changeForward x new func fuel r.1 next r.2
  | _, sl, _, s => (sl, s)

/-- The second loop of `slicer_apply_change`: from the link before it towards the head. -/
def changeBackward (x : X) (new : Slice P) (func : OpFunc P σ D X) :
    ℕ → Slicer P D → Option ℕ → σ → Slicer P D × σ
  | fuel + 1, sl, some list, s =>
    let prev := sl.queue.prev? list
    match sl.changeData o d list x new func s with
    | none => (sl, s)
    | some r => changeBackward x new func fuel r.1 prev r.2
  | _, sl, _, s => (sl, s)

/-- `slicer_apply_change` on a range that is not skipped. The loops visit each link once
at most, so the length of the queue bounds them; `none` is the failed assertion on the
lookup. -/
def changeRange (sl : Slicer P D) (x : X) (b e : P) (func : OpFunc P σ D X) (s : σ) :
    Option (Slicer P D × σ) :=
  match treeLookup o sl.tree ⟨b, e⟩ with
  | none => none
  | some list =>
    let prev := sl.queue.prev? list
    let r := changeForward o d x ⟨b, e⟩ func sl.queue.length sl (some list) s
    some (changeBackward o d x ⟨b, e⟩ func sl.queue.length r.1 prev r.2)

/-- `slicer_apply_change`: a range whose begin is after its end is skipped. -/
def applyChange (sl : Slicer P D) (x : X) (b e : P) (func : OpFunc P σ D X) (s : σ) :
    Option (Slicer P D × σ) :=
  if 0 < beginEndCmp o b e then some (sl, s) else sl.changeRange o d x b e func s

/-- `slicer_insert` -/
def insert (sl : Slicer P D) (x : X) (b e : P) (s : σ) : Option (Slicer P D × σ) :=
  sl.applyChange o d x b e (insertAdd o d) s

/-- `slicer_delete` -/
def delete (sl : Slicer P D) (x : X) (b e : P) (s : σ) : Option (Slicer P D × σ) :=
  sl.applyChange o d x b e (insertDel o d) s

/-! ## Creation, lookup, iteration -/

/-- `slicer_new` -/
def new : Slicer P D := ⟨Queue.empty, Tree.nil, 0⟩

/-- `slicer_init` with `NULL` data, as both callers give it. -/
def init (sl : Slicer P D) (b e : P) : Slicer P D :=
  if sl.queue.length = 0 then
    let b := if b ≠ 0 then o.dup b else b
    let e := if e ≠ 0 then o.dup e else e
    ⟨sl.queue.pushHead ⟨⟨b, e⟩, none⟩, treeInsert o sl.tree ⟨b, e⟩ sl.queue.fresh, sl.count⟩
  else sl

end Change

/-- `slicer_find`: the outer `Option` of the data is `NULL`. A tree node always
leads to a link of the queue, otherwise there is nothing to read. -/
def find (sl : Slicer P D) (point : P) : Option D :=
  match sl.tree.lookup fun s => -sliceCmpPoint o s point with
  | none => none
  | some list => (sl.queue.get? list).bind SlicerEntry.data

/-- The first loop of `slicer_search`: the data found is pushed to the tail of `queue`. -/
def searchForward (sl : Slicer P D) (slice : Slice P) : ℕ → Option ℕ → List D → List D
  | fuel + 1, some list, queue =>
    match sl.queue.get? list with
    | none => queue
    | some entry =>
      if sliceCmp o slice entry.slice ≠ 0 then queue
      else searchForward sl slice fuel (sl.queue.next? list) (queue ++ entry.data.toList)
  | _, _, queue => queue

/-- The second loop: the data found is pushed to the head of `queue`. -/
def searchBackward (sl : Slicer P D) (slice : Slice P) : ℕ → Option ℕ → List D → List D
  | fuel + 1, some list, queue =>
    match sl.queue.get? list with
    | none => queue
    | some entry =>
      if sliceCmp o slice entry.slice ≠ 0 then queue
      else searchBackward sl slice fuel (sl.queue.prev? list) (entry.data.toList ++ queue)
  | _, _, queue => queue

/-- `slicer_search`: the outer `none` is the failed assertion on the lookup, the inner one the
result `NULL`. The loops visit each link once at most. -/
def search (sl : Slicer P D) (b e : P) : Option (Option (List D)) :=
  match treeLookup o sl.tree ⟨b, e⟩ with
  | none => none
  | some list =>
    match sl.queue.get? list with
    | none => none
    | some entry =>
      let queue := entry.data.toList
      let queue := sl.searchForward o ⟨b, e⟩ sl.queue.length (sl.queue.next? list) queue
      let queue := sl.searchBackward o ⟨b, e⟩ sl.queue.length (sl.queue.prev? list) queue
      some (if queue.length = 0 then none else some queue)

/-- The data of all entries released in queue order (`slicer_destroy`). -/
def destroy (sl : Slicer P D) (s : σ) : σ :=
  sl.entries.foldl (fun s entry => match entry.data with
    | none => s
    | some data => d.free data s) s

/-! ## Gluing

Neighbours without data become one slice.
-/

section Glue

variable [TreeShape P]

/-- The loop of `slicer_glue`: remove the links from `from` up to, not including, `to`. -/
def glueRemove : ℕ → Slicer P D → Option ℕ → Option ℕ → σ → Slicer P D × σ
  | fuel + 1, sl, some list, lto, s =>
    if some list = lto then (sl, s)
    else
      match sl.queue.get? list with
      | none => (sl, s)
      | some entry =>
        let next := sl.queue.next? list
        let sl : Slicer P D :=
          ⟨sl.queue.deleteLink list, treeRemove o sl.tree entry.slice, sl.count⟩
        let r := sl.entryFree d entry s
        glueRemove fuel r.1 next lto r.2
  | _, sl, _, _, s => (sl, s)

/-- `slicer_glue` -/
def glue (sl : Slicer P D) (lfrom lto : ℕ) (s : σ) : Slicer P D × σ :=
  if lfrom = lto then (sl, s)
  else
    match sl.queue.get? lfrom, sl.queue.get? lto with
    | some first, some last =>
      let slice : Slice P := ⟨o.dup first.slice.lo, o.dup last.slice.hi⟩
      let stop := sl.queue.next? lto
      let r := glueRemove o d sl.queue.length sl (some lfrom) stop s
      (r.1.insertBefore o stop ⟨slice, none⟩, r.2)
    | _, _ => (sl, s)

/-- The glue of a run of null entries, when both its ends are set. -/
def glueRun (sl : Slicer P D) (lfrom lto : Option ℕ) (s : σ) : Slicer P D × σ :=
  match lfrom, lto with
  | some f, some t => sl.glue o d f t s
  | _, _ => (sl, s)

/-- The loop of `slicer_glue_null`; `lfrom` and `lto` bound the run of null entries
seen so far. -/
def glueNullLoop (isNull : Option D → Bool) :
    ℕ → Slicer P D → Option ℕ → Option ℕ → Option ℕ → σ → Slicer P D × σ
  | fuel + 1, sl, some list, lfrom, lto, s =>
    match sl.queue.get? list with
    | none => (sl, s)
    | some entry =>
      if isNull entry.data then
        glueNullLoop isNull fuel sl (sl.queue.next? list)
          (if lfrom.isSome then lfrom else some list)
          (if lfrom.isSome then some list else none) s
      else
        let r := sl.glueRun o d lfrom lto s
        glueNullLoop isNull fuel r.1 (r.1.queue.next? list) none none r.2
  | _, sl, _, lfrom, lto, s => sl.glueRun o d lfrom lto s

/-- `slicer_glue_null` -/
def glueNull (sl : Slicer P D) (s : σ) : Slicer P D × σ :=
  match d.isNull with
  | none => (sl, s)
  | some isNull => glueNullLoop o d isNull sl.queue.length sl sl.queue.head? none none s

end Glue

end Slicer

end Mbb
