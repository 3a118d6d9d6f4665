import Mbb.Slicer

/-!
# Two-dimensional maps (`mbbd/map.c`)

A map is a slicer whose data are queues: each slice of keys has a queue of entries,
an entry being a slice of a second kind of keys (`dkey`) with the data pointer that
owns it. A queue has an identity, its address, because nodes name a link by the pair
of its queue and itself.

The operations work on a `MapState`: the addresses given out so far, whatever the node
handlers of the map keep, and the `struct map_cross` of the caller. The map a slicer
belongs to (its `user_data`) stands for the handlers here. Reference counts of the
entries are left out, as entries are values.
-/

namespace Mbb

/-- `struct map_entry`, without `ref_count` -/
structure MapEntry (Q α : Type) : Type where
  /-- the second keys -/
  slice : Slice Q
  /-- the owner -/
  data : α

/-- The entry of a `struct map_data`: for `map_del` the data may be `NULL`. -/
structure MapArg (Q α : Type) : Type where
  /-- the second keys -/
  slice : Slice Q
  /-- the owner, or `NULL` -/
  data : Option α

/-- A `GQueue` of entries with its address. -/
structure MapQueue (Q α : Type) : Type where
  /-- the address -/
  id : ℕ
  /-- the links -/
  queue : Queue (MapEntry Q α)

/-- `struct map_node` -/
structure MapNode : Type where
  /-- address of the queue -/
  queue : ℕ
  /-- the link -/
  list : ℕ
  deriving DecidableEq

/-- `struct map_cross`; `found` is being there. -/
structure MapCross (Q α : Type) : Type where
  /-- the slice crossed -/
  slice : Slice Q
  /-- its owner -/
  data : α

/-- The handlers `node_add` and `node_del` of a map. They read the data of the node's
link (`map_node_get_data`) and may keep a state `ν`. -/
structure MapHandlers (ν α : Type) : Type where
  /-- a link has got data -/
  nodeAdd : MapNode → α → ν → ν
  /-- a link is about to lose its data -/
  nodeDel : MapNode → α → ν → ν

/-- The handlers of a map with null pointers there. -/
def MapHandlers.null (α : Type) : MapHandlers Unit α := ⟨fun _ _ n => n, fun _ _ n => n⟩

/-- What the data operations have effects on. -/
structure MapState (Q α ν : Type) : Type where
  /-- the next address of a queue -/
  fresh : ℕ
  /-- the state of the handlers -/
  nodes : ν
  /-- the crossing found, if any -/
  cross : Option (MapCross Q α)

variable {P Q α ν : Type} [Zero P] [DecidableEq P] [Zero Q] [DecidableEq Q] [DecidableEq α]
  (ops : SliceOps Q) (h : MapHandlers ν α)

/-! ## Queues of entries

The entries of one slice of keys. Each change of a queue is told to the handlers of the map.
-/

namespace MapQueue

/-- The entries of a queue that may be `NULL`. -/
def entries (queue : Option (MapQueue Q α)) : List (MapEntry Q α) :=
  match queue with
  | none => []
  | some q => q.queue.vals

/-- `map_node_handle_add` -/
def handleAdd (q : MapQueue Q α) (list : ℕ) (data : α) (s : MapState Q α ν) : MapState Q α ν :=
  { s with nodes := h.nodeAdd ⟨q.id, list⟩ data s.nodes }

/-- `map_node_handle_del` -/
def handleDel (q : MapQueue Q α) (list : ℕ) (data : α) (s : MapState Q α ν) : MapState Q α ν :=
  { s with nodes := h.nodeDel ⟨q.id, list⟩ data s.nodes }

/-- `map_data_insert_tail`; `map_data_add` and `map_data_dup` use it too. -/
def insertTail (q : MapQueue Q α) (cur : MapEntry Q α) (s : MapState Q α ν) :
    MapQueue Q α × MapState Q α ν :=
  (⟨q.id, q.queue.pushTail cur⟩, q.handleAdd h q.queue.fresh cur.data s)

/-- `map_data_insert_before` -/
def insertBefore (q : MapQueue Q α) (list : ℕ) (cur : MapEntry Q α) (s : MapState Q α ν) :
    MapQueue Q α × MapState Q α ν :=
  (⟨q.id, q.queue.insertBefore list cur⟩, q.handleAdd h q.queue.fresh cur.data s)

/-- `list->data = ...` -/
def setEntry (q : MapQueue Q α) (list : ℕ) (e : MapEntry Q α) : MapQueue Q α :=
  ⟨q.id, q.queue.set list e⟩

/-- `g_queue_delete_link` -/
def deleteLink (q : MapQueue Q α) (list : ℕ) : MapQueue Q α := ⟨q.id, q.queue.deleteLink list⟩

end MapQueue

/-! ## Adding

The new entry is put where it belongs, and joined with a neighbour of the same owner that it
touches; if it overlaps another entry, this is the crossing and nothing is changed.
-/

/-- `map_data_split`: the entry that joins `mea` and `meb`, when they have one owner and
the second begins right after the first. -/
def mapDataSplit (mea meb : MapEntry Q α) : Option (MapEntry Q α) :=
  if mea.data ≠ meb.data then none
  else if ops.cmp meb.slice.lo mea.slice.hi ≠ 1 then none
  else some ⟨⟨ops.dup mea.slice.lo, ops.dup meb.slice.hi⟩, mea.data⟩

/-- `map_data_split_links`: the second link goes without a word to the handlers. -/
def mapDataSplitLinks (q : MapQueue Q α) (la lb : ℕ) : MapQueue Q α :=
  match q.queue.get? la, q.queue.get? lb with
  | some ea, some eb =>
    match mapDataSplit ops ea eb with
    | some e => (q.setEntry la e).deleteLink lb
    | none => q
  | _, _ => q

/-- Where the loop of `map_data_add` ends. -/
inductive Scan (Q α : Type) : Type where
  /-- at an entry that overlaps the new one -/
  | cross (entry : MapEntry Q α)
  /-- at the first link after the new entry -/
  | before (list : ℕ)
  /-- at the end of the queue -/
  | tail

/-- The loop of `map_data_add`. -/
def mapDataScan (cur : Slice Q) : List (Link (MapEntry Q α)) → Scan Q α
  | [] => .tail
  | l :: ls =>
    if 0 < sliceCmp ops cur l.val.slice then mapDataScan cur ls
    else if sliceCmp ops cur l.val.slice < 0 then .before l.id
    else .cross l.val

/-- The end of `map_data_add` at the tail of the queue. -/
def mapDataAddTail (q : MapQueue Q α) (cur : MapEntry Q α) (s : MapState Q α ν) :
    MapQueue Q α × MapState Q α ν :=
  match q.queue.tail? with
  | none => q.insertTail h cur s
  | some last =>
    match (q.queue.get? last).bind fun p => mapDataSplit ops p cur with
    | some e => (q.setEntry last e, s)
    | none => q.insertTail h cur s

/-- The end of `map_data_add` before the link `list`. -/
def mapDataAddBefore (q : MapQueue Q α) (list : ℕ) (cur : MapEntry Q α) (s : MapState Q α ν) :
    MapQueue Q α × MapState Q α ν :=
  match q.queue.get? list with
  | none => (q, s)
  | some entry =>
    match mapDataSplit ops cur entry with
    | some e =>
      let q := q.setEntry list e
      match q.queue.prev? list with
      | none => (q, s)
      | some prev => (mapDataSplitLinks ops q prev list, s)
    | none =>
      match q.queue.prev? list with
      | none => q.insertBefore h list cur s
      | some prev =>
        match (q.queue.get? prev).bind fun p => mapDataSplit ops p cur with
        | some e => (q.setEntry prev e, s)
        | none => q.insertBefore h list cur s

/-- `map_data_add` on a queue that is there. -/
def mapDataInsert (q : MapQueue Q α) (cur : MapEntry Q α) (s : MapState Q α ν) :
    MapQueue Q α × MapState Q α ν :=
  if q.queue.length = 0 then q.insertTail h cur s
  else
    match mapDataScan ops cur.slice q.queue.links with
    | .cross entry =>
      (q, { s with cross := some ⟨⟨ops.dup entry.slice.lo, ops.dup entry.slice.hi⟩, entry.data⟩ })
    | .before list => mapDataAddBefore ops h q list cur s
    | .tail => mapDataAddTail ops h q cur s

/-- `g_queue_new` -/
def queueNew (s : MapState Q α ν) : MapQueue Q α × MapState Q α ν :=
  (⟨s.fresh, Queue.empty⟩, { s with fresh := s.fresh + 1 })

/-- The queue given, or a new one for `NULL`. -/
def queueOrNew (queue : Option (MapQueue Q α)) (s : MapState Q α ν) :
    MapQueue Q α × MapState Q α ν :=
  match queue with
  | some q => (q, s)
  | none => queueNew s

/-- `map_data_add`. Its caller `map_add` always gives an owner. -/
def mapDataAdd (queue : Option (MapQueue Q α)) (x : MapArg Q α) (s : MapState Q α ν) :
    Option (MapQueue Q α) × MapState Q α ν :=
  match x.data with
  | none => (queue, s)
  | some data =>
    if s.cross.isSome then (queue, s)
    else
      let r := queueOrNew queue s
      let r := mapDataInsert ops h r.1 ⟨x.slice, data⟩ r.2
      (some r.1, r.2)

/-! ## Deleting

What lies in the slice is cut out of each entry; an entry of which parts are left on both sides
becomes two.
-/

/-- `map_node_handle_add` for the part of a cut, if there is one, after
`g_queue_insert_before`. -/
def insertPart (q : MapQueue Q α) (list : ℕ) (part : Option (Slice Q)) (data : α)
    (s : MapState Q α ν) : MapQueue Q α × MapState Q α ν :=
  match part with
  | none => (q, s)
  | some slice => q.insertBefore h list ⟨slice, data⟩ s

/-- One pass of the loop of `map_data_del`. -/
def mapDataDelLink (x : MapArg Q α) (q : MapQueue Q α) (l : Link (MapEntry Q α))
    (s : MapState Q α ν) : MapQueue Q α × MapState Q α ν :=
  if x.data.isSome ∧ x.data ≠ some l.val.data then (q, s)
  else
    match sliceCross ops l.val.slice x.slice with
    | none => (q, s)
    | some (before, _, after) =>
      let s := q.handleDel h l.id l.val.data s
      let r := insertPart h q l.id before l.val.data s
      let r := insertPart h r.1 l.id after l.val.data r.2
      (r.1.deleteLink l.id, r.2)

/-- The loop of `map_data_del`. The links it adds stand before the current one, so it
visits the links the queue had at the start. -/
def mapDataDelLoop (x : MapArg Q α) : List (Link (MapEntry Q α)) → MapQueue Q α →
    MapState Q α ν → MapQueue Q α × MapState Q α ν
  | [], q, s => (q, s)
  | l :: ls, q, s =>
    let r := mapDataDelLink ops h x q l s
    mapDataDelLoop x ls r.1 r.2

/-- `map_data_del` -/
def mapDataDel (queue : Option (MapQueue Q α)) (x : MapArg Q α) (s : MapState Q α ν) :
    Option (MapQueue Q α) × MapState Q α ν :=
  match queue with
  | none => (none, s)
  | some q =>
    let r := mapDataDelLoop ops h x q.queue.links q s
    (if r.1.queue.length = 0 then none else some r.1, r.2)

/-! ## Copying and releasing

A slice that is cut in two needs a queue for each part. The copy has the same entries, and the
handlers hear of them as of new ones.
-/

/-- The loop of `map_data_dup`. -/
def mapDataDupLoop : List (MapEntry Q α) → MapQueue Q α → MapState Q α ν →
    MapQueue Q α × MapState Q α ν
  | [], q, s => (q, s)
  | e :: es, q, s =>
    let r := q.insertTail h e s
    mapDataDupLoop es r.1 r.2

/-- `map_data_dup` -/
def mapDataDup (queue : Option (MapQueue Q α)) (s : MapState Q α ν) :
    Option (MapQueue Q α) × MapState Q α ν :=
  match queue with
  | none => (none, s)
  | some q =>
    let r := queueNew s
    let r := mapDataDupLoop h q.queue.vals r.1 r.2
    (some r.1, r.2)

/-- `map_data_free` -/
def mapDataFree (q : MapQueue Q α) (s : MapState Q α ν) : MapState Q α ν :=
  q.queue.links.foldl (fun s l => q.handleDel h l.id l.val.data s) s

/-- `map_data_is_null` -/
def mapDataIsNull (queue : Option (MapQueue Q α)) : Bool :=
  match queue with
  | none => true
  | some q => q.queue.length == 0

/-- `map_data_ops` -/
def mapDataOps : SliceDataOps (MapState Q α ν) (MapQueue Q α) (MapArg Q α) where
  add := mapDataAdd ops h
  del := mapDataDel ops h
  dup := mapDataDup h
  free := mapDataFree h
  isNull := some mapDataIsNull

/-! ## Maps

The operations on queues are the data operations of a slicer, and the operations on maps are those
of the slicer with them.
-/

/-- The slicer of a map. -/
abbrev MapSlicer (P Q α : Type) : Type := Slicer P (MapQueue Q α)

/-- `struct map`; `none` is a `NULL` slicer. -/
abbrev Map (P Q α : Type) : Type := Option (MapSlicer P Q α)

variable (keys : SliceOps P)

/-- `map_clear` -/
def mapClear (m : Map P Q α) (s : MapState Q α ν) : Map P Q α × MapState Q α ν :=
  match m with
  | none => (none, s)
  | some sl => (none, sl.destroy (mapDataOps ops h) s)

section Change

variable [TreeShape P]

/-- `map_add`; `none` is a crash: no slicer, or no slice found. -/
def mapAdd (m : Map P Q α) (key : Slice P) (dkey : Slice Q) (ptr : α) (s : MapState Q α ν) :
    Option (Map P Q α × MapState Q α ν) :=
  match m with
  | none => none
  | some sl =>
    (sl.insert keys (mapDataOps ops h) ⟨⟨ops.dup dkey.lo, ops.dup dkey.hi⟩, some ptr⟩
      key.lo key.hi { s with cross := none }).map fun r => (some r.1, r.2)

/-- `map_del` -/
def mapDel (m : Map P Q α) (key : Slice P) (dkey : Slice Q) (ptr : Option α)
    (s : MapState Q α ν) : Option (Map P Q α × MapState Q α ν) :=
  match m with
  | none => none
  | some sl =>
    (sl.delete keys (mapDataOps ops h) ⟨⟨ops.dup dkey.lo, ops.dup dkey.hi⟩, ptr⟩
      key.lo key.hi s).map fun r => (some r.1, r.2)

/-- `map_glue_null` -/
def mapGlueNull (m : Map P Q α) (s : MapState Q α ν) : Map P Q α × MapState Q α ν :=
  match m with
  | none => (none, s)
  | some sl =>
    let r := sl.glueNull keys (mapDataOps ops h) s
    (some r.1, r.2)

end Change

/-- The loop of `map_find` over a queue. -/
def mapDataFind (dkey : Q) : List (MapEntry Q α) → Option α
  | [] => none
  | e :: es =>
    if sliceCmpPoint ops e.slice dkey = 0 then some e.data
    else if 0 < sliceCmpPoint ops e.slice dkey then none
    else mapDataFind dkey es

/-- `map_find`; a map without slicer is dereferenced there, which is the outer `none`. -/
def mapFind (m : Map P Q α) (key : P) (dkey : Q) : Option (Option α) :=
  m.map fun sl => mapDataFind ops dkey (MapQueue.entries (sl.find keys key))

/-- `map_data_search`: what is found is prepended to `found`. -/
def mapDataSearch (dkey : Slice Q) : List (MapEntry Q α) → List α → List α
  | [], found => found
  | e :: es, found =>
    mapDataSearch dkey es (if sliceCmp ops dkey e.slice = 0 then e.data :: found else found)

/-- `map_search`; a map without slicer is dereferenced there, or no slice is found, which is
`none`. -/
def mapSearch (m : Map P Q α) (key : Slice P) (dkey : Slice Q) : Option (List α) :=
  match m with
  | none => none
  | some sl =>
    (sl.search keys key.lo key.hi).map fun keyQueue =>
      match keyQueue with
      | none => []
      | some qs => qs.foldl (fun found q => mapDataSearch ops dkey q.queue.vals found) []

/-! ## Removing links directly

Nodes remember where their links are, so a link can be removed without looking for it.
-/

/-- A function applied to the data of each entry of a slicer. -/
def Slicer.mapData {D : Type} (f : D → D) (sl : Slicer P D) : Slicer P D :=
  { sl with queue := sl.queue.mapVals fun e => { e with data := e.data.map f } }

/-- `map_data_remove_custom` -/
def mapDataRemoveCustom (cmp : α → Bool) (q : MapQueue Q α) : MapQueue Q α :=
  ⟨q.id, q.queue.links.foldl (fun qu l => if cmp l.val.data then qu.deleteLink l.id else qu)
    q.queue⟩

/-- `map_remove_custom` -/
def mapRemoveCustom (cmp : α → Bool) (m : Map P Q α) : Map P Q α :=
  m.map (Slicer.mapData (mapDataRemoveCustom cmp))

/-- `map_node_remove`: the queue of the node lies somewhere in the map. `none` is the use
of a node whose queue or link is gone. -/
def mapNodeRemove (node : MapNode) (m : Map P Q α) : Option (Map P Q α) :=
  match m with
  | none => none
  | some sl =>
    if sl.entries.any fun e => match e.data with
        | none => false
        | some q => q.id == node.queue && (q.queue.get? node.list).isSome
    then some (some (sl.mapData fun q => if q.id = node.queue then q.deleteLink node.list else q))
    else none

/-! ## Iteration -/

/-- The pairs of slice and entry that `map_iter_next` and `map_data_iter_next` visit,
in order. -/
def mapRects (m : Map P Q α) : List (Slice P × MapEntry Q α) :=
  match m with
  | none => []
  | some sl => sl.entries.flatMap fun e => (MapQueue.entries e.data).map fun me => (e.slice, me)

end Mbb
