import Mathlib.Data.List.Perm.Basic

/-!
# Hash tables over memory

A table keeps pointers to keys, and beside each of them the hash that the key had when it was
inserted. What a pointer leads to may change meanwhile, so `read` is the memory at the time of a
call. `Indexes` says that a table has the objects of a roll, each under the key that it has now; an
object may be written to only while it is not on the roll.
-/

namespace Mbb

/-- A node of a table. -/
structure HashNode (P V H : Type) : Type where
  /-- hash of the key, as it was -/
  hash : H
  /-- pointer to the key -/
  key : P
  /-- value -/
  value : V

namespace HashTable

variable {P V K H : Type} [DecidableEq K] [DecidableEq H] (hash : K → H) (read : P → K)

/-- The node is the one of a key. -/
def hit (k : K) (n : HashNode P V H) : Bool := decide (n.hash = hash k ∧ read n.key = k)

/-- `g_hash_table_lookup` -/
def lookup (ht : List (HashNode P V H)) (k : K) : Option V :=
  (ht.find? (hit hash read k)).map HashNode.value

/-- `g_hash_table_insert`: a key that is there stays, and its value is replaced. -/
def insert (ht : List (HashNode P V H)) (p : P) (v : V) : List (HashNode P V H) :=
  match ht with
  | [] => [⟨hash (read p), p, v⟩]
  | n :: ht => if hit hash read (read p) n then { n with value := v } :: ht else n :: insert ht p v

/-- `g_hash_table_remove` -/
def remove (ht : List (HashNode P V H)) (k : K) : List (HashNode P V H) :=
  ht.eraseP (hit hash read k)

/-! ## Tables of objects

The table knows an object by the hash that it had. As long as a key does not change while its object
is in the table, the bucket is right.
-/

/-- The node of an object: it is the value, and the key is in it. -/
def node (p : P) : HashNode P P H := ⟨hash (read p), p, p⟩

/-- The table has the objects of the roll, and no two of them have one key. -/
structure Indexes (ht : List (HashNode P P H)) (roll : List P) : Prop where
  perm : ht.Perm (roll.map (node hash read))
  inj : ∀ p ∈ roll, ∀ q ∈ roll, read p = read q → p = q
  nodup : roll.Nodup

variable {hash read} {ht : List (HashNode P P H)} {roll : List P} {p : P} {k : K}

@[simp] theorem hit_node : hit hash read k (node hash read p) ↔ read p = k := by
  rw [hit, decide_eq_true_iff, node]
  constructor
  · exact fun h => h.2
  · rintro rfl
    exact ⟨rfl, rfl⟩

theorem insert_of_no_hit {v : P} (h : ∀ n ∈ ht, ¬ hit hash read (read p) n) :
    insert hash read ht p v = ht ++ [⟨hash (read p), p, v⟩] := by
  induction ht with
  | nil => rfl
  | cons n ht ih =>
    rw [insert, if_neg (h n List.mem_cons_self), List.cons_append,
      ih fun n hn => h n (List.mem_cons_of_mem _ hn)]

namespace Indexes

omit [DecidableEq K] [DecidableEq H] in
theorem nil : Indexes hash read ([] : List (HashNode P P H)) [] :=
  ⟨List.Perm.refl _, by simp, List.nodup_nil⟩

omit [DecidableEq K] [DecidableEq H] in
theorem mem_iff (h : Indexes hash read ht roll) {n : HashNode P P H} :
    n ∈ ht ↔ ∃ p ∈ roll, node hash read p = n := by rw [h.perm.mem_iff, List.mem_map]

/-- What is found is the object on the roll that has the key. -/
theorem lookup_eq_some (h : Indexes hash read ht roll) :
    lookup hash read ht k = some p ↔ p ∈ roll ∧ read p = k := by
  constructor
  · intro hfind
    obtain ⟨n, hn, rfl⟩ := Option.map_eq_some_iff.mp hfind
    obtain ⟨q, hq, rfl⟩ := h.mem_iff.mp (List.mem_of_find?_eq_some hn)
    exact ⟨hq, hit_node.mp (List.find?_some hn)⟩
  · rintro ⟨hp, rfl⟩
    have hmem : node hash read p ∈ ht := h.mem_iff.mpr ⟨p, hp, rfl⟩
    cases hfind : ht.find? (hit hash read (read p)) with
    | none => exact absurd (hit_node.mpr rfl) (List.find?_eq_none.mp hfind _ hmem)
    | some n =>
      obtain ⟨q, hq, rfl⟩ := h.mem_iff.mp (List.mem_of_find?_eq_some hfind)
      obtain rfl := h.inj q hq p hp (hit_node.mp (List.find?_some hfind))
      rw [lookup, hfind]
      rfl

/-- An object with a new key is inserted. -/
theorem insert (h : Indexes hash read ht roll) (hnew : ∀ q ∈ roll, read q ≠ read p) :
    Indexes hash read (HashTable.insert hash read ht p p) (p :: roll) where
  perm := by
    rw [insert_of_no_hit fun n hn => by
      obtain ⟨q, hq, rfl⟩ := h.mem_iff.mp hn
      exact fun hhit => hnew q hq (hit_node.mp hhit)]
    exact (List.perm_append_singleton _ ht).trans (h.perm.cons _)
  inj := by
    intro a ha b hb hab
    rcases List.mem_cons.mp ha with rfl | ha'
    · rcases List.mem_cons.mp hb with rfl | hb'
      · rfl
      · exact absurd hab.symm (hnew b hb')
    · rcases List.mem_cons.mp hb with rfl | hb'
      · exact absurd hab (hnew a ha')
      · exact h.inj a ha' b hb' hab
  nodup := List.nodup_cons.mpr ⟨fun hp => hnew p hp rfl, h.nodup⟩

/-- An object is removed by the key that it has. -/
theorem remove [DecidableEq P] (h : Indexes hash read ht roll) (hp : p ∈ roll) :
    Indexes hash read (HashTable.remove hash read ht (read p)) (roll.erase p) where
  perm := by
    have hmem : node hash read p ∈ ht := h.mem_iff.mpr ⟨p, hp, rfl⟩
    obtain ⟨n, l1, l2, -, hhit, heq, herase⟩ := List.exists_of_eraseP hmem (hit_node.mpr rfl)
    -- no other object has the key
    obtain ⟨q, hq, rfl⟩ := h.mem_iff.mp (heq ▸ List.mem_append_right l1 List.mem_cons_self)
    obtain rfl := h.inj q hq p hp (hit_node.mp hhit)
    rw [HashTable.remove, herase]
    have hht : (node hash read q :: (l1 ++ l2)).Perm ht := by
      rw [heq]
      exact List.perm_middle.symm
    exact (hht.trans (h.perm.trans ((List.perm_cons_erase hq).map _))).cons_inv
  inj := fun a ha b hb => h.inj a (List.mem_of_mem_erase ha) b (List.mem_of_mem_erase hb)
  nodup := h.nodup.erase p

omit [DecidableEq K] [DecidableEq H] in
/-- Objects that are not on the roll may change. -/
theorem congr {read' : P → K} (h : Indexes hash read ht roll)
    (hread : ∀ p ∈ roll, read' p = read p) : Indexes hash read' ht roll where
  perm := by
    have hmap : roll.map (node hash read') = roll.map (node hash read) :=
      List.map_congr_left fun p hp => by rw [node, node, hread p hp]
    rw [hmap]
    exact h.perm
  inj := fun p hp q hq hpq => h.inj p hp q hq (by rw [← hread p hp, ← hread q hq, hpq])
  nodup := h.nodup

end Indexes

end HashTable

end Mbb
