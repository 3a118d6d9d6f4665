import Mathlib.Data.List.Nodup

/-!
# Queues of links with identity

A doubly linked queue seen through the identities of its links: other structures
keep pointers to a link, so insertion and removal have to leave every other link
where it was. A link is an identity and a value; `fresh` bounds the identities
ever used, so a new link never gets the identity of an old one.

Each operation is specified on the shape `A ++ l :: B` of the list of links, with
`l` the link it is given.
-/

namespace Mbb

universe u

/-- A link of a queue: its identity and its value. -/
structure Link (α : Type u) : Type u where
  /-- identity of the link -/
  id : ℕ
  /-- value stored in the link -/
  val : α
  deriving DecidableEq, Repr

/-- A queue: its links in order, with distinct identities below `fresh`. -/
structure Queue (α : Type u) : Type u where
  /-- the links from head to tail -/
  links : List (Link α)
  /-- the next unused identity -/
  fresh : ℕ
  /-- a link is in the queue once -/
  nodup : (links.map Link.id).Nodup
  /-- used identities are below `fresh` -/
  id_lt : ∀ l ∈ links, l.id < fresh

namespace Queue

variable {α : Type u}

/-- Two queues with the same links and the same `fresh` are equal. -/
@[ext] theorem ext {q q' : Queue α} (hl : q.links = q'.links) (hf : q.fresh = q'.fresh) :
    q = q' := by
  cases q
  cases q'
  simp only at hl hf
  subst hl
  subst hf
  rfl

/-- The values from head to tail. -/
def vals (q : Queue α) : List α := q.links.map Link.val

/-- The queue without links. -/
def empty : Queue α := ⟨[], 0, List.nodup_nil, by simp⟩

/-- The number of links. -/
def length (q : Queue α) : ℕ := q.links.length

/-- The link with identity `i`. -/
def get? (q : Queue α) (i : ℕ) : Option α := (q.links.find? (·.id == i)).map Link.val

/-- The identity of the first link. -/
def head? (q : Queue α) : Option ℕ := q.links.head?.map Link.id

/-- The identity of the last link. -/
def tail? (q : Queue α) : Option ℕ := q.links.getLast?.map Link.id

/-- The identity of the link after the one with identity `i`. -/
def nextIn (i : ℕ) : List (Link α) → Option ℕ
  | [] => none
  | l :: ls => if l.id = i then ls.head?.map Link.id else nextIn i ls

/-- The link after `i`. -/
def next? (q : Queue α) (i : ℕ) : Option ℕ := nextIn i q.links

/-- The link before `i`. -/
def prev? (q : Queue α) (i : ℕ) : Option ℕ := nextIn i q.links.reverse

/-- The list of links with `n` put before the link `i`. -/
def insertIn (i : ℕ) (n : Link α) : List (Link α) → List (Link α)
  | [] => []
  | l :: ls => if l.id = i then n :: l :: ls else l :: insertIn i n ls

/-- Insertion puts the link in once or, if there is no link `i`, not at all. -/
theorem insertIn_ids (i : ℕ) (n : Link α) (ls : List (Link α)) :
    insertIn i n ls = ls ∨ (insertIn i n ls).Perm (n :: ls) := by
  induction ls with
  | nil => exact Or.inl rfl
  | cons l ls ih =>
    simp only [insertIn]
    split
    · exact Or.inr (List.Perm.refl _)
    · rcases ih with ih | ih
      · exact Or.inl (by rw [ih])
      · exact Or.inr ((ih.cons l).trans (List.Perm.swap n l ls))

/-- A new link holding `a`, before the link `i`. -/
def insertBefore (q : Queue α) (i : ℕ) (a : α) : Queue α where
  links := insertIn i ⟨q.fresh, a⟩ q.links
  fresh := q.fresh + 1
  nodup := by
    rcases insertIn_ids i ⟨q.fresh, a⟩ q.links with h | h
    · rw [h]
      exact q.nodup
    · rw [(h.map Link.id).nodup_iff, List.map_cons, List.nodup_cons]
      refine ⟨fun hmem => ?_, q.nodup⟩
      obtain ⟨l, hl, heq⟩ := List.mem_map.mp hmem
      exact absurd heq (Nat.ne_of_lt (q.id_lt l hl))
  id_lt := by
    intro l hl
    rcases insertIn_ids i ⟨q.fresh, a⟩ q.links with h | h
    · rw [h] at hl
      exact Nat.lt_succ_of_lt (q.id_lt l hl)
    · rcases List.mem_cons.mp (h.mem_iff.mp hl) with rfl | hl
      · exact Nat.lt_succ_self _
      · exact Nat.lt_succ_of_lt (q.id_lt l hl)

/-- A new link holding `a`, at the tail. -/
def pushTail (q : Queue α) (a : α) : Queue α where
  links := q.links ++ [⟨q.fresh, a⟩]
  fresh := q.fresh + 1
  nodup := by
    rw [List.map_append, List.nodup_append]
    refine ⟨q.nodup, by simp, ?_⟩
    intro i hi j hj
    obtain ⟨l, hl, rfl⟩ := List.mem_map.mp hi
    have := q.id_lt l hl
    simp only [List.map_cons, List.map_nil, List.mem_singleton] at hj
    omega
  id_lt := by
    intro l hl
    rcases List.mem_append.mp hl with hl | hl
    · exact Nat.lt_succ_of_lt (q.id_lt l hl)
    · obtain rfl := List.mem_singleton.mp hl
      exact Nat.lt_succ_self _

/-- A new link holding `a`, at the head. -/
def pushHead (q : Queue α) (a : α) : Queue α where
  links := ⟨q.fresh, a⟩ :: q.links
  fresh := q.fresh + 1
  nodup := by
    rw [List.map_cons, List.nodup_cons]
    refine ⟨fun hmem => ?_, q.nodup⟩
    obtain ⟨l, hl, heq⟩ := List.mem_map.mp hmem
    exact absurd heq (Nat.ne_of_lt (q.id_lt l hl))
  id_lt := by
    intro l hl
    rcases List.mem_cons.mp hl with rfl | hl
    · exact Nat.lt_succ_self _
    · exact Nat.lt_succ_of_lt (q.id_lt l hl)

/-- The queue without the link `i`. -/
def deleteLink (q : Queue α) (i : ℕ) : Queue α where
  links := q.links.filter (·.id != i)
  fresh := q.fresh
  nodup := (List.filter_sublist.map Link.id).nodup q.nodup
  id_lt := fun l hl => q.id_lt l (List.mem_of_mem_filter hl)

/-- The queue with the links that satisfy `p`. -/
def keep (p : Link α → Bool) (q : Queue α) : Queue α where
  links := q.links.filter p
  fresh := q.fresh
  nodup := (List.filter_sublist.map Link.id).nodup q.nodup
  id_lt := fun l hl => q.id_lt l (List.mem_of_mem_filter hl)

/-- The queue with the value of the link `i` replaced. -/
def set (q : Queue α) (i : ℕ) (a : α) : Queue α where
  links := q.links.map fun l => if l.id = i then ⟨l.id, a⟩ else l
  fresh := q.fresh
  nodup := by
    have : (q.links.map fun l => if l.id = i then (⟨l.id, a⟩ : Link α) else l).map Link.id =
        q.links.map Link.id := by
      rw [List.map_map]
      refine List.map_congr_left fun l _ => ?_
      simp only [Function.comp]
      split <;> rfl
    rw [this]
    exact q.nodup
  id_lt := by
    intro l hl
    obtain ⟨l', hl', rfl⟩ := List.mem_map.mp hl
    have := q.id_lt l' hl'
    split <;> exact this

/-- The queue with a function applied to each value. -/
def mapVals {β : Type u} (f : α → β) (q : Queue α) : Queue β where
  links := q.links.map fun l => ⟨l.id, f l.val⟩
  fresh := q.fresh
  nodup := by
    rw [List.map_map]
    exact q.nodup
  id_lt := by
    intro l hl
    obtain ⟨l', hl', rfl⟩ := List.mem_map.mp hl
    exact q.id_lt l' hl'

/-! ## The operations at `A ++ l :: B`

Identities are distinct, so a search for the identity of `l` passes the whole of `A` and stops at
`l`; nothing else is needed to say what an operation does there.
-/

variable {q : Queue α} {A B : List (Link α)} {l : Link α}

/-- The links before `l` have other identities. -/
theorem id_ne_left (h : q.links = A ++ l :: B) : ∀ m ∈ A, m.id ≠ l.id := by
  intro m hm heq
  have hn := q.nodup
  rw [h, List.map_append, List.map_cons, List.nodup_append] at hn
  exact hn.2.2 _ (List.mem_map_of_mem hm) _ List.mem_cons_self heq

/-- The links after `l` have other identities. -/
theorem id_ne_right (h : q.links = A ++ l :: B) : ∀ m ∈ B, m.id ≠ l.id := by
  intro m hm heq
  have hn := q.nodup
  rw [h, List.map_append, List.map_cons, List.nodup_append] at hn
  exact (List.nodup_cons.mp hn.2.1).1 (heq ▸ List.mem_map_of_mem hm)

/-- The search for `i` passes links with other identities. -/
theorem nextIn_append {i : ℕ} (hA : ∀ m ∈ A, m.id ≠ i) :
    nextIn i (A ++ B) = nextIn i B := by
  induction A with
  | nil => rfl
  | cons m A ih =>
    rw [List.cons_append, nextIn, if_neg (hA m List.mem_cons_self)]
    exact ih fun m' hm' => hA m' (List.mem_cons_of_mem _ hm')

/-- The link after `l` is the head of what stands behind it. -/
theorem next?_mid (h : q.links = A ++ l :: B) : q.next? l.id = B.head?.map Link.id := by
  rw [next?, h, nextIn_append (id_ne_left h), nextIn, if_pos rfl]

/-- The link before `l` is the last of what stands in front of it. -/
theorem prev?_mid (h : q.links = A ++ l :: B) : q.prev? l.id = A.getLast?.map Link.id := by
  rw [prev?, h, List.reverse_append, List.reverse_cons, List.append_assoc,
    nextIn_append fun m hm => id_ne_right h m (List.mem_reverse.mp hm)]
  simp [nextIn, List.head?_reverse]

/-- The value of `l` is found by its identity. -/
theorem get?_mid (h : q.links = A ++ l :: B) : q.get? l.id = some l.val := by
  rw [get?, h, List.find?_append, List.find?_eq_none.mpr]
  · simp
  · intro m hm
    simpa using id_ne_left h m hm

/-- The value of a link is found by its identity, wherever the link is. -/
theorem get?_of_mem (hl : l ∈ q.links) : q.get? l.id = some l.val := by
  obtain ⟨A, B, h⟩ := List.append_of_mem hl
  exact get?_mid h

/-- Where a value is found the list of links splits at the link that has it. -/
theorem exists_of_get? {i : ℕ} {a : α} (h : q.get? i = some a) :
    ∃ A B, q.links = A ++ ⟨i, a⟩ :: B := by
  obtain ⟨l, hl, rfl⟩ := Option.map_eq_some_iff.mp h
  obtain rfl : l.id = i := by simpa using List.find?_some hl
  exact List.append_of_mem (List.mem_of_find?_eq_some hl)

/-- **Insertion.** The new link stands right before `l`; the others stay where they were. -/
theorem links_insertBefore (h : q.links = A ++ l :: B) (a : α) :
    (q.insertBefore l.id a).links = A ++ ⟨q.fresh, a⟩ :: l :: B := by
  have key : ∀ A : List (Link α), (∀ m ∈ A, m.id ≠ l.id) →
      insertIn l.id ⟨q.fresh, a⟩ (A ++ l :: B) = A ++ ⟨q.fresh, a⟩ :: l :: B := by
    intro A
    induction A with
    | nil => intro _; simp [insertIn]
    | cons m A ih =>
      intro hA
      rw [List.cons_append, insertIn, if_neg (hA m List.mem_cons_self),
        ih fun m' hm' => hA m' (List.mem_cons_of_mem _ hm')]
      rfl
  change insertIn l.id ⟨q.fresh, a⟩ q.links = _
  rw [h]
  exact key A (id_ne_left h)

/-- A link pushed at the tail comes last. -/
@[simp] theorem links_pushTail (q : Queue α) (a : α) :
    (q.pushTail a).links = q.links ++ [⟨q.fresh, a⟩] := rfl

/-- A link pushed at the head comes first. -/
@[simp] theorem links_pushHead (q : Queue α) (a : α) :
    (q.pushHead a).links = ⟨q.fresh, a⟩ :: q.links := rfl

/-- The empty queue has no links. -/
@[simp] theorem links_empty : (empty : Queue α).links = [] := rfl

/-- **Removal.** The links around `l` come together; none of them moves. -/
theorem links_deleteLink (h : q.links = A ++ l :: B) :
    (q.deleteLink l.id).links = A ++ B := by
  have hA : A.filter (·.id != l.id) = A :=
    List.filter_eq_self.mpr fun m hm => by simpa using id_ne_left h m hm
  have hB : B.filter (·.id != l.id) = B :=
    List.filter_eq_self.mpr fun m hm => by simpa using id_ne_right h m hm
  change q.links.filter (·.id != l.id) = A ++ B
  rw [h, List.filter_append, List.filter_cons, hA, hB]
  simp

/-- **Replacement.** The value of `l` is another one; its identity and its place are kept. -/
theorem links_set (h : q.links = A ++ l :: B) (a : α) :
    (q.set l.id a).links = A ++ ⟨l.id, a⟩ :: B := by
  have hA : A.map (fun m => if m.id = l.id then (⟨m.id, a⟩ : Link α) else m) = A := by
    conv_rhs => rw [← List.map_id A]
    exact List.map_congr_left fun m hm => if_neg (id_ne_left h m hm)
  have hB : B.map (fun m => if m.id = l.id then (⟨m.id, a⟩ : Link α) else m) = B := by
    conv_rhs => rw [← List.map_id B]
    exact List.map_congr_left fun m hm => if_neg (id_ne_right h m hm)
  change q.links.map (fun m => if m.id = l.id then (⟨m.id, a⟩ : Link α) else m) = _
  rw [h, List.map_append, List.map_cons, hA, hB, if_pos rfl]

/-- To delete a link is to keep the others. -/
theorem deleteLink_eq_keep (q : Queue α) (i : ℕ) : q.deleteLink i = q.keep (·.id != i) := rfl

/-- Links are kept by one predicate and then by another. -/
theorem keep_keep (p p' : Link α → Bool) (q : Queue α) :
    (q.keep p).keep p' = q.keep fun l => p l && p' l := by
  refine ext ?_ rfl
  simp only [keep, List.filter_filter, Bool.and_comm]

/-- Only what a predicate says of the links in the queue counts. -/
theorem keep_congr {p p' : Link α → Bool} (h : ∀ l ∈ q.links, p l = p' l) :
    q.keep p = q.keep p' := ext (List.filter_congr h) rfl

/-- Where all links are kept the queue is the same. -/
theorem keep_true {p : Link α → Bool} (h : ∀ l ∈ q.links, p l = true) : q.keep p = q :=
  ext (List.filter_eq_self.mpr h) rfl

/-- A link is known by its identity. -/
theorem eq_of_id_eq {l m : Link α} (hl : l ∈ q.links) (hm : m ∈ q.links) (h : l.id = m.id) :
    l = m := List.inj_on_of_nodup_map q.nodup hl hm h

/-- A function applied to all values is applied to the one that is found. -/
theorem get?_mapVals {β : Type u} (f : α → β) (q : Queue α) (i : ℕ) :
    (q.mapVals f).get? i = (q.get? i).map f := by
  simp only [get?, mapVals, List.find?_map, Option.map_map]
  rfl

/-- The tail is the last link. -/
theorem tail?_append (h : q.links = A ++ [l]) : q.tail? = some l.id := by
  simp [tail?, h]

end Queue

end Mbb
