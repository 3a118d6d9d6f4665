import Mathlib.Order.WithBot
import Mbb.HttpBatch
import Mbb.Strcmp

/-!
# Commands of the shell (`mbbsh/main.c`)

A command has words, and an entry is found by the words that an input begins with. The entries are
sorted, the last words first, and put into a tree of `GNode`s: the data of a node is a word or an
entry, and only an entry has no nodes below it. `build_func_tree` looks at the first child alone,
and `lua_cmd_find` takes a leaf for an entry. To compare an entry as a string, or to return a
string as an entry, has no meaning, nor has the first child of `NULL`.
-/

namespace Mbb

/-- `struct lua_cmd_entry` -/
structure LuaCmdEntry : Type where
  /-- `cmdv`, without the `NULL` at its end -/
  cmdv : List CStr
  /-- `method` -/
  method : Option CStr
  /-- `handler` -/
  handler : Option CStr
  /-- `arg_min` -/
  argMin : Int
  /-- `arg_max` -/
  argMax : Int

/-- `data` of a node -/
inductive NodeData : Type where
  /-- a word of `cmdv` -/
  | word (w : CStr)
  /-- an entry -/
  | entry (e : LuaCmdEntry)

/-- A `GNode`, its children and its next siblings, or `NULL`. -/
inductive GNodes : Type where
  /-- `NULL` -/
  | nil
  /-- a node, its first child and its next sibling -/
  | cons (data : NodeData) (children next : GNodes)

/-! ## The tree

Entries sorted by their words share their first words with their neighbours, and the tree has one
node for each word of these.
-/

/-- The loop of `lua_cmd_entry_cmp` over the words of both commands: the first words that differ
decide, in reverse, and of two commands one of which begins with the other the longer is less. -/
def luaCmdEntryCmpLoop : List CStr → List CStr → Int
  | [], [] => 0
  | [], _ :: _ => 1
  | _ :: _, [] => -1
  | a :: pa, b :: pb => if strcmp a b ≠ 0 then -strcmp a b else luaCmdEntryCmpLoop pa pb

/-- `lua_cmd_entry_cmp` -/
def luaCmdEntryCmp (a b : LuaCmdEntry) : Int := luaCmdEntryCmpLoop a.cmdv b.cmdv

/-- `g_queue_sort` of the entries -/
def sortEntries (queue : List LuaCmdEntry) : List LuaCmdEntry :=
  queue.mergeSort fun a b => decide (luaCmdEntryCmp a b ≤ 0)

/-- `g_hash_table_lookup` of the method, if there is one -/
def available (methods : List CStr) (entry : LuaCmdEntry) : Bool :=
  match entry.method with
  | none => true
  | some method => decide (method ∈ methods)

/-- From a node down the words that are left: the children of the node after it. -/
def addWords (entry : LuaCmdEntry) : List CStr → GNodes → Option GNodes
  | [], children => some (.cons (.entry entry) .nil children)
  | w :: pp, .nil => (addWords entry pp .nil).map fun children => .cons (.word w) children .nil
  | w :: pp, .cons (.word v) children next =>
    if strcmp w v ≠ 0 then
      (addWords entry pp .nil).map fun added =>
        .cons (.word w) added (.cons (.word v) children next)
    else (addWords entry pp children).map fun children => .cons (.word v) children next
  | _ :: _, .cons (.entry _) _ _ => none

/-- The loop of `build_func_tree` over the queue; without a word there is no `node`. -/
def buildLoop (methods : List CStr) : List LuaCmdEntry → GNodes → Option GNodes
  | [], tree => some tree
  | entry :: list, tree =>
    if available methods entry then
      if entry.cmdv = [] then none
      else (addWords entry entry.cmdv tree).bind (buildLoop methods list)
    else buildLoop methods list tree

/-- `build_func_tree`; the tree is the children of `main_tree`. -/
def buildFuncTree (methods : List CStr) (queue : List LuaCmdEntry) (mainTree : Option GNodes) :
    Option (Option GNodes) :=
  if queue = [] then some mainTree else (buildLoop methods queue .nil).map some

/-! ## Lookup -/

/-- What `lua_cmd_find` does. -/
inductive FindResult : Type where
  /-- nothing that has a meaning -/
  | crash
  /-- `NULL` -/
  | null
  /-- an entry, and `*offp` -/
  | found (entry : LuaCmdEntry) (off : Int)

/-- The loop over the siblings: the children of the node, if there is one. -/
def findSibling (arg : CStr) : GNodes → Option (Option GNodes)
  | .nil => some none
  | .cons (.word w) children next =>
    if strcmp arg w = 0 then some (some children) else findSibling arg next
  | .cons (.entry _) _ _ => none

/-- The loop of `lua_cmd_find`: `argp`, `argp - argv` and the first child of the node. -/
def luaCmdFindLoop : List CStr → ℕ → GNodes → FindResult
  | _, _, .nil => .crash
  | _, off, .cons (.entry entry) .nil _ => .found entry ((off : Int) - 1)
  | _, _, .cons (.word _) .nil _ => .crash
  | [], _, .cons _ (.cons _ _ _) _ => .null
  | arg :: argp, off, .cons data (.cons below children others) next =>
    match findSibling arg (.cons data (.cons below children others) next) with
    | none => .crash
    | some none => .null
    | some (some first) => luaCmdFindLoop argp (off + 1) first

/-- `lua_cmd_find` -/
def luaCmdFind (mainTree : Option GNodes) (argv : List CStr) : FindResult :=
  match mainTree with
  | none => .null
  | some tree => luaCmdFindLoop argv 0 tree

/-! ## Levels of the tree

A level of the tree is a list of siblings. What is below a word is the level of the entries that
have this word at that place.
-/

namespace GNodes

mutual

/-- The children of a node: one entry, or words in their order. -/
def Level : GNodes → Prop
  | .nil => False
  | .cons (.entry _) children next => children = .nil ∧ next = .nil
  | .cons (.word w) children next => Level children ∧ Words w next

/-- Words in their order, above the one before. -/
def Words (before : WithBot CStr) : GNodes → Prop
  | .nil => True
  | .cons (.entry _) _ _ => False
  | .cons (.word w) children next => before < w ∧ Level children ∧ Words w next

end

/-- The entries of a tree, with the words that lead to them. -/
def paths : GNodes → List (List CStr × LuaCmdEntry)
  | .nil => []
  | .cons (.entry e) _ next => ([], e) :: paths next
  | .cons (.word w) children next =>
    ((paths children).map fun p => (w :: p.1, p.2)) ++ paths next

variable {t children next : GNodes} {w a : CStr} {q : List CStr} {e : LuaCmdEntry}

theorem paths_word : paths (.cons (.word w) children next) =
    ((paths children).map fun p => (w :: p.1, p.2)) ++ paths next := rfl

theorem mem_paths_word : (a :: q, e) ∈ paths (.cons (.word w) children next) ↔
    w = a ∧ (q, e) ∈ paths children ∨ (a :: q, e) ∈ paths next := by
  rw [paths_word, List.mem_append]
  refine or_congr_left ?_
  rw [List.mem_map]
  constructor
  · rintro ⟨⟨q', e'⟩, hmem, heq⟩
    obtain ⟨hcons, rfl⟩ := Prod.mk.inj heq
    obtain ⟨rfl, rfl⟩ := List.cons.inj hcons
    exact ⟨rfl, hmem⟩
  · rintro ⟨rfl, hmem⟩
    exact ⟨(q, e), hmem, rfl⟩

/-- Below a word there is an entry. -/
theorem Level.exists_mem_paths : ∀ {t : GNodes}, t.Level → ∃ p, p ∈ paths t
  | .nil, h => absurd h (by simp [Level])
  | .cons (.entry e) _ next, _ => ⟨([], e), List.mem_cons_self⟩
  | .cons (.word w) children next, h => by
    obtain ⟨⟨q, e⟩, hp⟩ := Level.exists_mem_paths h.1
    exact ⟨(w :: q, e), mem_paths_word.mpr (Or.inl ⟨rfl, hp⟩)⟩

/-- All paths begin with a word that is above. -/
theorem Words.mem_paths : ∀ {t : GNodes} {before : WithBot CStr}, t.Words before →
    ∀ p ∈ paths t, ∃ w q, p.1 = w :: q ∧ before < w
  | .nil, _, _, p, hp => absurd hp List.not_mem_nil
  | .cons (.entry _) _ _, _, h, _, _ => absurd h (by simp [Words])
  | .cons (.word w) children next, before, h, p, hp => by
    rw [paths_word, List.mem_append, List.mem_map] at hp
    rcases hp with ⟨p', -, rfl⟩ | hp
    · exact ⟨w, p'.1, rfl, h.1⟩
    · obtain ⟨v, q, hv, hlt⟩ := Words.mem_paths h.2.2 p hp
      exact ⟨v, q, hv, h.1.trans hlt⟩

/-- Words stand on a level of their own. -/
theorem Level.words (h : Level (.cons (.word w) children next)) :
    Words ⊥ (.cons (.word w) children next) := ⟨WithBot.bot_lt_coe w, h⟩

/-- The first word of a level is not below, if an entry with that word first is put before. -/
theorem Level.word_le (h : Level (.cons (.word w) children next)) {pp : List CStr}
    (hlt : ∀ p ∈ paths (.cons (.word w) children next), a :: pp < p.1) : a ≤ w := by
  obtain ⟨⟨q, e⟩, hp⟩ := h.1.exists_mem_paths
  have hcons := hlt (w :: q, e) (mem_paths_word.mpr (Or.inl ⟨rfl, hp⟩))
  rcases List.cons_lt_cons_iff.mp hcons with h | ⟨rfl, -⟩
  · exact h.le
  · exact le_rfl

/-- Where nothing is, all words become nodes. -/
theorem addWords_nil (entry : LuaCmdEntry) : ∀ pp : List CStr,
    ∃ t, addWords entry pp .nil = some t ∧ t.Level ∧ paths t = [(pp, entry)]
  | [] => ⟨_, rfl, ⟨rfl, rfl⟩, rfl⟩
  | w :: pp => by
    obtain ⟨t, hadd, hlevel, hpaths⟩ := addWords_nil entry pp
    refine ⟨.cons (.word w) t .nil, ?_, ⟨hlevel, trivial⟩, ?_⟩
    · rw [addWords, hadd, Option.map_some]
    · rw [paths_word, hpaths]
      rfl

/-- **An entry that is before all others comes first.** -/
theorem addWords_spec (entry : LuaCmdEntry) : ∀ (pp : List CStr) (t : GNodes), t = .nil ∨ t.Level →
    (∀ p ∈ paths t, pp < p.1 ∧ ¬ pp <+: p.1) →
    ∃ t', addWords entry pp t = some t' ∧ t'.Level ∧ paths t' = (pp, entry) :: paths t
  | pp, .nil, _, _ => addWords_nil entry pp
  | [], .cons data children next, ht, hp => by
    obtain ⟨p, hmem⟩ := (ht.resolve_left (by simp)).exists_mem_paths
    exact absurd List.nil_prefix (hp p hmem).2
  | w :: pp, .cons (.entry e) children next, _, hp => by
    exact absurd (hp ([], e) List.mem_cons_self).1 (List.not_lt_nil (w :: pp))
  | w :: pp, .cons (.word v) children next, ht, hp => by
    obtain ⟨hchildren, hnext⟩ := ht.resolve_left (by simp)
    by_cases hwv : w = v
    · obtain rfl := hwv
      -- what is left of the words comes before what is below the first child
      have hp' : ∀ p ∈ paths children, pp < p.1 ∧ ¬ pp <+: p.1 := by
        intro p hmem
        obtain ⟨hlt, hpre⟩ := hp (w :: p.1, p.2) (mem_paths_word.mpr (Or.inl ⟨rfl, hmem⟩))
        constructor
        · simpa using hlt
        · exact fun h => hpre ((List.prefix_cons_inj w).mpr h)
      obtain ⟨t', hadd, hlevel, hpaths⟩ := addWords_spec entry pp children (Or.inr hchildren) hp'
      refine ⟨.cons (.word w) t' next, ?_, ⟨hlevel, hnext⟩, ?_⟩
      · rw [addWords, if_neg (not_not_intro ((strcmp_eq_zero w w).mpr rfl)), hadd, Option.map_some]
      · rw [paths_word, hpaths]
        rfl
    · have hle : w ≤ v := Level.word_le ⟨hchildren, hnext⟩ fun p h => (hp p h).1
      have hlt : w < v := lt_of_le_of_ne hle hwv
      obtain ⟨t', hadd, hlevel, hpaths⟩ := addWords_nil entry pp
      refine ⟨.cons (.word w) t' (.cons (.word v) children next), ?_, ⟨hlevel, ?_⟩, ?_⟩
      · rw [addWords, if_pos fun h => hwv ((strcmp_eq_zero w v).mp h), hadd, Option.map_some]
      · exact ⟨WithBot.coe_lt_coe.mpr hlt, hchildren, hnext⟩
      · rw [paths_word, hpaths]
        rfl

end GNodes

/-! ## Find

The loop follows the words as long as they match, and remembers nothing on the way.
-/

open GNodes

/-- The sibling with a word has all paths that begin with the word. -/
theorem findSibling_spec (arg : CStr) : ∀ {t : GNodes} {before : WithBot CStr}, t.Words before →
    (findSibling arg t = some none ∧ ∀ q e, (arg :: q, e) ∉ paths t) ∨
      ∃ first, findSibling arg t = some (some first) ∧ first.Level ∧
        ∀ q e, (arg :: q, e) ∈ paths t ↔ (q, e) ∈ paths first
  | .nil, _, _ => Or.inl ⟨rfl, by simp [paths]⟩
  | .cons (.entry _) _ _, _, h => absurd h (by simp [Words])
  | .cons (.word w) children next, before, h => by
    by_cases harg : arg = w
    · obtain rfl := harg
      refine Or.inr ⟨children, ?_, h.2.1, fun q e => ?_⟩
      · rw [findSibling, if_pos ((strcmp_eq_zero arg arg).mpr rfl)]
      · have hnot : (arg :: q, e) ∉ paths next := by
          intro hmem
          obtain ⟨v, q', hv, hlt⟩ := h.2.2.mem_paths _ hmem
          rw [(List.cons.inj hv).1] at hlt
          exact lt_irrefl _ hlt
        rw [mem_paths_word]
        simp [hnot]
    · have hfind : findSibling arg (.cons (.word w) children next) = findSibling arg next := by
        rw [findSibling, if_neg fun h => harg ((strcmp_eq_zero arg w).mp h)]
      have hiff : ∀ q e, (arg :: q, e) ∈ paths (.cons (.word w) children next) ↔
          (arg :: q, e) ∈ paths next := fun q e => by
        rw [mem_paths_word]
        simp [Ne.symm harg]
      simp only [hfind, hiff]
      exact findSibling_spec arg h.2.2

section Level

variable {w : CStr} {children next : GNodes}

theorem luaCmdFindLoop_nil (h : Level (.cons (.word w) children next)) (off : ℕ) :
    luaCmdFindLoop [] off (.cons (.word w) children next) = .null := by
  cases children with
  | nil => exact absurd h.1 (by simp [Level])
  | cons below deeper others => rw [luaCmdFindLoop]

theorem luaCmdFindLoop_cons (h : Level (.cons (.word w) children next)) (arg : CStr)
    (argp : List CStr) (off : ℕ) :
    luaCmdFindLoop (arg :: argp) off (.cons (.word w) children next) =
      match findSibling arg (.cons (.word w) children next) with
      | none => .crash
      | some none => .null
      | some (some first) => luaCmdFindLoop argp (off + 1) first := by
  cases children with
  | nil => exact absurd h.1 (by simp [Level])
  | cons below deeper others => rw [luaCmdFindLoop]

end Level

/-- **The loop finds the entry whose words come next.** -/
theorem luaCmdFindLoop_spec : ∀ (argp : List CStr) (off : ℕ) {t : GNodes}, t.Level →
    (∀ p ∈ paths t, p.1 <+: argp →
      luaCmdFindLoop argp off t = .found p.2 ((off : Int) + p.1.length - 1)) ∧
    ((∀ p ∈ paths t, ¬ p.1 <+: argp) → luaCmdFindLoop argp off t = .null)
  | _, _, .nil, h => absurd h (by simp [Level])
  | argp, off, .cons (.entry e) children next, h => by
    obtain ⟨rfl, rfl⟩ := h
    refine ⟨fun p hp _ => ?_, fun hnone => ?_⟩
    · obtain rfl := List.mem_singleton.mp hp
      simp [luaCmdFindLoop]
    · exact absurd List.nil_prefix (hnone ([], e) List.mem_cons_self)
  | [], off, .cons (.word w) children next, h => by
    refine ⟨fun p hp hpre => ?_, fun _ => luaCmdFindLoop_nil h off⟩
    obtain ⟨v, q, hv, -⟩ := h.words.mem_paths p hp
    rw [hv] at hpre
    exact absurd (List.prefix_nil.mp hpre) (List.cons_ne_nil v q)
  | arg :: argp, off, .cons (.word w) children next, h => by
    -- a path that the input begins with begins with `arg`
    have hhead : ∀ p ∈ paths (.cons (.word w) children next), p.1 <+: arg :: argp →
        ∃ q, p.1 = arg :: q ∧ q <+: argp := by
      intro p hp hpre
      obtain ⟨v, q, hv, -⟩ := h.words.mem_paths p hp
      rw [hv] at hpre
      obtain ⟨rfl, hq⟩ := List.cons_prefix_cons.mp hpre
      exact ⟨q, hv, hq⟩
    rw [luaCmdFindLoop_cons h]
    rcases findSibling_spec arg h.words with ⟨hfind, hnot⟩ | ⟨first, hfind, hlevel, hiff⟩
    · rw [hfind]
      refine ⟨fun p hp hpre => ?_, fun _ => rfl⟩
      obtain ⟨q, hq, -⟩ := hhead p hp hpre
      refine absurd ?_ (hnot q p.2)
      rw [← hq]
      exact hp
    · rw [hfind]
      obtain ⟨hfound, hnull⟩ := luaCmdFindLoop_spec argp (off + 1) hlevel
      refine ⟨fun p hp hpre => ?_, fun hnone => hnull fun p hp hpre => ?_⟩
      · obtain ⟨q, hq, hqpre⟩ := hhead p hp hpre
        have hmem : (q, p.2) ∈ paths first := by
          rw [← hiff, ← hq]
          exact hp
        have hoff := hfound (q, p.2) hmem hqpre
        rw [hq, List.length_cons]
        refine hoff.trans (congrArg _ ?_)
        push_cast
        omega
      · exact hnone (arg :: p.1, p.2) ((hiff p.1 p.2).mpr hp) ((List.prefix_cons_inj arg).mpr hpre)

/-! ## The order of the entries -/

/-- Greater words come first. -/
theorem luaCmdEntryCmpLoop_neg : ∀ pa pb : List CStr, luaCmdEntryCmpLoop pa pb < 0 ↔ pb < pa
  | [], [] => by simp [luaCmdEntryCmpLoop]
  | [], _ :: _ => by simp [luaCmdEntryCmpLoop]
  | _ :: _, [] => by simp [luaCmdEntryCmpLoop]
  | a :: pa, b :: pb => by
    have hcons : b :: pb < a :: pa ↔ b < a ∨ b = a ∧ pb < pa := List.cons_lt_cons_iff
    rw [luaCmdEntryCmpLoop, hcons]
    by_cases hab : a = b
    · rw [if_neg (not_not_intro ((strcmp_eq_zero a b).mpr hab)), luaCmdEntryCmpLoop_neg pa pb]
      simp [hab]
    · have hlt : -strcmp a b < 0 ↔ b < a := by
        rw [← not_le (a := a), ← strcmp_nonpos]
        omega
      rw [if_pos fun h => hab ((strcmp_eq_zero a b).mp h), hlt]
      simp [Ne.symm hab]

theorem luaCmdEntryCmpLoop_eq_zero : ∀ pa pb : List CStr, luaCmdEntryCmpLoop pa pb = 0 ↔ pb = pa
  | [], [] => by simp [luaCmdEntryCmpLoop]
  | [], _ :: _ => by simp [luaCmdEntryCmpLoop]
  | _ :: _, [] => by simp [luaCmdEntryCmpLoop]
  | a :: pa, b :: pb => by
    rw [luaCmdEntryCmpLoop, List.cons.injEq]
    by_cases hab : a = b
    · rw [if_neg (not_not_intro ((strcmp_eq_zero a b).mpr hab)), luaCmdEntryCmpLoop_eq_zero pa pb]
      simp [hab]
    · have hne : strcmp a b ≠ 0 := fun h => hab ((strcmp_eq_zero a b).mp h)
      rw [if_pos hne]
      simp [hne, Ne.symm hab]

theorem luaCmdEntryCmp_nonpos (a b : LuaCmdEntry) : luaCmdEntryCmp a b ≤ 0 ↔ b.cmdv ≤ a.cmdv := by
  rw [le_iff_lt_or_eq, luaCmdEntryCmp, luaCmdEntryCmpLoop_neg, luaCmdEntryCmpLoop_eq_zero,
    le_iff_lt_or_eq]

/-- The sort puts greater words first. -/
theorem sortEntries_sorted (queue : List LuaCmdEntry) :
    (sortEntries queue).Pairwise fun a b => b.cmdv ≤ a.cmdv := by
  have htrans : ∀ a b c, decide (luaCmdEntryCmp a b ≤ 0) → decide (luaCmdEntryCmp b c ≤ 0) →
      decide (luaCmdEntryCmp a c ≤ 0) := by
    intro a b c hab hbc
    rw [decide_eq_true_iff, luaCmdEntryCmp_nonpos] at hab hbc ⊢
    exact hbc.trans hab
  have htotal : ∀ a b, decide (luaCmdEntryCmp a b ≤ 0) || decide (luaCmdEntryCmp b a ≤ 0) := by
    intro a b
    rw [Bool.or_eq_true, decide_eq_true_iff, decide_eq_true_iff, luaCmdEntryCmp_nonpos,
      luaCmdEntryCmp_nonpos]
    exact le_total _ _
  apply (List.pairwise_mergeSort htrans htotal queue).imp
  intro a b hab
  exact (luaCmdEntryCmp_nonpos a b).mp (of_decide_eq_true hab)

/-! ## Build -/

/-- The tree has the entries of the queue that are available. -/
theorem buildLoop_spec (methods : List CStr) : ∀ (list : List LuaCmdEntry) (t : GNodes),
    t = .nil ∨ t.Level → (∀ e ∈ list, e.cmdv ≠ []) →
    (list.Pairwise fun a b => b.cmdv < a.cmdv ∧ ¬ b.cmdv <+: a.cmdv) →
    (∀ e ∈ list, ∀ p ∈ paths t, e.cmdv < p.1 ∧ ¬ e.cmdv <+: p.1) →
    ∃ t', buildLoop methods list t = some t' ∧ (t' = .nil ∨ t'.Level) ∧
      ∀ p, p ∈ paths t' ↔ p ∈ paths t ∨ ∃ e ∈ list, available methods e ∧ p = (e.cmdv, e)
  | [], t, ht, _, _, _ => ⟨t, rfl, ht, by simp⟩
  | entry :: list, t, ht, hne, hsorted, hbefore => by
    obtain ⟨hfirst, hrest⟩ := List.pairwise_cons.mp hsorted
    have hne' : ∀ e ∈ list, e.cmdv ≠ [] := fun e he => hne e (List.mem_cons_of_mem entry he)
    cases havail : available methods entry with
    | false =>
      have hbefore' := fun e he => hbefore e (List.mem_cons_of_mem entry he)
      obtain ⟨t', hrun, ht', hpaths⟩ := buildLoop_spec methods list t ht hne' hrest hbefore'
      refine ⟨t', ?_, ht', fun p => ?_⟩
      · rw [buildLoop, havail, if_neg Bool.false_ne_true, hrun]
      · rw [hpaths]
        simp [havail]
    | true =>
      obtain ⟨t1, hadd, hlevel, hpaths1⟩ :=
        addWords_spec entry entry.cmdv t ht (hbefore entry List.mem_cons_self)
      have hbefore' : ∀ e ∈ list, ∀ p ∈ paths t1, e.cmdv < p.1 ∧ ¬ e.cmdv <+: p.1 := by
        intro e he p hp
        rw [hpaths1] at hp
        rcases List.mem_cons.mp hp with rfl | hp
        · exact hfirst e he
        · exact hbefore e (List.mem_cons_of_mem entry he) p hp
      obtain ⟨t', hrun, ht', hpaths⟩ :=
        buildLoop_spec methods list t1 (Or.inr hlevel) hne' hrest hbefore'
      refine ⟨t', ?_, ht', fun p => ?_⟩
      · rw [buildLoop, havail, if_pos rfl, if_neg (hne entry List.mem_cons_self), hadd,
          Option.bind_some, hrun]
      · rw [hpaths, hpaths1]
        simp [havail, or_assoc, or_left_comm]

/-- **The shell finds the entry whose words the input begins with.** -/
theorem luaCmdFind_spec (methods : List CStr) (queue : List LuaCmdEntry) (mainTree : Option GNodes)
    (hne : ∀ e ∈ queue, e.cmdv ≠ []) (hdistinct : queue.Pairwise fun a b => a.cmdv ≠ b.cmdv)
    (hfree : ∀ a ∈ queue, ∀ b ∈ queue, a.cmdv <+: b.cmdv → a.cmdv = b.cmdv)
    (havail : ∃ e ∈ queue, available methods e) :
    ∃ tree, buildFuncTree methods (sortEntries queue) mainTree = some (some tree) ∧ ∀ argv,
      (∀ e ∈ queue, available methods e → e.cmdv <+: argv →
        luaCmdFind (some tree) argv = .found e ((e.cmdv.length : Int) - 1)) ∧
      ((∀ e ∈ queue, available methods e → ¬ e.cmdv <+: argv) →
        luaCmdFind (some tree) argv = .null) := by
  have hmem : ∀ {e}, e ∈ sortEntries queue ↔ e ∈ queue := List.mem_mergeSort
  have hperm : (sortEntries queue).Perm queue := List.mergeSort_perm queue _
  have hdistinct' := (hperm.pairwise_iff fun hab => Ne.symm hab).mpr hdistinct
  have hsorted : (sortEntries queue).Pairwise fun a b => b.cmdv < a.cmdv ∧ ¬ b.cmdv <+: a.cmdv := by
    apply ((sortEntries_sorted queue).and hdistinct').imp_of_mem
    intro a b ha hb hab
    refine ⟨lt_of_le_of_ne hab.1 hab.2.symm, fun hpre => hab.2.symm ?_⟩
    exact hfree b (hmem.mp hb) a (hmem.mp ha) hpre
  obtain ⟨tree, hbuild, htree, hpaths⟩ := buildLoop_spec methods (sortEntries queue) .nil
    (Or.inl rfl) (fun e he => hne e (hmem.mp he)) hsorted (by simp [paths])
  have hpath : ∀ p, p ∈ paths tree ↔ ∃ e ∈ queue, available methods e ∧ p = (e.cmdv, e) := by
    intro p
    rw [hpaths]
    simp [paths, hmem]
  -- an entry is available, so there is a tree
  have hlevel : tree.Level := by
    obtain ⟨e, he, hav⟩ := havail
    have hp : (e.cmdv, e) ∈ paths tree := (hpath _).mpr ⟨e, he, hav, rfl⟩
    apply htree.resolve_left
    intro hnil
    rw [hnil] at hp
    exact List.not_mem_nil hp
  have hqueue : sortEntries queue ≠ [] := by
    obtain ⟨e, he, -⟩ := havail
    exact List.ne_nil_of_mem (hmem.mpr he)
  refine ⟨tree, by rw [buildFuncTree, if_neg hqueue, hbuild, Option.map_some], fun argv => ?_⟩
  obtain ⟨hfound, hnull⟩ := luaCmdFindLoop_spec argv 0 hlevel
  constructor
  · intro e he hav hpre
    have hfind := hfound (e.cmdv, e) ((hpath _).mpr ⟨e, he, hav, rfl⟩) hpre
    rw [Int.ofNat_zero, zero_add] at hfind
    exact hfind
  · intro hnone
    apply hnull
    intro p hp hpre
    obtain ⟨e, he, hav, rfl⟩ := (hpath p).mp hp
    exact hnone e he hav hpre

/-- Three commands; for the second one there may be no method. -/
def unitCommands : List LuaCmdEntry :=
  [⟨[literal "unit", literal "add"], some (literal "unit-add"), none, 1, 1⟩,
   ⟨[literal "unit", literal "del"], some (literal "unit-del"), none, 1, 1⟩,
   ⟨[literal "exit"], none, none, 0, 0⟩]

theorem luaCmdFind_unit_add : ∃ tree,
    buildFuncTree [literal "unit-add"] (sortEntries unitCommands) none = some (some tree) ∧
      luaCmdFind (some tree) [literal "unit", literal "add", literal "x"] =
        .found ⟨[literal "unit", literal "add"], some (literal "unit-add"), none, 1, 1⟩ 1 ∧
      luaCmdFind (some tree) [literal "unit", literal "del", literal "x"] = .null := by
  obtain ⟨tree, hbuild, hfind⟩ := luaCmdFind_spec [literal "unit-add"] unitCommands none
    (by decide) (by decide) (by decide) ⟨_, List.mem_cons_self, by decide⟩
  refine ⟨tree, hbuild, ?_, ?_⟩
  · exact (hfind _).1 _ List.mem_cons_self (by decide) (by decide)
  · exact (hfind _).2 (by decide)

end Mbb
