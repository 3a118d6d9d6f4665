import Mathlib.Logic.Relation
import Mbb.Lib.Marginal
import Mbb.Stat

/-!
# The three tables add up

The tables by unit and by link hold the sums of the rows of the third, in every pool and
in the database, whatever is fed, saved and wiped and wherever a save stops. In a pool this
is so in 64-bit words; the database gets the words as numbers, so there the words must not
have overflowed.

Pools and databases that have the same rows go on having the same rows, and feeding in
another order gives the same rows.
-/

namespace Mbb

/-- Unit and hour. -/
def DoubleKey.unitOf (k : DoubleKey) : SingleKey := ⟨k.point, k.aid⟩

/-- Link and hour. -/
def DoubleKey.linkOf (k : DoubleKey) : SingleKey := ⟨k.point, k.bid⟩

/-- Two tables hold the sums of the rows of the third, with `f` read from each row. -/
structure Marginals {V W : Type} [AddCommMonoid V] [AddCommMonoid W] (f : V → W)
    (ustat lstat : Ledger SingleKey V) (ulstat : Ledger DoubleKey V) : Prop where
  /-- by unit -/
  unit : ∀ k, f (ustat.total k) = ulstat.marginal DoubleKey.unitOf f k
  /-- by link -/
  link : ∀ k, f (lstat.total k) = ulstat.marginal DoubleKey.linkOf f k

/-- The tables of a pool add up, as numbers. -/
def StatPool.AddsUp (p : StatPool) : Prop := Marginals StatRec.toBigint p.ustat p.lstat p.ulstat

/-- The tables of the database add up. -/
def StatDb.AddsUp (db : StatDb) : Prop := Marginals id db.unitStat db.linkStat db.unitLinkStat

/-- No sum over links or units reaches `2 ^ 63`. -/
def StatPool.Small (p : StatPool) : Prop :=
  ∀ k, (p.ulstat.marginal DoubleKey.unitOf StatRec.toBigint k).1 < 2 ^ 63 ∧
    (p.ulstat.marginal DoubleKey.unitOf StatRec.toBigint k).2 < 2 ^ 63 ∧
    (p.ulstat.marginal DoubleKey.linkOf StatRec.toBigint k).1 < 2 ^ 63 ∧
    (p.ulstat.marginal DoubleKey.linkOf StatRec.toBigint k).2 < 2 ^ 63

/-! ## Runs -/

/-- Pools by address, and the database. -/
structure StatWorld : Type where
  /-- pools -/
  pools : ℕ → StatPool
  /-- database -/
  db : StatDb

/-- Calls of `mbb_stat_feed`, `mbb_stat_pool_save` and `mbb_stat_db_wipe`, with the
outcomes of the calls they make. -/
inductive StatCmd : Type where
  /-- `mbb_stat_feed` -/
  | feed (p : ℕ) (entry : StatEntry)
  /-- `mbb_stat_pool_save` -/
  | save (p : ℕ) (calls : List Bool)
  /-- `mbb_stat_db_wipe` -/
  | wipe (start stop : Int) (calls : List Bool)

namespace StatWorld

variable [HashOrder]

/-- One call. A saved pool is freed, and its address can be that of a new pool. -/
def exec (s : StatWorld) : StatCmd → StatWorld
  | .feed p entry => { s with pools := Function.update s.pools p (mbbStatFeed (s.pools p) entry) }
  | .save p calls =>
    { pools := Function.update s.pools p mbbStatPoolNew
      db := (mbbStatPoolSave (s.pools p) s.db calls).1 }
  | .wipe start stop calls => { s with db := (mbbStatDbWipe start stop s.db calls).2.1 }

/-- A run. -/
def run (s : StatWorld) (cmds : List StatCmd) : StatWorld := cmds.foldl exec s

end StatWorld

/-- An entry is fed, and the other call feeds one too, or saves another pool, or wipes. -/
def StatCmd.Commutes : StatCmd → StatCmd → Prop
  | .feed _ _, .feed _ _ => True
  | .feed p _, .save q _ => p ≠ q
  | .feed _ _, .wipe _ _ _ => True
  | _, _ => False

/-- In a run an entry is fed one call later, or earlier. -/
inductive StatCmd.Swap : List StatCmd → List StatCmd → Prop
  /-- the entry and the call that changes places with it -/
  | mk (before : List StatCmd) {c c' : StatCmd} (h : c.Commutes c') (after : List StatCmd) :
    Swap (before ++ c :: c' :: after) (before ++ c' :: c :: after)

/-! ## Words and numbers

In a pool sums are taken in words. They are sums of numbers where the sums of the third table are
below `2 ^ 63`, which is asked for.
-/

/-- One side of a sum of numbers. -/
theorem proj_marginal {K G : Type} [DecidableEq G] (g : K → G) (l : Ledger K StatRec) (i : G)
    {φ : StatRec →+ BitVec 64} {π : Int × Int →+ Int}
    (hπ : ∀ r, π (StatRec.toBigint r) = ((φ r).toNat : Int)) :
    π (l.marginal g StatRec.toBigint i) =
      ((Ledger.amount (l.rows.map fun r => (g r.1, (φ r.2).toNat)) i : ℕ) : Int) := by
  -- both sides are sums over the rows of the group, of the same numbers
  have hcast := Ledger.amount_map_hom (Nat.castAddMonoidHom Int)
    (l.rows.map fun r => (g r.1, (φ r.2).toNat)) i
  rw [Nat.coe_castAddMonoidHom] at hcast
  rw [Ledger.marginal, ← Ledger.amount_map_hom, ← hcast, List.map_map, List.map_map]
  refine congrArg (fun es => Ledger.amount es i) (List.map_congr_left fun r _ => ?_)
  exact Prod.ext rfl (hπ r.2)

/-- The sum of the words of a group is the sum of the numbers, if that is small. -/
theorem toBigint_marginal {K G : Type} [DecidableEq G] (g : K → G) (l : Ledger K StatRec) (i : G)
    (h₁ : (l.marginal g StatRec.toBigint i).1 < 2 ^ 63)
    (h₂ : (l.marginal g StatRec.toBigint i).2 < 2 ^ 63) :
    StatRec.toBigint (l.marginal g id i) = l.marginal g StatRec.toBigint i := by
  have hside : ∀ (φ : StatRec →+ BitVec 64) (π : Int × Int →+ Int),
      (∀ r, π (StatRec.toBigint r) = ((φ r).toNat : Int)) →
      π (l.marginal g StatRec.toBigint i) < 2 ^ 63 →
      ((φ (l.marginal g id i)).toNat : Int) = π (l.marginal g StatRec.toBigint i) := by
    intro φ π hπ hlt
    -- words add up modulo 2 ^ 64, and a sum below 2 ^ 63 is its own remainder
    have hword : φ (l.marginal g id i) =
        Ledger.amount (l.rows.map fun r => (g r.1, φ r.2)) i := by
      rw [Ledger.marginal, ← Ledger.amount_map_hom, List.map_map]
      rfl
    rw [proj_marginal g l i hπ] at hlt ⊢
    rw [hword, Ledger.toNat_amount, List.map_map]
    · rfl
    · rw [List.map_map]
      have hlt' : Ledger.amount (l.rows.map fun r => (g r.1, (φ r.2).toNat)) i < 2 ^ 63 := by
        exact_mod_cast hlt
      exact lt_trans hlt' (by decide)
  exact Prod.ext (hside (AddMonoidHom.fst _ _) (AddMonoidHom.fst _ _) (fun _ => rfl) h₁)
    (hside (AddMonoidHom.snd _ _) (AddMonoidHom.snd _ _) (fun _ => rfl) h₂)

/-- It is enough that the rows of the pool together stay below `2 ^ 63`. -/
theorem StatPool.small_of_sum {p : StatPool}
    (h₁ : (p.ulstat.rows.map fun r => r.2.1.toNat).sum < 2 ^ 63)
    (h₂ : (p.ulstat.rows.map fun r => r.2.2.toNat).sum < 2 ^ 63) : p.Small := by
  have hside : ∀ (φ : StatRec →+ BitVec 64) (π : Int × Int →+ Int),
      (∀ r, π (StatRec.toBigint r) = ((φ r).toNat : Int)) →
      (p.ulstat.rows.map fun r => (φ r.2).toNat).sum < 2 ^ 63 →
      ∀ (g : DoubleKey → SingleKey) k, π (p.ulstat.marginal g StatRec.toBigint k) < 2 ^ 63 := by
    intro φ π hπ hlt g k
    have hle := Ledger.amount_le_sum (p.ulstat.rows.map fun r => (g r.1, (φ r.2).toNat)) k
    rw [List.map_map] at hle
    rw [proj_marginal g p.ulstat k hπ]
    exact_mod_cast lt_of_le_of_lt hle hlt
  have hfst := hside (AddMonoidHom.fst _ _) (AddMonoidHom.fst _ _) (fun _ => rfl) h₁
  have hsnd := hside (AddMonoidHom.snd _ _) (AddMonoidHom.snd _ _) (fun _ => rfl) h₂
  exact fun k => ⟨hfst _ k, hsnd _ k, hfst _ k, hsnd _ k⟩

/-- The tables of a pool add up in words. -/
def StatPool.AddsUpMod (p : StatPool) : Prop := Marginals id p.ustat p.lstat p.ulstat

theorem StatPool.AddsUpMod.addsUp {p : StatPool} (h : p.AddsUpMod) (hs : p.Small) : p.AddsUp := by
  constructor
  · intro k
    rw [← toBigint_marginal _ _ k (hs k).1 (hs k).2.1]
    exact congrArg StatRec.toBigint (h.unit k)
  · intro k
    rw [← toBigint_marginal _ _ k (hs k).2.2.1 (hs k).2.2.2]
    exact congrArg StatRec.toBigint (h.link k)

/-! ## What a call does

Feeding posts to all three tables at once, and so do saves and wipes to those of the database.
-/

theorem StatPool.AddsUpMod.new : mbbStatPoolNew.AddsUpMod := ⟨fun _ => rfl, fun _ => rfl⟩

/-- One posting to a table and the same posting to the table of the group. -/
theorem total_eq_marginal_of_posts {K G V : Type} [DecidableEq K] [DecidableEq G]
    [AddCommMonoid V] {op : Ledger K V → K → V → Ledger K V}
    {op' : Ledger G V → G → V → Ledger G V} (hop : Ledger.Posts op) (hop' : Ledger.Posts op')
    {g : K → G} {l : Ledger K V} {l' : Ledger G V} (h : ∀ i, l'.total i = l.marginal g id i)
    (k : K) (v : V) (i : G) : (op' l' (g k) v).total i = (op l k v).marginal g id i := by
  have hl := hop.marginal_foldl g [(k, v)] l i
  have hl' := hop'.total_foldl [(g k, v)] l' i
  rw [List.foldl_cons, List.foldl_nil] at hl hl'
  rw [hl, hl', h]
  rfl

theorem StatPool.AddsUpMod.feed {p : StatPool} (h : p.AddsUpMod) (e : StatEntry) :
    (mbbStatFeed p e).AddsUpMod := by
  constructor
  · exact total_eq_marginal_of_posts (g := DoubleKey.unitOf) recUpdate_posts recUpdate_posts
      h.unit e.unitLinkKey e.bytes
  · exact total_eq_marginal_of_posts (g := DoubleKey.linkOf) recUpdate_posts recUpdate_posts
      h.link e.unitLinkKey e.bytes

section Save

variable [HashOrder]

theorem amount_savedRows_total {K : Type} [DecidableEq K] (ht : Ledger K StatRec) (k : K) :
    Ledger.amount (savedRows ht) k = StatRec.toBigint (ht.total k) := by
  rw [savedRows, Ledger.amount_perm ((HashOrder.perm ht.rows).map _),
    Ledger.amount_rows ht (f := StatRec.toBigint) rfl]

theorem amount_savedRows_group {K G : Type} [DecidableEq G] (g : K → G) (ht : Ledger K StatRec)
    (i : G) : Ledger.amount ((savedRows ht).map fun e => (g e.1, e.2)) i =
      ht.marginal g StatRec.toBigint i := by
  rw [savedRows, List.map_map]
  exact Ledger.amount_perm ((HashOrder.perm ht.rows).map _) i

/-- Saving a pool that adds up. -/
theorem StatDb.AddsUp.saved {db : StatDb} (h : db.AddsUp) {p : StatPool} (hp : p.AddsUp) :
    (p.saved db).AddsUp := by
  have hul := unitLinkView.table_saved p db
  constructor
  · intro k
    have hu := unitView.table_saved p db
    change (unitView.table (p.saved db)).total k =
      (unitLinkView.table (p.saved db)).marginal DoubleKey.unitOf id k
    rw [hu, hul, updateStat_posts.total_foldl, updateStat_posts.marginal_foldl,
      amount_savedRows_total, amount_savedRows_group]
    exact congrArg₂ (· + ·) (h.unit k) (hp.unit k)
  · intro k
    have hl := linkView.table_saved p db
    change (linkView.table (p.saved db)).total k =
      (unitLinkView.table (p.saved db)).marginal DoubleKey.linkOf id k
    rw [hl, hul, updateStat_posts.total_foldl, updateStat_posts.marginal_foldl,
      amount_savedRows_total, amount_savedRows_group]
    exact congrArg₂ (· + ·) (h.link k) (hp.link k)

end Save

/-- The rows a wipe selects. -/
def wipesHour (start stop : Int) (k : SingleKey) : Bool :=
  decide (start ≤ k.point) && decide (k.point < stop)

/-- A wipe of a table of sums and of the table of the rows. -/
theorem total_wiped_eq_marginal {g : DoubleKey → SingleKey} (hg : ∀ k, (g k).point = k.point)
    {t : Ledger SingleKey (Int × Int)} {ul : Ledger DoubleKey (Int × Int)}
    (h : ∀ k, t.total k = ul.marginal g id k) (start stop : Int) (k : SingleKey) :
    (statTableClean SingleKey.point t start stop).total k =
      (statTableClean DoubleKey.point ul start stop).marginal g id k := by
  have hpq : ∀ k : DoubleKey, (decide (start ≤ k.point) && decide (k.point < stop)) =
      wipesHour start stop (g k) := by
    intro k
    rw [wipesHour, hg]
  refine (Ledger.total_reset t (wipesHour start stop) k).trans ?_
  refine Eq.trans ?_ (Ledger.marginal_reset g hpq ul k).symm
  rw [h]

theorem StatDb.AddsUp.wiped {db : StatDb} (h : db.AddsUp) (start stop : Int) :
    (db.wiped start stop).AddsUp :=
  ⟨total_wiped_eq_marginal (fun _ => rfl) h.unit start stop,
    total_wiped_eq_marginal (fun _ => rfl) h.link start stop⟩

/-! ## Where a save stops

Whether a call fails depends on nothing but how many calls there were before. So in two runs with as
many records the same saves are committed.
-/

/-- The queries of two transactions come to the same end: both stop, or both run to the
end and leave `db` and `db'`. -/
structure SameEnd (db db' : StatDb) (r r' : Option StatDb × List Bool) : Prop where
  /-- outcomes left -/
  calls : r.2 = r'.2
  /-- databases -/
  ended : r.1 = none ∧ r'.1 = none ∨ r.1 = some db ∧ r'.1 = some db'

theorem saveRecords_sameEnd {α : Type} (save : StatDb → α → StatDb) {recs recs' : List α}
    (hlen : recs.length = recs'.length) (db db' : StatDb) (calls : List Bool) :
    SameEnd (recs.foldl save db) (recs'.foldl save db') (saveRecords save recs db calls)
      (saveRecords save recs' db' calls) := by
  -- by induction on the records: each takes two outcomes, whatever the database holds
  induction recs generalizing recs' db db' calls with
  | nil =>
    obtain rfl := List.length_eq_zero_iff.mp hlen.symm
    exact ⟨rfl, Or.inr ⟨rfl, rfl⟩⟩
  | cons r recs ih =>
    cases recs' with
    | nil => cases hlen
    | cons r' recs' =>
      rw [saveRecords, saveRecords]
      cases nextCall calls with
      | mk ok calls =>
        cases ok with
        | false => exact ⟨rfl, Or.inl ⟨rfl, rfl⟩⟩
        | true =>
          cases hq : nextCall calls with
          | mk ok calls' =>
            cases ok with
            | false => simp only [hq]; exact ⟨rfl, Or.inl ⟨rfl, rfl⟩⟩
            | true =>
              simp only [hq]
              exact ih (Nat.succ.inj hlen) (save db r) (save db' r') calls'

/-- Queries that are made when those before have succeeded. -/
def andThen (r : Option StatDb × List Bool)
    (f : StatDb → List Bool → Option StatDb × List Bool) : Option StatDb × List Bool :=
  match r.1 with
  | none => (none, r.2)
  | some db => f db r.2

theorem SameEnd.andThen {db db' db₁ db₁' : StatDb} {r r' : Option StatDb × List Bool}
    (h : SameEnd db db' r r') {f f' : StatDb → List Bool → Option StatDb × List Bool}
    (hf : ∀ calls, SameEnd db₁ db₁' (f db calls) (f' db' calls)) :
    SameEnd db₁ db₁' (Mbb.andThen r f) (Mbb.andThen r' f') := by
  obtain ⟨o, c⟩ := r
  obtain ⟨o', c'⟩ := r'
  obtain ⟨hc, h⟩ := h
  obtain rfl : c = c' := hc
  rcases h with ⟨h, h'⟩ | ⟨h, h'⟩
  · obtain rfl : o = none := h
    obtain rfl : o' = none := h'
    exact ⟨rfl, Or.inl ⟨rfl, rfl⟩⟩
  · obtain rfl : o = some db := h
    obtain rfl : o' = some db' := h'
    exact hf c

/-- Both transactions leave their database, or both commit. -/
def BothOrNone (db db' db₁ db₁' : StatDb) (r r' : StatDb) : Prop :=
  r = db ∧ r' = db' ∨ r = db₁ ∧ r' = db₁'

theorem transaction_both {db db' db₁ db₁' : StatDb}
    {q q' : StatDb → List Bool → Option StatDb × List Bool}
    (h : ∀ calls, SameEnd db₁ db₁' (q db calls) (q' db' calls)) (calls : List Bool) :
    BothOrNone db db' db₁ db₁' (transaction q db calls).2.1 (transaction q' db' calls).2.1 := by
  rw [transaction, transaction]
  cases nextCall calls with
  | mk ok calls =>
    cases ok with
    | false => exact Or.inl ⟨rfl, rfl⟩
    | true =>
      obtain ⟨hc, h⟩ := h calls
      rcases hq : q db calls with ⟨o, c⟩
      rcases hq' : q' db' calls with ⟨o', c'⟩
      rw [hq, hq'] at hc h
      obtain rfl : c = c' := hc
      simp only [hq, hq']
      rcases h with ⟨h, h'⟩ | ⟨h, h'⟩
      · obtain rfl : o = none := h
        obtain rfl : o' = none := h'
        exact Or.inl ⟨rfl, rfl⟩
      · obtain rfl : o = some db₁ := h
        obtain rfl : o' = some db₁' := h'
        rcases hn : nextCall c with ⟨ok, calls⟩
        simp only [hn]
        cases ok with
        | false => exact Or.inl ⟨rfl, rfl⟩
        | true => exact Or.inr ⟨rfl, rfl⟩

theorem mbbStatDbWipe_both (start stop : Int) (db db' : StatDb) (calls : List Bool) :
    BothOrNone db db' (db.wiped start stop) (db'.wiped start stop)
      (mbbStatDbWipe start stop db calls).2.1 (mbbStatDbWipe start stop db' calls).2.1 := by
  refine transaction_both (fun calls => ?_) calls
  rw [wipeQueries, wipeQueries]
  rcases nextCall calls with ⟨ok₁, calls₁⟩
  cases ok₁ with
  | false => exact ⟨rfl, Or.inl ⟨rfl, rfl⟩⟩
  | true =>
    rcases h₂ : nextCall calls₁ with ⟨ok₂, calls₂⟩
    simp only [h₂]
    cases ok₂ with
    | false => exact ⟨rfl, Or.inl ⟨rfl, rfl⟩⟩
    | true =>
      rcases h₃ : nextCall calls₂ with ⟨ok₃, calls₃⟩
      simp only [h₃]
      cases ok₃ with
      | false => exact ⟨rfl, Or.inl ⟨rfl, rfl⟩⟩
      | true => exact ⟨rfl, Or.inr ⟨rfl, rfl⟩⟩

/-- The pools have the same rows. -/
structure StatPool.Same (p p' : StatPool) : Prop where
  /-- by unit -/
  ustat : p.ustat.Same p'.ustat
  /-- by link -/
  lstat : p.lstat.Same p'.lstat
  /-- by unit and link -/
  ulstat : p.ulstat.Same p'.ulstat

/-- The databases have the same rows. -/
structure StatDb.Same (db db' : StatDb) : Prop where
  /-- `unit_stat` -/
  unitStat : db.unitStat.Same db'.unitStat
  /-- `link_stat` -/
  linkStat : db.linkStat.Same db'.linkStat
  /-- `unit_link_stat` -/
  unitLinkStat : db.unitLinkStat.Same db'.unitLinkStat

theorem StatDb.Same.wiped {db db' : StatDb} (h : db.Same db') (start stop : Int) :
    (db.wiped start stop).Same (db'.wiped start stop) :=
  ⟨h.unitStat.update _ _, h.linkStat.update _ _, h.unitLinkStat.update _ _⟩

theorem StatPool.Same.refl (p : StatPool) : p.Same p := ⟨fun _ => rfl, fun _ => rfl, fun _ => rfl⟩

theorem StatPool.Same.symm {p p' : StatPool} (h : p.Same p') : p'.Same p :=
  ⟨fun k => (h.ustat k).symm, fun k => (h.lstat k).symm, fun k => (h.ulstat k).symm⟩

theorem StatPool.Same.trans {p₁ p₂ p₃ : StatPool} (h : p₁.Same p₂) (h' : p₂.Same p₃) :
    p₁.Same p₃ :=
  ⟨fun k => (h.ustat k).trans (h'.ustat k), fun k => (h.lstat k).trans (h'.lstat k),
    fun k => (h.ulstat k).trans (h'.ulstat k)⟩

theorem StatDb.Same.symm {db db' : StatDb} (h : db.Same db') : db'.Same db :=
  ⟨fun k => (h.unitStat k).symm, fun k => (h.linkStat k).symm, fun k => (h.unitLinkStat k).symm⟩

theorem StatDb.Same.trans {db₁ db₂ db₃ : StatDb} (h : db₁.Same db₂) (h' : db₂.Same db₃) :
    db₁.Same db₃ :=
  ⟨fun k => (h.unitStat k).trans (h'.unitStat k), fun k => (h.linkStat k).trans (h'.linkStat k),
    fun k => (h.unitLinkStat k).trans (h'.unitLinkStat k)⟩

section SaveEnd

variable [HashOrder]

theorem length_order {α : Type} {l l' : List α} (h : l.length = l'.length) :
    (HashOrder.order l).length = (HashOrder.order l').length := by
  rw [(HashOrder.perm l).length_eq, (HashOrder.perm l').length_eq, h]

theorem poolQueries_eq (p : StatPool) (db : StatDb) (calls : List Bool) :
    poolQueries p db calls =
      andThen (saveRecords unitRecSave (HashOrder.order p.ustat.rows) db calls) fun db calls =>
        andThen (saveRecords linkRecSave (HashOrder.order p.lstat.rows) db calls) fun db calls =>
          saveRecords unitLinkRecSave (HashOrder.order p.ulstat.rows) db calls := by
  rw [poolQueries, andThen]
  rcases saveRecords unitRecSave (HashOrder.order p.ustat.rows) db calls with ⟨o, calls⟩
  cases o with
  | none => rfl
  | some db =>
    simp only [andThen]
    rcases saveRecords linkRecSave (HashOrder.order p.lstat.rows) db calls with ⟨o, calls⟩
    cases o with
    | none => rfl
    | some db => rfl

/-- With the same number of records and the same outcomes, saves come to the same end. -/
theorem mbbStatPoolSave_both {p p' : StatPool} (h : p.Same p') (db db' : StatDb)
    (calls : List Bool) : BothOrNone db db' (p.saved db) (p'.saved db')
      (mbbStatPoolSave p db calls).1 (mbbStatPoolSave p' db' calls).1 := by
  rw [mbbStatPoolSave, mbbStatPoolSave]
  cases nextCall calls with
  | mk ok calls =>
    cases ok with
    | false => exact Or.inl ⟨rfl, rfl⟩
    | true =>
      refine transaction_both (fun calls => ?_) calls
      rw [poolQueries_eq, poolQueries_eq]
      -- the three tables, one after the other
      refine (saveRecords_sameEnd unitRecSave (length_order h.ustat.length_eq) db db'
        calls).andThen fun calls => ?_
      refine (saveRecords_sameEnd linkRecSave (length_order h.lstat.length_eq) _ _
        calls).andThen fun calls => ?_
      exact saveRecords_sameEnd unitLinkRecSave (length_order h.ulstat.length_eq) _ _ calls

end SaveEnd

/-! ## The order of feeding

Two runs with the same entries in another order have the same rows at any time, though not in the
same order.
-/

section Same

variable [HashOrder]

/-- In one table, the same entries in another order give the same rows. -/
theorem StatView.same_feedAll {K : Type} [DecidableEq K] (v : StatView K) {es es' : List StatEntry}
    (h : es.Perm es') {p p' : StatPool} (hp : (v.pool p).Same (v.pool p')) :
    (v.pool (es.foldl mbbStatFeed p)).Same (v.pool (es'.foldl mbbStatFeed p')) := by
  have hposts : (v.posts es).Perm (v.posts es') := h.map _
  rw [v.pool_feedAll, v.pool_feedAll]
  exact recUpdate_posts.same (fun k => (hposts.map Prod.fst).mem_iff)
    (fun k => Ledger.amount_perm hposts k) hp

theorem StatPool.Same.feedAll {p p' : StatPool} (hp : p.Same p') {es es' : List StatEntry}
    (h : es.Perm es') : (es.foldl mbbStatFeed p).Same (es'.foldl mbbStatFeed p') :=
  ⟨unitView.same_feedAll h hp.ustat, linkView.same_feedAll h hp.lstat,
    unitLinkView.same_feedAll h hp.ulstat⟩

/-- In one table, pools with the same rows are saved alike. -/
theorem StatView.same_saved {K : Type} [DecidableEq K] (v : StatView K) {p p' : StatPool}
    (hp : (v.pool p).Same (v.pool p')) {db db' : StatDb} (h : (v.table db).Same (v.table db')) :
    (v.table (p.saved db)).Same (v.table (p'.saved db')) := by
  have hkeys : ∀ (ht : Ledger K StatRec) (k : K),
      k ∈ (savedRows ht).map Prod.fst ↔ ¬ ht.get? k = none := by
    intro ht k
    rw [Ledger.get?_eq_none, not_not, savedRows, List.map_map]
    exact ((HashOrder.perm ht.rows).map Prod.fst).mem_iff
  rw [v.table_saved, v.table_saved]
  refine updateStat_posts.same (fun k => ?_) (fun k => ?_) h
  · rw [hkeys, hkeys, hp k]
  · rw [amount_savedRows_total, amount_savedRows_total, hp.total_eq]

theorem StatDb.Same.saved {db db' : StatDb} (h : db.Same db') {p p' : StatPool} (hp : p.Same p') :
    (p.saved db).Same (p'.saved db') :=
  ⟨unitView.same_saved hp.ustat h.unitStat, linkView.same_saved hp.lstat h.linkStat,
    unitLinkView.same_saved hp.ulstat h.unitLinkStat⟩

end Same

namespace StatWorld

/-- All pools and the databases have the same rows. -/
structure Same (s t : StatWorld) : Prop where
  /-- pools -/
  pools : ∀ p, (s.pools p).Same (t.pools p)
  /-- databases -/
  db : s.db.Same t.db

theorem Same.refl (s : StatWorld) : s.Same s :=
  ⟨fun _ => StatPool.Same.refl _, fun _ => rfl, fun _ => rfl, fun _ => rfl⟩

theorem Same.symm {s t : StatWorld} (h : s.Same t) : t.Same s :=
  ⟨fun p => (h.pools p).symm, h.db.symm⟩

theorem Same.trans {s t u : StatWorld} (h : s.Same t) (h' : t.Same u) : s.Same u :=
  ⟨fun p => (h.pools p).trans (h'.pools p), h.db.trans h'.db⟩

variable [HashOrder]

theorem Same.exec {s t : StatWorld} (h : s.Same t) (c : StatCmd) : (s.exec c).Same (t.exec c) := by
  cases c with
  | feed p e =>
    refine ⟨fun q => ?_, h.db⟩
    simp only [StatWorld.exec, Function.update_apply]
    by_cases hq : q = p
    · rw [if_pos hq, if_pos hq]
      exact (h.pools p).feedAll (List.Perm.refl [e])
    · rw [if_neg hq, if_neg hq]
      exact h.pools q
  | save p calls =>
    constructor
    · intro q
      simp only [StatWorld.exec, Function.update_apply]
      by_cases hq : q = p
      · rw [if_pos hq, if_pos hq]
        exact StatPool.Same.refl _
      · rw [if_neg hq, if_neg hq]
        exact h.pools q
    -- the task is cancelled, or a query fails, in both runs or in neither
    · rcases mbbStatPoolSave_both (h.pools p) s.db t.db calls with ⟨hs, ht⟩ | ⟨hs, ht⟩
      · simp only [StatWorld.exec, hs, ht]
        exact h.db
      · simp only [StatWorld.exec, hs, ht]
        exact h.db.saved (h.pools p)
  | wipe start stop calls =>
    refine ⟨h.pools, ?_⟩
    rcases mbbStatDbWipe_both start stop s.db t.db calls with ⟨hs, ht⟩ | ⟨hs, ht⟩
    · simp only [StatWorld.exec, hs, ht]
      exact h.db
    · simp only [StatWorld.exec, hs, ht]
      exact h.db.wiped start stop

theorem Same.run {s t : StatWorld} (h : s.Same t) (cmds : List StatCmd) :
    (s.run cmds).Same (t.run cmds) := by
  induction cmds generalizing s t with
  | nil => exact h
  | cons c cmds ih => exact ih (h.exec c)

/-- What calls of `mbb_stat_feed` do to one pool, and that they leave the database. -/
theorem run_feeds (feeds : List (ℕ × StatEntry)) (s : StatWorld) :
    (∀ p, (s.run (feeds.map fun f => .feed f.1 f.2)).pools p =
        ((feeds.filter fun f => decide (f.1 = p)).map Prod.snd).foldl mbbStatFeed (s.pools p)) ∧
      (s.run (feeds.map fun f => .feed f.1 f.2)).db = s.db := by
  induction feeds generalizing s with
  | nil => exact ⟨fun _ => rfl, rfl⟩
  | cons f feeds ih =>
    obtain ⟨hp, hdb⟩ := ih (s.exec (.feed f.1 f.2))
    refine ⟨fun p => (hp p).trans ?_, hdb⟩
    rw [List.filter_cons, exec]
    by_cases hf : f.1 = p
    · simp [hf]
    · simp [hf, Function.update_of_ne (Ne.symm hf)]

/-- Feeding in another order. -/
theorem same_run_feeds {feeds feeds' : List (ℕ × StatEntry)} (h : feeds.Perm feeds')
    (s : StatWorld) : (s.run (feeds.map fun f => .feed f.1 f.2)).Same
      (s.run (feeds'.map fun f => .feed f.1 f.2)) := by
  obtain ⟨hp, hdb⟩ := run_feeds feeds s
  obtain ⟨hp', hdb'⟩ := run_feeds feeds' s
  constructor
  · intro p
    rw [hp, hp']
    exact (StatPool.Same.refl _).feedAll ((h.filter _).map _)
  · rw [hdb, hdb']
    exact ⟨fun _ => rfl, fun _ => rfl, fun _ => rfl⟩

/-- An entry is fed before a call or after it, if the call does not save the pool of the entry. -/
theorem same_exec_comm {c c' : StatCmd} (h : c.Commutes c') (s : StatWorld) :
    ((s.exec c).exec c').Same ((s.exec c').exec c) := by
  cases c with
  | feed p e =>
    cases c' with
    | feed q e' => exact same_run_feeds (List.Perm.swap (q, e') (p, e) []) s
    | save q calls =>
      have hqp : q ≠ p := Ne.symm h
      simp only [exec, Function.update_of_ne hqp, Function.update_of_ne (Ne.symm hqp),
        Function.update_comm hqp]
      exact Same.refl _
    | wipe start stop calls => exact Same.refl _
  | save p calls => exact h.elim
  | wipe start stop calls => exact h.elim

/-- Runs that differ in the order of feeding end with the same rows. -/
theorem same_run_reordered {cmds cmds' : List StatCmd}
    (h : Relation.EqvGen StatCmd.Swap cmds cmds') (s : StatWorld) :
    (s.run cmds).Same (s.run cmds') := by
  induction h with
  | rel cmds cmds' hswap =>
    obtain ⟨before, hcomm, after⟩ := hswap
    rw [StatWorld.run, StatWorld.run, List.foldl_append, List.foldl_append]
    exact (same_exec_comm hcomm _).run after
  | refl cmds => exact Same.refl _
  | symm cmds cmds' _ ih => exact ih.symm
  | trans cmds₁ cmds₂ cmds₃ _ _ ih ih' => exact ih.trans ih'

/-! ## Every run

The two parts of the invariant: pools add up in words, and the database in numbers.
-/

/-- What holds in every state: pools add up in words, the database in numbers. -/
structure Inv (s : StatWorld) : Prop where
  /-- pools -/
  pools : ∀ p, (s.pools p).AddsUpMod
  /-- database -/
  db : s.db.AddsUp

theorem Inv.exec {s : StatWorld} (h : s.Inv) (hs : ∀ p, (s.pools p).Small) (c : StatCmd) :
    (s.exec c).Inv := by
  cases c with
  | feed p e =>
    refine ⟨fun q => ?_, h.db⟩
    simp only [StatWorld.exec, Function.update_apply]
    by_cases hq : q = p
    · rw [if_pos hq]
      exact (h.pools p).feed e
    · rw [if_neg hq]
      exact h.pools q
  | save p calls =>
    constructor
    · intro q
      simp only [StatWorld.exec, Function.update_apply]
      by_cases hq : q = p
      · rw [if_pos hq]
        exact StatPool.AddsUpMod.new
      · rw [if_neg hq]
        exact h.pools q
    · rcases mbbStatPoolSave_both (StatPool.Same.refl (s.pools p)) s.db s.db calls with
        ⟨hsave, -⟩ | ⟨hsave, -⟩
      · simp only [StatWorld.exec, hsave]
        exact h.db
      -- what was words in the pool is numbers in the database: this needs the bound
      · simp only [StatWorld.exec, hsave]
        exact h.db.saved ((h.pools p).addsUp (hs p))
  | wipe start stop calls =>
    refine ⟨h.pools, ?_⟩
    rcases mbbStatDbWipe_both start stop s.db s.db calls with ⟨hwipe, -⟩ | ⟨hwipe, -⟩
    · simp only [StatWorld.exec, hwipe]
      exact h.db
    · simp only [StatWorld.exec, hwipe]
      exact h.db.wiped start stop

theorem Inv.run {s : StatWorld} (h : s.Inv) (cmds : List StatCmd)
    (hs : ∀ cmds', cmds' <+: cmds → ∀ p, ((s.run cmds').pools p).Small) : (s.run cmds).Inv := by
  induction cmds generalizing s with
  | nil => exact h
  | cons c cmds ih =>
    -- the bound is for the pools as they are before the command
    refine ih (h.exec (hs [] List.nil_prefix) c) fun cmds' hc => ?_
    exact hs (c :: cmds') ((List.cons_prefix_cons).mpr ⟨rfl, hc⟩)

/-- New pools over a database. -/
def init (db : StatDb) : StatWorld := ⟨fun _ => mbbStatPoolNew, db⟩

/-- **Marginals.** In every run in which no sum of a pool reaches `2 ^ 63`, the tables by
unit and by link add up to the third in every pool and in the database; and a run that
feeds the same entries in another order ends with the same rows, also where what is done to
other pools and to the database stands between them. -/
theorem tables_add_up (db : StatDb) (hdb : db.AddsUp) (cmds : List StatCmd)
    (hs : ∀ cmds', cmds' <+: cmds → ∀ p, (((init db).run cmds').pools p).Small) :
    (∀ p, (((init db).run cmds).pools p).AddsUp) ∧ ((init db).run cmds).db.AddsUp ∧
      (∀ cmds', Relation.EqvGen StatCmd.Swap cmds cmds' →
        ((init db).run cmds).Same ((init db).run cmds')) ∧
      ∀ (before : List StatCmd) (feeds feeds' : List (ℕ × StatEntry)) (after : List StatCmd),
        feeds.Perm feeds' →
        cmds = before ++ feeds.map (fun f => StatCmd.feed f.1 f.2) ++ after →
        ((init db).run cmds).Same
          ((init db).run (before ++ feeds'.map (fun f => StatCmd.feed f.1 f.2) ++ after)) := by
  have hinv : ((init db).run cmds).Inv := Inv.run ⟨fun _ => StatPool.AddsUpMod.new, hdb⟩ cmds hs
  refine ⟨fun p => (hinv.pools p).addsUp (hs cmds List.prefix_rfl p), hinv.db,
    fun cmds' h => same_run_reordered h _, ?_⟩
  intro before feeds feeds' after hperm hcmds
  rw [hcmds, StatWorld.run, StatWorld.run, List.foldl_append, List.foldl_append,
    List.foldl_append, List.foldl_append]
  exact (same_run_feeds hperm _).run after

end StatWorld

open StatWorld in
/-- An entry is fed and its pool saved. -/
theorem tables_add_up_saved :
    letI := HashOrder.plain
    let cmds := [StatCmd.feed 0 ⟨7, 5, (0, 128), 1262306700⟩, StatCmd.save 0 []]
    ((init ⟨.empty, .empty, .empty⟩).run cmds).db.unitStat.get? ⟨1262304000, 7⟩ = some (0, 128) ∧
      ((init ⟨.empty, .empty, .empty⟩).run cmds).db.AddsUp := by
  let _ := HashOrder.plain
  refine ⟨by decide +kernel, (tables_add_up _ ⟨fun _ => rfl, fun _ => rfl⟩ _ ?_).2.1⟩
  intro cmds' hc p
  simp only [List.prefix_cons_iff, List.prefix_nil] at hc
  have hnew : mbbStatPoolNew.Small := StatPool.small_of_sum (by decide) (by decide)
  have hone : (mbbStatFeed mbbStatPoolNew ⟨7, 5, (0, 128), 1262306700⟩).Small :=
    StatPool.small_of_sum (by decide +kernel) (by decide +kernel)
  rcases hc with rfl | ⟨_, rfl, rfl | ⟨_, rfl, rfl⟩⟩
  · exact hnew
  · simp only [run, exec, init, List.foldl_cons, List.foldl_nil, Function.update_apply]
    by_cases hp : p = 0
    · rw [if_pos hp]
      exact hone
    · rw [if_neg hp]
      exact hnew
  · simp only [run, exec, init, List.foldl_cons, List.foldl_nil, Function.update_apply]
    by_cases hp : p = 0
    · rw [if_pos hp]
      exact hnew
    · rw [if_neg hp, if_neg hp]
      exact hnew

end Mbb
