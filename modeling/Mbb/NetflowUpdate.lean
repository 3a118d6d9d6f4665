import Mbb.Netflow

/-!
# Running an update twice

Every run of the task with calls that succeed ends, and leaves each table wiped and then
posted with what the files have for it. A second run gives the same counts exactly when
nothing was accounted to a row that is not wiped, and these are the rows of the hour in
which the interval starts, when it starts inside that hour.
-/

namespace Mbb

/-! ## Entries of a file -/

namespace FlowEnv

variable (env : FlowEnv)

/-- The entry of one direction of a flow. -/
def sideEntries (unit : Option ℕ) (peerLocal : Bool) (id : Int) (bytes : StatRec) (t : Int) :
    List StatEntry :=
  match unit with
  | none => []
  | some u =>
    if peerLocal then [] else if 0 ≤ id then [⟨(env.mem.unit u).id, id, bytes, t⟩] else []

/-- What `process_flow_data` feeds for a flow. -/
def flowEntries (fd : FlowData) : List StatEntry :=
  let una := mbbUmapFind env.umap fd.srcaddr.toNat fd.begin
  let unb := mbbUmapFind env.umap fd.dstaddr.toNat fd.begin
  env.sideEntries una (env.islocal unb) (env.getLinkId fd.exaddr fd.output fd.begin)
      (0, fd.nbytes.setWidth 64) fd.begin ++
    env.sideEntries unb (env.islocal una) (env.getLinkId fd.exaddr fd.input fd.begin)
      (fd.nbytes.setWidth 64, 0) fd.begin

theorem foldl_sideEntries (unit : Option ℕ) (peerLocal : Bool) (id : Int) (bytes : StatRec)
    (t : Int) (pool : StatPool) :
    (env.sideEntries unit peerLocal id bytes t).foldl mbbStatFeed pool =
      match unit with
      | none => pool
      | some u =>
        if peerLocal then pool
        else if 0 ≤ id then mbbStatFeed pool ⟨(env.mem.unit u).id, id, bytes, t⟩ else pool := by
  cases unit with
  | none => rfl
  | some u =>
    rw [sideEntries]
    by_cases hl : peerLocal = true
    · simp [hl]
    · by_cases hid : 0 ≤ id <;> simp [hl, hid]

theorem processFlowData_eq (fd : FlowData) (pool : StatPool) :
    env.processFlowData fd pool = (env.flowEntries fd).foldl mbbStatFeed pool := by
  rw [flowEntries, List.foldl_append, foldl_sideEntries, foldl_sideEntries]
  rfl

/-- All entries of a flow are of its time. -/
theorem point_of_mem {fd : FlowData} {e : StatEntry} (h : e ∈ env.flowEntries fd) :
    e.point = fd.begin := by
  have hside : ∀ unit peerLocal id bytes t, e ∈ env.sideEntries unit peerLocal id bytes t →
      e.point = t := by
    intro unit peerLocal id bytes t he
    cases unit with
    | none => cases he
    | some u =>
      rw [sideEntries] at he
      split at he
      · cases he
      · split at he
        · rw [List.mem_singleton.mp he]
        · cases he
  rcases List.mem_append.mp h with h | h
  · exact hside _ _ _ _ _ h
  · exact hside _ _ _ _ _ h

/-- What an update over `start ≤ begin < stop` feeds for the records of a file. -/
def windowEntries (start stop : Int) (recs : List FlowRec) : List StatEntry :=
  ((recs.map env.flowData).filter fun fd => decide (start ≤ fd.begin ∧ fd.begin < stop)).flatMap
    env.flowEntries

theorem windowEntries_cons (start stop : Int) (r : FlowRec) (recs : List FlowRec) :
    env.windowEntries start stop (r :: recs) =
      (if start ≤ (env.flowData r).begin ∧ (env.flowData r).begin < stop then
        env.flowEntries (env.flowData r) else []) ++ env.windowEntries start stop recs := by
  rw [windowEntries, List.map_cons, List.filter_cons]
  by_cases h : start ≤ (env.flowData r).begin ∧ (env.flowData r).begin < stop
  · rw [if_pos (decide_eq_true h), if_pos h, List.flatMap_cons]
    rfl
  · rw [if_neg fun h' => h (of_decide_eq_true h'), if_neg h]
    rfl

/-- The row of an entry starts before the end of the interval. -/
theorem hour_lt {start stop : Int} {recs : List FlowRec} {e : StatEntry}
    (h : e ∈ env.windowEntries start stop recs) : mbbStatExtractHour e.point < stop := by
  obtain ⟨fd, hfd, he⟩ := List.mem_flatMap.mp h
  obtain ⟨hfd, hwin⟩ := List.mem_filter.mp hfd
  obtain ⟨r, -, rfl⟩ := List.mem_map.mp hfd
  have hlt := (of_decide_eq_true hwin).2
  rw [env.point_of_mem he, mbbStatExtractHour]
  have hmod : 0 ≤ ((env.flowData r).begin).tmod 3600 :=
    Int.tmod_nonneg _ (Int.natCast_nonneg _)
  omega

/-- The entries whose row is that of an hour begun before the interval. -/
def lateEntries (start stop : Int) (recs : List FlowRec) : List StatEntry :=
  (env.windowEntries start stop recs).filter fun e => decide (mbbStatExtractHour e.point < start)

/-- An interval that starts with an hour has no hour begun before it. -/
theorem lateEntries_of_hour {start : Int} (stop : Int) (h : start ≤ 0 ∨ 3600 ∣ start)
    (recs : List FlowRec) : env.lateEntries start stop recs = [] := by
  refine List.filter_eq_nil_iff.mpr fun e he hlate => ?_
  obtain ⟨fd, hfd, he⟩ := List.mem_flatMap.mp he
  obtain ⟨hfd, hwin⟩ := List.mem_filter.mp hfd
  obtain ⟨r, -, rfl⟩ := List.mem_map.mp hfd
  have hstart := (of_decide_eq_true hwin).1
  have hlt := of_decide_eq_true hlate
  have hnonneg : 0 ≤ (env.flowData r).begin := Int.natCast_nonneg _
  rw [env.point_of_mem he, mbbStatExtractHour, Int.tmod_eq_emod_of_nonneg hnonneg] at hlt
  omega

/-- In no row do the flows of the file put bytes into an hour begun before the interval;
amounts are `guint64`s. -/
structure NoLateBytes (start stop : Int) (recs : List FlowRec) : Prop where
  /-- for a unit -/
  unit : ∀ k, Ledger.amount
    ((env.lateEntries start stop recs).map fun e => (e.unitKey, e.bytes)) k = 0
  /-- for a link -/
  link : ∀ k, Ledger.amount
    ((env.lateEntries start stop recs).map fun e => (e.linkKey, e.bytes)) k = 0
  /-- for a unit and a link -/
  unitLink : ∀ k, Ledger.amount
    ((env.lateEntries start stop recs).map fun e => (e.unitLinkKey, e.bytes)) k = 0

end FlowEnv

/-! ## The run of the task -/

/-- The loop ends in `s'`. -/
def Finishes (work : TaskState → Bool × TaskState) (s s' : TaskState) : Prop :=
  ∃ n, ∀ fuel, n ≤ fuel → taskLoop work fuel s = some s'

theorem Finishes.stop {work : TaskState → Bool × TaskState} {s s' : TaskState}
    (h : work s = (false, s')) : Finishes work s s' := by
  refine ⟨1, fun fuel hf => ?_⟩
  obtain ⟨fuel, rfl⟩ := Nat.exists_eq_add_of_le' hf
  rw [taskLoop, h]

theorem Finishes.step {work : TaskState → Bool × TaskState} {s t s' : TaskState}
    (h : work s = (true, t)) (hc : t.calls = []) (h' : Finishes work t s') :
    Finishes work s s' := by
  obtain ⟨n, hn⟩ := h'
  refine ⟨n + 1, fun fuel hf => ?_⟩
  obtain ⟨m, rfl⟩ := Nat.exists_eq_add_of_le' hf
  obtain ⟨td, db, calls⟩ := t
  obtain rfl : calls = [] := hc
  rw [← Nat.add_assoc, taskLoop, h]
  exact hn (m + n) (Nat.le_add_left n m)

section Run

variable [HashOrder] (env : FlowEnv) (start stop : Int)

/-- The pool of a file at its end. -/
def filePool (recs : List FlowRec) : StatPool :=
  (env.windowEntries start stop recs).foldl mbbStatFeed mbbStatPoolNew

/-- What a path does to the database. -/
def saveFile (db : StatDb) : Option (List FlowRec) → StatDb
  | none => db
  | some recs => (filePool env start stop recs).saved db

/-- What an update makes of the database. -/
def updatedDb (files : List (Option (List FlowRec))) (db : StatDb) : StatDb :=
  files.foldl (saveFile env start stop) (db.wiped start stop)

theorem finishes_flow {s' : TaskState} (pt : List (Option (List FlowRec))) (db : StatDb)
    (recs : List FlowRec) (pool : StatPool)
    (h : Finishes (baseTaskWork (updateTaskWork env start stop)) ⟨⟨none, none, pt⟩,
      ((env.windowEntries start stop recs).foldl mbbStatFeed pool).saved db, []⟩ s') :
    Finishes (baseTaskWork (updateTaskWork env start stop)) ⟨⟨some pool, some recs, pt⟩, db, []⟩
      s' := by
  induction recs generalizing pool with
  | nil =>
    refine Finishes.step (t := ⟨⟨none, none, pt⟩, pool.saved db, []⟩) ?_ rfl h
    simp only [baseTaskWork, updateTaskWork, Option.bind_some, FlowEnv.flowStreamRead,
      mbbStatPoolSave_nil]
  | cons r recs ih =>
    rw [env.windowEntries_cons, List.foldl_append] at h
    by_cases hwin : start ≤ (env.flowData r).begin ∧ (env.flowData r).begin < stop
    · rw [if_pos hwin, ← env.processFlowData_eq] at h
      refine Finishes.step ?_ rfl (ih _ h)
      simp only [baseTaskWork, updateTaskWork, Option.bind_some, FlowEnv.flowStreamRead,
        if_pos hwin, Option.map_some]
    · rw [if_neg hwin, List.foldl_nil] at h
      refine Finishes.step ?_ rfl (ih _ h)
      simp only [baseTaskWork, updateTaskWork, Option.bind_some, FlowEnv.flowStreamRead,
        if_neg hwin]

theorem finishes_paths (files : List (Option (List FlowRec))) (db : StatDb) :
    Finishes (baseTaskWork (updateTaskWork env start stop)) ⟨⟨none, none, files⟩, db, []⟩
      ⟨⟨none, none, []⟩, files.foldl (saveFile env start stop) db, []⟩ := by
  induction files generalizing db with
  | nil => exact Finishes.stop rfl
  | cons file files ih =>
    rw [List.foldl_cons]
    cases file with
    | none => exact Finishes.step rfl rfl (ih db)
    | some recs =>
      refine Finishes.step rfl rfl (finishes_flow env start stop files db recs mbbStatPoolNew ?_)
      exact ih _

theorem updateRuns (files : List (Option (List FlowRec))) (db : StatDb) :
    UpdateRuns env start stop files db (updatedDb env start stop files db) := by
  obtain ⟨n, hn⟩ := finishes_paths env start stop files (db.wiped start stop)
  refine ⟨n, fun fuel hf => ?_⟩
  have hinit : updateTaskInit start stop db [] = (true, db.wiped start stop, []) :=
    mbbStatDbWipe_nil start stop db
  rw [updateTask, hinit]
  simp only [hn fuel hf, Option.map_some, updatedDb]

end Run

/-! ## One table in two runs -/

namespace StatView

variable [HashOrder] {K : Type} [DecidableEq K] (v : StatView K) (env : FlowEnv)
  (start stop : Int)

/-- The postings of a path. -/
def pathPosts : Option (List FlowRec) → List (K × (Int × Int))
  | none => []
  | some recs => savedRows (v.pool (filePool env start stop recs))

/-- The postings of the files. -/
def filePosts (files : List (Option (List FlowRec))) : List (K × (Int × Int)) :=
  files.flatMap (v.pathPosts env start stop)

theorem filePosts_cons (file : Option (List FlowRec)) (files : List (Option (List FlowRec))) :
    v.filePosts env start stop (file :: files) =
      v.pathPosts env start stop file ++ v.filePosts env start stop files := List.flatMap_cons

theorem table_files (files : List (Option (List FlowRec))) (db : StatDb) :
    v.table (files.foldl (saveFile env start stop) db) =
      (v.filePosts env start stop files).foldl (fun t r => updateStat t r.1 r.2) (v.table db) := by
  induction files generalizing db with
  | nil => rfl
  | cons file files ih =>
    rw [List.foldl_cons, ih, filePosts_cons, List.foldl_append]
    cases file with
    | none => rfl
    | some recs =>
      rw [saveFile, v.table_saved]
      rfl

/-- The rows a wipe selects. -/
def wipes (k : K) : Bool := decide (start ≤ v.point k) && decide (v.point k < stop)

theorem refilled (files : List (Option (List FlowRec))) (db : StatDb) :
    Ledger.Refilled (v.wipes start stop) (v.filePosts env start stop files) (v.table db)
      (v.table (updatedDb env start stop files db)) := by
  intro k
  rw [updatedDb, table_files, updateStat_posts.foldl, v.table_wiped]
  rfl

theorem amount_filePosts_nonneg (files : List (Option (List FlowRec))) (k : K) :
    0 ≤ Ledger.amount (v.filePosts env start stop files) k := by
  induction files with
  | nil => exact le_refl 0
  | cons file files ih =>
    rw [filePosts_cons, Ledger.amount_append]
    refine add_nonneg ?_ ih
    cases file with
    | none => exact le_refl 0
    | some recs =>
      rw [pathPosts, filePool, v.amount_savedRows]
      exact StatRec.toBigint_nonneg _

/-- Nothing is posted to a row iff no file has bytes for it. -/
theorem amount_filePosts_eq_zero (files : List (Option (List FlowRec))) (k : K) :
    Ledger.amount (v.filePosts env start stop files) k = 0 ↔
      ∀ recs, some recs ∈ files →
        Ledger.amount (v.posts (env.windowEntries start stop recs)) k = 0 := by
  induction files with
  | nil => simp [filePosts]
  | cons file files ih =>
    have hrest := v.amount_filePosts_nonneg env start stop files k
    rw [filePosts_cons, Ledger.amount_append]
    cases file with
    | none =>
      rw [pathPosts, Ledger.amount_nil, zero_add, ih]
      simp
    | some recs =>
      rw [pathPosts, filePool, v.amount_savedRows,
        add_eq_zero_iff_of_nonneg (StatRec.toBigint_nonneg _) hrest, StatRec.toBigint_eq_zero]
      constructor
      · rintro ⟨h, hs⟩ recs' hmem
        rcases List.mem_cons.mp hmem with hmem | hmem
        · rw [Option.some.inj hmem]
          exact h
        · exact ih.mp hs recs' hmem
      · intro h
        exact ⟨h recs List.mem_cons_self,
          ih.mpr fun recs' hmem => h recs' (List.mem_cons_of_mem _ hmem)⟩

/-- Postings to a row of an hour begun before the interval. -/
theorem amount_late (recs : List FlowRec) (k : K) :
    Ledger.amount (v.posts (env.lateEntries start stop recs)) k =
      if v.point k < start then Ledger.amount (v.posts (env.windowEntries start stop recs)) k
      else 0 := by
  have hfilter : ∀ es : List StatEntry, Ledger.amount
      (v.posts (es.filter fun e => decide (mbbStatExtractHour e.point < start))) k =
      if v.point k < start then Ledger.amount (v.posts es) k else 0 := by
    intro es
    induction es with
    | nil => simp [posts]
    | cons e es ih =>
      rw [List.filter_cons]
      by_cases hk : v.key e = k
      · subst hk
        rw [v.point_key] at ih ⊢
        by_cases he : mbbStatExtractHour e.point < start
        · rw [if_pos he] at ih ⊢
          rw [if_pos (decide_eq_true he), posts, List.map_cons, Ledger.amount_cons, if_pos rfl,
            posts, List.map_cons, Ledger.amount_cons, if_pos rfl]
          rw [posts, posts] at ih
          rw [ih]
        · rw [if_neg he] at ih ⊢
          rw [if_neg fun h => he (of_decide_eq_true h), ih]
      · have hcons : Ledger.amount (v.posts (e :: es)) k = Ledger.amount (v.posts es) k := by
          rw [posts, List.map_cons, Ledger.amount_cons, if_neg hk]
          rfl
        rw [hcons, ← ih]
        by_cases he : mbbStatExtractHour e.point < start
        · rw [if_pos (decide_eq_true he), posts, List.map_cons, Ledger.amount_cons, if_neg hk]
          rfl
        · rw [if_neg fun h => he (of_decide_eq_true h)]
  exact hfilter _

/-- A row that is not wiped and receives bytes is one of an hour begun before the
interval. -/
theorem window_iff_late (recs : List FlowRec) :
    (∀ k, v.wipes start stop k = false →
        Ledger.amount (v.posts (env.windowEntries start stop recs)) k = 0) ↔
      ∀ k, Ledger.amount (v.posts (env.lateEntries start stop recs)) k = 0 := by
  refine forall_congr' fun k => ?_
  rw [amount_late]
  by_cases hk : v.point k < start
  · have hw : v.wipes start stop k = false := by
      rw [wipes, decide_eq_false (not_le.mpr hk), Bool.false_and]
    rw [if_pos hk]
    exact ⟨fun h => h hw, fun h _ => h⟩
  · rw [if_neg hk]
    refine ⟨fun _ => rfl, fun _ hw => Ledger.amount_eq_zero fun hmem => ?_⟩
    rw [posts, List.map_map] at hmem
    obtain ⟨e, he, rfl⟩ := List.mem_map.mp hmem
    have hlt := env.hour_lt he
    rw [← v.point_key] at hlt
    rw [wipes, decide_eq_true (not_lt.mp hk), Function.comp_apply, decide_eq_true hlt] at hw
    exact absurd hw (by simp)

/-- When a second run leaves the table as the first did. -/
theorem twice_iff (files : List (Option (List FlowRec))) (db : StatDb) :
    (∀ k, (v.table (updatedDb env start stop files (updatedDb env start stop files db))).get? k =
        (v.table (updatedDb env start stop files db)).get? k) ↔
      ∀ recs, some recs ∈ files →
        ∀ k, Ledger.amount (v.posts (env.lateEntries start stop recs)) k = 0 := by
  rw [(v.refilled env start stop files db).twice_iff (v.refilled env start stop files _)]
  simp only [amount_filePosts_eq_zero, ← window_iff_late]
  exact ⟨fun h recs hm k hk => h k hk recs hm, fun h k hk recs hm => h recs hm k hk⟩

end StatView

/-! ## The update -/

section Update

variable [HashOrder] (env : FlowEnv) (start stop : Int)

theorem sameCounts_twice_iff (files : List (Option (List FlowRec))) (db : StatDb) :
    (updatedDb env start stop files (updatedDb env start stop files db)).SameCounts
        (updatedDb env start stop files db) ↔
      ∀ recs, some recs ∈ files → env.NoLateBytes start stop recs := by
  have hu := unitView.twice_iff env start stop files db
  have hl := linkView.twice_iff env start stop files db
  have hul := unitLinkView.twice_iff env start stop files db
  constructor
  · rintro ⟨h1, h2, h3⟩ recs hm
    exact ⟨hu.mp h1 recs hm, hl.mp h2 recs hm, hul.mp h3 recs hm⟩
  · intro h
    exact ⟨hu.mpr fun recs hm => (h recs hm).unit, hl.mpr fun recs hm => (h recs hm).link,
      hul.mpr fun recs hm => (h recs hm).unitLink⟩

/-- When an update can be run again: the flows of the interval must put no bytes into the
hour begun before it. -/
theorem update_twice_iff (files : List (Option (List FlowRec))) (db : StatDb) :
    ∃ db₁ db₂, UpdateRuns env start stop files db db₁ ∧ UpdateRuns env start stop files db₁ db₂ ∧
      (db₂.SameCounts db₁ ↔
        ∀ recs, some recs ∈ files → env.NoLateBytes start stop recs) :=
  ⟨_, _, updateRuns env start stop files db, updateRuns env start stop files _,
    sameCounts_twice_iff env start stop files db⟩

/-- An update of whole hours can be run again. -/
theorem update_again_of_hour (h : start ≤ 0 ∨ 3600 ∣ start)
    (files : List (Option (List FlowRec))) (db : StatDb) :
    (updatedDb env start stop files (updatedDb env start stop files db)).SameCounts
      (updatedDb env start stop files db) := by
  refine (sameCounts_twice_iff env start stop files db).mpr fun recs _ => ?_
  have hnil := env.lateEntries_of_hour stop h recs
  constructor <;> rw [hnil] <;> exact fun _ => rfl

end Update

/-- A mapped block, a gateway with one link, and a flow library whose clock is that of the
exporter. -/
def exampleEnv : FlowEnv where
  mem := exampleMemory []
  gws := [⟨1, 0xc0a80001, some [(3, [⟨5, 3, 0, 0⟩])]⟩]
  umap := [⟨[⟨7, 0, 0⟩], 0x0a000000, 0x0affffff⟩]
  ftltime _ secs _ _ := secs

/-- A packet of 100 octets sent at 2010-01-01 00:45:00. -/
def exampleFlow : FlowRec where
  srcaddr := 0x0a000001
  dstaddr := 0x01010101
  exaddr := 0xc0a80001
  dOctets := 100
  dPkts := 1
  input := 4
  output := 3
  unixSecs := 1262306700
  unixNsecs := 0
  sysUpTime := 0
  first := 0

/-- Run over 00:30:00 to 01:00:00, the packet is in the row of 00:00:00, which is not
wiped. -/
theorem update_twice_doubles :
    letI := HashOrder.plain
    ∃ db₁ db₂, (1262305800 : Int) < 1262307600 ∧
      UpdateRuns exampleEnv 1262305800 1262307600 [some [exampleFlow]]
        ⟨.empty, .empty, .empty⟩ db₁ ∧
      UpdateRuns exampleEnv 1262305800 1262307600 [some [exampleFlow]] db₁ db₂ ∧
      db₁.unitStat.get? ⟨1262304000, 7⟩ = some (0, 128) ∧
      db₂.unitStat.get? ⟨1262304000, 7⟩ = some (0, 256) ∧ ¬ db₂.SameCounts db₁ := by
  let _ := HashOrder.plain
  have h₁ : (updatedDb exampleEnv 1262305800 1262307600 [some [exampleFlow]]
      ⟨.empty, .empty, .empty⟩).unitStat.get? ⟨1262304000, 7⟩ = some (0, 128) := by
    decide +kernel
  have h₂ : (updatedDb exampleEnv 1262305800 1262307600 [some [exampleFlow]]
      (updatedDb exampleEnv 1262305800 1262307600 [some [exampleFlow]]
        ⟨.empty, .empty, .empty⟩)).unitStat.get? ⟨1262304000, 7⟩ = some (0, 256) := by
    decide +kernel
  refine ⟨_, _, by decide, updateRuns exampleEnv _ _ _ _, updateRuns exampleEnv _ _ _ _, h₁, h₂,
    fun hsame => ?_⟩
  have hkey := hsame.1 ⟨1262304000, 7⟩
  rw [h₁, h₂] at hkey
  exact absurd hkey (by decide)

end Mbb
