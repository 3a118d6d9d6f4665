import Mbb.Keys

/-!
# Writing to sockets (`lib/net.c`)

`write_all` calls `write` until everything has gone out or `write` fails. It keeps a pointer
to what is left, but hands `buf` to `write` every time: after a short write it writes the
beginning of the buffer again.
-/

namespace Mbb

/-- The loop of `write_all`: `pos` is `s - buf`, `results` is what the calls of `write` return
before it fails or returns 0. Gives what `write` has accepted and the pointer in the end. -/
def writeLoop (buf : List UInt8) : List Int → ℕ → List UInt8 × ℕ
  | [], pos => ([], pos)
  | r :: results, pos =>
    -- `int n`
    let n := toGint r
    if 0 < n then
      let rest := writeLoop buf results (pos + n.toNat)
      (buf.take r.toNat ++ rest.1, rest.2)
    else (buf.take r.toNat, pos)

/-- `write_all` for a buffer of `count` bytes: what `write` has accepted, and the answer. -/
def writeAll (buf : List UInt8) (results : List Int) : List UInt8 × Int :=
  let r := writeLoop buf results 0
  (r.1, toGint r.2)

/-- Each call of `write` returns 1 or more, and not more than it is asked for. -/
def WriteResults : ℕ → List Int → Prop
  | _, [] => True
  | count, r :: results =>
    1 ≤ r ∧ r ≤ count ∧
      if 0 < toGint r then WriteResults (count - (toGint r).toNat) results else results = []

/-- What `write` has accepted is the beginning of the buffer, as long as the answer says, and
the whole buffer when the lengths accepted sum to its length. -/
def WritesAll (buf : List UInt8) (results : List Int) : Prop :=
  (writeAll buf results).1 <+: buf ∧ (writeAll buf results).2 = (writeAll buf results).1.length ∧
    (results.sum = buf.length → (writeAll buf results).1 = buf)

/-- What is accepted fits an `int`, and wherever a write starts the buffer repeats its beginning
for the length that is accepted. -/
def WriteOk (buf : List UInt8) (results : List Int) : Prop :=
  results.sum < 2 ^ 31 ∧ ∀ before r after, results = before ++ r :: after →
    (buf.drop before.sum.toNat).take r.toNat = buf.take r.toNat

variable {buf : List UInt8} {results : List Int} {count : ℕ}

theorem WriteResults.pos (h : WriteResults count results) : ∀ r ∈ results, 1 ≤ r := by
  induction results generalizing count with
  | nil => simp
  | cons r results ih =>
    obtain ⟨hpos, -, hrest⟩ := h
    intro r' hr'
    rcases List.mem_cons.mp hr' with rfl | hr'
    · exact hpos
    · split at hrest
      · exact ih hrest r' hr'
      · rw [hrest] at hr'
        cases hr'

theorem sum_nonneg_of_pos (h : ∀ r ∈ results, 1 ≤ r) : 0 ≤ results.sum := by
  induction results with
  | nil => simp
  | cons r results ih =>
    have hr := h r List.mem_cons_self
    have hrest := ih fun r hr => h r (List.mem_cons_of_mem _ hr)
    rw [List.sum_cons]
    omega

/-- What is accepted is never longer than the sum of the results. -/
theorem length_writeLoop (h : WriteResults count results) (hcount : count ≤ buf.length) (pos : ℕ) :
    ((writeLoop buf results pos).1.length : Int) = results.sum := by
  induction results generalizing count pos with
  | nil => rfl
  | cons r results ih =>
    obtain ⟨hpos, hle, hrest⟩ := h
    rw [writeLoop]
    dsimp only
    split at hrest
    · rename_i hn
      rw [if_pos hn, List.length_append, List.length_take, List.sum_cons,
        ← ih hrest (by omega) (pos + (toGint r).toNat)]
      omega
    · rename_i hn
      rw [if_neg hn, List.length_take, hrest, List.sum_singleton]
      omega

/-- The results are bounded by the length of the buffer. -/
theorem WriteResults.le (h : WriteResults count results) : ∀ r ∈ results, r ≤ count := by
  induction results generalizing count with
  | nil => simp
  | cons r results ih =>
    obtain ⟨hpos, hle, hrest⟩ := h
    intro r' hr'
    rcases List.mem_cons.mp hr' with rfl | hr'
    · exact hle
    · split at hrest
      · have := ih hrest r' hr'
        omega
      · rw [hrest] at hr'
        cases hr'

/-- Lengths that fit an `int`: the beginning of the buffer is written again and again. -/
theorem writeLoop_of_lt (hpos : ∀ r ∈ results, 1 ≤ r) (hsum : results.sum < 2 ^ 31) (pos : ℕ) :
    writeLoop buf results pos =
      ((results.map fun r => buf.take r.toNat).flatten, pos + results.sum.toNat) := by
  induction results generalizing pos with
  | nil => rfl
  | cons r results ih =>
    have hr := hpos r List.mem_cons_self
    have hpos' : ∀ r ∈ results, 1 ≤ r := fun r hr => hpos r (List.mem_cons_of_mem _ hr)
    have hrest := sum_nonneg_of_pos hpos'
    rw [List.sum_cons] at hsum
    have hn : toGint r = r := toGint_of_lt (by omega) (by omega)
    rw [writeLoop]
    dsimp only
    rw [hn, if_pos (by omega), ih hpos' (by omega), List.map_cons, List.flatten_cons, List.sum_cons]
    refine Prod.ext rfl ?_
    simp only
    omega

/-- A property of every place of a list. -/
theorem forall_split_cons {P : Int → Int → Prop} {r : Int} :
    (∀ before r' after, r :: results = before ++ r' :: after → P before.sum r') ↔
      P 0 r ∧ ∀ before r' after, results = before ++ r' :: after → P (r + before.sum) r' := by
  refine ⟨fun h => ⟨h [] r results rfl, fun before r' after heq => ?_⟩,
    fun h before r' after heq => ?_⟩
  · rw [← List.sum_cons]
    exact h (r :: before) r' after (by rw [heq, List.cons_append])
  · cases before with
    | nil =>
      obtain ⟨rfl, -⟩ := List.cons.inj heq
      exact h.1
    | cons a before =>
      obtain ⟨rfl, hrest⟩ := List.cons.inj heq
      rw [List.sum_cons]
      exact h.2 before r' after hrest

theorem append_prefix_iff {p q l : List UInt8} {n : ℕ} (hn : p.length = n) :
    p ++ q <+: l ↔ l.take n = p ∧ q <+: l.drop n := by
  refine ⟨?_, ?_⟩
  · rintro ⟨s, rfl⟩
    rw [List.append_assoc, List.take_left' hn, List.drop_left' hn]
    exact ⟨rfl, List.prefix_append q s⟩
  · rintro ⟨hp, s, hs⟩
    refine ⟨s, ?_⟩
    rw [List.append_assoc, hs, ← hp, List.take_append_drop]

/-- Beginnings of the buffer in a row are a beginning of `l` just when `l` repeats them. -/
theorem flatten_take_prefix_iff (hpos : ∀ r ∈ results, 1 ≤ r)
    (hle : ∀ r ∈ results, r ≤ buf.length) :
    ∀ {l : List UInt8}, (results.map fun r => buf.take r.toNat).flatten <+: l ↔
      ∀ before r after, results = before ++ r :: after →
        (l.drop before.sum.toNat).take r.toNat = buf.take r.toNat := by
  induction results with
  | nil => simp
  | cons r results ih =>
    intro l
    have hr := hpos r List.mem_cons_self
    have hrle := hle r List.mem_cons_self
    have hpos' : ∀ r ∈ results, 1 ≤ r := fun r hr => hpos r (List.mem_cons_of_mem _ hr)
    have hlen : (buf.take r.toNat).length = r.toNat := by
      rw [List.length_take]
      omega
    rw [forall_split_cons (P := fun p r => (l.drop p.toNat).take r.toNat = buf.take r.toNat)]
    have hrest : (∀ before r' after, results = before ++ r' :: after →
          (l.drop (r + before.sum).toNat).take r'.toNat = buf.take r'.toNat) ↔
        (results.map fun r => buf.take r.toNat).flatten <+: l.drop r.toNat := by
      rw [ih hpos' fun r hr => hle r (List.mem_cons_of_mem _ hr)]
      refine forall_congr' fun before => forall_congr' fun r' => forall_congr' fun after =>
        forall_congr' fun heq => ?_
      have hb : 0 ≤ before.sum := sum_nonneg_of_pos fun a ha =>
        hpos' a (heq ▸ List.mem_append_left _ ha)
      rw [List.drop_drop, Int.toNat_add (by omega) hb]
    rw [hrest, List.map_cons, List.flatten_cons, append_prefix_iff hlen]
    rfl

/-- `write_all` writes the buffer just when the buffer repeats itself at every short write. -/
theorem writesAll_iff (h : WriteResults buf.length results) :
    WritesAll buf results ↔ WriteOk buf results := by
  have hpos := h.pos
  have hlength := length_writeLoop h (Nat.le_refl _) 0
  rw [WritesAll, WriteOk]
  by_cases hsum : results.sum < 2 ^ 31
  · have hnonneg := sum_nonneg_of_pos hpos
    have hall : writeAll buf results =
        ((results.map fun r => buf.take r.toNat).flatten, results.sum) := by
      rw [writeAll, writeLoop_of_lt hpos hsum, Nat.zero_add, Int.toNat_of_nonneg hnonneg,
        toGint_of_lt (by omega) hsum]
    rw [writeLoop_of_lt hpos hsum] at hlength
    rw [hall, ← flatten_take_prefix_iff hpos h.le]
    refine ⟨fun hw => ⟨hsum, hw.1⟩, fun hw => ⟨hw.2, hlength.symm, fun heq => ?_⟩⟩
    -- a beginning that is as long as the buffer is the buffer
    apply hw.2.eq_of_length
    simp only at hlength ⊢
    omega
  · refine iff_of_false (fun hw => ?_) fun hok => hsum hok.1
    -- the answer is an `int`
    have hret := hw.2.1
    have hint : toGint ((writeLoop buf results 0).2 : Int) < 2 ^ 31 := by
      rw [toGint, Int.bmod_def]
      split <;> omega
    simp only [writeAll] at hret
    omega

/-- Three writes take a buffer that repeats itself, and all of it is written. -/
theorem writesAll_iff_short : WriteResults 5 [2, 2, 1] ∧ WriteOk [7, 8, 7, 8, 7] [2, 2, 1] ∧
    (WritesAll [7, 8, 7, 8, 7] [2, 2, 1] ↔ WriteOk [7, 8, 7, 8, 7] [2, 2, 1]) := by
  have h : WriteResults 5 [2, 2, 1] := by
    refine ⟨by decide, by decide, ?_⟩
    rw [if_pos (by decide)]
    refine ⟨by decide, by decide, ?_⟩
    rw [if_pos (by decide)]
    refine ⟨by decide, by decide, ?_⟩
    rw [if_pos (by decide)]
    trivial
  have hiff : WritesAll [7, 8, 7, 8, 7] [2, 2, 1] ↔ WriteOk [7, 8, 7, 8, 7] [2, 2, 1] :=
    writesAll_iff h
  exact ⟨h, hiff.mp ⟨by decide, by decide, fun _ => by decide⟩, hiff⟩

/-- Two writes of one byte each: the first byte goes out twice. -/
theorem not_writesAll_two_writes : WriteResults 2 [1, 1] ∧ ¬ WritesAll [1, 2] [1, 1] := by
  refine ⟨⟨by decide, by decide, ?_⟩, fun h => ?_⟩
  · rw [if_pos (by decide)]
    refine ⟨by decide, by decide, ?_⟩
    rw [if_pos (by decide)]
    trivial
  · have := h.2.2 (by decide)
    revert this
    decide

end Mbb
