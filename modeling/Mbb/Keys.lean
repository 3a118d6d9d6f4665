import Mbb.SlicerRun

/-!
# The keys of the program: times and addresses

A slicer sees its keys as pointers, which are natural numbers here; `0` is `NULL`.
`time_t` has 64 bits with sign, `ipv4_t` 32 bits without, and a difference of two
times returned as `gint` keeps its low 32 bits only.

The orders are right on the instants below `2 ^ 31` and on all addresses, and the
neighbours are right except where `dec` reaches `0`: a range that begins at `1` leaves
a slice that would end at `0`, which is the open end.
-/

namespace Mbb

/-! ## Conversions -/

/-- `TIME_TO_POINTER` -/
def timeToPointer (t : Int) : ℕ := (t % 2 ^ 64).toNat

/-- `GPOINTER_TO_TIME` -/
def pointerToTime (p : ℕ) : Int := Int.bmod p (2 ^ 64)

/-- `IPV4_TO_POINTER` -/
def ipv4ToPointer (ip : ℕ) : ℕ := ip % 2 ^ 32

/-- `GPOINTER_TO_IPV4` -/
def pointerToIpv4 (p : ℕ) : ℕ := p % 2 ^ 32

/-- Conversion of an integer to `gint`. -/
def toGint (n : Int) : Int := Int.bmod n (2 ^ 32)

/-- `IPV4_MAX` -/
def ipv4Max : ℕ := 0xffffffff

/-! ## `timeslicer.c` -/

/-- `time_cmp` -/
def timeCmp (a b : ℕ) : Int := toGint (pointerToTime a - pointerToTime b)

/-- `time_inc` -/
def timeInc (p : ℕ) : ℕ := timeToPointer (pointerToTime p + 1)

/-- `time_dec` -/
def timeDec (p : ℕ) : ℕ :=
  let t := pointerToTime p
  timeToPointer (if 0 < t then t - 1 else t)

/-- `time_ops` -/
def timeOps : SliceOps ℕ := ⟨timeCmp, id, timeInc, timeDec⟩

/-- `time_slicer_new` -/
def timeSlicerNew (D : Type) [TreeShape ℕ] : Slicer ℕ D := Slicer.new.init timeOps 0 0

/-! ## `inetslicer.c` -/

/-- `inet_cmp` -/
def inetCmp (a b : ℕ) : Int :=
  let ip1 := pointerToIpv4 a
  let ip2 := pointerToIpv4 b
  if ip1 < ip2 then -1 else if ip2 < ip1 then 1 else 0

/-- `inet_inc` -/
def inetInc (p : ℕ) : ℕ :=
  let ip := pointerToIpv4 p
  ipv4ToPointer (if ip < ipv4Max then ip + 1 else ip)

/-- `inet_dec` -/
def inetDec (p : ℕ) : ℕ :=
  let ip := pointerToIpv4 p
  ipv4ToPointer (if 0 < ip then ip - 1 else ip)

/-- `inet_ops` -/
def inetOps : SliceOps ℕ := ⟨inetCmp, id, inetInc, inetDec⟩

/-- `inet_slicer_new` -/
def inetSlicerNew (D : Type) [TreeShape ℕ] : Slicer ℕ D :=
  Slicer.new.init inetOps 0 (ipv4ToPointer ipv4Max)

/-! ## `range.c` -/

/-- `struct inet`: a block as `atoinet` accepts it. -/
structure Inet : Type where
  /-- the address -/
  addr : ℕ
  /-- the number of leading bits that count -/
  mask : ℕ
  /-- addresses have 32 bits -/
  addr_lt : addr < 2 ^ 32
  /-- `atoinet` refuses longer masks -/
  mask_le : mask ≤ 32
  deriving DecidableEq

/-- `struct range` -/
structure Range : Type where
  /-- first address -/
  rMin : ℕ
  /-- last address -/
  rMax : ℕ
  deriving DecidableEq

/-- `range_new_uno` -/
def rangeNewUno (value : ℕ) : Range := ⟨value, value⟩

/-- `inet2range` -/
def inet2range (inet : Inet) : Range :=
  if 32 ≤ inet.mask then rangeNewUno inet.addr
  else
    let tmp := 0xffffffff >>> inet.mask
    let mask := 0xffffffff ^^^ tmp
    let ip := inet.addr &&& mask
    ⟨ip, ip ||| tmp⟩

/-- The first address of a block is not above the last one. -/
theorem inet2range_le (inet : Inet) : (inet2range inet).rMin ≤ (inet2range inet).rMax := by
  rw [inet2range]
  split
  · exact le_rfl
  · exact Nat.left_le_or

/-- The last address of a block is an address. -/
theorem inet2range_lt (inet : Inet) : (inet2range inet).rMax < 2 ^ 32 := by
  have htmp : 0xffffffff >>> inet.mask < 2 ^ 32 := by
    rw [Nat.shiftRight_eq_div_pow]
    exact lt_of_le_of_lt (Nat.div_le_self _ _) (by decide)
  rw [inet2range]
  split
  · exact inet.addr_lt
  · exact Nat.or_lt_two_pow (Nat.and_lt_two_pow _ (Nat.xor_lt_two_pow (by decide) htmp)) htmp

/-! ## The orders

`time_cmp` and `inet_cmp` are right on a domain of keys each. Outside of
the domains nothing is said here.
-/

/-- The instants the order of `time_cmp` is right for. -/
def timeDom (p : ℕ) : Prop := p < 2 ^ 31

/-- The addresses. -/
def inetDom (p : ℕ) : Prop := p < 2 ^ 32

/-- There is an instant. -/
theorem exists_timeDom : ∃ p, timeDom p := ⟨0, by rw [timeDom]; decide⟩

/-- There is an address. -/
theorem exists_inetDom : ∃ p, inetDom p := ⟨0, by rw [inetDom]; decide⟩

/-- A pointer below `2 ^ 63` is read as the time it stands for. -/
theorem pointerToTime_of_lt {p : ℕ} (h : p < 2 ^ 63) : pointerToTime p = p := by
  refine Int.bmod_eq_of_le_mul_two ?_ ?_
  · omega
  · norm_cast
    omega

/-- A time that is not negative is its own pointer. -/
theorem timeToPointer_of_lt {p : ℕ} (h : p < 2 ^ 64) : timeToPointer p = p := by
  rw [timeToPointer]
  omega

/-- An integer in the range of `gint` is kept. -/
theorem toGint_of_lt {n : Int} (h1 : -2 ^ 31 ≤ n) (h2 : n < 2 ^ 31) : toGint n = n := by
  rw [toGint, Int.bmod_def]
  split <;> omega

/-- A `guint` is kept by `%d` exactly when it is below `2 ^ 31`. -/
theorem toGint_eq_self_iff {n : ℕ} : toGint n = n ↔ n < 2 ^ 31 := by
  refine ⟨fun h => ?_, fun h => toGint_of_lt (by omega) (by omega)⟩
  have hlt : Int.bmod n (2 ^ 32) < (2 ^ 32 + 1) / 2 := Int.bmod_lt (by decide)
  rw [toGint] at h
  omega

/-- Between instants below `2 ^ 31` the difference fits into a `gint`. -/
theorem timeCmp_of_lt {a b : ℕ} (ha : timeDom a) (hb : timeDom b) : timeCmp a b = a - b := by
  rw [timeDom] at ha hb
  rw [timeCmp, pointerToTime_of_lt (by omega), pointerToTime_of_lt (by omega),
    toGint_of_lt (by omega) (by omega)]

/-- The next instant. -/
theorem timeInc_of_lt {p : ℕ} (h : timeDom p) : timeInc p = p + 1 := by
  rw [timeDom] at h
  rw [timeInc, pointerToTime_of_lt (by omega)]
  exact timeToPointer_of_lt (p := p + 1) (by omega)

/-- The previous instant; `0` has none and stays. -/
theorem timeDec_of_lt {p : ℕ} (h : timeDom p) : timeDec p = p - 1 := by
  rw [timeDom] at h
  simp only [timeDec]
  rw [pointerToTime_of_lt (by omega)]
  by_cases h0 : p = 0
  · subst h0
    rfl
  · rw [if_pos (by omega), show (p : Int) - 1 = (p - 1 : ℕ) by omega]
    exact timeToPointer_of_lt (by omega)

/-- **The order of times.** `time_cmp` has the sign of the order on the instants below `2 ^ 31`, and
beyond them it has not: `2 ^ 31` and `0` differ by a negative `gint`. -/
theorem timeOps_lawful : timeOps.Lawful timeDom where
  cmp_neg ha hb := by
    simp only [timeOps]
    rw [timeCmp_of_lt ha hb]
    omega
  cmp_pos ha hb := by
    simp only [timeOps]
    rw [timeCmp_of_lt ha hb]
    omega
  dup_eq _ := rfl

/-- The pointer of an address is read as the address. -/
theorem pointerToIpv4_of_lt {p : ℕ} (h : inetDom p) : pointerToIpv4 p = p := Nat.mod_eq_of_lt h

/-- An address is its own pointer. -/
theorem ipv4ToPointer_of_lt {p : ℕ} (h : inetDom p) : ipv4ToPointer p = p := Nat.mod_eq_of_lt h

/-- Addresses are compared, and no difference is formed that could be lost. -/
theorem inetCmp_of_lt {a b : ℕ} (ha : inetDom a) (hb : inetDom b) :
    inetCmp a b = if a < b then -1 else if b < a then 1 else 0 := by
  rw [inetCmp, pointerToIpv4_of_lt ha, pointerToIpv4_of_lt hb]

/-- The next address; the last one has none. -/
theorem inetInc_of_lt {p : ℕ} (h : p < ipv4Max) : inetInc p = p + 1 := by
  rw [ipv4Max] at h
  rw [inetInc, pointerToIpv4_of_lt (by rw [inetDom]; omega), if_pos (by rw [ipv4Max]; omega),
    ipv4ToPointer_of_lt (by rw [inetDom]; omega)]

/-- The previous address; the first one has none and stays. -/
theorem inetDec_of_lt {p : ℕ} (h : inetDom p) : inetDec p = p - 1 := by
  rw [inetDec, pointerToIpv4_of_lt h]
  rw [inetDom] at h
  split
  · rw [ipv4ToPointer_of_lt (by rw [inetDom]; omega)]
  · rw [ipv4ToPointer_of_lt (by rw [inetDom]; omega)]
    omega

/-- **The order of addresses.** `inet_cmp` has the sign of the order on all addresses. -/
theorem inetOps_lawful : inetOps.Lawful inetDom where
  cmp_neg ha hb := by
    simp only [inetOps]
    rw [inetCmp_of_lt ha hb]
    split
    · simpa
    · split <;> simp <;> omega
  cmp_pos ha hb := by
    simp only [inetOps]
    rw [inetCmp_of_lt ha hb]
    split
    · simp
      omega
    · split <;> simp <;> omega
  dup_eq _ := rfl

/-! ## The ranges that fit

A slicer cuts a slice at the neighbours of a range, `dec` of its begin and `inc` of its end. A range
fits where both are what they should be.
-/

/-- The whole range of a time slicer. -/
def timeWhole : Span ℕ := ⟨0, 0⟩

/-- The whole range of an inet slicer. -/
def inetWhole : Span ℕ := ⟨0, ipv4Max⟩

/-- A time interval that does not begin at `1` fits. -/
theorem timeOps_fits {b e : ℕ} (hb : b < 2 ^ 31 - 1) (he : e < 2 ^ 31 - 1) (h1 : b ≠ 1)
    (hle : b = 0 ∨ e = 0 ∨ b ≤ e) : timeOps.Fits timeDom timeWhole ⟨b, e⟩ where
  proper := ⟨fun _ => show b < 2 ^ 31 by omega, fun _ => show e < 2 ^ 31 by omega, hle⟩
  dec_ok h0 _ := by
    simp only [timeOps, timeDom, Next] at h0 ⊢
    rw [timeDec_of_lt (by rw [timeDom]; omega)]
    exact ⟨by omega, by omega, by omega, fun c _ => by omega⟩
  inc_ok h0 _ := by
    simp only [timeOps, timeDom, Next] at h0 ⊢
    rw [timeInc_of_lt (by rw [timeDom]; omega)]
    exact ⟨by omega, by omega, by omega, fun c _ => by omega⟩

/-- A range of addresses that does not begin at `1` or end at `0` fits. -/
theorem inetOps_fits {a b : ℕ} (hb : b < 2 ^ 32) (h1 : a ≠ 1) (hle : a ≤ b) :
    inetOps.Fits inetDom inetWhole ⟨a, b⟩ where
  proper := ⟨fun _ => lt_of_le_of_lt hle hb, fun _ => hb, Or.inr (Or.inr hle)⟩
  dec_ok h0 _ := by
    simp only [inetOps, Next] at h0 ⊢
    rw [inetDec_of_lt (lt_of_le_of_lt hle hb)]
    simp only [inetDom]
    exact ⟨by omega, by omega, by omega, fun c _ => by omega⟩
  inc_ok h0 hw := by
    simp only [inetOps, Next] at h0 ⊢
    rw [inetInc_of_lt (hw.resolve_left (by decide))]
    simp only [inetWhole, ipv4Max] at hw
    simp only [inetDom]
    exact ⟨by omega, by omega, by omega, fun c _ => by omega⟩

/-! ## The encodings

Blocks and intervals as the program gives them to a slicer, and what the slicer makes of them in
every run.
-/

namespace Slicer

/-- The block as the pointers given to the slicer. -/
def blockSpan (inet : Inet) : Span ℕ :=
  ⟨ipv4ToPointer (inet2range inet).rMin, ipv4ToPointer (inet2range inet).rMax⟩

/-- The blocks none of whose bounds turns into the wrong `NULL`. -/
def GoodBlock (inet : Inet) : Prop := (inet2range inet).rMin ≠ 1 ∧ (inet2range inet).rMax ≠ 0

/-- The intervals of times the program admits. -/
def Interval (start stop : ℕ) : Prop :=
  start < 2 ^ 31 - 1 ∧ stop < 2 ^ 31 - 1 ∧ (start = 0 ∨ stop = 0 ∨ start ≤ stop)

/-- The pointers of a block are its first and its last address. -/
theorem blockSpan_eq (inet : Inet) :
    blockSpan inet = ⟨(inet2range inet).rMin, (inet2range inet).rMax⟩ := by
  have hlt := inet2range_lt inet
  have hle := inet2range_le inet
  rw [blockSpan, ipv4ToPointer_of_lt (lt_of_le_of_lt hle hlt), ipv4ToPointer_of_lt hlt]

/-- An address is in the block as the slicer sees it if and only if it lies between the two, unless
the block is `0.0.0.0` alone, whose last address is the open end. -/
theorem blockSpan_mem {inet : Inet} (h : GoodBlock inet) (p : ℕ) :
    (blockSpan inet).Mem p ↔ (inet2range inet).rMin ≤ p ∧ p ≤ (inet2range inet).rMax := by
  rw [blockSpan_eq, Span.Mem]
  have := h.2
  simp only
  omega

/-- Every address is in the whole range. -/
theorem inetWhole_mem {p : ℕ} (h : inetDom p) : inetWhole.Mem p := by
  rw [inetDom] at h
  refine ⟨Or.inl rfl, Or.inr ?_⟩
  simp only [inetWhole, ipv4Max]
  omega

/-- Every instant is in the whole range, which is open at both ends. -/
theorem timeWhole_mem (p : ℕ) : timeWhole.Mem p := ⟨Or.inl rfl, Or.inl rfl⟩

/-- The whole range of addresses is a proper one. -/
theorem inetWhole_proper : inetWhole.Proper inetDom :=
  ⟨fun h => absurd rfl h, fun _ => by rw [inetDom]; decide, Or.inl rfl⟩

/-- The whole range of times is a proper one. -/
theorem timeWhole_proper : timeWhole.Proper timeDom :=
  ⟨fun h => absurd rfl h, fun h => absurd rfl h, Or.inl rfl⟩

/-- The neighbours of a good block are right, and a slicer of addresses has something of it. -/
theorem blockSpan_fits {inet : Inet} (h : GoodBlock inet) :
    inetOps.Fits inetDom inetWhole (blockSpan inet) ∧
      Crosses inetDom inetWhole (blockSpan inet) := by
  have hle := inet2range_le inet
  have hlt := inet2range_lt inet
  refine ⟨?_, (inet2range inet).rMax, hlt, inetWhole_mem hlt, ?_⟩
  · rw [blockSpan_eq]
    exact inetOps_fits hlt h.1 hle
  · exact (blockSpan_mem h _).mpr ⟨hle, le_rfl⟩

/-- The neighbours of an interval are right unless it begins at `1`, and it has an instant. -/
theorem interval_fits {b e : ℕ} (h : Interval b e) (h1 : b ≠ 1) :
    timeOps.Fits timeDom timeWhole ⟨b, e⟩ ∧ Crosses timeDom timeWhole ⟨b, e⟩ := by
  obtain ⟨hb, he, hle⟩ := h
  have hf := timeOps_fits hb he h1 hle
  obtain ⟨p, hp, hm⟩ := hf.proper.exists_mem exists_timeDom
  exact ⟨hf, p, hp, timeWhole_mem p, hm⟩

section Encodings

variable {σ D X : Type} [TreeShape ℕ] (d : SliceDataOps σ D X)

/-- The data of a slicer after a change: the operation once at the points of `dom`
with `inside`, copies at the others. -/
def ChangedAt (o : SliceOps ℕ) (op : Option D → X → σ → Option D × σ) (x : X)
    (dom inside : ℕ → Prop) (s : σ) (sl sl' : Slicer ℕ D) : Prop :=
  ∀ p, dom p → (inside p → Applied d op x s (sl.find o p) (sl'.find o p)) ∧
    (¬ inside p → Copied d s (sl.find o p) (sl'.find o p))

/-- Each point of `dom` lies in exactly one slice. -/
def Partition (dom : ℕ → Prop) (sl : Slicer ℕ D) : Prop :=
  ∀ p, dom p → ∃! l, l ∈ sl.queue.links ∧ l.val.slice.Mem p

omit [TreeShape ℕ] in
/-- A change said of the points of a range is one said of the keys that are inside it. -/
theorem Changed.at {o : SliceOps ℕ} {op : Option D → X → σ → Option D × σ} {x : X}
    {dom inside : ℕ → Prop} {w r : Span ℕ} {s : σ} {sl sl' : Slicer ℕ D}
    (h : Changed o d op x dom w r s sl sl') (hw : ∀ p, dom p → w.Mem p)
    (hr : ∀ p, r.Mem p ↔ inside p) : ChangedAt d o op x dom inside s sl sl' := by
  intro p hp
  rw [← hr p]
  exact h p hp (hw p hp)

/-- **The key encodings.** In every run on blocks with no bound that turns into the
wrong `NULL`, each insertion and deletion changes exactly the addresses of its block;
likewise for time intervals that do not begin at `1`, at the instants below `2 ^ 31`,
between which `time_cmp` loses nothing. -/
theorem key_encodings_adequate :
    (∀ (acts : List (Act ℕ X)) (s₀ : σ),
      (∀ a ∈ acts, a.On fun r => ∃ inet, GoodBlock inet ∧ r = blockSpan inet) →
      ∃ sl s, runActs inetOps d acts (inetSlicerNew D) s₀ = some (sl, s) ∧
        sl.WF inetDom inetWhole ∧ sl.Partition inetDom ∧
        ∀ x inet, GoodBlock inet →
          let r := inet2range inet
          (∃ sl' s', sl.insert inetOps d x (ipv4ToPointer r.rMin) (ipv4ToPointer r.rMax) s =
              some (sl', s') ∧ sl'.Partition inetDom ∧
            ChangedAt d inetOps d.add x inetDom (fun ip => r.rMin ≤ ip ∧ ip ≤ r.rMax) s sl sl') ∧
          (∃ sl' s', sl.delete inetOps d x (ipv4ToPointer r.rMin) (ipv4ToPointer r.rMax) s =
              some (sl', s') ∧ sl'.Partition inetDom ∧
            ChangedAt d inetOps d.del x inetDom (fun ip => r.rMin ≤ ip ∧ ip ≤ r.rMax) s sl sl')) ∧
    (∀ (acts : List (Act ℕ X)) (s₀ : σ),
      (∀ a ∈ acts, a.On fun r => ∃ start stop, Interval start stop ∧ start ≠ 1 ∧
        r = ⟨timeToPointer start, timeToPointer stop⟩) →
      ∃ sl s, runActs timeOps d acts (timeSlicerNew D) s₀ = some (sl, s) ∧
        sl.WF timeDom timeWhole ∧ sl.Partition timeDom ∧
        ∀ (x : X) (start stop : ℕ), Interval start stop → start ≠ 1 →
          (∃ sl' s', sl.insert timeOps d x (timeToPointer start) (timeToPointer stop) s =
              some (sl', s') ∧ sl'.Partition timeDom ∧
            ChangedAt d timeOps d.add x timeDom
              (fun t => (start = 0 ∨ start ≤ t) ∧ (stop = 0 ∨ t ≤ stop)) s sl sl') ∧
          (∃ sl' s', sl.delete timeOps d x (timeToPointer start) (timeToPointer stop) s =
              some (sl', s') ∧ sl'.Partition timeDom ∧
            ChangedAt d timeOps d.del x timeDom
              (fun t => (start = 0 ∨ start ≤ t) ∧ (stop = 0 ∨ t ≤ stop)) s sl sl')) := by
  constructor
  · intro acts s₀ hin
    obtain ⟨sl, s, he, hwf, hch⟩ := runActs_changed (d := d) (w := inetWhole) inetOps_lawful
      inetWhole_proper acts
      (fun a ha => (hin a ha).mono fun r ⟨inet, hg, hr⟩ => hr ▸ blockSpan_fits hg) s₀
    have hpart : ∀ {sl : Slicer ℕ D}, sl.WF inetDom inetWhole → sl.Partition inetDom :=
      fun h p hp => (h.mem_iff_existsUnique inetOps_lawful hp).mp (inetWhole_mem hp)
    refine ⟨sl, s, he, hwf, hpart hwf, fun x inet hg => ?_⟩
    obtain ⟨hf, hc⟩ := blockSpan_fits hg
    obtain ⟨⟨sl₁, s₁, h1, hw1, hc1⟩, ⟨sl₂, s₂, h2, hw2, hc2⟩⟩ := hch x _ _ hf hc
    exact ⟨⟨sl₁, s₁, h1, hpart hw1, hc1.at d (fun _ => inetWhole_mem) (blockSpan_mem hg)⟩,
      ⟨sl₂, s₂, h2, hpart hw2, hc2.at d (fun _ => inetWhole_mem) (blockSpan_mem hg)⟩⟩
  · intro acts s₀ hin
    have hptr : ∀ {b e : ℕ}, Interval b e → timeToPointer b = b ∧ timeToPointer e = e :=
      fun h => ⟨timeToPointer_of_lt (by have := h.1; omega),
        timeToPointer_of_lt (by have := h.2.1; omega)⟩
    obtain ⟨sl, s, he, hwf, hch⟩ := runActs_changed (d := d) (w := timeWhole) timeOps_lawful
      timeWhole_proper acts
      (fun a ha => (hin a ha).mono fun r ⟨b, e, hi, h1, hr⟩ => by
        rw [hr, (hptr hi).1, (hptr hi).2]
        exact interval_fits hi h1) s₀
    have hpart : ∀ {sl : Slicer ℕ D}, sl.WF timeDom timeWhole → sl.Partition timeDom :=
      fun h p hp => (h.mem_iff_existsUnique timeOps_lawful hp).mp (timeWhole_mem p)
    refine ⟨sl, s, he, hwf, hpart hwf, fun x b e hi hb => ?_⟩
    obtain ⟨hf, hc⟩ := interval_fits hi hb
    obtain ⟨⟨sl₁, s₁, h1, hw1, hc1⟩, ⟨sl₂, s₂, h2, hw2, hc2⟩⟩ := hch x _ _ hf hc
    rw [(hptr hi).1, (hptr hi).2]
    exact ⟨⟨sl₁, s₁, h1, hpart hw1, hc1.at d (fun p _ => timeWhole_mem p) fun _ => Iff.rfl⟩,
      ⟨sl₂, s₂, h2, hpart hw2, hc2.at d (fun p _ => timeWhole_mem p) fun _ => Iff.rfl⟩⟩

end Encodings

/-- The encodings at work: 10.0.0.0/8 inserted and 10.1.0.0/16 deleted, and the
interval from 100 to 200 inserted. -/
theorem key_encodings_adequate_ten :
    letI := TreeShape.plain ℕ
    (∃ sl s, runActs inetOps countOps [.insert () 0x0a000000 0x0affffff,
        .delete () 0x0a010000 0x0a01ffff] (inetSlicerNew ℕ) 0 = some (sl, s) ∧
      sl.Partition inetDom) ∧
    ∃ sl s, runActs timeOps countOps [.insert () 100 200] (timeSlicerNew ℕ) 0 = some (sl, s) ∧
      sl.Partition timeDom := by
  let _ := TreeShape.plain ℕ
  obtain ⟨hinet, htime⟩ := key_encodings_adequate countOps
  constructor
  · obtain ⟨sl, s, he, -, hp, -⟩ := hinet [.insert () 0x0a000000 0x0affffff,
        .delete () 0x0a010000 0x0a01ffff] 0 (by
      intro a ha
      simp only [List.mem_cons, List.not_mem_nil, or_false] at ha
      rcases ha with rfl | rfl
      · exact ⟨⟨0x0a000000, 8, by decide, by decide⟩, ⟨by decide, by decide⟩, by decide⟩
      · exact ⟨⟨0x0a010000, 16, by decide, by decide⟩, ⟨by decide, by decide⟩, by decide⟩)
    exact ⟨sl, s, he, hp⟩
  · obtain ⟨sl, s, he, -, hp, -⟩ := htime [.insert () 100 200] 0 (by
      intro a ha
      obtain rfl := List.mem_singleton.mp ha
      exact ⟨100, 200, ⟨by decide, by decide, by decide⟩, by decide, by decide⟩)
    exact ⟨sl, s, he, hp⟩

/-- The block 0.0.0.0/32. -/
def zeroBlock : Inet := ⟨0, 32, by decide, by decide⟩

/-- `zeroBlock` becomes a range open at both ends: its insertion changes 0.0.0.5 too. -/
theorem zero_block_changes_all :
    letI := TreeShape.plain ℕ
    ¬ ∃ sl' s', (inetSlicerNew ℕ).insert inetOps countOps ()
        (ipv4ToPointer (inet2range zeroBlock).rMin) (ipv4ToPointer (inet2range zeroBlock).rMax) 0 =
        some (sl', s') ∧
      ChangedAt countOps inetOps countOps.add () inetDom
        (fun ip => (inet2range zeroBlock).rMin ≤ ip ∧ ip ≤ (inet2range zeroBlock).rMax) 0
        (inetSlicerNew ℕ) sl' := by
  let _ := TreeShape.plain ℕ
  rintro ⟨sl', s', he, hc⟩
  have hnone : (inetSlicerNew ℕ).find inetOps 5 = none := by decide
  have hsome : ((inetSlicerNew ℕ).insert inetOps countOps () 0 0 0).map
      (fun r => r.1.find inetOps 5) = some (some 1) := by decide
  have hfind : sl'.find inetOps 5 = some 1 := by
    have he' : (inetSlicerNew ℕ).insert inetOps countOps () 0 0 0 = some (sl', s') := he
    rw [he'] at hsome
    exact Option.some.inj hsome
  have hcopy := (hc 5 (by rw [inetDom]; decide)).2 (by decide)
  rw [hnone, hfind] at hcopy
  rcases hcopy with h | ⟨s₁, -, h⟩
  · cases h
  · cases h

end Slicer

end Mbb
