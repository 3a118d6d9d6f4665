import Mbb.Keys
import Mbb.MapChange

/-!
# The two kinds of maps (`mbbd/vmap.h`)

A time map has times as keys and addresses as second keys, an inet map the other way
round. Ranges of addresses that do not begin at `1` or end at `0` stay so when they are
cut by one another (`InetOk`), so no cut ever produces the wrong `NULL`.
-/

namespace Mbb

/-- `time_map_init` -/
def timeMapInit [TreeShape ℕ] : Map ℕ ℕ ℕ := some (timeSlicerNew (MapQueue ℕ ℕ))

/-- `inet_map_init` -/
def inetMapInit [TreeShape ℕ] : Map ℕ ℕ ℕ := some (inetSlicerNew (MapQueue ℕ ℕ))

/-! ## Addresses as second keys

A cut needs the neighbours of a bound. At `0` and at `1` one of them is `NULL`, which would be an
open end.
-/

/-- A range of addresses none of whose bounds, nor their neighbours, is mistaken for an
open end. -/
structure InetOk (r : Span ℕ) : Prop where
  /-- the key before the begin is not `NULL` -/
  lo_ne : r.lo ≠ 1
  /-- the end is not `NULL` -/
  hi_ne : r.hi ≠ 0
  /-- the bounds are in order -/
  le : r.lo ≤ r.hi
  /-- they are addresses -/
  lt : r.hi < 2 ^ 32

theorem InetOk.mem {r : Span ℕ} (h : InetOk r) (p : ℕ) : r.Mem p ↔ r.lo ≤ p ∧ p ≤ r.hi := by
  have := h.hi_ne
  rw [Span.Mem]
  omega

theorem InetOk.proper {r : Span ℕ} (h : InetOk r) : r.Proper inetDom :=
  ⟨fun _ => lt_of_le_of_lt h.le h.lt, fun _ => h.lt, Or.inr (Or.inr h.le)⟩

theorem InetOk.fits {r : Span ℕ} (h : InetOk r) :
    inetOps.Fits inetDom inetWhole r ∧ Slicer.Crosses inetDom inetWhole r :=
  ⟨inetOps_fits h.lt h.lo_ne h.le, r.hi, h.lt, Slicer.inetWhole_mem h.lt,
    (h.mem r.hi).mpr ⟨h.le, le_rfl⟩⟩

/-- The parts of a slice outside of a cut, as `slice_cross` computes them. -/
theorem sliceCross_parts {a r y : Span ℕ} {x z : Option (Span ℕ)} {o : SliceOps ℕ}
    {dom : ℕ → Prop} (ho : o.Lawful dom) (ha : a.Proper dom) (hr : r.Proper dom)
    (h : sliceCross o a r = some (x, y, z)) :
    (∀ s ∈ x, s = ⟨a.lo, o.dec r.lo⟩ ∧ r.lo ≠ 0 ∧ (a.lo = 0 ∨ a.lo < r.lo)) ∧
      ∀ s ∈ z, s = ⟨o.inc r.hi, a.hi⟩ ∧ r.hi ≠ 0 ∧ (a.hi = 0 ∨ r.hi < a.hi) := by
  rw [sliceCross] at h
  split at h
  · cases h
  · simp only [ho.dup_eq, Option.some.injEq, Prod.mk.injEq] at h
    obtain ⟨hx, -, hz⟩ := h
    have h1 := ho.beginBeginCmp_neg ha.lo_dom hr.lo_dom
    have h2 := ho.endEndCmp_neg hr.hi_dom ha.hi_dom
    constructor
    · intro s hs
      rw [← hx] at hs
      split at hs
      · cases hs
      · rename_i hlt
        obtain rfl : (⟨a.lo, o.dec r.lo⟩ : Span ℕ) = s := by simpa using hs
        exact ⟨rfl, h1.mp (not_le.mp hlt)⟩
    · intro s hs
      rw [← hz] at hs
      split at hs
      · cases hs
      · rename_i hlt
        obtain rfl : (⟨o.inc r.hi, a.hi⟩ : Span ℕ) = s := by simpa using hs
        exact ⟨rfl, h2.mp (not_le.mp hlt)⟩

theorem inetOps_cuts : inetOps.Cuts inetDom InetOk where
  lawful := inetOps_lawful
  proper h := h.proper
  join {a b} ha hb hab := by
    have := ha.le
    have := hb.le
    have := hab.2.2
    exact ⟨ha.lo_ne, hb.hi_ne, by simp only; omega, hb.lt⟩
  fits {a r} ha hr := by
    have hf := hr.fits.1
    refine ⟨hr.proper, fun h0 _ => hf.dec_ok h0 (Or.inl rfl), fun h0 hc => hf.inc_ok h0 ?_⟩
    have := hc.resolve_left ha.hi_ne
    have := ha.lt
    right
    simp only [inetWhole, ipv4Max]
    omega
  parts {a r y x z} ha hr h := by
    obtain ⟨hx, hz⟩ := sliceCross_parts inetOps_lawful ha.proper hr.proper h
    have hrlo := hr.lo_ne
    have hrle := hr.le
    have hrlt := hr.lt
    have halt := ha.lt
    constructor
    · intro s hs
      obtain ⟨rfl, h0, hlt⟩ := hx s hs
      simp only [inetOps]
      rw [inetDec_of_lt (lt_of_le_of_lt hrle hrlt)]
      exact ⟨ha.lo_ne, by simp only; omega, by simp only; omega, by simp only; omega⟩
    · intro s hs
      obtain ⟨rfl, h0, hlt⟩ := hz s hs
      have hlt' := hlt.resolve_left ha.hi_ne
      simp only [inetOps]
      rw [inetInc_of_lt (by rw [ipv4Max]; omega)]
      exact ⟨by simp only; omega, ha.hi_ne, by simp only; omega, ha.lt⟩

/-! ## Times as second keys

Intervals are joined when `time_cmp` gives 1, which it does for neighbours only.
-/

/-- An interval of instants the program orders rightly. -/
abbrev TimeSpan (r : Span ℕ) : Prop := r.Proper timeDom

theorem timeOps_joins : timeOps.Joins timeDom TimeSpan where
  lawful := timeOps_lawful
  proper h := h
  join ha hb hab := ha.join hb hab

/-- `time_cmp` is 1 for neighbours only, so intervals are joined without gaps. -/
theorem timeOps_mergeable {cur : MapEntry ℕ ℕ} (hcur : TimeSpan cur.slice)
    {es : List (MapEntry ℕ ℕ)} (ho : Ordered TimeSpan es) : Mergeable timeOps timeDom cur es := by
  have hnext : ∀ {a b : ℕ}, timeDom a → timeDom b → timeOps.cmp b a = 1 → Next timeDom a b := by
    intro a b ha hb hc
    simp only [timeOps, timeCmp_of_lt hb ha] at hc
    exact ⟨by omega, fun c _ => by omega⟩
  intro e he _
  have hpe := ho.ok e he
  exact ⟨fun hb => hnext (hpe.hi_dom hb.1) (hcur.lo_dom hb.2.1),
    fun hb => hnext (hcur.hi_dom hb.1) (hpe.lo_dom hb.2.1)⟩

end Mbb
