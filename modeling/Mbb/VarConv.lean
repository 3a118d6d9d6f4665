import Mbb.Keys
import Mbb.Lib.Decimal

/-!
# Integers as arguments (`lib/strconv.c`, `mbbd/varconv.c`)

`var_conv_int` and `var_conv_uint` read a number of 64 bits and mean to test whether it fits one
of 32, but the variable they test has 32 bits already: what does not fit comes out as another
number. `var_conv_int` also takes the blanks that `strtoll` skips.
-/

namespace Mbb

/-- A string of C: bytes, no one of which is the end of the string. -/
structure CBytes : Type where
  /-- the bytes -/
  bytes : List UInt8
  /-- no `'\0'` -/
  noNul : 0 ∉ bytes

/-! ## `g_ascii_strtoll` and `g_ascii_strtoull` -/

/-- `errno` -/
inductive Errno : Type where
  /-- as it was set before the call -/
  | none
  /-- `ERANGE` -/
  | erange
  /-- `EINVAL` -/
  | einval
  deriving DecidableEq

/-- What a conversion gives. -/
structure Strto : Type where
  /-- the value returned -/
  val : Int
  /-- where the cursor is -/
  endptr : List UInt8
  /-- `errno` -/
  errno : Errno

/-- A sign, if there is one, and what comes after it. -/
def scanSign : List UInt8 → Bool × List UInt8
  | [] => (false, [])
  | c :: p => if c = 45 then (true, p) else if c = 43 then (false, p) else (false, c :: p)

/-- Blanks, a sign and digits in base 10; `none` when there are no digits. -/
def scanNumber (str : List UInt8) : Option (Bool × ℕ × List UInt8) :=
  let s := scanSign (str.dropWhile isBlank)
  if s.2.takeWhile isDigit = [] then none
  else some (s.1, decimalValue (s.2.takeWhile isDigit), s.2.dropWhile isDigit)

/-- `G_MAXINT64` -/
def gMaxInt64 : Int := 2 ^ 63 - 1

/-- `G_MININT64` -/
def gMinInt64 : Int := -2 ^ 63

/-- `G_MAXUINT64` -/
def gMaxUint64 : Int := 2 ^ 64 - 1

/-- `g_ascii_strtoll` in base 10 -/
def gAsciiStrtoll (str : List UInt8) : Strto :=
  match scanNumber str with
  | none => ⟨0, str, .none⟩
  | some (neg, n, p) =>
    let v : Int := if neg then -n else n
    if gMaxInt64 < v then ⟨gMaxInt64, p, .erange⟩
    else if v < gMinInt64 then ⟨gMinInt64, p, .erange⟩
    else ⟨v, p, .none⟩

/-- `g_ascii_strtoull` in base 10; a number with a minus is negated in 64 bits. -/
def gAsciiStrtoull (str : List UInt8) : Strto :=
  match scanNumber str with
  | none => ⟨0, str, .none⟩
  | some (neg, n, p) =>
    if gMaxUint64 < n then ⟨gMaxUint64, p, .erange⟩
    else ⟨if neg then (-n) % 2 ^ 64 else n, p, .none⟩

/-! ## `strconv.c` -/

/-- `StrConvError` -/
inductive StrConvError : Type where
  /-- `STR_CONV_ERROR_OVERFLOW` -/
  | overflow
  /-- `STR_CONV_ERROR_INVALID_BASE` -/
  | invalidBase
  /-- `STR_CONV_ERROR_FAIL` -/
  | fail
  /-- `STR_CONV_ERROR_EXTRA_SYMBOLS` -/
  | extraSymbols

/-- A `GError` of the domain `STR_CONV_ERROR`. -/
structure GError : Type where
  /-- `code` -/
  code : StrConvError
  /-- `message` -/
  message : List UInt8

/-- What both functions do with the result of a conversion; `limit` tells the values that a
number out of range gives. -/
def strConvCheck (str : List UInt8) (limit : Int → Bool) (r : Strto) : Except GError Int :=
  if limit r.val = true ∧ r.errno = .erange then
    .error ⟨.overflow, asciiBytes "number '" ++ str ++ asciiBytes "' is too large"⟩
  else if r.val = 0 ∧ r.errno = .einval then
    .error ⟨.invalidBase, asciiBytes "base '10' is invalid"⟩
  else if r.val = 0 ∧ r.endptr.length = str.length then
    .error ⟨.fail, asciiBytes "number '" ++ str ++ asciiBytes "' invalid"⟩
  else if r.endptr.headD 0 ≠ 0 then
    .error ⟨.extraSymbols, asciiBytes "extra symbols in number '" ++ str ++ asciiBytes "'"⟩
  else .ok r.val

/-- `str_conv_to_int64` -/
def strConvToInt64 (str : List UInt8) : Except GError Int :=
  strConvCheck str (fun v => v == gMaxInt64 || v == gMinInt64) (gAsciiStrtoll str)

/-- `str_conv_to_uint64` -/
def strConvToUint64 (str : List UInt8) : Except GError Int :=
  -- check for negative numbers
  if ¬ isDigit (str.headD 0) then
    .error ⟨.fail, asciiBytes "number '" ++ str ++ asciiBytes "' is invalid"⟩
  else strConvCheck str (fun v => v == gMaxUint64) (gAsciiStrtoull str)

/-! ## `varconv.c` -/

/-- `G_MAXINT` -/
def gMaxInt : Int := 2 ^ 31 - 1

/-- `G_MININT` -/
def gMinInt : Int := -2 ^ 31

/-- `G_MAXUINT` -/
def gMaxUint : ℕ := 2 ^ 32 - 1

/-- `var_conv_int`: the answer, and what is at `p` then. -/
def varConvInt (arg : List UInt8) (p : Int) : Bool × Int :=
  match strConvToInt64 arg with
  | .error _ => (false, p)
  | .ok v =>
    -- `gint val`
    let val := toGint v
    if val > gMaxInt ∨ val < gMinInt then (false, p) else (true, val)

/-- `var_conv_uint` -/
def varConvUint (arg : List UInt8) (p : ℕ) : Bool × ℕ :=
  match strConvToUint64 arg with
  | .error _ => (false, p)
  | .ok v =>
    -- `guint val`
    let val := (v % 2 ^ 32).toNat
    if val > gMaxUint then (false, p) else (true, val)

/-! ## Numerals -/

/-- A decimal numeral. -/
def UintText (s : List UInt8) (v : ℕ) : Prop := DigitRun s ∧ decimalValue s = v

/-- The sign of a number. -/
def SignText (sign : List UInt8) (neg : Bool) : Prop :=
  neg = false ∧ (sign = [] ∨ sign = [43]) ∨ neg = true ∧ sign = [45]

/-- A decimal numeral that may have a sign, with blanks in front. -/
def IntText (blanks s : List UInt8) (v : Int) : Prop :=
  ∃ sign ds neg, s = blanks ++ (sign ++ ds) ∧ (∀ c ∈ blanks, isBlank c = true) ∧
    SignText sign neg ∧ DigitRun ds ∧ v = if neg then -(decimalValue ds : Int) else decimalValue ds

/-- `var_conv_uint` takes the string only as the numeral it is, and leaves `p` alone otherwise. -/
def UintKept (arg : CBytes) : Prop :=
  ∀ p, ((varConvUint arg.bytes p).1 = true →
      ∃ v, UintText arg.bytes v ∧ v < 2 ^ 32 ∧ (varConvUint arg.bytes p).2 = v) ∧
    ((varConvUint arg.bytes p).1 = false → (varConvUint arg.bytes p).2 = p)

/-- `var_conv_int` takes a numeral of an `int` for its value, and else leaves the value as it
was. -/
def IntKept (arg : CBytes) : Prop :=
  ∀ p, ((varConvInt arg.bytes p).1 = true →
      ∃ v, IntText [] arg.bytes v ∧ -2 ^ 31 ≤ v ∧ v < 2 ^ 31 ∧ (varConvInt arg.bytes p).2 = v) ∧
    ((varConvInt arg.bytes p).1 = false → (varConvInt arg.bytes p).2 = p)

/-! ## What is scanned -/

theorem headD_eq_zero {l : List UInt8} (h : 0 ∉ l) : l.headD 0 = 0 ↔ l = [] := by
  cases l with
  | nil => simp
  | cons c l =>
    rw [List.headD_cons]
    refine ⟨fun hc => absurd ?_ h, nofun⟩
    rw [← hc]
    exact List.mem_cons_self

theorem scanSign_of_isDigit {c : UInt8} (h : isDigit c = true) (p : List UInt8) :
    scanSign (c :: p) = (false, c :: p) := by
  have hne : ∀ d : UInt8, isDigit d = false → c ≠ d := by
    rintro d hd rfl
    exact Bool.false_ne_true (hd.symm.trans h)
  rw [scanSign, if_neg (hne 45 (by decide)), if_neg (hne 43 (by decide))]

theorem takeWhile_isDigit_ne_nil {s : List UInt8} (h : isDigit (s.headD 0) = true) :
    s.takeWhile isDigit ≠ [] := by
  cases s with
  | nil => exact absurd h (by decide)
  | cons c s =>
    rw [List.headD_cons] at h
    rw [List.takeWhile_cons_of_pos h]
    exact List.cons_ne_nil _ _

/-- A number without a sign is scanned where it begins. -/
theorem scanNumber_of_isDigit {s : List UInt8} (h : isDigit (s.headD 0) = true) :
    scanNumber s = some (false, decimalValue (s.takeWhile isDigit), s.dropWhile isDigit) := by
  have hne := takeWhile_isDigit_ne_nil h
  cases s with
  | nil => exact absurd h (by decide)
  | cons c s =>
    rw [List.headD_cons] at h
    have hblank : ¬ isBlank c = true := by simp [isBlank_of_isDigit h]
    rw [scanNumber, List.dropWhile_cons_of_neg hblank, scanSign_of_isDigit h]
    exact if_neg hne

theorem scanSign_append (s : List UInt8) :
    ∃ sign, s = sign ++ (scanSign s).2 ∧ SignText sign (scanSign s).1 := by
  cases s with
  | nil => exact ⟨[], rfl, Or.inl ⟨rfl, Or.inl rfl⟩⟩
  | cons c p =>
    rw [scanSign]
    split
    · rename_i hc
      exact ⟨[45], by rw [hc]; rfl, Or.inr ⟨rfl, rfl⟩⟩
    · split
      · rename_i hc
        exact ⟨[43], by rw [hc]; rfl, Or.inl ⟨rfl, Or.inr rfl⟩⟩
      · exact ⟨[], rfl, Or.inl ⟨rfl, Or.inl rfl⟩⟩

/-- What is scanned stands in the string. -/
theorem scanNumber_eq_some {s p : List UInt8} {neg : Bool} {n : ℕ}
    (h : scanNumber s = some (neg, n, p)) :
    ∃ blanks sign ds, s = blanks ++ (sign ++ (ds ++ p)) ∧ (∀ c ∈ blanks, isBlank c = true) ∧
      SignText sign neg ∧ DigitRun ds ∧ decimalValue ds = n := by
  rw [scanNumber] at h
  split at h
  · cases h
  · rename_i hds
    obtain ⟨hneg, hrest⟩ := Prod.mk.inj (Option.some.inj h)
    obtain ⟨hn, hp⟩ := Prod.mk.inj hrest
    obtain ⟨sign, hsign, htext⟩ := scanSign_append (s.dropWhile isBlank)
    rw [hneg] at htext
    refine ⟨s.takeWhile isBlank, sign, (scanSign (s.dropWhile isBlank)).2.takeWhile isDigit, ?_,
      fun c hc => List.mem_takeWhile_imp hc, htext, ⟨hds, fun c hc => List.mem_takeWhile_imp hc⟩,
      hn⟩
    rw [← hp, List.takeWhile_append_dropWhile, ← hsign, List.takeWhile_append_dropWhile]

/-- Neither a sign nor a digit is blank. -/
theorem span_blanks {blanks sign ds : List UInt8} {neg : Bool}
    (hblanks : ∀ c ∈ blanks, isBlank c = true) (hsign : SignText sign neg) (hds : DigitRun ds) :
    (blanks ++ (sign ++ ds)).takeWhile isBlank = blanks ∧
      (blanks ++ (sign ++ ds)).dropWhile isBlank = sign ++ ds := by
  obtain ⟨d, ds', rfl⟩ := List.exists_cons_of_ne_nil hds.1
  refine span_append hblanks fun c hc => ?_
  rcases hsign with ⟨-, rfl | rfl⟩ | ⟨-, rfl⟩
  · obtain rfl := Option.some.inj hc
    exact isBlank_of_isDigit (hds.2 d List.mem_cons_self)
  · obtain rfl := Option.some.inj hc
    decide
  · obtain rfl := Option.some.inj hc
    decide

/-- A run of digits to the end of the string. -/
theorem span_digits {ds : List UInt8} (hds : DigitRun ds) :
    ds.takeWhile isDigit = ds ∧ ds.dropWhile isDigit = [] := by
  have hspan := span_append hds.2 (by simp : ∀ c ∈ ([] : List UInt8).head?, isDigit c = false)
  rwa [List.append_nil] at hspan

/-- And what stands there is scanned. -/
theorem scanNumber_text {blanks sign ds : List UInt8} {neg : Bool}
    (hblanks : ∀ c ∈ blanks, isBlank c = true) (hsign : SignText sign neg) (hds : DigitRun ds) :
    scanNumber (blanks ++ (sign ++ ds)) = some (neg, decimalValue ds, []) := by
  have hscan : scanSign (sign ++ ds) = (neg, ds) := by
    obtain ⟨d, ds', rfl⟩ := List.exists_cons_of_ne_nil hds.1
    rcases hsign with ⟨rfl, rfl | rfl⟩ | ⟨rfl, rfl⟩
    · exact scanSign_of_isDigit (hds.2 d List.mem_cons_self) ds'
    · rfl
    · rfl
  rw [scanNumber, (span_blanks hblanks hsign hds).2, hscan]
  simp only [(span_digits hds).1, (span_digits hds).2, if_neg hds.1]

/-! ## What is accepted

The conversions accept a text when the number has been scanned to the end of it and fits 64 bits.
-/

theorem strConvCheck_conv {str p : List UInt8} {limit : Int → Bool} {val v : Int}
    (hp : p.length < str.length) :
    strConvCheck str limit ⟨val, p, .none⟩ = .ok v ↔ p.headD 0 = 0 ∧ val = v := by
  have hlimit : ¬ (limit val = true ∧ Errno.none = Errno.erange) := fun h => nomatch h.2
  have hbase : ¬ (val = 0 ∧ Errno.none = Errno.einval) := fun h => nomatch h.2
  have hend : ¬ (val = 0 ∧ p.length = str.length) := by omega
  simp only [strConvCheck]
  rw [if_neg hlimit, if_neg hbase, if_neg hend]
  split
  · rename_i hne
    exact ⟨nofun, fun h => absurd h.1 hne⟩
  · rename_i heq
    rw [Except.ok.injEq]
    exact (and_iff_right (not_not.mp heq)).symm

theorem strConvCheck_range {str p : List UInt8} {limit : Int → Bool} {val v : Int}
    (h : limit val = true) : strConvCheck str limit ⟨val, p, .erange⟩ ≠ .ok v := by
  rw [strConvCheck, if_pos ⟨h, rfl⟩]
  exact nofun

/-- A string that begins with a digit is a numeral if nothing is behind its digits. -/
theorem uintText_iff_span {s : List UInt8} (h : isDigit (s.headD 0) = true) (n : ℕ) :
    UintText s n ↔ s.dropWhile isDigit = [] ∧ decimalValue (s.takeWhile isDigit) = n := by
  constructor
  · rintro ⟨hds, hn⟩
    rw [(span_digits hds).1, (span_digits hds).2]
    exact ⟨rfl, hn⟩
  · rintro ⟨hnil, hn⟩
    have hall : s.takeWhile isDigit = s := by
      have hsplit : s.takeWhile isDigit ++ s.dropWhile isDigit = s :=
        List.takeWhile_append_dropWhile
      rwa [hnil, List.append_nil] at hsplit
    have hne := takeWhile_isDigit_ne_nil h
    rw [hall] at hn hne
    exact ⟨⟨hne, List.takeWhile_eq_self_iff.mp hall⟩, hn⟩

/-- `str_conv_to_uint64` accepts the numerals below `2 ^ 64`. -/
theorem strConvToUint64_eq_ok {s : List UInt8} (hs : 0 ∉ s) {v : Int} :
    strConvToUint64 s = .ok v ↔ ∃ n, UintText s n ∧ n < 2 ^ 64 ∧ v = n := by
  rw [strConvToUint64]
  by_cases hd : isDigit (s.headD 0) = true
  · rw [if_neg (not_not.mpr hd), gAsciiStrtoull, scanNumber_of_isDigit hd]
    have hlen : (s.dropWhile isDigit).length < s.length := by
      have hsplit : (s.takeWhile isDigit ++ s.dropWhile isDigit).length = s.length :=
        congrArg List.length List.takeWhile_append_dropWhile
      rw [List.length_append] at hsplit
      have hpos := List.length_pos_iff.mpr (takeWhile_isDigit_ne_nil hd)
      omega
    have hrest : (s.dropWhile isDigit).headD 0 = 0 ↔ s.dropWhile isDigit = [] :=
      headD_eq_zero fun h => hs ((List.dropWhile_sublist isDigit).subset h)
    simp only [uintText_iff_span hd]
    by_cases hbig : gMaxUint64 < decimalValue (s.takeWhile isDigit)
    · rw [if_pos hbig]
      refine iff_of_false (strConvCheck_range (by decide)) ?_
      rintro ⟨n, ⟨-, rfl⟩, hlt, -⟩
      rw [gMaxUint64] at hbig
      omega
    · rw [if_neg hbig, strConvCheck_conv hlen, hrest]
      rw [gMaxUint64] at hbig
      constructor
      · rintro ⟨hnil, rfl⟩
        exact ⟨_, ⟨hnil, rfl⟩, by omega, rfl⟩
      · rintro ⟨n, ⟨hnil, rfl⟩, -, rfl⟩
        exact ⟨hnil, rfl⟩
  · rw [if_pos hd]
    refine iff_of_false nofun ?_
    rintro ⟨n, ⟨⟨hne, hdigits⟩, -⟩, -⟩
    obtain ⟨c, s', rfl⟩ := List.exists_cons_of_ne_nil hne
    exact hd (hdigits c List.mem_cons_self)

theorem length_scanNumber {s p : List UInt8} {neg : Bool} {n : ℕ}
    (h : scanNumber s = some (neg, n, p)) : p.length < s.length := by
  obtain ⟨blanks, sign, ds, rfl, -, -, hds, -⟩ := scanNumber_eq_some h
  have hpos := List.length_pos_iff.mpr hds.1
  simp only [List.length_append]
  omega

/-- The strings that spell a number are those which end where the scanner stops. -/
theorem intText_iff_scan {s p : List UInt8} (hs : 0 ∉ s) {neg : Bool} {n : ℕ}
    (h : scanNumber s = some (neg, n, p)) (v : Int) :
    (∃ blanks, IntText blanks s v) ↔ p.headD 0 = 0 ∧ v = if neg then -(n : Int) else n := by
  constructor
  · rintro ⟨blanks, sign, ds, neg', rfl, hblanks, hsign, hds, rfl⟩
    rw [scanNumber_text hblanks hsign hds] at h
    obtain ⟨rfl, hrest⟩ := Prod.mk.inj (Option.some.inj h)
    obtain ⟨rfl, rfl⟩ := Prod.mk.inj hrest
    exact ⟨rfl, rfl⟩
  · rintro ⟨hp, rfl⟩
    obtain ⟨blanks, sign, ds, rfl, hblanks, hsign, hds, rfl⟩ := scanNumber_eq_some h
    have hnil : p = [] := (headD_eq_zero fun h0 => hs (by simp [h0])).mp hp
    exact ⟨blanks, sign, ds, neg, by rw [hnil, List.append_nil], hblanks, hsign, hds, rfl⟩

/-- `str_conv_to_int64` accepts the numerals of 64 bits with a sign or without, blanks in front
or not. -/
theorem strConvToInt64_eq_ok {s : List UInt8} (hs : 0 ∉ s) {v : Int} :
    strConvToInt64 s = .ok v ↔ ∃ blanks, IntText blanks s v ∧ gMinInt64 ≤ v ∧ v ≤ gMaxInt64 := by
  rw [strConvToInt64, gAsciiStrtoll]
  cases hscan : scanNumber s with
  | none =>
    refine iff_of_false ?_ ?_
    · simp only [strConvCheck]
      rw [if_neg (by simp), if_neg (by simp), if_pos (by simp)]
      exact nofun
    · rintro ⟨blanks, ⟨sign, ds, neg, rfl, hblanks, hsign, hds, -⟩, -⟩
      rw [scanNumber_text hblanks hsign hds] at hscan
      cases hscan
  | some r =>
    obtain ⟨neg, n, p⟩ := r
    rw [exists_and_right, intText_iff_scan hs hscan]
    simp only
    generalize (if neg then -(n : Int) else n) = w
    by_cases hbig : gMaxInt64 < w
    · rw [if_pos hbig]
      refine iff_of_false (strConvCheck_range (by decide)) ?_
      rintro ⟨⟨-, rfl⟩, -, hle⟩
      exact absurd hle (not_le.mpr hbig)
    · rw [if_neg hbig]
      by_cases hsmall : w < gMinInt64
      · rw [if_pos hsmall]
        refine iff_of_false (strConvCheck_range (by decide)) ?_
        rintro ⟨⟨-, rfl⟩, hge, -⟩
        exact absurd hge (not_le.mpr hsmall)
      · rw [if_neg hsmall, strConvCheck_conv (length_scanNumber hscan)]
        constructor
        · rintro ⟨hp, rfl⟩
          exact ⟨⟨hp, rfl⟩, not_lt.mp hsmall, not_lt.mp hbig⟩
        · rintro ⟨⟨hp, rfl⟩, -⟩
          exact ⟨hp, rfl⟩

/-! ## What is stored

The number is assigned to 32 bits before it is tested, so the test sees what is left of it.
-/

/-- The test of the range never fails: the number has been cut to fit it. -/
theorem varConvUint_eq (arg : List UInt8) (p : ℕ) :
    varConvUint arg p = match strConvToUint64 arg with
      | .error _ => (false, p)
      | .ok v => (true, (v % 2 ^ 32).toNat) := by
  rw [varConvUint]
  cases strConvToUint64 arg with
  | error e => rfl
  | ok v =>
    have hlt : ¬ (v % 2 ^ 32).toNat > gMaxUint := by
      rw [gMaxUint]
      omega
    simp only [if_neg hlt]

theorem varConvInt_eq (arg : List UInt8) (p : Int) :
    varConvInt arg p = match strConvToInt64 arg with
      | .error _ => (false, p)
      | .ok v => (true, toGint v) := by
  rw [varConvInt]
  cases strConvToInt64 arg with
  | error e => rfl
  | ok v =>
    have hin : ¬ (toGint v > gMaxInt ∨ toGint v < gMinInt) := by
      rw [gMaxInt, gMinInt, toGint, Int.bmod_def]
      split <;> omega
    simp only [if_neg hin]

theorem uintKept_iff (arg : CBytes) :
    UintKept arg ↔ ∀ v, UintText arg.bytes v → v < 2 ^ 32 ∨ 2 ^ 64 ≤ v := by
  have hok : ∀ {v : Int}, strConvToUint64 arg.bytes = .ok v ↔ _ := strConvToUint64_eq_ok arg.noNul
  constructor
  · intro h v hv
    by_contra hwide
    -- a number of 33 to 64 bits is cut
    have hv' : strConvToUint64 arg.bytes = .ok (v : Int) := hok.mpr ⟨v, hv, by omega, rfl⟩
    obtain ⟨n, hn, hlt, -⟩ := (h 0).1 (by rw [varConvUint_eq, hv'])
    have hnv : n = v := hn.2.symm.trans hv.2
    omega
  · intro h p
    rw [varConvUint_eq]
    cases hs : strConvToUint64 arg.bytes with
    | error e => exact ⟨nofun, fun _ => rfl⟩
    | ok v =>
      obtain ⟨n, hn, hlt, rfl⟩ := hok.mp hs
      have hn32 : n < 2 ^ 32 := (h n hn).resolve_right (by omega)
      refine ⟨fun _ => ⟨n, hn, hn32, ?_⟩, nofun⟩
      simp only
      omega

/-- A numeral with a sign is spelled in one way. -/
theorem IntText.unique {blanks blanks' s : List UInt8} {v v' : Int} (h : IntText blanks s v)
    (h' : IntText blanks' s v') : blanks = blanks' ∧ v = v' := by
  obtain ⟨sign, ds, neg, rfl, hblanks, hsign, hds, rfl⟩ := h
  obtain ⟨sign', ds', neg', hs, hblanks', hsign', hds', rfl⟩ := h'
  have htake := (span_blanks hblanks hsign hds).1
  have hscan := scanNumber_text hblanks hsign hds
  rw [hs, (span_blanks hblanks' hsign' hds').1] at htake
  rw [hs, scanNumber_text hblanks' hsign' hds'] at hscan
  obtain ⟨rfl, hrest⟩ := Prod.mk.inj (Option.some.inj hscan)
  rw [(Prod.mk.inj hrest).1]
  exact ⟨htake.symm, rfl⟩

theorem intKept_iff (arg : CBytes) :
    IntKept arg ↔ ∀ blanks v, IntText blanks arg.bytes v → -2 ^ 63 ≤ v → v < 2 ^ 63 →
      blanks = [] ∧ -2 ^ 31 ≤ v ∧ v < 2 ^ 31 := by
  have hok : ∀ {v : Int}, strConvToInt64 arg.bytes = .ok v ↔ _ := strConvToInt64_eq_ok arg.noNul
  rw [gMinInt64, gMaxInt64] at hok
  constructor
  · intro h blanks v hv hge hlt
    have hv' : strConvToInt64 arg.bytes = .ok v := hok.mpr ⟨blanks, hv, hge, by omega⟩
    obtain ⟨n, hn, hge', hlt', -⟩ := (h 0).1 (by rw [varConvInt_eq, hv'])
    obtain ⟨rfl, rfl⟩ := hv.unique hn
    exact ⟨rfl, hge', hlt'⟩
  · intro h p
    rw [varConvInt_eq]
    cases hs : strConvToInt64 arg.bytes with
    | error e => exact ⟨nofun, fun _ => rfl⟩
    | ok v =>
      obtain ⟨blanks, hv, hge, hle⟩ := hok.mp hs
      obtain ⟨rfl, hge', hlt'⟩ := h blanks v hv hge (by omega)
      refine ⟨fun _ => ⟨v, hv, hge', hlt', ?_⟩, nofun⟩
      exact toGint_of_lt (by omega) (by omega)

/-- **Integer arguments.** `var_conv_uint` alters a number when it has 33 to 64 bits, and
`var_conv_int` when it fits 64 bits but not 32; it also takes a number with blanks in front. -/
theorem integer_arguments (arg : CBytes) :
    (UintKept arg ↔ ∀ v, UintText arg.bytes v → v < 2 ^ 32 ∨ 2 ^ 64 ≤ v) ∧
      (IntKept arg ↔ ∀ blanks v, IntText blanks arg.bytes v → -2 ^ 63 ≤ v → v < 2 ^ 63 →
        blanks = [] ∧ -2 ^ 31 ≤ v ∧ v < 2 ^ 31) :=
  ⟨uintKept_iff arg, intKept_iff arg⟩

/-- The text 4294967297. -/
def wideText : CBytes := ⟨asciiBytes "4294967297", by decide⟩

theorem uintText_wideText : UintText wideText.bytes 4294967297 := ⟨by decide, by decide⟩

/-- It is taken as 1. -/
theorem not_kept_wide : varConvUint wideText.bytes 7 = (true, 1) ∧
    varConvInt wideText.bytes 7 = (true, 1) ∧ ¬ UintKept wideText ∧ ¬ IntKept wideText := by
  refine ⟨by decide, by decide, fun h => ?_, fun h => ?_⟩
  · have := (uintKept_iff wideText).mp h _ uintText_wideText
    omega
  · have hint : IntText [] wideText.bytes 4294967297 :=
      ⟨[], wideText.bytes, false, rfl, nofun, Or.inl ⟨rfl, Or.inl rfl⟩, uintText_wideText.1,
        by rw [uintText_wideText.2]; rfl⟩
    have := (intKept_iff wideText).mp h [] _ hint (by decide) (by decide)
    omega

end Mbb
