import Mbb.Keys
import Mbb.Lib.Decimal

/-!
# Networks as text (`mbbd/inet.c`)

`atoinet` reads `A.B.C.D` or `A.B.C.D/M` with a cursor that three functions hand on, and
`inettoa` writes it. Memory is a list of bytes; where the list ends, the byte under the cursor
is the `'\0'` of the string.
-/

namespace Mbb

/-! ## Reading

A cursor is an index into the bytes. Each function moves it past what it has read, or gives up.
-/

/-- The loop of `read_byte`; `num` is a `guint`. -/
def readByteLoop : ℕ → List UInt8 → Option (UInt8 × List UInt8)
  | num, [] => some (num.toUInt8, [])
  | num, ch :: p =>
    if isDigit ch then
      let num := (num * 10 + digitValue ch) % 2 ^ 32
      if 255 < num then none else readByteLoop num p
    else some (num.toUInt8, ch :: p)

/-- `read_byte` -/
def readByte (p : List UInt8) : Option (UInt8 × List UInt8) :=
  if isDigit (p.headD 0) then readByteLoop 0 p else none

/-- Step over the byte `c`. -/
def skipByte (c : UInt8) : List UInt8 → Option (List UInt8)
  | [] => none
  | ch :: p => if ch = c then some p else none

/-- The loop of `strtoipv4`, with the number of passes that are left. -/
def strtoipv4Loop : ℕ → ℕ → List UInt8 → BitVec 32 → Option (BitVec 32 × List UInt8)
  | 0, _, p, ip => some (ip, p)
  | left + 1, n, p, ip =>
    (if n = 0 then some p else skipByte 46 p).bind fun p =>
      (readByte p).bind fun r =>
        strtoipv4Loop left (n + 1) r.2 (ip <<< 8 ||| BitVec.ofNat 32 r.1.toNat)

/-- `strtoipv4` -/
def strtoipv4 (buf : List UInt8) : Option (BitVec 32 × List UInt8) := strtoipv4Loop 4 0 buf 0

/-- `strtoinet` -/
def strtoinet (buf : List UInt8) : Option (Inet × List UInt8) :=
  (strtoipv4 buf).bind fun r =>
    (if r.2.headD 0 ≠ 47 then some (32, r.2) else readByte r.2.tail).bind fun m =>
      if h : m.1.toNat ≤ 32 then some (⟨r.1.toNat, m.1.toNat, r.1.isLt, h⟩, m.2) else none

/-- `atoinet`: what the pointer returned points to, and what is in `dst` then. For `NULL` in
`dst` the result is allocated. -/
def atoinet (buf : List UInt8) (dst : Option Inet) : Option Inet × Option Inet :=
  match strtoinet buf with
  | none => (none, dst)
  | some (tmp, p) =>
    if isGraph (p.headD 0) then (none, dst) else (some tmp, dst.map fun _ => tmp)

/-! ## Writing -/

/-- `g_snprintf`: as much of the text as there is room for, with its end. -/
def gSnprintf (size : ℕ) (text : List UInt8) : List UInt8 := text.take (size - 1)

/-- `sizeof(ipv4_buf_t)` -/
def ipv4BufSize : ℕ := 32

/-- `sizeof(inet_buf_t)` -/
def inetBufSize : ℕ := 32

/-- `ipv4toa` -/
def ipv4toa (ip : ℕ) : List UInt8 :=
  let b0 := ip % 2 ^ 8
  let ip := ip >>> 8
  let b1 := ip % 2 ^ 8
  let ip := ip >>> 8
  let b2 := ip % 2 ^ 8
  let ip := ip >>> 8
  let b3 := ip % 2 ^ 8
  gSnprintf ipv4BufSize
    (decimalText b3 ++ 46 :: (decimalText b2 ++ 46 :: (decimalText b1 ++ 46 :: decimalText b0)))

/-- `inettoa` -/
def inettoa (inet : Inet) : List UInt8 :=
  let buf := ipv4toa inet.addr
  if inet.mask < 32 then gSnprintf inetBufSize (buf ++ 47 :: decimalText inet.mask) else buf

/-! ## The grammar

What is accepted, said of the text alone: four numbers up to 255 with dots between them, and perhaps
a slash and a number up to 32. Zeros in front are allowed.
-/

/-- A run of digits for a number up to 255. -/
def ByteText (r : List UInt8) (n : ℕ) : Prop := DigitRun r ∧ decimalValue r = n ∧ n ≤ 255

/-- The mask, with its slash; without one it is 32. -/
def MaskText (m : List UInt8) (mask : ℕ) : Prop :=
  m = [] ∧ mask = 32 ∨ ∃ r, m = 47 :: r ∧ DigitRun r ∧ decimalValue r = mask

/-- `A.B.C.D` or `A.B.C.D/M`, and then the end or a byte that is not visible. -/
def InetText (s : List UInt8) (inet : Inet) : Prop :=
  ∃ ra rb rc rd m rest a b c d,
    s = ra ++ 46 :: (rb ++ 46 :: (rc ++ 46 :: (rd ++ (m ++ rest)))) ∧
    ByteText ra a ∧ ByteText rb b ∧ ByteText rc c ∧ ByteText rd d ∧
    inet.addr = ((a * 256 + b) * 256 + c) * 256 + d ∧ MaskText m inet.mask ∧
    ∀ ch ∈ rest.head?, isGraph ch = false

/-! ## One number -/

theorem readByteLoop_eq (p : List UInt8) : ∀ {num : ℕ}, num ≤ 255 → readByteLoop num p =
    if (p.takeWhile isDigit).foldl (fun n c => n * 10 + digitValue c) num ≤ 255 then
      some (((p.takeWhile isDigit).foldl (fun n c => n * 10 + digitValue c) num).toUInt8,
        p.dropWhile isDigit)
    else none := by
  induction p with
  | nil =>
    intro num hnum
    rw [readByteLoop, List.takeWhile_nil, List.foldl_nil, if_pos hnum, List.dropWhile_nil]
  | cons ch p ih =>
    intro num hnum
    rw [readByteLoop]
    by_cases hch : isDigit ch = true
    · have hval : digitValue ch ≤ 9 := by
        have := isDigit_iff.mp hch
        rw [digitValue]
        omega
      -- ten times 255 and a digit are far from the end of a `guint`
      have hmod : (num * 10 + digitValue ch) % 2 ^ 32 = num * 10 + digitValue ch :=
        Nat.mod_eq_of_lt (by omega)
      rw [if_pos hch, List.takeWhile_cons_of_pos hch, List.dropWhile_cons_of_pos hch,
        List.foldl_cons]
      simp only [hmod]
      by_cases hbig : 255 < num * 10 + digitValue ch
      · have hle := le_foldl_digits (p.takeWhile isDigit) (num * 10 + digitValue ch)
        rw [if_pos hbig, if_neg (by omega)]
      · rw [if_neg hbig]
        exact ih (by omega)
    · rw [if_neg hch, List.takeWhile_cons_of_neg hch, List.dropWhile_cons_of_neg hch,
        List.foldl_nil, if_pos hnum]

theorem toNat_toUInt8_of_le {n : ℕ} (h : n ≤ 255) : n.toUInt8.toNat = n := by
  change n % 256 = n
  omega

/-- A run that stands in front is read to its end. -/
theorem readByte_run {r rest : List UInt8} {n : ℕ} (hr : ByteText r n)
    (hrest : ∀ c ∈ rest.head?, isDigit c = false) :
    readByte (r ++ rest) = some (n.toUInt8, rest) := by
  obtain ⟨⟨hne, hdigits⟩, rfl, hle⟩ := hr
  obtain ⟨htake, hdrop⟩ := span_append hdigits hrest
  obtain ⟨ch, r', rfl⟩ := List.exists_cons_of_ne_nil hne
  rw [readByte, List.cons_append, List.headD_cons, if_pos (hdigits ch List.mem_cons_self),
    ← List.cons_append, readByteLoop_eq _ (by decide), htake, hdrop]
  exact if_pos hle

/-- What is read is a run. -/
theorem readByte_eq_some {p rest : List UInt8} {v : UInt8} (h : readByte p = some (v, rest)) :
    ∃ r, p = r ++ rest ∧ ByteText r v.toNat ∧ ∀ c ∈ rest.head?, isDigit c = false := by
  rw [readByte] at h
  split at h
  · rename_i hhead
    rw [readByteLoop_eq p (by decide)] at h
    split at h
    · rename_i hle
      obtain ⟨hv, hrest⟩ := Prod.mk.inj (Option.some.inj h)
      refine ⟨p.takeWhile isDigit, ?_, ⟨⟨?_, fun c hc => List.mem_takeWhile_imp hc⟩, ?_, ?_⟩, ?_⟩
      · rw [← hrest, List.takeWhile_append_dropWhile]
      · cases p with
        | nil => exact absurd hhead (by decide)
        | cons ch p =>
          rw [List.headD_cons] at hhead
          rw [List.takeWhile_cons_of_pos hhead]
          exact List.cons_ne_nil _ _
      · rw [← hv, toNat_toUInt8_of_le hle]
        rfl
      · have := v.toNat_lt
        omega
      · intro c hc
        rw [← hrest] at hc
        cases hd : p.dropWhile isDigit with
        | nil => rw [hd] at hc; cases hc
        | cons c' q =>
          rw [hd] at hc
          obtain rfl := Option.some.inj hc
          have hnot := List.head_dropWhile_not isDigit (l := p) (by rw [hd]; simp)
          simpa only [hd, List.head_cons] using hnot
    · cases h
  · cases h

theorem skipByte_eq_some {c : UInt8} {p rest : List UInt8} :
    skipByte c p = some rest ↔ p = c :: rest := by
  cases p with
  | nil => simp [skipByte]
  | cons ch p =>
    rw [skipByte]
    split
    · rename_i hch
      rw [hch]
      simp
    · rename_i hch
      simp [hch]

/-! ## Four numbers -/

/-- A pass of the loop. -/
theorem strtoipv4Loop_run {left n v : ℕ} {p r rest : List UInt8} {ip : BitVec 32}
    (hr : ByteText r v) (hrest : ∀ c ∈ rest.head?, isDigit c = false)
    (hp : p = if n = 0 then r ++ rest else 46 :: (r ++ rest)) :
    strtoipv4Loop (left + 1) n p ip =
      strtoipv4Loop left (n + 1) rest (ip <<< 8 ||| BitVec.ofNat 32 v) := by
  have hskip : (if n = 0 then some p else skipByte 46 p) = some (r ++ rest) := by
    split
    · rename_i hn
      rw [hp, if_pos hn]
    · rename_i hn
      rw [hp, if_neg hn]
      exact skipByte_eq_some.mpr rfl
  rw [strtoipv4Loop, hskip, Option.bind_some, readByte_run hr hrest, Option.bind_some,
    toNat_toUInt8_of_le hr.2.2]

theorem strtoipv4Loop_eq_some {left n : ℕ} {p : List UInt8} {ip : BitVec 32}
    {x : BitVec 32 × List UInt8} (h : strtoipv4Loop (left + 1) n p ip = some x) :
    ∃ r v rest, ByteText r v ∧ (∀ c ∈ rest.head?, isDigit c = false) ∧
      p = (if n = 0 then r ++ rest else 46 :: (r ++ rest)) ∧
      strtoipv4Loop left (n + 1) rest (ip <<< 8 ||| BitVec.ofNat 32 v) = some x := by
  rw [strtoipv4Loop] at h
  obtain ⟨q, hq, h₁⟩ := Option.bind_eq_some_iff.mp h
  obtain ⟨⟨v, rest⟩, hread, h₂⟩ := Option.bind_eq_some_iff.mp h₁
  obtain ⟨r, rfl, hr, hrest⟩ := readByte_eq_some hread
  refine ⟨r, v.toNat, rest, hr, hrest, ?_, h₂⟩
  split at hq
  · rename_i hn
    rw [if_pos hn]
    exact Option.some.inj hq
  · rename_i hn
    rw [if_neg hn]
    exact skipByte_eq_some.mp hq

/-- The address of four bytes, as the loop puts it together. -/
def addrOf (a b c d : ℕ) : BitVec 32 :=
  (((0 <<< 8 ||| BitVec.ofNat 32 a) <<< 8 ||| BitVec.ofNat 32 b) <<< 8 |||
    BitVec.ofNat 32 c) <<< 8 ||| BitVec.ofNat 32 d

theorem toNat_shift_or (ip : BitVec 32) {n : ℕ} (hip : ip.toNat < 2 ^ 24) (hn : n ≤ 255) :
    (ip <<< 8 ||| BitVec.ofNat 32 n).toNat = ip.toNat * 256 + n := by
  have hor := Nat.two_pow_add_eq_or_of_lt (show n < 2 ^ 8 by omega) ip.toNat
  rw [BitVec.toNat_or, BitVec.toNat_shiftLeft, BitVec.toNat_ofNat, Nat.shiftLeft_eq,
    Nat.mod_eq_of_lt (show ip.toNat * 2 ^ 8 < 2 ^ 32 by omega),
    Nat.mod_eq_of_lt (show n < 2 ^ 32 by omega), Nat.mul_comm, ← hor]
  omega

theorem toNat_addrOf {a b c d : ℕ} (ha : a ≤ 255) (hb : b ≤ 255) (hc : c ≤ 255) (hd : d ≤ 255) :
    (addrOf a b c d).toNat = ((a * 256 + b) * 256 + c) * 256 + d := by
  have h0 : (0 : BitVec 32).toNat = 0 := rfl
  have h1 := toNat_shift_or 0 (by rw [h0]; decide) ha
  rw [h0, Nat.zero_mul, Nat.zero_add] at h1
  have h2 := toNat_shift_or _ (by rw [h1]; omega) hb
  rw [h1] at h2
  have h3 := toNat_shift_or _ (by rw [h2]; omega) hc
  rw [h2] at h3
  have h4 := toNat_shift_or _ (by rw [h3]; omega) hd
  rwa [h3] at h4

theorem strtoipv4_run {ra rb rc rd rest : List UInt8} {a b c d : ℕ} (ha : ByteText ra a)
    (hb : ByteText rb b) (hc : ByteText rc c) (hd : ByteText rd d)
    (hrest : ∀ ch ∈ rest.head?, isDigit ch = false) :
    strtoipv4 (ra ++ 46 :: (rb ++ 46 :: (rc ++ 46 :: (rd ++ rest)))) =
      some (addrOf a b c d, rest) := by
  have hdot : ∀ q : List UInt8, ∀ ch ∈ ((46 : UInt8) :: q).head?, isDigit ch = false := by
    intro q ch hch
    obtain rfl := Option.some.inj hch
    decide
  exact (strtoipv4Loop_run ha (hdot _) rfl).trans ((strtoipv4Loop_run hb (hdot _) rfl).trans
    ((strtoipv4Loop_run hc (hdot _) rfl).trans (strtoipv4Loop_run hd hrest rfl)))

theorem strtoipv4_eq_some {buf rest : List UInt8} {ip : BitVec 32}
    (h : strtoipv4 buf = some (ip, rest)) :
    ∃ ra rb rc rd a b c d, buf = ra ++ 46 :: (rb ++ 46 :: (rc ++ 46 :: (rd ++ rest))) ∧
      ByteText ra a ∧ ByteText rb b ∧ ByteText rc c ∧ ByteText rd d ∧ ip = addrOf a b c d ∧
      ∀ ch ∈ rest.head?, isDigit ch = false := by
  obtain ⟨ra, a, p₁, ha, -, hbuf, h₁⟩ := strtoipv4Loop_eq_some h
  obtain ⟨rb, b, p₂, hb, -, rfl, h₂⟩ := strtoipv4Loop_eq_some h₁
  obtain ⟨rc, c, p₃, hc, -, rfl, h₃⟩ := strtoipv4Loop_eq_some h₂
  obtain ⟨rd, d, p₄, hd, hrest, rfl, h₄⟩ := strtoipv4Loop_eq_some h₃
  obtain ⟨rfl, rfl⟩ := Prod.mk.inj (Option.some.inj h₄)
  exact ⟨ra, rb, rc, rd, a, b, c, d, hbuf, ha, hb, hc, hd, rfl, hrest⟩

/-! ## The mask -/

theorem Inet.eq_iff {x y : Inet} : x = y ↔ x.addr = y.addr ∧ x.mask = y.mask := by
  cases x
  cases y
  simp

/-- What is accepted is a text of the grammar. -/
theorem strtoinet_eq_some {buf rest : List UInt8} {inet : Inet}
    (h : strtoinet buf = some (inet, rest)) (hrest : isGraph (rest.headD 0) = false) :
    InetText buf inet := by
  obtain ⟨⟨ip, p⟩, hip, h₁⟩ := Option.bind_eq_some_iff.mp h
  obtain ⟨⟨mask, q⟩, hmask, h₂⟩ := Option.bind_eq_some_iff.mp h₁
  obtain ⟨ra, rb, rc, rd, a, b, c, d, rfl, ha, hb, hc, hd, rfl, -⟩ := strtoipv4_eq_some hip
  have hend : ∀ ch ∈ rest.head?, isGraph ch = false := by
    intro ch hch
    cases rest with
    | nil => cases hch
    | cons ch' rest =>
      obtain rfl := Option.some.inj hch
      exact hrest
  split at h₂
  · rename_i hle
    obtain ⟨rfl, rfl⟩ := Prod.mk.inj (Option.some.inj h₂)
    have haddr := toNat_addrOf ha.2.2 hb.2.2 hc.2.2 hd.2.2
    simp only at hmask
    split at hmask
    · -- no slash
      obtain ⟨rfl, rfl⟩ := Prod.mk.inj (Option.some.inj hmask)
      exact ⟨ra, rb, rc, rd, [], p, a, b, c, d, rfl, ha, hb, hc, hd, haddr,
        Or.inl ⟨rfl, rfl⟩, hend⟩
    · rename_i hslash
      obtain ⟨r, hr, hmr, -⟩ := readByte_eq_some hmask
      have hp : p = 47 :: (r ++ q) := by
        cases p with
        | nil => exact absurd (by decide) hslash
        | cons ch p =>
          rw [List.headD_cons, ne_eq, not_not] at hslash
          rw [hslash, ← hr, List.tail_cons]
      refine ⟨ra, rb, rc, rd, 47 :: r, q, a, b, c, d, ?_, ha, hb, hc, hd, haddr,
        Or.inr ⟨r, rfl, hmr.1, hmr.2.1⟩, hend⟩
      rw [hp, List.cons_append]
  · cases h₂

/-- A text of the grammar is accepted. -/
theorem strtoinet_text {buf : List UInt8} {inet : Inet} (h : InetText buf inet) :
    ∃ rest, strtoinet buf = some (inet, rest) ∧ isGraph (rest.headD 0) = false := by
  obtain ⟨ra, rb, rc, rd, m, rest, a, b, c, d, rfl, ha, hb, hc, hd, haddr, hmask, hend⟩ := h
  have hgraph : isGraph (rest.headD 0) = false := by
    cases rest with
    | nil => decide
    | cons ch rest => exact hend ch rfl
  have hdigit : ∀ ch ∈ rest.head?, isDigit ch = false := by
    intro ch hch
    rw [Bool.eq_false_iff]
    intro hd
    exact Bool.false_ne_true ((hend ch hch).symm.trans (isGraph_of_isDigit hd))
  have hinet : ∀ mask : UInt8, mask.toNat = inet.mask → ∀ hle : mask.toNat ≤ 32,
      (⟨(addrOf a b c d).toNat, mask.toNat, (addrOf a b c d).isLt, hle⟩ : Inet) = inet := by
    intro mask hm hle
    rw [Inet.eq_iff]
    exact ⟨(toNat_addrOf ha.2.2 hb.2.2 hc.2.2 hd.2.2).trans haddr.symm, hm⟩
  refine ⟨rest, ?_, hgraph⟩
  rcases hmask with ⟨rfl, hm⟩ | ⟨r, rfl, hr, hm⟩
  · have hslash : rest.headD 0 ≠ 47 := by
      intro h47
      rw [h47] at hgraph
      exact absurd hgraph (by decide)
    rw [List.nil_append, strtoinet, strtoipv4_run ha hb hc hd hdigit, Option.bind_some,
      if_pos hslash, Option.bind_some, dif_pos (show (32 : UInt8).toNat ≤ 32 by decide),
      hinet 32 hm.symm]
  · have hslash : ∀ ch ∈ ((47 : UInt8) :: (r ++ rest)).head?, isDigit ch = false := by
      intro ch hch
      obtain rfl := Option.some.inj hch
      decide
    have hle : inet.mask ≤ 255 := inet.mask_le.trans (by decide)
    have hnat := toNat_toUInt8_of_le hle
    rw [List.cons_append, strtoinet, strtoipv4_run ha hb hc hd hslash, Option.bind_some,
      if_neg (by simp), List.tail_cons, readByte_run ⟨hr, hm, hle⟩ hdigit, Option.bind_some,
      dif_pos (by rw [hnat]; exact inet.mask_le), hinet _ hnat]

/-! ## The round trip

What is written has no zeros in front and is in the grammar, so it is read as what was written.
-/

theorem byteText_decimalText {n : ℕ} (h : n ≤ 255) : ByteText (decimalText n) n :=
  ⟨digitRun_decimalText n, decimalValue_decimalText n, h⟩

/-- Four numbers and three dots. -/
def dotted (ip : ℕ) : List UInt8 :=
  decimalText (ip / 2 ^ 24 % 2 ^ 8) ++ 46 :: (decimalText (ip / 2 ^ 16 % 2 ^ 8) ++
    46 :: (decimalText (ip / 2 ^ 8 % 2 ^ 8) ++ 46 :: decimalText (ip % 2 ^ 8)))

theorem length_dotted (ip : ℕ) : (dotted ip).length ≤ 15 := by
  have hlen : ∀ n, (decimalText (n % 2 ^ 8)).length ≤ 3 := fun n =>
    length_decimalText (by decide) (lt_trans (Nat.mod_lt n (by decide)) (by decide))
  have h0 := hlen ip
  have h1 := hlen (ip / 2 ^ 8)
  have h2 := hlen (ip / 2 ^ 16)
  have h3 := hlen (ip / 2 ^ 24)
  simp only [dotted, List.length_append, List.length_cons]
  omega

/-- The buffer is long enough. -/
theorem ipv4toa_eq (ip : ℕ) : ipv4toa ip = dotted ip := by
  rw [ipv4toa]
  simp only [Nat.shiftRight_eq_div_pow, Nat.div_div_eq_div_mul, ← Nat.pow_add, Nat.reduceAdd]
  rw [gSnprintf, List.take_of_length_le]
  · rfl
  · exact (length_dotted ip).trans (by decide)

/-- What is written is a text of the grammar. -/
theorem inetText_inettoa (inet : Inet) : InetText (inettoa inet) inet := by
  have hbyte : ∀ n, ByteText (decimalText (n % 2 ^ 8)) (n % 2 ^ 8) := fun n =>
    byteText_decimalText (by omega)
  have haddr : inet.addr = ((inet.addr / 2 ^ 24 % 2 ^ 8 * 256 + inet.addr / 2 ^ 16 % 2 ^ 8) * 256 +
      inet.addr / 2 ^ 8 % 2 ^ 8) * 256 + inet.addr % 2 ^ 8 := by
    have := inet.addr_lt
    omega
  rw [inettoa]
  by_cases hmask : inet.mask < 32
  · have hlen : (dotted inet.addr ++ 47 :: decimalText inet.mask).length ≤ inetBufSize - 1 := by
      have h1 := length_dotted inet.addr
      have h2 : (decimalText inet.mask).length ≤ 2 :=
        length_decimalText (by decide) (lt_trans hmask (by decide))
      simp only [List.length_append, List.length_cons, inetBufSize]
      omega
    rw [if_pos hmask, gSnprintf, ipv4toa_eq, List.take_of_length_le hlen, dotted]
    refine ⟨_, _, _, _, 47 :: decimalText inet.mask, [], _, _, _, _, ?_, hbyte _, hbyte _,
      hbyte _, hbyte _, haddr, Or.inr ⟨_, rfl, digitRun_decimalText _,
        decimalValue_decimalText _⟩, fun ch hch => nomatch hch⟩
    simp only [List.append_assoc, List.cons_append, List.append_nil]
  · rw [if_neg hmask, ipv4toa_eq, dotted]
    have hm := inet.mask_le
    refine ⟨_, _, _, _, [], [], _, _, _, _, ?_, hbyte _, hbyte _, hbyte _, hbyte _, haddr,
      Or.inl ⟨rfl, by omega⟩, fun ch hch => nomatch hch⟩
    simp only [List.append_nil]

theorem atoinet_eq_some (s : List UInt8) (dst : Option Inet) (inet : Inet) :
    (atoinet s dst).1 = some inet ↔ InetText s inet := by
  constructor
  · intro h
    rw [atoinet] at h
    split at h
    · cases h
    · rename_i tmp p hstr
      split at h
      · cases h
      · rename_i hgraph
        obtain rfl := Option.some.inj h
        exact strtoinet_eq_some hstr (by simpa using hgraph)
  · intro h
    obtain ⟨rest, hstr, hgraph⟩ := strtoinet_text h
    rw [atoinet, hstr]
    simp only [hgraph, Bool.false_eq_true, if_false]

/-- `dst` gets the result, or keeps what it had. -/
theorem atoinet_dst (s : List UInt8) (dst : Option Inet) :
    (atoinet s dst).2 = ((atoinet s dst).1.map fun inet => dst.map fun _ => inet).getD dst := by
  rw [atoinet]
  split
  · rfl
  · split <;> rfl

/-- **The codec of networks.** `atoinet` accepts the texts of the grammar, gives the network they
name and changes nothing otherwise; what `inettoa` writes it reads back. -/
theorem network_codec :
    (∀ (s : List UInt8) (dst : Option Inet),
      (∀ inet, (atoinet s dst).1 = some inet ↔ InetText s inet) ∧
      (atoinet s dst).2 = ((atoinet s dst).1.map fun inet => dst.map fun _ => inet).getD dst) ∧
    ∀ (inet : Inet) (dst : Option Inet),
      atoinet (inettoa inet) dst = (some inet, dst.map fun _ => inet) := by
  refine ⟨fun s dst => ⟨atoinet_eq_some s dst, atoinet_dst s dst⟩, fun inet dst => ?_⟩
  have hsome := (atoinet_eq_some (inettoa inet) dst inet).mpr (inetText_inettoa inet)
  refine Prod.ext hsome ?_
  rw [atoinet_dst, hsome]
  rfl

end Mbb
