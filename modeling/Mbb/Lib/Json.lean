import Mathlib.Data.List.Basic
import Mathlib.Tactic.Common

/-!
# JSON texts

A reader of JSON texts by RFC 8259, over the characters of a text. It accepts just the texts
of the grammar there: white space around the structural characters, the three literals,
numbers, and strings with their escapes. Numbers are kept as they are written, and the members
of objects in the order of the text; an escaped surrogate that has no partner is read as the
replacement character.

A text *reads* as a value when the reader gets that value from it and stops behind it, whatever
follows. A text *keeps to* a property when every value that the reader gets from it has that
property and the reader stops behind it. Objects and arrays do what their parts do.
-/

namespace Mbb

/-- JSON values. -/
inductive Json : Type where
  /-- `null` -/
  | null
  /-- `true` and `false` -/
  | bool (b : Bool)
  /-- a number, as it is written -/
  | num (digits : List Char)
  /-- a string -/
  | str (s : List Char)
  /-- an array -/
  | arr (elems : List Json)
  /-- an object -/
  | obj (members : List (List Char × Json))

namespace Json

/-- All characters of the strings and names in a value have the property `p`; there are no other
values in it than strings, arrays and objects. -/
inductive AllChars (p : Char → Prop) : Json → Prop where
  /-- a string -/
  | str {s : List Char} (h : ∀ c ∈ s, p c) : AllChars p (.str s)
  /-- an array -/
  | arr {elems : List Json} (h : ∀ v ∈ elems, AllChars p v) : AllChars p (.arr elems)
  /-- an object -/
  | obj {members : List (List Char × Json)} (hk : ∀ m ∈ members, ∀ c ∈ m.1, p c)
      (h : ∀ m ∈ members, AllChars p m.2) : AllChars p (.obj members)

/-! ## Strings -/

/-- The value of a hexadecimal digit. -/
def hexVal (c : Char) : Option ℕ :=
  if '0' ≤ c ∧ c ≤ '9' then some (c.toNat - '0'.toNat)
  else if 'a' ≤ c ∧ c ≤ 'f' then some (c.toNat - 'a'.toNat + 10)
  else if 'A' ≤ c ∧ c ≤ 'F' then some (c.toNat - 'A'.toNat + 10)
  else none

/-- The value of four hexadecimal digits. -/
def hex4 (a b c d : Char) : Option ℕ :=
  match hexVal a, hexVal b, hexVal c, hexVal d with
  | some a, some b, some c, some d => some (((a * 16 + b) * 16 + c) * 16 + d)
  | _, _, _, _ => none

/-- The character of a short escape. -/
def unescape (c : Char) : Option Char :=
  [('"', '"'), ('\\', '\\'), ('/', '/'), ('b', '\x08'), ('f', '\x0c'), ('n', '\n'), ('r', '\r'),
    ('t', '\t')].lookup c

/-- A string after its opening quote: characters, and the values of `\u` escapes. -/
def readUnits : List Char → Option (List (Char ⊕ ℕ) × List Char)
  | [] => none
  | c :: cs =>
    if c = '"' then some ([], cs)
    else if c = '\\' then
      match cs with
      | [] => none
      | e :: cs =>
        if e = 'u' then
          match cs with
          | h₁ :: h₂ :: h₃ :: h₄ :: cs =>
            match hex4 h₁ h₂ h₃ h₄ with
            | none => none
            | some n => (readUnits cs).map fun r => (.inr n :: r.1, r.2)
          | _ => none
        else
          match unescape e with
          | none => none
          | some ch => (readUnits cs).map fun r => (.inl ch :: r.1, r.2)
    else if c.toNat < 0x20 then none
    else (readUnits cs).map fun r => (.inl c :: r.1, r.2)

/-- The quote ends a string. -/
theorem readUnits_quote (cs : List Char) : readUnits ('"' :: cs) = some ([], cs) := by
  rw [readUnits.eq_def]
  simp

/-- A character that needs no escape stands for itself. -/
theorem readUnits_plain {c : Char} (hq : c ≠ '"') (hb : c ≠ '\\') (hc : 0x20 ≤ c.toNat)
    (cs : List Char) :
    readUnits (c :: cs) = (readUnits cs).map fun r => (.inl c :: r.1, r.2) := by
  rw [readUnits.eq_def]
  simp only [if_neg hq, if_neg hb]
  rw [if_neg (by omega)]

/-- A short escape is the character that it stands for. -/
theorem readUnits_short {e c : Char} (hu : e ≠ 'u') (he : unescape e = some c) (cs : List Char) :
    readUnits ('\\' :: e :: cs) = (readUnits cs).map fun r => (.inl c :: r.1, r.2) := by
  rw [readUnits.eq_def]
  simp [hu, he]

/-- What has been read behind `\u`. -/
theorem readUnits_code_cases {cs r : List Char} {us : List (Char ⊕ ℕ)}
    (h : readUnits ('\\' :: 'u' :: cs) = some (us, r)) :
    ∃ h₁ h₂ h₃ h₄ n cs' us', cs = h₁ :: h₂ :: h₃ :: h₄ :: cs' ∧ hex4 h₁ h₂ h₃ h₄ = some n ∧
      readUnits cs' = some (us', r) ∧ us = .inr n :: us' := by
  rw [readUnits.eq_def] at h
  simp only [if_neg (show ¬ '\\' = '"' by decide), if_true] at h
  split at h
  · rename_i h₁ h₂ h₃ h₄ cs'
    split at h
    · cases h
    · rename_i n hn
      obtain ⟨p, hp, heq⟩ := Option.map_eq_some_iff.mp h
      obtain ⟨rfl, rfl⟩ := Prod.mk.inj heq
      exact ⟨h₁, h₂, h₃, h₄, n, cs', p.1, rfl, hn, hp, rfl⟩
  · cases h

/-- A high surrogate. -/
def isHigh (n : ℕ) : Bool := decide (0xd800 ≤ n) && decide (n < 0xdc00)

/-- A low surrogate. -/
def isLow (n : ℕ) : Bool := decide (0xdc00 ≤ n) && decide (n < 0xe000)

/-- The character of one code. -/
def ofCode (n : ℕ) : Char := if isHigh n || isLow n then '\uFFFD' else Char.ofNat n

/-- Pairs of surrogates are one character. -/
def joinUnits : List (Char ⊕ ℕ) → List Char
  | [] => []
  | .inl c :: us => c :: joinUnits us
  | [.inr n] => [ofCode n]
  | .inr n :: .inl c :: us => ofCode n :: c :: joinUnits us
  | .inr n :: .inr m :: us =>
    if isHigh n && isLow m then
      Char.ofNat (0x10000 + (n - 0xd800) * 0x400 + (m - 0xdc00)) :: joinUnits us
    else ofCode n :: joinUnits (.inr m :: us)

/-- A string after its opening quote. -/
def readString (cs : List Char) : Option (List Char × List Char) :=
  (readUnits cs).map fun r => (joinUnits r.1, r.2)

/-! ## Numbers -/

/-- Digits from the front. -/
def digits (cs : List Char) : List Char × List Char := cs.span Char.isDigit

/-- `int`: no zero in front of other digits. -/
def readInt (cs : List Char) : Option (List Char × List Char) :=
  match cs with
  | '0' :: cs => some (['0'], cs)
  | cs =>
    match digits cs with
    | ([], _) => none
    | r => some r

/-- `frac`, if there is one. -/
def readFrac (cs : List Char) : Option (List Char × List Char) :=
  match cs with
  | '.' :: cs =>
    match digits cs with
    | ([], _) => none
    | (ds, cs) => some ('.' :: ds, cs)
  | cs => some ([], cs)

/-- `exp`, if there is one. -/
def readExp (cs : List Char) : Option (List Char × List Char) :=
  match cs with
  | [] => some ([], [])
  | e :: cs =>
    if e = 'e' ∨ e = 'E' then
      let (sign, cs) : List Char × List Char :=
        match cs with
        | '+' :: cs => (['+'], cs)
        | '-' :: cs => (['-'], cs)
        | cs => ([], cs)
      match digits cs with
      | ([], _) => none
      | (ds, cs) => some (e :: sign ++ ds, cs)
    else some ([], e :: cs)

/-- `number` -/
def readNumber (cs : List Char) : Option (Json × List Char) :=
  let (minus, cs) : List Char × List Char :=
    match cs with
    | '-' :: cs => (['-'], cs)
    | cs => ([], cs)
  match readInt cs with
  | none => none
  | some (int, cs) =>
    match readFrac cs with
    | none => none
    | some (frac, cs) =>
      match readExp cs with
      | none => none
      | some (exp, cs) => some (.num (minus ++ int ++ frac ++ exp), cs)

/-! ## Values -/

/-- White space. -/
def isWs (c : Char) : Bool := [' ', '\t', '\n', '\r'].contains c

/-- The text behind white space. -/
def skipWs (cs : List Char) : List Char := cs.dropWhile isWs

/-- A literal. -/
def readLiteral (cs : List Char) : Option (Json × List Char) :=
  match cs with
  | 't' :: 'r' :: 'u' :: 'e' :: cs => some (.bool true, cs)
  | 'f' :: 'a' :: 'l' :: 's' :: 'e' :: cs => some (.bool false, cs)
  | 'n' :: 'u' :: 'l' :: 'l' :: cs => some (.null, cs)
  | _ => none

mutual

/-- `value`; the number bounds the depth of the recursion. -/
def readValue : ℕ → List Char → Option (Json × List Char)
  | 0, _ => none
  | _ + 1, [] => none
  | n + 1, c :: cs =>
    if c = '"' then (readString cs).map fun r => (.str r.1, r.2)
    else if c = '[' then
      match skipWs cs with
      | ']' :: cs => some (.arr [], cs)
      | cs => (readElems n cs).map fun r => (.arr r.1, r.2)
    else if c = '{' then
      match skipWs cs with
      | '}' :: cs => some (.obj [], cs)
      | cs => (readMembers n cs).map fun r => (.obj r.1, r.2)
    else
      match readLiteral (c :: cs) with
      | some r => some r
      | none => readNumber (c :: cs)

/-- The elements of an array, and its end. -/
def readElems : ℕ → List Char → Option (List Json × List Char)
  | 0, _ => none
  | n + 1, cs =>
    match readValue n cs with
    | none => none
    | some (v, cs) =>
      match skipWs cs with
      | ',' :: cs => (readElems n (skipWs cs)).map fun r => (v :: r.1, r.2)
      | ']' :: cs => some ([v], cs)
      | _ => none

/-- The members of an object, and its end. -/
def readMembers : ℕ → List Char → Option (List (List Char × Json) × List Char)
  | 0, _ => none
  | n + 1, cs =>
    match cs with
    | '"' :: cs =>
      match readString cs with
      | none => none
      | some (k, cs) =>
        match skipWs cs with
        | ':' :: cs =>
          match readValue n (skipWs cs) with
          | none => none
          | some (v, cs) =>
            match skipWs cs with
            | ',' :: cs => (readMembers n (skipWs cs)).map fun r => ((k, v) :: r.1, r.2)
            | '}' :: cs => some ([(k, v)], cs)
            | _ => none
        | _ => none
    | _ => none

end

/-- The value of a JSON text, if it is one. -/
def parse (text : List Char) : Option Json :=
  match readValue (text.length + 1) (skipWs text) with
  | none => none
  | some (v, cs) => if skipWs cs = [] then some v else none

/-! ## Reading

A text is read with whatever stands behind it, since that is how parts are put together; the fuel is
bounded by the length and is no condition at the end.
-/

/-- A value begins with this text: no white space, and not the end of an array. -/
def Begins (text : List Char) : Prop := ∃ c cs, text = c :: cs ∧ isWs c = false ∧ c ≠ ']'

/-- The text reads as a value. -/
def Reads (text : List Char) (v : Json) : Prop :=
  ∀ n rest, text.length ≤ n → readValue n (text ++ rest) = some (v, rest)

/-- The text, which ends with a quote, reads as a string. -/
def ReadsString (text s : List Char) : Prop := ∀ rest, readString (text ++ rest) = some (s, rest)

/-- Values that are read from the text have the property `P`. -/
def KeepsTo (text : List Char) (P : Json → Prop) : Prop :=
  ∀ n rest v r, readValue n (text ++ rest) = some (v, r) → P v ∧ r = rest

/-- Strings that are read from the text, which ends with a quote, have the property `P`. -/
def KeepsToString (text : List Char) (P : List Char → Prop) : Prop :=
  ∀ rest s r, readString (text ++ rest) = some (s, r) → P s ∧ r = rest

/-- Texts with commas between them. -/
def commas : List (List Char) → List Char
  | [] => []
  | [t] => t
  | t :: u :: ts => t ++ ',' :: commas (u :: ts)

/-- Nothing is skipped before a character that is no white space. -/
theorem skipWs_cons {c : Char} (h : isWs c = false) (cs : List Char) :
    skipWs (c :: cs) = c :: cs := by
  rw [skipWs, List.dropWhile_cons_of_neg (by rw [h]; exact Bool.false_ne_true)]

/-- Nothing is skipped before a text that begins with a value. -/
theorem skipWs_begins {text : List Char} (h : Begins text) (rest : List Char) :
    skipWs (text ++ rest) = text ++ rest := by
  obtain ⟨c, cs, rfl, hc, -⟩ := h
  exact skipWs_cons hc _

/-- A list begins with its first element. -/
theorem begins_commas {t : List Char} (h : Begins t) (ts : List (List Char)) :
    Begins (commas (t :: ts)) := by
  obtain ⟨c, cs, rfl, hc, hne⟩ := h
  cases ts with
  | nil => exact ⟨c, cs, rfl, hc, hne⟩
  | cons u ts => exact ⟨c, _, rfl, hc, hne⟩

/-- An array that is not empty is a bracket and its elements. -/
theorem readValue_arr {text : List Char} (h : Begins text) (n : ℕ) (rest : List Char) :
    readValue (n + 1) ('[' :: (text ++ rest)) =
      (readElems n (text ++ rest)).map fun r => (.arr r.1, r.2) := by
  obtain ⟨c, cs, rfl, hc, hne⟩ := h
  rw [readValue, if_neg (by decide), if_pos rfl, List.cons_append, skipWs_cons hc]
  split
  · rename_i heq
    exact absurd (List.cons.inj heq).1 hne
  · rfl

/-- An object that is not empty is a brace and its members. -/
theorem readValue_obj (n : ℕ) (cs : List Char) :
    readValue (n + 1) ('{' :: '"' :: cs) =
      (readMembers n ('"' :: cs)).map fun r => (.obj r.1, r.2) := by
  rw [readValue, if_neg (by decide), if_neg (by decide), if_pos rfl, skipWs_cons rfl]
  rfl

/-- What `readElems` has read. -/
theorem readElems_cases {n : ℕ} {cs r : List Char} {vs : List Json}
    (h : readElems n cs = some (vs, r)) :
    ∃ m v cs', readValue m cs = some (v, cs') ∧
      ((∃ cs'' vs', skipWs cs' = ',' :: cs'' ∧ readElems m (skipWs cs'') = some (vs', r) ∧
        vs = v :: vs') ∨ (skipWs cs' = ']' :: r ∧ vs = [v])) := by
  cases n with
  | zero => cases h
  | succ n =>
    rw [readElems] at h
    split at h
    · cases h
    · rename_i v cs' hv
      refine ⟨n, v, cs', hv, ?_⟩
      split at h
      · rename_i cs'' hcs
        obtain ⟨p, hp, heq⟩ := Option.map_eq_some_iff.mp h
        obtain ⟨rfl, rfl⟩ := Prod.mk.inj heq
        exact Or.inl ⟨cs'', p.1, hcs, hp, rfl⟩
      · rename_i cs'' hcs
        obtain ⟨rfl, rfl⟩ := Prod.mk.inj (Option.some.inj h)
        exact Or.inr ⟨hcs, rfl⟩
      · cases h

/-- What `readMembers` has read. -/
theorem readMembers_cases {n : ℕ} {cs r : List Char} {ms : List (List Char × Json)}
    (h : readMembers n ('"' :: cs) = some (ms, r)) :
    ∃ m k v cs₁ cs₂ cs₃, readString cs = some (k, cs₁) ∧ skipWs cs₁ = ':' :: cs₂ ∧
      readValue m (skipWs cs₂) = some (v, cs₃) ∧
      ((∃ cs₄ ms', skipWs cs₃ = ',' :: cs₄ ∧ readMembers m (skipWs cs₄) = some (ms', r) ∧
        ms = (k, v) :: ms') ∨ (skipWs cs₃ = '}' :: r ∧ ms = [(k, v)])) := by
  cases n with
  | zero => cases h
  | succ n =>
    rw [readMembers] at h
    split at h
    · cases h
    · rename_i k cs₁ hk
      split at h
      · rename_i cs₂ hcolon
        split at h
        · cases h
        · rename_i v cs₃ hv
          refine ⟨n, k, v, cs₁, cs₂, cs₃, hk, hcolon, hv, ?_⟩
          split at h
          · rename_i cs₄ hcs
            obtain ⟨p, hp, heq⟩ := Option.map_eq_some_iff.mp h
            obtain ⟨rfl, rfl⟩ := Prod.mk.inj heq
            exact Or.inl ⟨cs₄, p.1, hcs, hp, rfl⟩
          · rename_i cs₄ hcs
            obtain ⟨rfl, rfl⟩ := Prod.mk.inj (Option.some.inj h)
            exact Or.inr ⟨hcs, rfl⟩
          · cases h
      · cases h

/-! ### Strings -/

/-- **Strings.** The text of a string behind a quote reads as the string. -/
theorem reads_str {text s : List Char} (h : ReadsString text s) : Reads ('"' :: text) (.str s) := by
  intro n rest hn
  obtain ⟨n, rfl⟩ : ∃ m, n = m + 1 := ⟨n - 1, by simp at hn; omega⟩
  rw [List.cons_append, readValue, if_pos rfl, h rest]
  rfl

/-- What a text that begins with a quote reads as is a string. -/
theorem keepsTo_str {text : List Char} {Q : List Char → Prop} (h : KeepsToString text Q) :
    KeepsTo ('"' :: text) fun v => ∃ s, v = .str s ∧ Q s := by
  intro n rest v r hread
  cases n with
  | zero => cases hread
  | succ n =>
    rw [List.cons_append, readValue, if_pos rfl] at hread
    obtain ⟨p, hp, heq⟩ := Option.map_eq_some_iff.mp hread
    obtain ⟨rfl, rfl⟩ := Prod.mk.inj heq
    obtain ⟨hQ, hr⟩ := h rest p.1 p.2 hp
    exact ⟨⟨p.1, rfl, hQ⟩, hr⟩

section

variable {ι : Type} {text : ι → List Char} {val : ι → Json} {P : Json → Prop}

/-! ### Arrays

Elements are given as a list of indices with a text and a value for each, so that a caller need not
match two lists.
-/

/-- Elements with commas between them are read one by one. The fuel is the length of the text at
least. -/
theorem readElems_commas {i : ι} {items : List ι} (hb : ∀ j ∈ i :: items, Begins (text j))
    (h : ∀ j ∈ i :: items, Reads (text j) (val j)) :
    ∀ (n : ℕ) (rest : List Char), (commas ((i :: items).map text)).length + 1 ≤ n →
      readElems n (commas ((i :: items).map text) ++ ']' :: rest) =
        some ((i :: items).map val, rest) := by
  induction items generalizing i with
  | nil =>
    intro n rest hn
    obtain ⟨n, rfl⟩ : ∃ m, n = m + 1 := ⟨n - 1, by omega⟩
    rw [readElems]
    simp only [List.map_cons, List.map_nil, commas] at hn ⊢
    rw [h i List.mem_cons_self n (']' :: rest) (by omega)]
    rfl
  | cons j items ih =>
    intro n rest hn
    obtain ⟨n, rfl⟩ : ∃ m, n = m + 1 := ⟨n - 1, by omega⟩
    simp only [List.map_cons, commas, List.length_append, List.length_cons] at hn
    have hrest := ih (fun k hk => hb k (List.mem_cons_of_mem _ hk))
      (fun k hk => h k (List.mem_cons_of_mem _ hk)) n rest
      (by simp only [List.map_cons]; omega)
    simp only [List.map_cons] at hrest
    have hbegin := begins_commas (hb j (by simp)) (items.map text)
    rw [readElems]
    simp only [List.map_cons, commas, List.append_assoc, List.cons_append]
    rw [h i List.mem_cons_self n _ (by omega)]
    simp only [skipWs_cons (c := ',') rfl, skipWs_begins hbegin, hrest]
    rfl

/-- **Arrays.** The texts of the elements read, so that of the array does. -/
theorem reads_arr {items : List ι} (hb : ∀ j ∈ items, Begins (text j))
    (h : ∀ j ∈ items, Reads (text j) (val j)) :
    Reads ('[' :: (commas (items.map text) ++ [']'])) (.arr (items.map val)) := by
  intro n rest hn
  obtain ⟨n, rfl⟩ : ∃ m, n = m + 1 := ⟨n - 1, by simp at hn; omega⟩
  cases items with
  | nil => rfl
  | cons i items =>
    have hread := readElems_commas hb h n rest (by
      simp only [List.length_cons, List.length_append] at hn
      simp only [List.map_cons] at hn ⊢
      omega)
    rw [List.cons_append, List.append_assoc, List.singleton_append, List.map_cons,
      readValue_arr (begins_commas (hb i List.mem_cons_self) _), ← List.map_cons, hread]
    rfl

/-- Whatever is read of elements keeps to what each of them keeps to. -/
theorem keepsTo_elems {i : ι} {items : List ι} (hb : ∀ j ∈ i :: items, Begins (text j))
    (h : ∀ j ∈ i :: items, KeepsTo (text j) P) :
    ∀ {n : ℕ} {vs : List Json} {rest r : List Char},
      readElems n (commas ((i :: items).map text) ++ ']' :: rest) = some (vs, r) →
        (∀ v ∈ vs, P v) ∧ r = rest := by
  induction items generalizing i with
  | nil =>
    intro n vs rest r hread
    obtain ⟨m, v, cs', hv, hend⟩ := readElems_cases hread
    obtain ⟨hP, rfl⟩ := h i List.mem_cons_self m _ _ _ hv
    rw [skipWs_cons rfl] at hend
    rcases hend with ⟨cs'', vs', hcs, -⟩ | ⟨hcs, rfl⟩
    · cases hcs
    · exact ⟨by simpa using hP, (List.cons.inj hcs).2.symm⟩
  | cons j items ih =>
    intro n vs rest r hread
    have hbegin := begins_commas (hb j (by simp)) (items.map text)
    simp only [List.map_cons, commas, List.append_assoc, List.cons_append] at hread
    obtain ⟨m, v, cs', hv, hend⟩ := readElems_cases hread
    obtain ⟨hP, rfl⟩ := h i List.mem_cons_self m _ _ _ hv
    rw [skipWs_cons rfl] at hend
    rcases hend with ⟨cs'', vs', hcs, hrest, rfl⟩ | ⟨hcs, -⟩
    · obtain ⟨-, rfl⟩ := List.cons.inj hcs
      rw [skipWs_begins hbegin] at hrest
      obtain ⟨hPs, rfl⟩ := ih (fun k hk => hb k (List.mem_cons_of_mem _ hk))
        (fun k hk => h k (List.mem_cons_of_mem _ hk)) hrest
      exact ⟨List.forall_mem_cons.mpr ⟨hP, hPs⟩, rfl⟩
    · cases hcs

/-- What the text of an array reads as is an array whose elements keep to the property. -/
theorem keepsTo_arr {items : List ι} (hb : ∀ j ∈ items, Begins (text j))
    (h : ∀ j ∈ items, KeepsTo (text j) P) :
    KeepsTo ('[' :: (commas (items.map text) ++ [']']))
      fun v => ∃ vs, v = .arr vs ∧ ∀ w ∈ vs, P w := by
  intro n rest v r hread
  cases n with
  | zero => cases hread
  | succ n =>
    cases items with
    | nil =>
      have heq : some (arr [], rest) = some (v, r) := hread
      obtain ⟨rfl, rfl⟩ := Prod.mk.inj (Option.some.inj heq)
      exact ⟨⟨[], rfl, by simp⟩, rfl⟩
    | cons i items =>
      rw [List.cons_append, List.append_assoc, List.singleton_append, List.map_cons,
        readValue_arr (begins_commas (hb i List.mem_cons_self) _), ← List.map_cons] at hread
      obtain ⟨p, hp, heq⟩ := Option.map_eq_some_iff.mp hread
      obtain ⟨rfl, rfl⟩ := Prod.mk.inj heq
      obtain ⟨hall, hr⟩ := keepsTo_elems hb h hp
      exact ⟨⟨p.1, rfl, hall⟩, hr⟩

/-! ### Objects

As for arrays, with a text for the key before that of the value.
-/

variable {ktext key : ι → List Char}

/-- A member of an object: its name, which ends with a quote, and its value. -/
def memberText (ktext text : ι → List Char) (i : ι) : List Char :=
  '"' :: (ktext i ++ ':' :: text i)

/-- A member begins with the quote of its key. -/
theorem begins_memberText (ktext text : ι → List Char) (i : ι) : Begins (memberText ktext text i) :=
  ⟨'"', _, rfl, rfl, by decide⟩

/-- And so do members with commas between them. -/
theorem commas_memberText (ktext text : ι → List Char) (i : ι) (items : List ι) :
    ∃ cs, commas ((i :: items).map (memberText ktext text)) = '"' :: cs := by
  cases items with
  | nil => exact ⟨_, rfl⟩
  | cons j items => exact ⟨_, rfl⟩

/-- The first of the members, and what follows it. -/
theorem readMembers_member {i : ι} (hb : Begins (text i)) (hk : ReadsString (ktext i) (key i))
    (h : Reads (text i) (val i)) {n : ℕ} (hn : (text i).length ≤ n) {c : Char} (hc : isWs c = false)
    (rest : List Char) :
    readMembers (n + 1) (memberText ktext text i ++ c :: rest) =
      if c = ',' then (readMembers n (skipWs rest)).map fun r => ((key i, val i) :: r.1, r.2)
      else if c = '}' then some ([(key i, val i)], rest)
      else none := by
  rw [memberText, List.cons_append, List.append_assoc, List.cons_append, readMembers, hk]
  simp only [skipWs_cons (c := ':') rfl, skipWs_begins hb]
  rw [h n _ hn]
  simp only [skipWs_cons hc]
  split
  · rename_i heq
    obtain ⟨rfl, rfl⟩ := List.cons.inj heq
    rfl
  · rename_i heq
    obtain ⟨rfl, rfl⟩ := List.cons.inj heq
    rfl
  · rename_i hcomma hend
    rw [if_neg fun h' => hcomma rest (by rw [h']), if_neg fun h' => hend rest (by rw [h'])]

/-- Members with commas between them are read one by one. -/
theorem readMembers_commas {i : ι} {items : List ι} (hb : ∀ j ∈ i :: items, Begins (text j))
    (hk : ∀ j ∈ i :: items, ReadsString (ktext j) (key j))
    (h : ∀ j ∈ i :: items, Reads (text j) (val j)) :
    ∀ (n : ℕ) (rest : List Char),
      (commas ((i :: items).map (memberText ktext text))).length + 1 ≤ n →
      readMembers n (commas ((i :: items).map (memberText ktext text)) ++ '}' :: rest) =
        some ((i :: items).map fun j => (key j, val j), rest) := by
  have hlen : ∀ j, (text j).length ≤ (memberText ktext text j).length := by
    intro j
    simp only [memberText, List.length_cons, List.length_append]
    omega
  induction items generalizing i with
  | nil =>
    intro n rest hn
    obtain ⟨n, rfl⟩ : ∃ m, n = m + 1 := ⟨n - 1, by omega⟩
    have hfits : (text i).length ≤ n := Nat.le_trans (hlen i) (Nat.le_of_succ_le_succ hn)
    exact readMembers_member (hb i List.mem_cons_self) (hk i List.mem_cons_self)
      (h i List.mem_cons_self) hfits rfl rest
  | cons j items ih =>
    intro n rest hn
    obtain ⟨n, rfl⟩ : ∃ m, n = m + 1 := ⟨n - 1, by omega⟩
    have hbegin := begins_commas (begins_memberText ktext text j)
      (items.map (memberText ktext text))
    simp only [List.map_cons, commas, List.length_cons, List.length_append] at hn
    have hfits : (text i).length ≤ n := Nat.le_trans (hlen i) (by omega)
    have hrest := ih (fun k hk => hb k (List.mem_cons_of_mem _ hk))
      (fun j hj => hk j (List.mem_cons_of_mem _ hj))
      (fun k hk => h k (List.mem_cons_of_mem _ hk)) n rest
      (by simp only [List.map_cons]; omega)
    simp only [List.map_cons] at hrest
    simp only [List.map_cons, commas, List.append_assoc, List.cons_append]
    rw [readMembers_member (hb i List.mem_cons_self) (hk i List.mem_cons_self)
      (h i List.mem_cons_self) hfits rfl, if_pos rfl, skipWs_begins hbegin, hrest]
    rfl

/-- **Objects.** The texts of the keys and of the values read, so that of the object does. -/
theorem reads_obj {items : List ι} (hb : ∀ j ∈ items, Begins (text j))
    (hk : ∀ j ∈ items, ReadsString (ktext j) (key j)) (h : ∀ j ∈ items, Reads (text j) (val j)) :
    Reads ('{' :: (commas (items.map (memberText ktext text)) ++ ['}']))
      (.obj (items.map fun j => (key j, val j))) := by
  intro n rest hn
  obtain ⟨n, rfl⟩ : ∃ m, n = m + 1 := ⟨n - 1, by simp at hn; omega⟩
  cases items with
  | nil => rfl
  | cons i items =>
    have hread := readMembers_commas hb hk h n rest (by
      simp only [List.length_cons, List.length_append] at hn
      simp only [List.map_cons] at hn ⊢
      omega)
    obtain ⟨cs, hcs⟩ := commas_memberText ktext text i items
    rw [hcs, List.cons_append] at hread ⊢
    rw [List.cons_append, List.cons_append, List.append_assoc, List.singleton_append, readValue_obj,
      hread]
    rfl

variable {Q : List Char → Prop}

/-- The first of the members, with what may follow it. -/
theorem keepsTo_member {i : ι} (hb : Begins (text i)) (hk : KeepsToString (ktext i) Q)
    (h : KeepsTo (text i) P) {n : ℕ} {ms : List (List Char × Json)} {c : Char}
    {rest r : List Char} (hc : isWs c = false)
    (hread : readMembers n (memberText ktext text i ++ c :: rest) = some (ms, r)) :
    ∃ m k v, Q k ∧ P v ∧
      ((∃ ms', c = ',' ∧ readMembers m (skipWs rest) = some (ms', r) ∧ ms = (k, v) :: ms') ∨
        (c = '}' ∧ r = rest ∧ ms = [(k, v)])) := by
  rw [memberText, List.cons_append, List.append_assoc, List.cons_append] at hread
  obtain ⟨m, k, v, cs₁, cs₂, cs₃, hs, hcolon, hv, hend⟩ := readMembers_cases hread
  obtain ⟨hQ, rfl⟩ := hk _ _ _ hs
  rw [skipWs_cons rfl] at hcolon
  obtain ⟨-, rfl⟩ := List.cons.inj hcolon
  rw [skipWs_begins hb] at hv
  obtain ⟨hP, rfl⟩ := h m _ _ _ hv
  rw [skipWs_cons hc] at hend
  refine ⟨m, k, v, hQ, hP, ?_⟩
  rcases hend with ⟨cs₄, ms', hcs, hrest, heq⟩ | ⟨hcs, heq⟩
  · obtain ⟨rfl, rfl⟩ := List.cons.inj hcs
    exact Or.inl ⟨ms', rfl, hrest, heq⟩
  · obtain ⟨rfl, rfl⟩ := List.cons.inj hcs
    exact Or.inr ⟨rfl, rfl, heq⟩

/-- Whatever is read of members keeps to what keys and values keep to. -/
theorem keepsTo_members {i : ι} {items : List ι} (hb : ∀ j ∈ i :: items, Begins (text j))
    (hk : ∀ j ∈ i :: items, KeepsToString (ktext j) Q)
    (h : ∀ j ∈ i :: items, KeepsTo (text j) P) :
    ∀ {n : ℕ} {ms : List (List Char × Json)} {rest r : List Char},
      readMembers n (commas ((i :: items).map (memberText ktext text)) ++ '}' :: rest) =
        some (ms, r) →
      (∀ m ∈ ms, Q m.1 ∧ P m.2) ∧ r = rest := by
  induction items generalizing i with
  | nil =>
    intro n ms rest r hread
    obtain ⟨m, k, v, hQ, hP, ⟨ms', hc, -⟩ | ⟨-, rfl, rfl⟩⟩ := keepsTo_member
      (hb i List.mem_cons_self) (hk i List.mem_cons_self) (h i List.mem_cons_self) rfl hread
    · cases hc
    · exact ⟨by simpa using ⟨hQ, hP⟩, rfl⟩
  | cons j items ih =>
    intro n ms rest r hread
    have hbegin := begins_commas (begins_memberText ktext text j)
      (items.map (memberText ktext text))
    simp only [List.map_cons, commas, List.append_assoc, List.cons_append] at hread
    obtain ⟨m, k, v, hQ, hP, ⟨ms', -, hrest, rfl⟩ | ⟨hc, -⟩⟩ := keepsTo_member
      (hb i List.mem_cons_self) (hk i List.mem_cons_self) (h i List.mem_cons_self) rfl hread
    · rw [skipWs_begins hbegin] at hrest
      obtain ⟨hall, rfl⟩ := ih (fun k hk => hb k (List.mem_cons_of_mem _ hk))
        (fun j hj => hk j (List.mem_cons_of_mem _ hj))
        (fun k hk => h k (List.mem_cons_of_mem _ hk)) hrest
      exact ⟨List.forall_mem_cons.mpr ⟨⟨hQ, hP⟩, hall⟩, rfl⟩
    · cases hc

/-- What the text of an object reads as is an object whose members keep to the properties. -/
theorem keepsTo_obj {items : List ι} (hb : ∀ j ∈ items, Begins (text j))
    (hk : ∀ j ∈ items, KeepsToString (ktext j) Q)
    (h : ∀ j ∈ items, KeepsTo (text j) P) :
    KeepsTo ('{' :: (commas (items.map (memberText ktext text)) ++ ['}']))
      fun v => ∃ ms, v = .obj ms ∧ ∀ m ∈ ms, Q m.1 ∧ P m.2 := by
  intro n rest v r hread
  cases n with
  | zero => cases hread
  | succ n =>
    cases items with
    | nil =>
      have heq : some (obj [], rest) = some (v, r) := hread
      obtain ⟨rfl, rfl⟩ := Prod.mk.inj (Option.some.inj heq)
      exact ⟨⟨[], rfl, by simp⟩, rfl⟩
    | cons i items =>
      obtain ⟨cs, hcs⟩ := commas_memberText ktext text i items
      rw [hcs, List.cons_append, List.cons_append, List.cons_append, List.append_assoc,
        List.singleton_append, readValue_obj] at hread
      obtain ⟨p, hp, heq⟩ := Option.map_eq_some_iff.mp hread
      obtain ⟨rfl, rfl⟩ := Prod.mk.inj heq
      rw [← List.cons_append, ← hcs] at hp
      obtain ⟨hall, hr⟩ := keepsTo_members hb hk h hp
      exact ⟨⟨p.1, rfl, hall⟩, hr⟩

end

/-! ### Whole texts -/

/-- A text that reads as a value is parsed as it. -/
theorem parse_of_reads {text : List Char} {v : Json} (hb : Begins text) (h : Reads text v) :
    parse text = some v := by
  have hread := h (text.length + 1) [] (Nat.le_succ _)
  rw [List.append_nil] at hread
  have hskip := skipWs_begins hb []
  rw [List.append_nil] at hskip
  rw [parse, hskip, hread]
  rfl

/-- What is parsed of a text has the property that the text keeps to. -/
theorem keepsTo_parse {text : List Char} {v : Json} {P : Json → Prop} (hb : Begins text)
    (h : KeepsTo text P) (hparse : parse text = some v) : P v := by
  have hskip := skipWs_begins hb []
  rw [List.append_nil] at hskip
  rw [parse, hskip] at hparse
  split at hparse
  · cases hparse
  · rename_i v' cs hread
    split at hparse
    · obtain rfl := Option.some.inj hparse
      exact (h _ [] v' cs (by rw [List.append_nil]; exact hread)).1
    · cases hparse

end Json

end Mbb
