import Mbb.XmlTag

/-!
# Tags as JSON

What `xml_tag_to_json` writes reads as an object with the attributes and the childs of the tag,
as long as no name or value has a control character for which `json_escape` knows no short
escape. For these it writes `\u` and the code with one or two digits, where JSON has four: the
text is no JSON, or the digits that follow are taken for digits of the code.
-/

namespace Mbb

open Json

/-! ## Characters

A reader sees units: characters, and the codes after `\u`, two of which may make one character. What
a character is written as decides whether its unit is read back.
-/

/-- A character that `json_escape` writes as JSON has it. -/
def jsonClean (c : Char) : Bool := decide (0x20 ≤ c.toNat) || (jsonEscapes.lookup c).isSome

/-- What is found in the table of short escapes is a row of it. -/
theorem mem_of_lookup {c p : Char} (h : jsonEscapes.lookup c = some p) : (c, p) ∈ jsonEscapes := by
  obtain ⟨l₁, l₂, heq, -⟩ := List.lookup_eq_some_iff.mp h
  rw [heq]
  simp

/-- Short escapes are undone. -/
theorem unescape_of_lookup {c p : Char} (h : jsonEscapes.lookup c = some p) :
    p ≠ 'u' ∧ unescape p = some c := by
  have hall : ∀ q ∈ jsonEscapes, q.2 ≠ 'u' ∧ unescape q.2 = some q.1 := by decide
  exact hall (c, p) (mem_of_lookup h)

/-- The character is written as it is, or escaped. -/
theorem jsonEscapeChar_cases (c : Char) :
    (jsonEscapeChar c = [c] ∧ c ≠ '"' ∧ c ≠ '\\' ∧ 0x20 ≤ c.toNat) ∨
      (∃ p, jsonEscapes.lookup c = some p ∧ jsonEscapeChar c = ['\\', p]) ∨
      (jsonClean c = false ∧ c.toNat < 0x20 ∧
        jsonEscapeChar c = '\\' :: 'u' :: Nat.toDigits 16 c.toNat) := by
  have hne : ∀ d : Char, d.toNat < 0x80 → (jsonEscapes.lookup d).isSome = true →
      (0x80 ≤ c.toNat ∨ jsonEscapes.lookup c = none) → c ≠ d := by
    rintro d hd hsome (hc | hc) rfl
    · omega
    · rw [hc] at hsome
      cases hsome
  rw [jsonEscapeChar]
  by_cases h80 : 0x80 ≤ c.toNat
  · rw [if_pos h80]
    exact Or.inl ⟨rfl, hne '"' (by decide) (by decide) (Or.inl h80),
      hne '\\' (by decide) (by decide) (Or.inl h80), by omega⟩
  · rw [if_neg h80]
    cases hl : jsonEscapes.lookup c with
    | some p => exact Or.inr (Or.inl ⟨p, rfl, rfl⟩)
    | none =>
      by_cases h20 : c.toNat < 0x20
      · refine Or.inr (Or.inr ⟨?_, h20, by simp only [if_pos h20]⟩)
        rw [jsonClean, hl, decide_eq_false (by omega)]
        rfl
      · refine Or.inl ⟨by simp only [if_neg h20], hne '"' (by decide) (by decide) (Or.inr hl),
          hne '\\' (by decide) (by decide) (Or.inr hl), by omega⟩

/-- A clean character is read back. -/
theorem readUnits_clean {c : Char} (hc : jsonClean c = true) (cs : List Char) :
    readUnits (jsonEscapeChar c ++ cs) = (readUnits cs).map fun r => (.inl c :: r.1, r.2) := by
  rcases jsonEscapeChar_cases c with ⟨heq, hq, hb, h20⟩ | ⟨p, hp, heq⟩ | ⟨hbad, -⟩
  · rw [heq, List.singleton_append, readUnits_plain hq hb h20]
  · obtain ⟨hu, hun⟩ := unescape_of_lookup hp
    rw [heq, List.cons_append, List.singleton_append, readUnits_short hu hun]
  · rw [hc] at hbad
    cases hbad

/-- Characters that are no halves of a surrogate pair are left alone. -/
theorem joinUnits_inl (s : List Char) : joinUnits (s.map .inl) = s := by
  induction s with
  | nil => rfl
  | cons c s ih => rw [List.map_cons, joinUnits, ih]

/-- The text of a string behind its first quote. -/
def escapedText (s : List Char) : List Char := s.flatMap jsonEscapeChar ++ ['"']

/-- A text is escaped character by character, and ends with the quote. -/
theorem escapedText_cons (c : Char) (s : List Char) :
    escapedText (c :: s) = jsonEscapeChar c ++ escapedText s := by
  rw [escapedText, List.flatMap_cons, List.append_assoc, escapedText]

/-- **A clean string reads as itself.** The induction is over the string; each of its characters is
one unit. -/
theorem readsString_escapedText {s : List Char} (h : ∀ c ∈ s, jsonClean c = true) :
    ReadsString (escapedText s) s := by
  intro rest
  have hunits : readUnits (escapedText s ++ rest) = some (s.map .inl, rest) := by
    induction s with
    | nil => exact readUnits_quote rest
    | cons c s ih =>
      rw [escapedText_cons, List.append_assoc, readUnits_clean (h c List.mem_cons_self),
        ih fun c hc => h c (List.mem_cons_of_mem _ hc)]
      rfl
  rw [readString, hunits, Option.map_some, joinUnits_inl]

/-! ### Characters that are not clean

For the converse it is not enough that the text of such a character is odd: every reading of every
text that contains one has to be looked at. A `\u` with one or two digits takes the next characters
for the rest of the code, so what is read is a character that is not clean, if anything is read.
-/

/-- A digit is below sixteen. -/
theorem hexVal_lt {c : Char} {n : ℕ} (h : hexVal c = some n) : n < 16 := by
  rw [hexVal] at h
  split at h
  · rename_i hc
    obtain rfl := Option.some.inj h
    have : c.toNat ≤ 57 := hc.2
    have : '0'.toNat = 48 := rfl
    omega
  · split at h
    · rename_i hc
      obtain rfl := Option.some.inj h
      have : c.toNat ≤ 102 := hc.2
      have : 'a'.toNat = 97 := rfl
      omega
    · split at h
      · rename_i hc
        obtain rfl := Option.some.inj h
        have : c.toNat ≤ 70 := hc.2
        have : 'A'.toNat = 65 := rfl
        omega
      · cases h

/-- The digits that `%x` writes are read as what they stand for. -/
theorem hexVal_digitChar : ∀ n < 16, hexVal (Nat.digitChar n) = some n := by decide

/-- A code from sixteen on, below thirty-two, has two digits, the first of which is `1`. -/
theorem toDigits_two : ∀ n < 32, 16 ≤ n → Nat.toDigits 16 n = ['1', Nat.digitChar (n - 16)] := by
  decide

/-- A digit in the text of a string is a digit of the string. -/
theorem digit_escapedText {s rest cs : List Char} {d : Char} {n : ℕ}
    (h : escapedText s ++ rest = d :: cs) (hd : hexVal d = some n) :
    ∃ s', s = d :: s' ∧ cs = escapedText s' ++ rest := by
  cases s with
  | nil =>
    obtain ⟨rfl, -⟩ := List.cons.inj h
    cases hd
  | cons c s =>
    rw [escapedText_cons, List.append_assoc] at h
    rcases jsonEscapeChar_cases c with ⟨heq, -⟩ | ⟨p, -, heq⟩ | ⟨-, -, heq⟩
    · rw [heq] at h
      obtain ⟨rfl, rfl⟩ := List.cons.inj h
      exact ⟨s, rfl, rfl⟩
    · rw [heq] at h
      obtain ⟨rfl, -⟩ := List.cons.inj h
      cases hd
    · rw [heq] at h
      obtain ⟨rfl, -⟩ := List.cons.inj h
      cases hd

/-- What the reader may get from the text of a string. -/
def GoodUnit : Char ⊕ ℕ → Prop
  | .inl c => jsonClean c = true
  | .inr n => 0x1000 ≤ n ∧ n < 0x10000 ∧ isHigh n = false ∧ isLow n = false

/-- Four digits that are read are digits each. -/
theorem hex4_eq {a b c d : Char} {n : ℕ} (h : hex4 a b c d = some n) :
    ∃ x y z w, hexVal a = some x ∧ hexVal b = some y ∧ hexVal c = some z ∧ hexVal d = some w ∧
      n = ((x * 16 + y) * 16 + z) * 16 + w := by
  rw [hex4] at h
  split at h
  · rename_i x y z w hx hy hz hw
    exact ⟨x, y, z, w, hx, hy, hz, hw, (Option.some.inj h).symm⟩
  · cases h

/-- Surrogates start with the digit 13. -/
theorem goodUnit_digits {x y z w : ℕ} (hx : 0 < x) (hx16 : x < 16) (hx13 : x ≠ 13) (hy : y < 16)
    (hz : z < 16) (hw : w < 16) : GoodUnit (.inr (((x * 16 + y) * 16 + z) * 16 + w)) := by
  refine ⟨by omega, by omega, ?_, ?_⟩
  · simp only [isHigh, Bool.and_eq_false_iff, decide_eq_false_iff_not]
    omega
  · simp only [isLow, Bool.and_eq_false_iff, decide_eq_false_iff_not]
    omega

/-- The code of a character that is not clean gets digits of the string, and is read as a
character that is. -/
theorem readUnits_notClean {c : Char} {s rest r : List Char} {us : List (Char ⊕ ℕ)}
    (hc : jsonClean c = false) (hnul : c ≠ '\x00')
    (h : readUnits (jsonEscapeChar c ++ (escapedText s ++ rest)) = some (us, r)) :
    ∃ n s' us', s'.length ≤ s.length ∧ (∀ d ∈ s', d ∈ s) ∧ GoodUnit (.inr n) ∧
      us = .inr n :: us' ∧ readUnits (escapedText s' ++ rest) = some (us', r) := by
  rcases jsonEscapeChar_cases c with ⟨-, -, -, h20⟩ | ⟨p, hp, -⟩ | ⟨-, hlt, heq⟩
  · rw [jsonClean, decide_eq_true h20] at hc
    cases hc
  · rw [jsonClean, hp, Option.isSome_some, Bool.or_true] at hc
    cases hc
  · have hpos : 0 < c.toNat := by
      refine Nat.pos_of_ne_zero fun h0 => hnul ?_
      rw [← Char.ofNat_toNat c, h0]
    have h13 : c.toNat ≠ 13 := by
      intro h13
      rw [← Char.ofNat_toNat c, h13] at hc
      revert hc
      decide
    rw [heq, List.cons_append, List.cons_append] at h
    obtain ⟨h₁, h₂, h₃, h₄, n, cs', us', hcs, hn, hread, rfl⟩ := readUnits_code_cases h
    obtain ⟨x, y, z, w, hx, hy, hz, hw, rfl⟩ := hex4_eq hn
    have hylt := hexVal_lt hy
    have hzlt := hexVal_lt hz
    have hwlt := hexVal_lt hw
    by_cases h16 : c.toNat < 16
    · -- three digits of the string are taken
      rw [Nat.toDigits_of_lt_base h16] at hcs
      obtain ⟨rfl, hcs₁⟩ := List.cons.inj hcs
      obtain ⟨s₁, rfl, hcs₂⟩ := digit_escapedText hcs₁ hy
      obtain ⟨s₂, rfl, hcs₃⟩ := digit_escapedText hcs₂.symm hz
      obtain ⟨s₃, rfl, rfl⟩ := digit_escapedText hcs₃.symm hw
      have hx' := Option.some.inj (hx.symm.trans (hexVal_digitChar c.toNat h16))
      refine ⟨_, s₃, us', ?_, ?_, ?_, rfl, hread⟩
      · simp only [List.length_cons]
        omega
      · simp +contextual
      · rw [hx']
        exact goodUnit_digits hpos h16 h13 hylt hzlt hwlt
    · rw [toDigits_two c.toNat hlt (by omega)] at hcs
      obtain ⟨rfl, hcs₁⟩ := List.cons.inj hcs
      obtain ⟨rfl, hcs₂⟩ := List.cons.inj hcs₁
      obtain ⟨s₁, rfl, hcs₃⟩ := digit_escapedText hcs₂ hz
      obtain ⟨s₂, rfl, rfl⟩ := digit_escapedText hcs₃.symm hw
      have hx' : x = 1 := Option.some.inj (hx.symm.trans (by decide))
      refine ⟨_, s₂, us', ?_, ?_, ?_, rfl, hread⟩
      · simp only [List.length_cons]
        omega
      · simp +contextual
      · rw [hx']
        exact goodUnit_digits Nat.one_pos (by decide) (by decide) hylt hzlt hwlt

/-- The reader stops behind the string, and gets good units only. -/
theorem readUnits_escapedText : ∀ {s rest r : List Char} {us : List (Char ⊕ ℕ)},
    '\x00' ∉ s → readUnits (escapedText s ++ rest) = some (us, r) →
      (∀ u ∈ us, GoodUnit u) ∧ r = rest := by
  intro s
  induction hlen : s.length using Nat.strong_induction_on generalizing s with
  | h n ih =>
    intro rest r us hnul h
    cases s with
    | nil =>
      have heq : some ([], rest) = some (us, r) := (readUnits_quote rest).symm.trans h
      obtain ⟨rfl, rfl⟩ := Prod.mk.inj (Option.some.inj heq)
      exact ⟨by simp, rfl⟩
    | cons c s =>
      have hnul' : '\x00' ∉ s := fun hm => hnul (List.mem_cons_of_mem _ hm)
      have hlt : s.length < n := by
        rw [← hlen, List.length_cons]
        omega
      rw [escapedText_cons, List.append_assoc] at h
      cases hc : jsonClean c with
      | true =>
        rw [readUnits_clean hc] at h
        obtain ⟨p, hp, heq⟩ := Option.map_eq_some_iff.mp h
        obtain ⟨rfl, rfl⟩ := Prod.mk.inj heq
        obtain ⟨hgood, hr⟩ := ih s.length hlt rfl hnul' hp
        exact ⟨List.forall_mem_cons.mpr ⟨hc, hgood⟩, hr⟩
      | false =>
        have hc0 : c ≠ '\x00' := fun heq => hnul (heq ▸ List.mem_cons_self)
        obtain ⟨m, s', us', hs', hsub, hm, rfl, hread⟩ := readUnits_notClean hc hc0 h
        obtain ⟨hgood, hr⟩ := ih s'.length (by omega) rfl (fun h0 => hnul' (hsub _ h0)) hread
        exact ⟨List.forall_mem_cons.mpr ⟨hm, hgood⟩, hr⟩

/-- Good units are clean characters. -/
theorem jsonClean_joinUnits {us : List (Char ⊕ ℕ)} (h : ∀ u ∈ us, GoodUnit u) :
    ∀ c ∈ joinUnits us, jsonClean c = true := by
  have hcode : ∀ {n}, GoodUnit (.inr n) → jsonClean (ofCode n) = true := by
    rintro n ⟨hlow, hhigh, hh, hl⟩
    have hvalid : n.isValidChar := by
      simp only [isHigh, isLow, Bool.and_eq_false_iff, decide_eq_false_iff_not] at hh hl
      simp only [Nat.isValidChar]
      omega
    rw [ofCode, hh, hl, jsonClean]
    simp only [Bool.or_self, Bool.false_eq_true, if_false, Bool.or_eq_true, decide_eq_true_eq]
    have hn : (Char.ofNat n).toNat = n := by
      rw [Char.ofNat, dif_pos hvalid]
      rfl
    left
    omega
  fun_induction joinUnits us with
  | case1 => simp
  | case2 c us ih =>
    have hc : jsonClean c = true := h _ List.mem_cons_self
    exact List.forall_mem_cons.mpr ⟨hc, ih fun u hu => h u (List.mem_cons_of_mem _ hu)⟩
  | case3 n => simpa using hcode (h _ List.mem_cons_self)
  | case4 n c us ih =>
    have hc : jsonClean c = true := h (.inl c) (by simp)
    refine List.forall_mem_cons.mpr ⟨hcode (h _ List.mem_cons_self), ?_⟩
    exact List.forall_mem_cons.mpr ⟨hc, ih fun u hu => h u (by simp [hu])⟩
  | case5 n m us hpair ih =>
    have hn := h (.inr n) List.mem_cons_self
    rw [hn.2.2.1] at hpair
    cases hpair
  | case6 n m us hpair ih =>
    exact List.forall_mem_cons.mpr ⟨hcode (h _ List.mem_cons_self),
      ih fun u hu => h u (List.mem_cons_of_mem _ hu)⟩

/-- A string whose escaped text reads as something clean was clean. -/
theorem keepsToString_escapedText (str : CStr) :
    KeepsToString (escapedText str.chars) fun s => ∀ c ∈ s, jsonClean c = true := by
  intro rest s r h
  obtain ⟨p, hp, heq⟩ := Option.map_eq_some_iff.mp h
  obtain ⟨rfl, rfl⟩ := Prod.mk.inj heq
  obtain ⟨hgood, hr⟩ := readUnits_escapedText str.noNul hp
  exact ⟨jsonClean_joinUnits hgood, hr⟩

/-! ## Texts of tags

The writer puts a comma before an item if the string does not end with an opening brace. That the
comma is right depends on how items end.
-/

/-- A member of an object: its name, the text of its value, and the value. -/
abbrev JsonItem : Type := CStr × List Char × Json

namespace JsonItem

/-- The text of a member. -/
def text (i : JsonItem) : List Char :=
  memberText (fun i : JsonItem => escapedText i.1.chars) (fun i => i.2.1) i

end JsonItem

/-- Attributes, without those that have no string. -/
def attrItems (attrs : List (CStr × Variant)) : List JsonItem :=
  attrs.filterMap fun a => (variantToString a.2).map fun value =>
    (a.1, '"' :: escapedText value.chars, .str value.chars)

mutual

/-- The text of a tag, and its value. -/
def XmlTag.item : XmlTag → List Char × Json
  | .mk _ attrs _ childs =>
    ('{' :: (commas ((attrItems attrs.rows ++ childs.items).map JsonItem.text) ++ ['}']),
      .obj ((attrItems attrs.rows ++ childs.items).map fun i => (i.1.chars, i.2.2)))

/-- The members for the childs. -/
def ChildTable.items : ChildTable → List JsonItem
  | .nil => []
  | .cons name tags rest =>
    (name, '[' :: (commas (tags.items.map Prod.fst) ++ [']']), .arr (tags.items.map Prod.snd)) ::
      rest.items

/-- The elements for the childs of one name. -/
def Siblings.items : Siblings → List (List Char × Json)
  | .last tag => [tag.item]
  | .cons tag next => tag.item :: next.items

end

/-- Members are added with a comma before each but the first. -/
def appendItems (string : List Char) (items : List JsonItem) : List Char :=
  items.foldl (fun string i => jsonComma string ++ i.text) string

/-- The first item, after a comma where one is due, and then the others. -/
theorem appendItems_cons (string : List Char) (i : JsonItem) (items : List JsonItem) :
    appendItems string (i :: items) = appendItems (jsonComma string ++ i.text) items := rfl

/-- Items are appended in two parts. -/
theorem appendItems_append (string : List Char) (items items' : List JsonItem) :
    appendItems string (items ++ items') = appendItems (appendItems string items) items' :=
  List.foldl_append

/-- The text of a member does not end with a brace that opens. -/
def EndsWell (i : JsonItem) : Prop := i.text.getLast? ≠ some '{' ∧ i.text ≠ []

/-- Behind a member. -/
theorem appendItems_more {items : List JsonItem} (h : ∀ i ∈ items, EndsWell i) :
    ∀ {string : List Char}, string.getLast? ≠ some '{' →
      appendItems string items = string ++ (items.map fun i => ',' :: i.text).flatten := by
  induction items with
  | nil =>
    intro string _
    simp [appendItems]
  | cons i items ih =>
    intro string hs
    have hi := h i List.mem_cons_self
    rw [appendItems_cons, jsonComma, if_pos hs,
      ih (fun j hj => h j (List.mem_cons_of_mem _ hj))]
    · simp
    · rw [List.getLast?_append_of_ne_nil _ hi.2]
      exact hi.1

/-- The first text, and the others each behind a comma. -/
theorem commas_cons (t : List Char) (ts : List (List Char)) :
    commas (t :: ts) = t ++ (ts.map fun u => ',' :: u).flatten := by
  induction ts generalizing t with
  | nil => simp [commas]
  | cons u ts ih => rw [commas, ih, List.map_cons, List.flatten_cons, List.cons_append]

/-- Behind the brace. -/
theorem appendItems_brace {items : List JsonItem} (h : ∀ i ∈ items, EndsWell i)
    (string : List Char) :
    appendItems (string ++ ['{']) items =
      string ++ ['{'] ++ commas (items.map JsonItem.text) := by
  cases items with
  | nil => simp [appendItems, commas]
  | cons i items =>
    have hi := h i List.mem_cons_self
    have hcomma : jsonComma (string ++ ['{']) = string ++ ['{'] := by simp [jsonComma]
    rw [appendItems_cons, hcomma, appendItems_more (fun j hj => h j (List.mem_cons_of_mem _ hj)),
      List.map_cons, commas_cons, List.map_map]
    · simp [Function.comp_def]
    · rw [List.getLast?_append_of_ne_nil _ hi.2]
      exact hi.1

/-- The loop over the attributes appends their items. -/
theorem addAttrs_eq (attrs : List (CStr × Variant)) (string : List Char) :
    attrs.foldl xmlTagToJsonAddAttr string = appendItems string (attrItems attrs) := by
  induction attrs generalizing string with
  | nil => rfl
  | cons a attrs ih =>
    rw [List.foldl_cons, ih, xmlTagToJsonAddAttr]
    cases hvalue : variantToString a.2 with
    | none => rw [attrItems, attrItems, List.filterMap_cons, hvalue, Option.map_none]
    | some value =>
      rw [attrItems, attrItems, List.filterMap_cons, hvalue, Option.map_some, appendItems_cons]
      simp [JsonItem.text, memberText, jsonEscape, escapedText]

/-- An item of an attribute does not end with the brace after which no comma is written. -/
theorem endsWell_attrItems {attrs : List (CStr × Variant)} : ∀ i ∈ attrItems attrs, EndsWell i := by
  intro i hi
  obtain ⟨a, -, ha⟩ := List.mem_filterMap.mp hi
  obtain ⟨value, -, rfl⟩ := Option.map_eq_some_iff.mp ha
  refine ⟨?_, by simp [JsonItem.text, memberText]⟩
  simp [JsonItem.text, memberText, escapedText, List.getLast?_cons]

/-- Nor does an item of childs. -/
theorem endsWell_items : ∀ (table : ChildTable), ∀ i ∈ table.items, EndsWell i
  | .nil, i, hi => by cases hi
  | .cons name tags rest, i, hi => by
    rw [ChildTable.items] at hi
    rcases List.mem_cons.mp hi with rfl | hi
    · refine ⟨?_, by simp [JsonItem.text, memberText]⟩
      simp [JsonItem.text, memberText, List.getLast?_cons]
    · exact endsWell_items rest i hi

mutual

/-- **What is written of a tag is the text of its item.** It is appended to whatever string there
is. -/
theorem addTag_eq : ∀ (tag : XmlTag) (string : List Char),
    xmlTagToJsonAddTag tag string = string ++ tag.item.1
  | .mk name attrs body childs, string => by
    rw [xmlTagToJsonAddTag, addChilds_eq childs, addAttrs_eq, ← appendItems_append,
      appendItems_brace, XmlTag.item]
    · simp
    · intro i hi
      rcases List.mem_append.mp hi with hi | hi
      · exact endsWell_attrItems i hi
      · exact endsWell_items childs i hi

/-- The childs append their items, name by name. -/
theorem addChilds_eq : ∀ (table : ChildTable) (string : List Char),
    xmlTagToJsonAddChilds table string = appendItems string table.items
  | .nil, string => rfl
  | .cons name tags rest, string => by
    rw [xmlTagToJsonAddChilds, addChilds_eq rest, addTags_eq tags, ChildTable.items,
      appendItems_cons]
    simp [JsonItem.text, memberText, jsonEscape, escapedText]

/-- The tags of one name append theirs, with commas between them. -/
theorem addTags_eq : ∀ (tags : Siblings) (string : List Char),
    xmlTagToJsonAddTags tags string = string ++ commas (tags.items.map Prod.fst)
  | .last tag, string => addTag_eq tag string
  | .cons tag next, string => by
    rw [xmlTagToJsonAddTags, addTags_eq next, addTag_eq tag, Siblings.items]
    cases next <;> simp [Siblings.items, commas]

end

/-! ## Reading the text of a tag

Both directions are by the same induction: what clean parts read as, and what the value of any part
that reads must be like.
-/

/-- All characters of the string are clean. -/
def CleanStr (str : CStr) : Prop := ∀ c ∈ str.chars, jsonClean c = true

/-- Names and values of attributes are clean. -/
def CleanAttrs (attrs : List (CStr × Variant)) : Prop :=
  ∀ a ∈ attrs, ∀ value, variantToString a.2 = some value → CleanStr a.1 ∧ CleanStr value

mutual

/-- All names and values in the tag are clean. -/
def XmlTag.Clean : XmlTag → Prop
  | .mk _ attrs _ childs => CleanAttrs attrs.rows ∧ childs.Clean

/-- All names of childs, and the childs, are clean. -/
def ChildTable.Clean : ChildTable → Prop
  | .nil => True
  | .cons name tags rest => CleanStr name ∧ tags.Clean ∧ rest.Clean

/-- All of the tags are clean. -/
def Siblings.Clean : Siblings → Prop
  | .last tag => tag.Clean
  | .cons tag next => tag.Clean ∧ next.Clean

end

/-- The text of a tag begins with a brace, which no reader skips. -/
theorem begins_item : ∀ tag : XmlTag, Begins tag.item.1
  | .mk _ _ _ _ => ⟨'{', _, rfl, rfl, by decide⟩

/-- Likewise for each tag of a name. -/
theorem begins_tags : ∀ tags : Siblings, ∀ p ∈ tags.items, Begins p.1
  | .last tag, p, hp => by
    obtain rfl := List.mem_singleton.mp hp
    exact begins_item tag
  | .cons tag next, p, hp => by
    rcases List.mem_cons.mp hp with rfl | hp
    · exact begins_item tag
    · exact begins_tags next p hp

/-- The text of an attribute begins with a quote. -/
theorem begins_attrItems {attrs : List (CStr × Variant)} : ∀ i ∈ attrItems attrs, Begins i.2.1 := by
  intro i hi
  obtain ⟨a, -, ha⟩ := List.mem_filterMap.mp hi
  obtain ⟨value, -, rfl⟩ := Option.map_eq_some_iff.mp ha
  exact ⟨'"', _, rfl, rfl, by decide⟩

/-- The text of the childs of a name begins with a bracket. -/
theorem begins_items : ∀ table : ChildTable, ∀ i ∈ table.items, Begins i.2.1
  | .nil, i, hi => by cases hi
  | .cons name tags rest, i, hi => by
    rcases List.mem_cons.mp hi with rfl | hi
    · exact ⟨'[', _, rfl, rfl, by decide⟩
    · exact begins_items rest i hi

/-- Members of an object are the attributes and the childs. -/
theorem forall_items {attrs : List (CStr × Variant)} {childs : ChildTable} {P : JsonItem → Prop}
    (hattrs : ∀ i ∈ attrItems attrs, P i) (hchilds : ∀ i ∈ childs.items, P i) :
    ∀ i ∈ attrItems attrs ++ childs.items, P i := fun i hi =>
  (List.mem_append.mp hi).elim (hattrs i) (hchilds i)

/-- Clean attributes read as their names and values. -/
theorem reads_attrItems {attrs : List (CStr × Variant)} (h : CleanAttrs attrs) :
    ∀ i ∈ attrItems attrs,
      ReadsString (escapedText i.1.chars) i.1.chars ∧ Reads i.2.1 i.2.2 := by
  intro i hi
  obtain ⟨a, ha, heq⟩ := List.mem_filterMap.mp hi
  obtain ⟨value, hvalue, rfl⟩ := Option.map_eq_some_iff.mp heq
  obtain ⟨hname, hclean⟩ := h a ha value hvalue
  exact ⟨readsString_escapedText hname, reads_str (readsString_escapedText hclean)⟩

mutual

/-- **A clean tag reads as its value.** The induction is over the tag, with the childs and the tags
of one name. -/
theorem reads_item : ∀ tag : XmlTag, tag.Clean → Reads tag.item.1 tag.item.2
  | .mk name attrs body childs, h => by
    have hreads := forall_items (reads_attrItems h.1) (reads_items childs h.2)
    exact reads_obj (forall_items begins_attrItems (begins_items childs))
      (fun i hi => (hreads i hi).1) fun i hi => (hreads i hi).2

/-- Likewise for clean childs. -/
theorem reads_items : ∀ table : ChildTable, table.Clean → ∀ i ∈ table.items,
    ReadsString (escapedText i.1.chars) i.1.chars ∧ Reads i.2.1 i.2.2
  | .nil, _, i, hi => by cases hi
  | .cons name tags rest, h, i, hi => by
    rcases List.mem_cons.mp hi with rfl | hi
    · exact ⟨readsString_escapedText h.1, reads_arr (begins_tags tags) (reads_tags tags h.2.1)⟩
    · exact reads_items rest h.2.2 i hi

/-- Likewise for clean tags of one name. -/
theorem reads_tags : ∀ tags : Siblings, tags.Clean → ∀ p ∈ tags.items, Reads p.1 p.2
  | .last tag, h, p, hp => by
    obtain rfl := List.mem_singleton.mp hp
    exact reads_item tag h
  | .cons tag next, h, p, hp => by
    rcases List.mem_cons.mp hp with rfl | hp
    · exact reads_item tag h.1
    · exact reads_tags next h.2 p hp

end

/-- Values without other characters than clean ones. -/
abbrev AllClean (v : Json) : Prop := AllChars (fun c => jsonClean c = true) v

/-- What the text of an attribute reads as, if it reads at all, is clean. -/
theorem keepsTo_attrItems {attrs : List (CStr × Variant)} :
    ∀ i ∈ attrItems attrs, KeepsTo i.2.1 AllClean := by
  intro i hi n rest v r hread
  obtain ⟨a, -, heq⟩ := List.mem_filterMap.mp hi
  obtain ⟨value, -, rfl⟩ := Option.map_eq_some_iff.mp heq
  obtain ⟨⟨s, rfl, hs⟩, hr⟩ := keepsTo_str (keepsToString_escapedText value) n rest v r hread
  exact ⟨.str hs, hr⟩

mutual

/-- What the text of a tag reads as, if it reads at all, is clean. -/
theorem keepsTo_item : ∀ tag : XmlTag, KeepsTo tag.item.1 AllClean
  | .mk name attrs body childs => by
    intro n rest v r hread
    obtain ⟨⟨ms, rfl, hall⟩, hr⟩ := keepsTo_obj
      (forall_items begins_attrItems (begins_items childs))
      (fun i _ => keepsToString_escapedText i.1)
      (forall_items keepsTo_attrItems (keepsTo_items childs)) n rest v r hread
    exact ⟨.obj (fun m hm => (hall m hm).1) fun m hm => (hall m hm).2, hr⟩

/-- Likewise for childs. -/
theorem keepsTo_items : ∀ table : ChildTable, ∀ i ∈ table.items, KeepsTo i.2.1 AllClean
  | .nil, i, hi => by cases hi
  | .cons name tags rest, i, hi => by
    rcases List.mem_cons.mp hi with rfl | hi
    · intro n rest v r hread
      obtain ⟨⟨vs, rfl, hall⟩, hr⟩ := keepsTo_arr (begins_tags tags) (keepsTo_tags tags) n rest v r
        hread
      exact ⟨.arr hall, hr⟩
    · exact keepsTo_items rest i hi

/-- Likewise for the tags of one name. -/
theorem keepsTo_tags : ∀ tags : Siblings, ∀ p ∈ tags.items, KeepsTo p.1 AllClean
  | .last tag, p, hp => by
    obtain rfl := List.mem_singleton.mp hp
    exact keepsTo_item tag
  | .cons tag next, p, hp => by
    rcases List.mem_cons.mp hp with rfl | hp
    · exact keepsTo_item tag
    · exact keepsTo_tags next p hp

end

/-! ## Faithful texts

A text is faithful when it reads as a value with the names, the attributes and the childs of the
tag.
-/

mutual

/-- The value is an object that maps the name of each attribute to its string, and the name of
each child to the array of the childs of that name, and nothing else to anything. -/
def XmlTag.Encodes : XmlTag → Json → Prop
  | .mk _ attrs _ childs, j => ∃ ms, j = .obj ms ∧ (ms.map Prod.fst).Nodup ∧
      (∀ a ∈ attrs.rows, ∀ value, variantToString a.2 = some value →
        (a.1.chars, .str value.chars) ∈ ms) ∧
      childs.Encodes ms ∧
      ∀ m ∈ ms, (∃ a ∈ attrs.rows, m.1 = a.1.chars) ∨ ∃ r ∈ childs.rows, m.1 = r.1.chars

/-- Names of childs are mapped to the childs. -/
def ChildTable.Encodes : ChildTable → List (List Char × Json) → Prop
  | .nil, _ => True
  | .cons name tags rest, ms =>
    (∃ js, (name.chars, .arr js) ∈ ms ∧ tags.Encodes js) ∧ rest.Encodes ms

/-- The values are those of the childs, one after the other. -/
def Siblings.Encodes : Siblings → List Json → Prop
  | .last tag, js => ∃ j, js = [j] ∧ tag.Encodes j
  | .cons tag next, js => ∃ j js', js = j :: js' ∧ tag.Encodes j ∧ next.Encodes js'

end

mutual

/-- No tag has an attribute and a child of the same name; names stand once in a table. -/
def XmlTag.Distinct : XmlTag → Prop
  | .mk _ attrs _ childs =>
    (attrs.rows.map Prod.fst ++ childs.rows.map Prod.fst).Nodup ∧ childs.Distinct

/-- So it is in the childs. -/
def ChildTable.Distinct : ChildTable → Prop
  | .nil => True
  | .cons _ tags rest => tags.Distinct ∧ rest.Distinct

/-- So it is in each of the tags. -/
def Siblings.Distinct : Siblings → Prop
  | .last tag => tag.Distinct
  | .cons tag next => tag.Distinct ∧ next.Distinct

end

/-! ### From the value to the tag -/

mutual

/-- A tag that is encoded by a clean value is clean. -/
theorem clean_of_encodes : ∀ (tag : XmlTag) {j : Json}, tag.Encodes j → AllClean j → tag.Clean
  | .mk name attrs body childs, j, h, hj => by
    obtain ⟨ms, rfl, -, hattrs, hchilds, -⟩ := h
    cases hj with
    | obj hk hv =>
      refine ⟨fun a ha value hvalue => ?_, clean_of_childs childs hchilds hk hv⟩
      have hmem := hattrs a ha value hvalue
      refine ⟨hk _ hmem, ?_⟩
      cases hv _ hmem with
      | str hs => exact hs

/-- Likewise for childs. -/
theorem clean_of_childs : ∀ (table : ChildTable) {ms : List (List Char × Json)}, table.Encodes ms →
    (∀ m ∈ ms, ∀ c ∈ m.1, jsonClean c = true) → (∀ m ∈ ms, AllClean m.2) → table.Clean
  | .nil, _, _, _, _ => trivial
  | .cons name tags rest, ms, h, hk, hv => by
    obtain ⟨⟨js, hmem, htags⟩, hrest⟩ := h
    refine ⟨hk _ hmem, ?_, clean_of_childs rest hrest hk hv⟩
    cases hv _ hmem with
    | arr hjs => exact clean_of_tags tags htags hjs

/-- Likewise for the tags of one name. -/
theorem clean_of_tags : ∀ (tags : Siblings) {js : List Json}, tags.Encodes js →
    (∀ j ∈ js, AllClean j) → tags.Clean
  | .last tag, js, h, hjs => by
    obtain ⟨j, rfl, htag⟩ := h
    exact clean_of_encodes tag htag (hjs j List.mem_cons_self)
  | .cons tag next, js, h, hjs => by
    obtain ⟨j, js', rfl, htag, hnext⟩ := h
    exact ⟨clean_of_encodes tag htag (hjs j List.mem_cons_self),
      clean_of_tags next hnext fun j hj => hjs j (List.mem_cons_of_mem _ hj)⟩

end

/-! ### From the tag to the value -/

/-- A table is clean when its rows are. -/
theorem ChildTable.clean_iff : ∀ table : ChildTable,
    table.Clean ↔ ∀ r ∈ table.rows, CleanStr r.1 ∧ r.2.Clean
  | .nil => ⟨fun _ _ hr => (List.not_mem_nil hr).elim, fun _ => trivial⟩
  | .cons name tags rest => by
    rw [ChildTable.Clean, ChildTable.rows, List.forall_mem_cons, rest.clean_iff, and_assoc]

/-- The member for the childs of one name. -/
def rowItem (r : CStr × Siblings) : JsonItem :=
  (r.1, '[' :: (commas (r.2.items.map Prod.fst) ++ [']']), .arr (r.2.items.map Prod.snd))

/-- The items of a table, row by row. -/
theorem ChildTable.items_eq : ∀ table : ChildTable, table.items = table.rows.map rowItem
  | .nil => rfl
  | .cons name tags rest => by
    rw [ChildTable.items, ChildTable.rows, List.map_cons, rest.items_eq, rowItem]

mutual

/-- The order of a visit changes no character. -/
theorem clean_visited [HashOrder] : ∀ tag : XmlTag, tag.Clean → tag.visited.Clean
  | .mk name attrs body childs, h => by
    refine ⟨fun a ha => h.1 a ((HashOrder.perm _).mem_iff.mp ha), ?_⟩
    rw [ChildTable.clean_iff, ChildTable.rows_ofRows]
    exact fun r hr => clean_visitedRows childs h.2 r ((HashOrder.perm _).mem_iff.mp hr)

/-- Likewise for the rows of a table. -/
theorem clean_visitedRows [HashOrder] : ∀ table : ChildTable, table.Clean →
    ∀ r ∈ table.visitedRows, CleanStr r.1 ∧ r.2.Clean
  | .nil, _, r, hr => by cases hr
  | .cons name tags rest, h, r, hr => by
    rcases List.mem_cons.mp hr with rfl | hr
    · exact ⟨h.1, clean_visitedTags tags h.2.1⟩
    · exact clean_visitedRows rest h.2.2 r hr

/-- Likewise for the tags of one name. -/
theorem clean_visitedTags [HashOrder] : ∀ tags : Siblings, tags.Clean → tags.visited.Clean
  | .last tag, h => clean_visited tag h
  | .cons tag next, h => ⟨clean_visited tag h.1, clean_visitedTags next h.2⟩

end

/-- Names of attributes that have a string. -/
theorem names_attrItems (attrs : List (CStr × Variant)) :
    ((attrItems attrs).map Prod.fst).Sublist (attrs.map Prod.fst) :=
  sublist_strings (fun n value => (n, '"' :: escapedText value.chars, Json.str value.chars)) id
    (fun _ _ => rfl) attrs

/-- The members of the object for a visited tag. -/
def visitedMembers [HashOrder] (attrs : Ledger CStr Variant) (childs : ChildTable) :
    List JsonItem :=
  attrItems (HashOrder.order attrs.rows) ++ (HashOrder.order childs.visitedRows).map rowItem

/-- The value of a visited tag has the members of the attributes and then those of the childs. -/
theorem item_visited [HashOrder] (name : CStr) (attrs : Ledger CStr Variant) (body : Option Variant)
    (childs : ChildTable) :
    (XmlTag.mk name attrs body childs).visited.item.2 =
      .obj ((visitedMembers attrs childs).map fun i => (i.1.chars, i.2.2)) := by
  rw [XmlTag.visited, XmlTag.item, ChildTable.items_eq, ChildTable.rows_ofRows, visitedMembers]
  rfl

/-- No name stands twice in the object. -/
theorem nodup_visitedMembers [HashOrder] {attrs : Ledger CStr Variant} {childs : ChildTable}
    (h : (attrs.rows.map Prod.fst ++ childs.rows.map Prod.fst).Nodup) :
    ((visitedMembers attrs childs).map Prod.fst).Nodup := by
  have hrows : childs.visitedRows.map Prod.fst = childs.rows.map Prod.fst := by
    rw [ChildTable.visitedRows_eq, List.map_map]
    rfl
  have hperm : ((HashOrder.order attrs.rows).map Prod.fst ++
      (HashOrder.order childs.visitedRows).map Prod.fst).Perm
      (attrs.rows.map Prod.fst ++ childs.rows.map Prod.fst) := by
    rw [← hrows]
    exact ((HashOrder.perm _).map _).append ((HashOrder.perm _).map _)
  rw [visitedMembers, List.map_append, List.map_map]
  exact ((names_attrItems _).append_right _).nodup (hperm.nodup_iff.mpr h)

mutual

/-- The value written for a tag is an object with its attributes and childs. -/
theorem encodes_visited [HashOrder] : ∀ tag : XmlTag, tag.Distinct →
    tag.Encodes tag.visited.item.2
  | .mk name attrs body childs, h => by
    rw [item_visited]
    refine ⟨_, rfl, ?_, ?_, ?_, ?_⟩
    · rw [List.map_map]
      have hnodup := (nodup_visitedMembers h.1).map CStr.chars_injective
      rwa [List.map_map] at hnodup
    · intro a ha value hvalue
      refine List.mem_map.mpr ⟨(a.1, '"' :: escapedText value.chars, .str value.chars), ?_, rfl⟩
      refine List.mem_append_left _ (List.mem_filterMap.mpr
        ⟨a, (HashOrder.perm _).mem_iff.mpr ha, ?_⟩)
      rw [hvalue, Option.map_some]
    · apply encodes_visitedRows childs h.2
      intro r hr
      exact List.mem_map.mpr ⟨rowItem r, List.mem_append_right _
        (List.mem_map_of_mem ((HashOrder.perm _).mem_iff.mpr hr)), rfl⟩
    · intro m hm
      obtain ⟨i, hi, rfl⟩ := List.mem_map.mp hm
      rcases List.mem_append.mp hi with hi | hi
      · obtain ⟨a, ha, heq⟩ := List.mem_filterMap.mp hi
        obtain ⟨value, -, rfl⟩ := Option.map_eq_some_iff.mp heq
        exact Or.inl ⟨a, (HashOrder.perm _).mem_iff.mp ha, rfl⟩
      · obtain ⟨r, hr, rfl⟩ := List.mem_map.mp hi
        rw [(HashOrder.perm _).mem_iff, ChildTable.visitedRows_eq] at hr
        obtain ⟨r', hr', rfl⟩ := List.mem_map.mp hr
        exact Or.inr ⟨r', hr', rfl⟩

/-- Likewise for the rows of a table, whose members are among those of the object. -/
theorem encodes_visitedRows [HashOrder] : ∀ (table : ChildTable), table.Distinct →
    ∀ {ms : List (List Char × Json)},
      (∀ r ∈ table.visitedRows, (r.1.chars, .arr (r.2.items.map Prod.snd)) ∈ ms) → table.Encodes ms
  | .nil, _, _, _ => trivial
  | .cons _ tags rest, h, _, hms =>
    ⟨⟨_, hms _ List.mem_cons_self, encodes_visitedTags tags h.1⟩,
      encodes_visitedRows rest h.2 fun r hr => hms r (List.mem_cons_of_mem _ hr)⟩

/-- Likewise for the tags of one name. -/
theorem encodes_visitedTags [HashOrder] : ∀ tags : Siblings, tags.Distinct →
    tags.Encodes (tags.visited.items.map Prod.snd)
  | .last tag, h => ⟨_, rfl, encodes_visited tag h⟩
  | .cons tag next, h => ⟨_, _, rfl, encodes_visited tag h.1, encodes_visitedTags next h.2⟩

end

/-! ### The text -/

/-- What is written with other characters does not read as the tag. -/
theorem clean_of_parse [HashOrder] {tag : XmlTag} {j : Json}
    (hparse : parse (xmlTagToJson tag) = some j) (hj : tag.Encodes j) : tag.Clean := by
  rw [xmlTagToJson, addTag_eq, List.nil_append] at hparse
  exact clean_of_encodes tag hj (keepsTo_parse (begins_item _) (keepsTo_item _) hparse)

/-- The text reads as an object with the attributes and childs of the tag exactly when all names
and values are clean. -/
theorem json_faithful [HashOrder] (tag : XmlTag) (h : tag.Distinct) :
    (∃ j, parse (xmlTagToJson tag) = some j ∧ tag.Encodes j) ↔ tag.Clean := by
  constructor
  · rintro ⟨j, hparse, hj⟩
    exact clean_of_parse hparse hj
  · intro hclean
    refine ⟨_, ?_, encodes_visited tag h⟩
    rw [xmlTagToJson, addTag_eq, List.nil_append]
    exact parse_of_reads (begins_item _) (reads_item _ (clean_visited tag hclean))

/-- A tag with one attribute. -/
def attrTag (value : CStr) (childs : ChildTable) : XmlTag :=
  .mk ⟨"t".toList, by decide⟩
    ⟨[(⟨"a".toList, by decide⟩, .string (some value))], List.nodup_singleton _⟩ none childs

/-- A tag with an attribute of two lines, and a child `b` with an attribute. -/
theorem json_faithful_child :
    letI := HashOrder.plain
    let tag := attrTag ⟨"1\n2".toList, by decide⟩
      (.cons ⟨"b".toList, by decide⟩ (.last (attrTag ⟨"\"".toList, by decide⟩ .nil)) .nil)
    String.ofList (xmlTagToJson tag) = "\x7b\"a\":\"1\\n2\",\"b\":[\x7b\"a\":\"\\\"\"\x7d]\x7d" ∧
      ∃ j, parse (xmlTagToJson tag) = some j ∧ tag.Encodes j := by
  let _ := HashOrder.plain
  refine ⟨by decide, (json_faithful _ ?_).mpr ?_⟩
  · exact ⟨by decide, ⟨by decide, trivial⟩, trivial⟩
  · refine ⟨?_, List.all_eq_true.mp (by decide), ⟨?_, trivial⟩, trivial⟩
    all_goals
      intro a ha value hvalue
      obtain rfl := List.mem_singleton.mp ha
      obtain rfl := Option.some.inj hvalue
      exact ⟨List.all_eq_true.mp (by decide), List.all_eq_true.mp (by decide)⟩

/-- The code of a control character has one digit. -/
theorem not_faithful_control :
    letI := HashOrder.plain
    let tag := attrTag ⟨['\x01'], by decide⟩ .nil
    tag.Distinct ∧ String.ofList (xmlTagToJson tag) = "\x7b\"a\":\"\\u1\"\x7d" ∧
      ¬ ∃ j, parse (xmlTagToJson tag) = some j ∧ tag.Encodes j := by
  let _ := HashOrder.plain
  refine ⟨⟨by decide, trivial⟩, by decide, ?_⟩
  rintro ⟨j, hparse, hj⟩
  have hclean := (clean_of_parse hparse hj).1 _ List.mem_cons_self _ rfl
  exact absurd (hclean.2 '\x01' List.mem_cons_self) (by decide)

end Mbb
