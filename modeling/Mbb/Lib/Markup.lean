import Mathlib.Data.List.Basic

/-!
# Markup

Documents of elements with attributes and text, the text that is written for them, and what a
parser reports of it: the start of each element with its attributes, runs of text, and the end of
each element, one after the other. How text is escaped and which names there are is open.
-/

namespace Markup

mutual

/-- An element. -/
inductive Element : Type where
  /-- `<name attrs/>` -/
  | leaf (name : List Char) (attrs : List (List Char × List Char))
  /-- `<name attrs>text items</name>` -/
  | node (name : List Char) (attrs : List (List Char × List Char)) (text : List Char)
    (items : Items)

/-- The elements in an element, each with the text behind it. -/
inductive Items : Type where
  /-- no more -/
  | nil
  /-- an element, the text behind it, and the others -/
  | cons (element : Element) (text : List Char) (items : Items)

end

namespace Items

/-- The elements one after the other. -/
def elements : Items → List Element
  | .nil => []
  | .cons element _ items => element :: items.elements

end Items

namespace Element

/-- The name. -/
def name : Element → List Char
  | .leaf name _ => name
  | .node name _ _ _ => name

/-- The attributes. -/
def attrs : Element → List (List Char × List Char)
  | .leaf _ attrs => attrs
  | .node _ attrs _ _ => attrs

/-- The elements in the element. -/
def childs : Element → List Element
  | .leaf _ _ => []
  | .node _ _ _ items => items.elements

end Element

/-- What a parser reports. -/
inductive Event : Type where
  /-- An element begins. -/
  | start (name : List Char) (attrs : List (List Char × List Char))
  /-- A run of text. -/
  | text (s : List Char)
  /-- An element ends. -/
  | finish (name : List Char)

namespace Event

/-- All but runs of no text. -/
def isProper : Event → Bool
  | .text s => !s.isEmpty
  | _ => true

end Event

/-- A run of text is reported unless there is none. -/
def textEvents (s : List Char) : List Event := [Event.text s].filter Event.isProper

mutual

/-- What is reported of an element. -/
def Element.events : Element → List Event
  | .leaf name attrs => [.start name attrs, .finish name]
  | .node name attrs text items =>
    .start name attrs :: (textEvents text ++ items.events) ++ [.finish name]

/-- What is reported of the elements in an element. -/
def Items.events : Items → List Event
  | .nil => []
  | .cons element text items => element.events ++ textEvents text ++ items.events

end

/-! ### Line ends

A parser may give the values of attributes and the runs of text otherwise than they are written: a
carriage return with the newline behind it counts as one character, and in attributes each of the
characters that make space is a blank.
-/

section

variable (attr text : List Char → List Char)

/-- Attributes with their values changed. -/
def mapAttrs (attrs : List (List Char × List Char)) : List (List Char × List Char) :=
  attrs.map fun a => (a.1, attr a.2)

mutual

/-- An element with the values of attributes and the text changed. -/
def Element.map : Element → Element
  | .leaf name attrs => .leaf name (mapAttrs attr attrs)
  | .node name attrs s items => .node name (mapAttrs attr attrs) (text s) items.map

/-- Elements in an element, with the values of attributes and the text changed. -/
def Items.map : Items → Items
  | .nil => .nil
  | .cons element s items => .cons element.map (text s) items.map

end

/-- What is reported, with the values of attributes and the text changed. -/
def Event.map : Event → Event
  | .start name attrs => .start name (mapAttrs attr attrs)
  | .text s => .text (text s)
  | .finish name => .finish name

end

theorem mapAttrs_id (attrs : List (List Char × List Char)) : mapAttrs id attrs = attrs :=
  List.map_id attrs

mutual

theorem Element.map_id : ∀ e : Element, e.map id id = e
  | .leaf name attrs => by rw [Element.map, mapAttrs_id]
  | .node name attrs s items => by rw [Element.map, mapAttrs_id, Items.map_id items, id]

theorem Items.map_id : ∀ items : Items, items.map id id = items
  | .nil => rfl
  | .cons element s items => by rw [Items.map, Element.map_id element, Items.map_id items, id]

end

section

variable {attr text : List Char → List Char} (h : ∀ s, (text s).isEmpty = s.isEmpty)
include h

theorem isProper_map (event : Event) : (event.map attr text).isProper = event.isProper := by
  cases event with
  | start name attrs => rfl
  | text s => rw [Event.map, Event.isProper, Event.isProper, h]
  | finish name => rfl

theorem filter_map_proper (events : List Event) :
    (events.map (Event.map attr text)).filter Event.isProper =
      (events.filter Event.isProper).map (Event.map attr text) := by
  rw [List.filter_map]
  exact congrArg _ (List.filter_congr fun event _ => isProper_map h event)

theorem textEvents_map (s : List Char) :
    (textEvents s).map (Event.map attr text) = textEvents (text s) :=
  (filter_map_proper h [.text s]).symm

mutual

/-- The events of a changed element are those of the element, changed. -/
theorem Element.events_map : ∀ e : Element,
    e.events.map (Event.map attr text) = (e.map attr text).events
  | .leaf name attrs => rfl
  | .node name attrs s items => by
    rw [Element.events, Element.map, Element.events, List.map_append, List.map_cons,
      List.map_append, textEvents_map h, Items.events_map items]
    rfl

theorem Items.events_map : ∀ items : Items,
    items.events.map (Event.map attr text) = (items.map attr text).events
  | .nil => rfl
  | .cons element s items => by
    rw [Items.events, Items.map, Items.events, List.map_append, List.map_append,
      textEvents_map h, Element.events_map element, Items.events_map items]

end

end

/-- Each character as another, a carriage return with a newline behind it being one with it. -/
def foldReturns (f : Char → Char) : List Char → List Char
  | [] => []
  | c :: s => if c = '\r' ∧ s.head? = some '\n' then foldReturns f s else f c :: foldReturns f s

theorem isEmpty_foldReturns (f : Char → Char) (s : List Char) :
    (foldReturns f s).isEmpty = s.isEmpty := by
  induction s with
  | nil => rfl
  | cons c s ih =>
    rw [foldReturns]
    split
    · next hreturn =>
      obtain ⟨t, rfl⟩ := List.head?_eq_some_iff.mp hreturn.2
      exact ih
    · rfl

theorem mem_foldReturns {f : Char → Char} {s : List Char} {d : Char} (hd : d ∈ foldReturns f s) :
    ∃ c ∈ s, f c = d := by
  induction s with
  | nil => cases hd
  | cons c s ih =>
    rw [foldReturns] at hd
    have hrest : d ∈ foldReturns f s → ∃ c' ∈ c :: s, f c' = d := fun h =>
      (ih h).imp fun c' hc' => ⟨List.mem_cons_of_mem c hc'.1, hc'.2⟩
    split at hd
    · exact hrest hd
    · rcases List.mem_cons.mp hd with rfl | hd
      · exact ⟨c, List.mem_cons_self, rfl⟩
      · exact hrest hd

/-- Text without carriage returns, of characters that stay, stays. -/
theorem foldReturns_eq_self {f : Char → Char} {s : List Char}
    (h : ∀ c ∈ s, c ≠ '\r' ∧ f c = c) : foldReturns f s = s := by
  induction s with
  | nil => rfl
  | cons c s ih =>
    obtain ⟨hc, hs⟩ := List.forall_mem_cons.mp h
    rw [foldReturns, if_neg fun hreturn => hc.1 hreturn.1, hc.2, ih hs]

/-- What is made of the value of an attribute. -/
def attrBlanks : List Char → List Char :=
  foldReturns fun c => if c = '\t' ∨ c = '\n' ∨ c = '\r' then ' ' else c

/-- What is made of a run of text. -/
def textLines : List Char → List Char := foldReturns fun c => if c = '\r' then '\n' else c

section

variable (escape : List Char → List Char)

/-- The text of attributes. -/
def attrsText (attrs : List (List Char × List Char)) : List Char :=
  attrs.flatMap fun a => ' ' :: (a.1 ++ ['=', '\''] ++ escape a.2 ++ ['\''])

mutual

/-- The text of an element. -/
def Element.text : Element → List Char
  | .leaf name attrs => '<' :: name ++ attrsText escape attrs ++ ['/', '>']
  | .node name attrs text items =>
    '<' :: name ++ attrsText escape attrs ++ ['>'] ++ escape text ++ items.text ++
      '<' :: '/' :: name ++ ['>']

/-- The text of the elements in an element. -/
def Items.text : Items → List Char
  | .nil => []
  | .cons element text items => element.text ++ escape text ++ items.text

end

end

section

variable (valid : List Char → Prop)

/-- Names of attributes are valid, and no two are the same. -/
def ValidAttrs (attrs : List (List Char × List Char)) : Prop :=
  (∀ a ∈ attrs, valid a.1) ∧ (attrs.map Prod.fst).Nodup

mutual

/-- All names in an element are valid. -/
def Element.Valid : Element → Prop
  | .leaf name attrs => valid name ∧ ValidAttrs valid attrs
  | .node name attrs _ items => valid name ∧ ValidAttrs valid attrs ∧ items.Valid

/-- All names in the elements are valid. -/
def Items.Valid : Items → Prop
  | .nil => True
  | .cons element _ items => element.Valid ∧ items.Valid

end

end

/-! ### A reader -/

/-- The signs that are escaped, and their escapes. -/
def escapes : List (Char × List Char) :=
  [('&', "&amp;".toList), ('<', "&lt;".toList), ('>', "&gt;".toList), ('\'', "&apos;".toList),
    ('"', "&quot;".toList)]

/-- A character, escaped. -/
def escapeChar (c : Char) : List Char := (escapes.lookup c).getD [c]

/-- The text, with signs of markup escaped. -/
def escapeText (s : List Char) : List Char := s.flatMap escapeChar

/-- The text, with escapes undone. -/
def unescape : List Char → List Char
  | '&' :: 'a' :: 'm' :: 'p' :: ';' :: cs => '&' :: unescape cs
  | '&' :: 'l' :: 't' :: ';' :: cs => '<' :: unescape cs
  | '&' :: 'g' :: 't' :: ';' :: cs => '>' :: unescape cs
  | '&' :: 'a' :: 'p' :: 'o' :: 's' :: ';' :: cs => '\'' :: unescape cs
  | '&' :: 'q' :: 'u' :: 'o' :: 't' :: ';' :: cs => '"' :: unescape cs
  | c :: cs => c :: unescape cs
  | [] => []

theorem unescape_other {c : Char} (hc : c ≠ '&') (cs : List Char) :
    unescape (c :: cs) = c :: unescape cs := by
  rw [unescape] <;> simp [hc]

theorem unescape_escapeChar (c : Char) (cs : List Char) :
    unescape (escapeChar c ++ cs) = c :: unescape cs := by
  cases hl : escapes.lookup c with
  | none =>
    have hc : c ≠ '&' := by
      rintro rfl
      cases hl
    rw [escapeChar, hl]
    exact unescape_other hc cs
  | some e =>
    obtain ⟨l₁, l₂, heq, -⟩ := List.lookup_eq_some_iff.mp hl
    have hmem : (c, e) ∈ escapes := by rw [heq]; simp
    rw [escapeChar, hl, Option.getD_some]
    simp only [escapes, List.mem_cons, Prod.mk.injEq, List.not_mem_nil, or_false] at hmem
    rcases hmem with ⟨rfl, rfl⟩ | ⟨rfl, rfl⟩ | ⟨rfl, rfl⟩ | ⟨rfl, rfl⟩ | ⟨rfl, rfl⟩ <;>
      simp [unescape]

theorem unescape_escapeText (s : List Char) : unescape (escapeText s) = s := by
  induction s with
  | nil => rfl
  | cons c s ih =>
    have hcons : escapeText (c :: s) = escapeChar c ++ escapeText s := List.flatMap_cons
    rw [hcons, unescape_escapeChar, ih]

/-- No sign of markup is left. -/
theorem mem_escapeText {c : Char} {s : List Char} (h : c ∈ escapeText s) :
    c ≠ '<' ∧ c ≠ '\'' := by
  obtain ⟨d, -, hc⟩ := List.mem_flatMap.mp h
  cases hl : escapes.lookup d with
  | none =>
    rw [escapeChar, hl] at hc
    obtain rfl := List.mem_singleton.mp hc
    constructor <;>
    · rintro rfl
      cases hl
  | some e =>
    have hall : (escapes.all fun p => p.2.all fun c => c != '<' && c != '\'') = true := by decide
    obtain ⟨l₁, l₂, heq, -⟩ := List.lookup_eq_some_iff.mp hl
    rw [escapeChar, hl] at hc
    have hchars := List.all_eq_true.mp hall (d, e) (by rw [heq]; simp)
    simpa using List.all_eq_true.mp hchars c hc

/-- Where the reader is. -/
inductive Mode : Type where
  /-- in a text -/
  | text (acc : List Char)
  /-- behind `<` -/
  | angle
  /-- in the name of an element -/
  | name (acc : List Char)
  /-- behind an attribute -/
  | behind (name : List Char) (attrs : List (List Char × List Char))
  /-- in the name of an attribute -/
  | key (name : List Char) (attrs : List (List Char × List Char)) (acc : List Char)
  /-- behind `=` -/
  | equals (name : List Char) (attrs : List (List Char × List Char)) (key : List Char)
  /-- in the value of an attribute -/
  | value (name : List Char) (attrs : List (List Char × List Char)) (key acc : List Char)
  /-- behind `/` in an element -/
  | slash (name : List Char) (attrs : List (List Char × List Char))
  /-- in the name behind `</` -/
  | close (acc : List Char)
  /-- not the text of a document -/
  | failed

/-- Characters of names. -/
def isNameChar (c : Char) : Bool := !(['<', '>', '/', '=', '\'', ' '].contains c)

/-- Names: at least one character. -/
def PlainName (name : List Char) : Prop := name ≠ [] ∧ ∀ c ∈ name, isNameChar c = true

/-- The next character behind a name or an attribute. -/
def nextBehind (name : List Char) (attrs : List (List Char × List Char)) (c : Char) :
    Mode × List Event :=
  if c = ' ' then (.key name attrs [], [])
  else if c = '/' then (.slash name attrs, [])
  else if c = '>' then (.text [], [.start name attrs])
  else (.failed, [])

/-- The next character. -/
def next : Mode → Char → Mode × List Event
  | .text acc, c => if c = '<' then (.angle, [.text (unescape acc)]) else (.text (acc ++ [c]), [])
  | .angle, c =>
    if c = '/' then (.close [], []) else if isNameChar c then (.name [c], []) else (.failed, [])
  | .name acc, c => if isNameChar c then (.name (acc ++ [c]), []) else nextBehind acc [] c
  | .behind name attrs, c => nextBehind name attrs c
  | .key name attrs acc, c =>
    if isNameChar c then (.key name attrs (acc ++ [c]), [])
    else if c = '=' then (.equals name attrs acc, []) else (.failed, [])
  | .equals name attrs key, c =>
    if c = '\'' then (.value name attrs key [], []) else (.failed, [])
  | .value name attrs key acc, c =>
    if c = '\'' then (.behind name (attrs ++ [(key, unescape acc)]), [])
    else (.value name attrs key (acc ++ [c]), [])
  | .slash name attrs, c =>
    if c = '>' then (.text [], [.start name attrs, .finish name]) else (.failed, [])
  | .close acc, c =>
    if isNameChar c then (.close (acc ++ [c]), [])
    else if c = '>' then (.text [], [.finish acc]) else (.failed, [])
  | .failed, _ => (.failed, [])

/-- What is reported of the text. -/
def readFrom : Mode → List Char → List Event
  | _, [] => []
  | m, c :: cs => (next m c).2 ++ readFrom (next m c).1 cs

/-- What is reported of the text of a document. -/
def read (text : List Char) : List Event := readFrom (.text []) text

/-- Characters that are taken one by one. -/
theorem readFrom_collect (f : List Char → Mode) {cs : List Char}
    (h : ∀ acc, ∀ c ∈ cs, next (f acc) c = (f (acc ++ [c]), [])) (acc rest : List Char) :
    readFrom (f acc) (cs ++ rest) = readFrom (f (acc ++ cs)) rest := by
  induction cs generalizing acc with
  | nil => rw [List.append_nil, List.nil_append]
  | cons c cs ih =>
    rw [List.cons_append, readFrom, h acc c List.mem_cons_self, List.nil_append,
      ih (fun acc c hc => h acc c (List.mem_cons_of_mem _ hc)), List.append_assoc,
      List.singleton_append]

theorem readFrom_text (s rest : List Char) :
    readFrom (.text []) (escapeText s ++ rest) = readFrom (.text (escapeText s)) rest := by
  apply readFrom_collect
  intro acc c hc
  rw [next, if_neg (mem_escapeText hc).1]

theorem readFrom_attr {key : List Char} (hkey : PlainName key) (name : List Char)
    (attrs : List (List Char × List Char)) (value rest : List Char) :
    readFrom (.key name attrs []) (key ++ ['=', '\''] ++ escapeText value ++ ['\''] ++ rest) =
      readFrom (.behind name (attrs ++ [(key, value)])) rest := by
  have hk := readFrom_collect (.key name attrs)
    (fun acc (c : Char) (hc : c ∈ key) => by rw [next, if_pos (hkey.2 c hc)]) []
    ('=' :: '\'' :: (escapeText value ++ ('\'' :: rest)))
  have hv := readFrom_collect (.value name attrs key)
    (fun acc (c : Char) (hc : c ∈ escapeText value) => by rw [next, if_neg (mem_escapeText hc).2])
    [] ('\'' :: rest)
  simp only [List.append_assoc, List.cons_append, List.nil_append] at hk hv ⊢
  rw [hk, readFrom, readFrom]
  change readFrom (.value name attrs key []) (escapeText value ++ '\'' :: rest) = _
  rw [hv, readFrom]
  change readFrom (.behind name (attrs ++ [(key, unescape (escapeText value))])) rest = _
  rw [unescape_escapeText]

theorem readFrom_attrs {attrs : List (List Char × List Char)} (h : ValidAttrs PlainName attrs)
    (name : List Char) (acc : List (List Char × List Char)) (rest : List Char) :
    readFrom (.behind name acc) (attrsText escapeText attrs ++ rest) =
      readFrom (.behind name (acc ++ attrs)) rest := by
  induction attrs generalizing acc with
  | nil => rw [List.append_nil]; rfl
  | cons a attrs ih =>
    have hcons : attrsText escapeText (a :: attrs) ++ rest =
        ' ' :: (a.1 ++ ['=', '\''] ++ escapeText a.2 ++ ['\''] ++
          (attrsText escapeText attrs ++ rest)) := by
      simp [attrsText]
    have hrest : ValidAttrs PlainName attrs :=
      ⟨fun b hb => h.1 b (List.mem_cons_of_mem _ hb), (List.nodup_cons.mp h.2).2⟩
    rw [hcons, readFrom]
    change readFrom (.key name acc []) _ = _
    rw [readFrom_attr (h.1 a List.mem_cons_self), ih hrest, List.append_assoc]
    rfl

/-- The name and the attributes of an element, up to `/` or `>`. -/
theorem readFrom_open {name : List Char} (hname : PlainName name)
    {attrs : List (List Char × List Char)} (h : ValidAttrs PlainName attrs) {c : Char}
    (hc : isNameChar c = false) (rest : List Char) :
    readFrom .angle (name ++ attrsText escapeText attrs ++ c :: rest) =
      readFrom (.behind name attrs) (c :: rest) := by
  -- behind the name it is as behind an attribute
  have hend : ∀ (acc : List Char) {d : Char} (cs : List Char), isNameChar d = false →
      readFrom (.name acc) (d :: cs) = readFrom (.behind acc []) (d :: cs) := by
    intro acc d cs hd
    rw [readFrom, readFrom, next, next, hd]
    rfl
  have hattrs : readFrom (.name name) (attrsText escapeText attrs ++ c :: rest) =
      readFrom (.behind name []) (attrsText escapeText attrs ++ c :: rest) := by
    cases attrs with
    | nil => exact hend name rest hc
    | cons a attrs => exact hend name _ (d := ' ') rfl
  obtain ⟨hne, hchars⟩ := hname
  cases name with
  | nil => exact absurd rfl hne
  | cons d ds =>
    have hd := hchars d List.mem_cons_self
    have hslash : d ≠ '/' := by
      rintro rfl
      cases hd
    have hds := readFrom_collect .name
      (fun acc (c : Char) (hc : c ∈ ds) => by
        rw [next, if_pos (hchars c (List.mem_cons_of_mem _ hc))])
      [d] (attrsText escapeText attrs ++ c :: rest)
    rw [List.append_assoc, List.cons_append, readFrom, next, if_neg hslash, if_pos hd,
      List.nil_append, hds, List.singleton_append, hattrs, readFrom_attrs h, List.nil_append]

theorem readFrom_close {name : List Char} (hname : PlainName name) (rest : List Char) :
    readFrom .angle ('/' :: name ++ ['>'] ++ rest) = .finish name :: readFrom (.text []) rest := by
  have hcollect := readFrom_collect .close
    (fun acc (c : Char) (hc : c ∈ name) => by rw [next, if_pos (hname.2 c hc)]) [] ('>' :: rest)
  rw [List.cons_append, List.cons_append, readFrom]
  change readFrom (.close []) _ = _
  rw [List.append_assoc, List.singleton_append, hcollect, readFrom]
  rfl

/-- Behind a text. -/
theorem readFrom_angle (s rest : List Char) :
    (readFrom (.text (escapeText s)) ('<' :: rest)).filter Event.isProper =
      textEvents s ++ (readFrom .angle rest).filter Event.isProper := by
  rw [readFrom]
  change ([Event.text (unescape (escapeText s))] ++ readFrom .angle rest).filter _ = _
  rw [unescape_escapeText, List.filter_append, textEvents]

mutual

theorem readFrom_element : ∀ (e : Element), e.Valid PlainName → ∀ s rest : List Char,
    (readFrom (.text (escapeText s)) (e.text escapeText ++ rest)).filter Event.isProper =
      textEvents s ++ e.events ++ (readFrom (.text []) rest).filter Event.isProper
  | .leaf name attrs, h, s, rest => by
    have hopen := readFrom_open h.1 h.2 (c := '/') rfl ('>' :: rest)
    have hevents : readFrom (.behind name attrs) ('/' :: '>' :: rest) =
        .start name attrs :: .finish name :: readFrom (.text []) rest := rfl
    simp only [Element.text, Element.events, List.append_assoc, List.cons_append,
      List.nil_append] at hopen ⊢
    rw [readFrom_angle, hopen, hevents]
    rfl
  | .node name attrs text items, h, s, rest => by
    have hopen := readFrom_open h.1 h.2.1 (c := '>') rfl
      (escapeText text ++ (items.text escapeText ++ '<' :: ('/' :: name ++ ['>'] ++ rest)))
    have hevents : ∀ cs, readFrom (.behind name attrs) ('>' :: cs) =
        .start name attrs :: readFrom (.text []) cs := fun cs => rfl
    have hitems := readFrom_items items h.2.2 text ('/' :: name ++ ['>'] ++ rest)
    rw [readFrom_close h.1] at hitems
    simp only [Element.text, Element.events, List.append_assoc, List.cons_append,
      List.nil_append] at hopen hitems ⊢
    rw [readFrom_angle, hopen, hevents, readFrom_text, List.filter_cons_of_pos rfl, hitems,
      List.filter_cons_of_pos rfl]

theorem readFrom_items : ∀ (items : Items), items.Valid PlainName → ∀ s rest : List Char,
    (readFrom (.text (escapeText s)) (items.text escapeText ++ '<' :: rest)).filter
        Event.isProper =
      textEvents s ++ items.events ++ (readFrom .angle rest).filter Event.isProper
  | .nil, _, s, rest => by
    rw [Items.text, Items.events, List.append_nil, List.nil_append, readFrom_angle]
  | .cons e text items, h, s, rest => by
    have he := readFrom_element e h.1 s
      (escapeText text ++ (items.text escapeText ++ '<' :: rest))
    rw [readFrom_text, readFrom_items items h.2] at he
    simp only [Items.text, Items.events, List.append_assoc] at he ⊢
    exact he

end

/-- The reader reports what is in a document. -/
theorem read_text {e : Element} (h : e.Valid PlainName) :
    (read (e.text escapeText)).filter Event.isProper = e.events := by
  have he := readFrom_element e h [] []
  rw [List.append_nil] at he
  exact he.trans (List.append_nil _)

end Markup
