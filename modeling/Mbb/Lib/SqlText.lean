import Mathlib.Data.Char
import Mathlib.Tactic.Common

/-!
# Reading SQL

The tokens of a statement: words and numbers, strings in quotes, and other characters one by one.
In a string a quote is written twice. A piece of text has its own tokens if it is read in a place
where a token can begin, and nothing behind it goes on with its last token.
-/

namespace Mbb

/-- Tokens. -/
inductive SqlToken : Type where
  /-- a word or a number -/
  | word (w : List Char)
  /-- a string -/
  | text (t : List Char)
  /-- any other character -/
  | sym (c : Char)
  /-- a quote right behind a word, or a string without end -/
  | bad
  deriving DecidableEq

/-- What has been read of a token. -/
inductive SqlLex : Type where
  /-- nothing -/
  | start
  /-- a word -/
  | word (w : List Char)
  /-- a string -/
  | text (t : List Char)
  /-- a string and a quote, which may be its end -/
  | quote (t : List Char)

/-- Characters of words and numbers, with the sign. -/
def isSqlWord (c : Char) : Bool :=
  c.isAlphanum || c == '_' || c == '.' || c == '-' || decide (128 ≤ c.toNat)

/-- Space. -/
def isSqlSpace (c : Char) : Bool := c == ' ' || c == '\n' || c == '\t' || c == '\r'

/-- A token may begin with the character. -/
def lexStart (c : Char) : SqlLex × List SqlToken :=
  if c = '\'' then (.text [], [])
  else if isSqlWord c then (.word [c], [])
  else if isSqlSpace c then (.start, [])
  else (.start, [.sym c])

/-- One character. -/
def lexStep : SqlLex → Char → SqlLex × List SqlToken
  | .start, c => lexStart c
  | .word w, c =>
    if isSqlWord c then (.word (w ++ [c]), [])
    else if c = '\'' then (.text [], [.word w, .bad])
    else ((lexStart c).1, .word w :: (lexStart c).2)
  | .text t, c => if c = '\'' then (.quote t, []) else (.text (t ++ [c]), [])
  | .quote t, c =>
    if c = '\'' then (.text (t ++ [c]), []) else ((lexStart c).1, .text t :: (lexStart c).2)

/-- The end of the statement. -/
def lexEnd : SqlLex → List SqlToken
  | .start => []
  | .word w => [.word w]
  | .text _ => [.bad]
  | .quote t => [.text t]

/-- The tokens of what is left. -/
def sqlLex : SqlLex → List Char → List SqlToken
  | st, [] => lexEnd st
  | st, c :: rest => (lexStep st c).2 ++ sqlLex (lexStep st c).1 rest

/-- The tokens of a statement. -/
def sqlTokens (s : List Char) : List SqlToken := sqlLex .start s

/-- Nothing that goes on with a token, if anything. -/
def SqlBreak (rest : List Char) : Prop := ∀ c ∈ rest.head?, isSqlWord c = false ∧ c ≠ '\''

/-- The text has these tokens, whatever is behind it. -/
def SqlFree (s : List Char) (ts : List SqlToken) : Prop :=
  ∀ rest, sqlTokens (s ++ rest) = ts ++ sqlTokens rest

/-- The text has these tokens if nothing goes on with the last of them. -/
def SqlReads (s : List Char) (ts : List SqlToken) : Prop :=
  ∀ rest, SqlBreak rest → sqlTokens (s ++ rest) = ts ++ sqlTokens rest

variable {s s' : List Char} {ts ts' : List SqlToken}

theorem SqlFree.reads (h : SqlFree s ts) : SqlReads s ts := fun rest _ => h rest

theorem SqlFree.append (h : SqlFree s ts) (h' : SqlFree s' ts') :
    SqlFree (s ++ s') (ts ++ ts') := by
  intro rest
  rw [List.append_assoc, h, h', List.append_assoc]

theorem SqlFree.appendReads (h : SqlFree s ts) (h' : SqlReads s' ts') :
    SqlReads (s ++ s') (ts ++ ts') := by
  intro rest hrest
  rw [List.append_assoc, h, h' rest hrest, List.append_assoc]

theorem SqlReads.append (h : SqlReads s ts) (hbreak : ∀ rest, SqlBreak rest → SqlBreak (s' ++ rest))
    (h' : SqlReads s' ts') : SqlReads (s ++ s') (ts ++ ts') := by
  intro rest hrest
  rw [List.append_assoc, h _ (hbreak rest hrest), h' rest hrest, List.append_assoc]

theorem SqlReads.tokens (h : SqlReads s ts) : sqlTokens s = ts := by
  have hnil : SqlBreak [] := by
    intro c hc
    cases hc
  have hs := h [] hnil
  rw [List.append_nil] at hs
  rw [hs]
  exact List.append_nil ts

/-- Once a word is read, what breaks it is read from the start. -/
theorem sqlLex_word_break {rest : List Char} (h : SqlBreak rest) (w : List Char) :
    sqlLex (.word w) rest = .word w :: sqlTokens rest := by
  cases rest with
  | nil => rfl
  | cons c rest =>
    obtain ⟨hword, hquote⟩ := h c rfl
    have hstep : lexStep (.word w) c = ((lexStart c).1, .word w :: (lexStart c).2) := by
      rw [lexStep, if_neg (by simp [hword]), if_neg hquote]
    rw [sqlTokens, sqlLex, hstep]
    rfl

theorem sqlLex_word {v : List Char} (hv : ∀ c ∈ v, isSqlWord c = true) {rest : List Char}
    (h : SqlBreak rest) (w : List Char) :
    sqlLex (.word w) (v ++ rest) = .word (w ++ v) :: sqlTokens rest := by
  induction v generalizing w with
  | nil => rw [List.nil_append, List.append_nil, sqlLex_word_break h]
  | cons c v ih =>
    have hc := hv c List.mem_cons_self
    rw [List.cons_append, sqlLex, lexStep, if_pos hc, List.nil_append,
      ih fun d hd => hv d (List.mem_cons_of_mem _ hd), List.append_assoc]
    rfl

/-- A word. -/
theorem reads_word {w : List Char} (hne : w ≠ []) (hw : ∀ c ∈ w, isSqlWord c = true) :
    SqlReads w [.word w] := by
  intro rest hrest
  cases w with
  | nil => exact absurd rfl hne
  | cons c w =>
    have hc := hw c List.mem_cons_self
    have hquote : c ≠ '\'' := by
      rintro rfl
      exact absurd hc (by decide)
    rw [sqlTokens, List.cons_append, sqlLex, lexStep, lexStart, if_neg hquote, if_pos hc,
      List.nil_append, sqlLex_word (fun d hd => hw d (List.mem_cons_of_mem _ hd)) hrest]
    rfl

/-- Tokens with commas between them. -/
def withCommas : List (List SqlToken) → List SqlToken
  | [] => []
  | t :: ts => t ++ ts.flatMap fun t => .sym ',' :: t

theorem SqlBreak.append {s rest : List Char} (h : SqlBreak s) (hrest : SqlBreak rest) :
    SqlBreak (s ++ rest) := by
  cases s with
  | nil => exact hrest
  | cons c s => exact h

/-- Texts, a value behind each of them, and the last text: no text ends in the middle of a token,
and none goes on with the value before it. -/
structure SqlFits (texts : List (List Char)) (last : List Char) : Prop where
  /-- up to the values -/
  free : ∀ s ∈ texts, SqlFree s (sqlTokens s)
  /-- behind the values -/
  breaks : ∀ s ∈ texts.tail, s ≠ [] ∧ SqlBreak s
  /-- at the end -/
  lastReads : SqlReads last (sqlTokens last)
  /-- behind the last value -/
  lastBreaks : texts ≠ [] → SqlBreak last

/-- Each value is read in its place. -/
theorem SqlFits.reads {α : Type} {tokens : α → List SqlToken} {parts : List (List Char × α)}
    {last : List Char} (h : SqlFits (parts.map Prod.fst) last) {values : List (List Char)}
    (hvalues : List.Forall₂ (fun s p => SqlReads s (tokens p.2)) values parts) :
    SqlReads ((List.zipWith (fun p s => p.1 ++ s) parts values).flatten ++ last)
      ((parts.flatMap fun p => sqlTokens p.1 ++ tokens p.2) ++ sqlTokens last) := by
  induction hvalues with
  | nil => exact h.lastReads
  | @cons s p values parts hs hrest ih =>
    have htail : SqlFits (parts.map Prod.fst) last :=
      ⟨fun t ht => h.free t (List.mem_cons_of_mem _ ht),
        fun t ht => h.breaks t (List.mem_of_mem_tail ht), h.lastReads,
        fun _ => h.lastBreaks (List.cons_ne_nil _ _)⟩
    have hbreak : SqlBreak ((List.zipWith (fun p s => p.1 ++ s) parts values).flatten ++ last) := by
      cases hrest with
      | nil => exact h.lastBreaks (List.cons_ne_nil _ _)
      | @cons t q values parts _ _ =>
        obtain ⟨hne, hq⟩ := h.breaks q.1 List.mem_cons_self
        obtain ⟨c, cs, hcs⟩ := List.exists_cons_of_ne_nil hne
        rw [hcs] at hq
        rw [List.zipWith_cons_cons, hcs]
        exact hq
    have hfirst := (h.free p.1 List.mem_cons_self).appendReads hs
    have hall := hfirst.append (fun rest hrest => hbreak.append hrest) (ih htail)
    simpa using hall

/-! ## No other way to write a string

The converse: a text between quotes is one token of the string only if its quotes are doubled.
-/

end Mbb
