import Mbb.HttpBatch
import Mbb.Lib.SqlText

/-!
# Statements (`mbbd/query.c`)

The statements for the database are put together from names that the source gives and from
arguments that come from requests. The arguments are a `va_list`; where the code would read one
that is not there, or one of another type, there is no result. `query_escape_func` is
`mbb_db_escape`, which asks the connection, and may fail.
-/

namespace Mbb

/-- An argument of a `va_list`. -/
inductive QArg : Type where
  /-- `gchar *` -/
  | str (s : Option CStr)
  /-- `glong` and `time_t` -/
  | long (n : Int)
  /-- `guint64` -/
  | quad (n : ℕ)
  /-- `gint` -/
  | int (n : Int)

section Escape

variable (escape : Option (CStr → Option CStr))

end Escape

/-- An argument with the character of the format that it is for. -/
inductive QValue : Type where
  /-- `s` -/
  | text (s : Option CStr)
  /-- `t` -/
  | time (t : Int)
  /-- `l` -/
  | long (n : Int)
  /-- `q` -/
  | quad (n : ℕ)
  /-- `d` -/
  | int (n : Int)
  /-- `c` -/
  | char (n : Int)
  /-- `b` -/
  | bool (n : Int)

namespace QValue

/-- The argument. -/
def arg : QValue → QArg
  | .text s => .str s
  | .time t => .long t
  | .long n => .long n
  | .quad n => .quad n
  | .int n => .int n
  | .char n => .int n
  | .bool n => .int n

/-- The text, if the value is one. -/
def string : QValue → Option CStr
  | .text s => s
  | .char n => some (cstr [Char.ofNat (n % 256).toNat])
  | _ => none

/-- The value that the database is to be told. -/
def tokens : QValue → List SqlToken
  | .text none => [.word "NULL".toList]
  | .text (some s) => [.text s.chars]
  | .time t => [.word (if 0 ≤ t then (decimal t).chars else "NULL".toList)]
  | .long n => [.word (decimal n).chars]
  | .quad n => [.word (decimal n).chars]
  | .int n => [.word (decimal n).chars]
  | .char n => [.text (cstr [Char.ofNat (n % 256).toNat]).chars]
  | .bool n => [.word (if n ≠ 0 then "true".toList else "false".toList)]

end QValue

/-- A name that the source gives. -/
def SqlName (name : CStr) : Prop := name.chars ≠ [] ∧ ∀ c ∈ name.chars, isSqlWord c = true

variable {escape : CStr → Option CStr}

/-- Without a format, the values are texts. -/
def QValue.Given (formatted : Bool) (v : QValue) : Prop := formatted = false → ∃ s, v = .text s

theorem SqlName.reads {name : CStr} (h : SqlName name) : SqlReads name.chars [.word name.chars] :=
  reads_word h.1 h.2

/-- `returning` -/
def returningTokens : Option CStr → List SqlToken
  | none => []
  | some field => [.word "returning".toList, .word field.chars]

/-- `where` -/
def whereTokens : Option CStr → List SqlToken
  | none => []
  | some opt => .word "where".toList :: sqlTokens opt.chars

/-- `name = value` for each column -/
def updateTokens (table : CStr) (cols : List (CStr × QValue)) : List SqlToken :=
  [.word "update".toList, .word table.chars, .word "set".toList] ++
    withCommas (cols.map fun p => .word p.1.chars :: .sym '=' :: p.2.tokens)

/-- A format of the source: texts, each with the value behind it, and the last text. -/
structure Template : Type where
  /-- texts and values -/
  parts : List (List Char × QValue)
  /-- the last text -/
  last : List Char
  /-- no other conversions, and no end of the string -/
  plain : ∀ s ∈ last :: parts.map Prod.fst, ∀ c ∈ s, c ≠ '%' ∧ c ≠ '\x00'
  /-- values are not torn -/
  fits : SqlFits (parts.map Prod.fst) last

namespace Template

/-- The string, with conversions for the values. -/
def format (conversion : QValue → List Char) (t : Template) : List Char :=
  (t.parts.flatMap fun p => p.1 ++ '%' :: conversion p.2) ++ t.last

/-- The arguments. -/
def args (t : Template) : List QArg := t.parts.map fun p => p.2.arg

/-- The values. -/
def values (t : Template) : List QValue := t.parts.map Prod.snd

/-- What the database is to read. -/
def tokens (t : Template) : List SqlToken :=
  (t.parts.flatMap fun p => sqlTokens p.1 ++ p.2.tokens) ++ sqlTokens t.last

/-- The text that comes first. -/
def front (t : Template) : List Char := (t.parts.head?.map Prod.fst).getD t.last

section

variable {loop : List Char → List QArg → Option (List Char)} {conversion : QValue → List Char}
  (hnil : ∀ va, loop [] va = some [])
  (hchar : ∀ c fmt va, c ≠ '%' → loop (c :: fmt) va = (loop fmt va).map (c :: ·))
include hchar

include hnil

end

end Template

/-- Values that conditions have. -/
def QValue.Counted : QValue → Prop
  | .int _ => True
  | .quad n => n < 2 ^ 63
  | _ => False

/-- A condition that is formatted. -/
def condTokens (cond : Option Template) : List SqlToken :=
  (cond.map fun t => .word "where".toList :: t.tokens).getD []

/-- What is in the buffer can have the text behind it: it does not end in the middle of a token, or
the text begins with a sign. -/
def Appendable (buf : List Char) (t : Template) : Prop :=
  SqlFree buf (sqlTokens buf) ∨
    SqlReads buf (sqlTokens buf) ∧ t.front ≠ [] ∧ SqlBreak t.front

/-- A statement with values, as the code asks for it. -/
inductive Statement : Type where
  /-- `query_insert_ap` -/
  | insert (table : CStr) (cols : List (CStr × QValue)) (field : Option CStr)
  /-- `query_update` without a format, or `query_updatef` -/
  | update (table : CStr) (formatted : Bool) (col : CStr × QValue) (cols : List (CStr × QValue))
    (opt : Option CStr)
  /-- `query_update_ap` -/
  | updateAp (table : CStr) (formatted : Bool) (col : CStr × QValue) (cols : List (CStr × QValue))
    (cond : Option Template)
  /-- `query_function_ap` -/
  | function (funcName : CStr) (vs : List QValue)
  /-- `query_delete` -/
  | delete (table : CStr) (opt : Option CStr)
  /-- `query_delete_ap` -/
  | deleteAp (table : CStr) (cond : Option Template)
  /-- `query_format`, or `query_append_format` with what is in the buffer -/
  | format (buf : List Char) (append : Bool) (t : Template)

namespace Statement

/-- What the database is to read. -/
def tokens : Statement → List SqlToken
  | .insert table cols field =>
    [.word "insert".toList, .word "into".toList, .word table.chars, .sym '('] ++
      withCommas (cols.map fun p => [.word p.1.chars]) ++
      [.sym ')', .word "values".toList, .sym '('] ++ withCommas (cols.map fun p => p.2.tokens) ++
      [.sym ')'] ++ returningTokens field ++ [.sym ';']
  | .update table _ p cols opt => updateTokens table (p :: cols) ++ whereTokens opt ++ [.sym ';']
  | .updateAp table _ p cols cond =>
    updateTokens table (p :: cols) ++ condTokens cond ++ [.sym ';']
  | .function funcName vs =>
    [.word "select".toList, .word funcName.chars, .sym '('] ++ withCommas (vs.map QValue.tokens) ++
      [.sym ')', .sym ';']
  | .delete table opt =>
    [.word "delete".toList, .word "from".toList, .word table.chars] ++ whereTokens opt ++ [.sym ';']
  | .deleteAp table cond =>
    [.word "delete".toList, .word "from".toList, .word table.chars] ++ condTokens cond ++ [.sym ';']
  | .format buf append t => (if append then sqlTokens buf else []) ++ t.tokens

/-- The values, which come from requests. -/
def values : Statement → List QValue
  | .insert _ cols _ => cols.map fun p => p.2
  | .update _ _ p cols _ | .updateAp _ _ p cols _ => (p :: cols).map fun p => p.2
  | .function _ vs => vs
  | .delete _ _ | .deleteAp _ _ => []
  | .format _ _ t => t.values

/-- The names are names, a condition does not end in the middle of a token or has numbers in it, and
values for which there is no format are texts. -/
def Named : Statement → Prop
  | .insert table cols field =>
    SqlName table ∧ (∀ p ∈ cols, SqlName p.1) ∧ ∀ f ∈ field, SqlName f
  | .update table formatted p cols opt =>
    SqlName table ∧ (∀ q ∈ p :: cols, SqlName q.1 ∧ q.2.Given formatted) ∧
      ∀ o ∈ opt, SqlReads o.chars (sqlTokens o.chars)
  | .updateAp table formatted p cols cond =>
    SqlName table ∧ (∀ q ∈ p :: cols, SqlName q.1 ∧ q.2.Given formatted) ∧
      ∀ t ∈ cond, ∀ v ∈ t.values, v.Counted
  | .function funcName _ => SqlName funcName
  | .delete table opt => SqlName table ∧ ∀ o ∈ opt, SqlReads o.chars (sqlTokens o.chars)
  | .deleteAp table cond => SqlName table ∧ ∀ t ∈ cond, ∀ v ∈ t.values, v.Counted
  | .format buf append t => append = true → Appendable buf t

end Statement

end Mbb
