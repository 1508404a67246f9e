import Mathlib.Algebra.Ring.Nat
import Mathlib.Data.List.Basic

/-!
# The tokens of an SQL text

How PostgreSQL splits a text into tokens: words, which are folded to lower case, identifiers in double
quotes, string constants, semicolons, and every other character by itself. White space and comments
separate tokens. In a quoted identifier a doubled quote stands for one, and nothing else is special. An
identifier that is longer than `maxName` bytes is cut before the first character that does not fit. The
prefixes of special constants (`E`, `U&`, dollar quotes) are left out.

The reader is an automaton that takes one character at a time. A name with its quotes doubled, between
quotes, is read as one identifier (`read_quote`).
-/

namespace Sql

inductive Token where
  | word (text : List Char)
  | ident (name : List Char)
  | literal (text : List Char)
  | semicolon
  | symbol (c : Char)
  deriving DecidableEq, Repr

/-! ### Identifiers -/

/-- The characters from the first on that fit into so many bytes. -/
def clip : Nat → List Char → List Char
  | _, [] => []
  | limit, c :: cs => if c.utf8Size ≤ limit then c :: clip (limit - c.utf8Size) cs else []

/-- `NAMEDATALEN - 1`. -/
def maxName : Nat := 63

/-- `truncate_identifier`. -/
def truncate (name : List Char) : List Char := clip maxName name

def isSpace (c : Char) : Bool :=
  c == ' ' || c == '\t' || c == '\n' || c == '\r' || c.val == 0x0B || c.val == 0x0C

def isWordStart (c : Char) : Bool := c.isAlpha || c == '_' || 0x80 ≤ c.val

def isWordRest (c : Char) : Bool := isWordStart c || c.isDigit || c == '$'

/-- What the reader is in, with what it has read of that. `quote` and `apostrophe` come after what may
be the end of an identifier or a constant. A comment has the number of those around it. -/
inductive Mode where
  | start
  | word (read : List Char)
  | quoted (read : List Char)
  | quote (read : List Char)
  | string (read : List Char)
  | apostrophe (read : List Char)
  | dash
  | lineComment
  | slash
  | comment (depth : Nat) (last : Char)
  deriving DecidableEq, Repr

/-- The first character of a token. -/
def begin (c : Char) : List Token × Mode :=
  if isSpace c then ([], .start)
  else if isWordStart c then ([], .word [c])
  else if c = '"' then ([], .quoted [])
  else if c = '\'' then ([], .string [])
  else if c = '-' then ([], .dash)
  else if c = '/' then ([], .slash)
  else if c = ';' then ([.semicolon], .start)
  else ([.symbol c], .start)

/-- The token that has ended with the character before this one, and what this one begins. -/
def next (token : Token) (c : Char) : List Token × Mode := (token :: (begin c).1, (begin c).2)

/-- An identifier has one character at least. -/
def identifier (read : List Char) : Option Token :=
  if read = [] then none else some (.ident (truncate read))

def step : Mode → Char → Option (List Token × Mode)
  | .start, c => some (begin c)
  | .word read, c =>
    some (if isWordRest c then ([], .word (read ++ [c])) else next (.word (read.map Char.toLower)) c)
  | .quoted read, c => some ([], if c = '"' then .quote read else .quoted (read ++ [c]))
  | .quote read, c =>
    if c = '"' then some ([], .quoted (read ++ [c])) else (identifier read).map (next · c)
  | .string read, c => some ([], if c = '\'' then .apostrophe read else .string (read ++ [c]))
  | .apostrophe read, c =>
    some (if c = '\'' then ([], .string (read ++ [c])) else next (.literal read) c)
  | .dash, c => some (if c = '-' then ([], .lineComment) else next (.symbol '-') c)
  | .lineComment, c => some ([], if c = '\n' || c = '\r' then .start else .lineComment)
  | .slash, c => some (if c = '*' then ([], .comment 0 ' ') else next (.symbol '/') c)
  | .comment depth last, c =>
    some ([],
      if last = '/' && c = '*' then .comment (depth + 1) ' '
      else if last = '*' && c = '/' then
        match depth with
        | 0 => .start
        | depth + 1 => .comment depth ' '
      else .comment depth c)

/-- The end of the text. It may not stand in quotes or in a comment. -/
def close : Mode → Option (List Token)
  | .start | .lineComment => some []
  | .word read => some [.word (read.map Char.toLower)]
  | .quote read => (identifier read).map ([·])
  | .apostrophe read => some [.literal read]
  | .dash => some [.symbol '-']
  | .slash => some [.symbol '/']
  | .quoted _ | .string _ | .comment _ _ => none

/-- The tokens that end in the text, and what the reader is in after it. -/
def read : Mode → List Char → Option (List Token × Mode)
  | mode, [] => some ([], mode)
  | mode, c :: cs => do
    let (tokens, mode) ← step mode c
    let (rest, mode) ← read mode cs
    return (tokens ++ rest, mode)

def lex (text : List Char) : Option (List Token) := do
  let (tokens, mode) ← read .start text
  let last ← close mode
  return tokens ++ last

/-- The statements of a text are separated by semicolons. One that is empty is none. -/
def statements (tokens : List Token) : List (List Token) :=
  (tokens.splitOnP (· == .semicolon)).filter fun statement => !statement.isEmpty

/-- The name with its quotes doubled. -/
def double (name : List Char) : List Char :=
  name.flatMap fun c => if c = '"' then ['"', '"'] else [c]

def quote (name : List Char) : List Char := '"' :: (double name ++ ['"'])

end Sql
