/-
# Text that cannot be read

The ways in which a stylesheet, a selector or a declaration value fails to be
read, and the limit on nesting that all three share. Offsets are byte offsets
into the text that was being read.

Key definitions: `SyntaxError`, `SyntaxError.message`, `nestingLimit`.
-/

namespace StyleScope

/-- How deep blocks, pseudo-class arguments and value functions may nest. -/
def nestingLimit : Nat := 256

inductive SyntaxError where
  /-- A `{` at `offset` that is never closed. -/
  | unclosedBlock (offset : Nat)
  /-- A `}` at `offset` with no open block. -/
  | unexpectedCloseBrace (offset : Nat)
  /-- A `(` or `[` that is never closed. -/
  | unclosedBracket (bracket : Char) (offset : Nat)
  /-- A `)` or `]` with nothing to close. -/
  | unexpectedCloseBracket (bracket : Char) (offset : Nat)
  /-- Text in a block that is neither a declaration nor a rule. -/
  | unknownWord (word : String) (offset : Nat)
  /-- The construct at `offset` nests deeper than `limit`. -/
  | nestingTooDeep (limit offset : Nat)
  deriving DecidableEq, Repr, Inhabited

namespace SyntaxError

/-- Where the error was found. -/
def offset : SyntaxError → Nat
  | unclosedBlock n | unexpectedCloseBrace n => n
  | unclosedBracket _ n | unexpectedCloseBracket _ n => n
  | unknownWord _ n => n
  | nestingTooDeep _ n => n

/-- What is wrong, without the place. -/
def complaint : SyntaxError → String
  | unclosedBlock _ => "Unclosed block"
  | unexpectedCloseBrace _ => "Unexpected \x7d"
  | unclosedBracket bracket _ => "Unclosed " ++ String.singleton bracket
  | unexpectedCloseBracket bracket _ => "Unexpected " ++ String.singleton bracket
  | unknownWord word _ => "Unknown word " ++ word
  | nestingTooDeep limit _ => "Nesting deeper than " ++ Nat.repr limit ++ " levels"

/-- The text of the error. -/
def message (e : SyntaxError) : String :=
  e.complaint ++ " at offset " ++ Nat.repr e.offset

end SyntaxError
end StyleScope
