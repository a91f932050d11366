/-
# Preludes of `@scope`

The prelude `(start) to (limit)` holds up to two selector lists, one for the
root of the scope and one for its limit. Either may be missing, not both.

Key definitions: `Scope.Prelude`, `Prelude.parse?`, `Prelude.print`.
-/
import StyleScope.Text
import StyleScope.Token.Lexer

namespace StyleScope
namespace Scope

open Text

/-- Whether an at-rule is `@scope`, perhaps with a vendor's mark. -/
def isScope (name : String) : Bool :=
  endsInWord "scope" name

/-- The selector lists of a prelude, as they stand in their parentheses. -/
structure Prelude where
  start : Option String
  limit : Option String
  deriving DecidableEq, Repr

namespace Prelude

def skipTrivia (ts : List Token) : List Token :=
  ts.dropWhile Token.isTrivia

/-- The text up to the parenthesis that closes a group, and the tokens behind
it. -/
def group? (ts : List Token) : Option (String × List Token) :=
  (Token.closingLength Token.Kind.opensParen (· = .rightParen) 0 ts).map fun n =>
    (Token.textOf (ts.take (n - 1)), ts.drop n)

/-- A group in parentheses at the head. -/
def parenthesized? : List Token → Option (String × List Token)
  | [] => none
  | t :: ts => if t.kind = .leftParen then group? ts else none

/-- The list for the root of the scope, if there is one. -/
def parseStart (ts : List Token) : Option (Option String × List Token) :=
  match ts with
  | [] => some (none, ts)
  | t :: _ =>
    if t.kind = .leftParen then (parenthesized? ts).map fun (text, ts) => (some text, ts)
    else some (none, ts)

/-- The list for the limit of the scope, if there is one. -/
def parseLimit (ts : List Token) : Option (Option String × List Token) :=
  match ts with
  | [] => some (none, ts)
  | t :: rest =>
    if t.kind = .ident && sameWord t.text "to" then
      (parenthesized? (skipTrivia rest)).map fun (text, ts) => (some text, ts)
    else if t.kind = .function && sameWord t.text "to(" then
      (group? rest).map fun (text, ts) => (some text, ts)
    else some (none, ts)

/-- Reads a prelude, if it has the right form. -/
def parse? (params : String) : Option Prelude := do
  let (start, ts) ← parseStart (skipTrivia (Token.lex params))
  let (limit, ts) ← parseLimit (skipTrivia ts)
  if (skipTrivia ts).isEmpty && (start.isSome || limit.isSome) then some ⟨start, limit⟩ else none

/-- The text of a prelude. -/
def print : Prelude → String
  | ⟨some start, some limit⟩ => "(" ++ start ++ ") to (" ++ limit ++ ")"
  | ⟨some start, none⟩ => "(" ++ start ++ ")"
  | ⟨none, some limit⟩ => "to (" ++ limit ++ ")"
  | ⟨none, none⟩ => ""

end Prelude
end Scope
end StyleScope
