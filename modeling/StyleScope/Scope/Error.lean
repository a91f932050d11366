/-
# Why a stylesheet cannot be scoped

Key definitions: `Scope.Error`, `Scope.Error.message`, `Scope.Error.ofSyntax`.
-/
import StyleScope.Scope.Keyword
import StyleScope.SyntaxError

namespace StyleScope
namespace Scope

/-- A side of a broad keyword. -/
inductive Side where
  | before
  | after
  deriving DecidableEq, Repr, Inhabited

def Side.text : Side → String
  | before => "before"
  | after => "after"

inductive Error where
  /-- The name of the mode is unknown. -/
  | invalidMode (value : String)
  /-- The alternatives of a selector list end in different scopes. -/
  | inconsistentScope (selector : String)
  /-- A keyword stands inside the argument of another. -/
  | nestedScope (outer inner : Keyword)
  /-- A broad keyword lacks the white space it needs. -/
  | missingWhitespace (keyword : Keyword) (side : Side)
  /-- In pure mode, a rule has an alternative without a local part. -/
  | notPureSelector (selector : String)
  /-- In pure mode, a selector of a prelude has an alternative without a local
  part. -/
  | notPureAtRuleSelector (selector : String)
  /-- In pure mode, the name of `@keyframes` is global. -/
  | pureKeyframesGlobal
  /-- A `.` or `#` has no name. -/
  | invalidName
  /-- A narrow keyword has no argument. -/
  | emptyScope (keyword : Keyword)
  /-- Something nests deeper than `limit`. -/
  | nestingTooDeep (limit : Nat)
  /-- The sheet, a selector or a value cannot be read. -/
  | malformed (cause : SyntaxError)
  deriving DecidableEq, Repr, Inhabited

namespace Error

/-- A failed reading, seen from the scoping of a whole sheet: where the text is
only a piece of the sheet, the place of too deep nesting says nothing. -/
def ofSyntax : SyntaxError → Error
  | .nestingTooDeep limit _ => .nestingTooDeep limit
  | e => .malformed e

/-- The remark that closes the messages of pure mode. -/
def purityRule : String :=
  "(pure selectors must contain at least one local class or id)"

/-- The text of the error. -/
def message : Error → String
  | invalidMode _ =>
    "options.mode must be either \"global\", \"local\" or \"pure\" (default \"local\")"
  | inconsistentScope selector =>
    "Inconsistent rule global/local result in rule \"" ++ selector ++
      "\" (multiple selectors must result in the same mode for the rule)"
  | nestedScope outer inner =>
    "A " ++ inner.text ++ " is not allowed inside of a " ++ outer.text ++ "(...)"
  | missingWhitespace keyword side => "Missing whitespace " ++ side.text ++ " " ++ keyword.text
  | notPureSelector selector => "Selector \"" ++ selector ++ "\" is not pure " ++ purityRule
  | notPureAtRuleSelector selector =>
    "Selector in at-rule \"" ++ selector ++ "\" is not pure " ++ purityRule
  | pureKeyframesGlobal => "@keyframes :global(...) is not allowed in pure mode"
  | invalidName => "Invalid class or id selector syntax"
  | emptyScope keyword => keyword.text ++ "() can't be empty"
  | nestingTooDeep limit => "Nesting deeper than " ++ Nat.repr limit ++ " levels"
  | malformed cause => cause.message

end Error
end Scope
end StyleScope
