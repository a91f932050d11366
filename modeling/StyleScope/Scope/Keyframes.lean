/-
# Names of `@keyframes`

The name of an animation is the prelude of its `@keyframes`. A prelude
`:global(name)` gives the bare name, `:local(name)` is kept, and any other
name gets the mark of the scope it is in.

Key definitions: `Scope.isKeyframes`, `Scope.callBody?`,
`Scope.localizeKeyframes`.
-/
import StyleScope.Scope.Options
import StyleScope.Text

namespace StyleScope
namespace Scope

open Text

/-- Whether an at-rule is `@keyframes`, perhaps with a vendor's mark. -/
def isKeyframes (name : String) : Bool :=
  endsInWord "keyframes" name

/-- The characters behind `word`, if they start with it. -/
def behind? (word cs : List Char) : Option (List Char) :=
  if word.isPrefixOf cs then some (cs.drop word.length) else none

/-- The characters without a parenthesis at the end. -/
def beforeParen? (cs : List Char) : Option (List Char) :=
  if cs.getLast? = some ')' then some cs.dropLast else none

/-- What stands in the parentheses of a prelude that is a call of this very
keyword: at least one character, and no line feed. Blanks around the call and
in front of the parenthesis are ignored. -/
def callBody? (keyword : Keyword) (params : String) : Option String := do
  let cs ← behind? keyword.text.toList (trimChars params.toList)
  let cs ← behind? ['('] (cs.dropWhile isBlank)
  let cs ← beforeParen? cs
  if cs.isEmpty || cs.contains '\n' then none else some (String.ofList cs)

/-- A resolved prelude, and the scope of the declarations in the block. -/
structure Keyframes where
  params : String
  isGlobal : Bool
  deriving DecidableEq, Repr

/-- Resolves the prelude of `@keyframes`. -/
def localizeKeyframes (mode : Mode) (aliases : List String) (params : String) :
    Except Error Keyframes :=
  match callBody? .globalScope params with
  | some name => if mode = .pure then .error .pureKeyframesGlobal else .ok ⟨name, true⟩
  | none =>
    if (callBody? .localScope params).isSome then .ok ⟨params, false⟩
    else if params = "" ∨ mode.isGlobal ∨ params ∈ aliases then .ok ⟨params, mode.isGlobal⟩
    else .ok ⟨wrapLocal params, mode.isGlobal⟩

end Scope
end StyleScope
