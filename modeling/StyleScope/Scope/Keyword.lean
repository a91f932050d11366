/-
# Scope keywords

`:local` and `:global` choose the scope of the names they apply to. With
parentheses they are narrow and apply to their argument; without, they are
broad and apply to the rest of their alternative.

Key definitions: `Scope.Keyword`, `Keyword.ofPseudo?`.
-/
import StyleScope.Text

namespace StyleScope
namespace Scope

inductive Keyword where
  | localScope
  | globalScope
  deriving DecidableEq, Repr, Inhabited

namespace Keyword

/-- The keyword as it is written. -/
def text : Keyword → String
  | localScope => ":local"
  | globalScope => ":global"

def isGlobal : Keyword → Bool
  | localScope => false
  | globalScope => true

/-- The keyword that the name of a pseudo-class is, in any case. -/
def ofPseudo? (name : String) : Option Keyword :=
  if Text.sameWord name ":local" then some .localScope
  else if Text.sameWord name ":global" then some .globalScope
  else none

end Keyword

/-- The mark of a name in local scope. -/
def wrapLocal (name : String) : String :=
  Keyword.localScope.text ++ "(" ++ name ++ ")"

end Scope
end StyleScope
