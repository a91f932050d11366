/-
# Imported names

The declarations of a top-level `:import(...)` rule give names to values of
other sheets. Such names are scoped where they come from.

Key definitions: `Scope.importedNames`.
-/
import StyleScope.Sheet
import StyleScope.Text

namespace StyleScope
namespace Scope

open Sheet (Node)

/-- The start of the selector of an import, in lower case. -/
def importOpening : String := ":import("

/-- Whether a selector is one of an import. -/
def isImport (selector : String) : Bool :=
  Text.sameWord (String.ofList (selector.toList.take importOpening.length)) importOpening &&
    selector.toList.getLast? = some ')'

/-- The names that the imports among the nodes declare. -/
def importedNames : List Node → List String
  | [] => []
  | .rule head body _ :: ns =>
    (if isImport head.selector then (Sheet.declarations body).map (·.prop) else []) ++
      importedNames ns
  | _ :: ns => importedNames ns

end Scope
end StyleScope
