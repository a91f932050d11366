/-
# Urls in values

Every string and every word that is an argument of `url(...)` is handed to a
map of urls, and what that returns is escaped for the place it is written to.
The walk does not enter `var(...)` and `env(...)`.

Key definitions: `Scope.escapeQuoted`, `Scope.escapeUnquoted`,
`Scope.mapUrls`, `Scope.urlArguments`.
-/
import StyleScope.Scope.Options
import StyleScope.Text
import StyleScope.Value

namespace StyleScope
namespace Scope

open Value (Node)

/-- The characters with a backslash in front of each one that `special` holds
of. -/
def escapeChars (special : Char → Bool) : List Char → List Char
  | [] => []
  | c :: cs =>
    if special c then '\\' :: c :: escapeChars special cs else c :: escapeChars special cs

/-- The url as it stands between two quotes. -/
def escapeQuoted (quote : Char) (url : String) : String :=
  String.ofList (escapeChars (fun c => c = '\\' || c = quote) url.toList)

/-- The url as it stands in parentheses without quotes. -/
def escapeUnquoted (url : String) : String :=
  String.ofList
    (escapeChars (fun c => c = '"' || c = '\x27' || c = ')' || c = '\\') url.toList)

/-- An argument of `url(...)` with the url in it replaced. -/
def mapArgument (f : String → String) : Node → Node
  | .string start quote text unclosed =>
    .string start quote (escapeQuoted quote (f text)) unclosed
  | .word start text => .word start (escapeUnquoted (f text))
  | n => n

/-- The url that an argument of `url(...)` is. -/
def urlOf? : Node → Option String
  | .string _ _ text _ => some text
  | .word _ text => some text
  | _ => none

def isUrl (name : String) : Bool :=
  Text.sameWord name "url"

/-- The functions whose arguments are not known until they are computed. -/
def isSubstitution (name : String) : Bool :=
  Text.sameWord name "var" || Text.sameWord name "env"

mutual

/-- The node with all urls in it replaced. -/
def mapUrlsIn (f : String → String) : Node → Node
  | .function start name before arguments after unclosed =>
    if isUrl name then
      .function start name before (arguments.map (mapArgument f)) after unclosed
    else if isSubstitution name then .function start name before arguments after unclosed
    else .function start name before (mapUrls f arguments) after unclosed
  | n => n

/-- The nodes with all urls in them replaced. -/
def mapUrls (f : String → String) : List Node → List Node
  | [] => []
  | n :: ns => mapUrlsIn f n :: mapUrls f ns

end

mutual

/-- The urls in a node, in document order, where `enters` tells which functions
are looked into. -/
def urlsIn (enters : String → Bool) : Node → List String
  | .function _ name _ arguments _ _ =>
    if isUrl name then arguments.filterMap urlOf?
    else if enters name then urlArguments enters arguments
    else []
  | _ => []

/-- The urls in the nodes, in document order. -/
def urlArguments (enters : String → Bool) : List Node → List String
  | [] => []
  | n :: ns => urlsIn enters n ++ urlArguments enters ns

end

end Scope
end StyleScope
