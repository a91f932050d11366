/-
# Scoping declarations

The property decides what is done to a value: the `animation` shorthand and
lists of animation names have their names marked; in any other value urls are
replaced, if there is a map of urls and the value mentions `url(`. A value
that needs no change stays as it is.

Key definitions: `Scope.Route`, `Scope.route?`, `Scope.localizeDeclaration`.
-/
import StyleScope.Scope.Animation
import StyleScope.Scope.Error
import StyleScope.Sheet
import StyleScope.Trace
import StyleScope.Value.Parser

namespace StyleScope
namespace Scope

open Sheet (Declaration)
open Value (Node)

/-- What is done to a value. -/
inductive Route where
  | shorthand
  | names
  | urls
  deriving DecidableEq, Repr

/-- Whether `word` occurs among the characters. -/
def occursIn (word : List Char) : List Char → Bool
  | [] => word.isEmpty
  | c :: cs => word.isPrefixOf (c :: cs) || occursIn word cs

/-- Whether the value has a call of `url`, in any case. -/
def mentionsUrl (value : String) : Bool :=
  occursIn "url(".toList (Text.lower value).toList

/-- What is done to the value of a declaration, if anything. -/
def route? (p : Place) (d : Declaration) : Option Route :=
  if Text.endsInWord "animation" d.prop then some .shorthand
  else if Text.endsInWord "animation-name" d.prop then some .names
  else if p.urlMap.isSome && mentionsUrl d.value then some .urls
  else none

/-- The nodes of a value after their names are marked and urls replaced. -/
def Route.apply (p : Place) : Route → List Node → List Node
  | .shorthand, ns => localizeShorthand p ns
  | .names, ns => localizeNames p ns
  | .urls, ns => mapUrls p.mapUrl ns

/-- The urls of a value that are handed to the map of urls, in order. -/
def Route.urlsOf : Route → List Node → List String
  | .urls, ns => urlArguments (fun name => !isSubstitution name) ns
  | _, ns => urlArguments Role.enters ns

/-- The events of replacing urls at this place. -/
def Place.urlEvents (p : Place) (urls : List String) : List Event :=
  match p.urlMap with
  | some _ => urls.map (.url p.isGlobal)
  | none => []

/-- Scopes a declaration. -/
def localizeDeclaration (p : Place) (d : Declaration) : Traced Error Declaration :=
  match route? p d with
  | none => pure d
  | some route => do
    .emitAll (Value.complaints d.value)
    let ns ← .ofExcept ((Value.parse d.value).mapError .ofSyntax)
    .emitAll (p.urlEvents (route.urlsOf ns))
    let value := Value.print (route.apply p ns)
    if value = d.value then return d
    else
      .emit (.trace (d.prop ++ ": " ++ d.value ++ " -> " ++ value))
      return { d with value }

end Scope
end StyleScope
