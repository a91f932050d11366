/-
# Scoping animation names

An `animation-name` value lists names; the `animation` shorthand mixes a name
with the values of other properties. There a word is a name if it is an
identifier and no other property takes it: a keyword is taken once between two
dividers and is a name from its second occurrence on, and some keywords are
never names.

Key definitions: `Scope.isIdentifier`, `Scope.Role`, `Scope.localizeShorthand`,
`Scope.localizeNames`.
-/
import StyleScope.Scope.Keyword
import StyleScope.Scope.Options
import StyleScope.Scope.Url
import StyleScope.Value

namespace StyleScope
namespace Scope

open Text
open Value (Node)

/-- Where a declaration stands: its scope, the imported names, which are never
marked, and the map of urls. -/
structure Place where
  isGlobal : Bool
  aliases : List String
  urlMap : Option UrlMap

/-- A url as it is written back at this place. -/
def Place.mapUrl (p : Place) (url : String) : String :=
  match p.urlMap with
  | some f => f p.isGlobal url
  | none => url

/-! ### Identifiers -/

/-- Whether the characters go on as an identifier to the end. -/
def continuesIdentifier : List Char → Bool
  | [] => true
  | c :: cs =>
    if c = '\\' then
      match cs with
      | [] => false
      | d :: ds => !isNewline d && continuesIdentifier ds
    else isName c && continuesIdentifier cs

/-- Whether the characters are an identifier whose first hyphen is significant:
it must not be followed by a digit. -/
def isIdentifierBody : List Char → Bool
  | [] => false
  | c :: cs =>
    if c = '-' then !(cs.head?.any isDigit) && continuesIdentifier cs
    else if c = '\\' then continuesIdentifier (c :: cs)
    else isNameStart c && continuesIdentifier cs

/-- Whether a word can name an animation. -/
def isIdentifier (word : String) : Bool :=
  match word.toList with
  | [] => false
  | c :: cs => isIdentifierBody (c :: cs) || (c = '-' && isIdentifierBody cs)

/-! ### Keywords of the shorthand -/

/-- The keywords that a property of the shorthand takes. -/
def takenKeywords : List String :=
  ["normal", "reverse", "alternate", "alternate-reverse",
    "forwards", "backwards", "both",
    "infinite",
    "paused", "running",
    "ease", "ease-in", "ease-out", "ease-in-out", "linear", "step-end", "step-start"]

/-- The keywords that are never names. -/
def reservedNames : List String :=
  ["none", "inherit", "initial", "revert", "revert-layer", "unset"]

def isReserved (word : String) : Bool :=
  lower word ∈ reservedNames

/-- Whether a word of the shorthand is a name, given the keywords seen since
the last divider, and the keywords seen after it. -/
def classify (word : String) (seen : List String) : Bool × List String :=
  if isIdentifier word then
    if lower word ∈ takenKeywords then (lower word ∈ seen, lower word :: seen)
    else (!isReserved word, seen)
  else (false, seen)

/-! ### Functions in an animation value -/

/-- What a function means in an animation value. -/
inductive Role where
  /-- A substitution, or a name that is marked already. -/
  | closed
  /-- A name with its scope. -/
  | scoped (keyword : Keyword)
  | url
  /-- Its own arguments are never names. -/
  | steps
  /-- Any other function; its arguments are looked into. -/
  | plain
  deriving DecidableEq, Repr

def Role.ofName (name : String) : Role :=
  let name := lower name
  if name ∈ ["var", "env", ":local", ":global"] then .closed
  else if name = "local" then .scoped .localScope
  else if name = "global" then .scoped .globalScope
  else if name = "url" then .url
  else if name = "steps" then .steps
  else .plain

/-- Whether the walk looks into a function of this name. -/
def Role.enters (name : String) : Bool :=
  match ofName name with
  | .steps | .plain => true
  | _ => false

/-- The word that takes the place of a name with its scope. -/
def scopedWord (keyword : Keyword) (name : String) : String :=
  match keyword with
  | .localScope => wrapLocal name
  | .globalScope => name

/-- Replaces a name with its scope. Only a single word is a name; all else is
left alone. -/
def unwrapScoped (keyword : Keyword) : Node → Node
  | .function start name before arguments after unclosed =>
    match arguments with
    | [.word _ word] => .word start (scopedWord keyword word)
    | _ => .function start name before arguments after unclosed
  | n => n

/-- The call of `url` with its urls replaced. Without a map of urls nothing is
escaped anew. -/
def Place.mapCall (p : Place) : Node → Node
  | .function start name before arguments after unclosed =>
    match p.urlMap with
    | some f =>
      .function start name before (arguments.map (mapArgument (f p.isGlobal))) after unclosed
    | none => .function start name before arguments after unclosed
  | n => n

theorem Place.mapCall_of_none {p : Place} (hp : p.urlMap = none) (n : Node) : p.mapCall n = n := by
  cases n <;> simp [Place.mapCall, hp]

/-- A name at this place. -/
def Place.localize (p : Place) (word : String) : String :=
  if p.isGlobal ∨ word ∈ p.aliases then word else wrapLocal word

/-- The keywords seen behind a function that is not looked into. -/
def seenBehind (n : Node) (seen : List String) : List String :=
  if n.holdsDivider then [] else seen

/-! ### The shorthand -/

mutual

/-- A node of the shorthand with its names marked, and the keywords seen
behind it. Words are names only among `candidates`. -/
def shorthandNode (p : Place) (candidates : Bool) (n : Node) (seen : List String) :
    Node × List String :=
  match n with
  | .function start name before arguments after unclosed =>
    let n := Node.function start name before arguments after unclosed
    match Role.ofName name with
    | .closed => (n, seenBehind n seen)
    | .scoped keyword => (unwrapScoped keyword n, seenBehind n seen)
    | .url => (p.mapCall n, seenBehind n seen)
    | .steps =>
      let (arguments, seen) := shorthandNodes p false arguments seen
      (.function start name before arguments after unclosed, seen)
    | .plain =>
      let (arguments, seen) := shorthandNodes p true arguments seen
      (.function start name before arguments after unclosed, seen)
  | .divider start mark before after => (.divider start mark before after, [])
  | .word start text =>
    if candidates then
      let (isName, seen) := classify text seen
      (.word start (if isName then p.localize text else text), seen)
    else (.word start text, seen)
  | n => (n, seen)

/-- The nodes of the shorthand in order. -/
def shorthandNodes (p : Place) (candidates : Bool) (ns : List Node) (seen : List String) :
    List Node × List String :=
  match ns with
  | [] => ([], seen)
  | n :: ns =>
    let (n, seen) := shorthandNode p candidates n seen
    let (ns, seen) := shorthandNodes p candidates ns seen
    (n :: ns, seen)

end

/-- The value of the `animation` shorthand with its names marked. -/
def localizeShorthand (p : Place) (ns : List Node) : List Node :=
  (shorthandNodes p true ns []).1

/-! ### Lists of names -/

mutual

/-- A node of a list of names with the names in it marked. -/
def nameNode (p : Place) : Node → Node
  | .function start name before arguments after unclosed =>
    let n := Node.function start name before arguments after unclosed
    match Role.ofName name with
    | .closed => n
    | .scoped keyword => unwrapScoped keyword n
    | .url => p.mapCall n
    | .steps | .plain =>
      .function start name before (localizeNames p arguments) after unclosed
  | .word start text => .word start (if isReserved text then text else p.localize text)
  | n => n

/-- The value of `animation-name` with its names marked. -/
def localizeNames (p : Place) : List Node → List Node
  | [] => []
  | n :: ns => nameNode p n :: localizeNames p ns

end

end Scope
end StyleScope
