/-
# Options of scoping

The mode says how names without a keyword are scoped. A map of urls, if there
is one, replaces the urls of the sheet.

Key definitions: `Scope.Mode`, `Mode.parse`, `Scope.UrlMap`, `Scope.Options`.
-/
import StyleScope.Scope.Error

namespace StyleScope
namespace Scope

/-- How names without a keyword are scoped. -/
inductive Mode where
  | localByDefault
  | globalByDefault
  /-- Local by default, and every selector must have a local part. -/
  | pure
  deriving DecidableEq, Repr, Inhabited

namespace Mode

/-- The name of the mode in a configuration. -/
def name : Mode → String
  | localByDefault => "local"
  | globalByDefault => "global"
  | pure => "pure"

/-- The name of the mode in a log. -/
def title : Mode → String
  | localByDefault => "Local"
  | globalByDefault => "Global"
  | pure => "Pure"

def isGlobal : Mode → Bool
  | globalByDefault => true
  | _ => false

/-- The mode with this very name. -/
def ofName? (name : String) : Option Mode :=
  if name = "local" then some localByDefault
  else if name = "global" then some globalByDefault
  else if name = "pure" then some pure
  else none

/-- Reads the name of a mode. -/
def parse (name : String) : Except Error Mode :=
  match ofName? name with
  | some mode => .ok mode
  | none => .error (.invalidMode name)

@[simp] theorem ofName?_name (m : Mode) : ofName? m.name = some m := by
  cases m <;> rfl

end Mode

/-- Gives the replacement of a url, told whether its scope is global. -/
abbrev UrlMap := Bool → String → String

structure Options where
  mode : Mode
  urlMap : Option UrlMap

namespace Options

/-- Local by default, and urls are left alone. -/
def default : Options := ⟨.localByDefault, none⟩

/-- The options as a log shows them. -/
def display (o : Options) : String :=
  "Options \x7b mode: " ++ o.mode.title ++ ", rewrite_url: " ++
    (if o.urlMap.isSome then "true" else "false") ++ " \x7d"

end Options
end Scope
end StyleScope
