/-
# Running the command

The command reads a configuration, a stylesheet and writes the scoped sheet.
Where files are and how they are read is left open: `Files` says what a place
with files offers, in any monad.

The order is fixed: configuration, mode, stylesheet, scoping, output. The
first failure ends the run, and nothing is written before the end.

Key definitions: `CommandLine.Files`, `CommandLine.run`, `CommandLine.Failure`,
`CommandLine.isRelativeUrl`.
-/
import StyleScope.CommandLine
import StyleScope.Config
import StyleScope.Scope.Process
import StyleScope.Text.Control

namespace StyleScope
namespace CommandLine

/-- Why a file could not be read or written. -/
inductive FileError where
  | missing
  | isDirectory
  | notDirectory
  | nameTooLong
  /-- The bytes are not the encoding of a text. -/
  | notText
  | other (message : String)
  deriving DecidableEq, Repr

def FileError.message : FileError → String
  | missing => "No such file or directory (os error 2)"
  | isDirectory => "Is a directory (os error 21)"
  | notDirectory => "Not a directory (os error 20)"
  | nameTooLong => "File name too long (os error 36)"
  | notText => "stream did not contain valid UTF-8"
  | other message => message

/-- Why the command failed. -/
inductive Failure where
  | readConfig (name : String) (e : FileError)
  /-- The configuration is not one. -/
  | invalidConfig (name : String)
  /-- The mode of the configuration or of the arguments is unknown. -/
  | options (e : Scope.Error)
  | readFile (name : String) (e : FileError)
  | readInput (e : FileError)
  | parse (e : SyntaxError)
  | scope (e : Scope.Error)
  | writeFile (name : String) (e : FileError)
  | writeOutput (e : FileError)
  deriving DecidableEq, Repr

/-- The causes of a failed scoping, from the outermost on. A cause that was
found by a reader is named by both. -/
def scopeCauses : Scope.Error → String
  | .malformed cause => cause.message ++ ": " ++ cause.message
  | e => e.message

/-- What failed and why. -/
def Failure.message : Failure → String
  | readConfig name e => "failed to read config " ++ name ++ ": " ++ e.message
  | invalidConfig name => "invalid config " ++ name
  | options e => e.message
  | readFile name e => "failed to read " ++ name ++ ": " ++ e.message
  | readInput e => "failed to read stdin: " ++ e.message
  | parse e => "failed to parse stylesheet: " ++ e.message
  | scope e => "failed to scope stylesheet: " ++ scopeCauses e
  | writeFile name e => "failed to write " ++ name ++ ": " ++ e.message
  | writeOutput e => "failed to write to stdout: " ++ e.message

/-! ### Urls -/

/-- The characters of a url's scheme. -/
def isSchemeChar (c : Char) : Bool :=
  Text.isLetter c || Text.isDigit c || c = '+' || c = '-' || c = '.'

/-- Whether a url is relative to the place of the stylesheet: it is not empty,
does not start with a slash or a number sign, and has no scheme. -/
def isRelativeUrl (url : String) : Bool :=
  let cs := Text.trimChars url.toList
  match cs with
  | [] => false
  | c :: _ =>
    c ≠ '/' && c ≠ '#' &&
      (!cs.contains ':' || !(cs.takeWhile (· ≠ ':')).all isSchemeChar)

/-- Puts `front` in front of relative urls in local scope. -/
def prefixUrls (front : String) : Scope.UrlMap := fun isGlobal url =>
  if isGlobal || !isRelativeUrl url then url else front ++ url

/-! ### The run -/

/-- What a place with files offers. -/
structure Files (m : Type → Type) where
  readFile : String → m (Except FileError String)
  readInput : m (Except FileError String)
  writeFile : String → String → m (Except FileError Unit)
  writeOutput : String → m (Except FileError Unit)

/-- The options of a configuration with this text. -/
def configOptions (name text : String) : Except Failure Scope.Options :=
  match Config.parse? text with
  | none => .error (.invalidConfig name)
  | some config => config.options.mapError .options

/-- The options with those of the arguments in front. -/
def Invocation.override (i : Invocation) (options : Scope.Options) :
    Except Failure Scope.Options := do
  let mode ←
    match i.mode with
    | some name => (Scope.Mode.parse name).mapError .options
    | none => pure options.mode
  return ⟨mode, (i.urlPrefix.map prefixUrls).orElse fun _ => options.urlMap⟩

/-- Reads, scopes and prints a stylesheet. -/
def scopeSource (options : Scope.Options) (source : String) : Traced Failure String := do
  let sheet ← (Sheet.parse source).mapError .parse
  let sheet ← (Scope.process options sheet).mapError .scope
  return sheet.print

section

variable {m : Type → Type} [Monad m]

/-- The options of the run. -/
def loadOptions (files : Files m) (i : Invocation) : m (Except Failure Scope.Options) := do
  match i.config with
  | none => return i.override .default
  | some name =>
    match ← files.readFile name with
    | .error e => return .error (.readConfig name e)
    | .ok text => return (configOptions name text).bind i.override

/-- The stylesheet of the run. -/
def readSource (files : Files m) (i : Invocation) : m (Except Failure String) := do
  match i.path with
  | some name => return (← files.readFile name).mapError (.readFile name)
  | none => return (← files.readInput).mapError .readInput

/-- Writes the scoped sheet. -/
def writeResult (files : Files m) (i : Invocation) (text : String) : m (Except Failure Unit) := do
  match i.output with
  | some name => return (← files.writeFile name text).mapError (.writeFile name)
  | none => return (← files.writeOutput text).mapError .writeOutput

/-- Runs the command, and reports what happened on the way. -/
def run (files : Files m) (i : Invocation) : m (Traced Failure Unit) := do
  match ← loadOptions files i with
  | .error e => return .fail e
  | .ok options =>
    let first := Event.debug ("options: " ++ options.display)
    match ← readSource files i with
    | .error e => return ⟨[first], .error e⟩
    | .ok source =>
      let r := scopeSource options source
      match r.result with
      | .error e => return ⟨first :: r.events, .error e⟩
      | .ok text => return ⟨first :: r.events, ← writeResult files i text⟩

end

/-! ### What is shown -/

/-- A line of the log, as it is shown. What a message quotes may hold anything,
so control sequences are left out. -/
def logLine (r : Record) : String :=
  Text.withoutControls
    ("[" ++ r.level ++ String.ofList (List.replicate (5 - r.level.length) ' ') ++ " " ++
      r.target ++ "] " ++ r.message ++ "\n")

/-- The line about a failure. -/
def failureLine (e : Failure) : String :=
  "\x1b[1m\x1b[31merror:\x1b[39m\x1b[0m " ++ e.message ++ "\n"

/-- How much the command shows. -/
def Invocation.verbosity (i : Invocation) : Verbosity :=
  if i.verbose then .debug else .warnings

/-- What the command shows besides its result. -/
def report (i : Invocation) (r : Traced Failure Unit) : String :=
  let lines := (Journal.empty.recordAll i.verbosity r.events).1
  String.join (lines.map logLine) ++
    match r.result with
    | .ok _ => ""
    | .error e => failureLine e

/-- The status that the command ends with. -/
def exitCode (r : Traced Failure Unit) : Nat :=
  match r.result with
  | .ok _ => 0
  | .error _ => 1

/-- The line that names the version. -/
def versionLine : String := "scopify 0.1.0\n"

end CommandLine
end StyleScope
