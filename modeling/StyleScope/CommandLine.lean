/-
# The arguments of the command

The command takes one stylesheet, or reads its input, and options in short and
long form. An option with a value takes it attached (`-mpure`, `-m=pure`,
`--mode=pure`) or from the next argument, which then must not look like an
option. Nothing may be given twice, and `--` makes all that follows plain.

Key definitions: `CommandLine.Invocation`, `CommandLine.parse?`.
-/

namespace StyleScope
namespace CommandLine

/-- What the command is asked to do to a stylesheet. -/
structure Invocation where
  path : Option String
  output : Option String
  mode : Option String
  config : Option String
  urlPrefix : Option String
  verbose : Bool
  deriving DecidableEq, Repr, Inhabited

def Invocation.empty : Invocation := ⟨none, none, none, none, none, false⟩

inductive Request where
  /-- To print its version. -/
  | version
  /-- To scope a stylesheet. -/
  | scope (i : Invocation)
  deriving DecidableEq, Repr

/-- The options that have a value. -/
inductive Setting where
  | output
  | mode
  | config
  | urlPrefix
  deriving DecidableEq, Repr

/-- An option. -/
inductive Flag where
  | verbose
  | version
  | setting (s : Setting)
  deriving DecidableEq, Repr

def Flag.ofShort? (c : Char) : Option Flag :=
  if c = 'v' then some .verbose
  else if c = 'V' then some .version
  else if c = 'o' then some (.setting .output)
  else if c = 'm' then some (.setting .mode)
  else if c = 'c' then some (.setting .config)
  else none

def Flag.ofLong? (name : List Char) : Option Flag :=
  if name = "verbose".toList then some .verbose
  else if name = "version".toList then some .version
  else if name = "output".toList then some (.setting .output)
  else if name = "mode".toList then some (.setting .mode)
  else if name = "config".toList then some (.setting .config)
  else if name = "url-prefix".toList then some (.setting .urlPrefix)
  else none

/-- A value that is given once. -/
def once (old : Option String) (new : String) : Option (Option String) :=
  if old.isSome then none else some (some new)

/-- A file name that is given once and is not empty. -/
def onceNamed (old : Option String) (new : String) : Option (Option String) :=
  if new = "" then none else once old new

namespace Invocation

/-- Sets an option, unless it is set already. -/
def set? (s : Setting) (value : String) (i : Invocation) : Option Invocation :=
  match s with
  | .output => (onceNamed i.output value).map fun output => { i with output }
  | .mode => (once i.mode value).map fun mode => { i with mode }
  | .config => (onceNamed i.config value).map fun config => { i with config }
  | .urlPrefix => (once i.urlPrefix value).map fun urlPrefix => { i with urlPrefix }

/-- Names the stylesheet, unless it is named already. -/
def name? (path : String) (i : Invocation) : Option Invocation :=
  (onceNamed i.path path).map fun path => { i with path }

/-- Asks for details, unless they are asked for already. -/
def verbose? (i : Invocation) : Option Invocation :=
  if i.verbose then none else some { i with verbose := true }

end Invocation

/-- Whether an argument looks like an option and so is no value. -/
def isOption (argument : String) : Bool :=
  argument.toList.head? = some '-' && argument ≠ "-"

/-- What an argument leads to: a request, or more arguments to read, the first
of them perhaps as the value of an option. -/
inductive Step where
  | done (r : Request)
  | next (i : Invocation)
  | wants (s : Setting) (i : Invocation)
  deriving Repr

/-- Reads an argument of short options behind its hyphen. -/
def readShort (i : Invocation) : List Char → Option Step
  | [] => some (.next i)
  | c :: cs =>
    match Flag.ofShort? c with
    | none => none
    | some .version => some (.done .version)
    | some .verbose => i.verbose?.bind fun i => readShort i cs
    | some (.setting s) =>
      match cs with
      | [] => some (.wants s i)
      | '=' :: value => (i.set? s (String.ofList value)).map .next
      | value => (i.set? s (String.ofList value)).map .next

/-- Reads a long option behind its two hyphens. -/
def readLong (i : Invocation) (cs : List Char) : Option Step :=
  let value := cs.dropWhile (· ≠ '=')
  match Flag.ofLong? (cs.takeWhile (· ≠ '=')) with
  | none => none
  | some .version => if value.isEmpty then some (.done .version) else none
  | some .verbose => if value.isEmpty then i.verbose?.map .next else none
  | some (.setting s) =>
    if value.isEmpty then some (.wants s i)
    else (i.set? s (String.ofList value.tail)).map .next

/-- Reads one argument. -/
def readArgument (i : Invocation) (argument : String) : Option Step :=
  if isOption argument then
    match argument.toList.tail with
    | '-' :: cs => readLong i cs
    | cs => readShort i cs
  else (i.name? argument).map .next

/-- Reads arguments none of which is an option. -/
def readPlain (i : Invocation) : List String → Option Request
  | [] => some (.scope i)
  | argument :: rest => (i.name? argument).bind fun i => readPlain i rest

/-- Reads arguments. -/
def readArguments (i : Invocation) : List String → Option Request
  | [] => some (.scope i)
  | argument :: rest =>
    if argument = "--" then readPlain i rest
    else
      match readArgument i argument with
      | none => none
      | some (.done r) => some r
      | some (.next i) => readArguments i rest
      | some (.wants s i) =>
        match rest with
        | [] => none
        | value :: rest =>
          if isOption value then none else (i.set? s value).bind fun i => readArguments i rest

/-- The request that the arguments make; none if they are not understood. -/
def parse? (arguments : List String) : Option Request :=
  readArguments .empty arguments

end CommandLine
end StyleScope
