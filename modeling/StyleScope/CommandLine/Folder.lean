/-
# A folder in memory

Files by name, and what is given to the command and taken from it, as a value:
a place in which the command runs without touching anything outside. Names
lead through directories, which exist as far as files in them do; nothing
exists outside of the folder.

Key definitions: `CommandLine.Folder`, `Folder.find`, `Folder.files`.
-/
import StyleScope.CommandLine.Run

namespace StyleScope
namespace CommandLine

/-- Files with their texts, the input, which may not be a text, and what was
written as output. A name is the list of its parts. -/
structure Folder where
  entries : List (List String × String)
  input : Except FileError String
  output : String

/-- What a name leads to. -/
inductive Finding where
  | file (name : List String) (text : String)
  | directory
  /-- A file stands where a directory is needed. -/
  | blocked
  /-- The name, or a part of it that was reached, is longer than names can be. -/
  | tooLong
  /-- Nothing is there; `rest` is what follows the first missing part. -/
  | absent (name rest : List String)
  deriving Repr

namespace Folder

/-- How many bytes a part of a name can have. -/
def partLimit : Nat := 255

/-- How many bytes a name can have. -/
def nameLimit : Nat := 4095

/-- The parts of a name. -/
def parts (name : String) : List String :=
  name.splitOn "/"

/-- Whether a file lies below the directory with these parts. -/
def hasDirectory (f : Folder) (name : List String) : Bool :=
  f.entries.any fun e => name.isPrefixOf e.1 && name ≠ e.1

/-- Follows a name from a directory, or from outside of the folder. -/
def follow (f : Folder) : Option (List String) → List String → Finding
  | _, [] => .directory
  | place, part :: rest =>
    if part = "" ∨ part = "." then follow f place rest
    else if part = ".." then
      follow f (place.bind fun dir => if dir.isEmpty then none else some dir.dropLast) rest
    else if partLimit < part.utf8ByteSize then .tooLong
    else
      match place with
      | none => .absent [part] rest
      | some dir =>
        match f.entries.lookup (dir ++ [part]) with
        | some text => if rest.isEmpty then .file (dir ++ [part]) text else .blocked
        | none =>
          if f.hasDirectory (dir ++ [part]) then follow f (some (dir ++ [part])) rest
          else .absent (dir ++ [part]) rest

/-- What a name leads to. -/
def find (f : Folder) (name : String) : Finding :=
  if nameLimit < name.utf8ByteSize then .tooLong
  else if name.toList.head? = some '/' then f.follow none (parts name)
  else f.follow (some []) (parts name)

/-- Puts a text into a file. -/
def put (f : Folder) (name : List String) (text : String) : Folder :=
  { f with entries := (name, text) :: f.entries.filter fun e => e.1 ≠ name }

def read (f : Folder) (name : String) : Except FileError String :=
  match f.find name with
  | .file _ text => .ok text
  | .directory => .error .isDirectory
  | .blocked => .error .notDirectory
  | .tooLong => .error .nameTooLong
  | .absent _ _ => .error .missing

/-- Writes a file; its directory has to exist. -/
def write (f : Folder) (name text : String) : Except FileError Folder :=
  match f.find name with
  | .file parts _ => .ok (f.put parts text)
  | .directory => .error .isDirectory
  | .blocked => .error .notDirectory
  | .tooLong => .error .nameTooLong
  | .absent parts [] => .ok (f.put parts text)
  | .absent _ [""] => .error .isDirectory
  | .absent _ _ => .error .missing

/-- The folder as a place with files. -/
def files : Files (StateM Folder) where
  readFile name := do return (← get).read name
  readInput := do return (← get).input
  writeFile name text := do
    match (← get).write name text with
    | .ok f => set f; return .ok ()
    | .error e => return .error e
  writeOutput text := do
    modify fun f => { f with output := f.output ++ text }
    return .ok ()

/-- Runs the command in the folder. -/
def run (i : Invocation) (f : Folder) : Traced Failure Unit × Folder :=
  StateT.run (m := Id) (CommandLine.run files i) f

end Folder
end CommandLine
end StyleScope
