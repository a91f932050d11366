/-
# The command

Reads and writes files, and prints; what is read and written is decided by
`CommandLine.run`.
-/
import StyleScope.CommandLine.Run

namespace StyleScope
namespace CommandLine

/-- The error of the file system as the command shows it. -/
def FileError.ofIO : IO.Error → FileError
  | .noFileOrDirectory _ _ _ => .missing
  | .inappropriateType _ _ _ => .isDirectory
  | e => .other (toString e)

/-- The text that the bytes encode. -/
def decodeText (bytes : ByteArray) : Except FileError String :=
  match String.fromUTF8? bytes with
  | some text => .ok text
  | none => .error .notText

/-- The result of an action, with its failure as a value. -/
def attempt {α : Type} (action : IO α) : IO (Except FileError α) := do
  match ← action.toBaseIO with
  | .ok a => return .ok a
  | .error e => return .error (.ofIO e)

/-- Reads a stream to its end. -/
partial def readAll (stream : IO.FS.Stream) (seen : ByteArray) : IO ByteArray := do
  let chunk ← stream.read 65536
  if chunk.isEmpty then return seen else readAll stream (seen ++ chunk)

/-- The files of the system. -/
def systemFiles : Files IO where
  readFile name := do return (← attempt (IO.FS.readBinFile name)).bind decodeText
  readInput := do
    return (← attempt (do readAll (← IO.getStdin) ByteArray.empty)).bind decodeText
  writeFile name text := attempt (IO.FS.writeFile name text)
  writeOutput text := attempt (do
    let out ← IO.getStdout
    out.putStr text
    out.flush)

/-- How the command is used. -/
def usage : String :=
  "usage: scopify [-m MODE] [-c FILE] [-o FILE] [--url-prefix TEXT] [-v] [-V] [FILE]\n"

end CommandLine
end StyleScope

open StyleScope in
/-- Scopes a stylesheet. -/
def main (arguments : List String) : IO UInt32 := do
  match CommandLine.parse? arguments with
  | none =>
    IO.eprint CommandLine.usage
    return 2
  | some .version =>
    IO.print CommandLine.versionLine
    return 0
  | some (.scope i) =>
    let r ← CommandLine.run CommandLine.systemFiles i
    IO.eprint (CommandLine.report i r)
    return (CommandLine.exitCode r).toUInt32
