/-
# Configuration files

A configuration is a JSON object with an optional text `mode`. Other members
are allowed and skipped, `null` stands for a missing mode, and a list of at
most one element gives the mode by its place. The text is accepted only as a
whole; where it is not, there is no configuration.

Strings that are skipped are checked for their form only. Strings that are
read have to be texts: an escape for one half of a surrogate pair must be
followed by the other half.

Key definitions: `Config`, `Config.parse?`, `Config.print`, `Config.options`.
-/
import StyleScope.Scope.Options
import StyleScope.Text

namespace StyleScope

/-- A configuration. The mode is kept as it was written. -/
structure Config where
  mode : Option String
  deriving DecidableEq, Repr, Inhabited

namespace Config

open Text

/-! ### Strings -/

/-- A piece of a string: a character, or a UTF-16 unit given by its number. -/
inductive Piece where
  | char (c : Char)
  | unit (n : Nat)
  deriving DecidableEq, Repr

def hexValue? (c : Char) : Option Nat :=
  if isDigit c then some (c.toNat - '0'.toNat)
  else if 'a' ≤ c && c ≤ 'f' then some (c.toNat - 'a'.toNat + 10)
  else if 'A' ≤ c && c ≤ 'F' then some (c.toNat - 'A'.toNat + 10)
  else none

/-- The number that four hex digits write. -/
def unit? (a b c d : Char) : Option Nat := do
  return ((← hexValue? a) * 16 + (← hexValue? b)) * 256 + (← hexValue? c) * 16 + (← hexValue? d)

/-- The characters with an escape of one letter, under that letter. -/
def letterEscapes : List (Char × Char) :=
  [('"', '"'), ('\\', '\\'), ('/', '/'), ('b', '\x08'), ('f', '\x0c'), ('n', '\n'), ('r', '\r'),
    ('t', '\t')]

/-- Reads a string whose opening quote has been read, and gives the characters
behind it. -/
def readString : List Char → Option (List Piece × List Char)
  | [] => none
  | '"' :: cs => some ([], cs)
  | '\\' :: 'u' :: a :: b :: c :: d :: cs => do
    let n ← unit? a b c d
    let (ps, rest) ← readString cs
    return (.unit n :: ps, rest)
  | '\\' :: letter :: cs => do
    let c ← letterEscapes.lookup letter
    let (ps, rest) ← readString cs
    return (.char c :: ps, rest)
  | c :: cs =>
    if c.toNat < 0x20 || c = '\\' then none
    else do
      let (ps, rest) ← readString cs
      return (.char c :: ps, rest)

def isHighSurrogate (n : Nat) : Bool :=
  0xd800 ≤ n && n < 0xdc00

def isLowSurrogate (n : Nat) : Bool :=
  0xdc00 ≤ n && n < 0xe000

/-- The characters that the pieces of a string write, if they are a text. -/
def decode : List Piece → Option (List Char)
  | [] => some []
  | .char c :: ps => (decode ps).map (c :: ·)
  | .unit n :: .unit m :: ps =>
    if isHighSurrogate n then
      if isLowSurrogate m then
        (decode ps).map (Char.ofNat (0x10000 + (n - 0xd800) * 0x400 + (m - 0xdc00)) :: ·)
      else none
    else if isLowSurrogate n then none
    else (decode (.unit m :: ps)).map (Char.ofNat n :: ·)
  | .unit n :: ps =>
    if isHighSurrogate n || isLowSurrogate n then none
    else (decode ps).map (Char.ofNat n :: ·)

/-! ### Skipped values -/

def skipSpace (cs : List Char) : List Char :=
  cs.dropWhile fun c => c = ' ' || c = '\n' || c = '\t' || c = '\r'

/-- Skips one digit or more. -/
def skipDigits : List Char → Option (List Char)
  | [] => none
  | c :: cs => if isDigit c then some (cs.dropWhile isDigit) else none

/-- Skips a whole number; only zero itself starts with a zero. -/
def skipWhole : List Char → Option (List Char)
  | '0' :: cs => if cs.head?.any isDigit then none else some cs
  | cs => skipDigits cs

def skipFraction : List Char → Option (List Char)
  | '.' :: cs => skipDigits cs
  | cs => some cs

def skipSign : List Char → List Char
  | '+' :: cs => cs
  | '-' :: cs => cs
  | cs => cs

def skipExponent : List Char → Option (List Char)
  | 'e' :: cs => skipDigits (skipSign cs)
  | 'E' :: cs => skipDigits (skipSign cs)
  | cs => some cs

/-- Skips a number. -/
def skipNumber (cs : List Char) : Option (List Char) := do
  let cs ← skipWhole (if cs.head? = some '-' then cs.tail else cs)
  let cs ← skipFraction cs
  skipExponent cs

/-- Skips this very word. -/
def skipWord (word : String) (cs : List Char) : Option (List Char) :=
  if word.toList.isPrefixOf cs then some (cs.drop word.length) else none

/-- Skips a string whose opening quote has been read. -/
def skipString (cs : List Char) : Option (List Char) :=
  (readString cs).map Prod.snd

/-- Skips the key of a member and the colon behind it. -/
def skipKey : List Char → Option (List Char)
  | '"' :: cs => do
    let cs ← skipString cs
    match skipSpace cs with
    | ':' :: cs => some cs
    | _ => none
  | _ => none

/-- What remains of a list or an object to skip. -/
inductive Frame where
  | list
  | object
  deriving DecidableEq, Repr

/-- The character that closes a list or an object. -/
def Frame.close : Frame → Char
  | list => ']'
  | object => '\x7d'

mutual

/-- Skips a value, in at most `fuel` steps. -/
def skipValueWithin : Nat → List Char → Option (List Char)
  | 0, _ => none
  | fuel + 1, cs =>
    match skipSpace cs with
    | [] => none
    | c :: cs =>
      if c = 'n' then skipWord "ull" cs
      else if c = 't' then skipWord "rue" cs
      else if c = 'f' then skipWord "alse" cs
      else if c = '"' then skipString cs
      else if c = '[' then skipOpened fuel .list cs
      else if c = '\x7b' then skipOpened fuel .object cs
      else skipNumber (c :: cs)

/-- Skips a list or an object whose opening has been read. -/
def skipOpened : Nat → Frame → List Char → Option (List Char)
  | 0, _, _ => none
  | fuel + 1, frame, cs =>
    if (skipSpace cs).head? = some frame.close then some (skipSpace cs).tail
    else skipItems fuel frame cs

/-- Skips the items of a list or an object and its end. -/
def skipItems : Nat → Frame → List Char → Option (List Char)
  | 0, _, _ => none
  | fuel + 1, frame, cs => do
    let cs ←
      match frame with
      | .list => some cs
      | .object => skipKey (skipSpace cs)
    let cs ← skipValueWithin fuel cs
    match skipSpace cs with
    | [] => none
    | c :: cs =>
      if c = ',' then skipItems fuel frame cs
      else if c = frame.close then some cs
      else none

end

/-- Skips a value. Every third step at least takes a character. -/
def skipValue (cs : List Char) : Option (List Char) :=
  skipValueWithin (3 * cs.length + 3) cs

/-! ### The configuration -/

/-- Reads a string that has to be a text, whose opening quote has been read. -/
def readText (cs : List Char) : Option (String × List Char) := do
  let (ps, rest) ← readString cs
  return (String.ofList (← decode ps), rest)

/-- Reads the value of the mode: a text, or `null` for none. -/
def readMode (cs : List Char) : Option (Option String × List Char) :=
  match skipSpace cs with
  | [] => none
  | c :: cs =>
    if c = 'n' then (skipWord "ull" cs).map fun cs => (none, cs)
    else if c = '"' then (readText cs).map fun (s, cs) => (some s, cs)
    else none

/-- Reads the key of a member and the colon behind it. -/
def readKey (cs : List Char) : Option (String × List Char) := do
  match skipSpace cs with
  | '"' :: cs =>
    let (key, cs) ← readText cs
    match skipSpace cs with
    | ':' :: cs => some (key, cs)
    | _ => none
  | _ => none

/-- Reads the members of an object and its end, in at most `fuel` steps. The
mode, `found` if it occurred before, must not occur twice. -/
def readMembers : Nat → Option (Option String) → List Char → Option (Config × List Char)
  | 0, _, _ => none
  | fuel + 1, found, cs => do
    let (key, cs) ← readKey cs
    let (found, cs) ←
      if key = "mode" then
        match found with
        | some _ => none
        | none => (readMode cs).map fun (mode, cs) => (some mode, cs)
      else (skipValue cs).map fun cs => (found, cs)
    match skipSpace cs with
    | [] => none
    | c :: cs =>
      if c = ',' then readMembers fuel found cs
      else if c = '\x7d' then some (⟨found.getD none⟩, cs)
      else none

/-- Reads an object whose opening brace has been read. -/
def readObject (cs : List Char) : Option (Config × List Char) :=
  if (skipSpace cs).head? = some '\x7d' then some (⟨none⟩, (skipSpace cs).tail)
  else readMembers cs.length none cs

/-- Reads a list whose opening bracket has been read. -/
def readList (cs : List Char) : Option (Config × List Char) :=
  if (skipSpace cs).head? = some ']' then some (⟨none⟩, (skipSpace cs).tail)
  else do
    let (mode, cs) ← readMode cs
    match skipSpace cs with
    | ']' :: cs => some (⟨mode⟩, cs)
    | _ => none

/-- Reads a configuration. -/
def parse? (text : String) : Option Config := do
  let (config, rest) ←
    match skipSpace text.toList with
    | [] => none
    | c :: cs =>
      if c = '\x7b' then readObject cs
      else if c = '[' then readList cs
      else none
  if (skipSpace rest).isEmpty then some config else none

/-- The options that a configuration asks for. -/
def options (c : Config) : Except Scope.Error Scope.Options := do
  let mode ←
    match c.mode with
    | some name => Scope.Mode.parse name
    | none => pure .localByDefault
  return { Scope.Options.default with mode }

/-! ### Printing -/

/-- A digit of a hex number, in lower case. -/
def hexDigit (n : Nat) : Char :=
  if n < 10 then Char.ofNat ('0'.toNat + n) else Char.ofNat ('a'.toNat + (n - 10))

/-- A character as it stands in a string. -/
def escape (c : Char) : List Char :=
  if c = '/' then [c]
  else
    match letterEscapes.find? fun e => e.2 = c with
    | some (letter, _) => ['\\', letter]
    | none =>
      if c.toNat < 0x20 then
        ['\\', 'u', '0', '0', hexDigit (c.toNat / 16), hexDigit (c.toNat % 16)]
      else [c]

/-- A text as a string. -/
def quote (s : String) : String :=
  "\"" ++ String.ofList (s.toList.flatMap escape) ++ "\""

/-- The text of a configuration. -/
def print (c : Config) : String :=
  match c.mode with
  | some mode => "\x7b" ++ quote "mode" ++ ":" ++ quote mode ++ "\x7d"
  | none => "\x7b\x7d"

end Config
end StyleScope
