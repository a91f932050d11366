/-
# Reading tokens

At every point of the source one token is read: `scan` finds its kind and
how many characters belong to it, and `lexFrom` goes on behind it. The
scanners below return lengths, so a token's text is a `take` and what is left
is the matching `drop`; nothing is lost by construction.

A backslash escapes the next character unless that is a newline. After a hex
digit up to five more are taken, and one white space character that ends the
escape.

Key definitions: `Token.scan`, `Token.lex`, `Token.tokenize`, `Scanner`.
Key theorems: `Token.length_scan_pos`, `Token.textOf_lex`.
-/
import StyleScope.Token

namespace StyleScope
namespace Token

open Text

/-- What is read at the head of a text: the kind of the token and how many
characters belong to it. -/
structure Lexeme where
  kind : Kind
  length : Nat
  deriving DecidableEq, Repr

/-- The lexeme with `n` characters put in front of it. -/
def Lexeme.extend (n : Nat) (l : Lexeme) : Lexeme :=
  ⟨l.kind, n + l.length⟩

/-! ### Escapes and names -/

/-- Whether a backslash in front of this text starts an escape. -/
def escapes : List Char → Bool
  | [] => false
  | c :: _ => !isNewline c

/-- The length of what continues a hex escape: up to `n` digits, then one
white space character. -/
def hexTailLength : Nat → List Char → Nat
  | _, [] => 0
  | 0, c :: _ => if isSpace c then 1 else 0
  | n + 1, c :: cs =>
    if isHexDigit c then 1 + hexTailLength n cs
    else if isSpace c then 1
    else 0

/-- The length of an escape without its backslash. -/
def escapeLength : List Char → Nat
  | [] => 0
  | c :: cs => if isHexDigit c then 1 + hexTailLength 5 cs else 1

/-- The length of the longest run of name characters and escapes. -/
def nameLength : List Char → Nat
  | [] => 0
  | c :: cs =>
    if isName c then 1 + nameLength cs
    else if c = '\\' && escapes cs then
      1 + escapeLength cs + nameLength (cs.drop (escapeLength cs))
    else 0
termination_by cs => cs.length
decreasing_by all_goals simp only [List.length_cons, List.length_drop]; omega

/-- Whether a hyphen in front of this text starts a name. -/
def continuesHyphen : List Char → Bool
  | [] => false
  | c :: cs => isNameStart c || c = '-' || (c = '\\' && escapes cs)

/-- Whether a name starts here. -/
def startsName : List Char → Bool
  | [] => false
  | c :: cs =>
    if c = '-' then continuesHyphen cs
    else if c = '\\' then escapes cs
    else isNameStart c

/-- Whether a number sign in front of this text makes a hash. -/
def startsHash : List Char → Bool
  | [] => false
  | c :: cs => isName c || (c = '\\' && escapes cs)

/-! ### Numbers -/

def startsDigit : List Char → Bool
  | [] => false
  | c :: _ => isDigit c

/-- Whether a decimal point with a digit behind it starts here. -/
def startsFraction : List Char → Bool
  | [] => false
  | c :: cs => c = '.' && startsDigit cs

def isSign (c : Char) : Bool :=
  c = '+' || c = '-'

/-- Whether a number starts here. -/
def startsNumber : List Char → Bool
  | [] => false
  | c :: cs =>
    if isSign c then startsDigit cs || startsFraction cs
    else startsDigit (c :: cs) || startsFraction (c :: cs)

/-- The length of the run of characters at the head that `p` holds of. -/
def runLength (p : Char → Bool) (cs : List Char) : Nat :=
  (cs.takeWhile p).length

def signLength : List Char → Nat
  | [] => 0
  | c :: _ => if isSign c then 1 else 0

def fractionLength (cs : List Char) : Nat :=
  if startsFraction cs then 1 + runLength isDigit cs.tail else 0

/-- The length of an exponent: a mark, perhaps a sign, and digits. -/
def exponentLength : List Char → Nat
  | [] => 0
  | c :: cs =>
    if (c = 'e' || c = 'E') && startsDigit (cs.drop (signLength cs)) then
      1 + signLength cs + runLength isDigit (cs.drop (signLength cs))
    else 0

/-- The length of sign, whole part and fraction. -/
def decimalLength (cs : List Char) : Nat :=
  let whole := signLength cs + runLength isDigit (cs.drop (signLength cs))
  whole + fractionLength (cs.drop whole)

def numberLength (cs : List Char) : Nat :=
  decimalLength cs + exponentLength (cs.drop (decimalLength cs))

/-- A number, with the unit or the percent sign that follows it. -/
def scanNumber (cs : List Char) : Lexeme :=
  let n := numberLength cs
  if startsName (cs.drop n) then ⟨.dimension, n + nameLength (cs.drop n)⟩
  else if (cs.drop n).head? = some '%' then ⟨.percentage, n + 1⟩
  else ⟨.number, n⟩

/-! ### Comments, strings and urls -/

/-- The rest of a comment whose opening has been read. -/
def scanComment : List Char → Lexeme
  | [] => ⟨.comment false, 0⟩
  | c :: cs =>
    if c = '*' && cs.head? = some '/' then ⟨.comment true, 2⟩
    else (scanComment cs).extend 1

/-- The rest of a string whose opening quote has been read. A newline breaks
the string off and is left for the next token. -/
def scanString (quote : Char) : List Char → Lexeme
  | [] => ⟨.string false, 0⟩
  | c :: cs =>
    if c = quote then ⟨.string true, 1⟩
    else if isNewline c then ⟨.badString, 0⟩
    else if c = '\\' then
      (scanString quote (cs.drop (escapeLength cs))).extend (1 + escapeLength cs)
    else (scanString quote cs).extend 1
termination_by cs => cs.length
decreasing_by all_goals simp only [List.length_cons, List.length_drop]; omega

/-- How far a malformed url reaches: through the next parenthesis that is not
escaped. -/
def badUrlLength : List Char → Nat
  | [] => 0
  | c :: cs =>
    if c = ')' then 1
    else if c = '\\' && escapes cs then
      1 + escapeLength cs + badUrlLength (cs.drop (escapeLength cs))
    else 1 + badUrlLength cs
termination_by cs => cs.length
decreasing_by all_goals simp only [List.length_cons, List.length_drop]; omega

def isQuote (c : Char) : Bool :=
  c = '"' || c = '\x27'

/-- The rest of an unquoted url behind the opening parenthesis and the white
space there. White space inside is allowed only before the end. -/
def scanUrl : List Char → Lexeme
  | [] => ⟨.url false, 0⟩
  | c :: cs =>
    if c = ')' then ⟨.url true, 1⟩
    else if isSpace c then
      let n := 1 + runLength isSpace cs
      match cs.drop (runLength isSpace cs) with
      | [] => ⟨.url false, n⟩
      | d :: ds =>
        if d = ')' then ⟨.url true, n + 1⟩ else ⟨.badUrl, n + badUrlLength (d :: ds)⟩
    else if isQuote c || c = '(' then ⟨.badUrl, 1 + badUrlLength cs⟩
    else if c = '\\' then
      if escapes cs then
        (scanUrl (cs.drop (escapeLength cs))).extend (1 + escapeLength cs)
      else ⟨.badUrl, 1 + badUrlLength cs⟩
    else (scanUrl cs).extend 1
termination_by cs => cs.length
decreasing_by all_goals simp only [List.length_cons, List.length_drop]; omega

/-- A name, and what a parenthesis right behind it makes of it: a function,
or a url if the name is `url` and no quote follows. -/
def scanNamed (cs : List Char) : Lexeme :=
  let n := nameLength cs
  match cs.drop n with
  | [] => ⟨.ident, n⟩
  | c :: rest =>
    if c = '(' then
      if sameWord (String.ofList (cs.take n)) "url" then
        let body := rest.drop (runLength isSpace rest)
        if body.head?.any isQuote then ⟨.function, n + 1 + runLength isSpace rest⟩
        else (scanUrl body).extend (n + 1 + runLength isSpace rest)
      else ⟨.function, n + 1⟩
    else ⟨.ident, n⟩

/-! ### One token -/

/-- The characters that are tokens by themselves wherever they stand. -/
def punctuation? (c : Char) : Option Kind :=
  if c = '(' then some .leftParen
  else if c = ')' then some .rightParen
  else if c = ',' then some .comma
  else if c = ':' then some .colon
  else if c = ';' then some .semicolon
  else if c = '[' then some .leftBracket
  else if c = ']' then some .rightBracket
  else if c = '\x7b' then some .leftBrace
  else if c = '\x7d' then some .rightBrace
  else none

/-- The token at the head of the text `c :: cs`. -/
def scan (c : Char) (cs : List Char) : Lexeme :=
  if c = '/' && cs.head? = some '*' then (scanComment cs.tail).extend 2
  else if isSpace c then ⟨.whitespace, 1 + runLength isSpace cs⟩
  else if isQuote c then (scanString c cs).extend 1
  else if c = '#' then
    if startsHash cs then ⟨.hash (startsName cs), 1 + nameLength cs⟩ else ⟨.delim c, 1⟩
  else if startsNumber (c :: cs) then scanNumber (c :: cs)
  else if c = '-' && ['-', '>'].isPrefixOf cs then ⟨.cdc, 3⟩
  else if c = '<' && ['!', '-', '-'].isPrefixOf cs then ⟨.cdo, 4⟩
  else if c = '@' then
    if startsName cs then ⟨.atKeyword, 1 + nameLength cs⟩ else ⟨.delim c, 1⟩
  else if startsName (c :: cs) then scanNamed (c :: cs)
  else ⟨(punctuation? c).getD (.delim c), 1⟩

theorem nameLength_pos {c : Char} {cs : List Char} (h : startsName (c :: cs)) :
    0 < nameLength (c :: cs) := by
  rw [nameLength]
  rw [startsName] at h
  split at h
  next hc =>
    have : isName c := by subst hc; decide
    rw [if_pos this]; omega
  next =>
    split at h
    next hc =>
      by_cases hn : isName c
      · rw [if_pos hn]; omega
      · rw [if_neg hn, if_pos (by simp [hc, h])]; omega
    next =>
      have : isName c := by simp [isName, h]
      rw [if_pos this]; omega

theorem runLength_cons_pos {p : Char → Bool} {c : Char} (cs : List Char) (h : p c) :
    0 < runLength p (c :: cs) := by
  simp [runLength, h]

theorem numberLength_pos {c : Char} {cs : List Char} (h : startsNumber (c :: cs)) :
    0 < numberLength (c :: cs) := by
  suffices 0 < decimalLength (c :: cs) by unfold numberLength; omega
  rw [startsNumber] at h
  unfold decimalLength
  by_cases hs : isSign c
  · simp only [signLength, if_pos hs]; omega
  · simp only [signLength, if_neg hs, Nat.zero_add, List.drop_zero]
    rw [if_neg hs] at h
    by_cases hd : isDigit c
    · have := runLength_cons_pos (p := isDigit) cs hd; omega
    · have hf : startsFraction (c :: cs) := by simpa [startsDigit, hd] using h
      have hr : runLength isDigit (c :: cs) = 0 := by simp [runLength, hd]
      simp only [hr, List.drop_zero, fractionLength, if_pos hf]; omega

/-- Every token has at least one character. -/
theorem length_scan_pos (c : Char) (cs : List Char) : 0 < (scan c cs).length := by
  unfold scan
  repeat' split
  all_goals try (simp only [Lexeme.extend]; omega)
  case isTrue h =>
    have := numberLength_pos h
    simp only [scanNumber]
    repeat' split
    all_goals simp only; omega
  case isTrue h =>
    have := nameLength_pos h
    simp only [scanNamed]
    repeat' split
    all_goals simp only [Lexeme.extend]; omega

/-! ### All tokens -/

/-- The tokens of a text that starts at byte `start` of the source. -/
def lexFrom (start : Nat) : List Char → List Token
  | [] => []
  | c :: cs =>
    let n := (scan c cs).length
    let text := String.ofList ((c :: cs).take n)
    ⟨(scan c cs).kind, text, start⟩ :: lexFrom (start + text.utf8ByteSize) ((c :: cs).drop n)
termination_by cs => cs.length
decreasing_by
  have := length_scan_pos c cs
  simp only [List.length_cons, List.length_drop]; omega

/-- The tokens of a source. -/
def lex (source : String) : List Token :=
  lexFrom 0 source.toList

/-- The token at the end of a source of `size` bytes. -/
def endOf (size : Nat) : Token :=
  ⟨.eof, "", size⟩

/-- The tokens of a source and the end mark. -/
def tokenize (source : String) : List Token :=
  lex source ++ [endOf source.utf8ByteSize]

theorem textOf_lexFrom (start : Nat) (cs : List Char) :
    textOf (lexFrom start cs) = String.ofList cs := by
  fun_induction lexFrom start cs with
  | case1 => rfl
  | case2 start c cs n text ih =>
    rw [textOf_cons, ih, ← String.ofList_append, List.take_append_drop]

/-- The texts of the tokens in order are the source. -/
theorem textOf_lex (source : String) : textOf (lex source) = source := by
  rw [lex, textOf_lexFrom, String.ofList_toList]

end Token

/-- A source that is being read: the characters ahead, the byte offset of the
first of them, and the tokens found so far. -/
structure Scanner where
  ahead : List Char
  offset : Nat
  tokens : List Token
  deriving Repr

namespace Scanner

def ofSource (source : String) : Scanner :=
  ⟨source.toList, 0, []⟩

/-- Reads on to the end of the source and marks the end, once for each run. -/
def run (s : Scanner) : Scanner :=
  let size := s.offset + (String.ofList s.ahead).utf8ByteSize
  ⟨[], size, s.tokens ++ Token.lexFrom s.offset s.ahead ++ [Token.endOf size]⟩

/-- The tokens after `n` runs. -/
def tokensAfter (n : Nat) (source : String) : List Token :=
  (n.repeat run (ofSource source)).tokens

end Scanner
end StyleScope
