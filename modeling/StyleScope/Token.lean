/-
# Tokens

A stylesheet is read as a sequence of tokens. Comments and white space are
tokens too, and each token keeps its text and the byte offset where it
starts, so the texts of the tokens in order are the source.

Key definitions: `Token`, `Token.Kind`, `Token.textOf`.
-/
import StyleScope.Text

namespace StyleScope

namespace Token

/-- What a token is. The text of a function token includes the parenthesis
that opens its arguments; a `terminated` flag is false when the source ended
inside the token. -/
inductive Kind where
  | ident
  | function
  | atKeyword
  /-- The flag tells whether the text behind the number sign is a name that
  could stand alone. -/
  | hash (isIdent : Bool)
  | string (terminated : Bool)
  | badString
  | url (terminated : Bool)
  | badUrl
  | delim (c : Char)
  | number
  | percentage
  | dimension
  | whitespace
  | comment (terminated : Bool)
  | cdo
  | cdc
  | colon
  | semicolon
  | comma
  | leftBracket
  | rightBracket
  | leftParen
  | rightParen
  | leftBrace
  | rightBrace
  | eof
  deriving DecidableEq, Repr, Inhabited

namespace Kind

/-- The name of a kind in messages. -/
def display : Kind → String
  | ident => "<ident>"
  | function => "<function>"
  | atKeyword => "<at-keyword>"
  | hash true => "<hash (id)>"
  | hash false => "<hash (unrestricted)>"
  | string _ => "<string>"
  | badString => "<bad-string>"
  | url _ => "<url>"
  | badUrl => "<bad-url>"
  | delim c => "<delim:" ++ String.singleton c ++ ">"
  | number => "<number>"
  | percentage => "<percentage>"
  | dimension => "<dimension>"
  | whitespace => "<whitespace>"
  | comment _ => "<comment>"
  | cdo => "<CDO>"
  | cdc => "<CDC>"
  | colon => "<colon>"
  | semicolon => "<semicolon>"
  | comma => "<comma>"
  | leftBracket => "<[>"
  | rightBracket => "<]>"
  | leftParen => "<(>"
  | rightParen => "<)>"
  | leftBrace => "<\x7b>"
  | rightBrace => "<\x7d>"
  | eof => "<EOF>"

/-- For the kinds that the end of the source can cut short, whether it did not. -/
def terminated? : Kind → Option Bool
  | string terminated => some terminated
  | url terminated => some terminated
  | comment terminated => some terminated
  | _ => none

def isComment : Kind → Bool
  | comment _ => true
  | _ => false

/-- White space and comments carry no meaning of their own. -/
def isTrivia : Kind → Bool
  | whitespace | comment _ => true
  | _ => false

/-- The kinds that open parentheses. -/
def opensParen : Kind → Bool
  | function | leftParen => true
  | _ => false

/-- The kinds of text that broke off; they are kept as they stand. -/
def isMalformed : Kind → Bool
  | badString | badUrl => true
  | _ => false

end Kind

end Token

/-- A token: what it is, its text, and the byte offset of its first character. -/
structure Token where
  kind : Token.Kind
  text : String
  start : Nat
  deriving DecidableEq, Repr, Inhabited

namespace Token

/-- The byte offset just after the token. -/
def stop (t : Token) : Nat :=
  t.start + t.text.utf8ByteSize

def isTrivia (t : Token) : Bool :=
  t.kind.isTrivia

def isWhitespace (t : Token) : Bool :=
  t.kind = .whitespace

/-- The text that a run of tokens covers. -/
def textOf : List Token → String
  | [] => ""
  | t :: ts => t.text ++ textOf ts

@[simp] theorem textOf_nil : textOf [] = "" := rfl

@[simp] theorem textOf_cons (t : Token) (ts : List Token) :
    textOf (t :: ts) = t.text ++ textOf ts := rfl

@[simp] theorem textOf_append (ts us : List Token) :
    textOf (ts ++ us) = textOf ts ++ textOf us := by
  induction ts with
  | nil => simp
  | cons t ts ih => simp [ih, String.append_assoc]

theorem length_dropWhile_le (p : Token → Bool) (ts : List Token) :
    (ts.dropWhile p).length ≤ ts.length :=
  (List.dropWhile_suffix p).length_le

/-- What follows the first token behind a run is shorter than the whole. -/
theorem length_lt_of_dropWhile {p : Token → Bool} {ts rest : List Token} {t : Token}
    (h : ts.dropWhile p = t :: rest) : rest.length < ts.length := by
  have := length_dropWhile_le p ts
  rw [h, List.length_cons] at this
  exact this

/-- Where the run of tokens starts, or `stop` if it is empty. -/
def startOf (stop : Nat) : List Token → Nat
  | [] => stop
  | t :: _ => t.start

/-- How many tokens reach through the one that closes `depth` brackets and one
more, where `opens` and `closes` tell which tokens count. -/
def closingLength (opens closes : Kind → Bool) : Nat → List Token → Option Nat
  | _, [] => none
  | depth, t :: ts =>
    if opens t.kind then (closingLength opens closes (depth + 1) ts).map (1 + ·)
    else if closes t.kind then
      match depth with
      | 0 => some 1
      | depth + 1 => (closingLength opens closes depth ts).map (1 + ·)
    else (closingLength opens closes depth ts).map (1 + ·)

end Token
end StyleScope
