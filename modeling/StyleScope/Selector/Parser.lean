/-
# Reading selectors

A selector list is read from its tokens, alternative by alternative. The
grammar is applied loosely: what is not a known simple selector is kept as a
tag, so only brackets and nesting can be wrong.

White space between two simple selectors is a descendant combinator; a comment
alone is a node of its own. Around `>`, `+` and `~` both belong to the
combinator, in front of an alternative to its first simple selector and at
its end to its last.

Key definitions: `Selector.parseParts`, `Selector.parseWithin`,
`Selector.parse`, `Selector.escapeEnd?`.
-/
import StyleScope.Selector
import StyleScope.SyntaxError
import StyleScope.Token.Lexer

namespace StyleScope
namespace Selector

open Text

/-! ### Simple selectors -/

/-- The combinator that a token is, white space apart. -/
def combinator? : Token.Kind → Option Combinator
  | .delim c =>
    if c = '>' then some .child
    else if c = '+' then some .nextSibling
    else if c = '~' then some .subsequentSibling
    else none
  | _ => none

/-- Whether a compound cannot go on with these tokens. -/
def endsCompound : List Token → Bool
  | [] => true
  | t :: _ =>
    t.isTrivia || (combinator? t.kind).isSome || t.kind = .comma || t.kind = .rightParen

/-- The place in a name of the white space that ends a hex escape at its very
end. White space at the end of a name is part of an escape: either it is
escaped itself, or it follows the hex digits; only then is it cut off. -/
def escapeEnd? (name : String) : Option Nat :=
  match name.toList.reverse with
  | [] => none
  | c :: cs =>
    if isSpace c && (cs.takeWhile (· = '\\')).length % 2 = 0 then
      some (String.ofList cs.reverse).utf8ByteSize
    else none

/-- The name without the white space that ends an escape, and that white space. -/
def splitEscapeEnd (name : String) : String × String :=
  if (escapeEnd? name).isSome then
    (String.ofList name.toList.dropLast,
      String.ofList (name.toList.drop (name.toList.length - 1)))
  else (name, "")

/-- The kind of a node without arguments that starts with the token `t`, and
how many of the tokens behind `t` belong to it. -/
def simple (t : Token) (ts : List Token) : Except SyntaxError (Kind × Nat) :=
  match t.kind with
  | .delim c =>
    if c = '.' then
      match ts with
      | [] => .ok (.className "", 0)
      | name :: _ =>
        if name.kind = .ident then .ok (.className name.text, 1) else .ok (.className "", 0)
    else if c = '#' then .ok (.idName "", 0)
    else if c = '*' then .ok (.universal, 0)
    else if c = '&' then .ok (.nesting, 0)
    else .ok (.tag t.text, 0)
  | .hash _ => .ok (.idName (String.ofList t.text.toList.tail), 0)
  | .colon =>
    let second := ts.takeWhile (·.kind = .colon) |>.take 1
    let colons := t.text ++ Token.textOf second
    match ts.drop second.length with
    | [] => .ok (.tag colons, second.length)
    | name :: _ =>
      if name.kind = .ident then .ok (.pseudo (colons ++ name.text) false, second.length + 1)
      else .ok (.tag colons, second.length)
  | .leftBracket =>
    match Token.closingLength (· = .leftBracket) (· = .rightBracket) 0 ts with
    | some n => .ok (.attribute (t.text ++ Token.textOf (ts.take n)), n)
    | none => .error (.unclosedBracket '[' t.start)
  | .function | .leftParen =>
    match Token.closingLength Token.Kind.opensParen (· = .rightParen) 0 ts with
    | some n => .ok (.tag (t.text ++ Token.textOf (ts.take n)), n)
    | none => .error (.unclosedBracket '(' t.start)
  | .rightBracket => .error (.unexpectedCloseBracket ']' t.start)
  | .string _ => .ok (.string t.text, 0)
  | _ => .ok (.tag t.text, 0)

/-- The node of a simple selector. Where a compound ends in a hex escape, the
white space that ends the escape also ends the compound: it stands behind the
node instead of in its name. -/
def simpleNode (kind : Kind) (start : Nat) (atEnd : Bool) : Tree :=
  match kind with
  | .className name =>
    if atEnd then
      .leaf (.className (splitEscapeEnd name).1) ⟨"", (splitEscapeEnd name).2⟩ start
    else .leaf kind .none start
  | .idName name =>
    if atEnd then .leaf (.idName (splitEscapeEnd name).1) ⟨"", (splitEscapeEnd name).2⟩ start
    else .leaf kind .none start
  | _ => .leaf kind .none start

/-! ### Pseudo-classes with arguments -/

/-- The start of a pseudo-class with arguments: its name with the colons, the
token that opens the arguments, and the tokens behind it. -/
structure Opening where
  name : String
  opener : Token
  body : List Token

/-- The pseudo-class with arguments whose name stands here. A name that holds
white space behind its parenthesis is no pseudo-class. -/
def openingAfter? (colons : String) : List Token → Option Opening
  | [] => none
  | t :: ts =>
    if t.kind = .function && t.text.toList.getLast? = some '(' then
      some ⟨colons ++ String.ofList t.text.toList.dropLast, t, ts⟩
    else none

/-- The pseudo-class with arguments that starts here, with one colon or two. -/
def opening? : List Token → Option Opening
  | [] => none
  | t :: ts =>
    if t.kind = .colon then
      match ts with
      | [] => none
      | u :: us =>
        if u.kind = .colon then openingAfter? (t.text ++ u.text) us else openingAfter? t.text ts
    else none

theorem length_body_lt_of_openingAfter? {colons : String} {ts : List Token} {o : Opening}
    (h : openingAfter? colons ts = some o) : o.body.length < ts.length := by
  cases ts with
  | nil => cases h
  | cons t ts =>
    rw [openingAfter?] at h
    split at h
    · cases h; simp only [List.length_cons]; omega
    · cases h

theorem length_body_lt {ts : List Token} {o : Opening} (h : opening? ts = some o) :
    o.body.length < ts.length := by
  unfold opening? at h
  repeat' split at h
  all_goals first
    | exact absurd h (by simp)
    | exact Nat.lt_of_lt_of_le (length_body_lt_of_openingAfter? h)
        (by simp only [List.length_cons]; omega)

/-! ### Alternatives -/

/-- What is read from some place in an alternative on: the nodes up to its
end, the white space and comments there if nothing stands in front of them,
the alternatives that follow, and the tokens left, at most `bound` of them. -/
structure Parts (bound : Nat) where
  nodes : List Tree
  trailing : String
  others : List Tree
  rest : List Token
  length_rest : rest.length ≤ bound

/-- The parts with one more node in front, for a longer list of tokens. White
space and comments at the end of the alternative go behind its last node. -/
def Parts.cons {m n : Nat} (t : Tree) (p : Parts m) (h : m ≤ n) : Parts n :=
  match p.nodes with
  | [] =>
    ⟨[t.setAfter (t.spaces.after ++ p.trailing)], "", p.others, p.rest,
      Nat.le_trans p.length_rest h⟩
  | nodes => ⟨t :: nodes, p.trailing, p.others, p.rest, Nat.le_trans p.length_rest h⟩

/-- The alternative with these parts. -/
def Parts.alternative {n : Nat} (p : Parts n) (start : Nat) : Tree :=
  .node .selector ⟨p.trailing, ""⟩ start p.nodes

/-- All alternatives, the first of which starts at byte `start`. -/
def Parts.alternatives {n : Nat} (p : Parts n) (start : Nat) : List Tree :=
  p.alternative start :: p.others

/-- The node for the white space and comments between two simple selectors. -/
def spacingNode (trivia : List Token) : Tree :=
  if trivia.any Token.isWhitespace then
    .leaf (.combinator .descendant (Token.textOf trivia)) .none (Token.startOf 0 trivia)
  else .leaf (.comment (Token.textOf trivia)) .none (Token.startOf 0 trivia)

/-- The parts with a simple selector and the white space and comments in front
of it: the first of an alternative takes them, otherwise they are a node. -/
def Parts.consSimple {m n : Nat} (isFirst : Bool) (trivia : List Token) (t : Tree) (p : Parts m)
    (h : m ≤ n) : Parts n :=
  if isFirst then p.cons (t.setBefore (Token.textOf trivia)) h
  else if trivia.isEmpty then p.cons t h
  else (p.cons t h).cons (spacingNode trivia) (Nat.le_refl n)

/-- Reads the rest of an alternative and the alternatives that follow it, to
the end or to a parenthesis that is not opened here. `stop` is the byte offset
of the end of the source. -/
def parseParts (limit stop depth : Nat) (isFirst : Bool) (ts : List Token) :
    Except SyntaxError (Parts ts.length) :=
  let trivia := ts.takeWhile Token.isTrivia
  match ht : ts.dropWhile Token.isTrivia with
  | [] => .ok ⟨[], Token.textOf trivia, [], [], Nat.zero_le _⟩
  | t :: rest =>
    have hlt := Token.length_lt_of_dropWhile ht
    if t.kind = .rightParen then
      .ok ⟨[], Token.textOf trivia, [], t :: rest, by simp only [List.length_cons]; omega⟩
    else if t.kind = .comma then do
      let p ← parseParts limit stop depth true rest
      have := p.length_rest
      return ⟨[], Token.textOf trivia, p.alternatives (Token.startOf stop rest), p.rest, by omega⟩
    else
      match combinator? t.kind with
      | some c => do
        let after := rest.takeWhile Token.isTrivia
        have := Token.length_dropWhile_le Token.isTrivia rest
        let p ← parseParts limit stop depth false (rest.dropWhile Token.isTrivia)
        return p.cons
          (.leaf (.combinator c t.text) ⟨Token.textOf trivia, Token.textOf after⟩ t.start)
          (by omega)
      | none =>
        match ho : opening? (t :: rest) with
        | some o =>
          have hb := length_body_lt ho
          if limit ≤ depth then .error (.nestingTooDeep limit o.opener.start)
          else do
            let arguments ← parseParts limit stop (depth + 1) true o.body
            have ha := arguments.length_rest
            match hr : arguments.rest with
            | [] => .error (.unclosedBracket '(' o.opener.start)
            | _ :: rest' =>
              have hc : rest'.length < arguments.rest.length := by simp [hr]
              let p ← parseParts limit stop depth false rest'
              return p.consSimple isFirst trivia
                (.node (.pseudo o.name true) .none t.start
                  (arguments.alternatives (Token.startOf stop o.body)))
                (by simp only [List.length_cons] at hb; omega)
        | none => do
          let (kind, n) ← simple t rest
          let p ← parseParts limit stop depth false (rest.drop n)
          return p.consSimple isFirst trivia
            (simpleNode kind t.start (endsCompound (rest.drop n)))
            (by simp only [List.length_drop]; omega)
termination_by ts.length
decreasing_by
  · exact hlt
  · omega
  · simp only [List.length_cons] at hb; omega
  · simp only [List.length_cons] at hb; omega
  · simp only [List.length_drop]; omega

/-- Reads a selector list whose pseudo-classes nest at most `limit` deep. -/
def parseWithin (limit : Nat) (source : String) : Except SyntaxError Tree := do
  let ts := Token.lex source
  let stop := source.utf8ByteSize
  let p ← parseParts limit stop 0 true ts
  match p.rest with
  | [] => return .node .root .none 0 (p.alternatives (Token.startOf stop ts))
  | t :: _ => throw (.unexpectedCloseBracket ')' t.start)

/-- Reads a selector list. -/
def parse (source : String) : Except SyntaxError Tree :=
  parseWithin nestingLimit source

end Selector
end StyleScope
