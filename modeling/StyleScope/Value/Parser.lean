/-
# Reading declaration values

A value is read from its tokens from left to right. White space next to a
divider belongs to the divider, white space just inside parentheses to the
call; all other white space is a node. A colon directly in front of a call is
part of its name. Strings and calls that the value leaves open are kept open,
so the only error is nesting beyond the limit.

Key definitions: `Value.parseNodes`, `Value.parseWithin`, `Value.parse`,
`Value.complaints`.
-/
import StyleScope.SyntaxError
import StyleScope.Token.Lexer
import StyleScope.Trace
import StyleScope.Value

namespace StyleScope
namespace Value

open Text

/-! ### Nodes without arguments -/

/-- The divider that a token is, if it is one. -/
def dividerMark? : Token.Kind → Option Char
  | .comma => some ','
  | .delim c => if c = '/' then some '/' else none
  | _ => none

/-- Whether a call with a colon in front of its name starts here. -/
def startsColonCall : List Token → Bool
  | colon :: name :: _ => colon.kind = .colon && name.kind = .function
  | _ => false

/-- Whether a word cannot reach over the token at the head. -/
def endsWord : List Token → Bool
  | [] => true
  | t :: ts =>
    match t.kind with
    | .whitespace | .comment _ | .string _ | .url _ | .function | .leftParen | .rightParen => true
    | .colon => startsColonCall (t :: ts)
    | k => (dividerMark? k).isSome

/-- How many tokens a word takes. -/
def wordLength : List Token → Nat
  | [] => 0
  | t :: ts => if endsWord (t :: ts) then 0 else 1 + wordLength ts

/-- The text of a call up to its parenthesis, and behind it. -/
def splitCall (text : String) : String × String :=
  (String.ofList (text.toList.takeWhile (· ≠ '(')),
    String.ofList ((text.toList.dropWhile (· ≠ '(')).drop 1))

/-- A string token without its quotes. -/
def stringNode (t : Token) (terminated : Bool) : Node :=
  let body := t.text.toList.tail
  .string t.start (t.text.toList.headD '"')
    (String.ofList (if terminated then body.dropLast else body)) (!terminated)

/-- An unquoted url as a call with one word, or with none if it is empty. -/
def urlNode (t : Token) (terminated : Bool) : Node :=
  let name := t.text.toList.takeWhile (· ≠ '(')
  let inside := (t.text.toList.dropWhile (· ≠ '(')).drop 1
  let body := if terminated then inside.dropLast else inside
  let before := String.ofList (body.takeWhile isSpace)
  let word := dropEndWhile isSpace (body.dropWhile isSpace)
  let after := String.ofList ((body.dropWhile isSpace).drop word.length)
  let start := t.start + (String.ofList name).utf8ByteSize + 1 + before.utf8ByteSize
  .function t.start (String.ofList name) before
    (if word.isEmpty then [] else [.word start (String.ofList word)]) after (!terminated)

/-- A node without arguments that starts with the token `t`, and how many of
the tokens behind `t` belong to it. -/
def leaf (t : Token) (ts : List Token) : Node × Nat :=
  match t.kind with
  | .whitespace =>
    match ts with
    | [] => (.space t.start t.text, 0)
    | d :: rest =>
      match dividerMark? d.kind with
      | some mark =>
        let after := rest.takeWhile Token.isWhitespace
        (.divider d.start mark t.text (Token.textOf after), 1 + after.length)
      | none => (.space t.start t.text, 0)
  | .comment _ => (.comment t.start t.text, 0)
  | .string terminated => (stringNode t terminated, 0)
  | .url terminated => (urlNode t terminated, 0)
  | .rightParen => (.word t.start t.text, 0)
  | k =>
    match dividerMark? k with
    | some mark =>
      let after := ts.takeWhile Token.isWhitespace
      (.divider t.start mark "" (Token.textOf after), after.length)
    | none => (.word t.start (t.text ++ Token.textOf (ts.take (wordLength ts))), wordLength ts)

/-! ### Calls -/

/-- The start of a call: the colon in front of its name if there is one, the
token with its name and parenthesis, and the tokens behind it. -/
structure Opening where
  colon : String
  opener : Token
  body : List Token

/-- The call that starts here, if one does. -/
def opening? : List Token → Option Opening
  | [] => none
  | t :: ts =>
    if t.kind.opensParen then some ⟨"", t, ts⟩
    else
      match ts with
      | [] => none
      | name :: rest =>
        if t.kind = .colon && name.kind = .function then some ⟨t.text, name, rest⟩ else none

theorem length_body_lt {ts : List Token} {o : Opening} (h : opening? ts = some o) :
    o.body.length < ts.length := by
  unfold opening? at h
  repeat' split at h
  all_goals cases h
  all_goals simp only [List.length_cons]; omega

/-- A first node that is white space, taken off. -/
def takeFirstSpace : List Node → String × List Node
  | .space _ text :: ns => (text, ns)
  | ns => ("", ns)

/-- A last node that is white space, taken off. -/
def takeLastSpace : List Node → List Node × String
  | [] => ([], "")
  | [.space _ text] => ([], text)
  | n :: ns => (n :: (takeLastSpace ns).1, (takeLastSpace ns).2)

/-- The call with these arguments. -/
def Opening.call (o : Opening) (arguments : List Node) (unclosed : Bool) : Node :=
  let (name, before) := splitCall o.opener.text
  let (first, arguments) := takeFirstSpace arguments
  let (arguments, last) := takeLastSpace arguments
  .function o.opener.start (o.colon ++ name) (before ++ first) arguments last unclosed

/-! ### Whole values -/

/-- Nodes, and the tokens left, at most `bound` of them. -/
structure Nodes (bound : Nat) where
  nodes : List Node
  rest : List Token
  length_rest : rest.length ≤ bound

/-- The nodes with one more in front, for a longer list of tokens. -/
def Nodes.cons {m n : Nat} (node : Node) (ns : Nodes m) (h : m ≤ n) : Nodes n :=
  ⟨node :: ns.nodes, ns.rest, Nat.le_trans ns.length_rest h⟩

/-- Reads nodes to the end, or to the parenthesis that closes the call around
them if they are `nested`. -/
def parseNodes (limit depth : Nat) (nested : Bool) (ts : List Token) :
    Except SyntaxError (Nodes ts.length) :=
  match ts with
  | [] => .ok ⟨[], [], Nat.le_refl _⟩
  | t :: rest =>
    if nested && t.kind = .rightParen then .ok ⟨[], t :: rest, Nat.le_refl _⟩
    else
      match ho : opening? (t :: rest) with
      | none => do
        let (node, n) := leaf t rest
        let ns ← parseNodes limit depth nested (rest.drop n)
        return ns.cons node (by simp only [List.length_cons, List.length_drop]; omega)
      | some o =>
        have := length_body_lt ho
        if limit ≤ depth then .error (.nestingTooDeep limit o.opener.start)
        else do
          let arguments ← parseNodes limit (depth + 1) true o.body
          have := arguments.length_rest
          let ns ← parseNodes limit depth nested arguments.rest.tail
          return ns.cons (o.call arguments.nodes arguments.rest.isEmpty)
            (by simp only [List.length_tail]; omega)
termination_by ts.length
decreasing_by
  · simp only [List.length_cons, List.length_drop]; omega
  · assumption
  · simp only [List.length_tail]; omega

/-- Reads a value whose calls nest at most `limit` deep. -/
def parseWithin (limit : Nat) (source : String) : Except SyntaxError (List Node) :=
  (parseNodes limit 0 false (Token.lex source)).map Nodes.nodes

/-- Reads a value. -/
def parse (source : String) : Except SyntaxError (List Node) :=
  parseWithin nestingLimit source

/-! ### Warnings -/

/-- The warnings about malformed tokens that are kept in a word. -/
def malformedIn (ts : List Token) : List Event :=
  (ts.filter fun t => t.kind.isMalformed).map fun t =>
    .warning "css" ("kept malformed " ++ t.kind.display ++ " in a value verbatim")

/-- The warnings that reading a value gives: about all of it, or about what
stands before the place where reading fails. -/
def complaints (source : String) : List Event :=
  match parse source with
  | .ok _ => malformedIn (Token.lex source)
  | .error e => malformedIn ((Token.lex source).filter fun t => t.start < e.offset)

end Value
end StyleScope
