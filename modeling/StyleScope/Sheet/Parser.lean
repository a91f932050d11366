/-
# Reading stylesheets

A sheet is read item by item, in the same way at the top level and in every
block. An item is a comment, an at-rule, a rule, or a declaration: it reaches
to the first `;`, `{` or `}` outside parentheses and brackets, and `{` there
makes it a rule. A custom property is always a declaration, and braces in its
value are skipped in pairs.

Key definitions: `Sheet.itemLength`, `Sheet.readItem`, `Sheet.parseItems`,
`Sheet.parseWithin`, `Sheet.parse`.
-/
import StyleScope.Sheet
import StyleScope.SyntaxError
import StyleScope.Token.Lexer
import StyleScope.Trace

namespace StyleScope
namespace Sheet

open Text

/-! ### The extent of an item -/

/-- What may stand between items without meaning anything. -/
def isFiller (t : Token) : Bool :=
  match t.kind with
  | .whitespace | .semicolon | .cdo | .cdc => true
  | _ => false

/-- How many tokens stand in front of the first `;`, `{` or `}` outside of
`depth` open brackets; with `nestBraces` braces count as brackets. -/
def itemLength (nestBraces : Bool) : Nat → List Token → Nat
  | _, [] => 0
  | depth, t :: ts =>
    match t.kind with
    | .function | .leftParen | .leftBracket => 1 + itemLength nestBraces (depth + 1) ts
    | .rightParen | .rightBracket => 1 + itemLength nestBraces (depth - 1) ts
    | .leftBrace =>
      if nestBraces then 1 + itemLength nestBraces (depth + 1) ts
      else if depth = 0 then 0
      else 1 + itemLength nestBraces depth ts
    | .rightBrace =>
      if depth = 0 then 0
      else if nestBraces then 1 + itemLength nestBraces (depth - 1) ts
      else 1 + itemLength nestBraces depth ts
    | .semicolon => if depth = 0 then 0 else 1 + itemLength nestBraces depth ts
    | _ => 1 + itemLength nestBraces depth ts

/-- The tokens without the white space at the end. -/
def trimEnd (ts : List Token) : List Token :=
  (ts.reverse.dropWhile Token.isWhitespace).reverse

/-- The text of the tokens without the white space at the end, and the text of
that white space. -/
def splitEnd (ts : List Token) : String × String :=
  (Token.textOf (trimEnd ts), Token.textOf (ts.drop (trimEnd ts).length))

/-! ### Items -/

/-- The head of an item with a block. -/
inductive Head where
  | rule (head : RuleHead)
  | atRule (head : AtHead)
  deriving Repr

/-- The item with this block. -/
def Head.node (h : Head) (body : List Node) (after : String) : Node :=
  match h with
  | .rule head => .rule head body after
  | .atRule head => .atBlock head body after

/-- An item as far as it goes without reading a block, out of fewer than
`bound` tokens. -/
inductive Item (bound : Nat) where
  /-- An item that ends before `rest`. -/
  | done (node : Node) (rest : List Token) (length_rest : rest.length < bound)
  /-- An item whose block opens with `brace` and goes on with `body`. -/
  | opened (head : Head) (brace : Token) (body : List Token) (length_body : body.length < bound)

theorem length_lt_of_drop {ts us : List Token} {u : Token} {n : Nat} (h : ts.drop n = u :: us) :
    us.length < ts.length := by
  have hlength : ts.length - n = us.length + 1 := by
    rw [← List.length_drop, h, List.length_cons]
  omega

/-- Reads the at-rule whose name is the token `t`. -/
def readAtRule (before : String) (t : Token) (rest : List Token) :
    Item (rest.length + 1) :=
  let afterName := rest.takeWhile Token.isWhitespace
  let ahead := rest.drop afterName.length
  let n := itemLength false 0 ahead
  let (params, between) := splitEnd (ahead.take n)
  let head : AtHead :=
    ⟨before, String.ofList t.text.toList.tail, Token.textOf afterName, params, between, t.start⟩
  match h : ahead.drop n with
  | [] => .done (.atStatement head false) [] (Nat.succ_pos _)
  | u :: us =>
    have hlt : us.length < rest.length := length_lt_of_drop (List.drop_drop.symm.trans h)
    if u.kind = .leftBrace then .opened (.atRule head) u us (Nat.lt_succ_of_lt hlt)
    else if u.kind = .semicolon then .done (.atStatement head true) us (Nat.lt_succ_of_lt hlt)
    else .done (.atStatement head false) (u :: us) (Nat.succ_lt_succ hlt)

/-- Whether the item is a custom property: a name with two hyphens, and a
colon behind it. -/
def startsCustomProperty : List Token → Bool
  | [] => false
  | t :: ts =>
    t.kind = .ident && ['-', '-'].isPrefixOf t.text.toList &&
      ((ts.dropWhile Token.isWhitespace).head?.any fun u => u.kind = .colon)

/-- Splits the mark `!important` off the end of a value. White space in front
of it and inside belongs to the mark. -/
def splitImportant (value : List Token) : List Token × Option (List Token) :=
  match value.reverse with
  | [] => (value, none)
  | last :: front =>
    if last.kind = .ident && sameWord last.text "important" then
      match front.dropWhile Token.isWhitespace with
      | [] => (value, none)
      | bang :: front =>
        if bang.kind = .delim '!' then
          let kept := (front.dropWhile Token.isWhitespace).reverse
          (kept, some (value.drop kept.length))
        else (value, none)
    else (value, none)

/-- The warnings about malformed tokens that are kept in the value of `prop`. -/
def malformedIn (prop : String) (value : List Token) : List Event :=
  (value.filter fun t => t.kind.isMalformed).map fun t =>
    .warning "css" ("kept malformed " ++ t.kind.display ++ " in `" ++ prop ++ "` verbatim")

/-- The complaint about an item that is neither a rule nor a declaration. -/
def unknownItem (t : Token) (rest : List Token) : SyntaxError :=
  .unknownWord (trim (Token.textOf ((t :: rest).take (itemLength false 0 (t :: rest))))) t.start

/-- Reads the declaration that starts with the token `t`. -/
def readDeclaration (custom : Bool) (before : String) (t : Token) (rest : List Token) :
    Traced SyntaxError (Item (rest.length + 1)) :=
  let trivia := rest.takeWhile Token.isTrivia
  match h : rest.drop trivia.length with
  | [] => .fail (unknownItem t rest)
  | colon :: behind =>
    if t.kind = .ident && colon.kind = .colon then do
      let blanks := behind.takeWhile Token.isWhitespace
      let tail := behind.drop blanks.length
      let n := itemLength custom 0 tail
      let content := trimEnd (tail.take n)
      let (value, important) := splitImportant content
      .emitAll (malformedIn t.text content)
      let d : Declaration :=
        { before
          prop := t.text
          between := Token.textOf trivia ++ colon.text ++ Token.textOf blanks
          value := Token.textOf value
          important := important.map Token.textOf
          trailing := Token.textOf ((tail.take n).drop content.length)
          semicolon := (tail.drop n).head?.any fun u => u.kind = .semicolon
          offset := t.start }
      return .done (.declaration d) ((tail.drop n).drop (if d.semicolon then 1 else 0)) (by
        have : behind.length + 1 = (rest.drop trivia.length).length := by rw [h, List.length_cons]
        simp only [List.length_drop, tail] at *
        omega)
    else .fail (unknownItem t rest)

/-- Reads the rule or declaration that starts with the token `t`. -/
def readRuleOrDeclaration (before : String) (t : Token) (rest : List Token) :
    Traced SyntaxError (Item (rest.length + 1)) :=
  if startsCustomProperty (t :: rest) then readDeclaration true before t rest
  else
    let n := itemLength false 0 (t :: rest)
    match h : (t :: rest).drop n with
    | [] => readDeclaration false before t rest
    | brace :: body =>
      if brace.kind = .leftBrace then
        let (selector, between) := splitEnd ((t :: rest).take n)
        pure (.opened (.rule ⟨before, selector, between, t.start⟩) brace body (length_lt_of_drop h))
      else readDeclaration false before t rest

/-- Reads the item that starts with the token `t`, apart from its block. -/
def readItem (before : String) (t : Token) (rest : List Token) :
    Traced SyntaxError (Item (rest.length + 1)) :=
  if t.kind.isComment then
    pure (.done (.comment ⟨before, t.text, t.start⟩) rest (Nat.lt_succ_self _))
  else if t.kind = .atKeyword then pure (readAtRule before t rest)
  else readRuleOrDeclaration before t rest

/-! ### Sheets -/

/-- Nodes, the white space behind them, and the tokens left, at most `bound`
of them. -/
structure Items (bound : Nat) where
  nodes : List Node
  after : String
  rest : List Token
  length_rest : rest.length ≤ bound

/-- The items with one more in front, for a longer list of tokens. -/
def Items.cons {m n : Nat} (node : Node) (items : Items m) (h : m ≤ n) : Items n :=
  ⟨node :: items.nodes, items.after, items.rest, Nat.le_trans items.length_rest h⟩

/-- Behind the token that closes a block comes less than the block was read
from. -/
theorem Items.length_lt_of_rest {n : Nat} (items : Items n) {t : Token} {ts : List Token}
    (h : items.rest = t :: ts) : ts.length < n := by
  have hle := items.length_rest
  rw [h, List.length_cons] at hle
  exact hle

/-- Reads items to the end or to a brace that closes the block around them. -/
def parseItems (limit depth : Nat) (ts : List Token) : Traced SyntaxError (Items ts.length) :=
  let before := Token.textOf (ts.takeWhile isFiller)
  match ht : ts.dropWhile isFiller with
  | [] => pure ⟨[], before, [], Nat.zero_le _⟩
  | t :: rest =>
    have hlt := Token.length_lt_of_dropWhile ht
    if t.kind = .rightBrace then
      pure ⟨[], before, t :: rest, Nat.succ_le_of_lt hlt⟩
    else do
      match ← readItem before t rest with
      | .done node rest' hle =>
        have hdone : rest'.length < ts.length := Nat.lt_of_le_of_lt (Nat.le_of_lt_succ hle) hlt
        let items ← parseItems limit depth rest'
        return items.cons node (Nat.le_of_lt hdone)
      | .opened head brace body hle =>
        if limit ≤ depth then .fail (.nestingTooDeep limit brace.start)
        else
          have hbody : body.length < ts.length := Nat.lt_of_le_of_lt (Nat.le_of_lt_succ hle) hlt
          let block ← parseItems limit (depth + 1) body
          match hr : block.rest with
          | [] => .fail (.unclosedBlock brace.start)
          | _ :: rest' =>
            have hblock : rest'.length < ts.length :=
              Nat.lt_trans (block.length_lt_of_rest hr) hbody
            let items ← parseItems limit depth rest'
            return items.cons (head.node block.nodes block.after) (Nat.le_of_lt hblock)
termination_by ts.length

/-- Reads a sheet whose blocks nest at most `limit` deep. -/
def parseWithin (limit : Nat) (source : String) : Traced SyntaxError Sheet := do
  let items ← parseItems limit 0 (Token.lex source)
  match items.rest with
  | [] => return ⟨items.nodes, items.after⟩
  | t :: _ => .fail (.unexpectedCloseBrace t.start)

/-- Reads a sheet. -/
def parse (source : String) : Traced SyntaxError Sheet :=
  parseWithin nestingLimit source

end Sheet
end StyleScope
