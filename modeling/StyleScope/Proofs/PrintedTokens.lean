/-
# The tokens of a printed list

What a reader makes of a printed tree depends on the tokens of the text. A list
is legible if they are the tokens of its nodes (`Tree.IsLegible`): no string
reaches into the next node, and no name takes the white space behind it for the
end of an escape. Only where a node has that white space behind it from the
start, it counts with the name (`splitEnding`).

The tokens of a simple selector without arguments are read as one, whatever
stands behind them (`IsUnit`), and the reader goes on behind them
(`Parsed.of_unit`). It does likewise behind the other tokens that a tree prints.

Key definitions: `Selector.Tree.pieces`, `Selector.tokensOf`,
`Selector.Tree.IsLegible`, `Selector.IsUnit`.
Key theorems: `Selector.Parsed.of_unit`, `Selector.Parsed.of_call`,
`Selector.isUnit_pseudoTokens`, `Selector.opening?_pseudoTokens`.
-/
import StyleScope.Proofs.Filler
import StyleScope.Proofs.SelectorRead

namespace StyleScope
namespace Selector

open Token (IsFiller isTrivia lexFrom textOf)

/-! ### The tokens of a tree -/

/-- The tokens of a pseudo-class with its parenthesis, if it has one. -/
def pseudoTokens (hasArguments : Bool) (o : Nat) : List Char → List Token
  | ':' :: ':' :: name => [⟨.colon, ":", o⟩, ⟨.colon, ":", o + 1⟩, word (o + 2) name]
  | ':' :: name => [⟨.colon, ":", o⟩, word (o + 1) name]
  | name => [word o name]
where
  word (o : Nat) (name : List Char) : Token :=
    if hasArguments then ⟨.function, String.ofList name ++ "(", o⟩
    else ⟨.ident, String.ofList name, o⟩

/-- The character that a combinator is, white space apart. -/
def Combinator.mark : Combinator → Char
  | .descendant => ' '
  | .child => '>'
  | .nextSibling => '+'
  | .subsequentSibling => '~'

/-- The tokens of the text of a node at byte `o`, up to its arguments. The
white space `ending` belongs to the last escape of a name. -/
def Kind.tokens (kind : Kind) (ending : String) (o : Nat) : List Token :=
  match kind with
  | .className name => [⟨.delim '.', ".", o⟩, ⟨.ident, name ++ ending, o + 1⟩]
  | .idName name => [⟨.hash (Token.startsName name.toList), "#" ++ name ++ ending, o⟩]
  | .pseudo name hasArguments => pseudoTokens hasArguments o name.toList
  | .universal => [⟨.delim '*', "*", o⟩]
  | .nesting => [⟨.delim '&', "&", o⟩]
  | .combinator c text => [⟨.delim c.mark, text, o⟩]
  | .tag text | .attribute text | .string text => lexFrom o text.toList
  | .root | .selector | .comment _ => []

/-- The white space that ends the last escape of a name, taken from the text
behind the name, and what is left of that text. -/
def splitEnding (name after : String) : String × String :=
  match after.toList with
  | [] => ("", "")
  | c :: cs =>
    if Text.isSpace c && Token.nameLength (name.toList ++ [c]) = name.toList.length + 1 then
      (String.singleton c, String.ofList cs)
    else ("", after)

/-- What a text is made of. -/
inductive Piece where
  /-- White space and comments. -/
  | filler (text : String)
  /-- Tokens, given by the byte where they start. -/
  | own (tokens : Nat → List Token)

/-- The pieces of a node without arguments and of the text behind it. -/
def Kind.pieces (kind : Kind) (after : String) : List Piece :=
  match kind with
  | .className name | .idName name =>
    [.own (kind.tokens (splitEnding name after).1), .filler (splitEnding name after).2]
  | .combinator .descendant text | .comment text => [.filler text, .filler after]
  | kind => [.own (kind.tokens ""), .filler after]

def commaPiece : Piece :=
  .own fun o => [⟨.comma, ",", o⟩]

def closePiece : Piece :=
  .own fun o => [⟨.rightParen, ")", o⟩]

mutual

def Tree.pieces : Tree → List Piece
  | .node .root spaces _ children =>
    .filler spaces.before :: (piecesList children ++ [.filler spaces.after])
  | .node .selector spaces _ children =>
    .filler spaces.before :: (piecesEach children ++ [.filler spaces.after])
  | .node (.pseudo name true) spaces _ children =>
    .filler spaces.before :: .own ((Kind.pseudo name true).tokens "") ::
      (piecesList children ++ [closePiece, .filler spaces.after])
  | .node kind spaces _ _ => .filler spaces.before :: kind.pieces spaces.after

def piecesEach : List Tree → List Piece
  | [] => []
  | t :: ts => t.pieces ++ piecesEach ts

/-- The pieces of the trees with a comma between two of them. -/
def piecesList : List Tree → List Piece
  | [] => []
  | t :: ts => t.pieces ++ piecesMore ts

def piecesMore : List Tree → List Piece
  | [] => []
  | t :: ts => commaPiece :: (t.pieces ++ piecesMore ts)

end

/-- The tokens of the pieces behind the white space and comments `before`,
which start at byte `o`. -/
def tokensOf (o : Nat) (before : String) : List Piece → List Token
  | [] => lexFrom o before.toList
  | .filler text :: ps => tokensOf o (before ++ text) ps
  | .own tokens :: ps =>
    let start := o + before.utf8ByteSize
    lexFrom o before.toList ++
      (tokens start ++ tokensOf (start + (textOf (tokens start)).utf8ByteSize) "" ps)

/-- The printed text has the tokens of the nodes: no token reaches from one
node into another. And no colon stands alone, so that none can start a
pseudo-class. -/
structure Tree.IsLegible (t : Tree) : Prop where
  tokens : Token.lex t.print = tokensOf 0 "" t.pieces
  colons : ∀ e ∈ t.outline 0, e.2.kind ≠ .tag ":" ∧ e.2.kind ≠ .tag "::"

instance (t : Tree) : Decidable t.IsLegible :=
  decidable_of_iff (Token.lex t.print = tokensOf 0 "" t.pieces ∧
      ∀ e ∈ t.outline 0, e.2.kind ≠ .tag ":" ∧ e.2.kind ≠ .tag "::")
    ⟨fun h => ⟨h.1, h.2⟩, fun h => ⟨h.tokens, h.colons⟩⟩

theorem pieces_leaf {kind : Kind} (hk : kind.isLeaf) (spaces : Spaces) (start : Nat) :
    (Tree.leaf kind spaces start).pieces = .filler spaces.before :: kind.pieces spaces.after := by
  cases kind with
  | root => cases hk
  | selector => cases hk
  | pseudo name hasArguments =>
    cases hasArguments with
    | true => cases hk
    | false => simp [Tree.leaf, Tree.pieces]
  | _ => simp [Tree.leaf, Tree.pieces]

theorem splitEnding_append (name after : String) :
    (splitEnding name after).1 ++ (splitEnding name after).2 = after := by
  rw [← String.toList_inj]
  unfold splitEnding
  split
  next h => simp [h]
  next h =>
    split
    · simp [h]
    · simp

theorem isFiller_splitEnding {after : String} (h : IsFiller after.toList) (name : String) :
    IsFiller (splitEnding name after).2.toList := by
  unfold splitEnding
  split
  · simpa using IsFiller.nil
  next c cs heq =>
    split
    next hc =>
      rw [heq] at h
      cases h with
      | space _ h => simpa using h
      | comment => exact absurd hc (by simp [Text.isSpace])
    · exact h

/-! ### What a reader finds -/

theorem opening?_of_ne {t : Token} (h : t.kind ≠ .colon) (ts : List Token) :
    opening? (t :: ts) = none := by
  unfold opening?
  exact if_neg h

/-- Whatever follows, these tokens are read as one simple selector without
arguments. -/
structure IsUnit (t : Token) (more : List Token) : Prop where
  trivia : t.isTrivia = false
  paren : t.kind ≠ .rightParen
  comma : t.kind ≠ .comma
  combinator : combinator? t.kind = none
  opening : ∀ rest, opening? (t :: (more ++ rest)) = none
  simple : ∀ rest, ∃ kind, simple t (more ++ rest) = .ok (kind, more.length)

namespace Parsed

variable {limit stop depth : Nat} {isFirst : Bool} {ts us : List Token} {t : Token}
  {p : Parts ts.length}

theorem of_unit {more : List Token} (h : Parsed limit stop depth isFirst ts p)
    (hd : ts.dropWhile isTrivia = t :: (more ++ us)) (hu : IsUnit t more) :
    ∃ kind atEnd us', ∃ (q : Parts us'.length) (hle : us'.length ≤ ts.length), us' = us ∧
      Selector.simple t (more ++ us) = .ok (kind, more.length) ∧
      Parsed limit stop depth false us' q ∧
      p = q.consSimple isFirst (ts.takeWhile isTrivia) (simpleNode kind t.start atEnd) hle := by
  obtain ⟨kind, hkind⟩ := hu.simple us
  cases h with
  | finish ht => cases hd.symm.trans ht
  | close ht hk =>
    cases hd.symm.trans ht
    exact absurd hk hu.paren
  | comma ht hk =>
    cases hd.symm.trans ht
    exact absurd hk hu.comma
  | combinator ht hk =>
    cases hd.symm.trans ht
    cases hu.combinator.symm.trans hk
  | call ht ho =>
    cases hd.symm.trans ht
    cases (hu.opening us).symm.trans ho
  | leaf ht _ _ _ _ hs hp hle =>
    cases hd.symm.trans ht
    cases hkind.symm.trans hs
    exact ⟨kind, _, _, _, hle, List.drop_left, hkind, hp, rfl⟩

theorem of_mark {c : Combinator} (h : Parsed limit stop depth isFirst ts p)
    (hd : ts.dropWhile isTrivia = t :: us) (hk : combinator? t.kind = some c) :
    ∃ (q : Parts (us.dropWhile isTrivia).length) (hle : (us.dropWhile isTrivia).length ≤ ts.length)
      (spaces : Spaces), Parsed limit stop depth false (us.dropWhile isTrivia) q ∧
      p = q.cons (.leaf (.combinator c t.text) spaces t.start) hle := by
  have hne : ∀ k, combinator? k = none → t.kind ≠ k := by
    rintro k hnone rfl
    cases hnone.symm.trans hk
  cases h with
  | finish ht => cases hd.symm.trans ht
  | close ht hparen =>
    cases hd.symm.trans ht
    exact absurd hparen (hne _ rfl)
  | comma ht hcomma =>
    cases hd.symm.trans ht
    exact absurd hcomma (hne _ rfl)
  | combinator ht hc hp hle =>
    cases hd.symm.trans ht
    cases hk.symm.trans hc
    exact ⟨_, hle, _, hp, rfl⟩
  | call ht ho =>
    cases hd.symm.trans ht
    cases (opening?_of_ne (hne _ rfl) _).symm.trans ho
  | leaf ht _ _ hn =>
    cases hd.symm.trans ht
    cases hn.symm.trans hk

theorem of_call {o : Opening} (h : Parsed limit stop depth isFirst ts p)
    (hd : ts.dropWhile isTrivia = t :: us) (hk : t.kind = .colon)
    (ho : opening? (t :: us) = some o) :
    ∃ (arguments : Parts o.body.length) (u : Token) (rest : List Token) (q : Parts rest.length)
      (hle : rest.length ≤ ts.length),
      Parsed limit stop (depth + 1) true o.body arguments ∧ arguments.rest = u :: rest ∧
      Parsed limit stop depth false rest q ∧
      p = q.consSimple isFirst (ts.takeWhile isTrivia)
        (.node (.pseudo o.name true) .none t.start
          (arguments.alternatives (Token.startOf stop o.body))) hle := by
  cases h with
  | finish ht => cases hd.symm.trans ht
  | close ht hparen =>
    cases hd.symm.trans ht
    cases hk.symm.trans hparen
  | comma ht hcomma =>
    cases hd.symm.trans ht
    cases hk.symm.trans hcomma
  | combinator ht hc =>
    cases hd.symm.trans ht
    rw [hk] at hc
    cases hc
  | call ht ho' _ ha hr hp hle =>
    cases hd.symm.trans ht
    cases ho.symm.trans ho'
    exact ⟨_, _, _, _, hle, ha, hr, hp, rfl⟩
  | leaf ht _ _ _ hn =>
    cases hd.symm.trans ht
    cases ho.symm.trans hn

theorem of_comma (h : Parsed limit stop depth isFirst ts p)
    (hd : ts.dropWhile isTrivia = t :: us) (hk : t.kind = .comma) :
    ∃ q : Parts us.length, Parsed limit stop depth true us q ∧
      p.nodes = [] ∧ p.others = q.alternatives (Token.startOf stop us) ∧ p.rest = q.rest := by
  cases h with
  | finish ht => cases hd.symm.trans ht
  | close ht hparen =>
    cases hd.symm.trans ht
    cases hk.symm.trans hparen
  | comma ht _ hp =>
    cases hd.symm.trans ht
    exact ⟨_, hp, rfl, rfl, rfl⟩
  | combinator ht hc =>
    cases hd.symm.trans ht
    rw [hk] at hc
    cases hc
  | call ht ho =>
    cases hd.symm.trans ht
    cases (opening?_of_ne (by rw [hk]; decide) _).symm.trans ho
  | leaf ht _ hcomma =>
    cases hd.symm.trans ht
    exact absurd hk hcomma

theorem of_close (h : Parsed limit stop depth isFirst ts p)
    (hd : ts.dropWhile isTrivia = t :: us) (hk : t.kind = .rightParen) :
    p.nodes = [] ∧ p.others = [] ∧ p.rest = t :: us := by
  cases h with
  | finish ht => cases hd.symm.trans ht
  | close ht =>
    cases hd.symm.trans ht
    exact ⟨rfl, rfl, rfl⟩
  | comma ht hcomma =>
    cases hd.symm.trans ht
    cases hk.symm.trans hcomma
  | combinator ht hc =>
    cases hd.symm.trans ht
    rw [hk] at hc
    cases hc
  | call ht ho =>
    cases hd.symm.trans ht
    cases (opening?_of_ne (by rw [hk]; decide) _).symm.trans ho
  | leaf ht hparen =>
    cases hd.symm.trans ht
    exact absurd hk hparen

end Parsed

/-! ### Pseudo-classes -/

theorem textOf_pseudoTokens (hasArguments : Bool) (o : Nat) (name : String) :
    textOf (pseudoTokens hasArguments o name.toList) =
      name ++ (if hasArguments then "(" else "") := by
  rw [← String.toList_inj]
  have hword : ∀ o cs, (pseudoTokens.word hasArguments o cs).text.toList =
      cs ++ (if hasArguments then "(" else "").toList := by
    intro o cs
    unfold pseudoTokens.word
    cases hasArguments <;> simp
  generalize hcs : name.toList = cs
  unfold pseudoTokens
  split <;> simp [hword, hcs]

/-- A name of a pseudo-class starts with one colon or two. -/
theorem exists_pseudoTokens {name : String} (h : name.toList.head? = some ':')
    (hasArguments : Bool) (o : Nat) :
    ∃ colons cs o', ∃ second : List Token, name = ":" ++ colons ++ String.ofList cs ∧
      pseudoTokens hasArguments o name.toList =
        ⟨.colon, ":", o⟩ :: (second ++ [pseudoTokens.word hasArguments o' cs]) ∧
      (second = [] ∧ colons = "" ∨ second = [⟨.colon, ":", o + 1⟩] ∧ colons = ":") := by
  cases hname : name.toList with
  | nil =>
    rw [hname] at h
    cases h
  | cons c cs =>
    rw [hname] at h
    obtain rfl := Option.some.inj h
    unfold pseudoTokens
    split
    next ds heq =>
      cases heq
      exact ⟨":", ds, o + 2, _, by rw [← String.toList_inj, hname]; simp, rfl, .inr ⟨rfl, rfl⟩⟩
    next ds _ heq =>
      cases heq
      exact ⟨"", _, o + 1, [], by rw [← String.toList_inj, hname]; simp, rfl, .inl ⟨rfl, rfl⟩⟩
    next hne => exact absurd rfl (hne cs)

/-- The tokens of a pseudo-class with arguments open it. -/
theorem opening?_pseudoTokens {name : String} (h : name.toList.head? = some ':') (o : Nat) :
    ∃ t more, pseudoTokens true o name.toList = t :: more ∧ t.kind = .colon ∧ t.start = o ∧
      ∀ rest, ∃ opener, opening? (t :: (more ++ rest)) = some ⟨name, opener, rest⟩ := by
  obtain ⟨colons, cs, o', second, hname, htokens, hsecond⟩ := exists_pseudoTokens h true o
  have hword (rest : List Token) :
      openingAfter? (":" ++ colons) (pseudoTokens.word true o' cs :: rest) =
        some ⟨name, pseudoTokens.word true o' cs, rest⟩ := by
    rw [openingAfter?, if_pos (by simp [pseudoTokens.word])]
    simp [pseudoTokens.word, hname]
  refine ⟨_, _, htokens, rfl, rfl, fun rest => ⟨pseudoTokens.word true o' cs, ?_⟩⟩
  rcases hsecond with ⟨rfl, rfl⟩ | ⟨rfl, rfl⟩
  · exact hword rest
  · exact hword rest

/-- The tokens of a pseudo-class without arguments are a simple selector. -/
theorem isUnit_pseudoTokens {name : String} (h : name.toList.head? = some ':') (o : Nat) :
    ∃ t more, pseudoTokens false o name.toList = t :: more ∧ t.start = o ∧ IsUnit t more := by
  obtain ⟨colons, cs, o', second, -, htokens, hsecond⟩ := exists_pseudoTokens h false o
  refine ⟨_, _, htokens, rfl, rfl, by simp, by simp, rfl, fun rest => ?_, fun rest => ?_⟩
  · rcases hsecond with ⟨rfl, -⟩ | ⟨rfl, -⟩ <;> rfl
  · rcases hsecond with ⟨rfl, -⟩ | ⟨rfl, -⟩ <;> exact ⟨_, rfl⟩

end Selector
end StyleScope
