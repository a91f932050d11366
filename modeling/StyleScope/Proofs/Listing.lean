/-
# Reading items in front of other tokens

The reader of items carries bounds that make it terminate. Without them it is
a plain recursion over cuts: `itemCut` gives an item and the tokens left
behind it, and `listing` goes on from there (`cut_readItem`, `listing_eq`).

What an item is depends on the tokens up to its end, and the end is found by
looking for it. So an item that has an end is read the same in front of any
other tokens (`itemCut_append`); one that the tokens ran out on may go on.
`Node.endsItself` tells which items cannot go on: those with a block or a
semicolon, and comments. A list of items with such an item at its end is read
in front of other tokens as if it stood alone (`Parsed.listing_append`).

Key definitions: `Sheet.Cut`, `Sheet.itemCut`, `Sheet.listing`,
`Sheet.Node.endsItself`.
Key theorems: `Sheet.listing_eq`, `Sheet.itemCut_append`,
`Sheet.Parsed.listing_append`.
-/
import StyleScope.Proofs.SheetPrint

namespace StyleScope
namespace Sheet

open Token (isTrivia isWhitespace textOf)

/-! ### Items without bounds -/

/-- An item as far as it goes without reading a block, and the tokens left. -/
inductive Cut where
  | done (node : Node) (rest : List Token)
  | opened (head : Head) (brace : Token) (body : List Token)

def Item.cut {n : Nat} : Item n → Cut
  | .done node rest _ => .done node rest
  | .opened head brace body _ => .opened head brace body

/-- The tokens in front of the end of an item. -/
def itemFront (nestBraces : Bool) (ts : List Token) : List Token :=
  ts.take (itemLength nestBraces 0 ts)

/-- The tokens from the end of an item on. -/
def itemEnd (nestBraces : Bool) (ts : List Token) : List Token :=
  ts.drop (itemLength nestBraces 0 ts)

def atHead (before : String) (t : Token) (rest : List Token) : AtHead :=
  let front := itemFront false (rest.dropWhile isWhitespace)
  ⟨before, String.ofList t.text.toList.tail, textOf (rest.takeWhile isWhitespace),
    (splitEnd front).1, (splitEnd front).2, t.start⟩

def atRuleCut (before : String) (t : Token) (rest : List Token) : Cut :=
  match itemEnd false (rest.dropWhile isWhitespace) with
  | [] => .done (.atStatement (atHead before t rest) false) []
  | u :: us =>
    if u.kind = .leftBrace then .opened (.atRule (atHead before t rest)) u us
    else if u.kind = .semicolon then .done (.atStatement (atHead before t rest) true) us
    else .done (.atStatement (atHead before t rest) false) (u :: us)

/-- The declaration with these texts in front of the value, and the value and
its end in `tail`. -/
def declarationOf (custom : Bool) (before : String) (t : Token) (between : String)
    (tail : List Token) : Declaration :=
  let content := trimEnd (itemFront custom tail)
  { before
    prop := t.text
    between
    value := textOf (splitImportant content).1
    important := (splitImportant content).2.map textOf
    trailing := textOf ((itemFront custom tail).drop content.length)
    semicolon := (itemEnd custom tail).head?.any fun u => u.kind = .semicolon
    offset := t.start }

def declarationCut (custom : Bool) (before : String) (t : Token) (rest : List Token) :
    Option Cut :=
  match rest.dropWhile isTrivia with
  | [] => none
  | colon :: behind =>
    if t.kind = .ident && colon.kind = .colon then
      let tail := behind.dropWhile isWhitespace
      let d := declarationOf custom before t
        (textOf (rest.takeWhile isTrivia) ++ colon.text ++
          textOf (behind.takeWhile isWhitespace)) tail
      some (.done (.declaration d) ((itemEnd custom tail).drop (if d.semicolon then 1 else 0)))
    else none

def ruleOrDeclarationCut (before : String) (t : Token) (rest : List Token) : Option Cut :=
  if startsCustomProperty (t :: rest) then declarationCut true before t rest
  else
    match itemEnd false (t :: rest) with
    | [] => declarationCut false before t rest
    | brace :: body =>
      if brace.kind = .leftBrace then
        let front := itemFront false (t :: rest)
        some (.opened (.rule ⟨before, (splitEnd front).1, (splitEnd front).2, t.start⟩) brace body)
      else declarationCut false before t rest

/-- The item that starts with the token `t`, and the tokens left behind it. -/
def itemCut (before : String) (t : Token) (rest : List Token) : Option Cut :=
  if t.kind.isComment then some (.done (.comment ⟨before, t.text, t.start⟩) rest)
  else if t.kind = .atKeyword then some (atRuleCut before t rest)
  else ruleOrDeclarationCut before t rest

theorem drop_length_takeWhile (p : Token → Bool) (ts : List Token) :
    ts.drop (ts.takeWhile p).length = ts.dropWhile p := by
  induction ts with
  | nil => rfl
  | cons t ts ih =>
    by_cases ht : p t
    · simpa [ht] using ih
    · simp [ht]

theorem cut_readAtRule (before : String) (t : Token) (rest : List Token) :
    (readAtRule before t rest).cut = atRuleCut before t rest := by
  simp only [readAtRule, atRuleCut, itemEnd, atHead, itemFront, ← drop_length_takeWhile]
  split
  next h =>
    simp only [h]
    rfl
  next u us h =>
    simp only [h]
    split
    · rfl
    split <;> rfl

theorem cut_readDeclaration (custom : Bool) (before : String) (t : Token) (rest : List Token) :
    (readDeclaration custom before t rest).result.toOption.map Item.cut =
      declarationCut custom before t rest := by
  simp only [readDeclaration, declarationCut, ← drop_length_takeWhile]
  split
  next h =>
    simp only [h]
    rfl
  next colon behind h =>
    simp only [h]
    split <;> rfl

theorem cut_readRuleOrDeclaration (before : String) (t : Token) (rest : List Token) :
    (readRuleOrDeclaration before t rest).result.toOption.map Item.cut =
      ruleOrDeclarationCut before t rest := by
  simp only [readRuleOrDeclaration, ruleOrDeclarationCut, itemEnd, itemFront]
  split
  · exact cut_readDeclaration true before t rest
  split
  next h =>
    simp only [h]
    exact cut_readDeclaration false before t rest
  next brace body h =>
    simp only [h]
    split
    · rfl
    · exact cut_readDeclaration false before t rest

/-- Apart from bounds and reports, reading an item is cutting it off. -/
theorem cut_readItem (before : String) (t : Token) (rest : List Token) :
    (readItem before t rest).result.toOption.map Item.cut = itemCut before t rest := by
  unfold readItem itemCut
  split
  · rfl
  split
  · exact congrArg some (cut_readAtRule before t rest)
  · exact cut_readRuleOrDeclaration before t rest

theorem itemCut_of_readItem {before : String} {t : Token} {rest : List Token}
    {item : Item (rest.length + 1)} (h : (readItem before t rest).result = .ok item) :
    itemCut before t rest = some item.cut := by
  rw [← cut_readItem, h]
  rfl

/-! ### Lists of items without bounds -/

/-- Nodes, the white space behind them, and the tokens left. -/
structure Listing where
  nodes : List Node
  after : String
  rest : List Token

/-- The nodes in front of those that follow. -/
def Listing.prepend (ns : List Node) (l : Listing) : Listing :=
  { l with nodes := ns ++ l.nodes }

def Items.listing {n : Nat} (items : Items n) : Listing :=
  ⟨items.nodes, items.after, items.rest⟩

/-- The items that are read from the tokens, if they can be. -/
def listing (limit depth : Nat) (ts : List Token) : Option Listing :=
  (parseItems limit depth ts).result.toOption.map Items.listing

theorem listing_eq_some {limit depth : Nat} {ts : List Token} {l : Listing} :
    listing limit depth ts = some l ↔
      ∃ items, (parseItems limit depth ts).result = .ok items ∧ items.listing = l := by
  rw [listing]
  cases (parseItems limit depth ts).result with
  | error e => simp [Except.toOption]
  | ok items => simp [Except.toOption]

/-- A sheet is read if its items are, and nothing is left. -/
theorem parse_eq_ok {source : String} {s : Sheet} :
    (parse source).result = .ok s ↔
      ∃ items, (parseItems nestingLimit 0 (Token.lex source)).result = .ok items ∧
        items.listing = ⟨s.nodes, s.after, []⟩ := by
  rw [parse, parseWithin, Traced.bind_eq_ok]
  refine exists_congr fun items => and_congr_right fun _ => ?_
  obtain ⟨nodes, after, rest, hrest⟩ := items
  cases rest with
  | nil =>
    obtain ⟨nodes', after'⟩ := s
    simp [Items.listing]
  | cons t ts => simp [Items.listing]

theorem parse_eq_ok_iff {source : String} {s : Sheet} :
    (parse source).result = .ok s ↔
      listing nestingLimit 0 (Token.lex source) = some ⟨s.nodes, s.after, []⟩ :=
  parse_eq_ok.trans listing_eq_some.symm

/-- How a list of items goes on behind a cut. -/
def listingFrom (limit depth : Nat) : Cut → Option Listing
  | .done node rest => (listing limit depth rest).map (·.prepend [node])
  | .opened head _ body =>
    if limit ≤ depth then none
    else (listing limit (depth + 1) body).bind fun block =>
      match block.rest with
      | [] => none
      | _ :: rest =>
        (listing limit depth rest).map (·.prepend [head.node block.nodes block.after])

theorem toOption_bind {ε α β : Type} (x : Traced ε α) (f : α → Traced ε β) :
    (x >>= f).result.toOption = x.result.toOption.bind fun a => (f a).result.toOption := by
  rw [Traced.result_bind]
  cases x.result <;> rfl

/-- A list of items is read cut by cut. -/
theorem listing_eq (limit depth : Nat) (ts : List Token) :
    listing limit depth ts =
      match ts.dropWhile isFiller with
      | [] => some ⟨[], textOf (ts.takeWhile isFiller), []⟩
      | t :: rest =>
        if t.kind = .rightBrace then some ⟨[], textOf (ts.takeWhile isFiller), t :: rest⟩
        else (itemCut (textOf (ts.takeWhile isFiller)) t rest).bind (listingFrom limit depth) := by
  rw [listing, parseItems]
  simp only [← cut_readItem]
  split
  next h =>
    simp only [h]
    rfl
  next t rest h =>
    simp only [h]
    split
    · rfl
    rw [toOption_bind]
    cases (readItem (textOf (ts.takeWhile isFiller)) t rest).result.toOption with
    | none => rfl
    | some item =>
      rw [Option.map_some, Option.bind_some, Option.bind_some]
      cases item with
      | done node rest' hlt =>
        simp only [Item.cut, listingFrom, toOption_bind, listing]
        cases (parseItems limit depth rest').result <;> rfl
      | opened head brace body hlt =>
        simp only [Item.cut, listingFrom, listing]
        split
        · rfl
        rw [toOption_bind]
        cases (parseItems limit (depth + 1) body).result.toOption with
        | none => rfl
        | some block =>
          simp only [Option.map_some, Option.bind_some, Items.listing]
          split
          next hr =>
            simp only [hr]
            rfl
          next u rest' hr =>
            simp only [hr, toOption_bind]
            cases (parseItems limit depth rest').result <;> rfl

/-! ### The end of an item -/

/-- How many brackets are open behind a token of this kind, unless the item
ends there. -/
def depthPast? (nestBraces : Bool) (depth : Nat) : Token.Kind → Option Nat
  | .function | .leftParen | .leftBracket => some (depth + 1)
  | .rightParen | .rightBracket => some (depth - 1)
  | .leftBrace =>
    if nestBraces then some (depth + 1) else if depth = 0 then none else some depth
  | .rightBrace =>
    if depth = 0 then none else if nestBraces then some (depth - 1) else some depth
  | .semicolon => if depth = 0 then none else some depth
  | _ => some depth

theorem itemLength_cons (nestBraces : Bool) (depth : Nat) (t : Token) (ts : List Token) :
    itemLength nestBraces depth (t :: ts) =
      match depthPast? nestBraces depth t.kind with
      | none => 0
      | some depth' => 1 + itemLength nestBraces depth' ts := by
  rw [itemLength]
  cases t.kind
  all_goals
    simp only [depthPast?]
    repeat' split
  all_goals simp_all

/-- What is added behind the end of an item does not move the end. -/
theorem itemLength_append {nestBraces : Bool} {depth : Nat} {ts : List Token}
    (h : itemLength nestBraces depth ts < ts.length) (us : List Token) :
    itemLength nestBraces depth (ts ++ us) = itemLength nestBraces depth ts := by
  induction ts generalizing depth with
  | nil => cases h
  | cons t ts ih =>
    rw [List.cons_append, itemLength_cons, itemLength_cons]
    rw [itemLength_cons, List.length_cons] at h
    cases hd : depthPast? nestBraces depth t.kind with
    | none => rfl
    | some depth' =>
      rw [hd] at h
      have hlt : 1 + itemLength nestBraces depth' ts < ts.length + 1 := h
      exact congrArg (1 + ·) (ih (by omega))

theorem itemLength_lt_of_itemEnd {nestBraces : Bool} {ts : List Token}
    (h : itemEnd nestBraces ts ≠ []) : itemLength nestBraces 0 ts < ts.length := by
  rw [itemEnd, Ne, List.drop_eq_nil_iff] at h
  omega

theorem itemEnd_append {nestBraces : Bool} {ts : List Token} (h : itemEnd nestBraces ts ≠ [])
    (us : List Token) : itemEnd nestBraces (ts ++ us) = itemEnd nestBraces ts ++ us := by
  have hlt := itemLength_lt_of_itemEnd h
  rw [itemEnd, itemLength_append hlt, List.drop_append_of_le_length (Nat.le_of_lt hlt)]
  rfl

theorem itemFront_append {nestBraces : Bool} {ts : List Token} (h : itemEnd nestBraces ts ≠ [])
    (us : List Token) : itemFront nestBraces (ts ++ us) = itemFront nestBraces ts := by
  have hlt := itemLength_lt_of_itemEnd h
  rw [itemFront, itemLength_append hlt, List.take_append_of_le_length (Nat.le_of_lt hlt)]
  rfl

theorem ne_nil_of_itemEnd {nestBraces : Bool} {ts : List Token} (h : itemEnd nestBraces ts ≠ []) :
    ts ≠ [] := by
  rintro rfl
  exact h rfl

/-- The kinds of tokens that the search for the end passes without notice. -/
def isPlain (t : Token) : Bool :=
  t.kind.isTrivia || t.kind = .ident || t.kind = .colon

theorem itemEnd_cons_of_isPlain (nestBraces : Bool) {t : Token} (h : isPlain t) (ts : List Token) :
    itemEnd nestBraces (t :: ts) = itemEnd nestBraces ts := by
  have hdepth : depthPast? nestBraces 0 t.kind = some 0 := by
    unfold isPlain at h
    cases hk : t.kind <;> rw [hk] at h <;> first | rfl | cases h
  rw [itemEnd, itemLength_cons, hdepth]
  simp only [Nat.add_comm 1, List.drop_succ_cons]
  rfl

theorem itemEnd_append_of_isPlain (nestBraces : Bool) {us : List Token} (h : ∀ u ∈ us, isPlain u)
    (ts : List Token) : itemEnd nestBraces (us ++ ts) = itemEnd nestBraces ts := by
  induction us with
  | nil => rfl
  | cons u us ih =>
    rw [List.cons_append, itemEnd_cons_of_isPlain nestBraces (h u List.mem_cons_self),
      ih fun v hv => h v (List.mem_cons_of_mem u hv)]

/-! ### Items in front of other tokens -/

/-- A run of tokens that ends is not changed by what is added behind. -/
theorem takeWhile_append_of_dropWhile {p : Token → Bool} {ts : List Token}
    (h : ts.dropWhile p ≠ []) (us : List Token) : (ts ++ us).takeWhile p = ts.takeWhile p := by
  induction ts with
  | nil => exact absurd rfl h
  | cons t ts ih =>
    by_cases ht : p t
    · rw [List.dropWhile_cons_of_pos ht] at h
      rw [List.cons_append, List.takeWhile_cons_of_pos ht, List.takeWhile_cons_of_pos ht, ih h]
    · rw [List.cons_append, List.takeWhile_cons_of_neg ht, List.takeWhile_cons_of_neg ht]

theorem dropWhile_append_of_dropWhile {p : Token → Bool} {ts : List Token}
    (h : ts.dropWhile p ≠ []) (us : List Token) :
    (ts ++ us).dropWhile p = ts.dropWhile p ++ us := by
  rw [List.dropWhile_append]
  simp [h]

/-- Whether an item cannot go on with the tokens behind it. -/
def Node.endsItself : Node → Bool
  | .rule _ _ _ => true
  | .atBlock _ _ _ => true
  | .atStatement _ semicolon => semicolon
  | .declaration d => d.semicolon
  | .comment _ => true

/-- Whether a node has a block. -/
def Node.hasBlock : Node → Bool
  | .rule _ _ _ => true
  | .atBlock _ _ _ => true
  | _ => false

theorem Node.endsItself_of_hasBlock {n : Node} (h : n.hasBlock) : n.endsItself := by
  cases n with
  | rule head body after => rfl
  | atBlock head body after => rfl
  | _ => cases h

/-- The item was not cut off by the end of the tokens. -/
def Cut.IsClosed : Cut → Prop
  | .done node rest => rest ≠ [] ∨ node.endsItself
  | .opened _ _ _ => True

/-- The cut with more tokens left behind it. -/
def Cut.append (us : List Token) : Cut → Cut
  | .done node rest => .done node (rest ++ us)
  | .opened head brace body => .opened head brace (body ++ us)

section Append

variable {custom : Bool} {before : String} {t : Token} {rest : List Token} {c : Cut}

theorem atRuleCut_append (hc : (atRuleCut before t rest).IsClosed) (us : List Token) :
    atRuleCut before t (rest ++ us) = (atRuleCut before t rest).append us := by
  unfold atRuleCut at hc
  cases hend : itemEnd false (rest.dropWhile isWhitespace) with
  | nil =>
    rw [hend] at hc
    simp [Cut.IsClosed, Node.endsItself] at hc
  | cons u vs =>
    have hne : itemEnd false (rest.dropWhile isWhitespace) ≠ [] := by simp [hend]
    have hahead := ne_nil_of_itemEnd hne
    have hhead : atHead before t (rest ++ us) = atHead before t rest := by
      simp only [atHead, takeWhile_append_of_dropWhile hahead, dropWhile_append_of_dropWhile hahead,
        itemFront_append hne]
    unfold atRuleCut
    rw [dropWhile_append_of_dropWhile hahead, itemEnd_append hne, hhead, hend]
    simp only [List.cons_append]
    split
    · rfl
    split <;> rfl

/-- A declaration that has an end has it behind a colon. -/
theorem declarationCut_eq_some (h : declarationCut custom before t rest = some c) :
    ∃ colon behind, rest.dropWhile isTrivia = colon :: behind ∧ t.kind = .ident ∧
      colon.kind = .colon ∧
      c = .done (.declaration (declarationOf custom before t
          (textOf (rest.takeWhile isTrivia) ++ colon.text ++
            textOf (behind.takeWhile isWhitespace)) (behind.dropWhile isWhitespace)))
        ((itemEnd custom (behind.dropWhile isWhitespace)).drop
          (if (itemEnd custom (behind.dropWhile isWhitespace)).head?.any
            (fun u => u.kind = .semicolon) then 1 else 0)) := by
  unfold declarationCut at h
  split at h
  next => cases h
  next colon behind hd =>
    split at h
    next hk =>
      obtain ⟨ht, hcolon⟩ := (Bool.and_eq_true _ _).mp hk
      exact ⟨colon, behind, hd, of_decide_eq_true ht, of_decide_eq_true hcolon,
        (Option.some.inj h).symm⟩
    next => cases h

/-- An item that needs no block has none. -/
theorem hasBlock_of_itemCut {before : String} {t : Token} {rest rest' : List Token} {node : Node}
    (h : itemCut before t rest = some (.done node rest')) : node.hasBlock = false := by
  have hdeclaration : ∀ {custom}, declarationCut custom before t rest = some (.done node rest') →
      node.hasBlock = false := by
    intro custom h
    obtain ⟨colon, behind, -, -, -, hc⟩ := declarationCut_eq_some h
    rw [(Cut.done.inj hc).1]
    rfl
  unfold itemCut at h
  split at h
  · rw [← (Cut.done.inj (Option.some.inj h)).1]
    rfl
  split at h
  · have h := Option.some.inj h
    unfold atRuleCut at h
    repeat' split at h
    all_goals first | (cases h; rfl) | cases h
  · unfold ruleOrDeclarationCut at h
    repeat' split at h
    all_goals first | exact hdeclaration h | cases h

/-- If a declaration was not cut off, its end was found. -/
theorem itemEnd_ne_nil_of_isClosed {between : String} {tail : List Token} {n : Nat}
    (h : (Cut.done (.declaration (declarationOf custom before t between tail))
      ((itemEnd custom tail).drop n)).IsClosed) : itemEnd custom tail ≠ [] := by
  intro hnil
  rcases h with h | h
  · rw [hnil, List.drop_nil] at h
    exact h rfl
  · simp [Node.endsItself, declarationOf, hnil] at h

theorem declarationCut_append (h : declarationCut custom before t rest = some c)
    (hc : c.IsClosed) (us : List Token) :
    declarationCut custom before t (rest ++ us) = some (c.append us) := by
  obtain ⟨colon, behind, hd, ht, hcolon, rfl⟩ := declarationCut_eq_some h
  have hend := itemEnd_ne_nil_of_isClosed hc
  have htail := ne_nil_of_itemEnd hend
  have hne : rest.dropWhile isTrivia ≠ [] := by simp [hd]
  obtain ⟨u, vs, huvs⟩ := List.exists_cons_of_ne_nil hend
  simp only [declarationCut, dropWhile_append_of_dropWhile hne, hd, List.cons_append, ht, hcolon,
    decide_true, Bool.and_self, if_true, takeWhile_append_of_dropWhile hne,
    dropWhile_append_of_dropWhile htail, takeWhile_append_of_dropWhile htail, declarationOf,
    itemEnd_append hend, itemFront_append hend, Cut.append, huvs, List.head?_cons]
  split <;> rfl

/-- In front of the value of a declaration nothing ends it. -/
theorem itemEnd_of_dropWhile_isTrivia {colon : Token} {behind : List Token}
    (ht : t.kind = .ident) (hd : rest.dropWhile isTrivia = colon :: behind)
    (hcolon : colon.kind = .colon) (nestBraces : Bool) :
    itemEnd nestBraces (t :: rest) = itemEnd nestBraces (behind.dropWhile isWhitespace) := by
  have hrest : rest = rest.takeWhile isTrivia ++ colon :: behind := by
    rw [← hd, List.takeWhile_append_dropWhile]
  have htrivia : ∀ u ∈ rest.takeWhile isTrivia, isPlain u := by
    intro u hu
    have htrivia : isTrivia u := List.mem_takeWhile_imp hu
    rw [isPlain, show u.kind.isTrivia = true from htrivia]
    rfl
  have hblanks : ∀ u ∈ behind.takeWhile isWhitespace, isPlain u := by
    intro u hu
    have hblank : isWhitespace u := List.mem_takeWhile_imp hu
    rw [isPlain, of_decide_eq_true hblank]
    rfl
  rw [itemEnd_cons_of_isPlain nestBraces (by rw [isPlain, ht]; rfl), hrest,
    itemEnd_append_of_isPlain nestBraces htrivia,
    itemEnd_cons_of_isPlain nestBraces (by rw [isPlain, hcolon]; rfl)]
  conv_lhs => rw [← List.takeWhile_append_dropWhile (p := isWhitespace) (l := behind)]
  exact itemEnd_append_of_isPlain nestBraces hblanks _

theorem startsCustomProperty_append (h : t.kind = .ident → rest.dropWhile isWhitespace ≠ [])
    (us : List Token) :
    startsCustomProperty (t :: (rest ++ us)) = startsCustomProperty (t :: rest) := by
  by_cases ht : t.kind = .ident
  · have hne := h ht
    obtain ⟨u, vs, huvs⟩ := List.exists_cons_of_ne_nil hne
    simp only [startsCustomProperty, dropWhile_append_of_dropWhile hne, huvs, List.cons_append,
      List.head?_cons]
  · simp [startsCustomProperty, ht]

/-- White space alone has no end. -/
theorem dropWhile_ne_nil_of_itemEnd {nestBraces : Bool} (ht : t.kind = .ident)
    (h : itemEnd nestBraces (t :: rest) ≠ []) : rest.dropWhile isWhitespace ≠ [] := by
  intro hnil
  have hplain : ∀ u ∈ rest, isPlain u := by
    intro u hu
    have hblank : isWhitespace u := List.dropWhile_eq_nil_iff.mp hnil u hu
    rw [isPlain, of_decide_eq_true hblank]
    rfl
  rw [itemEnd_cons_of_isPlain nestBraces (by rw [isPlain, ht]; rfl), ← List.append_nil rest,
    itemEnd_append_of_isPlain nestBraces hplain] at h
  exact h rfl

theorem ruleOrDeclarationCut_append (h : ruleOrDeclarationCut before t rest = some c)
    (hc : c.IsClosed) (us : List Token) :
    ruleOrDeclarationCut before t (rest ++ us) = some (c.append us) := by
  unfold ruleOrDeclarationCut at h
  split at h
  next hcustom =>
    have hne : rest.dropWhile isWhitespace ≠ [] := by
      intro hnil
      simp [startsCustomProperty, hnil] at hcustom
    rw [ruleOrDeclarationCut, startsCustomProperty_append (fun _ => hne), if_pos hcustom]
    exact declarationCut_append h hc us
  next hcustom =>
    cases hend : itemEnd false (t :: rest) with
    | nil =>
      rw [hend] at h
      obtain ⟨colon, behind, hd, ht, hcolon, rfl⟩ := declarationCut_eq_some h
      rw [itemEnd_of_dropWhile_isTrivia ht hd hcolon] at hend
      exact absurd hend (itemEnd_ne_nil_of_isClosed hc)
    | cons brace body =>
      have hne : itemEnd false (t :: rest) ≠ [] := by simp [hend]
      rw [hend] at h
      rw [ruleOrDeclarationCut,
        startsCustomProperty_append fun ht => dropWhile_ne_nil_of_itemEnd ht hne, if_neg hcustom,
        ← List.cons_append, itemEnd_append hne, itemFront_append hne, hend]
      simp only [List.cons_append] at h ⊢
      split
      next hk =>
        rw [if_pos hk] at h
        rw [← Option.some.inj h]
        rfl
      next hk =>
        rw [if_neg hk] at h
        exact declarationCut_append h hc us

/-- **An item that has an end is read the same in front of other tokens.** -/
theorem itemCut_append (h : itemCut before t rest = some c) (hc : c.IsClosed) (us : List Token) :
    itemCut before t (rest ++ us) = some (c.append us) := by
  unfold itemCut at h ⊢
  split
  next hk =>
    rw [if_pos hk] at h
    rw [← Option.some.inj h]
    rfl
  next hk =>
    rw [if_neg hk] at h
    split
    next hat =>
      rw [if_pos hat] at h
      rw [← Option.some.inj h] at hc ⊢
      rw [atRuleCut_append hc]
    next hat =>
      rw [if_neg hat] at h
      exact ruleOrDeclarationCut_append h hc us

end Append

/-! ### Lists of items in front of other tokens -/

section Lists

variable {limit depth : Nat} {ts : List Token} {items : Items ts.length}

theorem listing_of_dropWhile {t : Token} {rest : List Token} {c : Cut}
    (ht : ts.dropWhile isFiller = t :: rest) (hk : t.kind ≠ .rightBrace)
    (hi : itemCut (textOf (ts.takeWhile isFiller)) t rest = some c) (hc : c.IsClosed)
    (us : List Token) :
    listing limit depth (ts ++ us) = listingFrom limit depth (c.append us) := by
  have hne : ts.dropWhile isFiller ≠ [] := by simp [ht]
  rw [listing_eq, dropWhile_append_of_dropWhile hne, takeWhile_append_of_dropWhile hne, ht]
  simp only [List.cons_append]
  rw [if_neg hk, itemCut_append hi hc, Option.bind_some]

/-- A list of items that a brace closes is read the same in front of other
tokens. -/
theorem Parsed.listing_append_of_rest (h : Parsed limit depth ts items) (hr : items.rest ≠ [])
    (us : List Token) :
    listing limit depth (ts ++ us) = some ⟨items.nodes, items.after, items.rest ++ us⟩ := by
  induction h with
  | finish => exact absurd rfl hr
  | @close depth ts rest t ht hk =>
    have hne : ts.dropWhile isFiller ≠ [] := by simp [ht]
    rw [listing_eq, dropWhile_append_of_dropWhile hne, takeWhile_append_of_dropWhile hne, ht]
    simp only [List.cons_append]
    rw [if_pos hk]
  | @done depth ts rest rest' t node items hlt ht hk hi hp hle ih =>
    have hrest : rest' ≠ [] := by
      rintro rfl
      exact hr (List.eq_nil_of_length_eq_zero (Nat.le_zero.mp items.length_rest))
    rw [listing_of_dropWhile ht hk (itemCut_of_readItem hi) (.inl hrest)]
    simp only [Item.cut, Cut.append, listingFrom]
    rw [ih hr]
    rfl
  | @block depth ts rest body rest' t brace u head block items hlt ht hk hi hd hb hr' hp hle
      ihb ih =>
    have hblock : block.rest ≠ [] := by simp [hr']
    rw [listing_of_dropWhile ht hk (itemCut_of_readItem hi) trivial]
    simp only [Item.cut, Cut.append, listingFrom]
    rw [if_neg (Nat.not_le.mpr hd), ihb hblock, Option.bind_some, hr']
    simp only [List.cons_append]
    rw [ih hr]
    rfl

theorem dropWhile_of_stopsAt (h : Token.StopsAt .rightBrace ts) :
    ts.dropWhile isFiller = ts ∧ ts.takeWhile isFiller = [] := by
  cases ts with
  | nil => exact ⟨rfl, rfl⟩
  | cons t ts =>
    have hfiller : ¬ isFiller t = true := by
      simp [isFiller, Token.stopsAt_cons.mp h]
    exact ⟨List.dropWhile_cons_of_neg hfiller, List.takeWhile_cons_of_neg hfiller⟩

/-- Where a block or the sheet ends there are no items. -/
theorem Parsed.of_stopsAt (h : Parsed limit depth ts items)
    (hs : Token.StopsAt .rightBrace ts) :
    items.nodes = [] ∧ items.after = "" ∧ items.rest = ts := by
  obtain ⟨hdrop, htake⟩ := dropWhile_of_stopsAt hs
  cases h with
  | finish ht =>
    rw [hdrop] at ht
    exact ⟨rfl, by rw [htake]; rfl, ht.symm⟩
  | close ht =>
    rw [hdrop] at ht
    exact ⟨rfl, by rw [htake]; rfl, ht.symm⟩
  | done ht hk =>
    rw [hdrop.symm.trans ht] at hs
    exact absurd (Token.stopsAt_cons.mp hs) hk
  | block ht hk =>
    rw [hdrop.symm.trans ht] at hs
    exact absurd (Token.stopsAt_cons.mp hs) hk

/-- An item without a block takes the tokens that it prints. -/
theorem reads_of_done {rest rest' : List Token} {t : Token} {node : Node}
    {hlt : rest'.length < rest.length + 1} (hs : ∀ v ∈ ts, v.IsSpelled)
    (ht : ts.dropWhile isFiller = t :: rest)
    (hi : (readItem (textOf (ts.takeWhile isFiller)) t rest).result = .ok (.done node rest' hlt)) :
    Token.Reads ts node.print rest' := by
  have hfill := Token.Reads.takeWhile isFiller ts
  rw [ht] at hfill
  obtain ⟨text, hread, hprint⟩ := covers_readItem hi (hfill.isSpelled hs)
  rw [hprint]
  exact hfill.trans hread

/-- A head takes the tokens that it prints, and the brace behind them. -/
theorem reads_of_opened {rest body : List Token} {t brace : Token} {head : Head}
    {hlt : body.length < rest.length + 1} (hs : ∀ v ∈ ts, v.IsSpelled)
    (ht : ts.dropWhile isFiller = t :: rest)
    (hi : (readItem (textOf (ts.takeWhile isFiller)) t rest).result =
      .ok (.opened head brace body hlt)) :
    Token.Reads ts (head.print ++ "\x7b") body := by
  have hfill := Token.Reads.takeWhile isFiller ts
  rw [ht] at hfill
  obtain ⟨text, hread, hprint⟩ := covers_readItem hi (hfill.isSpelled hs)
  rw [hprint, String.append_assoc]
  exact hfill.trans hread

theorem forall_mem_of_reads {p : Token → Prop} {text : String} {rest : List Token}
    (h : Token.Reads ts text rest) (hp : ∀ t ∈ ts, p t) : ∀ t ∈ rest, p t := by
  obtain ⟨taken, rfl, -⟩ := h
  exact fun t ht => hp t (List.mem_append_right taken ht)

theorem eq_nil_of_textOf {ts : List Token} (h : textOf ts = "") (hs : ∀ t ∈ ts, t.text ≠ "") :
    ts = [] := by
  cases ts with
  | nil => rfl
  | cons t ts =>
    rw [Token.textOf_cons] at h
    exact absurd (String.append_eq_empty_iff.mp h).1 (hs t List.mem_cons_self)

theorem endsItself_of_cons {node : Node} {nodes : List Node}
    (hl : ∀ n ∈ (node :: nodes).getLast?, n.endsItself) :
    (∀ n ∈ nodes.getLast?, n.endsItself) ∧ (nodes = [] → node.endsItself) := by
  constructor
  · intro n hn
    refine hl n ?_
    rw [List.getLast?_cons, Option.mem_def.mp hn]
    rfl
  · rintro rfl
    exact hl node rfl

/-- **A list whose last item cannot go on is read in front of other tokens as if
it stood alone.** -/
theorem Parsed.listing_append (h : Parsed limit depth ts items) (hr : items.rest = [])
    (ha : items.after = "") (hl : ∀ n ∈ items.nodes.getLast?, n.endsItself)
    (hs : ∀ t ∈ ts, t.IsSpelled ∧ t.text ≠ "") (us : List Token) :
    listing limit depth (ts ++ us) =
      (listing limit depth us).map (·.prepend items.nodes) := by
  induction h with
  | @finish depth ts ht hle =>
    have hall : ts.takeWhile isFiller = ts := by
      rw [← List.append_nil (ts.takeWhile isFiller), ← ht, List.takeWhile_append_dropWhile]
    have htext : textOf (ts.takeWhile isFiller) = "" := ha
    rw [hall] at htext
    obtain rfl := eq_nil_of_textOf htext fun v hv => (hs v hv).2
    rw [List.nil_append]
    cases listing limit depth us <;> rfl
  | close => cases hr
  | @done depth ts rest rest' t node items hlt ht hk hi hp hle ih =>
    obtain ⟨hmore, hlast⟩ := endsItself_of_cons hl
    have hs' := forall_mem_of_reads (reads_of_done (fun v hv => (hs v hv).1) ht hi) hs
    have hclosed : rest' ≠ [] ∨ node.endsItself := by
      by_cases hrest : rest' = []
      · exact .inr (hlast (hp.of_stopsAt (hrest ▸ Token.stopsAt_nil _)).1)
      · exact .inl hrest
    rw [listing_of_dropWhile ht hk (itemCut_of_readItem hi) hclosed]
    simp only [Item.cut, Cut.append, listingFrom]
    rw [ih hr ha hmore hs', Option.map_map]
    rfl
  | @block depth ts rest body rest' t brace u head block items hlt ht hk hi hd hb hr' hp hle
      ihb ih =>
    obtain ⟨hmore, -⟩ := endsItself_of_cons hl
    have hs' := forall_mem_of_reads (reads_of_opened (fun v hv => (hs v hv).1) ht hi) hs
    have hblock := (hb.reads fun v hv => (hs' v hv).1).1
    rw [hr'] at hblock
    have hs'' := forall_mem_of_reads (hblock.trans (Token.Reads.head u rest')) hs'
    have hne : block.rest ≠ [] := by simp [hr']
    rw [listing_of_dropWhile ht hk (itemCut_of_readItem hi) trivial]
    simp only [Item.cut, Cut.append, listingFrom]
    rw [if_neg (Nat.not_le.mpr hd), hb.listing_append_of_rest hne, Option.bind_some, hr']
    simp only [List.cons_append]
    rw [ih hr ha hmore hs'', Option.map_map]
    rfl

end Lists

end Sheet
end StyleScope
