/-
# Reading sheets by position

The reader of sheets by position looks for the end of an item by index, keeps
the indices of the tokens of a value, cuts every text out of the source between
two offsets, and counts the blocks around it up and down.

It is the last of the readers by position, and `reading_by_position` says of all
of them that they end in a result or an error, whatever the source is.

Key definitions: `Sheet.itemsFrom`, `Sheet.parseByPosition`.
Key theorems: `Sheet.follows_itemsFrom`, `Sheet.parseByPosition_eq`,
`reading_by_position`.
-/
import StyleScope.Proofs.CheckedSelector
import StyleScope.Proofs.CheckedValue
import StyleScope.Proofs.Listing

namespace StyleScope
namespace Sheet

open Checked Text
open Token (Kind Layout Mark ahead_between ahead_between_prefix ahead_bump ahead_kind ahead_offset
  ahead_skip ahead_stop ahead_stop_eq ahead_text isTrivia isWhitespace kindOf lex startOf textOf)

/-! ### The reader -/

section Reader

variable (l : Layout)

def isFillerKind : Kind → Bool
  | .whitespace | .semicolon | .cdo | .cdc => true
  | _ => false

def isBlankKind (k : Kind) : Bool :=
  k = .whitespace

/-- The index of the token that ends an item, with `depth` open brackets in
front of index `p`. -/
def terminatorFrom (nestBraces : Bool) : Nat → Nat → Nat → Checked Nat
  | 0, _, _ => crash .endless
  | n + 1, depth, p => do
    match ← l.kind p with
    | .eof => return p
    | .function | .leftParen | .leftBracket => terminatorFrom nestBraces n (depth + 1) (p + 1)
    | .rightParen | .rightBracket => terminatorFrom nestBraces n (depth - 1) (p + 1)
    | .leftBrace =>
      if nestBraces then terminatorFrom nestBraces n (depth + 1) (p + 1)
      else if depth = 0 then return p
      else terminatorFrom nestBraces n depth (p + 1)
    | .rightBrace =>
      if nestBraces ∧ 0 < depth then terminatorFrom nestBraces n (← minus depth 1) (p + 1)
      else if depth = 0 then return p
      else terminatorFrom nestBraces n depth (p + 1)
    | .semicolon => if depth = 0 then return p else terminatorFrom nestBraces n depth (p + 1)
    | _ => terminatorFrom nestBraces n depth (p + 1)

def terminator (nestBraces : Bool) (p : Nat) : Checked Nat :=
  terminatorFrom l nestBraces l.rounds 0 p

/-- Where the last token between two indices ends that is not white space. -/
def contentEnd (i j : Nat) : Checked Nat := do
  let start ← l.offset i
  let spans ← range l.spans i j
  match spans.reverse.find? fun s => s.kind ≠ .whitespace with
  | some s => return s.stop
  | none => return start

/-- The indices from `p` on of `n` tokens, without white space. -/
def contentFrom : Nat → Nat → Checked (List Nat)
  | 0, _ => return []
  | n + 1, p => do
    let kind ← l.kind p
    let rest ← contentFrom n (p + 1)
    return if kind = .whitespace then rest else p :: rest

/-- Where the token at the first of the indices ends. -/
def endOfFirst (start : Nat) : List Nat → Checked Nat
  | [] => return start
  | p :: _ => l.stop p

/-- Where a value ends in front of the mark `!important`, and the text of the
mark, given the indices of its tokens from the last to the first. -/
def importantAt (start stop : Nat) : List Nat → Checked (Nat × Option String)
  | last :: bang :: rest => do
    if (← l.kind bang) = .delim '!' ∧ (← l.kind last) = .ident then
      if sameWord (← l.text last) "important" then
        let i ← endOfFirst l start rest
        return (i, some (← l.between i stop))
      else return (stop, none)
    else return (stop, none)
  | _ => return (stop, none)

/-- An item as far as it goes without reading a block. -/
inductive Piece where
  | done (node : Node)
  | opened (head : Head)

def atRuleAt (before : String) (p : Nat) : Checked (Piece × Nat) := do
  let offset ← l.offset p
  let text ← l.text p
  let name ← slice text 1 text.utf8ByteSize
  let p ← l.bump p
  let nameEnd ← l.offset p
  let p ← l.skip isBlankKind p
  let start ← l.offset p
  let afterName ← l.between nameEnd start
  let q ← terminator l false p
  let stop ← contentEnd l p q
  let params ← l.between start stop
  let between ← l.between stop (← l.offset q)
  let head : AtHead := ⟨before, name, afterName, params, between, offset⟩
  match ← l.kind q with
  | .leftBrace => return (.opened (.atRule head), q)
  | .semicolon => return (.done (.atStatement head true), ← l.bump q)
  | _ => return (.done (.atStatement head false), q)

def isCustomAt (p : Nat) : Checked Bool := do
  if (← l.kind p) = .ident then
    if ['-', '-'].isPrefixOf (← l.text p).toList then
      let spans ← range l.spans (p + 1) l.spans.length
      return (spans.find? fun s => s.kind ≠ .whitespace).any fun s => s.kind = .colon
    else return false
  else return false

/-- The complaint about an item that starts at `offset` and was read up to index
`p`. -/
def unknownWordAt (offset p : Nat) : Checked SyntaxError := do
  let stop ← l.offset (← terminator l false p)
  return .unknownWord (trim (← l.between offset (max stop offset))) offset

/-- The declaration whose name and colon have been read. -/
def valueAt (custom : Bool) (before prop : String) (offset nameEnd p : Nat) :
    Checked (Piece × Nat) := do
  let start ← l.offset p
  let between ← l.between nameEnd start
  let q ← terminator l custom p
  let content ← contentFrom l (q - p) p
  let stop ← endOfFirst l start content.reverse
  let (i, important) ← importantAt l start stop content.reverse
  let value ← l.between start i
  let trailing ← l.between stop (← l.offset q)
  let semicolon := decide ((← l.kind q) = .semicolon)
  let q ← if semicolon then l.bump q else pure q
  return (.done (.declaration
    { before, prop, between, value, important, trailing, semicolon, offset }), q)

def declarationAt (custom : Bool) (before : String) (p : Nat) : Checked (Piece × Nat) := do
  let offset ← l.offset p
  if (← l.kind p) = .ident then
    let prop ← l.text p
    let p ← l.bump p
    let nameEnd ← l.offset p
    let p ← l.skip Kind.isTrivia p
    if (← l.kind p) = .colon then
      let p ← l.bump p
      let p ← l.skip isBlankKind p
      valueAt l custom before prop offset nameEnd p
    else refuse (← unknownWordAt l offset p)
  else refuse (← unknownWordAt l offset p)

def ruleOrDeclarationAt (before : String) (p : Nat) : Checked (Piece × Nat) := do
  if ← isCustomAt l p then declarationAt l true before p
  else
    let q ← terminator l false p
    if (← l.kind q) = .leftBrace then
      let offset ← l.offset p
      let stop ← contentEnd l p q
      let selector ← l.between offset stop
      let between ← l.between stop (← l.offset q)
      return (.opened (.rule ⟨before, selector, between, offset⟩), q)
    else declarationAt l false before p

def commentAt (before : String) (p : Nat) : Checked (Piece × Nat) := do
  let offset ← l.offset p
  let text ← l.text p
  return (.done (.comment ⟨before, text, offset⟩), ← l.bump p)

def itemAt (before : String) (p : Nat) : Checked (Piece × Nat) := do
  match ← l.kind p with
  | .comment _ => commentAt l before p
  | .atKeyword => atRuleAt l before p
  | _ => ruleOrDeclarationAt l before p

/-- Nodes, the white space behind them, and how far they were read. -/
structure Section where
  nodes : List Node
  after : String
  mark : Mark

/-- The block that opens here, with its nodes read by `items`. -/
def blockAt (limit : Nat) (items : Mark → Checked Section) (m : Mark) : Checked Section := do
  let offset ← l.offset m.position
  if limit < m.depth + 1 then refuse (.nestingTooDeep limit offset)
  else
    let block ← items ⟨← l.bump m.position, m.depth + 1⟩
    if (← l.kind block.mark.position) = .rightBrace then
      let p ← l.bump block.mark.position
      return { block with mark := ⟨p, ← minus block.mark.depth 1⟩ }
    else refuse (.unclosedBlock offset)

/-- The node of an item, with its block read by `block`. -/
def nodeOf (block : Mark → Checked Section) (m : Mark) : Piece → Checked (Node × Mark)
  | .done node => return (node, m)
  | .opened head => do
    let s ← block m
    return (head.node s.nodes s.after, s.mark)

def itemsFrom (limit : Nat) : Nat → Bool → Mark → Checked Section
  | 0, _, _ => crash .endless
  | n + 1, isTop, m => do
    let start ← l.offset m.position
    let p ← l.skip isFillerKind m.position
    let offset ← l.offset p
    let before ← l.between start offset
    match ← l.kind p with
    | .eof => return ⟨[], before, ⟨p, m.depth⟩⟩
    | .rightBrace =>
      if isTop then refuse (.unexpectedCloseBrace offset) else return ⟨[], before, ⟨p, m.depth⟩⟩
    | _ =>
      let (piece, p) ← itemAt l before p
      let (node, m) ←
        nodeOf (blockAt l limit (itemsFrom limit n false)) ⟨p, m.depth⟩ piece
      let s ← itemsFrom limit n isTop m
      return { s with nodes := node :: s.nodes }

end Reader

section Ahead

variable {source : String} {p : Nat} {t : Token} {ts us : List Token}

theorem ahead_terminatorFrom {nestBraces : Bool} {n depth : Nat} (h : Ahead (lex source) p ts)
    (hn : ts.length < n) :
    terminatorFrom (Layout.of source) nestBraces n depth p =
      .ok (p + itemLength nestBraces depth ts) := by
  induction n generalizing p ts depth with
  | zero => cases hn
  | succ n ih =>
    rw [terminatorFrom, ahead_kind h]
    cases ts with
    | nil => rfl
    | cons t ts =>
      have hk : t.kind ≠ .eof := Token.ne_eof_of_mem_lexFrom (h.mem List.mem_cons_self)
      have hnext : ∀ depth, terminatorFrom (Layout.of source) nestBraces n depth (p + 1) =
          .ok (p + (1 + itemLength nestBraces depth ts)) := by
        intro depth
        rw [ih h.tail (Nat.lt_of_succ_lt_succ hn), Nat.add_assoc]
      simp only [kindOf, ok_bind, hnext, itemLength]
      cases hkind : t.kind with
      | eof => exact absurd hkind hk
      | leftBrace =>
        dsimp only
        split
        · rfl
        · split <;> rfl
      | semicolon =>
        dsimp only
        split <;> rfl
      | rightBrace =>
        cases depth with
        | zero => simp
        | succ depth =>
          simp only [Nat.succ_pos, and_true, minus_add_right, ok_bind, Nat.add_sub_cancel]
          split <;> rfl
      | _ => rfl

theorem ahead_terminator (nestBraces : Bool) (h : Ahead (lex source) p ts) :
    terminator (Layout.of source) nestBraces p = .ok (p + itemLength nestBraces 0 ts) :=
  ahead_terminatorFrom h (Token.ahead_length_lt h)

/-- Tokens are all white space, or there is a last one that is not. -/
theorem trimEnd_cases (ts : List Token) :
    trimEnd ts = [] ∧ (∀ t ∈ ts, t.isWhitespace) ∨
      ∃ front t blanks, ts = front ++ t :: blanks ∧ t.isWhitespace = false ∧
        (∀ u ∈ blanks, u.isWhitespace) ∧ trimEnd ts = front ++ [t] := by
  have hsplit : ts.reverse.takeWhile isWhitespace ++ ts.reverse.dropWhile isWhitespace =
      ts.reverse := List.takeWhile_append_dropWhile
  have hblanks : ∀ u ∈ ts.reverse.takeWhile isWhitespace, u.isWhitespace :=
    fun u hu => List.mem_takeWhile_imp hu
  cases hd : ts.reverse.dropWhile isWhitespace with
  | nil =>
    refine .inl ⟨by rw [trimEnd, hd]; rfl, fun t ht => hblanks t ?_⟩
    rw [hd, List.append_nil] at hsplit
    rw [hsplit]
    exact List.mem_reverse.mpr ht
  | cons t front =>
    refine .inr ⟨front.reverse, t, (ts.reverse.takeWhile isWhitespace).reverse, ?_, ?_, ?_, ?_⟩
    · rw [hd] at hsplit
      simpa using (congrArg List.reverse hsplit).symm
    · have hhead := List.head?_dropWhile_not isWhitespace ts.reverse
      rw [hd] at hhead
      simpa using hhead
    · exact fun u hu => hblanks u (List.mem_reverse.mp hu)
    · rw [trimEnd, hd, List.reverse_cons]

theorem ahead_contentEnd (h : Ahead (lex source) p (ts ++ us)) :
    contentEnd (Layout.of source) p (p + ts.length) =
      .ok (startOf source.utf8ByteSize (ts.drop (trimEnd ts).length ++ us)) := by
  have hrange : range (Layout.of source).spans p (p + ts.length) = .ok (ts.map Token.span) := by
    have hspans := Token.ahead_spans h
    rw [List.append_assoc, List.map_append] at hspans
    simpa using hspans.range
  have hblank : ∀ blanks : List Token, (∀ u ∈ blanks, u.isWhitespace) →
      (blanks.map Token.span).find? (fun s => s.kind ≠ .whitespace) = none := by
    intro blanks hb
    rw [List.find?_eq_none]
    rintro s hs
    obtain ⟨u, hu, rfl⟩ := List.mem_map.mp hs
    have hu : u.kind = .whitespace := by simpa [isWhitespace] using hb u hu
    simp [Token.span, hu]
  rw [contentEnd, ahead_offset h, ok_bind, hrange, ok_bind, ← List.map_reverse]
  rcases trimEnd_cases ts with ⟨htrim, hall⟩ | ⟨front, t, blanks, rfl, ht, hb, htrim⟩
  · rw [hblank ts.reverse fun u hu => hall u (List.mem_reverse.mp hu), htrim]
    rfl
  · rw [List.append_assoc] at h
    have hstop := ahead_stop_eq h.append
    have hfind : ((front ++ t :: blanks).reverse.map Token.span).find?
        (fun s => s.kind ≠ .whitespace) = some t.span := by
      rw [List.reverse_append, List.reverse_cons, List.append_assoc, List.map_append,
        List.find?_append, hblank blanks.reverse fun u hu => hb u (List.mem_reverse.mp hu)]
      have ht : t.kind ≠ .whitespace := by simpa [isWhitespace] using ht
      simp [Token.span, ht]
    rw [hfind, htrim]
    simp [Token.span, hstop]

theorem itemLength_le (nestBraces : Bool) (depth : Nat) (ts : List Token) :
    itemLength nestBraces depth ts ≤ ts.length := by
  induction ts generalizing depth with
  | nil => exact Nat.le_refl 0
  | cons t ts ih =>
    rw [itemLength_cons, List.length_cons]
    cases depthPast? nestBraces depth t.kind with
    | none => exact Nat.zero_le _
    | some depth' =>
      have hle := ih depth'
      show 1 + itemLength nestBraces depth' ts ≤ ts.length + 1
      omega

theorem itemFront_append_itemEnd (nestBraces : Bool) (ts : List Token) :
    itemFront nestBraces ts ++ itemEnd nestBraces ts = ts :=
  List.take_append_drop ..

/-- The end of an item is found behind the tokens in front of it. -/
theorem ahead_terminator_eq (nestBraces : Bool) (h : Ahead (lex source) p ts) :
    terminator (Layout.of source) nestBraces p =
        .ok (p + (itemFront nestBraces ts).length) ∧
      Ahead (lex source) (p + (itemFront nestBraces ts).length) (itemEnd nestBraces ts) := by
  have hlength : (itemFront nestBraces ts).length = itemLength nestBraces 0 ts :=
    List.length_take_of_le (itemLength_le nestBraces 0 ts)
  rw [hlength]
  exact ⟨ahead_terminator nestBraces h, h.drop (itemLength_le nestBraces 0 ts)⟩

/-! ### At-rules -/

/-- The item was cut off in this piece, and its tokens up to this index. -/
def Cut.Matches (source : String) (a : Piece × Nat) : Cut → Prop
  | .done node rest => a.1 = .done node ∧ Ahead (lex source) a.2 rest
  | .opened head brace body =>
    a.1 = .opened head ∧ Ahead (lex source) a.2 (brace :: body) ∧ brace.kind = .leftBrace

/-- The two texts of tokens that are cut where white space at their end starts. -/
theorem ahead_splitEnd (h : Ahead (lex source) p (ts ++ us)) :
    contentEnd (Layout.of source) p (p + ts.length) =
        .ok (startOf source.utf8ByteSize (ts.drop (trimEnd ts).length ++ us)) ∧
      (Layout.of source).between (startOf source.utf8ByteSize (ts ++ us))
          (startOf source.utf8ByteSize (ts.drop (trimEnd ts).length ++ us)) =
        .ok (splitEnd ts).1 ∧
      (Layout.of source).between (startOf source.utf8ByteSize (ts.drop (trimEnd ts).length ++ us))
          (startOf source.utf8ByteSize us) = .ok (splitEnd ts).2 := by
  refine ⟨ahead_contentEnd h, ahead_between_prefix h (isPrefix_trimEnd ts), ?_⟩
  have hle := (isPrefix_trimEnd ts).length_le
  have hrest := h.drop (n := (trimEnd ts).length) (by rw [List.length_append]; omega)
  rw [List.drop_append_of_le_length hle] at hrest
  exact ahead_between hrest

theorem ahead_atRuleAt (before : String) (h : Ahead (lex source) p (t :: ts))
    (hk : t.kind = .atKeyword) :
    ∃ a, atRuleAt (Layout.of source) before p = .ok a ∧
      (atRuleCut before t ts).Matches source a := by
  have hname : slice t.text 1 t.text.utf8ByteSize = .ok (String.ofList t.text.toList.tail) := by
    have hspelled := Token.isSpelled_of_mem_lex (h.mem List.mem_cons_self)
    have hslice := slice_back "@" (String.ofList t.text.toList.tail)
    rw [← hspelled.text_of_atKeyword hk] at hslice
    exact hslice
  obtain ⟨q, hskip, hblank⟩ := ahead_skip (f := isWhitespace) (q := isBlankKind) (fun _ => rfl) rfl
    h.tail
  obtain ⟨hterm, hend⟩ := ahead_terminator_eq false hblank
  have hcut := hblank
  rw [← itemFront_append_itemEnd false (ts.dropWhile isWhitespace)] at hcut
  obtain ⟨hstop, hparams, hbetween⟩ := ahead_splitEnd hcut
  rw [itemFront_append_itemEnd] at hparams
  simp only [atRuleAt, ahead_offset h, ahead_text h, ahead_bump h, ahead_offset h.tail, hskip,
    ahead_offset hblank, Token.ahead_between_dropWhile isWhitespace h.tail, hname, ok_bind, hterm,
    hstop, hparams, ahead_offset hend, hbetween, ahead_kind hend]
  unfold atRuleCut
  cases hitem : itemEnd false (ts.dropWhile isWhitespace) with
  | nil =>
    rw [hitem] at hend
    exact ⟨_, rfl, rfl, hend⟩
  | cons u us =>
    rw [hitem] at hend
    simp only [kindOf, ahead_bump hend]
    by_cases hbrace : u.kind = .leftBrace
    · rw [if_pos hbrace, hbrace]
      exact ⟨_, rfl, rfl, hend, hbrace⟩
    by_cases hsemi : u.kind = .semicolon
    · rw [if_neg hbrace, if_pos hsemi, hsemi]
      exact ⟨_, rfl, rfl, hend.tail⟩
    · rw [if_neg hbrace, if_neg hsemi]
      cases hu : u.kind with
      | leftBrace => exact absurd hu hbrace
      | semicolon => exact absurd hu hsemi
      | _ => exact ⟨_, rfl, rfl, hend⟩

/-! ### Values -/

/-- The indices of the tokens that are not white space, from `p` on. -/
def contentIndices (p : Nat) : List Token → List Nat
  | [] => []
  | t :: ts => if t.isWhitespace then contentIndices (p + 1) ts else p :: contentIndices (p + 1) ts

theorem contentIndices_append (p : Nat) (ts us : List Token) :
    contentIndices p (ts ++ us) = contentIndices p ts ++ contentIndices (p + ts.length) us := by
  induction ts generalizing p with
  | nil => rfl
  | cons t ts ih =>
    simp only [List.cons_append, contentIndices, ih, List.length_cons, Nat.add_assoc,
      Nat.add_comm 1]
    split <;> rfl

theorem contentIndices_of_blank (p : Nat) {ts : List Token} (h : ∀ t ∈ ts, t.isWhitespace) :
    contentIndices p ts = [] := by
  induction ts generalizing p with
  | nil => rfl
  | cons t ts ih =>
    rw [contentIndices, if_pos (h t List.mem_cons_self)]
    exact ih (p + 1) fun u hu => h u (List.mem_cons_of_mem t hu)

/-- The last index is that of the last token that is not white space. -/
theorem reverse_contentIndices (p : Nat) {front blanks : List Token} (ht : t.isWhitespace = false)
    (hb : ∀ u ∈ blanks, u.isWhitespace) :
    (contentIndices p (front ++ t :: blanks)).reverse =
      (p + front.length) :: (contentIndices p front).reverse := by
  rw [contentIndices_append, contentIndices, ht, contentIndices_of_blank _ hb]
  simp

theorem ahead_contentFrom (h : Ahead (lex source) p (ts ++ us)) :
    contentFrom (Layout.of source) ts.length p = .ok (contentIndices p ts) := by
  induction ts generalizing p with
  | nil => rfl
  | cons t ts ih =>
    rw [List.length_cons, contentFrom, ahead_kind h, ok_bind, ih h.tail, contentIndices]
    simp only [kindOf, List.cons_append, ok_bind, isWhitespace, decide_eq_true_eq]
    rfl

theorem ahead_endOfFirst (h : Ahead (lex source) p (ts ++ us)) :
    endOfFirst (Layout.of source) (startOf source.utf8ByteSize (ts ++ us))
        (contentIndices p ts).reverse =
      .ok (startOf source.utf8ByteSize (ts.drop (trimEnd ts).length ++ us)) := by
  rcases trimEnd_cases ts with ⟨htrim, hall⟩ | ⟨front, t, blanks, rfl, ht, hb, htrim⟩
  · rw [contentIndices_of_blank p hall, htrim]
    rfl
  · rw [List.append_assoc] at h
    rw [reverse_contentIndices p ht hb, endOfFirst, ahead_stop h.append, htrim]
    simp

theorem dropWhile_of_blank {blanks : List Token} (hb : ∀ u ∈ blanks, u.isWhitespace)
    (ts : List Token) : (blanks ++ ts).dropWhile isWhitespace = ts.dropWhile isWhitespace :=
  List.dropWhile_append_of_pos hb

/-- One token is no mark. -/
theorem splitImportant_single {blanks : List Token} (hb : ∀ u ∈ blanks, u.isWhitespace)
    (last : Token) : splitImportant (blanks ++ [last]) = (blanks ++ [last], none) := by
  have hdrop : blanks.reverse.dropWhile isWhitespace = [] :=
    List.dropWhile_eq_nil_iff.mpr fun u hu => hb u (List.mem_reverse.mp hu)
  simp [splitImportant, hdrop]

/-- The last two tokens are the mark if they are `!` and `important`. -/
theorem splitImportant_pair {bang : Token} {blanks : List Token} (front : List Token)
    (hbang : bang.isWhitespace = false) (hb : ∀ u ∈ blanks, u.isWhitespace) (last : Token) :
    splitImportant (front ++ bang :: blanks ++ [last]) =
      if (bang.kind = .delim '!' ∧ last.kind = .ident) ∧ sameWord last.text "important" then
        (trimEnd front, some ((front ++ bang :: blanks ++ [last]).drop (trimEnd front).length))
      else (front ++ bang :: blanks ++ [last], none) := by
  have hreverse : (front ++ bang :: blanks ++ [last]).reverse =
      last :: (blanks.reverse ++ bang :: front.reverse) := by simp
  have hdrop : (blanks.reverse ++ bang :: front.reverse).dropWhile isWhitespace =
      bang :: front.reverse := by
    rw [dropWhile_of_blank fun u hu => hb u (List.mem_reverse.mp hu),
      List.dropWhile_cons_of_neg (by rw [hbang]; decide)]
  unfold splitImportant
  simp only [hreverse, hdrop]
  by_cases hlast : last.kind = .ident ∧ sameWord last.text "important"
  · by_cases hk : bang.kind = .delim '!'
    · simp [hlast, hk, trimEnd]
    · simp [hlast, hk]
  · have hnot : ¬ ((bang.kind = .delim '!' ∧ last.kind = .ident) ∧
        sameWord last.text "important") := fun hc => hlast ⟨hc.1.2, hc.2⟩
    rw [if_neg hnot, if_neg]
    simpa using hlast

/-- The mark `!important` is found by the indices of the last two tokens. -/
theorem ahead_importantAt (h : Ahead (lex source) p (ts ++ us)) :
    importantAt (Layout.of source) (startOf source.utf8ByteSize (ts ++ us))
        (startOf source.utf8ByteSize (ts.drop (trimEnd ts).length ++ us))
        (contentIndices p ts).reverse =
      .ok (startOf source.utf8ByteSize
          (ts.drop (splitImportant (trimEnd ts)).1.length ++ us),
        (splitImportant (trimEnd ts)).2.map textOf) := by
  rcases trimEnd_cases ts with ⟨htrim, hall⟩ | ⟨front, last, blanks, rfl, hl, hb, htrim⟩
  · rw [contentIndices_of_blank p hall, htrim]
    rfl
  rw [reverse_contentIndices p hl hb, htrim]
  have hlast : Ahead (lex source) (p + front.length) (last :: (blanks ++ us)) := by
    rw [List.append_assoc] at h
    exact h.append
  rcases trimEnd_cases front with ⟨htrim', hall⟩ | ⟨front, bang, blanks', rfl, hl', hb', htrim'⟩
  · rw [contentIndices_of_blank p hall, splitImportant_single hall]
    rfl
  have hbang : Ahead (lex source) (p + front.length)
      (bang :: (blanks' ++ last :: (blanks ++ us))) := by
    simp only [List.append_assoc, List.cons_append] at h
    exact h.append
  rw [reverse_contentIndices p hl' hb', splitImportant_pair front hl' hb' last]
  have hblanks : (front ++ bang :: blanks' ++ last :: blanks).drop
      (front ++ bang :: blanks' ++ [last]).length = blanks := by
    rw [List.append_cons _ last blanks]
    exact List.drop_left
  simp only [importantAt, ahead_kind hbang, ahead_kind hlast, ahead_text hlast, ok_bind, kindOf,
    hblanks]
  by_cases hmark : bang.kind = .delim '!' ∧ last.kind = .ident
  · by_cases hword : sameWord last.text "important"
    · -- what is left behind the value, with the mark and without it
      have hle := (isPrefix_trimEnd front).length_le
      have hall : front ++ bang :: blanks' ++ last :: blanks ++ us =
          front ++ (bang :: blanks' ++ [last] ++ (blanks ++ us)) := by simp
      have hrest : (front ++ bang :: blanks' ++ last :: blanks).drop (trimEnd front).length ++ us =
          front.drop (trimEnd front).length ++ (bang :: blanks' ++ [last] ++ (blanks ++ us)) := by
        rw [List.append_assoc, List.append_assoc, List.drop_append_of_le_length hle]
        simp
      have htext : (front ++ bang :: blanks' ++ [last]).drop (trimEnd front).length =
          front.drop (trimEnd front).length ++ (bang :: blanks' ++ [last]) := by
        rw [List.append_assoc, List.drop_append_of_le_length hle]
      rw [hall] at h
      have hmarked := h.drop (n := (trimEnd front).length) (by rw [List.length_append]; omega)
      rw [List.drop_append_of_le_length hle, ← List.append_assoc] at hmarked
      rw [if_pos hmark, if_pos hword, if_pos ⟨hmark, hword⟩, hall, ahead_endOfFirst h, ok_bind,
        hrest, htext, ← List.append_assoc, ahead_between hmarked]
      rfl
    · rw [if_pos hmark, if_neg hword, if_neg fun hc => hword hc.2]
      simp only [hblanks]
      rfl
  · rw [if_neg hmark, if_neg fun hc => hmark hc.1]
    simp only [hblanks]
    rfl

theorem isPrefix_splitImportant (ts : List Token) : (splitImportant ts).1 <+: ts := by
  rcases splitImportant_cases ts with hsplit | ⟨front, bang, mark, hvalue, -, hsplit⟩
  · simp [hsplit]
  · rw [hsplit, hvalue]
    exact (isPrefix_trimEnd front).trans (List.prefix_append ..)

theorem ahead_valueAt (custom : Bool) (before : String) (t : Token) {p' : Nat}
    {taken tail : List Token} (h : Ahead (lex source) p' (taken ++ tail))
    (ht : Ahead (lex source) p tail) :
    ∃ a, valueAt (Layout.of source) custom before t.text t.start
        (startOf source.utf8ByteSize (taken ++ tail)) p = .ok a ∧
      (Cut.done (.declaration (declarationOf custom before t (textOf taken) tail))
        ((itemEnd custom tail).drop
          (if (declarationOf custom before t (textOf taken) tail).semicolon then 1 else 0))).Matches
        source a := by
  obtain ⟨hterm, hend⟩ := ahead_terminator_eq custom ht
  have hcut := ht
  rw [← itemFront_append_itemEnd custom tail] at hcut
  obtain ⟨-, -, htrailing⟩ := ahead_splitEnd hcut
  have hcontent := ahead_contentFrom hcut
  have hstop := ahead_endOfFirst hcut
  have himportant := ahead_importantAt hcut
  have hvalue := ahead_between_prefix hcut
    ((isPrefix_splitImportant _).trans (isPrefix_trimEnd (itemFront custom tail)))
  rw [itemFront_append_itemEnd] at hstop himportant hvalue
  simp only [valueAt, ahead_offset ht, ahead_between h, hterm, ok_bind, Nat.add_sub_cancel_left,
    hcontent, hstop, himportant, hvalue, ahead_offset hend, htrailing, ahead_kind hend]
  unfold declarationOf
  cases hitem : itemEnd custom tail with
  | nil =>
    rw [hitem] at hend
    exact ⟨_, rfl, rfl, hend⟩
  | cons u us =>
    rw [hitem] at hend
    simp only [kindOf, ahead_bump hend, List.head?_cons, Option.any_some]
    by_cases hu : u.kind = .semicolon
    · simp only [hu, decide_true, if_true]
      exact ⟨_, rfl, rfl, hend.tail⟩
    · simp only [hu, decide_false]
      exact ⟨_, rfl, rfl, hend⟩

/-! ### Declarations -/

theorem ahead_unknownWordAt {plain : List Token} {p' : Nat}
    (h : Ahead (lex source) p (t :: ts)) (h' : Ahead (lex source) p' us)
    (hus : t :: ts = plain ++ us) (hplain : ∀ u ∈ plain, isPlain u) :
    unknownWordAt (Layout.of source) t.start p' = .ok (unknownItem t ts) := by
  obtain ⟨hterm, hend⟩ := ahead_terminator_eq false h'
  have hitem : itemEnd false us = itemEnd false (t :: ts) := by
    rw [hus, itemEnd_append_of_isPlain false hplain]
  have hcut := h
  rw [← itemFront_append_itemEnd false (t :: ts)] at hcut
  have hle := Token.ahead_startOf_le hcut
  have hword := ahead_between hcut
  rw [itemFront_append_itemEnd, startOf] at hle hword
  simp only [unknownWordAt, hterm, ok_bind, ahead_offset hend, hitem, Nat.max_eq_left hle, hword]
  rfl

/-- An item, or the complaint that the tokens are none. -/
def cutOr (t : Token) (ts : List Token) : Option Cut → Except SyntaxError Cut
  | some c => .ok c
  | none => .error (unknownItem t ts)

theorem follows_declarationAt (custom : Bool) (before : String)
    (h : Ahead (lex source) p (t :: ts)) :
    Follows (Cut.Matches source) (declarationAt (Layout.of source) custom before p)
      (cutOr t ts (declarationCut custom before t ts)) := by
  have hsplit : ts.takeWhile isTrivia ++ ts.dropWhile isTrivia = ts :=
    List.takeWhile_append_dropWhile
  obtain ⟨q, hskip, htrivia⟩ := ahead_skip (f := isTrivia) (q := Kind.isTrivia) (fun _ => rfl) rfl
    h.tail
  -- the complaints at both places where the name or the colon is missing
  have hfirst : unknownWordAt (Layout.of source) t.start p = .ok (unknownItem t ts) :=
    ahead_unknownWordAt h h (List.nil_append (t :: ts)).symm fun u hu => nomatch hu
  have hsecond (hk : t.kind = .ident) :
      unknownWordAt (Layout.of source) t.start q = .ok (unknownItem t ts) := by
    have htokens : t :: ts = t :: ts.takeWhile isTrivia ++ ts.dropWhile isTrivia := by
      rw [List.cons_append, hsplit]
    refine ahead_unknownWordAt h htrivia htokens (List.forall_mem_cons.mpr ⟨?_, fun u hu => ?_⟩)
    · simp [isPlain, hk]
    · have hu : isTrivia u := List.mem_takeWhile_imp hu
      rw [isTrivia] at hu
      simp [isPlain, hu]
  have hoffset : (Layout.of source).offset p = .ok t.start := ahead_offset h
  simp only [declarationAt, hoffset, ahead_kind h, ok_bind, kindOf, ahead_text h,
    ahead_bump h, ahead_offset h.tail, hskip, ahead_kind htrivia, hfirst]
  unfold declarationCut
  by_cases hk : t.kind = .ident
  · rw [if_pos hk, hsecond hk]
    cases hc : ts.dropWhile isTrivia with
    | nil => exact .refused _
    | cons colon behind =>
      rw [hc] at htrivia hsplit
      by_cases hcolon : colon.kind = .colon
      · -- the tokens between the name and the value
        obtain ⟨q', hskip', hblank⟩ := ahead_skip (f := isWhitespace) (q := isBlankKind)
          (fun _ => rfl) rfl htrivia.tail
        have htaken : ts = ts.takeWhile isTrivia ++ colon :: behind.takeWhile isWhitespace ++
            behind.dropWhile isWhitespace := by
          rw [List.append_assoc, List.cons_append, List.takeWhile_append_dropWhile, hsplit]
        have htail := h.tail
        rw [htaken] at htail
        obtain ⟨a, hvalue, hmatches⟩ := ahead_valueAt custom before t htail hblank
        rw [← htaken] at hvalue
        rw [Token.textOf_append, Token.textOf_cons, ← String.append_assoc] at hmatches
        simp only [hcolon, if_true, ahead_bump htrivia, ok_bind, hskip', hk, hvalue]
        exact .ok hmatches
      · simp only [hcolon, if_false, hk]
        exact .refused _
  · rw [if_neg hk]
    cases ts.dropWhile isTrivia with
    | nil => exact .refused _
    | cons colon behind =>
      simp only [hk]
      exact .refused _

/-! ### Items -/

/-- The first token that is not white space is the same in both views; the end
mark is no colon. -/
theorem find?_spans (n : Nat) (ts : List Token) :
    (((ts ++ [Token.endOf n]).map Token.span).find? fun s => s.kind ≠ .whitespace).any
        (fun s => s.kind = .colon) =
      (ts.dropWhile isWhitespace).head?.any fun u => u.kind = .colon := by
  induction ts with
  | nil => rfl
  | cons t ts ih =>
    rw [List.cons_append, List.map_cons]
    by_cases ht : t.kind = .whitespace
    · rw [List.find?_cons_of_neg (by simp [Token.span, ht]),
        List.dropWhile_cons_of_pos (by simp [isWhitespace, ht])]
      exact ih
    · rw [List.find?_cons_of_pos (by simp [Token.span, ht]),
        List.dropWhile_cons_of_neg (by simp [isWhitespace, ht])]
      rfl

theorem ahead_isCustomAt (h : Ahead (lex source) p (t :: ts)) :
    isCustomAt (Layout.of source) p = .ok (startsCustomProperty (t :: ts)) := by
  have hspans := Token.ahead_spans h.tail
  have hrange : range (Layout.of source).spans (p + 1) (Layout.of source).spans.length =
      .ok ((ts ++ [Token.endOf source.utf8ByteSize]).map Token.span) := by
    rw [← List.append_nil (List.map _ _)] at hspans
    rw [← hspans.range, ← hspans.length_eq, List.append_nil]
  simp only [isCustomAt, ahead_kind h, ahead_text h, ok_bind, kindOf, hrange, pure_eq_ok,
    find?_spans, startsCustomProperty]
  by_cases hk : t.kind = .ident
  · rw [if_pos hk]
    split
    next hdashes => simp [hk, hdashes]
    next hdashes => simp [hk, hdashes]
  · simp [hk]

theorem follows_ruleOrDeclarationAt (before : String) (h : Ahead (lex source) p (t :: ts)) :
    Follows (Cut.Matches source) (ruleOrDeclarationAt (Layout.of source) before p)
      (cutOr t ts (ruleOrDeclarationCut before t ts)) := by
  rw [ruleOrDeclarationAt, ahead_isCustomAt h, ok_bind, ruleOrDeclarationCut]
  by_cases hcustom : startsCustomProperty (t :: ts)
  · rw [if_pos hcustom, if_pos hcustom]
    exact follows_declarationAt true before h
  rw [if_neg hcustom, if_neg hcustom]
  obtain ⟨hterm, hend⟩ := ahead_terminator_eq false h
  have hcut := h
  rw [← itemFront_append_itemEnd false (t :: ts)] at hcut
  obtain ⟨hstop, hselector, hbetween⟩ := ahead_splitEnd hcut
  rw [itemFront_append_itemEnd] at hselector
  simp only [hterm, ok_bind, ahead_kind hend, ahead_offset h, hstop, hselector, ahead_offset hend,
    hbetween]
  cases hitem : itemEnd false (t :: ts) with
  | nil => exact follows_declarationAt false before h
  | cons brace body =>
    rw [hitem] at hend
    by_cases hbrace : brace.kind = .leftBrace
    · simp only [kindOf, hbrace, if_true]
      exact .ok ⟨rfl, hend, hbrace⟩
    · simp only [kindOf, hbrace, if_false]
      exact follows_declarationAt false before h

theorem follows_itemAt (before : String) (h : Ahead (lex source) p (t :: ts)) :
    Follows (Cut.Matches source) (itemAt (Layout.of source) before p)
      (cutOr t ts (itemCut before t ts)) := by
  have hrule := follows_ruleOrDeclarationAt before h
  rw [itemAt, ahead_kind h, ok_bind, kindOf]
  unfold itemCut
  cases hk : t.kind with
  | comment terminated =>
    simp only [commentAt, ahead_offset h, ahead_text h, ahead_bump h, ok_bind]
    exact .ok ⟨rfl, h.tail⟩
  | atKeyword =>
    obtain ⟨a, hat, hmatches⟩ := ahead_atRuleAt before h hk
    rw [hat]
    exact .ok hmatches
  | _ => exact hrule

theorem result_readDeclaration (custom : Bool) (before : String) (t : Token) (rest : List Token) :
    (readDeclaration custom before t rest).result.map Item.cut =
      cutOr t rest (declarationCut custom before t rest) := by
  rw [← cut_readDeclaration]
  have herror : ∀ e, (readDeclaration custom before t rest).result = .error e →
      e = unknownItem t rest := by
    intro e he
    unfold readDeclaration at he
    simp only at he
    split at he
    · exact (Except.error.inj he).symm
    · split at he
      · cases he
      · exact (Except.error.inj he).symm
  cases h : (readDeclaration custom before t rest).result with
  | ok item => rfl
  | error e =>
    rw [herror e h]
    rfl

theorem result_readItem (before : String) (t : Token) (rest : List Token) :
    (readItem before t rest).result.map Item.cut = cutOr t rest (itemCut before t rest) := by
  have hrule : (readRuleOrDeclaration before t rest).result.map Item.cut =
      cutOr t rest (ruleOrDeclarationCut before t rest) := by
    simp only [readRuleOrDeclaration, ruleOrDeclarationCut, itemEnd, itemFront]
    split
    · exact result_readDeclaration true before t rest
    split
    next h =>
      simp only [h]
      exact result_readDeclaration false before t rest
    next brace body h =>
      simp only [h]
      split
      · rfl
      · exact result_readDeclaration false before t rest
  unfold readItem itemCut
  split
  · rfl
  split
  · exact congrArg Except.ok (cut_readAtRule before t rest)
  · exact hrule

theorem follows_readItem (before : String) (h : Ahead (lex source) p (t :: ts)) :
    Follows (fun a (item : Item (ts.length + 1)) => item.cut.Matches source a)
      (itemAt (Layout.of source) before p) (readItem before t ts).result :=
  .of_map (result_readItem before t ts ▸ follows_itemAt before h)

/-! ### Sheets -/

/-- The items that are read from the tokens, or the error. -/
def outcome (limit depth : Nat) (ts : List Token) : Except SyntaxError Listing :=
  (parseItems limit depth ts).result.map Items.listing

/-- The block behind an opening brace, without the brace that closes it. -/
def blockOutcome (limit depth : Nat) (brace : Token) (body : List Token) :
    Except SyntaxError Listing :=
  if limit ≤ depth then .error (.nestingTooDeep limit brace.start)
  else do
    let block ← outcome limit (depth + 1) body
    match block.rest with
    | [] => .error (.unclosedBlock brace.start)
    | _ :: rest => return { block with rest }

/-- How a list of items goes on behind a cut. -/
def outcomeFrom (limit depth : Nat) : Cut → Except SyntaxError Listing
  | .done node rest => do return (← outcome limit depth rest).prepend [node]
  | .opened head brace body => do
    let block ← blockOutcome limit depth brace body
    return (← outcome limit depth block.rest).prepend [head.node block.nodes block.after]

theorem outcome_eq (limit depth : Nat) (ts : List Token) :
    outcome limit depth ts =
      match ts.dropWhile isFiller with
      | [] => .ok ⟨[], textOf (ts.takeWhile isFiller), []⟩
      | t :: rest =>
        if t.kind = .rightBrace then .ok ⟨[], textOf (ts.takeWhile isFiller), t :: rest⟩
        else (readItem (textOf (ts.takeWhile isFiller)) t rest).result >>= fun item =>
          outcomeFrom limit depth item.cut := by
  rw [outcome, parseItems]
  simp only
  split
  next h =>
    simp only [h]
    rfl
  next t rest h =>
    simp only [h]
    split
    · rfl
    rw [Traced.result_bind]
    cases (readItem (textOf (ts.takeWhile isFiller)) t rest).result with
    | error e => rfl
    | ok item =>
      cases item with
      | done node rest' hlt =>
        simp only [Item.cut, outcomeFrom, outcome, ok_bind, Traced.result_bind]
        cases (parseItems limit depth rest').result <;> rfl
      | opened head brace body hlt =>
        simp only [Item.cut, outcomeFrom, blockOutcome, outcome, ok_bind]
        split
        · rfl
        rw [Traced.result_bind]
        cases (parseItems limit (depth + 1) body).result with
        | error e => rfl
        | ok block =>
          have hblock : (Except.ok block).map Items.listing =
              (.ok ⟨block.nodes, block.after, block.rest⟩ : Except SyntaxError Listing) := rfl
          simp only [hblock, ok_bind]
          split
          next hr =>
            simp only [hr]
            rfl
          next u rest' hr =>
            simp only [hr, Traced.result_bind, pure_eq_ok, ok_bind]
            cases (parseItems limit depth rest').result <;> rfl

/-- A closing brace that is left over is an error at the top level. -/
def Listing.settle (isTop : Bool) (l : Listing) : Except SyntaxError Listing :=
  match isTop, l.rest with
  | true, t :: _ => .error (.unexpectedCloseBrace t.start)
  | _, _ => .ok l

theorem Listing.settle_prepend (isTop : Bool) (ns : List Node) (l : Listing) :
    (l.prepend ns).settle isTop = l.settle isTop >>= fun l => .ok (l.prepend ns) := by
  obtain ⟨nodes, after, rest⟩ := l
  cases isTop <;> cases rest <;> rfl

/-- The section has these items, at this depth, and at most `n` tokens are left
ahead of it. -/
structure Section.Matches (source : String) (depth n : Nat) (s : Section) (l : Listing) :
    Prop where
  nodes : s.nodes = l.nodes
  after : s.after = l.after
  depth : s.mark.depth = depth
  ahead : Ahead (lex source) s.mark.position l.rest
  length : l.rest.length ≤ n

theorem follows_blockAt {limit depth : Nat} {items : Mark → Checked Section} {brace : Token}
    {body : List Token} (h : Ahead (lex source) p (brace :: body))
    (hi : Follows
      (fun s l => s.Matches source (depth + 1) body.length l ∧ Token.StopsAt .rightBrace l.rest)
      (items ⟨p + 1, depth + 1⟩) (outcome limit (depth + 1) body)) :
    Follows (Section.Matches source depth body.length)
      (blockAt (Layout.of source) limit items ⟨p, depth⟩)
      (blockOutcome limit depth brace body) := by
  have hoffset : (Layout.of source).offset p = .ok brace.start := ahead_offset h
  simp only [blockAt, blockOutcome, hoffset, ahead_bump h, ok_bind, Nat.lt_succ_iff]
  split
  · exact .refused _
  refine hi.bind ?_
  rintro ⟨nodes, after, q, depth'⟩ ⟨nodes', after', rest⟩ ⟨⟨rfl, rfl, rfl, hrest, hle⟩, hstops⟩
  simp only [ahead_kind hrest, ok_bind]
  cases rest with
  | nil => exact .refused _
  | cons t rest =>
    simp only [kindOf, Token.stopsAt_cons.mp hstops, if_true, ahead_bump hrest, ok_bind,
      minus_add_right]
    exact .ok ⟨rfl, rfl, rfl, hrest.tail, Nat.le_of_succ_le hle⟩

/-- The section of the items from here on, with a node in front of them. -/
theorem follows_cons {limit depth k : Nat} {isTop : Bool} {x : Checked Section}
    (h : Follows
      (fun s l => s.Matches source depth ts.length l ∧ Token.StopsAt .rightBrace l.rest)
      x (outcome limit depth ts >>= Listing.settle isTop))
    (hle : ts.length ≤ k) (node : Node) :
    Follows
      (fun s l => s.Matches source depth k l ∧ Token.StopsAt .rightBrace l.rest)
      (x >>= fun s => .ok { s with nodes := node :: s.nodes })
      ((outcome limit depth ts >>= fun l => .ok (l.prepend [node])) >>= Listing.settle isTop) := by
  have hsettle : ((outcome limit depth ts >>= fun l => .ok (l.prepend [node])) >>=
      Listing.settle isTop) = (outcome limit depth ts >>= Listing.settle isTop) >>=
        fun l => .ok (l.prepend [node]) := by
    simp only [bind_assoc, ok_bind, Listing.settle_prepend]
  rw [hsettle]
  refine h.bind_pure ?_
  rintro s l ⟨⟨hnodes, hafter, hdepth, hahead, hlength⟩, hstops⟩
  exact ⟨⟨congrArg (node :: ·) hnodes, hafter, hdepth, hahead, hlength.trans hle⟩, hstops⟩

theorem follows_itemsFrom {limit n depth : Nat} {isTop : Bool} (h : Ahead (lex source) p ts)
    (hn : ts.length < n) :
    Follows
      (fun s l => s.Matches source depth ts.length l ∧ Token.StopsAt .rightBrace l.rest)
      (itemsFrom (Layout.of source) limit n isTop ⟨p, depth⟩)
      (outcome limit depth ts >>= Listing.settle isTop) := by
  induction n generalizing p ts depth isTop with
  | zero => cases hn
  | succ n ih =>
    obtain ⟨q, hskip, hitem⟩ := ahead_skip (f := isFiller) (q := isFillerKind) (fun _ => rfl) rfl h
    have hbefore := Token.ahead_between_dropWhile isFiller h
    rw [outcome_eq]
    simp only [itemsFrom, ahead_offset h, hskip, ahead_offset hitem, hbefore, ok_bind,
      ahead_kind hitem]
    cases hts : ts.dropWhile isFiller with
    | nil =>
      rw [hts] at hitem
      cases isTop <;>
        exact .ok ⟨⟨rfl, rfl, rfl, hitem, Nat.zero_le _⟩, Token.stopsAt_nil _⟩
    | cons t rest =>
      rw [hts] at hitem
      have hlt : rest.length < ts.length := Token.length_lt_of_dropWhile hts
      have heof : t.kind ≠ .eof := Token.ne_eof_of_mem_lexFrom (hitem.mem List.mem_cons_self)
      by_cases hk : t.kind = .rightBrace
      · simp only [kindOf, hk, if_true, ok_bind]
        cases isTop with
        | true => exact .refused _
        | false => exact .ok ⟨⟨rfl, rfl, rfl, hitem, hlt⟩, Token.stopsAt_cons.mpr hk⟩
      · simp only [kindOf, hk, if_false, bind_assoc]
        refine (follows_readItem _ hitem).bind ?_
        rintro ⟨piece, q'⟩ item hmatches
        cases item with
        | done node rest' hdone =>
          obtain ⟨rfl, hrest⟩ := hmatches
          exact follows_cons (ih hrest (by omega)) (by omega) node
        | opened head brace body hbody =>
          obtain ⟨rfl, hbrace, -⟩ := hmatches
          have hinside : Follows
              (fun s l => s.Matches source (depth + 1) body.length l ∧
                Token.StopsAt .rightBrace l.rest)
              (itemsFrom (Layout.of source) limit n false ⟨q' + 1, depth + 1⟩)
              (outcome limit (depth + 1) body >>= Listing.settle false) :=
            ih hbrace.tail (by omega)
          have hsettle : Listing.settle false = pure := rfl
          rw [hsettle, bind_pure] at hinside
          simp only [nodeOf, Item.cut, outcomeFrom, bind_assoc]
          refine (follows_blockAt hbrace hinside).bind ?_
          rintro ⟨nodes, after, p', depth'⟩ ⟨nodes', after', rest'⟩ ⟨rfl, rfl, rfl, hrest, hle⟩
          simp only at hrest hle
          rw [← bind_assoc]
          exact follows_cons (ih hrest (by omega)) (by omega) _

/-! ### The whole source -/

/-- Reads a sheet by position, from its characters on. -/
def parseByPosition (limit : Nat) (source : String) : Checked Sheet := do
  let l : Layout := ⟨source, ← Token.spansOf source⟩
  let s ← itemsFrom l limit l.rounds true ⟨0, 0⟩
  return ⟨s.nodes, s.after⟩

/-- **Reading a sheet by position has no fault and gives the sheet, or the error
that the source is refused with.** -/
theorem parseByPosition_eq (limit : Nat) (source : String) :
    parseByPosition limit source = (parseWithin limit source).result.mapError .refused := by
  have hstart := Ahead.start (lex source)
  have hitems : Follows
      (fun s l => s.Matches source 0 (lex source).length l ∧ Token.StopsAt .rightBrace l.rest)
      (itemsFrom (Layout.of source) limit (Layout.of source).rounds true ⟨0, 0⟩)
      (outcome limit 0 (lex source) >>= Listing.settle true) :=
    follows_itemsFrom hstart (Token.ahead_length_lt hstart)
  have hparse : (parseWithin limit source).result =
      (outcome limit 0 (lex source) >>= Listing.settle true) >>= fun l =>
        .ok ⟨l.nodes, l.after⟩ := by
    rw [parseWithin, Traced.result_bind, outcome]
    cases (parseItems limit 0 (lex source)).result with
    | error e => rfl
    | ok items =>
      obtain ⟨nodes, after, rest, hrest⟩ := items
      cases rest <;> rfl
  rw [hparse]
  refine Follows.eq_mapError ?_
  rw [parseByPosition, Token.spansOf_eq, ok_bind]
  refine hitems.bind_pure ?_
  rintro s l ⟨hmatches, -⟩
  rw [hmatches.nodes, hmatches.after]

end Ahead
end Sheet

/-- **No source makes a reader by position go wrong.** Tokens, sheets, selector
lists and values that are read by position are those that are read from lists, or
are refused with the same error. So no index is behind the end, no slice ends
before it starts or cuts a character apart, no difference is below zero, and no
loop goes on for ever. -/
theorem reading_by_position (source : String) :
    (Token.spansOf source = .ok ((Token.tokenize source).map Token.span) ∧
      Sheet.parseByPosition nestingLimit source =
        (Sheet.parse source).result.mapError .refused ∧
      Selector.parseByPosition nestingLimit source = (Selector.parse source).mapError .refused ∧
      Value.parseByPosition nestingLimit source = (Value.parse source).mapError .refused) ∧
    ∀ f : Fault, Token.spansOf source ≠ Checked.crash f ∧
      Sheet.parseByPosition nestingLimit source ≠ Checked.crash f ∧
      Selector.parseByPosition nestingLimit source ≠ Checked.crash f ∧
      Value.parseByPosition nestingLimit source ≠ Checked.crash f := by
  have htokens := Token.spansOf_eq source
  have hsheet := Sheet.parseByPosition_eq nestingLimit source
  have hselector := Selector.parseByPosition_eq nestingLimit source
  have hvalue := Value.parseByPosition_eq nestingLimit source
  refine ⟨⟨htokens, hsheet, hselector, hvalue⟩, fun f => ?_⟩
  rw [htokens, hsheet, hselector, hvalue]
  exact ⟨nofun, Checked.mapError_ne_crash _ f, Checked.mapError_ne_crash _ f,
    Checked.mapError_ne_crash _ f⟩

end StyleScope
