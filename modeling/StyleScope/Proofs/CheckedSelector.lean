/-
# Reading selectors by position

The reader of selectors by position goes through an alternative with the nodes
it has so far, and reads the arguments of a pseudo-class as a list again, one
level deeper. It cuts names out of the texts of tokens, the number sign and the
parenthesis left away, and looks for the white space that ends an escape from
the end of a name.

Key definitions: `Selector.alternativeFrom`, `Selector.listFrom`,
`Selector.parseByPosition`.
Key theorems: `Selector.follows_alternativeFrom`, `Selector.parseByPosition_eq`.
-/
import StyleScope.Proofs.CheckedLexer
import StyleScope.Proofs.SelectorPrint

namespace StyleScope
namespace Selector

open Checked Text
open Token (Layout Mark ahead_between_cons ahead_bump ahead_kind ahead_offset ahead_skip ahead_text
  isTrivia isWhitespace kindOf lex startOf textOf)

/-! ### The reader -/

section Reader

variable (l : Layout)

/-- The kinds that end an alternative. -/
def isEndKind : Token.Kind → Bool
  | .comma | .rightParen | .eof => true
  | _ => false

/-- The position behind white space and comments, and whether there is white
space among them. -/
def triviaFrom : Nat → Bool → Nat → Checked (Bool × Nat)
  | 0, _, _ => crash .endless
  | n + 1, hasWhitespace, p => do
    let kind ← l.kind p
    if kind.isTrivia then triviaFrom n (hasWhitespace || kind = .whitespace) (← l.bump p)
    else return (hasWhitespace, p)

def endsCompoundAt (p : Nat) : Checked Bool := do
  let kind ← l.kind p
  return kind.isTrivia || (combinator? kind).isSome || isEndKind kind

/-- Where the token ends that closes all brackets, and the position behind it.
The brackets are counted from the first one on, which starts at byte `start`. -/
def closingFrom (opens closes : Token.Kind → Bool) (bracket : Char) (start : Nat) :
    Nat → Nat → Nat → Checked (Nat × Nat)
  | 0, _, _ => crash .endless
  | n + 1, depth, p => do
    let kind ← l.kind p
    if kind = .eof then refuse (.unclosedBracket bracket start)
    else
      let depth ←
        if opens kind then pure (depth + 1)
        else if closes kind then minus depth 1
        else pure depth
      let stop ← l.stop p
      let p ← l.bump p
      if depth = 0 then return (stop, p) else closingFrom opens closes bracket start n depth p

/-- The text in brackets that starts here, and the position behind it. -/
def bracketedAt (opens closes : Token.Kind → Bool) (bracket : Char) (p : Nat) :
    Checked (String × Nat) := do
  let start ← l.offset p
  let (stop, q) ← closingFrom l opens closes bracket start l.rounds 0 p
  return (← l.between start stop, q)

/-- The place in a name of the white space that ends a hex escape at its very
end. -/
def escapeEndAt (name : String) : Checked (Option Nat) :=
  match name.toList.getLast? with
  | none => return none
  | some c => do
    if isSpace c then
      let size ← minus name.utf8ByteSize c.utf8Size
      let body ← slice name 0 size
      let trimmed := String.ofList (body.toList.reverse.dropWhile (· = '\\')).reverse
      let backslashes ← minus body.utf8ByteSize trimmed.utf8ByteSize
      return if backslashes % 2 = 0 then some body.utf8ByteSize else none
    else return none

/-- The name without the white space that ends an escape, and that white space. -/
def splitNameAt (name : String) : Checked (String × String) := do
  match ← escapeEndAt name with
  | none => return (name, "")
  | some i => return (← slice name 0 i, ← slice name i name.utf8ByteSize)

/-- The node of a simple selector that ends in front of index `p`. -/
def leafAt (kind : Kind) (offset p : Nat) : Checked Tree := do
  let atEnd ← endsCompoundAt l p
  match kind with
  | .className name =>
    if atEnd then
      let (name, after) ← splitNameAt name
      return .leaf (.className name) ⟨"", after⟩ offset
    else return .leaf kind .none offset
  | .idName name =>
    if atEnd then
      let (name, after) ← splitNameAt name
      return .leaf (.idName name) ⟨"", after⟩ offset
    else return .leaf kind .none offset
  | _ => return .leaf kind .none offset

/-- The kind of a simple selector that is no pseudo-class, and the position
behind it. -/
def kindAt (p : Nat) : Checked (Kind × Nat) := do
  match ← l.kind p with
  | .delim c =>
    let text ← l.text p
    let p ← l.bump p
    if c = '.' then
      if (← l.kind p) = .ident then return (.className (← l.text p), ← l.bump p)
      else return (.className "", p)
    else if c = '#' then return (.idName "", p)
    else if c = '*' then return (.universal, p)
    else if c = '&' then return (.nesting, p)
    else return (.tag text, p)
  | .hash _ =>
    let text ← l.text p
    return (.idName (← slice text 1 text.utf8ByteSize), ← l.bump p)
  | .leftBracket =>
    let (text, q) ← bracketedAt l (· = .leftBracket) (· = .rightBracket) '[' p
    return (.attribute text, q)
  | .function | .leftParen =>
    let (text, q) ← bracketedAt l Token.Kind.opensParen (· = .rightParen) '(' p
    return (.tag text, q)
  | .rightBracket => refuse (.unexpectedCloseBracket ']' (← l.offset p))
  | .string _ => return (.string (← l.text p), ← l.bump p)
  | _ => return (.tag (← l.text p), ← l.bump p)

/-- The pseudo-class whose arguments start here, read by `list` one level
deeper. -/
def callAt (limit : Nat) (list : Mark → Checked (List Tree × Mark)) (name : String)
    (offset opened : Nat) (m : Mark) : Checked (Tree × Mark) := do
  if limit < m.depth + 1 then refuse (.nestingTooDeep limit opened)
  else
    let (alternatives, m) ← list ⟨m.position, m.depth + 1⟩
    if (← l.kind m.position) = .rightParen then
      let p ← l.bump m.position
      return (.node (.pseudo name true) .none offset alternatives, ⟨p, ← minus m.depth 1⟩)
    else refuse (.unclosedBracket '(' opened)

/-- The position behind the colons of a pseudo-class. -/
def colonsEnd (p : Nat) : Checked Nat := do
  let p ← l.bump p
  if (← l.kind p) = .colon then l.bump p else return p

def pseudoAt (limit : Nat) (list : Mark → Checked (List Tree × Mark)) (m : Mark) :
    Checked (Tree × Mark) := do
  let offset ← l.offset m.position
  let p ← colonsEnd l m.position
  let colons ← l.between offset (← l.offset p)
  match ← l.kind p with
  | .ident =>
    let name ← l.text p
    return (.leaf (.pseudo (colons ++ name) false) .none offset, ⟨← l.bump p, m.depth⟩)
  | .function =>
    let text ← l.text p
    if text.toList.getLast? = some '(' then
      let opened ← l.offset p
      let name ← slice text 0 (← minus text.utf8ByteSize 1)
      callAt l limit list (colons ++ name) offset opened ⟨← l.bump p, m.depth⟩
    else return (.leaf (.tag colons) .none offset, ⟨p, m.depth⟩)
  | _ => return (.leaf (.tag colons) .none offset, ⟨p, m.depth⟩)

def simpleAt (limit : Nat) (list : Mark → Checked (List Tree × Mark)) (m : Mark) :
    Checked (Tree × Mark) := do
  if (← l.kind m.position) = .colon then pseudoAt l limit list m
  else
    let offset ← l.offset m.position
    let (kind, p) ← kindAt l m.position
    return (← leafAt l kind offset p, ⟨p, m.depth⟩)

/-- The alternative with these nodes, the last one first, and the white space
and comments at its end. -/
def alternativeOf (start : Nat) (trailing : String) : List Tree → Tree
  | [] => .node .selector ⟨trailing, ""⟩ start []
  | last :: front =>
    .node .selector .none start (last.setAfter (last.spaces.after ++ trailing) :: front).reverse

/-- The nodes with a simple selector and the white space and comments in front
of it, the last one first. -/
def addSimple (trivia : String) (triviaStart : Nat) (hasWhitespace : Bool) (t : Tree) :
    List Tree → List Tree
  | [] => [t.setBefore trivia]
  | nodes =>
    if trivia = "" then t :: nodes
    else
      let kind := if hasWhitespace then .combinator .descendant trivia else .comment trivia
      t :: .leaf kind .none triviaStart :: nodes

/-- The alternative that goes on here behind `nodes`, the last one first, and
behind white space and comments; `next` reads what follows the next node. -/
def nextAt (limit : Nat) (list : Mark → Checked (List Tree × Mark))
    (next : List Tree → Mark → Checked (Tree × Mark)) (start : Nat) (nodes : List Tree)
    (trivia : String) (triviaStart : Nat) (hasWhitespace : Bool) (m : Mark) :
    Checked (Tree × Mark) := do
  let kind ← l.kind m.position
  if isEndKind kind then return (alternativeOf start trivia nodes, m)
  else
    match combinator? kind with
    | some c =>
      let offset ← l.offset m.position
      let text ← l.text m.position
      let p ← l.bump m.position
      let afterStart ← l.offset p
      let p ← l.skip Token.Kind.isTrivia p
      let after ← l.between afterStart (← l.offset p)
      next (.leaf (.combinator c text) ⟨trivia, after⟩ offset :: nodes) ⟨p, m.depth⟩
    | none =>
      let (node, m) ← simpleAt l limit list m
      next (addSimple trivia triviaStart hasWhitespace node nodes) m

/-- The alternative that goes on here behind `nodes`, the last one first. -/
def alternativeFrom (limit : Nat) (list : Mark → Checked (List Tree × Mark)) (start : Nat) :
    Nat → List Tree → Mark → Checked (Tree × Mark)
  | 0, _, _ => crash .endless
  | n + 1, nodes, m => do
    let triviaStart ← l.offset m.position
    let (hasWhitespace, p) ← triviaFrom l l.rounds false m.position
    let trivia ← l.between triviaStart (← l.offset p)
    nextAt l limit list (alternativeFrom limit list start n) start nodes trivia triviaStart
      hasWhitespace ⟨p, m.depth⟩

/-- The alternatives that follow this one, read by `list`. -/
def othersAt (list : Mark → Checked (List Tree × Mark)) (nested : Bool) (r : Tree × Mark) :
    Checked (List Tree × Mark) := do
  let (alternative, m) := r
  match ← l.kind m.position with
  | .comma =>
    let (others, m) ← list ⟨← l.bump m.position, m.depth⟩
    return (alternative :: others, m)
  | .rightParen =>
    if nested then return ([alternative], m)
    else refuse (.unexpectedCloseBracket ')' (← l.offset m.position))
  | _ => return ([alternative], m)

/-- The alternatives from here on, in the arguments of a pseudo-class if
`nested`. -/
def listFrom (limit : Nat) : Nat → Bool → Mark → Checked (List Tree × Mark)
  | 0, _, _ => crash .endless
  | n + 1, nested, m => do
    let start ← l.offset m.position
    let r ← alternativeFrom l limit (listFrom limit n true) start l.rounds [] m
    othersAt l (listFrom limit n nested) nested r

end Reader

section Ahead

variable {source : String} {p depth : Nat} {t : Token} {ts us : List Token}

/-! ### White space and ends -/

theorem ahead_triviaFrom {n : Nat} {b : Bool} (h : Ahead (lex source) p ts) (hn : ts.length < n) :
    ∃ q, triviaFrom (Layout.of source) n b p =
        .ok (b || (ts.takeWhile isTrivia).any isWhitespace, q) ∧
      Ahead (lex source) q (ts.dropWhile isTrivia) := by
  induction n generalizing p ts b with
  | zero => cases hn
  | succ n ih =>
    rw [triviaFrom, ahead_kind h, ok_bind]
    cases ts with
    | nil => exact ⟨p, by simp [kindOf, Token.Kind.isTrivia], h⟩
    | cons t ts =>
      rw [kindOf, ahead_bump h, ok_bind]
      by_cases ht : isTrivia t
      · obtain ⟨q, hq, hahead⟩ := ih (b := b || t.kind = .whitespace) h.tail
          (Nat.lt_of_succ_lt_succ hn)
        rw [List.takeWhile_cons_of_pos ht, List.dropWhile_cons_of_pos ht, List.any_cons,
          ← Bool.or_assoc]
        rw [isTrivia] at ht
        rw [if_pos ht]
        exact ⟨q, hq, hahead⟩
      · rw [List.takeWhile_cons_of_neg ht, List.dropWhile_cons_of_neg ht]
        rw [isTrivia] at ht
        rw [if_neg ht]
        exact ⟨p, by simp, h⟩

theorem isEndKind_eq {k : Token.Kind} (hk : k ≠ .eof) :
    isEndKind k = (decide (k = .comma) || decide (k = .rightParen)) := by
  cases k with
  | eof => exact absurd rfl hk
  | _ => rfl

theorem ahead_endsCompoundAt (h : Ahead (lex source) p ts) :
    endsCompoundAt (Layout.of source) p = .ok (endsCompound ts) := by
  rw [endsCompoundAt, ahead_kind h, ok_bind]
  cases ts with
  | nil => rfl
  | cons t ts =>
    have hk : t.kind ≠ .eof := Token.ne_eof_of_mem_lexFrom (h.mem List.mem_cons_self)
    rw [kindOf, endsCompound, isEndKind_eq hk, ← Bool.or_assoc]
    rfl

/-! ### Brackets -/

theorem closingLength_le {opens closes : Token.Kind → Bool} {depth n : Nat} {ts : List Token}
    (h : Token.closingLength opens closes depth ts = some n) : n ≤ ts.length := by
  induction ts generalizing depth n with
  | nil => cases h
  | cons t ts ih =>
    have hstep : ∀ {depth' : Nat},
        (Token.closingLength opens closes depth' ts).map (1 + ·) = some n →
          n ≤ (t :: ts).length := by
      intro depth' h
      obtain ⟨k, hk, rfl⟩ := Option.map_eq_some_iff.mp h
      have hle := ih hk
      rw [List.length_cons]
      omega
    rw [Token.closingLength.eq_def] at h
    dsimp only at h
    split at h
    · exact hstep h
    split at h
    · cases depth with
      | zero =>
        cases h
        exact Nat.succ_le_succ (Nat.zero_le _)
      | succ depth => exact hstep h
    · exact hstep h

/-- The brackets that are open are counted down to the last one, and no
further. -/
theorem ahead_closingFrom {opens closes : Token.Kind → Bool} {bracket : Char} {start n : Nat}
    (h : Ahead (lex source) p ts) (hn : ts.length < n) :
    closingFrom (Layout.of source) opens closes bracket start n (depth + 1) p =
      match Token.closingLength opens closes depth ts with
      | some k => .ok (startOf source.utf8ByteSize (ts.drop k), p + k)
      | none => refuse (.unclosedBracket bracket start) := by
  induction n generalizing p ts depth with
  | zero => cases hn
  | succ n ih =>
    rw [closingFrom, ahead_kind h, ok_bind]
    cases ts with
    | nil => rfl
    | cons t ts =>
      have hk : t.kind ≠ .eof := Token.ne_eof_of_mem_lexFrom (h.mem List.mem_cons_self)
      have hnext : ∀ depth, closingFrom (Layout.of source) opens closes bracket start n
          (depth + 1) (p + 1) =
            match (Token.closingLength opens closes depth ts).map (1 + ·) with
            | some k => .ok (startOf source.utf8ByteSize ((t :: ts).drop k), p + k)
            | none => refuse (.unclosedBracket bracket start) := by
        intro depth
        rw [ih h.tail (Nat.lt_of_succ_lt_succ hn)]
        cases Token.closingLength opens closes depth ts with
        | none => rfl
        | some k => simp only [Option.map_some, Nat.add_comm 1, List.drop_succ_cons, Nat.add_assoc]
      simp only [kindOf, if_neg hk, Token.ahead_stop h, ahead_bump h, ok_bind,
        Token.closingLength]
      by_cases ho : opens t.kind
      · simp only [if_pos ho, pure_eq_ok, ok_bind, Nat.add_eq_zero_iff, Nat.one_ne_zero, and_false,
          if_false]
        exact hnext (depth + 1)
      by_cases hc : closes t.kind
      · simp only [if_neg ho, if_pos hc, minus_add_right, ok_bind]
        cases depth with
        | zero => rfl
        | succ depth => exact hnext depth
      · simp only [if_neg ho, if_neg hc, pure_eq_ok, ok_bind, Nat.add_eq_zero_iff,
          Nat.one_ne_zero, and_false, if_false]
        exact hnext depth

theorem ahead_bracketedAt {opens closes : Token.Kind → Bool} (bracket : Char)
    (h : Ahead (lex source) p (t :: ts)) (ho : opens t.kind) :
    bracketedAt (Layout.of source) opens closes bracket p =
      match Token.closingLength opens closes 0 ts with
      | some k => .ok (t.text ++ textOf (ts.take k), p + 1 + k)
      | none => refuse (.unclosedBracket bracket t.start) := by
  have hk : t.kind ≠ .eof := Token.ne_eof_of_mem_lexFrom (h.mem List.mem_cons_self)
  have hlt := Token.ahead_length_lt h
  obtain ⟨n, hn⟩ : ∃ n, (Layout.of source).rounds = n + 1 :=
    ⟨(Layout.of source).rounds - 1, by omega⟩
  have hoffset : (Layout.of source).offset p = .ok t.start := ahead_offset h
  have hclosing : closingFrom (Layout.of source) opens closes bracket t.start n (0 + 1) (p + 1) =
      match Token.closingLength opens closes 0 ts with
      | some k => .ok (startOf source.utf8ByteSize (ts.drop k), p + 1 + k)
      | none => refuse (.unclosedBracket bracket t.start) := by
    rw [hn, List.length_cons] at hlt
    exact ahead_closingFrom h.tail (Nat.lt_of_succ_lt_succ hlt)
  simp only [bracketedAt, hn, closingFrom, hoffset, ahead_kind h, ahead_bump h, ok_bind, kindOf,
    if_neg hk, if_pos ho, pure_eq_ok, Token.ahead_stop h, hclosing]
  cases hc : Token.closingLength opens closes 0 ts with
  | none => rfl
  | some k =>
    rw [← List.take_append_drop k ts] at h
    have hbetween := ahead_between_cons h
    simp only [Nat.zero_add, Nat.one_ne_zero, if_false, ok_bind, hbetween]

/-! ### Names -/

theorem utf8ByteSize_backslashes (cs : List Char) (h : ∀ c ∈ cs, c = '\\') :
    (String.ofList cs).utf8ByteSize = cs.length := by
  induction cs with
  | nil => rfl
  | cons c cs ih =>
    have hc : c = '\\' := h c List.mem_cons_self
    have hcons : String.ofList (c :: cs) = String.singleton c ++ String.ofList cs := by
      rw [← String.toList_inj]
      simp
    rw [hcons, String.utf8ByteSize_append, ih fun d hd => h d (List.mem_cons_of_mem c hd), hc,
      List.length_cons, Nat.add_comm]
    rfl

/-- The backslashes at the end of a text are as many as the bytes they take. -/
theorem minus_trimmed (cs : List Char) :
    minus (String.ofList cs.reverse).utf8ByteSize
        (String.ofList (cs.dropWhile (· = '\\')).reverse).utf8ByteSize =
      .ok (cs.takeWhile (· = '\\')).length := by
  have hsplit : String.ofList cs.reverse =
      String.ofList (cs.dropWhile (· = '\\')).reverse ++
        String.ofList (cs.takeWhile (· = '\\')).reverse := by
    rw [← String.ofList_append, ← List.reverse_append, List.takeWhile_append_dropWhile]
  have hmarks : ∀ c ∈ (cs.takeWhile (· = '\\')).reverse, c = '\\' := by
    intro c hc
    simpa using List.mem_takeWhile_imp (List.mem_reverse.mp hc)
  rw [hsplit, String.utf8ByteSize_append, utf8ByteSize_backslashes _ hmarks, List.length_reverse,
    Nat.add_comm, minus_add_right]

theorem splitNameAt_eq (name : String) : splitNameAt name = .ok (splitEscapeEnd name) := by
  cases hlist : name.toList.reverse with
  | nil =>
    have hname : name.toList = [] := List.reverse_eq_nil_iff.mp hlist
    simp [splitNameAt, escapeEndAt, splitEscapeEnd, escapeEnd?, hname]
  | cons c cs =>
    have hname : name.toList = cs.reverse ++ [c] := by
      rw [← List.reverse_reverse name.toList, hlist, List.reverse_cons]
    have happend : name = String.ofList cs.reverse ++ String.singleton c := by
      rw [← String.toList_inj, hname]
      simp
    have hminus : minus name.utf8ByteSize c.utf8Size =
        .ok (String.ofList cs.reverse).utf8ByteSize := by
      rw [happend, String.utf8ByteSize_append, String.utf8ByteSize_singleton, minus_add_right]
    have hfront : slice name 0 (String.ofList cs.reverse).utf8ByteSize =
        .ok (String.ofList cs.reverse) := by
      rw [happend]
      exact slice_front ..
    have hback : slice name (String.ofList cs.reverse).utf8ByteSize name.utf8ByteSize =
        .ok (String.singleton c) := by
      rw [happend]
      exact slice_back ..
    have hlast : name.toList.getLast? = some c := by
      rw [hname, List.getLast?_concat]
    simp only [splitNameAt, escapeEndAt, hlast, hminus, hfront, ok_bind, String.toList_ofList,
      List.reverse_reverse, minus_trimmed, pure_eq_ok, splitEscapeEnd, escapeEnd?, hlist]
    by_cases hspace : isSpace c
    · by_cases heven : (cs.takeWhile (· = '\\')).length % 2 = 0
      · simp [hspace, heven, hfront, hback, hname]
      · simp [hspace, heven]
    · simp [hspace]

theorem ahead_leafAt (kind : Kind) (offset : Nat) (h : Ahead (lex source) p ts) :
    leafAt (Layout.of source) kind offset p = .ok (simpleNode kind offset (endsCompound ts)) := by
  rw [leafAt, ahead_endsCompoundAt h, ok_bind]
  cases kind with
  | className name | idName name =>
    simp only [splitNameAt_eq, ok_bind, simpleNode]
    split <;> rfl
  | _ => rfl

/-! ### Simple selectors -/

/-- The kind is the one that was read, and what it leaves lies ahead. -/
def Reached (source : String) (ts : List Token) (r k : Kind × Nat) : Prop :=
  r.1 = k.1 ∧ Ahead (lex source) r.2 (ts.drop k.2)

theorem follows_bracketedAt {opens closes : Token.Kind → Bool} (bracket : Char)
    (kind : String → Kind) (h : Ahead (lex source) p (t :: ts)) (ho : opens t.kind) :
    Follows (Reached source ts)
      (bracketedAt (Layout.of source) opens closes bracket p >>= fun r => .ok (kind r.1, r.2))
      (match Token.closingLength opens closes 0 ts with
      | some n => .ok (kind (t.text ++ textOf (ts.take n)), n)
      | none => .error (.unclosedBracket bracket t.start)) := by
  rw [ahead_bracketedAt bracket h ho]
  cases hc : Token.closingLength opens closes 0 ts with
  | none => exact .refused _
  | some n => exact .ok ⟨rfl, h.tail.drop (closingLength_le hc)⟩

theorem follows_kindAt (h : Ahead (lex source) p (t :: ts)) (hcolon : t.kind ≠ .colon) :
    Follows (Reached source ts) (kindAt (Layout.of source) p) (simple t ts) := by
  have hs := Token.isSpelled_of_mem_lex (h.mem List.mem_cons_self)
  have hoffset : (Layout.of source).offset p = .ok t.start := ahead_offset h
  rw [kindAt, ahead_kind h, ok_bind, kindOf, simple.eq_def]
  cases hk : t.kind with
  | colon => exact absurd hk hcolon
  | delim c =>
    simp only [ahead_text h, ahead_bump h, ok_bind, ahead_kind h.tail]
    split
    · cases ts with
      | nil => exact .ok ⟨rfl, h.tail⟩
      | cons name ts =>
        by_cases hname : name.kind = .ident
        · simp only [kindOf, if_pos hname, ahead_text h.tail, ahead_bump h.tail, ok_bind]
          exact .ok ⟨rfl, h.tail.tail⟩
        · simp only [kindOf, hname, if_false]
          exact .ok ⟨rfl, h.tail⟩
    split
    · exact .ok ⟨rfl, h.tail⟩
    split
    · exact .ok ⟨rfl, h.tail⟩
    split
    · exact .ok ⟨rfl, h.tail⟩
    · exact .ok ⟨rfl, h.tail⟩
  | hash isIdent =>
    have hname : slice t.text 1 t.text.utf8ByteSize = .ok (String.ofList t.text.toList.tail) := by
      have hslice := slice_back "#" (String.ofList t.text.toList.tail)
      have htext : "#" ++ String.ofList t.text.toList.tail = t.text := text_idName_tail hs hk
      rw [htext] at hslice
      exact hslice
    simp only [ahead_text h, ok_bind, hname, ahead_bump h]
    exact .ok ⟨rfl, h.tail⟩
  | leftBracket => exact follows_bracketedAt '[' .attribute h (by simp [hk])
  | function => exact follows_bracketedAt '(' .tag h (by simp [hk, Token.Kind.opensParen])
  | leftParen => exact follows_bracketedAt '(' .tag h (by simp [hk, Token.Kind.opensParen])
  | rightBracket =>
    simp only [hoffset, ok_bind]
    exact .refused _
  | _ =>
    simp only [ahead_text h, ahead_bump h, ok_bind]
    exact .ok ⟨rfl, h.tail⟩

/-! ### Pseudo-classes -/

/-- A second colon in front of the name. -/
def secondColon (ts : List Token) : List Token :=
  (ts.takeWhile (·.kind = .colon)).take 1

theorem ahead_colons (h : Ahead (lex source) p (t :: ts)) :
    ∃ q, colonsEnd (Layout.of source) p = .ok q ∧
      Ahead (lex source) q (ts.drop (secondColon ts).length) ∧
      (Layout.of source).between t.start
          (startOf source.utf8ByteSize (ts.drop (secondColon ts).length)) =
        .ok (t.text ++ textOf (secondColon ts)) := by
  have hprefix : secondColon ts <+: ts := (List.take_prefix 1 _).trans (List.takeWhile_prefix _)
  refine ⟨p + 1 + (secondColon ts).length, ?_, h.tail.drop hprefix.length_le, ?_⟩
  · rw [colonsEnd, ahead_bump h, ok_bind, ahead_kind h.tail, ok_bind]
    cases ts with
    | nil => rfl
    | cons u us =>
      by_cases hu : u.kind = .colon
      · simp [kindOf, secondColon, hu, ahead_bump h.tail]
      · simp [kindOf, secondColon, hu]
  · rw [← List.prefix_iff_eq_append.mp hprefix] at h
    exact ahead_between_cons h

theorem opening?_cons (hk : t.kind = .colon) (ts : List Token) :
    opening? (t :: ts) =
      openingAfter? (t.text ++ textOf (secondColon ts)) (ts.drop (secondColon ts).length) := by
  cases ts with
  | nil => simp [opening?, hk, openingAfter?, secondColon]
  | cons u us =>
    by_cases hu : u.kind = .colon
    · simp [opening?, hk, hu, secondColon]
    · simp [opening?, hk, hu, secondColon]

theorem simple_of_colon (hk : t.kind = .colon) (ts : List Token) :
    simple t ts =
      match ts.drop (secondColon ts).length with
      | [] => .ok (.tag (t.text ++ textOf (secondColon ts)), (secondColon ts).length)
      | name :: _ =>
        if name.kind = .ident then
          .ok (.pseudo (t.text ++ textOf (secondColon ts) ++ name.text) false,
            (secondColon ts).length + 1)
        else .ok (.tag (t.text ++ textOf (secondColon ts)), (secondColon ts).length) := by
  rw [simple.eq_def, hk]
  rfl

/-- A pseudo-class with arguments goes on with them. -/
theorem ahead_opening {o : Opening} (h : Ahead (lex source) p (t :: ts))
    (ho : opening? (t :: ts) = some o) :
    ∃ q, Ahead (lex source) q o.body ∧ ∀ limit list depth,
      simpleAt (Layout.of source) limit list ⟨p, depth⟩ =
        callAt (Layout.of source) limit list o.name t.start o.opener.start ⟨q, depth⟩ := by
  have hk : t.kind = .colon := by
    by_contra hk
    simp [opening?, hk] at ho
  have hoffset : (Layout.of source).offset p = .ok t.start := ahead_offset h
  obtain ⟨q, hcolons, hq, hbetween⟩ := ahead_colons h
  rw [opening?_cons hk] at ho
  cases hus : ts.drop (secondColon ts).length with
  | nil =>
    rw [hus] at ho
    cases ho
  | cons f body =>
    rw [hus, openingAfter?] at ho
    rw [hus] at hq hbetween
    split at ho
    next hf =>
      cases ho
      rw [Bool.and_eq_true, decide_eq_true_eq, decide_eq_true_eq] at hf
      -- the name stands in front of the parenthesis
      obtain ⟨front, hfront⟩ := List.getLast?_eq_some_iff.mp hf.2
      have htext : f.text = String.ofList front ++ "(" := by
        rw [← String.toList_inj]
        simp [hfront]
      have hminus : minus f.text.utf8ByteSize 1 = .ok (String.ofList front).utf8ByteSize := by
        rw [htext, String.utf8ByteSize_append]
        exact minus_add_right ..
      have hname : slice f.text 0 (String.ofList front).utf8ByteSize =
          .ok (String.ofList front) := by
        rw [htext]
        exact slice_front ..
      have hopened : (Layout.of source).offset q = .ok f.start := ahead_offset hq
      rw [startOf] at hbetween
      refine ⟨q + 1, hq.tail, fun limit list depth => ?_⟩
      simp only [simpleAt, ahead_kind h, ok_bind, kindOf, hk, if_true, pseudoAt, hoffset, hcolons,
        hopened, hbetween, ahead_kind hq, hf.1, ahead_text hq, hminus, hname, ahead_bump hq,
        hfront, List.getLast?_concat, List.dropLast_concat]
    next => cases ho

/-- A pseudo-class without arguments is read as its kind says. -/
theorem ahead_pseudoAt {limit : Nat} {list : Mark → Checked (List Tree × Mark)}
    (h : Ahead (lex source) p (t :: ts)) (hk : t.kind = .colon)
    (ho : opening? (t :: ts) = none) :
    ∃ kind n q, simple t ts = .ok (kind, n) ∧ Ahead (lex source) q (ts.drop n) ∧
      pseudoAt (Layout.of source) limit list ⟨p, depth⟩ =
        .ok (simpleNode kind t.start (endsCompound (ts.drop n)), ⟨q, depth⟩) := by
  have hoffset : (Layout.of source).offset p = .ok t.start := ahead_offset h
  obtain ⟨q, hcolons, hq, hbetween⟩ := ahead_colons h
  rw [opening?_cons hk] at ho
  simp only [pseudoAt, hoffset, ok_bind, hcolons, ahead_offset hq, hbetween, ahead_kind hq,
    simple_of_colon hk]
  cases hus : ts.drop (secondColon ts).length with
  | nil =>
    rw [hus] at hq
    exact ⟨_, _, q, rfl, hus ▸ hq, rfl⟩
  | cons f body =>
    rw [hus] at hq ho
    by_cases hident : f.kind = .ident
    · have hrest : ts.drop ((secondColon ts).length + 1) = body := by
        rw [← List.drop_drop, hus]
        rfl
      simp only [kindOf, hident, if_true, ahead_text hq, ahead_bump hq, ok_bind]
      exact ⟨_, _, q + 1, rfl, hrest ▸ hq.tail, rfl⟩
    · have hopen : f.kind = .function → f.text.toList.getLast? ≠ some '(' := by
        intro hf hlast
        simp [openingAfter?, hf, hlast] at ho
      simp only [kindOf, hident, if_false, ahead_text hq, ok_bind]
      refine ⟨_, _, q, rfl, hus ▸ hq, ?_⟩
      cases hf : f.kind with
      | ident => exact absurd hf hident
      | function =>
        simp only [if_neg (hopen hf)]
        rfl
      | _ => rfl

theorem follows_simpleAt {limit : Nat} {list : Mark → Checked (List Tree × Mark)}
    (h : Ahead (lex source) p (t :: ts)) (ho : opening? (t :: ts) = none) :
    Follows
      (fun r k => r.1 = simpleNode k.1 t.start (endsCompound (ts.drop k.2)) ∧
        r.2.depth = depth ∧ Ahead (lex source) r.2.position (ts.drop k.2))
      (simpleAt (Layout.of source) limit list ⟨p, depth⟩) (simple t ts) := by
  have hoffset : (Layout.of source).offset p = .ok t.start := ahead_offset h
  rw [simpleAt, ahead_kind h, ok_bind, kindOf]
  by_cases hk : t.kind = .colon
  · obtain ⟨kind, n, q, hsimple, hq, hpseudo⟩ := ahead_pseudoAt h hk ho
    rw [if_pos hk, hsimple, hpseudo]
    exact .ok ⟨rfl, rfl, hq⟩
  · rw [if_neg hk, hoffset, ok_bind, ← bind_pure (simple t ts)]
    refine (follows_kindAt h hk).bind ?_
    rintro ⟨kind, q⟩ ⟨kind', n⟩ ⟨rfl, hq⟩
    simp only [ahead_leafAt _ _ hq, ok_bind]
    exact .ok ⟨rfl, rfl, hq⟩

/-! ### Alternatives -/

/-- The first alternative of the parts, behind `nodes`, the last one first. -/
def Parts.behind {n : Nat} (start : Nat) (nodes : List Tree) (p : Parts n) : Tree :=
  match p.nodes with
  | [] => alternativeOf start p.trailing nodes
  | more => .node .selector ⟨p.trailing, ""⟩ start (nodes.reverse ++ more)

theorem Parts.behind_nil {n : Nat} (start : Nat) (p : Parts n) :
    p.behind start [] = p.alternative start := by
  unfold Parts.behind Parts.alternative
  split
  next hnil =>
    rw [hnil]
    rfl
  next => rfl

theorem Parts.behind_cons {m n : Nat} (start : Nat) (t : Tree) (nodes : List Tree) (p : Parts m)
    (h : m ≤ n) : (p.cons t h).behind start nodes = p.behind start (t :: nodes) := by
  unfold Parts.cons
  split
  next hnil => cases nodes <;> simp [Parts.behind, hnil, alternativeOf, Spaces.none]
  next hne =>
    cases hmore : p.nodes with
    | nil => exact absurd hmore hne
    | cons u us => simp [Parts.behind, hmore]

/-- The text in front of a simple selector goes where it belongs. -/
theorem Parts.behind_consSimple {m n : Nat} (start : Nat) (t : Tree) (nodes : List Tree)
    (p : Parts m) (h : m ≤ n) {trivia : List Token} (hne : ∀ u ∈ trivia, u.text ≠ "")
    {triviaStart : Nat} (hstart : trivia ≠ [] → triviaStart = startOf 0 trivia) :
    (p.consSimple nodes.isEmpty trivia t h).behind start nodes =
      p.behind start
        (addSimple (textOf trivia) triviaStart (trivia.any isWhitespace) t nodes) := by
  cases nodes with
  | nil => exact Parts.behind_cons start (t.setBefore (textOf trivia)) [] p h
  | cons u us =>
    cases trivia with
    | nil => exact Parts.behind_cons start t (u :: us) p h
    | cons v vs =>
      have htext : textOf (v :: vs) ≠ "" := by
        intro hempty
        rw [Token.textOf_cons, String.append_eq_empty_iff] at hempty
        exact hne v List.mem_cons_self hempty.1
      have hspacing : spacingNode (v :: vs) =
          .leaf (if (v :: vs).any isWhitespace then .combinator .descendant (textOf (v :: vs))
            else .comment (textOf (v :: vs))) .none triviaStart := by
        rw [spacingNode, hstart (List.cons_ne_nil v vs)]
        split <;> rfl
      have hadd : addSimple (textOf (v :: vs)) triviaStart ((v :: vs).any isWhitespace) t
          (u :: us) = t :: spacingNode (v :: vs) :: u :: us := by
        rw [hspacing]
        exact if_neg htext
      rw [hadd]
      exact (Parts.behind_cons start _ _ (p.cons t h) (Nat.le_refl n)).trans
        (Parts.behind_cons start t _ p h)

/-- A parenthesis that is left over is an error unless the list is nested. -/
def Parts.settle {n : Nat} (nested : Bool) (p : Parts n) : Except SyntaxError (Parts n) :=
  match nested, p.rest with
  | false, t :: _ => .error (.unexpectedCloseBracket ')' t.start)
  | _, _ => .ok p

/-- The list has the alternatives of the parts, the first one behind `nodes`,
and the rest of the tokens lies ahead. -/
structure Parts.Matches (source : String) (depth start : Nat) (nodes : List Tree) {n : Nat}
    (r : List Tree × Mark) (p : Parts n) : Prop where
  list : r.1 = p.behind start nodes :: p.others
  depth : r.2.depth = depth
  ahead : Ahead (lex source) r.2.position p.rest
  stops : Token.StopsAt .rightParen p.rest

/-- What is done with the parts may wait for the check. -/
theorem Parts.bind_settle {m n : Nat} {f : Parts m → Parts n} (hf : ∀ p, (f p).rest = p.rest)
    (nested : Bool) (y : Except SyntaxError (Parts m)) :
    ((y >>= fun p => .ok (f p)) >>= Parts.settle nested) =
      (y >>= Parts.settle nested) >>= fun p => .ok (f p) := by
  cases y with
  | error e => rfl
  | ok p =>
    simp only [ok_bind, Parts.settle, hf]
    split <;> rfl

/-- The alternative with one more node is the one that was read in front of it. -/
theorem follows_cons {nested : Bool} {m n start : Nat} {nodes : List Tree} {node : Tree}
    {x : Checked (List Tree × Mark)} {y : Except SyntaxError (Parts m)}
    (h : Follows (Parts.Matches source depth start (node :: nodes)) x (y >>= Parts.settle nested))
    (hle : m ≤ n) :
    Follows (Parts.Matches source depth start nodes) x
      ((y >>= fun p => .ok (p.cons node hle)) >>= Parts.settle nested) := by
  rw [Parts.bind_settle fun p => p.rest_cons node hle]
  refine h.bind_pure_right fun r p hm => ?_
  obtain ⟨hlist, hdepth, hahead, hstops⟩ := hm
  rw [← Parts.behind_cons start node nodes p hle, ← p.others_cons node hle] at hlist
  rw [← p.rest_cons node hle] at hahead hstops
  exact ⟨hlist, hdepth, hahead, hstops⟩

/-- The alternative that a comma ends stands in front of the others. -/
theorem follows_comma {nested : Bool} {m n start start' : Nat} {nodes : List Tree}
    {x : Checked (List Tree × Mark)} {y : Except SyntaxError (Parts m)}
    (h : Follows (Parts.Matches source depth start' []) x (y >>= Parts.settle nested))
    (trailing : String) (hle : ∀ p : Parts m, p.rest.length ≤ n) :
    Follows (Parts.Matches source depth start nodes)
      (x >>= fun r => .ok (alternativeOf start trailing nodes :: r.1, r.2))
      ((y >>= fun p => .ok ⟨[], trailing, p.alternatives start', p.rest, hle p⟩) >>=
        Parts.settle nested) := by
  let f (p : Parts m) : Parts n := ⟨[], trailing, p.alternatives start', p.rest, hle p⟩
  rw [Parts.bind_settle (f := f) fun p => rfl]
  refine h.bind_pure fun r p hm => ?_
  obtain ⟨hlist, hdepth, hahead, hstops⟩ := hm
  rw [Parts.behind_nil] at hlist
  exact ⟨congrArg _ hlist, hdepth, hahead, hstops⟩

theorem follows_consSimple {nested : Bool} {m start : Nat} {nodes : List Tree} {node : Tree}
    {x : Checked (List Tree × Mark)} {y : Except SyntaxError (Parts m)}
    (h : Ahead (lex source) p ts) (hle : m ≤ ts.length)
    (hx : Follows
      (Parts.Matches source depth start
        (addSimple (textOf (ts.takeWhile isTrivia)) (startOf source.utf8ByteSize ts)
          ((ts.takeWhile isTrivia).any isWhitespace) node nodes))
      x (y >>= Parts.settle nested)) :
    Follows (Parts.Matches source depth start nodes) x
      ((y >>= fun p => .ok (p.consSimple nodes.isEmpty (ts.takeWhile isTrivia) node hle)) >>=
        Parts.settle nested) := by
  have hne : ∀ u ∈ ts.takeWhile isTrivia, u.text ≠ "" := fun u hu =>
    Token.text_ne_empty_of_mem_lexFrom (h.mem ((List.takeWhile_prefix _).mem hu))
  have hstart : ts.takeWhile isTrivia ≠ [] →
      startOf source.utf8ByteSize ts = startOf 0 (ts.takeWhile isTrivia) := by
    intro hnil
    cases ts with
    | nil => exact absurd rfl hnil
    | cons t ts =>
      by_cases ht : isTrivia t
      · rw [List.takeWhile_cons_of_pos ht]
        rfl
      · rw [List.takeWhile_cons_of_neg ht] at hnil
        exact absurd rfl hnil
  rw [Parts.bind_settle fun p => (p.consSimple_eq nodes.isEmpty _ node hle).2]
  refine hx.bind_pure_right fun r p hm => ?_
  obtain ⟨hlist, hdepth, hahead, hstops⟩ := hm
  obtain ⟨hothers, hrest⟩ := p.consSimple_eq nodes.isEmpty (ts.takeWhile isTrivia) node hle
  rw [← Parts.behind_consSimple start node nodes p hle hne hstart, ← hothers] at hlist
  rw [← hrest] at hahead hstops
  exact ⟨hlist, hdepth, hahead, hstops⟩

theorem isEmpty_addSimple (trivia : String) (triviaStart : Nat) (hasWhitespace : Bool) (node : Tree)
    (nodes : List Tree) :
    (addSimple trivia triviaStart hasWhitespace node nodes).isEmpty = false := by
  cases nodes with
  | nil => rfl
  | cons t ts =>
    rw [addSimple]
    · split <;> rfl
    · exact fun h => nomatch h

/-- What ends no alternative and is no combinator is a simple selector. -/
theorem ahead_nextAt {limit start triviaStart : Nat} {list : Mark → Checked (List Tree × Mark)}
    {next : List Tree → Mark → Checked (Tree × Mark)} {nodes : List Tree} {trivia : String}
    {hasWhitespace : Bool} (h : Ahead (lex source) p (t :: ts)) (hparen : t.kind ≠ .rightParen)
    (hcomma : t.kind ≠ .comma) (hc : combinator? t.kind = none) :
    nextAt (Layout.of source) limit list next start nodes trivia triviaStart hasWhitespace
        ⟨p, depth⟩ =
      simpleAt (Layout.of source) limit list ⟨p, depth⟩ >>= fun r =>
        next (addSimple trivia triviaStart hasWhitespace r.1 nodes) r.2 := by
  have heof : t.kind ≠ .eof := Token.ne_eof_of_mem_lexFrom (h.mem List.mem_cons_self)
  simp only [nextAt, ahead_kind h, ok_bind, kindOf, isEndKind_eq heof, hcomma, hparen, decide_false,
    Bool.or_false, Bool.false_eq_true, if_false, hc]

/-- A list is read alternative by alternative. -/
theorem follows_listFrom {limit n : Nat} {nested : Bool}
    {x : Except SyntaxError (Parts ts.length)} (h : Ahead (lex source) p ts) (hn : ts.length < n)
    (hx : ∀ m, ts.length ≤ m →
      Follows (Parts.Matches source depth (startOf source.utf8ByteSize ts) [])
        (alternativeFrom (Layout.of source) limit (listFrom (Layout.of source) limit m true)
            (startOf source.utf8ByteSize ts) (Layout.of source).rounds [] ⟨p, depth⟩ >>=
          othersAt (Layout.of source) (listFrom (Layout.of source) limit m nested) nested) x) :
    Follows (Parts.Matches source depth (startOf source.utf8ByteSize ts) [])
      (listFrom (Layout.of source) limit n nested ⟨p, depth⟩) x := by
  cases n with
  | zero => cases hn
  | succ n =>
    simp only [listFrom, ahead_offset h, ok_bind]
    exact hx n (Nat.le_of_lt_succ hn)

/-- An alternative goes on behind the white space and comments that come next. -/
theorem follows_next {limit k start : Nat} {list : Mark → Checked (List Tree × Mark)}
    {nodes : List Tree} {β γ : Type} {R : β → γ → Prop} {f : Tree × Mark → Checked β}
    {x : Except SyntaxError γ} (h : Ahead (lex source) p ts) (hk : ts.length < k)
    (hx : ∀ q m, Ahead (lex source) q (ts.dropWhile isTrivia) → ts.length ≤ m →
      Follows R
        (nextAt (Layout.of source) limit list
          (alternativeFrom (Layout.of source) limit list start m) start nodes
          (textOf (ts.takeWhile isTrivia)) (startOf source.utf8ByteSize ts)
          ((ts.takeWhile isTrivia).any isWhitespace) ⟨q, depth⟩ >>= f) x) :
    Follows R (alternativeFrom (Layout.of source) limit list start k nodes ⟨p, depth⟩ >>= f) x := by
  cases k with
  | zero => cases hk
  | succ k =>
    obtain ⟨q, htrivia, hq⟩ := ahead_triviaFrom (b := false) h (Token.ahead_length_lt h)
    simp only [alternativeFrom, ahead_offset h, htrivia, ahead_offset hq,
      Token.ahead_between_dropWhile isTrivia h, ok_bind, Bool.false_or]
    exact hx q k hq (Nat.le_of_lt_succ hk)

theorem follows_alternativeFrom {limit k n start : Nat} {isFirst nested : Bool}
    {nodes : List Tree} (h : Ahead (lex source) p ts) (hfirst : nodes.isEmpty = isFirst)
    (hk : ts.length < k) (hn : ts.length ≤ n) :
    Follows (Parts.Matches source depth start nodes)
      (alternativeFrom (Layout.of source) limit (listFrom (Layout.of source) limit n true) start k
          nodes ⟨p, depth⟩ >>=
        othersAt (Layout.of source) (listFrom (Layout.of source) limit n nested) nested)
      (parseParts limit source.utf8ByteSize depth isFirst ts >>= Parts.settle nested) := by
  fun_induction parseParts limit source.utf8ByteSize depth isFirst ts
      generalizing p nodes k n start nested with
  | case1 depth isFirst ts trivia =>
    rename_i ht
    refine follows_next h hk fun q k hq hk => ?_
    rw [ht] at hq
    simp only [nextAt, ahead_kind hq, kindOf, isEndKind, if_true, ok_bind, pure_eq_ok, othersAt]
    cases nested <;> exact .ok ⟨rfl, rfl, hq, Token.stopsAt_nil _⟩
  | case2 depth isFirst ts trivia t rest ht hlt =>
    rename_i hparen
    refine follows_next h hk fun q k hq hk => ?_
    rw [ht] at hq
    have hoffset : (Layout.of source).offset q = .ok t.start := ahead_offset hq
    simp only [nextAt, ahead_kind hq, kindOf, hparen, isEndKind, if_true, ok_bind, pure_eq_ok,
      othersAt, hoffset]
    cases nested with
    | false => exact .refused _
    | true => exact .ok ⟨rfl, rfl, hq, Token.stopsAt_cons.mpr hparen⟩
  | case3 depth isFirst ts trivia t rest ht hlt hparen hcomma =>
    rename_i ih
    refine follows_next h hk fun q k hq hk => ?_
    rw [ht] at hq
    simp only [nextAt, ahead_kind hq, kindOf, hcomma, isEndKind, if_true, ok_bind, pure_eq_ok,
      othersAt, ahead_bump hq]
    exact follows_comma (follows_listFrom hq.tail (by omega) fun m hm =>
      ih hq.tail rfl (Token.ahead_length_lt hq.tail) hm) _ _
  | case4 depth isFirst ts trivia t rest ht hlt hparen hcomma c hc after =>
    rename_i hle ih
    refine follows_next h hk fun q k hq hk => ?_
    rw [ht] at hq
    have hoffset : (Layout.of source).offset q = .ok t.start := ahead_offset hq
    have heof : t.kind ≠ .eof := Token.ne_eof_of_mem_lexFrom (hq.mem List.mem_cons_self)
    obtain ⟨q', hskip, hq'⟩ := ahead_skip (f := isTrivia) (q := Token.Kind.isTrivia) (fun _ => rfl)
      rfl hq.tail
    simp only [nextAt, ahead_kind hq, kindOf, isEndKind_eq heof, hcomma, hparen, decide_false,
      Bool.or_false, Bool.false_eq_true, if_false, ok_bind, hc, hoffset, ahead_text hq,
      ahead_bump hq, ahead_offset hq.tail, hskip, ahead_offset hq',
      Token.ahead_between_dropWhile isTrivia hq.tail]
    exact follows_cons (ih hq' rfl (by omega) (by omega)) _
  | case5 depth isFirst ts t rest ht hlt hparen hcomma hc o ho hb hd =>
    refine follows_next h hk fun q k hq hk => ?_
    rw [ht] at hq
    obtain ⟨q', hbody, hcall⟩ := ahead_opening hq ho
    rw [ahead_nextAt hq hparen hcomma hc, hcall, callAt, if_pos (Nat.lt_succ_of_le hd)]
    exact .refused _
  | case6 depth isFirst ts trivia t rest ht hlt hparen hcomma hc o ho hb hd =>
    rename_i iha ih
    refine follows_next h hk fun q k hq hk => ?_
    rw [ht] at hq
    obtain ⟨q', hbody, hcall⟩ := ahead_opening hq ho
    rw [List.length_cons] at hb
    have hargs : Follows
        (Parts.Matches source (depth + 1) (startOf source.utf8ByteSize o.body) [])
        (listFrom (Layout.of source) limit n true ⟨q', depth + 1⟩)
        (parseParts limit source.utf8ByteSize (depth + 1) true o.body) := by
      refine follows_listFrom hbody (by omega) fun m hm => ?_
      rw [← bind_pure (parseParts limit source.utf8ByteSize (depth + 1) true o.body)]
      exact iha hbody rfl (Token.ahead_length_lt hbody) hm
    rw [ahead_nextAt hq hparen hcomma hc, hcall, callAt,
      if_neg fun hlimit => hd (Nat.le_of_lt_succ hlimit)]
    simp only [bind_assoc]
    refine hargs.bind ?_
    rintro ⟨alternatives, a, depth'⟩ ⟨nodes', trailing, others, rest', hrest'⟩
      ⟨hlist, hdepth, hahead, hstops⟩
    simp only [Parts.behind_nil] at hlist hdepth hahead hstops hrest'
    rw [hdepth, hlist]
    simp only [ahead_kind hahead, ok_bind]
    cases rest' with
    | nil => exact .refused _
    | cons u rest' =>
      subst hfirst
      have hshort : rest'.length < o.body.length := hrest'
      simp only [kindOf, Token.stopsAt_cons.mp hstops, if_true, ahead_bump hahead, minus_add_right,
        ok_bind, pure_eq_ok]
      refine follows_consSimple h _ (ih ⟨nodes', trailing, others, u :: rest', hrest'⟩ u rest' rfl
        hahead.tail (isEmpty_addSimple ..) ?_ ?_)
      · omega
      · omega
  | case7 depth isFirst ts trivia t rest ht hlt hparen hcomma hc ho =>
    rename_i ih
    refine follows_next h hk fun q k hq hk => ?_
    rw [ht] at hq
    subst hfirst
    rw [ahead_nextAt hq hparen hcomma hc]
    simp only [bind_assoc]
    refine (follows_simpleAt hq ho).bind ?_
    rintro ⟨node, q', depth'⟩ ⟨kind, i⟩ ⟨rfl, rfl, hq'⟩
    have hle : (rest.drop i).length ≤ rest.length := by
      rw [List.length_drop]
      exact Nat.sub_le ..
    rw [← bind_assoc]
    exact follows_consSimple h _
      (ih i hq' (isEmpty_addSimple ..) (by omega) (by omega))

/-! ### The whole source -/

/-- Reads a selector list by position, from its characters on. -/
def parseByPosition (limit : Nat) (source : String) : Checked Tree := do
  let l : Layout := ⟨source, ← Token.spansOf source⟩
  let (alternatives, _) ← listFrom l limit l.rounds false ⟨0, 0⟩
  return .node .root .none 0 alternatives

/-- **Reading a selector list by position has no fault and gives the list, or the
error that the source is refused with.** -/
theorem parseByPosition_eq (limit : Nat) (source : String) :
    parseByPosition limit source = (parseWithin limit source).mapError .refused := by
  have hstart := Ahead.start (lex source)
  have hlist : Follows
      (Parts.Matches source 0 (startOf source.utf8ByteSize (lex source)) [])
      (listFrom (Layout.of source) limit (Layout.of source).rounds false ⟨0, 0⟩)
      (parseParts limit source.utf8ByteSize 0 true (lex source) >>= Parts.settle false) :=
    follows_listFrom hstart (Token.ahead_length_lt hstart) fun m hm =>
      follows_alternativeFrom hstart rfl (Token.ahead_length_lt hstart) hm
  have hparse : parseWithin limit source =
      (parseParts limit source.utf8ByteSize 0 true (lex source) >>= Parts.settle false) >>=
        fun p => .ok (.node .root .none 0
          (p.alternatives (startOf source.utf8ByteSize (lex source)))) := by
    rw [parseWithin]
    cases parseParts limit source.utf8ByteSize 0 true (lex source) with
    | error e => rfl
    | ok p =>
      obtain ⟨nodes, trailing, others, rest, hrest⟩ := p
      cases rest <;> rfl
  rw [hparse]
  refine Follows.eq_mapError ?_
  rw [parseByPosition, Token.spansOf_eq, ok_bind]
  refine hlist.bind_pure ?_
  rintro r p hm
  rw [hm.list, Parts.behind_nil]
  rfl

end Ahead
end Selector
end StyleScope
