/-
# Reading values by position

The reader of values by position keeps the nodes it has so far, and a divider
takes the white space off their end. It cuts strings, urls and calls out of the
texts of tokens at the places of their quotes and parentheses, which a value
may leave open, and counts the calls around it up and down.

Key definitions: `Value.nodesFrom`, `Value.parseByPosition`.
Key theorems: `Value.follows_nodesFrom`, `Value.parseByPosition_eq`.
-/
import StyleScope.Proofs.CheckedLexer
import StyleScope.Proofs.ValuePrint

namespace StyleScope
namespace Value

open Checked Text
open Token (Layout Mark ahead_between_cons ahead_bump ahead_kind ahead_offset ahead_skip ahead_text
  isQuote isWhitespace kindOf lex startOf textOf)

/-! ### The reader -/

section Reader

variable (l : Layout)

/-- The kind of the token behind this one; behind the end mark is nothing else. -/
def kindBehind (p : Nat) : Token.Kind :=
  ((l.spans[p + 1]?).map Token.Span.kind).getD .eof

/-- Whether a word cannot reach over the token here. -/
def endsWordAt (p : Nat) : Checked Bool := do
  match ← l.kind p with
  | .eof | .whitespace | .comment _ | .string _ | .url _ | .function | .leftParen | .rightParen =>
    return true
  | .colon => return kindBehind l p = .function
  | k => return (dividerMark? k).isSome

/-- The position behind the word that starts at byte `start`. -/
def wordFrom (start : Nat) : Nat → Nat → Checked Nat
  | 0, _ => crash .endless
  | n + 1, p => do
    let separates ← endsWordAt l p
    if separates && start < (← l.offset p) then return p
    else
      let p ← l.bump p
      if separates then return p else wordFrom start n p

def wordAt (p : Nat) : Checked (Node × Nat) := do
  let start ← l.offset p
  let q ← wordFrom l start l.rounds p
  return (.word start (← l.between start (← l.offset q)), q)

/-- Where the text of a token ends in front of its closing mark. -/
def insideEnd (raw : String) (terminated : Bool) : Checked Nat :=
  if terminated then minus raw.utf8ByteSize 1 else return raw.utf8ByteSize

def stringAt (p : Nat) (terminated : Bool) : Checked Node := do
  let raw ← l.text p
  let text ← slice raw 1 (← insideEnd raw terminated)
  return .string (← l.offset p) (raw.toList.headD '"') text (!terminated)

/-- The place of the first parenthesis in the text of a call, or its end. -/
def parenIn (raw : String) : Nat :=
  (String.ofList (raw.toList.takeWhile (· ≠ '('))).utf8ByteSize

def urlAt (p : Nat) (terminated : Bool) : Checked Node := do
  let raw ← l.text p
  let offset ← l.offset p
  let paren := parenIn raw
  let name ← slice raw 0 paren
  let stop ← insideEnd raw terminated
  let inner ← slice raw (min (paren + 1) stop) stop
  let body := String.ofList (inner.toList.dropWhile isSpace)
  let before ← slice inner 0 (← minus inner.utf8ByteSize body.utf8ByteSize)
  let word := String.ofList (dropEndWhile isSpace body.toList)
  let after ← slice body word.utf8ByteSize body.utf8ByteSize
  let start := offset + paren + 1 + before.utf8ByteSize
  return .function offset name before (if word = "" then [] else [.word start word]) after
    (!terminated)

/-- Whether a call is left open here, and the mark behind it, one level up. -/
def closeAt (m : Mark) : Checked (Bool × Mark) := do
  let depth ← minus m.depth 1
  if (← l.kind m.position) = .rightParen then return (false, ⟨← l.bump m.position, depth⟩)
  else return (true, ⟨m.position, depth⟩)

/-- The call that starts here, with a colon in front of its name or none, and its
arguments read by `inner` one level deeper. -/
def callAt (limit : Nat) (inner : Mark → Checked (List Node × Mark)) (colon : String) (m : Mark) :
    Checked (Node × Mark) := do
  let offset ← l.offset m.position
  let raw ← l.text m.position
  let paren := parenIn raw
  let name ← slice raw 0 paren
  let before ← slice raw (min (paren + 1) raw.utf8ByteSize) raw.utf8ByteSize
  let p ← l.bump m.position
  if limit < m.depth + 1 then refuse (.nestingTooDeep limit offset)
  else
    let (arguments, m) ← inner ⟨p, m.depth + 1⟩
    let (first, arguments) := takeFirstSpace arguments
    let (arguments, last) := takeLastSpace arguments
    let (unclosed, m) ← closeAt l m
    return (.function offset (colon ++ name) (before ++ first) arguments last unclosed, m)

/-- The node here, unless it is a divider. -/
def nodeAt (limit : Nat) (inner : Mark → Checked (List Node × Mark)) (m : Mark) :
    Checked (Node × Mark) := do
  let offset ← l.offset m.position
  match ← l.kind m.position with
  | .whitespace =>
    return (.space offset (← l.text m.position), ⟨← l.bump m.position, m.depth⟩)
  | .comment _ =>
    return (.comment offset (← l.text m.position), ⟨← l.bump m.position, m.depth⟩)
  | .string terminated =>
    return (← stringAt l m.position terminated, ⟨← l.bump m.position, m.depth⟩)
  | .url terminated =>
    return (← urlAt l m.position terminated, ⟨← l.bump m.position, m.depth⟩)
  | .function | .leftParen => callAt l limit inner "" m
  | .colon =>
    if kindBehind l m.position = .function then
      callAt l limit inner ":" ⟨← l.bump m.position, m.depth⟩
    else
      let (node, p) ← wordAt l m.position
      return (node, ⟨p, m.depth⟩)
  | .rightParen => return (.word offset ")", ⟨← l.bump m.position, m.depth⟩)
  | _ =>
    let (node, p) ← wordAt l m.position
    return (node, ⟨p, m.depth⟩)

/-- White space at the end of the nodes, the last one first, taken off. -/
def popSpace : List Node → String × List Node
  | .space _ text :: nodes => (text, nodes)
  | nodes => ("", nodes)

/-- The nodes with the divider here, the last one first, and the position behind
it. -/
def dividerAt (mark : Char) (nodes : List Node) (p : Nat) : Checked (List Node × Nat) := do
  let offset ← l.offset p
  let p ← l.bump p
  let (before, nodes) := popSpace nodes
  let afterStart ← l.offset p
  let p ← l.skip (· = .whitespace) p
  let after ← l.between afterStart (← l.offset p)
  return (.divider offset mark before after :: nodes, p)

/-- The nodes from here on behind `nodes`, the last one first, in the arguments of
a call if `nested`. -/
def nodesFrom (limit : Nat) : Nat → Bool → List Node → Mark → Checked (List Node × Mark)
  | 0, _, _, _ => crash .endless
  | n + 1, nested, nodes, m => do
    let kind ← l.kind m.position
    if kind = .eof || nested && kind = .rightParen then return (nodes.reverse, m)
    else
      match dividerMark? kind with
      | some mark =>
        let (nodes, p) ← dividerAt l mark nodes m.position
        nodesFrom limit n nested nodes ⟨p, m.depth⟩
      | none =>
        let (node, m) ← nodeAt l limit (nodesFrom limit n true []) m
        nodesFrom limit n nested (node :: nodes) m

end Reader

section Ahead

variable {source : String} {p depth : Nat} {t : Token} {ts us : List Token}

/-! ### Words -/

theorem ahead_kindBehind (h : Ahead (lex source) p (t :: ts)) :
    kindBehind (Layout.of source) p = kindOf ts := by
  have hspans := (Token.ahead_spans h.tail).getElem? 0
  rw [Nat.add_zero] at hspans
  rw [kindBehind, hspans]
  cases ts <;> rfl

theorem ahead_endsWordAt (h : Ahead (lex source) p ts) :
    endsWordAt (Layout.of source) p = .ok (endsWord ts) := by
  rw [endsWordAt, ahead_kind h, ok_bind]
  cases ts with
  | nil => rfl
  | cons t ts =>
    have hk : t.kind ≠ .eof := Token.ne_eof_of_mem_lexFrom (h.mem List.mem_cons_self)
    rw [ahead_kindBehind h, kindOf, endsWord]
    cases ht : t.kind with
    | eof => exact absurd ht hk
    | colon =>
      cases ts with
      | nil => rfl
      | cons u us =>
        simp only [startsColonCall, ht, kindOf, decide_true, Bool.true_and]
        rfl
    | _ => rfl

theorem wordLength_le (ts : List Token) : wordLength ts ≤ ts.length := by
  induction ts with
  | nil => exact Nat.le_refl 0
  | cons t ts ih =>
    rw [wordLength]
    split
    · exact Nat.zero_le _
    · rw [List.length_cons]
      omega

/-- A word goes on to the next separator. -/
theorem ahead_wordFrom {start n : Nat} (h : Ahead (lex source) p ts)
    (hstart : start < startOf source.utf8ByteSize ts) (hn : ts.length < n) :
    wordFrom (Layout.of source) start n p = .ok (p + wordLength ts) := by
  induction n generalizing p ts with
  | zero => cases hn
  | succ n ih =>
    rw [wordFrom, ahead_endsWordAt h, ok_bind, ahead_offset h, ok_bind]
    cases ts with
    | nil => simp [endsWord, hstart, wordLength]
    | cons t ts =>
      by_cases he : endsWord (t :: ts)
      · simp [he, hstart, wordLength]
      · have hnext : start < startOf source.utf8ByteSize ts := by
          have hstop := Token.ahead_stop_eq h
          rw [Token.stop] at hstop
          rw [startOf] at hstart
          omega
        simp only [he, ahead_bump h, ok_bind, Bool.false_and, Bool.false_eq_true, if_false]
        rw [ih h.tail hnext (Nat.lt_of_succ_lt_succ hn), wordLength, if_neg he, Nat.add_assoc]

theorem ahead_wordAt (h : Ahead (lex source) p (t :: ts)) (he : endsWord (t :: ts) = false) :
    wordAt (Layout.of source) p =
      .ok (.word t.start (t.text ++ textOf (ts.take (wordLength ts))), p + 1 + wordLength ts) := by
  have hlt := Token.ahead_length_lt h
  obtain ⟨n, hn⟩ : ∃ n, (Layout.of source).rounds = n + 1 :=
    ⟨(Layout.of source).rounds - 1, by omega⟩
  have hoffset : (Layout.of source).offset p = .ok t.start := ahead_offset h
  have hstart : t.start < startOf source.utf8ByteSize ts := by
    rw [← Token.ahead_stop_eq h]
    exact Token.start_lt_stop_of_mem_lexFrom (h.mem List.mem_cons_self)
  rw [hn, List.length_cons] at hlt
  have hrest := h.tail.drop (wordLength_le ts)
  have hbetween := h
  rw [← List.take_append_drop (wordLength ts) ts] at hbetween
  simp only [wordAt, hoffset, hn, wordFrom, ahead_endsWordAt h, he, ahead_bump h, ok_bind,
    Bool.false_and, Bool.false_eq_true, if_false,
    ahead_wordFrom h.tail hstart (Nat.lt_of_succ_lt_succ hlt), ahead_offset hrest,
    ahead_between_cons hbetween]
  rfl

/-! ### Strings and urls -/

theorem isQuote_of_scan {c : Char} {cs : List Char} {terminated : Bool}
    (h : (Token.scan c cs).kind = .string terminated) : isQuote c := by
  have hfinds := Token.finds_scan c cs
  generalize Token.scan c cs = l at hfinds h
  cases hfinds with
  | string hquote => exact hquote
  | comment =>
    have hk := Token.isComment_scanComment cs.tail
    rw [Token.Lexeme.kind_extend] at h
    rw [h] at hk
    cases hk
  | number =>
    have hk := Token.isNumeric_scanNumber (c :: cs)
    rw [h] at hk
    cases hk
  | named =>
    have hk := Token.isNamed_scanNamed (c :: cs)
    rw [h] at hk
    cases hk
  | single =>
    have hk := Token.char?_punctuation c
    simp only at h
    rw [h] at hk
    cases hk
  | _ => cases h

/-- A string starts with one of the two quotes. -/
theorem isQuote_of_mem_lexFrom {start : Nat} {cs : List Char} {terminated : Bool} {quote : Char}
    {body : List Char} (h : t ∈ Token.lexFrom start cs) (hk : t.kind = .string terminated)
    (ht : t.text.toList = quote :: body) : isQuote quote := by
  fun_induction Token.lexFrom start cs with
  | case1 => cases h
  | case2 start c cs n text ih =>
    rcases List.mem_cons.mp h with rfl | h
    · rw [String.toList_ofList] at ht
      cases hn : n with
      | zero =>
        rw [hn] at ht
        cases ht
      | succ n =>
        rw [hn, List.take_succ_cons] at ht
        rw [← (List.cons.inj ht).1]
        exact isQuote_of_scan hk
    · exact ih h

theorem utf8Size_of_isQuote {c : Char} (h : isQuote c) : c.utf8Size = 1 := by
  rw [isQuote, Bool.or_eq_true, decide_eq_true_eq, decide_eq_true_eq] at h
  rcases h with rfl | rfl <;> rfl

theorem insideEnd_closing (front : String) (terminated : Bool) {c : Char} (hc : c.utf8Size = 1) :
    insideEnd (front ++ String.ofList (Token.closing terminated c)) terminated =
      .ok front.utf8ByteSize := by
  cases terminated with
  | false => simp [insideEnd, Token.closing]
  | true =>
    have hsize : (String.ofList (Token.closing true c)).utf8ByteSize = 1 := by
      simp [Token.closing, hc]
    rw [insideEnd, if_pos rfl, String.utf8ByteSize_append, hsize, minus_add_right]

theorem ahead_stringAt {terminated : Bool} (h : Ahead (lex source) p (t :: ts))
    (hk : t.kind = .string terminated) :
    stringAt (Layout.of source) p terminated = .ok (stringNode t terminated) := by
  have hs := Token.isSpelled_of_mem_lex (h.mem List.mem_cons_self)
  rw [Token.IsSpelled, hk] at hs
  obtain ⟨quote, body, ht⟩ := hs
  have hquote := utf8Size_of_isQuote (isQuote_of_mem_lexFrom (h.mem List.mem_cons_self) hk ht)
  have htext : t.text = String.singleton quote ++ String.ofList body ++
      String.ofList (Token.closing terminated quote) := by
    rw [← String.toList_inj, ht]
    simp
  have hend : insideEnd t.text terminated =
      .ok (String.singleton quote ++ String.ofList body).utf8ByteSize := by
    rw [htext]
    exact insideEnd_closing _ terminated hquote
  have hslice : slice t.text 1 (String.singleton quote ++ String.ofList body).utf8ByteSize =
      .ok (String.ofList body) := by
    have hsize : (String.singleton quote).utf8ByteSize = 1 := by simp [hquote]
    have hcut := slice_append (String.singleton quote) (String.ofList body)
      (String.ofList (Token.closing terminated quote))
    rw [← htext, ← String.utf8ByteSize_append, hsize] at hcut
    exact hcut
  have hoffset : (Layout.of source).offset p = .ok t.start := ahead_offset h
  simp only [stringAt, ahead_text h, hend, hslice, hoffset, ok_bind, stringNode, ht]
  cases terminated <;> simp [Token.closing]

/-- The front of a text is as long as the text without what stands behind it. -/
theorem minus_dropWhile (q : Char → Bool) (cs : List Char) :
    minus (String.ofList cs).utf8ByteSize (String.ofList (cs.dropWhile q)).utf8ByteSize =
      .ok (String.ofList (cs.takeWhile q)).utf8ByteSize := by
  conv => lhs; rw [← List.takeWhile_append_dropWhile (p := q) (l := cs)]
  rw [String.ofList_append, String.utf8ByteSize_append, List.takeWhile_append_dropWhile,
    minus_add_right]

theorem slice_takeWhile (q : Char → Bool) (cs : List Char) :
    slice (String.ofList cs) 0 (String.ofList (cs.takeWhile q)).utf8ByteSize =
      .ok (String.ofList (cs.takeWhile q)) := by
  have hfront := slice_front (String.ofList (cs.takeWhile q)) (String.ofList (cs.dropWhile q))
  rw [← String.ofList_append, List.takeWhile_append_dropWhile] at hfront
  exact hfront

theorem slice_drop {ws cs : List Char} (h : ws <+: cs) :
    slice (String.ofList cs) (String.ofList ws).utf8ByteSize (String.ofList cs).utf8ByteSize =
      .ok (String.ofList (cs.drop ws.length)) := by
  have hback := slice_back (String.ofList ws) (String.ofList (cs.drop ws.length))
  rw [← String.ofList_append, List.prefix_iff_eq_append.mp h] at hback
  exact hback

theorem utf8ByteSize_paren (name : List Char) :
    (String.ofList (name ++ ['('])).utf8ByteSize = (String.ofList name).utf8ByteSize + 1 := by
  rw [String.ofList_append, String.utf8ByteSize_append]
  rfl

/-- A url is cut at its parentheses. -/
theorem slice_url {raw : String} {terminated : Bool} {name body : List Char}
    (h : raw.toList = name ++ '(' :: (body ++ Token.closing terminated ')')) :
    ∃ stop, insideEnd raw terminated = .ok stop ∧
      slice raw (min ((String.ofList name).utf8ByteSize + 1) stop) stop =
        .ok (String.ofList body) := by
  have hraw : raw = String.ofList (name ++ ['(']) ++ String.ofList body ++
      String.ofList (Token.closing terminated ')') := by
    rw [← String.toList_inj, h]
    simp
  refine ⟨(String.ofList (name ++ ['(']) ++ String.ofList body).utf8ByteSize, ?_, ?_⟩
  · rw [hraw]
    exact insideEnd_closing _ terminated rfl
  · have hcut := slice_append (String.ofList (name ++ ['('])) (String.ofList body)
      (String.ofList (Token.closing terminated ')'))
    rw [← hraw] at hcut
    rw [← utf8ByteSize_paren, String.utf8ByteSize_append, Nat.min_eq_left (Nat.le_add_right ..)]
    exact hcut

theorem ahead_urlAt {terminated : Bool} (h : Ahead (lex source) p (t :: ts))
    (hk : t.kind = .url terminated) :
    urlAt (Layout.of source) p terminated = .ok (urlNode t terminated) := by
  have hs := Token.isSpelled_of_mem_lex (h.mem List.mem_cons_self)
  obtain ⟨name, body, ht, htake, hdrop, hbody⟩ := url_cut hs hk
  obtain ⟨stop, hend, hinner⟩ := slice_url ht
  have hoffset : (Layout.of source).offset p = .ok t.start := ahead_offset h
  have hname : slice t.text 0 (String.ofList name).utf8ByteSize = .ok (String.ofList name) := by
    have hfront := slice_takeWhile (· ≠ '(') t.text.toList
    rw [htake, String.ofList_toList] at hfront
    exact hfront
  have hword : dropEndWhile isSpace (body.dropWhile isSpace) <+: body.dropWhile isSpace :=
    List.rdropWhile_prefix isSpace (body.dropWhile isSpace)
  simp only [urlAt, ahead_text h, hoffset, parenIn, htake, hname, hend, hinner, ok_bind,
    String.toList_ofList, minus_dropWhile, slice_takeWhile, slice_drop hword, urlNode, hdrop,
    hbody]
  cases dropEndWhile isSpace (body.dropWhile isSpace) with
  | nil => rfl
  | cons c cs => simp

/-! ### Nodes without arguments -/

theorem leaf_of_space (hk : t.kind = .whitespace) (hm : dividerMark? (kindOf ts) = none) :
    leaf t ts = (.space t.start t.text, 0) := by
  cases ts with
  | nil => simp [leaf, hk]
  | cons d rest =>
    rw [kindOf] at hm
    simp [leaf, hk, hm]

theorem ahead_nodeAt_space {limit : Nat} {inner : Mark → Checked (List Node × Mark)}
    (h : Ahead (lex source) p (t :: ts)) (ht : t.isWhitespace) :
    nodeAt (Layout.of source) limit inner ⟨p, depth⟩ =
      .ok (.space t.start t.text, ⟨p + 1, depth⟩) := by
  have hoffset : (Layout.of source).offset p = .ok t.start := ahead_offset h
  have hk : t.kind = .whitespace := of_decide_eq_true ht
  simp only [nodeAt, hoffset, ahead_kind h, kindOf, hk, ahead_text h, ahead_bump h, ok_bind]
  rfl

/-- What is no divider and no call is read as one node, unless it is white space
that a divider takes. -/
theorem ahead_nodeAt {limit : Nat} {inner : Mark → Checked (List Node × Mark)}
    (h : Ahead (lex source) p (t :: ts)) (ho : opening? (t :: ts) = none)
    (hm : dividerMark? t.kind = none) (hw : t.isWhitespace → dividerMark? (kindOf ts) = none) :
    ∃ q, nodeAt (Layout.of source) limit inner ⟨p, depth⟩ = .ok ((leaf t ts).1, ⟨q, depth⟩) ∧
      Ahead (lex source) q (ts.drop (leaf t ts).2) := by
  have hs := Token.isSpelled_of_mem_lex (h.mem List.mem_cons_self)
  have hoffset : (Layout.of source).offset p = .ok t.start := ahead_offset h
  have hword (he : endsWord (t :: ts) = false)
      (hleaf : leaf t ts =
        (.word t.start (t.text ++ textOf (ts.take (wordLength ts))), wordLength ts)) :
      ∃ q, (wordAt (Layout.of source) p >>= fun r => .ok (r.1, (⟨r.2, depth⟩ : Mark))) =
          .ok ((leaf t ts).1, ⟨q, depth⟩) ∧
        Ahead (lex source) q (ts.drop (leaf t ts).2) := by
    rw [ahead_wordAt h he, hleaf]
    exact ⟨_, rfl, h.tail.drop (wordLength_le ts)⟩
  have hkind : (Layout.of source).kind p = .ok t.kind := ahead_kind h
  simp only [nodeAt, hoffset, hkind, ok_bind, ahead_text h, ahead_bump h, ahead_kindBehind h]
  cases hk : t.kind with
  | whitespace =>
    have hleaf := leaf_of_space hk (hw (by simp [Token.isWhitespace, hk]))
    exact ⟨p + 1, by simp [hleaf], by simpa [hleaf] using h.tail⟩
  | comment terminated => exact ⟨p + 1, by simp [leaf, hk], by simpa [leaf, hk] using h.tail⟩
  | string terminated =>
    simp only [ahead_stringAt h hk, ok_bind]
    exact ⟨p + 1, by simp [leaf, hk], by simpa [leaf, hk] using h.tail⟩
  | url terminated =>
    simp only [ahead_urlAt h hk, ok_bind]
    exact ⟨p + 1, by simp [leaf, hk], by simpa [leaf, hk] using h.tail⟩
  | rightParen =>
    have htext : t.text = String.singleton ')' := hs.text_eq (by rw [hk]; rfl)
    exact ⟨p + 1, by simp [leaf, hk, htext], by simpa [leaf, hk] using h.tail⟩
  | colon =>
    have hbehind : kindOf ts ≠ .function := by
      intro hf
      cases ts with
      | nil => cases hf
      | cons name rest =>
        rw [kindOf] at hf
        simp [opening?, hk, hf, Token.Kind.opensParen] at ho
    have he : endsWord (t :: ts) = false := by
      cases ts with
      | nil => simp [endsWord, hk, startsColonCall]
      | cons name rest =>
        rw [kindOf] at hbehind
        simp [endsWord, hk, startsColonCall, hbehind]
    simp only [hbehind, if_false]
    exact hword he (by simp [leaf, hk, dividerMark?])
  | function => simp [opening?, hk, Token.Kind.opensParen] at ho
  | leftParen => simp [opening?, hk, Token.Kind.opensParen] at ho
  | eof => exact absurd hk (Token.ne_eof_of_mem_lexFrom (h.mem List.mem_cons_self))
  | comma =>
    rw [hk] at hm
    cases hm
  | _ =>
    rw [hk] at hm
    exact hword (by simp [endsWord, hk, hm]) (by simp [leaf, hk, hm])

/-! ### Dividers -/

/-- A divider takes the white space on both sides. -/
theorem ahead_dividerAt (h : Ahead (lex source) p (t :: ts)) :
    ∃ q, Ahead (lex source) q (ts.drop (ts.takeWhile isWhitespace).length) ∧
      ∀ mark nodes, dividerAt (Layout.of source) mark nodes p =
        .ok (.divider t.start mark (popSpace nodes).1 (textOf (ts.takeWhile isWhitespace)) ::
          (popSpace nodes).2, q) := by
  have hoffset : (Layout.of source).offset p = .ok t.start := ahead_offset h
  obtain ⟨q, hskip, hq⟩ := ahead_skip (f := isWhitespace) (q := (· = .whitespace)) (fun _ => rfl)
    rfl h.tail
  have hdrop : ts.drop (ts.takeWhile isWhitespace).length = ts.dropWhile isWhitespace :=
    List.append_cancel_left ((List.prefix_iff_eq_append.mp (List.takeWhile_prefix _)).trans
      List.takeWhile_append_dropWhile.symm)
  refine ⟨q, hdrop ▸ hq, fun mark nodes => ?_⟩
  simp only [dividerAt, hoffset, ahead_bump h, ok_bind, ahead_offset h.tail, hskip,
    ahead_offset hq, Token.ahead_between_dropWhile isWhitespace h.tail]
  rfl

/-! ### Calls -/

/-- What stands in front of the parenthesis in the text of a call. -/
theorem slice_paren (raw : String) : slice raw 0 (parenIn raw) = .ok (splitCall raw).1 := by
  have hfront := slice_takeWhile (· ≠ '(') raw.toList
  rw [String.ofList_toList] at hfront
  exact hfront

/-- What stands behind it. -/
theorem slice_behind (raw : String) :
    slice raw (min (parenIn raw + 1) raw.utf8ByteSize) raw.utf8ByteSize =
      .ok (splitCall raw).2 := by
  have hsplit : raw.toList.takeWhile (· ≠ '(') ++ raw.toList.dropWhile (· ≠ '(') = raw.toList :=
    List.takeWhile_append_dropWhile
  cases hd : raw.toList.dropWhile (· ≠ '(') with
  | nil =>
    have hparen : parenIn raw = raw.utf8ByteSize := by
      rw [hd, List.append_nil] at hsplit
      rw [parenIn, hsplit, String.ofList_toList]
    have hback := slice_back raw ""
    rw [String.append_empty] at hback
    rw [hparen, Nat.min_eq_right (Nat.le_succ _), hback, splitCall, hd]
    rfl
  | cons c rest =>
    have hc : c = '(' := by
      have hhead := List.head?_dropWhile_not (· ≠ '(') raw.toList
      rw [hd] at hhead
      simpa using hhead
    have hraw : raw = String.ofList (raw.toList.takeWhile (· ≠ '(') ++ ['(']) ++
        String.ofList rest := by
      rw [hd, hc] at hsplit
      rw [← String.ofList_append, List.append_assoc, List.singleton_append, hsplit,
        String.ofList_toList]
    have hopen : parenIn raw + 1 =
        (String.ofList (raw.toList.takeWhile (· ≠ '(') ++ ['('])).utf8ByteSize :=
      (utf8ByteSize_paren _).symm
    have hle : parenIn raw + 1 ≤ raw.utf8ByteSize := by
      rw [hopen]
      conv => rhs; rw [hraw]
      rw [String.utf8ByteSize_append]
      exact Nat.le_add_right ..
    have hback := slice_back (String.ofList (raw.toList.takeWhile (· ≠ '(') ++ ['(']))
      (String.ofList rest)
    rw [← hraw, ← hopen] at hback
    rw [Nat.min_eq_left hle, hback, splitCall, hd]
    rfl

/-- A call goes on with its arguments. -/
theorem ahead_opening {o : Opening} (h : Ahead (lex source) p (t :: ts))
    (ho : opening? (t :: ts) = some o) :
    dividerMark? t.kind = none ∧ ∃ q, Ahead (lex source) q (o.opener :: o.body) ∧
      ∀ limit inner depth, nodeAt (Layout.of source) limit inner ⟨p, depth⟩ =
        callAt (Layout.of source) limit inner o.colon ⟨q, depth⟩ := by
  have hs := Token.isSpelled_of_mem_lex (h.mem List.mem_cons_self)
  have hoffset : (Layout.of source).offset p = .ok t.start := ahead_offset h
  have hkind : (Layout.of source).kind p = .ok t.kind := ahead_kind h
  unfold opening? at ho
  simp only at ho
  split at ho
  next hopens =>
    cases ho
    refine ⟨?_, p, h, fun limit inner depth => ?_⟩
    · cases hk : t.kind <;> rw [hk] at hopens <;> first | rfl | cases hopens
    · simp only [nodeAt, hoffset, hkind, ok_bind]
      cases hk : t.kind <;> rw [hk] at hopens <;> first | rfl | cases hopens
  next =>
    split at ho
    · cases ho
    next name rest =>
      split at ho
      next hcolon =>
        cases ho
        rw [Bool.and_eq_true, decide_eq_true_eq, decide_eq_true_eq] at hcolon
        have htext : t.text = String.singleton ':' := hs.text_eq (by rw [hcolon.1]; rfl)
        refine ⟨by rw [hcolon.1]; rfl, p + 1, h.tail, fun limit inner depth => ?_⟩
        simp only [nodeAt, hoffset, hkind, ok_bind, hcolon.1, ahead_kindBehind h, kindOf, hcolon.2,
          if_true, ahead_bump h, htext]
        rfl
      next => cases ho

/-! ### Whole values -/

/-- White space at the end of the nodes, the last one first, is not white space
that a divider takes. -/
def Settled (nodes : List Node) (ts : List Token) : Prop :=
  (dividerMark? (kindOf ts)).isSome → popSpace nodes = ("", nodes)

theorem leaf_of_divider {mark : Char} (hm : dividerMark? t.kind = some mark) (ts : List Token) :
    leaf t ts = (.divider t.start mark "" (textOf (ts.takeWhile isWhitespace)),
      (ts.takeWhile isWhitespace).length) := by
  cases hk : t.kind with
  | comma | delim c =>
    rw [hk] at hm
    simp [leaf, hk, hm]
  | _ =>
    rw [hk] at hm
    cases hm

theorem leaf_of_space_divider {d : Token} {mark : Char} (ht : t.isWhitespace)
    (hm : dividerMark? d.kind = some mark) (ts : List Token) :
    leaf t (d :: ts) = (.divider d.start mark t.text (textOf (ts.takeWhile isWhitespace)),
      1 + (ts.takeWhile isWhitespace).length) := by
  have hk : t.kind = .whitespace := of_decide_eq_true ht
  simp [leaf, hk, hm]

/-- A node without arguments is white space only in front of no divider. -/
theorem settled_leaf (hm : dividerMark? t.kind = none)
    (hw : t.isWhitespace → dividerMark? (kindOf ts) = none) (nodes : List Node) :
    Settled ((leaf t ts).1 :: nodes) (ts.drop (leaf t ts).2) := by
  intro hsome
  cases hk : t.kind with
  | whitespace =>
    have hnone := hw (by simp [Token.isWhitespace, hk])
    rw [leaf_of_space hk hnone, List.drop_zero, hnone] at hsome
    cases hsome
  | _ =>
    rw [hk] at hm
    simp [leaf, hk, hm, popSpace, stringNode, urlNode]

/-- The nodes that were read stand behind those there were, and the rest of the
tokens lies ahead. -/
structure Nodes.Matches (source : String) (depth : Nat) (nodes : List Node) {n : Nat}
    (r : List Node × Mark) (ns : Nodes n) : Prop where
  nodes : r.1 = nodes.reverse ++ ns.nodes
  depth : r.2.depth = depth
  ahead : Ahead (lex source) r.2.position ns.rest
  stops : Token.StopsAt .rightParen ns.rest

theorem follows_cons {m n : Nat} {nodes : List Node} {node : Node}
    {x : Checked (List Node × Mark)} {y : Except SyntaxError (Nodes m)}
    (h : Follows (Nodes.Matches source depth (node :: nodes)) x y) (hle : m ≤ n) :
    Follows (Nodes.Matches source depth nodes) x (y >>= fun ns => .ok (ns.cons node hle)) := by
  refine h.bind_pure_right fun r ns hm => ⟨?_, hm.depth, hm.ahead, hm.stops⟩
  rw [hm.nodes, List.reverse_cons, List.append_assoc]
  rfl

/-- A call is closed by the parenthesis that its arguments stop at. -/
theorem ahead_closeAt (depth : Nat) (h : Ahead (lex source) p ts)
    (hs : Token.StopsAt .rightParen ts) :
    ∃ q, Ahead (lex source) q ts.tail ∧
      closeAt (Layout.of source) ⟨p, depth + 1⟩ = .ok (ts.isEmpty, ⟨q, depth⟩) := by
  rw [closeAt, minus_add_right, ok_bind, ahead_kind h, ok_bind]
  cases ts with
  | nil => exact ⟨p, h, rfl⟩
  | cons u us =>
    rw [kindOf, if_pos (Token.stopsAt_cons.mp hs), ahead_bump h]
    exact ⟨p + 1, h.tail, rfl⟩

theorem follows_callAt {limit : Nat} {inner : Mark → Checked (List Node × Mark)} {o : Opening}
    (h : Ahead (lex source) p (o.opener :: o.body)) (hd : ¬ limit ≤ depth)
    (hi : Follows (Nodes.Matches source (depth + 1) []) (inner ⟨p + 1, depth + 1⟩)
      (parseNodes limit (depth + 1) true o.body)) :
    Follows
      (fun r (ns : Nodes o.body.length) => r.1 = o.call ns.nodes ns.rest.isEmpty ∧
        r.2.depth = depth ∧ Ahead (lex source) r.2.position ns.rest.tail)
      (callAt (Layout.of source) limit inner o.colon ⟨p, depth⟩)
      (parseNodes limit (depth + 1) true o.body) := by
  have hoffset : (Layout.of source).offset p = .ok o.opener.start := ahead_offset h
  simp only [callAt, hoffset, ahead_text h, ok_bind, slice_paren, slice_behind, ahead_bump h,
    Nat.lt_succ_iff, hd, if_false]
  rw [← bind_pure (parseNodes limit (depth + 1) true o.body)]
  refine hi.bind ?_
  rintro ⟨arguments, a, depth'⟩ ns ⟨rfl, rfl, hahead, hstops⟩
  obtain ⟨q, hq, hclose⟩ := ahead_closeAt depth hahead hstops
  simp only [hclose, ok_bind]
  exact .ok ⟨rfl, rfl, hq⟩

theorem ahead_nodesFrom_divider {mark : Char} (h : Ahead (lex source) p (t :: ts))
    (hm : dividerMark? t.kind = some mark) :
    ∃ q, Ahead (lex source) q (ts.drop (ts.takeWhile isWhitespace).length) ∧
      ∀ limit n nested nodes depth,
        nodesFrom (Layout.of source) limit (n + 1) nested nodes ⟨p, depth⟩ =
          nodesFrom (Layout.of source) limit n nested
            (.divider t.start mark (popSpace nodes).1 (textOf (ts.takeWhile isWhitespace)) ::
              (popSpace nodes).2) ⟨q, depth⟩ := by
  have hkind : (Layout.of source).kind p = .ok t.kind := ahead_kind h
  have hend : t.kind ≠ .eof ∧ t.kind ≠ .rightParen := by
    constructor <;>
    · intro hk
      rw [hk] at hm
      cases hm
  obtain ⟨q, hq, hdivider⟩ := ahead_dividerAt h
  refine ⟨q, hq, fun limit n nested nodes depth => ?_⟩
  simp only [nodesFrom, hkind, ok_bind, hend.1, hend.2, decide_false, Bool.and_false,
    Bool.or_false, Bool.false_eq_true, if_false, hm, hdivider]

theorem ahead_nodesFrom {limit n : Nat} {nested : Bool} {nodes : List Node}
    (h : Ahead (lex source) p (t :: ts)) (hc : ¬ (nested && decide (t.kind = .rightParen)) = true)
    (hm : dividerMark? t.kind = none) :
    nodesFrom (Layout.of source) limit (n + 1) nested nodes ⟨p, depth⟩ =
      nodeAt (Layout.of source) limit (nodesFrom (Layout.of source) limit n true []) ⟨p, depth⟩ >>=
        fun r => nodesFrom (Layout.of source) limit n nested (r.1 :: nodes) r.2 := by
  have hkind : (Layout.of source).kind p = .ok t.kind := ahead_kind h
  have heof : t.kind ≠ .eof := Token.ne_eof_of_mem_lexFrom (h.mem List.mem_cons_self)
  simp only [nodesFrom, hkind, ok_bind, heof, decide_false, Bool.false_or, hc, hm]
  rfl

theorem follows_nodesFrom {limit n : Nat} {nested : Bool} {nodes : List Node}
    (h : Ahead (lex source) p ts) (hs : Settled nodes ts) (hn : ts.length < n) :
    Follows (Nodes.Matches source depth nodes)
      (nodesFrom (Layout.of source) limit n nested nodes ⟨p, depth⟩)
      (parseNodes limit depth nested ts) := by
  obtain ⟨n, rfl⟩ : ∃ k, n = k + 1 := ⟨n - 1, by omega⟩
  fun_induction parseNodes limit depth nested ts generalizing p nodes n with
  | case1 depth nested =>
    have hkind : (Layout.of source).kind p = .ok .eof := ahead_kind h
    simp only [nodesFrom, hkind, ok_bind, decide_true, Bool.true_or, if_true]
    exact .ok ⟨(List.append_nil _).symm, rfl, h, Token.stopsAt_nil _⟩
  | case2 depth nested t rest hc =>
    have hkind : (Layout.of source).kind p = .ok t.kind := ahead_kind h
    simp only [nodesFrom, hkind, ok_bind, hc, Bool.or_true, if_true]
    rw [Bool.and_eq_true, decide_eq_true_eq] at hc
    exact .ok ⟨(List.append_nil _).symm, rfl, h, Token.stopsAt_cons.mpr hc.2⟩
  | case3 depth nested t rest hc ho node i hleaf ih =>
    rw [List.length_cons] at hn
    obtain ⟨n, rfl⟩ : ∃ k, n = k + 1 := ⟨n - 1, by omega⟩
    have hlength : (rest.drop i).length ≤ rest.length - i := Nat.le_of_eq List.length_drop
    cases hm : dividerMark? t.kind with
    | some mark =>
      obtain ⟨q, hq, hdivider⟩ := ahead_nodesFrom_divider h hm
      have hpop := hs (by rw [kindOf, hm]; rfl)
      rw [leaf_of_divider hm] at hleaf
      cases hleaf
      rw [hdivider, hpop]
      exact follows_cons (ih hq (fun _ => rfl) n (by omega)) _
    | none =>
      by_cases hw : t.isWhitespace → dividerMark? (kindOf rest) = none
      · obtain ⟨q, hnode, hq⟩ := ahead_nodeAt h ho hm hw
        have hsettled := settled_leaf hm hw nodes
        rw [hleaf] at hnode hq hsettled
        rw [ahead_nodesFrom h hc hm, hnode, ok_bind]
        exact follows_cons (ih hq hsettled n (by omega)) _
      · -- white space and the divider that takes it, in two rounds
        obtain ⟨ht, hsome⟩ := Classical.not_imp.mp hw
        cases rest with
        | nil => exact absurd rfl hsome
        | cons d rest =>
          obtain ⟨mark, hd⟩ := Option.ne_none_iff_exists'.mp hsome
          rw [kindOf] at hd
          obtain ⟨q, hq, hdivider⟩ := ahead_nodesFrom_divider h.tail hd
          rw [List.length_cons] at hn
          obtain ⟨n, rfl⟩ : ∃ k, n = k + 1 := ⟨n - 1, by omega⟩
          rw [leaf_of_space_divider ht hd] at hleaf
          cases hleaf
          have hbehind : Ahead (lex source) q
              ((d :: rest).drop (1 + (rest.takeWhile isWhitespace).length)) := by
            rw [Nat.add_comm 1]
            exact hq
          rw [List.length_cons] at hlength
          rw [ahead_nodesFrom h hc hm, ahead_nodeAt_space h ht, ok_bind, hdivider]
          exact follows_cons (ih hbehind (fun _ => rfl) n (by omega)) _
  | case4 depth nested t rest hc o ho hb hd =>
    obtain ⟨hm, q, hq, hcall⟩ := ahead_opening h ho
    have hoffset : (Layout.of source).offset q = .ok o.opener.start := ahead_offset hq
    rw [ahead_nodesFrom h hc hm, hcall]
    simp only [callAt, hoffset, ahead_text hq, ok_bind, slice_paren, slice_behind, ahead_bump hq,
      Nat.lt_succ_iff, hd, if_true]
    exact .refused _
  | case5 depth nested t rest hc o ho hb hd iha ih =>
    obtain ⟨hm, q, hq, hcall⟩ := ahead_opening h ho
    rw [List.length_cons] at hb hn
    obtain ⟨n, rfl⟩ : ∃ k, n = k + 1 := ⟨n - 1, by omega⟩
    rw [ahead_nodesFrom h hc hm, hcall]
    refine (follows_callAt hq hd (iha hq.tail (fun _ => rfl) n (by omega))).bind ?_
    rintro ⟨node, a, depth'⟩ arguments ⟨rfl, rfl, hrest⟩
    have hlength := arguments.length_rest
    exact follows_cons (ih arguments hrest (fun _ => rfl) n
      (by rw [List.length_tail]; omega)) _

/-! ### The whole source -/

/-- Reads a value by position, from its characters on. -/
def parseByPosition (limit : Nat) (source : String) : Checked (List Node) := do
  let l : Layout := ⟨source, ← Token.spansOf source⟩
  let (nodes, _) ← nodesFrom l limit l.rounds false [] ⟨0, 0⟩
  return nodes

/-- **Reading a value by position has no fault and gives the value, or the error
that the source is refused with.** -/
theorem parseByPosition_eq (limit : Nat) (source : String) :
    parseByPosition limit source = (parseWithin limit source).mapError .refused := by
  have hstart := Ahead.start (lex source)
  have hnodes : Follows (Nodes.Matches source 0 [])
      (nodesFrom (Layout.of source) limit (Layout.of source).rounds false [] ⟨0, 0⟩)
      (parseNodes limit 0 false (lex source)) :=
    follows_nodesFrom hstart (fun _ => rfl) (Token.ahead_length_lt hstart)
  have hparse : parseWithin limit source =
      parseNodes limit 0 false (lex source) >>= fun ns => .ok ns.nodes := by
    rw [parseWithin]
    cases parseNodes limit 0 false (lex source) <;> rfl
  rw [hparse]
  refine Follows.eq_mapError ?_
  rw [parseByPosition, Token.spansOf_eq, ok_bind]
  refine hnodes.bind_pure ?_
  rintro r ns hm
  rw [hm.nodes, List.reverse_nil, List.nil_append]

end Ahead
end Value
end StyleScope
