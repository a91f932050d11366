/-
# Reading tokens by position

The lexer by position: all characters of the source stay in one list, a position
says how far it was read, and the byte offsets of the tokens are looked up in a
table. Asking for a character gives none behind the end, so the faults that are
left are an offset that is not in the table, a name that is cut out of the
characters behind their end, and a loop that does not end. Where the scanners on
lists return lengths, these return positions, and each returns the position that
the length of the other leads to (`Input.ahead_scanAt`).

Key definitions: `Token.Input`, `Token.Input.scanAt`, `Token.spansOf`.
Key theorems: `Token.spansOf_eq`.
-/
import StyleScope.Proofs.Checked

namespace StyleScope
namespace Token

open Text Checked

/-- The byte offsets of the characters of a text that starts at `offset`, and
that of its end. -/
def offsetsFrom (offset : Nat) : List Char → List Nat
  | [] => [offset]
  | c :: cs => offset :: offsetsFrom (offset + c.utf8Size) cs

/-- The characters of a source and their byte offsets. -/
structure Input where
  chars : List Char
  offsets : List Nat

namespace Input

def of (source : String) : Input :=
  ⟨source.toList, offsetsFrom 0 source.toList⟩

section Scanners

variable (i : Input)

/-! ### Characters -/

def peekAt (p k : Nat) : Option Char :=
  i.chars[p + k]?

def peek (p : Nat) : Option Char :=
  i.peekAt p 0

/-- The position `k` characters on, or the end. -/
def advance (p k : Nat) : Nat :=
  min (p + k) i.chars.length

/-- The position of the character that was read last. -/
def reconsume (p : Nat) : Nat :=
  p - 1

/-- The rounds that a loop over the characters has. -/
def rounds : Nat :=
  i.chars.length + 1

def skipWhile (q : Char → Bool) : Nat → Nat → Checked Nat
  | 0, _ => crash .endless
  | n + 1, p => if (i.peek p).any q then skipWhile q n (p + 1) else return p

/-- The position behind the characters that `q` holds of. -/
def skip (q : Char → Bool) (p : Nat) : Checked Nat :=
  i.skipWhile q i.rounds p

/-! ### Escapes and names -/

def isEscape (first second : Option Char) : Bool :=
  first = some '\\' && second.any fun c => !isNewline c

/-- The position behind at most `n` hex digits. -/
def hexDigits : Nat → Nat → Nat
  | 0, p => p
  | n + 1, p => if (i.peek p).any isHexDigit then hexDigits n (p + 1) else p

/-- The position behind an escape whose backslash has been read. -/
def escaped (p : Nat) : Nat :=
  match i.peek p with
  | none => p
  | some c =>
    if isHexDigit c then
      let p := i.hexDigits 5 (p + 1)
      if (i.peek p).any isSpace then p + 1 else p
    else p + 1

def nameFrom : Nat → Nat → Checked Nat
  | 0, _ => crash .endless
  | n + 1, p =>
    if (i.peek p).any isName then nameFrom n (p + 1)
    else if isEscape (i.peek p) (i.peekAt p 1) then nameFrom n (i.escaped (p + 1))
    else return p

/-- The position behind a name. -/
def name (p : Nat) : Checked Nat :=
  i.nameFrom i.rounds p

def startsNameAt (p : Nat) : Bool :=
  match i.peek p with
  | none => false
  | some c =>
    if c = '-' then
      (i.peekAt p 1).any isNameStart || i.peekAt p 1 = some '-' ||
        isEscape (i.peekAt p 1) (i.peekAt p 2)
    else if c = '\\' then isEscape (i.peek p) (i.peekAt p 1)
    else isNameStart c

/-! ### Numbers -/

def startsNumberAt (p : Nat) : Bool :=
  match i.peek p with
  | none => false
  | some c =>
    if isSign c then
      (i.peekAt p 1).any isDigit || (i.peekAt p 1 = some '.' && (i.peekAt p 2).any isDigit)
    else if c = '.' then (i.peekAt p 1).any isDigit
    else isDigit c

def fraction (p : Nat) : Checked Nat :=
  if i.peek p = some '.' && (i.peekAt p 1).any isDigit then i.skip isDigit (i.advance p 2)
  else return p

def exponent (p : Nat) : Checked Nat :=
  if i.peek p = some 'e' || i.peek p = some 'E' then
    let k := if (i.peekAt p 1).any isSign then 2 else 1
    if (i.peekAt p k).any isDigit then i.skip isDigit (i.advance p (k + 1)) else return p
  else return p

/-- The position behind a number. -/
def number (p : Nat) : Checked Nat := do
  let p := if (i.peek p).any isSign then p + 1 else p
  let p ← i.skip isDigit p
  let p ← i.fraction p
  i.exponent p

/-- A number with its unit. -/
def numeric (p : Nat) : Checked (Kind × Nat) := do
  let p ← i.number p
  if i.startsNameAt p then return (.dimension, ← i.name p)
  else if i.peek p = some '%' then return (.percentage, p + 1)
  else return (.number, p)

/-! ### Comments, strings and urls -/

def commentFrom : Nat → Nat → Checked (Kind × Nat)
  | 0, _ => crash .endless
  | n + 1, p =>
    match i.peek p with
    | none => return (.comment false, p)
    | some c =>
      if c = '*' && i.peek (p + 1) = some '/' then return (.comment true, p + 2)
      else commentFrom n (p + 1)

def stringFrom (quote : Char) : Nat → Nat → Checked (Kind × Nat)
  | 0, _ => crash .endless
  | n + 1, p =>
    match i.peek p with
    | none => return (.string false, p)
    | some c =>
      if c = quote then return (.string true, p + 1)
      else if isNewline c then return (.badString, reconsume (p + 1))
      else if c = '\\' then
        match i.peek (p + 1) with
        | none => stringFrom quote n (p + 1)
        | some d =>
          if d = '\n' then stringFrom quote n (p + 2)
          else stringFrom quote n (i.escaped (p + 1))
      else stringFrom quote n (p + 1)

def badUrlFrom : Nat → Nat → Checked Nat
  | 0, _ => crash .endless
  | n + 1, p =>
    match i.peek p with
    | none => return p
    | some c =>
      if c = ')' then return p + 1
      else if isEscape (some c) (i.peek (p + 1)) then badUrlFrom n (i.escaped (p + 1))
      else badUrlFrom n (p + 1)

/-- The remains of a url that broke off. -/
def badUrl (p : Nat) : Checked (Kind × Nat) := do
  return (.badUrl, ← i.badUrlFrom i.rounds p)

def urlFrom : Nat → Nat → Checked (Kind × Nat)
  | 0, _ => crash .endless
  | n + 1, p =>
    match i.peek p with
    | none => return (.url false, p)
    | some c =>
      if c = ')' then return (.url true, p + 1)
      else if isSpace c then do
        let p ← i.skip isSpace (p + 1)
        match i.peek p with
        | none => return (.url false, p)
        | some d => if d = ')' then return (.url true, p + 1) else i.badUrl p
      else if isQuote c || c = '(' then i.badUrl (p + 1)
      else if c = '\\' then
        if isEscape (some c) (i.peek (p + 1)) then urlFrom n (i.escaped (p + 1))
        else i.badUrl (p + 1)
      else urlFrom n (p + 1)

/-- A name, and what a parenthesis behind it makes of it. -/
def named (start : Nat) : Checked (Kind × Nat) := do
  let p ← i.name start
  let cs ← range i.chars start p
  if sameWord (String.ofList cs) "url" && i.peek p = some '(' then
    let p ← i.skip isSpace (p + 1)
    if (i.peek p).any isQuote then return (.function, p) else i.urlFrom i.rounds p
  else if i.peek p = some '(' then return (.function, p + 1)
  else return (.ident, p)

/-! ### One token -/

/-- The token that starts with the character `c` at position `p`, unless that is
one of those with a meaning of their own. -/
def word (c : Char) (p : Nat) : Checked (Kind × Nat) :=
  if c = '+' || c = '.' then
    if i.startsNumberAt (reconsume (p + 1)) then i.numeric (reconsume (p + 1))
    else return (.delim c, p + 1)
  else if c = '-' then
    if i.startsNumberAt (reconsume (p + 1)) then i.numeric (reconsume (p + 1))
    else if i.peekAt p 1 = some '-' && i.peekAt p 2 = some '>' then return (.cdc, i.advance p 3)
    else if i.startsNameAt p then i.named p
    else return (.delim c, p + 1)
  else if c = '<' then
    if i.peek (p + 1) = some '!' && i.peekAt (p + 1) 1 = some '-' &&
        i.peekAt (p + 1) 2 = some '-' then
      return (.cdo, i.advance (p + 1) 3)
    else return (.delim c, p + 1)
  else if c = '@' then
    if i.startsNameAt (p + 1) then return (.atKeyword, ← i.name (p + 1))
    else return (.delim c, p + 1)
  else if c = '\\' then
    if isEscape (some c) (i.peek (p + 1)) then i.named (reconsume (p + 1))
    else return (.delim c, p + 1)
  else if isDigit c then i.numeric (reconsume (p + 1))
  else if isNameStart c then i.named (reconsume (p + 1))
  else return (.delim c, p + 1)

/-- The kind of the token at position `p`, and the position behind it. -/
def scanAt (p : Nat) : Checked (Kind × Nat) :=
  if i.peek p = some '/' && i.peekAt p 1 = some '*' then i.commentFrom i.rounds (i.advance p 2)
  else
    match i.peek p with
    | none => return (.eof, p)
    | some c =>
      if isSpace c then return (.whitespace, ← i.skip isSpace (p + 1))
      else if isQuote c then i.stringFrom c i.rounds (p + 1)
      else if c = '#' then
        if (i.peek (p + 1)).any isName || isEscape (i.peek (p + 1)) (i.peekAt (p + 1) 1) then
          return (.hash (i.startsNameAt (p + 1)), ← i.name (p + 1))
        else return (.delim c, p + 1)
      else
        match punctuation? c with
        | some k => return (k, p + 1)
        | none => i.word c p

/-! ### All tokens -/

def runFrom : Nat → Nat → Checked (List Span)
  | 0, _ => crash .endless
  | n + 1, p => do
    let (kind, q) ← i.scanAt p
    let span := ⟨kind, ← nth i.offsets p, ← nth i.offsets q⟩
    if kind = .eof then return [span] else return span :: (← runFrom n q)

end Scanners

/-! ### Characters ahead -/

section Ahead

variable {i : Input} {p : Nat} {c : Char} {cs : List Char}

theorem ahead_peekAt (h : Ahead i.chars p cs) (k : Nat) : i.peekAt p k = cs[k]? :=
  h.getElem? k

theorem ahead_peek (h : Ahead i.chars p cs) : i.peek p = cs.head? := by
  rw [peek, ahead_peekAt h, List.head?_eq_getElem?]

theorem ahead_length_lt (h : Ahead i.chars p cs) : cs.length < i.rounds := by
  have hlength := h.length_eq
  unfold rounds
  omega

theorem ahead_advance {k : Nat} (h : Ahead i.chars p cs) (hk : k ≤ cs.length) :
    i.advance p k = p + k := by
  have hlength := h.length_eq
  exact Nat.min_eq_left (by omega)

theorem ahead_skipWhile {q : Char → Bool} {n : Nat} (h : Ahead i.chars p cs)
    (hn : cs.length < n) : i.skipWhile q n p = .ok (p + runLength q cs) := by
  induction cs generalizing p n with
  | nil =>
    obtain ⟨n, rfl⟩ := Nat.exists_eq_add_of_lt hn
    rw [skipWhile, ahead_peek h]
    rfl
  | cons c cs ih =>
    cases n with
    | zero => cases hn
    | succ n =>
      rw [skipWhile, ahead_peek h, List.head?_cons, Option.any_some]
      by_cases hc : q c
      · have hrun : runLength q (c :: cs) = 1 + runLength q cs := by
          simp [runLength, hc, Nat.add_comm]
        rw [if_pos hc, ih h.tail (Nat.lt_of_succ_lt_succ hn), hrun, Nat.add_assoc]
      · have hrun : runLength q (c :: cs) = 0 := by simp [runLength, hc]
        rw [if_neg hc, hrun]
        rfl

theorem ahead_skip {q : Char → Bool} (h : Ahead i.chars p cs) :
    i.skip q p = .ok (p + runLength q cs) :=
  ahead_skipWhile h (ahead_length_lt h)

/-- A run whose first character has been read. -/
theorem ahead_skip_tail {q : Char → Bool} (h : Ahead i.chars p (c :: cs)) (hc : q c) :
    i.skip q (p + 1) = .ok (p + runLength q (c :: cs)) := by
  have hrun : runLength q (c :: cs) = 1 + runLength q cs := by
    simp [runLength, hc, Nat.add_comm]
  rw [ahead_skip h.tail, hrun, Nat.add_assoc]

/-! ### Escapes and names -/

theorem ahead_hexDigits (n : Nat) (h : Ahead i.chars p cs) :
    (if (i.peek (i.hexDigits n p)).any isSpace then i.hexDigits n p + 1 else i.hexDigits n p) =
      p + hexTailLength n cs := by
  fun_induction hexTailLength n cs generalizing p with
  | case1 n =>
    have hdigits : i.hexDigits n p = p := by
      cases n <;> simp [hexDigits, ahead_peek h]
    simp [hdigits, ahead_peek h]
  | case2 c cs hc => simp [hexDigits, ahead_peek h, hc]
  | case3 c cs hc => simp [hexDigits, ahead_peek h, hc]
  | case4 n c cs hc ih =>
    have hdigits : i.hexDigits (n + 1) p = i.hexDigits n (p + 1) := by
      simp [hexDigits, ahead_peek h, hc]
    rw [hdigits, ih h.tail, Nat.add_assoc]
  | case5 n c cs hc hs => simp [hexDigits, ahead_peek h, hc, hs]
  | case6 n c cs hc hs => simp [hexDigits, ahead_peek h, hc, hs]

theorem ahead_escaped (h : Ahead i.chars p cs) : i.escaped p = p + escapeLength cs := by
  rw [escaped, ahead_peek h]
  cases cs with
  | nil => rfl
  | cons c cs =>
    rw [escapeLength]
    by_cases hc : isHexDigit c
    · simp only [List.head?_cons, if_pos hc]
      rw [ahead_hexDigits 5 h.tail, Nat.add_assoc]
    · simp only [List.head?_cons, if_neg hc]

theorem isEscape_eq (c : Char) (cs : List Char) :
    isEscape (some c) cs.head? = (c = '\\' && escapes cs) := by
  cases cs <;> simp [isEscape, escapes]

theorem ahead_peekAt_one (h : Ahead i.chars p (c :: cs)) : i.peekAt p 1 = cs.head? := by
  rw [ahead_peekAt h, List.getElem?_cons_succ, List.head?_eq_getElem?]

theorem ahead_peekAt_two (h : Ahead i.chars p (c :: cs)) : i.peekAt p 2 = cs.tail.head? := by
  rw [ahead_peekAt h, List.getElem?_cons_succ, List.head?_eq_getElem?, List.getElem?_tail]

theorem ahead_nameFrom {n : Nat} (h : Ahead i.chars p cs) (hn : cs.length < n) :
    i.nameFrom n p = .ok (p + nameLength cs) := by
  induction n generalizing p cs with
  | zero => cases hn
  | succ n ih =>
    cases cs with
    | nil =>
      rw [nameFrom, ahead_peek h, nameLength]
      rfl
    | cons c cs =>
      have hn : cs.length < n := Nat.lt_of_succ_lt_succ hn
      rw [nameFrom, ahead_peek h, ahead_peekAt_one h, nameLength, List.head?_cons,
        Option.any_some, isEscape_eq]
      by_cases hc : isName c
      · rw [if_pos hc, if_pos hc, ih h.tail hn, Nat.add_assoc]
      · rw [if_neg hc, if_neg hc]
        by_cases he : (c = '\\' && escapes cs) = true
        · have hle := escapeLength_le cs
          have hlt : (cs.drop (escapeLength cs)).length < n := by
            rw [List.length_drop]
            omega
          rw [if_pos he, if_pos he, ahead_escaped h.tail, ih (h.tail.drop hle) hlt]
          simp only [Nat.add_assoc]
        · rw [if_neg he, if_neg he]
          rfl

theorem ahead_name (h : Ahead i.chars p cs) : i.name p = .ok (p + nameLength cs) :=
  ahead_nameFrom h (ahead_length_lt h)

theorem continuesHyphen_eq (cs : List Char) :
    continuesHyphen cs = (cs.head?.any isNameStart || cs.head? = some '-' ||
      isEscape cs.head? cs.tail.head?) := by
  cases cs with
  | nil => rfl
  | cons c cs => simp [continuesHyphen, isEscape_eq]

theorem ahead_startsNameAt (h : Ahead i.chars p cs) : i.startsNameAt p = startsName cs := by
  rw [startsNameAt, ahead_peek h]
  cases cs with
  | nil => rfl
  | cons c cs =>
    simp only [List.head?_cons, ahead_peekAt_one h, ahead_peekAt_two h, startsName,
      continuesHyphen_eq, isEscape_eq]
    by_cases hc : c = '\\' <;> simp [hc]

/-! ### Numbers -/

theorem startsDigit_eq (cs : List Char) : startsDigit cs = cs.head?.any isDigit := by
  cases cs <;> rfl

theorem startsFraction_eq (cs : List Char) :
    startsFraction cs = (cs.head? = some '.' && cs.tail.head?.any isDigit) := by
  cases cs with
  | nil => rfl
  | cons c cs => simp [startsFraction, startsDigit_eq]

theorem ahead_startsNumberAt (h : Ahead i.chars p cs) : i.startsNumberAt p = startsNumber cs := by
  rw [startsNumberAt, ahead_peek h]
  cases cs with
  | nil => rfl
  | cons c cs =>
    simp only [List.head?_cons, ahead_peekAt_one h, ahead_peekAt_two h, startsNumber,
      startsDigit_eq, startsFraction_eq]
    by_cases hs : isSign c
    · rw [if_pos hs, if_pos hs]
    · rw [if_neg hs, if_neg hs]
      by_cases hc : c = '.'
      · subst hc
        simp [isDigit]
      · simp [hc]

theorem ahead_fraction (h : Ahead i.chars p cs) : i.fraction p = .ok (p + fractionLength cs) := by
  rw [fraction, ahead_peek h, fractionLength, startsFraction_eq]
  cases cs with
  | nil => rfl
  | cons c cs =>
    rw [ahead_peekAt_one h, List.tail_cons]
    by_cases hf : ((c :: cs).head? = some '.' && cs.head?.any isDigit) = true
    · rw [if_pos hf, if_pos hf]
      cases cs with
      | nil => simp at hf
      | cons d cs =>
        have hd : isDigit d := ((Bool.and_eq_true _ _).mp hf).2
        rw [ahead_advance h (by simp), ← Nat.add_assoc p 1, ← ahead_skip_tail h.tail hd]
    · rw [if_neg hf, if_neg hf]
      rfl

theorem signLength_eq (cs : List Char) :
    signLength cs = if cs.head?.any isSign then 1 else 0 := by
  cases cs <;> rfl

theorem ahead_exponent (h : Ahead i.chars p cs) : i.exponent p = .ok (p + exponentLength cs) := by
  rw [exponent, ahead_peek h]
  cases cs with
  | nil => rfl
  | cons c cs =>
    have hsign : (if (i.peekAt p 1).any isSign then 2 else 1) = 1 + signLength cs := by
      rw [ahead_peekAt_one h, signLength_eq]
      split <;> rfl
    have hpeek : i.peekAt p (1 + signLength cs) = (cs.drop (signLength cs)).head? := by
      rw [ahead_peekAt h, Nat.add_comm, List.getElem?_cons_succ, List.head?_drop]
    have hle := signLength_le cs
    simp only [List.head?_cons, Option.some.injEq, hsign, hpeek, exponentLength, startsDigit_eq,
      Bool.and_eq_true]
    by_cases he : (c = 'e' || c = 'E') = true
    · rw [if_pos he]
      by_cases hd : (cs.drop (signLength cs)).head?.any isDigit = true
      · rw [if_pos hd, if_pos ⟨he, hd⟩]
        have hdrop := h.tail.drop hle
        cases hds : cs.drop (signLength cs) with
        | nil => simp [hds] at hd
        | cons d ds =>
          rw [hds] at hdrop hd
          have hlength : signLength cs + 1 ≤ cs.length := by
            have hlength := congrArg List.length hds
            rw [List.length_drop, List.length_cons] at hlength
            omega
          rw [ahead_advance h (by simp only [List.length_cons]; omega)]
          have hskip := ahead_skip_tail hdrop (show isDigit d from hd)
          simp only [Nat.add_assoc] at hskip ⊢
          exact hskip
      · rw [if_neg hd, if_neg fun hboth => hd hboth.2]
        rfl
    · rw [if_neg he, if_neg fun hboth => he hboth.1]
      rfl

theorem ahead_number (h : Ahead i.chars p cs) : i.number p = .ok (p + numberLength cs) := by
  have hsign : (if (i.peek p).any isSign then p + 1 else p) = p + signLength cs := by
    rw [ahead_peek h, signLength_eq]
    split <;> rfl
  have hle : signLength cs + runLength isDigit (cs.drop (signLength cs)) ≤ cs.length := by
    have hdecimal := decimalLength_le cs
    simp only [decimalLength] at hdecimal
    omega
  have hwhole := h.drop (signLength_le cs)
  have hfraction := h.drop hle
  have hexponent := h.drop (decimalLength_le cs)
  have hdecimal : signLength cs + (runLength isDigit (cs.drop (signLength cs)) +
      fractionLength (cs.drop (signLength cs + runLength isDigit (cs.drop (signLength cs))))) =
        decimalLength cs :=
    (Nat.add_assoc ..).symm
  simp only [number, hsign, ahead_skip hwhole, ok_bind, Nat.add_assoc, ahead_fraction hfraction]
  rw [hdecimal, ahead_exponent hexponent, numberLength, Nat.add_assoc]

theorem ahead_numeric (h : Ahead i.chars p cs) :
    i.numeric p = .ok ((scanNumber cs).kind, p + (scanNumber cs).length) := by
  have hrest := h.drop (numberLength_le cs)
  simp only [numeric, ahead_number h, ok_bind, ahead_startsNameAt hrest, ahead_name hrest,
    ahead_peek hrest, scanNumber]
  split
  · simp only [Nat.add_assoc]
    rfl
  · split
    · simp only [Nat.add_assoc]
      rfl
    · rfl

/-! ### Comments, strings and urls -/

theorem ahead_commentFrom {n : Nat} (h : Ahead i.chars p cs) (hn : cs.length < n) :
    i.commentFrom n p = .ok ((scanComment cs).kind, p + (scanComment cs).length) := by
  induction n generalizing p cs with
  | zero => cases hn
  | succ n ih =>
    rw [commentFrom, ahead_peek h]
    cases cs with
    | nil => rfl
    | cons c cs =>
      simp only [List.head?_cons, ahead_peek h.tail, scanComment]
      split
      · rfl
      · rw [ih h.tail (Nat.lt_of_succ_lt_succ hn), Lexeme.extend, Nat.add_assoc]

theorem ahead_stringFrom (quote : Char) {n : Nat} (h : Ahead i.chars p cs) (hn : cs.length < n) :
    i.stringFrom quote n p =
      .ok ((scanString quote cs).kind, p + (scanString quote cs).length) := by
  induction n generalizing p cs with
  | zero => cases hn
  | succ n ih =>
    rw [stringFrom, ahead_peek h, scanString.eq_def]
    cases cs with
    | nil => rfl
    | cons c cs =>
      have hn : cs.length < n := Nat.lt_of_succ_lt_succ hn
      have hle := escapeLength_le cs
      have hlt : (cs.drop (escapeLength cs)).length < n := by
        rw [List.length_drop]
        omega
      have hescape := ih (h.tail.drop hle) hlt
      simp only [List.head?_cons]
      by_cases hquote : c = quote
      · rw [if_pos hquote, if_pos hquote]
        rfl
      rw [if_neg hquote, if_neg hquote]
      by_cases hnewline : isNewline c
      · rw [if_pos hnewline, if_pos hnewline]
        rfl
      rw [if_neg hnewline, if_neg hnewline]
      by_cases hc : c = '\\'
      · rw [if_pos hc, if_pos hc, Lexeme.extend, ← Nat.add_assoc, ← Nat.add_assoc, ← hescape,
          ahead_peek h.tail]
        cases cs with
        | nil => rfl
        | cons d cs =>
          simp only [List.head?_cons]
          split
          next hd =>
            subst hd
            rfl
          next => rw [ahead_escaped h.tail]
      · rw [if_neg hc, if_neg hc, ih h.tail hn, Lexeme.extend, Nat.add_assoc]

theorem ahead_badUrlFrom {n : Nat} (h : Ahead i.chars p cs) (hn : cs.length < n) :
    i.badUrlFrom n p = .ok (p + badUrlLength cs) := by
  induction n generalizing p cs with
  | zero => cases hn
  | succ n ih =>
    rw [badUrlFrom, ahead_peek h, badUrlLength.eq_def]
    cases cs with
    | nil => rfl
    | cons c cs =>
      have hn : cs.length < n := Nat.lt_of_succ_lt_succ hn
      have hle := escapeLength_le cs
      have hlt : (cs.drop (escapeLength cs)).length < n := by
        rw [List.length_drop]
        omega
      simp only [List.head?_cons, ahead_peek h.tail, isEscape_eq]
      split
      · rfl
      split
      · rw [ahead_escaped h.tail, ih (h.tail.drop hle) hlt]
        simp only [Nat.add_assoc]
      · rw [ih h.tail hn, Nat.add_assoc]

theorem ahead_badUrl (h : Ahead i.chars p cs) :
    i.badUrl p = .ok (.badUrl, p + badUrlLength cs) := by
  rw [badUrl, ahead_badUrlFrom h (ahead_length_lt h)]
  rfl

theorem ahead_urlFrom {n : Nat} (h : Ahead i.chars p cs) (hn : cs.length < n) :
    i.urlFrom n p = .ok ((scanUrl cs).kind, p + (scanUrl cs).length) := by
  induction n generalizing p cs with
  | zero => cases hn
  | succ n ih =>
    rw [urlFrom, ahead_peek h, scanUrl.eq_def]
    cases cs with
    | nil => rfl
    | cons c cs =>
      have hn : cs.length < n := Nat.lt_of_succ_lt_succ hn
      have hle := escapeLength_le cs
      have hlt : (cs.drop (escapeLength cs)).length < n := by
        rw [List.length_drop]
        omega
      have hspace := h.tail.drop (runLength_le isSpace cs)
      simp only [List.head?_cons, ahead_skip h.tail, ok_bind, ahead_peek hspace,
        ahead_peek h.tail, isEscape_eq, ahead_badUrl h.tail, ahead_escaped h.tail,
        ih (h.tail.drop hle) hlt, ih h.tail hn]
      by_cases hclose : c = ')'
      · rw [if_pos hclose, if_pos hclose]
        rfl
      rw [if_neg hclose, if_neg hclose]
      by_cases hs : isSpace c
      · rw [if_pos hs, if_pos hs]
        cases hd : cs.drop (runLength isSpace cs) with
        | nil =>
          simp only [List.head?_nil, Nat.add_assoc]
          rfl
        | cons d ds =>
          rw [hd] at hspace
          simp only [List.head?_cons, ahead_badUrl hspace]
          split
          · simp only [Nat.add_assoc]
            rfl
          · simp only [Nat.add_assoc]
      rw [if_neg hs, if_neg hs]
      split
      · simp only [Nat.add_assoc]
      split
      next hc =>
        subst hc
        simp only [decide_true, Bool.true_and]
        split
        · simp only [Lexeme.extend, Nat.add_assoc]
        · simp only [Nat.add_assoc]
      next => simp only [Lexeme.extend, Nat.add_assoc]

theorem ahead_named (h : Ahead i.chars p cs) :
    i.named p = .ok ((scanNamed cs).kind, p + (scanNamed cs).length) := by
  have hle := nameLength_le cs
  have hrest := h.drop hle
  have hrange : range i.chars p (p + nameLength cs) = .ok (cs.take (nameLength cs)) := by
    rw [← List.take_append_drop (nameLength cs) cs] at h
    have hrange := h.range
    rwa [List.length_take_of_le hle] at hrange
  simp only [named, ahead_name h, ok_bind, hrange, ahead_peek hrest, scanNamed]
  cases hd : cs.drop (nameLength cs) with
  | nil =>
    simp only [List.head?_nil, reduceCtorEq, decide_false, Bool.and_false]
    rfl
  | cons c rest =>
    rw [hd] at hrest
    simp only [List.head?_cons, Option.some.injEq]
    by_cases hc : c = '('
    · have hbody := hrest.tail.drop (runLength_le isSpace rest)
      simp only [hc, decide_true, Bool.and_true, if_true, ahead_skip hrest.tail, ok_bind,
        ahead_peek hbody, ahead_urlFrom hbody (ahead_length_lt hbody)]
      split
      · split
        · simp only [Nat.add_assoc]
          rfl
        · simp only [Lexeme.extend, Nat.add_assoc]
      · rfl
    · simp only [hc, decide_false, Bool.and_false, if_false]
      rfl

/-! ### One token -/

/-- What is found at the head of a text that starts with no comment, white space,
quote or number sign. -/
def scanWord (c : Char) (cs : List Char) : Lexeme :=
  if startsNumber (c :: cs) then scanNumber (c :: cs)
  else if c = '-' && ['-', '>'].isPrefixOf cs then ⟨.cdc, 3⟩
  else if c = '<' && ['!', '-', '-'].isPrefixOf cs then ⟨.cdo, 4⟩
  else if c = '@' then
    if startsName cs then ⟨.atKeyword, 1 + nameLength cs⟩ else ⟨.delim c, 1⟩
  else if startsName (c :: cs) then scanNamed (c :: cs)
  else ⟨(punctuation? c).getD (.delim c), 1⟩

theorem startsNumber_cons (hs : isSign c = false) (hdot : c ≠ '.') (cs : List Char) :
    startsNumber (c :: cs) = isDigit c := by
  simp [startsNumber, hs, startsDigit, startsFraction, hdot]

theorem startsName_cons (hminus : c ≠ '-') (hback : c ≠ '\\') (cs : List Char) :
    startsName (c :: cs) = isNameStart c := by
  simp [startsName, hminus, hback]

/-- Punctuation starts no longer token. -/
theorem scanWord_of_punctuation {k : Kind} (h : punctuation? c = some k) :
    scanWord c cs = ⟨k, 1⟩ := by
  have hplain : isSign c = false ∧ c ≠ '.' ∧ isDigit c = false ∧ c ≠ '-' ∧ c ≠ '<' ∧ c ≠ '@' ∧
      c ≠ '\\' ∧ isNameStart c = false := by
    unfold punctuation? at h
    repeat' split at h
    all_goals try cases h
    all_goals
      subst_vars
      decide
  obtain ⟨hsign, hdot, hdigit, hminus, hless, hat, hback, hname⟩ := hplain
  simp [scanWord, startsNumber_cons hsign hdot, startsName_cons hminus hback, hdigit, hminus,
    hless, hat, hname, h]

theorem isPrefixOf_eq_head? (c : Char) (word cs : List Char) :
    (c :: word).isPrefixOf cs = (cs.head? = some c && word.isPrefixOf cs.tail) := by
  cases cs with
  | nil => rfl
  | cons d cs => simp [List.isPrefixOf, Bool.beq_eq_decide_eq, eq_comm]

theorem ahead_word (h : Ahead i.chars p (c :: cs)) (hp : punctuation? c = none) :
    i.word c p = .ok ((scanWord c cs).kind, p + (scanWord c cs).length) := by
  simp only [word, reconsume, Nat.add_sub_cancel, ahead_startsNumberAt h, ahead_startsNameAt h,
    ahead_numeric h, ahead_named h, ahead_peekAt_one h, ahead_peekAt_two h, ahead_peek h.tail,
    isEscape_eq, ahead_startsNameAt h.tail, ahead_name h.tail, ok_bind, scanWord, hp,
    Option.getD_none]
  by_cases hplus : c = '+'
  · subst hplus
    have hname : startsName ('+' :: cs) = false := startsName_cons (by decide) (by decide) cs
    by_cases hnumber : startsNumber ('+' :: cs) <;> simp [hnumber, hname]
  by_cases hdot : c = '.'
  · subst hdot
    have hname : startsName ('.' :: cs) = false := startsName_cons (by decide) (by decide) cs
    by_cases hnumber : startsNumber ('.' :: cs) <;> simp [hnumber, hname]
  by_cases hminus : c = '-'
  · subst hminus
    have hcdc : (cs.head? = some '-' && cs.tail.head? = some '>') = ['-', '>'].isPrefixOf cs := by
      simp [isPrefixOf_eq_head?]
    rw [hcdc]
    by_cases hnumber : startsNumber ('-' :: cs)
    · simp [hnumber]
    by_cases hprefix : ['-', '>'].isPrefixOf cs
    · have hlength : 3 ≤ ('-' :: cs).length := Nat.succ_le_succ (length_le_of_isPrefixOf hprefix)
      simp [hnumber, hprefix, ahead_advance h hlength]
    · by_cases hname : startsName ('-' :: cs) <;>
        simp [hnumber, hprefix, hname]
  have hsign : isSign c = false := by simp [isSign, hplus, hminus]
  have hnumber : startsNumber (c :: cs) = isDigit c := startsNumber_cons hsign hdot cs
  by_cases hless : c = '<'
  · subst hless
    have hname : startsName ('<' :: cs) = false := startsName_cons (by decide) (by decide) cs
    have hcdo : (cs.head? = some '!' && i.peekAt (p + 1) 1 = some '-' &&
        i.peekAt (p + 1) 2 = some '-') = ['!', '-', '-'].isPrefixOf cs := by
      rw [ahead_peekAt h.tail, ahead_peekAt h.tail]
      simp [isPrefixOf_eq_head?, List.head?_eq_getElem?, Bool.and_assoc]
    rw [hcdo]
    by_cases hprefix : ['!', '-', '-'].isPrefixOf cs
    · have hlength : 3 ≤ cs.length := length_le_of_isPrefixOf hprefix
      simp [hnumber, hprefix, ahead_advance h.tail hlength, isDigit]
    · simp [hnumber, hprefix, hname, isDigit]
  by_cases hat : c = '@'
  · subst hat
    by_cases hname : startsName cs <;>
      simp [hnumber, hname, isDigit, Nat.add_assoc]
  by_cases hback : c = '\\'
  · subst hback
    by_cases hname : escapes cs <;>
      simp [hnumber, hname, isDigit, startsName]
  have hname : startsName (c :: cs) = isNameStart c := startsName_cons hminus hback cs
  by_cases hd : isDigit c
  · simp [hplus, hdot, hminus, hless, hat, hback, hnumber, hd]
  · by_cases hn : isNameStart c <;>
      simp [hplus, hdot, hminus, hless, hat, hback, hnumber, hd, hname, hn]

theorem ahead_scanAt (h : Ahead i.chars p (c :: cs)) :
    i.scanAt p = .ok ((scan c cs).kind, p + (scan c cs).length) := by
  rw [scanAt, ahead_peek h, ahead_peekAt_one h]
  simp only [List.head?_cons, Option.some.injEq, ahead_skip h.tail, ok_bind]
  have hscan : scan c cs =
      if c = '/' && cs.head? = some '*' then (scanComment cs.tail).extend 2
      else if isSpace c then ⟨.whitespace, 1 + runLength isSpace cs⟩
      else if isQuote c then (scanString c cs).extend 1
      else if c = '#' then
        if startsHash cs then ⟨.hash (startsName cs), 1 + nameLength cs⟩ else ⟨.delim c, 1⟩
      else scanWord c cs := rfl
  rw [hscan]
  split
  next hcomment =>
    cases cs with
    | nil => simp at hcomment
    | cons d cs =>
      rw [ahead_advance h (by simp), ahead_commentFrom h.tail.tail (ahead_length_lt h.tail.tail),
        Lexeme.extend, List.tail_cons]
      simp only [Nat.add_assoc, Nat.reduceAdd]
  split
  · simp only [Nat.add_assoc]
    rfl
  split
  · rw [ahead_stringFrom c h.tail (ahead_length_lt h.tail), Lexeme.extend, Nat.add_assoc]
  split
  · have hhash : ((i.peek (p + 1)).any isName || isEscape (i.peek (p + 1)) (i.peekAt (p + 1) 1)) =
        startsHash cs := by
      rw [ahead_peek h.tail]
      cases cs with
      | nil => rfl
      | cons d cs => simp [ahead_peekAt_one h.tail, startsHash, isEscape_eq]
    rw [hhash, ahead_startsNameAt h.tail, ahead_name h.tail]
    split
    · simp only [Nat.add_assoc]
      rfl
    · rfl
  cases hp : punctuation? c with
  | some k =>
    rw [scanWord_of_punctuation hp]
    rfl
  | none => exact ahead_word h hp

theorem ahead_scanAt_nil (h : Ahead i.chars p []) : i.scanAt p = .ok (.eof, p) := by
  rw [scanAt, ahead_peek h]
  rfl

end Ahead

/-! ### All tokens -/

/-- The table has the offset of every character and of the end. -/
theorem nth_offsetsFrom (offset : Nat) (front cs : List Char) :
    nth (offsetsFrom offset (front ++ cs)) front.length =
      .ok (offset + (String.ofList front).utf8ByteSize) := by
  induction front generalizing offset with
  | nil => cases cs <;> rfl
  | cons c front ih =>
    have hsize : (String.ofList (c :: front)).utf8ByteSize =
        c.utf8Size + (String.ofList front).utf8ByteSize := by
      rw [String.utf8ByteSize_ofList, String.utf8ByteSize_ofList, String.utf8Len_cons, Nat.add_comm]
    rw [hsize, ← Nat.add_assoc, ← ih]
    rfl

theorem runFrom_eq {source : String} {front cs : List Char} {n : Nat}
    (h : source.toList = front ++ cs) (hn : cs.length < n) :
    (of source).runFrom n front.length =
      .ok ((lexFrom (String.ofList front).utf8ByteSize cs ++
        [endOf source.utf8ByteSize]).map span) := by
  have hahead : Ahead (of source).chars front.length cs := ⟨front, h, rfl⟩
  have hoffset : ∀ us vs, source.toList = us ++ vs →
      nth (of source).offsets us.length = .ok (String.ofList us).utf8ByteSize := by
    intro us vs hus
    rw [of, hus, nth_offsetsFrom, Nat.zero_add]
  induction n generalizing front cs with
  | zero => cases hn
  | succ n ih =>
    cases cs with
    | nil =>
      have hsource : String.ofList front = source := by
        rw [← String.ofList_toList (s := source), h, List.append_nil]
      rw [runFrom, ahead_scanAt_nil hahead]
      simp only [ok_bind, hoffset front [] h, hsource, lexFrom]
      rfl
    | cons c cs =>
      have hpos := length_scan_pos c cs
      have hle := length_scan_le c cs
      have hcut : source.toList = (front ++ (c :: cs).take (scan c cs).length) ++
          (c :: cs).drop (scan c cs).length := by
        rw [List.append_assoc, List.take_append_drop, h]
      have hlength : (front ++ (c :: cs).take (scan c cs).length).length =
          front.length + (scan c cs).length := by
        rw [List.length_append, List.length_take_of_le hle]
      have hlt : ((c :: cs).drop (scan c cs).length).length < n := by
        simp only [List.length_drop, List.length_cons] at hn hle ⊢
        omega
      have hrest := ih hcut hlt ⟨_, hcut, rfl⟩
      have hstop := hoffset _ _ hcut
      rw [hlength, String.ofList_append, String.utf8ByteSize_append] at hrest hstop
      rw [runFrom, ahead_scanAt hahead]
      simp only [ok_bind, hoffset front _ h, hstop, if_neg (scan_ne_eof c cs), hrest]
      rw [lexFrom]
      rfl

end Input

/-- The tokens of a source by their places, read by position. -/
def spansOf (source : String) : Checked (List Span) :=
  (Input.of source).runFrom (Input.of source).rounds 0

/-- **Reading tokens by position has no fault and gives the tokens of the source.** -/
theorem spansOf_eq (source : String) : spansOf source = .ok ((tokenize source).map span) := by
  have hrun : (Input.of source).runFrom (source.toList.length + 1) ([] : List Char).length =
      .ok ((lexFrom (String.ofList []).utf8ByteSize source.toList ++
        [endOf source.utf8ByteSize]).map span) :=
    Input.runFrom_eq rfl (Nat.lt_succ_self _)
  exact hrun

end Token
end StyleScope
