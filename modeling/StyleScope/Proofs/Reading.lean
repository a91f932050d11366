/-
# What readers take from their tokens

The readers of sheets, selectors and values keep no text that the kind of a
token determines: a brace, a comma, the quotes of a string. Printing puts it
back. That nothing is lost or changed on the way rests on the lexer: it gives
such a kind only to the text that is put back. `Kind.Spells` says which texts
a kind can have, as far as the readers depend on it, and the tokens of every
source have such texts (`isSpelled_of_mem_lex`).

A reader takes tokens from the front of a list and leaves the others.
`Reads ts text rest` says that the tokens taken have the text `text`, so the
texts of readers that follow one another add up (`Reads.trans`).

Key definitions: `Token.Kind.Spells`, `Token.IsSpelled`, `Token.Finds`, `Token.Reads`.
Key theorems: `Token.spells_scan`, `Token.isSpelled_of_mem_lex`, `Token.Reads.trans`.
-/
import Mathlib.Data.List.DropRight
import StyleScope.Token.Lexer
import StyleScope.Trace

namespace StyleScope

/-- A sequence succeeds through a success of its first part. -/
theorem bind_eq_ok {ε α β : Type} {x : Except ε α} {f : α → Except ε β} {b : β} :
    x >>= f = .ok b ↔ ∃ a, x = .ok a ∧ f a = .ok b := by
  cases x with
  | error e => exact ⟨fun h => (nomatch h), fun ⟨_, h, _⟩ => (nomatch h)⟩
  | ok a => exact ⟨fun h => ⟨a, rfl, h⟩, fun ⟨_, h, hf⟩ => by cases h; exact hf⟩

theorem Traced.bind_eq_ok {ε α β : Type} {x : Traced ε α} {f : α → Traced ε β} {b : β} :
    (x >>= f).result = .ok b ↔ ∃ a, x.result = .ok a ∧ (f a).result = .ok b := by
  rw [result_bind, StyleScope.bind_eq_ok]

/-- A failed sequence fails in its first part or behind it. -/
theorem Traced.bind_eq_error {ε α β : Type} {x : Traced ε α} {f : α → Traced ε β} {e : ε}
    (h : (x >>= f).result = .error e) :
    x.result = .error e ∨ ∃ a, x.result = .ok a ∧ (f a).result = .error e := by
  rw [result_bind] at h
  cases hx : x.result with
  | error e' =>
    rw [hx] at h
    cases h
    exact .inl rfl
  | ok a =>
    rw [hx] at h
    exact .inr ⟨a, rfl, h⟩

/-- If what follows cannot fail, it is the first part that did. -/
theorem Traced.eq_error_of_bind {ε α β : Type} {x : Traced ε α} {f : α → Traced ε β} {e : ε}
    (h : (x >>= f).result = .error e) (hf : ∀ a, (f a).result.isOk) : x.result = .error e := by
  refine (bind_eq_error h).resolve_right ?_
  rintro ⟨a, -, ha⟩
  have hok := hf a
  rw [ha] at hok
  cases hok

/-- How a run goes on matters only where it succeeds. -/
theorem Traced.bind_congr_of_ok {ε α β : Type} {x : Traced ε α} {f g : α → Traced ε β}
    (h : ∀ a, x.result = .ok a → f a = g a) : x >>= f = x >>= g := by
  cases hx : x.result with
  | error e =>
    refine Traced.ext ?_ ?_
    · rw [events_bind, events_bind, hx]
    · rw [result_bind, result_bind, hx]
      rfl
  | ok a =>
    refine Traced.ext ?_ ?_
    · rw [events_bind, events_bind, hx]
      exact congrArg (x.events ++ ·.events) (h a hx)
    · rw [result_bind, result_bind, hx]
      exact congrArg result (h a hx)

/-- A result that is known to be there is one that has what all results have. -/
theorem exists_ok_of_isOk {ε α : Type} {x : Except ε α} {p : α → Prop} (h : x.isOk)
    (hp : ∀ a, x = .ok a → p a) : ∃ a, x = .ok a ∧ p a := by
  cases x with
  | error e => cases h
  | ok a => exact ⟨a, rfl, hp a rfl⟩

theorem bind_eq_error {ε α β : Type} {x : Except ε α} {f : α → Except ε β} {e : ε}
    (h : x >>= f = .error e) : x = .error e ∨ ∃ a, x = .ok a ∧ f a = .error e := by
  cases x with
  | error e' =>
    cases h
    exact .inl rfl
  | ok a => exact .inr ⟨a, rfl, h⟩

theorem eq_error_of_bind {ε α β : Type} {x : Except ε α} {f : α → Except ε β} {e : ε}
    (h : x >>= f = .error e) (hf : ∀ a, (f a).isOk) : x = .error e := by
  rcases bind_eq_error h with hx | ⟨a, -, ha⟩
  · exact hx
  · have hok := hf a
    rw [ha] at hok
    cases hok

theorem eq_error_of_map {ε α β : Type} {x : Except ε α} {f : α → β} {e : ε}
    (h : x.map f = .error e) : x = .error e := by
  cases x with
  | error e' => cases h; rfl
  | ok a => cases h

theorem exists_ok_of_any {ε α : Type} {x : Except ε α} {p : α → Bool} (h : x.toOption.any p) :
    ∃ a, x = .ok a ∧ p a := by
  cases x with
  | error e => cases h
  | ok a => exact ⟨a, rfl, h⟩

/-- In the printed text, `own` stands behind `front`. -/
def StandsBehind (front own printed : String) : Prop :=
  ∃ behind, printed = front ++ own ++ behind

theorem StandsBehind.append {front own printed : String} (h : StandsBehind front own printed)
    (more : String) : StandsBehind front own (printed ++ more) := by
  obtain ⟨behind, rfl⟩ := h
  exact ⟨behind ++ more, by rw [String.append_assoc]⟩

namespace Token

open Text

/-! ### Texts of a kind -/

/-- The character that a token of this kind always is. -/
def Kind.char? : Kind → Option Char
  | delim c => some c
  | colon => some ':'
  | semicolon => some ';'
  | comma => some ','
  | leftBracket => some '['
  | rightBracket => some ']'
  | leftParen => some '('
  | rightParen => some ')'
  | leftBrace => some '\x7b'
  | rightBrace => some '\x7d'
  | _ => none

/-- The end of a text that is closed by `c` unless the source ended in it. -/
def closing (terminated : Bool) (c : Char) : List Char :=
  if terminated then [c] else []

/-- Whether a token of the kind can have this text. -/
def Kind.Spells (k : Kind) (cs : List Char) : Prop :=
  match k with
  | .function => ∃ name blanks, cs = name ++ '(' :: blanks
  | .atKeyword => ∃ name, cs = '@' :: name
  | .hash _ => ∃ name, cs = '#' :: name
  | .string terminated => ∃ quote body, cs = quote :: (body ++ closing terminated quote)
  | .url terminated =>
    ∃ name body, '(' ∉ name ∧ cs = name ++ '(' :: (body ++ closing terminated ')')
  | k => ∀ c, k.char? = some c → cs = [c]

/-- The token has a text of its kind. -/
def IsSpelled (t : Token) : Prop :=
  t.kind.Spells t.text.toList

/-- A token that is always one character has that text. -/
theorem IsSpelled.text_eq {t : Token} {c : Char} (h : t.IsSpelled) (hk : t.kind.char? = some c) :
    t.text = String.singleton c := by
  have hcs : t.text.toList = [c] := by
    unfold IsSpelled at h
    cases ht : t.kind <;> rw [ht] at h hk <;> first | exact h c hk | cases hk
  rw [← String.toList_inj, hcs, String.toList_singleton]

/-- The name of an at-rule stands behind the at sign. -/
theorem IsSpelled.text_of_atKeyword {t : Token} (h : t.IsSpelled) (hk : t.kind = .atKeyword) :
    t.text = "@" ++ String.ofList t.text.toList.tail := by
  rw [IsSpelled, hk] at h
  obtain ⟨name, htext⟩ := h
  rw [← String.toList_inj, htext]
  simp

/-! ### Strings and urls -/

/-- What is read at the head of `cs` broke off as `bad`, or it is of the kind
`kind` and closed by `c` if it is terminated. -/
def Lexeme.Ends (kind : Bool → Kind) (bad : Kind) (c : Char) (l : Lexeme) (cs : List Char) :
    Prop :=
  l.kind = bad ∨
    ∃ terminated body, l.kind = kind terminated ∧ cs.take l.length = body ++ closing terminated c

@[simp] theorem Lexeme.kind_extend (n : Nat) (l : Lexeme) : (l.extend n).kind = l.kind := rfl

theorem Lexeme.take_extend (n : Nat) (l : Lexeme) (cs : List Char) :
    cs.take (l.extend n).length = cs.take n ++ (cs.drop n).take l.length := by
  rw [Lexeme.extend, List.take_add]

/-- Characters in front do not change how a lexeme ends. -/
theorem Lexeme.Ends.extend {kind : Bool → Kind} {bad : Kind} {c : Char} {l : Lexeme}
    {cs : List Char} (n : Nat) (h : l.Ends kind bad c (cs.drop n)) :
    (l.extend n).Ends kind bad c cs := by
  rcases h with h | ⟨terminated, body, hk, hb⟩
  · exact .inl h
  · refine .inr ⟨terminated, cs.take n ++ body, hk, ?_⟩
    rw [take_extend, hb, List.append_assoc]

theorem scanString_ends (quote : Char) (cs : List Char) :
    (scanString quote cs).Ends .string .badString quote cs := by
  fun_induction scanString quote cs with
  | case1 => exact .inr ⟨false, [], rfl, rfl⟩
  | case2 cs => exact .inr ⟨true, [], rfl, rfl⟩
  | case3 => exact .inl rfl
  | case4 cs _ _ ih =>
    refine Lexeme.Ends.extend _ ?_
    rwa [Nat.add_comm, List.drop_succ_cons]
  | case5 c cs _ _ _ ih => exact Lexeme.Ends.extend 1 ih

theorem scanUrl_ends (cs : List Char) : (scanUrl cs).Ends .url .badUrl ')' cs := by
  fun_induction scanUrl cs with
  | case1 => exact .inr ⟨false, [], rfl, rfl⟩
  | case2 => exact .inr ⟨true, [], rfl, rfl⟩
  | case3 c cs _ _ n _ => exact .inr ⟨false, (c :: cs).take n, rfl, by simp [closing]⟩
  | case4 c cs _ _ n ds hd =>
    -- white space up to the closing parenthesis
    refine .inr ⟨true, (c :: cs).take n, rfl, ?_⟩
    have hn : (c :: cs).drop n = ')' :: ds := by
      rw [show n = runLength isSpace cs + 1 from Nat.add_comm _ _, List.drop_succ_cons, hd]
    rw [List.take_add, hn]
    rfl
  | case5 => exact .inl rfl
  | case6 => exact .inl rfl
  | case7 cs _ _ _ _ ih =>
    refine Lexeme.Ends.extend _ ?_
    rwa [Nat.add_comm, List.drop_succ_cons]
  | case8 => exact .inl rfl
  | case9 c cs _ _ _ _ ih => exact Lexeme.Ends.extend 1 ih

/-! ### Every token is spelled -/

theorem isComment_scanComment (cs : List Char) : (scanComment cs).kind.isComment := by
  fun_induction scanComment cs with
  | case1 => rfl
  | case2 => rfl
  | case3 c cs _ ih => exact ih

theorem Kind.spells_of_isComment {k : Kind} {cs : List Char} (h : k.isComment) :
    k.Spells cs := by
  cases k with
  | comment => intro c hc; cases hc
  | _ => cases h

/-- The name `url` holds no parenthesis. -/
theorem not_mem_of_sameWord_url {cs : List Char} (h : sameWord (String.ofList cs) "url") :
    '(' ∉ cs := by
  intro hm
  rw [sameWord_iff, String.toList_ofList] at h
  have hl : Char.toLower '(' ∈ cs.map Char.toLower := List.mem_map_of_mem hm
  rw [h] at hl
  revert hl
  decide

/-- The kinds of numbers, with and without a unit. -/
def Kind.isNumeric : Kind → Bool
  | number | percentage | dimension => true
  | _ => false

theorem isNumeric_scanNumber (cs : List Char) : (scanNumber cs).kind.isNumeric := by
  simp only [scanNumber]
  repeat' split
  all_goals rfl

def Kind.isQuoted : Kind → Bool
  | .string _ | .badString => true
  | _ => false

/-- The kinds that start with a name. -/
def Kind.isNamed : Kind → Bool
  | ident | function | url _ | badUrl => true
  | _ => false

theorem isNamed_scanNamed (cs : List Char) : (scanNamed cs).kind.isNamed := by
  simp only [scanNamed]
  repeat' split
  all_goals try rfl
  next rest _ _ _ _ =>
    rcases scanUrl_ends (rest.drop (runLength isSpace rest)) with hbad | ⟨terminated, _, hk, -⟩
    · rw [Lexeme.extend, hbad]
      rfl
    · rw [Lexeme.extend, hk]
      rfl

theorem spells_scanNumber (cs cs' : List Char) : (scanNumber cs).kind.Spells cs' := by
  simp only [scanNumber]
  repeat' split
  all_goals intro c hc; cases hc

theorem spells_scanNamed (cs : List Char) :
    (scanNamed cs).kind.Spells (cs.take (scanNamed cs).length) := by
  simp only [scanNamed]
  generalize nameLength cs = n
  cases hd : cs.drop n with
  | nil => intro c hc; cases hc
  | cons c rest =>
    simp only
    rcases Decidable.em (c = '(') with rfl | hc
    case inr =>
      rw [if_neg hc]
      intro c hc; cases hc
    -- the name, the parenthesis and what follows it
    have htake : ∀ m, cs.take (n + 1 + m) = cs.take n ++ '(' :: rest.take m := by
      intro m
      rw [Nat.add_assoc, List.take_add, hd, Nat.add_comm 1, List.take_succ_cons]
    rw [if_pos rfl]
    by_cases hurl : sameWord (String.ofList (cs.take n)) "url"
    · rw [if_pos hurl]
      split
      · exact ⟨_, _, htake _⟩
      rcases scanUrl_ends (rest.drop (runLength isSpace rest)) with
        hbad | ⟨terminated, inside, hk, hb⟩
      · rw [Lexeme.extend, hbad]
        intro c hc; cases hc
      · rw [Lexeme.extend, hk]
        refine ⟨cs.take n, rest.take (runLength isSpace rest) ++ inside,
          not_mem_of_sameWord_url hurl, ?_⟩
        rw [Nat.add_assoc, htake, List.take_add, hb, List.append_assoc]
    · rw [if_neg hurl]
      exact ⟨_, _, htake 0⟩

theorem char?_punctuation (c : Char) : ((punctuation? c).getD (.delim c)).char? = some c := by
  unfold punctuation?
  repeat' split
  all_goals
    subst_vars
    rfl

theorem spells_punctuation (c : Char) : ((punctuation? c).getD (.delim c)).Spells [c] := by
  unfold punctuation?
  repeat' split
  all_goals intro d hd; cases hd; first | rfl | (subst_vars; rfl)

/-- What the lexer can find at the head of the text `c :: cs`. -/
inductive Finds (c : Char) (cs : List Char) : Lexeme → Prop where
  | comment (h : (c = '/' && cs.head? = some '*') = true) :
    Finds c cs ((scanComment cs.tail).extend 2)
  | space (h : isSpace c) : Finds c cs ⟨.whitespace, 1 + runLength isSpace cs⟩
  | string (h : isQuote c) : Finds c cs ((scanString c cs).extend 1)
  | hash (h : c = '#') : Finds c cs ⟨.hash (startsName cs), 1 + nameLength cs⟩
  | number (h : startsNumber (c :: cs)) : Finds c cs (scanNumber (c :: cs))
  | cdc (h : ['-', '>'].isPrefixOf cs) : Finds c cs ⟨.cdc, 3⟩
  | cdo (h : ['!', '-', '-'].isPrefixOf cs) : Finds c cs ⟨.cdo, 4⟩
  | atKeyword (h : c = '@') : Finds c cs ⟨.atKeyword, 1 + nameLength cs⟩
  | named (h : startsName (c :: cs)) : Finds c cs (scanNamed (c :: cs))
  /-- A number sign or an at sign in front of nothing. -/
  | sign : Finds c cs ⟨.delim c, 1⟩
  | single : Finds c cs ⟨(punctuation? c).getD (.delim c), 1⟩

theorem finds_scan (c : Char) (cs : List Char) : Finds c cs (scan c cs) := by
  unfold scan
  refine iteInduction .comment fun _ => iteInduction .space fun _ => iteInduction .string fun _ =>
    iteInduction (fun hc => iteInduction (fun _ => .hash hc) fun _ => .sign) fun _ =>
    iteInduction .number fun _ => iteInduction (fun h => .cdc ?_) fun _ =>
    iteInduction (fun h => .cdo ?_) fun _ =>
    iteInduction (fun hc => iteInduction (fun _ => .atKeyword hc) fun _ => .sign) fun _ =>
    iteInduction .named fun _ => .single
  · exact ((Bool.and_eq_true _ _).mp h).2
  · exact ((Bool.and_eq_true _ _).mp h).2

theorem Kind.isNamed_eq_false {k : Kind} (h : k.isComment ∨ k.isNumeric ∨ k.char?.isSome) :
    k.isNamed = false := by
  cases k <;> first | rfl | (rcases h with h | h | h <;> cases h)

/-- What is read as a name, or as a call by its name, starts with one. -/
theorem scan_of_isNamed {c : Char} {cs : List Char} (h : (scan c cs).kind.isNamed) :
    startsName (c :: cs) ∧ scan c cs = scanNamed (c :: cs) := by
  have hfinds := finds_scan c cs
  generalize scan c cs = l at hfinds h ⊢
  cases hfinds with
  | named hname => exact ⟨hname, rfl⟩
  | comment =>
    rw [Lexeme.kind_extend, Kind.isNamed_eq_false (.inl (isComment_scanComment _))] at h
    cases h
  | string =>
    rcases scanString_ends c cs with hbad | ⟨terminated, _, hk, -⟩
    · rw [Lexeme.kind_extend, hbad] at h
      cases h
    · rw [Lexeme.kind_extend, hk] at h
      cases h
  | number =>
    rw [Kind.isNamed_eq_false (.inr (.inl (isNumeric_scanNumber _)))] at h
    cases h
  | single =>
    rw [Kind.isNamed_eq_false (.inr (.inr (by rw [char?_punctuation]; rfl)))] at h
    cases h
  | _ => cases h

/-- **The lexer gives a kind only to a text of that kind.** -/
theorem spells_scan (c : Char) (cs : List Char) :
    (scan c cs).kind.Spells ((c :: cs).take (scan c cs).length) := by
  have hfinds := finds_scan c cs
  generalize scan c cs = l at hfinds ⊢
  cases hfinds with
  | comment => exact Kind.spells_of_isComment (isComment_scanComment _)
  | string =>
    rcases scanString_ends c cs with hbad | ⟨terminated, body, hk, hb⟩
    · rw [Lexeme.extend, hbad]
      intro d hd; cases hd
    · rw [Lexeme.take_extend, Lexeme.extend, hk]
      exact ⟨c, body, congrArg (c :: ·) hb⟩
  | hash hc | atKeyword hc =>
    rw [Nat.add_comm, List.take_succ_cons, hc]
    exact ⟨_, rfl⟩
  | number => exact spells_scanNumber _ _
  | named => exact spells_scanNamed _
  | single => exact spells_punctuation c
  | sign => intro d hd; cases hd; rfl
  | _ => intro d hd; cases hd

theorem isSpelled_of_mem_lexFrom {start : Nat} {cs : List Char} {t : Token}
    (h : t ∈ lexFrom start cs) : t.IsSpelled := by
  fun_induction lexFrom start cs with
  | case1 => cases h
  | case2 start c cs n text ih =>
    rcases List.mem_cons.mp h with rfl | h
    · rw [IsSpelled, String.toList_ofList]
      exact spells_scan c cs
    · exact ih h

/-- The tokens of a source have texts of their kinds. -/
theorem isSpelled_of_mem_lex {source : String} {t : Token} (h : t ∈ lex source) :
    t.IsSpelled :=
  isSpelled_of_mem_lexFrom h

/-! ### Taking tokens from the front -/

/-- Tokens with this text, taken from the front of `ts`, leave `rest`. -/
def Reads (ts : List Token) (text : String) (rest : List Token) : Prop :=
  ∃ taken, ts = taken ++ rest ∧ textOf taken = text

theorem Reads.nil (ts : List Token) : Reads ts "" ts :=
  ⟨[], rfl, rfl⟩

theorem Reads.head (t : Token) (ts : List Token) : Reads (t :: ts) t.text ts :=
  ⟨[t], rfl, by simp⟩

/-- A token that is always one character reads as that character. -/
theorem IsSpelled.reads {t : Token} {c : Char} (h : t.IsSpelled) (hk : t.kind.char? = some c)
    (ts : List Token) : Reads (t :: ts) (String.singleton c) ts := by
  rw [← h.text_eq hk]
  exact Reads.head t ts

/-- Tokens at the front and the others have the text of all. -/
theorem textOf_prefix {us ts : List Token} (h : us <+: ts) :
    textOf us ++ textOf (ts.drop us.length) = textOf ts := by
  rw [← textOf_append, List.prefix_iff_eq_append.mp h]

theorem Reads.of_prefix {us ts : List Token} (h : us <+: ts) :
    Reads ts (textOf us) (ts.drop us.length) :=
  ⟨us, (List.prefix_iff_eq_append.mp h).symm, rfl⟩

theorem Reads.take (n : Nat) (ts : List Token) : Reads ts (textOf (ts.take n)) (ts.drop n) :=
  ⟨ts.take n, (List.take_append_drop n ts).symm, rfl⟩

theorem Reads.takeWhile (p : Token → Bool) (ts : List Token) :
    Reads ts (textOf (ts.takeWhile p)) (ts.dropWhile p) :=
  ⟨ts.takeWhile p, List.takeWhile_append_dropWhile.symm, rfl⟩

/-- What one reader leaves, the next one reads. -/
theorem Reads.trans {ts us rest : List Token} {a b : String} (h : Reads ts a us)
    (h' : Reads us b rest) : Reads ts (a ++ b) rest := by
  obtain ⟨taken, rfl, rfl⟩ := h
  obtain ⟨taken', rfl, rfl⟩ := h'
  exact ⟨taken ++ taken', (List.append_assoc ..).symm, textOf_append ..⟩

/-- Behind a run of tokens comes what is left of them. -/
theorem Reads.of_dropWhile {ts us rest : List Token} {text : String} {p : Token → Bool}
    (h : Reads ts text us) (hrest : us.dropWhile p = rest) :
    Reads ts (text ++ textOf (us.takeWhile p)) rest :=
  hrest ▸ h.trans (Reads.takeWhile p us)

theorem Reads.isSpelled {ts rest : List Token} {text : String} (h : Reads ts text rest)
    (hs : ∀ t ∈ ts, t.IsSpelled) : ∀ t ∈ rest, t.IsSpelled := by
  obtain ⟨taken, rfl, -⟩ := h
  exact fun t ht => hs t (List.mem_append_right _ ht)

/-- A reader that leaves nothing has read all. -/
theorem Reads.eq_textOf {ts : List Token} {text : String} (h : Reads ts text []) :
    text = textOf ts := by
  obtain ⟨taken, rfl, rfl⟩ := h
  rw [List.append_nil]

/-- The tokens are used up, or a token of this kind comes next. -/
def StopsAt (k : Kind) (ts : List Token) : Prop :=
  ∀ t ∈ ts.head?, t.kind = k

theorem stopsAt_nil (k : Kind) : StopsAt k [] := by
  intro t ht
  cases ht

theorem stopsAt_cons {k : Kind} {t : Token} {ts : List Token} :
    StopsAt k (t :: ts) ↔ t.kind = k := by
  simp [StopsAt]

/-- The token where a reader stops reads as the one character it is. -/
theorem StopsAt.reads {k : Kind} {c : Char} {t : Token} {ts : List Token}
    (h : StopsAt k (t :: ts)) (ht : t.IsSpelled) (hk : k.char? = some c) :
    Reads (t :: ts) (String.singleton c) ts :=
  ht.reads (stopsAt_cons.mp h ▸ hk) ts

end Token
end StyleScope
