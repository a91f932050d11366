/-
# The pieces of a list that was read

The tokens that a list was read from are those of its nodes, run after run, with
white space and comments between (`Parsed.spells`). So each piece of the list
stands in front of what follows it in the source, and in front of what follows
the source, if the lexer goes on there with a token of its own
(`areInPlace_of_parse`).

A node does not always have tokens of its own. A colon, a dot or a number sign
alone is kept as a node, and so is a string that was broken off. Behind the
node of a mark a name can come to stand, and at the end of a text a string is not
broken off but open. The nodes of an ordinary list are none of these
(`Kind.isOrdinary`).

Key definitions: `Selector.Kind.isOrdinary`, `Selector.Spells`.
Key theorems: `Selector.tokens_of_simple`, `Selector.Parsed.spells`,
`Selector.areInPlace_of_parse`.
-/
import StyleScope.Proofs.PlacedPieces
import StyleScope.Proofs.ReadNames
import StyleScope.Proofs.Relations

namespace StyleScope
namespace Token

/-- Only a quote starts a string, closed, open or broken off. -/
theorem Finds.of_isQuoted {c : Char} {cs : List Char} {l : Lexeme} (h : Finds c cs l)
    (hk : l.kind.isQuoted) : isQuote c := by
  have hnot {k : Kind} (hk : k.isQuoted) :
      k.isComment = false ∧ k.isNumeric = false ∧ k.isNamed = false ∧ k.char? = none := by
    cases k <;> first | exact ⟨rfl, rfl, rfl, rfl⟩ | cases hk
  cases h with
  | string hc => exact hc
  | comment =>
    rw [Lexeme.kind_extend] at hk
    exact absurd (isComment_scanComment cs.tail) (by rw [(hnot hk).1]; decide)
  | number => exact absurd (isNumeric_scanNumber (c :: cs)) (by rw [(hnot hk).2.1]; decide)
  | named => exact absurd (isNamed_scanNamed (c :: cs)) (by rw [(hnot hk).2.2.1]; decide)
  | single => exact absurd ((char?_punctuation c).symm.trans (hnot hk).2.2.2) nofun
  | _ => cases hk

end Token

namespace Selector

open Token (isTrivia lexFrom nameLength relocate textOf)

/-! ### Ordinary nodes -/

/-- Whether the tokens of the node are a selector of their own: no mark without a
name, no colons alone, no string that was broken off. And no `url` with
arguments, whose name is a token with the quote behind it. -/
def Kind.isOrdinary : Kind → Bool
  | .className name | .idName name => name ≠ ""
  | .tag text => text ≠ ":" && text ≠ "::" && !text.toList.head?.any Token.isQuote
  | .pseudo name true => !(Text.sameWord name ":url" || Text.sameWord name "::url")
  | _ => true

/-! ### Tokens of simple selectors -/

section Simple

variable {start : Nat} {cs : List Char} {t u : Token} {ts us run : List Token}

theorem start_of_lexFrom (h : lexFrom start cs = t :: ts) : t.start = start := by
  obtain ⟨c, w, z, -, -, rfl, -⟩ := Token.exists_of_lexFrom_eq_cons h
  rfl

theorem start_of_lexFrom_cons (h : lexFrom start cs = t :: u :: us) :
    u.start = start + t.text.utf8ByteSize := by
  obtain ⟨c, w, z, -, -, -, hrest⟩ := Token.exists_of_lexFrom_eq_cons h
  exact start_of_lexFrom hrest.symm

/-- Tokens that were read are read from their text again, unless a string was
broken off at their end. -/
theorem lexFrom_textOf (h : lexFrom start cs = run ++ us)
    (hlast : ∀ t ∈ run.getLast?, t.kind ≠ .badString ∧ t.kind ≠ .function) :
    lexFrom start (textOf run).toList = run := by
  obtain ⟨cs', rfl, -⟩ := Token.lexFrom_eq_append h
  rw [Token.lexFrom_cut h fun ⟨t, ht, hk⟩ => absurd hk (hlast t ht).2,
    Token.cutOff_eq_self fun t ht => (hlast t ht).1]

/-- So is a token. -/
theorem lexFrom_text (h : lexFrom start cs = t :: ts) (hbad : t.kind ≠ .badString)
    (hf : t.kind ≠ .function) : lexFrom t.start t.text.toList = [t] := by
  have hrun := @lexFrom_textOf start cs ts [t] h fun u hu => Option.some.inj hu ▸ ⟨hbad, hf⟩
  rw [Token.textOf_cons, Token.textOf_nil, String.append_empty] at hrun
  rw [start_of_lexFrom h]
  exact hrun

/-- So are brackets with all in them. -/
theorem lexFrom_closed {opens closes : Token.Kind → Bool} {n : Nat}
    (h : lexFrom start cs = t :: ts) (hn : Token.closingLength opens closes 0 ts = some n)
    (hcloses : ∀ k, closes k → k ≠ .badString ∧ k ≠ .function) :
    lexFrom t.start (t.text ++ textOf (ts.take n)).toList = t :: ts.take n := by
  obtain ⟨inner, last, htake, -, hlast⟩ := Token.exists_take_of_closingLength hn
  have hcut : lexFrom start cs = (t :: ts.take n) ++ ts.drop n := by
    rw [h, List.cons_append, List.take_append_drop]
  rw [start_of_lexFrom h, ← Token.textOf_cons]
  refine lexFrom_textOf hcut fun u hu => ?_
  rw [htake, ← List.cons_append, List.getLast?_concat] at hu
  exact Option.some.inj hu ▸ hcloses _ hlast

/-- A string that was broken off starts with its quote. -/
theorem isQuote_of_badString (h : lexFrom start cs = t :: ts) (hk : t.kind = .badString) :
    t.text.toList.head?.any Token.isQuote := by
  obtain ⟨c, w, z, -, -, rfl, -⟩ := Token.exists_of_lexFrom_eq_cons h
  rw [String.toList_ofList]
  have hscan : (Token.scan c (w ++ z)).kind = .badString := hk
  exact (Token.finds_scan c (w ++ z)).of_isQuoted (by rw [hscan]; rfl)

/-- What stands behind the number sign of a hash starts a name or does not. -/
theorem hash_eq {isIdent : Bool} (h : lexFrom start cs = t :: ts) (hk : t.kind = .hash isIdent) :
    isIdent = Token.startsName t.text.toList.tail := by
  obtain ⟨c, w, z, -, hlength, rfl, -⟩ := Token.exists_of_lexFrom_eq_cons h
  obtain ⟨hname, hident⟩ := (Token.finds_scan c (w ++ z)).of_hash hk
  rw [hlength, List.length_cons] at hname
  rw [String.toList_ofList, List.tail_cons, hident, Bool.eq_iff_iff]
  exact ⟨Token.startsName_cut (by omega), Token.startsName_mono z⟩

theorem head?_of_isNamed (h : lexFrom start cs = t :: ts) (hk : t.kind.isNamed) :
    t.text.toList.head? ≠ some ':' := by
  obtain ⟨c, w, z, -, -, rfl, -⟩ := Token.exists_of_lexFrom_eq_cons h
  obtain ⟨hstarts, -⟩ := Token.scan_of_isNamed hk
  rw [String.toList_ofList, List.head?_cons]
  rintro hc
  obtain rfl := Option.some.inj hc
  cases hstarts

theorem pseudoTokens_single {name : List Char} (h : name.head? ≠ some ':') (hasArguments : Bool)
    (o : Nat) : pseudoTokens hasArguments o (':' :: name) =
      [⟨.colon, ":", o⟩, pseudoTokens.word hasArguments (o + 1) name] := by
  unfold pseudoTokens
  split
  next heq =>
    obtain rfl := (List.cons.inj heq).2
    exact absurd rfl h
  next heq =>
    obtain rfl := (List.cons.inj heq).2
    rfl
  next hne => exact absurd rfl (hne name)

/-- A colon that was read, and what was read behind it. -/
theorem exists_of_colon (h : lexFrom start cs = t :: ts) (hk : t.kind = .colon) :
    t = ⟨.colon, ":", start⟩ ∧ ∃ z, lexFrom (start + 1) z = ts := by
  have htext : t.text = ":" :=
    (Token.isSpelled_of_mem_lexFrom (h ▸ List.mem_cons_self)).text_eq (by rw [hk]; rfl)
  obtain ⟨c, w, z, -, -, -, hts⟩ := Token.exists_of_lexFrom_eq_cons h
  refine ⟨?_, z, ?_⟩
  · rw [← start_of_lexFrom h, ← htext, ← hk]
  · rw [hts, htext]
    rfl

/-- Colons and the name behind them are the tokens of a pseudo-class. -/
theorem tokens_of_colon {kind : Kind} {n : Nat} (h : lexFrom start cs = t :: ts)
    (hk : t.kind = .colon) (hs : simple t ts = .ok (kind, n)) (ho : kind.isOrdinary) :
    kind.tokens "" t.start = t :: ts.take n := by
  have hword {o : Nat} {z : List Char} {v : Token} {vs : List Token} (hlex : lexFrom o z = v :: vs)
      (hv : v.kind = .ident) : pseudoTokens.word false o v.text.toList = v := by
    rw [pseudoTokens.word, String.ofList_toList, ← start_of_lexFrom hlex, ← hv]
    rfl
  obtain ⟨rfl, z, hlex⟩ := exists_of_colon h hk
  rw [simple.eq_def] at hs
  dsimp only at hs
  cases ts with
  | nil =>
    cases hs
    simp [Kind.isOrdinary] at ho
  | cons u us =>
    by_cases hu : u.kind = .colon
    · -- two colons, and a name if the node is ordinary
      obtain ⟨rfl, z', hlex'⟩ := exists_of_colon hlex hu
      simp only [List.takeWhile_cons, decide_true, if_true, List.take_succ_cons, List.take_zero,
        List.length_singleton, List.drop_succ_cons, List.drop_zero] at hs
      cases us with
      | nil =>
        cases hs
        simp [Kind.isOrdinary] at ho
      | cons v vs =>
        dsimp only at hs
        split at hs
        next hv =>
          cases hs
          have htokens : pseudoTokens false start (':' :: ':' :: v.text.toList) =
              [⟨.colon, ":", start⟩, ⟨.colon, ":", start + 1⟩, v] := by
            rw [pseudoTokens, hword hlex' hv]
          simpa [Kind.tokens] using htokens
        next =>
          cases hs
          simp [Kind.isOrdinary] at ho
    · simp only [List.takeWhile_cons, hu, decide_false, Bool.false_eq_true, if_false, List.take_nil,
        List.length_nil, List.drop_zero, Token.textOf_nil, String.append_empty] at hs
      split at hs
      next hident =>
        cases hs
        have htokens : pseudoTokens false start (':' :: u.text.toList) =
            [⟨.colon, ":", start⟩, u] := by
          rw [pseudoTokens_single (head?_of_isNamed hlex (by rw [hident]; rfl)),
            hword hlex hident]
        simpa [Kind.tokens] using htokens
      next =>
        cases hs
        simp [Kind.isOrdinary] at ho

/-- **The tokens of a simple selector are those of its kind.** -/
theorem tokens_of_simple {kind : Kind} {n : Nat} (h : lexFrom start cs = t :: ts)
    (hs : simple t ts = .ok (kind, n)) (ho : kind.isOrdinary) :
    kind.tokens "" t.start = t :: ts.take n := by
  have hspelled : ∀ u ∈ t :: ts, u.IsSpelled := fun u hu => Token.isSpelled_of_mem_lexFrom (h ▸ hu)
  have htext {c : Char} (hc : t.kind.char? = some c) : t.text = String.singleton c :=
    (hspelled t List.mem_cons_self).text_eq hc
  have hself := hs
  rw [simple.eq_def] at hs
  cases hk : t.kind with
  | delim c =>
    rw [hk] at hs
    dsimp only at hs
    have hmark : (⟨.delim c, String.singleton c, t.start⟩ : Token) = t := by
      rw [← htext (by rw [hk]; rfl), ← hk]
    split at hs
    next hdot =>
      subst hdot
      split at hs
      · cases hs
        cases ho
      next u us =>
        split at hs
        next hu =>
          cases hs
          have hstart := start_of_lexFrom_cons h
          rw [htext (by rw [hk]; rfl), ← start_of_lexFrom h] at hstart
          have hname : (⟨.ident, u.text, t.start + 1⟩ : Token) = u := by
            rw [← hu, ← show u.start = t.start + 1 from hstart]
          rw [Kind.tokens, String.append_empty, hname]
          exact congrArg (· :: [u]) hmark
        · cases hs
          cases ho
    repeat' split at hs
    · cases hs
      cases ho
    · cases hs
      next hc =>
        subst hc
        exact congrArg (· :: []) hmark
    · cases hs
      next hc =>
        subst hc
        exact congrArg (· :: []) hmark
    · cases hs
      exact lexFrom_text h (by simp [hk]) (by simp [hk])
  | hash isIdent =>
    rw [hk] at hs
    cases hs
    have htoken : "#" ++ String.ofList t.text.toList.tail = t.text :=
      text_idName_tail (hspelled t List.mem_cons_self) hk
    rw [Kind.tokens, String.toList_ofList, ← hash_eq h hk, String.append_empty, htoken, ← hk]
    rfl
  | colon => exact tokens_of_colon h hk hself ho
  | leftBracket | function | leftParen =>
    rw [hk] at hs
    dsimp only at hs
    split at hs
    next n hn =>
      cases hs
      exact lexFrom_closed h hn (by simp)
    next => cases hs
  | rightBracket =>
    rw [hk] at hs
    cases hs
  | badString =>
    rw [hk] at hs
    cases hs
    simp [Kind.isOrdinary, isQuote_of_badString h hk] at ho
  | _ =>
    rw [hk] at hs
    cases hs
    exact lexFrom_text h (by simp [hk]) (by simp [hk])

/-- A name that was read goes no further into the text behind it. -/
theorem nameLength_of_simple {kind : Kind} {n : Nat} (h : lexFrom start cs = t :: ts)
    (hs : simple t ts = .ok (kind, n)) (ho : kind.isOrdinary) {name : Name}
    (hn : kind.name? = some name) (hr : ts.drop n = run ++ us) :
    nameLength (name.text.toList ++ (textOf run).toList) = name.text.toList.length := by
  have hcut {x y z : List Char} (h : nameLength (x ++ (y ++ z)) = x.length) :
      nameLength (x ++ y) = x.length := by
    rw [← List.append_assoc] at h
    rw [Token.nameLength_cut (y := z) (by rw [h, List.length_append]; omega), h]
  rw [simple.eq_def] at hs
  cases hk : t.kind with
  | delim c =>
    rw [hk] at hs
    dsimp only at hs
    repeat' split at hs
    all_goals cases hs
    case h_2.isTrue.refl u us' hu =>
      cases hn
      obtain ⟨_, _, _, -, -, -, hlex⟩ := Token.exists_of_lexFrom_eq_cons h
      obtain ⟨c, w, z, -, hlength, rfl, hrest⟩ := Token.exists_of_lexFrom_eq_cons hlex.symm
      obtain ⟨z, rfl, -⟩ := Token.lexFrom_eq_append (hrest.symm.trans hr)
      have hname := ((Token.finds_scan c _).of_ident hu).2
      rw [hlength] at hname
      rw [String.toList_ofList]
      exact hcut hname.symm
    all_goals cases hn
    all_goals cases ho
  | hash isIdent =>
    rw [hk] at hs
    cases hs
    cases hn
    obtain ⟨c, w, z, -, hlength, rfl, hrest⟩ := Token.exists_of_lexFrom_eq_cons h
    obtain ⟨z, rfl, -⟩ := Token.lexFrom_eq_append (hrest.symm.trans hr)
    have hname := ((Token.finds_scan c _).of_hash hk).1
    rw [hlength, List.length_cons] at hname
    rw [String.toList_ofList, String.toList_ofList, List.tail_cons]
    exact hcut (z := z) (by omega)
  | _ =>
    rw [hk] at hs
    dsimp only at hs
    repeat' split at hs
    all_goals cases hs
    all_goals cases hn

end Simple

/-- The tokens of a kind move along with the place where they start. -/
theorem tokens_eq_map (kind : Kind) (ending : String) (o : Nat) :
    kind.tokens ending o = (kind.tokens ending 0).map (relocate (· + o)) := by
  have hlex (text : String) :
      lexFrom o text.toList = (lexFrom 0 text.toList).map (relocate (· + o)) := by
    rw [← Token.lexFrom_add, Nat.zero_add]
  have hword (hasArguments : Bool) (k : Nat) (name : List Char) :
      pseudoTokens.word hasArguments (o + k) name =
        relocate (· + o) (pseudoTokens.word hasArguments k name) := by
    unfold pseudoTokens.word
    split <;> simp [relocate, Nat.add_comm]
  cases kind with
  | tag text => exact hlex text
  | «attribute» text => exact hlex text
  | string text => exact hlex text
  | pseudo name hasArguments =>
    have hzero := hword hasArguments 0
    simp only [Kind.tokens]
    generalize name.toList = cs
    unfold pseudoTokens
    split
    · simp [hword, relocate, Nat.add_comm]
    · simp [hword, relocate, Nat.add_comm]
    · exact congrArg (fun t => [t]) (hzero _)
  | _ => simp [Kind.tokens, relocate, Nat.add_comm]

/-! ### Tokens of pieces -/

/-- The tokens in front of `rest` are those of the pieces, run after run. -/
inductive Spells : List Piece → List Token → List Token → Prop where
  | nil (rest : List Token) : Spells [] rest rest
  | filler {text : String} {run ts rest : List Token} {ps : List Piece} (ht : textOf run = text)
    (h : Spells ps ts rest) : Spells (.filler text :: ps) (run ++ ts) rest
  | own {tokens : Nat → List Token} {t : Token} {more ts rest : List Token} {ps : List Piece}
    (hm : ∀ o, tokens o = (tokens 0).map (relocate (· + o))) (ht : tokens t.start = t :: more)
    (htrivia : t.isTrivia = false) (h : Spells ps ts rest) :
    Spells (.own tokens :: ps) (t :: (more ++ ts)) rest

namespace Spells

variable {ps qs : List Piece} {ts us rest : List Token}

theorem append (h : Spells ps ts us) (h' : Spells qs us rest) : Spells (ps ++ qs) ts rest := by
  induction h with
  | nil => exact h'
  | filler ht _ ih => exact .filler ht (ih h')
  | own hm ht htrivia _ ih => exact .own hm ht htrivia (ih h')

theorem exists_eq_append (h : Spells ps ts rest) : ∃ us, ts = us ++ rest := by
  induction h with
  | nil => exact ⟨[], rfl⟩
  | @filler _ run _ _ _ _ _ ih =>
    obtain ⟨us, rfl⟩ := ih
    exact ⟨run ++ us, (List.append_assoc ..).symm⟩
  | @own _ t more _ _ _ _ _ _ _ ih =>
    obtain ⟨us, rfl⟩ := ih
    exact ⟨t :: (more ++ us), by simp⟩

/-- Where the lexer finds the tokens of the pieces, each piece stands in its
place. -/
theorem areInPlace (h : Spells ps ts rest) {start : Nat} {z : List Char} {vs : List Token}
    (hus : ts = us ++ rest) (hl : lexFrom start (charsOf ps ++ z) = us ++ vs) :
    AreInPlace ps z := by
  induction h generalizing us start with
  | nil => trivial
  | @filler text run ts rest ps ht h ih =>
    subst ht
    obtain ⟨us', rfl⟩ := h.exists_eq_append
    rw [← List.append_assoc, List.append_cancel_right_eq] at hus
    subst hus
    rw [List.append_assoc] at hl
    obtain ⟨cs, hcs, hrest⟩ := Token.lexFrom_eq_append hl
    rw [charsOf_cons, Piece.text, List.append_assoc] at hcs
    obtain rfl := List.append_cancel_left hcs
    exact ih rfl hrest.symm
  | @own tokens t more ts rest ps hm ht htrivia h ih =>
    obtain ⟨us', rfl⟩ := h.exists_eq_append
    rw [← List.append_assoc, ← List.cons_append, List.append_cancel_right_eq] at hus
    subst hus
    have htext : textOf (tokens 0) = textOf (t :: more) := by
      rw [← ht, hm t.start, Token.textOf_map_relocate]
    rw [charsOf_cons, Piece.text, htext, ← List.cons_append, List.append_assoc,
      List.append_assoc] at hl
    obtain ⟨cs, hcs, hrest⟩ := Token.lexFrom_eq_append hl
    obtain rfl := List.append_cancel_left hcs
    have hstart := start_of_lexFrom hl
    rw [hstart] at ht
    rw [← htext, ← ht] at hl
    exact ⟨.of_reads hm ht htrivia hl, ih rfl hrest.symm⟩

/-- White space and comments in front. -/
theorem lead (h : Spells (.filler "" :: ps) ts rest) (trivia : List Token) :
    Spells (.filler (textOf trivia) :: ps) (trivia ++ ts) rest := by
  cases h with
  | @filler _ run _ _ _ ht h =>
    rw [← List.append_assoc]
    exact .filler (by rw [Token.textOf_append, ht, String.append_empty]) h

end Spells

/-! ### Tokens of nodes -/

/-- The tokens in front of `us` are those of the node, and as many of these as are
put behind it as text are those of its text. -/
def Tree.Spells (t : Tree) (ts us : List Token) : Prop :=
  ∀ run rest, us = run ++ rest →
    Selector.Spells (t.setAfter (t.spaces.after ++ textOf run)).pieces ts rest

/-- What a node prints in front of its own text comes first. -/
theorem exists_pieces_eq (t : Tree) :
    ∃ ps, ∀ text, (t.setBefore text).pieces = .filler text :: ps := by
  obtain ⟨kind, spaces, start, children⟩ := t
  cases kind with
  | pseudo name hasArguments =>
    cases hasArguments <;> exact ⟨_, fun text => by
      simp only [Tree.setBefore, Tree.withSpaces, Tree.spaces, Tree.pieces]; rfl⟩
  | _ => exact ⟨_, fun text => by
      simp only [Tree.setBefore, Tree.withSpaces, Tree.spaces, Tree.pieces]; rfl⟩

namespace Tree.Spells

variable {t : Tree} {ts us : List Token}

theorem pieces (h : t.Spells ts us) : Selector.Spells t.pieces ts us := by
  have hall := h [] us rfl
  rw [Token.textOf_nil, String.append_empty] at hall
  obtain ⟨kind, spaces, start, children⟩ := t
  exact hall

/-- White space and comments in front of a node that has none. -/
theorem setBefore (h : t.Spells ts us) (hb : t.spaces.before = "") (trivia : List Token) :
    (t.setBefore (textOf trivia)).Spells (trivia ++ ts) us := by
  intro run rest hus
  have hall := h run rest hus
  obtain ⟨kind, ⟨before, after⟩, start, children⟩ := t
  obtain rfl : before = "" := hb
  obtain ⟨ps, hps⟩ := exists_pieces_eq (.node kind ⟨"", after ++ textOf run⟩ start children)
  change Selector.Spells (Tree.setBefore "" (.node kind ⟨"", after ++ textOf run⟩ start
    children)).pieces ts rest at hall
  change Selector.Spells (Tree.setBefore (textOf trivia) (.node kind ⟨"", after ++ textOf run⟩
    start children)).pieces (trivia ++ ts) rest
  rw [hps] at hall ⊢
  exact hall.lead trivia

/-- A node whose tokens do not depend on the text behind it. -/
theorem of_own {kind : Kind} {spaces : Spaces} {trivia after more : List Token} {u : Token}
    (hk : kind.isLeaf) (hp : ∀ text, kind.pieces text = [.own (kind.tokens ""), .filler text])
    (hb : textOf trivia = spaces.before) (ha : textOf after = spaces.after)
    (ht : kind.tokens "" u.start = u :: more) (htrivia : u.isTrivia = false) (start : Nat) :
    (Tree.leaf kind spaces start).Spells (trivia ++ u :: (more ++ (after ++ us))) us := by
  rintro run rest rfl
  change Selector.Spells (Tree.leaf kind ⟨spaces.before, spaces.after ++ textOf run⟩
    start).pieces _ rest
  rw [pieces_leaf hk, hp, ← List.append_assoc after]
  exact .filler hb (.own (tokens_eq_map kind "") ht htrivia
    (.filler (by rw [Token.textOf_append, ha]) (.nil rest)))

end Tree.Spells

/-! ### Names -/

theorem splitEnding_of_nameLength {name text : String}
    (h : nameLength (name.toList ++ text.toList) = name.toList.length) :
    splitEnding name text = ("", text) := by
  unfold splitEnding
  split
  next hnil => rw [String.toList_eq_nil_iff.mp hnil]
  next c cs heq =>
    rw [if_neg]
    rw [heq, ← List.singleton_append, ← List.append_assoc] at h
    have hcut := Token.nameLength_cut (x := name.toList ++ [c]) (y := cs) (by
      rw [h, List.length_append]
      omega)
    rw [h] at hcut
    simp [hcut]

/-- A reader who cuts the white space off a name finds it again in the text
behind the name. -/
theorem splitEnding_splitEscapeEnd {name text : String}
    (hw : nameLength name.toList = name.toList.length)
    (h : nameLength (name.toList ++ text.toList) = name.toList.length) :
    splitEnding (splitEscapeEnd name).1 ((splitEscapeEnd name).2 ++ text) =
      ((splitEscapeEnd name).2, text) := by
  rcases splitEscapeEnd_eq_or name with hself | ⟨body, c, hname, hc, -, hcut⟩
  · rw [hself, String.empty_append]
    exact splitEnding_of_nameLength h
  · rw [hname, List.length_append, List.length_singleton] at hw
    rw [hcut]
    simp [splitEnding, hc, hw]

/-- A name starts without the white space at its end, unless a backslash escapes
it. -/
theorem startsName_of_append_space {body : List Char} {c : Char} (hc : Text.isSpace c)
    (hs : Token.endSlashes body % 2 = 0) (h : Token.startsName (body ++ [c])) :
    Token.startsName body := by
  have hstart : Text.isNameStart c = false ∧ c ≠ '-' ∧ c ≠ '\\' := by
    simp only [Text.isSpace, Bool.or_eq_true, decide_eq_true_eq] at hc
    rcases hc with (((rfl | rfl) | rfl) | rfl) | rfl <;> decide
  have hescapes {ds : List Char} (hne : ds ≠ []) (he : Token.escapes (ds ++ [c])) :
      Token.escapes ds := by
    obtain ⟨d, ds, rfl⟩ := List.exists_cons_of_ne_nil hne
    exact he
  cases body with
  | nil => simp [Token.startsName, hstart] at h
  | cons d ds =>
    rw [List.cons_append, Token.startsName] at h
    rw [Token.startsName]
    by_cases hd : d = '-'
    · rw [if_pos hd] at h ⊢
      cases ds with
      | nil => simp [Token.continuesHyphen, hstart] at h
      | cons e es =>
        simp only [List.cons_append, Token.continuesHyphen, Bool.or_eq_true, Bool.and_eq_true,
          decide_eq_true_eq] at h ⊢
        refine h.imp_right fun hesc => ⟨hesc.1, hescapes ?_ hesc.2⟩
        rintro rfl
        simp [Token.endSlashes, hd, hesc.1] at hs
    · rw [if_neg hd] at h ⊢
      by_cases he : d = '\\'
      · rw [if_pos he] at h ⊢
        refine hescapes ?_ h
        rintro rfl
        simp [Token.endSlashes, he] at hs
      · rwa [if_neg he] at h ⊢

/-- The tokens of a name that is cut, with its end, are those of the whole name. -/
theorem tokens_splitEscapeEnd (name : String) (o : Nat) :
    (Kind.className (splitEscapeEnd name).1).tokens (splitEscapeEnd name).2 o =
        (Kind.className name).tokens "" o ∧
      (Kind.idName (splitEscapeEnd name).1).tokens (splitEscapeEnd name).2 o =
        (Kind.idName name).tokens "" o := by
  have hname := splitEscapeEnd_append name
  have hstarts : Token.startsName (splitEscapeEnd name).1.toList =
      Token.startsName name.toList := by
    rcases splitEscapeEnd_eq_or name with hself | ⟨body, c, hbody, hc, hs, hcut⟩
    · rw [hself]
    · rw [hcut, hbody, String.toList_ofList, Bool.eq_iff_iff]
      exact ⟨Token.startsName_mono [c], startsName_of_append_space hc hs⟩
  simp only [Kind.tokens, hstarts, String.append_assoc, hname, String.append_empty, and_self]

/-! ### Tokens of simple selectors and of the start of a pseudo-class -/

section Nodes

variable {start : Nat} {cs : List Char} {t : Token} {ts : List Token}

/-- The tokens of a class or an id, with the white space cut off its end and
without. -/
theorem spells_name {kind cut : Kind} {name ending : String}
    (hpieces : ∀ after, cut.pieces after =
      [.own (cut.tokens (splitEnding name after).1), .filler (splitEnding name after).2])
    (hleaf : cut.isLeaf) (htokens : ∀ o, cut.tokens ending o = kind.tokens "" o) {n : Nat}
    (hself : kind.tokens "" t.start = t :: ts.take n) (htrivia : t.isTrivia = false)
    (hsplit : ∀ run rest, ts.drop n = run ++ rest →
      splitEnding name (ending ++ textOf run) = (ending, textOf run)) :
    (Tree.leaf cut ⟨"", ending⟩ t.start).Spells (t :: ts) (ts.drop n) := by
  intro run rest hrun
  have hts : t :: ts = [] ++ t :: (ts.take n ++ (run ++ rest)) := by
    rw [← hrun, List.take_append_drop, List.nil_append]
  change Selector.Spells (Tree.leaf cut ⟨"", ending ++ textOf run⟩ t.start).pieces _ rest
  rw [pieces_leaf hleaf, hpieces, hsplit run rest hrun, hts]
  refine .filler rfl (.own (fun o => ?_) ((htokens _).trans hself) htrivia
    (.filler rfl (.nil rest)))
  rw [htokens, htokens, tokens_eq_map kind "" o]

/-- The node of a simple selector has its tokens. -/
theorem spells_simpleNode {kind : Kind} {n : Nat} (h : lexFrom start cs = t :: ts)
    (htrivia : t.isTrivia = false) (hs : simple t ts = .ok (kind, n)) (ho : kind.isOrdinary)
    (atEnd : Bool) : (simpleNode kind t.start atEnd).Spells (t :: ts) (ts.drop n) := by
  have htokens := tokens_of_simple h hs ho
  have hlexed : IsLexed False (t :: ts) := ⟨start, cs, h.symm, False.elim⟩
  have hwhole := isWhole_of_simple hlexed hs
  have hlength {run rest : List Token} (name : Name) (hn : kind.name? = some name)
      (hrun : ts.drop n = run ++ rest) := nameLength_of_simple h hs ho hn hrun
  have hother (hk : kind.isLeaf)
      (hp : ∀ text, kind.pieces text = [.own (kind.tokens ""), .filler text]) :
      (Tree.leaf kind .none t.start).Spells (t :: ts) (ts.drop n) := by
    have hall : (Tree.leaf kind .none t.start).Spells
        ([] ++ t :: (ts.take n ++ ([] ++ ts.drop n))) (ts.drop n) :=
      .of_own hk hp rfl rfl htokens htrivia t.start
    rwa [List.nil_append, List.nil_append, List.take_append_drop] at hall
  cases kind with
  | className name =>
    have hsplit := tokens_splitEscapeEnd name
    cases atEnd with
    | true =>
      exact spells_name (fun _ => rfl) rfl (fun o => (hsplit o).1) htokens htrivia
        fun run rest hrun =>
          splitEnding_splitEscapeEnd (hwhole _ rfl) (hlength ⟨false, name⟩ rfl hrun)
    | false =>
      refine spells_name (fun _ => rfl) rfl (fun o => rfl) htokens htrivia fun run rest hrun => ?_
      rw [String.empty_append]
      exact splitEnding_of_nameLength (hlength ⟨false, name⟩ rfl hrun)
  | idName name =>
    have hsplit := tokens_splitEscapeEnd name
    cases atEnd with
    | true =>
      exact spells_name (fun _ => rfl) rfl (fun o => (hsplit o).2) htokens htrivia
        fun run rest hrun =>
          splitEnding_splitEscapeEnd (hwhole _ rfl) (hlength ⟨true, name⟩ rfl hrun)
    | false =>
      refine spells_name (fun _ => rfl) rfl (fun o => rfl) htokens htrivia fun run rest hrun => ?_
      rw [String.empty_append]
      exact splitEnding_of_nameLength (hlength ⟨true, name⟩ rfl hrun)
  | pseudo name hasArguments =>
    cases hasArguments with
    | true => exact absurd (isLeaf_of_simple hs) (by simp [Kind.isLeaf])
    | false => exact hother rfl fun _ => rfl
  | universal => exact hother rfl fun _ => rfl
  | nesting => exact hother rfl fun _ => rfl
  | tag => exact hother rfl fun _ => rfl
  | «attribute» => exact hother rfl fun _ => rfl
  | string => exact hother rfl fun _ => rfl
  | root | selector | combinator | comment => cases selects_of_simple hs

theorem exists_of_openingAfter? {colons : String} {us : List Token} {o : Opening}
    (h : openingAfter? colons us = some o) :
    ∃ name v, o.name = colons ++ String.ofList name ∧ us = v :: o.body ∧ v.kind = .function ∧
      v.text.toList = name ++ ['('] := by
  cases us with
  | nil => cases h
  | cons v vs =>
    rw [openingAfter?] at h
    split at h
    next hv =>
      cases h
      simp only [Bool.and_eq_true, decide_eq_true_eq] at hv
      obtain ⟨name, hname⟩ := List.getLast?_eq_some_iff.mp hv.2
      exact ⟨name, v, by rw [hname, List.dropLast_concat], rfl, hv.1, hname⟩
    next => cases h

/-- The start of a pseudo-class with arguments has the tokens of its kind. -/
theorem tokens_of_opening? {o : Opening} (h : lexFrom start cs = t :: ts)
    (ho : opening? (t :: ts) = some o) :
    ∃ more, (Kind.pseudo o.name true).tokens "" t.start = t :: more ∧ ts = more ++ o.body ∧
      t.isTrivia = false := by
  have hword {o : Nat} {z name : List Char} {v : Token} {vs : List Token}
      (hlex : lexFrom o z = v :: vs) (hv : v.kind = .function)
      (hname : v.text.toList = name ++ ['(']) : pseudoTokens.word true o name = v := by
    have htext : String.ofList name ++ "(" = v.text := by
      rw [← String.toList_inj, String.toList_append, String.toList_ofList, hname]
      rfl
    rw [pseudoTokens.word, if_pos rfl, htext, ← start_of_lexFrom hlex, ← hv]
  rw [opening?.eq_def] at ho
  dsimp only at ho
  split at ho
  next hk =>
    obtain ⟨rfl, z, hlex⟩ := exists_of_colon h hk
    cases ts with
    | nil => cases ho
    | cons u us =>
      dsimp only at ho
      split at ho
      next hu =>
        obtain ⟨rfl, z', hlex'⟩ := exists_of_colon hlex hu
        obtain ⟨name, v, hname, rfl, hv, htext⟩ := exists_of_openingAfter? ho
        have htokens : pseudoTokens true start (':' :: ':' :: name) =
            [⟨.colon, ":", start⟩, ⟨.colon, ":", start + 1⟩, v] := by
          rw [pseudoTokens, hword hlex' hv htext]
        exact ⟨[⟨.colon, ":", start + 1⟩, v], by simpa [Kind.tokens, hname] using htokens, rfl,
          rfl⟩
      next =>
        obtain ⟨name, v, hname, heq, hv, htext⟩ := exists_of_openingAfter? ho
        obtain ⟨rfl, rfl⟩ := List.cons.inj heq
        have hhead : name.head? ≠ some ':' := by
          have hne := head?_of_isNamed hlex (by rw [hv]; rfl)
          rw [htext, List.head?_append] at hne
          cases hd : name.head? with
          | none => simp
          | some c => simpa [hd] using hne
        have htokens : pseudoTokens true start (':' :: name) = [⟨.colon, ":", start⟩, u] := by
          rw [pseudoTokens_single hhead, hword hlex hv htext]
        exact ⟨[u], by simpa [Kind.tokens, hname] using htokens, rfl, rfl⟩
  next => cases ho

end Nodes

/-- A combinator has its own tokens, with white space and comments around it. -/
theorem spells_combinator {c : Combinator} {t : Token} {trivia after us : List Token}
    (hk : combinator? t.kind = some c) :
    (Tree.leaf (.combinator c t.text) ⟨textOf trivia, textOf after⟩ t.start).Spells
      (trivia ++ t :: (after ++ us)) us := by
  have hmark : t.kind = .delim c.mark := by
    cases hkind : t.kind with
    | delim d =>
      rw [hkind] at hk
      simp only [combinator?] at hk
      repeat' split at hk
      all_goals cases hk
      all_goals
        subst_vars
        rfl
    | _ =>
      rw [hkind] at hk
      cases hk
  have hself : (Kind.combinator c t.text).tokens "" t.start = [t] := by
    rw [Kind.tokens, ← hmark]
  have htrivia : t.isTrivia = false := by
    rw [isTrivia, hmark]
    rfl
  have hpieces : ∀ text, (Kind.combinator c t.text).pieces text =
      [.own ((Kind.combinator c t.text).tokens ""), .filler text] := by
    cases c with
    | descendant => exact absurd rfl (ne_descendant_of_combinator? hk)
    | _ => exact fun _ => rfl
  exact .of_own rfl hpieces rfl rfl hself htrivia t.start

/-- White space and comments between two simple selectors. -/
theorem spells_spacingNode (trivia us : List Token) :
    (spacingNode trivia).Spells (trivia ++ us) us := by
  have hleaf (kind : Kind) (hk : kind.isLeaf)
      (hp : ∀ after, kind.pieces after = [.filler (textOf trivia), .filler after]) :
      (Tree.leaf kind .none (Token.startOf 0 trivia)).Spells (trivia ++ us) us := by
    rintro run rest rfl
    change Selector.Spells (Tree.leaf kind ⟨"", "" ++ textOf run⟩ _).pieces _ rest
    rw [pieces_leaf hk, hp, String.empty_append]
    exact @Spells.filler "" [] _ _ _ rfl (.filler rfl (.filler rfl (.nil rest)))
  unfold spacingNode
  split
  · exact hleaf _ rfl fun _ => rfl
  · exact hleaf _ rfl fun _ => rfl

/-! ### Kinds in a tree -/

mutual

/-- The kinds of the node and of all below it, in document order. -/
def Tree.kinds : Tree → List Kind
  | .node kind _ _ children => kind :: kindsEach children

def kindsEach : List Tree → List Kind
  | [] => []
  | t :: ts => t.kinds ++ kindsEach ts

end

@[simp] theorem kindsEach_nil : kindsEach [] = [] := by
  rw [kindsEach]

@[simp] theorem kindsEach_cons (t : Tree) (ts : List Tree) :
    kindsEach (t :: ts) = t.kinds ++ kindsEach ts := by
  rw [kindsEach]

@[simp] theorem kindsEach_append (ts us : List Tree) :
    kindsEach (ts ++ us) = kindsEach ts ++ kindsEach us := by
  induction ts with
  | nil => simp
  | cons t ts ih => simp [ih]

@[simp] theorem kinds_withSpaces (spaces : Spaces) (t : Tree) :
    (t.withSpaces spaces).kinds = t.kinds := by
  obtain ⟨kind, _, start, children⟩ := t
  rw [Tree.withSpaces, Tree.kinds, Tree.kinds]

mutual

theorem map_kind_outline (t : Tree) (depth : Nat) :
    (t.outline depth).map (·.2.kind) = t.kinds := by
  obtain ⟨kind, spaces, start, children⟩ := t
  rw [Tree.outline, Tree.kinds, List.map_cons, map_kind_outlineEach children (depth + 1)]
  rfl

theorem map_kind_outlineEach (ts : List Tree) (depth : Nat) :
    (outlineEach depth ts).map (·.2.kind) = kindsEach ts := by
  cases ts with
  | nil => simp [outlineEach]
  | cons t ts =>
    rw [outlineEach, List.map_append, map_kind_outline t depth, map_kind_outlineEach ts depth,
      kindsEach]

end

/-! ### Parts -/

section Parts

variable {m n : Nat} {t : Tree} {p : Parts m} {ts us : List Token}

theorem kindsEach_cons_nodes (t : Tree) (p : Parts m) (h : m ≤ n) :
    kindsEach (p.cons t h).nodes = t.kinds ++ kindsEach p.nodes := by
  unfold Parts.cons
  split
  next hnil => simp [hnil, Tree.setAfter]
  next => simp

theorem kindsEach_consSimple_nodes (isFirst : Bool) (trivia : List Token) (t : Tree) (p : Parts m)
    (h : m ≤ n) :
    t.kinds ++ kindsEach p.nodes ⊆ kindsEach (p.consSimple isFirst trivia t h).nodes := by
  unfold Parts.consSimple
  split
  · rw [kindsEach_cons_nodes, Tree.setBefore, kinds_withSpaces]
    exact List.Subset.refl _
  split
  · rw [kindsEach_cons_nodes]
    exact List.Subset.refl _
  · rw [kindsEach_cons_nodes, kindsEach_cons_nodes]
    exact List.subset_append_right _ _

/-- What holds of the kinds of the parts holds of those of the node in front and of the
rest. -/
theorem forall_kinds_consSimple {q : Kind → Prop} {isFirst : Bool} {trivia : List Token}
    {h : m ≤ n} (hq : ∀ kind ∈ kindsEach ((p.consSimple isFirst trivia t h).nodes ++
      (p.consSimple isFirst trivia t h).others), q kind) :
    (∀ kind ∈ t.kinds, q kind) ∧ ∀ kind ∈ kindsEach (p.nodes ++ p.others), q kind := by
  rw [kindsEach_append, (Parts.consSimple_eq ..).1] at hq
  obtain ⟨hnodes, hothers⟩ := List.forall_mem_append.mp hq
  obtain ⟨hnode, hnodes⟩ := List.forall_mem_append.mp fun kind hmem =>
    hnodes kind (kindsEach_consSimple_nodes _ _ _ _ _ hmem)
  rw [kindsEach_append]
  exact ⟨hnode, List.forall_mem_append.mpr ⟨hnodes, hothers⟩⟩

/-- The tokens are those of the parts, white space and comments at the end of the
alternative first if nothing stands in front of them. -/
def Parts.Spells {n : Nat} (p : Parts n) (ts : List Token) : Prop :=
  ∃ run us, ts = run ++ us ∧ textOf run = p.trailing ∧ (p.nodes ≠ [] → run = []) ∧
    Selector.Spells (piecesEach p.nodes ++ .filler "" :: piecesMore p.others) us p.rest

namespace Parts.Spells

theorem of_nil {trailing : String} {others : List Tree} {run rest : List Token}
    {ps : List Piece} (hrun : textOf run = trailing) (hps : piecesMore others = ps)
    (hle : rest.length ≤ n) (h : Selector.Spells ps us rest) :
    Parts.Spells (⟨[], trailing, others, rest, hle⟩ : Parts n) (run ++ us) := by
  refine ⟨run, us, rfl, hrun, fun hne => absurd rfl hne, ?_⟩
  rw [piecesEach, List.nil_append, hps]
  exact @Spells.filler "" [] _ _ _ rfl h

/-- The pieces of all alternatives. -/
theorem alternatives (h : p.Spells ts) (start : Nat) :
    Selector.Spells (piecesList (p.alternatives start)) ts p.rest := by
  obtain ⟨run, us, rfl, hrun, -, hspells⟩ := h
  rw [Parts.alternatives, Parts.alternative, piecesList, Tree.pieces, List.cons_append,
    List.append_assoc]
  exact .filler hrun hspells

/-- A node in front. -/
theorem cons (h : p.Spells us) (ht : t.Spells ts us) (hmn : m ≤ n) : (p.cons t hmn).Spells ts := by
  obtain ⟨run, vs, rfl, hrun, hempty, hspells⟩ := h
  unfold Parts.cons
  split
  next hnil =>
    -- what stands at the end of the alternative goes behind the node
    have hnode := ht run vs rfl
    rw [hrun] at hnode
    rw [hnil, piecesEach, List.nil_append] at hspells
    refine ⟨[], ts, rfl, rfl, fun _ => rfl, ?_⟩
    rw [piecesEach, piecesEach, List.append_nil]
    exact hnode.append hspells
  next hne =>
    obtain rfl := hempty hne
    refine ⟨[], ts, rfl, hrun, fun _ => rfl, ?_⟩
    rw [piecesEach, List.append_assoc]
    exact ht.pieces.append hspells

theorem consSimple (h : p.Spells us) (trivia : List Token) (ht : t.Spells ts us)
    (hb : t.spaces.before = "") (isFirst : Bool) (hmn : m ≤ n) :
    (p.consSimple isFirst trivia t hmn).Spells (trivia ++ ts) := by
  unfold Parts.consSimple
  split
  · exact h.cons (ht.setBefore hb trivia) hmn
  split
  next hnil =>
    rw [List.isEmpty_iff.mp hnil, List.nil_append]
    exact h.cons ht hmn
  next => exact (h.cons ht hmn).cons (spells_spacingNode trivia ts) (Nat.le_refl n)

end Parts.Spells

end Parts

@[simp] theorem piecesMore_nil : piecesMore [] = [] := by
  rw [piecesMore]

/-- The white space that is cut off does not make up for a name. -/
theorem isOrdinary_of_simpleNode {kind : Kind} {start : Nat} {atEnd : Bool}
    (h : ∀ k ∈ (simpleNode kind start atEnd).kinds, k.isOrdinary) : kind.isOrdinary := by
  have hcut {name : String} (hne : (splitEscapeEnd name).1 ≠ "") : name ≠ "" := by
    rintro rfl
    exact hne (by decide)
  have hself : (simpleNode kind start atEnd).kind.isOrdinary := by
    refine h _ ?_
    generalize simpleNode kind start atEnd = t
    obtain ⟨kind, spaces, start, children⟩ := t
    rw [Tree.kinds]
    exact List.mem_cons_self
  unfold simpleNode at hself
  repeat' split at hself
  · exact decide_eq_true (hcut (of_decide_eq_true hself))
  · exact hself
  · exact decide_eq_true (hcut (of_decide_eq_true hself))
  · exact hself
  · exact hself

/-- A piece that is one token. -/
theorem Spells.token {kind : Token.Kind} {text : String} {t : Token} {ts rest : List Token}
    {ps : List Piece} (hk : t.kind = kind) (htext : t.text = text) (htrivia : t.isTrivia = false)
    (h : Selector.Spells ps ts rest) :
    Selector.Spells (.own (fun o => [⟨kind, text, o⟩]) :: ps) (t :: ts) rest := by
  have hself : [(⟨kind, text, t.start⟩ : Token)] = [t] := by
    rw [← hk, ← htext]
  change Selector.Spells _ (t :: ([] ++ ts)) rest
  exact .own (fun o => by simp [relocate]) hself htrivia h

theorem isTrivia_of_dropWhile {t : Token} {ts rest : List Token}
    (h : ts.dropWhile isTrivia = t :: rest) : t.isTrivia = false := by
  have hhead := List.head?_dropWhile_not isTrivia ts
  rw [h] at hhead
  simpa using hhead

/-- A call has the tokens of its start, of its arguments and of its parenthesis. -/
theorem spells_call {start : Nat} {cs : List Char} {t u : Token} {rest us : List Token}
    {o : Opening} {arguments : List Tree} (h : lexFrom start cs = t :: rest)
    (ho : opening? (t :: rest) = some o)
    (harguments : Selector.Spells (piecesList arguments) o.body (u :: us))
    (hu : u.kind = .rightParen) (htext : u.text = ")") :
    (Tree.node (.pseudo o.name true) .none t.start arguments).Spells (t :: rest) us := by
  obtain ⟨more, htokens, hrest, htrivial⟩ := tokens_of_opening? h ho
  rintro run behind rfl
  rw [hrest, Tree.setAfter, Tree.withSpaces, Tree.spaces, Tree.pieces]
  refine @Spells.filler "" [] _ _ _ rfl (.own (tokens_eq_map _ "") htokens htrivial ?_)
  refine harguments.append (.token hu htext (by rw [isTrivia, hu]; rfl) ?_)
  exact .filler (String.empty_append ..).symm (.nil behind)

/-- **The tokens that a list was read from are those of its nodes**, if all of
them are ordinary. -/
theorem Parsed.spells {limit stop depth : Nat} {isFirst : Bool} {ts : List Token}
    {p : Parts ts.length} (h : Parsed limit stop depth isFirst ts p) (hl : IsLexed False ts)
    (ho : ∀ kind ∈ kindsEach (p.nodes ++ p.others), kind.isOrdinary) : p.Spells ts := by
  have hsplit (ts : List Token) {rest : List Token} (ht : ts.dropWhile isTrivia = rest) :
      ts.takeWhile isTrivia ++ rest = ts := by
    rw [← ht, List.takeWhile_append_dropWhile]
  induction h with
  | @finish _ _ ts ht hle =>
    have hspells := Parts.Spells.of_nil (@rfl _ (textOf (ts.takeWhile isTrivia))) piecesMore_nil
      hle (.nil [])
    rwa [hsplit ts ht] at hspells
  | @close _ _ ts rest t ht hk hle =>
    have hspells := Parts.Spells.of_nil (@rfl _ (textOf (ts.takeWhile isTrivia))) piecesMore_nil
      hle (.nil (t :: rest))
    rwa [hsplit ts ht] at hspells
  | @comma _ _ ts rest t p ht hk hp hle ih =>
    have htrivia := Token.Reads.takeWhile isTrivia ts
    rw [ht] at htrivia
    have hlexed := hl.reads htrivia
    have htext := (hlexed.isSpelled t List.mem_cons_self).text_eq (c := ',') (by rw [hk]; rfl)
    have hothers := (ih (hlexed.reads (.head t rest)) (by simpa [Parts.alternatives,
      Parts.alternative, Tree.kinds, Kind.isOrdinary] using ho)).alternatives
        (Token.startOf stop rest)
    rw [Parts.alternatives, piecesList] at hothers
    have hmore : piecesMore (p.alternatives (Token.startOf stop rest)) =
        commaPiece ::
          ((p.alternative (Token.startOf stop rest)).pieces ++ piecesMore p.others) := by
      rw [Parts.alternatives, piecesMore]
    have hspells := Parts.Spells.of_nil (@rfl _ (textOf (ts.takeWhile isTrivia))) hmore hle
      (.token hk htext (isTrivia_of_dropWhile ht) hothers)
    rwa [hsplit ts ht] at hspells
  | @combinator _ _ ts rest t c p ht hk hp hle ih =>
    have htrivia := Token.Reads.takeWhile isTrivia ts
    rw [ht] at htrivia
    have hrest := ((hl.reads htrivia).reads (.head t rest)).reads (.takeWhile isTrivia rest)
    rw [kindsEach_append, kindsEach_cons_nodes, List.append_assoc, Parts.others_cons,
      ← kindsEach_append] at ho
    have hnode := @spells_combinator c t (ts.takeWhile isTrivia) (rest.takeWhile isTrivia)
      (rest.dropWhile isTrivia) hk
    rw [List.takeWhile_append_dropWhile, hsplit ts ht] at hnode
    exact (ih hrest (List.forall_mem_append.mp ho).2).cons hnode hle
  | @call _ isFirst ts rest rest' t u o arguments p ht ho' _ ha hr _ hle iha ih =>
    have htrivia := Token.Reads.takeWhile isTrivia ts
    rw [ht] at htrivia
    have hlexed := hl.reads htrivia
    have hbody := hlexed.reads (reads_opening? ho')
    obtain ⟨hread, hstop, -⟩ := ha.covers hbody.isSpelled
    rw [hr] at hread hstop
    have hclose := hbody.reads hread
    have hkind := Token.stopsAt_cons.mp hstop
    have htext := (hclose.isSpelled u List.mem_cons_self).text_eq (c := ')') (by rw [hkind]; rfl)
    obtain ⟨start, cs, hlex, -⟩ := hlexed
    obtain ⟨hnode, hbehind⟩ := forall_kinds_consSimple ho
    rw [Tree.kinds, Parts.alternatives, kindsEach_cons, Parts.alternative, Tree.kinds,
      List.cons_append, ← kindsEach_append] at hnode
    have harguments := (iha hbody (List.forall_mem_cons.mp (List.forall_mem_cons.mp hnode).2).2
      ).alternatives (Token.startOf stop o.body)
    rw [hr] at harguments
    have hspells := (ih (hclose.reads (.head u rest')) hbehind).consSimple
      (ts.takeWhile isTrivia) (spells_call hlex.symm ho' harguments hkind htext) rfl isFirst hle
    rwa [hsplit ts ht] at hspells
  | @leaf _ isFirst ts rest t kind n p ht _ _ _ _ hs _ hle ih =>
    have htrivia := Token.Reads.takeWhile isTrivia ts
    rw [ht] at htrivia
    have hlexed := hl.reads htrivia
    have hrest := (hlexed.reads (.head t rest)).reads (.take n rest)
    obtain ⟨start, cs, hlex, -⟩ := hlexed
    obtain ⟨hnode, hbehind⟩ := forall_kinds_consSimple ho
    have hnode := spells_simpleNode hlex.symm (isTrivia_of_dropWhile ht) hs
      (isOrdinary_of_simpleNode hnode) (endsCompound (rest.drop n))
    have hspells := (ih hrest hbehind).consSimple (ts.takeWhile isTrivia) hnode
      (before_simpleNode ..) isFirst hle
    rwa [hsplit ts ht] at hspells

/-- **Each piece of a list that was read stands in its place**, in front of what
follows the source too if the lexer finds the same tokens there. -/
theorem areInPlace_of_parse {source : String} {t : Tree} (h : parse source = .ok t)
    (ho : ∀ kind ∈ t.kinds, kind.isOrdinary) {z : List Char} {vs : List Token}
    (hz : lexFrom 0 (source.toList ++ z) = Token.lex source ++ vs) : AreInPlace t.pieces z := by
  have hprint := print_parseWithin h
  obtain ⟨p, hp, hr, rfl⟩ := parsed_of_parseWithin h
  rw [Tree.kinds, Parts.alternatives, kindsEach_cons, Parts.alternative, Tree.kinds,
    List.cons_append, ← kindsEach_append] at ho
  have hspells := (hp.spells (.of_lex source)
    (List.forall_mem_cons.mp (List.forall_mem_cons.mp ho).2).2).alternatives
      (Token.startOf source.utf8ByteSize (Token.lex source))
  rw [hr] at hspells
  have hchars : charsOf (piecesList (p.alternatives
      (Token.startOf source.utf8ByteSize (Token.lex source)))) = source.toList := by
    rw [charsOf_piecesList, String.toList_inj]
    simpa [Tree.print, Spaces.none] using hprint
  have hall := hspells.areInPlace (List.append_nil _).symm (by rwa [hchars])
  rw [Tree.pieces]
  exact areInPlace_append.mpr ⟨by simpa [Spaces.none, charsOf, Piece.text] using hall, trivial⟩

end Selector
end StyleScope
