/-
# The texts in a list that was read

Texts move when a list is resolved: a node loses its neighbours, and what stood
behind a keyword stands behind a class. What moves is read in its new place as
it was in the old one. Around the nodes of a list that was read stand white
space and closed comments, the end of the source apart (`Parsed.isSound`), and
the text of a simple selector is one simple selector by itself
(`isSound_of_simple`). The latter is not plain for brackets, which reach up to
the token that closes them: how far that is depends on the kinds of the tokens
between and on nothing behind (`closingLength_take`).

Key definitions: `Selector.Tree.IsReadRow`, `Selector.AreReadRows`,
`Selector.Parts.IsSound`, `Selector.IsLexed`.
Key theorems: `Selector.isSound_of_simple`, `Selector.areReadRows_of_isLexed`,
`Selector.areReadRows_of_parse`.
-/
import StyleScope.Proofs.Offsets
import StyleScope.Proofs.Rereading
import StyleScope.Proofs.Splicing

namespace StyleScope
namespace Token

/-! ### Runs of tokens -/

theorem map_kind_lexFrom (o o' : Nat) (cs : List Char) :
    (lexFrom o cs).map (·.kind) = (lexFrom o' cs).map (·.kind) := by
  have hzero : ∀ k, (lexFrom k cs).map (·.kind) = (lexFrom 0 cs).map (·.kind) := by
    intro k
    rw [← Nat.zero_add k, lexFrom_add, List.map_map]
    exact List.map_congr_left fun t _ => kind_relocate _ t
  rw [hzero o, hzero o']

/-- How many brackets are open behind a token of this kind, if any. -/
def openBehind (opens closes : Kind → Bool) (depth : Nat) (kind : Kind) : Option Nat :=
  if opens kind then some (depth + 1)
  else if closes kind then
    match depth with
    | 0 => none
    | depth + 1 => some depth
  else some depth

section Brackets

variable {opens closes : Kind → Bool} {depth n : Nat} {ts : List Token}

theorem closingLength_cons (depth : Nat) (t : Token) (ts : List Token) :
    closingLength opens closes depth (t :: ts) =
      match openBehind opens closes depth t.kind with
      | none => some 1
      | some depth => (closingLength opens closes depth ts).map (1 + ·) := by
  rw [closingLength.eq_def]
  unfold openBehind
  dsimp only
  split
  · rfl
  split
  · cases depth <;> rfl
  · rfl

/-- How far a bracket reaches depends on the kinds of the tokens up to the one
that closes it. -/
theorem closingLength_take (h : closingLength opens closes depth ts = some n) {us : List Token}
    (hus : us.map (·.kind) = (ts.take n).map (·.kind)) (rest : List Token) :
    closingLength opens closes depth (us ++ rest) = some n := by
  induction ts generalizing depth n us with
  | nil => cases h
  | cons t ts ih =>
    rw [closingLength_cons] at h
    cases hd : openBehind opens closes depth t.kind with
    | none =>
      rw [hd] at h
      cases h
      obtain ⟨u, us, rfl, hu, -⟩ := List.map_eq_cons_iff.mp hus
      rw [List.cons_append, closingLength_cons, hu, hd]
    | some depth' =>
      rw [hd] at h
      obtain ⟨k, hk, rfl⟩ := Option.map_eq_some_iff.mp h
      rw [Nat.add_comm, List.take_succ_cons, List.map_cons] at hus
      obtain ⟨u, us, rfl, hu, hus⟩ := List.map_eq_cons_iff.mp hus
      rw [List.cons_append, closingLength_cons, hu, hd]
      exact congrArg (Option.map (1 + ·)) (ih hk hus)

/-- The last of these tokens closes the bracket. -/
theorem exists_take_of_closingLength (h : closingLength opens closes depth ts = some n) :
    ∃ inner u, ts.take n = inner ++ [u] ∧ n = inner.length + 1 ∧ closes u.kind := by
  induction ts generalizing depth n with
  | nil => cases h
  | cons t ts ih =>
    rw [closingLength_cons] at h
    cases hd : openBehind opens closes depth t.kind with
    | none =>
      rw [hd] at h
      cases h
      refine ⟨[], t, rfl, rfl, ?_⟩
      unfold openBehind at hd
      split at hd
      · cases hd
      split at hd
      next hc => exact hc
      next => cases hd
    | some depth' =>
      rw [hd] at h
      obtain ⟨k, hk, rfl⟩ := Option.map_eq_some_iff.mp h
      obtain ⟨inner, u, htake, rfl, hu⟩ := ih hk
      rw [Nat.add_comm, List.take_succ_cons, htake]
      exact ⟨t :: inner, u, rfl, rfl, hu⟩

end Brackets

end Token

namespace Selector

open Token (HasSpace IsFiller isTrivia lexFrom textOf)

/-! ### Simple selectors -/

/-- Tokens that were read from a source and end in no function are read from
their text again, but for a string that was broken off. -/
theorem kinds_of_lexFrom {start : Nat} {cs : List Char} {run us : List Token}
    (h : lexFrom start cs = run ++ us) (hf : ∀ t ∈ run.getLast?, t.kind ≠ .function) (o : Nat) :
    (lexFrom o (textOf run).toList).map (·.kind) = (Token.cutOff run).map (·.kind) := by
  obtain ⟨cs', rfl, -⟩ := Token.lexFrom_eq_append h
  rw [Token.map_kind_lexFrom o start]
  rw [Token.lexFrom_cut h (fun ⟨t, ht, hk⟩ => absurd hk (hf t ht))]

theorem readsAlone_of_kinds {starts : Token.Kind → Bool} {text : String} {k : Token.Kind}
    {ks : List Token.Kind} (hs : starts k)
    (hk : ∀ o, (lexFrom o text.toList).map (·.kind) = k :: ks)
    (hu : ∀ t more, t.kind = k → more.map (·.kind) = ks → IsUnit t more) :
    ReadsAlone starts text := by
  intro o
  obtain ⟨t, more, hlex, ht, hmore⟩ := List.map_eq_cons_iff.mp (hk o)
  obtain ⟨c, w, z, -, -, hstart, -⟩ := Token.exists_of_lexFrom_eq_cons hlex
  exact ⟨t, more, hlex, by rw [hstart], by rw [ht, hs], hu t more ht hmore⟩

section Simple

variable {starts : Token.Kind → Bool} {start : Nat} {cs : List Char} {t : Token}
  {ts : List Token}

theorem readsAlone_of_single (h : lexFrom start cs = t :: ts) (hs : starts t.atEnd.kind)
    (hf : t.kind ≠ .function) (hu : ∀ u : Token, u.kind = t.atEnd.kind → IsUnit u []) :
    ReadsAlone starts t.text := by
  have hkinds := @kinds_of_lexFrom _ _ [t] _ h (fun u hu => Option.some.inj hu ▸ hf)
  rw [Token.textOf_cons, Token.textOf_nil, String.append_empty] at hkinds
  refine readsAlone_of_kinds hs hkinds fun u more huk hmore => ?_
  obtain rfl := List.map_eq_nil_iff.mp hmore
  exact hu u huk

theorem readsAlone_of_closed {opens closes : Token.Kind → Bool} {n : Nat}
    (h : lexFrom start cs = t :: ts) (hs : starts t.kind)
    (hn : Token.closingLength opens closes 0 ts = some n)
    (hcloses : ∀ k, closes k → k ≠ .function ∧ k ≠ .badString)
    (hu : ∀ u more, u.kind = t.kind → more.length = n →
      (∀ rest, Token.closingLength opens closes 0 (more ++ rest) = some n) → IsUnit u more) :
    ReadsAlone starts (t.text ++ textOf (ts.take n)) := by
  obtain ⟨inner, last, htake, hlength, hlast⟩ := Token.exists_take_of_closingLength hn
  have hrun : (t :: ts.take n).getLast? = some last := by
    rw [htake, ← List.cons_append, List.getLast?_concat]
  have hcut : lexFrom start cs = (t :: ts.take n) ++ ts.drop n := by
    rw [h, List.cons_append, List.take_append_drop]
  have hkinds := kinds_of_lexFrom hcut fun u hu => by
    rw [hrun] at hu
    exact Option.some.inj hu ▸ (hcloses _ hlast).1
  rw [Token.cutOff_eq_self fun u hu => by
    rw [hrun] at hu
    exact Option.some.inj hu ▸ (hcloses _ hlast).2] at hkinds
  rw [← Token.textOf_cons]
  refine readsAlone_of_kinds hs hkinds fun u more huk hmore => hu u more huk ?_ fun rest =>
    Token.closingLength_take hn hmore rest
  rw [← List.length_map (·.kind), hmore, List.length_map, htake, List.length_append, hlength]
  rfl

/-- What stands behind a colon makes a pseudo-class, or the colons stand alone. -/
theorem isSound_of_colon {kind : Kind} {n : Nat} (hspelled : ∀ u ∈ t :: ts, u.IsSpelled)
    (hk : t.kind = .colon) (hs : simple t ts = .ok (kind, n)) : kind.IsSound := by
  have hcolon : ∀ u ∈ t :: ts, u.kind = .colon → u.text = ":" := fun u hu hk =>
    (hspelled u hu).text_eq (c := ':') (by rw [hk]; rfl)
  have hcolons : t.text ++ textOf ((ts.takeWhile (·.kind = .colon)).take 1) = ":" ∨
      t.text ++ textOf ((ts.takeWhile (·.kind = .colon)).take 1) = "::" := by
    rw [hcolon t List.mem_cons_self hk]
    cases ts with
    | nil => exact .inl rfl
    | cons u us =>
      by_cases hu : u.kind = .colon
      · have htext := hcolon u (List.mem_cons_of_mem t List.mem_cons_self) hu
        exact .inr (by simp [hu, htext])
      · exact .inl (by simp [hu])
  rw [simple.eq_def, hk] at hs
  dsimp only at hs
  split at hs
  · cases hs
    exact .inr hcolons
  · split at hs
    · cases hs
      rcases hcolons with hcolons | hcolons
      all_goals
        change (_ ++ _ : String).toList.head? = some ':'
        rw [hcolons, String.toList_append]
        rfl
    · cases hs
      exact .inr hcolons

/-- The node of a simple selector has a text of its kind. -/
theorem isSound_of_simple {kind : Kind} {n : Nat} (h : lexFrom start cs = t :: ts)
    (ht : t.isTrivia = false) (hparen : t.kind ≠ .rightParen) (hcomma : t.kind ≠ .comma)
    (hc : combinator? t.kind = none) (hs : simple t ts = .ok (kind, n)) : kind.IsSound := by
  have hspelled : ∀ u ∈ t :: ts, u.IsSpelled := fun u hu => Token.isSpelled_of_mem_lexFrom (h ▸ hu)
  have hsingle (hstarts : startsTag t.kind) (hf : t.kind ≠ .function) (hbad : t.kind ≠ .badString)
      (hne : t.kind ≠ .colon)
      (hsimple : ∀ u : Token, u.kind = t.kind → ∀ rest, ∃ kind, simple u rest = .ok (kind, 0)) :
      ReadsAlone startsTag t.text := by
    refine readsAlone_of_single h ?_ hf fun u hu => ?_
    · rwa [Token.atEnd, if_neg hbad]
    rw [Token.atEnd, if_neg hbad] at hu
    exact ⟨by rw [isTrivia, hu]; exact ht, by rw [hu]; exact hparen, by rw [hu]; exact hcomma,
      by rw [hu]; exact hc, fun rest => opening?_of_ne (by rw [hu]; exact hne) _, hsimple u hu⟩
  rw [simple.eq_def] at hs
  cases hk : t.kind with
  | delim c =>
    rw [hk] at hs
    dsimp only at hs
    repeat' split at hs
    all_goals cases hs
    case isFalse.isFalse.isFalse.isFalse.refl hdot hhash hstar hand =>
      refine .inl (hsingle ?_ (by simp [hk]) (by simp [hk]) (by simp [hk]) fun u hu rest => ?_)
      · simp [hk, startsTag, hdot, hhash]
      rw [simple.eq_def, hu, hk]
      dsimp only
      rw [if_neg hdot, if_neg hhash, if_neg hstar, if_neg hand]
      exact ⟨_, rfl⟩
    all_goals trivial
  | hash isIdent =>
    rw [hk] at hs
    cases hs
    trivial
  | colon => exact isSound_of_colon hspelled hk (by rwa [simple.eq_def])
  | leftBracket | function | leftParen =>
    rw [hk] at hs
    dsimp only at hs
    split at hs
    next n hn =>
      cases hs
      have hread (starts : Token.Kind → Bool) (hstarts : starts t.kind) :=
        readsAlone_of_closed h hstarts hn (by simp) fun u more hu hmore hclosed =>
          ⟨by rw [isTrivia, hu]; exact ht, by rw [hu]; exact hparen, by rw [hu]; exact hcomma,
            by rw [hu]; exact hc, fun rest => opening?_of_ne (by simp [hu, hk]) _, fun rest => by
              rw [simple.eq_def, hu, hk]
              dsimp only
              rw [hclosed rest, hmore]
              exact ⟨_, rfl⟩⟩
      first
        | exact hread (· = .leftBracket) (by simp [hk])
        | exact .inl (hread startsTag (by rw [hk]; rfl))
    next => cases hs
  | rightBracket =>
    rw [hk] at hs
    cases hs
  | badString =>
    rw [hk] at hs
    cases hs
    refine .inl (readsAlone_of_single h ?_ (by rw [hk]; simp) fun u hu => ?_)
    · rw [Token.atEnd, if_pos hk]
      rfl
    rw [Token.atEnd, if_pos hk] at hu
    change u.kind = .string false at hu
    refine ⟨by rw [isTrivia, hu]; rfl, by simp [hu], by simp [hu], by rw [hu]; rfl,
      fun rest => opening?_of_ne (by simp [hu]) _, fun rest => ?_⟩
    rw [simple.eq_def, hu]
    exact ⟨_, rfl⟩
  | string terminated =>
    rw [hk] at hs
    cases hs
    refine hsingle (by rw [hk]; rfl) (by simp [hk]) (by simp [hk]) (by simp [hk])
      fun u hu rest => ?_
    rw [simple.eq_def, hu, hk]
    exact ⟨_, rfl⟩
  | _ =>
    rw [hk] at hs
    cases hs
    refine .inl (hsingle (by rw [hk]; rfl) (by simp [hk]) (by simp [hk]) (by simp [hk])
      fun u hu rest => ?_)
    rw [simple.eq_def, hu, hk]
    exact ⟨_, rfl⟩

end Simple

/-! ### Alternatives -/

/-- An alternative as it was read. -/
structure Tree.IsReadRow (a : Tree) : Prop extends a.IsRow where
  nodes : ∀ t ∈ a.children, t.IsSpaced
  tidy : IsTidy a.children

/-- An alternative as it was read inside of parentheses. -/
structure Tree.IsReadArgument (a : Tree) : Prop extends a.IsReadRow where
  closed : a.IsClosed

theorem Tree.IsReadArgument.isClosedRow {a : Tree} (h : a.IsReadArgument) : a.IsClosedRow :=
  ⟨h.toIsRow, h.closed⟩

/-- Alternatives as they were read. Only behind the last one the source can end
in a comment that is not closed. -/
structure AreReadRows (isClosed : Prop) (as : List Tree) : Prop where
  rows : ∀ a ∈ as, a.IsReadRow
  sound : ∀ a ∈ as, ∀ t ∈ a.children, t.IsSound Tree.IsReadArgument
  inner : ∀ a ∈ as.dropLast, a.IsClosed
  last : isClosed → ∀ a ∈ as, a.IsClosed

theorem AreReadRows.arguments {isClosed : Prop} {as : List Tree} (h : AreReadRows isClosed as)
    (hc : isClosed) : ∀ a ∈ as, a.IsReadArgument :=
  fun a ha => ⟨h.rows a ha, h.last hc a ha⟩

theorem Tree.after_setBefore (t : Tree) (text : String) :
    (t.setBefore text).spaces.after = t.spaces.after := by
  obtain ⟨kind, spaces, start, children⟩ := t
  rfl

theorem Tree.after_setAfter (t : Tree) (text : String) : (t.setAfter text).spaces.after = text := by
  obtain ⟨kind, spaces, start, children⟩ := t
  rfl

namespace Tree.IsSound

variable {row : Tree → Prop} {t : Tree}

theorem before (h : t.IsSound row) : IsFiller t.spaces.before.toList := by
  cases h with
  | leaf _ _ _ hb => exact hb
  | call _ _ hb => exact hb

theorem withSpaces (h : t.IsSound row) {spaces : Spaces} (hb : IsFiller spaces.before.toList) :
    (t.withSpaces spaces).IsSound row := by
  cases h with
  | leaf start hleaf hs _ => exact .leaf start hleaf hs hb
  | call start hn _ hne hrows h => exact .call start hn hb hne hrows h

theorem mono {row' : Tree → Prop} (h : t.IsSound row) (hrow : ∀ a, row a → row' a) :
    t.IsSound row' := by
  induction h with
  | leaf start hleaf hs hb => exact .leaf start hleaf hs hb
  | call start hn hb hne hrows _ ih =>
    exact .call start hn hb hne (fun a ha => hrow a (hrows a ha)) ih

theorem setBefore (h : t.IsSound row) {text : String} (hb : IsFiller text.toList) :
    (t.setBefore text).IsSound row :=
  h.withSpaces hb

theorem setAfter (h : t.IsSound row) (text : String) : (t.setAfter text).IsSound row :=
  h.withSpaces h.before

end Tree.IsSound

theorem Tree.IsSpaced.withSpaces {t : Tree} (h : t.IsSpaced) (spaces : Spaces) :
    (t.withSpaces spaces).IsSpaced := by
  obtain ⟨kind, _, _, _⟩ := t
  exact h

theorem Tree.isSpaced_of_not {t : Tree} (h : t.isSpacing = false) : t.IsSpaced := fun ht => by
  rw [h] at ht
  cases ht

/-! ### Parts -/

/-- The texts in the parts are as a reader leaves them. All comments in them are
closed if they are in the source. -/
structure Parts.IsSound {n : Nat} (isClosed : Prop) (p : Parts n) : Prop where
  nodes : ∀ t ∈ p.nodes, t.IsSound Tree.IsReadArgument
  spaced : ∀ t ∈ p.nodes, t.IsSpaced
  inner : ∀ t ∈ p.nodes.dropLast, IsFiller t.spaces.after.toList
  settled : p.nodes ≠ [] → p.trailing = ""
  closed : isClosed ∨ p.others ≠ [] ∨ p.rest ≠ [] →
    IsFiller p.trailing.toList ∧ ∀ t ∈ p.nodes, IsFiller t.spaces.after.toList
  others : AreReadRows (isClosed ∨ p.rest ≠ []) p.others

namespace Parts.IsSound

variable {isClosed : Prop} {m n : Nat} {p : Parts n} {t : Tree}

theorem of_nil (hnodes : p.nodes = [])
    (ht : isClosed ∨ p.others ≠ [] ∨ p.rest ≠ [] → IsFiller p.trailing.toList)
    (ho : AreReadRows (isClosed ∨ p.rest ≠ []) p.others) : p.IsSound isClosed where
  nodes := by simp [hnodes]
  spaced := by simp [hnodes]
  inner := by simp [hnodes]
  settled hne := absurd hnodes hne
  closed h := ⟨ht h, by simp [hnodes]⟩
  others := ho

theorem alternatives (h : p.IsSound isClosed) (hn : p.IsNeat true) (start : Nat) :
    AreReadRows (isClosed ∨ p.rest ≠ []) (p.alternatives start) := by
  have hclosed (hc : isClosed ∨ p.others ≠ [] ∨ p.rest ≠ []) : (p.alternative start).IsClosed :=
    ⟨(h.closed hc).1, (h.closed hc).2⟩
  have hrow : (p.alternative start).IsReadRow := by
    refine ⟨⟨rfl, fun hne => ?_, rfl, h.inner, fun t ht => h.spaced t (List.mem_of_mem_tail ht)⟩,
      h.spaced, hn.last, hn.before⟩
    change IsFiller p.trailing.toList
    rw [h.settled hne]
    exact .nil
  exact ⟨List.forall_mem_cons.mpr ⟨hrow, h.others.rows⟩,
    List.forall_mem_cons.mpr ⟨h.nodes, h.others.sound⟩,
    forall_mem_dropLast_cons.mpr ⟨fun hne => hclosed (.inr (.inl hne)), h.others.inner⟩,
    fun hc => List.forall_mem_cons.mpr ⟨hclosed (hc.imp_right .inr), h.others.last hc⟩⟩

theorem cons (h : p.IsSound isClosed) (ht : t.IsSound Tree.IsReadArgument) (hs : t.IsSpaced)
    (hafter : p.nodes ≠ [] ∨ isClosed ∨ p.others ≠ [] ∨ p.rest ≠ [] →
      IsFiller t.spaces.after.toList)
    (hnm : n ≤ m) : (p.cons t hnm).IsSound isClosed := by
  unfold Parts.cons
  split
  next hnil =>
    refine ⟨?_, ?_, by simp, fun _ => rfl, fun hc => ⟨.nil, ?_⟩, h.others⟩
    · intro u hu
      rw [List.mem_singleton.mp hu]
      exact ht.setAfter _
    · intro u hu
      rw [List.mem_singleton.mp hu]
      exact hs.withSpaces _
    · intro u hu
      rw [List.mem_singleton.mp hu, Tree.after_setAfter, String.toList_append]
      exact (hafter (.inr hc)).append (h.closed hc).1
  next hne =>
    refine ⟨?_, ?_, ?_, fun _ => h.settled hne, fun hc => ⟨(h.closed hc).1, ?_⟩, h.others⟩
    · exact List.forall_mem_cons.mpr ⟨ht, h.nodes⟩
    · exact List.forall_mem_cons.mpr ⟨hs, h.spaced⟩
    · exact forall_mem_dropLast_cons.mpr ⟨fun hne => hafter (.inl hne), h.inner⟩
    · exact List.forall_mem_cons.mpr ⟨hafter (.inr hc), (h.closed hc).2⟩

/-- A simple selector in front, behind white space and comments. -/
theorem consSimple (h : p.IsSound isClosed) (ht : t.IsSound Tree.IsReadArgument)
    (hs : t.isSpacing = false) (hafter : IsFiller t.spaces.after.toList) (isFirst : Bool)
    {trivia : List Token}
    (htrivia : IsFiller (textOf trivia).toList ∧
      (trivia.any Token.isWhitespace → HasSpace (textOf trivia).toList))
    (hnm : n ≤ m) : (p.consSimple isFirst trivia t hnm).IsSound isClosed := by
  have hspaced := Tree.isSpaced_of_not hs
  unfold Parts.consSimple
  split
  · refine h.cons (ht.setBefore htrivia.1) (hspaced.withSpaces _) (fun _ => ?_) hnm
    rw [Tree.after_setBefore]
    exact hafter
  split
  · exact h.cons ht hspaced (fun _ => hafter) hnm
  · have hnode := h.cons ht hspaced (fun _ => hafter) hnm
    have hleaf (kind : Kind) (hk : kind.isLeaf) (hkind : kind.IsSound) :
        (Tree.leaf kind .none (Token.startOf 0 trivia)).IsSound Tree.IsReadArgument :=
      .leaf _ hk hkind .nil
    unfold spacingNode
    split
    next hw =>
      exact hnode.cons (hleaf (.combinator .descendant _) rfl htrivia.1) (fun _ => htrivia.2 hw)
        (fun _ => .nil) (Nat.le_refl m)
    next =>
      exact hnode.cons (hleaf (.comment _) rfl htrivia.1) (Tree.isSpaced_of_not rfl)
        (fun _ => .nil) (Nat.le_refl m)

end Parts.IsSound

/-! ### Reading -/

/-- The tokens are those of a text, with no comment left open if `isClosed`. -/
def IsLexed (isClosed : Prop) (ts : List Token) : Prop :=
  ∃ start cs, ts = lexFrom start cs ∧ (isClosed → ∀ t ∈ ts, t.kind ≠ .comment false)

namespace IsLexed

variable {isClosed : Prop} {ts rest : List Token} {t : Token} {text : String}

theorem of_lex (source : String) : IsLexed False (Token.lex source) :=
  ⟨0, source.toList, rfl, False.elim⟩

theorem reads (h : IsLexed isClosed ts) (hr : Token.Reads ts text rest) :
    IsLexed isClosed rest := by
  obtain ⟨start, cs, hts, hclosed⟩ := h
  obtain ⟨run, rfl, -⟩ := hr
  obtain ⟨cs', -, hrest⟩ := Token.lexFrom_eq_append hts.symm
  exact ⟨_, cs', hrest, fun hc t ht => hclosed hc t (List.mem_append_right run ht)⟩

theorem isSpelled (h : IsLexed isClosed ts) : ∀ t ∈ ts, t.IsSpelled := by
  obtain ⟨start, cs, rfl, -⟩ := h
  exact fun t ht => Token.isSpelled_of_mem_lexFrom ht

/-- White space and comments, closed or with something behind them. -/
theorem isFiller (h : IsLexed isClosed ts) (hd : isClosed ∨ ts.dropWhile isTrivia ≠ []) :
    IsFiller (textOf (ts.takeWhile isTrivia)).toList ∧
      ((ts.takeWhile isTrivia).any Token.isWhitespace →
        HasSpace (textOf (ts.takeWhile isTrivia)).toList) := by
  obtain ⟨start, cs, rfl, hclosed⟩ := h
  refine Token.isFiller_of_lexFrom List.takeWhile_append_dropWhile.symm ?_
    fun t ht => List.mem_takeWhile_imp ht
  exact hd.symm.imp_right fun hc t ht =>
    hclosed hc t ((List.takeWhile_prefix isTrivia).subset ht)

end IsLexed

theorem isFiller_splitEscapeEnd (name : String) : IsFiller (splitEscapeEnd name).2.toList := by
  unfold splitEscapeEnd
  split
  next h =>
    unfold escapeEnd? at h
    split at h
    next => cases h
    next c cs hname =>
      split at h
      next hc =>
        rw [List.reverse_eq_cons_iff] at hname
        rw [String.toList_ofList, hname, List.drop_left' (by simp)]
        exact .space ((Bool.and_eq_true _ _).mp hc).1 .nil
      next => cases h
  next => exact .nil

/-- The name of a pseudo-class with arguments starts with a colon. -/
theorem head?_name_of_opening? {ts : List Token} {o : Opening} (h : opening? ts = some o)
    (hs : ∀ t ∈ ts, t.IsSpelled) : o.name.toList.head? = some ':' := by
  have hafter {colons : String} {us : List Token} (h : openingAfter? (":" ++ colons) us = some o) :
      o.name.toList.head? = some ':' := by
    cases us with
    | nil => cases h
    | cons u us =>
      rw [openingAfter?] at h
      split at h
      · cases h
        simp
      · cases h
  unfold opening? at h
  split at h
  · cases h
  next t ts =>
    split at h
    next hk =>
      have ht : t.text = ":" := (hs t List.mem_cons_self).text_eq (c := ':') (by rw [hk]; rfl)
      rw [ht] at h
      split at h
      · cases h
      next u us =>
        split at h
        · exact hafter h
        · exact @hafter "" _ h
    next => cases h

theorem isSound_simpleNode {kind : Kind} (hk : kind.isLeaf) (hs : kind.IsSound) (start : Nat)
    (atEnd : Bool) : (simpleNode kind start atEnd).IsSound Tree.IsReadArgument ∧
      IsFiller (simpleNode kind start atEnd).spaces.after.toList := by
  unfold simpleNode
  repeat' split
  · exact ⟨.leaf _ rfl trivial .nil, isFiller_splitEscapeEnd _⟩
  · exact ⟨.leaf _ rfl trivial .nil, .nil⟩
  · exact ⟨.leaf _ rfl trivial .nil, isFiller_splitEscapeEnd _⟩
  · exact ⟨.leaf _ rfl trivial .nil, .nil⟩
  · exact ⟨.leaf _ hk hs .nil, .nil⟩

theorem Parsed.eq_nil {limit stop depth : Nat} {isFirst : Bool} {ts : List Token}
    {p : Parts ts.length} (h : Parsed limit stop depth isFirst ts p) (hts : ts = []) :
    p.nodes = [] ∧ p.others = [] ∧ p.rest = [] := by
  subst hts
  cases h with
  | finish => exact ⟨rfl, rfl, rfl⟩
  | close ht | comma ht | combinator ht | call ht | leaf ht => cases ht

/-- The parts of a list that was read have the texts that a reader leaves. -/
theorem Parsed.isSound {limit stop depth : Nat} {isFirst : Bool} {ts : List Token}
    {p : Parts ts.length} {isClosed : Prop} (h : Parsed limit stop depth isFirst ts p)
    (hl : IsLexed isClosed ts) : p.IsSound isClosed := by
  induction h with
  | finish =>
    refine .of_nil rfl (fun hc => ?_) ⟨by simp, by simp, by simp, by simp⟩
    exact (hl.isFiller (hc.imp_right fun hc => hc.elim (absurd rfl) (absurd rfl))).1
  | close ht =>
    exact .of_nil rfl (fun _ => (hl.isFiller (by simp [ht])).1) ⟨by simp, by simp, by simp, by simp⟩
  | @comma _ _ ts rest t _ ht _ hp _ ih =>
    have htrivia := Token.Reads.takeWhile isTrivia ts
    rw [ht] at htrivia
    have hrest := (hl.reads htrivia).reads (.head t rest)
    exact .of_nil rfl (fun _ => (hl.isFiller (by simp [ht])).1)
      ((ih hrest).alternatives hp.isNeat _)
  | @combinator _ _ ts rest t c p ht hk hp hle ih =>
    have htrivia := Token.Reads.takeWhile isTrivia ts
    rw [ht] at htrivia
    have hrest := (hl.reads htrivia).reads (.head t rest)
    have hc := ne_descendant_of_combinator? hk
    refine (ih (hrest.reads (.takeWhile isTrivia rest))).cons ?_ ?_ (fun hne => ?_) hle
    · refine .leaf _ rfl ?_ (hl.isFiller (by simp [ht])).1
      cases c with
      | descendant => exact absurd rfl hc
      | _ => trivial
    · cases c with
      | descendant => exact absurd rfl hc
      | _ => exact Tree.isSpaced_of_not rfl
    · refine (hrest.isFiller ?_).1
      by_contra hno
      obtain ⟨hopen, hnil⟩ := not_or.mp hno
      obtain ⟨hnodes, hothers, hrest⟩ := hp.eq_nil (not_not.mp hnil)
      simp [hnodes, hothers, hrest, hopen] at hne
  | @call _ isFirst ts rest rest' t u o arguments p ht ho _ ha hr _ hle iha ih =>
    have htrivia := Token.Reads.takeWhile isTrivia ts
    rw [ht] at htrivia
    have hopen := reads_opening? ho
    have hbody := (hl.reads htrivia).reads hopen
    have hread := (ha.covers hbody.isSpelled).reads
    rw [hr] at hread
    have hrest := (hbody.reads hread).reads (.head u rest')
    have hrows := (iha hbody).alternatives ha.isNeat (Token.startOf stop o.body)
    have hname := head?_name_of_opening? ho (hl.reads htrivia).isSpelled
    refine (ih hrest).consSimple ?_ rfl ?_ isFirst (hl.isFiller (by simp [ht])) hle
    · exact .call _ hname .nil (List.cons_ne_nil _ _) (hrows.arguments (by simp [hr])) hrows.sound
    · exact .nil
  | @leaf _ isFirst ts rest t kind n p ht hparen hcomma hk _ hs _ hle ih =>
    have htrivia := Token.Reads.takeWhile isTrivia ts
    rw [ht] at htrivia
    obtain ⟨start, cs, hlex, -⟩ := hl.reads htrivia
    have htrivial : t.isTrivia = false := by
      have hhead := List.head?_dropWhile_not isTrivia ts
      rw [ht] at hhead
      simpa using hhead
    have hsound := isSound_of_simple hlex.symm htrivial hparen hcomma hk hs
    have hnode :=
      isSound_simpleNode (isLeaf_of_simple hs) hsound t.start (endsCompound (rest.drop n))
    have hrest := ((hl.reads htrivia).reads (.head t rest)).reads (.take n rest)
    exact (ih hrest).consSimple hnode.1
      (not_isSpacing_simpleNode (not_isSpacing_of_simple hs) _ _) hnode.2 isFirst
      (hl.isFiller (by simp [ht])) hle

/-- The alternatives of a list that was read have the texts that a reader
leaves. -/
theorem areReadRows_of_isLexed {isClosed : Prop} {source : String} {t : Tree}
    (h : parse source = .ok t) (hl : IsLexed isClosed (Token.lex source)) :
    AreReadRows isClosed t.children := by
  obtain ⟨p, hp, hr, rfl⟩ := parsed_of_parseWithin h
  have hrows := (hp.isSound hl).alternatives hp.isNeat
    (Token.startOf source.utf8ByteSize (Token.lex source))
  exact ⟨hrows.rows, hrows.sound, hrows.inner, fun hc => hrows.last (.inl hc)⟩

theorem areReadRows_of_parse {source : String} {t : Tree} (h : parse source = .ok t) :
    AreReadRows False t.children :=
  areReadRows_of_isLexed h (.of_lex source)

end Selector
end StyleScope
