/-
# Brackets in the pieces of a tree

White space and comments open no bracket, and the parenthesis that a pseudo-class
opens is closed behind its arguments. So the tokens of a tree close what they open if
those nodes do whose text is kept as it stands (`Kind.isLevel`).

The tokens of pieces depend on what was left by the pieces in front and is left to the
pieces behind. `AreLevel` says of both that they are white space and closed comments.

Key definitions: `Selector.Kind.isLevel`, `Selector.AreLevel`.
Key theorems: `Selector.areLevel_pieces`, `Selector.isLevel_of_areLevel`.
-/
import StyleScope.Proofs.Detaching
import StyleScope.Proofs.OpenBrackets

namespace StyleScope
namespace Sheet

variable {ts us vs : List Token}

/-- Tokens that close what they open make no difference between others. -/
theorem IsLevel.insert (h : IsLevel (ts ++ us)) (hv : IsLevel vs) :
    IsLevel (ts ++ (vs ++ us)) := by
  intro b d
  have hall := h b d
  rw [depthBehind?_append] at hall ⊢
  obtain ⟨n, hn, hus⟩ := Option.bind_eq_some_iff.mp hall
  rw [hn, Option.bind_some, depthBehind?_append, hv b n]
  exact hus

theorem IsLevel.of_map_kind (h : IsLevel ts) (hk : us.map (·.kind) = ts.map (·.kind)) :
    IsLevel us :=
  fun b d => (SameDepth.of_map_kind hk b d).trans (h b d)

theorem isLevel_of_isTrivia (h : ∀ t ∈ ts, t.isTrivia) : IsLevel ts := by
  induction ts with
  | nil => exact .nil
  | cons t ts ih =>
    refine .cons (fun b d => ?_) (ih fun u hu => h u (List.mem_cons_of_mem t hu))
    have ht := h t List.mem_cons_self
    rw [Token.isTrivia] at ht
    cases hk : t.kind <;> rw [hk] at ht <;> first | rfl | cases ht

end Sheet

namespace Selector

open Sheet (IsLevel isLevel)
open Token (IsFiller lexFrom textOf)

/-- Whether the own tokens of a node close the brackets that they open, and no others,
apart from the parenthesis of a pseudo-class. -/
def Kind.isLevel : Kind → Bool
  | .tag text | .attribute text | .string text => Sheet.isLevel (Token.lex text)
  | _ => true

/-- The tokens of the pieces close the brackets that they open, and no others. In front
of them and behind there are white space and closed comments up to the next tokens. -/
def AreLevel (ps : List Piece) : Prop :=
  ∀ (o : Nat) (before : String) (qs : List Piece), AreFilled before.toList (ps ++ qs) →
    ∃ us n rest, tokensOf o before (ps ++ qs) = us ++ tokensOf n rest qs ∧ IsLevel us ∧
      AreFilled rest.toList qs

section Pieces

variable {ps qs : List Piece}

theorem isLevel_of_isFiller {cs : List Char} (h : IsFiller cs) (o : Nat) :
    IsLevel (lexFrom o cs) :=
  Sheet.isLevel_of_isTrivia (h.isTrivia_of_mem_lexFrom o)

namespace AreLevel

theorem nil : AreLevel [] :=
  fun o before _ hf => ⟨[], o, before, rfl, .nil, hf⟩

theorem append (h : AreLevel ps) (h' : AreLevel qs) : AreLevel (ps ++ qs) := by
  intro o before more hf
  rw [List.append_assoc] at hf ⊢
  obtain ⟨us, n, rest, htokens, hus, hrest⟩ := h o before (qs ++ more) hf
  obtain ⟨vs, m, rest', htokens', hvs, hrest'⟩ := h' n rest more hrest
  exact ⟨us ++ vs, m, rest', by rw [htokens, htokens', List.append_assoc], hus.append hvs, hrest'⟩

theorem filler (text : String) : AreLevel [.filler text] := by
  intro o before more hf
  refine ⟨[], o, before ++ text, rfl, .nil, ?_⟩
  rw [String.toList_append]
  exact hf

theorem own {tokens : Nat → List Token} (h : ∀ o, IsLevel (tokens o)) : AreLevel [.own tokens] := by
  intro o before more hf
  exact ⟨lexFrom o before.toList ++ tokens _, _, "", (List.append_assoc ..).symm,
    (isLevel_of_isFiller hf.1 o).append (h _), hf.2⟩

/-- Pieces between an opening one and a parenthesis. -/
theorem enclosed {tokens : Nat → List Token} (h : AreLevel ps)
    (ho : ∀ o n, IsLevel (tokens o ++ [⟨.rightParen, ")", n⟩])) :
    AreLevel (.own tokens :: (ps ++ [closePiece])) := by
  intro o before more hf
  rw [List.cons_append, List.append_assoc] at hf ⊢
  obtain ⟨hbefore, hbehind⟩ := hf
  obtain ⟨us, n, rest, htokens, hus, hrest, hmore⟩ :=
    h (o + before.utf8ByteSize + (textOf (tokens (o + before.utf8ByteSize))).utf8ByteSize) ""
      ([closePiece] ++ more) hbehind
  obtain ⟨m, hclose⟩ : ∃ m, tokensOf n rest ([closePiece] ++ more) = lexFrom n rest.toList ++
      ([⟨.rightParen, ")", n + rest.utf8ByteSize⟩] ++ tokensOf m "" more) := ⟨_, rfl⟩
  refine ⟨lexFrom o before.toList ++ (tokens (o + before.utf8ByteSize) ++
    (us ++ lexFrom n rest.toList ++ [⟨.rightParen, ")", n + rest.utf8ByteSize⟩])), m, "", ?_,
    (isLevel_of_isFiller hbefore o).append ((ho _ _).insert (hus.append ?_)), hmore⟩
  · rw [tokensOf, htokens, hclose]
    simp only [List.append_assoc]
  · exact isLevel_of_isFiller hrest n

end AreLevel

/-- The tokens of level pieces in front of others. -/
theorem isLevel_of_areLevel (h : AreLevel ps) {tokens : Nat → List Token}
    (hf : AreFilled [] (ps ++ [.own tokens])) :
    ∃ us n, tokensOf 0 "" (ps ++ [.own tokens]) = us ++ tokens n ∧ IsLevel us := by
  obtain ⟨us, n, rest, htokens, hus, hrest, -⟩ := h 0 "" [.own tokens] hf
  refine ⟨us ++ lexFrom n rest.toList, n + rest.utf8ByteSize, ?_,
    hus.append (isLevel_of_isFiller hrest n)⟩
  rw [htokens]
  simp [tokensOf, lexFrom]

end Pieces

/-! ### Trees -/

theorem isLevel_tokens {kind : Kind} (hk : kind.isLevel) (hleaf : kind.isLeaf) (ending : String)
    (o : Nat) : IsLevel (kind.tokens ending o) := by
  have hlex {text : String} (h : Sheet.isLevel (Token.lex text)) :
      IsLevel (lexFrom o text.toList) := by
    refine (Sheet.isLevel_of_check h).of_map_kind ?_
    rw [Token.lex, ← Nat.zero_add o, Token.lexFrom_add, List.map_map]
    rfl
  cases kind with
  | tag text => exact hlex hk
  | «attribute» text => exact hlex hk
  | string text => exact hlex hk
  | pseudo name hasArguments =>
    cases hasArguments with
    | true => cases hleaf
    | false =>
      rw [Kind.tokens]
      unfold pseudoTokens
      split <;> exact fun _ _ => rfl
  | _ => exact fun _ _ => rfl

/-- A pseudo-class opens one parenthesis. -/
theorem isLevel_opening (name : String) (o n : Nat) :
    IsLevel ((Kind.pseudo name true).tokens "" o ++ [⟨.rightParen, ")", n⟩]) := by
  rw [Kind.tokens]
  unfold pseudoTokens
  split <;> exact fun _ _ => rfl

theorem areLevel_leaf {kind : Kind} (hk : kind.isLevel) (hleaf : kind.isLeaf) (after : String) :
    AreLevel (kind.pieces after) := by
  have hown (ending rest : String) : AreLevel [.own (kind.tokens ending), .filler rest] :=
    (AreLevel.own (isLevel_tokens hk hleaf ending)).append (.filler rest)
  have htext (text : String) : AreLevel [.filler text, .filler after] :=
    (AreLevel.filler text).append (.filler after)
  cases kind with
  | className name => exact hown _ _
  | idName name => exact hown _ _
  | comment text => exact htext text
  | combinator c text => cases c <;> first | exact htext text | exact hown _ _
  | _ => exact hown _ _

mutual

/-- **The tokens of a tree close the brackets that they open.** -/
theorem areLevel_pieces : ∀ t : Tree, (∀ kind ∈ t.kinds, kind.isLevel) → AreLevel t.pieces
  | .node kind spaces start children, h => by
    rw [Tree.kinds] at h
    obtain ⟨hself, hbelow⟩ := List.forall_mem_cons.mp h
    have hfront : AreLevel [.filler spaces.before] := .filler _
    have hback : AreLevel [.filler spaces.after] := .filler _
    cases hleaf : kind.isLeaf with
    | true =>
      rw [pieces_of_isLeaf hleaf]
      exact hfront.append (areLevel_leaf hself hleaf spaces.after)
    | false =>
      cases kind with
      | root =>
        rw [Tree.pieces]
        exact hfront.append ((areLevel_piecesList children hbelow).append hback)
      | selector =>
        rw [Tree.pieces]
        exact hfront.append ((areLevel_piecesEach children hbelow).append hback)
      | pseudo name hasArguments =>
        cases hasArguments with
        | false => cases hleaf
        | true =>
          have hcall := (areLevel_piecesList children hbelow).enclosed (isLevel_opening name)
          have hall := hfront.append (hcall.append hback)
          rw [Tree.pieces]
          simpa using hall
      | _ => cases hleaf

theorem areLevel_piecesEach : ∀ ts : List Tree, (∀ kind ∈ kindsEach ts, kind.isLevel) →
    AreLevel (piecesEach ts)
  | [], _ => by
    rw [piecesEach]
    exact .nil
  | t :: ts, h => by
    rw [kindsEach_cons] at h
    obtain ⟨ht, hts⟩ := List.forall_mem_append.mp h
    rw [piecesEach]
    exact (areLevel_pieces t ht).append (areLevel_piecesEach ts hts)

theorem areLevel_piecesList : ∀ ts : List Tree, (∀ kind ∈ kindsEach ts, kind.isLevel) →
    AreLevel (piecesList ts)
  | [], _ => by
    rw [piecesList]
    exact .nil
  | t :: ts, h => by
    rw [kindsEach_cons] at h
    obtain ⟨ht, hts⟩ := List.forall_mem_append.mp h
    rw [piecesList]
    exact (areLevel_pieces t ht).append (areLevel_piecesMore ts hts)

theorem areLevel_piecesMore : ∀ ts : List Tree, (∀ kind ∈ kindsEach ts, kind.isLevel) →
    AreLevel (piecesMore ts)
  | [], _ => by
    rw [piecesMore]
    exact .nil
  | t :: ts, h => by
    rw [kindsEach_cons] at h
    obtain ⟨ht, hts⟩ := List.forall_mem_append.mp h
    rw [piecesMore]
    have hcomma : AreLevel [commaPiece] := .own fun o => .cons (fun _ _ => rfl) .nil
    exact hcomma.append ((areLevel_pieces t ht).append (areLevel_piecesMore ts hts))

end

end Selector
end StyleScope
