/-
# Texts that come apart

When a keyword goes, what stood in front of it comes to stand in front of what
was behind it or in its arguments. A name could go on into the other text then,
or an escape take its white space. No node does so if its last token ends
whatever follows, or is a closed name and the text that comes behind it starts
with no name (`Kind.allows`).

A list is detachable if this is so wherever a node comes to stand in front of
another text than before: in front of a keyword, at the end of an alternative
that loses its last nodes, and at the end of an argument of a narrow keyword
(`detachesAlong`, `detachesWithin`). That is a matter of the nodes of the list
and does not depend on the scope in force. Then the pieces that are left
stay in place (`areInPlace_remains`).

Key definitions: `Selector.Kind.allows`, `Scope.clears`, `Scope.detachesAlong`,
`Scope.IsDetachable`.
Key theorems: `Scope.areInPlace_remainsAlong`, `Scope.areInPlace_remains`.
-/
import StyleScope.Proofs.Remains
import StyleScope.Proofs.StandingTokens

namespace StyleScope
namespace Token

/-- The token ends in front of the text as it did before. -/
def allows (t : Token) (text : String) : Bool :=
  t.isShut || t.endsName && isApart text.toList

end Token

namespace Selector

open Token (Hides isApart isStop textOf)

/-! ### What can come behind a node -/

/-- The text can come to stand behind the own text of a node of this kind. -/
def Kind.allows (kind : Kind) (text : String) : Bool :=
  match kind with
  | .pseudo _ true => true
  | .combinator .descendant own | .comment own => own.toList.any isStop
  | kind => (kind.tokens "" 0).getLast?.any (Token.allows · text)

theorem pieces_of_isLeaf {kind : Kind} (hk : kind.isLeaf) (spaces : Spaces) (start : Nat)
    (children : List Tree) :
    (Tree.node kind spaces start children).pieces =
      .filler spaces.before :: kind.pieces spaces.after := by
  cases kind with
  | root => cases hk
  | selector => cases hk
  | pseudo name hasArguments =>
    cases hasArguments with
    | true => cases hk
    | false => simp [Tree.pieces]
  | _ => simp [Tree.pieces]

theorem pieces_call (name : String) (spaces : Spaces) (start : Nat) (children : List Tree) :
    (Tree.node (.pseudo name true) spaces start children).pieces =
      (.filler spaces.before :: .own ((Kind.pseudo name true).tokens "") :: piecesList children) ++
        [closePiece] ++ [.filler spaces.after] := by
  rw [Tree.pieces]
  simp

/-- The pieces of a node that allows a text do not depend on what is behind it. -/
theorem Kind.pieces_of_allows {kind : Kind} {text : String} (hk : kind.isLeaf)
    (h : kind.allows text) :
    (∃ own : String, own.toList.any isStop ∧
      ∀ after, kind.pieces after = [.filler own, .filler after]) ∨
    ∃ last, (kind.tokens "" 0).getLast? = some last ∧ last.allows text ∧
      ∀ after, kind.pieces after = [.own (kind.tokens ""), .filler after] := by
  have hlast (hl : (kind.tokens "" 0).getLast?.any (Token.allows · text)) :
      ∃ last, (kind.tokens "" 0).getLast? = some last ∧ last.allows text := by
    rwa [Option.any_eq_true] at hl
  have hname {t : Token} (ht : t.allows text) (hc : t.kind.char? = none) : t.endsName := by
    have : t.isShut = false := by rw [Token.isShut, hc, Option.any_none]
    rw [Token.allows, this, Bool.false_or, Bool.and_eq_true] at ht
    exact ht.1
  cases kind with
  | root => cases hk
  | selector => cases hk
  | pseudo name hasArguments =>
    cases hasArguments with
    | true => cases hk
    | false =>
      obtain ⟨last, hl, ha⟩ := hlast h
      exact .inr ⟨last, hl, ha, fun _ => rfl⟩
  | combinator c own =>
    cases c with
    | descendant => exact .inl ⟨own, h, fun _ => rfl⟩
    | _ =>
      obtain ⟨last, hl, ha⟩ := hlast h
      exact .inr ⟨last, hl, ha, fun _ => rfl⟩
  | comment own => exact .inl ⟨own, h, fun _ => rfl⟩
  | className name =>
    obtain ⟨last, hl, ha⟩ := hlast h
    refine .inr ⟨last, hl, ha, fun after => ?_⟩
    obtain rfl : ⟨.ident, name ++ "", 1⟩ = last := Option.some.inj hl
    have hclosed : Token.isClosedName (name ++ "").toList := hname ha rfl
    rw [String.append_empty] at hclosed
    simp only [Kind.pieces, splitEnding_of_isClosedName hclosed]
  | idName name =>
    obtain ⟨last, hl, ha⟩ := hlast h
    refine .inr ⟨last, hl, ha, fun after => ?_⟩
    obtain rfl : ⟨.hash (Token.startsName name.toList), "#" ++ name ++ "", 0⟩ = last :=
      Option.some.inj hl
    have hclosed : Token.isClosedName ("#" ++ name ++ "").toList.tail := hname ha rfl
    have htail : ("#" ++ name ++ "").toList.tail = name.toList := by simp
    rw [htail] at hclosed
    simp only [Kind.pieces, splitEnding_of_isClosedName hclosed]
  | _ =>
    obtain ⟨last, hl, ha⟩ := hlast h
    exact .inr ⟨last, hl, ha, fun _ => rfl⟩

section Allows

variable {tokens : Nat → List Token} {last : Token} {t : Tree} {after text : String}
  {y z : List Char}

theorem Stands.hides (h : Stands tokens y) (ht : (tokens 0).getLast? = some last)
    (ha : last.allows text) : Hides last.text.toList := by
  rcases (Bool.or_eq_true _ _).mp ha with hshut | hname
  · exact Token.hides_of_isShut (h.precedes ht).isSpelled hshut
  · exact Token.hides_of_endsName ((Bool.and_eq_true _ _).mp hname).1

theorem Stands.of_allows (h : Stands tokens y) (ht : (tokens 0).getLast? = some last)
    (ha : last.allows text) (hz : isApart z) : Stands tokens (text.toList ++ z) := by
  refine h.of_last ht (h.hides ht ha) ?_
  rcases (Bool.or_eq_true _ _).mp ha with hshut | hname
  · exact (h.precedes ht).of_isShut hshut _
  · obtain ⟨hends, hapart⟩ := (Bool.and_eq_true _ _).mp hname
    exact (h.precedes ht).of_endsName hends (Token.isApart_append hapart hz)

theorem exists_node_of_allows (ha : t.kind.allows text) :
    t.kind.isLeaf ∨ ∃ name, t.kind = .pseudo name true := by
  obtain ⟨kind, spaces, start, children⟩ := t
  change kind.allows text at ha
  change kind.isLeaf ∨ ∃ name, kind = .pseudo name true
  cases kind with
  | root => cases ha
  | selector => cases ha
  | pseudo name hasArguments =>
    cases hasArguments with
    | true => exact .inr ⟨name, rfl⟩
    | false => exact .inl rfl
  | _ => exact .inl rfl

/-- A closing parenthesis hides what stands behind it. -/
theorem AreInPlace.close {ps : List Piece} (h : AreInPlace (ps ++ [closePiece]) y)
    (z : List Char) : AreInPlace (ps ++ [closePiece]) z := by
  rw [areInPlace_append] at h ⊢
  have hides : Hides (charsOf [closePiece]) := Token.hides_of_isStop (c := ')') rfl []
  exact ⟨h.1.yields (hides y z).yields, stands_close _, trivial⟩

/-- A node stays in place in front of a text that it allows. -/
theorem AreInPlace.setAfter (h : AreInPlace t.pieces y) (ha : t.kind.allows (after ++ text))
    (hz : isApart z) : AreInPlace (t.setAfter after).pieces (text.toList ++ z) := by
  have hnode := exists_node_of_allows ha
  obtain ⟨kind, ⟨before, behind⟩, start, children⟩ := t
  rcases hnode with hleaf | ⟨name, hname⟩
  · have hleaf : kind.isLeaf := hleaf
    rw [pieces_of_isLeaf hleaf] at h
    rw [Tree.setAfter, Tree.withSpaces, Tree.spaces, pieces_of_isLeaf hleaf]
    rcases kind.pieces_of_allows hleaf ha with ⟨own, -, hpieces⟩ | ⟨last, hlast, hl, hpieces⟩
    · rw [hpieces]
      trivial
    · rw [hpieces] at h ⊢
      refine ⟨?_, trivial⟩
      have hstands := h.1.of_allows hlast hl hz
      rw [String.toList_append, List.append_assoc] at hstands
      simpa [Piece.text] using hstands
  · obtain rfl : kind = .pseudo name true := hname
    rw [pieces_call, areInPlace_append] at h
    rw [Tree.setAfter, Tree.withSpaces, Tree.spaces, pieces_call, areInPlace_append]
    exact ⟨h.1.close _, trivial⟩

/-- A node that allows a text hides it from what stands in front. -/
theorem exists_hides_of_allows (h : AreInPlace t.pieces y) (ha : t.kind.allows text) :
    ∃ x, Hides x ∧ ∀ after, charsOf (t.setAfter after).pieces = x ++ after.toList := by
  have hnode := exists_node_of_allows ha
  obtain ⟨kind, ⟨before, behind⟩, start, children⟩ := t
  rcases hnode with hleaf | ⟨name, hname⟩
  · have hleaf : kind.isLeaf := hleaf
    refine ⟨before.toList ++ kind.text.toList, .append_left ?_ _, fun after => ?_⟩
    · rcases kind.pieces_of_allows hleaf ha with ⟨own, hown, hpieces⟩ | ⟨last, hlast, hl, hpieces⟩
      · have hself := charsOf_pieces_leaf hleaf ""
        rw [hpieces] at hself
        have htext : own.toList = kind.text.toList := by simpa [Piece.text] using hself
        rw [← htext]
        exact Token.hides_of_any hown
      · have hself := charsOf_pieces_leaf hleaf ""
        rw [hpieces] at hself
        have htext : (textOf (kind.tokens "" 0)).toList = kind.text.toList := by
          simpa [Piece.text] using hself
        rw [pieces_of_isLeaf hleaf, hpieces] at h
        obtain ⟨init, hinit⟩ := List.getLast?_eq_some_iff.mp hlast
        rw [← htext, hinit, Token.textOf_append, Token.textOf_cons, Token.textOf_nil,
          String.append_empty, String.toList_append]
        exact (h.1.hides hlast hl).append_left _
    · rw [Tree.setAfter, Tree.withSpaces, Tree.spaces, pieces_of_isLeaf hleaf, charsOf_cons,
        charsOf_pieces_leaf hleaf, List.append_assoc]
      rfl
  · obtain rfl : kind = .pseudo name true := hname
    have hparen : Hides ")".toList := Token.hides_of_isStop (c := ')') rfl []
    refine ⟨_, hparen.append_left (charsOf (.filler before ::
      .own ((Kind.pseudo name true).tokens "") :: piecesList children)), fun after => ?_⟩
    rw [Tree.setAfter, Tree.withSpaces, Tree.spaces, pieces_call, charsOf_append, charsOf_append,
      charsOf_cons (.filler after), charsOf_nil, List.append_nil]
    rfl

end Allows

end Selector

namespace Scope

open Selector (AreInPlace Piece Spaces Tree charsOf closePiece commaPiece piecesEach piecesList
  piecesMore printEach printList)
open Token (Hides isApart isStop)

/-! ### Where a list comes apart -/

/-- Whether the node is a scope keyword. -/
def isKeyword (t : Tree) : Bool :=
  match t.kind with
  | .pseudo name _ => (Keyword.ofPseudo? name).isSome
  | _ => false

/-- What stands right behind a node does not stay: a keyword, or white space with
nothing behind it that stays. -/
def isLoose : List Tree → Bool
  | [] => false
  | t :: ts => isKeyword t || t.isSpacing && (trimSpacing (remainsAlong false (t :: ts))).isEmpty

/-- The node stands in front of what the nodes behind it leave as it stood in
front of them. Text behind it that belongs to no name hides them. -/
def clears (t : Tree) (ts : List Tree) : Bool :=
  !isLoose ts || t.kind.name?.isNone && t.spaces.after.toList.any isStop ||
    t.kind.allows (t.spaces.after ++ printEach (trimSpacing (remainsAlong false ts)))

/-- The nodes with this text behind the last of them. -/
def closeWith (after : String) (ts : List Tree) : List Tree :=
  match ts.getLast? with
  | none => []
  | some last => ts.dropLast ++ [last.setAfter after]

/-- The last node that an argument of a narrow keyword leaves can stand in front of
what the later arguments leave, and what stands behind the keyword. -/
def joins (after text : String) (nodes more : List Tree) : Bool :=
  nodes.getLast?.all fun last =>
    if more.isEmpty then last.kind.allows (after ++ text)
    else last.kind.allows (last.spaces.after ++ (printEach (closeWith after more) ++ text))

mutual

/-- The arguments of a node come apart, in front of this text if they are those of
a narrow keyword. -/
def detaches (text : String) : Tree → Bool
  | .node (.pseudo name true) spaces _ children =>
    match Keyword.ofPseudo? name with
    | some _ => detachesWithin spaces.after text children
    | none => isExchange name || detachesAmong children
  | _ => true

/-- The nodes of an alternative come apart, and so does what is in them. -/
def detachesAlong : List Tree → Bool
  | [] => true
  | t :: ts =>
    (isKeyword t || clears t ts) &&
      detaches (printEach (trimSpacing (remainsAlong (isBroad t) ts))) t && detachesAlong ts

/-- The arguments of a narrow keyword come apart, in front of the text `after`
of the keyword and what follows that. -/
def detachesWithin (after text : String) : List Tree → Bool
  | [] => true
  | .node _ _ _ children :: ts =>
    joins after text (trimSpacing (remainsAlong false children)) (remainsWithin ts) &&
      detachesAlong children && detachesWithin after text ts

/-- Alternatives come apart. -/
def detachesAmong : List Tree → Bool
  | [] => true
  | .node _ _ _ children :: ts => detachesAlong children && detachesAmong ts

end

/-- The keywords of the list can go, and no text that stands behind another one
then runs into it. All nodes have tokens of their own. -/
structure IsDetachable (t : Tree) : Prop where
  ordinary : ∀ kind ∈ t.kinds, kind.isOrdinary
  detaches : detachesAmong t.children

instance (t : Tree) : Decidable (IsDetachable t) :=
  decidable_of_iff ((∀ kind ∈ t.kinds, kind.isOrdinary) ∧ detachesAmong t.children)
    ⟨fun h => ⟨h.1, h.2⟩, fun h => ⟨h.ordinary, h.detaches⟩⟩

theorem detachesWithin_cons (after text : String) (a : Tree) (ts : List Tree) :
    detachesWithin after text (a :: ts) =
      (joins after text (trimSpacing (remainsAlong false a.children)) (remainsWithin ts) &&
        detachesAlong a.children && detachesWithin after text ts) := by
  obtain ⟨kind, spaces, start, children⟩ := a
  rw [detachesWithin]
  rfl

theorem detachesAmong_cons (a : Tree) (ts : List Tree) :
    detachesAmong (a :: ts) = (detachesAlong a.children && detachesAmong ts) := by
  obtain ⟨kind, spaces, start, children⟩ := a
  rw [detachesAmong]
  rfl

/-! ### The end of a sequence -/

theorem closeWith_concat (after : String) (ts : List Tree) (last : Tree) :
    closeWith after (ts ++ [last]) = ts ++ [last.setAfter after] := by
  rw [closeWith, List.getLast?_concat]
  simp only
  rw [List.dropLast_concat]

theorem closeWith_append (after : String) (ts : List Tree) {us : List Tree} (hne : us ≠ []) :
    closeWith after (ts ++ us) = ts ++ closeWith after us := by
  obtain ⟨vs, last, rfl⟩ := List.eq_nil_or_concat' us |>.resolve_left hne
  rw [← List.append_assoc, closeWith_concat, closeWith_concat, List.append_assoc]

theorem isSpacing_of_getLast?_trimSpacing {ts : List Tree} :
    ∀ u ∈ (trimSpacing ts).getLast?, u.isSpacing = false := by
  intro u hu
  have hne : trimSpacing ts ≠ [] := by
    rintro hnil
    rw [hnil] at hu
    cases hu
  have hlast := List.rdropWhile_last_not Tree.isSpacing ts hne
  rw [List.getLast?_eq_some_getLast hne] at hu
  obtain rfl := Option.some.inj hu
  exact Bool.not_eq_true _ ▸ hlast

theorem isSpacing_of_getLast?_remainsWithin (ts : List Tree) :
    ∀ u ∈ (remainsWithin ts).getLast?, u.isSpacing = false := by
  induction ts with
  | nil => simp
  | cons a ts ih =>
    intro u hu
    rw [remainsWithin_cons, List.getLast?_append, Option.mem_def, Option.or_eq_some_iff] at hu
    rcases hu with hu | ⟨-, hu⟩
    · exact ih u hu
    · exact isSpacing_of_getLast?_trimSpacing u hu

/-- At the end of what a node leaves there is no white space, or there is nothing
else. -/
theorem trimSpacing_remainsOf (t : Tree) :
    trimSpacing (remainsOf t) = remainsOf t ∨ trimSpacing (remainsOf t) = [] := by
  have hsingle (u : Tree) : trimSpacing [u] = [u] ∨ trimSpacing [u] = [] := by
    have hone : trimSpacing [u] = if u.isSpacing then [] else [u] := List.rdropWhile_singleton ..
    rw [hone]
    split
    · exact .inr rfl
    · exact .inl rfl
  obtain ⟨kind, spaces, start, children⟩ := t
  cases kind with
  | pseudo name hasArguments =>
    cases hk : Keyword.ofPseudo? name with
    | none =>
      cases hasArguments with
      | false =>
        simp only [remainsOf, hk]
        exact hsingle _
      | true =>
        simp only [remainsOf, hk]
        split
        · exact hsingle _
        · exact hsingle _
    | some keyword =>
      cases hasArguments with
      | false =>
        simp only [remainsOf, hk]
        split
        · exact .inl rfl
        · exact hsingle _
      | true =>
        simp only [remainsOf, hk]
        refine .inl (trimSpacing_eq_self fun u hu => ?_)
        have hlast := isSpacing_of_getLast?_remainsWithin children
        generalize remainsWithin children = ts at hu hlast
        rcases List.eq_nil_or_concat' ts with rfl | ⟨us, last, rfl⟩
        · cases hu
        · have hspacing : last.isSpacing = false := hlast last (by simp)
          rcases us with - | ⟨v, us⟩
          · rw [List.nil_append, surround_single] at hu
            obtain rfl : (last.setBefore spaces.before).setAfter spaces.after = u :=
              Option.some.inj hu
            rwa [Tree.setAfter, Tree.isSpacing_withSpaces, Tree.setBefore,
              Tree.isSpacing_withSpaces]
          · rw [List.cons_append, surround_concat, ← List.cons_append, List.getLast?_concat] at hu
            obtain rfl := Option.some.inj hu
            rwa [Tree.setAfter, Tree.isSpacing_withSpaces]
  | _ =>
    rw [remainsOf_of_ne (by simp)]
    exact hsingle _

/-- A leaf that is no keyword stays. -/
theorem remainsOf_of_isLeaf {t : Tree} (hl : t.kind.isLeaf) (hk : isKeyword t = false) :
    remainsOf t = [t] := by
  obtain ⟨kind, spaces, start, children⟩ := t
  cases kind with
  | pseudo name hasArguments =>
    cases hasArguments with
    | true => cases hl
    | false =>
      have hnone : Keyword.ofPseudo? name = none :=
        Option.isNone_iff_eq_none.mp (Option.isSome_eq_false_iff.mp hk)
      simp only [remainsOf, hnone]
  | _ => rw [remainsOf_of_ne (by simp)]

/-! ### Nodes that come together -/

section Places

variable {nodes more ts : List Tree} {t last : Tree} {after text : String} {rest y z : List Char}

theorem setAfter_self (t : Tree) : t.setAfter t.spaces.after = t := by
  obtain ⟨kind, spaces, start, children⟩ := t
  rfl

theorem areInPlace_setBefore (before : String) :
    AreInPlace (piecesEach (t.setBefore before :: ts)) z ↔ AreInPlace (piecesEach (t :: ts)) z := by
  obtain ⟨ps, hps⟩ := Selector.exists_pieces_eq t
  have hself : t.pieces = .filler t.spaces.before :: ps := by
    rw [← hps]
    obtain ⟨kind, spaces, start, children⟩ := t
    rfl
  rw [piecesEach, piecesEach, hps, hself]
  exact Iff.rfl

/-- Text in front of a sequence is no matter. -/
theorem areInPlace_surround {spaces : Spaces}
    (h : AreInPlace (piecesEach (closeWith spaces.after ts)) z) :
    AreInPlace (piecesEach (surround spaces ts)) z := by
  cases ts with
  | nil => exact h
  | cons t ts =>
    rcases List.eq_nil_or_concat' ts with rfl | ⟨us, last, rfl⟩
    · rw [surround_single]
      obtain ⟨kind, around, start, children⟩ := t
      exact (areInPlace_setBefore spaces.before).mpr h
    · rw [← List.cons_append, closeWith_concat] at h
      rw [surround_concat]
      exact (areInPlace_setBefore spaces.before).mpr h

/-- The last of some nodes comes to stand in front of another text. -/
theorem areInPlace_concat (h : AreInPlace (piecesEach (nodes ++ [last])) rest)
    (ha : last.kind.allows (after ++ text)) (hz : isApart z) :
    AreInPlace (piecesEach (nodes ++ [last.setAfter after])) (text.toList ++ z) := by
  rw [Selector.piecesEach_append, Selector.areInPlace_append] at h ⊢
  obtain ⟨hnodes, hlast⟩ := h
  simp only [piecesEach, List.append_nil] at hnodes hlast ⊢
  obtain ⟨x, hides, hchars⟩ := Selector.exists_hides_of_allows hlast ha
  refine ⟨hnodes.yields ?_, hlast.setAfter ha hz⟩
  have hself := hchars last.spaces.after
  rw [setAfter_self] at hself
  rw [hself, hchars, List.append_assoc, List.append_assoc]
  exact (hides _ _).yields

/-- An argument of a narrow keyword comes to stand in front of what the later ones
leave and what is behind the keyword. -/
theorem areInPlace_joins (h : AreInPlace (piecesEach nodes) rest)
    (hmore : AreInPlace (piecesEach (closeWith after more)) (text.toList ++ z))
    (hj : joins after text nodes more) (hz : isApart z) :
    AreInPlace (piecesEach (closeWith after (nodes ++ more))) (text.toList ++ z) := by
  rcases List.eq_nil_or_concat' nodes with rfl | ⟨init, last, rfl⟩
  · exact hmore
  rw [joins, List.getLast?_concat, Option.all_some] at hj
  cases more with
  | nil =>
    rw [List.append_nil, closeWith_concat]
    exact areInPlace_concat h hj hz
  | cons u more =>
    have hlast := areInPlace_concat h hj hz
    rw [setAfter_self] at hlast
    rw [closeWith_append after _ (List.cons_ne_nil u more), Selector.piecesEach_append,
      Selector.areInPlace_append, Selector.charsOf_piecesEach, ← List.append_assoc,
      ← String.toList_append]
    exact ⟨hlast, hmore⟩

end Places

/-! ### Nodes and what they leave -/

/-- What a node with arguments leaves is in place in front of any text that does
not go on with a name, if the arguments come apart. -/
def ComesApart (t : Tree) : Prop :=
  t.kind.isLeaf = false → ∀ {text : String} {y z : List Char}, AreInPlace t.pieces y → isApart z →
    detaches text t → AreInPlace (piecesEach (remainsOf t)) (text.toList ++ z)

section Nodes

variable {t : Tree} {ts : List Tree} {text : String} {w y z : List Char}

/-- The start of a pseudo-class hides what is in it from what stands in front. -/
theorem exists_hides_of_call (name : String) (spaces : Spaces) (start : Nat) :
    ∃ x, Hides x ∧ ∀ children, ∃ w,
      charsOf (Selector.Tree.node (.pseudo name true) spaces start children).pieces = x ++ w := by
  have hparen : Hides ['('] := Token.hides_of_isStop (c := '(') rfl []
  refine ⟨_, hparen.append_left (spaces.before ++ name).toList, fun children => ?_⟩
  refine ⟨(printList children ++ ")" ++ spaces.after).toList, ?_⟩
  rw [Selector.charsOf_pieces, Tree.print]
  simp

/-- The text behind a node that is no name is apart from its tokens. -/
theorem exists_pieces_of_name?_eq_none {kind : Selector.Kind} (hk : kind.isLeaf)
    (hn : kind.name? = none) (after : String) :
    ∃ p, kind.pieces after = [p] ++ [.filler after] := by
  cases kind with
  | root => cases hk
  | selector => cases hk
  | className => cases hn
  | idName => cases hn
  | combinator c => cases c <;> exact ⟨_, rfl⟩
  | _ => exact ⟨_, rfl⟩

/-- A node that is no keyword stays in place in front of what the nodes behind it
leave, and so does what stands in front of the node. -/
theorem areInPlace_of_clears (hs : t.IsSound Tree.IsReadArgument) (ha : ComesApart t)
    (hk : isKeyword t = false) (h : AreInPlace t.pieces w) (hz : isApart z) (hc : clears t ts)
    (hd : detaches (printEach (trimSpacing (remainsAlong false ts))) t)
    (hyields : isLoose ts = false →
      Token.Yields w ((printEach (trimSpacing (remainsAlong false ts))).toList ++ z)) :
    AreInPlace (piecesEach (remainsOf t))
        ((printEach (trimSpacing (remainsAlong false ts))).toList ++ z) ∧
      Token.Yields (charsOf t.pieces ++ w) (charsOf (piecesEach (remainsOf t)) ++
        ((printEach (trimSpacing (remainsAlong false ts))).toList ++ z)) := by
  rw [clears] at hc
  generalize printEach (trimSpacing (remainsAlong false ts)) = text at *
  cases hs with
  | @leaf kind spaces start hleaf _ _ =>
    have hself := remainsOf_of_isLeaf (t := .leaf kind spaces start) hleaf hk
    have hides_of (hides : Hides (charsOf (Tree.leaf kind spaces start).pieces)) :
        Token.Yields (charsOf (Tree.leaf kind spaces start).pieces ++ w)
          (charsOf (Tree.leaf kind spaces start).pieces ++ (text.toList ++ z)) :=
      (hides _ _).yields
    rw [hself]
    simp only [piecesEach, List.append_nil]
    rcases (Bool.or_eq_true _ _).mp hc with hc | hallows
    · rcases (Bool.or_eq_true _ _).mp hc with hloose | hafter
      · have hw := hyields (by simpa using hloose)
        exact ⟨h.yields hw, hw.append _⟩
      · -- the text behind the node hides all that follows
        obtain ⟨hnone, hstop⟩ := (Bool.and_eq_true _ _).mp hafter
        have hides : Hides spaces.after.toList := Token.hides_of_any hstop
        obtain ⟨p, hp⟩ := exists_pieces_of_name?_eq_none hleaf
          (Option.isNone_iff_eq_none.mp hnone) spaces.after
        rw [Selector.pieces_leaf hleaf, hp, ← List.cons_append] at h ⊢
        rw [Selector.areInPlace_append] at h ⊢
        have hafter : Hides (charsOf [.filler spaces.after]) := by simpa [Piece.text] using hides
        refine ⟨⟨h.1.yields (hafter _ _).yields, trivial⟩, ?_⟩
        rw [Selector.charsOf_append]
        exact (hafter.append_left _ _ _).yields
    · have hplace := h.setAfter hallows hz
      obtain ⟨x, hides, hchars⟩ := Selector.exists_hides_of_allows h hallows
      have hown := hchars spaces.after
      rw [show (Tree.leaf kind spaces start).setAfter spaces.after = .leaf kind spaces start from
        setAfter_self _] at hown
      refine ⟨hplace, hides_of ?_⟩
      rw [hown]
      exact hides.append_right _
  | @call name spaces start arguments _ _ _ _ _ =>
    refine ⟨ha rfl h hz hd, ?_⟩
    obtain ⟨x, hides, hchars⟩ := exists_hides_of_call name spaces start
    obtain ⟨v, hv⟩ := hchars arguments
    have hleft : ∃ children, remainsOf (.node (.pseudo name true) spaces start arguments) =
        [.node (.pseudo name true) spaces start children] := by
      have hnone : Keyword.ofPseudo? name = none :=
        Option.isNone_iff_eq_none.mp (Option.isSome_eq_false_iff.mp hk)
      simp only [remainsOf, hnone]
      split
      · exact ⟨_, rfl⟩
      · exact ⟨_, rfl⟩
    obtain ⟨children, hchildren⟩ := hleft
    obtain ⟨v', hv'⟩ := hchars children
    rw [hchildren, hv]
    simp only [piecesEach, List.append_nil]
    rw [hv', List.append_assoc, List.append_assoc]
    exact (hides _ _).yields

theorem isBroad_of_not_isKeyword (hk : isKeyword t = false) : isBroad t = false := by
  obtain ⟨kind, spaces, start, children⟩ := t
  cases kind with
  | pseudo name hasArguments =>
    have hnone : Keyword.ofPseudo? name = none :=
      Option.isNone_iff_eq_none.mp (Option.isSome_eq_false_iff.mp hk)
    cases hasArguments <;> simp [isBroad, broad?, hnone]
  | _ => rfl

/-- Of a broad keyword no token stays. -/
theorem areInPlace_remainsOf_broad (hl : t.kind.isLeaf) (hk : isKeyword t) (z : List Char) :
    AreInPlace (piecesEach (remainsOf t)) z := by
  obtain ⟨kind, spaces, start, children⟩ := t
  cases kind with
  | pseudo name hasArguments =>
    obtain ⟨keyword, hkeyword⟩ := Option.isSome_iff_exists.mp hk
    cases hasArguments with
    | true => cases hl
    | false =>
      simp only [remainsOf, hkeyword]
      split
      · rw [piecesEach]
        trivial
      · rw [piecesEach, piecesEach, Selector.pieces_leaf rfl]
        trivial
  | _ => cases hk

/-- Of what is no keyword only white space can be trimmed. -/
theorem isSpacing_of_trimSpacing_remainsOf (hk : isKeyword t = false)
    (h : trimSpacing (remainsOf t) = []) : t.isSpacing := by
  have hall : ∀ u ∈ remainsOf t, u.isSpacing := List.rdropWhile_eq_nil_iff.mp h
  obtain ⟨kind, spaces, start, children⟩ := t
  cases kind with
  | pseudo name hasArguments =>
    have hnone : Keyword.ofPseudo? name = none :=
      Option.isNone_iff_eq_none.mp (Option.isSome_eq_false_iff.mp hk)
    cases hasArguments with
    | false =>
      simp only [remainsOf, hnone] at hall
      exact hall _ List.mem_cons_self
    | true =>
      simp only [remainsOf, hnone] at hall
      split at hall
      · exact hall _ List.mem_cons_self
      · cases hall _ List.mem_cons_self
  | _ =>
    rw [remainsOf_of_ne (by simp)] at hall
    exact hall _ List.mem_cons_self

/-- A row of nodes comes apart if the arguments of each of them do. Unless the first
node goes, what stands in front of the row notices nothing. -/
theorem areInPlace_remainsAlong (hs : ∀ t ∈ ts, t.IsSound Tree.IsReadArgument)
    (ha : ∀ t ∈ ts, ComesApart t) (isBehind : Bool) (h : AreInPlace (piecesEach ts) y)
    (hyz : Token.Yields y z) (hz : isApart z) (hd : detachesAlong ts) :
    AreInPlace (piecesEach (trimSpacing (remainsAlong isBehind ts))) z ∧
      (isBehind = false → isLoose ts = false → Token.Yields (charsOf (piecesEach ts) ++ y)
        (charsOf (piecesEach (trimSpacing (remainsAlong isBehind ts))) ++ z)) := by
  induction ts generalizing isBehind with
  | nil =>
    rw [remainsAlong_nil]
    exact ⟨trivial, fun _ _ => hyz⟩
  | cons t ts ih =>
    obtain ⟨ht, hts⟩ := List.forall_mem_cons.mp hs
    obtain ⟨hat, hats⟩ := List.forall_mem_cons.mp ha
    rw [detachesAlong, Bool.and_eq_true, Bool.and_eq_true] at hd
    obtain ⟨⟨hclears, hdt⟩, hdts⟩ := hd
    rw [piecesEach, Selector.areInPlace_append] at h
    obtain ⟨hplace, hbehind⟩ := h
    have hrest (b : Bool) := @ih hts hats b hbehind hdts
    rw [remainsAlong]
    split
    next hdrop =>
      refine ⟨(hrest false).1, ?_⟩
      rintro rfl
      cases hdrop
    next hkeep =>
      have hcleared (hk : isKeyword t = false) := by
        have hb := isBroad_of_not_isKeyword hk
        rw [hb] at hdt
        rw [hk, Bool.false_or] at hclears
        refine areInPlace_of_clears ht hat hk hplace hz hclears hdt fun hloose => ?_
        rw [← Selector.charsOf_piecesEach]
        exact (hrest false).2 rfl hloose
      have hnode : AreInPlace (piecesEach (remainsOf t))
          ((printEach (trimSpacing (remainsAlong (isBroad t) ts))).toList ++ z) := by
        cases hk : isKeyword t with
        | false =>
          rw [isBroad_of_not_isKeyword hk]
          exact (hcleared hk).1
        | true =>
          cases hleaf : t.kind.isLeaf with
          | true => exact areInPlace_remainsOf_broad hleaf hk _
          | false => exact hat hleaf hplace hz hdt
      have hmore := (hrest (isBroad t)).1
      have hyields (hloose : isLoose (t :: ts) = false) :
          Token.Yields (charsOf (piecesEach (t :: ts)) ++ y) (charsOf (piecesEach (remainsOf t)) ++
            ((printEach (trimSpacing (remainsAlong (isBroad t) ts))).toList ++ z)) := by
        have hk : isKeyword t = false := (Bool.or_eq_false_iff.mp hloose).1
        rw [piecesEach, Selector.charsOf_append, List.append_assoc, isBroad_of_not_isKeyword hk]
        exact (hcleared hk).2
      rw [trimSpacing_append]
      split
      next hnil =>
        rw [hnil, Selector.printEach_nil, String.toList_empty, List.nil_append] at hnode hyields
        rcases trimSpacing_remainsOf t with hself | hnone
        · rw [hself]
          exact ⟨hnode, fun _ hloose => hyields hloose⟩
        · rw [hnone]
          refine ⟨trivial, fun _ hloose => ?_⟩
          -- white space with nothing behind it that stays is loose
          obtain ⟨hk, hspacing⟩ := Bool.or_eq_false_iff.mp hloose
          rw [remainsAlong, Bool.false_and, if_neg Bool.false_ne_true, trimSpacing_append,
            if_pos hnil, hnone, isSpacing_of_trimSpacing_remainsOf hk hnone] at hspacing
          cases hspacing
      next hne =>
        rw [Selector.piecesEach_append, Selector.areInPlace_append, Selector.charsOf_append,
          List.append_assoc, Selector.charsOf_piecesEach (trimSpacing _)]
        exact ⟨⟨hnode, hmore⟩, fun _ hloose => hyields hloose⟩

end Nodes

/-! ### Alternatives -/

section Rows

variable {ts : List Tree} {after text : String} {y z : List Char}

theorem areInPlace_selector {spaces : Spaces} (hs : spaces.after = "") (start : Nat)
    (children : List Tree) :
    AreInPlace (Selector.Tree.node .selector spaces start children).pieces z ↔
      AreInPlace (piecesEach children) z := by
  rw [Tree.pieces, hs]
  change AreInPlace (piecesEach children ++ [.filler ""]) z ↔ _
  rw [Selector.areInPlace_append]
  exact and_iff_left trivial

/-- The comma in front of an alternative is always in place. -/
theorem areInPlace_piecesMore : AreInPlace (piecesMore ts) z ↔ AreInPlace (piecesList ts) z := by
  cases ts with
  | nil => rw [piecesMore, piecesList]
  | cons a ts =>
    rw [piecesMore, piecesList]
    exact and_iff_right (Selector.stands_comma _)

theorem isApart_piecesMore (hz : isApart z) (ts : List Tree) :
    isApart (charsOf (piecesMore ts) ++ z) := by
  cases ts with
  | nil =>
    rw [piecesMore]
    exact hz
  | cons a ts =>
    rw [piecesMore]
    rfl

/-- What stands in front of alternatives notices nothing of them. -/
theorem yields_piecesMore (hyz : Token.Yields y z) {us : List Tree} (hnil : ts = [] ↔ us = []) :
    Token.Yields (charsOf (piecesMore ts) ++ y) (charsOf (piecesMore us) ++ z) := by
  cases ts with
  | nil =>
    rw [hnil.mp rfl, piecesMore]
    exact hyz
  | cons a ts =>
    cases us with
    | nil => cases hnil.mpr rfl
    | cons b us =>
      have hcomma : Hides [','] := Token.hides_of_isStop (c := ',') rfl []
      rw [piecesMore, piecesMore, Selector.charsOf_cons, Selector.charsOf_cons, List.append_assoc,
        List.append_assoc]
      exact (hcomma _ _).yields

/-- The nodes of an alternative in front of the ones behind it. -/
theorem areInPlace_children {a : Tree} (ha : a.IsRow)
    (h : AreInPlace (piecesMore (a :: ts)) y) :
    AreInPlace (piecesEach a.children) (charsOf (piecesMore ts) ++ y) ∧
      AreInPlace (piecesMore ts) y := by
  obtain ⟨kind, spaces, start, children⟩ := a
  obtain rfl : kind = .selector := ha.kind
  rw [piecesMore] at h
  obtain ⟨hrow, hmore⟩ := Selector.areInPlace_append.mp h.2
  exact ⟨(areInPlace_selector ha.after start children).mp hrow, hmore⟩

/-- The arguments of a narrow keyword come to stand one after the other. -/
theorem areInPlace_remainsWithin (hrows : ∀ a ∈ ts, a.IsReadArgument)
    (hs : ∀ a ∈ ts, ∀ t ∈ a.children, t.IsSound Tree.IsReadArgument)
    (ha : ∀ a ∈ ts, ∀ t ∈ a.children, ComesApart t) (h : AreInPlace (piecesMore ts) y)
    (hy : isApart y) (hz : isApart z) (hd : detachesWithin after text ts) :
    AreInPlace (piecesEach (closeWith after (remainsWithin ts))) (text.toList ++ z) := by
  induction ts with
  | nil =>
    rw [remainsWithin_nil]
    exact trivial
  | cons a ts ih =>
    rw [detachesWithin_cons, Bool.and_eq_true, Bool.and_eq_true] at hd
    obtain ⟨⟨hjoins, hfirst⟩, hothers⟩ := hd
    obtain ⟨hrow, hmore⟩ := areInPlace_children (hrows a List.mem_cons_self).toIsRow h
    have hleft := (areInPlace_remainsAlong (hs a List.mem_cons_self)
      (ha a List.mem_cons_self) false hrow (Token.Alike.refl 3 _).yields (isApart_piecesMore hy ts)
      hfirst).1
    rw [remainsWithin_cons]
    refine areInPlace_joins hleft (ih ?_ ?_ ?_ hmore hothers) hjoins hz
    · exact fun b hb => hrows b (List.mem_cons_of_mem a hb)
    · exact fun b hb => hs b (List.mem_cons_of_mem a hb)
    · exact fun b hb => ha b (List.mem_cons_of_mem a hb)

theorem remainsAmong_eq_nil : ts = [] ↔ remainsAmong ts = [] := by
  cases ts with
  | nil => simp
  | cons a ts => simp [remainsAmong_cons]

/-- **Alternatives come apart one by one.** -/
theorem areInPlace_remainsAmong (hrows : ∀ a ∈ ts, a.IsReadRow)
    (hs : ∀ a ∈ ts, ∀ t ∈ a.children, t.IsSound Tree.IsReadArgument)
    (ha : ∀ a ∈ ts, ∀ t ∈ a.children, ComesApart t) (h : AreInPlace (piecesMore ts) y)
    (hyz : Token.Yields y z) (hz : isApart z) (hd : detachesAmong ts) :
    AreInPlace (piecesMore (remainsAmong ts)) z := by
  induction ts with
  | nil =>
    rw [remainsAmong_nil, piecesMore]
    exact trivial
  | cons a ts ih =>
    rw [detachesAmong_cons, Bool.and_eq_true] at hd
    have hfirst := (hrows a List.mem_cons_self).toIsRow
    obtain ⟨hrow, hmore⟩ := areInPlace_children hfirst h
    have hleft := (areInPlace_remainsAlong (hs a List.mem_cons_self)
      (ha a List.mem_cons_self) false hrow (yields_piecesMore hyz remainsAmong_eq_nil)
      (isApart_piecesMore hz _) hd.1).1
    have hothers := ih (fun b hb => hrows b (List.mem_cons_of_mem a hb))
      (fun b hb => hs b (List.mem_cons_of_mem a hb))
      (fun b hb => ha b (List.mem_cons_of_mem a hb)) hmore hd.2
    rw [remainsAmong_cons, piecesMore]
    refine ⟨Selector.stands_comma _, Selector.areInPlace_append.mpr ⟨?_, hothers⟩⟩
    exact (areInPlace_selector hfirst.after a.start _).mpr hleft

end Rows

theorem kinds_subset_kindsEach {t : Tree} {ts : List Tree} (h : t ∈ ts) :
    t.kinds ⊆ Selector.kindsEach ts := by
  obtain ⟨front, back, rfl⟩ := List.append_of_mem h
  simp

theorem kinds_subset_of_mem_children {a t : Tree} (h : t ∈ a.children) : t.kinds ⊆ a.kinds := by
  obtain ⟨kind, spaces, start, children⟩ := a
  rw [Tree.kinds]
  exact List.subset_cons_of_subset _ (kinds_subset_kindsEach h)

/-- **The arguments of a node that was read come apart.** -/
theorem comesApart_of_isSound {t : Tree} (h : t.IsSound Tree.IsReadArgument)
    (ho : ∀ kind ∈ t.kinds, kind.isOrdinary) : ComesApart t := by
  induction h with
  | @leaf kind spaces start hleaf _ _ =>
    intro hl
    cases hleaf.symm.trans hl
  | @call name spaces start arguments hn _ _ hrows hs ih =>
    intro _ text y z hplace hz hd
    rw [Tree.kinds] at ho
    obtain ⟨hself, hbelow⟩ := List.forall_mem_cons.mp ho
    have ha : ∀ a ∈ arguments, ∀ t ∈ a.children, ComesApart t := by
      intro a ha t ht
      refine ih a ha t ht fun kind hkind => hbelow kind (kinds_subset_kindsEach ha ?_)
      exact kinds_subset_of_mem_children ht hkind
    have hcall := hplace
    rw [Selector.pieces_call, Selector.areInPlace_append, Selector.areInPlace_append] at hcall
    obtain ⟨⟨⟨hopening, harguments⟩, -⟩, -⟩ := hcall
    have hmore := areInPlace_piecesMore.mpr harguments
    cases hk : Keyword.ofPseudo? name with
    | some keyword =>
      simp only [detaches, hk] at hd
      simp only [remainsOf, hk]
      exact areInPlace_surround (areInPlace_remainsWithin hrows hs ha hmore rfl hz hd)
    | none =>
      simp only [detaches, hk, Bool.or_eq_true] at hd
      simp only [remainsOf, hk]
      split
      next =>
        have hself : AreInPlace ((Selector.Tree.node (.pseudo name true) spaces start
            arguments).setAfter spaces.after).pieces (text.toList ++ z) := hplace.setAfter rfl hz
        change AreInPlace
          (Selector.Tree.node (.pseudo name true) spaces start arguments).pieces _ at hself
        simpa [piecesEach] using hself
      next hx =>
        have hparen : Hides (charsOf [closePiece]) := Token.hides_of_isStop (c := ')') rfl []
        have hleft := areInPlace_remainsAmong (fun a ha => (hrows a ha).toIsReadRow) hs ha hmore
          (z := charsOf [closePiece] ++ (spaces.after.toList ++ (text.toList ++ z)))
          (hparen _ _).yields rfl (hd.resolve_left hx)
        rw [piecesEach, piecesEach, List.append_nil, Selector.pieces_call,
          Selector.areInPlace_append, Selector.areInPlace_append]
        refine ⟨⟨⟨Selector.stands_opening hn hself hopening _, ?_⟩, Selector.stands_close _,
          trivial⟩, trivial⟩
        simpa [Piece.text] using areInPlace_piecesMore.mp hleft

/-! ### Selector lists -/

theorem areInPlace_root {t : Tree} (hk : t.kind = .root) (hs : t.spaces = .none) {z : List Char} :
    AreInPlace t.pieces z ↔ AreInPlace (piecesMore t.children) z := by
  obtain ⟨kind, spaces, start, children⟩ := t
  obtain rfl : kind = .root := hk
  obtain rfl : spaces = .none := hs
  rw [areInPlace_piecesMore, Tree.pieces]
  change AreInPlace (piecesList children ++ [.filler ""]) z ↔ AreInPlace (piecesList children) z
  rw [Selector.areInPlace_append]
  exact and_iff_left trivial

/-- **The pieces of a list that was read stay in place without its keywords.** -/
theorem areInPlace_remains {source : String} {t : Tree} (hp : Selector.parse source = .ok t)
    (ht : IsDetachable t) {z : List Char} (h : AreInPlace t.pieces z) (hz : isApart z) :
    AreInPlace (remains t).pieces z := by
  have hread := Selector.areReadRows_of_parse hp
  have hroot : t.kind = .root ∧ t.spaces = .none := by
    obtain ⟨p, -, -, rfl⟩ := Selector.parsed_of_parseWithin hp
    exact ⟨rfl, rfl⟩
  have ha : ∀ a ∈ t.children, ∀ u ∈ a.children, ComesApart u := by
    intro a ha u hu
    refine comesApart_of_isSound (hread.sound a ha u hu) fun kind hkind => ht.ordinary kind ?_
    exact kinds_subset_of_mem_children ha (kinds_subset_of_mem_children hu hkind)
  rw [areInPlace_root hroot.1 hroot.2] at h
  rw [areInPlace_root (t := remains t) rfl hroot.2]
  exact areInPlace_remainsAmong hread.rows hread.sound ha h (Token.Alike.refl 3 z).yields hz
    ht.detaches

end Scope
end StyleScope
