/-
# The pieces of a resolved list

A mark does not come between what it marks and its neighbours. In front it
starts with a colon, where the class or id started with its own mark, and no token in
front goes on with either. Behind it ends in a parenthesis. So the pieces of a
marked list are in place where those of the list are (`forall₂_admits`), and what is
printed of a detachable list is legible (`isLegible_of_resolve`).

Key definitions: `Scope.Admits`.
Key theorems: `Scope.forall₂_admits`, `Scope.areInPlace_of_resolve`,
`Scope.isLegible_of_resolve`.
-/
import StyleScope.Proofs.Detaching
import StyleScope.Proofs.PrintedNames

namespace StyleScope
namespace Scope

open Selector (AreInPlace Kind Piece Spaces Stands Tree charsOf kindsEach piecesEach piecesList
  piecesMore)
open Token (isFenced)

/-! ### Kinds of nodes that stay -/

section Kinds

variable {p : Kind → Prop} {ts us : List Tree} {kind : Kind}

theorem kindsEach_surround (spaces : Spaces) (ts : List Tree) :
    kindsEach (surround spaces ts) = kindsEach ts := by
  cases ts with
  | nil => rfl
  | cons t ts =>
    rcases List.eq_nil_or_concat' ts with rfl | ⟨us, last, rfl⟩
    · simp [surround_single, Tree.setBefore, Tree.setAfter]
    · simp [surround_concat, Tree.setBefore, Tree.setAfter]

theorem kindsEach_trimSpacing_subset (ts : List Tree) :
    kindsEach (trimSpacing ts) ⊆ kindsEach ts := by
  obtain ⟨blanks, hsplit, -⟩ := exists_eq_trimSpacing_append ts
  intro kind hkind
  rw [hsplit, Selector.kindsEach_append]
  exact List.mem_append_left _ hkind

mutual

/-- What holds of the kinds in a node holds of those in what it leaves. -/
theorem forall_kinds_remainsOf (hs : p .selector)
    (hc : ∀ text, p (.combinator .descendant text)) : ∀ t : Tree,
    (∀ kind ∈ t.kinds, p kind) → ∀ kind ∈ kindsEach (remainsOf t), p kind
  | .node kind spaces start children, h => by
    rw [Tree.kinds] at h
    obtain ⟨hself, hbelow⟩ := List.forall_mem_cons.mp h
    have hkeep : ∀ k ∈ kindsEach [Selector.Tree.node kind spaces start children], p k := by
      simpa [Tree.kinds] using h
    cases kind with
    | pseudo name hasArguments =>
      cases hk : Keyword.ofPseudo? name with
      | none =>
        cases hasArguments with
        | false => simpa only [remainsOf, hk] using hkeep
        | true =>
          simp only [remainsOf, hk]
          split
          · exact hkeep
          · simpa [Tree.kinds] using ⟨hself, forall_kinds_remainsAmong hs hc children hbelow⟩
      | some keyword =>
        cases hasArguments with
        | false =>
          simp only [remainsOf, hk]
          split
          · simp
          · simpa [Tree.leaf, Tree.kinds] using hc _
        | true =>
          simp only [remainsOf, hk]
          rw [kindsEach_surround]
          exact forall_kinds_remainsWithin hs hc children hbelow
    | _ =>
      rw [remainsOf_of_ne (by simp)]
      exact hkeep

theorem forall_kinds_remainsAlong (hs : p .selector)
    (hc : ∀ text, p (.combinator .descendant text)) :
    ∀ (ts : List Tree) (isBehind : Bool), (∀ kind ∈ kindsEach ts, p kind) →
    ∀ kind ∈ kindsEach (remainsAlong isBehind ts), p kind
  | [], _, _ => by simp
  | t :: ts, isBehind, h => by
    rw [Selector.kindsEach_cons] at h
    obtain ⟨hself, hmore⟩ := List.forall_mem_append.mp h
    rw [remainsAlong]
    split
    · exact forall_kinds_remainsAlong hs hc ts _ hmore
    · rw [Selector.kindsEach_append]
      exact List.forall_mem_append.mpr
        ⟨forall_kinds_remainsOf hs hc t hself, forall_kinds_remainsAlong hs hc ts _ hmore⟩

theorem forall_kinds_remainsWithin (hs : p .selector)
    (hc : ∀ text, p (.combinator .descendant text)) : ∀ ts : List Tree,
    (∀ kind ∈ kindsEach ts, p kind) → ∀ kind ∈ kindsEach (remainsWithin ts), p kind
  | [], _ => by simp
  | .node kind spaces start children :: ts, h => by
    rw [Selector.kindsEach_cons, Tree.kinds] at h
    obtain ⟨hself, hmore⟩ := List.forall_mem_append.mp h
    have hrow := forall_kinds_remainsAlong hs hc children false
      (List.forall_mem_cons.mp hself).2
    rw [remainsWithin, Selector.kindsEach_append]
    exact List.forall_mem_append.mpr
      ⟨fun k hk => hrow k (kindsEach_trimSpacing_subset _ hk),
        forall_kinds_remainsWithin hs hc ts hmore⟩

theorem forall_kinds_remainsAmong (hs : p .selector)
    (hc : ∀ text, p (.combinator .descendant text)) : ∀ ts : List Tree,
    (∀ kind ∈ kindsEach ts, p kind) → ∀ kind ∈ kindsEach (remainsAmong ts), p kind
  | [], _ => by simp
  | .node kind spaces start children :: ts, h => by
    rw [Selector.kindsEach_cons, Tree.kinds] at h
    obtain ⟨hself, hmore⟩ := List.forall_mem_append.mp h
    have hrow := forall_kinds_remainsAlong hs hc children false
      (List.forall_mem_cons.mp hself).2
    rw [remainsAmong, Selector.kindsEach_cons, Tree.kinds]
    refine List.forall_mem_append.mpr ⟨List.forall_mem_cons.mpr ⟨hs, fun k hk => ?_⟩,
      forall_kinds_remainsAmong hs hc ts hmore⟩
    exact hrow k (kindsEach_trimSpacing_subset _ hk)

end

theorem forall_kinds_remains {t : Tree} (hroot : p .root) (hs : p .selector)
    (hc : ∀ text, p (.combinator .descendant text)) (ht : ∀ kind ∈ t.kinds, p kind) :
    ∀ kind ∈ kindsEach [remains t], p kind := by
  obtain ⟨kind, spaces, start, children⟩ := t
  rw [Tree.kinds] at ht
  rw [Selector.kindsEach_cons, Selector.kindsEach_nil, List.append_nil, remains, Tree.kinds]
  exact List.forall_mem_cons.mpr
    ⟨hroot, forall_kinds_remainsAmong hs hc children (List.forall_mem_cons.mp ht).2⟩

/-- What holds of the kinds of nodes holds of those of the marked nodes. -/
theorem Marks.forall_kinds (h : Marks ts us) (hs : p .selector)
    (hl : p (.pseudo Keyword.localScope.text true)) (hts : ∀ kind ∈ kindsEach ts, p kind) :
    ∀ kind ∈ kindsEach us, p kind := by
  induction h with
  | nil => exact hts
  | keep t _ ih =>
    rw [Selector.kindsEach_cons] at hts ⊢
    obtain ⟨hself, hmore⟩ := List.forall_mem_append.mp hts
    exact List.forall_mem_append.mpr ⟨hself, ih hmore⟩
  | name spaces start _ _ ih =>
    rw [Selector.kindsEach_cons, Tree.kinds] at hts
    obtain ⟨hself, hmore⟩ := List.forall_mem_append.mp hts
    rw [Selector.kindsEach_cons]
    refine List.forall_mem_append.mpr ⟨?_, ih hmore⟩
    simpa [markLocal, Tree.leaf, Tree.kinds] using ⟨hl, hs, (List.forall_mem_cons.mp hself).1⟩
  | node kind spaces start _ _ ihc ih =>
    rw [Selector.kindsEach_cons, Tree.kinds] at hts ⊢
    obtain ⟨hself, hmore⟩ := List.forall_mem_append.mp hts
    obtain ⟨hkind, hbelow⟩ := List.forall_mem_cons.mp hself
    exact List.forall_mem_append.mpr ⟨List.forall_mem_cons.mpr ⟨hkind, ihc hbelow⟩, ih hmore⟩

end Kinds

/-! ### Ends of a text -/

/-- The second text starts like the first or with a colon, and has a blank end only
where the first has one. -/
structure KeepsEnds (x y : List Char) : Prop where
  nil : y = [] → x = []
  head : y.head? = x.head? ∨ y.head? = some ':'
  back : y.getLast?.any Text.isBlank → x.getLast?.any Text.isBlank

namespace KeepsEnds

variable {x y x' y' : List Char}

theorem front (h : KeepsEnds x y) (hblank : y.head?.any Text.isBlank) :
    x.head?.any Text.isBlank := by
  rcases h.head with hhead | hcolon
  · rwa [← hhead]
  · rw [hcolon] at hblank
    exact absurd hblank (by decide)

theorem refl (x : List Char) : KeepsEnds x x :=
  ⟨id, .inl rfl, id⟩

theorem append (h : KeepsEnds x y) (h' : KeepsEnds x' y') : KeepsEnds (x ++ x') (y ++ y') := by
  refine ⟨fun hnil => ?_, ?_, fun hblank => ?_⟩
  · obtain ⟨hy, hy'⟩ := List.append_eq_nil_iff.mp hnil
    rw [h.nil hy, h'.nil hy', List.append_nil]
  · cases y with
    | nil =>
      rw [h.nil rfl]
      exact h'.head
    | cons c y =>
      refine h.head.imp_left fun hhead => ?_
      cases x with
      | nil => cases hhead
      | cons d x => exact hhead
  · rw [List.getLast?_append] at hblank ⊢
    cases hlast : y'.getLast? with
    | none =>
      rw [hlast] at hblank
      rw [h'.nil (List.getLast?_eq_none_iff.mp hlast)]
      exact h.back hblank
    | some c =>
      rw [hlast] at hblank
      have hback := h'.back (by rw [hlast]; exact hblank)
      cases hx : x'.getLast? with
      | none =>
        rw [hx] at hback
        cases hback
      | some d =>
        rw [hx] at hback
        exact hback

/-- A text between a colon and a character that is not blank keeps the ends of any
other. -/
theorem of_mark {d : Char} (hd : Text.isBlank d = false) (x y : List Char) :
    KeepsEnds x (':' :: (y ++ [d])) := by
  refine ⟨fun h => (List.cons_ne_nil _ _ h).elim, .inr rfl, fun h => ?_⟩
  rw [← List.cons_append, List.getLast?_concat, Option.any_some, hd] at h
  cases h

end KeepsEnds

/-! ### Pieces in the place of others -/

/-- In the place of the first pieces the second are in place too, and what stands in
front of them notices nothing. -/
structure Admits (ps qs : List Piece) : Prop where
  stays {y z : List Char} : AreInPlace ps y → Token.Yields y z →
    AreInPlace qs z ∧ Token.Yields (charsOf ps ++ y) (charsOf qs ++ z)
  ends : KeepsEnds (charsOf ps) (charsOf qs)

section Admits

variable {ps ps' qs qs' : List Piece} {ts us : List Tree}

theorem Admits.refl (ps : List Piece) : Admits ps ps :=
  ⟨fun h hyz => ⟨h.yields hyz, hyz.append _⟩, .refl _⟩

theorem Admits.append (h : Admits ps qs) (h' : Admits ps' qs') :
    Admits (ps ++ ps') (qs ++ qs') := by
  refine ⟨fun hp hyz => ?_, ?_⟩
  · obtain ⟨hfront, hback⟩ := Selector.areInPlace_append.mp hp
    obtain ⟨hback, hbehind⟩ := h'.stays hback hyz
    obtain ⟨hfront, hyields⟩ := h.stays hfront hbehind
    rw [Selector.areInPlace_append, Selector.charsOf_append, Selector.charsOf_append,
      List.append_assoc, List.append_assoc]
    exact ⟨⟨hfront, hback⟩, hyields⟩
  · rw [Selector.charsOf_append, Selector.charsOf_append]
    exact h.ends.append h'.ends

theorem Admits.cons (p : Piece) (h : Admits ps qs) : Admits (p :: ps) (p :: qs) :=
  (Admits.refl [p]).append h

variable (h : List.Forall₂ (fun t u => Admits t.pieces u.pieces) ts us)

include h

theorem admits_each : Admits (piecesEach ts) (piecesEach us) := by
  induction h with
  | nil => exact .refl _
  | cons htu _ ih =>
    rw [piecesEach, piecesEach]
    exact htu.append ih

theorem admits_more : Admits (piecesMore ts) (piecesMore us) := by
  induction h with
  | nil => exact .refl _
  | cons htu _ ih =>
    rw [piecesMore, piecesMore]
    exact .cons _ (htu.append ih)

theorem admits_list : Admits (piecesList ts) (piecesList us) := by
  cases h with
  | nil => exact .refl _
  | cons htu hmore =>
    rw [piecesList, piecesList]
    exact htu.append (admits_more hmore)

/-- Nodes below a node. -/
theorem admits_node (kind : Kind) (spaces : Spaces) (start : Nat) :
    Admits (Selector.Tree.node kind spaces start ts).pieces
      (Selector.Tree.node kind spaces start us).pieces := by
  by_cases hleaf : kind.isLeaf
  · rw [Selector.pieces_of_isLeaf hleaf, Selector.pieces_of_isLeaf hleaf]
    exact .refl _
  cases kind with
  | root =>
    rw [Tree.pieces, Tree.pieces]
    exact .cons _ ((admits_list h).append (.refl _))
  | selector =>
    rw [Tree.pieces, Tree.pieces]
    exact .cons _ ((admits_each h).append (.refl _))
  | pseudo name hasArguments =>
    cases hasArguments with
    | false => exact absurd rfl hleaf
    | true =>
      rw [Tree.pieces, Tree.pieces]
      exact .cons _ (.cons _ ((admits_list h).append (.refl _)))
  | _ => exact absurd rfl hleaf

end Admits

/-! ### Marked nodes -/

section Marked

variable {kind : Kind} {name : Selector.Name} {after : String} {y : List Char}

theorem isLeaf_of_name? (hn : kind.name? = some name) : kind.isLeaf := by
  cases kind with
  | className | idName => rfl
  | _ => cases hn

theorem pieces_of_name? (hn : kind.name? = some name) :
    kind.pieces "" = [.own (kind.tokens ""), .filler ""] := by
  cases kind with
  | className | idName => simp [Kind.pieces, Selector.splitEnding]
  | _ => cases hn

/-- A class or an id that is in place would also be under a mark, and starts with a
fence. -/
theorem stands_of_name? (hn : kind.name? = some name) (hw : name.IsWhole) (ho : kind.isOrdinary)
    (h : AreInPlace (kind.pieces after) y) :
    (∀ z, Stands (kind.tokens "") (')' :: z)) ∧
      isFenced (kind.text.toList ++ (after.toList ++ y)) := by
  cases kind with
  | className text =>
    obtain rfl := Option.some.inj hn
    have hname := Selector.isName_of_stands hw h.1
    refine ⟨Selector.stands_className hname, ?_⟩
    have hdigit := Token.startsDigit_of_startsName
      (Token.startsName_mono (after.toList ++ y) hname.starts)
    have htext : (Kind.className text).text.toList = '.' :: text.toList := by simp [Kind.text]
    rw [htext, List.cons_append, isFenced, Token.startsFraction, hdigit]
    rfl
  | idName text =>
    obtain rfl := Option.some.inj hn
    have hne : text ≠ "" := by simpa [Kind.isOrdinary] using ho
    refine ⟨Selector.stands_idName hne hw, ?_⟩
    have htext : (Kind.idName text).text.toList = '#' :: text.toList := by simp [Kind.text]
    rw [htext]
    rfl
  | _ => cases hn

/-- **A class or an id and its mark.** -/
theorem admits_markLocal (hn : kind.name? = some name) (hw : name.IsWhole) (ho : kind.isOrdinary)
    (spaces : Spaces) (start : Nat) (children : List Tree) :
    Admits (Selector.Tree.node kind spaces start children).pieces
      (markLocal kind spaces start).pieces := by
  have hk := isLeaf_of_name? hn
  rw [Selector.pieces_of_isLeaf hk, markLocal, Tree.pieces, piecesList, piecesMore, Tree.pieces,
    piecesEach, piecesEach, Tree.leaf, Selector.pieces_of_isLeaf hk, Selector.Spaces.none,
    pieces_of_name? hn]
  refine ⟨fun {y z} hp _ => ?_, ?_⟩
  · obtain ⟨hown, hfenced⟩ := stands_of_name? hn hw ho hp
    have hfront : isFenced (charsOf (kind.pieces spaces.after) ++ y) := by
      rw [Selector.charsOf_pieces_leaf hk, List.append_assoc]
      exact hfenced
    refine ⟨⟨Selector.stands_localScope _, hown _, Selector.stands_close _, trivial⟩, ?_⟩
    rw [Selector.charsOf_cons, Selector.charsOf_cons, List.append_assoc, List.append_assoc]
    exact (Token.Alike.fenced 3 hfront rfl).yields.append _
  · have hmark : KeepsEnds kind.text.toList
        (':' :: ("local(".toList ++ (Token.textOf (kind.tokens "" 0)).toList ++ [')'])) :=
      .of_mark (by decide) _ _
    have hlocal : Token.textOf ((Kind.pseudo Keyword.localScope.text true).tokens "" 0) =
        ":local(" := rfl
    have hall := (KeepsEnds.refl spaces.before.toList).append
      (hmark.append (.refl spaces.after.toList))
    rw [Selector.charsOf_cons, Selector.charsOf_pieces_leaf hk]
    simpa [Piece.text, Selector.closePiece, hlocal] using hall

end Marked

/-- **A marked node stays where it was.** -/
theorem forall₂_admits {ts us : List Tree} (h : Marks ts us)
    (ho : ∀ kind ∈ kindsEach ts, kind.isOrdinary ∧ ∀ name ∈ kind.name?, name.IsWhole) :
    List.Forall₂ (fun t u => Admits t.pieces u.pieces) ts us := by
  induction h with
  | nil => exact .nil
  | keep t _ ih =>
    rw [Selector.kindsEach_cons] at ho
    exact .cons (.refl _) (ih (List.forall_mem_append.mp ho).2)
  | name spaces start hn _ ih =>
    rw [Selector.kindsEach_cons, Tree.kinds] at ho
    obtain ⟨hself, hmore⟩ := List.forall_mem_append.mp ho
    obtain ⟨hordinary, hwhole⟩ := (List.forall_mem_cons.mp hself).1
    exact .cons (admits_markLocal hn (hwhole _ hn) hordinary spaces start _) (ih hmore)
  | node kind spaces start _ _ ihc ih =>
    rw [Selector.kindsEach_cons, Tree.kinds] at ho
    obtain ⟨hself, hmore⟩ := List.forall_mem_append.mp ho
    have hbelow := (List.forall_mem_cons.mp hself).2
    exact .cons (admits_node (ihc hbelow) kind spaces start) (ih hmore)

/-! ### Names of a list that was read -/

theorem mem_kindsEach {kind : Kind} {ts : List Tree} :
    kind ∈ kindsEach ts ↔ ∃ t ∈ ts, kind ∈ t.kinds := by
  induction ts with
  | nil => simp
  | cons t ts ih => simp [ih]

section Whole

variable {kind : Kind} {ts : List Tree}

/-- Every kind in the rows is that of a row or of a node in one. -/
theorem mem_kindsEach_rows (hrows : ∀ a ∈ ts, a.kind = .selector) (hk : kind ∈ kindsEach ts) :
    kind = .selector ∨ ∃ a ∈ ts, ∃ t ∈ a.children, kind ∈ t.kinds := by
  obtain ⟨a, ha, hk⟩ := mem_kindsEach.mp hk
  have hrow := hrows a ha
  obtain ⟨kind', spaces, start, children⟩ := a
  obtain rfl : kind' = .selector := hrow
  rw [Tree.kinds] at hk
  refine (List.mem_cons.mp hk).imp id fun hk => ?_
  exact ⟨_, ha, mem_kindsEach.mp hk⟩

/-- A node with a name is among those whose names are listed. -/
theorem mem_names_of_isSound {t : Tree} (h : t.IsSound Tree.IsReadArgument) (hk : kind ∈ t.kinds)
    {name : Selector.Name} (hn : kind.name? = some name) : name ∈ t.names := by
  induction h with
  | leaf start hleaf _ _ =>
    rw [Tree.leaf, Tree.kinds, Selector.kindsEach_nil, List.mem_singleton] at hk
    subst hk
    rw [Selector.names_leaf hleaf, hn]
    exact List.mem_singleton_self name
  | @call text spaces start arguments _ _ _ hrows _ ih =>
    rw [Tree.kinds] at hk
    rcases List.mem_cons.mp hk with rfl | hk
    · cases hn
    · rw [Selector.names_of_not_isLeaf rfl]
      rcases mem_kindsEach_rows (fun a ha => (hrows a ha).kind) hk with rfl | ⟨a, ha, t, ht, hk⟩
      · cases hn
      · exact Selector.mem_namesAlong_of_mem ha (hrows a ha).kind ht (ih a ha t ht hk)

/-- Every name in a list that was read is whole. -/
theorem isWhole_of_parse {source : String} {t : Tree} (hp : Selector.parse source = .ok t) :
    ∀ kind ∈ t.kinds, ∀ name ∈ kind.name?, name.IsWhole := by
  intro kind hk name hn
  obtain ⟨-, hwhole⟩ := Selector.names_of_parse hp
  have hread := Selector.areReadRows_of_parse hp
  obtain ⟨p, -, -, rfl⟩ := Selector.parsed_of_parseWithin hp
  rw [Tree.kinds] at hk
  rcases List.mem_cons.mp hk with rfl | hk
  · cases hn
  rcases mem_kindsEach_rows (fun a ha => (hread.rows a ha).kind) hk with rfl | ⟨a, ha, t, ht, hk⟩
  · cases hn
  refine hwhole name ?_
  rw [Selector.names_of_not_isLeaf rfl]
  exact Selector.mem_namesAlong_of_mem ha (hread.rows a ha).kind ht
    (mem_names_of_isSound (hread.sound a ha t ht) hk hn)

end Whole

/-! ### Resolved lists -/

section Resolved

variable {ctx : Context} {isGlobal : Bool} {source : String} {t out : Tree} {r : Resolution}

/-- What holds of the kinds in a list holds of those in the resolved list. -/
theorem forall_kinds_of_resolve {p : Kind → Prop}
    (h : (resolve ctx isGlobal t).result = .ok (out, r)) (hroot : p .root) (hs : p .selector)
    (hc : ∀ text, p (.combinator .descendant text)) (hl : p (.pseudo Keyword.localScope.text true))
    (ht : ∀ kind ∈ t.kinds, p kind) : ∀ kind ∈ out.kinds, p kind := by
  simpa using (marks_of_resolve h).forall_kinds hs hl (forall_kinds_remains hroot hs hc ht)

theorem admits_of_resolve (hp : Selector.parse source = .ok t) (ht : IsDetachable t)
    (h : (resolve ctx isGlobal t).result = .ok (out, r)) :
    Admits (remains t).pieces out.pieces := by
  have hkinds : ∀ kind ∈ kindsEach [remains t],
      kind.isOrdinary ∧ ∀ name ∈ kind.name?, name.IsWhole :=
    forall_kinds_remains ⟨rfl, by simp [Kind.name?]⟩ ⟨rfl, by simp [Kind.name?]⟩
      (fun _ => ⟨rfl, by simp [Kind.name?]⟩)
      fun kind hk => ⟨ht.ordinary kind hk, isWhole_of_parse hp kind hk⟩
  exact (List.forall₂_cons.mp (forall₂_admits (marks_of_resolve h) hkinds)).1

/-- **The pieces of a resolved list are in place** where those of the list that was
read are. -/
theorem areInPlace_of_resolve (hp : Selector.parse source = .ok t) (ht : IsDetachable t)
    (h : (resolve ctx isGlobal t).result = .ok (out, r)) {z : List Char}
    (hz : AreInPlace t.pieces z) (ha : Token.isApart z) : AreInPlace out.pieces z :=
  ((admits_of_resolve hp ht h).stays (areInPlace_remains hp ht hz ha)
    (Token.Alike.refl 3 z).yields).1

/-- A resolved list has a blank end only where one is left without the keywords. -/
theorem keepsEnds_of_resolve (hp : Selector.parse source = .ok t) (ht : IsDetachable t)
    (h : (resolve ctx isGlobal t).result = .ok (out, r)) :
    KeepsEnds (remains t).print.toList out.print.toList := by
  rw [← Selector.charsOf_pieces, ← Selector.charsOf_pieces]
  exact (admits_of_resolve hp ht h).ends

/-- **A detachable list is legible when it is resolved.** -/
theorem isLegible_of_resolve (hp : Selector.parse source = .ok t) (ht : IsDetachable t)
    (h : (resolve ctx isGlobal t).result = .ok (out, r)) : out.IsLegible := by
  have hlex : Token.lexFrom 0 (source.toList ++ []) = Token.lex source ++ [] := by
    rw [List.append_nil, List.append_nil, Token.lex]
  have hplace := Selector.areInPlace_of_parse hp ht.ordinary hlex
  refine Selector.isLegible_of_areInPlace (isSoundList_of_resolve hp h)
    (areInPlace_of_resolve hp ht h hplace rfl) fun e he => ?_
  have hkinds : ∀ kind ∈ out.kinds, kind.isOrdinary :=
    forall_kinds_of_resolve h rfl rfl (fun _ => rfl) (by decide) ht.ordinary
  have hkind := hkinds e.2.kind (Selector.map_kind_outline out 0 ▸ List.mem_map_of_mem he)
  refine ⟨fun heq => ?_, fun heq => ?_⟩ <;>
  · rw [heq] at hkind
    cases hkind

/-- A parenthesis behind a resolved list is a token by itself if it was one behind
the list that was read. -/
theorem lex_append_close_of_resolve (hp : Selector.parse source = .ok t) (ht : IsDetachable t)
    (h : (resolve ctx isGlobal t).result = .ok (out, r)) {vs : List Token}
    (hl : Token.lex (source ++ ")") = Token.lex source ++ vs)
    (hc : ∀ a ∈ out.children, a.IsClosed) :
    Token.lex (out.print ++ ")") =
      Token.lex out.print ++ [⟨.rightParen, ")", out.print.utf8ByteSize⟩] := by
  have hlex : Token.lexFrom 0 (source.toList ++ [')']) = Token.lex source ++ vs := by
    rw [← hl, Token.lex, String.toList_append]
    rfl
  have hsource := Selector.areInPlace_of_parse hp ht.ordinary hlex
  have hplace : AreInPlace (out.pieces ++ [Selector.closePiece]) [] :=
    Selector.areInPlace_append.mpr
      ⟨areInPlace_of_resolve hp ht h hsource rfl, Selector.stands_close _, trivial⟩
  have hfilled := (isSoundList_of_resolve hp h).fills [] [Selector.closePiece] .nil
    fun rest hrest => ⟨hrest hc, trivial⟩
  obtain ⟨n, hn⟩ := Selector.exists_tokensOf_concat 0 "" out.pieces fun o =>
    [⟨.rightParen, ")", o⟩]
  have hlex : Token.lex (out.print ++ ")") = Token.lex out.print ++ [⟨.rightParen, ")", n⟩] := by
    rw [(isLegible_of_resolve hp ht h).tokens, ← hn]
    have htokens := Selector.tokensOf_of_areInPlace "" hplace hfilled 0
    refine .trans ?_ htokens.symm
    rw [Selector.charsOf_append, Selector.charsOf_pieces, Token.lex, String.toList_append]
    rfl
  obtain ⟨cs, -, hrest⟩ := Token.lexFrom_eq_append hlex
  have hstart := Selector.start_of_lexFrom hrest.symm
  rw [Token.lex, Token.textOf_lexFrom, String.ofList_toList, Nat.zero_add] at hstart
  rw [hlex]
  simpa using hstart

end Resolved

end Scope
end StyleScope
