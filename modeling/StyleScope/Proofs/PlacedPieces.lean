/-
# Pieces in front of a text

Whether a piece is read with its tokens depends on what stands behind it. It
stands in front of a text if the lexer finds its tokens there and goes on with
that text (`Stands`). A list of pieces is in place in front of a text if each
piece stands in front of what follows it (`AreInPlace`), and then the text of a
tree has the tokens of its nodes (`tokensOf_of_areInPlace`).

What follows can be exchanged where no token notices (`AreInPlace.yields`). The
tokens move along with the place where they start, so it does not matter where
the pieces stand themselves.

Key definitions: `Selector.Piece.text`, `Selector.Stands`, `Selector.AreInPlace`.
Key theorems: `Selector.areInPlace_append`, `Selector.tokensOf_of_areInPlace`.
-/
import StyleScope.Proofs.LookAhead
import StyleScope.Proofs.SoundTexts

namespace StyleScope
namespace Token

open Text

/-! ### White space and comments in front -/

theorem runLength_append {p : Char → Bool} (cs : List Char) {z : List Char}
    (hz : z.head?.any p = false) : runLength p (cs ++ z) = runLength p cs := by
  have hnone : z.takeWhile p = [] := by
    cases z with
    | nil => rfl
    | cons d z => exact List.takeWhile_cons_of_neg (by simpa using hz)
  rw [runLength, runLength, List.takeWhile_append, hnone, List.append_nil]
  split
  next hall => exact hall.symm
  next => rfl

/-- The lexer reads white space and closed comments, and goes on behind them. -/
theorem IsFiller.lexFrom_append {cs z : List Char} (h : IsFiller cs)
    (hz : z.head?.any isSpace = false) (o : Nat) :
    lexFrom o (cs ++ z) = lexFrom o cs ++ lexFrom (o + (String.ofList cs).utf8ByteSize) z := by
  fun_induction lexFrom o cs with
  | case1 => rfl
  | case2 o c cs n text ih =>
    have hle := length_scan_le c cs
    have hscan : scan c (cs ++ z) = scan c cs := by
      cases h with
      | space hc => rw [scan_of_isSpace hc, scan_of_isSpace hc, runLength_append cs hz]
      | comment hb =>
        rw [List.cons_append, List.append_assoc, scan_of_closed (hb _), scan_of_closed (hb _)]
    have hrest : IsFiller ((c :: cs).drop n) := by
      cases h with
      | space hc h =>
        unfold n
        rw [drop_scan_of_isSpace hc]
        exact h.dropWhile_isSpace
      | comment hb h =>
        unfold n
        rwa [drop_scan_of_closed (hb _)]
    have hsize : (String.ofList (c :: cs)).utf8ByteSize =
        text.utf8ByteSize + (String.ofList ((c :: cs).drop n)).utf8ByteSize := by
      rw [← String.utf8ByteSize_append, ← String.ofList_append, List.take_append_drop]
    rw [List.cons_append, lexFrom, hscan, ← List.cons_append, List.take_append_of_le_length hle,
      List.drop_append_of_le_length hle, hsize, ← Nat.add_assoc, List.cons_append, ← ih hrest]

end Token

namespace Selector

open Token (IsFiller isTrivia lexFrom relocate textOf)

/-! ### The text of pieces -/

def Piece.text : Piece → String
  | .filler text => text
  | .own tokens => textOf (tokens 0)

/-- The characters of pieces, one after the other. -/
def charsOf (ps : List Piece) : List Char :=
  ps.flatMap fun p => p.text.toList

@[simp] theorem charsOf_nil : charsOf [] = [] := rfl

@[simp] theorem charsOf_cons (p : Piece) (ps : List Piece) :
    charsOf (p :: ps) = p.text.toList ++ charsOf ps := rfl

@[simp] theorem charsOf_append (ps qs : List Piece) :
    charsOf (ps ++ qs) = charsOf ps ++ charsOf qs :=
  List.flatMap_append

theorem charsOf_pieces_leaf {kind : Kind} (hk : kind.isLeaf) (after : String) :
    charsOf (kind.pieces after) = kind.text.toList ++ after.toList := by
  have hending (name : String) :
      (splitEnding name after).1.toList ++ (splitEnding name after).2.toList = after.toList := by
    rw [← String.toList_append, splitEnding_append]
  cases kind with
  | root => cases hk
  | selector => cases hk
  | pseudo name hasArguments =>
    cases hasArguments with
    | true => cases hk
    | false => simp [Kind.pieces, Piece.text, Kind.tokens, textOf_pseudoTokens, Kind.text]
  | combinator c text => cases c <;> simp [Kind.pieces, Piece.text, Kind.tokens, Kind.text]
  | className name => simp [Kind.pieces, Piece.text, Kind.tokens, Kind.text, hending]
  | idName name => simp [Kind.pieces, Piece.text, Kind.tokens, Kind.text, hending]
  | _ => simp [Kind.pieces, Piece.text, Kind.tokens, Kind.text, Token.textOf_lexFrom]

mutual

/-- The pieces of a tree have its printed text. -/
theorem charsOf_pieces (t : Tree) : charsOf t.pieces = t.print.toList := by
  obtain ⟨kind, spaces, start, children⟩ := t
  cases kind with
  | root => simp [Tree.pieces, Tree.print, Piece.text, charsOf_piecesList children]
  | selector => simp [Tree.pieces, Tree.print, Piece.text, charsOf_piecesEach children]
  | pseudo name hasArguments =>
    cases hasArguments with
    | true =>
      simp [Tree.pieces, Tree.print, Piece.text, Kind.tokens, textOf_pseudoTokens, closePiece,
        charsOf_piecesList children]
    | false =>
      simp only [Tree.pieces, Tree.print, charsOf_cons, Piece.text]
      rw [charsOf_pieces_leaf rfl]
      simp
  | _ =>
    simp only [Tree.pieces, Tree.print, charsOf_cons, Piece.text]
    rw [charsOf_pieces_leaf rfl]
    simp

theorem charsOf_piecesEach (ts : List Tree) : charsOf (piecesEach ts) = (printEach ts).toList := by
  cases ts with
  | nil => simp [piecesEach]
  | cons t ts => simp [piecesEach, charsOf_pieces t, charsOf_piecesEach ts]

theorem charsOf_piecesList (ts : List Tree) : charsOf (piecesList ts) = (printList ts).toList := by
  cases ts with
  | nil => simp [piecesList]
  | cons t ts => simp [piecesList, charsOf_pieces t, charsOf_piecesMore ts]

theorem charsOf_piecesMore (ts : List Tree) : charsOf (piecesMore ts) = (printMore ts).toList := by
  cases ts with
  | nil => simp [piecesMore]
  | cons t ts =>
    simp [piecesMore, commaPiece, Piece.text, charsOf_pieces t, charsOf_piecesMore ts]

end

/-! ### Pieces in place -/

/-- Wherever they start, the lexer finds these tokens in front of the text, and
goes on with the text behind them. -/
structure Stands (tokens : Nat → List Token) (z : List Char) : Prop where
  moves : ∀ o, tokens o = (tokens 0).map (relocate (· + o))
  starts : ∃ t more, tokens 0 = t :: more ∧ t.isTrivia = false
  reads : ∃ rest, lexFrom 0 ((textOf (tokens 0)).toList ++ z) = tokens 0 ++ rest

/-- Each piece with tokens of its own stands in front of what follows it, and the
text is what follows the last one. -/
def AreInPlace (ps : List Piece) (z : List Char) : Prop :=
  match ps with
  | [] => True
  | .filler _ :: ps => AreInPlace ps z
  | .own tokens :: ps => Stands tokens (charsOf ps ++ z) ∧ AreInPlace ps z

namespace Stands

variable {tokens : Nat → List Token} {y z : List Char}

/-- Tokens that were found at one place are found at every other. -/
theorem of_reads {o : Nat} {t : Token} {more rest : List Token}
    (hm : ∀ o, tokens o = (tokens 0).map (relocate (· + o))) (ht : tokens o = t :: more)
    (htrivia : t.isTrivia = false)
    (hl : lexFrom o ((textOf (tokens 0)).toList ++ z) = tokens o ++ rest) : Stands tokens z := by
  refine ⟨hm, ?_, ?_⟩
  · rw [hm] at ht
    obtain ⟨u, us, hzero, rfl, -⟩ := List.map_eq_cons_iff.mp ht
    exact ⟨u, us, hzero, htrivia⟩
  · rw [hm o] at hl
    have hshift := Token.lexFrom_add 0 o ((textOf (tokens 0)).toList ++ z)
    rw [Nat.zero_add, hl] at hshift
    obtain ⟨us, vs, hread, hmap, -⟩ := List.map_eq_append_iff.mp hshift.symm
    have hinjective : Function.Injective (relocate (· + o)) := by
      rintro ⟨kind, text, start⟩ ⟨kind', text', start'⟩ h
      simpa [relocate] using h
    rw [hread, List.map_injective_iff.mpr hinjective hmap]
    exact ⟨vs, rfl⟩

theorem textOf_eq (h : Stands tokens z) (o : Nat) : textOf (tokens o) = textOf (tokens 0) := by
  rw [h.moves, Token.textOf_map_relocate]

theorem lexFrom_eq (h : Stands tokens z) (o : Nat) :
    lexFrom o ((textOf (tokens 0)).toList ++ z) =
      tokens o ++ lexFrom (o + (textOf (tokens 0)).utf8ByteSize) z := by
  obtain ⟨rest, hreads⟩ := h.reads
  have hshift := Token.lexFrom_add 0 o ((textOf (tokens 0)).toList ++ z)
  rw [hreads, Nat.zero_add, List.map_append, ← h.moves] at hshift
  obtain ⟨cs, hcs, hrest⟩ := Token.lexFrom_eq_append hshift
  rw [h.textOf_eq o] at hcs hrest
  obtain rfl := List.append_cancel_left hcs
  rw [hshift, hrest]

theorem yields (h : Stands tokens y) (hyz : Token.Yields y z) : Stands tokens z :=
  ⟨h.moves, h.starts, _, Token.lexFrom_yields hyz (h.lexFrom_eq 0)⟩

end Stands

variable {ps qs : List Piece} {y z : List Char}

theorem areInPlace_append :
    AreInPlace (ps ++ qs) z ↔ AreInPlace ps (charsOf qs ++ z) ∧ AreInPlace qs z := by
  induction ps with
  | nil => simp [AreInPlace]
  | cons p ps ih =>
    cases p with
    | filler text => exact ih
    | own tokens =>
      rw [List.cons_append, AreInPlace, AreInPlace, ih, charsOf_append, List.append_assoc,
        and_assoc]

/-- The text behind can be exchanged for one that looks like it. -/
theorem AreInPlace.yields (h : AreInPlace ps y) (hyz : Token.Yields y z) : AreInPlace ps z := by
  induction ps with
  | nil => trivial
  | cons p ps ih =>
    cases p with
    | filler text => exact ih h
    | own tokens => exact ⟨h.1.yields (hyz.append _), ih h.2⟩

/-! ### The tokens of the text -/

/-- In front of each piece with tokens of its own stand white space and closed
comments, `before` in front of the first. -/
def AreFilled (before : List Char) (ps : List Piece) : Prop :=
  match ps with
  | [] => True
  | .filler text :: ps => AreFilled (before ++ text.toList) ps
  | .own _ :: ps => IsFiller before ∧ AreFilled [] ps

theorem head?_of_stands {tokens : Nat → List Token} (h : Stands tokens z) :
    ((textOf (tokens 0)).toList ++ z).head?.any Text.isSpace = false := by
  obtain ⟨t, more, ht, htrivia⟩ := h.starts
  obtain ⟨rest, hreads⟩ := h.reads
  rw [ht, List.cons_append] at hreads
  obtain ⟨c, w, z', hcs, -, rfl, -⟩ := Token.exists_of_lexFrom_eq_cons hreads
  rw [ht, hcs]
  by_contra hspace
  rw [Token.scan_of_isSpace (by simpa using hspace)] at htrivia
  cases htrivia

/-- **The text of pieces in place has their tokens.** -/
theorem tokensOf_of_areInPlace (before : String) (h : AreInPlace ps [])
    (hf : AreFilled before.toList ps) (o : Nat) :
    tokensOf o before ps = lexFrom o (before.toList ++ charsOf ps) := by
  induction ps generalizing before o with
  | nil => rw [tokensOf, charsOf_nil, List.append_nil]
  | cons p ps ih =>
    cases p with
    | filler text =>
      rw [AreFilled, ← String.toList_append] at hf
      rw [tokensOf, ih _ h hf, charsOf_cons, Piece.text, String.toList_append, List.append_assoc]
    | own tokens =>
      obtain ⟨hbefore, hf⟩ := hf
      have hstands := h.1
      rw [List.append_nil] at hstands
      have hrest : AreFilled "".toList ps := hf
      rw [tokensOf, charsOf_cons, Piece.text, hbefore.lexFrom_append (head?_of_stands hstands),
        hstands.lexFrom_eq, String.ofList_toList, hstands.textOf_eq, ih "" h.2 hrest]
      rfl

/-- A piece at the end has its tokens at the end, too. -/
theorem exists_tokensOf_concat (o : Nat) (before : String) (ps : List Piece)
    (tokens : Nat → List Token) :
    ∃ n, tokensOf o before (ps ++ [.own tokens]) = tokensOf o before ps ++ tokens n := by
  induction ps generalizing o before with
  | nil =>
    refine ⟨o + before.utf8ByteSize, ?_⟩
    rw [List.nil_append, tokensOf, tokensOf, tokensOf, String.toList_empty, lexFrom,
      List.append_nil]
  | cons p ps ih =>
    cases p with
    | filler text =>
      rw [List.cons_append, tokensOf, tokensOf]
      exact ih o (before ++ text)
    | own ts =>
      obtain ⟨n, hn⟩ := ih (o + before.utf8ByteSize +
        (textOf (ts (o + before.utf8ByteSize))).utf8ByteSize) ""
      refine ⟨n, ?_⟩
      rw [List.cons_append, tokensOf, tokensOf, hn, List.append_assoc, List.append_assoc]

/-- Behind white space and closed comments, what is in front of the tokens of these
pieces is white space and closed comments too. So is what they leave to the next
pieces, if they end so. -/
def Fills (isClosed : Prop) (ps : List Piece) : Prop :=
  ∀ before qs, IsFiller before → (∀ rest, (isClosed → IsFiller rest) → AreFilled rest qs) →
    AreFilled before (ps ++ qs)

namespace Fills

variable {isClosed isClosed' : Prop}

theorem nil : Fills True [] :=
  fun before _ hb h => h before fun _ => hb

theorem mono (h : Fills isClosed ps) (hc : isClosed' → isClosed) : Fills isClosed' ps :=
  fun before qs hb hq => h before qs hb fun rest hr => hq rest fun h' => hr (hc h')

theorem append (h : Fills True ps) (h' : Fills isClosed qs) : Fills isClosed (ps ++ qs) := by
  intro before rs hb hr
  rw [List.append_assoc]
  exact h before _ hb fun rest hrest => h' rest rs (hrest trivial) hr

theorem filler (text : String) : Fills (IsFiller text.toList) [.filler text] :=
  fun _ _ hb h => h _ fun ht => hb.append ht

theorem own (tokens : Nat → List Token) : Fills True [.own tokens] :=
  fun _ _ hb h => ⟨hb, h [] fun _ => .nil⟩

/-- White space and comments behind change nothing. -/
theorem append_filler (h : Fills isClosed ps) {text : String} (ht : IsFiller text.toList) :
    Fills isClosed (ps ++ [.filler text]) := by
  intro before qs hb hq
  rw [List.append_assoc]
  exact h before _ hb fun rest hrest => hq _ fun hc => (hrest hc).append ht

/-- White space and comments in front and behind. -/
theorem surround {before after : String} (hb : IsFiller before.toList) (h : Fills True ps) :
    Fills (IsFiller after.toList) (.filler before :: (ps ++ [.filler after])) :=
  ((Fills.filler before).mono fun _ => hb).append (h.append (.filler after))

end Fills

theorem fills_leaf {kind : Kind} {spaces : Spaces} (start : Nat) (hk : kind.isLeaf)
    (hs : kind.IsSound) (hb : IsFiller spaces.before.toList) :
    Fills (IsFiller spaces.after.toList) (Tree.leaf kind spaces start).pieces := by
  have hown (tokens : Nat → List Token) (rest : String)
      (hrest : IsFiller spaces.after.toList → IsFiller rest.toList) :
      Fills (IsFiller spaces.after.toList)
        [.filler spaces.before, .own tokens, .filler rest] :=
    (Fills.surround hb (.own tokens)).mono hrest
  have htext (text : String) (ht : IsFiller text.toList) : Fills (IsFiller spaces.after.toList)
      [.filler spaces.before, .filler text, .filler spaces.after] :=
    Fills.surround hb ((Fills.filler text).mono fun _ => ht)
  rw [pieces_leaf hk]
  cases kind with
  | className name => exact hown _ _ fun h => isFiller_splitEnding h name
  | idName name => exact hown _ _ fun h => isFiller_splitEnding h name
  | comment text => exact htext text hs
  | combinator c text =>
    cases c with
    | descendant => exact htext text hs
    | _ => exact hown _ _ id
  | _ => exact hown _ _ id

/-- Pieces one after the other. All but the last of them have to end in white space
and closed comments. -/
theorem Fills.flatMap {α : Type} {isClosed : α → Prop} {f : α → List Piece} {xs : List α}
    (h : ∀ x ∈ xs, Fills (isClosed x) (f x)) (hc : ∀ x ∈ xs.dropLast, isClosed x) :
    Fills (∀ x ∈ xs, isClosed x) (xs.flatMap f) := by
  induction xs with
  | nil => exact Fills.nil.mono fun _ => trivial
  | cons x xs ih =>
    obtain ⟨hfirst, hc⟩ := forall_mem_dropLast_cons.mp hc
    have hx := h x List.mem_cons_self
    rw [List.flatMap_cons]
    by_cases hne : xs = []
    · subst hne
      rw [List.flatMap_nil, List.append_nil]
      exact hx.mono fun hall => hall x List.mem_cons_self
    · have hxs := ih (fun y hy => h y (List.mem_cons_of_mem x hy)) hc
      exact (hx.mono fun _ => hfirst hne).append
        (hxs.mono fun hall y hy => hall y (List.mem_cons_of_mem x hy))

theorem piecesEach_eq_flatMap (ts : List Tree) : piecesEach ts = ts.flatMap Tree.pieces := by
  induction ts with
  | nil => rw [piecesEach, List.flatMap_nil]
  | cons t ts ih => rw [piecesEach, ih, List.flatMap_cons]

@[simp] theorem piecesEach_append (ts us : List Tree) :
    piecesEach (ts ++ us) = piecesEach ts ++ piecesEach us := by
  simp [piecesEach_eq_flatMap]

theorem piecesMore_eq_flatMap (ts : List Tree) :
    piecesMore ts = ts.flatMap fun t => commaPiece :: t.pieces := by
  induction ts with
  | nil => rw [piecesMore, List.flatMap_nil]
  | cons t ts ih => rw [piecesMore, ih, List.flatMap_cons, List.cons_append]

theorem fills_row {a : Tree} (ha : a.IsRow)
    (h : ∀ t ∈ a.children, Fills (IsFiller t.spaces.after.toList) t.pieces) :
    Fills a.IsClosed a.pieces := by
  obtain ⟨hkind, hbefore, hafter, hinner, -⟩ := ha
  obtain ⟨kind, ⟨before, after⟩, start, children⟩ := a
  obtain rfl : kind = .selector := hkind
  obtain rfl : after = "" := hafter
  have hnodes : Fills (∀ t ∈ children, IsFiller t.spaces.after.toList)
      (piecesEach children ++ [.filler ""]) := by
    rw [piecesEach_eq_flatMap]
    exact (Fills.flatMap h hinner).append_filler .nil
  rw [Tree.pieces]
  by_cases hne : children = []
  · subst hne
    intro b qs hb hq
    rw [piecesEach]
    refine hq _ fun hc => ?_
    have hall := (hb.append hc.before).append .nil
    simpa [Tree.spaces] using hall
  · exact ((Fills.filler before).mono fun _ => hbefore hne).append
      (hnodes.mono fun hc => hc.after)

theorem fills_list {ts : List Tree} (h : ∀ a ∈ ts, Fills a.IsClosed a.pieces)
    (hc : ∀ a ∈ ts.dropLast, a.IsClosed) : Fills (∀ a ∈ ts, a.IsClosed) (piecesList ts) := by
  cases ts with
  | nil =>
    rw [piecesList]
    exact Fills.nil.mono fun _ => trivial
  | cons a ts =>
    obtain ⟨hfirst, hc⟩ := forall_mem_dropLast_cons.mp hc
    have ha := h a List.mem_cons_self
    have hmore : Fills (∀ b ∈ ts, b.IsClosed) (piecesMore ts) := by
      rw [piecesMore_eq_flatMap]
      exact Fills.flatMap (fun b hb => (Fills.own _).append (h b (List.mem_cons_of_mem a hb))) hc
    rw [piecesList]
    by_cases hne : ts = []
    · subst hne
      rw [piecesMore, List.append_nil]
      exact ha.mono fun hall => hall a List.mem_cons_self
    · exact (ha.mono fun _ => hfirst hne).append
        (hmore.mono fun hall b hb => hall b (List.mem_cons_of_mem a hb))

theorem Tree.IsSound.fills {t : Tree} (h : t.IsSound Tree.IsClosedRow) :
    Fills (IsFiller t.spaces.after.toList) t.pieces := by
  induction h with
  | leaf start hleaf hs hb => exact fills_leaf start hleaf hs hb
  | @call name spaces start arguments _ hb _ hrows _ ih =>
    have hlist := fills_list (fun a ha => fills_row (hrows a ha).toIsRow (ih a ha))
      fun a ha => (hrows a ((List.dropLast_sublist arguments).subset ha)).closed
    have harguments := hlist.mono fun (_ : True) a ha => (hrows a ha).closed
    have hall : Fills (IsFiller spaces.after.toList) _ := Fills.surround hb
      (((Fills.own ((Kind.pseudo name true).tokens "")).append harguments).append
        (.own fun o => [⟨.rightParen, ")", o⟩]))
    rw [Tree.pieces]
    change Fills (IsFiller spaces.after.toList) _
    simpa [closePiece] using hall

theorem Tree.IsSoundList.fills {t : Tree} (h : t.IsSoundList) :
    Fills (∀ a ∈ t.children, a.IsClosed) t.pieces := by
  obtain ⟨hkind, hspaces, -, hrows, hclosed, hsound⟩ := h
  obtain ⟨kind, spaces, start, children⟩ := t
  obtain rfl : kind = .root := hkind
  obtain rfl : spaces = .none := hspaces
  have hlist := fills_list (fun a ha => fills_row (hrows a ha) fun u hu => (hsound a ha u hu).fills)
    hclosed
  rw [Tree.pieces]
  exact ((Fills.filler "").mono fun _ => .nil).append (hlist.append_filler .nil)

/-- **A sound list whose pieces are in place prints legibly**, if no colon stands
alone. -/
theorem isLegible_of_areInPlace {t : Tree} (h : t.IsSoundList) (hp : AreInPlace t.pieces [])
    (hc : ∀ e ∈ t.outline 0, e.2.kind ≠ .tag ":" ∧ e.2.kind ≠ .tag "::") : t.IsLegible := by
  refine ⟨?_, hc⟩
  have hfilled := h.fills [] [] .nil fun _ _ => trivial
  rw [List.append_nil] at hfilled
  rw [tokensOf_of_areInPlace "" hp hfilled, charsOf_pieces]
  rfl

end Selector
end StyleScope
