/-
# Offsets have no influence

Tokens and nodes remember where they stand in the source. Nothing that is read
or scoped depends on it: with the offsets changed in any way the same items are
read, with their offsets changed in the same way (`Parsed.listing_relocate`),
and the same sheet comes out of scoping (`process_relocate`). So the place of a
text in a larger source has no influence on what becomes of it.

Key definitions: `Token.relocate`, `Sheet.Node.relocate`, `Sheet.relocate`.
Key theorems: `Token.lexFrom_add`, `Sheet.Parsed.listing_relocate`,
`Scope.process_relocate`.
-/
import StyleScope.Proofs.Listing
import StyleScope.Proofs.Passes

namespace StyleScope

/-! ### Tokens -/

namespace Token

/-- The token at another place. -/
def relocate (f : Nat → Nat) (t : Token) : Token :=
  { t with start := f t.start }

section Runs

variable (f : Nat → Nat)

@[simp] theorem kind_relocate (t : Token) : (t.relocate f).kind = t.kind := by
  cases t
  rfl

@[simp] theorem text_relocate (t : Token) : (t.relocate f).text = t.text := by
  cases t
  rfl

@[simp] theorem textOf_map_relocate (ts : List Token) :
    textOf (ts.map (relocate f)) = textOf ts := by
  induction ts with
  | nil => rfl
  | cons t ts ih => simp [ih]

theorem dropWhile_relocate {p : Token → Bool} (hp : ∀ t, p (t.relocate f) = p t)
    (ts : List Token) :
    (ts.map (relocate f)).dropWhile p = (ts.dropWhile p).map (relocate f) := by
  rw [List.dropWhile_map, show p ∘ relocate f = p from funext hp]

theorem takeWhile_relocate {p : Token → Bool} (hp : ∀ t, p (t.relocate f) = p t)
    (ts : List Token) :
    (ts.map (relocate f)).takeWhile p = (ts.takeWhile p).map (relocate f) := by
  rw [List.takeWhile_map, show p ∘ relocate f = p from funext hp]

end Runs

/-- The tokens of a text further on in the source. -/
theorem lexFrom_add (start k : Nat) (cs : List Char) :
    lexFrom (start + k) cs = (lexFrom start cs).map (relocate (· + k)) := by
  fun_induction lexFrom start cs with
  | case1 => rw [lexFrom]; rfl
  | case2 start c cs n text ih =>
    rw [lexFrom, List.map_cons, ← ih, Nat.add_right_comm]
    rfl

end Token

/-! ### Nodes -/

namespace Sheet

variable (f : Nat → Nat)

@[reducible] def RuleHead.relocate (h : RuleHead) : RuleHead :=
  { h with offset := f h.offset }

@[reducible] def AtHead.relocate (h : AtHead) : AtHead :=
  { h with offset := f h.offset }

@[reducible] def Declaration.relocate (d : Declaration) : Declaration :=
  { d with offset := f d.offset }

@[reducible] def Comment.relocate (c : Comment) : Comment :=
  { c with offset := f c.offset }

mutual

/-- The node and all below it at other places. -/
def Node.relocate : Node → Node
  | .rule head body after => .rule (head.relocate f) (relocateNodes body) after
  | .atBlock head body after => .atBlock (head.relocate f) (relocateNodes body) after
  | .atStatement head semicolon => .atStatement (head.relocate f) semicolon
  | .declaration d => .declaration (d.relocate f)
  | .comment c => .comment (c.relocate f)

/-- The nodes at other places. -/
def relocateNodes : List Node → List Node
  | [] => []
  | n :: ns => n.relocate :: relocateNodes ns

end

/-- The sheet with its nodes at other places. -/
def relocate (s : Sheet) : Sheet :=
  { s with nodes := relocateNodes f s.nodes }

def Head.relocate : Head → Head
  | .rule head => .rule (head.relocate f)
  | .atRule head => .atRule (head.relocate f)

def Cut.relocate : Cut → Cut
  | .done node rest => .done (node.relocate f) (rest.map (Token.relocate f))
  | .opened head brace body =>
    .opened (head.relocate f) (brace.relocate f) (body.map (Token.relocate f))

def Listing.relocate (l : Listing) : Listing :=
  ⟨relocateNodes f l.nodes, l.after, l.rest.map (Token.relocate f)⟩

theorem relocateNodes_eq_map (ns : List Node) : relocateNodes f ns = ns.map (Node.relocate f) := by
  induction ns with
  | nil => rfl
  | cons n ns ih => rw [relocateNodes, ih, List.map_cons]

theorem Head.node_relocate (h : Head) (body : List Node) (after : String) :
    (h.node body after).relocate f = (h.relocate f).node (relocateNodes f body) after := by
  cases h <;> simp only [Head.node, Node.relocate, Head.relocate]

theorem print_node_relocate (n : Node) : (n.relocate f).print = n.print := by
  have hnodes : ∀ {ns : List Node}, (∀ n ∈ ns, (n.relocate f).print = n.print) →
      printNodes (relocateNodes f ns) = printNodes ns := by
    intro ns h
    induction ns with
    | nil => rfl
    | cons n ns ih =>
      rw [relocateNodes, printNodes_cons, printNodes_cons, h n List.mem_cons_self,
        ih fun m hm => h m (List.mem_cons_of_mem n hm)]
  induction n using Node.induction with
  | rule head body after ih =>
    rw [Node.relocate, Node.print, Node.print, hnodes ih]
    rfl
  | atBlock head body after ih =>
    rw [Node.relocate, Node.print, Node.print, hnodes ih]
    rfl
  | atStatement head semicolon =>
    rw [Node.relocate, Node.print, Node.print]
    rfl
  | declaration d =>
    rw [Node.relocate, Node.print, Node.print]
    rfl
  | comment c => rw [Node.relocate, Node.print, Node.print]

/-- Offsets are not printed. -/
theorem print_relocate (s : Sheet) : (s.relocate f).print = s.print := by
  obtain ⟨nodes, after⟩ := s
  simp only [relocate, print]
  congr 1
  induction nodes with
  | nil => rfl
  | cons n ns ih => rw [relocateNodes, printNodes_cons, printNodes_cons, print_node_relocate, ih]

/-! ### Reading -/

theorem itemLength_relocate (nestBraces : Bool) (depth : Nat) (ts : List Token) :
    itemLength nestBraces depth (ts.map (Token.relocate f)) = itemLength nestBraces depth ts := by
  induction ts generalizing depth with
  | nil => rfl
  | cons t ts ih => simp only [List.map_cons, itemLength_cons, Token.kind_relocate, ih]

theorem itemFront_relocate (nestBraces : Bool) (ts : List Token) :
    itemFront nestBraces (ts.map (Token.relocate f)) =
      (itemFront nestBraces ts).map (Token.relocate f) := by
  rw [itemFront, itemFront, itemLength_relocate, List.map_take]

theorem itemEnd_relocate (nestBraces : Bool) (ts : List Token) :
    itemEnd nestBraces (ts.map (Token.relocate f)) =
      (itemEnd nestBraces ts).map (Token.relocate f) := by
  rw [itemEnd, itemEnd, itemLength_relocate, List.map_drop]

theorem trimEnd_relocate (ts : List Token) :
    trimEnd (ts.map (Token.relocate f)) = (trimEnd ts).map (Token.relocate f) := by
  rw [trimEnd, trimEnd, ← List.map_reverse, Token.dropWhile_relocate f fun _ => rfl,
    List.map_reverse]

theorem splitEnd_relocate (ts : List Token) :
    splitEnd (ts.map (Token.relocate f)) = splitEnd ts := by
  simp only [splitEnd, trimEnd_relocate, List.length_map, ← List.map_drop,
    Token.textOf_map_relocate]

theorem splitImportant_relocate (value : List Token) :
    splitImportant (value.map (Token.relocate f)) =
      ((splitImportant value).1.map (Token.relocate f),
        (splitImportant value).2.map (List.map (Token.relocate f))) := by
  unfold splitImportant
  rw [← List.map_reverse]
  cases value.reverse with
  | nil => rfl
  | cons last front =>
    simp only [List.map_cons, Token.kind_relocate, Token.text_relocate,
      Token.dropWhile_relocate f (p := Token.isWhitespace) fun _ => rfl]
    by_cases hl : (last.kind = .ident && Text.sameWord last.text "important") = true
    · rw [if_pos hl, if_pos hl]
      cases front.dropWhile Token.isWhitespace with
      | nil => rfl
      | cons bang front' =>
        simp only [List.map_cons, Token.kind_relocate,
          Token.dropWhile_relocate f (p := Token.isWhitespace) fun _ => rfl, ← List.map_reverse,
          List.length_map, ← List.map_drop]
        by_cases hb : bang.kind = .delim '!'
        · rw [if_pos hb, if_pos hb]
          rfl
        · rw [if_neg hb, if_neg hb]
          rfl
    · rw [if_neg hl, if_neg hl]
      rfl

theorem startsCustomProperty_relocate (ts : List Token) :
    startsCustomProperty (ts.map (Token.relocate f)) = startsCustomProperty ts := by
  cases ts with
  | nil => rfl
  | cons t ts =>
    simp only [List.map_cons, startsCustomProperty, Token.kind_relocate, Token.text_relocate,
      Token.dropWhile_relocate f (p := Token.isWhitespace) fun _ => rfl]
    cases ts.dropWhile Token.isWhitespace <;> rfl

theorem atHead_relocate (before : String) (t : Token) (rest : List Token) :
    atHead before (t.relocate f) (rest.map (Token.relocate f)) =
      (atHead before t rest).relocate f := by
  simp only [atHead, AtHead.relocate,
    Token.dropWhile_relocate f (p := Token.isWhitespace) fun _ => rfl,
    Token.takeWhile_relocate f (p := Token.isWhitespace) fun _ => rfl, itemFront_relocate,
    splitEnd_relocate, Token.textOf_map_relocate, Token.text_relocate]
  rfl

theorem atRuleCut_relocate (before : String) (t : Token) (rest : List Token) :
    atRuleCut before (t.relocate f) (rest.map (Token.relocate f)) =
      (atRuleCut before t rest).relocate f := by
  unfold atRuleCut
  rw [Token.dropWhile_relocate f fun _ => rfl, itemEnd_relocate, atHead_relocate]
  cases itemEnd false (rest.dropWhile Token.isWhitespace) with
  | nil => simp only [List.map_nil, Cut.relocate, Node.relocate]
  | cons u us =>
    simp only [List.map_cons, Token.kind_relocate]
    by_cases hbrace : u.kind = .leftBrace
    · rw [if_pos hbrace, if_pos hbrace]
      rfl
    rw [if_neg hbrace, if_neg hbrace]
    by_cases hsemicolon : u.kind = .semicolon
    · rw [if_pos hsemicolon, if_pos hsemicolon, Cut.relocate, Node.relocate]
    · rw [if_neg hsemicolon, if_neg hsemicolon, Cut.relocate, Node.relocate, List.map_cons]

theorem declarationOf_relocate (custom : Bool) (before : String) (t : Token) (between : String)
    (tail : List Token) :
    declarationOf custom before (t.relocate f) between (tail.map (Token.relocate f)) =
      (declarationOf custom before t between tail).relocate f := by
  have hsemicolon : ∀ ts : List Token, ((ts.map (Token.relocate f)).head?.any fun u =>
      u.kind = .semicolon) = ts.head?.any fun u => u.kind = .semicolon := by
    intro ts
    cases ts <;> rfl
  simp only [declarationOf, Declaration.relocate, itemFront_relocate, itemEnd_relocate,
    trimEnd_relocate, splitImportant_relocate, Token.textOf_map_relocate, Token.text_relocate,
    List.length_map, ← List.map_drop, hsemicolon, Option.map_map]
  congr 1
  cases (splitImportant (trimEnd (itemFront custom tail))).2 with
  | none => rfl
  | some mark => simp

theorem declarationCut_relocate (custom : Bool) (before : String) (t : Token)
    (rest : List Token) :
    declarationCut custom before (t.relocate f) (rest.map (Token.relocate f)) =
      (declarationCut custom before t rest).map (Cut.relocate f) := by
  unfold declarationCut
  rw [Token.dropWhile_relocate f fun _ => rfl]
  cases rest.dropWhile Token.isTrivia with
  | nil => rfl
  | cons colon behind =>
    simp only [List.map_cons, Token.kind_relocate, Token.text_relocate,
      Token.dropWhile_relocate f (p := Token.isWhitespace) fun _ => rfl,
      Token.takeWhile_relocate f (p := Token.isWhitespace) fun _ => rfl,
      Token.takeWhile_relocate f (p := Token.isTrivia) fun _ => rfl, Token.textOf_map_relocate,
      declarationOf_relocate, itemEnd_relocate]
    by_cases hk : (t.kind = .ident && colon.kind = .colon) = true
    · rw [if_pos hk, if_pos hk, Option.map_some, Cut.relocate, Node.relocate, List.map_drop]
    · rw [if_neg hk, if_neg hk, Option.map_none]

theorem ruleOrDeclarationCut_relocate (before : String) (t : Token) (rest : List Token) :
    ruleOrDeclarationCut before (t.relocate f) (rest.map (Token.relocate f)) =
      (ruleOrDeclarationCut before t rest).map (Cut.relocate f) := by
  unfold ruleOrDeclarationCut
  rw [← List.map_cons, startsCustomProperty_relocate, itemEnd_relocate, itemFront_relocate]
  by_cases hcustom : startsCustomProperty (t :: rest)
  · rw [if_pos hcustom, if_pos hcustom, declarationCut_relocate]
  · rw [if_neg hcustom, if_neg hcustom]
    cases itemEnd false (t :: rest) with
    | nil => exact declarationCut_relocate f false before t rest
    | cons brace body =>
      simp only [List.map_cons, Token.kind_relocate]
      by_cases hbrace : brace.kind = .leftBrace
      · rw [if_pos hbrace, if_pos hbrace]
        simp only [splitEnd_relocate]
        rfl
      · rw [if_neg hbrace, if_neg hbrace]
        exact declarationCut_relocate f false before t rest

/-- Cutting off an item does not depend on offsets. -/
theorem itemCut_relocate (before : String) (t : Token) (rest : List Token) :
    itemCut before (t.relocate f) (rest.map (Token.relocate f)) =
      (itemCut before t rest).map (Cut.relocate f) := by
  unfold itemCut
  rw [Token.kind_relocate]
  by_cases hcomment : t.kind.isComment
  · rw [if_pos hcomment, if_pos hcomment, Option.map_some, Cut.relocate, Node.relocate]
    rfl
  rw [if_neg hcomment, if_neg hcomment]
  by_cases hat : t.kind = .atKeyword
  · rw [if_pos hat, if_pos hat, atRuleCut_relocate, Option.map_some]
  · rw [if_neg hat, if_neg hat]
    exact ruleOrDeclarationCut_relocate f before t rest

/-- **Reading items does not depend on offsets.** -/
theorem Parsed.listing_relocate {limit depth : Nat} {ts : List Token} {items : Items ts.length}
    (h : Parsed limit depth ts items) :
    listing limit depth (ts.map (Token.relocate f)) = some (items.listing.relocate f) := by
  have hstep : ∀ {ts rest : List Token} {t : Token} {depth : Nat} {c : Cut},
      ts.dropWhile isFiller = t :: rest → t.kind ≠ .rightBrace →
      itemCut (Token.textOf (ts.takeWhile isFiller)) t rest = some c →
      listing limit depth (ts.map (Token.relocate f)) =
        listingFrom limit depth (c.relocate f) := by
    intro ts rest t depth c ht hk hi
    rw [listing_eq, Token.dropWhile_relocate f fun _ => rfl,
      Token.takeWhile_relocate f fun _ => rfl, ht, Token.textOf_map_relocate]
    simp only [List.map_cons, Token.kind_relocate]
    rw [if_neg hk, itemCut_relocate, hi, Option.map_some, Option.bind_some]
  induction h with
  | @finish depth ts ht =>
    rw [listing_eq, Token.dropWhile_relocate f fun _ => rfl,
      Token.takeWhile_relocate f fun _ => rfl, ht, Token.textOf_map_relocate]
    rfl
  | @close depth ts rest t ht hk =>
    rw [listing_eq, Token.dropWhile_relocate f fun _ => rfl,
      Token.takeWhile_relocate f fun _ => rfl, ht, Token.textOf_map_relocate]
    simp only [List.map_cons, Token.kind_relocate]
    rw [if_pos hk]
    rfl
  | @done depth ts rest rest' t node items hlt ht hk hi hp hle ih =>
    rw [hstep ht hk (itemCut_of_readItem hi)]
    simp only [Item.cut, Cut.relocate, listingFrom]
    rw [ih, Option.map_some]
    simp only [Listing.prepend, Listing.relocate, Items.listing, Items.cons, relocateNodes,
      List.singleton_append]
  | @block depth ts rest body rest' t brace u head block items hlt ht hk hi hd hb hr hp hle
      ihb ih =>
    rw [hstep ht hk (itemCut_of_readItem hi)]
    simp only [Item.cut, Cut.relocate, listingFrom]
    rw [if_neg (Nat.not_le.mpr hd), ihb, Option.bind_some]
    simp only [Listing.relocate, Items.listing, hr, List.map_cons]
    rw [ih, Option.map_some]
    simp only [Listing.prepend, Listing.relocate, Items.listing, Items.cons, relocateNodes,
      List.singleton_append, Head.node_relocate]

/-- What cannot be read can be read at no other place. -/
theorem listing_relocate {f g : Nat → Nat} (hg : Function.LeftInverse g f) (limit depth : Nat)
    (ts : List Token) :
    listing limit depth (ts.map (Token.relocate f)) =
      (listing limit depth ts).map (Listing.relocate f) := by
  cases h : (parseItems limit depth ts).result with
  | ok items =>
    rw [(parsed_of_parseItems h).listing_relocate, listing, h]
    rfl
  | error e =>
    rw [listing, listing, h]
    cases h' : (parseItems limit depth (ts.map (Token.relocate f))).result with
    | error e' => rfl
    | ok items =>
      -- moved back, the tokens could be read
      have hback := (parsed_of_parseItems h').listing_relocate g
      have hid : Token.relocate g ∘ Token.relocate f = id := by
        funext t
        simp [Token.relocate, hg t.start]
      rw [List.map_map, hid, List.map_id, listing, h] at hback
      cases hback

end Sheet

/-! ### Scoping -/

namespace Scope

open Sheet (AtHead Declaration Node RuleHead)

variable (f : Nat → Nat)

/-- A run along a list commutes with a change of its elements that each step
commutes with. -/
theorem mapM_map {α β α' β' : Type} {x : α → Traced Error β} {y : α' → Traced Error β'}
    {g : α → α'} {h : β → β'} {as : List α} (hx : ∀ a ∈ as, y (g a) = h <$> x a) :
    (as.map g).mapM y = List.map h <$> as.mapM x := by
  induction as with
  | nil => simp
  | cons a as ih =>
    rw [List.map_cons, List.mapM_cons, List.mapM_cons, hx a List.mem_cons_self,
      ih fun b hb => hx b (List.mem_cons_of_mem a hb)]
    simp

theorem localizeDeclaration_relocate (p : Place) (d : Declaration) :
    localizeDeclaration p (d.relocate f) = Declaration.relocate f <$> localizeDeclaration p d := by
  unfold localizeDeclaration
  rw [show route? p (d.relocate f) = route? p d from rfl]
  cases route? p d with
  | none => rfl
  | some route =>
    simp only [Declaration.relocate, map_bind]
    congr 1
    funext _
    congr 1
    funext ns
    congr 1
    funext _
    by_cases hv : Value.print (route.apply p ns) = d.value
    · rw [if_pos hv, if_pos hv]
      rfl
    · rw [if_neg hv, if_neg hv]
      rfl

theorem declarations_relocate (ns : List Node) :
    Sheet.declarations (ns.map (Node.relocate f)) =
      (Sheet.declarations ns).map (Declaration.relocate f) := by
  induction ns with
  | nil => rfl
  | cons n ns ih => cases n <;> simp [Node.relocate, Sheet.declarations, ih]

theorem setDeclarations_relocate (ds : List Declaration) (ns : List Node) :
    Sheet.setDeclarations (ds.map (Declaration.relocate f)) (ns.map (Node.relocate f)) =
      (Sheet.setDeclarations ds ns).map (Node.relocate f) := by
  induction ns generalizing ds with
  | nil => cases ds <;> simp [Sheet.setDeclarations]
  | cons n ns ih =>
    cases ds with
    | nil => simp [Sheet.setDeclarations]
    | cons d ds => cases n <;> simp [Node.relocate, Sheet.setDeclarations, ← ih]

theorem localizeDirect_relocate (p : Place) (ns : List Node) :
    localizeDirect p (ns.map (Node.relocate f)) =
      List.map (Declaration.relocate f) <$> localizeDirect p ns := by
  rw [localizeDirect, localizeDirect, declarations_relocate]
  exact mapM_map fun d _ => localizeDeclaration_relocate f p d

theorem localizeNode_relocate (p : Place) (n : Node) :
    localizeNode p (n.relocate f) = Node.relocate f <$> localizeNode p n := by
  induction n using Node.induction with
  | rule head body after ih =>
    simp only [Node.relocate, localizeNode, Sheet.relocateNodes_eq_map, localizeNested_eq_mapM,
      mapM_map ih, map_bind, bind_map_left, map_pure]
  | atBlock head body after ih =>
    simp only [Node.relocate, localizeNode, Sheet.relocateNodes_eq_map, localizeNested_eq_mapM,
      mapM_map ih, map_bind, bind_map_left, map_pure]
  | atStatement head semicolon => simp only [Node.relocate, localizeNode, map_pure]
  | declaration d =>
    simp only [Node.relocate, localizeNode, localizeDeclaration_relocate, map_bind, bind_map_left,
      map_pure]
  | comment c => simp only [Node.relocate, localizeNode, map_pure]

theorem resolveAtHead_relocate (job : Job) (head : AtHead) :
    resolveAtHead job (head.relocate f) = AtHead.relocate f <$> resolveAtHead job head := by
  unfold resolveAtHead
  by_cases hs : isScope head.name
  · rw [if_pos hs, if_pos hs]
    unfold resolvePrelude
    by_cases hp : head.params = ""
    · rw [if_pos hp, if_pos hp]
      rfl
    · rw [if_neg hp, if_neg hp]
      cases Prelude.parse? head.params with
      | none => rfl
      | some prelude => simp only [map_bind, map_pure]
  · rw [if_neg hs, if_neg hs]
    rfl

theorem resolveKeyframes_relocate (job : Job) (head : AtHead) :
    resolveKeyframes job (head.relocate f) =
      (fun (h, isGlobal) => (AtHead.relocate f h, isGlobal)) <$> resolveKeyframes job head := by
  unfold resolveKeyframes
  simp only [AtHead.relocate, map_bind, map_pure]

theorem atRuleNode_relocate (job : Job) (n : Node) :
    atRuleNode job (n.relocate f) = Node.relocate f <$> atRuleNode job n := by
  induction n using Node.induction with
  | rule head body after ih =>
    simp only [Node.relocate, atRuleNode, Sheet.relocateNodes_eq_map, atRulePass_eq_mapM,
      mapM_map ih, map_bind, bind_map_left, map_pure]
  | atBlock head body after ih =>
    rw [Node.relocate, atRuleNode, atRuleNode, Sheet.relocateNodes_eq_map]
    by_cases hk : isKeyframes head.name
    · have hnested : ∀ p, (body.map (Node.relocate f)).mapM (localizeNode p) =
          List.map (Node.relocate f) <$> body.mapM (localizeNode p) :=
        fun p => mapM_map fun n _ => localizeNode_relocate f p n
      rw [if_pos hk, if_pos hk, resolveKeyframes_relocate]
      simp only [localizeNested_eq_mapM, hnested, map_bind, bind_map_left, map_pure, Node.relocate,
        Sheet.relocateNodes_eq_map]
    · rw [if_neg hk, if_neg hk, resolveAtHead_relocate]
      simp only [atRulePass_eq_mapM, localizeDirect_relocate, mapM_map ih, map_bind, bind_map_left,
        map_pure, setDeclarations_relocate, Node.relocate, Sheet.relocateNodes_eq_map]
  | atStatement head semicolon =>
    rw [Node.relocate, atRuleNode, atRuleNode]
    by_cases hk : isKeyframes head.name
    · rw [if_pos hk, if_pos hk, resolveKeyframes_relocate]
      simp only [map_bind, bind_map_left, map_pure, Node.relocate]
    · rw [if_neg hk, if_neg hk, resolveAtHead_relocate]
      simp only [map_bind, bind_map_left, map_pure, Node.relocate]
  | declaration d => simp only [Node.relocate, atRuleNode, map_pure]
  | comment c => simp only [Node.relocate, atRuleNode, map_pure]

theorem ruleNode_relocate (job : Job) (inKeyframes parentIsPure : Bool) (n : Node) :
    ruleNode job inKeyframes parentIsPure (n.relocate f) =
      Node.relocate f <$> ruleNode job inKeyframes parentIsPure n := by
  induction n using Node.induction generalizing inKeyframes parentIsPure with
  | rule head body after ih =>
    rw [Node.relocate, ruleNode, ruleNode, Sheet.relocateNodes_eq_map]
    by_cases hk : inKeyframes
    · rw [if_pos hk, if_pos hk, map_pure, Node.relocate, Sheet.relocateNodes_eq_map]
    · have hbody : ∀ isPure, (body.map (Node.relocate f)).mapM (ruleNode job false isPure) =
          List.map (Node.relocate f) <$> body.mapM (ruleNode job false isPure) :=
        fun isPure => mapM_map fun n hn => ih n hn false isPure
      rw [if_neg hk, if_neg hk]
      simp only [rulePass_eq_mapM, localizeDirect_relocate, hbody, map_bind, bind_map_left,
        map_pure, setDeclarations_relocate, Node.relocate, Sheet.relocateNodes_eq_map]
  | atBlock head body after ih =>
    have hbody : ∀ inside, (body.map (Node.relocate f)).mapM (ruleNode job inside parentIsPure) =
        List.map (Node.relocate f) <$> body.mapM (ruleNode job inside parentIsPure) :=
      fun inside => mapM_map fun n hn => ih n hn inside parentIsPure
    simp only [Node.relocate, ruleNode, Sheet.relocateNodes_eq_map, rulePass_eq_mapM, hbody,
      map_bind, bind_map_left, map_pure]
  | atStatement head semicolon => simp only [Node.relocate, ruleNode, map_pure]
  | declaration d => simp only [Node.relocate, ruleNode, map_pure]
  | comment c => simp only [Node.relocate, ruleNode, map_pure]

theorem importedNames_relocate (ns : List Node) :
    importedNames (ns.map (Node.relocate f)) = importedNames ns := by
  induction ns with
  | nil => rfl
  | cons n ns ih =>
    cases n with
    | rule head body after =>
      simp only [List.map_cons, Node.relocate, importedNames, Sheet.relocateNodes_eq_map,
        declarations_relocate, List.map_map, ih]
      rfl
    | _ => simpa only [List.map_cons, Node.relocate, importedNames] using ih

/-- **Scoping does not depend on offsets.** -/
theorem process_relocate (options : Options) (s : Sheet) :
    process options (s.relocate f) = Sheet.relocate f <$> process options s := by
  simp only [process, Sheet.relocate, Sheet.relocateNodes_eq_map, importedNames_relocate,
    atRulePass_eq_mapM, rulePass_eq_mapM, mapM_map fun n _ => atRuleNode_relocate f _ n,
    mapM_map fun n _ => ruleNode_relocate f _ _ _ n, map_bind, bind_map_left, map_pure]

end Scope
end StyleScope
