/-
# Items that read alone

An item ends at a semicolon or a brace (`Cut.Ends`). Nothing behind its end has
an influence on how it is read, so it is read the same without what is behind
it (`itemCut_of_append`), as it is read the same with more behind it.

An `Entry` is a node with its place in the sheet and its own text, up to its
block. It reads alone if that text is read as a node of the same kind and
nothing else. Every node of a sheet that was read does, since the tokens of its
text are the tokens that it was read from (`Parsed.isRead`). A node that
is ended by the block around it needs the brace to do so.

Key definitions: `Sheet.Cut.Ends`, `Sheet.Entry`, `Sheet.entries`,
`Sheet.Entry.readsAlone`, `Sheet.Node.IsRead`.
Key theorems: `Sheet.itemCut_of_append`, `Sheet.Parsed.isRead`.
-/
import StyleScope.Proofs.Offsets
import StyleScope.Proofs.Seam

namespace StyleScope
namespace Sheet

open Token (EndsClosed StopsAt isTrivia isWhitespace textOf)

/-! ### What ends an item -/

theorem depthPast?_eq_none {nestBraces : Bool} {depth : Nat} {k : Token.Kind}
    (h : depthPast? nestBraces depth k = none) :
    k = .semicolon ∨ k = .rightBrace ∨ nestBraces = false ∧ k = .leftBrace := by
  cases nestBraces <;> cases k <;> simp_all [depthPast?]

theorem drop_itemLength_eq_cons {nestBraces : Bool} {depth : Nat} {ts us : List Token} {u : Token}
    (h : ts.drop (itemLength nestBraces depth ts) = u :: us) :
    u.kind = .semicolon ∨ u.kind = .rightBrace ∨ nestBraces = false ∧ u.kind = .leftBrace := by
  induction ts generalizing depth with
  | nil => cases h
  | cons t ts ih =>
    rw [itemLength_cons] at h
    cases hd : depthPast? nestBraces depth t.kind with
    | none =>
      rw [hd] at h
      obtain ⟨rfl, -⟩ := List.cons.inj h
      exact depthPast?_eq_none hd
    | some depth' =>
      rw [hd] at h
      simp only [Nat.add_comm 1, List.drop_succ_cons] at h
      exact ih h

/-- An item ends in front of a semicolon or a brace. -/
theorem itemEnd_eq_cons {nestBraces : Bool} {ts us : List Token} {u : Token}
    (h : itemEnd nestBraces ts = u :: us) :
    u.kind = .semicolon ∨ u.kind = .rightBrace ∨ nestBraces = false ∧ u.kind = .leftBrace :=
  drop_itemLength_eq_cons h

theorem itemEnd_suffix (nestBraces : Bool) (ts : List Token) : itemEnd nestBraces ts <:+ ts :=
  List.drop_suffix _ _

/-- The tokens that are left. -/
def Cut.rest : Cut → List Token
  | .done _ rest => rest
  | .opened _ _ body => body

/-- How a cut ends among the tokens `ts`. -/
inductive Cut.Ends (ts : List Token) : Cut → Prop where
  | opened {head : Head} {brace : Token} {body : List Token} (hk : brace.kind = .leftBrace)
    (hs : brace :: body <:+ ts) : Ends ts (.opened head brace body)
  | semicolon {node : Node} {u : Token} {rest : List Token} (hn : node.endsItself)
    (hk : u.kind = .semicolon) (hs : u :: rest <:+ ts) : Ends ts (.done node rest)
  /-- The item is ended by what stands around it. -/
  | around {node : Node} {rest : List Token} (hn : node.endsItself = false)
    (hr : StopsAt .rightBrace rest) (hs : rest <:+ ts) : Ends ts (.done node rest)
  | comment {c : Comment} {t : Token} {rest : List Token} (hk : t.kind.isComment)
    (hs : t :: rest <:+ ts) : Ends ts (.done (.comment c) rest)

theorem Cut.Ends.of_suffix {ts us : List Token} {c : Cut} (h : c.Ends us) (hs : us <:+ ts) :
    c.Ends ts := by
  cases h with
  | opened hk h => exact .opened hk (h.trans hs)
  | semicolon hn hk h => exact .semicolon hn hk (h.trans hs)
  | around hn hr h => exact .around hn hr (h.trans hs)
  | comment hk h => exact .comment hk (h.trans hs)

theorem Cut.Ends.rest_suffix {ts : List Token} {c : Cut} (h : c.Ends ts) : c.rest <:+ ts := by
  cases h with
  | opened hk h => exact (List.suffix_cons _ _).trans h
  | semicolon hn hk h => exact (List.suffix_cons _ _).trans h
  | around hn hr h => exact h
  | comment hk h => exact (List.suffix_cons _ _).trans h

section Ends

variable {custom : Bool} {before : String} {t : Token} {rest : List Token} {c : Cut}

theorem ends_atRuleCut (before : String) (t : Token) (rest : List Token) :
    (atRuleCut before t rest).Ends (t :: rest) := by
  have hsuffix := (itemEnd_suffix false (rest.dropWhile isWhitespace)).trans
    ((List.dropWhile_suffix _).trans (List.suffix_cons t rest))
  unfold atRuleCut
  cases hend : itemEnd false (rest.dropWhile isWhitespace) with
  | nil => exact .around rfl (Token.stopsAt_nil _) List.nil_suffix
  | cons u us =>
    rw [hend] at hsuffix
    dsimp only
    split
    next hbrace => exact .opened hbrace hsuffix
    next hbrace =>
      split
      next hsemicolon => exact .semicolon rfl hsemicolon hsuffix
      next hsemicolon =>
        have hk := (itemEnd_eq_cons hend).resolve_left hsemicolon
        have hk' : u.kind = .rightBrace := hk.resolve_right fun h => hbrace h.2
        exact .around rfl (Token.stopsAt_cons.mpr hk') hsuffix

theorem endsItself_declarationOf (custom : Bool) (before : String) (t : Token) (between : String)
    (tail : List Token) :
    (Node.declaration (declarationOf custom before t between tail)).endsItself =
      (itemEnd custom tail).head?.any fun u => u.kind = .semicolon :=
  rfl

theorem ends_declarationCut (hcustom : custom = false → ∀ brace body,
    itemEnd false (t :: rest) = brace :: body → brace.kind ≠ .leftBrace)
    (h : declarationCut custom before t rest = some c) : c.Ends (t :: rest) := by
  obtain ⟨colon, behind, hd, ht, hcolon, rfl⟩ := declarationCut_eq_some h
  have hbehind : behind <:+ t :: rest := by
    have := (List.dropWhile_suffix isTrivia).trans (List.suffix_cons t rest)
    rw [hd] at this
    exact (List.suffix_cons colon behind).trans this
  have hsuffix := (itemEnd_suffix custom (behind.dropWhile isWhitespace)).trans
    ((List.dropWhile_suffix _).trans hbehind)
  have hnode := endsItself_declarationOf custom before t
    (textOf (rest.takeWhile isTrivia) ++ colon.text ++ textOf (behind.takeWhile isWhitespace))
    (behind.dropWhile isWhitespace)
  cases hend : itemEnd custom (behind.dropWhile isWhitespace) with
  | nil =>
    rw [hend] at hnode
    exact .around hnode (Token.stopsAt_nil _) List.nil_suffix
  | cons u us =>
    rw [hend] at hnode hsuffix
    simp only [List.head?_cons, Option.any_some] at hnode ⊢
    by_cases hk : u.kind = .semicolon
    · simp only [hk, decide_true, if_true, List.drop_succ_cons, List.drop_zero] at hnode ⊢
      exact .semicolon hnode hk hsuffix
    · simp only [hk, decide_false, Bool.false_eq_true, if_false, List.drop_zero] at hnode ⊢
      have hbrace : u.kind = .rightBrace := by
        refine ((itemEnd_eq_cons hend).resolve_left hk).resolve_right fun ⟨hfalse, hleft⟩ => ?_
        subst hfalse
        rw [← itemEnd_of_dropWhile_isTrivia ht hd hcolon] at hend
        exact hcustom rfl u us hend hleft
      exact .around hnode (Token.stopsAt_cons.mpr hbrace) hsuffix

theorem ends_ruleOrDeclarationCut (h : ruleOrDeclarationCut before t rest = some c) :
    c.Ends (t :: rest) := by
  unfold ruleOrDeclarationCut at h
  split at h
  · exact ends_declarationCut (fun hfalse => by cases hfalse) h
  cases hend : itemEnd false (t :: rest) with
  | nil =>
    rw [hend] at h
    refine ends_declarationCut (fun _ brace body hcons => ?_) h
    rw [hend] at hcons
    cases hcons
  | cons brace body =>
    rw [hend] at h
    dsimp only at h
    split at h
    next hbrace =>
      rw [← Option.some.inj h]
      have hsuffix := itemEnd_suffix false (t :: rest)
      rw [hend] at hsuffix
      exact .opened hbrace hsuffix
    next hbrace =>
      refine ends_declarationCut (fun _ brace' body' hcons => ?_) h
      rw [hend] at hcons
      obtain ⟨rfl, -⟩ := List.cons.inj hcons
      exact hbrace

theorem ends_itemCut (h : itemCut before t rest = some c) : c.Ends (t :: rest) := by
  unfold itemCut at h
  split at h
  next hk =>
    rw [← Option.some.inj h]
    exact .comment hk (List.suffix_refl _)
  split at h
  · rw [← Option.some.inj h]
    exact ends_atRuleCut before t rest
  · exact ends_ruleOrDeclarationCut h

end Ends

/-! ### Items without what is behind them -/

theorem itemLength_of_append {nestBraces : Bool} {depth : Nat} {ts us : List Token}
    (h : itemLength nestBraces depth (ts ++ us) < ts.length) :
    itemLength nestBraces depth ts < ts.length := by
  induction ts generalizing depth with
  | nil => cases h
  | cons t ts ih =>
    rw [List.cons_append, itemLength_cons, List.length_cons] at h
    rw [itemLength_cons, List.length_cons]
    cases hd : depthPast? nestBraces depth t.kind with
    | none => exact Nat.succ_pos _
    | some depth' =>
      rw [hd] at h
      have hlt : 1 + itemLength nestBraces depth' (ts ++ us) < ts.length + 1 := h
      have hlt' : itemLength nestBraces depth' ts < ts.length := ih (by omega)
      change 1 + itemLength nestBraces depth' ts < ts.length + 1
      omega

/-- An end that is found in front of the tokens `us` is found without them. -/
theorem itemEnd_ne_nil_of_append {nestBraces : Bool} {ts : List Token} (us : List Token)
    (h : us.length < (itemEnd nestBraces (ts ++ us)).length) : itemEnd nestBraces ts ≠ [] := by
  rw [itemEnd, List.length_drop, List.length_append] at h
  have hlt : itemLength nestBraces 0 (ts ++ us) < ts.length := by omega
  have hlt' := itemLength_of_append hlt
  rw [itemEnd, Ne, List.drop_eq_nil_iff]
  omega

theorem dropWhile_ne_nil_of_append {p : Token → Bool} {ts : List Token} (us : List Token)
    (h : us.length < ((ts ++ us).dropWhile p).length) : ts.dropWhile p ≠ [] := by
  intro hnil
  rw [List.dropWhile_append, hnil, List.isEmpty_nil, if_pos rfl] at h
  exact absurd (List.dropWhile_suffix p).length_le (Nat.not_le.mpr h)

theorem Cut.append_inj (us : List Token) {c c' : Cut} (h : c.append us = c'.append us) :
    c = c' := by
  cases c with
  | done node rest =>
    cases c' with
    | done node' rest' =>
      obtain ⟨rfl, hrest⟩ := Cut.done.inj h
      rw [List.append_cancel_right hrest]
    | opened => cases h
  | opened head brace body =>
    cases c' with
    | done => cases h
    | opened head' brace' body' =>
      obtain ⟨rfl, rfl, hbody⟩ := Cut.opened.inj h
      rw [List.append_cancel_right hbody]

/-- How many tokens there are from the end of the item on. -/
def Cut.size : Cut → Nat
  | .done node rest => rest.length + if node.endsItself then 1 else 0
  | .opened _ _ body => body.length + 1

theorem Cut.size_append (us : List Token) (c : Cut) : (c.append us).size = us.length + c.size := by
  cases c with
  | done node rest =>
    simp only [append, size, List.length_append]
    omega
  | opened head brace body =>
    simp only [append, size, List.length_append]
    omega

theorem Cut.isClosed_iff {c : Cut} : c.IsClosed ↔ 0 < c.size := by
  cases c with
  | done node rest =>
    rw [IsClosed, size, ← List.length_pos_iff]
    split
    next h => simp [h]
    next h => simp [h]
  | opened head brace body => exact ⟨fun _ => Nat.succ_pos _, fun _ => trivial⟩

section OfAppend

variable {custom : Bool} {before : String} {t : Token} {rest us : List Token} {c : Cut}

theorem size_atRuleCut (before : String) (t : Token) (rest : List Token) :
    (atRuleCut before t rest).size = (itemEnd false (rest.dropWhile isWhitespace)).length := by
  unfold atRuleCut
  cases itemEnd false (rest.dropWhile isWhitespace) with
  | nil => rfl
  | cons u us =>
    dsimp only
    split
    · rfl
    split <;> rfl

theorem size_declarationCut (custom : Bool) (before : String) (t : Token) (between : String)
    (tail : List Token) :
    (Cut.done (.declaration (declarationOf custom before t between tail))
      ((itemEnd custom tail).drop (if (itemEnd custom tail).head?.any
        (fun u => u.kind = .semicolon) then 1 else 0))).size = (itemEnd custom tail).length := by
  cases hend : itemEnd custom tail with
  | nil => simp [Cut.size, Node.endsItself, declarationOf, hend]
  | cons u us =>
    by_cases hk : u.kind = .semicolon
    · simp [Cut.size, Node.endsItself, declarationOf, hend, hk]
    · simp [Cut.size, Node.endsItself, declarationOf, hend, hk]

theorem size_ruleOrDeclarationCut (hcustom : ¬ startsCustomProperty (t :: rest) = true)
    (h : ruleOrDeclarationCut before t rest = some c) :
    c.size = (itemEnd false (t :: rest)).length := by
  have hdeclaration : declarationCut false before t rest = some c →
      c.size = (itemEnd false (t :: rest)).length := by
    intro h
    obtain ⟨colon, behind, hd, ht, hcolon, rfl⟩ := declarationCut_eq_some h
    rw [size_declarationCut, itemEnd_of_dropWhile_isTrivia ht hd hcolon]
  rw [ruleOrDeclarationCut, if_neg hcustom] at h
  cases hend : itemEnd false (t :: rest) with
  | nil =>
    rw [hend] at h
    rw [hdeclaration h, hend]
  | cons brace body =>
    rw [hend] at h
    dsimp only at h
    split at h
    next =>
      rw [← Option.some.inj h]
      rfl
    next => rw [hdeclaration h, hend]

/-- Tokens behind an item that are more than `us` start in front of `us`. -/
theorem dropWhile_itemEnd_of_append {nestBraces : Bool} {p : Token → Bool}
    (h : us.length < (itemEnd nestBraces ((rest ++ us).dropWhile p)).length) :
    rest.dropWhile p ≠ [] ∧ itemEnd nestBraces (rest.dropWhile p) ≠ [] := by
  have hne : rest.dropWhile p ≠ [] :=
    dropWhile_ne_nil_of_append us (Nat.lt_of_lt_of_le h (itemEnd_suffix _ _).length_le)
  rw [dropWhile_append_of_dropWhile hne] at h
  exact ⟨hne, itemEnd_ne_nil_of_append us h⟩

theorem atRuleCut_of_append (h : atRuleCut before t (rest ++ us) = c.append us)
    (hc : c.IsClosed) : atRuleCut before t rest = c := by
  have hsize := congrArg Cut.size h
  rw [size_atRuleCut, Cut.size_append] at hsize
  have hpos := Cut.isClosed_iff.mp hc
  obtain ⟨-, hend⟩ := dropWhile_itemEnd_of_append (hsize ▸ Nat.lt_add_of_pos_right hpos)
  have hclosed : (atRuleCut before t rest).IsClosed := by
    rw [Cut.isClosed_iff, size_atRuleCut]
    exact List.length_pos_iff.mpr hend
  rw [atRuleCut_append hclosed] at h
  exact Cut.append_inj us h

theorem declarationCut_of_append
    (h : declarationCut custom before t (rest ++ us) = some (c.append us)) (hc : c.IsClosed) :
    declarationCut custom before t rest = some c := by
  obtain ⟨colon, behind, hd, ht, hcolon, hcut⟩ := declarationCut_eq_some h
  have hsize := congrArg Cut.size hcut
  rw [size_declarationCut, Cut.size_append] at hsize
  have hpos := Cut.isClosed_iff.mp hc
  have hlt : us.length < (itemEnd custom (behind.dropWhile isWhitespace)).length :=
    hsize ▸ Nat.lt_add_of_pos_right hpos
  -- the colon stands in front of `us` too
  have hne : rest.dropWhile isTrivia ≠ [] := by
    refine dropWhile_ne_nil_of_append us ?_
    rw [hd]
    have hle := (itemEnd_suffix custom (behind.dropWhile isWhitespace)).length_le
    have hle' := (List.dropWhile_suffix (l := behind) isWhitespace).length_le
    rw [List.length_cons]
    omega
  obtain ⟨colon', behind', hd'⟩ := List.exists_cons_of_ne_nil hne
  rw [dropWhile_append_of_dropWhile hne, hd', List.cons_append] at hd
  obtain ⟨rfl, rfl⟩ := List.cons.inj hd
  obtain ⟨-, hend⟩ := dropWhile_itemEnd_of_append hlt
  obtain ⟨c', hc'⟩ : ∃ c', declarationCut custom before t rest = some c' := by
    simp [declarationCut, hd', ht, hcolon]
  have hclosed : c'.IsClosed := by
    obtain ⟨colon'', behind'', hd'', -, -, rfl⟩ := declarationCut_eq_some hc'
    rw [hd'] at hd''
    obtain ⟨rfl, rfl⟩ := List.cons.inj hd''
    rw [Cut.isClosed_iff, size_declarationCut]
    exact List.length_pos_iff.mpr hend
  rw [declarationCut_append hc' hclosed] at h
  rw [hc', Cut.append_inj us (Option.some.inj h)]

/-- Trivia alone has no end. -/
theorem dropWhile_ne_nil_of_declarationCut (h : declarationCut custom before t rest = some c) :
    rest.dropWhile isWhitespace ≠ [] := by
  obtain ⟨colon, behind, hd, -⟩ := declarationCut_eq_some h
  intro hnil
  have hall : rest.dropWhile isTrivia = [] := by
    rw [List.dropWhile_eq_nil_iff] at hnil ⊢
    intro u hu
    have hblank : isWhitespace u := hnil u hu
    rw [isTrivia, of_decide_eq_true hblank]
    rfl
  rw [hall] at hd
  cases hd

theorem ruleOrDeclarationCut_of_append
    (h : ruleOrDeclarationCut before t (rest ++ us) = some (c.append us)) (hc : c.IsClosed) :
    ruleOrDeclarationCut before t rest = some c := by
  have hpos := Cut.isClosed_iff.mp hc
  by_cases hcustom : startsCustomProperty (t :: (rest ++ us)) = true
  · rw [ruleOrDeclarationCut, if_pos hcustom] at h
    have hcut := declarationCut_of_append h hc
    have hne := dropWhile_ne_nil_of_declarationCut hcut
    rw [startsCustomProperty_append fun _ => hne] at hcustom
    rw [ruleOrDeclarationCut, if_pos hcustom, hcut]
  · have hend : itemEnd false (t :: rest) ≠ [] := by
      refine itemEnd_ne_nil_of_append us ?_
      rw [List.cons_append, ← size_ruleOrDeclarationCut hcustom h, Cut.size_append]
      omega
    have hne : t.kind = .ident → rest.dropWhile isWhitespace ≠ [] :=
      fun ht => dropWhile_ne_nil_of_itemEnd ht hend
    obtain ⟨brace, body, hcons⟩ := List.exists_cons_of_ne_nil hend
    rw [startsCustomProperty_append hne] at hcustom
    rw [ruleOrDeclarationCut, startsCustomProperty_append hne, if_neg hcustom, ← List.cons_append,
      itemEnd_append hend, itemFront_append hend, hcons] at h
    rw [ruleOrDeclarationCut, if_neg hcustom, hcons]
    simp only [List.cons_append] at h ⊢
    split
    next hk =>
      rw [if_pos hk] at h
      exact congrArg some (Cut.append_inj us (Option.some.inj h))
    next hk =>
      rw [if_neg hk] at h
      exact declarationCut_of_append h hc

/-- **An item that has an end is read the same without what is behind it.** -/
theorem itemCut_of_append (h : itemCut before t (rest ++ us) = some (c.append us))
    (hc : c.IsClosed) : itemCut before t rest = some c := by
  unfold itemCut at h ⊢
  split
  next hk =>
    rw [if_pos hk] at h
    exact congrArg some (Cut.append_inj us (Option.some.inj h))
  next hk =>
    rw [if_neg hk] at h
    split
    next hat =>
      rw [if_pos hat] at h
      rw [atRuleCut_of_append (Option.some.inj h) hc]
    next hat =>
      rw [if_neg hat] at h
      exact ruleOrDeclarationCut_of_append h hc

end OfAppend

/-! ### Entries -/

/-- What a node is, apart from the texts that scoping may replace. -/
inductive Label where
  | rule
  | atBlock (name : String)
  | atStatement (name : String) (semicolon : Bool)
  | declaration (prop : String) (semicolon : Bool)
  | comment
  deriving DecidableEq, Repr

def Node.label : Node → Label
  | .rule _ _ _ => .rule
  | .atBlock head _ _ => .atBlock head.name
  | .atStatement head semicolon => .atStatement head.name semicolon
  | .declaration d => .declaration d.prop d.semicolon
  | .comment _ => .comment

/-- Whether a node of this kind has a block. -/
def Label.hasBlock : Label → Bool
  | .rule | .atBlock _ => true
  | _ => false

theorem hasBlock_label (n : Node) : n.label.hasBlock = n.hasBlock := by
  cases n <;> rfl

def Head.label : Head → Label
  | .rule _ => .rule
  | .atRule head => .atBlock head.name

def Cut.label : Cut → Label
  | .done node _ => node.label
  | .opened head _ _ => head.label

/-- A node in its place: how many blocks are around it, what it is, and its
text up to its block. -/
structure Entry where
  depth : Nat
  label : Label
  text : String
  deriving DecidableEq, Repr

mutual

/-- The node and all below it, in the order of the text. -/
def Node.entries (depth : Nat) : Node → List Entry
  | .rule head body _ => ⟨depth, .rule, head.print ++ "\x7b"⟩ :: entriesAmong (depth + 1) body
  | .atBlock head body _ =>
    ⟨depth, .atBlock head.name, head.print ++ "\x7b"⟩ :: entriesAmong (depth + 1) body
  | .atStatement head semicolon =>
    [⟨depth, .atStatement head.name semicolon, head.print ++ printSemicolon semicolon⟩]
  | .declaration d => [⟨depth, .declaration d.prop d.semicolon, d.print⟩]
  | .comment c => [⟨depth, .comment, c.before ++ c.text⟩]

/-- The nodes and all below them. -/
def entriesAmong (depth : Nat) : List Node → List Entry
  | [] => []
  | n :: ns => n.entries depth ++ entriesAmong depth ns

end

/-- The nodes of a sheet in the order of the text. -/
def entries (s : Sheet) : List Entry :=
  entriesAmong 0 s.nodes

theorem entries_node (h : Head) (depth : Nat) (body : List Node) (after : String) :
    (h.node body after).entries depth =
      ⟨depth, h.label, h.print ++ "\x7b"⟩ :: entriesAmong (depth + 1) body := by
  cases h <;> simp only [Head.node, Head.label, Head.print, Node.entries]

theorem entries_of_hasBlock {n : Node} (h : n.hasBlock = false) (depth : Nat) :
    n.entries depth = [⟨depth, n.label, n.print⟩] := by
  cases n with
  | rule => cases h
  | atBlock => cases h
  | _ => simp only [Node.entries, Node.label, Node.print]

theorem outline_node (h : Head) (depth : Nat) (body : List Node) (after : String) :
    (h.node body after).outline depth =
      (depth, h.node body after) :: outlineNodes (depth + 1) body := by
  cases h <;> simp only [Head.node, Node.outline]

theorem outline_of_hasBlock {n : Node} (h : n.hasBlock = false) (depth : Nat) :
    n.outline depth = [(depth, n)] := by
  cases n with
  | rule head body after => cases h
  | atBlock head body after => cases h
  | _ => simp only [Node.outline]

/-- The text of the node up to its block. -/
def Node.lead : Node → String
  | .rule head _ _ => head.print ++ "\x7b"
  | .atBlock head _ _ => head.print ++ "\x7b"
  | n => n.print

/-- The entry of the node in this depth. -/
def Node.entry (depth : Nat) (n : Node) : Entry :=
  ⟨depth, n.label, n.lead⟩

theorem entry_node (h : Head) (depth : Nat) (body : List Node) (after : String) :
    (h.node body after).entry depth = ⟨depth, h.label, h.print ++ "\x7b"⟩ := by
  cases h <;> rfl

theorem entry_of_hasBlock {n : Node} (h : n.hasBlock = false) (depth : Nat) :
    n.entry depth = ⟨depth, n.label, n.print⟩ := by
  cases n with
  | rule => cases h
  | atBlock => cases h
  | _ => rfl

theorem entries_of_not_hasBlock {n : Node} (h : n.hasBlock = false) (depth : Nat) :
    n.entries depth = (n.outline depth).map fun p => p.2.entry p.1 := by
  rw [entries_of_hasBlock h, outline_of_hasBlock h, List.map_singleton, entry_of_hasBlock h]

mutual

theorem entries_eq_map : ∀ (n : Node) (depth : Nat),
    n.entries depth = (n.outline depth).map fun p => p.2.entry p.1
  | .rule head body after, depth => by
    rw [Node.entries, Node.outline, List.map_cons, entriesAmong_eq_map body]
    rfl
  | .atBlock head body after, depth => by
    rw [Node.entries, Node.outline, List.map_cons, entriesAmong_eq_map body]
    rfl
  | .atStatement _ _, depth => entries_of_not_hasBlock rfl depth
  | .declaration _, depth => entries_of_not_hasBlock rfl depth
  | .comment _, depth => entries_of_not_hasBlock rfl depth

/-- The entries are those of the nodes in document order. -/
theorem entriesAmong_eq_map : ∀ (ns : List Node) (depth : Nat),
    entriesAmong depth ns = (outlineNodes depth ns).map fun p => p.2.entry p.1
  | [], _ => by rw [entriesAmong, outlineNodes, List.map_nil]
  | n :: ns, depth => by
    rw [entriesAmong, outlineNodes, List.map_append, entries_eq_map n, entriesAmong_eq_map ns]

end

/-! ### Reading one entry -/

/-- The first item, as far as it goes without reading a block. -/
def firstCut (ts : List Token) : Option Cut :=
  match ts.dropWhile isFiller with
  | [] => none
  | t :: rest =>
    if t.kind = .rightBrace then none
    else itemCut (textOf (ts.takeWhile isFiller)) t rest

/-- Whether a node of this kind is ended by what stands around it. -/
def Label.isOpenEnded : Label → Bool
  | .atStatement _ semicolon => !semicolon
  | .declaration _ semicolon => !semicolon
  | _ => false

/-- Whether the brace of the block around the node ends it. -/
def Entry.needsBrace (e : Entry) : Bool :=
  e.label.isOpenEnded && 0 < e.depth

/-- The text of the entry, with the brace that ends it. -/
def Entry.source (e : Entry) : String :=
  e.text ++ if e.needsBrace then "\x7d" else ""

/-- Whether the text of the entry is read as a node of the same kind, and as
nothing else. -/
def Entry.readsAlone (e : Entry) : Bool :=
  (firstCut (Token.lex e.source)).any fun c =>
    c.label = e.label && c.rest.map (·.kind) = if e.needsBrace then [.rightBrace] else []

theorem firstCut_eq_some {ts : List Token} {c : Cut} (h : firstCut ts = some c) :
    ∃ t rest, ts.dropWhile isFiller = t :: rest ∧ t.kind ≠ .rightBrace ∧
      itemCut (textOf (ts.takeWhile isFiller)) t rest = some c := by
  unfold firstCut at h
  split at h
  next => cases h
  next t rest ht =>
    split at h
    next => cases h
    next hk => exact ⟨t, rest, ht, hk, h⟩

theorem firstCut_of_dropWhile {ts rest : List Token} {t : Token}
    (ht : ts.dropWhile isFiller = t :: rest) (hk : t.kind ≠ .rightBrace) :
    firstCut ts = itemCut (textOf (ts.takeWhile isFiller)) t rest := by
  rw [firstCut, ht]
  exact if_neg hk

theorem listing_of_firstCut {limit depth : Nat} {ts : List Token} {c : Cut}
    (h : firstCut ts = some c) : listing limit depth ts = listingFrom limit depth c := by
  obtain ⟨t, rest, ht, hk, hi⟩ := firstCut_eq_some h
  rw [listing_eq, ht]
  dsimp only
  rw [if_neg hk, hi, Option.bind_some]

theorem listing_append_of_firstCut {limit depth : Nat} {ts : List Token} {c : Cut}
    (h : firstCut ts = some c) (hc : c.IsClosed) (us : List Token) :
    listing limit depth (ts ++ us) = listingFrom limit depth (c.append us) := by
  obtain ⟨t, rest, ht, hk, hi⟩ := firstCut_eq_some h
  exact listing_of_dropWhile ht hk hi hc us

theorem firstCut_relocate (f : Nat → Nat) (ts : List Token) :
    firstCut (ts.map (Token.relocate f)) = (firstCut ts).map (Cut.relocate f) := by
  rw [firstCut, firstCut, Token.dropWhile_relocate f fun _ => rfl,
    Token.takeWhile_relocate f fun _ => rfl, Token.textOf_map_relocate]
  cases ts.dropWhile isFiller with
  | nil => rfl
  | cons t rest =>
    simp only [List.map_cons, Token.kind_relocate]
    split
    · rfl
    · exact itemCut_relocate f _ t rest

theorem length_rest_of_itemCut {before : String} {t : Token} {rest : List Token} {c : Cut}
    (h : itemCut before t rest = some c) : c.rest.length ≤ rest.length := by
  rw [← cut_readItem] at h
  obtain ⟨item, -, rfl⟩ := Option.map_eq_some_iff.mp h
  cases item with
  | done node rest' hlt => exact Nat.le_of_lt_succ hlt
  | opened head brace body hlt => exact Nat.le_of_lt_succ hlt

/-- The first item that has an end is read the same without what is behind it. -/
theorem firstCut_of_append {us vs : List Token} {c : Cut}
    (h : firstCut (us ++ vs) = some (c.append vs)) (hc : c.IsClosed) : firstCut us = some c := by
  obtain ⟨t, rest, ht, hk, hi⟩ := firstCut_eq_some h
  have hne : us.dropWhile isFiller ≠ [] := by
    refine dropWhile_ne_nil_of_append vs ?_
    have hle := length_rest_of_itemCut hi
    have happend : vs.length ≤ (c.append vs).rest.length := by
      cases c <;> simp [Cut.append, Cut.rest]
    rw [ht, List.length_cons]
    omega
  rw [dropWhile_append_of_dropWhile hne] at ht
  rw [takeWhile_append_of_dropWhile hne] at hi
  obtain ⟨t', rest', ht'⟩ := List.exists_cons_of_ne_nil hne
  rw [ht', List.cons_append] at ht
  obtain ⟨rfl, rfl⟩ := List.cons.inj ht
  rw [firstCut_of_dropWhile ht' hk]
  exact itemCut_of_append hi hc

theorem Cut.label_relocate (f : Nat → Nat) (c : Cut) : (c.relocate f).label = c.label := by
  cases c with
  | done node rest => cases node <;> simp only [Cut.relocate, Node.relocate, Cut.label, Node.label]
  | opened head brace body => cases head <;> rfl

theorem Cut.kinds_relocate (f : Nat → Nat) (c : Cut) :
    (c.relocate f).rest.map (·.kind) = c.rest.map (·.kind) := by
  cases c <;> simp [Cut.relocate, Cut.rest]

/-- An entry reads alone if its tokens do, wherever they stand. -/
theorem Entry.readsAlone_iff {e : Entry} (start : Nat) :
    e.readsAlone ↔ ∃ c, firstCut (Token.lexFrom start e.source.toList) = some c ∧
      c.label = e.label ∧ c.rest.map (·.kind) = if e.needsBrace then [.rightBrace] else [] := by
  rw [← Nat.zero_add start, Token.lexFrom_add, firstCut_relocate, readsAlone]
  simp only [Option.any_eq_true, Option.map_eq_some_iff, Bool.and_eq_true, decide_eq_true_eq]
  constructor
  · rintro ⟨c, hc, hl, hr⟩
    refine ⟨_, ⟨c, hc, rfl⟩, ?_, ?_⟩
    · rw [Cut.label_relocate, hl]
    · rw [Cut.kinds_relocate, hr]
  · rintro ⟨_, ⟨c, hc, rfl⟩, hl, hr⟩
    rw [Cut.label_relocate] at hl
    rw [Cut.kinds_relocate] at hr
    exact ⟨c, hc, hl, hr⟩

theorem Entry.source_of_not {e : Entry} (h : e.needsBrace = false) : e.source = e.text := by
  rw [source, h, if_neg Bool.false_ne_true, String.append_empty]

theorem Entry.source_of_needsBrace {e : Entry} (h : e.needsBrace) :
    e.source = e.text ++ "\x7d" := by
  rw [source, if_pos h]

/-- Without a brace the text is read to its end. -/
theorem Entry.readsAlone_iff_of_not {e : Entry} (h : e.needsBrace = false) (start : Nat) :
    e.readsAlone ↔ ∃ c, firstCut (Token.lexFrom start e.text.toList) = some c ∧
      c.label = e.label ∧ c.rest = [] := by
  rw [readsAlone_iff start, source_of_not h, h]
  simp only [Bool.false_eq_true, if_false, List.map_eq_nil_iff]

/-- With a brace the text is read up to it. -/
theorem Entry.readsAlone_iff_of_needsBrace {e : Entry} (h : e.needsBrace) (start : Nat) :
    e.readsAlone ↔ ∃ c u, firstCut (Token.lexFrom start (e.text ++ "\x7d").toList) = some c ∧
      c.label = e.label ∧ c.rest = [u] ∧ u.kind = .rightBrace := by
  rw [readsAlone_iff start, source_of_needsBrace h, h]
  simp only [if_true, List.map_eq_singleton_iff]
  constructor
  · rintro ⟨c, hc, hl, u, hu, hk⟩
    exact ⟨c, u, hc, hl, hu, hk⟩
  · rintro ⟨c, u, hc, hl, hu, hk⟩
    exact ⟨c, hc, hl, u, hu, hk⟩

/-- Tokens up to a closed one. -/
theorem endsClosed_of_append {taken rest : List Token} {u : Token}
    (h : u :: rest <:+ taken ++ rest) (hu : u.kind.isClosed) : EndsClosed taken := by
  obtain ⟨front, hfront⟩ := h
  rw [← List.singleton_append, ← List.append_assoc] at hfront
  exact Token.endsClosed_of_suffix ⟨front, List.append_cancel_right hfront⟩ hu

theorem hasBlock_of_firstCut {ts rest : List Token} {n : Node}
    (h : firstCut ts = some (.done n rest)) : n.hasBlock = false := by
  obtain ⟨t, rest', -, -, hi⟩ := firstCut_eq_some h
  exact hasBlock_of_itemCut hi

theorem isOpenEnded_label (n : Node) : n.label.isOpenEnded = !n.endsItself := by
  cases n <;> rfl

theorem ends_of_firstCut {ts : List Token} {c : Cut} (h : firstCut ts = some c) : c.Ends ts := by
  obtain ⟨t, rest, ht, -, hi⟩ := firstCut_eq_some h
  have hsuffix := List.dropWhile_suffix (l := ts) isFiller
  rw [ht] at hsuffix
  exact (ends_itemCut hi).of_suffix hsuffix

/-- The cut is where the node ends, or where its block starts. -/
def Cut.IsOf (n : Node) : Cut → Prop
  | .done m _ => n = m
  | .opened head _ _ => ∃ body after, n = head.node body after

theorem Cut.IsOf.label_eq {n : Node} {c : Cut} (h : c.IsOf n) : c.label = n.label := by
  cases c with
  | done m rest => exact congrArg Node.label (Eq.symm h)
  | opened head brace body =>
    obtain ⟨body, after, rfl⟩ := h
    cases head <;> rfl

/-- The node is read from its own text, up to its block. -/
def Node.IsRead (depth : Nat) (n : Node) : Prop :=
  ∃ start c, firstCut (Token.lexFrom start (n.entry depth).source.toList) = some c ∧ c.IsOf n ∧
    c.rest.map (·.kind) = if (n.entry depth).needsBrace then [.rightBrace] else []

theorem Node.IsRead.readsAlone {depth : Nat} {n : Node} (h : n.IsRead depth) :
    (n.entry depth).readsAlone := by
  obtain ⟨start, c, hc, hn, hrest⟩ := h
  exact (Entry.readsAlone_iff start).mpr ⟨c, hc, hn.label_eq, hrest⟩

/-- What is in the block does not matter. -/
theorem isRead_rule {depth : Nat} {head : RuleHead} {body body' : List Node} {after after' : String}
    (h : (Node.rule head body after).IsRead depth) :
    (Node.rule head body' after').IsRead depth := by
  obtain ⟨start, c, hfirst, hof, hrest⟩ := h
  refine ⟨start, c, hfirst, ?_, hrest⟩
  cases c with
  | done m rest =>
    have hblock := hasBlock_of_firstCut hfirst
    rw [← (hof : Node.rule head body after = m)] at hblock
    cases hblock
  | opened head' brace rest =>
    obtain ⟨_, _, hnode⟩ := hof
    cases head' with
    | rule head' =>
      cases hnode
      exact ⟨_, _, rfl⟩
    | atRule head' => cases hnode

/-- A node without a block is read from its own text. -/
theorem isRead_of_done {depth start : Nat} {cs : List Char} {taken rest : List Token}
    {node : Node} (hlex : Token.lexFrom start cs = taken ++ rest)
    (htext : textOf taken = node.print) (hfirst : firstCut (taken ++ rest) = some (.done node rest))
    (hd : StopsAt .rightBrace rest → (rest = [] ↔ depth = 0)) (hl : node.label ≠ .comment) :
    node.IsRead depth := by
  have hentry := entry_of_hasBlock (hasBlock_of_firstCut hfirst) depth
  rw [Node.IsRead, hentry]
  cases ends_of_firstCut hfirst with
  | semicolon hn hk hs =>
    have hbrace : (Entry.mk depth node.label node.print).needsBrace = false := by
      simp [Entry.needsBrace, isOpenEnded_label, hn]
    have hclosed : EndsClosed taken := endsClosed_of_append hs (by rw [hk]; rfl)
    have htaken := Token.lexFrom_of_append hlex hclosed
    rw [Entry.source_of_not hbrace, hbrace]
    refine ⟨start, .done node [], ?_, rfl, rfl⟩
    rw [← htext, htaken]
    exact firstCut_of_append hfirst (.inr hn)
  | around hn hr =>
    cases rest with
    | nil =>
      have hbrace : (Entry.mk depth node.label node.print).needsBrace = false := by
        simp [Entry.needsBrace, (hd hr).mp rfl]
      rw [List.append_nil] at hlex hfirst
      have hcs := Token.textOf_lexFrom start cs
      rw [hlex, htext] at hcs
      rw [Entry.source_of_not hbrace, hbrace]
      refine ⟨start, .done node [], ?_, rfl, rfl⟩
      rw [hcs, String.toList_ofList, hlex]
      exact hfirst
    | cons v vs =>
      have hv := Token.stopsAt_cons.mp hr
      have hdepth : 0 < depth := Nat.pos_of_ne_zero fun hzero => nomatch (hd hr).mpr hzero
      have hbrace : (Entry.mk depth node.label node.print).needsBrace = true := by
        simp [Entry.needsBrace, isOpenEnded_label, hn, hdepth]
      have hclosed : EndsClosed (taken ++ [v]) :=
        Token.endsClosed_of_suffix (List.suffix_append taken [v]) (by rw [hv]; rfl)
      have hmem : v ∈ Token.lexFrom start cs := by
        rw [hlex]
        exact List.mem_append_right taken List.mem_cons_self
      have hspelled := Token.isSpelled_of_mem_lexFrom hmem
      rw [← List.singleton_append, ← List.append_assoc] at hlex hfirst
      have htaken := Token.lexFrom_of_append hlex hclosed
      have hsource : node.print ++ "\x7d" = textOf (taken ++ [v]) := by
        rw [Token.textOf_append, htext]
        simp [hspelled.text_eq (c := '\x7d') (by rw [hv]; rfl)]
      rw [Entry.source_of_needsBrace hbrace, hbrace]
      refine ⟨start, .done node [v], ?_, rfl, by simp [Cut.rest, hv]⟩
      rw [hsource, htaken]
      exact firstCut_of_append hfirst (.inl (List.cons_ne_nil v []))
  | comment => exact absurd rfl hl

/-- The head of a block is read from its own text. -/
theorem isRead_of_opened {start : Nat} {cs : List Char} {taken body : List Token}
    {head : Head} {brace : Token} (hlex : Token.lexFrom start cs = taken ++ body)
    (htext : textOf taken = head.print ++ "\x7b")
    (hfirst : firstCut (taken ++ body) = some (.opened head brace body)) (depth : Nat)
    (nodes : List Node) (after : String) : (head.node nodes after).IsRead depth := by
  have hbrace : (Entry.mk depth head.label (head.print ++ "\x7b")).needsBrace = false := by
    cases head <;> rfl
  rw [Node.IsRead, entry_node, Entry.source_of_not hbrace, hbrace]
  cases ends_of_firstCut hfirst with
  | opened hk hs =>
    have hclosed : EndsClosed taken := endsClosed_of_append hs (by rw [hk]; rfl)
    have htaken := Token.lexFrom_of_append hlex hclosed
    refine ⟨start, .opened head brace [], ?_, ⟨nodes, after, rfl⟩, rfl⟩
    rw [← htext, htaken]
    exact firstCut_of_append hfirst trivial

section Lexed

variable {start : Nat} {cs : List Char} {ts rest : List Token} {t : Token}

/-- The tokens of an item without a block, and those behind it, are tokens of
texts. -/
theorem lexed_of_done {node : Node} {rest' : List Token} {hlt : rest'.length < rest.length + 1}
    (hts : Token.lexFrom start cs = ts) (ht : ts.dropWhile isFiller = t :: rest)
    (hk : t.kind ≠ .rightBrace)
    (hi : (readItem (textOf (ts.takeWhile isFiller)) t rest).result = .ok (.done node rest' hlt)) :
    firstCut ts = some (.done node rest') ∧
      (∃ taken, ts = taken ++ rest' ∧ textOf taken = node.print) ∧
      ∃ start' cs', Token.lexFrom start' cs' = rest' := by
  have hs : ∀ v ∈ ts, v.IsSpelled := fun v hv => Token.isSpelled_of_mem_lexFrom (hts ▸ hv)
  obtain ⟨taken, htaken, htext⟩ := reads_of_done hs ht hi
  obtain ⟨cs', -, hrest⟩ := Token.lexFrom_eq_append (hts.trans htaken)
  exact ⟨(firstCut_of_dropWhile ht hk).trans (itemCut_of_readItem hi), ⟨taken, htaken, htext⟩,
    _, cs', hrest.symm⟩

/-- The tokens of a head, of its block and behind it are tokens of texts. -/
theorem lexed_of_opened {limit depth : Nat} {head : Head} {brace u : Token}
    {body rest' : List Token} {hlt : body.length < rest.length + 1} {block : Items body.length}
    (hts : Token.lexFrom start cs = ts) (ht : ts.dropWhile isFiller = t :: rest)
    (hk : t.kind ≠ .rightBrace)
    (hi : (readItem (textOf (ts.takeWhile isFiller)) t rest).result =
      .ok (.opened head brace body hlt))
    (hb : Parsed limit depth body block) (hr : block.rest = u :: rest') :
    firstCut ts = some (.opened head brace body) ∧
      (∃ taken, ts = taken ++ body ∧ textOf taken = head.print ++ "\x7b") ∧
      (∃ start' cs', Token.lexFrom start' cs' = body) ∧
      ∃ start' cs', Token.lexFrom start' cs' = rest' := by
  have hs : ∀ v ∈ ts, v.IsSpelled := fun v hv => Token.isSpelled_of_mem_lexFrom (hts ▸ hv)
  have hread := reads_of_opened hs ht hi
  have hbody := hread.isSpelled hs
  obtain ⟨taken, htaken, htext⟩ := hread
  obtain ⟨cs', -, hrest⟩ := Token.lexFrom_eq_append (hts.trans htaken)
  -- the block ends in the token `u`
  obtain ⟨inside, hinside, -⟩ := (hb.reads hbody).1
  rw [hr, ← List.singleton_append, ← List.append_assoc] at hinside
  obtain ⟨cs'', -, hrest'⟩ := Token.lexFrom_eq_append (hrest.symm.trans hinside)
  exact ⟨(firstCut_of_dropWhile ht hk).trans (itemCut_of_readItem hi), ⟨taken, htaken, htext⟩,
    ⟨_, cs', hrest.symm⟩, _, cs'', hrest'.symm⟩

end Lexed

/-- **A node is read from its own text**, except for comments, of which the last
may be cut off. -/
theorem Parsed.isRead {limit depth : Nat} {ts : List Token} {items : Items ts.length}
    (h : Parsed limit depth ts items) {start : Nat} {cs : List Char}
    (hts : Token.lexFrom start cs = ts) (hd : items.rest = [] ↔ depth = 0) :
    ∀ p ∈ outlineNodes depth items.nodes, p.2.label ≠ .comment → p.2.IsRead p.1 := by
  induction h generalizing start cs with
  | finish => exact fun p hp => nomatch hp
  | close => exact fun p hp => nomatch hp
  | @done depth ts rest rest' t node items hlt ht hk hi hp hle ih =>
    obtain ⟨hfirst, ⟨taken, rfl, htext⟩, start', cs', hrest⟩ := lexed_of_done hts ht hk hi
    intro p hp' hl
    rw [Items.cons, outlineNodes, outline_of_hasBlock (hasBlock_of_firstCut hfirst),
      List.singleton_append, List.mem_cons] at hp'
    rcases hp' with rfl | hp'
    · refine isRead_of_done hts htext hfirst (fun hstops => ?_) hl
      rw [← (hp.of_stopsAt hstops).2.2]
      exact hd
    · exact ih hrest hd p hp' hl
  | @block depth ts rest body rest' t brace u head block items hlt ht hk hi hdepth hb hr hp hle
      ihb ih =>
    obtain ⟨hfirst, ⟨taken, rfl, htext⟩, ⟨start', cs', hbody⟩, start'', cs'', hrest⟩ :=
      lexed_of_opened hts ht hk hi hb hr
    intro p hp' hl
    rw [Items.cons, outlineNodes, outline_node, List.cons_append, List.mem_cons,
      List.mem_append] at hp'
    rcases hp' with rfl | hp' | hp'
    · exact isRead_of_opened hts htext hfirst depth _ _
    · exact ihb hbody (by simp [hr]) p hp' hl
    · exact ih hrest hd p hp' hl

/-- The nodes of a sheet are read from their own texts, except for comments. -/
theorem isRead_of_parse {source : String} {s : Sheet} (h : (parse source).result = .ok s) :
    ∀ p ∈ outlineNodes 0 s.nodes, p.2.label ≠ .comment → p.2.IsRead p.1 := by
  obtain ⟨items, hitems, heq⟩ := parse_eq_ok.mp h
  obtain ⟨hnodes, -, hrest⟩ := Listing.mk.inj heq
  rw [← hnodes]
  exact (parsed_of_parseItems hitems).isRead rfl (iff_of_true hrest rfl)

end Sheet
end StyleScope
