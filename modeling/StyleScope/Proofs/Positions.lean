/-
# Where nodes stand in the source

A node keeps the byte offset where its own text starts, which was taken from a
token when the node was read. What is printed in front of it is known only
afterwards: text goes from one node to another until the whole is read. A front
is the text that a printed tree has in front of a node (`Sheet.fronts`,
`Selector.Tree.fronts`), and `Reads` says that the tokens taken so far have just
this text. So the induction over what was read carries the front along, and the
next token starts where the front stops (`Token.startOf_of_reads`).

An alternative of a selector list starts with the white space in it; every other
node starts behind the text in front of it.

Key definitions: `Sheet.fronts`, `Selector.Tree.fronts`.
Key theorems: `Sheet.Parsed.offset_eq`, `Selector.Parsed.isExact`,
`positions_exact`.
-/
import StyleScope.Proofs.Excerpts
import StyleScope.Proofs.SelectorPrint

namespace StyleScope

/-- The tokens left start behind the text of those that were taken. -/
theorem Token.startOf_of_reads {source text : String} {ts : List Token}
    (h : Reads (lex source) text ts) : startOf source.utf8ByteSize ts = text.utf8ByteSize := by
  cases ts with
  | nil =>
    rw [h.eq_textOf, textOf_lex]
    rfl
  | cons t ts => exact start_of_reads h

/-! ### Sheets -/

namespace Sheet

open Token (Reads)

/-- The text in front of a node that belongs to it. -/
def Node.before : Node → String
  | .rule head _ _ => head.before
  | .atBlock head _ _ => head.before
  | .atStatement head _ => head.before
  | .declaration d => d.before
  | .comment c => c.before

def Node.offset : Node → Nat
  | .rule head _ _ => head.offset
  | .atBlock head _ _ => head.offset
  | .atStatement head _ => head.offset
  | .declaration d => d.offset
  | .comment c => c.offset

/-- The text that starts at the offset: the selector, the name with its `@`, the
property or the comment. -/
def Node.ownText : Node → String
  | .rule head _ _ => head.selector
  | .atBlock head _ _ => "@" ++ head.name
  | .atStatement head _ => "@" ++ head.name
  | .declaration d => d.prop
  | .comment c => c.text

mutual

/-- The node and all below it in document order, each with what is printed in
front of its own text if `front` is printed in front of the node. -/
def Node.fronts (front : String) : Node → List (String × Node)
  | .rule head body after =>
    (front ++ head.before, .rule head body after) ::
      frontsAmong (front ++ head.print ++ "\x7b") body
  | .atBlock head body after =>
    (front ++ head.before, .atBlock head body after) ::
      frontsAmong (front ++ head.print ++ "\x7b") body
  | .atStatement head semicolon => [(front ++ head.before, .atStatement head semicolon)]
  | .declaration d => [(front ++ d.before, .declaration d)]
  | .comment c => [(front ++ c.before, .comment c)]

/-- All nodes in document order with what is printed in front of their own text. -/
def frontsAmong (front : String) : List Node → List (String × Node)
  | [] => []
  | n :: ns => n.fronts front ++ frontsAmong (front ++ n.print) ns

end

/-- The nodes of a sheet with what is printed in front of their own text. -/
def fronts (s : Sheet) : List (String × Node) :=
  frontsAmong "" s.nodes

def Head.before : Head → String
  | .rule head => head.before
  | .atRule head => head.before

def Head.offset : Head → Nat
  | .rule head => head.offset
  | .atRule head => head.offset

def Cut.before : Cut → String
  | .done node _ => node.before
  | .opened head _ _ => head.before

def Cut.offset : Cut → Nat
  | .done node _ => node.offset
  | .opened head _ _ => head.offset

theorem fronts_node (h : Head) (front : String) (body : List Node) (after : String) :
    (h.node body after).fronts front =
      (front ++ h.before, h.node body after) :: frontsAmong (front ++ h.print ++ "\x7b") body := by
  cases h <;> simp only [Head.node, Node.fronts, Head.before, Head.print]

theorem offset_node (h : Head) (body : List Node) (after : String) :
    (h.node body after).offset = h.offset := by
  cases h <;> rfl

theorem fronts_of_hasBlock {n : Node} (h : n.hasBlock = false) (front : String) :
    n.fronts front = [(front ++ n.before, n)] := by
  cases n with
  | rule head body after => cases h
  | atBlock head body after => cases h
  | _ => simp only [Node.fronts, Node.before]

mutual

/-- The fronts leave no node out. -/
theorem map_snd_fronts : ∀ (n : Node) (front : String) (depth : Nat),
    (n.fronts front).map Prod.snd = (n.outline depth).map Prod.snd
  | .rule head body after, front, depth => by
    simp only [Node.fronts, Node.outline, List.map_cons, map_snd_frontsAmong body _ (depth + 1)]
  | .atBlock head body after, front, depth => by
    simp only [Node.fronts, Node.outline, List.map_cons, map_snd_frontsAmong body _ (depth + 1)]
  | .atStatement head semicolon, front, depth => by simp [Node.fronts, Node.outline]
  | .declaration d, front, depth => by simp [Node.fronts, Node.outline]
  | .comment c, front, depth => by simp [Node.fronts, Node.outline]

theorem map_snd_frontsAmong : ∀ (ns : List Node) (front : String) (depth : Nat),
    (frontsAmong front ns).map Prod.snd = (outlineNodes depth ns).map Prod.snd
  | [], front, depth => by simp [frontsAmong, outlineNodes]
  | n :: ns, front, depth => by
    simp only [frontsAmong, outlineNodes, List.map_append, map_snd_fronts n _ depth,
      map_snd_frontsAmong ns _ depth]

end

mutual

theorem standsBehind_fronts : ∀ (n : Node) (front : String),
    ∀ p ∈ n.fronts front, StandsBehind p.1 p.2.ownText (front ++ n.print)
  | .rule head body after, front, p, hp => by
    rw [Node.fronts, List.mem_cons] at hp
    rw [Node.print]
    rcases hp with rfl | hp
    · refine ⟨head.between ++ "\x7b" ++ printNodes body ++ after ++ "\x7d", ?_⟩
      simp only [Node.ownText, RuleHead.print, String.append_assoc]
    · have hbody := (standsBehind_frontsAmong body _ p hp).append (after ++ "\x7d")
      simpa only [String.append_assoc] using hbody
  | .atBlock head body after, front, p, hp => by
    rw [Node.fronts, List.mem_cons] at hp
    rw [Node.print]
    rcases hp with rfl | hp
    · refine ⟨head.afterName ++ head.params ++ head.between ++ "\x7b" ++ printNodes body ++ after ++
        "\x7d", ?_⟩
      simp only [Node.ownText, AtHead.print, String.append_assoc]
    · have hbody := (standsBehind_frontsAmong body _ p hp).append (after ++ "\x7d")
      simpa only [String.append_assoc] using hbody
  | .atStatement head semicolon, front, p, hp => by
    rw [Node.fronts, List.mem_singleton] at hp
    subst hp
    refine ⟨head.afterName ++ head.params ++ head.between ++ printSemicolon semicolon, ?_⟩
    simp only [Node.print, Node.ownText, AtHead.print, String.append_assoc]
  | .declaration d, front, p, hp => by
    rw [Node.fronts, List.mem_singleton] at hp
    subst hp
    refine ⟨d.between ++ d.value ++ d.important.getD "" ++ d.trailing ++
      printSemicolon d.semicolon, ?_⟩
    simp only [Node.print, Node.ownText, Declaration.print, String.append_assoc]
  | .comment c, front, p, hp => by
    rw [Node.fronts, List.mem_singleton] at hp
    subst hp
    refine ⟨"", ?_⟩
    simp only [Node.print, Node.ownText, String.append_assoc, String.append_empty]

theorem standsBehind_frontsAmong : ∀ (ns : List Node) (front : String),
    ∀ p ∈ frontsAmong front ns, StandsBehind p.1 p.2.ownText (front ++ printNodes ns)
  | [], front, p, hp => by
    rw [frontsAmong] at hp
    cases hp
  | n :: ns, front, p, hp => by
    rw [frontsAmong, List.mem_append] at hp
    rw [printNodes_cons, ← String.append_assoc]
    rcases hp with hp | hp
    · exact (standsBehind_fronts n front p hp).append _
    · exact standsBehind_frontsAmong ns _ p hp

end

/-- The item that was cut off belongs to the text in front of it, and its offset
is the start of its first token. -/
theorem offset_of_itemCut {before : String} {t : Token} {rest : List Token} {c : Cut}
    (h : itemCut before t rest = some c) : c.before = before ∧ c.offset = t.start := by
  have hdeclaration : ∀ {custom}, declarationCut custom before t rest = some c →
      c.before = before ∧ c.offset = t.start := by
    intro custom h
    obtain ⟨colon, behind, -, -, -, rfl⟩ := declarationCut_eq_some h
    exact ⟨rfl, rfl⟩
  unfold itemCut at h
  split at h
  · cases h
    exact ⟨rfl, rfl⟩
  split at h
  · cases h
    unfold atRuleCut
    repeat' split
    all_goals exact ⟨rfl, rfl⟩
  unfold ruleOrDeclarationCut at h
  split at h
  · exact hdeclaration h
  split at h
  · exact hdeclaration h
  split at h
  · cases h
    exact ⟨rfl, rfl⟩
  · exact hdeclaration h

/-- **An offset is the length of what is printed in front.** -/
theorem Parsed.offset_eq {source : String} {limit depth : Nat} {ts : List Token}
    {items : Items ts.length} (h : Parsed limit depth ts items) {front : String}
    (hts : Reads (Token.lex source) front ts) :
    ∀ p ∈ frontsAmong front items.nodes, p.2.offset = p.1.utf8ByteSize := by
  induction h generalizing front with
  | finish => exact List.forall_mem_nil _
  | close => exact List.forall_mem_nil _
  | @done depth ts rest rest' t node items hlt ht hk hi hp hle ih =>
    have hs := Token.isSpelled_of_reads hts
    have hitem := hts.of_dropWhile ht
    have hcut := itemCut_of_readItem hi
    intro p hmem
    rw [Items.cons, frontsAmong, fronts_of_hasBlock (hasBlock_of_itemCut hcut),
      List.singleton_append, List.mem_cons] at hmem
    rcases hmem with rfl | hmem
    · obtain ⟨hbefore, hoffset⟩ := offset_of_itemCut hcut
      exact hoffset.trans ((Token.start_of_reads hitem).trans (hbefore ▸ rfl))
    · exact ih (hts.trans (reads_of_done hs ht hi)) p hmem
  | @block depth ts rest body rest' t brace u head block items hlt ht hk hi hd hb hr hp hle
      ihb ih =>
    have hs := Token.isSpelled_of_reads hts
    have hitem := hts.of_dropWhile ht
    have hopen := reads_of_opened hs ht hi
    have hbody := hts.trans hopen
    obtain ⟨hblock, hstop⟩ := hb.reads (hopen.isSpelled hs)
    rw [hr] at hblock hstop
    have hclose : Reads (u :: rest') "\x7d" rest' :=
      hstop.reads (Token.isSpelled_of_reads (hbody.trans hblock) u List.mem_cons_self) rfl
    intro p hmem
    rw [Items.cons, frontsAmong, fronts_node, List.cons_append, List.mem_cons,
      List.mem_append] at hmem
    rcases hmem with rfl | hmem | hmem
    · obtain ⟨hbefore, hoffset⟩ := offset_of_itemCut (itemCut_of_readItem hi)
      rw [offset_node]
      exact hoffset.trans ((Token.start_of_reads hitem).trans (hbefore ▸ rfl))
    · exact ihb (by simpa only [String.append_assoc] using hbody) p hmem
    · refine ih ?_ p hmem
      simpa only [Head.print_node, String.append_assoc] using (hbody.trans hblock).trans hclose

end Sheet

/-! ### Selector lists -/

namespace Selector

open Token (Reads)

/-- What a node of this kind prints in front of its children. -/
def Kind.openingText : Kind → String
  | .pseudo name true => name ++ "("
  | _ => ""

/-- What it prints between two of them. -/
def Kind.betweenText : Kind → String
  | .selector => ""
  | _ => ","

/-- The text of a node in front of its position. -/
def Tree.lead : Tree → String
  | .node .selector _ _ _ => ""
  | .node _ spaces _ _ => spaces.before

mutual

/-- The tree and all below it in document order, each with what is printed in
front of its position if `front` is printed in front of the tree. -/
def Tree.fronts (front : String) : Tree → List (String × Tree)
  | .node kind spaces start children =>
    (front ++ (Tree.node kind spaces start children).lead, .node kind spaces start children) ::
      frontsAlong kind.betweenText (front ++ spaces.before ++ kind.openingText) children

/-- The trees and all below them, where `between` is printed between two of the
trees. -/
def frontsAlong (between front : String) : List Tree → List (String × Tree)
  | [] => []
  | t :: ts => t.fronts front ++ frontsAlong between (front ++ t.print ++ between) ts

end

mutual

theorem map_snd_fronts : ∀ (t : Tree) (front : String) (depth : Nat),
    (t.fronts front).map Prod.snd = (t.outline depth).map Prod.snd
  | .node kind spaces start children, front, depth => by
    simp only [Tree.fronts, Tree.outline, List.map_cons,
      map_snd_frontsAlong children _ _ (depth + 1)]

theorem map_snd_frontsAlong : ∀ (ts : List Tree) (between front : String) (depth : Nat),
    (frontsAlong between front ts).map Prod.snd = (outlineEach depth ts).map Prod.snd
  | [], between, front, depth => by simp [frontsAlong, outlineEach]
  | t :: ts, between, front, depth => by
    simp only [frontsAlong, outlineEach, List.map_append, map_snd_fronts t _ depth,
      map_snd_frontsAlong ts _ _ depth]

end

/-! ### Fronts are printed -/

/-- The tree prints what is in front of each node, and then the text of the node. -/
def Tree.PrintsFronts (t : Tree) : Prop :=
  ∀ front, ∀ p ∈ t.fronts front, StandsBehind p.1 p.2.kind.text (front ++ t.print)

/-- Trees print their fronts if each of them does, where `print` puts `between`
between two of them. -/
theorem standsBehind_frontsAlong {between : String} {print : List Tree → String}
    (hone : ∀ t, print [t] = t.print)
    (hcons : ∀ t u us, print (t :: u :: us) = t.print ++ between ++ print (u :: us))
    {ts : List Tree} (h : ∀ t ∈ ts, t.PrintsFronts) (front : String) :
    ∀ p ∈ frontsAlong between front ts, StandsBehind p.1 p.2.kind.text (front ++ print ts) := by
  induction ts generalizing front with
  | nil =>
    intro p hp
    rw [frontsAlong] at hp
    cases hp
  | cons t ts ih =>
    obtain ⟨ht, hts⟩ := List.forall_mem_cons.mp h
    intro p hp
    rw [frontsAlong, List.mem_append] at hp
    cases ts with
    | nil =>
      rw [hone]
      rcases hp with hp | hp
      · exact ht front p hp
      · cases hp
    | cons u us =>
      rw [hcons, ← String.append_assoc, ← String.append_assoc]
      rcases hp with hp | hp
      · exact ((ht front p hp).append between).append _
      · exact ih hts _ p hp

theorem standsBehind_frontsEach {ts : List Tree} (h : ∀ t ∈ ts, t.PrintsFronts)
    (front : String) :
    ∀ p ∈ frontsAlong "" front ts, StandsBehind p.1 p.2.kind.text (front ++ printEach ts) :=
  standsBehind_frontsAlong (fun t => by simp) (fun t u us => by simp) h front

theorem standsBehind_frontsList {ts : List Tree} (h : ∀ t ∈ ts, t.PrintsFronts)
    (front : String) :
    ∀ p ∈ frontsAlong "," front ts, StandsBehind p.1 p.2.kind.text (front ++ printList ts) :=
  standsBehind_frontsAlong (fun t => by simp) (fun t u us => by simp [String.append_assoc]) h front

theorem Tree.lead_eq {t : Tree} (h : t.kind ≠ .selector) : t.lead = t.spaces.before := by
  obtain ⟨kind, spaces, start, children⟩ := t
  cases kind with
  | selector => exact absurd rfl h
  | _ => rfl

theorem ne_selector_of_isLeaf {kind : Kind} (hk : kind.isLeaf) : kind ≠ .selector := by
  rintro rfl
  cases hk

theorem fronts_leaf {kind : Kind} (hk : kind.isLeaf) (spaces : Spaces) (start : Nat)
    (front : String) :
    (Tree.leaf kind spaces start).fronts front =
      [(front ++ spaces.before, .leaf kind spaces start)] := by
  have hlead : (Tree.node kind spaces start []).lead = spaces.before :=
    Tree.lead_eq (ne_selector_of_isLeaf hk)
  rw [Tree.leaf, Tree.fronts, frontsAlong, hlead]

/-- An alternative prints the fronts in it if its nodes do. -/
theorem printsFronts_selector {spaces : Spaces} {start : Nat} {children : List Tree}
    (h : ∀ t ∈ children, t.PrintsFronts) :
    (Tree.node .selector spaces start children).PrintsFronts := by
  intro front p hp
  rw [Tree.fronts, List.mem_cons] at hp
  rw [Tree.print]
  rcases hp with rfl | hp
  · exact ⟨spaces.before ++ printEach children ++ spaces.after, by
      simp only [Tree.lead, Tree.kind, Kind.text, String.append_empty, String.append_assoc]⟩
  · have hchildren := (standsBehind_frontsEach h _ p hp).append spaces.after
    simpa only [Kind.openingText, String.append_empty, String.append_assoc] using hchildren

/-- A node of an alternative prints its fronts. -/
theorem Tree.IsSimple.printsFronts {t : Tree} (h : t.IsSimple) : t.PrintsFronts := by
  induction h with
  | @leaf kind spaces start hk =>
    intro front p hp
    rw [fronts_leaf hk, List.mem_singleton] at hp
    subst hp
    refine ⟨spaces.after, ?_⟩
    rw [print_leaf hk]
    simp only [Tree.leaf, Tree.kind, String.append_assoc]
  | @call name spaces start arguments hne hk h ih =>
    have harguments : ∀ a ∈ arguments, a.PrintsFronts := by
      intro a ha
      obtain ⟨kind, _, _, children⟩ := a
      obtain rfl : kind = .selector := hk _ ha
      exact printsFronts_selector fun t ht => ih _ ha t ht
    intro front p hp
    rw [Tree.fronts, List.mem_cons] at hp
    rw [Tree.print]
    rcases hp with rfl | hp
    · exact ⟨"(" ++ printList arguments ++ ")" ++ spaces.after, by
        simp only [Tree.lead, Tree.kind, Kind.text, String.append_assoc]⟩
    · have hlist := (standsBehind_frontsList harguments _ p hp).append (")" ++ spaces.after)
      simpa only [Kind.openingText, String.append_assoc] using hlist

/-- A selector list prints its fronts. -/
theorem Tree.IsList.standsBehind {t : Tree} (h : t.IsList) :
    ∀ p ∈ t.fronts "", StandsBehind p.1 p.2.kind.text t.print := by
  obtain ⟨kind, spaces, start, children⟩ := t
  obtain rfl : kind = .root := h.kind
  have hchildren : ∀ a ∈ children, a.PrintsFronts := by
    intro a ha
    have halternative := h.alternatives a ha
    obtain ⟨kind, _, _, nodes⟩ := a
    obtain rfl : kind = .selector := halternative.1
    exact printsFronts_selector fun t ht => (halternative.2 t ht).printsFronts
  intro p hp
  rw [Tree.fronts, List.mem_cons] at hp
  rw [Tree.print]
  rcases hp with rfl | hp
  · exact ⟨printList children ++ spaces.after, by
      simp only [Tree.lead, Tree.kind, Kind.text, String.empty_append, String.append_empty,
        String.append_assoc]⟩
  · have hlist := (standsBehind_frontsList hchildren _ p hp).append spaces.after
    simpa only [Kind.openingText, String.empty_append, String.append_empty] using hlist

/-! ### Positions -/

/-- The node starts where its front stops. -/
def IsExact (p : String × Tree) : Prop :=
  p.2.start = p.1.utf8ByteSize

/-- All nodes of the parts start where their fronts stop, if `front` is in front
of the alternative. -/
structure Parts.IsExact {n : Nat} (p : Parts n) (front : String) : Prop where
  nodes : ∀ q ∈ frontsAlong "" (front ++ p.trailing) p.nodes, Selector.IsExact q
  others : ∀ q ∈ frontsAlong "," (front ++ p.trailing ++ printEach p.nodes ++ ",") p.others,
    Selector.IsExact q

theorem Parts.IsExact.alternatives {n : Nat} {p : Parts n} {front : String} (h : p.IsExact front)
    {start : Nat} (hstart : start = front.utf8ByteSize) :
    ∀ q ∈ frontsAlong "," front (p.alternatives start), Selector.IsExact q := by
  intro q hq
  rw [Parts.alternatives, frontsAlong, List.mem_append, Parts.alternative, Tree.fronts,
    List.mem_cons] at hq
  rcases hq with (rfl | hq) | hq
  · rw [Tree.lead, String.append_empty]
    exact hstart
  · refine h.nodes q ?_
    simpa only [Kind.openingText, Kind.betweenText, String.append_empty] using hq
  · refine h.others q ?_
    rwa [Tree.print, String.append_empty, ← String.append_assoc] at hq

/-- Text put around a node changes no position. -/
theorem isExact_withSpaces {t : Tree} (spaces : Spaces) {front front' : String}
    (ht : t.kind ≠ .selector) (h : ∀ q ∈ t.fronts front, IsExact q)
    (hfront : front' ++ spaces.before = front ++ t.spaces.before) :
    ∀ q ∈ (t.withSpaces spaces).fronts front', IsExact q := by
  obtain ⟨kind, spaces', start, children⟩ := t
  have hlead (s : Spaces) : (Tree.node kind s start children).lead = s.before := Tree.lead_eq ht
  have hfront : front' ++ spaces.before = front ++ spaces'.before := hfront
  rw [Tree.fronts, hlead, List.forall_mem_cons] at h
  rw [Tree.withSpaces, Tree.fronts, hlead, hfront, List.forall_mem_cons]
  exact h

theorem Parts.IsExact.cons {m n : Nat} {p : Parts m} {t : Tree} {front : String}
    (h : p.IsExact (front ++ t.print)) (ht : ∀ q ∈ t.fronts front, Selector.IsExact q)
    (hk : t.kind ≠ .selector) (hp : p.nodes ≠ [] → p.trailing = "") (hmn : m ≤ n) :
    (p.cons t hmn).IsExact front := by
  unfold Parts.cons
  split
  next hnil =>
    constructor
    · intro q hq
      rw [String.append_empty, frontsAlong, frontsAlong, List.append_nil] at hq
      exact isExact_withSpaces { t.spaces with after := t.spaces.after ++ p.trailing }
        hk ht rfl q hq
    · intro q hq
      refine h.others q ?_
      simpa only [hnil, printEach_cons, printEach_nil, print_setAfter, String.append_empty,
        String.append_assoc] using hq
  next hne =>
    have htrailing := hp hne
    constructor
    · intro q hq
      rw [frontsAlong, List.mem_append, htrailing, String.append_empty, String.append_empty] at hq
      rcases hq with hq | hq
      · exact ht q hq
      · refine h.nodes q ?_
        rwa [htrailing, String.append_empty]
    · intro q hq
      refine h.others q ?_
      simpa only [htrailing, printEach_cons, String.append_empty, String.append_assoc] using hq

theorem isExact_leaf {kind : Kind} (hk : kind.isLeaf) {spaces : Spaces} {start : Nat}
    {front : String} (h : start = (front ++ spaces.before).utf8ByteSize) :
    ∀ q ∈ (Tree.leaf kind spaces start).fronts front, IsExact q := by
  intro q hq
  rw [fronts_leaf hk, List.mem_singleton] at hq
  rw [hq]
  exact h

/-- White space and comments between two simple selectors start where their
first token does. -/
theorem isExact_spacingNode {source front : String} {trivia rest : List Token}
    (h : Reads (Token.lex source) front (trivia ++ rest)) (hne : trivia ≠ []) :
    ∀ q ∈ (spacingNode trivia).fronts front, IsExact q := by
  obtain ⟨t, trivia, rfl⟩ := List.exists_cons_of_ne_nil hne
  have hstart : Token.startOf 0 (t :: trivia) = (front ++ Spaces.none.before).utf8ByteSize := by
    rw [Spaces.none, String.append_empty]
    exact Token.start_of_reads h
  unfold spacingNode
  split
  · exact isExact_leaf rfl hstart
  · exact isExact_leaf rfl hstart

theorem isExact_simpleNode {kind : Kind} (hk : kind.isLeaf) {start : Nat} (atEnd : Bool)
    {front : String} (h : start = front.utf8ByteSize) :
    ∀ q ∈ (simpleNode kind start atEnd).fronts front, IsExact q := by
  have hstart : start = (front ++ "").utf8ByteSize := by rwa [String.append_empty]
  unfold simpleNode
  split
  · split <;> exact isExact_leaf rfl hstart
  · split <;> exact isExact_leaf rfl hstart
  · exact isExact_leaf hk hstart

theorem kind_spacingNode (trivia : List Token) : (spacingNode trivia).kind ≠ .selector := by
  unfold spacingNode
  split <;> exact Kind.noConfusion

theorem kind_simpleNode {kind : Kind} (hk : kind.isLeaf) (start : Nat) (atEnd : Bool) :
    (simpleNode kind start atEnd).kind ≠ .selector := by
  unfold simpleNode
  split
  · split <;> exact Kind.noConfusion
  · split <;> exact Kind.noConfusion
  · exact ne_selector_of_isLeaf hk

/-- A simple selector in front, with the text in front of it. -/
theorem Parts.IsExact.consSimple {source front : String} {m n : Nat} {p : Parts m}
    {us rest : List Token} {t : Tree} {trivia : List Token}
    (h : p.IsExact (front ++ Token.textOf trivia ++ t.print)) (hp : p.Covers us)
    (hts : Reads (Token.lex source) front (trivia ++ rest)) (hread : Reads rest t.print us)
    (ht : ∀ q ∈ t.fronts (front ++ Token.textOf trivia), Selector.IsExact q)
    (hk : t.kind ≠ .selector) (hb : t.spaces.before = "") (isFirst : Bool) (hmn : m ≤ n) :
    (p.consSimple isFirst trivia t hmn).IsExact front := by
  unfold Parts.consSimple
  split
  · refine Parts.IsExact.cons ?_ ?_ ?_ hp.settled hmn
    · rwa [print_setBefore hb, ← String.append_assoc]
    · exact isExact_withSpaces { t.spaces with before := Token.textOf trivia }
        hk ht (by rw [hb, String.append_empty])
    · obtain ⟨kind, _, _, _⟩ := t
      exact hk
  split
  next hnil =>
    rw [List.isEmpty_iff.mp hnil, Token.textOf_nil, String.append_empty] at h ht
    exact h.cons ht hk hp.settled hmn
  next hne =>
    refine Parts.IsExact.cons ?_ ?_ (kind_spacingNode trivia) (hp.cons hread hmn).settled _
    · rw [print_spacingNode]
      exact h.cons ht hk hp.settled hmn
    · exact isExact_spacingNode hts (by simpa using hne)

/-- **A position is the length of what is printed in front.** -/
theorem Parsed.isExact {source : String} {limit depth : Nat} {isFirst : Bool} {ts : List Token}
    {p : Parts ts.length} (h : Parsed limit source.utf8ByteSize depth isFirst ts p) {front : String}
    (hts : Reads (Token.lex source) front ts) : p.IsExact front := by
  induction h generalizing front with
  | finish => exact ⟨List.forall_mem_nil _, List.forall_mem_nil _⟩
  | close => exact ⟨List.forall_mem_nil _, List.forall_mem_nil _⟩
  | @comma depth isFirst ts rest t p ht hk hp hle ih =>
    have htrivia := hts.of_dropWhile ht
    have hcomma := htrivia.trans ((Token.isSpelled_of_reads htrivia t List.mem_cons_self).reads
      (c := ',') (by rw [hk]; rfl) rest)
    refine ⟨List.forall_mem_nil _, ?_⟩
    rw [printEach_nil, String.append_empty]
    exact (ih hcomma).alternatives (Token.startOf_of_reads hcomma)
  | @combinator depth isFirst ts rest t c p ht hk hp hle ih =>
    have htrivia := hts.of_dropWhile ht
    have hmark := (htrivia.trans (Reads.head t rest)).trans (Reads.takeWhile Token.isTrivia rest)
    have hcovers := hp.covers (Token.isSpelled_of_reads hmark)
    refine Parts.IsExact.cons (ih ?_) ?_ Kind.noConfusion hcovers.settled hle
    · rw [print_leaf rfl]
      simpa only [Kind.text, String.append_assoc] using hmark
    · exact isExact_leaf rfl (Token.start_of_reads htrivia)
  | @call depth isFirst ts rest rest' t u o arguments p ht ho hd ha hr hp hle iha ih =>
    have htrivia := hts.of_dropWhile ht
    have hopen := reads_opening? ho
    have hbody := htrivia.trans hopen
    have hcovers := ha.covers (Token.isSpelled_of_reads hbody)
    have hread := hcovers.reads
    have hstop := hcovers.stops
    rw [hr] at hread hstop
    have hclose : Reads (u :: rest') ")" rest' :=
      hstop.reads (Token.isSpelled_of_reads (hbody.trans hread) u List.mem_cons_self) rfl
    have hnode : Reads (t :: rest) (Tree.node (.pseudo o.name true) .none t.start
        (arguments.alternatives (Token.startOf source.utf8ByteSize o.body))).print rest' := by
      simpa [Tree.print, Spaces.none, printList_alternatives] using (hopen.trans hread).trans hclose
    have hbehind := htrivia.trans hnode
    have hcut : Reads (Token.lex source) front (ts.takeWhile Token.isTrivia ++ t :: rest) := by
      rwa [← ht, List.takeWhile_append_dropWhile]
    refine (ih hbehind).consSimple (hp.covers (Token.isSpelled_of_reads hbehind)) hcut hnode ?_
      Kind.noConfusion rfl isFirst hle
    intro q hq
    rw [Tree.fronts, List.mem_cons] at hq
    rcases hq with rfl | hq
    · rw [Tree.lead_eq Kind.noConfusion, Tree.spaces, Spaces.none, String.append_empty]
      exact Token.start_of_reads htrivia
    · refine (iha hbody).alternatives (Token.startOf_of_reads hbody) q ?_
      simpa only [Kind.openingText, Kind.betweenText, Spaces.none, String.append_empty,
        String.append_assoc] using hq
  | @leaf depth isFirst ts rest t kind n p ht hparen hcomma hk ho hsimple hp hle ih =>
    have htrivia := hts.of_dropWhile ht
    have hkind := isLeaf_of_simple hsimple
    have hnode := reads_simple hsimple (Token.isSpelled_of_reads htrivia)
    rw [← print_simpleNode hkind t.start (endsCompound (rest.drop n))] at hnode
    have hbehind := htrivia.trans hnode
    have hcut : Reads (Token.lex source) front (ts.takeWhile Token.isTrivia ++ t :: rest) := by
      rwa [← ht, List.takeWhile_append_dropWhile]
    refine (ih hbehind).consSimple (hp.covers (Token.isSpelled_of_reads hbehind)) hcut hnode
      (isExact_simpleNode hkind _ (Token.start_of_reads htrivia))
      (kind_simpleNode hkind t.start _) (before_simpleNode ..) isFirst hle

theorem isExact_of_parse {source : String} {t : Tree} (h : parse source = .ok t) :
    ∀ q ∈ t.fronts "", IsExact q := by
  obtain ⟨p, hp, -, rfl⟩ := parsed_of_parseWithin h
  have hlex := Reads.nil (Token.lex source)
  intro q hq
  rw [Tree.fronts, List.mem_cons] at hq
  rcases hq with rfl | hq
  · rfl
  · refine (hp.isExact hlex).alternatives (Token.startOf_of_reads hlex) q ?_
    simpa only [Kind.openingText, Kind.betweenText, Spaces.none, String.append_empty] using hq

end Selector

/-- **Positions are exact.** Every node of a sheet or a selector list that was read
starts behind all that is printed in front of it, which is what the source has
there, in front of the text of the node. -/
theorem positions_exact (source : String) :
    (∀ s, (Sheet.parse source).result = .ok s →
      s.fronts.map Prod.snd = (Sheet.outlineNodes 0 s.nodes).map Prod.snd ∧
      ∀ p ∈ s.fronts, p.2.offset = p.1.utf8ByteSize ∧
        ∃ behind, source = p.1 ++ p.2.ownText ++ behind) ∧
    ∀ t, Selector.parse source = .ok t →
      (t.fronts "").map Prod.snd = (t.outline 0).map Prod.snd ∧
      ∀ p ∈ t.fronts "", p.2.start = p.1.utf8ByteSize ∧
        ∃ behind, source = p.1 ++ p.2.kind.text ++ behind := by
  refine ⟨fun s h => ⟨Sheet.map_snd_frontsAmong .., fun p hp => ⟨?_, ?_⟩⟩,
    fun t h => ⟨Selector.map_snd_fronts .., fun p hp => ⟨Selector.isExact_of_parse h p hp, ?_⟩⟩⟩
  · obtain ⟨items, hitems, hs⟩ := Sheet.parse_eq_ok.mp h
    refine (Sheet.parsed_of_parseItems hitems).offset_eq (Token.Reads.nil _) p ?_
    rwa [(Sheet.Listing.mk.inj hs).1]
  · obtain ⟨behind, hbehind⟩ := Sheet.standsBehind_frontsAmong s.nodes "" p hp
    refine ⟨behind ++ s.after, ?_⟩
    rw [String.empty_append] at hbehind
    rw [← Sheet.print_parseWithin h, Sheet.print, hbehind, String.append_assoc]
  · have hfront := (Selector.isList_of_parse h).standsBehind p hp
    rwa [Selector.print_parseWithin h] at hfront

/-- A text that is a sheet and a selector list, with letters of two bytes. -/
theorem positions_exact_multibyte :
    ∃ s t, (Sheet.parse "/*é*/@m ü\x7b d:is( a , .b>c)\x7bf :g\x7d\x7d").result = .ok s ∧
      Selector.parse "/*é*/@m ü\x7b d:is( a , .b>c)\x7bf :g\x7d\x7d" = .ok t ∧
      s.fronts.map (fun p => p.2.offset) = [0, 6, 13, 29] ∧
      (∀ p ∈ s.fronts, p.2.offset = p.1.utf8ByteSize) ∧
      ∀ p ∈ t.fronts "", p.2.start = p.1.utf8ByteSize := by
  have hexact := positions_exact "/*é*/@m ü\x7b d:is( a , .b>c)\x7bf :g\x7d\x7d"
  obtain ⟨s, hs, hoffsets⟩ := exists_ok_of_any
    (x := (Sheet.parse "/*é*/@m ü\x7b d:is( a , .b>c)\x7bf :g\x7d\x7d").result)
    (p := fun s => s.fronts.map (fun p => p.2.offset) = [0, 6, 13, 29]) (by decide +kernel)
  obtain ⟨t, ht, hstarts⟩ := exists_ok_of_isOk
    (x := Selector.parse "/*é*/@m ü\x7b d:is( a , .b>c)\x7bf :g\x7d\x7d") (by decide +kernel)
    fun t ht p hp => ((hexact.2 t ht).2 p hp).1
  exact ⟨s, t, hs, ht, of_decide_eq_true hoffsets, fun p hp => ((hexact.1 s hs).2 p hp).1, hstarts⟩

end StyleScope
