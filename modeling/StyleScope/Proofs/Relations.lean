/-
# Descendant relations

Two simple selectors are in a descendant relation if a descendant combinator
and nothing else stands between them. A relation is given by the places where
the two start. That makes trees of one text comparable, once each node stands
where it is printed (`Tree.place`).

A reader puts a list together from its end, node by node. With each node it
adds the relation of the node to what stands in front, and the relations in it
(`relationsAlong_cons`, `relationsAlong_consSimple`).

Key definitions: `Selector.Front`, `Selector.Tree.relations`, `Selector.Tree.place`.
Key theorems: `Selector.relationsAlong_cons`, `Selector.relationsAlong_consSimple`.
-/
import StyleScope.Proofs.SelectorRead

namespace StyleScope
namespace Selector

/-! ### Descendant relations -/

/-- Whether a node of this kind is a simple selector. -/
def Kind.selects : Kind → Bool
  | .root | .selector | .combinator _ _ | .comment _ => false
  | _ => true

/-- What stands in front of a node: a simple selector that starts at this
byte, such a selector and then a descendant combinator, or anything else. -/
inductive Front where
  | other
  | simple (start : Nat)
  | spaced (start : Nat)
  deriving DecidableEq, Repr

/-- What stands in front of the next node. -/
def Front.behind (front : Front) (t : Tree) : Front :=
  if t.kind.selects then .simple t.start
  else if t.isSpacing then
    match front with
    | .simple start => .spaced start
    | _ => .other
  else .other

theorem Front.behind_of_selects {front : Front} {t : Tree} (h : t.kind.selects) :
    front.behind t = .simple t.start := by
  unfold Front.behind
  exact if_pos h

/-- The descendant relation between a node and the simple selector in front of
it, if there is one: where the two start. -/
def Front.relation (t : Tree) : Front → List (Nat × Nat)
  | .spaced start => if t.kind.selects then [(start, t.start)] else []
  | _ => []

mutual

/-- The pairs of simple selectors in a tree with a descendant combinator and
nothing else between them, each by the places where the two start. -/
def Tree.relations : Tree → List (Nat × Nat)
  | .node _ _ _ children => relationsAlong .other children

def relationsAlong : Front → List Tree → List (Nat × Nat)
  | _, [] => []
  | front, t :: ts => front.relation t ++ t.relations ++ relationsAlong (front.behind t) ts

end

/-! ### Places in the printed text -/

/-- How many bytes a node of this kind prints in front of its children. -/
def Kind.opening : Kind → Nat
  | .pseudo name true => name.utf8ByteSize + 1
  | _ => 0

/-- How many bytes it prints between two of them. -/
def Kind.between : Kind → Nat
  | .selector => 0
  | _ => 1

mutual

/-- The tree with the places where its nodes are printed, from byte `o` on. -/
def Tree.place (o : Nat) : Tree → Tree
  | .node kind spaces _ children =>
    let start := o + spaces.before.utf8ByteSize
    .node kind spaces start (placeEach kind.between (start + kind.opening) children)

def placeEach (between o : Nat) : List Tree → List Tree
  | [] => []
  | t :: ts => t.place o :: placeEach between (o + t.print.utf8ByteSize + between) ts

end

/-! ### Single nodes -/

theorem relation_setAfter (front : Front) (t : Tree) (text : String) :
    front.relation (t.setAfter text) = front.relation t := by
  obtain ⟨kind, _, _, _⟩ := t
  rfl

theorem relations_withSpaces (t : Tree) (spaces : Spaces) :
    (t.withSpaces spaces).relations = t.relations := by
  obtain ⟨kind, _, _, _⟩ := t
  simp only [Tree.withSpaces, Tree.relations]

theorem relations_leaf (kind : Kind) (spaces : Spaces) (start : Nat) :
    (Tree.leaf kind spaces start).relations = [] := by
  simp only [Tree.leaf, Tree.relations, relationsAlong]

theorem place_leaf (kind : Kind) (spaces : Spaces) (start o : Nat) :
    (Tree.leaf kind spaces start).place o =
      .leaf kind spaces (o + spaces.before.utf8ByteSize) := by
  simp only [Tree.leaf, Tree.place, placeEach]

theorem relations_place_leaf (kind : Kind) (spaces : Spaces) (start o : Nat) :
    ((Tree.leaf kind spaces start).place o).relations = [] := by
  rw [place_leaf, relations_leaf]

theorem relation_of_not_selects {front : Front} {t : Tree} (h : t.kind.selects = false) :
    front.relation t = [] := by
  cases front with
  | spaced => exact if_neg (by rw [h]; decide)
  | _ => rfl

theorem selects_of_simple {t : Token} {ts : List Token} {kind : Kind} {n : Nat}
    (h : simple t ts = .ok (kind, n)) : kind.selects := by
  rw [simple.eq_def] at h
  cases hk : t.kind
  all_goals
    rw [hk] at h
    dsimp only at h
    repeat' split at h
    all_goals cases h
    all_goals rfl

theorem simpleNode_of_selects {kind : Kind} (h : kind.selects) (start : Nat) (atEnd : Bool) :
    (simpleNode kind start atEnd).kind.selects ∧ (simpleNode kind start atEnd).start = start ∧
      (simpleNode kind start atEnd).relations = [] := by
  unfold simpleNode
  repeat' split
  all_goals exact ⟨by first | rfl | exact h, rfl, relations_leaf _ _ _⟩

/-! ### Relations among what was read -/

section Parts

variable {m n : Nat} (front : Front) (t : Tree) (p : Parts m) (h : m ≤ n)

theorem relationsAlong_cons :
    relationsAlong front (p.cons t h).nodes =
      front.relation t ++ t.relations ++ relationsAlong (front.behind t) p.nodes := by
  unfold Parts.cons
  split
  next hnil =>
    simp only [hnil, relationsAlong, relation_setAfter]
    rw [Tree.setAfter, relations_withSpaces]
  next => rw [relationsAlong]

/-- What stands in front of a simple selector behind this white space and these
comments. -/
def Front.across (isFirst : Bool) (trivia : List Token) : Front :=
  if isFirst || trivia.isEmpty then front else front.behind (spacingNode trivia)

theorem relationsAlong_consSimple (isFirst : Bool) (trivia : List Token) :
    relationsAlong front (p.consSimple isFirst trivia t h).nodes =
      (front.across isFirst trivia).relation t ++ t.relations ++
        relationsAlong ((front.across isFirst trivia).behind t) p.nodes := by
  have hspacing :
      front.relation (spacingNode trivia) = [] ∧ (spacingNode trivia).relations = [] := by
    constructor
    · unfold spacingNode
      split <;> cases front <;> rfl
    · unfold spacingNode
      split <;> exact relations_leaf _ _ _
  unfold Parts.consSimple Front.across
  cases isFirst with
  | true =>
    rw [if_pos rfl, relationsAlong_cons, Tree.setBefore, relations_withSpaces, Bool.true_or,
      if_pos rfl]
    obtain ⟨kind, _, _, _⟩ := t
    rfl
  | false =>
    rw [if_neg (by decide), Bool.false_or]
    split
    · rw [relationsAlong_cons]
    · rw [relationsAlong_cons, relationsAlong_cons, hspacing.1, hspacing.2]
      rfl

end Parts

theorem across_other (isFirst : Bool) (trivia : List Token) :
    Front.other.across isFirst trivia = .other := by
  unfold Front.across
  split
  · rfl
  · unfold spacingNode
    split <;> rfl

theorem relationsAlong_alternatives {n : Nat} (p : Parts n) (start : Nat) :
    relationsAlong .other (p.alternatives start) =
      relationsAlong .other p.nodes ++ relationsAlong .other p.others := by
  rw [Parts.alternatives, relationsAlong, Parts.alternative, Tree.relations]
  rfl

end Selector
end StyleScope
