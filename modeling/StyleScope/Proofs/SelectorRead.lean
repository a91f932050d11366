/-
# How a selector list is read

`Parsed` has one rule for each way in which an alternative goes on: it ends,
or a comma, a combinator, a pseudo-class with arguments or another simple
selector comes next. Whatever is read is read by these rules
(`parsed_of_parseParts`), and what holds of every list that was read is shown
by induction over them.

The first such fact is the shape. A tree of selector nodes could hold anything
anywhere. A tree that was read is in order: the root holds alternatives, an
alternative holds simple selectors and combinators, and of these only a
pseudo-class with arguments holds anything, namely alternatives again.

Key definitions: `Selector.Parsed`, `Selector.Tree.IsSimple`,
`Selector.Tree.IsAlternative`, `Selector.Tree.IsList`.
Key theorems: `Selector.parsed_of_parseParts`, `Selector.isList_of_parse`.
-/
import StyleScope.Proofs.Reading
import StyleScope.Selector.Parser

namespace StyleScope
namespace Selector

/-! ### The rules of reading -/

/-- The parts `p` are read from the tokens `ts`. -/
inductive Parsed (limit stop : Nat) : Nat → Bool → (ts : List Token) → Parts ts.length → Prop where
  /-- The tokens end. -/
  | finish {depth : Nat} {isFirst : Bool} {ts : List Token}
    (ht : ts.dropWhile Token.isTrivia = []) (hle : 0 ≤ ts.length) :
    Parsed limit stop depth isFirst ts
      ⟨[], Token.textOf (ts.takeWhile Token.isTrivia), [], [], hle⟩
  /-- A parenthesis ends the list. -/
  | close {depth : Nat} {isFirst : Bool} {ts rest : List Token} {t : Token}
    (ht : ts.dropWhile Token.isTrivia = t :: rest) (hk : t.kind = .rightParen)
    (hle : (t :: rest).length ≤ ts.length) :
    Parsed limit stop depth isFirst ts
      ⟨[], Token.textOf (ts.takeWhile Token.isTrivia), [], t :: rest, hle⟩
  /-- A comma ends the alternative, and others follow. -/
  | comma {depth : Nat} {isFirst : Bool} {ts rest : List Token} {t : Token}
    {p : Parts rest.length} (ht : ts.dropWhile Token.isTrivia = t :: rest) (hk : t.kind = .comma)
    (hp : Parsed limit stop depth true rest p) (hle : p.rest.length ≤ ts.length) :
    Parsed limit stop depth isFirst ts
      ⟨[], Token.textOf (ts.takeWhile Token.isTrivia), p.alternatives (Token.startOf stop rest),
        p.rest, hle⟩
  | combinator {depth : Nat} {isFirst : Bool} {ts rest : List Token} {t : Token} {c : Combinator}
    {p : Parts (rest.dropWhile Token.isTrivia).length}
    (ht : ts.dropWhile Token.isTrivia = t :: rest) (hk : combinator? t.kind = some c)
    (hp : Parsed limit stop depth false (rest.dropWhile Token.isTrivia) p)
    (hle : (rest.dropWhile Token.isTrivia).length ≤ ts.length) :
    Parsed limit stop depth isFirst ts
      (p.cons
        (.leaf (.combinator c t.text)
          ⟨Token.textOf (ts.takeWhile Token.isTrivia), Token.textOf (rest.takeWhile Token.isTrivia)⟩
          t.start)
        hle)
  /-- A pseudo-class with arguments, whose parenthesis is closed by `u`. -/
  | call {depth : Nat} {isFirst : Bool} {ts rest rest' : List Token} {t u : Token} {o : Opening}
    {arguments : Parts o.body.length} {p : Parts rest'.length}
    (ht : ts.dropWhile Token.isTrivia = t :: rest) (ho : opening? (t :: rest) = some o)
    (hd : depth < limit) (ha : Parsed limit stop (depth + 1) true o.body arguments)
    (hr : arguments.rest = u :: rest') (hp : Parsed limit stop depth false rest' p)
    (hle : rest'.length ≤ ts.length) :
    Parsed limit stop depth isFirst ts
      (p.consSimple isFirst (ts.takeWhile Token.isTrivia)
        (.node (.pseudo o.name true) .none t.start
          (arguments.alternatives (Token.startOf stop o.body)))
        hle)
  /-- A simple selector without arguments, made of `t` and `n` more tokens. -/
  | leaf {depth : Nat} {isFirst : Bool} {ts rest : List Token} {t : Token} {kind : Kind} {n : Nat}
    {p : Parts (rest.drop n).length} (ht : ts.dropWhile Token.isTrivia = t :: rest)
    (hparen : t.kind ≠ .rightParen) (hcomma : t.kind ≠ .comma) (hk : combinator? t.kind = none)
    (ho : opening? (t :: rest) = none) (hs : simple t rest = .ok (kind, n))
    (hp : Parsed limit stop depth false (rest.drop n) p)
    (hle : (rest.drop n).length ≤ ts.length) :
    Parsed limit stop depth isFirst ts
      (p.consSimple isFirst (ts.takeWhile Token.isTrivia)
        (simpleNode kind t.start (endsCompound (rest.drop n))) hle)

/-- What is read is read by the rules. -/
theorem parsed_of_parseParts {limit stop depth : Nat} {isFirst : Bool} {ts : List Token}
    {p : Parts ts.length} (h : parseParts limit stop depth isFirst ts = .ok p) :
    Parsed limit stop depth isFirst ts p := by
  fun_induction parseParts limit stop depth isFirst ts with
  | case1 => cases h; exact .finish ‹_› _
  | case2 => cases h; exact .close ‹_› ‹_› _
  | case3 =>
    rename_i ih
    obtain ⟨p', hp, h⟩ := bind_eq_ok.mp h
    cases h
    exact .comma ‹_› ‹_› (ih hp) _
  | case4 =>
    rename_i ih
    obtain ⟨p', hp, h⟩ := bind_eq_ok.mp h
    cases h
    exact .combinator ‹_› ‹_› (ih hp) _
  | case5 => cases h
  | case6 =>
    rename_i hd ih ih'
    obtain ⟨arguments, ha, h⟩ := bind_eq_ok.mp h
    split at h
    next => cases h
    next u rest' hr =>
      obtain ⟨p', hp, h⟩ := bind_eq_ok.mp h
      cases h
      exact .call ‹_› ‹_› (Nat.lt_of_not_le hd) (ih ha) hr (ih' arguments u rest' hr hp) _
  | case7 =>
    rename_i ih
    obtain ⟨⟨kind, n⟩, hs, h⟩ := bind_eq_ok.mp h
    obtain ⟨p', hp, h⟩ := bind_eq_ok.mp h
    cases h
    exact .leaf ‹_› ‹_› ‹_› ‹_› ‹_› hs (ih n hp) _

/-! ### Shape -/

/-- Whether a node of this kind holds no other nodes. -/
def Kind.isLeaf : Kind → Bool
  | .root | .selector | .pseudo _ true => false
  | _ => true

/-- The tree is a node of an alternative, with all below it in order. -/
inductive Tree.IsSimple : Tree → Prop where
  | leaf {kind : Kind} (spaces : Spaces) (start : Nat) (hk : kind.isLeaf) :
    IsSimple (.leaf kind spaces start)
  | call (name : String) (spaces : Spaces) (start : Nat) {arguments : List Tree}
    (hne : arguments ≠ []) (hk : ∀ a ∈ arguments, a.kind = .selector)
    (h : ∀ a ∈ arguments, ∀ t ∈ a.children, IsSimple t) :
    IsSimple (.node (.pseudo name true) spaces start arguments)

/-- The tree is an alternative, with all below it in order. -/
def Tree.IsAlternative (t : Tree) : Prop :=
  t.kind = .selector ∧ ∀ u ∈ t.children, u.IsSimple

/-- The tree is a selector list, with all below it in order. -/
structure Tree.IsList (t : Tree) : Prop where
  kind : t.kind = .root
  ne_nil : t.children ≠ []
  alternatives : ∀ a ∈ t.children, a.IsAlternative

theorem Tree.IsSimple.withSpaces {t : Tree} (h : t.IsSimple) (spaces : Spaces) :
    (t.withSpaces spaces).IsSimple := by
  cases h with
  | leaf _ start hk => exact .leaf spaces start hk
  | call name _ start hne hk h => exact .call name spaces start hne hk h

/-- A pseudo-class whose arguments are in order. -/
theorem Tree.isSimple_pseudo (name : String) (spaces : Spaces) (start : Nat) {arguments : List Tree}
    (hne : arguments ≠ []) (h : ∀ a ∈ arguments, a.IsAlternative) :
    (Tree.node (.pseudo name true) spaces start arguments).IsSimple :=
  .call name spaces start hne (fun a ha => (h a ha).1) fun a ha => (h a ha).2

/-! ### Reading -/

/-- A token is no descendant combinator. -/
theorem ne_descendant_of_combinator? {kind : Token.Kind} {c : Combinator}
    (h : combinator? kind = some c) : c ≠ .descendant := by
  rintro rfl
  unfold combinator? at h
  repeat' split at h
  all_goals cases h

/-- A simple selector without arguments holds nothing. -/
theorem isLeaf_of_simple {t : Token} {ts : List Token} {kind : Kind} {n : Nat}
    (h : simple t ts = .ok (kind, n)) : kind.isLeaf := by
  rw [simple.eq_def] at h
  cases hk : t.kind
  all_goals
    rw [hk] at h
    dsimp only at h
    repeat' split at h
    all_goals cases h
    all_goals rfl

theorem isSimple_simpleNode {kind : Kind} (hk : kind.isLeaf) (start : Nat) (atEnd : Bool) :
    (simpleNode kind start atEnd).IsSimple := by
  unfold simpleNode
  repeat' split
  all_goals exact .leaf _ _ hk

theorem isSimple_spacingNode (trivia : List Token) : (spacingNode trivia).IsSimple := by
  unfold spacingNode
  split
  all_goals exact .leaf _ _ rfl

theorem Parts.rest_cons {m n : Nat} (t : Tree) (p : Parts m) (hmn : m ≤ n) :
    (p.cons t hmn).rest = p.rest := by
  unfold Parts.cons
  split <;> rfl

theorem Parts.others_cons {m n : Nat} (t : Tree) (p : Parts m) (h : m ≤ n) :
    (p.cons t h).others = p.others := by
  unfold Parts.cons
  split <;> rfl

theorem Parts.consSimple_eq {m n : Nat} (isFirst : Bool) (trivia : List Token) (t : Tree)
    (p : Parts m) (h : m ≤ n) :
    (p.consSimple isFirst trivia t h).others = p.others ∧
      (p.consSimple isFirst trivia t h).rest = p.rest := by
  unfold Parts.consSimple
  split
  · exact ⟨p.others_cons _ h, p.rest_cons _ h⟩
  split
  · exact ⟨p.others_cons _ h, p.rest_cons _ h⟩
  · exact ⟨((p.cons t h).others_cons ..).trans (p.others_cons ..),
      ((p.cons t h).rest_cons ..).trans (p.rest_cons ..)⟩

/-- The parts are in order. -/
def Parts.IsShaped {n : Nat} (p : Parts n) : Prop :=
  (∀ t ∈ p.nodes, t.IsSimple) ∧ ∀ a ∈ p.others, a.IsAlternative

theorem Parts.IsShaped.alternatives {n : Nat} {p : Parts n} (h : p.IsShaped) (start : Nat) :
    ∀ a ∈ p.alternatives start, a.IsAlternative := by
  intro a ha
  rcases List.mem_cons.mp ha with rfl | ha
  · exact ⟨rfl, h.1⟩
  · exact h.2 a ha

theorem Parts.IsShaped.cons {m n : Nat} {t : Tree} {p : Parts m} (h : p.IsShaped)
    (ht : t.IsSimple) (hmn : m ≤ n) : (p.cons t hmn).IsShaped := by
  unfold Parts.cons
  split
  · exact ⟨fun u hu => List.mem_singleton.mp hu ▸ ht.withSpaces _, h.2⟩
  · refine ⟨fun u hu => ?_, h.2⟩
    rcases List.mem_cons.mp hu with rfl | hu
    · exact ht
    · exact h.1 u hu

theorem Parts.IsShaped.consSimple {m n : Nat} {t : Tree} {p : Parts m} (h : p.IsShaped)
    (ht : t.IsSimple) (isFirst : Bool) (trivia : List Token) (hmn : m ≤ n) :
    (p.consSimple isFirst trivia t hmn).IsShaped := by
  unfold Parts.consSimple
  split
  · exact h.cons (ht.withSpaces _) hmn
  split
  · exact h.cons ht hmn
  · exact (h.cons ht hmn).cons (isSimple_spacingNode trivia) (Nat.le_refl n)

theorem Parsed.isShaped {limit stop depth : Nat} {isFirst : Bool} {ts : List Token}
    {p : Parts ts.length} (h : Parsed limit stop depth isFirst ts p) : p.IsShaped := by
  induction h with
  | finish => exact ⟨by simp, by simp⟩
  | close => exact ⟨by simp, by simp⟩
  | comma _ _ _ _ ih => exact ⟨by simp, ih.alternatives _⟩
  | combinator _ _ _ hle ih => exact ih.cons (.leaf _ _ rfl) hle
  | call _ _ _ _ _ _ hle iha ih =>
    refine ih.consSimple ?_ _ _ hle
    exact Tree.isSimple_pseudo _ _ _ (List.cons_ne_nil _ _) (iha.alternatives _)
  | leaf _ _ _ _ _ hs _ hle ih =>
    exact ih.consSimple (isSimple_simpleNode (isLeaf_of_simple hs) _ _) _ _ hle

/-- A selector list that was read comes from its parts. -/
theorem parsed_of_parseWithin {limit : Nat} {source : String} {t : Tree}
    (h : parseWithin limit source = .ok t) :
    ∃ p : Parts (Token.lex source).length,
      Parsed limit source.utf8ByteSize 0 true (Token.lex source) p ∧ p.rest = [] ∧
      t = .node .root .none 0
        (p.alternatives (Token.startOf source.utf8ByteSize (Token.lex source))) := by
  obtain ⟨p, hp, h⟩ := bind_eq_ok.mp h
  split at h
  next hr =>
    cases h
    exact ⟨p, parsed_of_parseParts hp, hr, rfl⟩
  next => cases h

/-- A selector list that was read is in order. -/
theorem isList_of_parse {source : String} {t : Tree} (h : parse source = .ok t) : t.IsList := by
  obtain ⟨p, hp, -, rfl⟩ := parsed_of_parseWithin h
  exact ⟨rfl, List.cons_ne_nil _ _, hp.isShaped.alternatives _⟩

end Selector
end StyleScope
