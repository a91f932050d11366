/-
# Resolving loses, invents and reorders nothing

A resolved list is the list that was read, up to what the scopes are about:
keywords are gone, marks are new, and white space next to a broad keyword is
dropped. Two functions undo this. `splice` takes the keywords out of a list
that was read: a broad keyword leaves nothing, a narrow one the contents of
its arguments. `unmark` takes the marks off a list that was resolved. What is
left is compared in preorder (`preorder`), node by node, and with each node
whether white space stands between it and its neighbour in front.

The walk drops white space only where other white space stays. The invariant
that carries this is `Ready`: where the walk may drop white space, either
nothing stands in front or white space has been passed already. It rests on how
lists are read (`IsTidy`): no alternative ends in white space, and only
the first node of an alternative has text in front of it.

Key definitions: `Scope.preorder`, `Scope.splice`, `Scope.unmark`.
Key theorems: `Scope.conserves_of_isNeat`, `Scope.preorder_resolve`.
-/
import StyleScope.Proofs.EffectiveScope
import StyleScope.Proofs.SelectorPrint

namespace StyleScope
namespace Selector

/-! ### Where white space stands -/

/-- The nodes of an alternative do not end in white space, and of its keywords
and other pseudo-classes only the first node has text in front of it. -/
structure IsTidy (ts : List Tree) : Prop where
  last : ∀ t ∈ ts.getLast?, t.isSpacing = false
  tail : ∀ t ∈ ts.tail, ∀ name hasArguments, t.kind = .pseudo name hasArguments →
    t.spaces.before = ""

/-- The tree is a node of an alternative, and below it white space stands where
a reader puts it. -/
inductive Tree.IsNeat : Tree → Prop where
  | leaf {kind : Kind} (spaces : Spaces) (start : Nat) (hk : kind.isLeaf) :
    IsNeat (.leaf kind spaces start)
  | call (name : String) (spaces : Spaces) (start : Nat) {arguments : List Tree}
    (hk : ∀ a ∈ arguments, a.kind = .selector) (ht : ∀ a ∈ arguments, IsTidy a.children)
    (h : ∀ a ∈ arguments, ∀ t ∈ a.children, IsNeat t) :
    IsNeat (.node (.pseudo name true) spaces start arguments)

/-- The tree is an alternative, and in it white space stands where a reader
puts it. -/
structure Tree.IsNeatAlternative (t : Tree) : Prop where
  kind : t.kind = .selector
  tidy : IsTidy t.children
  neat : ∀ u ∈ t.children, u.IsNeat

theorem Tree.IsNeat.withSpaces {t : Tree} (h : t.IsNeat) (spaces : Spaces) :
    (t.withSpaces spaces).IsNeat := by
  cases h with
  | leaf _ start hk => exact .leaf spaces start hk
  | call name _ start hk ht h => exact .call name spaces start hk ht h

/-- A simple selector is no white space. -/
theorem not_isSpacing_of_simple {t : Token} {ts : List Token} {kind : Kind} {n : Nat}
    (h : simple t ts = .ok (kind, n)) : kind.isSpacing = false := by
  rw [simple.eq_def] at h
  cases hk : t.kind
  all_goals
    rw [hk] at h
    dsimp only at h
    repeat' split at h
    all_goals cases h
    all_goals rfl

theorem not_isSpacing_simpleNode {kind : Kind} (hk : kind.isSpacing = false) (start : Nat)
    (atEnd : Bool) : (simpleNode kind start atEnd).isSpacing = false := by
  unfold simpleNode
  repeat' split
  all_goals first | rfl | exact hk

theorem isNeat_simpleNode {kind : Kind} (hk : kind.isLeaf) (start : Nat) (atEnd : Bool) :
    (simpleNode kind start atEnd).IsNeat := by
  unfold simpleNode
  repeat' split
  all_goals exact .leaf _ _ hk

/-! ### Reading keeps white space in its place -/

/-- White space stands in its place in these parts. `isFirst` says that an
alternative starts with them. -/
structure Parts.IsNeat {n : Nat} (isFirst : Bool) (p : Parts n) : Prop where
  neat : ∀ t ∈ p.nodes, t.IsNeat
  last : ∀ t ∈ p.nodes.getLast?, t.isSpacing = false
  before : ∀ t ∈ (if isFirst then p.nodes.tail else p.nodes), ∀ name hasArguments,
    t.kind = .pseudo name hasArguments → t.spaces.before = ""
  others : ∀ a ∈ p.others, a.IsNeatAlternative

theorem Parts.IsNeat.alternatives {n : Nat} {p : Parts n} (h : p.IsNeat true) (start : Nat) :
    ∀ a ∈ p.alternatives start, a.IsNeatAlternative := by
  intro a ha
  rcases List.mem_cons.mp ha with rfl | ha
  · exact ⟨rfl, ⟨h.last, h.before⟩, h.neat⟩
  · exact h.others a ha

/-- One more node in front, which is no white space if the parts have no node. -/
theorem Parts.IsNeat.cons {m n : Nat} {t : Tree} {p : Parts m} (h : p.IsNeat false)
    (ht : t.IsNeat) (hs : p.nodes = [] → t.isSpacing = false) (isFirst : Bool)
    (hb : isFirst = false → t.spaces.before = "" ∨ ∀ name a, t.kind ≠ .pseudo name a)
    (hmn : m ≤ n) : (p.cons t hmn).IsNeat isFirst := by
  have hbefore : ∀ u : Tree, u.kind = t.kind → u.spaces.before = t.spaces.before →
      isFirst = false → ∀ name a, u.kind = .pseudo name a → u.spaces.before = "" := by
    intro u hkind hspaces hf name a hu
    rcases hb hf with hb | hb
    · rw [hspaces, hb]
    · exact absurd (hkind.symm.trans hu) (hb name a)
  unfold Parts.cons
  split
  next hnil =>
    refine ⟨fun u hu => ?_, fun u hu => ?_, fun u hu => ?_, h.others⟩
    · rw [List.mem_singleton.mp hu]
      exact ht.withSpaces _
    · obtain rfl : t.setAfter _ = u := Option.some.inj hu
      rw [Tree.setAfter, Tree.isSpacing_withSpaces]
      exact hs hnil
    · cases isFirst with
      | true => cases hu
      | false =>
        rw [List.mem_singleton.mp hu]
        obtain ⟨kind, spaces, start, children⟩ := t
        exact hbefore _ rfl rfl rfl
  next hne =>
    refine ⟨fun u hu => ?_, fun u hu => ?_, fun u hu => ?_, h.others⟩
    · rcases List.mem_cons.mp hu with rfl | hu
      · exact ht
      · exact h.neat u hu
    · obtain ⟨v, vs, hvs⟩ := List.exists_cons_of_ne_nil hne
      refine h.last u ?_
      rw [hvs] at hu ⊢
      rwa [List.getLast?_cons_cons] at hu
    · cases isFirst with
      | true => exact h.before u hu
      | false =>
        rcases List.mem_cons.mp hu with rfl | hu
        · exact hbefore u rfl rfl rfl
        · exact h.before u hu

theorem Parts.nodes_cons_ne_nil {m n : Nat} (t : Tree) (p : Parts m) (hmn : m ≤ n) :
    (p.cons t hmn).nodes ≠ [] := by
  unfold Parts.cons
  split <;> simp

theorem Parts.IsNeat.consSimple {m n : Nat} {t : Tree} {p : Parts m} (h : p.IsNeat false)
    (ht : t.IsNeat) (hs : t.isSpacing = false) (hb : t.spaces.before = "") (isFirst : Bool)
    (trivia : List Token) (hmn : m ≤ n) : (p.consSimple isFirst trivia t hmn).IsNeat isFirst := by
  unfold Parts.consSimple
  cases isFirst with
  | true =>
    refine h.cons (ht.withSpaces _) (fun _ => ?_) true (fun hf => nomatch hf) hmn
    rw [Tree.isSpacing_withSpaces]
    exact hs
  | false =>
    have hnode := h.cons ht (fun _ => hs) false (fun _ => .inl hb) hmn
    simp only [Bool.false_eq_true, if_false]
    split
    · exact hnode
    · refine hnode.cons ?_ (fun hnil => absurd hnil (p.nodes_cons_ne_nil t hmn)) false (fun _ => ?_)
        (Nat.le_refl n)
      · unfold spacingNode
        split <;> exact .leaf _ _ rfl
      · unfold spacingNode
        split <;> exact .inl rfl

/-- White space stands in its place in parts that were read. -/
theorem Parsed.isNeat {limit stop depth : Nat} {isFirst : Bool} {ts : List Token}
    {p : Parts ts.length} (h : Parsed limit stop depth isFirst ts p) : p.IsNeat isFirst := by
  induction h with
  | finish => exact ⟨by simp, by simp, by simp, by simp⟩
  | close => exact ⟨by simp, by simp, by simp, by simp⟩
  | comma _ _ _ _ ih => exact ⟨by simp, by simp, by simp, ih.alternatives _⟩
  | @combinator _ isFirst _ _ t c _ _ hk _ hle ih =>
    have hc := ne_descendant_of_combinator? hk
    refine ih.cons (.leaf _ _ rfl) (fun _ => ?_) isFirst (fun _ => .inr ?_) hle
    · cases c with
      | descendant => exact absurd rfl hc
      | _ => rfl
    · simp [Tree.leaf, Tree.kind]
  | call _ _ _ _ _ _ hle iha ih =>
    have hargs := iha.alternatives
    refine ih.consSimple ?_ rfl rfl _ _ hle
    exact .call _ _ _ (fun a ha => (hargs _ a ha).kind) (fun a ha => (hargs _ a ha).tidy)
      fun a ha => (hargs _ a ha).neat
  | leaf _ _ _ _ _ hs _ hle ih =>
    have hspacing := not_isSpacing_simpleNode (not_isSpacing_of_simple hs)
    exact ih.consSimple (isNeat_simpleNode (isLeaf_of_simple hs) _ _) (hspacing _ _)
      (before_simpleNode ..) _ _ hle

/-- The alternatives of a list that was read have white space in its place. -/
theorem isNeatAlternative_of_parse {source : String} {t : Tree} (h : parse source = .ok t) :
    ∀ a ∈ t.children, a.IsNeatAlternative := by
  obtain ⟨p, hp, -, rfl⟩ := parsed_of_parseWithin h
  exact hp.isNeat.alternatives _

end Selector

namespace Scope

open Selector (Tree Spaces)

/-! ### Preorder -/

/-- A node as the preorder of a tree shows it. -/
structure Entry where
  depth : Nat
  kind : Selector.Kind
  start : Nat
  /-- Whether white space stands between the node and its neighbour in front,
  if it has one. -/
  gap : Option Bool
  /-- What an exchange holds, as it stands. -/
  held : List Tree

/-- The gap behind white space. In front of the first node it means nothing. -/
def widen (gap : Option Bool) : Option Bool :=
  gap.map fun _ => true

mutual

/-- The node behind the gap and all below it, in preorder. White space is not
shown, only the gap that it makes. -/
def entriesOf (depth : Nat) (gap : Option Bool) : Tree → List Entry
  | .node kind _ start children =>
    if isForeign kind then [⟨depth, kind, start, gap, children⟩]
    else ⟨depth, kind, start, gap, []⟩ :: entriesAlong (depth + 1) none children

/-- The nodes of a sequence and all below them. -/
def entriesAlong (depth : Nat) (gap : Option Bool) : List Tree → List Entry
  | [] => []
  | t :: ts =>
    if t.isSpacing then entriesAlong depth (widen gap) ts
    else entriesOf depth gap t ++ entriesAlong depth (some false) ts

end

/-- The preorder of a tree. -/
def preorder (t : Tree) : List Entry :=
  entriesOf 0 none t

/-! ### Without keywords, without marks -/

mutual

/-- What a node of a list that was read leaves without its keywords: a broad
keyword leaves nothing, and a narrow one what its arguments hold. -/
def splice : Tree → List Tree
  | .node (.pseudo name hasArguments) spaces start children =>
    match Keyword.ofPseudo? name, hasArguments with
    | some _, true => spliceContents children
    | some _, false => []
    | none, _ =>
      if isExchange name then [.node (.pseudo name hasArguments) spaces start children]
      else [.node (.pseudo name hasArguments) spaces start (spliceEach children)]
  | .node kind spaces start children => [.node kind spaces start (spliceEach children)]

def spliceEach : List Tree → List Tree
  | [] => []
  | t :: ts => splice t ++ spliceEach ts

/-- What the arguments of a narrow keyword hold, one after the other. -/
def spliceContents : List Tree → List Tree
  | [] => []
  | .node _ _ _ children :: ts => spliceEach children ++ spliceContents ts

end

/-- A selector list without its keywords. -/
def spliced (t : Tree) : Tree :=
  .node t.kind t.spaces t.start (spliceEach t.children)

/-- The class or id under a mark. -/
def marked? : Selector.Kind → List Tree → Option Tree
  | .pseudo name true, [.node .selector _ _ [.node kind spaces start []]] =>
    if name = Keyword.localScope.text ∧ kind.name?.isSome then some (.leaf kind spaces start)
    else none
  | _, _ => none

mutual

/-- The tree with each mark replaced by the class or id under it. -/
def unmark : Tree → Tree
  | .node kind spaces start children =>
    match marked? kind children with
    | some t => t
    | none =>
      if isForeign kind then .node kind spaces start children
      else .node kind spaces start (unmarkEach children)

def unmarkEach : List Tree → List Tree
  | [] => []
  | t :: ts => unmark t :: unmarkEach ts

end

/-! ### Sequences -/

/-- The gap behind a sequence. -/
def gapAfter (gap : Option Bool) : List Tree → Option Bool
  | [] => gap
  | t :: ts => gapAfter (if t.isSpacing then widen gap else some false) ts

theorem gapAfter_append (gap : Option Bool) (ts us : List Tree) :
    gapAfter gap (ts ++ us) = gapAfter (gapAfter gap ts) us := by
  induction ts generalizing gap with
  | nil => rfl
  | cons t ts ih => exact ih _

theorem entriesAlong_nil (depth : Nat) (gap : Option Bool) : entriesAlong depth gap [] = [] := by
  unfold entriesAlong
  rfl

theorem entriesAlong_append (depth : Nat) (gap : Option Bool) (ts us : List Tree) :
    entriesAlong depth gap (ts ++ us) =
      entriesAlong depth gap ts ++ entriesAlong depth (gapAfter gap ts) us := by
  induction ts generalizing gap with
  | nil => rw [entriesAlong_nil]; rfl
  | cons t ts ih =>
    rw [List.cons_append, entriesAlong, entriesAlong, gapAfter]
    split
    · exact ih _
    · rw [ih, List.append_assoc]

theorem entriesAlong_single {t : Tree} (h : t.isSpacing = false) (depth : Nat)
    (gap : Option Bool) : entriesAlong depth gap [t] = entriesOf depth gap t := by
  rw [entriesAlong, h, if_neg Bool.false_ne_true, entriesAlong_nil, List.append_nil]

theorem unmarkEach_append (ts us : List Tree) :
    unmarkEach (ts ++ us) = unmarkEach ts ++ unmarkEach us := by
  induction ts with
  | nil => simp [unmarkEach]
  | cons t ts ih => simp [unmarkEach, ih]

theorem not_isSpacing_of_marked? {kind : Selector.Kind} {children : List Tree} {t : Tree}
    (h : marked? kind children = some t) : kind.isSpacing = false ∧ t.isSpacing = false := by
  unfold marked? at h
  split at h
  next kind' _ _ =>
    split at h
    next hn =>
      obtain rfl := Option.some.inj h
      refine ⟨rfl, ?_⟩
      cases kind' with
      | combinator _ _ => cases hn.2
      | _ => rfl
    next => cases h
  next => cases h

/-- A mark is no white space, and neither is what it marks. -/
theorem isSpacing_unmark (t : Tree) : (unmark t).isSpacing = t.isSpacing := by
  obtain ⟨kind, spaces, start, children⟩ := t
  unfold unmark
  split
  next u h =>
    obtain ⟨hk, hu⟩ := not_isSpacing_of_marked? h
    exact hu.trans hk.symm
  next => split <;> rfl

theorem gapAfter_unmarkEach (gap : Option Bool) (ts : List Tree) :
    gapAfter gap (unmarkEach ts) = gapAfter gap ts := by
  induction ts generalizing gap with
  | nil => simp [unmarkEach]
  | cons t ts ih => rw [unmarkEach, gapAfter, gapAfter, isSpacing_unmark, ih]

/-- White space at the end of a sequence is not shown. -/
theorem entriesAlong_spacing {ts : List Tree} (h : ∀ t ∈ ts, t.isSpacing) (depth : Nat)
    (gap : Option Bool) : entriesAlong depth gap ts = [] := by
  induction ts generalizing gap with
  | nil => exact entriesAlong_nil depth gap
  | cons t ts ih =>
    rw [entriesAlong, if_pos (h t List.mem_cons_self)]
    exact ih (fun u hu => h u (List.mem_cons_of_mem t hu)) _

/-! ### Nodes that match -/

/-- Behind this gap, `nodes` without their marks show what `spliced` shows, and
the same gap follows. -/
structure Matches (gap : Option Bool) (nodes spliced : List Tree) : Prop where
  entries : ∀ depth, entriesAlong depth gap (unmarkEach nodes) = entriesAlong depth gap spliced
  after : gapAfter gap nodes = gapAfter gap spliced

namespace Matches

variable {gap : Option Bool} {nodes nodes' us us' : List Tree}

theorem nil : Matches gap [] [] := by
  refine ⟨fun depth => ?_, rfl⟩
  rw [unmarkEach]

theorem append (h : Matches gap nodes us) (h' : Matches (gapAfter gap us) nodes' us') :
    Matches gap (nodes ++ nodes') (us ++ us') := by
  refine ⟨fun depth => ?_, ?_⟩
  · rw [unmarkEach_append, entriesAlong_append, entriesAlong_append, gapAfter_unmarkEach,
      h.entries, h.after, h'.entries]
  · rw [gapAfter_append, gapAfter_append, h.after, h'.after]

/-- A node that shows what one other node shows. -/
theorem single {t u : Tree} (ht : t.isSpacing = false) (hu : u.isSpacing = false)
    (h : ∀ depth, entriesOf depth gap (unmark t) = entriesOf depth gap u) :
    Matches gap [t] [u] := by
  refine ⟨fun depth => ?_, ?_⟩
  · rw [unmarkEach, unmarkEach, entriesAlong_single ((isSpacing_unmark t).trans ht),
      entriesAlong_single hu, h]
  · simp only [gapAfter, ht, hu]

theorem entriesOf_withSpaces (depth : Nat) (gap : Option Bool) (spaces : Spaces) (t : Tree) :
    entriesOf depth gap (unmark (t.withSpaces spaces)) = entriesOf depth gap (unmark t) := by
  obtain ⟨kind, _, start, children⟩ := t
  simp only [Tree.withSpaces, unmark]
  split
  · rfl
  · split <;> simp only [entriesOf]

/-- The text around a node is not shown. -/
theorem withSpaces {t : Tree} (h : Matches gap (nodes ++ t :: nodes') us) (spaces : Spaces) :
    Matches gap (nodes ++ t.withSpaces spaces :: nodes') us := by
  have hs := Selector.Tree.isSpacing_withSpaces spaces t
  refine ⟨fun depth => ?_, ?_⟩
  · rw [← h.entries depth]
    simp only [unmarkEach_append, unmarkEach, entriesAlong_append, entriesAlong, isSpacing_unmark,
      hs, entriesOf_withSpaces]
  · rw [← h.after]
    simp only [gapAfter_append, gapAfter, hs]

theorem surround (h : Matches gap nodes us) (spaces : Spaces) :
    Matches gap (Scope.surround spaces nodes) us :=
  surround_of_withSpaces (P := (Matches gap · us)) (fun _ _ _ spaces h => withSpaces h spaces)
    spaces h

/-- White space at the end of a sequence is not shown, so it can go. -/
theorem entries_trimSpacing (h : Matches gap nodes us) (depth : Nat) :
    entriesAlong depth gap (unmarkEach (trimSpacing nodes)) = entriesAlong depth gap us := by
  obtain ⟨blanks, hsplit, hblanks⟩ := exists_eq_trimSpacing_append nodes
  have hspace : ∀ ts : List Tree, (∀ t ∈ ts, t.isSpacing) → ∀ t ∈ unmarkEach ts, t.isSpacing := by
    intro ts hts
    induction ts with
    | nil => simp [unmarkEach]
    | cons t ts ih =>
      intro u hu
      rw [unmarkEach] at hu
      rcases List.mem_cons.mp hu with rfl | hu
      · rw [isSpacing_unmark]
        exact hts t List.mem_cons_self
      · exact ih (fun v hv => hts v (List.mem_cons_of_mem t hv)) u hu
  have hentries := h.entries depth
  rwa [hsplit, unmarkEach_append, entriesAlong_append, entriesAlong_spacing (hspace _ hblanks),
    List.append_nil] at hentries

end Matches

/-! ### Steps -/

section Walks

variable {ctx : Context} {gap : Option Bool} {w w' : Walk} {nodes ts : List Tree} {t : Tree}

/-- Where the walk may drop white space, either no node stands in front or
white space does. -/
def Ready (gap : Option Bool) (w : Walk) : Prop :=
  (w.afterSpace ∨ ∃ keyword, w.demand = .space keyword) → gap ≠ some false

theorem ready_passed (gap : Option Bool) (w : Walk) : Ready gap w.passed := by
  rintro (h | ⟨_, h⟩) <;> cases h

theorem widen_ne (gap : Option Bool) : widen gap ≠ some false := by
  cases gap <;> simp [widen]

theorem widen_eq {gap : Option Bool} (h : gap ≠ some false) : widen gap = gap := by
  cases gap with
  | none => rfl
  | some b =>
    cases b with
    | false => exact absurd rfl h
    | true => rfl

/-- The text in front of a broad keyword is kept as white space; it makes no
gap where no node stands in front. -/
def Leads (gap : Option Bool) (t : Tree) : Prop :=
  (broad? t).isSome → t.spaces.before ≠ "" → gap = none

/-- A step from this node gives nodes that match what the node leaves without
keywords. Inside of a narrow keyword there is no broad one. -/
def Conserves (ctx : Context) (t : Tree) : Prop :=
  ∀ (gap : Option Bool) (w w' : Walk) (nodes : List Tree), Ready gap w →
    (w.standing.inside = none → Leads gap t) → Step ctx w t nodes w' →
    Matches gap nodes (splice t) ∧ Ready (gapAfter gap (splice t)) w'

theorem inside_of_step (h : Step ctx w t nodes w') :
    w'.standing.inside = w.standing.inside := by
  cases h <;> rfl

/-- Inside of a narrow keyword a node that is no white space gives one node
that is none. -/
theorem not_isSpacing_of_step (hs : t.isSpacing = false) (hi : w.standing.inside ≠ none)
    (h : Step ctx w t nodes w') : ∃ u, nodes = [u] ∧ u.isSpacing = false := by
  cases h with
  | dropSpace => cases hs
  | keepSpace => cases hs
  | narrow _ _ _ hn => exact absurd hn hi
  | broad _ _ hn => exact absurd hn hi
  | name =>
    refine ⟨_, rfl, ?_⟩
    split
    · rfl
    · exact hs
  | _ => exact ⟨_, rfl, hs⟩

/-- A walk along nodes is a chain of steps. Only the first node may have text
in front of it. -/
theorem matches_resolveSequence (hc : ∀ t ∈ ts, Conserves ctx t) (hw : Ready gap w)
    (hfirst : w.standing.inside = none → ∀ t ∈ ts.head?, Leads gap t)
    (htail : w.standing.inside = none → ∀ t ∈ ts.tail, ∀ gap, Leads gap t)
    (h : (resolveSequence ctx ts w).result = .ok (nodes, w')) :
    Matches gap nodes (spliceEach ts) := by
  induction ts generalizing gap w nodes with
  | nil =>
    obtain ⟨rfl, -⟩ := resolveSequence_nil h
    rw [spliceEach]
    exact .nil
  | cons t ts ih =>
    obtain ⟨out, v, more, hstep, hmore, rfl⟩ := resolveSequence_cons h
    obtain ⟨hout, hv⟩ :=
      hc t List.mem_cons_self gap w v out hw (fun hi => hfirst hi t rfl) hstep
    have hinside := inside_of_step hstep
    rw [spliceEach]
    refine hout.append (ih (fun u hu => hc u (List.mem_cons_of_mem t hu)) hv ?_ ?_ hmore)
    · exact fun hi u hu => htail (hinside ▸ hi) u (List.mem_of_mem_head? hu) _
    · exact fun hi u hu => htail (hinside ▸ hi) u (List.mem_of_mem_tail hu)

/-- Inside of a narrow keyword nothing is dropped, so the walk ends in what is
no white space if its nodes do. -/
theorem getLast?_resolveSequence (hi : w.standing.inside ≠ none) (hne : ts ≠ [])
    (hs : ∀ t ∈ ts.getLast?, t.isSpacing = false)
    (h : (resolveSequence ctx ts w).result = .ok (nodes, w')) :
    ∃ u, nodes.getLast? = some u ∧ u.isSpacing = false := by
  induction ts generalizing w nodes with
  | nil => exact absurd rfl hne
  | cons t ts ih =>
    obtain ⟨out, v, more, hstep, hmore, rfl⟩ := resolveSequence_cons h
    cases ts with
    | nil =>
      obtain ⟨rfl, -⟩ := resolveSequence_nil hmore
      obtain ⟨u, rfl, hu⟩ := not_isSpacing_of_step (hs t rfl) hi hstep
      exact ⟨u, rfl, hu⟩
    | cons t' ts =>
      have hi' : v.standing.inside ≠ none := by
        rw [inside_of_step hstep]
        exact hi
      rw [List.getLast?_cons_cons] at hs
      obtain ⟨u, hu, hspace⟩ := ih hi' (List.cons_ne_nil _ _) hs hmore
      exact ⟨u, by rw [List.getLast?_append, hu]; rfl, hspace⟩

theorem trimSpacing_eq_self (h : ∀ t ∈ nodes.getLast?, t.isSpacing = false) :
    trimSpacing nodes = nodes := by
  refine List.rdropWhile_eq_self_iff.mpr fun hne => ?_
  rw [h _ (List.getLast?_eq_some_getLast hne)]
  exact Bool.false_ne_true

/-- The arguments of a narrow keyword. Nothing is trimmed there. -/
theorem matches_resolveNarrow {standing : Standing} {hasLocals hasLocals' : Bool}
    (hc : ∀ a ∈ ts, ∀ t ∈ a.children, Conserves ctx t)
    (ht : ∀ a ∈ ts, Selector.IsTidy a.children) (hi : standing.inside ≠ none)
    (h : (resolveNarrow ctx ts standing hasLocals).result = .ok (nodes, hasLocals')) :
    Matches gap nodes (spliceContents ts) := by
  induction ts generalizing gap standing hasLocals nodes with
  | nil =>
    obtain ⟨rfl, -⟩ := resolveNarrow_nil h
    rw [spliceContents]
    exact .nil
  | cons a ts ih =>
    obtain ⟨out, v, more, hout, hmore, rfl⟩ := resolveNarrow_cons h
    have hready : Ready gap ⟨standing, false, .nothing, hasLocals⟩ := by
      rintro (h | ⟨_, h⟩) <;> cases h
    have hmatch := matches_resolveSequence (hc a List.mem_cons_self) hready
      (fun hn => absurd hn hi) (fun hn => absurd hn hi) hout
    have htrim : trimSpacing out = out := by
      refine trimSpacing_eq_self fun t hlast => ?_
      rcases eq_or_ne a.children [] with hnil | hne
      · rw [hnil] at hout
        obtain ⟨rfl, -⟩ := resolveSequence_nil hout
        cases hlast
      · obtain ⟨u, hu, hspace⟩ :=
          getLast?_resolveSequence hi hne (ht a List.mem_cons_self).last hout
        obtain rfl : u = t := Option.some.inj (hu.symm.trans hlast)
        exact hspace
    obtain ⟨kind, spaces, start, children⟩ := a
    rw [htrim, spliceContents]
    refine hmatch.append (ih ?_ ?_ ?_ hmore)
    · exact fun b hb => hc b (List.mem_cons_of_mem _ hb)
    · exact fun b hb => ht b (List.mem_cons_of_mem _ hb)
    · exact hi

/-- An alternative shows what its nodes show, whatever is trimmed at its end. -/
theorem matches_alternative {a : Tree} {out : List Tree} (hk : a.kind = .selector)
    (h : Matches none out (spliceEach a.children)) :
    Matches gap [.node .selector a.spaces a.start (trimSpacing out)] (splice a) := by
  obtain ⟨kind, spaces, start, children⟩ := a
  obtain rfl : kind = .selector := hk
  rw [splice]
  · refine .single rfl rfl fun depth => ?_
    have hmark : ∀ us, marked? .selector us = none := fun _ => rfl
    have hforeign : isForeign .selector = false := rfl
    simp only [unmark, hmark, hforeign, entriesOf, Bool.false_eq_true, if_false]
    exact congrArg _ (h.entries_trimSpacing (depth + 1))
  · simp

/-- In a list that was read only the first node has text in front. -/
theorem leads_of_isTidy (h : Selector.IsTidy ts) (gap : Option Bool) :
    ∀ t ∈ ts.tail, Leads gap t := by
  rintro ⟨kind, spaces, start, children⟩ ht hb hbefore
  cases kind with
  | pseudo name hasArguments => exact absurd (h.tail _ ht name hasArguments rfl) hbefore
  | _ => cases hb

/-- An alternative, or an argument of a pseudo-class that is no keyword, starts
behind no node. -/
theorem matches_begin {a : Tree} {standing : Standing} {hasLocals : Bool}
    (hc : ∀ t ∈ a.children, Conserves ctx t) (ht : Selector.IsTidy a.children)
    (h : (resolveSequence ctx a.children (.begin standing hasLocals)).result =
      .ok (nodes, w')) : Matches none nodes (spliceEach a.children) :=
  matches_resolveSequence hc (fun _ hgap => nomatch hgap) (fun _ _ _ _ _ => rfl)
    (fun _ t hmem gap => leads_of_isTidy ht gap t hmem) h

/-- The arguments of a pseudo-class that is no keyword. -/
theorem matches_resolveArguments {standing : Standing} {hasLocals hasLocals' : Bool}
    (hc : ∀ a ∈ ts, ∀ t ∈ a.children, Conserves ctx t)
    (hk : ∀ a ∈ ts, a.kind = .selector) (ht : ∀ a ∈ ts, Selector.IsTidy a.children)
    (h : (resolveArguments ctx ts standing hasLocals).result = .ok (nodes, hasLocals')) :
    Matches gap nodes (spliceEach ts) := by
  induction ts generalizing gap standing hasLocals nodes with
  | nil =>
    obtain ⟨rfl, -⟩ := resolveArguments_nil h
    rw [spliceEach]
    exact .nil
  | cons a ts ih =>
    obtain ⟨out, v, more, hout, hmore, rfl⟩ := resolveArguments_cons h
    have hmatch := matches_begin (hc a List.mem_cons_self) (ht a List.mem_cons_self) hout
    rw [spliceEach]
    exact (matches_alternative (hk a List.mem_cons_self) hmatch).append
      (ih (fun b hb => hc b (List.mem_cons_of_mem _ hb))
        (fun b hb => hk b (List.mem_cons_of_mem _ hb))
        (fun b hb => ht b (List.mem_cons_of_mem _ hb)) hmore)

/-- Only a keyword marks. -/
theorem marked?_eq_none {name : String} (hk : Keyword.ofPseudo? name = none)
    (hasArguments : Bool) (children : List Tree) :
    marked? (.pseudo name hasArguments) children = none := by
  have hne : name ≠ Keyword.localScope.text := by
    rintro rfl
    exact absurd hk (by decide)
  unfold marked?
  split
  next h => cases h; exact if_neg fun hn => hne hn.1
  next => rfl

theorem unmark_leaf (kind : Selector.Kind) (spaces : Spaces) (start : Nat) :
    unmark (.leaf kind spaces start) = .leaf kind spaces start := by
  have hmark : marked? kind [] = none := by
    unfold marked?
    split
    next h => cases h
    next => rfl
  simp only [Tree.leaf, unmark, hmark, unmarkEach, ite_self]

theorem unmark_markLocal {kind : Selector.Kind} {name : Selector.Name} (h : kind.name? = some name)
    (spaces : Spaces) (start : Nat) :
    unmark (markLocal kind spaces start) = .leaf kind .none start := by
  simp [markLocal, unmark, marked?, Tree.leaf, h]

theorem splice_leaf {kind : Selector.Kind} {spaces : Spaces} {start : Nat}
    (h : broad? (.leaf kind spaces start) = none) (hk : kind.isLeaf) :
    splice (.leaf kind spaces start) = [.leaf kind spaces start] := by
  cases kind with
  | pseudo name hasArguments =>
    cases hasArguments with
    | true => cases hk
    | false =>
      have hname : Keyword.ofPseudo? name = none := h
      simp only [Tree.leaf, splice, hname, spliceEach, ite_self]
  | _ => simp [Tree.leaf, splice, spliceEach]

theorem matches_spacing {t : Tree} (h : t.isSpacing) (hgap : gap ≠ some false) :
    Matches gap [] [t] ∧ Matches gap [t] [] := by
  have hafter : gapAfter gap [t] = gap := by
    rw [gapAfter, if_pos h]
    exact widen_eq hgap
  have hu : ∀ u ∈ [t], u.isSpacing := fun u hu => List.mem_singleton.mp hu ▸ h
  have hv : ∀ u ∈ [unmark t], u.isSpacing := fun u hu => by
    rw [List.mem_singleton.mp hu, isSpacing_unmark, h]
  refine ⟨⟨fun depth => ?_, hafter.symm⟩, ⟨fun depth => ?_, hafter⟩⟩
  · rw [unmarkEach, entriesAlong_nil, entriesAlong_spacing hu]
  · rw [unmarkEach, unmarkEach, entriesAlong_nil, entriesAlong_spacing hv]

/-- White space is kept, or dropped where there is a gap already. -/
theorem conserves_spacing (text : String) (spaces : Spaces) (start : Nat) :
    Conserves ctx (.leaf (.combinator .descendant text) spaces start) := by
  intro gap w w' nodes hw _ hstep
  rw [splice_leaf rfl rfl]
  cases hstep with
  | dropSpace hd =>
    exact ⟨(matches_spacing rfl (hw (.inr ⟨_, hd⟩))).1, ready_passed _ _⟩
  | keepSpace =>
    refine ⟨⟨fun depth => ?_, rfl⟩, fun _ => widen_ne gap⟩
    exact congrArg (entriesAlong depth gap [·]) (unmark_leaf ..)
  | name _ hn => cases hn
  | keep _ hs => cases hs

/-- A broad keyword leaves nothing but the text in front of it. -/
theorem conserves_broad {name : String} {keyword : Keyword}
    (hk : Keyword.ofPseudo? name = some keyword) (spaces : Spaces) (start : Nat) :
    Conserves ctx (.leaf (.pseudo name false) spaces start) := by
  intro gap w w' nodes hw hlead hstep
  have hnone : splice (.leaf (.pseudo name false) spaces start) = [] := by
    simp only [Tree.leaf, splice, hk]
  rw [hnone]
  cases hstep with
  | broad _ _ hi =>
    refine ⟨?_, fun hspace => hw ?_⟩
    · split
      next => exact .nil
      next hbefore =>
        have hgap : gap = none := hlead hi (by simp [Tree.leaf, broad?, hk]) hbefore
        exact (matches_spacing rfl (by simp [hgap])).2
    · -- it demands white space only where white space has been passed
      rcases hspace with hspace | ⟨_, hspace⟩
      · exact .inl hspace
      · by_cases ha : w.afterSpace
        · exact .inl ha
        · rw [if_neg ha] at hspace
          cases hspace
  | exchange _ hn => cases hk.symm.trans hn
  | name _ hn => cases hn
  | keep _ _ _ hp => cases hk.symm.trans (hp name false rfl).2.1

/-- Any other node without arguments is kept, perhaps with a mark. -/
theorem conserves_kept {kind : Selector.Kind} (hk : kind.isLeaf) (hs : kind.isSpacing = false)
    (spaces : Spaces) (start : Nat) (hb : broad? (.leaf kind spaces start) = none) :
    Conserves ctx (.leaf kind spaces start) := by
  intro gap w w' nodes hw _ hstep
  rw [splice_leaf hb hk]
  have hkept : Matches gap [.leaf kind spaces start] [.leaf kind spaces start] :=
    .single hs hs fun depth => by rw [unmark_leaf]
  cases hstep with
  | dropSpace => cases hs
  | keepSpace => cases hs
  | narrow => cases hk
  | broad _ hkeyword => cases hkeyword.symm.trans hb
  | call => cases hk
  | name _ hn =>
    refine ⟨?_, ready_passed _ _⟩
    split
    · refine .single rfl hs fun depth => ?_
      rw [unmark_markLocal hn]
      simp only [Tree.leaf, entriesOf]
    · exact hkept
  | _ => exact ⟨hkept, ready_passed _ _⟩

theorem conserves_leaf {kind : Selector.Kind} (hk : kind.isLeaf) (spaces : Spaces) (start : Nat) :
    Conserves ctx (.leaf kind spaces start) := by
  cases hs : kind.isSpacing with
  | true =>
    cases kind with
    | combinator combinator text =>
      cases combinator with
      | descendant => exact conserves_spacing text spaces start
      | _ => cases hs
    | _ => cases hs
  | false =>
    cases hb : broad? (.leaf kind spaces start) with
    | none => exact conserves_kept hk hs spaces start hb
    | some keyword =>
      cases kind with
      | pseudo name hasArguments =>
        cases hasArguments with
        | true => cases hk
        | false => exact conserves_broad hb spaces start
      | _ => cases hb

/-- A pseudo-class with arguments. -/
theorem conserves_pseudo {name : String} {arguments : List Tree}
    (hk : ∀ a ∈ arguments, a.kind = .selector) (ht : ∀ a ∈ arguments, Selector.IsTidy a.children)
    (hc : ∀ a ∈ arguments, ∀ t ∈ a.children, Conserves ctx t) (spaces : Spaces) (start : Nat) :
    Conserves ctx (.node (.pseudo name true) spaces start arguments) := by
  intro gap w w' nodes hw hlead hstep
  cases hstep with
  | narrow _ hkeyword _ _ ha =>
    have hsplice : splice (.node (.pseudo name true) spaces start arguments) =
        spliceContents arguments := by
      simp only [splice, hkeyword]
    rw [hsplice]
    exact ⟨(matches_resolveNarrow hc ht (Option.some_ne_none _) ha).surround spaces,
      ready_passed _ _⟩
  | exchange _ hkeyword hx =>
    refine ⟨?_, ready_passed _ _⟩
    have hforeign : isForeign (.pseudo name true) = true := hx
    simp only [splice, hkeyword, hx, if_true]
    refine .single rfl rfl fun depth => ?_
    simp only [unmark, marked?_eq_none hkeyword, hforeign, if_true]
  | call _ hkeyword hx ha =>
    refine ⟨?_, ready_passed _ _⟩
    have hforeign : isForeign (.pseudo name true) = false := hx
    have hmatch : Matches none _ _ := matches_resolveArguments hc hk ht ha
    simp only [splice, hkeyword, hx, Bool.false_eq_true, if_false]
    refine .single rfl rfl fun depth => ?_
    simp only [unmark, marked?_eq_none hkeyword, hforeign, Bool.false_eq_true, if_false, entriesOf]
    exact congrArg _ (hmatch.entries (depth + 1))
  | name _ hn => cases hn
  | keep _ _ _ hp => cases (hp name true rfl).1

/-- Every node of a list that was read is conserved. -/
theorem conserves_of_isNeat (h : t.IsNeat) : Conserves ctx t := by
  induction h with
  | leaf spaces start hk => exact conserves_leaf hk spaces start
  | call name spaces start hk ht _ ih => exact conserves_pseudo hk ht ih spaces start

theorem matches_resolveAlternatives {isGlobal : Bool} {selector : String} {agreed : Option Bool}
    {outs : List Tree} {r : Resolution} (ht : ∀ a ∈ ts, a.IsNeatAlternative)
    (h : (resolveAlternatives ctx isGlobal selector agreed ts).result = .ok (outs, r)) :
    Matches gap outs (spliceEach ts) := by
  induction ts generalizing gap agreed outs r with
  | nil =>
    obtain ⟨rfl, -⟩ := resolveAlternatives_nil h
    rw [spliceEach]
    exact .nil
  | cons a ts ih =>
    obtain ⟨nodes, w, more, q, hnodes, -, hmore, rfl, -⟩ := resolveAlternatives_cons h
    have ha := ht a List.mem_cons_self
    have hmatch := matches_begin (fun t hmem => conserves_of_isNeat (ha.neat t hmem)) ha.tidy hnodes
    rw [spliceEach]
    exact (matches_alternative ha.kind hmatch).append
      (ih (fun b hb => ht b (List.mem_cons_of_mem a hb)) hmore)

end Walks

/-- **Resolving loses, invents and reorders nothing.** A resolved list without
its marks has the preorder of the list that was read without its keywords:
the same nodes at the same depths, and white space between the same
neighbours. -/
theorem preorder_resolve {ctx : Context} {isGlobal : Bool} {source : String} {t out : Tree}
    {r : Resolution} (hp : Selector.parse source = .ok t)
    (h : (resolve ctx isGlobal t).result = .ok (out, r)) :
    preorder (unmark out) = preorder (spliced t) := by
  have halternatives := Selector.isNeatAlternative_of_parse hp
  obtain ⟨p, -, -, rfl⟩ := Selector.parsed_of_parseWithin hp
  obtain ⟨outs, hr, rfl⟩ := resolve_eq_ok h
  have hmatch : Matches none _ _ := matches_resolveAlternatives halternatives hr
  have hmark : ∀ us, marked? .root us = none := fun _ => rfl
  have hforeign : isForeign .root = false := rfl
  simp only [preorder, spliced, unmark, hmark, Tree.kind, Tree.spaces, Tree.start, hforeign,
    Bool.false_eq_true, if_false, entriesOf]
  exact congrArg _ (hmatch.entries 1)

/-- Two keywords in a row, one keyword in each alternative, a narrow keyword
with two arguments inside of another pseudo-class, and an exchange that keeps
the keyword in it. -/
theorem preorder_resolve_nested :
    ∃ t out r,
      Selector.parse
        " :global .a:not( :local(.b , #c)> d) :local .e:import( .f :local(.g)), :local :local.h" =
        .ok t ∧
      (resolve ⟨["e"], false⟩ false t).result = .ok (out, r) ∧
      (preorder (spliced t)).map (fun e => (e.depth, e.kind.text, e.gap)) =
        [(0, "", none), (1, "", none), (2, ".a", none), (2, ":not", some false), (3, "", none),
          (4, ".b", none), (4, "#c", some false), (4, ">", some false), (4, "d", some false),
          (2, ".e", some true), (2, ":import", some false), (1, "", some false), (2, ".h", none)] ∧
      preorder (unmark out) = preorder (spliced t) := by
  have hok :
      (match Selector.parse
        " :global .a:not( :local(.b , #c)> d) :local .e:import( .f :local(.g)), :local :local.h" with
      | .ok t =>
        (resolve ⟨["e"], false⟩ false t).result.isOk &&
          (preorder (spliced t)).map (fun e => (e.depth, e.kind.text, e.gap)) =
            [(0, "", none), (1, "", none), (2, ".a", none), (2, ":not", some false), (3, "", none),
              (4, ".b", none), (4, "#c", some false), (4, ">", some false), (4, "d", some false),
              (2, ".e", some true), (2, ":import", some false), (1, "", some false),
              (2, ".h", none)]
      | .error _ => false) = true := by
    decide +kernel
  split at hok
  next t ht =>
    obtain ⟨hresolve, hentries⟩ := (Bool.and_eq_true _ _).mp hok
    obtain ⟨⟨out, r⟩, hr, h⟩ := exists_ok_of_isOk hresolve fun _ hr => preorder_resolve ht hr
    exact ⟨t, out, r, ht, hr, of_decide_eq_true hentries, h⟩
  next => cases hok

end Scope
end StyleScope
