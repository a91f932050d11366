/-
# What one step of resolving does

A selector list is resolved by one walk. `Step` lists what the walk can do at
a node when it succeeds, with the conditions that the walk checks there, and
that is all it can do (`step_of_resolveNode`, `resolveNode_of_step`). The walks
through a sequence, through the arguments of a narrow keyword and through those
of a pseudo-class are chains of steps (`resolveSequence_cons`,
`resolveNarrow_cons`, `resolveArguments_cons`, and back `resolveSequence_of_step`,
`resolveNarrow_of_resolveSequence`, `resolveArguments_of_resolveSequence`). What
holds of both kinds of arguments alike is said of their rows of nodes
(`resolveNarrow_eq_resolveRows`, `resolveArguments_eq_resolveRows`).
`Failure` lists how the walk can fail at a node (`failure_of_resolveNode`).

Proofs about what a walk gives or why it fails use these and do not open the
walk itself.

Key definitions: `Scope.Step`, `Scope.Failure`, `Scope.resolveRows`.
Key theorems: `Scope.step_of_resolveNode`, `Scope.resolveNode_of_step`,
`Scope.failure_of_resolveNode`.
-/
import StyleScope.Proofs.Reading
import StyleScope.Scope.Resolve

namespace StyleScope
namespace Selector

/-- A class or an id. -/
structure Name where
  isId : Bool
  text : String
  deriving DecidableEq, Repr

/-- The class or id that a node of this kind is. -/
def Kind.name? : Kind → Option Name
  | .className text => some ⟨false, text⟩
  | .idName text => some ⟨true, text⟩
  | _ => none

theorem Tree.isSpacing_withSpaces (spaces : Spaces) (t : Tree) :
    (t.withSpaces spaces).isSpacing = t.isSpacing := by
  obtain ⟨kind, _, start, children⟩ := t
  rfl

end Selector

namespace Scope

open Selector (Tree Spaces)

/-- A name in local scope is marked, unless it is imported and no keyword
chose the scope. -/
def marksName (ctx : Context) (text : String) (isGlobal isExplicit : Bool) : Bool :=
  !isGlobal && (text ∉ ctx.aliases || isExplicit)

/-- Whether the walk marks a name in the scope in force. -/
def Walk.marks (ctx : Context) (text : String) (w : Walk) : Bool :=
  marksName ctx text w.standing.isGlobal w.standing.isExplicit

/-! ### Steps -/

/-- What the walk can do at a node: the nodes that take its place, and the
walk behind it. -/
inductive Step (ctx : Context) (w : Walk) : Tree → List Tree → Walk → Prop where
  /-- White space that the keyword in front demands goes with the keyword. -/
  | dropSpace {text : String} {spaces : Spaces} {start : Nat} {children : List Tree}
    {keyword : Keyword} (hd : w.demand = .space keyword) :
    Step ctx w (.node (.combinator .descendant text) spaces start children) [] w.passed
  | keepSpace {text : String} {spaces : Spaces} {start : Nat} {children : List Tree}
    (hd : w.demand = .nothing) :
    Step ctx w (.node (.combinator .descendant text) spaces start children)
      [.node (.combinator .descendant text) spaces start children] { w with afterSpace := true }
  | narrow {name : String} {spaces : Spaces} {start : Nat} {arguments nodes : List Tree}
    {keyword : Keyword} {hasLocals : Bool} (hd : ∀ k, w.demand ≠ .space k)
    (hk : Keyword.ofPseudo? name = some keyword) (hne : ∃ a ∈ arguments, a.children ≠ [])
    (hi : w.standing.inside = none)
    (ha : (resolveNarrow ctx arguments ⟨keyword.isGlobal, true, some keyword⟩ false).result =
      .ok (nodes, hasLocals)) :
    Step ctx w (.node (.pseudo name true) spaces start arguments) (surround spaces nodes)
      (w.addLocals hasLocals).passed
  | broad {name : String} {spaces : Spaces} {start : Nat} {children : List Tree}
    {keyword : Keyword} (hd : ∀ k, w.demand ≠ .space k)
    (hk : Keyword.ofPseudo? name = some keyword) (hi : w.standing.inside = none) :
    Step ctx w (.node (.pseudo name false) spaces start children)
      (if spaces.before = "" then []
        else [.leaf (.combinator .descendant spaces.before) .none start])
      { w with
        standing := { w.standing with isGlobal := keyword.isGlobal, isExplicit := true }
        demand := if w.afterSpace then .space keyword else .noSpace keyword }
  /-- An exchange is kept as it is, arguments included. -/
  | exchange {name : String} {hasArguments : Bool} {spaces : Spaces} {start : Nat}
    {children : List Tree} (hd : ∀ k, w.demand ≠ .space k) (hk : Keyword.ofPseudo? name = none)
    (hx : isExchange name) :
    Step ctx w (.node (.pseudo name hasArguments) spaces start children)
      [.node (.pseudo name hasArguments) spaces start children] (w.addLocals true).passed
  | call {name : String} {spaces : Spaces} {start : Nat} {arguments resolved : List Tree}
    {hasLocals : Bool} (hd : ∀ k, w.demand ≠ .space k) (hk : Keyword.ofPseudo? name = none)
    (hx : isExchange name = false)
    (ha : (resolveArguments ctx arguments w.standing false).result = .ok (resolved, hasLocals)) :
    Step ctx w (.node (.pseudo name true) spaces start arguments)
      [.node (.pseudo name true) spaces start resolved] (w.addLocals hasLocals).passed
  | name {kind : Selector.Kind} {name : Selector.Name} {spaces : Spaces} {start : Nat}
    {children : List Tree} (hd : ∀ k, w.demand ≠ .space k) (hn : kind.name? = some name)
    (hne : name.text ≠ "") :
    Step ctx w (.node kind spaces start children)
      [if w.marks ctx name.text then markLocal kind spaces start
        else .node kind spaces start children]
      (w.addLocals (w.marks ctx name.text)).passed
  | nesting {spaces : Spaces} {start : Nat} {children : List Tree}
    (hd : ∀ k, w.demand ≠ .space k) :
    Step ctx w (.node .nesting spaces start children) [.node .nesting spaces start children]
      (w.addLocals ctx.parentIsPure).passed
  /-- Any other node is kept. -/
  | keep {kind : Selector.Kind} {spaces : Spaces} {start : Nat} {children : List Tree}
    (hd : ∀ k, w.demand ≠ .space k) (hs : kind.isSpacing = false) (hn : kind.name? = none)
    (hk : ∀ name hasArguments, kind = .pseudo name hasArguments →
      hasArguments = false ∧ Keyword.ofPseudo? name = none ∧ isExchange name = false)
    (hne : kind ≠ .nesting) :
    Step ctx w (.node kind spaces start children) [.node kind spaces start children] w.passed

theorem Walk.addLocals_false (w : Walk) : w.addLocals false = w := by
  simp [Walk.addLocals]

/-- Only white space may follow a keyword that demands it. -/
theorem demand_ne_space {d : Demand} (h : d.error? false = none) : ∀ k, d ≠ .space k := by
  rintro k rfl
  cases h

/-- What a keyword demands is white space, or that there is none. -/
theorem exists_missing_of_demand {d : Demand} {isSpacing : Bool} {e : Error}
    (h : d.error? isSpacing = some e) : ∃ keyword side, e = .missingWhitespace keyword side := by
  cases d with
  | nothing => cases h
  | space keyword | noSpace keyword =>
    cases isSpacing <;> cases h
    exact ⟨keyword, _, rfl⟩

theorem result_resolveName {ctx : Context} {text : String} (hne : text ≠ "") (t : Tree)
    (w : Walk) :
    (resolveName ctx t text w).result =
      .ok (if w.marks ctx text then markLocal t.kind t.spaces t.start else t,
        w.addLocals (w.marks ctx text)) := by
  rw [resolveName, if_neg hne]
  split
  next hg => simp [Walk.marks, marksName, hg, Walk.addLocals_false]
  next hg =>
    split
    next ha =>
      have hm : w.marks ctx text = false := by simp [Walk.marks, marksName, ha]
      rw [hm, Walk.addLocals_false]
      rfl
    next ha =>
      have hm : w.marks ctx text = true := by
        simp only [Walk.marks, marksName, hg, Bool.not_false, Bool.true_and, Bool.or_eq_true,
          decide_eq_true_eq]
        by_cases hmem : text ∈ ctx.aliases
        · exact .inr (by simpa [hmem] using ha)
        · exact .inl hmem
      simp [hm, Walk.addLocals]

theorem resolveName_eq_ok {ctx : Context} {t t' : Tree} {text : String} {w w' : Walk}
    (h : (resolveName ctx t text w).result = .ok (t', w')) :
    text ≠ "" ∧ t' = (if w.marks ctx text then markLocal t.kind t.spaces t.start else t) ∧
      w' = w.addLocals (w.marks ctx text) := by
  by_cases hne : text = ""
  · rw [resolveName, if_pos hne] at h
    cases h
  · rw [result_resolveName hne] at h
    cases h
    exact ⟨hne, rfl, rfl⟩

theorem resolveBroad_eq_ok {keyword : Keyword} {spaces : Spaces} {start : Nat} {w w' : Walk}
    {nodes : List Tree} (h : (resolveBroad keyword spaces start w).result = .ok (nodes, w')) :
    w.standing.inside = none ∧
      nodes = (if spaces.before = "" then []
        else [.leaf (.combinator .descendant spaces.before) .none start]) ∧
      w' = { w with
        standing := { w.standing with isGlobal := keyword.isGlobal, isExplicit := true }
        demand := if w.afterSpace then .space keyword else .noSpace keyword } := by
  unfold resolveBroad at h
  split at h
  next => cases h
  next hi =>
    obtain ⟨-, -, h⟩ := Traced.bind_eq_ok.mp h
    cases h
    exact ⟨hi, rfl, rfl⟩

section Nodes

variable {ctx : Context} {w w' : Walk} {nodes : List Tree}

theorem step_of_spacing {text : String} {spaces : Spaces} {start : Nat} {children : List Tree}
    (h : (resolveNode ctx (.node (.combinator .descendant text) spaces start children) w).result =
      .ok (nodes, w')) :
    Step ctx w (.node (.combinator .descendant text) spaces start children) nodes w' := by
  unfold resolveNode at h
  split at h
  next => cases h
  next hd =>
    cases hw : w.demand with
    | nothing =>
      have hstep : Step ctx w (.node (.combinator .descendant text) spaces start children)
          [.node (.combinator .descendant text) spaces start children]
          { w with afterSpace := true } := .keepSpace hw
      rw [hw] at h
      cases h
      rwa [hw] at hstep
    | space keyword =>
      rw [hw] at h
      cases h
      exact .dropSpace hw
    | noSpace keyword => rw [hw] at hd; cases hd

theorem step_of_pseudo {name : String} {hasArguments : Bool} {spaces : Spaces} {start : Nat}
    {children : List Tree}
    (h : (resolveNode ctx (.node (.pseudo name hasArguments) spaces start children) w).result =
      .ok (nodes, w')) :
    Step ctx w (.node (.pseudo name hasArguments) spaces start children) nodes w' := by
  unfold resolveNode at h
  split at h
  next => cases h
  next hd =>
    have hdemand := demand_ne_space hd
    dsimp only at h
    split at h
    next keyword hk =>
      -- a narrow keyword, with something in its arguments
      split at h
      next => cases h
      next hne =>
        split at h
        next => cases h
        next hi =>
          obtain ⟨⟨nodes', hasLocals⟩, ha, h⟩ := Traced.bind_eq_ok.mp h
          cases h
          exact .narrow hdemand hk (by simpa using hne) hi ha
    next keyword hk =>
      obtain ⟨hi, rfl, rfl⟩ := resolveBroad_eq_ok h
      exact .broad hdemand hk hi
    next hk =>
      split at h
      next hx =>
        cases h
        exact .exchange hdemand hk hx
      next hx =>
        obtain ⟨⟨resolved, hasLocals⟩, ha, h⟩ := Traced.bind_eq_ok.mp h
        cases h
        exact .call hdemand hk (by simpa using hx) ha
    next hk =>
      cases h
      cases hx : isExchange name with
      | true => exact .exchange hdemand hk hx
      | false =>
        rw [Walk.addLocals_false]
        refine .keep hdemand rfl rfl (fun _ _ he => ?_) (by simp)
        cases he
        exact ⟨rfl, hk, hx⟩

theorem step_of_name {kind : Selector.Kind} {name : Selector.Name} {spaces : Spaces} {start : Nat}
    {children : List Tree} (hn : kind.name? = some name)
    (h : (resolveNode ctx (.node kind spaces start children) w).result = .ok (nodes, w')) :
    Step ctx w (.node kind spaces start children) nodes w' := by
  have hresolve : w.demand.error? false = none ∧ ∃ t' v,
      (resolveName ctx (.node kind spaces start children) name.text w).result = .ok (t', v) ∧
        nodes = [t'] ∧ w' = v.passed := by
    cases kind with
    | className text | idName text =>
      obtain rfl := Option.some.inj hn
      unfold resolveNode at h
      split at h
      next => cases h
      next hd =>
        obtain ⟨⟨t', v⟩, hname, h⟩ := Traced.bind_eq_ok.mp h
        cases h
        exact ⟨hd, t', v, hname, rfl, rfl⟩
    | _ => cases hn
  obtain ⟨hd, t', v, hname, rfl, rfl⟩ := hresolve
  obtain ⟨hne, rfl, rfl⟩ := resolveName_eq_ok hname
  exact .name (demand_ne_space hd) hn hne

/-- What is no white space, no pseudo-class, no name and no `&` is kept. -/
theorem step_of_other {kind : Selector.Kind} {spaces : Spaces} {start : Nat}
    {children : List Tree} (hs : kind.isSpacing = false) (hn : kind.name? = none)
    (hp : ∀ name hasArguments, kind ≠ .pseudo name hasArguments) (hne : kind ≠ .nesting)
    (h : (resolveNode ctx (.node kind spaces start children) w).result = .ok (nodes, w')) :
    Step ctx w (.node kind spaces start children) nodes w' := by
  unfold resolveNode at h
  split at h
  next => cases h
  next hd =>
    rw [hs] at hd
    split at h
    case h_1 => cases hs
    case h_2 name hasArguments => exact (hp name hasArguments rfl).elim
    case h_3 => cases hn
    case h_4 => cases hn
    case h_5 => exact (hne rfl).elim
    case h_6 =>
      cases h
      exact .keep (demand_ne_space hd) hs hn (fun name a he => (hp name a he).elim) hne

/-- The walk does at a node what `Step` lists. -/
theorem step_of_resolveNode {t : Tree} (h : (resolveNode ctx t w).result = .ok (nodes, w')) :
    Step ctx w t nodes w' := by
  obtain ⟨kind, spaces, start, children⟩ := t
  cases kind with
  | combinator combinator text =>
    cases combinator with
    | descendant => exact step_of_spacing h
    | _ => exact step_of_other rfl rfl (by simp) (by simp) h
  | pseudo name hasArguments => exact step_of_pseudo h
  | className text => exact step_of_name rfl h
  | idName text => exact step_of_name rfl h
  | nesting =>
    unfold resolveNode at h
    split at h
    next => cases h
    next hd =>
      cases h
      exact .nesting (demand_ne_space hd)
  | _ => exact step_of_other rfl rfl (by simp) (by simp) h

/-- A step is taken only from a node that the keyword in front allows. -/
theorem error?_of_step {w w' : Walk} {t : Tree} {nodes : List Tree} (h : Step ctx w t nodes w') :
    w.demand.error? t.isSpacing = none := by
  have hother (hd : ∀ k, w.demand ≠ .space k) : w.demand.error? false = none := by
    cases hw : w.demand with
    | space k => exact absurd hw (hd k)
    | _ => rfl
  cases h with
  | dropSpace hd => rw [hd]; rfl
  | keepSpace hd => rw [hd]; rfl
  | @name kind _ _ _ _ hd hn _ =>
    cases kind with
    | className | idName => exact hother hd
    | _ => cases hn
  | keep hd hs => exact (congrArg w.demand.error? hs).trans (hother hd)
  | narrow hd | broad hd | exchange hd | call hd | nesting hd => exact hother hd

/-- What `Step` lists is what the walk does. -/
theorem resolveNode_of_step {t : Tree} (h : Step ctx w t nodes w') :
    (resolveNode ctx t w).result = .ok (nodes, w') := by
  have hd := error?_of_step h
  cases h with
  | dropSpace hs =>
    unfold resolveNode
    rw [hs]
    rfl
  | keepSpace hs =>
    unfold resolveNode
    rw [hs]
    rfl
  | @narrow name spaces start arguments _ keyword _ _ hk hne hi ha =>
    have hne : (arguments.all fun a => a.children.isEmpty) = false := by simpa using hne
    change w.demand.error? false = none at hd
    unfold resolveNode
    simp only [Selector.Kind.isSpacing, hd, hk, hne, hi]
    exact Traced.bind_eq_ok.mpr ⟨_, ha, rfl⟩
  | broad _ hk hi =>
    change w.demand.error? false = none at hd
    unfold resolveNode resolveBroad
    simp only [Selector.Kind.isSpacing, hd, hk, hi]
    rfl
  | @exchange _ hasArguments _ _ _ _ hk hx =>
    change w.demand.error? false = none at hd
    unfold resolveNode
    cases hasArguments
    all_goals
      simp only [Selector.Kind.isSpacing, hd, hk, hx]
      rfl
  | call _ hk hx ha =>
    change w.demand.error? false = none at hd
    unfold resolveNode
    simp only [Selector.Kind.isSpacing, hd, hk, hx]
    exact Traced.bind_eq_ok.mpr ⟨_, ha, rfl⟩
  | @name kind name _ _ _ _ hn hne =>
    cases kind with
    | className | idName =>
      obtain rfl := Option.some.inj hn
      change w.demand.error? false = none at hd
      unfold resolveNode
      simp only [Selector.Kind.isSpacing, hd]
      exact Traced.bind_eq_ok.mpr ⟨_, result_resolveName hne _ _, rfl⟩
    | _ => cases hn
  | nesting =>
    change w.demand.error? false = none at hd
    unfold resolveNode
    simp only [Selector.Kind.isSpacing, hd]
    rfl
  | @keep kind spaces start children _ hs hn hp hne =>
    change w.demand.error? kind.isSpacing = none at hd
    cases kind with
    | pseudo name hasArguments =>
      obtain ⟨rfl, hk, hx⟩ := hp name hasArguments rfl
      unfold resolveNode
      simp only [hd, hk, hx, Walk.addLocals_false]
      rfl
    | className | idName => cases hn
    | nesting => exact absurd rfl hne
    | combinator combinator text =>
      cases combinator with
      | descendant => cases hs
      | _ =>
        unfold resolveNode
        rw [hd]
        rfl
    | _ =>
      unfold resolveNode
      rw [hd]
      rfl

end Nodes

/-! ### Failures -/

/-- How the walk can fail at a node. -/
inductive Failure (ctx : Context) (w : Walk) : Tree → Error → Prop where
  /-- The keyword in front demands otherwise. -/
  | demand {kind : Selector.Kind} {spaces : Spaces} {start : Nat} {children : List Tree} {e : Error}
    (hd : w.demand.error? kind.isSpacing = some e) :
    Failure ctx w (.node kind spaces start children) e
  | invalidName {kind : Selector.Kind} {spaces : Spaces} {start : Nat} {children : List Tree} :
    Failure ctx w (.node kind spaces start children) .invalidName
  | emptyScope {kind : Selector.Kind} {spaces : Spaces} {start : Nat} {children : List Tree}
    {keyword : Keyword} : Failure ctx w (.node kind spaces start children) (.emptyScope keyword)
  /-- A keyword, narrow or broad, stands inside of a narrow one. -/
  | nested {name : String} {hasArguments : Bool} {spaces : Spaces} {start : Nat}
    {children : List Tree} {outer keyword : Keyword} (hk : Keyword.ofPseudo? name = some keyword)
    (hi : w.standing.inside = some outer) :
    Failure ctx w (.node (.pseudo name hasArguments) spaces start children)
      (.nestedScope outer keyword)
  | narrow {name : String} {spaces : Spaces} {start : Nat} {arguments : List Tree}
    {keyword : Keyword} {e : Error} (hk : Keyword.ofPseudo? name = some keyword)
    (hi : w.standing.inside = none)
    (ha : (resolveNarrow ctx arguments ⟨keyword.isGlobal, true, some keyword⟩ false).result =
      .error e) :
    Failure ctx w (.node (.pseudo name true) spaces start arguments) e
  | call {name : String} {spaces : Spaces} {start : Nat} {arguments : List Tree} {e : Error}
    (hk : Keyword.ofPseudo? name = none) (hx : isExchange name = false)
    (ha : (resolveArguments ctx arguments w.standing false).result = .error e) :
    Failure ctx w (.node (.pseudo name true) spaces start arguments) e

theorem resolveName_eq_error {ctx : Context} {t : Tree} {text : String} {w : Walk} {e : Error}
    (h : (resolveName ctx t text w).result = .error e) : e = .invalidName := by
  unfold resolveName at h
  repeat' split at h
  all_goals cases h
  rfl

theorem resolveBroad_eq_error {keyword : Keyword} {spaces : Spaces} {start : Nat} {w : Walk}
    {e : Error} (h : (resolveBroad keyword spaces start w).result = .error e) :
    ∃ outer, w.standing.inside = some outer ∧ e = .nestedScope outer keyword := by
  unfold resolveBroad at h
  split at h
  next outer hi =>
    cases h
    exact ⟨outer, hi, rfl⟩
  next => cases h

section Failures

variable {ctx : Context} {w : Walk} {e : Error}

theorem failure_of_pseudo {name : String} {hasArguments : Bool} {spaces : Spaces} {start : Nat}
    {children : List Tree}
    (h : (resolveNode ctx (.node (.pseudo name hasArguments) spaces start children) w).result =
      .error e) :
    Failure ctx w (.node (.pseudo name hasArguments) spaces start children) e := by
  unfold resolveNode at h
  split at h
  next hd =>
    cases h
    exact .demand hd
  next hd =>
    dsimp only at h
    split at h
    next keyword hk =>
      split at h
      next =>
        cases h
        exact .emptyScope
      next =>
        split at h
        next hi =>
          cases h
          exact .nested hk hi
        next hi =>
          exact .narrow hk hi (Traced.eq_error_of_bind h fun _ => rfl)
    next keyword hk =>
      obtain ⟨outer, hi, rfl⟩ := resolveBroad_eq_error h
      exact .nested hk hi
    next hk =>
      split at h
      next => cases h
      next hx =>
        exact .call hk (by simpa using hx) (Traced.eq_error_of_bind h fun _ => rfl)
    next => cases h

/-- The walk fails at a node in the ways that `Failure` lists. -/
theorem failure_of_resolveNode {t : Tree} (h : (resolveNode ctx t w).result = .error e) :
    Failure ctx w t e := by
  obtain ⟨kind, spaces, start, children⟩ := t
  cases kind with
  | pseudo name hasArguments => exact failure_of_pseudo h
  | className name | idName name =>
    unfold resolveNode at h
    split at h
    next hd =>
      cases h
      exact .demand hd
    next =>
      obtain rfl := resolveName_eq_error (Traced.eq_error_of_bind h fun _ => rfl)
      exact .invalidName
  | combinator combinator text =>
    unfold resolveNode at h
    split at h
    next hd =>
      cases h
      exact .demand hd
    next =>
      cases combinator with
      | descendant =>
        dsimp only at h
        split at h
        all_goals cases h
      | _ => cases h
  | _ =>
    unfold resolveNode at h
    split at h
    next hd =>
      cases h
      exact .demand hd
    next => cases h

end Failures

/-! ### Nodes in the place of others -/

/-- What does not depend on the text around a node is kept by `surround`. -/
theorem surround_of_withSpaces {P : List Tree → Prop}
    (hP : ∀ us t vs spaces, P (us ++ t :: vs) → P (us ++ Tree.withSpaces spaces t :: vs))
    (spaces : Spaces) {ts : List Tree} (h : P ts) : P (surround spaces ts) := by
  cases ts with
  | nil => exact h
  | cons t ts =>
    have hfirst : P (t.setBefore spaces.before :: ts) := hP [] t ts _ h
    simp only [surround]
    split
    next hlast => cases List.getLast?_eq_none_iff.mp hlast
    next last hlast =>
      obtain ⟨us, hus⟩ := List.getLast?_eq_some_iff.mp hlast
      rw [hus] at hfirst
      rw [hus, List.dropLast_concat]
      exact hP us last [] _ hfirst

/-- Trimming cuts off white space at the end. -/
theorem exists_eq_trimSpacing_append (ts : List Tree) :
    ∃ blanks, ts = trimSpacing ts ++ blanks ∧ ∀ t ∈ blanks, t.isSpacing := by
  refine ⟨(ts.reverse.takeWhile Tree.isSpacing).reverse, ?_, fun t ht => ?_⟩
  · rw [trimSpacing, ← List.reverse_append, List.takeWhile_append_dropWhile, List.reverse_reverse]
  · exact List.mem_takeWhile_imp (List.mem_reverse.mp ht)

/-! ### Walks -/

section Walks

variable {ctx : Context} {t : Tree} {ts nodes : List Tree} {w w' : Walk} {standing : Standing}
  {hasLocals hasLocals' : Bool}

theorem result_resolveSequence_nil : (resolveSequence ctx [] w).result = .ok ([], w) := by
  unfold resolveSequence
  rfl

theorem resolveSequence_nil (h : (resolveSequence ctx [] w).result = .ok (nodes, w')) :
    nodes = [] ∧ w' = w := by
  rw [result_resolveSequence_nil] at h
  cases h
  exact ⟨rfl, rfl⟩

theorem resolveSequence_cons (h : (resolveSequence ctx (t :: ts) w).result = .ok (nodes, w')) :
    ∃ out v more, Step ctx w t out v ∧ (resolveSequence ctx ts v).result = .ok (more, w') ∧
      nodes = out ++ more := by
  unfold resolveSequence at h
  obtain ⟨⟨out, v⟩, ht, h⟩ := Traced.bind_eq_ok.mp h
  obtain ⟨⟨more, v'⟩, hts, h⟩ := Traced.bind_eq_ok.mp h
  cases h
  exact ⟨out, v, more, step_of_resolveNode ht, hts, rfl⟩

theorem resolveSequence_of_step {out more : List Tree} {v : Walk} (ht : Step ctx w t out v)
    (hts : (resolveSequence ctx ts v).result = .ok (more, w')) :
    (resolveSequence ctx (t :: ts) w).result = .ok (out ++ more, w') := by
  unfold resolveSequence
  refine Traced.bind_eq_ok.mpr ⟨(out, v), resolveNode_of_step ht, ?_⟩
  exact Traced.bind_eq_ok.mpr ⟨(more, w'), hts, rfl⟩

theorem result_resolveNarrow_nil :
    (resolveNarrow ctx [] standing hasLocals).result = .ok ([], hasLocals) := by
  unfold resolveNarrow
  rfl

theorem resolveNarrow_nil
    (h : (resolveNarrow ctx [] standing hasLocals).result = .ok (nodes, hasLocals')) :
    nodes = [] ∧ hasLocals' = hasLocals := by
  rw [result_resolveNarrow_nil] at h
  cases h
  exact ⟨rfl, rfl⟩

theorem resolveNarrow_cons
    (h : (resolveNarrow ctx (t :: ts) standing hasLocals).result = .ok (nodes, hasLocals')) :
    ∃ out v more,
      (resolveSequence ctx t.children ⟨standing, false, .nothing, hasLocals⟩).result =
        .ok (out, v) ∧
      (resolveNarrow ctx ts { standing with isGlobal := v.standing.isGlobal } v.hasLocals).result =
        .ok (more, hasLocals') ∧
      nodes = trimSpacing out ++ more := by
  obtain ⟨kind, spaces, start, children⟩ := t
  unfold resolveNarrow at h
  obtain ⟨⟨out, v⟩, ht, h⟩ := Traced.bind_eq_ok.mp h
  obtain ⟨⟨more, l⟩, hts, h⟩ := Traced.bind_eq_ok.mp h
  cases h
  exact ⟨out, v, more, ht, hts, rfl⟩

theorem resolveNarrow_of_resolveSequence {out more : List Tree} {v : Walk}
    (ht : (resolveSequence ctx t.children ⟨standing, false, .nothing, hasLocals⟩).result =
      .ok (out, v))
    (hts : (resolveNarrow ctx ts { standing with isGlobal := v.standing.isGlobal }
      v.hasLocals).result = .ok (more, hasLocals')) :
    (resolveNarrow ctx (t :: ts) standing hasLocals).result =
      .ok (trimSpacing out ++ more, hasLocals') := by
  obtain ⟨kind, spaces, start, children⟩ := t
  unfold resolveNarrow
  refine Traced.bind_eq_ok.mpr ⟨(out, v), ht, ?_⟩
  exact Traced.bind_eq_ok.mpr ⟨(more, hasLocals'), hts, rfl⟩

theorem result_resolveArguments_nil :
    (resolveArguments ctx [] standing hasLocals).result = .ok ([], hasLocals) := by
  unfold resolveArguments
  rfl

theorem resolveArguments_nil
    (h : (resolveArguments ctx [] standing hasLocals).result = .ok (nodes, hasLocals')) :
    nodes = [] ∧ hasLocals' = hasLocals := by
  rw [result_resolveArguments_nil] at h
  cases h
  exact ⟨rfl, rfl⟩

theorem resolveArguments_cons
    (h : (resolveArguments ctx (t :: ts) standing hasLocals).result = .ok (nodes, hasLocals')) :
    ∃ out v more,
      (resolveSequence ctx t.children (.begin standing hasLocals)).result = .ok (out, v) ∧
      (resolveArguments ctx ts { standing with isGlobal := v.standing.isGlobal }
        v.hasLocals).result = .ok (more, hasLocals') ∧
      nodes = .node .selector t.spaces t.start (trimSpacing out) :: more := by
  obtain ⟨kind, spaces, start, children⟩ := t
  unfold resolveArguments at h
  obtain ⟨⟨out, v⟩, ht, h⟩ := Traced.bind_eq_ok.mp h
  obtain ⟨⟨more, l⟩, hts, h⟩ := Traced.bind_eq_ok.mp h
  cases h
  exact ⟨out, v, more, ht, hts, rfl⟩

theorem resolveArguments_of_resolveSequence {out more : List Tree} {v : Walk}
    (ht : (resolveSequence ctx t.children (.begin standing hasLocals)).result = .ok (out, v))
    (hts : (resolveArguments ctx ts { standing with isGlobal := v.standing.isGlobal }
      v.hasLocals).result = .ok (more, hasLocals')) :
    (resolveArguments ctx (t :: ts) standing hasLocals).result =
      .ok (.node .selector t.spaces t.start (trimSpacing out) :: more, hasLocals') := by
  obtain ⟨kind, spaces, start, children⟩ := t
  unfold resolveArguments
  refine Traced.bind_eq_ok.mpr ⟨(out, v), ht, ?_⟩
  exact Traced.bind_eq_ok.mpr ⟨(more, hasLocals'), hts, rfl⟩

theorem resolveArguments_ne_nil (hne : ts ≠ [])
    (h : (resolveArguments ctx ts standing hasLocals).result = .ok (nodes, hasLocals')) :
    nodes ≠ [] := by
  obtain ⟨t, ts, rfl⟩ := List.exists_cons_of_ne_nil hne
  obtain ⟨out, v, more, -, -, rfl⟩ := resolveArguments_cons h
  exact List.cons_ne_nil _ _

end Walks

/-! ### Rows of nodes -/

/-- Resolves arguments one after the other, to a row of nodes each. A narrow
keyword and another pseudo-class only differ in whether an argument starts
behind white space, and in what they make of the rows. -/
def resolveRows (ctx : Context) (afterSpace : Bool) :
    List Tree → Standing → Bool → Traced Error (List (List Tree) × Bool)
  | [], _, hasLocals => pure ([], hasLocals)
  | t :: ts, standing, hasLocals => do
    let (nodes, w) ← resolveSequence ctx t.children ⟨standing, afterSpace, .nothing, hasLocals⟩
    let (rows, hasLocals) ←
      resolveRows ctx afterSpace ts { standing with isGlobal := w.standing.isGlobal } w.hasLocals
    return (trimSpacing nodes :: rows, hasLocals)

/-- The argument with this row of nodes in place of its own. -/
def withRow (q : Tree × List Tree) : Tree :=
  .node .selector q.1.spaces q.1.start q.2

/-- Arguments that are put together from rows have one of these each. -/
theorem row_of_mem_withRow {ts : List Tree} {rows : List (List Tree)} {a : Tree}
    (h : a ∈ (ts.zip rows).map withRow) : a.kind = .selector ∧ a.children ∈ rows := by
  obtain ⟨q, hq, rfl⟩ := List.mem_map.mp h
  exact ⟨rfl, (List.of_mem_zip hq).2⟩

section Rows

variable {ctx : Context} {afterSpace : Bool} {t : Tree} {ts nodes : List Tree}
  {rows : List (List Tree)} {standing : Standing} {hasLocals hasLocals' : Bool} {e : Error}

/-- A narrow keyword joins its rows. -/
theorem resolveNarrow_eq_resolveRows :
    resolveNarrow ctx ts standing hasLocals = (do
      let (rows, hasLocals) ← resolveRows ctx false ts standing hasLocals
      return (rows.flatten, hasLocals)) := by
  induction ts generalizing standing hasLocals with
  | nil =>
    unfold resolveNarrow resolveRows
    rfl
  | cons t ts ih =>
    obtain ⟨kind, spaces, start, children⟩ := t
    unfold resolveNarrow resolveRows
    simp only [ih, bind_assoc, pure_bind]
    rfl

/-- Another pseudo-class keeps its arguments apart. -/
theorem resolveArguments_eq_resolveRows :
    resolveArguments ctx ts standing hasLocals = (do
      let (rows, hasLocals) ← resolveRows ctx true ts standing hasLocals
      return ((ts.zip rows).map withRow, hasLocals)) := by
  induction ts generalizing standing hasLocals with
  | nil =>
    unfold resolveArguments resolveRows
    rfl
  | cons t ts ih =>
    obtain ⟨kind, spaces, start, children⟩ := t
    unfold resolveArguments resolveRows
    simp only [ih, bind_assoc, pure_bind]
    rfl

theorem rows_of_resolveNarrow
    (h : (resolveNarrow ctx ts standing hasLocals).result = .ok (nodes, hasLocals')) :
    ∃ rows, (resolveRows ctx false ts standing hasLocals).result = .ok (rows, hasLocals') ∧
      nodes = rows.flatten := by
  rw [resolveNarrow_eq_resolveRows] at h
  obtain ⟨⟨rows, l⟩, hrows, h⟩ := Traced.bind_eq_ok.mp h
  cases h
  exact ⟨rows, hrows, rfl⟩

theorem rows_of_resolveArguments
    (h : (resolveArguments ctx ts standing hasLocals).result = .ok (nodes, hasLocals')) :
    ∃ rows, (resolveRows ctx true ts standing hasLocals).result = .ok (rows, hasLocals') ∧
      nodes = (ts.zip rows).map withRow := by
  rw [resolveArguments_eq_resolveRows] at h
  obtain ⟨⟨rows, l⟩, hrows, h⟩ := Traced.bind_eq_ok.mp h
  cases h
  exact ⟨rows, hrows, rfl⟩

theorem resolveRows_nil
    (h : (resolveRows ctx afterSpace [] standing hasLocals).result = .ok (rows, hasLocals')) :
    rows = [] ∧ hasLocals' = hasLocals := by
  cases h
  exact ⟨rfl, rfl⟩

theorem resolveRows_cons
    (h : (resolveRows ctx afterSpace (t :: ts) standing hasLocals).result =
      .ok (rows, hasLocals')) :
    ∃ out v more,
      (resolveSequence ctx t.children ⟨standing, afterSpace, .nothing, hasLocals⟩).result =
        .ok (out, v) ∧
      (resolveRows ctx afterSpace ts { standing with isGlobal := v.standing.isGlobal }
        v.hasLocals).result = .ok (more, hasLocals') ∧
      rows = trimSpacing out :: more := by
  obtain ⟨⟨out, v⟩, hout, h⟩ := Traced.bind_eq_ok.mp h
  obtain ⟨⟨more, l⟩, hmore, h⟩ := Traced.bind_eq_ok.mp h
  cases h
  exact ⟨out, v, more, hout, hmore, rfl⟩

end Rows

section Alternatives

variable {ctx : Context} {isGlobal : Bool} {selector : String} {agreed : Option Bool} {t out : Tree}
  {ts outs : List Tree} {r : Resolution}

theorem resolveAlternatives_nil
    (h : (resolveAlternatives ctx isGlobal selector agreed []).result = .ok (outs, r)) :
    outs = [] ∧ r = ⟨agreed.getD isGlobal, false⟩ := by
  cases h
  exact ⟨rfl, rfl⟩

/-- An alternative starts in the scope of the mode, and ends in the scope
agreed on. -/
theorem resolveAlternatives_cons
    (h : (resolveAlternatives ctx isGlobal selector agreed (t :: ts)).result = .ok (outs, r)) :
    ∃ nodes w more q,
      (resolveSequence ctx t.children (.begin ⟨isGlobal, false, none⟩ false)).result =
        .ok (nodes, w) ∧
      agreed.getD w.standing.isGlobal = w.standing.isGlobal ∧
      (resolveAlternatives ctx isGlobal selector (some w.standing.isGlobal) ts).result =
        .ok (more, q) ∧
      outs = .node .selector t.spaces t.start (trimSpacing nodes) :: more ∧
      r = { q with hasPureGlobals := !w.hasLocals || q.hasPureGlobals } := by
  unfold resolveAlternatives at h
  obtain ⟨⟨t', w⟩, ht, h⟩ := Traced.bind_eq_ok.mp h
  obtain ⟨⟨nodes, v⟩, hn, ht⟩ := Traced.bind_eq_ok.mp ht
  cases ht
  dsimp only at h
  split at h
  next hagreed =>
    obtain ⟨⟨more, q⟩, hts, h⟩ := Traced.bind_eq_ok.mp h
    cases h
    exact ⟨nodes, w, more, q, hn, hagreed, hts, rfl, rfl⟩
  next => cases h

theorem resolveAlternatives_of_resolveSequence {nodes : List Tree} {w : Walk}
    (ht : (resolveSequence ctx t.children (.begin ⟨isGlobal, false, none⟩ false)).result =
      .ok (nodes, w))
    (hagreed : agreed.getD w.standing.isGlobal = w.standing.isGlobal)
    (hts : (resolveAlternatives ctx isGlobal selector (some w.standing.isGlobal) ts).result =
      .ok (outs, r)) :
    (resolveAlternatives ctx isGlobal selector agreed (t :: ts)).result =
      .ok (.node .selector t.spaces t.start (trimSpacing nodes) :: outs,
        { r with hasPureGlobals := !w.hasLocals || r.hasPureGlobals }) := by
  unfold resolveAlternatives
  refine Traced.bind_eq_ok.mpr ⟨_, Traced.bind_eq_ok.mpr ⟨(nodes, w), ht, rfl⟩, ?_⟩
  dsimp only
  rw [if_pos hagreed]
  exact Traced.bind_eq_ok.mpr ⟨(outs, r), hts, rfl⟩

theorem resolve_of_resolveAlternatives
    (h : (resolveAlternatives ctx isGlobal t.print none t.children).result = .ok (outs, r)) :
    (resolve ctx isGlobal t).result = .ok (.node .root t.spaces 0 outs, r) :=
  Traced.bind_eq_ok.mpr ⟨(outs, r), h, rfl⟩

theorem resolve_eq_ok (h : (resolve ctx isGlobal t).result = .ok (out, r)) :
    ∃ outs, (resolveAlternatives ctx isGlobal t.print none t.children).result = .ok (outs, r) ∧
      out = .node .root t.spaces 0 outs := by
  obtain ⟨⟨outs, q⟩, hr, h⟩ := Traced.bind_eq_ok.mp h
  cases h
  exact ⟨outs, hr, rfl⟩

end Alternatives

end Scope
end StyleScope
