/-
# Resolving from arena to arena

Resolving can read a selector list from an arena and build the result in
another one. A node is copied, or its parts are built before it: the nodes of an
alternative come before the alternative, and the arguments of a pseudo-class
before the pseudo-class. White space that is trimmed stays behind as an entry
that nothing names.

At each step this walk does what the walk through the tree does, and the nodes
that it gives are the trees that the other one gives, built from new entries
(`Walked`). So resolving in arenas succeeds where resolving does, reports the
same, and its result holds the resolved list.

Key definitions: `Scope.nodeAt`, `Scope.resolveArena`.
Key theorems: `Scope.mirrors_nodeAt`, `Scope.mirrors_resolveArena`.
-/
import StyleScope.Proofs.ArenaCopies
import StyleScope.Proofs.ArenaGrowth
import StyleScope.Proofs.Checked
import StyleScope.Proofs.ResolveStep

namespace StyleScope
namespace Scope

open Selector (Arena Tree Spaces)

/-! ### The walk -/

/-- Why a walk through an arena stops. -/
inductive Stop where
  | fault (f : Fault)
  | refused (e : Error)
  deriving DecidableEq, Repr

/-- What has to be there, such as an entry that is looked at. -/
def required {α : Type} : Option α → Traced Stop α
  | some a => pure a
  | none => .fail (.fault .index)

/-- The numbers without those of white space at the end. -/
def trimNumbers (o : Arena) (nodes : List Nat) : List Nat :=
  (nodes.reverse.dropWhile o.isSpacing).reverse

/-- Changes the text around the nodes as a whole. -/
def surroundAt (spaces : Spaces) (nodes : List Nat) (o : Arena) : Traced Stop Arena := do
  let o ←
    match nodes with
    | [] => pure o
    | first :: _ =>
      required <| o.modify? first fun e =>
        { e with spaces := { e.spaces with before := spaces.before } }
  match nodes.getLast? with
  | none => return o
  | some last =>
    required <| o.modify? last fun e =>
      { e with spaces := { e.spaces with after := spaces.after } }

/-- Builds a class or id under the mark of local scope. -/
def markAt (e : Arena.Entry) (o : Arena) : Traced Stop (Nat × Arena) := do
  let inner := o.size
  let o := o.push e.kind .none e.start
  let argument := o.size
  let o := o.push .selector .none e.start
  let o ← required (o.appendChild? argument inner)
  let wrapper := o.size
  let o := o.push (.pseudo Keyword.localScope.text true) e.spaces e.start
  let o ← required (o.appendChild? wrapper argument)
  return (wrapper, o)

/-- Builds a node over others that were built before. -/
def nodeOver (e : Arena.Entry) (kind : Selector.Kind) (children : List Nat) (o : Arena) :
    Traced Stop (Nat × Arena) := do
  let node := o.size
  let o ← required ((o.push kind e.spaces e.start).setChildren? node children)
  return (node, o)

/-- A walk that resolves the node with a number to the nodes that take its place,
building them in the arena. -/
abbrev NodeWalk :=
  Nat → Walk → Arena → Traced Stop (List Nat × Walk × Arena)

section Walk

variable (ctx : Context) (input : Arena)

/-- Copies a node. -/
def keepAt (id : Nat) (w : Walk) (o : Arena) : Traced Stop (List Nat × Walk × Arena) := do
  let (copy, o) ← required (o.copyFrom? input id)
  return ([copy], w, o)

/-- Resolves a class or id. -/
def nameAt (id : Nat) (e : Arena.Entry) (name : String) (w : Walk) (o : Arena) :
    Traced Stop (List Nat × Walk × Arena) :=
  if name = "" then .fail (.refused .invalidName)
  else if w.standing.isGlobal then keepAt input id w.passed o
  else if name ∈ ctx.aliases ∧ ¬ w.standing.isExplicit then do
    .emit (.trace ("keeping imported name " ++ name))
    keepAt input id w.passed o
  else do
    let (wrapper, o) ← markAt e o
    return ([wrapper], { w with hasLocals := true }.passed, o)

/-- Resolves a broad keyword. -/
def broadAt (keyword : Keyword) (e : Arena.Entry) (w : Walk) (o : Arena) :
    Traced Stop (List Nat × Walk × Arena) :=
  match w.standing.inside with
  | some outer => .fail (.refused (.nestedScope outer keyword))
  | none => do
    .emit (.trace ("broad " ++ keyword.text ++ " at " ++ Nat.repr e.start))
    let standing := { w.standing with isGlobal := keyword.isGlobal, isExplicit := true }
    let demand := if w.afterSpace then .space keyword else .noSpace keyword
    let w := { w with standing, demand }
    if e.spaces.before = "" then return ([], w, o)
    else return ([o.size], w, o.push (.combinator .descendant e.spaces.before) .none e.start)

/-- Resolves nodes in order, each by `node`. -/
def sequenceAt (node : NodeWalk) :
    List Nat → Walk → Arena → Traced Stop (List Nat × Walk × Arena)
  | [], w, o => pure ([], w, o)
  | id :: ids, w, o => do
    let (nodes, w, o) ← node id w o
    let (more, w, o) ← sequenceAt node ids w o
    return (nodes ++ more, w, o)

/-- Resolves the children of an alternative. -/
def trimmedAt (node : NodeWalk) (id : Nat) (w : Walk) (o : Arena) :
    Traced Stop (List Nat × Walk × Arena) := do
  let (nodes, w, o) ← sequenceAt node (input.children id) w o
  return (trimNumbers o nodes, w, o)

/-- Resolves an alternative. -/
def alternativeAt (node : NodeWalk) (id : Nat) (w : Walk) (o : Arena) :
    Traced Stop (Nat × Walk × Arena) := do
  let (nodes, w, o) ← trimmedAt input node id w o
  let e ← required (input.get? id)
  let (selector, o) ← nodeOver e .selector nodes o
  return (selector, w, o)

/-- Resolves the arguments of a narrow keyword to one sequence. -/
def narrowAt (node : NodeWalk) :
    List Nat → Standing → Bool → Arena → Traced Stop (List Nat × Bool × Arena)
  | [], _, hasLocals, o => pure ([], hasLocals, o)
  | id :: ids, standing, hasLocals, o => do
    let (nodes, w, o) ← trimmedAt input node id ⟨standing, false, .nothing, hasLocals⟩ o
    let (more, hasLocals, o) ←
      narrowAt node ids { standing with isGlobal := w.standing.isGlobal } w.hasLocals o
    return (nodes ++ more, hasLocals, o)

/-- Resolves the arguments of a pseudo-class. -/
def argumentsAt (node : NodeWalk) :
    List Nat → Standing → Bool → Arena → Traced Stop (List Nat × Bool × Arena)
  | [], _, hasLocals, o => pure ([], hasLocals, o)
  | id :: ids, standing, hasLocals, o => do
    let (argument, w, o) ← alternativeAt input node id (.begin standing hasLocals) o
    let (more, hasLocals, o) ←
      argumentsAt node ids { standing with isGlobal := w.standing.isGlobal } w.hasLocals o
    return (argument :: more, hasLocals, o)

/-- Resolves a pseudo-class, what is below it by `node`. -/
def pseudoAt (node : NodeWalk) (id : Nat) (e : Arena.Entry) (name : String)
    (hasArguments : Bool) (w : Walk) (o : Arena) : Traced Stop (List Nat × Walk × Arena) :=
  match Keyword.ofPseudo? name, hasArguments with
  | some keyword, true =>
    if e.children.all fun argument => (input.children argument).isEmpty then
      .fail (.refused (.emptyScope keyword))
    else
      match w.standing.inside with
      | some outer => .fail (.refused (.nestedScope outer keyword))
      | none => do
        let (nodes, hasLocals, o) ←
          narrowAt input node e.children ⟨keyword.isGlobal, true, some keyword⟩ false o
        let o ← surroundAt e.spaces nodes o
        return (nodes, (w.addLocals hasLocals).passed, o)
  | some keyword, false => broadAt keyword e w o
  | none, true =>
    if isExchange name then keepAt input id (w.addLocals true).passed o
    else do
      let (arguments, hasLocals, o) ← argumentsAt input node e.children w.standing false o
      let (pseudo, o) ← nodeOver e e.kind arguments o
      return ([pseudo], (w.addLocals hasLocals).passed, o)
  | none, false => keepAt input id (w.addLocals (isExchange name)).passed o

/-- Resolves a node to the nodes that take its place, looking at no more than this
many levels. -/
def nodeAt : Nat → Nat → Walk → Arena → Traced Stop (List Nat × Walk × Arena)
  | 0, _, _, _ => .fail (.fault .endless)
  | n + 1, id, w, o =>
    match w.demand.error? (input.isSpacing id) with
    | some e => .fail (.refused e)
    | none => do
      let e ← required (input.get? id)
      match e.kind with
      | .combinator .descendant _ =>
        match w.demand with
        | .space _ => return ([], w.passed, o)
        | _ => keepAt input id { w with afterSpace := true } o
      | .pseudo name hasArguments => pseudoAt input (nodeAt n) id e name hasArguments w o
      | .className name => nameAt ctx input id e name w o
      | .idName name => nameAt ctx input id e name w o
      | .nesting => keepAt input id (w.addLocals ctx.parentIsPure).passed o
      | _ => keepAt input id w.passed o

/-- Resolves alternatives and attaches them to the root one by one. They must end
in the scope that is `agreed` on, if one is. -/
def alternativesAt (isGlobal : Bool) :
    Option Bool → List Nat → Arena → Traced Stop (Resolution × Arena)
  | agreed, [], o => pure (⟨agreed.getD isGlobal, false⟩, o)
  | agreed, id :: ids, o => do
    let (selector, w, o) ←
      alternativeAt input (nodeAt ctx input input.size) id (.begin ⟨isGlobal, false, none⟩ false) o
    let o ← required (o.appendChild? 0 selector)
    if agreed.getD w.standing.isGlobal = w.standing.isGlobal then
      let (r, o) ← alternativesAt isGlobal (some w.standing.isGlobal) ids o
      return ({ r with hasPureGlobals := !w.hasLocals || r.hasPureGlobals }, o)
    else
      let text ← required (input.print? 0)
      .fail (.refused (.inconsistentScope text))

/-- Resolves the selector list of an arena. -/
def resolveArena (isGlobal : Bool) : Traced Stop (Arena × Resolution) := do
  let root ← required (input.get? 0)
  let o ← required (Arena.empty.setSpaces? 0 root.spaces)
  let (r, o) ← alternativesAt ctx input isGlobal none input.selectors o
  return (o, r)

end Walk

/-! ### Two walks side by side -/

/-- The walk `x` does what `y` does: it reports the same, and gives a result that
`R` relates to the other one, or stops with the same error. -/
inductive Mirrors {α β : Type} (R : α → β → Prop) : Traced Stop α → Traced Error β → Prop where
  | ok {a : α} {b : β} (events : List Event) (h : R a b) :
    Mirrors R ⟨events, .ok a⟩ ⟨events, .ok b⟩
  | refused (events : List Event) (e : Error) :
    Mirrors R ⟨events, .error (.refused e)⟩ ⟨events, .error e⟩

namespace Mirrors

variable {α β γ δ : Type} {R : α → β → Prop} {S : γ → δ → Prop} {x : Traced Stop α}
  {y : Traced Error β}

theorem pure {a : α} {b : β} (h : R a b) : Mirrors R (Pure.pure a) (Pure.pure b) :=
  .ok [] h

theorem fail (e : Error) : Mirrors R (.fail (.refused e)) (.fail e) :=
  .refused [] e

theorem bind {f : α → Traced Stop γ} {g : β → Traced Error δ} (h : Mirrors R x y)
    (hf : ∀ a b, R a b → Mirrors S (f a) (g b)) : Mirrors S (x >>= f) (y >>= g) := by
  cases h with
  | refused events e => exact .refused events e
  | @ok a b events h =>
    have hnext := hf a b h
    change Mirrors S ⟨events ++ (f a).events, (f a).result⟩ ⟨events ++ (g b).events, (g b).result⟩
    generalize f a = x, g b = y at hnext
    cases hnext with
    | ok more h => exact .ok _ h
    | refused more e => exact .refused _ e

/-- Both report the same event. -/
theorem emit {f : Unit → Traced Stop γ} {g : Unit → Traced Error δ} (e : Event)
    (h : Mirrors S (f ()) (g ())) : Mirrors S (Traced.emit e >>= f) (Traced.emit e >>= g) :=
  bind (R := fun _ _ => True) (.ok [e] trivial) fun _ _ _ => h

theorem exists_of_ok {b : β} (h : Mirrors R x y) (hb : y.result = .ok b) :
    ∃ a, x.result = .ok a ∧ R a b := by
  cases h with
  | ok events h =>
    cases hb
    exact ⟨_, rfl, h⟩
  | refused events e => cases hb

theorem exists_of_ok_left {a : α} (h : Mirrors R x y) (ha : x.result = .ok a) :
    ∃ b, y.result = .ok b ∧ R a b := by
  cases h with
  | ok events h =>
    cases ha
    exact ⟨_, rfl, h⟩
  | refused events e => cases ha

end Mirrors

@[simp] theorem required_some {α : Type} (a : α) : required (some a) = pure a := rfl

/-- The nodes that are given stand for the trees, which are new in the arena. -/
def Walked {κ : Type} (o : Arena) (r : List Nat × κ × Arena) (s : List Tree × κ) : Prop :=
  r.2.1 = s.2 ∧ o.Gains r.2.2 r.1 s.1

/-! ### Single nodes -/

section Nodes

open Selector.Arena (Gains gains_graft gains_nil gains_push)

variable {ctx : Context} {input o m o' : Arena} {id : Nat} {t : Tree} {w : Walk}
  {nodes : List Nat} {ts : List Tree}

theorem isSpacing_of_holds {ids : List Nat} (h : input.Holds id t ids) :
    input.isSpacing id = t.isSpacing := by
  obtain ⟨children, more, he, -, -⟩ := h.exists_entry
  rw [Arena.isSpacing, he]
  rfl

theorem mirrors_keepAt (h : input.tree? id = some t) (w : Walk) (o : Arena) :
    Mirrors (Walked o) (keepAt input id w o) (pure ([t], w)) := by
  rw [keepAt, Arena.copyFrom?_eq h, required_some, pure_bind]
  exact .pure ⟨rfl, gains_graft o t⟩

/-- Of two rows that agree place by place, as much is dropped at the front. -/
theorem exists_dropWhile_eq_drop {α β : Type} {p : α → Bool} {q : β → Bool} {as : List α}
    {bs : List β} (h : List.Forall₂ (fun a b => p a = q b) as bs) :
    ∃ k, as.dropWhile p = as.drop k ∧ bs.dropWhile q = bs.drop k := by
  induction h with
  | nil => exact ⟨0, rfl, rfl⟩
  | @cons a b as bs hab _ ih =>
    cases hq : q b with
    | false =>
      refine ⟨0, ?_, ?_⟩
      · rw [List.dropWhile_cons, hab, hq]
        rfl
      · rw [List.dropWhile_cons, hq]
        rfl
    | true =>
      obtain ⟨k, has, hbs⟩ := ih
      refine ⟨k + 1, ?_, ?_⟩
      · rw [List.dropWhile_cons, hab, hq]
        exact has
      · rw [List.dropWhile_cons, hq]
        exact hbs

theorem forall₂_isSpacing {ids : List Nat} (h : o.HoldsEach nodes ts ids) :
    List.Forall₂ (fun i t => o.isSpacing i = Tree.isSpacing t) nodes ts := by
  induction ts generalizing nodes ids with
  | nil =>
    cases h
    exact .nil
  | cons t ts ih =>
    cases h with
    | cons h hs => exact .cons (isSpacing_of_holds h) (ih hs)

/-- White space at the end is trimmed in the arena as in the trees. -/
theorem gains_trimNumbers (h : o.Gains o' nodes ts) :
    o.Gains o' (trimNumbers o' nodes) (trimSpacing ts) := by
  obtain ⟨ids, hs, -⟩ := h.holds
  obtain ⟨k, hnodes, hts⟩ := exists_dropWhile_eq_drop (List.rel_reverse (forall₂_isSpacing hs))
  rw [trimNumbers, hnodes, trimSpacing, hts, List.drop_reverse, List.drop_reverse,
    List.reverse_reverse, List.reverse_reverse, hs.length_roots]
  exact h.take _

/-- The text around the nodes is changed in the arena as in the trees. -/
theorem exists_surroundAt (h : o.Gains o' nodes ts) (spaces : Spaces) :
    ∃ o'', surroundAt spaces nodes o' = pure o'' ∧ o.Gains o'' nodes (surround spaces ts) := by
  cases ts with
  | nil =>
    obtain rfl : nodes = [] := List.eq_nil_of_length_eq_zero h.length_eq
    exact ⟨o', rfl, h⟩
  | cons t ts =>
    cases nodes with
    | nil => exact nomatch h.length_eq
    | cons first rest =>
      have h₀ : o.Gains o' ([] ++ first :: rest) ([] ++ t :: ts) := h
      obtain ⟨o₁, hfirst, h₁⟩ := h₀.modify? (fun s => { s with before := spaces.before }) rfl
      have hlength := h₁.length_eq
      rw [List.nil_append, List.nil_append] at h₁ hlength
      obtain ⟨front, last, hnodes⟩ :=
        (first :: rest).eq_nil_or_concat'.resolve_left (List.cons_ne_nil _ _)
      obtain ⟨us, u, hts⟩ :=
        (t.setBefore spaces.before :: ts).eq_nil_or_concat'.resolve_left (List.cons_ne_nil _ _)
      change o.Gains o₁ (first :: rest) (t.setBefore spaces.before :: ts) at h₁
      rw [hnodes, hts] at h₁
      obtain ⟨o₂, hlast, h₂⟩ :=
        h₁.modify? (fun s => { s with after := spaces.after }) (by simpa using h₁.length_eq)
      refine ⟨o₂, ?_, ?_⟩
      · simp only [surroundAt, hfirst, required_some, pure_bind, hnodes, List.getLast?_concat,
          hlast]
      · rw [hnodes]
        simp only [surround, hts, List.getLast?_concat, List.dropLast_concat]
        exact h₂

/-- A name under the mark of local scope is built with its mark. -/
theorem exists_markAt (e : Arena.Entry) (o : Arena) :
    ∃ wrapper o', markAt e o = pure (wrapper, o') ∧
      o.Gains o' [wrapper] [markLocal e.kind e.spaces e.start] := by
  have hinner := gains_push o e.kind .none e.start
  have hargument := hinner.node .selector .none e.start
  have hwrapper := hargument.node (.pseudo Keyword.localScope.text true) e.spaces e.start
  refine ⟨_, _, ?_, hwrapper⟩
  simp only [markAt, Arena.appendChild?_push, required_some, pure_bind]

theorem nodeOver_eq (e : Arena.Entry) (kind : Selector.Kind) (children : List Nat) (o : Arena) :
    nodeOver e kind children o =
      pure (o.size, ⟨o.entries ++ [⟨kind, e.spaces, e.start, children⟩]⟩) := by
  simp only [nodeOver, Arena.setChildren?_push, required_some, pure_bind]

/-- A class or id is resolved in the arena as in the tree. -/
theorem mirrors_nameAt {kind : Selector.Kind} {spaces : Spaces} {start : Nat} {children : List Nat}
    (h : input.tree? id = some (.node kind spaces start ts)) (name : String) (w : Walk)
    (o : Arena) :
    Mirrors (Walked o) (nameAt ctx input id ⟨kind, spaces, start, children⟩ name w o)
      (resolveName ctx (.node kind spaces start ts) name w >>= fun r =>
        pure ([r.1], r.2.passed)) := by
  rw [nameAt, resolveName]
  split
  · exact .fail _
  split
  · rw [pure_bind]
    exact mirrors_keepAt h _ _
  split
  · rw [bind_assoc]
    refine .emit _ ?_
    rw [pure_bind]
    exact mirrors_keepAt h _ _
  · obtain ⟨wrapper, o', hmark, hgains⟩ := exists_markAt ⟨kind, spaces, start, children⟩ o
    rw [hmark, pure_bind, pure_bind]
    exact .pure ⟨rfl, hgains⟩

/-- A broad keyword is resolved in the arena as in the tree. -/
theorem mirrors_broadAt (keyword : Keyword) (e : Arena.Entry) (w : Walk) (o : Arena) :
    Mirrors (Walked o) (broadAt keyword e w o) (resolveBroad keyword e.spaces e.start w) := by
  rw [broadAt, resolveBroad]
  cases w.standing.inside with
  | some outer => exact .fail _
  | none =>
    refine .emit _ ?_
    dsimp only
    split
    · exact .pure ⟨rfl, gains_nil o⟩
    · exact .pure ⟨rfl, gains_push o _ _ _⟩

end Nodes

/-! ### The walk through the nodes -/

section Rows

open Selector.Arena (children_of_get? gains_nil)

variable {ctx : Context} {input o : Arena} {n : Nat} {node : NodeWalk}

/-- The walk `node` does what the walk through the tree does, for trees of at most
`n` nodes. -/
def MirrorsNodes (ctx : Context) (input : Arena) (n : Nat) (node : NodeWalk) : Prop :=
  ∀ {id : Nat} {t : Tree} {ids : List Nat} (w : Walk) (o : Arena), input.Holds id t ids →
    t.size ≤ n → Mirrors (Walked o) (node id w o) (resolveNode ctx t w)

theorem mirrors_sequenceAt (hnode : MirrorsNodes ctx input n node) {roots : List Nat}
    {ts : List Tree} {ids : List Nat} (h : input.HoldsEach roots ts ids)
    (hn : Selector.sizeEach ts ≤ n) (w : Walk) (o : Arena) :
    Mirrors (Walked o) (sequenceAt node roots w o) (resolveSequence ctx ts w) := by
  induction ts generalizing roots ids w o with
  | nil =>
    cases h
    unfold resolveSequence
    exact .pure ⟨rfl, gains_nil o⟩
  | cons t ts ih =>
    rw [Selector.sizeEach] at hn
    cases h with
    | cons h hs =>
      rw [sequenceAt]
      unfold resolveSequence
      refine (hnode w o h (by omega)).bind ?_
      rintro ⟨nodes, w, m⟩ ⟨trees, _⟩ ⟨rfl, hgains⟩
      refine (ih hs (by omega) w m).bind ?_
      rintro ⟨more, w, o'⟩ ⟨others, _⟩ ⟨rfl, hmore⟩
      exact .pure ⟨rfl, hgains.append hmore⟩

/-- An alternative that the walk resolves from some place on. -/
def resolveAlternativeFrom (ctx : Context) (t : Tree) (w : Walk) : Traced Error (Tree × Walk) := do
  let (nodes, w) ← resolveSequence ctx t.children w
  return (.node .selector t.spaces t.start (trimSpacing nodes), w)

theorem mirrors_trimmedAt (hnode : MirrorsNodes ctx input n node) {id : Nat} {t : Tree}
    {ids : List Nat} (h : input.Holds id t ids) (hn : t.size ≤ n) (w : Walk) (o : Arena) :
    Mirrors (Walked o) (trimmedAt input node id w o)
      (resolveSequence ctx t.children w >>= fun r => pure (trimSpacing r.1, r.2)) := by
  obtain ⟨kind, spaces, start, ts⟩ := t
  rw [Tree.size] at hn
  cases h with
  | node he hs =>
    rw [trimmedAt, children_of_get? he]
    refine (mirrors_sequenceAt hnode hs (by omega) w o).bind ?_
    rintro ⟨nodes, w, o'⟩ ⟨trees, _⟩ ⟨rfl, hgains⟩
    exact .pure ⟨rfl, gains_trimNumbers hgains⟩

theorem mirrors_alternativeAt (hnode : MirrorsNodes ctx input n node) {id : Nat} {t : Tree}
    {ids : List Nat} (h : input.Holds id t ids) (hn : t.size ≤ n) (w : Walk) (o : Arena) :
    Mirrors (fun r s => Walked o ([r.1], r.2) ([s.1], s.2)) (alternativeAt input node id w o)
      (resolveAlternativeFrom ctx t w) := by
  obtain ⟨children, more, he, -, -⟩ := h.exists_entry
  have htree : resolveAlternativeFrom ctx t w =
      (resolveSequence ctx t.children w >>= fun r => pure (trimSpacing r.1, r.2)) >>=
        fun r => pure (.node .selector t.spaces t.start r.1, r.2) := by
    rw [bind_assoc]
    rfl
  rw [alternativeAt, htree]
  refine (mirrors_trimmedAt hnode h hn w o).bind ?_
  rintro ⟨nodes, w, m⟩ ⟨trees, _⟩ ⟨rfl, hgains⟩
  simp only [he, required_some, pure_bind, nodeOver_eq]
  exact .pure ⟨rfl, hgains.node .selector t.spaces t.start⟩

theorem mirrors_narrowAt (hnode : MirrorsNodes ctx input n node) {roots : List Nat}
    {ts : List Tree} {ids : List Nat} (h : input.HoldsEach roots ts ids)
    (hn : Selector.sizeEach ts ≤ n) (standing : Standing) (hasLocals : Bool) (o : Arena) :
    Mirrors (Walked o) (narrowAt input node roots standing hasLocals o)
      (resolveNarrow ctx ts standing hasLocals) := by
  induction ts generalizing roots ids standing hasLocals o with
  | nil =>
    cases h
    unfold resolveNarrow
    exact .pure ⟨rfl, gains_nil o⟩
  | cons t ts ih =>
    rw [Selector.sizeEach] at hn
    cases h with
    | cons h hs =>
      have htree : resolveNarrow ctx (t :: ts) standing hasLocals =
          (resolveSequence ctx t.children ⟨standing, false, .nothing, hasLocals⟩ >>= fun r =>
            pure (trimSpacing r.1, r.2)) >>= fun r =>
          resolveNarrow ctx ts { standing with isGlobal := r.2.standing.isGlobal } r.2.hasLocals >>=
            fun s => pure (r.1 ++ s.1, s.2) := by
        obtain ⟨kind, spaces, start, children⟩ := t
        conv_lhs => unfold resolveNarrow
        simp only [bind_assoc, pure_bind]
        rfl
      rw [narrowAt, htree]
      refine (mirrors_trimmedAt hnode h (by omega) _ o).bind ?_
      rintro ⟨nodes, w, m⟩ ⟨trees, _⟩ ⟨rfl, hgains⟩
      refine (ih hs (by omega) _ _ m).bind ?_
      rintro ⟨more, hasLocals, o'⟩ ⟨others, _⟩ ⟨rfl, hmore⟩
      exact .pure ⟨rfl, hgains.append hmore⟩

theorem mirrors_argumentsAt (hnode : MirrorsNodes ctx input n node) {roots : List Nat}
    {ts : List Tree} {ids : List Nat} (h : input.HoldsEach roots ts ids)
    (hn : Selector.sizeEach ts ≤ n) (standing : Standing) (hasLocals : Bool) (o : Arena) :
    Mirrors (Walked o) (argumentsAt input node roots standing hasLocals o)
      (resolveArguments ctx ts standing hasLocals) := by
  induction ts generalizing roots ids standing hasLocals o with
  | nil =>
    cases h
    unfold resolveArguments
    exact .pure ⟨rfl, gains_nil o⟩
  | cons t ts ih =>
    rw [Selector.sizeEach] at hn
    cases h with
    | cons h hs =>
      have htree : resolveArguments ctx (t :: ts) standing hasLocals =
          resolveAlternativeFrom ctx t (.begin standing hasLocals) >>= fun r =>
            resolveArguments ctx ts { standing with isGlobal := r.2.standing.isGlobal }
              r.2.hasLocals >>= fun s => pure (r.1 :: s.1, s.2) := by
        obtain ⟨kind, spaces, start, children⟩ := t
        conv_lhs => unfold resolveArguments
        simp only [resolveAlternativeFrom, bind_assoc, pure_bind]
        rfl
      rw [argumentsAt, htree]
      refine (mirrors_alternativeAt hnode h (by omega) _ o).bind ?_
      rintro ⟨argument, w, m⟩ ⟨tree, _⟩ ⟨rfl, hgains⟩
      refine (ih hs (by omega) _ _ m).bind ?_
      rintro ⟨more, hasLocals, o'⟩ ⟨others, _⟩ ⟨rfl, hmore⟩
      exact .pure ⟨rfl, hgains.append hmore⟩

end Rows

section Node

open Selector.Arena (children_of_get? gains_nil)

variable {ctx : Context} {input : Arena} {n : Nat} {node : NodeWalk}

/-- The arguments that hold nothing are the same in the arena as in the tree. -/
theorem all_isEmpty_children {roots : List Nat} {ts : List Tree} {ids : List Nat}
    (h : input.HoldsEach roots ts ids) :
    (roots.all fun c => (input.children c).isEmpty) = ts.all fun t => t.children.isEmpty := by
  induction ts generalizing roots ids with
  | nil =>
    cases h
    rfl
  | cons t ts ih =>
    cases h with
    | cons h hs =>
      obtain ⟨children, more, he, hbelow, -⟩ := h.exists_entry
      have hempty : children.isEmpty = t.children.isEmpty := by
        rw [Bool.eq_iff_iff, List.isEmpty_iff_length_eq_zero, List.isEmpty_iff_length_eq_zero,
          hbelow.length_roots]
      rw [List.all_cons, List.all_cons, ih hs, children_of_get? he, hempty]

theorem mirrors_pseudoAt (hnode : MirrorsNodes ctx input n node) {id : Nat} {name : String}
    {hasArguments : Bool} {spaces : Spaces} {start : Nat} {roots ids : List Nat} {ts : List Tree}
    (htree : input.tree? id = some (.node (.pseudo name hasArguments) spaces start ts))
    (hs : input.HoldsEach roots ts ids) (hn : Selector.sizeEach ts ≤ n) {w : Walk}
    (hd : w.demand.error? false = none) (o : Arena) :
    Mirrors (Walked o)
      (pseudoAt input node id ⟨.pseudo name hasArguments, spaces, start, roots⟩ name hasArguments w
        o)
      (resolveNode ctx (.node (.pseudo name hasArguments) spaces start ts) w) := by
  unfold pseudoAt resolveNode
  simp only [Selector.Kind.isSpacing, hd, all_isEmpty_children hs]
  cases Keyword.ofPseudo? name with
  | some keyword =>
    cases hasArguments with
    | true =>
      dsimp only
      split
      · exact .fail _
      cases w.standing.inside with
      | some outer => exact .fail _
      | none =>
        refine (mirrors_narrowAt hnode hs hn _ _ o).bind ?_
        rintro ⟨nodes, hasLocals, o'⟩ ⟨trees, _⟩ ⟨rfl, hgains⟩
        obtain ⟨o'', hsurround, hgains⟩ := exists_surroundAt hgains spaces
        simp only [hsurround, pure_bind]
        exact .pure ⟨rfl, hgains⟩
    | false => exact mirrors_broadAt keyword _ w o
  | none =>
    cases hasArguments with
    | true =>
      dsimp only
      split
      · exact mirrors_keepAt htree _ o
      · refine (mirrors_argumentsAt hnode hs hn _ _ o).bind ?_
        rintro ⟨arguments, hasLocals, o'⟩ ⟨trees, _⟩ ⟨rfl, hgains⟩
        simp only [nodeOver_eq, pure_bind]
        exact .pure ⟨rfl, hgains.node (.pseudo name true) spaces start⟩
    | false => exact mirrors_keepAt htree _ o

/-- **What the walk through the arena does at a node is what the walk through the
tree does.** -/
theorem mirrors_nodeAt (hn : n ≤ input.size) : MirrorsNodes ctx input n (nodeAt ctx input n) := by
  induction n with
  | zero =>
    intro id t ids w o h hsize
    cases h
    rw [Tree.size] at hsize
    omega
  | succ n ih =>
    intro id t ids w o h hsize
    have htree := h.treeWithin (Nat.le_trans hsize hn)
    rw [nodeAt, isSpacing_of_holds h]
    cases h with
    | @node _ kind spaces start roots ts _ he hs =>
      rw [Tree.size] at hsize
      have hbelow : Selector.sizeEach ts ≤ n := by omega
      change Mirrors _ (match w.demand.error? kind.isSpacing with | some e => _ | none => _) _
      cases hd : w.demand.error? kind.isSpacing with
      | some e =>
        unfold resolveNode
        simp only [hd]
        exact .fail e
      | none =>
        simp only [he, required_some, pure_bind]
        cases kind with
        | pseudo name hasArguments =>
          exact mirrors_pseudoAt (ih (Nat.le_of_succ_le hn)) htree hs hbelow hd o
        | className name | idName name =>
          unfold resolveNode
          simp only [hd]
          exact mirrors_nameAt htree name w o
        | combinator combinator text =>
          unfold resolveNode
          simp only [hd]
          cases combinator with
          | descendant =>
            cases w.demand with
            | space keyword => exact .pure ⟨rfl, gains_nil o⟩
            | _ => exact mirrors_keepAt htree _ o
          | _ => exact mirrors_keepAt htree _ o
        | _ =>
          unfold resolveNode
          simp only [hd]
          exact mirrors_keepAt htree _ o

end Node

/-! ### The whole list -/

section Lists

open Selector.Arena (Gains Holds HoldsEach children_of_get? exists_modify? get?_of_modify?)

variable {ctx : Context} {input o o' : Arena}

/-- A selector list stands at the root of the arena, and each of its nodes has an
entry of its own. -/
def HoldsList (o : Arena) (spaces : Spaces) (ts : List Tree) : Prop :=
  ∃ ids, o.Holds 0 (.node .root spaces 0 ts) ids ∧ ids.Nodup

/-- An alternative that was gained becomes the last one of the list. -/
theorem HoldsList.exists_appendChild? {spaces : Spaces} {ts : List Tree} {t : Tree} {id : Nat}
    (h : HoldsList o spaces ts) (hgains : o.Gains o' [id] [t]) :
    ∃ o'', o'.appendChild? 0 id = some o'' ∧ HoldsList o'' spaces (ts ++ [t]) := by
  obtain ⟨ids, hroot, hids⟩ := h
  have hold : ∀ i ∈ ids, i < o.size := fun i hi => hroot.lt_size hi
  have hroot' := hroot.congr fun i hi => hgains.get?_eq i (hold i hi)
  obtain ⟨news, hnews, hnodup, hnew⟩ := hgains.holds
  cases hroot' with
  | @node _ _ _ _ roots _ ids he hs =>
    have hzero : 0 < o.size := hold 0 List.mem_cons_self
    -- the list takes up old entries and the alternative new ones, so that changing
    -- the root leaves both alone
    obtain ⟨o'', ho''⟩ := exists_modify? he fun e => { e with children := e.children ++ [id] }
    have hself := (get?_of_modify? ho'').1
    rw [he] at hself
    have hbelow := hs.of_modify? ho'' (List.nodup_cons.mp hids).1
    have hnews' := hnews.of_modify? ho'' fun hmem => Nat.not_lt_of_le (hnew 0 hmem) hzero
    refine ⟨o'', ho'', 0 :: (ids ++ news), .node hself (hbelow.append hnews'), ?_⟩
    rw [← List.cons_append]
    refine List.nodup_append.mpr ⟨hids, hnodup, fun i hi j hj => ?_⟩
    exact Nat.ne_of_lt (Nat.lt_of_lt_of_le (hold i hi) (hnew j hj))

theorem mirrors_alternativesAt {t : Tree} (htree : input.tree? 0 = some t) (isGlobal : Bool)
    (spaces : Spaces) {roots : List Nat} {ts : List Tree} {ids : List Nat}
    (h : input.HoldsEach roots ts ids) (hn : Selector.sizeEach ts ≤ input.size)
    (agreed : Option Bool) {done : List Tree} (hdone : HoldsList o spaces done) :
    Mirrors (fun r s => r.1 = s.2 ∧ HoldsList r.2 spaces (done ++ s.1))
      (alternativesAt ctx input isGlobal agreed roots o)
      (resolveAlternatives ctx isGlobal t.print agreed ts) := by
  induction ts generalizing roots ids agreed done o with
  | nil =>
    cases h
    rw [resolveAlternatives]
    exact .pure ⟨rfl, (List.append_nil done).symm ▸ hdone⟩
  | cons u us ih =>
    rw [Selector.sizeEach] at hn
    cases h with
    | cons h hs =>
      rw [alternativesAt, resolveAlternatives]
      refine (mirrors_alternativeAt (mirrors_nodeAt (Nat.le_refl _)) h (by omega) _ o).bind ?_
      rintro ⟨selector, w, o'⟩ ⟨alternative, _⟩ ⟨rfl, hgains⟩
      obtain ⟨o'', happend, hdone'⟩ := hdone.exists_appendChild? hgains
      simp only [happend, required_some, pure_bind]
      split
      · refine (ih hs (by omega) _ hdone').bind ?_
        rintro ⟨r, o'⟩ ⟨trees, _⟩ ⟨rfl, hrest⟩
        rw [List.append_assoc] at hrest
        exact .pure ⟨rfl, hrest⟩
      · rw [Arena.print?_eq htree, required_some, pure_bind]
        exact .fail _

/-- **Resolving from arena to arena does what resolving does**, and the arena that
it gives holds the resolved list, with an entry for each of its nodes. -/
theorem mirrors_resolveArena {t : Tree} {ids : List Nat} (h : input.Holds 0 t ids)
    (hn : t.size ≤ input.size) (ctx : Context) (isGlobal : Bool) :
    Mirrors (fun r s => r.2 = s.2 ∧ ∃ ids, r.1.Holds 0 s.1 ids ∧ ids.Nodup)
      (resolveArena ctx input isGlobal) (resolve ctx isGlobal t) := by
  have htree : input.tree? 0 = some t := h.treeWithin hn
  obtain ⟨kind, spaces, start, ts⟩ := t
  rw [Tree.size] at hn
  cases h with
  | @node _ _ _ _ roots _ ids he hs =>
    have hempty : HoldsList ⟨[⟨.root, spaces, 0, []⟩]⟩ spaces [] :=
      ⟨[0], .node rfl .nil, List.nodup_singleton 0⟩
    have hspaces : Arena.empty.setSpaces? 0 spaces = some ⟨[⟨.root, spaces, 0, []⟩]⟩ := rfl
    have hchildren : input.selectors = roots := children_of_get? he
    rw [resolveArena, resolve]
    simp only [he, hspaces, hchildren, required_some, pure_bind]
    refine (mirrors_alternativesAt htree isGlobal spaces hs (by omega) none hempty).bind ?_
    rintro ⟨r, o⟩ ⟨trees, _⟩ ⟨rfl, hlist⟩
    exact .pure ⟨rfl, hlist⟩

end Lists

end Scope
end StyleScope
