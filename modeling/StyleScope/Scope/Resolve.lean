/-
# Resolving the scopes of a selector

A resolved selector list has every class and id in local scope marked
`:local(...)`, and its keywords are gone. One walk goes through the
nodes of each alternative and carries along the scope in force.

A broad keyword switches the scope for the rest of its alternative and is
dropped, together with the white space on one side of it: a keyword behind
white space wants white space behind it too, and one attached to a compound
wants none. A narrow keyword is replaced by what its arguments resolve to.
The arguments of any other pseudo-class start in the scope around it; a scope
chosen in one argument holds for the next, but not outside.

Key definitions: `Scope.resolveNode`, `Scope.resolve`.
-/
import StyleScope.Scope.Error
import StyleScope.Selector
import StyleScope.Trace

namespace StyleScope
namespace Scope

open Selector (Tree Spaces)

/-- What resolving needs to know of the sheet: the imported names, which are
kept as they are unless a keyword makes them local, and whether the rule
around is pure, so that `&` counts as a local part. -/
structure Context where
  aliases : List String
  parentIsPure : Bool
  deriving Repr

/-- The scope in force. It is explicit if a keyword chose it, and `inside`
names the narrow keyword whose argument is being resolved. -/
structure Standing where
  isGlobal : Bool
  isExplicit : Bool
  inside : Option Keyword
  deriving DecidableEq, Repr

/-- What a broad keyword demands of the next node. -/
inductive Demand where
  | nothing
  /-- The keyword followed white space, so white space must follow it. -/
  | space (keyword : Keyword)
  /-- The keyword was attached to a compound, so no white space may follow. -/
  | noSpace (keyword : Keyword)
  deriving DecidableEq, Repr

/-- The state of the walk through an alternative. -/
structure Walk where
  standing : Standing
  afterSpace : Bool
  demand : Demand
  hasLocals : Bool
  deriving DecidableEq, Repr

/-- The walk at the start of an alternative. -/
def Walk.begin (standing : Standing) (hasLocals : Bool) : Walk :=
  ⟨standing, true, .nothing, hasLocals⟩

/-- The walk behind a node that is not white space. -/
def Walk.passed (w : Walk) : Walk :=
  { w with afterSpace := false, demand := .nothing }

def Walk.addLocals (w : Walk) (hasLocals : Bool) : Walk :=
  { w with hasLocals := w.hasLocals || hasLocals }

/-- The error that the next node causes if a keyword demands otherwise. -/
def Demand.error? (isSpacing : Bool) : Demand → Option Error
  | .nothing => none
  | .space keyword => if isSpacing then none else some (.missingWhitespace keyword .after)
  | .noSpace keyword => if isSpacing then some (.missingWhitespace keyword .before) else none

/-! ### Single nodes -/

/-- Whether the pseudo-class exchanges names with other sheets; it is kept as
it is. -/
def isExchange (name : String) : Bool :=
  Text.sameWord name ":import" || Text.sameWord name ":export"

/-- A class or id under the mark of local scope. The text around it stays
outside of the mark. -/
def markLocal (kind : Selector.Kind) (spaces : Spaces) (start : Nat) : Tree :=
  .node (.pseudo Keyword.localScope.text true) spaces start
    [.node .selector .none start [.leaf kind .none start]]

/-- Resolves a class or id. -/
def resolveName (ctx : Context) (t : Tree) (name : String) (w : Walk) :
    Traced Error (Tree × Walk) :=
  if name = "" then .fail .invalidName
  else if w.standing.isGlobal then pure (t, w)
  else if name ∈ ctx.aliases ∧ ¬ w.standing.isExplicit then do
    .emit (.trace ("keeping imported name " ++ name))
    return (t, w)
  else pure (markLocal t.kind t.spaces t.start, { w with hasLocals := true })

/-- Resolves a broad keyword. The text in front of it is kept as white space. -/
def resolveBroad (keyword : Keyword) (spaces : Spaces) (start : Nat) (w : Walk) :
    Traced Error (List Tree × Walk) :=
  match w.standing.inside with
  | some outer => .fail (.nestedScope outer keyword)
  | none => do
    .emit (.trace ("broad " ++ keyword.text ++ " at " ++ Nat.repr start))
    let standing := { w.standing with isGlobal := keyword.isGlobal, isExplicit := true }
    let demand := if w.afterSpace then .space keyword else .noSpace keyword
    let kept :=
      if spaces.before = "" then []
      else [.leaf (.combinator .descendant spaces.before) .none start]
    return (kept, { w with standing, demand })

/-- The nodes without the white space at the end. -/
def trimSpacing (ts : List Tree) : List Tree :=
  (ts.reverse.dropWhile Tree.isSpacing).reverse

/-- The nodes with this text around them as a whole. -/
def surround (spaces : Spaces) (ts : List Tree) : List Tree :=
  let ts :=
    match ts with
    | [] => []
    | t :: ts => t.setBefore spaces.before :: ts
  match ts.getLast? with
  | none => []
  | some last => ts.dropLast ++ [last.setAfter spaces.after]

/-! ### The walk -/

mutual

/-- Resolves a node to the nodes that take its place. -/
def resolveNode (ctx : Context) (t : Tree) (w : Walk) : Traced Error (List Tree × Walk) :=
  match t with
  | .node kind spaces start children =>
    match w.demand.error? kind.isSpacing with
    | some e => .fail e
    | none =>
      match kind with
      | .combinator .descendant _ =>
        match w.demand with
        | .space _ => pure ([], w.passed)
        | _ => pure ([.node kind spaces start children], { w with afterSpace := true })
      | .pseudo name hasArguments =>
        match Keyword.ofPseudo? name, hasArguments with
        | some keyword, true =>
          if children.all fun argument => argument.children.isEmpty then
            .fail (.emptyScope keyword)
          else
            match w.standing.inside with
            | some outer => .fail (.nestedScope outer keyword)
            | none => do
              let (nodes, hasLocals) ←
                resolveNarrow ctx children ⟨keyword.isGlobal, true, some keyword⟩ false
              return (surround spaces nodes, (w.addLocals hasLocals).passed)
        | some keyword, false => resolveBroad keyword spaces start w
        | none, true =>
          if isExchange name then
            pure ([.node kind spaces start children], (w.addLocals true).passed)
          else do
            let (arguments, hasLocals) ← resolveArguments ctx children w.standing false
            return ([.node kind spaces start arguments], (w.addLocals hasLocals).passed)
        | none, false =>
          pure ([.node kind spaces start children], (w.addLocals (isExchange name)).passed)
      | .className name => do
        let (t, w) ← resolveName ctx (.node kind spaces start children) name w
        return ([t], w.passed)
      | .idName name => do
        let (t, w) ← resolveName ctx (.node kind spaces start children) name w
        return ([t], w.passed)
      | .nesting =>
        pure ([.node kind spaces start children], (w.addLocals ctx.parentIsPure).passed)
      | _ => pure ([.node kind spaces start children], w.passed)

/-- Resolves nodes in order. -/
def resolveSequence (ctx : Context) (ts : List Tree) (w : Walk) :
    Traced Error (List Tree × Walk) :=
  match ts with
  | [] => pure ([], w)
  | t :: ts => do
    let (nodes, w) ← resolveNode ctx t w
    let (more, w) ← resolveSequence ctx ts w
    return (nodes ++ more, w)

/-- Resolves the arguments of a narrow keyword to one sequence, and tells
whether it has a local part. -/
def resolveNarrow (ctx : Context) (ts : List Tree) (standing : Standing) (hasLocals : Bool) :
    Traced Error (List Tree × Bool) :=
  match ts with
  | [] => pure ([], hasLocals)
  | .node _ _ _ children :: ts => do
    let (nodes, w) ← resolveSequence ctx children ⟨standing, false, .nothing, hasLocals⟩
    let (more, hasLocals) ←
      resolveNarrow ctx ts { standing with isGlobal := w.standing.isGlobal } w.hasLocals
    return (trimSpacing nodes ++ more, hasLocals)

/-- Resolves the arguments of a pseudo-class, and tells whether they have a
local part. -/
def resolveArguments (ctx : Context) (ts : List Tree) (standing : Standing) (hasLocals : Bool) :
    Traced Error (List Tree × Bool) :=
  match ts with
  | [] => pure ([], hasLocals)
  | .node _ spaces start children :: ts => do
    let (nodes, w) ← resolveSequence ctx children (.begin standing hasLocals)
    let (more, hasLocals) ←
      resolveArguments ctx ts { standing with isGlobal := w.standing.isGlobal } w.hasLocals
    return (.node .selector spaces start (trimSpacing nodes) :: more, hasLocals)

end

/-! ### Selector lists -/

/-- What is known of a resolved selector list: the scope its alternatives end
in, and whether one of them has no local part. -/
structure Resolution where
  isGlobal : Bool
  hasPureGlobals : Bool
  deriving DecidableEq, Repr

/-- Resolves one alternative that starts in the scope of the mode. -/
def resolveAlternative (ctx : Context) (isGlobal : Bool) (t : Tree) :
    Traced Error (Tree × Walk) := do
  let (nodes, w) ← resolveSequence ctx t.children (.begin ⟨isGlobal, false, none⟩ false)
  return (.node .selector t.spaces t.start (trimSpacing nodes), w)

/-- Resolves the alternatives of the list `selector`, which must end in the
scope that is `agreed` on, if one is. -/
def resolveAlternatives (ctx : Context) (isGlobal : Bool) (selector : String) :
    Option Bool → List Tree → Traced Error (List Tree × Resolution)
  | agreed, [] => pure ([], ⟨agreed.getD isGlobal, false⟩)
  | agreed, t :: ts => do
    let (t, w) ← resolveAlternative ctx isGlobal t
    if agreed.getD w.standing.isGlobal = w.standing.isGlobal then
      let (ts, r) ← resolveAlternatives ctx isGlobal selector (some w.standing.isGlobal) ts
      return (t :: ts, { r with hasPureGlobals := !w.hasLocals || r.hasPureGlobals })
    else .fail (.inconsistentScope selector)

/-- Resolves a selector list whose unmarked names have the given scope. -/
def resolve (ctx : Context) (isGlobal : Bool) (t : Tree) : Traced Error (Tree × Resolution) := do
  let (alternatives, r) ← resolveAlternatives ctx isGlobal t.print none t.children
  return (.node .root t.spaces 0 alternatives, r)

end Scope
end StyleScope
