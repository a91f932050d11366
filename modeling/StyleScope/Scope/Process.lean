/-
# Scoping a stylesheet

A sheet is scoped in two passes. The first goes through the at-rules: it
resolves the names of `@keyframes` with all declarations in them, the
selectors in the preludes of `@scope`, and the declarations directly in the
block of an at-rule. The second goes through the rules: it resolves their
selectors and the declarations directly in them, in the scope that the
selector ends in. Rules directly in `@keyframes` are not selectors and are
skipped.

The first error ends the scoping, and then there is no scoped sheet.

Key definitions: `Scope.atRulePass`, `Scope.rulePass`, `Scope.process`,
`Scope.transform`.
-/
import StyleScope.Scope.Declaration
import StyleScope.Scope.Imports
import StyleScope.Scope.Keyframes
import StyleScope.Scope.Prelude
import StyleScope.Scope.Resolve
import StyleScope.Selector.Parser
import StyleScope.Sheet.Parser

namespace StyleScope
namespace Scope

open Sheet (AtHead Declaration Node RuleHead)

/-- The options, and the names that the sheet imports. -/
structure Job where
  options : Options
  aliases : List String

/-- A place of this scope. -/
def Job.place (job : Job) (isGlobal : Bool) : Place :=
  ⟨isGlobal, job.aliases, job.options.urlMap⟩

/-- The place of declarations that no selector governs. -/
def Job.ambient (job : Job) : Place :=
  job.place job.options.mode.isGlobal

/-- The report that a text was replaced. -/
def replaced (old new : String) : Event :=
  .debug (old ++ " -> " ++ new)

/-! ### Declarations -/

/-- Scopes the declarations directly among the nodes, in order. -/
def localizeDirect (p : Place) (ns : List Node) : Traced Error (List Declaration) :=
  (Sheet.declarations ns).mapM (localizeDeclaration p)

mutual

/-- Scopes all declarations in a node. -/
def localizeNode (p : Place) : Node → Traced Error Node
  | .rule head body after => do return .rule head (← localizeNested p body) after
  | .atBlock head body after => do return .atBlock head (← localizeNested p body) after
  | .atStatement head semicolon => pure (.atStatement head semicolon)
  | .declaration d => do return .declaration (← localizeDeclaration p d)
  | .comment c => pure (.comment c)

/-- Scopes all declarations among the nodes, at any depth. -/
def localizeNested (p : Place) : List Node → Traced Error (List Node)
  | [] => pure []
  | n :: ns => do
    let n ← localizeNode p n
    return n :: (← localizeNested p ns)

end

/-! ### Selectors -/

/-- Resolves a selector list. In pure mode it is refused with `impure` if an
alternative has no local part. -/
def resolveText (job : Job) (parentIsPure : Bool) (selector : String) (impure : Error) :
    Traced Error (String × Resolution) := do
  let tree ← .ofExcept ((Selector.parse selector).mapError .ofSyntax)
  let (tree, r) ← resolve ⟨job.aliases, parentIsPure⟩ job.options.mode.isGlobal tree
  if job.options.mode = .pure ∧ r.hasPureGlobals then .fail impure
  else return (tree.print, r)

/-- Resolves a selector list of a prelude, without the blanks around it. -/
def resolvePreludeText (job : Job) (text : String) : Traced Error String := do
  let selector := Text.trim text
  let (resolved, _) ← resolveText job false selector (.notPureAtRuleSelector selector)
  return Text.trim resolved

/-- Resolves a list of a prelude, if there is one. -/
def resolvePreludeText? (job : Job) : Option String → Traced Error (Option String)
  | none => pure none
  | some text => do return some (← resolvePreludeText job text)

/-- Resolves the prelude of `@scope`. One that cannot be read is kept. -/
def resolvePrelude (job : Job) (head : AtHead) : Traced Error AtHead :=
  if head.params = "" then pure head
  else
    match Prelude.parse? head.params with
    | none => do
      .emit (.warning "modules"
        ("unrecognized @" ++ head.name ++ " prelude `" ++ head.params ++ "`"))
      return head
    | some prelude => do
      let start ← resolvePreludeText? job prelude.start
      let limit ← resolvePreludeText? job prelude.limit
      let params := Prelude.print ⟨start, limit⟩
      .emit (replaced ("@" ++ head.name ++ " " ++ head.params) params)
      return { head with params }

/-! ### At-rules -/

/-- Resolves the name of `@keyframes`, and gives the scope of its block. -/
def resolveKeyframes (job : Job) (head : AtHead) : Traced Error (AtHead × Bool) := do
  let k ← .ofExcept (localizeKeyframes job.options.mode job.aliases head.params)
  .emit (replaced ("@" ++ head.name ++ " " ++ head.params) k.params)
  return ({ head with params := k.params }, k.isGlobal)

/-- The head of any other at-rule. -/
def resolveAtHead (job : Job) (head : AtHead) : Traced Error AtHead :=
  if isScope head.name then resolvePrelude job head else pure head

mutual

/-- The first pass through a node. -/
def atRuleNode (job : Job) : Node → Traced Error Node
  | .rule head body after => do return .rule head (← atRulePass job body) after
  | .atBlock head body after =>
    if isKeyframes head.name then do
      let (head, isGlobal) ← resolveKeyframes job head
      return .atBlock head (← localizeNested (job.place isGlobal) body) after
    else do
      let head ← resolveAtHead job head
      let ds ← localizeDirect job.ambient body
      let body ← atRulePass job body
      return .atBlock head (Sheet.setDeclarations ds body) after
  | .atStatement head semicolon =>
    if isKeyframes head.name then do
      let (head, _) ← resolveKeyframes job head
      return .atStatement head semicolon
    else do return .atStatement (← resolveAtHead job head) semicolon
  | .declaration d => pure (.declaration d)
  | .comment c => pure (.comment c)

/-- The first pass through nodes. -/
def atRulePass (job : Job) : List Node → Traced Error (List Node)
  | [] => pure []
  | n :: ns => do
    let n ← atRuleNode job n
    return n :: (← atRulePass job ns)

end

/-! ### Rules -/

mutual

/-- The second pass through a node. `inKeyframes` says that the node stands
directly in `@keyframes`, and `parentIsPure` is about the rule around it. -/
def ruleNode (job : Job) (inKeyframes parentIsPure : Bool) : Node → Traced Error Node
  | .rule head body after =>
    if inKeyframes then pure (.rule head body after)
    else do
      let (selector, r) ←
        resolveText job parentIsPure head.selector (.notPureSelector head.selector)
      .emit (replaced head.selector selector)
      let ds ← localizeDirect (job.place r.isGlobal) body
      let body ← rulePass job false (!r.hasPureGlobals) body
      return .rule { head with selector } (Sheet.setDeclarations ds body) after
  | .atBlock head body after => do
    return .atBlock head (← rulePass job (isKeyframes head.name) parentIsPure body) after
  | .atStatement head semicolon => pure (.atStatement head semicolon)
  | .declaration d => pure (.declaration d)
  | .comment c => pure (.comment c)

/-- The second pass through nodes. -/
def rulePass (job : Job) (inKeyframes parentIsPure : Bool) : List Node → Traced Error (List Node)
  | [] => pure []
  | n :: ns => do
    let n ← ruleNode job inKeyframes parentIsPure n
    return n :: (← rulePass job inKeyframes parentIsPure ns)

end

/-! ### Sheets -/

/-- Scopes a sheet. -/
def process (options : Options) (sheet : Sheet) : Traced Error Sheet := do
  let job : Job := ⟨options, importedNames sheet.nodes⟩
  let nodes ← atRulePass job sheet.nodes
  let nodes ← rulePass job false false nodes
  return { sheet with nodes }

/-- Reads, scopes and prints a sheet. -/
def transform (options : Options) (source : String) : Traced Error String := do
  let sheet ← (Sheet.parse source).mapError .ofSyntax
  let sheet ← process options sheet
  return sheet.print

end Scope
end StyleScope
