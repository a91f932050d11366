/-
# Stylesheets

A stylesheet is a list of nodes: rules and at-rules, with nodes in their
blocks again, declarations and comments. Selectors, at-rule preludes and
values are kept as text, and so is all that stands between them: a sheet
prints as it was read.

Key definitions: `Sheet`, `Sheet.Node`, `Sheet.print`.
-/

namespace StyleScope

namespace Sheet

/-- What stands in front of a rule's block. `offset` is the byte offset of the
selector. -/
structure RuleHead where
  before : String
  selector : String
  between : String
  offset : Nat
  deriving DecidableEq, Repr, Inhabited

/-- What stands in front of an at-rule's block or end. The name is without the
`@`, whose byte offset is `offset`. -/
structure AtHead where
  before : String
  name : String
  afterName : String
  params : String
  between : String
  offset : Nat
  deriving DecidableEq, Repr, Inhabited

/-- A declaration. `between` reaches from the property to the value, the colon
included; `important` is the mark with the white space in front of it. -/
structure Declaration where
  before : String
  prop : String
  between : String
  value : String
  important : Option String
  trailing : String
  semicolon : Bool
  offset : Nat
  deriving DecidableEq, Repr, Inhabited

structure Comment where
  before : String
  text : String
  offset : Nat
  deriving DecidableEq, Repr, Inhabited

/-- One entry of a sheet or of a block. Of a block, `after` is the white space
in front of its closing brace. -/
inductive Node where
  | rule (head : RuleHead) (body : List Node) (after : String)
  | atBlock (head : AtHead) (body : List Node) (after : String)
  /-- An at-rule without a block. -/
  | atStatement (head : AtHead) (semicolon : Bool)
  | declaration (d : Declaration)
  | comment (c : Comment)
  deriving Repr, Inhabited

/-! ### Declarations directly among nodes -/

/-- The declarations directly among the nodes. -/
def declarations : List Node → List Declaration
  | [] => []
  | .declaration d :: ns => d :: declarations ns
  | _ :: ns => declarations ns

/-- The nodes with the declarations directly among them replaced in order, as
far as there are replacements. -/
def setDeclarations : List Declaration → List Node → List Node
  | _, [] => []
  | [], ns => ns
  | d :: ds, .declaration _ :: ns => .declaration d :: setDeclarations ds ns
  | d :: ds, n :: ns => n :: setDeclarations (d :: ds) ns

/-- Replacing the declarations by themselves changes nothing. -/
@[simp] theorem setDeclarations_declarations (ns : List Node) :
    setDeclarations (declarations ns) ns = ns := by
  induction ns with
  | nil => simp [setDeclarations]
  | cons n ns ih =>
    cases n with
    | declaration d => simp [declarations, setDeclarations, ih]
    | _ =>
      cases h : declarations ns with
      | nil => simp [declarations, h, setDeclarations]
      | cons d ds => rw [h] at ih; simp [declarations, h, setDeclarations, ih]

/-! ### Printing -/

def RuleHead.print (h : RuleHead) : String :=
  h.before ++ h.selector ++ h.between

def AtHead.print (h : AtHead) : String :=
  h.before ++ "@" ++ h.name ++ h.afterName ++ h.params ++ h.between

/-- The end mark of a declaration or an at-rule. -/
def printSemicolon (semicolon : Bool) : String :=
  if semicolon then ";" else ""

def Declaration.print (d : Declaration) : String :=
  d.before ++ d.prop ++ d.between ++ d.value ++ d.important.getD "" ++ d.trailing ++
    printSemicolon d.semicolon

mutual

/-- The text of a node. -/
def Node.print : Node → String
  | .rule head body after => head.print ++ "\x7b" ++ printNodes body ++ after ++ "\x7d"
  | .atBlock head body after => head.print ++ "\x7b" ++ printNodes body ++ after ++ "\x7d"
  | .atStatement head semicolon => head.print ++ printSemicolon semicolon
  | .declaration d => d.print
  | .comment c => c.before ++ c.text

/-- The texts of the nodes in order. -/
def printNodes : List Node → String
  | [] => ""
  | n :: ns => n.print ++ printNodes ns

end

@[simp] theorem printNodes_nil : printNodes [] = "" := by simp [printNodes]

@[simp] theorem printNodes_cons (n : Node) (ns : List Node) :
    printNodes (n :: ns) = n.print ++ printNodes ns := by simp [printNodes]

@[simp] theorem printNodes_append (ns ms : List Node) :
    printNodes (ns ++ ms) = printNodes ns ++ printNodes ms := by
  induction ns with
  | nil => simp
  | cons n ns ih => simp [ih, String.append_assoc]

mutual

/-- The node and all below it in document order, each with its depth. -/
def Node.outline (depth : Nat) : Node → List (Nat × Node)
  | .rule head body after => (depth, .rule head body after) :: outlineNodes (depth + 1) body
  | .atBlock head body after =>
    (depth, .atBlock head body after) :: outlineNodes (depth + 1) body
  | .atStatement head semicolon => [(depth, .atStatement head semicolon)]
  | .declaration d => [(depth, .declaration d)]
  | .comment c => [(depth, .comment c)]

/-- All nodes in document order, each with its depth. -/
def outlineNodes (depth : Nat) : List Node → List (Nat × Node)
  | [] => []
  | n :: ns => n.outline depth ++ outlineNodes depth ns

end

end Sheet

/-- A stylesheet: its top-level nodes and the white space behind the last. -/
structure Sheet where
  nodes : List Sheet.Node
  after : String
  deriving Repr, Inhabited

namespace Sheet

def empty : Sheet := ⟨[], ""⟩

/-- The text of a sheet. -/
def print (s : Sheet) : String :=
  printNodes s.nodes ++ s.after

end Sheet
end StyleScope
