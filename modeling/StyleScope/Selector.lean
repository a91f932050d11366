/-
# Selectors

A selector list is a tree: the root holds the alternatives, an alternative
its simple selectors and combinators in order, and a pseudo-class with
arguments holds alternatives again. White space and comments are kept, either
around a node or as a descendant combinator, so a tree prints as it was read.

Key definitions: `Selector.Kind`, `Selector.Tree`, `Selector.Tree.print`.
-/

namespace StyleScope
namespace Selector

inductive Combinator where
  | descendant
  | child
  | nextSibling
  | subsequentSibling
  deriving DecidableEq, Repr, Inhabited

/-- What a node is. Names are kept as written, escapes included. -/
inductive Kind where
  /-- The selector list. -/
  | root
  /-- One alternative of a list. -/
  | selector
  /-- The text of a descendant combinator is the white space that forms it. -/
  | combinator (combinator : Combinator) (text : String)
  /-- A pseudo-class or pseudo-element, its colons included in the name. -/
  | pseudo (name : String) (hasArguments : Bool)
  | className (name : String)
  | idName (name : String)
  /-- A type selector, or any other text that is kept as it stands. -/
  | tag (text : String)
  | universal
  | attribute (text : String)
  | string (text : String)
  | nesting
  /-- A comment inside a compound, where white space would be a combinator. -/
  | comment (text : String)
  deriving DecidableEq, Repr, Inhabited

/-- The text around a node. -/
structure Spaces where
  before : String
  after : String
  deriving DecidableEq, Repr, Inhabited

def Spaces.none : Spaces := ⟨"", ""⟩

/-- A node with all below it. `start` is the byte offset of its own text. -/
inductive Tree where
  | node (kind : Kind) (spaces : Spaces) (start : Nat) (children : List Tree)
  deriving Repr, Inhabited

namespace Tree

def kind : Tree → Kind
  | node kind _ _ _ => kind

def spaces : Tree → Spaces
  | node _ spaces _ _ => spaces

def start : Tree → Nat
  | node _ _ start _ => start

def children : Tree → List Tree
  | node _ _ _ children => children

/-- A node without children. -/
def leaf (kind : Kind) (spaces : Spaces) (start : Nat) : Tree :=
  node kind spaces start []

def withSpaces (spaces : Spaces) : Tree → Tree
  | node kind _ start children => node kind spaces start children

/-- The tree with this text in front of it. -/
def setBefore (text : String) (t : Tree) : Tree :=
  t.withSpaces { t.spaces with before := text }

/-- The tree with this text behind it. -/
def setAfter (text : String) (t : Tree) : Tree :=
  t.withSpaces { t.spaces with after := text }

end Tree

/-- Whether the node is white space between two compounds. -/
def Kind.isSpacing : Kind → Bool
  | combinator .descendant _ => true
  | _ => false

def Tree.isSpacing (t : Tree) : Bool :=
  t.kind.isSpacing

/-- The text of a node that does not depend on its children. -/
def Kind.text : Kind → String
  | .root | .selector => ""
  | .combinator _ text => text
  | .pseudo name _ => name
  | .className name => "." ++ name
  | .idName name => "#" ++ name
  | .tag text | .attribute text | .string text | .comment text => text
  | .universal => "*"
  | .nesting => "&"

mutual

/-- The text of a tree. -/
def Tree.print : Tree → String
  | .node .root spaces _ children => spaces.before ++ printList children ++ spaces.after
  | .node .selector spaces _ children => spaces.before ++ printEach children ++ spaces.after
  | .node (.pseudo name true) spaces _ children =>
    spaces.before ++ name ++ "(" ++ printList children ++ ")" ++ spaces.after
  | .node kind spaces _ _ => spaces.before ++ kind.text ++ spaces.after

/-- The texts of the trees one after the other. -/
def printEach : List Tree → String
  | [] => ""
  | t :: ts => t.print ++ printEach ts

/-- The texts of the trees with a comma between two of them. -/
def printList : List Tree → String
  | [] => ""
  | t :: ts => t.print ++ printMore ts

/-- The texts of the trees with a comma in front of each. -/
def printMore : List Tree → String
  | [] => ""
  | t :: ts => "," ++ t.print ++ printMore ts

end

@[simp] theorem printEach_nil : printEach [] = "" := by simp [printEach]

@[simp] theorem printEach_cons (t : Tree) (ts : List Tree) :
    printEach (t :: ts) = t.print ++ printEach ts := by simp [printEach]

@[simp] theorem printMore_nil : printMore [] = "" := by simp [printMore]

@[simp] theorem printMore_cons (t : Tree) (ts : List Tree) :
    printMore (t :: ts) = "," ++ t.print ++ printMore ts := by simp [printMore]

@[simp] theorem printList_nil : printList [] = "" := by simp [printList]

@[simp] theorem printList_cons (t : Tree) (ts : List Tree) :
    printList (t :: ts) = t.print ++ printMore ts := by simp [printList]

@[simp] theorem printEach_append (ts us : List Tree) :
    printEach (ts ++ us) = printEach ts ++ printEach us := by
  induction ts with
  | nil => simp
  | cons t ts ih => simp [ih, String.append_assoc]

mutual

/-- The tree and all below it in document order, each with its depth. -/
def Tree.outline (depth : Nat) : Tree → List (Nat × Tree)
  | .node kind spaces start children =>
    (depth, .node kind spaces start children) :: outlineEach (depth + 1) children

/-- The trees and all below them in document order, each with its depth. -/
def outlineEach (depth : Nat) : List Tree → List (Nat × Tree)
  | [] => []
  | t :: ts => t.outline depth ++ outlineEach depth ts

end

end Selector
end StyleScope
