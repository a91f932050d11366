/-
# Changing a stylesheet by place

A node of a sheet is named by the path of positions that leads to it through
the blocks. One text of the node is replaced; nothing is read anew, so
offsets and structure stay.

Key definitions: `Sheet.Field`, `Sheet.edit`.
-/
import StyleScope.Sheet

namespace StyleScope
namespace Sheet

/-- A text of a node. -/
inductive Field where
  | selector
  | before
  | params
  | name
  | prop
  | value
  | important
  | text
  /-- The values of all declarations directly in the block of the node. -/
  | declarations
  deriving DecidableEq, Repr

def Field.ofName? (name : String) : Option Field :=
  if name = "selector" then some .selector
  else if name = "before" then some .before
  else if name = "params" then some .params
  else if name = "name" then some .name
  else if name = "prop" then some .prop
  else if name = "value" then some .value
  else if name = "important" then some .important
  else if name = "text" then some .text
  else if name = "declarations" then some .declarations
  else none

/-- Why nothing was changed. -/
inductive EditError where
  /-- The path leads nowhere, or to a node without the block that is asked for. -/
  | noNode
  /-- The node has no such text. -/
  | noField
  deriving DecidableEq, Repr

/-- The nodes with this value in all declarations directly among them. -/
def setValues (text : String) (ns : List Node) : List Node :=
  ns.map fun n =>
    match n with
    | .declaration d => .declaration { d with value := text }
    | n => n

def AtHead.edit (field : Field) (text : String) (h : AtHead) : Except EditError AtHead :=
  match field with
  | .params => .ok { h with params := text }
  | .name => .ok { h with name := text }
  | _ => .error .noField

def Declaration.edit (field : Field) (text : String) (d : Declaration) :
    Except EditError Declaration :=
  match field with
  | .prop => .ok { d with prop := text }
  | .value => .ok { d with value := text }
  | .important => .ok { d with important := some text }
  | _ => .error .noField

/-- The node with one of its texts replaced. -/
def Node.edit (field : Field) (text : String) : Node → Except EditError Node
  | .rule head body after =>
    match field with
    | .selector => .ok (.rule { head with selector := text } body after)
    | .before => .ok (.rule { head with before := text } body after)
    | .declarations => .ok (.rule head (setValues text body) after)
    | _ => .error .noField
  | .atBlock head body after =>
    if field = .declarations then .ok (.atBlock head (setValues text body) after)
    else (head.edit field text).map fun head => .atBlock head body after
  | .atStatement head semicolon =>
    if field = .declarations then .error .noNode
    else (head.edit field text).map fun head => .atStatement head semicolon
  | .declaration d =>
    if field = .declarations then .error .noNode else (d.edit field text).map .declaration
  | .comment c =>
    match field with
    | .text => .ok (.comment { c with text := text })
    | .declarations => .error .noNode
    | _ => .error .noField

/-- The nodes with the one at the end of the path changed by `f`. -/
def editAt (f : Node → Except EditError Node) : List Nat → List Node → Except EditError (List Node)
  | [], _ => .error .noNode
  | [i], ns =>
    match ns[i]? with
    | some n => (f n).map fun n => ns.set i n
    | none => .error .noNode
  | i :: path, ns =>
    match ns[i]? with
    | some (.rule head body after) =>
      (editAt f path body).map fun body => ns.set i (.rule head body after)
    | some (.atBlock head body after) =>
      (editAt f path body).map fun body => ns.set i (.atBlock head body after)
    | _ => .error .noNode

/-- The sheet with a text of one node replaced. A `field` that no node has is
given as `none`. -/
def edit (path : List Nat) (field : Option Field) (text : String) (s : Sheet) :
    Except EditError Sheet :=
  let change (n : Node) : Except EditError Node :=
    match field with
    | some field => n.edit field text
    | none => .error .noField
  (editAt change path s.nodes).map fun nodes => { s with nodes }

end Sheet
end StyleScope
