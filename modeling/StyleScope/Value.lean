/-
# Declaration values

A value is a sequence of nodes: words, strings, function calls, dividers,
spaces and comments. A word is a run of tokens with nothing between them; it
is the unit in which animation names and urls are replaced. Every node keeps
its text, so a value prints as it was read.

Key definitions: `Value.Node`, `Value.print`.
-/

namespace StyleScope
namespace Value

/-- A node of a value. `start` is the byte offset of its own text, behind the
white space of a divider. -/
inductive Node where
  | word (start : Nat) (text : String)
  /-- The text between the quotes; `unclosed` if the value ended before the
  second one. -/
  | string (start : Nat) (quote : Char) (text : String) (unclosed : Bool)
  /-- A call, or a group in parentheses if the name is empty. `before` and
  `after` are the white space inside the parentheses. -/
  | function (start : Nat) (name before : String) (arguments : List Node) (after : String)
      (unclosed : Bool)
  /-- A comma or a slash with the white space around it. -/
  | divider (start : Nat) (mark : Char) (before after : String)
  | space (start : Nat) (text : String)
  | comment (start : Nat) (text : String)
  deriving Repr, Inhabited

mutual

/-- The text of a node. -/
def Node.print : Node → String
  | .word _ text => text
  | .string _ quote text unclosed =>
    String.singleton quote ++ text ++ (if unclosed then "" else String.singleton quote)
  | .function _ name before arguments after unclosed =>
    name ++ "(" ++ before ++ print arguments ++ after ++ (if unclosed then "" else ")")
  | .divider _ mark before after => before ++ String.singleton mark ++ after
  | .space _ text => text
  | .comment _ text => text

/-- The text of a value. -/
def print : List Node → String
  | [] => ""
  | n :: ns => n.print ++ print ns

end

@[simp] theorem print_nil : print [] = "" := by simp [print]

@[simp] theorem print_cons (n : Node) (ns : List Node) :
    print (n :: ns) = n.print ++ print ns := by simp [print]

@[simp] theorem print_append (ns ms : List Node) : print (ns ++ ms) = print ns ++ print ms := by
  induction ns with
  | nil => simp
  | cons n ns ih => simp [ih, String.append_assoc]

namespace Node

/-- The byte offset of the node's own text. -/
def start : Node → Nat
  | word n _ | string n _ _ _ | function n _ _ _ _ _ | divider n _ _ _ | space n _
  | comment n _ => n

/-- The text of a word. -/
def word? : Node → Option String
  | word _ text => some text
  | _ => none

/-- The name of a call. -/
def functionName? : Node → Option String
  | function _ name _ _ _ _ => some name
  | _ => none

def isDivider : Node → Bool
  | divider _ _ _ _ => true
  | _ => false

end Node

mutual

/-- Whether a call has a divider among its arguments, at any depth. -/
def Node.holdsDivider : Node → Bool
  | .function _ _ _ arguments _ _ => anyDivider arguments
  | _ => false

/-- Whether a divider is among the nodes or inside them. -/
def anyDivider : List Node → Bool
  | [] => false
  | n :: ns => n.isDivider || n.holdsDivider || anyDivider ns

end

mutual

/-- The node and all below it in document order, each with its depth. -/
def Node.outline (depth : Nat) : Node → List (Nat × Node)
  | .function start name before arguments after unclosed =>
    (depth, .function start name before arguments after unclosed) :: outline (depth + 1) arguments
  | n => [(depth, n)]

/-- All nodes in document order, each with its depth. -/
def outline (depth : Nat) : List Node → List (Nat × Node)
  | [] => []
  | n :: ns => n.outline depth ++ outline depth ns

end

end Value
end StyleScope
