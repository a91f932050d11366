/-
# Selector trees by number

A selector tree can be laid out as a numbered list of entries, each naming its
children by number; entry 0 is the root. Such an arena can be built and
changed entry by entry. It stands for a tree as long as every number reached
from the root has an entry and no entry reaches itself.

The entries of a tree are numbered in document order.

Key definitions: `Selector.Arena`, `Arena.ofTree`, `Arena.tree?`,
`Arena.graft`, `Arena.copyFrom?`.
-/
import StyleScope.Selector

namespace StyleScope
namespace Selector

/-! ### Laying out a tree -/

mutual

/-- The number of nodes in a tree. -/
def Tree.size : Tree → Nat
  | .node _ _ _ children => 1 + sizeEach children

/-- The number of nodes in all the trees. -/
def sizeEach : List Tree → Nat
  | [] => 0
  | t :: ts => t.size + sizeEach ts

end

namespace Arena

/-- A node that names its children by number. -/
structure Entry where
  kind : Kind
  spaces : Spaces
  start : Nat
  children : List Nat
  deriving DecidableEq, Repr, Inhabited

/-- The numbers of trees that are laid out one after the other from `base` on. -/
def numbers (base : Nat) : List Tree → List Nat
  | [] => []
  | t :: ts => base :: numbers (base + t.size) ts

mutual

/-- The entries of a tree whose root gets the number `base`, in document order. -/
def layout (base : Nat) : Tree → List Entry
  | .node kind spaces start children =>
    ⟨kind, spaces, start, numbers (base + 1) children⟩ :: layoutEach (base + 1) children

/-- The entries of trees laid out one after the other from `base` on. -/
def layoutEach (base : Nat) : List Tree → List Entry
  | [] => []
  | t :: ts => layout base t ++ layoutEach (base + t.size) ts

end

end Arena

/-- A numbered list of entries. -/
structure Arena where
  entries : List Arena.Entry
  deriving DecidableEq, Repr, Inhabited

namespace Arena

/-- An arena that holds an empty root only. -/
def empty : Arena :=
  ⟨[⟨.root, .none, 0, []⟩]⟩

def ofTree (t : Tree) : Arena :=
  ⟨layout 0 t⟩

def size (a : Arena) : Nat :=
  a.entries.length

def isEmpty (a : Arena) : Bool :=
  a.entries.isEmpty

def get? (a : Arena) (id : Nat) : Option Entry :=
  a.entries[id]?

/-! ### Changing an arena -/

/-- Adds an entry without children. Its number is the size of the arena. -/
def push (a : Arena) (kind : Kind) (spaces : Spaces) (start : Nat) : Arena :=
  ⟨a.entries ++ [⟨kind, spaces, start, []⟩]⟩

/-- Changes the entry with this number, if there is one. -/
def modify? (a : Arena) (id : Nat) (f : Entry → Entry) : Option Arena :=
  (a.get? id).map fun e => ⟨a.entries.set id (f e)⟩

/-- Adds a child behind the others. -/
def appendChild? (a : Arena) (parent child : Nat) : Option Arena :=
  a.modify? parent fun e => { e with children := e.children ++ [child] }

def setChildren? (a : Arena) (parent : Nat) (children : List Nat) : Option Arena :=
  a.modify? parent fun e => { e with children := children }

def setSpaces? (a : Arena) (id : Nat) (spaces : Spaces) : Option Arena :=
  a.modify? id fun e => { e with spaces := spaces }

/-- Adds all nodes of a tree. The number of its root is the size of the arena. -/
def graft (a : Arena) (t : Tree) : Arena :=
  ⟨a.entries ++ layout a.size t⟩

/-! ### Looking into an arena -/

/-- The children of an entry; none if it does not exist. -/
def children (a : Arena) (id : Nat) : List Nat :=
  ((a.get? id).map Entry.children).getD []

/-- The alternatives of the selector list. -/
def selectors (a : Arena) : List Nat :=
  a.children 0

def isSpacing (a : Arena) (id : Nat) : Bool :=
  (a.get? id).any fun e => e.kind.isSpacing

/-- The children whose texts are part of the entry's own text. -/
def Entry.shown (e : Entry) : List Nat :=
  match e.kind with
  | .root | .selector | .pseudo _ true => e.children
  | _ => []

/-- The tree below an entry, as far as `fuel` levels of entries show it, where
`below` gives the numbers to follow from an entry. -/
def treeWithin (a : Arena) (below : Entry → List Nat) : Nat → Nat → Option Tree
  | 0, _ => none
  | fuel + 1, id => do
    let e ← a.get? id
    let children ← (below e).mapM (a.treeWithin below fuel)
    return .node e.kind e.spaces e.start children

/-- The tree below an entry. A tree has at most as many levels as there are
entries, so there is none only if a number without an entry is reached or an
entry reaches itself. -/
def tree? (a : Arena) (id : Nat) : Option Tree :=
  a.treeWithin Entry.children a.size id

/-- The text of the tree below an entry. Only the children that it shows have
to exist. -/
def print? (a : Arena) (id : Nat) : Option String :=
  (a.treeWithin Entry.shown a.size id).map Tree.print

/-! ### Copying entries -/

/-- Copies an entry of `source` and all below it behind the entries of `a`, as
far as `fuel` levels of entries show it, and tells the number of the copy. A
child is copied and then attached, one after the other. -/
def copyWithin (source : Arena) : Nat → Nat → Arena → Option (Nat × Arena)
  | 0, _, _ => none
  | fuel + 1, id, a => do
    let e ← source.get? id
    let copy := a.size
    let attach (a : Arena) (child : Nat) : Option Arena := do
      let (childCopy, a) ← source.copyWithin fuel child a
      a.appendChild? copy childCopy
    let a ← e.children.foldlM attach (a.push e.kind e.spaces e.start)
    return (copy, a)

/-- Copies an entry of `source` and all below it, and tells the number of the
copy. -/
def copyFrom? (a source : Arena) (id : Nat) : Option (Nat × Arena) :=
  source.copyWithin source.size id a

end Arena
end Selector
end StyleScope
