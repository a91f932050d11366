/-
# Reading selectors into an arena

The reader of selectors can keep its nodes in an arena, under numbers. An
alternative gets its number before its nodes do, and a pseudo-class before its
arguments; a node is attached when its place is known, an alternative to its
list as soon as it is read and the nodes of an alternative all at its end. Text
around a node is filled in later as well.

The arena is at all times the tree read so far, laid out in document order
behind what was there before, but for the alternative that is being read, whose
nodes are not attached (`Arena.opened`). So the reader into an arena gives what
the reader by position gives, laid out.

Key definitions: `Selector.alternativeInto`, `Selector.listInto`,
`Selector.arenaByPosition`.
Key theorems: `Selector.alternativeInto_eq`, `Selector.listInto_eq`,
`Selector.arenaByPosition_eq`.
-/
import StyleScope.Proofs.ArenaTrees
import StyleScope.Proofs.CheckedSelector

namespace StyleScope

/-! ### Results carried along -/

namespace Checked

variable {α β γ δ : Type}

/-- What has to be there, such as an entry that is changed. -/
def given : Option α → Checked α
  | some a => .ok a
  | none => crash .index

@[simp] theorem given_some (a : α) : given (some a) = .ok a := rfl

/-- Two sequences that differ in what is done with a result. -/
theorem bind_eq_map {x : Checked α} {f : α → Checked β} {f' : α → Checked γ} {g : β → γ}
    (h : ∀ a, x = .ok a → f' a = (f a).map g) : x >>= f' = (x >>= f).map g := by
  cases x with
  | error e => rfl
  | ok a => exact h a rfl

theorem bind_eq_map_of_eq_map {x : Checked α} {x' : Checked δ} {f : α → Checked β}
    {f' : δ → Checked γ} {g : β → γ} {i : α → δ} (hx : x' = x.map i)
    (h : ∀ a, f' (i a) = (f a).map g) : x' >>= f' = (x >>= f).map g := by
  subst hx
  cases x with
  | error e => rfl
  | ok a => exact h a

end Checked

namespace Selector

open Checked
open Token (Layout Mark)

/-! ### The reader -/

section Reader

variable (l : Layout)

/-- The pseudo-class whose arguments start here, read by `list` one level deeper
and attached to the number that `list` is given. -/
def callInto (limit : Nat) (list : Nat → Arena → Mark → Checked (Arena × Mark)) (name : String)
    (offset opened : Nat) (a : Arena) (m : Mark) : Checked (Nat × Arena × Mark) := do
  if limit < m.depth + 1 then refuse (.nestingTooDeep limit opened)
  else
    let pseudo := a.size
    let (a, m) ← list pseudo (a.push (.pseudo name true) .none offset) ⟨m.position, m.depth + 1⟩
    if (← l.kind m.position) = .rightParen then
      let p ← l.bump m.position
      return (pseudo, a, ⟨p, ← minus m.depth 1⟩)
    else refuse (.unclosedBracket '(' opened)

def pseudoInto (limit : Nat) (list : Nat → Arena → Mark → Checked (Arena × Mark)) (a : Arena)
    (m : Mark) : Checked (Nat × Arena × Mark) := do
  let offset ← l.offset m.position
  let p ← colonsEnd l m.position
  let colons ← l.between offset (← l.offset p)
  match ← l.kind p with
  | .ident =>
    let name ← l.text p
    return (a.size, a.push (.pseudo (colons ++ name) false) .none offset, ⟨← l.bump p, m.depth⟩)
  | .function =>
    let text ← l.text p
    if text.toList.getLast? = some '(' then
      let opened ← l.offset p
      let name ← slice text 0 (← minus text.utf8ByteSize 1)
      callInto l limit list (colons ++ name) offset opened a ⟨← l.bump p, m.depth⟩
    else return (a.size, a.push (.tag colons) .none offset, ⟨p, m.depth⟩)
  | _ => return (a.size, a.push (.tag colons) .none offset, ⟨p, m.depth⟩)

/-- Adds a simple selector, and tells its number. -/
def simpleInto (limit : Nat) (list : Nat → Arena → Mark → Checked (Arena × Mark)) (a : Arena)
    (m : Mark) : Checked (Nat × Arena × Mark) := do
  if (← l.kind m.position) = .colon then pseudoInto l limit list a m
  else
    let offset ← l.offset m.position
    let (kind, p) ← kindAt l m.position
    let t ← leafAt l kind offset p
    return (a.size, a.push t.kind t.spaces t.start, ⟨p, m.depth⟩)

/-- Ends the alternative `selector` with the white space and comments there, and
attaches its nodes, the last one first. -/
def endInto (selector : Nat) (trailing : String) (nodes : List Nat) (a : Arena) :
    Checked Arena := do
  let a ← given <| match nodes with
    | [] => a.modify? selector fun e => { e with spaces := { e.spaces with before := trailing } }
    | last :: _ =>
      a.modify? last fun e =>
        { e with spaces := { e.spaces with after := e.spaces.after ++ trailing } }
  given (a.setChildren? selector nodes.reverse)

/-- Adds the white space and comments behind a node as a node, and tells the
nodes there are then. -/
def triviaInto (trivia : String) (triviaStart : Nat) (hasWhitespace : Bool) (nodes : List Nat)
    (a : Arena) : List Nat × Arena :=
  if nodes.isEmpty ∨ trivia = "" then (nodes, a)
  else
    let kind := if hasWhitespace then .combinator .descendant trivia else .comment trivia
    (a.size :: nodes, a.push kind .none triviaStart)

/-- The alternative `selector` that goes on here behind `nodes`, the last one
first, and behind white space and comments; `next` reads what follows the next
node. -/
def nextInto (limit : Nat) (list : Nat → Arena → Mark → Checked (Arena × Mark))
    (next : List Nat → Arena → Mark → Checked (Arena × Mark)) (selector : Nat) (nodes : List Nat)
    (trivia : String) (triviaStart : Nat) (hasWhitespace : Bool) (a : Arena) (m : Mark) :
    Checked (Arena × Mark) := do
  let kind ← l.kind m.position
  if isEndKind kind then return (← endInto selector trivia nodes a, m)
  else
    match combinator? kind with
    | some c =>
      let offset ← l.offset m.position
      let text ← l.text m.position
      let p ← l.bump m.position
      let afterStart ← l.offset p
      let p ← l.skip Token.Kind.isTrivia p
      let after ← l.between afterStart (← l.offset p)
      next (a.size :: nodes) (a.push (.combinator c text) ⟨trivia, after⟩ offset) ⟨p, m.depth⟩
    | none =>
      let isFirst := nodes.isEmpty
      let (nodes, a) := triviaInto trivia triviaStart hasWhitespace nodes a
      let (node, a, m) ← simpleInto l limit list a m
      let a ←
        if isFirst then
          given (a.modify? node fun e => { e with spaces := { e.spaces with before := trivia } })
        else pure a
      next (node :: nodes) a m

/-- The alternative `selector` that goes on here behind `nodes`, the last one
first. -/
def alternativeInto (limit : Nat) (list : Nat → Arena → Mark → Checked (Arena × Mark))
    (selector : Nat) : Nat → List Nat → Arena → Mark → Checked (Arena × Mark)
  | 0, _, _, _ => crash .endless
  | n + 1, nodes, a, m => do
    let triviaStart ← l.offset m.position
    let (hasWhitespace, p) ← triviaFrom l l.rounds false m.position
    let trivia ← l.between triviaStart (← l.offset p)
    nextInto l limit list (alternativeInto limit list selector n) selector nodes trivia triviaStart
      hasWhitespace a ⟨p, m.depth⟩

/-- The alternatives that follow, read by `list`. -/
def othersInto (list : Arena → Mark → Checked (Arena × Mark)) (nested : Bool) (a : Arena)
    (m : Mark) : Checked (Arena × Mark) := do
  match ← l.kind m.position with
  | .comma => list a ⟨← l.bump m.position, m.depth⟩
  | .rightParen =>
    if nested then return (a, m)
    else refuse (.unexpectedCloseBracket ')' (← l.offset m.position))
  | _ => return (a, m)

/-- The alternatives from here on, attached to `parent` one by one. -/
def listInto (limit : Nat) : Nat → Bool → Nat → Arena → Mark → Checked (Arena × Mark)
  | 0, _, _, _, _ => crash .endless
  | n + 1, nested, parent, a, m => do
    let start ← l.offset m.position
    let selector := a.size
    let (a, m) ← alternativeInto l limit (listInto limit n true) selector l.rounds []
      (a.push .selector .none start) m
    let a ← given (a.appendChild? parent selector)
    othersInto l (listInto limit n nested parent) nested a m

end Reader

/-- Reads a selector list by position into an arena, from its characters on. -/
def arenaByPosition (limit : Nat) (source : String) : Checked Arena := do
  let l : Layout := ⟨source, ← Token.spansOf source⟩
  let (a, _) ← listInto l limit l.rounds false 0 .empty ⟨0, 0⟩
  return a

/-! ### An alternative that is being read -/

namespace Arena

/-- The arena while an alternative is read: it stands behind the entries of `b`,
and its nodes so far, the last one first, are not attached to it. -/
def opened (b : Arena) (spaces : Spaces) (start : Nat) (nodes : List Tree) : Arena :=
  ⟨b.entries ++ ⟨.selector, spaces, start, []⟩ :: layoutEach (b.size + 1) nodes.reverse⟩

/-- The numbers of the nodes, the last one first. -/
def openedNumbers (b : Arena) (nodes : List Tree) : List Nat :=
  (numbers (b.size + 1) nodes.reverse).reverse

theorem opened_nil (b : Arena) (spaces : Spaces) (start : Nat) :
    b.opened spaces start [] = b.push .selector spaces start := by
  simp [opened, push, layoutEach]

theorem size_opened (b : Arena) (spaces : Spaces) (start : Nat) (nodes : List Tree) :
    (b.opened spaces start nodes).size = b.size + 1 + sizeEach nodes.reverse := by
  simp only [opened, size, List.length_append, List.length_cons, length_layoutEach]
  omega

/-- The next node is laid out behind the ones before. -/
theorem graft_opened (b : Arena) (spaces : Spaces) (start : Nat) (nodes : List Tree) (t : Tree) :
    (b.opened spaces start nodes).graft t = b.opened spaces start (t :: nodes) := by
  rw [graft, size_opened]
  simp [opened, layoutEach_append, layoutEach]

theorem size_cons_openedNumbers (b : Arena) (spaces : Spaces) (start : Nat) (nodes : List Tree)
    (t : Tree) :
    (b.opened spaces start nodes).size :: b.openedNumbers nodes = b.openedNumbers (t :: nodes) := by
  simp [size_opened, openedNumbers, numbers_append, numbers]

theorem isEmpty_openedNumbers (b : Arena) (nodes : List Tree) :
    (b.openedNumbers nodes).isEmpty = nodes.isEmpty := by
  cases nodes with
  | nil => rfl
  | cons t ts => simp [openedNumbers, numbers_append, numbers]

theorem modify?_opened (b : Arena) (spaces : Spaces) (start : Nat) (nodes : List Tree)
    (f : Spaces → Spaces) :
    (b.opened spaces start nodes).modify? b.size (fun e => { e with spaces := f e.spaces }) =
      some (b.opened (f spaces) start nodes) := by
  rw [size, opened, modify?_eq _ _ _ _ rfl, opened]

/-- Attaching the nodes makes the alternative a tree. -/
theorem setChildren?_opened (b : Arena) (spaces : Spaces) (start : Nat) (nodes : List Tree) :
    (b.opened spaces start nodes).setChildren? b.size (b.openedNumbers nodes).reverse =
      some (b.graft (.node .selector spaces start nodes.reverse)) := by
  rw [setChildren?, size, opened, modify?_eq _ _ _ _ rfl, openedNumbers, List.reverse_reverse]
  simp [graft, layout, size]

/-- The text around the tree that was added last is changed where it stands. -/
theorem modify?_graft (a : Arena) (t : Tree) (f : Spaces → Spaces) :
    (a.graft t).modify? a.size (fun e => { e with spaces := f e.spaces }) =
      some (a.graft (t.withSpaces (f t.spaces))) := by
  obtain ⟨kind, spaces, start, ts⟩ := t
  rw [size, graft, layout, modify?_eq _ _ _ _ rfl, graft, Tree.withSpaces, layout]
  rfl

end Arena

/-! ### What the reader gives -/

section Eq

open Arena (graft_opened isEmpty_openedNumbers modify?_graft modify?_opened opened_nil push_eq_graft
  setChildren?_opened size_cons_openedNumbers)

variable {l : Layout} {limit : Nat} {list : Mark → Checked (List Tree × Mark)}
  {into : Nat → Arena → Mark → Checked (Arena × Mark)}

/-- The alternatives that `list` reads are those that `into` attaches to the last
tree of an arena, behind the ones it has. -/
def Attaches (list : Mark → Checked (List Tree × Mark))
    (into : Nat → Arena → Mark → Checked (Arena × Mark)) : Prop :=
  ∀ (b : Arena) (kind : Kind) (spaces : Spaces) (start : Nat) (ts : List Tree) (m : Mark),
    into b.size (b.graft (.node kind spaces start ts)) m =
      (list m).map fun r => (b.graft (.node kind spaces start (ts ++ r.1)), r.2)

theorem callInto_eq (h : Attaches list into) (name : String) (offset opened : Nat) (a : Arena)
    (m : Mark) :
    callInto l limit into name offset opened a m =
      (callAt l limit list name offset opened m).map fun r => (a.size, a.graft r.1, r.2) := by
  rw [callInto, callAt]
  split
  · rfl
  · rw [push_eq_graft]
    refine bind_eq_map_of_eq_map (h a (.pseudo name true) .none offset [] _) ?_
    rintro ⟨alternatives, m⟩
    refine bind_eq_map fun kind _ => ?_
    split
    · exact bind_eq_map fun p _ => bind_eq_map fun depth _ => rfl
    · rfl

theorem pseudoInto_eq (h : Attaches list into) (a : Arena) (m : Mark) :
    pseudoInto l limit into a m =
      (pseudoAt l limit list m).map fun r => (a.size, a.graft r.1, r.2) := by
  rw [pseudoInto, pseudoAt]
  refine bind_eq_map fun offset _ => bind_eq_map fun p _ => bind_eq_map fun stop _ =>
    bind_eq_map fun colons _ => bind_eq_map fun kind _ => ?_
  cases kind with
  | ident =>
    refine bind_eq_map fun name _ => bind_eq_map fun q _ => ?_
    rw [push_eq_graft]
    rfl
  | function =>
    refine bind_eq_map fun text _ => ?_
    split
    · exact bind_eq_map fun opened _ => bind_eq_map fun size _ => bind_eq_map fun name _ =>
        bind_eq_map fun q _ => callInto_eq h _ _ _ _ _
    · rw [push_eq_graft]
      rfl
  | _ =>
    rw [push_eq_graft]
    rfl

theorem children_of_leafAt {kind : Kind} {offset p : Nat} {t : Tree}
    (h : leafAt l kind offset p = .ok t) : t.children = [] := by
  obtain ⟨atEnd, -, h⟩ := bind_eq_ok.mp h
  cases kind with
  | className name | idName name =>
    dsimp only at h
    split at h
    · obtain ⟨parts, -, h⟩ := bind_eq_ok.mp h
      cases h
      rfl
    · cases h
      rfl
  | _ =>
    cases h
    rfl

theorem simpleInto_eq (h : Attaches list into) (a : Arena) (m : Mark) :
    simpleInto l limit into a m =
      (simpleAt l limit list m).map fun r => (a.size, a.graft r.1, r.2) := by
  rw [simpleInto, simpleAt]
  refine bind_eq_map fun kind _ => ?_
  split
  · exact pseudoInto_eq h a m
  · refine bind_eq_map fun offset _ => bind_eq_map fun r _ => bind_eq_map fun t ht => ?_
    obtain ⟨kind, spaces, start, ts⟩ := t
    have hts : ts = [] := children_of_leafAt ht
    rw [push_eq_graft, hts]
    rfl

theorem endInto_eq (b : Arena) (start : Nat) (trailing : String) (nodes : List Tree) :
    endInto b.size trailing (b.openedNumbers nodes) (b.opened .none start nodes) =
      .ok (b.graft (alternativeOf start trailing nodes)) := by
  cases nodes with
  | nil =>
    have hmodify := modify?_opened b .none start [] fun s => { s with before := trailing }
    have hchildren := setChildren?_opened b ⟨trailing, ""⟩ start []
    change (given ((b.opened .none start []).modify? b.size fun e =>
      { e with spaces := { e.spaces with before := trailing } }) >>= fun a =>
        given (a.setChildren? b.size [])) = _
    rw [hmodify]
    exact congrArg given hchildren
  | cons last front =>
    have hmodify := modify?_graft (b.opened .none start front) last fun s =>
      { s with after := s.after ++ trailing }
    have hchildren := setChildren?_opened b .none start
      (last.setAfter (last.spaces.after ++ trailing) :: front)
    rw [← size_cons_openedNumbers b .none start, endInto, ← graft_opened, hmodify,
      size_cons_openedNumbers b .none start, graft_opened]
    exact congrArg given hchildren

/-- White space and comments stand in front of the first node, and are a node
behind another. -/
theorem triviaInto_eq (b : Arena) (start : Nat) (trivia : String) (triviaStart : Nat)
    (hasWhitespace : Bool) (nodes : List Tree) :
    ∃ more, triviaInto trivia triviaStart hasWhitespace (b.openedNumbers nodes)
        (b.opened .none start nodes) =
      (b.openedNumbers (more ++ nodes), b.opened .none start (more ++ nodes)) ∧
      ∀ t, addSimple trivia triviaStart hasWhitespace t nodes =
        (if nodes.isEmpty then t.setBefore trivia else t) :: (more ++ nodes) := by
  rw [triviaInto, isEmpty_openedNumbers]
  cases nodes with
  | nil => exact ⟨[], rfl, fun t => rfl⟩
  | cons last front =>
    have hadd : ∀ t, addSimple trivia triviaStart hasWhitespace t (last :: front) =
        if trivia = "" then t :: last :: front
        else t :: .leaf (if hasWhitespace then .combinator .descendant trivia else .comment trivia)
          .none triviaStart :: last :: front := by
      intro t
      rw [addSimple]
      exact List.cons_ne_nil _ _
    simp only [hadd, List.isEmpty_cons, Bool.false_eq_true, false_or, if_false]
    by_cases htrivia : trivia = ""
    · refine ⟨[], if_pos htrivia, fun t => if_pos htrivia⟩
    · rw [if_neg htrivia, push_eq_graft, graft_opened, size_cons_openedNumbers]
      exact ⟨[_], rfl, fun t => if_neg htrivia⟩

variable {b : Arena} {start : Nat}

/-- The alternative goes on in the arena as it does without one, if what follows
the next node does. -/
theorem nextInto_eq (h : Attaches list into) {next : List Tree → Mark → Checked (Tree × Mark)}
    {nextInto' : List Nat → Arena → Mark → Checked (Arena × Mark)}
    (hnext : ∀ nodes m, nextInto' (b.openedNumbers nodes) (b.opened .none start nodes) m =
      (next nodes m).map fun r => (b.graft r.1, r.2))
    (nodes : List Tree) (trivia : String) (triviaStart : Nat) (hasWhitespace : Bool) (m : Mark) :
    nextInto l limit into nextInto' b.size (b.openedNumbers nodes) trivia triviaStart hasWhitespace
        (b.opened .none start nodes) m =
      (nextAt l limit list next start nodes trivia triviaStart hasWhitespace m).map fun r =>
        (b.graft r.1, r.2) := by
  rw [nextInto, nextAt]
  refine bind_eq_map fun kind _ => ?_
  split
  · rw [endInto_eq]
    rfl
  cases hc : combinator? kind with
  | some c =>
    refine bind_eq_map fun offset _ => bind_eq_map fun text _ => bind_eq_map fun p _ =>
      bind_eq_map fun afterStart _ => bind_eq_map fun q _ => bind_eq_map fun stop _ =>
      bind_eq_map fun after _ => ?_
    rw [push_eq_graft, graft_opened, size_cons_openedNumbers]
    exact hnext _ _
  | none =>
    obtain ⟨more, hinto, hadd⟩ := triviaInto_eq b start trivia triviaStart hasWhitespace nodes
    simp only [hinto]
    refine bind_eq_map_of_eq_map (simpleInto_eq h _ m) ?_
    rintro ⟨t, m⟩
    rw [hadd, isEmpty_openedNumbers]
    cases nodes.isEmpty with
    | true =>
      have hmodify := modify?_graft (b.opened .none start (more ++ nodes)) t fun s =>
        { s with before := trivia }
      simp only [if_true, hmodify, given_some, ok_bind]
      rw [graft_opened, size_cons_openedNumbers]
      exact hnext _ _
    | false =>
      simp only [Bool.false_eq_true, if_false, pure_eq_ok, ok_bind]
      rw [graft_opened, size_cons_openedNumbers]
      exact hnext _ _

theorem alternativeInto_eq (l : Layout) (limit : Nat) (h : Attaches list into) (b : Arena)
    (start n : Nat) (nodes : List Tree) (m : Mark) :
    alternativeInto l limit into b.size n (b.openedNumbers nodes) (b.opened .none start nodes) m =
      (alternativeFrom l limit list start n nodes m).map fun r => (b.graft r.1, r.2) := by
  induction n generalizing nodes m with
  | zero => rfl
  | succ n ih =>
    rw [alternativeInto, alternativeFrom]
    refine bind_eq_map fun triviaStart _ => bind_eq_map fun r _ => ?_
    obtain ⟨hasWhitespace, p⟩ := r
    exact bind_eq_map fun stop _ => bind_eq_map fun trivia _ => nextInto_eq h ih _ _ _ _ _

/-- A list is read into the arena as it is read without one. -/
theorem attaches_listInto (l : Layout) (limit n : Nat) (nested : Bool) :
    Attaches (listFrom l limit n nested) (listInto l limit n nested) := by
  induction n generalizing nested with
  | zero => exact fun _ _ _ _ _ _ => rfl
  | succ n ih =>
    intro b kind spaces start ts m
    rw [listInto, listFrom]
    refine bind_eq_map fun first _ => ?_
    have halternative := alternativeInto_eq l limit (ih true)
      (b.graft (.node kind spaces start ts)) first l.rounds [] m
    rw [opened_nil] at halternative
    refine bind_eq_map_of_eq_map halternative ?_
    rintro ⟨t, m⟩
    simp only [Arena.appendChild?_graft, given_some, ok_bind, othersInto, othersAt]
    refine bind_eq_map fun kind' _ => ?_
    cases kind' with
    | comma =>
      refine bind_eq_map fun p _ => ?_
      rw [ih nested]
      cases listFrom l limit n nested ⟨p, m.depth⟩ with
      | error e => rfl
      | ok r => simp [Except.map]
    | rightParen =>
      dsimp only
      split
      · rfl
      · exact bind_eq_map fun offset _ => rfl
    | _ => rfl

/-- **Reading a selector list into an arena gives the tree laid out in it.** -/
theorem arenaByPosition_eq (limit : Nat) (source : String) :
    arenaByPosition limit source =
      ((parseWithin limit source).map Arena.ofTree).mapError .refused := by
  have hmap : arenaByPosition limit source = (parseByPosition limit source).map Arena.ofTree := by
    rw [arenaByPosition, parseByPosition]
    refine bind_eq_map fun spans _ => ?_
    have hlist := attaches_listInto ⟨source, spans⟩ limit (Layout.rounds ⟨source, spans⟩) false
      ⟨[]⟩ .root .none 0 [] ⟨0, 0⟩
    exact bind_eq_map_of_eq_map hlist fun r => rfl
  rw [hmap, parseByPosition_eq]
  cases parseWithin limit source <;> rfl

end Eq

end Selector
end StyleScope
