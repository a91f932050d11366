/-
# The effective scope of a name

The walk that resolves a selector list carries the scope in force from node
to node. Here the scope of a class or id is said without the walk, from the
place where the name stands (`Position.scope`):

* the narrow keyword around it chooses its scope;
* else the last broad keyword in front of it in its own alternative does;
* else, in an argument of another pseudo-class, it has the scope of the place
  where the pseudo-class stands, except that the choice between local and
  global is the one with which the argument before ended;
* else it has the scope of the mode.

A scope that a keyword chose is explicit. A resolved list has the names of
the list that was read, in the same order, and marked are those in local
scope that are not imported or whose scope is explicit
(`resolve_marks_effective_scope`). The walk is tied to the places by one
invariant: the standing that it carries is the standing of the place it has
reached (`Position.standing`).

Key definitions: `Scope.namesOf`, `Scope.marksOf`, `Scope.Position.scope`,
`Scope.occurrences`.
Key theorems: `Scope.tracks_of_isSimple`, `Scope.resolve_marks_effective_scope`.
-/
import StyleScope.Proofs.ResolveStep
import StyleScope.Proofs.SelectorRead

namespace StyleScope
namespace Scope

open Selector (Tree Spaces Name)

/-! ### Names and their marks -/

/-- Whether the names below a node of this kind belong to other sheets. -/
def isForeign : Selector.Kind → Bool
  | .pseudo name _ => isExchange name
  | _ => false

mutual

/-- The classes and ids outside of exchanges, in document order. -/
def namesOf : Tree → List Name
  | .node kind _ _ children =>
    if isForeign kind then [] else kind.name?.toList ++ namesEach children

def namesEach : List Tree → List Name
  | [] => []
  | t :: ts => namesOf t ++ namesEach ts

end

/-- The class or id that a node of this kind with these children marks as
local. A mark holds one name and nothing else. -/
def markedName? : Selector.Kind → List Tree → Option Name
  | .pseudo name true, [.node .selector _ _ [.node kind _ _ []]] =>
    if name = Keyword.localScope.text then kind.name? else none
  | _, _ => none

mutual

/-- The classes and ids outside of exchanges, in document order, each with
whether it has a mark of its own. -/
def marksOf : Tree → List (Name × Bool)
  | .node kind _ _ children =>
    match markedName? kind children with
    | some name => [(name, true)]
    | none =>
      if isForeign kind then []
      else kind.name?.toList.map (fun name => (name, false)) ++ marksEach children

def marksEach : List Tree → List (Name × Bool)
  | [] => []
  | t :: ts => marksOf t ++ marksEach ts

end

/-! ### Places -/

/-- Where a node of a selector list stands: behind the nodes `before` of an
alternative. The alternative is one of the list, or it is the argument behind
the arguments `earlier` of a pseudo-class that stands at the place `outer`. -/
inductive Position where
  | top (before : List Tree)
  | within (outer : Position) (name : String) (earlier before : List Tree)

namespace Position

/-- The nodes in front of the place in its own alternative. -/
def before : Position → List Tree
  | top before => before
  | within _ _ _ before => before

/-- The place further on in the same alternative, behind these nodes. -/
def past (ts : List Tree) : Position → Position
  | top before => top (before ++ ts)
  | within outer name earlier before => within outer name earlier (before ++ ts)

end Position

/-- The broad keyword that a node is. -/
def broad? : Tree → Option Keyword
  | .node (.pseudo name false) _ _ _ => Keyword.ofPseudo? name
  | _ => none

def lastBroad? (ts : List Tree) : Option Keyword :=
  (ts.filterMap broad?).getLast?

/-- Whether an argument ends in global scope, given how it starts. -/
def endsGlobal (startsGlobal : Bool) (argument : Tree) : Bool :=
  ((lastBroad? argument.children).map Keyword.isGlobal).getD startsGlobal

/-- The scope of a name. It is explicit if a keyword chose it. -/
structure Effective where
  isGlobal : Bool
  isExplicit : Bool
  deriving DecidableEq, Repr

namespace Position

/-- The narrow keyword around the place. -/
def narrow? : Position → Option Keyword
  | top _ => none
  | within outer name _ _ => (Keyword.ofPseudo? name).or outer.narrow?

/-- The keyword that chooses the scope of the place: the narrow keyword around
it, or else the last broad keyword in front of it. -/
def keyword? (p : Position) : Option Keyword :=
  p.narrow?.or (lastBroad? p.before)

/-- The scope at the place, in a mode whose unmarked names are global or not. -/
def scope (isGlobal : Bool) : Position → Effective
  | top before =>
    match (top before).keyword? with
    | some keyword => ⟨keyword.isGlobal, true⟩
    | none => ⟨isGlobal, false⟩
  | within outer name earlier before =>
    match (within outer name earlier before).keyword? with
    | some keyword => ⟨keyword.isGlobal, true⟩
    | none =>
      { outer.scope isGlobal with
        isGlobal := earlier.foldl endsGlobal (outer.scope isGlobal).isGlobal }

/-- Whether a name that stands at the place is marked. -/
def marks (ctx : Context) (isGlobal : Bool) (p : Position) (text : String) : Bool :=
  marksName ctx text (p.scope isGlobal).isGlobal (p.scope isGlobal).isExplicit

end Position

/-! ### The places of names -/

mutual

/-- The classes and ids of a node at the place `p`, each with its own place. -/
def occurrencesOf (p : Position) : Tree → List (Name × Position)
  | .node (.pseudo name _) _ _ arguments =>
    if isExchange name then [] else occurrencesIn p name [] arguments
  | .node kind _ _ _ => kind.name?.toList.map fun name => (name, p)

/-- Those of nodes that follow one another. -/
def occurrencesAlong (p : Position) : List Tree → List (Name × Position)
  | [] => []
  | t :: ts => occurrencesOf p t ++ occurrencesAlong (p.past [t]) ts

/-- Those of the arguments behind the arguments `earlier`. -/
def occurrencesIn (p : Position) (name : String) (earlier : List Tree) :
    List Tree → List (Name × Position)
  | [] => []
  | .node kind spaces start children :: ts =>
    occurrencesAlong (.within p name earlier []) children ++
      occurrencesIn p name (earlier ++ [.node kind spaces start children]) ts

end

theorem occurrencesIn_cons (p : Position) (name : String) (earlier : List Tree) (a : Tree)
    (ts : List Tree) :
    occurrencesIn p name earlier (a :: ts) =
      occurrencesAlong (.within p name earlier []) a.children ++
        occurrencesIn p name (earlier ++ [a]) ts := by
  obtain ⟨kind, spaces, start, children⟩ := a
  rw [occurrencesIn]
  rfl

/-- A node without children has at most its own name. -/
theorem occurrencesOf_leaf (p : Position) (kind : Selector.Kind) (spaces : Spaces) (start : Nat) :
    occurrencesOf p (.leaf kind spaces start) = kind.name?.toList.map fun name => (name, p) := by
  cases kind with
  | pseudo name hasArguments =>
    rw [Tree.leaf, occurrencesOf, occurrencesIn, ite_self]
    rfl
  | _ => rfl

/-- The classes and ids of a selector list, each with its place. -/
def occurrences (t : Tree) : List (Name × Position) :=
  t.children.flatMap fun alternative => occurrencesAlong (.top []) alternative.children

/-! ### Reading marks -/

theorem isForeign_of_name? {kind : Selector.Kind} {name : Name} (h : kind.name? = some name) :
    isForeign kind = false := by
  cases kind with
  | pseudo _ _ => cases h
  | _ => rfl

/-- A keyword exchanges nothing. -/
theorem not_isExchange_of_keyword {name : String} {keyword : Keyword}
    (h : Keyword.ofPseudo? name = some keyword) : isExchange name = false := by
  have hlower : Text.lower name = ":local" ∨ Text.lower name = ":global" := by
    unfold Keyword.ofPseudo? at h
    split at h
    next hl => exact .inl (of_decide_eq_true hl)
    next =>
      split at h
      next hg => exact .inr (of_decide_eq_true hg)
      next => cases h
  rcases hlower with hl | hg
  · simp only [isExchange, Text.sameWord, hl]
    decide
  · simp only [isExchange, Text.sameWord, hg]
    decide

theorem namesOf_of_markedName? {kind : Selector.Kind} {children : List Tree} {name : Name}
    (h : markedName? kind children = some name) (spaces : Spaces) (start : Nat) :
    namesOf (.node kind spaces start children) = [name] := by
  unfold markedName? at h
  split at h
  next text _ _ kind _ _ =>
    split at h
    next hl =>
      have hmark : isForeign (.pseudo text true) = false := by
        rw [hl]
        decide
      have hlist : isForeign .selector = false := rfl
      simp only [namesOf, namesEach, hmark, hlist, isForeign_of_name? h, h]
      rfl
    next => cases h
  next => cases h

mutual

/-- Marks are read off names. -/
theorem fst_marksOf : ∀ t : Tree, (marksOf t).map Prod.fst = namesOf t
  | .node kind spaces start children => by
    unfold marksOf
    split
    next name h => rw [namesOf_of_markedName? h]; rfl
    next =>
      unfold namesOf
      split
      next => rfl
      next => simp [fst_marksEach children, Function.comp_def]

theorem fst_marksEach : ∀ ts : List Tree, (marksEach ts).map Prod.fst = namesEach ts
  | [] => by simp [marksEach, namesEach]
  | t :: ts => by simp [marksEach, namesEach, fst_marksOf t, fst_marksEach ts]

end

theorem marksEach_nil : marksEach [] = [] := by
  unfold marksEach
  rfl

theorem marksEach_append (ts us : List Tree) :
    marksEach (ts ++ us) = marksEach ts ++ marksEach us := by
  induction ts with
  | nil => rw [marksEach_nil]; rfl
  | cons t ts ih => simp [marksEach, ih]

theorem marksEach_eq_nil {ts : List Tree} (h : ∀ t ∈ ts, marksOf t = []) : marksEach ts = [] := by
  induction ts with
  | nil => exact marksEach_nil
  | cons t ts ih =>
    rw [marksEach, h t List.mem_cons_self, ih fun u hu => h u (List.mem_cons_of_mem t hu)]
    rfl

theorem name?_of_isSpacing {kind : Selector.Kind} (h : kind.isSpacing) : kind.name? = none := by
  cases kind with
  | combinator _ _ => rfl
  | _ => cases h

theorem marksOf_withSpaces (spaces : Spaces) (t : Tree) :
    marksOf (t.withSpaces spaces) = marksOf t := by
  obtain ⟨kind, _, start, children⟩ := t
  simp only [Tree.withSpaces, marksOf]

/-- A node without children has at most its own name, and no mark. -/
theorem marksOf_leaf (kind : Selector.Kind) (spaces : Spaces) (start : Nat) :
    marksOf (.leaf kind spaces start) = kind.name?.toList.map fun name => (name, false) := by
  have hmark : markedName? kind [] = none := by
    unfold markedName?
    split
    next h => cases h
    next => rfl
  simp only [Tree.leaf, marksOf, hmark, marksEach_nil, List.append_nil]
  split
  next hf =>
    cases hn : kind.name? with
    | none => rfl
    | some name => rw [isForeign_of_name? hn] at hf; cases hf
  next => rfl

theorem marksOf_markLocal {kind : Selector.Kind} {name : Name} (h : kind.name? = some name)
    (spaces : Spaces) (start : Nat) : marksOf (markLocal kind spaces start) = [(name, true)] := by
  have hmark : markedName? (.pseudo Keyword.localScope.text true)
      [.node .selector .none start [.leaf kind .none start]] = some name := by
    rw [← h]
    simp only [Tree.leaf, markedName?, if_true]
  simp only [markLocal, marksOf, hmark]

/-- Only a keyword marks. -/
theorem markedName?_eq_none {name : String} (hk : Keyword.ofPseudo? name = none)
    (hasArguments : Bool) (children : List Tree) :
    markedName? (.pseudo name hasArguments) children = none := by
  have hne : name ≠ Keyword.localScope.text := by
    rintro rfl
    exact absurd hk (by decide)
  unfold markedName?
  split
  next h => cases h; exact if_neg hne
  next => rfl

theorem marksOf_pseudo {name : String} (hk : Keyword.ofPseudo? name = none)
    (hx : isExchange name = false) (spaces : Spaces) (start : Nat) (arguments : List Tree) :
    marksOf (.node (.pseudo name true) spaces start arguments) = marksEach arguments := by
  have hf : isForeign (.pseudo name true) = false := hx
  simp only [marksOf, markedName?_eq_none hk, hf]
  rfl

theorem marksOf_exchange {name : String} (hk : Keyword.ofPseudo? name = none)
    (hx : isExchange name) (hasArguments : Bool) (spaces : Spaces) (start : Nat)
    (children : List Tree) :
    marksOf (.node (.pseudo name hasArguments) spaces start children) = [] := by
  have hf : isForeign (.pseudo name hasArguments) = true := hx
  simp only [marksOf, markedName?_eq_none hk, hf, if_true]

/-! ### Nodes that show marks -/

/-- The nodes are in order, and these are their names with their marks. -/
structure Shows (nodes : List Tree) (marks : List (Name × Bool)) : Prop where
  isSimple : ∀ t ∈ nodes, t.IsSimple
  marksEach_eq : marksEach nodes = marks

namespace Shows

variable {nodes nodes' : List Tree} {marks marks' : List (Name × Bool)}

theorem nil : Shows [] [] :=
  ⟨by simp, marksEach_nil⟩

theorem single {t : Tree} (ht : t.IsSimple) (h : marksOf t = marks) : Shows [t] marks := by
  refine ⟨fun u hu => List.mem_singleton.mp hu ▸ ht, ?_⟩
  rw [marksEach, marksEach_nil, List.append_nil, h]

theorem append (h : Shows nodes marks) (h' : Shows nodes' marks') :
    Shows (nodes ++ nodes') (marks ++ marks') := by
  refine ⟨fun t ht => ?_, ?_⟩
  · rcases List.mem_append.mp ht with ht | ht
    · exact h.isSimple t ht
    · exact h'.isSimple t ht
  · rw [marksEach_append, h.marksEach_eq, h'.marksEach_eq]

/-- The text around a node is no part of a name. -/
theorem withSpaces {us vs : List Tree} {t : Tree} (h : Shows (us ++ t :: vs) marks)
    (spaces : Spaces) : Shows (us ++ t.withSpaces spaces :: vs) marks := by
  obtain ⟨hsimple, hmarks⟩ := h
  refine ⟨fun u hu => ?_, ?_⟩
  · rcases List.mem_append.mp hu with hu | hu
    · exact hsimple u (List.mem_append_left _ hu)
    · rcases List.mem_cons.mp hu with rfl | hu
      · exact (hsimple t (by simp)).withSpaces spaces
      · exact hsimple u (by simp [hu])
  · rw [← hmarks, marksEach_append, marksEach_append, marksEach, marksEach, marksOf_withSpaces]

theorem surround (h : Shows nodes marks) (spaces : Spaces) :
    Shows (Scope.surround spaces nodes) marks :=
  surround_of_withSpaces (P := (Shows · marks)) (fun _ _ _ spaces h => withSpaces h spaces) spaces h

/-- White space has no name, so none is lost with it. -/
theorem trimSpacing (h : Shows nodes marks) : Shows (Scope.trimSpacing nodes) marks := by
  obtain ⟨blanks, hsplit, hblanks⟩ := exists_eq_trimSpacing_append nodes
  have hsimple : ∀ t ∈ Scope.trimSpacing nodes ++ blanks, t.IsSimple := hsplit ▸ h.isSimple
  have hspace : ∀ t ∈ blanks, marksOf t = [] := by
    intro t ht
    have hs := hblanks t ht
    cases hsimple t (List.mem_append_right _ ht) with
    | @leaf kind spaces start _ =>
      have hn : kind.name? = none := name?_of_isSpacing hs
      rw [marksOf_leaf, hn]
      rfl
    | call => cases hs
  refine ⟨fun t ht => hsimple t (List.mem_append_left _ ht), ?_⟩
  have hmarks := h.marksEach_eq
  rwa [hsplit, marksEach_append, marksEach_eq_nil hspace, List.append_nil] at hmarks

end Shows

/-- The trees are alternatives in order, and these are their names with their
marks. -/
structure ShowsList (alternatives : List Tree) (marks : List (Name × Bool)) : Prop where
  isAlternative : ∀ a ∈ alternatives, a.IsAlternative
  marksEach_eq : marksEach alternatives = marks

theorem ShowsList.nil : ShowsList [] [] :=
  ⟨by simp, marksEach_nil⟩

theorem ShowsList.cons {alternatives nodes : List Tree} {marks marks' : List (Name × Bool)}
    (h : ShowsList alternatives marks') (hn : Shows nodes marks) (spaces : Spaces) (start : Nat) :
    ShowsList (.node .selector spaces start nodes :: alternatives) (marks ++ marks') := by
  refine ⟨fun a ha => ?_, ?_⟩
  · rcases List.mem_cons.mp ha with rfl | ha
    · exact ⟨rfl, hn.isSimple⟩
    · exact h.isAlternative a ha
  · have hmarks : marksOf (.node .selector spaces start nodes) = marksEach nodes := by
      rw [marksOf]
      rfl
    rw [marksEach, hmarks, hn.marksEach_eq, h.marksEach_eq]

/-! ### The standing of a place -/

/-- The last broad keyword is the node at the end, if that is one. -/
theorem lastBroad?_append (ts : List Tree) (t : Tree) :
    lastBroad? (ts ++ [t]) = (broad? t).or (lastBroad? ts) := by
  unfold lastBroad?
  rw [List.filterMap_append]
  cases h : broad? t with
  | none => simp [h]
  | some keyword => simp [h]

namespace Position

variable (isGlobal : Bool)

/-- The standing of a walk that has reached the place. -/
def standing (p : Position) : Standing :=
  ⟨(p.scope isGlobal).isGlobal, (p.scope isGlobal).isExplicit, p.narrow?⟩

theorem past_nil (p : Position) : p.past [] = p := by
  cases p <;> simp [past]

theorem past_past (p : Position) (ts us : List Tree) :
    (p.past ts).past us = p.past (ts ++ us) := by
  cases p <;> simp [past]

theorem before_past (p : Position) (ts : List Tree) : (p.past ts).before = p.before ++ ts := by
  cases p <;> rfl

theorem narrow?_past (p : Position) (ts : List Tree) : (p.past ts).narrow? = p.narrow? := by
  cases p <;> rfl

theorem scope_of_keyword? {p : Position} {keyword : Keyword} (h : p.keyword? = some keyword) :
    p.scope isGlobal = ⟨keyword.isGlobal, true⟩ := by
  cases p <;> rw [scope, h]

/-- A narrow keyword around the place decides everything. -/
theorem standing_of_narrow? {p : Position} {keyword : Keyword} (h : p.narrow? = some keyword) :
    p.standing isGlobal = ⟨keyword.isGlobal, true, some keyword⟩ := by
  have hk : p.keyword? = some keyword := by rw [keyword?, h, Option.some_or]
  rw [standing, scope_of_keyword? isGlobal hk, h]

/-- Only a broad keyword changes the standing. -/
theorem standing_past {p : Position} {t : Tree} (h : broad? t = none) :
    (p.past [t]).standing isGlobal = p.standing isGlobal := by
  have hk : (p.past [t]).keyword? = p.keyword? := by
    rw [keyword?, keyword?, narrow?_past, before_past, lastBroad?_append, h, Option.none_or]
  have hscope : (p.past [t]).scope isGlobal = p.scope isGlobal := by
    cases p with
    | top before =>
      rw [past] at hk ⊢
      rw [scope, scope, hk]
    | within outer name earlier before =>
      rw [past] at hk ⊢
      rw [scope, scope, hk]
  rw [standing, standing, hscope, narrow?_past]

theorem standing_past_broad {p : Position} {t : Tree} {keyword : Keyword}
    (h : broad? t = some keyword) (hn : p.narrow? = none) :
    (p.past [t]).standing isGlobal = ⟨keyword.isGlobal, true, none⟩ := by
  have hk : (p.past [t]).keyword? = some keyword := by
    rw [keyword?, narrow?_past, hn, before_past, lastBroad?_append, h, Option.none_or,
      Option.some_or]
  rw [standing, scope_of_keyword? isGlobal hk, narrow?_past, hn]

theorem standing_top : (top []).standing isGlobal = ⟨isGlobal, false, none⟩ := rfl

/-- The arguments of a narrow keyword start in its scope. -/
theorem standing_narrow {name : String} {keyword : Keyword}
    (hk : Keyword.ofPseudo? name = some keyword) (p : Position) :
    (within p name [] []).standing isGlobal = ⟨keyword.isGlobal, true, some keyword⟩ := by
  apply standing_of_narrow?
  rw [narrow?, hk, Option.some_or]

/-- The arguments of another pseudo-class start in the scope around it. -/
theorem standing_within {name : String} (hk : Keyword.ofPseudo? name = none) (p : Position) :
    (within p name [] []).standing isGlobal = p.standing isGlobal := by
  have hnarrow : (within p name [] []).narrow? = p.narrow? := by
    rw [narrow?, hk, Option.none_or]
  cases hn : p.narrow? with
  | some keyword =>
    rw [standing_of_narrow? isGlobal hn, standing_of_narrow? isGlobal (hnarrow.trans hn)]
  | none =>
    have hkeyword : (within p name [] []).keyword? = none := by
      rw [keyword?, hnarrow, hn]
      rfl
    rw [standing, scope, hkeyword, hnarrow]
    rfl

/-- The next argument starts with the choice that the one before ended with. -/
theorem standing_next {p : Position} {name : String} {earlier : List Tree} {a : Tree}
    {standing standing' : Standing}
    (hs : standing = (within p name earlier []).standing isGlobal)
    (hs' : standing' = (within p name earlier a.children).standing isGlobal) :
    { standing with isGlobal := standing'.isGlobal } =
      (within p name (earlier ++ [a]) []).standing isGlobal := by
  subst hs hs'
  cases hn : (within p name earlier []).narrow? with
  | some keyword =>
    have hend : (within p name earlier a.children).narrow? = some keyword := hn
    have hnext : (within p name (earlier ++ [a]) []).narrow? = some keyword := hn
    rw [standing_of_narrow? isGlobal hn, standing_of_narrow? isGlobal hend,
      standing_of_narrow? isGlobal hnext]
  | none =>
    -- no keyword reaches the start of an argument, so its scope is inherited
    have hstart : (within p name earlier []).keyword? = none := by
      rw [keyword?, hn]
      rfl
    have hnext : (within p name (earlier ++ [a]) []).keyword? = none := hstart
    have hend : (within p name earlier a.children).keyword? = lastBroad? a.children := by
      rw [keyword?, show (within p name earlier a.children).narrow? = none from hn]
      rfl
    simp only [standing, scope, hstart, hnext, hend, List.foldl_append, List.foldl_cons,
      List.foldl_nil, endsGlobal]
    cases lastBroad? a.children with
    | none => rfl
    | some keyword => rfl

end Position

/-! ### The walk and the places -/

section Walks

variable {ctx : Context} {isGlobal : Bool}

/-- The names with the marks that they get at their places. -/
def marksAt (ctx : Context) (isGlobal : Bool) (names : List (Name × Position)) :
    List (Name × Bool) :=
  names.map fun (name, p) => (name, p.marks ctx isGlobal name.text)

theorem marksAt_append (names names' : List (Name × Position)) :
    marksAt ctx isGlobal (names ++ names') =
      marksAt ctx isGlobal names ++ marksAt ctx isGlobal names' :=
  List.map_append

/-- A step leads from the standing of a place to that of the place behind the
node. -/
theorem standing_of_step {p : Position} {w w' : Walk} {t : Tree} {nodes : List Tree}
    (hw : w.standing = p.standing isGlobal) (h : Step ctx w t nodes w') :
    w'.standing = (p.past [t]).standing isGlobal := by
  have hkept (hb : broad? t = none) (hs : w'.standing = w.standing) :
      w'.standing = (p.past [t]).standing isGlobal := by
    rw [hs, hw, Position.standing_past isGlobal hb]
  cases h with
  | @broad name spaces start children keyword _ hk hi =>
    have hb : broad? (.node (.pseudo name false) spaces start children) = some keyword := hk
    have hn : p.narrow? = none := by
      rw [hw] at hi
      exact hi
    rw [Position.standing_past_broad isGlobal hb hn]
    exact congrArg (Standing.mk keyword.isGlobal true) hi
  | @exchange name hasArguments spaces start children _ hk _ =>
    refine hkept ?_ rfl
    cases hasArguments with
    | true => rfl
    | false => exact hk
  | @name kind _ spaces start children _ hn _ =>
    refine hkept ?_ rfl
    cases kind with
    | pseudo _ _ => cases hn
    | _ => rfl
  | @keep kind spaces start children _ _ _ hk _ =>
    refine hkept ?_ rfl
    cases kind with
    | pseudo name hasArguments =>
      obtain ⟨rfl, hnone, -⟩ := hk name hasArguments rfl
      exact hnone
    | _ => rfl
  | _ => exact hkept rfl rfl

/-- A walk along nodes ends in the standing of the place behind them. -/
theorem standing_resolveSequence {ts nodes : List Tree} {p : Position} {w w' : Walk}
    (hw : w.standing = p.standing isGlobal)
    (h : (resolveSequence ctx ts w).result = .ok (nodes, w')) :
    w'.standing = (p.past ts).standing isGlobal := by
  induction ts generalizing p w nodes with
  | nil =>
    obtain ⟨-, rfl⟩ := resolveSequence_nil h
    rw [Position.past_nil, hw]
  | cons t ts ih =>
    obtain ⟨out, v, more, hstep, hmore, -⟩ := resolveSequence_cons h
    have hend := ih (standing_of_step hw hstep) hmore
    rwa [Position.past_past] at hend

/-- From any place, the nodes that a step gives for this node show the marks
of its names. -/
def Tracks (ctx : Context) (isGlobal : Bool) (t : Tree) : Prop :=
  ∀ (p : Position) (w w' : Walk) (nodes : List Tree), w.standing = p.standing isGlobal →
    Step ctx w t nodes w' → Shows nodes (marksAt ctx isGlobal (occurrencesOf p t))

/-- A walk along nodes is a chain of steps. -/
theorem shows_resolveSequence {ts nodes : List Tree} {p : Position} {w w' : Walk}
    (ht : ∀ t ∈ ts, Tracks ctx isGlobal t) (hw : w.standing = p.standing isGlobal)
    (h : (resolveSequence ctx ts w).result = .ok (nodes, w')) :
    Shows nodes (marksAt ctx isGlobal (occurrencesAlong p ts)) := by
  induction ts generalizing p w nodes with
  | nil =>
    obtain ⟨rfl, -⟩ := resolveSequence_nil h
    rw [occurrencesAlong]
    exact .nil
  | cons t ts ih =>
    obtain ⟨out, v, more, hstep, hmore, rfl⟩ := resolveSequence_cons h
    have hout := ht t List.mem_cons_self p w v out hw hstep
    have hshows :=
      ih (fun u hu => ht u (List.mem_cons_of_mem t hu)) (standing_of_step hw hstep) hmore
    rw [occurrencesAlong, marksAt_append]
    exact hout.append hshows

/-- The arguments of a narrow keyword, from the one behind `earlier` on. -/
theorem shows_resolveNarrow {ts earlier nodes : List Tree} {p : Position} {name : String}
    {standing : Standing} {hasLocals hasLocals' : Bool}
    (ht : ∀ a ∈ ts, ∀ t ∈ a.children, Tracks ctx isGlobal t)
    (hs : standing = (Position.within p name earlier []).standing isGlobal)
    (h : (resolveNarrow ctx ts standing hasLocals).result = .ok (nodes, hasLocals')) :
    Shows nodes (marksAt ctx isGlobal (occurrencesIn p name earlier ts)) := by
  induction ts generalizing earlier standing hasLocals nodes with
  | nil =>
    obtain ⟨rfl, -⟩ := resolveNarrow_nil h
    rw [occurrencesIn]
    exact .nil
  | cons a ts ih =>
    obtain ⟨out, v, more, hout, hmore, rfl⟩ := resolveNarrow_cons h
    have hv := standing_resolveSequence hs hout
    have hshows := shows_resolveSequence (ht a List.mem_cons_self) hs hout
    have hrest := ih (fun b hb => ht b (List.mem_cons_of_mem a hb))
      (Position.standing_next isGlobal hs hv) hmore
    rw [occurrencesIn_cons, marksAt_append]
    exact hshows.trimSpacing.append hrest

/-- The arguments of another pseudo-class, from the one behind `earlier` on. -/
theorem shows_resolveArguments {ts earlier arguments : List Tree} {p : Position} {name : String}
    {standing : Standing} {hasLocals hasLocals' : Bool}
    (ht : ∀ a ∈ ts, ∀ t ∈ a.children, Tracks ctx isGlobal t)
    (hs : standing = (Position.within p name earlier []).standing isGlobal)
    (h : (resolveArguments ctx ts standing hasLocals).result = .ok (arguments, hasLocals')) :
    ShowsList arguments (marksAt ctx isGlobal (occurrencesIn p name earlier ts)) := by
  induction ts generalizing earlier standing hasLocals arguments with
  | nil =>
    obtain ⟨rfl, -⟩ := resolveArguments_nil h
    rw [occurrencesIn]
    exact .nil
  | cons a ts ih =>
    obtain ⟨out, v, more, hout, hmore, rfl⟩ := resolveArguments_cons h
    have hv := standing_resolveSequence hs hout
    have hshows := shows_resolveSequence (ht a List.mem_cons_self) hs hout
    have hrest := ih (fun b hb => ht b (List.mem_cons_of_mem a hb))
      (Position.standing_next isGlobal hs hv) hmore
    rw [occurrencesIn_cons, marksAt_append]
    exact hrest.cons hshows.trimSpacing a.spaces a.start

/-! ### Steps from place to place -/

theorem isSimple_markLocal {kind : Selector.Kind} (hk : kind.isLeaf) (spaces : Spaces)
    (start : Nat) : (markLocal kind spaces start).IsSimple := by
  refine Tree.isSimple_pseudo _ _ _ (List.cons_ne_nil _ _) fun a ha => ?_
  rw [List.mem_singleton.mp ha]
  exact ⟨rfl, fun t ht => List.mem_singleton.mp ht ▸ .leaf .none start hk⟩

/-- A name is marked as its place says. -/
theorem shows_name {kind : Selector.Kind} {name : Name} {p : Position} {w : Walk}
    (hk : kind.isLeaf) (hn : kind.name? = some name) (hw : w.standing = p.standing isGlobal)
    (spaces : Spaces) (start : Nat) :
    Shows
      [if w.marks ctx name.text then markLocal kind spaces start else .leaf kind spaces start]
      (marksAt ctx isGlobal [(name, p)]) := by
  have hmark : w.marks ctx name.text = p.marks ctx isGlobal name.text := by
    rw [Walk.marks, hw]
    rfl
  have hmarks : marksAt ctx isGlobal [(name, p)] = [(name, p.marks ctx isGlobal name.text)] := rfl
  rw [hmark, hmarks]
  cases p.marks ctx isGlobal name.text with
  | true => exact .single (isSimple_markLocal hk spaces start) (marksOf_markLocal hn spaces start)
  | false =>
    have hplain : marksOf (.leaf kind spaces start) = [(name, false)] := by
      rw [marksOf_leaf, hn]
      rfl
    exact .single (.leaf spaces start hk) hplain

/-- A node that holds nothing tracks the places. -/
theorem tracks_leaf {kind : Selector.Kind} (hk : kind.isLeaf) (spaces : Spaces) (start : Nat) :
    Tracks ctx isGlobal (.leaf kind spaces start) := by
  intro p w w' nodes hw hstep
  rw [occurrencesOf_leaf]
  have hkept (hn : kind.name? = none) : Shows [.leaf kind spaces start]
      (marksAt ctx isGlobal (kind.name?.toList.map fun name => (name, p))) :=
    .single (.leaf spaces start hk) (by rw [marksOf_leaf, hn]; rfl)
  cases hstep with
  | dropSpace => exact .nil
  | narrow => cases hk
  | broad =>
    split
    · exact .nil
    · exact .single (.leaf _ _ rfl) (marksOf_leaf ..)
  | call => cases hk
  | name _ hn =>
    rw [hn]
    exact shows_name hk hn hw spaces start
  | keep _ _ hn => exact hkept hn
  | _ => exact hkept rfl

/-- A pseudo-class with arguments tracks the places if all in its arguments
does. -/
theorem tracks_pseudo {name : String} {arguments : List Tree} (hne : arguments ≠ [])
    (hk : ∀ a ∈ arguments, a.kind = .selector)
    (hs : ∀ a ∈ arguments, ∀ t ∈ a.children, t.IsSimple)
    (ht : ∀ a ∈ arguments, ∀ t ∈ a.children, Tracks ctx isGlobal t)
    (spaces : Spaces) (start : Nat) :
    Tracks ctx isGlobal (.node (.pseudo name true) spaces start arguments) := by
  intro p w w' nodes hw hstep
  rw [occurrencesOf]
  cases hstep with
  | narrow _ hkeyword _ _ ha =>
    rw [not_isExchange_of_keyword hkeyword]
    have hstart := (Position.standing_narrow isGlobal hkeyword p).symm
    exact (shows_resolveNarrow ht hstart ha).surround spaces
  | exchange _ hkeyword hx =>
    rw [if_pos hx]
    have hsimple := Tree.IsSimple.call name spaces start hne hk hs
    exact .single hsimple (marksOf_exchange hkeyword hx true spaces start arguments)
  | call _ hkeyword hx ha =>
    rw [hx]
    -- the first argument starts where the pseudo-class stands
    have hstart := hw.trans (Position.standing_within isGlobal hkeyword p).symm
    have hshows := shows_resolveArguments ht hstart ha
    have hsimple := Tree.isSimple_pseudo name spaces start (resolveArguments_ne_nil hne ha)
      hshows.isAlternative
    refine .single hsimple ?_
    rw [marksOf_pseudo hkeyword hx, hshows.marksEach_eq]
    rfl
  | name _ hn => cases hn
  | keep _ _ _ hp => cases (hp name true rfl).1

/-- Every node of a list that was read tracks the places. -/
theorem tracks_of_isSimple {t : Tree} (h : t.IsSimple) : Tracks ctx isGlobal t := by
  induction h with
  | leaf spaces start hk => exact tracks_leaf hk spaces start
  | call name spaces start hne hk hs ih => exact tracks_pseudo hne hk hs ih spaces start

/-- Each alternative of a list starts in the scope of the mode. -/
theorem shows_resolveAlternatives {selector : String} {agreed : Option Bool}
    {ts outs : List Tree} {r : Resolution} (ht : ∀ a ∈ ts, a.IsAlternative)
    (h : (resolveAlternatives ctx isGlobal selector agreed ts).result = .ok (outs, r)) :
    ShowsList outs (marksAt ctx isGlobal
      (ts.flatMap fun a => occurrencesAlong (.top []) a.children)) := by
  induction ts generalizing agreed outs r with
  | nil =>
    obtain ⟨rfl, -⟩ := resolveAlternatives_nil h
    exact .nil
  | cons a ts ih =>
    obtain ⟨nodes, w, more, q, hnodes, -, hmore, rfl, -⟩ := resolveAlternatives_cons h
    have htracks : ∀ t ∈ a.children, Tracks ctx isGlobal t := fun t hmem =>
      tracks_of_isSimple ((ht a List.mem_cons_self).2 t hmem)
    have hstart := (Position.standing_top isGlobal).symm
    have hshows := shows_resolveSequence htracks hstart hnodes
    have hrest := ih (fun b hb => ht b (List.mem_cons_of_mem a hb)) hmore
    rw [List.flatMap_cons, marksAt_append]
    exact hrest.cons hshows.trimSpacing a.spaces a.start

end Walks

/-! ### All names have a place -/

/-- The names of a node wherever it stands are those that are read off it. -/
def Locates (t : Tree) : Prop :=
  ∀ p : Position, (occurrencesOf p t).map Prod.fst = namesOf t

theorem fst_occurrencesAlong {ts : List Tree} (h : ∀ t ∈ ts, Locates t) (p : Position) :
    (occurrencesAlong p ts).map Prod.fst = namesEach ts := by
  induction ts generalizing p with
  | nil =>
    rw [occurrencesAlong, namesEach]
    rfl
  | cons t ts ih =>
    rw [occurrencesAlong, namesEach, List.map_append, h t List.mem_cons_self p,
      ih (fun u hu => h u (List.mem_cons_of_mem t hu))]

/-- An alternative has the names of its nodes. -/
theorem namesOf_of_kind_eq_selector {t : Tree} (h : t.kind = .selector) :
    namesOf t = namesEach t.children := by
  obtain ⟨kind, spaces, start, children⟩ := t
  obtain rfl : kind = .selector := h
  rw [namesOf]
  rfl

theorem fst_occurrencesIn {ts : List Tree} (hk : ∀ a ∈ ts, a.kind = .selector)
    (h : ∀ a ∈ ts, ∀ t ∈ a.children, Locates t) (p : Position) (name : String)
    (earlier : List Tree) : (occurrencesIn p name earlier ts).map Prod.fst = namesEach ts := by
  induction ts generalizing earlier with
  | nil =>
    rw [occurrencesIn, namesEach]
    rfl
  | cons a ts ih =>
    have hfirst := fst_occurrencesAlong (h a List.mem_cons_self) (.within p name earlier [])
    have hrest := ih (fun b hb => hk b (List.mem_cons_of_mem a hb))
      (fun b hb => h b (List.mem_cons_of_mem a hb)) (earlier ++ [a])
    rw [occurrencesIn_cons, List.map_append, hfirst, hrest, namesEach,
      namesOf_of_kind_eq_selector (hk a List.mem_cons_self)]

theorem locates_of_isSimple {t : Tree} (h : t.IsSimple) : Locates t := by
  intro p
  induction h generalizing p with
  | leaf spaces start hk =>
    rw [occurrencesOf_leaf, ← fst_marksOf, marksOf_leaf, List.map_map, List.map_map]
    rfl
  | call name spaces start hne hk hs ih =>
    rw [occurrencesOf, namesOf, isForeign]
    split
    · rfl
    · exact fst_occurrencesIn hk ih p name []

theorem fst_occurrences {t : Tree} (h : t.IsList) :
    (occurrences t).map Prod.fst = namesOf t := by
  obtain ⟨hroot, -, halternatives⟩ := h
  obtain ⟨kind, spaces, start, children⟩ := t
  obtain rfl : kind = .root := hroot
  have heach : ∀ ts : List Tree, (∀ a ∈ ts, a.IsAlternative) →
      (ts.flatMap fun a => occurrencesAlong (.top []) a.children).map Prod.fst = namesEach ts := by
    intro ts hts
    induction ts with
    | nil => rfl
    | cons a ts ih =>
      obtain ⟨hk, hs⟩ := hts a List.mem_cons_self
      have hfirst := fst_occurrencesAlong (fun t ht => locates_of_isSimple (hs t ht)) (.top [])
      rw [List.flatMap_cons, List.map_append, hfirst, namesEach, namesOf_of_kind_eq_selector hk,
        ih fun b hb => hts b (List.mem_cons_of_mem a hb)]
  rw [namesOf]
  exact heach children halternatives

/-- A resolved list shows the marks that the places of the names ask for. -/
theorem marksOf_resolve {ctx : Context} {isGlobal : Bool} {t out : Tree} {r : Resolution}
    (ht : t.IsList) (h : (resolve ctx isGlobal t).result = .ok (out, r)) :
    marksOf out = marksAt ctx isGlobal (occurrences t) := by
  obtain ⟨outs, hr, rfl⟩ := resolve_eq_ok h
  rw [marksOf]
  exact (shows_resolveAlternatives ht.alternatives hr).marksEach_eq

/-- **Names are marked by their effective scope.** A resolved list has the
names of the list that was read, in the same order, and each has a mark of
its own if and only if the place where it stood says so. -/
theorem resolve_marks_effective_scope {ctx : Context} {isGlobal : Bool} {source : String}
    {t out : Tree} {r : Resolution} (hp : Selector.parse source = .ok t)
    (h : (resolve ctx isGlobal t).result = .ok (out, r)) :
    namesOf out = namesOf t ∧ (occurrences t).map Prod.fst = namesOf t ∧
      marksOf out = marksAt ctx isGlobal (occurrences t) := by
  have hlist := Selector.isList_of_parse hp
  have hplaces := fst_occurrences hlist
  have hmarks := marksOf_resolve hlist h
  refine ⟨?_, hplaces, hmarks⟩
  rw [← fst_marksOf, hmarks, ← hplaces, marksAt, List.map_map]
  rfl

/-- Imported `a` is kept in the scope of the mode and marked where a keyword
makes it local; `d` is global through the argument before it, and `h` belongs
to another sheet. -/
theorem resolve_marks_effective_scope_nested :
    ∃ t out r,
      Selector.parse ".a:not(.b, :global .c, #d):is(:local(.e:is(.a))) :global .g:import(.h)" =
        .ok t ∧
      (resolve ⟨["a"], false⟩ false t).result = .ok (out, r) ∧
      (marksAt ⟨["a"], false⟩ false (occurrences t)).map (fun (name, mark) => (name.text, mark)) =
        [("a", false), ("b", true), ("c", false), ("d", false), ("e", true), ("a", true),
          ("g", false)] ∧
      namesOf out = namesOf t ∧ (occurrences t).map Prod.fst = namesOf t ∧
      marksOf out = marksAt ⟨["a"], false⟩ false (occurrences t) := by
  have hok :
      (match
        Selector.parse ".a:not(.b, :global .c, #d):is(:local(.e:is(.a))) :global .g:import(.h)" with
      | .ok t =>
        (resolve ⟨["a"], false⟩ false t).result.isOk &&
          (marksAt ⟨["a"], false⟩ false (occurrences t)).map
            (fun (name, mark) => (name.text, mark)) =
            [("a", false), ("b", true), ("c", false), ("d", false), ("e", true), ("a", true),
              ("g", false)]
      | .error _ => false) = true := by
    decide +kernel
  split at hok
  next t ht =>
    obtain ⟨hresolve, hmarks⟩ := (Bool.and_eq_true _ _).mp hok
    obtain ⟨⟨out, r⟩, hr, h⟩ :=
      exists_ok_of_isOk hresolve fun _ hr => resolve_marks_effective_scope ht hr
    exact ⟨t, out, r, ht, hr, of_decide_eq_true hmarks, h⟩
  next => cases hok

end Scope
end StyleScope
