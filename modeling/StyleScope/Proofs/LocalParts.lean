/-
# Local parts of a selector

In pure mode every alternative of a selector must have a local part, and
resolving counts along whether it does. Here a local part is found in the
resolved selector itself, at any depth (`hasLocalPart`): the mark of a name, an
exchange with other sheets, or `&` in a rule that is pure.

Both say the same of every selector that was read. One step of the walk counts
the local parts of the nodes that it gives (`counts_of_isSimple`), so a walk
counts those of all its nodes. White space at the end of an alternative is cut
off after it was counted; that is harmless because it has no local part, which
the invariant `Counted` therefore keeps along.

Key definitions: `Scope.hasLocalPart`, `Scope.Counted`.
Key theorems: `Scope.counts_of_isSimple`, `Scope.hasPureGlobals_of_resolve`.
-/
import StyleScope.Proofs.EffectiveScope

namespace StyleScope
namespace Scope

open Selector (Tree Spaces)

/-! ### Local parts of a resolved selector -/

/-- Whether a node of this kind with these children is a local part. -/
def isLocalPart (parentIsPure : Bool) (kind : Selector.Kind) (children : List Tree) : Bool :=
  (markedName? kind children).isSome || isForeign kind || (kind = .nesting && parentIsPure)

mutual

/-- Whether the tree is a local part, or holds one at any depth. -/
def hasLocalPart (parentIsPure : Bool) : Tree → Bool
  | .node kind _ _ children =>
    isLocalPart parentIsPure kind children || anyLocalPart parentIsPure children

def anyLocalPart (parentIsPure : Bool) : List Tree → Bool
  | [] => false
  | t :: ts => hasLocalPart parentIsPure t || anyLocalPart parentIsPure ts

end

section LocalParts

variable (parentIsPure : Bool)

theorem anyLocalPart_nil : anyLocalPart parentIsPure [] = false := by
  unfold anyLocalPart
  rfl

theorem anyLocalPart_single (t : Tree) :
    anyLocalPart parentIsPure [t] = hasLocalPart parentIsPure t := by
  rw [anyLocalPart, anyLocalPart_nil, Bool.or_false]

theorem anyLocalPart_append (ts us : List Tree) :
    anyLocalPart parentIsPure (ts ++ us) =
      (anyLocalPart parentIsPure ts || anyLocalPart parentIsPure us) := by
  induction ts with
  | nil => rw [anyLocalPart_nil, List.nil_append, Bool.false_or]
  | cons t ts ih => rw [List.cons_append, anyLocalPart, anyLocalPart, ih, Bool.or_assoc]

theorem anyLocalPart_eq_false {ts : List Tree}
    (h : ∀ t ∈ ts, hasLocalPart parentIsPure t = false) : anyLocalPart parentIsPure ts = false := by
  induction ts with
  | nil => exact anyLocalPart_nil parentIsPure
  | cons t ts ih =>
    rw [anyLocalPart, h t List.mem_cons_self, ih fun u hu => h u (List.mem_cons_of_mem t hu)]
    rfl

theorem hasLocalPart_withSpaces (spaces : Spaces) (t : Tree) :
    hasLocalPart parentIsPure (t.withSpaces spaces) = hasLocalPart parentIsPure t := by
  obtain ⟨kind, _, start, children⟩ := t
  simp only [Tree.withSpaces, hasLocalPart]

/-- A node without children is a local part by its kind. -/
theorem hasLocalPart_leaf (kind : Selector.Kind) (spaces : Spaces) (start : Nat) :
    hasLocalPart parentIsPure (.leaf kind spaces start) =
      (isForeign kind || (kind = .nesting && parentIsPure)) := by
  have hmark : markedName? kind [] = none := by
    unfold markedName?
    split
    next h => cases h
    next => rfl
  simp only [Tree.leaf, hasLocalPart, isLocalPart, hmark, anyLocalPart_nil, Option.isSome_none,
    Bool.false_or, Bool.or_false]

theorem hasLocalPart_markLocal {kind : Selector.Kind} {name : Selector.Name}
    (h : kind.name? = some name) (spaces : Spaces) (start : Nat) :
    hasLocalPart parentIsPure (markLocal kind spaces start) = true := by
  have hmark : markedName? (.pseudo Keyword.localScope.text true)
      [.node .selector .none start [.leaf kind .none start]] = some name := by
    rw [← h]
    simp only [Tree.leaf, markedName?, if_true]
  simp only [markLocal, hasLocalPart, isLocalPart, hmark, Option.isSome_some, Bool.true_or]

theorem hasLocalPart_exchange {name : String} (hx : isExchange name) (hasArguments : Bool)
    (spaces : Spaces) (start : Nat) (children : List Tree) :
    hasLocalPart parentIsPure (.node (.pseudo name hasArguments) spaces start children) = true := by
  have hforeign : isForeign (.pseudo name hasArguments) = true := hx
  simp only [hasLocalPart, isLocalPart, hforeign, Bool.or_true, Bool.true_or]

/-- Any other pseudo-class has the local parts of its arguments. -/
theorem hasLocalPart_pseudo {name : String} (hk : Keyword.ofPseudo? name = none)
    (hx : isExchange name = false) (spaces : Spaces) (start : Nat) (arguments : List Tree) :
    hasLocalPart parentIsPure (.node (.pseudo name true) spaces start arguments) =
      anyLocalPart parentIsPure arguments := by
  have hforeign : isForeign (.pseudo name true) = false := hx
  simp [hasLocalPart, isLocalPart, markedName?_eq_none hk, hforeign]

theorem hasLocalPart_selector (spaces : Spaces) (start : Nat) (nodes : List Tree) :
    hasLocalPart parentIsPure (.node .selector spaces start nodes) =
      anyLocalPart parentIsPure nodes := by
  simp [hasLocalPart, isLocalPart, markedName?, isForeign]

end LocalParts

/-! ### Resolving counts local parts -/

/-- A walk that had found a local part `before` these nodes has found one
`after` them exactly if it had or they have one. White space has none. -/
structure Counted (parentIsPure before after : Bool) (nodes : List Tree) : Prop where
  spacing : ∀ t ∈ nodes, t.isSpacing → hasLocalPart parentIsPure t = false
  eq : after = (before || anyLocalPart parentIsPure nodes)

namespace Counted

variable {parentIsPure a b c : Bool} {ts us : List Tree}

theorem nil : Counted parentIsPure a a [] :=
  ⟨by simp, by rw [anyLocalPart_nil, Bool.or_false]⟩

theorem single {t : Tree} (hs : t.isSpacing → hasLocalPart parentIsPure t = false)
    (h : b = (a || hasLocalPart parentIsPure t)) : Counted parentIsPure a b [t] := by
  refine ⟨fun u hu => List.mem_singleton.mp hu ▸ hs, ?_⟩
  rw [anyLocalPart_single, h]

theorem append (h : Counted parentIsPure a b ts) (h' : Counted parentIsPure b c us) :
    Counted parentIsPure a c (ts ++ us) := by
  refine ⟨fun t ht => ?_, ?_⟩
  · rcases List.mem_append.mp ht with ht | ht
    · exact h.spacing t ht
    · exact h'.spacing t ht
  · rw [anyLocalPart_append, ← Bool.or_assoc, ← h.eq, h'.eq]

/-- What was found before does not matter for what the nodes have. -/
theorem or (h : Counted parentIsPure false b ts) (a : Bool) :
    Counted parentIsPure a (a || b) ts :=
  ⟨h.spacing, by rw [h.eq, Bool.false_or]⟩

/-- The text around nodes is no local part. -/
theorem surround (h : Counted parentIsPure a b ts) (spaces : Spaces) :
    Counted parentIsPure a b (Scope.surround spaces ts) := by
  refine surround_of_withSpaces (P := Counted parentIsPure a b) ?_ spaces h
  intro us t vs spaces h
  refine ⟨fun u hu hs => ?_, ?_⟩
  · rcases List.mem_append.mp hu with hu | hu
    · exact h.spacing u (List.mem_append_left _ hu) hs
    · rcases List.mem_cons.mp hu with rfl | hu
      · rw [Tree.isSpacing_withSpaces] at hs
        rw [hasLocalPart_withSpaces]
        exact h.spacing t (by simp) hs
      · exact h.spacing u (by simp [hu]) hs
  · rw [h.eq, anyLocalPart_append, anyLocalPart_append, anyLocalPart, anyLocalPart,
      hasLocalPart_withSpaces]

/-- White space has no local part, so none is lost with it. -/
theorem trimSpacing (h : Counted parentIsPure a b ts) :
    Counted parentIsPure a b (Scope.trimSpacing ts) := by
  obtain ⟨blanks, hsplit, hblanks⟩ := exists_eq_trimSpacing_append ts
  have hspacing : ∀ t ∈ Scope.trimSpacing ts ++ blanks, t.isSpacing →
      hasLocalPart parentIsPure t = false := hsplit ▸ h.spacing
  have hnone : anyLocalPart parentIsPure blanks = false :=
    anyLocalPart_eq_false parentIsPure fun t ht =>
      hspacing t (List.mem_append_right _ ht) (hblanks t ht)
  refine ⟨fun t ht => hspacing t (List.mem_append_left _ ht), ?_⟩
  have heq := h.eq
  rwa [hsplit, anyLocalPart_append, hnone, Bool.or_false] at heq

end Counted

section Walks

variable {ctx : Context}

/-- At this node the walk counts the local parts of the nodes that take its
place. -/
def Counts (ctx : Context) (t : Tree) : Prop :=
  ∀ (w w' : Walk) (nodes : List Tree), Step ctx w t nodes w' →
    Counted ctx.parentIsPure w.hasLocals w'.hasLocals nodes

theorem counted_resolveSequence {ts nodes : List Tree} {w w' : Walk}
    (ht : ∀ t ∈ ts, Counts ctx t) (h : (resolveSequence ctx ts w).result = .ok (nodes, w')) :
    Counted ctx.parentIsPure w.hasLocals w'.hasLocals nodes := by
  induction ts generalizing w nodes with
  | nil =>
    obtain ⟨rfl, rfl⟩ := resolveSequence_nil h
    exact .nil
  | cons t ts ih =>
    obtain ⟨out, v, more, hstep, hmore, rfl⟩ := resolveSequence_cons h
    have hfirst := ht t List.mem_cons_self w v out hstep
    exact hfirst.append (ih (fun u hu => ht u (List.mem_cons_of_mem t hu)) hmore)

theorem counted_resolveNarrow {ts nodes : List Tree} {standing : Standing}
    {hasLocals hasLocals' : Bool} (ht : ∀ a ∈ ts, ∀ t ∈ a.children, Counts ctx t)
    (h : (resolveNarrow ctx ts standing hasLocals).result = .ok (nodes, hasLocals')) :
    Counted ctx.parentIsPure hasLocals hasLocals' nodes := by
  induction ts generalizing standing hasLocals nodes with
  | nil =>
    obtain ⟨rfl, rfl⟩ := resolveNarrow_nil h
    exact .nil
  | cons a ts ih =>
    obtain ⟨out, v, more, hout, hmore, rfl⟩ := resolveNarrow_cons h
    have hfirst := counted_resolveSequence (ht a List.mem_cons_self) hout
    exact hfirst.trimSpacing.append (ih (fun b hb => ht b (List.mem_cons_of_mem a hb)) hmore)

theorem counted_resolveArguments {ts arguments : List Tree} {standing : Standing}
    {hasLocals hasLocals' : Bool} (ht : ∀ a ∈ ts, ∀ t ∈ a.children, Counts ctx t)
    (h : (resolveArguments ctx ts standing hasLocals).result = .ok (arguments, hasLocals')) :
    Counted ctx.parentIsPure hasLocals hasLocals' arguments := by
  induction ts generalizing standing hasLocals arguments with
  | nil =>
    obtain ⟨rfl, rfl⟩ := resolveArguments_nil h
    exact .nil
  | cons a ts ih =>
    obtain ⟨out, v, more, hout, hmore, rfl⟩ := resolveArguments_cons h
    have hfirst := (counted_resolveSequence (ht a List.mem_cons_self) hout).trimSpacing
    have hargument : Counted ctx.parentIsPure hasLocals v.hasLocals
        [.node .selector a.spaces a.start (trimSpacing out)] := by
      refine .single (fun hs => nomatch hs) ?_
      rw [hasLocalPart_selector]
      exact hfirst.eq
    exact hargument.append (ih (fun b hb => ht b (List.mem_cons_of_mem a hb)) hmore)

theorem counts_leaf {kind : Selector.Kind} (hk : kind.isLeaf) (spaces : Spaces) (start : Nat) :
    Counts ctx (.leaf kind spaces start) := by
  intro w w' nodes hstep
  -- a node that is kept, with what its kind adds to the count
  have hkept : ∀ (v : Walk) (part : Bool), v.hasLocals = (w.hasLocals || part) →
      (isForeign kind || (kind = .nesting && ctx.parentIsPure)) = part →
      (kind.isSpacing → part = false) →
      Counted ctx.parentIsPure w.hasLocals v.hasLocals [.leaf kind spaces start] := by
    intro v part hv hpart hs
    have hleaf := (hasLocalPart_leaf ctx.parentIsPure kind spaces start).trans hpart
    exact .single (fun h => hleaf.trans (hs h)) (by rw [hleaf, hv])
  cases hstep with
  | dropSpace => exact .nil
  | keepSpace => exact hkept _ false (Bool.or_false _).symm rfl fun _ => rfl
  | narrow => cases hk
  | broad =>
    -- the keyword leaves at most the white space in front of it
    by_cases hb : spaces.before = ""
    · rw [if_pos hb]
      exact .nil
    · rw [if_neg hb]
      refine .single (fun _ => hasLocalPart_leaf ..) ?_
      rw [hasLocalPart_leaf]
      exact (Bool.or_false _).symm
  | exchange _ _ hx =>
    refine hkept _ true rfl ?_ fun hs => by cases hs
    rw [isForeign, hx]
    rfl
  | call => cases hk
  | @name _ name _ _ _ _ hn =>
    have hforeign := isForeign_of_name? hn
    have hnesting : kind ≠ .nesting := by
      rintro rfl
      cases hn
    have hspacing : kind.isSpacing = false := by
      cases kind with
      | combinator => cases hn
      | _ => rfl
    cases hm : w.marks ctx name.text with
    | true =>
      have hlocal := hasLocalPart_markLocal ctx.parentIsPure hn spaces start
      exact .single (fun hs => by cases hs) (by rw [if_pos rfl, hlocal]; rfl)
    | false =>
      refine hkept _ false rfl ?_ fun hs => ?_
      · simp [hforeign, hnesting]
      · rfl
  | nesting => exact hkept _ ctx.parentIsPure rfl (by simp [isForeign]) fun hs => by cases hs
  | keep _ hs hn hp hne =>
    refine hkept _ false (Bool.or_false _).symm ?_ fun _ => rfl
    have hforeign : isForeign kind = false := by
      cases kind with
      | pseudo name hasArguments => exact (hp name hasArguments rfl).2.2
      | _ => rfl
    simp [hforeign, hne]

theorem counts_pseudo {name : String} {arguments : List Tree}
    (ht : ∀ a ∈ arguments, ∀ t ∈ a.children, Counts ctx t) (spaces : Spaces) (start : Nat) :
    Counts ctx (.node (.pseudo name true) spaces start arguments) := by
  intro w w' nodes hstep
  cases hstep with
  | narrow _ _ _ _ ha => exact ((counted_resolveNarrow ht ha).or w.hasLocals).surround spaces
  | exchange _ _ hx =>
    have hlocal := hasLocalPart_exchange ctx.parentIsPure hx true spaces start arguments
    exact .single (fun hs => nomatch hs) (by rw [hlocal]; rfl)
  | call _ hkeyword hx ha =>
    have hcounted := (counted_resolveArguments ht ha).or w.hasLocals
    refine .single (fun hs => nomatch hs) ?_
    rw [hasLocalPart_pseudo _ hkeyword hx]
    exact hcounted.eq
  | name _ hn => cases hn
  | keep _ _ _ hp => cases (hp name true rfl).1

/-- Resolving counts the local parts of every node of a list that was read. -/
theorem counts_of_isSimple {t : Tree} (h : t.IsSimple) : Counts ctx t := by
  induction h with
  | leaf spaces start hk => exact counts_leaf hk spaces start
  | call name spaces start _ _ _ ih => exact counts_pseudo ih spaces start

/-- An alternative without a local part is reported. -/
theorem hasPureGlobals_of_resolve {isGlobal : Bool} {t out : Tree} {r : Resolution}
    (ht : t.IsList) (h : (resolve ctx isGlobal t).result = .ok (out, r)) :
    (!r.hasPureGlobals) = out.children.all (hasLocalPart ctx.parentIsPure) := by
  have hlist : ∀ (ts outs : List Tree) (agreed : Option Bool) (r : Resolution),
      (∀ a ∈ ts, a.IsAlternative) →
      (resolveAlternatives ctx isGlobal t.print agreed ts).result = .ok (outs, r) →
        (!r.hasPureGlobals) = outs.all (hasLocalPart ctx.parentIsPure) := by
    intro ts
    induction ts with
    | nil =>
      intro outs agreed r _ h
      obtain ⟨rfl, rfl⟩ := resolveAlternatives_nil h
      rfl
    | cons a ts ih =>
      intro outs agreed r ha h
      obtain ⟨nodes, w, more, q, hnodes, -, hmore, rfl, rfl⟩ := resolveAlternatives_cons h
      have hcounts : ∀ t ∈ a.children, Counts ctx t := fun t ht =>
        counts_of_isSimple ((ha a List.mem_cons_self).2 t ht)
      have hcounted := (counted_resolveSequence hcounts hnodes).trimSpacing.eq
      have hrest := ih more _ q (fun b hb => ha b (List.mem_cons_of_mem a hb)) hmore
      rw [List.all_cons, hasLocalPart_selector, ← hrest, Bool.not_or, Bool.not_not, hcounted]
      rfl
  obtain ⟨outs, hr, rfl⟩ := resolve_eq_ok h
  exact hlist t.children outs none r ht.alternatives hr

end Walks

end Scope
end StyleScope
