/-
# What a list leaves without its keywords

Whether a keyword goes, and the white space next to it, does not depend on the
scope in force. So what a resolved list consists of can be said of the list that
was read alone: a broad keyword goes with the white space behind it, and a
narrow one leaves what is in its arguments, with the text around the keyword
around it (`remainsOf`). The walk adds marks to that and nothing else
(`marks_of_step`, `marks_of_resolve`).

Unlike `splice` this keeps the white space that the walk keeps, so the two lists
have the same text but for the marks.

Key definitions: `Scope.remainsOf`, `Scope.remains`, `Scope.Marks`.
Key theorems: `Scope.marks_of_step`, `Scope.marks_of_resolve`.
-/
import StyleScope.Proofs.BroadSpacing

namespace StyleScope
namespace Scope

open Selector (Tree Spaces)

/-! ### Without keywords -/

mutual

/-- The nodes that a node leaves. -/
def remainsOf : Tree → List Tree
  | .node (.pseudo name hasArguments) spaces start children =>
    match Keyword.ofPseudo? name, hasArguments with
    | some _, true => surround spaces (remainsWithin children)
    | some _, false =>
      if spaces.before = "" then []
      else [.leaf (.combinator .descendant spaces.before) .none start]
    | none, true =>
      if isExchange name then [.node (.pseudo name true) spaces start children]
      else [.node (.pseudo name true) spaces start (remainsAmong children)]
    | none, false => [.node (.pseudo name false) spaces start children]
  | t => [t]

/-- The nodes that the nodes of an alternative leave. White space behind a broad
keyword goes with the keyword. -/
def remainsAlong (isBehind : Bool) : List Tree → List Tree
  | [] => []
  | t :: ts =>
    if isBehind && t.isSpacing then remainsAlong false ts
    else remainsOf t ++ remainsAlong (isBroad t) ts

/-- The nodes that the arguments of a narrow keyword leave, one after the
other. -/
def remainsWithin : List Tree → List Tree
  | [] => []
  | .node _ _ _ children :: ts =>
    trimSpacing (remainsAlong false children) ++ remainsWithin ts

/-- What alternatives leave. -/
def remainsAmong : List Tree → List Tree
  | [] => []
  | .node _ spaces start children :: ts =>
    .node .selector spaces start (trimSpacing (remainsAlong false children)) :: remainsAmong ts

end

/-- The list without its keywords. -/
def remains (t : Tree) : Tree :=
  .node .root t.spaces 0 (remainsAmong t.children)

theorem remainsOf_of_ne {kind : Selector.Kind}
    (h : ∀ name hasArguments, kind ≠ .pseudo name hasArguments) (spaces : Spaces) (start : Nat)
    (children : List Tree) :
    remainsOf (.node kind spaces start children) = [.node kind spaces start children] := by
  cases kind with
  | pseudo name hasArguments => exact absurd rfl (h name hasArguments)
  | _ => rw [remainsOf]; simp

@[simp] theorem remainsAlong_nil (isBehind : Bool) : remainsAlong isBehind [] = [] := by
  rw [remainsAlong]

@[simp] theorem remainsWithin_nil : remainsWithin [] = [] := by
  rw [remainsWithin]

@[simp] theorem remainsAmong_nil : remainsAmong [] = [] := by
  rw [remainsAmong]

theorem remainsWithin_cons (a : Tree) (ts : List Tree) :
    remainsWithin (a :: ts) =
      trimSpacing (remainsAlong false a.children) ++ remainsWithin ts := by
  obtain ⟨kind, spaces, start, children⟩ := a
  rw [remainsWithin]
  rfl

theorem remainsAmong_cons (a : Tree) (ts : List Tree) :
    remainsAmong (a :: ts) =
      .node .selector a.spaces a.start (trimSpacing (remainsAlong false a.children)) ::
        remainsAmong ts := by
  obtain ⟨kind, spaces, start, children⟩ := a
  rw [remainsAmong]
  rfl

/-! ### Text around a sequence and white space at its end -/

theorem surround_single (spaces : Spaces) (t : Tree) :
    surround spaces [t] = [(t.setBefore spaces.before).setAfter spaces.after] := rfl

theorem surround_concat (spaces : Spaces) (t last : Tree) (ts : List Tree) :
    surround spaces (t :: (ts ++ [last])) =
      t.setBefore spaces.before :: (ts ++ [last.setAfter spaces.after]) := by
  simp only [surround]
  rw [← List.cons_append, List.getLast?_concat]
  simp only
  rw [List.dropLast_concat, List.cons_append]

/-- White space at the end of two sequences. -/
theorem trimSpacing_append (ts us : List Tree) :
    trimSpacing (ts ++ us) =
      if trimSpacing us = [] then trimSpacing ts else ts ++ trimSpacing us := by
  simp only [trimSpacing, List.reverse_append, List.dropWhile_append, List.isEmpty_iff,
    List.reverse_eq_nil_iff]
  split
  · rfl
  · rw [List.reverse_append, List.reverse_reverse]

/-! ### Marks -/

/-- The second trees are the first ones with marks on some of the classes and
ids. -/
inductive Marks : List Tree → List Tree → Prop where
  | nil : Marks [] []
  | keep {ts us : List Tree} (t : Tree) (h : Marks ts us) : Marks (t :: ts) (t :: us)
  | name {kind : Selector.Kind} {name : Selector.Name} {children ts us : List Tree}
    (spaces : Spaces) (start : Nat) (hn : kind.name? = some name) (h : Marks ts us) :
    Marks (.node kind spaces start children :: ts) (markLocal kind spaces start :: us)
  | node {children marked ts us : List Tree} (kind : Selector.Kind) (spaces : Spaces)
    (start : Nat) (hc : Marks children marked) (h : Marks ts us) :
    Marks (.node kind spaces start children :: ts) (.node kind spaces start marked :: us)

namespace Marks

variable {t u : Tree} {ts us ts' us' : List Tree}

theorem append (h : Marks ts us) (h' : Marks ts' us') : Marks (ts ++ ts') (us ++ us') := by
  induction h with
  | nil => exact h'
  | keep t _ ih => exact .keep t ih
  | name spaces start hn _ ih => exact .name spaces start hn ih
  | node kind spaces start hc _ _ ih => exact .node kind spaces start hc ih

theorem single (t : Tree) : Marks [t] [t] :=
  .keep t .nil

theorem tail (h : Marks (t :: ts) (u :: us)) : Marks ts us := by
  cases h with
  | keep _ h => exact h
  | name _ _ _ h => exact h
  | node _ _ _ _ h => exact h

theorem head (h : Marks (t :: ts) (u :: us)) : Marks [t] [u] := by
  cases h with
  | keep => exact .keep t .nil
  | name spaces start hn => exact .name spaces start hn .nil
  | node kind spaces start hc => exact .node kind spaces start hc .nil

theorem exists_cons (h : Marks (t :: ts) us) : ∃ u vs, us = u :: vs := by
  cases h with
  | keep => exact ⟨_, _, rfl⟩
  | name => exact ⟨_, _, rfl⟩
  | node => exact ⟨_, _, rfl⟩

theorem exists_append (h : Marks (ts ++ ts') us) :
    ∃ vs ws, us = vs ++ ws ∧ Marks ts vs ∧ Marks ts' ws := by
  induction ts generalizing us with
  | nil => exact ⟨[], us, rfl, .nil, h⟩
  | cons t ts ih =>
    rw [List.cons_append] at h
    cases h with
    | keep _ h =>
      obtain ⟨vs, ws, rfl, hv, hw⟩ := ih h
      exact ⟨t :: vs, ws, rfl, .keep t hv, hw⟩
    | name spaces start hn h =>
      obtain ⟨vs, ws, rfl, hv, hw⟩ := ih h
      exact ⟨_ :: vs, ws, rfl, .name spaces start hn hv, hw⟩
    | node kind spaces start hc h =>
      obtain ⟨vs, ws, rfl, hv, hw⟩ := ih h
      exact ⟨_ :: vs, ws, rfl, .node kind spaces start hc hv, hw⟩

/-- A mark is no white space, and neither is what it marks. -/
theorem isSpacing_eq (h : Marks (t :: ts) (u :: us)) : t.isSpacing = u.isSpacing := by
  cases h with
  | keep => rfl
  | @name kind _ _ _ _ spaces start hn =>
    cases kind with
    | className | idName => rfl
    | _ => cases hn
  | node => rfl

/-- A mark stands in the text around what it marks. -/
theorem setBefore (h : Marks (t :: ts) (u :: us)) (text : String) :
    Marks (t.setBefore text :: ts) (u.setBefore text :: us) := by
  cases h with
  | keep _ h => exact .keep _ h
  | name spaces start hn h => exact .name _ start hn h
  | node kind spaces start hc h => exact .node kind _ start hc h

theorem setAfter (h : Marks (t :: ts) (u :: us)) (text : String) :
    Marks (t.setAfter text :: ts) (u.setAfter text :: us) := by
  cases h with
  | keep _ h => exact .keep _ h
  | name spaces start hn h => exact .name _ start hn h
  | node kind spaces start hc h => exact .node kind _ start hc h

theorem surround (h : Marks ts us) (spaces : Spaces) :
    Marks (Scope.surround spaces ts) (Scope.surround spaces us) := by
  cases ts with
  | nil =>
    cases h
    exact .nil
  | cons t ts =>
    obtain ⟨u, us, rfl⟩ := h.exists_cons
    rcases List.eq_nil_or_concat' ts with rfl | ⟨inner, last, rfl⟩
    · cases h.tail
      exact (h.setBefore _).setAfter _
    · obtain ⟨vs, ws, rfl, hinner, hlast⟩ := h.tail.exists_append
      obtain ⟨w, ws, rfl⟩ := hlast.exists_cons
      cases hlast.tail
      rw [surround_concat, surround_concat]
      exact (h.head.setBefore _).append (hinner.append (hlast.setAfter _))

theorem trimSpacing (h : Marks ts us) :
    Marks (Scope.trimSpacing ts) (Scope.trimSpacing us) := by
  induction ts generalizing us with
  | nil =>
    cases h
    exact .nil
  | cons t ts ih =>
    obtain ⟨u, us, rfl⟩ := h.exists_cons
    have htail := ih h.tail
    have hnil : Scope.trimSpacing ts = [] ↔ Scope.trimSpacing us = [] := by
      generalize Scope.trimSpacing ts = vs at htail ⊢
      generalize Scope.trimSpacing us = ws at htail ⊢
      cases htail <;> simp
    have hone : Marks (Scope.trimSpacing [t]) (Scope.trimSpacing [u]) := by
      have hspacing := h.isSpacing_eq
      cases ht : t.isSpacing with
      | true =>
        rw [ht] at hspacing
        simp only [Scope.trimSpacing, List.reverse_singleton, List.dropWhile_cons, ht, ← hspacing]
        exact .nil
      | false =>
        rw [ht] at hspacing
        simp only [Scope.trimSpacing, List.reverse_singleton, List.dropWhile_cons, ht, ← hspacing]
        exact h.head
    rw [← List.singleton_append, ← List.singleton_append (x := u), trimSpacing_append,
      trimSpacing_append]
    by_cases hts : Scope.trimSpacing ts = []
    · rw [if_pos hts, if_pos (hnil.mp hts)]
      exact hone
    · rw [if_neg hts, if_neg (mt hnil.mpr hts)]
      exact h.head.append htail

end Marks

/-! ### The walk marks what is left -/

section Walks

variable {ctx : Context}

variable {w w' : Walk} {t : Tree} {nodes : List Tree}

theorem drops_of_step (h : Step ctx w t nodes w') (hs : t.isSpacing) (hd : w.demand ≠ .nothing) :
    nodes = [] ∧ w'.demand = .nothing := by
  cases h with
  | dropSpace => exact ⟨rfl, rfl⟩
  | keepSpace hn => exact absurd hn hd
  | @name kind _ _ _ _ _ hn =>
    cases kind with
    | className | idName => cases hs
    | _ => cases hn
  | keep _ hk => cases hk.symm.trans hs
  | _ => cases hs

/-- Only behind a broad keyword something is demanded. -/
theorem isBroad_iff_demand (h : Step ctx w t nodes w')
    (hd : t.isSpacing = false ∨ w.demand = .nothing) : isBroad t = true ↔ w'.demand ≠ .nothing := by
  cases h with
  | dropSpace hs =>
    rcases hd with hd | hd
    · cases hd
    · rw [hs] at hd
      cases hd
  | keepSpace hn => exact iff_of_false Bool.false_ne_true (by simp [hn])
  | broad _ hk =>
    refine iff_of_true (by simp [isBroad, broad?, hk]) ?_
    split <;> simp
  | @exchange name hasArguments _ _ _ _ hk =>
    refine iff_of_false ?_ (by simp [Walk.passed])
    cases hasArguments <;> simp [isBroad, broad?, hk]
  | @name kind _ _ _ _ _ hn =>
    refine iff_of_false ?_ (by simp [Walk.passed])
    cases kind with
    | className | idName => exact Bool.false_ne_true
    | _ => cases hn
  | @keep kind _ _ _ _ _ _ hp =>
    refine iff_of_false ?_ (by simp [Walk.passed])
    cases kind with
    | pseudo name hasArguments =>
      obtain ⟨rfl, hk, -⟩ := hp name hasArguments rfl
      simp [isBroad, broad?, hk]
    | _ => exact Bool.false_ne_true
  | _ => exact iff_of_false Bool.false_ne_true (by simp [Walk.passed])

mutual

/-- A step marks what the node leaves. -/
theorem marks_of_step : ∀ (t : Tree) {w w' : Walk} {nodes : List Tree}, Step ctx w t nodes w' →
    t.isSpacing = false ∨ w.demand = .nothing → Marks (remainsOf t) nodes
  | .node kind spaces start children, w, w', nodes, h, hd => by
    cases h with
    | dropSpace hs =>
      rcases hd with hd | hd
      · cases hd
      · rw [hs] at hd
        cases hd
    | keepSpace =>
      rw [remainsOf_of_ne (by simp)]
      exact .single _
    | narrow _ hk _ _ ha =>
      simp only [remainsOf, hk]
      exact (marks_resolveNarrow children ha).surround _
    | broad _ hk =>
      simp only [remainsOf, hk]
      split
      · exact .nil
      · exact .single _
    | @exchange name hasArguments _ _ _ _ hk hx =>
      cases hasArguments with
      | true =>
        simp only [remainsOf, hk, hx, if_true]
        exact .single _
      | false =>
        simp only [remainsOf, hk]
        exact .single _
    | call _ hk hx ha =>
      simp only [remainsOf, hk, hx]
      exact .node _ _ _ (marks_resolveArguments children ha) .nil
    | name _ hn =>
      rw [remainsOf_of_ne (by rintro name hasArguments rfl; cases hn)]
      split
      · exact .name _ _ hn .nil
      · exact .single _
    | nesting =>
      rw [remainsOf_of_ne (by simp)]
      exact .single _
    | keep _ _ _ hp =>
      cases kind with
      | pseudo name hasArguments =>
        obtain ⟨rfl, hk, -⟩ := hp name hasArguments rfl
        simp only [remainsOf, hk]
        exact .single _
      | _ =>
        rw [remainsOf_of_ne (by simp)]
        exact .single _

theorem marks_resolveSequence : ∀ (ts : List Tree) {w w' : Walk} {nodes : List Tree}
    {isBehind : Bool}, (isBehind = true ↔ w.demand ≠ .nothing) →
    (resolveSequence ctx ts w).result = .ok (nodes, w') → Marks (remainsAlong isBehind ts) nodes
  | [], w, w', nodes, isBehind, _, h => by
    obtain ⟨rfl, -⟩ := resolveSequence_nil h
    rw [remainsAlong_nil]
    exact .nil
  | t :: ts, w, w', nodes, isBehind, hb, h => by
    obtain ⟨out, v, more, hstep, hmore, rfl⟩ := resolveSequence_cons h
    rw [remainsAlong]
    by_cases hdrop : t.isSpacing ∧ w.demand ≠ .nothing
    · -- white space behind a broad keyword
      obtain ⟨rfl, hv⟩ := drops_of_step hstep hdrop.1 hdrop.2
      rw [if_pos (by rw [hb.mpr hdrop.2, hdrop.1]; rfl)]
      exact marks_resolveSequence ts (by simp [hv]) hmore
    · have hd : t.isSpacing = false ∨ w.demand = .nothing := by
        rw [not_and_or, Bool.not_eq_true, not_not] at hdrop
        exact hdrop
      rw [if_neg (by simpa [Bool.and_eq_true, hb, and_comm] using hdrop)]
      exact (marks_of_step t hstep hd).append
        (marks_resolveSequence ts (isBroad_iff_demand hstep hd) hmore)

theorem marks_resolveNarrow : ∀ (ts : List Tree) {standing : Standing} {hasLocals hasLocals' : Bool}
    {nodes : List Tree},
    (resolveNarrow ctx ts standing hasLocals).result = .ok (nodes, hasLocals') →
    Marks (remainsWithin ts) nodes
  | [], _, _, _, _, h => by
    obtain ⟨rfl, -⟩ := resolveNarrow_nil h
    rw [remainsWithin_nil]
    exact .nil
  | .node kind spaces start children :: ts, _, _, _, _, h => by
    obtain ⟨out, v, more, hout, hmore, rfl⟩ := resolveNarrow_cons h
    rw [remainsWithin]
    exact (marks_resolveSequence children (by simp) hout).trimSpacing.append
      (marks_resolveNarrow ts hmore)

theorem marks_resolveArguments : ∀ (ts : List Tree) {standing : Standing}
    {hasLocals hasLocals' : Bool} {nodes : List Tree},
    (resolveArguments ctx ts standing hasLocals).result = .ok (nodes, hasLocals') →
    Marks (remainsAmong ts) nodes
  | [], _, _, _, _, h => by
    obtain ⟨rfl, -⟩ := resolveArguments_nil h
    rw [remainsAmong_nil]
    exact .nil
  | .node kind spaces start children :: ts, _, _, _, _, h => by
    obtain ⟨out, v, more, hout, hmore, rfl⟩ := resolveArguments_cons h
    rw [remainsAmong]
    exact .node _ _ _ (marks_resolveSequence children (by simp [Walk.begin]) hout).trimSpacing
      (marks_resolveArguments ts hmore)

end

theorem marks_resolveAlternatives {isGlobal : Bool} {selector : String} {agreed : Option Bool}
    {ts outs : List Tree} {r : Resolution}
    (h : (resolveAlternatives ctx isGlobal selector agreed ts).result = .ok (outs, r)) :
    Marks (remainsAmong ts) outs := by
  induction ts generalizing agreed outs r with
  | nil =>
    obtain ⟨rfl, -⟩ := resolveAlternatives_nil h
    rw [remainsAmong_nil]
    exact .nil
  | cons a ts ih =>
    obtain ⟨nodes, v, more, q, hnodes, -, hmore, rfl, -⟩ := resolveAlternatives_cons h
    rw [remainsAmong_cons]
    exact .node _ _ _ (marks_resolveSequence a.children (by simp [Walk.begin]) hnodes).trimSpacing
      (ih hmore)

/-- **A resolved list is what the list leaves without its keywords, with marks.** -/
theorem marks_of_resolve {isGlobal : Bool} {t out : Tree} {r : Resolution}
    (h : (resolve ctx isGlobal t).result = .ok (out, r)) : Marks [remains t] [out] := by
  obtain ⟨outs, hr, rfl⟩ := resolve_eq_ok h
  exact .node _ _ _ (marks_resolveAlternatives hr) .nil

end Walks

end Scope
end StyleScope
