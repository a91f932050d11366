/-
# The arguments of a narrow keyword are joined

A narrow keyword is replaced by what its arguments hold, one argument after
the other. No comma is left between them, so `:global(.a,.b)` becomes `.a.b`
(`arguments_joined`): what were alternatives is one compound, or one
complex selector if the second argument starts with white space.

This is so for every narrow keyword, wherever it stands. The nodes of all its
arguments stand side by side, in order, in one alternative of the resolved
list or of a pseudo-class in it (`SharesRow`). The alternatives around the
keyword stay apart: each alternative of the list becomes one, with its own
nodes.

Inside of a narrow keyword every node gives one node (`tags_resolveSequence`).
From there on the nodes only get company on both sides.

Key definitions: `Scope.tag`, `Scope.narrowsOf`, `Scope.rowsOf`,
`Scope.SharesRow`.
Key theorems: `Scope.tags_resolveNarrow`, `Scope.joins_of_isNeat`,
`Scope.narrow_arguments_share_row`.
-/
import StyleScope.Proofs.BroadSpacing

namespace StyleScope
namespace Scope

open Selector (Tree Spaces)

/-! ### Rows and narrow keywords -/

/-- A node by what it is and where its own text starts. -/
def tag (t : Tree) : Selector.Kind × Nat :=
  (t.kind, t.start)

mutual

/-- The nodes of each alternative in a tree, at any depth. -/
def rowsOf : Tree → List (List Tree)
  | .node .root _ _ children => rowsEach children
  | .node .selector _ _ children => children :: rowsEach children
  | .node (.pseudo _ _) _ _ children => rowsEach children
  | _ => []

def rowsEach : List Tree → List (List Tree)
  | [] => []
  | t :: ts => rowsOf t ++ rowsEach ts

end

mutual

/-- The narrow keywords in a tree that was read, outside of exchanges. -/
def narrowsOf : Tree → List Tree
  | .node .root _ _ children => narrowsEach children
  | .node .selector _ _ children => narrowsEach children
  | .node (.pseudo name true) spaces start arguments =>
    if (Keyword.ofPseudo? name).isSome then [.node (.pseudo name true) spaces start arguments]
    else if isExchange name then []
    else narrowsEach arguments
  | _ => []

def narrowsEach : List Tree → List Tree
  | [] => []
  | t :: ts => narrowsOf t ++ narrowsEach ts

end

/-- What the arguments of a narrow keyword hold, one after the other. -/
def contents (k : Tree) : List Tree :=
  k.children.flatMap Tree.children

/-- The contents of the narrow keyword are side by side in one of the rows. -/
def SharesRow (k : Tree) (rows : List (List Tree)) : Prop :=
  ∃ row ∈ rows, (contents k).map tag <:+: row.map tag

theorem SharesRow.mono {k : Tree} {rows rows' : List (List Tree)} (h : SharesRow k rows)
    (hsub : rows ⊆ rows') : SharesRow k rows' := by
  obtain ⟨row, hrow, hinfix⟩ := h
  exact ⟨row, hsub hrow, hinfix⟩

theorem rowsEach_append (ts us : List Tree) :
    rowsEach (ts ++ us) = rowsEach ts ++ rowsEach us := by
  induction ts with
  | nil => simp [rowsEach]
  | cons t ts ih => simp [rowsEach, ih]

theorem mem_narrowsEach {ts : List Tree} {k : Tree} :
    k ∈ narrowsEach ts ↔ ∃ t ∈ ts, k ∈ narrowsOf t := by
  induction ts with
  | nil => simp [narrowsEach]
  | cons t ts ih => simp [narrowsEach, ih]

/-! ### Side by side -/

/-- What is side by side in a list stays so without the end of the list, if the
end holds nothing like its last element. -/
theorem infix_of_infix_append {α : Type} {p : α → Prop} {xs as bs : List α}
    (h : xs <:+: as ++ bs) (hb : ∀ b ∈ bs, p b) (hx : ∀ x ∈ xs.getLast?, ¬ p x) : xs <:+: as := by
  induction bs using List.reverseRecOn with
  | nil => rwa [List.append_nil] at h
  | append_singleton bs b ih =>
    rw [← List.append_assoc, List.infix_concat_iff] at h
    rcases h with h | h
    · rcases List.eq_nil_or_concat xs with rfl | ⟨ys, y, rfl⟩
      · exact List.nil_infix
      · obtain ⟨front, hfront⟩ := h
        rw [List.concat_eq_append, ← List.append_assoc] at hfront
        obtain ⟨-, hy⟩ := List.append_inj' hfront rfl
        cases hy
        exact absurd (hb b (by simp)) (hx b (by simp))
    · exact ih h fun c hc => hb c (List.mem_append_left _ hc)

/-- The contents of the narrow keyword are side by side among these nodes, marks
apart, or in an alternative below them. -/
def Joined (k : Tree) (nodes : List Tree) : Prop :=
  (contents k).map tag <:+: (unmarkEach nodes).map tag ∨ SharesRow k (rowsEach (unmarkEach nodes))

/-- More nodes on both sides change nothing. -/
theorem Joined.append {k : Tree} {nodes : List Tree} (h : Joined k nodes) (us vs : List Tree) :
    Joined k (us ++ nodes ++ vs) := by
  rcases h with h | h
  · left
    rw [unmarkEach_append, unmarkEach_append, List.map_append, List.map_append]
    exact h.trans (List.infix_append _ _ _)
  · right
    rw [unmarkEach_append, unmarkEach_append, rowsEach_append, rowsEach_append]
    exact h.mono (List.subset_append_of_subset_left _ (List.subset_append_right _ _))

theorem unmarkEach_eq_map (ts : List Tree) : unmarkEach ts = ts.map unmark := by
  induction ts with
  | nil => rw [unmarkEach]; rfl
  | cons t ts ih => rw [unmarkEach, ih]; rfl

theorem unmark_selector (spaces : Spaces) (start : Nat) (children : List Tree) :
    unmark (.node .selector spaces start children) =
      .node .selector spaces start (unmarkEach children) := by
  have hmark : marked? .selector children = none := rfl
  have hforeign : isForeign .selector = false := rfl
  simp [unmark, hmark, hforeign]

theorem rowsOf_of_isSpacing {t : Tree} (h : t.isSpacing) : rowsOf t = [] := by
  obtain ⟨kind, spaces, start, children⟩ := t
  cases kind with
  | combinator => simp [rowsOf]
  | _ => cases h

/-- An alternative is a row of what it holds, whatever white space is trimmed
at its end. -/
theorem Joined.sharesRow {k : Tree} {nodes : List Tree} (h : Joined k nodes)
    (hlast : ∀ t ∈ (contents k).getLast?, t.isSpacing = false) (spaces : Spaces) (start : Nat) :
    SharesRow k (rowsOf (unmark (.node .selector spaces start (trimSpacing nodes)))) := by
  obtain ⟨blanks, hsplit, hblanks⟩ := exists_eq_trimSpacing_append nodes
  have hspace : ∀ t ∈ unmarkEach blanks, t.isSpacing := by
    intro t ht
    rw [unmarkEach_eq_map] at ht
    obtain ⟨u, hu, rfl⟩ := List.mem_map.mp ht
    rw [isSpacing_unmark]
    exact hblanks u hu
  rw [unmark_selector, rowsOf]
  rcases h with h | h
  · refine ⟨_, List.mem_cons_self, ?_⟩
    rw [hsplit, unmarkEach_append, List.map_append] at h
    refine infix_of_infix_append (p := fun q => q.1.isSpacing) h ?_ ?_
    · intro b hb
      obtain ⟨t, ht, rfl⟩ := List.mem_map.mp hb
      exact hspace t ht
    · intro x hx
      rw [List.getLast?_map] at hx
      obtain ⟨t, ht, rfl⟩ := Option.map_eq_some_iff.mp hx
      exact Bool.eq_false_iff.mp (hlast t ht)
  · have hnone : rowsEach (unmarkEach blanks) = [] := by
      generalize unmarkEach blanks = us at hspace
      induction us with
      | nil => rw [rowsEach]
      | cons u us ih =>
        rw [rowsEach, rowsOf_of_isSpacing (hspace u List.mem_cons_self),
          ih fun t ht => hspace t (List.mem_cons_of_mem u ht)]
        rfl
    rw [hsplit, unmarkEach_append, rowsEach_append, hnone, List.append_nil] at h
    exact h.mono (List.subset_cons_self _ _)

/-! ### Inside of a narrow keyword -/

theorem tag_unmark {kind : Selector.Kind} {children : List Tree} (h : marked? kind children = none)
    (spaces : Spaces) (start : Nat) :
    tag (unmark (.node kind spaces start children)) = (kind, start) := by
  simp only [unmark, h]
  split <;> rfl

theorem tag_unmark_withSpaces (spaces : Spaces) (t : Tree) :
    tag (unmark (t.withSpaces spaces)) = tag (unmark t) := by
  obtain ⟨kind, _, start, children⟩ := t
  simp only [Tree.withSpaces, unmark]
  split
  · rfl
  · split <;> rfl

/-- A mark has an argument. -/
theorem marked?_of_ne {kind : Selector.Kind} (h : ∀ name, kind ≠ .pseudo name true)
    (children : List Tree) : marked? kind children = none := by
  unfold marked?
  split
  next name _ _ _ _ _ => exact absurd rfl (h name)
  next => rfl

section Walks

variable {ctx : Context} {w w' : Walk} {t : Tree} {ts nodes : List Tree}

/-- The text around a node is no part of its tag. -/
theorem tags_surround (spaces : Spaces) (nodes : List Tree) :
    (unmarkEach (surround spaces nodes)).map tag = (unmarkEach nodes).map tag := by
  refine surround_of_withSpaces (P := fun us => (unmarkEach us).map tag = (unmarkEach nodes).map tag)
    (fun us t vs spaces h => ?_) spaces rfl
  rw [← h]
  simp only [unmarkEach_append, unmarkEach, List.map_append, List.map_cons, tag_unmark_withSpaces]

/-- Inside of a narrow keyword a node gives one node, which is the same but for
a mark and for what is below it. -/
theorem tag_of_step (hw : w.IsQuiet) (h : Step ctx w t nodes w') :
    ∃ u, nodes = [u] ∧ tag (unmark u) = tag t := by
  cases h with
  | dropSpace hd => rw [hw.2] at hd; cases hd
  | narrow _ _ _ hi => exact absurd hi hw.1
  | broad _ _ hi => exact absurd hi hw.1
  | keepSpace => exact ⟨_, rfl, tag_unmark (marked?_of_ne (by simp) _) _ _⟩
  | nesting => exact ⟨_, rfl, tag_unmark (marked?_of_ne (by simp) _) _ _⟩
  | exchange _ hk => exact ⟨_, rfl, tag_unmark (marked?_eq_none hk _ _) _ _⟩
  | call _ hk => exact ⟨_, rfl, tag_unmark (marked?_eq_none hk _ _) _ _⟩
  | @name kind _ _ _ _ _ hn =>
    refine ⟨_, rfl, ?_⟩
    split
    · rw [unmark_markLocal hn]; rfl
    · refine tag_unmark (marked?_of_ne ?_ _) _ _
      rintro name rfl
      cases hn
  | keep _ _ _ hk =>
    refine ⟨_, rfl, tag_unmark (marked?_of_ne ?_ _) _ _⟩
    rintro name rfl
    cases (hk name true rfl).1

/-- Inside of a narrow keyword a sequence keeps all its nodes. -/
theorem tags_resolveSequence (hw : w.IsQuiet)
    (h : (resolveSequence ctx ts w).result = .ok (nodes, w')) :
    (unmarkEach nodes).map tag = ts.map tag := by
  induction ts generalizing w nodes with
  | nil =>
    obtain ⟨rfl, -⟩ := resolveSequence_nil h
    rw [unmarkEach, List.map_nil]
  | cons t ts ih =>
    obtain ⟨out, v, more, hstep, hmore, rfl⟩ := resolveSequence_cons h
    obtain ⟨u, rfl, hu⟩ := tag_of_step hw hstep
    rw [List.singleton_append, unmarkEach, List.map_cons, List.map_cons, hu,
      ih (hw.step hstep) hmore]

/-- The arguments of a narrow keyword are put one behind the other. -/
theorem tags_resolveNarrow {standing : Standing} {hasLocals hasLocals' : Bool}
    (hi : standing.inside ≠ none)
    (hlast : ∀ a ∈ ts, ∀ t ∈ a.children.getLast?, t.isSpacing = false)
    (h : (resolveNarrow ctx ts standing hasLocals).result = .ok (nodes, hasLocals')) :
    (unmarkEach nodes).map tag = (ts.flatMap Tree.children).map tag := by
  induction ts generalizing standing hasLocals nodes with
  | nil =>
    obtain ⟨rfl, -⟩ := resolveNarrow_nil h
    rw [unmarkEach]
    rfl
  | cons a ts ih =>
    obtain ⟨out, v, more, hout, hmore, rfl⟩ := resolveNarrow_cons h
    have htags := tags_resolveSequence ⟨hi, rfl⟩ hout
    have hinside : { standing with isGlobal := v.standing.isGlobal }.inside ≠ none := hi
    -- the argument ends in a node that is no white space, so nothing is trimmed
    have htrim : trimSpacing out = out := by
      refine trimSpacing_eq_self fun t ht => ?_
      have hend : (a.children.map tag).getLast? = some (tag (unmark t)) := by
        rw [← htags, unmarkEach_eq_map, List.map_map, List.getLast?_map, ht]
        rfl
      rw [List.getLast?_map] at hend
      obtain ⟨u, hu, htag⟩ := Option.map_eq_some_iff.mp hend
      have hspace : u.isSpacing = (unmark t).isSpacing := congrArg (·.1.isSpacing) htag
      rw [← isSpacing_unmark, ← hspace]
      exact hlast a List.mem_cons_self u hu
    rw [htrim, unmarkEach_append, List.map_append, htags, List.flatMap_cons, List.map_append,
      ih hinside (fun b hb => hlast b (List.mem_cons_of_mem a hb)) hmore]

/-! ### Wherever the keyword stands -/

/-- A step from this node puts the arguments of every narrow keyword in it side
by side. -/
def Joins (ctx : Context) (t : Tree) : Prop :=
  ∀ (w w' : Walk) (nodes : List Tree), Step ctx w t nodes w' →
    ∀ k ∈ narrowsOf t, Joined k nodes

theorem joined_resolveSequence (hj : ∀ t ∈ ts, Joins ctx t)
    (h : (resolveSequence ctx ts w).result = .ok (nodes, w')) :
    ∀ k ∈ narrowsEach ts, Joined k nodes := by
  induction ts generalizing w nodes with
  | nil =>
    intro k hk
    rw [narrowsEach] at hk
    cases hk
  | cons t ts ih =>
    obtain ⟨out, v, more, hstep, hmore, rfl⟩ := resolveSequence_cons h
    intro k hk
    rw [narrowsEach] at hk
    rcases List.mem_append.mp hk with hk | hk
    · exact (hj t List.mem_cons_self w v out hstep k hk).append [] more
    · have := (ih (fun u hu => hj u (List.mem_cons_of_mem t hu)) hmore k hk).append out []
      rwa [List.append_nil] at this

/-- The last node of a narrow keyword's contents is no white space. -/
theorem getLast?_contents {arguments : List Tree}
    (h : ∀ a ∈ arguments, ∀ t ∈ a.children.getLast?, t.isSpacing = false) :
    ∀ t ∈ (arguments.flatMap Tree.children).getLast?, t.isSpacing = false := by
  induction arguments with
  | nil => simp
  | cons a arguments ih =>
    intro t ht
    rw [List.flatMap_cons, List.getLast?_append] at ht
    rcases Option.or_eq_some_iff.mp ht with ht | ⟨-, ht⟩
    · exact ih (fun b hb => h b (List.mem_cons_of_mem a hb)) t ht
    · exact h a List.mem_cons_self t ht

theorem narrowsOf_of_selector {a : Tree} (h : a.kind = .selector) :
    narrowsOf a = narrowsEach a.children := by
  obtain ⟨kind, spaces, start, children⟩ := a
  obtain rfl : kind = .selector := h
  rw [narrowsOf]
  rfl

theorem narrowsOf_leaf {kind : Selector.Kind} (h : kind.isLeaf) (spaces : Spaces) (start : Nat) :
    narrowsOf (.leaf kind spaces start) = [] := by
  cases kind with
  | root | selector => cases h
  | pseudo name hasArguments =>
    cases hasArguments with
    | true => cases h
    | false => simp [Tree.leaf, narrowsOf]
  | _ => simp [Tree.leaf, narrowsOf]

/-- In a list that was read the arguments of a narrow keyword do not end in
white space. -/
theorem getLast?_of_mem_narrowsOf (h : t.IsNeat) {k : Tree} (hk : k ∈ narrowsOf t) :
    ∀ u ∈ (contents k).getLast?, u.isSpacing = false := by
  induction h with
  | leaf spaces start hleaf =>
    rw [narrowsOf_leaf hleaf] at hk
    cases hk
  | call name spaces start hselector ht _ ih =>
    rw [narrowsOf] at hk
    split at hk
    next =>
      obtain rfl := List.mem_singleton.mp hk
      exact getLast?_contents fun a ha => (ht a ha).last
    next =>
      split at hk
      next => cases hk
      next =>
        obtain ⟨a, ha, hk⟩ := mem_narrowsEach.mp hk
        rw [narrowsOf_of_selector (hselector a ha)] at hk
        obtain ⟨u, hu, hk⟩ := mem_narrowsEach.mp hk
        exact ih a ha u hu hk

/-- An alternative has a row for each narrow keyword in it. -/
theorem sharesRow_of_resolveSequence {a : Tree} (hk : a.kind = .selector)
    (hneat : ∀ t ∈ a.children, t.IsNeat) (hj : ∀ t ∈ a.children, Joins ctx t)
    (h : (resolveSequence ctx a.children w).result = .ok (nodes, w')) :
    ∀ k ∈ narrowsOf a,
      SharesRow k (rowsOf (unmark (.node .selector a.spaces a.start (trimSpacing nodes)))) := by
  intro k hmem
  rw [narrowsOf_of_selector hk] at hmem
  obtain ⟨t, ht, hkt⟩ := mem_narrowsEach.mp hmem
  exact (joined_resolveSequence hj h k hmem).sharesRow
    (getLast?_of_mem_narrowsOf (hneat t ht) hkt) _ _

/-- Alternatives have their rows one after the other. -/
theorem sharesRow_cons {a b : Tree} {as bs : List Tree}
    (h : ∀ k ∈ narrowsOf a, SharesRow k (rowsOf (unmark b)))
    (hs : ∀ k ∈ narrowsEach as, SharesRow k (rowsEach (unmarkEach bs))) :
    ∀ k ∈ narrowsEach (a :: as), SharesRow k (rowsEach (unmarkEach (b :: bs))) := by
  intro k hk
  rw [narrowsEach] at hk
  rw [unmarkEach, rowsEach]
  rcases List.mem_append.mp hk with hk | hk
  · exact (h k hk).mono (List.subset_append_left _ _)
  · exact (hs k hk).mono (List.subset_append_right _ _)

theorem sharesRow_of_resolveArguments {standing : Standing} {hasLocals hasLocals' : Bool}
    (hk : ∀ a ∈ ts, a.kind = .selector) (hneat : ∀ a ∈ ts, ∀ t ∈ a.children, t.IsNeat)
    (hj : ∀ a ∈ ts, ∀ t ∈ a.children, Joins ctx t)
    (h : (resolveArguments ctx ts standing hasLocals).result = .ok (nodes, hasLocals')) :
    ∀ k ∈ narrowsEach ts, SharesRow k (rowsEach (unmarkEach nodes)) := by
  induction ts generalizing standing hasLocals nodes with
  | nil =>
    intro k hmem
    rw [narrowsEach] at hmem
    cases hmem
  | cons a ts ih =>
    obtain ⟨out, v, more, hout, hmore, rfl⟩ := resolveArguments_cons h
    refine sharesRow_cons ?_ (ih (fun b hb => hk b (List.mem_cons_of_mem a hb))
      (fun b hb => hneat b (List.mem_cons_of_mem a hb))
      (fun b hb => hj b (List.mem_cons_of_mem a hb)) hmore)
    exact sharesRow_of_resolveSequence (hk a List.mem_cons_self) (hneat a List.mem_cons_self)
      (hj a List.mem_cons_self) hout

/-- Every node of a list that was read joins the arguments of the narrow
keywords in it. -/
theorem joins_of_isNeat (h : t.IsNeat) : Joins ctx t := by
  induction h with
  | leaf spaces start hleaf =>
    intro w w' nodes _ k hk
    rw [narrowsOf_leaf hleaf] at hk
    cases hk
  | call name spaces start hselector ht hneat ih =>
    intro w w' nodes hstep k hk
    rw [narrowsOf] at hk
    cases hstep with
    | narrow _ hkeyword _ _ ha =>
      rw [hkeyword] at hk
      obtain rfl := List.mem_singleton.mp hk
      left
      rw [tags_surround, tags_resolveNarrow (by simp) (fun a ha => (ht a ha).last) ha]
      exact List.infix_rfl
    | exchange _ hkeyword hx =>
      rw [hkeyword, hx] at hk
      cases hk
    | call _ hkeyword hx ha =>
      rw [hkeyword, hx] at hk
      have hrow := sharesRow_of_resolveArguments hselector hneat ih ha k hk
      right
      have hforeign : isForeign (.pseudo name true) = false := hx
      simp only [unmarkEach, unmark, marked?_eq_none hkeyword, hforeign, rowsEach,
        List.append_nil, Bool.false_eq_true, if_false, rowsOf]
      exact hrow
    | name _ hn => cases hn
    | keep _ _ _ hp => cases (hp name true rfl).1

end Walks

/-! ### Alternatives stay apart -/

/-- The nodes that are no white space. -/
def solid (ts : List Tree) : List (Selector.Kind × Nat) :=
  (ts.filter fun t => !t.isSpacing).map tag

mutual

theorem le_depth_of_mem_entriesOf : ∀ (t : Tree) {depth : Nat} {gap : Option Bool} {e : Entry},
    e ∈ entriesOf depth gap t → depth ≤ e.depth
  | .node kind _ start children, depth, gap, e, h => by
    rw [entriesOf] at h
    split at h
    next =>
      obtain rfl := List.mem_singleton.mp h
      exact Nat.le_refl _
    next =>
      rcases List.mem_cons.mp h with rfl | h
      · exact Nat.le_refl _
      · exact Nat.le_of_succ_le (le_depth_of_mem_entriesAlong children h)

theorem le_depth_of_mem_entriesAlong : ∀ (ts : List Tree) {depth : Nat} {gap : Option Bool}
    {e : Entry}, e ∈ entriesAlong depth gap ts → depth ≤ e.depth
  | [], depth, gap, e, h => by
    rw [entriesAlong_nil] at h
    cases h
  | t :: ts, depth, gap, e, h => by
    rw [entriesAlong] at h
    split at h
    next => exact le_depth_of_mem_entriesAlong ts h
    next =>
      rcases List.mem_append.mp h with h | h
      · exact le_depth_of_mem_entriesOf t h
      · exact le_depth_of_mem_entriesAlong ts h

end

/-- The preorder of a node has the node and, deeper, what is below it. -/
theorem filter_entriesOf (depth : Nat) (gap : Option Bool) (t : Tree) :
    ((entriesOf depth gap t).filter (·.depth = depth)).map (fun e => (e.kind, e.start)) =
      [tag t] := by
  obtain ⟨kind, spaces, start, children⟩ := t
  have hbelow : (entriesAlong (depth + 1) none children).filter (·.depth = depth) = [] := by
    refine List.filter_eq_nil_iff.mpr fun e he => ?_
    have := le_depth_of_mem_entriesAlong children he
    simp only [decide_eq_true_eq]
    omega
  rw [entriesOf]
  split
  · simp [tag, Tree.kind, Tree.start]
  · simp [hbelow, tag, Tree.kind, Tree.start]

/-- The preorder of a sequence shows its nodes but for white space. -/
theorem filter_entriesAlong (depth : Nat) (gap : Option Bool) (ts : List Tree) :
    ((entriesAlong depth gap ts).filter (·.depth = depth)).map (fun e => (e.kind, e.start)) =
      solid ts := by
  induction ts generalizing gap with
  | nil => rw [entriesAlong_nil]; rfl
  | cons t ts ih =>
    rw [entriesAlong]
    split
    next hs => rw [ih, solid, solid, List.filter_cons_of_neg (by simp [hs])]
    next hs =>
      rw [List.filter_append, List.map_append, filter_entriesOf, ih, solid, solid,
        List.filter_cons_of_pos (by simpa using hs), List.map_cons]
      rfl

section Lists

variable {ctx : Context} {isGlobal : Bool} {selector : String} {agreed : Option Bool}
  {ts outs : List Tree} {r : Resolution}

/-- Each alternative gives one, with its own nodes. -/
theorem forall₂_resolveAlternatives (ht : ∀ a ∈ ts, a.IsNeatAlternative)
    (h : (resolveAlternatives ctx isGlobal selector agreed ts).result = .ok (outs, r)) :
    List.Forall₂ (fun a b => solid (unmarkEach b.children) = solid (spliceEach a.children))
      ts outs := by
  induction ts generalizing agreed outs r with
  | nil =>
    obtain ⟨rfl, -⟩ := resolveAlternatives_nil h
    exact .nil
  | cons a ts ih =>
    obtain ⟨nodes, w, more, q, hnodes, -, hmore, rfl, -⟩ := resolveAlternatives_cons h
    have ha := ht a List.mem_cons_self
    have hmatch := matches_begin (fun t hmem => conserves_of_isNeat (ha.neat t hmem)) ha.tidy hnodes
    refine .cons ?_ (ih (fun b hb => ht b (List.mem_cons_of_mem a hb)) hmore)
    have hentries := hmatch.entries_trimSpacing 0
    rw [← filter_entriesAlong 0 none, ← filter_entriesAlong 0 none, ← hentries]
    rfl

/-- The arguments of each narrow keyword share a row. -/
theorem sharesRow_of_resolveAlternatives (ht : ∀ a ∈ ts, a.IsNeatAlternative)
    (h : (resolveAlternatives ctx isGlobal selector agreed ts).result = .ok (outs, r)) :
    ∀ k ∈ narrowsEach ts, SharesRow k (rowsEach (unmarkEach outs)) := by
  induction ts generalizing agreed outs r with
  | nil =>
    intro k hmem
    rw [narrowsEach] at hmem
    cases hmem
  | cons a ts ih =>
    obtain ⟨nodes, w, more, q, hnodes, -, hmore, rfl, -⟩ := resolveAlternatives_cons h
    have ha := ht a List.mem_cons_self
    refine sharesRow_cons ?_ (ih (fun b hb => ht b (List.mem_cons_of_mem a hb)) hmore)
    exact sharesRow_of_resolveSequence ha.kind ha.neat
      (fun t ht => joins_of_isNeat (ha.neat t ht)) hnodes

end Lists

/-- **The arguments of a narrow keyword end up in one complex selector.** For
every narrow keyword of the list that was read, outside of exchanges, the nodes
of all its arguments stand side by side and in order in one alternative of the
resolved list or of a pseudo-class in it. The alternatives around it stay
apart: the resolved list has one alternative for each that was read, and it
holds the nodes of that one alone. -/
theorem narrow_arguments_share_row {ctx : Context} {isGlobal : Bool} {source : String}
    {t out : Tree} {r : Resolution} (hp : Selector.parse source = .ok t)
    (h : (resolve ctx isGlobal t).result = .ok (out, r)) :
    (∀ k ∈ narrowsOf t, SharesRow k (rowsOf (unmark out))) ∧
      List.Forall₂ (fun a b => solid (unmarkEach b.children) = solid (spliceEach a.children))
        t.children out.children := by
  have hneat := Selector.isNeatAlternative_of_parse hp
  obtain ⟨p, -, -, rfl⟩ := Selector.parsed_of_parseWithin hp
  obtain ⟨outs, hr, rfl⟩ := resolve_eq_ok h
  refine ⟨?_, forall₂_resolveAlternatives hneat hr⟩
  have hmark : ∀ us, marked? .root us = none := fun _ => rfl
  have hforeign : isForeign .root = false := rfl
  simp only [narrowsOf, unmark, hmark, hforeign, Bool.false_eq_true, if_false, rowsOf]
  exact sharesRow_of_resolveAlternatives hneat hr

/-- Three arguments inside of another pseudo-class, the second of them empty,
with combinators and a name that is marked. -/
theorem narrow_arguments_share_row_nested :
    ∃ t out r, Selector.parse ":not(x :local(.a b,,#c > d)) :global e, .f" = .ok t ∧
      (resolve ⟨[], false⟩ true t).result = .ok (out, r) ∧
      (narrowsOf t).map (fun k => (contents k).map (·.kind.text)) =
        [[".a", " ", "b", "#c", ">", "d"]] ∧
      (∀ k ∈ narrowsOf t, SharesRow k (rowsOf (unmark out))) ∧
      List.Forall₂ (fun a b => solid (unmarkEach b.children) = solid (spliceEach a.children))
        t.children out.children := by
  have hok :
      (Selector.parse ":not(x :local(.a b,,#c > d)) :global e, .f").toOption.any fun t =>
        (resolve ⟨[], false⟩ true t).result.toOption.any fun _ =>
          (narrowsOf t).map (fun k => (contents k).map (·.kind.text)) =
            [[".a", " ", "b", "#c", ">", "d"]] := by
    decide +kernel
  obtain ⟨t, ht, hok⟩ := exists_ok_of_any hok
  obtain ⟨⟨out, r⟩, hr, hcontents⟩ := exists_ok_of_any hok
  exact ⟨t, out, r, ht, hr, of_decide_eq_true hcontents, narrow_arguments_share_row ht hr⟩

/-- Two arguments become one compound, and read again they are one alternative. -/
theorem arguments_joined :
    ∃ t out r u, Selector.parse ":global(.a,.b)" = .ok t ∧
      (resolve ⟨[], false⟩ false t).result = .ok (out, r) ∧ out.print = ".a.b" ∧
      Selector.parse out.print = .ok u ∧
      u.children.map (fun a => a.children.map Tree.kind) = [[.className "a", .className "b"]] := by
  have hok :
      (Selector.parse ":global(.a,.b)").toOption.any fun t =>
        (resolve ⟨[], false⟩ false t).result.toOption.any fun q =>
          q.1.print = ".a.b" &&
            (Selector.parse q.1.print).toOption.any fun u =>
              u.children.map (fun a => a.children.map Tree.kind) =
                [[.className "a", .className "b"]] := by
    decide +kernel
  obtain ⟨t, ht, hok⟩ := exists_ok_of_any hok
  obtain ⟨⟨out, r⟩, hr, hok⟩ := exists_ok_of_any hok
  obtain ⟨hprint, hread⟩ := (Bool.and_eq_true _ _).mp hok
  obtain ⟨u, hu, hkinds⟩ := exists_ok_of_any hread
  exact ⟨t, out, r, u, ht, hr, of_decide_eq_true hprint, hu, of_decide_eq_true hkinds⟩

end Scope
end StyleScope
