/-
# Keywords inside of narrow keywords

No keyword may stand in the argument of a narrow one, narrow or broad itself,
at any depth and whatever other pseudo-classes are in between. Only what is
exchanged with other sheets is not looked into. `nestings` finds the keywords
that do, each with each narrow keyword around it.

The walk that resolves a selector list knows at most one narrow keyword around
it, and that is all that there are: it enters the arguments of a narrow keyword
only where none is around, so behind a refused keyword it never goes on. A list
that is resolved has no such keyword (`isFlat_of_isSimple`), and one that is
refused because of two keywords has the one inside of the other
(`mem_nestingsOf_of_failure`).

Key definitions: `Scope.Nesting`, `Scope.nestings`.
Key theorems: `Scope.isFlat_of_isSimple`, `Scope.mem_nestingsOf_of_failure`,
`Scope.nested_keywords_refused`.
-/
import StyleScope.Proofs.Splicing

namespace StyleScope
namespace Scope

open Selector (Tree Spaces)

/-! ### Keywords around keywords -/

/-- A keyword in the argument of a narrow one. -/
structure Nesting where
  outer : Keyword
  inner : Keyword
  deriving DecidableEq, Repr

/-- The keyword that a node of this kind is, narrow or broad. -/
def nodeKeyword? : Selector.Kind → Option Keyword
  | .pseudo name _ => Keyword.ofPseudo? name
  | _ => none

/-- The narrow keyword that a node of this kind is. -/
def narrowKeyword? : Selector.Kind → Option Keyword
  | .pseudo name true => Keyword.ofPseudo? name
  | _ => none

mutual

/-- The keywords in a node, each with each narrow keyword around it. Those in
`around` are around the node, and exchanges are not looked into. -/
def nestingsOf (around : List Keyword) : Tree → List Nesting
  | .node kind _ _ children =>
    if isForeign kind then []
    else
      (nodeKeyword? kind).toList.flatMap (fun inner => around.map (Nesting.mk · inner)) ++
        nestingsEach ((narrowKeyword? kind).toList ++ around) children

def nestingsEach (around : List Keyword) : List Tree → List Nesting
  | [] => []
  | t :: ts => nestingsOf around t ++ nestingsEach around ts

end

/-- The keywords of a selector list that stand in the argument of a narrow
keyword, at any depth. -/
def nestings (t : Tree) : List Nesting :=
  nestingsOf [] t

theorem nestingsEach_eq_flatMap (around : List Keyword) (ts : List Tree) :
    nestingsEach around ts = ts.flatMap (nestingsOf around) := by
  induction ts with
  | nil =>
    rw [nestingsEach]
    rfl
  | cons t ts ih => rw [nestingsEach, List.flatMap_cons, ih]

/-- What holds others and is no pseudo-class is around nothing. -/
theorem nestingsOf_list {t : Tree} (h : t.kind = .selector ∨ t.kind = .root)
    (around : List Keyword) : nestingsOf around t = nestingsEach around t.children := by
  obtain ⟨kind, spaces, start, children⟩ := t
  rcases h with rfl | rfl
  all_goals
    rw [nestingsOf]
    rfl

/-- The nodes in the arguments of a pseudo-class are all that is looked into. -/
theorem mem_nestingsEach {around : List Keyword} {arguments : List Tree} {n : Nesting}
    (hk : ∀ a ∈ arguments, a.kind = .selector) :
    n ∈ nestingsEach around arguments ↔
      ∃ a ∈ arguments, ∃ t ∈ a.children, n ∈ nestingsOf around t := by
  rw [nestingsEach_eq_flatMap, List.mem_flatMap]
  refine exists_congr fun a => and_congr_right fun ha => ?_
  rw [nestingsOf_list (.inl (hk a ha)), nestingsEach_eq_flatMap, List.mem_flatMap]

/-- A keyword is inside of all that is around it, and looked into if it is
narrow. -/
theorem nestingsOf_keyword {name : String} {keyword : Keyword}
    (hk : Keyword.ofPseudo? name = some keyword) (around : List Keyword) (spaces : Spaces)
    (start : Nat) (arguments : List Tree) :
    nestingsOf around (.node (.pseudo name true) spaces start arguments) =
      around.map (Nesting.mk · keyword) ++ nestingsEach (keyword :: around) arguments := by
  have hf : isForeign (.pseudo name true) = false := not_isExchange_of_keyword hk
  rw [nestingsOf, hf, nodeKeyword?, narrowKeyword?, hk]
  simp

/-- Any other pseudo-class is only looked into. -/
theorem nestingsOf_pseudo {name : String} (hk : Keyword.ofPseudo? name = none)
    (hx : isExchange name = false) (around : List Keyword) (spaces : Spaces) (start : Nat)
    (arguments : List Tree) :
    nestingsOf around (.node (.pseudo name true) spaces start arguments) =
      nestingsEach around arguments := by
  have hf : isForeign (.pseudo name true) = false := hx
  rw [nestingsOf, hf, nodeKeyword?, narrowKeyword?, hk]
  simp

theorem nestingsOf_leaf {kind : Selector.Kind} (around : List Keyword) (spaces : Spaces)
    (start : Nat) :
    nestingsOf around (.leaf kind spaces start) =
      (nodeKeyword? kind).toList.flatMap fun inner => around.map (Nesting.mk · inner) := by
  rw [Tree.leaf, nestingsOf, nestingsEach, List.append_nil]
  cases hk : nodeKeyword? kind with
  | none => simp
  | some keyword =>
    cases kind with
    | pseudo name hasArguments =>
      have hf : isForeign (.pseudo name hasArguments) = false := not_isExchange_of_keyword hk
      rw [hf]
      rfl
    | _ => cases hk

theorem nestingsOf_exchange {name : String} (hx : isExchange name) (hasArguments : Bool)
    (around : List Keyword) (spaces : Spaces) (start : Nat) (children : List Tree) :
    nestingsOf around (.node (.pseudo name hasArguments) spaces start children) = [] := by
  have hf : isForeign (.pseudo name hasArguments) = true := hx
  rw [nestingsOf, if_pos hf]

section Walks

variable {ctx : Context}

/-! ### Lists that are resolved -/

/-- A step from this node is taken only if it has no keyword inside of another
or of the one around the walk. -/
def IsFlat (ctx : Context) (t : Tree) : Prop :=
  ∀ (w w' : Walk) (nodes : List Tree), Step ctx w t nodes w' →
    nestingsOf w.standing.inside.toList t = []

theorem flat_resolveSequence {ts nodes : List Tree} {w w' : Walk}
    (ht : ∀ t ∈ ts, IsFlat ctx t) (h : (resolveSequence ctx ts w).result = .ok (nodes, w')) :
    nestingsEach w.standing.inside.toList ts = [] := by
  induction ts generalizing w nodes with
  | nil => rw [nestingsEach]
  | cons t ts ih =>
    obtain ⟨out, v, more, hstep, hmore, -⟩ := resolveSequence_cons h
    have hrest := ih (fun u hu => ht u (List.mem_cons_of_mem t hu)) hmore
    rw [inside_of_step hstep] at hrest
    rw [nestingsEach, ht t List.mem_cons_self w v out hstep, hrest]
    rfl

theorem flat_resolveRows {afterSpace : Bool} {ts : List Tree} {rows : List (List Tree)}
    {standing : Standing} {hasLocals hasLocals' : Bool} (hk : ∀ a ∈ ts, a.kind = .selector)
    (ht : ∀ a ∈ ts, ∀ t ∈ a.children, IsFlat ctx t)
    (h : (resolveRows ctx afterSpace ts standing hasLocals).result = .ok (rows, hasLocals')) :
    nestingsEach standing.inside.toList ts = [] := by
  induction ts generalizing standing hasLocals rows with
  | nil => rw [nestingsEach]
  | cons a ts ih =>
    obtain ⟨out, v, more, hout, hmore, -⟩ := resolveRows_cons h
    have hfirst := flat_resolveSequence (ht a List.mem_cons_self) hout
    have hrest := ih (fun b hb => hk b (List.mem_cons_of_mem a hb))
      (fun b hb => ht b (List.mem_cons_of_mem a hb)) hmore
    rw [nestingsEach, nestingsOf_list (.inl (hk a List.mem_cons_self)), hfirst]
    exact hrest

/-- **The walk passes no keyword inside of another.** -/
theorem isFlat_of_isSimple {t : Tree} (h : t.IsSimple) : IsFlat ctx t := by
  induction h with
  | @leaf kind spaces start hleaf =>
    intro w w' nodes hstep
    rw [nestingsOf_leaf]
    cases hstep with
    | broad _ _ hi => rw [hi]; simp
    | narrow => cases hleaf
    | call => cases hleaf
    | exchange _ hk => rw [nodeKeyword?, hk]; rfl
    | name _ hn =>
      cases kind with
      | className | idName => rfl
      | _ => cases hn
    | keep _ _ _ hp =>
      cases kind with
      | pseudo name hasArguments =>
        rw [nodeKeyword?, (hp name hasArguments rfl).2.1]
        rfl
      | _ => rfl
    | _ => rfl
  | call name spaces start hne hsel _ ih =>
    intro w w' nodes hstep
    cases hstep with
    | narrow _ hk _ hi ha =>
      obtain ⟨rows, hrows, -⟩ := rows_of_resolveNarrow ha
      have harguments := flat_resolveRows hsel ih hrows
      rw [nestingsOf_keyword hk, hi]
      exact harguments
    | exchange _ _ hx => exact nestingsOf_exchange hx ..
    | call _ hk hx ha =>
      obtain ⟨rows, hrows, -⟩ := rows_of_resolveArguments ha
      rw [nestingsOf_pseudo hk hx]
      exact flat_resolveRows hsel ih hrows
    | name _ hn => cases hn
    | keep _ _ _ hp => cases (hp name true rfl).1

/-! ### Lists that are refused -/

/-- A walk along nodes fails at one of them, inside of the same keyword. -/
theorem failure_of_resolveSequence {ts : List Tree} {w : Walk} {e : Error}
    (h : (resolveSequence ctx ts w).result = .error e) :
    ∃ t ∈ ts, ∃ v : Walk, v.standing.inside = w.standing.inside ∧ Failure ctx v t e := by
  induction ts generalizing w with
  | nil =>
    unfold resolveSequence at h
    cases h
  | cons t ts ih =>
    unfold resolveSequence at h
    rcases Traced.bind_eq_error h with h | ⟨⟨out, v⟩, hout, h⟩
    · exact ⟨t, List.mem_cons_self, w, rfl, failure_of_resolveNode h⟩
    · obtain ⟨u, hu, v', hv', hf⟩ := ih (Traced.eq_error_of_bind h fun _ => rfl)
      refine ⟨u, List.mem_cons_of_mem t hu, v', hv'.trans ?_, hf⟩
      exact inside_of_step (step_of_resolveNode hout)

theorem failure_of_resolveRows {afterSpace : Bool} {ts : List Tree} {standing : Standing}
    {hasLocals : Bool} {e : Error}
    (h : (resolveRows ctx afterSpace ts standing hasLocals).result = .error e) :
    ∃ a ∈ ts, ∃ t ∈ a.children, ∃ v : Walk,
      v.standing.inside = standing.inside ∧ Failure ctx v t e := by
  induction ts generalizing standing hasLocals with
  | nil => cases h
  | cons a ts ih =>
    rcases Traced.bind_eq_error h with h | ⟨⟨out, v⟩, -, h⟩
    · exact ⟨a, List.mem_cons_self, failure_of_resolveSequence h⟩
    · obtain ⟨b, hb, hrest⟩ := ih (Traced.eq_error_of_bind h fun _ => rfl)
      exact ⟨b, List.mem_cons_of_mem a hb, hrest⟩

/-- **A node that is refused because of two keywords has the one inside of the
other, or the outer one is around it.** -/
theorem mem_nestingsOf_of_failure {t : Tree} (ht : t.IsSimple) {w : Walk} {outer inner : Keyword}
    (h : Failure ctx w t (.nestedScope outer inner)) :
    ⟨outer, inner⟩ ∈ nestingsOf w.standing.inside.toList t := by
  induction ht generalizing w with
  | @leaf kind spaces start hleaf =>
    rw [nestingsOf_leaf]
    cases h with
    | demand hd => obtain ⟨_, _, he⟩ := exists_missing_of_demand hd; cases he
    | nested hk hi =>
      rw [nodeKeyword?, hk, hi]
      simp
    | narrow => cases hleaf
    | call => cases hleaf
  | call name spaces start hne hsel _ ih =>
    cases h with
    | demand hd => obtain ⟨_, _, he⟩ := exists_missing_of_demand hd; cases he
    | nested hk hi =>
      rw [nestingsOf_keyword hk, hi]
      simp
    | narrow hk hi ha =>
      rw [resolveNarrow_eq_resolveRows] at ha
      obtain ⟨a, ha, t, ht, v, hv, hf⟩ :=
        failure_of_resolveRows (Traced.eq_error_of_bind ha fun _ => rfl)
      have hmem := ih a ha t ht hf
      rw [hv] at hmem
      rw [nestingsOf_keyword hk, hi]
      exact (mem_nestingsEach hsel).mpr ⟨a, ha, t, ht, hmem⟩
    | call hk hx ha =>
      rw [resolveArguments_eq_resolveRows] at ha
      obtain ⟨a, ha, t, ht, v, hv, hf⟩ :=
        failure_of_resolveRows (Traced.eq_error_of_bind ha fun _ => rfl)
      have hmem := ih a ha t ht hf
      rw [hv] at hmem
      rw [nestingsOf_pseudo hk hx]
      exact (mem_nestingsEach hsel).mpr ⟨a, ha, t, ht, hmem⟩

/-- A list is resolved alternative by alternative, and is refused because of two
keywords only at one of its alternatives. -/
theorem flat_resolveAlternatives {isGlobal : Bool} {selector : String} {agreed : Option Bool}
    {ts : List Tree} (hts : ∀ a ∈ ts, a.IsAlternative) :
    (∀ q, (resolveAlternatives ctx isGlobal selector agreed ts).result = .ok q →
      nestingsEach [] ts = []) ∧
    ∀ outer inner,
      (resolveAlternatives ctx isGlobal selector agreed ts).result =
          .error (.nestedScope outer inner) → ⟨outer, inner⟩ ∈ nestingsEach [] ts := by
  induction ts generalizing agreed with
  | nil =>
    rw [nestingsEach]
    exact ⟨fun _ _ => rfl, fun _ _ h => by cases h⟩
  | cons a ts ih =>
    obtain ⟨hk, hs⟩ := hts a List.mem_cons_self
    have hts' : ∀ b ∈ ts, b.IsAlternative := fun b hb => hts b (List.mem_cons_of_mem a hb)
    rw [nestingsEach, nestingsOf_list (.inl hk)]
    constructor
    · rintro ⟨outs, r⟩ h
      obtain ⟨nodes, w, more, q, hnodes, -, hmore, -⟩ := resolveAlternatives_cons h
      have hfirst : nestingsEach [] a.children = [] :=
        flat_resolveSequence (fun t ht => isFlat_of_isSimple (hs t ht)) hnodes
      rw [hfirst, (ih hts').1 _ hmore]
      rfl
    · intro outer inner h
      unfold resolveAlternatives at h
      rcases Traced.bind_eq_error h with h | ⟨⟨b, w⟩, -, h⟩
      · obtain ⟨t, ht, v, hv, hf⟩ :=
          failure_of_resolveSequence (Traced.eq_error_of_bind h fun _ => rfl)
        have hmem := mem_nestingsOf_of_failure (hs t ht) hf
        rw [hv] at hmem
        refine List.mem_append_left _ ?_
        rw [nestingsEach_eq_flatMap]
        exact List.mem_flatMap.mpr ⟨t, ht, hmem⟩
      · dsimp only at h
        split at h
        next =>
          exact List.mem_append_right _
            ((ih hts').2 outer inner (Traced.eq_error_of_bind h fun _ => rfl))
        next => cases h

end Walks

/-- **No keyword inside of a narrow one is accepted, and only such a keyword is
refused for it.** If a selector list is resolved, none of its keywords stands in
the argument of a narrow one, at any depth. And if it is refused because of two
keywords, the second stands in the argument of the first, which is narrow. -/
theorem nested_keywords_refused {ctx : Context} {isGlobal : Bool} {source : String} {t : Tree}
    (hp : Selector.parse source = .ok t) :
    (∀ out r, (resolve ctx isGlobal t).result = .ok (out, r) → nestings t = []) ∧
    ∀ outer inner, (resolve ctx isGlobal t).result = .error (.nestedScope outer inner) →
      ⟨outer, inner⟩ ∈ nestings t := by
  have hlist := Selector.isList_of_parse hp
  rw [nestings, nestingsOf_list (.inr hlist.kind)]
  constructor
  · intro out r h
    obtain ⟨outs, hr, -⟩ := resolve_eq_ok h
    exact (flat_resolveAlternatives hlist.alternatives).1 _ hr
  · intro outer inner h
    have hfails := Traced.eq_error_of_bind h fun _ => rfl
    exact (flat_resolveAlternatives hlist.alternatives).2 outer inner hfails

/-- A keyword in an exchange in a narrow one is accepted; one that is two
pseudo-classes deep in it is refused. -/
theorem nested_keywords_refused_deep :
    (∃ t out r, Selector.parse ":not(:local(.a:import(:global .b)), :global .c)" = .ok t ∧
      (resolve ⟨[], false⟩ false t).result = .ok (out, r) ∧ nestings t = []) ∧
    ∃ t, Selector.parse ".a:is(:local(.b, .c:not(.d:is(.e :global .f))))" = .ok t ∧
      (resolve ⟨[], false⟩ true t).result = .error (.nestedScope .localScope .globalScope) ∧
      ⟨.localScope, .globalScope⟩ ∈ nestings t := by
  constructor
  · have hok :
        (Selector.parse ":not(:local(.a:import(:global .b)), :global .c)").toOption.any fun t =>
          (resolve ⟨[], false⟩ false t).result.isOk := by
      decide +kernel
    obtain ⟨t, ht, hok⟩ := exists_ok_of_any hok
    obtain ⟨⟨out, r⟩, hr, hflat⟩ := exists_ok_of_isOk hok fun q hr =>
      (nested_keywords_refused ht).1 q.1 q.2 hr
    exact ⟨t, out, r, ht, hr, hflat⟩
  · have hok :
        (Selector.parse ".a:is(:local(.b, .c:not(.d:is(.e :global .f))))").toOption.any fun t =>
          ((resolve ⟨[], false⟩ true t).result.map fun _ => ()) =
            .error (.nestedScope .localScope .globalScope) := by
      decide +kernel
    obtain ⟨t, ht, hok⟩ := exists_ok_of_any hok
    have he := eq_error_of_map (of_decide_eq_true hok)
    exact ⟨t, ht, he, (nested_keywords_refused ht).2 _ _ he⟩

end Scope
end StyleScope
