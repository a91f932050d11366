/-
# Resolved lists are settled

A resolved list says by itself which names are local, so resolving it once more
in global scope gives it back. Its nodes are settled (`IsSettled`): there are no
broad keywords left, and the only narrow ones are the marks of single names,
each around a name that is resolved to its mark again. What is exchanged with
other sheets stays whatever it holds.

Every step of the walk gives settled nodes (`settles_of_isSimple`), and a walk
in global scope keeps those as they are (`IsSettled.keeps`). That the second
run reports the same about local parts follows from the list alone.

Key definitions: `Scope.IsSettled`, `Scope.Walk.IsOpen`.
Key theorems: `Scope.settles_of_isSimple`, `Scope.IsSettled.keeps`,
`Scope.resolve_resolved`.
-/
import StyleScope.Proofs.LocalParts

namespace StyleScope
namespace Scope

open Selector (Tree Spaces)

/-! ### Settled nodes -/

/-- What resolving leaves of a node. Nothing in it is a keyword but the marks of
names. -/
inductive IsSettled : Tree → Prop where
  | leaf {kind : Selector.Kind} (spaces : Spaces) (start : Nat) (hleaf : kind.isLeaf)
    (hk : ∀ name, kind = .pseudo name false → Keyword.ofPseudo? name = none)
    (hn : ∀ name, kind.name? = some name → name.text ≠ "") : IsSettled (.leaf kind spaces start)
  | mark {kind : Selector.Kind} {name : Selector.Name} (spaces : Spaces) (start : Nat)
    (hn : kind.name? = some name) (hne : name.text ≠ "") : IsSettled (markLocal kind spaces start)
  | exchange {name : String} (spaces : Spaces) (start : Nat) (arguments : List Tree)
    (hk : Keyword.ofPseudo? name = none) (hx : isExchange name) :
    IsSettled (.node (.pseudo name true) spaces start arguments)
  /-- There is no white space at the end of an argument. -/
  | call {name : String} {arguments : List Tree} (spaces : Spaces) (start : Nat)
    (hk : Keyword.ofPseudo? name = none) (hx : isExchange name = false)
    (hsel : ∀ a ∈ arguments, a.kind = .selector)
    (htrim : ∀ a ∈ arguments, trimSpacing a.children = a.children)
    (h : ∀ a ∈ arguments, ∀ t ∈ a.children, IsSettled t) :
    IsSettled (.node (.pseudo name true) spaces start arguments)

/-- The text around a node does not matter. -/
theorem IsSettled.withSpaces {t : Tree} (h : IsSettled t) (spaces : Spaces) :
    IsSettled (t.withSpaces spaces) := by
  cases h with
  | leaf _ start hleaf hk hn => exact .leaf spaces start hleaf hk hn
  | mark _ start hn hne => exact .mark spaces start hn hne
  | exchange _ start arguments hk hx => exact .exchange spaces start arguments hk hx
  | call _ start hk hx hsel htrim h => exact .call spaces start hk hx hsel htrim h

/-- The nodes are what resolving leaves in an alternative. There is no white space
at their end. -/
structure IsSettledRow (row : List Tree) : Prop where
  trim : trimSpacing row = row
  settled : ∀ t ∈ row, IsSettled t

theorem mem_of_mem_trimSpacing {t : Tree} {ts : List Tree} (h : t ∈ trimSpacing ts) : t ∈ ts := by
  obtain ⟨blanks, hsplit, -⟩ := exists_eq_trimSpacing_append ts
  rw [hsplit]
  exact List.mem_append_left _ h

theorem isSettledRow_trimSpacing {nodes : List Tree} (h : ∀ t ∈ nodes, IsSettled t) :
    IsSettledRow (trimSpacing nodes) where
  trim := List.rdropWhile_idempotent ..
  settled t ht := h t (mem_of_mem_trimSpacing ht)

/-- An alternative without white space at its end is put together as it was. -/
theorem selector_trimSpacing {a : Tree} (hk : a.kind = .selector)
    (htrim : trimSpacing a.children = a.children) :
    .node .selector a.spaces a.start (trimSpacing a.children) = a := by
  obtain ⟨kind, spaces, start, children⟩ := a
  rw [htrim, ← hk]
  rfl

theorem IsSettled.surround {ts : List Tree} (h : ∀ t ∈ ts, IsSettled t) (spaces : Spaces) :
    ∀ t ∈ Scope.surround spaces ts, IsSettled t := by
  refine surround_of_withSpaces (P := fun ts => ∀ t ∈ ts, IsSettled t) ?_ spaces h
  intro us t vs spaces h u hu
  rcases List.mem_append.mp hu with hu | hu
  · exact h u (List.mem_append_left _ hu)
  · rcases List.mem_cons.mp hu with rfl | hu
    · exact (h t (by simp)).withSpaces spaces
    · exact h u (by simp [hu])

section Walks

variable {ctx : Context}

/-! ### Resolving settles -/

/-- A step from this node gives settled nodes. -/
def Settles (ctx : Context) (t : Tree) : Prop :=
  ∀ (w w' : Walk) (nodes : List Tree), Step ctx w t nodes w' → ∀ u ∈ nodes, IsSettled u

theorem settled_resolveSequence {ts nodes : List Tree} {w w' : Walk}
    (ht : ∀ t ∈ ts, Settles ctx t) (h : (resolveSequence ctx ts w).result = .ok (nodes, w')) :
    ∀ u ∈ nodes, IsSettled u := by
  induction ts generalizing w nodes with
  | nil =>
    obtain ⟨rfl, -⟩ := resolveSequence_nil h
    simp
  | cons t ts ih =>
    obtain ⟨out, v, more, hstep, hmore, rfl⟩ := resolveSequence_cons h
    have hfirst := ht t List.mem_cons_self w v out hstep
    have hrest := ih (fun u hu => ht u (List.mem_cons_of_mem t hu)) hmore
    exact List.forall_mem_append.mpr ⟨hfirst, hrest⟩

/-- Every row is settled, without white space at its end. -/
theorem settled_resolveRows {afterSpace : Bool} {ts : List Tree} {rows : List (List Tree)}
    {standing : Standing} {hasLocals hasLocals' : Bool}
    (ht : ∀ a ∈ ts, ∀ t ∈ a.children, Settles ctx t)
    (h : (resolveRows ctx afterSpace ts standing hasLocals).result = .ok (rows, hasLocals')) :
    ∀ row ∈ rows, IsSettledRow row := by
  induction ts generalizing standing hasLocals rows with
  | nil =>
    obtain ⟨rfl, -⟩ := resolveRows_nil h
    simp
  | cons a ts ih =>
    obtain ⟨out, v, more, hout, hmore, rfl⟩ := resolveRows_cons h
    have hfirst := settled_resolveSequence (ht a List.mem_cons_self) hout
    have hrest := ih (fun b hb => ht b (List.mem_cons_of_mem a hb)) hmore
    exact List.forall_mem_cons.mpr ⟨isSettledRow_trimSpacing hfirst, hrest⟩

/-- **Every step from a node that was read gives settled nodes.** -/
theorem settles_of_isSimple {t : Tree} (h : t.IsSimple) : Settles ctx t := by
  induction h with
  | @leaf kind spaces start hleaf =>
    intro w w' nodes hstep
    have hkept (hk : ∀ name, kind = .pseudo name false → Keyword.ofPseudo? name = none)
        (hn : ∀ name, kind.name? = some name → name.text ≠ "") :
        ∀ u ∈ [Tree.leaf kind spaces start], IsSettled u := fun u hu =>
      List.mem_singleton.mp hu ▸ .leaf spaces start hleaf hk hn
    cases hstep with
    | dropSpace => simp
    | narrow => cases hleaf
    | broad =>
      -- the keyword leaves at most the white space in front of it
      split
      · simp
      · intro u hu
        rw [List.mem_singleton.mp hu]
        exact .leaf _ _ rfl (fun _ hk => by cases hk) fun _ hn => by cases hn
    | @exchange _ hasArguments _ _ _ _ hk =>
      cases hasArguments with
      | true => cases hleaf
      | false => exact hkept (fun _ he => by cases he; exact hk) fun _ hn => by cases hn
    | call => cases hleaf
    | name _ hn hne =>
      split
      · intro u hu
        rw [List.mem_singleton.mp hu]
        exact .mark spaces start hn hne
      · refine hkept (fun _ he => by rw [he] at hn; cases hn) fun name' hn' => ?_
        rw [hn] at hn'
        exact Option.some.inj hn' ▸ hne
    | keep _ _ hn hp =>
      refine hkept (fun text he => (hp text false he).2.1) fun name' hn' => ?_
      rw [hn] at hn'
      cases hn'
    | _ => exact hkept (fun _ hk => by cases hk) fun _ hn => by cases hn
  | call name spaces start hne hsel _ ih =>
    intro w w' nodes hstep
    cases hstep with
    | narrow _ _ _ _ ha =>
      obtain ⟨rows, hrows, rfl⟩ := rows_of_resolveNarrow ha
      have hsettled := settled_resolveRows ih hrows
      refine IsSettled.surround (fun u hu => ?_) spaces
      obtain ⟨row, hrow, hu⟩ := List.mem_flatten.mp hu
      exact (hsettled row hrow).settled u hu
    | exchange _ hk hx =>
      intro u hu
      rw [List.mem_singleton.mp hu]
      exact .exchange spaces start _ hk hx
    | call _ hk hx ha =>
      obtain ⟨rows, hrows, rfl⟩ := rows_of_resolveArguments ha
      have hsettled := settled_resolveRows ih hrows
      intro u hu
      rw [List.mem_singleton.mp hu]
      refine .call spaces start hk hx (fun a ha => (row_of_mem_withRow ha).1) (fun a ha => ?_)
        fun a ha => ?_
      · exact (hsettled _ (row_of_mem_withRow ha).2).trim
      · exact (hsettled _ (row_of_mem_withRow ha).2).settled
    | name _ hn => cases hn
    | keep _ _ _ hp => cases (hp name true rfl).1

theorem settled_resolveAlternatives {isGlobal : Bool} {selector : String} {agreed : Option Bool}
    {ts outs : List Tree} {r : Resolution} (ht : ∀ a ∈ ts, a.IsAlternative)
    (h : (resolveAlternatives ctx isGlobal selector agreed ts).result = .ok (outs, r)) :
    ∀ a ∈ outs, a.kind = .selector ∧ IsSettledRow a.children := by
  induction ts generalizing agreed outs r with
  | nil =>
    obtain ⟨rfl, -⟩ := resolveAlternatives_nil h
    simp
  | cons a ts ih =>
    obtain ⟨nodes, w, more, q, hnodes, -, hmore, rfl, -⟩ := resolveAlternatives_cons h
    have hsettles : ∀ t ∈ a.children, Settles ctx t := fun t hmem =>
      settles_of_isSimple ((ht a List.mem_cons_self).2 t hmem)
    have hfirst := settled_resolveSequence hsettles hnodes
    have hrest := ih (fun b hb => ht b (List.mem_cons_of_mem a hb)) hmore
    exact List.forall_mem_cons.mpr ⟨⟨rfl, isSettledRow_trimSpacing hfirst⟩, hrest⟩

/-! ### What is settled is kept -/

/-- The walk is in global scope, in no narrow keyword, and nothing is demanded
of the next node. -/
structure Walk.IsOpen (w : Walk) : Prop where
  isGlobal : w.standing.isGlobal = true
  inside : w.standing.inside = none
  demand : w.demand = .nothing

theorem Walk.IsOpen.demand_ne {w : Walk} (h : w.IsOpen) : ∀ k, w.demand ≠ .space k := by
  rw [h.demand]
  exact fun k hk => by cases hk

/-- An open walk keeps the node as it is, and stays open. -/
def Keeps (ctx : Context) (t : Tree) : Prop :=
  ∀ w : Walk, w.IsOpen → ∃ w' : Walk, Step ctx w t [t] w' ∧ w'.IsOpen

theorem keeps_resolveSequence {ts : List Tree} {w : Walk} (ht : ∀ t ∈ ts, Keeps ctx t)
    (hw : w.IsOpen) :
    ∃ w' : Walk, (resolveSequence ctx ts w).result = .ok (ts, w') ∧ w'.IsOpen := by
  induction ts generalizing w with
  | nil => exact ⟨w, result_resolveSequence_nil, hw⟩
  | cons t ts ih =>
    obtain ⟨v, hstep, hv⟩ := ht t List.mem_cons_self w hw
    obtain ⟨w', hmore, hw'⟩ := ih (fun u hu => ht u (List.mem_cons_of_mem t hu)) hv
    exact ⟨w', resolveSequence_of_step hstep hmore, hw'⟩

theorem keeps_resolveArguments {ts : List Tree} {standing : Standing} {hasLocals : Bool}
    (hsel : ∀ a ∈ ts, a.kind = .selector) (htrim : ∀ a ∈ ts, trimSpacing a.children = a.children)
    (ht : ∀ a ∈ ts, ∀ t ∈ a.children, Keeps ctx t) (hg : standing.isGlobal = true)
    (hi : standing.inside = none) :
    ∃ hasLocals', (resolveArguments ctx ts standing hasLocals).result = .ok (ts, hasLocals') := by
  induction ts generalizing standing hasLocals with
  | nil => exact ⟨hasLocals, result_resolveArguments_nil⟩
  | cons a ts ih =>
    obtain ⟨w, hfirst, hw⟩ := keeps_resolveSequence (ht a List.mem_cons_self)
      (w := .begin standing hasLocals) ⟨hg, hi, rfl⟩
    obtain ⟨hasLocals', hmore⟩ :
        ∃ hasLocals', (resolveArguments ctx ts { standing with isGlobal := w.standing.isGlobal }
          w.hasLocals).result = .ok (ts, hasLocals') :=
      ih (fun b hb => hsel b (List.mem_cons_of_mem a hb))
        (fun b hb => htrim b (List.mem_cons_of_mem a hb))
        (fun b hb => ht b (List.mem_cons_of_mem a hb)) hw.isGlobal hi
    have h := resolveArguments_of_resolveSequence hfirst hmore
    rw [selector_trimSpacing (hsel a List.mem_cons_self) (htrim a List.mem_cons_self)] at h
    exact ⟨hasLocals', h⟩

/-- The name under a mark is local, so it is marked again. -/
theorem resolveNarrow_mark {kind : Selector.Kind} {name : Selector.Name}
    (hn : kind.name? = some name) (hne : name.text ≠ "") (start : Nat) :
    (resolveNarrow ctx [.node .selector .none start [.leaf kind .none start]]
      ⟨false, true, some .localScope⟩ false).result =
        .ok ([markLocal kind .none start], true) := by
  let w : Walk := ⟨⟨false, true, some .localScope⟩, false, .nothing, false⟩
  have hmark : w.marks ctx name.text = true := by simp [w, Walk.marks, marksName]
  have hstep : Step ctx w (.leaf kind .none start) [markLocal kind .none start]
      (w.addLocals true).passed := by
    have h : Step ctx w (.leaf kind .none start) _ _ := .name (fun k hk => by cases hk) hn hne
    rwa [hmark] at h
  have hname : (resolveSequence ctx [.leaf kind .none start] w).result =
      .ok ([markLocal kind .none start], (w.addLocals true).passed) :=
    resolveSequence_of_step hstep result_resolveSequence_nil
  exact resolveNarrow_of_resolveSequence
    (t := .node .selector .none start [.leaf kind .none start]) hname result_resolveNarrow_nil

theorem keeps_mark {kind : Selector.Kind} {name : Selector.Name} (hn : kind.name? = some name)
    (hne : name.text ≠ "") (spaces : Spaces) (start : Nat) :
    Keeps ctx (markLocal kind spaces start) := by
  intro w hw
  have hlocal : Keyword.ofPseudo? Keyword.localScope.text = some .localScope := by decide
  have hstep : Step ctx w (markLocal kind spaces start)
      (surround spaces [markLocal kind .none start]) (w.addLocals true).passed :=
    .narrow hw.demand_ne hlocal
      ⟨_, List.mem_singleton.mpr rfl, List.cons_ne_nil (Tree.leaf kind .none start) []⟩ hw.inside
      (resolveNarrow_mark hn hne start)
  exact ⟨_, hstep, hw.isGlobal, hw.inside, rfl⟩

/-- In global scope a node that holds nothing and is no keyword is kept. -/
theorem keeps_leaf {kind : Selector.Kind} (hleaf : kind.isLeaf)
    (hk : ∀ name, kind = .pseudo name false → Keyword.ofPseudo? name = none)
    (hn : ∀ name, kind.name? = some name → name.text ≠ "") (spaces : Spaces) (start : Nat) :
    Keeps ctx (.leaf kind spaces start) := by
  intro w hw
  have hd := hw.demand_ne
  cases hname : kind.name? with
  | some name =>
    have hmarks : w.marks ctx name.text = false := by simp [Walk.marks, marksName, hw.isGlobal]
    have hstep : Step ctx w (.leaf kind spaces start) _ _ := .name hd hname (hn name hname)
    rw [hmarks] at hstep
    exact ⟨_, hstep, hw.isGlobal, hw.inside, rfl⟩
  | none =>
    cases kind with
    | root | selector => cases hleaf
    | className | idName => cases hname
    | nesting => exact ⟨_, .nesting hd, hw.isGlobal, hw.inside, rfl⟩
    | pseudo name hasArguments =>
      cases hasArguments with
      | true => cases hleaf
      | false =>
        cases hx : isExchange name with
        | true => exact ⟨_, .exchange hd (hk name rfl) hx, hw.isGlobal, hw.inside, rfl⟩
        | false =>
          refine ⟨_, .keep hd rfl rfl (fun _ _ he => ?_) (by simp), hw.isGlobal, hw.inside, rfl⟩
          cases he
          exact ⟨rfl, hk name rfl, hx⟩
    | combinator combinator text =>
      cases combinator with
      | descendant => exact ⟨_, .keepSpace hw.demand, hw.isGlobal, hw.inside, hw.demand⟩
      | _ => exact ⟨_, .keep hd rfl rfl (by simp) (by simp), hw.isGlobal, hw.inside, rfl⟩
    | _ => exact ⟨_, .keep hd rfl rfl (by simp) (by simp), hw.isGlobal, hw.inside, rfl⟩

/-- **An open walk keeps what is settled.** -/
theorem IsSettled.keeps {t : Tree} (h : IsSettled t) : Keeps ctx t := by
  induction h with
  | leaf spaces start hleaf hk hn => exact keeps_leaf hleaf hk hn spaces start
  | mark spaces start hn hne => exact keeps_mark hn hne spaces start
  | exchange spaces start arguments hk hx =>
    intro w hw
    exact ⟨_, .exchange hw.demand_ne hk hx, hw.isGlobal, hw.inside, rfl⟩
  | call spaces start hk hx hsel htrim _ ih =>
    intro w hw
    obtain ⟨hasLocals, ha⟩ := keeps_resolveArguments hsel htrim ih hw.isGlobal hw.inside
    exact ⟨_, .call hw.demand_ne hk hx ha, hw.isGlobal, hw.inside, rfl⟩

theorem keeps_resolveAlternatives {selector : String} {agreed : Option Bool} {ts : List Tree}
    (ht : ∀ a ∈ ts, a.kind = .selector ∧ IsSettledRow a.children)
    (hagreed : agreed.getD true = true) :
    ∃ r, (resolveAlternatives ctx true selector agreed ts).result = .ok (ts, r) ∧
      r.isGlobal = true := by
  induction ts generalizing agreed with
  | nil => exact ⟨_, rfl, hagreed⟩
  | cons a ts ih =>
    obtain ⟨hk, htrim, hsettled⟩ := ht a List.mem_cons_self
    have hkeeps : ∀ t ∈ a.children, Keeps ctx t := fun t hmem => (hsettled t hmem).keeps
    obtain ⟨w, hfirst, hw⟩ := keeps_resolveSequence hkeeps (w := .begin ⟨true, false, none⟩ false)
      ⟨rfl, rfl, rfl⟩
    obtain ⟨r, hmore, hr⟩ : ∃ r,
        (resolveAlternatives ctx true selector (some w.standing.isGlobal) ts).result =
          .ok (ts, r) ∧ r.isGlobal = true :=
      ih (fun b hb => ht b (List.mem_cons_of_mem a hb)) hw.isGlobal
    have hagreed' : agreed.getD w.standing.isGlobal = w.standing.isGlobal := by
      rw [hw.isGlobal, hagreed]
    have h := resolveAlternatives_of_resolveSequence hfirst hagreed' hmore
    rw [selector_trimSpacing hk htrim] at h
    exact ⟨_, h, hr⟩

end Walks

/-- What a list is resolved to is a list again. -/
theorem isList_of_resolve {ctx : Context} {isGlobal : Bool} {t out : Tree} {r : Resolution}
    (ht : t.IsList) (h : (resolve ctx isGlobal t).result = .ok (out, r)) : out.IsList := by
  obtain ⟨outs, hr, rfl⟩ := resolve_eq_ok h
  refine ⟨rfl, ?_, (shows_resolveAlternatives ht.alternatives hr).isAlternative⟩
  obtain ⟨a, ts, hts⟩ := List.exists_cons_of_ne_nil ht.ne_nil
  rw [hts] at hr
  obtain ⟨nodes, w, more, q, -, -, -, rfl, -⟩ := resolveAlternatives_cons hr
  exact List.cons_ne_nil _ _

/-- **What is resolved stays as it is.** If a selector list is resolved, the list
that this gives is resolved in global scope to itself, tree and all, and the same
is reported about local parts. -/
theorem resolve_resolved {ctx : Context} {isGlobal : Bool} {source : String} {t out : Tree}
    {r : Resolution} (hp : Selector.parse source = .ok t)
    (h : (resolve ctx isGlobal t).result = .ok (out, r)) :
    (resolve ctx true out).result = .ok (out, ⟨true, r.hasPureGlobals⟩) := by
  have hlist := Selector.isList_of_parse hp
  have hout := isList_of_resolve hlist h
  obtain ⟨outs, hr, rfl⟩ := resolve_eq_ok h
  have hsettled := settled_resolveAlternatives hlist.alternatives hr
  obtain ⟨q, hagain, hglobal⟩ : ∃ q, (resolve ctx true (.node .root t.spaces 0 outs)).result =
      .ok (.node .root t.spaces 0 outs, q) ∧ q.isGlobal = true := by
    have hnone : (none : Option Bool).getD true = true := rfl
    obtain ⟨q, hq, hglobal⟩ := keeps_resolveAlternatives hsettled hnone
    exact ⟨q, resolve_of_resolveAlternatives hq, hglobal⟩
  -- what is reported about local parts can be read off the list, which is the same
  have hlocals : (!q.hasPureGlobals) = !r.hasPureGlobals :=
    (hasPureGlobals_of_resolve hout hagain).trans (hasPureGlobals_of_resolve hlist h).symm
  rw [hagain, ← Bool.not_inj hlocals, ← hglobal]

/-- Marks of local names, arguments that were joined, white space at the end of
an argument, and a keyword in what is exchanged with another sheet. -/
theorem resolve_resolved_nested :
    ∃ t out r,
      Selector.parse ":local(.a .b, #c) > :not(.d , :global .e):import(:local .f), .g.h" = .ok t ∧
      (resolve ⟨["g"], false⟩ false t).result = .ok (out, r) ∧
      (resolve ⟨["g"], false⟩ true out).result = .ok (out, ⟨true, r.hasPureGlobals⟩) := by
  have hok :
      (Selector.parse
        ":local(.a .b, #c) > :not(.d , :global .e):import(:local .f), .g.h").toOption.any fun t =>
          (resolve ⟨["g"], false⟩ false t).result.isOk := by
    decide +kernel
  obtain ⟨t, ht, hok⟩ := exists_ok_of_any hok
  obtain ⟨⟨out, r⟩, hr, h⟩ := exists_ok_of_isOk hok fun _ hr => resolve_resolved ht hr
  exact ⟨t, out, r, ht, hr, h⟩

end Scope
end StyleScope
