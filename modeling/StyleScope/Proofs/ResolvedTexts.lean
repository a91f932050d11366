/-
# The texts of a resolved list

The walk keeps texts sound. What takes the place of a node is a stretch of an
alternative (`IsStretch`), and stretches that follow one another are one again
(`IsStretch.append`).

Key definitions: `Scope.IsStretch`, `Scope.StaysSound`.
Key theorems: `Scope.staysSound_of_isSound`, `Scope.isSoundList_of_resolve`.
-/
import StyleScope.Proofs.BroadSpacing
import StyleScope.Proofs.SoundTexts

namespace StyleScope
namespace Scope

open Selector (Tree Spaces forall_mem_dropLast_cons)
open Token (IsFiller)

/-! ### Parts of a resolved alternative -/

/-- A row of nodes with sound texts. Behind all but the last of them stands
closed white space, and behind the last one if the stretch `isClosed`; white
space among all but the first of them is white space for a reader, and the
first one too if the stretch `isSpaced`. -/
structure IsStretch (isSpaced isClosed : Prop) (nodes : List Tree) : Prop where
  sound : ∀ u ∈ nodes, u.IsSound Tree.IsClosedRow
  inner : ∀ u ∈ nodes.dropLast, IsFiller u.spaces.after.toList
  closed : isClosed → ∀ u ∈ nodes, IsFiller u.spaces.after.toList
  tail : ∀ u ∈ nodes.tail, u.IsSpaced
  spaced : isSpaced → ∀ u ∈ nodes, u.IsSpaced

namespace IsStretch

variable {isSpaced isClosed isClosed' : Prop} {nodes more : List Tree} {t : Tree}

theorem nil : IsStretch isSpaced isClosed [] :=
  ⟨by simp, by simp, by simp, by simp, by simp⟩

theorem single (h : t.IsSound Tree.IsClosedRow) (hs : isSpaced → t.IsSpaced)
    (hc : isClosed → IsFiller t.spaces.after.toList) : IsStretch isSpaced isClosed [t] :=
  ⟨by simpa using h, by simp, by simpa using hc, by simp, by simpa using hs⟩

theorem mono {isSpaced' : Prop} (h : IsStretch isSpaced isClosed nodes) (hs : isSpaced' → isSpaced)
    (hc : isClosed' → isClosed) : IsStretch isSpaced' isClosed' nodes :=
  ⟨h.sound, h.inner, fun h' => h.closed (hc h'), h.tail, fun h' => h.spaced (hs h')⟩

theorem append (h : IsStretch isSpaced isClosed nodes) (h' : IsStretch True isClosed' more)
    (hc : more ≠ [] → isClosed) : IsStretch isSpaced (isClosed ∧ isClosed') (nodes ++ more) where
  sound := List.forall_mem_append.mpr ⟨h.sound, h'.sound⟩
  inner := by
    by_cases hne : more = []
    · rw [hne, List.append_nil]
      exact h.inner
    · rw [List.dropLast_append_of_ne_nil hne]
      exact List.forall_mem_append.mpr ⟨h.closed (hc hne), h'.inner⟩
  closed hc := List.forall_mem_append.mpr ⟨h.closed hc.1, h'.closed hc.2⟩
  tail := by
    cases nodes with
    | nil => exact h'.tail
    | cons u us => exact List.forall_mem_append.mpr ⟨h.tail, h'.spaced trivial⟩
  spaced hs := List.forall_mem_append.mpr ⟨h.spaced hs, h'.spaced trivial⟩

theorem of_append {blanks : List Tree} (h : IsStretch isSpaced isClosed (nodes ++ blanks)) :
    IsStretch isSpaced isClosed nodes where
  sound u hu := h.sound u (List.mem_append_left _ hu)
  inner u hu := h.inner u (by
    by_cases hne : blanks = []
    · rwa [hne, List.append_nil]
    · rw [List.dropLast_append_of_ne_nil hne]
      exact List.mem_append_left _ ((List.dropLast_sublist nodes).subset hu))
  closed hc u hu := h.closed hc u (List.mem_append_left _ hu)
  tail u hu := h.tail u (by
    cases nodes with
    | nil => cases hu
    | cons v vs => exact List.mem_append_left _ hu)
  spaced hs u hu := h.spaced hs u (List.mem_append_left _ hu)

theorem trimSpacing (h : IsStretch isSpaced isClosed nodes) :
    IsStretch isSpaced isClosed (Scope.trimSpacing nodes) := by
  obtain ⟨blanks, hsplit, -⟩ := exists_eq_trimSpacing_append nodes
  rw [hsplit] at h
  exact h.of_append

theorem of_forall (h : ∀ u ∈ nodes,
    u.IsSound Tree.IsClosedRow ∧ IsFiller u.spaces.after.toList ∧ u.IsSpaced) :
    IsStretch isSpaced isClosed nodes where
  sound u hu := (h u hu).1
  inner u hu := (h u ((List.dropLast_sublist nodes).subset hu)).2.1
  closed _ u hu := (h u hu).2.1
  tail u hu := (h u (List.mem_of_mem_tail hu)).2.2
  spaced _ u hu := (h u hu).2.2

/-- The text around closed nodes can be any other. -/
theorem surround (h : IsStretch True True nodes) {spaces : Spaces}
    (hb : IsFiller spaces.before.toList) :
    IsStretch True (IsFiller spaces.after.toList) (Scope.surround spaces nodes) := by
  cases nodes with
  | nil => exact .nil
  | cons t ts =>
    have hall : ∀ u ∈ t.setBefore spaces.before :: ts,
        u.IsSound Tree.IsClosedRow ∧ IsFiller u.spaces.after.toList ∧ u.IsSpaced := by
      intro u hu
      rcases List.mem_cons.mp hu with rfl | hu
      · refine ⟨(h.sound t List.mem_cons_self).setBefore hb, ?_,
          (h.spaced trivial t List.mem_cons_self).withSpaces _⟩
        rw [Selector.Tree.after_setBefore]
        exact h.closed trivial t List.mem_cons_self
      · have hmem := List.mem_cons_of_mem t hu
        exact ⟨h.sound u hmem, h.closed trivial u hmem, h.spaced trivial u hmem⟩
    simp only [Scope.surround]
    split
    next hlast => cases List.getLast?_eq_none_iff.mp hlast
    next last hlast =>
      obtain ⟨us, hus⟩ := List.getLast?_eq_some_iff.mp hlast
      rw [hus] at hall ⊢
      rw [List.dropLast_concat]
      obtain ⟨hus, hend⟩ := List.forall_mem_append.mp hall
      obtain ⟨hsound, -, hspaced⟩ := hend last List.mem_cons_self
      have hback : IsStretch True (IsFiller spaces.after.toList) [last.setAfter spaces.after] := by
        refine .single (hsound.setAfter _) (fun _ => hspaced.withSpaces _) fun hc => ?_
        rwa [Selector.Tree.after_setAfter]
      have hfront : IsStretch True True us := .of_forall hus
      have := hfront.append hback fun _ => trivial
      rwa [true_and] at this

end IsStretch

/-! ### Steps -/

/-- Only text in front of a keyword can become white space that is none for a
reader. -/
def HasNoFront (t : Tree) : Prop :=
  ∀ name hasArguments, t.kind = .pseudo name hasArguments → t.spaces.before = ""

section Walks

variable {ctx : Context} {w w' : Walk} {t : Tree} {ts nodes : List Tree}

variable (ctx) in
/-- What takes the place of the node has sound texts. -/
def StaysSound (t : Tree) : Prop :=
  ∀ (w w' : Walk) (nodes : List Tree), Step ctx w t nodes w' → t.IsSpaced →
    IsStretch (w.IsQuiet ∨ HasNoFront t) (IsFiller t.spaces.after.toList) nodes

theorem isStretch_resolveSequence (hj : ∀ t ∈ ts, StaysSound ctx t) (hs : ∀ t ∈ ts, t.IsSpaced)
    (hinner : ∀ t ∈ ts.dropLast, IsFiller t.spaces.after.toList)
    (htail : ∀ t ∈ ts.tail, HasNoFront t)
    (h : (resolveSequence ctx ts w).result = .ok (nodes, w')) :
    IsStretch (w.IsQuiet ∨ ∀ t ∈ ts.head?, HasNoFront t)
      (∀ t ∈ ts, IsFiller t.spaces.after.toList) nodes := by
  induction ts generalizing w nodes with
  | nil =>
    obtain ⟨rfl, -⟩ := resolveSequence_nil h
    exact .nil
  | cons t ts ih =>
    obtain ⟨out, v, more, hstep, hmore, rfl⟩ := resolveSequence_cons h
    have hout := hj t List.mem_cons_self w v out hstep (hs t List.mem_cons_self)
    obtain ⟨hafter, hinner⟩ := forall_mem_dropLast_cons.mp hinner
    have hnodes := ih (fun u hu => hj u (List.mem_cons_of_mem t hu))
      (fun u hu => hs u (List.mem_cons_of_mem t hu)) hinner
      (fun u hu => htail u (List.mem_of_mem_tail hu)) hmore
    have hspaced : v.IsQuiet ∨ ∀ u ∈ ts.head?, HasNoFront u :=
      .inr fun u hu => htail u (List.mem_of_mem_head? hu)
    refine (hout.append (hnodes.mono (fun _ => hspaced) id) fun hne => ?_).mono ?_ ?_
    · refine hafter ?_
      rintro rfl
      exact hne (resolveSequence_nil hmore).1
    · exact Or.imp_right fun h => h t rfl
    · exact List.forall_mem_cons.mp

/-- What takes the place of an alternative. -/
theorem isRow_resolveSequence {a : Tree} (ha : a.IsReadRow)
    (hj : ∀ t ∈ a.children, StaysSound ctx t)
    (h : (resolveSequence ctx a.children w).result = .ok (nodes, w')) :
    (Selector.Tree.node .selector a.spaces a.start (trimSpacing nodes)).IsRow ∧
      (a.IsClosed → (Selector.Tree.node .selector a.spaces a.start (trimSpacing nodes)).IsClosed) ∧
      ∀ u ∈ trimSpacing nodes, u.IsSound Tree.IsClosedRow := by
  have hn := (isStretch_resolveSequence hj ha.nodes ha.inner ha.tidy.tail h).trimSpacing
  refine ⟨⟨rfl, fun hne => ha.before fun hnil => hne ?_, ha.after, hn.inner, hn.tail⟩,
    fun hc => ⟨hc.before, hn.closed hc.after⟩, hn.sound⟩
  rw [hnil] at h
  rw [(resolveSequence_nil h).1]
  rfl

theorem isStretch_resolveNarrow {standing : Standing} {hasLocals hasLocals' : Bool}
    (hi : standing.inside ≠ none) (ha : ∀ a ∈ ts, a.IsReadArgument)
    (hj : ∀ a ∈ ts, ∀ t ∈ a.children, StaysSound ctx t)
    (h : (resolveNarrow ctx ts standing hasLocals).result = .ok (nodes, hasLocals')) :
    IsStretch True True nodes := by
  induction ts generalizing standing hasLocals nodes with
  | nil =>
    obtain ⟨rfl, -⟩ := resolveNarrow_nil h
    exact .nil
  | cons a ts ih =>
    obtain ⟨out, v, more, hout, hmore, rfl⟩ := resolveNarrow_cons h
    have hfirst := ha a List.mem_cons_self
    have hn := isStretch_resolveSequence (hj a List.mem_cons_self) hfirst.nodes hfirst.inner
      hfirst.tidy.tail hout
    have hinside : { standing with isGlobal := v.standing.isGlobal }.inside ≠ none := hi
    have hmore := ih hinside (fun b hb => ha b (List.mem_cons_of_mem a hb))
      (fun b hb => hj b (List.mem_cons_of_mem a hb)) hmore
    exact ((hn.mono (fun _ => .inl ⟨hi, rfl⟩) fun _ => hfirst.closed.after).trimSpacing.append hmore
      fun _ => trivial).mono id fun _ => ⟨trivial, trivial⟩

theorem isClosedRow_resolveArguments {standing : Standing} {hasLocals hasLocals' : Bool}
    (ha : ∀ a ∈ ts, a.IsReadArgument) (hj : ∀ a ∈ ts, ∀ t ∈ a.children, StaysSound ctx t)
    (h : (resolveArguments ctx ts standing hasLocals).result = .ok (nodes, hasLocals')) :
    ∀ b ∈ nodes, b.IsClosedRow ∧ ∀ u ∈ b.children, u.IsSound Tree.IsClosedRow := by
  induction ts generalizing standing hasLocals nodes with
  | nil =>
    obtain ⟨rfl, -⟩ := resolveArguments_nil h
    simp
  | cons a ts ih =>
    obtain ⟨out, v, more, hout, hmore, rfl⟩ := resolveArguments_cons h
    have hfirst := ha a List.mem_cons_self
    obtain ⟨hrow, hclosed, hsound⟩ :=
      isRow_resolveSequence hfirst.toIsReadRow (hj a List.mem_cons_self) hout
    exact List.forall_mem_cons.mpr ⟨⟨⟨hrow, hclosed hfirst.closed⟩, hsound⟩,
      ih (fun b hb => ha b (List.mem_cons_of_mem a hb))
        (fun b hb => hj b (List.mem_cons_of_mem a hb)) hmore⟩

theorem isSound_markLocal {kind : Selector.Kind} {name : Selector.Name} {spaces : Spaces}
    (start : Nat) (hn : kind.name? = some name) (hb : IsFiller spaces.before.toList) :
    (markLocal kind spaces start).IsSound Tree.IsClosedRow := by
  have hleaf : (Tree.leaf kind .none start).IsSound Tree.IsClosedRow := by
    cases kind with
    | className | idName => exact .leaf start rfl trivial .nil
    | _ => cases hn
  refine .call start rfl hb (List.cons_ne_nil _ _) ?_ ?_
  · simp only [List.mem_singleton, forall_eq]
    refine ⟨⟨rfl, fun _ => .nil, rfl, by simp [Tree.children], by simp [Tree.children]⟩, .nil, ?_⟩
    intro u hu
    rw [List.mem_singleton.mp hu]
    exact .nil
  · simp only [List.mem_singleton, forall_eq]
    simpa [Tree.children] using hleaf

/-- What takes the place of a node that was read has sound texts. -/
theorem staysSound_of_isSound (h : t.IsSound Tree.IsReadArgument) : StaysSound ctx t := by
  induction h with
  | @leaf kind spaces start hleaf hs hb =>
    intro w w' nodes hstep hspaced
    have hkeep : (Tree.leaf kind spaces start).IsSound Tree.IsClosedRow := .leaf start hleaf hs hb
    change Step ctx w (.node kind spaces start []) nodes w' at hstep
    cases hstep with
    | keepSpace => exact .single hkeep (fun _ => hspaced) id
    | dropSpace => exact .nil
    | narrow => cases hleaf
    | broad _ _ hi =>
      split
      next => exact .nil
      next hne =>
        refine .single (.leaf start rfl hb .nil) (fun hc => ?_) fun _ => .nil
        rcases hc with hc | hc
        · exact absurd hi hc.1
        · exact absurd (hc _ _ rfl) hne
    | exchange => exact .single hkeep (fun _ => hspaced) id
    | call => cases hleaf
    | name _ hn =>
      split
      · exact .single (isSound_markLocal start hn hb)
          (fun _ => Selector.Tree.isSpaced_of_not rfl) id
      · exact .single hkeep (fun _ => hspaced) id
    | nesting => exact .single hkeep (fun _ => hspaced) id
    | keep => exact .single hkeep (fun _ => hspaced) id
  | @call name spaces start arguments hn hb hne hrows h ih =>
    intro w w' nodes hstep hspaced
    cases hstep with
    | narrow _ _ _ _ ha =>
      have hnodes := isStretch_resolveNarrow (by simp) hrows ih ha
      exact (hnodes.surround hb).mono (fun _ => trivial) id
    | exchange =>
      have hread : (Selector.Tree.node (.pseudo name true) spaces start arguments).IsSound
          Tree.IsReadArgument := .call start hn hb hne hrows h
      exact .single (hread.mono fun _ h => h.isClosedRow) (fun _ => hspaced) id
    | call _ _ _ ha =>
      have hresolved := isClosedRow_resolveArguments hrows ih ha
      have hcall : (Selector.Tree.node (.pseudo name true) spaces start _).IsSound
          Tree.IsClosedRow :=
        .call start hn hb (resolveArguments_ne_nil hne ha) (fun b hb => (hresolved b hb).1)
          fun b hb => (hresolved b hb).2
      exact .single hcall (fun _ => Selector.Tree.isSpaced_of_not rfl) id
    | name _ hn => cases hn
    | keep _ _ _ hp => cases (hp name true rfl).1

end Walks

/-! ### Selector lists -/

section Lists

variable {ctx : Context} {isGlobal : Bool} {selector : String} {agreed : Option Bool}
  {ts outs : List Tree} {r : Resolution}

theorem isRow_resolveAlternatives (ha : ∀ a ∈ ts, a.IsReadRow)
    (hs : ∀ a ∈ ts, ∀ t ∈ a.children, t.IsSound Tree.IsReadArgument)
    (hc : ∀ a ∈ ts.dropLast, a.IsClosed)
    (h : (resolveAlternatives ctx isGlobal selector agreed ts).result = .ok (outs, r)) :
    (∀ b ∈ outs, b.IsRow ∧ ∀ u ∈ b.children, u.IsSound Tree.IsClosedRow) ∧
      ∀ b ∈ outs.dropLast, b.IsClosed := by
  induction ts generalizing agreed outs r with
  | nil =>
    obtain ⟨rfl, -⟩ := resolveAlternatives_nil h
    simp
  | cons a ts ih =>
    obtain ⟨nodes, w, more, q, hnodes, -, hmore, rfl, -⟩ := resolveAlternatives_cons h
    obtain ⟨hrow, hclosed, hsound⟩ := isRow_resolveSequence (ha a List.mem_cons_self)
      (fun t ht => staysSound_of_isSound (hs a List.mem_cons_self t ht)) hnodes
    obtain ⟨hfirst, hc⟩ := forall_mem_dropLast_cons.mp hc
    obtain ⟨hrows, hinner⟩ := ih (fun b hb => ha b (List.mem_cons_of_mem a hb))
      (fun b hb => hs b (List.mem_cons_of_mem a hb)) hc hmore
    refine ⟨List.forall_mem_cons.mpr ⟨⟨hrow, hsound⟩, hrows⟩,
      forall_mem_dropLast_cons.mpr ⟨fun hne => hclosed (hfirst ?_), hinner⟩⟩
    rintro rfl
    exact hne (resolveAlternatives_nil hmore).1

theorem isClosed_resolveAlternatives (ha : ∀ a ∈ ts, a.IsReadArgument)
    (hs : ∀ a ∈ ts, ∀ t ∈ a.children, t.IsSound Tree.IsReadArgument)
    (h : (resolveAlternatives ctx isGlobal selector agreed ts).result = .ok (outs, r)) :
    ∀ b ∈ outs, b.IsClosed := by
  induction ts generalizing agreed outs r with
  | nil =>
    obtain ⟨rfl, -⟩ := resolveAlternatives_nil h
    simp
  | cons a ts ih =>
    obtain ⟨nodes, w, more, q, hnodes, -, hmore, rfl, -⟩ := resolveAlternatives_cons h
    have hfirst := ha a List.mem_cons_self
    obtain ⟨-, hclosed, -⟩ := isRow_resolveSequence hfirst.toIsReadRow
      (fun t ht => staysSound_of_isSound (hs a List.mem_cons_self t ht)) hnodes
    exact List.forall_mem_cons.mpr ⟨hclosed hfirst.closed,
      ih (fun b hb => ha b (List.mem_cons_of_mem a hb))
        (fun b hb => hs b (List.mem_cons_of_mem a hb)) hmore⟩

/-- **The texts of a resolved list are sound.** -/
theorem isSoundList_of_resolve {source : String} {t out : Tree}
    (hp : Selector.parse source = .ok t) (h : (resolve ctx isGlobal t).result = .ok (out, r)) :
    out.IsSoundList := by
  have hread := Selector.areReadRows_of_parse hp
  obtain ⟨p, -, -, rfl⟩ := Selector.parsed_of_parseWithin hp
  obtain ⟨outs, hr, rfl⟩ := resolve_eq_ok h
  obtain ⟨hrows, hclosed⟩ := isRow_resolveAlternatives hread.rows hread.sound hread.inner hr
  obtain ⟨nodes, w, more, q, -, -, -, rfl, -⟩ := resolveAlternatives_cons hr
  exact ⟨rfl, rfl, List.cons_ne_nil _ _, fun b hb => (hrows b hb).1, hclosed,
    fun b hb => (hrows b hb).2⟩

/-- If every comment in the source is closed, so is every comment in the resolved
list. -/
theorem isClosed_of_resolve {source : String} {t out : Tree}
    (hp : Selector.parse source = .ok t) (hl : Selector.IsLexed True (Token.lex source))
    (h : (resolve ctx isGlobal t).result = .ok (out, r)) : ∀ a ∈ out.children, a.IsClosed := by
  have hread := Selector.areReadRows_of_isLexed hp hl
  obtain ⟨outs, hr, rfl⟩ := resolve_eq_ok h
  exact isClosed_resolveAlternatives (hread.arguments trivial) hread.sound hr

end Lists

end Scope
end StyleScope
