/-
# Imported names where unmarked names are global

An imported name is kept in local scope, unless a keyword chose the scope. So
where unmarked names are global, imports should not matter: a name is local
there only because of a keyword. They do matter at one kind of place. A broad
`:local` in an argument of a pseudo-class holds for the arguments behind it too,
but the walk does not remember there that a keyword chose the scope, so an
imported name is kept that would be marked next to the keyword itself
(`imports_change_result`).

Such a place is exposed: it is in local scope and its scope is not explicit. Two
runs with different imports go the same way, with the same scopes and the same
errors (`isGlobal_resolve`), and if the imports agree on the names at exposed
places they are one run (`runsAlike_of_isSimple`). So the results differ exactly
if the imports differ there and the list can be resolved.

Key definitions: `Position.isExposed`, `Position.followsLocal`, `Scope.AgreeOn`,
`Walk.course`.
Key theorems: `Scope.resolve_eq_iff_agreeOn`, `Position.followsLocal_of_isExposed`,
`Scope.imports_matter_behind_local`.
-/
import StyleScope.Proofs.EffectiveScope

namespace StyleScope

/-- Two runs of two parts come to the same in what `ρ` keeps of a result, if
their first parts do in what `π` keeps and what follows depends on no more. -/
theorem Traced.map_bind_congr {ε α β γ δ : Type} {x y : Traced ε α} {f g : α → Traced ε β}
    {π : α → γ} {ρ : β → δ} (h : x.result.map π = y.result.map π)
    (hf : ∀ a b, π a = π b → (f a).result.map ρ = (g b).result.map ρ) :
    (x >>= f).result.map ρ = (y >>= g).result.map ρ := by
  rw [result_bind, result_bind]
  cases hx : x.result with
  | error e =>
    cases hy : y.result with
    | error e' =>
      rw [hx, hy] at h
      cases h
      rfl
    | ok b => rw [hx, hy] at h; cases h
  | ok a =>
    cases hy : y.result with
    | error e' => rw [hx, hy] at h; cases h
    | ok b =>
      rw [hx, hy] at h
      exact hf a b (Except.ok.inj h)

namespace Scope

open Selector (Tree Spaces Name)

/-! ### Exposed places -/

namespace Position

/-- Whether the place is in local scope without a keyword that chose it there,
so that an imported name is kept. -/
def isExposed (isGlobal : Bool) (p : Position) : Bool :=
  !(p.scope isGlobal).isGlobal && !(p.scope isGlobal).isExplicit

/-- Whether a pseudo-class around the place has an argument in front of it that
ends in the scope of a broad `:local`. -/
def followsLocal : Position → Bool
  | top _ => false
  | within outer _ earlier _ =>
    earlier.any (fun a => lastBroad? a.children = some .localScope) || outer.followsLocal

/-- Arguments that end in local scope start there, or one of them has a `:local`
at its end. -/
theorem exists_local_of_foldl {startsGlobal : Bool} {earlier : List Tree}
    (h : earlier.foldl endsGlobal startsGlobal = false) :
    startsGlobal = false ∨ ∃ a ∈ earlier, lastBroad? a.children = some .localScope := by
  induction earlier generalizing startsGlobal with
  | nil => exact .inl h
  | cons a earlier ih =>
    rw [List.foldl_cons] at h
    rcases ih h with hend | ⟨b, hb, hlocal⟩
    · cases hk : lastBroad? a.children with
      | none =>
        rw [endsGlobal, hk] at hend
        exact .inl hend
      | some keyword =>
        rw [endsGlobal, hk] at hend
        cases keyword with
        | localScope => exact .inr ⟨a, List.mem_cons_self, hk⟩
        | globalScope => cases hend
    · exact .inr ⟨b, List.mem_cons_of_mem a hb, hlocal⟩

/-- **Where unmarked names are global, an exposed place is behind an argument
that ends in a broad `:local`.** No keyword reaches the place itself. -/
theorem followsLocal_of_isExposed {p : Position} (h : p.isExposed true) :
    p.keyword? = none ∧ p.followsLocal := by
  induction p with
  | top before =>
    unfold isExposed scope at h
    cases hk : (top before).keyword? with
    | some keyword => simp [hk] at h
    | none => simp [hk] at h
  | within outer name earlier before ih =>
    unfold isExposed scope at h
    cases hk : (within outer name earlier before).keyword? with
    | some keyword => simp [hk] at h
    | none =>
      simp only [hk, Bool.and_eq_true, Bool.not_eq_true'] at h
      obtain ⟨hlocal, hexplicit⟩ := h
      refine ⟨rfl, ?_⟩
      rw [followsLocal, Bool.or_eq_true, List.any_eq_true]
      rcases exists_local_of_foldl hlocal with hstart | ⟨a, ha, hend⟩
      · have houter : outer.isExposed true := by rw [isExposed, hstart, hexplicit]; rfl
        exact .inr (ih houter).2
      · exact .inl ⟨a, ha, decide_eq_true hend⟩

end Position

/-! ### The course of a walk -/

/-- The walk without the local parts that it has found. -/
def Walk.course (w : Walk) : Walk :=
  { w with hasLocals := false }

theorem standing_eq_of_course {w v : Walk} (h : w.course = v.course) :
    w.standing = v.standing := by
  have hs := congrArg Walk.standing h
  exact hs

/-- The course behind the nodes that a run gives, or the error it ends with. -/
def courseOf {α : Type} (x : Traced Error (α × Walk)) : Except Error Walk :=
  x.result.map fun q => q.2.course

section Courses

variable (ctx ctx' : Context)

theorem course_resolveName (t : Tree) (text : String) {w v : Walk} (h : w.course = v.course) :
    courseOf (resolveName ctx t text w) = courseOf (resolveName ctx' t text v) := by
  by_cases hne : text = ""
  · rw [resolveName, resolveName, if_pos hne, if_pos hne]
  · rw [courseOf, courseOf, result_resolveName hne, result_resolveName hne]
    exact congrArg Except.ok h

/-- From the same course the walk comes to the same course behind the node. -/
def KeepsCourse (t : Tree) : Prop :=
  ∀ w v : Walk, w.course = v.course →
    courseOf (resolveNode ctx t w) = courseOf (resolveNode ctx' t v)

variable {ctx ctx'}

theorem course_resolveSequence {ts : List Tree} {w v : Walk}
    (ht : ∀ t ∈ ts, KeepsCourse ctx ctx' t) (h : w.course = v.course) :
    courseOf (resolveSequence ctx ts w) = courseOf (resolveSequence ctx' ts v) := by
  induction ts generalizing w v with
  | nil =>
    unfold resolveSequence
    exact congrArg Except.ok h
  | cons t ts ih =>
    unfold resolveSequence
    refine Traced.map_bind_congr (ht t List.mem_cons_self w v h) fun _ _ h => ?_
    have hrest := ih (fun u hu => ht u (List.mem_cons_of_mem t hu)) h
    exact Traced.map_bind_congr hrest fun _ _ h => congrArg Except.ok h

/-- Arguments leave nothing behind for the course but an error. -/
theorem course_resolveRows {afterSpace : Bool} {ts : List Tree} {standing : Standing}
    {hasLocals hasLocals' : Bool} (ht : ∀ a ∈ ts, ∀ t ∈ a.children, KeepsCourse ctx ctx' t) :
    (resolveRows ctx afterSpace ts standing hasLocals).result.map (fun _ => ()) =
      (resolveRows ctx' afterSpace ts standing hasLocals').result.map fun _ => () := by
  induction ts generalizing standing hasLocals hasLocals' with
  | nil => rfl
  | cons a ts ih =>
    refine Traced.map_bind_congr (course_resolveSequence (ht a List.mem_cons_self) rfl) ?_
    rintro ⟨_, w⟩ ⟨_, v⟩ h
    -- both walks end the argument in one scope, in which the next one starts
    have hs := standing_eq_of_course h
    dsimp only at hs ⊢
    rw [hs]
    refine Traced.map_bind_congr (ih fun b hb => ht b (List.mem_cons_of_mem a hb)) fun _ _ _ => ?_
    rfl

theorem keepsCourse_leaf {kind : Selector.Kind} (hleaf : kind.isLeaf) (spaces : Spaces)
    (start : Nat) : KeepsCourse ctx ctx' (.leaf kind spaces start) := by
  rintro ⟨standing, afterSpace, demand, _⟩ ⟨_, _, _, _⟩ h
  simp only [Walk.course, Walk.mk.injEq] at h
  obtain ⟨rfl, rfl, rfl, -⟩ := h
  unfold Tree.leaf resolveNode
  cases demand.error? kind.isSpacing with
  | some e => rfl
  | none =>
    cases kind with
    | root | selector => cases hleaf
    | pseudo name hasArguments =>
      cases hasArguments with
      | true => cases hleaf
      | false =>
        dsimp only
        unfold resolveBroad
        cases Keyword.ofPseudo? name with
        | some keyword => cases standing.inside <;> rfl
        | none => rfl
    | className name | idName name =>
      refine Traced.map_bind_congr (course_resolveName ctx ctx' _ name rfl) fun _ _ h => ?_
      exact congrArg (fun w : Walk => Except.ok w.passed) h
    | combinator combinator text =>
      cases combinator with
      | descendant => cases demand <;> rfl
      | _ => rfl
    | _ => rfl

/-- **No import and no rule around has a say in the course of a walk.** -/
theorem keepsCourse_of_isSimple {t : Tree} (h : t.IsSimple) : KeepsCourse ctx ctx' t := by
  induction h with
  | leaf spaces start hleaf => exact keepsCourse_leaf hleaf spaces start
  | call name spaces start _ _ _ ih =>
    rintro ⟨standing, afterSpace, demand, _⟩ ⟨_, _, _, _⟩ h
    simp only [Walk.course, Walk.mk.injEq] at h
    obtain ⟨rfl, rfl, rfl, -⟩ := h
    unfold resolveNode
    simp only [resolveNarrow_eq_resolveRows, resolveArguments_eq_resolveRows, bind_assoc, pure_bind]
    cases demand.error? (Selector.Kind.pseudo name true).isSpacing with
    | some e => rfl
    | none =>
      cases Keyword.ofPseudo? name with
      | some keyword =>
        dsimp only
        split
        · rfl
        · cases standing.inside with
          | some outer => rfl
          | none => exact Traced.map_bind_congr (course_resolveRows ih) fun _ _ _ => rfl
      | none =>
        dsimp only
        split
        · rfl
        · exact Traced.map_bind_congr (course_resolveRows ih) fun _ _ _ => rfl

theorem course_resolveAlternatives {isGlobal : Bool} {selector : String} {agreed : Option Bool}
    {ts : List Tree} (ht : ∀ a ∈ ts, a.IsAlternative) :
    (resolveAlternatives ctx isGlobal selector agreed ts).result.map (·.2.isGlobal) =
      (resolveAlternatives ctx' isGlobal selector agreed ts).result.map (·.2.isGlobal) := by
  induction ts generalizing agreed with
  | nil => rfl
  | cons a ts ih =>
    have hnodes : ∀ t ∈ a.children, KeepsCourse ctx ctx' t := fun t hmem =>
      keepsCourse_of_isSimple ((ht a List.mem_cons_self).2 t hmem)
    have hfirst : courseOf (resolveAlternative ctx isGlobal a) =
        courseOf (resolveAlternative ctx' isGlobal a) :=
      Traced.map_bind_congr (course_resolveSequence hnodes rfl) fun _ _ h => congrArg Except.ok h
    have hrest := fun agreed => @ih agreed fun b hb => ht b (List.mem_cons_of_mem a hb)
    unfold resolveAlternatives
    refine Traced.map_bind_congr hfirst ?_
    rintro ⟨_, w⟩ ⟨_, v⟩ h
    have hs := standing_eq_of_course h
    dsimp only at hs ⊢
    rw [hs]
    split
    · exact Traced.map_bind_congr (hrest _) fun _ _ h => congrArg Except.ok h
    · rfl

/-- The scope that a list is reported to have does not depend on the imports, and
neither does the error. -/
theorem isGlobal_resolve (ctx ctx' : Context) (isGlobal : Bool) {t : Tree} (ht : t.IsList) :
    (resolve ctx isGlobal t).result.map (·.2.isGlobal) =
      (resolve ctx' isGlobal t).result.map (·.2.isGlobal) :=
  Traced.map_bind_congr (course_resolveAlternatives ht.alternatives) fun _ _ h =>
    congrArg Except.ok h

end Courses

section Imports

variable {isGlobal parentIsPure : Bool} {aliases aliases' : List String}

/-- The same of these names are imported, as far as they stand in exposed
places. -/
def AgreeOn (isGlobal : Bool) (aliases aliases' : List String)
    (names : List (Name × Position)) : Prop :=
  ∀ q ∈ names, q.2.isExposed isGlobal → (q.1.text ∈ aliases ↔ q.1.text ∈ aliases')

theorem agreeOn_append {names names' : List (Name × Position)} :
    AgreeOn isGlobal aliases aliases' (names ++ names') ↔
      AgreeOn isGlobal aliases aliases' names ∧ AgreeOn isGlobal aliases aliases' names' :=
  List.forall_mem_append

/-! ### Imports that agree -/

/-- Only in an exposed place does it matter whether the name is imported. -/
theorem resolveName_eq_of_iff {text : String} {w : Walk} (t : Tree)
    (h : w.standing.isGlobal = false → w.standing.isExplicit = false →
      (text ∈ aliases ↔ text ∈ aliases')) :
    resolveName ⟨aliases, parentIsPure⟩ t text w =
      resolveName ⟨aliases', parentIsPure⟩ t text w := by
  unfold resolveName
  split
  · rfl
  · split
    · rfl
    next hg =>
      refine if_congr (and_congr_left fun he => ?_) rfl rfl
      exact h (by simpa using hg) (by simpa using he)

/-- From any place, the walk does the same at the node if the imports agree on
the names of the node. -/
def RunsAlike (isGlobal parentIsPure : Bool) (aliases aliases' : List String) (t : Tree) : Prop :=
  ∀ (p : Position) (w : Walk), w.standing = p.standing isGlobal →
    AgreeOn isGlobal aliases aliases' (occurrencesOf p t) →
    resolveNode ⟨aliases, parentIsPure⟩ t w = resolveNode ⟨aliases', parentIsPure⟩ t w

theorem resolveSequence_eq_of_agreeOn {ts : List Tree} {p : Position} {w : Walk}
    (ht : ∀ t ∈ ts, RunsAlike isGlobal parentIsPure aliases aliases' t)
    (hw : w.standing = p.standing isGlobal)
    (h : AgreeOn isGlobal aliases aliases' (occurrencesAlong p ts)) :
    resolveSequence ⟨aliases, parentIsPure⟩ ts w =
      resolveSequence ⟨aliases', parentIsPure⟩ ts w := by
  induction ts generalizing p w with
  | nil =>
    unfold resolveSequence
    rfl
  | cons t ts ih =>
    rw [occurrencesAlong, agreeOn_append] at h
    unfold resolveSequence
    rw [← ht t List.mem_cons_self p w hw h.1]
    refine Traced.bind_congr_of_ok ?_
    rintro ⟨out, v⟩ hout
    have hv := standing_of_step hw (step_of_resolveNode hout)
    dsimp only
    rw [ih (fun u hu => ht u (List.mem_cons_of_mem t hu)) hv h.2]

theorem resolveRows_eq_of_agreeOn {afterSpace : Bool} {ts earlier : List Tree} {p : Position}
    {name : String} {standing : Standing} {hasLocals : Bool}
    (ht : ∀ a ∈ ts, ∀ t ∈ a.children, RunsAlike isGlobal parentIsPure aliases aliases' t)
    (hs : standing = (Position.within p name earlier []).standing isGlobal)
    (h : AgreeOn isGlobal aliases aliases' (occurrencesIn p name earlier ts)) :
    resolveRows ⟨aliases, parentIsPure⟩ afterSpace ts standing hasLocals =
      resolveRows ⟨aliases', parentIsPure⟩ afterSpace ts standing hasLocals := by
  induction ts generalizing earlier standing hasLocals with
  | nil => rfl
  | cons a ts ih =>
    rw [occurrencesIn_cons, agreeOn_append] at h
    unfold resolveRows
    rw [resolveSequence_eq_of_agreeOn (ht a List.mem_cons_self) hs h.1]
    refine Traced.bind_congr_of_ok ?_
    rintro ⟨out, v⟩ hout
    have hv := standing_resolveSequence hs hout
    dsimp only
    rw [ih (fun b hb => ht b (List.mem_cons_of_mem a hb)) (Position.standing_next isGlobal hs hv)
      h.2]

theorem runsAlike_leaf {kind : Selector.Kind} (hleaf : kind.isLeaf) (spaces : Spaces)
    (start : Nat) :
    RunsAlike isGlobal parentIsPure aliases aliases' (.leaf kind spaces start) := by
  intro p w hw h
  have hname (name : Name) (hn : kind.name? = some name) (t : Tree) :
      resolveName ⟨aliases, parentIsPure⟩ t name.text w =
        resolveName ⟨aliases', parentIsPure⟩ t name.text w := by
    refine resolveName_eq_of_iff t fun hg he => ?_
    rw [hw] at hg he
    have hexposed : p.isExposed isGlobal := by
      rw [Position.isExposed, show (p.scope isGlobal).isGlobal = false from hg,
        show (p.scope isGlobal).isExplicit = false from he]
      rfl
    rw [occurrencesOf_leaf, hn] at h
    exact h (name, p) (List.mem_singleton.mpr rfl) hexposed
  unfold Tree.leaf resolveNode
  cases kind with
  | className text => simp only [hname ⟨false, text⟩ rfl]
  | idName text => simp only [hname ⟨true, text⟩ rfl]
  | root | selector => cases hleaf
  | pseudo name hasArguments =>
    cases hasArguments with
    | true => cases hleaf
    | false => cases Keyword.ofPseudo? name <;> rfl
  | combinator combinator text => cases combinator <;> rfl
  | _ => rfl

/-- **The walk does the same at every node that was read, if the imports agree on
the names of the node.** -/
theorem runsAlike_of_isSimple {t : Tree} (h : t.IsSimple) :
    RunsAlike isGlobal parentIsPure aliases aliases' t := by
  induction h with
  | leaf spaces start hleaf => exact runsAlike_leaf hleaf spaces start
  | @call name spaces start arguments _ _ _ ih =>
    intro p w hw h
    rw [occurrencesOf] at h
    unfold resolveNode
    cases hk : Keyword.ofPseudo? name with
    | some keyword =>
      rw [not_isExchange_of_keyword hk] at h
      have hstart := (Position.standing_narrow isGlobal hk p).symm
      simp only [hk, resolveNarrow_eq_resolveRows, resolveRows_eq_of_agreeOn ih hstart h]
    | none =>
      cases hx : isExchange name with
      | true => simp only [hk, hx, if_true]
      | false =>
        rw [hx] at h
        have hstart := hw.trans (Position.standing_within isGlobal hk p).symm
        simp only [hk, hx, resolveArguments_eq_resolveRows, resolveRows_eq_of_agreeOn ih hstart h]

theorem resolveAlternatives_eq_of_agreeOn {selector : String} {agreed : Option Bool}
    {ts : List Tree} (ht : ∀ a ∈ ts, a.IsAlternative)
    (h : AgreeOn isGlobal aliases aliases'
      (ts.flatMap fun a => occurrencesAlong (.top []) a.children)) :
    resolveAlternatives ⟨aliases, parentIsPure⟩ isGlobal selector agreed ts =
      resolveAlternatives ⟨aliases', parentIsPure⟩ isGlobal selector agreed ts := by
  induction ts generalizing agreed with
  | nil => rfl
  | cons a ts ih =>
    rw [List.flatMap_cons, agreeOn_append] at h
    have hnodes : ∀ t ∈ a.children, RunsAlike isGlobal parentIsPure aliases aliases' t :=
      fun t hmem => runsAlike_of_isSimple ((ht a List.mem_cons_self).2 t hmem)
    have hfirst : resolveAlternative ⟨aliases, parentIsPure⟩ isGlobal a =
        resolveAlternative ⟨aliases', parentIsPure⟩ isGlobal a := by
      unfold resolveAlternative
      rw [resolveSequence_eq_of_agreeOn hnodes (Position.standing_top isGlobal).symm h.1]
    unfold resolveAlternatives
    rw [hfirst]
    refine Traced.bind_congr_of_ok ?_
    rintro ⟨b, w⟩ -
    dsimp only
    rw [ih (fun b hb => ht b (List.mem_cons_of_mem a hb)) h.2]

/-- Where an exposed name is imported in one sheet only, it is marked in the
other. -/
theorem agreeOn_of_marksAt {names : List (Name × Position)}
    (h : marksAt ⟨aliases, parentIsPure⟩ isGlobal names =
      marksAt ⟨aliases', parentIsPure⟩ isGlobal names) :
    AgreeOn isGlobal aliases aliases' names := by
  intro q hq hexposed
  have hmark := (Prod.mk.inj (List.map_inj_left.mp h q hq)).2
  simp only [Position.isExposed, Bool.and_eq_true, Bool.not_eq_true'] at hexposed
  obtain ⟨hlocal, hexplicit⟩ := hexposed
  simp only [Position.marks, marksName, hlocal, hexplicit] at hmark
  simpa using hmark

/-- **Two lists of imports give the same result if and only if the selector list
is refused, or they agree on the names at exposed places.** -/
theorem resolve_eq_iff_agreeOn {t : Tree} (ht : t.IsList) :
    (resolve ⟨aliases, parentIsPure⟩ isGlobal t).result =
        (resolve ⟨aliases', parentIsPure⟩ isGlobal t).result ↔
      (∃ e, (resolve ⟨aliases, parentIsPure⟩ isGlobal t).result = .error e) ∨
        AgreeOn isGlobal aliases aliases' (occurrences t) := by
  have hglobal := isGlobal_resolve ⟨aliases, parentIsPure⟩ ⟨aliases', parentIsPure⟩ isGlobal ht
  constructor
  · intro h
    cases hr : (resolve ⟨aliases, parentIsPure⟩ isGlobal t).result with
    | error e => exact .inl ⟨e, rfl⟩
    | ok q =>
      have hmarks := marksOf_resolve ht hr
      rw [marksOf_resolve ht (h.symm.trans hr)] at hmarks
      exact .inr (agreeOn_of_marksAt hmarks.symm)
  · rintro (⟨e, he⟩ | h)
    · rw [he] at hglobal
      rw [he, eq_error_of_map hglobal.symm]
    · unfold resolve
      rw [resolveAlternatives_eq_of_agreeOn ht.alternatives h]

end Imports

/-- **Where unmarked names are global, imports matter only behind an argument that
ends in a broad `:local`.** For every selector list and any two lists of imports,
the same scope is reported or the same error. The results are the same, tree and
all, if and only if the list is refused or the imports agree on the names at
exposed places; and an exposed place has no narrow keyword around it and no broad
one in front, but an argument in front that ends in a broad `:local`. -/
theorem imports_matter_behind_local {source : String} {t : Tree}
    (hp : Selector.parse source = .ok t) (parentIsPure : Bool) (aliases aliases' : List String) :
    (resolve ⟨aliases, parentIsPure⟩ true t).result.map (·.2.isGlobal) =
        (resolve ⟨aliases', parentIsPure⟩ true t).result.map (·.2.isGlobal) ∧
    ((resolve ⟨aliases, parentIsPure⟩ true t).result =
        (resolve ⟨aliases', parentIsPure⟩ true t).result ↔
      (∃ e, (resolve ⟨aliases, parentIsPure⟩ true t).result = .error e) ∨
        AgreeOn true aliases aliases' (occurrences t)) ∧
    ∀ p : Position, p.isExposed true → p.keyword? = none ∧ p.followsLocal :=
  have hlist := Selector.isList_of_parse hp
  ⟨isGlobal_resolve _ _ true hlist, resolve_eq_iff_agreeOn hlist,
    fun _ => Position.followsLocal_of_isExposed⟩

/-- `b` and `c` are exposed, so it matters which of them is imported; `d` is
local because of the keyword in front of it, and `e` is global. -/
theorem imports_matter_behind_local_nested :
    ∃ t, Selector.parse ":not(:local .a, .b:is(.c), :local .d) .e" = .ok t ∧
      (resolve ⟨["b"], false⟩ true t).result = (resolve ⟨["b", "d", "e"], false⟩ true t).result ∧
      (resolve ⟨["b"], false⟩ true t).result ≠ (resolve ⟨["c"], false⟩ true t).result ∧
      (resolve ⟨["b"], false⟩ true t).result.map (·.2.isGlobal) =
        (resolve ⟨["c"], false⟩ true t).result.map (·.2.isGlobal) := by
  have hok :
      (Selector.parse ":not(:local .a, .b:is(.c), :local .d) .e").toOption.any fun t =>
        (resolve ⟨["b"], false⟩ true t).result.isOk &&
          ((occurrences t).filter fun q => q.2.isExposed true).map (·.1.text) = ["b", "c"] := by
    decide +kernel
  obtain ⟨t, ht, hok⟩ := exists_ok_of_any hok
  obtain ⟨hresolve, hnames⟩ := (Bool.and_eq_true _ _).mp hok
  have hexposed : ∀ x, x ∈ ["b", "c"] ↔
      ∃ q ∈ occurrences t, q.2.isExposed true ∧ q.1.text = x := by
    intro x
    rw [← of_decide_eq_true hnames]
    simp only [List.mem_map, List.mem_filter, and_assoc]
  obtain ⟨-, hsame, -⟩ := imports_matter_behind_local ht false ["b"] ["b", "d", "e"]
  obtain ⟨hglobal, hdiffer, -⟩ := imports_matter_behind_local ht false ["b"] ["c"]
  refine ⟨t, ht, hsame.mpr (.inr fun q hq he => ?_), fun h => ?_, hglobal⟩
  · have hname := (hexposed q.1.text).mpr ⟨q, hq, he, rfl⟩
    rcases List.mem_pair.mp hname with hb | hc
    · rw [hb]
      decide
    · rw [hc]
      decide
  · rcases hdiffer.mp h with ⟨e, he⟩ | hagree
    · rw [he] at hresolve
      cases hresolve
    · obtain ⟨q, hq, he, hb⟩ := (hexposed "b").mp (by decide)
      have hiff := hagree q hq he
      rw [hb] at hiff
      exact absurd hiff (by decide)

/-- An imported name is kept in the argument behind a broad `:local`, where the
same name is marked if it is not imported. -/
theorem imports_change_result :
    ∃ t, Selector.parse ":not(:local .a, .b)" = .ok t ∧
      (resolve ⟨["b"], false⟩ true t).result.map (·.1.print) = .ok ":not(:local(.a), .b)" ∧
      (resolve ⟨[], false⟩ true t).result.map (·.1.print) = .ok ":not(:local(.a), :local(.b))" ∧
      (resolve ⟨["b"], false⟩ true t).result ≠ (resolve ⟨[], false⟩ true t).result := by
  have hok :
      (Selector.parse ":not(:local .a, .b)").toOption.any fun t =>
        (resolve ⟨["b"], false⟩ true t).result.map (·.1.print) = .ok ":not(:local(.a), .b)" &&
          (resolve ⟨[], false⟩ true t).result.map (·.1.print) =
            .ok ":not(:local(.a), :local(.b))" := by
    decide +kernel
  obtain ⟨t, ht, hok⟩ := exists_ok_of_any hok
  obtain ⟨hkept, hmarked⟩ := (Bool.and_eq_true _ _).mp hok
  have hkept := of_decide_eq_true hkept
  have hmarked := of_decide_eq_true hmarked
  refine ⟨t, ht, hkept, hmarked, fun h => ?_⟩
  rw [h, hmarked] at hkept
  exact absurd (Except.ok.inj hkept) (by decide)

end Scope
end StyleScope
