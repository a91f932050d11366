/-
# What pure mode accepts

A rule is pure if each alternative of what its selector is resolved to has a
local part, where the rule around it decides about `&` (`Job.isPure`).

The second pass hands down whether the rule around is pure, so in pure mode it
ends with a pure rule wherever it comes to (`isPure_of_ruleRun`). No error but
one speaks of a rule that is not pure, and that one names a rule with an
alternative that has no local part (`failsOnly_ruleNode`). The first pass
refuses no rule and leaves all rules where they are, so both hold of the sheet
as it was read.

Key definitions: `Traced.FailsOnly`, `Scope.rulesAmong`, `Scope.Job.isPure`,
`Scope.Job.Lacks`.
Key theorems: `Scope.failsOnly_resolve`, `Scope.isPure_of_process`,
`Scope.failsOnly_process`, `Scope.isPure_of_transform`.
-/
import StyleScope.Proofs.DeclarationScope
import StyleScope.Proofs.LocalParts

namespace StyleScope

/-! ### Errors of a run -/

namespace Traced

variable {ε α β : Type} {p : ε → Prop}

/-- The run succeeds or fails with an error that `p` holds of. -/
def FailsOnly (p : ε → Prop) (x : Traced ε α) : Prop :=
  ∀ e, x.result = .error e → p e

namespace FailsOnly

theorem of_ok {x : Traced ε α} {a : α} (h : x.result = .ok a) : x.FailsOnly p := by
  intro e he
  rw [h] at he
  cases he

theorem pure (a : α) : (Pure.pure a : Traced ε α).FailsOnly p :=
  of_ok rfl

theorem fail {e : ε} (h : p e) : (Traced.fail e : Traced ε α).FailsOnly p := by
  intro e' he
  cases he
  exact h

theorem imp {q : ε → Prop} {x : Traced ε α} (h : x.FailsOnly p) (hpq : ∀ e, p e → q e) :
    x.FailsOnly q :=
  fun e he => hpq e (h e he)

/-- What follows is run on a result of the first part only. -/
theorem bind {x : Traced ε α} {f : α → Traced ε β} (h : x.FailsOnly p)
    (hf : ∀ a, x.result = .ok a → (f a).FailsOnly p) : (x >>= f).FailsOnly p := by
  intro e he
  rcases bind_eq_error he with he | ⟨a, ha, he⟩
  · exact h e he
  · exact hf a ha e he

theorem mapM {f : α → Traced ε β} {as : List α} (h : ∀ a ∈ as, (f a).FailsOnly p) :
    (as.mapM f).FailsOnly p := by
  induction as with
  | nil => exact pure _
  | cons a as ih =>
    rw [List.mapM_cons]
    refine (h a List.mem_cons_self).bind fun b _ => ?_
    exact (ih fun b hb => h b (List.mem_cons_of_mem a hb)).bind fun _ _ => pure _

end FailsOnly
end Traced

/-- Every element of the first list is related to something. -/
theorem Each.exists_of_mem {α β : Type} {R : α → β → Urls → Prop} {as : List α} {bs : List β}
    {us : Urls} (h : Each R as bs us) {a : α} (ha : a ∈ as) : ∃ b vs, R a b vs := by
  induction h with
  | nil => cases ha
  | cons hr _ ih =>
    rcases List.mem_cons.mp ha with rfl | ha
    · exact ⟨_, _, hr⟩
    · exact ih ha

namespace Scope

open Selector (Tree Spaces)
open Sheet (AtHead Declaration Node RuleHead)

/-! ### Rules and what stands around them -/

mutual

/-- The rules in a node that stands in these frames. Each is given by the
frames from its own frame outwards. -/
def rulesIn (around : List Frame) : Node → List (List Frame)
  | .rule head body _ =>
    (.rule head.selector :: around) :: rulesAmong (.rule head.selector :: around) body
  | .atBlock head body _ => rulesAmong (.atRule head.name head.params :: around) body
  | .atStatement _ _ => []
  | .declaration _ => []
  | .comment _ => []

/-- The rules in the nodes, in document order. -/
def rulesAmong (around : List Frame) : List Node → List (List Frame)
  | [] => []
  | n :: ns => rulesIn around n ++ rulesAmong around ns

end

theorem rulesAmong_eq_flatMap (around : List Frame) (ns : List Node) :
    rulesAmong around ns = ns.flatMap (rulesIn around) := by
  induction ns with
  | nil => rfl
  | cons n ns ih => rw [rulesAmong, List.flatMap_cons, ih]

theorem mem_rulesAmong {around place : List Frame} {ns : List Node} :
    place ∈ rulesAmong around ns ↔ ∃ n ∈ ns, place ∈ rulesIn around n := by
  rw [rulesAmong_eq_flatMap, List.mem_flatMap]

/-- All in a rule directly in `@keyframes` is in it at any depth. -/
theorem inStep_of_mem_rulesIn {around place : List Frame} {n : Node} (hs : inStep around)
    (h : place ∈ rulesIn around n) : inStep place := by
  induction n using Node.induction generalizing around with
  | rule head body after ih =>
    have hs' : inStep (.rule head.selector :: around) := by rw [inStep, hs, Bool.or_true]
    rw [rulesIn] at h
    rcases List.mem_cons.mp h with rfl | h
    · exact hs'
    · obtain ⟨n, hn, h⟩ := mem_rulesAmong.mp h
      exact ih n hn hs' h
  | atBlock head body after ih =>
    rw [rulesIn] at h
    obtain ⟨n, hn, h⟩ := mem_rulesAmong.mp h
    have hs' : inStep (.atRule head.name head.params :: around) := hs
    exact ih n hn hs' h
  | atStatement head semicolon => cases h
  | declaration d => cases h
  | comment c => cases h

namespace Job

variable (job : Job)

/-- What a selector is resolved to, if it can be. -/
def resolved? (parentIsPure : Bool) (selector : String) : Option Tree := do
  let t ← (Selector.parse selector).toOption
  let (out, _) ← (resolve ⟨job.aliases, parentIsPure⟩ job.options.mode.isGlobal t).result.toOption
  return out

/-- Whether the rule at this place, or else the nearest one around it, is pure:
each alternative of what its selector is resolved to has a local part. -/
def isPure : List Frame → Bool
  | [] => false
  | .atRule _ _ :: around => isPure around
  | .rule selector :: around =>
    (job.resolved? (isPure around) selector).any fun t =>
      t.children.all (hasLocalPart (isPure around))

/-- Preludes do not make rules pure. -/
theorem isPure_blank (around : List Frame) :
    job.isPure (around.map Frame.blank) = job.isPure around := by
  induction around with
  | nil => rfl
  | cons f around ih =>
    cases f with
    | atRule name params => exact ih
    | rule selector => rw [List.map_cons, Frame.blank, isPure, isPure, ih]

/-- The selector of a rule in these frames can be resolved, and an alternative
has no local part then. -/
def Lacks (selector : String) (around : List Frame) : Prop :=
  ∃ t, job.resolved? (job.isPure around) selector = some t ∧
    ∃ alternative ∈ t.children, hasLocalPart (job.isPure around) alternative = false

end Job

/-! ### Errors that refuse a rule -/

/-- The rule that is refused because it is not pure. -/
def Error.refusedRule? : Error → Option String
  | notPureSelector selector => some selector
  | _ => none

/-- No rule is refused with this error. -/
def Error.IsOther (e : Error) : Prop :=
  e.refusedRule? = none

theorem Error.isOther_ofSyntax (e : SyntaxError) : (ofSyntax e).IsOther := by
  cases e <;> rfl

theorem failsOnly_ofSyntax {α : Type} (x : Except SyntaxError α) :
    (Traced.ofExcept (x.mapError Error.ofSyntax)).FailsOnly Error.IsOther := by
  intro e he
  rw [Traced.result_ofExcept] at he
  cases x with
  | ok a => cases he
  | error cause =>
    cases he
    exact Error.isOther_ofSyntax cause

mutual

theorem failsOnly_resolveNode (ctx : Context) : ∀ (t : Tree) (w : Walk),
    (resolveNode ctx t w).FailsOnly Error.IsOther
  | .node kind spaces start children, w => by
    intro e he
    cases failure_of_resolveNode he with
    | demand hd =>
      obtain ⟨_, _, rfl⟩ := exists_missing_of_demand hd
      rfl
    | narrow _ _ ha => exact failsOnly_resolveNarrow ctx children _ _ e ha
    | call _ _ ha => exact failsOnly_resolveArguments ctx children _ _ e ha
    | _ => rfl

theorem failsOnly_resolveSequence (ctx : Context) : ∀ (ts : List Tree) (w : Walk),
    (resolveSequence ctx ts w).FailsOnly Error.IsOther
  | [], _ => by
    unfold resolveSequence
    exact .pure _
  | t :: ts, w => by
    unfold resolveSequence
    exact (failsOnly_resolveNode ctx t w).bind fun (_, w) _ =>
      (failsOnly_resolveSequence ctx ts w).bind fun _ _ => .pure _

theorem failsOnly_resolveNarrow (ctx : Context) : ∀ (ts : List Tree) (standing : Standing)
    (hasLocals : Bool), (resolveNarrow ctx ts standing hasLocals).FailsOnly Error.IsOther
  | [], _, _ => by
    unfold resolveNarrow
    exact .pure _
  | .node _ _ _ children :: ts, _, _ => by
    unfold resolveNarrow
    exact (failsOnly_resolveSequence ctx children _).bind fun (_, _) _ =>
      (failsOnly_resolveNarrow ctx ts _ _).bind fun _ _ => .pure _

theorem failsOnly_resolveArguments (ctx : Context) : ∀ (ts : List Tree) (standing : Standing)
    (hasLocals : Bool), (resolveArguments ctx ts standing hasLocals).FailsOnly Error.IsOther
  | [], _, _ => by
    unfold resolveArguments
    exact .pure _
  | .node _ _ _ children :: ts, _, _ => by
    unfold resolveArguments
    exact (failsOnly_resolveSequence ctx children _).bind fun (_, _) _ =>
      (failsOnly_resolveArguments ctx ts _ _).bind fun _ _ => .pure _

end

/-- Resolving itself refuses nothing. -/
theorem failsOnly_resolve (ctx : Context) (isGlobal : Bool) (t : Tree) :
    (resolve ctx isGlobal t).FailsOnly Error.IsOther := by
  have hlist : ∀ (ts : List Tree) (agreed : Option Bool),
      (resolveAlternatives ctx isGlobal t.print agreed ts).FailsOnly Error.IsOther := by
    intro ts
    induction ts with
    | nil =>
      intro agreed
      exact .pure _
    | cons a ts ih =>
      intro agreed
      unfold resolveAlternatives
      refine Traced.FailsOnly.bind ?_ ?_
      · exact (failsOnly_resolveSequence ctx _ _).bind fun _ _ => .pure _
      · rintro ⟨out, w⟩ -
        dsimp only
        split
        · exact (ih _).bind fun _ _ => .pure _
        · exact .fail rfl
  exact (hlist t.children none).bind fun _ _ => .pure _

theorem failsOnly_localizeDeclaration (p : Place) (d : Declaration) :
    (localizeDeclaration p d).FailsOnly Error.IsOther := by
  unfold localizeDeclaration
  split
  · exact .pure _
  · refine (Traced.FailsOnly.of_ok rfl).bind fun _ _ => ?_
    refine (failsOnly_ofSyntax _).bind fun ns _ => ?_
    refine (Traced.FailsOnly.of_ok rfl).bind fun _ _ => ?_
    dsimp only
    split
    · exact .pure _
    · exact .of_ok rfl

theorem failsOnly_localizeDirect (p : Place) (ns : List Node) :
    (localizeDirect p ns).FailsOnly Error.IsOther :=
  .mapM fun d _ => failsOnly_localizeDeclaration p d

section Passes

variable {job : Job}

/-- A selector that is read and resolved has the local parts that were counted. -/
theorem resolved?_of_resolve {parentIsPure : Bool} {selector : String} {t out : Tree}
    {r : Resolution} (ht : Selector.parse selector = .ok t)
    (h : (resolve ⟨job.aliases, parentIsPure⟩ job.options.mode.isGlobal t).result = .ok (out, r)) :
    job.resolved? parentIsPure selector = some out ∧
      (!r.hasPureGlobals) = out.children.all (hasLocalPart parentIsPure) := by
  refine ⟨?_, hasPureGlobals_of_resolve (Selector.isList_of_parse ht) h⟩
  rw [Job.resolved?, ht]
  simp [Except.toOption, h]

/-- A selector is refused only for an alternative without a local part. -/
theorem failsOnly_resolveText (around : List Frame) (selector : String) (impure : Error) :
    (resolveText job (job.isPure around) selector impure).FailsOnly fun e =>
      e.IsOther ∨ e = impure ∧ job.Lacks selector around := by
  unfold resolveText
  refine ((failsOnly_ofSyntax _).imp fun _ => .inl).bind fun t ht => ?_
  refine ((failsOnly_resolve _ _ t).imp fun _ => .inl).bind fun (out, r) hr => ?_
  dsimp only
  split
  next hc =>
    obtain ⟨hresolved, hall⟩ := resolved?_of_resolve (mapError_eq_ok.mp ht) hr
    rw [hc.2, Bool.not_true, eq_comm, List.all_eq_false] at hall
    obtain ⟨alternative, hmem, hlacks⟩ := hall
    exact .fail (.inr ⟨rfl, out, hresolved, alternative, hmem, Bool.eq_false_of_not_eq_true hlacks⟩)
  next => exact .pure _

/-- A rule is pure if no alternative without a local part was found, and in pure
mode only such rules are resolved. -/
theorem isPure_of_resolveText {around : List Frame} {selector text : String} {impure : Error}
    {r : Resolution}
    (h : (resolveText job (job.isPure around) selector impure).result = .ok (text, r)) :
    job.isPure (.rule selector :: around) = (!r.hasPureGlobals) ∧
      (job.options.mode = .pure → r.hasPureGlobals = false) := by
  obtain ⟨t, ht, h⟩ := Traced.bind_eq_ok.mp h
  obtain ⟨⟨out, q⟩, hr, h⟩ := Traced.bind_eq_ok.mp h
  obtain ⟨hresolved, hall⟩ := resolved?_of_resolve (mapError_eq_ok.mp ht) hr
  dsimp only at h
  split at h
  next => cases h
  next hc =>
    cases h
    refine ⟨?_, fun hmode => ?_⟩
    · rw [Job.isPure, hresolved, Option.any_some, hall]
    · exact Bool.eq_false_of_not_eq_true fun hg => hc ⟨hmode, hg⟩

/-! ### The passes -/

/-- If a rule is refused with this error, it is one of these, the second pass
comes to it, and an alternative of it has no local part. -/
def Refusal (job : Job) (rules : List (List Frame)) (e : Error) : Prop :=
  ∀ selector, e.refusedRule? = some selector →
    ∃ around, .rule selector :: around ∈ rules ∧ inStep (.rule selector :: around) = false ∧
      job.Lacks selector around

theorem Error.IsOther.refusal {e : Error} (h : e.IsOther) (rules : List (List Frame)) :
    Refusal job rules e := by
  intro selector he
  rw [h] at he
  cases he

theorem Refusal.mono {rules rules' : List (List Frame)} (hsub : rules ⊆ rules') {e : Error}
    (h : Refusal job rules e) : Refusal job rules' e := by
  intro selector he
  obtain ⟨around, hmem, hs, hlacks⟩ := h selector he
  exact ⟨around, hsub hmem, hs, hlacks⟩

theorem rulesIn_subset {around : List Frame} {n : Node} {ns : List Node} (h : n ∈ ns) :
    rulesIn around n ⊆ rulesAmong around ns :=
  fun _ hplace => mem_rulesAmong.mpr ⟨n, h, hplace⟩

/-- The second pass refuses rules only for what they lack. -/
theorem failsOnly_ruleNode (around : List Frame) {inKeyframes : Bool} (n : Node)
    (hs : inStep around = false) (hk : inKeyframes = around.head?.any Frame.isKeyframes) :
    (ruleNode job inKeyframes (job.isPure around) n).FailsOnly
      (Refusal job (rulesIn around n)) := by
  induction n using Node.induction generalizing around inKeyframes with
  | rule head body after ih =>
    rw [ruleNode, rulesIn]
    split
    next => exact .pure _
    next hin =>
      have hs' : inStep (.rule head.selector :: around) = false := by
        rw [inStep, hs, ← hk, Bool.eq_false_of_not_eq_true hin, Bool.or_false]
      refine Traced.FailsOnly.bind ?_ ?_
      · refine (failsOnly_resolveText around head.selector _).imp fun e he => ?_
        rcases he with hother | ⟨rfl, hlacks⟩
        · exact hother.refusal _
        · rintro _ ⟨⟩
          exact ⟨around, List.mem_cons_self, hs', hlacks⟩
      rintro ⟨selector, r⟩ hr
      -- whether this rule is pure is what the rules in it are told
      dsimp only
      rw [← (isPure_of_resolveText hr).1]
      refine (Traced.FailsOnly.of_ok rfl).bind fun _ _ => ?_
      refine ((failsOnly_localizeDirect _ body).imp fun e he => he.refusal _).bind fun ds _ => ?_
      rw [rulePass_eq_mapM]
      refine Traced.FailsOnly.bind (.mapM fun m hm => ?_) fun _ _ => .pure _
      refine (ih m hm _ hs' rfl).imp fun e he => he.mono fun place hplace => ?_
      exact List.mem_cons_of_mem _ (rulesIn_subset hm hplace)
  | atBlock head body after ih =>
    rw [ruleNode, rulesIn, rulePass_eq_mapM]
    refine Traced.FailsOnly.bind (.mapM fun m hm => ?_) fun _ _ => .pure _
    have hs' : inStep (.atRule head.name head.params :: around) = false := hs
    exact (ih m hm _ hs' (head?_atRule ..)).imp fun e he => he.mono (rulesIn_subset hm)
  | atStatement head semicolon =>
    rw [ruleNode]
    exact .pure _
  | declaration d =>
    rw [ruleNode]
    exact .pure _
  | comment c =>
    rw [ruleNode]
    exact .pure _

/-- In pure mode the second pass ends with a pure rule wherever it comes to. -/
theorem isPure_of_ruleRun {around place : List Frame} {inKeyframes : Bool} {n n' : Node}
    {us : Urls} (hm : job.options.mode = .pure)
    (hk : inKeyframes = around.head?.any Frame.isKeyframes)
    (h : RuleRun job inKeyframes (job.isPure around) n n' us) (hp : place ∈ rulesIn around n)
    (hs : inStep place = false) : job.isPure place := by
  induction n using Node.induction generalizing n' us around inKeyframes with
  | rule head body after ih =>
    rw [rulesIn] at hp
    cases ruleStep_of_run h with
    | skip _ _ _ hin =>
      have hstep : inStep (.rule head.selector :: around) := by
        rw [inStep, ← hk, hin, Bool.true_or]
      have hplace : inStep place := by
        rcases List.mem_cons.mp hp with rfl | hp
        · exact hstep
        · obtain ⟨m, -, hp⟩ := mem_rulesAmong.mp hp
          exact inStep_of_mem_rulesIn hstep hp
      rw [hplace] at hs
      cases hs
    | @rule _ _ _ selector r _ _ hin hr hbody =>
      obtain ⟨hpure, hmode⟩ := isPure_of_resolveText hr
      rcases List.mem_cons.mp hp with rfl | hp
      · rw [hpure, hmode hm]
        rfl
      · obtain ⟨m, hmem, hp⟩ := mem_rulesAmong.mp hp
        obtain ⟨m', vs, hrun⟩ := hbody.exists_of_mem hmem
        have hne : ∀ d, m ≠ .declaration d := by
          rintro d rfl
          cases hp
        rw [← hpure] at hrun
        exact ih m hmem rfl ((within_of_ne hne).mp hrun) hp
  | atBlock head body after ih =>
    rw [rulesIn] at hp
    cases ruleStep_of_run h with
    | atBlock _ _ hbody =>
      obtain ⟨m, hmem, hp⟩ := mem_rulesAmong.mp hp
      obtain ⟨m', vs, hrun⟩ := hbody.exists_of_mem hmem
      have hrun' : RuleRun job (isKeyframes head.name)
          (job.isPure (.atRule head.name head.params :: around)) m m' vs := hrun
      exact ih m hmem (head?_atRule ..) hrun' hp
  | atStatement head semicolon => cases hp
  | declaration d => cases hp
  | comment c => cases hp

theorem failsOnly_resolvePreludeText? (text : Option String) :
    (resolvePreludeText? job text).FailsOnly Error.IsOther := by
  cases text with
  | none => exact .pure _
  | some text =>
    refine Traced.FailsOnly.bind ?_ fun _ _ => .pure _
    refine Traced.FailsOnly.bind ?_ fun _ _ => .pure _
    refine (failsOnly_resolveText [] (Text.trim text) _).imp fun e he => ?_
    rcases he with hother | ⟨rfl, -⟩
    · exact hother
    · rfl

theorem failsOnly_resolveAtHead (head : AtHead) :
    (resolveAtHead job head).FailsOnly Error.IsOther := by
  unfold resolveAtHead resolvePrelude
  split
  · split
    · exact .pure _
    · split
      · exact .of_ok rfl
      next prelude _ =>
        refine (failsOnly_resolvePreludeText? prelude.start).bind fun start _ => ?_
        exact (failsOnly_resolvePreludeText? prelude.limit).bind fun limit _ => .of_ok rfl
  · exact .pure _

theorem failsOnly_resolveKeyframes (head : AtHead) :
    (resolveKeyframes job head).FailsOnly Error.IsOther := by
  refine Traced.FailsOnly.bind (fun e he => ?_) fun _ _ => .of_ok rfl
  rw [Traced.result_ofExcept] at he
  unfold localizeKeyframes at he
  repeat' split at he
  all_goals
    cases he
    try rfl

theorem failsOnly_localizeNode (p : Place) (n : Node) :
    (localizeNode p n).FailsOnly Error.IsOther := by
  induction n using Node.induction with
  | rule head body after ih | atBlock head body after ih =>
    rw [localizeNode, localizeNested_eq_mapM]
    exact (Traced.FailsOnly.mapM ih).bind fun _ _ => .pure _
  | atStatement head semicolon =>
    rw [localizeNode]
    exact .pure _
  | declaration d =>
    rw [localizeNode]
    exact (failsOnly_localizeDeclaration p d).bind fun _ _ => .pure _
  | comment c =>
    rw [localizeNode]
    exact .pure _

/-- The first pass refuses no rule. -/
theorem failsOnly_atRuleNode (n : Node) : (atRuleNode job n).FailsOnly Error.IsOther := by
  induction n using Node.induction with
  | rule head body after ih =>
    rw [atRuleNode, atRulePass_eq_mapM]
    exact (Traced.FailsOnly.mapM ih).bind fun _ _ => .pure _
  | atBlock head body after ih =>
    rw [atRuleNode, atRulePass_eq_mapM]
    split
    · refine (failsOnly_resolveKeyframes head).bind ?_
      rintro ⟨_, isGlobal⟩ -
      dsimp only
      rw [localizeNested_eq_mapM]
      exact (Traced.FailsOnly.mapM fun m _ => failsOnly_localizeNode _ m).bind fun _ _ => .pure _
    · refine (failsOnly_resolveAtHead head).bind fun _ _ => ?_
      refine (failsOnly_localizeDirect _ body).bind fun _ _ => ?_
      exact (Traced.FailsOnly.mapM ih).bind fun _ _ => .pure _
  | atStatement head semicolon =>
    rw [atRuleNode]
    split
    · exact (failsOnly_resolveKeyframes head).bind fun _ _ => .pure _
    · exact (failsOnly_resolveAtHead head).bind fun _ _ => .pure _
  | declaration d =>
    rw [atRuleNode]
    exact .pure _
  | comment c =>
    rw [atRuleNode]
    exact .pure _

/-- The same rules stand in both nodes, up to the preludes around them. -/
def SameRules (n n' : Node) : Prop :=
  ∀ around around', around.map Frame.blank = around'.map Frame.blank →
    (rulesIn around n).map (·.map Frame.blank) = (rulesIn around' n').map (·.map Frame.blank)

theorem rulesAmong_of_sameRules {ns ns' : List Node} {us : Urls}
    (h : Each (fun n n' _ => SameRules n n') ns ns' us) {around around' : List Frame}
    (ha : around.map Frame.blank = around'.map Frame.blank) :
    (rulesAmong around ns).map (·.map Frame.blank) =
      (rulesAmong around' ns').map (·.map Frame.blank) := by
  induction h with
  | nil => rfl
  | cons hn _ ih => rw [rulesAmong, rulesAmong, List.map_append, List.map_append, hn _ _ ha, ih]

theorem SameRules.rule {body body' : List Node} {us : Urls}
    (h : Each (fun n n' _ => SameRules n n') body body' us) (head : RuleHead) (after : String) :
    SameRules (.rule head body after) (.rule head body' after) := by
  intro around around' ha
  have hframes : (.rule head.selector :: around).map Frame.blank =
      (.rule head.selector :: around').map Frame.blank := by
    rw [List.map_cons, List.map_cons, ha]
  rw [rulesIn, rulesIn]
  exact congrArg₂ List.cons hframes (rulesAmong_of_sameRules h hframes)

theorem SameRules.atBlock {body body' : List Node} {us : Urls}
    (h : Each (fun n n' _ => SameRules n n') body body' us) (head : AtHead)
    (params after : String) :
    SameRules (.atBlock head body after) (.atBlock { head with params } body' after) := by
  intro around around' ha
  rw [rulesIn, rulesIn]
  refine rulesAmong_of_sameRules h ?_
  rw [List.map_cons, List.map_cons, ha]
  rfl

theorem sameRules_of_nestedRun {p : Place} {n n' : Node} {us : Urls} (h : NestedRun p n n' us) :
    SameRules n n' := by
  induction n using Node.induction generalizing n' us with
  | rule head body after ih =>
    cases nestedStep_of_run h with
    | rule _ _ hbody => exact .rule (hbody.imp_mem fun m hm m' vs => ih m hm) head after
  | atBlock head body after ih =>
    cases nestedStep_of_run h with
    | atBlock _ _ hbody =>
      exact .atBlock (hbody.imp_mem fun m hm m' vs => ih m hm) head head.params after
  | atStatement head semicolon =>
    cases nestedStep_of_run h
    exact fun _ _ _ => rfl
  | declaration d =>
    cases nestedStep_of_run h
    exact fun _ _ _ => rfl
  | comment c =>
    cases nestedStep_of_run h
    exact fun _ _ _ => rfl

/-- The first pass leaves all rules where they are. -/
theorem sameRules_of_atRun {n n' : Node} {us : Urls} (h : AtRun job n n' us) :
    SameRules n n' := by
  induction n using Node.induction generalizing n' us with
  | rule head body after ih =>
    cases atStep_of_run h with
    | rule _ _ hbody => exact .rule (hbody.imp_mem fun m hm m' vs => ih m hm) head after
  | atBlock head body after ih =>
    cases atStep_of_run h with
    | keyframes _ _ _ hbody =>
      exact .atBlock (hbody.imp_mem fun m _ m' vs => sameRules_of_nestedRun) head _ after
    | atBlock _ _ _ hbody =>
      refine .atBlock (hbody.imp_mem fun m hm m' vs hrun => ?_) head _ after
      by_cases hdecl : ∃ d, m = .declaration d
      · obtain ⟨d, rfl⟩ := hdecl
        obtain ⟨d', rfl, -⟩ := hrun
        exact fun _ _ _ => rfl
      · exact ih m hm ((within_of_ne fun d hd => hdecl ⟨d, hd⟩).mp hrun)
  | atStatement head semicolon => cases atStep_of_run h <;> exact fun _ _ _ => rfl
  | declaration d =>
    cases atStep_of_run h
    exact fun _ _ _ => rfl
  | comment c =>
    cases atStep_of_run h
    exact fun _ _ _ => rfl

/-- The rules after the first pass are those of before it. -/
theorem rulesAmong_of_atRun {ns ns' : List Node} {us : Urls} (h : Each (AtRun job) ns ns' us) :
    (rulesAmong [] ns).map (·.map Frame.blank) = (rulesAmong [] ns').map (·.map Frame.blank) :=
  rulesAmong_of_sameRules (h.imp_mem fun _ _ _ _ => sameRules_of_atRun) rfl

/-- A place in one of two lists is in the other, up to preludes. -/
theorem exists_mem_of_map_blank {rules rules' : List (List Frame)} {place : List Frame}
    (h : rules.map (·.map Frame.blank) = rules'.map (·.map Frame.blank)) (hp : place ∈ rules) :
    ∃ place' ∈ rules', place'.map Frame.blank = place.map Frame.blank := by
  have hblank : place.map Frame.blank ∈ rules.map (·.map Frame.blank) :=
    List.mem_map.mpr ⟨place, hp, rfl⟩
  rw [h] at hblank
  exact List.mem_map.mp hblank

theorem exists_rule_of_map_blank {selector : String} {place around : List Frame}
    (h : place.map Frame.blank = (.rule selector :: around).map Frame.blank) :
    ∃ around', place = .rule selector :: around' ∧
      around'.map Frame.blank = around.map Frame.blank := by
  rcases place with _ | ⟨selector' | ⟨name, params⟩, around'⟩
  · cases h
  · injection h with hframe haround
    cases hframe
    exact ⟨around', rfl, haround⟩
  · injection h with hframe _
    cases hframe

/-- What refuses a rule after the first pass refuses it as it was before. -/
theorem Refusal.of_map_blank {rules rules' : List (List Frame)} {e : Error}
    (hrules : rules.map (·.map Frame.blank) = rules'.map (·.map Frame.blank))
    (h : Refusal job rules e) : Refusal job rules' e := by
  intro selector he
  obtain ⟨around, hmem, hs, hlacks⟩ := h selector he
  obtain ⟨place, hplace, hblank⟩ := exists_mem_of_map_blank hrules hmem
  obtain ⟨around', rfl, haround⟩ := exists_rule_of_map_blank hblank
  refine ⟨around', hplace, ?_, ?_⟩
  · rw [← inStep_blank, hblank, inStep_blank, hs]
  · have hpure : job.isPure around' = job.isPure around := by
      rw [← Job.isPure_blank, haround, Job.isPure_blank]
    rw [Job.Lacks, hpure]
    exact hlacks

end Passes

/-! ### Sheets -/

/-- The job of scoping this sheet. -/
def Job.ofSheet (options : Options) (sheet : Sheet) : Job :=
  ⟨options, importedNames sheet.nodes⟩

/-- What pure mode accepts has pure rules only. -/
theorem isPure_of_process {options : Options} {sheet out : Sheet} {place : List Frame}
    (hm : options.mode = .pure) (h : (process options sheet).result = .ok out)
    (hp : place ∈ rulesAmong [] sheet.nodes) (hs : inStep place = false) :
    (Job.ofSheet options sheet).isPure place := by
  obtain ⟨nodes, us, vs, hfirst, hsecond, -, -⟩ := each_of_process ⟨h, rfl⟩
  obtain ⟨place', hp', hblank⟩ := exists_mem_of_map_blank (rulesAmong_of_atRun hfirst) hp
  obtain ⟨n, hn, hin⟩ := mem_rulesAmong.mp hp'
  obtain ⟨n', ws, hrun⟩ := hsecond.exists_of_mem hn
  have hs' : inStep place' = false := by rw [← inStep_blank, hblank, inStep_blank, hs]
  -- around a sheet there is no rule, so `&` is no local part at its top
  have htop : RuleRun (.ofSheet options sheet) false ((Job.ofSheet options sheet).isPure [])
      n n' ws := hrun
  have hpure := isPure_of_ruleRun hm (by rfl) htop hin hs'
  rwa [← Job.isPure_blank, hblank, Job.isPure_blank] at hpure

/-- A rule that is refused lacks a local part. -/
theorem failsOnly_process (options : Options) (sheet : Sheet) :
    (process options sheet).FailsOnly
      (Refusal (.ofSheet options sheet) (rulesAmong [] sheet.nodes)) := by
  refine Traced.FailsOnly.bind ?_ fun nodes hnodes => ?_
  · rw [atRulePass_eq_mapM]
    exact .mapM fun n _ => (failsOnly_atRuleNode n).imp fun e he => he.refusal _
  · have hrules := rulesAmong_of_atRun (each_of_atRulePass ⟨hnodes, rfl⟩)
    refine Traced.FailsOnly.bind ?_ fun _ _ => .pure _
    rw [rulePass_eq_mapM]
    refine .mapM fun n hn => ?_
    have hnode : (ruleNode (.ofSheet options sheet) false false n).FailsOnly
        (Refusal (.ofSheet options sheet) (rulesIn [] n)) := failsOnly_ruleNode [] n rfl rfl
    exact hnode.imp fun e he => (he.mono (rulesIn_subset hn)).of_map_blank hrules.symm

/-- **Pure mode accepts pure rules only, and refuses no others.** If a sheet is
accepted, every rule that the second pass comes to is pure. If a rule is
refused as not pure, the second pass comes to it and one of its alternatives
has no local part. -/
theorem isPure_of_transform {urlMap : Option UrlMap} {source : String} {sheet : Sheet}
    (hsheet : (Sheet.parse source).result = .ok sheet) :
    (∀ css, (transform ⟨.pure, urlMap⟩ source).result = .ok css →
      ∀ place ∈ rulesAmong [] sheet.nodes, inStep place = false →
        (Job.ofSheet ⟨.pure, urlMap⟩ sheet).isPure place) ∧
    ∀ selector, (transform ⟨.pure, urlMap⟩ source).result = .error (.notPureSelector selector) →
      ∃ around, .rule selector :: around ∈ rulesAmong [] sheet.nodes ∧
        inStep (.rule selector :: around) = false ∧
        (Job.ofSheet ⟨.pure, urlMap⟩ sheet).Lacks selector around := by
  have hread : ((Sheet.parse source).mapError Error.ofSyntax).result = .ok sheet := by
    rw [Traced.result_mapError, mapError_eq_ok, hsheet]
  refine ⟨fun css hcss place hp hs => ?_, fun selector herror => ?_⟩
  · obtain ⟨s, hs', hcss⟩ := Traced.bind_eq_ok.mp hcss
    obtain ⟨out, hout, -⟩ := Traced.bind_eq_ok.mp hcss
    rw [hread] at hs'
    cases hs'
    exact isPure_of_process rfl hout hp hs
  · have hfails : (transform ⟨.pure, urlMap⟩ source).FailsOnly
        (Refusal (.ofSheet ⟨.pure, urlMap⟩ sheet) (rulesAmong [] sheet.nodes)) := by
      refine (Traced.FailsOnly.of_ok hread).bind fun s hs => ?_
      rw [hread] at hs
      cases hs
      exact (failsOnly_process _ sheet).bind fun _ _ => .pure _
    exact hfails _ herror selector rfl

/-- `&` under a pure rule and behind an at-rule is a local part, and the steps of
`@keyframes` are not looked at. A second alternative without a local part makes
a rule that is refused. -/
theorem isPure_of_transform_nested :
    (∃ sheet,
      (Sheet.parse ".a\x7b@media m\x7b&>b\x7b\x7d\x7d\x7d@keyframes k\x7bto\x7b\x7d\x7d").result =
        .ok sheet ∧
      (∃ css, (transform ⟨.pure, none⟩
        ".a\x7b@media m\x7b&>b\x7b\x7d\x7d\x7d@keyframes k\x7bto\x7b\x7d\x7d").result = .ok css) ∧
      (rulesAmong [] sheet.nodes).filter (!inStep ·) =
        [[.rule ".a"], [.rule "&>b", .atRule "media" "m", .rule ".a"]] ∧
      ∀ place ∈ rulesAmong [] sheet.nodes, inStep place = false →
        (Job.ofSheet ⟨.pure, none⟩ sheet).isPure place) ∧
    ∃ sheet,
      (Sheet.parse ".a\x7b.c,:global(.d)\x7b\x7d\x7d").result = .ok sheet ∧
      (transform ⟨.pure, none⟩ ".a\x7b.c,:global(.d)\x7b\x7d\x7d").result =
        .error (.notPureSelector ".c,:global(.d)") ∧
      ∃ around, .rule ".c,:global(.d)" :: around ∈ rulesAmong [] sheet.nodes ∧
        inStep (.rule ".c,:global(.d)" :: around) = false ∧
        (Job.ofSheet ⟨.pure, none⟩ sheet).Lacks ".c,:global(.d)" around := by
  constructor
  · have hok :
        (match (Sheet.parse
          ".a\x7b@media m\x7b&>b\x7b\x7d\x7d\x7d@keyframes k\x7bto\x7b\x7d\x7d").result with
        | .ok sheet =>
          (transform ⟨.pure, none⟩
            ".a\x7b@media m\x7b&>b\x7b\x7d\x7d\x7d@keyframes k\x7bto\x7b\x7d\x7d").result.isOk &&
            (rulesAmong [] sheet.nodes).filter (!inStep ·) =
              [[.rule ".a"], [.rule "&>b", .atRule "media" "m", .rule ".a"]]
        | .error _ => false) = true := by
      decide +kernel
    split at hok
    next sheet hsheet =>
      obtain ⟨htransform, hrules⟩ := (Bool.and_eq_true _ _).mp hok
      obtain ⟨css, hcss, hpure⟩ :=
        exists_ok_of_isOk htransform fun css h => (isPure_of_transform hsheet).1 css h
      exact ⟨sheet, hsheet, ⟨css, hcss⟩, of_decide_eq_true hrules, hpure⟩
    next => cases hok
  · refine exists_ok_of_isOk (by decide +kernel) fun sheet hsheet => ?_
    have hrefused : (transform ⟨.pure, none⟩ ".a\x7b.c,:global(.d)\x7b\x7d\x7d").result =
        .error (.notPureSelector ".c,:global(.d)") := by
      decide +kernel
    exact ⟨hrefused, (isPure_of_transform hsheet).2 _ hrefused⟩

end Scope
end StyleScope
