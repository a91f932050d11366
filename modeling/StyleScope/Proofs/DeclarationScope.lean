/-
# How often a declaration is scoped

The two passes divide the declarations among them. The first takes those that
stand in `@keyframes`, at any depth, and those directly in the block of
another at-rule; the second takes those directly in a rule, unless a rule
around stands directly in `@keyframes`. `Frame`s are what a pass knows of a
place: the rules and at-rules around it. `Job.firstScope?` and
`Job.secondScope?` say from them alone whether a pass scopes a declaration,
and in which scope (`each_of_atRun`, `each_of_ruleRun`).

A declaration in a block falls to exactly one pass, except where it stands
directly in a rule, in `@keyframes`, and an at-rule comes between the two
(`isRevisited`). There both passes scope it, the second what the first made
of it, and the urls in it are handed out twice.

Key definitions: `Scope.Frame`, `Scope.placedAmong`, `Scope.isRevisited`,
`Scope.Job.scope`, `Scope.Scoped`.
Key theorems: `Scope.scoped_process`.
-/
import StyleScope.Proofs.AgreedScope
import StyleScope.Proofs.Passes

namespace StyleScope
namespace Scope

open Sheet (Declaration Node)

/-! ### Declarations and what stands around them -/

/-- A rule or an at-rule, seen from its block. -/
inductive Frame where
  | rule (selector : String)
  | atRule (name params : String)
  deriving DecidableEq, Repr

/-- A declaration, and the rules and at-rules around it from the inside out. -/
structure Placed where
  around : List Frame
  declaration : Declaration
  deriving DecidableEq, Repr

mutual

/-- The declarations in a node that stands in these frames. -/
def placedIn (around : List Frame) : Node → List Placed
  | .rule head body _ => placedAmong (.rule head.selector :: around) body
  | .atBlock head body _ => placedAmong (.atRule head.name head.params :: around) body
  | .atStatement _ _ => []
  | .declaration d => [⟨around, d⟩]
  | .comment _ => []

/-- The declarations in the nodes, in document order. -/
def placedAmong (around : List Frame) : List Node → List Placed
  | [] => []
  | n :: ns => placedIn around n ++ placedAmong around ns

end

theorem placedAmong_eq_flatMap (around : List Frame) (ns : List Node) :
    placedAmong around ns = ns.flatMap (placedIn around) := by
  induction ns with
  | nil => rfl
  | cons n ns ih => rw [placedAmong, List.flatMap_cons, ih]

/-- The prelude of the outermost `@keyframes` around. -/
def keyframes? : List Frame → Option String
  | [] => none
  | .rule _ :: around => keyframes? around
  | .atRule name params :: around =>
    (keyframes? around).or (if isKeyframes name then some params else none)

def Frame.isKeyframes : Frame → Bool
  | .rule _ => false
  | .atRule name _ => Scope.isKeyframes name

/-- Directly in an at-rule, its name says whether that is `@keyframes`. -/
theorem head?_atRule (name params : String) (around : List Frame) :
    isKeyframes name = (Frame.atRule name params :: around).head?.any Frame.isKeyframes := by
  rw [List.head?_cons, Option.any_some, Frame.isKeyframes]

/-- Whether one of the rules around stands directly in `@keyframes`. -/
def inStep : List Frame → Bool
  | [] => false
  | .rule _ :: around => around.head?.any Frame.isKeyframes || inStep around
  | .atRule _ _ :: around => inStep around

/-- Whether both passes scope a declaration at this place: it stands directly
in a rule, in `@keyframes`, and no rule around stands directly there. -/
def isRevisited : List Frame → Bool
  | .rule selector :: around => (keyframes? around).isSome && !inStep (.rule selector :: around)
  | _ => false

/-! ### Scopes -/

/-- The scope that the alternatives of a selector list end in. -/
def endScope (isGlobal : Bool) (alternatives : List Selector.Tree) : Bool :=
  (alternatives.head?.map (endsGlobal isGlobal)).getD isGlobal

namespace Job

variable (job : Job)

/-- The scope of the names in `@keyframes` with this prelude. -/
def keyframesScope (params : String) : Bool :=
  match localizeKeyframes job.options.mode job.aliases params with
  | .ok k => k.isGlobal
  | .error _ => job.options.mode.isGlobal

/-- The scope that a selector gives to the declarations of its rule. -/
def ruleScope (selector : String) : Bool :=
  match Selector.parse selector with
  | .ok t => endScope job.options.mode.isGlobal t.children
  | .error _ => job.options.mode.isGlobal

/-- The scope of a declaration: that of the `@keyframes` around it, or else of
the rule that it stands directly in, or else of the mode. -/
def scope (around : List Frame) : Bool :=
  match keyframes? around, around with
  | some params, _ => job.keyframesScope params
  | none, .rule selector :: _ => job.ruleScope selector
  | none, _ => job.options.mode.isGlobal

/-- The scope that the first pass gives to a declaration, if it does. -/
def firstScope? (around : List Frame) : Option Bool :=
  match keyframes? around, around with
  | some params, _ => some (job.keyframesScope params)
  | none, .atRule _ _ :: _ => some job.options.mode.isGlobal
  | none, _ => none

/-- The scope that the second pass gives to a declaration, if it does. -/
def secondScope? (around : List Frame) : Option Bool :=
  match around with
  | .rule selector :: _ => if inStep around then none else some (job.ruleScope selector)
  | _ => none

end Job

/-- A successful resolution ends in the scope of its first alternative. -/
theorem isGlobal_of_resolve {ctx : Context} {isGlobal : Bool} {t out : Selector.Tree}
    {r : Resolution} (h : (resolve ctx isGlobal t).result = .ok (out, r)) :
    r.isGlobal = endScope isGlobal t.children := by
  obtain ⟨outs, hr, -⟩ := resolve_eq_ok h
  cases hc : t.children with
  | nil =>
    rw [hc] at hr
    obtain ⟨-, rfl⟩ := resolveAlternatives_nil hr
    rfl
  | cons a ts =>
    obtain ⟨b, w, hb, hw⟩ := (ends_of_resolveAlternatives hr).2 a (by simp [hc])
    rw [← hw, isGlobal_of_resolveAlternative hb]
    rfl

theorem isGlobal_of_resolveText {job : Job} {parentIsPure : Bool} {selector text : String}
    {impure : Error} {r : Resolution}
    (h : (resolveText job parentIsPure selector impure).result = .ok (text, r)) :
    r.isGlobal = job.ruleScope selector := by
  obtain ⟨t, out, hparse, hr, -⟩ := exists_of_resolveText h
  rw [isGlobal_of_resolve hr, Job.ruleScope, hparse]

/-! ### The first pass -/

/-- The frame without the prelude, which the first pass may change. -/
def Frame.blank : Frame → Frame
  | .rule selector => .rule selector
  | .atRule name _ => .atRule name ""

/-- The declaration is scoped where a scope is given, and else left alone. -/
def ScopedAt (job : Job) (scope? : Option Bool) (d d' : Declaration) (us : Urls) : Prop :=
  match scope? with
  | none => d' = d ∧ us = 0
  | some isGlobal => (localizeDeclaration (job.place isGlobal) d).Gives d' us

/-- What the first pass makes of a declaration. -/
structure FirstVisit (job : Job) (a b : Placed) (us : Urls) : Prop where
  around : a.around.map Frame.blank = b.around.map Frame.blank
  visit : ScopedAt job (job.firstScope? a.around) a.declaration b.declaration us

section FirstPass

variable {job : Job} {n n' : Node} {us : Urls} {around around' : List Frame}

theorem firstScope?_of_keyframes {params : String} (hk : keyframes? around = some params) :
    job.firstScope? around = some (job.keyframesScope params) := by
  unfold Job.firstScope?
  rw [hk]

/-- All declarations in `@keyframes` are visited in the scope of its name. -/
theorem each_of_nestedRun {params : String} {isGlobal : Bool}
    (hs : job.keyframesScope params = isGlobal) (hk : keyframes? around = some params)
    (ha : around.map Frame.blank = around'.map Frame.blank)
    (h : NestedRun (job.place isGlobal) n n' us) :
    Each (FirstVisit job) (placedIn around n) (placedIn around' n') us := by
  induction n using Node.induction generalizing n' us around around' with
  | rule head body after ih =>
    cases nestedStep_of_run h with
    | rule _ _ hbody =>
      rw [placedIn, placedIn, placedAmong_eq_flatMap, placedAmong_eq_flatMap]
      refine hbody.flatMap fun m hm m' vs hrun => ih m hm hk ?_ hrun
      rw [List.map_cons, List.map_cons, ha]
  | atBlock head body after ih =>
    cases nestedStep_of_run h with
    | atBlock _ _ hbody =>
      rw [placedIn, placedIn, placedAmong_eq_flatMap, placedAmong_eq_flatMap]
      refine hbody.flatMap fun m hm m' vs hrun => ih m hm ?_ ?_ hrun
      · rw [keyframes?, hk, Option.some_or]
      · rw [List.map_cons, List.map_cons, ha]
  | atStatement head semicolon =>
    cases nestedStep_of_run h
    exact .nil
  | declaration d =>
    cases nestedStep_of_run h with
    | declaration hd =>
      refine .single ⟨ha, ?_⟩
      rw [firstScope?_of_keyframes hk, hs]
      exact hd
  | comment c =>
    cases nestedStep_of_run h
    exact .nil

/-- The first pass scopes what `Job.firstScope?` says. -/
theorem each_of_atRun (hk : keyframes? around = none)
    (hd : ∀ d, n = .declaration d → job.firstScope? around = none)
    (ha : around.map Frame.blank = around'.map Frame.blank) (h : AtRun job n n' us) :
    Each (FirstVisit job) (placedIn around n) (placedIn around' n') us := by
  induction n using Node.induction generalizing n' us around around' with
  | rule head body after ih =>
    cases atStep_of_run h with
    | rule _ _ hbody =>
      rw [placedIn, placedIn, placedAmong_eq_flatMap, placedAmong_eq_flatMap]
      refine hbody.flatMap fun m hm m' vs hrun => ih m hm hk (fun _ _ => ?_) ?_ hrun
      · simp only [Job.firstScope?, keyframes?, hk]
      · rw [List.map_cons, List.map_cons, ha]
  | atBlock head body after ih =>
    cases atStep_of_run h with
    | @keyframes _ _ _ _ isGlobal _ _ hname hp hbody =>
      have hscope : job.keyframesScope head.params = isGlobal := by
        rw [Job.keyframesScope, hp]
      rw [placedIn, placedIn, placedAmong_eq_flatMap, placedAmong_eq_flatMap]
      refine hbody.flatMap fun m _ m' vs hrun => each_of_nestedRun hscope ?_ ?_ hrun
      · rw [keyframes?, hk, Option.none_or, if_pos hname]
      · rw [List.map_cons, List.map_cons, ha]
        rfl
    | atBlock _ hname _ hbody =>
      have hk' : keyframes? (.atRule head.name head.params :: around) = none := by
        rw [keyframes?, hk, Option.none_or, if_neg (by simp [hname])]
      have hscope : job.firstScope? (.atRule head.name head.params :: around) =
          some job.options.mode.isGlobal := by
        simp only [Job.firstScope?, hk']
      rw [placedIn, placedIn, placedAmong_eq_flatMap, placedAmong_eq_flatMap]
      refine hbody.flatMap fun m hm m' vs hrun => ?_
      by_cases hdecl : ∃ d, m = .declaration d
      · obtain ⟨d, rfl⟩ := hdecl
        obtain ⟨d', rfl, hd'⟩ := hrun
        refine .single ⟨?_, ?_⟩
        · rw [List.map_cons, List.map_cons, ha]
          rfl
        · rw [hscope]
          exact hd'
      · have hne : ∀ d, m ≠ .declaration d := fun d hm => hdecl ⟨d, hm⟩
        refine ih m hm hk' (fun d hm => absurd hm (hne d)) ?_ ((within_of_ne hne).mp hrun)
        rw [List.map_cons, List.map_cons, ha]
        rfl
  | atStatement head semicolon => cases atStep_of_run h <;> exact .nil
  | declaration d =>
    cases atStep_of_run h
    refine .single ⟨ha, ?_⟩
    rw [hd d rfl]
    exact ⟨rfl, rfl⟩
  | comment c =>
    cases atStep_of_run h
    exact .nil

end FirstPass

/-! ### The second pass -/

/-- What the second pass makes of a declaration. -/
def SecondVisit (job : Job) (a b : Placed) (us : Urls) : Prop :=
  ScopedAt job (job.secondScope? a.around) a.declaration b.declaration us

section SecondPass

variable {job : Job} {n n' : Node} {us : Urls} {around around' : List Frame}

theorem inStep_blank (around : List Frame) :
    inStep (around.map Frame.blank) = inStep around := by
  induction around with
  | nil => rfl
  | cons f around ih =>
    cases f with
    | atRule name params => exact ih
    | rule selector =>
      rw [List.map_cons, Frame.blank, inStep, inStep, ih]
      rcases around with _ | ⟨_ | _, _⟩ <;> rfl

/-- The second pass does not depend on preludes. -/
theorem secondScope?_blank (job : Job) (around : List Frame) :
    job.secondScope? (around.map Frame.blank) = job.secondScope? around := by
  rcases around with _ | ⟨selector | ⟨name, params⟩, around⟩
  · rfl
  · have hstep := inStep_blank (.rule selector :: around)
    rw [List.map_cons, Frame.blank] at hstep
    rw [List.map_cons, Frame.blank, Job.secondScope?, Job.secondScope?, hstep]
  · rfl

/-- Inside of a rule directly in `@keyframes` nothing is visited. -/
theorem each_of_inStep (hs : inStep around) (n : Node) :
    Each (SecondVisit job) (placedIn around n) (placedIn around' n) 0 := by
  induction n using Node.induction generalizing around around' with
  | rule head body after ih =>
    rw [placedIn, placedIn, placedAmong_eq_flatMap, placedAmong_eq_flatMap]
    refine .flatMap_zero fun n hn => ih n hn ?_
    rw [inStep, hs, Bool.or_true]
  | atBlock head body after ih =>
    rw [placedIn, placedIn, placedAmong_eq_flatMap, placedAmong_eq_flatMap]
    exact .flatMap_zero fun n hn => ih n hn hs
  | atStatement head semicolon => exact .nil
  | declaration d =>
    refine .single ?_
    have hnone : job.secondScope? around = none := by
      rcases around with _ | ⟨_ | _, _⟩
      · rfl
      · rw [Job.secondScope?, if_pos hs]
      · rfl
    rw [SecondVisit, hnone]
    exact ⟨rfl, rfl⟩
  | comment c => exact .nil

/-- The second pass scopes what `Job.secondScope?` says. -/
theorem each_of_ruleRun {inKeyframes parentIsPure : Bool} (hs : inStep around = false)
    (hk : inKeyframes = around.head?.any Frame.isKeyframes)
    (hd : ∀ d, n = .declaration d → job.secondScope? around = none)
    (h : RuleRun job inKeyframes parentIsPure n n' us) :
    Each (SecondVisit job) (placedIn around n) (placedIn around' n') us := by
  induction n using Node.induction generalizing n' us around around' inKeyframes parentIsPure with
  | rule head body after ih =>
    cases ruleStep_of_run h with
    | skip _ _ _ hin =>
      have hstep : inStep (.rule head.selector :: around) := by
        rw [inStep, ← hk, hin, Bool.true_or]
      rw [placedIn, placedIn, placedAmong_eq_flatMap, placedAmong_eq_flatMap]
      exact .flatMap_zero fun m _ => each_of_inStep hstep m
    | @rule _ _ _ selector r _ _ hin hr hbody =>
      have hs' : inStep (.rule head.selector :: around) = false := by
        rw [inStep, hs, ← hk, hin, Bool.or_false]
      have hscope : job.secondScope? (.rule head.selector :: around) = some r.isGlobal := by
        rw [Job.secondScope?, hs', isGlobal_of_resolveText hr]
        rfl
      rw [placedIn, placedIn, placedAmong_eq_flatMap, placedAmong_eq_flatMap]
      refine hbody.flatMap fun m hm m' vs hrun => ?_
      by_cases hdecl : ∃ d, m = .declaration d
      · obtain ⟨d, rfl⟩ := hdecl
        obtain ⟨d', rfl, hd'⟩ := hrun
        refine .single ?_
        rw [SecondVisit, hscope]
        exact hd'
      · have hne : ∀ d, m ≠ .declaration d := fun d hm => hdecl ⟨d, hm⟩
        exact ih m hm hs' rfl (fun d hm => absurd hm (hne d)) ((within_of_ne hne).mp hrun)
  | atBlock head body after ih =>
    cases ruleStep_of_run h with
    | atBlock _ _ hbody =>
      rw [placedIn, placedIn, placedAmong_eq_flatMap, placedAmong_eq_flatMap]
      exact hbody.flatMap fun m hm m' vs hrun =>
        ih m hm hs (head?_atRule ..) (fun _ _ => rfl) hrun
  | atStatement head semicolon =>
    cases ruleStep_of_run h
    exact .nil
  | declaration d =>
    cases ruleStep_of_run h
    refine .single ?_
    rw [SecondVisit, hd d rfl]
    exact ⟨rfl, rfl⟩
  | comment c =>
    cases ruleStep_of_run h
    exact .nil

end SecondPass

/-! ### Both passes -/

/-- What becomes of a declaration. One outside of blocks is left alone, one in
a block is scoped once, in its scope, and only a revisited one is scoped a
second time, in the scope of its rule. -/
structure Scoped (job : Job) (a b : Placed) (us : Urls) : Prop where
  outside : a.around = [] → b.declaration = a.declaration ∧ us = 0
  once : a.around ≠ [] → isRevisited a.around = false →
    (localizeDeclaration (job.place (job.scope a.around)) a.declaration).Gives b.declaration us
  twice : ∀ selector outer, a.around = .rule selector :: outer → isRevisited a.around →
    ∃ d vs ws,
      (localizeDeclaration (job.place (job.scope a.around)) a.declaration).Gives d vs ∧
      (localizeDeclaration (job.place (job.ruleScope selector)) d).Gives b.declaration ws ∧
      us = vs + ws

theorem isSome_keyframes?_of_inStep {around : List Frame} (h : inStep around) :
    (keyframes? around).isSome := by
  induction around with
  | nil => cases h
  | cons f around ih =>
    cases f with
    | atRule name params =>
      obtain ⟨outermost, hk⟩ := Option.isSome_iff_exists.mp (ih h)
      rw [keyframes?, hk]
      rfl
    | rule selector =>
      rcases Bool.or_eq_true_iff.mp h with hf | hs
      · rcases around with _ | ⟨selector' | ⟨name, params⟩, around⟩
        · cases hf
        · cases hf
        · rw [← head?_atRule] at hf
          rw [keyframes?, keyframes?, if_pos hf]
          cases keyframes? around <;> rfl
      · exact ih hs

/-- In a block, exactly one pass scopes a declaration that is not revisited. -/
theorem scopes_of_not_isRevisited {around : List Frame} (job : Job) (hne : around ≠ [])
    (hr : isRevisited around = false) :
    job.firstScope? around = some (job.scope around) ∧ job.secondScope? around = none ∨
      job.firstScope? around = none ∧ job.secondScope? around = some (job.scope around) := by
  unfold Job.firstScope? Job.scope
  rcases around with _ | ⟨selector | ⟨name, params⟩, outer⟩
  · exact absurd rfl hne
  · cases hk : keyframes? (.rule selector :: outer) with
    | some params =>
      have hstep : inStep (.rule selector :: outer) := by
        have hsome : (keyframes? outer).isSome := Option.isSome_of_eq_some hk
        simpa [isRevisited, hsome] using hr
      exact .inl ⟨rfl, if_pos hstep⟩
    | none =>
      have hstep : inStep (.rule selector :: outer) ≠ true := by
        intro h
        have hsome := isSome_keyframes?_of_inStep h
        rw [hk] at hsome
        cases hsome
      exact .inr ⟨rfl, if_neg hstep⟩
  · cases hk : keyframes? (.atRule name params :: outer) with
    | some params => exact .inl ⟨rfl, rfl⟩
    | none => exact .inl ⟨rfl, rfl⟩

/-- Both passes scope a revisited declaration. -/
theorem scopes_of_isRevisited {selector : String} {outer : List Frame} (job : Job)
    (hr : isRevisited (.rule selector :: outer)) :
    job.firstScope? (.rule selector :: outer) = some (job.scope (.rule selector :: outer)) ∧
      job.secondScope? (.rule selector :: outer) = some (job.ruleScope selector) := by
  obtain ⟨hk, hs⟩ := (Bool.and_eq_true_iff).mp hr
  obtain ⟨params, hparams⟩ := Option.isSome_iff_exists.mp hk
  have hparams' : keyframes? (.rule selector :: outer) = some params := hparams
  refine ⟨?_, if_neg (by simpa using hs)⟩
  unfold Job.firstScope? Job.scope
  rw [hparams']

/-- Two visits, one for each pass, scope a declaration as `Scoped` says. -/
theorem scoped_of_visits {job : Job} {a b c : Placed} {us vs : Urls} (h : FirstVisit job a b us)
    (h' : SecondVisit job b c vs) : Scoped job a c (us + vs) := by
  have hsecond : ScopedAt job (job.secondScope? a.around) b.declaration c.declaration vs := by
    rw [← secondScope?_blank, h.around, secondScope?_blank]
    exact h'
  have hfirst := h.visit
  refine ⟨fun ha => ?_, fun hne hr => ?_, fun selector outer ha hr => ?_⟩
  · rw [ha] at hfirst hsecond
    exact ⟨hsecond.1.trans hfirst.1, by rw [hfirst.2, hsecond.2, add_zero]⟩
  · rcases scopes_of_not_isRevisited job hne hr with ⟨h₁, h₂⟩ | ⟨h₁, h₂⟩
    · rw [h₁] at hfirst
      rw [h₂] at hsecond
      rw [hsecond.1, hsecond.2, add_zero]
      exact hfirst
    · rw [h₁] at hfirst
      rw [h₂, hfirst.1] at hsecond
      rw [hfirst.2, zero_add]
      exact hsecond
  · rw [ha] at hr
    obtain ⟨h₁, h₂⟩ := scopes_of_isRevisited job hr
    rw [ha] at hfirst hsecond ⊢
    rw [h₁] at hfirst
    rw [h₂] at hsecond
    exact ⟨_, _, _, hfirst, hsecond, rfl⟩

/-- **A declaration in a block is scoped once, unless it is revisited.** -/
theorem scoped_process {options : Options} {sheet out : Sheet}
    (h : (process options sheet).result = .ok out) :
    Each (Scoped ⟨options, importedNames sheet.nodes⟩) (placedAmong [] sheet.nodes)
      (placedAmong [] out.nodes) (process options sheet).urls := by
  obtain ⟨nodes, us, vs, hfirst, hsecond, hu, -⟩ := each_of_process ⟨h, rfl⟩
  rw [hu, placedAmong_eq_flatMap, placedAmong_eq_flatMap]
  have hfirst' : Each (FirstVisit _) (sheet.nodes.flatMap (placedIn []))
      (nodes.flatMap (placedIn [])) us :=
    hfirst.flatMap fun n _ n' ws hrun => each_of_atRun rfl (fun _ _ => rfl) rfl hrun
  have hsecond' : Each (SecondVisit _) (nodes.flatMap (placedIn []))
      (out.nodes.flatMap (placedIn [])) vs :=
    hsecond.flatMap fun n _ n' ws hrun => each_of_ruleRun rfl rfl (fun _ _ => rfl) hrun
  refine (hfirst'.trans hsecond').imp_mem ?_
  rintro a - c ws ⟨b, us, vs, hab, hbc, rfl⟩
  exact scoped_of_visits hab hbc

/-- Local by default, and a letter is put in front of every url. -/
def marking : Options := ⟨.localByDefault, some fun _ url => "p" ++ url⟩

/-- In `@keyframes`, a declaration of a step and one that is revisited, and then
one directly in an at-rule and one in a rule whose selector ends in global
scope. -/
theorem scoped_process_nested :
    ∃ sheet out,
      (Sheet.parse ("@keyframes k\x7bfrom\x7ba:url(s)\x7d@media m\x7b.a\x7bb:url(t)\x7d\x7d\x7d" ++
        "@media m\x7bc:url(u)\x7d:global .d\x7be:url(v)\x7d")).result = .ok sheet ∧
      (process marking sheet).result = .ok out ∧
      (placedAmong [] sheet.nodes).map (fun a => (a.declaration.value, isRevisited a.around)) =
        [("url(s)", false), ("url(t)", true), ("url(u)", false), ("url(v)", false)] ∧
      Each (Scoped ⟨marking, importedNames sheet.nodes⟩) (placedAmong [] sheet.nodes)
        (placedAmong [] out.nodes) (process marking sheet).urls := by
  have hok :
      (match (Sheet.parse
        ("@keyframes k\x7bfrom\x7ba:url(s)\x7d@media m\x7b.a\x7bb:url(t)\x7d\x7d\x7d" ++
        "@media m\x7bc:url(u)\x7d:global .d\x7be:url(v)\x7d")).result with
      | .ok sheet =>
        (process marking sheet).result.isOk &&
          (placedAmong [] sheet.nodes).map (fun a => (a.declaration.value, isRevisited a.around)) =
            [("url(s)", false), ("url(t)", true), ("url(u)", false), ("url(v)", false)]
      | .error _ => false) = true := by
    decide +kernel
  split at hok
  next sheet hsheet =>
    obtain ⟨hprocess, hplaced⟩ := (Bool.and_eq_true _ _).mp hok
    obtain ⟨out, hout, h⟩ := exists_ok_of_isOk hprocess fun _ hr => scoped_process hr
    exact ⟨sheet, out, hsheet, hout, of_decide_eq_true hplaced, h⟩
  next => cases hok

/-- A declaration that is revisited hands out its url, and then what the url was
replaced by, and no single scoping gives the value that it ends with. -/
theorem revisited_scoped_twice :
    ∃ sheet out d d',
      (Sheet.parse "@keyframes k\x7b@media m\x7b.a\x7bbackground:url(u)\x7d\x7d\x7d").result =
        .ok sheet ∧
      (process marking sheet).result = .ok out ∧
      (placedAmong [] sheet.nodes).map (·.declaration) = [d] ∧
      (placedAmong [] out.nodes).map (·.declaration) = [d'] ∧
      d.value = "url(u)" ∧ d'.value = "url(ppu)" ∧
      (∀ isGlobal, (localizeDeclaration (Job.place ⟨marking, []⟩ isGlobal) d).result ≠ .ok d') ∧
      Event.urls (process marking sheet).events = [(false, "u"), (false, "pu")] := by
  have hok :
      (match (Sheet.parse "@keyframes k\x7b@media m\x7b.a\x7bbackground:url(u)\x7d\x7d\x7d").result
        with
      | .ok sheet =>
        match (process marking sheet).result with
        | .ok out =>
          ((placedAmong [] sheet.nodes).map (·.declaration)).length = 1 &&
            ((placedAmong [] out.nodes).map (·.declaration)).length = 1 &&
            ((placedAmong [] sheet.nodes).map (·.declaration)).all fun d =>
              ((placedAmong [] out.nodes).map (·.declaration)).all fun d' =>
                d.value = "url(u)" ∧ d'.value = "url(ppu)" ∧
                (∀ isGlobal,
                  (localizeDeclaration (Job.place ⟨marking, []⟩ isGlobal) d).result ≠ .ok d') ∧
                Event.urls (process marking sheet).events = [(false, "u"), (false, "pu")]
        | .error _ => false
      | .error _ => false) = true := by
    decide +kernel
  split at hok
  next sheet hsheet =>
    split at hok
    next out hout =>
      simp only [Bool.and_eq_true, decide_eq_true_eq, List.all_eq_true] at hok
      obtain ⟨⟨hone, hone'⟩, hall⟩ := hok
      obtain ⟨d, hd⟩ := List.length_eq_one_iff.mp hone
      obtain ⟨d', hd'⟩ := List.length_eq_one_iff.mp hone'
      refine ⟨sheet, out, d, d', hsheet, hout, hd, hd', hall d ?_ d' ?_⟩
      · simp [hd]
      · simp [hd']
    next => cases hok
  next => cases hok

end Scope
end StyleScope
