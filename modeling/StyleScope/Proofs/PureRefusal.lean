/-
# Pure mode only refuses

Pure mode scopes names as local mode does, and checks on the way: the name of
`@keyframes` must not be global, and every alternative of a selector must have
a local part. So a run in pure mode is the run in local mode, reports and
handed out urls included, or a check ends it. `Traced.Narrows` says so of two
runs. It is kept by running one thing after the other (`Narrows.bind`), and
the mode is looked at in two places only (`narrows_resolveText`,
`narrows_resolveKeyframes`); what is built from these narrows as they do.

Key definitions: `Traced.Narrows`, `Scope.Error.isPurity`.
Key theorems: `Traced.Narrows.bind`, `Scope.narrows_process`,
`Scope.transform_local_of_pure`.
-/
import StyleScope.Proofs.Passes

namespace StyleScope

/-! ### Runs that are another run or fail -/

namespace Traced

variable {ε α β : Type} {p : ε → Prop}

/-- The run is the other one, or it fails with an error that `p` holds of. -/
def Narrows (p : ε → Prop) (x y : Traced ε α) : Prop :=
  x = y ∨ ∃ e, x.result = .error e ∧ p e

namespace Narrows

theorem refl (x : Traced ε α) : x.Narrows p x :=
  .inl rfl

/-- Of two runs in a row each may be the one that fails. -/
theorem bind {x y : Traced ε α} {f g : α → Traced ε β} (h : x.Narrows p y)
    (hf : ∀ a, (f a).Narrows p (g a)) : (x >>= f).Narrows p (y >>= g) := by
  rcases h with rfl | ⟨e, he, hp⟩
  · by_cases hfail : ∃ a e, x.result = .ok a ∧ (f a).result = .error e ∧ p e
    · obtain ⟨a, e, ha, he, hp⟩ := hfail
      refine .inr ⟨e, ?_, hp⟩
      rw [result_bind, ha]
      exact he
    · refine .inl (bind_congr_of_ok fun a ha => (hf a).resolve_right ?_)
      rintro ⟨e, he, hp⟩
      exact hfail ⟨a, e, ha, he, hp⟩
  · refine .inr ⟨e, ?_, hp⟩
    rw [result_bind, he]
    rfl

theorem mapM {f g : α → Traced ε β} {as : List α} (h : ∀ a ∈ as, (f a).Narrows p (g a)) :
    (as.mapM f).Narrows p (as.mapM g) := by
  induction as with
  | nil => exact refl _
  | cons a as ih =>
    rw [List.mapM_cons, List.mapM_cons]
    refine (h a List.mem_cons_self).bind fun b => ?_
    exact (ih fun b hb => h b (List.mem_cons_of_mem a hb)).bind fun bs => refl _

/-- A run that narrows another succeeds only where the other does, in the same
way. -/
theorem eq_of_ok {x y : Traced ε α} {a : α} (h : x.Narrows p y) (hx : x.result = .ok a) :
    y = x := by
  rcases h with rfl | ⟨e, he, -⟩
  · rfl
  · rw [hx] at he
    cases he

/-- Where the other fails, a run that narrows it fails with the same error or
with one of its own. -/
theorem exists_error {x y : Traced ε α} {e : ε} (h : x.Narrows p y) (hy : y.result = .error e) :
    ∃ e', x.result = .error e' ∧ (e' = e ∨ p e') := by
  rcases h with rfl | ⟨e', he, hp⟩
  · exact ⟨e, hy, .inl rfl⟩
  · exact ⟨e', he, .inr hp⟩

end Narrows
end Traced

namespace Scope

open Sheet (AtHead Declaration Node RuleHead)

/-- The errors of the checks that only pure mode makes. -/
def Error.isPurity : Error → Bool
  | notPureSelector _ | notPureAtRuleSelector _ | pureKeyframesGlobal => true
  | _ => false

/-- The same job in this mode. -/
def Job.inMode (job : Job) (mode : Mode) : Job :=
  { job with options := { job.options with mode } }

/-! ### Selectors and preludes -/

section Passes

variable (job : Job)

/-- A selector is resolved as in local mode, and then it may be refused. -/
theorem narrows_resolveText (parentIsPure : Bool) (selector : String) {impure : Error}
    (h : impure.isPurity) :
    (resolveText (job.inMode .pure) parentIsPure selector impure).Narrows (·.isPurity)
      (resolveText (job.inMode .localByDefault) parentIsPure selector impure) := by
  unfold resolveText
  refine (Traced.Narrows.refl _).bind fun t => (Traced.Narrows.refl _).bind fun (out, r) => ?_
  dsimp only
  by_cases hr : r.hasPureGlobals
  · rw [if_pos ⟨rfl, hr⟩]
    exact .inr ⟨impure, rfl, h⟩
  · rw [if_neg fun hc => hr hc.2, if_neg fun hc => hr hc.2]
    exact .refl _

theorem narrows_resolvePreludeText (text : String) :
    (resolvePreludeText (job.inMode .pure) text).Narrows (·.isPurity)
      (resolvePreludeText (job.inMode .localByDefault) text) :=
  (narrows_resolveText job false (Text.trim text) rfl).bind fun _ => .refl _

theorem narrows_resolvePreludeText? (text : Option String) :
    (resolvePreludeText? (job.inMode .pure) text).Narrows (·.isPurity)
      (resolvePreludeText? (job.inMode .localByDefault) text) := by
  cases text with
  | none => exact .refl _
  | some text => exact (narrows_resolvePreludeText job text).bind fun _ => .refl _

theorem narrows_resolveAtHead (head : AtHead) :
    (resolveAtHead (job.inMode .pure) head).Narrows (·.isPurity)
      (resolveAtHead (job.inMode .localByDefault) head) := by
  unfold resolveAtHead resolvePrelude
  split
  · split
    · exact .refl _
    · split
      · exact .refl _
      next prelude _ =>
        refine (narrows_resolvePreludeText? job prelude.start).bind fun start => ?_
        exact (narrows_resolvePreludeText? job prelude.limit).bind fun limit => .refl _
  · exact .refl _

/-- The name of `@keyframes` is resolved as in local mode, unless it is global. -/
theorem narrows_resolveKeyframes (head : AtHead) :
    (resolveKeyframes (job.inMode .pure) head).Narrows (·.isPurity)
      (resolveKeyframes (job.inMode .localByDefault) head) := by
  refine Traced.Narrows.bind ?_ fun k => .refl _
  unfold localizeKeyframes
  cases callBody? .globalScope head.params with
  | some name => exact .inr ⟨.pureKeyframesGlobal, rfl, rfl⟩
  | none => exact .refl _

/-! ### The passes -/

theorem narrows_atRuleNode (n : Node) :
    (atRuleNode (job.inMode .pure) n).Narrows (·.isPurity)
      (atRuleNode (job.inMode .localByDefault) n) := by
  induction n using Node.induction with
  | rule head body after ih =>
    rw [atRuleNode, atRuleNode, atRulePass_eq_mapM, atRulePass_eq_mapM]
    exact (Traced.Narrows.mapM ih).bind fun _ => .refl _
  | atBlock head body after ih =>
    rw [atRuleNode, atRuleNode, atRulePass_eq_mapM, atRulePass_eq_mapM]
    split
    · exact (narrows_resolveKeyframes job head).bind fun _ => .refl _
    · -- the declarations directly in the block are scoped alike
      refine (narrows_resolveAtHead job head).bind fun head' => ?_
      refine (Traced.Narrows.refl _).bind fun ds => ?_
      exact (Traced.Narrows.mapM ih).bind fun _ => .refl _
  | atStatement head semicolon =>
    rw [atRuleNode, atRuleNode]
    split
    · exact (narrows_resolveKeyframes job head).bind fun _ => .refl _
    · exact (narrows_resolveAtHead job head).bind fun _ => .refl _
  | declaration d =>
    rw [atRuleNode, atRuleNode]
    exact .refl _
  | comment c =>
    rw [atRuleNode, atRuleNode]
    exact .refl _

/-- Whether the rule around is pure is passed on alike, as long as both runs go
on. -/
theorem narrows_ruleNode (inKeyframes parentIsPure : Bool) (n : Node) :
    (ruleNode (job.inMode .pure) inKeyframes parentIsPure n).Narrows (·.isPurity)
      (ruleNode (job.inMode .localByDefault) inKeyframes parentIsPure n) := by
  induction n using Node.induction generalizing inKeyframes parentIsPure with
  | rule head body after ih =>
    rw [ruleNode, ruleNode]
    split
    · exact .refl _
    · refine (narrows_resolveText job parentIsPure head.selector rfl).bind ?_
      rintro ⟨selector, r⟩
      refine (Traced.Narrows.refl _).bind fun _ => (Traced.Narrows.refl _).bind fun ds => ?_
      rw [rulePass_eq_mapM, rulePass_eq_mapM]
      exact (Traced.Narrows.mapM fun m hm => ih m hm _ _).bind fun _ => .refl _
  | atBlock head body after ih =>
    rw [ruleNode, ruleNode, rulePass_eq_mapM, rulePass_eq_mapM]
    exact (Traced.Narrows.mapM fun m hm => ih m hm _ _).bind fun _ => .refl _
  | atStatement head semicolon =>
    rw [ruleNode, ruleNode]
    exact .refl _
  | declaration d =>
    rw [ruleNode, ruleNode]
    exact .refl _
  | comment c =>
    rw [ruleNode, ruleNode]
    exact .refl _

end Passes

/-! ### Sheets -/

theorem narrows_process (urlMap : Option UrlMap) (sheet : Sheet) :
    (process ⟨.pure, urlMap⟩ sheet).Narrows (·.isPurity)
      (process ⟨.localByDefault, urlMap⟩ sheet) := by
  let job : Job := ⟨⟨.localByDefault, urlMap⟩, importedNames sheet.nodes⟩
  have hfirst : (atRulePass (job.inMode .pure) sheet.nodes).Narrows (·.isPurity)
      (atRulePass (job.inMode .localByDefault) sheet.nodes) := by
    rw [atRulePass_eq_mapM, atRulePass_eq_mapM]
    exact .mapM fun n _ => narrows_atRuleNode job n
  have hsecond : ∀ nodes, (rulePass (job.inMode .pure) false false nodes).Narrows (·.isPurity)
      (rulePass (job.inMode .localByDefault) false false nodes) := by
    intro nodes
    rw [rulePass_eq_mapM, rulePass_eq_mapM]
    exact .mapM fun n _ => narrows_ruleNode job false false n
  exact hfirst.bind fun nodes => (hsecond nodes).bind fun _ => .refl _

theorem narrows_transform (urlMap : Option UrlMap) (source : String) :
    (transform ⟨.pure, urlMap⟩ source).Narrows (·.isPurity)
      (transform ⟨.localByDefault, urlMap⟩ source) :=
  (Traced.Narrows.refl _).bind fun sheet => (narrows_process urlMap sheet).bind fun _ => .refl _

/-- **Pure mode only refuses.** What it accepts, local mode accepts with the
same result, and on the way the same is reported and the same urls are handed
out. What local mode fails on, pure mode fails on, for the same reason or
because of one of its own checks. -/
theorem transform_local_of_pure (urlMap : Option UrlMap) (source : String) :
    (∀ css, (transform ⟨.pure, urlMap⟩ source).result = .ok css →
      (transform ⟨.localByDefault, urlMap⟩ source).result = .ok css ∧
        (transform ⟨.localByDefault, urlMap⟩ source).events =
          (transform ⟨.pure, urlMap⟩ source).events) ∧
    ∀ e, (transform ⟨.localByDefault, urlMap⟩ source).result = .error e →
      ∃ e', (transform ⟨.pure, urlMap⟩ source).result = .error e' ∧ (e' = e ∨ e'.isPurity) := by
  have h := narrows_transform urlMap source
  refine ⟨fun css hcss => ?_, fun e he => h.exists_error he⟩
  have heq := h.eq_of_ok hcss
  exact ⟨by rw [heq, hcss], by rw [heq]⟩

/-- A sheet with a nested rule that pure mode accepts, and a sheet that local
mode fails on in its second rule, while pure mode refuses the first. -/
theorem transform_local_of_pure_nested :
    (∃ css,
      (transform ⟨.pure, some fun _ url => "p" ++ url⟩ ".a\x7b&:is(b)\x7bc:url(u)\x7d\x7d").result =
        .ok css ∧
      (transform ⟨.localByDefault, some fun _ url => "p" ++ url⟩
        ".a\x7b&:is(b)\x7bc:url(u)\x7d\x7d").result = .ok css) ∧
    (transform ⟨.localByDefault, none⟩ ":global(.a)\x7b\x7d:local()\x7b\x7d").result =
      .error (.emptyScope .localScope) ∧
    ∃ e, (transform ⟨.pure, none⟩ ":global(.a)\x7b\x7d:local()\x7b\x7d").result = .error e ∧
      (e = .emptyScope .localScope ∨ e.isPurity) := by
  have hfails : (transform ⟨.localByDefault, none⟩
      ":global(.a)\x7b\x7d:local()\x7b\x7d").result = .error (.emptyScope .localScope) := by
    decide +kernel
  refine ⟨exists_ok_of_isOk (by decide +kernel) fun css h => ?_, hfails, ?_⟩
  · exact ((transform_local_of_pure _ _).1 css h).1
  · exact (transform_local_of_pure none _).2 _ hfails

end Scope
end StyleScope
