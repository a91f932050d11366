/-
# The outline that is read back

What scoping prints is read with the outline of the sheet if every node reads alone
(`Sheet.exists_parse_print`). Whether it will is seen from the node as it was read and from
what stands around it, so a condition on each node of the sheet is enough
(`Spot.IsSteady`, `outline_transform`). It leaves out what cannot be put where it is put:
`@keyframes:global(foo)` gives `@keyframesfoo`, and the brace in `@keyframes :global(a\x7d)`
comes out of its parentheses (`outline_changed`).

The first pass changes preludes, and declarations in at-rules. What it leaves alone is as
it was read, and that is all that the second pass needs to know of it (`Spot.IsReady`).

Key definitions: `Scope.spotsAmong`, `Scope.Spot.IsSteady`, `Scope.Spot.IsReady`.
Key theorems: `Scope.isReady_of_atRun`, `Scope.readsAlone_of_ruleRun`,
`Scope.outline_transform`.
-/
import StyleScope.Proofs.MarkedDeclarations
import StyleScope.Proofs.ResolvedPreludes

namespace StyleScope
namespace Scope

open Sheet (AtHead Node RuleHead outlineNodes)

/-! ### Nodes and what stands around them -/

/-- A node, and the rules and at-rules around it from the inside out. -/
structure Spot where
  around : List Frame
  node : Node

mutual

/-- A node that stands in these frames, and all below it. -/
def spotsIn (around : List Frame) : Node → List Spot
  | .rule head body after =>
    ⟨around, .rule head body after⟩ :: spotsAmong (.rule head.selector :: around) body
  | .atBlock head body after =>
    ⟨around, .atBlock head body after⟩ :: spotsAmong (.atRule head.name head.params :: around) body
  | .atStatement head semicolon => [⟨around, .atStatement head semicolon⟩]
  | .declaration d => [⟨around, .declaration d⟩]
  | .comment c => [⟨around, .comment c⟩]

/-- The nodes and all below them, in document order. -/
def spotsAmong (around : List Frame) : List Node → List Spot
  | [] => []
  | n :: ns => spotsIn around n ++ spotsAmong around ns

end

theorem spotsAmong_eq_flatMap (around : List Frame) (ns : List Node) :
    spotsAmong around ns = ns.flatMap (spotsIn around) := by
  induction ns with
  | nil => rfl
  | cons n ns ih => rw [spotsAmong, List.flatMap_cons, ih]

theorem forall_mem_spotsAmong {P : Spot → Prop} {around : List Frame} {ns : List Node} :
    (∀ a ∈ spotsAmong around ns, P a) ↔ ∀ n ∈ ns, ∀ a ∈ spotsIn around n, P a := by
  rw [spotsAmong_eq_flatMap]
  exact List.forall_mem_flatMap

mutual

/-- There are as many blocks around a node as frames. -/
theorem map_spotsIn (around : List Frame) : ∀ n : Node,
    (spotsIn around n).map (fun a => (a.around.length, a.node)) = n.outline around.length
  | .rule head body after => by
    rw [spotsIn, List.map_cons, map_spotsAmong]
    rfl
  | .atBlock head body after => by
    rw [spotsIn, List.map_cons, map_spotsAmong]
    rfl
  | .atStatement _ _ => rfl
  | .declaration _ => rfl
  | .comment _ => rfl

theorem map_spotsAmong (around : List Frame) : ∀ ns : List Node,
    (spotsAmong around ns).map (fun a => (a.around.length, a.node)) =
      outlineNodes around.length ns
  | [] => rfl
  | n :: ns => by
    rw [spotsAmong, List.map_append, map_spotsIn around n, map_spotsAmong around ns]
    rfl

end

/-! ### Texts that can be put in their places -/

/-- What the prelude is resolved to can take its place. -/
structure IsSteadyHead (head : AtHead) : Prop where
  keyframes : isKeyframes head.name → isSteadyKeyframes head
  lists : isScope head.name → ∀ p ∈ Prelude.parse? head.params, IsSteadyScope head.afterName p

instance (head : AtHead) : Decidable (IsSteadyHead head) :=
  decidable_of_iff ((isKeyframes head.name → isSteadyKeyframes head) ∧
      (isScope head.name → ∀ p ∈ Prelude.parse? head.params, IsSteadyScope head.afterName p))
    ⟨fun h => ⟨h.1, h.2⟩, fun h => ⟨h.keyframes, h.lists⟩⟩

namespace Spot

/-- What scoping puts into the node can stand there, and a declaration that both passes
come to names no animations. -/
def IsSteady : Spot → Prop
  | ⟨around, .rule head _ _⟩ =>
    inStep (.rule head.selector :: around) = false → IsSteadySelector head.selector
  | ⟨_, .atBlock head _ _⟩ => IsSteadyHead head
  | ⟨_, .atStatement head _⟩ => IsSteadyHead head
  | ⟨around, .declaration d⟩ =>
    isSteadyDeclaration d ∧ (isRevisited around → takesAnimations d.prop = false)
  | ⟨_, .comment _⟩ => True

instance : DecidablePred IsSteady
  | ⟨around, .rule head _ _⟩ => inferInstanceAs
    (Decidable (inStep (.rule head.selector :: around) = false → IsSteadySelector head.selector))
  | ⟨_, .atBlock head _ _⟩ => inferInstanceAs (Decidable (IsSteadyHead head))
  | ⟨_, .atStatement head _⟩ => inferInstanceAs (Decidable (IsSteadyHead head))
  | ⟨around, .declaration d⟩ => inferInstanceAs
    (Decidable (isSteadyDeclaration d ∧ (isRevisited around → takesAnimations d.prop = false)))
  | ⟨_, .comment _⟩ => inferInstanceAs (Decidable True)

/-- The node is as it was read, and it is steady. -/
structure IsFit (a : Spot) : Prop where
  read : a.node.label ≠ .comment → a.node.IsRead a.around.length
  steady : a.IsSteady

theorem IsFit.isRead {a : Spot} (h : a.IsFit) {head : AtHead} (hn : a.node.atHead? = some head) :
    a.node.IsRead a.around.length := by
  refine h.read fun hl => ?_
  obtain ⟨around, node⟩ := a
  cases node with
  | rule | declaration | comment => cases hn
  | atBlock | atStatement => cases hl

/-- Behind the first pass the node reads alone, and if the second pass can change it, it
is as it was read. -/
structure IsReady (job : Job) (b : Spot) : Prop where
  alone : b.node.label ≠ .comment → (b.node.entry b.around.length).readsAlone
  rule : ∀ head body after, b.node = .rule head body after →
    inStep (.rule head.selector :: b.around) = false →
    b.node.IsRead b.around.length ∧ IsSteadySelector head.selector
  declaration : ∀ d, b.node = .declaration d → (job.secondScope? b.around).isSome →
    b.node.IsRead b.around.length ∧ isSteadyDeclaration d

end Spot

/-! ### The first pass -/

section FirstPass

variable {job : Job} {n n' : Node} {us : Urls} {around around' : List Frame}

theorem isRevisited_of_secondScope? {params : String} (hk : keyframes? around = some params)
    (hs : (job.secondScope? around).isSome) : isRevisited around := by
  rcases around with _ | ⟨selector | ⟨name, params⟩, around⟩
  · cases hs
  · rw [Job.secondScope?] at hs
    rw [isRevisited, show keyframes? around = some params from hk]
    split at hs
    · cases hs
    next hstep => simpa using hstep
  · cases hs

/-- An at-rule, which only the first pass can change, is ready when it reads alone. -/
theorem isReady_of_readsAlone {head : AtHead} (hn : n.atHead? = some head)
    (h : (n.entry around.length).readsAlone) : Spot.IsReady job ⟨around, n⟩ where
  alone _ := h
  rule head' body after hrule := by
    cases hrule
    cases hn
  declaration d hd := by
    cases hd
    cases hn

theorem isReady_comment (c : Sheet.Comment) : Spot.IsReady job ⟨around, .comment c⟩ where
  alone hl := absurd rfl hl
  rule head body after hrule := by cases hrule
  declaration d hd := by cases hd

section Kept

variable (ha : around.map Frame.blank = around'.map Frame.blank)

include ha

theorem isReady_rule {head : RuleHead} {body body' : List Node} {after : String}
    (h : Spot.IsFit ⟨around, .rule head body after⟩) :
    Spot.IsReady job ⟨around', .rule head body' after⟩ := by
  have hdepth : around.length = around'.length := by simpa using congrArg List.length ha
  have hread : (Node.rule head body' after).IsRead around'.length :=
    hdepth ▸ Sheet.isRead_rule (h.read (by simp [Node.label]))
  refine ⟨fun _ => hread.readsAlone, fun head' body'' after' hn hstep => ⟨hread, ?_⟩,
    fun d hn => (by cases hn)⟩
  cases hn
  refine h.steady ?_
  rwa [← inStep_blank, List.map_cons, ha, ← List.map_cons, inStep_blank]

theorem isReady_declaration {d : Sheet.Declaration} (h : Spot.IsFit ⟨around, .declaration d⟩) :
    Spot.IsReady job ⟨around', .declaration d⟩ := by
  have hdepth : around.length = around'.length := by simpa using congrArg List.length ha
  have hread : (Node.declaration d).IsRead around'.length :=
    hdepth ▸ h.read (by simp [Node.label])
  refine ⟨fun _ => hread.readsAlone, fun head body after hn => (by cases hn),
    fun d' hn _ => ⟨hread, ?_⟩⟩
  cases hn
  exact h.steady.1

/-- A declaration that the first pass scopes is ready if the second leaves it alone. -/
theorem isReady_of_localizeDeclaration {p : Place} {d d' : Sheet.Declaration}
    (hp : p.urlMap = none) (hd : (localizeDeclaration p d).result = .ok d')
    (h : Spot.IsFit ⟨around, .declaration d⟩)
    (hs : (job.secondScope? around).isSome → d' = d) :
    Spot.IsReady job ⟨around', .declaration d'⟩ := by
  by_cases hsame : d' = d
  · exact hsame ▸ isReady_declaration ha h
  · have hdepth : around.length = around'.length := by simpa using congrArg List.length ha
    refine ⟨fun _ => ?_, fun head body after hn => (by cases hn),
      fun _ _ hscope => absurd (hs ?_) hsame⟩
    · exact hdepth ▸ readsAlone_of_localizeDeclaration hp hd (h.read (by simp [Node.label]))
        h.steady.1
    · rwa [← secondScope?_blank, ha, secondScope?_blank]

/-- In `@keyframes` only declarations change. -/
theorem isReady_of_nestedRun {p : Place} {params : String} (hp : p.urlMap = none)
    (hk : keyframes? around = some params) (hn : ∀ a ∈ spotsIn around n, a.IsFit)
    (h : NestedRun p n n' us) : ∀ b ∈ spotsIn around' n', b.IsReady job := by
  have hdepth : around.length = around'.length := by simpa using congrArg List.length ha
  induction n using Node.induction generalizing n' us around around' with
  | rule head body after ih =>
    cases nestedStep_of_run h with
    | rule _ _ hbody =>
      rw [spotsIn, List.forall_mem_cons, forall_mem_spotsAmong] at hn ⊢
      refine ⟨isReady_rule ha hn.1, hbody.forall_mem fun m hm m' vs hrun =>
        ih m hm ?_ (show keyframes? (.rule head.selector :: around) = some params from hk)
          (hn.2 m hm) hrun (congrArg (· + 1) hdepth)⟩
      rw [List.map_cons, List.map_cons, ha]
  | atBlock head body after ih =>
    cases nestedStep_of_run h with
    | atBlock _ _ hbody =>
      have hk' : keyframes? (.atRule head.name head.params :: around) = some params := by
        rw [keyframes?, hk, Option.some_or]
      rw [spotsIn, List.forall_mem_cons, forall_mem_spotsAmong] at hn ⊢
      refine ⟨isReady_of_readsAlone rfl ?_, hbody.forall_mem fun m hm m' vs hrun =>
        ih m hm ?_ hk' (hn.2 m hm) hrun (congrArg (· + 1) hdepth)⟩
      · exact hdepth ▸ (hn.1.isRead rfl).readsAlone
      · rw [List.map_cons, List.map_cons, ha]
  | atStatement head semicolon =>
    cases nestedStep_of_run h
    refine List.forall_mem_singleton.mpr (isReady_of_readsAlone rfl ?_)
    exact hdepth ▸ ((List.forall_mem_singleton.mp hn).isRead rfl).readsAlone
  | declaration d =>
    cases nestedStep_of_run h with
    | declaration hd =>
      have hfit := List.forall_mem_singleton.mp hn
      refine List.forall_mem_singleton.mpr
        (isReady_of_localizeDeclaration ha hp hd.result hfit fun hscope => ?_)
      have hnames := hfit.steady.2 (isRevisited_of_secondScope? hk hscope)
      rcases edits_localizeDeclaration hp hd.result with hsame | ⟨htakes, -⟩
      · exact hsame
      · rw [hnames] at htakes
        cases htakes
  | comment c =>
    cases nestedStep_of_run h
    exact List.forall_mem_singleton.mpr (isReady_comment c)

/-- **The first pass leaves nodes that are ready.** -/
theorem isReady_of_atRun (hu : job.options.urlMap = none)
    (hn : ∀ a ∈ spotsIn around n, a.IsFit) (h : AtRun job n n' us) :
    ∀ b ∈ spotsIn around' n', b.IsReady job := by
  have hdepth : around.length = around'.length := by simpa using congrArg List.length ha
  induction n using Node.induction generalizing n' us around around' with
  | rule head body after ih =>
    cases atStep_of_run h with
    | rule _ _ hbody =>
      rw [spotsIn, List.forall_mem_cons, forall_mem_spotsAmong] at hn ⊢
      refine ⟨isReady_rule ha hn.1, hbody.forall_mem fun m hm m' vs hrun =>
        ih m hm ?_ (hn.2 m hm) hrun (congrArg (· + 1) hdepth)⟩
      rw [List.map_cons, List.map_cons, ha]
  | atBlock head body after ih =>
    have hframes : ∀ params, (.atRule head.name head.params :: around).map Frame.blank =
        (.atRule head.name params :: around').map Frame.blank := by
      intro params
      rw [List.map_cons, List.map_cons, ha]
      rfl
    cases atStep_of_run h with
    | @keyframes _ _ _ params _ _ _ hk hp hbody =>
      obtain ⟨outermost, hk'⟩ :
          ∃ p, keyframes? (.atRule head.name head.params :: around) = some p := by
        rw [keyframes?, if_pos hk]
        cases keyframes? around <;> exact ⟨_, rfl⟩
      rw [spotsIn, List.forall_mem_cons, forall_mem_spotsAmong] at hn ⊢
      refine ⟨isReady_of_readsAlone rfl ?_, hbody.forall_mem fun m hm m' vs hrun =>
        isReady_of_nestedRun (hframes _) hu hk' (hn.2 m hm) hrun⟩
      have halone := readsAlone_of_localizeKeyframes rfl (hn.1.isRead rfl)
        (hn.1.steady.keyframes hk) hp
      exact hdepth ▸ halone
    | @atBlock _ _ _ params _ _ _ hp hbody =>
      rw [spotsIn, List.forall_mem_cons, forall_mem_spotsAmong] at hn ⊢
      refine ⟨isReady_of_readsAlone rfl ?_, hbody.forall_mem fun m hm m' vs hrun => ?_⟩
      · have halone := readsAlone_of_resolveAtHead rfl (hn.1.isRead rfl) hn.1.steady.lists hp
        exact hdepth ▸ halone
      by_cases hdecl : ∃ d, m = .declaration d
      · obtain ⟨d, rfl⟩ := hdecl
        obtain ⟨d', rfl, hd⟩ := hrun
        exact List.forall_mem_singleton.mpr (isReady_of_localizeDeclaration (hframes _) hu hd.result
          (List.forall_mem_singleton.mp (hn.2 _ hm)) fun hscope => by cases hscope)
      · have hne : ∀ d, m ≠ .declaration d := fun d hm => hdecl ⟨d, hm⟩
        exact ih m hm (hframes _) (hn.2 m hm) ((within_of_ne hne).mp hrun)
          (congrArg (· + 1) hdepth)
  | atStatement head semicolon =>
    have hfit := List.forall_mem_singleton.mp hn
    cases atStep_of_run h with
    | keyframesStatement _ hk hp =>
      have halone := readsAlone_of_localizeKeyframes rfl (hfit.isRead rfl)
        (hfit.steady.keyframes hk) hp
      exact List.forall_mem_singleton.mpr (isReady_of_readsAlone rfl (hdepth ▸ halone))
    | atStatement _ _ hp =>
      have halone := readsAlone_of_resolveAtHead rfl (hfit.isRead rfl) hfit.steady.lists hp
      exact List.forall_mem_singleton.mpr (isReady_of_readsAlone rfl (hdepth ▸ halone))
  | declaration d =>
    cases atStep_of_run h
    exact List.forall_mem_singleton.mpr (isReady_declaration ha (List.forall_mem_singleton.mp hn))
  | comment c =>
    cases atStep_of_run h
    exact List.forall_mem_singleton.mpr (isReady_comment c)

end Kept

end FirstPass

/-! ### The second pass -/

theorem forall_mem_entriesAmong {P : Sheet.Entry → Prop} {depth : Nat} {ns : List Node} :
    (∀ e ∈ Sheet.entriesAmong depth ns, P e) ↔ ∀ n ∈ ns, ∀ e ∈ n.entries depth, P e := by
  induction ns with
  | nil => simp [Sheet.entriesAmong]
  | cons n ns ih => rw [Sheet.entriesAmong, List.forall_mem_append, ih, List.forall_mem_cons]

/-- Nodes that are ready read alone. -/
theorem readsAlone_of_isReady {job : Job} {around : List Frame} {n : Node}
    (hn : ∀ b ∈ spotsIn around n, b.IsReady job) :
    ∀ e ∈ n.entries around.length, e.label ≠ .comment → e.readsAlone := by
  rw [Sheet.entries_eq_map, ← map_spotsIn, List.map_map]
  exact List.forall_mem_map.mpr fun b hb => (hn b hb).alone

/-- **The second pass leaves nodes that read alone.** -/
theorem readsAlone_of_ruleRun {job : Job} {inKeyframes parentIsPure : Bool}
    {around : List Frame} {n n' : Node} {us : Urls} (hu : job.options.urlMap = none)
    (hs : inStep around = false) (hk : inKeyframes = around.head?.any Frame.isKeyframes)
    (hn : ∀ b ∈ spotsIn around n, b.IsReady job)
    (h : RuleRun job inKeyframes parentIsPure n n' us) :
    ∀ e ∈ n'.entries around.length, e.label ≠ .comment → e.readsAlone := by
  induction n using Node.induction generalizing n' us around inKeyframes parentIsPure with
  | rule head body after ih =>
    cases ruleStep_of_run h with
    | skip => exact readsAlone_of_isReady hn
    | @rule _ _ body' selector r _ _ hin hr hbody =>
      have hs' : inStep (.rule head.selector :: around) = false := by
        rw [inStep, hs, ← hk, hin, Bool.or_false]
      rw [spotsIn, List.forall_mem_cons, forall_mem_spotsAmong] at hn
      obtain ⟨hread, hsteady⟩ := hn.1.rule head body after rfl hs'
      rw [Node.entries, List.forall_mem_cons, forall_mem_entriesAmong]
      refine ⟨fun _ => readsAlone_of_resolveText hread hsteady hr,
        hbody.forall_mem fun m hm m' vs hrun => ?_⟩
      by_cases hdecl : ∃ d, m = .declaration d
      · obtain ⟨d, rfl⟩ := hdecl
        obtain ⟨d', rfl, hd⟩ := hrun
        obtain ⟨hread', hsteady'⟩ := (List.forall_mem_singleton.mp (hn.2 _ hm)).declaration d rfl
          (by rw [Job.secondScope?, if_neg (by rw [hs']; decide)]; rfl)
        exact List.forall_mem_singleton.mpr fun _ =>
          readsAlone_of_localizeDeclaration hu hd.result hread' hsteady'
      · have hne : ∀ d, m ≠ .declaration d := fun d hm => hdecl ⟨d, hm⟩
        exact ih m hm hs' rfl (hn.2 m hm) ((within_of_ne hne).mp hrun)
  | atBlock head body after ih =>
    cases ruleStep_of_run h with
    | atBlock _ _ hbody =>
      rw [spotsIn, List.forall_mem_cons, forall_mem_spotsAmong] at hn
      rw [Node.entries, List.forall_mem_cons, forall_mem_entriesAmong]
      have hs' : inStep (.atRule head.name head.params :: around) = false := hs
      exact ⟨fun _ => hn.1.alone (by simp [Node.label]), hbody.forall_mem fun m hm m' vs =>
        ih m hm hs' (head?_atRule ..) (hn.2 m hm)⟩
  | atStatement head semicolon =>
    cases ruleStep_of_run h
    exact readsAlone_of_isReady hn
  | declaration d =>
    cases ruleStep_of_run h
    exact readsAlone_of_isReady hn
  | comment c =>
    cases ruleStep_of_run h
    exact readsAlone_of_isReady hn

/-! ### Both passes -/

/-- Scoping without a map of urls leaves nodes that read alone. -/
theorem readsAlone_of_process {options : Options} {source : String} {s out : Sheet}
    (hu : options.urlMap = none) (hs : (Sheet.parse source).result = .ok s)
    (hsteady : ∀ a ∈ spotsAmong [] s.nodes, a.IsSteady)
    (h : (process options s).result = .ok out) :
    ∀ e ∈ out.entries, e.label ≠ .comment → e.readsAlone := by
  obtain ⟨nodes, us, vs, hfirst, hsecond, -, -⟩ := each_of_process ⟨h, rfl⟩
  have hfit : ∀ a ∈ spotsAmong [] s.nodes, a.IsFit := fun a ha => by
    have hmem := List.mem_map_of_mem (f := fun b : Spot => (b.around.length, b.node)) ha
    rw [map_spotsAmong] at hmem
    exact ⟨Sheet.isRead_of_parse hs _ hmem, hsteady a ha⟩
  rw [forall_mem_spotsAmong] at hfit
  have hready : ∀ n ∈ nodes, ∀ b ∈ spotsIn [] n, b.IsReady ⟨options, importedNames s.nodes⟩ :=
    hfirst.forall_mem fun n hn n' us hrun => isReady_of_atRun rfl hu (hfit n hn) hrun
  exact forall_mem_entriesAmong.mpr (hsecond.forall_mem fun n hn n' us hrun =>
    readsAlone_of_ruleRun hu rfl rfl (hready n hn) hrun)

/-- **What scoping prints is read with the outline of the sheet**, if the texts of the
sheet can be put where scoping puts them. -/
theorem outline_transform {mode : Mode} {source css : String} {s : Sheet}
    (hs : (Sheet.parse source).result = .ok s)
    (hsteady : ∀ a ∈ spotsAmong [] s.nodes, a.IsSteady)
    (h : (transform ⟨mode, none⟩ source).result = .ok css) :
    ∃ out s', (process ⟨mode, none⟩ s).result = .ok out ∧ css = out.print ∧
      out.outline = s.outline ∧ (Sheet.parse css).result = .ok s' ∧ s'.outline = out.outline := by
  obtain ⟨s₀, out, hs₀, hout, rfl⟩ := transform_eq_ok.mp h
  obtain rfl : s₀ = s := Except.ok.inj (hs₀.symm.trans hs)
  obtain ⟨hframes, hafter⟩ := frames_process hout
  obtain ⟨s', hs', houtline⟩ := Sheet.exists_parse_print hs hframes hafter
    (readsAlone_of_process rfl hs hsteady hout)
  exact ⟨out, s', hout, rfl, outline_process hout, hs', houtline⟩

/-- Names of animations, one behind a keyword, a block with a statement, a rule whose
keyword goes and one that has a mark, a prelude, and a comment that is cut off. -/
theorem outline_transform_nested :
    ∃ source s css out s',
      source = "@keyframes :global(k)\x7bto\x7ba:b\x7d\x7d@keyframes l\x7b\x7d" ++
        "@media m\x7b@c d;:global .e:not( :local(.f))\x7banimation:k 1s,l;--g:\x7bh\x7d\x7d" ++
        ".i>.j\x7b\x7d\x7d@scope (.i) to (:global #j)\x7b\x7d/* k" ∧
      (Sheet.parse source).result = .ok s ∧
      (∀ a ∈ spotsAmong [] s.nodes, a.IsSteady) ∧
      (transform ⟨.localByDefault, none⟩ source).result = .ok css ∧
      css = "@keyframes k\x7bto\x7ba:b\x7d\x7d@keyframes :local(l)\x7b\x7d" ++
        "@media m\x7b@c d;.e:not( :local(.f))\x7banimation:k 1s,l;--g:\x7bh\x7d\x7d" ++
        ":local(.i)>:local(.j)\x7b\x7d\x7d@scope (:local(.i)) to (#j)\x7b\x7d/* k" ∧
      out.outline.length = 12 ∧
      (process ⟨.localByDefault, none⟩ s).result = .ok out ∧ css = out.print ∧
      out.outline = s.outline ∧ (Sheet.parse css).result = .ok s' ∧ s'.outline = out.outline := by
  have hok :
      (match (Sheet.parse ("@keyframes :global(k)\x7bto\x7ba:b\x7d\x7d@keyframes l\x7b\x7d" ++
        "@media m\x7b@c d;:global .e:not( :local(.f))\x7banimation:k 1s,l;--g:\x7bh\x7d\x7d" ++
        ".i>.j\x7b\x7d\x7d@scope (.i) to (:global #j)\x7b\x7d/* k")).result with
      | .ok s =>
        decide (s.outline.length = 12) && decide (∀ a ∈ spotsAmong [] s.nodes, a.IsSteady)
      | .error _ => false) = true := by
    decide +kernel
  split at hok
  next s hs =>
    obtain ⟨hlength, hsteady⟩ := (Bool.and_eq_true _ _).mp hok
    have hcss : (transform ⟨.localByDefault, none⟩
        ("@keyframes :global(k)\x7bto\x7ba:b\x7d\x7d@keyframes l\x7b\x7d" ++
          "@media m\x7b@c d;:global .e:not( :local(.f))\x7banimation:k 1s,l;--g:\x7bh\x7d\x7d" ++
          ".i>.j\x7b\x7d\x7d@scope (.i) to (:global #j)\x7b\x7d/* k")).result =
        .ok ("@keyframes k\x7bto\x7ba:b\x7d\x7d@keyframes :local(l)\x7b\x7d" ++
          "@media m\x7b@c d;.e:not( :local(.f))\x7banimation:k 1s,l;--g:\x7bh\x7d\x7d" ++
          ":local(.i)>:local(.j)\x7b\x7d\x7d@scope (:local(.i)) to (#j)\x7b\x7d/* k") := by
      decide +kernel
    obtain ⟨out, s', hout, hprint, houtline, hback⟩ :=
      outline_transform hs (of_decide_eq_true hsteady) hcss
    refine ⟨_, s, _, out, s', rfl, hs, of_decide_eq_true hsteady, hcss, rfl, ?_, hout, hprint,
      houtline, hback⟩
    rw [houtline]
    exact of_decide_eq_true hlength
  next => cases hok

/-- The argument of a keyword takes its place as it is. Behind the name of an
at-rule it goes on with the name, and a brace in it ends the sheet. -/
theorem outline_changed :
    (∃ s out s', (Sheet.parse "@keyframes:global(foo)\x7b\x7d").result = .ok s ∧
      (process .default s).result = .ok out ∧ (Sheet.parse out.print).result = .ok s' ∧
      out.outline = [(0, .atBlock "keyframes")] ∧
      s'.outline = [(0, .atBlock "keyframesfoo")]) ∧
    ∃ s out, (Sheet.parse "@keyframes :global(a\x7d)\x7b\x7d").result = .ok s ∧
      (process .default s).result = .ok out ∧
      ∀ s', (Sheet.parse out.print).result ≠ .ok s' := by
  constructor
  · have hok :
        (match (Sheet.parse "@keyframes:global(foo)\x7b\x7d").result with
        | .ok s =>
          match (process .default s).result with
          | .ok out =>
            match (Sheet.parse out.print).result with
            | .ok s' =>
              out.outline = [(0, .atBlock "keyframes")] &&
                s'.outline = [(0, .atBlock "keyframesfoo")]
            | .error _ => false
          | .error _ => false
        | .error _ => false) = true := by
      decide +kernel
    split at hok
    next s hs =>
      split at hok
      next out hout =>
        split at hok
        next s' hs' =>
          obtain ⟨houtline, houtline'⟩ := (Bool.and_eq_true _ _).mp hok
          exact ⟨s, out, s', hs, hout, hs', of_decide_eq_true houtline,
            of_decide_eq_true houtline'⟩
        next => cases hok
      next => cases hok
    next => cases hok
  · have hok :
        (match (Sheet.parse "@keyframes :global(a\x7d)\x7b\x7d").result with
        | .ok s =>
          match (process .default s).result with
          | .ok out => !(Sheet.parse out.print).result.isOk
          | .error _ => false
        | .error _ => false) = true := by
      decide +kernel
    split at hok
    next s hs =>
      split at hok
      next out hout =>
        refine ⟨s, out, hs, hout, fun s' hs' => ?_⟩
        rw [hs'] at hok
        cases hok
      next => cases hok
    next => cases hok

end Scope
end StyleScope
