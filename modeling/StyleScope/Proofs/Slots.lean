/-
# Where scoping may put another text

Three kinds of texts of a sheet can be replaced: selectors, preludes of
at-rules and values of declarations. `slotsAmong` lists them in document order
and says of each whether scoping may replace it. A selector may be replaced
unless its rule, or a rule around it, stands directly in `@keyframes`; a
prelude only behind `@keyframes` and `@scope`; a value only if the property
takes animations, or if there is a map of urls and the value has a url.

All other texts, and all that is no slot, come out of scoping as they went in
(`slots_process`). Each pass keeps the slots that it may not touch
(`kept_of_atRun`, `shows_of_ruleRun`). What a slot is called depends on the
slots around it, so the second pass is about the slots that the first has
left; a slot that was kept is the same slot (`Slot.Kept`), and that is all
that is needed to put the passes together.

Key definitions: `Scope.Slot`, `Scope.slotsAmong`, `Scope.textsAmong`.
Key theorems: `Scope.slots_process`.
-/
import StyleScope.Proofs.DeclarationScope
import StyleScope.Proofs.Outline

namespace StyleScope
namespace Scope

open Sheet (AtHead Declaration Node RuleHead frames)

/-! ### Slots -/

/-- Whether the property takes the names of animations. -/
def takesAnimations (prop : String) : Bool :=
  Text.endsInWord "animation" prop || Text.endsInWord "animation-name" prop

/-- Whether scoping may replace the value of a declaration. -/
def mayReplaceValue (options : Options) (d : Declaration) : Bool :=
  takesAnimations d.prop || options.urlMap.isSome && mentionsUrl d.value

/-- Whether scoping may replace the prelude of an at-rule of this name. -/
def mayReplacePrelude (name : String) : Bool :=
  isKeyframes name || isScope name

/-- A text of a sheet, and whether scoping may replace it. -/
structure Slot where
  text : String
  isOpen : Bool
  deriving DecidableEq, Repr

mutual

/-- The slots of a node that stands in these frames. -/
def slotsIn (options : Options) (around : List Frame) : Node → List Slot
  | .rule head body _ =>
    ⟨head.selector, !inStep (.rule head.selector :: around)⟩ ::
      slotsAmong options (.rule head.selector :: around) body
  | .atBlock head body _ =>
    ⟨head.params, mayReplacePrelude head.name⟩ ::
      slotsAmong options (.atRule head.name head.params :: around) body
  | .atStatement head _ => [⟨head.params, mayReplacePrelude head.name⟩]
  | .declaration d => [⟨d.value, mayReplaceValue options d⟩]
  | .comment _ => []

/-- The slots of nodes, in document order. -/
def slotsAmong (options : Options) (around : List Frame) : List Node → List Slot
  | [] => []
  | n :: ns => slotsIn options around n ++ slotsAmong options around ns

end

mutual

/-- The texts in the slots of a node. -/
def textsIn : Node → List String
  | .rule head body _ => head.selector :: textsAmong body
  | .atBlock head body _ => head.params :: textsAmong body
  | .atStatement head _ => [head.params]
  | .declaration d => [d.value]
  | .comment _ => []

/-- The texts in the slots of nodes, in document order. -/
def textsAmong : List Node → List String
  | [] => []
  | n :: ns => textsIn n ++ textsAmong ns

end

theorem slotsAmong_eq_flatMap (options : Options) (around : List Frame) (ns : List Node) :
    slotsAmong options around ns = ns.flatMap (slotsIn options around) := by
  induction ns with
  | nil => rfl
  | cons n ns ih => rw [slotsAmong, List.flatMap_cons, ih]

theorem textsAmong_eq_flatMap (ns : List Node) : textsAmong ns = ns.flatMap textsIn := by
  induction ns with
  | nil => rfl
  | cons n ns ih => rw [textsAmong, List.flatMap_cons, ih]

/-- The texts in the slots do not depend on what stands around. -/
theorem map_text_slotsIn (options : Options) (around : List Frame) (n : Node) :
    (slotsIn options around n).map Slot.text = textsIn n := by
  induction n using Node.induction generalizing around with
  | rule head body after ih | atBlock head body after ih =>
    rw [slotsIn, textsIn, slotsAmong_eq_flatMap, textsAmong_eq_flatMap, List.map_cons,
      List.map_flatMap]
    exact congrArg _ (List.flatMap_congr fun m hm => ih m hm _)
  | atStatement head semicolon => rfl
  | declaration d => rfl
  | comment c => rfl

/-- A slot that may not be replaced stays, and so does what may be done to it. -/
def Slot.Kept (a b : Slot) : Prop :=
  a.isOpen ∨ b = a

/-- A text that may not be replaced stays. -/
def Slot.Shows (a : Slot) (text : String) : Prop :=
  a.isOpen ∨ text = a.text

theorem Slot.Kept.shows {a b : Slot} {text : String} (h : a.Kept b) (h' : b.Shows text) :
    a.Shows text := by
  rcases h with hopen | rfl
  · exact .inl hopen
  · exact h'

/-- What holds node by node holds of the slots of all nodes. -/
theorem forall₂_of_each {β γ : Type} {R : Node → Node → Urls → Prop} {S : β → γ → Prop}
    {f : Node → List β} {g : Node → List γ} {ns ns' : List Node} {us : Urls}
    (h : Each R ns ns' us)
    (hR : ∀ n ∈ ns, ∀ n' us, R n n' us → List.Forall₂ S (f n) (g n')) :
    List.Forall₂ S (ns.flatMap f) (ns'.flatMap g) := by
  induction h with
  | nil => exact .nil
  | @cons n n' ns ns' us vs hr hs ih =>
    have hhead := hR n List.mem_cons_self n' us hr
    have htail := ih fun m hm => hR m (List.mem_cons_of_mem n hm)
    rw [List.flatMap_cons, List.flatMap_cons]
    exact List.rel_append hhead htail

/-! ### Texts that stay -/

theorem route?_eq_none {p : Place} {d : Declaration} {options : Options}
    (hp : p.urlMap = options.urlMap) (h : mayReplaceValue options d = false) :
    route? p d = none := by
  simp only [mayReplaceValue, takesAnimations, Bool.or_eq_false_iff] at h
  obtain ⟨⟨hshorthand, hnames⟩, hurls⟩ := h
  simp [route?, hshorthand, hnames, hp, hurls]

/-- A declaration is left alone if its value may not be replaced. -/
theorem kept_of_localizeDeclaration {p : Place} {d d' : Declaration} {options : Options}
    (hp : p.urlMap = options.urlMap) (h : (localizeDeclaration p d).result = .ok d') :
    Slot.Kept ⟨d.value, mayReplaceValue options d⟩ ⟨d'.value, mayReplaceValue options d'⟩ := by
  by_cases hopen : mayReplaceValue options d
  · left
    dsimp only
    exact hopen
  · right
    unfold localizeDeclaration at h
    rw [route?_eq_none hp (by simpa using hopen)] at h
    cases h
    rfl

/-- The prelude of an at-rule that is neither `@keyframes` nor `@scope` stays. -/
theorem kept_of_resolveAtHead {job : Job} {head : AtHead} {params : String}
    (h : (resolveAtHead job head).result = .ok { head with params }) :
    Slot.Kept ⟨head.params, mayReplacePrelude head.name⟩
      ⟨params, mayReplacePrelude head.name⟩ := by
  by_cases hs : isScope head.name
  · exact .inl (by simp [mayReplacePrelude, hs])
  · right
    rw [resolveAtHead, if_neg hs] at h
    have hparams : head.params = params := congrArg AtHead.params (Except.ok.inj h)
    rw [hparams]

/-! ### The first pass -/

section FirstPass

variable {options : Options} {n n' : Node} {us : Urls} {around around' : List Frame}

theorem kept_of_nestedRun {p : Place} (hp : p.urlMap = options.urlMap)
    (ha : around.map Frame.blank = around'.map Frame.blank) (h : NestedRun p n n' us) :
    List.Forall₂ Slot.Kept (slotsIn options around n) (slotsIn options around' n') := by
  induction n using Node.induction generalizing n' us around around' with
  | rule head body after ih =>
    cases nestedStep_of_run h with
    | rule _ _ hbody =>
      have hframes : (.rule head.selector :: around).map Frame.blank =
          (.rule head.selector :: around').map Frame.blank := by
        rw [List.map_cons, List.map_cons, ha]
      rw [slotsIn, slotsIn, slotsAmong_eq_flatMap, slotsAmong_eq_flatMap]
      refine .cons (.inr ?_) (forall₂_of_each hbody fun m hm m' vs => ih m hm hframes)
      rw [← inStep_blank, ← hframes, inStep_blank]
  | atBlock head body after ih =>
    cases nestedStep_of_run h with
    | atBlock _ _ hbody =>
      rw [slotsIn, slotsIn, slotsAmong_eq_flatMap, slotsAmong_eq_flatMap]
      refine .cons (.inr rfl) (forall₂_of_each hbody fun m hm m' vs => ih m hm ?_)
      rw [List.map_cons, List.map_cons, ha]
  | atStatement head semicolon =>
    cases nestedStep_of_run h
    exact .cons (.inr rfl) .nil
  | declaration d =>
    cases nestedStep_of_run h with
    | declaration hd => exact .cons (kept_of_localizeDeclaration hp hd.result) .nil
  | comment c =>
    cases nestedStep_of_run h
    exact .nil

/-- **The first pass replaces no selector, and other texts only where it may.** -/
theorem kept_of_atRun {aliases : List String}
    (ha : around.map Frame.blank = around'.map Frame.blank) (h : AtRun ⟨options, aliases⟩ n n' us) :
    List.Forall₂ Slot.Kept (slotsIn options around n) (slotsIn options around' n') := by
  induction n using Node.induction generalizing n' us around around' with
  | rule head body after ih =>
    cases atStep_of_run h with
    | rule _ _ hbody =>
      have hframes : (.rule head.selector :: around).map Frame.blank =
          (.rule head.selector :: around').map Frame.blank := by
        rw [List.map_cons, List.map_cons, ha]
      rw [slotsIn, slotsIn, slotsAmong_eq_flatMap, slotsAmong_eq_flatMap]
      refine .cons (.inr ?_) (forall₂_of_each hbody fun m hm m' vs => ih m hm hframes)
      rw [← inStep_blank, ← hframes, inStep_blank]
  | atBlock head body after ih =>
    have hframes : ∀ params, (.atRule head.name head.params :: around).map Frame.blank =
        (.atRule head.name params :: around').map Frame.blank := by
      intro params
      rw [List.map_cons, List.map_cons, ha]
      rfl
    cases atStep_of_run h with
    | keyframes _ hk _ hbody =>
      rw [slotsIn, slotsIn, slotsAmong_eq_flatMap, slotsAmong_eq_flatMap]
      refine .cons (.inl (by simp [mayReplacePrelude, hk])) ?_
      exact forall₂_of_each hbody fun m _ m' vs => kept_of_nestedRun rfl (hframes _)
    | atBlock _ _ hp hbody =>
      rw [slotsIn, slotsIn, slotsAmong_eq_flatMap, slotsAmong_eq_flatMap]
      refine .cons (kept_of_resolveAtHead hp) (forall₂_of_each hbody fun m hm m' vs hrun => ?_)
      by_cases hdecl : ∃ d, m = .declaration d
      · obtain ⟨d, rfl⟩ := hdecl
        obtain ⟨d', rfl, hd⟩ := hrun
        exact .cons (kept_of_localizeDeclaration rfl hd.result) .nil
      · have hne : ∀ d, m ≠ .declaration d := fun d hm => hdecl ⟨d, hm⟩
        exact ih m hm (hframes _) ((within_of_ne hne).mp hrun)
  | atStatement head semicolon =>
    cases atStep_of_run h with
    | keyframesStatement _ hk _ => exact .cons (.inl (by simp [mayReplacePrelude, hk])) .nil
    | atStatement _ _ hp => exact .cons (kept_of_resolveAtHead hp) .nil
  | declaration d =>
    cases atStep_of_run h
    exact .cons (.inr rfl) .nil
  | comment c =>
    cases atStep_of_run h
    exact .nil

end FirstPass

/-! ### The second pass -/

theorem shows_self (options : Options) (around : List Frame) (n : Node) :
    List.Forall₂ Slot.Shows (slotsIn options around n) (textsIn n) := by
  rw [← map_text_slotsIn options around n, List.forall₂_map_right_iff, List.forall₂_same]
  exact fun _ _ => .inr rfl

/-- **The second pass replaces no prelude, and other texts only where it may.** -/
theorem shows_of_ruleRun {options : Options} {aliases : List String}
    {inKeyframes parentIsPure : Bool} {around : List Frame} {n n' : Node} {us : Urls}
    (hs : inStep around = false) (hk : inKeyframes = around.head?.any Frame.isKeyframes)
    (h : RuleRun ⟨options, aliases⟩ inKeyframes parentIsPure n n' us) :
    List.Forall₂ Slot.Shows (slotsIn options around n) (textsIn n') := by
  induction n using Node.induction generalizing n' us around inKeyframes parentIsPure with
  | rule head body after ih =>
    cases ruleStep_of_run h with
    | skip => exact shows_self options around _
    | rule _ hin _ hbody =>
      have hs' : inStep (.rule head.selector :: around) = false := by
        rw [inStep, hs, ← hk, hin, Bool.or_false]
      rw [slotsIn, textsIn, slotsAmong_eq_flatMap, textsAmong_eq_flatMap]
      refine .cons (.inl ?_) (forall₂_of_each hbody fun m hm m' vs hrun => ?_)
      · rw [hs', Bool.not_false]
      · by_cases hdecl : ∃ d, m = .declaration d
        · obtain ⟨d, rfl⟩ := hdecl
          obtain ⟨d', rfl, hd⟩ := hrun
          have hkept : Slot.Kept ⟨d.value, mayReplaceValue options d⟩
              ⟨d'.value, mayReplaceValue options d'⟩ :=
            kept_of_localizeDeclaration rfl hd.result
          exact .cons (hkept.shows (.inr rfl)) .nil
        · have hne : ∀ d, m ≠ .declaration d := fun d hm => hdecl ⟨d, hm⟩
          exact ih m hm hs' rfl ((within_of_ne hne).mp hrun)
  | atBlock head body after ih =>
    cases ruleStep_of_run h with
    | atBlock _ _ hbody =>
      rw [slotsIn, textsIn, slotsAmong_eq_flatMap, textsAmong_eq_flatMap]
      exact .cons (.inr rfl) (forall₂_of_each hbody fun m hm m' vs =>
        ih m hm hs (head?_atRule ..))
  | atStatement head semicolon =>
    cases ruleStep_of_run h
    exact shows_self options around _
  | declaration d =>
    cases ruleStep_of_run h
    exact shows_self options around _
  | comment c =>
    cases ruleStep_of_run h
    exact .nil

/-! ### Both passes -/

theorem forall₂_shows {as bs : List Slot} {texts : List String} (h : List.Forall₂ Slot.Kept as bs)
    (h' : List.Forall₂ Slot.Shows bs texts) : List.Forall₂ Slot.Shows as texts := by
  induction h generalizing texts with
  | nil =>
    cases h'
    exact .nil
  | cons hab _ ih =>
    cases h' with
    | cons hb hbs => exact .cons (hab.shows hb) (ih hbs)

/-- **Scoping replaces texts in open slots, and nothing else.** All that is no
slot stays, and so does the text of every slot that is not open. -/
theorem slots_process {options : Options} {sheet out : Sheet}
    (h : (process options sheet).result = .ok out) :
    frames out.nodes = frames sheet.nodes ∧ out.after = sheet.after ∧
      List.Forall₂ (fun slot text => text = slot.text ∨ slot.isOpen)
        (slotsAmong options [] sheet.nodes) (textsAmong out.nodes) := by
  obtain ⟨nodes, us, vs, hfirst, hsecond, -, -⟩ := each_of_process ⟨h, rfl⟩
  obtain ⟨hframes, hafter⟩ := frames_process h
  refine ⟨hframes, hafter, ?_⟩
  have hkept : List.Forall₂ Slot.Kept (slotsAmong options [] sheet.nodes)
      (slotsAmong options [] nodes) := by
    rw [slotsAmong_eq_flatMap, slotsAmong_eq_flatMap]
    exact forall₂_of_each hfirst fun n _ n' vs => kept_of_atRun rfl
  have hshows : List.Forall₂ Slot.Shows (slotsAmong options [] nodes) (textsAmong out.nodes) := by
    rw [slotsAmong_eq_flatMap, textsAmong_eq_flatMap]
    exact forall₂_of_each hsecond fun n _ n' vs => shows_of_ruleRun rfl rfl
  exact (forall₂_shows hkept hshows).imp fun _ _ hslot => hslot.symm

/-- The prelude of another at-rule, the step of `@keyframes` and a url without a
map of urls are not open. -/
theorem slots_process_nested :
    ∃ sheet out,
      (Sheet.parse ("@media :local(m)\x7b.a\x7banimation:k;b:url(u)\x7d\x7d" ++
        "@keyframes k\x7b.c\x7bd:e\x7d\x7d")).result = .ok sheet ∧
      (process .default sheet).result = .ok out ∧
      slotsAmong .default [] sheet.nodes =
        [⟨":local(m)", false⟩, ⟨".a", true⟩, ⟨"k", true⟩, ⟨"url(u)", false⟩, ⟨"k", true⟩,
          ⟨".c", false⟩, ⟨"e", false⟩] ∧
      textsAmong out.nodes =
        [":local(m)", ":local(.a)", ":local(k)", "url(u)", ":local(k)", ".c", "e"] ∧
      frames out.nodes = frames sheet.nodes ∧ out.after = sheet.after ∧
      List.Forall₂ (fun slot text => text = slot.text ∨ slot.isOpen)
        (slotsAmong .default [] sheet.nodes) (textsAmong out.nodes) := by
  have hok :
      (match (Sheet.parse ("@media :local(m)\x7b.a\x7banimation:k;b:url(u)\x7d\x7d" ++
        "@keyframes k\x7b.c\x7bd:e\x7d\x7d")).result with
      | .ok sheet =>
        match (process .default sheet).result with
        | .ok out =>
          slotsAmong .default [] sheet.nodes =
            [⟨":local(m)", false⟩, ⟨".a", true⟩, ⟨"k", true⟩, ⟨"url(u)", false⟩, ⟨"k", true⟩,
              ⟨".c", false⟩, ⟨"e", false⟩] &&
          textsAmong out.nodes =
            [":local(m)", ":local(.a)", ":local(k)", "url(u)", ":local(k)", ".c", "e"]
        | .error _ => false
      | .error _ => false) = true := by
    decide +kernel
  split at hok
  next sheet hsheet =>
    split at hok
    next out hout =>
      obtain ⟨hslots, htexts⟩ := (Bool.and_eq_true _ _).mp hok
      exact ⟨sheet, out, hsheet, hout, of_decide_eq_true hslots, of_decide_eq_true htexts,
        slots_process hout⟩
    next => cases hok
  next => cases hok

end Scope
end StyleScope
