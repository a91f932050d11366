/-
# The order of the top-level nodes

Scoping carries nothing from one top-level node to the next. What the nodes of
a sheet share are the imported names, which are collected before the first pass,
and these are only ever asked whether a name is among them. So two lists of
names with the same members scope every node in the same way
(`atRuleNode_congr`, `ruleNode_congr`), and to rearrange the nodes is to
rearrange what they are scoped to (`process_rearranged`). An import may stand in
front of the rules that use its names, behind them or between them.

Key definitions: `rearranged`, `Scope.SameNames`.
Key theorems: `Scope.process_rearranged`.
-/
import StyleScope.Proofs.Passes

namespace StyleScope

/-! ### Lists in another order -/

/-- The elements of `as` in the order that their indices have in `order`. -/
def rearranged {α : Type} (order : List Nat) (as : List α) : List α :=
  order.filterMap (as[·]?)

theorem rearranged_map {α β : Type} (f : α → β) (order : List Nat) (as : List α) :
    rearranged order (as.map f) = (rearranged order as).map f := by
  simp [rearranged, List.map_filterMap]

theorem rearranged_range {α : Type} (as : List α) : rearranged (List.range as.length) as = as := by
  induction as with
  | nil => rfl
  | cons a as ih =>
    rw [rearranged, List.length_cons, List.range_succ_eq_map, List.filterMap_cons,
      List.filterMap_map]
    exact congrArg (a :: ·) ih

/-- An order that has every index once loses no element and repeats none. -/
theorem rearranged_perm {α : Type} {order : List Nat} {as : List α}
    (h : order.Perm (List.range as.length)) : (rearranged order as).Perm as := by
  have hperm : (rearranged order as).Perm (rearranged (List.range as.length) as) := h.filterMap _
  rwa [rearranged_range] at hperm

namespace Traced

variable {ε α β : Type}

/-- A run along a list succeeds with what the runs of its elements give. -/
theorem mapM_eq_ok {f : α → Traced ε β} {as : List α} {bs : List β} :
    (as.mapM f).result = .ok bs ↔ as.map (fun a => (f a).result) = bs.map .ok := by
  induction as generalizing bs with
  | nil =>
    rw [List.mapM_nil, result_pure]
    cases bs <;> simp
  | cons a as ih =>
    simp only [List.mapM_cons, bind_eq_ok, result_pure, Except.ok.injEq, ih, List.map_cons]
    constructor
    · rintro ⟨b, hb, bs, hbs, rfl⟩
      rw [hb, hbs, List.map_cons]
    · intro h
      obtain ⟨b, bs, rfl, hb, hbs⟩ := List.map_eq_cons_iff.mp h.symm
      exact ⟨b, hb.symm, bs, hbs.symm, rfl⟩

theorem length_of_mapM {f : α → Traced ε β} {as : List α} {bs : List β}
    (h : (as.mapM f).result = .ok bs) : as.length = bs.length := by
  simpa using congrArg List.length (mapM_eq_ok.mp h)

theorem mapM_congr {f g : α → Traced ε β} {as : List α} (h : ∀ a ∈ as, f a = g a) :
    as.mapM f = as.mapM g := by
  induction as with
  | nil => rfl
  | cons a as ih =>
    rw [List.mapM_cons, List.mapM_cons, h a List.mem_cons_self,
      ih fun b hb => h b (List.mem_cons_of_mem a hb)]

/-- **A run along a list that carries nothing along does not depend on the order.** -/
theorem mapM_rearranged_eq_ok {f : α → Traced ε β} {order : List Nat} {as : List α} {bs : List β}
    (h : order.Perm (List.range as.length)) :
    ((rearranged order as).mapM f).result = .ok bs ↔
      ∃ cs, (as.mapM f).result = .ok cs ∧ bs = rearranged order cs := by
  simp only [mapM_eq_ok, ← rearranged_map]
  constructor
  · intro hbs
    -- each element has its result, as it has it in the other order
    have hall : ∀ x ∈ as.map fun a => (f a).result, x ∈ Set.range Except.ok := by
      intro x hx
      have hperm : (rearranged order (as.map fun a => (f a).result)).Perm _ :=
        rearranged_perm (by rwa [List.length_map])
      rw [hbs] at hperm
      obtain ⟨b, -, hb⟩ := List.mem_map.mp (hperm.mem_iff.mpr hx)
      exact ⟨b, hb⟩
    obtain ⟨cs, hcs⟩ := (Set.ext_iff.mp (Set.range_list_map Except.ok) _).mpr hall
    rw [← hcs, rearranged_map] at hbs
    refine ⟨cs, hcs.symm, ?_⟩
    exact List.map_injective_iff.mpr (fun _ _ => Except.ok.inj) hbs.symm
  · rintro ⟨cs, hcs, rfl⟩
    rw [hcs, rearranged_map]

end Traced

namespace Scope

open Sheet (AtHead Declaration Node)

/-! ### The names that are imported -/

theorem importedNames_eq_flatMap (ns : List Node) :
    importedNames ns = ns.flatMap fun n => importedNames [n] := by
  induction ns with
  | nil => rfl
  | cons n ns ih =>
    rw [List.flatMap_cons, ← ih]
    cases n <;> simp [importedNames]

/-- The lists have the same names, whatever their order. -/
def SameNames (as bs : List String) : Prop :=
  ∀ name, name ∈ as ↔ name ∈ bs

theorem sameNames_of_perm {ns ms : List Node} (h : ns.Perm ms) :
    SameNames (importedNames ns) (importedNames ms) := by
  intro name
  rw [importedNames_eq_flatMap ns, importedNames_eq_flatMap ms]
  exact (h.flatMap_right _).mem_iff

section Membership

variable {as bs : List String}

/-! ### Selectors -/

theorem resolveName_congr (h : SameNames as bs) (isPure : Bool) (t : Selector.Tree)
    (name : String) (w : Walk) :
    resolveName ⟨as, isPure⟩ t name w = resolveName ⟨bs, isPure⟩ t name w := by
  simp only [resolveName, h name]

mutual

theorem resolveNode_congr (h : SameNames as bs) (isPure : Bool) :
    ∀ (t : Selector.Tree) (w : Walk),
      resolveNode ⟨as, isPure⟩ t w = resolveNode ⟨bs, isPure⟩ t w
  | .node kind spaces start children, w => by
    unfold resolveNode
    simp only [resolveName_congr h, resolveNarrow_congr h isPure children,
      resolveArguments_congr h isPure children]

theorem resolveSequence_congr (h : SameNames as bs) (isPure : Bool) :
    ∀ (ts : List Selector.Tree) (w : Walk),
      resolveSequence ⟨as, isPure⟩ ts w = resolveSequence ⟨bs, isPure⟩ ts w
  | [], _ => by
    unfold resolveSequence
    rfl
  | t :: ts, w => by
    unfold resolveSequence
    simp only [resolveNode_congr h isPure t, resolveSequence_congr h isPure ts]

theorem resolveNarrow_congr (h : SameNames as bs) (isPure : Bool) :
    ∀ (ts : List Selector.Tree) (standing : Standing) (hasLocals : Bool),
      resolveNarrow ⟨as, isPure⟩ ts standing hasLocals =
        resolveNarrow ⟨bs, isPure⟩ ts standing hasLocals
  | [], _, _ => by
    unfold resolveNarrow
    rfl
  | .node _ _ _ children :: ts, _, _ => by
    unfold resolveNarrow
    simp only [resolveSequence_congr h isPure children, resolveNarrow_congr h isPure ts]

theorem resolveArguments_congr (h : SameNames as bs) (isPure : Bool) :
    ∀ (ts : List Selector.Tree) (standing : Standing) (hasLocals : Bool),
      resolveArguments ⟨as, isPure⟩ ts standing hasLocals =
        resolveArguments ⟨bs, isPure⟩ ts standing hasLocals
  | [], _, _ => by
    unfold resolveArguments
    rfl
  | .node _ _ _ children :: ts, _, _ => by
    unfold resolveArguments
    simp only [resolveSequence_congr h isPure children, resolveArguments_congr h isPure ts]

end

theorem resolveAlternatives_congr (h : SameNames as bs) (isPure isGlobal : Bool) (selector : String)
    (agreed : Option Bool) (ts : List Selector.Tree) :
    resolveAlternatives ⟨as, isPure⟩ isGlobal selector agreed ts =
      resolveAlternatives ⟨bs, isPure⟩ isGlobal selector agreed ts := by
  induction ts generalizing agreed with
  | nil => rfl
  | cons t ts ih => simp only [resolveAlternatives, resolveAlternative, resolveSequence_congr h, ih]

theorem resolveText_congr (h : SameNames as bs) (options : Options) (isPure : Bool)
    (selector : String) (impure : Error) :
    resolveText ⟨options, as⟩ isPure selector impure =
      resolveText ⟨options, bs⟩ isPure selector impure := by
  simp only [resolveText, resolve, resolveAlternatives_congr h]

/-! ### Declarations -/

theorem localize_congr (h : SameNames as bs) (isGlobal : Bool) (urlMap : Option UrlMap)
    (word : String) :
    Place.localize ⟨isGlobal, as, urlMap⟩ word = Place.localize ⟨isGlobal, bs, urlMap⟩ word := by
  simp only [Place.localize, h word]

mutual

theorem shorthandNode_congr (h : SameNames as bs) (isGlobal : Bool) (urlMap : Option UrlMap)
    (candidates : Bool) : ∀ (n : Value.Node) (seen : List String),
      shorthandNode ⟨isGlobal, as, urlMap⟩ candidates n seen =
        shorthandNode ⟨isGlobal, bs, urlMap⟩ candidates n seen
  | .function start name before arguments after unclosed, seen => by
    unfold shorthandNode
    simp only [shorthandNodes_congr h isGlobal urlMap _ arguments, Place.mapCall]
  | .word start text, seen => by
    unfold shorthandNode
    simp only [localize_congr h]
  | .string .., _ | .divider .., _ | .space .., _ | .comment .., _ => by
    unfold shorthandNode
    rfl

theorem shorthandNodes_congr (h : SameNames as bs) (isGlobal : Bool) (urlMap : Option UrlMap)
    (candidates : Bool) : ∀ (ns : List Value.Node) (seen : List String),
      shorthandNodes ⟨isGlobal, as, urlMap⟩ candidates ns seen =
        shorthandNodes ⟨isGlobal, bs, urlMap⟩ candidates ns seen
  | [], _ => by
    unfold shorthandNodes
    rfl
  | n :: ns, seen => by
    unfold shorthandNodes
    simp only [shorthandNode_congr h isGlobal urlMap candidates n,
      shorthandNodes_congr h isGlobal urlMap candidates ns]

end

mutual

theorem nameNode_congr (h : SameNames as bs) (isGlobal : Bool) (urlMap : Option UrlMap) :
    ∀ n : Value.Node, nameNode ⟨isGlobal, as, urlMap⟩ n = nameNode ⟨isGlobal, bs, urlMap⟩ n
  | .function start name before arguments after unclosed => by
    unfold nameNode
    simp only [localizeNames_congr h isGlobal urlMap arguments, Place.mapCall]
  | .word start text => by
    unfold nameNode
    simp only [localize_congr h]
  | .string .. | .divider .. | .space .. | .comment .. => by
    unfold nameNode
    rfl

theorem localizeNames_congr (h : SameNames as bs) (isGlobal : Bool) (urlMap : Option UrlMap) :
    ∀ ns : List Value.Node,
      localizeNames ⟨isGlobal, as, urlMap⟩ ns = localizeNames ⟨isGlobal, bs, urlMap⟩ ns
  | [] => by
    unfold localizeNames
    rfl
  | n :: ns => by
    unfold localizeNames
    simp only [nameNode_congr h isGlobal urlMap n, localizeNames_congr h isGlobal urlMap ns]

end

theorem localizeDeclaration_congr (h : SameNames as bs) (isGlobal : Bool)
    (urlMap : Option UrlMap) (d : Declaration) :
    localizeDeclaration ⟨isGlobal, as, urlMap⟩ d =
      localizeDeclaration ⟨isGlobal, bs, urlMap⟩ d := by
  have happly : ∀ route : Route, route.apply ⟨isGlobal, as, urlMap⟩ =
      route.apply ⟨isGlobal, bs, urlMap⟩ := by
    intro route
    funext ns
    cases route with
    | shorthand => simp only [Route.apply, localizeShorthand, shorthandNodes_congr h]
    | names => simp only [Route.apply, localizeNames_congr h]
    | urls => rfl
  simp only [localizeDeclaration, happly]
  rfl

theorem localizeDirect_congr (h : SameNames as bs) (isGlobal : Bool)
    (urlMap : Option UrlMap) (ns : List Node) :
    localizeDirect ⟨isGlobal, as, urlMap⟩ ns = localizeDirect ⟨isGlobal, bs, urlMap⟩ ns := by
  simp only [localizeDirect, funext (localizeDeclaration_congr h isGlobal urlMap)]

theorem localizeNode_congr (h : SameNames as bs) (isGlobal : Bool) (urlMap : Option UrlMap)
    (n : Node) :
    localizeNode ⟨isGlobal, as, urlMap⟩ n = localizeNode ⟨isGlobal, bs, urlMap⟩ n := by
  induction n using Node.induction with
  | rule head body after ih | atBlock head body after ih =>
    simp only [localizeNode, localizeNested_eq_mapM, Traced.mapM_congr ih]
  | declaration d => simp only [localizeNode, localizeDeclaration_congr h]
  | atStatement head semicolon => simp only [localizeNode]
  | comment c => simp only [localizeNode]

/-! ### Both passes -/

theorem resolveAtHead_congr (h : SameNames as bs) (options : Options) (head : AtHead) :
    resolveAtHead ⟨options, as⟩ head = resolveAtHead ⟨options, bs⟩ head := by
  have htext : ∀ text, resolvePreludeText? ⟨options, as⟩ text =
      resolvePreludeText? ⟨options, bs⟩ text := by
    intro text
    cases text with
    | none => rfl
    | some text => simp only [resolvePreludeText?, resolvePreludeText, resolveText_congr h]
  simp only [resolveAtHead, resolvePrelude, htext]

theorem resolveKeyframes_congr (h : SameNames as bs) (options : Options) (head : AtHead) :
    resolveKeyframes ⟨options, as⟩ head = resolveKeyframes ⟨options, bs⟩ head := by
  simp only [resolveKeyframes, localizeKeyframes, h head.params]

theorem atRuleNode_congr (h : SameNames as bs) (options : Options) (n : Node) :
    atRuleNode ⟨options, as⟩ n = atRuleNode ⟨options, bs⟩ n := by
  induction n using Node.induction with
  | rule head body after ih => simp only [atRuleNode, atRulePass_eq_mapM, Traced.mapM_congr ih]
  | atBlock head body after ih =>
    simp only [atRuleNode, atRulePass_eq_mapM, Traced.mapM_congr ih, resolveKeyframes_congr h,
      resolveAtHead_congr h, localizeNested_eq_mapM, Job.ambient, Job.place,
      localizeDirect_congr h, funext (localizeNode_congr h _ _)]
  | atStatement head semicolon =>
    simp only [atRuleNode, resolveKeyframes_congr h, resolveAtHead_congr h]
  | declaration d => simp only [atRuleNode]
  | comment c => simp only [atRuleNode]

theorem ruleNode_congr (h : SameNames as bs) (options : Options)
    (inKeyframes parentIsPure : Bool) (n : Node) :
    ruleNode ⟨options, as⟩ inKeyframes parentIsPure n =
      ruleNode ⟨options, bs⟩ inKeyframes parentIsPure n := by
  induction n using Node.induction generalizing inKeyframes parentIsPure with
  | rule head body after ih =>
    have hbody : ∀ isPure, body.mapM (ruleNode ⟨options, as⟩ false isPure) =
        body.mapM (ruleNode ⟨options, bs⟩ false isPure) :=
      fun isPure => Traced.mapM_congr fun n hn => ih n hn false isPure
    simp only [ruleNode, resolveText_congr h, rulePass_eq_mapM, Job.place,
      localizeDirect_congr h, hbody]
  | atBlock head body after ih =>
    have hbody : ∀ inside, body.mapM (ruleNode ⟨options, as⟩ inside parentIsPure) =
        body.mapM (ruleNode ⟨options, bs⟩ inside parentIsPure) :=
      fun inside => Traced.mapM_congr fun n hn => ih n hn inside parentIsPure
    simp only [ruleNode, rulePass_eq_mapM, hbody]
  | atStatement head semicolon => simp only [ruleNode]
  | declaration d => simp only [ruleNode]
  | comment c => simp only [ruleNode]

end Membership

/-- **The order of the top-level nodes does not matter.** A sheet in another order
is scoped if the sheet is, and to the result in that order. -/
theorem process_rearranged {options : Options} {sheet : Sheet} {order : List Nat}
    (h : order.Perm (List.range sheet.nodes.length)) (out : Sheet) :
    (process options ⟨rearranged order sheet.nodes, sheet.after⟩).result = .ok out ↔
      ∃ out', (process options sheet).result = .ok out' ∧
        out = ⟨rearranged order out'.nodes, out'.after⟩ := by
  have hnames := sameNames_of_perm (rearranged_perm h)
  simp only [process_eq_ok_iff, funext (atRuleNode_congr hnames options),
    funext (ruleNode_congr hnames options false false), Traced.mapM_rearranged_eq_ok h]
  constructor
  · rintro ⟨_, ms, ⟨ns, hns, rfl⟩, hms, rfl⟩
    have hlength : sheet.nodes.length = ns.length := Traced.length_of_mapM hns
    rw [hlength] at h
    obtain ⟨cs, hcs, rfl⟩ := (Traced.mapM_rearranged_eq_ok h).mp hms
    exact ⟨⟨cs, sheet.after⟩, ⟨ns, cs, hns, hcs, rfl⟩, rfl⟩
  · rintro ⟨_, ⟨ns, ms, hns, hms, rfl⟩, rfl⟩
    have hlength : sheet.nodes.length = ns.length := Traced.length_of_mapM hns
    rw [hlength] at h
    exact ⟨_, _, ⟨ns, hns, rfl⟩, (Traced.mapM_rearranged_eq_ok h).mpr ⟨ms, hms, rfl⟩, rfl⟩

/-- The import is moved from behind the rule and `@keyframes` that use its name to
their front. -/
theorem process_rearranged_import :
    ∃ sheet out,
      (Sheet.parse (".a\x7banimation:k\x7d@keyframes k\x7b\x7d" ++
        ":import(\"b\")\x7bk:c\x7d")).result = .ok sheet ∧
      (process .default sheet).result = .ok out ∧
      out.print = ":local(.a)\x7banimation:k\x7d@keyframes k\x7b\x7d:import(\"b\")\x7bk:c\x7d" ∧
      (process .default ⟨rearranged [2, 0, 1] sheet.nodes, sheet.after⟩).result =
        .ok ⟨rearranged [2, 0, 1] out.nodes, out.after⟩ := by
  have hok :
      (match (Sheet.parse (".a\x7banimation:k\x7d@keyframes k\x7b\x7d" ++
        ":import(\"b\")\x7bk:c\x7d")).result with
      | .ok sheet =>
        match (process .default sheet).result with
        | .ok out =>
          sheet.nodes.length = 3 &&
          out.print = ":local(.a)\x7banimation:k\x7d@keyframes k\x7b\x7d:import(\"b\")\x7bk:c\x7d"
        | .error _ => false
      | .error _ => false) = true := by
    decide +kernel
  split at hok
  next sheet hsheet =>
    split at hok
    next out hout =>
      obtain ⟨hlength, hprint⟩ := (Bool.and_eq_true _ _).mp hok
      have horder : [2, 0, 1].Perm (List.range sheet.nodes.length) := by
        rw [of_decide_eq_true hlength]
        decide
      exact ⟨sheet, out, hsheet, hout, of_decide_eq_true hprint,
        (process_rearranged horder _).mpr ⟨out, hout, rfl⟩⟩
    next => cases hok
  next => cases hok

end Scope
end StyleScope
