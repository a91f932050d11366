/-
# Plain sheets in global mode

Where the mode is global, names are global unless a keyword says otherwise. So
a sheet without keywords has nothing to scope, and scoping prints it as it was
(`transform_plain`).

The walks of scoping still go through every selector, prelude and value of such
a sheet, and each of them takes its text apart and puts it together again. For
selectors the invariant is `Walk.IsSteady`: the scope in force is global and no
keyword demands anything. A step from a steady walk leaves the node as it is,
and the walk stays steady (`stays_of_isNeat`).

Key definitions: `Scope.hasKeyword`, `Scope.callsKeyword`, `Scope.isPlain`.
Key theorems: `Scope.resolveText_plain`, `Scope.localizeDeclaration_plain`,
`Scope.transform_plain`.
-/
import StyleScope.Proofs.Slots
import StyleScope.Proofs.Splicing
import StyleScope.Proofs.ValuePrint

namespace StyleScope
namespace Scope

open Selector (Tree Spaces)
open Sheet (AtHead Declaration Node RuleHead)

/-! ### Sheets without keywords -/

mutual

/-- Whether a keyword stands in the tree. What an exchange holds does not
count. -/
def hasKeyword : Tree → Bool
  | .node kind _ _ children =>
    match kind with
    | .pseudo name _ => (Keyword.ofPseudo? name).isSome || !isExchange name && anyKeyword children
    | _ => anyKeyword children

/-- Whether a keyword stands in one of the trees. -/
def anyKeyword : List Tree → Bool
  | [] => false
  | t :: ts => hasKeyword t || anyKeyword ts

end

mutual

/-- Whether a value calls a keyword, at any depth. -/
def callsKeyword : Value.Node → Bool
  | .function _ name _ arguments _ _ =>
    Text.sameWord name "local" || Text.sameWord name "global" || anyCallsKeyword arguments
  | _ => false

/-- Whether one of the nodes of a value calls a keyword. -/
def anyCallsKeyword : List Value.Node → Bool
  | [] => false
  | n :: ns => callsKeyword n || anyCallsKeyword ns

end

/-- Whether a selector has no keyword. One that cannot be read has none. -/
def isPlainSelector (selector : String) : Bool :=
  match Selector.parse selector with
  | .ok t => !hasKeyword t
  | .error _ => true

/-- Whether no animation in a value has a keyword. -/
def isPlainDeclaration (d : Declaration) : Bool :=
  !takesAnimations d.prop ||
    match Value.parse d.value with
    | .ok ns => !anyCallsKeyword ns
    | .error _ => true

/-- Whether the prelude of an at-rule is none that is resolved in global mode:
the call of a keyword behind `@keyframes`, or selectors behind `@scope`. -/
def isPlainHead (head : AtHead) : Bool :=
  (!isKeyframes head.name ||
    (callBody? .localScope head.params).isNone && (callBody? .globalScope head.params).isNone) &&
  (!isScope head.name || (Prelude.parse? head.params).isNone)

mutual

/-- Whether a node and all below it use no keyword. -/
def isPlain : Node → Bool
  | .rule head body _ => isPlainSelector head.selector && allPlain body
  | .atBlock head body _ => isPlainHead head && allPlain body
  | .atStatement head _ => isPlainHead head
  | .declaration d => isPlainDeclaration d
  | .comment _ => true

def allPlain : List Node → Bool
  | [] => true
  | n :: ns => isPlain n && allPlain ns

end

theorem isPlain_of_mem {ns : List Node} (h : allPlain ns) : ∀ n ∈ ns, isPlain n := by
  induction ns with
  | nil => simp
  | cons n ns ih =>
    rw [allPlain, Bool.and_eq_true] at h
    exact List.forall_mem_cons.mpr ⟨h.1, ih h.2⟩

theorem hasKeyword_of_mem {ts : List Tree} (h : anyKeyword ts = false) :
    ∀ t ∈ ts, hasKeyword t = false := by
  induction ts with
  | nil => simp
  | cons t ts ih =>
    rw [anyKeyword, Bool.or_eq_false_iff] at h
    exact List.forall_mem_cons.mpr ⟨h.1, ih h.2⟩

/-- A node that is no pseudo-class has no keyword if there is none below it. -/
theorem hasKeyword_children {t : Tree} (hk : ∀ name a, t.kind ≠ .pseudo name a)
    (h : hasKeyword t = false) : ∀ u ∈ t.children, hasKeyword u = false := by
  obtain ⟨kind, spaces, start, children⟩ := t
  rw [hasKeyword] at h
  · exact hasKeyword_of_mem h
  · exact hk

/-! ### Selectors -/

/-- The scope in force is global, and no keyword demands anything. -/
structure Walk.IsSteady (w : Walk) : Prop where
  isGlobal : w.standing.isGlobal
  demand : w.demand = .nothing

theorem Walk.IsSteady.passed {w : Walk} (h : w.IsSteady) (hasLocals : Bool) :
    (w.addLocals hasLocals).passed.IsSteady :=
  ⟨h.isGlobal, rfl⟩

theorem Walk.IsSteady.begin {standing : Standing} (h : standing.isGlobal) (hasLocals : Bool) :
    (Walk.begin standing hasLocals).IsSteady :=
  ⟨h, rfl⟩

/-- A step of a steady walk leaves this node alone. -/
def Stays (ctx : Context) (t : Tree) : Prop :=
  ∀ w w' nodes, Walk.IsSteady w → Step ctx w t nodes w' → nodes = [t] ∧ w'.IsSteady

section Walks

variable {ctx : Context} {ts nodes : List Tree} {w w' : Walk} {standing : Standing}
  {hasLocals hasLocals' : Bool}

theorem resolveSequence_of_stays (hs : ∀ t ∈ ts, Stays ctx t) (hw : w.IsSteady)
    (h : (resolveSequence ctx ts w).result = .ok (nodes, w')) : nodes = ts ∧ w'.IsSteady := by
  induction ts generalizing w nodes with
  | nil =>
    obtain ⟨rfl, rfl⟩ := resolveSequence_nil h
    exact ⟨rfl, hw⟩
  | cons t ts ih =>
    obtain ⟨out, v, more, hstep, hmore, rfl⟩ := resolveSequence_cons h
    obtain ⟨rfl, hv⟩ := hs t List.mem_cons_self w v out hw hstep
    obtain ⟨rfl, hw'⟩ := ih (fun u hu => hs u (List.mem_cons_of_mem t hu)) hv hmore
    exact ⟨rfl, hw'⟩

/-- An alternative whose nodes stay is put together again as it was: white
space at its end would be cut off, but a reader leaves none there. -/
theorem alternative_of_stays {a : Tree} (ha : a.kind = .selector)
    (ht : Selector.IsTidy a.children) (hs : ∀ t ∈ a.children, Stays ctx t) (hw : w.IsSteady)
    (h : (resolveSequence ctx a.children w).result = .ok (nodes, w')) :
    .node .selector a.spaces a.start (trimSpacing nodes) = a ∧ w'.IsSteady := by
  obtain ⟨rfl, hw'⟩ := resolveSequence_of_stays hs hw h
  refine ⟨?_, hw'⟩
  rw [trimSpacing_eq_self ht.last, ← ha]
  obtain ⟨kind, spaces, start, children⟩ := a
  rfl

theorem resolveArguments_of_stays (hk : ∀ a ∈ ts, a.kind = .selector)
    (ht : ∀ a ∈ ts, Selector.IsTidy a.children) (hs : ∀ a ∈ ts, ∀ t ∈ a.children, Stays ctx t)
    (hg : standing.isGlobal)
    (h : (resolveArguments ctx ts standing hasLocals).result = .ok (nodes, hasLocals')) :
    nodes = ts := by
  induction ts generalizing standing hasLocals nodes with
  | nil => exact (resolveArguments_nil h).1
  | cons a ts ih =>
    obtain ⟨out, v, more, hout, hmore, rfl⟩ := resolveArguments_cons h
    obtain ⟨ha, hv⟩ := alternative_of_stays (hk a List.mem_cons_self) (ht a List.mem_cons_self)
      (hs a List.mem_cons_self) (.begin hg hasLocals) hout
    have hrest := ih (fun b hb => hk b (List.mem_cons_of_mem a hb))
      (fun b hb => ht b (List.mem_cons_of_mem a hb))
      (fun b hb => hs b (List.mem_cons_of_mem a hb)) (by exact hv.isGlobal) hmore
    rw [ha, hrest]

/-- **In global scope the walk changes nothing but keywords.** -/
theorem stays_of_isNeat {t : Tree} (ht : t.IsNeat) (h : hasKeyword t = false) : Stays ctx t := by
  induction ht with
  | @leaf kind spaces start hk =>
    intro w w' nodes hw hstep
    cases hstep with
    | dropSpace hd => cases hw.demand.symm.trans hd
    | keepSpace => exact ⟨rfl, hw.isGlobal, hw.demand⟩
    | narrow => cases hk
    | broad _ hkeyword => simp [Tree.leaf, hasKeyword, hkeyword] at h
    | exchange => exact ⟨rfl, hw.passed true⟩
    | call => cases hk
    | @name _ name =>
      have hmarks : w.marks ctx name.text = false := by
        simp [Walk.marks, marksName, hw.isGlobal]
      rw [hmarks]
      exact ⟨rfl, hw.passed false⟩
    | nesting => exact ⟨rfl, hw.passed ctx.parentIsPure⟩
    | keep => exact ⟨rfl, hw.isGlobal, rfl⟩
  | @call name spaces start arguments hk htidy hneat ih =>
    intro w w' nodes hw hstep
    cases hstep with
    | narrow _ hkeyword => simp [hasKeyword, hkeyword] at h
    | exchange => exact ⟨rfl, hw.passed true⟩
    | call _ hkeyword hx ha =>
      rw [hasKeyword, hkeyword, hx] at h
      have hargs : anyKeyword arguments = false := h
      have hstay : ∀ a ∈ arguments, ∀ t ∈ a.children, Stays ctx t := by
        intro a ha t ht
        have hnone := hasKeyword_of_mem hargs a ha
        exact ih a ha t ht (hasKeyword_children (by simp [hk a ha]) hnone t ht)
      obtain rfl := resolveArguments_of_stays hk htidy hstay hw.isGlobal ha
      exact ⟨rfl, hw.passed _⟩
    | name _ hn => cases hn
    | keep _ _ _ hp => cases (hp name true rfl).1

theorem resolveAlternatives_of_stays {selector : String} {agreed : Option Bool} {r : Resolution}
    (ha : ∀ a ∈ ts, a.IsNeatAlternative) (hs : ∀ a ∈ ts, ∀ t ∈ a.children, Stays ctx t)
    (hg : agreed.getD true)
    (h : (resolveAlternatives ctx true selector agreed ts).result = .ok (nodes, r)) :
    nodes = ts ∧ r.isGlobal := by
  induction ts generalizing agreed nodes r with
  | nil =>
    obtain ⟨rfl, rfl⟩ := resolveAlternatives_nil h
    exact ⟨rfl, hg⟩
  | cons a ts ih =>
    obtain ⟨out, w, more, q, hout, -, hmore, rfl, rfl⟩ := resolveAlternatives_cons h
    have hneat := ha a List.mem_cons_self
    obtain ⟨hsame, hw⟩ := alternative_of_stays hneat.kind hneat.tidy (hs a List.mem_cons_self)
      (.begin rfl false) hout
    obtain ⟨rfl, hq⟩ := ih (fun b hb => ha b (List.mem_cons_of_mem a hb))
      (fun b hb => hs b (List.mem_cons_of_mem a hb)) (by exact hw.isGlobal) hmore
    exact ⟨by rw [hsame], hq⟩

end Walks

/-- A selector list without keywords is resolved to itself. -/
theorem resolve_plain {ctx : Context} {selector : String} {t out : Tree} {r : Resolution}
    (ht : Selector.parse selector = .ok t) (hp : hasKeyword t = false)
    (h : (resolve ctx true t).result = .ok (out, r)) : out.print = selector ∧ r.isGlobal := by
  obtain ⟨outs, hr, rfl⟩ := resolve_eq_ok h
  have hneat := Selector.isNeatAlternative_of_parse ht
  have hkind := (Selector.isList_of_parse ht).kind
  have hprint := Selector.print_parseWithin ht
  have hstay : ∀ a ∈ t.children, ∀ u ∈ a.children, Stays ctx u := by
    intro a ha u hu
    have hnone := hasKeyword_children (by simp [hkind]) hp a ha
    refine stays_of_isNeat ((hneat a ha).neat u hu) ?_
    exact hasKeyword_children (by simp [(hneat a ha).kind]) hnone u hu
  obtain ⟨rfl, hg⟩ := resolveAlternatives_of_stays hneat hstay rfl hr
  refine ⟨?_, hg⟩
  obtain ⟨kind, spaces, start, alternatives⟩ := t
  obtain rfl : kind = .root := hkind
  rw [← hprint, Tree.print, Tree.print]
  rfl

/-- **A selector without keywords is left alone in global mode.** -/
theorem resolveText_plain {job : Job} {parentIsPure : Bool} {selector text : String}
    {impure : Error} {r : Resolution} (hm : job.options.mode = .globalByDefault)
    (hp : isPlainSelector selector)
    (h : (resolveText job parentIsPure selector impure).result = .ok (text, r)) :
    text = selector ∧ r.isGlobal := by
  obtain ⟨t, out, hparse, hr, rfl⟩ := exists_of_resolveText h
  rw [isPlainSelector, hparse, Bool.not_eq_true'] at hp
  rw [hm] at hr
  exact resolve_plain hparse hp hr

/-! ### Declarations -/

/-- A function that is no keyword has no scope of its own. -/
theorem ofName_ne_scoped {name : String} (hl : Text.sameWord name "local" = false)
    (hg : Text.sameWord name "global" = false) (keyword : Keyword) :
    Role.ofName name ≠ .scoped keyword := by
  have hlocal : Text.lower name ≠ "local" := by
    simpa [Text.sameWord, show Text.lower "local" = "local" by decide] using hl
  have hglobal : Text.lower name ≠ "global" := by
    simpa [Text.sameWord, show Text.lower "global" = "global" by decide] using hg
  unfold Role.ofName
  simp only [hlocal, hglobal, if_false]
  repeat' split
  all_goals simp

/-- At this place names are kept, and so are urls. -/
structure Place.IsIdle (p : Place) : Prop where
  isGlobal : p.isGlobal
  urlMap : p.urlMap = none

section Values

variable {p : Place}

theorem Place.IsIdle.localize_eq (hp : p.IsIdle) (word : String) : p.localize word = word := by
  rw [Place.localize, if_pos (.inl hp.isGlobal)]

mutual

theorem shorthandNode_plain (hp : p.IsIdle) : ∀ (n : Value.Node) (candidates : Bool)
    (seen : List String), callsKeyword n = false → (shorthandNode p candidates n seen).1 = n
  | .function start name before arguments after unclosed, candidates, seen, h => by
    rw [callsKeyword, Bool.or_eq_false_iff, Bool.or_eq_false_iff] at h
    obtain ⟨⟨hl, hg⟩, hargs⟩ := h
    have hrole := ofName_ne_scoped hl hg
    unfold shorthandNode
    split
    next => rfl
    next keyword hk => exact absurd hk (hrole keyword)
    next =>
      dsimp only
      exact Place.mapCall_of_none hp.urlMap _
    next =>
      dsimp only
      rw [shorthandNodes_plain hp arguments false seen hargs]
    next =>
      dsimp only
      rw [shorthandNodes_plain hp arguments true seen hargs]
  | .divider .., _, _, _ => by
    unfold shorthandNode
    rfl
  | .word .., candidates, _, _ => by
    unfold shorthandNode
    cases candidates
    · rfl
    · dsimp only
      rw [hp.localize_eq, ite_self]
      rfl
  | .string .., _, _, _ => by
    unfold shorthandNode
    rfl
  | .space .., _, _, _ => by
    unfold shorthandNode
    rfl
  | .comment .., _, _, _ => by
    unfold shorthandNode
    rfl

theorem shorthandNodes_plain (hp : p.IsIdle) : ∀ (ns : List Value.Node) (candidates : Bool)
    (seen : List String), anyCallsKeyword ns = false → (shorthandNodes p candidates ns seen).1 = ns
  | [], _, _, _ => by
    unfold shorthandNodes
    rfl
  | n :: ns, candidates, seen, h => by
    rw [anyCallsKeyword, Bool.or_eq_false_iff] at h
    unfold shorthandNodes
    dsimp only
    rw [shorthandNode_plain hp n candidates seen h.1, shorthandNodes_plain hp ns _ _ h.2]

end

mutual

theorem nameNode_plain (hp : p.IsIdle) : ∀ n : Value.Node, callsKeyword n = false →
    nameNode p n = n
  | .function start name before arguments after unclosed, h => by
    rw [callsKeyword, Bool.or_eq_false_iff, Bool.or_eq_false_iff] at h
    obtain ⟨⟨hl, hg⟩, hargs⟩ := h
    have hrole := ofName_ne_scoped hl hg
    unfold nameNode
    split
    next => rfl
    next keyword hk => exact absurd hk (hrole keyword)
    next => exact Place.mapCall_of_none hp.urlMap _
    next => rw [localizeNames_plain hp arguments hargs]
    next => rw [localizeNames_plain hp arguments hargs]
  | .word .., _ => by
    unfold nameNode
    rw [hp.localize_eq, ite_self]
  | .divider .., _ => by
    unfold nameNode
    rfl
  | .string .., _ => by
    unfold nameNode
    rfl
  | .space .., _ => by
    unfold nameNode
    rfl
  | .comment .., _ => by
    unfold nameNode
    rfl

theorem localizeNames_plain (hp : p.IsIdle) : ∀ ns : List Value.Node,
    anyCallsKeyword ns = false → localizeNames p ns = ns
  | [], _ => by rw [localizeNames]
  | n :: ns, h => by
    rw [anyCallsKeyword, Bool.or_eq_false_iff] at h
    rw [localizeNames, nameNode_plain hp n h.1, localizeNames_plain hp ns h.2]

end

/-- **A declaration without keywords is left alone where names are kept.** -/
theorem localizeDeclaration_plain {d d' : Declaration} (hp : p.IsIdle) (hd : isPlainDeclaration d)
    (h : (localizeDeclaration p d).result = .ok d') : d' = d := by
  unfold localizeDeclaration at h
  split at h
  next =>
    cases h
    rfl
  next route hroute =>
    obtain ⟨-, -, h⟩ := Traced.bind_eq_ok.mp h
    obtain ⟨ns, hns, h⟩ := Traced.bind_eq_ok.mp h
    obtain ⟨-, -, h⟩ := Traced.bind_eq_ok.mp h
    have hparse : Value.parse d.value = .ok ns := mapError_eq_ok.mp hns
    have hanimation : takesAnimations d.prop ∧ route ≠ .urls := by
      unfold route? at hroute
      unfold takesAnimations
      split at hroute
      next hs => cases hroute; simp [hs]
      next hs =>
        split at hroute
        next hn => cases hroute; simp [hn]
        next => simp [hp.urlMap] at hroute
    rw [isPlainDeclaration, hparse, hanimation.1, Bool.not_true, Bool.false_or,
      Bool.not_eq_true'] at hd
    have happly : route.apply p ns = ns := by
      cases route with
      | shorthand => exact shorthandNodes_plain hp ns true [] hd
      | names => exact localizeNames_plain hp ns hd
      | urls => exact absurd rfl hanimation.2
    dsimp only at h
    rw [happly, Value.print_parseWithin hparse, if_pos rfl] at h
    cases h
    rfl

end Values

/-! ### Nodes -/

section Nodes

variable {job : Job} {n n' : Node} {ns ns' : List Node} {us : Urls}

/-- The job is one in global mode without a map of urls. -/
structure Job.IsIdle (job : Job) : Prop where
  mode : job.options.mode = .globalByDefault
  urlMap : job.options.urlMap = none

theorem Job.IsIdle.place (hj : job.IsIdle) {isGlobal : Bool} (hg : isGlobal) :
    (job.place isGlobal).IsIdle :=
  ⟨hg, hj.urlMap⟩

theorem eq_of_each {R : Node → Node → Urls → Prop} (h : Each R ns ns' us)
    (hR : ∀ n ∈ ns, ∀ n' us, R n n' us → n' = n) : ns' = ns := by
  induction h with
  | nil => rfl
  | @cons n n' ns ns' us vs hr hs ih =>
    rw [hR n List.mem_cons_self n' us hr, ih fun m hm => hR m (List.mem_cons_of_mem n hm)]

theorem eq_of_within {p : Place} (hp : p.IsIdle) {R : Node → Node → Urls → Prop}
    (hn : isPlain n) (hR : R n n' us → n' = n) (h : Within p R n n' us) : n' = n := by
  cases n with
  | declaration d =>
    obtain ⟨d', rfl, hd⟩ := h
    rw [isPlain] at hn
    rw [localizeDeclaration_plain hp hn hd.result]
  | _ => exact hR h

theorem eq_of_nestedRun {p : Place} (hp : p.IsIdle) (hn : isPlain n) (h : NestedRun p n n' us) :
    n' = n := by
  induction n using Node.induction generalizing n' us with
  | rule head body after ih =>
    rw [isPlain, Bool.and_eq_true] at hn
    cases nestedStep_of_run h with
    | rule _ _ hbody =>
      rw [eq_of_each hbody fun m hm _ _ => ih m hm (isPlain_of_mem hn.2 m hm)]
  | atBlock head body after ih =>
    rw [isPlain, Bool.and_eq_true] at hn
    cases nestedStep_of_run h with
    | atBlock _ _ hbody =>
      rw [eq_of_each hbody fun m hm _ _ => ih m hm (isPlain_of_mem hn.2 m hm)]
  | atStatement head semicolon =>
    cases nestedStep_of_run h
    rfl
  | declaration d =>
    rw [isPlain] at hn
    cases nestedStep_of_run h with
    | declaration hd => rw [localizeDeclaration_plain hp hn hd.result]
  | comment c =>
    cases nestedStep_of_run h
    rfl

/-- The name of `@keyframes` without a keyword is global in global mode. -/
theorem localizeKeyframes_plain {head : AtHead} {params : String} {isGlobal : Bool}
    (hj : job.IsIdle) (hh : isPlainHead head) (hk : isKeyframes head.name)
    (h : localizeKeyframes job.options.mode job.aliases head.params = .ok ⟨params, isGlobal⟩) :
    { head with params } = head ∧ isGlobal := by
  simp only [isPlainHead, hk, Bool.not_true, Bool.false_or, Bool.and_eq_true,
    Option.isNone_iff_eq_none] at hh
  obtain ⟨⟨hl, hg⟩, -⟩ := hh
  simp only [localizeKeyframes, hj.mode, hl, hg, Option.isSome_none, Bool.false_eq_true, if_false,
    Mode.isGlobal, true_or, or_true, if_true] at h
  cases h
  exact ⟨rfl, rfl⟩

theorem resolveAtHead_plain {head head' : AtHead} (hh : isPlainHead head)
    (h : (resolveAtHead job head).result = .ok head') : head' = head := by
  unfold resolveAtHead at h
  split at h
  next hs =>
    simp only [isPlainHead, hs, Bool.not_true, Bool.false_or, Bool.and_eq_true,
      Option.isNone_iff_eq_none] at hh
    rw [resolvePrelude, hh.2] at h
    split at h
    all_goals
      cases h
      rfl
  next =>
    cases h
    rfl

/-- The first pass leaves a plain node alone. -/
theorem eq_of_atRun (hj : job.IsIdle) (hn : isPlain n) (h : AtRun job n n' us) : n' = n := by
  induction n using Node.induction generalizing n' us with
  | rule head body after ih =>
    rw [isPlain, Bool.and_eq_true] at hn
    cases atStep_of_run h with
    | rule _ _ hbody =>
      rw [eq_of_each hbody fun m hm _ _ => ih m hm (isPlain_of_mem hn.2 m hm)]
  | atBlock head body after ih =>
    rw [isPlain, Bool.and_eq_true] at hn
    have hbelow := isPlain_of_mem hn.2
    cases atStep_of_run h with
    | keyframes _ hk hp hbody =>
      obtain ⟨hhead, hg⟩ := localizeKeyframes_plain hj hn.1 hk hp
      rw [hhead, eq_of_each hbody fun m hm _ _ => eq_of_nestedRun (hj.place hg) (hbelow m hm)]
    | atBlock _ _ hp hbody =>
      have hidle : job.ambient.IsIdle := hj.place (by rw [hj.mode]; rfl)
      rw [resolveAtHead_plain hn.1 hp, eq_of_each hbody fun m hm _ _ =>
        eq_of_within hidle (hbelow m hm) (ih m hm (hbelow m hm))]
  | atStatement head semicolon =>
    rw [isPlain] at hn
    cases atStep_of_run h with
    | keyframesStatement _ hk hp => rw [(localizeKeyframes_plain hj hn hk hp).1]
    | atStatement _ _ hp => rw [resolveAtHead_plain hn hp]
  | declaration d =>
    cases atStep_of_run h
    rfl
  | comment c =>
    cases atStep_of_run h
    rfl

/-- The second pass leaves a plain node alone. -/
theorem eq_of_ruleRun {inKeyframes parentIsPure : Bool} (hj : job.IsIdle) (hn : isPlain n)
    (h : RuleRun job inKeyframes parentIsPure n n' us) : n' = n := by
  induction n using Node.induction generalizing inKeyframes parentIsPure n' us with
  | rule head body after ih =>
    rw [isPlain, Bool.and_eq_true] at hn
    have hbelow := isPlain_of_mem hn.2
    cases ruleStep_of_run h with
    | skip => rfl
    | rule _ _ hr hbody =>
      obtain ⟨rfl, hg⟩ := resolveText_plain hj.mode hn.1 hr
      rw [eq_of_each hbody fun m hm _ _ =>
        eq_of_within (hj.place hg) (hbelow m hm) (ih m hm (hbelow m hm))]
  | atBlock head body after ih =>
    rw [isPlain, Bool.and_eq_true] at hn
    cases ruleStep_of_run h with
    | atBlock _ _ hbody =>
      rw [eq_of_each hbody fun m hm _ _ => ih m hm (isPlain_of_mem hn.2 m hm)]
  | atStatement head semicolon =>
    cases ruleStep_of_run h
    rfl
  | declaration d =>
    cases ruleStep_of_run h
    rfl
  | comment c =>
    cases ruleStep_of_run h
    rfl

end Nodes

/-! ### Sheets -/

theorem process_plain {sheet out : Sheet} (hp : allPlain sheet.nodes)
    (h : (process ⟨.globalByDefault, none⟩ sheet).result = .ok out) : out = sheet := by
  obtain ⟨nodes, us, vs, hfirst, hsecond, -, hafter⟩ := each_of_process ⟨h, rfl⟩
  have hplain := isPlain_of_mem hp
  obtain rfl : nodes = sheet.nodes :=
    eq_of_each hfirst fun n hn _ _ => eq_of_atRun ⟨rfl, rfl⟩ (hplain n hn)
  obtain ⟨nodes, after⟩ := out
  obtain rfl : nodes = sheet.nodes :=
    eq_of_each hsecond fun n hn _ _ => eq_of_ruleRun ⟨rfl, rfl⟩ (hplain n hn)
  obtain rfl : after = sheet.after := hafter
  rfl

/-- **In global mode a sheet without keywords is printed as it was read.** -/
theorem transform_plain {source css : String} {sheet : Sheet}
    (hsheet : (Sheet.parse source).result = .ok sheet) (hp : allPlain sheet.nodes)
    (h : (transform ⟨.globalByDefault, none⟩ source).result = .ok css) : css = source := by
  obtain ⟨s, out, hs, hout, rfl⟩ := transform_eq_ok.mp h
  obtain rfl := Except.ok.inj (hsheet.symm.trans hs)
  rw [process_plain hp hout]
  exact Sheet.print_parseWithin hsheet

/-- A keyword in an exchange, a name that ends in an escape, white space and a
comment in arguments, a prelude that is none of `@scope`, and animations. -/
theorem transform_plain_nested :
    ∃ source,
      source = ":import(:local x)\x7ba:b\x7d@keyframes k\x7bto\x7banimation:ease ease\x7d\x7d" ++
        "@scope s\x7b.a\\31  >b:not( .c/**/ ,#d )\x7banimation-name:k, none;c:url( u )\x7d\x7d" ∧
      ∃ sheet, (Sheet.parse source).result = .ok sheet ∧ allPlain sheet.nodes ∧
        (transform ⟨.globalByDefault, none⟩ source).result = .ok source := by
  refine ⟨_, rfl, ?_⟩
  generalize hsource : (_ ++ _ : String) = source
  have hok :
      (match (Sheet.parse source).result with
      | .ok sheet =>
        allPlain sheet.nodes && (transform ⟨.globalByDefault, none⟩ source).result.isOk
      | .error _ => false) = true := by
    subst hsource
    decide +kernel
  split at hok
  next sheet hsheet =>
    obtain ⟨hplain, htransform⟩ := (Bool.and_eq_true _ _).mp hok
    obtain ⟨css, hcss, rfl⟩ :=
      exists_ok_of_isOk htransform fun css h => transform_plain hsheet hplain h
    exact ⟨sheet, hsheet, hplain, hcss⟩
  next => cases hok

end Scope
end StyleScope
