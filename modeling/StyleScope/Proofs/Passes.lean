/-
# What the two passes do

Scoping goes through the nodes of a sheet twice, and each pass goes node by
node. `AtStep` and `RuleStep` list what a pass can do at a node when it
succeeds: the node that takes its place and the urls handed out on the way.
They are the only place where the passes themselves are opened
(`atStep_of_run`, `ruleStep_of_run`). The declarations directly in a block
are scoped in one go, before the pass goes on through the block; but for the
order of the urls that is the same as scoping each one where it stands
(`each_of_setDeclarations`).

Resolving selectors hands out no urls (`urls_resolveText`).

Key definitions: `Traced.Gives`, `Each`, `Scope.AtStep`, `Scope.RuleStep`.
Key theorems: `Scope.atStep_of_run`, `Scope.ruleStep_of_run`.
-/
import Mathlib.Algebra.Order.Group.Multiset
import StyleScope.Proofs.Reading
import StyleScope.Scope.Process

namespace StyleScope

/-- Urls that are handed out, each with its scope and as often as it is. -/
abbrev Urls := Multiset (Bool × String)

/-! ### Runs and the urls they hand out -/

theorem Event.urls_append (es es' : List Event) :
    Event.urls (es ++ es') = Event.urls es ++ Event.urls es' := by
  induction es with
  | nil => rfl
  | cons e es ih => cases e <;> simp [Event.urls, ih]

/-- An error that is seen as another one is no success. -/
theorem mapError_eq_ok {ε ε' α : Type} {f : ε → ε'} {x : Except ε α} {a : α} :
    x.mapError f = .ok a ↔ x = .ok a := by
  cases x <;> simp [Except.mapError]

namespace Traced

variable {ε α β : Type}

/-- The urls that the run hands out. -/
def urls (x : Traced ε α) : Urls :=
  Event.urls x.events

/-- The run succeeds with `a` and hands out these urls. -/
structure Gives (x : Traced ε α) (a : α) (us : Urls) : Prop where
  result : x.result = .ok a
  urls : x.urls = us

@[simp] theorem urls_pure (a : α) : (pure a : Traced ε α).urls = 0 := rfl

@[simp] theorem urls_fail (e : ε) : (fail e : Traced ε α).urls = 0 := rfl

@[simp] theorem urls_ofExcept (x : Except ε α) : (ofExcept x).urls = 0 := rfl

theorem urls_bind {x : Traced ε α} {f : α → Traced ε β} {a : α} (h : x.result = .ok a) :
    (x >>= f).urls = x.urls + (f a).urls := by
  rw [urls, events_bind, h, Event.urls_append, ← Multiset.coe_add]
  rfl

/-- A sequence of runs that hand out nothing hands out nothing. -/
theorem urls_bind_eq_zero {x : Traced ε α} {f : α → Traced ε β} (hx : x.urls = 0)
    (hf : ∀ a, (f a).urls = 0) : (x >>= f).urls = 0 := by
  cases hr : x.result with
  | ok a => rw [urls_bind hr, hx, hf a, add_zero]
  | error e =>
    rw [urls, events_bind, hr]
    simpa [urls] using hx

theorem gives_pure {a b : α} {us : Urls} (h : (pure a : Traced ε α).Gives b us) :
    b = a ∧ us = 0 := by
  obtain ⟨hr, rfl⟩ := h
  cases hr
  exact ⟨rfl, rfl⟩

/-- What a sequence hands out is what its parts hand out. -/
theorem gives_bind {x : Traced ε α} {f : α → Traced ε β} {b : β} {us : Urls}
    (h : (x >>= f).Gives b us) :
    ∃ a vs ws, x.Gives a vs ∧ (f a).Gives b ws ∧ us = vs + ws := by
  obtain ⟨hr, rfl⟩ := h
  obtain ⟨a, hx, hf⟩ := bind_eq_ok.mp hr
  exact ⟨a, _, _, ⟨hx, rfl⟩, ⟨hf, rfl⟩, urls_bind hx⟩

/-- A run in front that hands out nothing adds nothing. -/
theorem gives_bind_of_urls_eq_zero {x : Traced ε α} {f : α → Traced ε β} {b : β} {us : Urls}
    (hx : x.urls = 0) (h : (x >>= f).Gives b us) :
    ∃ a, x.result = .ok a ∧ (f a).Gives b us := by
  obtain ⟨a, vs, ws, hxa, hf, rfl⟩ := gives_bind h
  obtain rfl : vs = 0 := hxa.urls.symm.trans hx
  rw [zero_add]
  exact ⟨a, hxa.result, hf⟩

end Traced

/-! ### Relations along lists -/

/-- `R` relates the lists element by element, and the urls that belong to the
elements are these together. -/
inductive Each {α β : Type} (R : α → β → Urls → Prop) : List α → List β → Urls → Prop where
  | nil : Each R [] [] 0
  | cons {a : α} {b : β} {as : List α} {bs : List β} {us vs : Urls} (h : R a b us)
    (hs : Each R as bs vs) : Each R (a :: as) (b :: bs) (us + vs)

namespace Each

variable {α β γ δ : Type} {R : α → β → Urls → Prop} {S : γ → δ → Urls → Prop}
  {as as' : List α} {bs bs' : List β} {us vs : Urls}

theorem single {a : α} {b : β} (h : R a b us) : Each R [a] [b] us := by
  rw [← add_zero us]
  exact .cons h .nil

theorem append (h : Each R as bs us) (h' : Each R as' bs' vs) :
    Each R (as ++ as') (bs ++ bs') (us + vs) := by
  induction h with
  | nil =>
    rw [zero_add]
    exact h'
  | cons h _ ih =>
    rw [add_assoc]
    exact .cons h ih

/-- What holds of each pair of elements holds of the lists that they stand for. -/
theorem flatMap {f : α → List γ} {g : β → List δ} (h : Each R as bs us)
    (hf : ∀ a ∈ as, ∀ b us, R a b us → Each S (f a) (g b) us) :
    Each S (as.flatMap f) (bs.flatMap g) us := by
  induction h with
  | nil => exact .nil
  | @cons a b as bs us vs hr _ ih =>
    have hhead := hf a List.mem_cons_self b us hr
    have htail := ih fun a ha => hf a (List.mem_cons_of_mem _ ha)
    rw [List.flatMap_cons, List.flatMap_cons]
    exact hhead.append htail

theorem flatMap_zero {f : α → List γ} {g : α → List δ} (h : ∀ a ∈ as, Each S (f a) (g a) 0) :
    Each S (as.flatMap f) (as.flatMap g) 0 := by
  induction as with
  | nil => exact .nil
  | cons a as ih =>
    have htail := ih fun b hb => h b (List.mem_cons_of_mem a hb)
    rw [List.flatMap_cons, List.flatMap_cons, ← add_zero (0 : Urls)]
    exact (h a List.mem_cons_self).append htail

theorem imp_mem {R' : α → β → Urls → Prop} (h : Each R as bs us)
    (hi : ∀ a ∈ as, ∀ b us, R a b us → R' a b us) : Each R' as bs us := by
  induction h with
  | nil => exact .nil
  | cons h _ ih =>
    exact .cons (hi _ List.mem_cons_self _ _ h) (ih fun a ha => hi a (List.mem_cons_of_mem _ ha))

theorem forall_mem {P : β → Prop} (h : Each R as bs us)
    (hp : ∀ a ∈ as, ∀ b us, R a b us → P b) : ∀ b ∈ bs, P b := by
  induction h with
  | nil => simp
  | cons h _ ih =>
    exact List.forall_mem_cons.mpr
      ⟨hp _ List.mem_cons_self _ _ h, ih fun a ha => hp a (List.mem_cons_of_mem _ ha)⟩

/-- Two relations one after the other. -/
theorem trans {T : β → γ → Urls → Prop} {cs : List γ} (h : Each R as bs us)
    (h' : Each T bs cs vs) :
    Each (fun a c ws => ∃ b us vs, R a b us ∧ T b c vs ∧ ws = us + vs) as cs (us + vs) := by
  induction h generalizing cs vs with
  | nil =>
    cases h'
    exact .nil
  | cons h _ ih =>
    cases h' with
    | cons h' hs' =>
      rw [add_add_add_comm]
      exact .cons ⟨_, _, _, h, h', rfl⟩ (ih hs')

/-- A run along a list relates its elements to what they become. -/
theorem of_mapM {ε : Type} {f : α → Traced ε β} (h : (as.mapM f).Gives bs us) :
    Each (fun a b us => (f a).Gives b us) as bs us := by
  induction as generalizing bs us with
  | nil =>
    obtain ⟨rfl, rfl⟩ := Traced.gives_pure h
    exact .nil
  | cons a as ih =>
    rw [List.mapM_cons] at h
    obtain ⟨b, us, _, hb, hrest, rfl⟩ := Traced.gives_bind h
    obtain ⟨bs, vs, _, hbs, hend, rfl⟩ := Traced.gives_bind hrest
    obtain ⟨rfl, rfl⟩ := Traced.gives_pure hend
    rw [add_zero]
    exact .cons hb (ih hbs)

end Each

namespace Sheet

/-- Induction on a node, with a hypothesis for every node directly in its
block. -/
theorem Node.induction {motive : Node → Prop}
    (rule : ∀ head body after, (∀ n ∈ body, motive n) → motive (.rule head body after))
    (atBlock : ∀ head body after, (∀ n ∈ body, motive n) → motive (.atBlock head body after))
    (atStatement : ∀ head semicolon, motive (.atStatement head semicolon))
    (declaration : ∀ d, motive (.declaration d)) (comment : ∀ c, motive (.comment c))
    (n : Node) : motive n :=
  @Node.rec motive (fun ns => ∀ n ∈ ns, motive n) rule atBlock atStatement declaration comment
    (fun _ hn => nomatch hn)
    (fun _ _ hn hns => List.forall_mem_cons.mpr ⟨hn, hns⟩) n

end Sheet

namespace Scope

open Sheet (AtHead Declaration Node RuleHead)

/-! ### Resolving hands out no urls -/

theorem urls_resolveName (ctx : Context) (t : Selector.Tree) (name : String) (w : Walk) :
    (resolveName ctx t name w).urls = 0 := by
  unfold resolveName
  repeat' split
  all_goals rfl

theorem urls_resolveBroad (keyword : Keyword) (spaces : Selector.Spaces) (start : Nat) (w : Walk) :
    (resolveBroad keyword spaces start w).urls = 0 := by
  unfold resolveBroad
  split <;> rfl

mutual

theorem urls_resolveNode (ctx : Context) : ∀ (t : Selector.Tree) (w : Walk),
    (resolveNode ctx t w).urls = 0
  | .node kind spaces start children, w => by
    unfold resolveNode
    repeat' split
    all_goals
      first
      | rfl
      | exact urls_resolveBroad ..
      | exact Traced.urls_bind_eq_zero (urls_resolveName ..) fun _ => rfl
      | exact Traced.urls_bind_eq_zero (urls_resolveNarrow ctx children _ _) fun _ => rfl
      | exact Traced.urls_bind_eq_zero (urls_resolveArguments ctx children _ _) fun _ => rfl

theorem urls_resolveSequence (ctx : Context) : ∀ (ts : List Selector.Tree) (w : Walk),
    (resolveSequence ctx ts w).urls = 0
  | [], _ => by
    unfold resolveSequence
    rfl
  | t :: ts, w => by
    unfold resolveSequence
    exact Traced.urls_bind_eq_zero (urls_resolveNode ctx t w) fun (_, w) =>
      Traced.urls_bind_eq_zero (urls_resolveSequence ctx ts w) fun _ => rfl

theorem urls_resolveNarrow (ctx : Context) : ∀ (ts : List Selector.Tree) (standing : Standing)
    (hasLocals : Bool), (resolveNarrow ctx ts standing hasLocals).urls = 0
  | [], _, _ => by
    unfold resolveNarrow
    rfl
  | .node _ _ _ children :: ts, _, _ => by
    unfold resolveNarrow
    exact Traced.urls_bind_eq_zero (urls_resolveSequence ctx children _) fun (_, _) =>
      Traced.urls_bind_eq_zero (urls_resolveNarrow ctx ts _ _) fun _ => rfl

theorem urls_resolveArguments (ctx : Context) : ∀ (ts : List Selector.Tree) (standing : Standing)
    (hasLocals : Bool), (resolveArguments ctx ts standing hasLocals).urls = 0
  | [], _, _ => by
    unfold resolveArguments
    rfl
  | .node _ _ _ children :: ts, _, _ => by
    unfold resolveArguments
    exact Traced.urls_bind_eq_zero (urls_resolveSequence ctx children _) fun (_, _) =>
      Traced.urls_bind_eq_zero (urls_resolveArguments ctx ts _ _) fun _ => rfl

end

theorem urls_resolveAlternatives (ctx : Context) (isGlobal : Bool) (selector : String)
    (agreed : Option Bool) (ts : List Selector.Tree) :
    (resolveAlternatives ctx isGlobal selector agreed ts).urls = 0 := by
  induction ts generalizing agreed with
  | nil => rfl
  | cons t ts ih =>
    unfold resolveAlternatives
    refine Traced.urls_bind_eq_zero ?_ fun (t, w) => ?_
    · exact Traced.urls_bind_eq_zero (urls_resolveSequence ..) fun _ => rfl
    · dsimp only
      split
      · exact Traced.urls_bind_eq_zero (ih _) fun _ => rfl
      · rfl

theorem urls_resolveText (job : Job) (parentIsPure : Bool) (selector : String) (impure : Error) :
    (resolveText job parentIsPure selector impure).urls = 0 := by
  unfold resolveText
  refine Traced.urls_bind_eq_zero rfl fun tree => Traced.urls_bind_eq_zero ?_ fun (tree, r) => ?_
  · exact Traced.urls_bind_eq_zero (urls_resolveAlternatives ..) fun _ => rfl
  · dsimp only
    split <;> rfl

/-- A resolved selector is what is printed of the list that was read, when it is
resolved. -/
theorem exists_of_resolveText {job : Job} {parentIsPure : Bool} {selector text : String}
    {impure : Error} {r : Resolution}
    (h : (resolveText job parentIsPure selector impure).result = .ok (text, r)) :
    ∃ t out, Selector.parse selector = .ok t ∧
      (resolve ⟨job.aliases, parentIsPure⟩ job.options.mode.isGlobal t).result = .ok (out, r) ∧
      text = out.print := by
  obtain ⟨t, ht, h⟩ := Traced.bind_eq_ok.mp h
  obtain ⟨⟨out, q⟩, hr, h⟩ := Traced.bind_eq_ok.mp h
  have hparse : Selector.parse selector = .ok t := mapError_eq_ok.mp ht
  dsimp only at h
  split at h
  · cases h
  · cases h
    exact ⟨t, out, hparse, hr, rfl⟩

theorem urls_resolvePreludeText? (job : Job) (text : Option String) :
    (resolvePreludeText? job text).urls = 0 := by
  cases text with
  | none => rfl
  | some text =>
    refine Traced.urls_bind_eq_zero ?_ fun _ => rfl
    exact Traced.urls_bind_eq_zero (urls_resolveText ..) fun _ => rfl

theorem urls_resolveAtHead (job : Job) (head : AtHead) : (resolveAtHead job head).urls = 0 := by
  unfold resolveAtHead
  split
  next =>
    unfold resolvePrelude
    split
    next => rfl
    next =>
      split
      next => rfl
      next prelude _ =>
        exact Traced.urls_bind_eq_zero (urls_resolvePreludeText? ..) fun _ =>
          Traced.urls_bind_eq_zero (urls_resolvePreludeText? ..) fun _ => rfl
  next => rfl

theorem urls_resolveKeyframes (job : Job) (head : AtHead) : (resolveKeyframes job head).urls = 0 :=
  Traced.urls_bind_eq_zero rfl fun _ => rfl

/-! ### Heads of at-rules -/

/-- Of the head of an at-rule only the prelude changes. -/
theorem resolveAtHead_eq_ok {job : Job} {head head' : AtHead}
    (h : (resolveAtHead job head).result = .ok head') :
    ∃ params, head' = { head with params } := by
  unfold resolveAtHead at h
  split at h
  next =>
    unfold resolvePrelude at h
    split at h
    next =>
      cases h
      exact ⟨head.params, rfl⟩
    next =>
      split at h
      next =>
        cases h
        exact ⟨head.params, rfl⟩
      next =>
        obtain ⟨start, -, h⟩ := Traced.bind_eq_ok.mp h
        obtain ⟨limit, -, h⟩ := Traced.bind_eq_ok.mp h
        cases h
        exact ⟨_, rfl⟩
  next =>
    cases h
    exact ⟨head.params, rfl⟩

theorem resolveKeyframes_eq_ok {job : Job} {head head' : AtHead} {isGlobal : Bool}
    (h : (resolveKeyframes job head).result = .ok (head', isGlobal)) :
    ∃ params, localizeKeyframes job.options.mode job.aliases head.params = .ok ⟨params, isGlobal⟩ ∧
      head' = { head with params } := by
  obtain ⟨k, hk, h⟩ := Traced.bind_eq_ok.mp h
  cases h
  exact ⟨k.params, hk, rfl⟩

/-! ### Declarations directly in a block -/

/-- `R`, except that declarations are scoped at the place `p`. -/
def Within (p : Place) (R : Node → Node → Urls → Prop) : Node → Node → Urls → Prop
  | .declaration d, n', us => ∃ d', n' = .declaration d' ∧ (localizeDeclaration p d).Gives d' us
  | n, n', us => R n n' us

theorem within_of_ne {p : Place} {R : Node → Node → Urls → Prop} {n n' : Node} {us : Urls}
    (hn : ∀ d, n ≠ .declaration d) : Within p R n n' us ↔ R n n' us := by
  cases n with
  | declaration d => exact absurd rfl (hn d)
  | _ => exact Iff.rfl

theorem declarations_cons_of_ne {n : Node} (hn : ∀ d, n ≠ .declaration d) (ns : List Node) :
    Sheet.declarations (n :: ns) = Sheet.declarations ns := by
  cases n with
  | declaration d => exact absurd rfl (hn d)
  | _ => rfl

theorem setDeclarations_cons_of_ne {n : Node} (hn : ∀ d, n ≠ .declaration d)
    (ds : List Declaration) (ns : List Node) :
    Sheet.setDeclarations ds (n :: ns) = n :: Sheet.setDeclarations ds ns := by
  cases ds with
  | nil => cases ns <;> simp [Sheet.setDeclarations]
  | cons d ds =>
    cases n with
    | declaration d' => exact absurd rfl (hn d')
    | _ => simp [Sheet.setDeclarations]

/-- Scoping the declarations of a block in one go and putting them in place
after the pass through the block is scoping each where it stands. -/
theorem each_of_setDeclarations {p : Place} {R : Node → Node → Urls → Prop} {ns ns' : List Node}
    {ds : List Declaration} {us vs : Urls}
    (hd : ∀ d n' us, R (.declaration d) n' us → n' = .declaration d ∧ us = 0)
    (hn : ∀ n n' us, (∀ d, n ≠ .declaration d) → R n n' us → ∀ d, n' ≠ .declaration d)
    (hds : Each (fun d d' us => (localizeDeclaration p d).Gives d' us) (Sheet.declarations ns)
      ds us)
    (h : Each R ns ns' vs) : Each (Within p R) ns (Sheet.setDeclarations ds ns') (us + vs) := by
  induction h generalizing ds us with
  | nil =>
    cases hds
    rw [add_zero]
    exact .nil
  | @cons n n' ns ns' us' vs hr _ ih =>
    by_cases hdecl : ∃ d, n = .declaration d
    · obtain ⟨d, rfl⟩ := hdecl
      obtain ⟨rfl, rfl⟩ := hd d n' us' hr
      cases hds with
      | @cons _ d' _ ds us ws hg hds =>
        rw [Sheet.setDeclarations, zero_add, add_assoc]
        exact .cons ⟨d', rfl, hg⟩ (ih hds)
    · have hne : ∀ d, n ≠ .declaration d := fun d hd => hdecl ⟨d, hd⟩
      rw [declarations_cons_of_ne hne] at hds
      rw [setDeclarations_cons_of_ne (hn n n' us' hne hr), add_left_comm]
      exact .cons ((within_of_ne hne).mpr hr) (ih hds)

/-! ### The first pass -/

/-- Scoping all declarations in `n` gives `n'`. -/
def NestedRun (p : Place) (n n' : Node) (us : Urls) : Prop :=
  (localizeNode p n).Gives n' us

theorem localizeNested_eq_mapM (p : Place) (ns : List Node) :
    localizeNested p ns = ns.mapM (localizeNode p) := by
  induction ns with
  | nil => rfl
  | cons n ns ih => rw [localizeNested, List.mapM_cons, ih]

theorem each_of_localizeNested {p : Place} {ns ns' : List Node} {us : Urls}
    (h : (localizeNested p ns).Gives ns' us) : Each (NestedRun p) ns ns' us := by
  rw [localizeNested_eq_mapM] at h
  exact .of_mapM h

/-- The first pass makes `n'` of `n`. -/
def AtRun (job : Job) (n n' : Node) (us : Urls) : Prop :=
  (atRuleNode job n).Gives n' us

theorem atRulePass_eq_mapM (job : Job) (ns : List Node) :
    atRulePass job ns = ns.mapM (atRuleNode job) := by
  induction ns with
  | nil => rfl
  | cons n ns ih => rw [atRulePass, List.mapM_cons, ih]

theorem each_of_atRulePass {job : Job} {ns ns' : List Node} {us : Urls}
    (h : (atRulePass job ns).Gives ns' us) : Each (AtRun job) ns ns' us := by
  rw [atRulePass_eq_mapM] at h
  exact .of_mapM h

/-- What scoping all declarations in a node can do. -/
inductive NestedStep (p : Place) : Node → Node → Urls → Prop where
  | rule {body body' : List Node} {us : Urls} (head : RuleHead) (after : String)
    (h : Each (NestedRun p) body body' us) :
    NestedStep p (.rule head body after) (.rule head body' after) us
  | atBlock {body body' : List Node} {us : Urls} (head : AtHead) (after : String)
    (h : Each (NestedRun p) body body' us) :
    NestedStep p (.atBlock head body after) (.atBlock head body' after) us
  | atStatement (head : AtHead) (semicolon : Bool) :
    NestedStep p (.atStatement head semicolon) (.atStatement head semicolon) 0
  | declaration {d d' : Declaration} {us : Urls} (h : (localizeDeclaration p d).Gives d' us) :
    NestedStep p (.declaration d) (.declaration d') us
  | comment (c : Sheet.Comment) : NestedStep p (.comment c) (.comment c) 0

theorem nestedStep_of_run {p : Place} {n n' : Node} {us : Urls} (h : NestedRun p n n' us) :
    NestedStep p n n' us := by
  unfold NestedRun at h
  cases n with
  | rule head body after =>
    rw [localizeNode] at h
    obtain ⟨body', us, _, hbody, hend, rfl⟩ := Traced.gives_bind h
    obtain ⟨rfl, rfl⟩ := Traced.gives_pure hend
    rw [add_zero]
    exact .rule head after (each_of_localizeNested hbody)
  | atBlock head body after =>
    rw [localizeNode] at h
    obtain ⟨body', us, _, hbody, hend, rfl⟩ := Traced.gives_bind h
    obtain ⟨rfl, rfl⟩ := Traced.gives_pure hend
    rw [add_zero]
    exact .atBlock head after (each_of_localizeNested hbody)
  | atStatement head semicolon =>
    rw [localizeNode] at h
    obtain ⟨rfl, rfl⟩ := Traced.gives_pure h
    exact .atStatement head semicolon
  | declaration d =>
    rw [localizeNode] at h
    obtain ⟨d', us, _, hd, hend, rfl⟩ := Traced.gives_bind h
    obtain ⟨rfl, rfl⟩ := Traced.gives_pure hend
    rw [add_zero]
    exact .declaration hd
  | comment c =>
    rw [localizeNode] at h
    obtain ⟨rfl, rfl⟩ := Traced.gives_pure h
    exact .comment c

/-- What the first pass can do at a node. -/
inductive AtStep (job : Job) : Node → Node → Urls → Prop where
  | rule {body body' : List Node} {us : Urls} (head : RuleHead) (after : String)
    (h : Each (AtRun job) body body' us) :
    AtStep job (.rule head body after) (.rule head body' after) us
  /-- All declarations in `@keyframes` have the scope of its name. -/
  | keyframes {head : AtHead} {body body' : List Node} {params : String} {isGlobal : Bool}
    {us : Urls} (after : String) (hk : isKeyframes head.name)
    (hp : localizeKeyframes job.options.mode job.aliases head.params = .ok ⟨params, isGlobal⟩)
    (h : Each (NestedRun (job.place isGlobal)) body body' us) :
    AtStep job (.atBlock head body after) (.atBlock { head with params } body' after) us
  | atBlock {head : AtHead} {body body' : List Node} {params : String} {us : Urls}
    (after : String) (hk : isKeyframes head.name = false)
    (hp : (resolveAtHead job head).result = .ok { head with params })
    (h : Each (Within job.ambient (AtRun job)) body body' us) :
    AtStep job (.atBlock head body after) (.atBlock { head with params } body' after) us
  | keyframesStatement {head : AtHead} {params : String} {isGlobal : Bool} (semicolon : Bool)
    (hk : isKeyframes head.name)
    (hp : localizeKeyframes job.options.mode job.aliases head.params = .ok ⟨params, isGlobal⟩) :
    AtStep job (.atStatement head semicolon) (.atStatement { head with params } semicolon) 0
  | atStatement {head : AtHead} {params : String} (semicolon : Bool)
    (hk : isKeyframes head.name = false)
    (hp : (resolveAtHead job head).result = .ok { head with params }) :
    AtStep job (.atStatement head semicolon) (.atStatement { head with params } semicolon) 0
  | declaration (d : Declaration) : AtStep job (.declaration d) (.declaration d) 0
  | comment (c : Sheet.Comment) : AtStep job (.comment c) (.comment c) 0

theorem atRun_declaration {job : Job} {d : Declaration} {n' : Node} {us : Urls}
    (h : AtRun job (.declaration d) n' us) : n' = .declaration d ∧ us = 0 := by
  rw [AtRun, atRuleNode] at h
  exact Traced.gives_pure h

/-- The first pass makes no declaration of another node. -/
theorem ne_declaration_of_atRun {job : Job} {n n' : Node} {us : Urls}
    (hn : ∀ d, n ≠ .declaration d) (h : AtRun job n n' us) : ∀ d, n' ≠ .declaration d := by
  have hr := h.result
  intro d
  cases n with
  | rule head body after =>
    rw [atRuleNode] at hr
    obtain ⟨_, -, hr⟩ := Traced.bind_eq_ok.mp hr
    cases hr
    simp
  | atBlock head body after =>
    rw [atRuleNode] at hr
    split at hr
    · obtain ⟨_, -, hr⟩ := Traced.bind_eq_ok.mp hr
      obtain ⟨_, -, hr⟩ := Traced.bind_eq_ok.mp hr
      cases hr
      simp
    · obtain ⟨_, -, hr⟩ := Traced.bind_eq_ok.mp hr
      obtain ⟨_, -, hr⟩ := Traced.bind_eq_ok.mp hr
      obtain ⟨_, -, hr⟩ := Traced.bind_eq_ok.mp hr
      cases hr
      simp
  | atStatement head semicolon =>
    rw [atRuleNode] at hr
    split at hr
    all_goals
      obtain ⟨_, -, hr⟩ := Traced.bind_eq_ok.mp hr
      cases hr
      simp
  | declaration d' => exact absurd rfl (hn d')
  | comment c =>
    rw [atRuleNode] at hr
    cases hr
    simp

/-- The first pass does at a node what `AtStep` lists. -/
theorem atStep_of_run {job : Job} {n n' : Node} {us : Urls} (h : AtRun job n n' us) :
    AtStep job n n' us := by
  unfold AtRun at h
  cases n with
  | rule head body after =>
    rw [atRuleNode] at h
    obtain ⟨body', us, _, hbody, hend, rfl⟩ := Traced.gives_bind h
    obtain ⟨rfl, rfl⟩ := Traced.gives_pure hend
    rw [add_zero]
    exact .rule head after (each_of_atRulePass hbody)
  | atBlock head body after =>
    rw [atRuleNode] at h
    split at h
    next hk =>
      obtain ⟨⟨head', isGlobal⟩, hhead, h⟩ :=
        Traced.gives_bind_of_urls_eq_zero (urls_resolveKeyframes job head) h
      obtain ⟨params, hp, rfl⟩ := resolveKeyframes_eq_ok hhead
      obtain ⟨body', us, _, hbody, hend, rfl⟩ := Traced.gives_bind h
      obtain ⟨rfl, rfl⟩ := Traced.gives_pure hend
      rw [add_zero]
      exact .keyframes after hk hp (each_of_localizeNested hbody)
    next hk =>
      obtain ⟨head', hhead, h⟩ :=
        Traced.gives_bind_of_urls_eq_zero (urls_resolveAtHead job head) h
      obtain ⟨params, rfl⟩ := resolveAtHead_eq_ok hhead
      obtain ⟨ds, us, _, hds, hrest, rfl⟩ := Traced.gives_bind h
      obtain ⟨body', vs, _, hbody, hend, rfl⟩ := Traced.gives_bind hrest
      obtain ⟨rfl, rfl⟩ := Traced.gives_pure hend
      rw [add_zero]
      refine .atBlock after (by simpa using hk) hhead ?_
      exact each_of_setDeclarations (fun _ _ _ h => atRun_declaration h)
        (fun _ _ _ hn h => ne_declaration_of_atRun hn h) (.of_mapM hds) (each_of_atRulePass hbody)
  | atStatement head semicolon =>
    rw [atRuleNode] at h
    split at h
    next hk =>
      obtain ⟨⟨head', isGlobal⟩, hhead, h⟩ :=
        Traced.gives_bind_of_urls_eq_zero (urls_resolveKeyframes job head) h
      obtain ⟨params, hp, rfl⟩ := resolveKeyframes_eq_ok hhead
      obtain ⟨rfl, rfl⟩ := Traced.gives_pure h
      exact .keyframesStatement semicolon hk hp
    next hk =>
      obtain ⟨head', hhead, h⟩ :=
        Traced.gives_bind_of_urls_eq_zero (urls_resolveAtHead job head) h
      obtain ⟨params, rfl⟩ := resolveAtHead_eq_ok hhead
      obtain ⟨rfl, rfl⟩ := Traced.gives_pure h
      exact .atStatement semicolon (by simpa using hk) hhead
  | declaration d =>
    obtain ⟨rfl, rfl⟩ := atRun_declaration h
    exact .declaration d
  | comment c =>
    rw [atRuleNode] at h
    obtain ⟨rfl, rfl⟩ := Traced.gives_pure h
    exact .comment c

/-! ### The second pass -/

/-- The second pass makes `n'` of `n`. -/
def RuleRun (job : Job) (inKeyframes parentIsPure : Bool) (n n' : Node) (us : Urls) : Prop :=
  (ruleNode job inKeyframes parentIsPure n).Gives n' us

theorem rulePass_eq_mapM (job : Job) (inKeyframes parentIsPure : Bool) (ns : List Node) :
    rulePass job inKeyframes parentIsPure ns = ns.mapM (ruleNode job inKeyframes parentIsPure) := by
  induction ns with
  | nil => rfl
  | cons n ns ih => rw [rulePass, List.mapM_cons, ih]

theorem each_of_rulePass {job : Job} {inKeyframes parentIsPure : Bool} {ns ns' : List Node}
    {us : Urls} (h : (rulePass job inKeyframes parentIsPure ns).Gives ns' us) :
    Each (RuleRun job inKeyframes parentIsPure) ns ns' us := by
  rw [rulePass_eq_mapM] at h
  exact .of_mapM h

/-- What the second pass can do at a node. -/
inductive RuleStep (job : Job) (inKeyframes parentIsPure : Bool) : Node → Node → Urls → Prop where
  /-- A rule directly in `@keyframes` is left alone. -/
  | skip (head : RuleHead) (body : List Node) (after : String) (hk : inKeyframes) :
    RuleStep job inKeyframes parentIsPure (.rule head body after) (.rule head body after) 0
  | rule {head : RuleHead} {body body' : List Node} {selector : String} {r : Resolution}
    {us : Urls} (after : String) (hk : inKeyframes = false)
    (hr : (resolveText job parentIsPure head.selector (.notPureSelector head.selector)).result =
      .ok (selector, r))
    (h : Each (Within (job.place r.isGlobal) (RuleRun job false (!r.hasPureGlobals)))
      body body' us) :
    RuleStep job inKeyframes parentIsPure (.rule head body after)
      (.rule { head with selector } body' after) us
  | atBlock {body body' : List Node} {us : Urls} (head : AtHead) (after : String)
    (h : Each (RuleRun job (isKeyframes head.name) parentIsPure) body body' us) :
    RuleStep job inKeyframes parentIsPure (.atBlock head body after)
      (.atBlock head body' after) us
  | atStatement (head : AtHead) (semicolon : Bool) :
    RuleStep job inKeyframes parentIsPure (.atStatement head semicolon)
      (.atStatement head semicolon) 0
  | declaration (d : Declaration) :
    RuleStep job inKeyframes parentIsPure (.declaration d) (.declaration d) 0
  | comment (c : Sheet.Comment) :
    RuleStep job inKeyframes parentIsPure (.comment c) (.comment c) 0

section RulePass

variable {job : Job} {inKeyframes parentIsPure : Bool} {n n' : Node} {us : Urls}

theorem ruleRun_declaration {d : Declaration}
    (h : RuleRun job inKeyframes parentIsPure (.declaration d) n' us) :
    n' = .declaration d ∧ us = 0 := by
  rw [RuleRun, ruleNode] at h
  exact Traced.gives_pure h

/-- The second pass makes no declaration of another node. -/
theorem ne_declaration_of_ruleRun (hn : ∀ d, n ≠ .declaration d)
    (h : RuleRun job inKeyframes parentIsPure n n' us) : ∀ d, n' ≠ .declaration d := by
  have hr := h.result
  intro d
  cases n with
  | rule head body after =>
    rw [ruleNode] at hr
    split at hr
    · cases hr
      simp
    · obtain ⟨_, -, hr⟩ := Traced.bind_eq_ok.mp hr
      obtain ⟨_, -, hr⟩ := Traced.bind_eq_ok.mp hr
      obtain ⟨_, -, hr⟩ := Traced.bind_eq_ok.mp hr
      obtain ⟨_, -, hr⟩ := Traced.bind_eq_ok.mp hr
      cases hr
      simp
  | atBlock head body after =>
    rw [ruleNode] at hr
    obtain ⟨_, -, hr⟩ := Traced.bind_eq_ok.mp hr
    cases hr
    simp
  | atStatement head semicolon =>
    rw [ruleNode] at hr
    cases hr
    simp
  | declaration d' => exact absurd rfl (hn d')
  | comment c =>
    rw [ruleNode] at hr
    cases hr
    simp

/-- The second pass does at a node what `RuleStep` lists. -/
theorem ruleStep_of_run (h : RuleRun job inKeyframes parentIsPure n n' us) :
    RuleStep job inKeyframes parentIsPure n n' us := by
  unfold RuleRun at h
  cases n with
  | rule head body after =>
    rw [ruleNode] at h
    split at h
    next hk =>
      obtain ⟨rfl, rfl⟩ := Traced.gives_pure h
      exact .skip head body after hk
    next hk =>
      obtain ⟨⟨selector, r⟩, hr, h⟩ :=
        Traced.gives_bind_of_urls_eq_zero (urls_resolveText job parentIsPure _ _) h
      obtain ⟨-, -, h⟩ := Traced.gives_bind_of_urls_eq_zero rfl h
      obtain ⟨ds, us, _, hds, hrest, rfl⟩ := Traced.gives_bind h
      obtain ⟨body', vs, _, hbody, hend, rfl⟩ := Traced.gives_bind hrest
      obtain ⟨rfl, rfl⟩ := Traced.gives_pure hend
      rw [add_zero]
      refine .rule after (by simpa using hk) hr ?_
      exact each_of_setDeclarations (fun _ _ _ h => ruleRun_declaration h)
        (fun _ _ _ hn h => ne_declaration_of_ruleRun hn h) (.of_mapM hds) (each_of_rulePass hbody)
  | atBlock head body after =>
    rw [ruleNode] at h
    obtain ⟨body', us, _, hbody, hend, rfl⟩ := Traced.gives_bind h
    obtain ⟨rfl, rfl⟩ := Traced.gives_pure hend
    rw [add_zero]
    exact .atBlock head after (each_of_rulePass hbody)
  | atStatement head semicolon =>
    rw [ruleNode] at h
    obtain ⟨rfl, rfl⟩ := Traced.gives_pure h
    exact .atStatement head semicolon
  | declaration d =>
    obtain ⟨rfl, rfl⟩ := ruleRun_declaration h
    exact .declaration d
  | comment c =>
    rw [ruleNode] at h
    obtain ⟨rfl, rfl⟩ := Traced.gives_pure h
    exact .comment c

end RulePass

/-! ### Sheets -/

/-- Scoping a sheet is the first pass and then the second, through all its
nodes. -/
theorem each_of_process {options : Options} {sheet out : Sheet} {us : Urls}
    (h : (process options sheet).Gives out us) :
    ∃ nodes vs ws, Each (AtRun ⟨options, importedNames sheet.nodes⟩) sheet.nodes nodes vs ∧
      Each (RuleRun ⟨options, importedNames sheet.nodes⟩ false false) nodes out.nodes ws ∧
      us = vs + ws ∧ out.after = sheet.after := by
  obtain ⟨nodes, vs, _, hfirst, hrest, rfl⟩ := Traced.gives_bind h
  obtain ⟨nodes', ws, _, hsecond, hend, rfl⟩ := Traced.gives_bind hrest
  obtain ⟨rfl, rfl⟩ := Traced.gives_pure hend
  rw [add_zero]
  exact ⟨nodes, vs, ws, each_of_atRulePass hfirst, each_of_rulePass hsecond, rfl, rfl⟩

/-- A sheet is scoped if its nodes are, in both passes. -/
theorem process_eq_ok_iff {options : Options} {s out : Sheet} :
    (process options s).result = .ok out ↔
      ∃ ns ms, (s.nodes.mapM (atRuleNode ⟨options, importedNames s.nodes⟩)).result = .ok ns ∧
        (ns.mapM (ruleNode ⟨options, importedNames s.nodes⟩ false false)).result = .ok ms ∧
        out = ⟨ms, s.after⟩ := by
  simp only [process, atRulePass_eq_mapM, rulePass_eq_mapM, Traced.bind_eq_ok,
    Traced.result_pure, Except.ok.injEq]
  constructor
  · rintro ⟨ns, hns, ms, hms, rfl⟩
    exact ⟨ns, ms, hns, hms, rfl⟩
  · rintro ⟨ns, ms, hns, hms, rfl⟩
    exact ⟨ns, hns, ms, hms, rfl⟩

/-- A text is scoped if it is read and the sheet is scoped. -/
theorem transform_eq_ok {options : Options} {source css : String} :
    (transform options source).result = .ok css ↔
      ∃ s out, (Sheet.parse source).result = .ok s ∧ (process options s).result = .ok out ∧
        css = out.print := by
  simp only [transform, Traced.bind_eq_ok, Traced.result_mapError, mapError_eq_ok,
    Traced.result_pure, Except.ok.injEq]
  constructor
  · rintro ⟨s, hs, out, hout, rfl⟩
    exact ⟨s, out, hs, hout, rfl⟩
  · rintro ⟨s, out, hs, hout, rfl⟩
    exact ⟨s, hs, out, hout, rfl⟩

end Scope
end StyleScope
