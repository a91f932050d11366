/-
# White space around broad keywords

A broad keyword stands between white space on both sides or on neither. The
walk that resolves a selector list does not look at the text. It knows whether
the last node was white space, and what the keyword in front demands of the
next node, so it sees white space only where that is a node of its own: at a
`>`, `+` or `~` the white space belongs to the combinator and is not seen, and
white space between two broad keywords goes with the first and is not seen by
the second (`Site.isHidden`).

What the walk does see it judges rightly. It complains only about a keyword on
a side where it sees no white space, and it accepts no keyword with white space
on one side alone (`missing_whitespace_exact`). Where white space is hidden, it
complains about white space that is there and accepts a keyword with white
space on one side (`hidden_whitespace`).

Key definitions: `Scope.Site`, `Scope.sites`, `Site.hasSpace`,
`Site.isHidden`, `Scope.Remembers`.
Key theorems: `Scope.Remembers.step`, `Scope.judges_resolve`,
`Scope.missing_whitespace_exact`.
-/
import StyleScope.Proofs.EffectiveScope
import StyleScope.Proofs.Purity
import StyleScope.Proofs.Splicing
import StyleScope.Token.Lexer

namespace StyleScope
namespace Scope

open Selector (Tree Spaces)

/-! ### Places of broad keywords -/

/-- A broad keyword, with the nodes in front of it and behind it in its own
alternative. -/
structure Site where
  keyword : Keyword
  front : List Tree
  behind : List Tree

mutual

/-- The broad keywords in the arguments of a node. A narrow keyword allows none
there, and an exchange is kept as it is. -/
def sitesOf : Tree → List Site
  | .node (.pseudo name true) _ _ arguments =>
    if isExchange name || (Keyword.ofPseudo? name).isSome then [] else sitesAmong arguments
  | _ => []

/-- Those of nodes that follow the nodes `front`. -/
def sitesAlong (front : List Tree) : List Tree → List Site
  | [] => []
  | t :: ts =>
    sitesOf t ++ (broad? t).toList.map (fun keyword => ⟨keyword, front, ts⟩) ++
      sitesAlong (front ++ [t]) ts

/-- Those of alternatives. -/
def sitesAmong : List Tree → List Site
  | [] => []
  | .node _ _ _ children :: ts => sitesAlong [] children ++ sitesAmong ts

end

/-- The broad keywords of a selector list, outside of narrow keywords and
exchanges. -/
def sites (t : Tree) : List Site :=
  sitesAmong t.children

/-- Whether the white space and comments have white space among them. -/
def holdsSpace (text : String) : Bool :=
  (Token.lex text).any Token.isWhitespace

/-- Whether the node is a broad keyword. -/
def isBroad (t : Tree) : Bool :=
  (broad? t).isSome

namespace Site

/-- Whether there is white space on this side of the keyword. The start of the
alternative counts as white space, and so does its end. -/
def hasSpace (s : Site) : Side → Bool
  | .before => s.front.getLast?.all fun t => t.isSpacing || holdsSpace t.spaces.after
  | .after => s.behind.head?.all fun t => t.isSpacing || holdsSpace t.spaces.before

/-- Whether white space on this side is part of a combinator, or is the white
space behind another broad keyword. -/
def isHidden (s : Site) : Side → Bool
  | .before =>
    s.front.getLast?.any fun t =>
      if t.isSpacing then s.front.dropLast.getLast?.any isBroad else holdsSpace t.spaces.after
  | .after => s.behind.head?.any fun t => !t.isSpacing && holdsSpace t.spaces.before

end Site

/-! ### What the walk sees -/

/-- Whether the walk takes these nodes for white space in front of a keyword. -/
def seesBefore (front : List Tree) : Bool :=
  front.getLast?.all fun t => t.isSpacing && !front.dropLast.getLast?.any isBroad

/-- Whether the walk takes these nodes for white space behind a keyword. -/
def seesAfter (behind : List Tree) : Bool :=
  behind.head?.all Tree.isSpacing

def Site.sees (s : Site) : Side → Bool
  | .before => seesBefore s.front
  | .after => seesAfter s.behind

/-- The walk sees the white space that is not hidden. -/
theorem Site.sees_eq (s : Site) (side : Side) :
    s.sees side = (s.hasSpace side && !s.isHidden side) := by
  cases side with
  | before =>
    unfold sees seesBefore hasSpace isHidden
    cases s.front.getLast? with
    | none => rfl
    | some t => cases h : t.isSpacing <;> simp [h]
  | after =>
    unfold sees seesAfter hasSpace isHidden
    cases s.behind.head? with
    | none => rfl
    | some t => cases h : t.isSpacing <;> simp [h]

/-! ### What the walk remembers -/

/-- The keyword that a demand comes from. -/
def Demand.keyword? : Demand → Option Keyword
  | .nothing => none
  | .space keyword | .noSpace keyword => some keyword

/-- The walk has passed the nodes `front` of an alternative that is not in a
narrow keyword. White space that it does not see can still be remembered, but
only until the next node, which is refused then. -/
structure Remembers (front : List Tree) (w : Walk) : Prop where
  inside : w.standing.inside = none
  afterSpace : seesBefore front → w.afterSpace
  blind : seesBefore front = false → w.afterSpace → ∃ keyword, w.demand = .space keyword
  demand : w.demand.keyword? = front.getLast?.bind broad?
  space : ∀ keyword, w.demand = .space keyword → seesBefore front.dropLast
  noSpace : ∀ keyword, w.demand = .noSpace keyword → seesBefore front.dropLast = false

theorem Remembers.begin {standing : Standing} (h : standing.inside = none) (hasLocals : Bool) :
    Remembers [] (.begin standing hasLocals) where
  inside := h
  afterSpace _ := rfl
  blind hs := by cases hs
  demand := rfl
  space keyword hd := by cases hd
  noSpace keyword hd := by cases hd

/-- Behind a node that is neither white space nor a broad keyword nothing is
remembered. -/
theorem remembers_passed {front : List Tree} {t : Tree} {w : Walk}
    (hi : w.standing.inside = none) (hs : t.isSpacing = false ∨ front.getLast?.any isBroad)
    (hb : broad? t = none) : Remembers (front ++ [t]) w.passed where
  inside := hi
  afterSpace h := by
    simp only [seesBefore, List.getLast?_concat, List.dropLast_concat, Option.all_some,
      Bool.and_eq_true, Bool.not_eq_true'] at h
    rcases hs with hs | hs
    · rw [hs] at h; cases h.1
    · rw [hs] at h; cases h.2
  blind _ h := by cases h
  demand := by rw [List.getLast?_concat, Option.bind_some, hb]; rfl
  space keyword hd := by cases hd
  noSpace keyword hd := by cases hd

theorem Remembers.any_isBroad {front : List Tree} {w : Walk} (h : Remembers front w) :
    front.getLast?.any isBroad = w.demand.keyword?.isSome := by
  rw [h.demand]
  cases front.getLast? <;> rfl

/-- **A step of the walk keeps what it remembers true.** -/
theorem Remembers.step {ctx : Context} {front out : List Tree} {t : Tree} {w w' : Walk}
    (h : Remembers front w) (hs : Step ctx w t out w') : Remembers (front ++ [t]) w' := by
  cases hs with
  | dropSpace hd =>
    refine remembers_passed h.inside (.inr ?_) rfl
    rw [h.any_isBroad, hd]
    rfl
  | keepSpace hd =>
    have hsees (spacing : Tree) (hs : spacing.isSpacing) : seesBefore (front ++ [spacing]) := by
      rw [seesBefore, List.getLast?_concat, List.dropLast_concat, h.any_isBroad, hd, Option.all_some,
        hs]
      rfl
    refine ⟨h.inside, fun _ => rfl, fun hblind => ?_, ?_, fun keyword hn => ?_, fun keyword hn => ?_⟩
    · rw [hsees _ rfl] at hblind; cases hblind
    · rw [List.getLast?_concat, hd]; rfl
    · rw [hd] at hn; cases hn
    · rw [hd] at hn; cases hn
  | broad hd hk hi =>
    -- a keyword that demands nothing of this node has passed, so the walk
    -- remembers exactly the white space that it sees
    have hsees : w.afterSpace = seesBefore front := by
      cases hs : seesBefore front with
      | true => exact h.afterSpace hs
      | false =>
        refine Bool.eq_false_iff.mpr fun ha => ?_
        obtain ⟨k, hspace⟩ := h.blind hs ha
        exact hd k hspace
    refine ⟨hi, fun hs => ?_, fun _ ha => ⟨_, if_pos ha⟩, ?_, fun keyword hn => ?_,
      fun keyword hn => ?_⟩
    · rw [seesBefore, List.getLast?_concat] at hs
      cases hs
    · rw [List.getLast?_concat, Option.bind_some, broad?, hk]
      dsimp only
      split <;> rfl
    · rw [List.dropLast_concat, ← hsees]
      by_contra ha
      rw [if_neg ha] at hn
      cases hn
    · rw [List.dropLast_concat, ← hsees]
      refine Bool.eq_false_iff.mpr fun ha => ?_
      rw [if_pos ha] at hn
      cases hn
  | narrow | call | nesting => exact remembers_passed h.inside (.inl rfl) rfl
  | @exchange name hasArguments _ _ _ hd hk hx =>
    refine remembers_passed h.inside (.inl rfl) ?_
    cases hasArguments
    · exact hk
    · rfl
  | @name kind _ _ _ _ hd hn hne =>
    refine remembers_passed h.inside (.inl ?_) ?_
    · cases kind with
      | className | idName => rfl
      | _ => cases hn
    · cases kind with
      | className | idName => rfl
      | _ => cases hn
  | @keep kind _ _ _ hd hs hn hk hne =>
    refine remembers_passed h.inside (.inl hs) ?_
    cases kind with
    | pseudo name hasArguments =>
      obtain ⟨rfl, hk, -⟩ := hk name hasArguments rfl
      exact hk
    | _ => rfl

/-! ### Judging sites -/

/-- The keyword has white space on both sides or on neither, as far as the walk
sees. At the end of an alternative nothing is asked. -/
def Site.IsEven (s : Site) : Prop :=
  s.behind ≠ [] → s.sees .before = s.sees .after

/-- If white space is missed, one of these keywords has none there. -/
def Error.Blames (sites : List Site) (e : Error) : Prop :=
  ∀ keyword side, e = .missingWhitespace keyword side →
    ∃ s ∈ sites, s.keyword = keyword ∧ s.sees side = false

/-- The run goes through only if these keywords are even, and misses white
space only around them. -/
structure Judges {α : Type} (sites : List Site) (x : Traced Error α) : Prop where
  even : ∀ a, x.result = .ok a → ∀ s ∈ sites, s.IsEven
  blames : x.FailsOnly (Error.Blames sites)

theorem Error.Blames.mono {sites sites' : List Site} {e : Error} (h : e.Blames sites)
    (hsub : sites ⊆ sites') : e.Blames sites' := by
  intro keyword side he
  obtain ⟨s, hs, hrest⟩ := h keyword side he
  exact ⟨s, hsub hs, hrest⟩

namespace Judges

variable {α β : Type} {ss ss' : List Site}

theorem pure {a : α} (h : ∀ s ∈ ss, s.IsEven) : Judges ss (Pure.pure a : Traced Error α) :=
  ⟨fun _ _ => h, .pure a⟩

theorem fail {e : Error} (h : e.Blames ss) : Judges ss (Traced.fail e : Traced Error α) :=
  ⟨fun _ ha => (by cases ha), .fail h⟩

theorem bind {x : Traced Error α} {f : α → Traced Error β} (h : Judges ss x)
    (hf : ∀ a, x.result = .ok a → Judges ss' (f a)) : Judges (ss ++ ss') (x >>= f) where
  even b hb s hs := by
    obtain ⟨a, ha, hb⟩ := Traced.bind_eq_ok.mp hb
    rcases List.mem_append.mp hs with hs | hs
    · exact h.even a ha s hs
    · exact (hf a ha).even b hb s hs
  blames := by
    refine (h.blames.imp fun _ he => he.mono (List.subset_append_left ss ss')).bind fun a ha => ?_
    exact (hf a ha).blames.imp fun _ he => he.mono (List.subset_append_right ss ss')

/-- What cannot fail judges nothing. -/
theorem bind_pure {x : Traced Error α} (h : Judges ss x) (f : α → β) :
    Judges ss (x >>= fun a => Pure.pure (f a)) := by
  have hpure : ∀ a, Judges [] (Pure.pure (f a) : Traced Error β) := fun a =>
    pure fun s hs => (by cases hs)
  have := h.bind fun a _ => hpure a
  rwa [List.append_nil] at this

end Judges

/-! ### Where white space is missed -/

section Nodes

variable {ctx : Context} {w : Walk} {keyword : Keyword} {side : Side}

/-- White space is missed at a node by the keyword in front of it, or inside of
its arguments. -/
theorem missing_of_resolveNode {kind : Selector.Kind} {spaces : Spaces} {start : Nat}
    {children : List Tree}
    (h : (resolveNode ctx (.node kind spaces start children) w).result =
      .error (.missingWhitespace keyword side)) :
    w.demand.error? kind.isSpacing = some (.missingWhitespace keyword side) ∨
    (∃ name k, kind = .pseudo name true ∧ Keyword.ofPseudo? name = some k ∧
      (resolveNarrow ctx children ⟨k.isGlobal, true, some k⟩ false).result =
        .error (.missingWhitespace keyword side)) ∨
    ∃ name, kind = .pseudo name true ∧ Keyword.ofPseudo? name = none ∧ isExchange name = false ∧
      (resolveArguments ctx children w.standing false).result =
        .error (.missingWhitespace keyword side) := by
  cases failure_of_resolveNode h with
  | demand hd => exact .inl hd
  | narrow hk _ ha => exact .inr (.inl ⟨_, _, rfl, hk, ha⟩)
  | call hk hx ha => exact .inr (.inr ⟨_, rfl, hk, hx, ha⟩)

end Nodes

/-! ### Inside of narrow keywords -/

section Quiet

variable {ctx : Context}

/-- No white space is missed. -/
def Error.IsQuiet (e : Error) : Prop :=
  ∀ keyword side, e ≠ .missingWhitespace keyword side

/-- Inside of a narrow keyword there is no broad one, and nothing is demanded. -/
def Walk.IsQuiet (w : Walk) : Prop :=
  w.standing.inside ≠ none ∧ w.demand = .nothing

theorem Walk.IsQuiet.step {w w' : Walk} {t : Tree} {nodes : List Tree} (h : w.IsQuiet)
    (hs : Step ctx w t nodes w') : w'.IsQuiet := by
  refine ⟨inside_of_step hs ▸ h.1, ?_⟩
  cases hs with
  | keepSpace hd => exact hd
  | broad _ _ hi => exact absurd hi h.1
  | _ => rfl

mutual

theorem quiet_resolveNode : ∀ (t : Tree) {w : Walk}, w.IsQuiet →
    (resolveNode ctx t w).FailsOnly Error.IsQuiet
  | .node kind spaces start children, w, h => by
    rintro e he keyword side rfl
    rcases missing_of_resolveNode he with hd | ⟨name, k, -, -, hn⟩ | ⟨name, -, -, -, ha⟩
    · rw [h.2] at hd; cases hd
    · exact quiet_resolveNarrow children (by simp) _ hn keyword side rfl
    · exact quiet_resolveArguments children h.1 _ ha keyword side rfl

theorem quiet_resolveSequence : ∀ (ts : List Tree) {w : Walk}, w.IsQuiet →
    (resolveSequence ctx ts w).FailsOnly Error.IsQuiet
  | [], _, _ => by
    unfold resolveSequence
    exact .pure _
  | t :: ts, w, h => by
    unfold resolveSequence
    exact (quiet_resolveNode t h).bind fun (_, _) hn =>
      (quiet_resolveSequence ts (h.step (step_of_resolveNode hn))).bind fun _ _ => .pure _

theorem quiet_resolveNarrow : ∀ (ts : List Tree) {standing : Standing} {hasLocals : Bool},
    standing.inside ≠ none → (resolveNarrow ctx ts standing hasLocals).FailsOnly Error.IsQuiet
  | [], _, _, _ => by
    unfold resolveNarrow
    exact .pure _
  | .node _ _ _ children :: ts, _, _, h => by
    unfold resolveNarrow
    refine (quiet_resolveSequence children ⟨h, rfl⟩).bind fun (_, _) _ => ?_
    refine (quiet_resolveNarrow ts ?_).bind fun _ _ => .pure _
    exact h

theorem quiet_resolveArguments : ∀ (ts : List Tree) {standing : Standing} {hasLocals : Bool},
    standing.inside ≠ none → (resolveArguments ctx ts standing hasLocals).FailsOnly Error.IsQuiet
  | [], _, _, _ => by
    unfold resolveArguments
    exact .pure _
  | .node _ _ _ children :: ts, _, _, h => by
    unfold resolveArguments
    refine (quiet_resolveSequence children ⟨h, rfl⟩).bind fun (_, _) _ => ?_
    refine (quiet_resolveArguments ts ?_).bind fun _ _ => .pure _
    exact h

end

end Quiet

/-! ### The walk judges rightly -/

section Walks

variable {ctx : Context}

/-- The keyword at the end of the nodes `front`, whose white space behind is
still to be seen. -/
def pendingSite (front behind : List Tree) : List Site :=
  (front.getLast?.bind broad?).toList.map fun keyword => ⟨keyword, front.dropLast, behind⟩

theorem pendingSite_append (front behind : List Tree) (t : Tree) :
    pendingSite (front ++ [t]) behind =
      (broad? t).toList.map fun keyword => ⟨keyword, front, behind⟩ := by
  rw [pendingSite, List.getLast?_concat, List.dropLast_concat, Option.bind_some]

/-- What a keyword demands is decided at the next node, and rightly. -/
theorem Remembers.judges_next {front : List Tree} {w : Walk} (h : Remembers front w) (t : Tree)
    (behind : List Tree) :
    (w.demand.error? t.isSpacing = none → ∀ s ∈ pendingSite front (t :: behind), s.IsEven) ∧
      ∀ e, w.demand.error? t.isSpacing = some e → e.Blames (pendingSite front (t :: behind)) := by
  rw [pendingSite, ← h.demand]
  cases hd : w.demand with
  | nothing => exact ⟨fun _ s hs => (by cases hs), fun e he => (by cases he)⟩
  | space keyword =>
    have hbefore := h.space keyword hd
    cases ht : t.isSpacing with
    | true =>
      refine ⟨fun _ s hs _ => ?_, fun e he => (by cases he)⟩
      obtain rfl := List.mem_singleton.mp hs
      exact hbefore.trans ht.symm
    | false =>
      refine ⟨fun he => (by cases he), fun e he k side hk => ?_⟩
      cases he
      cases hk
      exact ⟨_, List.mem_singleton.mpr rfl, rfl, ht⟩
  | noSpace keyword =>
    have hbefore := h.noSpace keyword hd
    cases ht : t.isSpacing with
    | true =>
      refine ⟨fun he => (by cases he), fun e he k side hk => ?_⟩
      cases he
      cases hk
      exact ⟨_, List.mem_singleton.mpr rfl, rfl, hbefore⟩
    | false =>
      refine ⟨fun _ s hs _ => ?_, fun e he => (by cases he)⟩
      obtain rfl := List.mem_singleton.mp hs
      exact hbefore.trans ht.symm

theorem mem_sitesOf {t : Tree} {s : Site} (h : s ∈ sitesOf t) :
    ∃ name spaces start arguments, t = .node (.pseudo name true) spaces start arguments ∧
      Keyword.ofPseudo? name = none ∧ isExchange name = false ∧ s ∈ sitesAmong arguments := by
  unfold sitesOf at h
  split at h
  next name spaces start arguments =>
    split at h
    next => cases h
    next hc =>
      simp only [Bool.or_eq_true, not_or, Bool.not_eq_true, Option.isSome_eq_false_iff,
        Option.isNone_iff_eq_none] at hc
      exact ⟨name, spaces, start, arguments, rfl, hc.2, hc.1, h⟩
  next => cases h

mutual

theorem judges_resolveNode : ∀ (t : Tree) (behind : List Tree) {front : List Tree} {w : Walk},
    Remembers front w →
    Judges (pendingSite front (t :: behind) ++ sitesOf t) (resolveNode ctx t w)
  | .node kind spaces start children, behind, front, w, h => by
    obtain ⟨heven, hblames⟩ := h.judges_next (.node kind spaces start children) behind
    constructor
    · rintro ⟨nodes, w'⟩ hok s hs
      have hstep := step_of_resolveNode hok
      rcases List.mem_append.mp hs with hs | hs
      · exact heven (error?_of_step hstep) s hs
      · obtain ⟨name, _, _, _, heq, hk, hx, hs⟩ := mem_sitesOf hs
        cases heq
        cases hstep with
        | narrow _ hk' => rw [hk] at hk'; cases hk'
        | exchange _ _ hx' => rw [hx] at hx'; cases hx'
        | call _ _ _ ha => exact (judges_resolveArguments children h.inside).even _ ha s hs
        | name _ hn => cases hn
        | keep _ _ _ hk' => cases (hk' name true rfl).1
    · rintro e he keyword side rfl
      rcases missing_of_resolveNode he with hd | ⟨name, k, -, -, hn⟩ | ⟨name, rfl, hk, hx, ha⟩
      · exact (hblames _ hd).mono (List.subset_append_left _ _) keyword side rfl
      · exact absurd rfl (quiet_resolveNarrow children (by simp) _ hn keyword side)
      · obtain ⟨s, hs, hrest⟩ :=
          (judges_resolveArguments children h.inside).blames _ ha keyword side rfl
        refine ⟨s, List.mem_append_right _ ?_, hrest⟩
        rw [sitesOf, hk, hx]
        exact hs

theorem judges_resolveSequence : ∀ (ts : List Tree) {front : List Tree} {w : Walk},
    Remembers front w →
    Judges (pendingSite front ts ++ sitesAlong front ts) (resolveSequence ctx ts w)
  | [], front, w, h => by
    unfold resolveSequence
    refine .pure fun s hs hne => ?_
    rw [sitesAlong, List.append_nil, pendingSite] at hs
    obtain ⟨keyword, -, rfl⟩ := List.mem_map.mp hs
    exact absurd rfl hne
  | t :: ts, front, w, h => by
    unfold resolveSequence
    rw [sitesAlong, ← pendingSite_append, List.append_assoc, ← List.append_assoc]
    refine (judges_resolveNode t ts h).bind fun (nodes, w') hn => ?_
    exact (judges_resolveSequence ts (h.step (step_of_resolveNode hn))).bind_pure _

theorem judges_resolveArguments : ∀ (ts : List Tree) {standing : Standing} {hasLocals : Bool},
    standing.inside = none → Judges (sitesAmong ts) (resolveArguments ctx ts standing hasLocals)
  | [], _, _, _ => by
    unfold resolveArguments
    rw [sitesAmong]
    exact .pure fun s hs => (by cases hs)
  | .node _ _ _ children :: ts, _, _, h => by
    unfold resolveArguments
    rw [sitesAmong]
    refine (judges_resolveSequence children (.begin h _)).bind fun (_, w) _ => ?_
    refine (judges_resolveArguments ts ?_).bind_pure _
    exact h

end

/-- **The walk judges every broad keyword rightly.** -/
theorem judges_resolve (isGlobal : Bool) (t : Tree) :
    Judges (sites t) (resolve ctx isGlobal t) := by
  have hlist : ∀ (ts : List Tree) (agreed : Option Bool),
      Judges (sitesAmong ts) (resolveAlternatives ctx isGlobal t.print agreed ts) := by
    intro ts
    induction ts with
    | nil =>
      intro agreed
      rw [sitesAmong]
      exact .pure fun s hs => (by cases hs)
    | cons a ts ih =>
      intro agreed
      obtain ⟨kind, spaces, start, children⟩ := a
      unfold resolveAlternatives
      rw [sitesAmong]
      refine .bind ((judges_resolveSequence children (.begin rfl _)).bind_pure _) fun q _ => ?_
      dsimp only
      split
      · exact (ih _).bind_pure _
      · exact .fail fun keyword side he => (by cases he)
  exact (hlist t.children none).bind_pure _

end Walks

/-! ### White space in the text -/

/-- **If white space is missed on a side of a keyword, there is a broad keyword
of this name without white space on that side, or with white space there that
is hidden. And a selector list in which a broad keyword outside of narrow
keywords and exchanges has white space on exactly one side, none of it hidden,
and is not the last node of its alternative, is not resolved.** -/
theorem missing_whitespace_exact (ctx : Context) (isGlobal : Bool) (t : Tree) :
    (∀ keyword side,
      (resolve ctx isGlobal t).result = .error (.missingWhitespace keyword side) →
        ∃ s ∈ sites t, s.keyword = keyword ∧ (s.hasSpace side = false ∨ s.isHidden side)) ∧
    ∀ s ∈ sites t, s.behind ≠ [] → s.hasSpace .before ≠ s.hasSpace .after →
      s.isHidden .before = false → s.isHidden .after = false →
      ∀ r, (resolve ctx isGlobal t).result ≠ .ok r := by
  have hj : Judges (sites t) (resolve ctx isGlobal t) := judges_resolve isGlobal t
  constructor
  · intro keyword side he
    obtain ⟨s, hs, hk, hsees⟩ := hj.blames _ he keyword side rfl
    rw [s.sees_eq, Bool.and_eq_false_iff, Bool.not_eq_false'] at hsees
    exact ⟨s, hs, hk, hsees⟩
  · intro s hs hne hone hb ha r hr
    have heven := hj.even r hr s hs hne
    rw [s.sees_eq, s.sees_eq, hb, ha, Bool.not_false, Bool.and_true, Bool.and_true] at heven
    exact hone heven

/-- A keyword in an argument, directly behind a combinator, with white space
only behind it. -/
theorem missing_whitespace_exact_nested :
    ∃ t, Selector.parse ":not(.a >:global .b)" = .ok t ∧
      (resolve ⟨[], false⟩ false t).result = .error (.missingWhitespace .globalScope .before) ∧
      (∃ s ∈ sites t, s.keyword = .globalScope ∧
        (s.hasSpace .before = false ∨ s.isHidden .before)) ∧
      (∃ s ∈ sites t, s.hasSpace .before ≠ s.hasSpace .after) ∧
      ∀ r, (resolve ⟨[], false⟩ false t).result ≠ .ok r := by
  have hok :
      (Selector.parse ":not(.a >:global .b)").toOption.any fun t =>
        ((resolve ⟨[], false⟩ false t).result.map fun _ => ()) =
            .error (.missingWhitespace .globalScope .before) &&
          (sites t).any fun s => !s.behind.isEmpty && s.hasSpace .before != s.hasSpace .after &&
            !s.isHidden .before && !s.isHidden .after := by
    decide +kernel
  obtain ⟨t, ht, hok⟩ := exists_ok_of_any hok
  obtain ⟨hfails, hany⟩ := (Bool.and_eq_true _ _).mp hok
  have he := eq_error_of_map (of_decide_eq_true hfails)
  obtain ⟨s, hs, hside⟩ := List.any_eq_true.mp hany
  simp only [Bool.and_eq_true, Bool.not_eq_true', bne_iff_ne, List.isEmpty_eq_false_iff] at hside
  obtain ⟨⟨⟨hne, hone⟩, hb⟩, ha⟩ := hside
  obtain ⟨hmissing, honly⟩ := missing_whitespace_exact ⟨[], false⟩ false t
  exact ⟨t, ht, he, hmissing _ _ he, ⟨s, hs, hone⟩, honly s hs hne hone hb ha⟩

/-- White space behind a combinator is missed although it is there; and a
keyword that has it and has none behind it goes through, as does a keyword
behind another one. -/
theorem hidden_whitespace :
    (∃ t, Selector.parse ".a > :global .b" = .ok t ∧
      (resolve ⟨[], false⟩ false t).result = .error (.missingWhitespace .globalScope .before) ∧
      ∀ s ∈ sites t, s.hasSpace .before) ∧
    ∀ source ∈ [".a > :global.b", ".a:global > .b", ":global :local.b"],
      ∃ t r, Selector.parse source = .ok t ∧ (resolve ⟨[], false⟩ false t).result = .ok r ∧
        ∃ s ∈ sites t, s.behind ≠ [] ∧ s.hasSpace .before ≠ s.hasSpace .after := by
  constructor
  · have hok :
        (Selector.parse ".a > :global .b").toOption.any fun t =>
          ((resolve ⟨[], false⟩ false t).result.map fun _ => ()) =
              .error (.missingWhitespace .globalScope .before) &&
            (sites t).all fun s => s.hasSpace .before := by
      decide +kernel
    obtain ⟨t, ht, hok⟩ := exists_ok_of_any hok
    obtain ⟨hfails, hall⟩ := (Bool.and_eq_true _ _).mp hok
    exact ⟨t, ht, eq_error_of_map (of_decide_eq_true hfails), List.all_eq_true.mp hall⟩
  · have hok : ∀ source ∈ [".a > :global.b", ".a:global > .b", ":global :local.b"],
        (Selector.parse source).toOption.any fun t =>
          (resolve ⟨[], false⟩ false t).result.toOption.any fun _ =>
            (sites t).any fun s =>
              !s.behind.isEmpty && s.hasSpace .before != s.hasSpace .after := by
      decide +kernel
    intro source hsource
    obtain ⟨t, ht, hok⟩ := exists_ok_of_any (hok source hsource)
    obtain ⟨r, hr, hany⟩ := exists_ok_of_any hok
    obtain ⟨s, hs, hside⟩ := List.any_eq_true.mp hany
    simp only [Bool.and_eq_true, Bool.not_eq_true', bne_iff_ne, List.isEmpty_eq_false_iff] at hside
    exact ⟨t, r, ht, hr, s, hs, hside.1, hside.2⟩

end Scope
end StyleScope
