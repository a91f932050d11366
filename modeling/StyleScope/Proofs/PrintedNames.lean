/-
# The names in a printed list

A list that prints legibly is read with the names of its nodes, in their order
and with what their escapes stand for (`names_of_isLegible`). Each node is
printed as a run of tokens that is read for itself: whatever stands behind it,
its names come first and then those of what follows (`IsRun`). A run also says
how many parentheses it closes and opens. All in all a list leaves none open,
unless it holds brackets that do, and so it can stand in parentheses again.

Key definitions: `Token.parensBehind`, `Selector.IsRun`, `Selector.Yields`,
`Selector.Kind.IsPaired`.
Key theorems: `Token.closingLength_of_parensBehind`, `Selector.Tree.IsSound.yields`,
`Selector.names_of_isLegible`.
-/
import StyleScope.Proofs.ReadNames

namespace StyleScope
namespace Token

/-! ### Parentheses in pairs -/

section Depths

variable {opens closes : Kind → Bool} {depth behind : Nat} {k : Kind}

theorem openBehind_of_opens (ho : opens k) :
    openBehind opens closes depth k = some (depth + 1) := by
  unfold openBehind
  exact if_pos ho

theorem openBehind_of_closes (ho : opens k = false) (hc : closes k) :
    openBehind opens closes (depth + 1) k = some depth := by
  unfold openBehind
  rw [if_neg (by simp [ho]), if_pos hc]

theorem openBehind_eq_self (ho : opens k = false) (hc : closes k = false) :
    openBehind opens closes depth k = some depth := by
  unfold openBehind
  rw [if_neg (by simp [ho]), if_neg (by simp [hc])]

theorem of_openBehind_eq_none (h : openBehind opens closes depth k = none) :
    opens k = false ∧ closes k ∧ depth = 0 := by
  unfold openBehind at h
  split at h
  · cases h
  next ho =>
    split at h
    next hc =>
      cases depth with
      | zero => exact ⟨by simpa using ho, hc, rfl⟩
      | succ depth => cases h
    next => cases h

theorem openBehind_add (h : openBehind opens closes depth k = some behind) (n : Nat) :
    openBehind opens closes (depth + n) k = some (behind + n) := by
  by_cases ho : opens k
  · rw [openBehind_of_opens ho] at h ⊢
    cases h
    rw [Nat.add_right_comm]
  by_cases hc : closes k
  · cases depth with
    | zero =>
      unfold openBehind at h
      rw [if_neg ho, if_pos hc] at h
      cases h
    | succ depth =>
      rw [openBehind_of_closes (by simpa using ho) hc] at h
      cases h
      rw [Nat.add_right_comm, openBehind_of_closes (by simpa using ho) hc]
  · rw [openBehind_eq_self (by simpa using ho) (by simpa using hc)] at h ⊢
    cases h
    rfl

end Depths

/-- How many parentheses are open behind the tokens if `depth` are in front of
them. There is no answer if one is closed that is not open. -/
def parensBehind (depth : Nat) (ts : List Token) : Option Nat :=
  ts.foldlM (fun depth t => openBehind Kind.opensParen (· = .rightParen) depth t.kind) depth

section Parens

variable {depth behind n : Nat} {t : Token} {ts us : List Token}

@[simp] theorem parensBehind_nil : parensBehind depth [] = some depth := rfl

theorem parensBehind_cons : parensBehind depth (t :: ts) =
    (openBehind Kind.opensParen (· = .rightParen) depth t.kind).bind (parensBehind · ts) :=
  List.foldlM_cons

theorem parensBehind_append :
    parensBehind depth (ts ++ us) = (parensBehind depth ts).bind (parensBehind · us) :=
  List.foldlM_append

theorem parensBehind_of_map_kind (h : ts.map (·.kind) = us.map (·.kind)) :
    parensBehind depth ts = parensBehind depth us := by
  induction ts generalizing depth us with
  | nil => rw [List.map_eq_nil_iff.mp h.symm]
  | cons t ts ih =>
    obtain ⟨u, us, rfl, hu, hus⟩ := List.map_eq_cons_iff.mp h.symm
    rw [parensBehind_cons, parensBehind_cons, hu]
    exact Option.bind_congr fun depth _ => ih hus.symm

theorem parensBehind_of_none (h : ∀ t ∈ ts, t.kind.opensParen = false ∧ t.kind ≠ .rightParen) :
    parensBehind depth ts = some depth := by
  induction ts with
  | nil => rfl
  | cons t ts ih =>
    obtain ⟨⟨ho, hc⟩, h⟩ := List.forall_mem_cons.mp h
    rw [parensBehind_cons, openBehind_eq_self ho (by simpa using hc)]
    exact ih h

/-- Parentheses around the tokens make no difference. -/
theorem parensBehind_add (h : parensBehind depth ts = some behind) (n : Nat) :
    parensBehind (depth + n) ts = some (behind + n) := by
  induction ts generalizing depth with
  | nil =>
    cases h
    rfl
  | cons t ts ih =>
    rw [parensBehind_cons] at h ⊢
    obtain ⟨depth', hd, h⟩ := Option.bind_eq_some_iff.mp h
    rw [openBehind_add hd n]
    exact ih h

/-- Tokens that close all that they open do not close a parenthesis in front. -/
theorem closingLength_of_parensBehind (h : parensBehind depth ts = some behind)
    (us : List Token) :
    closingLength Kind.opensParen (· = .rightParen) depth (ts ++ us) =
      (closingLength Kind.opensParen (· = .rightParen) behind us).map (ts.length + ·) := by
  induction ts generalizing depth with
  | nil =>
    cases h
    simp
  | cons t ts ih =>
    rw [parensBehind_cons] at h
    obtain ⟨depth', hd, h⟩ := Option.bind_eq_some_iff.mp h
    rw [List.cons_append, closingLength_cons, hd]
    simp only [ih h, Option.map_map, List.length_cons]
    congr 1
    funext k
    simp only [Function.comp_apply]
    omega

/-- Up to the token that closes a parenthesis all others are closed. -/
theorem parensBehind_of_closingLength
    (h : closingLength Kind.opensParen (· = .rightParen) depth ts = some n) :
    parensBehind (depth + 1) (ts.take n) = some 0 := by
  induction ts generalizing depth n with
  | nil => cases h
  | cons t ts ih =>
    rw [closingLength_cons] at h
    cases hd : openBehind Kind.opensParen (· = .rightParen) depth t.kind with
    | none =>
      rw [hd] at h
      cases h
      obtain ⟨ho, hc, rfl⟩ := of_openBehind_eq_none hd
      rw [List.take_succ_cons, List.take_zero, parensBehind_cons, openBehind_of_closes ho hc]
      rfl
    | some depth' =>
      rw [hd] at h
      obtain ⟨k, hk, rfl⟩ := Option.map_eq_some_iff.mp h
      rw [Nat.add_comm 1 k, List.take_succ_cons, parensBehind_cons, openBehind_add hd 1]
      exact ih hk

end Parens

end Token

namespace Selector

open Token (IsFiller isTrivia lexFrom parensBehind textOf)

/-! ### Runs -/

/-- The tokens are read for themselves, with these names. In front of them
`closes` parentheses have to be open, and behind them `opens` are. -/
structure IsRun (names : List Name) (closes opens : Nat) (run : List Token) : Prop where
  names : ∀ rest, namesAmong (run ++ rest) = names ++ namesAmong rest
  parens : parensBehind closes run = some opens

namespace IsRun

variable {names names' : List Name} {a b c : Nat} {run run' : List Token} {t : Token}

theorem nil : IsRun [] a a [] :=
  ⟨fun _ => rfl, rfl⟩

theorem append (h : IsRun names a b run) (h' : IsRun names' b c run') :
    IsRun (names ++ names') a c (run ++ run') where
  names rest := by rw [List.append_assoc, h.names, h'.names, List.append_assoc]
  parens := by
    rw [Token.parensBehind_append, h.parens]
    exact h'.parens

theorem add (h : IsRun names a b run) (n : Nat) : IsRun names (a + n) (b + n) run :=
  ⟨h.names, Token.parensBehind_add h.parens n⟩

theorem of_separates (hs : ∀ t ∈ run, separates t.kind) (hc : ∀ t ∈ run, t.kind ≠ .rightParen) :
    IsRun [] a a run where
  names rest := by
    induction run with
    | nil => rfl
    | cons t run ih =>
      rw [List.forall_mem_cons] at hs hc
      rw [List.cons_append, namesAmong_of_separates hs.1]
      exact ih hs.2 hc.2
  parens := by
    refine Token.parensBehind_of_none fun t ht => ⟨?_, hc t ht⟩
    have := hs t ht
    cases hk : t.kind <;> first | rfl | (rw [hk] at this; cases this)

theorem of_isTrivia (h : ∀ t ∈ run, t.isTrivia) : IsRun [] a a run := by
  refine of_separates (fun t ht => separates_of_isTrivia (h t ht)) fun t ht hk => ?_
  have := h t ht
  rw [isTrivia, hk] at this
  cases this

/-- A simple selector without arguments. -/
theorem of_isUnit {name : Option Name} {more : List Token} (hu : IsUnit t more)
    (hn : ∀ rest kind n, simple t (more ++ rest) = .ok (kind, n) →
      kind.name?.map Name.decoded = name)
    (hp : parensBehind a (t :: more) = some b) : IsRun name.toList a b (t :: more) where
  names rest := by
    obtain ⟨kind, hs⟩ := hu.simple rest
    rw [List.cons_append, namesAmong_of_simple (hu.opening rest) hs, hn rest kind _ hs,
      List.drop_left]
  parens := hp

end IsRun

/-! ### Simple selectors -/

/-- Only a full stop or a number sign starts a class or an id. -/
theorem name?_of_simple {t : Token} {ts : List Token} {kind : Kind} {n : Nat}
    (h : simple t ts = .ok (kind, n))
    (hk : ∀ isIdent, t.kind ≠ .hash isIdent) (hd : t.kind ≠ .delim '.')
    (hs : t.kind ≠ .delim '#') : kind.name? = none := by
  rw [simple.eq_def] at h
  cases htk : t.kind with
  | delim c =>
    rw [htk] at h hd hs
    dsimp only at h
    rw [if_neg (by simpa using hd), if_neg (by simpa using hs)] at h
    repeat' split at h
    all_goals
      cases h
      rfl
  | hash isIdent => exact absurd htk (hk isIdent)
  | _ =>
    rw [htk] at h
    dsimp only at h
    repeat' split at h
    all_goals
      cases h
      try rfl

/-- The text of a tag or a string closes all parentheses that it opens. -/
theorem parensBehind_of_simple {t : Token} {more : List Token} {kind : Kind} {depth : Nat}
    (h : simple t more = .ok (kind, more.length)) (hs : startsTag t.kind)
    (hp : t.kind ≠ .rightParen) : parensBehind depth (t :: more) = some depth := by
  have hsingle (ho : t.kind.opensParen = false) (hlength : more.length = 0) :
      parensBehind depth (t :: more) = some depth := by
    rw [List.eq_nil_of_length_eq_zero hlength]
    exact Token.parensBehind_of_none (by simp [ho, hp])
  have hclosed (ho : t.kind.opensParen)
      (hn : Token.closingLength Token.Kind.opensParen (· = .rightParen) 0 more =
        some more.length) : parensBehind depth (t :: more) = some depth := by
    have hmore := Token.parensBehind_of_closingLength hn
    rw [List.take_length, Nat.zero_add] at hmore
    have hall := Token.parensBehind_add hmore depth
    rw [Nat.add_comm, Nat.zero_add] at hall
    rw [Token.parensBehind_cons, Token.openBehind_of_opens ho]
    exact hall
  rw [simple.eq_def] at h
  cases hk : t.kind with
  | delim c =>
    rw [hk] at h hs
    simp only [startsTag, Bool.and_eq_true, decide_eq_true_eq] at hs
    dsimp only at h
    rw [if_neg hs.1, if_neg hs.2] at h
    refine hsingle (by rw [hk]; rfl) ?_
    repeat' split at h
    all_goals
      injection h with h
      exact (Prod.mk.inj h).2.symm
  | hash | colon | leftBracket =>
    rw [hk] at hs
    cases hs
  | function | leftParen =>
    rw [hk] at h
    dsimp only at h
    split at h
    next n hn =>
      injection h with h
      obtain ⟨-, rfl⟩ := Prod.mk.inj h
      exact hclosed (by rw [hk]; rfl) hn
    next => cases h
  | rightBracket =>
    rw [hk] at h
    cases h
  | _ =>
    rw [hk] at h
    dsimp only at h
    injection h with h
    exact hsingle (by rw [hk]; rfl) (Prod.mk.inj h).2.symm

/-- The brackets of an attribute close all parentheses that they open. -/
def Kind.IsPaired : Kind → Prop
  | .attribute text => parensBehind 0 (Token.lex text) = some 0
  | _ => True

instance (kind : Kind) : Decidable kind.IsPaired :=
  match kind with
  | .attribute text => inferInstanceAs (Decidable (parensBehind 0 (Token.lex text) = some 0))
  | .root | .selector | .combinator .. | .pseudo .. | .className _ | .idName _ | .tag _
  | .universal | .string _ | .nesting | .comment _ => isTrue trivial

/-- The white space that belongs to the last escape of a name stands for
nothing. -/
theorem decoded_splitEnding {name : String} {isId : Bool} (hw : (⟨isId, name⟩ : Name).IsWhole)
    (after : String) :
    (⟨isId, name ++ (splitEnding name after).1⟩ : Name).decoded =
      (⟨isId, name⟩ : Name).decoded := by
  unfold splitEnding
  split
  · rw [String.append_empty]
  next c cs _ =>
    split
    next hc =>
      simp only [Bool.and_eq_true, decide_eq_true_eq] at hc
      rw [Name.decoded, Name.decoded, String.toList_append, String.toList_singleton,
        Token.unescape_append_space hc.1 hw hc.2]
    next => rw [String.append_empty]

/-! ### Pieces -/

/-- The tokens of the pieces are such a run, whatever white space and comments
stand in front of them and whatever pieces behind. -/
def Yields (names : List Name) (closes opens : Nat) (qs : List Piece) : Prop :=
  ∀ (o : Nat) (before : String) (ps : List Piece), IsFiller before.toList →
    ∃ run o' before', tokensOf o before (qs ++ ps) = run ++ tokensOf o' before' ps ∧
      IsFiller before'.toList ∧ IsRun names closes opens run

namespace Yields

variable {names names' : List Name} {a b c : Nat} {qs qs' : List Piece}

theorem nil : Yields [] a a [] :=
  fun o before _ hb => ⟨[], o, before, rfl, hb, .nil⟩

theorem filler {text : String} (h : IsFiller text.toList) : Yields [] a a [.filler text] := by
  refine fun o before ps hb => ⟨[], o, before ++ text, ?_, ?_, .nil⟩
  · rw [List.cons_append, List.nil_append, List.nil_append, tokensOf]
  · rw [String.toList_append]
    exact hb.append h

theorem blank : Yields [] a a [.filler ""] :=
  filler (by simpa using IsFiller.nil)

theorem own {tokens : Nat → List Token} (h : ∀ o, IsRun names a b (tokens o)) :
    Yields names a b [.own tokens] := by
  intro o before ps hb
  have hrun := (IsRun.of_isTrivia (a := a) (hb.isTrivia_of_mem_lexFrom o)).append
    (h (o + before.utf8ByteSize))
  refine ⟨_, o + before.utf8ByteSize + (textOf (tokens (o + before.utf8ByteSize))).utf8ByteSize, "",
    ?_, .nil, hrun⟩
  rw [List.cons_append, List.nil_append, tokensOf, List.append_assoc]

theorem append (h : Yields names a b qs) (h' : Yields names' b c qs') :
    Yields (names ++ names') a c (qs ++ qs') := by
  intro o before ps hb
  obtain ⟨run, o', before', heq, hb', hrun⟩ := h o before (qs' ++ ps) hb
  obtain ⟨run', o'', before'', heq', hb'', hrun'⟩ := h' o' before' ps hb'
  exact ⟨run ++ run', o'', before'', by rw [List.append_assoc, heq, heq', List.append_assoc], hb'',
    hrun.append hrun'⟩

theorem add (h : Yields names a b qs) (n : Nat) : Yields names (a + n) (b + n) qs := by
  intro o before ps hb
  obtain ⟨run, o', before', heq, hb', hrun⟩ := h o before ps hb
  exact ⟨run, o', before', heq, hb', hrun.add n⟩

end Yields

/-- The tokens of all pieces of a text. -/
theorem Yields.tokensOf {names : List Name} {a b : Nat} {qs : List Piece}
    (h : Yields names a b qs) :
    namesAmong (Selector.tokensOf 0 "" qs) = names ∧
      parensBehind a (Selector.tokensOf 0 "" qs) = some b := by
  obtain ⟨run, o, before, heq, hb, hrun⟩ := h 0 "" [] .nil
  rw [List.append_nil, Selector.tokensOf] at heq
  have hlast : IsRun [] b b (lexFrom o before.toList) :=
    .of_isTrivia (hb.isTrivia_of_mem_lexFrom o)
  have hall := hrun.append hlast
  refine ⟨?_, heq ▸ hall.parens⟩
  have hnames := hall.names []
  rwa [List.append_nil, namesAmong, List.append_nil, List.append_nil, ← heq] at hnames

/-! ### Nodes -/

theorem yields_of_isUnit {kind : Kind} {spaces : Spaces} {name : Option Name} {rest : String}
    (ending : String) (start : Nat) (hleaf : kind.isLeaf) (hb : IsFiller spaces.before.toList)
    (hpieces : kind.pieces spaces.after = [.own (kind.tokens ending), .filler rest])
    (hrest : IsFiller rest.toList)
    (hu : ∀ o, ∃ t more, kind.tokens ending o = t :: more ∧ IsUnit t more ∧
      (∀ rest kind n, simple t (more ++ rest) = .ok (kind, n) →
        kind.name?.map Name.decoded = name) ∧ parensBehind 0 (t :: more) = some 0) :
    Yields name.toList 0 0 (Tree.leaf kind spaces start).pieces := by
  have hown : Yields name.toList 0 0 [.own (kind.tokens ending)] := .own fun o => by
    obtain ⟨t, more, htokens, hunit, hname, hparens⟩ := hu o
    rw [htokens]
    exact .of_isUnit hunit hname hparens
  have hall := ((Yields.filler hb).append hown).append (.filler hrest)
  rw [List.append_nil, List.nil_append] at hall
  rw [pieces_leaf hleaf, hpieces]
  exact hall

theorem yields_of_filler {kind : Kind} {text : String} {spaces : Spaces} (start : Nat)
    (hk : kind = .combinator .descendant text ∨ kind = .comment text)
    (ht : IsFiller text.toList) (hb : IsFiller spaces.before.toList)
    (ha : IsFiller spaces.after.toList) :
    Yields [] 0 0 (Tree.leaf kind spaces start).pieces := by
  have hall := ((Yields.filler hb).append (.filler ht)).append (.filler (a := 0) ha)
  rcases hk with rfl | rfl
  · rw [pieces_leaf rfl]
    exact hall
  · rw [pieces_leaf rfl]
    exact hall

theorem yields_of_mark {c : Combinator} (hc : c ≠ .descendant) (text : String) {spaces : Spaces}
    (start : Nat) (hb : IsFiller spaces.before.toList) (ha : IsFiller spaces.after.toList) :
    Yields [] 0 0 (Tree.leaf (.combinator c text) spaces start).pieces := by
  have hmark : Yields [] 0 0 [.own ((Kind.combinator c text).tokens "")] := .own fun o => by
    refine .of_separates ?_ ?_
    · cases c with
      | descendant => exact absurd rfl hc
      | _ => simp [Kind.tokens, separates, Combinator.mark, combinator?]
    · simp [Kind.tokens]
  have hall := ((Yields.filler hb).append hmark).append (.filler ha)
  rw [pieces_leaf rfl]
  cases c with
  | descendant => exact absurd rfl hc
  | _ => exact hall

/-- A tag or a string. -/
theorem yields_of_readsAlone {kind : Kind} {text : String} {spaces : Spaces} (start : Nat)
    (hk : kind = .tag text ∨ kind = .string text) (h : ReadsAlone startsTag text)
    (hb : IsFiller spaces.before.toList) (ha : IsFiller spaces.after.toList) :
    Yields (none : Option Name).toList 0 0 (Tree.leaf kind spaces start).pieces := by
  have htokens : ∀ o, kind.tokens "" o = lexFrom o text.toList := by
    intro o
    rcases hk with rfl | rfl <;> rfl
  refine yields_of_isUnit "" start ?_ hb ?_ ha fun o => ?_
  · rcases hk with rfl | rfl <;> rfl
  · rcases hk with rfl | rfl <;> rfl
  · obtain ⟨t, more, hlex, -, hstarts, hunit⟩ := h o
    refine ⟨t, more, (htokens o).trans hlex, hunit, fun rest kind n hsimple => ?_, ?_⟩
    · rw [name?_of_simple hsimple]
      · rfl
      all_goals
        intros
        intro hkind
        rw [hkind] at hstarts
        simp [startsTag] at hstarts
    · obtain ⟨_, hsimple⟩ := hunit.simple []
      rw [List.append_nil] at hsimple
      exact parensBehind_of_simple hsimple hstarts hunit.paren

/-- A pseudo-class without arguments. -/
theorem yields_of_pseudo {name : String} {spaces : Spaces} (start : Nat)
    (hn : name.toList.head? = some ':') (hb : IsFiller spaces.before.toList)
    (ha : IsFiller spaces.after.toList) :
    Yields (none : Option Name).toList 0 0
      (Tree.leaf (.pseudo name false) spaces start).pieces := by
  refine yields_of_isUnit "" start rfl hb rfl ha fun o => ?_
  obtain ⟨t, more, htokens, -, hunit⟩ := isUnit_pseudoTokens hn o
  obtain ⟨_, cs, o', second, -, hshape, hsecond⟩ := exists_pseudoTokens hn false o
  obtain ⟨rfl, rfl⟩ := List.cons.inj (htokens.symm.trans hshape)
  refine ⟨_, _, htokens, hunit, fun rest kind n hsimple => ?_, ?_⟩
  · rw [name?_of_simple hsimple (by simp) (by simp) (by simp)]
    rfl
  · refine Token.parensBehind_of_none ?_
    rcases hsecond with ⟨rfl, -⟩ | ⟨rfl, -⟩ <;>
      simp [pseudoTokens.word, Token.Kind.opensParen]

theorem yields_of_isSound_leaf {kind : Kind} {spaces : Spaces} (start : Nat) (hleaf : kind.isLeaf)
    (hs : kind.IsSound) (hc : kind ≠ .tag ":" ∧ kind ≠ .tag "::") (hp : kind.IsPaired)
    (hw : ∀ name ∈ kind.name?, name.IsWhole) (hb : IsFiller spaces.before.toList)
    (ha : IsFiller spaces.after.toList) :
    Yields ((kind.name?.map Name.decoded).toList) 0 0 (Tree.leaf kind spaces start).pieces := by
  cases kind with
  | root => cases hs
  | selector => cases hs
  | combinator c text =>
    by_cases hd : c = .descendant
    · subst hd
      exact yields_of_filler start (.inl rfl) hs hb ha
    · exact yields_of_mark hd text start hb ha
  | comment text => exact yields_of_filler start (.inr rfl) hs hb ha
  | pseudo name hasArguments =>
    cases hasArguments with
    | true => cases hleaf
    | false => exact yields_of_pseudo start hs hb ha
  | className name =>
    refine yields_of_isUnit _ start rfl hb rfl (isFiller_splitEnding ha name) fun o =>
      ⟨_, _, rfl, ?_, fun rest kind n hsimple => ?_, ?_⟩
    · exact ⟨rfl, by simp, by simp, rfl, fun _ => rfl, fun _ => ⟨_, rfl⟩⟩
    · cases hsimple
      exact congrArg some (decoded_splitEnding (hw _ rfl) spaces.after)
    · exact Token.parensBehind_of_none (by simp [Token.Kind.opensParen])
  | idName name =>
    refine yields_of_isUnit _ start rfl hb rfl (isFiller_splitEnding ha name) fun o =>
      ⟨_, _, rfl, ?_, fun rest kind n hsimple => ?_, ?_⟩
    · exact ⟨rfl, by simp, by simp, rfl, fun _ => rfl, fun _ => ⟨_, rfl⟩⟩
    · cases hsimple
      have hdecoded := decoded_splitEnding (hw _ rfl) spaces.after
      simpa [Kind.name?, String.append_assoc] using hdecoded
    · exact Token.parensBehind_of_none (by simp [Token.Kind.opensParen])
  | tag text =>
    rcases hs with hs | rfl | rfl
    · exact yields_of_readsAlone start (.inl rfl) hs hb ha
    · exact absurd rfl hc.1
    · exact absurd rfl hc.2
  | «attribute» text =>
    refine yields_of_isUnit "" start rfl hb rfl ha fun o => ?_
    obtain ⟨t, more, hlex, -, hstarts, hunit⟩ := hs o
    have hk : t.kind = .leftBracket := by simpa using hstarts
    refine ⟨t, more, hlex, hunit, fun rest kind n hsimple => ?_, ?_⟩
    · rw [name?_of_simple hsimple (by simp [hk]) (by simp [hk]) (by simp [hk])]
      rfl
    · rw [← hlex, Token.parensBehind_of_map_kind (Token.map_kind_lexFrom o 0 _)]
      exact hp
  | string text => exact yields_of_readsAlone start (.inr rfl) hs hb ha
  | universal | nesting =>
    refine yields_of_isUnit "" start rfl hb rfl ha fun o =>
      ⟨_, _, rfl, ?_, fun rest kind n hsimple => ?_, ?_⟩
    · exact ⟨rfl, by simp, by simp, rfl, fun _ => rfl, fun _ => ⟨_, rfl⟩⟩
    · cases hsimple
      rfl
    · exact Token.parensBehind_of_none (by simp [Token.Kind.opensParen])

/-! ### Trees -/

theorem mem_namesAlong {name : Name} {ts : List Tree} :
    name ∈ namesAlong ts ↔ ∃ t ∈ ts, name ∈ t.names := by
  induction ts with
  | nil => simp [namesAlong]
  | cons t ts ih => simp [namesAlong, ih]

theorem mem_namesAlong_of_mem {name : Name} {a t : Tree} {ts : List Tree} (ha : a ∈ ts)
    (hk : a.kind = .selector) (ht : t ∈ a.children) (hn : name ∈ t.names) :
    name ∈ namesAlong ts := by
  refine mem_namesAlong.mpr ⟨a, ha, ?_⟩
  rw [names_of_not_isLeaf (by rw [hk]; rfl)]
  exact mem_namesAlong.mpr ⟨t, ht, hn⟩

/-- The nodes are printed with their names. -/
theorem yields_each {ts : List Tree}
    (h : ∀ t ∈ ts, Yields (t.names.map Name.decoded) 0 0 t.pieces) :
    Yields ((namesAlong ts).map Name.decoded) 0 0 (piecesEach ts) := by
  induction ts with
  | nil =>
    rw [namesAlong, piecesEach]
    exact .nil
  | cons t ts ih =>
    rw [namesAlong, piecesEach, List.map_append]
    exact (h t List.mem_cons_self).append (ih fun u hu => h u (List.mem_cons_of_mem t hu))

theorem yields_row {a : Tree} (ha : a.IsClosedRow)
    (h : ∀ t ∈ a.children, Yields (t.names.map Name.decoded) 0 0 t.pieces) :
    Yields (a.names.map Name.decoded) 0 0 a.pieces := by
  obtain ⟨⟨hkind, -, hafter, -, -⟩, hbefore, -⟩ := ha
  obtain ⟨kind, ⟨before, after⟩, start, children⟩ := a
  obtain rfl : kind = .selector := hkind
  obtain rfl : after = "" := hafter
  have hall := ((Yields.filler hbefore).append (yields_each h)).append .blank
  rw [List.append_nil, List.nil_append] at hall
  rw [Tree.names, Tree.pieces]
  exact hall

theorem yields_list {ts : List Tree}
    (h : ∀ a ∈ ts, Yields (a.names.map Name.decoded) 0 0 a.pieces) :
    Yields ((namesAlong ts).map Name.decoded) 0 0 (piecesList ts) := by
  have hcomma : Yields [] 0 0 [commaPiece] := .own fun o =>
    .of_separates (by simp [separates]) (by simp)
  have hmore {ts : List Tree} (h : ∀ a ∈ ts, Yields (a.names.map Name.decoded) 0 0 a.pieces) :
      Yields ((namesAlong ts).map Name.decoded) 0 0 (piecesMore ts) := by
    induction ts with
    | nil =>
      rw [namesAlong, piecesMore]
      exact .nil
    | cons a ts ih =>
      rw [namesAlong, piecesMore, List.map_append]
      exact hcomma.append ((h a List.mem_cons_self).append
        (ih fun b hb => h b (List.mem_cons_of_mem a hb)))
  cases ts with
  | nil =>
    rw [namesAlong, piecesList]
    exact .nil
  | cons a ts =>
    rw [namesAlong, piecesList, List.map_append]
    exact (h a List.mem_cons_self).append (hmore fun b hb => h b (List.mem_cons_of_mem a hb))

/-- A pseudo-class with arguments. -/
theorem yields_call {name : String} {spaces : Spaces} (start : Nat) {arguments : List Tree}
    (hn : name.toList.head? = some ':') (hb : IsFiller spaces.before.toList)
    (ha : IsFiller spaces.after.toList)
    (h : ∀ a ∈ arguments, Yields (a.names.map Name.decoded) 0 0 a.pieces) :
    Yields ((namesAlong arguments).map Name.decoded) 0 0
      (Tree.node (.pseudo name true) spaces start arguments).pieces := by
  have hopen : Yields [] 0 1 [.own ((Kind.pseudo name true).tokens "")] := .own fun o => by
    obtain ⟨t, more, htokens, -, -, hopens⟩ := opening?_pseudoTokens hn o
    obtain ⟨_, cs, o', second, -, hshape, hsecond⟩ := exists_pseudoTokens hn true o
    obtain ⟨rfl, rfl⟩ := List.cons.inj (htokens.symm.trans hshape)
    refine ⟨fun rest => ?_, ?_⟩
    · obtain ⟨opener, hopening⟩ := hopens rest
      rw [Kind.tokens, htokens, List.cons_append, namesAmong_of_opening hopening]
      rfl
    · rw [Kind.tokens, htokens]
      rcases hsecond with ⟨rfl, -⟩ | ⟨rfl, -⟩ <;> rfl
  have hclose : Yields [] 1 0 [closePiece] := .own fun o =>
    ⟨fun rest => namesAmong_of_separates rfl rest, rfl⟩
  have hall := ((((Yields.filler hb).append hopen).append ((yields_list h).add 1)).append
    hclose).append (.filler ha)
  simp only [List.append_nil, List.nil_append] at hall
  rw [Tree.pieces]
  simpa using hall

/-- A node with sound texts is printed with its names, if no colon stands alone
in it and all brackets close the parentheses that they open. -/
theorem Tree.IsSound.yields {t : Tree} (h : t.IsSound Tree.IsClosedRow) {d : Nat}
    (hc : ∀ e ∈ t.outline d, (e.2.kind ≠ .tag ":" ∧ e.2.kind ≠ .tag "::") ∧ e.2.kind.IsPaired)
    (hw : ∀ name ∈ t.names, name.IsWhole) (ha : IsFiller t.spaces.after.toList) :
    Yields (t.names.map Name.decoded) 0 0 t.pieces := by
  induction h generalizing d with
  | @leaf kind spaces start hleaf hs hb =>
    have hmem : (d, Tree.leaf kind spaces start) ∈ (Tree.leaf kind spaces start).outline d := by
      rw [Tree.leaf, Tree.outline]
      exact List.mem_cons_self
    obtain ⟨hcolons, hp⟩ := hc _ hmem
    rw [names_leaf hleaf] at hw ⊢
    rw [← Option.toList_map]
    exact yields_of_isSound_leaf start hleaf hs hcolons hp
      (fun name hname => hw name (Option.mem_toList.mpr hname)) hb ha
  | @call name spaces start arguments hn hb hne hrows _ ih =>
    have hnames : (Tree.node (.pseudo name true) spaces start arguments).names =
        namesAlong arguments := names_of_not_isLeaf rfl
    rw [hnames] at hw ⊢
    refine yields_call start hn hb ha fun a harg => yields_row (hrows a harg) fun t ht => ?_
    exact ih a harg t ht
      (fun e he => hc e (mem_outline_of_mem_children harg (mem_outline_of_mem_children ht he)))
      (fun name hname => hw name (mem_namesAlong_of_mem harg (hrows a harg).kind ht hname))
      ((hrows a harg).closed.after t ht)

/-- **A list that prints legibly is read with the names of its nodes**, and all
parentheses in it are in pairs. -/
theorem names_of_isLegible {t : Tree} (h : t.IsSoundList) (hclosed : ∀ a ∈ t.children, a.IsClosed)
    (hl : t.IsLegible) (hp : ∀ e ∈ t.outline 0, e.2.kind.IsPaired)
    (hw : ∀ name ∈ t.names, name.IsWhole) :
    namesIn t.print = t.names.map Name.decoded ∧
      parensBehind 0 (Token.lex t.print) = some 0 := by
  obtain ⟨htokens, hcolons⟩ := hl
  rw [namesIn, htokens]
  refine Yields.tokensOf ?_
  clear htokens
  have hall : ∀ e ∈ t.outline 0,
      (e.2.kind ≠ .tag ":" ∧ e.2.kind ≠ .tag "::") ∧ e.2.kind.IsPaired :=
    fun e he => ⟨hcolons e he, hp e he⟩
  obtain ⟨kind, spaces, start, children⟩ := t
  obtain ⟨rfl, rfl, -, hrows, -, hsound⟩ := h
  have hnames : (Tree.node .root .none start children).names = namesAlong children :=
    names_of_not_isLeaf rfl
  rw [hnames] at hw ⊢
  have hlist : Yields ((namesAlong children).map Name.decoded) 0 0 (piecesList children) := by
    refine yields_list fun a ha => yields_row ⟨hrows a ha, hclosed a ha⟩ fun u hu => ?_
    exact (hsound a ha u hu).yields
      (fun e he => hall e (mem_outline_of_mem_children ha (mem_outline_of_mem_children hu he)))
      (fun name hname => hw name (mem_namesAlong_of_mem ha (hrows a ha).kind hu hname))
      ((hclosed a ha).after u hu)
  have hpieces := (Yields.blank.append hlist).append .blank
  rw [List.append_nil, List.nil_append] at hpieces
  rw [Tree.pieces]
  exact hpieces

end Selector
end StyleScope
