/-
# At-rules with resolved preludes

Between the name of an at-rule and its end any text can stand whose tokens close the
brackets that they open, as long as it does not go on with the name
(`exists_readsAlone_atRule`). White space around a prelude comes together with that in
it.

What takes the place of a prelude of `@keyframes` is the prelude under the mark of local
scope, or the argument of `:global(...)` as it is written. That argument has lost its
parentheses, so it must close its own brackets, end in a token that needs no parenthesis
behind it, and white space must stand in front of it (`isSteadyKeyframes`). The lists of
`@scope` get new parentheses, but what stood in front of a limit can be a comment that is
gone then (`IsSteadyScope`).

Key definitions: `Scope.isSteadyKeyframes`, `Scope.IsSteadyScope`.
Key theorems: `Sheet.exists_readsAlone_atRule`, `Scope.readsAlone_of_localizeKeyframes`,
`Scope.readsAlone_of_resolveAtHead`.
-/
import StyleScope.Proofs.EnclosedTexts
import StyleScope.Proofs.ResolvedRules
import StyleScope.Proofs.ScopePreludes

namespace StyleScope

open Text (isSpace)

namespace Sheet

open Token (Found found_append isApart textOf)

section AtRules

variable {depth : Nat} {n : Node} {head : AtHead}

/-- What ends the front of an at-rule shows in its first character. -/
theorem head?_of_endsFront {back : List Token} {z : List Char} (hfound : Found back z)
    (hback : ∀ u ∈ back.head?, u.kind = .semicolon ∨ u.kind = .rightBrace ∨ u.kind = .leftBrace) :
    ∀ c ∈ (textOf back).toList.head?, c = ';' ∨ c = '\x7d' ∨ c = '\x7b' := by
  cases back with
  | nil => simp
  | cons u back =>
    have hchar {c : Char} (hk : u.kind.char? = some c) :
        (textOf (u :: back)).toList.head? = some c := by
      rw [Token.textOf_cons, hfound.1.isSpelled.text_eq hk, String.toList_append,
        String.toList_singleton]
      rfl
    intro c hc
    rcases hback u rfl with hk | hk | hk
    · exact .inl (Option.some.inj (hc.symm.trans (hchar (by rw [hk]; rfl))))
    · exact .inr (.inl (Option.some.inj (hc.symm.trans (hchar (by rw [hk]; rfl)))))
    · exact .inr (.inr (Option.some.inj (hc.symm.trans (hchar (by rw [hk]; rfl)))))

/-- The name of an at-rule is found in front of other text behind the same white space, and
without white space in front of what does not go on with it. -/
theorem precedes_of_afterName {at' : Token} {afterName text : String} {y z : List Char}
    (hat : at'.kind = .atKeyword) (h : at'.Precedes (afterName.toList ++ y))
    (hspace : ∀ c ∈ afterName.toList, isSpace c)
    (hapart : afterName = "" → text.toList.head? = some ':' ∨ text.toList.head? = some '(') :
    at'.Precedes (afterName.toList ++ (text.toList ++ z)) := by
  by_cases hempty : afterName = ""
  · obtain ⟨c, w, htext, hc⟩ : ∃ c w, text.toList = c :: w ∧ (c = ':' ∨ c = '(') := by
      rcases hapart hempty with hc | hc
      · obtain ⟨w, hw⟩ := List.head?_eq_some_iff.mp hc
        exact ⟨_, w, hw, .inl rfl⟩
      · obtain ⟨w, hw⟩ := List.head?_eq_some_iff.mp hc
        exact ⟨_, w, hw, .inr rfl⟩
    rw [hempty, String.toList_empty, List.nil_append, htext]
    refine (h.of_atKeyword hat (fun d hd => ?_) ?_).2
    · obtain rfl : c = d := Option.some.inj hd
      rcases hc with rfl | rfl <;> decide
    · rcases hc with rfl | rfl <;> rfl
  · -- the white space behind the name hides what comes then
    cases hspaces : afterName.toList with
    | nil => exact absurd (String.toList_inj.mp hspaces) hempty
    | cons c w =>
      have hc := hspace c (by rw [hspaces]; exact List.mem_cons_self)
      have hblank := Token.hides_of_isStop (Token.isStop_of_isSpace hc) w
      rw [hspaces] at h
      exact h.yields (hblank _ _).yields

/-- **An at-rule with another text behind its name reads alone**, if the tokens of the
text close the brackets that they open and do not go on with the name. -/
theorem exists_readsAlone_atRule (hn : n.atHead? = some head) (h : n.IsRead depth) :
    (∀ c ∈ head.afterName.toList, isSpace c) ∧ ∃ (gap : String) (z : List Char),
      (∀ c ∈ gap.toList, isSpace c) ∧ z.head?.any isSpace = false ∧ isApart z ∧
      ∀ (params : String) (us : List Token), textOf us = head.afterName ++ (params ++ gap) →
        Found us z → IsLevel us →
        (head.afterName = "" → params.toList.head? = some ':' ∨ params.toList.head? = some '(') →
        ((n.withText params).entry depth).readsAlone := by
  obtain ⟨front, at', blanks, own, gap, back, hsplit, hat, hafter, hblanks, hgap, hback, hcut⟩ :=
    exists_split_atRule hn h
  obtain ⟨hfoundGap, hfoundBack⟩ := found_append.mp hsplit.foundBack
  obtain ⟨hfoundFront, hprecedes, hfoundBlanks⟩ := found_append.mp hsplit.found.1
  have hspace : ∀ c ∈ head.afterName.toList, isSpace c := by
    rw [← hafter]
    exact hfoundBlanks.isSpace_of_whitespace hblanks
  have hends := head?_of_endsFront hfoundBack hback
  refine ⟨hspace, textOf gap, (textOf back).toList, hfoundGap.isSpace_of_whitespace hgap, ?_, ?_,
    fun params us hus hfound hlevel hapart => ?_⟩
  · cases hc : (textOf back).toList.head? with
    | none => rfl
    | some c => rcases hends c hc with rfl | rfl | rfl <;> rfl
  · refine Token.isApart_iff.mpr fun c hc => ?_
    rcases hends c hc with rfl | rfl | rfl <;> decide
  · have hides : Token.Hides at'.text.toList :=
      (hprecedes.of_atKeyword hat (by simp) rfl (z := [])).1
    have hname : at'.Precedes ((textOf us).toList ++ (textOf back).toList) := by
      rw [hafter] at hprecedes
      rw [hus, String.toList_append, String.toList_append, List.append_assoc, List.append_assoc]
      exact precedes_of_afterName hat hprecedes hspace hapart
    have htext : ((n.withText params).entry depth).source =
        textOf (front ++ at' :: (us ++ back)) := by
      rw [hsplit.source]
      simp only [Token.textOf_append, Token.textOf_cons, hus, hafter, String.append_assoc]
    refine readsAlone_of_found htext
      (found_append.mpr ⟨?_, ?_, found_append.mpr ⟨?_, hfoundBack⟩⟩) (hcut us hlevel)
    · have hyields := (hides ((textOf blanks).toList ++ ((textOf own).toList ++
        (textOf (gap ++ back)).toList)) ((textOf us).toList ++ (textOf back).toList)).yields
      rw [Token.textOf_cons, String.toList_append, List.append_assoc] at hfoundFront
      have hfront := hfoundFront.yields hyields
      simpa using hfront
    · simpa using hname
    · simpa using hfound

end AtRules

end Sheet

namespace Scope

open Selector (AreInPlace)
open Sheet (AtHead IsLevel Node isLevel)
open Token (Found isApart lex textOf)

/-! ### White space around a text -/

section Blanks

variable {ks : List Token} {z : List Char}

theorem isLevel_of_isWhitespace {ts : List Token} (h : ∀ u ∈ ts, u.isWhitespace) : IsLevel ts := by
  refine Sheet.isLevel_of_isTrivia fun u hu => ?_
  have hk : u.kind = .whitespace := of_decide_eq_true (h u hu)
  rw [Token.isTrivia, hk]
  rfl

/-- Tokens with white space around them. -/
theorem exists_found_surround {front back : String} (hfront : ∀ c ∈ front.toList, isSpace c)
    (hback : ∀ c ∈ back.toList, isSpace c) (hz : z.head?.any isSpace = false)
    (hks : Found ks (back.toList ++ z)) (hlevel : IsLevel ks)
    (hhead : (textOf ks).toList.head?.any isSpace = false) :
    ∃ us, textOf us = front ++ (textOf ks ++ back) ∧ Found us z ∧ IsLevel us := by
  cases ks with
  | nil =>
    have hall : ∀ c ∈ (front ++ back).toList, isSpace c := by
      rw [String.toList_append]
      exact List.forall_mem_append.mpr ⟨hfront, hback⟩
    obtain ⟨us, hus, hspaces, hfound⟩ := Token.exists_found_blank hall hz
    exact ⟨us, by simpa using hus, hfound, isLevel_of_isWhitespace hspaces⟩
  | cons k ks =>
    obtain ⟨bs, hbs, hbspaces, hbfound⟩ := Token.exists_found_blank hback hz
    have hstart : ((textOf (k :: ks)).toList ++ (back.toList ++ z)).head?.any isSpace = false := by
      obtain ⟨c, w, htext, -⟩ := hks.1
      rw [Token.textOf_cons, String.toList_append, htext] at hhead ⊢
      exact hhead
    obtain ⟨fs, hfs, hfspaces, hffound⟩ := Token.exists_found_blank hfront hstart
    refine ⟨fs ++ (k :: ks ++ bs), by rw [Token.textOf_append, Token.textOf_append, hfs, hbs],
      Token.found_append.mpr ⟨?_, Token.found_append.mpr ⟨?_, hbfound⟩⟩,
      (isLevel_of_isWhitespace hfspaces).append
        (hlevel.append (isLevel_of_isWhitespace hbspaces))⟩
    · rw [Token.textOf_append, hbs, String.toList_append, List.append_assoc]
      exact hffound
    · rw [hbs]
      exact hks

end Blanks

/-! ### Texts that can stand everywhere -/

/-- The text has tokens that close what they open, and they are found in front of
everything. -/
def StandsFree (text : String) : Prop :=
  ∃ us, textOf us = text ∧ IsLevel us ∧ ∀ z, Found us z

namespace StandsFree

variable {x y front back text : String} {z : List Char}

theorem append (h : StandsFree x) (h' : StandsFree y) : StandsFree (x ++ y) := by
  obtain ⟨us, hus, hlevel, hfound⟩ := h
  obtain ⟨vs, hvs, hlevel', hfound'⟩ := h'
  exact ⟨us ++ vs, by rw [Token.textOf_append, hus, hvs], hlevel.append hlevel',
    fun z => Token.found_append.mpr ⟨hfound _, hfound' z⟩⟩

/-- The limit of a prelude, behind the word in front of it. -/
theorem behindTo (h : StandsFree ("(" ++ x)) : StandsFree ("to (" ++ x) := by
  obtain ⟨us, hus, hlevel, hfound⟩ := h
  refine ⟨⟨.ident, "to", 0⟩ :: ⟨.whitespace, " ", 2⟩ :: us, ?_,
    (hlevel.cons fun _ _ => rfl).cons fun _ _ => rfl, fun z => ?_⟩
  · rw [Token.textOf_cons, Token.textOf_cons, hus, ← String.append_assoc, ← String.append_assoc]
    rfl
  · have hto : Found [⟨.ident, "to", 0⟩, ⟨.whitespace, " ", 2⟩] ((textOf us).toList ++ z) := by
      have hlex := Prelude.lexFrom_to 0 (x.toList ++ z)
      rw [← Prelude.lexFrom_leftParen] at hlex
      have hfound := @Token.found_of_lexFrom [⟨.ident, "to", 0⟩, ⟨.whitespace, " ", 2⟩] _ 0 _ hlex
      rw [Token.textOf_lexFrom, String.toList_ofList] at hfound
      rw [hus, String.toList_append]
      exact hfound
    exact Token.found_append.mpr ⟨hto, hfound z⟩

theorem behindBlank {c : Char} {w : List Char} (h : StandsFree x) (hx : x.toList = c :: w)
    (hc : isSpace c = false) : StandsFree (" " ++ x) := by
  obtain ⟨us, hus, hlevel, hfound⟩ := h
  have hblank : ∀ d ∈ " ".toList, isSpace d :=
    List.all_eq_true.mp (rfl : " ".toList.all isSpace = true)
  refine ⟨⟨.whitespace, " ", 0⟩ :: us, by rw [Token.textOf_cons, hus], hlevel.cons fun _ _ => rfl,
    fun z => ⟨Token.precedes_blank hblank (by decide) 0 ?_, hfound z⟩⟩
  rw [hus, hx]
  exact hc

/-- Around the text there can be white space. -/
theorem exists_found (h : StandsFree text) (hhead : text.toList.head?.any isSpace = false)
    (hfront : ∀ c ∈ front.toList, isSpace c) (hback : ∀ c ∈ back.toList, isSpace c)
    (hz : z.head?.any isSpace = false) :
    ∃ us, textOf us = front ++ (text ++ back) ∧ Found us z ∧ IsLevel us := by
  obtain ⟨us, rfl, hlevel, hfound⟩ := h
  exact exists_found_surround hfront hback hz (hfound _) hlevel hhead

end StandsFree

/-! ### Preludes of `@keyframes` -/

/-- Whether the name of the animation can take the place of the prelude. -/
def isSteadyKeyframes (head : AtHead) : Bool :=
  match callBody? .globalScope head.params with
  | some name =>
    head.afterName ≠ "" && isLevel (core (lex name)) &&
      (core (lex name)).getLast?.all Token.isComplete
  | none =>
    (callBody? .localScope head.params).isSome || head.params = "" || isEnclosable head.params

section Keyframes

variable {depth : Nat} {n : Node} {head : AtHead} {mode : Mode} {aliases : List String}
  {params : String} {isGlobal : Bool}

theorem readsAlone_of_params (hn : n.atHead? = some head) (h : n.IsRead depth) :
    ((n.withText head.params).entry depth).readsAlone := by
  rw [Sheet.withText_self (Sheet.parts?_of_atHead? hn)]
  exact h.readsAlone

theorem found_of_isComplete {ts : List Token} {y z : List Char} (h : Found ts y)
    (hlast : ts.getLast?.all Token.isComplete) (ha : isApart z) : Found ts z := by
  rcases List.eq_nil_or_concat ts with rfl | ⟨ts, t, rfl⟩
  · trivial
  · rw [List.concat_eq_append] at h hlast ⊢
    obtain ⟨hides, hprecedes⟩ := (Sheet.last_precedes h).of_isComplete (by simpa using hlast) ha
    exact h.of_last hides hprecedes

theorem head?_textOf_core {ts : List Token} {y : List Char} (h : Found (core ts) y) :
    (textOf (core ts)).toList.head?.any isSpace = false := by
  cases hcore : core ts with
  | nil => rfl
  | cons k ks =>
    rw [hcore] at h
    obtain ⟨c, w, htext, hscan⟩ := h.1
    rw [Token.textOf_cons, String.toList_append, htext]
    refine Bool.eq_false_of_not_eq_true fun hc => ?_
    have hk : k.kind = .whitespace := by
      rw [Token.scan_of_isSpace (c := c) hc] at hscan
      exact (congrArg Token.Lexeme.kind hscan).symm
    -- the first token of the core is no white space
    have hfirst : (ts.dropWhile Token.isWhitespace).head? = some k := by
      obtain ⟨rest, hrest⟩ := List.rdropWhile_prefix Token.isWhitespace
        (l := ts.dropWhile Token.isWhitespace)
      rw [← hrest, show (ts.dropWhile _).rdropWhile _ = k :: ks from hcore]
      rfl
    have hnot := List.head?_dropWhile_not Token.isWhitespace ts
    rw [hfirst] at hnot
    exact Bool.false_ne_true (hnot.symm.trans (decide_eq_true hk))

/-- The name of an animation has tokens of its own between white space. -/
theorem exists_found_name {name front gap : String} {z : List Char}
    (hlevel : isLevel (core (lex name))) (hlast : (core (lex name)).getLast?.all Token.isComplete)
    (hfront : ∀ c ∈ front.toList, isSpace c) (hgap : ∀ c ∈ gap.toList, isSpace c)
    (hz : z.head?.any isSpace = false) (ha : isApart z) :
    ∃ us, textOf us = front ++ (name ++ gap) ∧ Found us z ∧ IsLevel us := by
  obtain ⟨fs, bs, hlex, hfs, hbs⟩ := exists_eq_core (lex name)
  have hall : Found (fs ++ (core (lex name) ++ bs)) [] := by
    rw [← List.append_assoc, ← hlex]
    exact Token.found_of_lexFrom (List.append_nil _).symm
  obtain ⟨hfoundFront, hfoundCore⟩ := Token.found_append.mp hall
  obtain ⟨hcore, hfoundBack⟩ := Token.found_append.mp hfoundCore
  have hspaces : ∀ c ∈ (textOf bs ++ gap).toList, isSpace c := by
    rw [String.toList_append]
    exact List.forall_mem_append.mpr ⟨hfoundBack.isSpace_of_whitespace hbs, hgap⟩
  have hname : name = textOf fs ++ (textOf (core (lex name)) ++ textOf bs) := by
    rw [← Token.textOf_append, ← Token.textOf_append, ← List.append_assoc, ← hlex,
      Token.textOf_lex]
  have hspaces' : ∀ c ∈ (front ++ textOf fs).toList, isSpace c := by
    rw [String.toList_append]
    exact List.forall_mem_append.mpr ⟨hfront, hfoundFront.isSpace_of_whitespace hfs⟩
  obtain ⟨us, hus, hfound⟩ := exists_found_surround hspaces' hspaces hz
    (found_of_isComplete hcore hlast (isApart_blank hspaces ha)) (Sheet.isLevel_of_check hlevel)
    (head?_textOf_core hcore)
  refine ⟨us, ?_, hfound⟩
  rw [hus]
  conv_rhs => rw [hname]
  simp only [String.append_assoc]

/-- **`@keyframes` with a resolved name reads alone**, if the name can take the place of
the prelude. -/
theorem readsAlone_of_localizeKeyframes (hn : n.atHead? = some head) (h : n.IsRead depth)
    (hs : isSteadyKeyframes head)
    (hp : localizeKeyframes mode aliases head.params = .ok ⟨params, isGlobal⟩) :
    ((n.withText params).entry depth).readsAlone := by
  obtain ⟨hafter, gap, z, hgap, hz, ha, hreads⟩ := Sheet.exists_readsAlone_atRule hn h
  unfold localizeKeyframes at hp
  unfold isSteadyKeyframes at hs
  cases hbody : callBody? .globalScope head.params with
  | some name =>
    rw [hbody] at hp hs
    simp only [Bool.and_eq_true, ne_eq, decide_eq_true_eq] at hs
    obtain ⟨⟨hne, hlevel⟩, hlast⟩ := hs
    dsimp only at hp
    split at hp
    · cases hp
    · cases hp
      obtain ⟨us, hus, hfound, hlevel'⟩ := exists_found_name hlevel hlast hafter hgap hz ha
      exact hreads _ us hus hfound hlevel' fun hempty => absurd hempty hne
  | none =>
    rw [hbody] at hp hs
    dsimp only at hp hs
    split at hp
    · cases hp
      exact readsAlone_of_params hn h
    next hlocal =>
      split at hp
      next =>
        cases hp
        exact readsAlone_of_params hn h
      next hsame =>
        cases hp
        have henclosable : isEnclosable head.params := by
          simpa [hlocal, (not_or.mp hsame).1] using hs
        obtain ⟨us, htext, hlevel, hfound⟩ := found_wrapLocal henclosable
        obtain ⟨w, hw⟩ := exists_toList_wrapLocal head.params
        obtain ⟨vs, hvs, hfound', hlevel'⟩ :=
          StandsFree.exists_found ⟨_, htext, hlevel, hfound⟩ (by rw [hw]; rfl) hafter hgap hz
        exact hreads _ vs hvs hfound' hlevel' fun _ => .inl (by rw [hw]; rfl)

end Keyframes

/-! ### Preludes of `@scope` -/

/-- The list keeps its tokens, and its nodes close the brackets that they open. -/
structure IsSteadyText (text : String) : Prop extends KeepsTokens text where
  level : ∀ t ∈ (Selector.parse (Text.trim text)).toOption, ∀ kind ∈ t.kinds, kind.isLevel

instance (text : String) : Decidable (IsSteadyText text) :=
  decidable_of_iff (KeepsTokens text ∧
      ∀ t ∈ (Selector.parse (Text.trim text)).toOption, ∀ kind ∈ t.kinds, kind.isLevel)
    ⟨fun h => ⟨h.1, h.2⟩, fun h => ⟨h.toKeepsTokens, h.level⟩⟩

/-- The lists of the prelude keep their tokens, and only a parenthesis can stand right
behind the name. -/
structure IsSteadyScope (afterName : String) (p : Prelude) : Prop where
  start : ∀ text ∈ p.start, IsSteadyText text
  limit : ∀ text ∈ p.limit, IsSteadyText text
  apart : afterName = "" → p.start.isSome

instance (afterName : String) (p : Prelude) : Decidable (IsSteadyScope afterName p) :=
  decidable_of_iff ((∀ text ∈ p.start, IsSteadyText text) ∧
      (∀ text ∈ p.limit, IsSteadyText text) ∧ (afterName = "" → p.start.isSome))
    ⟨fun h => ⟨h.1, h.2.1, h.2.2⟩, fun h => ⟨h.start, h.limit, h.apart⟩⟩

section Preludes

variable {job : Job} {source : String}

/-- A list of a prelude stands free in its parentheses when it is resolved. -/
theorem standsFree_of_resolvePreludeText {text new : String} (hk : IsSteadyText text)
    (hs : StandsEnclosed (lex source) text) (h : (resolvePreludeText job text).result = .ok new) :
    StandsFree ("(" ++ (new ++ ")")) := by
  obtain ⟨t, out, r, hparse, hresolve, rfl⟩ := exists_of_resolvePreludeText h
  have ht : t ∈ (Selector.parse (Text.trim text)).toOption := by rw [hparse]; rfl
  have hwhole := hk.whole t ht
  have hclosed : ∀ u ∈ lex (Text.trim text), u.kind ≠ .comment false :=
    hk.trims.forall_kind (p := (· ≠ .comment false)) hs.ne_comment
  have hlex : Token.lexFrom 0 ((Text.trim text).toList ++ [')']) = lex (Text.trim text) ++
      [⟨.rightParen, ")", (Text.trim text).utf8ByteSize⟩] := by
    rw [← hk.closed, lex, String.toList_append]
    rfl
  have hplace : AreInPlace t.pieces [')'] :=
    Selector.areInPlace_of_parse hparse hwhole.ordinary hlex
  obtain ⟨us, hus, hfound, hlevel⟩ := exists_found_of_resolve hparse hwhole.toIsDetachable
    (hk.level t ht) hclosed hresolve (show ∀ c ∈ "".toList, isSpace c by simp)
    (Token.precedes_rightParen 0 []) rfl hplace rfl
  rw [String.append_empty] at hus
  rw [trim_print_of_resolve hparse hwhole hresolve]
  refine ⟨⟨.leftParen, "(", 0⟩ :: (us ++ [⟨.rightParen, ")", 0⟩]), ?_, hlevel.enclosed rfl rfl,
    fun z => ⟨⟨'(', [], rfl, rfl⟩, Token.found_append.mpr ⟨?_, Token.precedes_rightParen 0 _,
      trivial⟩⟩⟩
  · rw [Token.textOf_cons, Token.textOf_append, hus]
    rfl
  · simpa using hfound.of_rightParen z

theorem standsFree_of_resolvePreludeText? {text new : Option String}
    (hk : ∀ t ∈ text, IsSteadyText t) (hs : ∀ t ∈ text, StandsEnclosed (lex source) t)
    (h : (resolvePreludeText? job text).result = .ok new) :
    new.isSome = text.isSome ∧ ∀ t ∈ new, StandsFree ("(" ++ (t ++ ")")) := by
  cases text with
  | none =>
    cases h
    exact ⟨rfl, by simp⟩
  | some text =>
    obtain ⟨resolved, hr, h⟩ := Traced.bind_eq_ok.mp h
    cases h
    have hfree := standsFree_of_resolvePreludeText (hk text rfl) (hs text rfl) hr
    exact ⟨rfl, by simpa using hfree⟩

/-- A prelude starts with a parenthesis or the word in front of its limit. -/
theorem head?_print {p : Prelude} (hsome : p.start.isSome ∨ p.limit.isSome) :
    p.print.toList.head? = some (if p.start.isSome then '(' else 't') := by
  obtain ⟨_ | start, _ | limit⟩ := p
  · simp at hsome
  · simp [Prelude.print, String.toList_append, show "to (".toList = ['t', 'o', ' ', '('] from rfl]
  · simp [Prelude.print, String.toList_append, show "(".toList = ['('] from rfl]
  · simp [Prelude.print, String.toList_append, show "(".toList = ['('] from rfl]

/-- A prelude stands free if its lists do in their parentheses. -/
theorem standsFree_print {p : Prelude} (hsome : p.start.isSome ∨ p.limit.isSome)
    (hstart : ∀ t ∈ p.start, StandsFree ("(" ++ (t ++ ")")))
    (hlimit : ∀ t ∈ p.limit, StandsFree ("(" ++ (t ++ ")"))) : StandsFree p.print := by
  obtain ⟨_ | start, _ | limit⟩ := p
  · simp at hsome
  · have hfree := (hlimit limit rfl).behindTo
    simpa only [Prelude.print, String.append_assoc] using hfree
  · have hfree := hstart start rfl
    simpa only [Prelude.print, String.append_assoc] using hfree
  · have hboth := (hstart start rfl).append ((hlimit limit rfl).behindTo.behindBlank
      (by rw [String.toList_append]; rfl) (by decide))
    have hmid : ") to (" = ")" ++ (" " ++ "to (") := rfl
    simpa only [Prelude.print, hmid, String.append_assoc] using hboth

variable {depth : Nat} {n : Node} {head : AtHead} {params : String}

/-- **An at-rule with a resolved prelude reads alone**, if the lists in it can be resolved
where they stand. -/
theorem readsAlone_of_resolveAtHead (hn : n.atHead? = some head) (h : n.IsRead depth)
    (hs : isScope head.name → ∀ p ∈ Prelude.parse? head.params, IsSteadyScope head.afterName p)
    (hp : (resolveAtHead job head).result = .ok { head with params }) :
    ((n.withText params).entry depth).readsAlone := by
  have hsame (hp : head = { head with params }) :
      ((n.withText params).entry depth).readsAlone := by
    obtain rfl : head.params = params := congrArg AtHead.params hp
    exact readsAlone_of_params hn h
  unfold resolveAtHead at hp
  split at hp
  next hscope =>
    cases hparse : Prelude.parse? head.params with
    | none =>
      refine hsame ?_
      rw [resolvePrelude, hparse] at hp
      split at hp <;> exact Except.ok.inj hp
    | some p =>
      have hsteady := hs hscope p hparse
      obtain ⟨henclosed, hsome⟩ := Prelude.standsEnclosed_of_parse? hparse
      obtain ⟨start, limit, hstart, hlimit, hout⟩ := exists_of_resolvePrelude hparse hp
      obtain ⟨hstarts, hfree⟩ := standsFree_of_resolvePreludeText? hsteady.start
        (fun t ht => henclosed t (.inl ht)) hstart
      obtain ⟨hlimits, hfree'⟩ := standsFree_of_resolvePreludeText? hsteady.limit
        (fun t ht => henclosed t (.inr ht)) hlimit
      obtain rfl : params = Prelude.print ⟨start, limit⟩ := congrArg AtHead.params hout
      rw [← hstarts, ← hlimits] at hsome
      obtain ⟨hafter, gap, z, hgap, hz, ha, hreads⟩ := Sheet.exists_readsAlone_atRule hn h
      have hhead := head?_print (p := ⟨start, limit⟩) hsome
      obtain ⟨us, hus, hfound, hlevel⟩ := (standsFree_print (p := ⟨start, limit⟩) hsome hfree
        hfree').exists_found (by rw [hhead]; dsimp only; split <;> rfl) hafter hgap hz
      refine hreads _ us hus hfound hlevel fun hempty => .inr ?_
      rw [hhead, if_pos (hstarts.trans (hsteady.apart hempty))]
  next => exact hsame (Except.ok.inj hp)

end Preludes

end Scope
end StyleScope
