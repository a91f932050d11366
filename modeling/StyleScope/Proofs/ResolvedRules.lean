/-
# Rules with resolved selectors

The tokens of a resolved selector close the brackets that they open, if those of its
nodes do, and they are found in front of the brace of the rule
(`exists_found_of_resolve`). In front of the selector there is nothing that could tell a
rule from another item, so the first character that is left of the selector must
(`isRuleStart`). If nothing is left of it, the white space around it comes together, and
the rule starts with its brace.

Key definitions: `Scope.IsSteadySelector`.
Key theorems: `Scope.exists_found_of_resolve`, `Sheet.exists_readsAlone_rule`,
`Scope.readsAlone_of_resolveText`.
-/
import StyleScope.Proofs.LevelPieces
import StyleScope.Proofs.Passes
import StyleScope.Proofs.ReplacedTexts
import StyleScope.Proofs.ResolvedPieces

namespace StyleScope

open Text (isSpace)

/-! ### What stands in front of a rule -/

namespace Sheet

open Token (Found textOf)

section Fillers

variable {fillers : List Token} {y z : List Char}

theorem isFirm_of_isFiller {t : Token} (h : isFiller t) : t.kind.isFirm := by
  unfold isFiller at h
  split at h
  next hk => rw [hk]; rfl
  next hk => rw [hk]; rfl
  next hk => rw [hk]; rfl
  next hk => rw [hk]; rfl
  next => cases h

theorem last_precedes {ts : List Token} {t : Token} (h : Found (ts ++ [t]) y) : t.Precedes y := by
  obtain ⟨-, ht, -⟩ := Token.found_append.mp h
  simpa using ht

/-- Fillers are found in front of every text, unless white space goes on at their end. -/
theorem found_fillers (hf : ∀ u ∈ fillers, isFiller u) (h : Found fillers y)
    (hz : (∃ u ∈ fillers.getLast?, u.kind = .whitespace) → z.head?.any isSpace = false) :
    Found fillers z := by
  rcases List.eq_nil_or_concat fillers with rfl | ⟨front, last, rfl⟩
  · trivial
  · rw [List.concat_eq_append] at hf h hz ⊢
    have hlast : isFiller last := hf last (by simp)
    have hfirm := isFirm_of_isFiller hlast
    have hprecedes := last_precedes h
    have hkind {k : Token.Kind} (hk : last.kind = k)
        (hnot : isFiller ⟨k, last.text, last.start⟩ = false) : False := by
      rw [isFiller, hk] at hlast
      rw [isFiller] at hnot
      rw [hnot] at hlast
      cases hlast
    refine h.of_last (Token.hides_of_isFirm hprecedes hfirm) (hprecedes.of_isFirm hfirm ?_ ?_ ?_)
    · exact fun hk => (hkind hk rfl).elim
    · exact fun hk => hz ⟨last, by simp, hk⟩
    · exact fun hk => (hkind hk rfl).elim

/-- Fillers with more white space behind them. -/
theorem exists_fillers (hf : ∀ u ∈ fillers, isFiller u) (h : Found fillers y) {blank : String}
    (hblank : ∀ c ∈ blank.toList, isSpace c) (hz : z.head?.any isSpace = false) :
    ∃ us, textOf us = textOf fillers ++ blank ∧ (∀ u ∈ us, isFiller u) ∧ Found us z := by
  by_cases hne : blank = ""
  · exact ⟨fillers, by rw [hne, String.append_empty], hf, found_fillers hf h fun _ => hz⟩
  by_cases hspace : ∃ u ∈ fillers.getLast?, u.kind = .whitespace
  · obtain ⟨last, hlast, hk⟩ := hspace
    obtain ⟨front, rfl⟩ := List.getLast?_eq_some_iff.mp hlast
    have hprecedes := last_precedes h
    have htext : ∀ c ∈ (last.text ++ blank).toList, isSpace c := by
      rw [String.toList_append]
      exact List.forall_mem_append.mpr ⟨hprecedes.isSpace_of_whitespace hk, hblank⟩
    -- the white space at the end goes on
    refine ⟨front ++ [⟨.whitespace, last.text ++ blank, 0⟩], by simp [String.append_assoc],
      List.forall_mem_append.mpr ⟨fun u hu => hf u (List.mem_append_left _ hu), by simp [isFiller]⟩,
      Token.found_append.mpr ⟨?_, Token.precedes_blank htext (by simp [hne]) 0 hz, trivial⟩⟩
    have hfront := (Token.found_append.mp h).1
    have hhides := Token.hides_of_isFirm hprecedes (by rw [hk]; rfl)
    have hyields := (hhides y (blank.toList ++ z)).yields
    simp only [Token.textOf_cons, Token.textOf_nil, String.append_empty, String.toList_append,
      List.append_assoc] at hfront ⊢
    exact hfront.yields hyields
  · refine ⟨fillers ++ [⟨.whitespace, blank, 0⟩], by simp,
      List.forall_mem_append.mpr ⟨hf, by simp [isFiller]⟩, Token.found_append.mpr
        ⟨found_fillers hf h fun hlast => absurd hlast hspace,
          Token.precedes_blank hblank hne 0 hz, trivial⟩⟩

end Fillers

/-- The characters that a selector can start with where a rule is read. -/
def isRuleStart (c : Char) : Bool :=
  !isSpace c && c ∉ ['/', '@', '<', '-', ';', '\x7d']

/-- Tokens whose text starts with such a character start a rule. -/
theorem startsRule_of_isRuleStart {us vs : List Token} {z : List Char} (h : Found us z)
    (hstart : ∃ c ∈ (textOf us).toList.head?, isRuleStart c) : StartsRule (us ++ vs) := by
  obtain ⟨c, hc, hstart⟩ := hstart
  cases us with
  | nil => cases hc
  | cons u us =>
    obtain ⟨d, w, htext, hscan⟩ := id h.1
    rw [Token.textOf_cons, String.toList_append, htext] at hc
    obtain rfl : d = c := Option.some.inj hc
    have hhead : u.text.toList.head? = some d := by rw [htext]; rfl
    have hne {e : Char} (he : isRuleStart e = false) : u.text.toList.head? ≠ some e := by
      rw [hhead]
      rintro ⟨⟩
      rw [hstart] at he
      cases he
    have hchar {e : Char} (hk : u.kind.char? = some e) : u.text.toList.head? = some e := by
      rw [h.1.isSpelled.text_eq hk, String.toList_singleton]
      rfl
    refine ⟨u, us ++ vs, rfl, ?_, ?_, ?_, ?_, ?_⟩
    · by_contra hfiller
      rw [Bool.not_eq_false, isFiller] at hfiller
      split at hfiller
      next hk =>
        have hspace := (Token.cut_of_scan_whitespace (hk ▸ hscan)).1
        rw [isRuleStart, hspace] at hstart
        cases hstart
      next hk => exact hne (e := ';') rfl (hchar (by rw [hk]; rfl))
      next hk =>
        rcases (h.1.of_mark (.inl hk)).1 with hmark | hmark
        · exact hne (e := '<') rfl (by rw [hmark]; rfl)
        · exact hne (e := '-') rfl (by rw [hmark]; rfl)
      next hk =>
        rcases (h.1.of_mark (.inr hk)).1 with hmark | hmark
        · exact hne (e := '<') rfl (by rw [hmark]; rfl)
        · exact hne (e := '-') rfl (by rw [hmark]; rfl)
      next => cases hfiller
    · exact fun hk => hne (e := '\x7d') rfl (hchar (by rw [hk]; rfl))
    · cases hk : u.kind with
      | comment terminated => exact absurd (h.1.head_of_comment hk) (hne rfl)
      | _ => rfl
    · exact fun hk => hne (e := '@') rfl (by rw [h.1.isSpelled.text_of_atKeyword hk]; simp)
    · by_contra hcustom
      rw [Bool.not_eq_false, List.cons_append, startsCustomProperty, Bool.and_eq_true,
        Bool.and_eq_true, htext] at hcustom
      have hdash : '-' = d := by
        have hprefix := hcustom.1.2
        rw [List.isPrefixOf, Bool.and_eq_true, beq_iff_eq] at hprefix
        exact hprefix.1
      exact hne (e := '-') rfl (hdash ▸ hhead)

section Rules

variable {depth : Nat} {head : RuleHead} {body : List Node} {after : String}

/-- **A rule with another selector reads alone**, if its tokens close the brackets that they
open and start like a selector, or if there is none. The selector that was read has the
tokens that it has by itself, unless it breaks off there. -/
theorem exists_readsAlone_rule (hn : (Node.rule head body after).IsRead depth) :
    ∃ blank : String, (∀ c ∈ blank.toList, isSpace c) ∧
      ((∀ u ∈ Token.lex head.selector, u.kind ≠ .string false) →
        Found (Token.lex head.selector) (blank.toList ++ ['\x7b'])) ∧
      ∀ (selector : String) (us : List Token), textOf us = selector ++ blank →
        Found us ['\x7b'] → IsLevel us →
        (selector = "" ∨ ∃ c ∈ (textOf us).toList.head?, isRuleStart c) →
        (((Node.rule head body after).withText selector).entry depth).readsAlone := by
  obtain ⟨fillers, own, blanks, brace, hsplit, hfillers, hblanks, hbrace⟩ := exists_split_rule hn
  obtain ⟨hfoundFillers, -⟩ := hsplit.found
  obtain ⟨hfoundBlanks, hprecedes, -⟩ := Token.found_append.mp hsplit.foundBack
  have hbraceText : brace.text.toList = ['\x7b'] := by
    rw [hprecedes.isSpelled.text_eq (c := '\x7b') (by rw [hbrace]; rfl), String.toList_singleton]
  have hfoundBrace : Found [brace] [] := ⟨hprecedes, trivial⟩
  have hblank := hfoundBlanks.isSpace_of_whitespace hblanks
  refine ⟨textOf blanks, hblank, fun hwhole => ?_, fun selector us hus hfound hlevel hstart => ?_⟩
  · have hown : textOf own = head.selector :=
      (congrArg Prod.snd (Option.some.inj hsplit.parts)).symm
    rw [← hbraceText]
    simpa using (hsplit.found_lex hown hwhole).2
  · have hsource : (((Node.rule head body after).withText selector).entry depth).source =
        textOf fillers ++ (textOf us ++ textOf [brace]) := by
      rw [hsplit.source, Token.textOf_append, hus]
      simp only [String.append_assoc]
    rcases hstart with rfl | hstart
    · -- the white space in front of the brace comes to stand behind the fillers
      have hz : ['\x7b'].head?.any isSpace = false := rfl
      obtain ⟨vs, hvs, hvsFillers, hfoundVs⟩ := exists_fillers hfillers hfoundFillers hblank hz
      have htext : (((Node.rule head body after).withText "").entry depth).source =
          textOf (vs ++ ([] ++ [brace])) := by
        rw [hsource, hus, String.empty_append, ← String.append_assoc, ← hvs]
        simp
      refine readsAlone_of_found htext (Token.found_append.mpr ⟨?_, hfoundBrace⟩)
        (cutsTo_rule hvsFillers .nil hbrace ?_)
      · simpa [hbraceText] using hfoundVs
      · exact ⟨brace, [], rfl, by rw [isFiller, hbrace], by simp [hbrace], by rw [hbrace]; rfl,
          by simp [hbrace], by simp [startsCustomProperty, hbrace]⟩
    · have hfront : Found fillers ((textOf us).toList ++ ['\x7b']) := by
        refine found_fillers hfillers hfoundFillers fun _ => ?_
        obtain ⟨c, hc, hstart⟩ := hstart
        rw [List.head?_append, hc]
        simpa [isRuleStart] using ((Bool.and_eq_true _ _).mp hstart).1
      have htext : (((Node.rule head body after).withText selector).entry depth).source =
          textOf (fillers ++ (us ++ [brace])) := by
        rw [hsource, Token.textOf_append, Token.textOf_append]
      refine readsAlone_of_found htext
        (Token.found_append.mpr ⟨?_, Token.found_append.mpr ⟨?_, hfoundBrace⟩⟩)
        (cutsTo_rule hfillers hlevel hbrace (startsRule_of_isRuleStart hfound hstart))
      · simpa [hbraceText] using hfront
      · simpa [hbraceText] using hfound

end Rules

end Sheet

namespace Scope

open Selector (AreInPlace Tree)
open Sheet (IsLevel Node RuleHead isRuleStart)
open Token (Found isApart lex textOf)

/-! ### The tokens of a resolved list -/

section Lists

variable {ctx : Context} {isGlobal : Bool} {source : String} {t out : Tree} {r : Resolution}

/-- **A resolved list has tokens that close what they open**, in front of a token that
the list that was read is in place in front of. -/
theorem exists_found_of_resolve (hp : Selector.parse source = .ok t) (hd : IsDetachable t)
    (hk : ∀ kind ∈ t.kinds, kind.isLevel) (hl : ∀ u ∈ lex source, u.kind ≠ .comment false)
    (h : (resolve ctx isGlobal t).result = .ok (out, r)) {blank : String}
    (hblank : ∀ c ∈ blank.toList, isSpace c) {next : Token} (hnext : next.Precedes [])
    (htrivia : next.isTrivia = false)
    (hz : AreInPlace t.pieces (blank.toList ++ next.text.toList))
    (ha : isApart (blank.toList ++ next.text.toList)) :
    ∃ us, textOf us = out.print ++ blank ∧ Found us next.text.toList ∧ IsLevel us := by
  let own (o : Nat) : List Token := [⟨next.kind, next.text, o⟩]
  have hclosed := isClosed_of_resolve hp ⟨0, source.toList, rfl, fun _ u hu => hl u hu⟩ h
  have hlevel : ∀ kind ∈ out.kinds, kind.isLevel :=
    forall_kinds_of_resolve h rfl rfl (fun _ => rfl) rfl hk
  have hown : (textOf (own 0)).toList = next.text.toList := by simp [own]
  have hplace : AreInPlace (out.pieces ++ [.filler blank] ++ [.own own]) [] := by
    rw [List.append_assoc, Selector.areInPlace_append]
    refine ⟨?_, Selector.Stands.single htrivia hnext, trivial⟩
    have hchars : Selector.charsOf ([.filler blank] ++ [.own own]) ++ [] =
        blank.toList ++ next.text.toList := by
      simp [Selector.Piece.text, hown]
    rw [hchars]
    exact areInPlace_of_resolve hp hd h hz ha
  have hfilled : Selector.AreFilled [] (out.pieces ++ [.filler blank] ++ [.own own]) := by
    rw [List.append_assoc]
    refine (isSoundList_of_resolve hp h).fills [] _ .nil fun rest hrest => ⟨?_, trivial⟩
    exact (hrest hclosed).append (Token.isFiller_of_all_isSpace hblank)
  obtain ⟨us, n, htokens, hus⟩ := Selector.isLevel_of_areLevel
    ((Selector.areLevel_pieces out hlevel).append (.filler blank)) hfilled
  have hlex := Selector.tokensOf_of_areInPlace "" hplace hfilled 0
  rw [htokens] at hlex
  have htext := congrArg textOf hlex
  have hchars : Selector.charsOf (out.pieces ++ [.filler blank] ++ [.own own]) =
      (out.print ++ blank ++ next.text).toList := by
    simp [Selector.charsOf_pieces, Selector.Piece.text, hown]
  have hself : textOf (own n) = next.text := by simp [own]
  refine ⟨us, ?_, ?_, hus⟩
  · rw [Token.textOf_append, hself, hchars, Token.textOf_lexFrom, String.toList_empty,
      List.nil_append, String.ofList_toList, ← String.toList_inj, String.toList_append,
      String.toList_append] at htext
    exact String.toList_inj.mp (List.append_cancel_right htext)
  · rw [← hself]
    exact Token.found_of_lexFrom hlex.symm

end Lists

theorem isApart_blank {blank z : List Char} (hblank : ∀ c ∈ blank, isSpace c) (hz : isApart z) :
    isApart (blank ++ z) := by
  refine Token.isApart_append (Token.isApart_iff.mpr fun c hc => ?_) hz
  have hspace := hblank c (List.mem_of_mem_head? hc)
  refine ⟨isName_of_isSpace hspace, ?_, ?_⟩ <;> rintro rfl <;> cases hspace

/-! ### Rules -/

/-- The list comes apart, its nodes close the brackets that they open, and what it
leaves without its keywords starts like a selector, unless that is nothing. -/
structure IsSteadyList (t : Tree) : Prop extends IsDetachable t where
  level : ∀ kind ∈ t.kinds, kind.isLevel
  starts : (remains t).print.toList.head?.all isRuleStart

instance (t : Tree) : Decidable (IsSteadyList t) :=
  decidable_of_iff (IsDetachable t ∧ (∀ kind ∈ t.kinds, kind.isLevel) ∧
      (remains t).print.toList.head?.all isRuleStart)
    ⟨fun h => ⟨h.1, h.2.1, h.2.2⟩, fun h => ⟨h.toIsDetachable, h.level, h.starts⟩⟩

/-- No string and no comment breaks off in the selector, and the list in it can be
resolved where it stands. -/
structure IsSteadySelector (selector : String) : Prop where
  whole : ∀ u ∈ lex selector, u.kind ≠ .string false ∧ u.kind ≠ .comment false
  list : ∀ t ∈ (Selector.parse selector).toOption, IsSteadyList t

instance (selector : String) : Decidable (IsSteadySelector selector) :=
  decidable_of_iff ((∀ u ∈ lex selector, u.kind ≠ .string false ∧ u.kind ≠ .comment false) ∧
      ∀ t ∈ (Selector.parse selector).toOption, IsSteadyList t)
    ⟨fun h => ⟨h.1, h.2⟩, fun h => ⟨h.whole, h.list⟩⟩

section Rules

variable {job : Job} {parentIsPure : Bool} {impure : Error} {head : RuleHead}
  {body : List Node} {after selector : String} {r : Resolution} {depth : Nat}

/-- **A rule with a resolved selector reads alone**, if its selector could be resolved
where it stands. -/
theorem readsAlone_of_resolveText (hn : (Node.rule head body after).IsRead depth)
    (hs : IsSteadySelector head.selector)
    (h : (resolveText job parentIsPure head.selector impure).result = .ok (selector, r)) :
    ((Node.rule { head with selector } body after).entry depth).readsAlone := by
  obtain ⟨t, out, hparse, hresolve, rfl⟩ := exists_of_resolveText h
  have ht : IsSteadyList t := hs.list t (by rw [hparse]; rfl)
  obtain ⟨blank, hblank, hself, hreads⟩ := Sheet.exists_readsAlone_rule hn
  have hplace : AreInPlace t.pieces (blank.toList ++ ['\x7b']) := by
    obtain ⟨vs, hvs⟩ := Token.exists_lexFrom_append (hself fun u hu => (hs.whole u hu).1)
    exact Selector.areInPlace_of_parse hparse ht.ordinary hvs
  have hbrace : (⟨.leftBrace, "\x7b", 0⟩ : Token).Precedes [] := ⟨'\x7b', [], rfl, rfl⟩
  obtain ⟨us, hus, hfound, hlevel⟩ := exists_found_of_resolve hparse ht.toIsDetachable ht.level
    (fun u hu => (hs.whole u hu).2) hresolve hblank hbrace rfl hplace
    (isApart_blank hblank (by decide))
  refine hreads out.print us hus hfound hlevel ?_
  cases hprint : out.print.toList with
  | nil => exact .inl (String.toList_inj.mp hprint)
  | cons c cs =>
    refine .inr ⟨c, by rw [hus, String.toList_append, hprint]; rfl, ?_⟩
    rcases (keepsEnds_of_resolve hparse ht.toIsDetachable hresolve).head with hhead | hcolon
    · have hstarts := ht.starts
      rw [← hhead, hprint] at hstarts
      exact hstarts
    · rw [hprint] at hcolon
      rw [Option.some.inj hcolon]
      rfl

end Rules

end Scope
end StyleScope
