/-
# Where the mark `!important` is split off

What stands behind the colon of a declaration is cut into the value, the mark
`!important` and white space. The reader looks for the mark from the end: it
steps over white space to a word, and over white space again to an exclamation
mark. A comment is not stepped over. So if the last two tokens of meaning are
the mark, it is split off exactly if no comment stands behind its exclamation
mark (`important_split`). Otherwise the value goes on to the end, and its last
word is one like any other to the scoping of animations
(`important_kept_in_value`).

A mark that was split off is never rewritten: where scoping succeeds it keeps the
frames of nodes, and the mark belongs to the frame of its declaration.

Key definitions: `Sheet.EndsInMark`, `Sheet.Declaration.assigned`,
`Sheet.Declaration.mark?`.
Key theorems: `Sheet.EndsInMark.splitImportant_of_blank`,
`Sheet.splitImportant_tokens`, `Scope.important_split`.
-/
import StyleScope.Proofs.CheckedSheet
import StyleScope.Proofs.Excerpts
import StyleScope.Proofs.Outline

namespace StyleScope
namespace Sheet

open Token (Reads isTrivia isWhitespace textOf)

/-! ### Tokens that end in the mark -/

/-- The last two tokens that are neither white space nor comments are `bang` and
`word`, and they are an exclamation mark and the word `important`. -/
structure EndsInMark (ts front : List Token) (bang : Token) (gap : List Token) (word : Token)
    (behind : List Token) : Prop where
  tokens : ts = front ++ bang :: (gap ++ word :: behind)
  bang : bang.kind = .delim '!'
  word : word.kind = .ident ∧ Text.sameWord word.text "important"
  trivia : ∀ t ∈ gap ++ behind, isTrivia t

theorem isWhitespace_of_isTrivia {t : Token} (h : isTrivia t) (hc : ¬ t.kind.isComment) :
    isWhitespace t := by
  unfold isTrivia Token.Kind.isTrivia at h
  split at h
  next hk => exact decide_eq_true hk
  next hk => exact absurd (by rw [hk]; rfl) hc
  next => cases h

theorem isComment_of_isTrivia {t : Token} (h : isTrivia t) (hw : isWhitespace t = false) :
    t.kind.isComment := by
  by_contra hc
  rw [isWhitespace_of_isTrivia h hc] at hw
  cases hw

theorem trimEnd_append_blanks (ts : List Token) {blanks : List Token}
    (hb : ∀ t ∈ blanks, isWhitespace t) : trimEnd (ts ++ blanks) = trimEnd ts := by
  rw [trimEnd, trimEnd, List.reverse_append,
    List.dropWhile_append_of_pos fun t ht => hb t (List.mem_reverse.mp ht)]

theorem trimEnd_concat (ts : List Token) {t : Token} (ht : isWhitespace t = false) :
    trimEnd (ts ++ [t]) = ts ++ [t] :=
  List.rdropWhile_concat_neg _ _ _ (by rw [ht]; exact Bool.false_ne_true)

/-- Behind a comment no mark is looked for. -/
theorem splitImportant_of_isComment (ts : List Token) {t : Token} (ht : t.kind.isComment) :
    splitImportant (ts ++ [t]) = (ts ++ [t], none) := by
  have hk : t.kind ≠ .ident := by
    intro hk
    rw [hk] at ht
    cases ht
  simp [splitImportant, hk]

section Mark

variable {ts front gap behind : List Token} {bang word : Token}

theorem EndsInMark.isWhitespace_bang (h : EndsInMark ts front bang gap word behind) :
    isWhitespace bang = false := by
  simp [isWhitespace, h.bang]

theorem EndsInMark.isWhitespace_word (h : EndsInMark ts front bang gap word behind) :
    isWhitespace word = false := by
  simp [isWhitespace, h.word.1]

theorem EndsInMark.trimEnd_eq (h : EndsInMark ts front bang gap word behind)
    (hb : ∀ t ∈ behind, isWhitespace t) : trimEnd ts = front ++ bang :: gap ++ [word] := by
  have hts : ts = (front ++ bang :: gap ++ [word]) ++ behind := by
    rw [h.tokens]
    simp
  rw [hts, trimEnd_append_blanks _ hb, trimEnd_concat _ h.isWhitespace_word]

/-- Without a comment behind the exclamation mark the mark is split off. -/
theorem EndsInMark.splitImportant_of_blank (h : EndsInMark ts front bang gap word behind)
    (hc : ∀ t ∈ gap ++ behind, ¬ t.kind.isComment) :
    splitImportant (trimEnd ts) =
      (trimEnd front, some (front.rtakeWhile isWhitespace ++ bang :: (gap ++ [word]))) := by
  have hblank : ∀ t ∈ gap ++ behind, isWhitespace t := fun t ht =>
    isWhitespace_of_isTrivia (h.trivia t ht) (hc t ht)
  have hsplit : trimEnd front ++ front.rtakeWhile isWhitespace = front :=
    List.rdropWhile_append_rtakeWhile
  have hmark : (front ++ bang :: gap ++ [word]).drop (trimEnd front).length =
      front.rtakeWhile isWhitespace ++ bang :: (gap ++ [word]) := by
    have hvalue : front ++ bang :: gap ++ [word] =
        trimEnd front ++ (front.rtakeWhile isWhitespace ++ bang :: (gap ++ [word])) := by
      rw [← List.append_assoc (trimEnd front), hsplit]
      simp
    rw [hvalue, List.drop_left]
  rw [h.trimEnd_eq fun t ht => hblank t (List.mem_append_right _ ht),
    splitImportant_pair front h.isWhitespace_bang
      (fun t ht => hblank t (List.mem_append_left _ ht)) word,
    if_pos ⟨⟨h.bang, h.word.1⟩, h.word.2⟩, hmark]

/-- With a comment behind the exclamation mark nothing is split off. -/
theorem EndsInMark.splitImportant_of_comment (h : EndsInMark ts front bang gap word behind)
    (hc : ∃ t ∈ gap ++ behind, t.kind.isComment) :
    splitImportant (trimEnd ts) = (trimEnd ts, none) := by
  rcases trimEnd_cases behind with ⟨-, hb⟩ | ⟨front', c, blanks, rfl, hw, hb, -⟩
  · -- the comment stands in front of the word
    rcases trimEnd_cases gap with ⟨-, hgap⟩ | ⟨front', c, blanks, rfl, hw, hgap, -⟩
    · obtain ⟨t, ht, hcomment⟩ := hc
      have hblank : isWhitespace t := (List.mem_append.mp ht).elim (hgap t) (hb t)
      rw [of_decide_eq_true hblank] at hcomment
      cases hcomment
    · have hcomment : c.kind.isComment := isComment_of_isTrivia (h.trivia c (by simp)) hw
      have hne : c.kind ≠ .delim '!' := by
        intro hk
        rw [hk] at hcomment
        cases hcomment
      have hvalue : trimEnd ts = (front ++ bang :: front') ++ c :: blanks ++ [word] := by
        rw [h.trimEnd_eq hb]
        simp
      rw [hvalue, splitImportant_pair _ hw hgap, if_neg fun hmark => hne hmark.1.1]
  · -- the comment stands behind the word
    have hcomment : c.kind.isComment := isComment_of_isTrivia (h.trivia c (by simp)) hw
    have hts : ts = (front ++ bang :: (gap ++ word :: front') ++ [c]) ++ blanks := by
      rw [h.tokens]
      simp
    rw [hts, trimEnd_append_blanks _ hb, trimEnd_concat _ hw,
      splitImportant_of_isComment _ hcomment]

end Mark

/-! ### What stands behind the colon -/

/-- The tokens inside of the text. -/
def Excerpt.tokens (source : String) (e : Excerpt) : List Token :=
  (Token.lex source).filter e.covers

theorem Excerpt.tokens_of_lex {source : String} {us run vs : List Token}
    (h : Token.lex source = us ++ (run ++ vs)) :
    Excerpt.tokens source ⟨(textOf us).utf8ByteSize, textOf run⟩ = run :=
  filter_covers h

/-- What stands behind the colon: the value, the mark and white space. -/
def Declaration.assigned (d : Declaration) : Excerpt :=
  ⟨d.excerpt.start, d.value ++ d.important.getD "" ++ d.trailing⟩

/-- The mark `!important`. -/
def Declaration.mark? (d : Declaration) : Option Excerpt :=
  d.important.map fun text => ⟨d.excerpt.stop, text⟩

/-- The declaration is made of the tokens of the source behind its colon. -/
def Declaration.StandsIn (source : String) (d : Declaration) : Prop :=
  ∃ custom before t between text tail, Reads (Token.lex source) text tail ∧
    d = declarationOf custom before t between tail ∧ d.excerpt.start = text.utf8ByteSize

theorem standsIn_of_declarationCut {source text before : String} {custom : Bool} {t : Token}
    {rest rest' : List Token} {d : Declaration} (h : Reads (Token.lex source) text (t :: rest))
    (hc : declarationCut custom before t rest = some (.done (.declaration d) rest')) :
    d.StandsIn source := by
  obtain ⟨colon, behind, hd, -, -, hcut⟩ := declarationCut_eq_some hc
  have htrivia := Reads.takeWhile isTrivia rest
  rw [hd] at htrivia
  have hread := (h.trans (Reads.head t rest)).trans
    ((htrivia.trans (Reads.head colon behind)).trans (Reads.takeWhile isWhitespace behind))
  injection hcut with hnode _
  injection hnode with hnode
  refine ⟨custom, before, t, _, _, _, hread, hnode, ?_⟩
  rw [hnode]
  simp only [Declaration.excerpt, declarationOf, Token.start_of_reads h,
    String.utf8ByteSize_append, Nat.add_assoc]

theorem standsIn_of_itemCut {source text before : String} {t : Token} {rest rest' : List Token}
    {d : Declaration} (h : Reads (Token.lex source) text (t :: rest))
    (hc : itemCut before t rest = some (.done (.declaration d) rest')) : d.StandsIn source := by
  unfold itemCut at hc
  split at hc
  · cases hc
  split at hc
  · have hc := Option.some.inj hc
    unfold atRuleCut at hc
    repeat' split at hc
    all_goals cases hc
  · unfold ruleOrDeclarationCut at hc
    repeat' split at hc
    all_goals first | exact standsIn_of_declarationCut h hc | cases hc

def Node.declaration? : Node → Option Declaration
  | .declaration d => some d
  | _ => none

/-- All declarations of the sheet, those in blocks too. -/
def allDeclarations (s : Sheet) : List Declaration :=
  (outlineNodes 0 s.nodes).filterMap fun p => p.2.declaration?

theorem declaration?_node (head : Head) (body : List Node) (after : String) :
    (head.node body after).declaration? = none := by
  cases head <;> rfl

/-- **The declarations of a sheet are made of the tokens of its source.** -/
theorem standsIn_of_mem_allDeclarations {source : String} {s : Sheet}
    (h : (parse source).result = .ok s) {d : Declaration} (hd : d ∈ s.allDeclarations) :
    d.StandsIn source := by
  obtain ⟨items, hp, hitems⟩ := parse_eq_ok.mp h
  obtain ⟨p, hmem, hdecl⟩ := List.mem_filterMap.mp hd
  rw [← (Listing.mk.inj hitems).1] at hmem
  refine (parsed_of_parseItems hp).forall_outline
    (P := fun n => ∀ d, n.declaration? = some d → d.StandsIn source) ?_ ?_ (Reads.nil _) 0 p hmem
    d hdecl
  · intro text before t rest node rest' hitem hcut d hd
    unfold Node.declaration? at hd
    split at hd
    · rw [Option.some.inj hd] at hcut
      exact standsIn_of_itemCut hitem hcut
    · cases hd
  · intro text before t rest head brace body hitem hcut nodes after d hd
    rw [declaration?_node] at hd
    cases hd

/-- The mark is cut off, not lost. -/
theorem splitImportant_append (value : List Token) :
    (splitImportant value).1 ++ (splitImportant value).2.getD [] = value := by
  rcases splitImportant_cases value with hsplit | ⟨front, bang, mark, hvalue, -, hsplit⟩
  · rw [hsplit]
    exact List.append_nil value
  · rw [hsplit]
    have hfront : trimEnd front <+: value :=
      (isPrefix_trimEnd front).trans ⟨bang :: mark, hvalue.symm⟩
    exact List.prefix_iff_eq_append.mp hfront

/-- **The tokens behind the colon are split in the source as the texts are.** -/
theorem splitImportant_tokens {source : String} {d : Declaration} (h : d.StandsIn source) :
    splitImportant (trimEnd (d.assigned.tokens source)) =
      (d.excerpt.tokens source, d.mark?.map (Excerpt.tokens source)) := by
  obtain ⟨custom, before, t, between, text, tail, ⟨us, hlex, rfl⟩, hd, hstart⟩ := h
  obtain ⟨blanks, hfront⟩ := isPrefix_trimEnd (itemFront custom tail)
  have htext := textOf_splitImportant (trimEnd (itemFront custom tail))
  have hcut := splitImportant_append (trimEnd (itemFront custom tail))
  have htrailing : d.trailing =
      textOf ((itemFront custom tail).drop (trimEnd (itemFront custom tail)).length) := by
    rw [hd]
    rfl
  have hvalue : d.value = textOf (splitImportant (trimEnd (itemFront custom tail))).1 := by
    rw [hd]
    rfl
  have hmark : d.important =
      (splitImportant (trimEnd (itemFront custom tail))).2.map textOf := by
    rw [hd]
    rfl
  have hassigned : d.assigned.tokens source = itemFront custom tail := by
    rw [Declaration.assigned, hstart, hvalue, hmark, htext, htrailing,
      Token.textOf_prefix (isPrefix_trimEnd _)]
    rw [← itemFront_append_itemEnd custom tail] at hlex
    exact Excerpt.tokens_of_lex hlex
  rw [hassigned]
  cases hs : splitImportant (trimEnd (itemFront custom tail)) with
  | mk value mark =>
    rw [hs] at hvalue hmark hcut
    have hsource : Token.lex source =
        us ++ (value ++ (mark.getD [] ++ (blanks ++ itemEnd custom tail))) := by
      calc Token.lex source = us ++ (itemFront custom tail ++ itemEnd custom tail) := by
            rw [itemFront_append_itemEnd, hlex]
        _ = us ++ ((value ++ mark.getD []) ++ blanks ++ itemEnd custom tail) := by
            rw [hcut, hfront]
        _ = _ := by simp only [List.append_assoc]
    have hexcerpt : d.excerpt = ⟨(textOf us).utf8ByteSize, textOf value⟩ := by
      rw [← hvalue, ← hstart]
      rfl
    have hstop : d.excerpt.stop = (textOf (us ++ value)).utf8ByteSize := by
      rw [hexcerpt, Excerpt.stop, Token.textOf_append, String.utf8ByteSize_append]
    rw [Declaration.mark?, hmark, hstop, hexcerpt, Excerpt.tokens_of_lex hsource]
    cases mark with
    | none => rfl
    | some mark =>
      rw [Option.getD_some, ← List.append_assoc] at hsource
      simp only [Option.map_some, Excerpt.tokens_of_lex hsource]

/-! ### Marks and frames -/

theorem outlineNodes_eq_flatMap (depth : Nat) (ns : List Node) :
    outlineNodes depth ns = ns.flatMap (Node.outline depth) := by
  induction ns with
  | nil => rfl
  | cons n ns ih => rw [outlineNodes, List.flatMap_cons, ih]

theorem frames_eq_map (ns : List Node) : frames ns = ns.map Node.frame := by
  induction ns with
  | nil => rfl
  | cons n ns ih => rw [frames, List.map_cons, ih]

/-- The outline of frames is that of the nodes. -/
theorem outline_frame (n : Node) (depth : Nat) :
    n.frame.outline depth = (n.outline depth).map fun p => (p.1, p.2.frame) := by
  induction n using Node.induction generalizing depth with
  | rule head body after ih | atBlock head body after ih =>
    rw [Node.frame, Node.outline, Node.outline, List.map_cons, Node.frame,
      outlineNodes_eq_flatMap, outlineNodes_eq_flatMap, frames_eq_map, List.map_flatMap,
      List.flatMap_map]
    exact congrArg _ (List.flatMap_congr fun m hm => ih m hm _)
  | atStatement head semicolon => rfl
  | declaration d => rfl
  | comment c => rfl

theorem outlineNodes_frames (depth : Nat) (ns : List Node) :
    outlineNodes depth (frames ns) = (outlineNodes depth ns).map fun p => (p.1, p.2.frame) := by
  rw [outlineNodes_eq_flatMap, outlineNodes_eq_flatMap, frames_eq_map, List.map_flatMap,
    List.flatMap_map]
  exact List.flatMap_congr fun n _ => outline_frame n depth

/-- The frames of nodes tell which marks there are. -/
theorem marks_of_frames {s out : Sheet} (h : frames out.nodes = frames s.nodes) :
    out.allDeclarations.map Declaration.important =
      s.allDeclarations.map Declaration.important := by
  have hframes : ∀ s : Sheet, s.allDeclarations.map Declaration.important =
      (outlineNodes 0 (frames s.nodes)).filterMap fun p =>
        p.2.declaration?.map Declaration.important := by
    intro s
    rw [allDeclarations, outlineNodes_frames, List.map_filterMap, List.filterMap_map]
    refine List.filterMap_congr fun p _ => ?_
    simp only [Function.comp_apply]
    cases p.2 <;> rfl
  rw [hframes, hframes, h]

end Sheet

namespace Scope

open Sheet (Declaration EndsInMark trimEnd)
open Token (isWhitespace)

/-- **A mark at the end is split off as a whole unless a comment stands behind its
exclamation mark.** Then nothing is split off: the mark is a part of the value.
Scoping, where it succeeds, keeps the marks that were split off. -/
theorem important_split {source : String} {s : Sheet}
    (hs : (Sheet.parse source).result = .ok s) {d : Declaration} (hd : d ∈ s.allDeclarations)
    {front gap behind : List Token} {bang word : Token}
    (hm : EndsInMark (d.assigned.tokens source) front bang gap word behind) :
    ((∀ t ∈ gap ++ behind, ¬ t.kind.isComment) →
      d.excerpt.tokens source = trimEnd front ∧
      ∃ mark, d.mark? = some mark ∧
        mark.tokens source = front.rtakeWhile isWhitespace ++ bang :: (gap ++ [word])) ∧
    ((∃ t ∈ gap ++ behind, t.kind.isComment) →
      d.excerpt.tokens source = trimEnd (d.assigned.tokens source) ∧ d.mark? = none) ∧
    ∀ options out, (process options s).result = .ok out →
      out.allDeclarations.map Declaration.important =
        s.allDeclarations.map Declaration.important := by
  have hsplit := Sheet.splitImportant_tokens (Sheet.standsIn_of_mem_allDeclarations hs hd)
  refine ⟨fun hc => ?_, fun hc => ?_, fun options out hout => ?_⟩
  · rw [hm.splitImportant_of_blank hc] at hsplit
    obtain ⟨hvalue, hmark⟩ := Prod.mk.inj hsplit
    obtain ⟨mark, hsome, htokens⟩ := Option.map_eq_some_iff.mp hmark.symm
    exact ⟨hvalue.symm, mark, hsome, htokens⟩
  · rw [hm.splitImportant_of_comment hc] at hsplit
    obtain ⟨hvalue, hmark⟩ := Prod.mk.inj hsplit
    exact ⟨hvalue.symm, Option.map_eq_none_iff.mp hmark.symm⟩
  · exact Sheet.marks_of_frames (frames_process hout).1

/-- A mark in a nested block, in capital letters, with a comment in front of it
and white space around its exclamation mark and behind it. -/
theorem important_split_nested :
    ∃ source s out, ∃ d : Declaration, ∃ front bang gap word behind,
      source = "@m\x7b.a\x7banimation:fade/**/ !\n IMPORTANT ;\x7d\x7d" ∧
      (Sheet.parse source).result = .ok s ∧ (process .default s).result = .ok out ∧
      d ∈ s.allDeclarations ∧
      EndsInMark (d.assigned.tokens source) front bang gap word behind ∧
      (∀ t ∈ gap ++ behind, ¬ t.kind.isComment) ∧
      d.value = "fade/**/" ∧ d.important = some " !\n IMPORTANT" ∧
      d.excerpt.tokens source = trimEnd front ∧
      (∃ mark, d.mark? = some mark ∧
        mark.tokens source = front.rtakeWhile isWhitespace ++ bang :: (gap ++ [word])) ∧
      out.allDeclarations.map Declaration.important =
        s.allDeclarations.map Declaration.important := by
  let source := "@m\x7b.a\x7banimation:fade/**/ !\n IMPORTANT ;\x7d\x7d"
  let d : Declaration :=
    ⟨"", "animation", ":", "fade/**/", some " !\n IMPORTANT", " ", true, 6⟩
  let front : List Token :=
    [⟨.ident, "fade", 16⟩, ⟨.comment true, "/**/", 20⟩, ⟨.whitespace, " ", 24⟩]
  let bang : Token := ⟨.delim '!', "!", 25⟩
  let gap : List Token := [⟨.whitespace, "\n ", 26⟩]
  let word : Token := ⟨.ident, "IMPORTANT", 28⟩
  let behind : List Token := [⟨.whitespace, " ", 37⟩]
  have hmarked : EndsInMark (d.assigned.tokens source) front bang gap word behind :=
    ⟨by decide +kernel, rfl, by decide +kernel, by decide +kernel⟩
  have hplain : ∀ t ∈ gap ++ behind, ¬ t.kind.isComment := by decide +kernel
  have hok :
      (match (Sheet.parse source).result with
      | .ok s => decide (d ∈ s.allDeclarations) && (process .default s).result.isOk
      | .error _ => false) = true := by
    decide +kernel
  split at hok
  next s hs =>
    obtain ⟨hd, hout⟩ := (Bool.and_eq_true _ _).mp hok
    have hd := of_decide_eq_true hd
    obtain ⟨out, hout, -⟩ := exists_ok_of_isOk (p := fun _ => True) hout fun _ _ => trivial
    obtain ⟨hblank, -, hkept⟩ := important_split hs hd hmarked
    obtain ⟨hvalue, hmark⟩ := hblank hplain
    exact ⟨source, s, out, d, front, bang, gap, word, behind, rfl, hs, hout, hd, hmarked, hplain,
      rfl, rfl, hvalue, hmark, hkept .default out hout⟩
  next => cases hok

/-- A comment behind the mark or in it leaves the mark to the value, where its
word is taken for the name of an animation. -/
theorem important_kept_in_value :
    ∃ source s, ∃ d : Declaration, ∃ front bang gap word behind,
      source = ".a\x7banimation:fade ! important/**/\x7d" ∧
      (Sheet.parse source).result = .ok s ∧ d ∈ s.allDeclarations ∧
      EndsInMark (d.assigned.tokens source) front bang gap word behind ∧
      d.important = none ∧ d.value = "fade ! important/**/" ∧
      (transform .default source).result =
        .ok ":local(.a)\x7banimation::local(fade) ! :local(important)/**/\x7d" := by
  let source := ".a\x7banimation:fade ! important/**/\x7d"
  let d : Declaration := ⟨"", "animation", ":", "fade ! important/**/", none, "", false, 3⟩
  have hmarked : EndsInMark (d.assigned.tokens source)
      [⟨.ident, "fade", 13⟩, ⟨.whitespace, " ", 17⟩] ⟨.delim '!', "!", 18⟩
      [⟨.whitespace, " ", 19⟩] ⟨.ident, "important", 20⟩ [⟨.comment true, "/**/", 29⟩] :=
    ⟨by decide +kernel, rfl, by decide +kernel, by decide +kernel⟩
  have hok :
      (match (Sheet.parse source).result with
      | .ok s => decide (d ∈ s.allDeclarations)
      | .error _ => false) = true := by
    decide +kernel
  split at hok
  next s hs =>
    exact ⟨source, s, d, _, _, _, _, _, rfl, hs, of_decide_eq_true hok, hmarked, rfl, rfl,
      by decide +kernel⟩
  next => cases hok

end Scope
end StyleScope
