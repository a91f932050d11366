/-
# One animation name in three places

The prelude of `@keyframes`, a list of animation names and the `animation`
shorthand each have their own idea of a name. A text that the lexer reads as
one identifier is a name for the first two, whatever escapes it has.

The shorthand checks the spelling itself and goes on behind an escape as if
there were only the backslash and one character. The digits of a hex escape
pass for name characters, but the white space that may end it does not. So the
shorthand takes an identifier for a name exactly if no escape in it ends in
white space (`isIdentifier_of_isName`); otherwise the name of the animation
and the name of its keyframes part (`animation_name_left`).

Key definitions: `Token.IsName`, `Token.hasTerminator`.
Key theorems: `Scope.isIdentifier_of_isName`, `Scope.animation_name_agrees`.
-/
import StyleScope.Proofs.Cutting
import StyleScope.Scope.Process

namespace StyleScope

open Text

namespace Token

/-- The characters are a name from end to end. -/
structure IsName (cs : List Char) : Prop where
  starts : startsName cs
  length : nameLength cs = cs.length

/-- Whether an escape among the characters ends in the white space that closes
it. An escaped white space character does not count. -/
def hasTerminator : List Char → Bool
  | [] => false
  | c :: cs =>
    if c = '\\' then
      ((cs.take (escapeLength cs)).drop 1).any isSpace ||
        hasTerminator (cs.drop (escapeLength cs))
    else hasTerminator cs
termination_by cs => cs.length
decreasing_by all_goals simp only [List.length_cons, List.length_drop]; omega

/-! ### Identifiers -/

/-- A name with no parenthesis behind it is an identifier, and a parenthesis
makes something else of it. -/
theorem length_nameBefore_of_ident {isUrl : Bool} {n : Nat} {cs : List Char}
    (h : (nameBefore isUrl n cs).kind = .ident) : (nameBefore isUrl n cs).length = n := by
  cases cs with
  | nil => rfl
  | cons c rest =>
    rw [nameBefore] at h ⊢
    by_cases hc : c = '('
    · rw [if_pos hc] at h
      repeat' split at h
      · cases h
      · rw [Lexeme.kind_extend] at h
        rcases scanUrl_ends (rest.drop (runLength isSpace rest)) with hbad | ⟨terminated, body, hk, -⟩
        · rw [hbad] at h; cases h
        · rw [hk] at h; cases h
      · cases h
    · rw [if_neg hc]

theorem Finds.of_ident {c : Char} {cs : List Char} {l : Lexeme} (h : Finds c cs l)
    (hk : l.kind = .ident) : startsName (c :: cs) ∧ l.length = nameLength (c :: cs) := by
  cases h with
  | named hs =>
    rw [scanNamed_eq] at hk ⊢
    exact ⟨hs, length_nameBefore_of_ident hk⟩
  | comment =>
    have := isComment_scanComment cs.tail
    rw [Lexeme.kind_extend] at hk
    rw [hk] at this
    cases this
  | string =>
    rw [Lexeme.kind_extend] at hk
    rcases scanString_ends c cs with hbad | ⟨terminated, body, hk', -⟩
    · rw [hbad] at hk; cases hk
    · rw [hk'] at hk; cases hk
  | number =>
    have := isNumeric_scanNumber (c :: cs)
    rw [hk] at this
    cases this
  | single =>
    have := char?_punctuation c
    rw [show (punctuation? c).getD (.delim c) = .ident from hk] at this
    cases this
  | _ => cases hk

/-- A text that is one identifier is a name. -/
theorem isName_of_lex {source : String} {t : Token} (h : lex source = [t])
    (hk : t.kind = .ident) : IsName source.toList := by
  obtain ⟨c, w, z, hcs, hlength, ht, hrest⟩ := exists_of_lexFrom_eq_cons h
  cases z with
  | cons d ds => rw [lexFrom] at hrest; cases hrest
  | nil =>
    rw [List.append_nil] at hcs hlength ht
    rw [ht] at hk
    obtain ⟨hs, hl⟩ := (finds_scan c w).of_ident hk
    rw [hcs]
    exact ⟨hs, hl.symm.trans hlength⟩

end Token

namespace Scope

open Sheet (AtHead Declaration)
open Token (IsName escapeLength escapes hasTerminator hexTailLength nameLength startsName)
open Value (Node)

/-! ### What the shorthand takes for an identifier -/

theorem isName_of_isHexDigit {c : Char} (h : isHexDigit c) : isName c := by
  simp only [isHexDigit, isLetter, isName, isNameStart, Bool.or_eq_true, Bool.and_eq_true,
    decide_eq_true_eq] at h ⊢
  rcases h with (h | h) | h
  · exact .inl (.inr h)
  · exact .inl (.inl (.inl (.inl (.inl ⟨h.1, Char.le_trans h.2 (by decide)⟩))))
  · exact .inl (.inl (.inl (.inl (.inr ⟨h.1, Char.le_trans h.2 (by decide)⟩))))

theorem ne_backslash_of_isName {c : Char} (h : isName c) : c ≠ '\\' := by
  rintro rfl
  exact absurd h (by decide)

theorem isName_of_isSpace {c : Char} (h : isSpace c) : isName c = false := by
  simp only [isSpace, Bool.or_eq_true, decide_eq_true_eq] at h
  obtain (((h | h) | h) | h) | h := h <;> subst h <;> decide

theorem continuesIdentifier_cons {c : Char} (cs : List Char) (h : c ≠ '\\') :
    continuesIdentifier (c :: cs) = (isName c && continuesIdentifier cs) := by
  rw [continuesIdentifier.eq_def]
  exact if_neg h

theorem continuesIdentifier_escape (d : Char) (cs : List Char) :
    continuesIdentifier ('\\' :: d :: cs) = (!isNewline d && continuesIdentifier cs) := by
  rw [continuesIdentifier.eq_def]
  exact if_pos rfl

/-- The digits of an escape pass for name characters, the white space that ends
it does not. -/
theorem continuesIdentifier_hexTail (n : Nat) (cs : List Char) :
    continuesIdentifier cs =
      (!(cs.take (hexTailLength n cs)).any isSpace &&
        continuesIdentifier (cs.drop (hexTailLength n cs))) := by
  have hspace {c : Char} (cs : List Char) (h : isSpace c) :
      continuesIdentifier (c :: cs) = false := by
    have hn := isName_of_isSpace h
    have hb : c ≠ '\\' := by
      rintro rfl
      exact absurd h (by decide)
    rw [continuesIdentifier_cons cs hb, hn, Bool.false_and]
  fun_induction hexTailLength n cs with
  | case1 => rfl
  | case2 c cs h => simp [h, hspace cs h]
  | case3 c cs h => simp
  | case4 n c cs h ih =>
    have hn := isName_of_isHexDigit h
    have hs : isSpace c = false := by
      by_contra hs
      rw [isName_of_isSpace (by simpa using hs)] at hn
      cases hn
    rw [continuesIdentifier_cons cs (ne_backslash_of_isName hn), hn, Bool.true_and, ih,
      Nat.add_comm, List.take_succ_cons, List.drop_succ_cons, List.any_cons, hs, Bool.false_or]
  | case5 n c cs _ h => simp [h, hspace cs h]
  | case6 n c cs _ h => simp

/-- Of a name the shorthand reads on past all but the end of an escape. -/
theorem continuesIdentifier_of_length {cs : List Char} (h : nameLength cs = cs.length) :
    continuesIdentifier cs = !hasTerminator cs := by
  fun_induction nameLength cs with
  | case1 => rw [continuesIdentifier, hasTerminator, Bool.not_false]
  | case2 c cs hn ih =>
    have hb := ne_backslash_of_isName hn
    rw [continuesIdentifier_cons cs hb, hn, Bool.true_and, hasTerminator, if_neg hb]
    exact ih (by
      rw [List.length_cons] at h
      omega)
  | case3 c cs hn hc ih =>
    simp only [Bool.and_eq_true, decide_eq_true_eq] at hc
    obtain ⟨rfl, he⟩ := hc
    have hle := Token.escapeLength_le cs
    rw [hasTerminator, if_pos rfl, Bool.not_or, ← ih (by
      rw [List.length_cons] at h
      rw [List.length_drop]
      omega)]
    cases cs with
    | nil => cases he
    | cons d ds =>
      have hd : isNewline d = false := by simpa [escapes] using he
      rw [continuesIdentifier_escape, hd, Bool.not_false, Bool.true_and, escapeLength]
      split
      · rw [continuesIdentifier_hexTail 5 ds, Nat.add_comm, List.take_succ_cons,
          List.drop_succ_cons, List.drop_succ_cons, List.drop_zero]
      · simp
  | case4 c cs hn hc => simp at h

/-- What goes on as an identifier behind its beginning does so from there. -/
theorem continuesIdentifier_of_body {cs : List Char} (h : isIdentifierBody cs) :
    continuesIdentifier cs := by
  cases cs with
  | nil => cases h
  | cons c cs =>
    rw [isIdentifierBody] at h
    by_cases hc : c = '-'
    · rw [if_pos hc, Bool.and_eq_true] at h
      rw [hc, continuesIdentifier_cons cs (by decide), h.2]
      rfl
    · by_cases hb : c = '\\'
      · rwa [if_neg hc, if_pos hb] at h
      · rw [if_neg hc, if_neg hb, Bool.and_eq_true] at h
        rw [continuesIdentifier_cons cs hb, isName, h.1, h.2]
        rfl

theorem isNameStart_of_isDigit {c : Char} (h : isDigit c) : isNameStart c = false := by
  by_contra hn
  simp only [isDigit, isNameStart, isLetter, isAscii, Char.toNat, Bool.not_eq_false,
    Bool.or_eq_true, Bool.and_eq_true, Bool.not_eq_true', decide_eq_true_eq,
    decide_eq_false_iff_not, Char.le_def, UInt32.le_iff_toNat_le] at h hn
  rcases hn with (((hn | hn) | rfl) | hn)
  · have := h.2.trans (show '9'.val.toNat ≤ 96 by decide)
    have := (show 97 ≤ 'a'.val.toNat by decide).trans hn.1
    omega
  · have := h.2.trans (show '9'.val.toNat ≤ 64 by decide)
    have := (show 65 ≤ 'A'.val.toNat by decide).trans hn.1
    omega
  · exact absurd h.2 (by decide)
  · exact hn (h.2.trans_lt (by decide))

/-- No digit follows the hyphen at the beginning of a name. -/
theorem head?_of_continuesHyphen {cs : List Char} (h : Token.continuesHyphen cs) :
    cs.head?.any isDigit = false := by
  cases cs with
  | nil => cases h
  | cons c cs =>
    rw [List.head?_cons, Option.any_some]
    by_contra hd
    rw [Bool.not_eq_false] at hd
    simp only [Token.continuesHyphen, isNameStart_of_isDigit hd, Bool.false_or, Bool.or_eq_true,
      Bool.and_eq_true, decide_eq_true_eq] at h
    rcases h with rfl | ⟨rfl, -⟩ <;> exact absurd hd (by decide)

/-- The shorthand asks as much of the beginning of a name as the lexer does. -/
theorem isIdentifier_of_startsName {word : String} (h : startsName word.toList) :
    isIdentifier word = continuesIdentifier word.toList := by
  rw [isIdentifier]
  cases hw : word.toList with
  | nil => rw [hw] at h; cases h
  | cons c cs =>
    rw [hw, startsName] at h
    simp only
    by_cases hc : c = '-'
    · rw [if_pos hc] at h
      have hbody : isIdentifierBody cs → continuesIdentifier cs := continuesIdentifier_of_body
      have hcons := continuesIdentifier_cons cs (by decide : '-' ≠ '\\')
      have hhead : isIdentifierBody ('-' :: cs) = continuesIdentifier cs := by
        rw [isIdentifierBody, if_pos rfl, head?_of_continuesHyphen h, Bool.not_false,
          Bool.true_and]
      rw [hc, hcons, hhead]
      cases hcs : continuesIdentifier cs
      · simpa [hcs] using hbody
      · rfl
    · by_cases hb : c = '\\'
      · simp [isIdentifierBody, hb]
      · rw [if_neg hc, if_neg hb] at h
        simp [isIdentifierBody, isName, hc, hb, h, continuesIdentifier_cons]

/-- **Of the identifiers the shorthand takes for names those in which no escape
ends in white space.** -/
theorem isIdentifier_of_isName {word : String} (h : IsName word.toList) :
    isIdentifier word = !hasTerminator word.toList := by
  rw [isIdentifier_of_startsName h.starts, continuesIdentifier_of_length h.length]

/-! ### The prelude of `@keyframes` -/

/-- The blank characters in front of a name are part of it, and no colon is. -/
theorem head?_dropWhile_of_length {cs : List Char} (h : nameLength cs = cs.length) :
    (cs.dropWhile isBlank).head? ≠ some ':' := by
  induction cs with
  | nil => simp
  | cons c cs ih =>
    rw [nameLength] at h
    by_cases hb : isBlank c
    · rw [List.dropWhile_cons_of_pos hb]
      refine ih ?_
      by_cases hn : isName c
      · rw [if_pos hn, List.length_cons] at h
        omega
      · rw [if_neg hn] at h
        split at h
        next he =>
          simp only [Bool.and_eq_true, decide_eq_true_eq] at he
          rw [he.1] at hb
          exact absurd hb (by decide)
        next => cases h
    · rw [List.dropWhile_cons_of_neg hb, List.head?_cons]
      rintro ⟨⟩
      rw [if_neg (by decide), if_neg (by simp)] at h
      cases h

/-- A name is no call of a keyword. -/
theorem callBody?_of_isName {word : String} (h : IsName word.toList) (keyword : Keyword) :
    callBody? keyword word = none := by
  have hcolon : ¬ keyword.text.toList.isPrefixOf (trimChars word.toList) := by
    intro hp
    have hhead : (trimChars word.toList).head? = some ':' := by
      obtain ⟨rest, hrest⟩ := List.isPrefixOf_iff_prefix.mp hp
      rw [← hrest]
      cases keyword <;> rfl
    obtain ⟨blanks, hblanks⟩ := List.rdropWhile_prefix isBlank (word.toList.dropWhile isBlank)
    refine head?_dropWhile_of_length h.length ?_
    rw [← hblanks]
    exact Token.head?_mono _ hhead
  rw [callBody?, behind?, if_neg hcolon]
  rfl

/-- A name in the prelude of `@keyframes` is marked. -/
theorem resolveKeyframes_name {job : Job} {head : AtHead} (hm : ¬ job.options.mode.isGlobal)
    (hn : IsName head.params.toList) (ha : head.params ∉ job.aliases) :
    (resolveKeyframes job head).result =
      .ok ({ head with params := wrapLocal head.params }, false) := by
  have hne : head.params ≠ "" := by
    intro he
    rw [he] at hn
    exact absurd hn.starts (by decide)
  have hk : localizeKeyframes job.options.mode job.aliases head.params =
      .ok ⟨wrapLocal head.params, false⟩ := by
    simp [localizeKeyframes, callBody?_of_isName hn, hne, ha, hm]
  rw [resolveKeyframes, Traced.result_bind, Traced.result_ofExcept, hk]
  rfl

/-! ### Declarations -/

/-- An identifier is a value of one word. -/
theorem parse_of_lex {value : String} {t : Token} (h : Token.lex value = [t])
    (hk : t.kind = .ident) : Value.parse value = .ok [.word t.start value] := by
  have ht : t.text = value := by
    have := Token.textOf_lex value
    rwa [h, Token.textOf_cons, Token.textOf_nil, String.append_empty] at this
  have ho : Value.opening? [t] = none := by simp [Value.opening?, hk, Token.Kind.opensParen]
  have hl : Value.leaf t [] = (.word t.start value, 0) := by
    simp [Value.leaf, hk, Value.dividerMark?, Value.wordLength, ht]
  have hend : ∀ us, us = [] →
      ∃ ns, Value.parseNodes nestingLimit 0 false us = .ok ns ∧ ns.nodes = [] := by
    rintro us rfl
    rw [Value.parseNodes]
    exact ⟨_, rfl, rfl⟩
  have hparse : ∃ ns, Value.parseNodes nestingLimit 0 false [t] = .ok ns ∧
      ns.nodes = [.word t.start value] := by
    rw [Value.parseNodes, if_neg (by simp)]
    split
    next =>
      simp only [hl]
      obtain ⟨ns, hns, hnil⟩ := hend _ List.drop_nil
      rw [hns]
      exact ⟨_, rfl, congrArg _ hnil⟩
    next o hsome => rw [ho] at hsome; cases hsome
  obtain ⟨ns, hns, hnodes⟩ := hparse
  rw [Value.parse, Value.parseWithin, h, hns]
  exact congrArg _ hnodes

/-- The value of a declaration is the print of the changed nodes. -/
theorem localizeDeclaration_of_route {p : Place} {d : Declaration} {route : Route} {ns : List Node}
    (hr : route? p d = some route) (hns : Value.parse d.value = .ok ns) :
    (localizeDeclaration p d).result =
      .ok { d with value := Value.print (route.apply p ns) } := by
  unfold localizeDeclaration
  rw [hr]
  simp only [Traced.result_bind, Traced.result_emitAll, Traced.result_ofExcept, hns]
  by_cases hv : Value.print (route.apply p ns) = d.value
  · exact congrArg Traced.result (if_pos hv) |>.trans (by rw [hv]; rfl)
  · exact congrArg Traced.result (if_neg hv)

/-- The two kinds of properties are apart. -/
theorem not_endsInWord_animation {prop : String} (h : endsInWord "animation-name" prop) :
    ¬ endsInWord "animation" prop := by
  intro h'
  obtain ⟨xs, hxs⟩ := List.isSuffixOf_iff_suffix.mp h
  obtain ⟨ys, hys⟩ := List.isSuffixOf_iff_suffix.mp h'
  have hlast := congrArg List.getLast? (hxs.trans hys.symm)
  have hname : "animation-name".toList.getLast? = some 'e' := by decide
  have hshort : "animation".toList.getLast? = some 'n' := by decide
  rw [List.getLast?_append, List.getLast?_append, hname, hshort] at hlast
  cases hlast

theorem localizeDeclaration_names {p : Place} {d : Declaration} {t : Token}
    (hp : endsInWord "animation-name" d.prop) (ht : Token.lex d.value = [t]) (hk : t.kind = .ident)
    (hr : ¬ isReserved d.value) :
    (localizeDeclaration p d).result = .ok { d with value := p.localize d.value } := by
  have hroute : route? p d = some .names :=
    (if_neg (not_endsInWord_animation hp)).trans (if_pos hp)
  rw [localizeDeclaration_of_route hroute (parse_of_lex ht hk)]
  simp [Route.apply, localizeNames, nameNode, hr, Node.print]

theorem localizeDeclaration_shorthand {p : Place} {d : Declaration} {t : Token}
    (hp : endsInWord "animation" d.prop) (ht : Token.lex d.value = [t]) (hk : t.kind = .ident)
    (hr : ¬ isReserved d.value) (hkey : lower d.value ∉ takenKeywords) :
    (localizeDeclaration p d).result =
      .ok { d with
        value := if hasTerminator d.value.toList then d.value else p.localize d.value } := by
  have hroute : route? p d = some .shorthand := if_pos hp
  rw [localizeDeclaration_of_route hroute (parse_of_lex ht hk)]
  have hi := isIdentifier_of_isName (Token.isName_of_lex ht hk)
  cases hc : hasTerminator d.value.toList <;>
    simp [Route.apply, localizeShorthand, shorthandNodes, shorthandNode, classify, hi, hc, hr, hkey,
      Node.print]

/-! ### The three places -/

/-- **Where names are local by default, an identifier that is no keyword of the
shorthand, no reserved name and not imported is marked in the prelude of
`@keyframes` and as a value of `animation-name`; as a value of `animation` it
is marked exactly if no escape in it ends in white space.** -/
theorem animation_name_agrees {job : Job} {w : String} {t : Token}
    (hm : ¬ job.options.mode.isGlobal) (ht : Token.lex w = [t]) (hk : t.kind = .ident)
    (hkey : lower w ∉ takenKeywords) (hr : ¬ isReserved w) (ha : w ∉ job.aliases) :
    (∀ head : AtHead, head.params = w →
      (resolveKeyframes job head).result = .ok ({ head with params := wrapLocal w }, false)) ∧
    (∀ d : Declaration, endsInWord "animation-name" d.prop → d.value = w →
      (localizeDeclaration (job.place false) d).result = .ok { d with value := wrapLocal w }) ∧
    ∀ d : Declaration, endsInWord "animation" d.prop → d.value = w →
      (localizeDeclaration (job.place false) d).result =
        .ok { d with value := if hasTerminator w.toList then w else wrapLocal w } := by
  have hl : (job.place false).localize w = wrapLocal w := if_neg (by simpa [Job.place] using ha)
  refine ⟨?_, ?_, ?_⟩
  · rintro head rfl
    exact resolveKeyframes_name hm (Token.isName_of_lex ht hk) ha
  · rintro d hp rfl
    rw [localizeDeclaration_names hp ht hk hr, hl]
  · rintro d hp rfl
    rw [localizeDeclaration_shorthand hp ht hk hr hkey, hl]

/-- A name with a hex escape and an escaped space is marked in all three
places, in a sheet that imports another name. -/
theorem animation_name_agrees_escaped :
    ∃ t, Token.lex "-\\66-\\ x" = [t] ∧ t.kind = .ident ∧
      (resolveKeyframes ⟨.default, ["x"]⟩ ⟨"", "Keyframes", " ", "-\\66-\\ x", " ", 0⟩).result =
        .ok (⟨"", "Keyframes", " ", ":local(-\\66-\\ x)", " ", 0⟩, false) ∧
      (localizeDeclaration ⟨false, ["x"], none⟩
        ⟨"", "animation-name", ":", "-\\66-\\ x", none, "", true, 0⟩).result =
          .ok ⟨"", "animation-name", ":", ":local(-\\66-\\ x)", none, "", true, 0⟩ ∧
      (localizeDeclaration ⟨false, ["x"], none⟩
        ⟨"", "-o-animation", ":", "-\\66-\\ x", none, "", true, 0⟩).result =
          .ok ⟨"", "-o-animation", ":", ":local(-\\66-\\ x)", none, "", true, 0⟩ := by
  have hlex : Token.lex "-\\66-\\ x" = [⟨.ident, "-\\66-\\ x", 0⟩] := by decide +kernel
  have hmode : ¬ (⟨.default, ["x"]⟩ : Job).options.mode.isGlobal := by decide
  obtain ⟨hkeyframes, hnames, hshorthand⟩ :=
    animation_name_agrees hmode hlex rfl (by decide +kernel) (by decide +kernel) (by decide)
  have hplain : hasTerminator "-\\66-\\ x".toList = false := by decide +kernel
  rw [hplain] at hshorthand
  exact ⟨_, hlex, rfl, hkeyframes _ rfl, hnames _ (by decide +kernel) rfl,
    hshorthand _ (by decide +kernel) rfl⟩

/-- The white space behind the digits belongs to the escape, and the shorthand
stops at it. -/
theorem animation_name_left :
    (∃ t, Token.lex "\\66 ade" = [t] ∧ t.kind = .ident) ∧
      lower "\\66 ade" ∉ takenKeywords ∧ ¬ isReserved "\\66 ade" ∧
      (transform .default
        ("@keyframes \\66 ade\x7b\x7d" ++
          ".a\x7banimation-name:\\66 ade;animation:\\66 ade\x7d")).result =
        .ok ("@keyframes :local(\\66 ade)\x7b\x7d" ++
          ":local(.a)\x7banimation-name::local(\\66 ade);animation:\\66 ade\x7d") := by
  have hlex : Token.lex "\\66 ade" = [⟨.ident, "\\66 ade", 0⟩] := by decide +kernel
  exact ⟨⟨_, hlex, rfl⟩, by decide +kernel, by decide +kernel, by decide +kernel⟩

end Scope
end StyleScope
