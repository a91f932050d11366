/-
# Escaped urls

What a map of urls returns is written back with backslashes in front of the
characters that would end it there. Without its escapes it is again what was
returned (`unescape_escapeChars`).

That it is also read as one string, or as one url, takes more. A string must not
have a newline, and a backslash in front of it would not help; a url without
quotes must not have an opening parenthesis, nor white space but at its ends.
These characters are not escaped, and where one stands the text breaks off as a
bad string or a bad url. `escaped_url_tokens` says that nothing else can go
wrong, and `escaped_url_broken` that this does.

Key definitions: `Token.unescape`, `Token.IsOnly`, `Scope.IsUnbroken`.
Key theorems: `Token.isOnly_iff`, `Scope.scanString_escapeChars`,
`Scope.scanUrl_escapeChars`, `Scope.escaped_url_tokens`.
-/
import StyleScope.Proofs.Filler
import StyleScope.Scope.Process

namespace StyleScope

open Text

namespace Token

/-! ### Escapes -/

/-- The number that a hex digit stands for. -/
def hexValue (c : Char) : Nat :=
  if isDigit c then c.toNat - '0'.toNat
  else if 'a' ≤ c then c.toNat - 'a'.toNat + 10
  else c.toNat - 'A'.toNat + 10

/-- The character of a hex escape. One that there is not, and the character
zero, become the replacement character. -/
def hexChar (digits : List Char) : Char :=
  let n := digits.foldl (fun n c => 16 * n + hexValue c) 0
  if n ≠ 0 ∧ n.isValidChar then Char.ofNat n else '\ufffd'

/-- What an escape whose backslash has been read stands for. A newline behind a
backslash stands for nothing. -/
def escaped : List Char → List Char
  | [] => []
  | c :: cs =>
    if isHexDigit c then [hexChar (c :: (cs.take 5).takeWhile isHexDigit)]
    else if isNewline c then []
    else [c]

/-- The characters with each escape replaced by what it stands for. -/
def unescape : List Char → List Char
  | [] => []
  | c :: cs =>
    if c = '\\' then escaped cs ++ unescape (cs.drop (escapeLength cs)) else c :: unescape cs
termination_by cs => cs.length
decreasing_by all_goals simp only [List.length_cons, List.length_drop]; omega

/-! ### Texts of one token -/

/-- The text is one token of this kind from end to end. -/
def IsOnly (kind : Kind) (text : String) : Prop :=
  tokenize text = [⟨kind, text, 0⟩, endOf text.utf8ByteSize]

/-- A text is one token if the first token that is read in it takes all of it. -/
theorem isOnly_iff {kind : Kind} {c : Char} {cs : List Char} :
    IsOnly kind (String.ofList (c :: cs)) ↔ scan c cs = ⟨kind, cs.length + 1⟩ := by
  have hlist : (String.ofList (c :: cs)).toList = c :: (cs ++ []) := by
    rw [String.toList_ofList, List.append_nil]
  have hall : ∀ start, (scan c (cs ++ [])).length = (c :: cs).length →
      lexFrom start (c :: (cs ++ [])) =
        [⟨(scan c (cs ++ [])).kind, String.ofList (c :: cs), start⟩] := by
    intro start h
    rw [lexFrom_cons h, lexFrom_eq_nil.mpr rfl]
  have hlex : IsOnly kind (String.ofList (c :: cs)) ↔
      lexFrom 0 (c :: (cs ++ [])) = [⟨kind, String.ofList (c :: cs), 0⟩] := by
    rw [IsOnly, tokenize, lex, hlist]
    constructor
    · intro h
      exact List.append_cancel_right (h.trans rfl)
    · intro h
      rw [h]
      rfl
  rw [hlex]
  constructor
  · intro h
    obtain ⟨d, w, z, hcs, hlength, htoken, hrest⟩ := exists_of_lexFrom_eq_cons h
    have hz : z = [] := lexFrom_eq_nil.mp hrest.symm
    subst hz
    obtain ⟨rfl, hw⟩ := List.cons.inj hcs
    rw [List.append_nil, List.append_nil] at hw
    subst hw
    rw [List.append_nil] at hlength htoken
    have hkind : kind = (scan c cs).kind := congrArg Token.kind htoken
    rw [hkind, ← List.length_cons, ← hlength]
  · intro h
    have hscan : scan c (cs ++ []) = ⟨kind, cs.length + 1⟩ := by
      rw [List.append_nil, h]
    have hlength : (scan c (cs ++ [])).length = (c :: cs).length := by
      rw [hscan, List.length_cons]
    rw [hall 0 hlength, hscan]

theorem extend_eq_iff {l : Lexeme} {kind : Kind} {n m : Nat} :
    l.extend n = ⟨kind, m + n⟩ ↔ l = ⟨kind, m⟩ := by
  obtain ⟨k, length⟩ := l
  simp only [Lexeme.extend, Lexeme.mk.injEq]
  constructor
  · rintro ⟨hk, hl⟩
    exact ⟨hk, by omega⟩
  · rintro ⟨hk, hl⟩
    exact ⟨hk, by omega⟩

/-- The name `url` and a parenthesis start a url. -/
theorem scan_url (cs : List Char) :
    scan 'u' ('r' :: 'l' :: '(' :: cs) = nameBefore true 3 ('(' :: cs) := by
  have hname : nameLength ('u' :: 'r' :: 'l' :: '(' :: cs) = 3 := by
    simp [nameLength, isName, isNameStart, isLetter, isDigit, isAscii]
  have hurl : sameWord (String.ofList ['u', 'r', 'l']) "url" := by decide +kernel
  have hscan : scan 'u' ('r' :: 'l' :: '(' :: cs) = scanNamed ('u' :: 'r' :: 'l' :: '(' :: cs) := by
    simp [scan, isSpace, isQuote, startsNumber, isSign, startsDigit, isDigit, startsFraction,
      startsName, isNameStart, isLetter]
  rw [hscan, scanNamed_eq, hname, List.take_succ_cons, List.take_succ_cons, List.take_succ_cons,
    List.take_zero, hurl]
  rfl

end Token

namespace Scope

open Token (Lexeme escapeLength escapes isQuote runLength scanString scanUrl unescape)

/-! ### Characters in front of which a backslash is put -/

section Escaping

variable {special : Char → Bool}

theorem escapeChars_of_special {c : Char} (h : special c) (cs : List Char) :
    escapeChars special (c :: cs) = '\\' :: c :: escapeChars special cs := by
  rw [escapeChars, if_pos h]

theorem escapeChars_of_not {c : Char} (h : special c = false) (cs : List Char) :
    escapeChars special (c :: cs) = c :: escapeChars special cs := by
  rw [escapeChars, if_neg (by simp [h])]

theorem escapeLength_cons_of_not {c : Char} (h : isHexDigit c = false) (cs : List Char) :
    escapeLength (c :: cs) = 1 := by
  rw [escapeLength, if_neg (by simp [h])]

/-- **Without its escapes, what is escaped is what it was.** It takes that the
backslash is escaped, and no character that means something else behind one. -/
theorem unescape_escapeChars (hb : special '\\')
    (hs : ∀ c, special c → isHexDigit c = false ∧ isNewline c = false) (cs : List Char) :
    unescape (escapeChars special cs) = cs := by
  induction cs with
  | nil =>
    rw [escapeChars, unescape]
  | cons c cs ih =>
    by_cases hc : special c
    · obtain ⟨hhex, hline⟩ := hs c hc
      have hescaped : Token.escaped (c :: escapeChars special cs) = [c] := by
        simp [Token.escaped, hhex, hline]
      rw [escapeChars_of_special hc, unescape, if_pos rfl, hescaped,
        escapeLength_cons_of_not hhex, List.drop_succ_cons, List.drop_zero, ih]
      rfl
    · have hne : c ≠ '\\' := by
        rintro rfl
        exact hc hb
      rw [escapeChars_of_not (by simpa using hc), unescape, if_neg hne, ih]

end Escaping

/-- The characters that are escaped between quotes. -/
def isQuotedSpecial (quote c : Char) : Bool :=
  c = '\\' || c = quote

/-- The characters that are escaped in a url without quotes. -/
def isBareSpecial (c : Char) : Bool :=
  c = '"' || c = '\x27' || c = ')' || c = '\\'

theorem toList_escapeQuoted (quote : Char) (url : String) :
    (escapeQuoted quote url).toList = escapeChars (isQuotedSpecial quote) url.toList :=
  String.toList_ofList

theorem toList_escapeUnquoted (url : String) :
    (escapeUnquoted url).toList = escapeChars isBareSpecial url.toList :=
  String.toList_ofList

theorem of_isQuotedSpecial {quote c : Char} (hq : isQuote quote) (h : isQuotedSpecial quote c) :
    isHexDigit c = false ∧ isNewline c = false := by
  simp only [isQuote, Bool.or_eq_true, decide_eq_true_eq] at hq
  simp only [isQuotedSpecial, Bool.or_eq_true, decide_eq_true_eq] at h
  rcases h with rfl | rfl
  · decide
  · rcases hq with rfl | rfl <;> decide

theorem of_isBareSpecial {c : Char} (h : isBareSpecial c) :
    isHexDigit c = false ∧ isNewline c = false ∧ isSpace c = false ∧ c ≠ '(' := by
  simp only [isBareSpecial, Bool.or_eq_true, decide_eq_true_eq] at h
  rcases h with ((rfl | rfl) | rfl) | rfl <;> decide

/-! ### Between quotes -/

/-- **Escaped between quotes, the characters are a string exactly if no newline
is among them.** -/
theorem scanString_escapeChars {quote : Char} (hq : isQuote quote) (cs : List Char) :
    scanString quote (escapeChars (isQuotedSpecial quote) cs ++ [quote]) =
        ⟨.string true, (escapeChars (isQuotedSpecial quote) cs).length + 1⟩ ↔
      ∀ c ∈ cs, isNewline c = false := by
  have hquote : quote ≠ '\\' ∧ isNewline quote = false := by
    simp only [isQuote, Bool.or_eq_true, decide_eq_true_eq] at hq
    rcases hq with rfl | rfl <;> decide
  induction cs with
  | nil =>
    have hend : scanString quote [quote] = ⟨.string true, 1⟩ := by
      rw [scanString, if_pos rfl]
    simpa [escapeChars] using hend
  | cons c cs ih =>
    rw [List.forall_mem_cons]
    by_cases hc : isQuotedSpecial quote c
    · -- a backslash takes the character behind it along
      obtain ⟨hhex, hline⟩ := of_isQuotedSpecial hq hc
      rw [escapeChars_of_special hc, List.cons_append, List.cons_append, scanString,
        if_neg hquote.1.symm, if_neg (by decide), if_pos rfl, escapeLength_cons_of_not hhex,
        List.drop_succ_cons, List.drop_zero, List.length_cons, List.length_cons]
      rw [and_iff_right hline]
      exact Token.extend_eq_iff.trans ih
    · rw [escapeChars_of_not (by simpa using hc), List.cons_append, scanString]
      simp only [isQuotedSpecial, Bool.or_eq_true, decide_eq_true_eq, not_or] at hc
      rw [if_neg hc.2]
      by_cases hline : isNewline c
      · rw [if_pos hline]
        simp [hline]
      · have hnot : isNewline c = false := by
          simpa using hline
        rw [if_neg hline, if_neg hc.1, and_iff_right hnot, List.length_cons]
        exact Token.extend_eq_iff.trans ih

/-! ### In parentheses -/

/-- Whether a url without quotes and its closing parenthesis can be read on
these characters: no parenthesis opens, and behind white space there is only
more of it. -/
def closesUrl : List Char → Bool
  | [] => true
  | c :: cs => if isSpace c then cs.all isSpace else c ≠ '(' && closesUrl cs

theorem isBareSpecial_of_isSpace {c : Char} (h : isSpace c) : isBareSpecial c = false := by
  by_contra hs
  have hnot := (of_isBareSpecial (by simpa using hs)).2.2.1
  rw [h] at hnot
  cases hnot

/-- White space in front is not escaped. -/
theorem dropWhile_escapeChars (cs : List Char) :
    (escapeChars isBareSpecial cs ++ [')']).dropWhile isSpace =
      escapeChars isBareSpecial (cs.dropWhile isSpace) ++ [')'] := by
  induction cs with
  | nil =>
    rw [escapeChars, List.dropWhile_nil, escapeChars]
    decide
  | cons c cs ih =>
    by_cases hc : isSpace c
    · rw [escapeChars_of_not (isBareSpecial_of_isSpace hc), List.cons_append,
        List.dropWhile_cons_of_pos hc, List.dropWhile_cons_of_pos hc, ih]
    · rw [List.dropWhile_cons_of_neg hc]
      by_cases hs : isBareSpecial c
      · rw [escapeChars_of_special hs, List.cons_append,
          List.dropWhile_cons_of_neg (by decide)]
      · rw [escapeChars_of_not (by simpa using hs), List.cons_append,
          List.dropWhile_cons_of_neg hc]

/-- No escaped character is a closing parenthesis with no backslash in front. -/
theorem head?_escapeChars_ne (c : Char) (cs rest : List Char) :
    ∃ d ds, escapeChars isBareSpecial (c :: cs) ++ rest = d :: ds ∧ d ≠ ')' ∧
      isQuote d = false := by
  by_cases hs : isBareSpecial c
  · rw [escapeChars_of_special hs]
    exact ⟨'\\', _, rfl, by decide, by decide⟩
  · rw [escapeChars_of_not (by simpa using hs)]
    simp only [isBareSpecial, Bool.or_eq_true, decide_eq_true_eq, not_or] at hs
    exact ⟨c, _, rfl, hs.1.2, by simp [isQuote, hs.1.1.1, hs.1.1.2]⟩

theorem scanUrl_of_isSpace {c : Char} (hc : isSpace c) (cs : List Char) :
    scanUrl (c :: cs) =
      match cs.dropWhile isSpace with
      | [] => ⟨.url false, 1 + runLength isSpace cs⟩
      | d :: ds =>
        if d = ')' then ⟨.url true, 1 + runLength isSpace cs + 1⟩
        else ⟨.badUrl, 1 + runLength isSpace cs + Token.badUrlLength (d :: ds)⟩ := by
  have hne : c ≠ ')' := by
    rintro rfl
    exact absurd hc (by decide)
  rw [scanUrl, Token.drop_runLength]
  exact (if_neg hne).trans (if_pos hc)

/-- Behind white space only the closing parenthesis may follow. -/
theorem scanUrl_space_iff {c : Char} (hc : isSpace c) (cs : List Char) :
    scanUrl (c :: (escapeChars isBareSpecial cs ++ [')'])) =
        ⟨.url true, (escapeChars isBareSpecial cs).length + 1 + 1⟩ ↔ cs.all isSpace := by
  rw [scanUrl_of_isSpace hc, dropWhile_escapeChars]
  have hlength := Token.length_runLength_add isSpace (escapeChars isBareSpecial cs ++ [')'])
  rw [dropWhile_escapeChars] at hlength
  cases hd : cs.dropWhile isSpace with
  | nil =>
    have hall : cs.all isSpace := by
      rw [List.all_eq_true]
      exact List.dropWhile_eq_nil_iff.mp hd
    rw [hd, escapeChars, List.nil_append, List.length_append, List.length_singleton] at hlength
    rw [escapeChars, List.nil_append, iff_true_right hall]
    have hrun : 1 + runLength isSpace (escapeChars isBareSpecial cs ++ [')']) + 1 =
        (escapeChars isBareSpecial cs).length + 1 + 1 := by omega
    rw [← hrun]
    rfl
  | cons d ds =>
    have hnot : ¬ cs.all isSpace = true := by
      intro hall
      rw [List.all_eq_true] at hall
      rw [List.dropWhile_eq_nil_iff.mpr hall] at hd
      cases hd
    obtain ⟨e, es, he, hne, -⟩ := head?_escapeChars_ne d ds [')']
    rw [he, iff_false_right hnot]
    dsimp only
    rw [if_neg hne]
    intro h
    cases congrArg Lexeme.kind h

/-- **Escaped in parentheses, the characters are a url exactly if they hold no
opening parenthesis, and white space only at their end.** -/
theorem scanUrl_escapeChars (cs : List Char) :
    scanUrl (escapeChars isBareSpecial cs ++ [')']) =
        ⟨.url true, (escapeChars isBareSpecial cs).length + 1⟩ ↔ closesUrl cs := by
  induction cs with
  | nil =>
    have hend : scanUrl [')'] = ⟨.url true, 1⟩ := by
      rw [scanUrl, if_pos rfl]
    simpa [escapeChars, closesUrl] using hend
  | cons c cs ih =>
    by_cases hc : isBareSpecial c
    · -- a backslash takes the character behind it along
      obtain ⟨hhex, hline, hspace, hopen⟩ := of_isBareSpecial hc
      have hescapes : escapes (c :: (escapeChars isBareSpecial cs ++ [')'])) := by
        simp [escapes, hline]
      have hcloses : closesUrl (c :: cs) = closesUrl cs := by
        simp [closesUrl, hspace, hopen]
      rw [escapeChars_of_special hc, List.cons_append, List.cons_append, scanUrl,
        if_neg (by decide), if_neg (by decide), if_neg (by decide), if_pos rfl, if_pos hescapes,
        escapeLength_cons_of_not hhex, List.drop_succ_cons, List.drop_zero, List.length_cons,
        List.length_cons, hcloses]
      exact Token.extend_eq_iff.trans ih
    · rw [escapeChars_of_not (by simpa using hc), List.cons_append, List.length_cons]
      by_cases hspace : isSpace c
      · rw [closesUrl, if_pos hspace]
        exact scanUrl_space_iff hspace cs
      · simp only [isBareSpecial, Bool.or_eq_true, decide_eq_true_eq, not_or] at hc
        obtain ⟨⟨⟨hdouble, hsingle⟩, hclose⟩, hback⟩ := hc
        rw [scanUrl, if_neg hclose, if_neg hspace]
        by_cases hopen : c = '('
        · have hbad : (isQuote c || c = '(') = true := by simp [hopen]
          have hcloses : closesUrl (c :: cs) = false := by
            rw [closesUrl, if_neg hspace]
            simp [hopen]
          rw [if_pos hbad, hcloses]
          simp
        · have hgood : ¬ (isQuote c || c = '(') = true := by
            simp [isQuote, hdouble, hsingle, hopen]
          have hcloses : closesUrl (c :: cs) = closesUrl cs := by
            simp [closesUrl, hspace, hopen]
          rw [if_neg hgood, if_neg hback, hcloses]
          exact Token.extend_eq_iff.trans ih

/-- Of white space a url has only some in front and some at its end, and no
parenthesis opens in it. -/
def IsUnbroken (url : String) : Prop :=
  ∃ front core back, url.toList = front ++ (core ++ back) ∧ (∀ c ∈ front, isSpace c) ∧
    (∀ c ∈ core, isSpace c = false ∧ c ≠ '(') ∧ ∀ c ∈ back, isSpace c

theorem closesUrl_append {core back : List Char} (hcore : ∀ c ∈ core, isSpace c = false ∧ c ≠ '(')
    (hback : ∀ c ∈ back, isSpace c) : closesUrl (core ++ back) := by
  induction core with
  | nil =>
    cases back with
    | nil => rfl
    | cons c back =>
      rw [List.forall_mem_cons] at hback
      rw [List.nil_append, closesUrl, if_pos hback.1, List.all_eq_true]
      exact hback.2
  | cons c core ih =>
    rw [List.forall_mem_cons] at hcore
    obtain ⟨⟨hspace, hopen⟩, hrest⟩ := hcore
    rw [List.cons_append, closesUrl, if_neg (by simp [hspace]), ih hrest]
    simp [hopen]

theorem exists_of_closesUrl {cs : List Char} (h : closesUrl cs) :
    ∃ core back, cs = core ++ back ∧ (∀ c ∈ core, isSpace c = false ∧ c ≠ '(') ∧
      ∀ c ∈ back, isSpace c := by
  induction cs with
  | nil => exact ⟨[], [], rfl, by simp, by simp⟩
  | cons c cs ih =>
    rw [closesUrl] at h
    by_cases hc : isSpace c
    · rw [if_pos hc, List.all_eq_true] at h
      refine ⟨[], c :: cs, rfl, by simp, ?_⟩
      rw [List.forall_mem_cons]
      exact ⟨hc, h⟩
    · rw [if_neg hc, Bool.and_eq_true, decide_eq_true_eq] at h
      obtain ⟨core, back, rfl, hcore, hback⟩ := ih h.2
      refine ⟨c :: core, back, rfl, ?_, hback⟩
      rw [List.forall_mem_cons]
      exact ⟨⟨by simpa using hc, h.1⟩, hcore⟩

theorem isUnbroken_iff {url : String} :
    IsUnbroken url ↔ closesUrl (url.toList.dropWhile isSpace) := by
  constructor
  · rintro ⟨front, core, back, hurl, hfront, hcore, hback⟩
    rw [hurl, List.dropWhile_append_of_pos hfront]
    cases core with
    | nil =>
      have hnil : back.dropWhile isSpace = [] := List.dropWhile_eq_nil_iff.mpr hback
      rw [List.nil_append, hnil]
      rfl
    | cons c core =>
      have hc := (hcore c List.mem_cons_self).1
      rw [List.cons_append, List.dropWhile_cons_of_neg (by simp [hc]), ← List.cons_append]
      exact closesUrl_append hcore hback
  · intro h
    obtain ⟨core, back, hrest, hcore, hback⟩ := exists_of_closesUrl h
    refine ⟨url.toList.takeWhile isSpace, core, back, ?_, ?_, hcore, hback⟩
    · rw [← hrest, List.takeWhile_append_dropWhile]
    · intro c hc
      exact List.mem_takeWhile_imp hc

/-! ### Whole texts -/

/-- The text of a string with this url in it. -/
theorem isOnly_quoted {quote : Char} (hq : isQuote quote) (url : String) :
    Token.IsOnly (.string true)
        (String.singleton quote ++ escapeQuoted quote url ++ String.singleton quote) ↔
      ∀ c ∈ url.toList, isNewline c = false := by
  have htext : String.singleton quote ++ escapeQuoted quote url ++ String.singleton quote =
      String.ofList (quote :: (escapeChars (isQuotedSpecial quote) url.toList ++ [quote])) := by
    rw [← String.toList_inj]
    simp [toList_escapeQuoted]
  rw [htext, Token.isOnly_iff, Token.scan_of_isQuote hq, List.length_append,
    List.length_singleton]
  exact Token.extend_eq_iff.trans (scanString_escapeChars hq url.toList)

/-- The text of a call of `url` with this url in it. -/
theorem isOnly_unquoted (url : String) :
    Token.IsOnly (.url true) ("url(" ++ escapeUnquoted url ++ ")") ↔ IsUnbroken url := by
  have htext : "url(" ++ escapeUnquoted url ++ ")" =
      String.ofList ('u' :: 'r' :: 'l' :: '(' ::
        (escapeChars isBareSpecial url.toList ++ [')'])) := by
    rw [← String.toList_inj]
    simp [toList_escapeUnquoted]
  rw [htext, Token.isOnly_iff, Token.scan_url, isUnbroken_iff, ← scanUrl_escapeChars]
  have hbody := dropWhile_escapeChars url.toList
  have hquote : ((escapeChars isBareSpecial (url.toList.dropWhile isSpace) ++ [')']).head?.any
      isQuote) = false := by
    cases url.toList.dropWhile isSpace with
    | nil =>
      rw [escapeChars]
      decide
    | cons c cs =>
      obtain ⟨d, ds, hd, -, hnot⟩ := head?_escapeChars_ne c cs [')']
      rw [hd, List.head?_cons, Option.any_some, hnot]
  have hlength :=
    Token.length_runLength_add isSpace (escapeChars isBareSpecial url.toList ++ [')'])
  rw [hbody, List.length_append, List.length_append, List.length_singleton] at hlength
  rw [Token.nameBefore, if_pos rfl, if_pos rfl, Token.drop_runLength, hbody, hquote,
    if_neg (by decide)]
  have htotal : ('r' :: 'l' :: '(' ::
        (escapeChars isBareSpecial url.toList ++ [')'])).length + 1 =
      (escapeChars isBareSpecial (url.toList.dropWhile isSpace)).length + 1 +
        (3 + 1 + runLength isSpace (escapeChars isBareSpecial url.toList ++ [')'])) := by
    simp only [List.length_cons, List.length_append, List.length_nil]
    omega
  rw [htotal]
  exact Token.extend_eq_iff

/-- **What a map of urls returns is read back as what it was, and it is read as
one string exactly if it has no newline, and as one url without quotes exactly
if no parenthesis opens in it and it has white space only at its ends.** -/
theorem escaped_url_tokens (url : String) :
    (∀ quote, isQuote quote →
      (Token.IsOnly (.string true)
          (String.singleton quote ++ escapeQuoted quote url ++ String.singleton quote) ↔
        ∀ c ∈ url.toList, isNewline c = false) ∧
      unescape (escapeQuoted quote url).toList = url.toList) ∧
    (Token.IsOnly (.url true) ("url(" ++ escapeUnquoted url ++ ")") ↔ IsUnbroken url) ∧
    unescape (escapeUnquoted url).toList = url.toList := by
  refine ⟨fun quote hq => ⟨isOnly_quoted hq url, ?_⟩, isOnly_unquoted url, ?_⟩
  · rw [toList_escapeQuoted]
    apply unescape_escapeChars
    · rw [isQuotedSpecial]
      rfl
    · intro c hc
      exact of_isQuotedSpecial hq hc
  · rw [toList_escapeUnquoted]
    apply unescape_escapeChars
    · decide
    · intro c hc
      exact ⟨(of_isBareSpecial hc).1, (of_isBareSpecial hc).2.1⟩

/-- A url with all that is escaped, in single quotes and without quotes. -/
theorem escaped_url_tokens_special :
    isQuote '\x27' ∧
      Token.IsOnly (.string true)
        (String.singleton '\x27' ++ escapeQuoted '\x27' " \"a\x27)\\66(" ++
          String.singleton '\x27') ∧
      unescape (escapeQuoted '\x27' " \"a\x27)\\66(").toList = " \"a\x27)\\66(".toList ∧
      Token.IsOnly (.url true) ("url(" ++ escapeUnquoted " \"a\x27)\\66\n" ++ ")") ∧
      unescape (escapeUnquoted " \"a\x27)\\66\n").toList = " \"a\x27)\\66\n".toList := by
  have hquote : isQuote '\x27' := by decide
  obtain ⟨hstring, hread⟩ := (escaped_url_tokens " \"a\x27)\\66(").1 '\x27' hquote
  obtain ⟨-, hurl, hread'⟩ := escaped_url_tokens " \"a\x27)\\66\n"
  have hline : " \"a\x27)\\66(".toList.all fun c => !isNewline c := by decide +kernel
  have hcore : "\"a\x27)\\66".toList.all fun c => !isSpace c && c ≠ '(' := by decide +kernel
  refine ⟨hquote, hstring.mpr ?_, hread, hurl.mpr ?_, hread'⟩
  · simpa using List.all_eq_true.mp hline
  · refine ⟨[' '], "\"a\x27)\\66".toList, ['\n'], by decide +kernel, ?_, ?_, ?_⟩
    · exact List.all_eq_true.mp (by decide)
    · simpa using List.all_eq_true.mp hcore
    · exact List.all_eq_true.mp (by decide)

/-- White space and parentheses break off a url without quotes, a newline a
string, and the sheet goes on with what is left. -/
theorem escaped_url_broken :
    (escapeUnquoted "a b" = "a b" ∧
      Token.tokenize "url(a b)" = [⟨.badUrl, "url(a b)", 0⟩, Token.endOf 8]) ∧
    (escapeUnquoted "(" = "(" ∧
      Token.tokenize "url(()" = [⟨.badUrl, "url(()", 0⟩, Token.endOf 6]) ∧
    (escapeQuoted '"' "a\nb" = "a\nb" ∧
      (Token.tokenize "\"a\nb\"").map (·.kind) =
        [.badString, .whitespace, .ident, .string false, .eof]) ∧
    (transform ⟨.localByDefault, some fun _ url => "a " ++ url⟩ ".a\x7bb:url(x)\x7d").result =
      .ok ":local(.a)\x7bb:url(a x)\x7d" := by
  refine ⟨⟨?_, ?_⟩, ⟨?_, ?_⟩, ⟨?_, ?_⟩, ?_⟩ <;> decide +kernel

end Scope
end StyleScope
