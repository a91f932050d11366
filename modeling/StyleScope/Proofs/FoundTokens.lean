/-
# Tokens in front of other text

The lexer finds tokens in front of a text if it finds each of them in front of
the ones behind it and of the text (`Found`). Then the tokens of the whole are
these and those of the text, and where the text stands is no matter (`bareLex`).

In front of a part that is replaced there stands the mark that opens a call, or
one that separates, or white space. Such a token is found in front of everything
that does not go on with it, and hides what stands behind it (`isFirm`).

Key definitions: `Token.Found`, `Token.bareLex`, `Token.Kind.isFirm`.
Key theorems: `Token.Found.bareLex_append`, `Token.found_of_lexFrom`,
`Token.Precedes.of_isFirm`.
-/
import StyleScope.Proofs.StandingTokens
import StyleScope.Proofs.ValueNodes

namespace StyleScope
namespace Token

open Text

/-! ### Tokens wherever they stand -/

/-- The tokens of a text, without the places where they stand. -/
def bareLex (cs : List Char) : List Token :=
  (lexFrom 0 cs).map (relocate fun _ => 0)

theorem map_relocate_zero (f : Nat → Nat) (ts : List Token) :
    (ts.map (relocate f)).map (relocate fun _ => 0) = ts.map (relocate fun _ => 0) := by
  rw [List.map_map]
  rfl

theorem bareLex_eq (start : Nat) (cs : List Char) :
    bareLex cs = (lexFrom start cs).map (relocate fun _ => 0) := by
  rw [bareLex, ← Nat.zero_add start, lexFrom_add, map_relocate_zero]

/-! ### Tokens in front of a text -/

/-- The lexer finds each of the tokens in front of those behind it and of the
text. -/
def Found : List Token → List Char → Prop
  | [], _ => True
  | t :: ts, z => t.Precedes ((textOf ts).toList ++ z) ∧ Found ts z

section Found

variable {t : Token} {ts us : List Token} {y z : List Char}

theorem found_append :
    Found (ts ++ us) z ↔ Found ts ((textOf us).toList ++ z) ∧ Found us z := by
  induction ts with
  | nil => simp [Found]
  | cons t ts ih =>
    rw [List.cons_append, Found, Found, ih, textOf_append, String.toList_append,
      List.append_assoc, and_assoc]

theorem Precedes.yields (h : t.Precedes y) (hyz : Yields y z) : t.Precedes z := by
  obtain ⟨c, w, htext, hscan⟩ := h
  refine ⟨c, w, htext, ?_⟩
  rw [hyz c w (by rw [hscan]), hscan]

theorem Found.yields (h : Found ts y) (hyz : Yields y z) : Found ts z := by
  induction ts with
  | nil => trivial
  | cons t ts ih => exact ⟨h.1.yields (hyz.append _), ih h.2⟩

/-- What was read is found in front of what was read behind it. -/
theorem found_of_lexFrom {start : Nat} {cs : List Char} (h : lexFrom start cs = ts ++ us) :
    Found ts (textOf us).toList := by
  induction ts generalizing start cs with
  | nil => trivial
  | cons t ts ih =>
    obtain ⟨c, w, z, rfl, hlength, ht, hrest⟩ := exists_of_lexFrom_eq_cons h
    have htext : t.text.toList = c :: w := by rw [ht, String.toList_ofList]
    have hz : (textOf ts).toList ++ (textOf us).toList = z := by
      have htail : ts ++ us = lexFrom (start + t.text.utf8ByteSize) z := hrest
      rw [← String.toList_append, ← textOf_append, htail, textOf_lexFrom, String.toList_ofList]
    refine ⟨⟨c, w, htext, ?_⟩, ih hrest.symm⟩
    rw [hz, ← hlength, ht]

/-- In front of another text the tokens of a text are read as before. -/
theorem exists_lexFrom_append {start : Nat} {cs : List Char} (h : Found (lexFrom start cs) z) :
    ∃ vs, lexFrom start (cs ++ z) = lexFrom start cs ++ vs := by
  cases hts : lexFrom start cs with
  | nil => exact ⟨_, rfl⟩
  | cons t ts =>
    obtain ⟨c, w, y, rfl, -, ht, hrest⟩ := exists_of_lexFrom_eq_cons hts
    rw [hts] at h
    have htext : textOf ts = String.ofList y := by rw [hrest, textOf_lexFrom]
    have htail : Found (lexFrom (start + t.text.utf8ByteSize) y) z := hrest ▸ h.2
    obtain ⟨vs, hvs⟩ := exists_lexFrom_append htail
    have hfirst := lexFrom_of_precedes h.1
    have hself : t.text.toList = c :: w := by rw [ht, String.toList_ofList]
    have hstart : t.start = start := by rw [ht]
    rw [htext, String.toList_ofList, hself, hstart, hvs, ← hrest] at hfirst
    exact ⟨vs, by simpa using hfirst⟩
termination_by cs.length

/-- The tokens of a text behind other tokens. -/
theorem Found.bareLex_append (h : Found ts z) :
    bareLex ((textOf ts).toList ++ z) = ts.map (relocate fun _ => 0) ++ bareLex z := by
  induction ts with
  | nil => simp
  | cons t ts ih =>
    have hread := lexFrom_of_precedes h.1
    rw [textOf_cons, String.toList_append, List.append_assoc, bareLex_eq t.start, hread,
      List.map_cons, ← bareLex_eq, ih h.2, List.map_cons, List.cons_append]

/-- **If the last token is found in front of another text, so are all**, unless
one looks past the last. -/
theorem Found.of_last (h : Found (ts ++ [t]) y) (hides : Hides t.text.toList)
    (hz : t.Precedes z) : Found (ts ++ [t]) z := by
  obtain ⟨hts, -⟩ := found_append.mp h
  refine found_append.mpr ⟨hts.yields ?_, by simpa [Found] using hz⟩
  simpa using (hides y z).yields

/-- Where the tokens stand is no matter. -/
theorem found_map_relocate (f : Nat → Nat) : Found (ts.map (relocate f)) z ↔ Found ts z := by
  induction ts with
  | nil => rfl
  | cons t ts ih => rw [List.map_cons, Found, Found, ih, textOf_map_relocate]; rfl

end Found

/-! ### Names with a parenthesis -/

section Names

variable {isUrl : Bool} {m n : Nat} {cs : List Char}

/-- A function is not `url`, and ends in its parenthesis, unless a quote stands
behind it. -/
theorem nameBefore_eq_function (h : nameBefore isUrl m cs = ⟨.function, n⟩) :
    (isUrl = false ∧ n = m + 1 ∧ cs.head? = some '(') ∨ (cs.drop (n - m)).head?.any isQuote := by
  cases cs with
  | nil => cases h
  | cons c rest =>
    rw [nameBefore] at h
    split at h
    next hc =>
      split at h
      next =>
        split at h
        next hquote =>
          obtain rfl := congrArg Lexeme.length h
          refine .inr ?_
          rw [Nat.add_assoc, Nat.add_sub_cancel_left, Nat.add_comm 1, List.drop_succ_cons]
          exact hquote
        next =>
          have hk := congrArg Lexeme.kind h
          rw [Lexeme.kind_extend] at hk
          rcases scanUrl_ends (rest.drop (runLength isSpace rest)) with hbad | ⟨_, _, hurl, -⟩
          · rw [hbad] at hk
            cases hk
          · rw [hurl] at hk
            cases hk
      next hurl =>
        exact .inl ⟨Bool.eq_false_of_not_eq_true hurl, (congrArg Lexeme.length h).symm,
          congrArg some hc⟩
    next => cases h

/-- Only `url` makes an unquoted url. -/
theorem isUrl_of_nameBefore {terminated : Bool}
    (h : (nameBefore isUrl m cs).kind = .url terminated) : isUrl = true := by
  cases cs with
  | nil => cases h
  | cons c rest =>
    cases isUrl with
    | true => rfl
    | false =>
      rw [nameBefore] at h
      split at h <;> cases h

end Names

/-! ### Firm tokens -/

/-- The kinds of tokens that a word can stand right behind, as it can behind white
space. -/
def Kind.isFirm : Kind → Bool
  | function | whitespace | cdo | cdc | colon | semicolon | comma | leftParen | rightParen => true
  | comment terminated => terminated
  | delim c => c = '/'
  | _ => false

section Firm

variable {t : Token} {y z : List Char}

/-- A function in front of what is no quote is not `url`, and ends in its
parenthesis. -/
theorem Precedes.exists_of_function (h : t.Precedes y) (hk : t.kind = .function)
    (hy : y.head?.any isQuote = false) :
    ∃ x, t.text.toList = x ++ ['('] ∧ sameWord (String.ofList x) "url" = false := by
  obtain ⟨c, w, htext, hscan⟩ := h
  rw [hk] at hscan
  have hkind : (scan c (w ++ y)).kind.isNamed := by rw [hscan]; rfl
  have hnamed := (scan_of_isNamed hkind).2
  rw [hscan, scanNamed_eq] at hnamed
  have hy' : (c :: (w ++ y)).drop (c :: w).length = y := by
    rw [← List.cons_append, List.drop_left]
  have htake : (c :: (w ++ y)).take (c :: w).length = c :: w := by
    rw [← List.cons_append, List.take_left]
  generalize nameLength (c :: (w ++ y)) = m at hnamed
  rcases nameBefore_eq_function hnamed.symm with ⟨hurl, hlength, hparen⟩ | hquote
  · refine ⟨_, ?_, hurl⟩
    rw [List.head?_drop] at hparen
    rw [htext, ← htake, hlength, List.take_add_one, hparen]
    rfl
  · have hle := le_length_nameBefore (sameWord (String.ofList ((c :: (w ++ y)).take m)) "url") m
      ((c :: (w ++ y)).drop m)
    rw [← hnamed] at hle
    rw [List.drop_drop, Nat.add_sub_cancel' hle, hy', hy] at hquote
    cases hquote

/-- What is read as one of the marks `<!--` and `-->` starts with it. -/
theorem exists_of_scan_mark {c : Char} {cs : List Char}
    (h : (scan c cs).kind = .cdo ∨ (scan c cs).kind = .cdc) :
    ∃ rest, c :: cs = ['<', '!', '-', '-'] ++ rest ∨ c :: cs = ['-', '-', '>'] ++ rest := by
  have hnot {k : Kind} (hk : k.isComment ∨ k.isQuoted ∨ k.isNumeric ∨ k.isNamed ∨ k.char?.isSome)
      (h : k = .cdo ∨ k = .cdc) : False := by
    rcases h with rfl | rfl <;> rcases hk with hk | hk | hk | hk | hk <;>
      exact Bool.false_ne_true hk
  rw [scan] at h
  split at h
  · exact absurd h (hnot (.inl (isComment_scanComment _)))
  split at h
  · exact absurd h (by simp)
  split at h
  next hq =>
    have hquoted := isQuoted_scan hq cs
    rw [scan_of_isQuote hq] at hquoted
    exact absurd h (hnot (.inr (.inl hquoted)))
  split at h
  · split at h <;> exact absurd h (by simp)
  split at h
  · exact absurd h (hnot (.inr (.inr (.inl (isNumeric_scanNumber _)))))
  split at h
  next hmark =>
    obtain ⟨hc, hprefix⟩ := (Bool.and_eq_true _ _).mp hmark
    obtain ⟨rest, rfl⟩ := List.isPrefixOf_iff_prefix.mp hprefix
    exact ⟨rest, .inr (by rw [of_decide_eq_true hc]; rfl)⟩
  split at h
  next hmark =>
    obtain ⟨hc, hprefix⟩ := (Bool.and_eq_true _ _).mp hmark
    obtain ⟨rest, rfl⟩ := List.isPrefixOf_iff_prefix.mp hprefix
    exact ⟨rest, .inl (by rw [of_decide_eq_true hc]; rfl)⟩
  split at h
  · split at h <;> exact absurd h (by simp)
  split at h
  · exact absurd h (hnot (.inr (.inr (.inr (.inl (isNamed_scanNamed _))))))
  · exact absurd h (hnot (.inr (.inr (.inr (.inr (by simp [char?_punctuation]))))))

/-- The marks are found in front of every text. -/
theorem Precedes.of_mark (h : t.Precedes y) (hk : t.kind = .cdo ∨ t.kind = .cdc) :
    (t.text.toList = ['<', '!', '-', '-'] ∨ t.text.toList = ['-', '-', '>']) ∧
      ∀ z, t.Precedes z := by
  obtain ⟨c, w, htext, hscan⟩ := h
  have hread {x : List Char} {l : Lexeme} {rest : List Char} (hx : c :: (w ++ y) = x ++ rest)
      (hl : scan c (w ++ y) = l) (hlength : l.length = x.length) : c :: w = x := by
    have htake := congrArg (List.take x.length) hx
    rwa [List.take_left, ← hlength, ← hl, hscan, ← List.cons_append, List.take_left] at htake
  have hkind : (scan c (w ++ y)).kind = t.kind := by rw [hscan]
  rw [← hkind] at hk
  obtain ⟨rest, hx | hx⟩ := exists_of_scan_mark hk
  · obtain ⟨rfl, hw⟩ := List.cons.inj hx
    have hl : scan '<' (w ++ y) = ⟨.cdo, 4⟩ := by rw [hw]; rfl
    have htext' := htext.trans (hread hx hl rfl)
    refine ⟨.inl htext', fun z => ⟨'<', ['!', '-', '-'], htext', ?_⟩⟩
    rw [← hkind, hl]
    rfl
  · obtain ⟨rfl, hw⟩ := List.cons.inj hx
    have hl : scan '-' (w ++ y) = ⟨.cdc, 3⟩ := by rw [hw]; rfl
    have htext' := htext.trans (hread hx hl rfl)
    refine ⟨.inr htext', fun z => ⟨'-', ['-', '>'], htext', ?_⟩⟩
    rw [← hkind, hl]
    rfl

theorem Precedes.isSpace_of_whitespace (h : t.Precedes y) (hk : t.kind = .whitespace) :
    ∀ c ∈ t.text.toList, isSpace c := by
  obtain ⟨c, w, htext, hscan⟩ := h
  obtain ⟨hc, hw, -⟩ := cut_of_scan_whitespace (hk ▸ hscan)
  rw [htext]
  refine List.forall_mem_cons.mpr ⟨hc, ?_⟩
  rw [hw]
  exact fun d hd => List.mem_takeWhile_imp hd

theorem Found.isSpace_of_whitespace {ts : List Token} (h : Found ts y)
    (hts : ∀ u ∈ ts, u.isWhitespace) : ∀ c ∈ (textOf ts).toList, isSpace c := by
  induction ts with
  | nil => simp
  | cons u ts ih =>
    obtain ⟨hu, hmore⟩ := List.forall_mem_cons.mp hts
    rw [textOf_cons, String.toList_append]
    exact List.forall_mem_append.mpr
      ⟨h.1.isSpace_of_whitespace (of_decide_eq_true hu), ih h.2 hmore⟩

/-- White space is a token in front of what is none. -/
theorem precedes_blank {blank : String} (hblank : ∀ c ∈ blank.toList, isSpace c)
    (hne : blank ≠ "") (o : Nat) (hz : z.head?.any isSpace = false) :
    (⟨.whitespace, blank, o⟩ : Token).Precedes z := by
  cases hb : blank.toList with
  | nil => exact absurd (String.toList_inj.mp hb) hne
  | cons c w =>
    rw [hb] at hblank
    obtain ⟨hc, hw⟩ := List.forall_mem_cons.mp hblank
    refine ⟨c, w, hb, ?_⟩
    rw [scan_of_isSpace hc, runLength_append w hz, runLength, List.takeWhile_eq_self_iff.mpr hw,
      List.length_cons, Nat.add_comm]

/-- White space is found in front of what is no white space. -/
theorem Precedes.of_whitespace (h : t.Precedes y) (hk : t.kind = .whitespace)
    (hz : z.head?.any isSpace = false) : t.Precedes z := by
  have hne : t.text ≠ "" := by
    obtain ⟨c, w, htext, -⟩ := h
    rintro hempty
    rw [hempty] at htext
    cases htext
  have hself := precedes_blank (h.isSpace_of_whitespace hk) hne 0 hz
  rw [← hk] at hself
  exact hself

theorem Precedes.of_char {c : Char} (h : t.Precedes y) (hk : t.kind.char? = some c)
    (hscan : scan c z = ⟨t.kind, 1⟩) : t.Precedes z :=
  ⟨c, [], by rw [h.isSpelled.text_eq hk, String.toList_singleton], hscan⟩

/-- A comment starts with a slash. -/
theorem Precedes.head_of_comment {terminated : Bool} (h : t.Precedes y)
    (hk : t.kind = .comment terminated) : t.text.toList.head? = some '/' := by
  obtain ⟨c, w, htext, hscan⟩ := h
  rw [htext]
  have hclose : (scan c (w ++ y)).kind.mayClose := by rw [hscan, hk]; rfl
  rcases mayClose_scan hclose with hbarrier | hopen
  · have hchar := char?_punctuation c
    rw [scan_of_isBarrier hbarrier] at hscan
    have hkind := (congrArg Lexeme.kind hscan).trans hk
    dsimp only at hkind
    rw [hkind] at hchar
    cases hchar
  · exact congrArg some (of_decide_eq_true ((Bool.and_eq_true _ _).mp hopen).1)

/-- A closed comment is found in front of every text, and hides it. -/
theorem Precedes.of_comment (h : t.Precedes y) (hk : t.kind = .comment true) :
    Hides t.text.toList ∧ ∀ z, t.Precedes z := by
  obtain ⟨c, w, htext, hscan⟩ := h
  have hclosed : (scan c (w ++ y)).kind.isClosed := by
    rw [hscan, hk]
    rfl
  have hle : (scan c (w ++ y)).length ≤ (c :: w).length := by rw [hscan]
  have hread (z : List Char) : t.Precedes z :=
    ⟨c, w, htext, by rw [scan_append_of_le hle (.inl hclosed), hscan]⟩
  have hlex := lexFrom_of_precedes (hread [])
  rw [List.append_nil, lexFrom] at hlex
  have hends : EndsClosed (lexFrom t.start t.text.toList) := by
    rw [hlex]
    exact ⟨t, rfl, by rw [hk]; rfl⟩
  exact ⟨hides_of_endsClosed hends, hread⟩

/-- **A firm token is found in front of every text**, unless white space goes on behind
it, or a comment starts with a slash. -/
theorem Precedes.of_isFirm (h : t.Precedes y) (ht : t.kind.isFirm)
    (hy : t.kind = .function → y.head?.any isQuote = false)
    (hspace : t.kind = .whitespace → z.head?.any isSpace = false)
    (hstar : t.kind = .delim '/' → z.head? ≠ some '*') : t.Precedes z := by
  cases hk : t.kind with
  | function =>
    obtain ⟨x, htext, hurl⟩ := h.exists_of_function hk (hy hk)
    exact h.of_function hk htext hurl z
  | whitespace => exact h.of_whitespace hk (hspace hk)
  | cdo => exact (h.of_mark (.inl hk)).2 z
  | cdc => exact (h.of_mark (.inr hk)).2 z
  | delim c =>
    rw [hk] at ht
    obtain rfl : c = '/' := of_decide_eq_true ht
    refine h.of_char (c := '/') (by rw [hk]; rfl) ?_
    rw [scan, if_neg (by simpa using hstar hk), hk]
    rfl
  | colon => exact h.of_char (c := ':') (by rw [hk]; rfl) (by rw [hk]; rfl)
  | semicolon => exact h.of_char (c := ';') (by rw [hk]; rfl) (by rw [hk]; rfl)
  | comma => exact h.of_char (c := ',') (by rw [hk]; rfl) (by rw [hk]; rfl)
  | leftParen => exact h.of_char (c := '(') (by rw [hk]; rfl) (by rw [hk]; rfl)
  | rightParen => exact h.of_char (c := ')') (by rw [hk]; rfl) (by rw [hk]; rfl)
  | comment terminated =>
    rw [hk] at ht
    obtain rfl : terminated = true := ht
    exact (h.of_comment hk).2 z
  | _ => simp [hk, Kind.isFirm] at ht

theorem isStop_of_isSpace {c : Char} (hc : isSpace c) : isStop c := by
  simp only [isSpace, Bool.or_eq_true, decide_eq_true_eq] at hc
  rcases hc with (((rfl | rfl) | rfl) | rfl) | rfl <;> rfl

/-- A firm token hides what stands behind it. -/
theorem hides_of_isFirm (h : t.Precedes y) (ht : t.kind.isFirm) : Hides t.text.toList := by
  have hchar {c : Char} (hk : t.kind.char? = some c) (hc : isStop c) : Hides t.text.toList := by
    rw [h.isSpelled.text_eq hk, String.toList_singleton]
    exact hides_of_isStop hc []
  cases hk : t.kind with
  | function =>
    have hs := h.isSpelled
    rw [IsSpelled, hk] at hs
    obtain ⟨name, blanks, htext⟩ := hs
    rw [htext]
    exact (hides_of_isStop (c := '(') rfl blanks).append_left name
  | whitespace =>
    obtain ⟨c, w, htext, hscan⟩ := h
    rw [hk] at hscan
    rw [htext]
    exact hides_of_isStop (isStop_of_isSpace (cut_of_scan_whitespace hscan).1) w
  | cdo =>
    rcases (h.of_mark (.inl hk)).1 with htext | htext <;> rw [htext] <;> exact hides_of_any rfl
  | cdc =>
    rcases (h.of_mark (.inr hk)).1 with htext | htext <;> rw [htext] <;> exact hides_of_any rfl
  | delim c =>
    rw [hk] at ht
    obtain rfl : c = '/' := of_decide_eq_true ht
    exact hchar (c := '/') (by rw [hk]; rfl) rfl
  | colon => exact hchar (c := ':') (by rw [hk]; rfl) rfl
  | semicolon => exact hchar (c := ';') (by rw [hk]; rfl) rfl
  | comma => exact hchar (c := ',') (by rw [hk]; rfl) rfl
  | leftParen => exact hchar (c := '(') (by rw [hk]; rfl) rfl
  | rightParen => exact hchar (c := ')') (by rw [hk]; rfl) rfl
  | comment terminated =>
    rw [hk] at ht
    obtain rfl : terminated = true := ht
    exact (h.of_comment hk).1
  | _ => simp [hk, Kind.isFirm] at ht

/-- In front of the second text stands every firm token that can stand in front of the
first. -/
def Succeeds (y z : List Char) : Prop :=
  ∀ t : Token, t.kind.isFirm → t.Precedes y → t.Precedes z

theorem Yields.succeeds (h : Yields y z) : Succeeds y z :=
  fun _ _ ht => ht.yields h

theorem succeeds_of_heads (hy : y.head?.any isQuote = false) (hspace : z.head?.any isSpace = false)
    (hstar : z.head? ≠ some '*') : Succeeds y z :=
  fun _ ht h => h.of_isFirm ht (fun _ => hy) (fun _ => hspace) fun _ => hstar

/-- Tokens up to a firm one are found in front of what succeeds what was behind them. -/
theorem Found.of_succeeds {ts : List Token} (h : Found (ts ++ [t]) y) (ht : t.kind.isFirm)
    (hyz : Succeeds y z) : Found (ts ++ [t]) z := by
  have hlast : t.Precedes y := by
    obtain ⟨-, hlast, -⟩ := found_append.mp h
    simpa using hlast
  exact h.of_last (hides_of_isFirm hlast ht) (hyz t ht hlast)

end Firm

/-! ### White space, strings and the names of at-rules -/

section Complete

variable {t : Token} {x y z : List Char}

/-- White space is found as white space. -/
theorem exists_found_blank {blank : String} (hblank : ∀ c ∈ blank.toList, isSpace c)
    (hz : z.head?.any isSpace = false) :
    ∃ us, textOf us = blank ∧ (∀ u ∈ us, u.isWhitespace) ∧ Found us z := by
  by_cases hne : blank = ""
  · exact ⟨[], hne ▸ rfl, by simp, trivial⟩
  · exact ⟨[⟨.whitespace, blank, 0⟩], by simp, by simp [isWhitespace],
      precedes_blank hblank hne 0 hz, trivial⟩

/-- A string that is closed ends in its quote whatever follows. -/
theorem scanString_append {quote : Char} (hq : isStop quote)
    (h : scanString quote (x ++ quote :: y) = ⟨.string true, x.length + 1⟩) (z : List Char) :
    scanString quote (x ++ quote :: z) = ⟨.string true, x.length + 1⟩ := by
  generalize hxy : x ++ quote :: y = cs at h
  fun_induction scanString quote cs generalizing x with
  | case1 => cases h
  | case2 cs =>
    obtain rfl : x = [] := List.eq_nil_of_length_eq_zero (Nat.succ.inj (Lexeme.mk.inj h).2).symm
    rw [List.nil_append, scanString, if_pos rfl]
    rfl
  | case3 => cases h
  | case4 cs hne hc ih =>
    cases x with
    | nil => exact absurd (List.cons.inj hxy).1.symm hne
    | cons d x =>
      rw [List.cons_append] at hxy
      obtain ⟨rfl, rfl⟩ := List.cons.inj hxy
      -- the quote at the end is not escaped
      obtain ⟨hkind, hlength⟩ := Lexeme.mk.inj h
      have hpos : 0 < (scanString quote ((x ++ quote :: y).drop
          (escapeLength (x ++ quote :: y)))).length := by
        rcases scanString_ends quote ((x ++ quote :: y).drop (escapeLength (x ++ quote :: y)))
          with hbad | ⟨terminated, body, hterminated, htake⟩
        · rw [hbad] at hkind
          cases hkind
        · rw [hterminated] at hkind
          cases hkind
          by_contra hzero
          rw [Nat.eq_zero_of_not_pos hzero] at htake
          simp [closing] at htake
      have hescape : escapeLength (x ++ quote :: y) ≤ x.length := by
        rw [List.length_cons] at hlength
        omega
      have hsame := escapeLength_alike (.stop 1 y z hq) hescape
      have hdrop (v : List Char) : (x ++ v).drop (escapeLength (x ++ quote :: y)) =
          x.drop (escapeLength (x ++ quote :: y)) ++ v := List.drop_append_of_le_length hescape
      have hrest := ih (hdrop _).symm ?_
      · rw [List.cons_append, scanString, if_neg hne, if_neg hc, if_pos rfl, hsame, hdrop, hrest]
        simp only [Lexeme.extend, List.length_drop, List.length_cons, Lexeme.mk.injEq, true_and]
        omega
      · rw [Lexeme.mk.injEq]
        refine ⟨hkind, ?_⟩
        rw [List.length_cons] at hlength
        rw [List.length_drop]
        omega
  | case5 c cs hne hc he ih =>
    cases x with
    | nil => exact absurd (List.cons.inj hxy).1.symm hne
    | cons d x =>
      rw [List.cons_append] at hxy
      obtain ⟨rfl, rfl⟩ := List.cons.inj hxy
      obtain ⟨hkind, hlength⟩ := Lexeme.mk.inj h
      rw [List.length_cons] at hlength
      have hrest := ih rfl (Lexeme.mk.injEq .. ▸ ⟨hkind, by omega⟩)
      rw [List.cons_append, scanString, if_neg hne, if_neg hc, if_neg he, hrest, List.length_cons]
      simp only [Lexeme.extend, Nat.add_comm]

/-- A closed string is found in front of every text, and hides it. -/
theorem Precedes.of_string (h : t.Precedes y) (hk : t.kind = .string true) :
    Hides t.text.toList ∧ ∀ z, t.Precedes z := by
  have hs := h.isSpelled
  rw [IsSpelled, hk] at hs
  obtain ⟨quote, body, htext⟩ := hs
  obtain ⟨c, w, hcw, hscan⟩ := h
  obtain ⟨rfl, rfl⟩ := List.cons.inj (hcw.symm.trans htext)
  have hquote : isQuote c := (finds_scan c _).of_isQuoted (by rw [hscan, hk]; rfl)
  have hstop : isStop c := by
    simp only [isQuote, Bool.or_eq_true, decide_eq_true_eq] at hquote
    rcases hquote with rfl | rfl <;> rfl
  refine ⟨by rw [htext]; exact hides_of_isStop hstop _, fun z => ⟨c, _, hcw, ?_⟩⟩
  have hone (v : List Char) : body ++ closing true c ++ v = body ++ c :: v := by simp [closing]
  have hlength : (c :: (body ++ closing true c)).length = body.length + 1 + 1 := by simp [closing]
  rw [hone, scan_of_isQuote hquote, hlength, hk] at hscan ⊢
  have hstring : scanString c (body ++ c :: y) = ⟨.string true, body.length + 1⟩ := by
    obtain ⟨hkind, hlen⟩ := Lexeme.mk.inj hscan
    rw [Lexeme.mk.injEq]
    exact ⟨hkind, by omega⟩
  rw [scanString_append hstop hstring z]
  simp only [Lexeme.extend, Nat.add_comm]

theorem scan_at (cs : List Char) :
    scan '@' cs = if startsName cs then ⟨.atKeyword, 1 + nameLength cs⟩ else ⟨.delim '@', 1⟩ := by
  have hnumber : startsNumber ('@' :: cs) = false := rfl
  rw [scan, if_neg (by simp), if_neg (by decide), if_neg (by decide), if_neg (by decide),
    if_neg (by rw [hnumber]; decide), if_neg (by simp), if_neg (by simp), if_pos rfl]

/-- The name of an at-rule is found in front of what neither goes on with it nor ends
an escape. -/
theorem Precedes.of_atKeyword (h : t.Precedes y) (hk : t.kind = .atKeyword)
    (hz : ∀ c ∈ z.head?, isName c = false ∧ c ≠ '\\') (hspace : z.head?.any isSpace = false) :
    Hides t.text.toList ∧ t.Precedes z := by
  have htext := h.isSpelled.text_of_atKeyword hk
  obtain ⟨c, w, hcw, hscan⟩ := h
  obtain rfl : c = '@' := by
    rw [htext, String.toList_append] at hcw
    exact (List.cons.inj hcw).1.symm
  rw [scan_at, hk] at hscan
  split at hscan
  next hstarts =>
    have hlength : nameLength (w ++ y) = w.length := by
      have hone := (Lexeme.mk.inj hscan).2
      rw [List.length_cons] at hone
      omega
    refine ⟨by rw [hcw]; exact hides_of_isStop rfl _, '@', w, hcw, ?_⟩
    rw [scan_at, if_pos (startsName_mono z (startsName_cut (Nat.le_of_eq hlength) hstarts)),
      nameLength_exchange hz (fun hs => by rw [hspace] at hs; cases hs) hlength, hk,
      List.length_cons, Nat.add_comm]
  next => cases hscan

/-- The token ends where it does in front of everything that goes on with no name. -/
def isComplete (t : Token) : Bool :=
  t.isShut || t.endsName || t.kind = .string true

theorem Precedes.of_isComplete (h : t.Precedes y) (ht : t.isComplete) (hz : isApart z) :
    Hides t.text.toList ∧ t.Precedes z := by
  rw [isComplete, Bool.or_eq_true, Bool.or_eq_true, decide_eq_true_eq] at ht
  rcases ht with (hshut | hname) | hstring
  · exact ⟨hides_of_isShut h.isSpelled hshut, h.of_isShut hshut z⟩
  · exact ⟨hides_of_endsName hname, h.of_endsName hname hz⟩
  · exact ⟨(h.of_string hstring).1, (h.of_string hstring).2 z⟩

end Complete

end Token
end StyleScope
