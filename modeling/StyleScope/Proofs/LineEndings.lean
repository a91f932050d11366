/-
# Tokens and line endings

A token of a text and one of the text with one form of line ending belong
together (`Lexeme.Unifies`): the second one takes what the first one takes, with
its line endings changed. `scan_unify` says so of all tokens that do not end
between CR and LF. Comments, white space and urls never end there; names and
strings do where an escape takes the CR of a pair and leaves the LF.

The kinds are the same too, but for bad urls. In a url the LF that an escape
leaves is white space, and more behind it makes the url a bad one, which it need
not be without the LF. How far a url reaches does not depend on that
(`length_scanUrl`), so the tokens behind it are found all the same.

So tokens and line endings are independent apart from these two cases
(`kinds_tokenize_unify`), and in these they are not (`kinds_changed`).

Key definitions: `Token.Lexeme.Unifies`, `Token.KeepsPairs`,
`Token.KeepsBadUrls`.
Key theorems: `Token.scan_unify`, `Token.lexFrom_unify`,
`Token.kinds_tokenize_unify`.
-/
import StyleScope.Proofs.Offsets
import StyleScope.Proofs.UnifiedText

namespace StyleScope
namespace Token

open Text

/-! ### White space, comments and urls -/

/-- A lexeme of a text and one of the changed text belong together: the first one
does not end inside of a pair, the second takes what the first one takes, changed,
and is of the same kind, but for a bad url that may become a url. -/
structure Lexeme.Unifies (cs : List Char) (l l' : Lexeme) : Prop where
  clean : ¬ SplitsPair l.length cs
  length : l'.length = image l.length cs
  kind : l'.kind = l.kind ∨
    l.kind = .badUrl ∧ (∃ terminated, l'.kind = .url terminated) ∧ EscapesPair cs

theorem Lexeme.unifies_of_noPair {l : Lexeme} {cs : List Char} (h : NoPair l.length cs)
    (hle : l.length ≤ cs.length) : l.Unifies cs l :=
  ⟨h.not_splitsPair, (image_of_noPair h hle).symm, .inl rfl⟩

theorem not_splitsPair_add {m n : Nat} {cs : List Char} (hm : ¬ SplitsPair m cs)
    (hn : ¬ SplitsPair n (cs.drop m)) : ¬ SplitsPair (m + n) cs := by
  intro h
  rcases Nat.eq_zero_or_pos n with rfl | hpos
  · exact hm h
  · exact hn (h.drop hpos)

theorem Lexeme.Unifies.extend {n n' : Nat} {cs : List Char} {l l' : Lexeme}
    (h : l.Unifies (cs.drop n) l') (hn : ¬ SplitsPair n cs) (hn' : n' = image n cs) :
    (l.extend n).Unifies cs (l'.extend n') where
  clean := not_splitsPair_add hn h.clean
  length := by rw [Lexeme.extend, Lexeme.extend, hn', h.length, image_add hn]
  kind := h.kind.imp_right fun hlost => ⟨hlost.1, hlost.2.1, hlost.2.2.of_drop⟩

theorem Lexeme.Unifies.extend_one {c : Char} {cs : List Char} {l l' : Lexeme}
    (h : l.Unifies cs l') (hc : NoPair 1 (c :: cs)) :
    (l.extend 1).Unifies (c :: cs) (l'.extend 1) := by
  have hdrop : l.Unifies ((c :: cs).drop 1) l' := h
  exact hdrop.extend hc.not_splitsPair (image_of_noPair hc (by simp)).symm

/-- Runs of white space end behind pairs. -/
theorem not_splitsPair_runLength (cs : List Char) : ¬ SplitsPair (runLength isSpace cs) cs := by
  intro h
  obtain ⟨behind, hdrop⟩ := h.drop_eq
  have hhead := List.head?_dropWhile_not isSpace cs
  rw [← drop_runLength, hdrop] at hhead
  cases hhead

theorem image_runLength (cs : List Char) :
    runLength isSpace (unify cs) = image (runLength isSpace cs) cs := by
  have htake : cs.take (runLength isSpace cs) = cs.takeWhile isSpace :=
    (List.prefix_iff_eq_take.mp (List.takeWhile_prefix isSpace)).symm
  rw [image, htake, runLength, takeWhile_unify]

theorem scanComment_unify (cs : List Char) :
    (scanComment cs).Unifies cs (scanComment (unify cs)) := by
  induction cs with
  | nil => exact Lexeme.unifies_of_noPair trivial (Nat.le_refl 0)
  | cons c cs ih =>
    rw [scanComment]
    split
    next hend =>
      simp only [Bool.and_eq_true, decide_eq_true_eq] at hend
      obtain ⟨rfl, hhead⟩ := hend
      obtain ⟨behind, rfl⟩ := List.head?_eq_some_iff.mp hhead
      have hfree : NoPair 2 ('*' :: '/' :: behind) :=
        (noPair_one (by decide) _).add (noPair_one (by decide) behind)
      rw [unify_of_ne (by decide), unify_of_ne (by decide)]
      exact Lexeme.unifies_of_noPair hfree (by simp)
    next hend =>
      by_cases hpair : c = '\r' ∧ cs.head? = some '\n'
      · obtain ⟨rfl, hhead⟩ := hpair
        obtain ⟨behind, rfl⟩ := List.head?_eq_some_iff.mp hhead
        obtain ⟨n, hn⟩ := Nat.exists_eq_add_of_lt
          (length_scanComment_pos (List.cons_ne_nil '\n' behind))
        refine ⟨fun hsplit => ih.clean (hsplit.drop (by omega)), ih.length.trans ?_,
          ih.kind.imp_right fun hlost => ⟨hlost.1, hlost.2.1, hlost.2.2.cons _⟩⟩
        rw [Lexeme.extend, image, image, hn, Nat.zero_add, Nat.add_comm 1]
        rfl
      · have hfree : NoPair 1 (c :: cs) := ⟨hpair, trivial⟩
        have hend' : ¬ (breakOf c = '*' && (unify cs).head? = some '/') = true := by
          rw [head?_unify]
          intro hmark
          simp only [Bool.and_eq_true, decide_eq_true_eq, Option.map_eq_some_iff] at hmark
          obtain ⟨hstar, d, hhead, hslash⟩ := hmark
          refine hend ?_
          rw [(breakOf_eq_iff rfl).mp hstar, hhead, (breakOf_eq_iff rfl).mp hslash]
          rfl
        rw [unify, if_neg hpair, scanComment, if_neg hend']
        exact ih.extend_one hfree

theorem badUrlLength_of_isSpace {c : Char} (hc : isSpace c) (cs : List Char) :
    badUrlLength (c :: cs) = 1 + badUrlLength cs := by
  have hparen : c ≠ ')' := by
    rintro rfl
    cases hc
  have hescape : ¬ (c = '\\' && escapes cs) = true := by
    intro h
    rw [of_decide_eq_true ((Bool.and_eq_true _ _).mp h).1] at hc
    cases hc
  rw [badUrlLength, if_neg hparen, if_neg hescape]

theorem badUrlLength_runLength (cs : List Char) :
    badUrlLength cs = runLength isSpace cs + badUrlLength (cs.drop (runLength isSpace cs)) := by
  induction cs with
  | nil => simp [badUrlLength, runLength]
  | cons c cs ih =>
    by_cases hc : isSpace c
    · have hrun : runLength isSpace (c :: cs) = 1 + runLength isSpace cs := by
        simp [runLength, hc, Nat.add_comm]
      rw [badUrlLength_of_isSpace hc, hrun, Nat.add_comm 1 (runLength isSpace cs),
        List.drop_succ_cons]
      omega
    · simp [runLength, hc]

/-- A url reaches through the next parenthesis that is not escaped, whether it
is a bad one or not. -/
theorem length_scanUrl (cs : List Char) : (scanUrl cs).length = badUrlLength cs := by
  fun_induction scanUrl cs with
  | case1 => rw [badUrlLength]
  | case2 cs => rw [badUrlLength, if_pos rfl]
  | case3 c cs hp hc =>
    rename_i hd
    have hrun := badUrlLength_runLength cs
    rw [hd, badUrlLength] at hrun
    rw [badUrlLength_of_isSpace hc, hrun]
    rfl
  | case4 c cs hp hc =>
    rename_i ds hd
    have hrun := badUrlLength_runLength cs
    rw [hd, badUrlLength, if_pos rfl] at hrun
    rw [badUrlLength_of_isSpace hc, hrun]
    dsimp only
    omega
  | case5 c cs hp hc =>
    rename_i hd hne
    have hrun := badUrlLength_runLength cs
    rw [hd] at hrun
    rw [badUrlLength_of_isSpace hc, hrun]
    dsimp only
    omega
  | case6 c cs hp hc hq =>
    have hescape : ¬ (c = '\\' && escapes cs) = true := by
      intro h
      rw [of_decide_eq_true ((Bool.and_eq_true _ _).mp h).1] at hq
      cases hq
    rw [badUrlLength, if_neg hp, if_neg hescape]
  | case7 cs hescapes hp hc hq ih =>
    rw [badUrlLength, if_neg hp, if_pos (by rw [hescapes]; rfl), ← ih]
    rfl
  | case8 cs hescapes hp hc hq =>
    rw [badUrlLength, if_neg hp, if_neg (by simpa using hescapes)]
  | case9 c cs hp hc hq he ih =>
    rw [badUrlLength, if_neg hp, if_neg (by simp [he]), ← ih]
    rfl

theorem badUrlLength_unify (cs : List Char) :
    badUrlLength (unify cs) = image (badUrlLength cs) cs := by
  fun_induction badUrlLength cs with
  | case1 => simp [unify, badUrlLength, image]
  | case2 cs =>
    rw [unify_of_ne (by decide), badUrlLength, if_pos (by decide)]
    exact (image_of_noPair (noPair_one (by decide) cs) (by simp)).symm
  | case3 c cs hp hc ih =>
    have hne : c ≠ '\r' := by
      rintro rfl
      cases hc
    have hp' : ¬ breakOf c = ')' := by rwa [breakOf_eq_iff rfl]
    have hc' : (breakOf c = '\\' && escapes (unify cs)) = true := by
      rw [escapes_unify]
      simpa using hc
    have hle := escapeLength_le cs
    obtain ⟨hlength, hescape⟩ := escapeLength_unify cs
    rw [unify_of_ne hne, badUrlLength, if_neg hp', if_pos hc', hlength, Nat.add_assoc,
      Nat.add_assoc, image_add_of_noPair (noPair_one hne cs) (by simp), List.drop_succ_cons,
      List.drop_zero]
    rcases hescape with hescape | hend
    · rw [hescape.drop_unify, ih, image_add_of_noPair hescape hle]
    · -- the LF that is left of the pair is one character more
      obtain ⟨behind, hdrop, hdrop', himage⟩ := hend.exists_behind
      have hone : NoPair 1 ('\n' :: behind) := noPair_one (by decide) behind
      rw [hdrop, unify_of_ne (by decide), badUrlLength_of_isSpace (by rfl),
        badUrlLength_of_isSpace (by rfl), image_add_of_noPair hone (by simp)] at ih
      rw [hdrop', hdrop, badUrlLength_of_isSpace (by rfl), himage, Nat.add_left_cancel ih]
      rfl
  | case4 c cs hp hc ih =>
    by_cases hpair : c = '\r' ∧ cs.head? = some '\n'
    · obtain ⟨rfl, hhead⟩ := hpair
      obtain ⟨behind, rfl⟩ := List.head?_eq_some_iff.mp hhead
      obtain ⟨n, hn⟩ := Nat.exists_eq_add_of_lt (badUrlLength_pos (List.cons_ne_nil '\n' behind))
      rw [show unify ('\r' :: '\n' :: behind) = unify ('\n' :: behind) from rfl, ih, image, image,
        hn, Nat.zero_add, Nat.add_comm 1]
      rfl
    · have hfree : NoPair 1 (c :: cs) := ⟨hpair, trivial⟩
      have hp' : ¬ breakOf c = ')' := by rwa [breakOf_eq_iff rfl]
      have hc' : ¬ (breakOf c = '\\' && escapes (unify cs)) = true := by
        rw [escapes_unify]
        simpa using hc
      rw [unify, if_neg hpair, badUrlLength, if_neg hp', if_neg hc', ih,
        image_add_of_noPair hfree (by simp)]
      rfl

/-- A url ends behind a parenthesis or with the text. -/
theorem not_splitsPair_badUrlLength (cs : List Char) : ¬ SplitsPair (badUrlLength cs) cs := by
  have hnil : ∀ n, ¬ SplitsPair n [] := by
    rintro n ⟨front, behind, hcs, -⟩
    simp at hcs
  have hrest : ∀ {m : Nat} {cs : List Char}, ¬ SplitsPair (badUrlLength (cs.drop m)) (cs.drop m) →
      ¬ SplitsPair (m + badUrlLength (cs.drop m)) cs := by
    intro m cs hrest hsplit
    by_cases hempty : cs.drop m = []
    · obtain ⟨behind, hdrop⟩ := hsplit.drop_eq
      rw [← List.drop_drop, hempty, List.drop_nil] at hdrop
      cases hdrop
    · exact hrest (hsplit.drop (badUrlLength_pos hempty))
  fun_induction badUrlLength cs with
  | case1 => exact hnil 0
  | case2 cs => exact (noPair_one (by decide) cs).not_splitsPair
  | case3 c cs hp hc ih =>
    have hdrop : (c :: cs).drop (1 + escapeLength cs) = cs.drop (escapeLength cs) := by
      rw [Nat.add_comm, List.drop_succ_cons]
    rw [← hdrop] at ih ⊢
    exact hrest ih
  | case4 c cs hp hc ih => exact @hrest 1 (c :: cs) ih

/-- What white space in a url makes of it, by what is behind it. -/
def kindBehindSpace : Option Char → Kind
  | none => .url false
  | some d => if d = ')' then .url true else .badUrl

theorem kindBehindSpace_breakOf (o : Option Char) :
    kindBehindSpace (o.map breakOf) = kindBehindSpace o := by
  cases o with
  | none => rfl
  | some d => simp only [Option.map_some, kindBehindSpace, breakOf_eq_iff (d := ')') rfl]

theorem kind_scanUrl_of_isSpace {c : Char} (hc : isSpace c) (cs : List Char) :
    (scanUrl (c :: cs)).kind = kindBehindSpace ((c :: cs).dropWhile isSpace).head? := by
  have hne : c ≠ ')' := by
    rintro rfl
    cases hc
  rw [scanUrl, if_neg hne, if_pos hc, drop_runLength, List.dropWhile_cons_of_pos hc]
  cases cs.dropWhile isSpace with
  | nil => rfl
  | cons d ds =>
    dsimp only [List.head?_cons, kindBehindSpace]
    split <;> rfl

/-- If white space in front could end the url, so can what is behind it. -/
theorem kind_scanUrl_of_dropWhile {cs : List Char}
    (h : kindBehindSpace (cs.dropWhile isSpace).head? ≠ .badUrl) :
    (scanUrl cs).kind = kindBehindSpace (cs.dropWhile isSpace).head? := by
  cases cs with
  | nil =>
    rw [scanUrl]
    rfl
  | cons c cs =>
    by_cases hc : isSpace c
    · exact kind_scanUrl_of_isSpace hc cs
    · rw [List.dropWhile_cons_of_neg hc] at h ⊢
      have hparen : c = ')' := by
        by_contra hne
        exact h (if_neg hne)
      rw [scanUrl, if_pos hparen, hparen]
      rfl

theorem kind_scanUrl_unify_of_isSpace {c : Char} (hc : isSpace c) (cs : List Char) :
    (scanUrl (unify (c :: cs))).kind = kindBehindSpace (cs.drop (runLength isSpace cs)).head? := by
  obtain ⟨ds, hds, -⟩ := exists_unify_cons c cs
  have hc' : isSpace (breakOf c) := by rwa [isSpace_breakOf]
  rw [hds, kind_scanUrl_of_isSpace hc', ← hds, dropWhile_unify, head?_unify,
    kindBehindSpace_breakOf, List.dropWhile_cons_of_pos hc, drop_runLength]

theorem isQuote_or_paren_breakOf {c : Char} :
    (isQuote (breakOf c) || breakOf c = '(') = true ↔ (isQuote c || c = '(') = true := by
  rw [isQuote_breakOf, decide_eq_decide.mpr (breakOf_eq_iff rfl)]

/-- A url stays what it is, unless it is a bad one and an escape in it takes a
pair in part. -/
theorem kind_scanUrl_unify {cs : List Char}
    (h : ¬ ((scanUrl cs).kind = .badUrl ∧ EscapesPair cs)) :
    (scanUrl (unify cs)).kind = (scanUrl cs).kind := by
  fun_induction scanUrl cs with
  | case1 => simp [unify, scanUrl]
  | case2 cs =>
    rw [unify_of_ne (by decide), scanUrl, if_pos (by decide)]
  | case3 c cs hp hc =>
    rename_i hd
    rw [kind_scanUrl_unify_of_isSpace hc, hd]
    rfl
  | case4 c cs hp hc =>
    rename_i ds hd
    rw [kind_scanUrl_unify_of_isSpace hc, hd]
    rfl
  | case5 c cs hp hc =>
    rename_i hd hne
    rw [kind_scanUrl_unify_of_isSpace hc, hd]
    exact if_neg hne
  | case6 c cs hp hc hq =>
    have hne : c ≠ '\r' := by
      rintro rfl
      exact hc rfl
    rw [unify_of_ne hne, scanUrl, if_neg (by rwa [breakOf_eq_iff rfl]),
      if_neg (by rwa [isSpace_breakOf]), if_pos (isQuote_or_paren_breakOf.mpr hq)]
  | case7 cs hescapes hp hc hq ih =>
    obtain ⟨hlength, hescape⟩ := escapeLength_unify cs
    rw [Lexeme.kind_extend] at h
    have hkind := ih fun hbad => h ⟨hbad.1, hbad.2.of_drop.cons _⟩
    rw [unify_of_ne (by decide), breakOf_eq_backslash.mpr rfl, scanUrl, if_neg hp, if_neg hc,
      if_neg hq, if_pos rfl, if_pos (by rwa [escapes_unify]), Lexeme.kind_extend,
      Lexeme.kind_extend, hlength]
    rcases hescape with hescape | hend
    · rw [hescape.drop_unify, hkind]
    · -- the LF that is left of the pair is white space in the url
      have hnot := fun hbad => h ⟨hbad, (meetsPair_of_escapeLength hend.splitsPair).escapesPair⟩
      obtain ⟨behind, hdrop, hdrop', -⟩ := hend.exists_behind
      have hspace := kind_scanUrl_of_isSpace (c := '\n') rfl behind
      rw [List.dropWhile_cons_of_pos (by rfl)] at hspace
      rw [hdrop, hspace] at hnot ⊢
      have hbehind : kindBehindSpace ((unify behind).dropWhile isSpace).head? =
          kindBehindSpace (behind.dropWhile isSpace).head? := by
        rw [dropWhile_unify, head?_unify, kindBehindSpace_breakOf]
      rw [hdrop', kind_scanUrl_of_dropWhile (by rwa [hbehind]), hbehind]
  | case8 cs hescapes hp hc hq =>
    rw [unify_of_ne (by decide), breakOf_eq_backslash.mpr rfl, scanUrl, if_neg hp, if_neg hc,
      if_neg hq, if_pos rfl, if_neg (by rwa [escapes_unify])]
  | case9 c cs hp hc hq he ih =>
    have hne : c ≠ '\r' := by
      rintro rfl
      exact hc rfl
    rw [Lexeme.kind_extend] at h
    rw [unify_of_ne hne, scanUrl, if_neg (by rwa [breakOf_eq_iff rfl]),
      if_neg (by rwa [isSpace_breakOf]), if_neg (by rwa [isQuote_or_paren_breakOf]),
      if_neg (by rwa [breakOf_eq_backslash]), Lexeme.kind_extend, Lexeme.kind_extend,
      ih fun hbad => h ⟨hbad.1, hbad.2.cons c⟩]

theorem scanUrl_unify (cs : List Char) : (scanUrl cs).Unifies cs (scanUrl (unify cs)) where
  clean := by
    rw [length_scanUrl]
    exact not_splitsPair_badUrlLength cs
  length := by rw [length_scanUrl, length_scanUrl, badUrlLength_unify]
  kind := by
    by_cases hbad : (scanUrl cs).kind = .badUrl ∧ EscapesPair cs
    · rcases scanUrl_ends (unify cs) with hbad' | ⟨terminated, -, hurl, -⟩
      · exact .inl (hbad'.trans hbad.1.symm)
      · exact .inr ⟨hbad.1, ⟨terminated, hurl⟩, hbad.2⟩
    · exact .inl (kind_scanUrl_unify hbad)

/-! ### One token -/

/-- A name is `url` in the changed text if it is in the text. -/
theorem sameWord_map_breakOf (cs : List Char) :
    sameWord (String.ofList (cs.map breakOf)) "url" = sameWord (String.ofList cs) "url" := by
  have hchar : ∀ d ∈ "url".toList, ∀ c, (breakOf c).toLower = d ↔ c.toLower = d := by
    intro d hd c
    have hdecide : decide ((breakOf c).toLower = d) = decide (c.toLower = d) := by
      refine apply_breakOf (f := fun c => decide (c.toLower = d)) (fun e he => ?_) c
      have hletter : d = 'u' ∨ d = 'r' ∨ d = 'l' := by simpa using hd
      have hnot : ∀ e, isNewline e → e.toLower ≠ d := by
        intro e he
        rcases eq_of_isNewline he with rfl | rfl | rfl <;>
          rcases hletter with rfl | rfl | rfl <;> decide
      rw [decide_eq_false (hnot e he), decide_eq_false (hnot '\n' rfl)]
    simpa using hdecide
  have hword : ∀ word : List Char, (∀ d ∈ word, d ∈ "url".toList) → ∀ cs : List Char,
      (cs.map breakOf).map Char.toLower = word ↔ cs.map Char.toLower = word := by
    intro word hword cs
    induction cs generalizing word with
    | nil => rfl
    | cons c cs ih =>
      cases word with
      | nil => simp
      | cons d word =>
        rw [List.map_cons, List.map_cons, List.map_cons, List.cons.injEq, List.cons.injEq,
          hchar d (hword d List.mem_cons_self) c,
          ih word fun e he => hword e (List.mem_cons_of_mem d he)]
  have htext : ∀ cs : List Char, sameWord (String.ofList cs) "url" ↔
      cs.map Char.toLower = "url".toList.map Char.toLower := by
    intro cs
    rw [sameWord_iff, String.toList_ofList]
  have hlower : "url".toList.map Char.toLower = "url".toList := by decide +kernel
  rw [Bool.eq_iff_iff, htext, htext, hlower]
  exact hword "url".toList (fun _ hd => hd) cs

theorem nameBefore_unify {cs : List Char} {n : Nat} (h : NoPair n cs) (hn : n ≤ cs.length)
    (isUrl : Bool) :
    (nameBefore isUrl n (cs.drop n)).Unifies cs (nameBefore isUrl n (unify (cs.drop n))) := by
  have hname : ∀ kind, (⟨kind, n⟩ : Lexeme).Unifies cs ⟨kind, n⟩ := fun kind =>
    Lexeme.unifies_of_noPair h hn
  cases hd : cs.drop n with
  | nil => exact hname .ident
  | cons c rest =>
    have hle : n + 1 ≤ cs.length := by
      have hlength := congrArg List.length hd
      rw [List.length_drop, List.length_cons] at hlength
      omega
    by_cases hc : c = '('
    · obtain rfl := hc
      have hfree : NoPair (n + 1) cs := by
        refine h.add ?_
        rw [hd]
        exact noPair_one (by decide) rest
      have hrest : cs.drop (n + 1) = rest := by
        rw [← List.drop_drop, hd]
        rfl
      have hdrop : cs.drop (n + 1 + runLength isSpace rest) = rest.dropWhile isSpace := by
        rw [← List.drop_drop, hrest, drop_runLength]
      have hsplit : ¬ SplitsPair (n + 1 + runLength isSpace rest) cs := by
        refine not_splitsPair_add hfree.not_splitsPair ?_
        rw [hrest]
        exact not_splitsPair_runLength rest
      have himage : n + 1 + runLength isSpace (unify rest) =
          image (n + 1 + runLength isSpace rest) cs := by
        rw [image_add_of_noPair hfree hle, hrest, image_runLength]
      have hquote : ((rest.dropWhile isSpace).head?.map breakOf).any isQuote =
          (rest.dropWhile isSpace).head?.any isQuote := by
        cases (rest.dropWhile isSpace).head? <;> simp
      rw [unify_of_ne (by decide), show breakOf '(' = '(' from rfl, nameBefore, nameBefore,
        if_pos rfl, if_pos rfl, drop_runLength, drop_runLength, dropWhile_unify, head?_unify,
        hquote]
      split
      · split
        · exact ⟨hsplit, himage, .inl rfl⟩
        · have hurl := scanUrl_unify (rest.dropWhile isSpace)
          rw [← hdrop] at hurl ⊢
          exact hurl.extend hsplit himage
      · exact Lexeme.unifies_of_noPair hfree hle
    · obtain ⟨ds, hds, -⟩ := exists_unify_cons c rest
      have hc' : breakOf c ≠ '(' := by rwa [ne_eq, breakOf_eq_iff rfl]
      rw [hds, nameBefore, nameBefore, if_neg hc, if_neg hc']
      exact hname .ident

theorem scanNamed_unify {cs : List Char}
    (h : ¬ (SplitsPair (scanNamed cs).length cs ∧ EscapesPair cs)) :
    (scanNamed cs).Unifies cs (scanNamed (unify cs)) := by
  rw [scanNamed_eq] at h ⊢
  have hname : ¬ (SplitsPair (nameLength cs) cs ∧ EscapesPair cs) := by
    rintro ⟨hsplit, hescapes⟩
    obtain ⟨behind, hdrop⟩ := hsplit.drop_eq
    rw [hdrop, nameBefore, if_neg (by decide)] at h
    exact h ⟨hsplit, hescapes⟩
  obtain ⟨hlength, hfree⟩ := nameLength_unify hname
  have htake : (unify cs).take (nameLength cs) = (cs.take (nameLength cs)).map breakOf := by
    have hsize : ((cs.take (nameLength cs)).map breakOf).length = nameLength cs := by
      rw [List.length_map, List.length_take, Nat.min_eq_left (nameLength_le cs)]
    rw [hfree.unify_eq, List.take_left' hsize]
  rw [scanNamed_eq (unify cs), hlength, htake, sameWord_map_breakOf, hfree.drop_unify]
  exact nameBefore_unify hfree (nameLength_le cs) _

theorem scanNumber_unify {cs : List Char}
    (h : ¬ (SplitsPair (scanNumber cs).length cs ∧ EscapesPair cs)) :
    (scanNumber cs).Unifies cs (scanNumber (unify cs)) := by
  obtain ⟨hlength, hfree⟩ := steady_numberLength cs
  have hle := numberLength_le cs
  rw [scanNumber] at h ⊢
  rw [scanNumber, hlength, hfree.drop_unify, startsName_unify]
  by_cases hname : startsName (cs.drop (numberLength cs))
  · rw [if_pos hname] at h
    rw [if_pos hname, if_pos hname]
    obtain ⟨hunit, hunitFree⟩ := nameLength_unify fun hsplit =>
      h ⟨hsplit.1.add hle, hsplit.2.of_drop⟩
    have hsize := nameLength_le (cs.drop (numberLength cs))
    rw [List.length_drop] at hsize
    rw [hunit]
    exact Lexeme.unifies_of_noPair (hfree.add hunitFree) (by dsimp only; omega)
  · have hpercent : (unify (cs.drop (numberLength cs))).head? = some '%' ↔
        (cs.drop (numberLength cs)).head? = some '%' := by
      rw [head?_unify, Option.map_eq_some_iff]
      constructor
      · rintro ⟨d, hd, hpercent⟩
        rwa [← (breakOf_eq_iff rfl).mp hpercent]
      · exact fun hd => ⟨'%', hd, rfl⟩
    simp only [if_neg hname, hpercent]
    split
    next hd =>
      obtain ⟨rest, hrest⟩ := List.head?_eq_some_iff.mp hd
      have hsize := congrArg List.length hrest
      rw [List.length_drop, List.length_cons] at hsize
      refine Lexeme.unifies_of_noPair (hfree.add ?_) (by dsimp only; omega)
      rw [hrest]
      exact noPair_one (by decide) rest
    next => exact Lexeme.unifies_of_noPair hfree hle

section Tokens

variable {c : Char} {cs : List Char}

theorem hash_unify (hc : NoPair 1 (c :: cs))
    (h : ¬ (SplitsPair (if startsHash cs then
        (⟨.hash (startsName cs), 1 + nameLength cs⟩ : Lexeme) else ⟨.delim c, 1⟩).length
      (c :: cs) ∧ EscapesPair (c :: cs))) :
    (if startsHash cs then (⟨.hash (startsName cs), 1 + nameLength cs⟩ : Lexeme)
      else ⟨.delim c, 1⟩).Unifies (c :: cs)
      (if startsHash (unify cs) then ⟨.hash (startsName (unify cs)), 1 + nameLength (unify cs)⟩
        else ⟨.delim c, 1⟩) := by
  rw [startsHash_unify, startsName_unify]
  split
  next hstarts =>
    rw [if_pos hstarts] at h
    obtain ⟨hlength, hfree⟩ := nameLength_unify fun hsplit =>
      h ⟨hsplit.1.cons c, hsplit.2.cons c⟩
    have hle := nameLength_le cs
    rw [hlength]
    exact Lexeme.unifies_of_noPair (hc.add hfree) (by simp only [List.length_cons]; omega)
  next => exact Lexeme.unifies_of_noPair hc (by simp)

theorem atKeyword_unify (hc : NoPair 1 (c :: cs))
    (h : ¬ (SplitsPair (if startsName cs then (⟨.atKeyword, 1 + nameLength cs⟩ : Lexeme)
      else ⟨.delim c, 1⟩).length (c :: cs) ∧ EscapesPair (c :: cs))) :
    (if startsName cs then (⟨.atKeyword, 1 + nameLength cs⟩ : Lexeme)
      else ⟨.delim c, 1⟩).Unifies (c :: cs)
      (if startsName (unify cs) then ⟨.atKeyword, 1 + nameLength (unify cs)⟩
        else ⟨.delim c, 1⟩) := by
  rw [startsName_unify]
  split
  next hstarts =>
    rw [if_pos hstarts] at h
    obtain ⟨hlength, hfree⟩ := nameLength_unify fun hsplit =>
      h ⟨hsplit.1.cons c, hsplit.2.cons c⟩
    have hle := nameLength_le cs
    rw [hlength]
    exact Lexeme.unifies_of_noPair (hc.add hfree) (by simp only [List.length_cons]; omega)
  next => exact Lexeme.unifies_of_noPair hc (by simp)

/-- A mark of plain characters has no pair in it. -/
theorem noPair_of_isPrefixOf {word : List Char} (hw : ∀ d ∈ word, d ≠ '\r')
    (h : word.isPrefixOf cs) : NoPair word.length cs := by
  induction word generalizing cs with
  | nil => trivial
  | cons d word ih =>
    cases cs with
    | nil => trivial
    | cons e cs =>
      rw [List.isPrefixOf_cons_cons, Bool.and_eq_true, beq_iff_eq] at h
      obtain ⟨rfl, h⟩ := h
      exact ⟨fun hpair => hw d List.mem_cons_self hpair.1,
        ih (fun e he => hw e (List.mem_cons_of_mem d he)) h⟩

theorem mark_unify {word : List Char} {l : Lexeme} (hc : NoPair 1 (c :: cs))
    (hw : ∀ d ∈ word, d ≠ '\r') (h : word.isPrefixOf cs) (hl : l.length = 1 + word.length) :
    l.Unifies (c :: cs) l := by
  have hle := length_le_of_isPrefixOf h
  refine Lexeme.unifies_of_noPair ?_ ?_
  · rw [hl]
    exact hc.add (noPair_of_isPrefixOf hw h)
  · rw [hl, List.length_cons]
    omega

theorem scan_unify_of_not_isSpace (hc : ¬ isSpace c)
    (h : ¬ (SplitsPair (scan c cs).length (c :: cs) ∧ EscapesPair (c :: cs))) :
    (scan c cs).Unifies (c :: cs) (scan c (unify cs)) := by
  have hne : c ≠ '\r' := by
    rintro rfl
    exact hc rfl
  have hone : NoPair 1 (c :: cs) := noPair_one hne cs
  have hsame : unify (c :: cs) = c :: unify cs := by
    rcases breakOf_cases c with hbreak | ⟨hline, -⟩
    · rw [unify_of_ne hne, hbreak]
    · exact absurd (isSpace_of_isNewline hline) hc
  have hplain : ∀ d, isNewline d = false → ((unify cs).head? = some d ↔ cs.head? = some d) := by
    intro d hd
    rw [head?_unify, Option.map_eq_some_iff]
    constructor
    · rintro ⟨e, he, hbreak⟩
      rwa [← (breakOf_eq_iff hd).mp hbreak]
    · exact fun he => ⟨d, he, (breakOf_eq_iff hd).mpr rfl⟩
  unfold scan at h ⊢
  simp only [hplain '*' rfl]
  by_cases hopen : (c = '/' && cs.head? = some '*') = true
  · obtain ⟨rest, rfl⟩ :=
      List.head?_eq_some_iff.mp (of_decide_eq_true ((Bool.and_eq_true _ _).mp hopen).2)
    rw [if_pos hopen, if_pos hopen, unify_of_ne (by decide), List.tail_cons, List.tail_cons]
    have hcomment : (scanComment rest).Unifies (List.drop 2 (c :: '*' :: rest)) _ :=
      scanComment_unify rest
    have htwo : NoPair 2 (c :: '*' :: rest) := ⟨hone.1, noPair_one (by decide) rest⟩
    exact hcomment.extend htwo.not_splitsPair (image_of_noPair htwo (by simp)).symm
  rw [if_neg hopen, if_neg hc] at h ⊢
  rw [if_neg hopen, if_neg hc]
  by_cases hquote : isQuote c
  · rw [if_pos hquote] at h ⊢
    rw [if_pos hquote]
    obtain ⟨hstring, hfree⟩ := scanString_unify hquote fun hsplit =>
      h ⟨hsplit.1.cons c, hsplit.2.cons c⟩
    have hle := length_scanString_le c cs
    rw [hstring]
    exact Lexeme.unifies_of_noPair (hone.add hfree)
      (by simp only [Lexeme.extend, List.length_cons]; omega)
  rw [if_neg hquote] at h ⊢
  rw [if_neg hquote]
  by_cases hsign : c = '#'
  · rw [if_pos hsign] at h ⊢
    rw [if_pos hsign]
    exact hash_unify hone h
  rw [if_neg hsign] at h ⊢
  rw [if_neg hsign, ← hsame, startsNumber_unify]
  by_cases hnumber : startsNumber (c :: cs)
  · rw [if_pos hnumber] at h ⊢
    rw [if_pos hnumber]
    exact scanNumber_unify h
  rw [if_neg hnumber] at h ⊢
  rw [if_neg hnumber, isPrefixOf_unify _ (by simp [isNewline])]
  by_cases hcdc : (c = '-' && ['-', '>'].isPrefixOf cs) = true
  · rw [if_pos hcdc, if_pos hcdc]
    exact mark_unify hone (by simp) ((Bool.and_eq_true _ _).mp hcdc).2 rfl
  rw [if_neg hcdc] at h ⊢
  rw [if_neg hcdc, isPrefixOf_unify _ (by simp [isNewline])]
  by_cases hcdo : (c = '<' && ['!', '-', '-'].isPrefixOf cs) = true
  · rw [if_pos hcdo, if_pos hcdo]
    exact mark_unify hone (by simp) ((Bool.and_eq_true _ _).mp hcdo).2 rfl
  rw [if_neg hcdo] at h ⊢
  rw [if_neg hcdo]
  by_cases hat : c = '@'
  · rw [if_pos hat] at h ⊢
    rw [if_pos hat]
    exact atKeyword_unify hone h
  rw [if_neg hat] at h ⊢
  rw [if_neg hat, startsName_unify]
  by_cases hname : startsName (c :: cs)
  · rw [if_pos hname] at h ⊢
    rw [if_pos hname]
    exact scanNamed_unify h
  rw [if_neg hname, if_neg hname]
  exact Lexeme.unifies_of_noPair hone (by simp)

end Tokens

/-- **A token is the same in the changed text**, unless it ends between CR and LF,
and but for a bad url. -/
theorem scan_unify {c d : Char} {cs ds : List Char} (hd : unify (c :: cs) = d :: ds)
    (h : ¬ (SplitsPair (scan c cs).length (c :: cs) ∧ EscapesPair (c :: cs))) :
    (scan c cs).Unifies (c :: cs) (scan d ds) := by
  obtain ⟨ds', hds, hrest⟩ := exists_unify_cons c cs
  obtain ⟨rfl, rfl⟩ := List.cons.inj (hd.symm.trans hds)
  by_cases hc : isSpace c
  · have hd' : isSpace (breakOf c) := by rwa [isSpace_breakOf]
    have hrun {d : Char} (hd : isSpace d) (ds : List Char) :
        scan d ds = ⟨.whitespace, runLength isSpace (d :: ds)⟩ := by
      rw [scan_of_isSpace hd]
      simp [runLength, hd, Nat.add_comm]
    rw [hrun hc, hrun hd', ← hds]
    exact ⟨not_splitsPair_runLength (c :: cs), image_runLength (c :: cs), .inl rfl⟩
  · have hne : c ≠ '\r' := by
      rintro rfl
      exact hc rfl
    rcases breakOf_cases c with hbreak | ⟨hline, -⟩
    · rw [hbreak, hrest hne]
      exact scan_unify_of_not_isSpace hc h
    · exact absurd (isSpace_of_isNewline hline) hc

/-! ### All tokens -/

/-- The kind and the text. -/
def shape (t : Token) : Kind × String :=
  (t.kind, t.text)

/-- The kind and the changed text. -/
def unifiedShape (t : Token) : Kind × String :=
  (t.kind, unifyText t.text)

/-- No token ends between CR and LF. -/
def KeepsPairs (ts : List Token) : Prop :=
  ts.IsChain fun t u => ¬ (t.text.toList.getLast? = some '\r' ∧ u.text.toList.head? = some '\n')

/-- With changed line endings the bad urls are bad ones still. -/
def KeepsBadUrls (ts : List Token) : Prop :=
  ∀ t ∈ ts, t.kind = .badUrl → (lex (unifyText t.text)).map (·.kind) = [.badUrl]

theorem toList_unifyText (s : String) : (unifyText s).toList = unify s.toList := by
  rw [unifyText, String.toList_ofList]

theorem not_splitsPair_of_keepsPairs {start : Nat} {c : Char} {w z : List Char}
    {t : Token} (ht : t.text = String.ofList (c :: w)) (h : KeepsPairs (t :: lexFrom start z)) :
    ¬ SplitsPair (c :: w).length (c :: (w ++ z)) := by
  rintro ⟨front, behind, hcs, hlength⟩
  have hfront : (front ++ ['\r']).length = (c :: w).length := by
    rw [hlength, List.length_append, List.length_singleton]
  rw [List.append_cons, ← List.cons_append] at hcs
  obtain ⟨hleft, rfl⟩ := List.append_inj hcs hfront.symm
  rw [lexFrom, KeepsPairs, List.isChain_cons_cons] at h
  refine h.1 ⟨?_, ?_⟩
  · rw [ht, String.toList_ofList, hleft, List.getLast?_append]
    rfl
  · obtain ⟨n, hn⟩ := Nat.exists_eq_add_of_lt (length_scan_pos '\n' behind)
    rw [Nat.zero_add] at hn
    dsimp only
    rw [hn, String.toList_ofList, List.take_succ_cons]
    rfl

/-- Of a bad url that is a bad one by itself the head of the text is one. -/
theorem kind_scan_of_alone {d : Char} {w z : List Char}
    (hlength : (scan d (w ++ z)).length = (d :: w).length)
    (hkind : (scan d (w ++ z)).kind = .badUrl ∨
      ∃ terminated, (scan d (w ++ z)).kind = .url terminated)
    (halone : (lexFrom 0 (d :: w)).map (·.kind) = [.badUrl]) :
    (scan d (w ++ z)).kind = .badUrl := by
  have hnot : ∀ {k}, (k = Kind.badUrl ∨ ∃ terminated, k = .url terminated) →
      k ≠ .function ∧ k ≠ .badString := by
    rintro k (rfl | ⟨terminated, rfl⟩) <;> exact ⟨nofun, nofun⟩
  obtain ⟨hfunction, hstring⟩ := hnot hkind
  have hcut := scan_cut (Nat.le_of_eq hlength) fun hk => absurd hk hfunction
  rw [Lexeme.cutAt_of_kind hstring] at hcut
  rw [lexFrom, List.map_cons, List.cons.injEq] at halone
  rw [← hcut]
  exact halone.1

/-- **The changed text has the tokens of the text**, if no escape meets a pair, or
if none takes a pair in part and changes a token by it. -/
theorem lexFrom_unify {a : Nat} (b : Nat) {cs : List Char}
    (h : ¬ EscapesPair cs ∨ KeepsPairs (lexFrom a cs) ∧ KeepsBadUrls (lexFrom a cs)) :
    (lexFrom b (unify cs)).map shape = (lexFrom a cs).map unifiedShape := by
  induction hn : cs.length using Nat.strong_induction_on generalizing a b cs with
  | _ n ih =>
  cases hlex : lexFrom a cs with
  | nil =>
    rw [lexFrom_eq_nil.mp hlex, unify, lexFrom]
    rfl
  | cons t ts =>
    obtain ⟨c, w, z, rfl, hlength, ht, hrest⟩ := exists_of_lexFrom_eq_cons hlex
    rw [hlex] at h
    have hsplit : ¬ (SplitsPair (scan c (w ++ z)).length (c :: (w ++ z)) ∧
        EscapesPair (c :: (w ++ z))) := by
      rintro ⟨hsplit, hescapes⟩
      have hpairs := (h.resolve_left (not_not_intro hescapes)).1
      rw [hrest] at hpairs
      rw [hlength] at hsplit
      exact not_splitsPair_of_keepsPairs (by rw [ht]) hpairs hsplit
    obtain ⟨w', hw, -⟩ := exists_unify_cons c w
    obtain ⟨ds, hds, -⟩ := exists_unify_cons c (w ++ z)
    have hscan := scan_unify hds hsplit
    have hclean := hscan.clean
    rw [hlength] at hclean
    have happend : unify (c :: (w ++ z)) = breakOf c :: (w' ++ unify z) := by
      rw [unify_eq_append hclean, ← List.cons_append, List.take_left, List.drop_left, hw,
        List.cons_append]
    obtain rfl : ds = w' ++ unify z := (List.cons.inj (hds.symm.trans happend)).2
    have hlength' : (scan (breakOf c) (w' ++ unify z)).length = (breakOf c :: w').length := by
      rw [hscan.length, hlength, image, ← List.cons_append, List.take_left, hw]
    have hkind : (scan (breakOf c) (w' ++ unify z)).kind = t.kind := by
      rcases hscan.kind with hkind | ⟨hbad, hurl, hescapes⟩
      · rw [hkind, ht]
      · have hbad : t.kind = .badUrl := by
          rw [ht]
          exact hbad
        have halone := (h.resolve_left (not_not_intro hescapes)).2 t List.mem_cons_self hbad
        rw [ht, lex, toList_unifyText, String.toList_ofList, hw] at halone
        rw [hbad]
        exact kind_scan_of_alone hlength' (.inr hurl) halone
    have hz : z.length < n := by
      rw [← hn, List.length_cons, List.length_append]
      omega
    have hrestOk : ¬ EscapesPair z ∨ KeepsPairs ts ∧ KeepsBadUrls ts := by
      refine h.imp (fun hnot hescapes => hnot ?_) fun hkeeps =>
        ⟨hkeeps.1.of_cons, fun u hu => hkeeps.2 u (List.mem_cons_of_mem t hu)⟩
      refine EscapesPair.of_drop (n := (c :: w).length) ?_
      rwa [← List.cons_append, List.drop_left]
    have htail := ih z.length hz (b + (String.ofList (breakOf c :: w')).utf8ByteSize)
      (hrest ▸ hrestOk) rfl
    have htext : unifyText t.text = String.ofList (breakOf c :: w') := by
      rw [ht, unifyText, String.toList_ofList, hw]
    rw [happend, lexFrom_cons hlength', List.map_cons, List.map_cons, htail, ← hrest, shape,
      unifiedShape, hkind, htext]

/-! ### Where the tokens differ -/

theorem length_unify_append_of_pair {x y : List Char} (hx : x.getLast? = some '\r')
    (hy : y.head? = some '\n') :
    (unify (x ++ y)).length + 1 = (unify x).length + (unify y).length := by
  obtain ⟨front, rfl⟩ := List.getLast?_eq_some_iff.mp hx
  obtain ⟨behind, rfl⟩ := List.head?_eq_some_iff.mp hy
  have hclean : ∀ z : List Char, unify (front ++ '\r' :: z) = unify front ++ unify ('\r' :: z) := by
    intro z
    have hsplit : ¬ SplitsPair front.length (front ++ '\r' :: z) := by
      intro hsplit
      obtain ⟨rest, hdrop⟩ := hsplit.drop_eq
      rw [List.drop_left] at hdrop
      cases hdrop
    rw [unify_eq_append hsplit, List.take_left, List.drop_left]
  have hone : (unify ['\r']).length = 1 := rfl
  have hpair : unify ('\r' :: '\n' :: behind) = unify ('\n' :: behind) := rfl
  rw [List.append_assoc, List.singleton_append, hclean, hclean [], hpair, List.length_append,
    List.length_append, hone]
  omega

theorem length_unify_append_le (x y : List Char) :
    (unify (x ++ y)).length ≤ (unify x).length + (unify y).length := by
  by_cases hpair : x.getLast? = some '\r' ∧ y.head? = some '\n'
  · have hlength := length_unify_append_of_pair hpair.1 hpair.2
    omega
  · have hsplit : ¬ SplitsPair x.length (x ++ y) := by
      rintro ⟨front, behind, hxy, hlength⟩
      have hfront : x.length = (front ++ ['\r']).length := by
        rw [hlength, List.length_append, List.length_singleton]
      rw [List.append_cons] at hxy
      obtain ⟨rfl, rfl⟩ := List.append_inj hxy hfront
      exact hpair ⟨by simp, rfl⟩
    rw [unify_eq_append hsplit, List.take_left, List.drop_left, List.length_append]

theorem toList_textOf (ts : List Token) :
    (textOf ts).toList = ts.flatMap fun t => t.text.toList := by
  induction ts with
  | nil => rfl
  | cons t ts ih => rw [textOf_cons, String.toList_append, ih, List.flatMap_cons]

/-- How long the texts are when each is changed by itself. -/
def unifiedLength (ts : List Token) : Nat :=
  (ts.flatMap fun t => unify t.text.toList).length

theorem length_unify_textOf_le (ts : List Token) :
    (unify (textOf ts).toList).length ≤ unifiedLength ts := by
  induction ts with
  | nil => exact Nat.le_refl 0
  | cons t ts ih =>
    have happend := length_unify_append_le t.text.toList (textOf ts).toList
    rw [textOf_cons, String.toList_append, unifiedLength, List.flatMap_cons,
      List.length_append]
    unfold unifiedLength at ih
    omega

/-- If nothing is lost between the tokens, no pair is split. -/
theorem keepsPairs_of_unifiedLength {ts : List Token} (hne : ∀ t ∈ ts, t.text ≠ "")
    (h : unifiedLength ts ≤ (unify (textOf ts).toList).length) : KeepsPairs ts := by
  induction ts with
  | nil => exact .nil
  | cons t ts ih =>
    have hrest := length_unify_textOf_le ts
    have happend := length_unify_append_le t.text.toList (textOf ts).toList
    rw [textOf_cons, String.toList_append, unifiedLength, List.flatMap_cons,
      List.length_append] at h
    unfold unifiedLength at hrest ih
    have hchain := ih (fun u hu => hne u (List.mem_cons_of_mem t hu)) (by omega)
    cases ts with
    | nil => exact .singleton t
    | cons u ts =>
      refine .cons_cons ?_ hchain
      rintro ⟨hlast, hhead⟩
      have hbehind : (textOf (u :: ts)).toList.head? = some '\n' := by
        obtain ⟨cs, hcs⟩ := List.head?_eq_some_iff.mp hhead
        rw [textOf_cons, String.toList_append, hcs]
        rfl
      have hlost := length_unify_append_of_pair hlast hbehind
      omega

/-- A bad url is one by itself. -/
theorem kinds_lex_of_badUrl {source : String} {t : Token} (ht : t ∈ lex source)
    (hbad : t.kind = .badUrl) : (lex t.text).map (·.kind) = [.badUrl] := by
  obtain ⟨us, vs, hlex⟩ := List.append_of_mem ht
  obtain ⟨cs, -, hrest⟩ := lexFrom_eq_append hlex
  have hsplit : lexFrom (0 + (textOf us).utf8ByteSize) cs = [t] ++ vs := hrest.symm
  obtain ⟨y, rfl, rfl⟩ := lexFrom_eq_append hsplit
  have hquotes : KeepsQuotes [t] y := by
    rintro ⟨u, hu, hfunction⟩
    obtain rfl : t = u := Option.some.inj hu
    rw [hbad] at hfunction
    cases hfunction
  have hself : cutOff [t] = [t] := by
    refine cutOff_eq_self fun u hu => ?_
    obtain rfl : t = u := Option.some.inj hu
    rw [hbad]
    nofun
  have halone := lexFrom_cut hrest.symm hquotes
  rw [hself, textOf_cons, textOf_nil, String.append_empty, lexFrom_add] at halone
  have hkinds := congrArg (List.map Token.kind) halone
  rwa [List.map_map, List.map_cons, hbad] at hkinds

theorem shapes_unify_iff (source : String) :
    (lex (unifyText source)).map shape = (lex source).map unifiedShape ↔
      KeepsPairs (lex source) ∧ KeepsBadUrls (lex source) := by
  constructor
  · intro h
    constructor
    · refine keepsPairs_of_unifiedLength (fun t ht => text_ne_empty_of_mem_lexFrom ht) ?_
      have hlength := congrArg (fun l => (l.flatMap fun p => p.2.toList).length) h
      simp only [List.flatMap_map, shape, unifiedShape, toList_unifyText] at hlength
      rw [← toList_textOf, textOf_lex, toList_unifyText] at hlength
      rw [textOf_lex]
      exact Nat.le_of_eq hlength.symm
    · intro t ht hbad
      have hmem : unifiedShape t ∈ (lex (unifyText source)).map shape := by
        rw [h]
        exact List.mem_map_of_mem ht
      obtain ⟨u, hu, hshape⟩ := List.mem_map.mp hmem
      obtain ⟨hkind, htext⟩ := Prod.mk.inj hshape
      rw [← htext]
      exact kinds_lex_of_badUrl hu (hkind.trans hbad)
  · intro hkeeps
    rw [lex, toList_unifyText]
    exact lexFrom_unify 0 (.inr hkeeps)

/-- **Line endings do not matter to the tokens, unless an escape takes the CR of a
pair and leaves the LF.** Where no pair stands behind an escape, or where no token
ends inside of one and the bad urls are bad ones still, the kinds are the same;
and exactly then the tokens are the same one by one, each with its text changed. -/
theorem kinds_tokenize_unify (source : String) :
    (¬ EscapesPair source.toList → KeepsPairs (lex source) ∧ KeepsBadUrls (lex source)) ∧
    (KeepsPairs (lex source) ∧ KeepsBadUrls (lex source) →
      (tokenize (unifyText source)).map (·.kind) = (tokenize source).map (·.kind)) ∧
    ((lex (unifyText source)).map shape = (lex source).map unifiedShape ↔
      KeepsPairs (lex source) ∧ KeepsBadUrls (lex source)) := by
  refine ⟨fun hnot => ?_, fun hkeeps => ?_, shapes_unify_iff source⟩
  · rw [← shapes_unify_iff, lex, toList_unifyText]
    exact lexFrom_unify 0 (.inl hnot)
  · have hkinds := congrArg (List.map Prod.fst) ((shapes_unify_iff source).mpr hkeeps)
    rw [List.map_map, List.map_map] at hkinds
    rw [tokenize, tokenize, List.map_append, List.map_append]
    exact congrArg (· ++ [Kind.eof]) hkinds

/-- All forms of line endings in white space, a comment, a url, a broken string and
behind escapes, among them a pair that an escape takes in part. -/
theorem kinds_tokenize_unify_mixed :
    ∃ source, source =
        "a\\61\x0cb/*\r\n*/\r\n\"c\\\rd\\\x0c\"url(\r\n\\65\r\n)'f\r\n" ∧
      (tokenize source).map (·.kind) =
        [.ident, .comment true, .whitespace, .string true, .url true, .badString, .whitespace,
          .eof] ∧
      (tokenize (unifyText source)).map (·.kind) = (tokenize source).map (·.kind) := by
  refine ⟨_, rfl, by decide +kernel, ?_⟩
  refine (kinds_tokenize_unify _).2.1 ⟨?_, ?_⟩
  · unfold KeepsPairs
    decide +kernel
  · unfold KeepsBadUrls
    decide +kernel

/-- An escape takes the CR of a pair, and the LF breaks off the string, ends the
name and makes the url a bad one. With one LF for the pair none of that happens. -/
theorem kinds_changed :
    ((tokenize "\"a\\\r\nb\"").map (·.kind) =
        [.badString, .whitespace, .ident, .string false, .eof] ∧
      (tokenize (unifyText "\"a\\\r\nb\"")).map (·.kind) = [.string true, .eof]) ∧
    ((tokenize "a\\61\r\nb").map (·.kind) = [.ident, .whitespace, .ident, .eof] ∧
      (tokenize (unifyText "a\\61\r\nb")).map (·.kind) = [.ident, .eof]) ∧
    ((tokenize "url(\\61\r\nb)").map (·.kind) = [.badUrl, .eof] ∧
      (tokenize (unifyText "url(\\61\r\nb)")).map (·.kind) = [.url true, .eof]) := by
  decide +kernel

end Token
end StyleScope
