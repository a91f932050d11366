/-
# Tokens that end whatever follows

A token is found in front of a text, and the text behind it is exchanged for
another one. The lexer finds the token again if its end is sure. A mark such as
`>` or a closing parenthesis ends where it does in front of everything
(`isSeal`), and so does a name with its opening parenthesis. A name alone ends
in front of every text that does not go on with it (`isApart`), unless it ends in
an escape that would take white space too (`isClosedName`).

The last token of a piece is the one that matters (`Stands.of_last`), as long as
it hides from those in front what stands behind it.

Key definitions: `Token.isSeal`, `Token.isApart`, `Token.isClosedName`,
`Token.Precedes`, `Token.isShut`, `Token.endsName`.
Key theorems: `Token.Precedes.of_isShut`, `Token.Precedes.of_endsName`,
`Token.Precedes.of_function`, `Selector.Stands.of_last`.
-/
import StyleScope.Proofs.ReadPieces

namespace StyleScope
namespace Token

open Scope (isNameStart_of_isDigit isName_of_isHexDigit isName_of_isSpace ne_backslash_of_isName)
open Text

/-! ### Where a name ends -/

/-- The text goes on with no name in front of it, and opens no parenthesis. -/
def isApart (z : List Char) : Bool :=
  z.head?.all fun c => !isName c && c ≠ '\\' && c ≠ '('

/-- No escape at the end of the name would take white space, and the name hides
what stands behind it. -/
def isClosedName (cs : List Char) : Bool :=
  cs.any isStop && nameLength (cs ++ [' ']) = cs.length

section Apart

variable {x s z : List Char}

theorem isApart_append (h : isApart x) (hz : isApart z) : isApart (x ++ z) := by
  cases x with
  | nil => exact hz
  | cons c x => exact h

theorem isApart_iff : isApart z ↔ ∀ c ∈ z.head?, isName c = false ∧ c ≠ '\\' ∧ c ≠ '(' := by
  cases z with
  | nil => simp [isApart]
  | cons c z => simp [isApart, and_assoc]

theorem hexTailLength_exchange (hz : ∀ c ∈ z.head?, isName c = false)
    (hspace : z.head?.any isSpace → s.head?.any isSpace) {n : Nat}
    (h : hexTailLength n (x ++ s) ≤ x.length) :
    hexTailLength n (x ++ z) = hexTailLength n (x ++ s) := by
  induction x generalizing n with
  | nil =>
    have hs : hexTailLength n s = 0 := Nat.le_zero.mp h
    rw [List.nil_append, List.nil_append, hs]
    rw [hexTailLength_eq_zero_iff] at hs ⊢
    cases z with
    | nil => rfl
    | cons c z =>
      have hname := hz c rfl
      have hhex : isHexDigit c = false := by
        by_contra hn
        rw [isName_of_isHexDigit (by simpa using hn)] at hname
        cases hname
      by_contra hc
      have hsome := hspace (by simpa [hhex] using hc)
      cases s with
      | nil => cases hsome
      | cons d s =>
        rw [List.head?_cons, Option.any_some] at hs hsome
        rw [hsome] at hs
        cases hs
  | cons c x ih =>
    cases n with
    | zero => rfl
    | succ n =>
      simp only [List.cons_append, hexTailLength, List.length_cons] at h ⊢
      split
      next hc =>
        rw [if_pos hc] at h
        rw [ih (by omega)]
      next => rfl

/-- A name that ends in front of one text ends in front of another that does not go
on with it, unless the white space there could end its last escape. -/
theorem nameLength_exchange (hz : ∀ c ∈ z.head?, isName c = false ∧ c ≠ '\\')
    (hspace : z.head?.any isSpace → s.head?.any isSpace)
    (h : nameLength (x ++ s) = x.length) : nameLength (x ++ z) = x.length := by
  have hname : ∀ c ∈ z.head?, isName c = false := fun c hc => (hz c hc).1
  have hnil : nameLength z = 0 := by
    cases z with
    | nil => rw [nameLength]
    | cons c z =>
      obtain ⟨hc, hne⟩ := hz c rfl
      rw [nameLength, if_neg (by simp [hc]), if_neg (by simp [hne])]
  generalize hxs : x ++ s = cs at h
  fun_induction nameLength cs generalizing x with
  | case1 =>
    obtain ⟨rfl, -⟩ := List.append_eq_nil_iff.mp hxs
    exact hnil
  | case2 c cs hc ih =>
    obtain ⟨x, rfl, rfl⟩ := exists_cons_of_append hxs (by omega)
    rw [List.length_cons] at h
    rw [List.cons_append, nameLength, if_pos hc, ih rfl (by omega), List.length_cons, Nat.add_comm]
  | case3 c cs hc he ih =>
    obtain ⟨x, rfl, rfl⟩ := exists_cons_of_append hxs (by omega)
    rw [List.length_cons, Nat.add_assoc, Nat.add_comm] at h
    obtain ⟨rfl, hescapes⟩ : c = '\\' ∧ escapes (x ++ s) := by simpa using he
    have hle : escapeLength (x ++ s) ≤ x.length := by omega
    have hcut := escapes_cut hle hescapes
    have hlength : escapeLength (x ++ z) = escapeLength (x ++ s) := by
      cases x with
      | nil => cases hcut
      | cons d x =>
        simp only [List.cons_append, escapeLength, List.length_cons] at hle ⊢
        split
        next hd =>
          rw [if_pos hd] at hle
          rw [hexTailLength_exchange hname hspace (by omega)]
        next => rfl
    have hrest := ih (List.drop_append_of_le_length hle).symm (by
      rw [List.length_drop]
      omega)
    rw [List.cons_append, nameLength, if_neg (by decide), if_pos (by simp [escapes_mono z hcut]),
      hlength, List.drop_append_of_le_length hle, hrest, List.length_drop, List.length_cons]
    omega
  | case4 =>
    obtain rfl := List.eq_nil_of_length_eq_zero h.symm
    exact hnil

theorem nameLength_of_isClosedName (hx : isClosedName x) (hz : isApart z) :
    nameLength (x ++ z) = x.length := by
  rw [isClosedName, Bool.and_eq_true, decide_eq_true_eq] at hx
  refine nameLength_exchange (fun c hc => ?_) (fun _ => rfl) hx.2
  obtain ⟨hname, hslash, -⟩ := isApart_iff.mp hz c hc
  exact ⟨hname, hslash⟩

/-- A name ends in front of a mark. -/
theorem nameLength_append_of_not_space (hx : nameLength x = x.length) (hz : isApart z)
    (hspace : z.head?.any isSpace = false) : nameLength (x ++ z) = x.length := by
  refine nameLength_exchange (s := []) (fun c hc => ?_) (fun h => ?_) ?_
  · obtain ⟨hname, hslash, -⟩ := isApart_iff.mp hz c hc
    exact ⟨hname, hslash⟩
  · rw [hspace] at h
    cases h
  · rwa [List.append_nil]

theorem hides_of_any (h : x.any isStop) : Hides x := by
  obtain ⟨c, hc, hstop⟩ := List.any_eq_true.mp h
  obtain ⟨front, back, rfl⟩ := List.append_of_mem hc
  exact (hides_of_isStop hstop back).append_left front

end Apart

/-! ### Names -/

section Names

variable {c : Char} {cs w y z : List Char}

/-- The name is no start of the mark `-->`. -/
theorem isPrefixOf_of_isNamed (h : (scan c cs).kind.isNamed) :
    ['-', '-', '>'].isPrefixOf (c :: cs) = false := by
  by_contra hcdc
  rw [Bool.not_eq_false, List.isPrefixOf_iff_prefix] at hcdc
  obtain ⟨rest, hrest⟩ := hcdc
  obtain ⟨rfl, rfl⟩ := List.cons.inj hrest
  cases h

theorem startsDigit_of_startsName (h : startsName cs) : startsDigit cs = false := by
  cases cs with
  | nil => rfl
  | cons c cs =>
    by_contra hd
    have hdigit : isDigit c := by simpa [startsDigit] using hd
    have hyphen : c ≠ '-' := by
      rintro rfl
      cases hdigit
    have hslash : c ≠ '\\' := by
      rintro rfl
      cases hdigit
    rw [startsName, if_neg hyphen, if_neg hslash, isNameStart_of_isDigit hdigit] at h
    cases h

/-- No name starts a number. -/
theorem startsNumber_of_startsName (h : startsName (c :: cs)) : startsNumber (c :: cs) = false := by
  have hdigit := startsDigit_of_startsName h
  rw [startsName] at h
  by_cases hc : c = '-'
  · rw [if_pos hc] at h
    have hbehind : startsDigit cs = false := by
      have := Scope.head?_of_continuesHyphen h
      cases cs with
      | nil => rfl
      | cons d cs => exact this
    have hfraction : startsFraction cs = false := by
      by_contra hn
      cases cs with
      | nil => exact hn rfl
      | cons d cs =>
        obtain ⟨rfl, -⟩ : d = '.' ∧ _ := by simpa [startsFraction] using hn
        cases h
    rw [startsNumber, if_pos (by rw [hc]; rfl), hbehind, hfraction]
    rfl
  · rw [if_neg hc] at h
    have hplus : c ≠ '+' := by
      rintro rfl
      cases h
    have hdot : c ≠ '.' := by
      rintro rfl
      cases h
    simp [startsNumber, isSign, hc, hplus, hdot, hdigit, startsFraction]

/-- A dot in front of a name is a token. -/
theorem scan_dot (h : startsName cs) : scan '.' cs = ⟨.delim '.', 1⟩ := by
  have hnumber : startsNumber ('.' :: cs) = false := by
    rw [startsNumber, if_neg (by decide), startsFraction, startsDigit_of_startsName h]
    rfl
  have hname : startsName ('.' :: cs) = false := by
    rw [startsName, if_neg (by decide), if_neg (by decide)]
    decide
  rw [scan, if_neg (by simp), if_neg (by decide), if_neg (by decide), if_neg (by decide),
    if_neg (by simp [hnumber]), if_neg (by simp), if_neg (by simp), if_neg (by decide),
    if_neg (by simp [hname])]
  rfl

/-- Where a name starts, it is read. -/
theorem scan_of_startsName (h : startsName (c :: cs))
    (hcdc : ['-', '-', '>'].isPrefixOf (c :: cs) = false) : scan c cs = scanNamed (c :: cs) := by
  have hne {d : Char} (hd : startsName (d :: cs) = false) : c ≠ d := by
    rintro rfl
    rw [hd] at h
    cases h
  have hspace : isSpace c = false := by
    simp [isSpace, hne (d := '\n') rfl, hne (d := '\t') rfl, hne (d := ' ') rfl,
      hne (d := '\r') rfl, hne (d := '\x0c') rfl]
  have hquote : isQuote c = false := by
    simp [isQuote, hne (d := '"') rfl, hne (d := '\x27') rfl]
  have hmark : (c = '-' && ['-', '>'].isPrefixOf cs) = false := by
    rw [← hcdc, List.isPrefixOf_cons_cons]
    exact congrArg (· && _) (decide_eq_decide.mpr eq_comm)
  unfold scan
  rw [if_neg (by simp [hne (d := '/') rfl]), if_neg (by simp [hspace]), if_neg (by simp [hquote]),
    if_neg (hne rfl), if_neg (by simp [startsNumber_of_startsName h]), if_neg (by simp [hmark]),
    if_neg (by simp [hne (d := '<') rfl]), if_neg (hne rfl), if_pos h]

/-- A name that was read is read in front of another text, with what that makes of
it. -/
theorem scan_of_hides (h : (scan c (w ++ y)).kind.isNamed) (hides : Hides (c :: w)) :
    startsName (c :: (w ++ z)) ∧ scan c (w ++ z) = scanNamed (c :: (w ++ z)) := by
  obtain ⟨hstarts, -⟩ := scan_of_isNamed h
  have hcdc := isPrefixOf_of_isNamed h
  have hstarts' : startsName (c :: (w ++ z)) := by
    rw [← hstarts]
    exact startsName_alike (hides y z)
  refine ⟨hstarts', scan_of_startsName hstarts' ?_⟩
  rw [← hcdc]
  exact isPrefixOf_alike ['-', '-', '>'] rfl rfl (hides y z)

/-- In front of a text that does not go on with it a name is an identifier. -/
theorem scanNamed_of_isApart {x : List Char} (hx : nameLength (x ++ z) = x.length)
    (hz : isApart z) : scanNamed (x ++ z) = ⟨.ident, x.length⟩ := by
  rw [scanNamed_eq, hx, List.drop_left]
  cases z with
  | nil => rfl
  | cons d z => rw [nameBefore, if_neg (isApart_iff.mp hz d rfl).2.2]

/-- In front of its opening parenthesis it is a function, unless it is `url`. -/
theorem scanNamed_of_paren {x : List Char} (hx : nameLength (x ++ '(' :: z) = x.length)
    (hurl : sameWord (String.ofList x) "url" = false) :
    scanNamed (x ++ '(' :: z) = ⟨.function, x.length + 1⟩ := by
  rw [scanNamed_eq, hx, List.drop_left, List.take_left, hurl, nameBefore, if_pos rfl]
  rfl

/-- The parenthesis behind a function stands right behind its name. -/
theorem length_of_nameBefore_eq_function {isUrl : Bool} {x : List Char} {n : Nat}
    (h : nameBefore isUrl n ((x ++ '(' :: y).drop n) = ⟨.function, x.length + 1⟩) :
    n = x.length := by
  cases hd : (x ++ '(' :: y).drop n with
  | nil =>
    rw [hd] at h
    cases h
  | cons d rest =>
    rw [hd] at h
    by_cases hparen : d = '('
    · subst hparen
      have hle := lt_length_nameBefore isUrl n rest
      rw [h] at hle
      dsimp only at hle
      by_contra hne
      -- the name ends at a parenthesis in front of this one, so there is white space between
      obtain ⟨v, hv, rfl⟩ := exists_drop_eq_cons (by omega) hd
      have hrun : runLength isSpace (v ++ '(' :: y) ≤ v.length := by
        rw [runLength_append v rfl, runLength]
        exact (List.takeWhile_sublist _).length_le
      have hsize := congrArg List.length hv
      rw [List.length_drop, List.length_cons] at hsize
      have hends := congrArg Lexeme.length h
      have hkind := congrArg Lexeme.kind h
      rw [nameBefore, if_pos rfl] at hends hkind
      split at hends
      · split at hends
        · dsimp only at hends
          omega
        next hurl hquote =>
          rw [if_pos hurl, if_neg hquote, Lexeme.kind_extend] at hkind
          rcases scanUrl_ends ((v ++ '(' :: y).drop (runLength isSpace (v ++ '(' :: y))) with
            hbad | ⟨terminated, -, hk, -⟩
          · cases hbad.symm.trans hkind
          · cases hk.symm.trans hkind
      · dsimp only at hends
        omega
    · rw [nameBefore, if_neg hparen] at h
      cases h

end Names

/-! ### Tokens in front of a text -/

/-- The lexer finds the token in front of the text. -/
def Precedes (t : Token) (z : List Char) : Prop :=
  ∃ c w, t.text.toList = c :: w ∧ scan c (w ++ z) = ⟨t.kind, (c :: w).length⟩

/-- The characters that are a token in front of every text. -/
def isSeal (c : Char) : Bool :=
  c ∈ [')', ']', ',', '>', '~', '*', '&']

/-- The token ends where it does whatever follows. -/
def isShut (t : Token) : Bool :=
  t.kind.char?.any isSeal

/-- The token ends in a name that ends in front of every text that does not go on
with it. -/
def endsName (t : Token) : Bool :=
  match t.kind with
  | .ident => isClosedName t.text.toList
  | .hash _ => isClosedName t.text.toList.tail
  | _ => false

theorem scan_of_isSeal {c : Char} (h : isSeal c) (cs : List Char) :
    scan c cs = ⟨(punctuation? c).getD (.delim c), 1⟩ := by
  simp only [isSeal, List.mem_cons, List.not_mem_nil, or_false, decide_eq_true_eq] at h
  rcases h with rfl | rfl | rfl | rfl | rfl | rfl | rfl <;> rfl

theorem Precedes.isSpelled {t : Token} {z : List Char} (h : t.Precedes z) : t.IsSpelled := by
  obtain ⟨c, w, htext, hscan⟩ := h
  have hspells := spells_scan c (w ++ z)
  rw [hscan, ← List.cons_append, List.take_left] at hspells
  rwa [IsSpelled, htext]

theorem exists_of_isShut {t : Token} (hs : t.IsSpelled) (h : t.isShut) :
    ∃ c, t.text.toList = [c] ∧ isSeal c := by
  rw [isShut, Option.any_eq_true] at h
  obtain ⟨c, hk, hc⟩ := h
  exact ⟨c, by rw [hs.text_eq hk, String.toList_singleton], hc⟩

theorem hides_of_isShut {t : Token} (hs : t.IsSpelled) (h : t.isShut) : Hides t.text.toList := by
  obtain ⟨c, htext, hc⟩ := exists_of_isShut hs h
  rw [htext]
  refine hides_of_isStop ?_ []
  simp only [isSeal, List.mem_cons, List.not_mem_nil, or_false, decide_eq_true_eq] at hc
  rcases hc with rfl | rfl | rfl | rfl | rfl | rfl | rfl <;> rfl

theorem hides_of_endsName {t : Token} (h : t.endsName) : Hides t.text.toList := by
  have hany {cs : List Char} (hc : isClosedName cs) : cs.any isStop :=
    ((Bool.and_eq_true _ _).mp hc).1
  unfold endsName at h
  split at h
  next => exact hides_of_any (hany h)
  next =>
    cases htext : t.text.toList with
    | nil =>
      rw [htext] at h
      cases h
    | cons c w =>
      rw [htext] at h
      exact (hides_of_any (hany h)).append_left [c]
  next => cases h

namespace Precedes

variable {t : Token} {y z : List Char}

theorem of_isShut (h : t.Precedes y) (ht : t.isShut) (z : List Char) : t.Precedes z := by
  have hspelled := h.isSpelled
  obtain ⟨c, w, htext, hscan⟩ := h
  obtain ⟨d, hd, hseal⟩ := exists_of_isShut hspelled ht
  obtain ⟨rfl, rfl⟩ := List.cons.inj (htext.symm.trans hd)
  rw [scan_of_isSeal hseal] at hscan
  exact ⟨c, [], htext, (scan_of_isSeal hseal _).trans hscan⟩

/-- A hash is found in front of every text that its name ends in front of. -/
theorem of_hash {isIdent : Bool} (h : t.Precedes y) (hk : t.kind = .hash isIdent)
    (hz : nameLength (t.text.toList.tail ++ z) = t.text.toList.tail.length)
    (hne : t.text.toList.tail ≠ []) : t.Precedes z := by
  obtain ⟨c, w, htext, hscan⟩ := h
  have hkind : (scan c (w ++ y)).kind = .hash isIdent := by rw [hscan, hk]
  have hsharp : c = '#' := by
    obtain ⟨cs, hcs⟩ : ∃ cs, _ = '#' :: cs := hkind ▸ spells_scan c (w ++ y)
    rw [hscan, List.length_cons, List.take_succ_cons] at hcs
    exact (List.cons.inj hcs).1
  obtain ⟨hlength, hident⟩ := (finds_scan c (w ++ y)).of_hash hkind
  rw [hscan, List.length_cons] at hlength
  dsimp only at hlength
  rw [htext, List.tail_cons] at hz hne
  have hw : startsHash w := by
    by_contra hn
    have hlength := nameLength_cut (x := w) (y := y) (by omega)
    rw [nameLength_of_not_startsHash (by simpa using hn)] at hlength
    have := List.length_pos_iff.mpr hne
    omega
  have hstarts : startsName (w ++ z) = isIdent := by
    rw [hident, Bool.eq_iff_iff]
    have hcut {v : List Char} (hv : nameLength (w ++ v) ≤ w.length) :
        startsName (w ++ v) ↔ startsName w :=
      ⟨startsName_cut hv, startsName_mono v⟩
    rw [hcut (Nat.le_of_eq hz), hcut (by omega)]
  refine ⟨c, w, htext, ?_⟩
  subst hsharp
  rw [scan, if_neg (by simp), if_neg (by decide), if_neg (by decide), if_pos rfl,
    if_pos (startsHash_mono z hw), hstarts, hz, hk, List.length_cons, Nat.add_comm]

/-- A closed name is found in front of every text that does not go on with it. -/
theorem of_endsName (h : t.Precedes y) (ht : t.endsName) (hz : isApart z) : t.Precedes z := by
  have hides := hides_of_endsName ht
  unfold endsName at ht
  split at ht
  next hk =>
    obtain ⟨c, w, htext, hscan⟩ := h
    rw [htext] at hides ht
    have hnamed : (scan c (w ++ y)).kind.isNamed := by
      rw [hscan, hk]
      rfl
    refine ⟨c, w, htext, ?_⟩
    rw [(scan_of_hides hnamed hides).2, ← List.cons_append,
      scanNamed_of_isApart (nameLength_of_isClosedName ht hz) hz, hk]
  next hk =>
    refine h.of_hash hk (nameLength_of_isClosedName ht hz) ?_
    intro hnil
    rw [hnil] at ht
    cases ht
  next => cases ht

/-- A function is found in front of every text, unless it is `url`. -/
theorem of_function {x : List Char} (h : t.Precedes y) (hk : t.kind = .function)
    (htext : t.text.toList = x ++ ['(']) (hurl : sameWord (String.ofList x) "url" = false)
    (z : List Char) : t.Precedes z := by
  obtain ⟨c, w, hcw, hscan⟩ := h
  have hides : Hides (c :: w) := by
    rw [← hcw, htext]
    exact (hides_of_isStop (c := '(') rfl []).append_left x
  have hsplit (v : List Char) : c :: (w ++ v) = x ++ '(' :: v := by
    rw [← List.cons_append, ← hcw, htext, List.append_assoc, List.singleton_append]
  have hnamed : (scan c (w ++ y)).kind.isNamed := by
    rw [hscan, hk]
    rfl
  have hlength : (c :: w).length = x.length + 1 := by
    rw [← hcw, htext, List.length_append, List.length_singleton]
  rw [(scan_of_isNamed hnamed).2, hsplit, scanNamed_eq, hlength, hk] at hscan
  have hname := length_of_nameBefore_eq_function hscan
  refine ⟨c, w, hcw, ?_⟩
  rw [(scan_of_hides hnamed hides).2, hsplit, hlength, hk, scanNamed_of_paren _ hurl]
  rw [nameLength_alike (.stop 2 y z rfl) (Nat.le_of_eq hname), hname]

/-- A name is found in front of a closing parenthesis. -/
theorem of_isName {name : String} (hn : IsName name.toList) (o : Nat) (z : List Char) :
    (⟨.ident, name, o⟩ : Token).Precedes (')' :: z) := by
  have hlength := nameLength_append_of_not_space (z := ')' :: z) hn.length rfl rfl
  cases hname : name.toList with
  | nil =>
    have hstarts := hn.starts
    rw [hname] at hstarts
    cases hstarts
  | cons c w =>
    rw [hname] at hlength
    have hstarts : startsName (c :: (w ++ ')' :: z)) := by
      rw [← List.cons_append, ← hname]
      exact startsName_mono _ hn.starts
    have hcdc : ['-', '-', '>'].isPrefixOf (c :: (w ++ ')' :: z)) = false := by
      by_contra hcdc
      rw [Bool.not_eq_false, List.isPrefixOf_iff_prefix] at hcdc
      obtain ⟨rest, hrest⟩ := hcdc
      rw [List.cons_append, ← hrest] at hlength
      have htwo : nameLength (['-', '-', '>'] ++ rest) = 2 := by
        simp [nameLength, isName, isNameStart, isLetter, isAscii, isDigit]
      rw [htwo, List.length_cons] at hlength
      obtain ⟨d, rfl⟩ := List.length_eq_one_iff.mp (by omega : w.length = 1)
      cases hrest
    refine ⟨c, w, hname, ?_⟩
    rw [scan_of_startsName hstarts hcdc, ← List.cons_append, scanNamed_of_isApart hlength rfl]

end Precedes

/-- The lexer reads the token and goes on behind it. -/
theorem lexFrom_of_precedes {t : Token} {z : List Char} (h : t.Precedes z) :
    lexFrom t.start (t.text.toList ++ z) = t :: lexFrom (t.start + t.text.utf8ByteSize) z := by
  obtain ⟨c, w, htext, hscan⟩ := h
  have hself : String.ofList (c :: w) = t.text := by rw [← htext, String.ofList_toList]
  rw [htext, List.cons_append, lexFrom_cons (by rw [hscan]), hscan, hself]

theorem precedes_of_lexFrom {start : Nat} {t : Token} {z : List Char} {ts : List Token}
    (h : lexFrom start (t.text.toList ++ z) = t :: ts) : t.Precedes z := by
  obtain ⟨c, w, z', hcs, hlength, ht, -⟩ := exists_of_lexFrom_eq_cons h
  have htext : t.text.toList = c :: w := by rw [ht, String.toList_ofList]
  rw [htext, List.cons_append] at hcs
  obtain rfl := List.append_cancel_left (List.cons.inj hcs).2
  refine ⟨c, w, htext, ?_⟩
  rw [← hlength, ht]

end Token

namespace Selector

open Token (Hides IsName Precedes lexFrom nameLength scan textOf)

/-! ### Tokens of a piece -/

namespace Stands

variable {tokens : Nat → List Token} {last : Token} {y z : List Char}

theorem precedes (h : Stands tokens y) (ht : (tokens 0).getLast? = some last) :
    last.Precedes y := by
  obtain ⟨init, hinit⟩ := List.getLast?_eq_some_iff.mp ht
  obtain ⟨rest, hreads⟩ := h.reads
  rw [hinit, List.append_assoc, Token.textOf_append, String.toList_append, List.append_assoc,
    Token.textOf_cons, Token.textOf_nil, String.append_empty] at hreads
  obtain ⟨cs, hcs, hrest⟩ := Token.lexFrom_eq_append hreads
  obtain rfl := List.append_cancel_left hcs
  exact Token.precedes_of_lexFrom hrest.symm

/-- **If the last of its tokens is found in front of another text, so are all.** -/
theorem of_last (h : Stands tokens y) (ht : (tokens 0).getLast? = some last)
    (hides : Hides last.text.toList) (hz : last.Precedes z) : Stands tokens z := by
  obtain ⟨init, hinit⟩ := List.getLast?_eq_some_iff.mp ht
  obtain ⟨rest, hreads⟩ := h.reads
  refine ⟨h.moves, h.starts, ?_⟩
  have htext (v : List Char) : (textOf (tokens 0)).toList ++ v =
      (textOf init).toList ++ (last.text.toList ++ v) := by
    rw [hinit, Token.textOf_append, String.toList_append, List.append_assoc, Token.textOf_cons,
      Token.textOf_nil, String.append_empty]
  rw [htext, hinit, List.append_assoc] at hreads
  obtain ⟨cs, hcs, hrest⟩ := Token.lexFrom_eq_append hreads
  have hstart := start_of_lexFrom hrest.symm
  have hyields : Token.Yields (last.text.toList ++ y) (last.text.toList ++ z) := (hides y z).yields
  rw [htext, Token.lexFrom_yields hyields hreads, ← hstart, Token.lexFrom_of_precedes hz, hinit]
  exact ⟨_, List.append_cons ..⟩

/-- A piece that is one token. -/
theorem single {kind : Token.Kind} {text : String} (hk : (⟨kind, text, 0⟩ : Token).isTrivia = false)
    (h : (⟨kind, text, 0⟩ : Token).Precedes z) : Stands (fun o => [⟨kind, text, o⟩]) z := by
  refine ⟨fun o => by simp [Token.relocate], ⟨_, [], rfl, hk⟩, lexFrom text.utf8ByteSize z, ?_⟩
  have hread := Token.lexFrom_of_precedes h
  rw [Nat.zero_add] at hread
  simpa using hread

/-- A piece that is two tokens. -/
theorem pair {t u : Token} (hm : ∀ o, tokens o = (tokens 0).map (Token.relocate (· + o)))
    (htokens : tokens 0 = [t, u]) (hstart : t.start = 0) (hnext : u.start = t.text.utf8ByteSize)
    (htrivia : t.isTrivia = false) (ht : t.Precedes (u.text.toList ++ z)) (hu : u.Precedes z) :
    Stands tokens z := by
  refine ⟨hm, ⟨t, [u], htokens, htrivia⟩, lexFrom (u.start + u.text.utf8ByteSize) z, ?_⟩
  have hfirst := Token.lexFrom_of_precedes ht
  rw [hstart, Nat.zero_add, ← hnext, Token.lexFrom_of_precedes hu] at hfirst
  rw [htokens]
  simpa using hfirst

end Stands

theorem stands_close (z : List Char) : Stands (fun o => [⟨.rightParen, ")", o⟩]) z :=
  .single rfl ⟨')', [], rfl, rfl⟩

theorem stands_comma (z : List Char) : Stands (fun o => [⟨.comma, ",", o⟩]) z :=
  .single rfl ⟨',', [], rfl, rfl⟩

/-- The start of a pseudo-class stands in front of every text. -/
theorem stands_opening {name : String} {y : List Char} (hn : name.toList.head? = some ':')
    (ho : (Kind.pseudo name true).isOrdinary) (h : Stands ((Kind.pseudo name true).tokens "") y)
    (z : List Char) : Stands ((Kind.pseudo name true).tokens "") z := by
  obtain ⟨colons, cs, o, second, hname, htokens, hsecond⟩ := exists_pseudoTokens hn true 0
  have hlast : ((Kind.pseudo name true).tokens "" 0).getLast? =
      some (pseudoTokens.word true o cs) := by
    rw [Kind.tokens, htokens, ← List.cons_append, List.getLast?_concat]
  have htext : (pseudoTokens.word true o cs).text.toList = cs ++ ['('] := by
    simp [pseudoTokens.word]
  have hurl : Text.sameWord (String.ofList cs) "url" = false := by
    rw [Kind.isOrdinary, Bool.not_eq_true', Bool.or_eq_false_iff] at ho
    by_contra hurl
    rw [Bool.not_eq_false, Text.sameWord_iff] at hurl
    have hword (word : String) (hw : word.toList.map Char.toLower =
        (":" ++ colons).toList.map Char.toLower ++ "url".toList.map Char.toLower) :
        Text.sameWord name word := by
      rw [Text.sameWord_iff, hname, hw, ← hurl, String.toList_append, List.map_append]
    rcases hsecond with ⟨-, rfl⟩ | ⟨-, rfl⟩
    · exact absurd (hword ":url" rfl) (by simp [ho.1])
    · exact absurd (hword "::url" rfl) (by simp [ho.2])
  refine h.of_last hlast ?_ ((h.precedes hlast).of_function rfl htext hurl z)
  rw [htext]
  exact (Token.hides_of_isStop (c := '(') rfl []).append_left cs

/-- The mark of local scope stands in front of every text. -/
theorem stands_localScope (z : List Char) :
    Stands ((Kind.pseudo Scope.Keyword.localScope.text true).tokens "") z := by
  have hname : nameLength ("local".toList ++ '(' :: z) = "local".toList.length := by
    simp [nameLength, Text.isName, Text.isNameStart, Text.isLetter, Text.isAscii, Text.isDigit]
  have hword : (⟨.function, "local(", 1⟩ : Token).Precedes z := by
    refine ⟨'l', "ocal(".toList, rfl, ?_⟩
    rw [Token.scan_of_startsName rfl rfl]
    exact Token.scanNamed_of_paren hname (by decide)
  exact .pair (tokens_eq_map _ "") rfl rfl rfl rfl ⟨':', [], rfl, rfl⟩ hword

/-! ### Classes and ids -/

theorem splitEnding_eq_or (name after : String) : (splitEnding name after).1 = "" ∨
    ∃ c, Text.isSpace c ∧ (splitEnding name after).1 = String.singleton c := by
  unfold splitEnding
  split
  · exact .inl rfl
  next c cs _ =>
    split
    next hc => exact .inr ⟨c, ((Bool.and_eq_true _ _).mp hc).1, rfl⟩
    next => exact .inl rfl

/-- The end of a closed name is no white space. -/
theorem splitEnding_of_isClosedName {name : String} (h : Token.isClosedName name.toList)
    (after : String) : splitEnding name after = ("", after) := by
  unfold splitEnding
  split
  next hnil => rw [String.toList_eq_nil_iff.mp hnil]
  next c cs heq =>
    rw [if_neg]
    intro hc
    obtain ⟨hspace, hlength⟩ : Text.isSpace c ∧ nameLength (name.toList ++ [c]) = _ := by
      simpa using hc
    have hapart : Token.isApart [c] := by
      simp only [Text.isSpace, Bool.or_eq_true, decide_eq_true_eq] at hspace
      rcases hspace with (((rfl | rfl) | rfl) | rfl) | rfl <;> rfl
    rw [Token.nameLength_of_isClosedName h hapart] at hlength
    omega

/-- An even number of backslashes stands at the end of a whole name. -/
theorem endSlashes_of_nameLength {cs : List Char} (h : nameLength cs = cs.length) :
    Token.endSlashes cs % 2 = 0 := by
  fun_induction nameLength cs with
  | case1 => rfl
  | case2 c cs hc ih =>
    rw [List.length_cons] at h
    have hself : Token.endSlashes [c] = 0 :=
      Token.endSlashes_of_getLast? rfl (Scope.ne_backslash_of_isName hc)
    rw [← List.singleton_append, Token.endSlashes_append_mod cs (by rw [hself]), ih (by omega)]
  | case3 c cs _ he ih =>
    obtain ⟨rfl, hescapes⟩ : c = '\\' ∧ Token.escapes cs := by simpa using he
    have hne : cs ≠ [] := by
      rintro rfl
      cases hescapes
    have hle := Token.escapeLength_le cs
    rw [List.length_cons] at h
    rw [← List.take_append_drop (Token.escapeLength cs) cs, ← List.cons_append,
      Token.endSlashes_append_mod _ (Token.endSlashes_escape hne)]
    refine ih ?_
    rw [List.length_drop]
    omega
  | case4 c cs => cases h

/-- What was read as the name of a class is a name, without the white space at its
end too. -/
theorem isName_of_stands {name after : String} {y : List Char}
    (hw : nameLength name.toList = name.toList.length)
    (h : Stands ((Kind.className name).tokens (splitEnding name after).1) y) :
    IsName name.toList := by
  have hlast : ((Kind.className name).tokens (splitEnding name after).1 0).getLast? =
      some ⟨.ident, name ++ (splitEnding name after).1, 1⟩ := rfl
  obtain ⟨c, w, htext, hscan⟩ := h.precedes hlast
  have hident : (scan c (w ++ y)).kind = .ident := by rw [hscan]
  obtain ⟨hstarts, hlength⟩ := (Token.finds_scan c (w ++ y)).of_ident hident
  rw [hscan, ← List.cons_append] at hlength
  have hcut := Token.startsName_cut (x := c :: w) (y := y) (Nat.le_of_eq hlength.symm) hstarts
  rw [← htext, String.toList_append] at hcut
  refine ⟨?_, hw⟩
  rcases splitEnding_eq_or name after with hnone | ⟨d, hd, hsome⟩
  · rwa [hnone, String.toList_empty, List.append_nil] at hcut
  · rw [hsome, String.toList_singleton] at hcut
    exact startsName_of_append_space hd (endSlashes_of_nameLength hw) hcut

/-- Under the mark of local scope a class has its own tokens. -/
theorem stands_className {name : String} (hn : IsName name.toList) (z : List Char) :
    Stands ((Kind.className name).tokens "") (')' :: z) := by
  have htokens : (Kind.className name).tokens "" 0 =
      [⟨.delim '.', ".", 0⟩, ⟨.ident, name, 1⟩] := by
    rw [Kind.tokens, String.append_empty]
  have hdot : (⟨.delim '.', ".", 0⟩ : Token).Precedes (name.toList ++ ')' :: z) :=
    ⟨'.', [], rfl, Token.scan_dot (Token.startsName_mono (')' :: z) hn.starts)⟩
  exact .pair (tokens_eq_map _ "") htokens rfl rfl rfl hdot (.of_isName hn 1 z)

theorem stands_idName {name : String} (hne : name ≠ "")
    (hw : nameLength name.toList = name.toList.length) (z : List Char) :
    Stands ((Kind.idName name).tokens "") (')' :: z) := by
  have hlength := Token.nameLength_append_of_not_space (z := ')' :: z) hw rfl rfl
  have hhash : Token.startsHash name.toList := by
    by_contra hn
    rw [Token.nameLength_of_not_startsHash (by simpa using hn)] at hw
    exact hne (String.toList_eq_nil_iff.mp (List.eq_nil_of_length_eq_zero hw.symm))
  have hstarts : Token.startsName (name.toList ++ ')' :: z) = Token.startsName name.toList := by
    rw [Bool.eq_iff_iff]
    exact ⟨Token.startsName_cut (Nat.le_of_eq hlength), Token.startsName_mono _⟩
  refine .single rfl ⟨'#', name.toList, by simp, ?_⟩
  rw [scan, if_neg (by simp), if_neg (by decide), if_neg (by decide), if_pos rfl,
    if_pos (Token.startsHash_mono _ hhash), hstarts, hlength, List.length_cons, Nat.add_comm]

end Selector
end StyleScope
