/-
# Tokens of a text that is cut out

A text can be cut out of a source between two tokens and read by itself. The
lexer looks ahead, so that its tokens are the same is not plain: cut off behind
`1`, the text `1e5` has another token, and so have `-->` behind its first
hyphen and `\2 b` behind its digit. But then the cut is inside of a token. All
that the lexer looks at to find where a token ends, and that makes a
difference, it takes into the token. `runLength_cut` and its companions say so
of the scanners, and `scan_cut` of the lexer: a token that ends inside of a text
is found there, whatever is cut off behind the text.

There are two exceptions. A string that a newline breaks off, which is not
part of it, is not closed once the newline is cut off (`Lexeme.cutAt`). And
`url(` takes the white space behind it only if a quote follows, so no quote
may be cut off there.

Key definitions: `Token.Lexeme.cutAt`, `Token.cutOff`.
Key theorems: `Token.scan_cut`, `Token.lexFrom_cut`.
-/
import StyleScope.Proofs.Tiling

namespace StyleScope
namespace Token

open Text

/-! ### Looking ahead -/

theorem exists_cons_of_append {x y cs : List Char} {c : Char} (h : x ++ y = c :: cs)
    (hx : 0 < x.length) : ∃ x', x = c :: x' ∧ x' ++ y = cs := by
  cases x with
  | nil => cases hx
  | cons d x =>
    rw [List.cons_append] at h
    obtain ⟨rfl, rfl⟩ := List.cons.inj h
    exact ⟨x, rfl, rfl⟩

/-- Behind what ends before the text does, the text goes on. -/
theorem exists_drop_eq_cons {x y cs : List Char} {c : Char} {n : Nat} (hn : n < x.length)
    (h : (x ++ y).drop n = c :: cs) : ∃ cs', x.drop n = c :: cs' ∧ cs' ++ y = cs := by
  rw [List.drop_append_of_le_length (Nat.le_of_lt hn)] at h
  refine exists_cons_of_append h ?_
  rw [List.length_drop]
  omega

section LookAhead

variable {x : List Char} (y : List Char)

theorem head?_mono {c : Char} (h : x.head? = some c) : (x ++ y).head? = some c := by
  cases x with
  | nil => cases h
  | cons d x => exact h

theorem escapes_mono (h : escapes x) : escapes (x ++ y) := by
  cases x with
  | nil => cases h
  | cons d x => exact h

theorem startsDigit_mono (h : startsDigit x) : startsDigit (x ++ y) := by
  cases x with
  | nil => cases h
  | cons d x => exact h

theorem startsFraction_mono (h : startsFraction x) : startsFraction (x ++ y) := by
  cases x with
  | nil => cases h
  | cons d x =>
    simp only [startsFraction, List.cons_append, Bool.and_eq_true] at h ⊢
    exact ⟨h.1, startsDigit_mono y h.2⟩

theorem startsNumber_mono (h : startsNumber x) : startsNumber (x ++ y) := by
  cases x with
  | nil => cases h
  | cons d x =>
    simp only [startsNumber, List.cons_append] at h ⊢
    split
    next hd =>
      rw [if_pos hd, Bool.or_eq_true] at h
      rw [Bool.or_eq_true]
      exact h.imp (startsDigit_mono y) (startsFraction_mono y)
    next hd =>
      rw [if_neg hd, Bool.or_eq_true] at h
      rw [Bool.or_eq_true]
      exact h.imp (startsDigit_mono y) (startsFraction_mono (x := d :: x) y)

theorem continuesHyphen_mono (h : continuesHyphen x) : continuesHyphen (x ++ y) := by
  cases x with
  | nil => cases h
  | cons d x =>
    simp only [continuesHyphen, List.cons_append, Bool.or_eq_true, Bool.and_eq_true] at h ⊢
    exact h.imp_right fun hd => ⟨hd.1, escapes_mono y hd.2⟩

theorem startsName_mono (h : startsName x) : startsName (x ++ y) := by
  cases x with
  | nil => cases h
  | cons d x =>
    simp only [startsName, List.cons_append] at h ⊢
    split
    next hd =>
      rw [if_pos hd] at h
      exact continuesHyphen_mono y h
    next hd =>
      rw [if_neg hd] at h
      split
      next hd' =>
        rw [if_pos hd'] at h
        exact escapes_mono y h
      next hd' =>
        rw [if_neg hd'] at h
        exact h

theorem startsHash_mono (h : startsHash x) : startsHash (x ++ y) := by
  cases x with
  | nil => cases h
  | cons d x =>
    simp only [startsHash, List.cons_append, Bool.or_eq_true, Bool.and_eq_true] at h ⊢
    exact h.imp_right fun hd => ⟨hd.1, escapes_mono y hd.2⟩

end LookAhead

/-! ### Scanners that end inside -/

section Lengths

variable {x y : List Char}

theorem runLength_cut {p : Char → Bool} (h : runLength p (x ++ y) ≤ x.length) :
    runLength p x = runLength p (x ++ y) := by
  induction x with
  | nil => exact (Nat.le_zero.mp h).symm
  | cons c x ih =>
    by_cases hc : p c
    · have hlength : ∀ z, runLength p (c :: z) = 1 + runLength p z := by
        intro z
        simp [runLength, hc, Nat.add_comm]
      rw [List.cons_append, hlength, List.length_cons] at h
      rw [List.cons_append, hlength, hlength, ih (by omega)]
    · simp [runLength, hc]

theorem hexTailLength_cut {n : Nat} (h : hexTailLength n (x ++ y) ≤ x.length) :
    hexTailLength n x = hexTailLength n (x ++ y) := by
  induction n generalizing x with
  | zero =>
    cases x with
    | nil => exact (Nat.le_zero.mp h).symm
    | cons c x => rfl
  | succ n ih =>
    cases x with
    | nil => exact (Nat.le_zero.mp h).symm
    | cons c x =>
      simp only [List.cons_append, hexTailLength, List.length_cons] at h ⊢
      split
      next hc =>
        rw [if_pos hc] at h
        rw [ih (by omega)]
      next => rfl

theorem escapeLength_cut (h : escapeLength (x ++ y) ≤ x.length) :
    escapeLength x = escapeLength (x ++ y) := by
  cases x with
  | nil => exact (Nat.le_zero.mp h).symm
  | cons c x =>
    simp only [List.cons_append, escapeLength, List.length_cons] at h ⊢
    split
    next hc =>
      rw [if_pos hc] at h
      have htail : hexTailLength 5 (x ++ y) ≤ x.length := by omega
      rw [hexTailLength_cut htail]
    next => rfl

theorem escapeLength_pos {cs : List Char} (h : cs ≠ []) : 0 < escapeLength cs := by
  obtain ⟨c, cs, rfl⟩ := List.exists_cons_of_ne_nil h
  rw [escapeLength]
  split <;> omega

/-- An escape that ends inside starts inside. -/
theorem escapes_cut (hle : escapeLength (x ++ y) ≤ x.length) (h : escapes (x ++ y)) :
    escapes x := by
  cases x with
  | nil =>
    have hne : [] ++ y ≠ [] := by
      intro hnil
      rw [hnil] at h
      cases h
    have hpos := escapeLength_pos hne
    rw [List.length_nil] at hle
    omega
  | cons c x => exact h

theorem nameLength_cut (h : nameLength (x ++ y) ≤ x.length) :
    nameLength x = nameLength (x ++ y) := by
  generalize hxy : x ++ y = cs at h ⊢
  fun_induction nameLength cs generalizing x with
  | case1 =>
    rw [(List.append_eq_nil_iff.mp hxy).1, nameLength]
  | case2 c cs hc ih =>
    obtain ⟨x, rfl, rfl⟩ := exists_cons_of_append hxy (by omega)
    rw [List.length_cons] at h
    rw [nameLength, if_pos hc, ih rfl (by omega)]
  | case3 c cs hn hc ih =>
    obtain ⟨x, rfl, rfl⟩ := exists_cons_of_append hxy (by omega)
    obtain ⟨hbackslash, hescapes⟩ := (Bool.and_eq_true _ _).mp hc
    rw [List.length_cons] at h
    have he : escapeLength (x ++ y) ≤ x.length := by omega
    have hc' : (c = '\\' && escapes x) = true := by
      rw [hbackslash, escapes_cut he hescapes]
      rfl
    have hdrop : (x ++ y).drop (escapeLength (x ++ y)) = x.drop (escapeLength (x ++ y)) ++ y :=
      List.drop_append_of_le_length he
    have hname := ih hdrop.symm (by rw [List.length_drop]; omega)
    rw [nameLength, if_neg hn, if_pos hc', escapeLength_cut he, hname]
  | case4 c cs hn hc =>
    cases x with
    | nil => rw [nameLength]
    | cons d x =>
      rw [List.cons_append] at hxy
      obtain ⟨rfl, rfl⟩ := List.cons.inj hxy
      have hc' : ¬ (d = '\\' && escapes x) = true := by
        intro hx
        obtain ⟨hd, hescapes⟩ := (Bool.and_eq_true _ _).mp hx
        exact hc (by rw [hd, escapes_mono y hescapes]; rfl)
      rw [nameLength, if_neg hn, if_neg hc']

/-- What starts a hash has a name in it. -/
theorem nameLength_pos_of_startsHash {cs : List Char} (h : startsHash cs) :
    0 < nameLength cs := by
  cases cs with
  | nil => cases h
  | cons c cs =>
    rw [nameLength]
    by_cases hn : isName c
    · rw [if_pos hn]
      omega
    · have he : (c = '\\' && escapes cs) = true := by
        simpa only [startsHash, hn, Bool.false_or] using h
      rw [if_neg hn, if_pos he]
      omega

theorem startsHash_of_continuesHyphen {cs : List Char} (h : continuesHyphen cs) :
    startsHash cs := by
  cases cs with
  | nil => cases h
  | cons c cs =>
    simp only [continuesHyphen, Bool.or_eq_true, decide_eq_true_eq] at h
    rw [startsHash, Bool.or_eq_true]
    rcases h with (hn | rfl) | he
    · exact .inl (by simp [isName, hn])
    · exact .inl rfl
    · exact .inr he

/-- A backslash that starts an escape in a name that ends inside. -/
theorem escapes_of_nameLength (hle : nameLength ('\\' :: (x ++ y)) ≤ x.length + 1)
    (h : escapes (x ++ y)) : escapes x := by
  refine escapes_cut ?_ h
  rw [nameLength, if_neg (by decide), if_pos (by rw [h]; rfl)] at hle
  omega

theorem startsHash_cut (hle : nameLength (x ++ y) ≤ x.length) (h : startsHash (x ++ y)) :
    startsHash x := by
  cases x with
  | nil =>
    have hpos := nameLength_pos_of_startsHash h
    rw [List.length_nil] at hle
    omega
  | cons c x =>
    rw [List.cons_append] at h hle
    simp only [startsHash, Bool.or_eq_true, Bool.and_eq_true, decide_eq_true_eq] at h ⊢
    refine h.imp_right fun he => ⟨he.1, ?_⟩
    rw [he.1] at hle
    exact escapes_of_nameLength hle he.2

theorem continuesHyphen_cut (hle : nameLength (x ++ y) ≤ x.length)
    (h : continuesHyphen (x ++ y)) : continuesHyphen x := by
  have hhash := startsHash_cut hle (startsHash_of_continuesHyphen h)
  cases x with
  | nil => cases hhash
  | cons c x =>
    rw [List.cons_append] at h hle
    simp only [continuesHyphen, Bool.or_eq_true, Bool.and_eq_true, decide_eq_true_eq] at h ⊢
    refine h.imp_right fun he => ⟨he.1, ?_⟩
    rw [he.1] at hle
    exact escapes_of_nameLength hle he.2

/-- A name that ends inside starts inside. -/
theorem startsName_cut (hle : nameLength (x ++ y) ≤ x.length) (h : startsName (x ++ y)) :
    startsName x := by
  cases x with
  | nil =>
    cases y with
    | nil => cases h
    | cons c y =>
      have hpos := nameLength_pos h
      rw [List.nil_append, List.length_nil] at hle
      omega
  | cons c x =>
    rw [List.cons_append] at h hle
    rw [startsName] at h ⊢
    by_cases hyphen : c = '-'
    · rw [if_pos hyphen] at h ⊢
      refine continuesHyphen_cut ?_ h
      rw [hyphen, nameLength, if_pos (by decide), List.length_cons] at hle
      omega
    rw [if_neg hyphen] at h ⊢
    by_cases hbackslash : c = '\\'
    · rw [if_pos hbackslash] at h ⊢
      rw [hbackslash] at hle
      exact escapes_of_nameLength hle h
    rw [if_neg hbackslash] at h ⊢
    exact h

/-! ### Numbers that end inside -/

theorem startsDigit_cut (hle : runLength isDigit (x ++ y) ≤ x.length) (h : startsDigit (x ++ y)) :
    startsDigit x := by
  cases x with
  | nil =>
    cases y with
    | nil => cases h
    | cons c y =>
      have hpos := runLength_cons_pos (p := isDigit) y h
      rw [List.nil_append, List.length_nil] at hle
      omega
  | cons c x => exact h

theorem startsFraction_cut (hle : fractionLength (x ++ y) ≤ x.length)
    (h : startsFraction (x ++ y)) : startsFraction x := by
  rw [fractionLength, if_pos h] at hle
  obtain ⟨c, x, rfl⟩ := List.exists_cons_of_length_pos (by omega : 0 < x.length)
  rw [List.cons_append, List.tail_cons, List.length_cons] at hle
  rw [List.cons_append] at h
  simp only [startsFraction, Bool.and_eq_true] at h ⊢
  exact ⟨h.1, startsDigit_cut (by omega) h.2⟩

theorem fractionLength_cut (h : fractionLength (x ++ y) ≤ x.length) :
    fractionLength x = fractionLength (x ++ y) := by
  by_cases hf : startsFraction (x ++ y)
  · have hf' := startsFraction_cut h hf
    rw [fractionLength, if_pos hf] at h
    obtain ⟨c, x, rfl⟩ := List.exists_cons_of_length_pos (by omega : 0 < x.length)
    rw [List.cons_append, List.tail_cons, List.length_cons] at h
    have hrun : runLength isDigit (x ++ y) ≤ x.length := by omega
    rw [fractionLength, fractionLength, if_pos hf, if_pos hf', List.cons_append, List.tail_cons,
      List.tail_cons, runLength_cut hrun]
  · have hf' : ¬ startsFraction x = true := mt (startsFraction_mono y) hf
    rw [fractionLength, fractionLength, if_neg hf, if_neg hf']

theorem signLength_cut (h : signLength (x ++ y) ≤ x.length) :
    signLength x = signLength (x ++ y) := by
  cases x with
  | nil => exact (Nat.le_zero.mp h).symm
  | cons c x => rfl

theorem exponentLength_cut (h : exponentLength (x ++ y) ≤ x.length) :
    exponentLength x = exponentLength (x ++ y) := by
  cases x with
  | nil => exact (Nat.le_zero.mp h).symm
  | cons c x =>
    rw [List.cons_append] at h ⊢
    rw [exponentLength] at h ⊢
    rw [exponentLength]
    by_cases hc : ((c = 'e' || c = 'E') &&
        startsDigit ((x ++ y).drop (signLength (x ++ y)))) = true
    · rw [if_pos hc, List.length_cons] at h
      have hsign : signLength (x ++ y) ≤ x.length := by omega
      rw [List.drop_append_of_le_length hsign] at h hc ⊢
      have hrun : runLength isDigit (x.drop (signLength (x ++ y)) ++ y) ≤
          (x.drop (signLength (x ++ y))).length := by
        rw [List.length_drop]
        omega
      obtain ⟨he, hd⟩ := (Bool.and_eq_true _ _).mp hc
      have hc' : ((c = 'e' || c = 'E') &&
          startsDigit (x.drop (signLength (x ++ y)))) = true := by
        rw [he, startsDigit_cut hrun hd]
        rfl
      rw [signLength_cut hsign, if_pos hc', if_pos hc, runLength_cut hrun]
    · have hc' : ¬ ((c = 'e' || c = 'E') && startsDigit (x.drop (signLength x))) = true := by
        intro hx
        obtain ⟨he, hd⟩ := (Bool.and_eq_true _ _).mp hx
        refine hc ?_
        rw [he, Bool.true_and]
        cases x with
        | nil => cases hd
        | cons d x =>
          have hsign : signLength (d :: x) ≤ (d :: x).length := signLength_le _
          rw [show signLength (d :: x ++ y) = signLength (d :: x) from rfl,
            List.drop_append_of_le_length hsign]
          exact startsDigit_mono y hd
      rw [if_neg hc, if_neg hc']

theorem decimalLength_cut (h : decimalLength (x ++ y) ≤ x.length) :
    decimalLength x = decimalLength (x ++ y) := by
  simp only [decimalLength] at h ⊢
  have hsign : signLength (x ++ y) ≤ x.length := by omega
  rw [List.drop_append_of_le_length hsign] at h ⊢
  rw [signLength_cut hsign]
  generalize signLength (x ++ y) = s at h hsign ⊢
  have hrun : runLength isDigit (x.drop s ++ y) ≤ (x.drop s).length := by
    rw [List.length_drop]
    omega
  have hwhole : s + runLength isDigit (x.drop s ++ y) ≤ x.length := by omega
  rw [List.drop_append_of_le_length hwhole] at h ⊢
  rw [runLength_cut hrun]
  generalize s + runLength isDigit (x.drop s ++ y) = whole at h hwhole ⊢
  have hfraction : fractionLength (x.drop whole ++ y) ≤ (x.drop whole).length := by
    rw [List.length_drop]
    omega
  rw [fractionLength_cut hfraction]

theorem numberLength_cut (h : numberLength (x ++ y) ≤ x.length) :
    numberLength x = numberLength (x ++ y) := by
  unfold numberLength at h ⊢
  have hdecimal : decimalLength (x ++ y) ≤ x.length := by omega
  rw [List.drop_append_of_le_length hdecimal] at h ⊢
  rw [decimalLength_cut hdecimal]
  generalize decimalLength (x ++ y) = n at h hdecimal ⊢
  have hexponent : exponentLength (x.drop n ++ y) ≤ (x.drop n).length := by
    rw [List.length_drop]
    omega
  rw [exponentLength_cut hexponent]

/-- A number starts with a digit or a fraction behind its sign. -/
theorem startsNumber_eq (cs : List Char) :
    startsNumber cs =
      (startsDigit (cs.drop (signLength cs)) || startsFraction (cs.drop (signLength cs))) := by
  cases cs with
  | nil => rfl
  | cons c cs =>
    rw [startsNumber, signLength]
    split <;> rfl

/-- A number that ends inside starts inside. -/
theorem startsNumber_cut (hle : numberLength (x ++ y) ≤ x.length) (h : startsNumber (x ++ y)) :
    startsNumber x := by
  have hdecimal : decimalLength (x ++ y) ≤ x.length := by
    unfold numberLength at hle
    omega
  have hsign : signLength (x ++ y) ≤ x.length := by
    simp only [decimalLength] at hdecimal
    omega
  simp only [decimalLength] at hdecimal
  rw [startsNumber_eq, List.drop_append_of_le_length hsign] at h
  rw [List.drop_append_of_le_length hsign] at hdecimal
  rw [startsNumber_eq, signLength_cut hsign]
  generalize signLength (x ++ y) = s at h hdecimal hsign ⊢
  have hrun : runLength isDigit (x.drop s ++ y) ≤ (x.drop s).length := by
    rw [List.length_drop]
    omega
  rw [Bool.or_eq_true] at h ⊢
  by_cases hd : startsDigit (x.drop s ++ y)
  · exact .inl (startsDigit_cut hrun hd)
  · -- no digit stands in front of the decimal point
    have hf := h.resolve_left hd
    have hzero : runLength isDigit (x.drop s ++ y) = 0 := by
      cases hcs : x.drop s ++ y with
      | nil => rfl
      | cons c cs =>
        rw [hcs] at hd
        simp [runLength, show ¬ isDigit c = true from hd]
    rw [hzero, Nat.add_zero, List.drop_append_of_le_length hsign] at hdecimal
    refine .inr (startsFraction_cut ?_ hf)
    rw [List.length_drop]
    omega

theorem numberLength_le_length_scanNumber (cs : List Char) :
    numberLength cs ≤ (scanNumber cs).length := by
  simp only [scanNumber]
  repeat' split
  all_goals simp

theorem scanNumber_cut (h : (scanNumber (x ++ y)).length ≤ x.length) :
    scanNumber x = scanNumber (x ++ y) := by
  have hnumber := Nat.le_trans (numberLength_le_length_scanNumber (x ++ y)) h
  simp only [scanNumber, numberLength_cut hnumber, List.drop_append_of_le_length hnumber] at h ⊢
  generalize numberLength (x ++ y) = n at h hnumber ⊢
  by_cases hname : startsName (x.drop n ++ y)
  · rw [if_pos hname] at h
    have hle : nameLength (x.drop n ++ y) ≤ (x.drop n).length := by
      rw [List.length_drop]
      dsimp only at h
      omega
    rw [if_pos hname, if_pos (startsName_cut hle hname), nameLength_cut hle]
  have hname' : ¬ startsName (x.drop n) = true := mt (startsName_mono y) hname
  rw [if_neg hname] at h ⊢
  rw [if_neg hname']
  by_cases hpercent : (x.drop n ++ y).head? = some '%'
  · rw [if_pos hpercent] at h
    have hne : x.drop n ≠ [] := by
      rw [Ne, List.drop_eq_nil_iff]
      dsimp only at h
      omega
    have hpercent' : (x.drop n).head? = some '%' := by
      obtain ⟨d, ds, hds⟩ := List.exists_cons_of_ne_nil hne
      rw [hds] at hpercent ⊢
      exact hpercent
    rw [if_pos hpercent, if_pos hpercent']
  have hpercent' : ¬ (x.drop n).head? = some '%' := mt (head?_mono y) hpercent
  rw [if_neg hpercent, if_neg hpercent']

/-! ### Comments and urls that end inside -/

theorem length_scanComment_pos {cs : List Char} (h : cs ≠ []) : 0 < (scanComment cs).length := by
  obtain ⟨c, cs, rfl⟩ := List.exists_cons_of_ne_nil h
  rw [scanComment]
  split
  · exact Nat.succ_pos 1
  · simp only [Lexeme.extend]
    omega

theorem scanComment_cut (h : (scanComment (x ++ y)).length ≤ x.length) :
    scanComment x = scanComment (x ++ y) := by
  induction x with
  | nil =>
    have hnil : y = [] := by
      by_contra hne
      have hpos := length_scanComment_pos hne
      rw [List.nil_append, List.length_nil] at h
      omega
    rw [hnil, List.append_nil]
  | cons c x ih =>
    rw [List.cons_append, scanComment] at h ⊢
    rw [scanComment]
    by_cases hc : (c = '*' && (x ++ y).head? = some '/') = true
    · have hx : 0 < x.length := by
        rw [if_pos hc, List.length_cons] at h
        dsimp only at h
        omega
      obtain ⟨d, x, rfl⟩ := List.exists_cons_of_length_pos hx
      rw [if_pos hc]
      exact if_pos hc
    · have hc' : ¬ (c = '*' && x.head? = some '/') = true := by
        intro hx
        obtain ⟨hd, hhead⟩ := (Bool.and_eq_true _ _).mp hx
        exact hc (by simp [hd, head?_mono y (of_decide_eq_true hhead)])
      rw [if_neg hc] at h
      simp only [Lexeme.extend, List.length_cons] at h
      rw [if_neg hc, if_neg hc', ih (by omega)]

theorem badUrlLength_pos {cs : List Char} (h : cs ≠ []) : 0 < badUrlLength cs := by
  obtain ⟨c, cs, rfl⟩ := List.exists_cons_of_ne_nil h
  rw [badUrlLength]
  split
  · exact Nat.one_pos
  · split <;> omega

theorem badUrlLength_cut (h : badUrlLength (x ++ y) ≤ x.length) :
    badUrlLength x = badUrlLength (x ++ y) := by
  generalize hxy : x ++ y = cs at h ⊢
  fun_induction badUrlLength cs generalizing x with
  | case1 => rw [(List.append_eq_nil_iff.mp hxy).1, badUrlLength]
  | case2 cs =>
    obtain ⟨x, rfl, rfl⟩ := exists_cons_of_append hxy (by omega)
    rw [badUrlLength, if_pos rfl]
  | case3 c cs hn hc ih =>
    obtain ⟨x, rfl, rfl⟩ := exists_cons_of_append hxy (by omega)
    obtain ⟨hbackslash, hescapes⟩ := (Bool.and_eq_true _ _).mp hc
    rw [List.length_cons] at h
    have he : escapeLength (x ++ y) ≤ x.length := by omega
    have hc' : (c = '\\' && escapes x) = true := by
      rw [hbackslash, escapes_cut he hescapes]
      rfl
    have hdrop : (x ++ y).drop (escapeLength (x ++ y)) = x.drop (escapeLength (x ++ y)) ++ y :=
      List.drop_append_of_le_length he
    have hbad := ih hdrop.symm (by rw [List.length_drop]; omega)
    rw [badUrlLength, if_neg hn, if_pos hc', escapeLength_cut he, hbad]
  | case4 c cs hn hc ih =>
    obtain ⟨x, rfl, rfl⟩ := exists_cons_of_append hxy (by omega)
    rw [List.length_cons] at h
    have hc' : ¬ (c = '\\' && escapes x) = true := by
      intro hx
      obtain ⟨hd, hescapes⟩ := (Bool.and_eq_true _ _).mp hx
      exact hc (by rw [hd, escapes_mono y hescapes]; rfl)
    rw [badUrlLength, if_neg hn, if_neg hc', ih rfl (by omega)]

theorem scanUrl_cut (h : (scanUrl (x ++ y)).length ≤ x.length) :
    scanUrl x = scanUrl (x ++ y) := by
  generalize hxy : x ++ y = cs at h ⊢
  fun_induction scanUrl cs generalizing x with
  | case1 => rw [(List.append_eq_nil_iff.mp hxy).1, scanUrl]
  | case2 =>
    obtain ⟨x, rfl, rfl⟩ := exists_cons_of_append hxy h
    rw [scanUrl, if_pos rfl]
  | case3 c cs hp hc =>
    rename_i hd
    dsimp only at h
    obtain ⟨x, rfl, rfl⟩ := exists_cons_of_append hxy (by omega)
    rw [List.length_cons] at h
    have hrun : runLength isSpace (x ++ y) ≤ x.length := by omega
    rw [List.drop_append_of_le_length hrun] at hd
    simp only [scanUrl, if_neg hp, if_pos hc, runLength_cut hrun, (List.append_eq_nil_iff.mp hd).1]
    rfl
  | case4 c cs hp hc =>
    rename_i ds hd
    dsimp only at h
    obtain ⟨x, rfl, rfl⟩ := exists_cons_of_append hxy (by omega)
    rw [List.length_cons] at h
    have hrun : runLength isSpace (x ++ y) < x.length := by omega
    obtain ⟨ds', hds, -⟩ := exists_drop_eq_cons hrun hd
    simp only [scanUrl, if_neg hp, if_pos hc, runLength_cut (Nat.le_of_lt hrun), hds, if_true]
    rfl
  | case5 c cs hp hc =>
    rename_i d ds hd hdp
    have hpos := badUrlLength_pos (List.cons_ne_nil d ds)
    dsimp only at h
    obtain ⟨x, rfl, rfl⟩ := exists_cons_of_append hxy (by omega)
    rw [List.length_cons] at h
    have hrun : runLength isSpace (x ++ y) < x.length := by omega
    obtain ⟨ds', hds, rfl⟩ := exists_drop_eq_cons hrun hd
    have hlength := congrArg List.length hds
    rw [List.length_drop] at hlength
    have hbad : badUrlLength (d :: ds' ++ y) ≤ (d :: ds').length := by
      rw [List.cons_append]
      omega
    simp only [scanUrl, if_neg hp, if_pos hc, runLength_cut (Nat.le_of_lt hrun), hds, if_neg hdp,
      badUrlLength_cut hbad, List.cons_append]
    rfl
  | case6 c cs hp hc hq =>
    dsimp only at h
    obtain ⟨x, rfl, rfl⟩ := exists_cons_of_append hxy (by omega)
    rw [List.length_cons] at h
    have hbad : badUrlLength (x ++ y) ≤ x.length := by omega
    rw [scanUrl, if_neg hp, if_neg hc, if_pos hq, badUrlLength_cut hbad]
  | case7 cs hescapes hp hc hq ih =>
    simp only [Lexeme.extend] at h
    obtain ⟨x, rfl, rfl⟩ := exists_cons_of_append hxy (by omega)
    rw [List.length_cons] at h
    have he : escapeLength (x ++ y) ≤ x.length := by omega
    have hdrop : (x ++ y).drop (escapeLength (x ++ y)) = x.drop (escapeLength (x ++ y)) ++ y :=
      List.drop_append_of_le_length he
    have hurl := ih hdrop.symm (by rw [List.length_drop]; omega)
    rw [scanUrl, if_neg hp, if_neg hc, if_neg hq, if_pos rfl, if_pos (escapes_cut he hescapes),
      escapeLength_cut he, hurl]
  | case8 cs hescapes hp hc hq =>
    dsimp only at h
    obtain ⟨x, rfl, rfl⟩ := exists_cons_of_append hxy (by omega)
    rw [List.length_cons] at h
    have hbad : badUrlLength (x ++ y) ≤ x.length := by omega
    have hescapes' : ¬ escapes x = true := mt (escapes_mono y) hescapes
    rw [scanUrl, if_neg hp, if_neg hc, if_neg hq, if_pos rfl, if_neg hescapes',
      badUrlLength_cut hbad]
  | case9 c cs hp hc hq he ih =>
    simp only [Lexeme.extend] at h
    obtain ⟨x, rfl, rfl⟩ := exists_cons_of_append hxy (by omega)
    rw [List.length_cons] at h
    rw [scanUrl, if_neg hp, if_neg hc, if_neg hq, if_neg he, ih rfl (by omega)]

end Lengths

/-! ### Tokens that end inside -/

/-- The lexeme in a text of `size` characters, when it was found in a longer
one: a string that breaks off at the end of the text is not closed in it. -/
def Lexeme.cutAt (size : Nat) (l : Lexeme) : Lexeme :=
  if l.kind = .badString ∧ l.length = size then ⟨.string false, l.length⟩ else l

theorem Lexeme.cutAt_of_kind {l : Lexeme} (h : l.kind ≠ .badString) (size : Nat) :
    l.cutAt size = l :=
  if_neg fun hc => h hc.1

theorem Lexeme.cutAt_of_length {l : Lexeme} {size : Nat} (h : l.length ≠ size) :
    l.cutAt size = l :=
  if_neg fun hc => h hc.2

theorem Lexeme.extend_cutAt (n size : Nat) (l : Lexeme) :
    (l.cutAt size).extend n = (l.extend n).cutAt (n + size) := by
  unfold cutAt extend
  by_cases hc : l.kind = .badString ∧ l.length = size
  · rw [if_pos hc, if_pos ⟨hc.1, by rw [hc.2]⟩]
  · rw [if_neg hc, if_neg fun h => hc ⟨h.1, Nat.add_left_cancel h.2⟩]

@[simp] theorem Lexeme.length_cutAt (size : Nat) (l : Lexeme) :
    (l.cutAt size).length = l.length := by
  unfold cutAt
  split <;> rfl

section Tokens

variable {x y : List Char}

theorem scanString_cut {quote : Char} (h : (scanString quote (x ++ y)).length ≤ x.length) :
    scanString quote x = (scanString quote (x ++ y)).cutAt x.length := by
  generalize hxy : x ++ y = cs at h ⊢
  fun_induction scanString quote cs generalizing x with
  | case1 =>
    rw [(List.append_eq_nil_iff.mp hxy).1, scanString]
    rfl
  | case2 cs =>
    obtain ⟨x, rfl, rfl⟩ := exists_cons_of_append hxy h
    rw [scanString, if_pos rfl]
    rfl
  | case3 c cs hq hc =>
    cases x with
    | nil =>
      rw [scanString]
      rfl
    | cons d x =>
      rw [List.cons_append] at hxy
      obtain ⟨rfl, rfl⟩ := List.cons.inj hxy
      rw [scanString, if_neg hq, if_pos hc]
      rfl
  | case4 cs hq hc ih =>
    simp only [Lexeme.extend] at h
    obtain ⟨x, rfl, rfl⟩ := exists_cons_of_append hxy (by omega)
    rw [List.length_cons] at h
    have he : escapeLength (x ++ y) ≤ x.length := by omega
    have hdrop : (x ++ y).drop (escapeLength (x ++ y)) = x.drop (escapeLength (x ++ y)) ++ y :=
      List.drop_append_of_le_length he
    have hstring := ih hdrop.symm (by rw [List.length_drop]; omega)
    have hsize : 1 + escapeLength (x ++ y) + (x.drop (escapeLength (x ++ y))).length =
        ('\\' :: x).length := by
      rw [List.length_drop, List.length_cons]
      omega
    rw [scanString, if_neg hq, if_neg hc, if_pos rfl, escapeLength_cut he, hstring,
      Lexeme.extend_cutAt, hsize]
  | case5 c cs hq hc he ih =>
    simp only [Lexeme.extend] at h
    obtain ⟨x, rfl, rfl⟩ := exists_cons_of_append hxy (by omega)
    rw [List.length_cons] at h
    rw [scanString, if_neg hq, if_neg hc, if_neg he, ih rfl (by omega), Lexeme.extend_cutAt,
      List.length_cons, Nat.add_comm]

/-- What a name of `n` characters makes, `url` or another, in front of this
text. -/
def nameBefore (isUrl : Bool) (n : Nat) : List Char → Lexeme
  | [] => ⟨.ident, n⟩
  | c :: rest =>
    if c = '(' then
      if isUrl then
        if (rest.drop (runLength isSpace rest)).head?.any isQuote then
          ⟨.function, n + 1 + runLength isSpace rest⟩
        else
          (scanUrl (rest.drop (runLength isSpace rest))).extend (n + 1 + runLength isSpace rest)
      else ⟨.function, n + 1⟩
    else ⟨.ident, n⟩

theorem scanNamed_eq (cs : List Char) :
    scanNamed cs = nameBefore (sameWord (String.ofList (cs.take (nameLength cs))) "url")
      (nameLength cs) (cs.drop (nameLength cs)) := by
  rw [scanNamed]
  cases cs.drop (nameLength cs) <;> rfl

theorem le_length_nameBefore (isUrl : Bool) (n : Nat) (cs : List Char) :
    n ≤ (nameBefore isUrl n cs).length := by
  unfold nameBefore
  repeat' split
  all_goals
    simp only [Lexeme.extend]
    omega

theorem lt_length_nameBefore (isUrl : Bool) (n : Nat) (rest : List Char) :
    n < (nameBefore isUrl n ('(' :: rest)).length := by
  rw [nameBefore, if_pos rfl]
  repeat' split
  all_goals
    simp only [Lexeme.extend]
    omega

/-- A function takes the white space behind its parenthesis only in front of a
quote, so no quote may be cut off there. -/
def KeepsQuote (l : Lexeme) (size : Nat) (y : List Char) : Prop :=
  l.kind = .function → l.length = size → y.head?.any isQuote = false

theorem nameBefore_cut {isUrl : Bool} {n : Nat}
    (h : (nameBefore isUrl n (x ++ y)).length ≤ n + x.length)
    (hq : KeepsQuote (nameBefore isUrl n (x ++ y)) (n + x.length) y) :
    nameBefore isUrl n x = nameBefore isUrl n (x ++ y) := by
  cases x with
  | nil =>
    cases y with
    | nil => rfl
    | cons c y =>
      have hc : c ≠ '(' := by
        rintro rfl
        have hlt := lt_length_nameBefore isUrl n y
        rw [List.nil_append, List.length_nil] at h
        omega
      rw [List.nil_append, nameBefore, nameBefore, if_neg hc]
  | cons c x =>
    rw [List.cons_append] at h hq ⊢
    rw [nameBefore] at h hq ⊢
    rw [nameBefore]
    by_cases hc : c = '('
    · rw [if_pos hc] at h hq ⊢
      rw [if_pos hc]
      cases isUrl with
      | false => rfl
      | true =>
        simp only [if_true] at h hq ⊢
        have hrun : runLength isSpace (x ++ y) ≤ x.length := by
          rw [List.length_cons] at h
          split at h
          · dsimp only at h
            omega
          · simp only [Lexeme.extend] at h
            omega
        rw [List.drop_append_of_le_length hrun] at h hq ⊢
        rw [runLength_cut hrun]
        generalize runLength isSpace (x ++ y) = r at h hq hrun ⊢
        by_cases hquote : ((x.drop r ++ y).head?.any isQuote) = true
        · rw [if_pos hquote] at h hq ⊢
          have hquote' : ((x.drop r).head?.any isQuote) = true := by
            cases hbody : x.drop r with
            | nil =>
              have hr := List.drop_eq_nil_iff.mp hbody
              have hno := hq rfl (by dsimp only; rw [List.length_cons]; omega)
              rw [hbody, List.nil_append, hno] at hquote
              cases hquote
            | cons d ds =>
              rw [hbody] at hquote
              exact hquote
          rw [if_pos hquote']
        · rw [if_neg hquote] at h ⊢
          have hquote' : ¬ ((x.drop r).head?.any isQuote) = true := by
            intro hbody
            refine hquote ?_
            cases hd : x.drop r with
            | nil =>
              rw [hd] at hbody
              cases hbody
            | cons d ds =>
              rw [hd] at hbody
              exact hbody
          have hurl : (scanUrl (x.drop r ++ y)).length ≤ (x.drop r).length := by
            simp only [Lexeme.extend, List.length_cons] at h
            rw [List.length_drop]
            omega
          rw [if_neg hquote', scanUrl_cut hurl]
    · rw [if_neg hc, if_neg hc]

theorem scanNamed_cut (h : (scanNamed (x ++ y)).length ≤ x.length)
    (hq : KeepsQuote (scanNamed (x ++ y)) x.length y) : scanNamed x = scanNamed (x ++ y) := by
  rw [scanNamed_eq] at h hq ⊢
  have hname := Nat.le_trans (le_length_nameBefore _ _ _) h
  have hsize : nameLength (x ++ y) + (x.drop (nameLength (x ++ y))).length = x.length := by
    rw [List.length_drop]
    omega
  rw [List.take_append_of_le_length hname, List.drop_append_of_le_length hname, ← hsize] at h hq
  rw [scanNamed_eq (x ++ y), nameLength_cut hname, List.take_append_of_le_length hname,
    List.drop_append_of_le_length hname]
  exact nameBefore_cut h hq

theorem hash_cut {c : Char}
    (h : (if startsHash (x ++ y) then
        (⟨.hash (startsName (x ++ y)), 1 + nameLength (x ++ y)⟩ : Lexeme)
      else ⟨.delim c, 1⟩).length ≤ 1 + x.length) :
    (if startsHash x then (⟨.hash (startsName x), 1 + nameLength x⟩ : Lexeme) else ⟨.delim c, 1⟩) =
      if startsHash (x ++ y) then ⟨.hash (startsName (x ++ y)), 1 + nameLength (x ++ y)⟩
      else ⟨.delim c, 1⟩ := by
  by_cases hstarts : startsHash (x ++ y)
  · rw [if_pos hstarts] at h
    have hname : nameLength (x ++ y) ≤ x.length := by
      dsimp only at h
      omega
    have hident : startsName x = startsName (x ++ y) :=
      Bool.eq_iff_iff.mpr ⟨startsName_mono y, startsName_cut hname⟩
    rw [if_pos hstarts, if_pos (startsHash_cut hname hstarts), hident, nameLength_cut hname]
  · rw [if_neg hstarts, if_neg (mt (startsHash_mono y) hstarts)]

theorem atKeyword_cut {c : Char}
    (h : (if startsName (x ++ y) then (⟨.atKeyword, 1 + nameLength (x ++ y)⟩ : Lexeme)
      else ⟨.delim c, 1⟩).length ≤ 1 + x.length) :
    (if startsName x then (⟨.atKeyword, 1 + nameLength x⟩ : Lexeme) else ⟨.delim c, 1⟩) =
      if startsName (x ++ y) then ⟨.atKeyword, 1 + nameLength (x ++ y)⟩ else ⟨.delim c, 1⟩ := by
  by_cases hstarts : startsName (x ++ y)
  · rw [if_pos hstarts] at h
    have hname : nameLength (x ++ y) ≤ x.length := by
      dsimp only at h
      omega
    rw [if_pos hstarts, if_pos (startsName_cut hname hstarts), nameLength_cut hname]
  · rw [if_neg hstarts, if_neg (mt (startsName_mono y) hstarts)]

/-- A mark that is found inside is found in front of more. -/
theorem mark_mono {c a : Char} {word : List Char} (h : (c = a && word.isPrefixOf x) = true) :
    (c = a && word.isPrefixOf (x ++ y)) = true := by
  simp only [Bool.and_eq_true, List.isPrefixOf_iff_prefix] at h ⊢
  exact ⟨h.1, h.2.trans (List.prefix_append x y)⟩

/-- A mark that ends inside is found inside. -/
theorem mark_cut {c a : Char} {word : List Char} (hle : word.length ≤ x.length)
    (h : (c = a && word.isPrefixOf (x ++ y)) = true) : (c = a && word.isPrefixOf x) = true := by
  simp only [Bool.and_eq_true, List.isPrefixOf_iff_prefix] at h ⊢
  exact ⟨h.1, List.prefix_of_prefix_length_le h.2 (List.prefix_append x y) hle⟩

theorem opening_mono {c : Char} (h : (c = '/' && x.head? = some '*') = true) :
    (c = '/' && (x ++ y).head? = some '*') = true := by
  simp only [Bool.and_eq_true, decide_eq_true_eq] at h ⊢
  exact ⟨h.1, head?_mono y h.2⟩

/-- A comment that ends inside opens inside. -/
theorem comment_cut {c : Char} (hopen : (c = '/' && (x ++ y).head? = some '*') = true)
    (h : ((scanComment (x ++ y).tail).extend 2).length ≤ (c :: x).length) :
    (c = '/' && x.head? = some '*') = true ∧ scanComment x.tail = scanComment (x ++ y).tail := by
  cases x with
  | nil =>
    simp only [Lexeme.extend, List.length_cons, List.length_nil] at h
    omega
  | cons d x =>
    simp only [Lexeme.extend, List.cons_append, List.tail_cons, List.length_cons] at h
    have hle : (scanComment (x ++ y)).length ≤ x.length := by omega
    exact ⟨hopen, scanComment_cut hle⟩

/-- **A token that ends inside of a text is found there.** -/
theorem scan_cut {c : Char} (h : (scan c (x ++ y)).length ≤ (c :: x).length)
    (hq : KeepsQuote (scan c (x ++ y)) (c :: x).length y) :
    scan c x = (scan c (x ++ y)).cutAt (c :: x).length := by
  have hone : (c :: x).length = 1 + x.length := by rw [List.length_cons, Nat.add_comm]
  -- a test that decides holds inside, and one that fails fails inside
  unfold scan at h hq ⊢
  by_cases hopen : (c = '/' && (x ++ y).head? = some '*') = true
  · rw [if_pos hopen] at h ⊢
    obtain ⟨hopen', hbody⟩ := comment_cut hopen h
    rw [if_pos hopen', hbody, Lexeme.cutAt_of_kind]
    exact ne_of_apply_ne Kind.isComment (by rw [Lexeme.kind_extend, isComment_scanComment]; decide)
  rw [if_neg hopen] at h hq ⊢
  rw [if_neg (mt opening_mono hopen)]
  by_cases hspace : isSpace c
  · rw [if_pos hspace] at h ⊢
    have hrun : runLength isSpace (x ++ y) ≤ x.length := by
      dsimp only at h
      omega
    rw [if_pos hspace, runLength_cut hrun]
    rfl
  rw [if_neg hspace] at h hq ⊢
  rw [if_neg hspace]
  by_cases hquote : isQuote c
  · rw [if_pos hquote] at h ⊢
    have hstring : (scanString c (x ++ y)).length ≤ x.length := by
      simp only [Lexeme.extend] at h
      omega
    rw [if_pos hquote, scanString_cut hstring, Lexeme.extend_cutAt, hone]
  rw [if_neg hquote] at h hq ⊢
  rw [if_neg hquote]
  by_cases hsign : c = '#'
  · rw [if_pos hsign] at h ⊢
    rw [hone] at h
    rw [if_pos hsign, hash_cut h, Lexeme.cutAt_of_kind]
    split <;> simp
  rw [if_neg hsign] at h hq ⊢
  rw [if_neg hsign]
  by_cases hnumber : startsNumber (c :: (x ++ y))
  · rw [if_pos hnumber] at h ⊢
    rw [← List.cons_append] at h hnumber ⊢
    have hle := Nat.le_trans (numberLength_le_length_scanNumber _) h
    rw [if_pos (startsNumber_cut hle hnumber), scanNumber_cut h, Lexeme.cutAt_of_kind]
    exact ne_of_apply_ne Kind.isNumeric (by rw [isNumeric_scanNumber]; decide)
  rw [if_neg hnumber] at h hq ⊢
  rw [if_neg (mt (startsNumber_mono (x := c :: x) y) hnumber)]
  by_cases hcdc : (c = '-' && ['-', '>'].isPrefixOf (x ++ y)) = true
  · rw [if_pos hcdc] at h ⊢
    have hle : ['-', '>'].length ≤ x.length := Nat.le_of_succ_le_succ h
    rw [if_pos (mark_cut hle hcdc)]
    rfl
  rw [if_neg hcdc] at h hq ⊢
  rw [if_neg (mt mark_mono hcdc)]
  by_cases hcdo : (c = '<' && ['!', '-', '-'].isPrefixOf (x ++ y)) = true
  · rw [if_pos hcdo] at h ⊢
    have hle : ['!', '-', '-'].length ≤ x.length := Nat.le_of_succ_le_succ h
    rw [if_pos (mark_cut hle hcdo)]
    rfl
  rw [if_neg hcdo] at h hq ⊢
  rw [if_neg (mt mark_mono hcdo)]
  by_cases hat : c = '@'
  · rw [if_pos hat] at h ⊢
    rw [hone] at h
    rw [if_pos hat, atKeyword_cut h, Lexeme.cutAt_of_kind]
    split <;> simp
  rw [if_neg hat] at h hq ⊢
  rw [if_neg hat]
  by_cases hname : startsName (c :: (x ++ y))
  · rw [if_pos hname] at h hq ⊢
    rw [← List.cons_append] at h hq hname ⊢
    rw [scanNamed_eq] at h
    have hle := Nat.le_trans (le_length_nameBefore _ _ _) h
    rw [← scanNamed_eq] at h
    rw [if_pos (startsName_cut hle hname), scanNamed_cut h hq, Lexeme.cutAt_of_kind]
    exact ne_of_apply_ne Kind.isNamed (by rw [isNamed_scanNamed]; decide)
  rw [if_neg hname, if_neg (mt (startsName_mono (x := c :: x) y) hname), Lexeme.cutAt_of_kind]
  exact ne_of_apply_ne Kind.char? (by rw [char?_punctuation]; exact Option.some_ne_none c)

end Tokens

/-! ### All tokens of a text that is cut out -/

/-- The token in a text that ends with it. -/
def atEnd (t : Token) : Token :=
  if t.kind = .badString then { t with kind := .string false } else t

/-- The tokens in a text that ends with the last of them. -/
def cutOff : List Token → List Token
  | [] => []
  | [t] => [t.atEnd]
  | t :: u :: us => t :: cutOff (u :: us)

/-- The tokens of a text, when those of a longer one are `run` and then more:
the last token of `run` does not take white space in front of a quote that is
cut off. -/
def KeepsQuotes (run : List Token) (y : List Char) : Prop :=
  (∃ t ∈ run.getLast?, t.kind = .function) → y.head?.any isQuote = false

/-- Behind tokens of a text the lexer goes on with the rest of the text. -/
theorem lexFrom_eq_append {start : Nat} {cs : List Char} {us vs : List Token}
    (h : lexFrom start cs = us ++ vs) :
    ∃ cs', cs = (textOf us).toList ++ cs' ∧
      vs = lexFrom (start + (textOf us).utf8ByteSize) cs' := by
  induction us generalizing start cs with
  | nil => exact ⟨cs, rfl, h.symm⟩
  | cons u us ih =>
    cases cs with
    | nil =>
      rw [lexFrom] at h
      cases h
    | cons c cs =>
      rw [lexFrom, List.cons_append] at h
      obtain ⟨rfl, hrest⟩ := List.cons.inj h
      obtain ⟨cs', hcs, hvs⟩ := ih hrest
      refine ⟨cs', ?_, ?_⟩
      · rw [textOf_cons, String.toList_append, List.append_assoc, ← hcs, String.toList_ofList,
          List.take_append_drop]
      · rw [hvs, textOf_cons, String.utf8ByteSize_append, Nat.add_assoc]

/-- The token at the head of a text and those behind it. -/
theorem lexFrom_cons {start : Nat} {c : Char} {w z : List Char}
    (h : (scan c (w ++ z)).length = (c :: w).length) :
    lexFrom start (c :: (w ++ z)) =
      ⟨(scan c (w ++ z)).kind, String.ofList (c :: w), start⟩ ::
        lexFrom (start + (String.ofList (c :: w)).utf8ByteSize) z := by
  have htake : (c :: (w ++ z)).take (scan c (w ++ z)).length = c :: w := by
    rw [h, ← List.cons_append, List.take_left]
  have hdrop : (c :: (w ++ z)).drop (scan c (w ++ z)).length = z := by
    rw [h, ← List.cons_append, List.drop_left]
  rw [lexFrom, htake, hdrop]

theorem exists_of_lexFrom_eq_cons {start : Nat} {cs : List Char} {t : Token} {ts : List Token}
    (h : lexFrom start cs = t :: ts) :
    ∃ c w z, cs = c :: (w ++ z) ∧ (scan c (w ++ z)).length = (c :: w).length ∧
      t = ⟨(scan c (w ++ z)).kind, String.ofList (c :: w), start⟩ ∧
      ts = lexFrom (start + t.text.utf8ByteSize) z := by
  cases cs with
  | nil =>
    rw [lexFrom] at h
    cases h
  | cons c cs =>
    obtain ⟨n, hn⟩ := Nat.exists_eq_add_of_lt (length_scan_pos c cs)
    rw [Nat.zero_add] at hn
    have hle := length_scan_le c cs
    rw [hn, List.length_cons] at hle
    have hcs : cs.take n ++ cs.drop n = cs := List.take_append_drop n cs
    have hlength : (scan c (cs.take n ++ cs.drop n)).length = (c :: cs.take n).length := by
      rw [hcs, hn, List.length_cons, List.length_take, Nat.min_eq_left (by omega)]
    have hlex : lexFrom start (c :: (cs.take n ++ cs.drop n)) = _ := lexFrom_cons hlength
    rw [hcs, h] at hlex
    obtain ⟨rfl, rfl⟩ := List.cons.inj hlex
    exact ⟨c, cs.take n, cs.drop n, by rw [hcs], hlength, by rw [hcs], rfl⟩

/-- Tokens have a text. -/
theorem toList_textOf_ne_nil {start : Nat} {cs : List Char} {t : Token} {run vs : List Token}
    (h : lexFrom start cs = t :: run ++ vs) : (textOf (t :: run)).toList ≠ [] := by
  intro hnil
  rw [String.toList_eq_nil_iff, textOf_cons, String.append_eq_empty_iff] at hnil
  have hmem : t ∈ lexFrom start cs := by
    rw [h]
    exact List.mem_append_left vs List.mem_cons_self
  exact text_ne_empty_of_mem_lexFrom hmem hnil.1

theorem KeepsQuotes.tail {t : Token} {run : List Token} {y : List Char}
    (h : KeepsQuotes (t :: run) y) : KeepsQuotes run y := by
  cases run with
  | nil =>
    rintro ⟨u, hu, -⟩
    cases hu
  | cons u us =>
    unfold KeepsQuotes at h ⊢
    rwa [List.getLast?_cons_cons] at h

/-- **Tokens of a text that is cut out between two tokens.** -/
theorem lexFrom_cut {start : Nat} {y : List Char} {run vs : List Token}
    (h : lexFrom start ((textOf run).toList ++ y) = run ++ vs) (hq : KeepsQuotes run y) :
    lexFrom start (textOf run).toList = cutOff run := by
  induction run generalizing start with
  | nil => rw [textOf_nil, String.toList_empty, lexFrom, cutOff]
  | cons t run ih =>
    obtain ⟨c, w, z, hcs, hlength, ht, hrest⟩ := exists_of_lexFrom_eq_cons h
    have htext : t.text.toList = c :: w := by rw [ht, String.toList_ofList]
    have hz : z = (textOf run).toList ++ y := by
      rw [textOf_cons, String.toList_append, htext, List.append_assoc, List.cons_append] at hcs
      exact (List.append_cancel_left (List.cons.inj hcs).2).symm
    rw [hz] at hlength ht hrest
    rw [← List.append_assoc] at hlength ht
    have htail := ih hrest.symm hq.tail
    have hinside : (scan c (w ++ (textOf run).toList ++ y)).length ≤
        (c :: (w ++ (textOf run).toList)).length := by
      rw [hlength, List.length_cons, List.length_cons, List.length_append]
      omega
    -- the token ends where the text does only if it is the last
    have hlast : (c :: w).length = (c :: (w ++ (textOf run).toList)).length → run = [] := by
      intro hend
      cases run with
      | nil => rfl
      | cons u us =>
        have hpos := List.length_pos_iff.mpr (toList_textOf_ne_nil hrest.symm)
        rw [List.length_cons, List.length_cons, List.length_append] at hend
        omega
    have hquote : KeepsQuote (scan c (w ++ (textOf run).toList ++ y))
        (c :: (w ++ (textOf run).toList)).length y := by
      intro hkind hend
      obtain rfl := hlast (hlength.symm.trans hend)
      exact hq ⟨t, rfl, by rw [ht]; exact hkind⟩
    have hscan := scan_cut hinside hquote
    have hlength' : (scan c (w ++ (textOf run).toList)).length = (c :: w).length := by
      rw [hscan, Lexeme.length_cutAt, hlength]
    have hlex : lexFrom start (textOf (t :: run)).toList =
        { t with kind := (scan c (w ++ (textOf run).toList)).kind } :: cutOff run := by
      rw [textOf_cons, String.toList_append, htext, List.cons_append, lexFrom_cons hlength',
        ← htail, ht]
    have hkind : (scan c (w ++ (textOf run).toList ++ y)).kind = t.kind := by rw [ht]
    rw [hlex, hscan]
    cases run with
    | nil =>
      have hend : (scan c (w ++ (textOf []).toList ++ y)).length =
          (c :: (w ++ (textOf []).toList)).length := by
        rw [hlength, textOf_nil, String.toList_empty, List.append_nil]
      rw [cutOff, cutOff, atEnd]
      by_cases hbad : t.kind = .badString
      · rw [if_pos hbad, Lexeme.cutAt, if_pos ⟨hkind.trans hbad, hend⟩]
      · rw [if_neg hbad, Lexeme.cutAt_of_kind (by rwa [hkind]), hkind]
    | cons u us =>
      have hinner : (scan c (w ++ (textOf (u :: us)).toList ++ y)).length ≠
          (c :: (w ++ (textOf (u :: us)).toList)).length := by
        intro hend
        cases hlast (hlength.symm.trans hend)
      rw [Lexeme.cutAt_of_length hinner, hkind, cutOff]

/-- A string is broken off by a newline, and not closed without it. -/
example : (lex "a'b\n").map (·.kind) = [.ident, .badString, .whitespace] ∧
    (lex "a'b").map (·.kind) = [.ident, .string false] := by
  decide +kernel

/-- Only a string that was broken off differs in a text that ends with it. -/
theorem cutOff_eq_self {run : List Token} (h : ∀ t ∈ run.getLast?, t.kind ≠ .badString) :
    cutOff run = run := by
  fun_induction cutOff run with
  | case1 => rfl
  | case2 t => rw [atEnd, if_neg (h t rfl)]
  | case3 t u us ih =>
    rw [List.getLast?_cons_cons] at h
    rw [ih h]

end Token
end StyleScope
