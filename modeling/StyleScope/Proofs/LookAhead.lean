/-
# What a token looks at behind its end

To find where a token ends the lexer looks at up to three characters behind it.
Two texts are `Alike` if whatever ends in front of the one ends in front of the
other: the characters looked at are the same, or both texts start with a
character that goes on with no token (`isFenced`). Most characters are looked
at alone; only behind a hyphen, an exclamation mark, a backslash, a dot or a
plus sign the lexer looks on (`isStop`).

Every scanner that ends in a text finds the same end if the text behind it is
exchanged for one that is alike. `runLength_alike` and its companions say so of
the scanners, and `scan_alike` of the lexer. Then the tokens of a text are the
same in front of both (`lexFrom_yields`).

Key definitions: `Token.isFenced`, `Token.Alike`, `Token.Hides`, `Token.Yields`.
Key theorems: `Token.scan_alike`, `Token.lexFrom_yields`.
-/
import StyleScope.Proofs.Cutting

namespace StyleScope
namespace Token

open Text

/-! ### Texts that look alike -/

/-- The character goes on with no token that ends in front of it. -/
def isFence (c : Char) : Bool :=
  !isName c && !isSpace c && !isQuote c && c ∉ ['(', '%', '*', '\\', '>', '!', '+']

/-- The text starts with a character that goes on with no token in front. -/
def isFenced : List Char → Bool
  | [] => false
  | c :: cs => isFence c && !startsFraction (c :: cs)

/-- Whether the lexer does not look past the character when it stands behind a
token. -/
def isStop (c : Char) : Bool :=
  c ∉ ['-', '!', '\\', '.', '+']

/-- To a token that looks at `n` characters behind its end the two texts look
alike. -/
inductive Alike : Nat → List Char → List Char → Prop where
  | zero (y z : List Char) : Alike 0 y z
  | nil (n : Nat) : Alike n [] []
  | fenced {y z : List Char} (n : Nat) (hy : isFenced y) (hz : isFenced z) : Alike n y z
  | stop {c : Char} (n : Nat) (y z : List Char) (hc : isStop c) : Alike n (c :: y) (c :: z)
  | cons {n : Nat} {y z : List Char} (c : Char) (h : Alike n y z) : Alike (n + 1) (c :: y) (c :: z)

theorem Alike.refl (n : Nat) (y : List Char) : Alike n y y := by
  induction n generalizing y with
  | zero => exact .zero y y
  | succ n ih =>
    cases y with
    | nil => exact .nil _
    | cons c y => exact .cons c (ih y)

theorem Alike.mono {m n : Nat} {y z : List Char} (h : Alike n y z) (hmn : m ≤ n) :
    Alike m y z := by
  induction h generalizing m with
  | zero =>
    obtain rfl : m = 0 := by omega
    exact .zero _ _
  | nil => exact .nil m
  | fenced _ hy hz => exact .fenced m hy hz
  | stop _ _ _ hc => exact .stop m _ _ hc
  | cons c _ ih =>
    cases m with
    | zero => exact .zero _ _
    | succ m => exact .cons c (ih (by omega))

theorem Alike.append {n : Nat} {y z : List Char} (h : Alike n y z) (x : List Char) :
    Alike n (x ++ y) (x ++ z) := by
  induction x generalizing n with
  | nil => exact h
  | cons c x ih =>
    cases n with
    | zero => exact .zero _ _
    | succ n => exact .cons c (ih (h.mono (Nat.le_succ n)))

/-- As many characters as are looked at hide what stands behind them. -/
theorem Alike.of_length {n : Nat} {x : List Char} (h : n ≤ x.length) (y z : List Char) :
    Alike n (x ++ y) (x ++ z) := by
  induction n generalizing x with
  | zero => exact .zero _ _
  | succ n ih =>
    cases x with
    | nil => exact absurd h (Nat.not_succ_le_zero n)
    | cons c x => exact .cons c (ih (Nat.le_of_succ_le_succ h))

/-- The text hides from a token in front what stands behind it. -/
def Hides (x : List Char) : Prop :=
  ∀ y z, Alike 3 (x ++ y) (x ++ z)

theorem hides_of_isStop {c : Char} (hc : isStop c) (x : List Char) : Hides (c :: x) :=
  fun _ _ => .stop 3 _ _ hc

theorem Hides.append_left {x : List Char} (h : Hides x) (w : List Char) : Hides (w ++ x) := by
  intro y z
  rw [List.append_assoc, List.append_assoc]
  exact (h y z).append w

theorem Hides.append_right {x : List Char} (h : Hides x) (w : List Char) : Hides (x ++ w) := by
  intro y z
  rw [List.append_assoc, List.append_assoc]
  exact h _ _

theorem Hides.of_drop {n : Nat} {x : List Char} (h : Hides (x.drop n)) : Hides x := by
  rw [← List.take_append_drop n x]
  exact h.append_left _

/-! ### Single characters -/

theorem of_isFence {c : Char} (h : isFence c) :
    isName c = false ∧ isSpace c = false ∧ isQuote c = false ∧
      c ∉ ['(', '%', '*', '\\', '>', '!', '+'] := by
  simpa [isFence, and_assoc] using h

theorem isNameStart_of_isFence {c : Char} (h : isFence c) : isNameStart c = false := by
  have hname := (of_isFence h).1
  simp only [isName, Bool.or_eq_false_iff] at hname
  exact hname.1.1

theorem isDigit_of_isFence {c : Char} (h : isFence c) : isDigit c = false := by
  have hname := (of_isFence h).1
  simp only [isName, Bool.or_eq_false_iff] at hname
  exact hname.1.2

theorem isSpace_of_isFence {c : Char} (h : isFence c) : isSpace c = false :=
  (of_isFence h).2.1

theorem isHexDigit_of_isFence {c : Char} (h : isFence c) : isHexDigit c = false := by
  have hstart := isNameStart_of_isFence h
  by_contra hn
  simp only [isHexDigit, isDigit_of_isFence h, Bool.false_or, Bool.not_eq_false, Bool.or_eq_true,
    Bool.and_eq_true, decide_eq_true_eq] at hn
  simp only [isNameStart, isLetter, Bool.or_eq_false_iff, Bool.and_eq_false_iff,
    decide_eq_false_iff_not] at hstart
  obtain ⟨⟨⟨hlower, hupper⟩, -⟩, -⟩ := hstart
  rcases hn with ⟨ha, hf⟩ | ⟨ha, hf⟩
  · have : c ≤ 'z' := Char.le_trans hf (by decide)
    exact hlower.elim (absurd ha) (absurd this)
  · have : c ≤ 'Z' := Char.le_trans hf (by decide)
    exact hupper.elim (absurd ha) (absurd this)

theorem ne_of_isFence {c d : Char} (h : isFence c) (hd : isFence d = false) : c ≠ d := by
  rintro rfl
  rw [h] at hd
  cases hd

theorem ne_of_isStop {c d : Char} (h : isStop c) (hd : isStop d = false) : c ≠ d := by
  rintro rfl
  rw [h] at hd
  cases hd

theorem exists_of_isFenced {cs : List Char} (h : isFenced cs) :
    ∃ c cs', cs = c :: cs' ∧ isFence c ∧ startsFraction (c :: cs') = false := by
  cases cs with
  | nil => cases h
  | cons c cs =>
    rw [isFenced, Bool.and_eq_true, Bool.not_eq_true'] at h
    exact ⟨c, cs, rfl, h⟩

section Fenced

variable {cs : List Char} (h : isFenced cs)

include h

theorem head?_of_isFenced {p : Char → Bool} (hp : ∀ c, isFence c → p c = false) :
    cs.head?.any p = false := by
  obtain ⟨c, cs, rfl, hc, -⟩ := exists_of_isFenced h
  exact hp c hc

theorem escapes_of_isFenced : escapes cs := by
  obtain ⟨c, cs, rfl, hc, -⟩ := exists_of_isFenced h
  rw [escapes, Bool.not_eq_true']
  by_contra hn
  have hspace := isSpace_of_isNewline (by simpa using hn)
  rw [(of_isFence hc).2.1] at hspace
  cases hspace

theorem startsDigit_of_isFenced : startsDigit cs = false := by
  obtain ⟨c, cs, rfl, hc, -⟩ := exists_of_isFenced h
  exact isDigit_of_isFence hc

theorem startsFraction_of_isFenced : startsFraction cs = false := by
  obtain ⟨c, cs, rfl, -, hf⟩ := exists_of_isFenced h
  exact hf

theorem not_isSign_of_isFenced : ∀ c ∈ cs.head?, isSign c = false := by
  obtain ⟨c, cs, rfl, hc, -⟩ := exists_of_isFenced h
  rintro _ ⟨⟩
  simp [isSign, ne_of_isFence hc (d := '+') (by decide), ne_of_isFence hc (d := '-') (by decide)]

theorem signLength_of_isFenced : signLength cs = 0 := by
  have hsign := not_isSign_of_isFenced h
  obtain ⟨c, cs, rfl, -⟩ := exists_of_isFenced h
  rw [signLength, if_neg (by rw [hsign c rfl]; decide)]

theorem startsNumber_of_isFenced : startsNumber cs = false := by
  have hdigit := startsDigit_of_isFenced h
  have hfraction := startsFraction_of_isFenced h
  have hsign := not_isSign_of_isFenced h
  obtain ⟨c, cs, rfl, -⟩ := exists_of_isFenced h
  rw [startsNumber, if_neg (by rw [hsign c rfl]; decide), hdigit, hfraction]
  rfl

theorem startsHash_of_isFenced : startsHash cs = false := by
  obtain ⟨c, cs, rfl, hc, -⟩ := exists_of_isFenced h
  simp [startsHash, (of_isFence hc).1, ne_of_isFence hc (d := '\\') (by decide)]

theorem continuesHyphen_of_isFenced : continuesHyphen cs = false := by
  obtain ⟨c, cs, rfl, hc, -⟩ := exists_of_isFenced h
  simp [continuesHyphen, isNameStart_of_isFence hc, ne_of_isFence hc (d := '\\') (by decide),
    ne_of_isFence hc (d := '-') (by decide)]

theorem startsName_of_isFenced : startsName cs = false := by
  obtain ⟨c, cs, rfl, hc, -⟩ := exists_of_isFenced h
  simp [startsName, isNameStart_of_isFence hc, ne_of_isFence hc (d := '\\') (by decide),
    ne_of_isFence hc (d := '-') (by decide)]

end Fenced

/-! ### Looking ahead -/

section Ahead

variable {y z : List Char}

theorem head?_alike (h : Alike 1 y z) {p : Char → Bool} (hp : ∀ c, isFence c → p c = false) :
    z.head?.any p = y.head?.any p := by
  cases h with
  | nil => rfl
  | fenced _ hy hz => rw [head?_of_isFenced hy hp, head?_of_isFenced hz hp]
  | stop => rfl
  | cons => rfl

theorem head?_eq_alike (h : Alike 1 y z) {d : Char} (hd : isFence d = false) :
    z.head? = some d ↔ y.head? = some d := by
  have hany := head?_alike h (p := (· = d)) fun c hc => by simp [ne_of_isFence hc hd]
  have hiff : ∀ cs : List Char, cs.head? = some d ↔ cs.head?.any (· = d) := by
    intro cs
    cases cs <;> simp
  rw [hiff, hiff, hany]

theorem eq_nil_alike (h : Alike 1 y z) : z = [] ↔ y = [] := by
  cases h with
  | nil => rfl
  | fenced _ hy hz =>
    obtain ⟨c, y, rfl, -⟩ := exists_of_isFenced hy
    obtain ⟨d, z, rfl, -⟩ := exists_of_isFenced hz
    simp
  | stop => simp
  | cons => simp

theorem escapes_alike (h : Alike 1 y z) : escapes z = escapes y := by
  cases h with
  | nil => rfl
  | fenced _ hy hz => rw [escapes_of_isFenced hy, escapes_of_isFenced hz]
  | stop => rfl
  | cons => rfl

theorem startsDigit_alike (h : Alike 1 y z) : startsDigit z = startsDigit y := by
  cases h with
  | nil => rfl
  | fenced _ hy hz => rw [startsDigit_of_isFenced hy, startsDigit_of_isFenced hz]
  | stop => rfl
  | cons => rfl

theorem signLength_alike (h : Alike 1 y z) : signLength z = signLength y := by
  cases h with
  | nil => rfl
  | fenced _ hy hz => rw [signLength_of_isFenced hy, signLength_of_isFenced hz]
  | stop => rfl
  | cons => rfl

theorem continuesHyphen_alike (h : Alike 2 y z) : continuesHyphen z = continuesHyphen y := by
  cases h with
  | nil => rfl
  | fenced _ hy hz => rw [continuesHyphen_of_isFenced hy, continuesHyphen_of_isFenced hz]
  | stop _ _ _ hc => simp [continuesHyphen, ne_of_isStop hc (d := '\\') (by decide)]
  | cons c h => simp only [continuesHyphen, escapes_alike h]

theorem startsName_alike (h : Alike 3 y z) : startsName z = startsName y := by
  cases h with
  | nil => rfl
  | fenced _ hy hz => rw [startsName_of_isFenced hy, startsName_of_isFenced hz]
  | stop _ _ _ hc =>
    simp only [startsName, if_neg (ne_of_isStop hc (d := '-') (by decide)),
      if_neg (ne_of_isStop hc (d := '\\') (by decide))]
  | cons c h =>
    simp only [startsName, continuesHyphen_alike h, escapes_alike (h.mono (by omega))]

theorem startsHash_alike (h : Alike 2 y z) : startsHash z = startsHash y := by
  cases h with
  | nil => rfl
  | fenced _ hy hz => rw [startsHash_of_isFenced hy, startsHash_of_isFenced hz]
  | stop _ _ _ hc => simp [startsHash, ne_of_isStop hc (d := '\\') (by decide)]
  | cons c h => simp only [startsHash, escapes_alike h]

theorem startsFraction_alike (h : Alike 2 y z) : startsFraction z = startsFraction y := by
  cases h with
  | nil => rfl
  | fenced _ hy hz => rw [startsFraction_of_isFenced hy, startsFraction_of_isFenced hz]
  | stop _ _ _ hc => simp [startsFraction, ne_of_isStop hc (d := '.') (by decide)]
  | cons c h => simp only [startsFraction, startsDigit_alike h]

theorem startsNumber_alike (h : Alike 3 y z) : startsNumber z = startsNumber y := by
  have hfraction := startsFraction_alike (h.mono (by omega))
  have hdigit := startsDigit_alike (h.mono (by omega))
  cases h with
  | nil => rfl
  | fenced _ hy hz => rw [startsNumber_of_isFenced hy, startsNumber_of_isFenced hz]
  | @stop c _ y z hc =>
    have hsign : isSign c = false := by
      simp [isSign, ne_of_isStop hc (d := '+') (by decide), ne_of_isStop hc (d := '-') (by decide)]
    simp only [startsNumber, hsign, hfraction]
    rfl
  | cons c h =>
    simp only [startsNumber, startsDigit_alike (h.mono (by omega)), startsFraction_alike h,
      hfraction]
    rfl

/-- A word whose characters are no fences, and are looked past where the word goes
on, starts both texts or none. -/
theorem isPrefixOf_alike (word : List Char) (hw : word.all fun c => !isFence c)
    (hs : word.dropLast.all fun c => !isStop c) (h : Alike word.length y z) :
    word.isPrefixOf z = word.isPrefixOf y := by
  simp only [List.all_eq_true, Bool.not_eq_true'] at hw hs
  induction word generalizing y z with
  | nil => rfl
  | cons d word ih =>
    obtain ⟨hd, hword⟩ := List.forall_mem_cons.mp hw
    have hne (cs : List Char) (hcs : isFenced cs) : (d :: word).isPrefixOf cs = false := by
      obtain ⟨c, cs, rfl, hc, -⟩ := exists_of_isFenced hcs
      rw [List.isPrefixOf_cons_cons, beq_false_of_ne (ne_of_isFence hc hd).symm, Bool.false_and]
    cases h with
    | nil => rfl
    | fenced _ hy hz => rw [hne _ hy, hne _ hz]
    | @stop c _ y z hc =>
      rw [List.isPrefixOf_cons_cons, List.isPrefixOf_cons_cons]
      cases word with
      | nil => rfl
      | cons e word =>
        have hne := (ne_of_isStop hc (hs d List.mem_cons_self)).symm
        rw [beq_false_of_ne hne, Bool.false_and, Bool.false_and]
    | cons c h =>
      rw [List.isPrefixOf_cons_cons, List.isPrefixOf_cons_cons, ih h hword fun e he => hs e ?_]
      cases word with
      | nil => cases he
      | cons e' word => exact List.mem_cons_of_mem d he

end Ahead

/-! ### Scanners that end in front of both -/

section Lengths

variable {x y z : List Char}

theorem runLength_alike (hyz : Alike 1 y z) {p : Char → Bool} (hp : ∀ c, isFence c → p c = false)
    (h : runLength p (x ++ y) ≤ x.length) : runLength p (x ++ z) = runLength p (x ++ y) := by
  induction x with
  | nil =>
    have hhead := head?_alike hyz hp
    have hzero : ∀ cs : List Char, runLength p cs = 0 ↔ cs.head?.any p = false := by
      intro cs
      cases cs with
      | nil => simp [runLength]
      | cons c cs => cases hc : p c <;> simp [runLength, hc]
    have hy : runLength p y = 0 := Nat.le_zero.mp h
    rw [List.nil_append, List.nil_append, hy, hzero, hhead, ← hzero, hy]
  | cons c x ih =>
    by_cases hc : p c
    · have hlength : ∀ w, runLength p (c :: (x ++ w)) = 1 + runLength p (x ++ w) := by
        intro w
        simp [runLength, hc, Nat.add_comm]
      rw [List.cons_append, hlength, List.length_cons] at h
      rw [List.cons_append, List.cons_append, hlength, hlength, ih (by omega)]
    · simp [runLength, hc]

theorem hexTailLength_eq_zero_iff {n : Nat} {cs : List Char} : hexTailLength n cs = 0 ↔
    cs.head?.any (fun c => isSpace c || (decide (n ≠ 0) && isHexDigit c)) = false := by
  cases cs with
  | nil => simp [hexTailLength]
  | cons c cs =>
    cases n with
    | zero => cases hc : isSpace c <;> simp [hexTailLength, hc]
    | succ n => cases hc : isSpace c <;> cases hx : isHexDigit c <;> simp [hexTailLength, hc, hx]

theorem hexTailLength_alike (hyz : Alike 1 y z) {n : Nat}
    (h : hexTailLength n (x ++ y) ≤ x.length) :
    hexTailLength n (x ++ z) = hexTailLength n (x ++ y) := by
  induction x generalizing n with
  | nil =>
    have hy : hexTailLength n y = 0 := Nat.le_zero.mp h
    have hhead := head?_alike hyz (p := fun c => isSpace c || (decide (n ≠ 0) && isHexDigit c))
      fun c hc => by simp [isSpace_of_isFence hc, isHexDigit_of_isFence hc]
    rw [List.nil_append, List.nil_append, hy, hexTailLength_eq_zero_iff, hhead,
      ← hexTailLength_eq_zero_iff, hy]
  | cons c x ih =>
    cases n with
    | zero => rfl
    | succ n =>
      simp only [List.cons_append, hexTailLength, List.length_cons] at h ⊢
      split
      next hc =>
        rw [if_pos hc] at h
        rw [ih (by omega)]
      next => rfl

theorem escapeLength_alike (hyz : Alike 1 y z) (h : escapeLength (x ++ y) ≤ x.length) :
    escapeLength (x ++ z) = escapeLength (x ++ y) := by
  cases x with
  | nil =>
    have hy : y = [] := by
      by_contra hne
      exact absurd h (Nat.not_le.mpr (escapeLength_pos hne))
    rw [List.nil_append, List.nil_append, (eq_nil_alike hyz).mpr hy, hy]
  | cons c x =>
    simp only [List.cons_append, escapeLength, List.length_cons] at h ⊢
    split
    next hc =>
      rw [if_pos hc] at h
      rw [hexTailLength_alike hyz (by omega)]
    next => rfl

theorem drop_append_of_add_le {m n : Nat} (h : m + n ≤ x.length) (w : List Char) :
    (x ++ w).drop m = x.drop m ++ w ∧ n ≤ (x.drop m).length := by
  refine ⟨List.drop_append_of_le_length (by omega), ?_⟩
  rw [List.length_drop]
  omega

theorem nameLength_of_not_startsHash {cs : List Char} (h : startsHash cs = false) :
    nameLength cs = 0 := by
  cases cs with
  | nil => rw [nameLength]
  | cons c cs =>
    rw [startsHash, Bool.or_eq_false_iff] at h
    rw [nameLength, if_neg (by simp [h.1]), if_neg (by simp only [h.2]; decide)]

theorem nameLength_alike (hyz : Alike 2 y z) (h : nameLength (x ++ y) ≤ x.length) :
    nameLength (x ++ z) = nameLength (x ++ y) := by
  have hone : Alike 1 y z := hyz.mono (by omega)
  generalize hxy : x ++ y = cs at h
  fun_induction nameLength cs generalizing x with
  | case1 =>
    obtain ⟨rfl, hy⟩ := List.append_eq_nil_iff.mp hxy
    rw [List.nil_append, (eq_nil_alike hone).mpr hy, nameLength]
  | case2 c cs hc ih =>
    obtain ⟨x, rfl, rfl⟩ := exists_cons_of_append hxy (by omega)
    rw [List.length_cons] at h
    rw [List.cons_append, nameLength, if_pos hc, ih rfl (by omega)]
  | case3 c cs hn hc ih =>
    obtain ⟨x, rfl, rfl⟩ := exists_cons_of_append hxy (by omega)
    rw [List.length_cons, Nat.add_assoc, Nat.add_comm 1, Nat.add_le_add_iff_right] at h
    have hescape := escapeLength_alike hone (x := x) (by omega)
    have hc' : (c = '\\' && escapes (x ++ z)) = true := by
      rwa [escapes_alike (hone.append x)]
    obtain ⟨hdrop, hle⟩ := drop_append_of_add_le h y
    obtain ⟨hdrop', -⟩ := drop_append_of_add_le h z
    rw [hdrop] at hle h ih
    rw [List.cons_append, nameLength, if_neg hn, if_pos hc', hescape, hdrop, hdrop', ih rfl hle]
  | case4 c cs hn hc =>
    have hstarts : startsHash (x ++ y) = false := by
      rw [hxy, startsHash, Bool.or_eq_false_iff]
      exact ⟨Bool.not_eq_true _ ▸ hn, Bool.not_eq_true _ ▸ hc⟩
    rw [← startsHash_alike (hyz.append x)] at hstarts
    exact nameLength_of_not_startsHash hstarts

theorem fractionLength_alike (hyz : Alike 2 y z) (h : fractionLength (x ++ y) ≤ x.length) :
    fractionLength (x ++ z) = fractionLength (x ++ y) := by
  unfold fractionLength at h ⊢
  rw [startsFraction_alike (hyz.append x)]
  split
  next hf =>
    rw [if_pos hf] at h
    cases x with
    | nil => exact absurd h (by simp)
    | cons c x =>
      simp only [List.cons_append, List.tail_cons, List.length_cons] at h ⊢
      rw [runLength_alike (hyz.mono (by omega)) (fun _ => isDigit_of_isFence) (by omega)]
  next => rfl

theorem startsDigit_unsigned_alike (h : Alike 2 y z) :
    startsDigit (z.drop (signLength z)) = startsDigit (y.drop (signLength y)) := by
  have hsign := signLength_alike (h.mono (m := 1) (by omega))
  cases h with
  | nil => rfl
  | fenced _ hy hz =>
    rw [signLength_of_isFenced hy, signLength_of_isFenced hz]
    exact (startsDigit_of_isFenced hz).trans (startsDigit_of_isFenced hy).symm
  | @stop c _ y z hc =>
    have hnone : isSign c = false := by
      simp [isSign, ne_of_isStop hc (d := '+') (by decide), ne_of_isStop hc (d := '-') (by decide)]
    simp [signLength, hnone, startsDigit]
  | @cons _ y z c h =>
    rw [hsign, signLength]
    split
    · exact startsDigit_alike h
    · rfl

/-- At the end of the text an exponent would start a name. -/
theorem exponentLength_alike (hyz : Alike 3 y z) (hx : x = [] → startsName y = false)
    (h : exponentLength (x ++ y) ≤ x.length) :
    exponentLength (x ++ z) = exponentLength (x ++ y) := by
  cases x with
  | nil =>
    have hzero : ∀ cs : List Char, startsName cs = false → exponentLength cs = 0 := by
      intro cs hcs
      cases cs with
      | nil => rfl
      | cons c cs =>
        rw [exponentLength, if_neg]
        intro he
        simp only [Bool.and_eq_true, Bool.or_eq_true, decide_eq_true_eq] at he
        rcases he.1 with rfl | rfl <;> cases hcs
    have hz := startsName_alike hyz
    rw [hx rfl] at hz
    rw [List.nil_append, List.nil_append, hzero y (hx rfl), hzero z hz]
  | cons c x =>
    simp only [List.cons_append, exponentLength, List.length_cons] at h ⊢
    have hone := hyz.mono (m := 1) (by omega)
    rw [startsDigit_unsigned_alike ((hyz.mono (by omega)).append x),
      signLength_alike (hone.append x)]
    split
    next hd =>
      rw [if_pos hd, Nat.add_assoc, Nat.add_comm, Nat.add_le_add_iff_right] at h
      obtain ⟨hdrop, hle⟩ := drop_append_of_add_le h y
      rw [hdrop] at hle
      rw [hdrop, (drop_append_of_add_le h z).1,
        runLength_alike hone (fun _ => isDigit_of_isFence) hle]
    next => rfl

theorem decimalLength_alike (hyz : Alike 2 y z) (h : decimalLength (x ++ y) ≤ x.length) :
    decimalLength (x ++ z) = decimalLength (x ++ y) := by
  have hone := hyz.mono (m := 1) (by omega)
  simp only [decimalLength] at h ⊢
  have hsign : signLength (x ++ y) ≤ x.length := by omega
  have hdrop (w : List Char) := @List.drop_append_of_le_length _ _ w _ hsign
  rw [hdrop] at h ⊢
  have hwhole := drop_append_of_add_le h
  obtain ⟨hdrop', hle⟩ := hwhole y
  rw [hdrop'] at hle ⊢
  rw [signLength_alike (hone.append x), hdrop, runLength_alike hone (fun _ => isDigit_of_isFence)
    (by rw [List.length_drop]; omega), (hwhole z).1, fractionLength_alike hyz hle]

theorem numberLength_alike (hyz : Alike 3 y z)
    (hx : x.drop (decimalLength (x ++ y)) = [] → startsName y = false)
    (h : numberLength (x ++ y) ≤ x.length) : numberLength (x ++ z) = numberLength (x ++ y) := by
  unfold numberLength at h ⊢
  have hdecimal := decimalLength_alike (hyz.mono (by omega)) (x := x) (by omega)
  obtain ⟨hdrop, hle⟩ := drop_append_of_add_le h y
  rw [hdrop] at hle ⊢
  rw [hdecimal, (drop_append_of_add_le h z).1, exponentLength_alike hyz hx hle]

theorem badUrlLength_alike (hyz : Alike 1 y z) (h : badUrlLength (x ++ y) ≤ x.length) :
    badUrlLength (x ++ z) = badUrlLength (x ++ y) := by
  generalize hxy : x ++ y = cs at h
  fun_induction badUrlLength cs generalizing x with
  | case1 =>
    obtain ⟨rfl, hy⟩ := List.append_eq_nil_iff.mp hxy
    rw [List.nil_append, (eq_nil_alike hyz).mpr hy, badUrlLength]
  | case2 cs =>
    obtain ⟨x, rfl, rfl⟩ := exists_cons_of_append hxy (by omega)
    rw [List.cons_append, badUrlLength, if_pos rfl]
  | case3 c cs hn hc ih =>
    obtain ⟨x, rfl, rfl⟩ := exists_cons_of_append hxy (by omega)
    rw [List.length_cons, Nat.add_assoc, Nat.add_comm 1, Nat.add_le_add_iff_right] at h
    have hc' : (c = '\\' && escapes (x ++ z)) = true := by
      rwa [escapes_alike (hyz.append x)]
    obtain ⟨hdrop, hle⟩ := drop_append_of_add_le h y
    rw [hdrop] at hle ih
    rw [List.cons_append, badUrlLength, if_neg hn, if_pos hc',
      escapeLength_alike hyz (x := x) (by omega), hdrop, (drop_append_of_add_le h z).1, ih rfl hle]
  | case4 c cs hn hc ih =>
    obtain ⟨x, rfl, rfl⟩ := exists_cons_of_append hxy (by omega)
    rw [List.length_cons] at h
    have hc' : ¬ (c = '\\' && escapes (x ++ z)) = true := by
      rwa [escapes_alike (hyz.append x)]
    rw [List.cons_append, badUrlLength, if_neg hn, if_neg hc', ih rfl (by omega)]

end Lengths

/-! ### Tokens that end in front of both -/

section Tokens

variable {x y z : List Char}

theorem scanNumber_alike (hyz : Alike 3 y z) (h : (scanNumber (x ++ y)).length ≤ x.length) :
    scanNumber (x ++ z) = scanNumber (x ++ y) := by
  have hle := Nat.le_trans (numberLength_le_length_scanNumber (x ++ y)) h
  have hdrop (w : List Char) := @List.drop_append_of_le_length _ _ w _ hle
  -- what follows the number behind its last digit would be its unit
  have hunit : x.drop (numberLength (x ++ y)) = [] → startsName y = false := by
    intro hnil
    by_contra hname
    rw [Bool.not_eq_false] at hname
    have hpos : 0 < nameLength y := by
      cases y with
      | nil => cases hname
      | cons c y => exact nameLength_pos hname
    rw [scanNumber, hdrop, hnil, List.nil_append, if_pos hname] at h
    rw [List.drop_eq_nil_iff] at hnil
    dsimp only at h
    omega
  have hnumber : numberLength (x ++ z) = numberLength (x ++ y) := by
    refine numberLength_alike hyz (fun hnil => hunit ?_) hle
    rw [List.drop_eq_nil_iff] at hnil ⊢
    exact Nat.le_trans hnil (Nat.le_add_right _ _)
  have hrest := hyz.append (x.drop (numberLength (x ++ y)))
  have hpercent := head?_eq_alike (hrest.mono (m := 1) (by omega)) (d := '%') (by decide)
  simp only [scanNumber, hdrop] at h ⊢
  rw [hnumber, hdrop, startsName_alike hrest]
  simp only [hpercent]
  split
  next hn =>
    rw [if_pos hn] at h
    have hle : numberLength (x ++ y) + nameLength (x.drop (numberLength (x ++ y)) ++ y) ≤
        x.length := h
    rw [nameLength_alike (hyz.mono (by omega)) (by rw [List.length_drop]; omega)]
  next => rfl

theorem two_le_length_of_comment {cs : List Char} (h : (scanComment cs).kind = .comment true) :
    2 ≤ (scanComment cs).length := by
  fun_induction scanComment cs with
  | case1 => cases h
  | case2 => exact Nat.le_refl 2
  | case3 c cs _ ih => exact Nat.le_trans (ih h) (Nat.le_add_left _ 1)

/-- A comment that is closed inside of a text is the same whatever follows. -/
theorem scanComment_append (z : List Char) (h : (scanComment (x ++ y)).kind = .comment true)
    (hn : (scanComment (x ++ y)).length ≤ x.length) :
    scanComment (x ++ z) = scanComment (x ++ y) := by
  have htwo := Nat.le_trans (two_le_length_of_comment h) hn
  induction x with
  | nil => cases htwo
  | cons c x ih =>
    have hhead : (x ++ z).head? = (x ++ y).head? := by
      cases x with
      | nil =>
        rw [List.length_singleton] at htwo
        omega
      | cons d x => rfl
    simp only [List.cons_append, scanComment, hhead] at h hn ⊢
    split
    next => rfl
    next hc =>
      rw [if_neg hc] at h hn
      have hle : (scanComment (x ++ y)).length ≤ x.length := by
        simp only [Lexeme.extend, List.length_cons] at hn
        omega
      rw [ih h hle (Nat.le_trans (two_le_length_of_comment h) hle)]

/-- A comment is closed, or it reaches to the end. -/
theorem scanComment_eq_or (cs : List Char) :
    (scanComment cs).kind = .comment true ∨ (scanComment cs).length = cs.length := by
  fun_induction scanComment cs with
  | case1 => exact .inr rfl
  | case2 => exact .inl rfl
  | case3 c cs _ ih =>
    refine ih.imp id fun h => ?_
    rw [Lexeme.extend, h, List.length_cons, Nat.add_comm]

theorem scanComment_alike (hyz : Alike 1 y z) (h : (scanComment (x ++ y)).length ≤ x.length) :
    scanComment (x ++ z) = scanComment (x ++ y) := by
  rcases scanComment_eq_or (x ++ y) with hclosed | hopen
  · exact scanComment_append z hclosed h
  · rw [hopen, List.length_append] at h
    have hy : y = [] := List.eq_nil_of_length_eq_zero (by omega)
    rw [(eq_nil_alike hyz).mpr hy, hy]

theorem scanString_alike (hyz : Alike 1 y z) {quote : Char}
    (h : (scanString quote (x ++ y)).length ≤ x.length) :
    scanString quote (x ++ z) = scanString quote (x ++ y) := by
  generalize hxy : x ++ y = cs at h
  fun_induction scanString quote cs generalizing x with
  | case1 =>
    obtain ⟨rfl, hy⟩ := List.append_eq_nil_iff.mp hxy
    rw [List.nil_append, (eq_nil_alike hyz).mpr hy, scanString]
  | case2 cs =>
    obtain ⟨x, rfl, rfl⟩ := exists_cons_of_append hxy h
    rw [List.cons_append, scanString, if_pos rfl]
  | case3 c cs hne hc =>
    have hhead : (x ++ z).head? = some c := by
      rw [head?_eq_alike (hyz.append x), hxy]
      · rfl
      · rw [isFence, isSpace_of_isNewline hc]
        simp
    obtain ⟨rest, hrest⟩ := List.head?_eq_some_iff.mp hhead
    rw [hrest, scanString, if_neg hne, if_pos hc]
  | case4 cs hne hc ih =>
    simp only [Lexeme.extend, Nat.add_assoc] at h
    obtain ⟨x, rfl, rfl⟩ := exists_cons_of_append hxy (by omega)
    rw [List.length_cons, Nat.add_comm 1, Nat.add_le_add_iff_right] at h
    obtain ⟨hdrop, hle⟩ := drop_append_of_add_le h y
    rw [hdrop] at hle ih
    rw [List.cons_append, scanString, if_neg hne, if_neg hc, if_pos rfl,
      escapeLength_alike hyz (x := x) (by omega), hdrop, (drop_append_of_add_le h z).1, ih rfl hle]
  | case5 c cs hne hc he ih =>
    simp only [Lexeme.extend] at h
    obtain ⟨x, rfl, rfl⟩ := exists_cons_of_append hxy (by omega)
    rw [List.length_cons] at h
    rw [List.cons_append, scanString, if_neg hne, if_neg hc, if_neg he, ih rfl (by omega)]

theorem scanUrl_alike (hyz : Alike 1 y z) (h : (scanUrl (x ++ y)).length ≤ x.length) :
    scanUrl (x ++ z) = scanUrl (x ++ y) := by
  generalize hxy : x ++ y = cs at h
  fun_induction scanUrl cs generalizing x with
  | case1 =>
    obtain ⟨rfl, hy⟩ := List.append_eq_nil_iff.mp hxy
    rw [List.nil_append, (eq_nil_alike hyz).mpr hy, scanUrl]
  | case2 =>
    obtain ⟨x, rfl, rfl⟩ := exists_cons_of_append hxy h
    rw [List.cons_append, scanUrl, if_pos rfl]
  | case3 c cs hp hc =>
    rename_i hd
    dsimp only at h
    obtain ⟨x, rfl, rfl⟩ := exists_cons_of_append hxy (by omega)
    rw [List.length_cons] at h
    have hrun : runLength isSpace (x ++ y) ≤ x.length := by omega
    have hy : y = [] := by
      rw [List.drop_append_of_le_length hrun] at hd
      exact (List.append_eq_nil_iff.mp hd).2
    obtain rfl := hy
    obtain rfl := (eq_nil_alike hyz).mpr rfl
    simp only [List.cons_append, scanUrl, if_neg hp, if_pos hc, hd]
    rfl
  | case4 c cs hp hc =>
    rename_i ds hd
    dsimp only at h
    obtain ⟨x, rfl, rfl⟩ := exists_cons_of_append hxy (by omega)
    rw [List.length_cons] at h
    have hrun : runLength isSpace (x ++ y) < x.length := by omega
    have hrun' := runLength_alike hyz (fun _ => isSpace_of_isFence) (Nat.le_of_lt hrun)
    obtain ⟨ds, hds, rfl⟩ := exists_drop_eq_cons hrun hd
    simp only [List.cons_append, scanUrl, if_neg hp, if_pos hc, hrun',
      List.drop_append_of_le_length (Nat.le_of_lt hrun), hds, if_true]
    rfl
  | case5 c cs hp hc =>
    rename_i d ds hd hdp
    have hpos := badUrlLength_pos (List.cons_ne_nil d ds)
    dsimp only at h
    obtain ⟨x, rfl, rfl⟩ := exists_cons_of_append hxy (by omega)
    rw [List.length_cons] at h
    have hrun : runLength isSpace (x ++ y) < x.length := by omega
    have hrun' := runLength_alike hyz (fun _ => isSpace_of_isFence) (Nat.le_of_lt hrun)
    obtain ⟨ds, hds, rfl⟩ := exists_drop_eq_cons hrun hd
    have hlength := congrArg List.length hds
    rw [List.length_drop] at hlength
    have hbad : badUrlLength (d :: ds ++ y) ≤ (d :: ds).length := by
      rw [List.cons_append]
      omega
    simp only [List.cons_append, scanUrl, if_neg hp, if_pos hc, hrun',
      List.drop_append_of_le_length (Nat.le_of_lt hrun), hds, if_neg hdp]
    rw [← List.cons_append, badUrlLength_alike hyz hbad]
    rfl
  | case6 c cs hp hc hq =>
    dsimp only at h
    obtain ⟨x, rfl, rfl⟩ := exists_cons_of_append hxy (by omega)
    rw [List.length_cons] at h
    rw [List.cons_append, scanUrl, if_neg hp, if_neg hc, if_pos hq,
      badUrlLength_alike hyz (by omega)]
  | case7 cs he hp hc hq ih =>
    simp only [Lexeme.extend, Nat.add_assoc] at h
    obtain ⟨x, rfl, rfl⟩ := exists_cons_of_append hxy (by omega)
    rw [List.length_cons, Nat.add_comm 1, Nat.add_le_add_iff_right] at h
    obtain ⟨hdrop, hle⟩ := drop_append_of_add_le h y
    rw [hdrop] at hle ih
    have he' : escapes (x ++ z) = true := by rwa [escapes_alike (hyz.append x)]
    rw [List.cons_append, scanUrl, if_neg hp, if_neg hc, if_neg hq, if_pos rfl, if_pos he',
      escapeLength_alike hyz (x := x) (by omega), hdrop, (drop_append_of_add_le h z).1, ih rfl hle]
  | case8 cs he hp hc hq =>
    dsimp only at h
    obtain ⟨x, rfl, rfl⟩ := exists_cons_of_append hxy (by omega)
    rw [List.length_cons] at h
    have he' : ¬ escapes (x ++ z) = true := by rwa [escapes_alike (hyz.append x)]
    rw [List.cons_append, scanUrl, if_neg hp, if_neg hc, if_neg hq, if_pos rfl, if_neg he',
      badUrlLength_alike hyz (by omega)]
  | case9 c cs hp hc hq he ih =>
    simp only [Lexeme.extend] at h
    obtain ⟨x, rfl, rfl⟩ := exists_cons_of_append hxy (by omega)
    rw [List.length_cons] at h
    rw [List.cons_append, scanUrl, if_neg hp, if_neg hc, if_neg hq, if_neg he, ih rfl (by omega)]

theorem nameBefore_alike (hyz : Alike 1 y z) {isUrl : Bool} {n : Nat}
    (h : (nameBefore isUrl n (x ++ y)).length ≤ n + x.length) :
    nameBefore isUrl n (x ++ z) = nameBefore isUrl n (x ++ y) := by
  have hident : ∀ cs : List Char, cs.head? ≠ some '(' → nameBefore isUrl n cs = ⟨.ident, n⟩ := by
    intro cs hcs
    cases cs with
    | nil => rfl
    | cons c cs => rw [nameBefore, if_neg fun hc => hcs (congrArg some hc)]
  by_cases hparen : (x ++ y).head? = some '('
  · cases x with
    | nil =>
      obtain ⟨rest, hrest⟩ := List.head?_eq_some_iff.mp hparen
      have hlt := lt_length_nameBefore isUrl n rest
      rw [hrest, List.length_nil] at h
      omega
    | cons c x =>
      rw [List.cons_append, nameBefore] at h ⊢
      rw [List.cons_append, nameBefore]
      obtain rfl : c = '(' := Option.some.inj hparen
      rw [if_pos rfl] at h ⊢
      rw [if_pos rfl]
      cases isUrl with
      | false => rfl
      | true =>
        simp only [if_true] at h ⊢
        have hrun : runLength isSpace (x ++ y) ≤ x.length := by
          rw [List.length_cons] at h
          split at h
          · dsimp only at h
            omega
          · simp only [Lexeme.extend] at h
            omega
        have hdrop (w : List Char) := @List.drop_append_of_le_length _ _ w _ hrun
        have hquote := head?_alike (hyz.append (x.drop (runLength isSpace (x ++ y))))
          (p := isQuote) fun c hc => (of_isFence hc).2.2.1
        rw [hdrop] at h
        rw [runLength_alike hyz (fun _ => isSpace_of_isFence) hrun, hdrop, hdrop, hquote]
        split
        next => rfl
        next hq =>
          rw [if_neg hq] at h
          have hurl : (scanUrl (x.drop (runLength isSpace (x ++ y)) ++ y)).length ≤
              (x.drop (runLength isSpace (x ++ y))).length := by
            simp only [Lexeme.extend, List.length_cons] at h
            rw [List.length_drop]
            omega
          rw [scanUrl_alike hyz hurl]
  · have hparen' : (x ++ z).head? ≠ some '(' := by
      rwa [Ne, head?_eq_alike (hyz.append x) (by decide)]
    rw [hident _ hparen, hident _ hparen']

theorem scanNamed_alike (hyz : Alike 2 y z) (h : (scanNamed (x ++ y)).length ≤ x.length) :
    scanNamed (x ++ z) = scanNamed (x ++ y) := by
  rw [scanNamed_eq] at h
  have hname := Nat.le_trans (le_length_nameBefore _ _ _) h
  have hsize : nameLength (x ++ y) + (x.drop (nameLength (x ++ y))).length = x.length := by
    rw [List.length_drop]
    omega
  have hdrop (w : List Char) := @List.drop_append_of_le_length _ _ w _ hname
  have htake (w : List Char) := @List.take_append_of_le_length _ _ w _ hname
  rw [htake, hdrop, ← hsize] at h
  rw [scanNamed_eq, scanNamed_eq (x ++ y), nameLength_alike hyz hname, htake, htake, hdrop, hdrop]
  exact nameBefore_alike (hyz.mono (by omega)) h

/-- **A token that ends in front of one text ends in front of every other one that
is alike.** -/
theorem scan_alike {c : Char} (hyz : Alike 3 y z) (h : (scan c (x ++ y)).length ≤ (c :: x).length) :
    scan c (x ++ z) = scan c (x ++ y) := by
  have hone := hyz.mono (m := 1) (by omega)
  have htwo := hyz.mono (m := 2) (by omega)
  have hhead := head?_eq_alike (hone.append x) (d := '*') (by decide)
  have hhash := startsHash_alike (htwo.append x)
  have hnumber := startsNumber_alike (hyz.append (c :: x))
  have hcdc := isPrefixOf_alike ['-', '>'] rfl rfl (htwo.append x)
  have hcdo := isPrefixOf_alike ['!', '-', '-'] rfl rfl (hyz.append x)
  have hname := startsName_alike (hyz.append x)
  have hnamed := startsName_alike (hyz.append (c :: x))
  rw [List.cons_append, List.cons_append] at hnumber hnamed
  rw [List.length_cons, Nat.add_comm] at h
  unfold scan at h ⊢
  simp only [hhead]
  rw [hhash, hnumber, hcdc, hcdo, hname, hnamed]
  -- the tests agree, so the branches are compared one by one
  refine ite_congr rfl (fun hc => ?_) fun hc => ?_
  · rw [if_pos hc] at h
    simp only [Lexeme.extend] at h
    cases x with
    | nil =>
      rw [List.length_nil] at h
      omega
    | cons d x =>
      rw [List.length_cons] at h
      simp only [List.cons_append, List.tail_cons] at h ⊢
      rw [scanComment_alike hone (by omega)]
  rw [if_neg hc] at h
  refine ite_congr rfl (fun hspace => ?_) fun hspace => ?_
  · rw [if_pos hspace] at h
    rw [runLength_alike hone (fun _ => isSpace_of_isFence) (Nat.le_of_add_le_add_left h)]
  rw [if_neg hspace] at h
  refine ite_congr rfl (fun hquote => ?_) fun hquote => ?_
  · rw [if_pos hquote] at h
    rw [scanString_alike hone (Nat.le_of_add_le_add_left h)]
  rw [if_neg hquote] at h
  refine ite_congr rfl (fun hsign => ?_) fun hsign => ?_
  · rw [if_pos hsign] at h
    refine ite_congr rfl (fun hstarts => ?_) fun _ => rfl
    rw [if_pos hstarts] at h
    rw [nameLength_alike htwo (Nat.le_of_add_le_add_left h)]
  rw [if_neg hsign] at h
  refine ite_congr rfl (fun hstarts => ?_) fun hstarts => ?_
  · rw [if_pos hstarts, Nat.add_comm] at h
    exact scanNumber_alike (x := c :: x) hyz h
  rw [if_neg hstarts] at h
  refine ite_congr rfl (fun _ => rfl) fun hmark => ite_congr rfl (fun _ => rfl) fun hmark' => ?_
  rw [if_neg hmark, if_neg hmark'] at h
  refine ite_congr rfl (fun hat => ?_) fun hat => ?_
  · rw [if_pos hat] at h
    refine ite_congr rfl (fun hstarts' => ?_) fun _ => rfl
    rw [if_pos hstarts'] at h
    rw [nameLength_alike htwo (Nat.le_of_add_le_add_left h)]
  rw [if_neg hat] at h
  refine ite_congr rfl (fun hstarts' => ?_) fun _ => rfl
  rw [if_pos hstarts', Nat.add_comm] at h
  exact scanNamed_alike (x := c :: x) htwo h

end Tokens

/-! ### All tokens of a text -/

/-- Whatever ends in front of the first text ends in front of the second. -/
def Yields (y z : List Char) : Prop :=
  ∀ c x, (scan c (x ++ y)).length ≤ (c :: x).length → scan c (x ++ z) = scan c (x ++ y)

theorem Alike.yields {y z : List Char} (h : Alike 3 y z) : Yields y z :=
  fun _ _ => scan_alike h

theorem Yields.append {y z : List Char} (h : Yields y z) (x : List Char) :
    Yields (x ++ y) (x ++ z) := by
  intro c w hle
  rw [← List.append_assoc] at hle ⊢
  rw [← List.append_assoc]
  exact h c (w ++ x) (Nat.le_trans hle (by simp))

/-- **The tokens of a text are the same in front of both.** -/
theorem lexFrom_yields {start : Nat} {y z : List Char} {run vs : List Token} (hyz : Yields y z)
    (h : lexFrom start ((textOf run).toList ++ y) = run ++ vs) :
    lexFrom start ((textOf run).toList ++ z) =
      run ++ lexFrom (start + (textOf run).utf8ByteSize) z := by
  induction run generalizing start with
  | nil => rfl
  | cons t run ih =>
    obtain ⟨c, w, rest, hcs, hlength, ht, hrest⟩ := exists_of_lexFrom_eq_cons h
    have htext : t.text.toList = c :: w := by rw [ht, String.toList_ofList]
    rw [textOf_cons, String.toList_append, htext, List.append_assoc, List.cons_append] at hcs
    obtain rfl : (textOf run).toList ++ y = rest :=
      List.append_cancel_left (List.cons.inj hcs).2
    have hscan := hyz c (w ++ (textOf run).toList) (by
      rw [List.append_assoc, hlength]
      simp)
    rw [List.append_assoc, List.append_assoc] at hscan
    rw [textOf_cons, String.toList_append, htext, List.append_assoc, List.cons_append,
      lexFrom_cons (by rw [hscan, hlength]), hscan, List.cons_append, String.utf8ByteSize_append,
      ← Nat.add_assoc, ← ih hrest.symm, ← ht]
    rw [← htext, String.ofList_toList]

end Token
end StyleScope
