/-
# Texts with one form of line ending

A line ends in LF, in CR, in a form feed, or in CR and LF. `Text.unify` puts one
LF for each. To the tests of the lexer all newlines are alike, so its scanners
find as many characters in the changed text as in the text, as long as they come
across no pair of CR and LF (`Steady`).

They can end inside of a pair. An escape takes one character of white space
behind its digits, and in a string the newline behind a backslash; if that is
the CR of a pair, the LF is left (`escapeLength_unify`). In a name or a string
nothing else is a newline, and one that ends inside of a pair is over there, so
all others are as long as they were (`nameLength_unify`, `scanString_unify`).

Key definitions: `Text.unify`, `Text.NoPair`, `Text.SplitsPair`,
`Text.EscapesPair`.
Key theorems: `Text.unify_eq_append`, `Token.nameLength_unify`,
`Token.scanString_unify`.
-/
import StyleScope.Proofs.Seam

namespace StyleScope

/-! ### One form of line ending -/

namespace Text

/-- Every newline as a line feed. -/
def breakOf (c : Char) : Char :=
  if isNewline c then '\n' else c

/-- The text with each pair of CR and LF, and each other newline, as one line
feed. -/
def unify : List Char → List Char
  | [] => []
  | c :: cs => if c = '\r' ∧ cs.head? = some '\n' then unify cs else breakOf c :: unify cs

def unifyText (s : String) : String :=
  String.ofList (unify s.toList)

theorem breakOf_cases (c : Char) : breakOf c = c ∨ isNewline c ∧ breakOf c = '\n' := by
  unfold breakOf
  split
  next h => exact .inr ⟨h, rfl⟩
  next => exact .inl rfl

/-- What holds of all newlines or of none is not changed. -/
theorem apply_breakOf {α : Type} {f : Char → α} (hf : ∀ c, isNewline c → f c = f '\n') (c : Char) :
    f (breakOf c) = f c := by
  rcases breakOf_cases c with h | ⟨hc, h⟩
  · rw [h]
  · rw [h, hf c hc]

theorem eq_of_isNewline {c : Char} (h : isNewline c) : c = '\n' ∨ c = '\r' ∨ c = '\x0c' := by
  simpa [isNewline, or_assoc] using h

@[simp] theorem isNewline_breakOf (c : Char) : isNewline (breakOf c) = isNewline c :=
  apply_breakOf (fun _ h => by rcases eq_of_isNewline h with rfl | rfl | rfl <;> rfl) c

@[simp] theorem isSpace_breakOf (c : Char) : isSpace (breakOf c) = isSpace c :=
  apply_breakOf (fun _ h => by rcases eq_of_isNewline h with rfl | rfl | rfl <;> rfl) c

@[simp] theorem isDigit_breakOf (c : Char) : isDigit (breakOf c) = isDigit c :=
  apply_breakOf (fun _ h => by rcases eq_of_isNewline h with rfl | rfl | rfl <;> rfl) c

@[simp] theorem isHexDigit_breakOf (c : Char) : isHexDigit (breakOf c) = isHexDigit c :=
  apply_breakOf (fun _ h => by rcases eq_of_isNewline h with rfl | rfl | rfl <;> rfl) c

@[simp] theorem isNameStart_breakOf (c : Char) : isNameStart (breakOf c) = isNameStart c :=
  apply_breakOf (fun _ h => by rcases eq_of_isNewline h with rfl | rfl | rfl <;> rfl) c

@[simp] theorem isName_breakOf (c : Char) : isName (breakOf c) = isName c :=
  apply_breakOf (fun _ h => by rcases eq_of_isNewline h with rfl | rfl | rfl <;> rfl) c

/-- A character that is no newline is what it was. -/
theorem breakOf_eq_iff {c d : Char} (hd : isNewline d = false) : breakOf c = d ↔ c = d := by
  have hdecide : decide (breakOf c = d) = decide (c = d) := by
    refine apply_breakOf (f := fun c => decide (c = d)) (fun e he => ?_) c
    have hne : ∀ e, isNewline e → e ≠ d := by
      rintro e he rfl
      rw [he] at hd
      cases hd
    rw [decide_eq_false (hne e he), decide_eq_false (hne '\n' rfl)]
  simpa using hdecide

@[simp] theorem breakOf_eq_hyphen {c : Char} : breakOf c = '-' ↔ c = '-' :=
  breakOf_eq_iff rfl

@[simp] theorem breakOf_eq_backslash {c : Char} : breakOf c = '\\' ↔ c = '\\' :=
  breakOf_eq_iff rfl

theorem head?_unify (cs : List Char) : (unify cs).head? = cs.head?.map breakOf := by
  induction cs with
  | nil => rfl
  | cons c cs ih =>
    rw [unify]
    split
    next h =>
      rw [ih, h.2, List.head?_cons, h.1]
      rfl
    next => rfl

theorem unify_of_ne {c : Char} (hc : c ≠ '\r') (cs : List Char) :
    unify (c :: cs) = breakOf c :: unify cs :=
  if_neg fun h => hc h.1

theorem exists_unify_cons (c : Char) (cs : List Char) :
    ∃ ds, unify (c :: cs) = breakOf c :: ds ∧ (c ≠ '\r' → ds = unify cs) := by
  by_cases hc : c = '\r'
  · have hhead := head?_unify (c :: cs)
    obtain ⟨ds, hds⟩ := List.head?_eq_some_iff.mp hhead
    exact ⟨ds, hds, fun hne => absurd hc hne⟩
  · exact ⟨unify cs, unify_of_ne hc cs, fun _ => rfl⟩

/-- In the first `n` characters no pair of CR and LF starts. -/
def NoPair : Nat → List Char → Prop
  | 0, _ => True
  | _ + 1, [] => True
  | n + 1, c :: cs => ¬ (c = '\r' ∧ cs.head? = some '\n') ∧ NoPair n cs

theorem noPair_nil (n : Nat) : NoPair n [] := by
  cases n <;> trivial

theorem NoPair.add {m n : Nat} {cs : List Char} (hm : NoPair m cs) (hn : NoPair n (cs.drop m)) :
    NoPair (m + n) cs := by
  induction m generalizing cs with
  | zero => simpa using hn
  | succ m ih =>
    cases cs with
    | nil => exact noPair_nil _
    | cons c cs =>
      rw [Nat.add_right_comm]
      exact ⟨hm.1, ih hm.2 hn⟩

theorem noPair_one {c : Char} (hc : c ≠ '\r') (cs : List Char) : NoPair 1 (c :: cs) :=
  ⟨fun h => hc h.1, trivial⟩

/-- In front of the first pair the text is changed one by one. -/
theorem NoPair.unify_eq {n : Nat} {cs : List Char} (h : NoPair n cs) :
    unify cs = (cs.take n).map breakOf ++ unify (cs.drop n) := by
  induction n generalizing cs with
  | zero => rfl
  | succ n ih =>
    cases cs with
    | nil => rfl
    | cons c cs =>
      rw [unify, if_neg h.1, ih h.2]
      rfl

theorem NoPair.drop_unify {n : Nat} {cs : List Char} (h : NoPair n cs) :
    (unify cs).drop n = unify (cs.drop n) := by
  by_cases hn : n ≤ cs.length
  · rw [h.unify_eq]
    have hlength : ((cs.take n).map breakOf).length = n := by
      rw [List.length_map, List.length_take, Nat.min_eq_left hn]
    exact List.drop_left' hlength
  · have hn : cs.length ≤ n := Nat.le_of_not_le hn
    rw [h.unify_eq, List.drop_eq_nil_of_le hn, List.take_of_length_le hn]
    exact List.drop_eq_nil_of_le (by simpa [unify] using hn)

/-- The first `n` characters end between the CR and the LF of a pair. -/
def SplitsPair (n : Nat) (cs : List Char) : Prop :=
  ∃ front behind, cs = front ++ '\r' :: '\n' :: behind ∧ n = front.length + 1

theorem SplitsPair.add {m n : Nat} {cs : List Char} (h : SplitsPair n (cs.drop m))
    (hm : m ≤ cs.length) : SplitsPair (m + n) cs := by
  obtain ⟨front, behind, hcs, rfl⟩ := h
  refine ⟨cs.take m ++ front, behind, ?_, ?_⟩
  · rw [List.append_assoc, ← hcs, List.take_append_drop]
  · rw [List.length_append, List.length_take, Nat.min_eq_left hm, Nat.add_assoc]

theorem SplitsPair.cons {n : Nat} {cs : List Char} (h : SplitsPair n cs) (c : Char) :
    SplitsPair (1 + n) (c :: cs) :=
  SplitsPair.add (m := 1) h (by simp)

theorem SplitsPair.drop {m n : Nat} {cs : List Char} (h : SplitsPair (m + n) cs) (hn : 0 < n) :
    SplitsPair n (cs.drop m) := by
  obtain ⟨front, behind, rfl, hlength⟩ := h
  refine ⟨front.drop m, behind, ?_, ?_⟩
  · rw [List.drop_append_of_le_length (by omega)]
  · rw [List.length_drop]
    omega

theorem SplitsPair.drop_eq {n : Nat} {cs : List Char} (h : SplitsPair n cs) :
    ∃ behind, cs.drop n = '\n' :: behind := by
  obtain ⟨front, behind, rfl, rfl⟩ := h
  refine ⟨behind, ?_⟩
  rw [List.append_cons]
  exact List.drop_left' (by rw [List.length_append, List.length_singleton])

theorem NoPair.not_splitsPair {n : Nat} {cs : List Char} (h : NoPair n cs) :
    ¬ SplitsPair n cs := by
  rintro ⟨front, behind, rfl, rfl⟩
  induction front with
  | nil => exact h.1 ⟨rfl, rfl⟩
  | cons c front ih => exact ih h.2

theorem SplitsPair.of_take {m n : Nat} {cs : List Char} (h : SplitsPair n (cs.take m)) :
    SplitsPair n cs := by
  obtain ⟨front, behind, htake, rfl⟩ := h
  refine ⟨front, behind ++ cs.drop m, ?_, rfl⟩
  calc cs = cs.take m ++ cs.drop m := (List.take_append_drop m cs).symm
    _ = _ := by rw [htake, List.append_assoc]; rfl

/-- A text that is cut between two pairs is changed part by part. -/
theorem unify_eq_append {n : Nat} {cs : List Char} (h : ¬ SplitsPair n cs) :
    unify cs = unify (cs.take n) ++ unify (cs.drop n) := by
  induction n generalizing cs with
  | zero => rfl
  | succ n ih =>
    cases cs with
    | nil => rfl
    | cons c cs =>
      have hrest := ih fun hsplit => h (by rw [Nat.add_comm]; exact hsplit.cons c)
      rw [List.take_succ_cons, List.drop_succ_cons, unify, unify, hrest]
      by_cases hpair : c = '\r' ∧ cs.head? = some '\n'
      · obtain ⟨rfl, hhead⟩ := hpair
        obtain ⟨behind, rfl⟩ := List.head?_eq_some_iff.mp hhead
        cases n with
        | zero => exact absurd ⟨[], behind, rfl, rfl⟩ h
        | succ n => rfl
      · have hpair' : ¬ (c = '\r' ∧ (cs.take n).head? = some '\n') := by
          rintro ⟨hc, hhead⟩
          cases n with
          | zero => cases hhead
          | succ n =>
            cases cs with
            | nil => cases hhead
            | cons d cs => exact hpair ⟨hc, hhead⟩
        rw [if_neg hpair, if_neg hpair', List.cons_append]

/-- How many characters the first `n` are in the changed text. -/
def image (n : Nat) (cs : List Char) : Nat :=
  (unify (cs.take n)).length

theorem image_add {m n : Nat} {cs : List Char} (h : ¬ SplitsPair m cs) :
    image (m + n) cs = image m cs + image n (cs.drop m) := by
  have htake : (cs.take (m + n)).take m = cs.take m := by
    rw [List.take_take, Nat.min_eq_left (Nat.le_add_right m n)]
  have hdrop : (cs.take (m + n)).drop m = (cs.drop m).take n := by
    rw [List.drop_take, Nat.add_sub_cancel_left]
  rw [image, unify_eq_append fun hsplit => h (SplitsPair.of_take hsplit), htake, hdrop,
    List.length_append]
  rfl

theorem image_of_noPair {n : Nat} {cs : List Char} (h : NoPair n cs) (hn : n ≤ cs.length) :
    image n cs = n := by
  have hall := congrArg List.length h.unify_eq
  have hparts := congrArg List.length (unify_eq_append h.not_splitsPair)
  rw [List.length_append, List.length_map, List.length_take, Nat.min_eq_left hn] at hall
  rw [List.length_append] at hparts
  unfold image
  omega

theorem image_add_of_noPair {m n : Nat} {cs : List Char} (h : NoPair m cs) (hm : m ≤ cs.length) :
    image (m + n) cs = m + image n (cs.drop m) := by
  rw [image_add h.not_splitsPair, image_of_noPair h hm]

theorem takeWhile_unify (cs : List Char) :
    (unify cs).takeWhile isSpace = unify (cs.takeWhile isSpace) := by
  induction cs with
  | nil => rfl
  | cons c cs ih =>
    by_cases hc : isSpace c
    · rw [List.takeWhile_cons_of_pos hc, unify, unify]
      have hhead : (cs.takeWhile isSpace).head? = some '\n' ↔ cs.head? = some '\n' := by
        cases cs with
        | nil => rfl
        | cons d cs =>
          by_cases hd : isSpace d
          · rw [List.takeWhile_cons_of_pos hd]
            rfl
          · have hne : d ≠ '\n' := by
              rintro rfl
              exact hd rfl
            simp [List.takeWhile_cons_of_neg hd, hne]
      simp only [hhead]
      split
      · exact ih
      · rw [List.takeWhile_cons_of_pos (by rwa [isSpace_breakOf]), ih]
    · obtain ⟨ds, hds, -⟩ := exists_unify_cons c cs
      rw [hds, List.takeWhile_cons_of_neg hc, List.takeWhile_cons_of_neg (by rwa [isSpace_breakOf])]
      rfl

theorem dropWhile_unify (cs : List Char) :
    (unify cs).dropWhile isSpace = unify (cs.dropWhile isSpace) := by
  induction cs with
  | nil => rfl
  | cons c cs ih =>
    by_cases hc : isSpace c
    · rw [List.dropWhile_cons_of_pos hc, unify]
      split
      · exact ih
      · rw [List.dropWhile_cons_of_pos (by rwa [isSpace_breakOf]), ih]
    · have hne : c ≠ '\r' := by
        rintro rfl
        exact hc rfl
      rw [List.dropWhile_cons_of_neg hc, unify_of_ne hne,
        List.dropWhile_cons_of_neg (by rwa [isSpace_breakOf])]

/-- The first `n` characters end between the CR and the LF of the first pair. -/
def EndsInPair (n : Nat) (cs : List Char) : Prop :=
  ∃ m behind, n = m + 1 ∧ NoPair m cs ∧ cs.drop m = '\r' :: '\n' :: behind

theorem EndsInPair.splitsPair {n : Nat} {cs : List Char} (h : EndsInPair n cs) :
    SplitsPair n cs := by
  obtain ⟨m, behind, rfl, -, hdrop⟩ := h
  have hm : m ≤ cs.length := by
    by_contra hlt
    rw [List.drop_eq_nil_of_le (Nat.le_of_not_le hlt)] at hdrop
    cases hdrop
  refine ⟨cs.take m, behind, ?_, ?_⟩
  · rw [← hdrop, List.take_append_drop]
  · rw [List.length_take, Nat.min_eq_left hm]

theorem EndsInPair.cons {n : Nat} {cs : List Char} (h : EndsInPair n cs) {c : Char}
    (hc : c ≠ '\r') : EndsInPair (1 + n) (c :: cs) := by
  obtain ⟨m, behind, rfl, hfree, hdrop⟩ := h
  refine ⟨1 + m, behind, by omega, (noPair_one hc cs).add hfree, ?_⟩
  rw [Nat.add_comm, List.drop_succ_cons, hdrop]

/-- Behind such a place the LF of the pair comes next, and in the changed text
what is behind the pair. -/
theorem EndsInPair.exists_behind {n : Nat} {cs : List Char} (h : EndsInPair n cs) :
    ∃ behind, cs.drop n = '\n' :: behind ∧ (unify cs).drop n = unify behind ∧
      ∀ m, image (n + (1 + m)) cs = n + image m behind := by
  obtain ⟨m, behind, rfl, hfree, hdrop⟩ := h
  have hm : m ≤ cs.length := by
    by_contra hlt
    rw [List.drop_eq_nil_of_le (Nat.le_of_not_le hlt)] at hdrop
    cases hdrop
  refine ⟨behind, ?_, ?_, fun k => ?_⟩
  · rw [← List.drop_drop, hdrop]
    rfl
  · rw [← List.drop_drop, hfree.drop_unify, hdrop]
    rfl
  · have hpair : image (1 + (1 + k)) ('\r' :: '\n' :: behind) = 1 + image k behind := by
      rw [image, Nat.add_comm 1 (1 + k), Nat.add_comm 1 k, List.take_succ_cons,
        List.take_succ_cons, Nat.add_comm]
      rfl
    rw [Nat.add_assoc, image_add_of_noPair hfree hm, hdrop, hpair, Nat.add_assoc]

theorem noPair_one_or (c : Char) (cs : List Char) :
    NoPair 1 (c :: cs) ∨ EndsInPair 1 (c :: cs) := by
  by_cases h : c = '\r' ∧ cs.head? = some '\n'
  · obtain ⟨rfl, hhead⟩ := h
    obtain ⟨behind, rfl⟩ := List.head?_eq_some_iff.mp hhead
    exact .inr ⟨0, behind, rfl, trivial, rfl⟩
  · exact .inl ⟨h, trivial⟩

/-- A pair stands behind at most `n` hex digits. -/
def MeetsPair (n : Nat) (cs : List Char) : Prop :=
  ∃ digits behind, cs = digits ++ '\r' :: '\n' :: behind ∧ digits.length ≤ n ∧
    ∀ d ∈ digits, isHexDigit d

/-- Somewhere a pair stands behind a backslash, or behind a backslash and up to
six hex digits. -/
def EscapesPair (cs : List Char) : Prop :=
  ∃ front rest, cs = front ++ '\\' :: rest ∧ MeetsPair 6 rest

theorem MeetsPair.escapesPair {cs : List Char} (h : MeetsPair 6 cs) :
    EscapesPair ('\\' :: cs) :=
  ⟨[], cs, rfl, h⟩

theorem EscapesPair.of_drop {n : Nat} {cs : List Char} (h : EscapesPair (cs.drop n)) :
    EscapesPair cs := by
  obtain ⟨front, rest, hdrop, hrest⟩ := h
  refine ⟨cs.take n ++ front, rest, ?_, hrest⟩
  rw [List.append_assoc, ← hdrop, List.take_append_drop]

theorem EscapesPair.cons {cs : List Char} (h : EscapesPair cs) (c : Char) :
    EscapesPair (c :: cs) :=
  EscapesPair.of_drop (n := 1) h

end Text

namespace Token

open Text

/-! ### Looking ahead -/

@[simp] theorem isQuote_breakOf (c : Char) : isQuote (breakOf c) = isQuote c :=
  apply_breakOf (fun _ h => by rcases eq_of_isNewline h with rfl | rfl | rfl <;> rfl) c

@[simp] theorem isSign_breakOf (c : Char) : isSign (breakOf c) = isSign c :=
  apply_breakOf (fun _ h => by rcases eq_of_isNewline h with rfl | rfl | rfl <;> rfl) c

section LookAhead

variable (cs : List Char)

@[simp] theorem escapes_unify : escapes (unify cs) = escapes cs := by
  cases cs with
  | nil => rfl
  | cons c cs =>
    obtain ⟨ds, hds, -⟩ := exists_unify_cons c cs
    simp [hds, escapes]

@[simp] theorem startsDigit_unify : startsDigit (unify cs) = startsDigit cs := by
  cases cs with
  | nil => rfl
  | cons c cs =>
    obtain ⟨ds, hds, -⟩ := exists_unify_cons c cs
    simp [hds, startsDigit]

@[simp] theorem signLength_unify : signLength (unify cs) = signLength cs := by
  cases cs with
  | nil => rfl
  | cons c cs =>
    obtain ⟨ds, hds, -⟩ := exists_unify_cons c cs
    simp [hds, signLength]

@[simp] theorem startsFraction_unify : startsFraction (unify cs) = startsFraction cs := by
  cases cs with
  | nil => rfl
  | cons c cs =>
    by_cases hc : c = '\r'
    · obtain ⟨ds, hds, -⟩ := exists_unify_cons c cs
      rw [hds, hc]
      rfl
    · rw [unify_of_ne hc, startsFraction, startsFraction, startsDigit_unify,
        decide_eq_decide.mpr (breakOf_eq_iff rfl)]

@[simp] theorem startsNumber_unify : startsNumber (unify cs) = startsNumber cs := by
  cases cs with
  | nil => rfl
  | cons c cs =>
    by_cases hc : c = '\r'
    · obtain ⟨ds, hds, -⟩ := exists_unify_cons c cs
      rw [hds, hc]
      rfl
    · have hdigit := startsDigit_unify (c :: cs)
      have hfraction := startsFraction_unify (c :: cs)
      rw [unify_of_ne hc] at hdigit hfraction ⊢
      simp [startsNumber, hdigit, hfraction]

@[simp] theorem continuesHyphen_unify : continuesHyphen (unify cs) = continuesHyphen cs := by
  cases cs with
  | nil => rfl
  | cons c cs =>
    by_cases hc : c = '\r'
    · obtain ⟨ds, hds, -⟩ := exists_unify_cons c cs
      rw [hds, hc]
      rfl
    · simp [unify_of_ne hc, continuesHyphen]

@[simp] theorem startsName_unify : startsName (unify cs) = startsName cs := by
  cases cs with
  | nil => rfl
  | cons c cs =>
    by_cases hc : c = '\r'
    · obtain ⟨ds, hds, -⟩ := exists_unify_cons c cs
      rw [hds, hc]
      rfl
    · simp [unify_of_ne hc, startsName]

@[simp] theorem startsHash_unify : startsHash (unify cs) = startsHash cs := by
  cases cs with
  | nil => rfl
  | cons c cs =>
    by_cases hc : c = '\r'
    · obtain ⟨ds, hds, -⟩ := exists_unify_cons c cs
      rw [hds, hc]
      rfl
    · simp [unify_of_ne hc, startsHash]

theorem isPrefixOf_unify {word : List Char} (hw : ∀ c ∈ word, isNewline c = false) :
    word.isPrefixOf (unify cs) = word.isPrefixOf cs := by
  induction word generalizing cs with
  | nil => simp
  | cons d word ih =>
    have hd := hw d List.mem_cons_self
    cases cs with
    | nil => rfl
    | cons c cs =>
      by_cases hc : c = '\r'
      · obtain ⟨ds, hds, -⟩ := exists_unify_cons c cs
        have hne : ∀ e, isNewline e → (d == e) = false := by
          intro e he
          rw [beq_eq_false_iff_ne]
          rintro rfl
          rw [he] at hd
          cases hd
        rw [hds, hc, List.isPrefixOf_cons_cons, List.isPrefixOf_cons_cons, hne '\r' rfl,
          hne _ (by rfl), Bool.false_and, Bool.false_and]
      · have heq : (d == breakOf c) = (d == c) := by
          rw [Bool.eq_iff_iff, beq_iff_eq, beq_iff_eq, eq_comm, breakOf_eq_iff hd, eq_comm]
        rw [unify_of_ne hc, List.isPrefixOf_cons_cons, List.isPrefixOf_cons_cons, heq,
          ih cs fun e he => hw e (List.mem_cons_of_mem d he)]

end LookAhead

/-! ### Numbers -/

/-- The scanner takes no newline, and the same in the changed text. -/
def Steady (f : List Char → Nat) : Prop :=
  ∀ cs, f (unify cs) = f cs ∧ NoPair (f cs) cs

theorem Steady.add {f g : List Char → Nat} (hf : Steady f) (hg : Steady g) :
    Steady fun cs => f cs + g (cs.drop (f cs)) := by
  intro cs
  obtain ⟨hf, hfree⟩ := hf cs
  obtain ⟨hg, hgfree⟩ := hg (cs.drop (f cs))
  refine ⟨?_, hfree.add hgfree⟩
  dsimp only
  rw [hf, hfree.drop_unify, hg]

theorem steady_runLength {p : Char → Bool} (hp : ∀ c, p (breakOf c) = p c)
    (hplain : p '\r' = false) : Steady (runLength p) := by
  intro cs
  induction cs with
  | nil => exact ⟨rfl, noPair_nil _⟩
  | cons c cs ih =>
    by_cases hc : p c
    · have hne : c ≠ '\r' := by
        rintro rfl
        rw [hplain] at hc
        cases hc
      have hlength : ∀ {d : Char} (ds : List Char), p d →
          runLength p (d :: ds) = 1 + runLength p ds := by
        intro d ds hd
        simp [runLength, hd, Nat.add_comm]
      rw [unify_of_ne hne, hlength _ hc, hlength _ (by rwa [hp]), ih.1]
      exact ⟨rfl, (noPair_one hne cs).add ih.2⟩
    · obtain ⟨ds, hds, -⟩ := exists_unify_cons c cs
      have hzero : ∀ {d : Char} (ds : List Char), ¬ p d → runLength p (d :: ds) = 0 := by
        intro d ds hd
        simp [runLength, hd]
      rw [hds, hzero _ hc, hzero _ (by rwa [hp])]
      exact ⟨rfl, trivial⟩

theorem steady_signLength : Steady signLength := by
  intro cs
  refine ⟨signLength_unify cs, ?_⟩
  cases cs with
  | nil => exact noPair_nil _
  | cons c cs =>
    rw [signLength]
    split
    next hc =>
      refine noPair_one ?_ cs
      rintro rfl
      cases hc
    next => trivial

theorem steady_digits : Steady (runLength isDigit) :=
  steady_runLength isDigit_breakOf rfl

theorem steady_fractionLength : Steady fractionLength := by
  intro cs
  unfold fractionLength
  rw [startsFraction_unify]
  by_cases hf : startsFraction cs
  · cases cs with
    | nil => cases hf
    | cons c cs =>
      have hc : c ≠ '\r' := by
        rintro rfl
        cases hf
      obtain ⟨hdigits, hfree⟩ := steady_digits cs
      rw [if_pos hf, if_pos hf, unify_of_ne hc, List.tail_cons, List.tail_cons, hdigits]
      exact ⟨rfl, (noPair_one hc cs).add hfree⟩
  · rw [if_neg hf, if_neg hf]
    exact ⟨rfl, trivial⟩

theorem steady_exponentLength : Steady exponentLength := by
  intro cs
  cases cs with
  | nil => exact ⟨rfl, noPair_nil _⟩
  | cons c cs =>
    by_cases hc : c = '\r'
    · obtain ⟨ds, hds, -⟩ := exists_unify_cons c cs
      rw [hds, hc]
      exact ⟨rfl, trivial⟩
    · obtain ⟨hsign, hfree⟩ := steady_signLength cs
      obtain ⟨hdigits, hfree'⟩ := steady_digits (cs.drop (signLength cs))
      have hmark : ((breakOf c = 'e' || breakOf c = 'E') : Bool) = (c = 'e' || c = 'E') := by
        rw [decide_eq_decide.mpr (breakOf_eq_iff rfl), decide_eq_decide.mpr (breakOf_eq_iff rfl)]
      rw [unify_of_ne hc, exponentLength, exponentLength, hsign, hfree.drop_unify,
        startsDigit_unify, hmark, hdigits]
      refine ⟨rfl, ?_⟩
      split
      · rw [Nat.add_assoc]
        exact (noPair_one hc cs).add (hfree.add hfree')
      · trivial

theorem steady_numberLength : Steady numberLength :=
  ((steady_signLength.add steady_digits).add steady_fractionLength).add steady_exponentLength

/-! ### Names and strings -/

theorem hexTailLength_unify (n : Nat) (cs : List Char) :
    hexTailLength n (unify cs) = hexTailLength n cs ∧
      (NoPair (hexTailLength n cs) cs ∨ EndsInPair (hexTailLength n cs) cs) := by
  induction n generalizing cs with
  | zero =>
    cases cs with
    | nil => exact ⟨rfl, .inl trivial⟩
    | cons c cs =>
      obtain ⟨ds, hds, -⟩ := exists_unify_cons c cs
      rw [hds, hexTailLength, hexTailLength, isSpace_breakOf]
      refine ⟨rfl, ?_⟩
      split
      · exact noPair_one_or c cs
      · exact .inl trivial
  | succ n ih =>
    cases cs with
    | nil => exact ⟨rfl, .inl trivial⟩
    | cons c cs =>
      by_cases hc : isHexDigit c
      · have hne : c ≠ '\r' := by
          rintro rfl
          cases hc
        obtain ⟨hlength, hfree⟩ := ih cs
        rw [unify_of_ne hne, hexTailLength, hexTailLength, isHexDigit_breakOf, if_pos hc,
          if_pos hc, hlength]
        exact ⟨rfl, hfree.imp (noPair_one hne cs).add fun hend => hend.cons hne⟩
      · obtain ⟨ds, hds, -⟩ := exists_unify_cons c cs
        rw [hds, hexTailLength, hexTailLength, isHexDigit_breakOf, isSpace_breakOf, if_neg hc,
          if_neg hc]
        refine ⟨rfl, ?_⟩
        split
        · exact noPair_one_or c cs
        · exact .inl trivial

/-- An escape takes as many characters of the changed text, and what it takes
may end inside of a pair. -/
theorem escapeLength_unify (cs : List Char) :
    escapeLength (unify cs) = escapeLength cs ∧
      (NoPair (escapeLength cs) cs ∨ EndsInPair (escapeLength cs) cs) := by
  cases cs with
  | nil => exact ⟨rfl, .inl trivial⟩
  | cons c cs =>
    by_cases hc : isHexDigit c
    · have hne : c ≠ '\r' := by
        rintro rfl
        cases hc
      obtain ⟨hlength, hfree⟩ := hexTailLength_unify 5 cs
      rw [unify_of_ne hne, escapeLength, escapeLength, isHexDigit_breakOf, if_pos hc, if_pos hc,
        hlength]
      exact ⟨rfl, hfree.imp (noPair_one hne cs).add fun hend => hend.cons hne⟩
    · obtain ⟨ds, hds, -⟩ := exists_unify_cons c cs
      rw [hds, escapeLength, escapeLength, isHexDigit_breakOf, if_neg hc, if_neg hc]
      exact ⟨rfl, noPair_one_or c cs⟩

theorem meetsPair_of_hexTailLength {n : Nat} {cs : List Char}
    (h : SplitsPair (hexTailLength n cs) cs) : MeetsPair n cs := by
  have hspace : ∀ {c : Char} {cs : List Char} {n : Nat},
      SplitsPair (if isSpace c then 1 else 0) (c :: cs) → MeetsPair n (c :: cs) := by
    rintro c cs n ⟨front, behind, hcs, hlength⟩
    split at hlength
    · obtain rfl := List.eq_nil_of_length_eq_zero (Nat.succ.inj hlength).symm
      exact ⟨[], behind, hcs, Nat.zero_le _, by simp⟩
    · cases hlength
  induction n generalizing cs with
  | zero =>
    cases cs with
    | nil =>
      obtain ⟨front, behind, -, hlength⟩ := h
      cases hlength
    | cons c cs => exact hspace h
  | succ n ih =>
    cases cs with
    | nil =>
      obtain ⟨front, behind, -, hlength⟩ := h
      cases hlength
    | cons c cs =>
      rw [hexTailLength] at h
      by_cases hc : isHexDigit c
      · rw [if_pos hc] at h
        have hpos : 0 < hexTailLength n cs := by
          by_contra hzero
          rw [Nat.eq_zero_of_not_pos hzero] at h
          refine (noPair_one ?_ cs).not_splitsPair h
          rintro rfl
          cases hc
        obtain ⟨digits, behind, hcs, hlength, hdigits⟩ := ih (h.drop hpos)
        refine ⟨c :: digits, behind, by rw [hcs]; rfl, Nat.succ_le_succ hlength, ?_⟩
        exact fun d hd => (List.mem_cons.mp hd).elim (fun heq => heq ▸ hc) (hdigits d)
      · rw [if_neg hc] at h
        exact hspace h

theorem meetsPair_of_escapeLength {cs : List Char} (h : SplitsPair (escapeLength cs) cs) :
    MeetsPair 6 cs := by
  cases cs with
  | nil =>
    obtain ⟨front, behind, -, hlength⟩ := h
    cases hlength
  | cons c cs =>
    have hsame : escapeLength (c :: cs) = 1 ∨
        escapeLength (c :: cs) = hexTailLength 6 (c :: cs) := by
      rw [escapeLength, hexTailLength]
      split
      · exact .inr rfl
      · exact .inl rfl
    rcases hsame with hone | htail
    · rw [hone] at h
      obtain ⟨front, behind, hcs, hlength⟩ := h
      obtain rfl := List.eq_nil_of_length_eq_zero (Nat.succ.inj hlength).symm
      exact ⟨[], behind, hcs, Nat.zero_le _, by simp⟩
    · rw [htail] at h
      exact meetsPair_of_hexTailLength h

theorem nameLength_of_splitsPair {n : Nat} {cs : List Char} (h : SplitsPair n cs) :
    nameLength (cs.drop n) = 0 := by
  obtain ⟨behind, hdrop⟩ := h.drop_eq
  rw [hdrop, nameLength, if_neg (by decide), if_neg (by simp)]

/-- What is split behind an escape is split in the whole. -/
theorem splitsPair_of_drop_escape {n : Nat} {cs : List Char}
    (h : SplitsPair n (cs.drop (escapeLength cs))) (c : Char) :
    SplitsPair (1 + escapeLength cs + n) (c :: cs) := by
  rw [Nat.add_assoc]
  exact (h.add (escapeLength_le cs)).cons c

/-- A name is as long in the changed text, unless it ends inside of a pair:
behind a pair that an escape takes in part the name is over. -/
theorem nameLength_unify {cs : List Char} (h : ¬ (SplitsPair (nameLength cs) cs ∧ EscapesPair cs)) :
    nameLength (unify cs) = nameLength cs ∧ NoPair (nameLength cs) cs := by
  fun_induction nameLength cs with
  | case1 => exact ⟨by simp [unify, nameLength], trivial⟩
  | case2 c cs hc ih =>
    have hne : c ≠ '\r' := by
      rintro rfl
      cases hc
    obtain ⟨hlength, hfree⟩ := ih fun hsplit => h ⟨hsplit.1.cons c, hsplit.2.cons c⟩
    rw [unify_of_ne hne, nameLength, isName_breakOf, if_pos hc, hlength]
    exact ⟨rfl, (noPair_one hne cs).add hfree⟩
  | case3 c cs hn hc ih =>
    have hne : c ≠ '\r' := by
      rintro rfl
      cases hc
    obtain ⟨hlength, hescape⟩ := escapeLength_unify cs
    have hescape : NoPair (escapeLength cs) cs := hescape.resolve_right fun hend => by
      obtain rfl : c = '\\' := of_decide_eq_true ((Bool.and_eq_true _ _).mp hc).1
      rw [nameLength_of_splitsPair hend.splitsPair] at h
      exact h ⟨hend.splitsPair.cons _, (meetsPair_of_escapeLength hend.splitsPair).escapesPair⟩
    obtain ⟨hname, hfree⟩ := ih fun hsplit =>
      h ⟨splitsPair_of_drop_escape hsplit.1 c, hsplit.2.of_drop.cons c⟩
    have hc' : (breakOf c = '\\' && escapes (unify cs)) = true := by
      rw [escapes_unify]
      simpa using hc
    rw [unify_of_ne hne, nameLength, isName_breakOf, if_neg hn, if_pos hc', hlength,
      hescape.drop_unify, hname]
    rw [Nat.add_assoc]
    exact ⟨rfl, (noPair_one hne cs).add (hescape.add hfree)⟩
  | case4 c cs hn hc =>
    refine ⟨?_, trivial⟩
    by_cases hne : c = '\r'
    · obtain ⟨ds, hds, -⟩ := exists_unify_cons c cs
      rw [hds, hne, nameLength]
      rfl
    · have hc' : ¬ (breakOf c = '\\' && escapes (unify cs)) = true := by
        rw [escapes_unify]
        simpa using hc
      rw [unify_of_ne hne, nameLength, isName_breakOf, if_neg hn, if_neg hc']

theorem not_isNewline_of_isQuote {c : Char} (h : isQuote c) : isNewline c = false := by
  simp only [isQuote, Bool.or_eq_true, decide_eq_true_eq] at h
  rcases h with rfl | rfl <;> rfl

theorem scanString_of_splitsPair {quote : Char} (hq : isQuote quote) {n : Nat} {cs : List Char}
    (h : SplitsPair n cs) : scanString quote (cs.drop n) = ⟨.badString, 0⟩ := by
  obtain ⟨behind, hdrop⟩ := h.drop_eq
  have hne : '\n' ≠ quote := by
    rintro rfl
    cases hq
  rw [hdrop, scanString, if_neg hne, if_pos (by rfl)]

/-- A string is the same in the changed text, unless it ends inside of a pair. -/
theorem scanString_unify {quote : Char} (hq : isQuote quote) {cs : List Char}
    (h : ¬ (SplitsPair (scanString quote cs).length cs ∧ EscapesPair cs)) :
    scanString quote (unify cs) = scanString quote cs ∧
      NoPair (scanString quote cs).length cs := by
  have hplain := not_isNewline_of_isQuote hq
  fun_induction scanString quote cs with
  | case1 => exact ⟨by simp [unify, scanString], trivial⟩
  | case2 cs =>
    have hne : quote ≠ '\r' := by
      rintro rfl
      cases hq
    have hsame : breakOf quote = quote := (breakOf_eq_iff hplain).mpr rfl
    rw [unify_of_ne hne, hsame, scanString, if_pos rfl]
    exact ⟨rfl, noPair_one hne cs⟩
  | case3 c cs hc hline =>
    obtain ⟨ds, hds, -⟩ := exists_unify_cons c cs
    rw [hds, scanString, if_neg (by rwa [breakOf_eq_iff hplain]),
      if_pos (by rwa [isNewline_breakOf])]
    exact ⟨rfl, trivial⟩
  | case4 cs hc hline ih =>
    have hne : '\\' ≠ '\r' := by decide
    obtain ⟨hlength, hescape⟩ := escapeLength_unify cs
    have hescape : NoPair (escapeLength cs) cs := hescape.resolve_right fun hend => by
      rw [scanString_of_splitsPair hq hend.splitsPair] at h
      exact h ⟨hend.splitsPair.cons _, (meetsPair_of_escapeLength hend.splitsPair).escapesPair⟩
    obtain ⟨hstring, hfree⟩ := ih fun hsplit =>
      h ⟨splitsPair_of_drop_escape hsplit.1 _, hsplit.2.of_drop.cons _⟩
    rw [unify_of_ne hne, breakOf_eq_backslash.mpr rfl, scanString, if_neg hc, if_neg hline,
      if_pos rfl, hlength, hescape.drop_unify, hstring]
    refine ⟨rfl, ?_⟩
    rw [Lexeme.extend, Nat.add_assoc]
    exact (noPair_one hne cs).add (hescape.add hfree)
  | case5 c cs hc hline hslash ih =>
    have hne : c ≠ '\r' := by
      rintro rfl
      exact hline rfl
    obtain ⟨hstring, hfree⟩ := ih fun hsplit => h ⟨hsplit.1.cons c, hsplit.2.cons c⟩
    rw [unify_of_ne hne, scanString, if_neg (by rwa [breakOf_eq_iff hplain]),
      if_neg (by rwa [isNewline_breakOf]), if_neg (by rwa [breakOf_eq_backslash]), hstring]
    exact ⟨rfl, (noPair_one hne cs).add hfree⟩

end Token
end StyleScope
