/-
# The words that can name an animation

A word can name an animation if the whole of it matches a regular expression
(`identifierPattern`). The expression leaves open whether a hyphen in front is
taken by the optional one or by what follows it, and it looks ahead for a digit.
The check has no choices: it goes through the characters once with the first
hyphen as what follows, and once more behind it.

What a pattern can match is a relation (`Pattern.Takes`), so a word matches if
any way through the choices takes all of it. Behind the beginning there are none:
a character beyond ASCII, a letter, a digit, an underscore and a hyphen are no
backslash (`takes_later_iff`).

Key definitions: `Scope.Pattern`, `Scope.Pattern.Takes`, `Scope.identifierPattern`.
Key theorems: `Scope.takes_row_iff`, `Scope.takes_body_iff`,
`Scope.isIdentifier_iff_takes`.
-/
import StyleScope.Proofs.ShorthandNames

namespace StyleScope
namespace Scope

open Text

/-! ### Patterns -/

/-- A regular expression over characters that can look at the next one. -/
inductive Pattern where
  /-- One character that `p` holds of. -/
  | one (p : Char → Bool)
  | seq (first second : Pattern)
  | alt (left right : Pattern)
  /-- The pattern or nothing. -/
  | opt (r : Pattern)
  /-- The pattern any number of times. -/
  | star (r : Pattern)
  /-- Nothing, if no character that `p` holds of comes next. -/
  | notAhead (p : Char → Bool)

/-- The pattern can match the characters in front of `rest`. -/
inductive Pattern.Takes : Pattern → List Char → List Char → Prop where
  | one {p : Char → Bool} {c : Char} {rest : List Char} (h : p c) :
    Takes (.one p) (c :: rest) rest
  | seq {r s : Pattern} {cs ds rest : List Char} (hr : Takes r cs ds) (hs : Takes s ds rest) :
    Takes (.seq r s) cs rest
  | left {r s : Pattern} {cs rest : List Char} (h : Takes r cs rest) : Takes (.alt r s) cs rest
  | right {r s : Pattern} {cs rest : List Char} (h : Takes s cs rest) : Takes (.alt r s) cs rest
  | none {r : Pattern} {rest : List Char} : Takes (.opt r) rest rest
  | some {r : Pattern} {cs rest : List Char} (h : Takes r cs rest) : Takes (.opt r) cs rest
  | done {r : Pattern} {rest : List Char} : Takes (.star r) rest rest
  | again {r : Pattern} {cs ds rest : List Char} (h : Takes r cs ds)
    (hs : Takes (.star r) ds rest) : Takes (.star r) cs rest
  | notAhead {p : Char → Bool} {rest : List Char} (h : rest.head?.any p = false) :
    Takes (.notAhead p) rest rest

/-- `[a-z_]`, ignoring the case of ASCII letters. -/
def startClass (c : Char) : Bool :=
  ('a' ≤ c.toLower && c.toLower ≤ 'z') || c = '_'

/-- `[0-9]`. -/
def digitClass (c : Char) : Bool :=
  '0' ≤ c && c ≤ '9'

/-- `[a-z0-9_-]`, ignoring the case of ASCII letters. -/
def laterClass (c : Char) : Bool :=
  startClass c || digitClass c || c = '-'

def beyondAscii (c : Char) : Bool :=
  128 ≤ c.toNat

/-- A backslash and any character but a carriage return, a line feed or a form
feed. -/
def escapePattern : Pattern :=
  .seq (.one (· = '\\')) (.one fun c => c ≠ '\r' && c ≠ '\n' && c ≠ '\x0c')

/-- The beginning of an identifier behind the optional hyphen. -/
def firstPattern : Pattern :=
  .alt (.one startClass) (.alt (.one beyondAscii)
    (.alt escapePattern (.seq (.one (· = '-')) (.notAhead digitClass))))

def laterPattern : Pattern :=
  .alt (.one laterClass) (.alt (.one beyondAscii) escapePattern)

/-- `-?([a-z_]|non-ASCII|\escape|-(?!digit))([a-z0-9_-]|non-ASCII|\escape)*`. -/
def identifierPattern : Pattern :=
  .seq (.opt (.one (· = '-'))) (.seq firstPattern (.star laterPattern))

namespace Pattern

variable {p : Char → Bool} {r s : Pattern} {cs rest : List Char}

theorem takes_one_iff : (one p).Takes cs rest ↔ ∃ c, cs = c :: rest ∧ p c := by
  constructor
  · intro h
    cases h with
    | one h => exact ⟨_, rfl, h⟩
  · rintro ⟨c, rfl, h⟩
    exact .one h

theorem takes_seq_iff : (seq r s).Takes cs rest ↔ ∃ ds, r.Takes cs ds ∧ s.Takes ds rest := by
  constructor
  · intro h
    cases h with
    | seq hr hs => exact ⟨_, hr, hs⟩
  · rintro ⟨ds, hr, hs⟩
    exact .seq hr hs

theorem takes_alt_iff : (alt r s).Takes cs rest ↔ r.Takes cs rest ∨ s.Takes cs rest := by
  constructor
  · intro h
    cases h with
    | left h => exact .inl h
    | right h => exact .inr h
  · rintro (h | h)
    · exact .left h
    · exact .right h

theorem takes_opt_iff : (opt r).Takes cs rest ↔ cs = rest ∨ r.Takes cs rest := by
  constructor
  · intro h
    cases h with
    | none => exact .inl rfl
    | some h => exact .inr h
  · rintro (rfl | h)
    · exact .none
    · exact .some h

theorem takes_star_iff :
    (star r).Takes cs rest ↔ cs = rest ∨ ∃ ds, r.Takes cs ds ∧ (star r).Takes ds rest := by
  constructor
  · intro h
    cases h with
    | done => exact .inl rfl
    | again h hs => exact .inr ⟨_, h, hs⟩
  · rintro (rfl | ⟨ds, h, hs⟩)
    · exact .done
    · exact .again h hs

theorem takes_notAhead_iff :
    (notAhead p).Takes cs rest ↔ cs = rest ∧ rest.head?.any p = false := by
  constructor
  · intro h
    cases h with
    | notAhead h => exact ⟨rfl, h⟩
  · rintro ⟨rfl, h⟩
    exact .notAhead h

end Pattern

open Pattern

/-! ### Character classes -/

/-- A capital letter stands 32 places in front of its lower case. -/
theorem toNat_toLower {c : Char} (h : 65 ≤ c.toNat ∧ c.toNat ≤ 90) :
    c.toLower.toNat = c.toNat + 32 := by
  have hcapital : c.val ≥ 'A'.val ∧ c.val ≤ 'Z'.val := by
    rw [ge_iff_le, UInt32.le_iff_toNat_le, UInt32.le_iff_toNat_le]
    exact h
  have hlower : c.toLower.val = c.val + 32 := congrArg Char.val (dif_pos hcapital)
  have hadd : (c.val + 32).toNat = (c.toNat + 32) % 2 ^ 32 := UInt32.toNat_add c.val 32
  rw [Char.toNat, hlower, hadd]
  omega

/-- Letters are `a` to `z` in lower case. -/
theorem startClass_eq (c : Char) : startClass c = (isLetter c || decide (c = '_')) := by
  have hclass : (('a' ≤ c.toLower) ∧ c.toLower ≤ 'z') ↔
      97 ≤ c.toLower.toNat ∧ c.toLower.toNat ≤ 122 := by
    simp only [Char.le_def, UInt32.le_iff_toNat_le]
    exact Iff.rfl
  rw [startClass, Bool.eq_iff_iff]
  simp only [Bool.or_eq_true, Bool.and_eq_true, decide_eq_true_eq, hclass, isLetter_iff]
  refine or_congr_left ?_
  by_cases hc : 65 ≤ c.toNat ∧ c.toNat ≤ 90
  · rw [toNat_toLower hc]
    omega
  · have hlower : c.toLower = c := by
      refine dif_neg fun h => hc ?_
      rwa [ge_iff_le, UInt32.le_iff_toNat_le, UInt32.le_iff_toNat_le] at h
    rw [hlower]
    omega

theorem isNameStart_eq (c : Char) : isNameStart c = (startClass c || beyondAscii c) := by
  have hascii : (!isAscii c) = beyondAscii c := by
    simp only [isAscii, beyondAscii, ← decide_not, Nat.not_lt]
  rw [isNameStart, startClass_eq, hascii]

theorem isName_eq (c : Char) : isName c = (laterClass c || beyondAscii c) := by
  rw [isName, isNameStart_eq, laterClass, show isDigit c = digitClass c from rfl]
  cases startClass c <;> cases beyondAscii c <;> cases digitClass c <;>
    cases decide (c = '-') <;> rfl

/-! ### Pieces -/

theorem takes_escape_iff {cs rest : List Char} :
    escapePattern.Takes cs rest ↔ ∃ d, cs = '\\' :: d :: rest ∧ isNewline d = false := by
  have hnewline (d : Char) :
      (d ≠ '\r' && d ≠ '\n' && d ≠ '\x0c') = !isNewline d := by
    rw [isNewline]
    by_cases hr : d = '\r' <;> by_cases hn : d = '\n' <;> simp [hr, hn]
  rw [escapePattern, takes_seq_iff]
  simp only [takes_one_iff, hnewline, decide_eq_true_eq, Bool.not_eq_true']
  constructor
  · rintro ⟨_, ⟨_, rfl, rfl⟩, d, rfl, hd⟩
    exact ⟨d, rfl, hd⟩
  · rintro ⟨d, rfl, hd⟩
    exact ⟨_, ⟨_, rfl, rfl⟩, d, rfl, hd⟩

/-- What stands for one character behind the beginning. -/
theorem takes_later_iff {cs rest : List Char} :
    laterPattern.Takes cs rest ↔
      (∃ c, cs = c :: rest ∧ isName c) ∨ ∃ d, cs = '\\' :: d :: rest ∧ isNewline d = false := by
  simp only [laterPattern, takes_alt_iff, takes_one_iff, takes_escape_iff, isName_eq,
    Bool.or_eq_true, and_or_left, exists_or, or_assoc]

theorem takes_first_iff {cs rest : List Char} :
    firstPattern.Takes cs rest ↔
      (∃ c, cs = c :: rest ∧ isNameStart c) ∨ (∃ d, cs = '\\' :: d :: rest ∧ isNewline d = false) ∨
        cs = '-' :: rest ∧ rest.head?.any isDigit = false := by
  have hhyphen : (seq (.one (· = '-')) (.notAhead digitClass)).Takes cs rest ↔
      cs = '-' :: rest ∧ rest.head?.any isDigit = false := by
    simp only [takes_seq_iff, takes_one_iff, takes_notAhead_iff, decide_eq_true_eq]
    constructor
    · rintro ⟨_, ⟨_, rfl, rfl⟩, rfl, hd⟩
      exact ⟨rfl, hd⟩
    · rintro ⟨rfl, hd⟩
      exact ⟨rest, ⟨_, rfl, rfl⟩, rfl, hd⟩
  simp only [firstPattern, takes_alt_iff, takes_one_iff, takes_escape_iff, hhyphen, isNameStart_eq,
    Bool.or_eq_true, and_or_left, exists_or, or_assoc]

/-! ### The choices at a character -/

section Choices

variable {cs rest : List Char}

theorem takes_later_backslash :
    laterPattern.Takes ('\\' :: cs) rest ↔ ∃ d, cs = d :: rest ∧ isNewline d = false := by
  rw [takes_later_iff]
  constructor
  · rintro (⟨c, h, hn⟩ | ⟨d, h, hd⟩)
    · cases h
      exact absurd rfl (ne_backslash_of_isName hn)
    · cases h
      exact ⟨d, rfl, hd⟩
  · rintro ⟨d, rfl, hd⟩
    exact .inr ⟨d, rfl, hd⟩

theorem takes_later_of_ne {c : Char} (hc : c ≠ '\\') :
    laterPattern.Takes (c :: cs) rest ↔ cs = rest ∧ isName c := by
  rw [takes_later_iff]
  constructor
  · rintro (⟨d, h, hn⟩ | ⟨d, h, -⟩)
    · cases h
      exact ⟨rfl, hn⟩
    · cases h
      exact absurd rfl hc
  · rintro ⟨rfl, hn⟩
    exact .inl ⟨c, rfl, hn⟩

theorem takes_first_hyphen :
    firstPattern.Takes ('-' :: cs) rest ↔ cs = rest ∧ cs.head?.any isDigit = false := by
  rw [takes_first_iff]
  constructor
  · rintro (⟨c, h, hn⟩ | ⟨d, h, -⟩ | ⟨h, hd⟩)
    · cases h
      exact absurd hn (by decide)
    · cases h
    · cases h
      exact ⟨rfl, hd⟩
  · rintro ⟨rfl, hd⟩
    exact .inr (.inr ⟨rfl, hd⟩)

theorem takes_first_backslash :
    firstPattern.Takes ('\\' :: cs) rest ↔ ∃ d, cs = d :: rest ∧ isNewline d = false := by
  rw [takes_first_iff]
  constructor
  · rintro (⟨c, h, hn⟩ | ⟨d, h, hd⟩ | ⟨h, -⟩)
    · cases h
      exact absurd hn (by decide)
    · cases h
      exact ⟨d, rfl, hd⟩
    · cases h
  · rintro ⟨d, rfl, hd⟩
    exact .inr (.inl ⟨d, rfl, hd⟩)

theorem takes_first_of_ne {c : Char} (hc : c ≠ '-') (hb : c ≠ '\\') :
    firstPattern.Takes (c :: cs) rest ↔ cs = rest ∧ isNameStart c := by
  rw [takes_first_iff]
  constructor
  · rintro (⟨d, h, hn⟩ | ⟨d, h, -⟩ | ⟨h, -⟩)
    · cases h
      exact ⟨rfl, hn⟩
    · cases h
      exact absurd rfl hb
    · cases h
      exact absurd rfl hc
  · rintro ⟨rfl, hn⟩
    exact .inl ⟨c, rfl, hn⟩

end Choices

/-! ### The whole word -/

theorem takes_row_cons {c : Char} {cs : List Char} :
    (star laterPattern).Takes (c :: cs) [] ↔
      ∃ ds, laterPattern.Takes (c :: cs) ds ∧ (star laterPattern).Takes ds [] := by
  rw [takes_star_iff, or_iff_right (List.cons_ne_nil c cs)]

/-- **Behind the beginning the check goes on exactly as far as the pattern can.** -/
theorem takes_row_iff {cs : List Char} :
    (star laterPattern).Takes cs [] ↔ continuesIdentifier cs := by
  fun_induction continuesIdentifier cs with
  | case1 => exact iff_of_true .done rfl
  | case2 =>
    -- a backslash with nothing behind it
    simp only [takes_row_cons, takes_later_backslash]
    exact iff_of_false (by simp) Bool.false_ne_true
  | case3 d ds ih =>
    simp only [takes_row_cons, takes_later_backslash]
    rw [Bool.and_eq_true, Bool.not_eq_true', ← ih]
    constructor
    · rintro ⟨_, ⟨_, h, hd⟩, hrow⟩
      cases h
      exact ⟨hd, hrow⟩
    · rintro ⟨hd, hrow⟩
      exact ⟨ds, ⟨d, rfl, hd⟩, hrow⟩
  | case4 c cs hc ih =>
    simp only [takes_row_cons, takes_later_of_ne hc, Bool.and_eq_true, ← ih, and_assoc,
      exists_eq_left']

/-- **From a given beginning on the check accepts what the pattern can match.** -/
theorem takes_body_iff {cs : List Char} :
    (seq firstPattern (.star laterPattern)).Takes cs [] ↔ isIdentifierBody cs := by
  simp only [takes_seq_iff, takes_row_iff]
  cases cs with
  | nil =>
    refine iff_of_false ?_ Bool.false_ne_true
    simp [takes_first_iff]
  | cons c cs =>
    rw [isIdentifierBody]
    by_cases hc : c = '-'
    · subst hc
      simp only [takes_first_hyphen, if_true, Bool.and_eq_true, Bool.not_eq_true', and_assoc,
        exists_eq_left']
    · rw [if_neg hc]
      by_cases hb : c = '\\'
      · subst hb
        -- the escape could stand behind the beginning as well
        rw [if_pos rfl, ← takes_row_iff, takes_row_cons]
        simp only [takes_first_backslash, takes_later_backslash, takes_row_iff]
      · simp only [takes_first_of_ne hc hb, if_neg hb, Bool.and_eq_true, and_assoc,
          exists_eq_left']

/-- **A word can name an animation exactly if the whole of it matches the
pattern, whichever way through its choices that takes.** -/
theorem isIdentifier_iff_takes (word : String) :
    isIdentifier word ↔ identifierPattern.Takes word.toList [] := by
  rw [identifierPattern, takes_seq_iff]
  simp only [takes_opt_iff, takes_one_iff, takes_body_iff, decide_eq_true_eq, isIdentifier]
  cases word.toList with
  | nil =>
    refine iff_of_false Bool.false_ne_true ?_
    rintro ⟨ds, rfl | ⟨c, h, -⟩, hbody⟩
    · exact absurd hbody (by decide)
    · cases h
  | cons c cs =>
    rw [Bool.or_eq_true, Bool.and_eq_true, decide_eq_true_eq]
    constructor
    · rintro (h | ⟨hc, h⟩)
      · exact ⟨_, .inl rfl, h⟩
      · exact ⟨cs, .inr ⟨c, rfl, hc⟩, h⟩
    · rintro ⟨ds, rfl | ⟨d, h, hd⟩, hbody⟩
      · exact .inl hbody
      · cases h
        exact .inr ⟨hd, hbody⟩

/-- The second hyphen may begin the word, and a digit may not follow the only one. -/
example : isIdentifier "--5" ∧ ¬ isIdentifier "-5" ∧ isIdentifier "-" := by decide +kernel

end Scope
end StyleScope
