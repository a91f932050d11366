/-
# Text of a stylesheet

The character classes and the case folding that the grammar of stylesheets
uses. Two notions of white space occur and differ: the five characters that
separate tokens (`isSpace`), and the Unicode property `White_Space` that
trimming and the recognition of `@keyframes` preludes use (`isBlank`).

Key definitions: `isSpace`, `isNewline`, `isBlank`, `trim`, `lower`,
`sameWord`, `endsInWord`.
-/

namespace StyleScope
namespace Text

/-! ### Character classes -/

/-- The white space that separates tokens. -/
def isSpace (c : Char) : Bool :=
  c = '\n' || c = '\t' || c = ' ' || c = '\r' || c = '\x0c'

/-- The characters that end a line, and with it an unfinished string. -/
def isNewline (c : Char) : Bool :=
  c = '\n' || c = '\r' || c = '\x0c'

def isDigit (c : Char) : Bool :=
  '0' ≤ c && c ≤ '9'

def isHexDigit (c : Char) : Bool :=
  isDigit c || ('a' ≤ c && c ≤ 'f') || ('A' ≤ c && c ≤ 'F')

def isLetter (c : Char) : Bool :=
  ('a' ≤ c && c ≤ 'z') || ('A' ≤ c && c ≤ 'Z')

def isAscii (c : Char) : Bool :=
  c.toNat < 128

/-- A letter, an underscore or any character beyond ASCII can start a name. -/
def isNameStart (c : Char) : Bool :=
  isLetter c || c = '_' || !isAscii c

/-- Inside a name digits and hyphens are allowed too. -/
def isName (c : Char) : Bool :=
  isNameStart c || isDigit c || c = '-'

/-- The ranges of the Unicode property `White_Space`, in order. -/
def blankRanges : List (Nat × Nat) :=
  [(0x9, 0xd), (0x20, 0x20), (0x85, 0x85), (0xa0, 0xa0), (0x1680, 0x1680), (0x2000, 0x200a),
    (0x2028, 0x2029), (0x202f, 0x202f), (0x205f, 0x205f), (0x3000, 0x3000)]

/-- The characters with the Unicode property `White_Space`. -/
def isBlank (c : Char) : Bool :=
  blankRanges.any fun (low, high) => low ≤ c.toNat && c.toNat ≤ high

/-- A newline is white space. -/
theorem isSpace_of_isNewline {c : Char} (h : isNewline c) : isSpace c := by
  simp only [isNewline, Bool.or_eq_true, decide_eq_true_eq] at h
  obtain (h | h) | h := h <;> subst h <;> decide

/-! ### Trimming -/

/-- The characters without those that `p` holds of at the end. -/
def dropEndWhile (p : Char → Bool) (cs : List Char) : List Char :=
  (cs.reverse.dropWhile p).reverse

/-- The characters without the blank ones at both ends. -/
def trimChars (cs : List Char) : List Char :=
  dropEndWhile isBlank (cs.dropWhile isBlank)

/-- The text without the blank characters at both ends. -/
def trim (s : String) : String :=
  String.ofList (trimChars s.toList)

/-! ### Case -/

/-- The text with the ASCII letters in lower case; all else stays. -/
def lower (s : String) : String :=
  String.ofList (s.toList.map Char.toLower)

/-- Whether two texts are equal up to the case of ASCII letters. -/
def sameWord (s t : String) : Bool :=
  lower s = lower t

/-- Whether the text ends in the lower-case `word`, in any case. -/
def endsInWord (word s : String) : Bool :=
  word.toList.isSuffixOf (lower s).toList

@[simp] theorem toList_lower (s : String) : (lower s).toList = s.toList.map Char.toLower := by
  simp [lower]

theorem sameWord_iff {s t : String} :
    sameWord s t ↔ s.toList.map Char.toLower = t.toList.map Char.toLower := by
  simp [sameWord, ← String.toList_inj]

end Text
end StyleScope
