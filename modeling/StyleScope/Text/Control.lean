/-
# Text without control sequences

A text that is shown line by line must not move the cursor or change colours.
`withoutControls` leaves out of it the control characters that are not white
space, and the control sequences, from the escape character that begins one to
the character that ends it.

How a sequence goes on depends on how it began: a few characters, a list of
parameters with a final letter, or a string up to a terminator. An escape
character begins a new sequence anywhere, and cancel or substitute ends one
anywhere. Tabs and line ends inside a sequence are shown, and with them the
text behind them; the sequence is then paused until the next control
character, or over at the next character beyond ASCII.

Key definitions: `Control.Sequence`, `Control.State`, `Control.step`,
`withoutControls`.
Key theorems: `isPlain_of_mem_plainChars`, `withoutControls_of_isPlain`.
-/
import StyleScope.Text

namespace StyleScope
namespace Text
namespace Control

/-- The character that begins a sequence. -/
def escapeChar : Char := '\x1b'

/-- Whether the character ends every sequence: cancel and substitute do. -/
def cancels (c : Char) : Bool :=
  c = '\x18' || c = '\x1a'

/-- The characters that are shown: white space, and all but the control
characters of ASCII. -/
def isPlain (c : Char) : Bool :=
  isSpace c || (0x20 ≤ c.toNat && c.toNat ≠ 0x7f)

/-- The white space that is a control character. -/
def isLayout (c : Char) : Bool :=
  isSpace c && c ≠ ' '

def isIntermediate (c : Char) : Bool :=
  ' ' ≤ c && c ≤ '/'

/-- Whether the string terminator, the byte `9c`, is in the encoding of the
character. -/
def terminates (c : Char) : Bool :=
  (String.utf8EncodeChar c).contains 0x9c

/-- A sequence that has begun and is not over. -/
inductive Sequence where
  /-- Only the escape character has been read. -/
  | escape
  /-- Intermediate characters have been read behind it. -/
  | intermediate
  /-- Parameters behind `[`, up to a final character. -/
  | parameters
  /-- The head of a device control string, behind `P`. -/
  | device
  | deviceParameters
  | deviceIntermediate
  /-- The body of a string that a terminator ends. -/
  | string
  /-- A command to the operating system, behind `]`, that a bell ends. -/
  | command
  deriving DecidableEq, Repr

/-- What the next character belongs to. -/
inductive State where
  | text
  | within (s : Sequence)
  /-- Text is shown although the sequence is not over. -/
  | paused (s : Sequence)
  deriving DecidableEq, Repr

/-- Whether layout inside of the sequence is shown. -/
def Sequence.showsLayout : Sequence → Bool
  | escape | intermediate | parameters => true
  | _ => false

/-- What follows a character that belongs to the sequence. -/
def Sequence.next (s : Sequence) (c : Char) : State :=
  match s with
  | .escape =>
    if c = '[' then .within .parameters
    else if c = ']' then .within .command
    else if c = 'P' then .within .device
    else if c = 'X' || c = '^' || c = '_' then .within .string
    else if isIntermediate c then .within .intermediate
    else if '0' ≤ c && c ≤ '~' then .text
    else .within s
  | .intermediate => if '0' ≤ c && c ≤ '~' then .text else .within s
  | .parameters => if '@' ≤ c && c ≤ '~' then .text else .within s
  | .device =>
    if isIntermediate c then .within .deviceIntermediate
    else if '0' ≤ c && c ≤ '?' then .within .deviceParameters
    else if '@' ≤ c && c ≤ '~' then .within .string
    else .within s
  | .deviceParameters =>
    if isIntermediate c then .within .deviceIntermediate
    else if '<' ≤ c && c ≤ '~' then .within .string
    else .within s
  | .deviceIntermediate => if '0' ≤ c && c ≤ '~' then .within .string else .within s
  | .string => if terminates c then .text else .within s
  | .command => if c = '\x07' then .text else .within s

/-- Whether a character is shown, and what the next one belongs to. -/
def step (st : State) (c : Char) : Bool × State :=
  if c = escapeChar then (false, .within .escape)
  else if cancels c then (false, .text)
  else
    match st with
    | .text => (isPlain c, .text)
    | .within s => if s.showsLayout && isLayout c then (true, .paused s) else (false, s.next c)
    | .paused s =>
      if isPlain c then (true, if isAscii c then .paused s else .text) else (false, .within s)

/-- The characters that are shown. -/
def plainChars (st : State) : List Char → List Char
  | [] => []
  | c :: cs =>
    if (step st c).1 then c :: plainChars (step st c).2 cs else plainChars (step st c).2 cs

/-- What is shown is plain. -/
theorem isPlain_of_step {st : State} {c : Char} (h : (step st c).1) : isPlain c := by
  unfold step at h
  split at h
  · cases h
  split at h
  · cases h
  cases st with
  | text => exact h
  | within s =>
    dsimp only at h
    split at h
    next hs =>
      have hc : isSpace c := by
        simp only [isLayout, Bool.and_eq_true] at hs
        exact hs.2.1
      simp [isPlain, hc]
    next => cases h
  | paused s =>
    dsimp only at h
    split at h
    next hp => exact hp
    next => cases h

theorem isPlain_of_mem_plainChars {st : State} {cs : List Char} {c : Char}
    (h : c ∈ plainChars st cs) : isPlain c := by
  induction cs generalizing st with
  | nil => cases h
  | cons d cs ih =>
    rw [plainChars] at h
    split at h
    next hd =>
      obtain rfl | h := List.mem_cons.mp h
      · exact isPlain_of_step hd
      · exact ih h
    next => exact ih h

/-- In a text, a plain character is shown and the text goes on. -/
theorem step_text_of_isPlain {c : Char} (h : isPlain c) : step .text c = (true, .text) := by
  have he : c ≠ escapeChar := by
    rintro rfl
    exact absurd h (by decide)
  have hc : ¬ cancels c := by
    intro hc
    simp only [cancels, Bool.or_eq_true, decide_eq_true_eq] at hc
    obtain rfl | rfl := hc <;> exact absurd h (by decide)
  rw [step, if_neg he, if_neg hc, h]

theorem plainChars_of_isPlain {cs : List Char} (h : ∀ c ∈ cs, isPlain c) :
    plainChars .text cs = cs := by
  induction cs with
  | nil => rfl
  | cons c cs ih =>
    have hc := step_text_of_isPlain (h c List.mem_cons_self)
    rw [plainChars, hc, if_pos rfl, ih fun d hd => h d (List.mem_cons_of_mem c hd)]

end Control

/-- The text without control characters and control sequences. -/
def withoutControls (s : String) : String :=
  String.ofList (Control.plainChars .text s.toList)

/-- A text of plain characters stays as it is. -/
theorem withoutControls_of_isPlain {s : String} (h : ∀ c ∈ s.toList, Control.isPlain c) :
    withoutControls s = s := by
  rw [withoutControls, Control.plainChars_of_isPlain h, String.ofList_toList]

end Text
end StyleScope
