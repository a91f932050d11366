/-
# Reading by position

The readers of this library take tokens from the front of a list, and a list
cannot be asked for what is not there. A reader that keeps all tokens and goes
through them by index, and that cuts texts out of the source by byte offset,
can go wrong in ways of its own. `Fault` lists them: an index behind the end, a
slice that ends before it starts or cuts a character apart, a difference below
zero, a loop that does not end. Each operation that could have one is here as a
checked operation, which gives a fault instead of a value.

A reader that is written with checked operations is tied to the one on lists by
`Ahead`, which says what lies ahead of a position, and `Follows`, which says
that a checked reading has the outcome of another one: its result or its error,
and so no fault.

Key definitions: `Fault`, `Checked`, `Checked.slice`, `Checked.Follows`,
`Ahead`, `Token.Layout`.
Key theorems: `Checked.slice_append`, `Checked.Follows.bind`,
`Token.ahead_peek`, `Token.ahead_between`.
-/
import Mathlib.Data.String.Basic
import StyleScope.Proofs.Tiling
import StyleScope.SyntaxError

namespace StyleScope

/-! ### Faults -/

/-- What goes wrong with a reading by position. -/
inductive Fault where
  /-- An index behind the end of a list. -/
  | index
  /-- A slice of a text that ends before it starts or cuts a character apart. -/
  | slice
  /-- A difference below zero. -/
  | underflow
  /-- A loop that takes more rounds than it has. -/
  | endless
  deriving DecidableEq, Repr

/-- Why a reading by position gives no result. -/
inductive Halt where
  | fault (f : Fault)
  /-- The source is not accepted. -/
  | refused (e : SyntaxError)
  deriving DecidableEq, Repr

/-- A result, an error or a fault. -/
abbrev Checked (α : Type) := Except Halt α

namespace Checked

variable {α β γ δ ε : Type}

def crash (f : Fault) : Checked α :=
  .error (.fault f)

def refuse (e : SyntaxError) : Checked α :=
  .error (.refused e)

/-- The element at index `i`. -/
def nth (as : List α) (i : Nat) : Checked α :=
  match as[i]? with
  | some a => .ok a
  | none => crash .index

/-- The elements from index `i` up to index `j`. -/
def range (as : List α) (i j : Nat) : Checked (List α) :=
  if i ≤ j ∧ j ≤ as.length then .ok ((as.take j).drop i) else crash .index

def minus (m n : Nat) : Checked Nat :=
  if n ≤ m then .ok (m - n) else crash .underflow

/-- The text from byte `i` up to byte `j`. -/
def slice (text : String) (i j : Nat) : Checked String :=
  if i ≤ j ∧ String.Pos.Raw.isValid text ⟨i⟩ ∧ String.Pos.Raw.isValid text ⟨j⟩ then
    .ok (String.Pos.Raw.extract text ⟨i⟩ ⟨j⟩)
  else crash .slice

@[simp] theorem pure_eq_ok (a : α) : (pure a : Except ε α) = .ok a := rfl

@[simp] theorem ok_bind (a : α) (f : α → Except ε β) : (Except.ok a >>= f) = f a := rfl

theorem minus_eq {m n : Nat} (h : n ≤ m) : minus m n = .ok (m - n) :=
  if_pos h

@[simp] theorem minus_add_right (m n : Nat) : minus (m + n) n = .ok m := by
  rw [minus_eq (Nat.le_add_left n m), Nat.add_sub_cancel]

theorem range_append (as bs cs : List α) :
    range (as ++ (bs ++ cs)) as.length (as.length + bs.length) = .ok bs := by
  have hle : as.length + bs.length ≤ (as ++ (bs ++ cs)).length := by
    simp only [List.length_append]
    omega
  rw [range, if_pos ⟨Nat.le_add_right .., hle⟩]
  simp [List.take_append]

/-- **A piece of a text can be cut out of it.** -/
theorem slice_append (x y z : String) :
    slice (x ++ y ++ z) x.utf8ByteSize (x.utf8ByteSize + y.utf8ByteSize) = .ok y := by
  have hstart : String.Pos.Raw.isValid (x ++ y ++ z) ⟨x.utf8ByteSize⟩ := by
    rw [String.Pos.Raw.isValid_eq_true_iff, String.Pos.Raw.isValid_iff_exists_append]
    exact ⟨x, y ++ z, String.append_assoc .., rfl⟩
  have hstop : String.Pos.Raw.isValid (x ++ y ++ z) ⟨x.utf8ByteSize + y.utf8ByteSize⟩ := by
    rw [String.Pos.Raw.isValid_eq_true_iff, String.Pos.Raw.isValid_iff_exists_append]
    refine ⟨x ++ y, z, rfl, ?_⟩
    rw [← String.utf8ByteSize_append]
    rfl
  have hsize : ∀ s : String, s.utf8ByteSize = String.utf8Len s.toList := by
    intro s
    rw [← String.utf8ByteSize_ofList, String.ofList_toList]
  have hextract := String.extract_of_valid x.toList y.toList z.toList
  rw [String.ofList_append, String.ofList_append, String.ofList_toList, String.ofList_toList,
    String.ofList_toList, ← hsize, ← hsize] at hextract
  rw [slice, if_pos ⟨Nat.le_add_right .., hstart, hstop⟩, hextract]

theorem slice_front (y z : String) : slice (y ++ z) 0 y.utf8ByteSize = .ok y := by
  simpa using slice_append "" y z

theorem slice_back (x y : String) :
    slice (x ++ y) x.utf8ByteSize (x ++ y).utf8ByteSize = .ok y := by
  simpa [String.utf8ByteSize_append] using slice_append x y ""

/-- The second byte of a character is no place to cut. -/
example : slice "aéb" 2 3 = crash .slice ∧ slice "aéb" 1 3 = .ok "é" := by
  decide +kernel

/-! ### Outcomes -/

/-- The checked reading has the outcome of the other one: a result that `R`
relates to its result, or the same error. -/
inductive Follows (R : α → β → Prop) : Checked α → Except SyntaxError β → Prop where
  | ok {a : α} {b : β} (h : R a b) : Follows R (.ok a) (.ok b)
  | refused (e : SyntaxError) : Follows R (refuse e) (.error e)

namespace Follows

variable {R : α → β → Prop} {x : Checked α} {y : Except SyntaxError β}

theorem bind {S : γ → δ → Prop} {f : α → Checked γ} {g : β → Except SyntaxError δ}
    (h : Follows R x y) (hf : ∀ a b, R a b → Follows S (f a) (g b)) :
    Follows S (x >>= f) (y >>= g) := by
  cases h with
  | ok h => exact hf _ _ h
  | refused e => exact .refused e

/-- What is done with the result on one side only. -/
theorem bind_pure {S : γ → δ → Prop} {f : α → γ} {g : β → δ} (h : Follows R x y)
    (hf : ∀ a b, R a b → S (f a) (g b)) :
    Follows S (x >>= fun a => .ok (f a)) (y >>= fun b => .ok (g b)) :=
  h.bind fun a b hab => .ok (hf a b hab)

theorem bind_pure_right {S : α → δ → Prop} {g : β → δ} (h : Follows R x y)
    (hg : ∀ a b, R a b → S a (g b)) : Follows S x (y >>= fun b => .ok (g b)) := by
  cases h with
  | ok h => exact .ok (hg _ _ h)
  | refused e => exact .refused e

theorem of_map {S : α → γ → Prop} {f : β → γ} (h : Follows S x (y.map f)) :
    Follows (fun a b => S a (f b)) x y := by
  cases y with
  | error e =>
    cases h with
    | refused e => exact .refused e
  | ok b =>
    cases h with
    | ok h => exact .ok h

/-- A reading that has the result of the other one has no fault. -/
theorem eq_mapError {y : Except SyntaxError α} (h : Follows Eq x y) : x = y.mapError .refused := by
  cases h with
  | ok h => exact congrArg Except.ok h
  | refused e => rfl

end Follows

theorem mapError_ne_crash (y : Except SyntaxError α) (f : Fault) :
    y.mapError .refused ≠ crash f := by
  cases y with
  | ok a => exact fun h => nomatch h
  | error e => exact fun h => nomatch h

end Checked

/-! ### What lies ahead -/

/-- From position `p` of the list on, `rest` is left. -/
def Ahead {α : Type} (all : List α) (p : Nat) (rest : List α) : Prop :=
  ∃ front, all = front ++ rest ∧ front.length = p

namespace Ahead

variable {α : Type} {all rest : List α} {p : Nat}

theorem start (all : List α) : Ahead all 0 all :=
  ⟨[], rfl, rfl⟩

theorem append {taken : List α} (h : Ahead all p (taken ++ rest)) :
    Ahead all (p + taken.length) rest := by
  obtain ⟨front, rfl, rfl⟩ := h
  exact ⟨front ++ taken, (List.append_assoc ..).symm, List.length_append⟩

theorem tail {a : α} (h : Ahead all p (a :: rest)) : Ahead all (p + 1) rest := by
  obtain ⟨front, rfl, rfl⟩ := h
  exact ⟨front ++ [a], List.append_cons .., List.length_append⟩

theorem drop {n : Nat} (h : Ahead all p rest) (hn : n ≤ rest.length) :
    Ahead all (p + n) (rest.drop n) := by
  have hlength : (rest.take n).length = n := List.length_take_of_le hn
  rw [← List.take_append_drop n rest] at h
  simpa only [hlength] using h.append

theorem getElem? (h : Ahead all p rest) (k : Nat) : all[p + k]? = rest[k]? := by
  obtain ⟨front, rfl, rfl⟩ := h
  rw [List.getElem?_append_right (Nat.le_add_right ..), Nat.add_sub_cancel_left]

theorem length_eq (h : Ahead all p rest) : p + rest.length = all.length := by
  obtain ⟨front, rfl, rfl⟩ := h
  exact List.length_append.symm

theorem range {taken : List α} (h : Ahead all p (taken ++ rest)) :
    Checked.range all p (p + taken.length) = .ok taken := by
  obtain ⟨front, rfl, rfl⟩ := h
  exact Checked.range_append front taken rest

theorem mem {a : α} (h : Ahead all p rest) (ha : a ∈ rest) : a ∈ all := by
  obtain ⟨front, rfl, -⟩ := h
  exact List.mem_append_right front ha

end Ahead

namespace Token

open Checked

/-! ### Tokens by position -/

/-- A token by its place in the source. -/
structure Span where
  kind : Kind
  start : Nat
  stop : Nat
  deriving DecidableEq, Repr

def span (t : Token) : Span :=
  ⟨t.kind, t.start, t.stop⟩

/-- A source and the places of its tokens, the end mark included. -/
structure Layout where
  source : String
  spans : List Span

namespace Layout

/-- The layout that the tokens of the source have. -/
def of (source : String) : Layout :=
  ⟨source, (tokenize source).map span⟩

variable (l : Layout)

def peek (p : Nat) : Checked Span :=
  nth l.spans p

def kind (p : Nat) : Checked Kind := do
  return (← l.peek p).kind

def offset (p : Nat) : Checked Nat := do
  return (← l.peek p).start

def stop (p : Nat) : Checked Nat := do
  return (← l.peek p).stop

def text (p : Nat) : Checked String := do
  let s ← l.peek p
  slice l.source s.start s.stop

/-- The text between two byte offsets. -/
def between (i j : Nat) : Checked String :=
  slice l.source i j

/-- The position behind the token; the end mark is never passed. -/
def bump (p : Nat) : Checked Nat := do
  if (← l.kind p) = .eof then return p else return p + 1

/-- The rounds that a loop over the tokens has. -/
def rounds : Nat :=
  l.spans.length

/-- The position behind the tokens that `q` holds of. -/
def skipWhile (q : Kind → Bool) : Nat → Nat → Checked Nat
  | 0, _ => crash .endless
  | n + 1, p => do
    if q (← l.kind p) then skipWhile q n (← l.bump p) else return p

def skip (q : Kind → Bool) (p : Nat) : Checked Nat :=
  l.skipWhile q l.rounds p

end Layout

/-- How far the tokens were read, and how many brackets are open there. -/
structure Mark where
  position : Nat
  depth : Nat
  deriving DecidableEq, Repr

/-- The kind of the first token, or that of the end mark. -/
def kindOf : List Token → Kind
  | [] => .eof
  | t :: _ => t.kind

section Ahead

variable {source : String} {p : Nat} {t : Token} {ts us : List Token}

theorem ahead_spans (h : Ahead (lex source) p ts) :
    Ahead (Layout.of source).spans p ((ts ++ [endOf source.utf8ByteSize]).map span) := by
  obtain ⟨front, hlex, rfl⟩ := h
  refine ⟨front.map span, ?_, List.length_map span⟩
  rw [Layout.of, tokenize, hlex, List.append_assoc, List.map_append]

theorem ahead_peek (h : Ahead (lex source) p ts) :
    (Layout.of source).peek p = .ok (ts.headD (endOf source.utf8ByteSize)).span := by
  have hfirst := (ahead_spans h).getElem? 0
  rw [Nat.add_zero] at hfirst
  rw [Layout.peek, nth, hfirst]
  cases ts <;> rfl

theorem ahead_kind (h : Ahead (lex source) p ts) : (Layout.of source).kind p = .ok (kindOf ts) := by
  rw [Layout.kind, ahead_peek h]
  cases ts <;> rfl

theorem ahead_offset (h : Ahead (lex source) p ts) :
    (Layout.of source).offset p = .ok (startOf source.utf8ByteSize ts) := by
  rw [Layout.offset, ahead_peek h]
  cases ts <;> rfl

/-- The first token ahead starts behind the tokens in front of it. -/
theorem startOf_eq {front : List Token} (h : lex source = front ++ ts) :
    startOf source.utf8ByteSize ts = (textOf front).utf8ByteSize := by
  have hends := endToEnd_lexFrom 0 source.toList
  rw [String.ofList_toList, Nat.zero_add, ← lex, h] at hends
  have hsplit := hends.split.2
  rw [Nat.zero_add] at hsplit
  cases ts with
  | nil => exact hsplit.symm
  | cons t ts => exact hsplit.1

/-- **Between two tokens, the text is that of the tokens there.** -/
theorem ahead_between (h : Ahead (lex source) p (ts ++ us)) :
    (Layout.of source).between (startOf source.utf8ByteSize (ts ++ us))
      (startOf source.utf8ByteSize us) = .ok (textOf ts) := by
  obtain ⟨front, hlex, -⟩ := h
  have hsource : source = textOf front ++ textOf ts ++ textOf us := by
    rw [← textOf_append, ← textOf_append, List.append_assoc, ← hlex, textOf_lex]
  rw [startOf_eq hlex, startOf_eq (hlex.trans (List.append_assoc ..).symm), textOf_append,
    String.utf8ByteSize_append, Layout.between]
  have hslice := slice_append (textOf front) (textOf ts) (textOf us)
  rw [← hsource] at hslice
  exact hslice

theorem ahead_between_cons (h : Ahead (lex source) p (t :: (ts ++ us))) :
    (Layout.of source).between t.start (startOf source.utf8ByteSize us) =
      .ok (t.text ++ textOf ts) := by
  rw [← List.cons_append] at h
  exact ahead_between h

/-- A token stops where the next one starts. -/
theorem ahead_stop_eq (h : Ahead (lex source) p (t :: ts)) :
    t.stop = startOf source.utf8ByteSize ts := by
  obtain ⟨front, hlex, -⟩ := h
  have hstart : t.start = (textOf front).utf8ByteSize := startOf_eq hlex
  rw [startOf_eq (hlex.trans (List.append_cons ..)), textOf_append, String.utf8ByteSize_append,
    ← hstart, textOf_cons, textOf_nil, String.append_empty, Token.stop]

theorem ahead_stop (h : Ahead (lex source) p (t :: ts)) :
    (Layout.of source).stop p = .ok (startOf source.utf8ByteSize ts) := by
  rw [Layout.stop, ahead_peek h, ← ahead_stop_eq h]
  rfl

theorem ahead_text (h : Ahead (lex source) p (t :: ts)) :
    (Layout.of source).text p = .ok t.text := by
  have hfront : Ahead (lex source) p ([t] ++ ts) := h
  have hbetween := ahead_between hfront
  rw [Layout.between, ← ahead_stop_eq h, textOf_cons, textOf_nil, String.append_empty] at hbetween
  rw [Layout.text, ahead_peek h]
  exact hbetween

theorem ahead_bump (h : Ahead (lex source) p (t :: ts)) :
    (Layout.of source).bump p = .ok (p + 1) := by
  have hk : t.kind ≠ .eof := ne_eof_of_mem_lexFrom (h.mem List.mem_cons_self)
  rw [Layout.bump, ahead_kind h]
  exact if_neg hk

theorem ahead_length_lt (h : Ahead (lex source) p ts) : ts.length < (Layout.of source).rounds := by
  have hlength := h.length_eq
  simp only [Layout.rounds, Layout.of, tokenize, List.length_map, List.length_append,
    List.length_singleton]
  omega

/-- Skipping stops in front of the tokens that are left. -/
theorem ahead_skipWhile {q : Kind → Bool} {f : Token → Bool} (hf : ∀ t, f t = q t.kind)
    (heof : q .eof = false) {n : Nat} (h : Ahead (lex source) p ts) (hn : ts.length < n) :
    ∃ p', (Layout.of source).skipWhile q n p = .ok p' ∧
      Ahead (lex source) p' (ts.dropWhile f) := by
  induction ts generalizing p n with
  | nil =>
    obtain ⟨n, rfl⟩ := Nat.exists_eq_add_of_lt hn
    refine ⟨p, ?_, h⟩
    rw [Layout.skipWhile, ahead_kind h, ok_bind, kindOf, heof]
    rfl
  | cons t ts ih =>
    cases n with
    | zero => cases hn
    | succ n =>
      rw [Layout.skipWhile, ahead_kind h, ok_bind, kindOf, ← hf, ahead_bump h]
      by_cases ht : f t
      · rw [List.dropWhile_cons_of_pos ht, if_pos ht]
        exact ih h.tail (Nat.lt_of_succ_lt_succ hn)
      · rw [List.dropWhile_cons_of_neg ht, if_neg ht]
        exact ⟨p, rfl, h⟩

theorem ahead_skip {q : Kind → Bool} {f : Token → Bool} (hf : ∀ t, f t = q t.kind)
    (heof : q .eof = false) (h : Ahead (lex source) p ts) :
    ∃ p', (Layout.of source).skip q p = .ok p' ∧ Ahead (lex source) p' (ts.dropWhile f) :=
  ahead_skipWhile hf heof h (ahead_length_lt h)

theorem ahead_between_dropWhile (f : Token → Bool) (h : Ahead (lex source) p ts) :
    (Layout.of source).between (startOf source.utf8ByteSize ts)
      (startOf source.utf8ByteSize (ts.dropWhile f)) = .ok (textOf (ts.takeWhile f)) := by
  rw [← List.takeWhile_append_dropWhile (p := f) (l := ts)] at h
  simpa only [List.takeWhile_append_dropWhile] using ahead_between h

theorem ahead_between_prefix {vs : List Token} (h : Ahead (lex source) p (ts ++ us))
    (hv : vs <+: ts) :
    (Layout.of source).between (startOf source.utf8ByteSize (ts ++ us))
      (startOf source.utf8ByteSize (ts.drop vs.length ++ us)) = .ok (textOf vs) := by
  obtain ⟨ws, rfl⟩ := hv
  rw [List.drop_left, List.append_assoc]
  rw [List.append_assoc] at h
  exact ahead_between h

/-- What is left starts further on. -/
theorem ahead_startOf_le (h : Ahead (lex source) p (ts ++ us)) :
    startOf source.utf8ByteSize (ts ++ us) ≤ startOf source.utf8ByteSize us := by
  obtain ⟨front, hlex, -⟩ := h
  rw [startOf_eq hlex, startOf_eq (hlex.trans (List.append_assoc ..).symm), textOf_append,
    String.utf8ByteSize_append]
  exact Nat.le_add_right ..

end Ahead

end Token
end StyleScope
