/-
# The grammar of selector lists

A list is read if and only if its tokens belong to a grammar
(`exists_parse_iff_isListWithin`). The grammar is loose: alternatives are divided by commas,
and an alternative is any row of items. A token is an item by itself, but for
commas and brackets. A bracket is one with everything up to the token that
closes it, where square brackets and parentheses are blind to each other.

Only behind a colon a function is more than that. Its parenthesis holds a list
again, so that commas, colons and brackets in it are read, and such lists nest
to a limit. A `url(` in front of a quote does not count, since it reaches up to
the quote.

Which token closes a bracket is said by counting (`Token.IsClosing`), and the
grammar does not look ahead. The reader takes several items at once, such as a
dot and the name behind it, so both directions go through the row of what is
left of a list (`Continues`).

Key definitions: `Token.IsClosing`, `Selector.IsItems`, `Selector.IsSeparated`,
`Selector.IsListWithin`.
Key theorems: `Token.closingLength_eq_some_iff`, `Selector.Parsed.continues`,
`Selector.Continues.exists_parseParts`, `Selector.exists_parse_iff_isListWithin`.
-/
import StyleScope.Proofs.SoundTexts

namespace StyleScope
namespace Token

/-! ### Closing brackets -/

/-- The tokens reach from behind `depth` brackets and one more up to the token
that closes the last of them: all in all they close one more than they open and
the `depth`, and none of their beginnings does. -/
structure IsClosing (opens closes : Kind → Bool) (depth : Nat) (ts : List Token) : Prop where
  closed : ts.countP (closes ·.kind) = ts.countP (opens ·.kind) + depth + 1
  first : ∀ us, us <+: ts → us ≠ ts →
    us.countP (closes ·.kind) ≤ us.countP (opens ·.kind) + depth

section Brackets

variable {opens closes : Kind → Bool} {depth : Nat} {t : Token} {ts : List Token}

theorem not_isClosing_nil : ¬ IsClosing opens closes depth [] := by
  intro h
  have hclosed := h.closed
  simp only [List.countP_nil] at hclosed
  omega

/-- What a token leaves open is to be closed behind it. -/
theorem isClosing_cons (hdisjoint : ∀ k, opens k → closes k = false) :
    IsClosing opens closes depth (t :: ts) ↔
      match openBehind opens closes depth t.kind with
      | none => ts = []
      | some depth => IsClosing opens closes depth ts := by
  have hcount (us : List Token) : (t :: us).countP (closes ·.kind) =
      us.countP (closes ·.kind) + (if closes t.kind then 1 else 0) ∧
      (t :: us).countP (opens ·.kind) =
      us.countP (opens ·.kind) + (if opens t.kind then 1 else 0) :=
    ⟨List.countP_cons, List.countP_cons⟩
  have hshift {depth' : Nat} (hd : (if closes t.kind then 1 else 0) + depth' =
      (if opens t.kind then 1 else 0) + depth) :
      IsClosing opens closes depth (t :: ts) ↔ IsClosing opens closes depth' ts := by
    constructor
    · intro h
      refine ⟨?_, fun us hus hne => ?_⟩
      · have := h.closed
        rw [(hcount ts).1, (hcount ts).2] at this
        omega
      · have := h.first (t :: us) (List.cons_prefix_cons.mpr ⟨rfl, hus⟩) (by simpa using hne)
        rw [(hcount us).1, (hcount us).2] at this
        omega
    · intro h
      refine ⟨?_, fun us hus hne => ?_⟩
      · have := h.closed
        rw [(hcount ts).1, (hcount ts).2]
        omega
      · cases us with
        | nil => simp
        | cons u us =>
          obtain ⟨rfl, htail⟩ := List.cons_prefix_cons.mp hus
          have := h.first us htail (by simpa using hne)
          rw [(hcount us).1, (hcount us).2]
          omega
  unfold openBehind
  by_cases ho : opens t.kind
  · rw [if_pos ho]
    exact hshift (by rw [if_pos ho, hdisjoint _ ho]; simp; omega)
  · rw [if_neg ho]
    by_cases hc : closes t.kind
    · rw [if_pos hc]
      cases depth with
      | zero =>
        constructor
        · intro h
          by_contra hne
          have := h.first [t] (List.cons_prefix_cons.mpr ⟨rfl, List.nil_prefix⟩)
            (by simpa using Ne.symm hne)
          rw [(hcount []).1, (hcount []).2, if_pos hc, if_neg ho] at this
          simp at this
        · rintro rfl
          refine ⟨by simp [hc, ho], fun us hus hne => ?_⟩
          cases us with
          | nil => simp
          | cons u us =>
            obtain ⟨rfl, htail⟩ := List.cons_prefix_cons.mp hus
            exact absurd (by rw [List.prefix_nil.mp htail]) hne
      | succ depth => exact hshift (by rw [if_pos hc, if_neg ho]; omega)
    · rw [if_neg hc]
      exact hshift (by rw [if_neg hc, if_neg ho])

theorem closingLength_eq_some_iff (hdisjoint : ∀ k, opens k → closes k = false) {n : Nat} :
    closingLength opens closes depth ts = some n ↔
      n ≤ ts.length ∧ IsClosing opens closes depth (ts.take n) := by
  induction ts generalizing depth n with
  | nil => simp [closingLength, not_isClosing_nil]
  | cons t ts ih =>
    rw [closingLength_cons]
    cases n with
    | zero =>
      rw [List.take_zero]
      cases openBehind opens closes depth t.kind with
      | none => simp [not_isClosing_nil]
      | some depth' => simp [not_isClosing_nil]
    | succ n =>
      rw [List.take_succ_cons, isClosing_cons hdisjoint, List.length_cons, Nat.succ_le_succ_iff]
      cases openBehind opens closes depth t.kind with
      | none =>
        simp only [Option.some.injEq, List.take_eq_nil_iff]
        constructor
        · intro h
          exact ⟨by omega, .inl (by omega)⟩
        · rintro ⟨h, h' | rfl⟩
          · omega
          · simp only [List.length_nil] at h
            omega
      | some depth' =>
        simp only [Option.map_eq_some_iff, ih]
        constructor
        · rintro ⟨k, hk, hn⟩
          obtain rfl : k = n := by omega
          exact hk
        · intro h
          exact ⟨n, h, by omega⟩

end Brackets

end Token

namespace Selector

open Token (IsClosing StopsAt isTrivia)

/-! ### The grammar -/

/-- The kinds of tokens that are items by themselves. -/
def standsAlone : Token.Kind → Bool
  | .comma | .leftParen | .rightParen | .leftBracket | .rightBracket | .function => false
  | _ => true

/-- Whether the token opens the arguments of a pseudo-class if a colon stands in
front of it. -/
def opensArguments (t : Token) : Bool :=
  t.kind = .function && t.text.toList.getLast? = some '('

/-- The tokens are items one behind the other, where `arguments` says what may
stand in the parentheses of a pseudo-class, and `behindColon` whether a colon
stands in front of them. -/
inductive IsItems (arguments : List Token → Prop) : (behindColon : Bool) → List Token → Prop where
  | nil {behindColon : Bool} : IsItems arguments behindColon []
  | alone {behindColon : Bool} {t : Token} {ts : List Token} (hk : standsAlone t.kind)
    (h : IsItems arguments (t.kind = .colon) ts) : IsItems arguments behindColon (t :: ts)
  | brackets {behindColon : Bool} {t : Token} {inner ts : List Token} (hk : t.kind = .leftBracket)
    (hi : IsClosing (· = .leftBracket) (· = .rightBracket) 0 inner)
    (h : IsItems arguments false ts) : IsItems arguments behindColon (t :: (inner ++ ts))
  | parens {behindColon : Bool} {t : Token} {inner ts : List Token} (hk : t.kind.opensParen)
    (hc : ¬ (behindColon ∧ opensArguments t))
    (hi : IsClosing Token.Kind.opensParen (· = .rightParen) 0 inner)
    (h : IsItems arguments false ts) : IsItems arguments behindColon (t :: (inner ++ ts))
  | call {t u : Token} {inner ts : List Token} (ht : opensArguments t) (hi : arguments inner)
    (hu : u.kind = .rightParen) (h : IsItems arguments false ts) :
    IsItems arguments true (t :: (inner ++ u :: ts))

/-- The tokens are such rows with a comma between two of them. -/
inductive IsSeparated (row : List Token → Prop) : List Token → Prop where
  | last {ts : List Token} (h : row ts) : IsSeparated row ts
  | comma {ts us : List Token} {c : Token} (h : row ts) (hc : c.kind = .comma)
    (h' : IsSeparated row us) : IsSeparated row (ts ++ c :: us)

/-- The tokens are a selector list whose pseudo-classes nest at most so deep. -/
def IsListWithin : Nat → List Token → Prop
  | 0 => IsSeparated (IsItems (fun _ => False) false)
  | n + 1 => IsSeparated (IsItems (IsListWithin n) false)

/-! ### What is left of a list -/

/-- What may stand in the parentheses of a pseudo-class where `n` more may nest. -/
def argumentsWithin : Nat → List Token → Prop
  | 0 => fun _ => False
  | n + 1 => IsListWithin n

theorem isListWithin_eq (n : Nat) :
    IsListWithin n = IsSeparated (IsItems (argumentsWithin n) false) := by
  cases n <;> rfl

/-- The tokens are what is left of a list from some place in an alternative on:
items and commas. -/
inductive Continues (arguments : List Token → Prop) : (behindColon : Bool) → List Token → Prop where
  | nil {behindColon : Bool} : Continues arguments behindColon []
  | alone {behindColon : Bool} {t : Token} {ts : List Token} (hk : standsAlone t.kind)
    (h : Continues arguments (t.kind = .colon) ts) : Continues arguments behindColon (t :: ts)
  | comma {behindColon : Bool} {t : Token} {ts : List Token} (hk : t.kind = .comma)
    (h : Continues arguments false ts) : Continues arguments behindColon (t :: ts)
  | brackets {behindColon : Bool} {t : Token} {inner ts : List Token} (hk : t.kind = .leftBracket)
    (hi : IsClosing (· = .leftBracket) (· = .rightBracket) 0 inner)
    (h : Continues arguments false ts) : Continues arguments behindColon (t :: (inner ++ ts))
  | parens {behindColon : Bool} {t : Token} {inner ts : List Token} (hk : t.kind.opensParen)
    (hc : ¬ (behindColon ∧ opensArguments t))
    (hi : IsClosing Token.Kind.opensParen (· = .rightParen) 0 inner)
    (h : Continues arguments false ts) : Continues arguments behindColon (t :: (inner ++ ts))
  | call {t u : Token} {inner ts : List Token} (ht : opensArguments t) (hi : arguments inner)
    (hu : u.kind = .rightParen) (h : Continues arguments false ts) :
    Continues arguments true (t :: (inner ++ u :: ts))

section Rows

variable {arguments : List Token → Prop} {behindColon : Bool} {ts us : List Token} {t : Token}

theorem IsItems.continues (h : IsItems arguments behindColon ts) :
    Continues arguments behindColon ts := by
  induction h with
  | nil => exact .nil
  | alone hk _ ih => exact .alone hk ih
  | brackets hk hi _ ih => exact .brackets hk hi ih
  | parens hk hc hi _ ih => exact .parens hk hc hi ih
  | call ht hi hu _ ih => exact .call ht hi hu ih

theorem IsItems.continues_comma (h : IsItems arguments behindColon ts) (hk : t.kind = .comma)
    (hus : Continues arguments false us) : Continues arguments behindColon (ts ++ t :: us) := by
  induction h with
  | nil => exact .comma hk hus
  | alone hk _ ih => exact .alone hk ih
  | brackets hk hi _ ih =>
    rw [List.cons_append, List.append_assoc]
    exact .brackets hk hi ih
  | parens hk hc hi _ ih =>
    rw [List.cons_append, List.append_assoc]
    exact .parens hk hc hi ih
  | call ht hi hu _ ih =>
    rw [List.cons_append, List.append_assoc, List.cons_append]
    exact .call ht hi hu ih

/-- What is left of a list is a row of items, and perhaps a comma and a list. -/
theorem Continues.exists_row (h : Continues arguments behindColon ts) :
    ∃ row, IsItems arguments behindColon row ∧
      (ts = row ∨ ∃ c us, ts = row ++ c :: us ∧ c.kind = .comma ∧
        IsSeparated (IsItems arguments false) us) := by
  have hbehind {row more : List Token} (front : List Token)
      (h : more = row ∨ ∃ c us, more = row ++ c :: us ∧ c.kind = .comma ∧
        IsSeparated (IsItems arguments false) us) :
      front ++ more = front ++ row ∨ ∃ c us, front ++ more = (front ++ row) ++ c :: us ∧
        c.kind = .comma ∧ IsSeparated (IsItems arguments false) us := by
    rcases h with rfl | ⟨c, us, rfl, hc, hus⟩
    · exact .inl rfl
    · exact .inr ⟨c, us, (List.append_assoc ..).symm, hc, hus⟩
  induction h with
  | nil => exact ⟨[], .nil, .inl rfl⟩
  | alone hk _ ih =>
    obtain ⟨row, hrow, hmore⟩ := ih
    exact ⟨_, .alone hk hrow, hbehind [_] hmore⟩
  | @comma _ t ts hk _ ih =>
    obtain ⟨row, hrow, hmore⟩ := ih
    refine ⟨[], .nil, .inr ⟨t, ts, rfl, hk, ?_⟩⟩
    rcases hmore with rfl | ⟨c, us, rfl, hc, hus⟩
    · exact .last hrow
    · exact .comma hrow hc hus
  | brackets hk hi _ ih =>
    obtain ⟨row, hrow, hmore⟩ := ih
    exact ⟨_, .brackets hk hi hrow, hbehind (_ :: _) hmore⟩
  | parens hk hc hi _ ih =>
    obtain ⟨row, hrow, hmore⟩ := ih
    exact ⟨_, .parens hk hc hi hrow, hbehind (_ :: _) hmore⟩
  | @call t u inner ts ht hi hu _ ih =>
    obtain ⟨row, hrow, hmore⟩ := ih
    refine ⟨_, .call ht hi hu hrow, ?_⟩
    have := hbehind (t :: (inner ++ [u])) hmore
    simpa only [List.cons_append, List.append_assoc, List.nil_append] using this

theorem isSeparated_iff_continues :
    IsSeparated (IsItems arguments false) ts ↔ Continues arguments false ts := by
  constructor
  · intro h
    induction h with
    | last h => exact h.continues
    | comma h hc _ ih => exact h.continues_comma hc ih
  · intro h
    obtain ⟨row, hrow, rfl | ⟨c, us, rfl, hc, hus⟩⟩ := h.exists_row
    · exact .last hrow
    · exact .comma hrow hc hus

theorem isListWithin_iff_continues {n : Nat} :
    IsListWithin n ts ↔ Continues (argumentsWithin n) false ts := by
  rw [isListWithin_eq, isSeparated_iff_continues]

end Rows

/-! ### Items by themselves -/

section Rows

variable {arguments : List Token → Prop} {behindColon : Bool} {ts us rest : List Token} {t : Token}

theorem continues_alone (hk : standsAlone t.kind) :
    Continues arguments behindColon (t :: ts) ↔ Continues arguments (t.kind = .colon) ts := by
  constructor
  · intro h
    cases h with
    | alone _ h => exact h
    | comma hc => simp [hc, standsAlone] at hk
    | brackets hb => simp [hb, standsAlone] at hk
    | parens hp => cases hkind : t.kind <;> simp_all [standsAlone, Token.Kind.opensParen]
    | call hf => simp_all [opensArguments, standsAlone]
  · exact .alone hk

/-- Whether a colon stands at the end of the row, or in front of an empty one. -/
def endsInColon (behindColon : Bool) (ts : List Token) : Bool :=
  match ts.getLast? with
  | none => behindColon
  | some t => t.kind = .colon

theorem endsInColon_colons (h : ∀ t ∈ ts, t.kind = .colon) (hne : ts ≠ []) :
    endsInColon behindColon ts = true := by
  unfold endsInColon
  split
  next hnone => exact absurd (List.getLast?_eq_none_iff.mp hnone) hne
  next t ht => simp [h t (List.mem_of_getLast? ht)]

theorem continues_row {row : List Token} (hrow : ∀ t ∈ row, standsAlone t.kind) :
    Continues arguments behindColon (row ++ ts) ↔
      Continues arguments (endsInColon behindColon row) ts := by
  induction row generalizing behindColon with
  | nil => rfl
  | cons t row ih =>
    rw [List.forall_mem_cons] at hrow
    rw [List.cons_append, continues_alone hrow.1, ih hrow.2]
    cases row with
    | nil => rfl
    | cons u us => simp [endsInColon, List.getLast?_cons]

/-- A colon in front matters only to a function that opens arguments. -/
theorem continues_behind (ht : ∀ t ∈ ts.head?, opensArguments t = false) :
    Continues arguments behindColon ts ↔ Continues arguments false ts := by
  have hall {b b' : Bool} (h : Continues arguments b ts) : Continues arguments b' ts := by
    cases h with
    | nil => exact .nil
    | alone hk h => exact .alone hk h
    | comma hk h => exact .comma hk h
    | brackets hk hi h => exact .brackets hk hi h
    | parens hk _ hi h =>
      have hopens := ht _ rfl
      exact .parens hk (by simp [hopens]) hi h
    | call hf =>
      have hopens := ht _ rfl
      simp [hopens] at hf
  exact ⟨hall, hall⟩

theorem standsAlone_of_isTrivia (h : t.isTrivia) : standsAlone t.kind ∧ t.kind ≠ .colon := by
  unfold Token.isTrivia at h
  cases hk : t.kind <;> simp_all [standsAlone, Token.Kind.isTrivia]

theorem standsAlone_of_combinator? {c : Combinator} (h : combinator? t.kind = some c) :
    standsAlone t.kind ∧ t.kind ≠ .colon := by
  cases hk : t.kind <;> simp_all [standsAlone, combinator?]

theorem standsAlone_of_colon (hk : t.kind = .colon) : standsAlone t.kind := by
  rw [hk]
  rfl

theorem standsAlone_of_ident (hk : t.kind = .ident) : standsAlone t.kind := by
  rw [hk]
  rfl

/-- White space and comments are items. -/
theorem continues_trivia (hus : ∀ t ∈ us, t.isTrivia) :
    Continues arguments false (us ++ ts) ↔ Continues arguments false ts := by
  rw [continues_row fun t ht => (standsAlone_of_isTrivia (hus t ht)).1]
  unfold endsInColon
  split
  · rfl
  next t ht =>
    rw [decide_eq_false (standsAlone_of_isTrivia (hus t (List.mem_of_getLast? ht))).2]

/-- A row in front of a parenthesis does not reach behind it. -/
theorem exists_eq_append_of_row {row more : List Token} (hrow : ∀ t ∈ row, t.kind ≠ .rightParen)
    (hrest : StopsAt .rightParen rest) (h : ts ++ rest = row ++ more) :
    ∃ us, ts = row ++ us ∧ more = us ++ rest := by
  rcases List.append_eq_append_iff.mp h with ⟨us, rfl, hmore⟩ | ⟨us, hts, hmore⟩
  · cases us with
    | nil => exact ⟨[], by simp, by simpa using hmore.symm⟩
    | cons u us =>
      have hu : u.kind = .rightParen := hrest u (by simp [hmore])
      exact absurd hu (hrow u (by simp))
  · exact ⟨us, hts, hmore⟩

end Rows

/-! ### What a reader takes at once -/

section Steps

variable {arguments : List Token → Prop} {behindColon : Bool} {ts us rest : List Token} {t : Token}

/-- In front of the arguments of a pseudo-class stand one colon or two, and a
function. -/
theorem opening?_eq_some {o : Opening} (h : opening? (t :: ts) = some o) :
    ∃ colons f, t :: ts = colons ++ f :: o.body ∧ opensArguments f ∧
      (∀ u ∈ colons, u.kind = .colon) ∧ colons ≠ [] := by
  have hafter {colons : String} {ts : List Token} (h : openingAfter? colons ts = some o) :
      ∃ f, ts = f :: o.body ∧ opensArguments f := by
    cases ts with
    | nil => cases h
    | cons f us =>
      rw [openingAfter?] at h
      split at h
      next hf =>
        cases h
        exact ⟨f, rfl, by simpa [opensArguments] using hf⟩
      next => cases h
  rw [opening?.eq_def] at h
  dsimp only at h
  split at h
  next hk =>
    split at h
    next => cases h
    next u us =>
      split at h
      next hu =>
        obtain ⟨f, rfl, hf⟩ := hafter h
        exact ⟨[t, u], f, rfl, hf, by simp [hk, hu], by simp⟩
      next =>
        obtain ⟨f, hcons, hf⟩ := hafter h
        exact ⟨[t], f, by rw [hcons]; rfl, hf, by simp [hk], by simp⟩
  next => cases h

/-- Where no pseudo-class with arguments starts at a colon, none of its colons
stands in front of a function that opens some. -/
theorem opensArguments_eq_false {f : Token} (hk : t.kind = .colon)
    (h : opening? (t :: us) = none) :
    (us = f :: ts → opensArguments f = false) ∧
      ∀ u : Token, u.kind = .colon → us = u :: f :: ts → opensArguments f = false := by
  have hafter {colons : String} (h : openingAfter? colons (f :: ts) = none) :
      opensArguments f = false := by
    by_contra hf
    rw [openingAfter?, if_pos (by simpa [opensArguments] using hf)] at h
    cases h
  have hcolon (hf : f.kind = .colon) : opensArguments f = false := by
    simp [opensArguments, hf]
  rw [opening?.eq_def] at h
  dsimp only at h
  rw [if_pos hk] at h
  refine ⟨?_, ?_⟩
  · rintro rfl
    dsimp only at h
    by_cases hf : f.kind = .colon
    · exact hcolon hf
    · rw [if_neg hf] at h
      exact hafter h
  · rintro u hu rfl
    dsimp only at h
    rw [if_pos hu] at h
    exact hafter h

/-- A simple selector without arguments is a row of items by themselves, with
nothing behind it that a colon in it could matter to, or it is a bracket. -/
inductive Takes (t : Token) (ts : List Token) : Nat → Prop where
  | row {n : Nat} (hn : n ≤ ts.length) (hall : ∀ u ∈ t :: ts.take n, standsAlone u.kind)
    (hb : endsInColon false (t :: ts.take n) = true →
      ∀ f ∈ (ts.drop n).head?, opensArguments f = false) : Takes t ts n
  | brackets {n : Nat} (hk : t.kind = .leftBracket)
    (hn : Token.closingLength (· = .leftBracket) (· = .rightBracket) 0 ts = some n) : Takes t ts n
  | parens {n : Nat} (hk : t.kind.opensParen)
    (hn : Token.closingLength Token.Kind.opensParen (· = .rightParen) 0 ts = some n) : Takes t ts n

/-- One colon or two, and the name behind them if there is one. -/
theorem takes_of_colon {kind : Kind} {n : Nat} (hk : t.kind = .colon)
    (hs : simple t ts = .ok (kind, n)) (ho : opening? (t :: ts) = none) : Takes t ts n := by
  obtain ⟨colons, rest, rfl, hsecond, hcolons, hopens⟩ : ∃ colons rest, ts = colons ++ rest ∧
      (ts.takeWhile (·.kind = .colon)).take 1 = colons ∧ (∀ u ∈ colons, u.kind = .colon) ∧
      ∀ f ∈ rest.head?, opensArguments f = false := by
    cases ts with
    | nil => exact ⟨[], [], rfl, rfl, by simp, by simp⟩
    | cons u us =>
      by_cases hu : u.kind = .colon
      · refine ⟨[u], us, rfl, by simp [hu], by simp [hu], fun f hf => ?_⟩
        obtain ⟨vs, rfl⟩ := List.head?_eq_some_iff.mp hf
        exact (opensArguments_eq_false hk ho).2 u hu rfl
      · refine ⟨[], u :: us, rfl, by simp [hu], by simp, fun f hf => ?_⟩
        obtain rfl := Option.some.inj hf
        exact (opensArguments_eq_false hk ho).1 rfl
  have hrow : ∀ u ∈ t :: colons, standsAlone u.kind :=
    List.forall_mem_cons.mpr
      ⟨standsAlone_of_colon hk, fun u hu => standsAlone_of_colon (hcolons u hu)⟩
  have htakes : Takes t (colons ++ rest) colons.length :=
    .row (by simp) (by rwa [List.take_left]) fun _ => by rwa [List.drop_left]
  rw [simple.eq_def, hk] at hs
  dsimp only at hs
  rw [hsecond, List.drop_left] at hs
  split at hs
  next =>
    cases hs
    exact htakes
  next f us =>
    split at hs
    next hf =>
      cases hs
      have htake : (colons ++ f :: us).take (colons.length + 1) = colons ++ [f] := by
        rw [← List.singleton_append, ← List.append_assoc, List.take_left' (by simp)]
      refine .row (by simp) ?_ ?_
      · rw [htake, ← List.cons_append]
        exact List.forall_mem_append.mpr ⟨hrow, by simpa using standsAlone_of_ident hf⟩
      · rw [htake, ← List.cons_append, endsInColon, List.getLast?_concat]
        simp [hf]
    next =>
      cases hs
      exact htakes

theorem takes_of_simple {kind : Kind} {n : Nat} (hs : simple t ts = .ok (kind, n))
    (hparen : t.kind ≠ .rightParen) (hcomma : t.kind ≠ .comma) (ho : opening? (t :: ts) = none) :
    Takes t ts n := by
  have hsingle (hk : standsAlone t.kind ∧ t.kind ≠ .colon) : Takes t ts 0 :=
    .row (Nat.zero_le _) (by simpa using hk.1) (by simp [endsInColon, hk.2])
  rw [simple.eq_def] at hs
  cases hk : t.kind with
  | delim c =>
    rw [hk] at hs
    have halone : standsAlone t.kind ∧ t.kind ≠ .colon := by
      rw [hk]
      exact ⟨rfl, by simp⟩
    dsimp only at hs
    repeat' split at hs
    all_goals cases hs
    case h_2.isTrue.refl name us hname =>
      exact .row (by simp) (by simp [halone.1, standsAlone_of_ident hname])
        (by simp [endsInColon, hname])
    all_goals exact hsingle halone
  | colon => exact takes_of_colon hk (by rwa [simple.eq_def]) ho
  | leftBracket =>
    rw [hk] at hs
    dsimp only at hs
    split at hs
    next hn =>
      cases hs
      exact .brackets hk hn
    next => cases hs
  | function | leftParen =>
    rw [hk] at hs
    dsimp only at hs
    split at hs
    next hn =>
      cases hs
      exact .parens (by rw [hk]; rfl) hn
    next => cases hs
  | rightBracket =>
    rw [hk] at hs
    cases hs
  | rightParen => exact absurd hk hparen
  | comma => exact absurd hk hcomma
  | _ =>
    rw [hk] at hs
    cases hs
    exact hsingle (by rw [hk]; exact ⟨rfl, by simp⟩)

theorem disjoint_brackets (k : Token.Kind) (h : decide (k = .leftBracket)) :
    decide (k = .rightBracket) = false := by
  rw [of_decide_eq_true h]
  rfl

theorem disjoint_parens (k : Token.Kind) (h : k.opensParen) : decide (k = .rightParen) = false := by
  cases k with
  | function | leftParen => rfl
  | _ => cases h

theorem closingLength_eq_length {opens closes : Token.Kind → Bool} {inner : List Token}
    (h : IsClosing opens closes 0 inner) (hdisjoint : ∀ k, opens k → closes k = false)
    (ts : List Token) : Token.closingLength opens closes 0 (inner ++ ts) = some inner.length := by
  rw [Token.closingLength_eq_some_iff hdisjoint, List.take_left]
  exact ⟨by simp, h⟩

/-- Items stand in front of what is left of a list. -/
theorem Takes.continues {n : Nat} {taken : List Token} (h : Takes t ts n)
    (hts : ts.drop n = taken ++ rest) (htaken : Continues arguments false taken) :
    ∃ taken', t :: ts = taken' ++ rest ∧ Continues arguments false taken' := by
  refine ⟨t :: (ts.take n ++ taken), ?_, ?_⟩
  · rw [List.cons_append, List.append_assoc, ← hts, List.take_append_drop]
  cases h with
  | row _ hall hb =>
    rw [← List.cons_append, continues_row hall]
    cases hend : endsInColon false (t :: ts.take n) with
    | false => exact htaken
    | true =>
      refine (continues_behind fun f hf => hb hend f ?_).mpr htaken
      obtain ⟨us, rfl⟩ := List.head?_eq_some_iff.mp hf
      rw [hts]
      rfl
  | brackets hk hn =>
    exact .brackets hk ((Token.closingLength_eq_some_iff disjoint_brackets).mp hn).2 htaken
  | parens hk hn =>
    exact .parens hk (by simp) ((Token.closingLength_eq_some_iff disjoint_parens).mp hn).2 htaken

/-- Behind a simple selector in what is left of a list, a list is left. -/
theorem Continues.behind_takes {n : Nat} (h : Continues arguments false (t :: us))
    (hrest : StopsAt .rightParen rest) (ht : Takes t (us ++ rest) n) :
    ∃ us', (us ++ rest).drop n = us' ++ rest ∧ Continues arguments false us' := by
  cases ht with
  | row _ hall hb =>
    have hrow : ∀ u ∈ (us ++ rest).take n, u.kind ≠ .rightParen := by
      intro u hu hk
      have halone := hall u (List.mem_cons_of_mem t hu)
      rw [hk] at halone
      cases halone
    obtain ⟨us', hus, hdrop⟩ :=
      exists_eq_append_of_row hrow hrest (List.take_append_drop n (us ++ rest)).symm
    refine ⟨us', hdrop, ?_⟩
    rw [hus, ← List.cons_append, continues_row hall] at h
    cases hend : endsInColon false (t :: (us ++ rest).take n) with
    | false => rwa [hend] at h
    | true =>
      refine (continues_behind fun f hf => hb hend f ?_).mp h
      obtain ⟨vs, rfl⟩ := List.head?_eq_some_iff.mp hf
      rw [hdrop]
      rfl
  | brackets hk hn =>
    cases h with
    | alone halone => simp [hk, standsAlone] at halone
    | comma hcomma => simp [hk] at hcomma
    | parens hparen => simp [hk, Token.Kind.opensParen] at hparen
    | brackets _ hi h =>
      rw [List.append_assoc, closingLength_eq_length hi disjoint_brackets] at hn
      cases hn
      exact ⟨_, by rw [List.append_assoc, List.drop_left], h⟩
  | parens hk hn =>
    cases h with
    | alone halone => cases hkind : t.kind <;> simp_all [standsAlone, Token.Kind.opensParen]
    | comma hcomma => simp [hcomma, Token.Kind.opensParen] at hk
    | brackets hbracket => simp [hbracket, Token.Kind.opensParen] at hk
    | parens _ _ hi h =>
      rw [List.append_assoc, closingLength_eq_length hi disjoint_parens] at hn
      cases hn
      exact ⟨_, by rw [List.append_assoc, List.drop_left], h⟩

/-- A simple selector without arguments can be read wherever a list goes on
with something else than a comma. -/
theorem Continues.exists_simple (h : Continues arguments false (t :: us)) (hk : t.kind ≠ .comma)
    (rest : List Token) : ∃ kind n, simple t (us ++ rest) = .ok (kind, n) := by
  cases h with
  | alone halone =>
    rw [simple.eq_def]
    cases hkind : t.kind with
    | comma | leftParen | rightParen | leftBracket | rightBracket | function =>
      simp [hkind, standsAlone] at halone
    | _ =>
      dsimp only
      repeat' split
      all_goals exact ⟨_, _, rfl⟩
  | comma hcomma => exact absurd hcomma hk
  | brackets hbracket hi =>
    rw [simple.eq_def, hbracket, List.append_assoc]
    dsimp only
    rw [closingLength_eq_length hi disjoint_brackets]
    exact ⟨_, _, rfl⟩
  | parens hparen _ hi =>
    rw [simple.eq_def, List.append_assoc]
    cases hkind : t.kind with
    | function | leftParen =>
      dsimp only
      rw [closingLength_eq_length hi disjoint_parens]
      exact ⟨_, _, rfl⟩
    | _ => simp [hkind, Token.Kind.opensParen] at hparen

/-- Where a pseudo-class with arguments starts in what is left of a list, its
arguments are closed and a list is left behind them. -/
theorem Continues.behind_opening {o : Opening} (h : Continues arguments false (t :: us))
    (hrest : StopsAt .rightParen rest) (ho : opening? (t :: (us ++ rest)) = some o) :
    ∃ inner u us', o.body = inner ++ u :: (us' ++ rest) ∧ arguments inner ∧
      u.kind = .rightParen ∧ Continues arguments false us' := by
  obtain ⟨colons, f, hcons, hf, hcolons, hne⟩ := opening?_eq_some ho
  have hrow : ∀ u ∈ colons ++ [f], u.kind ≠ .rightParen := by
    intro u hu hk
    rcases List.mem_append.mp hu with hu | hu
    · simp [hcolons u hu] at hk
    · rw [List.mem_singleton.mp hu] at hk
      simp [opensArguments, hk] at hf
  have happend : (t :: us) ++ rest = (colons ++ [f]) ++ o.body := by simpa using hcons
  obtain ⟨us', hus, hbody⟩ := exists_eq_append_of_row hrow hrest happend
  rw [hus, List.append_assoc,
    continues_row fun u hu => standsAlone_of_colon (hcolons u hu),
    endsInColon_colons hcolons hne] at h
  cases h with
  | alone halone => simp_all [opensArguments, standsAlone]
  | comma hcomma => simp [opensArguments, hcomma] at hf
  | brackets hbracket => simp [opensArguments, hbracket] at hf
  | parens _ hc => exact absurd ⟨rfl, hf⟩ hc
  | call _ hi hu h => exact ⟨_, _, _, by simp [hbody], hi, hu, h⟩

/-- A pseudo-class with arguments in front of what is left of a list. -/
theorem Continues.of_opening {o : Opening} {inner taken : List Token} {u : Token}
    (h : Continues arguments false taken) (ho : opening? (t :: ts) = some o)
    (hbody : o.body = inner ++ u :: (taken ++ rest)) (hi : arguments inner)
    (hu : u.kind = .rightParen) :
    ∃ taken', t :: ts = taken' ++ rest ∧ Continues arguments false taken' := by
  obtain ⟨colons, f, hcons, hf, hcolons, hne⟩ := opening?_eq_some ho
  refine ⟨colons ++ f :: (inner ++ u :: taken), by rw [hcons, hbody]; simp, ?_⟩
  rw [continues_row fun v hv => standsAlone_of_colon (hcolons v hv), endsInColon_colons hcolons hne]
  exact .call hf hi hu h

end Steps

/-! ### Reading by the grammar -/

section Reading

variable {limit stop depth : Nat} {isFirst : Bool} {ts taken rest : List Token}

theorem argumentsWithin_of_lt (hd : depth < limit) :
    argumentsWithin (limit - depth) = IsListWithin (limit - (depth + 1)) := by
  obtain ⟨n, hn⟩ : ∃ n, limit - depth = n + 1 := ⟨limit - depth - 1, by omega⟩
  rw [hn, show limit - (depth + 1) = n by omega]
  rfl

theorem lt_of_argumentsWithin {inner : List Token} (h : argumentsWithin (limit - depth) inner) :
    depth < limit := by
  by_contra hle
  rw [Nat.sub_eq_zero_of_le (Nat.le_of_not_lt hle)] at h
  exact h

/-- What is read is what is left of a list, up to a parenthesis or the end. -/
theorem Parsed.continues {p : Parts ts.length} (h : Parsed limit stop depth isFirst ts p) :
    StopsAt .rightParen p.rest ∧
      ∃ taken, ts = taken ++ p.rest ∧
        Continues (argumentsWithin (limit - depth)) false taken := by
  have hlead {depth : Nat} {ts rest : List Token}
      (h : ∃ taken, ts.dropWhile isTrivia = taken ++ rest ∧
        Continues (argumentsWithin (limit - depth)) false taken) :
      ∃ taken, ts = taken ++ rest ∧
        Continues (argumentsWithin (limit - depth)) false taken := by
    obtain ⟨taken, htaken, h⟩ := h
    refine ⟨ts.takeWhile isTrivia ++ taken, ?_, ?_⟩
    · rw [List.append_assoc, ← htaken, List.takeWhile_append_dropWhile]
    · exact (continues_trivia fun t ht => List.mem_takeWhile_imp ht).mpr h
  induction h with
  | finish ht => exact ⟨Token.stopsAt_nil _, hlead ⟨[], by simpa using ht, .nil⟩⟩
  | close ht hk => exact ⟨Token.stopsAt_cons.mpr hk, hlead ⟨[], by simpa using ht, .nil⟩⟩
  | comma ht hk _ _ ih =>
    obtain ⟨hstop, taken, htaken, h⟩ := ih
    exact ⟨hstop, hlead ⟨_ :: taken, ht.trans (congrArg (_ :: ·) htaken), .comma hk h⟩⟩
  | combinator ht hk _ _ ih =>
    rw [Parts.rest_cons]
    obtain ⟨hstop, hmore⟩ := ih
    obtain ⟨taken, htaken, h⟩ := hlead hmore
    have halone := standsAlone_of_combinator? hk
    refine ⟨hstop, hlead ⟨_ :: taken, ht.trans (congrArg (_ :: ·) htaken), .alone halone.1 ?_⟩⟩
    rwa [decide_eq_false halone.2]
  | call ht ho hd _ hr _ _ iha ih =>
    rw [(Parts.consSimple_eq ..).2]
    obtain ⟨hstopa, inner, hinner, ha⟩ := iha
    obtain ⟨hstop, taken, htaken, h⟩ := ih
    rw [hr] at hinner hstopa
    rw [htaken] at hinner
    obtain ⟨taken', hcons, h⟩ := h.of_opening ho hinner
      (by rw [argumentsWithin_of_lt hd]; exact isListWithin_iff_continues.mpr ha)
      (Token.stopsAt_cons.mp hstopa)
    exact ⟨hstop, hlead ⟨taken', ht.trans hcons, h⟩⟩
  | leaf ht hparen hcomma _ ho hs _ _ ih =>
    rw [(Parts.consSimple_eq ..).2]
    obtain ⟨hstop, taken, htaken, h⟩ := ih
    obtain ⟨taken', hcons, h⟩ := (takes_of_simple hs hparen hcomma ho).continues htaken h
    exact ⟨hstop, hlead ⟨taken', ht.trans hcons, h⟩⟩

/-- White space and comments are dropped from what is left of a list. -/
theorem Continues.dropWhile {arguments : List Token → Prop}
    (h : Continues arguments false taken) (hrest : StopsAt .rightParen rest) :
    ∃ us, (taken ++ rest).dropWhile isTrivia = us ++ rest ∧ Continues arguments false us := by
  refine ⟨taken.dropWhile isTrivia, ?_, ?_⟩
  · have hkeep : rest.dropWhile isTrivia = rest := by
      cases rest with
      | nil => rfl
      | cons t rest =>
        exact List.dropWhile_cons_of_neg (by rw [isTrivia, Token.stopsAt_cons.mp hrest]; decide)
    rw [List.dropWhile_append]
    split
    next hnil => rw [hkeep, List.isEmpty_iff.mp hnil, List.nil_append]
    next => rfl
  · rw [← List.takeWhile_append_dropWhile (p := isTrivia) (l := taken),
      continues_trivia fun t ht => List.mem_takeWhile_imp ht] at h
    exact h

/-- The first token of what is left of a list, white space and comments apart. -/
theorem Continues.of_dropWhile {arguments : List Token → Prop} {t : Token} {more : List Token}
    (h : Continues arguments false taken) (hrest : StopsAt .rightParen rest)
    (hts : ts = taken ++ rest) (ht : ts.dropWhile isTrivia = t :: more)
    (hk : t.kind ≠ .rightParen) :
    ∃ us, more = us ++ rest ∧ Continues arguments false (t :: us) := by
  subst hts
  obtain ⟨us, hdrop, h⟩ := h.dropWhile hrest
  rw [ht] at hdrop
  cases us with
  | nil =>
    rw [List.nil_append] at hdrop
    rw [← hdrop] at hrest
    exact absurd (Token.stopsAt_cons.mp hrest) hk
  | cons u us =>
    obtain ⟨rfl, rfl⟩ := List.cons.inj hdrop
    exact ⟨us, rfl, h⟩

/-- What is left of a list is read, up to a parenthesis or the end. -/
theorem Continues.exists_parseParts (h : Continues (argumentsWithin (limit - depth)) false taken)
    (hrest : StopsAt .rightParen rest) (hts : ts = taken ++ rest) :
    ∃ p, parseParts limit stop depth isFirst ts = .ok p ∧ p.rest = rest := by
  fun_induction parseParts limit stop depth isFirst ts generalizing taken rest with
  | case1 =>
    rename_i ht
    rw [hts] at ht
    obtain ⟨us, hdrop, -⟩ := h.dropWhile hrest
    obtain ⟨-, rfl⟩ := List.append_eq_nil_iff.mp (hdrop.symm.trans ht)
    exact ⟨_, rfl, rfl⟩
  | case2 =>
    rename_i t more ht hlt hk
    obtain ⟨us, hdrop, h⟩ := h.dropWhile hrest
    rw [← hts, ht] at hdrop
    cases us with
    | nil => exact ⟨_, rfl, hdrop⟩
    | cons u us =>
      -- No item starts with a closing parenthesis.
      obtain ⟨rfl, -⟩ := List.cons.inj hdrop
      cases h with
      | alone halone => simp [hk, standsAlone] at halone
      | comma hcomma => simp [hk] at hcomma
      | brackets hbracket => simp [hk] at hbracket
      | parens hparen => simp [hk, Token.Kind.opensParen] at hparen
  | case3 =>
    rename_i ts t more ht hlt hparen hk ih
    obtain ⟨us, rfl, h⟩ := h.of_dropWhile hrest hts ht hparen
    cases h with
    | alone halone => simp [hk, standsAlone] at halone
    | brackets hbracket => simp [hk] at hbracket
    | parens hopen => simp [hk, Token.Kind.opensParen] at hopen
    | comma _ h =>
      obtain ⟨p, hp, hr⟩ := ih h hrest rfl
      exact ⟨_, bind_eq_ok.mpr ⟨p, hp, rfl⟩, hr⟩
  | case4 =>
    rename_i ts t more ht hlt hparen hcomma c hc after hle ih
    obtain ⟨us, rfl, h⟩ := h.of_dropWhile hrest hts ht hparen
    have halone := standsAlone_of_combinator? hc
    rw [continues_alone halone.1, decide_eq_false halone.2] at h
    obtain ⟨us', hdrop, h⟩ := h.dropWhile hrest
    obtain ⟨p, hp, hr⟩ := ih h hrest hdrop
    exact ⟨_, bind_eq_ok.mpr ⟨p, hp, rfl⟩, (Parts.rest_cons ..).trans hr⟩
  | case5 =>
    rename_i ts t more ht hlt hparen hcomma hc o ho hb hd
    obtain ⟨us, rfl, h⟩ := h.of_dropWhile hrest hts ht hparen
    obtain ⟨inner, u, us', -, hi, -⟩ := h.behind_opening hrest ho
    exact absurd (lt_of_argumentsWithin hi) (Nat.not_lt.mpr hd)
  | case6 =>
    rename_i depth isFirst ts trivia t more ht hlt hparen hcomma hc o ho hb hd iha ih
    obtain ⟨us, rfl, h⟩ := h.of_dropWhile hrest hts ht hparen
    obtain ⟨inner, u, us', hbody, hi, hu, h⟩ := h.behind_opening hrest ho
    rw [argumentsWithin_of_lt (Nat.lt_of_not_le hd), isListWithin_iff_continues] at hi
    obtain ⟨arguments, ha, hr⟩ := iha hi (Token.stopsAt_cons.mpr hu) hbody
    have hbind {f : Parts o.body.length → Except SyntaxError (Parts ts.length)}
        (hf : ∃ p, f arguments = .ok p ∧ p.rest = rest) :
        ∃ p, parseParts limit stop (depth + 1) true o.body >>= f = .ok p ∧ p.rest = rest := by
      obtain ⟨p, hp, hr⟩ := hf
      exact ⟨p, bind_eq_ok.mpr ⟨arguments, ha, hp⟩, hr⟩
    refine hbind ?_
    split
    next hnil => cases hr.symm.trans hnil
    next v behind hcons =>
      cases hr.symm.trans hcons
      obtain ⟨p, hp, hrest'⟩ := ih arguments u (us' ++ rest) hr h hrest rfl
      exact ⟨_, bind_eq_ok.mpr ⟨p, hp, rfl⟩, (Parts.consSimple_eq ..).2.trans hrest'⟩
  | case7 =>
    rename_i ts trivia t more ht hlt hparen hcomma hc ho ih
    obtain ⟨us, rfl, h⟩ := h.of_dropWhile hrest hts ht hparen
    obtain ⟨kind, n, hs⟩ := h.exists_simple hcomma rest
    obtain ⟨us', hdrop, h⟩ := h.behind_takes hrest (takes_of_simple hs hparen hcomma ho)
    obtain ⟨p, hp, hr⟩ := ih n h hrest hdrop
    exact ⟨_, bind_eq_ok.mpr ⟨_, hs, bind_eq_ok.mpr ⟨p, hp, rfl⟩⟩,
      (Parts.consSimple_eq ..).2.trans hr⟩

end Reading

/-- **A text is read as a selector list if and only if its tokens belong to the
grammar.** -/
theorem exists_parse_iff_isListWithin (source : String) :
    (∃ t, parse source = .ok t) ↔ IsListWithin nestingLimit (Token.lex source) := by
  rw [isListWithin_iff_continues]
  constructor
  · rintro ⟨t, ht⟩
    obtain ⟨p, hp, hrest, -⟩ := parsed_of_parseWithin ht
    obtain ⟨-, taken, htaken, h⟩ := hp.continues
    rw [hrest, List.append_nil] at htaken
    rw [htaken]
    exact h
  · intro h
    replace h : Continues (argumentsWithin (nestingLimit - 0)) false (Token.lex source) := h
    obtain ⟨p, hp, hrest⟩ : ∃ p,
        parseParts nestingLimit source.utf8ByteSize 0 true (Token.lex source) = .ok p ∧
          p.rest = [] :=
      h.exists_parseParts (Token.stopsAt_nil _) (List.append_nil _).symm
    have hlist : parse source = .ok (.node .root .none 0
        (p.alternatives (Token.startOf source.utf8ByteSize (Token.lex source)))) := by
      refine bind_eq_ok.mpr ⟨p, hp, ?_⟩
      split
      next => rfl
      next hcons => cases hrest.symm.trans hcons
    exact ⟨_, hlist⟩

end Selector
end StyleScope
