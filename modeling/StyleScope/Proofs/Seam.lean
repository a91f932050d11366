/-
# Where a text can be cut between tokens

The lexer looks ahead: a name goes on as long as it can, and whether a
character starts a number, a name or a mark depends on up to three characters.
So the tokens of two texts in a row are not always the tokens of the first and
then those of the second. They are if the first ends in a brace, a semicolon, a
closing parenthesis or a closed comment (`lexFrom_append`), and then the first
can also be taken out of the text of both without a change to its tokens
(`lexFrom_of_append`).

The reason is that such a text hides what stands behind it: to a token in front
all texts that start with it look alike (`Hides`).

Key definitions: `Token.EndsClosed`.
Key theorems: `Token.lexFrom_append`, `Token.lexFrom_of_append`.
-/
import StyleScope.Proofs.LookAhead

namespace StyleScope
namespace Token

open Text

/-! ### Closed tokens -/

/-- The characters that are tokens wherever a token starts with them. -/
def isBarrier (c : Char) : Bool :=
  c = '\x7b' || c = '\x7d' || c = ';' || c = ')'

theorem isBarrier_iff {c : Char} :
    isBarrier c ↔ c = '\x7b' ∨ c = '\x7d' ∨ c = ';' ∨ c = ')' := by
  simp [isBarrier, or_assoc]

/-- The kinds of tokens that end where they do whatever follows, and that no
token in front of them looks past. -/
def Kind.isClosed : Kind → Bool
  | leftBrace | rightBrace | semicolon | rightParen | comment true => true
  | _ => false

/-- A barrier is a token of its own. -/
theorem scan_of_isBarrier {c : Char} (hc : isBarrier c) (cs : List Char) :
    scan c cs = ⟨(punctuation? c).getD (.delim c), 1⟩ := by
  obtain rfl | rfl | rfl | rfl := isBarrier_iff.mp hc <;> rfl

/-- The kinds of closed tokens, and comments that are not closed. -/
def Kind.mayClose : Kind → Bool
  | leftBrace | rightBrace | semicolon | rightParen | comment _ => true
  | _ => false

theorem Kind.mayClose_of_isClosed {k : Kind} (h : k.isClosed) : k.mayClose := by
  cases k with
  | leftBrace => rfl
  | rightBrace => rfl
  | semicolon => rfl
  | rightParen => rfl
  | comment => rfl
  | _ => cases h

theorem isBarrier_of_punctuation {c : Char} (h : ((punctuation? c).getD (.delim c)).mayClose) :
    isBarrier c := by
  unfold punctuation? at h
  repeat' split at h
  all_goals first | (subst_vars; rfl) | cases h

theorem Kind.mayClose_eq_false {k : Kind} (h : k.isNumeric ∨ k.isNamed) : k.mayClose = false := by
  cases k <;> first | rfl | (rcases h with h | h <;> cases h)

/-- Only barriers and comments may be closed. -/
theorem mayClose_scan {c : Char} {cs : List Char} (h : (scan c cs).kind.mayClose) :
    isBarrier c ∨ (c = '/' && cs.head? = some '*') = true := by
  have hfinds := finds_scan c cs
  generalize scan c cs = l at hfinds h
  cases hfinds with
  | comment hc => exact .inr hc
  | string =>
    rcases scanString_ends c cs with hbad | ⟨terminated, _, hk, -⟩
    · rw [Lexeme.extend, hbad] at h
      cases h
    · rw [Lexeme.extend, hk] at h
      cases h
  | number =>
    rw [Kind.mayClose_eq_false (.inl (isNumeric_scanNumber _))] at h
    cases h
  | named =>
    rw [Kind.mayClose_eq_false (.inr (isNamed_scanNamed _))] at h
    cases h
  | single => exact .inl (isBarrier_of_punctuation h)
  | _ => cases h

theorem scan_of_isSpace {c : Char} (hc : isSpace c) (cs : List Char) :
    scan c cs = ⟨.whitespace, 1 + runLength isSpace cs⟩ := by
  unfold scan
  rw [if_neg, if_pos hc]
  simp only [Bool.and_eq_true, decide_eq_true_eq, not_and]
  rintro rfl
  cases hc

/-- A quote starts a string. -/
theorem scan_of_isQuote {c : Char} (hc : isQuote c) (cs : List Char) :
    scan c cs = (scanString c cs).extend 1 := by
  have hfirst : c ≠ '/' ∧ isSpace c = false := by
    simp only [isQuote, Bool.or_eq_true, decide_eq_true_eq] at hc
    rcases hc with rfl | rfl <;> decide
  have hslash : ¬ (c = '/' && cs.head? = some '*') = true := by
    simp [hfirst.1]
  have hspace : ¬ isSpace c = true := by
    simp [hfirst.2]
  rw [scan, if_neg hslash, if_neg hspace, if_pos hc]

theorem scan_of_comment {c : Char} {cs : List Char} (hc : (c = '/' && cs.head? = some '*') = true) :
    scan c cs = (scanComment cs.tail).extend 2 := by
  unfold scan
  rw [if_pos hc]

/-- A closed token is a barrier or a closed comment. -/
theorem isClosed_scan {c : Char} {cs : List Char} (h : (scan c cs).kind.isClosed) :
    isBarrier c ∨
      (c = '/' && cs.head? = some '*') = true ∧ (scanComment cs.tail).kind = .comment true := by
  refine (mayClose_scan (Kind.mayClose_of_isClosed h)).imp_right fun hc => ⟨hc, ?_⟩
  rw [scan_of_comment hc] at h
  have hk := isComment_scanComment cs.tail
  change (scanComment cs.tail).kind.isClosed = true at h
  cases hkind : (scanComment cs.tail).kind with
  | comment terminated =>
    rw [hkind] at h
    cases terminated with
    | true => rfl
    | false => cases h
  | _ =>
    rw [hkind] at hk
    cases hk

/-- Behind a comment that is not closed there is nothing. -/
theorem drop_scan_of_comment {c : Char} {cs : List Char} (h : (scan c cs).kind = .comment false) :
    (c :: cs).drop (scan c cs).length = [] := by
  rcases mayClose_scan (by rw [h]; rfl) with hbarrier | hc
  · rw [scan_of_isBarrier hbarrier] at h
    obtain rfl | rfl | rfl | rfl := isBarrier_iff.mp hbarrier <;> cases h
  · rw [scan_of_comment hc] at h ⊢
    have hkind : (scanComment cs.tail).kind = .comment false := h
    rcases scanComment_eq_or cs.tail with hclosed | hlength
    · rw [hkind] at hclosed
      cases hclosed
    · cases cs with
      | nil => rfl
      | cons d cs =>
        rw [List.tail_cons] at hlength ⊢
        rw [Lexeme.extend, hlength, List.drop_eq_nil_iff]
        simp only [List.length_cons]
        omega

/-- The tokens end in a closed one. -/
def EndsClosed (ts : List Token) : Prop :=
  ∃ t ∈ ts.getLast?, t.kind.isClosed

theorem EndsClosed.append_left {us : List Token} (h : EndsClosed us) (ts : List Token) :
    EndsClosed (ts ++ us) := by
  obtain ⟨t, ht, hclosed⟩ := h
  exact ⟨t, List.mem_getLast?_append_of_mem_getLast? ht, hclosed⟩

theorem endsClosed_of_suffix {ts : List Token} {t : Token} (h : [t] <:+ ts)
    (ht : t.kind.isClosed) : EndsClosed ts := by
  obtain ⟨front, rfl⟩ := h
  exact ⟨t, List.getLast?_concat, ht⟩

theorem endsClosed_cons {t : Token} {ts : List Token} (hts : ts ≠ []) :
    EndsClosed (t :: ts) ↔ EndsClosed ts := by
  obtain ⟨u, us, rfl⟩ := List.exists_cons_of_ne_nil hts
  rw [EndsClosed, List.getLast?_cons_cons]
  rfl

/-- A text whose last token is closed hides what stands behind it. -/
theorem hides_of_endsClosed {start : Nat} {x : List Char} (h : EndsClosed (lexFrom start x)) :
    Hides x := by
  fun_induction lexFrom start x with
  | case1 =>
    obtain ⟨t, ht, -⟩ := h
    cases ht
  | case2 start c cs n text ih =>
    by_cases hrest : lexFrom (start + text.utf8ByteSize) ((c :: cs).drop n) = []
    · rw [hrest] at h
      obtain ⟨t, ht, hclosed⟩ := h
      obtain rfl := Option.some.inj ht
      rcases isClosed_scan hclosed with hbarrier | ⟨hopen, hcomment⟩
      · refine hides_of_isStop ?_ cs
        obtain rfl | rfl | rfl | rfl := isBarrier_iff.mp hbarrier <;> rfl
      · cases cs with
        | nil => simp at hopen
        | cons d cs =>
          have htwo := two_le_length_of_comment hcomment
          have hle := length_scanComment_le cs
          refine fun y z => .of_length ?_ y z
          simp only [List.length_cons, List.tail_cons] at htwo ⊢
          omega
    · exact (ih ((endsClosed_cons hrest).mp h)).of_drop

theorem lexFrom_eq_nil {start : Nat} {cs : List Char} : lexFrom start cs = [] ↔ cs = [] := by
  constructor
  · intro h
    have htext := textOf_lexFrom start cs
    rw [h, textOf_nil] at htext
    exact (String.ofList_eq_empty_iff).mp htext.symm
  · rintro rfl
    rw [lexFrom]

/-- What follows a text has no influence on a token that is closed in it, or from
which the rest of the text hides it. -/
theorem scan_append_of_le {c : Char} {x y : List Char}
    (hle : (scan c (x ++ y)).length ≤ (c :: x).length)
    (h : (scan c (x ++ y)).kind.isClosed ∨
      Hides ((c :: x).drop (scan c (x ++ y)).length)) (z : List Char) :
    scan c (x ++ z) = scan c (x ++ y) := by
  rcases h with h | h
  · rcases isClosed_scan h with hbarrier | ⟨hopen, hcomment⟩
    · rw [scan_of_isBarrier hbarrier, scan_of_isBarrier hbarrier]
    · rw [scan_of_comment hopen] at hle
      have htwo := two_le_length_of_comment hcomment
      cases x with
      | nil =>
        simp only [Lexeme.extend, List.length_singleton] at hle
        omega
      | cons d x =>
        have hopen' : (c = '/' && (d :: x ++ z).head? = some '*') = true := hopen
        have hinside : (scanComment (x ++ y)).length ≤ x.length := by
          simp only [Lexeme.extend, List.length_cons, List.cons_append, List.tail_cons] at hle
          omega
        rw [scan_of_comment hopen', scan_of_comment hopen, List.cons_append, List.cons_append,
          List.tail_cons, List.tail_cons, scanComment_append z hcomment hinside]
  · obtain ⟨n, hn⟩ := Nat.exists_eq_add_of_lt (length_scan_pos c (x ++ y))
    rw [Nat.zero_add] at hn
    rw [hn, List.drop_succ_cons] at h
    rw [hn, List.length_cons] at hle
    have hsplit : ∀ w, x ++ w = x.take n ++ (x.drop n ++ w) := by
      intro w
      rw [← List.append_assoc, List.take_append_drop]
    rw [hsplit] at hn
    rw [hsplit, hsplit y]
    refine scan_alike (h y z) ?_
    rw [hn, List.length_cons, List.length_take]
    omega

/-- The first token of tokens that end in a closed one is closed, or the others
hide what stands behind them from it. -/
theorem isClosed_or_hides {start : Nat} {t : Token} {cs : List Char}
    (h : EndsClosed (t :: lexFrom start cs)) : t.kind.isClosed ∨ Hides cs := by
  by_cases hcs : cs = []
  · rw [lexFrom_eq_nil.mpr hcs] at h
    obtain ⟨t', ht, hclosed⟩ := h
    obtain rfl := Option.some.inj ht
    exact .inl hclosed
  · exact .inr (hides_of_endsClosed ((endsClosed_cons (mt lexFrom_eq_nil.mp hcs)).mp h))

/-- **Tokens of a text behind a closed token.** -/
theorem lexFrom_append {start : Nat} {x : List Char} (h : EndsClosed (lexFrom start x))
    (z : List Char) :
    lexFrom start (x ++ z) =
      lexFrom start x ++ lexFrom (start + (String.ofList x).utf8ByteSize) z := by
  fun_induction lexFrom start x with
  | case1 =>
    obtain ⟨t, ht, -⟩ := h
    cases ht
  | case2 start c cs n text ih =>
    have hclosed := isClosed_or_hides h
    have hle := length_scan_le c cs
    have hscan := scan_append_of_le (x := cs) (y := []) (c := c) (by simpa using hle)
      (by simpa using hclosed) z
    rw [List.append_nil] at hscan
    -- the rest is empty or ends in a closed token itself
    have hrest : lexFrom (start + text.utf8ByteSize) ((c :: cs).drop n ++ z) =
        lexFrom (start + text.utf8ByteSize) ((c :: cs).drop n) ++
          lexFrom (start + text.utf8ByteSize +
            (String.ofList ((c :: cs).drop n)).utf8ByteSize) z := by
      by_cases hnil : (c :: cs).drop n = []
      · rw [hnil, lexFrom]
        rfl
      · exact ih ((endsClosed_cons (mt lexFrom_eq_nil.mp hnil)).mp h)
    have hsize : (String.ofList (c :: cs)).utf8ByteSize =
        text.utf8ByteSize + (String.ofList ((c :: cs).drop n)).utf8ByteSize := by
      rw [← String.utf8ByteSize_append, ← String.ofList_append, List.take_append_drop]
    rw [List.cons_append, lexFrom, hscan, ← List.cons_append, List.take_append_of_le_length hle,
      List.drop_append_of_le_length hle, hsize, ← Nat.add_assoc, List.cons_append, ← hrest]

theorem eq_nil_of_comment {start : Nat} {cs : List Char} {us vs : List Token} {t : Token}
    (h : lexFrom start cs = us ++ t :: vs) (ht : t.kind = .comment false) : vs = [] := by
  obtain ⟨cs, -, h⟩ := lexFrom_eq_append h
  cases cs with
  | nil =>
    rw [lexFrom] at h
    cases h
  | cons c cs =>
    rw [lexFrom] at h
    obtain ⟨rfl, rfl⟩ := List.cons.inj h
    exact lexFrom_eq_nil.mpr (drop_scan_of_comment ht)

/-- The tokens of a text up to a closed one are the tokens of the text up to
there. -/
theorem lexFrom_of_append {start : Nat} {cs : List Char} {us vs : List Token}
    (h : lexFrom start cs = us ++ vs) (hc : EndsClosed us) :
    lexFrom start (textOf us).toList = us := by
  obtain ⟨t, ht, hclosed⟩ := hc
  obtain ⟨cs', rfl, -⟩ := lexFrom_eq_append h
  have hquotes : KeepsQuotes us cs' := by
    rintro ⟨u, hu, hkind⟩
    obtain rfl := Option.mem_unique hu ht
    rw [hkind] at hclosed
    cases hclosed
  rw [lexFrom_cut h hquotes, cutOff_eq_self]
  intro u hu hkind
  obtain rfl := Option.mem_unique hu ht
  rw [hkind] at hclosed
  cases hclosed

end Token
end StyleScope
