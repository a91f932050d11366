/-
# Tokens tile the source

The tokens of a source lie end to end, from its first byte to its last, and
none of them is empty. A scanner returns how many characters belong to a
token, so two things are to be seen: it counts at least one
(`length_scan_pos`, where the lexer is defined), and it counts no more than
there are (`length_scan_le`). The first is why reading ends, the second is why
a token has the length that its scanner says.

Where tokens are said to lie is in bytes, and they hold characters; a token
starts and stops at a boundary of characters because the text in front of it
is one of whole characters (`Occurs`).

Key definitions: `Token.Occurs`, `Token.Tiles`.
Key theorems: `Token.length_scan_le`, `Token.tiles_tokenize`.
-/
import StyleScope.Proofs.Reading

namespace StyleScope
namespace Token

open Text

/-! ### No scanner counts too far -/

theorem runLength_le (p : Char → Bool) (cs : List Char) : runLength p cs ≤ cs.length :=
  (List.takeWhile_sublist p).length_le

theorem drop_runLength (p : Char → Bool) (cs : List Char) :
    cs.drop (runLength p cs) = cs.dropWhile p := by
  have h := List.takeWhile_append_dropWhile (p := p) (l := cs)
  calc cs.drop (runLength p cs)
      = (cs.takeWhile p ++ cs.dropWhile p).drop (cs.takeWhile p).length := by rw [h, runLength]
    _ = cs.dropWhile p := List.drop_left

theorem length_runLength_add (p : Char → Bool) (cs : List Char) :
    runLength p cs + (cs.dropWhile p).length = cs.length := by
  rw [runLength, ← List.length_append, List.takeWhile_append_dropWhile]

theorem hexTailLength_le (n : Nat) (cs : List Char) : hexTailLength n cs ≤ cs.length := by
  fun_induction hexTailLength n cs with
  | case1 => exact Nat.le_refl 0
  | case2 => simp
  | case3 => simp
  | case4 n c cs _ ih =>
    rw [List.length_cons]
    omega
  | case5 => simp
  | case6 => simp

theorem escapeLength_le (cs : List Char) : escapeLength cs ≤ cs.length := by
  cases cs with
  | nil => exact Nat.le_refl 0
  | cons c cs =>
    have hhex := hexTailLength_le 5 cs
    rw [escapeLength, List.length_cons]
    split <;> omega

theorem nameLength_le (cs : List Char) : nameLength cs ≤ cs.length := by
  fun_induction nameLength cs with
  | case1 => exact Nat.le_refl 0
  | case2 c cs _ ih =>
    rw [List.length_cons]
    omega
  | case3 c cs _ _ ih =>
    have hescape := escapeLength_le cs
    rw [List.length_drop] at ih
    rw [List.length_cons]
    omega
  | case4 => exact Nat.zero_le _

theorem signLength_le (cs : List Char) : signLength cs ≤ cs.length := by
  cases cs with
  | nil => exact Nat.le_refl 0
  | cons c cs =>
    rw [signLength, List.length_cons]
    split <;> omega

theorem fractionLength_le (cs : List Char) : fractionLength cs ≤ cs.length := by
  unfold fractionLength
  split
  next h =>
    cases cs with
    | nil => cases h
    | cons c cs =>
      have hrun := runLength_le isDigit cs
      rw [List.tail_cons, List.length_cons]
      omega
  next => exact Nat.zero_le _

theorem exponentLength_le (cs : List Char) : exponentLength cs ≤ cs.length := by
  cases cs with
  | nil => exact Nat.le_refl 0
  | cons c cs =>
    have hsign := signLength_le cs
    have hrun := runLength_le isDigit (cs.drop (signLength cs))
    rw [List.length_drop] at hrun
    rw [exponentLength, List.length_cons]
    split <;> omega

theorem decimalLength_le (cs : List Char) : decimalLength cs ≤ cs.length := by
  have hsign := signLength_le cs
  have hrun := runLength_le isDigit (cs.drop (signLength cs))
  have hfraction := fractionLength_le
    (cs.drop (signLength cs + runLength isDigit (cs.drop (signLength cs))))
  rw [List.length_drop] at hrun hfraction
  simp only [decimalLength]
  omega

theorem numberLength_le (cs : List Char) : numberLength cs ≤ cs.length := by
  have hdecimal := decimalLength_le cs
  have hexponent := exponentLength_le (cs.drop (decimalLength cs))
  rw [List.length_drop] at hexponent
  unfold numberLength
  omega

theorem length_scanNumber_le (cs : List Char) : (scanNumber cs).length ≤ cs.length := by
  have hnumber := numberLength_le cs
  have hname := nameLength_le (cs.drop (numberLength cs))
  rw [List.length_drop] at hname
  simp only [scanNumber]
  split
  · dsimp only
    omega
  · split
    next hpercent =>
      have hdrop : cs.drop (numberLength cs) ≠ [] := by
        intro hnil
        rw [hnil] at hpercent
        cases hpercent
      rw [Ne, List.drop_eq_nil_iff] at hdrop
      dsimp only
      omega
    next => exact hnumber

theorem length_scanComment_le (cs : List Char) : (scanComment cs).length ≤ cs.length := by
  fun_induction scanComment cs with
  | case1 => exact Nat.le_refl 0
  | case2 c cs h =>
    cases cs with
    | nil => simp at h
    | cons d cs => simp
  | case3 c cs _ ih =>
    simp only [Lexeme.extend, List.length_cons]
    omega

theorem length_scanString_le (quote : Char) (cs : List Char) :
    (scanString quote cs).length ≤ cs.length := by
  fun_induction scanString quote cs with
  | case1 => exact Nat.le_refl 0
  | case2 => simp
  | case3 => exact Nat.zero_le _
  | case4 cs _ _ ih =>
    have hescape := escapeLength_le cs
    rw [List.length_drop] at ih
    simp only [Lexeme.extend, List.length_cons]
    omega
  | case5 c cs _ _ _ ih =>
    simp only [Lexeme.extend, List.length_cons]
    omega

theorem badUrlLength_le (cs : List Char) : badUrlLength cs ≤ cs.length := by
  fun_induction badUrlLength cs with
  | case1 => exact Nat.le_refl 0
  | case2 => simp
  | case3 c cs _ _ ih =>
    have hescape := escapeLength_le cs
    rw [List.length_drop] at ih
    rw [List.length_cons]
    omega
  | case4 c cs _ _ ih =>
    rw [List.length_cons]
    omega

theorem length_scanUrl_le (cs : List Char) : (scanUrl cs).length ≤ cs.length := by
  fun_induction scanUrl cs with
  | case1 => exact Nat.le_refl 0
  | case2 => simp
  | case3 c cs _ _ n _ =>
    have hrun := runLength_le isSpace cs
    have hn : n = 1 + runLength isSpace cs := rfl
    simp only [List.length_cons]
    omega
  | case4 c cs _ _ n ds hd =>
    have hn : n = 1 + runLength isSpace cs := rfl
    have hlength := congrArg List.length hd
    simp only [List.length_drop, List.length_cons] at hlength ⊢
    omega
  | case5 c cs _ _ n d ds hd _ =>
    have hn : n = 1 + runLength isSpace cs := rfl
    have hlength := congrArg List.length hd
    have hbad := badUrlLength_le (d :: ds)
    simp only [List.length_drop, List.length_cons] at hlength hbad ⊢
    omega
  | case6 c cs _ _ _ =>
    have hbad := badUrlLength_le cs
    simp only [List.length_cons]
    omega
  | case7 cs _ _ _ _ ih =>
    have hescape := escapeLength_le cs
    rw [List.length_drop] at ih
    simp only [Lexeme.extend, List.length_cons]
    omega
  | case8 cs _ _ _ _ =>
    have hbad := badUrlLength_le cs
    simp only [List.length_cons]
    omega
  | case9 c cs _ _ _ _ ih =>
    simp only [Lexeme.extend, List.length_cons]
    omega

theorem length_scanNamed_le (cs : List Char) : (scanNamed cs).length ≤ cs.length := by
  have hname := nameLength_le cs
  simp only [scanNamed]
  split
  next => exact hname
  next c rest hrest =>
    have hlength := congrArg List.length hrest
    have hrun := runLength_le isSpace rest
    have hurl := length_scanUrl_le (rest.drop (runLength isSpace rest))
    rw [List.length_drop] at hlength hurl
    rw [List.length_cons] at hlength
    repeat' split
    all_goals
      simp only [Lexeme.extend]
      omega

theorem length_le_of_isPrefixOf {word cs : List Char} (h : word.isPrefixOf cs) :
    word.length ≤ cs.length :=
  (List.isPrefixOf_iff_prefix.mp h).length_le

/-- **A token takes no more characters than there are.** -/
theorem length_scan_le (c : Char) (cs : List Char) : (scan c cs).length ≤ (c :: cs).length := by
  have hname := nameLength_le cs
  have hrun := runLength_le isSpace cs
  have hfinds := finds_scan c cs
  generalize scan c cs = l at hfinds ⊢
  cases hfinds with
  | comment h =>
    cases cs with
    | nil => simp at h
    | cons d cs =>
      have hcomment := length_scanComment_le cs
      simp only [Lexeme.extend, List.length_cons, List.tail_cons]
      omega
  | string =>
    have hstring := length_scanString_le c cs
    simp only [Lexeme.extend, List.length_cons]
    omega
  | number => exact length_scanNumber_le (c :: cs)
  | cdc h | cdo h =>
    have hlength := length_le_of_isPrefixOf h
    simp only [List.length_cons, List.length_nil] at hlength ⊢
    omega
  | named => exact length_scanNamed_le (c :: cs)
  | _ =>
    simp only [List.length_cons]
    omega

/-! ### No token is an end mark -/

theorem scan_ne_eof (c : Char) (cs : List Char) : (scan c cs).kind ≠ .eof := by
  have hfinds := finds_scan c cs
  generalize scan c cs = l at hfinds ⊢
  cases hfinds with
  | comment =>
    exact ne_of_apply_ne Kind.isComment (by rw [Lexeme.kind_extend, isComment_scanComment]; decide)
  | string =>
    rcases scanString_ends c cs with hbad | ⟨terminated, _, hk, -⟩
    · simp [hbad]
    · simp [hk]
  | number =>
    exact ne_of_apply_ne Kind.isNumeric (by rw [isNumeric_scanNumber]; decide)
  | named => exact ne_of_apply_ne Kind.isNamed (by rw [isNamed_scanNamed]; decide)
  | single =>
    exact ne_of_apply_ne Kind.char? (by rw [char?_punctuation]; exact Option.some_ne_none c)
  | _ => simp

/-! ### Tokens end to end -/

/-- The first token starts at `lo`, every other where the one in front of it
stops, and the last stops at `hi`. -/
def EndToEnd (lo : Nat) : List Token → Nat → Prop
  | [], hi => lo = hi
  | t :: ts, hi => t.start = lo ∧ EndToEnd t.stop ts hi

theorem EndToEnd.append {lo mid hi : Nat} {ts us : List Token} (h : EndToEnd lo ts mid)
    (h' : EndToEnd mid us hi) : EndToEnd lo (ts ++ us) hi := by
  induction ts generalizing lo with
  | nil =>
    obtain rfl : lo = mid := h
    exact h'
  | cons t ts ih => exact ⟨h.1, ih h.2⟩

/-- Between two of the tokens, in bytes, the texts of those in front stop. -/
theorem EndToEnd.split {lo hi : Nat} {us vs : List Token} (h : EndToEnd lo (us ++ vs) hi) :
    EndToEnd lo us (lo + (textOf us).utf8ByteSize) ∧
      EndToEnd (lo + (textOf us).utf8ByteSize) vs hi := by
  induction us generalizing lo with
  | nil => exact ⟨rfl, h⟩
  | cons u us ih =>
    obtain ⟨rfl, h⟩ := h
    have hrest := ih h
    rw [stop, Nat.add_assoc, ← String.utf8ByteSize_append, ← textOf_cons] at hrest
    exact ⟨⟨rfl, hrest.1⟩, hrest.2⟩

theorem EndToEnd.start_eq {lo hi : Nat} {us vs : List Token} {t : Token}
    (h : EndToEnd lo (us ++ t :: vs) hi) : t.start = lo + (textOf us).utf8ByteSize :=
  h.split.2.1

theorem EndToEnd.le {lo hi : Nat} {ts : List Token} (h : EndToEnd lo ts hi) : lo ≤ hi := by
  induction ts generalizing lo with
  | nil => exact Nat.le_of_eq h
  | cons t ts ih =>
    obtain ⟨rfl, h⟩ := h
    exact Nat.le_trans (Nat.le_add_right ..) (ih h)

theorem EndToEnd.bounds {lo hi : Nat} {ts : List Token} {t : Token} (h : EndToEnd lo ts hi)
    (ht : t ∈ ts) : lo ≤ t.start ∧ t.stop ≤ hi := by
  obtain ⟨us, vs, rfl⟩ := List.append_of_mem ht
  refine ⟨?_, h.split.2.2.le⟩
  rw [h.start_eq]
  exact Nat.le_add_right ..

theorem endToEnd_lexFrom (start : Nat) (cs : List Char) :
    EndToEnd start (lexFrom start cs) (start + (String.ofList cs).utf8ByteSize) := by
  fun_induction lexFrom start cs with
  | case1 start => exact rfl
  | case2 start c cs n text ih =>
    refine ⟨rfl, ?_⟩
    have hsize : (String.ofList (c :: cs)).utf8ByteSize =
        text.utf8ByteSize + (String.ofList ((c :: cs).drop n)).utf8ByteSize := by
      rw [← String.utf8ByteSize_append, ← String.ofList_append, List.take_append_drop]
    rw [hsize, ← Nat.add_assoc]
    exact ih

/-- No token is empty. -/
theorem text_ne_empty_of_mem_lexFrom {start : Nat} {cs : List Char} {t : Token}
    (h : t ∈ lexFrom start cs) : t.text ≠ "" := by
  fun_induction lexFrom start cs with
  | case1 => cases h
  | case2 start c cs n text ih =>
    rcases List.mem_cons.mp h with rfl | h
    · obtain ⟨m, hm⟩ := Nat.exists_eq_add_of_lt (length_scan_pos c cs)
      simp [text, n, hm]
    · exact ih h

theorem start_lt_stop_of_mem_lexFrom {start : Nat} {cs : List Char} {t : Token}
    (h : t ∈ lexFrom start cs) : t.start < t.stop := by
  have hsize : t.text.utf8ByteSize ≠ 0 :=
    mt String.utf8ByteSize_eq_zero_iff.mp (text_ne_empty_of_mem_lexFrom h)
  unfold stop
  omega

theorem ne_eof_of_mem_lexFrom {start : Nat} {cs : List Char} {t : Token}
    (h : t ∈ lexFrom start cs) : t.kind ≠ .eof := by
  fun_induction lexFrom start cs with
  | case1 => cases h
  | case2 start c cs n text ih =>
    rcases List.mem_cons.mp h with rfl | h
    · exact scan_ne_eof c cs
    · exact ih h

/-! ### The whole source -/

/-- The text of the token is the source from its start to its stop. -/
def Occurs (source : String) (t : Token) : Prop :=
  ∃ before after, source = before ++ t.text ++ after ∧ t.start = before.utf8ByteSize

theorem occurs_of_endToEnd {ts : List Token} {t : Token} {hi : Nat} (h : EndToEnd 0 ts hi)
    (ht : t ∈ ts) : t.Occurs (textOf ts) := by
  obtain ⟨us, vs, rfl⟩ := List.append_of_mem ht
  refine ⟨textOf us, textOf vs, ?_, ?_⟩
  · rw [textOf_append, textOf_cons, String.append_assoc]
  · rw [h.start_eq, Nat.zero_add]

theorem Occurs.isValid {source : String} {t : Token} (h : t.Occurs source) :
    String.Pos.Raw.IsValid source ⟨t.start⟩ ∧ String.Pos.Raw.IsValid source ⟨t.stop⟩ := by
  obtain ⟨before, after, rfl, hstart⟩ := h
  refine ⟨?_, ?_⟩
  · refine String.Pos.Raw.isValid_iff_exists_append.mpr ⟨before, t.text ++ after, ?_, ?_⟩
    · rw [String.append_assoc]
    · rw [hstart]
      rfl
  · refine String.Pos.Raw.isValid_iff_exists_append.mpr ⟨before ++ t.text, after, rfl, ?_⟩
    rw [stop, hstart, ← String.utf8ByteSize_append]
    rfl

/-- The tokens lie end to end from the first byte of the source to its last, on
boundaries of characters; only the last is an end mark, and only the last is
empty. -/
structure Tiles (source : String) (ts : List Token) : Prop where
  endToEnd : EndToEnd 0 ts source.utf8ByteSize
  isValid : ∀ t ∈ ts,
    String.Pos.Raw.IsValid source ⟨t.start⟩ ∧ String.Pos.Raw.IsValid source ⟨t.stop⟩
  occurs : ∀ t ∈ ts, t.Occurs source
  last : ∃ front, ts = front ++ [endOf source.utf8ByteSize] ∧
    ∀ t ∈ front, t.kind ≠ .eof ∧ t.start < t.stop
  textOf_eq : textOf ts = source

/-- **The tokens of a source tile it.** -/
theorem tiles_tokenize (source : String) : Tiles source (tokenize source) := by
  have hlex : EndToEnd 0 (lex source) source.utf8ByteSize := by
    have h := endToEnd_lexFrom 0 source.toList
    rwa [String.ofList_toList, Nat.zero_add] at h
  have hend : EndToEnd source.utf8ByteSize [endOf source.utf8ByteSize] source.utf8ByteSize :=
    ⟨rfl, rfl⟩
  have htext : textOf (tokenize source) = source := by
    rw [tokenize, textOf_append, textOf_lex, textOf_cons, textOf_nil]
    exact String.append_empty
  have hall : EndToEnd 0 (tokenize source) source.utf8ByteSize := hlex.append hend
  have hoccurs : ∀ t ∈ tokenize source, t.Occurs source := by
    intro t ht
    have h := occurs_of_endToEnd hall ht
    rwa [htext] at h
  refine ⟨hall, fun t ht => (hoccurs t ht).isValid, hoccurs, ⟨lex source, rfl, ?_⟩, htext⟩
  exact fun t ht => ⟨ne_eof_of_mem_lexFrom ht, start_lt_stop_of_mem_lexFrom ht⟩

/-- A character of three bytes, the mark of an exponent without one, and a url
that is broken off by white space. -/
example : (tokenize "€ 1e+ url(a b").map (fun t => (t.kind, t.start, t.stop)) =
    [(.ident, 0, 3), (.whitespace, 3, 4), (.dimension, 4, 6), (.delim '+', 6, 7),
      (.whitespace, 7, 8), (.badUrl, 8, 15), (.eof, 15, 15)] := by
  decide +kernel

end Token
end StyleScope
