/-
# The end of an escape at the end of a name

The lexer goes through a name from the left: a name character, or a backslash
with what it escapes. White space gets into a name in two ways, behind a
backslash or behind the digits of a hex escape, which it ends
(`Token.EndsEscape`). The reader of selectors has only the finished name and
looks at it from the right: it counts the backslashes in front of the white space.

The two views agree. From the left every backslash either escapes or is escaped,
so at the end of the parts read so far the number of backslashes is even. An odd
number in front of the white space means that the last one escapes it. Otherwise
the white space is behind an escape that does not need it, and only a hex escape
takes more than one character.

Key definitions: `Token.EndsEscape`, `Token.IsNameText`.
Key theorems: `Token.endsEscape_iff`, `Selector.escapeEnd?_iff_endsEscape`.
-/
import StyleScope.Proofs.ReadNames

namespace StyleScope

open Text

namespace Token

open Scope (isName_of_isHexDigit ne_backslash_of_isName)

/-- The lexer, which reads a name from the left, takes its last character `c` for
the white space that ends a hex escape. -/
inductive EndsEscape (c : Char) : List Char → Prop where
  /-- A name character comes first. -/
  | name {d : Char} {ds : List Char} (hd : isName d) (h : EndsEscape c ds) :
    EndsEscape c (d :: ds)
  /-- An escape comes first, and more behind it. -/
  | escape {ds : List Char} (he : escapes ds) (h : EndsEscape c (ds.drop (escapeLength ds))) :
    EndsEscape c ('\\' :: ds)
  /-- One to six hex digits are all that is left in front of the white space. -/
  | hex {digits : List Char} (hne : digits ≠ []) (hle : digits.length ≤ 6)
    (hd : ∀ d ∈ digits, isHexDigit d) (hc : isSpace c) : EndsEscape c ('\\' :: (digits ++ [c]))

/-- The text is an identifier, or what stands behind the number sign of a hash. -/
def IsNameText (name : String) : Prop :=
  (∃ t, lex name = [t] ∧ t.kind = .ident) ∨
    ∃ source, ∃ t ∈ lex source, ∃ isIdent, t.kind = .hash isIdent ∧ t.text = "#" ++ name

theorem nameLength_of_isNameText {name : String} (h : IsNameText name) :
    nameLength name.toList = name.toList.length := by
  rcases h with ⟨t, ht, hk⟩ | ⟨source, t, ht, isIdent, hk, htext⟩
  · exact (isName_of_lex ht hk).length
  · have hname := (nameLength_of_mem_lexFrom ht).2 isIdent hk
    rwa [htext, String.toList_append, show "#".toList = ['#'] from rfl, List.singleton_append,
      List.tail_cons] at hname

/-! ### From the left -/

theorem EndsEscape.isSpace {c : Char} {cs : List Char} (h : EndsEscape c cs) : isSpace c := by
  induction h with
  | name _ _ ih => exact ih
  | escape _ _ ih => exact ih
  | hex _ _ _ hc => exact hc

theorem hexTailLength_le_succ (n : Nat) (cs : List Char) : hexTailLength n cs ≤ n + 1 := by
  fun_induction hexTailLength n cs <;> omega

/-! ### From the right -/

/-- White space behind an even number of backslashes ends an escape. -/
theorem endsEscape_of_endSlashes {w : List Char} {c : Char} (hc : isSpace c)
    (h : nameLength (w ++ [c]) = w.length + 1) (hs : endSlashes w % 2 = 0) :
    EndsEscape c (w ++ [c]) := by
  -- the induction follows the lexer through `w`
  fun_induction nameLength w with
  | case1 =>
    rw [List.nil_append, nameLength_of_isSpace hc] at h
    cases h
  | case2 d ds hd ih =>
    rw [List.cons_append, nameLength, if_pos hd, List.length_cons] at h
    rw [← List.singleton_append, endSlashes_append_mod ds] at hs
    · exact .name hd (ih (by omega) hs)
    · rw [endSlashes_of_getLast? rfl (ne_backslash_of_isName hd)]
  | case3 d ds hd he ih =>
    simp only [Bool.and_eq_true, decide_eq_true_eq] at he
    obtain ⟨rfl, he⟩ := he
    have hne : ds ≠ [] := by
      rintro rfl
      cases he
    rw [List.cons_append, nameLength_escape (escapes_mono _ he), List.length_cons] at h
    rcases escapeLength_append_space hne c with ⟨heq, hle⟩ | ⟨heq, -, hall⟩
    · rw [heq, List.drop_append_of_le_length hle] at h
      rw [List.cons_append]
      refine .escape (escapes_mono _ he) ?_
      rw [heq, List.drop_append_of_le_length hle]
      have hparity := endSlashes_append_mod (ds.drop (escapeLength ds)) (endSlashes_escape hne)
      rw [List.cons_append, List.take_append_drop, hs] at hparity
      exact ih (by rw [List.length_drop]; omega) hparity.symm
    · refine .hex hne ?_ hall hc
      obtain ⟨d, ds, rfl⟩ := List.exists_cons_of_ne_nil hne
      have hsix := hexTailLength_le_succ 5 (ds ++ [c])
      rw [List.cons_append, escapeLength, if_pos (hall d List.mem_cons_self)] at heq
      omega
  | case4 d ds hd he =>
    -- only a backslash alone can take white space for its escape
    rw [List.cons_append, nameLength, if_neg hd] at h
    split at h
    next he' =>
      cases ds with
      | nil =>
        simp only [Bool.and_eq_true, decide_eq_true_eq] at he'
        obtain ⟨rfl, -⟩ := he'
        simp [endSlashes] at hs
      | cons e es => exact absurd he' he
    next => cases h

/-- In front of white space that ends an escape the number of backslashes is even. -/
theorem EndsEscape.endSlashes {c : Char} {cs : List Char} (h : EndsEscape c cs) {w : List Char}
    (hw : cs = w ++ [c]) : endSlashes w % 2 = 0 := by
  induction h generalizing w with
  | @name d ds hd h ih =>
    cases w with
    | nil =>
      obtain ⟨-, rfl⟩ := List.cons.inj hw
      cases h
    | cons e w =>
      obtain ⟨rfl, hds⟩ := List.cons.inj hw
      rw [← List.singleton_append, endSlashes_append_mod w]
      · exact ih hds
      · rw [endSlashes_of_getLast? rfl (ne_backslash_of_isName hd)]
  | @escape ds he h ih =>
    cases w with
    | nil =>
      obtain ⟨-, rfl⟩ := List.cons.inj hw
      cases he
    | cons e w =>
      rw [List.cons_append] at hw
      obtain ⟨rfl, rfl⟩ := List.cons.inj hw
      have hspace := h.isSpace
      have hne : w ≠ [] := by
        rintro rfl
        rw [List.nil_append, escapeLength, if_neg (by simp [isHexDigit_of_isSpace hspace])] at h
        cases h
      rcases escapeLength_append_space hne c with ⟨heq, hle⟩ | ⟨heq, -, -⟩
      · rw [heq, List.drop_append_of_le_length hle] at ih
        have hparity := endSlashes_append_mod (w.drop (escapeLength w)) (endSlashes_escape hne)
        rw [List.cons_append, List.take_append_drop] at hparity
        rw [hparity, ih rfl]
      · rw [heq, List.drop_eq_nil_of_le (by simp)] at h
        cases h
  | @hex digits hne hle hd hc =>
    rw [← List.cons_append] at hw
    obtain rfl := List.append_inj_left' hw rfl
    obtain ⟨d, hlast⟩ : ∃ d, digits.getLast? = some d :=
      Option.isSome_iff_exists.mp (by simpa using hne)
    rw [endSlashes_of_getLast? (c := d)]
    · rw [List.getLast?_cons, hlast, Option.getD_some]
    · exact ne_backslash_of_isName (isName_of_isHexDigit (hd d (List.mem_of_getLast? hlast)))

/-- **The white space at the end of a name ends an escape exactly if the number of
backslashes in front of it is even.** -/
theorem endsEscape_iff {w : List Char} {c : Char} (hc : isSpace c)
    (h : nameLength (w ++ [c]) = w.length + 1) :
    EndsEscape c (w ++ [c]) ↔ endSlashes w % 2 = 0 :=
  ⟨fun he => he.endSlashes rfl, endsEscape_of_endSlashes hc h⟩

end Token

namespace Selector

open Token (EndsEscape IsNameText nameLength unescape)

/-- **The reader finds the white space that ends an escape at the end of a name
exactly if the lexer took it as that; it finds it at its byte offset, and what
stands in front of it is the same name.** -/
theorem escapeEnd?_iff_endsEscape {name : String} (h : IsNameText name) (k : Nat) :
    escapeEnd? name = some k ↔
      ∃ body c, name.toList = body ++ [c] ∧ EndsEscape c name.toList ∧
        k = (String.ofList body).utf8ByteSize ∧ unescape body = unescape name.toList := by
  have hlength := Token.nameLength_of_isNameText h
  rw [escapeEnd?_eq_some]
  constructor
  · rintro ⟨body, c, hname, hc, hs, rfl⟩
    rw [hname, List.length_append, List.length_singleton] at hlength
    rw [hname]
    have hbody := Token.nameLength_of_append_space hlength hs
    exact ⟨body, c, rfl, (Token.endsEscape_iff hc hlength).mpr hs, rfl,
      (Token.unescape_append_space hc hbody hlength).symm⟩
  · rintro ⟨body, c, hname, hends, rfl, -⟩
    rw [hname, List.length_append, List.length_singleton] at hlength
    rw [hname] at hends
    have hspace := hends.isSpace
    exact ⟨body, c, hname, hspace, (Token.endsEscape_iff hspace hlength).mp hends, rfl⟩

/-- The name of an id that ends in a hex escape and the space behind it, with an
escaped backslash in front. -/
theorem escapeEnd?_iff_endsEscape_hash :
    IsNameText "1\\\\\\2b " ∧ escapeEnd? "1\\\\\\2b " = some 6 ∧
      ∃ body c, "1\\\\\\2b ".toList = body ++ [c] ∧ EndsEscape c "1\\\\\\2b ".toList ∧
        6 = (String.ofList body).utf8ByteSize ∧ unescape body = unescape "1\\\\\\2b ".toList := by
  have hlex : Token.lex "a#1\\\\\\2b >b" =
      [⟨.ident, "a", 0⟩, ⟨.hash false, "#1\\\\\\2b ", 1⟩, ⟨.delim '>', ">", 9⟩,
        ⟨.ident, "b", 10⟩] := by
    decide +kernel
  have hname : IsNameText "1\\\\\\2b " := by
    refine .inr ⟨"a#1\\\\\\2b >b", ⟨.hash false, "#1\\\\\\2b ", 1⟩, ?_, false, rfl, ?_⟩
    · rw [hlex]
      exact .tail _ (.head _)
    · decide +kernel
  have hend : escapeEnd? "1\\\\\\2b " = some 6 := by decide +kernel
  exact ⟨hname, hend, (escapeEnd?_iff_endsEscape hname 6).mp hend⟩

end Selector
end StyleScope
