/-
# Texts under the mark of local scope

The mark `:local(...)` goes around the name of an animation as it is written. What
it makes of the sheet depends on the text: it must end in front of the closing
parenthesis, and close the brackets that it opens and no others
(`isEnclosable`). Then the mark with the text in it is found in front of
everything, and leaves no bracket open (`found_wrapLocal`).

Key definitions: `Scope.isEnclosable`.
Key theorems: `Scope.found_wrapLocal`.
-/
import StyleScope.Proofs.FoundTokens
import StyleScope.Proofs.OpenBrackets

namespace StyleScope

namespace Token

/-- What is found in front of a closing parenthesis is found in front of it with more
behind. -/
theorem Found.of_rightParen {ts : List Token} (h : Found ts [')']) (z : List Char) :
    Found ts (')' :: z) :=
  h.yields (hides_of_isStop (c := ')') rfl [] [] z).yields

theorem precedes_colon (o : Nat) (z : List Char) : (⟨.colon, ":", o⟩ : Token).Precedes z :=
  ⟨':', [], (rfl : ":".toList = [':']), rfl⟩

theorem precedes_rightParen (o : Nat) (z : List Char) :
    (⟨.rightParen, ")", o⟩ : Token).Precedes z :=
  ⟨')', [], (rfl : ")".toList = [')']), rfl⟩

theorem precedes_localScope (o : Nat) (z : List Char) :
    (⟨.function, "local(", o⟩ : Token).Precedes z := by
  have htext : "local(".toList = ['l', 'o', 'c', 'a', 'l'] ++ ['('] := rfl
  have hself : (⟨.function, "local(", o⟩ : Token).Precedes [] :=
    ⟨'l', ['o', 'c', 'a', 'l', '('], htext,
      (by decide +kernel : scan 'l' ['o', 'c', 'a', 'l', '('] = ⟨.function, 6⟩)⟩
  exact hself.of_function rfl htext (by decide) z

end Token

namespace Scope

open Sheet (IsLevel isLevel)
open Token (Found lex textOf)

/-- Whether the text ends in front of a closing parenthesis, and closes the brackets that
it opens and no others. -/
def isEnclosable (text : String) : Bool :=
  lex (text ++ ")") = lex text ++ [⟨.rightParen, ")", text.utf8ByteSize⟩] && isLevel (lex text)

theorem isEnclosable_iff {text : String} : isEnclosable text ↔
    lex (text ++ ")") = lex text ++ [⟨.rightParen, ")", text.utf8ByteSize⟩] ∧
      isLevel (lex text) := by
  rw [isEnclosable, Bool.and_eq_true, decide_eq_true_eq]

/-- The mark starts with a colon. -/
theorem exists_toList_wrapLocal (text : String) : ∃ w, (wrapLocal text).toList = ':' :: w := by
  have hmark : Keyword.localScope.text.toList = ':' :: "local".toList := rfl
  simp only [wrapLocal, String.toList_append, hmark, List.cons_append]
  exact ⟨_, rfl⟩

/-- **The mark around a text has the tokens of the text in it**, in front of
everything. -/
theorem found_wrapLocal {text : String} (h : isEnclosable text) :
    ∃ us, textOf (⟨.colon, ":", 0⟩ :: us) = wrapLocal text ∧ IsLevel (⟨.colon, ":", 0⟩ :: us) ∧
      ∀ z, Found (⟨.colon, ":", 0⟩ :: us) z := by
  obtain ⟨hparen, hlevel⟩ := isEnclosable_iff.mp h
  have hinside : Found (lex text) [')'] := by
    simpa using Token.found_of_lexFrom (show Token.lexFrom 0 (text ++ ")").toList = _ from hparen)
  refine ⟨⟨.function, "local(", 0⟩ :: (lex text ++ [⟨.rightParen, ")", 0⟩]), ?_, ?_, fun z => ?_⟩
  · have hmark : ":" ++ "local(" = Keyword.localScope.text ++ "(" := rfl
    simp only [wrapLocal, ← hmark, Token.textOf_cons, Token.textOf_append, Token.textOf_lex,
      Token.textOf_nil, String.append_assoc, String.append_empty]
  · exact ((Sheet.isLevel_of_check hlevel).enclosed rfl rfl).cons fun _ _ => rfl
  · refine ⟨Token.precedes_colon 0 _, Token.precedes_localScope 0 _, Token.found_append.mpr
      ⟨?_, Token.precedes_rightParen 0 _, trivial⟩⟩
    simpa using hinside.of_rightParen z

end Scope
end StyleScope
