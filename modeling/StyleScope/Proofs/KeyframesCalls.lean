/-
# Preludes of `@keyframes` that name their scope

A prelude can be a call of `:local` or `:global`, which then gives the scope of
the animation. In selectors and values these keywords are known in any case, and
the argument may be anything. A prelude is known for such a call only if the
keyword is in lower case and there is no line feed in the argument
(`callBody?_of_isCall`). Any other call is taken for a name: where names are
local it is wrapped as a whole, and in pure mode a global name passes
(`global_call_missed`).

Key definitions: `Scope.IsCall`.
Key theorems: `Scope.callBody?_of_isCall`, `Scope.keyframes_call_known`.
-/
import StyleScope.Proofs.Reading
import StyleScope.Scope.Process

namespace StyleScope
namespace Scope

open Text

/-- Without the blanks around it, the prelude is a call of this keyword, under
this spelling of its name and with this content. -/
structure IsCall (keyword : Keyword) (name content : List Char) (params : String) : Prop where
  text : ∃ gap, (∀ c ∈ gap, isBlank c) ∧
    trimChars params.toList = name ++ (gap ++ '(' :: (content ++ [')']))
  named : Keyword.ofPseudo? (String.ofList name) = some keyword
  nonempty : content ≠ []

/-! ### Spellings of a keyword -/

theorem map_toLower_of_ofPseudo? {keyword : Keyword} {name : List Char}
    (h : Keyword.ofPseudo? (String.ofList name) = some keyword) :
    name.map Char.toLower = keyword.text.toList := by
  have hlower : ∀ k : Keyword, sameWord (String.ofList name) k.text →
      name.map Char.toLower = k.text.toList := by
    intro k hk
    rw [sameWord_iff, String.toList_ofList] at hk
    rw [hk]
    cases k <;> decide +kernel
  unfold Keyword.ofPseudo? at h
  split at h
  next hl =>
    cases h
    exact hlower .localScope hl
  next =>
    split at h
    next hg =>
      cases h
      exact hlower .globalScope hg
    next => cases h

/-- In front of other characters, a spelling of a keyword starts with a keyword
in lower case only if it is that keyword. -/
theorem eq_of_text_prefix {keyword other : Keyword} {name rest : List Char}
    (hn : name.map Char.toLower = keyword.text.toList)
    (h : other.text.toList <+: name ++ rest) : other = keyword ∧ name = keyword.text.toList := by
  have hmap : other.text.toList.map Char.toLower <+:
      keyword.text.toList ++ rest.map Char.toLower := by
    rw [← hn, ← List.map_append]
    exact h.map Char.toLower
  have hsame : other = keyword := by
    obtain ⟨tail, ht⟩ := hmap
    have hsecond := congrArg (fun cs => cs[1]?) ht
    cases other <;> cases keyword <;> first | rfl | exact absurd hsecond (by simp [Keyword.text])
  subst hsame
  refine ⟨rfl, ?_⟩
  have hlength : name.length = other.text.toList.length := by
    rw [← hn, List.length_map]
  have htake := List.prefix_iff_eq_take.mp h
  rw [← hlength, List.take_left] at htake
  exact htake.symm

/-! ### Which calls are known -/

/-- **A call is known exactly if its keyword is in lower case and its content
has no line feed.** -/
theorem callBody?_of_isCall {keyword : Keyword} {name content : List Char} {params : String}
    (h : IsCall keyword name content params) (other : Keyword) :
    callBody? other params =
      if other = keyword ∧ name = keyword.text.toList ∧ '\n' ∉ content then
        some (String.ofList content)
      else none := by
  obtain ⟨⟨gap, hgap, htext⟩, hnamed, hne⟩ := h
  have hlower := map_toLower_of_ofPseudo? hnamed
  rw [callBody?, htext, behind?]
  by_cases hp : other.text.toList <+: name ++ (gap ++ '(' :: (content ++ [')']))
  · obtain ⟨rfl, rfl⟩ := eq_of_text_prefix hlower hp
    have hblanks : (gap ++ '(' :: (content ++ [')'])).dropWhile isBlank =
        '(' :: (content ++ [')']) := by
      rw [List.dropWhile_append_of_pos hgap]
      rfl
    have hparen : beforeParen? (content ++ [')']) = some content := by
      simp [beforeParen?]
    have hopen : behind? ['('] ('(' :: (content ++ [')'])) = some (content ++ [')']) := by
      simp [behind?]
    have hempty : content.isEmpty = false := by
      simpa using hne
    rw [if_pos (List.isPrefixOf_iff_prefix.mpr hp), List.drop_left]
    simp only [Option.bind_eq_bind, Option.bind_some, hblanks, hopen, hparen, hempty,
      Bool.false_or, true_and]
    by_cases hline : '\n' ∈ content
    · rw [if_pos (by simpa using hline), if_neg (not_not_intro hline)]
    · rw [if_neg (by simpa using hline), if_pos hline]
  · have hnot : ¬ (other = keyword ∧ name = keyword.text.toList ∧ '\n' ∉ content) := by
      rintro ⟨rfl, rfl, -⟩
      exact hp (List.prefix_append _ _)
    rw [if_neg (fun hb => hp (List.isPrefixOf_iff_prefix.mp hb)), if_neg hnot]
    rfl

theorem ne_empty_of_isCall {keyword : Keyword} {name content : List Char} {params : String}
    (h : IsCall keyword name content params) : params ≠ "" := by
  rintro rfl
  obtain ⟨gap, -, htext⟩ := h.text
  have hnil : trimChars "".toList = [] := rfl
  rw [hnil] at htext
  simp at htext

/-! ### The scope that a prelude names -/

/-- **A call with its keyword in lower case and no line feed in its content has
the scope that it names, and in pure mode no global one is allowed; any other
call is taken for a name.** -/
theorem keyframes_call_known {keyword : Keyword} {name content : List Char} {params : String}
    (h : IsCall keyword name content params) (mode : Mode) (aliases : List String) :
    (name = keyword.text.toList ∧ '\n' ∉ content →
      (keyword = .localScope → localizeKeyframes mode aliases params = .ok ⟨params, false⟩) ∧
      (keyword = .globalScope → mode = .pure →
        localizeKeyframes mode aliases params = .error .pureKeyframesGlobal) ∧
      (keyword = .globalScope → mode ≠ .pure →
        localizeKeyframes mode aliases params = .ok ⟨String.ofList content, true⟩)) ∧
    (¬ (name = keyword.text.toList ∧ '\n' ∉ content) →
      localizeKeyframes mode aliases params =
        .ok ⟨if mode.isGlobal ∨ params ∈ aliases then params else wrapLocal params,
          mode.isGlobal⟩) := by
  have hcall := callBody?_of_isCall h
  constructor
  · intro hknown
    refine ⟨?_, ?_, ?_⟩
    · rintro rfl
      have hglobal : callBody? .globalScope params = none :=
        (hcall .globalScope).trans (if_neg (by simp))
      have hlocal : callBody? .localScope params = some (String.ofList content) :=
        (hcall .localScope).trans (if_pos ⟨rfl, hknown⟩)
      rw [localizeKeyframes, hglobal, hlocal]
      rfl
    · rintro rfl hpure
      have hglobal : callBody? .globalScope params = some (String.ofList content) :=
        (hcall .globalScope).trans (if_pos ⟨rfl, hknown⟩)
      rw [localizeKeyframes, hglobal]
      exact if_pos hpure
    · rintro rfl hpure
      have hglobal : callBody? .globalScope params = some (String.ofList content) :=
        (hcall .globalScope).trans (if_pos ⟨rfl, hknown⟩)
      rw [localizeKeyframes, hglobal]
      exact if_neg hpure
  · intro hunknown
    have hnone : ∀ other, callBody? other params = none := fun other =>
      (hcall other).trans (if_neg fun hk => hunknown hk.2)
    have hne := ne_empty_of_isCall h
    rw [localizeKeyframes, hnone, hnone, Option.isSome_none]
    by_cases hkept : mode.isGlobal ∨ params ∈ aliases
    · simp [hne, hkept]
    · simp [hne, hkept]

/-- Calls with blanks in all places, of both keywords, and one that is not known. -/
theorem keyframes_call_known_spaced :
    IsCall .globalScope ":global".toList " k ".toList "\n:global\t( k ) " ∧
      localizeKeyframes .pure [] "\n:global\t( k ) " = .error .pureKeyframesGlobal ∧
      localizeKeyframes .localByDefault [] "\n:global\t( k ) " = .ok ⟨" k ", true⟩ ∧
      IsCall .localScope ":local".toList ")".toList ":local())" ∧
      localizeKeyframes .globalByDefault [] ":local())" = .ok ⟨":local())", false⟩ ∧
      IsCall .localScope ":Local".toList "k".toList ":Local(k)" ∧
      localizeKeyframes .pure ["k"] ":Local(k)" = .ok ⟨":local(:Local(k))", false⟩ := by
  have hglobal : IsCall .globalScope ":global".toList " k ".toList "\n:global\t( k ) " :=
    ⟨⟨['\t'], List.all_eq_true.mp (by decide), by decide +kernel⟩, by decide +kernel, by decide +kernel⟩
  have hlocal : IsCall .localScope ":local".toList ")".toList ":local())" :=
    ⟨⟨[], List.all_eq_true.mp rfl, by decide +kernel⟩, by decide +kernel, by decide +kernel⟩
  have hother : IsCall .localScope ":Local".toList "k".toList ":Local(k)" :=
    ⟨⟨[], List.all_eq_true.mp rfl, by decide +kernel⟩, by decide +kernel, by decide +kernel⟩
  refine ⟨hglobal, ?_, ?_, hlocal, ?_, hother, ?_⟩
  · exact ((keyframes_call_known hglobal .pure []).1 (by decide +kernel)).2.1 rfl rfl
  · exact ((keyframes_call_known hglobal .localByDefault []).1 (by decide +kernel)).2.2 rfl
      (by decide)
  · exact ((keyframes_call_known hlocal .globalByDefault []).1 (by decide +kernel)).1 rfl
  · exact (keyframes_call_known hother .pure ["k"]).2 (by decide +kernel)

/-- A global name in pure mode: it is refused if the keyword is in lower case,
and with a capital letter or a line feed it passes and is wrapped. -/
theorem global_call_missed :
    IsCall .globalScope ":GLOBAL".toList "k".toList ":GLOBAL(k)" ∧
      IsCall .globalScope ":global".toList "k\n".toList ":global(k\n)" ∧
      (transform ⟨.pure, none⟩ "@keyframes :global(k)\x7b\x7d").result =
        .error .pureKeyframesGlobal ∧
      (transform ⟨.pure, none⟩ "@keyframes :GLOBAL(k)\x7b\x7d").result =
        .ok "@keyframes :local(:GLOBAL(k))\x7b\x7d" ∧
      (transform ⟨.pure, none⟩ "@keyframes :global(k\n)\x7b\x7d").result =
        .ok "@keyframes :local(:global(k\n))\x7b\x7d" :=
  ⟨⟨⟨[], List.all_eq_true.mp rfl, by decide +kernel⟩, by decide +kernel, by decide +kernel⟩,
    ⟨⟨[], List.all_eq_true.mp rfl, by decide +kernel⟩, by decide +kernel, by decide +kernel⟩,
    by decide +kernel, by decide +kernel, by decide +kernel⟩

end Scope
end StyleScope
