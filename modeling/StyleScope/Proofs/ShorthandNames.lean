/-
# What the shorthand takes for a name

Of the value of `animation` little counts for the names in it. `cuesAmong` lists
that in document order: the words, each a candidate for a name unless `steps(...)`
is right around it, and the dividers. A function that is not looked into counts
as one divider if it has any, at any depth, and else not at all.

Whether a word is a name is said of the list alone (`isNameAt`). A keyword that
another property takes is a name if the same keyword is among the candidates
since the last divider; any other keyword is none; and all other identifiers
are. The walk never looks back: it carries along the keywords that it has seen.
That these are the keywords since the last divider (`Recalls`) holds at the
start and behind every cue, and so the walk marks what the list says
(`shorthand_marks_names`).

Key definitions: `Scope.Cue`, `Scope.cuesAmong`, `Scope.isNameAt`,
`Scope.markAmong`, `Scope.Recalls`.
Key theorems: `Scope.isIdentifier_of_taken`, `Scope.classify_of_recalls`,
`Scope.shorthand_marks_names`.
-/
import StyleScope.Proofs.AnimationNames

namespace StyleScope
namespace Scope

open Text
open Value (Node anyDivider)

/-! ### The reading -/

/-- What counts of a value for the names in it. -/
inductive Cue where
  | word (isCandidate : Bool) (text : String)
  | divider
  deriving DecidableEq, Repr

/-- The functions that are not looked into. -/
def shutFunctions : List String :=
  ["var", "env", ":local", ":global", "local", "global", "url"]

mutual

/-- What counts of a node, whose words are candidates or not. -/
def cuesIn (isCandidate : Bool) : Node → List Cue
  | .function _ name _ arguments _ _ =>
    if lower name ∈ shutFunctions then if anyDivider arguments then [.divider] else []
    else cuesAmong (lower name ≠ "steps") arguments
  | .word _ text => [.word isCandidate text]
  | .divider _ _ _ _ => [.divider]
  | _ => []

/-- What counts of the nodes, in document order. -/
def cuesAmong (isCandidate : Bool) : List Node → List Cue
  | [] => []
  | n :: ns => cuesIn isCandidate n ++ cuesAmong isCandidate ns

end

/-! ### Names -/

/-- All keywords of the shorthand. -/
def shorthandKeywords : List String :=
  takenKeywords ++ reservedNames

/-- The cues behind the last divider. -/
def sinceDivider (before : List Cue) : List Cue :=
  (before.reverse.takeWhile (· ≠ .divider)).reverse

/-- Whether a cue is a candidate that is this keyword, in any case. -/
def Cue.isKeyword (keyword : String) : Cue → Bool
  | .word true text => lower text = keyword
  | _ => false

/-- Whether a cue is a name that is marked at this place, with these cues in
front of it. -/
def Cue.isNameBehind (p : Place) (before : List Cue) : Cue → Bool
  | .word isCandidate text =>
    !p.isGlobal && text ∉ p.aliases && isCandidate && isIdentifier text &&
      (lower text ∉ shorthandKeywords ||
        lower text ∈ takenKeywords && (sinceDivider before).any (isKeyword (lower text)))
  | .divider => false

/-- Whether the cue number `i` is a name that is marked at this place. -/
def isNameAt (p : Place) (cues : List Cue) (i : Nat) : Bool :=
  cues[i]?.any (Cue.isNameBehind p (cues.take i))

mutual

/-- The node with the words marked that `isName` holds of, where `i` cues stand
in front of the node. -/
def markIn (p : Place) (isName : Nat → Bool) (i : Nat) : Node → Node
  | .function start name before arguments after unclosed =>
    let n := Node.function start name before arguments after unclosed
    if lower name = "local" then unwrapScoped .localScope n
    else if lower name = "global" then unwrapScoped .globalScope n
    else if lower name = "url" then p.mapCall n
    else if lower name ∈ shutFunctions then n
    else .function start name before (markAmong p isName i arguments) after unclosed
  | .word start text => .word start (if isName i then wrapLocal text else text)
  | n => n

/-- The nodes with the words marked that `isName` holds of. -/
def markAmong (p : Place) (isName : Nat → Bool) (i : Nat) : List Node → List Node
  | [] => []
  | n :: ns => markIn p isName i n :: markAmong p isName (i + (cuesIn true n).length) ns

end

/-- How much of a node counts does not depend on whether its words are
candidates. -/
theorem length_cuesIn (isCandidate : Bool) (n : Node) :
    (cuesIn isCandidate n).length = (cuesIn true n).length := by
  cases n with
  | function start name before arguments after unclosed => rw [cuesIn, cuesIn]
  | word start text => rfl
  | _ => rfl

/-! ### What functions mean -/

/-- What a function means, and what that says of its name. -/
inductive IsCalled (name : String) : Role → Prop where
  | closed (h : lower name ∈ ["var", "env", ":local", ":global"]) : IsCalled name .closed
  | localScope (h : lower name = "local") : IsCalled name (.scoped .localScope)
  | globalScope (h : lower name = "global") : IsCalled name (.scoped .globalScope)
  | url (h : lower name = "url") : IsCalled name .url
  | steps (h : lower name = "steps") : IsCalled name .steps
  | plain (h : lower name ∉ shutFunctions) (hs : lower name ≠ "steps") : IsCalled name .plain

theorem isCalled_ofName (name : String) : IsCalled name (Role.ofName name) := by
  unfold Role.ofName
  refine iteInduction .closed fun hc => iteInduction .localScope fun hl =>
    iteInduction .globalScope fun hg => iteInduction .url fun hu =>
    iteInduction .steps fun hs => .plain ?_ hs
  simp only [shutFunctions, List.mem_cons, List.not_mem_nil, or_false, not_or] at hc ⊢
  exact ⟨hc.1, hc.2.1, hc.2.2.1, hc.2.2.2, hl, hg, hu⟩

theorem ne_of_entered {name other : String} (h : lower name ∉ shutFunctions)
    (ho : other ∈ shutFunctions) : lower name ≠ other := by
  rintro rfl
  exact h ho

/-! ### Keywords are identifiers -/

theorem isLetter_iff {c : Char} :
    isLetter c ↔ 97 ≤ c.toNat ∧ c.toNat ≤ 122 ∨ 65 ≤ c.toNat ∧ c.toNat ≤ 90 := by
  simp only [isLetter, Bool.or_eq_true, Bool.and_eq_true, decide_eq_true_eq, Char.le_def,
    UInt32.le_iff_toNat_le]
  exact Iff.rfl

/-- What is a letter or a hyphen in lower case is one already. -/
theorem isLetter_or_hyphen_of_toLower {c : Char} (h : isLetter c.toLower ∨ c.toLower = '-') :
    isLetter c ∨ c = '-' := by
  by_cases hu : c.val ≥ 'A'.val ∧ c.val ≤ 'Z'.val
  · have hc : 65 ≤ c.toNat ∧ c.toNat ≤ 90 := by
      rw [ge_iff_le, UInt32.le_iff_toNat_le, UInt32.le_iff_toNat_le] at hu
      exact hu
    exact .inl (isLetter_iff.mpr (.inr hc))
  · have hl : c.toLower = c := dif_neg hu
    rwa [hl] at h

theorem isName_of_letter {c : Char} (h : isLetter c ∨ c = '-') : isName c := by
  rcases h with h | rfl
  · simp [isName, isNameStart, h]
  · decide

theorem continuesIdentifier_of_letters {cs : List Char} (h : ∀ c ∈ cs, isLetter c ∨ c = '-') :
    continuesIdentifier cs := by
  induction cs with
  | nil => rw [continuesIdentifier]
  | cons c cs ih =>
    have hc : isName c := isName_of_letter (h c List.mem_cons_self)
    have hcs : continuesIdentifier cs := ih fun d hd => h d (List.mem_cons_of_mem c hd)
    rw [continuesIdentifier_cons cs (ne_backslash_of_isName hc), hc, hcs]
    rfl

/-- A keyword that another property takes is spelled like a name. -/
theorem isIdentifier_of_taken {word : String} (h : lower word ∈ takenKeywords) :
    isIdentifier word := by
  have hspell : takenKeywords.all fun k =>
      (k.toList.all fun c => isLetter c || c = '-') && k.toList.head?.any isLetter := by
    decide +kernel
  obtain ⟨hall, hhead⟩ : (∀ c ∈ (lower word).toList, isLetter c ∨ c = '-') ∧
      (lower word).toList.head?.any isLetter := by
    simpa using List.all_eq_true.mp hspell (lower word) h
  rw [toList_lower] at hall hhead
  have hletters : ∀ c ∈ word.toList, isLetter c ∨ c = '-' := fun c hc =>
    isLetter_or_hyphen_of_toLower (hall _ (List.mem_map_of_mem hc))
  have hstarts : Token.startsName word.toList := by
    cases hw : word.toList with
    | nil =>
      rw [hw] at hhead
      cases hhead
    | cons c cs =>
      rw [hw, List.map_cons, List.head?_cons, Option.any_some] at hhead
      have hne : c ≠ '-' := by
        rintro rfl
        exact absurd hhead (by decide)
      have hc : isLetter c := (isLetter_or_hyphen_of_toLower (.inl hhead)).resolve_right hne
      have hb : c ≠ '\\' := ne_backslash_of_isName (isName_of_letter (.inl hc))
      rw [Token.startsName, if_neg hne, if_neg hb, isNameStart, hc]
      rfl
  rw [isIdentifier_of_startsName hstarts]
  exact continuesIdentifier_of_letters hletters

/-! ### What the walk recalls -/

/-- The keywords seen are those among the candidates since the last divider. -/
def Recalls (seen : List String) (before : List Cue) : Prop :=
  ∀ keyword ∈ takenKeywords,
    keyword ∈ seen ↔ (sinceDivider before).any (Cue.isKeyword keyword)

section Recalling

variable {seen : List String} {before : List Cue}

theorem sinceDivider_divider (before : List Cue) : sinceDivider (before ++ [.divider]) = [] := by
  simp [sinceDivider]

theorem sinceDivider_word (before : List Cue) (isCandidate : Bool) (text : String) :
    sinceDivider (before ++ [.word isCandidate text]) =
      sinceDivider before ++ [.word isCandidate text] := by
  simp [sinceDivider]

theorem recalls_nil : Recalls [] [] := by
  intro keyword _
  simp [sinceDivider]

/-- Behind a divider nothing has been seen. -/
theorem recalls_divider (before : List Cue) : Recalls [] (before ++ [.divider]) := by
  intro keyword _
  simp [sinceDivider_divider]

/-- A word that is no candidate is not remembered. -/
theorem Recalls.other (h : Recalls seen before) (text : String) :
    Recalls seen (before ++ [.word false text]) := by
  intro keyword hk
  rw [h keyword hk, sinceDivider_word, List.any_append]
  simp [Cue.isKeyword]

/-- A candidate is remembered if it is a keyword that a property takes. -/
theorem Recalls.classify (h : Recalls seen before) (text : String) :
    Recalls (classify text seen).2 (before ++ [.word true text]) := by
  intro keyword hk
  have hnew : (sinceDivider (before ++ [.word true text])).any (Cue.isKeyword keyword) ↔
      keyword ∈ seen ∨ lower text = keyword := by
    rw [sinceDivider_word, List.any_append, Bool.or_eq_true, ← h keyword hk]
    simp [Cue.isKeyword]
  rw [hnew]
  by_cases ht : lower text ∈ takenKeywords
  · have hseen : (Scope.classify text seen).2 = lower text :: seen := by
      rw [Scope.classify, if_pos (isIdentifier_of_taken ht), if_pos ht]
    rw [hseen, List.mem_cons, or_comm, eq_comm]
  · have hseen : (Scope.classify text seen).2 = seen := by
      rw [Scope.classify, if_neg ht]
      split <;> rfl
    have hne : lower text ≠ keyword := by
      rintro rfl
      exact ht hk
    rw [hseen, or_iff_left hne]

/-- No keyword is taken by a property and never a name as well. -/
theorem isReserved_iff {text : String} (ht : lower text ∉ takenKeywords) :
    isReserved text ↔ lower text ∈ shorthandKeywords := by
  rw [isReserved, decide_eq_true_eq, shorthandKeywords, List.mem_append, or_iff_right ht]

/-- The walk decides on a candidate as the cues in front of it say. -/
theorem classify_of_recalls (h : Recalls seen before) (text : String) :
    (classify text seen).1 = (isIdentifier text &&
      (lower text ∉ shorthandKeywords ||
        lower text ∈ takenKeywords && (sinceDivider before).any (Cue.isKeyword (lower text)))) := by
  by_cases hi : isIdentifier text
  · rw [classify, if_pos hi, hi, Bool.true_and]
    by_cases ht : lower text ∈ takenKeywords
    · have hk : lower text ∈ shorthandKeywords := List.mem_append_left _ ht
      rw [if_pos ht]
      simp only [ht, hk, not_true_eq_false, decide_false, Bool.false_or, decide_true,
        Bool.true_and]
      rw [← Bool.coe_iff_coe, decide_eq_true_eq]
      exact h _ ht
    · rw [if_neg ht]
      simp only [ht, decide_false, Bool.false_and, Bool.or_false, ← isReserved_iff ht]
      cases isReserved text <;> rfl
  · rw [classify, if_neg hi, Bool.eq_false_iff.mpr hi, Bool.false_and]

end Recalling

/-! ### The walk -/

section Walk

variable (p : Place)

theorem isNameAt_length (before : List Cue) (cue : Cue) (behind : List Cue) :
    isNameAt p (before ++ [cue] ++ behind) before.length = cue.isNameBehind p before := by
  simp [isNameAt]

/-- A candidate is marked if the cues in front of it make it a name. -/
theorem localize_of_recalls {seen : List String} {before : List Cue} (h : Recalls seen before)
    (text : String) :
    (if (classify text seen).1 then p.localize text else text) =
      if (Cue.word true text).isNameBehind p before then wrapLocal text else text := by
  rw [classify_of_recalls h text, Cue.isNameBehind, Place.localize]
  by_cases hp : p.isGlobal ∨ text ∈ p.aliases
  · have hstays : (!p.isGlobal && text ∉ p.aliases) = false := by
      rcases hp with hg | ha
      · simp [hg]
      · simp [ha]
    rw [if_pos hp, hstays, ite_self]
    rfl
  · have hlocal : (!p.isGlobal && text ∉ p.aliases) = true := by
      simpa using hp
    rw [if_neg hp, hlocal, Bool.true_and, Bool.true_and]

/-- A function that is not looked into is forgotten, or all in front of it is. -/
theorem Recalls.seenBehind {seen : List String} {before : List Cue} (h : Recalls seen before)
    (n : Node) :
    Recalls (seenBehind n seen) (before ++ if n.holdsDivider then [.divider] else []) := by
  rw [Scope.seenBehind]
  by_cases hn : n.holdsDivider
  · rw [if_pos hn, if_pos hn]
    exact recalls_divider before
  · rw [if_neg hn, if_neg hn, List.append_nil]
    exact h

mutual

/-- The walk marks in a node what the cues say, and recalls them behind it. -/
theorem shorthandNode_of_recalls : ∀ (n : Node) (isCandidate : Bool) {seen : List String}
    {before : List Cue} (behind : List Cue), Recalls seen before →
    (shorthandNode p isCandidate n seen).1 =
        markIn p (isNameAt p (before ++ cuesIn isCandidate n ++ behind)) before.length n ∧
      Recalls (shorthandNode p isCandidate n seen).2 (before ++ cuesIn isCandidate n)
  | .function start name opening arguments closing unclosed, isCandidate, seen, before, behind, h => by
    have harguments := shorthandNodes_of_recalls arguments (lower name ≠ "steps") behind h
    have hbehind := h.seenBehind (.function start name opening arguments closing unclosed)
    rw [Node.holdsDivider] at hbehind
    rw [shorthandNode, markIn, cuesIn]
    have hrole := isCalled_ofName name
    generalize Role.ofName name = role at hrole ⊢
    cases hrole with
    | closed hn =>
      have hshut : lower name ∈ shutFunctions := List.mem_append_left ["local", "global", "url"] hn
      have hother : lower name ≠ "local" ∧ lower name ≠ "global" ∧ lower name ≠ "url" := by
        refine ⟨?_, ?_, ?_⟩ <;> intro he <;> rw [he] at hn <;> revert hn <;> decide
      rw [if_pos hshut, if_pos hshut, if_neg hother.1, if_neg hother.2.1, if_neg hother.2.2]
      exact ⟨rfl, hbehind⟩
    | localScope hn =>
      rw [hn, if_pos rfl, if_pos (by decide)]
      exact ⟨rfl, hbehind⟩
    | globalScope hn =>
      rw [hn, if_neg (by decide), if_pos rfl, if_pos (by decide)]
      exact ⟨rfl, hbehind⟩
    | url hn =>
      rw [hn, if_neg (by decide), if_neg (by decide), if_pos rfl, if_pos (by decide)]
      exact ⟨rfl, hbehind⟩
    | steps hn =>
      have hentered : lower name ∉ shutFunctions := by
        rw [hn]
        decide
      rw [if_neg hentered, if_neg hentered, if_neg (ne_of_entered hentered (by decide)),
        if_neg (ne_of_entered hentered (by decide)), if_neg (ne_of_entered hentered (by decide))]
      rw [decide_eq_false (not_not_intro hn)] at harguments ⊢
      exact ⟨by rw [← harguments.1], harguments.2⟩
    | plain hentered hn =>
      rw [if_neg hentered, if_neg hentered, if_neg (ne_of_entered hentered (by decide)),
        if_neg (ne_of_entered hentered (by decide)), if_neg (ne_of_entered hentered (by decide))]
      rw [decide_eq_true hn] at harguments ⊢
      exact ⟨by rw [← harguments.1], harguments.2⟩
  | .word start text, isCandidate, seen, before, behind, h => by
    rw [shorthandNode, markIn, cuesIn, isNameAt_length]
    cases isCandidate with
    | true =>
      have hmark := localize_of_recalls p h text
      exact ⟨congrArg (Node.word start) hmark, h.classify text⟩
    | false =>
      have hother : (Cue.word false text).isNameBehind p before = false := by
        simp [Cue.isNameBehind]
      rw [hother]
      exact ⟨rfl, h.other text⟩
  | .divider start mark opening closing, isCandidate, seen, before, behind, h => by
    unfold shorthandNode markIn cuesIn
    exact ⟨rfl, recalls_divider before⟩
  | .string .., isCandidate, seen, before, behind, h
  | .space .., isCandidate, seen, before, behind, h
  | .comment .., isCandidate, seen, before, behind, h => by
    unfold shorthandNode markIn cuesIn
    rw [List.append_nil]
    exact ⟨rfl, h⟩

theorem shorthandNodes_of_recalls : ∀ (ns : List Node) (isCandidate : Bool) {seen : List String}
    {before : List Cue} (behind : List Cue), Recalls seen before →
    (shorthandNodes p isCandidate ns seen).1 =
        markAmong p (isNameAt p (before ++ cuesAmong isCandidate ns ++ behind)) before.length ns ∧
      Recalls (shorthandNodes p isCandidate ns seen).2 (before ++ cuesAmong isCandidate ns)
  | [], isCandidate, seen, before, behind, h => by
    rw [shorthandNodes, markAmong, cuesAmong, List.append_nil]
    exact ⟨rfl, h⟩
  | n :: ns, isCandidate, seen, before, behind, h => by
    obtain ⟨hn, hnext⟩ :=
      shorthandNode_of_recalls n isCandidate (cuesAmong isCandidate ns ++ behind) h
    obtain ⟨hns, hend⟩ := shorthandNodes_of_recalls ns isCandidate behind hnext
    have hcues : before ++ cuesAmong isCandidate (n :: ns) =
        before ++ cuesIn isCandidate n ++ cuesAmong isCandidate ns := by
      rw [cuesAmong, List.append_assoc]
    rw [← List.append_assoc] at hn
    rw [List.length_append, length_cuesIn] at hns
    rw [shorthandNodes, markAmong, hcues]
    exact ⟨congrArg₂ List.cons hn hns, hend⟩

end

end Walk

/-- **The shorthand marks the names that its words and dividers make, and of its
other nodes only the calls that name a scope and the urls change.** -/
theorem shorthand_marks_names (p : Place) (ns : List Node) :
    localizeShorthand p ns = markAmong p (isNameAt p (cuesAmong true ns)) 0 ns := by
  have hwalk := (shorthandNodes_of_recalls p ns true [] recalls_nil).1
  rw [List.nil_append, List.append_nil, List.length_nil] at hwalk
  exact hwalk

/-- A keyword that comes again is a name, unless a divider is in between, which
may stand in a function, and directly in `steps(...)` nothing is one. -/
example :
    (Value.parse "ease EASE steps(2, end) ease var(x, y) ease f(spin)").map (fun ns =>
      Value.print (markAmong ⟨false, [], none⟩
        (isNameAt ⟨false, [], none⟩ (cuesAmong true ns)) 0 ns)) =
      .ok "ease :local(EASE) steps(2, end) ease var(x, y) ease f(:local(spin))" := by
  decide +kernel

end Scope
end StyleScope
