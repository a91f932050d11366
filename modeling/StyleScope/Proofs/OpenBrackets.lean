/-
# Brackets that tokens leave open

Where an item ends depends on the brackets that are open (`depthBehind?`). If
tokens of an item are replaced by others that leave the same brackets open, the
item ends where it did (`SameDepth`). Tokens that close all that they open, and
nothing else, leave open what was open in front of them (`IsLevel`).

Key definitions: `Sheet.depthBehind?`, `Sheet.SameDepth`, `Sheet.IsLevel`,
`Sheet.isLevel`.
Key theorems: `Sheet.SameDepth.itemEnd_eq`, `Sheet.isLevel_of_check`.
-/
import StyleScope.Proofs.Listing

namespace StyleScope
namespace Sheet

/-! ### Open brackets -/

/-- How many brackets are open behind the tokens if `depth` are in front of them,
unless the item ends among them. -/
def depthBehind? (nestBraces : Bool) (depth : Nat) (ts : List Token) : Option Nat :=
  ts.foldlM (fun depth t => depthPast? nestBraces depth t.kind) depth

/-- The tokens leave the same brackets open. -/
def SameDepth (ts us : List Token) : Prop :=
  ∀ nestBraces depth, depthBehind? nestBraces depth ts = depthBehind? nestBraces depth us

section Depth

variable {b : Bool} {d n : Nat} {t : Token} {ts us ts' us' vs : List Token}

@[simp] theorem depthBehind?_nil : depthBehind? b d [] = some d := rfl

theorem depthBehind?_cons : depthBehind? b d (t :: ts) =
    (depthPast? b d t.kind).bind (depthBehind? b · ts) :=
  rfl

theorem depthBehind?_append : depthBehind? b d (ts ++ us) =
    (depthBehind? b d ts).bind (depthBehind? b · us) :=
  List.foldlM_append

theorem SameDepth.refl (ts : List Token) : SameDepth ts ts := fun _ _ => rfl

/-- Only the kinds of the tokens matter. -/
theorem SameDepth.of_map_kind (hk : ts.map (·.kind) = us.map (·.kind)) : SameDepth ts us := by
  have hfold (b : Bool) (d : Nat) (vs : List Token) :
      depthBehind? b d vs = (vs.map (·.kind)).foldlM (depthPast? b) d := by
    rw [List.foldlM_map]
    rfl
  intro b d
  rw [hfold, hfold, hk]

theorem SameDepth.append (h : SameDepth ts us) (h' : SameDepth ts' us') :
    SameDepth (ts ++ ts') (us ++ us') := by
  intro b d
  rw [depthBehind?_append, depthBehind?_append, h b d]
  exact congrArg (Option.bind _) (funext fun d => h' b d)

theorem itemLength_append_of_depthBehind? (h : depthBehind? b d ts = some n) (us : List Token) :
    itemLength b d (ts ++ us) = ts.length + itemLength b n us := by
  induction ts generalizing d with
  | nil =>
    obtain rfl := Option.some.inj h
    rw [List.nil_append, List.length_nil, Nat.zero_add]
  | cons t ts ih =>
    rw [depthBehind?_cons] at h
    obtain ⟨d', hd, hts⟩ := Option.bind_eq_some_iff.mp h
    rw [List.cons_append, itemLength_cons, hd, List.length_cons]
    change 1 + itemLength b d' (ts ++ us) = _
    rw [ih hts]
    omega

/-- Only behind tokens that do not end the item the item goes on. -/
theorem exists_depthBehind? (h : ts.length ≤ itemLength b d (ts ++ us)) :
    ∃ n, depthBehind? b d ts = some n := by
  induction ts generalizing d with
  | nil => exact ⟨d, rfl⟩
  | cons t ts ih =>
    rw [List.cons_append, itemLength_cons, List.length_cons] at h
    cases hd : depthPast? b d t.kind with
    | none =>
      rw [hd] at h
      cases h
    | some d' =>
      rw [hd] at h
      have hle : ts.length + 1 ≤ 1 + itemLength b d' (ts ++ us) := h
      obtain ⟨n, hn⟩ := ih (d := d') (by omega)
      exact ⟨n, by rw [depthBehind?_cons, hd, Option.bind_some, hn]⟩

/-- **An item ends where it did**, if tokens in it are replaced by others that leave
the same brackets open. -/
theorem SameDepth.itemEnd_eq (h : SameDepth ts us) (hle : ts.length ≤ itemLength b 0 (ts ++ vs)) :
    itemEnd b (us ++ vs) = itemEnd b (ts ++ vs) := by
  obtain ⟨n, hn⟩ := exists_depthBehind? hle
  have hn' := (h b 0).symm.trans hn
  rw [itemEnd, itemEnd, itemLength_append_of_depthBehind? hn,
    itemLength_append_of_depthBehind? hn', List.drop_length_add_append,
    List.drop_length_add_append]

end Depth

/-! ### Tokens that close what they open -/

/-- The tokens leave open what was open in front of them. -/
def IsLevel (ts : List Token) : Prop :=
  ∀ nestBraces depth, depthBehind? nestBraces depth ts = some depth

/-- How many brackets of its own a text has open behind a token. The token does not
close one that stands in front of the text. -/
def innerDepth? (nestBraces : Bool) (depth : Nat) (k : Token.Kind) : Option Nat :=
  if depth = 0 ∧ (k = .rightParen ∨ k = .rightBracket) then none else depthPast? nestBraces depth k

/-- Whether the tokens close all brackets that they open, and no others. -/
def isLevel (ts : List Token) : Bool :=
  ts.foldlM (fun depth t => innerDepth? true depth t.kind) 0 = some 0 &&
    ts.foldlM (fun depth t => innerDepth? false depth t.kind) 0 = some 0

section Level

variable {b : Bool} {d n : Nat} {ts us : List Token}

theorem depthPast?_add {k : Token.Kind} (h : innerDepth? b d k = some n) (m : Nat) :
    depthPast? b (d + m) k = some (n + m) := by
  unfold innerDepth? at h
  split at h
  next => cases h
  next hnot =>
    cases k <;> simp only [depthPast?] at h ⊢ <;> grind

theorem depthBehind?_add
    (h : ts.foldlM (fun depth t => innerDepth? b depth t.kind) d = some n) (m : Nat) :
    depthBehind? b (d + m) ts = some (n + m) := by
  induction ts generalizing d with
  | nil => rw [depthBehind?_nil, Option.some.inj h]
  | cons t ts ih =>
    obtain ⟨d', hd, hts⟩ := Option.bind_eq_some_iff.mp h
    rw [depthBehind?_cons, depthPast?_add hd, Option.bind_some, ih hts]

theorem isLevel_of_check (h : isLevel ts) : IsLevel ts := by
  intro b d
  obtain ⟨htrue, hfalse⟩ := (Bool.and_eq_true _ _).mp h
  rw [← Nat.zero_add d]
  cases b with
  | true => exact depthBehind?_add (of_decide_eq_true htrue) d
  | false => exact depthBehind?_add (of_decide_eq_true hfalse) d

/-- Only the kinds of the tokens matter. -/
theorem isLevel_of_map_kind (hk : ts.map (·.kind) = us.map (·.kind)) : isLevel ts = isLevel us := by
  have hfold (vs : List Token) : isLevel vs =
      ((vs.map (·.kind)).foldlM (innerDepth? true) 0 = some 0 &&
        (vs.map (·.kind)).foldlM (innerDepth? false) 0 = some 0) := by
    rw [List.foldlM_map, List.foldlM_map]
    rfl
  rw [hfold, hfold, hk]

namespace IsLevel

theorem nil : IsLevel [] := fun _ _ => rfl

theorem append (h : IsLevel ts) (h' : IsLevel us) : IsLevel (ts ++ us) := by
  intro b d
  rw [depthBehind?_append, h b d]
  exact h' b d

/-- A token that is no bracket. -/
theorem cons {t : Token} (ht : ∀ b d, depthPast? b d t.kind = some d) (h : IsLevel ts) :
    IsLevel (t :: ts) := by
  intro b d
  rw [depthBehind?_cons, ht b d]
  exact h b d

theorem enclosed {opener closer : Token} (ho : opener.kind.opensParen)
    (hc : closer.kind = .rightParen) (h : IsLevel ts) : IsLevel (opener :: (ts ++ [closer])) := by
  intro b d
  have hopen : depthPast? b d opener.kind = some (d + 1) := by
    cases hk : opener.kind <;> rw [hk] at ho <;> first | rfl | cases ho
  have hclose : depthPast? b (d + 1) closer.kind = some d := by rw [hc]; rfl
  rw [depthBehind?_cons, hopen, Option.bind_some, depthBehind?_append, h b, Option.bind_some,
    depthBehind?_cons, hclose]
  rfl

theorem sameDepth (h : IsLevel ts) (h' : IsLevel us) : SameDepth ts us :=
  fun b d => (h b d).trans (h' b d).symm

end IsLevel

end Level

end Sheet
end StyleScope
