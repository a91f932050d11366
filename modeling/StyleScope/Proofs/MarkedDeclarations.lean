/-
# Declarations with marked names

Of a declaration only the value changes, and only if its property names animations.
The declaration is read as before if its value can be changed (`isSteadyDeclaration`):
its colon or the white space behind it is found in front of the new tokens, these leave
the same brackets open, and behind the value stands what goes on with no name.

Key definitions: `Scope.isSteadyDeclaration`.
Key theorems: `Scope.readsAlone_of_localizeDeclaration`.
-/
import StyleScope.Proofs.MarkedValues
import StyleScope.Proofs.ReplacedTexts
import StyleScope.Proofs.Slots

namespace StyleScope
namespace Scope

open Sheet (Declaration SameDepth)
open Token (lex textOf)
open Value (Node)

/-- Whether the value can be changed, if the property takes the names of animations. -/
def isSteadyDeclaration (d : Declaration) : Bool :=
  !takesAnimations d.prop || isSteadyValue d.value

section Declarations

variable {p : Place} {d d' : Declaration} {depth : Nat}

/-- Without a map of urls a declaration stays as it is, or its property takes the names of
animations and its value is edited. -/
theorem edits_localizeDeclaration (hp : p.urlMap = none)
    (h : (localizeDeclaration p d).result = .ok d') :
    d' = d ∨ takesAnimations d.prop ∧ ∃ ns ms, Value.parse d.value = .ok ns ∧ Edits ns ms ∧
      d' = { d with value := Value.print ms } := by
  unfold localizeDeclaration at h
  cases hroute : route? p d with
  | none =>
    rw [hroute] at h
    exact .inl (Except.ok.inj h).symm
  | some route =>
    have hnames : takesAnimations d.prop ∧ (route = .shorthand ∨ route = .names) := by
      rw [route?, hp] at hroute
      rw [takesAnimations]
      split at hroute
      next hs => exact ⟨by rw [hs]; rfl, .inl (Option.some.inj hroute).symm⟩
      next =>
        split at hroute
        next hn => exact ⟨by rw [hn, Bool.or_true], .inr (Option.some.inj hroute).symm⟩
        next => cases hroute
    rw [hroute] at h
    obtain ⟨-, -, h⟩ := Traced.bind_eq_ok.mp h
    obtain ⟨ns, hns, h⟩ := Traced.bind_eq_ok.mp h
    obtain ⟨-, -, h⟩ := Traced.bind_eq_ok.mp h
    have hparse : Value.parse d.value = .ok ns := mapError_eq_ok.mp hns
    have hedits : Edits ns (route.apply p ns) := by
      rcases hnames.2 with rfl | rfl
      · exact edits_shorthandNodes hp ns _ _
      · exact edits_localizeNames hp ns
    dsimp only at h
    split at h
    · exact .inl (Except.ok.inj h).symm
    · obtain ⟨-, -, h⟩ := Traced.bind_eq_ok.mp h
      exact .inr ⟨hnames.1, ns, _, hparse, hedits, (Except.ok.inj h).symm⟩

/-- **A scoped declaration reads alone**, if its value could be changed. -/
theorem readsAlone_of_localizeDeclaration (hp : p.urlMap = none)
    (h : (localizeDeclaration p d).result = .ok d') (hd : (Sheet.Node.declaration d).IsRead depth)
    (hs : isSteadyDeclaration d) : ((Sheet.Node.declaration d').entry depth).readsAlone := by
  rcases edits_localizeDeclaration hp h with rfl | ⟨hnames, ns, ms, hparse, hedits, rfl⟩
  · exact hd.readsAlone
  · have hvalue : isSteadyValue d.value := by simpa [isSteadyDeclaration, hnames] using hs
    obtain ⟨hspells, hsteady⟩ := spells_of_parse hparse hvalue
    obtain ⟨front, last, own, back, hsplit, hlast, hcut⟩ := Sheet.exists_split_declaration hd
    have hown : textOf own = d.value :=
      (congrArg Prod.snd (Option.some.inj hsplit.parts)).symm
    obtain ⟨hkinds, hfound⟩ := hsplit.found_lex hown fun t ht hk => by
      have hbroken := ((isSteadyValue_iff hparse).mp hvalue).1 t ht
      rw [hk] at hbroken
      cases hbroken
    obtain ⟨us, hus, hcarries⟩ := exists_carries_of_edits hedits hspells hsteady hfound
      (fun _ _ _ => rfl) hsplit.isApart_back
    have hdepth : SameDepth own us :=
      fun b n => (SameDepth.of_map_kind hkinds b n).symm.trans (hcarries.depth b n)
    have hsucceeds := hcarries.succeeds
    rw [lex, Token.textOf_lexFrom, String.toList_ofList, ← hown] at hsucceeds
    have hfirm : last.kind.isFirm := by
      rcases hlast with hk | hk <;> rw [hk] <;> rfl
    rw [← hus]
    exact hsplit.readsAlone (hsplit.found.1.of_succeeds hfirm hsucceeds) hcarries.found
      (hcut us hdepth)

end Declarations

end Scope
end StyleScope
