/-
# The scope that alternatives agree on

The declarations of a rule have one scope, so all alternatives of its selector
list must end in the same one. An alternative ends in the scope of its last
broad keyword, or in that of the mode if it has none, and only the keywords
among its own nodes count: what stands in the arguments of a pseudo-class or of
a narrow keyword does not reach the end of the alternative
(`isGlobal_of_resolveAlternative`).

The list is gone through with the scope agreed on so far. If it is resolved,
every alternative ended in the scope that is reported
(`ends_of_resolveAlternatives`); if an alternative ends in another, the list is
refused as a whole, with its text (`resolveAlternatives_eq_inconsistent`).

Key theorems: `Scope.isGlobal_of_resolveAlternative`,
`Scope.ends_of_resolveAlternatives`, `Scope.alternatives_agree`.
-/
import StyleScope.Proofs.EffectiveScope
import StyleScope.Proofs.SelectorPrint

namespace StyleScope
namespace Scope

open Selector (Tree)

section Lists

variable {ctx : Context} {isGlobal : Bool} {selector : String}

/-- **An alternative ends in the scope of its last broad keyword.** -/
theorem isGlobal_of_resolveAlternative {a b : Tree} {w : Walk}
    (h : (resolveAlternative ctx isGlobal a).result = .ok (b, w)) :
    w.standing.isGlobal = endsGlobal isGlobal a := by
  obtain ⟨⟨nodes, v⟩, hnodes, h⟩ := Traced.bind_eq_ok.mp h
  cases h
  have hstart := (Position.standing_top isGlobal).symm
  have hend : w.standing = (Position.top a.children).standing isGlobal :=
    standing_resolveSequence hstart hnodes
  rw [hend, Position.standing, Position.scope, Position.keyword?, Position.narrow?,
    Option.none_or, Position.before, endsGlobal]
  cases lastBroad? a.children <;> rfl

/-- If a list is resolved, each alternative ends in the scope that is reported,
which is the one agreed on before. -/
theorem ends_of_resolveAlternatives {agreed : Option Bool} {ts outs : List Tree} {r : Resolution}
    (h : (resolveAlternatives ctx isGlobal selector agreed ts).result = .ok (outs, r)) :
    (∀ g ∈ agreed, r.isGlobal = g) ∧
      ∀ a ∈ ts, ∃ b w, (resolveAlternative ctx isGlobal a).result = .ok (b, w) ∧
        w.standing.isGlobal = r.isGlobal := by
  induction ts generalizing agreed outs r with
  | nil =>
    obtain ⟨-, rfl⟩ := resolveAlternatives_nil h
    refine ⟨fun g hg => ?_, by simp⟩
    rw [Option.mem_def.mp hg, Option.getD_some]
  | cons a ts ih =>
    unfold resolveAlternatives at h
    obtain ⟨⟨b, w⟩, ha, h⟩ := Traced.bind_eq_ok.mp h
    dsimp only at h
    split at h
    next hagreed =>
      obtain ⟨⟨more, q⟩, hmore, h⟩ := Traced.bind_eq_ok.mp h
      cases h
      obtain ⟨hq, hrest⟩ := ih hmore
      have hw : q.isGlobal = w.standing.isGlobal := hq _ rfl
      refine ⟨fun g hg => ?_, List.forall_mem_cons.mpr ⟨⟨b, w, ha, hw.symm⟩, hrest⟩⟩
      rw [Option.mem_def.mp hg, Option.getD_some] at hagreed
      exact hw.trans hagreed.symm
    next => cases h

/-- If each alternative can be resolved, but no scope is the one agreed on before
and that of all of them, the list is refused. -/
theorem resolveAlternatives_eq_inconsistent {agreed : Option Bool} {ts : List Tree}
    (hs : ∀ a ∈ ts, (resolveAlternative ctx isGlobal a).result.isOk)
    (hne : ∀ g, (∀ g' ∈ agreed, g' = g) → ∃ a ∈ ts, endsGlobal isGlobal a ≠ g) :
    (resolveAlternatives ctx isGlobal selector agreed ts).result =
      .error (.inconsistentScope selector) := by
  induction ts generalizing agreed with
  | nil =>
    obtain ⟨a, ha, -⟩ := hne (agreed.getD isGlobal) fun g hg => by
      rw [Option.mem_def.mp hg, Option.getD_some]
    cases ha
  | cons a ts ih =>
    obtain ⟨⟨b, w⟩, ha, hw⟩ := exists_ok_of_isOk (hs a List.mem_cons_self)
      fun _ ha => isGlobal_of_resolveAlternative ha
    unfold resolveAlternatives
    rw [Traced.result_bind, ha]
    change Traced.result (ite (agreed.getD w.standing.isGlobal = w.standing.isGlobal) _ _) = _
    rw [hw]
    split
    next hagreed =>
      -- this alternative agrees, so it is one behind it that does not
      have hrest : ∃ c ∈ ts, endsGlobal isGlobal c ≠ endsGlobal isGlobal a := by
        obtain ⟨c, hc, hca⟩ := hne (endsGlobal isGlobal a) fun g hg => by
          rw [← hagreed, Option.mem_def.mp hg, Option.getD_some]
        rcases List.mem_cons.mp hc with rfl | hc
        · exact absurd rfl hca
        · exact ⟨c, hc, hca⟩
      have hrefused := ih (fun c hc => hs c (List.mem_cons_of_mem a hc)) fun g hg => by
        rwa [← hg _ rfl]
      rw [Traced.result_bind, hrefused]
      rfl
    next => rfl

end Lists

/-- **The alternatives of a list agree on a scope.** If a selector list is
resolved, all its alternatives end in the same scope, which is that of the last
broad keyword among the nodes of each, or of the mode if there is none; and it
is the scope that is reported. If each alternative can be resolved but two of
them end in different scopes, the list is refused with its text as it was
written. -/
theorem alternatives_agree {ctx : Context} {isGlobal : Bool} {source : String} {t : Tree}
    (hp : Selector.parse source = .ok t) :
    (∀ out r, (resolve ctx isGlobal t).result = .ok (out, r) → t.children ≠ [] ∧
      ∀ a ∈ t.children, endsGlobal isGlobal a = r.isGlobal ∧
        ∃ b w, (resolveAlternative ctx isGlobal a).result = .ok (b, w) ∧
          w.standing.isGlobal = r.isGlobal) ∧
    ((∀ a ∈ t.children, (resolveAlternative ctx isGlobal a).result.isOk) →
      (∃ a ∈ t.children, ∃ b ∈ t.children, endsGlobal isGlobal a ≠ endsGlobal isGlobal b) →
      (resolve ctx isGlobal t).result = .error (.inconsistentScope source)) := by
  constructor
  · intro out r h
    obtain ⟨outs, hr, -⟩ := resolve_eq_ok h
    refine ⟨(Selector.isList_of_parse hp).ne_nil, fun a ha => ?_⟩
    obtain ⟨b, w, hb, hw⟩ := (ends_of_resolveAlternatives hr).2 a ha
    exact ⟨(isGlobal_of_resolveAlternative hb).symm.trans hw, b, w, hb, hw⟩
  · rintro hs ⟨a, ha, b, hb, hab⟩
    have hne : ∀ g, ∃ c ∈ t.children, endsGlobal isGlobal c ≠ g := by
      intro g
      by_cases hg : endsGlobal isGlobal a = g
      · exact ⟨b, hb, fun hbg => hab (hg.trans hbg.symm)⟩
      · exact ⟨a, ha, hg⟩
    have hrefused : (resolveAlternatives ctx isGlobal t.print none t.children).result =
        .error (.inconsistentScope t.print) :=
      resolveAlternatives_eq_inconsistent hs fun g _ => hne g
    rw [resolve, Traced.result_bind, hrefused, Selector.print_parseWithin hp]
    rfl

/-- Keywords in arguments and narrow keywords do not count, at the end of either
alternative; and a list whose text is not only its selectors is refused with
all of it. -/
theorem alternatives_agree_nested :
    (∃ t out r,
      Selector.parse ".a:not(:local .b, .c) :global .d:is(:local .e), :global :local(.f)" = .ok t ∧
      (resolve ⟨[], false⟩ false t).result = .ok (out, r) ∧ r.isGlobal = true ∧
      t.children.length = 2 ∧
      ∀ a ∈ t.children, endsGlobal false a = r.isGlobal ∧
        ∃ b w, (resolveAlternative ⟨[], false⟩ false a).result = .ok (b, w) ∧
          w.standing.isGlobal = r.isGlobal) ∧
    ∃ t, Selector.parse " .a:not(:global .b) /*c*/, :global .d " = .ok t ∧
      (∀ a ∈ t.children, (resolveAlternative ⟨[], false⟩ false a).result.isOk) ∧
      (∃ a ∈ t.children, ∃ b ∈ t.children, endsGlobal false a ≠ endsGlobal false b) ∧
      (resolve ⟨[], false⟩ false t).result =
        .error (.inconsistentScope " .a:not(:global .b) /*c*/, :global .d ") := by
  constructor
  · have hok : (Selector.parse
        ".a:not(:local .b, .c) :global .d:is(:local .e), :global :local(.f)").toOption.any fun t =>
          (resolve ⟨[], false⟩ false t).result.toOption.any fun q =>
            q.2.isGlobal && t.children.length = 2 := by
      decide +kernel
    obtain ⟨t, ht, hok⟩ := exists_ok_of_any hok
    obtain ⟨⟨out, r⟩, hr, hok⟩ := exists_ok_of_any hok
    obtain ⟨hg, hlength⟩ := (Bool.and_eq_true _ _).mp hok
    obtain ⟨-, hends⟩ := (alternatives_agree ht).1 out r hr
    exact ⟨t, out, r, ht, hr, hg, of_decide_eq_true hlength, hends⟩
  · have hok :
        (Selector.parse " .a:not(:global .b) /*c*/, :global .d ").toOption.any fun t =>
          t.children.all (fun a => (resolveAlternative ⟨[], false⟩ false a).result.isOk) &&
            t.children.any fun a => t.children.any fun b =>
              endsGlobal false a != endsGlobal false b := by
      decide +kernel
    obtain ⟨t, ht, hok⟩ := exists_ok_of_any hok
    obtain ⟨hs, hne⟩ := (Bool.and_eq_true _ _).mp hok
    rw [List.all_eq_true] at hs
    simp only [List.any_eq_true, bne_iff_ne] at hne
    exact ⟨t, ht, hs, hne, (alternatives_agree ht).2 hs hne⟩

end Scope
end StyleScope
