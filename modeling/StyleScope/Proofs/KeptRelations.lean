/-
# Descendant relations of a printed list

A resolved list is printed and read again. If the list that was read comes apart
where its keywords go (`IsDetachable`), no descendant relation is lost on the way
(`descendant_relations_kept`): a descendant combinator between two simple
selectors stands between them for the reader too.

It is lost where the text runs together. A class that ends in a hex escape
gives the white space behind the escape up when it is read, and under a mark it
does without. But what comes out of `:global(...)` is not marked, and the text
that stood behind the parenthesis takes the place of that behind its last name.
If that name ends in an escape, the escape takes the white space behind the
parenthesis for its end (`descendant_relation_lost`).

Key theorems: `Scope.descendant_relations_kept`.
-/
import StyleScope.Proofs.ResolvedPieces

namespace StyleScope
namespace Scope

open Selector (Tree)

/-- **No descendant relation of a detachable list is lost in print.** Two simple
selectors of the resolved list with nothing but a descendant combinator between
them are read again with one between them. Each is known by the place where it is
printed. -/
theorem descendant_relations_kept {ctx : Context} {isGlobal : Bool} {source : String}
    {t out u : Tree} {r : Resolution} (hp : Selector.parse source = .ok t)
    (ht : IsDetachable t) (h : (resolve ctx isGlobal t).result = .ok (out, r))
    (hu : Selector.parse out.print = .ok u) : (out.place 0).relations ⊆ u.relations :=
  Selector.relations_of_isLegible (isSoundList_of_resolve hp h) (isLegible_of_resolve hp ht h) hu

/-- A name that ends in an escape with more white space behind it, out of a
keyword, comments among white space, arguments, and all kinds of combinators. -/
theorem descendant_relations_kept_nested :
    ∃ t out r u,
      Selector.parse ":global(.a\\2b  .c):not(.d :global(#e f)) /**/ g > h[x] i" = .ok t ∧
      IsDetachable t ∧ (resolve ⟨[], false⟩ false t).result = .ok (out, r) ∧
      Selector.parse out.print = .ok u ∧
      (out.place 0).relations = [(0, 7), (14, 25), (25, 28), (9, 36), (41, 45)] ∧
      (out.place 0).relations ⊆ u.relations := by
  have hok :
      (Selector.parse ":global(.a\\2b  .c):not(.d :global(#e f)) /**/ g > h[x] i").toOption.any
        fun t => IsDetachable t && (resolve ⟨[], false⟩ false t).result.toOption.any fun q =>
          (Selector.parse q.1.print).toOption.any fun _ =>
            (q.1.place 0).relations = [(0, 7), (14, 25), (25, 28), (9, 36), (41, 45)] := by
    decide +kernel
  obtain ⟨t, ht, hok⟩ := exists_ok_of_any hok
  obtain ⟨hdetachable, hok⟩ := (Bool.and_eq_true _ _).mp hok
  obtain ⟨⟨out, r⟩, hr, hok⟩ := exists_ok_of_any hok
  obtain ⟨u, hu, hok⟩ := exists_ok_of_any hok
  have hd := of_decide_eq_true hdetachable
  exact ⟨t, out, r, u, ht, hd, hr, hu, of_decide_eq_true hok, descendant_relations_kept ht hd hr hu⟩

/-- The space behind the parenthesis becomes the end of an escape. -/
theorem descendant_relation_lost :
    ∃ t out r u, Selector.parse ":global(.a\\2b) .c" = .ok t ∧
      (resolve ⟨[], false⟩ false t).result = .ok (out, r) ∧
      out.print = ".a\\2b :local(.c)" ∧ (out.place 0).relations = [(0, 6)] ∧
      Selector.parse out.print = .ok u ∧ u.relations = [] := by
  have hok :
      (Selector.parse ":global(.a\\2b) .c").toOption.any fun t =>
        (resolve ⟨[], false⟩ false t).result.toOption.any fun q =>
          (Selector.parse q.1.print).toOption.any fun u =>
            q.1.print = ".a\\2b :local(.c)" ∧ (q.1.place 0).relations = [(0, 6)] ∧
              u.relations = [] := by
    decide +kernel
  obtain ⟨t, ht, hok⟩ := exists_ok_of_any hok
  obtain ⟨⟨out, r⟩, hr, hok⟩ := exists_ok_of_any hok
  obtain ⟨u, hu, hok⟩ := exists_ok_of_any hok
  obtain ⟨hprint, hrelations, hlost⟩ := of_decide_eq_true hok
  exact ⟨t, out, r, u, ht, hr, hprint, hrelations, hu, hlost⟩

end Scope
end StyleScope
