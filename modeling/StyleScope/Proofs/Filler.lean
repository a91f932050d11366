/-
# White space and comments as text

Between two selectors stand white space and comments. The text of such a run
can be cut out and put behind another one, and the lexer still reads nothing
but white space and comments in it, as long as every comment is closed
(`IsFiller`). White space between two comments stays white space of its own
(`HasSpace`), whatever is put around it.

Key definitions: `Token.IsFiller`, `Token.HasSpace`.
Key theorems: `Token.IsFiller.isTrivia_of_mem_lexFrom`, `Token.HasSpace.any_lexFrom`,
`Token.isFiller_of_lexFrom`.
-/
import StyleScope.Proofs.Seam

namespace StyleScope
namespace Token

open Text

/-! ### Texts between selectors -/

/-- The characters are white space and closed comments. -/
inductive IsFiller : List Char → Prop where
  | nil : IsFiller []
  | space {c : Char} {cs : List Char} (hc : isSpace c) (h : IsFiller cs) : IsFiller (c :: cs)
  | comment {body cs : List Char}
    (hb : ∀ rest, scanComment (body ++ rest) = ⟨.comment true, body.length⟩) (h : IsFiller cs) :
    IsFiller ('/' :: '*' :: (body ++ cs))

/-- There is white space outside of the comments. -/
def HasSpace (cs : List Char) : Prop :=
  ∃ front c back, cs = front ++ c :: back ∧ IsFiller front ∧ isSpace c

theorem IsFiller.append {cs ds : List Char} (h : IsFiller cs) (hd : IsFiller ds) :
    IsFiller (cs ++ ds) := by
  induction h with
  | nil => exact hd
  | space hc _ ih => exact .space hc ih
  | @comment body cs hb _ ih =>
    rw [List.cons_append, List.cons_append, List.append_assoc]
    exact .comment hb ih

theorem isFiller_of_all_isSpace {cs : List Char} (h : ∀ c ∈ cs, isSpace c) : IsFiller cs := by
  induction cs with
  | nil => exact .nil
  | cons c cs ih =>
    exact .space (h c List.mem_cons_self) (ih fun d hd => h d (List.mem_cons_of_mem c hd))

theorem HasSpace.append_right {cs : List Char} (h : HasSpace cs) (ds : List Char) :
    HasSpace (cs ++ ds) := by
  obtain ⟨front, c, back, rfl, hf, hc⟩ := h
  exact ⟨front, c, back ++ ds, by simp, hf, hc⟩

theorem HasSpace.append_left {cs ds : List Char} (h : HasSpace cs) (hd : IsFiller ds) :
    HasSpace (ds ++ cs) := by
  obtain ⟨front, c, back, rfl, hf, hc⟩ := h
  exact ⟨ds ++ front, c, back, by simp, hd.append hf, hc⟩

theorem IsFiller.dropWhile_isSpace {cs : List Char} (h : IsFiller cs) :
    IsFiller (cs.dropWhile isSpace) := by
  induction h with
  | nil => exact .nil
  | space hc _ ih => rwa [List.dropWhile_cons, if_pos hc]
  | comment hb h _ =>
    rw [List.dropWhile_cons, if_neg (by decide)]
    exact .comment hb h

/-! ### How they are read -/

theorem drop_scan_of_isSpace {c : Char} (hc : isSpace c) (cs : List Char) :
    (c :: cs).drop (scan c cs).length = cs.dropWhile isSpace := by
  rw [scan_of_isSpace hc, Nat.add_comm, List.drop_succ_cons, drop_runLength]

theorem scan_of_closed {body cs : List Char}
    (hb : scanComment (body ++ cs) = ⟨.comment true, body.length⟩) :
    scan '/' ('*' :: (body ++ cs)) = ⟨.comment true, body.length + 2⟩ := by
  rw [scan_of_comment rfl, List.tail_cons, hb, Lexeme.extend, Nat.add_comm]

theorem drop_scan_of_closed {body cs : List Char}
    (hb : scanComment (body ++ cs) = ⟨.comment true, body.length⟩) :
    ('/' :: '*' :: (body ++ cs)).drop (scan '/' ('*' :: (body ++ cs))).length = cs := by
  rw [scan_of_closed hb, List.drop_succ_cons, List.drop_succ_cons, List.drop_left]

/-- White space and closed comments are read as such. -/
theorem IsFiller.isTrivia_of_mem_lexFrom {cs : List Char} (h : IsFiller cs) (start : Nat) :
    ∀ t ∈ lexFrom start cs, t.isTrivia := by
  fun_induction lexFrom start cs with
  | case1 => simp
  | case2 start c cs n text ih =>
    intro t ht
    cases h with
    | space hc h =>
      rcases List.mem_cons.mp ht with rfl | ht
      · rw [scan_of_isSpace hc]
        rfl
      · exact ih (by rw [drop_scan_of_isSpace hc]; exact h.dropWhile_isSpace) t ht
    | comment hb h =>
      rcases List.mem_cons.mp ht with rfl | ht
      · rw [scan_of_closed (hb _)]
        rfl
      · exact ih (by rw [drop_scan_of_closed (hb _)]; exact h) t ht

/-- White space outside of comments is read as such. -/
theorem HasSpace.any_lexFrom {cs : List Char} (h : HasSpace cs) (start : Nat) :
    (lexFrom start cs).any isWhitespace := by
  fun_induction lexFrom start cs with
  | case1 =>
    obtain ⟨front, c, back, hcs, -⟩ := h
    simp at hcs
  | case2 start c cs n text ih =>
    rw [List.any_cons, Bool.or_eq_true]
    obtain ⟨front, s, back, hcs, hf, hs⟩ := h
    have hspace (hc : isSpace c) : isWhitespace ⟨(scan c cs).kind, text, start⟩ := by
      rw [scan_of_isSpace hc]
      rfl
    cases hf with
    | nil =>
      obtain ⟨rfl, -⟩ := List.cons.inj hcs
      exact .inl (hspace hs)
    | space hc =>
      obtain ⟨rfl, -⟩ := List.cons.inj hcs
      exact .inl (hspace hc)
    | @comment body front hb h =>
      rw [List.cons_append, List.cons_append, List.append_assoc] at hcs
      obtain ⟨rfl, rfl⟩ := List.cons.inj hcs
      exact .inr (ih ⟨front, s, back, drop_scan_of_closed (hb _), h, hs⟩)

/-! ### Runs of tokens -/

theorem isFiller_of_scanComment {body y : List Char}
    (h : scanComment (body ++ y) = ⟨.comment true, body.length⟩) :
    IsFiller ('/' :: '*' :: body) := by
  rw [← List.append_nil body]
  refine .comment (fun rest => ?_) .nil
  rw [scanComment_append rest (by rw [h]) (by rw [h]), h]

theorem Kind.isTrivia_eq_false {k : Kind} (h : k.isNumeric ∨ k.isNamed ∨ k.char?.isSome) :
    k.isTrivia = false := by
  cases k <;> first | rfl | (rcases h with h | h | h <;> cases h)

/-- White space and comments start with a white space character or with the
opening of a comment. -/
theorem isTrivia_scan {c : Char} {cs : List Char} (h : (scan c cs).kind.isTrivia) :
    isSpace c ∨ (c = '/' && cs.head? = some '*') = true := by
  have hfinds := finds_scan c cs
  generalize scan c cs = l at hfinds h
  cases hfinds with
  | comment hc => exact .inr hc
  | space hc => exact .inl hc
  | string =>
    rcases scanString_ends c cs with hbad | ⟨terminated, _, hk, -⟩
    · rw [Lexeme.extend, hbad] at h
      cases h
    · rw [Lexeme.extend, hk] at h
      cases h
  | number =>
    rw [Kind.isTrivia_eq_false (.inl (isNumeric_scanNumber _))] at h
    cases h
  | named =>
    rw [Kind.isTrivia_eq_false (.inr (.inl (isNamed_scanNamed _)))] at h
    cases h
  | single =>
    rw [Kind.isTrivia_eq_false (.inr (.inr (by rw [char?_punctuation]; rfl)))] at h
    cases h
  | _ => cases h

/-- White space, and a comment that is closed or has something behind it, has the
text of white space and closed comments. -/
theorem isFiller_of_isTrivia {start : Nat} {cs : List Char} {t : Token} {ts : List Token}
    (h : lexFrom start cs = t :: ts) (hc : ts ≠ [] ∨ t.kind ≠ .comment false) (ht : t.isTrivia) :
    IsFiller t.text.toList ∧ (t.isWhitespace → HasSpace t.text.toList) := by
  obtain ⟨c, w, z, -, hlength, rfl, hrest⟩ := exists_of_lexFrom_eq_cons h
  rw [String.toList_ofList]
  rcases isTrivia_scan ht with hspace | hopen
  · have hrun : ∀ d ∈ c :: w, isSpace d := by
      rw [scan_of_isSpace hspace, Nat.add_comm, List.length_cons, Nat.add_right_cancel_iff,
        runLength] at hlength
      have hw : (w ++ z).takeWhile isSpace = w := by
        have := List.takeWhile_prefix (p := isSpace) (l := w ++ z)
        rw [List.prefix_iff_eq_take, hlength, List.take_left] at this
        exact this
      intro d hd
      rcases List.mem_cons.mp hd with rfl | hd
      · exact hspace
      · rw [← hw] at hd
        exact List.mem_takeWhile_imp hd
    exact ⟨isFiller_of_all_isSpace hrun, fun _ => ⟨[], c, w, rfl, .nil, hspace⟩⟩
  · -- a comment that is not closed has nothing behind it
    have hscan := scan_of_comment hopen
    have hclosed : (scanComment (w ++ z).tail).kind = .comment true := by
      have hk := isComment_scanComment (w ++ z).tail
      cases hkind : (scanComment (w ++ z).tail).kind with
      | comment terminated =>
        cases terminated with
        | true => rfl
        | false =>
          have hopened : (scan c (w ++ z)).kind = .comment false := by rw [hscan]; exact hkind
          have hdrop := drop_scan_of_comment hopened
          rw [hlength, ← List.cons_append, List.drop_left] at hdrop
          rw [hdrop, lexFrom] at hrest
          exact hc.elim (absurd hrest) (absurd hopened)
      | _ =>
        rw [hkind] at hk
        cases hk
    have htwo := two_le_length_of_comment hclosed
    rw [hscan] at hlength
    change 2 + (scanComment (w ++ z).tail).length = w.length + 1 at hlength
    cases w with
    | nil =>
      rw [List.length_nil] at hlength
      omega
    | cons d body =>
      simp only [List.cons_append, List.head?_cons, List.tail_cons, Bool.and_eq_true,
        decide_eq_true_eq, Option.some.injEq, List.length_cons] at hopen hlength hclosed
      obtain ⟨rfl, rfl⟩ := hopen
      have hbody : scanComment (body ++ z) = ⟨.comment true, body.length⟩ := by
        rw [← hclosed, show body.length = (scanComment (body ++ z)).length by omega]
      refine ⟨isFiller_of_scanComment hbody, fun hw => ?_⟩
      rw [isWhitespace, List.cons_append, scan_of_closed hbody] at hw
      cases hw

theorem isFiller_of_lexFrom {start : Nat} {cs : List Char} {run us : List Token}
    (h : lexFrom start cs = run ++ us) (hc : us ≠ [] ∨ ∀ t ∈ run, t.kind ≠ .comment false)
    (ht : ∀ t ∈ run, t.isTrivia) :
    IsFiller (textOf run).toList ∧ (run.any isWhitespace → HasSpace (textOf run).toList) := by
  induction run generalizing start cs with
  | nil => exact ⟨.nil, fun hw => by cases hw⟩
  | cons t run ih =>
    have hfirst : run ++ us ≠ [] ∨ t.kind ≠ .comment false :=
      hc.imp (fun hne => by simp [hne]) fun hclosed => hclosed t List.mem_cons_self
    obtain ⟨hfiller, hspace⟩ := isFiller_of_isTrivia h hfirst (ht t List.mem_cons_self)
    obtain ⟨c, w, z, -, -, -, hlex⟩ := exists_of_lexFrom_eq_cons h
    obtain ⟨hfillers, hspaces⟩ := ih hlex.symm
      (hc.imp_right fun hclosed u hu => hclosed u (List.mem_cons_of_mem t hu))
      fun u hu => ht u (List.mem_cons_of_mem t hu)
    rw [textOf_cons, String.toList_append]
    refine ⟨hfiller.append hfillers, fun hw => ?_⟩
    rw [List.any_cons, Bool.or_eq_true] at hw
    exact hw.elim (fun hw => (hspace hw).append_right _) fun hw => (hspaces hw).append_left hfiller

end Token
end StyleScope
