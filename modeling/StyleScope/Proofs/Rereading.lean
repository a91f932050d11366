/-
# Reading a printed list again

A legible list is read again with all its descendant relations
(`relations_of_isLegible`). The proof follows the text from the front. A
`Reader` stands in front of some pieces of it and holds what is read from there
on. It gets past a node (`Tree.Rereads`), past the nodes of an alternative
(`exists_reaches_row`) and past a list (`relations_list`), and all relations
that it gets past are among those it reads (`Reader.Reaches`).

That rests on the texts in the tree, which have to be sound
(`Tree.IsSoundList`): what stands around the nodes is white space and closed
comments, and the text of a simple selector is one by itself.

Key definitions: `Selector.Reader`, `Selector.Reader.Reaches`,
`Selector.Tree.Rereads`, `Selector.Tree.IsSoundList`.
Key theorems: `Selector.relations_list`, `Selector.Tree.IsSound.rereads`,
`Selector.relations_of_isLegible`.
-/
import StyleScope.Proofs.PrintedTokens
import StyleScope.Proofs.Relations
import StyleScope.Proofs.SelectorPrint

namespace StyleScope
namespace Selector

open Token (HasSpace IsFiller isTrivia lexFrom textOf)

/-! ### Reading piece by piece -/

/-- White space and comments in front change nothing but the text around the
first node. -/
theorem Parsed.lead {limit stop depth : Nat} {ts : List Token}
    {q : Parts (ts.dropWhile isTrivia).length}
    (h : Parsed limit stop depth false (ts.dropWhile isTrivia) q) :
    ∃ p : Parts ts.length, Parsed limit stop depth false ts p ∧ p.others = q.others ∧
      p.rest = q.rest ∧ relationsAlong .other p.nodes = relationsAlong .other q.nodes := by
  have hle := Token.length_dropWhile_le isTrivia ts
  have hdrop : (ts.dropWhile isTrivia).dropWhile isTrivia = ts.dropWhile isTrivia :=
    List.dropWhile_idempotent ..
  generalize hus : ts.dropWhile isTrivia = us at q h hle hdrop
  cases h with
  | finish ht => exact ⟨_, .finish (hus.trans (hdrop.symm.trans ht)) (Nat.zero_le _), rfl, rfl, rfl⟩
  | close ht hk hle' =>
    exact ⟨_, .close (hus.trans (hdrop.symm.trans ht)) hk (Nat.le_trans hle' hle), rfl, rfl, rfl⟩
  | comma ht hk hp hle' =>
    exact ⟨_, .comma (hus.trans (hdrop.symm.trans ht)) hk hp (Nat.le_trans hle' hle), rfl, rfl, rfl⟩
  | combinator ht hk hp hle' =>
    refine ⟨_, .combinator (hus.trans (hdrop.symm.trans ht)) hk hp (Nat.le_trans hle' hle),
      ?_, ?_, ?_⟩
    · rw [Parts.others_cons, Parts.others_cons]
    · rw [Parts.rest_cons, Parts.rest_cons]
    · rw [relationsAlong_cons, relationsAlong_cons]
      rfl
  | call ht ho hd ha hr hp hle' =>
    refine ⟨_, .call (hus.trans (hdrop.symm.trans ht)) ho hd ha hr hp (Nat.le_trans hle' hle),
      ?_, ?_, ?_⟩
    · rw [(Parts.consSimple_eq ..).1, (Parts.consSimple_eq ..).1]
    · rw [(Parts.consSimple_eq ..).2, (Parts.consSimple_eq ..).2]
    · rw [relationsAlong_consSimple, relationsAlong_consSimple, across_other, across_other]
  | leaf ht hparen hcomma hk ho hs hp hle' =>
    refine ⟨_, .leaf (hus.trans (hdrop.symm.trans ht)) hparen hcomma hk ho hs hp
      (Nat.le_trans hle' hle), ?_, ?_, ?_⟩
    · rw [(Parts.consSimple_eq ..).1, (Parts.consSimple_eq ..).1]
    · rw [(Parts.consSimple_eq ..).2, (Parts.consSimple_eq ..).2]
    · rw [relationsAlong_consSimple, relationsAlong_consSimple, across_other, across_other]

/-- The reader has seen the simple selector in front, and the white space
behind it is part of what it has to read next. -/
def Front.Agrees (front seen : Front) (isFirst : Bool) (before : String) : Prop :=
  match front with
  | .other => True
  | .simple start => seen = .simple start ∧ isFirst = false
  | .spaced start => seen = .simple start ∧ isFirst = false ∧ HasSpace before.toList

/-- A reader in front of the pieces `ps`, the first of which is printed at byte
`b` behind `front`, and what it reads from there on. -/
structure Reader (limit stop depth : Nat) (ps : List Piece) (b : Nat) (front : Front) where
  o : Nat
  before : String
  isFirst : Bool
  seen : Front
  parts : Parts (tokensOf o before ps).length
  parsed : Parsed limit stop depth isFirst (tokensOf o before ps) parts
  offset : o + before.utf8ByteSize = b
  agrees : front.Agrees seen isFirst before

namespace Reader

variable {limit stop depth : Nat} {ps ps' ps'' : List Piece} {b b' b'' : Nat}
  {front front' front'' : Front} {found found' : List (Nat × Nat)}

def relations (r : Reader limit stop depth ps b front) : List (Nat × Nat) :=
  relationsAlong r.seen r.parts.nodes

/-- The reader gets from one place to another in the same alternative, and the
relations `found` are among those that it reads. -/
structure Reaches (r : Reader limit stop depth ps b front)
    (r' : Reader limit stop depth ps' b' front') (found : List (Nat × Nat)) : Prop where
  others : r.parts.others = r'.parts.others
  rest : r.parts.rest = r'.parts.rest
  relations : found ++ r'.relations ⊆ r.relations

theorem Reaches.trans {r : Reader limit stop depth ps b front}
    {r' : Reader limit stop depth ps' b' front'} {r'' : Reader limit stop depth ps'' b'' front''}
    (h : r.Reaches r' found) (h' : r'.Reaches r'' found') : r.Reaches r'' (found ++ found') where
  others := h.others.trans h'.others
  rest := h.rest.trans h'.rest
  relations := by
    rw [List.append_assoc]
    exact fun g hg => h.relations ((List.mem_append.mp hg).elim (List.mem_append_left _)
      fun hg => List.mem_append_right _ (h'.relations hg))

/-- White space and comments are read with what follows them. -/
def skip {text : String} (r : Reader limit stop depth (.filler text :: ps) b front) :
    Reader limit stop depth ps (b + text.utf8ByteSize) front where
  o := r.o
  before := r.before ++ text
  isFirst := r.isFirst
  seen := r.seen
  parts := r.parts
  parsed := r.parsed
  offset := by rw [String.utf8ByteSize_append, ← Nat.add_assoc, r.offset]
  agrees := by
    have h := r.agrees
    cases front with
    | other => exact h
    | simple => exact h
    | spaced =>
      refine ⟨h.1, h.2.1, ?_⟩
      rw [String.toList_append]
      exact h.2.2.append_right _

theorem reaches_skip {text : String} (r : Reader limit stop depth (.filler text :: ps) b front) :
    r.Reaches r.skip [] :=
  ⟨rfl, rfl, fun _ hg => hg⟩

/-- The white space and comments in front of a piece are read as such. -/
theorem takeWhile_tokensOf {o : Nat} {before : String} {tokens : Nat → List Token} {t : Token}
    {more : List Token} (hb : IsFiller before.toList)
    (ht : tokens (o + before.utf8ByteSize) = t :: more) (hk : t.isTrivia = false) :
    (tokensOf o before (.own tokens :: ps)).takeWhile isTrivia = lexFrom o before.toList ∧
      (tokensOf o before (.own tokens :: ps)).dropWhile isTrivia =
        t :: (more ++ tokensOf
          (o + before.utf8ByteSize + (textOf (t :: more)).utf8ByteSize) "" ps) := by
  have htrivia := hb.isTrivia_of_mem_lexFrom o
  simp only [tokensOf, ht]
  constructor
  · rw [List.takeWhile_append_of_pos htrivia, List.cons_append,
      List.takeWhile_cons_of_neg (by simp [hk]), List.append_nil]
  · rw [List.dropWhile_append_of_pos htrivia, List.cons_append,
      List.dropWhile_cons_of_neg (by simp [hk])]

/-- The reader finds the relation of a simple selector to the one in front. -/
theorem relation_across {seen : Front} {isFirst : Bool} {before : String} {o : Nat} {t t' : Tree}
    (h : front.Agrees seen isFirst before) (hk : t'.kind.selects) (hs : t'.start = t.start) :
    front.relation t ⊆ (seen.across isFirst (lexFrom o before.toList)).relation t' := by
  cases front with
  | other => exact List.nil_subset _
  | simple => exact List.nil_subset _
  | spaced start =>
    obtain ⟨rfl, rfl, hspace⟩ := h
    have hany := hspace.any_lexFrom o
    have hacross : (Front.simple start).across false (lexFrom o before.toList) = .spaced start := by
      unfold Front.across
      rw [if_neg, spacingNode, if_pos hany]
      · rfl
      · cases hlex : lexFrom o before.toList with
        | nil => rw [hlex] at hany; cases hany
        | cons => simp
    rw [hacross, Front.relation, Front.relation, if_pos hk, hs]
    split
    · exact List.Subset.refl _
    · exact List.nil_subset _

/-- The reader takes the tokens of a simple selector for one. -/
theorem exists_reaches_of_isUnit {tokens : Nat → List Token} {t : Token} {more : List Token}
    (r : Reader limit stop depth (.own tokens :: ps) b front) (hb : IsFiller r.before.toList)
    (ht : tokens b = t :: more) (hs : t.start = b) (hu : IsUnit t more) :
    ∃ r' : Reader limit stop depth ps (b + (textOf (t :: more)).utf8ByteSize) (.simple b),
      r'.before = "" ∧ ∀ node : Tree, node.start = b → r.Reaches r' (front.relation node) := by
  obtain ⟨o, before, isFirst, seen, parts, parsed, rfl, agrees⟩ := r
  change IsFiller before.toList at hb
  obtain ⟨htake, hdrop⟩ := takeWhile_tokensOf hb ht hu.trivia
  obtain ⟨kind, atEnd, us, q, hle, rfl, hsimple, hq, hp⟩ := parsed.of_unit hdrop hu
  obtain ⟨hkind, hstart, hrelations⟩ :=
    simpleNode_of_selects (selects_of_simple hsimple) t.start atEnd
  refine ⟨⟨_, "", false, .simple t.start, q, hq, by simp, by simp [Front.Agrees, hs]⟩, rfl,
    fun node hnode => ⟨?_, ?_, ?_⟩⟩
  · change parts.others = q.others
    rw [hp, (Parts.consSimple_eq ..).1]
  · change parts.rest = q.rest
    rw [hp, (Parts.consSimple_eq ..).2]
  · have hfound := relation_across (o := o) agrees hkind (hstart.trans (hs.trans hnode.symm))
    change _ ++ relationsAlong (.simple t.start) q.nodes ⊆ relationsAlong seen parts.nodes
    rw [hp, relationsAlong_consSimple, htake, hrelations, List.append_nil,
      Front.behind_of_selects hkind, hstart]
    exact List.append_subset.mpr ⟨List.subset_append_of_subset_left _ hfound,
      List.subset_append_right _ _⟩

/-- The reader takes a `>`, `+` or `~` for a combinator. -/
theorem exists_reaches_of_mark {tokens : Nat → List Token} {t : Token} {c : Combinator}
    (r : Reader limit stop depth (.own tokens :: ps) b front) (hb : IsFiller r.before.toList)
    (ht : tokens b = [t]) (hk : combinator? t.kind = some c) :
    ∃ r' : Reader limit stop depth ps (b + t.text.utf8ByteSize) .other,
      r'.before = "" ∧ r.Reaches r' [] := by
  obtain ⟨o, before, isFirst, seen, parts, parsed, rfl, agrees⟩ := r
  change IsFiller before.toList at hb
  have htrivia : t.isTrivia = false := by
    cases hkind : t.kind with
    | delim => rw [Token.isTrivia, hkind]; rfl
    | _ => rw [hkind] at hk; cases hk
  have hc := ne_descendant_of_combinator? hk
  obtain ⟨-, hdrop⟩ := takeWhile_tokensOf hb ht htrivia
  obtain ⟨q, hle, spaces, hq, hp⟩ := parsed.of_mark hdrop hk
  obtain ⟨p, hparsed, hothers, hrest, hrelations⟩ := hq.lead
  refine ⟨⟨_, "", false, .other, p, hparsed, by simp, trivial⟩, rfl, ?_, ?_, ?_⟩
  · change parts.others = p.others
    rw [hp, Parts.others_cons, hothers]
  · change parts.rest = p.rest
    rw [hp, Parts.rest_cons, hrest]
  · change relationsAlong .other p.nodes ⊆ relationsAlong seen parts.nodes
    have hbehind : seen.behind (.leaf (.combinator c t.text) spaces t.start) = .other := by
      cases c with
      | descendant => exact absurd rfl hc
      | _ => rfl
    rw [hp, relationsAlong_cons, hbehind, ← hrelations]
    exact List.subset_append_right _ _

/-- A parenthesis ends the list. -/
theorem rest_of_close (r : Reader limit stop depth (closePiece :: ps) b front)
    (hb : IsFiller r.before.toList) :
    r.parts.rest = ⟨.rightParen, ")", b⟩ :: tokensOf (b + 1) "" ps := by
  obtain ⟨o, before, isFirst, seen, parts, parsed, rfl, agrees⟩ := r
  have hdrop : (tokensOf o before (closePiece :: ps)).dropWhile isTrivia =
      ⟨.rightParen, ")", o + before.utf8ByteSize⟩ ::
        ([] ++ tokensOf (o + before.utf8ByteSize + 1) "" ps) := (takeWhile_tokensOf hb rfl rfl).2
  obtain ⟨-, -, hrest⟩ := parsed.of_close hdrop rfl
  exact hrest

/-- A comma ends the alternative, and others follow. -/
theorem exists_of_comma (r : Reader limit stop depth (commaPiece :: ps) b front)
    (hb : IsFiller r.before.toList) :
    ∃ (q : Parts (tokensOf (b + 1) "" ps).length) (start : Nat),
      Parsed limit stop depth true (tokensOf (b + 1) "" ps) q ∧
      r.parts.others = q.alternatives start ∧ r.parts.rest = q.rest := by
  obtain ⟨o, before, isFirst, seen, parts, parsed, rfl, agrees⟩ := r
  have hdrop : (tokensOf o before (commaPiece :: ps)).dropWhile isTrivia =
      ⟨.comma, ",", o + before.utf8ByteSize⟩ ::
        ([] ++ tokensOf (o + before.utf8ByteSize + 1) "" ps) := (takeWhile_tokensOf hb rfl rfl).2
  obtain ⟨q, hq, -, hothers, hrest⟩ := parsed.of_comma hdrop rfl
  exact ⟨q, _, hq, hothers, hrest⟩

end Reader

/-! ### Rows and lists -/

theorem forall_mem_dropLast_cons {α : Type} {p : α → Prop} {x : α} {xs : List α} :
    (∀ y ∈ (x :: xs).dropLast, p y) ↔ (xs ≠ [] → p x) ∧ ∀ y ∈ xs.dropLast, p y := by
  cases xs with
  | nil => simp
  | cons y ys => simp

/-- Whether white space in the node is white space for a reader. -/
def Tree.IsSpaced (t : Tree) : Prop :=
  t.isSpacing → HasSpace t.kind.text.toList

/-- The tree is an alternative. White space and comments stand around its nodes
as such, the end of the alternative apart. -/
structure Tree.IsRow (a : Tree) : Prop where
  kind : a.kind = .selector
  before : a.children ≠ [] → IsFiller a.spaces.before.toList
  after : a.spaces.after = ""
  inner : ∀ t ∈ a.children.dropLast, IsFiller t.spaces.after.toList
  spaced : ∀ t ∈ a.children.tail, t.IsSpaced

/-- Every comment around the nodes of the alternative is closed, at its end
too. -/
structure Tree.IsClosed (a : Tree) : Prop where
  before : IsFiller a.spaces.before.toList
  after : ∀ t ∈ a.children, IsFiller t.spaces.after.toList

section Rows

variable {limit stop : Nat}

variable (limit stop) in
/-- A reader in front of the node gets past it and finds the relations of the
node and in it. -/
structure Tree.Rereads (t : Tree) : Prop where
  exists_reaches : ∀ {depth : Nat} {ps qs : List Piece} {b : Nat} {front : Front},
    qs = t.pieces ++ ps → ∀ r : Reader limit stop depth qs b front, IsFiller r.before.toList →
    (front ≠ .other → t.IsSpaced) →
    ∃ b' front', ∃ r' : Reader limit stop depth ps b' front',
      b' = b + t.print.utf8ByteSize ∧ front' = front.behind (t.place b) ∧
      (IsFiller t.spaces.after.toList → IsFiller r'.before.toList) ∧
      r.Reaches r' (front.relation (t.place b) ++ (t.place b).relations)

/-- A reader gets past the nodes of an alternative. Only the last one may have
a comment behind it that is not closed. -/
theorem exists_reaches_row {ts : List Tree} (hts : ∀ t ∈ ts, t.Rereads limit stop)
    (hafter : ∀ t ∈ ts.dropLast, IsFiller t.spaces.after.toList)
    (htail : ∀ t ∈ ts.tail, t.IsSpaced) {depth : Nat} {ps qs : List Piece} {b : Nat} {front : Front}
    (hqs : qs = piecesEach ts ++ ps) (hhead : front ≠ .other → ∀ t ∈ ts.head?, t.IsSpaced)
    (r : Reader limit stop depth qs b front) (hb : ts ≠ [] → IsFiller r.before.toList) :
    ∃ b' front', ∃ r' : Reader limit stop depth ps b' front',
      b' = b + (printEach ts).utf8ByteSize ∧
      (IsFiller r.before.toList → (∀ t ∈ ts, IsFiller t.spaces.after.toList) →
        IsFiller r'.before.toList) ∧
      r.Reaches r' (relationsAlong front (placeEach 0 b ts)) := by
  induction ts generalizing qs b front with
  | nil =>
    obtain rfl : qs = ps := hqs
    refine ⟨b, front, r, by simp, fun h _ => h, rfl, rfl, ?_⟩
    rw [placeEach, relationsAlong, List.nil_append]
    exact List.Subset.refl _
  | cons t ts ih =>
    have hpieces : qs = t.pieces ++ (piecesEach ts ++ ps) := by
      rw [hqs, piecesEach, List.append_assoc]
    obtain ⟨b', front', r', rfl, rfl, hfiller, hreaches⟩ :=
      (hts t List.mem_cons_self).exists_reaches hpieces r (hb (List.cons_ne_nil t ts))
        fun hne => hhead hne t rfl
    have hrelations : relationsAlong front (placeEach 0 b (t :: ts)) =
        front.relation (t.place b) ++ (t.place b).relations ++
          relationsAlong (front.behind (t.place b))
            (placeEach 0 (b + t.print.utf8ByteSize) ts) := by
      rw [placeEach, relationsAlong, Nat.add_zero]
    obtain ⟨hfirst, hafter⟩ := forall_mem_dropLast_cons.mp hafter
    obtain ⟨b', front', r'', rfl, hfiller', hreaches'⟩ :=
      ih (fun u hu => hts u (List.mem_cons_of_mem t hu)) hafter
        (fun u hu => htail u (List.mem_of_mem_tail hu)) rfl
        (fun _ u hu => htail u (List.mem_of_mem_head? hu)) r' (fun hne => hfiller (hfirst hne))
    refine ⟨_, _, r'', ?_, fun _ h => hfiller' (hfiller (h t List.mem_cons_self)) fun u hu =>
      h u (List.mem_cons_of_mem t hu), ?_⟩
    · rw [printEach_cons t, String.utf8ByteSize_append, Nat.add_assoc]
    · rw [hrelations]
      exact hreaches.trans hreaches'

variable (limit stop) in
/-- An alternative whose nodes a reader gets past. -/
structure Tree.RereadsRow (a : Tree) : Prop extends a.IsRow where
  nodes : ∀ t ∈ a.children, t.Rereads limit stop

/-- A reader in front of an alternative gets to its end. -/
theorem Tree.RereadsRow.exists_reaches {a : Tree} (ha : a.RereadsRow limit stop)
    {depth o : Nat} {ps qs : List Piece} (hqs : qs = a.pieces ++ ps)
    {p : Parts (tokensOf o "" qs).length} (h : Parsed limit stop depth true (tokensOf o "" qs) p) :
    ∃ b front, ∃ r : Reader limit stop depth ps b front, b = o + a.print.utf8ByteSize ∧
      p.others = r.parts.others ∧ p.rest = r.parts.rest ∧
      (a.IsClosed → IsFiller r.before.toList) ∧
      (a.place o).relations ⊆ relationsAlong .other p.nodes := by
  obtain ⟨⟨hkind, hbefore, hafter, hinner, hspaced⟩, hnodes⟩ := ha
  obtain ⟨kind, ⟨before, after⟩, start, children⟩ := a
  obtain rfl : kind = .selector := hkind
  obtain rfl : after = "" := hafter
  change children ≠ [] → IsFiller before.toList at hbefore
  have hpieces : qs = .filler before :: (piecesEach children ++ (.filler "" :: ps)) := by
    rw [hqs, Tree.pieces, List.cons_append, List.append_assoc]
    rfl
  subst hpieces
  let r : Reader limit stop depth (piecesEach children ++ (.filler "" :: ps))
      (o + before.utf8ByteSize) .other := ⟨o, "" ++ before, true, .other, p, h, by simp, trivial⟩
  obtain ⟨b, front, r', rfl, hfiller, hreaches⟩ :=
    exists_reaches_row hnodes hinner hspaced rfl (fun hne => absurd rfl hne) r
      (fun hne => by simpa [r] using hbefore hne)
  refine ⟨_, front, r'.skip, ?_, hreaches.others, hreaches.rest, fun hclosed => ?_, ?_⟩
  · simp [Tree.print, Tree.children, Nat.add_assoc]
  · have := hfiller (by simpa [r, Tree.spaces] using hclosed.before) hclosed.after
    simpa [Reader.skip] using this
  · rw [Tree.place, Tree.relations]
    exact fun g hg => hreaches.relations (List.mem_append_left _ hg)

/-- A reader of a list finds the relations in it, and the parenthesis behind
it if there is one. -/
theorem relations_list {ts : List Tree} (hne : ts ≠ []) (hts : ∀ a ∈ ts, a.RereadsRow limit stop)
    (hclosed : ∀ a ∈ ts.dropLast, a.IsClosed)
    {depth o : Nat} {ps : List Piece} {p : Parts (tokensOf o "" (piecesList ts ++ ps)).length}
    (h : Parsed limit stop depth true (tokensOf o "" (piecesList ts ++ ps)) p) (start : Nat) :
    relationsAlong .other (placeEach 1 o ts) ⊆ relationsAlong .other (p.alternatives start) ∧
      ∀ ps', ps = closePiece :: ps' →
        (∀ a ∈ ts, a.IsClosed) →
        p.rest = ⟨.rightParen, ")", o + (printList ts).utf8ByteSize⟩ ::
          tokensOf (o + (printList ts).utf8ByteSize + 1) "" ps' := by
  induction ts generalizing o start with
  | nil => exact absurd rfl hne
  | cons a ts ih =>
    have ha := hts a List.mem_cons_self
    have hbehind : Front.other.behind (a.place o) = .other := by
      have hkind := ha.kind
      obtain ⟨kind, spaces, s, children⟩ := a
      obtain rfl : kind = .selector := hkind
      rfl
    rw [placeEach, relationsAlong, hbehind, relationsAlong_alternatives]
    have hpieces : piecesList (a :: ts) ++ ps = a.pieces ++ (piecesMore ts ++ ps) := by
      rw [piecesList, List.append_assoc]
    obtain ⟨b, front, r, rfl, hothers, hrest, hfiller, hfound⟩ := ha.exists_reaches hpieces h
    cases ts with
    | nil =>
      refine ⟨?_, ?_⟩
      · rw [placeEach, relationsAlong, List.append_nil]
        exact List.subset_append_of_subset_left _ hfound
      · rintro ps' rfl hall
        rw [hrest, r.rest_of_close (hfiller (hall a List.mem_cons_self))]
        simp
    | cons u us =>
      obtain ⟨hfirst, hclosed⟩ := forall_mem_dropLast_cons.mp hclosed
      have hmore : piecesMore (u :: us) ++ ps = commaPiece :: (piecesList (u :: us) ++ ps) := by
        rw [piecesMore, piecesList, List.cons_append]
      generalize piecesMore (u :: us) ++ ps = qs at r hmore
      subst hmore
      obtain ⟨q, start', hq, hq_others, hq_rest⟩ :=
        r.exists_of_comma (hfiller (hfirst (List.cons_ne_nil u us)))
      obtain ⟨hrelations, hclose⟩ := ih (List.cons_ne_nil u us)
        (fun v hv => hts v (List.mem_cons_of_mem a hv)) hclosed hq start'
      rw [hothers, hq_others]
      refine ⟨List.append_subset.mpr ⟨List.append_subset.mpr ⟨List.nil_subset _, ?_⟩, ?_⟩, ?_⟩
      · exact List.subset_append_of_subset_left _ hfound
      · exact List.subset_append_of_subset_right _ hrelations
      · intro ps' hps hall
        have hplace : o + a.print.utf8ByteSize + 1 + (printList (u :: us)).utf8ByteSize =
            o + (printList (a :: u :: us)).utf8ByteSize := by
          have hcomma : ",".utf8ByteSize = 1 := rfl
          simp only [printList_cons, printMore_cons, String.utf8ByteSize_append, hcomma]
          omega
        rw [hrest, hq_rest, hclose ps' hps fun v hv => hall v (List.mem_cons_of_mem a hv), hplace]

/-- The reader takes a pseudo-class with arguments for one, and reads on behind
its parenthesis. -/
theorem Reader.exists_reaches_of_call {depth b : Nat} {ps : List Piece} {front : Front}
    {name : String} {arguments : List Tree}
    (r : Reader limit stop depth
      (.own ((Kind.pseudo name true).tokens "") :: (piecesList arguments ++ closePiece :: ps))
      b front)
    (hb : IsFiller r.before.toList) (hn : name.toList.head? = some ':') (hne : arguments ≠ [])
    (hrows : ∀ a ∈ arguments, a.RereadsRow limit stop)
    (hclosed : ∀ a ∈ arguments, a.IsClosed) :
    ∃ b', ∃ r' : Reader limit stop depth ps b' (.simple b),
      b' = b + (name.utf8ByteSize + 1) + (printList arguments).utf8ByteSize + 1 ∧
      r'.before = "" ∧ ∀ node : Tree, node.start = b → r.Reaches r' (front.relation node ++
        relationsAlong .other (placeEach 1 (b + (name.utf8ByteSize + 1)) arguments)) := by
  obtain ⟨o, before, isFirst, seen, parts, parsed, rfl, agrees⟩ := r
  change IsFiller before.toList at hb
  obtain ⟨t, more, htokens, hk, hs, hopens⟩ := opening?_pseudoTokens hn (o + before.utf8ByteSize)
  have hsize : (textOf (t :: more)).utf8ByteSize = name.utf8ByteSize + 1 := by
    rw [← htokens, textOf_pseudoTokens, String.utf8ByteSize_append]
    rfl
  have htrivia : t.isTrivia = false := by rw [Token.isTrivia, hk]; rfl
  obtain ⟨htake, hdrop⟩ := @takeWhile_tokensOf (piecesList arguments ++ closePiece :: ps) _ _
    ((Kind.pseudo name true).tokens "") _ _ hb htokens htrivia
  rw [hsize] at hdrop
  obtain ⟨opener, hopening⟩ := hopens _
  obtain ⟨inner, u, rest, q, hle, hinner, hr, hq, hp⟩ := parsed.of_call hdrop hk hopening
  obtain ⟨hfound, hclose⟩ := relations_list hne hrows
    (fun a ha => hclosed a ((List.dropLast_sublist arguments).subset ha)) hinner
    (Token.startOf stop (tokensOf (o + before.utf8ByteSize + (name.utf8ByteSize + 1)) ""
      (piecesList arguments ++ closePiece :: ps)))
  obtain ⟨-, rfl⟩ := List.cons.inj (hr.symm.trans (hclose ps rfl hclosed))
  refine ⟨_, ⟨_, "", false, .simple t.start, q, hq, rfl, ?_⟩, rfl, rfl,
    fun node hnode => ⟨?_, ?_, ?_⟩⟩
  · rw [hs]
    exact ⟨rfl, rfl⟩
  · change parts.others = q.others
    rw [hp, (Parts.consSimple_eq ..).1]
  · change parts.rest = q.rest
    rw [hp, (Parts.consSimple_eq ..).2]
  · change _ ++ relationsAlong (.simple t.start) q.nodes ⊆ relationsAlong seen parts.nodes
    rw [hp, relationsAlong_consSimple, htake]
    refine List.append_subset.mpr ⟨List.append_subset.mpr ⟨?_, ?_⟩, List.subset_append_right _ _⟩
    · refine List.subset_append_of_subset_left _ (List.subset_append_of_subset_left _ ?_)
      exact relation_across agrees rfl (hs.trans hnode.symm)
    · refine List.subset_append_of_subset_left _ (List.subset_append_of_subset_right _ ?_)
      rw [Tree.relations]
      exact hfound

/-! ### Nodes -/

/-- The kinds of the tokens that a string or a tag starts with. A colon that
stands alone is no such tag. -/
def startsTag : Token.Kind → Bool
  | .hash _ | .colon | .leftBracket => false
  | .delim c => c ≠ '.' && c ≠ '#'
  | _ => true

/-- The tokens of the text by itself are one simple selector, and the first of
them is of such a kind. -/
def ReadsAlone (starts : Token.Kind → Bool) (text : String) : Prop :=
  ∀ o, ∃ t more, lexFrom o text.toList = t :: more ∧ t.start = o ∧ starts t.kind ∧ IsUnit t more

/-- The text of a node of this kind is a text of the kind, as far as a reader
depends on it. -/
def Kind.IsSound : Kind → Prop
  | .root | .selector => False
  | .combinator .descendant text | .comment text => IsFiller text.toList
  | .pseudo name _ => name.toList.head? = some ':'
  | .tag text => ReadsAlone startsTag text ∨ text = ":" ∨ text = "::"
  | .attribute text => ReadsAlone (· = .leftBracket) text
  | .string text => ReadsAlone startsTag text
  | _ => True

/-- Behind a simple selector without arguments the reader goes on with the text
behind it. -/
theorem rereads_of_isUnit {kind : Kind} {spaces : Spaces} {rest : String} (ending : String)
    (start : Nat)
    (hk : kind.selects) (hleaf : kind.isLeaf) (hb : IsFiller spaces.before.toList)
    (hpieces : kind.pieces spaces.after = [.own (kind.tokens ending), .filler rest])
    (hafter : ending ++ rest = spaces.after)
    (hrest : IsFiller spaces.after.toList → IsFiller rest.toList)
    (hu : ∀ o, ∃ t more, kind.tokens ending o = t :: more ∧ t.start = o ∧ IsUnit t more ∧
      textOf (t :: more) = kind.text ++ ending) :
    (Tree.leaf kind spaces start).Rereads limit stop := by
  constructor
  intro depth ps qs b front hqs r hfiller _
  obtain rfl : qs =
      .filler spaces.before :: .own (kind.tokens ending) :: .filler rest :: ps := by
    rw [hqs, pieces_leaf hleaf, hpieces]
    rfl
  obtain ⟨t, more, htokens, hs, hunit, htext⟩ := hu (b + spaces.before.utf8ByteSize)
  have hbefore : IsFiller r.skip.before.toList := by
    change IsFiller (r.before ++ spaces.before).toList
    rw [String.toList_append]
    exact hfiller.append hb
  obtain ⟨r', hempty, hreaches⟩ := r.skip.exists_reaches_of_isUnit hbefore htokens hs hunit
  refine ⟨_, _, r'.skip, ?_, ?_, fun h => ?_, ?_⟩
  · rw [print_leaf hleaf, htext, ← hafter]
    simp only [String.utf8ByteSize_append]
    omega
  · rw [place_leaf]
    exact (Front.behind_of_selects (t := .leaf kind spaces _) hk).symm
  · change IsFiller (r'.before ++ rest).toList
    rw [hempty, String.empty_append]
    exact hrest h
  · rw [place_leaf, relations_leaf, List.append_nil]
    have := (r.reaches_skip.trans (hreaches (.leaf kind spaces _) rfl)).trans r'.reaches_skip
    simpa using this

/-- White space and comments are read with what follows them. -/
theorem rereads_of_filler {kind : Kind} {text : String} (spaces : Spaces) (start : Nat)
    (hk : kind = .combinator .descendant text ∨ kind = .comment text)
    (ht : IsFiller text.toList) (hb : IsFiller spaces.before.toList) :
    (Tree.leaf kind spaces start).Rereads limit stop := by
  constructor
  intro depth ps qs b front hqs r hfiller hspaced
  have hleaf : kind.isLeaf := by rcases hk with rfl | rfl <;> rfl
  have hselects : kind.selects = false := by rcases hk with rfl | rfl <;> rfl
  have htext : kind.text = text := by rcases hk with rfl | rfl <;> rfl
  obtain rfl : qs = .filler spaces.before :: .filler text :: .filler spaces.after :: ps := by
    rw [hqs, pieces_leaf hleaf]
    rcases hk with rfl | rfl <;> rfl
  have hbefore : IsFiller (r.before ++ spaces.before).toList := by
    rw [String.toList_append]
    exact hfiller.append hb
  have hagrees : (front.behind ((Tree.leaf kind spaces start).place b)).Agrees r.seen r.isFirst
      (r.before ++ spaces.before ++ text ++ spaces.after) := by
    rw [place_leaf]
    rcases hk with rfl | rfl
    · cases front with
      | simple s =>
        obtain ⟨hseen, hfirst⟩ := r.agrees
        refine ⟨hseen, hfirst, ?_⟩
        have hspace : HasSpace text.toList := hspaced (by simp) rfl
        rw [String.toList_append, String.toList_append]
        exact (hspace.append_left hbefore).append_right _
      | _ => trivial
    · trivial
  have hoffset := r.offset
  refine ⟨_, _, ⟨r.o, r.before ++ spaces.before ++ text ++ spaces.after, r.isFirst, r.seen, r.parts,
    r.parsed, rfl, hagrees⟩, ?_, rfl, fun h => ?_, ⟨rfl, rfl, ?_⟩⟩
  · rw [print_leaf hleaf, htext]
    simp only [String.utf8ByteSize_append]
    omega
  · change IsFiller (r.before ++ spaces.before ++ text ++ spaces.after).toList
    rw [String.toList_append, String.toList_append]
    exact (hbefore.append ht).append h
  · rw [relation_of_not_selects (by rw [place_leaf]; exact hselects), relations_place_leaf]
    exact List.Subset.refl _

/-- Behind a `>`, `+` or `~` the reader goes on with the text behind it. -/
theorem rereads_of_mark {c : Combinator} (hc : c ≠ .descendant) (text : String) {spaces : Spaces}
    (start : Nat) (hb : IsFiller spaces.before.toList) :
    (Tree.leaf (.combinator c text) spaces start).Rereads limit stop := by
  constructor
  intro depth ps qs b front hqs r hfiller _
  obtain rfl : qs = .filler spaces.before :: .own ((Kind.combinator c text).tokens "") ::
      .filler spaces.after :: ps := by
    rw [hqs, pieces_leaf rfl]
    cases c with
    | descendant => exact absurd rfl hc
    | _ => rfl
  have hbefore : IsFiller r.skip.before.toList := by
    change IsFiller (r.before ++ spaces.before).toList
    rw [String.toList_append]
    exact hfiller.append hb
  have hmark : combinator? (.delim c.mark) = some c := by
    cases c with
    | descendant => exact absurd rfl hc
    | _ => rfl
  obtain ⟨r', hempty, hreaches⟩ := r.skip.exists_reaches_of_mark hbefore rfl hmark
  refine ⟨_, _, r'.skip, ?_, ?_, fun h => ?_, ?_⟩
  · rw [print_leaf rfl]
    simp only [String.utf8ByteSize_append, Kind.text]
    omega
  · rw [place_leaf]
    cases c with
    | descendant => exact absurd rfl hc
    | _ => rfl
  · change IsFiller (r'.before ++ spaces.after).toList
    rw [hempty, String.empty_append]
    exact h
  · rw [relation_of_not_selects (by rw [place_leaf]; rfl), relations_place_leaf]
    have := (r.reaches_skip.trans hreaches).trans r'.reaches_skip
    simpa using this

theorem rereads_of_isSound_leaf {kind : Kind} {spaces : Spaces} (start : Nat) (hleaf : kind.isLeaf)
    (hs : kind.IsSound) (hc : kind ≠ .tag ":" ∧ kind ≠ .tag "::")
    (hb : IsFiller spaces.before.toList) : (Tree.leaf kind spaces start).Rereads limit stop := by
  have halone (starts : Token.Kind → Bool) (text : String)
      (hkind : kind = .tag text ∨ kind = .attribute text ∨ kind = .string text)
      (h : ReadsAlone starts text) : (Tree.leaf kind spaces start).Rereads limit stop := by
    have htokens : ∀ o, kind.tokens "" o = lexFrom o text.toList := by
      intro o
      rcases hkind with rfl | rfl | rfl <;> rfl
    have htext : kind.text = text := by rcases hkind with rfl | rfl | rfl <;> rfl
    refine rereads_of_isUnit "" start ?_ hleaf hb ?_ String.empty_append id fun o => ?_
    · rcases hkind with rfl | rfl | rfl <;> rfl
    · rcases hkind with rfl | rfl | rfl <;> rfl
    · obtain ⟨t, more, hlex, hstart, -, hunit⟩ := h o
      refine ⟨t, more, (htokens o).trans hlex, hstart, hunit, ?_⟩
      rw [← hlex, Token.textOf_lexFrom, String.ofList_toList, htext, String.append_empty]
  cases kind with
  | root => cases hs
  | selector => cases hs
  | combinator c text =>
    by_cases hd : c = .descendant
    · subst hd
      exact rereads_of_filler spaces start (.inl rfl) hs hb
    · exact rereads_of_mark hd text start hb
  | comment text => exact rereads_of_filler spaces start (.inr rfl) hs hb
  | pseudo name hasArguments =>
    cases hasArguments with
    | true => cases hleaf
    | false =>
      refine rereads_of_isUnit "" start rfl rfl hb rfl String.empty_append id fun o => ?_
      obtain ⟨t, more, htokens, hstart, hunit⟩ := isUnit_pseudoTokens hs o
      refine ⟨t, more, htokens, hstart, hunit, ?_⟩
      rw [← htokens, textOf_pseudoTokens]
      rfl
  | className name =>
    refine rereads_of_isUnit _ start rfl rfl hb rfl (splitEnding_append name spaces.after)
      (fun h => isFiller_splitEnding h name) fun o => ⟨_, _, rfl, rfl, ?_, ?_⟩
    · exact ⟨rfl, by simp, by simp, rfl, fun _ => rfl, fun _ => ⟨_, rfl⟩⟩
    · simp [Kind.text, String.append_assoc]
  | idName name =>
    refine rereads_of_isUnit _ start rfl rfl hb rfl (splitEnding_append name spaces.after)
      (fun h => isFiller_splitEnding h name) fun o => ⟨_, _, rfl, rfl, ?_, ?_⟩
    · exact ⟨rfl, by simp, by simp, rfl, fun _ => rfl, fun _ => ⟨_, rfl⟩⟩
    · simp [Kind.text, String.append_assoc]
  | tag text =>
    rcases hs with hs | rfl | rfl
    · exact halone startsTag text (.inl rfl) hs
    · exact absurd rfl hc.1
    · exact absurd rfl hc.2
  | «attribute» text => exact halone (· = .leftBracket) text (.inr (.inl rfl)) hs
  | string text => exact halone startsTag text (.inr (.inr rfl)) hs
  | universal | nesting =>
    refine rereads_of_isUnit "" start rfl rfl hb rfl String.empty_append id
      fun o => ⟨_, _, rfl, rfl, ?_, rfl⟩
    exact ⟨rfl, by simp, by simp, rfl, fun _ => rfl, fun _ => ⟨_, rfl⟩⟩

/-- Behind a pseudo-class with arguments the reader goes on with the text
behind it. -/
theorem rereads_of_call {name : String} {spaces : Spaces} (start : Nat) {arguments : List Tree}
    (hn : name.toList.head? = some ':') (hb : IsFiller spaces.before.toList)
    (hne : arguments ≠ []) (hrows : ∀ a ∈ arguments, a.RereadsRow limit stop)
    (hclosed : ∀ a ∈ arguments, a.IsClosed) :
    (Tree.node (.pseudo name true) spaces start arguments).Rereads limit stop := by
  constructor
  intro depth ps qs b front hqs r hfiller _
  obtain rfl : qs = .filler spaces.before :: .own ((Kind.pseudo name true).tokens "") ::
      (piecesList arguments ++ closePiece :: .filler spaces.after :: ps) := by
    rw [hqs, Tree.pieces]
    simp
  have hbefore : IsFiller r.skip.before.toList := by
    change IsFiller (r.before ++ spaces.before).toList
    rw [String.toList_append]
    exact hfiller.append hb
  obtain ⟨b', r', rfl, hempty, hreaches⟩ :=
    r.skip.exists_reaches_of_call hbefore hn hne hrows hclosed
  have hplace : (Tree.node (.pseudo name true) spaces start arguments).place b =
      .node (.pseudo name true) spaces (b + spaces.before.utf8ByteSize)
        (placeEach 1 (b + spaces.before.utf8ByteSize + (name.utf8ByteSize + 1)) arguments) := by
    simp only [Tree.place, Kind.between, Kind.opening]
  refine ⟨_, _, r'.skip, ?_, ?_, fun h => ?_, ?_⟩
  · have hopen : "(".utf8ByteSize = 1 := rfl
    have hclose : ")".utf8ByteSize = 1 := rfl
    simp only [Tree.print, String.utf8ByteSize_append, hopen, hclose]
    omega
  · rw [hplace]
    rfl
  · change IsFiller (r'.before ++ spaces.after).toList
    rw [hempty, String.empty_append]
    exact h
  · have hnode := hreaches _ (show ((Tree.node (.pseudo name true) spaces start arguments).place
      b).start = _ by rw [hplace]; rfl)
    have := (r.reaches_skip.trans hnode).trans r'.reaches_skip
    rw [show ((Tree.node (.pseudo name true) spaces start arguments).place b).relations = _ by
      rw [hplace, Tree.relations]]
    simpa using this

end Rows

/-! ### Trees -/

/-- The tree is a node of an alternative, with the texts in it and below it as
a reader leaves them, and the alternatives below it are such `row`s. -/
inductive Tree.IsSound (row : Tree → Prop) : Tree → Prop where
  | leaf {kind : Kind} {spaces : Spaces} (start : Nat) (hleaf : kind.isLeaf) (hs : kind.IsSound)
    (hb : IsFiller spaces.before.toList) : IsSound row (.leaf kind spaces start)
  | call {name : String} {spaces : Spaces} (start : Nat) {arguments : List Tree}
    (hn : name.toList.head? = some ':') (hb : IsFiller spaces.before.toList)
    (hne : arguments ≠ []) (hrows : ∀ a ∈ arguments, row a)
    (h : ∀ a ∈ arguments, ∀ t ∈ a.children, IsSound row t) :
    IsSound row (.node (.pseudo name true) spaces start arguments)

/-- An alternative inside of parentheses. -/
structure Tree.IsClosedRow (a : Tree) : Prop extends a.IsRow where
  closed : a.IsClosed

/-- The tree is a selector list, with the texts in it as a reader leaves them.
Only the last alternative can end in a comment that is not closed. -/
structure Tree.IsSoundList (t : Tree) : Prop where
  kind : t.kind = .root
  spaces : t.spaces = .none
  ne_nil : t.children ≠ []
  rows : ∀ a ∈ t.children, a.IsRow
  closed : ∀ a ∈ t.children.dropLast, a.IsClosed
  sound : ∀ a ∈ t.children, ∀ u ∈ a.children, u.IsSound Tree.IsClosedRow

theorem mem_outlineEach {d : Nat} {t : Tree} {ts : List Tree} {e : Nat × Tree} (ht : t ∈ ts)
    (he : e ∈ t.outline d) : e ∈ outlineEach d ts := by
  induction ts with
  | nil => cases ht
  | cons u us ih =>
    rw [outlineEach, List.mem_append]
    rcases List.mem_cons.mp ht with rfl | ht
    · exact .inl he
    · exact .inr (ih ht)

theorem mem_outline_of_mem_children {d : Nat} {a t : Tree} {e : Nat × Tree} (ht : t ∈ a.children)
    (he : e ∈ t.outline (d + 1)) : e ∈ a.outline d := by
  obtain ⟨kind, spaces, start, children⟩ := a
  rw [Tree.outline]
  exact List.mem_cons_of_mem _ (mem_outlineEach ht he)

/-- A reader gets past a node whose texts are sound, if no colon stands alone in
it. -/
theorem Tree.IsSound.rereads {t : Tree} (h : t.IsSound Tree.IsClosedRow) {d : Nat}
    (hc : ∀ e ∈ t.outline d, e.2.kind ≠ .tag ":" ∧ e.2.kind ≠ .tag "::") (limit stop : Nat) :
    t.Rereads limit stop := by
  induction h generalizing d with
  | @leaf kind spaces start hleaf hs hb =>
    have hmem : (d, Tree.leaf kind spaces start) ∈ (Tree.leaf kind spaces start).outline d := by
      rw [Tree.leaf, Tree.outline]
      exact List.mem_cons_self
    exact rereads_of_isSound_leaf start hleaf hs (hc _ hmem) hb
  | call start hn hb hne hrows _ ih =>
    refine rereads_of_call start hn hb hne (fun a ha => ⟨(hrows a ha).toIsRow, fun t ht => ?_⟩)
      fun a ha => (hrows a ha).closed
    exact ih a ha t ht fun e he => hc e
      (mem_outline_of_mem_children ha (mem_outline_of_mem_children ht he))

/-- **A list whose printed text has the tokens of its nodes is read again with
all its descendant relations.** -/
theorem relations_of_isLegible {t u : Tree} (h : t.IsSoundList) (hl : t.IsLegible)
    (hu : parse t.print = .ok u) : (t.place 0).relations ⊆ u.relations := by
  obtain ⟨p, hp, -, rfl⟩ := parsed_of_parseWithin hu
  obtain ⟨kind, spaces, start, children⟩ := t
  obtain ⟨rfl, rfl, hne, hrows, hclosed, hsound⟩ := h
  obtain ⟨htokens, hcolons⟩ := hl
  have hrereads : ∀ a ∈ children, a.RereadsRow nestingLimit
      (Tree.node .root .none start children).print.utf8ByteSize := fun a ha =>
    ⟨hrows a ha, fun u hu => (hsound a ha u hu).rereads (fun e he => hcolons e
      (mem_outline_of_mem_children ha (mem_outline_of_mem_children hu he))) _ _⟩
  have hpieces : tokensOf 0 "" (Tree.node .root .none start children).pieces =
      tokensOf 0 "" (piecesList children ++ [.filler ""]) := by
    rw [Tree.pieces]
    rfl
  rw [hpieces] at htokens
  generalize Token.lex (Tree.node .root .none start children).print = ts at p hp htokens
  subst htokens
  have hfound := (relations_list hne hrereads hclosed hp
    (Token.startOf (Tree.node .root .none start children).print.utf8ByteSize
      (tokensOf 0 "" (piecesList children ++ [.filler ""])))).1
  rw [Tree.place, Tree.relations, Tree.relations]
  exact hfound

end Selector
end StyleScope
