/-
# The outline of a scoped sheet

Scoping replaces selectors, preludes and values, and nothing else
(`frames_process`). So a scoped sheet has the nodes that it had, nested as they
were: its outline is the same (`outline_process`).

What is printed is another matter. A text is put in the place of another, and
nothing makes sure that it is read as one there. But what goes wrong goes wrong at
a single node. If every node reads alone, the whole text is read with the same
outline (`Sheet.exists_parse_print`). The proof follows the reading of the
source, which tells what stands between the nodes, and puts the texts of the
nodes in their places one by one (`Rereads`).

Key definitions: `Sheet.Node.frame`, `Sheet.outline`, `Sheet.Rereads`.
Key theorems: `Sheet.Parsed.rereads`, `Sheet.exists_parse_print`,
`Scope.frames_process`.
-/
import StyleScope.Proofs.Alone

namespace StyleScope
namespace Sheet

open Token (EndsClosed StopsAt textOf)

/-! ### What scoping leaves alone -/

mutual

/-- The node without the texts that scoping may replace. -/
def Node.frame : Node → Node
  | .rule head body after => .rule { head with selector := "" } (frames body) after
  | .atBlock head body after => .atBlock { head with params := "" } (frames body) after
  | .atStatement head semicolon => .atStatement { head with params := "" } semicolon
  | .declaration d => .declaration { d with value := "" }
  | .comment c => .comment c

def frames : List Node → List Node
  | [] => []
  | n :: ns => n.frame :: frames ns

end

theorem frames_eq_nil {ns : List Node} (h : frames ns = frames []) : ns = [] := by
  cases ns with
  | nil => rfl
  | cons n ns => cases h

theorem frames_eq_cons {ns ms : List Node} {m : Node} (h : frames ns = frames (m :: ms)) :
    ∃ n ns', ns = n :: ns' ∧ n.frame = m.frame ∧ frames ns' = frames ms := by
  cases ns with
  | nil => cases h
  | cons n ns =>
    obtain ⟨hn, hns⟩ := List.cons.inj h
    exact ⟨n, ns, rfl, hn, hns⟩

/-- A frame tells what a node is. -/
theorem label_of_frame {n m : Node} (h : n.frame = m.frame) : n.label = m.label := by
  cases n <;> cases m <;> simp_all [Node.frame, Node.label]

theorem hasBlock_of_label {n m : Node} (h : n.label = m.label) : n.hasBlock = m.hasBlock := by
  rw [← hasBlock_label, ← hasBlock_label, h]

theorem exists_node_of_frame {n : Node} {head : Head} {body : List Node} {after : String}
    (h : n.frame = (head.node body after).frame) :
    ∃ head' body', n = Head.node head' body' after ∧ head'.label = head.label ∧
      frames body' = frames body := by
  cases head with
  | rule head =>
    cases n with
    | rule head' body' after' =>
      simp only [Head.node, Node.frame, Node.rule.injEq] at h
      exact ⟨.rule head', body', by rw [h.2.2]; rfl, rfl, h.2.1⟩
    | _ => simp [Head.node, Node.frame] at h
  | atRule head =>
    cases n with
    | atBlock head' body' after' =>
      simp only [Head.node, Node.frame, Node.atBlock.injEq, AtHead.mk.injEq] at h
      exact ⟨.atRule head', body', by rw [h.2.2]; rfl, congrArg Label.atBlock h.1.2.1, h.2.1⟩
    | _ => simp [Head.node, Node.frame] at h

theorem eq_of_frame_comment {n : Node} {c : Comment} (h : n.frame = (Node.comment c).frame) :
    n = .comment c := by
  cases n <;> simp_all [Node.frame]

/-! ### Outlines -/

/-- An entry without its text. -/
def Entry.place (e : Entry) : Nat × Label :=
  (e.depth, e.label)

/-- What the nodes are and how they are nested, in the order of the text. -/
def outlineAmong (depth : Nat) (ns : List Node) : List (Nat × Label) :=
  (entriesAmong depth ns).map Entry.place

def outline (s : Sheet) : List (Nat × Label) :=
  outlineAmong 0 s.nodes

theorem outlineAmong_cons_of_hasBlock {n : Node} (h : n.hasBlock = false) (depth : Nat)
    (ns : List Node) :
    outlineAmong depth (n :: ns) = (depth, n.label) :: outlineAmong depth ns := by
  rw [outlineAmong, entriesAmong, entries_of_hasBlock h]
  rfl

theorem outlineAmong_cons_congr {n n' : Node} {depth : Nat} {ns ns' : List Node}
    (hn : n.hasBlock = false) (hlabel : n'.label = n.label)
    (hns : outlineAmong depth ns' = outlineAmong depth ns) :
    outlineAmong depth (n' :: ns') = outlineAmong depth (n :: ns) := by
  have hn' : n'.hasBlock = false := (hasBlock_of_label hlabel).trans hn
  rw [outlineAmong_cons_of_hasBlock hn', outlineAmong_cons_of_hasBlock hn, hlabel, hns]

theorem outlineAmong_cons_node (head : Head) (depth : Nat) (body : List Node) (after : String)
    (ns : List Node) :
    outlineAmong depth (head.node body after :: ns) =
      (depth, head.label) :: (outlineAmong (depth + 1) body ++ outlineAmong depth ns) := by
  rw [outlineAmong, entriesAmong, entries_node]
  simp [outlineAmong, Entry.place]

/-- The frames of nodes tell their outline. -/
theorem outlineAmong_frames (depth : Nat) (ns : List Node) :
    outlineAmong depth (frames ns) = outlineAmong depth ns := by
  have hlist : ∀ {ns : List Node}, (∀ n ∈ ns, ∀ depth,
      (n.frame.entries depth).map Entry.place = (n.entries depth).map Entry.place) →
      ∀ depth, outlineAmong depth (frames ns) = outlineAmong depth ns := by
    intro ns h depth
    induction ns with
    | nil => rfl
    | cons n ns ih =>
      have htail := ih fun m hm => h m (List.mem_cons_of_mem n hm)
      rw [outlineAmong, outlineAmong] at htail
      rw [outlineAmong, outlineAmong, frames, entriesAmong, entriesAmong, List.map_append,
        List.map_append, h n List.mem_cons_self depth, htail]
  have hnode : ∀ (n : Node) (depth : Nat),
      (n.frame.entries depth).map Entry.place = (n.entries depth).map Entry.place := by
    intro n
    induction n using Node.induction with
    | rule head body after ih =>
      intro depth
      simp only [Node.frame, Node.entries, List.map_cons]
      exact congrArg _ (hlist ih (depth + 1))
    | atBlock head body after ih =>
      intro depth
      simp only [Node.frame, Node.entries, List.map_cons]
      exact congrArg _ (hlist ih (depth + 1))
    | atStatement head semicolon => exact fun _ => rfl
    | declaration d => exact fun _ => rfl
    | comment c => exact fun _ => rfl
  exact hlist (fun n _ => hnode n) depth

/-! ### Reading entry by entry -/

/-- What closes the block around nodes with `depth` blocks around them. -/
def closing (depth : Nat) : String :=
  if depth = 0 then "" else "\x7d"

/-- The text of the nodes, in its place, is read as nodes with the same outline. -/
def Rereads (limit depth : Nat) (ns : List Node) (after : String) : Prop :=
  ∀ start z, (depth = 0 → z = []) →
    ∃ l, listing limit depth
        (Token.lexFrom start ((printNodes ns ++ after ++ closing depth).toList ++ z)) = some l ∧
      outlineAmong depth l.nodes = outlineAmong depth ns ∧
      if depth = 0 then l.rest = [] else ∃ u k, l.rest = u :: Token.lexFrom k z

theorem listing_of_stopsAt {limit depth : Nat} {ts : List Token} (h : StopsAt .rightBrace ts) :
    listing limit depth ts = some ⟨[], "", ts⟩ := by
  obtain ⟨hdrop, htake⟩ := dropWhile_of_stopsAt h
  rw [listing_eq, hdrop, htake]
  cases ts with
  | nil => rfl
  | cons t ts => exact if_pos (Token.stopsAt_cons.mp h)

theorem kinds_dropWhile_lexFrom (a b : Nat) (cs : List Char) :
    ((Token.lexFrom a cs).dropWhile isFiller).map (·.kind) =
      ((Token.lexFrom b cs).dropWhile isFiller).map (·.kind) := by
  have hzero : ∀ k, ((Token.lexFrom k cs).dropWhile isFiller).map (·.kind) =
      ((Token.lexFrom 0 cs).dropWhile isFiller).map (·.kind) := by
    intro k
    rw [← Nat.zero_add k, Token.lexFrom_add, Token.dropWhile_relocate _ fun _ => rfl, List.map_map]
    rfl
  rw [hzero a, hzero b]

section Rereads

variable {limit depth : Nat} {ns : List Node} {after : String}

/-- The text of an item, up to its block, in front of other text. -/
theorem listing_lexFrom_append {start : Nat} {text : String} {c : Cut}
    (h : firstCut (Token.lexFrom start text.toList) = some c) (hc : c.IsClosed)
    (hclosed : EndsClosed (Token.lexFrom start text.toList)) (w : List Char) :
    listing limit depth (Token.lexFrom start (text.toList ++ w)) =
      listingFrom limit depth (c.append (Token.lexFrom (start + text.utf8ByteSize) w)) := by
  rw [Token.lexFrom_append hclosed, listing_append_of_firstCut h hc, String.ofList_toList]

/-- A block, and then other nodes. -/
theorem Rereads.cons_node {head : Head} {body : List Node} {inner : String}
    (hns : Rereads limit depth ns after) (hd : depth < limit)
    (hhead : (Entry.mk depth head.label (head.print ++ "\x7b")).readsAlone)
    (hbody : Rereads limit (depth + 1) body inner) :
    Rereads limit depth (head.node body inner :: ns) after := by
  intro start z hz
  have hbrace : (Entry.mk depth head.label (head.print ++ "\x7b")).needsBrace = false := by
    cases head <;> rfl
  obtain ⟨c, hc, hlabel, hrest⟩ := (Entry.readsAlone_iff_of_not hbrace start).mp hhead
  have htext : (printNodes (head.node body inner :: ns) ++ after ++ closing depth).toList ++ z =
      (head.print ++ "\x7b").toList ++ ((printNodes body ++ inner ++ closing (depth + 1)).toList ++
        ((printNodes ns ++ after ++ closing depth).toList ++ z)) := by
    simp [Head.print_node, closing]
  cases c with
  | done n rest =>
    have hn := hasBlock_of_firstCut hc
    have hlabel : n.label = head.label := hlabel
    rw [← hasBlock_label, hlabel] at hn
    cases head <;> cases hn
  | opened head' brace rest =>
    obtain rfl : rest = [] := hrest
    have hlabel : head'.label = head.label := hlabel
    have hclosed : EndsClosed (Token.lexFrom start (head.print ++ "\x7b").toList) := by
      cases ends_of_firstCut hc with
      | opened hk hs => exact Token.endsClosed_of_suffix hs (by rw [hk]; rfl)
    rw [htext, listing_lexFrom_append hc trivial hclosed]
    obtain ⟨block, hblock, houtline, hend⟩ := hbody
      (start + (head.print ++ "\x7b").utf8ByteSize)
      ((printNodes ns ++ after ++ closing depth).toList ++ z) fun h => nomatch h
    rw [if_neg (Nat.succ_ne_zero depth)] at hend
    obtain ⟨u, k, hend⟩ := hend
    obtain ⟨l, hl, houtline', hend'⟩ := hns k z hz
    simp only [Cut.append, List.nil_append, listingFrom, if_neg (Nat.not_le.mpr hd), hblock,
      Option.bind_some, hend, hl, Option.map_some]
    refine ⟨_, rfl, ?_, hend'⟩
    rw [Listing.prepend, List.singleton_append, outlineAmong_cons_node, outlineAmong_cons_node,
      hlabel, houtline, houtline']

/-- A node that ends itself, and then other nodes. -/
theorem Rereads.cons_done {n : Node} (hns : Rereads limit depth ns after)
    (hn : n.hasBlock = false)
    (h : ∀ start, ∃ n', firstCut (Token.lexFrom start n.print.toList) = some (.done n' []) ∧
      n'.endsItself ∧ n'.label = n.label ∧ EndsClosed (Token.lexFrom start n.print.toList)) :
    Rereads limit depth (n :: ns) after := by
  intro start z hz
  obtain ⟨n', hc, hends, hlabel, hclosed⟩ := h start
  have htext : (printNodes (n :: ns) ++ after ++ closing depth).toList ++ z =
      n.print.toList ++ ((printNodes ns ++ after ++ closing depth).toList ++ z) := by
    simp
  obtain ⟨l, hl, houtline, hend⟩ := hns (start + n.print.utf8ByteSize) z hz
  rw [htext, listing_lexFrom_append hc (.inr hends) hclosed]
  simp only [Cut.append, List.nil_append, listingFrom, hl, Option.map_some]
  exact ⟨_, rfl, outlineAmong_cons_congr hn hlabel houtline, hend⟩

theorem done_of_label {n : Node} (hn : n.hasBlock = false) {c : Cut} (h : c.label = n.label) :
    ∃ n', c = .done n' c.rest ∧ n'.label = n.label := by
  cases c with
  | done n' rest => exact ⟨n', rfl, h⟩
  | opened head brace body =>
    have h : head.label = n.label := h
    rw [← hasBlock_label, ← h] at hn
    cases head <;> cases hn

/-- The last node of a sheet. -/
theorem rereads_last {n : Node} (hn : n.hasBlock = false)
    (h : ∀ start, ∃ n', firstCut (Token.lexFrom start n.print.toList) = some (.done n' []) ∧
      n'.label = n.label) : Rereads limit 0 [n] "" := by
  intro start z hz
  obtain ⟨n', hc, hlabel⟩ := h start
  have htext : (printNodes [n] ++ "" ++ closing 0).toList ++ z = n.print.toList := by
    rw [hz rfl]
    simp [closing]
  rw [htext, listing_of_firstCut hc, listingFrom, listing_of_stopsAt (Token.stopsAt_nil _)]
  exact ⟨_, rfl, outlineAmong_cons_congr hn hlabel rfl, rfl⟩

/-- The last node of a block, if the brace behind it ends it. -/
theorem rereads_last_of_depth {n : Node} (hn : n.hasBlock = false) (hd : depth ≠ 0)
    (h : ∀ start, ∃ n' u,
      firstCut (Token.lexFrom start (n.print ++ "\x7d").toList) = some (.done n' [u]) ∧
      n'.label = n.label ∧ u.kind = .rightBrace) : Rereads limit depth [n] "" := by
  intro start z hz
  obtain ⟨n', u, hc, hlabel, hk⟩ := h start
  have htext : (printNodes [n] ++ "" ++ closing depth).toList ++ z =
      (n.print ++ "\x7d").toList ++ z := by
    simp [closing, hd]
  have hclosed : EndsClosed (Token.lexFrom start (n.print ++ "\x7d").toList) :=
    Token.endsClosed_of_suffix (ends_of_firstCut hc).rest_suffix (by rw [hk]; rfl)
  rw [htext, listing_lexFrom_append hc (.inl (List.cons_ne_nil u [])) hclosed, Cut.append,
    List.singleton_append, listingFrom, listing_of_stopsAt (Token.stopsAt_cons.mpr hk)]
  refine ⟨_, rfl, outlineAmong_cons_congr hn hlabel rfl, ?_⟩
  rw [if_neg hd]
  exact ⟨u, _, rfl⟩

/-- A node that is ended by what stands around it. -/
theorem rereads_of_isOpenEnded {n : Node} (hn : n.hasBlock = false) (hopen : n.label.isOpenEnded)
    (h : (Entry.mk depth n.label n.print).readsAlone) : Rereads limit depth [n] "" := by
  by_cases hd : depth = 0
  · subst hd
    have hbrace : (Entry.mk 0 n.label n.print).needsBrace = false := Bool.and_false _
    refine rereads_last hn fun start => ?_
    obtain ⟨c, hc, hlabel, hrest⟩ := (Entry.readsAlone_iff_of_not hbrace start).mp h
    obtain ⟨n', hdone, hlabel⟩ := done_of_label hn hlabel
    rw [hdone, hrest] at hc
    exact ⟨n', hc, hlabel⟩
  · have hbrace : (Entry.mk depth n.label n.print).needsBrace = true := by
      rw [Entry.needsBrace, hopen, Bool.true_and, decide_eq_true (Nat.pos_of_ne_zero hd)]
    refine rereads_last_of_depth hn hd fun start => ?_
    obtain ⟨c, u, hc, hlabel, hu, hk⟩ := (Entry.readsAlone_iff_of_needsBrace hbrace start).mp h
    obtain ⟨n', hdone, hlabel⟩ := done_of_label hn hlabel
    rw [hdone, hu] at hc
    exact ⟨n', u, hc, hlabel, hk⟩

/-- No nodes. -/
theorem rereads_nil (start : Nat)
    (h : ((Token.lexFrom start (after ++ closing depth).toList).dropWhile isFiller).map (·.kind) =
      if depth = 0 then [] else [.rightBrace]) : Rereads limit depth [] after := by
  intro start' z hz
  rw [kinds_dropWhile_lexFrom start start'] at h
  rw [printNodes_nil, String.empty_append]
  by_cases hd : depth = 0
  · rw [if_pos hd] at h
    rw [hz hd, List.append_nil, listing_eq, List.map_eq_nil_iff.mp h]
    exact ⟨_, rfl, rfl, by rw [if_pos hd]⟩
  · rw [if_neg hd] at h
    obtain ⟨u, hu, hk⟩ := List.map_eq_singleton_iff.mp h
    have hclosed : EndsClosed (Token.lexFrom start' (after ++ closing depth).toList) := by
      have hsuffix := List.dropWhile_suffix
        (l := Token.lexFrom start' (after ++ closing depth).toList) isFiller
      rw [hu] at hsuffix
      exact Token.endsClosed_of_suffix hsuffix (by rw [hk]; rfl)
    have hne : (Token.lexFrom start' (after ++ closing depth).toList).dropWhile isFiller ≠ [] := by
      rw [hu]
      exact List.cons_ne_nil u []
    rw [Token.lexFrom_append hclosed, listing_eq, dropWhile_append_of_dropWhile hne, hu,
      List.singleton_append]
    dsimp only
    rw [if_pos hk]
    exact ⟨_, rfl, rfl, by rw [if_neg hd]; exact ⟨u, _, rfl⟩⟩

end Rereads

/-- A node that ends itself and reads alone does so in front of any text. -/
theorem exists_done_of_readsAlone {n : Node} {depth : Nat} (hn : n.hasBlock = false)
    (hends : n.endsItself) (hl : n.label ≠ .comment)
    (h : (Entry.mk depth n.label n.print).readsAlone) (start : Nat) :
    ∃ n', firstCut (Token.lexFrom start n.print.toList) = some (.done n' []) ∧
      n'.endsItself ∧ n'.label = n.label ∧ EndsClosed (Token.lexFrom start n.print.toList) := by
  have hopen : n.label.isOpenEnded = false := by rw [isOpenEnded_label, hends]; rfl
  have hbrace : (Entry.mk depth n.label n.print).needsBrace = false := by
    rw [Entry.needsBrace, hopen, Bool.false_and]
  obtain ⟨c, hc, hlabel, hrest⟩ := (Entry.readsAlone_iff_of_not hbrace start).mp h
  obtain ⟨n', hdone, hlabel⟩ := done_of_label hn hlabel
  rw [hrest] at hdone
  rw [hdone] at hc
  have hends' : n'.endsItself := by
    rw [← Bool.not_eq_false', ← isOpenEnded_label, hlabel, hopen]
  refine ⟨n', hc, hends', hlabel, ?_⟩
  cases ends_of_firstCut hc with
  | semicolon _ hk hs => exact Token.endsClosed_of_suffix hs (by rw [hk]; rfl)
  | around hn' => rw [hends'] at hn'; cases hn'
  | comment => exact absurd hlabel.symm hl

/-- The end of a sheet. -/
theorem rereads_of_finish {limit start : Nat} {cs : List Char} {ts : List Token}
    (hts : Token.lexFrom start cs = ts) (ht : ts.dropWhile isFiller = []) :
    Rereads limit 0 [] (textOf (ts.takeWhile isFiller)) := by
  have htake : ts.takeWhile isFiller = ts := by
    rw [← List.append_nil (ts.takeWhile isFiller), ← ht, List.takeWhile_append_dropWhile]
  refine rereads_nil start ?_
  rw [htake, closing, if_pos rfl, if_pos rfl, String.append_empty, ← hts, Token.textOf_lexFrom,
    String.toList_ofList, hts, ht]
  rfl

/-- The end of a block. -/
theorem rereads_of_close {limit depth start : Nat} {cs : List Char} {ts rest : List Token}
    {t : Token} (hts : Token.lexFrom start cs = ts) (ht : ts.dropWhile isFiller = t :: rest)
    (hk : t.kind = .rightBrace) (hd : depth ≠ 0) :
    Rereads limit depth [] (textOf (ts.takeWhile isFiller)) := by
  have hsplit : Token.lexFrom start cs = (ts.takeWhile isFiller ++ [t]) ++ rest := by
    rw [hts, List.append_assoc, List.singleton_append, ← ht, List.takeWhile_append_dropWhile]
  have hmem : t ∈ Token.lexFrom start cs := by
    rw [hsplit]
    simp
  have hspelled := Token.isSpelled_of_mem_lexFrom hmem
  have hclosed : EndsClosed (ts.takeWhile isFiller ++ [t]) :=
    Token.endsClosed_of_suffix (List.suffix_append _ _) (by rw [hk]; rfl)
  have hlex := Token.lexFrom_of_append hsplit hclosed
  have htext : textOf (ts.takeWhile isFiller ++ [t]) =
      textOf (ts.takeWhile isFiller) ++ closing depth := by
    rw [Token.textOf_append, closing, if_neg hd]
    simp [hspelled.text_eq (c := '\x7d') (by rw [hk]; rfl)]
  have hfiller : ¬ isFiller t = true := by simp [isFiller, hk]
  refine rereads_nil start ?_
  rw [← htext, hlex, List.dropWhile_append_of_pos fun u hu => List.mem_takeWhile_imp hu,
    List.dropWhile_cons_of_neg hfiller, if_neg hd, List.map_singleton, hk]

/-- What is read of a text does not depend on where it stands. -/
theorem exists_firstCut_lexFrom {a : Nat} {cs : List Char} {n : Node}
    (h : firstCut (Token.lexFrom a cs) = some (.done n [])) (b : Nat) :
    ∃ n', firstCut (Token.lexFrom b cs) = some (.done n' []) ∧ n'.label = n.label := by
  rw [← Nat.zero_add a, Token.lexFrom_add, firstCut_relocate] at h
  obtain ⟨c, hc, hn⟩ := Option.map_eq_some_iff.mp h
  rw [← Nat.zero_add b, Token.lexFrom_add, firstCut_relocate, hc]
  have hlabel := Cut.label_relocate (· + a) c
  rw [hn] at hlabel
  cases c with
  | opened => cases hn
  | done n' rest =>
    obtain ⟨-, hrest⟩ := Cut.done.inj hn
    obtain rfl := List.map_eq_nil_iff.mp hrest
    exact ⟨_, rfl, (Cut.label_relocate (· + b) (.done n' [])).trans hlabel.symm⟩

theorem endsClosed_lexFrom {a : Nat} {cs : List Char} (h : EndsClosed (Token.lexFrom a cs))
    (b : Nat) : EndsClosed (Token.lexFrom b cs) := by
  have hmap : ∀ (f : Nat → Nat) (ts : List Token),
      EndsClosed (ts.map (Token.relocate f)) ↔ EndsClosed ts := by
    intro f ts
    simp [EndsClosed, List.getLast?_map]
  rw [← Nat.zero_add a, Token.lexFrom_add, hmap] at h
  rw [← Nat.zero_add b, Token.lexFrom_add, hmap]
  exact h

/-- A comment, which is kept as it is. -/
theorem Rereads.cons_comment {limit depth start : Nat} {cs : List Char} {taken rest : List Token}
    {n : Node} {ns : List Node} {after : String} (hns : Rereads limit depth ns after)
    (hlex : Token.lexFrom start cs = taken ++ rest) (htext : textOf taken = n.print)
    (hfirst : firstCut (taken ++ rest) = some (.done n rest)) (hl : n.label = .comment)
    (hlast : rest = [] → depth = 0 ∧ ns = [] ∧ after = "") :
    Rereads limit depth (n :: ns) after := by
  have hblock := hasBlock_of_firstCut hfirst
  have hends : ∀ m : Node, m.label = n.label → m.endsItself := by
    intro m hm
    rw [← Bool.not_eq_false', ← isOpenEnded_label, hm, hl]
    rfl
  have hclosed : EndsClosed taken ∨ rest = [] := by
    cases ends_of_firstCut hfirst with
    | semicolon _ hk hs => exact .inl (endsClosed_of_append hs (by rw [hk]; rfl))
    | around hn =>
      rw [hends n rfl] at hn
      cases hn
    | @comment c t rest hk hs =>
      by_cases hunclosed : t.kind = .comment false
      · obtain ⟨front, hfront⟩ := hs
        exact .inr (Token.eq_nil_of_comment (hlex.trans hfront.symm) hunclosed)
      · refine .inl (endsClosed_of_append hs ?_)
        cases ht : t.kind with
        | comment terminated => cases terminated <;> simp_all [Token.Kind.isClosed]
        | _ =>
          rw [ht] at hk
          cases hk
  rcases hclosed with hclosed | rfl
  · refine hns.cons_done hblock fun b => ?_
    have htaken := Token.lexFrom_of_append hlex hclosed
    have hown := firstCut_of_append hfirst (c := .done n []) (.inr (hends n rfl))
    rw [← htaken, htext] at hown
    rw [← htaken, htext] at hclosed
    obtain ⟨n', hn', hlabel⟩ := exists_firstCut_lexFrom hown b
    exact ⟨n', hn', hends n' hlabel, hlabel, endsClosed_lexFrom hclosed b⟩
  · obtain ⟨rfl, rfl, rfl⟩ := hlast rfl
    rw [List.append_nil] at hlex hfirst
    have hcs := Token.textOf_lexFrom start cs
    rw [hlex, htext] at hcs
    rw [← hlex, ← String.toList_ofList (l := cs), ← hcs] at hfirst
    exact rereads_last hblock (exists_firstCut_lexFrom hfirst)

/-- **A sheet whose nodes read alone is read with the same outline.** -/
theorem Parsed.rereads {limit depth : Nat} {ts : List Token} {items : Items ts.length}
    (h : Parsed limit depth ts items) {start : Nat} {cs : List Char}
    (hts : Token.lexFrom start cs = ts) (hd : items.rest = [] ↔ depth = 0) {ns : List Node}
    (hf : frames ns = frames items.nodes)
    (hr : ∀ e ∈ entriesAmong depth ns, e.label ≠ .comment → e.readsAlone) :
    Rereads limit depth ns items.after := by
  induction h generalizing start cs ns with
  | @finish depth ts ht hle =>
    obtain rfl := frames_eq_nil hf
    obtain rfl : depth = 0 := hd.mp rfl
    exact rereads_of_finish hts ht
  | @close depth ts rest t ht hk hle =>
    obtain rfl := frames_eq_nil hf
    exact rereads_of_close hts ht hk fun hzero => nomatch hd.mpr hzero
  | @done depth ts rest rest' t node items hlt ht hk hi hp hle ih =>
    obtain ⟨n, ns, rfl, hn, hns⟩ := frames_eq_cons hf
    obtain ⟨hfirst, ⟨taken, rfl, htext⟩, start', cs', hrest⟩ := lexed_of_done hts ht hk hi
    have hlabel := label_of_frame hn
    have hblock : n.hasBlock = false := by
      rw [hasBlock_of_label hlabel]
      exact hasBlock_of_firstCut hfirst
    rw [entriesAmong, entries_of_hasBlock hblock, List.singleton_append, List.forall_mem_cons] at hr
    have hmore := ih hrest hd hns hr.2
    by_cases hcomment : node.label = .comment
    -- A comment that is cut off does not read alone in front of a brace, but then it is the
    -- end of the source. Its text is the one that was read, so the source tells.
    · obtain ⟨c, rfl⟩ : ∃ c, node = .comment c := by
        cases node <;> simp_all [Node.label]
      obtain rfl := eq_of_frame_comment hn
      refine hmore.cons_comment hts htext hfirst hcomment fun hrest' => ?_
      obtain ⟨hnodes, hafter, hend⟩ := hp.of_stopsAt (hrest' ▸ Token.stopsAt_nil _)
      rw [hnodes] at hns
      exact ⟨hd.mp (hend.trans hrest'), frames_eq_nil hns, hafter⟩
    · have hown := hr.1 (hlabel ▸ hcomment)
      by_cases hends : n.endsItself
      · exact hmore.cons_done hblock
          (exists_done_of_readsAlone hblock hends (hlabel ▸ hcomment) hown)
      · have hopen : n.label.isOpenEnded := by
          rw [isOpenEnded_label, Bool.eq_false_of_not_eq_true hends]
          rfl
        -- No semicolon in the source either, as frames keep it: nothing stands behind the node.
        cases ends_of_firstCut hfirst with
        | semicolon hends' =>
          rw [hlabel, isOpenEnded_label, hends'] at hopen
          cases hopen
        | around _ hstops =>
          obtain ⟨hnodes, hafter, -⟩ := hp.of_stopsAt hstops
          rw [hnodes] at hns
          obtain rfl := frames_eq_nil hns
          change Rereads limit depth [n] items.after
          rw [hafter]
          exact rereads_of_isOpenEnded hblock hopen hown
        | comment => exact absurd rfl hcomment
  | @block depth ts rest body rest' t brace u head block items hlt ht hk hi hdepth hb hr' hp hle
      ihb ih =>
    obtain ⟨n, ns, rfl, hn, hns⟩ := frames_eq_cons hf
    obtain ⟨head', body', rfl, hlabel, hbody⟩ := exists_node_of_frame hn
    obtain ⟨-, -, ⟨start', cs', hbody'⟩, start'', cs'', hrest⟩ :=
      lexed_of_opened hts ht hk hi hb hr'
    rw [entriesAmong, entries_node, List.cons_append, List.forall_mem_cons,
      List.forall_mem_append] at hr
    have hhead := hr.1 (by cases head' <;> simp [Head.label])
    exact (ih hrest hd hns hr.2.2).cons_node hdepth hhead
      (ihb hbody' (by simp [hr']) hbody hr.2.1)

/-- A sheet with the frame of one that was read, of which every node reads alone,
is read with the same outline. -/
theorem exists_parse_print {source : String} {s out : Sheet} (h : (parse source).result = .ok s)
    (hf : frames out.nodes = frames s.nodes) (ha : out.after = s.after)
    (hr : ∀ e ∈ out.entries, e.label ≠ .comment → e.readsAlone) :
    ∃ s', (parse out.print).result = .ok s' ∧ s'.outline = out.outline := by
  obtain ⟨items, hitems, heq⟩ := parse_eq_ok.mp h
  obtain ⟨hnodes, hafter, hrest⟩ := Listing.mk.inj heq
  have hparsed := parsed_of_parseItems hitems
  have hd : items.rest = [] ↔ (0 : Nat) = 0 := iff_of_true hrest rfl
  obtain ⟨l, hl, houtline, hend⟩ := hparsed.rereads rfl hd (hnodes ▸ hf) hr 0 [] fun _ => rfl
  have htext : (printNodes out.nodes ++ items.after ++ closing 0).toList ++ [] =
      out.print.toList := by
    rw [hafter, ← ha]
    simp [closing, print]
  rw [htext] at hl
  refine ⟨⟨l.nodes, l.after⟩, parse_eq_ok_iff.mpr ?_, houtline⟩
  rw [Token.lex, hl]
  exact congrArg (fun rest => some (Listing.mk l.nodes l.after rest)) hend

end Sheet

/-! ### Scoping -/

namespace Scope

open Sheet (AtHead Declaration Node RuleHead frames)

/-- Of a declaration only the value changes. -/
theorem localizeDeclaration_eq_ok {p : Place} {d d' : Declaration}
    (h : (localizeDeclaration p d).result = .ok d') : ∃ value, d' = { d with value } := by
  unfold localizeDeclaration at h
  split at h
  · cases h
    exact ⟨d.value, rfl⟩
  · obtain ⟨-, -, h⟩ := Traced.bind_eq_ok.mp h
    obtain ⟨ns, -, h⟩ := Traced.bind_eq_ok.mp h
    obtain ⟨-, -, h⟩ := Traced.bind_eq_ok.mp h
    dsimp only at h
    split at h
    · cases h
      exact ⟨d.value, rfl⟩
    · obtain ⟨-, -, h⟩ := Traced.bind_eq_ok.mp h
      cases h
      exact ⟨_, rfl⟩

theorem frame_declaration {p : Place} {d d' : Declaration} {us : Urls}
    (h : (localizeDeclaration p d).Gives d' us) :
    (Node.declaration d').frame = (Node.declaration d).frame := by
  obtain ⟨value, rfl⟩ := localizeDeclaration_eq_ok h.result
  rfl

theorem frames_of_each {R : Node → Node → Urls → Prop} {ns ns' : List Node} {us : Urls}
    (h : Each R ns ns' us) (hR : ∀ n ∈ ns, ∀ n' us, R n n' us → n'.frame = n.frame) :
    frames ns' = frames ns := by
  induction h with
  | nil => rfl
  | @cons n n' ns ns' us vs hr hs ih =>
    rw [frames, frames, hR n List.mem_cons_self n' us hr,
      ih fun m hm => hR m (List.mem_cons_of_mem n hm)]

theorem frame_of_within {p : Place} {R : Node → Node → Urls → Prop} {n n' : Node} {us : Urls}
    (hR : R n n' us → n'.frame = n.frame) (h : Within p R n n' us) : n'.frame = n.frame := by
  cases n with
  | declaration d =>
    obtain ⟨d', rfl, hd⟩ := h
    exact frame_declaration hd
  | _ => exact hR h

theorem frame_of_nestedRun {p : Place} {n n' : Node} {us : Urls} (h : NestedRun p n n' us) :
    n'.frame = n.frame := by
  induction n using Node.induction generalizing n' us with
  | rule head body after ih =>
    cases nestedStep_of_run h with
    | rule _ _ h => rw [Node.frame, Node.frame, frames_of_each h fun n hn _ _ => ih n hn]
  | atBlock head body after ih =>
    cases nestedStep_of_run h with
    | atBlock _ _ h => rw [Node.frame, Node.frame, frames_of_each h fun n hn _ _ => ih n hn]
  | atStatement head semicolon =>
    cases nestedStep_of_run h
    rfl
  | declaration d =>
    cases nestedStep_of_run h with
    | declaration h => exact frame_declaration h
  | comment c =>
    cases nestedStep_of_run h
    rfl

theorem frame_of_atRun {job : Job} {n n' : Node} {us : Urls} (h : AtRun job n n' us) :
    n'.frame = n.frame := by
  induction n using Node.induction generalizing n' us with
  | rule head body after ih =>
    cases atStep_of_run h with
    | rule _ _ h => rw [Node.frame, Node.frame, frames_of_each h fun n hn _ _ => ih n hn]
  | atBlock head body after ih =>
    cases atStep_of_run h with
    | keyframes _ _ _ h =>
      rw [Node.frame, Node.frame, frames_of_each h fun _ _ _ _ => frame_of_nestedRun]
    | atBlock _ _ _ h =>
      rw [Node.frame, Node.frame, frames_of_each h fun n hn _ _ => frame_of_within (ih n hn)]
  | atStatement head semicolon =>
    cases atStep_of_run h <;> rfl
  | declaration d =>
    cases atStep_of_run h
    rfl
  | comment c =>
    cases atStep_of_run h
    rfl

theorem frame_of_ruleRun {job : Job} {inKeyframes parentIsPure : Bool} {n n' : Node} {us : Urls}
    (h : RuleRun job inKeyframes parentIsPure n n' us) : n'.frame = n.frame := by
  induction n using Node.induction generalizing inKeyframes parentIsPure n' us with
  | rule head body after ih =>
    cases ruleStep_of_run h with
    | skip => rfl
    | rule _ _ _ h =>
      rw [Node.frame, Node.frame, frames_of_each h fun n hn _ _ => frame_of_within (ih n hn)]
  | atBlock head body after ih =>
    cases ruleStep_of_run h with
    | atBlock _ _ h => rw [Node.frame, Node.frame, frames_of_each h fun n hn _ _ => ih n hn]
  | atStatement head semicolon =>
    cases ruleStep_of_run h
    rfl
  | declaration d =>
    cases ruleStep_of_run h
    rfl
  | comment c =>
    cases ruleStep_of_run h
    rfl

/-- **Scoping replaces selectors, preludes and values, and nothing else.** -/
theorem frames_process {options : Options} {s out : Sheet}
    (h : (process options s).result = .ok out) :
    frames out.nodes = frames s.nodes ∧ out.after = s.after := by
  obtain ⟨nodes, vs, ws, hfirst, hsecond, -, hafter⟩ := each_of_process ⟨h, rfl⟩
  refine ⟨?_, hafter⟩
  rw [frames_of_each hsecond fun _ _ _ _ => frame_of_ruleRun,
    frames_of_each hfirst fun _ _ _ _ => frame_of_atRun]

/-- A scoped sheet has the outline of the sheet. -/
theorem outline_process {options : Options} {s out : Sheet}
    (h : (process options s).result = .ok out) : out.outline = s.outline := by
  rw [Sheet.outline, Sheet.outline, ← Sheet.outlineAmong_frames, (frames_process h).1,
    Sheet.outlineAmong_frames]

end Scope
end StyleScope
