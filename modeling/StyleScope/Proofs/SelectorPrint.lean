/-
# A selector list prints as it was read

White space and comments end up in many places: in front of a node, behind
it, as a combinator or as a node of their own, and white space that ends an
escape moves out of the name. A node prints the text of its tokens all the
same (`reads_simple`, `print_simpleNode`), and `Parts.text`, what the parts of
a list print together, grows by the text of each node put in front.

Key definitions: `Selector.Parts.text`.
Key theorems: `Selector.Parsed.covers`, `Selector.print_of_parse_selector`.
-/
import StyleScope.Proofs.SelectorRead

namespace StyleScope
namespace Selector

open Token (Reads StopsAt)

/-! ### Text around a node -/

/-- Text put behind a node is printed behind it. -/
theorem print_setAfter (t : Tree) (text : String) :
    (t.setAfter (t.spaces.after ++ text)).print = t.print ++ text := by
  obtain ⟨kind, spaces, start, children⟩ := t
  simp only [Tree.setAfter, Tree.withSpaces, Tree.spaces]
  cases kind with
  | pseudo name hasArguments => cases hasArguments <;> simp [Tree.print, String.append_assoc]
  | _ => simp [Tree.print, String.append_assoc]

/-- Text put in front of a node that has none is printed in front of it. -/
theorem print_setBefore {t : Tree} (h : t.spaces.before = "") (text : String) :
    (t.setBefore text).print = text ++ t.print := by
  obtain ⟨kind, spaces, start, children⟩ := t
  have hb : spaces.before = "" := h
  simp only [Tree.setBefore, Tree.withSpaces, Tree.spaces]
  cases kind with
  | pseudo name hasArguments => cases hasArguments <;> simp [Tree.print, hb, String.append_assoc]
  | _ => simp [Tree.print, hb, String.append_assoc]

/-- A node that holds nothing prints its kind with the text around it. -/
theorem print_leaf {kind : Kind} (hk : kind.isLeaf) (spaces : Spaces) (start : Nat) :
    (Tree.leaf kind spaces start).print = spaces.before ++ kind.text ++ spaces.after := by
  cases kind with
  | root => cases hk
  | selector => cases hk
  | pseudo name hasArguments =>
    cases hasArguments with
    | true => cases hk
    | false => simp [Tree.leaf, Tree.print]
  | _ => simp [Tree.leaf, Tree.print]

/-! ### Simple selectors -/

theorem splitEscapeEnd_append (name : String) :
    (splitEscapeEnd name).1 ++ (splitEscapeEnd name).2 = name := by
  unfold splitEscapeEnd
  split
  · rw [← String.ofList_append, List.dropLast_eq_take, List.take_append_drop, String.ofList_toList]
  · exact String.append_empty

/-- The node of a simple selector prints its kind, wherever the white space
that ends an escape stands. -/
theorem print_simpleNode {kind : Kind} (hk : kind.isLeaf) (start : Nat) (atEnd : Bool) :
    (simpleNode kind start atEnd).print = kind.text := by
  unfold simpleNode
  split
  next name =>
    split
    · rw [print_leaf rfl]
      simp only [Kind.text, String.empty_append, String.append_assoc, splitEscapeEnd_append]
    · rw [print_leaf rfl]
      simp [Spaces.none]
  next name =>
    split
    · rw [print_leaf rfl]
      simp only [Kind.text, String.empty_append, String.append_assoc, splitEscapeEnd_append]
    · rw [print_leaf rfl]
      simp [Spaces.none]
  next =>
    rw [print_leaf hk]
    simp [Spaces.none]

theorem before_simpleNode (kind : Kind) (start : Nat) (atEnd : Bool) :
    (simpleNode kind start atEnd).spaces.before = "" := by
  unfold simpleNode
  repeat' split
  all_goals rfl

/-- An id prints the number sign that its token starts with. -/
theorem text_idName_tail {t : Token} {isIdent : Bool} (ht : t.IsSpelled)
    (hk : t.kind = .hash isIdent) :
    Kind.text (.idName (String.ofList t.text.toList.tail)) = t.text := by
  unfold Token.IsSpelled at ht
  rw [hk] at ht
  obtain ⟨name, htext⟩ := ht
  rw [← String.toList_inj, htext]
  simp [Kind.text]

/-- A simple selector takes the tokens that its kind prints. -/
theorem reads_simple {t : Token} {ts : List Token} {kind : Kind} {n : Nat}
    (h : simple t ts = .ok (kind, n)) (hs : ∀ u ∈ t :: ts, u.IsSpelled) :
    Reads (t :: ts) kind.text (ts.drop n) := by
  have ht := hs t (List.mem_cons_self ..)
  rw [simple.eq_def] at h
  cases hk : t.kind with
  | delim c =>
    rw [hk] at h
    dsimp only at h
    have hc : Reads (t :: ts) (String.singleton c) ts := ht.reads (by rw [hk]; rfl) ts
    split at h
    next hdot =>
      subst hdot
      split at h
      · cases h; exact hc
      next name rest =>
        split at h
        · cases h; exact hc.trans (Reads.head name rest)
        · cases h; exact hc
    split at h
    next hd => subst hd; cases h; exact hc
    split at h
    next hd => subst hd; cases h; exact hc
    split at h
    next hd => subst hd; cases h; exact hc
    cases h
    exact Reads.head t ts
  | hash isIdent =>
    rw [hk] at h
    cases h
    rw [text_idName_tail ht hk]
    exact Reads.head t ts
  | colon =>
    rw [hk] at h
    dsimp only at h
    -- one colon or two, and the name behind them if there is one
    have hcolons := (Reads.head t ts).trans (Reads.of_prefix
      ((List.take_prefix 1 _).trans (List.takeWhile_prefix (l := ts) (·.kind = .colon))))
    split at h
    · cases h; exact hcolons
    next name rest hd =>
      split at h
      · cases h
        rw [hd] at hcolons
        rw [← List.drop_drop, hd]
        exact hcolons.trans (Reads.head name rest)
      · cases h; exact hcolons
  | leftBracket | function | leftParen =>
    rw [hk] at h
    dsimp only at h
    split at h
    next n hn => cases h; exact (Reads.head t ts).trans (Reads.take n ts)
    next => cases h
  | rightBracket =>
    rw [hk] at h
    cases h
  | _ =>
    rw [hk] at h
    cases h
    exact Reads.head t ts

/-! ### Pseudo-classes with arguments -/

theorem reads_openingAfter? {colons : String} {ts : List Token} {o : Opening}
    (h : openingAfter? colons ts = some o) :
    ∃ text, Reads ts text o.body ∧ o.name ++ "(" = colons ++ text := by
  cases ts with
  | nil => cases h
  | cons t ts =>
    rw [openingAfter?] at h
    split at h
    next hc =>
      cases h
      simp only [Bool.and_eq_true, decide_eq_true_eq] at hc
      refine ⟨t.text, Reads.head t ts, ?_⟩
      rw [← String.toList_inj]
      obtain ⟨front, hfront⟩ := List.getLast?_eq_some_iff.mp hc.2
      simp [hfront]
    next => cases h

/-- The start of a pseudo-class takes its name and the parenthesis. -/
theorem reads_opening? {ts : List Token} {o : Opening} (h : opening? ts = some o) :
    Reads ts (o.name ++ "(") o.body := by
  unfold opening? at h
  split at h
  · cases h
  next t ts =>
    split at h
    · split at h
      · cases h
      next u us =>
        split at h
        · obtain ⟨text, hread, hname⟩ := reads_openingAfter? h
          rw [hname]
          exact ((Reads.head t _).trans (Reads.head u us)).trans hread
        · obtain ⟨text, hread, hname⟩ := reads_openingAfter? h
          rw [hname]
          exact (Reads.head t _).trans hread
    · cases h

/-! ### Parts -/

/-- What the parts print together. -/
def Parts.text {n : Nat} (p : Parts n) : String :=
  p.trailing ++ printEach p.nodes ++ printMore p.others

/-- The parts account for the tokens in front of the rest, which is empty or
starts with a parenthesis. Text at the end of an alternative stands behind its
last node; only an alternative without nodes keeps it in `trailing`. -/
structure Parts.Covers {n : Nat} (p : Parts n) (ts : List Token) : Prop where
  reads : Reads ts p.text p.rest
  stops : StopsAt .rightParen p.rest
  settled : p.nodes ≠ [] → p.trailing = ""

theorem printList_alternatives {n : Nat} (p : Parts n) (start : Nat) :
    printList (p.alternatives start) = p.text := by
  simp [Parts.alternatives, Parts.alternative, Parts.text, Tree.print]

theorem printMore_alternatives {n : Nat} (p : Parts n) (start : Nat) :
    printMore (p.alternatives start) = "," ++ p.text := by
  simp [Parts.alternatives, Parts.alternative, Parts.text, Tree.print, String.append_assoc]

/-- A node in front adds its text. -/
theorem Parts.Covers.cons {m n : Nat} {p : Parts m} {ts us : List Token} {t : Tree}
    (h : p.Covers us) (ht : Reads ts t.print us) (hmn : m ≤ n) : (p.cons t hmn).Covers ts := by
  have htext : (p.cons t hmn).text = t.print ++ p.text := by
    unfold Parts.cons
    split
    next hnil => simp [Parts.text, hnil, print_setAfter, String.append_assoc]
    next hne => simp [Parts.text, h.settled hne, String.append_assoc]
  refine ⟨?_, ?_, ?_⟩
  · rw [htext, rest_cons]
    exact ht.trans h.reads
  · rw [rest_cons]
    exact h.stops
  · unfold Parts.cons
    split
    · exact fun _ => rfl
    next hne => exact fun _ => h.settled hne

theorem print_spacingNode (trivia : List Token) :
    (spacingNode trivia).print = Token.textOf trivia := by
  unfold spacingNode
  split
  all_goals
    rw [print_leaf rfl]
    simp [Kind.text, Spaces.none]

/-- A simple selector in front adds its text and the text in front of it. -/
theorem Parts.Covers.consSimple {m n : Nat} {p : Parts m} {ts us rest : List Token} {t : Tree}
    {trivia : List Token} (h : p.Covers us) (htrivia : Reads ts (Token.textOf trivia) rest)
    (ht : Reads rest t.print us) (hb : t.spaces.before = "") (isFirst : Bool) (hmn : m ≤ n) :
    (p.consSimple isFirst trivia t hmn).Covers ts := by
  unfold Parts.consSimple
  split
  · exact h.cons (print_setBefore hb _ ▸ htrivia.trans ht) hmn
  split
  next hnil =>
    have hread := htrivia.trans ht
    rw [List.isEmpty_iff.mp hnil, Token.textOf_nil, String.empty_append] at hread
    exact h.cons hread hmn
  next => exact (h.cons ht hmn).cons (print_spacingNode trivia ▸ htrivia) (Nat.le_refl n)

/-! ### Selector lists -/

/-- Parts that were read account for the tokens they were read from. -/
theorem Parsed.covers {limit stop depth : Nat} {isFirst : Bool} {ts : List Token}
    {p : Parts ts.length} (h : Parsed limit stop depth isFirst ts p)
    (hs : ∀ t ∈ ts, t.IsSpelled) : p.Covers ts := by
  induction h with
  | @finish _ _ ts ht =>
    have htrivia := Reads.takeWhile Token.isTrivia ts
    rw [ht] at htrivia
    exact ⟨by simpa [Parts.text] using htrivia, Token.stopsAt_nil _, fun hne => absurd rfl hne⟩
  | @close _ _ ts rest t ht hk =>
    have htrivia := Reads.takeWhile Token.isTrivia ts
    rw [ht] at htrivia
    exact ⟨by simpa [Parts.text] using htrivia, Token.stopsAt_cons.mpr hk,
      fun hne => absurd rfl hne⟩
  | @comma _ _ ts rest t p ht hk _ _ ih =>
    have htrivia := Reads.takeWhile Token.isTrivia ts
    rw [ht] at htrivia
    have hrest := htrivia.isSpelled hs
    have hcomma := (hrest t (List.mem_cons_self ..)).reads (by rw [hk]; rfl) rest
    have hp := ih (hcomma.isSpelled hrest)
    refine ⟨?_, hp.stops, fun hne => absurd rfl hne⟩
    have hall := htrivia.trans (hcomma.trans hp.reads)
    simpa [Parts.text, printMore_alternatives] using hall
  | @combinator _ _ ts rest t c p ht _ _ hle ih =>
    have htrivia := Reads.takeWhile Token.isTrivia ts
    rw [ht] at htrivia
    have hmark := (htrivia.trans (Reads.head t rest)).trans (Reads.takeWhile Token.isTrivia rest)
    refine (ih (hmark.isSpelled hs)).cons ?_ hle
    rwa [print_leaf rfl]
  | @call _ isFirst ts rest rest' t u o arguments p ht ho _ _ hr _ hle iha ih =>
    have htrivia := Reads.takeWhile Token.isTrivia ts
    rw [ht] at htrivia
    have hopen := reads_opening? ho
    have hbody := hopen.isSpelled (htrivia.isSpelled hs)
    have hargs := iha hbody
    have hread := hargs.reads
    have hstop := hargs.stops
    rw [hr] at hread hstop
    have hclose := (hread.isSpelled hbody u (List.mem_cons_self ..)).reads
      (by rw [Token.stopsAt_cons.mp hstop]; rfl) rest'
    have hnode := (hopen.trans hread).trans hclose
    refine (ih (hnode.isSpelled (htrivia.isSpelled hs))).consSimple htrivia ?_ rfl isFirst hle
    simpa [Tree.print, Spaces.none, printList_alternatives] using hnode
  | @leaf _ isFirst ts rest t kind n p ht _ _ _ _ hsimple _ hle ih =>
    have htrivia := Reads.takeWhile Token.isTrivia ts
    rw [ht] at htrivia
    have hrest := htrivia.isSpelled hs
    have hnode := reads_simple hsimple hrest
    rw [← print_simpleNode (isLeaf_of_simple hsimple) t.start (endsCompound (rest.drop n))] at hnode
    exact (ih (hnode.isSpelled hrest)).consSimple htrivia hnode (before_simpleNode ..) isFirst hle

/-- Under any limit, what is read prints as it was read. -/
theorem print_parseWithin {limit : Nat} {source : String} {t : Tree}
    (h : parseWithin limit source = .ok t) : t.print = source := by
  obtain ⟨p, hp, hr, rfl⟩ := parsed_of_parseWithin h
  have hread := (hp.covers fun t ht => Token.isSpelled_of_mem_lex ht).reads
  rw [hr] at hread
  calc (Tree.node .root .none 0 (p.alternatives _)).print = p.text := by
        simp [Tree.print, Spaces.none, printList_alternatives]
    _ = Token.textOf (Token.lex source) := hread.eq_textOf
    _ = source := Token.textOf_lex source

/-- **A selector list prints as it was read.** -/
theorem print_of_parse_selector {source : String} {t : Tree} (h : parse source = .ok t) :
    t.print = source :=
  print_parseWithin h

/-- A list with comments in every place, an attribute, nested arguments, a
class that ends in an escape, and a `url(` that is no pseudo-class. -/
theorem print_of_parse_selector_escaped :
    ∃ t, parse "/*a*/ .b\\2b  >/*c*/d#e:not( [f='\x5d'] , :is(*) )\t::g/**/h ,:url( 'i')." = .ok t ∧
      t.print = "/*a*/ .b\\2b  >/*c*/d#e:not( [f='\x5d'] , :is(*) )\t::g/**/h ,:url( 'i')." :=
  exists_ok_of_isOk (by decide +kernel) fun _ h => print_of_parse_selector h

end Selector
end StyleScope
