/-
# What the nodes of a value say

A value is read by moving text about: a divider takes the white space next to
it, a call takes the white space just inside its parentheses, a colon joins the
name behind it. What the nodes say afterwards is held against the source. Each
node comes with its front, the text that is printed in front of its own
(`Value.frontsAmong`), and is faithful if it starts where the front stops and
holds what stands there (`Value.Node.IsFaithful`).

White space is a node only where no divider and no parenthesis of a call takes
it. No two tokens of white space follow each other, so no two such nodes do, and
none is left at the end of the arguments when the first and the last are taken
(`Value.IsRow`).

A call says less than the source in one case: its text is cut at the first
parenthesis, which is inside of the name if the name holds an escaped one. And a
colon in front of a name belongs to the name, but the call starts behind it
(`Value.IsHead`).

Key definitions: `Value.frontsAmong`, `Value.IsHead`, `Value.Node.IsFaithful`,
`Value.IsRow`.
Key theorems: `Token.exists_callsBy`, `Value.faithful_parseNodes`,
`Value.nodes_faithful`.
-/
import Mathlib.Data.List.Chain
import StyleScope.Proofs.Excerpts
import StyleScope.Proofs.Filler
import StyleScope.Proofs.ValuePrint

namespace StyleScope

open Text

/-- The text is white space, or empty. -/
def OnlySpace (text : String) : Prop :=
  ∀ c ∈ text.toList, isSpace c

theorem onlySpace_empty : OnlySpace "" := by
  intro c hc
  cases hc

theorem OnlySpace.append {a b : String} (ha : OnlySpace a) (hb : OnlySpace b) :
    OnlySpace (a ++ b) := by
  intro c hc
  rw [String.toList_append, List.mem_append] at hc
  rcases hc with hc | hc
  · exact ha c hc
  · exact hb c hc

theorem OnlySpace.append_iff {a b : String} (hb : OnlySpace b) :
    OnlySpace (a ++ b) ↔ OnlySpace a := by
  refine ⟨fun h c hc => h c ?_, fun ha => ha.append hb⟩
  rw [String.toList_append]
  exact List.mem_append_left _ hc

theorem onlySpace_ofList {cs : List Char} (h : ∀ c ∈ cs, isSpace c) :
    OnlySpace (String.ofList cs) := by
  rwa [OnlySpace, String.toList_ofList]

/-! ### Tokens -/

namespace Token

/-- What is read as white space is white space. -/
theorem isSpace_of_scan {c : Char} {cs : List Char} (h : (scan c cs).kind = .whitespace) :
    isSpace c := by
  rcases isTrivia_scan (show (scan c cs).kind.isTrivia by rw [h]; rfl) with hspace | hopen
  · exact hspace
  · have hk := isComment_scanComment cs.tail
    rw [scan_of_comment hopen, Lexeme.kind_extend] at h
    rw [h] at hk
    cases hk

/-- The first token left is what is read at the head of the text left. -/
theorem exists_scan_of_reads {source front : String} {t : Token} {ts : List Token}
    (h : Reads (lex source) front (t :: ts)) :
    ∃ c w z start, source.toList = front.toList ++ c :: (w ++ z) ∧
      scan c (w ++ z) = ⟨t.kind, (c :: w).length⟩ ∧ t.text.toList = c :: w ∧
      ts = lexFrom start z := by
  obtain ⟨taken, htaken, rfl⟩ := h
  obtain ⟨cs, hcs, hrest⟩ := lexFrom_eq_append htaken
  obtain ⟨c, w, z, rfl, hlength, ht, hts⟩ := exists_of_lexFrom_eq_cons hrest.symm
  refine ⟨c, w, z, _, hcs, ?_, ?_, hts⟩
  · rw [← hlength, ht]
  · rw [ht, String.toList_ofList]

theorem exists_reads_of_mem {source : String} {t : Token} (h : t ∈ lex source) :
    ∃ front rest, Reads (lex source) front (t :: rest) := by
  obtain ⟨taken, rest, hlex⟩ := List.append_of_mem h
  exact ⟨textOf taken, rest, taken, hlex, rfl⟩

/-- White space is read up to its end. -/
theorem cut_of_scan_whitespace {c : Char} {w z : List Char}
    (h : scan c (w ++ z) = ⟨.whitespace, (c :: w).length⟩) :
    isSpace c ∧ w = (w ++ z).takeWhile isSpace ∧ z = (w ++ z).dropWhile isSpace := by
  have hspace : isSpace c := isSpace_of_scan (by rw [h])
  rw [scan_of_isSpace hspace, Nat.add_comm, List.length_cons] at h
  have hlength : runLength isSpace (w ++ z) = w.length :=
    Nat.add_right_cancel (Lexeme.mk.inj h).2
  refine ⟨hspace, ?_, ?_⟩
  · have hprefix := List.takeWhile_prefix (p := isSpace) (l := w ++ z)
    rw [List.prefix_iff_eq_take, ← runLength, hlength, List.take_left] at hprefix
    exact hprefix.symm
  · rw [← drop_runLength, hlength, List.drop_left]

theorem onlySpace_of_mem_lex {source : String} {t : Token} (h : t ∈ lex source)
    (hk : t.isWhitespace) : OnlySpace t.text := by
  obtain ⟨front, rest, hread⟩ := exists_reads_of_mem h
  obtain ⟨c, w, z, -, -, hscan, htext, -⟩ := exists_scan_of_reads hread
  rw [of_decide_eq_true hk] at hscan
  obtain ⟨hspace, hw, -⟩ := cut_of_scan_whitespace hscan
  intro d hd
  rw [htext, List.mem_cons] at hd
  rcases hd with rfl | hd
  · exact hspace
  · rw [hw] at hd
    exact List.mem_takeWhile_imp hd

/-- Behind white space comes no white space. -/
theorem not_isWhitespace_of_reads {source front : String} {t u : Token} {ts : List Token}
    (h : Reads (lex source) front (t :: u :: ts)) (ht : t.isWhitespace) :
    u.isWhitespace = false := by
  obtain ⟨c, w, z, start, -, hscan, -, hrest⟩ := exists_scan_of_reads h
  rw [of_decide_eq_true ht] at hscan
  obtain ⟨-, -, hz⟩ := cut_of_scan_whitespace hscan
  obtain ⟨d, v, y, rfl, -, rfl, -⟩ := exists_of_lexFrom_eq_cons hrest.symm
  have hd := List.head?_dropWhile_not isSpace (w ++ d :: (v ++ y))
  rw [← hz] at hd
  by_contra hu
  rw [isWhitespace, Bool.not_eq_false, decide_eq_true_iff] at hu
  have hspace := isSpace_of_scan hu
  simp [hspace] at hd

/-- A name with a parenthesis behind it ends at the parenthesis. Of a function
nothing but white space comes with it, and the name of a url holds no other
parenthesis. -/
theorem exists_of_scanNamed (cs : List Char)
    (h : (scanNamed cs).kind = .function ∨ ∃ terminated, (scanNamed cs).kind = .url terminated) :
    ∃ rest n, cs.drop (nameLength cs) = '(' :: rest ∧
      (scanNamed cs).length = nameLength cs + 1 + n ∧
      ((scanNamed cs).kind = .function → ∀ c ∈ rest.take n, isSpace c) ∧
      ((scanNamed cs).kind ≠ .function → '(' ∉ cs.take (nameLength cs)) := by
  unfold scanNamed at h ⊢
  cases hd : cs.drop (nameLength cs) with
  | nil =>
    simp only [hd] at h
    rcases h with h | ⟨terminated, h⟩ <;> cases h
  | cons c rest =>
    simp only [hd] at h ⊢
    by_cases hc : c = '('
    · subst hc
      rw [if_pos rfl]
      by_cases hurl : sameWord (String.ofList (cs.take (nameLength cs))) "url"
      · rw [if_pos hurl]
        refine ⟨rest, ?_⟩
        split
        · refine ⟨_, rfl, rfl, fun _ d hd => ?_, fun hk => absurd rfl hk⟩
          rw [runLength, ← List.prefix_iff_eq_take.mp (List.takeWhile_prefix isSpace)] at hd
          exact List.mem_takeWhile_imp hd
        · refine ⟨runLength isSpace rest + (scanUrl (rest.drop (runLength isSpace rest))).length,
            rfl, ?_, fun hk => ?_, fun _ => not_mem_of_sameWord_url hurl⟩
          · rw [Lexeme.extend, ← Nat.add_assoc]
          · rcases scanUrl_ends (rest.drop (runLength isSpace rest)) with hbad | ⟨_, _, hurl, -⟩
            · rw [Lexeme.kind_extend, hbad] at hk
              cases hk
            · rw [Lexeme.kind_extend, hurl] at hk
              cases hk
      · rw [if_neg hurl]
        exact ⟨rest, 0, rfl, rfl, fun _ => List.forall_mem_nil _, fun hk => absurd rfl hk⟩
    · rw [if_neg hc] at h
      rcases h with h | ⟨terminated, h⟩ <;> cases h

/-- The token calls by the name that stands behind `front`, which goes up to the
parenthesis behind it. Only a parenthesis by itself has no name. -/
structure CallsBy (source front : String) (t : Token) (name inside behind : String) : Prop where
  opens : t.kind.opensParen ∨ ∃ terminated, t.kind = .url terminated
  source_eq : source = front ++ name ++ "(" ++ behind
  nameLength_eq : nameLength (name ++ "(" ++ behind).toList = name.length
  text_eq : t.text = name ++ "(" ++ inside
  group_iff : t.kind = .leftParen ↔ name = ""
  onlySpace : t.kind.opensParen → OnlySpace inside
  not_mem : t.kind.opensParen = false → '(' ∉ name.toList

theorem nameLength_paren (cs : List Char) : nameLength ('(' :: cs) = 0 := by
  rw [nameLength, if_neg (by decide), if_neg (by simp)]

/-- **A call is by the name in front of its parenthesis.** -/
theorem exists_callsBy {source front : String} {t : Token} {ts : List Token}
    (h : Reads (lex source) front (t :: ts))
    (hk : t.kind.opensParen ∨ ∃ terminated, t.kind = .url terminated) :
    ∃ name inside behind, CallsBy source front t name inside behind := by
  obtain ⟨c, w, z, -, hsource, hscan, htext, -⟩ := exists_scan_of_reads h
  by_cases hgroup : t.kind = .leftParen
  · have hone : t.text = String.singleton '(' :=
      (isSpelled_of_reads h t List.mem_cons_self).text_eq (by rw [hgroup]; rfl)
    rw [hone, String.toList_singleton] at htext
    obtain ⟨rfl, rfl⟩ := List.cons.inj htext
    refine ⟨"", "", String.ofList z, hk, ?_, ?_, hone, iff_of_true hgroup rfl,
      fun _ => onlySpace_empty, fun _ => List.not_mem_nil⟩
    · rw [← String.toList_inj, hsource]
      simp
    · rw [String.toList_append, String.toList_append]
      exact nameLength_paren _
  · have hkind : t.kind = .function ∨ ∃ terminated, t.kind = .url terminated := by
      refine hk.imp_left fun hopens => ?_
      cases hkind : t.kind with
      | function => rfl
      | leftParen => exact absurd hkind hgroup
      | _ => rw [hkind] at hopens; cases hopens
    have hnamed : t.kind.isNamed := by
      rcases hkind with hkind | ⟨_, hkind⟩ <;> rw [hkind] <;> rfl
    obtain ⟨hname, hscanNamed⟩ := scan_of_isNamed
      (show (scan c (w ++ z)).kind.isNamed by rwa [hscan])
    rw [hscan] at hscanNamed
    obtain ⟨rest, n, hdrop, hlength, hspace, hnone⟩ := exists_of_scanNamed (c :: (w ++ z))
      (by rwa [← hscanNamed])
    rw [← hscanNamed] at hlength hspace hnone
    have hlength : (c :: w).length = nameLength (c :: (w ++ z)) + 1 + n := hlength
    have hle := nameLength_le (c :: (w ++ z))
    have hpos := nameLength_pos hname
    have hcut :
        (c :: (w ++ z)).take (nameLength (c :: (w ++ z))) ++ '(' :: rest = c :: (w ++ z) := by
      rw [← hdrop, List.take_append_drop]
    have htoken : t.text.toList = (c :: (w ++ z)).take (c :: w).length := by
      rw [htext, ← List.cons_append, List.take_left]
    refine ⟨String.ofList ((c :: (w ++ z)).take (nameLength (c :: (w ++ z)))),
      String.ofList (rest.take n), String.ofList rest, hk, ?_, ?_, ?_,
      iff_of_false hgroup fun hempty => ?_, fun ho => ?_, fun ho => ?_⟩
    · rw [← String.toList_inj, hsource]
      simp only [String.toList_append, String.toList_ofList, List.append_assoc]
      exact congrArg (front.toList ++ ·) hcut.symm
    · simp only [String.toList_append, String.toList_ofList, String.length_ofList,
        List.length_take, Nat.min_eq_left hle]
      rw [List.append_assoc]
      exact congrArg nameLength hcut
    · rw [← String.toList_inj, htoken, hlength, Nat.add_assoc, List.take_add, hdrop, Nat.add_comm 1,
        List.take_succ_cons]
      simp
    · rw [← String.toList_inj, String.toList_ofList, String.toList_empty, List.take_eq_nil_iff]
        at hempty
      rcases hempty with hzero | hnil
      · exact absurd hzero (Nat.ne_of_gt hpos)
      · cases hnil
    · refine onlySpace_ofList (hspace ?_)
      rcases hkind with hkind | ⟨_, hkind⟩
      · exact hkind
      · rw [hkind] at ho
        cases ho
    · rw [String.toList_ofList]
      refine hnone fun hkind => ?_
      rw [show t.kind = .function from hkind] at ho
      cases ho

end Token

/-! ### Fronts -/

namespace Value

open Token (Reads StopsAt lex textOf)

/-- The text of a node that its front is in front of. -/
def Node.ownText : Node → String
  | .function _ name _ _ _ _ => name ++ "("
  | .divider _ mark _ _ => String.singleton mark
  | .word start text => (Node.word start text).print
  | .string start quote text unclosed => (Node.string start quote text unclosed).print
  | .space start text => (Node.space start text).print
  | .comment start text => (Node.comment start text).print

mutual

/-- The node and all below it in document order, each with what is printed in
front of its own text if `front` is printed in front of the node. -/
def Node.fronts (front : String) : Node → List (String × Node)
  | .function start name before arguments after unclosed =>
    (front, .function start name before arguments after unclosed) ::
      frontsAmong (front ++ name ++ "(" ++ before) arguments
  | .divider start mark before after => [(front ++ before, .divider start mark before after)]
  | .word start text => [(front, .word start text)]
  | .string start quote text unclosed => [(front, .string start quote text unclosed)]
  | .space start text => [(front, .space start text)]
  | .comment start text => [(front, .comment start text)]

/-- All nodes in document order with what is printed in front of their own text. -/
def frontsAmong (front : String) : List Node → List (String × Node)
  | [] => []
  | n :: ns => n.fronts front ++ frontsAmong (front ++ n.print) ns

end

mutual

theorem map_snd_fronts : ∀ (n : Node) (front : String) (depth : Nat),
    (n.fronts front).map Prod.snd = (n.outline depth).map Prod.snd
  | .function start name before arguments after unclosed, front, depth => by
    simp only [Node.fronts, Node.outline, List.map_cons,
      map_snd_frontsAmong arguments _ (depth + 1)]
  | .word start text, front, depth => by simp [Node.fronts, Node.outline]
  | .string start quote text unclosed, front, depth => by simp [Node.fronts, Node.outline]
  | .divider start mark before after, front, depth => by simp [Node.fronts, Node.outline]
  | .space start text, front, depth => by simp [Node.fronts, Node.outline]
  | .comment start text, front, depth => by simp [Node.fronts, Node.outline]

theorem map_snd_frontsAmong : ∀ (ns : List Node) (front : String) (depth : Nat),
    (frontsAmong front ns).map Prod.snd = (outline depth ns).map Prod.snd
  | [], front, depth => by simp [frontsAmong, outline]
  | n :: ns, front, depth => by
    simp only [frontsAmong, outline, List.map_append, map_snd_fronts n _ depth,
      map_snd_frontsAmong ns _ depth]

end

theorem standsBehind_self {front : String} {n : Node} (h : n.ownText = n.print) :
    StandsBehind front n.ownText (front ++ n.print) :=
  ⟨"", by rw [String.append_empty, h]⟩

mutual

theorem standsBehind_fronts : ∀ (n : Node) (front : String),
    ∀ p ∈ n.fronts front, StandsBehind p.1 p.2.ownText (front ++ n.print)
  | .function start name before arguments after unclosed, front, p, hp => by
    rw [Node.fronts, List.mem_cons] at hp
    rw [Node.print]
    rcases hp with rfl | hp
    · refine ⟨before ++ print arguments ++ after ++ (if unclosed then "" else ")"), ?_⟩
      simp only [Node.ownText, String.append_assoc]
    · have harguments := (standsBehind_frontsAmong arguments _ p hp).append
        (after ++ (if unclosed then "" else ")"))
      simpa only [String.append_assoc] using harguments
  | .divider start mark before after, front, p, hp => by
    rw [Node.fronts, List.mem_singleton] at hp
    subst hp
    exact ⟨after, by simp only [Node.print, Node.ownText, String.append_assoc]⟩
  | .word start text, front, p, hp => by
    rw [Node.fronts, List.mem_singleton] at hp
    exact hp ▸ standsBehind_self rfl
  | .string start quote text unclosed, front, p, hp => by
    rw [Node.fronts, List.mem_singleton] at hp
    exact hp ▸ standsBehind_self rfl
  | .space start text, front, p, hp => by
    rw [Node.fronts, List.mem_singleton] at hp
    exact hp ▸ standsBehind_self rfl
  | .comment start text, front, p, hp => by
    rw [Node.fronts, List.mem_singleton] at hp
    exact hp ▸ standsBehind_self rfl

theorem standsBehind_frontsAmong : ∀ (ns : List Node) (front : String),
    ∀ p ∈ frontsAmong front ns, StandsBehind p.1 p.2.ownText (front ++ print ns)
  | [], front, p, hp => by
    rw [frontsAmong] at hp
    cases hp
  | n :: ns, front, p, hp => by
    rw [frontsAmong, List.mem_append] at hp
    rw [print_cons, ← String.append_assoc]
    rcases hp with hp | hp
    · exact (standsBehind_fronts n front p hp).append _
    · exact standsBehind_frontsAmong ns _ p hp

end

/-! ### White space among nodes -/

def Node.isSpacing : Node → Bool
  | .space _ _ => true
  | _ => false

/-- Two nodes that can follow each other: a divider would take white space next
to it, and white space is one node. -/
def Node.Apart (m n : Node) : Prop :=
  (m.isSpacing → n.isSpacing = false ∧ n.isDivider = false) ∧ (m.isDivider → n.isSpacing = false)

/-- Nodes of which each can follow the one in front of it. -/
def IsRow (ns : List Node) : Prop :=
  ns.IsChain Node.Apart

/-- Nodes with no white space at the end, which the call around them would take. -/
structure IsInside (ns : List Node) : Prop where
  row : IsRow ns
  first : ∀ n ∈ ns.head?, n.isSpacing = false
  last : ∀ n ∈ ns.getLast?, n.isSpacing = false

theorem apart_of_call {m n : Node} (hs : m.isSpacing = false) (hd : m.isDivider = false) :
    m.Apart n :=
  ⟨fun h => absurd h (by rw [hs]; decide), fun h => absurd h (by rw [hd]; decide)⟩

/-- Behind the white space that a call takes at the start of its arguments comes
no other. -/
theorem IsRow.takeFirstSpace {ns : List Node} (h : IsRow ns) :
    IsRow (takeFirstSpace ns).2 ∧ ∀ n ∈ (takeFirstSpace ns).2.head?, n.isSpacing = false := by
  unfold Value.takeFirstSpace
  split
  next start text ns =>
    obtain ⟨hhead, hrow⟩ := List.isChain_cons.mp h
    exact ⟨hrow, fun n hn => ((hhead n hn).1 rfl).1⟩
  next hne =>
    refine ⟨h, fun n hn => ?_⟩
    obtain ⟨ns, rfl⟩ := List.head?_eq_some_iff.mp hn
    cases n with
    | space start text => exact absurd rfl (hne start text ns)
    | _ => rfl

/-- What a call takes at the end of its arguments. -/
theorem takeLastSpace_cases (ns : List Node) :
    (takeLastSpace ns = (ns, "") ∧ ∀ n ∈ ns.getLast?, n.isSpacing = false) ∨
      ∃ start, ns = (takeLastSpace ns).1 ++ [.space start (takeLastSpace ns).2] := by
  fun_induction takeLastSpace ns with
  | case1 => exact .inl ⟨rfl, by rintro n ⟨⟩⟩
  | case2 start text => exact .inr ⟨start, rfl⟩
  | case3 n ns hne ih =>
    rcases ih with ⟨heq, hlast⟩ | ⟨start, hns⟩
    · refine .inl ⟨by rw [heq], fun m hm => ?_⟩
      cases ns with
      | nil =>
        cases hm
        cases n with
        | space start text => exact absurd rfl (hne start text rfl)
        | _ => rfl
      | cons u us => exact hlast m (by rwa [List.getLast?_cons_cons] at hm)
    · exact .inr ⟨start, congrArg (n :: ·) hns⟩

/-- What is left of the arguments has no white space at its ends. -/
theorem IsRow.isInside {ns : List Node} (h : IsRow ns) :
    IsInside (takeLastSpace (Value.takeFirstSpace ns).2).1 := by
  obtain ⟨hrow, hfirst⟩ := h.takeFirstSpace
  generalize (Value.takeFirstSpace ns).2 = arguments at hrow hfirst
  rcases takeLastSpace_cases arguments with ⟨heq, hlast⟩ | ⟨start, heq⟩
  · rw [heq]
    exact ⟨hrow, hfirst, hlast⟩
  · rw [heq] at hrow hfirst
    obtain ⟨hrow, -, hends⟩ := List.isChain_append.mp hrow
    refine ⟨hrow, fun n hn => hfirst n ?_, fun n hn => ?_⟩
    · rw [List.head?_append, Option.mem_def.mp hn]
      rfl
    · cases hn' : n.isSpacing with
      | false => rfl
      | true => exact absurd ((hends n hn _ rfl).1 hn').1 Bool.noConfusion

/-! ### Faithful nodes -/

/-- How the name of a call and the white space behind its parenthesis come from
the source: a token of the source starts where the call does and calls by `ident`,
perhaps with a `colon` in front of it. The call starts behind the colon, and its
text is cut at the first parenthesis, which may be one that is escaped in `ident`. -/
structure IsHead (source front colon ident : String) (start : Nat) (name before : String) :
    Prop where
  colon_eq : colon = "" ∨ colon = ":" ∧ ident ≠ ""
  token : ∃ t ∈ lex source, t.start = start ∧
    ∃ inside behind, Token.CallsBy source (front ++ colon) t ident inside behind
  start_eq : start = (front ++ colon).utf8ByteSize
  name_eq : name = colon ++ String.ofList (ident.toList.takeWhile (· ≠ '('))
  name_iff : name = colon ++ ident ↔ '(' ∉ ident.toList
  before_iff : OnlySpace before ↔ '(' ∉ ident.toList

/-- The node starts where its front stops and holds what it should. -/
def Node.IsFaithful (source front : String) : Node → Prop
  | .word start text => start = front.utf8ByteSize ∧ text ≠ ""
  | .string start _ _ _ => start = front.utf8ByteSize
  | .comment start _ => start = front.utf8ByteSize
  | .space start text => start = front.utf8ByteSize ∧ text ≠ "" ∧ OnlySpace text
  | .divider start _ before after =>
    start = front.utf8ByteSize ∧ OnlySpace before ∧ OnlySpace after
  | .function start name before arguments after _ =>
    (∃ colon ident, IsHead source front colon ident start name before) ∧ OnlySpace after ∧
      IsInside arguments

/-- All nodes are faithful, those inside of calls too. -/
def AllFaithful (source front : String) (ns : List Node) : Prop :=
  ∀ p ∈ frontsAmong front ns, p.2.IsFaithful source p.1

theorem takeWhile_paren (name inside : List Char) :
    (name ++ '(' :: inside).takeWhile (· ≠ '(') = name.takeWhile (· ≠ '(') := by
  induction name with
  | nil => rfl
  | cons c cs ih =>
    rw [List.cons_append, List.takeWhile_cons, List.takeWhile_cons]
    split
    · exact congrArg (c :: ·) ih
    · rfl

/-- A text without a parenthesis is what stands in front of the first one. -/
theorem takeWhile_paren_eq_iff (name : List Char) :
    name.takeWhile (· ≠ '(') = name ↔ '(' ∉ name := by
  rw [List.takeWhile_eq_self_iff]
  refine ⟨fun h hmem => absurd (h '(' hmem) (by decide), fun h c hc => ?_⟩
  exact decide_eq_true fun he => h (he ▸ hc)

/-- Behind the first parenthesis stands nothing but white space only if the name
has none. -/
theorem onlySpace_behind_paren_iff {name inside : List Char} (h : ∀ c ∈ inside, isSpace c) :
    (∀ c ∈ ((name ++ '(' :: inside).dropWhile (· ≠ '(')).drop 1, isSpace c) ↔ '(' ∉ name := by
  induction name with
  | nil => simpa using h
  | cons c cs ih =>
    by_cases hc : c = '('
    · subst hc
      refine iff_of_false (fun hall => ?_) fun hnone => hnone List.mem_cons_self
      exact absurd (hall '(' (by simp)) (by decide)
    · rw [List.cons_append, List.dropWhile_cons_of_pos (by simpa using hc), ih, List.mem_cons,
        or_iff_right fun he => hc he.symm]

theorem onlySpace_splitCall_iff {text ident inside : String} (ht : text = ident ++ "(" ++ inside)
    (h : OnlySpace inside) : OnlySpace (splitCall text).2 ↔ '(' ∉ ident.toList := by
  have hlist : text.toList = ident.toList ++ '(' :: inside.toList := by
    rw [ht]
    simp
  rw [← onlySpace_behind_paren_iff h, splitCall, OnlySpace, String.toList_ofList, hlist]

/-- The head of a call that is read from its token. -/
theorem isHead_of_callsBy {source front colon ident inside behind before : String} {t : Token}
    {ts : List Token} (hcolon : colon = "" ∨ colon = ":" ∧ ident ≠ "")
    (ht : Reads (lex source) (front ++ colon) (t :: ts))
    (h : Token.CallsBy source (front ++ colon) t ident inside behind)
    (hbefore : OnlySpace before ↔ '(' ∉ ident.toList) :
    IsHead source front colon ident t.start (colon ++ (splitCall t.text).1) before := by
  have hname : (splitCall t.text).1 = String.ofList (ident.toList.takeWhile (· ≠ '(')) := by
    rw [splitCall, h.text_eq]
    simp only [String.toList_append, List.append_assoc]
    exact congrArg String.ofList (takeWhile_paren ident.toList inside.toList)
  have hmem : t ∈ lex source :=
    Sheet.forall_mem_of_reads ht (p := (· ∈ lex source)) (fun _ => id) t List.mem_cons_self
  refine ⟨hcolon, ⟨t, hmem, rfl, inside, behind, h⟩, Token.start_of_reads ht, by rw [hname], ?_,
    hbefore⟩
  rw [hname, String.append_right_inj, ← takeWhile_paren_eq_iff, ← String.toList_inj,
    String.toList_ofList]

/-- A url is cut at its parenthesis, and the white space at both ends of what is
inside is left out of the word. -/
theorem urlNode_cut (t : Token) (terminated : Bool) :
    ∃ before word after, OnlySpace before ∧ OnlySpace after ∧
      urlNode t terminated = .function t.start (splitCall t.text).1 before
        (if word = "" then []
          else [.word (t.start + (splitCall t.text).1.utf8ByteSize + 1 + before.utf8ByteSize) word])
        after (!terminated) := by
  let inside := (t.text.toList.dropWhile (· ≠ '(')).drop 1
  let body := if terminated then inside.dropLast else inside
  let word := dropEndWhile isSpace (body.dropWhile isSpace)
  have hafter : (body.dropWhile isSpace).drop word.length =
      (body.dropWhile isSpace).rtakeWhile isSpace := by
    have hcut := List.rdropWhile_append_rtakeWhile (p := isSpace) (l := body.dropWhile isSpace)
    calc (body.dropWhile isSpace).drop word.length
        = (word ++ (body.dropWhile isSpace).rtakeWhile isSpace).drop word.length :=
          congrArg (List.drop word.length) hcut.symm
      _ = (body.dropWhile isSpace).rtakeWhile isSpace := List.drop_left
  refine ⟨String.ofList (body.takeWhile isSpace), String.ofList word,
    String.ofList ((body.dropWhile isSpace).drop word.length),
    onlySpace_ofList fun c hc => List.mem_takeWhile_imp hc,
    onlySpace_ofList fun c hc => List.mem_rtakeWhile_imp (hafter ▸ hc), ?_⟩
  have hempty : (String.ofList word = "") = (word.isEmpty = true) := by
    rw [← String.toList_inj, String.toList_ofList, List.isEmpty_iff]
    rfl
  simp only [hempty]
  rfl

theorem faithful_urlNode {source front : String} {t : Token} {ts : List Token} {terminated : Bool}
    (h : Reads (lex source) front (t :: ts)) (hk : t.kind = .url terminated) :
    ∀ p ∈ (urlNode t terminated).fronts front, p.2.IsFaithful source p.1 := by
  obtain ⟨ident, inside, behind, hcalls⟩ := Token.exists_callsBy h (.inr ⟨terminated, hk⟩)
  obtain ⟨before, word, after, hbefore, hafter, hnode⟩ := urlNode_cut t terminated
  have hstart := Token.start_of_reads h
  have hnone := hcalls.not_mem (by rw [hk]; rfl)
  intro p hp
  rw [hnode, Node.fronts, List.mem_cons] at hp
  rcases hp with rfl | hp
  · refine ⟨⟨"", ident, ?_⟩, hafter, ?_⟩
    · rw [← String.empty_append (s := (splitCall t.text).1)]
      exact isHead_of_callsBy (.inl rfl) (by rwa [String.append_empty])
        (by rwa [String.append_empty]) (iff_of_true hbefore hnone)
    · split
      · exact ⟨.nil, by rintro n ⟨⟩, by rintro n ⟨⟩⟩
      · exact ⟨.singleton _, fun n hn => by cases hn; rfl, fun n hn => by cases hn; rfl⟩
  · split at hp
    next => cases hp
    next hne =>
      rw [frontsAmong, frontsAmong, Node.fronts, List.append_nil, List.mem_singleton] at hp
      subst hp
      refine ⟨?_, hne⟩
      simp only [String.utf8ByteSize_append, hstart]
      rfl

theorem onlySpace_textOf {ts : List Token} (h : ∀ t ∈ ts, OnlySpace t.text) :
    OnlySpace (textOf ts) := by
  induction ts with
  | nil => exact onlySpace_empty
  | cons t ts ih =>
    obtain ⟨ht, hts⟩ := List.forall_mem_cons.mp h
    exact ht.append (ih hts)

section Leaf

variable {source front : String} {t : Token} {ts : List Token}

theorem onlySpace_blanks (h : Reads (lex source) front ts) :
    OnlySpace (textOf (ts.takeWhile Token.isWhitespace)) := by
  refine onlySpace_textOf fun u hu => ?_
  have hmem := Sheet.forall_mem_of_reads h (p := (· ∈ lex source)) fun _ => id
  exact Token.onlySpace_of_mem_lex (hmem u ((List.takeWhile_sublist _).mem hu))
    (List.mem_takeWhile_imp hu)

/-- A node without arguments is faithful. -/
theorem faithful_leaf (h : Reads (lex source) front (t :: ts)) :
    ∀ p ∈ (leaf t ts).1.fronts front, p.2.IsFaithful source p.1 := by
  have hstart := Token.start_of_reads h
  have hmem : t ∈ lex source :=
    Sheet.forall_mem_of_reads h (p := (· ∈ lex source)) (fun _ => id) t List.mem_cons_self
  have htext := Token.text_ne_empty_of_mem_lexFrom hmem
  have hspace (hk : t.kind = .whitespace) : OnlySpace t.text :=
    Token.onlySpace_of_mem_lex hmem (decide_eq_true hk)
  unfold leaf
  split
  next hk =>
    split
    next =>
      rw [Node.fronts, List.forall_mem_singleton]
      exact ⟨hstart, htext, hspace hk⟩
    next d rest =>
      split
      next mark hm =>
        have hd := h.trans (Reads.head t (d :: rest))
        dsimp only
        rw [Node.fronts, List.forall_mem_singleton]
        exact ⟨Token.start_of_reads hd, hspace hk, onlySpace_blanks (hd.trans (Reads.head d rest))⟩
      next =>
        rw [Node.fronts, List.forall_mem_singleton]
        exact ⟨hstart, htext, hspace hk⟩
  next =>
    rw [Node.fronts, List.forall_mem_singleton]
    exact hstart
  next =>
    rw [stringNode, Node.fronts, List.forall_mem_singleton]
    exact hstart
  next terminated hk => exact faithful_urlNode h hk
  next =>
    rw [Node.fronts, List.forall_mem_singleton]
    exact ⟨hstart, htext⟩
  next =>
    split
    next mark hm =>
      dsimp only
      rw [Node.fronts, List.forall_mem_singleton, String.append_empty]
      exact ⟨hstart, onlySpace_empty, onlySpace_blanks (h.trans (Reads.head t ts))⟩
    next =>
      rw [Node.fronts, List.forall_mem_singleton]
      exact ⟨hstart, fun hempty => htext (String.append_eq_empty_iff.mp hempty).1⟩

/-- White space and dividers come from tokens of their own. -/
structure StartsLike (ts : List Token) (n : Node) : Prop where
  space : n.isSpacing → ∃ t ∈ ts.head?, t.isWhitespace
  divider : n.isDivider → ∃ t ∈ ts.head?, t.isWhitespace ∨ (dividerMark? t.kind).isSome

theorem startsLike_of_not {n : Node} (hs : n.isSpacing = false) (hd : n.isDivider = false) :
    StartsLike ts n := by
  constructor
  · rw [hs]
    exact Bool.noConfusion
  · rw [hd]
    exact Bool.noConfusion

theorem startsLike_leaf (t : Token) (ts : List Token) : StartsLike (t :: ts) (leaf t ts).1 := by
  unfold leaf
  split
  next hk =>
    have hblank : t.isWhitespace := decide_eq_true hk
    exact ⟨fun _ => ⟨t, rfl, hblank⟩, fun _ => ⟨t, rfl, .inl hblank⟩⟩
  next => exact startsLike_of_not rfl rfl
  next => exact startsLike_of_not rfl rfl
  next => exact startsLike_of_not rfl rfl
  next => exact startsLike_of_not rfl rfl
  next =>
    split
    next mark hm => exact ⟨Bool.noConfusion, fun _ => ⟨t, rfl, .inr (by rw [hm]; rfl)⟩⟩
    next => exact startsLike_of_not rfl rfl

/-- White space is a node only if no divider follows. -/
theorem leaf_of_isSpacing : (leaf t ts).1.isSpacing →
    t.isWhitespace ∧ (leaf t ts).2 = 0 ∧ ∀ u ∈ ts.head?, dividerMark? u.kind = none := by
  unfold leaf
  split
  next hk =>
    have hblank : t.isWhitespace := decide_eq_true hk
    split
    next => exact fun _ => ⟨hblank, rfl, by rintro u ⟨⟩⟩
    next d rest =>
      split
      next => exact Bool.noConfusion
      next hm => exact fun _ => ⟨hblank, rfl, fun u hu => by cases hu; exact hm⟩
  next => exact Bool.noConfusion
  next => exact Bool.noConfusion
  next => exact Bool.noConfusion
  next => exact Bool.noConfusion
  next => split <;> exact Bool.noConfusion

/-- A divider takes the white space behind it. -/
theorem leaf_of_isDivider : (leaf t ts).1.isDivider →
    ∃ us : List Token, ts.drop (leaf t ts).2 = us.dropWhile Token.isWhitespace := by
  unfold leaf
  split
  next =>
    split
    next => exact Bool.noConfusion
    next d rest =>
      split
      next => exact fun _ => ⟨rest, by
        simp only [Nat.add_comm 1, List.drop_succ_cons, Sheet.drop_length_takeWhile]⟩
      next => exact Bool.noConfusion
  next => exact Bool.noConfusion
  next => exact Bool.noConfusion
  next => exact Bool.noConfusion
  next => exact Bool.noConfusion
  next =>
    split
    next => exact fun _ => ⟨ts, Sheet.drop_length_takeWhile ..⟩
    next => exact Bool.noConfusion

/-- What can stand behind a node without arguments. -/
theorem apart_leaf (h : Reads (lex source) front (t :: ts)) {n : Node}
    (hn : StartsLike (ts.drop (leaf t ts).2) n) : (leaf t ts).1.Apart n := by
  refine ⟨fun hs => ?_, fun hd => ?_⟩
  · obtain ⟨hblank, hzero, hmark⟩ := leaf_of_isSpacing hs
    rw [hzero, List.drop_zero] at hn
    have hnot (u : Token) (hu : u ∈ ts.head?) : u.isWhitespace = false := by
      obtain ⟨rest, rfl⟩ := List.head?_eq_some_iff.mp hu
      exact Token.not_isWhitespace_of_reads h hblank
    constructor
    · by_contra hs'
      obtain ⟨u, hu, hblank'⟩ := hn.space (by simpa using hs')
      rw [hnot u hu] at hblank'
      cases hblank'
    · by_contra hd'
      obtain ⟨u, hu, hblank' | hmark'⟩ := hn.divider (by simpa using hd')
      · rw [hnot u hu] at hblank'
        cases hblank'
      · rw [hmark u hu] at hmark'
        cases hmark'
  · obtain ⟨us, hus⟩ := leaf_of_isDivider hd
    rw [hus] at hn
    by_contra hs'
    obtain ⟨u, hu, hblank⟩ := hn.space (by simpa using hs')
    have hnot := List.head?_dropWhile_not Token.isWhitespace us
    rw [Option.mem_def.mp hu] at hnot
    simp [hblank] at hnot

end Leaf

/-! ### Calls -/

theorem allFaithful_cons {source front : String} {n : Node} {ns : List Node} :
    AllFaithful source front (n :: ns) ↔
      (∀ p ∈ n.fronts front, p.2.IsFaithful source p.1) ∧
        AllFaithful source (front ++ n.print) ns := by
  rw [AllFaithful, frontsAmong, List.forall_mem_append]
  rfl

namespace AllFaithful

variable {source front : String} {ns : List Node}

theorem of_append {ms : List Node} (h : AllFaithful source front (ns ++ ms)) :
    AllFaithful source front ns ∧ AllFaithful source (front ++ print ns) ms := by
  induction ns generalizing front with
  | nil =>
    rw [print_nil, String.append_empty]
    exact ⟨List.forall_mem_nil _, h⟩
  | cons n ns ih =>
    obtain ⟨hn, hns⟩ := allFaithful_cons.mp h
    obtain ⟨hns, hms⟩ := ih hns
    rw [print_cons, ← String.append_assoc]
    exact ⟨allFaithful_cons.mpr ⟨hn, hns⟩, hms⟩

theorem takeFirstSpace (h : AllFaithful source front ns) :
    AllFaithful source (front ++ (takeFirstSpace ns).1) (takeFirstSpace ns).2 ∧
      OnlySpace (Value.takeFirstSpace ns).1 := by
  unfold Value.takeFirstSpace
  split
  next start text ns =>
    obtain ⟨hspace, hns⟩ := allFaithful_cons.mp h
    rw [Node.fronts, List.forall_mem_singleton] at hspace
    exact ⟨hns, hspace.2.2⟩
  next =>
    rw [String.append_empty]
    exact ⟨h, onlySpace_empty⟩

theorem takeLastSpace (h : AllFaithful source front ns) :
    AllFaithful source front (takeLastSpace ns).1 ∧ OnlySpace (Value.takeLastSpace ns).2 := by
  rcases takeLastSpace_cases ns with ⟨heq, -⟩ | ⟨start, heq⟩
  · rw [heq]
    exact ⟨h, onlySpace_empty⟩
  · rw [heq] at h
    obtain ⟨hns, hspace⟩ := h.of_append
    rw [allFaithful_cons, Node.fronts, List.forall_mem_singleton] at hspace
    exact ⟨hns, hspace.1.2.2⟩

end AllFaithful

/-- An opening is a colon perhaps, which then stands in front of a function, and
the token that opens the parentheses. -/
theorem colon_of_opening? {ts : List Token} {o : Opening} (h : opening? ts = some o)
    (hs : ∀ t ∈ ts, t.IsSpelled) :
    Reads ts o.colon (o.opener :: o.body) ∧ o.opener.kind.opensParen ∧
      (o.colon = "" ∨ o.colon = ":" ∧ o.opener.kind = .function) := by
  rcases opening?_cases h with ⟨hcolon, hts, ho⟩ | ⟨t, hk, hcolon, hts, ho⟩
  · rw [hcolon, hts]
    exact ⟨Reads.nil _, ho, .inl rfl⟩
  · have ht : t.IsSpelled := hs t (by rw [hts]; exact List.mem_cons_self)
    have htext := ht.text_eq (c := ':') (by rw [hk]; rfl)
    rw [hcolon, hts]
    exact ⟨Reads.head t _, by rw [ho]; rfl, .inr ⟨htext, ho⟩⟩

/-- A call is faithful if its arguments are. -/
theorem faithful_call {source front : String} {ts : List Token} {o : Opening}
    {arguments : List Node} (h : Reads (lex source) front ts) (ho : opening? ts = some o)
    (harguments : AllFaithful source (front ++ (o.colon ++ o.opener.text)) arguments)
    (hrow : IsRow arguments) (unclosed : Bool) :
    ∀ p ∈ (o.call arguments unclosed).fronts front, p.2.IsFaithful source p.1 := by
  obtain ⟨hcolon, hopens, hfolded⟩ := colon_of_opening? ho (Token.isSpelled_of_reads h)
  have hopener := h.trans hcolon
  obtain ⟨ident, inside, behind, hcalls⟩ := Token.exists_callsBy hopener (.inl hopens)
  obtain ⟨hfirst, hfirstSpace⟩ := harguments.takeFirstSpace
  obtain ⟨hlast, hlastSpace⟩ := hfirst.takeLastSpace
  have htext : (splitCall o.opener.text).1 ++ "(" ++ (splitCall o.opener.text).2 = o.opener.text :=
    splitCall_append (by rw [hcalls.text_eq]; simp)
  intro p hp
  rw [Opening.call, Node.fronts, List.mem_cons] at hp
  rcases hp with rfl | hp
  · refine ⟨⟨o.colon, ident, isHead_of_callsBy ?_ hopener hcalls ?_⟩, hlastSpace,
      hrow.isInside⟩
    · refine hfolded.imp_right fun hc => ⟨hc.1, fun hempty => ?_⟩
      have hgroup := hcalls.group_iff.mpr hempty
      rw [hc.2] at hgroup
      cases hgroup
    · rw [hfirstSpace.append_iff]
      exact onlySpace_splitCall_iff hcalls.text_eq (hcalls.onlySpace hopens)
  · refine hlast p ?_
    rw [← htext]
    simpa only [String.append_assoc] using hp

/-! ### Whole values -/

/-- **What is read is faithful**, and it is a row whose first node comes from the
first token. -/
theorem faithful_parseNodes {source : String} {limit depth : Nat} {nested : Bool}
    {ts : List Token} {ns : Nodes ts.length} (h : parseNodes limit depth nested ts = .ok ns)
    {front : String} (hts : Reads (lex source) front ts) :
    AllFaithful source front ns.nodes ∧ IsRow ns.nodes ∧
      ∀ n ∈ ns.nodes.head?, StartsLike ts n := by
  fun_induction parseNodes limit depth nested ts generalizing front with
  | case1 =>
    cases h
    exact ⟨List.forall_mem_nil _, .nil, by rintro n ⟨⟩⟩
  | case2 =>
    cases h
    exact ⟨List.forall_mem_nil _, .nil, by rintro n ⟨⟩⟩
  | case3 depth nested t rest _ _ node n hleaf ih =>
    obtain ⟨ns', hns, hcons⟩ := bind_eq_ok.mp h
    cases hcons
    have hread := reads_leaf t rest (Token.isSpelled_of_reads hts)
    have hfaithful := faithful_leaf hts
    have hlike := startsLike_leaf t rest
    have hapart := fun n hn => apart_leaf hts (n := n) hn
    rw [hleaf] at hread hfaithful hlike hapart
    -- what can follow is decided by the first token left, which the next node starts with
    obtain ⟨hmore, hrow, hhead⟩ := ih hns (hts.trans hread)
    refine ⟨allFaithful_cons.mpr ⟨hfaithful, hmore⟩, ?_, fun m hm => ?_⟩
    · exact List.isChain_cons.mpr ⟨fun m hm => hapart m (hhead m hm), hrow⟩
    · cases hm
      exact hlike
  | case4 => cases h
  | case5 depth nested t rest _ o ho _ _ ih ih' =>
    obtain ⟨arguments, hargs, h⟩ := bind_eq_ok.mp h
    obtain ⟨ns', hns, hcons⟩ := bind_eq_ok.mp h
    cases hcons
    have hs := Token.isSpelled_of_reads hts
    have hbody := hts.trans (reads_opening? ho).1
    obtain ⟨hread, hstop, -⟩ := reads_parseNodes hargs (Token.isSpelled_of_reads hbody)
    obtain ⟨harguments, hrow, -⟩ := ih hargs hbody
    obtain ⟨hmore, hrow', -⟩ := ih' arguments hns (hts.trans (reads_call ho hs hread hstop))
    have hcall := faithful_call hts ho harguments hrow arguments.rest.isEmpty
    refine ⟨allFaithful_cons.mpr ⟨hcall, hmore⟩, ?_, fun m hm => ?_⟩
    · exact List.isChain_cons.mpr ⟨fun m _ => apart_of_call rfl rfl, hrow'⟩
    · cases hm
      exact startsLike_of_not rfl rfl

/-- **The nodes of a value are faithful to its source.** They are all that are
printed behind their fronts, and white space is a node only where no divider and
no call takes it. A call has the name that stands in front of its parenthesis, and
nothing but white space behind it, exactly if no escaped parenthesis is in that
name; and it starts behind a colon that joins the name. -/
theorem nodes_faithful {source : String} {ns : List Node} (h : parse source = .ok ns) :
    IsRow ns ∧ (frontsAmong "" ns).map Prod.snd = (outline 0 ns).map Prod.snd ∧
      ∀ p ∈ frontsAmong "" ns, p.2.IsFaithful source p.1 ∧
        ∃ behind, source = p.1 ++ p.2.ownText ++ behind := by
  have hprint := print_parseWithin h
  rw [parse, parseWithin] at h
  cases hp : parseNodes nestingLimit 0 false (lex source) with
  | error e =>
    rw [hp] at h
    cases h
  | ok nodes =>
    rw [hp] at h
    cases h
    obtain ⟨hfaithful, hrow, -⟩ := faithful_parseNodes hp (Reads.nil (lex source))
    refine ⟨hrow, map_snd_frontsAmong .., fun p hmem => ⟨hfaithful p hmem, ?_⟩⟩
    have hfront := standsBehind_frontsAmong nodes.nodes "" p hmem
    rwa [String.empty_append, hprint] at hfront

/-- A letter of two bytes, dividers, a colon in front of a call, white space at both
ends of arguments, a url with white space, and an escaped parenthesis in a name. -/
theorem nodes_faithful_mixed :
    ∃ ns, parse "é , b/ :f( url( x\\) ) 1px)/* */ g\\(( url( 'u\\'" = .ok ns ∧
      IsRow ns ∧ (frontsAmong "" ns).map Prod.snd = (outline 0 ns).map Prod.snd ∧
        ∀ p ∈ frontsAmong "" ns,
          p.2.IsFaithful "é , b/ :f( url( x\\) ) 1px)/* */ g\\(( url( 'u\\'" p.1 ∧
            ∃ behind, "é , b/ :f( url( x\\) ) 1px)/* */ g\\(( url( 'u\\'" =
              p.1 ++ p.2.ownText ++ behind :=
  exists_ok_of_isOk (by decide +kernel) fun _ h => nodes_faithful h

/-- The name in front of the parenthesis is `g\(`, and the call has the name `g\`. And
a call with a colon in front of its name starts at byte 1, behind the colon. -/
theorem escaped_name_cut :
    (∃ ns, parse "g\\((x)" = .ok ns ∧ ns.map Node.functionName? = [some "g\\"] ∧
        Token.nameLength "g\\((x)".toList = "g\\(".length) ∧
      ∃ ns, parse ":f(x)" = .ok ns ∧ ns.map Node.functionName? = [some ":f"] ∧
        ns.map Node.start = [1] := by
  constructor
  · obtain ⟨ns, hns, hname⟩ := exists_ok_of_any (x := parse "g\\((x)")
      (p := fun ns => ns.map Node.functionName? = [some "g\\"]) (by decide +kernel)
    exact ⟨ns, hns, of_decide_eq_true hname, by decide +kernel⟩
  · obtain ⟨ns, hns, hcall⟩ := exists_ok_of_any (x := parse ":f(x)")
      (p := fun ns => ns.map Node.functionName? = [some ":f"] ∧ ns.map Node.start = [1])
      (by decide +kernel)
    exact ⟨ns, hns, of_decide_eq_true hcall⟩

end Value
end StyleScope
