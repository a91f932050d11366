/-
# The names that are read in a text

The classes and ids of a list are read off its tokens, with what their escapes
stand for (`namesIn`), and they are those of the tree that a reader makes of it
(`names_of_parse`). The reader cuts white space off a name where that ends an
escape at the end of a compound, which changes nothing about what the name
stands for (`unescape_append_space`). Behind an escape that is itself white
space the number of backslashes is odd, and nothing is cut off (`endSlashes`).

Tokens that differ only in how names are escaped, and in white space behind
them, are read as the same names (`Similar.namesAmong_eq`).

Key definitions: `Token.endSlashes`, `Selector.Tree.names`, `Selector.namesIn`,
`Selector.Name.IsWhole`, `Selector.Similar`.
Key theorems: `Token.unescape_append_space`, `Selector.Parsed.names`,
`Selector.names_of_parse`, `Selector.Similar.namesAmong_eq`.
-/
import StyleScope.Proofs.AnimationNames
import StyleScope.Proofs.EscapedUrls
import StyleScope.Proofs.ResolvedTexts
import StyleScope.Proofs.SelectorGrammar

namespace StyleScope

open Text

namespace Token

/-! ### Names and their ends -/

section Ends

open Scope (isName_of_isHexDigit isName_of_isSpace ne_backslash_of_isName)

/-- How many backslashes stand at the end. -/
def endSlashes (cs : List Char) : Nat :=
  (cs.reverse.takeWhile (· = '\\')).length

theorem endSlashes_append {cs ds : List Char} (h : ∃ d ∈ ds, d ≠ '\\') :
    endSlashes (cs ++ ds) = endSlashes ds := by
  have hlt : (ds.reverse.takeWhile (· = '\\')).length ≠ ds.reverse.length := by
    intro hall
    obtain ⟨d, hd, hne⟩ := h
    have hself := (List.takeWhile_prefix (· = '\\')).eq_of_length hall
    have := List.mem_takeWhile_imp (hself ▸ List.mem_reverse.mpr hd)
    exact hne (by simpa using this)
  rw [endSlashes, endSlashes, List.reverse_append, List.takeWhile_append, if_neg hlt]

theorem endSlashes_append_of_all {cs ds : List Char} (h : ∀ d ∈ ds, d = '\\') :
    endSlashes (cs ++ ds) = ds.length + endSlashes cs := by
  rw [endSlashes, endSlashes, List.reverse_append, List.takeWhile_append_of_pos (by simpa using h),
    List.length_append, List.length_reverse]

/-- What stands in front leaves the number as it is, up to pairs, if its own
number is even. -/
theorem endSlashes_append_mod (ds : List Char) {cs : List Char} (h : endSlashes cs % 2 = 0) :
    endSlashes (cs ++ ds) % 2 = endSlashes ds % 2 := by
  by_cases hall : ∀ d ∈ ds, d = '\\'
  · have hnil := @endSlashes_append_of_all [] ds hall
    rw [List.nil_append] at hnil
    rw [endSlashes_append_of_all hall, hnil]
    have : endSlashes [] = 0 := rfl
    omega
  · push Not at hall
    rw [endSlashes_append hall]

theorem endSlashes_of_getLast? {cs : List Char} {c : Char} (h : cs.getLast? = some c)
    (hc : c ≠ '\\') : endSlashes cs = 0 := by
  obtain ⟨ds, rfl⟩ := List.getLast?_eq_some_iff.mp h
  rw [endSlashes_append ⟨c, List.mem_singleton_self c, hc⟩]
  simp [endSlashes, hc]

theorem isHexDigit_of_isSpace {c : Char} (hc : isSpace c) : isHexDigit c = false := by
  by_contra hh
  have hname := isName_of_isHexDigit (by simpa using hh)
  rw [isName_of_isSpace hc] at hname
  cases hname

theorem hexTailLength_append_space {n : Nat} {cs : List Char} {c : Char}
    (h : hexTailLength n (cs ++ [c]) = cs.length + 1) :
    (∀ d ∈ cs, isHexDigit d) ∧ hexTailLength n cs = cs.length := by
  induction cs generalizing n with
  | nil => exact ⟨by simp, by rw [hexTailLength]; rfl⟩
  | cons d cs ih =>
    rw [List.cons_append, List.length_cons] at h
    cases n with
    | zero =>
      rw [hexTailLength] at h
      split at h <;> omega
    | succ n =>
      rw [hexTailLength] at h
      by_cases hd : isHexDigit d
      · rw [if_pos hd] at h
        obtain ⟨hall, hlength⟩ := ih (n := n) (by omega)
        refine ⟨List.forall_mem_cons.mpr ⟨hd, hall⟩, ?_⟩
        rw [hexTailLength, if_pos hd, hlength, List.length_cons]
        omega
      · rw [if_neg hd] at h
        split at h <;> omega

/-- White space behind the characters does not belong to the escape at their
head, or the escape is made of all of them and the white space ends it. -/
theorem escapeLength_append_space {cs : List Char} (hne : cs ≠ []) (c : Char) :
    (escapeLength (cs ++ [c]) = escapeLength cs ∧ escapeLength cs ≤ cs.length) ∨
      (escapeLength (cs ++ [c]) = cs.length + 1 ∧ escapeLength cs = cs.length ∧
        ∀ d ∈ cs, isHexDigit d) := by
  by_cases hle : escapeLength (cs ++ [c]) ≤ cs.length
  · have hcut := escapeLength_cut hle
    exact .inl ⟨hcut.symm, by omega⟩
  · have hall : escapeLength (cs ++ [c]) = cs.length + 1 := by
      have := escapeLength_le (cs ++ [c])
      rw [List.length_append, List.length_singleton] at this
      omega
    obtain ⟨d, ds, rfl⟩ := List.exists_cons_of_ne_nil hne
    rw [List.cons_append, escapeLength, List.length_cons] at hall
    by_cases hd : isHexDigit d
    · rw [if_pos hd] at hall
      obtain ⟨hhex, hlength⟩ := @hexTailLength_append_space 5 ds c (by omega)
      refine .inr ⟨?_, ?_, List.forall_mem_cons.mpr ⟨hd, hhex⟩⟩
      · rw [List.cons_append, escapeLength, if_pos hd, List.length_cons]
        omega
      · rw [escapeLength, if_pos hd, hlength, List.length_cons]
        omega
    · rw [if_neg hd] at hall
      omega

theorem ne_backslash_of_mem_hexTail {n : Nat} {cs : List Char} :
    ∀ d ∈ cs.take (hexTailLength n cs), d ≠ '\\' := by
  have hspace {c : Char} (h : isSpace c) : c ≠ '\\' := by
    rintro rfl
    exact absurd h (by decide)
  fun_induction hexTailLength n cs with
  | case1 => simp
  | case2 c cs h => simpa using hspace h
  | case3 => simp
  | case4 n c cs h ih =>
    rw [Nat.add_comm, List.take_succ_cons]
    exact List.forall_mem_cons.mpr ⟨ne_backslash_of_isName (isName_of_isHexDigit h), ih⟩
  | case5 n c cs _ h => simpa using hspace h
  | case6 => simp

/-- What an escape takes behind its backslash does not change the number of
backslashes at the end, up to pairs. -/
theorem endSlashes_escape {cs : List Char} (hne : cs ≠ []) :
    endSlashes ('\\' :: cs.take (escapeLength cs)) % 2 = 0 := by
  obtain ⟨d, ds, rfl⟩ := List.exists_cons_of_ne_nil hne
  rw [escapeLength]
  by_cases hd : isHexDigit d
  · rw [if_pos hd, Nat.add_comm, List.take_succ_cons]
    have hall : ∀ e ∈ d :: ds.take (hexTailLength 5 ds), e ≠ '\\' :=
      List.forall_mem_cons.mpr
        ⟨ne_backslash_of_isName (isName_of_isHexDigit hd), ne_backslash_of_mem_hexTail⟩
    obtain ⟨e, he⟩ : ∃ e, (d :: ds.take (hexTailLength 5 ds)).getLast? = some e :=
      Option.isSome_iff_exists.mp (by simp)
    rw [endSlashes_of_getLast? (c := e) (by rw [List.getLast?_cons, he]; rfl)
      (hall e (List.mem_of_getLast? he))]
  · rw [if_neg hd]
    by_cases hs : d = '\\'
    · subst hs
      simp [endSlashes]
    · rw [endSlashes_of_getLast? (c := d) (by simp) hs]

theorem nameLength_of_isSpace {c : Char} (hc : isSpace c) : nameLength [c] = 0 := by
  have hb : c ≠ '\\' := by
    rintro rfl
    exact absurd hc (by decide)
  rw [nameLength, if_neg (by simp [isName_of_isSpace hc]), if_neg (by simp [hb])]

theorem nameLength_escape {cs : List Char} (h : escapes cs) :
    nameLength ('\\' :: cs) = 1 + escapeLength cs + nameLength (cs.drop (escapeLength cs)) := by
  rw [nameLength, if_neg (by decide), if_pos (by simp [h])]

/-- A name without the white space that ends an escape at its end. -/
theorem nameLength_of_append_space {w : List Char} {c : Char}
    (h : nameLength (w ++ [c]) = w.length + 1) (hs : endSlashes w % 2 = 0) :
    nameLength w = w.length := by
  fun_induction nameLength w with
  | case1 => rfl
  | case2 d ds hd ih =>
    rw [List.cons_append, nameLength, if_pos hd, List.length_cons] at h
    rw [← List.singleton_append, endSlashes_append_mod ds] at hs
    · rw [ih (by omega) hs, List.length_cons]
      omega
    · rw [endSlashes_of_getLast? rfl (ne_backslash_of_isName hd)]
  | case3 d ds hd he ih =>
    simp only [Bool.and_eq_true, decide_eq_true_eq] at he
    obtain ⟨rfl, he⟩ := he
    have hne : ds ≠ [] := by
      rintro rfl
      cases he
    rw [List.cons_append, nameLength_escape (escapes_mono _ he), List.length_cons] at h
    rcases escapeLength_append_space hne c with ⟨heq, hle⟩ | ⟨-, hall, -⟩
    · rw [heq, List.drop_append_of_le_length hle] at h
      have hparity := endSlashes_append_mod (ds.drop (escapeLength ds)) (endSlashes_escape hne)
      rw [List.cons_append, List.take_append_drop, hs] at hparity
      rw [ih (by rw [List.length_drop]; omega) hparity.symm, List.length_drop, List.length_cons]
      omega
    · rw [hall, List.drop_length, nameLength, List.length_cons]
      omega
  | case4 d ds hd he =>
    -- only a backslash alone can take white space for its escape
    rw [List.cons_append, nameLength, if_neg hd] at h
    split at h
    next he' =>
      cases ds with
      | nil =>
        simp only [Bool.and_eq_true, decide_eq_true_eq] at he'
        obtain ⟨rfl, -⟩ := he'
        simp [endSlashes] at hs
      | cons e es => exact absurd he' he
    next => cases h

theorem escaped_append_space {cs : List Char} {c : Char} (hc : isSpace c) (hne : cs ≠ []) :
    escaped (cs ++ [c]) = escaped cs := by
  have hdigits (n : Nat) (ds : List Char) :
      ((ds ++ [c]).take n).takeWhile isHexDigit = (ds.take n).takeWhile isHexDigit := by
    induction ds generalizing n with
    | nil => cases n <;> simp [isHexDigit_of_isSpace hc]
    | cons d ds ih =>
      cases n with
      | zero => rfl
      | succ n => simp only [List.cons_append, List.take_succ_cons, List.takeWhile_cons, ih]
  obtain ⟨d, ds, rfl⟩ := List.exists_cons_of_ne_nil hne
  rw [List.cons_append, escaped, escaped, hdigits]

/-- White space that ends an escape stands for nothing. -/
theorem unescape_append_space {w : List Char} {c : Char} (hc : isSpace c)
    (hw : nameLength w = w.length) (h : nameLength (w ++ [c]) = w.length + 1) :
    unescape (w ++ [c]) = unescape w := by
  fun_induction nameLength w with
  | case1 =>
    rw [List.nil_append, nameLength_of_isSpace hc] at h
    cases h
  | case2 d ds hd ih =>
    have hb := ne_backslash_of_isName hd
    rw [List.cons_append, nameLength, if_pos hd, List.length_cons] at h
    rw [List.length_cons] at hw
    rw [List.cons_append, unescape, if_neg hb, ih (by omega) (by omega), unescape, if_neg hb]
  | case3 d ds hd he ih =>
    simp only [Bool.and_eq_true, decide_eq_true_eq] at he
    obtain ⟨rfl, he⟩ := he
    have hne : ds ≠ [] := by
      rintro rfl
      cases he
    have hescaped := escaped_append_space hc hne
    rw [List.cons_append, nameLength_escape (escapes_mono _ he), List.length_cons] at h
    rw [List.length_cons] at hw
    rw [List.cons_append, unescape, if_pos rfl, unescape, if_pos rfl, hescaped]
    rcases escapeLength_append_space hne c with ⟨heq, hle⟩ | ⟨heq, hall, -⟩
    · rw [heq, List.drop_append_of_le_length hle] at h ⊢
      rw [ih (by rw [List.length_drop]; omega) (by rw [List.length_drop]; omega)]
    · rw [heq, hall, List.drop_length, ← List.length_singleton (a := c), ← List.length_append,
        List.drop_length]
  | case4 => cases hw

end Ends

/-! ### Tokens of names -/

theorem Finds.of_hash {c : Char} {cs : List Char} {l : Lexeme} {isIdent : Bool}
    (h : Finds c cs l) (hk : l.kind = .hash isIdent) :
    l.length = 1 + nameLength cs ∧ isIdent = startsName cs := by
  cases h with
  | hash => exact ⟨rfl, (Kind.hash.inj hk).symm⟩
  | comment =>
    have := isComment_scanComment cs.tail
    rw [Lexeme.kind_extend] at hk
    rw [hk] at this
    cases this
  | string =>
    rw [Lexeme.kind_extend] at hk
    rcases scanString_ends c cs with hbad | ⟨terminated, body, hk', -⟩
    · rw [hbad] at hk; cases hk
    · rw [hk'] at hk; cases hk
  | number =>
    have := isNumeric_scanNumber (c :: cs)
    rw [hk] at this
    cases this
  | named =>
    have := isNamed_scanNamed (c :: cs)
    rw [hk] at this
    cases this
  | single =>
    have := char?_punctuation c
    rw [show (punctuation? c).getD (.delim c) = .hash isIdent from hk] at this
    cases this
  | _ => cases hk

/-- An identifier is a name from end to end, and so is what stands behind the
number sign of a hash. -/
theorem nameLength_of_mem_lexFrom {start : Nat} {cs : List Char} {t : Token}
    (h : t ∈ lexFrom start cs) :
    (t.kind = .ident → nameLength t.text.toList = t.text.toList.length) ∧
      ∀ isIdent, t.kind = .hash isIdent →
        nameLength t.text.toList.tail = t.text.toList.tail.length := by
  obtain ⟨us, ts, hsplit⟩ := List.append_of_mem h
  obtain ⟨cs', -, hlex⟩ := lexFrom_eq_append hsplit
  obtain ⟨c, w, z, rfl, hlength, rfl, -⟩ := exists_of_lexFrom_eq_cons hlex.symm
  rw [String.toList_ofList]
  have hfinds := finds_scan c (w ++ z)
  constructor
  · intro hk
    have hn := (hfinds.of_ident hk).2
    rw [hlength, ← List.cons_append] at hn
    rw [nameLength_cut (y := z) (by omega), hn]
  · intro isIdent hk
    have hn := (hfinds.of_hash hk).1
    rw [hlength, List.length_cons] at hn
    rw [List.tail_cons, nameLength_cut (y := z) (by omega)]
    omega

end Token

namespace Selector

open Token (IsFiller isTrivia isWhitespace lexFrom nameLength textOf unescape)

/-! ### Names in a tree and names in a text -/

/-- The name with each escape replaced by what it stands for. -/
def Name.decoded (name : Name) : Name :=
  ⟨name.isId, String.ofList (unescape name.text.toList)⟩

mutual

/-- All classes and ids in a tree, in document order. -/
def Tree.names : Tree → List Name
  | .node kind _ _ children =>
    kind.name?.toList ++ if kind.isLeaf then [] else namesAlong children

def namesAlong : List Tree → List Name
  | [] => []
  | t :: ts => t.names ++ namesAlong ts

end

/-- The classes and ids that are read among tokens from the front to the end,
with their escapes decoded. What stands in brackets is no name, nor what stands
in parentheses but those of a pseudo-class. -/
def namesAmong : List Token → List Name
  | [] => []
  | t :: ts =>
    match ho : opening? (t :: ts) with
    | some o =>
      have := length_body_lt ho
      namesAmong o.body
    | none =>
      match simple t ts with
      | .ok (kind, n) => (kind.name?.map Name.decoded).toList ++ namesAmong (ts.drop n)
      | .error _ => namesAmong ts
termination_by ts => ts.length
decreasing_by
  · exact this
  · simp only [List.length_drop, List.length_cons]; omega
  · simp

/-- The classes and ids that are read in a text. -/
def namesIn (text : String) : List Name :=
  namesAmong (Token.lex text)

theorem namesAmong_of_opening {ts : List Token} {o : Opening} (h : opening? ts = some o) :
    namesAmong ts = namesAmong o.body := by
  cases ts with
  | nil => cases h
  | cons t ts =>
    rw [namesAmong]
    split
    next o' ho =>
      cases ho.symm.trans h
      rfl
    next ho => cases ho.symm.trans h

theorem namesAmong_of_simple {t : Token} {ts : List Token} {kind : Kind} {n : Nat}
    (ho : opening? (t :: ts) = none) (hs : simple t ts = .ok (kind, n)) :
    namesAmong (t :: ts) = (kind.name?.map Name.decoded).toList ++ namesAmong (ts.drop n) := by
  rw [namesAmong]
  split
  next o' ho' => cases ho.symm.trans ho'
  next => rw [hs]

theorem namesAmong_of_error {t : Token} {ts : List Token} {e : SyntaxError}
    (ho : opening? (t :: ts) = none) (hs : simple t ts = .error e) :
    namesAmong (t :: ts) = namesAmong ts := by
  rw [namesAmong]
  split
  next o' ho' => cases ho.symm.trans ho'
  next => rw [hs]

/-- Whether a token of this kind is no part of a simple selector: white space,
a comment, or what ends or joins compounds. -/
def separates (k : Token.Kind) : Bool :=
  k.isTrivia || (combinator? k).isSome || k = .comma || k = .rightParen

theorem namesAmong_of_separates {t : Token} (h : separates t.kind) (ts : List Token) :
    namesAmong (t :: ts) = namesAmong ts := by
  have hs : simple t ts = .ok (.tag t.text, 0) ∧ t.kind ≠ .colon := by
    rw [simple.eq_def]
    cases hk : t.kind with
    | delim c =>
      rw [hk] at h
      simp only [separates, Token.Kind.isTrivia, combinator?, Bool.false_or] at h
      have hc : c = '>' ∨ c = '+' ∨ c = '~' := by
        by_contra hno
        simp only [not_or] at hno
        simp [hno] at h
      rcases hc with rfl | rfl | rfl <;> exact ⟨rfl, by simp⟩
    | whitespace | comment | comma | rightParen => exact ⟨rfl, by simp⟩
    | _ => rw [hk] at h; cases h
  rw [namesAmong_of_simple (opening?_of_ne hs.2 ts) hs.1]
  rfl

theorem separates_of_isTrivia {t : Token} (h : t.isTrivia) : separates t.kind := by
  rw [isTrivia] at h
  simp [separates, h]

theorem namesAmong_dropWhile (ts : List Token) :
    namesAmong (ts.dropWhile isTrivia) = namesAmong ts := by
  induction ts with
  | nil => rfl
  | cons t ts ih =>
    rw [List.dropWhile_cons]
    split
    next ht => rw [ih, namesAmong_of_separates (separates_of_isTrivia ht)]
    next => rfl

/-! ### Reading names -/

theorem names_withSpaces (t : Tree) (spaces : Spaces) : (t.withSpaces spaces).names = t.names := by
  obtain ⟨kind, _, _, _⟩ := t
  simp only [Tree.withSpaces, Tree.names]

theorem namesAlong_append (ts us : List Tree) :
    namesAlong (ts ++ us) = namesAlong ts ++ namesAlong us := by
  induction ts with
  | nil => simp [namesAlong]
  | cons t ts ih => simp [namesAlong, ih]

theorem names_leaf {kind : Kind} (hk : kind.isLeaf) (spaces : Spaces) (start : Nat) :
    (Tree.leaf kind spaces start).names = kind.name?.toList := by
  rw [Tree.leaf, Tree.names, if_pos hk, List.append_nil]

/-- A node that can hold others has their names. -/
theorem names_of_not_isLeaf {t : Tree} (h : t.kind.isLeaf = false) :
    t.names = namesAlong t.children := by
  obtain ⟨kind, spaces, start, children⟩ := t
  change kind.isLeaf = false at h
  have hn : kind.name? = none := by
    cases kind with
    | className | idName => cases h
    | _ => rfl
  rw [Tree.names, hn, h]
  rfl

theorem names_of_isSpacing {t : Tree} (h : t.isSpacing) : t.names = [] := by
  obtain ⟨kind, spaces, start, children⟩ := t
  cases kind with
  | combinator c text => rw [Tree.names]; rfl
  | _ => cases h

theorem names_spacingNode (trivia : List Token) : (spacingNode trivia).names = [] := by
  unfold spacingNode
  split
  · exact names_leaf rfl _ _
  · exact names_leaf rfl _ _

section Parts

variable {m n : Nat} (t : Tree) (p : Parts m) (h : m ≤ n)

theorem namesAlong_cons : namesAlong (p.cons t h).nodes = t.names ++ namesAlong p.nodes := by
  unfold Parts.cons
  split
  next hnil => simp only [hnil, namesAlong, Tree.setAfter, names_withSpaces]
  next => rw [namesAlong]

theorem namesAlong_consSimple (isFirst : Bool) (trivia : List Token) :
    namesAlong (p.consSimple isFirst trivia t h).nodes = t.names ++ namesAlong p.nodes := by
  unfold Parts.consSimple
  split
  · rw [namesAlong_cons, Tree.setBefore, names_withSpaces]
  split
  · rw [namesAlong_cons]
  · rw [namesAlong_cons, namesAlong_cons, names_spacingNode, List.nil_append]

theorem namesAlong_alternatives (start : Nat) :
    namesAlong (p.alternatives start) = namesAlong p.nodes ++ namesAlong p.others := by
  rw [Parts.alternatives, namesAlong, Parts.alternative, Tree.names]
  rfl

end Parts

/-- The name has no open escape at its end. -/
def Name.IsWhole (name : Name) : Prop :=
  nameLength name.text.toList = name.text.toList.length

/-- What the reader of selectors looks for at the end of a name. -/
theorem escapeEnd?_eq_some {name : String} {k : Nat} :
    escapeEnd? name = some k ↔ ∃ body c, name.toList = body ++ [c] ∧ isSpace c ∧
      Token.endSlashes body % 2 = 0 ∧ k = (String.ofList body).utf8ByteSize := by
  unfold escapeEnd?
  cases hname : name.toList.reverse with
  | nil =>
    rw [List.reverse_eq_nil_iff] at hname
    simp [hname]
  | cons c cs =>
    rw [List.reverse_eq_cons_iff] at hname
    have hslashes : Token.endSlashes cs.reverse = (cs.takeWhile (· = '\\')).length := by
      rw [Token.endSlashes, List.reverse_reverse]
    simp only [hname, ← hslashes, Option.ite_none_right_eq_some, Option.some.injEq,
      Bool.and_eq_true, decide_eq_true_eq]
    constructor
    · rintro ⟨⟨hc, hs⟩, rfl⟩
      exact ⟨_, c, rfl, hc, hs, rfl⟩
    · rintro ⟨body, d, hbody, hd, hs, rfl⟩
      obtain ⟨rfl, hcd⟩ := List.append_inj' hbody rfl
      obtain rfl := List.singleton_inj.mp hcd
      exact ⟨⟨hd, hs⟩, rfl⟩

/-- A name is cut in front of its last character, or not at all. -/
theorem splitEscapeEnd_eq_or (name : String) :
    splitEscapeEnd name = (name, "") ∨ ∃ body c, name.toList = body ++ [c] ∧ Text.isSpace c ∧
      Token.endSlashes body % 2 = 0 ∧
        splitEscapeEnd name = (String.ofList body, String.singleton c) := by
  cases h : escapeEnd? name with
  | none => exact .inl (by simp [splitEscapeEnd, h])
  | some k =>
    obtain ⟨body, c, hname, hc, hs, -⟩ := escapeEnd?_eq_some.mp h
    refine .inr ⟨body, c, hname, hc, hs, ?_⟩
    rw [splitEscapeEnd, if_pos (by rw [h]; rfl), hname, List.dropLast_concat, List.length_append,
      List.length_singleton, Nat.add_sub_cancel, List.drop_left]
    rfl

/-- The white space that a reader cuts off a name changes nothing about it. -/
theorem unescape_splitEscapeEnd {name : String}
    (h : nameLength name.toList = name.toList.length) :
    unescape (splitEscapeEnd name).1.toList = unescape name.toList ∧
      nameLength (splitEscapeEnd name).1.toList = (splitEscapeEnd name).1.toList.length := by
  rcases splitEscapeEnd_eq_or name with hself | ⟨body, c, hname, hc, hs, hcut⟩
  · rw [hself]
    exact ⟨rfl, h⟩
  · rw [hname, List.length_append, List.length_singleton] at h
    have hwhole := Token.nameLength_of_append_space h hs
    rw [hcut, hname, String.toList_ofList]
    exact ⟨(Token.unescape_append_space hc hwhole h).symm, hwhole⟩

theorem names_simpleNode {kind : Kind} (hk : kind.isLeaf)
    (hw : ∀ name ∈ kind.name?, name.IsWhole) (start : Nat) (atEnd : Bool) :
    (simpleNode kind start atEnd).names.map Name.decoded = (kind.name?.map Name.decoded).toList ∧
      ∀ name ∈ (simpleNode kind start atEnd).names, name.IsWhole := by
  have hself (spaces : Spaces) :
      (Tree.leaf kind spaces start).names.map Name.decoded =
          (kind.name?.map Name.decoded).toList ∧
        ∀ name ∈ (Tree.leaf kind spaces start).names, name.IsWhole := by
    rw [names_leaf hk]
    cases hn : kind.name? with
    | none => simp
    | some name => simpa using hw name hn
  unfold simpleNode
  split
  next text =>
    obtain ⟨hread, hwhole⟩ := unescape_splitEscapeEnd (hw _ rfl)
    split
    · rw [names_leaf rfl]
      simpa [Kind.name?, Name.decoded, Name.IsWhole, hread] using hwhole
    · exact hself _
  next text =>
    obtain ⟨hread, hwhole⟩ := unescape_splitEscapeEnd (hw _ rfl)
    split
    · rw [names_leaf rfl]
      simpa [Kind.name?, Name.decoded, Name.IsWhole, hread] using hwhole
    · exact hself _
  next => exact hself _

theorem isWhole_of_simple {isClosed : Prop} {t : Token} {ts : List Token} {kind : Kind} {n : Nat}
    (hl : IsLexed isClosed (t :: ts)) (hs : simple t ts = .ok (kind, n)) :
    ∀ name ∈ kind.name?, name.IsWhole := by
  obtain ⟨start, cs, hlex, -⟩ := hl
  have hwhole : ∀ u ∈ t :: ts, _ := fun u hu => Token.nameLength_of_mem_lexFrom (hlex ▸ hu)
  have hempty (isId : Bool) : (⟨isId, ""⟩ : Name).IsWhole := by
    rw [Name.IsWhole, String.toList_empty, nameLength]
    rfl
  rw [simple.eq_def] at hs
  cases hk : t.kind with
  | delim c =>
    rw [hk] at hs
    dsimp only at hs
    repeat' split at hs
    all_goals
      cases hs
      rintro name ⟨⟩
    case h_2.isTrue.refl u us hu => exact (hwhole u (by simp)).1 hu
    -- a mark alone has the empty name
    all_goals exact hempty _
  | hash isIdent =>
    rw [hk] at hs
    cases hs
    rintro name ⟨⟩
    have := (hwhole t List.mem_cons_self).2 isIdent hk
    simpa [Name.IsWhole] using this
  | _ =>
    rw [hk] at hs
    dsimp only at hs
    repeat' split at hs
    all_goals
      cases hs
      try rintro name ⟨⟩

/-- The names in the tree of a list are those that are read among its tokens. -/
theorem Parsed.names {limit stop depth : Nat} {isFirst : Bool} {ts : List Token}
    {p : Parts ts.length} {isClosed : Prop} (h : Parsed limit stop depth isFirst ts p)
    (hl : IsLexed isClosed ts) :
    namesAmong ts = (namesAlong p.nodes ++ namesAlong p.others).map Name.decoded ++
        namesAmong p.rest ∧
      ∀ name ∈ namesAlong p.nodes ++ namesAlong p.others, name.IsWhole := by
  induction h with
  | finish ht =>
    rw [← namesAmong_dropWhile, ht]
    simp [namesAlong]
  | close ht =>
    rw [← namesAmong_dropWhile, ht]
    simp [namesAlong]
  | @comma _ _ ts rest t p ht hk _ _ ih =>
    have htrivia := Token.Reads.takeWhile isTrivia ts
    rw [ht] at htrivia
    obtain ⟨hnames, hwhole⟩ := ih ((hl.reads htrivia).reads (.head t rest))
    rw [← namesAmong_dropWhile, ht, namesAmong_of_separates (by simp [separates, hk]), hnames,
      namesAlong_alternatives, namesAlong, List.nil_append]
    exact ⟨rfl, hwhole⟩
  | @combinator _ _ ts rest t c p ht hk _ hle ih =>
    have htrivia := Token.Reads.takeWhile isTrivia ts
    rw [ht] at htrivia
    have hrest := (hl.reads htrivia).reads (.head t rest)
    obtain ⟨hnames, hwhole⟩ := ih (hrest.reads (.takeWhile isTrivia rest))
    rw [← namesAmong_dropWhile, ht, namesAmong_of_separates (by simp [separates, hk]),
      ← namesAmong_dropWhile, hnames, namesAlong_cons, names_leaf rfl, Parts.others_cons,
      Parts.rest_cons]
    exact ⟨rfl, hwhole⟩
  | @call _ isFirst ts rest rest' t u o arguments p ht ho _ ha hr _ hle iha ih =>
    have htrivia := Token.Reads.takeWhile isTrivia ts
    rw [ht] at htrivia
    have hbody := (hl.reads htrivia).reads (reads_opening? ho)
    have hread := (ha.covers hbody.isSpelled).reads
    rw [hr] at hread
    obtain ⟨hinner, hwhole⟩ := iha hbody
    obtain ⟨hnames, hwhole'⟩ := ih ((hbody.reads hread).reads (.head u rest'))
    have hu : u.kind = .rightParen := by
      have hstops := ha.continues.1
      rw [hr] at hstops
      exact Token.stopsAt_cons.mp hstops
    rw [← namesAmong_dropWhile, ht, namesAmong_of_opening ho, hinner, hr,
      namesAmong_of_separates (by simp [separates, hu]), hnames, namesAlong_consSimple,
      (Parts.consSimple_eq ..).1, (Parts.consSimple_eq ..).2]
    have hcall : (Tree.node (.pseudo o.name true) .none t.start
        (arguments.alternatives (Token.startOf stop o.body))).names =
        namesAlong arguments.nodes ++ namesAlong arguments.others :=
      (names_of_not_isLeaf rfl).trans (namesAlong_alternatives ..)
    rw [hcall]
    refine ⟨by simp only [List.map_append, List.append_assoc], fun name hname => ?_⟩
    rw [List.append_assoc] at hname
    exact (List.mem_append.mp hname).elim (hwhole name) (hwhole' name)
  | @leaf _ isFirst ts rest t kind n p ht _ _ _ ho hs _ hle ih =>
    have htrivia := Token.Reads.takeWhile isTrivia ts
    rw [ht] at htrivia
    have hself := hl.reads htrivia
    obtain ⟨hnode, hwhole⟩ := names_simpleNode (isLeaf_of_simple hs) (isWhole_of_simple hself hs)
      t.start (endsCompound (rest.drop n))
    obtain ⟨hnames, hwhole'⟩ := ih ((hself.reads (.head t rest)).reads (.take n rest))
    rw [← namesAmong_dropWhile, ht, namesAmong_of_simple ho hs, hnames, namesAlong_consSimple,
      (Parts.consSimple_eq ..).1, (Parts.consSimple_eq ..).2, ← hnode]
    refine ⟨by simp only [List.map_append, List.append_assoc], fun name hname => ?_⟩
    rw [List.append_assoc] at hname
    exact (List.mem_append.mp hname).elim (hwhole name) (hwhole' name)

/-- **A reader finds the names that are read in the text.** -/
theorem names_of_parse {source : String} {t : Tree} (h : parse source = .ok t) :
    t.names.map Name.decoded = namesIn source ∧ ∀ name ∈ t.names, name.IsWhole := by
  obtain ⟨p, hp, hr, rfl⟩ := parsed_of_parseWithin h
  obtain ⟨hnames, hwhole⟩ := hp.names (.of_lex source)
  have hroot : (Tree.node .root .none 0 (p.alternatives
      (Token.startOf source.utf8ByteSize (Token.lex source)))).names =
      namesAlong p.nodes ++ namesAlong p.others :=
    (names_of_not_isLeaf rfl).trans (namesAlong_alternatives ..)
  rw [hr, namesAmong, List.append_nil] at hnames
  rw [hroot]
  exact ⟨hnames.symm, hwhole⟩

/-! ### Texts with the same names -/

/-- What a name stands for, and the text of any other token. -/
def plain (t : Token) : List Char :=
  match t.kind with
  | .ident => unescape t.text.toList
  | .hash _ => unescape t.text.toList.tail
  | _ => t.text.toList

/-- The second run of tokens is the first with white space behind it, up to the
way in which names are escaped. -/
inductive Similar : List Token → List Token → Prop where
  | nil {us : List Token} (h : ∀ u ∈ us, u.isWhitespace) : Similar [] us
  | cons {t u : Token} {ts us : List Token} (hk : t.kind = u.kind) (hp : plain t = plain u)
    (h : Similar ts us) : Similar (t :: ts) (u :: us)

namespace Similar

variable {ts us : List Token} {t u : Token}

theorem drop (h : Similar ts us) (n : Nat) : Similar (ts.drop n) (us.drop n) := by
  induction h generalizing n with
  | nil h => simpa using .nil fun u hu => h u (List.mem_of_mem_drop hu)
  | cons hk hp h ih =>
    cases n with
    | zero => exact .cons hk hp h
    | succ n => exact ih n

theorem closingLength (h : Similar ts us) {opens closes : Token.Kind → Bool}
    (ho : opens .whitespace = false) (hc : closes .whitespace = false) (depth : Nat) :
    Token.closingLength opens closes depth ts = Token.closingLength opens closes depth us := by
  induction h generalizing depth with
  | @nil us h =>
    induction us generalizing depth with
    | nil => rfl
    | cons u us ih =>
      have hu : u.kind = .whitespace := by simpa [isWhitespace] using h u List.mem_cons_self
      have hd : Token.openBehind opens closes depth u.kind = some depth := by
        simp [Token.openBehind, hu, ho, hc]
      rw [Token.closingLength_cons, hd]
      simp only
      rw [← ih (fun v hv => h v (List.mem_cons_of_mem u hv))]
      rfl
  | cons hk _ _ ih => simp only [Token.closingLength_cons, hk, ih]

theorem kind_of_nil (h : Similar [] us) : ∀ u ∈ us.head?, u.kind = .whitespace := by
  obtain ⟨h⟩ := h
  intro u hu
  simpa [isWhitespace] using h u (List.mem_of_mem_head? hu)

theorem openingAfter? (h : Similar ts us) (colons colons' : String) :
    Option.Rel (fun o o' : Opening => Similar o.body o'.body) (Selector.openingAfter? colons ts)
      (Selector.openingAfter? colons' us) := by
  cases h with
  | nil h =>
    cases us with
    | nil => exact .none
    | cons u us =>
      have hu := kind_of_nil (.nil h) u rfl
      rw [Selector.openingAfter?, Selector.openingAfter?, if_neg (by simp [hu])]
      exact .none
  | @cons t u ts us hk hp h =>
    rw [Selector.openingAfter?, Selector.openingAfter?]
    by_cases hf : t.kind = .function
    · have htext : t.text.toList = u.text.toList := by
        rwa [plain, plain, ← hk, hf] at hp
      rw [← hk, htext]
      split
      · exact .some h
      · exact .none
    · rw [← hk, if_neg (by simp [hf]), if_neg (by simp [hf])]
      exact .none

theorem opening? (h : Similar ts us) :
    Option.Rel (fun o o' : Opening => Similar o.body o'.body) (Selector.opening? ts)
      (Selector.opening? us) := by
  cases h with
  | nil h =>
    cases us with
    | nil => exact .none
    | cons u us =>
      have hu := kind_of_nil (.nil h) u rfl
      rw [opening?_of_ne (by simp [hu])]
      exact .none
  | @cons t u ts us hk hp h =>
    by_cases hc : t.kind = .colon
    · rw [Selector.opening?.eq_def, Selector.opening?.eq_def]
      dsimp only
      rw [if_pos hc, if_pos (hk ▸ hc)]
      have hafter := h.openingAfter? t.text u.text
      cases h with
      | nil h =>
        cases us with
        | nil => exact .none
        | cons v us =>
          have hv := kind_of_nil (.nil h) v rfl
          dsimp only
          rw [if_neg (by simp [hv])]
          exact hafter
      | cons hk' _ h =>
        dsimp only
        rw [← hk']
        split
        · exact h.openingAfter? _ _
        · exact hafter
    · rw [opening?_of_ne hc, opening?_of_ne (hk ▸ hc)]
      exact .none

theorem opening?_eq_none (h : Similar ts us) (ho : Selector.opening? ts = none) :
    Selector.opening? us = none := by
  have hopen := h.opening?
  rw [ho] at hopen
  generalize Selector.opening? us = opening at hopen
  obtain ⟨⟩ := hopen
  rfl

/-- Behind a full stop the same class is read, if any. -/
theorem simple_dot (h : Similar ts us) (hk : t.kind = .delim '.') (hk' : u.kind = .delim '.') :
    ∃ kind kind' n, Selector.simple t ts = .ok (kind, n) ∧ Selector.simple u us = .ok (kind', n) ∧
      kind.name?.map Name.decoded = kind'.name?.map Name.decoded := by
  rw [Selector.simple.eq_def, Selector.simple.eq_def, hk, hk']
  dsimp only
  rw [if_pos rfl, if_pos rfl]
  cases h with
  | nil h =>
    cases us with
    | nil => exact ⟨_, _, _, rfl, rfl, rfl⟩
    | cons v us =>
      have hv := kind_of_nil (.nil h) v rfl
      dsimp only
      rw [if_neg (by simp [hv])]
      exact ⟨_, _, _, rfl, rfl, rfl⟩
  | @cons v v' _ _ hv hp h =>
    dsimp only
    rw [← hv]
    split
    next hident =>
      refine ⟨_, _, _, rfl, rfl, ?_⟩
      rw [plain, plain, ← hv, hident] at hp
      simp only [Kind.name?, Option.map_some, Name.decoded, hp]
    next => exact ⟨_, _, _, rfl, rfl, rfl⟩

/-- Behind a colon equally many tokens are taken, and no class or id is read. -/
theorem simple_colon (h : Similar ts us) (hk : t.kind = .colon) (hk' : u.kind = .colon) :
    ∃ kind kind' n, Selector.simple t ts = .ok (kind, n) ∧ Selector.simple u us = .ok (kind', n) ∧
      kind.name?.map Name.decoded = kind'.name?.map Name.decoded := by
  have hlength : ((us.takeWhile (·.kind = .colon)).take 1).length =
      ((ts.takeWhile (·.kind = .colon)).take 1).length := by
    cases h with
    | nil h =>
      cases us with
      | nil => rfl
      | cons v us => simp [kind_of_nil (.nil h) v rfl]
    | @cons v v' _ _ hv _ _ =>
      by_cases hcolon : v.kind = .colon
      · simp [hcolon, ← hv]
      · simp [hcolon, ← hv]
  have hdrop := h.drop ((ts.takeWhile (·.kind = .colon)).take 1).length
  rw [Selector.simple.eq_def, Selector.simple.eq_def, hk, hk']
  dsimp only
  rw [hlength]
  generalize ts.drop ((ts.takeWhile (·.kind = .colon)).take 1).length = ts' at hdrop
  generalize us.drop ((ts.takeWhile (·.kind = .colon)).take 1).length = us' at hdrop
  cases hdrop with
  | nil h =>
    cases us' with
    | nil => exact ⟨_, _, _, rfl, rfl, rfl⟩
    | cons v us' =>
      have hv := kind_of_nil (.nil h) v rfl
      dsimp only
      rw [if_neg (by simp [hv])]
      exact ⟨_, _, _, rfl, rfl, rfl⟩
  | cons hv _ _ =>
    dsimp only
    rw [← hv]
    split
    · exact ⟨_, _, _, rfl, rfl, rfl⟩
    · exact ⟨_, _, _, rfl, rfl, rfl⟩

theorem simple (h : Similar (t :: ts) (u :: us)) :
    (∃ kind kind' n, Selector.simple t ts = .ok (kind, n) ∧ Selector.simple u us = .ok (kind', n) ∧
        kind.name?.map Name.decoded = kind'.name?.map Name.decoded) ∨
      ∃ e e', Selector.simple t ts = .error e ∧ Selector.simple u us = .error e' := by
  obtain ⟨-⟩ | ⟨hk, hp, h⟩ := h
  by_cases hdot : t.kind = .delim '.'
  · exact .inl (h.simple_dot hdot (hk ▸ hdot))
  by_cases hcolon : t.kind = .colon
  · exact .inl (h.simple_colon hcolon (hk ▸ hcolon))
  rw [Selector.simple.eq_def, Selector.simple.eq_def, ← hk]
  cases hkind : t.kind with
  | delim c =>
    have hc : c ≠ '.' := fun hc => hdot (by rw [hkind, hc])
    dsimp only
    rw [if_neg hc, if_neg hc]
    repeat' split
    all_goals exact .inl ⟨_, _, _, rfl, rfl, rfl⟩
  | hash isIdent =>
    refine .inl ⟨_, _, _, rfl, rfl, ?_⟩
    rw [plain, plain, ← hk, hkind] at hp
    simp only [Kind.name?, Option.map_some, Name.decoded, String.toList_ofList, hp]
  | colon => exact absurd hkind hcolon
  | leftBracket =>
    dsimp only
    rw [← h.closingLength (by rfl) (by rfl)]
    split
    · exact .inl ⟨_, _, _, rfl, rfl, rfl⟩
    · exact .inr ⟨_, _, rfl, rfl⟩
  | function | leftParen =>
    dsimp only
    rw [← h.closingLength (by rfl) (by rfl)]
    split
    · exact .inl ⟨_, _, _, rfl, rfl, rfl⟩
    · exact .inr ⟨_, _, rfl, rfl⟩
  | rightBracket => exact .inr ⟨_, _, rfl, rfl⟩
  | _ => exact .inl ⟨_, _, _, rfl, rfl, rfl⟩

/-- Similar tokens are read as the same names. -/
theorem namesAmong_eq (h : Similar ts us) : namesAmong ts = namesAmong us := by
  fun_induction namesAmong ts generalizing us with
  | case1 =>
    obtain ⟨h⟩ := h
    rw [← namesAmong_dropWhile, List.dropWhile_eq_nil_iff.mpr, namesAmong]
    intro u hu
    have hk : u.kind = .whitespace := by simpa [isWhitespace] using h u hu
    rw [isTrivia, hk]
    rfl
  | case2 t ts o ho _ ih =>
    have hopen := h.opening?
    rw [ho] at hopen
    generalize ho' : Selector.opening? us = opening at hopen
    obtain ⟨hbody⟩ := hopen
    rw [namesAmong_of_opening ho', ih hbody]
  | case3 t ts ho kind n hs ih =>
    cases h with
    | cons hk hp hts =>
      rcases simple (.cons hk hp hts) with ⟨kind', _, _, hs', hus, hname⟩ | ⟨_, _, hs', -⟩
      · cases hs.symm.trans hs'
        rw [namesAmong_of_simple (opening?_eq_none (.cons hk hp hts) ho) hus, ← hname,
          ih (hts.drop n)]
      · cases hs.symm.trans hs'
  | case4 t ts ho e hs ih =>
    cases h with
    | cons hk hp hts =>
      rcases simple (.cons hk hp hts) with ⟨_, _, _, hs', -⟩ | ⟨_, _, -, hus⟩
      · cases hs.symm.trans hs'
      · rw [namesAmong_of_error (opening?_eq_none (.cons hk hp hts) ho) hus, ih hts]

end Similar

end Selector
end StyleScope
