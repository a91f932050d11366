/-
# Names in the preludes of `@scope`

A list of a prelude is taken out of its parentheses, trimmed, resolved, printed,
trimmed again and put into new parentheses. Resolving keeps its names, in their
order (`names_resolve`), and legible print is read with them. A text whose own
parentheses come in pairs can stand in new ones if it does not take the closing
one for itself, and a prelude of such texts is read as it was printed
(`Prelude.parse?_print`).

Trimming knows nothing of tokens, though. It takes away the white space that an
escape stands for, and blank characters beyond ASCII that belong to a name. So
the names are kept where it takes whole tokens of white space from the text that
is read, and where the list in it comes apart and leaves no blank character at
its ends when its keywords go (`KeepsTokens`): then the second time there is
nothing to trim, and the new parenthesis is a token by itself like the old one
(`prelude_keeps_names`).

Key definitions: `Scope.TrimsTokens`, `Scope.StandsEnclosed`,
`Scope.Prelude.Fits`, `Scope.StaysWhole`, `Scope.KeepsTokens`.
Key theorems: `Scope.names_resolve`, `Scope.Prelude.parse?_print`,
`Scope.prelude_keeps_names`.
-/
import StyleScope.Proofs.ResolvedPieces

namespace StyleScope
namespace Text

/-- A text stays as it is when it is trimmed if no end is blank. -/
theorem trimChars_eq_self {cs : List Char} : trimChars cs = cs ↔
    cs.head?.any isBlank = false ∧ cs.getLast?.any isBlank = false := by
  have hfront : cs.dropWhile isBlank = cs ↔ cs.head?.any isBlank = false := by
    rw [List.dropWhile_eq_self_iff]
    cases cs <;> simp
  have hback (cs : List Char) : dropEndWhile isBlank cs = cs ↔ cs.getLast?.any isBlank = false := by
    change cs.rdropWhile isBlank = cs ↔ _
    rw [List.rdropWhile_eq_self_iff]
    rcases List.eq_nil_or_concat' cs with rfl | ⟨cs, c, rfl⟩ <;> simp
  refine ⟨fun h => ?_, fun ⟨h, h'⟩ => by rw [trimChars, hfront.mpr h, (hback cs).mpr h']⟩
  have hle : cs.length ≤ (cs.dropWhile isBlank).length := by
    conv_lhs => rw [← h]
    exact (List.rdropWhile_prefix isBlank _).length_le
  have hself := (List.dropWhile_suffix isBlank).eq_of_length_le hle
  rw [trimChars, hself] at h
  exact ⟨hfront.mp hself, (hback cs).mp h⟩

end Text

namespace Scope

open Selector (IsLexed IsRun Similar Spaces Tree namesAlong namesAmong namesIn)
open Sheet (AtHead)
open Token (isWhitespace lexFrom parensBehind textOf)

/-! ### Resolving keeps names -/

theorem namesAlong_trimSpacing (ts : List Tree) : namesAlong (trimSpacing ts) = namesAlong ts := by
  obtain ⟨blanks, hsplit, hblanks⟩ := exists_eq_trimSpacing_append ts
  have hnone : namesAlong blanks = [] := by
    clear hsplit
    induction blanks with
    | nil => rw [namesAlong]
    | cons t blanks ih =>
      obtain ⟨ht, hblanks⟩ := List.forall_mem_cons.mp hblanks
      rw [namesAlong, Selector.names_of_isSpacing ht, ih hblanks]
      rfl
  conv_rhs => rw [hsplit, Selector.namesAlong_append, hnone, List.append_nil]

theorem namesAlong_surround (spaces : Spaces) (ts : List Tree) :
    namesAlong (surround spaces ts) = namesAlong ts := by
  refine surround_of_withSpaces (P := fun us => namesAlong us = namesAlong ts) ?_ spaces rfl
  intro us t vs spaces h
  rw [← h]
  simp only [Selector.namesAlong_append, namesAlong, Selector.names_withSpaces]

section Walks

variable {ctx : Context} {w w' : Walk} {t : Tree} {ts nodes : List Tree} {standing : Standing}
  {hasLocals hasLocals' : Bool}

variable (ctx) in
/-- What takes the place of the node has its names. -/
def KeepsNames (t : Tree) : Prop :=
  ∀ (w w' : Walk) (nodes : List Tree), Step ctx w t nodes w' → namesAlong nodes = t.names

theorem namesAlong_resolveSequence (hk : ∀ t ∈ ts, KeepsNames ctx t)
    (h : (resolveSequence ctx ts w).result = .ok (nodes, w')) :
    namesAlong nodes = namesAlong ts := by
  induction ts generalizing w nodes with
  | nil => rw [(resolveSequence_nil h).1]
  | cons t ts ih =>
    obtain ⟨out, v, more, hstep, hmore, rfl⟩ := resolveSequence_cons h
    rw [Selector.namesAlong_append, namesAlong, hk t List.mem_cons_self w v out hstep,
      ih (fun u hu => hk u (List.mem_cons_of_mem t hu)) hmore]

theorem namesAlong_resolveNarrow (ha : ∀ a ∈ ts, a.kind = .selector)
    (hk : ∀ a ∈ ts, ∀ t ∈ a.children, KeepsNames ctx t)
    (h : (resolveNarrow ctx ts standing hasLocals).result = .ok (nodes, hasLocals')) :
    namesAlong nodes = namesAlong ts := by
  induction ts generalizing standing hasLocals nodes with
  | nil => rw [(resolveNarrow_nil h).1]
  | cons a ts ih =>
    obtain ⟨out, v, more, hout, hmore, rfl⟩ := resolveNarrow_cons h
    rw [Selector.namesAlong_append, namesAlong, namesAlong_trimSpacing,
      namesAlong_resolveSequence (hk a List.mem_cons_self) hout,
      Selector.names_of_not_isLeaf (by rw [ha a List.mem_cons_self]; rfl),
      ih (fun b hb => ha b (List.mem_cons_of_mem a hb))
        (fun b hb => hk b (List.mem_cons_of_mem a hb)) hmore]

theorem namesAlong_resolveArguments (ha : ∀ a ∈ ts, a.kind = .selector)
    (hk : ∀ a ∈ ts, ∀ t ∈ a.children, KeepsNames ctx t)
    (h : (resolveArguments ctx ts standing hasLocals).result = .ok (nodes, hasLocals')) :
    namesAlong nodes = namesAlong ts := by
  induction ts generalizing standing hasLocals nodes with
  | nil => rw [(resolveArguments_nil h).1]
  | cons a ts ih =>
    obtain ⟨out, v, more, hout, hmore, rfl⟩ := resolveArguments_cons h
    rw [namesAlong, namesAlong, Selector.names_of_not_isLeaf rfl, Tree.children,
      namesAlong_trimSpacing, namesAlong_resolveSequence (hk a List.mem_cons_self) hout,
      Selector.names_of_not_isLeaf (by rw [ha a List.mem_cons_self]; rfl),
      ih (fun b hb => ha b (List.mem_cons_of_mem a hb))
        (fun b hb => hk b (List.mem_cons_of_mem a hb)) hmore]

theorem names_markLocal {kind : Selector.Kind} (hk : kind.isLeaf) (spaces : Spaces) (start : Nat) :
    (markLocal kind spaces start).names = kind.name?.toList := by
  rw [markLocal, Selector.names_of_not_isLeaf rfl, Tree.children, namesAlong, namesAlong,
    Selector.names_of_not_isLeaf rfl, Tree.children, namesAlong, namesAlong,
    Selector.names_leaf hk, List.append_nil, List.append_nil]

/-- Every node of a list that was read keeps its names. -/
theorem keepsNames_of_isSimple (h : t.IsSimple) : KeepsNames ctx t := by
  have hsingle (t : Tree) : namesAlong [t] = t.names := by
    rw [namesAlong, namesAlong, List.append_nil]
  induction h with
  | @leaf kind spaces start hleaf =>
    intro w w' nodes hstep
    have hnames := Selector.names_leaf hleaf spaces start
    change Step ctx w (.node kind spaces start []) nodes w' at hstep
    cases hstep with
    | dropSpace =>
      rw [hnames, namesAlong]
      rfl
    | narrow => cases hleaf
    | broad =>
      rw [hnames]
      split
      · rw [namesAlong]
        rfl
      · exact hsingle _
    | call => cases hleaf
    | name _ hn =>
      rw [hsingle, hnames]
      split
      · exact names_markLocal hleaf spaces start
      · exact hnames
    | _ => exact hsingle _
  | @call name spaces start arguments hne hk h ih =>
    intro w w' nodes hstep
    cases hstep with
    | narrow _ _ _ _ ha =>
      rw [namesAlong_surround, namesAlong_resolveNarrow hk ih ha, Selector.names_of_not_isLeaf rfl]
      rfl
    | exchange => exact hsingle _
    | call _ _ _ ha =>
      rw [hsingle, Selector.names_of_not_isLeaf rfl, Tree.children,
        namesAlong_resolveArguments hk ih ha, Selector.names_of_not_isLeaf rfl]
      rfl
    | name _ hn => cases hn
    | keep => exact hsingle _

end Walks

theorem namesAlong_resolveAlternatives {ctx : Context} {isGlobal : Bool} {selector : String}
    {agreed : Option Bool} {ts outs : List Tree} {r : Resolution} (ht : ∀ a ∈ ts, a.IsAlternative)
    (h : (resolveAlternatives ctx isGlobal selector agreed ts).result = .ok (outs, r)) :
    namesAlong outs = namesAlong ts := by
  induction ts generalizing agreed outs r with
  | nil => rw [(resolveAlternatives_nil h).1]
  | cons a ts ih =>
    obtain ⟨nodes, w, more, q, hnodes, -, hmore, rfl, -⟩ := resolveAlternatives_cons h
    obtain ⟨hkind, hsimple⟩ := ht a List.mem_cons_self
    rw [namesAlong, namesAlong, Selector.names_of_not_isLeaf rfl, Tree.children,
      namesAlong_trimSpacing,
      namesAlong_resolveSequence (fun t hmem => keepsNames_of_isSimple (hsimple t hmem)) hnodes,
      Selector.names_of_not_isLeaf (by rw [hkind]; rfl),
      ih (fun b hb => ht b (List.mem_cons_of_mem a hb)) hmore]

/-- **Resolving keeps all names, in their order.** -/
theorem names_resolve {ctx : Context} {isGlobal : Bool} {t out : Tree} {r : Resolution}
    (ht : t.IsList) (h : (resolve ctx isGlobal t).result = .ok (out, r)) : out.names = t.names := by
  obtain ⟨outs, hr, rfl⟩ := resolve_eq_ok h
  rw [Selector.names_of_not_isLeaf rfl, Tree.children,
    namesAlong_resolveAlternatives ht.alternatives hr,
    Selector.names_of_not_isLeaf (by rw [ht.kind]; rfl)]

/-! ### Trimming -/

/-- The tokens without the white space at both ends. -/
def core (ts : List Token) : List Token :=
  (ts.dropWhile isWhitespace).rdropWhile isWhitespace

/-- Trimming takes nothing but white space away from the tokens of the text, the
spelling of escapes apart. -/
def TrimsTokens (text : String) : Prop :=
  (Token.lex (Text.trim text)).map (fun t => (t.kind, Selector.plain t)) =
    (core (Token.lex text)).map fun t => (t.kind, Selector.plain t)

instance (text : String) : Decidable (TrimsTokens text) :=
  inferInstanceAs (Decidable (_ = _))

theorem exists_eq_core (ts : List Token) : ∃ front back, ts = front ++ core ts ++ back ∧
    (∀ t ∈ front, t.isWhitespace) ∧ ∀ t ∈ back, t.isWhitespace := by
  refine ⟨ts.takeWhile isWhitespace, (ts.dropWhile isWhitespace).rtakeWhile isWhitespace, ?_,
    fun t ht => List.mem_takeWhile_imp ht, fun t ht => List.mem_rtakeWhile_imp ht⟩
  rw [List.append_assoc, core, List.rdropWhile_append_rtakeWhile, List.takeWhile_append_dropWhile]

theorem isRun_whitespace {ts : List Token} (h : ∀ t ∈ ts, t.isWhitespace) (a : Nat) :
    IsRun [] a a ts :=
  .of_isTrivia fun t ht => by
    have hk : t.kind = .whitespace := by simpa [isWhitespace] using h t ht
    rw [Token.isTrivia, hk]
    rfl

section Trims

variable {text : String} (h : TrimsTokens text)
include h

theorem TrimsTokens.map_kind :
    (Token.lex (Text.trim text)).map (·.kind) = (core (Token.lex text)).map (·.kind) := by
  have := congrArg (List.map Prod.fst) h
  simpa only [List.map_map, Function.comp_def] using this

/-- A trimmed text has the same names. -/
theorem TrimsTokens.namesIn_trim : namesIn (Text.trim text) = namesIn text := by
  obtain ⟨front, back, hsplit, hfront, hback⟩ := exists_eq_core (Token.lex text)
  have hsimilar : Similar (Token.lex (Text.trim text)) (core (Token.lex text) ++ back) := by
    have hmap : (Token.lex (Text.trim text)).map _ = _ := h
    generalize core (Token.lex text) = us at hmap
    generalize Token.lex (Text.trim text) = ts at hmap
    induction ts generalizing us with
    | nil =>
      rw [List.map_eq_nil_iff.mp hmap.symm]
      exact .nil hback
    | cons t ts ih =>
      obtain ⟨u, us, rfl, hu, hus⟩ := List.map_eq_cons_iff.mp hmap.symm
      obtain ⟨hk, hp⟩ := Prod.mk.inj hu
      exact .cons hk.symm hp.symm (ih us hus.symm)
  rw [namesIn, namesIn, hsimilar.namesAmong_eq]
  conv_rhs => rw [hsplit, List.append_assoc, (isRun_whitespace hfront 0).names, List.nil_append]

theorem TrimsTokens.forall_kind {p : Token.Kind → Prop} (hp : ∀ t ∈ Token.lex text, p t.kind) :
    ∀ t ∈ Token.lex (Text.trim text), p t.kind := by
  obtain ⟨front, back, hsplit, -, -⟩ := exists_eq_core (Token.lex text)
  intro t ht
  have hmem : t.kind ∈ (core (Token.lex text)).map (·.kind) := by
    rw [← h.map_kind]
    exact List.mem_map_of_mem ht
  obtain ⟨u, hu, hk⟩ := List.mem_map.mp hmem
  rw [← hk]
  refine hp u ?_
  rw [hsplit]
  exact List.mem_append_left back (List.mem_append_right front hu)

end Trims

/-! ### Texts in parentheses -/

/-- Among the tokens the text stands in front of a parenthesis that closes. -/
def StandsEnclosed (ts : List Token) (text : String) : Prop :=
  ∃ inner u rest, (inner ++ u :: rest) <:+ ts ∧ u.kind = .rightParen ∧ textOf inner = text

theorem StandsEnclosed.of_suffix {ts us : List Token} {text : String}
    (h : StandsEnclosed us text) (hs : us <:+ ts) : StandsEnclosed ts text := by
  obtain ⟨inner, u, rest, hsuffix, hu, htext⟩ := h
  exact ⟨inner, u, rest, hsuffix.trans hs, hu, htext⟩

theorem mem_cutOff {t : Token} {ts : List Token} (h : t ∈ Token.cutOff ts) :
    t ∈ ts ∨ t.kind = .string false := by
  fun_induction Token.cutOff ts with
  | case1 => cases h
  | case2 u =>
    rw [List.mem_singleton] at h ⊢
    rw [h, Token.atEnd]
    split
    · exact .inr rfl
    · exact .inl rfl
  | case3 u v vs ih =>
    rcases List.mem_cons.mp h with rfl | h
    · exact .inl List.mem_cons_self
    · exact (ih h).imp_left (List.mem_cons_of_mem u)

/-- No comment is open in front of a parenthesis. -/
theorem StandsEnclosed.ne_comment {source text : String}
    (h : StandsEnclosed (Token.lex source) text) :
    ∀ t ∈ Token.lex text, t.kind ≠ .comment false := by
  obtain ⟨inner, u, rest, ⟨front, hlex⟩, hu, rfl⟩ := h
  obtain ⟨cs, -, hfrom⟩ := Token.lexFrom_eq_append hlex.symm
  obtain ⟨cs', hcs, hbehind⟩ := Token.lexFrom_eq_append hfrom.symm
  have hquotes : Token.KeepsQuotes inner cs' := fun _ => by
    obtain ⟨c, w, z, rfl, -, ht, -⟩ := Token.exists_of_lexFrom_eq_cons hbehind.symm
    have hspelled : u.IsSpelled := by
      have hmem : u ∈ Token.lex source := by simp [← hlex]
      exact Token.isSpelled_of_mem_lex hmem
    have htext := hspelled.text_eq (c := ')') (by rw [hu]; rfl)
    rw [ht, ← String.toList_inj, String.toList_ofList, String.toList_singleton] at htext
    rw [(List.cons.inj htext).1]
    rfl
  have hcut := Token.lexFrom_cut (hcs ▸ hfrom.symm) hquotes
  intro t ht hk
  have hmem : t.kind ∈ (Token.cutOff inner).map (·.kind) := by
    rw [← hcut, Token.map_kind_lexFrom _ 0]
    exact List.mem_map_of_mem ht
  obtain ⟨v, hv, hvk⟩ := List.mem_map.mp hmem
  rcases mem_cutOff hv with hv | hstring
  · obtain ⟨us, vs, rfl⟩ := List.append_of_mem hv
    rw [List.append_assoc] at hfrom
    have hnil := Token.eq_nil_of_comment hfrom.symm (hvk.trans hk)
    simp at hnil
  · rw [hvk, hk] at hstring
    cases hstring

namespace Prelude

theorem standsEnclosed_of_group? {ts rest : List Token} {text : String}
    (h : group? ts = some (text, rest)) : StandsEnclosed ts text ∧ rest <:+ ts := by
  obtain ⟨n, hn, h⟩ := Option.map_eq_some_iff.mp h
  obtain ⟨rfl, rfl⟩ := Prod.mk.inj h
  obtain ⟨inner, u, htake, rfl, hu⟩ := Token.exists_take_of_closingLength hn
  refine ⟨⟨inner, u, ts.drop (inner.length + 1), ?_, by simpa using hu, ?_⟩, List.drop_suffix _ _⟩
  · refine ⟨[], ?_⟩
    rw [List.nil_append, ← List.singleton_append, ← List.append_assoc, ← htake,
      List.take_append_drop]
  · have := congrArg (List.take inner.length) htake
    rw [List.take_take, List.take_left, Nat.min_eq_left (Nat.le_succ _)] at this
    rw [Nat.add_sub_cancel, this]

theorem standsEnclosed_of_parenthesized? {ts rest : List Token} {text : String}
    (h : parenthesized? ts = some (text, rest)) : StandsEnclosed ts text ∧ rest <:+ ts := by
  cases ts with
  | nil => cases h
  | cons t ts =>
    rw [parenthesized?] at h
    split at h
    · obtain ⟨henclosed, hrest⟩ := standsEnclosed_of_group? h
      exact ⟨henclosed.of_suffix (List.suffix_cons t ts), hrest.trans (List.suffix_cons t ts)⟩
    · cases h

theorem standsEnclosed_of_parseStart {ts rest : List Token} {start : Option String}
    (h : parseStart ts = some (start, rest)) :
    (∀ text ∈ start, StandsEnclosed ts text) ∧ rest <:+ ts := by
  unfold parseStart at h
  split at h
  · cases h
    exact ⟨by simp, List.suffix_rfl⟩
  · split at h
    · obtain ⟨⟨text, us⟩, hgroup, h⟩ := Option.map_eq_some_iff.mp h
      cases h
      obtain ⟨henclosed, hrest⟩ := standsEnclosed_of_parenthesized? hgroup
      exact ⟨by simpa using henclosed, hrest⟩
    · cases h
      exact ⟨by simp, List.suffix_rfl⟩

theorem standsEnclosed_of_parseLimit {ts rest : List Token} {limit : Option String}
    (h : parseLimit ts = some (limit, rest)) : ∀ text ∈ limit, StandsEnclosed ts text := by
  unfold parseLimit at h
  split at h
  · cases h
    simp
  next t us =>
    have hus : skipTrivia us <:+ t :: us :=
      (List.dropWhile_suffix _).trans (List.suffix_cons t us)
    split at h
    · obtain ⟨⟨text, vs⟩, hgroup, h⟩ := Option.map_eq_some_iff.mp h
      cases h
      simpa using (standsEnclosed_of_parenthesized? hgroup).1.of_suffix hus
    split at h
    · obtain ⟨⟨text, vs⟩, hgroup, h⟩ := Option.map_eq_some_iff.mp h
      cases h
      simpa using (standsEnclosed_of_group? hgroup).1.of_suffix (List.suffix_cons t us)
    · cases h
      simp

/-- The lists of a prelude stand in parentheses there, and there is one. -/
theorem standsEnclosed_of_parse? {params : String} {p : Prelude} (h : parse? params = some p) :
    (∀ text, text ∈ p.start ∨ text ∈ p.limit → StandsEnclosed (Token.lex params) text) ∧
      (p.start.isSome ∨ p.limit.isSome) := by
  obtain ⟨⟨start, ts⟩, hstart, h⟩ := Option.bind_eq_some_iff.mp h
  obtain ⟨⟨limit, us⟩, hlimit, h⟩ := Option.bind_eq_some_iff.mp h
  dsimp only at h
  split at h
  next hsome =>
    cases h
    obtain ⟨hfirst, hts⟩ := standsEnclosed_of_parseStart hstart
    have hsecond := standsEnclosed_of_parseLimit hlimit
    have hskip : skipTrivia (Token.lex params) <:+ Token.lex params := List.dropWhile_suffix _
    refine ⟨?_, by simpa using ((Bool.and_eq_true _ _).mp hsome).2⟩
    rintro text (ht | ht)
    · exact (hfirst text ht).of_suffix hskip
    · exact (hsecond text ht).of_suffix ((List.dropWhile_suffix _).trans (hts.trans hskip))
  next => cases h

/-! ### Printing -/

/-- The text can stand in parentheses: its own come in pairs, and a parenthesis
behind it is a token by itself. -/
structure Fits (text : String) : Prop where
  paired : parensBehind 0 (Token.lex text) = some 0
  closed : Token.lex (text ++ ")") = Token.lex text ++ [⟨.rightParen, ")", text.utf8ByteSize⟩]

theorem Fits.lexFrom_append {text : String} (h : Fits text) (o : Nat) (z : List Char) :
    lexFrom o (text.toList ++ ')' :: z) = lexFrom o text.toList ++
      ⟨.rightParen, ")", o + text.utf8ByteSize⟩ :: lexFrom (o + text.utf8ByteSize + 1) z := by
  have hclosed : lexFrom o (text ++ ")").toList =
      lexFrom o text.toList ++ [⟨.rightParen, ")", o + text.utf8ByteSize⟩] := by
    have := congrArg (List.map (Token.relocate (· + o))) h.closed
    rw [List.map_append, Token.lex, Token.lex, ← Token.lexFrom_add, ← Token.lexFrom_add,
      Nat.zero_add] at this
    rw [this, List.map_singleton, Token.relocate, Nat.add_comm o]
  have hends : Token.EndsClosed (lexFrom o (text ++ ")").toList) := by
    rw [hclosed]
    exact ⟨_, List.getLast?_concat, rfl⟩
  have hall := Token.lexFrom_append hends z
  have hsize : (text ++ ")").utf8ByteSize = text.utf8ByteSize + 1 := String.utf8ByteSize_append
  rw [hclosed, String.ofList_toList, hsize, String.toList_append, List.append_assoc,
    List.append_assoc, ← Nat.add_assoc] at hall
  exact hall

theorem Fits.group? {text : String} (h : Fits text) (o : Nat) (z : List Char) :
    group? (lexFrom o (text.toList ++ ')' :: z)) =
      some (text, lexFrom (o + text.utf8ByteSize + 1) z) := by
  have hpaired : parensBehind 0 (lexFrom o text.toList) = some 0 := by
    rw [Token.parensBehind_of_map_kind (Token.map_kind_lexFrom o 0 _)]
    exact h.paired
  have hlength : Token.closingLength Token.Kind.opensParen (· = .rightParen) 0
      (lexFrom o (text.toList ++ ')' :: z)) = some ((lexFrom o text.toList).length + 1) := by
    rw [h.lexFrom_append, Token.closingLength_of_parensBehind hpaired, Token.closingLength_cons]
    rfl
  rw [Prelude.group?, hlength, Option.map_some, h.lexFrom_append, Nat.add_sub_cancel,
    List.take_left, Token.textOf_lexFrom, String.ofList_toList, ← List.singleton_append,
    ← List.append_assoc, List.drop_left' (by simp)]

theorem lexFrom_leftParen (o : Nat) (cs : List Char) :
    lexFrom o ('(' :: cs) = ⟨.leftParen, "(", o⟩ :: lexFrom (o + 1) cs :=
  Token.lexFrom_cons (w := []) rfl

theorem lexFrom_to (o : Nat) (cs : List Char) :
    lexFrom o ('t' :: 'o' :: ' ' :: '(' :: cs) = ⟨.ident, "to", o⟩ :: ⟨.whitespace, " ", o + 2⟩ ::
      ⟨.leftParen, "(", o + 3⟩ :: lexFrom (o + 4) cs := by
  have hname : Token.nameLength ('t' :: 'o' :: ' ' :: '(' :: cs) = 2 := by
    rw [Token.nameLength, if_pos (by decide), Token.nameLength, if_pos (by decide),
      Token.nameLength, if_neg (by decide), if_neg (by simp)]
  have hscan : Token.scan 't' ('o' :: ' ' :: '(' :: cs) = ⟨.ident, 2⟩ := by
    have hnamed : Token.scan 't' ('o' :: ' ' :: '(' :: cs) =
        Token.scanNamed ('t' :: 'o' :: ' ' :: '(' :: cs) := rfl
    rw [hnamed, Token.scanNamed, hname]
    rfl
  have hword := @Token.lexFrom_cons o 't' ['o'] (' ' :: '(' :: cs)
    (congrArg Token.Lexeme.length hscan)
  rw [List.singleton_append, hscan] at hword
  have hspace := @Token.lexFrom_cons (o + 2) ' ' [] ('(' :: cs) rfl
  rw [hword]
  refine congrArg (_ :: ·) (hspace.trans ?_)
  rw [lexFrom_leftParen]
  rfl

theorem Fits.parseStart {text : String} (h : Fits text) (o : Nat) (z : List Char) :
    parseStart (skipTrivia (lexFrom o ('(' :: (text.toList ++ ')' :: z)))) =
      some (some text, lexFrom (o + 1 + text.utf8ByteSize + 1) z) := by
  rw [lexFrom_leftParen]
  change Prelude.parseStart (⟨.leftParen, "(", o⟩ :: _) = _
  rw [Prelude.parseStart, if_pos rfl, parenthesized?, if_pos rfl, h.group?]
  rfl

theorem Fits.parseLimit {text : String} (h : Fits text) (o : Nat) :
    parseLimit (skipTrivia (lexFrom o ('t' :: 'o' :: ' ' :: '(' :: (text.toList ++ [')'])))) =
      some (some text, []) := by
  rw [lexFrom_to]
  change Prelude.parseLimit (⟨.ident, "to", o⟩ :: _) = _
  rw [Prelude.parseLimit, if_pos (by simp [Text.sameWord])]
  change (parenthesized? (⟨.leftParen, "(", o + 3⟩ :: _)).map _ = _
  rw [parenthesized?, if_pos rfl, h.group?, lexFrom]
  rfl

/-- **A prelude of lists that can stand in parentheses is read as it was
printed.** -/
theorem parse?_print {p : Prelude} (h : p.start.isSome ∨ p.limit.isSome)
    (hf : ∀ text, text ∈ p.start ∨ text ∈ p.limit → Fits text) : parse? p.print = some p := by
  obtain ⟨start, limit⟩ := p
  cases start with
  | none =>
    cases limit with
    | none => simp at h
    | some limit =>
      have hlex : Token.lex (print ⟨none, some limit⟩) =
          lexFrom 0 ('t' :: 'o' :: ' ' :: '(' :: (limit.toList ++ [')'])) := by
        simp [Token.lex, print]
      have hnone : Prelude.parseStart (skipTrivia (Token.lex (print ⟨none, some limit⟩))) =
          some (none, Token.lex (print ⟨none, some limit⟩)) := by
        rw [hlex, lexFrom_to]
        rfl
      rw [parse?, hnone, Option.bind_eq_bind, Option.bind_some]
      dsimp only
      rw [hlex, (hf limit (.inr rfl)).parseLimit]
      rfl
  | some start =>
    have hfits := hf start (.inl rfl)
    cases limit with
    | none =>
      have hlex : Token.lex (print ⟨some start, none⟩) =
          lexFrom 0 ('(' :: (start.toList ++ ')' :: [])) := by
        simp [Token.lex, print]
      rw [parse?, hlex, hfits.parseStart, lexFrom]
      rfl
    | some limit =>
      have hlex : Token.lex (print ⟨some start, some limit⟩) = lexFrom 0 ('(' :: (start.toList ++
          ')' :: (' ' :: 't' :: 'o' :: ' ' :: '(' :: (limit.toList ++ [')'])))) := by
        simp [Token.lex, print]
      have hspace (o : Nat) (cs : List Char) : skipTrivia (lexFrom o (' ' :: 't' :: 'o' :: cs)) =
          skipTrivia (lexFrom (o + 1) ('t' :: 'o' :: cs)) := by
        have hblank : lexFrom o (' ' :: 't' :: 'o' :: cs) =
            ⟨.whitespace, " ", o⟩ :: lexFrom (o + 1) ('t' :: 'o' :: cs) :=
          Token.lexFrom_cons (w := []) rfl
        rw [hblank]
        rfl
      rw [parse?, hlex, hfits.parseStart, Option.bind_eq_bind, Option.bind_some]
      dsimp only
      rw [hspace, (hf limit (.inr rfl)).parseLimit]
      rfl

end Prelude

/-! ### Resolving a prelude -/

/-- The list comes apart, its brackets hold parentheses in pairs, and no blank
character stands at the ends of what it leaves without its keywords. -/
structure StaysWhole (t : Tree) : Prop extends IsDetachable t where
  paired : ∀ kind ∈ t.kinds, kind.IsPaired
  trimmed : Text.trim (remains t).print = (remains t).print

instance (t : Tree) : Decidable (StaysWhole t) :=
  decidable_of_iff (IsDetachable t ∧ (∀ kind ∈ t.kinds, kind.IsPaired) ∧
      Text.trim (remains t).print = (remains t).print)
    ⟨fun h => ⟨h.1, h.2.1, h.2.2⟩, fun h => ⟨h.toIsDetachable, h.paired, h.trimmed⟩⟩

/-- Trimming cuts into no token of the text, a parenthesis behind it is a token by
itself, and the list in it stays whole when its keywords go. -/
structure KeepsTokens (text : String) : Prop where
  trims : TrimsTokens text
  closed : Token.lex (Text.trim text ++ ")") = Token.lex (Text.trim text) ++
    [⟨.rightParen, ")", (Text.trim text).utf8ByteSize⟩]
  whole : ∀ t ∈ (Selector.parse (Text.trim text)).toOption, StaysWhole t

instance (text : String) : Decidable (KeepsTokens text) :=
  decidable_of_iff (TrimsTokens text ∧
      Token.lex (Text.trim text ++ ")") = Token.lex (Text.trim text) ++
        [⟨.rightParen, ")", (Text.trim text).utf8ByteSize⟩] ∧
      ∀ t ∈ (Selector.parse (Text.trim text)).toOption, StaysWhole t)
    ⟨fun h => ⟨h.1, h.2.1, h.2.2⟩, fun h => ⟨h.trims, h.closed, h.whole⟩⟩

section Resolved

variable {job : Job} {text new : String}

theorem exists_of_resolvePreludeText (h : (resolvePreludeText job text).result = .ok new) :
    ∃ t out r, Selector.parse (Text.trim text) = .ok t ∧
      (resolve ⟨job.aliases, false⟩ job.options.mode.isGlobal t).result = .ok (out, r) ∧
      new = Text.trim out.print := by
  obtain ⟨⟨resolved, r⟩, hr, h⟩ := Traced.bind_eq_ok.mp h
  cases h
  obtain ⟨t, out, hparse, hresolve, rfl⟩ := exists_of_resolveText hr
  exact ⟨t, out, r, hparse, hresolve, rfl⟩

/-- Resolving a list that stays whole leaves nothing to trim. -/
theorem trim_print_of_resolve {ctx : Context} {isGlobal : Bool} {source : String} {t out : Tree}
    {r : Resolution} (hp : Selector.parse source = .ok t) (ht : StaysWhole t)
    (h : (resolve ctx isGlobal t).result = .ok (out, r)) : Text.trim out.print = out.print := by
  have hends := keepsEnds_of_resolve hp ht.toIsDetachable h
  have htrimmed := ht.trimmed
  rw [Text.trim, ← String.toList_inj, String.toList_ofList, Text.trimChars_eq_self,
    ← Bool.not_eq_true, ← Bool.not_eq_true] at htrimmed ⊢
  exact ⟨fun hblank => htrimmed.1 (hends.front hblank),
    fun hblank => htrimmed.2 (hends.back hblank)⟩

/-- A list of a prelude keeps its names, and it can stand in parentheses. -/
theorem names_of_resolvePreludeText {source : String} (hk : KeepsTokens text)
    (hs : StandsEnclosed (Token.lex source) text)
    (h : (resolvePreludeText job text).result = .ok new) :
    namesIn new = namesIn text ∧ Prelude.Fits new := by
  obtain ⟨t, out, r, hparse, hresolve, rfl⟩ := exists_of_resolvePreludeText h
  have ht : StaysWhole t := hk.whole t (by rw [hparse]; rfl)
  obtain ⟨hnames, hwhole⟩ := Selector.names_of_parse hparse
  have hlexed : IsLexed True (Token.lex (Text.trim text)) :=
    ⟨0, _, rfl, fun _ => hk.trims.forall_kind (p := (· ≠ .comment false)) hs.ne_comment⟩
  have hclosed := isClosed_of_resolve hparse hlexed hresolve
  have hkeep := names_resolve (Selector.isList_of_parse hparse) hresolve
  have hkinds : ∀ kind ∈ out.kinds, kind.IsPaired :=
    forall_kinds_of_resolve hresolve trivial trivial (fun _ => trivial) trivial ht.paired
  obtain ⟨hprint, hpaired⟩ := Selector.names_of_isLegible (isSoundList_of_resolve hparse hresolve)
    hclosed (isLegible_of_resolve hparse ht.toIsDetachable hresolve)
    (fun e he => hkinds _ (Selector.map_kind_outline out 0 ▸ List.mem_map_of_mem he))
    (hkeep ▸ hwhole)
  rw [trim_print_of_resolve hparse ht hresolve]
  refine ⟨?_, hpaired, lex_append_close_of_resolve hparse ht.toIsDetachable hresolve hk.closed
    hclosed⟩
  calc namesIn out.print = t.names.map Selector.Name.decoded := by rw [hprint, hkeep]
    _ = namesIn (Text.trim text) := hnames
    _ = namesIn text := hk.trims.namesIn_trim

theorem names_of_resolvePreludeText? {source : String} {text new : Option String}
    (hk : ∀ t ∈ text, KeepsTokens t)
    (hs : ∀ t ∈ text, StandsEnclosed (Token.lex source) t)
    (h : (resolvePreludeText? job text).result = .ok new) :
    new.map namesIn = text.map namesIn ∧ ∀ t ∈ new, Prelude.Fits t := by
  cases text with
  | none =>
    cases h
    exact ⟨rfl, by simp⟩
  | some text =>
    obtain ⟨resolved, hr, h⟩ := Traced.bind_eq_ok.mp h
    cases h
    obtain ⟨hnames, hfits⟩ := names_of_resolvePreludeText (hk text rfl) (hs text rfl) hr
    exact ⟨congrArg some hnames, by simpa using hfits⟩

end Resolved

/-- A prelude that can be read is resolved list by list. -/
theorem exists_of_resolvePrelude {job : Job} {head out : AtHead} {p : Prelude}
    (hp : Prelude.parse? head.params = some p) (h : (resolvePrelude job head).result = .ok out) :
    ∃ start limit, (resolvePreludeText? job p.start).result = .ok start ∧
      (resolvePreludeText? job p.limit).result = .ok limit ∧
      out = { head with params := Prelude.print ⟨start, limit⟩ } := by
  have hne : head.params ≠ "" := by
    intro hempty
    have hnone : Prelude.parse? "" = none := by decide +kernel
    rw [hempty, hnone] at hp
    cases hp
  rw [resolvePrelude, if_neg hne, hp] at h
  obtain ⟨start, hstart, h⟩ := Traced.bind_eq_ok.mp h
  obtain ⟨limit, hlimit, h⟩ := Traced.bind_eq_ok.mp h
  cases h
  exact ⟨start, limit, hstart, hlimit, rfl⟩

/-- **A prelude keeps its lists with all their names.** If the texts of its lists keep
their tokens, a prelude that was read is read again, with a list for the root and
for the limit where there was one, and the names in each are the same, with their
escapes decoded. -/
theorem prelude_keeps_names {job : Job} {head out : AtHead} {p : Prelude}
    (hp : Prelude.parse? head.params = some p)
    (hk : ∀ text, text ∈ p.start ∨ text ∈ p.limit → KeepsTokens text)
    (h : (resolvePrelude job head).result = .ok out) :
    ∃ q, Prelude.parse? out.params = some q ∧ q.start.map namesIn = p.start.map namesIn ∧
      q.limit.map namesIn = p.limit.map namesIn := by
  obtain ⟨henclosed, hsome⟩ := Prelude.standsEnclosed_of_parse? hp
  obtain ⟨start, limit, hstart, hlimit, rfl⟩ := exists_of_resolvePrelude hp h
  obtain ⟨hnames, hfits⟩ := names_of_resolvePreludeText? (fun t ht => hk t (.inl ht))
    (fun t ht => henclosed t (.inl ht)) hstart
  obtain ⟨hnames', hfits'⟩ := names_of_resolvePreludeText? (fun t ht => hk t (.inr ht))
    (fun t ht => henclosed t (.inr ht)) hlimit
  have hkept : start.isSome ∨ limit.isSome := by
    rw [← Option.isSome_map (f := namesIn), ← Option.isSome_map (f := namesIn), hnames, hnames']
    simpa using hsome
  exact ⟨⟨start, limit⟩, Prelude.parse?_print hkept fun t ht => ht.elim (hfits t) (hfits' t),
    hnames, hnames'⟩

/-- Escapes at the ends of lists, one of them of white space, a keyword with
others in it, a comment, and brackets with parentheses in pairs. -/
theorem prelude_keeps_names_escaped :
    ∃ (head out : AtHead) (p q : Prelude),
      head.params = "( .\\62 c[x=(y)] > .a\\62 )TO (:global(.d\\ e :not(#f, .g\\ ))/* */)" ∧
      Prelude.parse? head.params = some p ∧
      (∀ text, text ∈ p.start ∨ text ∈ p.limit → KeepsTokens text) ∧
      (resolvePrelude ⟨.default, []⟩ head).result = .ok out ∧
      out.params =
        "(:local(.\\62 c)[x=(y)] > :local(.a\\62)) to (.d\\ e :not(#f, .g\\ )/* */)" ∧
      Prelude.parse? out.params = some q ∧
      q.start.map namesIn = some [⟨false, "bc"⟩, ⟨false, "ab"⟩] ∧
      q.limit.map namesIn = some [⟨false, "d e"⟩, ⟨true, "f"⟩, ⟨false, "g "⟩] := by
  let head : AtHead := ⟨"", "scope", " ",
    "( .\\62 c[x=(y)] > .a\\62 )TO (:global(.d\\ e :not(#f, .g\\ ))/* */)", "", 0⟩
  let p : Prelude :=
    ⟨some " .\\62 c[x=(y)] > .a\\62 ", some ":global(.d\\ e :not(#f, .g\\ ))/* */"⟩
  have hp : Prelude.parse? head.params = some p := by decide +kernel
  have hstart : KeepsTokens " .\\62 c[x=(y)] > .a\\62 " := by decide +kernel
  have hlimit : KeepsTokens ":global(.d\\ e :not(#f, .g\\ ))/* */" := by
    decide +kernel
  have hk : ∀ text, text ∈ p.start ∨ text ∈ p.limit → KeepsTokens text := by
    rintro text (ht | ht)
    · exact Option.some.inj ht ▸ hstart
    · exact Option.some.inj ht ▸ hlimit
  have hok : (resolvePrelude ⟨.default, []⟩ head).result.toOption.any fun out => out.params =
      "(:local(.\\62 c)[x=(y)] > :local(.a\\62)) to (.d\\ e :not(#f, .g\\ )/* */)" := by
    decide +kernel
  obtain ⟨out, hout, hparams⟩ := exists_ok_of_any hok
  obtain ⟨q, hq, hfirst, hsecond⟩ := prelude_keeps_names hp hk hout
  have hnames : p.start.map namesIn = some [⟨false, "bc"⟩, ⟨false, "ab"⟩] ∧
      p.limit.map namesIn = some [⟨false, "d e"⟩, ⟨true, "f"⟩, ⟨false, "g "⟩] := by
    decide +kernel
  exact ⟨head, out, p, q, rfl, hp, hk, hout, of_decide_eq_true hparams, hq,
    hfirst.trans hnames.1, hsecond.trans hnames.2⟩

/-- Trimming cuts into an escape of white space, and what is left of it takes the
parenthesis behind it. -/
theorem prelude_lost :
    ∃ p out, Prelude.parse? "(.a\\ )" = some p ∧ p.start.map namesIn = some [⟨false, "a "⟩] ∧
      (resolvePrelude ⟨.default, []⟩ ⟨"", "scope", " ", "(.a\\ )", "", 0⟩).result = .ok out ∧
      out.params = "(:local(.a)\\)" ∧ Prelude.parse? out.params = none := by
  have hp : Prelude.parse? "(.a\\ )" = some ⟨some ".a\\ ", none⟩ := by decide +kernel
  have hnames : namesIn ".a\\ " = [⟨false, "a "⟩] := by decide +kernel
  have hok : (resolvePrelude ⟨.default, []⟩ ⟨"", "scope", " ", "(.a\\ )", "", 0⟩
      ).result.toOption.any fun out =>
        out.params = "(:local(.a)\\)" ∧ Prelude.parse? out.params = none := by
    decide +kernel
  obtain ⟨out, hout, hlost⟩ := exists_ok_of_any hok
  obtain ⟨hparams, hnone⟩ := of_decide_eq_true hlost
  refine ⟨⟨some ".a\\ ", none⟩, out, hp, ?_, hout, hparams, hnone⟩
  rw [Option.map_some, hnames]

end Scope
end StyleScope
