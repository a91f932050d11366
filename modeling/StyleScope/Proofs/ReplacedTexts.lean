/-
# Texts of a node in the place of others

Scoping puts a text in the place of a selector, a prelude or a value. Whether
the node is read as the same kind of node then depends on the tokens of its own
text: those in front of the place, those of the new text, and those behind it
(`Split`). An item ends where it did if the new tokens leave the same brackets
open (`SameDepth`), and the name of an at-rule and the property of a declaration
stand in front of the place. Of a rule nothing does, so the first of the new
tokens must start one (`StartsRule`).

Key definitions: `Sheet.Node.withText`, `Sheet.Split`, `Sheet.CutsTo`,
`Sheet.StartsRule`.
Key theorems: `Sheet.readsAlone_of_found`, `Sheet.exists_split_declaration`,
`Sheet.exists_split_atRule`, `Sheet.exists_split_rule`.
-/
import StyleScope.Proofs.FoundTokens
import StyleScope.Proofs.OpenBrackets

namespace StyleScope
namespace Sheet

open Token (Found Leads bareLex cutOff found_append isApart isTrivia isWhitespace lexFrom textOf)

/-! ### White space in front -/

theorem isPlain_of_isWhitespace {t : Token} (h : isWhitespace t) : isPlain t := by
  rw [isPlain, of_decide_eq_true h]
  rfl

/-- White space in front does not move the end of an item. -/
theorem itemEnd_dropWhile_isWhitespace (b : Bool) (ts : List Token) :
    itemEnd b (ts.dropWhile isWhitespace) = itemEnd b ts := by
  conv_rhs => rw [← List.takeWhile_append_dropWhile (p := isWhitespace) (l := ts)]
  exact (itemEnd_append_of_isPlain b
    (fun u hu => isPlain_of_isWhitespace (List.mem_takeWhile_imp hu)) _).symm

/-! ### Nodes with another text -/

/-- The node with another selector, prelude or value. -/
def Node.withText (text : String) : Node → Node
  | .rule head body after => .rule { head with selector := text } body after
  | .atBlock head body after => .atBlock { head with params := text } body after
  | .atStatement head semicolon => .atStatement { head with params := text } semicolon
  | .declaration d => .declaration { d with value := text }
  | .comment c => .comment c

/-- The selector, prelude or value of the node, and what is printed in front of
it. -/
def Node.parts? : Node → Option (String × String)
  | .rule head _ _ => some (head.before, head.selector)
  | .atBlock head _ _ | .atStatement head _ =>
    some (head.before ++ "@" ++ head.name ++ head.afterName, head.params)
  | .declaration d => some (d.before ++ d.prop ++ d.between, d.value)
  | .comment _ => none

/-- What stands in front of the block or the end of an at-rule. -/
def Node.atHead? : Node → Option AtHead
  | .atBlock head _ _ | .atStatement head _ => some head
  | _ => none

section WithText

variable {depth : Nat} {n : Node} {front own : String}

theorem label_withText (text : String) (n : Node) : (n.withText text).label = n.label := by
  cases n <;> rfl

theorem needsBrace_withText (text : String) (n : Node) (depth : Nat) :
    ((n.withText text).entry depth).needsBrace = (n.entry depth).needsBrace := by
  cases n <;> rfl

theorem parts?_of_atHead? {head : AtHead} (h : n.atHead? = some head) :
    n.parts? = some (head.before ++ "@" ++ head.name ++ head.afterName, head.params) := by
  cases n with
  | atBlock | atStatement => rw [← Option.some.inj h, Node.parts?]
  | _ => cases h

theorem withText_self (h : n.parts? = some (front, own)) : n.withText own = n := by
  cases n with
  | comment => cases h
  | _ =>
    obtain ⟨-, rfl⟩ := Prod.mk.inj (Option.some.inj h)
    rfl

/-- What stands around the text is printed as before. -/
theorem exists_source_withText (h : n.parts? = some (front, own)) (depth : Nat) :
    ∃ behind, ∀ text, ((n.withText text).entry depth).source = front ++ text ++ behind := by
  suffices hlead : ∃ behind, ∀ text, (n.withText text).lead = front ++ text ++ behind by
    obtain ⟨behind, hlead⟩ := hlead
    refine ⟨behind ++ if (n.entry depth).needsBrace then "\x7d" else "", fun text => ?_⟩
    rw [Entry.source, needsBrace_withText]
    exact (congrArg (· ++ _) (hlead text)).trans (String.append_assoc ..)
  cases n with
  | comment => cases h
  | rule head body after =>
    obtain ⟨rfl, -⟩ := Prod.mk.inj (Option.some.inj h)
    exact ⟨head.between ++ "\x7b", fun text => by simp [Node.withText, Node.lead, RuleHead.print,
      String.append_assoc]⟩
  | atBlock head body after =>
    obtain ⟨rfl, -⟩ := Prod.mk.inj (Option.some.inj h)
    exact ⟨head.between ++ "\x7b", fun text => by simp [Node.withText, Node.lead, AtHead.print,
      String.append_assoc]⟩
  | atStatement head semicolon =>
    obtain ⟨rfl, -⟩ := Prod.mk.inj (Option.some.inj h)
    exact ⟨head.between ++ printSemicolon semicolon, fun text => by simp [Node.withText, Node.lead,
      Node.print, AtHead.print, String.append_assoc]⟩
  | declaration d =>
    obtain ⟨rfl, -⟩ := Prod.mk.inj (Option.some.inj h)
    exact ⟨d.important.getD "" ++ d.trailing ++ printSemicolon d.semicolon, fun text => by
      simp [Node.withText, Node.lead, Node.print, Declaration.print, String.append_assoc]⟩

end WithText

/-! ### The tokens around a text -/

/-- The tokens of the node's own text: those of its selector, prelude or value, and
what is in front of them and behind. -/
structure Split (depth : Nat) (n : Node) (front own back : List Token) : Prop where
  lexed : ∃ start, lexFrom start (n.entry depth).source.toList = front ++ (own ++ back)
  source : ∀ text, ((n.withText text).entry depth).source = textOf front ++ text ++ textOf back
  parts : n.parts? = some (textOf front, textOf own)
  leads : Leads own (own ++ back)

/-- Up to its block an item is read that is what the node is, and nothing else. -/
def CutsTo (depth : Nat) (n : Node) (ts : List Token) : Prop :=
  ∃ c, firstCut ts = some c ∧ c.label = n.label ∧
    c.rest.map (·.kind) = if (n.entry depth).needsBrace then [.rightBrace] else []

/-- **A node with another text reads alone**, if these are its tokens and they are cut
off as before. -/
theorem readsAlone_of_found {depth : Nat} {n : Node} {text : String} {ts : List Token}
    (htext : ((n.withText text).entry depth).source = textOf ts) (hts : Found ts [])
    (hcut : CutsTo depth n ts) : ((n.withText text).entry depth).readsAlone := by
  obtain ⟨c, hc, hl, hr⟩ := hcut
  have hbare : bareLex (textOf ts).toList = ts.map (Token.relocate fun _ => 0) := by
    simpa [bareLex, lexFrom] using hts.bareLex_append
  have hcut : (firstCut (Token.lex (textOf ts))).map (Cut.relocate fun _ => 0) =
      some (c.relocate fun _ => 0) := by
    rw [← firstCut_relocate, ← Option.map_some (f := Cut.relocate fun _ => 0), ← hc,
      ← firstCut_relocate, ← hbare, bareLex, Token.lex]
  obtain ⟨c', hc', hcc⟩ := Option.map_eq_some_iff.mp hcut
  refine (Entry.readsAlone_iff 0).mpr ⟨c', by rw [htext]; exact hc', ?_, ?_⟩
  · rw [← Cut.label_relocate fun _ => 0, hcc, Cut.label_relocate, hl]
    exact (label_withText _ n).symm
  · rw [← Cut.kinds_relocate fun _ => 0, hcc, Cut.kinds_relocate, hr]
    rw [needsBrace_withText]

/-- What is left of a broken string is one that is not closed. -/
theorem exists_string_of_cutOff {run : List Token} {t : Token} (h : run.getLast? = some t)
    (ht : t.kind = .badString) : ∃ u ∈ cutOff run, u.kind = .string false := by
  fun_induction cutOff run with
  | case1 => cases h
  | case2 u =>
    have hu : u = t := Option.some.inj h
    exact ⟨_, List.mem_singleton_self _, by rw [Token.atEnd, hu, if_pos ht]⟩
  | case3 u v vs ih =>
    rw [List.getLast?_cons_cons] at h
    obtain ⟨w, hw, hkind⟩ := ih h
    exact ⟨w, List.mem_cons_of_mem _ hw, hkind⟩

namespace Split

variable {depth : Nat} {n : Node} {front own back : List Token}

theorem of_lexed {start : Nat} (hn : n.parts? = some (textOf front, textOf own))
    (hlex : lexFrom start (n.entry depth).source.toList = front ++ (own ++ back))
    (hl : Leads own (own ++ back)) : Split depth n front own back := by
  obtain ⟨behind, hsource⟩ := exists_source_withText hn depth
  have hself := hsource (textOf own)
  rw [withText_self hn] at hself
  have htext := Token.textOf_lexFrom start (n.entry depth).source.toList
  rw [hlex, Token.textOf_append, Token.textOf_append, String.ofList_toList, hself,
    String.append_assoc] at htext
  have hbehind : textOf back = behind := by
    rw [← String.toList_inj] at htext ⊢
    simpa using htext
  exact ⟨⟨start, hlex⟩, fun text => hbehind ▸ hsource text, hn, hl⟩

theorem foundAll (h : Split depth n front own back) : Found (front ++ (own ++ back)) [] := by
  obtain ⟨start, hlex⟩ := h.lexed
  exact Token.found_of_lexFrom (hlex.trans (List.append_nil _).symm)

theorem foundBack (h : Split depth n front own back) : Found back [] :=
  (found_append.mp (found_append.mp h.foundAll).2).2

theorem found (h : Split depth n front own back) :
    Found front ((textOf own).toList ++ (textOf back).toList) ∧ Found own (textOf back).toList := by
  obtain ⟨hfront, hrest⟩ := found_append.mp h.foundAll
  obtain ⟨hown, -⟩ := found_append.mp hrest
  simp only [Token.textOf_append, String.toList_append, List.append_nil] at hfront hown
  exact ⟨hfront, hown⟩

/-- The text by itself has the tokens that it has in the sheet, unless a string breaks
off in it. -/
theorem bareLex_own (h : Split depth n front own back)
    (hwhole : ∀ t ∈ bareLex (textOf own).toList, t.kind ≠ .string false) :
    bareLex (textOf own).toList = own.map (Token.relocate fun _ => 0) := by
  obtain ⟨start, hlex⟩ := h.lexed
  obtain ⟨cs, -, hrest⟩ := Token.lexFrom_eq_append hlex
  have hown := Token.lexFrom_of_leads (hrest ▸ h.leads)
  rw [Token.bareLex_eq (start + (textOf front).utf8ByteSize), hown] at hwhole ⊢
  rw [Token.cutOff_eq_self]
  intro t ht hbad
  obtain ⟨u, hu, hkind⟩ := exists_string_of_cutOff ht hbad
  exact hwhole _ (List.mem_map_of_mem hu) hkind

/-- So these tokens stand in the place of the others. -/
theorem found_lex (h : Split depth n front own back) {text : String} (htext : textOf own = text)
    (hwhole : ∀ t ∈ Token.lex text, t.kind ≠ .string false) :
    (Token.lex text).map (·.kind) = own.map (·.kind) ∧
      Found (Token.lex text) (textOf back).toList := by
  subst htext
  have hbare := h.bareLex_own fun t ht hk => by
    obtain ⟨u, hu, rfl⟩ := List.mem_map.mp ht
    exact hwhole u hu hk
  constructor
  · have hkinds := congrArg (List.map (·.kind)) hbare
    rw [bareLex, List.map_map, List.map_map] at hkinds
    exact hkinds
  · rw [bareLex] at hbare
    rw [← Token.found_map_relocate, Token.lex, hbare, Token.found_map_relocate]
    exact h.found.2

/-- Behind the text stands what no name goes on with. -/
theorem isApart_back (h : Split depth n front own back) : isApart (textOf back).toList := by
  have hback := h.foundBack
  obtain ⟨vs, hvs, hbreak⟩ := h.leads
  obtain rfl := List.append_cancel_left hvs
  cases back with
  | nil => rfl
  | cons t back =>
    have hk := hbreak t rfl
    obtain ⟨c, w, htext, hscan⟩ := id hback.1
    have hchar {d : Char} (hd : t.kind.char? = some d) : c = d := by
      have hone := hback.1.isSpelled.text_eq hd
      rw [← String.toList_inj, htext, String.toList_singleton] at hone
      exact (List.cons.inj hone).1
    have hc : Text.isName c = false ∧ c ≠ '\\' ∧ c ≠ '(' := by
      cases hkind : t.kind with
      | whitespace =>
        have hspace := (Token.cut_of_scan_whitespace (hkind ▸ hscan)).1
        refine ⟨Scope.isName_of_isSpace hspace, ?_, ?_⟩ <;> rintro rfl <;> cases hspace
      | delim d =>
        rw [hkind] at hk
        obtain rfl : d = '!' := of_decide_eq_true hk
        rw [hchar (d := '!') (by rw [hkind]; rfl)]
        decide
      | semicolon =>
        rw [hchar (d := ';') (by rw [hkind]; rfl)]
        decide
      | leftBrace =>
        rw [hchar (d := '\x7b') (by rw [hkind]; rfl)]
        decide
      | rightBrace =>
        rw [hchar (d := '\x7d') (by rw [hkind]; rfl)]
        decide
      | _ => rw [hkind] at hk; cases hk
    rw [Token.textOf_cons, String.toList_append, htext]
    refine Token.isApart_iff.mpr fun d hd => ?_
    rw [← Option.some.inj hd]
    exact hc

/-- **A node with another text reads alone**, if the tokens in front and the new
ones are found there and are cut off as before. -/
theorem readsAlone (h : Split depth n front own back) {us : List Token}
    (hfront : Found front ((textOf us).toList ++ (textOf back).toList))
    (hus : Found us (textOf back).toList) (hcut : CutsTo depth n (front ++ (us ++ back))) :
    ((n.withText (textOf us)).entry depth).readsAlone := by
  refine readsAlone_of_found ?_ (found_append.mpr ⟨?_, found_append.mpr ⟨?_, h.foundBack⟩⟩) hcut
  · rw [h.source, Token.textOf_append, Token.textOf_append, String.append_assoc]
  · simpa using hfront
  · simpa using hus

end Split

/-! ### Reading the items again -/

section Items

variable {depth : Nat} {custom : Bool} {before : String} {t : Token} {rest : List Token} {c : Cut}

/-- What is read as the item of a node. -/
theorem exists_itemCut_of_isRead {n : Node} (h : n.IsRead depth) :
    ∃ start fillers t rest c, lexFrom start (n.entry depth).source.toList = fillers ++ t :: rest ∧
      (∀ u ∈ fillers, isFiller u) ∧ isFiller t = false ∧ t.kind ≠ .rightBrace ∧
      itemCut (textOf fillers) t rest = some c ∧ c.IsOf n ∧
      c.rest.map (·.kind) = if (n.entry depth).needsBrace then [.rightBrace] else [] := by
  obtain ⟨start, c, hc, hn, hrest⟩ := h
  obtain ⟨t, rest, ht, hk, hi⟩ := firstCut_eq_some hc
  refine ⟨start, _, t, rest, c, ?_, fun u hu => List.mem_takeWhile_imp hu, ?_, hk, hi, hn, hrest⟩
  · rw [← ht, List.takeWhile_append_dropWhile]
  · have hfirst := List.head?_dropWhile_not isFiller (lexFrom start (n.entry depth).source.toList)
    rw [ht] at hfirst
    simpa using hfirst

theorem firstCut_fillers {fillers : List Token} (hf : ∀ u ∈ fillers, isFiller u)
    (ht : isFiller t = false) (hk : t.kind ≠ .rightBrace) :
    firstCut (fillers ++ t :: rest) = itemCut (textOf fillers) t rest := by
  have hdrop : (fillers ++ t :: rest).dropWhile isFiller = t :: rest := by
    rw [List.dropWhile_append_of_pos hf, List.dropWhile_cons_of_neg (by simp [ht])]
  have htake : (fillers ++ t :: rest).takeWhile isFiller = fillers := by
    rw [List.takeWhile_append_of_pos hf, List.takeWhile_cons_of_neg (by simp [ht]), List.append_nil]
  rw [firstCut_of_dropWhile hdrop hk, htake]

theorem prefix_trimEnd (ts : List Token) : trimEnd ts <+: ts :=
  List.rdropWhile_prefix ..

theorem prefix_splitImportant (value : List Token) : (splitImportant value).1 <+: value := by
  rcases splitImportant_cases value with hsplit | ⟨front, bang, mark, hvalue, -, hsplit⟩
  · exact ⟨[], by rw [hsplit, List.append_nil]⟩
  · rw [hsplit, hvalue]
    exact (prefix_trimEnd front).trans (List.prefix_append _ _)

theorem length_le_itemLength {own ts : List Token} (h : own <+: itemFront custom ts) :
    own.length ≤ itemLength custom 0 ts :=
  h.length_le.trans (List.length_take_le _ _)

/-! ### Declarations -/

theorem exists_declarationCut (h : ruleOrDeclarationCut before t rest = some c)
    (hl : c.label ≠ .rule) :
    ∃ custom, startsCustomProperty (t :: rest) = custom ∧
      declarationCut custom before t rest = some c ∧
      (custom = false → ∀ u ∈ (itemEnd false (t :: rest)).head?, u.kind ≠ .leftBrace) := by
  unfold ruleOrDeclarationCut at h
  split at h
  next hs => exact ⟨true, hs, h, fun hc => nomatch hc⟩
  next hs =>
    refine ⟨false, Bool.eq_false_of_not_eq_true hs, ?_⟩
    cases hend : itemEnd false (t :: rest) with
    | nil =>
      rw [hend] at h
      exact ⟨h, fun _ u hu => nomatch hu⟩
    | cons brace body =>
      rw [hend] at h
      dsimp only at h
      split at h
      next =>
        rw [← Option.some.inj h] at hl
        exact absurd rfl hl
      next hk =>
        refine ⟨h, fun _ u hu => ?_⟩
        rwa [← Option.some.inj hu]

theorem ruleOrDeclarationCut_eq (hs : startsCustomProperty (t :: rest) = custom)
    (hb : custom = false → ∀ u ∈ (itemEnd false (t :: rest)).head?, u.kind ≠ .leftBrace) :
    ruleOrDeclarationCut before t rest = declarationCut custom before t rest := by
  cases custom with
  | true => rw [ruleOrDeclarationCut, if_pos hs]
  | false =>
    rw [ruleOrDeclarationCut, if_neg (by simp [hs])]
    cases hend : itemEnd false (t :: rest) with
    | nil => rfl
    | cons brace body =>
      rw [hend] at hb
      exact if_neg (hb rfl brace rfl)

/-- The property of a declaration stands in front of the colon, and whether there is a
semicolon depends on where it ends. -/
theorem exists_declarationCut_eq {colon : Token} {behind : List Token}
    (hd : rest.dropWhile isTrivia = colon :: behind) (ht : t.kind = .ident)
    (hcolon : colon.kind = .colon) :
    ∃ c, declarationCut custom before t rest = some c ∧
      c.label = .declaration t.text
        ((itemEnd custom behind).head?.any fun u => u.kind = .semicolon) ∧
      c.rest = (itemEnd custom behind).drop
        (if (itemEnd custom behind).head?.any fun u => u.kind = .semicolon then 1 else 0) := by
  rw [declarationCut, hd, ← itemEnd_dropWhile_isWhitespace]
  exact ⟨_, if_pos (by simp [ht, hcolon]), rfl, rfl⟩

/-- What starts like an at-rule is neither a rule nor a declaration. -/
theorem label_atRuleCut (before : String) (t : Token) (rest : List Token) :
    (atRuleCut before t rest).label ≠ .rule ∧
      ∀ prop semicolon, (atRuleCut before t rest).label ≠ .declaration prop semicolon := by
  unfold atRuleCut
  constructor
  · intro h
    repeat' split at h
    all_goals cases h
  · intro prop semicolon h
    repeat' split at h
    all_goals cases h

theorem ruleOrDeclarationCut_of_declaration {d : Declaration}
    (h : itemCut before t rest = some c) (hl : c.label = (Node.declaration d).label) :
    ruleOrDeclarationCut before t rest = some c := by
  unfold itemCut at h
  split at h
  next =>
    rw [← Option.some.inj h] at hl
    cases hl
  next =>
    split at h
    next =>
      rw [← Option.some.inj h] at hl
      exact absurd hl ((label_atRuleCut before t rest).2 _ _)
    next => exact h

/-- The tokens of a declaration: its property and its colon, and behind white space its
value. -/
structure DeclarationTokens (custom : Bool) (d : Declaration) (fillers : List Token) (t : Token)
    (trivia : List Token) (colon : Token) (blanks own back : List Token) : Prop where
  isFiller : ∀ u ∈ fillers, isFiller u
  isIdent : t.kind = .ident
  isTrivia : ∀ u ∈ trivia, isTrivia u
  isColon : colon.kind = .colon
  isBlank : ∀ u ∈ blanks, isWhitespace u
  leads : Leads own (own ++ back)
  length_le : own.length ≤ itemLength custom 0 (own ++ back)
  starts : startsCustomProperty (t :: (trivia ++ [colon])) = custom
  noBrace : custom = false → ∀ u ∈ (itemEnd false (own ++ back)).head?, u.kind ≠ .leftBrace
  parts : (Node.declaration d).parts? =
    some (textOf fillers ++ t.text ++ (textOf trivia ++ colon.text ++ textOf blanks), textOf own)

theorem startsCustomProperty_colon {trivia : List Token} {colon : Token}
    (hcolon : colon.kind = .colon) (us : List Token) :
    startsCustomProperty (t :: (trivia ++ colon :: us)) =
      startsCustomProperty (t :: (trivia ++ [colon])) := by
  rw [List.append_cons]
  refine startsCustomProperty_append (fun _ hnil => ?_) us
  have hwhite := List.dropWhile_eq_nil_iff.mp hnil colon (by simp)
  exact absurd (hcolon.symm.trans (of_decide_eq_true hwhite)) (by decide)

/-- The tokens of a declaration that was read. -/
theorem exists_declarationTokens {d : Declaration} (h : (Node.declaration d).IsRead depth) :
    ∃ start custom fillers t trivia colon blanks own back,
      DeclarationTokens custom d fillers t trivia colon blanks own back ∧
      lexFrom start ((Node.declaration d).entry depth).source.toList =
        fillers ++ t :: (trivia ++ colon :: (blanks ++ (own ++ back))) ∧
      CutsTo depth (.declaration d)
        (fillers ++ t :: (trivia ++ colon :: (blanks ++ (own ++ back)))) := by
  obtain ⟨start, fillers, t, rest, c, hlex, hf, ht, hk, hi, hn, hr⟩ := exists_itemCut_of_isRead h
  obtain ⟨custom, hs, hd, hb⟩ := exists_declarationCut
    (ruleOrDeclarationCut_of_declaration hi hn.label_eq) (by rw [hn.label_eq]; simp [Node.label])
  obtain ⟨colon, behind, hdrop, hident, hcolon, hc⟩ := declarationCut_eq_some hd
  have hdecl : d = _ := Node.declaration.inj (hc ▸ hn)
  have hparts : (Node.declaration d).parts? = some (textOf fillers ++ t.text ++
      (textOf (rest.takeWhile isTrivia) ++ colon.text ++ textOf (behind.takeWhile isWhitespace)),
      textOf (splitImportant (trimEnd (itemFront custom (behind.dropWhile isWhitespace)))).1) := by
    rw [hdecl]
    rfl
  have hown := leads_splitImportant (leads_trimEnd
    (leads_itemFront custom (behind.dropWhile isWhitespace)))
  have hle := length_le_itemLength ((prefix_splitImportant _).trans
    (prefix_trimEnd (itemFront custom (behind.dropWhile isWhitespace))))
  generalize (splitImportant (trimEnd (itemFront custom (behind.dropWhile isWhitespace)))).1 = own
    at hparts hown hle
  obtain ⟨back, htail, hbreak⟩ := id hown
  have hbehind : behind = behind.takeWhile isWhitespace ++ (own ++ back) := by
    rw [← htail, List.takeWhile_append_dropWhile]
  have hrest : rest = rest.takeWhile isTrivia ++ colon ::
      (behind.takeWhile isWhitespace ++ (own ++ back)) := by
    rw [← hbehind, ← hdrop, List.takeWhile_append_dropWhile]
  rw [htail] at hown hle
  rw [hrest] at hlex
  refine ⟨start, custom, fillers, t, _, colon, _, own, back,
    ⟨hf, hident, fun u hu => List.mem_takeWhile_imp hu, hcolon,
      fun u hu => List.mem_takeWhile_imp hu, hown, hle, ?_, ?_, hparts⟩, hlex, c, ?_,
    hn.label_eq, hr⟩
  · rw [← hs]
    conv_rhs => rw [hrest]
    exact (startsCustomProperty_colon hcolon _).symm
  · intro hfalse
    rw [← htail, ← itemEnd_of_dropWhile_isTrivia hident hdrop hcolon]
    exact hb hfalse
  · rw [firstCut_fillers hf ht hk, ← hrest]
    exact hi

namespace DeclarationTokens

variable {d : Declaration} {fillers trivia blanks own back us : List Token} {colon : Token}

/-- Where the declaration ends, and whether it has a semicolon, depends on the brackets
that its value leaves open. -/
theorem exists_firstCut (h : DeclarationTokens custom d fillers t trivia colon blanks own back)
    (hus : SameDepth own us) :
    ∃ c, firstCut (fillers ++ t :: (trivia ++ colon :: (blanks ++ (us ++ back)))) = some c ∧
      c.label = .declaration t.text
        ((itemEnd custom (own ++ back)).head?.any fun u => u.kind = .semicolon) ∧
      c.rest = (itemEnd custom (own ++ back)).drop
        (if (itemEnd custom (own ++ back)).head?.any fun u => u.kind = .semicolon then 1
          else 0) := by
  have hplain : ∀ u ∈ blanks, isPlain u := fun u hu => isPlain_of_isWhitespace (h.isBlank u hu)
  have hend : itemEnd custom (blanks ++ (us ++ back)) = itemEnd custom (own ++ back) := by
    rw [itemEnd_append_of_isPlain custom hplain, hus.itemEnd_eq h.length_le]
  have hdrop : (trivia ++ colon :: (blanks ++ (us ++ back))).dropWhile Token.isTrivia =
      colon :: (blanks ++ (us ++ back)) := by
    rw [List.dropWhile_append_of_pos h.isTrivia, List.dropWhile_cons_of_neg]
    rw [Token.isTrivia, h.isColon]
    decide
  obtain ⟨c, hc, hl, hr⟩ := @exists_declarationCut_eq custom (textOf fillers) t _ colon _ hdrop
    h.isIdent h.isColon
  rw [hend] at hl hr
  have hstarts : startsCustomProperty (t :: (trivia ++ colon :: (blanks ++ (us ++ back)))) =
      custom := by
    rw [startsCustomProperty_colon h.isColon, h.starts]
  have hnoBrace (hc : custom = false) : ∀ u ∈
      (itemEnd false (t :: (trivia ++ colon :: (blanks ++ (us ++ back))))).head?,
      u.kind ≠ .leftBrace := by
    subst hc
    rw [itemEnd_of_dropWhile_isTrivia h.isIdent hdrop h.isColon, itemEnd_dropWhile_isWhitespace,
      hend]
    exact h.noBrace rfl
  refine ⟨c, ?_, hl, hr⟩
  rw [firstCut_fillers h.isFiller (by rw [Sheet.isFiller, h.isIdent])
    (by rw [h.isIdent]; decide), itemCut, if_neg (by rw [h.isIdent]; decide),
    if_neg (by rw [h.isIdent]; decide), ruleOrDeclarationCut_eq hstarts hnoBrace, hc]

theorem cutsTo (h : DeclarationTokens custom d fillers t trivia colon blanks own back)
    (hcut : CutsTo depth (.declaration d)
      (fillers ++ t :: (trivia ++ colon :: (blanks ++ (own ++ back)))))
    (hus : SameDepth own us) :
    CutsTo depth (.declaration d)
      (fillers ++ t :: (trivia ++ colon :: (blanks ++ (us ++ back)))) := by
  obtain ⟨c, hc, hl, hr⟩ := hcut
  obtain ⟨c₁, hc₁, hl₁, hr₁⟩ := h.exists_firstCut (.refl own)
  obtain ⟨c₂, hc₂, hl₂, hr₂⟩ := h.exists_firstCut hus
  obtain rfl := Option.some.inj (hc₁.symm.trans hc)
  exact ⟨c₂, hc₂, (hl₂.trans hl₁.symm).trans hl, by rw [hr₂, ← hr₁, hr]⟩

end DeclarationTokens

/-- **In a declaration a value can be replaced** by tokens that leave the same brackets
open. -/
theorem exists_split_declaration {d : Declaration} (h : (Node.declaration d).IsRead depth) :
    ∃ front last own back, Split depth (.declaration d) (front ++ [last]) own back ∧
      (last.kind = .colon ∨ last.kind = .whitespace) ∧
      ∀ us, SameDepth own us → CutsTo depth (.declaration d) (front ++ [last] ++ (us ++ back)) := by
  obtain ⟨start, custom, fillers, t, trivia, colon, blanks, own, back, hd, hlex, hcut⟩ :=
    exists_declarationTokens h
  obtain ⟨front, last, hlast, hk⟩ : ∃ front last, colon :: blanks = front ++ [last] ∧
      (last.kind = .colon ∨ last.kind = .whitespace) := by
    rcases List.eq_nil_or_concat blanks with rfl | ⟨front, last, rfl⟩
    · exact ⟨[], colon, rfl, .inl hd.isColon⟩
    · exact ⟨colon :: front, last, by simp, .inr (of_decide_eq_true (hd.isBlank last (by simp)))⟩
  have happend (us : List Token) : fillers ++ t :: (trivia ++ colon :: (blanks ++ us)) =
      (fillers ++ t :: (trivia ++ front)) ++ [last] ++ us := by
    have hblanks : colon :: (blanks ++ us) = front ++ [last] ++ us := by
      rw [← List.cons_append, hlast]
    rw [hblanks]
    simp
  have htext : textOf ((fillers ++ t :: (trivia ++ front)) ++ [last]) =
      textOf fillers ++ t.text ++ (textOf trivia ++ colon.text ++ textOf blanks) := by
    have hempty := happend []
    rw [List.append_nil, List.append_nil] at hempty
    rw [← hempty]
    simp [Token.textOf_append, String.append_assoc]
  refine ⟨fillers ++ t :: (trivia ++ front), last, own, back, ?_, hk, fun us hus => ?_⟩
  · exact .of_lexed (by rw [htext]; exact hd.parts) (by rw [hlex, happend]) hd.leads
  · rw [← happend]
    exact hd.cutsTo hcut hus

/-! ### At-rules -/

/-- Whether an at-rule has a block, and what is left behind it, depends on where its
prelude ends. -/
theorem atRuleCut_congr {rest' : List Token} (before : String) (t : Token)
    (h : itemEnd false rest' = itemEnd false rest) :
    (atRuleCut before t rest').label = (atRuleCut before t rest).label ∧
      (atRuleCut before t rest').rest = (atRuleCut before t rest).rest := by
  unfold atRuleCut
  rw [itemEnd_dropWhile_isWhitespace, itemEnd_dropWhile_isWhitespace, h]
  cases itemEnd false rest with
  | nil => exact ⟨rfl, rfl⟩
  | cons u us =>
    dsimp only
    repeat' split
    all_goals exact ⟨rfl, rfl⟩

theorem atHead?_of_declarationCut {n : Node} {custom : Bool}
    (h : declarationCut custom before t rest = some c) (hn : c.IsOf n) : n.atHead? = none := by
  obtain ⟨colon, behind, -, -, -, rfl⟩ := declarationCut_eq_some h
  rw [show n = _ from hn]
  rfl

theorem atHead?_of_ruleOrDeclarationCut {n : Node} (h : ruleOrDeclarationCut before t rest = some c)
    (hn : c.IsOf n) : n.atHead? = none := by
  unfold ruleOrDeclarationCut at h
  split at h
  · exact atHead?_of_declarationCut h hn
  split at h
  · exact atHead?_of_declarationCut h hn
  split at h
  · obtain rfl := Option.some.inj h
    obtain ⟨body, after, rfl⟩ := hn
    rfl
  · exact atHead?_of_declarationCut h hn

/-- What is read as an at-rule has its name behind the mark. -/
theorem atRuleCut_of_atHead? {n : Node} {head : AtHead} (h : n.atHead? = some head)
    (hi : itemCut before t rest = some c) (hn : c.IsOf n) :
    t.kind = .atKeyword ∧ c = atRuleCut before t rest ∧ head = atHead before t rest := by
  unfold itemCut at hi
  split at hi
  next =>
    obtain rfl := Option.some.inj hi
    rw [show n = _ from hn] at h
    cases h
  split at hi
  next hk =>
    obtain rfl := Option.some.inj hi
    refine ⟨hk, rfl, ?_⟩
    have hhead : n.atHead? = some (atHead before t rest) := by
      unfold atRuleCut at hn
      repeat' split at hn
      · rw [show n = _ from hn]
        rfl
      · obtain ⟨body, after, rfl⟩ := hn
        rfl
      · rw [show n = _ from hn]
        rfl
      · rw [show n = _ from hn]
        rfl
    exact Option.some.inj (h.symm.trans hhead)
  next =>
    rw [atHead?_of_ruleOrDeclarationCut hi hn] at h
    cases h

/-- What ends an item stands at the end of the item in front of it. -/
theorem itemEnd_itemEnd (b : Bool) (ts : List Token) : itemEnd b (itemEnd b ts) = itemEnd b ts := by
  cases hend : itemEnd b ts with
  | nil => rfl
  | cons u us =>
    rcases itemEnd_eq_cons hend with hk | hk | ⟨rfl, hk⟩
    all_goals
      rw [itemEnd, itemLength, hk]
      rfl

/-- **In an at-rule a prelude can be replaced** by tokens that close the brackets that
they open, and so can the white space around it. -/
theorem exists_split_atRule {n : Node} {head : AtHead} (hn : n.atHead? = some head)
    (h : n.IsRead depth) :
    ∃ front at' blanks own gap back, Split depth n (front ++ at' :: blanks) own (gap ++ back) ∧
      at'.kind = .atKeyword ∧ textOf blanks = head.afterName ∧ (∀ u ∈ blanks, isWhitespace u) ∧
      (∀ u ∈ gap, isWhitespace u) ∧
      (∀ u ∈ back.head?, u.kind = .semicolon ∨ u.kind = .rightBrace ∨ u.kind = .leftBrace) ∧
      ∀ us, IsLevel us → CutsTo depth n (front ++ at' :: (us ++ back)) := by
  obtain ⟨start, fillers, t, rest, c, hlex, hf, ht, hk, hi, hc, hr⟩ := exists_itemCut_of_isRead h
  obtain ⟨hat, rfl, rfl⟩ := atRuleCut_of_atHead? hn hi hc
  have hname : t.text = "@" ++ String.ofList t.text.toList.tail := by
    obtain ⟨-, hfirst, -⟩ := found_append.mp (Token.found_of_lexFrom
      (hlex.trans (List.append_nil _).symm))
    exact hfirst.isSpelled.text_of_atKeyword hat
  have hown : (splitEnd (itemFront false (rest.dropWhile isWhitespace))).1 =
      textOf (trimEnd (itemFront false (rest.dropWhile isWhitespace))) := rfl
  have hleads := leads_trimEnd (leads_itemFront false (rest.dropWhile isWhitespace))
  have hsplit : trimEnd (itemFront false (rest.dropWhile isWhitespace)) ++
      (itemFront false (rest.dropWhile isWhitespace)).rtakeWhile isWhitespace =
        itemFront false (rest.dropWhile isWhitespace) :=
    List.rdropWhile_append_rtakeWhile
  have hgap : ∀ u ∈ (itemFront false (rest.dropWhile isWhitespace)).rtakeWhile isWhitespace,
      isWhitespace u := fun u hu => List.mem_rtakeWhile_imp hu
  generalize (itemFront false (rest.dropWhile isWhitespace)).rtakeWhile isWhitespace = gap
    at hsplit hgap
  generalize trimEnd (itemFront false (rest.dropWhile isWhitespace)) = own at hsplit hleads hown
  have hall : rest.dropWhile isWhitespace =
      own ++ (gap ++ itemEnd false (rest.dropWhile isWhitespace)) := by
    rw [← List.append_assoc, hsplit, itemFront, itemEnd, List.take_append_drop]
  refine ⟨fillers, t, rest.takeWhile isWhitespace, own, gap,
    itemEnd false (rest.dropWhile isWhitespace), ?_, hat, rfl,
    fun u hu => List.mem_takeWhile_imp hu, hgap, fun u hu => ?_, fun us hus => ?_⟩
  · have hlex' : lexFrom start (n.entry depth).source.toList =
        fillers ++ t :: rest.takeWhile isWhitespace ++
          (own ++ (gap ++ itemEnd false (rest.dropWhile isWhitespace))) := by
      rw [hlex, List.append_assoc, List.cons_append, ← hall, List.takeWhile_append_dropWhile]
    refine .of_lexed ?_ hlex' (hall ▸ hleads)
    rw [parts?_of_atHead? hn, ← hown, atHead]
    simp only [Token.textOf_append, Token.textOf_cons, String.append_assoc]
    conv_rhs => rw [hname]
    simp only [String.append_assoc]
  · obtain ⟨us, hus⟩ := List.head?_eq_some_iff.mp hu
    exact (itemEnd_eq_cons hus).imp_right fun hk => hk.imp_right And.right
  · have hend : itemEnd false (us ++ itemEnd false (rest.dropWhile isWhitespace)) =
        itemEnd false rest := by
      have hsame : SameDepth [] us := IsLevel.nil.sameDepth hus
      rw [hsame.itemEnd_eq (Nat.zero_le _), List.nil_append, itemEnd_itemEnd,
        itemEnd_dropWhile_isWhitespace]
    obtain ⟨hl, hr'⟩ := atRuleCut_congr (textOf fillers) t hend
    refine ⟨_, ?_, hl.trans hc.label_eq, by rw [hr', hr]⟩
    rw [firstCut_fillers hf ht hk, itemCut, if_neg (by rw [hat]; decide), if_pos hat]

/-! ### Rules -/

/-- The tokens start a rule, if a block follows. -/
def StartsRule (ts : List Token) : Prop :=
  ∃ t rest, ts = t :: rest ∧ isFiller t = false ∧ t.kind ≠ .rightBrace ∧ t.kind.isComment = false ∧
    t.kind ≠ .atKeyword ∧ startsCustomProperty ts = false

/-- What is read as a rule has a block behind its selector. -/
theorem ruleCut_of_isOf {head : RuleHead} {body : List Node} {after : String}
    (hi : itemCut before t rest = some c) (hn : c.IsOf (.rule head body after)) :
    ∃ brace tail, itemEnd false (t :: rest) = brace :: tail ∧ brace.kind = .leftBrace ∧
      c.rest = tail ∧ head.before = before ∧
      head.selector = textOf (trimEnd (itemFront false (t :: rest))) := by
  have hdeclaration {custom : Bool} (hd : declarationCut custom before t rest = some c) :
      False := by
    obtain ⟨colon, behind, -, -, -, rfl⟩ := declarationCut_eq_some hd
    cases hn
  unfold itemCut at hi
  split at hi
  next =>
    obtain rfl := Option.some.inj hi
    cases hn
  split at hi
  next =>
    have hne := (label_atRuleCut before t rest).1
    rw [Option.some.inj hi, hn.label_eq] at hne
    exact absurd rfl hne
  unfold ruleOrDeclarationCut at hi
  split at hi
  next => exact (hdeclaration hi).elim
  split at hi
  next => exact (hdeclaration hi).elim
  next brace tail hend =>
    split at hi
    next hk =>
      obtain rfl := Option.some.inj hi
      obtain ⟨body', after', hnode⟩ := hn
      obtain ⟨rfl, -, -⟩ := Node.rule.inj hnode
      exact ⟨brace, tail, hend, hk, rfl, rfl, rfl⟩
    next => exact (hdeclaration hi).elim

/-- The tokens of a rule up to its block, with the white space in front of the brace. -/
theorem exists_split_rule {head : RuleHead} {body : List Node} {after : String}
    (h : (Node.rule head body after).IsRead depth) :
    ∃ fillers own blanks brace,
      Split depth (.rule head body after) fillers own (blanks ++ [brace]) ∧
      (∀ u ∈ fillers, isFiller u) ∧ (∀ u ∈ blanks, isWhitespace u) ∧ brace.kind = .leftBrace := by
  obtain ⟨start, fillers, t, rest, c, hlex, hf, -, -, hi, hc, hr⟩ := exists_itemCut_of_isRead h
  obtain ⟨brace, tail, hend, hbrace, hrest, hbefore, hselector⟩ := ruleCut_of_isOf hi hc
  obtain rfl : tail = [] := by
    rw [hrest] at hr
    exact List.map_eq_nil_iff.mp hr
  have hsplit : trimEnd (itemFront false (t :: rest)) ++
      (itemFront false (t :: rest)).rtakeWhile isWhitespace = itemFront false (t :: rest) :=
    List.rdropWhile_append_rtakeWhile
  have hblanks : ∀ u ∈ (itemFront false (t :: rest)).rtakeWhile isWhitespace, isWhitespace u :=
    fun u hu => List.mem_rtakeWhile_imp hu
  have hall : itemFront false (t :: rest) ++ [brace] = t :: rest := by
    rw [← hend, itemFront, itemEnd, List.take_append_drop]
  rw [← hsplit, List.append_assoc] at hall
  refine ⟨fillers, _, _, brace, .of_lexed ?_ (by rw [hlex, hall]) ?_, hf, hblanks, hbrace⟩
  · rw [Node.parts?, hbefore, hselector]
  · rw [hall]
    exact leads_trimEnd (leads_itemFront false (t :: rest))

/-- **In a rule a selector can be replaced** by tokens that close what they open, if the
first of them starts a rule. -/
theorem cutsTo_rule {head : RuleHead} {body : List Node} {after : String} {fillers us : List Token}
    {brace : Token} (hf : ∀ u ∈ fillers, isFiller u) (hus : IsLevel us)
    (hbrace : brace.kind = .leftBrace) (hs : StartsRule (us ++ [brace])) :
    CutsTo depth (.rule head body after) (fillers ++ (us ++ [brace])) := by
  obtain ⟨u, vs, huvs, hu, hbr, hcomment, hat, hcustom⟩ := hs
  have hend : itemEnd false (u :: vs) = [brace] := by
    have hsame : SameDepth [] us := IsLevel.nil.sameDepth hus
    rw [← huvs, hsame.itemEnd_eq (Nat.zero_le _), List.nil_append, itemEnd, itemLength, hbrace]
    rfl
  rw [huvs] at hcustom ⊢
  obtain ⟨head', hcut⟩ : ∃ head', itemCut (textOf fillers) u vs =
      some (.opened (.rule head') brace []) := by
    rw [itemCut, if_neg (by simp [hcomment]), if_neg hat, ruleOrDeclarationCut,
      if_neg (by simp [hcustom]), hend]
    exact ⟨_, if_pos hbrace⟩
  exact ⟨_, by rw [firstCut_fillers hf hu hbr, hcut], rfl, rfl⟩

end Items

end Sheet
end StyleScope
