/-
# Selectors, preludes and values by themselves

A sheet keeps selectors, preludes of at-rules and values as texts, and what
reads such a text finds its tokens anew. They are the tokens that the sheet
was read from, at their places in the text (`tokenize_excerpt`).

An `Excerpt` is such a text and its place in the source. It ends in front of
white space, a brace, a semicolon, an exclamation mark or the end of the
source (`Token.Leads`). So no string stands behind it, and then its tokens are
the same without what is behind it, except for a string that is broken off
there (`Token.cutOff`).

Key definitions: `Token.Leads`, `Sheet.Excerpt`, `Sheet.excerpts`,
`Sheet.Excerpt.StandsIn`.
Key theorems: `Token.lexFrom_of_leads`, `Sheet.Parsed.standsIn`,
`Sheet.tokenize_excerpt`.
-/
import StyleScope.Proofs.Alone

namespace StyleScope

/-! ### Runs of tokens that are cut out -/

namespace Token

open Text

theorem isQuoted_scan {c : Char} (hc : isQuote c) (cs : List Char) :
    (scan c cs).kind.isQuoted := by
  rw [scan_of_isQuote hc, Lexeme.kind_extend]
  rcases scanString_ends c cs with hbad | ⟨terminated, -, hstring, -⟩
  · rw [hbad]
    rfl
  · rw [hstring]
    rfl

/-- The kinds of tokens that stand behind a text of a sheet. -/
def Kind.isBreak : Kind → Bool
  | whitespace | semicolon | leftBrace | rightBrace => true
  | delim c => c = '!'
  | _ => false

theorem Kind.isQuoted_of_isBreak {k : Kind} (h : k.isBreak) : k.isQuoted = false := by
  cases k <;> first | rfl | cases h

/-- The tokens start with `run`, and behind it stands what can stand behind a text
of a sheet. -/
def Leads (run ts : List Token) : Prop :=
  ∃ vs, ts = run ++ vs ∧ ∀ t ∈ vs.head?, t.kind.isBreak

/-- A run can be cut shorter in front of such a token. -/
theorem Leads.of_append {run more ts : List Token} (h : Leads (run ++ more) ts)
    (hmore : ∀ t ∈ more.head?, t.kind.isBreak) : Leads run ts := by
  obtain ⟨vs, rfl, hvs⟩ := h
  refine ⟨more ++ vs, List.append_assoc .., ?_⟩
  cases more with
  | nil => exact hvs
  | cons u us => exact hmore

theorem head?_of_head?_lexFrom {start : Nat} {cs : List Char}
    (h : ∀ t ∈ (lexFrom start cs).head?, t.kind.isQuoted = false) :
    cs.head?.any isQuote = false := by
  cases cs with
  | nil => rfl
  | cons c cs =>
    rw [lexFrom] at h
    rw [List.head?_cons, Option.any_some, Bool.eq_false_iff]
    intro hc
    have hquoted := isQuoted_scan hc cs
    rw [h _ rfl] at hquoted
    cases hquoted

/-- Tokens that lead others are found in their text alone. -/
theorem lexFrom_of_leads {start : Nat} {cs : List Char} {run : List Token}
    (h : Leads run (lexFrom start cs)) : lexFrom start (textOf run).toList = cutOff run := by
  obtain ⟨vs, hlex, hvs⟩ := h
  obtain ⟨y, rfl, rfl⟩ := lexFrom_eq_append hlex
  exact lexFrom_cut hlex fun _ =>
    head?_of_head?_lexFrom fun t ht => Kind.isQuoted_of_isBreak (hvs t ht)

theorem isSpelled_of_reads {source text : String} {ts : List Token}
    (h : Reads (lex source) text ts) : ∀ t ∈ ts, t.IsSpelled :=
  h.isSpelled fun _ ht => isSpelled_of_mem_lex ht

/-- A token starts behind the texts in front of it. -/
theorem start_of_reads {source text : String} {t : Token} {rest : List Token}
    (h : Reads (lex source) text (t :: rest)) : t.start = text.utf8ByteSize := by
  obtain ⟨taken, htaken, rfl⟩ := h
  have hall := endToEnd_lexFrom 0 source.toList
  rw [← lex, htaken] at hall
  rw [hall.start_eq, Nat.zero_add]

end Token

/-! ### Texts of a sheet and their places -/

namespace Sheet

open Token (Leads Reads isTrivia isWhitespace textOf)

/-- A text and the byte offset in the source where it starts. -/
structure Excerpt where
  start : Nat
  text : String
  deriving DecidableEq, Repr

/-- The selector. -/
def RuleHead.excerpt (h : RuleHead) : Excerpt :=
  ⟨h.offset, h.selector⟩

/-- The prelude. -/
def AtHead.excerpt (h : AtHead) : Excerpt :=
  ⟨h.offset + ("@" ++ h.name ++ h.afterName).utf8ByteSize, h.params⟩

/-- The value. -/
def Declaration.excerpt (d : Declaration) : Excerpt :=
  ⟨d.offset + (d.prop ++ d.between).utf8ByteSize, d.value⟩

def Head.excerpt : Head → Excerpt
  | .rule head => head.excerpt
  | .atRule head => head.excerpt

/-- The text of the node that is read by itself. -/
def Node.excerpt? : Node → Option Excerpt
  | .rule head _ _ => some head.excerpt
  | .atBlock head _ _ => some head.excerpt
  | .atStatement head _ => some head.excerpt
  | .declaration d => some d.excerpt
  | .comment _ => none

/-- All selectors, preludes and values of the sheet, those in blocks too. -/
def excerpts (s : Sheet) : List Excerpt :=
  (outlineNodes 0 s.nodes).filterMap fun p => p.2.excerpt?

namespace Excerpt

/-- The byte offset just after the text. -/
def stop (e : Excerpt) : Nat :=
  e.start + e.text.utf8ByteSize

/-- Whether the token is inside of the text. -/
def covers (e : Excerpt) (t : Token) : Bool :=
  e.start ≤ t.start && t.stop ≤ e.stop

/-- The text is the text of tokens of the source, with what can stand behind it
behind them. -/
def StandsIn (source : String) (e : Excerpt) : Prop :=
  ∃ before ts run, Reads (Token.lex source) before ts ∧ Leads run ts ∧
    e = ⟨before.utf8ByteSize, textOf run⟩

/-- The text stands in the source at its offset. -/
def Occurs (source : String) (e : Excerpt) : Prop :=
  ∃ before after, source = before ++ e.text ++ after ∧ e.start = before.utf8ByteSize

end Excerpt

/-! ### Where the texts end -/

/-- What ends an item ends its text. -/
theorem leads_itemFront (nestBraces : Bool) (ts : List Token) :
    Leads (itemFront nestBraces ts) ts := by
  refine ⟨itemEnd nestBraces ts, (List.take_append_drop _ ts).symm, ?_⟩
  intro u hu
  obtain ⟨us, hend⟩ := List.head?_eq_some_iff.mp hu
  rcases itemEnd_eq_cons hend with hk | hk | ⟨-, hk⟩ <;> rw [hk] <;> rfl

theorem isBreak_of_isWhitespace {t : Token} (h : isWhitespace t) : t.kind.isBreak := by
  rw [of_decide_eq_true h]
  rfl

theorem leads_trimEnd {run ts : List Token} (h : Leads run ts) : Leads (trimEnd run) ts := by
  have hsplit : trimEnd run ++ run.rtakeWhile isWhitespace = run :=
    List.rdropWhile_append_rtakeWhile
  rw [← hsplit] at h
  refine h.of_append fun u hu => isBreak_of_isWhitespace ?_
  exact List.mem_rtakeWhile_imp (List.mem_of_mem_head? hu)

/-- If there is a mark, the value stands in front of the exclamation mark or of
white space. -/
theorem leads_splitImportant {value ts : List Token} (h : Leads value ts) :
    Leads (splitImportant value).1 ts := by
  rcases splitImportant_cases value with hsplit | ⟨front, bang, mark, hvalue, hbang, hsplit⟩
  · rw [hsplit]
    exact h
  · rw [hsplit]
    rw [hvalue] at h
    refine leads_trimEnd (h.of_append fun u hu => ?_)
    rw [← Option.some.inj hu, hbang]
    rfl

/-! ### The texts of items -/

section Items

variable {source text before : String} {custom : Bool} {t : Token} {rest : List Token} {c : Cut}

theorem standsIn_atHead (h : Reads (Token.lex source) text (t :: rest)) (hk : t.kind = .atKeyword)
    (before : String) : (atHead before t rest).excerpt.StandsIn source := by
  have hread := (h.trans (Reads.head t rest)).trans (Reads.takeWhile isWhitespace rest)
  refine ⟨_, _, _, hread, leads_trimEnd (leads_itemFront false _), ?_⟩
  have hname := (Token.isSpelled_of_reads h t List.mem_cons_self).text_of_atKeyword hk
  simp only [AtHead.excerpt, atHead, ← hname, splitEnd, Token.start_of_reads h,
    String.utf8ByteSize_append, Nat.add_assoc]

theorem standsIn_declarationOf (h : Reads (Token.lex source) text (t :: rest))
    {between : String} {tail : List Token} (hread : Reads rest between tail) :
    (declarationOf custom before t between tail).excerpt.StandsIn source := by
  refine ⟨_, _, _, (h.trans (Reads.head t rest)).trans hread,
    leads_splitImportant (leads_trimEnd (leads_itemFront custom tail)), ?_⟩
  simp only [Declaration.excerpt, declarationOf, Token.start_of_reads h,
    String.utf8ByteSize_append, Nat.add_assoc]

/-- The text of what was cut off that is read by itself. -/
def Cut.excerpt? : Cut → Option Excerpt
  | .done node _ => node.excerpt?
  | .opened head _ _ => some head.excerpt

theorem standsIn_atRuleCut (h : Reads (Token.lex source) text (t :: rest))
    (hk : t.kind = .atKeyword) :
    ∀ e ∈ (atRuleCut before t rest).excerpt?, e.StandsIn source := by
  intro e he
  have hexcerpt : (atRuleCut before t rest).excerpt? = some (atHead before t rest).excerpt := by
    unfold atRuleCut
    repeat' split
    all_goals rfl
  rw [hexcerpt] at he
  rw [← Option.some.inj he]
  exact standsIn_atHead h hk before

theorem standsIn_declarationCut (h : Reads (Token.lex source) text (t :: rest))
    (hc : declarationCut custom before t rest = some c) :
    ∀ e ∈ c.excerpt?, e.StandsIn source := by
  intro e he
  obtain ⟨colon, behind, hd, -, -, rfl⟩ := declarationCut_eq_some hc
  have htrivia := Reads.takeWhile isTrivia rest
  rw [hd] at htrivia
  rw [← Option.some.inj he]
  exact standsIn_declarationOf h
    ((htrivia.trans (Reads.head colon behind)).trans (Reads.takeWhile isWhitespace behind))

theorem standsIn_ruleOrDeclarationCut (h : Reads (Token.lex source) text (t :: rest))
    (hc : ruleOrDeclarationCut before t rest = some c) :
    ∀ e ∈ c.excerpt?, e.StandsIn source := by
  unfold ruleOrDeclarationCut at hc
  split at hc
  · exact standsIn_declarationCut h hc
  split at hc
  · exact standsIn_declarationCut h hc
  split at hc
  · intro e he
    rw [← Option.some.inj hc] at he
    rw [← Option.some.inj he]
    refine ⟨_, _, _, h, leads_trimEnd (leads_itemFront false _), ?_⟩
    simp only [Head.excerpt, RuleHead.excerpt, splitEnd, Token.start_of_reads h]
  · exact standsIn_declarationCut h hc

theorem standsIn_itemCut (h : Reads (Token.lex source) text (t :: rest))
    (hc : itemCut before t rest = some c) : ∀ e ∈ c.excerpt?, e.StandsIn source := by
  unfold itemCut at hc
  split at hc
  · rw [← Option.some.inj hc]
    exact fun e he => nomatch he
  split at hc
  next hk =>
    rw [← Option.some.inj hc]
    exact standsIn_atRuleCut h hk
  · exact standsIn_ruleOrDeclarationCut h hc

end Items

/-! ### The texts of sheets -/

theorem excerpt?_node (h : Head) (body : List Node) (after : String) :
    (h.node body after).excerpt? = some h.excerpt := by
  cases h <;> rfl

/-- What holds of every item that is read where it stands holds of every node. -/
theorem Parsed.forall_outline {source : String} {P : Node → Prop}
    (hdone : ∀ {text before t rest node rest'}, Reads (Token.lex source) text (t :: rest) →
      itemCut before t rest = some (.done node rest') → P node)
    (hopened : ∀ {text before t rest head brace body},
      Reads (Token.lex source) text (t :: rest) →
      itemCut before t rest = some (.opened head brace body) →
      ∀ nodes after, P (head.node nodes after))
    {limit depth : Nat} {ts : List Token} {items : Items ts.length}
    (h : Parsed limit depth ts items) {text : String} (hts : Reads (Token.lex source) text ts) :
    ∀ d, ∀ p ∈ outlineNodes d items.nodes, P p.2 := by
  induction h generalizing text with
  | finish => exact fun d p hp => nomatch hp
  | close => exact fun d p hp => nomatch hp
  | @done depth ts rest rest' t node items hlt ht hk hi hp hle ih =>
    have hs := Token.isSpelled_of_reads hts
    have hitem := hts.trans (Reads.takeWhile isFiller ts)
    rw [ht] at hitem
    have hcut := itemCut_of_readItem hi
    intro d p hmem
    rw [Items.cons, outlineNodes, outline_of_hasBlock (hasBlock_of_itemCut hcut),
      List.singleton_append, List.mem_cons] at hmem
    rcases hmem with rfl | hmem
    · exact hdone hitem hcut
    · exact ih (hts.trans (reads_of_done hs ht hi)) d p hmem
  | @block depth ts rest body rest' t brace u head block items hlt ht hk hi hd hb hr hp hle
      ihb ih =>
    have hs := Token.isSpelled_of_reads hts
    have hitem := hts.trans (Reads.takeWhile isFiller ts)
    rw [ht] at hitem
    have hbody := hts.trans (reads_of_opened hs ht hi)
    have hclose := (hb.reads ((reads_of_opened hs ht hi).isSpelled hs)).1
    rw [hr] at hclose
    intro d p hmem
    rw [Items.cons, outlineNodes, outline_node, List.cons_append, List.mem_cons,
      List.mem_append] at hmem
    rcases hmem with rfl | hmem | hmem
    · exact hopened hitem (itemCut_of_readItem hi) _ _
    · exact ihb hbody (d + 1) p hmem
    · exact ih ((hbody.trans hclose).trans (Reads.head u rest')) d p hmem

/-- **The selectors, preludes and values that were read stand in the source.** -/
theorem Parsed.standsIn {limit depth : Nat} {ts : List Token} {items : Items ts.length}
    (h : Parsed limit depth ts items) {source text : String}
    (hts : Reads (Token.lex source) text ts) :
    ∀ d, ∀ p ∈ outlineNodes d items.nodes, ∀ e ∈ p.2.excerpt?, e.StandsIn source := by
  refine h.forall_outline (P := fun n => ∀ e ∈ n.excerpt?, e.StandsIn source) ?_ ?_ hts
  · intro text before t rest node rest' hitem hcut
    exact standsIn_itemCut hitem hcut
  · intro text before t rest head brace body hitem hcut nodes after
    rw [excerpt?_node]
    exact standsIn_itemCut hitem hcut

theorem standsIn_of_parse {source : String} {s : Sheet} (h : (parse source).result = .ok s)
    {e : Excerpt} (he : e ∈ s.excerpts) : e.StandsIn source := by
  obtain ⟨items, hp, hitems⟩ := parse_eq_ok.mp h
  obtain ⟨p, hmem, hexcerpt⟩ := List.mem_filterMap.mp he
  rw [← (Listing.mk.inj hitems).1] at hmem
  exact (parsed_of_parseItems hp).standsIn (Reads.nil _) 0 p hmem e hexcerpt

/-! ### The tokens of the texts -/

namespace Excerpt

variable {source : String} {e : Excerpt}

theorem StandsIn.occurs (h : e.StandsIn source) : e.Occurs source := by
  obtain ⟨-, ts, run, ⟨us, hlex, rfl⟩, ⟨vs, rfl, -⟩, rfl⟩ := h
  refine ⟨textOf us, textOf vs, ?_, rfl⟩
  rw [← Token.textOf_lex source, hlex, Token.textOf_append, Token.textOf_append,
    String.append_assoc]

theorem covers_iff {t : Token} : e.covers t ↔ e.start ≤ t.start ∧ t.stop ≤ e.stop := by
  rw [covers, Bool.and_eq_true, decide_eq_true_eq, decide_eq_true_eq]

/-- The tokens inside of the text of a run are the run. -/
theorem filter_covers {us run vs : List Token} (h : Token.lex source = us ++ (run ++ vs)) :
    (Token.lex source).filter (covers ⟨(textOf us).utf8ByteSize, textOf run⟩) = run := by
  have hall := Token.endToEnd_lexFrom 0 source.toList
  rw [← Token.lex, h] at hall
  obtain ⟨hus, hrest⟩ := hall.split
  obtain ⟨hrun, hvs⟩ := hrest.split
  rw [Nat.zero_add] at hus hrun hvs
  have hpos : ∀ t ∈ us ++ (run ++ vs), t.start < t.stop := by
    rw [← h]
    exact fun t ht => Token.start_lt_stop_of_mem_lexFrom ht
  have hbefore : us.filter (covers ⟨(textOf us).utf8ByteSize, textOf run⟩) = [] := by
    rw [List.filter_eq_nil_iff]
    intro t ht hcovers
    have hlt := hpos t (List.mem_append_left _ ht)
    have hle := (hus.bounds ht).2
    have hstart : (textOf us).utf8ByteSize ≤ t.start := (covers_iff.mp hcovers).1
    omega
  have hinside : run.filter (covers ⟨(textOf us).utf8ByteSize, textOf run⟩) = run := by
    rw [List.filter_eq_self]
    exact fun t ht => covers_iff.mpr (hrun.bounds ht)
  have hbehind : vs.filter (covers ⟨(textOf us).utf8ByteSize, textOf run⟩) = [] := by
    rw [List.filter_eq_nil_iff]
    intro t ht hcovers
    have hlt := hpos t (List.mem_append_right _ (List.mem_append_right _ ht))
    have hle := (hvs.bounds ht).1
    have hstop : t.stop ≤ (textOf us).utf8ByteSize + (textOf run).utf8ByteSize :=
      (covers_iff.mp hcovers).2
    omega
  rw [h, List.filter_append, List.filter_append, hbefore, hinside, hbehind, List.nil_append,
    List.append_nil]

/-- The tokens of a text by itself are those of the source inside of it. -/
theorem StandsIn.lex_text (h : e.StandsIn source) :
    Token.lex e.text =
      (Token.cutOff ((Token.lex source).filter e.covers)).map (Token.relocate (· - e.start)) := by
  obtain ⟨-, ts, run, ⟨us, hlex, rfl⟩, hleads, rfl⟩ := h
  obtain ⟨cs, -, hts⟩ := Token.lexFrom_eq_append hlex
  rw [hts] at hleads
  have hrun := Token.lexFrom_of_leads hleads
  rw [Token.lexFrom_add] at hrun
  obtain ⟨vs, hvs, -⟩ := hleads
  rw [hts, hvs] at hlex
  rw [filter_covers hlex, ← hrun, List.map_map, Token.lex]
  have hback : Token.relocate (· - (textOf us).utf8ByteSize) ∘
      Token.relocate (· + (textOf us).utf8ByteSize) = id := by
    funext t
    simp [Token.relocate]
  rw [hback, List.map_id]

end Excerpt

/-- **Selectors, preludes and values have the tokens of the sheet**, at their
places in the text, and an end mark. Only a string that is broken off behind the
text is not closed in it instead. -/
theorem tokenize_excerpt {source : String} {s : Sheet} (h : (parse source).result = .ok s)
    {e : Excerpt} (he : e ∈ s.excerpts) :
    e.Occurs source ∧
      Token.tokenize e.text =
        (Token.cutOff ((Token.lex source).filter e.covers)).map (Token.relocate (· - e.start)) ++
          [Token.endOf e.text.utf8ByteSize] := by
  have hstands := standsIn_of_parse h he
  refine ⟨hstands.occurs, ?_⟩
  rw [Token.tokenize, hstands.lex_text]

/-- A url with a quote, brackets around a semicolon, an escape that takes white
space, a custom property with a block and a mark, a string that a newline
breaks off, and a prelude at the end of the source. -/
theorem tokenize_excerpt_nested :
    ∃ source s,
      source = "@m url( \"a\" ) (b;c)\x7bd/**/#e >\\66 f\x7b--g: -1e3e \x7b;\x7d " ++
        "! important;h:'i\n\x7d\x7d@j k-" ∧
      (parse source).result = .ok s ∧
      s.excerpts =
        [⟨3, "url( \"a\" ) (b;c)"⟩, ⟨20, "d/**/#e >\\66 f"⟩, ⟨40, "-1e3e \x7b;\x7d"⟩, ⟨64, "'i"⟩,
          ⟨72, "k-"⟩] ∧
      ∀ e ∈ s.excerpts,
        e.Occurs source ∧
          Token.tokenize e.text =
            (Token.cutOff ((Token.lex source).filter e.covers)).map
                (Token.relocate (· - e.start)) ++
              [Token.endOf e.text.utf8ByteSize] := by
  have hok :
      (match (parse ("@m url( \"a\" ) (b;c)\x7bd/**/#e >\\66 f\x7b--g: -1e3e \x7b;\x7d " ++
        "! important;h:'i\n\x7d\x7d@j k-")).result with
      | .ok s => decide (s.excerpts =
        [⟨3, "url( \"a\" ) (b;c)"⟩, ⟨20, "d/**/#e >\\66 f"⟩, ⟨40, "-1e3e \x7b;\x7d"⟩, ⟨64, "'i"⟩,
          ⟨72, "k-"⟩])
      | .error _ => false) = true := by
    decide +kernel
  split at hok
  next s hs => exact ⟨_, s, rfl, hs, of_decide_eq_true hok, fun e he => tokenize_excerpt hs he⟩
  next => cases hok

end Sheet
end StyleScope
