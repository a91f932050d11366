/-
# A sheet prints as it was read

An item is cut into as many as seven texts, and the cuts are found by looking
ahead: for the end of the item, for its last token that is not white space,
for the mark `!important`. Every cut is between tokens, and the texts are those
of neighbouring runs of tokens (`textOf_splitEnd`, `textOf_splitImportant`),
so an item prints the tokens that it takes (`covers_readItem`).

`Parsed` has one rule for each way in which a list of items goes on, and what
holds of every sheet that was read is shown by induction over these rules.

Key definitions: `Sheet.Parsed`, `Sheet.Item.Covers`.
Key theorems: `Sheet.parsed_of_parseItems`, `Sheet.Parsed.reads`,
`Sheet.print_of_parse_sheet`.
-/
import StyleScope.Proofs.Reading
import StyleScope.Sheet.Parser

namespace StyleScope
namespace Sheet

open Token (Reads StopsAt)

/-! ### The rules of reading -/

/-- The items are read from the tokens `ts`. -/
inductive Parsed (limit : Nat) : Nat → (ts : List Token) → Items ts.length → Prop where
  /-- The tokens end. -/
  | finish {depth : Nat} {ts : List Token} (ht : ts.dropWhile isFiller = [])
    (hle : 0 ≤ ts.length) :
    Parsed limit depth ts ⟨[], Token.textOf (ts.takeWhile isFiller), [], hle⟩
  /-- A brace closes the block around. -/
  | close {depth : Nat} {ts rest : List Token} {t : Token}
    (ht : ts.dropWhile isFiller = t :: rest) (hk : t.kind = .rightBrace)
    (hle : (t :: rest).length ≤ ts.length) :
    Parsed limit depth ts ⟨[], Token.textOf (ts.takeWhile isFiller), t :: rest, hle⟩
  /-- An item without a block. -/
  | done {depth : Nat} {ts rest rest' : List Token} {t : Token} {node : Node}
    {items : Items rest'.length} {hlt : rest'.length < rest.length + 1}
    (ht : ts.dropWhile isFiller = t :: rest) (hk : t.kind ≠ .rightBrace)
    (hi : (readItem (Token.textOf (ts.takeWhile isFiller)) t rest).result =
      .ok (.done node rest' hlt))
    (hp : Parsed limit depth rest' items) (hle : rest'.length ≤ ts.length) :
    Parsed limit depth ts (items.cons node hle)
  /-- An item with a block that is closed by `u`. -/
  | block {depth : Nat} {ts rest body rest' : List Token} {t brace u : Token} {head : Head}
    {block : Items body.length} {items : Items rest'.length} {hlt : body.length < rest.length + 1}
    (ht : ts.dropWhile isFiller = t :: rest) (hk : t.kind ≠ .rightBrace)
    (hi : (readItem (Token.textOf (ts.takeWhile isFiller)) t rest).result =
      .ok (.opened head brace body hlt))
    (hd : depth < limit) (hb : Parsed limit (depth + 1) body block) (hr : block.rest = u :: rest')
    (hp : Parsed limit depth rest' items) (hle : rest'.length ≤ ts.length) :
    Parsed limit depth ts (items.cons (head.node block.nodes block.after) hle)

/-- What is read is read by the rules. -/
theorem parsed_of_parseItems {limit depth : Nat} {ts : List Token} {items : Items ts.length}
    (h : (parseItems limit depth ts).result = .ok items) : Parsed limit depth ts items := by
  fun_induction parseItems limit depth ts with
  | case1 => cases h; exact .finish ‹_› _
  | case2 => cases h; exact .close ‹_› ‹_› _
  | case3 =>
    rename_i ih ih' ih''
    obtain ⟨item, hi, h⟩ := Traced.bind_eq_ok.mp h
    cases item with
    | done node rest' hlt =>
      obtain ⟨items', hp, h⟩ := Traced.bind_eq_ok.mp h
      cases h
      exact .done ‹_› ‹_› hi (ih rest' hlt hp) _
    | opened head brace body hlt =>
      simp only at h
      split at h
      next => cases h
      next hd =>
        obtain ⟨block, hb, h⟩ := Traced.bind_eq_ok.mp h
        split at h
        next => cases h
        next u rest' hr =>
          obtain ⟨items', hp, h⟩ := Traced.bind_eq_ok.mp h
          cases h
          exact .block ‹_› ‹_› hi (Nat.lt_of_not_le hd) (ih' body hlt hb) hr
            (ih'' body hlt block u rest' hr hp) _

/-! ### Cutting runs of tokens -/

theorem isPrefix_trimEnd (ts : List Token) : trimEnd ts <+: ts :=
  List.rdropWhile_prefix Token.isWhitespace ts

/-- White space at the end is cut off, not lost. -/
theorem textOf_splitEnd (ts : List Token) : (splitEnd ts).1 ++ (splitEnd ts).2 = Token.textOf ts :=
  Token.textOf_prefix (isPrefix_trimEnd ts)

/-- A value has no mark, or the mark is cut off from the exclamation mark on,
with the white space in front of it. -/
theorem splitImportant_cases (value : List Token) :
    splitImportant value = (value, none) ∨
      ∃ front bang mark, value = front ++ bang :: mark ∧ bang.kind = .delim '!' ∧
        splitImportant value = (trimEnd front, some (value.drop (trimEnd front).length)) := by
  unfold splitImportant
  split
  next => exact .inl rfl
  next last front hv =>
    split
    next =>
      split
      next => exact .inl rfl
      next bang front' hf =>
        split
        next hbang =>
          -- seen from the end, the value goes on behind the mark and white space
          have hfront : front.takeWhile Token.isWhitespace ++ bang :: front' = front := by
            rw [← hf, List.takeWhile_append_dropWhile]
          have hvalue : value = front'.reverse ++
              bang :: ((front.takeWhile Token.isWhitespace).reverse ++ [last]) := by
            calc value = (last :: front).reverse := by rw [← hv, List.reverse_reverse]
              _ = (front.takeWhile Token.isWhitespace ++ bang :: front').reverse ++ [last] := by
                rw [hfront, List.reverse_cons]
              _ = _ := by simp
          refine .inr ⟨front'.reverse, bang, _, hvalue, hbang, ?_⟩
          rw [trimEnd, List.reverse_reverse]
        next => exact .inl rfl
    next => exact .inl rfl

/-- The mark `!important` is cut off, not lost. -/
theorem textOf_splitImportant (value : List Token) :
    Token.textOf (splitImportant value).1 ++ ((splitImportant value).2.map Token.textOf).getD "" =
      Token.textOf value := by
  rcases splitImportant_cases value with hsplit | ⟨front, bang, mark, hvalue, -, hsplit⟩
  · rw [hsplit]
    simp
  · rw [hsplit]
    refine Token.textOf_prefix ((isPrefix_trimEnd front).trans ?_)
    rw [hvalue]
    exact List.prefix_append ..

/-- A semicolon that ends an item is taken with it. -/
theorem reads_semicolon (ts : List Token) (hs : ∀ t ∈ ts, t.IsSpelled) :
    Reads ts (printSemicolon (ts.head?.any fun u => u.kind = .semicolon))
      (ts.drop (if ts.head?.any fun u => u.kind = .semicolon then 1 else 0)) := by
  cases ts with
  | nil => exact Reads.nil []
  | cons t ts =>
    by_cases hk : t.kind = .semicolon
    · have ht := (hs t (List.mem_cons_self ..)).reads (by rw [hk]; rfl) ts
      simpa [hk, printSemicolon] using ht
    · simpa [hk, printSemicolon] using Reads.nil (t :: ts)

/-! ### Items -/

/-- What stands in front of a block. -/
def Head.print : Head → String
  | .rule head => head.print
  | .atRule head => head.print

theorem Head.print_node (h : Head) (body : List Node) (after : String) :
    (h.node body after).print = h.print ++ "\x7b" ++ printNodes body ++ after ++ "\x7d" := by
  cases h <;> simp [Head.node, Head.print, Node.print]

/-- The item takes the tokens that it prints behind the text `before`; if it
has a block, up to the brace. -/
def Item.Covers {n : Nat} (before : String) (ts : List Token) : Item n → Prop
  | .done node rest _ => ∃ text, Reads ts text rest ∧ node.print = before ++ text
  | .opened head _ body _ => ∃ text, Reads ts (text ++ "\x7b") body ∧ head.print = before ++ text

theorem covers_readAtRule (before : String) {t : Token} {rest : List Token}
    (hk : t.kind = .atKeyword) (hs : ∀ u ∈ t :: rest, u.IsSpelled) :
    (readAtRule before t rest).Covers before (t :: rest) := by
  have hname := (hs t (List.mem_cons_self ..)).text_of_atKeyword hk
  -- the name, white space and the tokens in front of the end
  have hblanks := (Reads.head t rest).trans
    (Reads.of_prefix (List.takeWhile_prefix (l := rest) Token.isWhitespace))
  have hparams := Reads.take
    (itemLength false 0 (rest.drop (rest.takeWhile Token.isWhitespace).length))
    (rest.drop (rest.takeWhile Token.isWhitespace).length)
  rw [← textOf_splitEnd] at hparams
  have hhead := hblanks.trans hparams
  rw [hname] at hhead
  have hs' := hhead.isSpelled hs
  simp only [readAtRule]
  split
  next hend =>
    rw [hend] at hhead
    refine ⟨_, hhead, ?_⟩
    simp [Node.print, AtHead.print, printSemicolon, String.append_assoc]
  next u us hend =>
    rw [hend] at hhead hs'
    have hu := hs' u (List.mem_cons_self ..)
    split
    next hbrace =>
      have hopen : Reads (u :: us) "\x7b" us :=
        hu.reads (c := '\x7b') (by rw [hbrace]; rfl) us
      refine ⟨_, hhead.trans hopen, ?_⟩
      simp [Head.print, AtHead.print, String.append_assoc]
    split
    next hsemi =>
      refine ⟨_, hhead.trans (hu.reads (by rw [hsemi]; rfl) us), ?_⟩
      simp [Node.print, AtHead.print, printSemicolon, String.append_assoc]
    next =>
      refine ⟨_, hhead, ?_⟩
      simp [Node.print, AtHead.print, printSemicolon, String.append_assoc]

theorem covers_readDeclaration {custom : Bool} {before : String} {t : Token} {rest : List Token}
    {item : Item (rest.length + 1)}
    (h : (readDeclaration custom before t rest).result = .ok item)
    (hs : ∀ u ∈ t :: rest, u.IsSpelled) : item.Covers before (t :: rest) := by
  have htrivia := (Reads.head t rest).trans
    (Reads.of_prefix (List.takeWhile_prefix (l := rest) Token.isTrivia))
  simp only [readDeclaration] at h
  split at h
  next => cases h
  next colon behind hc =>
    split at h
    next =>
      obtain ⟨-, -, h⟩ := Traced.bind_eq_ok.mp h
      cases h
      rw [hc] at htrivia
      have hblanks := (htrivia.trans (Reads.head colon behind)).trans
        (Reads.of_prefix (List.takeWhile_prefix Token.isWhitespace))
      simp only [Item.Covers]
      generalize behind.drop (behind.takeWhile Token.isWhitespace).length = tail at hblanks ⊢
      have hvalue := Reads.take (itemLength custom 0 tail) tail
      rw [← Token.textOf_prefix (isPrefix_trimEnd _), ← textOf_splitImportant] at hvalue
      have hall := hblanks.trans hvalue
      refine ⟨_, hall.trans (reads_semicolon _ (hall.isSpelled hs)), ?_⟩
      simp [Node.print, Declaration.print, String.append_assoc]
    next => cases h

theorem covers_readRuleOrDeclaration {before : String} {t : Token} {rest : List Token}
    {item : Item (rest.length + 1)}
    (h : (readRuleOrDeclaration before t rest).result = .ok item)
    (hs : ∀ u ∈ t :: rest, u.IsSpelled) : item.Covers before (t :: rest) := by
  have hhead := Reads.take (itemLength false 0 (t :: rest)) (t :: rest)
  rw [← textOf_splitEnd] at hhead
  simp only [readRuleOrDeclaration] at h
  split at h
  · exact covers_readDeclaration h hs
  split at h
  · exact covers_readDeclaration h hs
  next brace body hd =>
    split at h
    next hbrace =>
      cases h
      rw [hd] at hhead
      have hb := hhead.isSpelled hs brace (List.mem_cons_self ..)
      have hopen : Reads (brace :: body) "\x7b" body :=
        hb.reads (c := '\x7b') (by rw [hbrace]; rfl) body
      refine ⟨_, hhead.trans hopen, ?_⟩
      simp [Head.print, RuleHead.print, String.append_assoc]
    · exact covers_readDeclaration h hs

/-- An item takes the tokens that it prints. -/
theorem covers_readItem {before : String} {t : Token} {rest : List Token}
    {item : Item (rest.length + 1)} (h : (readItem before t rest).result = .ok item)
    (hs : ∀ u ∈ t :: rest, u.IsSpelled) : item.Covers before (t :: rest) := by
  unfold readItem at h
  split at h
  · cases h
    exact ⟨t.text, Reads.head t rest, by rw [Node.print]⟩
  split at h
  next hk =>
    cases h
    exact covers_readAtRule before hk hs
  · exact covers_readRuleOrDeclaration h hs

/-! ### Sheets -/

/-- Items that were read print the tokens they were read from, up to the end
or to a brace. -/
theorem Parsed.reads {limit depth : Nat} {ts : List Token} {items : Items ts.length}
    (h : Parsed limit depth ts items) (hs : ∀ t ∈ ts, t.IsSpelled) :
    Reads ts (printNodes items.nodes ++ items.after) items.rest ∧
      StopsAt .rightBrace items.rest := by
  induction h with
  | @finish _ ts ht =>
    have hfill := Reads.takeWhile isFiller ts
    rw [ht] at hfill
    exact ⟨by simpa using hfill, Token.stopsAt_nil _⟩
  | @close _ ts rest t ht hk =>
    have hfill := Reads.takeWhile isFiller ts
    rw [ht] at hfill
    exact ⟨by simpa using hfill, Token.stopsAt_cons.mpr hk⟩
  | @done _ ts rest rest' t node items _ ht _ hi _ _ ih =>
    have hfill := Reads.takeWhile isFiller ts
    rw [ht] at hfill
    obtain ⟨text, hread, hprint⟩ := covers_readItem hi (hfill.isSpelled hs)
    have hnode := hfill.trans hread
    rw [← hprint] at hnode
    obtain ⟨hmore, hstop⟩ := ih (hnode.isSpelled hs)
    refine ⟨?_, hstop⟩
    simpa [Items.cons, String.append_assoc] using hnode.trans hmore
  | @block _ ts rest body rest' t brace u head block items _ ht _ hi _ _ hr _ _ ihb ih =>
    have hfill := Reads.takeWhile isFiller ts
    rw [ht] at hfill
    obtain ⟨text, hread, hprint⟩ := covers_readItem hi (hfill.isSpelled hs)
    have hhead := hfill.trans hread
    have hbody := hhead.isSpelled hs
    obtain ⟨hblock, hstop⟩ := ihb hbody
    rw [hr] at hblock hstop
    have hclose := (hblock.isSpelled hbody u (List.mem_cons_self ..)).reads
      (by rw [Token.stopsAt_cons.mp hstop]; rfl) rest'
    have hnode := (hhead.trans hblock).trans hclose
    obtain ⟨hmore, hstop'⟩ := ih (hnode.isSpelled hs)
    refine ⟨?_, hstop'⟩
    simpa [Items.cons, Head.print_node, hprint, String.append_assoc] using hnode.trans hmore

/-- Under any limit, what is read prints as it was read. -/
theorem print_parseWithin {limit : Nat} {source : String} {s : Sheet}
    (h : (parseWithin limit source).result = .ok s) : s.print = source := by
  obtain ⟨items, hp, h⟩ := Traced.bind_eq_ok.mp h
  have hread := (parsed_of_parseItems hp).reads fun t ht => Token.isSpelled_of_mem_lex ht
  split at h
  next hr =>
    cases h
    rw [hr] at hread
    exact hread.1.eq_textOf.trans (Token.textOf_lex source)
  next => cases h

/-- **A sheet prints as it was read.** -/
theorem print_of_parse_sheet {source : String} {s : Sheet} (h : (parse source).result = .ok s) :
    s.print = source :=
  print_parseWithin h

/-- A sheet with marks of old markup, stray semicolons, a custom property that
holds a block, a mark with white space inside, and an at-rule that is cut off. -/
theorem print_of_parse_sheet_nested :
    ∃ s,
      (parse "<!-- ;@m (a;b)\x7b--c:\x7bd;\x7d;; e\x7bf/**/:g ! IMPORTANT\x7d\x7d\n@i j ").result =
        .ok s ∧
      s.print = "<!-- ;@m (a;b)\x7b--c:\x7bd;\x7d;; e\x7bf/**/:g ! IMPORTANT\x7d\x7d\n@i j " :=
  exists_ok_of_isOk (by decide +kernel) fun _ h => print_of_parse_sheet h

end Sheet
end StyleScope
