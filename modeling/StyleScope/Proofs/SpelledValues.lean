/-
# The tokens of the nodes of a value

The tokens that a value was read from are those of its nodes, run after run
(`Spells`). A word has its tokens also by itself. White space, a divider and a
comment end in a token that a name can stand right behind; a string and an unquoted
url do not (`Node.isTight`). A call has tokens for its name, for the white space at
both ends of its arguments, and for its closing parenthesis.

Only tokens that broke off are left out (`Kind.isBroken`): what is a word in front of
a line's end may be a string by itself.

Key definitions: `Token.Kind.isBroken`, `Scope.Spells`.
Key theorems: `Scope.spells_parseNodes`.
-/
import StyleScope.Proofs.FoundTokens
import StyleScope.Scope.Animation

namespace StyleScope

open Text

namespace Token

/-- The kinds of tokens that the end of a line or of the text broke off. -/
def Kind.isBroken (k : Kind) : Bool :=
  k.isMalformed || k.terminated? = some false

/-- The kinds of tokens that no name goes on with. -/
def Kind.isLoose : Kind → Bool
  | whitespace | comma | comment _ => true
  | delim c => c = '/'
  | _ => false

section Kinds

variable {t : Token} {y : List Char}

/-- What is read as a url by itself is called `url`. -/
theorem Precedes.sameWord_of_url {terminated : Bool} (h : t.Precedes y)
    (hk : t.kind = .url terminated) :
    sameWord (String.ofList (t.text.toList.takeWhile (· ≠ '('))) "url" := by
  obtain ⟨c, w, htext, hscan⟩ := h
  rw [hk] at hscan
  have hkind : (scan c (w ++ y)).kind.isNamed := by rw [hscan]; rfl
  have hnamed := (scan_of_isNamed hkind).2
  rw [hscan] at hnamed
  obtain ⟨rest, n, hdrop, hlength, -, hparen⟩ := exists_of_scanNamed (c :: (w ++ y))
    (.inr ⟨terminated, by rw [← hnamed]⟩)
  rw [← hnamed] at hlength hparen
  have hname := hparen (by simp)
  have htake : (c :: w).takeWhile (· ≠ '(') =
      (c :: (w ++ y)).take (nameLength (c :: (w ++ y))) := by
    have hall : c :: w = (c :: (w ++ y)).take (nameLength (c :: (w ++ y)) + 1 + n) := by
      rw [← hlength, ← List.cons_append, List.take_left]
    have hpass : ∀ d ∈ (c :: (w ++ y)).take (nameLength (c :: (w ++ y))),
        decide (d ≠ '(') = true := fun d hd => decide_eq_true fun he => hname (he ▸ hd)
    rw [hall, Nat.add_assoc, List.take_add, hdrop, Nat.add_comm 1, List.take_succ_cons,
      List.takeWhile_append_of_pos hpass]
    simp
  rw [htext, htake]
  have hurl := congrArg Lexeme.kind hnamed.symm
  rw [scanNamed_eq] at hurl
  exact isUrl_of_nameBefore hurl

/-- A token that no name goes on with starts like that. -/
theorem Precedes.exists_of_isLoose (h : t.Precedes y) (hk : t.kind.isLoose) :
    ∃ c w, t.text.toList = c :: w ∧ isName c = false ∧ c ≠ '\\' ∧ c ≠ '(' := by
  obtain ⟨c, w, htext, hscan⟩ := id h
  refine ⟨c, w, htext, ?_⟩
  have hmark {d : Char} (hd : t.kind.char? = some d) : c = d := by
    have hone := h.isSpelled.text_eq hd
    rw [← String.toList_inj, htext, String.toList_singleton] at hone
    exact (List.cons.inj hone).1
  cases hkind : t.kind with
  | whitespace =>
    have hc := (cut_of_scan_whitespace (hkind ▸ hscan)).1
    refine ⟨Scope.isName_of_isSpace hc, ?_, ?_⟩ <;> rintro rfl <;> cases hc
  | comment terminated =>
    have hc : c = '/' := by
      have hslash := h.head_of_comment hkind
      rw [htext] at hslash
      exact Option.some.inj hslash
    rw [hc]
    decide
  | comma =>
    rw [hmark (d := ',') (by rw [hkind]; rfl)]
    decide
  | delim d =>
    rw [hkind] at hk
    obtain rfl : d = '/' := of_decide_eq_true hk
    rw [hmark (d := '/') (by rw [hkind]; rfl)]
    decide
  | _ => rw [hkind] at hk; cases hk

end Kinds

end Token

namespace Scope

open Token (Found bareLex isStop isWhitespace lexFrom relocate textOf)
open Value (Node Opening leaf opening? parseNodes)

/-- White space, dividers and comments. -/
def isSeparator : Node → Bool
  | .space _ _ | .divider _ _ _ _ | .comment _ _ => true
  | _ => false

/-- Words, strings and urls: no name can stand right behind them. -/
def isTight : Node → Bool
  | .word _ _ | .string _ _ _ _ => true
  | .function _ name _ _ _ _ => Role.ofName name = .url
  | _ => false

theorem isTight_function {start : Nat} {name before after : String} {arguments : List Node}
    {unclosed : Bool} (h : Role.ofName name = .url) :
    isTight (.function start name before arguments after unclosed) := by
  simp only [isTight, h, decide_true]

/-- The tokens open a call: one with its name and parenthesis, and perhaps a colon in
front of it. -/
def IsOpening (ts : List Token) : Prop :=
  (∃ t, ts = [t] ∧ t.kind.opensParen) ∨
    ∃ colon t, ts = [colon, t] ∧ colon.kind = .colon ∧ t.kind = .function

/-- The tokens are those of the nodes, run after run. -/
inductive Spells : List Node → List Token → Prop where
  | nil : Spells [] []
  | word {start : Nat} {text : String} {run ts : List Token} {ns : List Node}
    (hrun : bareLex text.toList = run.map (relocate fun _ => 0)) (hne : run ≠ [])
    (hquoted : ∀ t ∈ run.head?, t.kind.isQuoted = false) (h : Spells ns ts) :
    Spells (.word start text :: ns) (run ++ ts)
  | loose {n : Node} {run ts : List Token} {ns : List Node} (hn : isSeparator n)
    (htext : textOf run = n.print) (hspace : n.isSpacing → ∀ u ∈ run, u.isWhitespace)
    (hfirst : ∃ t ∈ run.head?, t.kind.isLoose) (hlast : ∃ t ∈ run.getLast?, t.kind.isFirm)
    (h : Spells ns ts) : Spells (n :: ns) (run ++ ts)
  | tight {n : Node} {t : Token} {ts : List Token} {ns : List Node} (hn : isTight n)
    (hw : n.word? = none) (htext : t.text = n.print) (hstop : t.text.toList.any isStop)
    (h : Spells ns ts) : Spells (n :: ns) (t :: ts)
  | call {start : Nat} {name before after : String} {arguments ns : List Node} {unclosed : Bool}
    {opening first inside last closing ts : List Token} (hopening : IsOpening opening)
    (hopen : textOf opening ++ textOf first = name ++ "(" ++ before)
    (hfirst : ∀ u ∈ first, u.isWhitespace) (harguments : Spells arguments inside)
    (hlast : ∀ u ∈ last, u.isWhitespace) (hafter : textOf last = after)
    (hclosing : unclosed = false → ∃ t, closing = [t] ∧ t.kind = .rightParen)
    (hclose : textOf closing = if unclosed then "" else ")") (h : Spells ns ts) :
    Spells (.function start name before arguments after unclosed :: ns)
      (opening ++ (first ++ (inside ++ (last ++ (closing ++ ts)))))

theorem textOf_bareLex (cs : List Char) : textOf (bareLex cs) = String.ofList cs := by
  rw [bareLex, Token.textOf_map_relocate, Token.textOf_lexFrom]

/-- The text of the tokens is what the nodes print. -/
theorem Spells.textOf_eq {ns : List Node} {ts : List Token} (h : Spells ns ts) :
    textOf ts = Value.print ns := by
  induction h with
  | nil => rfl
  | word hrun _ _ _ ih =>
    have htext := congrArg textOf hrun
    rw [textOf_bareLex, Token.textOf_map_relocate, String.ofList_toList] at htext
    rw [Token.textOf_append, ih, Value.print_cons, Node.print, htext]
  | loose _ htext _ _ _ _ ih => rw [Token.textOf_append, ih, Value.print_cons, htext]
  | tight _ _ htext _ _ ih => rw [Token.textOf_cons, ih, Value.print_cons, htext]
  | call _ hopen _ _ _ hafter _ hclose _ harguments ih =>
    simp only [Token.textOf_append, harguments, hafter, hclose, ih, Value.print_cons, Node.print]
    rw [← String.append_assoc, hopen]
    simp only [String.append_assoc]

/-! ### White space that a call takes -/

theorem Spells.takeFirstSpace {ns : List Node} {ts : List Token} (h : Spells ns ts) :
    ∃ first rest, ts = first ++ rest ∧ (∀ u ∈ first, u.isWhitespace) ∧
      textOf first = (Value.takeFirstSpace ns).1 ∧ Spells (Value.takeFirstSpace ns).2 rest := by
  have hnone (hn : Value.takeFirstSpace ns = ("", ns)) :
      ∃ first rest, ts = first ++ rest ∧ (∀ u ∈ first, u.isWhitespace) ∧
        textOf first = (Value.takeFirstSpace ns).1 ∧ Spells (Value.takeFirstSpace ns).2 rest :=
    ⟨[], ts, rfl, by simp, by rw [hn]; rfl, by rw [hn]; exact h⟩
  cases ns with
  | nil => exact hnone rfl
  | cons n ns =>
    cases n with
    | space start text =>
      cases h with
      | loose _ htext hspace _ _ h => exact ⟨_, _, rfl, hspace rfl, htext, h⟩
      | tight hn => cases hn
    | _ => exact hnone rfl

theorem Spells.takeLastSpace {ns : List Node} {ts : List Token} (h : Spells ns ts) :
    ∃ rest last, ts = rest ++ last ∧ (∀ u ∈ last, u.isWhitespace) ∧
      textOf last = (Value.takeLastSpace ns).2 ∧ Spells (Value.takeLastSpace ns).1 rest := by
  fun_induction Value.takeLastSpace ns generalizing ts with
  | case1 =>
    cases h
    exact ⟨[], [], rfl, by simp, rfl, .nil⟩
  | case2 start text =>
    cases h with
    | loose _ htext hspace _ _ h =>
      cases h
      exact ⟨[], _, List.append_nil _, hspace rfl, htext, .nil⟩
    | tight hn => cases hn
  | case3 n ns _ ih =>
    cases h with
    | word hrun hne hquoted h =>
      obtain ⟨rest, last, rfl, hlast, htext, hrest⟩ := ih h
      exact ⟨_, last, (List.append_assoc ..).symm, hlast, htext, .word hrun hne hquoted hrest⟩
    | loose hn hprint hspace hfirst hfirm h =>
      obtain ⟨rest, last, rfl, hlast, htext, hrest⟩ := ih h
      exact ⟨_, last, (List.append_assoc ..).symm, hlast, htext,
        .loose hn hprint hspace hfirst hfirm hrest⟩
    | tight hn hw hprint hstop h =>
      obtain ⟨rest, last, rfl, hlast, htext, hrest⟩ := ih h
      exact ⟨_, last, rfl, hlast, htext, .tight hn hw hprint hstop hrest⟩
    | call hopening hopen hfirst harguments hbefore hafter hclosing hclose h =>
      obtain ⟨rest, last, rfl, hlast, htext, hrest⟩ := ih h
      exact ⟨_, last, by simp only [List.append_assoc], hlast, htext,
        .call hopening hopen hfirst harguments hbefore hafter hclosing hclose hrest⟩

theorem ofName_of_sameWord_url {name : String} (h : sameWord name "url") :
    Role.ofName name = .url := by
  have hlower : lower name = "url" := by
    rw [lower, Text.sameWord_iff.mp h]
    rfl
  rw [Role.ofName, hlower]
  rfl

/-! ### Reading -/

section Reading

variable {start : Nat} {cs : List Char} {t : Token} {rest : List Token}

theorem kind_ne_function_of_endsWord {ts : List Token} (h : Value.endsWord (t :: ts) = false) :
    t.kind ≠ .function := by
  intro hk
  rw [Value.endsWord, hk] at h
  cases h

/-- No function is in a word. -/
theorem kind_ne_function_of_mem_word {ts : List Token} :
    ∀ u ∈ ts.take (Value.wordLength ts), u.kind ≠ .function := by
  induction ts with
  | nil => simp
  | cons t ts ih =>
    intro u hu
    rw [Value.wordLength] at hu
    split at hu
    next => cases hu
    next hends =>
      rw [Nat.add_comm, List.take_succ_cons] at hu
      rcases List.mem_cons.mp hu with rfl | hu
      · exact kind_ne_function_of_endsWord (Bool.eq_false_of_not_eq_true hends)
      · exact ih u hu

/-- A word has its tokens also by itself. -/
theorem bareLex_word {run us : List Token} (hlex : lexFrom start cs = run ++ us)
    (hb : ∀ u ∈ run, u.kind.isBroken = false) (hf : ∀ u ∈ run, u.kind ≠ .function) :
    bareLex (textOf run).toList = run.map (relocate fun _ => 0) := by
  rw [Token.bareLex_eq start, Selector.lexFrom_textOf hlex]
  intro u hu
  have hmem := List.mem_of_getLast? hu
  refine ⟨fun hk => ?_, hf u hmem⟩
  have hbad := hb u hmem
  rw [hk] at hbad
  cases hbad

theorem isFirm_of_dividerMark? {k : Token.Kind} {mark : Char}
    (h : Value.dividerMark? k = some mark) : k.isFirm ∧ k.isLoose := by
  cases k with
  | comma => exact ⟨rfl, rfl⟩
  | delim c =>
    rw [Value.dividerMark?] at h
    split at h
    next hc => exact ⟨decide_eq_true hc, decide_eq_true hc⟩
    next => cases h
  | _ => cases h

/-- A divider has its mark, and white space behind it. -/
theorem isFirm_getLast?_blanks {d : Token} (hd : d.kind.isFirm) (front : List Token) :
    ∃ u ∈ (front ++ d :: rest.takeWhile isWhitespace).getLast?, u.kind.isFirm := by
  rcases List.eq_nil_or_concat (rest.takeWhile isWhitespace) with hnil | ⟨blanks, last, hlast⟩
  · rw [hnil]
    exact ⟨d, by simp, hd⟩
  · have hmem : last ∈ rest.takeWhile isWhitespace := by simp [hlast]
    have hwhite : isWhitespace last := List.mem_takeWhile_imp hmem
    refine ⟨last, ?_, ?_⟩
    · rw [hlast, List.concat_eq_append, ← List.cons_append, ← List.append_assoc,
        List.getLast?_concat]
      rfl
    rw [of_decide_eq_true hwhite]
    rfl

theorem opensParen_of_opening? (h : opening? (t :: rest) = none) : t.kind.opensParen = false := by
  unfold opening? at h
  dsimp only at h
  split at h
  next => cases h
  next ho => exact Bool.eq_false_of_not_eq_true ho

section Leaf

variable {ns : List Node} {ts : List Token}

/-- A divider has the white space in front of it, its mark, and that behind it. -/
theorem spells_divider {d : Token} {mark : Char} {front : List Token} {before : String}
    (hd : d.IsSpelled) (hm : Value.dividerMark? d.kind = some mark)
    (hfront : ∀ u ∈ front.head?, u.kind.isLoose) (hbefore : textOf front = before)
    (h : Spells ns ts) :
    Spells (.divider d.start mark before (textOf (rest.takeWhile isWhitespace)) :: ns)
      (front ++ d :: rest.takeWhile isWhitespace ++ ts) := by
  obtain ⟨hfirm, hloose⟩ := isFirm_of_dividerMark? hm
  refine .loose rfl ?_ (by simp [Node.isSpacing]) ?_ (isFirm_getLast?_blanks hfirm front) h
  · rw [Token.textOf_append, Token.textOf_cons, hbefore,
      hd.text_eq (Value.char?_of_dividerMark? hm), Node.print, String.append_assoc]
  · cases front with
    | nil => exact ⟨d, rfl, hloose⟩
    | cons u front => exact ⟨u, rfl, hfront u rfl⟩

theorem spells_string {y : List Char} {terminated : Bool} (hs : t.IsSpelled) (hy : t.Precedes y)
    (hk : t.kind = .string terminated) (h : Spells ns ts) :
    Spells (Value.stringNode t terminated :: ns) ([t] ++ ts) := by
  obtain ⟨c, w, htext, hscan⟩ := hy
  have hquote := (Token.finds_scan c (w ++ y)).of_isQuoted (by rw [hscan, hk]; rfl)
  have hprint := (Value.print_stringNode hs hk).symm
  rw [Value.stringNode] at hprint ⊢
  refine .tight rfl rfl hprint ?_ h
  have hstop : isStop c := by
    rcases (Bool.or_eq_true _ _).mp hquote with hc | hc <;> rw [of_decide_eq_true hc] <;> rfl
  rw [htext, List.any_cons, hstop, Bool.true_or]

theorem spells_url {y : List Char} {terminated : Bool} (hs : t.IsSpelled) (hy : t.Precedes y)
    (hk : t.kind = .url terminated) (h : Spells ns ts) :
    Spells (Value.urlNode t terminated :: ns) ([t] ++ ts) := by
  have hrole := ofName_of_sameWord_url (hy.sameWord_of_url hk)
  obtain ⟨name, body, htext, -⟩ := Value.url_cut hs hk
  have hprint := (Value.print_urlNode hs hk).symm
  rw [Value.urlNode] at hprint ⊢
  refine .tight (isTight_function hrole) rfl hprint ?_ h
  rw [htext, List.any_append, List.any_cons, show isStop '(' = true from rfl, Bool.true_or,
    Bool.or_true]

/-- A word has the tokens up to where it ends. -/
theorem spells_word {n : Nat} (hlex : lexFrom start cs = t :: rest)
    (hb : ∀ u ∈ t :: rest, u.kind.isBroken = false) (hf : t.kind ≠ .function)
    (hstring : ∀ terminated, t.kind ≠ .string terminated)
    (hrun : ∀ u ∈ rest.take n, u.kind ≠ .function) (h : Spells ns ts) :
    Spells (.word t.start (t.text ++ textOf (rest.take n)) :: ns) (t :: rest.take n ++ ts) := by
  have hsplit : lexFrom start cs = (t :: rest.take n) ++ rest.drop n := by
    rw [hlex, List.cons_append, List.take_append_drop]
  have hself := bareLex_word hsplit
    (fun u hu => hb u (List.cons_subset_cons t (List.take_subset _ _) hu))
    (List.forall_mem_cons.mpr ⟨hf, hrun⟩)
  rw [Token.textOf_cons] at hself
  refine .word hself (List.cons_ne_nil _ _) (fun u hu => ?_) h
  obtain rfl := Option.some.inj hu
  have ht := hb t List.mem_cons_self
  cases hk : t.kind with
  | string terminated => exact absurd hk (hstring terminated)
  | badString =>
    rw [hk] at ht
    cases ht
  | _ => rfl

/-- A node without arguments has the tokens that it was read from. -/
theorem spells_leaf (hlex : lexFrom start cs = t :: rest)
    (hb : ∀ u ∈ t :: rest, u.kind.isBroken = false) (ho : opening? (t :: rest) = none)
    (h : Spells ns ts) :
    Spells ((leaf t rest).1 :: ns) (t :: rest.take (leaf t rest).2 ++ ts) := by
  have hspelled : ∀ u ∈ t :: rest, u.IsSpelled :=
    fun u hu => Token.isSpelled_of_mem_lexFrom (hlex ▸ hu)
  have hself := hspelled t List.mem_cons_self
  have hfound : Token.Found [t] (textOf rest).toList := Token.found_of_lexFrom hlex
  unfold leaf
  split
  next hk =>
    have hloose : t.kind.isLoose := by rw [hk]; rfl
    have hwhite : ∀ u ∈ [t], u.isWhitespace := by simp [isWhitespace, hk]
    have hspace : Spells (.space t.start t.text :: ns) ([t] ++ ts) :=
      .loose rfl (by simp [Node.print]) (fun _ => hwhite) ⟨t, rfl, hloose⟩
        ⟨t, rfl, by rw [hk]; rfl⟩ h
    split
    next => exact hspace
    next d rest =>
      split
      next mark hm =>
        dsimp only
        rw [Nat.add_comm, List.take_succ_cons,
          ← List.prefix_iff_eq_take.mp (List.takeWhile_prefix isWhitespace)]
        have hfront : ∀ u ∈ [t].head?, u.kind.isLoose := by simpa using hloose
        exact spells_divider (hspelled d (by simp)) hm hfront (by simp) h
      next => exact hspace
  next terminated hk =>
    have ht := hb t List.mem_cons_self
    have hclosed : terminated = true := by
      rw [hk] at ht
      cases terminated
      · cases ht
      · rfl
    exact @Spells.loose _ [t] _ _ rfl (by simp [Node.print]) (by simp [Node.isSpacing])
      ⟨t, rfl, by rw [hk]; rfl⟩ ⟨t, rfl, by rw [hk]; exact hclosed⟩ h
  next terminated hk => exact spells_string hself hfound.1 hk h
  next terminated hk => exact spells_url hself hfound.1 hk h
  next hk =>
    have hword := @spells_word _ _ _ _ _ _ 0 hlex hb (by simp [hk]) (by simp [hk]) (by simp) h
    simpa using hword
  next hwhite hcomment hstring hurl hparen =>
    split
    next mark hm =>
      dsimp only
      rw [← List.prefix_iff_eq_take.mp (List.takeWhile_prefix isWhitespace)]
      exact @spells_divider _ _ _ _ _ [] _ hself hm (by simp) rfl h
    next =>
      refine spells_word hlex hb (fun hk => ?_) hstring kind_ne_function_of_mem_word h
      have hopens := opensParen_of_opening? ho
      rw [hk] at hopens
      cases hopens

end Leaf

theorem spells_opening? {o : Opening} (h : opening? (t :: rest) = some o) :
    ∃ opening, t :: rest = opening ++ o.body ∧ IsOpening opening ∧
      textOf opening = o.colon ++ o.opener.text := by
  rcases Value.opening?_cases h with ⟨hcolon, hts, ho⟩ | ⟨colon, hk, hcolon, hts, ho⟩
  · exact ⟨[o.opener], hts, .inl ⟨_, rfl, ho⟩, by rw [hcolon]; simp⟩
  · exact ⟨[colon, o.opener], hts, .inr ⟨_, _, rfl, hk, ho⟩, by rw [hcolon]; simp⟩

/-- A call has the tokens of its name, its arguments and its parenthesis. -/
theorem spells_call {o : Opening} {arguments ns : List Node}
    {opening inside closing ts : List Token} (hs : o.opener.IsSpelled)
    (ho : o.opener.kind.opensParen) (hopening : IsOpening opening)
    (htext : textOf opening = o.colon ++ o.opener.text) (harguments : Spells arguments inside)
    {unclosed : Bool} (hclosing : unclosed = false → ∃ t, closing = [t] ∧ t.kind = .rightParen)
    (hclose : textOf closing = if unclosed then "" else ")") (h : Spells ns ts) :
    Spells (o.call arguments unclosed :: ns) (opening ++ (inside ++ (closing ++ ts))) := by
  obtain ⟨first, rest, rfl, hfirst, hfirstText, hrest⟩ := harguments.takeFirstSpace
  obtain ⟨inside, last, rfl, hlast, hlastText, hinside⟩ := hrest.takeLastSpace
  have hopen : textOf opening ++ textOf first =
      o.colon ++ (Value.splitCall o.opener.text).1 ++ "(" ++
        ((Value.splitCall o.opener.text).2 ++ (Value.takeFirstSpace arguments).1) := by
    rw [htext, hfirstText]
    conv_lhs => rw [← Value.splitCall_append (Value.mem_paren_of_opensParen hs ho)]
    simp only [String.append_assoc]
  simp only [List.append_assoc]
  exact Spells.call hopening hopen hfirst hinside hlast hlastText hclosing hclose h

/-- The parenthesis behind the arguments of a call, if there is one. -/
theorem exists_closing {ts : List Token} (hstop : Token.StopsAt .rightParen ts)
    (hs : ∀ u ∈ ts, u.IsSpelled) :
    ∃ closing, ts = closing ++ ts.tail ∧
      (ts.isEmpty = false → ∃ t, closing = [t] ∧ t.kind = .rightParen) ∧
      textOf closing = if ts.isEmpty then "" else ")" := by
  cases ts with
  | nil => exact ⟨[], rfl, by simp, rfl⟩
  | cons u us =>
    have hk := Token.stopsAt_cons.mp hstop
    have htext := (hs u List.mem_cons_self).text_eq (c := ')') (by rw [hk]; rfl)
    exact ⟨[u], rfl, fun _ => ⟨u, rfl, hk⟩, by simpa using htext⟩

/-- **The nodes of a value have the tokens that they were read from**, if none of these
broke off. -/
theorem spells_parseNodes {limit depth : Nat} {nested : Bool} {ts : List Token}
    {ns : Value.Nodes ts.length} (h : parseNodes limit depth nested ts = .ok ns)
    (hlex : lexFrom start cs = ts) (hb : ∀ u ∈ ts, u.kind.isBroken = false) :
    ∃ us, ts = us ++ ns.rest ∧ Spells ns.nodes us := by
  fun_induction parseNodes limit depth nested ts generalizing start cs with
  | case1 =>
    cases h
    exact ⟨[], rfl, .nil⟩
  | case2 =>
    cases h
    exact ⟨[], rfl, .nil⟩
  | case3 depth nested t rest _ ho node n hleaf ih =>
    obtain ⟨ns', hns, hcons⟩ := bind_eq_ok.mp h
    cases hcons
    have hsplit : lexFrom start cs = (t :: rest.take n) ++ rest.drop n := by
      rw [hlex, List.cons_append, List.take_append_drop]
    obtain ⟨cs', -, hdrop⟩ := Token.lexFrom_eq_append hsplit
    obtain ⟨us, hus, hspells⟩ := ih hns hdrop.symm fun u hu =>
      hb u (List.mem_cons_of_mem t (List.mem_of_mem_drop hu))
    have hnode := spells_leaf hlex hb ho hspells
    rw [hleaf] at hnode
    have hts : t :: rest = (t :: rest.take n ++ us) ++ ns'.rest := by
      rw [← hlex, hsplit, List.append_assoc]
      exact congrArg _ hus
    exact ⟨_, hts, hnode⟩
  | case4 => cases h
  | case5 depth nested t rest _ o ho _ _ ih ih' =>
    obtain ⟨arguments, hargs, h⟩ := bind_eq_ok.mp h
    obtain ⟨ns', hns, hcons⟩ := bind_eq_ok.mp h
    cases hcons
    have hspelled : ∀ u ∈ t :: rest, u.IsSpelled :=
      fun u hu => Token.isSpelled_of_mem_lexFrom (hlex ▸ hu)
    obtain ⟨hopen, hmem, hparen⟩ := Value.reads_opening? ho
    obtain ⟨hread, hstop, -⟩ := Value.reads_parseNodes hargs (hopen.isSpelled hspelled)
    obtain ⟨opening, hts, hopening, htext⟩ := spells_opening? ho
    have hsplit : lexFrom start cs = opening ++ o.body := hlex.trans hts
    obtain ⟨cs', -, hbody⟩ := Token.lexFrom_eq_append hsplit
    have hbroken : ∀ u ∈ o.body, u.kind.isBroken = false :=
      fun u hu => hb u (hts ▸ List.mem_append_right _ hu)
    obtain ⟨inside, hinside, harguments⟩ := ih hargs hbody.symm hbroken
    obtain ⟨closing, hrest, hclosing, hclose⟩ := exists_closing hstop
      ((hopen.trans hread).isSpelled hspelled)
    have htail : lexFrom (start + (textOf opening).utf8ByteSize) cs' =
        (inside ++ closing) ++ arguments.rest.tail := by
      rw [← hbody, List.append_assoc, ← hrest]
      exact hinside
    obtain ⟨cs'', -, hmore⟩ := Token.lexFrom_eq_append htail
    obtain ⟨us, hus, hspells⟩ := ih' arguments hns hmore.symm fun u hu =>
      hbroken u (hinside ▸ List.mem_append_right inside (List.mem_of_mem_tail hu))
    have hall : t :: rest = (opening ++ (inside ++ (closing ++ us))) ++ ns'.rest := by
      simp only [List.append_assoc]
      rw [hts, ← hus, ← hrest]
      exact congrArg _ hinside
    exact ⟨_, hall, spells_call (hspelled _ hmem) hparen hopening htext harguments hclosing hclose
      hspells⟩

end Reading

end Scope
end StyleScope
