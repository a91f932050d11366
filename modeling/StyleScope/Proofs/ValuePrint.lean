/-
# A value prints as it was read

Reading a value moves text around: a divider takes the white space on both
sides, a call takes the white space just inside its parentheses, a colon joins
the name behind it, and quotes and parentheses are not kept at all. Each node
still prints the text of the tokens it was made of (`reads_leaf`,
`Opening.print_call`), so the nodes together print the source.

Key theorems: `Value.reads_parseNodes`, `Value.print_parseWithin`.
-/
import StyleScope.Proofs.Reading
import StyleScope.Value.Parser

namespace StyleScope
namespace Value

open Text
open Token (Reads StopsAt)

/-! ### Nodes of one token -/

theorem char?_of_dividerMark? {k : Token.Kind} {mark : Char} (h : dividerMark? k = some mark) :
    k.char? = some mark := by
  cases k with
  | comma => exact h
  | delim c =>
    rw [dividerMark?] at h
    split at h
    next hc => rw [← h, hc]; rfl
    next => cases h
  | _ => cases h

/-- A string prints its quotes again. -/
theorem print_stringNode {t : Token} {terminated : Bool} (hs : t.IsSpelled)
    (hk : t.kind = .string terminated) : (stringNode t terminated).print = t.text := by
  rw [Token.IsSpelled, hk] at hs
  obtain ⟨quote, body, ht⟩ := hs
  rw [← String.toList_inj, ht]
  cases terminated <;> simp [stringNode, Node.print, ht, Token.closing]

/-- A word prints the same if it is left out when it is empty. -/
theorem print_word (start : Nat) (cs : List Char) :
    print (if cs.isEmpty then [] else [.word start (String.ofList cs)]) = String.ofList cs := by
  cases cs <;> simp [Node.print]

/-- The text of a url is its name and its body, with the parentheses around the
body. -/
theorem url_cut {t : Token} {terminated : Bool} (hs : t.IsSpelled)
    (hk : t.kind = .url terminated) :
    ∃ name body, t.text.toList = name ++ '(' :: (body ++ Token.closing terminated ')') ∧
      t.text.toList.takeWhile (· ≠ '(') = name ∧
      (t.text.toList.dropWhile (· ≠ '(')).drop 1 = body ++ Token.closing terminated ')' ∧
      (if terminated then (body ++ Token.closing terminated ')').dropLast
        else body ++ Token.closing terminated ')') = body := by
  rw [Token.IsSpelled, hk] at hs
  obtain ⟨name, body, hname, ht⟩ := hs
  have hpass : ∀ c ∈ name, (c ≠ '(') := fun c hc he => hname (he ▸ hc)
  refine ⟨name, body, ht, ?_, ?_, ?_⟩
  · rw [ht, List.takeWhile_append_of_pos (by simpa using hpass)]
    simp
  · rw [ht, List.dropWhile_append_of_pos (by simpa using hpass)]
    simp
  · cases terminated <;> simp [Token.closing]

/-- The body of a url is white space, the word and white space again. -/
theorem body_cut (body : List Char) :
    body.takeWhile isSpace ++ (dropEndWhile isSpace (body.dropWhile isSpace) ++
      (body.dropWhile isSpace).drop (dropEndWhile isSpace (body.dropWhile isSpace)).length) =
        body := by
  have hword := List.prefix_iff_eq_append.mp
    (List.rdropWhile_prefix isSpace (body.dropWhile isSpace))
  exact (congrArg _ hword).trans List.takeWhile_append_dropWhile

/-- A url prints its parentheses and the white space inside them again. -/
theorem print_urlNode {t : Token} {terminated : Bool} (hs : t.IsSpelled)
    (hk : t.kind = .url terminated) : (urlNode t terminated).print = t.text := by
  obtain ⟨name, body, ht, htake, hdrop, hbody⟩ := url_cut hs hk
  have hclose : (if !terminated then "" else ")").toList = Token.closing terminated ')' := by
    cases terminated <;> rfl
  rw [← String.toList_inj, ht]
  simp only [urlNode, htake, hdrop, hbody, Node.print, print_word, String.toList_append,
    String.toList_ofList, hclose]
  conv => rhs; rw [← body_cut body]
  simp

/-- A node without arguments prints the tokens it was made of. -/
theorem reads_leaf (t : Token) (ts : List Token) (hs : ∀ u ∈ t :: ts, u.IsSpelled) :
    Reads (t :: ts) (leaf t ts).1.print (ts.drop (leaf t ts).2) := by
  have ht := hs t (List.mem_cons_self ..)
  unfold leaf
  split
  next hk =>
    split
    next => exact Reads.head t []
    next d rest =>
      split
      next mark hm =>
        have hd := (hs d (by simp)).reads (char?_of_dividerMark? hm) rest
        have hall := ((Reads.head t _).trans hd).trans
          (Reads.of_prefix (List.takeWhile_prefix Token.isWhitespace))
        simp only [Node.print]
        rwa [Nat.add_comm, List.drop_succ_cons]
      next => exact Reads.head t _
  next => exact Reads.head t ts
  next terminated hk =>
    rw [print_stringNode ht hk]
    exact Reads.head t ts
  next terminated hk =>
    rw [print_urlNode ht hk]
    exact Reads.head t ts
  next => exact Reads.head t ts
  next =>
    split
    next mark hm =>
      have hd := ht.reads (char?_of_dividerMark? hm) ts
      have hall := hd.trans (Reads.of_prefix (List.takeWhile_prefix Token.isWhitespace))
      simp only [Node.print]
      rwa [String.empty_append]
    next => exact (Reads.head t ts).trans (Reads.take (wordLength ts) ts)

/-! ### Calls -/

/-- A call starts with the token that opens its parentheses, or with a colon in
front of a function. -/
theorem opening?_cases {ts : List Token} {o : Opening} (h : opening? ts = some o) :
    (o.colon = "" ∧ ts = o.opener :: o.body ∧ o.opener.kind.opensParen) ∨
      ∃ t, t.kind = .colon ∧ o.colon = t.text ∧ ts = t :: o.opener :: o.body ∧
        o.opener.kind = .function := by
  unfold opening? at h
  split at h
  · cases h
  next t ts =>
    split at h
    next ho =>
      cases h
      exact .inl ⟨rfl, rfl, ho⟩
    next =>
      split at h
      · cases h
      next name rest =>
        split at h
        next hc =>
          cases h
          simp only [Bool.and_eq_true, decide_eq_true_eq] at hc
          exact .inr ⟨t, hc.1, rfl, rfl, hc.2⟩
        next => cases h

theorem reads_opening? {ts : List Token} {o : Opening} (h : opening? ts = some o) :
    Reads ts (o.colon ++ o.opener.text) o.body ∧ o.opener ∈ ts ∧ o.opener.kind.opensParen := by
  rcases opening?_cases h with ⟨hcolon, hts, ho⟩ | ⟨t, -, hcolon, hts, ho⟩
  · rw [hcolon, hts]
    exact ⟨(Reads.nil _).trans (Reads.head _ _), List.mem_cons_self, ho⟩
  · rw [hcolon, hts]
    refine ⟨(Reads.head t _).trans (Reads.head _ _), by simp, ?_⟩
    rw [ho]
    rfl

theorem print_takeFirstSpace (ns : List Node) :
    (takeFirstSpace ns).1 ++ print (takeFirstSpace ns).2 = print ns := by
  unfold takeFirstSpace
  split
  · rw [print_cons, Node.print]
  · exact String.empty_append

theorem print_takeLastSpace (ns : List Node) :
    print (takeLastSpace ns).1 ++ (takeLastSpace ns).2 = print ns := by
  fun_induction takeLastSpace ns with
  | case1 => rfl
  | case2 start text => simp [Node.print]
  | case3 n ns _ ih => rw [print_cons, print_cons, String.append_assoc, ih]

/-- The text of a call is cut at its parenthesis. -/
theorem splitCall_append {text : String} (h : '(' ∈ text.toList) :
    (splitCall text).1 ++ "(" ++ (splitCall text).2 = text := by
  obtain ⟨rest, hd⟩ : ∃ rest, text.toList.dropWhile (· ≠ '(') = '(' :: rest := by
    cases hd : text.toList.dropWhile (· ≠ '(') with
    | nil =>
      rw [List.dropWhile_eq_nil_iff] at hd
      exact absurd (hd '(' h) (by simp)
    | cons c rest =>
      have hc := List.head?_dropWhile_not (· ≠ '(') text.toList
      rw [hd] at hc
      exact ⟨rest, by simpa using hc⟩
  rw [← String.toList_inj]
  simp only [splitCall, String.toList_append, String.toList_ofList, hd]
  conv => rhs; rw [← List.takeWhile_append_dropWhile (p := (· ≠ '(')) (l := text.toList), hd]
  simp

/-- A token that opens parentheses has one. -/
theorem mem_paren_of_opensParen {t : Token} (hs : t.IsSpelled) (ho : t.kind.opensParen) :
    '(' ∈ t.text.toList := by
  unfold Token.IsSpelled at hs
  cases hk : t.kind with
  | function =>
    rw [hk] at hs
    obtain ⟨name, blanks, ht⟩ := hs
    simp [ht]
  | leftParen =>
    rw [hk] at hs
    simp [hs '(' rfl]
  | _ => rw [hk] at ho; cases ho

/-- A call prints its opening, its arguments and the parenthesis that closes
it if there is one. -/
theorem Opening.print_call (o : Opening) (arguments : List Node) (unclosed : Bool)
    (hs : o.opener.IsSpelled) (ho : o.opener.kind.opensParen) :
    (o.call arguments unclosed).print =
      o.colon ++ o.opener.text ++ print arguments ++ (if unclosed then "" else ")") := by
  have hcall := splitCall_append (mem_paren_of_opensParen hs ho)
  have hfirst := print_takeFirstSpace arguments
  have hlast := print_takeLastSpace (takeFirstSpace arguments).2
  simp only [Opening.call, Node.print]
  rw [← hfirst, ← hlast]
  conv => rhs; rw [← hcall]
  simp only [String.append_assoc]

/-- A call takes the tokens of its arguments and the parenthesis behind them. -/
theorem reads_call {ts rest : List Token} {o : Opening} {arguments : List Node}
    (ho : opening? ts = some o) (hs : ∀ t ∈ ts, t.IsSpelled)
    (hread : Reads o.body (print arguments) rest) (hstop : StopsAt .rightParen rest) :
    Reads ts (o.call arguments rest.isEmpty).print rest.tail := by
  obtain ⟨hopen, hmem, hparen⟩ := reads_opening? ho
  have hinside := hopen.trans hread
  -- the parenthesis, unless the value ends before it
  have hclose : Reads rest (if rest.isEmpty then "" else ")") rest.tail := by
    cases rest with
    | nil => exact Reads.nil []
    | cons u us => exact hstop.reads (hinside.isSpelled hs u List.mem_cons_self) rfl
  rw [o.print_call arguments rest.isEmpty (hs _ hmem) hparen]
  exact hinside.trans hclose

/-! ### Whole values -/

/-- Reading nodes takes from the tokens what the nodes print, and stops at the
end or at the parenthesis that closes the call around. -/
theorem reads_parseNodes {limit depth : Nat} {nested : Bool} {ts : List Token}
    {ns : Nodes ts.length} (h : parseNodes limit depth nested ts = .ok ns)
    (hs : ∀ t ∈ ts, t.IsSpelled) :
    Reads ts (print ns.nodes) ns.rest ∧ StopsAt .rightParen ns.rest ∧
      (nested = false → ns.rest = []) := by
  fun_induction parseNodes limit depth nested ts with
  | case1 =>
    cases h
    exact ⟨Reads.nil [], Token.stopsAt_nil _, fun _ => rfl⟩
  | case2 depth nested t rest hc =>
    cases h
    simp only [Bool.and_eq_true, decide_eq_true_eq] at hc
    refine ⟨Reads.nil _, Token.stopsAt_cons.mpr hc.2, fun hn => ?_⟩
    rw [hn] at hc
    exact absurd hc.1 (by decide)
  | case3 depth nested t rest _ _ node n hleaf ih =>
    obtain ⟨ns', hns, hcons⟩ := bind_eq_ok.mp h
    cases hcons
    have hnode := reads_leaf t rest hs
    rw [hleaf] at hnode
    obtain ⟨hread, hstop⟩ := ih hns (hnode.isSpelled hs)
    exact ⟨print_cons node ns'.nodes ▸ hnode.trans hread, hstop⟩
  | case4 => cases h
  | case5 depth nested t rest _ o ho _ _ ih ih' =>
    obtain ⟨arguments, hargs, h⟩ := bind_eq_ok.mp h
    obtain ⟨ns', hns, hcons⟩ := bind_eq_ok.mp h
    cases hcons
    obtain ⟨hread, hstop, -⟩ := ih hargs ((reads_opening? ho).1.isSpelled hs)
    have hcall := reads_call ho hs hread hstop
    obtain ⟨hmore, hend⟩ := ih' arguments hns (hcall.isSpelled hs)
    exact ⟨print_cons _ ns'.nodes ▸ hcall.trans hmore, hend⟩

theorem print_parseWithin {limit : Nat} {source : String} {ns : List Node}
    (h : parseWithin limit source = .ok ns) : print ns = source := by
  cases hp : parseNodes limit 0 false (Token.lex source) with
  | error e => rw [parseWithin, hp] at h; cases h
  | ok nodes =>
    rw [parseWithin, hp] at h
    cases h
    obtain ⟨hread, -, hend⟩ := reads_parseNodes hp fun t ht => Token.isSpelled_of_mem_lex ht
    rw [hend rfl] at hread
    rw [hread.eq_textOf, Token.textOf_lex]

/-- **A value prints as it was read.** -/
theorem print_of_parse_value {source : String} {ns : List Node} (h : parse source = .ok ns) :
    print ns = source :=
  print_parseWithin h

/-- A value with dividers, a colon in front of a call, escapes, and a string
that is left open inside two calls. -/
theorem print_of_parse_value_unclosed :
    ∃ ns, parse "a , b/ :f( url( x\\) ) 1px)/* */ g\\(( url( 'u\\'" = .ok ns ∧
      print ns = "a , b/ :f( url( x\\) ) 1px)/* */ g\\(( url( 'u\\'" :=
  exists_ok_of_isOk (by decide +kernel) fun _ h => print_of_parse_value h

end Value
end StyleScope
