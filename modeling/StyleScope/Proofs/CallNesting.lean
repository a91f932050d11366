/-
# How deep calls nest in a value

The nesting of a value can be read off its tokens without reading the value:
function tokens and parentheses go one level down, closing parentheses one
level up, and one too many closes nothing (`Token.level`). The reader checks the
limit at the tokens that go down. But an unquoted url is a call too, although it
is one token, which goes down and up again at once. It is not checked, so it may
stand one level deeper than everything else.

The induction is on the reader. What it takes for the nodes at some level
comes back to that level unless the tokens end first, which is why the next
node is read at the level of the one before it (`Nests.append`).

Key definitions: `Token.level`, `Token.deepest`, `Value.nestingAmong`.
Key theorems: `Value.nests_parseNodes`, `Value.call_nesting_limit`.
-/
import StyleScope.Proofs.ValuePrint

namespace StyleScope

/-! ### Levels of tokens -/

namespace Token

/-- The kinds that are read as a call. -/
def Kind.makesCall : Kind → Bool
  | function | leftParen | url _ => true
  | _ => false

def Kind.isUrl : Kind → Bool
  | url _ => true
  | _ => false

/-- The kinds that neither begin nor end a call. -/
def Kind.IsFlat (k : Kind) : Prop :=
  k.makesCall = false ∧ k ≠ .rightParen

/-- The level behind a token of this kind. -/
def Kind.level (depth : Nat) (k : Kind) : Nat :=
  if k.opensParen then depth + 1 else if k = .rightParen then depth - 1 else depth

/-- How many parentheses are open behind the tokens if `depth` are open in front
of them. -/
def level (depth : Nat) : List Token → Nat
  | [] => depth
  | t :: ts => level (t.kind.level depth) ts

/-- The deepest level of what is inside of the tokens that `counts` holds of,
if `depth` parentheses are open in front of all of them. -/
def deepest (counts : Kind → Bool) (depth : Nat) : List Token → Nat
  | [] => 0
  | t :: ts =>
    max (if counts t.kind then depth + 1 else 0) (deepest counts (t.kind.level depth) ts)

section

variable {counts : Kind → Bool} {depth n : Nat} {ts us : List Token}

theorem level_append : level depth (ts ++ us) = level (level depth ts) us := by
  induction ts generalizing depth with
  | nil => rfl
  | cons t ts ih => exact ih

theorem deepest_append : deepest counts depth (ts ++ us) =
    max (deepest counts depth ts) (deepest counts (level depth ts) us) := by
  induction ts generalizing depth with
  | nil => simp only [List.nil_append, deepest, level, Nat.zero_max]
  | cons t ts ih => simp only [List.cons_append, deepest, level, ih, Nat.max_assoc]

theorem opensParen_of_makesCall {k : Kind} (h : k.makesCall = false) : k.opensParen = false := by
  cases k with
  | function | leftParen => cases h
  | _ => rfl

theorem makesCall_of_opensParen {k : Kind} (h : k.opensParen) : k.makesCall := by
  cases k with
  | function | leftParen => rfl
  | _ => cases h

theorem level_of_isFlat (h : ∀ t ∈ ts, t.kind.IsFlat) : level depth ts = depth := by
  induction ts with
  | nil => rfl
  | cons t ts ih =>
    obtain ⟨ht, hts⟩ := List.forall_mem_cons.mp h
    rw [level, Kind.level, opensParen_of_makesCall ht.1, if_neg Bool.false_ne_true, if_neg ht.2,
      ih hts]

theorem deepest_of_none (h : ∀ t ∈ ts, counts t.kind = false) : deepest counts depth ts = 0 := by
  induction ts generalizing depth with
  | nil => rfl
  | cons t ts ih =>
    obtain ⟨ht, hts⟩ := List.forall_mem_cons.mp h
    rw [deepest, ht, if_neg Bool.false_ne_true, ih hts, Nat.max_self]

/-- What the deepest level says about each token. -/
theorem deepest_le_iff : deepest counts depth ts ≤ n ↔
    ∀ us t vs, ts = us ++ t :: vs → counts t.kind → level depth us < n := by
  induction ts generalizing depth with
  | nil => simp [deepest]
  | cons t ts ih =>
    rw [deepest, Nat.max_le, ih]
    constructor
    · rintro ⟨hhead, htail⟩ us u vs heq hu
      cases us with
      | nil =>
        cases heq
        rwa [if_pos hu] at hhead
      | cons v us =>
        cases heq
        exact htail us u vs rfl hu
    · refine fun h => ⟨?_, fun us u vs heq => h (t :: us) u vs (heq ▸ rfl)⟩
      split
      next hu => exact h [] t ts rfl hu
      next => exact Nat.zero_le n

/-- A call is a url or opens a parenthesis. -/
theorem deepest_makesCall : deepest Kind.makesCall depth ts =
    max (deepest Kind.opensParen depth ts) (deepest Kind.isUrl depth ts) := by
  induction ts generalizing depth with
  | nil => rfl
  | cons t ts ih =>
    rw [deepest, deepest, deepest, ih]
    cases t.kind <;> simp only [Kind.makesCall, Kind.opensParen, Kind.isUrl, if_true,
      Bool.false_eq_true, if_false] <;> omega

theorem Kind.level_le (depth : Nat) (k : Kind) :
    k.level depth ≤ max depth (if k.opensParen then depth + 1 else 0) := by
  unfold Kind.level
  split
  · exact Nat.le_max_right ..
  split <;> omega

/-- No token stands deeper than right inside the parentheses. -/
theorem deepest_le_succ (counts : Kind → Bool) (depth : Nat) (ts : List Token) :
    deepest counts depth ts ≤ max depth (deepest Kind.opensParen depth ts) + 1 := by
  induction ts generalizing depth with
  | nil => exact Nat.zero_le _
  | cons t ts ih =>
    have hts := @ih (t.kind.level depth)
    have hlevel := t.kind.level_le depth
    have hhead : (if counts t.kind then depth + 1 else 0) ≤ depth + 1 := by split <;> omega
    simp only [deepest]
    omega

end

end Token

/-! ### Levels of nodes -/

namespace Value

open Token (StopsAt deepest level)

mutual

/-- How deep calls nest in a node. -/
def Node.nesting : Node → Nat
  | .function _ _ _ arguments _ _ => 1 + nestingAmong arguments
  | _ => 0

/-- How deep calls nest among nodes. -/
def nestingAmong : List Node → Nat
  | [] => 0
  | n :: ns => max n.nesting (nestingAmong ns)

end

/-! ### Tokens of a node -/

/-- A url has one word inside, or nothing. -/
theorem nesting_urlNode (t : Token) (terminated : Bool) : (urlNode t terminated).nesting = 1 := by
  simp only [urlNode, Node.nesting, apply_ite nestingAmong, nestingAmong, Nat.max_self, ite_self]

theorem isFlat_of_dividerMark? {k : Token.Kind} {mark : Char} (h : dividerMark? k = some mark) :
    k.IsFlat := by
  cases k with
  | comma | delim => exact ⟨rfl, Token.Kind.noConfusion⟩
  | _ => cases h

theorem isFlat_of_not_endsWord {t : Token} {ts : List Token} (h : endsWord (t :: ts) = false) :
    t.kind.IsFlat := by
  rw [endsWord] at h
  cases hk : t.kind with
  | function | leftParen | url | rightParen =>
    rw [hk] at h
    cases h
  | _ => exact ⟨rfl, Token.Kind.noConfusion⟩

theorem isFlat_of_mem_blanks {u : Token} {ts : List Token}
    (h : u ∈ ts.take (ts.takeWhile Token.isWhitespace).length) : u.kind.IsFlat := by
  rw [← List.prefix_iff_eq_take.mp (List.takeWhile_prefix _)] at h
  have hu := List.mem_takeWhile_imp h
  rw [Token.isWhitespace, decide_eq_true_iff] at hu
  rw [hu]
  exact ⟨rfl, Token.Kind.noConfusion⟩

theorem isFlat_of_mem_word {u : Token} {ts : List Token} (h : u ∈ ts.take (wordLength ts)) :
    u.kind.IsFlat := by
  induction ts with
  | nil => cases h
  | cons t ts ih =>
    rw [wordLength] at h
    split at h
    next => cases h
    next hend =>
      rw [Nat.add_comm, List.take_succ_cons] at h
      cases h with
      | head => exact isFlat_of_not_endsWord (by simpa using hend)
      | tail _ h => exact ih h

/-- Behind the first token of a node without arguments comes nothing that begins
or ends a call. -/
theorem isFlat_of_mem_leaf {t u : Token} {ts : List Token} (h : u ∈ ts.take (leaf t ts).2) :
    u.kind.IsFlat := by
  unfold leaf at h
  split at h
  next =>
    split at h
    next => cases h
    next d rest =>
      split at h
      next mark hm =>
        simp only [Nat.add_comm 1, List.take_succ_cons] at h
        cases h with
        | head => exact isFlat_of_dividerMark? hm
        | tail _ h => exact isFlat_of_mem_blanks h
      next => cases h
  next => cases h
  next => cases h
  next => cases h
  next => cases h
  next =>
    split at h
    next => exact isFlat_of_mem_blanks h
    next => exact isFlat_of_mem_word h

/-- A node without arguments stays on its level; the parenthesis that closes one
too many stands outside of all calls. -/
theorem level_leaf {depth : Nat} {t : Token} (ts : List Token) (ho : t.kind.opensParen = false)
    (hclose : t.kind = .rightParen → depth = 0) :
    level depth (t :: ts.take (leaf t ts).2) = depth := by
  rw [level, Token.level_of_isFlat fun u hu => isFlat_of_mem_leaf hu, Token.Kind.level, ho,
    if_neg Bool.false_ne_true]
  split
  next hk => rw [hclose hk]
  next => rfl

theorem depth_of_leaf {depth : Nat} {nested : Bool} {t : Token}
    (hnested : nested = false → depth = 0) (hc : ¬(nested && t.kind = .rightParen)) :
    t.kind = .rightParen → depth = 0 := by
  intro hk
  cases nested with
  | false => exact hnested rfl
  | true => exact absurd (by simpa using hk) hc

/-- A node without arguments is a call if its token is a url. -/
theorem nesting_leaf {t : Token} {ts : List Token} (ho : t.kind.opensParen = false) :
    (leaf t ts).1.nesting = if t.kind.makesCall then 1 else 0 := by
  unfold leaf
  split
  next hk =>
    simp only [hk, Token.Kind.makesCall, if_neg Bool.false_ne_true]
    repeat' split
    all_goals rfl
  next hk => simp only [hk, Token.Kind.makesCall, Node.nesting, if_neg Bool.false_ne_true]
  next hk =>
    simp only [hk, Token.Kind.makesCall, stringNode, Node.nesting, if_neg Bool.false_ne_true]
  next hk => simp only [hk, Token.Kind.makesCall, nesting_urlNode, if_true]
  next hk => simp only [hk, Token.Kind.makesCall, Node.nesting, if_neg Bool.false_ne_true]
  next hurl _ =>
    have hk : t.kind.makesCall = false := by
      cases hk : t.kind with
      | function | leftParen => rw [hk] at ho; cases ho
      | url terminated => exact absurd hk (hurl terminated)
      | _ => rfl
    rw [hk]
    split <;> rfl

theorem nestingAmong_takeFirstSpace (ns : List Node) :
    nestingAmong (takeFirstSpace ns).2 = nestingAmong ns := by
  unfold takeFirstSpace
  split
  · simp only [nestingAmong, Node.nesting, Nat.zero_max]
  · rfl

theorem nestingAmong_takeLastSpace (ns : List Node) :
    nestingAmong (takeLastSpace ns).1 = nestingAmong ns := by
  fun_induction takeLastSpace ns with
  | case1 => rfl
  | case2 => simp only [nestingAmong, Node.nesting, Nat.max_self]
  | case3 n ns _ ih => simp only [nestingAmong, ih]

theorem nesting_call (o : Opening) (arguments : List Node) (unclosed : Bool) :
    (o.call arguments unclosed).nesting = 1 + nestingAmong arguments := by
  simp only [Opening.call, Node.nesting, nestingAmong_takeLastSpace, nestingAmong_takeFirstSpace]

/-- The tokens of an opening: a colon perhaps, and the one that opens. -/
theorem tokens_of_opening? {ts : List Token} {o : Opening} (h : opening? ts = some o) :
    ∃ colon, ts = colon ++ o.opener :: o.body ∧ (∀ t ∈ colon, t.kind.IsFlat) ∧
      o.opener.kind.opensParen := by
  rcases opening?_cases h with ⟨-, hts, ho⟩ | ⟨t, hk, -, hts, ho⟩
  · exact ⟨[], hts, List.forall_mem_nil _, ho⟩
  · refine ⟨[t], hts, List.forall_mem_singleton.mpr ?_, ?_⟩
    · rw [hk]
      exact ⟨rfl, Token.Kind.noConfusion⟩
    · rw [ho]
      rfl

theorem opensParen_of_opening? {t : Token} {ts : List Token} (h : opening? (t :: ts) = none) :
    t.kind.opensParen = false := by
  unfold opening? at h
  dsimp only at h
  split at h
  · cases h
  next ho => simpa using ho

/-! ### The reader -/

theorem Nodes.rest_cons {m n : Nat} (node : Node) (ns : Nodes m) (h : m ≤ n) :
    (ns.cons node h).rest = ns.rest := rfl

/-- The nodes that were read from the tokens `taken` below `depth` calls are
within the limit, and they nest as deep as their tokens. -/
structure Nests (limit depth : Nat) (taken : List Token) (ns : List Node) : Prop where
  within : deepest Token.Kind.opensParen depth taken ≤ limit
  nesting : max depth (deepest Token.Kind.makesCall depth taken) = depth + nestingAmong ns

theorem Nests.nil (limit depth : Nat) : Nests limit depth [] [] :=
  ⟨Nat.zero_le _, Nat.max_eq_left (Nat.zero_le _)⟩

/-- What is read on the same level goes together. -/
theorem Nests.append {limit depth : Nat} {taken more : List Token} {n : Node} {ns : List Node}
    (h : Nests limit depth taken [n]) (hlevel : more ≠ [] → level depth taken = depth)
    (hs : Nests limit depth more ns) : Nests limit depth (taken ++ more) (n :: ns) := by
  have hdeepest (counts) : deepest counts depth (taken ++ more) =
      max (deepest counts depth taken) (deepest counts depth more) := by
    rw [Token.deepest_append]
    cases more with
    | nil => rfl
    | cons t ts => rw [hlevel (List.cons_ne_nil t ts)]
  constructor
  · rw [hdeepest]
    exact Nat.max_le.mpr ⟨h.within, hs.within⟩
  · have hn := h.nesting
    have hns := hs.nesting
    simp only [nestingAmong, Nat.max_zero] at hn ⊢
    rw [hdeepest]
    omega

theorem cut_at_close {t : Token} {colon body inner rest : List Token} (h : body = inner ++ rest) :
    colon ++ t :: body = colon ++ t :: (inner ++ rest.take 1) ++ rest.tail := by
  rw [h, List.append_assoc, List.cons_append, List.append_assoc, ← List.drop_one,
    List.take_append_drop]

theorem kind_of_mem_close {t : Token} {rest : List Token} (hstop : StopsAt .rightParen rest)
    (h : t ∈ rest.take 1) : t.kind = .rightParen := by
  rw [List.take_one] at h
  exact hstop t (by simpa using h)

/-- One token and flat ones behind it, for a node without arguments. -/
theorem Nests.leaf (limit depth : Nat) (t : Token) (ts : List Token)
    (ho : t.kind.opensParen = false) :
    Nests limit depth (t :: ts.take (leaf t ts).2) [(leaf t ts).1] := by
  have hflat (counts : Token.Kind → Bool) (hc : ∀ k, k.makesCall = false → counts k = false)
      (d : Nat) : deepest counts d (ts.take (Value.leaf t ts).2) = 0 :=
    Token.deepest_of_none fun u hu => hc _ (isFlat_of_mem_leaf hu).1
  constructor
  · rw [deepest, ho, hflat _ fun _ => Token.opensParen_of_makesCall]
    exact Nat.zero_le _
  · rw [deepest, hflat _ fun _ => id, nestingAmong, nestingAmong, nesting_leaf ho]
    split <;> omega

/-- A call is its opening, its arguments one level deeper, and the parenthesis
that closes it if the tokens do not end in front of it. -/
theorem Nests.call {limit depth : Nat} {o : Opening} {colon inner rest : List Token}
    {ns : List Node} (unclosed : Bool) (hlimit : depth < limit)
    (hcolon : ∀ t ∈ colon, t.kind.IsFlat) (ho : o.opener.kind.opensParen)
    (h : Nests limit (depth + 1) inner ns) (hstop : StopsAt .rightParen rest) :
    Nests limit depth (colon ++ o.opener :: (inner ++ rest.take 1)) [o.call ns unclosed] := by
  have hdeepest (counts : Token.Kind → Bool) (hflat : ∀ k, k.makesCall = false → counts k = false)
      (hcounts : ∀ k, k.opensParen → counts k) :
      deepest counts depth (colon ++ o.opener :: (inner ++ rest.take 1)) =
        max (depth + 1) (deepest counts (depth + 1) inner) := by
    have hnone (d : Nat) : deepest counts d (rest.take 1) = 0 :=
      Token.deepest_of_none fun t ht => hflat _ (by rw [kind_of_mem_close hstop ht]; rfl)
    rw [Token.deepest_append, Token.deepest_of_none fun t ht => hflat _ (hcolon t ht).1,
      Token.level_of_isFlat hcolon, deepest, Token.Kind.level, if_pos ho, if_pos (hcounts _ ho),
      Token.deepest_append, hnone, Nat.max_zero, Nat.zero_max]
  constructor
  · rw [hdeepest _ (fun _ => Token.opensParen_of_makesCall) fun _ => id]
    exact Nat.max_le.mpr ⟨hlimit, h.within⟩
  · have hns := h.nesting
    rw [hdeepest _ (fun _ => id) fun _ => Token.makesCall_of_opensParen, nestingAmong, nestingAmong,
      nesting_call]
    omega

/-- Behind a call that is closed the level is the one in front of it. -/
theorem level_call {depth : Nat} {o : Opening} {colon inner rest : List Token}
    (hcolon : ∀ t ∈ colon, t.kind.IsFlat) (ho : o.opener.kind.opensParen)
    (hinner : level (depth + 1) inner = depth + 1) (hstop : StopsAt .rightParen rest)
    (hne : rest ≠ []) :
    level depth (colon ++ o.opener :: (inner ++ rest.take 1)) = depth := by
  obtain ⟨t, rest, rfl⟩ := List.exists_cons_of_ne_nil hne
  rw [Token.level_append, Token.level_of_isFlat hcolon, level, Token.Kind.level, if_pos ho,
    Token.level_append, hinner, List.take_succ_cons, List.take_zero, level, level,
    Token.stopsAt_cons.mp hstop]
  rfl

/-- Nodes that were read nest as deep as the tokens taken for them. What is taken
in front of other tokens comes back to the level where it started. -/
theorem nests_parseNodes {limit depth : Nat} {nested : Bool} {ts : List Token}
    {ns : Nodes ts.length} (hnested : nested = false → depth = 0)
    (h : parseNodes limit depth nested ts = .ok ns) :
    ∃ taken, ts = taken ++ ns.rest ∧ Nests limit depth taken ns.nodes ∧
      StopsAt .rightParen ns.rest ∧ (ns.rest ≠ [] → level depth taken = depth) := by
  fun_induction parseNodes limit depth nested ts with
  | case1 =>
    cases h
    exact ⟨[], rfl, .nil .., Token.stopsAt_nil _, fun _ => rfl⟩
  | case2 depth nested t rest hc =>
    cases h
    simp only [Bool.and_eq_true, decide_eq_true_eq] at hc
    exact ⟨[], rfl, .nil .., Token.stopsAt_cons.mpr hc.2, fun _ => rfl⟩
  | case3 depth nested t rest hc ho node n hleaf ih =>
    obtain ⟨ns', hns, hcons⟩ := bind_eq_ok.mp h
    cases hcons
    obtain ⟨more, hmore, hnests, hstop, hback⟩ := ih hnested hns
    have hclosed := opensParen_of_opening? ho
    have hfirst := Nests.leaf limit depth t rest hclosed
    have hlevel := level_leaf rest hclosed (depth_of_leaf hnested hc)
    rw [hleaf] at hfirst hlevel
    refine ⟨t :: rest.take n ++ more, ?_, hfirst.append (fun _ => hlevel) hnests, hstop,
      fun hne => ?_⟩
    · rw [Nodes.rest_cons, List.append_assoc, ← hmore, List.cons_append, List.take_append_drop]
    · rw [Token.level_append, hlevel]
      exact hback hne
  | case4 => cases h
  | case5 depth nested t rest _ o ho _ hlimit ih ih' =>
    obtain ⟨arguments, hargs, h⟩ := bind_eq_ok.mp h
    obtain ⟨ns', hns, hcons⟩ := bind_eq_ok.mp h
    cases hcons
    obtain ⟨inner, hinner, hnests, hstop, hback⟩ := ih Bool.noConfusion hargs
    obtain ⟨more, hmore, hnests', hstop', hback'⟩ := ih' arguments hnested hns
    obtain ⟨colon, hts, hcolon, hopens⟩ := tokens_of_opening? ho
    have hcall := hnests.call arguments.rest.isEmpty (Nat.lt_of_not_le hlimit) hcolon hopens hstop
    have hlevel (hne : arguments.rest ≠ []) :=
      level_call hcolon hopens (hback hne) hstop hne
    -- something behind the call is read only if the call is closed
    have hne (h : arguments.rest.tail ≠ []) : arguments.rest ≠ [] := fun he => h (by rw [he]; rfl)
    refine ⟨colon ++ o.opener :: (inner ++ arguments.rest.take 1) ++ more, ?_,
      hcall.append (fun h => hlevel (hne ?_)) hnests', hstop', fun h => ?_⟩
    · rw [Nodes.rest_cons, hts, List.append_assoc, ← hmore]
      exact cut_at_close hinner
    · rw [hmore]
      exact fun he => h (List.append_eq_nil_iff.mp he).1
    · rw [Token.level_append, hlevel (hne ?_)]
      · exact hback' h
      · rw [hmore]
        exact fun he => h (List.append_eq_nil_iff.mp he).2

/-- Only tokens that nest too deep are refused. -/
theorem tooDeep_of_parseNodes {limit depth : Nat} {nested : Bool} {ts : List Token}
    {e : SyntaxError} (hnested : nested = false → depth = 0)
    (h : parseNodes limit depth nested ts = .error e) :
    limit < deepest Token.Kind.opensParen depth ts ∧
      ∃ offset, e = .nestingTooDeep limit offset := by
  fun_induction parseNodes limit depth nested ts with
  | case1 => cases h
  | case2 => cases h
  | case3 depth nested t rest hc ho node n hleaf ih =>
    have h := ih hnested (eq_error_of_bind h fun _ => rfl)
    have hlevel := level_leaf rest (opensParen_of_opening? ho) (depth_of_leaf hnested hc)
    rw [hleaf] at hlevel
    refine ⟨?_, h.2⟩
    rw [← List.take_append_drop n rest, ← List.cons_append, Token.deepest_append, hlevel]
    exact Nat.lt_of_lt_of_le h.1 (Nat.le_max_right ..)
  | case4 depth nested t rest _ o ho _ hlimit =>
    cases h
    obtain ⟨colon, hts, hcolon, hopens⟩ := tokens_of_opening? ho
    refine ⟨?_, _, rfl⟩
    rw [hts, Token.deepest_append, Token.level_of_isFlat hcolon, deepest, if_pos hopens]
    omega
  | case5 depth nested t rest _ o ho _ hlimit ih ih' =>
    obtain ⟨colon, hts, hcolon, hopens⟩ := tokens_of_opening? ho
    rcases bind_eq_error h with hargs | ⟨arguments, hargs, h⟩
    · have h := ih Bool.noConfusion hargs
      refine ⟨?_, h.2⟩
      rw [hts, Token.deepest_append, Token.level_of_isFlat hcolon, deepest, Token.Kind.level,
        if_pos hopens, if_pos hopens]
      omega
    · have h := ih' arguments hnested (eq_error_of_bind h fun _ => rfl)
      obtain ⟨inner, hinner, -, hstop, hback⟩ := nests_parseNodes Bool.noConfusion hargs
      have hne : arguments.rest ≠ [] := fun he => by
        rw [he] at h
        exact absurd h.1 (Nat.not_lt_zero limit)
      have hlevel := level_call hcolon hopens (hback hne) hstop hne
      refine ⟨?_, h.2⟩
      rw [hts, cut_at_close hinner, Token.deepest_append, hlevel]
      exact Nat.lt_of_lt_of_le h.1 (Nat.le_max_right ..)

/-- Whatever the limit, a value is read exactly if its parentheses are within it,
and then its calls nest as deep as its tokens. -/
theorem parseWithin_iff (limit : Nat) (source : String) :
    match parseWithin limit source with
    | .ok ns => deepest Token.Kind.opensParen 0 (Token.lex source) ≤ limit ∧
        nestingAmong ns = deepest Token.Kind.makesCall 0 (Token.lex source)
    | .error e => limit < deepest Token.Kind.opensParen 0 (Token.lex source) ∧
        ∃ offset, e = .nestingTooDeep limit offset := by
  unfold parseWithin
  -- in front of the value no call is open
  cases hp : parseNodes limit 0 false (Token.lex source) with
  | error e => exact tooDeep_of_parseNodes (fun _ => rfl) hp
  | ok ns =>
    obtain ⟨taken, htaken, hnests, -, -⟩ := nests_parseNodes (fun _ => rfl) hp
    obtain ⟨-, -, hend⟩ := reads_parseNodes hp fun t ht => Token.isSpelled_of_mem_lex ht
    rw [hend rfl, List.append_nil] at htaken
    subst htaken
    have hnesting := hnests.nesting
    rw [Nat.zero_max, Nat.zero_add] at hnesting
    exact ⟨hnests.within, hnesting.symm⟩

theorem exists_parseWithin_iff (limit : Nat) (source : String) :
    (∃ ns, parseWithin limit source = .ok ns) ↔
      deepest Token.Kind.opensParen 0 (Token.lex source) ≤ limit := by
  have h := parseWithin_iff limit source
  cases hp : parseWithin limit source with
  | error e =>
    rw [hp] at h
    refine ⟨?_, fun hle => absurd h.1 (Nat.not_lt.mpr hle)⟩
    rintro ⟨_, ⟨⟩⟩
  | ok ns =>
    rw [hp] at h
    exact ⟨fun _ => h.1, fun _ => ⟨ns, rfl⟩⟩

theorem nestingAmong_of_parseWithin {limit : Nat} {source : String} {ns : List Node}
    (h : parseWithin limit source = .ok ns) :
    deepest Token.Kind.opensParen 0 (Token.lex source) ≤ limit ∧
      nestingAmong ns = deepest Token.Kind.makesCall 0 (Token.lex source) := by
  have hp := parseWithin_iff limit source
  rwa [h] at hp

/-- **The limit on nested calls, up to one url.** Every value is read within some
limit, and its calls nest as deep as its tokens, whatever the limit. A value within
the limit is read, and all that is refused is refused for its nesting. What is read
exceeds the limit by one level at most, and only if an unquoted url stands where as
many parentheses are open as the limit allows. -/
theorem call_nesting_limit (source : String) :
    (∃ limit ns, parseWithin limit source = .ok ns) ∧
    (∀ limit ns, parseWithin limit source = .ok ns →
      nestingAmong ns = deepest Token.Kind.makesCall 0 (Token.lex source)) ∧
    (deepest Token.Kind.makesCall 0 (Token.lex source) ≤ nestingLimit →
      ∃ ns, parse source = .ok ns) ∧
    (∀ e, parse source = .error e → ∃ offset, e = .nestingTooDeep nestingLimit offset) ∧
    ∀ ns, parse source = .ok ns → nestingAmong ns ≤ nestingLimit + 1 ∧
      (nestingAmong ns ≤ nestingLimit ↔ ∀ us t vs, Token.lex source = us ++ t :: vs →
        t.kind.isUrl → level 0 us < nestingLimit) := by
  refine ⟨⟨_, (exists_parseWithin_iff _ source).mpr (Nat.le_refl _)⟩,
    fun limit ns h => (nestingAmong_of_parseWithin h).2, fun h => ?_, fun e h => ?_,
    fun ns h => ?_⟩
  · rw [Token.deepest_makesCall] at h
    exact (exists_parseWithin_iff nestingLimit source).mpr (Nat.le_trans (Nat.le_max_left ..) h)
  · have hp := parseWithin_iff nestingLimit source
    unfold parse at h
    rw [h] at hp
    exact hp.2
  · obtain ⟨hopen, hnesting⟩ := nestingAmong_of_parseWithin h
    have hsucc := Token.deepest_le_succ Token.Kind.makesCall 0 (Token.lex source)
    rw [Nat.zero_max, ← hnesting] at hsucc
    refine ⟨Nat.le_trans hsucc (Nat.succ_le_succ hopen), ?_⟩
    rw [← Token.deepest_le_iff, hnesting, Token.deepest_makesCall, Nat.max_le]
    exact and_iff_right hopen

/-- A url inside of as many parentheses as the limit allows. -/
def deepUrl : String :=
  String.ofList (List.replicate nestingLimit '(' ++ "url(x)".toList ++
    List.replicate nestingLimit ')')

/-- The url is one call too many, and the value is read. -/
theorem deepUrl_exceeds_limit :
    ∃ ns, parse deepUrl = .ok ns ∧ nestingAmong ns = nestingLimit + 1 := by
  have hlex : Token.lex deepUrl = Token.lexFrom 0 (List.replicate nestingLimit '(' ++
      "url(x)".toList ++ List.replicate nestingLimit ')') := by
    rw [Token.lex, deepUrl, String.toList_ofList]
  have hopen : deepest Token.Kind.opensParen 0 (Token.lex deepUrl) ≤ nestingLimit := by
    rw [hlex]
    decide +kernel
  have hcalls : deepest Token.Kind.makesCall 0 (Token.lex deepUrl) = nestingLimit + 1 := by
    rw [hlex]
    decide +kernel
  obtain ⟨ns, hns⟩ := (exists_parseWithin_iff nestingLimit deepUrl).mpr hopen
  exact ⟨ns, hns, (nestingAmong_of_parseWithin hns).2.trans hcalls⟩

end Value
end StyleScope
