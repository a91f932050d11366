/-
# Limits on nesting

Blocks, and arguments of pseudo-classes, may nest to a limit. The readers carry
the depth they have reached and check it in front of each block and each
argument list. Apart from that check they are the readers that know no limit
(`parseItems_eq`, `parseParts_eq`): the same step, with something else to read
what stands inside.

So both readers are compared by the step alone. `Limited` lists what can become
of an outcome. It passes through a sequence (`Limited.bind`), since what is read
nests at least as deep as each of its parts, and the check gives it one level
deeper (`Limited.check`). The depth is never counted wrong on the way: what
stands behind a block is read at the depth that the block was read at, however
many blocks there are and however deep they nest.

Key definitions: `Limited`, `EnforcesLimit`, `Sheet.itemsStep`,
`Sheet.parseFreely`, `Selector.partsStep`, `Selector.parseFreely`.
Key theorems: `Sheet.limited_parseItems`, `Selector.limited_parseParts`,
`nesting_limit_exact`.
-/
import StyleScope.Proofs.Listing
import StyleScope.Proofs.SelectorRead

namespace StyleScope

/-! ### Outcomes with and without a limit -/

/-- What a limit makes of the outcome of reading, where `nesting` tells how deep
a result nests: a result within the limit stays, a deeper one is refused, and
an error stays unless the limit is exceeded first. -/
inductive Limited {α : Type} (limit : Nat) (nesting : α → Nat) :
    Except SyntaxError α → Except SyntaxError α → Prop where
  | within {a : α} (h : nesting a ≤ limit) : Limited limit nesting (.ok a) (.ok a)
  | tooDeep {a : α} (h : limit < nesting a) (offset : Nat) :
    Limited limit nesting (.ok a) (.error (.nestingTooDeep limit offset))
  | failed (e : SyntaxError) : Limited limit nesting (.error e) (.error e)
  | cutShort (e : SyntaxError) (offset : Nat) :
    Limited limit nesting (.error e) (.error (.nestingTooDeep limit offset))

namespace Limited

variable {α β : Type} {limit : Nat} {nesting : α → Nat} {x y : Except SyntaxError α}

/-- A reading that goes on behind another one, whose result it takes in. -/
theorem bind {f g : α → Except SyntaxError β} {nesting' : β → Nat}
    (h : Limited limit nesting x y)
    (hfg : ∀ a, nesting a ≤ limit → Limited limit nesting' (f a) (g a))
    (hle : ∀ a b, f a = .ok b → nesting a ≤ nesting' b) :
    Limited limit nesting' (x >>= f) (y >>= g) := by
  cases h with
  | within h => exact hfg _ h
  | @tooDeep a h offset =>
    show Limited limit nesting' (f a) _
    cases hf : f a with
    | error e => exact .cutShort e offset
    | ok b => exact .tooDeep (Nat.lt_of_lt_of_le h (hle a b hf)) offset
  | failed e => exact .failed e
  | cutShort e offset => exact .cutShort e offset

/-- What comes before any nesting is read alike. -/
theorem bind_same {γ : Type} {x : Except SyntaxError γ} {f g : γ → Except SyntaxError α}
    (h : ∀ a, x = .ok a → Limited limit nesting (f a) (g a)) :
    Limited limit nesting (x >>= f) (x >>= g) := by
  cases x with
  | error e => exact .failed e
  | ok a => exact h a rfl

/-- The check in front of what nests one deeper. -/
theorem check {depth : Nat} (h : depth < limit → Limited limit (fun a => depth + 1 + nesting a) x y)
    (offset : Nat) :
    Limited limit (fun a => depth + 1 + nesting a) x
      (if limit ≤ depth then .error (.nestingTooDeep limit offset) else y) := by
  split
  next hlimit =>
    cases x with
    | error e => exact .cutShort e offset
    | ok a => exact .tooDeep (by omega) offset
  next hlimit => exact h (Nat.lt_of_not_le hlimit)

end Limited

/-! ### What is left -/

theorem Token.length_le_of_dropWhile {p : Token → Bool} {ts us : List Token}
    (h : ts.dropWhile p = us) : us.length ≤ ts.length :=
  h ▸ Token.length_dropWhile_le p ts

theorem Token.length_lt_behind {p : Token → Bool} {ts rest us : List Token} {t : Token}
    (h : ts.dropWhile p = t :: rest) (hle : us.length ≤ rest.length) : us.length < ts.length :=
  Nat.lt_of_le_of_lt hle (Token.length_lt_of_dropWhile h)

/-! ### Sheets -/

namespace Sheet

mutual

/-- How deep blocks nest in a node. -/
def Node.nesting : Node → Nat
  | .rule _ body _ => 1 + nestingAmong body
  | .atBlock _ body _ => 1 + nestingAmong body
  | .atStatement _ _ => 0
  | .declaration _ => 0
  | .comment _ => 0

/-- How deep blocks nest among nodes. -/
def nestingAmong : List Node → Nat
  | [] => 0
  | n :: ns => max n.nesting (nestingAmong ns)

end

/-- How deep blocks nest in a sheet. -/
def nesting (s : Sheet) : Nat :=
  nestingAmong s.nodes

def Items.nesting {n : Nat} (items : Items n) : Nat :=
  nestingAmong items.nodes

theorem nesting_of_hasBlock {n : Node} (h : n.hasBlock = false) : n.nesting = 0 := by
  cases n with
  | rule head body after => cases h
  | atBlock head body after => cases h
  | _ => simp only [Node.nesting]

theorem nesting_node (h : Head) (body : List Node) (after : String) :
    (h.node body after).nesting = 1 + nestingAmong body := by
  cases h <;> simp only [Head.node, Node.nesting]

theorem nesting_cons {m n : Nat} (node : Node) (items : Items m) (h : m ≤ n) :
    (items.cons node h).nesting = max node.nesting items.nesting := by
  simp only [Items.nesting, Items.cons, nestingAmong]

/-- Reads items, where `inside` reads what stands in a block that opens with a
brace, and `onward` what stands behind an item. -/
def itemsStep (ts : List Token)
    (inside : (brace : Token) → (body : List Token) → body.length < ts.length →
      Traced SyntaxError (Items body.length))
    (onward : (us : List Token) → us.length < ts.length → Traced SyntaxError (Items us.length)) :
    Traced SyntaxError (Items ts.length) :=
  let before := Token.textOf (ts.takeWhile isFiller)
  match ht : ts.dropWhile isFiller with
  | [] => pure ⟨[], before, [], Token.length_le_of_dropWhile ht⟩
  | t :: rest =>
    if t.kind = .rightBrace then
      pure ⟨[], before, t :: rest, Token.length_le_of_dropWhile ht⟩
    else do
      match ← readItem before t rest with
      | .done node rest' hle =>
        let items ← onward rest' (Token.length_lt_behind ht (Nat.le_of_lt_succ hle))
        return items.cons node (Nat.le_of_lt (Token.length_lt_behind ht (Nat.le_of_lt_succ hle)))
      | .opened head brace body hle =>
        let block ← inside brace body (Token.length_lt_behind ht (Nat.le_of_lt_succ hle))
        match hr : block.rest with
        | [] => .fail (.unclosedBlock brace.start)
        | _ :: rest' =>
          have hle' := Nat.le_trans (Nat.le_of_lt (block.length_lt_of_rest hr))
            (Nat.le_of_lt_succ hle)
          let items ← onward rest' (Token.length_lt_behind ht hle')
          return items.cons (head.node block.nodes block.after)
            (Nat.le_of_lt (Token.length_lt_behind ht hle'))

/-- Reads items with blocks that nest to any depth. -/
def parseItemsFreely (ts : List Token) : Traced SyntaxError (Items ts.length) :=
  itemsStep ts (fun _ body _ => parseItemsFreely body) fun us _ => parseItemsFreely us
termination_by ts.length

/-- Reads a sheet with blocks that nest to any depth. -/
def parseFreely (source : String) : Traced SyntaxError Sheet := do
  let items ← parseItemsFreely (Token.lex source)
  match items.rest with
  | [] => return ⟨items.nodes, items.after⟩
  | t :: _ => .fail (.unexpectedCloseBrace t.start)

/-- The limit is one check in front of each block. -/
theorem parseItems_eq (limit depth : Nat) (ts : List Token) :
    parseItems limit depth ts = itemsStep ts
      (fun brace body _ =>
        if limit ≤ depth then .fail (.nestingTooDeep limit brace.start)
        else parseItems limit (depth + 1) body)
      fun us _ => parseItems limit depth us := by
  rw [parseItems, itemsStep]
  cases Nat.decLe limit depth <;> rfl

/-- If the parts are read alike up to the limit, so are the items. -/
theorem limited_itemsStep {limit depth : Nat} (hd : depth ≤ limit) {ts : List Token}
    {inside inside' : (brace : Token) → (body : List Token) → body.length < ts.length →
      Traced SyntaxError (Items body.length)}
    {onward onward' : (us : List Token) → us.length < ts.length →
      Traced SyntaxError (Items us.length)}
    (hinside : ∀ brace body h, Limited limit (fun items => depth + 1 + items.nesting)
      (inside brace body h).result (inside' brace body h).result)
    (honward : ∀ us h, Limited limit (fun items => depth + items.nesting)
      (onward us h).result (onward' us h).result) :
    Limited limit (fun items => depth + items.nesting)
      (itemsStep ts inside onward).result (itemsStep ts inside' onward').result := by
  unfold itemsStep
  split
  next => exact .within hd
  next t rest ht =>
    by_cases hk : t.kind = .rightBrace
    · simp only [if_pos hk]
      exact .within hd
    · simp only [if_neg hk, Traced.result_bind]
      refine .bind_same fun item hitem => ?_
      cases item with
      | done node rest' hle =>
        have hnode := nesting_of_hasBlock (hasBlock_of_itemCut (itemCut_of_readItem hitem))
        simp only [Traced.result_bind]
        refine (honward rest' _).bind (fun items h => .within ?_) fun items items' h => ?_
        · simpa only [nesting_cons, hnode, Nat.zero_max] using h
        · cases h
          simp only [nesting_cons, hnode, Nat.zero_max, Nat.le_refl]
      | opened head brace body hle =>
        simp only [Traced.result_bind]
        -- the block is read one level deeper, what follows it on this level again
        refine (hinside brace body _).bind (fun block hblock => ?_) fun block items h => ?_
        · split
          next => exact .failed _
          next u rest' hr =>
            simp only [Traced.result_bind]
            refine (honward rest' _).bind (fun items h => .within ?_) fun items items' h => ?_
            · simp only [nesting_cons, nesting_node]
              simp only [Items.nesting] at hblock h ⊢
              omega
            · cases h
              simp only [nesting_cons]
              omega
        · split at h
          next => cases h
          next u rest' hr =>
            obtain ⟨items', -, hcons⟩ := Traced.bind_eq_ok.mp h
            cases hcons
            simp only [nesting_cons, nesting_node]
            simp only [Items.nesting]
            omega

/-- Items that are read at some depth nest on from there. -/
theorem limited_parseItems {limit depth : Nat} (hd : depth ≤ limit) (ts : List Token) :
    Limited limit (fun items => depth + items.nesting)
      (parseItemsFreely ts).result (parseItems limit depth ts).result := by
  fun_induction parseItemsFreely ts generalizing depth with
  | case1 ts ih =>
    rw [parseItems_eq]
    refine limited_itemsStep hd (fun brace body h => ?_) fun us h => ih us h hd
    rw [apply_ite Traced.result]
    exact .check (fun hlimit => ih body h hlimit) brace.start

theorem limited_parseWithin (limit : Nat) (source : String) :
    Limited limit nesting (parseFreely source).result (parseWithin limit source).result := by
  unfold parseFreely parseWithin
  simp only [Traced.result_bind]
  refine (limited_parseItems (Nat.zero_le limit) _).bind (fun items h => ?_) fun items s h => ?_
  · rw [Nat.zero_add] at h
    cases items.rest with
    | nil => exact .within h
    | cons t ts => exact .failed _
  · rw [Nat.zero_add]
    split at h
    next =>
      cases h
      exact Nat.le_refl _
    next => cases h

end Sheet

/-! ### Selector lists -/

namespace Selector

mutual

/-- How deep the arguments of pseudo-classes nest in a tree. -/
def Tree.nesting : Tree → Nat
  | .node (.pseudo _ true) _ _ children => 1 + nestingAmong children
  | .node _ _ _ children => nestingAmong children

/-- How deep the arguments of pseudo-classes nest in the trees. -/
def nestingAmong : List Tree → Nat
  | [] => 0
  | t :: ts => max t.nesting (nestingAmong ts)

end

def Parts.nesting {n : Nat} (p : Parts n) : Nat :=
  max (nestingAmong p.nodes) (nestingAmong p.others)

theorem nesting_withSpaces (t : Tree) (spaces : Spaces) :
    (t.withSpaces spaces).nesting = t.nesting := by
  obtain ⟨kind, _, _, _⟩ := t
  cases kind with
  | pseudo name hasArguments =>
    cases hasArguments <;> simp only [Tree.withSpaces, Tree.nesting]
  | _ => simp only [Tree.withSpaces, Tree.nesting]

theorem nesting_leaf {kind : Kind} (spaces : Spaces) (start : Nat) (hk : kind.isLeaf) :
    (Tree.leaf kind spaces start).nesting = 0 := by
  cases kind with
  | pseudo name hasArguments =>
    cases hasArguments with
    | true => cases hk
    | false => simp only [Tree.leaf, Tree.nesting, nestingAmong]
  | _ => simp only [Tree.leaf, Tree.nesting, nestingAmong]

theorem nesting_cons {m n : Nat} (t : Tree) (p : Parts m) (h : m ≤ n) :
    (p.cons t h).nesting = max t.nesting p.nesting := by
  unfold Parts.cons Parts.nesting
  split
  next hnil =>
    simp only [nestingAmong, hnil, Tree.setAfter, nesting_withSpaces]
    omega
  next =>
    simp only [nestingAmong]
    omega

theorem nesting_spacingNode (trivia : List Token) : (spacingNode trivia).nesting = 0 := by
  unfold spacingNode
  split
  all_goals exact nesting_leaf _ _ rfl

theorem nesting_simpleNode {kind : Kind} (hk : kind.isLeaf) (start : Nat) (atEnd : Bool) :
    (simpleNode kind start atEnd).nesting = 0 := by
  unfold simpleNode
  repeat' split
  all_goals exact nesting_leaf _ _ hk

theorem nesting_consSimple {m n : Nat} (isFirst : Bool) (trivia : List Token) (t : Tree)
    (p : Parts m) (h : m ≤ n) :
    (p.consSimple isFirst trivia t h).nesting = max t.nesting p.nesting := by
  unfold Parts.consSimple
  split
  · rw [nesting_cons, Tree.setBefore, nesting_withSpaces]
  split
  · rw [nesting_cons]
  · rw [nesting_cons, nesting_cons, nesting_spacingNode, Nat.zero_max]

theorem nesting_alternatives {n : Nat} (p : Parts n) (start : Nat) :
    nestingAmong (p.alternatives start) = p.nesting := by
  simp only [Parts.alternatives, Parts.alternative, nestingAmong, Tree.nesting, Parts.nesting]

theorem Parts.length_lt_of_rest {n : Nat} (p : Parts n) {t : Token} {ts : List Token}
    (h : p.rest = t :: ts) : ts.length < n := by
  have hle := p.length_rest
  rw [h, List.length_cons] at hle
  exact hle

/-- Reads the rest of an alternative and the alternatives that follow it, where
`inside` reads the arguments of a pseudo-class, and `onward` what stands behind
a node or a comma. -/
def partsStep (stop : Nat) (isFirst : Bool) (ts : List Token)
    (inside : (o : Opening) → o.body.length < ts.length →
      Except SyntaxError (Parts o.body.length))
    (onward : (isFirst : Bool) → (us : List Token) → us.length < ts.length →
      Except SyntaxError (Parts us.length)) :
    Except SyntaxError (Parts ts.length) :=
  let trivia := ts.takeWhile Token.isTrivia
  match ht : ts.dropWhile Token.isTrivia with
  | [] => .ok ⟨[], Token.textOf trivia, [], [], Token.length_le_of_dropWhile ht⟩
  | t :: rest =>
    if t.kind = .rightParen then
      .ok ⟨[], Token.textOf trivia, [], t :: rest, Token.length_le_of_dropWhile ht⟩
    else if t.kind = .comma then do
      let p ← onward true rest (Token.length_lt_of_dropWhile ht)
      return ⟨[], Token.textOf trivia, p.alternatives (Token.startOf stop rest), p.rest,
        Nat.le_of_lt (Token.length_lt_behind ht p.length_rest)⟩
    else
      match combinator? t.kind with
      | some c => do
        let after := rest.takeWhile Token.isTrivia
        have hle := Token.length_dropWhile_le Token.isTrivia rest
        let p ← onward false (rest.dropWhile Token.isTrivia) (Token.length_lt_behind ht hle)
        return p.cons
          (.leaf (.combinator c t.text) ⟨Token.textOf trivia, Token.textOf after⟩ t.start)
          (Nat.le_of_lt (Token.length_lt_behind ht hle))
      | none =>
        match ho : opening? (t :: rest) with
        | some o => do
          have hle : o.body.length ≤ rest.length := Nat.le_of_lt_succ (length_body_lt ho)
          let arguments ← inside o (Token.length_lt_behind ht hle)
          match hr : arguments.rest with
          | [] => .error (.unclosedBracket '(' o.opener.start)
          | _ :: rest' =>
            have hle' := Nat.le_trans (Nat.le_of_lt (arguments.length_lt_of_rest hr)) hle
            let p ← onward false rest' (Token.length_lt_behind ht hle')
            return p.consSimple isFirst trivia
              (.node (.pseudo o.name true) .none t.start
                (arguments.alternatives (Token.startOf stop o.body)))
              (Nat.le_of_lt (Token.length_lt_behind ht hle'))
        | none => do
          let (kind, n) ← simple t rest
          have hle := (List.drop_sublist n rest).length_le
          let p ← onward false (rest.drop n) (Token.length_lt_behind ht hle)
          return p.consSimple isFirst trivia
            (simpleNode kind t.start (endsCompound (rest.drop n)))
            (Nat.le_of_lt (Token.length_lt_behind ht hle))

/-- Reads alternatives with arguments that nest to any depth. -/
def parsePartsFreely (stop : Nat) (isFirst : Bool) (ts : List Token) :
    Except SyntaxError (Parts ts.length) :=
  partsStep stop isFirst ts (fun o _ => parsePartsFreely stop true o.body)
    fun isFirst us _ => parsePartsFreely stop isFirst us
termination_by ts.length

/-- Reads a selector list with arguments that nest to any depth. -/
def parseFreely (source : String) : Except SyntaxError Tree := do
  let ts := Token.lex source
  let stop := source.utf8ByteSize
  let p ← parsePartsFreely stop true ts
  match p.rest with
  | [] => return .node .root .none 0 (p.alternatives (Token.startOf stop ts))
  | t :: _ => throw (.unexpectedCloseBracket ')' t.start)

/-- The limit is one check in front of each argument list. -/
theorem parseParts_eq (limit stop depth : Nat) (isFirst : Bool) (ts : List Token) :
    parseParts limit stop depth isFirst ts = partsStep stop isFirst ts
      (fun o _ =>
        if limit ≤ depth then .error (.nestingTooDeep limit o.opener.start)
        else parseParts limit stop (depth + 1) true o.body)
      fun isFirst us _ => parseParts limit stop depth isFirst us := by
  rw [parseParts, partsStep]
  cases Nat.decLe limit depth <;> rfl

/-- If what stands inside and behind is read alike up to the limit, so are the
alternatives. -/
theorem limited_partsStep {limit depth stop : Nat} (hd : depth ≤ limit) {isFirst : Bool}
    {ts : List Token}
    {inside inside' : (o : Opening) → o.body.length < ts.length →
      Except SyntaxError (Parts o.body.length)}
    {onward onward' : (isFirst : Bool) → (us : List Token) → us.length < ts.length →
      Except SyntaxError (Parts us.length)}
    (hinside : ∀ o h, Limited limit (fun p => depth + 1 + p.nesting) (inside o h) (inside' o h))
    (honward : ∀ isFirst us h,
      Limited limit (fun p => depth + p.nesting) (onward isFirst us h) (onward' isFirst us h)) :
    Limited limit (fun p => depth + p.nesting)
      (partsStep stop isFirst ts inside onward) (partsStep stop isFirst ts inside' onward') := by
  unfold partsStep
  split
  next => exact .within hd
  next t rest ht =>
    by_cases hparen : t.kind = .rightParen
    · simp only [if_pos hparen]
      exact .within hd
    by_cases hcomma : t.kind = .comma
    · simp only [if_neg hparen, if_pos hcomma]
      refine (honward _ _ _).bind (fun p h => .within ?_) fun p p' h => ?_
      · simpa only [Parts.nesting, nesting_alternatives, nestingAmong, Nat.zero_max] using h
      · cases h
        simp only [Parts.nesting, nesting_alternatives, nestingAmong, Nat.zero_max, Nat.le_refl]
    simp only [if_neg hparen, if_neg hcomma]
    split
    next c hc =>
      refine (honward _ _ _).bind (fun p h => .within ?_) fun p p' h => ?_
      · simpa only [nesting_cons, @nesting_leaf (.combinator _ _) _ _ rfl, Nat.zero_max] using h
      · cases h
        simp only [nesting_cons, @nesting_leaf (.combinator _ _) _ _ rfl, Nat.zero_max,
          Nat.le_refl]
    split
    next o ho =>
      refine (hinside o _).bind (fun arguments harguments => ?_) fun arguments p h => ?_
      · split
        next => exact .failed _
        next u rest' hr =>
          refine (honward _ _ _).bind (fun p h => .within ?_) fun p p' h => ?_
          · simp only [nesting_consSimple, Tree.nesting, nesting_alternatives]
            omega
          · cases h
            simp only [nesting_consSimple]
            omega
      · split at h
        next => cases h
        next u rest' hr =>
          obtain ⟨p', -, hcons⟩ := bind_eq_ok.mp h
          cases hcons
          simp only [nesting_consSimple, Tree.nesting, nesting_alternatives]
          omega
    next =>
      refine .bind_same fun found hs => ?_
      obtain ⟨kind, n⟩ := found
      have hkind := isLeaf_of_simple hs
      refine (honward _ _ _).bind (fun p h => .within ?_) fun p p' h => ?_
      · simpa only [nesting_consSimple, nesting_simpleNode hkind, Nat.zero_max] using h
      · cases h
        simp only [nesting_consSimple, nesting_simpleNode hkind, Nat.zero_max, Nat.le_refl]

/-- Alternatives that are read at some depth nest on from there. -/
theorem limited_parseParts {limit depth : Nat} (hd : depth ≤ limit) (stop : Nat) (isFirst : Bool)
    (ts : List Token) :
    Limited limit (fun p => depth + p.nesting)
      (parsePartsFreely stop isFirst ts) (parseParts limit stop depth isFirst ts) := by
  fun_induction parsePartsFreely stop isFirst ts generalizing depth with
  | case1 isFirst ts ihinside ihonward =>
    rw [parseParts_eq]
    refine limited_partsStep hd (fun o h => ?_) fun isFirst us h => ihonward isFirst us h hd
    exact .check (fun hlimit => ihinside o h hlimit) o.opener.start

theorem limited_parseWithin (limit : Nat) (source : String) :
    Limited limit Tree.nesting (parseFreely source) (parseWithin limit source) := by
  unfold parseFreely parseWithin
  refine (limited_parseParts (Nat.zero_le limit) _ _ _).bind (fun p h => ?_) fun p t h => ?_
  · rw [Nat.zero_add] at h
    cases p.rest with
    | nil => exact .within (by simpa only [Tree.nesting, nesting_alternatives] using h)
    | cons t ts => exact .failed _
  · rw [Nat.zero_add]
    split at h
    next =>
      cases h
      simp only [Tree.nesting, nesting_alternatives, Nat.le_refl]
    next => cases h

end Selector

/-- A reader enforces a limit on nesting: compared with the same reader without
one, it gives exactly the results that are within the limit, refuses deeper
ones for their nesting, and fails where the other does, unless it exceeds the
limit first. -/
structure EnforcesLimit {α : Type} (limit : Nat) (nesting : α → Nat)
    (freely within : Except SyntaxError α) : Prop where
  ok_iff : ∀ a, within = .ok a ↔ freely = .ok a ∧ nesting a ≤ limit
  tooDeep : ∀ a, freely = .ok a → limit < nesting a →
    ∃ offset, within = .error (.nestingTooDeep limit offset)
  failed : ∀ e, freely = .error e →
    within = .error e ∨ ∃ offset, within = .error (.nestingTooDeep limit offset)

theorem Limited.enforcesLimit {α : Type} {limit : Nat} {nesting : α → Nat}
    {x y : Except SyntaxError α} (h : Limited limit nesting x y) :
    EnforcesLimit limit nesting x y := by
  cases h with
  | @within a h =>
    refine ⟨fun b => ⟨fun hb => ?_, And.left⟩, fun b hb hlt => ?_, fun e he => ?_⟩
    · cases hb
      exact ⟨rfl, h⟩
    · cases hb
      exact absurd h (Nat.not_le.mpr hlt)
    · cases he
  | @tooDeep a h offset =>
    refine ⟨fun b => ⟨fun hb => ?_, fun hb => ?_⟩, fun b _ _ => ⟨offset, rfl⟩, fun e he => ?_⟩
    · cases hb
    · obtain ⟨hb, hle⟩ := hb
      cases hb
      exact absurd hle (Nat.not_le.mpr h)
    · cases he
  | failed e =>
    refine ⟨fun b => iff_of_false ?_ ?_, fun b hb => ?_, fun e' he => .inl he⟩
    · rintro ⟨⟩
    · rintro ⟨⟨⟩, -⟩
    · cases hb
  | cutShort e offset =>
    refine ⟨fun b => iff_of_false ?_ ?_, fun b hb => ?_, fun e' _ => .inr ⟨offset, rfl⟩⟩
    · rintro ⟨⟩
    · rintro ⟨⟨⟩, -⟩
    · cases hb

/-- **The limit on nesting refuses exactly what nests too deep.** -/
theorem nesting_limit_exact (source : String) :
    EnforcesLimit nestingLimit Sheet.nesting (Sheet.parseFreely source).result
        (Sheet.parse source).result ∧
      EnforcesLimit nestingLimit Selector.Tree.nesting (Selector.parseFreely source)
        (Selector.parse source) :=
  ⟨(Sheet.limited_parseWithin nestingLimit source).enforcesLimit,
    (Selector.limited_parseWithin nestingLimit source).enforcesLimit⟩

/-- Blocks side by side do not add up. -/
example : (Sheet.parseWithin 1 "a\x7b\x7d@b\x7bc:d\x7de\x7b\x7d").result.isOk ∧
    (Sheet.parseWithin 1 "a\x7b\x7d@b\x7bc\x7b").result.toOption.isNone := by
  decide +kernel

end StyleScope
