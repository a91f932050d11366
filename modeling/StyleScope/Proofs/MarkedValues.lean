/-
# Values with marked names

Scoping a value puts marks around words, takes names out of the calls that say
their scope, and leaves everything else alone (`Edits`). What is read behind the
value is the same as before if the new tokens are found where the old ones were and
leave the same brackets open (`Carries`).

That depends on the value. Each word must bear the mark, no name may touch what
stands in front of it, and a name that loses its call must end by itself
(`isSteadyValue`).

Key definitions: `Scope.Edits`, `Scope.isSteadyValue`, `Scope.Carries`.
Key theorems: `Scope.exists_carries_of_edits`.
-/
import StyleScope.Proofs.EnclosedTexts
import StyleScope.Proofs.SpelledValues

namespace StyleScope
namespace Scope

open Sheet (IsLevel SameDepth)
open Token (Found Succeeds Yields isApart isClosedName lex startsName textOf)
open Value (Node)

/-! ### What is changed -/

/-- The second nodes are the first with marks around words, and with names instead of the
calls that say their scope. -/
inductive Edits : List Node → List Node → Prop where
  | nil : Edits [] []
  | keep {ns ms : List Node} (n : Node) (h : Edits ns ms) : Edits (n :: ns) (n :: ms)
  | mark {ns ms : List Node} (start : Nat) (word : String) (h : Edits ns ms) :
    Edits (.word start word :: ns) (.word start (wrapLocal word) :: ms)
  | unwrap {ns ms : List Node} {keyword : Keyword} {start start' : Nat}
    {name before word after : String} {unclosed : Bool}
    (hrole : Role.ofName name = .scoped keyword) (h : Edits ns ms) :
    Edits (.function start name before [.word start' word] after unclosed :: ns)
      (.word start (scopedWord keyword word) :: ms)
  | enter {ns ms arguments arguments' : List Node} {start : Nat} {name before after : String}
    {unclosed : Bool} (hrole : Role.enters name) (harguments : Edits arguments arguments')
    (h : Edits ns ms) :
    Edits (.function start name before arguments after unclosed :: ns)
      (.function start name before arguments' after unclosed :: ms)

section Edits

variable {p : Place}

theorem Edits.localize {ns ms : List Node} (h : Edits ns ms) (start : Nat) (word : String) :
    Edits (.word start word :: ns) (.word start (p.localize word) :: ms) := by
  unfold Place.localize
  split
  · exact h.keep _
  · exact h.mark start word

theorem Edits.unwrapScoped {ns ms : List Node} (h : Edits ns ms) {keyword : Keyword} {start : Nat}
    {name before after : String} {arguments : List Node} {unclosed : Bool}
    (hrole : Role.ofName name = .scoped keyword) :
    Edits (.function start name before arguments after unclosed :: ns)
      (unwrapScoped keyword (.function start name before arguments after unclosed) :: ms) := by
  simp only [Scope.unwrapScoped]
  split
  · exact h.unwrap hrole
  · exact h.keep _

mutual

theorem edits_shorthandNode (hp : p.urlMap = none) : ∀ (n : Node) (candidates : Bool)
    (seen : List String) {ns ms : List Node}, Edits ns ms →
    Edits (n :: ns) ((shorthandNode p candidates n seen).1 :: ms)
  | .function start name before arguments after unclosed, candidates, seen, ns, ms, h => by
    rw [shorthandNode]
    cases hrole : Role.ofName name with
    | closed => exact h.keep _
    | «scoped» keyword => exact h.unwrapScoped hrole
    | url =>
      dsimp only
      rw [Place.mapCall_of_none hp]
      exact h.keep _
    | steps => exact .enter (by rw [Role.enters, hrole]) (edits_shorthandNodes hp arguments _ _) h
    | plain => exact .enter (by rw [Role.enters, hrole]) (edits_shorthandNodes hp arguments _ _) h
  | .word start text, candidates, seen, ns, ms, h => by
    rw [shorthandNode]
    split
    · dsimp only
      split
      · exact h.localize start text
      · exact h.keep _
    · exact h.keep _
  | .string .., _, _, _, _, h => h.keep _
  | .divider .., _, _, _, _, h => h.keep _
  | .space .., _, _, _, _, h => h.keep _
  | .comment .., _, _, _, _, h => h.keep _

theorem edits_shorthandNodes (hp : p.urlMap = none) : ∀ (ns : List Node) (candidates : Bool)
    (seen : List String), Edits ns (shorthandNodes p candidates ns seen).1
  | [], _, _ => .nil
  | n :: ns, candidates, seen => by
    rw [shorthandNodes]
    exact edits_shorthandNode hp n candidates seen (edits_shorthandNodes hp ns candidates _)

end

mutual

theorem edits_nameNode (hp : p.urlMap = none) : ∀ (n : Node) {ns ms : List Node}, Edits ns ms →
    Edits (n :: ns) (nameNode p n :: ms)
  | .function start name before arguments after unclosed, ns, ms, h => by
    rw [nameNode]
    cases hrole : Role.ofName name with
    | closed => exact h.keep _
    | «scoped» keyword => exact h.unwrapScoped hrole
    | url =>
      dsimp only
      rw [Place.mapCall_of_none hp]
      exact h.keep _
    | steps => exact .enter (by rw [Role.enters, hrole]) (edits_localizeNames hp arguments) h
    | plain => exact .enter (by rw [Role.enters, hrole]) (edits_localizeNames hp arguments) h
  | .word start text, ns, ms, h => by
    rw [nameNode]
    split
    · exact h.keep _
    · exact h.localize start text
  | .string .., _, _, h => h.keep _
  | .divider .., _, _, h => h.keep _
  | .space .., _, _, h => h.keep _
  | .comment .., _, _, h => h.keep _

theorem edits_localizeNames (hp : p.urlMap = none) : ∀ ns : List Node,
    Edits ns (localizeNames p ns)
  | [] => .nil
  | n :: ns => by
    rw [localizeNames]
    exact edits_nameNode hp n (edits_localizeNames hp ns)

end

end Edits

/-! ### Values that can be changed -/

/-- Whether the word is a name that takes no white space behind it. -/
def isLone (word : String) : Bool :=
  startsName word.toList && isClosedName word.toList

mutual

/-- Whether a node of a value can be changed where it stands: behind a tight node or not,
and in front of the node `next`. -/
def isSteadyNode (tight : Bool) (next : Option Node) : Node → Bool
  | .word _ word => !tight && isEnclosable word
  | .function _ name _ arguments _ unclosed =>
    !unclosed &&
      match Role.ofName name with
      | .scoped keyword =>
        match arguments with
        | [.word _ word] =>
          !tight && isEnclosable word &&
            (keyword = .localScope || isLone word && next.all isSeparator)
        | _ => true
      | .steps | .plain => areSteady false arguments
      | .closed | .url => true
  | _ => true

/-- Whether all nodes of a value can be changed. -/
def areSteady (tight : Bool) : List Node → Bool
  | [] => true
  | n :: ns => isSteadyNode tight ns.head? n && areSteady (isTight n) ns

end

/-- Whether nothing in the value breaks off, all calls are closed, and all its words and
names can be changed. -/
def isSteadyValue (value : String) : Bool :=
  match Value.parse value with
  | .ok ns => (lex value).all (fun t => !t.kind.isBroken) && areSteady false ns
  | .error _ => true

/-! ### What the new tokens carry on -/

/-- The new tokens do in front of the second text what the old ones did in front of the
first. Behind a tight node they must look alike. -/
structure Carries (tight : Bool) (ts us : List Token) (y z : List Char) : Prop where
  found : Found us z
  depth : SameDepth ts us
  succeeds : Succeeds ((textOf ts).toList ++ y) ((textOf us).toList ++ z)
  yields : tight → Yields ((textOf ts).toList ++ y) ((textOf us).toList ++ z)

namespace Carries

variable {tight tight' : Bool} {run run' ts us : List Token} {y z : List Char}

theorem nil (h : Yields y z) : Carries tight [] [] y z where
  found := trivial
  depth := .refl []
  succeeds := h.succeeds
  yields := fun _ => h

/-- Tokens behind others. -/
theorem append (h : Carries tight run run' ((textOf ts).toList ++ y) ((textOf us).toList ++ z))
    (h' : Carries tight' ts us y z) : Carries tight (run ++ ts) (run' ++ us) y z where
  found := Token.found_append.mpr ⟨h.found, h'.found⟩
  depth := h.depth.append h'.depth
  succeeds := by simpa using h.succeeds
  yields := by simpa using h.yields

/-- Kept tokens of which the last is firm. -/
theorem keep_firm (h : Succeeds y z) (hlast : ∃ t ∈ run.getLast?, t.kind.isFirm)
    (hrun : Found run y) : Carries tight run run y z := by
  obtain ⟨t, ht, hfirm⟩ := hlast
  obtain ⟨front, rfl⟩ := List.getLast?_eq_some_iff.mp ht
  have hprecedes : t.Precedes y := by
    obtain ⟨-, hlast, -⟩ := Token.found_append.mp hrun
    simpa using hlast
  have hyields :
      Yields ((textOf (front ++ [t])).toList ++ y) ((textOf (front ++ [t])).toList ++ z) := by
    have hhides := (Token.hides_of_isFirm hprecedes hfirm).append_left (textOf front).toList
    simpa using (hhides y z).yields
  exact ⟨hrun.of_succeeds hfirm h, .refl _, hyields.succeeds, fun _ => hyields⟩

/-- Kept tokens in front of texts that look alike. -/
theorem keep (h : Yields y z) (hrun : Found run y) : Carries tight run run y z :=
  ⟨hrun.yields h, .refl _, (h.append _).succeeds, fun _ => h.append _⟩

/-- Tokens that are exchanged for others. -/
theorem exchange (hdepth : SameDepth run run') (hfound : Found run' z)
    (hy : ((textOf run).toList ++ y).head?.any Token.isQuote = false)
    (hz : ∀ c ∈ ((textOf run').toList ++ z).head?, Text.isSpace c = false ∧ c ≠ '*') :
    Carries false run run' y z where
  found := hfound
  depth := hdepth
  succeeds := by
    refine Token.succeeds_of_heads hy ?_ fun hstar => (hz _ hstar).2 rfl
    cases hc : ((textOf run').toList ++ z).head? with
    | none => rfl
    | some c => exact (hz c hc).1
  yields htight := by cases htight

end Carries

/-! ### The tokens of single nodes -/

section Nodes

variable {tight tight' : Bool} {next : Option Node} {n : Node} {ns ms : List Node}
  {opening first run last closing ts : List Token} {y z : List Char}

theorem isFirm_of_opensParen {t : Token} (h : t.kind.opensParen) : t.kind.isFirm := by
  cases hk : t.kind <;> rw [hk] at h <;> first | rfl | cases h

/-- A node that is kept has its own tokens, and the last of them is firm unless the node
is tight. -/
theorem Spells.exists_run (h : Spells (n :: ns) ts) (hs : isSteadyNode tight next n) :
    ∃ run rest, ts = run ++ rest ∧ Spells ns rest ∧ textOf run = n.print ∧
      (isTight n = false → ∃ t ∈ run.getLast?, t.kind.isFirm) := by
  cases h with
  | word hrun hne hquoted h =>
    have hself := (@Spells.word 0 _ _ _ _ hrun hne hquoted .nil).textOf_eq
    exact ⟨_, _, rfl, h, by simpa [Node.print] using hself, fun hloose => by cases hloose⟩
  | loose hn htext hspace hfirst hlast h => exact ⟨_, _, rfl, h, htext, fun _ => hlast⟩
  | @tight _ t ts _ hn hw htext hstop h =>
    exact ⟨[t], ts, rfl, h, by simpa using htext, fun hloose => by simp [hn] at hloose⟩
  | @call start _ _ _ _ _ unclosed opening first inside last closing ts hopening hopen hfirst
      harguments hlast hafter hclosing hclose h =>
    have hself : textOf _ = Value.print [.function start _ _ _ _ unclosed] :=
      (Spells.call hopening hopen hfirst harguments hlast hafter hclosing hclose .nil).textOf_eq
    have hclosed : unclosed = false := by
      rw [isSteadyNode, Bool.and_eq_true, Bool.not_eq_true'] at hs
      exact hs.1
    obtain ⟨t, rfl, hk⟩ := hclosing hclosed
    refine ⟨opening ++ (first ++ (inside ++ (last ++ [t]))), ts, by simp, h, by simpa using hself,
      fun _ => ⟨t, ?_, by rw [hk]; rfl⟩⟩
    simp only [← List.append_assoc]
    rw [List.getLast?_concat]
    rfl

theorem IsOpening.head?_append (h : IsOpening opening) (ts : List Token) :
    ∀ t ∈ (opening ++ ts).head?, t.kind.isQuoted = false := by
  rcases h with ⟨opener, rfl, hopens⟩ | ⟨colon, opener, rfl, hcolon, -⟩ <;> rintro _ ⟨⟩
  · cases hk : opener.kind <;> rw [hk] at hopens <;> first | rfl | cases hopens
  · rw [hcolon]
    rfl

theorem IsOpening.append_ne_nil (h : IsOpening opening) : opening ++ ts ≠ [] := by
  rcases h with ⟨opener, rfl, -⟩ | ⟨colon, opener, rfl, -⟩ <;> exact List.cons_ne_nil _ _

/-- A call of which the arguments close what they open does so, too. -/
theorem isLevel_call (ho : IsOpening opening) (hfirst : ∀ u ∈ first, u.isWhitespace)
    (hrun : IsLevel run) (hlast : ∀ u ∈ last, u.isWhitespace) {t : Token}
    (ht : t.kind = .rightParen) :
    IsLevel (opening ++ (first ++ (run ++ (last ++ [t])))) := by
  have hblank {us : List Token} (hus : ∀ u ∈ us, u.isWhitespace) : IsLevel us := by
    induction us with
    | nil => exact .nil
    | cons u us ih =>
      refine .cons (fun b d => ?_) (ih fun v hv => hus v (List.mem_cons_of_mem u hv))
      rw [show u.kind = .whitespace from of_decide_eq_true (hus u List.mem_cons_self)]
      rfl
  have hinside := (hblank hfirst).append (hrun.append (hblank hlast))
  have hmid : first ++ (run ++ (last ++ [t])) = first ++ (run ++ last) ++ [t] := by simp
  rw [hmid]
  rcases ho with ⟨opener, rfl, hopens⟩ | ⟨colon, opener, rfl, hcolon, hopener⟩
  · exact hinside.enclosed hopens ht
  · refine .cons (fun b d => ?_) (hinside.enclosed (by rw [hopener]; rfl) ht)
    rw [hcolon]
    rfl

theorem isLevel_word {word : String} (h : isEnclosable word)
    (hrun : Token.bareLex word.toList = run.map (Token.relocate fun _ => 0)) : IsLevel run := by
  refine Sheet.isLevel_of_check ?_
  rw [← (isEnclosable_iff.mp h).2]
  refine Sheet.isLevel_of_map_kind ?_
  have hkinds := congrArg (List.map (·.kind)) hrun
  rw [Token.bareLex, List.map_map, List.map_map] at hkinds
  exact hkinds.symm

/-- What is no string does not start with a quote. -/
theorem head?_of_isQuoted_eq_false (hrun : Found run y) (hne : run ≠ [])
    (hquoted : ∀ t ∈ run.head?, t.kind.isQuoted = false) :
    ((textOf run).toList ++ y).head?.any Token.isQuote = false := by
  cases run with
  | nil => exact absurd rfl hne
  | cons t run =>
    obtain ⟨c, w, htext, hscan⟩ := hrun.1
    rw [Token.textOf_cons, String.toList_append, htext]
    by_contra hquote
    have hkind := Token.isQuoted_scan (c := c) (by simpa using hquote)
      (w ++ ((textOf run).toList ++ y))
    rw [hscan, hquoted t rfl] at hkind
    cases hkind

/-- Behind a name that loses its call stands what does not go on with it. -/
theorem isApart_of_isSeparator (h : Edits ns ms) (hts : Spells ns ts) (hy : Found ts y)
    (hloose : ns.head?.all isSeparator) (hz : isApart z) :
    isApart ((Value.print ms).toList ++ z) := by
  cases h with
  | nil => simpa using hz
  | keep n h =>
    have hn : isSeparator n := hloose
    cases hts with
    | word => cases hn
    | tight htight => cases n <;> cases hn <;> cases htight
    | call => cases hn
    | @loose _ run ts _ _ htext hspace hfirst hlast hts =>
      obtain ⟨t, ht, hk⟩ := hfirst
      obtain ⟨run, rfl⟩ := List.head?_eq_some_iff.mp ht
      obtain ⟨c, w, hc, hname⟩ := hy.1.exists_of_isLoose hk
      rw [Value.print_cons, ← htext, Token.textOf_cons, String.toList_append, String.toList_append,
        hc]
      refine Token.isApart_iff.mpr fun d hd => ?_
      rw [← Option.some.inj hd]
      exact hname
  | mark => cases hloose
  | unwrap => cases hloose
  | enter => cases hloose

theorem head_wrapLocal (word : String) (z : List Char) :
    ∀ c ∈ ((wrapLocal word).toList ++ z).head?, Text.isSpace c = false ∧ c ≠ '*' := by
  intro c hc
  obtain ⟨w, hw⟩ := exists_toList_wrapLocal word
  rw [hw] at hc
  obtain rfl : ':' = c := Option.some.inj hc
  decide

theorem head_of_isLone {word : String} (h : isLone word) :
    ∀ c ∈ (word.toList ++ z).head?, Text.isSpace c = false ∧ c ≠ '*' := by
  have hstarts := ((Bool.and_eq_true _ _).mp h).1
  cases hword : word.toList with
  | nil =>
    rw [hword] at hstarts
    cases hstarts
  | cons c cs =>
    rintro _ ⟨⟩
    rw [hword] at hstarts
    constructor
    · by_contra hspace
      rw [Bool.not_eq_false] at hspace
      have hne {d : Char} (hd : Text.isSpace d = false) : c ≠ d := by
        rintro rfl
        rw [hspace] at hd
        cases hd
      have hname := isName_of_isSpace hspace
      simp only [Text.isName, Bool.or_eq_false_iff] at hname
      rw [startsName, if_neg (hne (by decide)), if_neg (hne (by decide)), hname.1.1] at hstarts
      cases hstarts
    · rintro rfl
      cases hstarts

/-- A name that takes no white space is found in front of what does not go on with it. -/
theorem precedes_of_isLone {word : String} (h : isLone word) (o : Nat) (hz : isApart z) :
    (⟨.ident, word, o⟩ : Token).Precedes z := by
  obtain ⟨hstarts, hclosed⟩ := (Bool.and_eq_true _ _).mp h
  have hname : Token.IsName word.toList :=
    ⟨hstarts, by simpa using Token.nameLength_of_isClosedName (z := []) hclosed rfl⟩
  exact (Token.Precedes.of_isName hname o []).of_endsName hclosed hz

/-- A name can stand right behind the start of a call. -/
theorem isFirm_getLast?_opening (ho : IsOpening opening) (hfirst : ∀ u ∈ first, u.isWhitespace) :
    ∃ t ∈ (opening ++ first).getLast?, t.kind.isFirm := by
  rcases List.eq_nil_or_concat first with rfl | ⟨front, last, rfl⟩
  · rw [List.append_nil]
    rcases ho with ⟨opener, rfl, hopens⟩ | ⟨colon, opener, rfl, -, hopener⟩
    · exact ⟨opener, rfl, isFirm_of_opensParen hopens⟩
    · exact ⟨opener, rfl, by rw [hopener]; rfl⟩
  · refine ⟨last, ?_, ?_⟩
    · rw [List.concat_eq_append, ← List.append_assoc, List.getLast?_concat]
      rfl
    · rw [show last.kind = .whitespace from of_decide_eq_true (hfirst last (by simp))]
      rfl

/-- Behind the arguments of a call stands white space or its parenthesis. -/
theorem isApart_closing {t : Token} {us : List Token} (hlast : ∀ u ∈ last, u.isWhitespace)
    (ht : t.kind = .rightParen) (hfound : Found last y) (hspelled : t.IsSpelled) :
    isApart ((textOf (last ++ ([t] ++ us))).toList ++ z) := by
  cases last with
  | nil =>
    rw [List.nil_append, List.singleton_append, Token.textOf_cons,
      hspelled.text_eq (c := ')') (by rw [ht]; rfl)]
    simp [isApart, Text.isName, Text.isNameStart, Text.isLetter, Text.isAscii, Text.isDigit]
  | cons u last =>
    have hloose : u.kind.isLoose := by
      rw [show u.kind = .whitespace from of_decide_eq_true (hlast u List.mem_cons_self)]
      rfl
    obtain ⟨c, w, hc, hname⟩ := hfound.1.exists_of_isLoose hloose
    rw [List.cons_append, Token.textOf_cons, String.toList_append, hc]
    refine Token.isApart_iff.mpr fun d hd => ?_
    rw [← Option.some.inj hd]
    exact hname

theorem areSteady_of_enters {start : Nat} {name before after : String} {arguments : List Node}
    {unclosed : Bool} (hrole : Role.enters name)
    (h : isSteadyNode tight next (.function start name before arguments after unclosed)) :
    unclosed = false ∧ areSteady false arguments := by
  rw [isSteadyNode, Bool.and_eq_true, Bool.not_eq_true'] at h
  refine ⟨h.1, ?_⟩
  have hinside := h.2
  unfold Role.enters at hrole
  split at hrole
  next hk => rwa [hk] at hinside
  next hk => rwa [hk] at hinside
  next => cases hrole

/-- A word with a mark, or without its call, carries on what stood in its place. In front
of other text a word without its call is a name of its own. -/
theorem exists_carries_scopedWord {keyword : Keyword} {word : String} (hword : isEnclosable word)
    (hlevel : IsLevel run) (hquote : ((textOf run).toList ++ y).head?.any Token.isQuote = false)
    (hlone : keyword = .globalScope → isLone word ∧ isApart z) :
    ∃ us, textOf us = scopedWord keyword word ∧ Carries false run us y z := by
  cases keyword with
  | localScope =>
    obtain ⟨marked, htext, hlevel', hmarked⟩ := found_wrapLocal hword
    refine ⟨_, htext, .exchange (hlevel.sameDepth hlevel') (hmarked z) hquote ?_⟩
    rw [htext]
    exact head_wrapLocal word z
  | globalScope =>
    obtain ⟨hname, hz⟩ := hlone rfl
    have hlevel' : IsLevel [⟨.ident, word, 0⟩] := .cons (fun _ _ => rfl) .nil
    have htext : textOf [⟨.ident, word, 0⟩] = word := by simp
    refine ⟨_, htext, .exchange (hlevel.sameDepth hlevel')
      (And.intro (precedes_of_isLone hname 0 (by simpa using hz)) trivial) hquote ?_⟩
    rw [htext]
    exact head_of_isLone hname

/-- A call carries on what it did when its arguments do. -/
theorem exists_carries_call {t : Token} {inside us : List Token} {new : String}
    (ho : IsOpening opening) (hfirst : ∀ u ∈ first, u.isWhitespace)
    (hlast : ∀ u ∈ last, u.isWhitespace) (ht : t.kind = .rightParen)
    (hy : Found (opening ++ (first ++ (inside ++ (last ++ ([t] ++ ts))))) y)
    (hbehind : Carries tight' ts us y z)
    (hinside : ∀ {y z : List Char}, Found inside y → Yields y z → isApart z →
      ∃ vs, textOf vs = new ∧ Carries false inside vs y z) :
    ∃ vs, textOf vs = new ∧
      Carries tight (opening ++ (first ++ (inside ++ (last ++ ([t] ++ ts)))))
        (opening ++ (first ++ (vs ++ (last ++ ([t] ++ us))))) y z := by
  have hparen : t.kind.isFirm := by rw [ht]; rfl
  rw [← List.append_assoc] at hy
  obtain ⟨hfoundOpening, hy⟩ := Token.found_append.mp hy
  obtain ⟨hfoundInside, hy⟩ := Token.found_append.mp hy
  obtain ⟨hfoundLast, hy⟩ := Token.found_append.mp hy
  obtain ⟨hfoundClosing, hy⟩ := Token.found_append.mp hy
  -- from the end of the call to its start
  have hclosing : Carries true ([t] ++ ts) ([t] ++ us) y z :=
    (Carries.keep_firm hbehind.succeeds ⟨t, rfl, hparen⟩ hfoundClosing).append hbehind
  have hblank : Carries true (last ++ ([t] ++ ts)) (last ++ ([t] ++ us)) y z :=
    (Carries.keep (hclosing.yields rfl) hfoundLast).append hclosing
  obtain ⟨vs, htext, harguments⟩ := hinside hfoundInside (hblank.yields rfl)
    (isApart_closing hlast ht hfoundLast hfoundClosing.1.isSpelled)
  have hall := harguments.append hblank
  refine ⟨vs, htext, ?_⟩
  rw [← List.append_assoc, ← List.append_assoc opening first (vs ++ _)]
  exact (Carries.keep_firm hall.succeeds (isFirm_getLast?_opening ho hfirst) hfoundOpening).append
    hall

end Nodes

/-- **The tokens of a value that is changed carry on** what its tokens did, if all of it
can be changed. -/
theorem exists_carries_of_edits {ns ms : List Node} (h : Edits ns ms) {tight : Bool}
    {ts : List Token} {y z : List Char} (hts : Spells ns ts) (hsteady : areSteady tight ns)
    (hy : Found ts y) (hyz : Yields y z) (hz : isApart z) :
    ∃ us, textOf us = Value.print ms ∧ Carries tight ts us y z := by
  induction h generalizing tight ts y z with
  | nil =>
    cases hts
    exact ⟨[], rfl, .nil hyz⟩
  | @keep ns ms n h ih =>
    rw [areSteady, Bool.and_eq_true] at hsteady
    obtain ⟨run, rest, rfl, hrest, htext, hfirm⟩ := hts.exists_run hsteady.1
    obtain ⟨hrun, hfound⟩ := Token.found_append.mp hy
    obtain ⟨us, hus, hcarries⟩ := ih hrest hsteady.2 hfound hyz hz
    refine ⟨run ++ us, by rw [Token.textOf_append, htext, hus, Value.print_cons], ?_⟩
    cases htight : isTight n with
    | true => exact (Carries.keep (hcarries.yields htight) hrun).append hcarries
    | false => exact (Carries.keep_firm hcarries.succeeds (hfirm htight) hrun).append hcarries
  | @mark ns ms start word h ih =>
    rw [areSteady, Bool.and_eq_true, isSteadyNode, Bool.and_eq_true, Bool.not_eq_true'] at hsteady
    obtain ⟨⟨rfl, hword⟩, hsteady⟩ := hsteady
    cases hts with
    | tight _ hw => cases hw
    | loose hn => cases hn
    | @word _ _ run ts _ hrun hne hquoted hts =>
      obtain ⟨hfoundRun, hfound⟩ := Token.found_append.mp hy
      obtain ⟨us, hus, hcarries⟩ := ih hts hsteady hfound hyz hz
      obtain ⟨marked, htext, hmarked⟩ := @exists_carries_scopedWord run _ ((textOf us).toList ++ z)
        .localScope word hword (isLevel_word hword hrun)
        (head?_of_isQuoted_eq_false hfoundRun hne hquoted) fun hk => by cases hk
      refine ⟨marked ++ us, ?_, hmarked.append hcarries⟩
      rw [Token.textOf_append, htext, hus, Value.print_cons, Node.print, scopedWord]
  | @unwrap ns ms keyword start start' name before word after unclosed hrole h ih =>
    rw [areSteady, Bool.and_eq_true, isSteadyNode, hrole] at hsteady
    obtain ⟨hnode, hsteady⟩ := hsteady
    simp only [Bool.and_eq_true, Bool.not_eq_true'] at hnode
    obtain ⟨hclosed, ⟨rfl, hword⟩, hlone⟩ := hnode
    cases hts with
    | loose hn => cases hn
    | tight hn => simp [isTight, hrole] at hn
    | @call _ _ _ _ _ _ _ opening first inside last closing ts hopening hopen hfirst harguments
        hlast hafter hclosing hclose hts =>
      cases harguments with
      | loose hn => cases hn
      | tight _ hw => cases hw
      | @word _ _ run _ _ hrun hne hquoted hnil =>
        cases hnil
        obtain ⟨t, rfl, ht⟩ := hclosing hclosed
        have hall : opening ++ (first ++ (run ++ [] ++ (last ++ ([t] ++ ts)))) =
            (opening ++ (first ++ (run ++ (last ++ [t])))) ++ ts := by simp
        rw [hall] at hy ⊢
        obtain ⟨hcall, hfound⟩ := Token.found_append.mp hy
        obtain ⟨us, hus, hcarries⟩ := ih hts hsteady hfound hyz hz
        have hname (hk : keyword = .globalScope) :
            isLone word ∧ isApart ((textOf us).toList ++ z) := by
          have hboth : isLone word ∧ ns.head?.all isSeparator := by simpa [hk] using hlone
          rw [hus]
          exact ⟨hboth.1, isApart_of_isSeparator h hts hfound hboth.2 hz⟩
        obtain ⟨marked, htext, hmarked⟩ := exists_carries_scopedWord hword
          (isLevel_call hopening hfirst (isLevel_word hword hrun) hlast ht)
          (head?_of_isQuoted_eq_false hcall hopening.append_ne_nil (hopening.head?_append _)) hname
        refine ⟨marked ++ us, ?_, hmarked.append hcarries⟩
        rw [Token.textOf_append, htext, hus, Value.print_cons, Node.print]
  | @enter ns ms arguments arguments' start name before after unclosed hrole harguments h ih ih' =>
    rw [areSteady, Bool.and_eq_true] at hsteady
    obtain ⟨hnode, hsteady⟩ := hsteady
    obtain ⟨hclosed, hinside⟩ := areSteady_of_enters hrole hnode
    cases hts with
    | loose hn => cases hn
    | tight hn =>
      rw [isTight, decide_eq_true_eq] at hn
      rw [Role.enters, hn] at hrole
      cases hrole
    | @call _ _ _ _ _ _ _ opening first inside last closing ts hopening hopen hfirst hspells
        hlast hafter hclosing hclose hts =>
      obtain ⟨t, rfl, ht⟩ := hclosing hclosed
      have hfound : Found ts y := by
        simp only [Token.found_append] at hy
        exact hy.2.2.2.2.2
      obtain ⟨us, hus, hbehind⟩ := ih' hts hsteady hfound hyz hz
      obtain ⟨vs, hvs, hcarries⟩ := exists_carries_call hopening hfirst hlast ht hy hbehind
        fun hy hyz hz => ih hspells hinside hy hyz hz
      refine ⟨_, ?_, hcarries⟩
      have hparen : textOf [t] = ")" := by rw [hclose, hclosed]; rfl
      simp only [Token.textOf_append, hvs, hafter, hparen, hus, Value.print_cons, Node.print,
        hclosed]
      rw [← String.append_assoc, hopen]
      simp only [String.append_assoc, Bool.false_eq_true, if_false]

theorem isSteadyValue_iff {value : String} {ns : List Node} (h : Value.parse value = .ok ns) :
    isSteadyValue value ↔ (∀ t ∈ lex value, t.kind.isBroken = false) ∧ areSteady false ns := by
  rw [isSteadyValue, h]
  simp

/-- The nodes of a steady value have all its tokens. -/
theorem spells_of_parse {value : String} {ns : List Node} (h : Value.parse value = .ok ns)
    (hs : isSteadyValue value) : Spells ns (lex value) ∧ areSteady false ns := by
  obtain ⟨hbroken, hsteady⟩ := (isSteadyValue_iff h).mp hs
  cases hnodes : Value.parseNodes nestingLimit 0 false (lex value) with
  | error e =>
    rw [Value.parse, Value.parseWithin, hnodes] at h
    cases h
  | ok nodes =>
    rw [Value.parse, Value.parseWithin, hnodes] at h
    obtain rfl := Except.ok.inj h
    obtain ⟨-, -, hrest⟩ := Value.reads_parseNodes hnodes fun t ht => Token.isSpelled_of_mem_lex ht
    obtain ⟨us, hus, hspells⟩ := spells_parseNodes hnodes rfl hbroken
    rw [hrest rfl, List.append_nil] at hus
    exact ⟨hus ▸ hspells, hsteady⟩

end Scope
end StyleScope
