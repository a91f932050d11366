/-
# Scoping two sheets in a row

Where the first of two texts ends in a block, the two can be scoped one by one.
Three things make this so. The tokens of both are the tokens of the first and
then those of the second, since no token reaches past the brace
(`Token.lexFrom_append`). The items of the first are read without looking past
that brace, so the items of both are those of the first and then those of the
second (`parse_append`). And both passes of scoping carry nothing from one
top-level node to the next, except for imported names (`process_append`).

Key theorems: `Sheet.parse_append`, `Scope.process_append`,
`Scope.transform_append`.
-/
import StyleScope.Proofs.Offsets
import StyleScope.Proofs.Seam

namespace StyleScope

/-! ### Reading -/

namespace Sheet

theorem endsClosed_of_reads {ts rest : List Token} {text : String}
    (h : Token.Reads ts text rest) (hr : Token.EndsClosed rest) : Token.EndsClosed ts := by
  obtain ⟨taken, rfl, -⟩ := h
  exact hr.append_left taken

theorem last_of_cons {p : Node → Prop} {node : Node} {nodes : List Node}
    (hl : ∃ n ∈ (node :: nodes).getLast?, p n) :
    (∃ n ∈ nodes.getLast?, p n) ∨ nodes = [] ∧ p node := by
  obtain ⟨n, hn, hp⟩ := hl
  cases nodes with
  | nil =>
    obtain rfl := Option.some.inj hn
    exact .inr ⟨rfl, hp⟩
  | cons m ms => exact .inl ⟨n, by rwa [List.getLast?_cons_cons] at hn, hp⟩

/-- The tokens of items of which the last has a block end in the brace that
closes it. -/
theorem Parsed.endsClosed {limit depth : Nat} {ts : List Token} {items : Items ts.length}
    (h : Parsed limit depth ts items) (hr : items.rest = []) (ha : items.after = "")
    (hl : ∃ n ∈ items.nodes.getLast?, n.hasBlock)
    (hs : ∀ t ∈ ts, t.IsSpelled ∧ t.text ≠ "") : Token.EndsClosed ts := by
  induction h with
  | finish =>
    obtain ⟨n, hn, -⟩ := hl
    cases hn
  | close => cases hr
  | @done depth ts rest rest' t node items hlt ht hk hi hp hle ih =>
    have hread := reads_of_done (fun v hv => (hs v hv).1) ht hi
    rcases last_of_cons hl with hl | ⟨-, hblock⟩
    · exact endsClosed_of_reads hread (ih hr ha hl (forall_mem_of_reads hread hs))
    · rw [hasBlock_of_itemCut (itemCut_of_readItem hi)] at hblock
      cases hblock
  | @block depth ts rest body rest' t brace u head block items hlt ht hk hi hd hb hr' hp hle
      ihb ih =>
    have hread := reads_of_opened (fun v hv => (hs v hv).1) ht hi
    obtain ⟨hbody, hstop⟩ := hb.reads fun v hv => (forall_mem_of_reads hread hs v hv).1
    rw [hr'] at hbody hstop
    have hread := hread.trans hbody
    refine endsClosed_of_reads hread ?_
    have hs := forall_mem_of_reads (hread.trans (Token.Reads.head u rest')) hs
    rcases last_of_cons hl with hl | ⟨hnil, -⟩
    · exact (ih hr ha hl hs).append_left [u]
    · -- behind the brace there is nothing
      have hrest : rest' = [] := by
        have hreads := (hp.reads fun v hv => (hs v hv).1).1
        have hnil' : items.nodes = [] := hnil
        have hafter : items.after = "" := ha
        have hend : items.rest = [] := hr
        rw [hnil', hafter, hend] at hreads
        exact eq_nil_of_textOf hreads.eq_textOf.symm fun v hv => (hs v hv).2
      subst hrest
      exact ⟨u, rfl, by rw [Token.stopsAt_cons.mp hstop]; rfl⟩

/-- **Two texts in a row, the first of which ends in a block, are read one by one.** -/
theorem parse_append {a b : String} {s : Sheet} (h : (parse a).result = .ok s)
    (hl : ∃ n ∈ s.nodes.getLast?, n.hasBlock) (ha : s.after = "") (u : Sheet) :
    (parse (a ++ b)).result = .ok u ↔
      ∃ t, (parse b).result = .ok t ∧
        u = ⟨s.nodes ++ relocateNodes (· + a.utf8ByteSize) t.nodes, t.after⟩ := by
  obtain ⟨items, hitems, heq⟩ := parse_eq_ok.mp h
  obtain ⟨hnodes, hafter, hrest⟩ := Listing.mk.inj heq
  have hparsed := parsed_of_parseItems hitems
  have hs : ∀ t ∈ Token.lex a, t.IsSpelled ∧ t.text ≠ "" := fun t ht =>
    ⟨Token.isSpelled_of_mem_lex ht, Token.text_ne_empty_of_mem_lexFrom ht⟩
  rw [← hnodes] at hl
  rw [ha] at hafter
  have hclosed := hparsed.endsClosed hrest hafter hl hs
  have hends : ∀ n ∈ items.nodes.getLast?, n.endsItself := by
    intro n hn
    obtain ⟨n', hn', hblock⟩ := hl
    rw [← Option.some.inj (hn'.symm.trans hn)]
    exact Node.endsItself_of_hasBlock hblock
  have hlex : Token.lex (a ++ b) =
      Token.lex a ++ (Token.lex b).map (Token.relocate (· + a.utf8ByteSize)) := by
    rw [Token.lex, String.toList_append, Token.lexFrom_append hclosed, String.ofList_toList,
      Token.lexFrom_add]
    rfl
  rw [parse_eq_ok_iff, hlex, hparsed.listing_append hrest hafter hends hs,
    listing_relocate (g := (· - a.utf8ByteSize)) fun n => Nat.add_sub_cancel n a.utf8ByteSize,
    hnodes]
  simp only [parse_eq_ok_iff, Option.map_map, Option.map_eq_some_iff]
  constructor
  · rintro ⟨⟨nodes, after, rest⟩, hb, hu⟩
    obtain ⟨hnodes, hafter, hrest⟩ := Listing.mk.inj hu
    obtain rfl := List.map_eq_nil_iff.mp hrest
    exact ⟨⟨nodes, after⟩, hb, congrArg₂ Sheet.mk hnodes.symm hafter.symm⟩
  · rintro ⟨t, hb, rfl⟩
    exact ⟨_, hb, rfl⟩

end Sheet

/-! ### Scoping -/

namespace Scope

open Sheet (Node)

/-- Whether a node is an import. -/
def isImportRule : Node → Bool
  | .rule head _ _ => isImport head.selector
  | _ => false

theorem importedNames_eq_nil {ns : List Node} (h : ∀ n ∈ ns, isImportRule n = false) :
    importedNames ns = [] := by
  induction ns with
  | nil => rfl
  | cons n ns ih =>
    have htail := ih fun m hm => h m (List.mem_cons_of_mem n hm)
    cases n with
    | rule head body after =>
      have hhead := h (.rule head body after) List.mem_cons_self
      rw [isImportRule] at hhead
      rw [importedNames, hhead, htail]
      rfl
    | _ => exact htail

theorem mapM_append_eq_ok {α β : Type} {f : α → Traced Error β} {as bs : List α} {cs : List β} :
    ((as ++ bs).mapM f).result = .ok cs ↔
      ∃ xs ys, (as.mapM f).result = .ok xs ∧ (bs.mapM f).result = .ok ys ∧ cs = xs ++ ys := by
  simp only [List.mapM_append, Traced.bind_eq_ok, Traced.result_pure, Except.ok.injEq]
  constructor
  · rintro ⟨xs, hxs, ys, hys, rfl⟩
    exact ⟨xs, ys, hxs, hys, rfl⟩
  · rintro ⟨xs, ys, hxs, hys, rfl⟩
    exact ⟨xs, hxs, ys, hys, rfl⟩

/-- A sheet without imports is scoped if its nodes are, in both passes. -/
theorem process_eq_ok {options : Options} {s out : Sheet}
    (h : ∀ n ∈ s.nodes, isImportRule n = false) :
    (process options s).result = .ok out ↔
      ∃ ns ms, (s.nodes.mapM (atRuleNode ⟨options, []⟩)).result = .ok ns ∧
        (ns.mapM (ruleNode ⟨options, []⟩ false false)).result = .ok ms ∧
        out = ⟨ms, s.after⟩ := by
  rw [process_eq_ok_iff, importedNames_eq_nil h]

/-- **Without imports, the nodes of a sheet are scoped one by one.** -/
theorem process_append {options : Options} {ns ms : List Node} {after : String}
    (hns : ∀ n ∈ ns, isImportRule n = false) (hms : ∀ n ∈ ms, isImportRule n = false)
    (out : Sheet) :
    (process options ⟨ns ++ ms, after⟩).result = .ok out ↔
      ∃ xs ys, (process options ⟨ns, ""⟩).result = .ok ⟨xs, ""⟩ ∧
        (process options ⟨ms, after⟩).result = .ok ⟨ys, after⟩ ∧ out = ⟨xs ++ ys, after⟩ := by
  have hall : ∀ n ∈ ns ++ ms, isImportRule n = false := by
    intro n hn
    exact (List.mem_append.mp hn).elim (hns n) (hms n)
  rw [process_eq_ok hall]
  constructor
  · rintro ⟨_, _, hat, hrule, rfl⟩
    obtain ⟨us, vs, hus, hvs, rfl⟩ := mapM_append_eq_ok.mp hat
    obtain ⟨xs, ys, hxs, hys, rfl⟩ := mapM_append_eq_ok.mp hrule
    exact ⟨xs, ys, (process_eq_ok hns).mpr ⟨us, xs, hus, hxs, rfl⟩,
      (process_eq_ok hms).mpr ⟨vs, ys, hvs, hys, rfl⟩, rfl⟩
  · rintro ⟨xs, ys, hx, hy, rfl⟩
    obtain ⟨us, _, hus, hxs, hx⟩ := (process_eq_ok hns).mp hx
    obtain ⟨vs, _, hvs, hys, hy⟩ := (process_eq_ok hms).mp hy
    cases hx
    cases hy
    exact ⟨_, _, mapM_append_eq_ok.mpr ⟨us, vs, hus, hvs, rfl⟩,
      mapM_append_eq_ok.mpr ⟨xs, ys, hxs, hys, rfl⟩, rfl⟩

theorem isImportRule_relocate (f : Nat → Nat) (n : Node) :
    isImportRule (n.relocate f) = isImportRule n := by
  cases n <;> simp only [Node.relocate, isImportRule]

/-- Where a sheet stands has no influence on whether it is scoped. -/
theorem process_relocate_eq_ok (f : Nat → Nat) {options : Options} {s out : Sheet} :
    (process options (s.relocate f)).result = .ok out ↔
      ∃ out', (process options s).result = .ok out' ∧ out = out'.relocate f := by
  rw [process_relocate, map_eq_pure_bind, Traced.bind_eq_ok]
  simp [eq_comm]

/-- **Scoping is compositional.** -/
theorem transform_append {options : Options} {a b : String} {s : Sheet}
    (h : (Sheet.parse a).result = .ok s) (hl : ∃ n ∈ s.nodes.getLast?, n.hasBlock)
    (ha : s.after = "") (his : ∀ n ∈ s.nodes, isImportRule n = false)
    (hit : ∀ t, (Sheet.parse b).result = .ok t → ∀ n ∈ t.nodes, isImportRule n = false)
    (css : String) :
    (transform options (a ++ b)).result = .ok css ↔
      ∃ x y, (transform options a).result = .ok x ∧ (transform options b).result = .ok y ∧
        css = x ++ y := by
  obtain ⟨ns, after⟩ := s
  obtain rfl : after = "" := ha
  -- `b` stands behind `a`, which moves its nodes
  have hmove : ∀ t, (Sheet.parse b).result = .ok t →
      ∀ n ∈ Sheet.relocateNodes (· + a.utf8ByteSize) t.nodes, isImportRule n = false := by
    intro t ht n hn
    rw [Sheet.relocateNodes_eq_map] at hn
    obtain ⟨m, hm, rfl⟩ := List.mem_map.mp hn
    rw [isImportRule_relocate]
    exact hit t ht m hm
  have hprint : ∀ (xs : List Node) (out : Sheet),
      Sheet.print ⟨xs ++ (out.relocate (· + a.utf8ByteSize)).nodes, out.after⟩ =
        Sheet.print ⟨xs, ""⟩ ++ out.print := by
    intro xs out
    rw [← Sheet.print_relocate (· + a.utf8ByteSize) out]
    simp [Sheet.print, Sheet.relocate, String.append_assoc]
  constructor
  · intro hcss
    obtain ⟨u, out, hu, hout, rfl⟩ := transform_eq_ok.mp hcss
    obtain ⟨t, ht, rfl⟩ := (Sheet.parse_append h hl rfl u).mp hu
    obtain ⟨xs, ys, hxs, hys, rfl⟩ := (process_append his (hmove t ht) out).mp hout
    obtain ⟨out, hout, heq⟩ := (process_relocate_eq_ok _).mp hys
    refine ⟨_, _, transform_eq_ok.mpr ⟨_, _, h, hxs, rfl⟩,
      transform_eq_ok.mpr ⟨t, out, ht, hout, rfl⟩, ?_⟩
    obtain ⟨rfl, hafter⟩ := Sheet.mk.inj heq
    rw [hafter]
    exact hprint xs out
  · rintro ⟨_, _, hx, hy, rfl⟩
    obtain ⟨s, out, hs, hout, rfl⟩ := transform_eq_ok.mp hx
    obtain ⟨t, out', ht, hout', rfl⟩ := transform_eq_ok.mp hy
    obtain rfl := Except.ok.inj (h.symm.trans hs)
    obtain ⟨-, xs, -, -, rfl⟩ := (process_eq_ok his).mp hout
    obtain ⟨-, ys, -, -, rfl⟩ := (process_eq_ok (hit t ht)).mp hout'
    have hmoved := (process_relocate_eq_ok (· + a.utf8ByteSize)).mpr ⟨_, hout', rfl⟩
    exact transform_eq_ok.mpr ⟨_, _, (Sheet.parse_append h hl rfl _).mpr ⟨t, ht, rfl⟩,
      (process_append his (hmove t ht) _).mpr ⟨xs, _, hout, hmoved, rfl⟩, (hprint xs _).symm⟩

/-- The second sheet starts with what could go on with a name, and its last item
is cut off. -/
theorem transform_append_cut_off :
    ∃ x y,
      (transform ⟨.localByDefault, some fun _ url => "p" ++ url⟩
        "@keyframes k\x7bto\x7ba:url(u)\x7d\x7d").result = .ok x ∧
      (transform ⟨.localByDefault, some fun _ url => "p" ++ url⟩
        "-b:global(.c)\x7banimation:k\x7d@import d").result = .ok y ∧
      (transform ⟨.localByDefault, some fun _ url => "p" ++ url⟩
        ("@keyframes k\x7bto\x7ba:url(u)\x7d\x7d" ++
          "-b:global(.c)\x7banimation:k\x7d@import d")).result = .ok (x ++ y) := by
  have hok :
      (match (Sheet.parse "@keyframes k\x7bto\x7ba:url(u)\x7d\x7d").result,
        (Sheet.parse "-b:global(.c)\x7banimation:k\x7d@import d").result with
      | .ok s, .ok t =>
        s.nodes.getLast?.any (·.hasBlock) && s.after = "" &&
          s.nodes.all (fun n => !isImportRule n) && t.nodes.all (fun n => !isImportRule n)
      | _, _ => false) = true := by
    decide +kernel
  obtain ⟨x, hx, -⟩ := exists_ok_of_isOk (p := fun _ => True) (x :=
    (transform ⟨.localByDefault, some fun _ url => "p" ++ url⟩
      "@keyframes k\x7bto\x7ba:url(u)\x7d\x7d").result) (by decide +kernel) fun _ _ => trivial
  obtain ⟨y, hy, -⟩ := exists_ok_of_isOk (p := fun _ => True) (x :=
    (transform ⟨.localByDefault, some fun _ url => "p" ++ url⟩
      "-b:global(.c)\x7banimation:k\x7d@import d").result) (by decide +kernel) fun _ _ => trivial
  split at hok
  next s t hs ht =>
    simp only [Bool.and_eq_true, Option.any_eq_true, decide_eq_true_eq, List.all_eq_true,
      Bool.not_eq_true'] at hok
    obtain ⟨⟨⟨⟨n, hn, hblock⟩, hafter⟩, his⟩, hit⟩ := hok
    refine ⟨x, y, hx, hy, (transform_append hs ⟨n, hn, hblock⟩ hafter his ?_ _).mpr
      ⟨x, y, hx, hy, rfl⟩⟩
    intro t' ht'
    obtain rfl := Except.ok.inj (ht.symm.trans ht')
    exact hit
  next => cases hok

end Scope
end StyleScope
