/-
# Arenas that are trees

Nothing in an arena keeps an entry from being named twice, from naming itself or
from having children of the wrong kind, and printing, copying and resolving would
go wrong or go on forever. The arena that a selector list is read into is a tree:
every entry but the root is the child of one entry, which comes before it. The
arena that it is resolved into need not be one, since nodes that were dropped
stay in it; but what is reached from its root is a tree. In both, the kinds of
nodes are those of a selector list: lists hold alternatives, and alternatives
hold neither.

Key definitions: `Selector.Arena.Entry.KeepsKinds`, `Selector.Arena.IsTree`,
`Selector.Arena.IsTreeBelow`.
Key theorems: `Selector.Arena.isTree_of_holds`, `Selector.Arena.isTreeBelow_of_holds`,
`Scope.isTree_of_parse`.
-/
import StyleScope.Proofs.ArenaReader
import StyleScope.Proofs.ArenaResolver
import StyleScope.Proofs.Idempotence

namespace StyleScope
namespace Selector

theorem Tree.IsSimple.kind_ne {t : Tree} (h : t.IsSimple) :
    t.kind ≠ .root ∧ t.kind ≠ .selector := by
  cases h with
  | @leaf kind spaces start hk =>
    refine ⟨?_, ?_⟩
    all_goals
      rintro rfl
      cases hk
  | call name => exact ⟨nofun, nofun⟩

namespace Arena

/-! ### Kinds -/

def kind? (a : Arena) (id : Nat) : Option Kind :=
  (a.get? id).map Entry.kind

/-- The entry has children of the kinds that a node of its kind has. -/
def Entry.KeepsKinds (a : Arena) (e : Entry) : Prop :=
  match e.kind with
  | .root | .pseudo _ true => e.children ≠ [] ∧ ∀ c ∈ e.children, a.kind? c = some .selector
  | .selector => ∀ c ∈ e.children, ∃ k, a.kind? c = some k ∧ k ≠ .root ∧ k ≠ .selector
  | _ => e.children = []

section Kinds

variable {a : Arena}

theorem kind?_of_holds {id : Nat} {t : Tree} {ids : List Nat} (h : a.Holds id t ids) :
    a.kind? id = some t.kind := by
  obtain ⟨children, more, he, -, -⟩ := h.exists_entry
  rw [kind?, he]
  rfl

theorem HoldsEach.exists_of_mem_roots {roots : List Nat} {ts : List Tree} {ids : List Nat} {c : Nat}
    (h : a.HoldsEach roots ts ids) (hc : c ∈ roots) : ∃ t ∈ ts, ∃ more, a.Holds c t more := by
  obtain ⟨k, hk⟩ := List.getElem?_of_mem hc
  obtain ⟨t, more, ht, hholds⟩ := h.exists_of_getElem? hk
  exact ⟨t, List.mem_of_getElem? ht, more, hholds⟩

/-- What holds of the entries of each tree holds of the entries of all. -/
theorem HoldsEach.forall_mem {Q : Nat → Prop} {roots : List Nat} {ts : List Tree} {ids : List Nat}
    (h : a.HoldsEach roots ts ids)
    (hQ : ∀ t ∈ ts, ∀ {id : Nat} {more : List Nat}, a.Holds id t more → ∀ i ∈ more, Q i) :
    ∀ i ∈ ids, Q i := by
  induction ts generalizing roots ids with
  | nil =>
    cases h
    exact List.forall_mem_nil _
  | cons t ts ih =>
    cases h with
    | cons h hs =>
      rw [List.forall_mem_append]
      exact ⟨hQ t List.mem_cons_self h, ih hs fun u hu => hQ u (List.mem_cons_of_mem _ hu)⟩

/-- The entry at the number keeps the rule for the kinds of its children. -/
def KeepsKindsAt (a : Arena) (i : Nat) : Prop :=
  ∀ e, a.get? i = some e → e.KeepsKinds a

/-- The children of a list or of a pseudo-class with arguments. -/
theorem keepsKindsAt_of_selectors {id : Nat} {kind : Kind} {spaces : Spaces} {start : Nat}
    {roots ids : List Nat} {ts : List Tree} (he : a.get? id = some ⟨kind, spaces, start, roots⟩)
    (hkind : kind.isLeaf = false) (hne : kind ≠ .selector) (hs : a.HoldsEach roots ts ids)
    (hts : ts ≠ []) (hk : ∀ t ∈ ts, t.kind = .selector) : a.KeepsKindsAt id := by
  have hroots : roots ≠ [] := by
    rintro rfl
    exact hts (List.eq_nil_of_length_eq_zero hs.length_roots.symm)
  have hchildren : ∀ c ∈ roots, a.kind? c = some .selector := by
    intro c hc
    obtain ⟨t, ht, more, hholds⟩ := hs.exists_of_mem_roots hc
    rw [kind?_of_holds hholds, hk t ht]
  intro e he'
  obtain rfl := Option.some.inj (he.symm.trans he')
  cases kind with
  | root => exact ⟨hroots, hchildren⟩
  | selector => exact absurd rfl hne
  | pseudo name hasArguments =>
    cases hasArguments with
    | true => exact ⟨hroots, hchildren⟩
    | false => cases hkind
  | _ => cases hkind

/-- An alternative keeps the rule if the nodes in it do. -/
theorem keepsKindsAt_of_alternative {t : Tree} (hk : t.kind = .selector)
    (hsimple : ∀ u ∈ t.children, u.IsSimple)
    (hbelow : ∀ u ∈ t.children, ∀ {id : Nat} {ids : List Nat}, a.Holds id u ids →
      ∀ i ∈ ids, a.KeepsKindsAt i)
    {id : Nat} {ids : List Nat} (h : a.Holds id t ids) : ∀ i ∈ ids, a.KeepsKindsAt i := by
  cases h with
  | @node _ kind spaces start roots ts _ he hs =>
    obtain rfl : kind = .selector := hk
    rw [List.forall_mem_cons]
    refine ⟨fun e he' => ?_, hs.forall_mem hbelow⟩
    obtain rfl := Option.some.inj (he.symm.trans he')
    intro c hc
    obtain ⟨u, hu, more, hholds⟩ := hs.exists_of_mem_roots hc
    exact ⟨u.kind, kind?_of_holds hholds, (hsimple u hu).kind_ne⟩

/-- A simple selector keeps the rule, with all below it. -/
theorem keepsKindsAt_of_isSimple {t : Tree} (ht : t.IsSimple) :
    ∀ {id : Nat} {ids : List Nat}, a.Holds id t ids → ∀ i ∈ ids, a.KeepsKindsAt i := by
  induction ht with
  | @leaf kind spaces start hk =>
    intro id ids h
    cases h with
    | node he hs =>
      cases hs
      rw [List.forall_mem_singleton]
      intro e he'
      obtain rfl := Option.some.inj (he.symm.trans he')
      cases kind with
      | root | selector => cases hk
      | pseudo name hasArguments =>
        cases hasArguments with
        | true => cases hk
        | false => rfl
      | _ => rfl
  | call name spaces start hne hk hsimple ih =>
    intro id ids h
    cases h with
    | node he hs =>
      rw [List.forall_mem_cons]
      refine ⟨keepsKindsAt_of_selectors he rfl nofun hs hne hk, hs.forall_mem fun u hu => ?_⟩
      exact keepsKindsAt_of_alternative (hk u hu) (hsimple u hu) (ih u hu)

theorem keepsKindsAt_of_isList {t : Tree} (ht : t.IsList) {id : Nat} {ids : List Nat}
    (h : a.Holds id t ids) : ∀ i ∈ ids, a.KeepsKindsAt i := by
  obtain ⟨hkind, hne, halternatives⟩ := ht
  cases h with
  | @node _ kind spaces start roots ts _ he hs =>
    obtain rfl : kind = .root := hkind
    rw [List.forall_mem_cons]
    refine ⟨keepsKindsAt_of_selectors he rfl nofun hs hne fun u hu => (halternatives u hu).1,
      hs.forall_mem fun u hu => ?_⟩
    exact keepsKindsAt_of_alternative (halternatives u hu).1 (halternatives u hu).2 fun v hv =>
      keepsKindsAt_of_isSimple ((halternatives u hu).2 v hv)

end Kinds

/-! ### Trees -/

/-- The arena is a selector list: its entries form one tree, the root comes first,
and children come behind their parents. -/
structure IsTree (a : Arena) : Prop where
  root : a.kind? 0 = some .root
  /-- Any other entry stands in one place among the children of one entry. -/
  parent : ∀ i, 0 < i → i < a.size → ∃! p : Nat × Nat, (a.children p.1)[p.2]? = some i
  increasing : ∀ i, ∀ c ∈ a.children i, i < c ∧ c < a.size
  kinds : ∀ i, a.KeepsKindsAt i

/-- What is reached from the root of the arena is a selector list. There may be
entries that are not reached. -/
structure IsTreeBelow (a : Arena) : Prop where
  root : a.kind? 0 = some .root
  inRange : ∀ p i, a.follow? 0 p = some i → i < a.size
  once : ∀ p q i, a.follow? 0 p = some i → a.follow? 0 q = some i → p = q
  kinds : ∀ p i, a.follow? 0 p = some i → a.KeepsKindsAt i

section Trees

variable {a : Arena} {t : Tree}

/-- Where the entries of a tree are in order, children come behind their parents. -/
theorem Holds.lt_of_mem_children {id i c : Nat} {ids : List Nat} (h : a.Holds id t ids)
    (hids : ids.Pairwise (· < ·)) (hi : i ∈ ids) (hc : c ∈ a.children i) : i < c ∧ c ∈ ids := by
  obtain ⟨u, below, hu, hin⟩ := h.exists_of_mem hi
  obtain ⟨children, more, he, hs, rfl⟩ := hu.exists_entry
  rw [children_of_get? he] at hc
  have hmem : c ∈ more := hs.mem_of_mem_roots hc
  exact ⟨(List.pairwise_cons.mp (hids.sublist hin.sublist)).1 c hmem,
    hin.subset (List.mem_cons_of_mem _ hmem)⟩

/-- An entry below the root of a tree is a child of another one. -/
theorem Holds.exists_parent {id i : Nat} {ids : List Nat} (h : a.Holds id t ids) (hi : i ∈ ids)
    (hne : i ≠ id) : ∃ j k : Nat, (a.children j)[k]? = some i := by
  obtain ⟨p, hp⟩ := h.exists_path hi
  rcases p.eq_nil_or_concat' with rfl | ⟨q, k, rfl⟩
  · cases hp
    exact absurd rfl hne
  · rw [follow?_append] at hp
    obtain ⟨j, -, hj⟩ := Option.bind_eq_some_iff.mp hp
    obtain ⟨c, hc, hend⟩ := Option.bind_eq_some_iff.mp hj
    cases hend
    exact ⟨j, k, hc⟩

/-- An entry of a tree whose entries differ stands in one place among the children
of the others. -/
theorem Holds.parent_inj {id i j j' k k' : Nat} {ids : List Nat} (h : a.Holds id t ids)
    (hids : ids.Nodup) (hj : j ∈ ids) (hj' : j' ∈ ids) (hk : (a.children j)[k]? = some i)
    (hk' : (a.children j')[k']? = some i) : j = j' ∧ k = k' := by
  obtain ⟨p, hp⟩ := h.exists_path hj
  obtain ⟨q, hq⟩ := h.exists_path hj'
  have hpath : ∀ {j k : Nat} {p : List Nat}, a.follow? id p = some j →
      (a.children j)[k]? = some i → a.follow? id (p ++ [k]) = some i := by
    intro j k p hp hk
    rw [follow?_append, hp, Option.bind_some, follow?_cons, hk]
    rfl
  obtain ⟨rfl, hk⟩ := List.append_inj' (h.follow?_inj hids (hpath hp hk) (hpath hq hk')) rfl
  exact ⟨Option.some.inj (hp.symm.trans hq), List.singleton_inj.mp hk⟩

/-- **An arena that holds nothing but a selector list is a tree.** -/
theorem isTree_of_holds (ht : t.IsList) (h : a.Holds 0 t (List.range a.size)) : a.IsTree where
  root := (kind?_of_holds h).trans (congrArg some ht.kind)
  parent i hpos hi := by
    obtain ⟨j, k, hk⟩ := h.exists_parent (List.mem_range.mpr hi) (Nat.ne_of_gt hpos)
    have hmem : ∀ {j k : Nat}, (a.children j)[k]? = some i → j ∈ List.range a.size := fun hk =>
      List.mem_range.mpr (lt_size_of_mem_children (List.mem_of_getElem? hk))
    refine ⟨(j, k), hk, fun p hp => ?_⟩
    obtain ⟨hj, hk'⟩ := h.parent_inj List.nodup_range (hmem hp) (hmem hk) hp hk
    exact Prod.ext hj hk'
  increasing i c hc := by
    have hi := List.mem_range.mpr (lt_size_of_mem_children hc)
    obtain ⟨hlt, hmem⟩ := h.lt_of_mem_children List.pairwise_lt_range hi hc
    exact ⟨hlt, List.mem_range.mp hmem⟩
  kinds i e he := keepsKindsAt_of_isList ht h i
    (List.mem_range.mpr (List.getElem?_eq_some_iff.mp he).1) e he

/-- **What is reached from a selector list whose nodes have entries of their own is
a tree.** -/
theorem isTreeBelow_of_holds {ids : List Nat} (ht : t.IsList) (h : a.Holds 0 t ids)
    (hids : ids.Nodup) : a.IsTreeBelow where
  root := (kind?_of_holds h).trans (congrArg some ht.kind)
  inRange _ _ hp := h.lt_size (h.mem_of_follow? hp)
  once _ _ _ hp hq := h.follow?_inj hids hp hq
  kinds _ i hp := keepsKindsAt_of_isList ht h i (h.mem_of_follow? hp)

/-- A tree whose nodes have entries of their own is seen in full. -/
theorem Holds.tree?_eq {id : Nat} {ids : List Nat} (h : a.Holds id t ids) (hids : ids.Nodup) :
    a.tree? id = some t := by
  refine h.treeWithin ?_
  have hsub : ids ⊆ List.range a.size := fun i hi => List.mem_range.mpr (h.lt_size hi)
  have hle := (hids.subperm hsub).length_le
  rwa [h.length_eq, List.length_range] at hle

end Trees

end Arena
end Selector

namespace Scope

open Selector (Arena Tree)

/-- **Every selector list that is read gives an arena that is a tree, and wherever
it can be resolved, what is reached in the arena of the result is a tree.** The
arenas hold the list and what it is resolved to. -/
theorem isTree_of_parse {source : String} {t : Tree} (h : Selector.parse source = .ok t) :
    ∃ a, Selector.arenaByPosition nestingLimit source = .ok a ∧ a = .ofTree t ∧ a.IsTree ∧
      ∀ ctx isGlobal,
        (∀ o r, (resolveArena ctx a isGlobal).result = .ok (o, r) → o.IsTreeBelow) ∧
        ∀ t' r, (resolve ctx isGlobal t).result = .ok (t', r) →
          ∃ o, (resolveArena ctx a isGlobal).result = .ok (o, r) ∧ o.tree? 0 = some t' := by
  have hlist := Selector.isList_of_parse h
  have harena : Selector.arenaByPosition nestingLimit source = .ok (.ofTree t) := by
    rw [Selector.arenaByPosition_eq]
    exact congrArg (fun x => (Except.map Arena.ofTree x).mapError Halt.refused) h
  have hsize : (Arena.ofTree t).size = t.size := Arena.length_layout 0 t
  have hholds := Arena.holds_ofTree t
  rw [← hsize] at hholds
  refine ⟨.ofTree t, harena, rfl, Arena.isTree_of_holds hlist hholds, fun ctx isGlobal => ?_⟩
  have hmirrors := mirrors_resolveArena hholds (Nat.le_of_eq hsize.symm) ctx isGlobal
  constructor
  · intro o r ho
    obtain ⟨⟨t', r'⟩, ht', -, ids, hids, hnodup⟩ := hmirrors.exists_of_ok_left ho
    exact Arena.isTreeBelow_of_holds (isList_of_resolve hlist ht') hids hnodup
  · intro t' r ht'
    obtain ⟨⟨o, _⟩, ho, rfl, ids, hids, hnodup⟩ := hmirrors.exists_of_ok ht'
    exact ⟨o, ho, hids.tree?_eq hnodup⟩

/-- A list with names to mark, white space to trim and nested arguments. -/
theorem isTree_of_parse_nested :
    ∃ t, Selector.parse ".a :local , b:not(:global .c, .d )>#e:local(.f)" = .ok t ∧
      ∃ a, Selector.arenaByPosition nestingLimit
          ".a :local , b:not(:global .c, .d )>#e:local(.f)" = .ok a ∧ a.IsTree ∧
        ∃ o r, (resolveArena ⟨[], false⟩ a false).result = .ok (o, r) ∧ o.IsTreeBelow := by
  obtain ⟨t, ht, hok⟩ := exists_ok_of_any
    (x := Selector.parse ".a :local , b:not(:global .c, .d )>#e:local(.f)")
    (p := fun t => (resolve ⟨[], false⟩ false t).result.isOk) (by decide +kernel)
  obtain ⟨a, ha, -, htree, hresolve⟩ := isTree_of_parse ht
  obtain ⟨⟨t', r⟩, ht', -⟩ := exists_ok_of_isOk hok fun _ _ => trivial
  obtain ⟨o, ho, -⟩ := (hresolve ⟨[], false⟩ false).2 t' r ht'
  exact ⟨t, ht, a, ha, htree, o, r, ho, (hresolve ⟨[], false⟩ false).1 o r ho⟩

end Scope
end StyleScope
