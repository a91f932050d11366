/-
# Trees in an arena

An arena is a list of entries that name one another by number, and any list of
entries is one: an entry can be named twice, or name itself. `Arena.Holds` says
that a tree stands at a number, and which entries it takes up. Two trees of an
arena do not touch if their entries differ, so an entry can be changed under one
of them (`Arena.Holds.congr`).

From an entry the others are reached along paths, which name the place of a
child at each level. The paths that an arena allows from a tree are those of the
tree, in document order, and lead to the entries of the tree one by one
(`Arena.Holds.map_follow?`, `Arena.Holds.mem_paths`).

Key definitions: `Selector.Arena.Holds`, `Selector.Arena.follow?`,
`Selector.Tree.paths`.
Key theorems: `Selector.Arena.Holds.treeWithin`, `Selector.Arena.holds_graft`,
`Selector.Arena.Holds.follow?_inj`.
-/
import Mathlib.Data.List.Forall2
import Mathlib.Data.List.Nodup
import StyleScope.Selector.Arena

namespace StyleScope
namespace Selector

/-! ### Results for each element -/

section Each

variable {α β : Type} {f : α → Option β} {as : List α} {bs : List β}

theorem mapM_eq_some_iff :
    as.mapM f = some bs ↔ List.Forall₂ (fun a b => f a = some b) as bs := by
  induction as generalizing bs with
  | nil => simp [eq_comm]
  | cons a as ih =>
    rw [List.mapM_cons, List.forall₂_cons_left_iff]
    constructor
    · intro h
      obtain ⟨b, hb, h⟩ := Option.bind_eq_some_iff.mp h
      obtain ⟨bs, hbs, h⟩ := Option.bind_eq_some_iff.mp h
      cases h
      exact ⟨b, bs, hb, ih.mp hbs, rfl⟩
    · rintro ⟨b, bs, hb, hbs, rfl⟩
      rw [hb, ih.mpr hbs]
      rfl

/-- If there is no result for all, there is none for one of them. -/
theorem exists_of_mapM_eq_none (h : as.mapM f = none) : ∃ a ∈ as, f a = none := by
  induction as with
  | nil => exact nomatch h
  | cons a as ih =>
    cases ha : f a with
    | none => exact ⟨a, List.mem_cons_self, ha⟩
    | some b =>
      cases has : as.mapM f with
      | none =>
        obtain ⟨c, hc, hnone⟩ := ih has
        exact ⟨c, List.mem_cons_of_mem _ hc, hnone⟩
      | some bs =>
        rw [List.mapM_cons, ha, has] at h
        cases h

end Each

namespace Arena

/-! ### Trees by their entries -/

mutual

/-- The tree `t` stands at the number `id` of the arena, and its nodes, in
document order, at the numbers `ids`. -/
inductive Holds (a : Arena) : Nat → Tree → List Nat → Prop where
  | node {id : Nat} {kind : Kind} {spaces : Spaces} {start : Nat} {children : List Nat}
    {ts : List Tree} {ids : List Nat} (he : a.get? id = some ⟨kind, spaces, start, children⟩)
    (hs : HoldsEach a children ts ids) : Holds a id (.node kind spaces start ts) (id :: ids)

/-- The trees `ts` stand at the numbers `roots` of the arena one by one, and their
nodes at the numbers `ids`. -/
inductive HoldsEach (a : Arena) : List Nat → List Tree → List Nat → Prop where
  | nil : HoldsEach a [] [] []
  | cons {root : Nat} {roots : List Nat} {t : Tree} {ts : List Tree} {ids more : List Nat}
    (h : Holds a root t ids) (hs : HoldsEach a roots ts more) :
    HoldsEach a (root :: roots) (t :: ts) (ids ++ more)

end

section Holds

variable {a b : Arena}

mutual

theorem Holds.length_eq : ∀ {id : Nat} {t : Tree} {ids : List Nat}, a.Holds id t ids →
    ids.length = t.size
  | _, _, _, .node _ hs => by
    rw [Tree.size, List.length_cons, hs.length_eq, Nat.add_comm]

theorem HoldsEach.length_eq : ∀ {roots : List Nat} {ts : List Tree} {ids : List Nat},
    a.HoldsEach roots ts ids → ids.length = sizeEach ts
  | _, _, _, .nil => by rw [sizeEach, List.length_nil]
  | _, _, _, .cons h hs => by
    rw [sizeEach, List.length_append, h.length_eq, hs.length_eq]

end

theorem Holds.mem_self {id : Nat} {t : Tree} {ids : List Nat} (h : a.Holds id t ids) :
    id ∈ ids := by
  cases h
  exact List.mem_cons_self

theorem Holds.exists_entry {id : Nat} {t : Tree} {ids : List Nat} (h : a.Holds id t ids) :
    ∃ children more, a.get? id = some ⟨t.kind, t.spaces, t.start, children⟩ ∧
      a.HoldsEach children t.children more ∧ ids = id :: more := by
  cases h with
  | node he hs => exact ⟨_, _, he, hs, rfl⟩

theorem HoldsEach.length_roots {roots : List Nat} {ts : List Tree} {ids : List Nat}
    (h : a.HoldsEach roots ts ids) : roots.length = ts.length := by
  induction ts generalizing roots ids with
  | nil =>
    cases h
    rfl
  | cons t ts ih =>
    cases h with
    | cons _ hs => rw [List.length_cons, List.length_cons, ih hs]

theorem HoldsEach.append {roots others : List Nat} {ts us : List Tree} {ids more : List Nat}
    (h : a.HoldsEach roots ts ids) (hu : a.HoldsEach others us more) :
    a.HoldsEach (roots ++ others) (ts ++ us) (ids ++ more) := by
  induction ts generalizing roots ids with
  | nil =>
    cases h
    exact hu
  | cons t ts ih =>
    cases h with
    | cons h hs =>
      rw [List.append_assoc]
      exact .cons h (ih hs)

theorem HoldsEach.singleton {id : Nat} {t : Tree} {ids : List Nat} (h : a.Holds id t ids) :
    a.HoldsEach [id] [t] ids := by
  simpa only [List.append_nil] using HoldsEach.cons h .nil

/-- Trees that stand side by side stand one after the other. -/
theorem HoldsEach.of_append {front back : List Nat} {ts us : List Tree} {ids : List Nat}
    (h : a.HoldsEach (front ++ back) (ts ++ us) ids) (hlength : front.length = ts.length) :
    ∃ more others, ids = more ++ others ∧ a.HoldsEach front ts more ∧
      a.HoldsEach back us others := by
  induction ts generalizing front ids with
  | nil =>
    rw [List.eq_nil_of_length_eq_zero hlength] at h ⊢
    exact ⟨[], ids, rfl, .nil, h⟩
  | cons t ts ih =>
    cases front with
    | nil => cases hlength
    | cons root front =>
      cases h with
      | cons ht hs =>
        obtain ⟨more, others, rfl, hfront, hback⟩ := ih hs (Nat.succ.inj hlength)
        exact ⟨_ ++ more, others, (List.append_assoc ..).symm, .cons ht hfront, hback⟩

/-- Trees of an arena are told apart by the place of their number. -/
theorem HoldsEach.exists_of_getElem? {roots : List Nat} {ts : List Tree} {ids : List Nat}
    {k c : Nat} (h : a.HoldsEach roots ts ids) (hc : roots[k]? = some c) :
    ∃ t more, ts[k]? = some t ∧ a.Holds c t more := by
  induction ts generalizing roots ids k with
  | nil =>
    cases h
    cases hc
  | cons t ts ih =>
    cases h with
    | cons h hs =>
      cases k with
      | zero =>
        cases hc
        exact ⟨t, _, rfl, h⟩
      | succ k => exact ih hs hc

mutual

/-- A tree stands where it stood as long as its own entries do not change. -/
theorem Holds.congr : ∀ {id : Nat} {t : Tree} {ids : List Nat}, a.Holds id t ids →
    (∀ i ∈ ids, b.get? i = a.get? i) → b.Holds id t ids
  | _, _, _, .node he hs, heq =>
    .node ((heq _ List.mem_cons_self).trans he)
      (hs.congr fun i hi => heq i (List.mem_cons_of_mem _ hi))

theorem HoldsEach.congr : ∀ {roots : List Nat} {ts : List Tree} {ids : List Nat},
    a.HoldsEach roots ts ids → (∀ i ∈ ids, b.get? i = a.get? i) → b.HoldsEach roots ts ids
  | _, _, _, .nil, _ => .nil
  | _, _, _, .cons h hs, heq =>
    .cons (h.congr fun i hi => heq i (List.mem_append_left _ hi))
      (hs.congr fun i hi => heq i (List.mem_append_right _ hi))

end

mutual

/-- The entries of a tree hold the trees below it, each among the entries of the
whole. -/
theorem Holds.outline : ∀ {id : Nat} {t : Tree} {ids : List Nat} (depth : Nat), a.Holds id t ids →
    List.Forall₂ (fun i (u : Nat × Tree) => ∃ below, a.Holds i u.2 below ∧ below <:+: ids) ids
      (t.outline depth)
  | _, _, _, depth, h@(.node _ hs) => by
    rw [Tree.outline]
    refine .cons ⟨_, h, List.infix_rfl⟩ ((hs.outline (depth + 1)).imp ?_)
    rintro i u ⟨below, hu, hin⟩
    exact ⟨below, hu, hin.trans (List.suffix_cons _ _).isInfix⟩

theorem HoldsEach.outline : ∀ {roots : List Nat} {ts : List Tree} {ids : List Nat} (depth : Nat),
    a.HoldsEach roots ts ids →
    List.Forall₂ (fun i (u : Nat × Tree) => ∃ below, a.Holds i u.2 below ∧ below <:+: ids) ids
      (outlineEach depth ts)
  | _, _, _, depth, .nil => by
    rw [outlineEach]
    exact .nil
  | _, _, _, depth, .cons h hs => by
    rw [outlineEach]
    refine List.rel_append ((h.outline depth).imp ?_) ((hs.outline depth).imp ?_)
    · rintro i u ⟨below, hu, hin⟩
      exact ⟨below, hu, hin.trans (List.prefix_append _ _).isInfix⟩
    · rintro i u ⟨below, hu, hin⟩
      exact ⟨below, hu, hin.trans (List.suffix_append _ _).isInfix⟩

end

/-- At each number of a tree stands a tree. -/
theorem Holds.exists_of_mem {id i : Nat} {t : Tree} {ids : List Nat} (h : a.Holds id t ids)
    (hi : i ∈ ids) : ∃ u below, a.Holds i u below ∧ below <:+: ids := by
  obtain ⟨k, hk, rfl⟩ := List.mem_iff_getElem.mp hi
  have hall := h.outline 0
  have hk' : k < (t.outline 0).length := hall.length_eq ▸ hk
  obtain ⟨below, hu, hin⟩ := hall.get hk hk'
  exact ⟨_, below, hu, hin⟩

/-- The trees at the same place of two equal trees are equal. -/
theorem Holds.exists_common {id jd k i j : Nat} {t : Tree} {ids jds : List Nat}
    (h : a.Holds id t ids) (h' : b.Holds jd t jds) (hi : ids[k]? = some i) (hj : jds[k]? = some j) :
    ∃ u below below', a.Holds i u below ∧ b.Holds j u below' := by
  obtain ⟨hk, rfl⟩ := List.getElem?_eq_some_iff.mp hi
  obtain ⟨hk', rfl⟩ := List.getElem?_eq_some_iff.mp hj
  have hall := h.outline 0
  have hall' := h'.outline 0
  have hlt : k < (t.outline 0).length := hall.length_eq ▸ hk
  obtain ⟨below, hu, -⟩ := hall.get hk hlt
  obtain ⟨below', hu', -⟩ := hall'.get hk' hlt
  exact ⟨_, below, below', hu, hu'⟩

theorem HoldsEach.mem_of_mem_roots {roots : List Nat} {ts : List Tree} {ids : List Nat} {c : Nat}
    (h : a.HoldsEach roots ts ids) (hc : c ∈ roots) : c ∈ ids := by
  induction ts generalizing roots ids with
  | nil =>
    cases h
    cases hc
  | cons t ts ih =>
    cases h with
    | cons h hs =>
      rcases List.mem_cons.mp hc with rfl | hc
      · exact List.mem_append_left _ h.mem_self
      · exact List.mem_append_right _ (ih hs hc)

mutual

theorem Holds.lt_size : ∀ {id i : Nat} {t : Tree} {ids : List Nat}, a.Holds id t ids → i ∈ ids →
    i < a.size
  | _, _, _, _, .node he hs, hi => by
    rcases List.mem_cons.mp hi with rfl | hi
    · exact (List.getElem?_eq_some_iff.mp he).1
    · exact hs.lt_size hi

theorem HoldsEach.lt_size : ∀ {i : Nat} {roots : List Nat} {ts : List Tree} {ids : List Nat},
    a.HoldsEach roots ts ids → i ∈ ids → i < a.size
  | _, _, _, _, .nil, hi => nomatch hi
  | _, _, _, _, .cons h hs, hi =>
    (List.mem_append.mp hi).elim (fun hi => h.lt_size hi) fun hi => hs.lt_size hi

end

end Holds

/-! ### Looking at a tree with a bound -/

section Within

variable {a : Arena}

mutual

/-- A bound on the levels that covers the nodes of a tree shows the whole tree. -/
theorem Holds.treeWithin : ∀ {id : Nat} {t : Tree} {ids : List Nat} {n : Nat}, a.Holds id t ids →
    t.size ≤ n → a.treeWithin Entry.children n id = some t
  | _, _, _, 0, .node _ _, hn => by
    rw [Tree.size] at hn
    omega
  | _, _, _, n + 1, .node he hs, hn => by
    rw [Tree.size] at hn
    have hsub := hs.mapM_treeWithin (n := n) (by omega)
    simp only [Arena.treeWithin, he, hsub, bind, Option.bind, pure]

theorem HoldsEach.mapM_treeWithin : ∀ {roots : List Nat} {ts : List Tree} {ids : List Nat}
    {n : Nat}, a.HoldsEach roots ts ids → sizeEach ts ≤ n →
    roots.mapM (a.treeWithin Entry.children n) = some ts
  | _, _, _, n, .nil, _ => List.mapM_nil
  | _, _, _, n, .cons h hs, hn => by
    rw [sizeEach] at hn
    have hhead := h.treeWithin (n := n) (by omega)
    have htail := hs.mapM_treeWithin (n := n) (by omega)
    rw [List.mapM_cons, hhead, htail]
    rfl

end

theorem exists_holdsEach {roots : List Nat} {ts : List Tree}
    (h : List.Forall₂ (fun c t => ∃ ids, a.Holds c t ids) roots ts) :
    ∃ ids, a.HoldsEach roots ts ids := by
  induction h with
  | nil => exact ⟨[], .nil⟩
  | cons hc _ ih =>
    obtain ⟨ids, hids⟩ := hc
    obtain ⟨more, hmore⟩ := ih
    exact ⟨ids ++ more, .cons hids hmore⟩

/-- What is seen at a number stands there. -/
theorem exists_holds_of_treeWithin {n id : Nat} {t : Tree}
    (h : a.treeWithin Entry.children n id = some t) : ∃ ids, a.Holds id t ids := by
  induction n generalizing id t with
  | zero => cases h
  | succ n ih =>
    obtain ⟨e, he, h⟩ := Option.bind_eq_some_iff.mp h
    obtain ⟨ts, hts, h⟩ := Option.bind_eq_some_iff.mp h
    cases h
    have heach := (mapM_eq_some_iff.mp hts).imp fun c t hc => ih hc
    obtain ⟨ids, hids⟩ := exists_holdsEach heach
    exact ⟨id :: ids, .node he hids⟩

end Within

/-! ### Trees laid out in order -/

mutual

@[simp] theorem length_layout : ∀ (base : Nat) (t : Tree), (layout base t).length = t.size
  | base, .node kind spaces start children => by
    rw [layout, Tree.size, List.length_cons, length_layoutEach, Nat.add_comm]

@[simp] theorem length_layoutEach : ∀ (base : Nat) (ts : List Tree),
    (layoutEach base ts).length = sizeEach ts
  | base, [] => by rw [layoutEach, sizeEach, List.length_nil]
  | base, t :: ts => by
    rw [layoutEach, sizeEach, List.length_append, length_layout, length_layoutEach]

end

theorem numbers_append (base : Nat) (ts us : List Tree) :
    numbers base (ts ++ us) = numbers base ts ++ numbers (base + sizeEach ts) us := by
  induction ts generalizing base with
  | nil => simp [numbers, sizeEach]
  | cons t ts ih => simp [numbers, sizeEach, ih, Nat.add_assoc]

theorem layoutEach_append (base : Nat) (ts us : List Tree) :
    layoutEach base (ts ++ us) = layoutEach base ts ++ layoutEach (base + sizeEach ts) us := by
  induction ts generalizing base with
  | nil => simp [layoutEach, sizeEach]
  | cons t ts ih => simp [layoutEach, sizeEach, ih, Nat.add_assoc]

section Layout

variable {a : Arena}

mutual

/-- A tree whose entries are laid out in a row takes up the numbers from the first
one on. -/
theorem holds_layout : ∀ (front back : List Entry) {base : Nat} {t : Tree},
    a.entries = front ++ layout base t ++ back → front.length = base →
    a.Holds base t (List.range' base t.size)
  | front, back, base, .node kind spaces start ts, ha, hbase => by
    rw [layout, List.append_assoc, List.cons_append] at ha
    have he : a.get? base = some ⟨kind, spaces, start, numbers (base + 1) ts⟩ := by
      rw [get?, ha, ← hbase]
      simp
    have hs : a.HoldsEach (numbers (base + 1) ts) ts (List.range' (base + 1) (sizeEach ts)) :=
      holdsEach_layout (front ++ [⟨kind, spaces, start, numbers (base + 1) ts⟩]) back
        (by simpa using ha) (by simp [hbase])
    rw [Tree.size, Nat.add_comm, List.range'_succ]
    exact .node he hs

theorem holdsEach_layout : ∀ (front back : List Entry) {base : Nat} {ts : List Tree},
    a.entries = front ++ layoutEach base ts ++ back → front.length = base →
    a.HoldsEach (numbers base ts) ts (List.range' base (sizeEach ts))
  | front, back, base, [], ha, hbase => by
    rw [numbers, sizeEach]
    exact .nil
  | front, back, base, t :: ts, ha, hbase => by
    rw [layoutEach] at ha
    rw [numbers, sizeEach, ← List.range'_append_1]
    refine .cons (holds_layout front (layoutEach (base + t.size) ts ++ back) (by simpa using ha)
      hbase) ?_
    exact holdsEach_layout (front ++ layout base t) back (by simpa using ha) (by simp [hbase])

end

/-- A tree stands where it is added, and takes up the new entries. -/
theorem holds_graft (a : Arena) (t : Tree) :
    (a.graft t).Holds a.size t (List.range' a.size t.size) :=
  holds_layout a.entries [] (by rw [graft, List.append_nil]) rfl

theorem holds_ofTree (t : Tree) : (ofTree t).Holds 0 t (List.range t.size) := by
  rw [List.range_eq_range']
  exact holds_layout [] [] (by simp [ofTree]) rfl

theorem get?_graft (a : Arena) (t : Tree) (k : Nat) :
    (a.graft t).get? (a.size + k) = (layout a.size t)[k]? := by
  simp only [graft, get?, size, List.getElem?_append_right (Nat.le_add_right _ k),
    Nat.add_sub_cancel_left]

theorem size_graft (a : Arena) (t : Tree) : (a.graft t).size = a.size + t.size := by
  rw [graft, size, List.length_append, length_layout, size]

end Layout

/-! ### Building a tree in place -/

theorem push_eq_graft (a : Arena) (kind : Kind) (spaces : Spaces) (start : Nat) :
    a.push kind spaces start = a.graft (.leaf kind spaces start) := by
  simp [push, graft, Tree.leaf, layout, layoutEach, numbers]

/-- An entry is changed where it stands. -/
theorem modify?_eq {a : Arena} (front : List Entry) (e : Entry) (back : List Entry)
    (f : Entry → Entry) (h : a.entries = front ++ e :: back) :
    a.modify? front.length f = some ⟨front ++ f e :: back⟩ := by
  simp [modify?, get?, h]

/-- A tree behind the node that was added last becomes its last child. -/
theorem appendChild?_graft (a : Arena) (kind : Kind) (spaces : Spaces) (start : Nat)
    (ts : List Tree) (t : Tree) :
    ((a.graft (.node kind spaces start ts)).graft t).appendChild? a.size
        (a.graft (.node kind spaces start ts)).size =
      some (a.graft (.node kind spaces start (ts ++ [t]))) := by
  have hsize : (a.graft (.node kind spaces start ts)).size = a.size + 1 + sizeEach ts := by
    rw [size_graft, Tree.size, Nat.add_assoc]
  rw [appendChild?, hsize, size, modify?_eq a.entries ⟨kind, spaces, start, numbers (a.size + 1) ts⟩
    (layoutEach (a.size + 1) ts ++ layout (a.size + 1 + sizeEach ts) t)]
  · simp [graft, layout, numbers_append, layoutEach_append, numbers, layoutEach, size]
  · rw [graft, hsize, graft, layout]
    simp

/-! ### Paths -/

/-- The number that a path leads to from `id`. At each level it names the place of
a child. -/
def follow? (a : Arena) (id : Nat) (path : List Nat) : Option Nat :=
  path.foldlM (fun i k => (a.children i)[k]?) id

@[simp] theorem follow?_nil (a : Arena) (id : Nat) : a.follow? id [] = some id := rfl

@[simp] theorem follow?_cons (a : Arena) (id k : Nat) (path : List Nat) :
    a.follow? id (k :: path) = (a.children id)[k]?.bind fun c => a.follow? c path := rfl

theorem follow?_append (a : Arena) (id : Nat) (path more : List Nat) :
    a.follow? id (path ++ more) = (a.follow? id path).bind fun i => a.follow? i more := by
  rw [follow?, List.foldlM_append]
  rfl

theorem children_of_get? {a : Arena} {id : Nat} {e : Entry} (h : a.get? id = some e) :
    a.children id = e.children := by
  rw [children, h]
  rfl

/-- Only an entry has children. -/
theorem lt_size_of_mem_children {a : Arena} {id c : Nat} (h : c ∈ a.children id) :
    id < a.size := by
  cases he : a.get? id with
  | none =>
    rw [children, he] at h
    cases h
  | some e => exact (List.getElem?_eq_some_iff.mp he).1

end Arena

mutual

/-- The paths from the root of the tree to its nodes, in document order. -/
def Tree.paths : Tree → List (List Nat)
  | .node _ _ _ children => [] :: pathsFrom 0 children

/-- The paths into trees that are the children from number `k` on. -/
def pathsFrom (k : Nat) : List Tree → List (List Nat)
  | [] => []
  | t :: ts => t.paths.map (k :: ·) ++ pathsFrom (k + 1) ts

end

theorem exists_of_mem_pathsFrom {ts : List Tree} {k : Nat} {p : List Nat}
    (h : p ∈ pathsFrom k ts) : ∃ j q, p = j :: q ∧ k ≤ j := by
  induction ts generalizing k with
  | nil =>
    rw [pathsFrom] at h
    cases h
  | cons t ts ih =>
    rw [pathsFrom, List.mem_append] at h
    rcases h with h | h
    · obtain ⟨q, -, rfl⟩ := List.mem_map.mp h
      exact ⟨k, q, rfl, Nat.le_refl k⟩
    · obtain ⟨j, q, rfl, hj⟩ := ih h
      exact ⟨j, q, rfl, Nat.le_of_succ_le hj⟩

theorem mem_pathsFrom {ts : List Tree} {t : Tree} {k : Nat} {p : List Nat} (base : Nat)
    (ht : ts[k]? = some t) (hp : p ∈ t.paths) : (base + k) :: p ∈ pathsFrom base ts := by
  induction ts generalizing k base with
  | nil => cases ht
  | cons u us ih =>
    rw [pathsFrom, List.mem_append]
    cases k with
    | zero =>
      cases ht
      exact .inl (List.mem_map_of_mem hp)
    | succ k =>
      have hmem := ih (base + 1) ht
      rw [Nat.add_assoc, Nat.add_comm 1 k] at hmem
      exact .inr hmem

mutual

/-- In document order, the paths are in lexicographic order: a node comes before
all below it, and these before the nodes behind. -/
theorem Tree.pairwise_paths : ∀ t : Tree, t.paths.Pairwise (· < ·)
  | .node _ _ _ children => by
    rw [Tree.paths]
    refine .cons (fun p hp => ?_) (pairwise_pathsFrom 0 children)
    obtain ⟨j, q, rfl, -⟩ := exists_of_mem_pathsFrom hp
    exact List.nil_lt_cons j q

theorem pairwise_pathsFrom : ∀ (k : Nat) (ts : List Tree), (pathsFrom k ts).Pairwise (· < ·)
  | k, [] => by
    rw [pathsFrom]
    exact .nil
  | k, t :: ts => by
    rw [pathsFrom, List.pairwise_append]
    refine ⟨?_, pairwise_pathsFrom (k + 1) ts, ?_⟩
    · rw [List.pairwise_map]
      exact t.pairwise_paths.imp fun h => List.cons_lt_cons_self.mpr h
    · intro p hp q hq
      obtain ⟨p, -, rfl⟩ := List.mem_map.mp hp
      obtain ⟨j, q, rfl, hj⟩ := exists_of_mem_pathsFrom hq
      exact List.Lex.rel hj

end

namespace Arena

section Paths

variable {a : Arena}

mutual

/-- **The paths of a tree lead to its numbers one by one.** -/
theorem Holds.map_follow? : ∀ {id : Nat} {t : Tree} {ids : List Nat}, a.Holds id t ids →
    t.paths.map (a.follow? id) = ids.map some
  | id, _, _, .node he hs => by
    have hsub := hs.map_follow? id [] (children_of_get? he)
    rw [Tree.paths, List.map_cons, List.map_cons, ← hsub]
    rfl

theorem HoldsEach.map_follow? : ∀ (id : Nat) (front : List Nat) {roots : List Nat}
    {ts : List Tree} {ids : List Nat}, a.HoldsEach roots ts ids →
    a.children id = front ++ roots → (pathsFrom front.length ts).map (a.follow? id) = ids.map some
  | _, _, _, _, _, .nil, _ => by
    rw [pathsFrom]
    rfl
  | id, front, _, _, _, @HoldsEach.cons _ root roots _ _ _ _ h hs, hc => by
    have hroot : (a.children id)[front.length]? = some root := by
      rw [hc]
      simp
    have htail := hs.map_follow? id (front ++ [root]) (by simpa using hc)
    rw [List.length_append, List.length_singleton] at htail
    rw [pathsFrom, List.map_append, List.map_append, htail, ← h.map_follow?, List.map_map]
    congr 1
    refine List.map_congr_left fun p _ => ?_
    rw [Function.comp_apply, follow?_cons, hroot]
    rfl

end

/-- A tree has all paths that the arena allows from its root. -/
theorem Holds.mem_paths {id i : Nat} {t : Tree} {ids p : List Nat} (h : a.Holds id t ids)
    (hp : a.follow? id p = some i) : p ∈ t.paths := by
  induction p generalizing id t ids with
  | nil =>
    cases h
    rw [Tree.paths]
    exact List.mem_cons_self
  | cons k p ih =>
    cases h with
    | node he hs =>
      rw [follow?_cons, children_of_get? he] at hp
      obtain ⟨c, hc, hp⟩ := Option.bind_eq_some_iff.mp hp
      obtain ⟨u, more, hu, hbelow⟩ := hs.exists_of_getElem? hc
      have hmem := mem_pathsFrom 0 hu (ih hbelow hp)
      rw [Nat.zero_add] at hmem
      rw [Tree.paths]
      exact List.mem_cons_of_mem _ hmem

theorem Holds.length_paths {id : Nat} {t : Tree} {ids : List Nat} (h : a.Holds id t ids) :
    t.paths.length = ids.length := by
  simpa only [List.length_map] using congrArg List.length h.map_follow?

theorem Holds.follow?_getElem {id k : Nat} {t : Tree} {ids : List Nat} (h : a.Holds id t ids)
    (hk : k < t.paths.length) (hk' : k < ids.length) : a.follow? id t.paths[k] = some ids[k] := by
  have hmap := List.getElem_of_eq h.map_follow? (i := k) (by rwa [List.length_map])
  rwa [List.getElem_map, List.getElem_map] at hmap

/-- What is reached from a tree belongs to it. -/
theorem Holds.mem_of_follow? {id i : Nat} {t : Tree} {ids p : List Nat} (h : a.Holds id t ids)
    (hp : a.follow? id p = some i) : i ∈ ids := by
  obtain ⟨k, hk, rfl⟩ := List.mem_iff_getElem.mp (h.mem_paths hp)
  rw [h.follow?_getElem hk (h.length_paths ▸ hk)] at hp
  cases hp
  exact List.getElem_mem _

theorem Holds.exists_path {id i : Nat} {t : Tree} {ids : List Nat} (h : a.Holds id t ids)
    (hi : i ∈ ids) : ∃ p, a.follow? id p = some i := by
  obtain ⟨k, hk, rfl⟩ := List.mem_iff_getElem.mp hi
  exact ⟨_, h.follow?_getElem (h.length_paths.symm ▸ hk) hk⟩

/-- **Only one path leads to an entry of a tree whose entries differ.** -/
theorem Holds.follow?_inj {id i : Nat} {t : Tree} {ids p q : List Nat} (h : a.Holds id t ids)
    (hids : ids.Nodup) (hp : a.follow? id p = some i) (hq : a.follow? id q = some i) : p = q := by
  obtain ⟨j, hj, rfl⟩ := List.mem_iff_getElem.mp (h.mem_paths hp)
  obtain ⟨k, hk, rfl⟩ := List.mem_iff_getElem.mp (h.mem_paths hq)
  rw [h.follow?_getElem hj (h.length_paths ▸ hj)] at hp
  rw [h.follow?_getElem hk (h.length_paths ▸ hk), ← hp] at hq
  have hjk : k = j := (List.Nodup.getElem_inj_iff hids).mp (Option.some.inj hq)
  subst hjk
  rfl

end Paths

end Arena
end Selector
end StyleScope
