/-
# Copying between arenas

What is reached from an entry need not be a tree: entries can be shared. It can
be copied as long as it is grounded, which means that it stays in the arena and
does not lead back to itself. Then no path is longer than the arena, since one
that is as long visits an entry twice, and what is seen along the paths is a tree
(`IsGrounded.exists_tree?`). A copy is this tree put behind the entries of the
target (`copyWithin_eq`): an entry for each path, so that shared entries become
several. The copy refers to its own entries only, and the target may be the
source itself.

Key definitions: `Selector.Arena.IsGrounded`, `Selector.Arena.IsCopy`.
Key theorems: `Selector.Arena.IsGrounded.exists_tree?`,
`Selector.Arena.copyWithin_eq`, `Selector.Arena.exists_isCopy_of_isGrounded`.
-/
import Mathlib.Data.Finset.Card
import StyleScope.Proofs.ArenaTrees
import StyleScope.Proofs.SelectorRead

namespace StyleScope
namespace Selector
namespace Arena

/-! ### Grounded entries -/

/-- What is reached from the number has entries, and nothing leads back to
itself. -/
structure IsGrounded (a : Arena) (id : Nat) : Prop where
  inRange : ∀ p i, a.follow? id p = some i → i < a.size
  acyclic : ∀ p i, a.follow? id p = some i → ∀ more, a.follow? i more = some i → more = []

/-- Where every entry names later ones only, nothing leads back. -/
theorem isGrounded_of_increasing {a : Arena} {id : Nat} (hid : id < a.size)
    (h : ∀ i < a.size, ∀ c ∈ a.children i, i < c ∧ c < a.size) : a.IsGrounded id := by
  have hfollow : ∀ p i j, a.follow? i p = some j → i < a.size → i + p.length ≤ j ∧ j < a.size := by
    intro p
    induction p with
    | nil =>
      intro i j hj hi
      cases hj
      exact ⟨Nat.le_refl _, hi⟩
    | cons k p ih =>
      intro i j hj hi
      obtain ⟨c, hc, hj⟩ := Option.bind_eq_some_iff.mp hj
      obtain ⟨hlt, hsize⟩ := h i hi c (List.mem_of_getElem? hc)
      have hbelow := ih c j hj hsize
      rw [List.length_cons]
      omega
  refine ⟨fun p i hi => (hfollow p id i hi hid).2, fun p i hi more hmore => ?_⟩
  have hle := (hfollow more i i hmore (hfollow p id i hi hid).2).1
  exact List.eq_nil_of_length_eq_zero (by omega)

/-- Where a bound hides something, a path goes as deep as the bound. -/
theorem exists_path_of_treeWithin {a : Arena} {id n : Nat}
    (hrange : ∀ p i, a.follow? id p = some i → i < a.size)
    (h : a.treeWithin Entry.children n id = none) :
    ∃ p i, p.length = n ∧ a.follow? id p = some i := by
  induction n generalizing id with
  | zero => exact ⟨[], id, rfl, rfl⟩
  | succ n ih =>
    have hid : id < a.size := hrange [] id rfl
    have he : a.get? id = some a.entries[id] := List.getElem?_eq_getElem hid
    have hnone : a.entries[id].children.mapM (a.treeWithin Entry.children n) = none := by
      cases hm : a.entries[id].children.mapM (a.treeWithin Entry.children n) with
      | none => rfl
      | some ts =>
        simp only [treeWithin, he, hm, bind, Option.bind, pure] at h
        cases h
    obtain ⟨c, hc, hnone⟩ := exists_of_mapM_eq_none hnone
    obtain ⟨k, hk, rfl⟩ := List.mem_iff_getElem.mp hc
    have hstep : ∀ p, a.follow? id (k :: p) = a.follow? a.entries[id].children[k] p := by
      intro p
      rw [follow?_cons, children_of_get? he, List.getElem?_eq_getElem hk]
      rfl
    obtain ⟨p, i, hp, hi⟩ := ih (fun p i hi => hrange (k :: p) i ((hstep p).trans hi)) hnone
    exact ⟨k :: p, i, congrArg Nat.succ hp, (hstep p).trans hi⟩

/-- **What a grounded number reaches is a tree.** -/
theorem IsGrounded.exists_tree? {a : Arena} {id : Nat} (h : a.IsGrounded id) :
    ∃ t, a.tree? id = some t := by
  cases htree : a.tree? id with
  | some t => exact ⟨t, rfl⟩
  | none =>
    exfalso
    obtain ⟨p, last, hlength, hlast⟩ := exists_path_of_treeWithin h.inRange htree
    -- the path leads past an entry at each of its levels, one more than there are
    have hvisit : ∀ k, ∃ i, a.follow? id (p.take k) = some i ∧ i < a.size := by
      intro k
      rw [← List.take_append_drop k p, follow?_append] at hlast
      obtain ⟨i, hi, -⟩ := Option.bind_eq_some_iff.mp hlast
      exact ⟨i, hi, h.inRange _ i hi⟩
    choose visit hvisit hlt using hvisit
    obtain ⟨j, hj, k, hk, hne, heq⟩ := Finset.exists_ne_map_eq_of_card_lt_of_maps_to
      (s := Finset.range (a.size + 1)) (t := Finset.range a.size) (f := visit) (by simp)
      (fun k _ => Finset.mem_coe.mpr (Finset.mem_range.mpr (hlt k)))
    have hcycle : ∀ {j k : Nat}, j < k → k ≤ p.length → visit j ≠ visit k := by
      intro j k hjk hk heq
      have htake : p.take k = p.take j ++ (p.take k).drop j := by
        have hsplit := List.take_append_drop j (p.take k)
        rwa [List.take_take, Nat.min_eq_left (Nat.le_of_lt hjk), eq_comm] at hsplit
      have hback := hvisit k
      rw [htake, follow?_append, hvisit j, Option.bind_some, ← heq] at hback
      have hlength := congrArg List.length (h.acyclic _ _ (hvisit j) _ hback)
      rw [List.length_drop, List.length_take, List.length_nil] at hlength
      omega
    rw [Finset.mem_range] at hj hk
    rcases Nat.lt_or_gt_of_ne hne with hjk | hjk
    · exact hcycle hjk (by omega) heq
    · exact hcycle hjk (by omega) heq.symm

/-! ### The copy -/

/-- **A copy is the tree that is seen, put behind the entries.** -/
theorem copyWithin_eq {source a : Arena} {n id : Nat} {t : Tree}
    (h : source.treeWithin Entry.children n id = some t) :
    source.copyWithin n id a = some (a.size, a.graft t) := by
  induction n generalizing id t a with
  | zero => cases h
  | succ n ih =>
    obtain ⟨e, he, h⟩ := Option.bind_eq_some_iff.mp h
    obtain ⟨ts, hts, h⟩ := Option.bind_eq_some_iff.mp h
    cases h
    -- the copy grows child by child, and is a tree behind the entries all along
    have hattach : ∀ (done : List Tree) {roots : List Nat} {ts : List Tree},
        List.Forall₂ (fun c t => source.treeWithin Entry.children n c = some t) roots ts →
        roots.foldlM
            (fun b child => source.copyWithin n child b >>= fun r => r.2.appendChild? a.size r.1)
            (a.graft (.node e.kind e.spaces e.start done)) =
          some (a.graft (.node e.kind e.spaces e.start (done ++ ts))) := by
      intro done roots ts hts
      induction hts generalizing done with
      | nil =>
        rw [List.append_nil]
        rfl
      | @cons root u roots us hu _ ihs =>
        have hrest := ihs (done ++ [u])
        rw [List.append_assoc] at hrest
        rw [List.foldlM_cons, ih hu, Option.bind_eq_bind, Option.bind_eq_bind, Option.bind_some,
          appendChild?_graft, Option.bind_some]
        exact hrest
    have hcopy := hattach [] (mapM_eq_some_iff.mp hts)
    have hpush : a.push e.kind e.spaces e.start = a.graft (.node e.kind e.spaces e.start []) :=
      push_eq_graft a e.kind e.spaces e.start
    rw [List.nil_append, ← hpush] at hcopy
    rw [copyWithin, he]
    exact congrArg (Option.bind · fun b => some (a.size, b)) hcopy

theorem copyFrom?_eq {source a : Arena} {id : Nat} {t : Tree} (h : source.tree? id = some t) :
    a.copyFrom? source id = some (a.size, a.graft t) :=
  copyWithin_eq h

/-! ### The text of a copy -/

theorem shown_eq (e : Entry) : e.shown = if e.kind.isLeaf then [] else e.children := by
  obtain ⟨kind, spaces, start, children⟩ := e
  cases kind with
  | pseudo name hasArguments => cases hasArguments <;> rfl
  | _ => rfl

theorem print_node_of_isLeaf {kind : Kind} (hk : kind.isLeaf) (spaces : Spaces) (start : Nat)
    (ts us : List Tree) :
    (Tree.node kind spaces start ts).print = (Tree.node kind spaces start us).print := by
  cases kind with
  | root | selector => cases hk
  | pseudo name hasArguments =>
    cases hasArguments with
    | true => cases hk
    | false => simp [Tree.print]
  | _ => simp [Tree.print]

theorem printMore_congr {ts us : List Tree} (h : ts.map Tree.print = us.map Tree.print) :
    printMore ts = printMore us := by
  induction ts generalizing us with
  | nil => rw [List.map_eq_nil_iff.mp h.symm]
  | cons t ts ih =>
    cases us with
    | nil => cases h
    | cons u us =>
      obtain ⟨hhead, htail⟩ := List.cons.inj h
      rw [printMore_cons, printMore_cons, hhead, ih htail]

theorem printEach_congr {ts us : List Tree} (h : ts.map Tree.print = us.map Tree.print) :
    printEach ts = printEach us := by
  induction ts generalizing us with
  | nil => rw [List.map_eq_nil_iff.mp h.symm]
  | cons t ts ih =>
    cases us with
    | nil => cases h
    | cons u us =>
      obtain ⟨hhead, htail⟩ := List.cons.inj h
      rw [printEach_cons, printEach_cons, hhead, ih htail]

theorem printList_congr {ts us : List Tree} (h : ts.map Tree.print = us.map Tree.print) :
    printList ts = printList us := by
  cases ts with
  | nil => rw [List.map_eq_nil_iff.mp h.symm]
  | cons t ts =>
    cases us with
    | nil => cases h
    | cons u us =>
      obtain ⟨hhead, htail⟩ := List.cons.inj h
      rw [printList_cons, printList_cons, hhead, printMore_congr htail]

/-- The text of a node depends on the texts of its children alone. -/
theorem print_node_congr {ts us : List Tree} (h : ts.map Tree.print = us.map Tree.print)
    (kind : Kind) (spaces : Spaces) (start : Nat) :
    (Tree.node kind spaces start ts).print = (Tree.node kind spaces start us).print := by
  cases hk : kind.isLeaf with
  | true => exact print_node_of_isLeaf hk spaces start ts us
  | false =>
    cases kind with
    | root => rw [Tree.print, Tree.print, printList_congr h]
    | selector => rw [Tree.print, Tree.print, printEach_congr h]
    | pseudo name hasArguments =>
      cases hasArguments with
      | true => rw [Tree.print, Tree.print, printList_congr h]
      | false => cases hk
    | _ => cases hk

theorem exists_shownEach {f : Nat → Option Tree} {roots : List Nat} {ts : List Tree}
    (h : List.Forall₂ (fun c (t : Tree) => ∃ u, f c = some u ∧ u.print = t.print) roots ts) :
    ∃ us, roots.mapM f = some us ∧ us.map Tree.print = ts.map Tree.print := by
  simp only [mapM_eq_some_iff]
  induction h with
  | nil => exact ⟨[], .nil, rfl⟩
  | cons hc _ ih =>
    obtain ⟨u, hu, hprint⟩ := hc
    obtain ⟨us, hus, hprints⟩ := ih
    exact ⟨u :: us, .cons hu hus, congrArg₂ List.cons hprint hprints⟩

/-- Printing sees enough of a tree for its text. -/
theorem exists_shown_of_treeWithin {a : Arena} {n id : Nat} {t : Tree}
    (h : a.treeWithin Entry.children n id = some t) :
    ∃ u, a.treeWithin Entry.shown n id = some u ∧ u.print = t.print := by
  induction n generalizing id t with
  | zero => cases h
  | succ n ih =>
    obtain ⟨e, he, h⟩ := Option.bind_eq_some_iff.mp h
    obtain ⟨ts, hts, h⟩ := Option.bind_eq_some_iff.mp h
    cases h
    have heach := (mapM_eq_some_iff.mp hts).imp fun c t hc => ih hc
    cases hk : e.kind.isLeaf with
    | true =>
      refine ⟨.node e.kind e.spaces e.start [], ?_, print_node_of_isLeaf hk _ _ _ _⟩
      simp only [treeWithin, he, shown_eq, hk, if_true, List.mapM_nil, bind, Option.bind, pure]
    | false =>
      obtain ⟨us, hus, hprint⟩ := exists_shownEach heach
      refine ⟨.node e.kind e.spaces e.start us, ?_, print_node_congr hprint _ _ _⟩
      simp only [treeWithin, he, shown_eq, hk, Bool.false_eq_true, if_false, hus, bind,
        Option.bind, pure]

theorem print?_eq {a : Arena} {id : Nat} {t : Tree} (h : a.tree? id = some t) :
    a.print? id = some t.print := by
  obtain ⟨u, hu, hprint⟩ := exists_shown_of_treeWithin h
  rw [print?, hu, ← hprint]
  rfl

/-! ### What a copy is -/

/-- Behind the entries of `target`, the entries `news` are a copy of what is
reached from `id` in `source`: one entry for each of the `paths`. -/
structure IsCopy (source : Arena) (id : Nat) (target : Arena) (paths : List (List Nat))
    (news : List Entry) : Prop where
  mem_paths : ∀ p, p ∈ paths ↔ (source.follow? id p).isSome
  /-- A node comes before all below it, and these before the nodes behind. -/
  inOrder : paths.Pairwise (· < ·)
  length_eq : news.length = paths.length
  /-- Each entry is that at the end of its path, but for the numbers of its
  children. -/
  same : ∀ (k : Nat) (p : List Nat), paths[k]? = some p →
    ∃ (i : Nat) (e : Entry) (children : List Nat),
      source.follow? id p = some i ∧ source.get? i = some e ∧
        news[k]? = some { e with children } ∧ children.length = e.children.length
  /-- The same path leads to it in the copy. -/
  place : ∀ (k : Nat) (p : List Nat), paths[k]? = some p →
    (⟨target.entries ++ news⟩ : Arena).follow? target.size p = some (target.size + k)
  inside : ∀ e ∈ news, ∀ c ∈ e.children, target.size ≤ c ∧ c < target.size + news.length

theorem getElem?_range'_add {base size k : Nat} (hk : k < size) :
    (List.range' base size)[k]? = some (base + k) := by
  rw [List.getElem?_range' hk, Nat.one_mul]

/-- The entries of a tree that is laid out in a row name one another only. -/
theorem inside_layout (target : Arena) (t : Tree) :
    ∀ e ∈ layout target.size t, ∀ c ∈ e.children,
      target.size ≤ c ∧ c < target.size + (layout target.size t).length := by
  intro e he c hc
  obtain ⟨k, hk, rfl⟩ := List.mem_iff_getElem.mp he
  have hget := get?_graft target t k
  rw [List.getElem?_eq_getElem hk] at hget
  rw [length_layout] at hk
  obtain ⟨u, below, hu, hin⟩ := (holds_graft target t).exists_of_mem
    (List.mem_of_getElem? (getElem?_range'_add hk))
  obtain ⟨children, more, he', hs, rfl⟩ := hu.exists_entry
  rw [hget] at he'
  rw [Option.some.inj he'] at hc
  have hmem := hin.subset (List.mem_cons_of_mem _ (hs.mem_of_mem_roots hc))
  rwa [List.mem_range'_1, ← length_layout target.size t] at hmem

/-- A tree is copied node by node along its paths. -/
theorem isCopy_of_holds {source : Arena} {id : Nat} {t : Tree} {ids : List Nat}
    (h : source.Holds id t ids) (target : Arena) :
    IsCopy source id target t.paths (layout target.size t) := by
  have hcopy := holds_graft target t
  have hlength : t.paths.length = t.size := h.length_paths.trans h.length_eq
  refine ⟨fun p => ⟨fun hp => ?_, fun hp => ?_⟩, t.pairwise_paths, ?_, ?_, ?_,
    inside_layout target t⟩
  · obtain ⟨k, hk, rfl⟩ := List.mem_iff_getElem.mp hp
    rw [h.follow?_getElem hk (h.length_paths ▸ hk)]
    rfl
  · obtain ⟨i, hi⟩ := Option.isSome_iff_exists.mp hp
    exact h.mem_paths hi
  · rw [length_layout, hlength]
  · -- the same node of the tree stands at the end of the path and in the copy
    intro k p hp
    obtain ⟨hk, rfl⟩ := List.getElem?_eq_some_iff.mp hp
    have hk' : k < ids.length := h.length_paths ▸ hk
    obtain ⟨u, below, below', hu, hu'⟩ := h.exists_common hcopy (List.getElem?_eq_getElem hk')
      (getElem?_range'_add (hlength ▸ hk))
    obtain ⟨children, more, he, hs, -⟩ := hu.exists_entry
    obtain ⟨children', more', he', hs', -⟩ := hu'.exists_entry
    refine ⟨ids[k], _, children', h.follow?_getElem hk hk', he, ?_, ?_⟩
    · rwa [get?_graft] at he'
    · exact hs'.length_roots.trans hs.length_roots.symm
  · intro k p hp
    obtain ⟨hk, rfl⟩ := List.getElem?_eq_some_iff.mp hp
    have hk' : k < (List.range' target.size t.size).length := hcopy.length_paths ▸ hk
    have hend := hcopy.follow?_getElem hk hk'
    rwa [← List.getElem?_eq_getElem hk', getElem?_range'_add (hlength ▸ hk)] at hend

/-- **Whatever is grounded is copied entry by entry.** What is reached from it is
put behind the entries of the target, as grafting the tree there does: one entry
for each path in document order. The copy has the text of what was copied. -/
theorem exists_isCopy_of_isGrounded {source : Arena} {id : Nat} (h : source.IsGrounded id)
    (target : Arena) :
    ∃ t paths news, source.tree? id = some t ∧ target.graft t = ⟨target.entries ++ news⟩ ∧
      IsCopy source id target paths news ∧
      target.copyFrom? source id = some (target.size, ⟨target.entries ++ news⟩) ∧
      ∃ text, source.print? id = some text ∧
        (⟨target.entries ++ news⟩ : Arena).print? target.size = some text := by
  obtain ⟨t, ht⟩ := h.exists_tree?
  obtain ⟨ids, hids⟩ := exists_holds_of_treeWithin ht
  have hle : t.size ≤ (target.graft t).size := by
    rw [size_graft]
    exact Nat.le_add_left ..
  exact ⟨t, t.paths, layout target.size t, ht, rfl, isCopy_of_holds hids target, copyFrom?_eq ht,
    t.print, print?_eq ht, print?_eq ((holds_graft target t).treeWithin hle)⟩

/-- A list that names its only alternative twice. -/
def twin : Arena :=
  ⟨[⟨.root, .none, 0, [1, 1]⟩, ⟨.selector, .none, 0, [2]⟩, ⟨.className "a", .none, 0, []⟩]⟩

/-- The copy behind the list itself. -/
theorem exists_isCopy_of_isGrounded_twin :
    twin.IsGrounded 0 ∧ ∃ t paths news, twin.tree? 0 = some t ∧
      twin.graft t = ⟨twin.entries ++ news⟩ ∧ IsCopy twin 0 twin paths news ∧
      twin.copyFrom? twin 0 = some (3, ⟨twin.entries ++ news⟩) ∧
      ∃ text, twin.print? 0 = some text ∧ print? ⟨twin.entries ++ news⟩ 3 = some text :=
  have h : twin.IsGrounded 0 := isGrounded_of_increasing (by decide) (by decide)
  ⟨h, exists_isCopy_of_isGrounded h twin⟩

example : twin.copyFrom? twin 0 = some (3, ⟨twin.entries ++
    [⟨.root, .none, 0, [4, 6]⟩, ⟨.selector, .none, 0, [5]⟩, ⟨.className "a", .none, 0, []⟩,
      ⟨.selector, .none, 0, [7]⟩, ⟨.className "a", .none, 0, []⟩]⟩) := by
  decide

end Arena
end Selector
end StyleScope
