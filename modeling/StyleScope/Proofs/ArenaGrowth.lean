/-
# How an arena grows

A tree that is built in an arena from its nodes up need not be laid out in
order, and entries that were dropped on the way stay behind. `Arena.Gains` says
what is left to rely on: the old entries are as they were, and the new trees
take up new entries, each of them once. What was built in turn can be put side
by side or under a new node, and the text around a new tree can be changed.

Key definitions: `Selector.Arena.Gains`.
Key theorems: `Selector.Arena.Gains.append`, `Selector.Arena.Gains.node`,
`Selector.Arena.Gains.modify?`.
-/
import StyleScope.Proofs.ArenaTrees

namespace StyleScope
namespace Selector
namespace Arena

/-! ### Changed entries -/

section Change

variable {a b : Arena} {id : Nat} {f : Entry → Entry}

theorem get?_of_modify? (h : a.modify? id f = some b) :
    b.get? id = (a.get? id).map f ∧ (∀ i, i ≠ id → b.get? i = a.get? i) ∧ b.size = a.size := by
  obtain ⟨e, he, rfl⟩ := Option.map_eq_some_iff.mp h
  have hlt : id < a.entries.length := (List.getElem?_eq_some_iff.mp he).1
  refine ⟨?_, fun i hi => ?_, List.length_set⟩
  · rw [he, get?, List.getElem?_set_self hlt]
    rfl
  · exact List.getElem?_set_ne (Ne.symm hi)

theorem exists_modify? {e : Entry} (he : a.get? id = some e) (f : Entry → Entry) :
    ∃ b, a.modify? id f = some b :=
  ⟨_, Option.map_eq_some_iff.mpr ⟨e, he, rfl⟩⟩

/-- Where the text around a tree is changed, the tree with that text stands. -/
theorem Holds.modify?_spaces {t : Tree} {ids : List Nat} {g : Spaces → Spaces}
    (h : a.Holds id t ids) (hids : ids.Nodup)
    (hb : a.modify? id (fun e => { e with spaces := g e.spaces }) = some b) :
    b.Holds id (t.withSpaces (g t.spaces)) ids := by
  obtain ⟨hself, hother, -⟩ := get?_of_modify? hb
  cases h with
  | node he hs =>
    rw [he] at hself
    refine .node hself (hs.congr fun i hi => hother i ?_)
    rintro rfl
    exact (List.nodup_cons.mp hids).1 hi

/-- What does not take up the entry that is changed stays. -/
theorem HoldsEach.of_modify? {roots : List Nat} {ts : List Tree} {ids : List Nat}
    (h : a.HoldsEach roots ts ids) (hb : a.modify? id f = some b) (hid : id ∉ ids) :
    b.HoldsEach roots ts ids :=
  h.congr fun i hi => (get?_of_modify? hb).2.1 i fun heq => hid (heq ▸ hi)

end Change

theorem setChildren?_push (a : Arena) (kind : Kind) (spaces : Spaces) (start : Nat)
    (children : List Nat) :
    (a.push kind spaces start).setChildren? a.size children =
      some ⟨a.entries ++ [⟨kind, spaces, start, children⟩]⟩ :=
  modify?_eq _ _ _ _ rfl

theorem appendChild?_push (a : Arena) (kind : Kind) (spaces : Spaces) (start child : Nat) :
    (a.push kind spaces start).appendChild? a.size child =
      some ⟨a.entries ++ [⟨kind, spaces, start, [child]⟩]⟩ :=
  modify?_eq _ _ _ _ rfl

/-! ### New trees -/

/-- The arena `o` grows to `o'`, where the trees `ts` stand at the numbers `roots`:
the entries of `o` stay, and the trees take up others, each of them once. -/
structure Gains (o o' : Arena) (roots : List Nat) (ts : List Tree) : Prop where
  size_le : o.size ≤ o'.size
  get?_eq : ∀ i < o.size, o'.get? i = o.get? i
  holds : ∃ ids, o'.HoldsEach roots ts ids ∧ ids.Nodup ∧ ∀ i ∈ ids, o.size ≤ i

section Gains

variable {o m o' : Arena} {roots more : List Nat} {ts us : List Tree}

theorem gains_nil (o : Arena) : o.Gains o [] [] :=
  ⟨Nat.le_refl _, fun _ _ => rfl, [], .nil, .nil, fun _ hi => absurd hi List.not_mem_nil⟩

/-- Entries are added behind the others. -/
theorem get?_of_lt_size {a : Arena} {i : Nat} (hi : i < a.size) (news : List Entry) :
    (⟨a.entries ++ news⟩ : Arena).get? i = a.get? i :=
  List.getElem?_append_left hi

theorem gains_graft (o : Arena) (t : Tree) : o.Gains (o.graft t) [o.size] [t] where
  size_le := by
    rw [size_graft]
    exact Nat.le_add_right ..
  get?_eq i hi := get?_of_lt_size hi _
  holds := ⟨_, .singleton (holds_graft o t), List.nodup_range', fun i hi =>
    (List.mem_range'_1.mp hi).1⟩

theorem gains_push (o : Arena) (kind : Kind) (spaces : Spaces) (start : Nat) :
    o.Gains (o.push kind spaces start) [o.size] [.leaf kind spaces start] := by
  rw [push_eq_graft]
  exact gains_graft o _

theorem Gains.length_eq (h : o.Gains o' roots ts) : roots.length = ts.length := by
  obtain ⟨ids, hs, -⟩ := h.holds
  exact hs.length_roots

/-- Trees that are gained one after the other stand side by side. -/
theorem Gains.append (h : o.Gains m roots ts) (h' : m.Gains o' more us) :
    o.Gains o' (roots ++ more) (ts ++ us) := by
  obtain ⟨ids, hs, hids, hnew⟩ := h.holds
  obtain ⟨ids', hs', hids', hnew'⟩ := h'.holds
  have hold : ∀ i ∈ ids, i < m.size := fun i hi => hs.lt_size hi
  refine ⟨Nat.le_trans h.size_le h'.size_le, fun i hi => ?_, ids ++ ids', ?_, ?_, fun i hi => ?_⟩
  · rw [h'.get?_eq i (Nat.lt_of_lt_of_le hi h.size_le), h.get?_eq i hi]
  · exact (hs.congr fun i hi => h'.get?_eq i (hold i hi)).append hs'
  · refine List.nodup_append.mpr ⟨hids, hids', fun i hi j hj => ?_⟩
    exact Nat.ne_of_lt (Nat.lt_of_lt_of_le (hold i hi) (hnew' j hj))
  · rcases List.mem_append.mp hi with hi | hi
    · exact hnew i hi
    · exact Nat.le_trans h.size_le (hnew' i hi)

/-- What was gained can be put under a new node. -/
theorem Gains.node (h : o.Gains m roots ts) (kind : Kind) (spaces : Spaces) (start : Nat) :
    o.Gains ⟨m.entries ++ [⟨kind, spaces, start, roots⟩]⟩ [m.size]
      [.node kind spaces start ts] := by
  obtain ⟨ids, hs, hids, hnew⟩ := h.holds
  have hold : ∀ i ∈ ids, i < m.size := fun i hi => hs.lt_size hi
  have hself : (⟨m.entries ++ [⟨kind, spaces, start, roots⟩]⟩ : Arena).get? m.size =
      some ⟨kind, spaces, start, roots⟩ := List.getElem?_concat_length
  refine ⟨?_, fun i hi => ?_, m.size :: ids, .singleton (.node hself ?_), ?_, ?_⟩
  · exact Nat.le_trans h.size_le (by simp [size])
  · rw [get?_of_lt_size (Nat.lt_of_lt_of_le hi h.size_le), h.get?_eq i hi]
  · exact hs.congr fun i hi => get?_of_lt_size (hold i hi) _
  · exact List.nodup_cons.mpr ⟨fun hmem => Nat.lt_irrefl _ (hold _ hmem), hids⟩
  · rw [List.forall_mem_cons]
    exact ⟨h.size_le, hnew⟩

/-- The text around a tree that was gained can be changed. -/
theorem Gains.modify? {front back : List Nat} {id : Nat} {vs : List Tree} {t : Tree}
    (h : o.Gains o' (front ++ id :: back) (us ++ t :: vs)) (g : Spaces → Spaces)
    (hlength : front.length = us.length) :
    ∃ o'', o'.modify? id (fun e => { e with spaces := g e.spaces }) = some o'' ∧
      o.Gains o'' (front ++ id :: back) (us ++ t.withSpaces (g t.spaces) :: vs) := by
  obtain ⟨ids, hs, hids, hnew⟩ := h.holds
  obtain ⟨more, others, rfl, hfront, hrest⟩ := hs.of_append hlength
  cases hrest with
  | @cons _ _ _ _ ids others ht hback =>
    obtain ⟨children, below, he, -, -⟩ := ht.exists_entry
    obtain ⟨o'', ho''⟩ := exists_modify? he fun e => { e with spaces := g e.spaces }
    obtain ⟨-, hother, hsize⟩ := get?_of_modify? ho''
    -- the entry belongs to this tree alone, so the trees beside it stay
    have hid : id ∈ ids := ht.mem_self
    obtain ⟨-, hrest, hapart⟩ := List.nodup_append.mp hids
    obtain ⟨hids', -, hapart'⟩ := List.nodup_append.mp hrest
    have hleft : id ∉ more := fun hmem => hapart id hmem id (List.mem_append_left _ hid) rfl
    have hright : id ∉ others := fun hmem => hapart' id hid id hmem rfl
    have hge : o.size ≤ id := hnew id (List.mem_append_right _ (List.mem_append_left _ hid))
    refine ⟨o'', ho'', hsize ▸ h.size_le, fun i hi => ?_, more ++ (ids ++ others), ?_, hids, hnew⟩
    · rw [hother i (Nat.ne_of_lt (Nat.lt_of_lt_of_le hi hge)), h.get?_eq i hi]
    · exact (hfront.of_modify? ho'' hleft).append
        (.cons (ht.modify?_spaces hids' ho'') (hback.of_modify? ho'' hright))

/-- Of the trees that were gained, the ones behind can be left alone. -/
theorem Gains.take (h : o.Gains o' roots ts) (k : Nat) :
    o.Gains o' (roots.take k) (ts.take k) := by
  obtain ⟨ids, hs, hids, hnew⟩ := h.holds
  have hlength : (roots.take k).length = (ts.take k).length := by
    rw [List.length_take, List.length_take, hs.length_roots]
  rw [← List.take_append_drop k roots, ← List.take_append_drop k ts] at hs
  obtain ⟨more, others, rfl, hfront, -⟩ := hs.of_append hlength
  exact ⟨h.size_le, h.get?_eq, more, hfront, (List.nodup_append.mp hids).1, fun i hi =>
    hnew i (List.mem_append_left _ hi)⟩

end Gains

end Arena
end Selector
end StyleScope
