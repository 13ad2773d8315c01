import TagHeap.Index
import TagHeap.Proofs.Threads
import TagHeap.Proofs.Tiling

/-!
# The index of a layout

`index.Lists m xs` says that an index holds exactly the free blocks of the layout `xs`: the list of
each class runs through the blocks of that class, in the order in which they lie. The blocks in use
take no part in it, so the same layout with another block in use is listed by the same index.

Putting a block on its list and taking one off it change the layout that is listed by that one
block. Only link words of free blocks are written, and the lists of the other classes do not notice,
because the nodes of two classes are different blocks and the links of different blocks are
disjoint.
-/

namespace TagHeap

variable {n : Nat} [HasClass n]

namespace Layout

/-- The places of the free blocks of a class. -/
def members (c : Fin n) (xs : List Extent) : List Nat :=
  (xs.filter fun x => !x.allocated && (Index.classOf n x.size == c)).map (·.offset)

theorem members_append (c : Fin n) (xs ys : List Extent) :
    members c (xs ++ ys) = members c xs ++ members c ys := by
  rw [members, List.filter_append, List.map_append]
  rfl

theorem mem_members {c : Fin n} {xs : List Extent} {o : Nat} :
    o ∈ members c xs ↔
      ∃ x ∈ xs, x.allocated = false ∧ Index.classOf n x.size = c ∧ x.offset = o := by
  simp [members, and_assoc]

/-- A free block is a member of its class. -/
theorem members_cons_of_free {x : Extent} (hx : x.allocated = false) (xs : List Extent) :
    members (Index.classOf n x.size) (x :: xs) =
      x.offset :: members (Index.classOf n x.size) xs := by
  simp [members, hx]

/-- A block is no member of a class that is not its own. -/
theorem members_cons_of_ne {c : Fin n} {x : Extent} (hc : Index.classOf n x.size ≠ c)
    (xs : List Extent) : members c (x :: xs) = members c xs := by
  simp [members, hc]

/-- A block in use is no member of any class. -/
theorem members_cons_of_allocated {c : Fin n} {x : Extent} (hx : x.allocated = true)
    (xs : List Extent) : members c (x :: xs) = members c xs := by
  simp [members, hx]

/-- The place is in no link word of a free block of the layout. -/
def OffLinks (xs : List Extent) (i : Nat) : Prop :=
  ∀ x ∈ xs, x.allocated = false → i < x.offset ∨ x.offset + 8 ≤ i

/-- With fewer blocks there are fewer links. -/
theorem OffLinks.drop {xs ys : List Extent} {y : Extent} {i : Nat}
    (h : OffLinks (xs ++ y :: ys) i) : OffLinks (xs ++ ys) i :=
  fun x hx => h x (((List.Sublist.refl _).middle y).subset hx)

/-- A block in use has no links. -/
theorem OffLinks.add_used {xs ys : List Extent} {y : Extent} {i : Nat}
    (h : OffLinks (xs ++ ys) i) (hy : y.allocated = true) : OffLinks (xs ++ [y] ++ ys) i := by
  intro x hx hfree
  rw [List.append_assoc, List.mem_append, List.singleton_append, List.mem_cons] at hx
  rcases hx with hx | rfl | hx
  · exact h x (List.mem_append_left _ hx) hfree
  · rw [hy] at hfree
    cases hfree
  · exact h x (List.mem_append_right _ hx) hfree

/-- The blocks lie in the memory, in ascending order and without overlap. -/
structure Placed (m : Memory) (xs : List Extent) : Prop where
  ordered : xs.Pairwise Extent.Before
  inside : ∀ x ∈ xs, 0 < x.offset ∧ Size.minBlock ≤ x.size ∧ x.offset + x.size ≤ m.size

namespace Placed

variable {m : Memory} {xs : List Extent}

/-- The members of a class are places of nodes. -/
theorem nodes (h : Placed m xs) (c : Fin n) : Nodes m (members c xs) := by
  constructor
  · refine List.pairwise_map.2 ((h.ordered.filter _).imp_of_mem ?_)
    intro x y hx _ hxy
    have hx := (h.inside x (List.mem_filter.1 hx).1).2.1
    have hxy : x.offset + x.size ≤ y.offset := hxy
    simp only [Size.minBlock] at hx
    omega
  · intro o ho
    obtain ⟨x, hx, -, -, rfl⟩ := mem_members.1 ho
    obtain ⟨h1, h2, h3⟩ := h.inside x hx
    simp only [Size.minBlock] at h2
    omega

/-- The links of two free blocks are disjoint. -/
theorem links_disjoint (h : Placed m xs) {x y : Extent} (hx : x ∈ xs) (hy : y ∈ xs)
    (hne : x ≠ y) : x.offset + 8 ≤ y.offset ∨ y.offset + 8 ≤ x.offset := by
  have hxs := (h.inside x hx).2.1
  have hys := (h.inside y hy).2.1
  simp only [Size.minBlock] at hxs hys
  rcases Extent.before_or_before h.ordered hx hy hne with hb | hb
  · have : x.offset + x.size ≤ y.offset := hb
    omega
  · have : y.offset + y.size ≤ x.offset := hb
    omega

theorem sublist {ys : List Extent} (h : Placed m xs) (hs : ys.Sublist xs) : Placed m ys :=
  ⟨h.ordered.sublist hs, fun x hx => h.inside x (hs.subset hx)⟩

end Placed

end Layout

namespace Index

open Layout

/-- The index holds exactly the free blocks of the layout, each on the list of its class. -/
def Lists (index : Index n) (m : Memory) (xs : List Extent) : Prop :=
  ∀ c : Fin n, (index.list c).Threaded m (members c xs)

variable {index : Index n} {m m' : Memory} {xs as bs : List Extent} {y : Extent} {b : Block}

/-- An index lives in the link words of the free blocks. -/
theorem Lists.congr (h : index.Lists m xs)
    (hk : ∀ x ∈ xs, x.allocated = false → ∀ i, x.offset ≤ i → i < x.offset + 8 →
      m'.byte i = m.byte i) : index.Lists m' xs := by
  intro c
  refine (h c).congr fun o ho => ?_
  obtain ⟨x, hx, hfree, -, rfl⟩ := mem_members.1 ho
  exact hk x hx hfree

theorem lists_empty : (empty : Index n).Lists m [] := by
  intro c
  rw [list_empty]
  exact ⟨rfl, rfl, trivial⟩

/-- A block in use does not matter to an index. -/
theorem lists_cons_of_allocated (hy : y.allocated = true) :
    index.Lists m (as ++ y :: bs) ↔ index.Lists m (as ++ bs) := by
  refine forall_congr' fun c => ?_
  rw [members_append, members_append, members_cons_of_allocated hy]

/-- The links of the members of a class are clear of the links of another one. -/
private theorem clear_of_class (hp : Placed m xs) {c d : Fin n} (hcd : c ≠ d) {o i : Nat}
    (ho : o ∈ members d xs) (hi : o ≤ i) (hi' : i < o + 8) :
    ∀ o' ∈ members c xs, i < o' ∨ o' + 8 ≤ i := by
  obtain ⟨x, hx, -, hxd, rfl⟩ := mem_members.1 ho
  intro o' ho'
  obtain ⟨z, hz, -, hzc, rfl⟩ := mem_members.1 ho'
  have hne : x ≠ z := by
    rintro rfl
    exact hcd (hzc.symm.trans hxd)
  have := hp.links_disjoint hx hz hne
  omega

/-- Replacing the list of one class, when nothing but links of that class was written. -/
private theorem lists_setList {c : Fin n} {list : FreeList} {ys : List Extent}
    (hl : index.Lists m xs) (hp : Placed m ys) (hc : list.Threaded m' (members c ys))
    (hother : ∀ d, d ≠ c → members d xs = members d ys)
    (hm : ∀ i, (∀ o ∈ members c ys, i < o ∨ o + 8 ≤ i) → m'.byte i = m.byte i) :
    (index.setList c list).Lists m' ys := by
  intro d
  rw [list_setList]
  by_cases hd : c = d
  · subst hd
    rw [if_pos rfl]
    exact hc
  · rw [if_neg hd, ← hother d (Ne.symm hd)]
    refine (hl d).congr fun o ho i hi hi' => hm i ?_
    rw [hother d (Ne.symm hd)] at ho
    exact clear_of_class hp hd ho hi hi'

private theorem offLinks_members {ys : List Extent} {i : Nat} (h : OffLinks ys i) (c : Fin n) :
    ∀ o ∈ members c ys, i < o ∨ o + 8 ≤ i := by
  intro o ho
  obtain ⟨x, hx, hfree, -, rfl⟩ := mem_members.1 ho
  exact h x hx hfree

/-- **TAKING OFF.** Removing a free block succeeds and leaves the index of the other blocks. -/
theorem remove_ensures (hl : index.Lists m (as ++ y :: bs)) (hp : Placed m (as ++ y :: bs))
    (fits : m.size < Size.wordBound) (hy : y.allocated = false) (hb : b.offset = y.offset)
    (hs : b.size m = .ok y.size) :
    (index.remove b).Ensures m fun index' m' =>
      index'.Lists m' (as ++ bs) ∧ m.Agrees (OffLinks (as ++ bs)) m' := by
  have hp' : Placed m (as ++ bs) := hp.sublist ((List.Sublist.refl _).middle y)
  have hmem : members (classOf n y.size) (as ++ y :: bs) =
      members (classOf n y.size) as ++ b.offset :: members (classOf n y.size) bs := by
    rw [members_append, members_cons_of_free hy, hb]
  have ht := hl (classOf n y.size)
  have hn := hp.nodes (classOf n y.size)
  rw [hmem] at ht hn
  refine .inspect hs (.bind (FreeList.remove_ensures ht hn (size_lt_bound fits)
    (hn.low fits)) ?_)
  rintro list' m' ⟨ht', hm⟩
  rw [← members_append] at ht'
  have kept : ∀ i, (∀ o ∈ members (classOf n y.size) (as ++ bs), i < o ∨ o + 8 ≤ i) →
      m'.byte i = m.byte i := by
    intro i hi
    refine hm.byte i (clearOf_of_forall ?_)
    rwa [← members_append]
  refine .pure ⟨lists_setList hl hp' ht' (fun d hd => ?_) kept, hm.size, fun i hi => ?_⟩
  · rw [members_append, members_append, members_cons_of_ne (Ne.symm hd)]
  · exact kept i (offLinks_members hi _)

/-- **PUTTING ON.** Adding a free block at its place succeeds and gives the index with that block.
-/
theorem insert_ensures (hl : index.Lists m (as ++ bs)) (hp : Placed m (as ++ y :: bs))
    (fits : m.size < Size.wordBound) (hy : y.allocated = false) (hb : b.offset = y.offset)
    (hs : b.size m = .ok y.size) :
    (index.insert b).Ensures m fun index' m' =>
      index'.Lists m' (as ++ y :: bs) ∧ m.Agrees (OffLinks (as ++ y :: bs)) m' := by
  have hmem : members (classOf n y.size) (as ++ y :: bs) =
      members (classOf n y.size) as ++ b.offset :: members (classOf n y.size) bs := by
    rw [members_append, members_cons_of_free hy, hb]
  have ht := hl (classOf n y.size)
  have hn := hp.nodes (classOf n y.size)
  rw [members_append] at ht
  rw [hmem] at hn
  refine .inspect hs (.bind (FreeList.insert_ensures ht hn (size_lt_bound fits)
    (hn.low fits)) ?_)
  rintro list' m' ⟨ht', hm⟩
  rw [← hmem] at ht'
  have kept : ∀ i, (∀ o ∈ members (classOf n y.size) (as ++ y :: bs), i < o ∨ o + 8 ≤ i) →
      m'.byte i = m.byte i := by
    intro i hi
    rw [hmem] at hi
    refine hm.byte i ⟨hi b.offset (by simp), clearOf_of_forall fun o ho => hi o ?_⟩
    rcases List.mem_append.mp ho with ho | ho
    · exact List.mem_append_left _ ho
    · exact List.mem_append_right _ (List.mem_cons_of_mem _ ho)
  refine .pure ⟨lists_setList hl hp ht' (fun d hd => ?_) kept, hm.size, fun i hi => ?_⟩
  · rw [members_append, members_append, members_cons_of_ne (Ne.symm hd)]
  · exact kept i (offLinks_members hi _)

end Index

end TagHeap
