import TagHeap.Heap.Layout
import TagHeap.Proofs.Gaps
import TagHeap.Proofs.Inspecting

/-!
# Auditing a heap in shape

A heap in shape is well-formed, and its lists run through the members of their classes. So its
audit succeeds and returns the summary of its blocks (`Heap.audit_eq_ok`), and the audits that a heap
runs on itself never stop it and change nothing. An audit reads tags for what they say, so all of
this is proved of memory that can be read (`Legible.wellFormed`); the way back needs the lists to
count their own nodes (`WellFormed.legible`).

The walk along the blocks, without the checks, is how a layout is read off a heap: it finds the
blocks (`Heap.layout_eq_ok`).
-/

namespace TagHeap

open Layout

variable {n : Nat} [HasClass n]

/-- Every free block is in one class. -/
theorem Layout.sum_length_members (xs : List Extent) :
    ∑ c : Fin n, (members c xs).length = (xs.filter (!·.allocated)).length := by
  induction xs with
  | nil => simp [members]
  | cons x xs ih =>
      cases hx : x.allocated with
      | true => simp only [members_cons_of_allocated hx, ih, List.filter_cons, hx, Bool.not_true,
          Bool.false_eq_true, if_false]
      | false =>
          -- The block counts in its own class and in no other.
          have hone : ∀ c : Fin n, (members c (x :: xs)).length =
              (if Index.classOf n x.size = c then 1 else 0) + (members c xs).length := by
            intro c
            by_cases hc : Index.classOf n x.size = c
            · rw [if_pos hc, ← hc, members_cons_of_free hx, List.length_cons, Nat.add_comm]
            · rw [if_neg hc, members_cons_of_ne hc, Nat.zero_add]
          simp only [hone, Finset.sum_add_distrib, Finset.sum_ite_eq, Finset.mem_univ, if_true, ih,
            List.filter_cons, hx, Bool.not_false, List.length_cons]
          omega

/-- The lists count every free block once. -/
theorem Index.Lists.sum_length {index : Index n} {m : Memory} {xs : List Extent}
    (hl : index.Lists m xs) : ∑ c, (index.list c).length = (xs.filter (!·.allocated)).length := by
  rw [← sum_length_members (n := n)]
  exact Finset.sum_congr rfl fun c _ => (hl c).length

theorem Index.length_eq_ok {index : Index n} {m : Memory} {xs : List Extent}
    (hl : index.Lists m xs) (hfits : (xs.filter (!·.allocated)).length < Size.bound) :
    index.length = .ok (xs.filter (!·.allocated)).length := by
  rw [← hl.sum_length] at hfits ⊢
  exact length_eq_sum hfits

/-- A memory without a gap that can be read is well-formed. The list of a class runs through the
members of the class. -/
theorem Legible.wellFormed {m : Memory} {index : Index n} {p : Block} {xs : List Extent}
    (g : Legible m index p xs m.size 0 []) :
    WellFormed m index p xs fun c => members c xs := by
  have hl := g.listed
  have hp := g.around.placed
  have hr := g.readable
  rw [List.append_nil] at hl hp hr
  exact
    { prologue_le := g.around.prologue_le
      header := hr.header
      footer := hr.footer
      tiles := g.around.before
      aligned := fun x hx => g.around.mem_offset_mod (by rwa [List.append_nil])
      marked := hr.marked
      epilogue := hr.epilogue
      coalesced := g.around.coalesced_pre
      head := fun c => (hl c).head
      threads := fun c => (hl c).threads
      ascending := fun c => (hp.nodes c).increasing
      members := fun c o ho => mem_members.1 ho
      listed := fun x hx hfree => ⟨_, mem_members.2 ⟨x, hx, hfree, rfl, rfl⟩⟩
      counted := hl.sum_length }

/-- The converse needs that every list counts its own nodes, and not only all of them together. -/
theorem WellFormed.legible {m : Memory} {index : Index n} {p : Block} {xs : List Extent}
    {nodes : Fin n → List Nat} (h : WellFormed m index p xs nodes) (hp : p.offset % 8 = 0)
    (short : m.size ≤ Region.maxSize) (hcount : ∀ c, (index.list c).length = (nodes c).length) :
    Legible m index p xs m.size 0 [] where
  around :=
    { aligned := hp
      before := h.tiles
      after := rfl
      gap := rfl
      coalesced_pre := h.coalesced
      coalesced_post := .nil
      short }
  readable := by
    rw [List.append_nil]
    exact ⟨h.header, h.footer, h.epilogue, h.marked⟩
  listed := by
    rw [List.append_nil]
    intro c
    rw [← h.nodes_eq_members c]
    exact ⟨h.head c, hcount c, h.threads c⟩

/-- A memory in order is well-formed. -/
theorem InOrder.wellFormed {m : Memory} {index : Index n} {p : Block} {xs : List Extent}
    (g : InOrder m index p xs m.size 0 []) :
    WellFormed m index p xs fun c => members c xs :=
  g.legible.wellFormed

namespace Heap

open Audit

variable {h : Heap n} {p : Block} {xs : List Extent}

namespace Ajar

theorem lists (g : h.Ajar p xs h.memory.size 0 []) : h.index.Lists h.memory xs := by
  have hl := g.legible.listed
  rwa [List.append_nil] at hl

/-- The lists of a heap that can be read have fewer nodes than a size can count. -/
theorem sum_length_lt (g : h.Ajar p xs h.memory.size 0 []) :
    ∑ c, (h.index.list c).length < Size.bound := by
  have short := size_lt_bound g.legible.size_lt
  have hfewer := List.length_filter_le (!·.allocated) xs
  have hblocks := g.around.before.length_le
  rw [g.lists.sum_length]
  omega

/-- The lists of a heap that can be read count its free blocks. -/
theorem freeBlocks_eq_ok (g : h.Ajar p xs h.memory.size 0 []) :
    h.freeBlocks = .ok (Summary.ofLayout xs).freeBlocks := by
  rw [Summary.freeBlocks_ofLayout, ← g.lists.sum_length]
  exact Index.length_eq_sum g.sum_length_lt

/-- The audit of a heap that can be read succeeds and returns the summary of its layout. -/
theorem audit_eq_ok (g : h.Ajar p xs h.memory.size 0 []) : h.audit = .ok (Summary.ofLayout xs) := by
  have hdecides := audit_decides g.prologue g.around.short g.sum_length_lt
  refine (hdecides.ok_iff _).2 ?_
  exact ⟨xs, _, g.legible.wellFormed, rfl⟩

end Ajar

theorem Shaped.lists (g : h.Shaped p xs) : h.index.Lists h.memory xs := (Gapped.ajar g).lists

theorem Shaped.sum_length_lt (g : h.Shaped p xs) :
    ∑ c, (h.index.list c).length < Size.bound :=
  (Gapped.ajar g).sum_length_lt

/-- The lists of a heap in shape count its free blocks. -/
theorem freeBlocks_eq_ok (g : h.Shaped p xs) :
    h.freeBlocks = .ok (Summary.ofLayout xs).freeBlocks :=
  (Gapped.ajar g).freeBlocks_eq_ok

/-- **THE AUDIT** of a heap in shape succeeds and returns the summary of its layout. -/
theorem audit_eq_ok (g : h.Shaped p xs) : h.audit = .ok (Summary.ofLayout xs) :=
  (Gapped.ajar g).audit_eq_ok

/-- The audits that a heap runs on itself neither stop it nor change it. -/
theorem selfAudit_eq_ok (g : h.Shaped p xs) (journal : List Event) :
    Operation.selfAudit ⟨h, journal⟩ = .ok () ⟨h, journal⟩ := by
  rw [Operation.selfAudit, Step.bind_of_ok (Operation.heap_eq_ok _)]
  split
  · rw [Step.bind_of_ok (Step.lift_of_ok (audit_eq_ok g) _)]
    rfl
  · rfl

/-! ## The layout -/

private theorem follow_eq_ok {m : Memory} {index : Index n} {b : Block}
    (g : Legible m index p xs m.size 0 []) {ys : List Extent} (hys : ys ⊆ xs)
    (ht : Tiles b.offset ys m.size) (h8 : 8 ≤ b.offset) {count : Nat} (hc : ys.length < count) :
    Layout.follow m count b = .ok ys := by
  have short := size_lt_bound g.size_lt
  induction ys generalizing b count with
  | nil =>
      obtain ⟨count, rfl⟩ := Nat.exists_eq_succ_of_ne_zero (Nat.ne_of_gt hc)
      have hend : b.offset = m.size := ht
      have htag : b.tag m = .ok .epilogue := by
        rw [Block.tag_eq_ok short (by omega) (by omega), hend, g.readable.epilogue]
      rw [Layout.follow, bind_of_ok htag, if_pos Tag.size_epilogue]
      rfl
  | cons y ys ih =>
      obtain ⟨count, rfl⟩ := Nat.exists_eq_succ_of_ne_zero (Nat.ne_of_gt (Nat.zero_lt_of_lt hc))
      obtain ⟨hb, hlarge, -, hrest⟩ := ht
      have hmem : y ∈ xs ++ [] := List.mem_append_left _ (hys (List.mem_cons_self ..))
      have hin := g.around.within hmem
      obtain ⟨t, htag, hsize, hu⟩ := (g.readable.marked y hmem).tag_eq_ok hin hb.symm
      have hne : t.size ≠ 0 := by
        rw [hsize]
        simp only [Size.minBlock] at hlarge
        omega
      have hstop := hin.stop_le
      obtain ⟨w, hnext, hw⟩ := Block.exists_next (g.size_eq_ok hmem hb.symm) (by omega)
      have hrec : Layout.follow m count w = .ok ys :=
        ih (fun z hz => hys (List.mem_cons_of_mem _ hz)) (by rw [hw]; exact hrest) (by omega)
          (Nat.lt_of_succ_lt_succ hc)
      rw [Layout.follow, bind_of_ok htag, if_neg hne, bind_of_ok hnext, bind_of_ok hrec, hsize, hu,
        ← hb]
      rfl

/-- The layout that is read off a heap is the list of its blocks, if their tags can be read. -/
theorem Ajar.layout_eq_ok (g : h.Ajar p xs h.memory.size 0 []) : h.layout = .ok xs := by
  have hl := g.legible
  have hp := hl.around.prologue_le
  have hlo := hl.around.bounds.1
  have short := size_lt_bound hl.size_lt
  have htag : p.tag h.memory = .ok (.pack 8 true) := by
    rw [Block.tag_eq_ok short (by omega) (by omega), hl.readable.header]
  have hnext := Block.next_eq_ok htag (by rw [Tag.size_sentinel]; omega)
  have hlen := hl.around.before.length_le
  rw [layout, g.prologue]
  dsimp only
  rw [bind_of_ok hnext]
  exact follow_eq_ok hl (fun _ hy => hy) hl.around.before (by dsimp only; omega)
    (by rw [FreeList.patience]; omega)

/-- **THE LAYOUT** that is read off a heap in shape is the list of its blocks. -/
theorem layout_eq_ok (g : h.Shaped p xs) : h.layout = .ok xs :=
  (Gapped.ajar g).layout_eq_ok

/-- A heap has only one layout. -/
theorem Shaped.unique {q : Block} {ys : List Extent} (g : h.Shaped p xs) (g' : h.Shaped q ys) :
    p = q ∧ xs = ys :=
  ⟨Option.some.inj (g.prologue.symm.trans g'.prologue),
    Except.ok.inj ((layout_eq_ok g).symm.trans (layout_eq_ok g'))⟩

end Heap

end TagHeap
