import TagHeap.Proofs.Supplying

/-!
# Reuse

Space that was given back can be handed out again. Blocks of a client that lie next to each other
are one free block when all of them have been given back, whichever went first, because every order
leaves the layout in which they were released at once and merged. That free block takes in whatever
is free on its two sides, so it is at least as large as the blocks were together
(`Layout.hasRoom_merge_run`), and the search for a free block misses none: a request that the blocks
have room for is served, and the heap does not grow for it (`Reachable.freed_space_reusable`).
-/

namespace TagHeap

open Layout Operation

namespace Layout

variable {need lo hi : Nat} {xs pre run post : List Extent} {x : Extent} {os : List Nat}

theorem HasRoom.append_right (h : HasRoom need run) (pre post : List Extent) :
    HasRoom need (pre ++ run ++ post) := by
  obtain ⟨x, hx, hfree, hle⟩ := h
  exact ⟨x, List.mem_append_left _ (List.mem_append_right _ hx), hfree, hle⟩

/-- A block that is put in front of a layout takes no room away. -/
theorem HasRoom.fuse (h : HasRoom need (x :: xs)) : HasRoom need (Layout.fuse x xs) := by
  obtain ⟨z, hz, hfree, hle⟩ := h
  cases xs with
  | nil => exact ⟨z, hz, hfree, hle⟩
  | cons y ys =>
      rw [Layout.fuse]
      split
      · exact ⟨z, hz, hfree, hle⟩
      · rcases List.mem_cons.mp hz with rfl | hz
        · exact ⟨_, List.mem_cons_self .., rfl, Nat.le_trans hle (Nat.le_add_right ..)⟩
        rcases List.mem_cons.mp hz with rfl | hz
        · exact ⟨_, List.mem_cons_self .., rfl, Nat.le_trans hle (Nat.le_add_left ..)⟩
        · exact ⟨z, List.mem_cons_of_mem _ hz, hfree, hle⟩

/-- Merging takes no room away. -/
theorem HasRoom.merge (h : HasRoom need xs) : HasRoom need (Layout.merge xs) := by
  induction xs with
  | nil => exact h
  | cons x xs ih =>
      rw [merge_cons]
      refine HasRoom.fuse ?_
      obtain ⟨z, hz, hfree, hle⟩ := h
      rcases List.mem_cons.mp hz with rfl | hz
      · exact ⟨z, List.mem_cons_self .., hfree, hle⟩
      · obtain ⟨w, hw, hwfree, hwle⟩ := ih ⟨z, hz, hfree, hle⟩
        exact ⟨w, List.mem_cons_of_mem _ hw, hwfree, hwle⟩

/-- **FREE BLOCKS THAT TOUCH** have room for all of their bytes together once they are merged,
whatever stands around them. -/
theorem hasRoom_merge_run (h : Tiles lo run hi) (hfree : ∀ x ∈ run, x.allocated = false)
    (hne : run ≠ []) (pre post : List Extent) :
    HasRoom (hi - lo) (Layout.merge (pre ++ run ++ post)) := by
  have hone : Layout.merge run = [⟨lo, hi - lo, false⟩] := by
    rw [merge_of_free h hfree, if_neg hne]
  rw [← merge_append_merge_append, hone]
  have hroom : HasRoom (hi - lo) [⟨lo, hi - lo, false⟩] :=
    ⟨_, List.mem_singleton_self _, rfl, Nat.le_refl _⟩
  exact (hroom.append_right pre post).merge

/-- Blocks that have touched leave room for all of their bytes together when they are released. -/
theorem hasRoom_release (h : Tiles lo run hi) (hos : ∀ x ∈ run, x.offset ∈ os) (hne : run ≠ [])
    (pre post : List Extent) :
    HasRoom (hi - lo) (Layout.merge (release os (pre ++ run ++ post))) := by
  have hrun : release os run ≠ [] := fun hnil => hne (List.map_eq_nil_iff.1 hnil)
  have happend : release os (pre ++ run ++ post) =
      release os pre ++ release os run ++ release os post := by
    simp only [release, List.map_append]
  rw [happend]
  exact hasRoom_merge_run (h.release os) (free_of_mem_release fun x hx _ => hos x hx) hrun _ _

end Layout

variable {n : Nat} [HasClass n] {h : Heap n} {live : Live} {bs : List Block} {size total : Nat}

/-- A heap with room for `total` bytes serves a request that they hold, and does not grow for it. -/
theorem Heap.Shaped.allocate_within {p : Block} {xs : List Extent} (g : h.Shaped p xs)
    (hroom : HasRoom total xs) (hpos : 1 ≤ size) (hle : size ≤ total - 8) :
    h.Supplies 0 ((allocate size).on h) := by
  obtain ⟨x, hx, hfree, hlarge⟩ := hroom
  have hin : x.Within h.memory := g.inOrder.within (List.mem_append_left _ hx)
  have hr : size + Size.overhead ≤ x.size := by
    simp only [Size.overhead]
    omega
  obtain ⟨need, hneed, hfits⟩ := Size.exists_ofRequest?_le hin.large hin.aligned hin.size_le hr
  exact (g.allocate_supplies (Nat.ne_of_gt hpos) hneed).1 ⟨x, hx, hfree, hfits⟩

/-- The blocks lie one behind the other, in whatever order they are named, and they take up `total`
bytes together. -/
def Heap.Adjoin (h : Heap n) (bs : List Block) (total : Nat) : Prop :=
  ∃ pre run post, h.layout = .ok (pre ++ run ++ post) ∧
    (run.map (·.offset)).Perm (bs.map (·.offset)) ∧ (run.map (·.size)).sum = total

/-- Blocks that lie next to each other have different offsets, so none of them is named twice. -/
theorem Heap.Shaped.nodup_of_perm {p : Block} {pre run post : List Extent}
    (g : h.Shaped p (pre ++ run ++ post))
    (hperm : (run.map (·.offset)).Perm (bs.map (·.offset))) : bs.Nodup := by
  have hordered : run.Pairwise Extent.Before :=
    g.around.before.ordered.sublist
      ((List.sublist_append_right pre run).trans (List.sublist_append_left ..))
  refine .of_map (·.offset) (hperm.nodup (List.pairwise_map.2 ?_))
  refine hordered.imp_of_mem fun {x y} hx _ (hxy : x.offset + x.size ≤ y.offset) => ?_
  have hin : x.Within h.memory :=
    g.inOrder.within (by simp only [List.append_nil, List.mem_append, hx, or_true, true_or])
  have hlarge : 16 ≤ x.size := hin.large
  omega

/-- **FREED SPACE CAN BE REUSED.** When blocks of the client that lie next to each other were all
given back, in any order, a request that fits into them is served, and the heap has not grown. -/
theorem Reachable.freed_space_reusable (hr : Reachable h live)
    (hlive : ∀ b ∈ bs, ∃ size, (b, size) ∈ live) (hadjoin : h.Adjoin bs total) (hpos : 1 ≤ size)
    (hle : size ≤ total - 8) :
    let freed := (Heap.freeEach bs).on h
    let served := (Heap.allocate size).on freed.state
    freed.result = .ok () ∧ freed.state.size = h.size ∧
      (∃ b, served.result = .ok (some b)) ∧ served.state.size = h.size := by
  intro freed served
  obtain ⟨pre, run, post, hlayout, hperm, rfl⟩ := hadjoin
  have hne : run ≠ [] := by
    rintro rfl
    exact absurd hle (Nat.not_le.2 hpos)
  have hbs : bs ≠ [] := by
    rintro rfl
    exact hne (List.map_eq_nil_iff.1 hperm.eq_nil)
  obtain ⟨b, hb⟩ := List.exists_mem_of_ne_nil bs hbs
  obtain ⟨old, hold⟩ := hlive b hb
  obtain ⟨p, xs, g, -⟩ := hr.serves.shaped_of_mem hold
  obtain rfl := Except.ok.inj ((Heap.layout_eq_ok g).symm.trans hlayout)
  -- Whatever the order, the blocks are released at once, and what they leave is merged.
  obtain ⟨o, ho⟩ := hr.serves.exists_outline
  obtain ⟨hresult, hafter⟩ :=
    g.freeEach_on ho hr.serves (g.nodup_of_perm hperm) hlive (.refl bs)
  have g' : freed.state.Shaped p
    (merge (release (bs.map (·.offset)) (pre ++ run ++ post))) := hafter.content
  have hsize : freed.state.size = h.size := by
    rw [g'.size_eq, sum_merge, sum_release, g.size_eq]
  -- So one free block takes in all of their bytes.
  have htiles : Tiles (p.offset + 8) (pre ++ run ++ post) h.size := g.around.before
  obtain ⟨hi, hfront, -⟩ := tiles_append.1 htiles
  obtain ⟨lo, -, hrun⟩ := tiles_append.1 hfront
  have hroom := hasRoom_release hrun
    (fun x hx => hperm.subset (List.mem_map_of_mem hx)) hne pre post
  have htotal : (run.map (·.size)).sum = hi - lo := by
    rw [← hrun.sum, Nat.add_sub_cancel_left]
  rw [htotal] at hle
  obtain ⟨hserved, hkept⟩ := g'.allocate_within hroom hpos hle
  exact ⟨hresult, hsize, hserved, hkept.trans hsize⟩

/-- A heap that two blocks in use fill to its last byte, in a region that grants no more. -/
def fullHeap : Heap 4 :=
  ((Heap.allocate 24).on
    ((Heap.allocate 24).on (.new (.buffer 80) (Settings.standard.withChunkSize 64))).state).state

theorem reachable_fullHeap :
    Reachable fullHeap [(⟨16, by decide⟩, 24), (⟨48, by decide⟩, 24)] := by
  have fresh : Reachable (.new (.buffer 80) (Settings.standard.withChunkSize 64) : Heap 4) [] :=
    .buffer 80 _
  have first : Reachable ((Heap.allocate 24).on
      (.new (.buffer 80) (Settings.standard.withChunkSize 64) : Heap 4)).state
      [(⟨48, by decide⟩, 24)] :=
    fresh.step (show Request.Allowed (.allocate 24) _ _ from ⟨nofun, trivial⟩) rfl
  exact first.step (show Request.Allowed (.allocate 24) _ _ from ⟨nofun, trivial⟩) rfl

/-- The two blocks are given back, the upper one first, and make room for one block of all their
bytes. -/
theorem freed_space_reusable_fullHeap :
    (∃ b, ((Heap.allocate 56).on
        ((Heap.freeEach [⟨48, by decide⟩, ⟨16, by decide⟩]).on fullHeap).state).result =
          .ok (some b)) ∧
      ((Heap.allocate 56).on
          ((Heap.freeEach [⟨48, by decide⟩, ⟨16, by decide⟩]).on fullHeap).state).state.size =
        80 := by
  have hadjoin : fullHeap.Adjoin [⟨48, by decide⟩, ⟨16, by decide⟩] 64 :=
    ⟨[], [⟨16, 32, true⟩, ⟨48, 32, true⟩], [], rfl, .swap .., rfl⟩
  have hlive : ∀ b ∈ [(⟨48, by decide⟩ : Block), ⟨16, by decide⟩],
      ∃ size, (b, size) ∈ [((⟨16, by decide⟩ : Block), 24), (⟨48, by decide⟩, 24)] := by
    intro b hb
    rcases List.mem_cons.mp hb with rfl | hb
    · exact ⟨24, .tail _ (.head _)⟩
    · obtain rfl := List.mem_singleton.1 hb
      exact ⟨24, .head _⟩
  obtain ⟨-, -, hserved, hkept⟩ :=
    reachable_fullHeap.freed_space_reusable hlive hadjoin (show 1 ≤ 56 by decide) (by decide)
  exact ⟨hserved, hkept⟩

end TagHeap
