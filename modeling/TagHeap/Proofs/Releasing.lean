import TagHeap.Proofs.Guarantees
import TagHeap.Proofs.Transcripts

/-!
# Giving back many blocks

Every block that is given back is merged with its free neighbours at once, and which neighbours are
free by then depends on the order. The result does not. The reason is that merging loses nothing
that a later release needs: releasing in a merged layout and merging again is the same as releasing
in the layout as it was and merging ONCE (`Layout.merge_release_merge`). So any order of releases
ends in the layout in which all of the blocks are free, merged, and everything else that a heap
shows follows from its layout (`Reachable.freeing_commutes`).
-/

namespace TagHeap

open Layout Operation Step

namespace Layout

variable {lo hi : Nat} {os os' : List Nat} {xs : List Extent} {x : Extent}

theorem release_cons (os : List Nat) (x : Extent) (xs : List Extent) :
    release os (x :: xs) =
      { x with allocated := x.allocated && !os.contains x.offset } :: release os xs := rfl

theorem release_nil (xs : List Extent) : release [] xs = xs := by
  induction xs with
  | nil => rfl
  | cons x xs ih => rw [release_cons, ih, List.contains_nil, Bool.not_false, Bool.and_true]

/-- Releasing some blocks after others is releasing all of them. -/
theorem release_release (os os' : List Nat) (xs : List Extent) :
    release os (release os' xs) = release (os' ++ os) xs := by
  induction xs with
  | nil => rfl
  | cons x xs ih =>
      rw [release_cons, release_cons, release_cons, ih]
      simp only [List.contains_append, Bool.not_or, Bool.and_assoc]

/-- Only which blocks are released matters. -/
theorem release_congr (h : ∀ o, o ∈ os ↔ o ∈ os') (xs : List Extent) :
    release os xs = release os' xs := by
  have hcontains : ∀ o, os.contains o = os'.contains o := by
    intro o
    rw [Bool.eq_iff_iff, List.contains_iff_mem, List.contains_iff_mem]
    exact h o
  simp only [release, hcontains]

/-- When all blocks in use are released, no block is in use. -/
theorem free_of_mem_release (h : ∀ x ∈ xs, x.allocated = true → x.offset ∈ os) :
    ∀ x ∈ release os xs, x.allocated = false := by
  intro x hx
  obtain ⟨y, hy, rfl⟩ := List.mem_map.1 hx
  cases hu : y.allocated with
  | false => rfl
  | true =>
      have hcontains : os.contains y.offset = true := List.contains_iff_mem.2 (h y hy hu)
      simp only [hcontains, Bool.not_true, Bool.and_false]

/-- A block that is fused with the next one is released as the two of them are. -/
theorem merge_release_fuse (os : List Nat) (x : Extent) (xs : List Extent) :
    merge (release os (fuse x xs)) = merge (release os (x :: xs)) := by
  cases xs with
  | nil => rfl
  | cons y ys =>
      rw [fuse]
      split
      · rfl
      · next hfree =>
        rw [Bool.or_eq_true, not_or] at hfree
        obtain ⟨hx, hy⟩ := hfree
        have hx : x.allocated = false := Bool.eq_false_iff.2 hx
        have hy : y.allocated = false := Bool.eq_false_iff.2 hy
        -- Free blocks stay free, and fusing them is what merging does.
        rw [release_cons, release_cons, release_cons, merge_cons, merge_cons, merge_cons,
          fuse_fuse (by rw [hx]; rfl) (by rw [hy]; rfl)]
        rfl

/-- **MERGING FORGETS NOTHING** that a release needs. -/
theorem merge_release_merge (os : List Nat) (xs : List Extent) :
    merge (release os (merge xs)) = merge (release os xs) := by
  induction xs with
  | nil => rfl
  | cons x xs ih => rw [merge_cons, merge_release_fuse, release_cons, merge_cons, ih]; rfl

/-- **IN ANY ORDER** blocks are given back as if they all were released at once. -/
theorem foldl_takeBack (os : List Nat) (xs : List Extent) :
    os.foldl (fun ys o => takeBack o ys) (merge xs) = merge (release os xs) := by
  induction os generalizing xs with
  | nil => rw [release_nil]; rfl
  | cons o os ih =>
      rw [List.foldl_cons, takeBack, merge_release_merge, ih, release_release]
      rfl

theorem sum_fuse (x : Extent) (xs : List Extent) :
    ((fuse x xs).map (·.size)).sum = x.size + (xs.map (·.size)).sum := by
  cases xs with
  | nil => rfl
  | cons y ys =>
      rw [fuse]
      split
      · rfl
      · rw [List.map_cons, List.sum_cons, List.map_cons, List.sum_cons, Nat.add_assoc]

/-- Merging a layout takes up as many bytes as before. -/
theorem sum_merge (xs : List Extent) : ((merge xs).map (·.size)).sum = (xs.map (·.size)).sum := by
  induction xs with
  | nil => rfl
  | cons x xs ih => rw [merge_cons, sum_fuse, ih, List.map_cons, List.sum_cons]

theorem sum_release (os : List Nat) (xs : List Extent) :
    ((release os xs).map (·.size)).sum = (xs.map (·.size)).sum := by
  rw [release, List.map_map]
  rfl

end Layout

/-- Releasing blocks moves none of them. -/
theorem Tiles.release {lo hi : Nat} {xs : List Extent} (h : Tiles lo xs hi) (os : List Nat) :
    Tiles lo (release os xs) hi := by
  induction xs generalizing lo with
  | nil => exact h
  | cons x xs ih => exact ⟨h.1, h.2.1, h.2.2.1, ih h.2.2.2⟩

variable {n : Nat} [HasClass n]

namespace Heap

variable {run : Run n} {h : Heap n} {p : Block} {xs : List Extent} {o : Outline} {live : Live}
  {bs : List Block}

/-- Gives back some blocks, one after the other. -/
def freeEach (bs : List Block) : Operation n Unit := bs.forM fun b => free (some b)

/-- Giving back blocks of a heap is giving them back in its outline. -/
theorem freeEach_outlined (ho : run.heap.HasOutline o) (hs : run.heap.Serves live)
    (hnodup : bs.Nodup) (hlive : ∀ b ∈ bs, ∃ size, (b, size) ∈ live) :
    (freeEach bs).Ensures run fun _ run' =>
      run'.heap.HasOutline (bs.foldl (fun o b => o.free (some b)) o) := by
  induction bs generalizing run o live with
  | nil => exact .pure ho
  | cons b bs ih =>
      obtain ⟨hb, hnodup⟩ := List.nodup_cons.1 hnodup
      obtain ⟨size, hsize⟩ := hlive b (List.mem_cons_self ..)
      show Ensures (free (some b) >>= fun _ => freeEach bs) run _
      refine .bind ((free_outlined ho hs hsize).and (free_served hs hsize)) ?_
      rintro _ run₁ ⟨ho₁, hs₁, -⟩
      refine ih ho₁ hs₁ hnodup fun c hc => ?_
      obtain ⟨size', hc'⟩ := hlive c (List.mem_cons_of_mem _ hc)
      refine ⟨size', Live.mem_without.2 ⟨hc', ?_⟩⟩
      rintro ⟨⟩
      exact hb hc

end Heap

/-- The outline in which some blocks were given back. -/
theorem Outline.foldl_free {o : Outline} {p : Block} {xs : List Extent}
    (hcontent : o.content = .blocks p xs) (hc : Coalesced xs) (bs : List Block) :
    bs.foldl (fun o b => o.free (some b)) o =
      o.withContent (.blocks p (merge (release (bs.map (·.offset)) xs))) := by
  have hfold : ∀ (ys : List Extent),
      bs.foldl (fun o b => o.free (some b)) (o.withContent (.blocks p ys)) =
        o.withContent (.blocks p ((bs.map (·.offset)).foldl (fun zs o => takeBack o zs) ys)) := by
    induction bs with
    | nil => exact fun ys => rfl
    | cons b bs ih =>
        intro ys
        rw [List.foldl_cons, List.map_cons, List.foldl_cons]
        exact ih _
  have ho : o = o.withContent (.blocks p xs) := by rw [withContent, ← hcontent]
  rw [ho, hfold, ← foldl_takeBack, merge_of_coalesced hc]
  rfl

variable {h : Heap n} {live : Live} {bs cs : List Block}

/-- Giving back blocks in any order leaves the outline in which they are released at once. -/
theorem Heap.Serves.freeEach_on (hs : h.Serves live) (hnodup : bs.Nodup)
    (hlive : ∀ b ∈ bs, ∃ size, (b, size) ∈ live) {o : Outline} (ho : h.HasOutline o) :
    ((Heap.freeEach bs).on h).result = .ok () ∧
      ((Heap.freeEach bs).on h).state.HasOutline (bs.foldl (fun o b => o.free (some b)) o) := by
  have ho' : (Run.mk h []).heap.HasOutline o := ho
  obtain ⟨answer, _, hresult, hafter⟩ := on_of_ensures (Heap.freeEach_outlined ho' hs hnodup hlive)
  exact ⟨hresult, hafter⟩

/-- In whatever order blocks of a heap are given back, it ends as the outline in which they are
released at once. -/
theorem Heap.Shaped.freeEach_on {o : Outline} {p : Block} {xs : List Extent} (g : h.Shaped p xs)
    (ho : h.HasOutline o) (hs : h.Serves live) (hnodup : bs.Nodup)
    (hlive : ∀ b ∈ bs, ∃ size, (b, size) ∈ live) (hperm : cs.Perm bs) :
    ((Heap.freeEach cs).on h).result = .ok () ∧
      ((Heap.freeEach cs).on h).state.HasOutline
        (o.withContent (.blocks p (merge (release (bs.map (·.offset)) xs)))) := by
  obtain ⟨hresult, hcs⟩ := hs.freeEach_on (hperm.symm.nodup hnodup)
    (fun b hb => hlive b (hperm.subset hb)) ho
  have hrelease : release (cs.map (·.offset)) xs = release (bs.map (·.offset)) xs :=
    release_congr (fun _ => (hperm.map _).mem_iff) xs
  rw [Outline.foldl_free (ho.content_eq g) g.around.coalesced_pre, hrelease] at hcs
  exact ⟨hresult, hcs⟩

/-- When all blocks that the client has are released, no block is in use. -/
theorem Layout.Backs.release_free {xs : List Extent} (hbacks : Backs xs live)
    (hall : ∀ e ∈ live, e.1 ∈ bs) :
    ∀ x ∈ release (bs.map (·.offset)) xs, x.allocated = false := by
  refine free_of_mem_release fun y hy hu => ?_
  have hmem : y.offset ∈ live.map (·.1.offset) :=
    hbacks.offsets.subset (List.mem_map_of_mem (mem_used.2 ⟨hy, hu⟩))
  obtain ⟨e, he, heq⟩ := List.mem_map.1 hmem
  exact heq ▸ List.mem_map_of_mem (hall e he)

/-- **THE ORDER OF FREEING DOES NOT MATTER.** Blocks that a client has may be given back in any
order. The layout is always the one in which they all are free, with every run of free blocks made
one, and the lists of free blocks are the same, down to their heads, lengths and nodes. When all
blocks are given back, one free block takes up all that lies behind the prologue. -/
theorem Reachable.freeing_commutes (hr : Reachable h live) (hnodup : bs.Nodup)
    (hlive : ∀ b ∈ bs, ∃ size, (b, size) ∈ live) :
    ∃ xs, h.layout = .ok xs ∧ Coalesced (merge (release (bs.map (·.offset)) xs)) ∧
      ∀ cs, cs.Perm bs →
        ((Heap.freeEach cs).on h).result = .ok () ∧
        ((Heap.freeEach cs).on h).state.layout = .ok (merge (release (bs.map (·.offset)) xs)) ∧
        ((Heap.freeEach cs).on h).state.size = h.size ∧
        (∀ c, ((Heap.freeEach cs).on h).state.freeList c =
          ((Heap.freeEach bs).on h).state.freeList c) ∧
        ((∀ e ∈ live, e.1 ∈ bs) → ∀ p, h.prologue = some p →
          ((Heap.freeEach cs).on h).state.layout =
            .ok (if xs = [] then [] else [⟨p.offset + 8, h.size - p.offset - 8, false⟩])) := by
  cases hr.serves with
  | vacant hv =>
      -- A heap that is not laid out has no block to give back.
      have hnone : ∀ b, b ∉ bs := fun b hb => List.not_mem_nil (hlive b hb).choose_spec
      obtain rfl := List.eq_nil_iff_forall_not_mem.2 hnone
      refine ⟨[], hv.layout_eq_ok, coalesced_merge _, fun cs hperm => ?_⟩
      obtain rfl := hperm.eq_nil
      refine ⟨rfl, hv.layout_eq_ok, rfl, fun _ => rfl, fun _ p hp => ?_⟩
      rw [hv.prologue] at hp
      contradiction
  | @shaped p xs _ g hbacks =>
      obtain ⟨o, ho⟩ := hr.serves.exists_outline
      refine ⟨xs, Heap.layout_eq_ok g, coalesced_merge _, fun cs hperm => ?_⟩
      obtain ⟨hresult, hcs⟩ := g.freeEach_on ho hr.serves hnodup hlive hperm
      obtain ⟨-, hbs⟩ := g.freeEach_on ho hr.serves hnodup hlive (.refl bs)
      have hlayout : ((Heap.freeEach cs).on h).state.layout =
          .ok (merge (release (bs.map (·.offset)) xs)) := congrArg View.layout hcs.view_eq
      refine ⟨hresult, hlayout, ?_, fun c => ?_, fun hall q hq => ?_⟩
      · rw [hcs.size_eq, g.size_eq]
        show p.offset + 8 + ((merge (release _ xs)).map (·.size)).sum = _
        rw [sum_merge, sum_release]
      · rw [hcs.freeList_eq, hbs.freeList_eq]
      · obtain rfl : p = q := Option.some.inj (g.prologue.symm.trans hq)
        have htiles := g.around.before.release (bs.map (·.offset))
        rw [hlayout, merge_of_free htiles (hbacks.release_free hall), Nat.sub_sub]
        simp only [release, List.map_eq_nil_iff]
        rfl

/-- The two blocks go back in either order, and what is left is one free block. -/
theorem freeing_commutes_twoBlocks :
    ((Heap.freeEach [⟨4080, by decide⟩, ⟨4032, by decide⟩]).on twoBlocks).state.layout =
        .ok [⟨16, 4096, false⟩] ∧
      ((Heap.freeEach [⟨4032, by decide⟩, ⟨4080, by decide⟩]).on twoBlocks).state.layout =
        .ok [⟨16, 4096, false⟩] := by
  have hlive : ∀ b ∈ [(⟨4032, by decide⟩ : Block), ⟨4080, by decide⟩],
      ∃ size, (b, size) ∈ [((⟨4032, by decide⟩ : Block), 40), (⟨4080, by decide⟩, 24)] := by
    intro b hb
    rcases List.mem_cons.mp hb with rfl | hb
    · exact ⟨40, .head _⟩
    · obtain rfl := List.mem_singleton.1 hb
      exact ⟨24, .tail _ (.head _)⟩
  have hall : ∀ e ∈ [((⟨4032, by decide⟩ : Block), 40), (⟨4080, by decide⟩, 24)],
      e.1 ∈ [(⟨4032, by decide⟩ : Block), ⟨4080, by decide⟩] := by decide
  have hlayout : twoBlocks.layout =
      .ok [⟨16, 4016, false⟩, ⟨4032, 48, true⟩, ⟨4080, 32, true⟩] := rfl
  obtain ⟨xs, hxs, -, horders⟩ := reachable_twoBlocks.freeing_commutes (by decide) hlive
  obtain rfl := Except.ok.inj (hlayout.symm.trans hxs)
  obtain ⟨-, -, -, -, hdown⟩ := horders [⟨4080, by decide⟩, ⟨4032, by decide⟩] (.swap ..)
  obtain ⟨-, -, -, -, hup⟩ := horders _ (.refl _)
  exact ⟨hdown hall ⟨8, by decide⟩ rfl, hup hall ⟨8, by decide⟩ rfl⟩

end TagHeap
