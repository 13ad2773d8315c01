import TagHeap.Proofs.Answers
import TagHeap.Proofs.Isolation
import TagHeap.Proofs.Releasing

/-!
# Supplying

What it costs to hand out a block. A free block that holds the request costs nothing. Without one
the heap grows, by a chunk or by the block if that is larger, and the request is refused only when
the region has no such room left (`Reachable.allocate_exact`). So no free block is ever overlooked:
the search is as good as the audit, which looks at all of them and keeps the largest.

The reason is read off the layouts. A plan finds a free block that is large enough if there is one
(`Tiles.place?_eq_none_iff`), and there is one once the layout is extended (`hasRoom_extend`).
Carving the block out of the free one and taking it back changes nothing, however it was cut
(`Tiles.takeBack_carved`), so the layout that a plan leaves takes up as many bytes as the one that
it had found.
-/

namespace TagHeap

open Layout Operation

namespace Layout

variable {lo hi need size tailLimit o : Nat} {xs ys pre post : List Extent} {x : Extent}

/-- Some free block of the layout holds `need` bytes. -/
def HasRoom (need : Nat) (xs : List Extent) : Prop :=
  ∃ x ∈ xs, x.allocated = false ∧ need ≤ x.size

theorem not_hasRoom : ¬ HasRoom need xs ↔ ∀ x ∈ xs, x.allocated = false → x.size < need := by
  simp [HasRoom]

/-- A layout with a block taken back takes up as many bytes as before. -/
theorem sum_takeBack (o : Nat) (xs : List Extent) :
    ((takeBack o xs).map (·.size)).sum = (xs.map (·.size)).sum := by
  rw [takeBack, sum_merge, sum_release]

theorem sum_extend (stop increment : Nat) (xs : List Extent) :
    ((extend stop increment xs).map (·.size)).sum = (xs.map (·.size)).sum + increment := by
  rw [extend, sum_merge, List.map_append, List.sum_append]
  rfl

/-- What is added at the end of a layout has room for a block that is no larger. -/
theorem hasRoom_extend {stop increment : Nat} (hc : Coalesced xs) (hle : need ≤ increment) :
    HasRoom need (extend stop increment xs) := by
  rcases List.eq_nil_or_concat' xs with rfl | ⟨zs, z, rfl⟩
  · exact ⟨_, List.mem_singleton_self _, rfl, hle⟩
  · cases hz : z.allocated with
    | true =>
        rw [extend_of_endsUsed hc (endsUsed_concat hz zs)]
        exact ⟨_, List.mem_append_right _ (List.mem_singleton_self _), rfl, hle⟩
    | false =>
        rw [extend_concat hc hz]
        exact ⟨_, List.mem_append_right _ (List.mem_singleton_self _), rfl,
          Nat.le_trans hle (Nat.le_add_left ..)⟩

end Layout

namespace Tiles

open Layout

variable {lo hi stop spare need increment tailLimit o : Nat} {xs ys pre post : List Extent}
  {x : Extent} {settings : Settings}

theorem extended (h : Tiles lo xs stop) (hs : Size.minBlock ≤ increment)
    (h8 : increment % 8 = 0) : Tiles lo (extend stop increment xs) (stop + increment) :=
  merged (h.append ⟨rfl, hs, h8, rfl⟩)

/-- **EVERY CUT IS UNDONE** by taking the block back: its bytes touch those that were left of the
free block, in front of it or behind it. -/
theorem takeBack_carved (h : Tiles lo (pre ++ x :: post) hi) (hc : Coalesced (pre ++ x :: post))
    (hx : x.allocated = false) (hs : Size.minBlock ≤ need) (h8 : need % 8 = 0)
    (hle : need ≤ x.size) :
    takeBack (carvedAt tailLimit x need) (pre ++ carved tailLimit x need ++ post) =
      pre ++ x :: post := by
  obtain ⟨mid, hpre, rfl, -, hx8, hpost⟩ := tiles_append.1 h
  have htiles : Tiles lo (pre ++ carved tailLimit x need ++ post) hi :=
    (hpre.append (of_carved hs h8 hle hx8)).append hpost
  have hwhole : ∀ size, size = x.size → merge (pre ++ ⟨x.offset, size, false⟩ :: post) =
      pre ++ x :: post := by
    rintro _ rfl
    rw [← hx]
    exact merge_of_coalesced hc
  by_cases htail : Size.minBlock ≤ x.size - need ∧ need < tailLimit
  · rw [carved, if_pos htail, List.append_assoc, List.cons_append, List.singleton_append,
      List.append_cons] at htiles ⊢
    rw [carvedAt, if_pos htail, htiles.takeBack_eq, ← List.append_cons, merge_touching rfl rfl]
    exact hwhole _ (Nat.sub_add_cancel hle)
  rw [carved, if_neg htail, occupied] at htiles ⊢
  rw [carvedAt, if_neg htail]
  by_cases hrest : x.size - need < Size.minBlock
  · rw [if_pos hrest, ← List.append_cons] at htiles ⊢
    rw [htiles.takeBack_eq]
    exact hwhole _ rfl
  · rw [if_neg hrest, List.append_assoc, List.cons_append, List.singleton_append] at htiles ⊢
    rw [htiles.takeBack_eq, merge_touching rfl rfl]
    exact hwhole _ (Nat.add_sub_cancel' hle)

/-- Where there is room, a block is carved out of a free one. -/
theorem exists_place? (h : Tiles lo xs hi) (hroom : HasRoom need xs) (tailLimit : Nat) :
    ∃ pre x post, xs = pre ++ x :: post ∧ x.allocated = false ∧ need ≤ x.size ∧
      place? tailLimit need xs =
        some (carvedAt tailLimit x need, pre ++ carved tailLimit x need ++ post) := by
  cases hfit : bestFit? need xs with
  | none => exact absurd hroom (not_hasRoom.2 (bestFit?_eq_none.1 hfit))
  | some x =>
      have hx := (bestFit?_eq_some h).1 hfit
      obtain ⟨pre, post, rfl⟩ := List.append_of_mem hx.mem
      exact ⟨pre, x, post, rfl, hx.free, hx.large, place?_eq_some h hx⟩

/-- The search for a free block misses none. -/
theorem place?_eq_none_iff (h : Tiles lo xs hi) :
    place? tailLimit need xs = none ↔ ¬ HasRoom need xs := by
  refine ⟨fun hnone hroom => ?_, fun hroom => place?_eq_none (not_hasRoom.1 hroom)⟩
  obtain ⟨pre, x, post, -, -, -, hplace⟩ := h.exists_place? hroom tailLimit
  cases hnone.symm.trans hplace

/-- What was carved out of a free block can be taken back. -/
theorem takeBack_place? (h : Tiles lo xs hi) (hc : Coalesced xs) (hs : Size.minBlock ≤ need)
    (h8 : need % 8 = 0) (hplan : place? tailLimit need xs = some (o, ys)) :
    HasRoom need xs ∧ takeBack o ys = xs := by
  by_cases hroom : HasRoom need xs
  · obtain ⟨pre, x, post, rfl, hx, hle, hplace⟩ := h.exists_place? hroom tailLimit
    cases hplan.symm.trans hplace
    exact ⟨hroom, h.takeBack_carved hc hx hs h8 hle⟩
  · cases hplan.symm.trans (h.place?_eq_none_iff.2 hroom)

section Serving

variable (h : Tiles lo xs stop) (hc : Coalesced xs) (hs : Size.minBlock ≤ need) (h8 : need % 8 = 0)

include h hs h8 in
/-- The layout is still a tiling when it is extended for a block. -/
theorem extended_for (settings : Settings) :
    Tiles lo (extend stop (max need settings.chunkSize) xs)
      (stop + max need settings.chunkSize) := by
  have hchunk := settings.chunk_aligned
  exact h.extended (Nat.le_trans hs (Nat.le_max_left ..)) (by omega)

include h hc hs h8

/-- A plan for a new block is for one of the layout if that has room for it, and otherwise for one
of the layout as it is extended. -/
theorem serve?_cases (hplan : serve? settings stop spare need xs = some (o, ys)) :
    (HasRoom need xs ∧ takeBack o ys = xs) ∨
      (¬ HasRoom need xs ∧ max need settings.chunkSize ≤ spare ∧
        takeBack o ys = extend stop (max need settings.chunkSize) xs) := by
  rw [serve?, Option.or_eq_some_iff] at hplan
  rcases hplan with hplace | ⟨hnone, hplace⟩
  · exact .inl (h.takeBack_place? hc hs h8 hplace)
  · rw [Option.ite_none_right_eq_some] at hplace
    obtain ⟨hspare, hplace⟩ := hplace
    have hextended := h.extended_for hs h8 settings
    exact .inr ⟨h.place?_eq_none_iff.1 hnone, hspare,
      (hextended.takeBack_place? (coalesced_merge _) hs h8 hplace).2⟩

/-- There is a plan unless there is neither room nor any more to be had. -/
theorem serve?_eq_none (hnone : serve? settings stop spare need xs = none) :
    ¬ HasRoom need xs ∧ ¬ max need settings.chunkSize ≤ spare := by
  rw [serve?, Option.or_eq_none_iff] at hnone
  obtain ⟨hplace, hplace'⟩ := hnone
  refine ⟨h.place?_eq_none_iff.1 hplace, fun hspare => ?_⟩
  rw [if_pos hspare, (h.extended_for hs h8 settings).place?_eq_none_iff] at hplace'
  exact hplace' (hasRoom_extend hc (Nat.le_max_left ..))

end Serving

end Tiles

variable {n : Nat} [HasClass n] {h : Heap n} {live : Live} {p : Block} {xs : List Extent}
  {size need : Nat}

namespace Heap

/-- A block was handed out, and the heap has become larger by `added` bytes. -/
def Supplies (h : Heap n) (added : Nat) (outcome : Outcome (Heap n) (Option Block)) : Prop :=
  (∃ b, outcome.result = .ok (some b)) ∧ outcome.state.size = h.size + added

/-- There was no block to hand out, and nothing happened. -/
def TurnsDown (h : Heap n) (outcome : Outcome (Heap n) (Option Block)) : Prop :=
  outcome.result = .ok none ∧ outcome.state = h

/-- The region of a heap in shape grants what fits. -/
theorem Shaped.canGrow_iff {increment : Nat} (g : h.Shaped p xs) :
    h.region.canGrow increment ↔ h.Fits increment := by
  rw [g.ready.canGrow_eq, decide_eq_true_eq]
  rfl

/-- A heap in shape hands out what one of its free blocks holds, and otherwise what the region has
room for. -/
theorem Shaped.allocate_supplies (g : h.Shaped p xs) (hsize : size ≠ 0)
    (hneed : Size.ofRequest? size = some need) :
    (HasRoom need xs → h.Supplies 0 ((allocate size).on h)) ∧
      (¬ HasRoom need xs → h.Fits (h.growthFor need) →
        h.Supplies (h.growthFor need) ((allocate size).on h)) ∧
      (¬ HasRoom need xs → ¬ h.Fits (h.growthFor need) → h.TurnsDown ((allocate size).on h)) := by
  obtain ⟨hs, h8, -, -⟩ := Size.ofRequest?_eq_some hneed
  have htiles : Tiles (p.offset + 8) xs h.size := g.around.before
  have hc := g.around.coalesced_pre
  have hfollows := g.allocate_follows hsize hneed
  cases hplan : h.serve? xs need with
  | none =>
      rw [hplan] at hfollows
      obtain ⟨hroom, hfits⟩ := htiles.serve?_eq_none hc hs h8 hplan
      exact ⟨fun h => absurd h hroom, fun _ h => absurd h hfits, fun _ _ => hfollows⟩
  | some plan =>
      obtain ⟨o, ys⟩ := plan
      rw [hplan] at hfollows
      obtain ⟨b, -, hresult, g'⟩ := hfollows
      have hgrown : ∀ zs, takeBack o ys = zs →
          ((allocate size).on h).state.size = p.offset + 8 + (zs.map (·.size)).sum := by
        rintro _ rfl
        rw [g'.size_eq, sum_takeBack]
      rcases htiles.serve?_cases hc hs h8 hplan with ⟨hroom, hback⟩ | ⟨hroom, hfits, hback⟩
      · refine ⟨fun _ => ⟨⟨b, hresult⟩, ?_⟩, fun h => absurd hroom h, fun h => absurd hroom h⟩
        exact (hgrown _ hback).trans g.size_eq.symm
      · refine ⟨fun h => absurd h hroom, fun _ _ => ⟨⟨b, hresult⟩, ?_⟩, fun _ h => absurd hfits h⟩
        rw [hgrown _ hback, sum_extend, g.size_eq, Nat.add_assoc (p.offset + 8)]
        rfl

/-- A heap that is laid out serves its client in shape. -/
theorem Serves.shaped_of_laidOut (hs : h.Serves live) (hready : h.prologue.isSome) :
    ∃ p xs, h.Shaped p xs ∧ Backs xs live := by
  cases hs with
  | vacant hv =>
      rw [hv.prologue] at hready
      cases hready
  | shaped g hbacks => exact ⟨_, _, g, hbacks⟩

end Heap

/-- **WHEN A REQUEST IS SERVED.** A free block that is large enough, which the audit knows of, is
all that a heap needs to hand out a block. Without one it grows by a chunk, or by the block if that
is larger, and where the region has no such room the request is turned down. So is a request that is
too large for any block. -/
theorem Reachable.allocate_exact (hr : Reachable h live) (hready : h.prologue.isSome)
    (hsize : 0 < size) :
    ∃ summary, h.audit = .ok summary ∧
      match Size.ofRequest? size with
      | none => h.TurnsDown ((Heap.allocate size).on h)
      | some need =>
          if need ≤ summary.largestFree then h.Supplies 0 ((Heap.allocate size).on h)
          else if h.region.canGrow (max need h.settings.chunkSize) then
            h.Supplies (max need h.settings.chunkSize) ((Heap.allocate size).on h)
          else h.TurnsDown ((Heap.allocate size).on h) := by
  obtain ⟨p, xs, g, -⟩ := hr.serves.shaped_of_laidOut hready
  have hne := Nat.ne_of_gt hsize
  refine ⟨_, Heap.audit_eq_ok g, ?_⟩
  cases hneed : Size.ofRequest? size with
  | none => exact g.allocate_tooLarge hne hneed
  | some need =>
      obtain ⟨hlarge, -⟩ := Size.ofRequest?_eq_some hneed
      have hlargest : need ≤ (Summary.ofLayout xs).largestFree ↔ HasRoom need xs :=
        Summary.le_largestFree_ofLayout (Nat.lt_of_lt_of_le (by decide) hlarge)
      obtain ⟨hhas, hgrows, hrefuses⟩ := g.allocate_supplies hne hneed
      dsimp only
      split
      · next hle => exact hhas (hlargest.1 hle)
      · next hle =>
        have hroom : ¬ HasRoom need xs := fun h => hle (hlargest.2 h)
        split
        · next hgrow => exact hgrows hroom (g.canGrow_iff.1 hgrow)
        · next hgrow => exact hrefuses hroom fun hfits => hgrow (g.canGrow_iff.2 hfits)

/-- The free block of 4064 bytes is enough for some requests; others need the other half of the
region, or more than that. -/
theorem allocate_exact_halfFull :
    halfFull.Supplies 0 ((Heap.allocate 4056).on halfFull) ∧
      halfFull.Supplies 4096 ((Heap.allocate 4057).on halfFull) ∧
      halfFull.TurnsDown ((Heap.allocate 4120).on halfFull) ∧
      halfFull.TurnsDown ((Heap.allocate 4294967281).on halfFull) := by
  have hsummary : halfFull.audit = .ok
      { blocks := 2, freeBlocks := 1, allocatedBlocks := 1, freeBytes := 4064, allocatedBytes := 32,
        largestFree := 4064 } := rfl
  have hready : halfFull.prologue.isSome := rfl
  obtain ⟨_, hs, hhas⟩ :=
    reachable_halfFull.allocate_exact hready (show 0 < 4056 by decide)
  obtain ⟨_, hs', hgrows⟩ :=
    reachable_halfFull.allocate_exact hready (show 0 < 4057 by decide)
  obtain ⟨_, hs'', hfew⟩ :=
    reachable_halfFull.allocate_exact hready (show 0 < 4120 by decide)
  obtain ⟨_, -, hlarge⟩ :=
    reachable_halfFull.allocate_exact hready (show 0 < 4294967281 by decide)
  obtain rfl := Except.ok.inj (hsummary.symm.trans hs)
  obtain rfl := Except.ok.inj (hs.symm.trans hs')
  obtain rfl := Except.ok.inj (hs.symm.trans hs'')
  exact ⟨hhas, hgrows, hfew, hlarge⟩

end TagHeap
