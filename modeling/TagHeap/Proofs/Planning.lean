import TagHeap.Proofs.Carving
import TagHeap.Proofs.Searching

/-!
# Planning

What handing out, taking back and resizing make of a layout, as functions on layouts. A plan is the
offset of the block that the client gets, together with the layout that is left. It reads NO BYTE
and knows of NO SIZE CLASS, so two heaps with the same layout follow the same plan, whatever their
payloads hold and however their indexes are cut into classes.

The plans come with the reasons why they are the right ones: a block of a tiling is where its offset
says (`Tiles.cut?_eq_some`), there is only one best fit (`bestFit?_eq_some`), and when a heap without
a fit has grown, the block at its end is the one that fits (`bestFit_extend`).
-/

namespace TagHeap

namespace Layout

/-- A block with the blocks in front of it and those behind it. -/
structure Cut where
  pre : List Extent
  block : Extent
  post : List Extent

/-- Cuts a layout at the block whose offset is given. -/
def cut? (o : Nat) : List Extent → Option Cut
  | [] => none
  | x :: xs =>
      if x.offset = o then some ⟨[], x, xs⟩
      else (cut? o xs).map fun c => { c with pre := x :: c.pre }

/-- The smallest free block that holds `size` bytes, of equals the one that lies lowest. -/
def bestFit? (size : Nat) (xs : List Extent) : Option Extent :=
  (xs.filter fun x => !x.allocated && decide (size ≤ x.size)).minOn? (·.size)

/-- Where the block in use lies that is carved out of the free block `x`. -/
def carvedAt (tailLimit : Nat) (x : Extent) (size : Nat) : Nat :=
  if Size.minBlock ≤ x.size - size ∧ size < tailLimit then x.offset + (x.size - size)
  else x.offset

/-- Carves the block out of the best fit. -/
def place? (tailLimit need : Nat) (xs : List Extent) : Option (Nat × List Extent) :=
  (bestFit? need xs).bind fun x => (cut? x.offset xs).map fun c =>
    (carvedAt tailLimit x need, c.pre ++ carved tailLimit x need ++ c.post)

/-- The layout with so many more free bytes from `stop` on, which is where it ends. -/
def extend (stop increment : Nat) (xs : List Extent) : List Extent :=
  merge (xs ++ [⟨stop, increment, false⟩])

/-- Carves the block out of the best fit, or out of what is added for it at the end, if there are
`spare` bytes left to add. -/
def serve? (settings : Settings) (stop spare need : Nat) (xs : List Extent) :
    Option (Nat × List Extent) :=
  let increment := max need settings.chunkSize
  (place? settings.tailLimit need xs).or
    (if increment ≤ spare then place? settings.tailLimit need (extend stop increment xs) else none)

/-- The layout with the blocks at some offsets free, and nothing merged yet. -/
def release (os : List Nat) (xs : List Extent) : List Extent :=
  xs.map fun x => { x with allocated := x.allocated && !os.contains x.offset }

/-- The layout when the block at an offset was given back. -/
def takeBack (o : Nat) (xs : List Extent) : List Extent := merge (release [o] xs)

/-! ## Growing in place -/

/-- The block grows over its next neighbour. -/
def overNext? (need : Nat) (pre : List Extent) (x : Extent) :
    List Extent → Option (Nat × List Extent)
  | [] => none
  | y :: ys =>
      if y.allocated = false ∧ need ≤ x.size + y.size then
        some (x.offset, merge (pre ++ occupied x.offset (x.size + y.size) need ++ ys))
      else none

/-- The block is the last one and grows past the end, if there are `spare` bytes left to add. -/
def pastEnd? (spare need : Nat) (pre : List Extent) (x : Extent) (post : List Extent) :
    Option (Nat × List Extent) :=
  if post = [] ∧ need - x.size ≤ spare then some (x.offset, pre ++ [⟨x.offset, need, true⟩])
  else none

/-- The block grows over its previous neighbour. -/
def overPrevious? (need : Nat) (pre : List Extent) (x : Extent) (post : List Extent) :
    Option (Nat × List Extent) :=
  pre.getLast?.bind fun z =>
    if z.allocated = false ∧ need ≤ z.size + x.size then
      some (z.offset, merge (pre.dropLast ++ occupied z.offset (z.size + x.size) need ++ post))
    else none

/-- The block grows over both of its neighbours. -/
def overBoth? (need : Nat) (pre : List Extent) (x : Extent) :
    List Extent → Option (Nat × List Extent)
  | [] => none
  | y :: ys => pre.getLast?.bind fun z =>
      if z.allocated = false ∧ y.allocated = false ∧ need ≤ z.size + x.size + y.size then
        some (z.offset,
          merge (pre.dropLast ++ occupied z.offset (z.size + x.size + y.size) need ++ ys))
      else none

/-- The first of the four ways in which a block can grow without a new one. -/
def grow? (spare need : Nat) (pre : List Extent) (x : Extent) (post : List Extent) :
    Option (Nat × List Extent) :=
  (overNext? need pre x post).or <| (pastEnd? spare need pre x post).or <|
    (overPrevious? need pre x post).or (overBoth? need pre x post)

/-- The block gets the size where it is or near there. Failing that it is carved out as if it were
new, and the old one is given back. -/
def resize? (settings : Settings) (stop spare need : Nat) (pre : List Extent) (x : Extent)
    (post : List Extent) : Option (Nat × List Extent) :=
  if need ≤ x.size then some (x.offset, merge (pre ++ occupied x.offset x.size need ++ post))
  else (grow? spare need pre x post).or <|
    (serve? settings stop spare need (pre ++ x :: post)).map fun plan =>
      (plan.1, takeBack x.offset plan.2)

end Layout

/-! ## The plans are determined -/

namespace Tiles

open Layout

variable {lo hi : Nat} {xs pre post : List Extent} {x y : Extent}

/-- The other blocks of a tiling lie at other offsets. -/
theorem offset_ne (h : Tiles lo (pre ++ x :: post) hi) (hy : y ∈ pre ++ post) :
    y.offset ≠ x.offset := by
  obtain ⟨mid, hpre, hx, hs, -, hpost⟩ := tiles_append.1 h
  have hlarge : 16 ≤ x.size := hs
  rcases List.mem_append.mp hy with hy | hy
  · have hstop := (hpre.bounds hy).2.1
    have hylarge : 16 ≤ y.size := (hpre.bounds hy).2.2.1
    omega
  · have hstart := (hpost.bounds hy).1
    omega

/-- The offset of a block is where a tiling is cut to get at it. -/
theorem cut?_eq_some (h : Tiles lo (pre ++ x :: post) hi) :
    cut? x.offset (pre ++ x :: post) = some ⟨pre, x, post⟩ := by
  induction pre generalizing lo with
  | nil => rw [List.nil_append, cut?, if_pos rfl]
  | cons y pre ih =>
      have hne : y.offset ≠ x.offset := h.offset_ne (List.mem_append_left _ (List.mem_cons_self ..))
      rw [List.cons_append, cut?, if_neg hne, ih h.2.2.2]
      rfl

/-- Freeing one block of a tiling leaves the others as they are. -/
theorem takeBack_eq (h : Tiles lo (pre ++ x :: post) hi) :
    takeBack x.offset (pre ++ x :: post) =
      merge (pre ++ { x with allocated := false } :: post) := by
  have hother : ∀ ys, (∀ y ∈ ys, y.offset ≠ x.offset) → release [x.offset] ys = ys := by
    intro ys hys
    refine (List.map_congr_left fun y hy => ?_).trans (List.map_id ys)
    have hcontains : [x.offset].contains y.offset = false := by
      simpa using hys y hy
    rw [hcontains, Bool.not_false, Bool.and_true]
    rfl
  have hself : release [x.offset] [x] = [{ x with allocated := false }] := by
    simp [release]
  have hpre := hother pre fun y hy => h.offset_ne (List.mem_append_left _ hy)
  have hpost := hother post fun y hy => h.offset_ne (List.mem_append_right _ hy)
  rw [takeBack, List.append_cons, release, List.map_append, List.map_append]
  show merge (release _ pre ++ release _ [x] ++ release _ post) = _
  rw [hpre, hself, hpost, ← List.append_cons]

end Tiles

namespace Layout

variable {lo hi size need tailLimit : Nat} {xs pre post : List Extent} {x y : Extent}

/-- Two best fits of a tiling are the same block. -/
theorem BestFit.unique (h : Tiles lo xs hi) (hx : BestFit xs size x) (hy : BestFit xs size y) :
    x = y := by
  have hxy := hx.best y hy.mem hy.free hy.large
  have hyx := hy.best x hx.mem hx.free hx.large
  have hxlarge : 16 ≤ x.size := (h.bounds hx.mem).2.2.1
  have hylarge : 16 ≤ y.size := (h.bounds hy.mem).2.2.1
  exact Extent.eq_of_offset h.ordered hx.mem hy.mem (by omega) (by omega) (by omega)

theorem bestFit?_eq_none : bestFit? size xs = none ↔
    ∀ x ∈ xs, x.allocated = false → x.size < size := by
  rw [bestFit?, ← Option.not_isSome_iff_eq_none, List.isSome_minOn?_iff, not_not,
    List.filter_eq_nil_iff]
  simp

/-- The search for the best fit of a tiling finds it. -/
theorem bestFit?_eq_some (h : Tiles lo xs hi) :
    bestFit? size xs = some x ↔ BestFit xs size x := by
  have hfound : ∀ y, bestFit? size xs = some y → BestFit xs size y := by
    intro y hy
    obtain ⟨hmem, hfits⟩ := List.mem_filter.1 (List.minOn?_mem hy)
    rw [Bool.and_eq_true, Bool.not_eq_true', decide_eq_true_eq] at hfits
    refine ⟨hmem, hfits.1, hfits.2, fun z hz hfree hlarge => ?_⟩
    have hin : z ∈ xs.filter fun x => !x.allocated && decide (size ≤ x.size) :=
      List.mem_filter.2 ⟨hz, by rw [hfree, Bool.not_false, Bool.true_and, decide_eq_true hlarge]⟩
    rcases first_of_minOn? (h.ordered.filter _) hy z hin with hlt | ⟨heq, rfl | hbefore⟩
    · exact .inl hlt
    · exact .inr ⟨rfl, Nat.le_refl _⟩
    · exact .inr ⟨heq, Nat.le_trans (Nat.le_add_right ..) hbefore⟩
  constructor
  · exact hfound x
  · intro hx
    cases hy : bestFit? size xs with
    | none => exact absurd (bestFit?_eq_none.1 hy x hx.mem hx.free) (Nat.not_lt.2 hx.large)
    | some y => rw [BestFit.unique h hx (hfound y hy)]

/-- The block in use among the carved ones lies where the plan says. -/
theorem offset_of_mem_carved (hy : y ∈ carved tailLimit x size) (hu : y.allocated = true) :
    y.offset = carvedAt tailLimit x size := by
  rw [carved] at hy
  rw [carvedAt]
  split at hy
  · next htail =>
    rw [if_pos htail]
    rcases List.mem_cons.mp hy with rfl | hy
    · exact absurd hu Bool.false_ne_true
    · obtain rfl := List.mem_singleton.1 hy
      rfl
  · next htail =>
    rw [if_neg htail]
    obtain ⟨rest, he, hrest⟩ := occupied_eq x.offset x.size size
    rw [he] at hy
    rcases List.mem_cons.mp hy with rfl | hy
    · rfl
    · have hin : y ∈ rest.filter (·.allocated) := List.mem_filter.2 ⟨hy, hu⟩
      rw [hrest] at hin
      exact absurd hin List.not_mem_nil

/-- Carving out of the best fit is what the plan says. -/
theorem place?_eq_some (h : Tiles lo (pre ++ x :: post) hi)
    (hx : BestFit (pre ++ x :: post) need x) :
    place? tailLimit need (pre ++ x :: post) =
      some (carvedAt tailLimit x need, pre ++ carved tailLimit x need ++ post) := by
  rw [place?, (bestFit?_eq_some h).2 hx, Option.bind_some, h.cut?_eq_some, Option.map_some]

theorem place?_eq_none (h : ∀ x ∈ xs, x.allocated = false → x.size < need) :
    place? tailLimit need xs = none := by
  rw [place?, bestFit?_eq_none.2 h, Option.bind_none]

/-- Behind a block in use the added bytes are a block of their own. -/
theorem extend_of_endsUsed {stop increment : Nat} (hc : Coalesced xs) (hends : EndsUsed xs) :
    extend stop increment xs = xs ++ [⟨stop, increment, false⟩] :=
  merge_of_coalesced (coalesced_between hc (show Coalesced [] from .nil) hends nofun)

/-- Behind a free block the added bytes are more of that block. -/
theorem extend_concat {stop increment : Nat} (hc : Coalesced (xs ++ [x]))
    (hx : x.allocated = false) :
    extend stop increment (xs ++ [x]) = xs ++ [⟨x.offset, x.size + increment, false⟩] := by
  rw [extend, List.append_assoc, List.singleton_append, merge_touching hx rfl]
  exact merge_of_coalesced (coalesced_between (coalesced_append.1 hc).1
    (show Coalesced [] from .nil) (endsUsed_of_coalesced hc hx) nofun)

/-- Where nothing fits and a layout was extended, what fits is the best fit. -/
theorem bestFit_extend {stop increment : Nat} (hc : Coalesced xs)
    (hnone : ∀ x ∈ xs, x.allocated = false → x.size < need)
    (hx : x ∈ extend stop increment xs) (hfree : x.allocated = false) (hlarge : need ≤ x.size) :
    BestFit (extend stop increment xs) need x := by
  -- All blocks but the last are old ones, and none of those fits.
  have hlast : ∃ z, ∀ w ∈ extend stop increment xs, w.allocated = false → need ≤ w.size →
      w = z := by
    have hother : ∀ zs z, (∀ w ∈ zs, w ∈ xs) → ∀ w ∈ zs ++ [z], w.allocated = false →
        need ≤ w.size → w = z := by
      intro zs z hold w hw hwfree hwlarge
      rcases List.mem_append.mp hw with hw | hw
      · exact absurd (hnone w (hold w hw) hwfree) (Nat.not_lt.2 hwlarge)
      · exact List.mem_singleton.1 hw
    rcases List.eq_nil_or_concat' xs with rfl | ⟨zs, z, rfl⟩
    · exact ⟨_, hother [] _ nofun⟩
    · cases hz : z.allocated with
      | true =>
          rw [extend_of_endsUsed hc (endsUsed_concat hz zs)]
          exact ⟨_, hother _ _ fun _ hw => hw⟩
      | false =>
          rw [extend_concat hc hz]
          exact ⟨_, hother _ _ fun _ hw => List.mem_append_left _ hw⟩
  obtain ⟨z, hz⟩ := hlast
  refine ⟨hx, hfree, hlarge, fun y hy hyfree hylarge => .inr ?_⟩
  rw [hz y hy hyfree hylarge, hz x hx hfree hlarge]
  exact ⟨rfl, Nat.le_refl _⟩

end Layout

end TagHeap
