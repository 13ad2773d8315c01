import Mathlib.Data.List.Chain
import TagHeap.Heap.Layout

/-!
# Tilings

A layout is a list of extents. Here it is looked at without any memory: `Tiles lo xs hi` says that
the extents of `xs` lie one behind the other, without gap or overlap, from `lo` to `hi`, each with a
legal size. From that alone follow the bounds of every extent, their order, and that two different
ones are disjoint.

The second half is about merging. `Layout.merge` makes one block of every run of free blocks. It is
what coalescing does to a layout, whatever order the blocks were freed in: it keeps the tiling and
the blocks in use, and a layout in which no two free blocks touch is already merged.
-/

namespace TagHeap

namespace Extent

/-- The tag that both ends of the block hold. -/
def tag (x : Extent) : Tag := .pack x.size x.allocated

/-- The place lies in the block, between the first byte of its header and the last of its
footer. -/
def Covers (x : Extent) (i : Nat) : Prop := x.offset ≤ i + 4 ∧ i + 4 < x.offset + x.size

/-- The first block ends before the second one starts. -/
def Before (x y : Extent) : Prop := x.offset + x.size ≤ y.offset

end Extent

/-- The extents lie one behind the other from `lo` to `hi`, each with a legal size. -/
def Tiles : Nat → List Extent → Nat → Prop
  | lo, [], hi => lo = hi
  | lo, x :: xs, hi =>
      x.offset = lo ∧ Size.minBlock ≤ x.size ∧ x.size % 8 = 0 ∧ Tiles (lo + x.size) xs hi

theorem tiles_cons {lo hi : Nat} {x : Extent} {xs : List Extent} :
    Tiles lo (x :: xs) hi ↔
      x.offset = lo ∧ Size.minBlock ≤ x.size ∧ x.size % 8 = 0 ∧ Tiles (lo + x.size) xs hi :=
  Iff.rfl

/-- A tiling in two parts. -/
theorem tiles_append {lo hi : Nat} {xs ys : List Extent} :
    Tiles lo (xs ++ ys) hi ↔ ∃ mid, Tiles lo xs mid ∧ Tiles mid ys hi := by
  induction xs generalizing lo with
  | nil =>
      constructor
      · intro h
        exact ⟨lo, rfl, h⟩
      · rintro ⟨mid, rfl, h⟩
        exact h
  | cons x xs ih =>
      rw [List.cons_append, tiles_cons, ih]
      constructor
      · rintro ⟨hx, hs, h8, mid, h, h'⟩
        exact ⟨mid, ⟨hx, hs, h8, h⟩, h'⟩
      · rintro ⟨mid, ⟨hx, hs, h8, h⟩, h'⟩
        exact ⟨hx, hs, h8, mid, h, h'⟩

/-- A tiling with its last block apart. -/
theorem tiles_concat {lo hi : Nat} {xs : List Extent} {x : Extent} :
    Tiles lo (xs ++ [x]) hi ↔
      Tiles lo xs x.offset ∧ Size.minBlock ≤ x.size ∧ x.size % 8 = 0 ∧ x.offset + x.size = hi := by
  rw [tiles_append]
  constructor
  · rintro ⟨mid, h, rfl, hs, h8, he⟩
    exact ⟨h, hs, h8, he⟩
  · rintro ⟨h, hs, h8, he⟩
    exact ⟨x.offset, h, rfl, hs, h8, he⟩

namespace Tiles

variable {lo mid hi : Nat} {x y : Extent} {xs ys : List Extent}

theorem append (h : Tiles lo xs mid) (h' : Tiles mid ys hi) : Tiles lo (xs ++ ys) hi :=
  tiles_append.2 ⟨mid, h, h'⟩

theorem le (h : Tiles lo xs hi) : lo ≤ hi := by
  induction xs generalizing lo with
  | nil => exact Nat.le_of_eq h
  | cons x xs ih =>
      have := ih h.2.2.2
      omega

/-- Where an extent of a tiling lies. -/
theorem bounds (h : Tiles lo xs hi) (hx : x ∈ xs) :
    lo ≤ x.offset ∧ x.offset + x.size ≤ hi ∧ Size.minBlock ≤ x.size ∧ x.size % 8 = 0 := by
  induction xs generalizing lo with
  | nil => exact nomatch hx
  | cons y ys ih =>
      obtain ⟨hy, hs, h8, hys⟩ := h
      rcases List.mem_cons.mp hx with rfl | hx
      · exact ⟨Nat.le_of_eq hy.symm, by rw [hy]; exact hys.le, hs, h8⟩
      · obtain ⟨h1, h2⟩ := ih hys hx
        exact ⟨by omega, h2⟩

/-- A tiling that starts at a multiple of eight puts every block at one. -/
theorem offset_mod (h : Tiles lo xs hi) (h8 : lo % 8 = 0) (hx : x ∈ xs) : x.offset % 8 = 0 := by
  induction xs generalizing lo with
  | nil => exact nomatch hx
  | cons y ys ih =>
      obtain ⟨hy, -, hm, hys⟩ := h
      rcases List.mem_cons.mp hx with rfl | hx
      · omega
      · exact ih hys (by omega) hx

theorem hi_mod (h : Tiles lo xs hi) (h8 : lo % 8 = 0) : hi % 8 = 0 := by
  induction xs generalizing lo with
  | nil => exact h ▸ h8
  | cons y ys ih => exact ih h.2.2.2 (by have := h.2.2.1; omega)

/-- A tiling has fewer blocks than bytes. -/
theorem length_le (h : Tiles lo xs hi) : lo + xs.length ≤ hi := by
  induction xs generalizing lo with
  | nil => exact Nat.le_of_eq h
  | cons x xs ih =>
      have := ih h.2.2.2
      have hs : 16 ≤ x.size := h.2.1
      rw [List.length_cons]
      omega

/-- The extents of a tiling lie in ascending order and do not overlap. -/
theorem ordered (h : Tiles lo xs hi) : xs.Pairwise Extent.Before := by
  induction xs generalizing lo with
  | nil => exact .nil
  | cons x xs ih =>
      obtain ⟨hx, -, -, hxs⟩ := h
      refine .cons ?_ (ih hxs)
      intro y hy
      have := (hxs.bounds hy).1
      show x.offset + x.size ≤ y.offset
      omega

/-- The extents say where their tiling starts and where it stops. -/
theorem start_unique {lo' : Nat} (h : Tiles lo xs hi) (h' : Tiles lo' xs hi) : lo = lo' := by
  cases xs with
  | nil => exact Eq.trans h (Eq.symm h')
  | cons x xs => exact h.1.symm.trans h'.1

theorem stop_unique {hi' : Nat} (h : Tiles lo xs hi) (h' : Tiles lo xs hi') : hi = hi' := by
  induction xs generalizing lo with
  | nil => exact Eq.trans (Eq.symm h) h'
  | cons x xs ih => exact ih h.2.2.2 h'.2.2.2

/-- The same for two tilings of which the second starts no earlier than the first one ends. -/
theorem ordered_append {lo' hi' : Nat} (h : Tiles lo xs mid) (h' : Tiles lo' ys hi')
    (hm : mid ≤ lo') : (xs ++ ys).Pairwise Extent.Before := by
  refine List.pairwise_append.2 ⟨h.ordered, h'.ordered, ?_⟩
  intro x hx y hy
  have hx := (h.bounds hx).2.1
  have hy := (h'.bounds hy).1
  show x.offset + x.size ≤ y.offset
  omega

end Tiles

/-- Two different extents of an ordered layout are disjoint. -/
theorem Extent.before_or_before {xs : List Extent} (h : xs.Pairwise Before) {x y : Extent}
    (hx : x ∈ xs) (hy : y ∈ xs) (hne : x ≠ y) : x.Before y ∨ y.Before x := by
  induction h with
  | nil => exact nomatch hx
  | cons hz _ ih =>
      rcases List.mem_cons.mp hx with hxz | hxs <;> rcases List.mem_cons.mp hy with hyz | hys
      · exact absurd (hxz.trans hyz.symm) hne
      · exact .inl (hxz ▸ hz _ hys)
      · exact .inr (hyz ▸ hz _ hxs)
      · exact ih hxs hys

/-- A block of an ordered layout is known by its offset. -/
theorem Extent.eq_of_offset {xs : List Extent} (h : xs.Pairwise Before) {x y : Extent}
    (hx : x ∈ xs) (hy : y ∈ xs) (hxs : 0 < x.size) (hys : 0 < y.size)
    (he : x.offset = y.offset) : x = y := by
  by_contra hne
  rcases before_or_before h hx hy hne with hb | hb
  · have : x.offset + x.size ≤ y.offset := hb
    omega
  · have : y.offset + y.size ≤ x.offset := hb
    omega

namespace Layout

/-! ## Merging -/

/-- Not both blocks are free, so they may touch. -/
def Compatible (x y : Extent) : Prop := x.allocated = true ∨ y.allocated = true

/-- No two free blocks touch. -/
def Coalesced (xs : List Extent) : Prop := xs.IsChain Compatible

/-- Puts a block in front of a layout. Two free blocks that touch become one. -/
def fuse (x : Extent) : List Extent → List Extent
  | [] => [x]
  | y :: ys =>
      if x.allocated || y.allocated then x :: y :: ys
      else ⟨x.offset, x.size + y.size, false⟩ :: ys

/-- The layout with every run of free blocks made one. -/
def merge (xs : List Extent) : List Extent := xs.foldr fuse []

/-- The last block of the layout, if there is one, is in use. -/
def EndsUsed (xs : List Extent) : Prop := ∀ x ∈ xs.getLast?, x.allocated = true

/-- The first block of the layout, if there is one, is in use. -/
def StartsUsed (xs : List Extent) : Prop := ∀ x ∈ xs.head?, x.allocated = true

theorem merge_cons (x : Extent) (xs : List Extent) : merge (x :: xs) = fuse x (merge xs) := rfl

/-- A layout in which no two free blocks touch is merged. -/
theorem merge_of_coalesced {xs : List Extent} (h : Coalesced xs) : merge xs = xs := by
  induction h with
  | nil => rfl
  | singleton x => rfl
  | @cons_cons x y ys hxy _ ih =>
      rw [merge_cons, ih, fuse, if_pos (by simpa [Compatible] using hxy)]

/-- Fusing two touching free blocks one after the other is fusing their union. -/
theorem fuse_fuse {x y : Extent} (hx : x.allocated = false) (hy : y.allocated = false)
    (zs : List Extent) :
    fuse x (fuse y zs) = fuse ⟨x.offset, x.size + y.size, false⟩ zs := by
  cases zs with
  | nil => simp [fuse, hx, hy]
  | cons z zs =>
      cases hz : z.allocated with
      | true => simp [fuse, hx, hy, hz]
      | false => simp [fuse, hx, hy, hz, Nat.add_assoc]

/-- Two touching free blocks count as one. -/
theorem merge_touching {x y : Extent} (hx : x.allocated = false) (hy : y.allocated = false)
    (pre post : List Extent) :
    merge (pre ++ x :: y :: post) = merge (pre ++ ⟨x.offset, x.size + y.size, false⟩ :: post) := by
  induction pre with
  | nil => exact fuse_fuse hx hy (merge post)
  | cons w pre ih => rw [List.cons_append, merge_cons, ih, List.cons_append, merge_cons]

private theorem filter_fuse (x : Extent) (xs : List Extent) :
    (fuse x xs).filter (·.allocated) = (x :: xs).filter (·.allocated) := by
  cases xs with
  | nil => rfl
  | cons y ys =>
      rw [fuse]
      cases hx : x.allocated <;> cases hy : y.allocated <;> simp [hx, hy]

/-- Merging keeps the blocks in use. -/
@[simp] theorem filter_merge (xs : List Extent) :
    (merge xs).filter (·.allocated) = xs.filter (·.allocated) := by
  induction xs with
  | nil => rfl
  | cons x xs ih => rw [merge_cons, filter_fuse, List.filter_cons, List.filter_cons, ih]

theorem coalesced_append {pre post : List Extent} :
    Coalesced (pre ++ post) ↔ Coalesced pre ∧ Coalesced post ∧
      ∀ x ∈ pre.getLast?, ∀ y ∈ post.head?, Compatible x y :=
  List.isChain_append

theorem endsUsed_concat {x : Extent} (hx : x.allocated = true) (xs : List Extent) :
    EndsUsed (xs ++ [x]) := by
  intro y hy
  rw [List.getLast?_concat] at hy
  exact Option.some.inj hy ▸ hx

/-- What lies in front of a free block ends with a block in use. -/
theorem endsUsed_of_coalesced {x : Extent} {xs : List Extent} (h : Coalesced (xs ++ [x]))
    (hx : x.allocated = false) : EndsUsed xs := by
  intro w hw
  rcases (coalesced_append.1 h).2.2 w hw x rfl with hu | hu
  · exact hu
  · rw [hx] at hu
    exact nomatch hu

/-- What lies behind a free block starts with a block in use. -/
theorem startsUsed_of_coalesced {y : Extent} {ys : List Extent} (h : Coalesced (y :: ys))
    (hy : y.allocated = false) : StartsUsed ys := by
  intro z hz
  rcases (List.isChain_cons.1 h).1 z hz with hu | hu
  · rw [hy] at hu
    exact nomatch hu
  · exact hu

/-- A block in use may stand anywhere. -/
theorem coalesced_append_cons {x : Extent} (hx : x.allocated = true) {pre post : List Extent}
    (hpre : Coalesced pre) (hpost : Coalesced post) : Coalesced (pre ++ x :: post) := by
  refine coalesced_append.2 ⟨hpre, ?_, ?_⟩
  · exact List.isChain_cons.2 ⟨fun y _ => .inl hx, hpost⟩
  · intro w _ y hy
    obtain rfl : x = y := by simpa using hy
    exact .inr hx

/-- A free block may stand between blocks in use. -/
theorem coalesced_between {x : Extent} {pre post : List Extent} (hpre : Coalesced pre)
    (hpost : Coalesced post) (hl : EndsUsed pre) (hr : StartsUsed post) :
    Coalesced (pre ++ x :: post) := by
  refine coalesced_append.2 ⟨hpre, ?_, ?_⟩
  · exact List.isChain_cons.2 ⟨fun y hy => .inr (hr y hy), hpost⟩
  · intro w hw _ _
    exact .inl (hl w hw)

/-- A merged layout has no two free blocks that touch. -/
theorem coalesced_merge (xs : List Extent) : Coalesced (merge xs) := by
  induction xs with
  | nil => exact .nil
  | cons x xs ih =>
      rw [merge_cons]
      cases hxs : merge xs with
      | nil => exact .singleton x
      | cons y ys =>
          rw [hxs] at ih
          rw [fuse]
          split
          · next hused => exact .cons_cons (by simpa [Compatible] using hused) ih
          · next hfree =>
            have hy : y.allocated = false := by
              cases hy : y.allocated with
              | false => rfl
              | true => simp [hy] at hfree
            have hstarts := startsUsed_of_coalesced ih hy
            exact List.isChain_cons.2 ⟨fun z hz => .inr (hstarts z hz), (List.isChain_cons.1 ih).2⟩

/-- What was merged behind some blocks may be merged again with them. -/
theorem merge_append_merge (pre post : List Extent) :
    merge (pre ++ merge post) = merge (pre ++ post) := by
  induction pre with
  | nil => exact merge_of_coalesced (coalesced_merge post)
  | cons x pre ih => rw [List.cons_append, merge_cons, ih, List.cons_append, merge_cons]

/-- A block that is fused with the next one merges with what stands behind as the two of them do. -/
theorem merge_fuse_append (x : Extent) (xs post : List Extent) :
    merge (fuse x xs ++ post) = merge (x :: xs ++ post) := by
  cases xs with
  | nil => rfl
  | cons y ys =>
      rw [fuse]
      split
      · rfl
      · next hfree =>
        rw [Bool.or_eq_true, not_or] at hfree
        obtain ⟨hx, hy⟩ := hfree
        exact (fuse_fuse (Bool.eq_false_iff.2 hx) (Bool.eq_false_iff.2 hy) _).symm

/-- A part of a layout may be merged before all of it is. -/
theorem merge_append_merge_append (pre xs post : List Extent) :
    merge (pre ++ merge xs ++ post) = merge (pre ++ xs ++ post) := by
  have hpart : merge (merge xs ++ post) = merge (xs ++ post) := by
    induction xs with
    | nil => rfl
    | cons x xs ih =>
        rw [merge_cons, merge_fuse_append, List.cons_append, merge_cons, ih, List.cons_append,
          merge_cons]
  rw [List.append_assoc, ← merge_append_merge, hpart, merge_append_merge, List.append_assoc]

/-- A tiling by free blocks merges into one. -/
theorem merge_of_free {lo hi : Nat} {xs : List Extent} (h : Tiles lo xs hi)
    (hfree : ∀ x ∈ xs, x.allocated = false) :
    merge xs = if xs = [] then [] else [⟨lo, hi - lo, false⟩] := by
  induction xs generalizing lo with
  | nil => rfl
  | cons x xs ih =>
      obtain ⟨rfl, -, -, hrest⟩ := h
      have hx := hfree x (List.mem_cons_self ..)
      rw [merge_cons, ih hrest fun y hy => hfree y (List.mem_cons_of_mem _ hy),
        if_neg (List.cons_ne_nil x xs)]
      have hle := hrest.le
      by_cases hxs : xs = []
      · subst hxs
        obtain rfl : x.offset + x.size = hi := hrest
        rw [if_pos rfl, fuse, Nat.add_sub_cancel_left, ← hx]
      · have hsum : x.size + (hi - (x.offset + x.size)) = hi - x.offset := by omega
        have hboth : ¬ (false || false) = true := Bool.false_ne_true
        rw [if_neg hxs, fuse, hx, if_neg hboth, hsum]

/-- **A RUN OF FREE BLOCKS** becomes one where that touches no free block. -/
theorem merge_run {lo hi : Nat} {pre run post : List Extent} (h : Tiles lo run hi)
    (hfree : ∀ x ∈ run, x.allocated = false) (hne : run ≠ [])
    (hc : Coalesced (pre ++ ⟨lo, hi - lo, false⟩ :: post)) :
    merge (pre ++ run ++ post) = pre ++ ⟨lo, hi - lo, false⟩ :: post := by
  rw [← merge_append_merge_append, merge_of_free h hfree, if_neg hne, List.append_assoc,
    List.singleton_append, merge_of_coalesced hc]

end Layout

namespace Tiles

open Layout

variable {lo hi : Nat} {x : Extent} {xs : List Extent}

theorem fused (h : Tiles lo (x :: xs) hi) : Tiles lo (fuse x xs) hi := by
  cases xs with
  | nil => exact h
  | cons y ys =>
      rw [fuse]
      split
      · exact h
      · obtain ⟨hx, hs, h8, -, -, h8', hrest⟩ := h
        rw [Nat.add_assoc] at hrest
        exact ⟨hx, Nat.le_trans hs (Nat.le_add_right ..), by dsimp only; omega, hrest⟩

/-- Merging moves no end of a tiling. -/
theorem merged (h : Tiles lo xs hi) : Tiles lo (merge xs) hi := by
  induction xs generalizing lo with
  | nil => exact h
  | cons x xs ih => exact Tiles.fused ⟨h.1, h.2.1, h.2.2.1, ih h.2.2.2⟩

end Tiles

end TagHeap
