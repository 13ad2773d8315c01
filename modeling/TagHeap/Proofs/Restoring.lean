import TagHeap.Proofs.Canonicity
import TagHeap.Proofs.Spaces
import TagHeap.Proofs.Supplying

/-!
# Restoring

Two ways to ask for something and to give it back, after which a heap shows what it showed before:
its size, its layout, its audit and all of its lists.

* A block that is handed out and given back at once leaves the old layout, however it was cut. If
  the heap had to grow for it, it keeps what it has gained, as free bytes at its end
  (`Reachable.free_allocate`).
* A block that is shrunk and then asked for all that it had gets it back where it is
  (`Reachable.shrink_then_grow`). What it gave up was too small to be cut off, or is the start of
  the free block behind it; so the first space that fits is the block itself or the block with its
  next neighbour, and either is filled up to the old end.
-/

namespace TagHeap

open Layout Operation

namespace Layout

variable {lo hi stop count need : Nat} {xs pre post : List Extent} {x : Extent}
  {canGrow : Nat → Bool}

/-- The layout, which ends at `stop`, with so many free bytes more. The last block gets them if it
is free, and otherwise they are a block of their own. -/
def lengthen (stop count : Nat) (xs : List Extent) : List Extent :=
  match xs.getLast? with
  | some z =>
      if z.allocated then xs ++ [⟨stop, count, false⟩]
      else xs.dropLast ++ [⟨z.offset, z.size + count, false⟩]
  | none => [⟨stop, count, false⟩]

theorem extend_eq_lengthen (hc : Coalesced xs) : extend stop count xs = lengthen stop count xs := by
  rcases List.eq_nil_or_concat' xs with rfl | ⟨zs, z, rfl⟩
  · rfl
  · rw [lengthen, List.getLast?_concat, List.dropLast_concat]
    by_cases hz : z.allocated
    · exact (extend_of_endsUsed hc (endsUsed_concat hz zs)).trans (if_pos hz).symm
    · exact (extend_concat hc (Bool.eq_false_iff.2 hz)).trans (if_neg hz).symm

/-- What is cut off the end of a block stands first behind it, and filling both up to the old end
leaves what was there. -/
theorem exists_cutOff (htiles : Tiles x.offset (x :: post) hi) (hc : Coalesced post)
    (hx : x.allocated = true) (hlt : need < x.size) :
    ∃ y ys, fuse ⟨x.offset + need, x.size - need, false⟩ post = y :: ys ∧ y.allocated = false ∧
      x.size ≤ need + y.size ∧ refill x.offset (need + y.size) x.size ys = x :: post := by
  have hsum : need + (x.size - need) = x.size := Nat.add_sub_cancel' (Nat.le_of_lt hlt)
  have hfill : refill x.offset (need + (x.size - need)) x.size post = x :: post := by
    rw [hsum, refill_self hx]
  cases post with
  | nil => exact ⟨_, [], rfl, rfl, Nat.le_of_eq hsum.symm, hfill⟩
  | cons z zs =>
      by_cases hz : z.allocated = true
      · exact ⟨_, z :: zs, by rw [fuse, if_pos (by rw [hz, Bool.or_true])], rfl,
          Nat.le_of_eq hsum.symm, hfill⟩
      · -- The free block behind it takes in what is cut off, and is what is left over later.
        have hz := Bool.eq_false_iff.2 hz
        obtain ⟨-, -, -, hzo, hzs, -⟩ := htiles
        have htotal : need + (x.size - need + z.size) = x.size + z.size := by omega
        have hfuse : fuse z zs = z :: zs := by
          have hmerged := merge_of_coalesced hc
          rwa [merge_cons, merge_of_coalesced (List.isChain_cons.1 hc).2] at hmerged
        refine ⟨_, zs, by rw [fuse, if_neg (by rw [hz]; exact Bool.false_ne_true)], rfl,
          Nat.le_trans (Nat.le_add_right ..) (Nat.le_of_eq htotal.symm), ?_⟩
        dsimp only
        rw [htotal, refill, Nat.add_sub_cancel_left, if_neg (Nat.not_lt.2 hzs), ← hx, ← hzo, ← hz,
          hfuse]

/-- A block of which a part was taken gets it back from the first space that holds it. -/
theorem exists_regrowth (htiles : Tiles lo (pre ++ x :: post) hi)
    (hc : Coalesced (pre ++ x :: post)) (hx : x.allocated = true) (hle : need ≤ x.size)
    (hzero : canGrow 0 = true) :
    ∃ y ys, refill x.offset x.size need post = y :: ys ∧ y.allocated = true ∧
      y.offset = x.offset ∧ y.size ≤ x.size ∧
      ∃ s, (spaces x.size pre y ys).find? (·.fits canGrow x.size) = some s ∧
        s.offset = x.offset ∧ s.fill x.size = pre ++ x :: post := by
  obtain ⟨mid, -, hx0⟩ := tiles_append.1 htiles
  obtain rfl : x.offset = mid := hx0.1
  have hrest : Coalesced post := (List.isChain_cons.1 (coalesced_append.1 hc).2.1).2
  rw [refill]
  split
  · -- The block was left as it is, and it is large enough.
    refine ⟨_, post, rfl, rfl, rfl, Nat.le_refl _, _, find?_spaces_own hzero (Nat.le_refl _), rfl,
      ?_⟩
    rw [Space.fill, ← hx, refill_self hx]
  · next hmin =>
    have hlt : need < x.size := by
      simp only [Size.minBlock] at hmin
      omega
    obtain ⟨y, ys, hys, hy, hlarge, hfill⟩ := exists_cutOff hx0 hrest hx hlt
    rw [hys]
    refine ⟨_, _, rfl, rfl, rfl, hle, _, find?_spaces_next hzero hlt hy hlarge, rfl, ?_⟩
    rw [Space.fill, hfill]

end Layout

variable {n : Nat} [HasClass n] {h : Heap n} {live : Live} {b p : Block} {xs pre post : List Extent}
  {x : Extent} {size need old : Nat}

/-! ## Handing out and taking back -/

namespace Heap

/-- A new block can be given back, and what is left is the old layout or that one extended. -/
theorem Shaped.free_new (g : h.Shaped p xs) (hs : h.Serves live) (hsize : size ≠ 0)
    (hneed : Size.ofRequest? size = some need)
    (hsome : ((allocate size).on h).result = .ok (some b)) :
    ((free (some b)).on ((allocate size).on h).state).result = .ok () ∧
      ∃ zs, ((free (some b)).on ((allocate size).on h).state).state.Shaped p zs ∧
        ((HasRoom need xs ∧ zs = xs) ∨
          (¬ HasRoom need xs ∧ zs = extend h.size (h.growthFor need) xs)) := by
  obtain ⟨hmin, h8, -, -⟩ := Size.ofRequest?_eq_some hneed
  have hfollows := g.allocate_follows hsize hneed
  cases hplan : h.serve? xs need with
  | none =>
      rw [hplan] at hfollows
      cases hfollows.1.symm.trans hsome
  | some plan =>
      obtain ⟨o, ys⟩ := plan
      rw [hplan] at hfollows
      obtain ⟨q, rfl, hresult, g₁⟩ := hfollows
      obtain rfl : q = b := Option.some.inj (Except.ok.inj (hresult.symm.trans hsome))
      obtain ⟨hfreed, g₂⟩ := g₁.free_follows (hs.allocated hsome).serves (List.mem_cons_self ..)
      have htiles : Tiles (p.offset + 8) xs h.size := g.around.before
      refine ⟨hfreed, _, g₂, ?_⟩
      rcases htiles.serve?_cases g.around.coalesced_pre hmin h8 hplan with
        hfits | ⟨hroom, -, hback⟩
      · exact .inl hfits
      · exact .inr ⟨hroom, hback⟩

end Heap

/-- **GIVING BACK AT ONCE** what was handed out undoes it. The heap shows what it showed before,
with the same lists, head by head, length by length and node by node. If it has grown for the block,
its layout has the new bytes at its end, and its lists are those of that layout. -/
theorem Reachable.free_allocate (hr : Reachable h live) (hready : h.prologue.isSome)
    (hsome : ((Heap.allocate size).on h).result = .ok (some b)) :
    ∃ xs need, h.layout = .ok xs ∧ Size.ofRequest? size = some need ∧
      let h₁ := ((Heap.allocate size).on h).state
      let outcome := (Heap.free (some b)).on h₁
      outcome.result = .ok () ∧
        ((h₁.size = h.size ∧ outcome.state.view = h.view ∧
            outcome.state.freeList = h.freeList) ∨
          (h₁.size = h.size + max need h.settings.chunkSize ∧
            outcome.state.layout = .ok (lengthen h.size (max need h.settings.chunkSize) xs) ∧
            ∀ c : Fin n, ∃ bs,
              (outcome.state.index.list c).RunsThrough outcome.state.memory bs ∧
                bs.map (·.offset) =
                  members c (lengthen h.size (max need h.settings.chunkSize) xs))) := by
  obtain ⟨p, xs, g, -⟩ := hr.serves.shaped_of_laidOut hready
  have hsize : size ≠ 0 := by
    rintro rfl
    cases hsome
  cases hneed : Size.ofRequest? size with
  | none => cases (g.allocate_tooLarge hsize hneed).1.symm.trans hsome
  | some need =>
      obtain ⟨hhas, hgrows, hrefuses⟩ := g.allocate_supplies hsize hneed
      obtain ⟨hfreed, zs, g', hafter⟩ := g.free_new hr.serves hsize hneed hsome
      refine ⟨xs, need, Heap.layout_eq_ok g, rfl, hfreed, ?_⟩
      rcases hafter with ⟨hroom, rfl⟩ | ⟨hroom, rfl⟩
      · obtain ⟨hview, hlists⟩ := g.shows g'
        exact .inl ⟨(hhas hroom).2, hview, hlists⟩
      · rw [extend_eq_lengthen g.around.coalesced_pre] at g'
        refine .inr ⟨?_, Heap.layout_eq_ok g', g'.charted.runsThrough⟩
        by_cases hfits : h.Fits (h.growthFor need)
        · exact (hgrows hroom hfits).2
        · cases (hrefuses hroom hfits).1.symm.trans hsome

/-- A small block leaves no trace. A large one leaves the chunk that the heap has grown by. -/
theorem free_allocate_halfFull :
    ((Heap.free (some ⟨4048, by decide⟩)).on
        ((Heap.allocate 24).on halfFull).state).state.freeList = halfFull.freeList ∧
      ((Heap.free (some ⟨4112, by decide⟩)).on
        ((Heap.allocate 4057).on halfFull).state).state.layout =
          .ok [⟨16, 4064, false⟩, ⟨4080, 32, true⟩, ⟨4112, 4096, false⟩] := by
  have hready : halfFull.prologue.isSome := rfl
  have hsmall : ((Heap.allocate 24).on halfFull).result = .ok (some ⟨4048, by decide⟩) := rfl
  have hlarge : ((Heap.allocate 4057).on halfFull).result = .ok (some ⟨4112, by decide⟩) := rfl
  have hlayout : halfFull.layout = .ok [⟨16, 4064, false⟩, ⟨4080, 32, true⟩] := rfl
  have hsame : ((Heap.allocate 24).on halfFull).state.size = 4112 := rfl
  have hgrown : ((Heap.allocate 4057).on halfFull).state.size = 8208 := rfl
  have hsize : halfFull.size = 4112 := rfl
  constructor
  · obtain ⟨xs, need, -, hneed, -, hafter⟩ := reachable_halfFull.free_allocate hready hsmall
    obtain rfl : 32 = need := Option.some.inj hneed
    rcases hafter with ⟨-, -, hlists⟩ | ⟨hmore, -⟩
    · exact hlists
    · rw [hsame, hsize] at hmore
      cases hmore
  · obtain ⟨xs, need, hxs, hneed, -, hafter⟩ := reachable_halfFull.free_allocate hready hlarge
    obtain rfl := Except.ok.inj (hlayout.symm.trans hxs)
    obtain rfl : 4072 = need := Option.some.inj hneed
    rcases hafter with ⟨hno, -⟩ | ⟨-, hlonger, -⟩
    · rw [hgrown, hsize] at hno
      cases hno
    · exact hlonger

/-! ## Shrinking and growing back -/

namespace Heap

/-- A block in use stays where it is when less is asked of it, and when all of it is asked for
again. -/
theorem Shaped.shrink_grow (g : h.Shaped p (pre ++ x :: post)) (hx : x.allocated = true)
    (hb : b.offset = x.offset) (hpos : size ≠ 0) (hle : size ≤ x.size - 8) :
    let shrunk := (reallocate (some b) size).on h
    let grown := (reallocate (some b) (x.size - 8)).on shrunk.state
    shrunk.result = .ok (some b) ∧ grown.result = .ok (some b) ∧
      (∃ ys, shrunk.state.Shaped p ys ∧
        (ys.map (·.size)).sum = ((pre ++ x :: post).map (·.size)).sum ∧
        ∃ y ∈ ys, y.offset = x.offset ∧ y.size ≤ x.size) ∧
      grown.state.Shaped p (pre ++ x :: post) := by
  have hmem : x ∈ pre ++ x :: post := List.mem_append_right _ (List.mem_cons_self ..)
  obtain ⟨-, -, hlarge, h8⟩ := g.around.before.bounds hmem
  have hmax : x.size ≤ Size.maxBlock := (g.charted.within x hmem).size_le
  have hlarge16 : 16 ≤ x.size := hlarge
  have hroom : size + Size.overhead ≤ x.size := by
    simp only [Size.overhead]
    omega
  obtain ⟨need, hneed, hfits⟩ := Size.exists_ofRequest?_le hlarge h8 hmax hroom
  have hall := Size.ofRequest?_payload hlarge h8 hmax
  have hzero : ∀ {h : Heap n} {xs}, h.Shaped p xs → h.region.canGrow 0 = true := fun g =>
    g.canGrow_iff.2 (Nat.zero_le _)
  obtain ⟨q, hq, hresult, g₁⟩ :=
    g.reallocate_fills hx hb hpos hneed (find?_spaces_own (hzero g) hfits)
  obtain rfl : q = b := Block.ext (hq.trans hb.symm)
  obtain ⟨y, ys, hys, hy, hyo, hsize, s, hfind, hs, hfill⟩ :=
    exists_regrowth g.around.before g.around.coalesced_pre hx hfits (hzero g₁)
  rw [Space.fill, hys] at g₁
  obtain ⟨q', hq', hresult', g₂⟩ := g₁.reallocate_fills hy (hb.trans hyo.symm)
    (show x.size - 8 ≠ 0 by omega) hall hfind
  obtain rfl : q' = q := Block.ext (hq'.trans (hs.trans hb.symm))
  rw [hfill] at g₂
  refine ⟨hresult, hresult', ⟨_, g₁, ?_, y, List.mem_append_right _ (List.mem_cons_self ..), hyo,
    hsize⟩, g₂⟩
  rw [← hys, List.map_append, List.sum_append, sum_refill hfits, List.map_append, List.sum_append]
  rfl

omit [HasClass n] in
/-- What a payload held is what it holds after it was made smaller and as large as before, up to
where it was cut. -/
theorem Carries.through {h₁ h₂ : Heap n} {b₁ b₂ : Block} {whole kept : Nat}
    (hc : h.Carries h₁ b b₁) (hc' : h₁.Carries h₂ b₁ b₂) (hwhole : h.usableSize b = .ok whole)
    (hkept : h₁.usableSize b₁ = .ok kept) (hle : kept ≤ whole)
    (hwhole' : h₂.usableSize b₂ = .ok whole) :
    ∃ bytes bytes', h.payloadBytes b = .ok bytes ∧ h₁.payloadBytes b₁ = .ok (bytes.take kept) ∧
      h₂.payloadBytes b₂ = .ok bytes' ∧ bytes'.take kept = bytes.take kept := by
  obtain ⟨bytes, mid, hbytes, hlength, hmid, hlength₁, htake⟩ := hc
  obtain ⟨mid', bytes', hmid', -, hbytes', hlength₂, htake'⟩ := hc'
  obtain rfl := Except.ok.inj (hmid.symm.trans hmid')
  obtain rfl := Except.ok.inj (hlength.symm.trans hwhole)
  obtain rfl := Except.ok.inj (hlength₁.symm.trans hkept)
  have hsame := Except.ok.inj (hlength₂.symm.trans hwhole')
  rw [Nat.min_eq_right hle, List.take_length] at htake
  rw [hsame, Nat.min_eq_left hle, List.take_length] at htake'
  exact ⟨bytes, bytes', hbytes, htake ▸ hmid, hbytes', htake'.trans htake⟩

end Heap

/-- **SHRINKING AND GROWING BACK** loses nothing. A block that gives up a part of its bytes and asks
for all of them stays where it is both times, and the heap shows what it showed before, with the
same lists. The bytes that the block did not give up are what they were. -/
theorem Reachable.shrink_then_grow {usable : Nat} (hr : Reachable h live) (hlive : (b, old) ∈ live)
    (husable : h.usableSize b = .ok usable) (hpos : 1 ≤ size) (hle : size ≤ usable) :
    let shrunk := (Heap.reallocate (some b) size).on h
    let grown := (Heap.reallocate (some b) usable).on shrunk.state
    shrunk.result = .ok (some b) ∧ grown.result = .ok (some b) ∧
      shrunk.state.size = h.size ∧ grown.state.view = h.view ∧
      grown.state.freeList = h.freeList ∧
      ∃ kept bytes bytes', shrunk.state.usableSize b = .ok kept ∧ size ≤ kept ∧
        h.payloadBytes b = .ok bytes ∧ shrunk.state.payloadBytes b = .ok (bytes.take kept) ∧
        grown.state.payloadBytes b = .ok bytes' ∧ bytes'.take kept = bytes.take kept := by
  intro shrunk grown
  obtain ⟨p, xs, g, hbacks⟩ := hr.serves.shaped_of_mem hlive
  obtain ⟨pre, x, post, rfl, hx, hb⟩ := hbacks.split hlive
  have hmem : x ∈ pre ++ x :: post := List.mem_append_right _ (List.mem_cons_self ..)
  have hhouse := (g.houses hmem hb).usableSize_eq_ok
  obtain rfl := Except.ok.inj (hhouse.symm.trans husable)
  obtain ⟨hshrunk, hgrown, ⟨ys, g₁, hsum, y, hy, hyo, hsmaller⟩, g₂⟩ :=
    g.shrink_grow hx hb (Nat.ne_of_gt hpos) hle
  obtain ⟨hview, hlists⟩ := g.shows g₂
  refine ⟨hshrunk, hgrown, ?_, hview, hlists, ?_⟩
  · rw [g₁.size_eq, hsum, g.size_eq]
  -- Both calls name a block of the client, so both carry its payload over.
  have hserved := hr.serves.reallocated hlive hshrunk
  have hserved' := hserved.serves.reallocated (List.mem_cons_self ..) hgrown
  have hkept := (g₁.houses hy (hb.trans hyo.symm)).usableSize_eq_ok
  obtain ⟨bytes, bytes', hbytes, hmid, hbytes', htake⟩ :=
    (hserved.carries b size b rfl rfl).through (hserved'.carries b _ b rfl rfl) husable hkept
      (Nat.sub_le_sub_right hsmaller 8) (g₂.houses hmem hb).usableSize_eq_ok
  obtain ⟨-, kept, hkept', hroom, -⟩ :=
    hserved.serves.usableSize_eq_ok (List.mem_cons_self ..)
  obtain rfl := Except.ok.inj (hkept.symm.trans hkept')
  exact ⟨_, bytes, bytes', hkept, hroom, hbytes, hmid, hbytes', htake⟩

/-- The lower block gives up 32 of its 48 bytes, which are a free block for a while. -/
theorem shrink_then_grow_twoBlocks :
    ((Heap.reallocate (some ⟨4032, by decide⟩) 8).on twoBlocks).state.size = 4112 ∧
      ((Heap.reallocate (some ⟨4032, by decide⟩) 40).on
        ((Heap.reallocate (some ⟨4032, by decide⟩) 8).on twoBlocks).state).result =
          .ok (some ⟨4032, by decide⟩) ∧
      ((Heap.reallocate (some ⟨4032, by decide⟩) 40).on
        ((Heap.reallocate (some ⟨4032, by decide⟩) 8).on twoBlocks).state).state.view =
          twoBlocks.view := by
  have husable : twoBlocks.usableSize ⟨4032, by decide⟩ = .ok 40 := rfl
  obtain ⟨-, hgrown, hsize, hview, -, -⟩ :=
    reachable_twoBlocks.shrink_then_grow (.head _) husable (show 1 ≤ 8 by decide) (by decide)
  exact ⟨hsize, hgrown, hview⟩

end TagHeap
