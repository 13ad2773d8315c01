import TagHeap.Proofs.Answers
import TagHeap.Proofs.Guarantees
import TagHeap.Proofs.Releasing

/-!
# Spaces

Where a block can get another size without moving away. There are five spaces around a block, which
`Layout.spaces` lists in the order in which they are tried: the block, the block with its next
neighbour, the last block with bytes that are still to be granted, the block with its previous
neighbour, the block with both. The four attempts of a plan are one function on spaces, so a resize
fills THE FIRST SPACE THAT FITS (`Layout.resize?_eq`).

What it leaves is the old layout with the blocks of that space replaced (`Space.MadeOf` says which
those are, `Layout.refill` by what). Only the rest of the space can touch a free block, the one
behind the space, so merging goes no further than that.
-/

namespace TagHeap

open Layout Operation

namespace Layout

/-- Bytes that a block in use can have, between blocks that stay as they are. The last `added` of
them are not granted yet. -/
structure Space where
  pre : List Extent
  offset : Nat
  total : Nat
  post : List Extent
  added : Nat

variable {pre post : List Extent} {x : Extent} {o total need spare : Nat}

/-! ## Filling a space -/

/-- What stands from `o` on when a block in use gets `need` of `total` bytes there. What is too
small for a block of its own stays in it, and what is not is free, as one block with a free
follower. -/
def refill (o total need : Nat) (post : List Extent) : List Extent :=
  if total - need < Size.minBlock then ⟨o, total, true⟩ :: post
  else ⟨o, need, true⟩ :: fuse ⟨o + need, total - need, false⟩ post

theorem fuse_of_allocated (hx : x.allocated = true) (xs : List Extent) : fuse x xs = x :: xs := by
  cases xs with
  | nil => rfl
  | cons y ys => rw [fuse, hx, Bool.true_or, if_pos rfl]

/-- A block in use keeps what merges behind it apart from what stands in front of it. -/
theorem merge_append_cons (hpre : Coalesced pre) (hx : x.allocated = true) :
    merge (pre ++ x :: post) = pre ++ x :: merge post := by
  rw [← merge_append_merge pre (x :: post), merge_cons, fuse_of_allocated hx,
    merge_of_coalesced (coalesced_append_cons hx hpre (coalesced_merge post))]

/-- Filling a space between merged blocks only merges what is left of it. -/
theorem merge_occupied (hpre : Coalesced pre) (hpost : Coalesced post) :
    merge (pre ++ occupied o total need ++ post) = pre ++ refill o total need post := by
  rw [List.append_assoc, occupied, refill]
  split
  · rw [List.singleton_append, merge_append_cons hpre rfl, merge_of_coalesced hpost]
  · rw [List.cons_append, List.singleton_append, merge_append_cons hpre rfl, merge_cons,
      merge_of_coalesced hpost]

/-- A block in use that takes all of its own bytes is what it was. -/
theorem refill_self (hx : x.allocated = true) (post : List Extent) :
    refill x.offset x.size x.size post = x :: post := by
  rw [refill, Nat.sub_self, if_pos (by decide), ← hx]

namespace Space

/-- The space holds `need` bytes, and those that it lacks would be granted. -/
def fits (canGrow : Nat → Bool) (need : Nat) (s : Space) : Bool :=
  decide (need ≤ s.total) && canGrow s.added

/-- The layout with the first `need` bytes of the space in use. -/
def fill (need : Nat) (s : Space) : List Extent := s.pre ++ refill s.offset s.total need s.post

/-- Puts a block of `need` bytes into the space if it fits. -/
def plan? (canGrow : Nat → Bool) (need : Nat) (s : Space) : Option (Nat × List Extent) :=
  if s.fits canGrow need then some (s.offset, s.fill need) else none

theorem findSome?_plan? (canGrow : Nat → Bool) (need : Nat) (ss : List Space) :
    ss.findSome? (plan? canGrow need) =
      (ss.find? (·.fits canGrow need)).map fun s => (s.offset, s.fill need) := by
  induction ss with
  | nil => rfl
  | cons s ss ih =>
      rw [List.findSome?_cons, List.find?_cons, plan?]
      cases s.fits canGrow need with
      | true => rfl
      | false => exact ih

end Space

/-! ## The spaces around a block -/

/-- The block with the next one, which is free. -/
def withNext? (pre : List Extent) (x : Extent) : List Extent → Option Space
  | [] => none
  | y :: ys => if y.allocated then none else some ⟨pre, x.offset, x.size + y.size, ys, 0⟩

/-- The block, which is the last one, with the bytes behind the end that it lacks. -/
def withEnd? (need : Nat) (pre : List Extent) (x : Extent) : List Extent → Option Space
  | [] => some ⟨pre, x.offset, x.size + (need - x.size), [], need - x.size⟩
  | _ :: _ => none

/-- The block with the previous one, which is free. -/
def withPrevious? (pre : List Extent) (x : Extent) (post : List Extent) : Option Space :=
  pre.getLast?.bind fun z =>
    if z.allocated then none else some ⟨pre.dropLast, z.offset, z.size + x.size, post, 0⟩

/-- The block with both of its neighbours, which are free. -/
def withBoth? (pre : List Extent) (x : Extent) : List Extent → Option Space
  | [] => none
  | y :: ys => pre.getLast?.bind fun z =>
      if z.allocated || y.allocated then none
      else some ⟨pre.dropLast, z.offset, z.size + x.size + y.size, ys, 0⟩

/-- The spaces that the block `x` can have without moving away, in the order of preference. -/
def spaces (need : Nat) (pre : List Extent) (x : Extent) (post : List Extent) : List Space :=
  ⟨pre, x.offset, x.size, post, 0⟩ ::
    ((withNext? pre x post).toList ++ (withEnd? need pre x post).toList ++
      (withPrevious? pre x post).toList ++ (withBoth? pre x post).toList)

section First

variable {canGrow : Nat → Bool}

/-- A block that is large enough needs no other space. -/
theorem find?_spaces_own (hzero : canGrow 0 = true) (hle : need ≤ x.size) :
    (spaces need pre x post).find? (·.fits canGrow need) =
      some ⟨pre, x.offset, x.size, post, 0⟩ := by
  rw [spaces, List.find?_cons_of_pos]
  rw [Space.fits, hzero, Bool.and_true, decide_eq_true hle]

/-- A block that is too small has the space behind it, if that is free and large enough. -/
theorem find?_spaces_next {y : Extent} {ys : List Extent} (hzero : canGrow 0 = true)
    (hlt : x.size < need) (hy : y.allocated = false) (hle : need ≤ x.size + y.size) :
    (spaces need pre x (y :: ys)).find? (·.fits canGrow need) =
      some ⟨pre, x.offset, x.size + y.size, ys, 0⟩ := by
  have hown : ¬ Space.fits canGrow need ⟨pre, x.offset, x.size, y :: ys, 0⟩ = true := by
    rw [Space.fits, decide_eq_false (Nat.not_le.2 hlt), Bool.false_and]
    exact Bool.false_ne_true
  have hnext : Space.fits canGrow need ⟨pre, x.offset, x.size + y.size, ys, 0⟩ = true := by
    rw [Space.fits, hzero, Bool.and_true, decide_eq_true hle]
  rw [spaces, List.find?_cons_of_neg hown, withNext?, if_neg (Bool.eq_false_iff.1 hy),
    Option.toList_some]
  exact List.find?_cons_of_pos hnext

end First

/-- The space is made of the blocks `taken` of the layout `xs`, of which only `x` is in use, and of
what is added for it at the end. -/
structure Space.MadeOf (s : Space) (taken xs : List Extent) (x : Extent) : Prop where
  layout : xs = s.pre ++ taken ++ s.post
  offset : taken.head?.map (·.offset) = some s.offset
  own : used taken = [x]
  total : s.total = (taken.map (·.size)).sum + s.added
  atEnd : s.added = 0 ∨ s.post = []

/-- **A SPACE** takes nothing but the block, free neighbours of it and what is added. -/
theorem madeOf_of_mem_spaces {s : Space} (hx : x.allocated = true)
    (hs : s ∈ spaces need pre x post) : ∃ taken, s.MadeOf taken (pre ++ x :: post) x := by
  simp only [spaces, List.mem_cons, List.mem_append, Option.mem_toList] at hs
  rcases hs with rfl | ((hs | hs) | hs) | hs
  · exact ⟨[x], by simp, rfl, by simp [used, hx], rfl, .inl rfl⟩
  · cases post with
    | nil => cases hs
    | cons y ys =>
        rw [withNext?, Option.ite_none_left_eq_some] at hs
        obtain ⟨hy, ⟨⟩⟩ := hs
        exact ⟨[x, y], by simp, rfl, by simp [used, hx, hy], rfl, .inl rfl⟩
  · cases post with
    | nil =>
        cases hs
        exact ⟨[x], by simp, rfl, by simp [used, hx], rfl, .inr rfl⟩
    | cons y ys => cases hs
  · rcases List.eq_nil_or_concat' pre with rfl | ⟨zs, z, rfl⟩
    · cases hs
    · rw [withPrevious?, List.getLast?_concat, List.dropLast_concat, Option.bind_some,
        Option.ite_none_left_eq_some] at hs
      obtain ⟨hz, ⟨⟩⟩ := hs
      exact ⟨[z, x], by simp, rfl, by simp [used, hx, hz], rfl, .inl rfl⟩
  · cases post with
    | nil => cases hs
    | cons y ys =>
        rcases List.eq_nil_or_concat' pre with rfl | ⟨zs, z, rfl⟩
        · cases hs
        · rw [withBoth?, List.getLast?_concat, List.dropLast_concat, Option.bind_some,
            Option.ite_none_left_eq_some, Bool.or_eq_true, not_or] at hs
          obtain ⟨⟨hz, hy⟩, ⟨⟩⟩ := hs
          exact ⟨[z, x, y], by simp, rfl, by simp [used, hx, hz, hy], by simp [Nat.add_assoc],
            .inl rfl⟩

theorem sum_refill (hle : need ≤ total) (post : List Extent) :
    ((refill o total need post).map (·.size)).sum = total + (post.map (·.size)).sum := by
  rw [refill]
  split
  · rfl
  · rw [List.map_cons, List.sum_cons, sum_fuse]
    dsimp only
    omega

/-- The layout gets longer by what is added. -/
theorem Space.MadeOf.sum_fill {s : Space} {taken xs : List Extent} (hs : s.MadeOf taken xs x)
    (hle : need ≤ s.total) :
    ((s.fill need).map (·.size)).sum = (xs.map (·.size)).sum + s.added := by
  rw [hs.layout, fill, List.map_append, List.sum_append, sum_refill hle, hs.total]
  simp only [List.map_append, List.sum_append]
  omega

section Attempts

variable {canGrow : Nat → Bool}

/-- A space of granted bytes is filled by occupying it. -/
private theorem plan?_eq (hzero : canGrow 0 = true) (hpre : Coalesced pre)
    (hpost : Coalesced post) :
    (⟨pre, o, total, post, 0⟩ : Space).plan? canGrow need =
      if need ≤ total then some (o, merge (pre ++ occupied o total need ++ post)) else none := by
  simp only [Space.plan?, Space.fits, Space.fill, hzero, Bool.and_true, decide_eq_true_eq,
    merge_occupied hpre hpost]

private theorem overNext?_eq (hzero : canGrow 0 = true) (hc : Coalesced (pre ++ x :: post)) :
    overNext? need pre x post = (withNext? pre x post).bind (·.plan? canGrow need) := by
  cases post with
  | nil => rfl
  | cons y ys =>
      obtain ⟨hpre, hrest, -⟩ := coalesced_append.1 hc
      have hys : Coalesced ys := (List.isChain_cons.1 (List.isChain_cons.1 hrest).2).2
      rw [overNext?, withNext?]
      cases y.allocated with
      | true => rfl
      | false =>
          refine Eq.trans ?_ (plan?_eq hzero hpre hys).symm
          simp only [true_and]

private theorem pastEnd?_eq (hgrow : ∀ k, canGrow k = decide (k ≤ spare)) (hx : x.size ≤ need) :
    pastEnd? spare need pre x post =
      (withEnd? need pre x post).bind (·.plan? canGrow need) := by
  cases post with
  | nil =>
      rw [withEnd?, Nat.add_sub_cancel' hx]
      simp [pastEnd?, Space.plan?, Space.fits, Space.fill, refill, hgrow]
  | cons y ys =>
      refine if_neg ?_
      rintro ⟨hnil, -⟩
      cases hnil

private theorem overPrevious?_eq (hzero : canGrow 0 = true) (hc : Coalesced (pre ++ x :: post)) :
    overPrevious? need pre x post = (withPrevious? pre x post).bind (·.plan? canGrow need) := by
  rcases List.eq_nil_or_concat' pre with rfl | ⟨zs, z, rfl⟩
  · rfl
  · obtain ⟨hpre, hrest, -⟩ := coalesced_append.1 hc
    have hpost : Coalesced post := (List.isChain_cons.1 hrest).2
    have hzs : Coalesced zs := (coalesced_append.1 hpre).1
    rw [overPrevious?, withPrevious?, List.getLast?_concat, List.dropLast_concat, Option.bind_some,
      Option.bind_some]
    cases z.allocated with
    | true => rfl
    | false =>
        refine Eq.trans ?_ (plan?_eq hzero hzs hpost).symm
        simp only [true_and]

private theorem overBoth?_eq (hzero : canGrow 0 = true) (hc : Coalesced (pre ++ x :: post)) :
    overBoth? need pre x post = (withBoth? pre x post).bind (·.plan? canGrow need) := by
  cases post with
  | nil => rfl
  | cons y ys =>
      rcases List.eq_nil_or_concat' pre with rfl | ⟨zs, z, rfl⟩
      · rfl
      · obtain ⟨hpre, hrest, -⟩ := coalesced_append.1 hc
        have hys : Coalesced ys := (List.isChain_cons.1 (List.isChain_cons.1 hrest).2).2
        have hzs : Coalesced zs := (coalesced_append.1 hpre).1
        rw [overBoth?, withBoth?, List.getLast?_concat, List.dropLast_concat, Option.bind_some,
          Option.bind_some]
        cases z.allocated with
        | true => rfl
        | false => cases y.allocated with
          | true => rfl
          | false =>
              refine Eq.trans ?_ (plan?_eq hzero hzs hys).symm
              simp only [true_and]

private theorem findSome?_toList (s? : Option Space) :
    s?.toList.findSome? (·.plan? canGrow need) = s?.bind (·.plan? canGrow need) := by
  cases s? with
  | none => rfl
  | some s => rw [Option.toList_some, List.findSome?_singleton, Option.bind_some]

/-- **THE FIRST SPACE** around the block that fits is the one that it gets. -/
theorem resize?_eq {settings : Settings} {stop : Nat}
    (hgrow : ∀ k, canGrow k = decide (k ≤ spare)) (hc : Coalesced (pre ++ x :: post)) :
    resize? settings stop spare need pre x post =
      match (spaces need pre x post).find? (·.fits canGrow need) with
      | some s => some (s.offset, s.fill need)
      | none => (serve? settings stop spare need (pre ++ x :: post)).map fun plan =>
          (plan.1, takeBack x.offset plan.2) := by
  have hzero : canGrow 0 = true := by rw [hgrow, decide_eq_true (Nat.zero_le _)]
  obtain ⟨hpre, hrest, -⟩ := coalesced_append.1 hc
  have hpost : Coalesced post := (List.isChain_cons.1 hrest).2
  have hplans : resize? settings stop spare need pre x post =
      ((spaces need pre x post).findSome? (·.plan? canGrow need)).or
        ((serve? settings stop spare need (pre ++ x :: post)).map fun plan =>
          (plan.1, takeBack x.offset plan.2)) := by
    rw [resize?, spaces, List.findSome?_cons, plan?_eq hzero hpre hpost]
    by_cases hfits : need ≤ x.size
    · rw [if_pos hfits, if_pos hfits]
      rfl
    · rw [if_neg hfits, if_neg hfits, grow?, overNext?_eq hzero hc,
        pastEnd?_eq hgrow (Nat.le_of_not_le hfits), overPrevious?_eq hzero hc,
        overBoth?_eq hzero hc]
      simp only [List.findSome?_append, findSome?_toList, Option.or_assoc]
  rw [hplans, Space.findSome?_plan?]
  cases (spaces need pre x post).find? (·.fits canGrow need) with
  | none => rfl
  | some s => rfl

end Attempts

end Layout

variable {n : Nat} [HasClass n] {h : Heap n} {live : Live} {b : Block} {p : Block}
  {pre post : List Extent} {x : Extent} {old size need : Nat}

namespace Heap

/-- The block `b` got `need` bytes in the space `s`. The blocks in front of the space are what they
were, those behind it too unless what is left was merged with the first of them, and the heap has
grown by what the space lacked. -/
structure StaysNear (h : Heap n) (live : Live) (b : Block) (need : Nat) (s : Space)
    (outcome : Outcome (Heap n) (Option Block)) : Prop where
  result : ∃ q, outcome.result = .ok (some q) ∧ q.offset = s.offset
  layout : outcome.state.layout = .ok (s.pre ++ refill s.offset s.total need s.post)
  coalesced : Coalesced (s.pre ++ refill s.offset s.total need s.post)
  size : outcome.state.size = h.size + s.added
  keeps : ∀ e ∈ live.without (some b), h.Keeps outcome.state e.1

/-- The block `b` was moved to where a request for a new block would have got one, and given back.
If there was no new block, nothing happened. -/
structure MovesAway (h : Heap n) (b : Block) (size : Nat)
    (outcome : Outcome (Heap n) (Option Block)) : Prop where
  result : outcome.result = ((allocate size).on h).result
  freed : ∀ q, outcome.result = .ok (some q) →
    outcome.state.view = ((free (some b)).on ((allocate size).on h).state).state.view ∧
      outcome.state.freeList = ((free (some b)).on ((allocate size).on h).state).state.freeList
  stays : outcome.result = .ok none → outcome.state = h

/-- Resizing a block follows the plan for the first space around it that fits. -/
theorem Shaped.reallocate_follows_spaces (g : h.Shaped p (pre ++ x :: post))
    (hx : x.allocated = true) (hb : b.offset = x.offset) (hsize : size ≠ 0)
    (hneed : Size.ofRequest? size = some need) :
    h.Follows p
      (match (spaces need pre x post).find? (·.fits h.region.canGrow need) with
        | some s => some (s.offset, s.fill need)
        | none => (h.serve? (pre ++ x :: post) need).map fun plan =>
            (plan.1, takeBack x.offset plan.2))
      ((reallocate (some b) size).on h) := by
  have hplan := g.reallocate_follows hx hb hsize hneed
  rwa [show h.resize? pre x post need = _ from
    resize?_eq g.ready.canGrow_eq g.around.coalesced_pre] at hplan

/-- A space that fits is filled. -/
theorem Shaped.reallocate_fills {s : Space} (g : h.Shaped p (pre ++ x :: post))
    (hx : x.allocated = true) (hb : b.offset = x.offset) (hsize : size ≠ 0)
    (hneed : Size.ofRequest? size = some need)
    (hfind : (spaces need pre x post).find? (·.fits h.region.canGrow need) = some s) :
    ∃ q : Block, q.offset = s.offset ∧ ((reallocate (some b) size).on h).result = .ok (some q) ∧
      ((reallocate (some b) size).on h).state.Shaped p (s.fill need) := by
  have hfollows := g.reallocate_follows_spaces hx hb hsize hneed
  rw [hfind] at hfollows
  exact hfollows

/-- The block of a client that stays near leaves all other blocks of the client alone. -/
theorem Shaped.staysNear {s : Space} (g : h.Shaped p (pre ++ x :: post)) (hs : h.Serves live)
    (hlive : (b, old) ∈ live) (hx : x.allocated = true) (hb : b.offset = x.offset)
    (hsize : size ≠ 0) (hneed : Size.ofRequest? size = some need)
    (hfind : (spaces need pre x post).find? (·.fits h.region.canGrow need) = some s) :
    h.StaysNear live b need s ((reallocate (some b) size).on h) := by
  obtain ⟨q, hq, hresult, g'⟩ := g.reallocate_fills hx hb hsize hneed hfind
  have hfits := List.find?_some hfind
  rw [Space.fits, Bool.and_eq_true, decide_eq_true_eq] at hfits
  obtain ⟨taken, hmade⟩ := madeOf_of_mem_spaces hx (List.mem_of_find?_eq_some hfind)
  refine ⟨⟨q, hresult, hq⟩, layout_eq_ok g', g'.around.coalesced_pre, ?_,
    (hs.reallocated hlive hresult).keeps⟩
  rw [g'.size_eq, g.size_eq, hmade.sum_fill hfits.1, ← Nat.add_assoc]

/-- Without such a space the block goes where a new one would have gone. -/
theorem Shaped.movesAway (g : h.Shaped p (pre ++ x :: post)) (hs : h.Serves live)
    (hlive : (b, old) ∈ live) (hx : x.allocated = true) (hb : b.offset = x.offset)
    (hsize : size ≠ 0) (hneed : Size.ofRequest? size = some need)
    (hfind : (spaces need pre x post).find? (·.fits h.region.canGrow need) = none) :
    h.MovesAway b size ((reallocate (some b) size).on h) := by
  have hfollows := g.reallocate_follows_spaces hx hb hsize hneed
  have hnew := g.allocate_follows hsize hneed
  rw [hfind] at hfollows
  cases hplan : h.serve? (pre ++ x :: post) need with
  | none =>
      rw [hplan] at hfollows hnew
      obtain ⟨hresult, hstate⟩ := hfollows
      refine ⟨hresult.trans hnew.1.symm, fun q hq => ?_, fun _ => hstate⟩
      cases hresult.symm.trans hq
  | some plan =>
      rw [hplan] at hfollows hnew
      obtain ⟨q, hq, hresult, g'⟩ := hfollows
      obtain ⟨q', hq', hnew, gnew⟩ := hnew
      obtain rfl : q = q' := Block.ext (hq.trans hq'.symm)
      refine ⟨hresult.trans hnew.symm, fun _ _ => ?_, fun hnone => ?_⟩
      · -- The client that asked for the new block still has the old one to give back.
        obtain ⟨-, gfree⟩ :=
          gnew.free_follows (hs.allocated hnew).serves (List.mem_cons_of_mem _ hlive)
        rw [hb] at gfree
        exact gfree.shows g'
      · cases hresult.symm.trans hnone

end Heap

/-- **RESIZING TAKES THE FIRST SPACE THAT FITS**, of the block itself, the block with its next
neighbour, the last block with more bytes from the region, the block with its previous neighbour,
and the block with both of them. It makes a block in use of that space and changes nothing else. A
request fits into the payload just if the size that serves it fits into the block. Where no space
fits, the block moves to where a new block would have been handed out and is given back, and when
that fails too nothing has happened. -/
theorem Reachable.reallocate_takes_first_space (hr : Reachable h live) (hlive : (b, old) ∈ live)
    (hsize : 0 < size) (hneed : Size.ofRequest? size = some need) :
    ∃ pre x post, h.layout = .ok (pre ++ x :: post) ∧ x.allocated = true ∧ x.offset = b.offset ∧
      h.usableSize b = .ok (x.size - 8) ∧ (size ≤ x.size - 8 ↔ need ≤ x.size) ∧
      match (spaces need pre x post).find? (·.fits h.region.canGrow need) with
      | some s => (∃ taken, s.MadeOf taken (pre ++ x :: post) x) ∧
          h.StaysNear live b need s ((Heap.reallocate (some b) size).on h)
      | none => h.MovesAway b size ((Heap.reallocate (some b) size).on h) := by
  obtain ⟨p, xs, g, hbacks⟩ := hr.serves.shaped_of_mem hlive
  obtain ⟨pre, x, post, rfl, hx, hb⟩ := hbacks.split hlive
  have hmem : x ∈ pre ++ x :: post := List.mem_append_right _ (List.mem_cons_self ..)
  obtain ⟨-, -, hlarge, h8⟩ := g.around.before.bounds hmem
  refine ⟨pre, x, post, Heap.layout_eq_ok g, hx, hb.symm, (g.houses hmem hb).usableSize_eq_ok,
    ?_, ?_⟩
  · have hroom : size + 8 ≤ need := (Size.ofRequest?_eq_some hneed).2.2.2
    have hlarge16 : 16 ≤ x.size := hlarge
    constructor
    · intro hle
      exact Size.ofRequest?_le hneed hlarge h8 (by simp only [Size.overhead]; omega)
    · omega
  · have hne := Nat.ne_of_gt hsize
    split
    · next s hfind =>
      exact ⟨madeOf_of_mem_spaces hx (List.mem_of_find?_eq_some hfind),
        g.staysNear hr.serves hlive hx hb hne hneed hfind⟩
    · next hfind => exact g.movesAway hr.serves hlive hx hb hne hneed hfind

/-- The lower of the two blocks grows over the free block in front of it, and it stays where it is
when it asks for more than there is. -/
theorem reallocate_takes_first_space_twoBlocks :
    (∃ q : Block, ((Heap.reallocate (some ⟨4032, by decide⟩) 60).on twoBlocks).result =
        .ok (some q) ∧ q.offset = 16) ∧
      ((Heap.reallocate (some ⟨4032, by decide⟩) 60).on twoBlocks).state.layout =
        .ok [⟨16, 72, true⟩, ⟨88, 3992, false⟩, ⟨4080, 32, true⟩] ∧
      ((Heap.reallocate (some ⟨4032, by decide⟩) 60).on twoBlocks).state.size = 4112 ∧
      ((Heap.reallocate (some ⟨4032, by decide⟩) 5000).on twoBlocks).state = twoBlocks := by
  have hlayout : twoBlocks.layout =
      .ok [⟨16, 4016, false⟩, ⟨4032, 48, true⟩, ⟨4080, 32, true⟩] := rfl
  -- Where the block lies tells which of the three it is.
  have htiles : Tiles 16 [⟨16, 4016, false⟩, ⟨4032, 48, true⟩, ⟨4080, 32, true⟩] 4112 := by
    simp [Tiles, Size.minBlock]
  have hsplit : ∀ {pre post : List Extent} {x : Extent}, twoBlocks.layout = .ok (pre ++ x :: post) →
      x.offset = 4032 → pre = [⟨16, 4016, false⟩] ∧ x = ⟨4032, 48, true⟩ ∧
        post = [⟨4080, 32, true⟩] := by
    intro pre post x hxs hx
    obtain hxs := Except.ok.inj (hlayout.symm.trans hxs)
    rw [hxs] at htiles
    have hcut := htiles.cut?_eq_some
    rw [hx, ← hxs] at hcut
    cases hcut
    exact ⟨rfl, rfl, rfl⟩
  obtain ⟨pre, x, post, hxs, -, hx, -, -, hthen⟩ :=
    reachable_twoBlocks.reallocate_takes_first_space (.head _) (show 0 < 60 by decide) rfl
  obtain ⟨rfl, rfl, rfl⟩ := hsplit hxs hx
  obtain ⟨-, hnear⟩ : (∃ taken, Space.MadeOf ⟨[], 16, 4064, [⟨4080, 32, true⟩], 0⟩ taken _ _) ∧
      twoBlocks.StaysNear _ _ 72 ⟨[], 16, 4064, [⟨4080, 32, true⟩], 0⟩ _ := hthen
  obtain ⟨pre, x, post, hxs, -, hx, -, -, hthen⟩ :=
    reachable_twoBlocks.reallocate_takes_first_space (.head _) (show 0 < 5000 by decide) rfl
  obtain ⟨rfl, rfl, rfl⟩ := hsplit hxs hx
  have haway : twoBlocks.MovesAway _ 5000 _ := hthen
  exact ⟨hnear.result, hnear.layout, hnear.size, haway.stays rfl⟩

end TagHeap
