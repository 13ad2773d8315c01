import TagHeap.Proofs.Canonicity

/-!
# Merging a run of free blocks

What coalescing does, whoever calls it. A block that was marked free is on no list yet, and there
may be free blocks next to it, in front of it, behind it or both. `Heap.Loose` says that this is all
that is out of order. Then coalescing makes one free block of the whole run of free blocks, and
`Heap.RunMerged` says in full what else may change, which is nothing but links: other blocks and the
sentinels keep the words of their tags, blocks in use keep every byte, and each list keeps its other
nodes in their order (`Heap.Loose.coalesce_completes`).

The free neighbours may be next to each other on one list, or on the lists of two classes, and the
new block may belong to a third one. In terms of layouts these are no cases: a list holds the
members of its class, and the members of a layout in three parts come in three parts.
-/

namespace TagHeap

open Layout Operation

variable {n : Nat} [HasClass n]

/-- The index of a layout, as walks along its lists find it. -/
theorem Index.Lists.runsThrough {index : Index n} {m : Memory} {xs : List Extent}
    (hl : index.Lists m xs) (hp : Placed m xs) (fits : m.size < Size.wordBound) (c : Fin n) :
    (index.list c).RunsThrough m ((members c xs).filterMap Block.ofOffset?) :=
  ((hl c).runsThrough (hp.nodes c) (size_lt_bound fits)).1

namespace Layout

/-- The free block that the blocks `xs` make together, when the first of them is `w`. -/
def joined (w : Block) (xs : List Extent) : Extent := ⟨w.offset, (xs.map (·.size)).sum, false⟩

/-- The nodes of a layout are those of blocks of the layout. -/
theorem exists_of_mem_nodes {c : Fin n} {xs : List Extent} {q : Block}
    (hq : q ∈ (members c xs).filterMap Block.ofOffset?) : ∃ y ∈ xs, q.offset = y.offset := by
  obtain ⟨y, hy, -, -, hyq⟩ := mem_members.1 (Block.mem_filterMap_ofOffset?.1 hq)
  exact ⟨y, hy, hyq.symm⟩

/-- A free block is the only node of its class. -/
theorem nodes_joined (c : Fin n) (w : Block) (xs : List Extent) :
    (members c [joined w xs]).filterMap Block.ofOffset? =
      if Index.classOf n (joined w xs).size = c then [w] else [] := by
  by_cases hc : Index.classOf n (joined w xs).size = c
  · rw [if_pos hc, ← hc, members_cons_of_free rfl]
    simp [joined, members]
  · rw [if_neg hc, members_cons_of_ne hc]
    rfl

end Layout

namespace FreeRun

variable {before as bs after : List Extent} {x : Extent} {w : Block} {size : Nat}

/-- A run starts where its first block does. -/
theorem start (r : FreeRun before as x.offset x.size bs after w size) :
    (as ++ x :: bs).head?.map (·.offset) = some w.offset := by
  have hfront := r.tiles_front
  cases as with
  | nil => exact congrArg some hfront.symm
  | cons y ys => exact congrArg some hfront.1

/-- The blocks of a run add up to all of its bytes. -/
theorem joined_eq (r : FreeRun before as x.offset x.size bs after w size) :
    joined w (as ++ x :: bs) = ⟨w.offset, size, false⟩ := by
  have hfront := r.tiles_front.sum
  have hbehind := r.tiles_behind.sum
  have hsum : ((as ++ x :: bs).map (·.size)).sum = size := by
    rw [List.map_append, List.sum_append, List.map_cons, List.sum_cons]
    omega
  rw [joined, hsum]

end FreeRun

namespace Heap

variable {h h' : Heap n} {p b w : Block} {pre post before as bs after xs : List Extent} {x : Extent}
  {o s size : Nat}

/-- The heap is in order but for the free block `x`. It is on no list, and it may have free
neighbours. -/
structure Loose (h : Heap n) (p : Block) (pre : List Extent) (x : Extent) (post : List Extent) :
    Prop where
  prologue : h.prologue = some p
  ready : h.region.Ready
  aligned : p.offset % 8 = 0
  /-- The blocks lie one behind the other, from the prologue to the epilogue. -/
  tiles : Tiles (p.offset + 8) (pre ++ x :: post) h.size
  /-- The sentinels carry their tags, and both tags of a block tell of it. -/
  readable : Readable h.memory p (pre ++ x :: post)
  free : x.allocated = false
  coalesced_pre : Coalesced pre
  coalesced_post : Coalesced post
  /-- The other free blocks are on the lists of their classes. -/
  listed : h.index.Lists h.memory (pre ++ post)

/-- The heap `h'` is `h` with the run `xs` of free blocks made the free block `w`. -/
structure RunMerged (h : Heap n) (before xs after : List Extent) (w : Block) (h' : Heap n) :
    Prop where
  free : ∀ y ∈ xs, y.allocated = false
  /-- The run is as long as can be. -/
  endsUsed : EndsUsed before
  startsUsed : StartsUsed after
  /-- The new block starts where the first one of the run did. -/
  start : xs.head?.map (·.offset) = some w.offset
  prologue : h'.prologue = h.prologue
  size : h'.size = h.size
  layout : h'.layout = .ok (before ++ joined w xs :: after)
  coalesced : Coalesced (before ++ joined w xs :: after)
  tagged : (joined w xs).Tagged h'.memory
  /-- The sentinels and the other blocks keep the words of their tags. -/
  tags : ∀ i ∈ h.tagPlaces (before ++ after), h'.memory.word i = h.memory.word i
  /-- The blocks in use keep their bytes. -/
  bytes : ∀ y ∈ before ++ after, y.allocated = true → ∀ i, y.Covers i →
    h'.memory.byte i = h.memory.byte i
  /-- A list loses the nodes that were blocks of the run, and the list of the new block's class has
  that block in their place. The other nodes stay, in their order. -/
  lists : ∀ c, ∃ front gone back,
    (h.index.list c).RunsThrough h.memory (front ++ gone ++ back) ∧
    (h'.index.list c).RunsThrough h'.memory
      (front ++ (if Index.classOf n (joined w xs).size = c then [w] else []) ++ back) ∧
    (∀ q ∈ gone, ∃ y ∈ xs, q.offset = y.offset) ∧
    ∀ q ∈ front ++ back, ∃ y ∈ before ++ after, q.offset = y.offset

/-- A block that is on no list may be looked at as a gap, in which its tags still are. -/
theorem Loose.ajar (g : h.Loose p pre x post) :
    h.Ajar p pre x.offset x.size post ∧ x.Within h.memory ∧ x.Marked h.memory := by
  obtain ⟨_, hpre, rfl, hs, h8, hpost⟩ := tiles_append.1 g.tiles
  have a : Around p pre x.offset x.size post h.memory.size :=
    { aligned := g.aligned
      before := hpre
      after := hpost
      gap := h8
      coalesced_pre := g.coalesced_pre
      coalesced_post := g.coalesced_post
      short := Nat.le_trans g.ready.size_le g.ready.limit_le }
  have hr : Readable h.memory p (pre ++ post) :=
    g.readable.subset ((List.Sublist.refl _).middle x).subset
  exact ⟨⟨g.prologue, g.ready, a, hr, g.listed⟩,
    a.within_gap (Nat.le_refl _) (Nat.le_refl _) hs h8, g.readable.marked x (by simp)⟩

omit [HasClass n] in
/-- The words of the tags around a gap are kept with their bytes. -/
theorem word_of_mem_tagPlaces {i : Nat} (a : Around p before o s after h.memory.size)
    (hp : h.prologue = some p)
    (hm : ∀ j, AtTag p (before ++ after) h.memory.size j →
      h'.memory.byte j = h.memory.byte j)
    (hi : i ∈ h.tagPlaces (before ++ after)) : h'.memory.word i = h.memory.word i := by
  rcases List.mem_append.mp hi with hi | hi
  · obtain ⟨hheader, hfooter, hepilogue⟩ := a.word_sentinel hm
    rw [sentinelPlaces, hp] at hi
    rcases List.mem_cons.mp hi with rfl | hi
    · exact hheader
    rcases List.mem_cons.mp hi with rfl | hi
    · exact hfooter
    · obtain rfl := List.mem_singleton.1 hi
      exact hepilogue
  · obtain ⟨y, hy, hi⟩ := List.mem_flatMap.1 hi
    obtain ⟨hfront, hend⟩ := a.word_tag hm hy
    rcases List.mem_cons.mp hi with rfl | hi
    · exact hfront
    · obtain rfl := List.mem_singleton.1 hi
      exact hend

/-- Where a layout has other blocks in the place of some of its blocks, the lists do as well. -/
theorem runsThrough_replaced {index index' : Index n} {m m' : Memory} {mid mid' : List Extent}
    (hl : index.Lists m (before ++ mid ++ after)) (hp : Placed m (before ++ mid ++ after))
    (fits : m.size < Size.wordBound) (hl' : index'.Lists m' (before ++ mid' ++ after))
    (hp' : Placed m' (before ++ mid' ++ after)) (fits' : m'.size < Size.wordBound) (c : Fin n) :
    ∃ front back,
      (index.list c).RunsThrough m
        (front ++ (members c mid).filterMap Block.ofOffset? ++ back) ∧
      (index'.list c).RunsThrough m'
        (front ++ (members c mid').filterMap Block.ofOffset? ++ back) ∧
      (∀ q ∈ front, ∃ y ∈ before, q.offset = y.offset) ∧
      ∀ q ∈ back, ∃ y ∈ after, q.offset = y.offset := by
  have hruns := hl.runsThrough hp fits c
  have hruns' := hl'.runsThrough hp' fits' c
  rw [members_append, members_append, List.filterMap_append, List.filterMap_append] at hruns hruns'
  exact ⟨_, _, hruns, hruns', fun q hq => exists_of_mem_nodes hq, fun q hq => exists_of_mem_nodes hq⟩

/-- The run that a free block lay in is merged when the run's bytes are one free block, which is on
its list, and nothing else was written to but links. -/
theorem Loose.runMerged (g : h.Loose p (before ++ as) x (bs ++ after))
    (r : FreeRun before as x.offset x.size bs after w size)
    (g' : h'.Ajar p (before ++ [⟨w.offset, size, false⟩]) (w.offset + size) 0 after)
    (htag : Extent.Tagged ⟨w.offset, size, false⟩ h'.memory)
    (hkept : ∀ i, OffRun (before ++ after) w.offset size i → h'.memory.byte i = h.memory.byte i) :
    h.RunMerged before (as ++ x :: bs) after w h' := by
  obtain ⟨hajar, -, -⟩ := g.ajar
  have a := r.around hajar.around
  rw [← r.joined_eq] at g' htag
  have hc : Coalesced (before ++ joined w (as ++ x :: bs) :: after) :=
    coalesced_between a.coalesced_pre a.coalesced_post r.endsUsed r.startsUsed
  have gc := g'.close (by rwa [List.append_cons] at hc)
  have hl := g.listed
  have hp := hajar.around.placed
  have hl' := gc.legible.listed
  have hp' := gc.around.placed
  rw [List.append_assoc, ← List.append_assoc as, ← List.append_assoc] at hl hp
  rw [List.append_nil] at hl' hp'
  refine
    { free := ?free
      endsUsed := r.endsUsed
      startsUsed := r.startsUsed
      start := r.start
      prologue := gc.prologue.trans g.prologue.symm
      size := ?size
      layout := ?layout
      coalesced := hc
      tagged := htag
      tags := fun i hi =>
        word_of_mem_tagPlaces a g.prologue (fun j hj => hkept j (a.offRun_of_atTag hj)) hi
      bytes := fun y hy hu i hi => hkept i (a.offRun_of_held (.inr ⟨y, hy, hu, hi⟩))
      lists := fun c => ?lists }
  case free =>
    intro y hy
    rw [List.mem_append, List.mem_cons] at hy
    rcases hy with hy | rfl | hy
    · exact r.free y (List.mem_append_left _ hy)
    · exact g.free
    · exact r.free y (List.mem_append_right _ hy)
  case size =>
    have hbefore := g.tiles.sum
    have hafter := gc.around.before.sum
    simp only [joined, List.map_append, List.sum_append, List.map_cons, List.sum_cons, List.map_nil,
      List.sum_nil] at hbefore hafter
    show h'.memory.size = h.size
    omega
  case layout =>
    rw [List.append_cons]
    exact gc.layout_eq_ok
  case lists =>
    obtain ⟨front, back, hruns, hruns', hfront, hback⟩ :=
      runsThrough_replaced hl hp hajar.legible.size_lt hl' hp' gc.legible.size_lt c
    rw [nodes_joined] at hruns'
    refine ⟨front, _, back, hruns, hruns', fun q hq => ?_, fun q hq => ?_⟩
    · obtain ⟨y, hy, hqy⟩ := exists_of_mem_nodes hq
      exact ⟨y, ((List.Sublist.refl _).middle x).subset hy, hqy⟩
    · rcases List.mem_append.mp hq with hq | hq
      · obtain ⟨y, hy, hqy⟩ := hfront q hq
        exact ⟨y, List.mem_append_left _ hy, hqy⟩
      · obtain ⟨y, hy, hqy⟩ := hback q hq
        exact ⟨y, List.mem_append_right _ hy, hqy⟩

/-- **COALESCING COMPLETES A MERGE.** A free block that is on no list is made one with the run of
free blocks that it lies in, whatever its neighbours are. The answer is the start of the run. -/
theorem Loose.coalesce_completes (g : h.Loose p pre x post) (hb : b.offset = x.offset) :
    ∃ w before xs after, ((coalesce b).on h).result = .ok w ∧
      pre ++ x :: post = before ++ xs ++ after ∧ x ∈ xs ∧
      h.RunMerged before xs after w ((coalesce b).on h).state := by
  obtain ⟨hajar, hin, hmarked⟩ := g.ajar
  have hajar' : (Run.mk h []).heap.Ajar p pre x.offset x.size post := hajar
  obtain ⟨w, _, hresult, before, as, bs, after, size, rfl, rfl, r, g', htag, hk⟩ :=
    on_of_ensures (hajar'.coalesce_ensures hin.large hb (hmarked.size_eq_ok hin hb))
  refine ⟨w, before, as ++ x :: bs, after, hresult, ?_, ?_, g.runMerged r g' htag hk.byte⟩
  · simp only [List.append_assoc, List.cons_append]
  · exact List.mem_append_right _ (List.mem_cons_self ..)

/-- A heap with a free block between two others, of which each is alone on its list. Behind them is
a block in use. The block at 48 has a spare bit set in both of its tags. -/
def betweenFree : Heap 2 where
  region :=
    { memory := (((((((((((Memory.zeroed 88).setWord 4 9).setWord 8 9).setWord 12 16).setWord 24
        16).setWord 28 16).setWord 40 16).setWord 44 28).setWord 64 28).setWord 68 17).setWord 80
        17).setWord 84 1
      limit := 88
      backing := .buffer }
  index := ⟨#v[⟨Block.ofOffset? 16, 1⟩, ⟨Block.ofOffset? 48, 1⟩]⟩
  settings := .standard
  prologue := Block.ofOffset? 8

theorem loose_betweenFree :
    betweenFree.Loose ⟨8, by decide⟩ [⟨16, 16, false⟩] ⟨32, 16, false⟩
      [⟨48, 24, false⟩, ⟨72, 16, true⟩] where
  prologue := rfl
  ready := ⟨by decide, by decide, nofun⟩
  aligned := rfl
  tiles := ⟨rfl, by decide, rfl, rfl, by decide, rfl, rfl, by decide, rfl, rfl, by decide, rfl, rfl⟩
  readable :=
    { header := rfl
      footer := rfl
      epilogue := rfl
      marked := by
        simp only [List.singleton_append, List.forall_mem_cons]
        exact ⟨⟨rfl, rfl⟩, ⟨rfl, rfl⟩, ⟨rfl, rfl⟩, ⟨rfl, rfl⟩, nofun⟩ }
  free := rfl
  coalesced_pre := .singleton _
  coalesced_post := .cons_cons (.inr rfl) (.singleton _)
  listed
    | 0 => ⟨rfl, rfl, rfl, rfl, trivial⟩
    | 1 => ⟨rfl, rfl, rfl, rfl, trivial⟩

/-- The three free blocks become one of 56 bytes, which starts where the first of them did. -/
theorem coalesce_completes_betweenFree :
    ((coalesce ⟨32, by decide⟩).on betweenFree).state.layout =
        .ok [⟨16, 56, false⟩, ⟨72, 16, true⟩] ∧
      ∃ before xs after, [⟨16, 16, false⟩] ++ ⟨32, 16, false⟩ ::
          [⟨48, 24, false⟩, ⟨72, 16, true⟩] = before ++ xs ++ after ∧ ⟨32, 16, false⟩ ∈ xs ∧
        betweenFree.RunMerged before xs after ⟨16, by decide⟩
          ((coalesce ⟨32, by decide⟩).on betweenFree).state := by
  have hresult : ((coalesce ⟨32, by decide⟩).on betweenFree).result = .ok ⟨16, by decide⟩ := rfl
  obtain ⟨w, before, xs, after, hw, hparts, hx, hmerged⟩ :=
    loose_betweenFree.coalesce_completes (b := ⟨32, by decide⟩) rfl
  obtain rfl := Except.ok.inj (hresult.symm.trans hw)
  exact ⟨rfl, before, xs, after, hparts, hx, hmerged⟩

end Heap

end TagHeap
