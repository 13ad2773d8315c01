import TagHeap.Proofs.Merging

/-!
# Splitting a free block

What handing out makes of the free block that it takes, whoever calls it. A free block of `total`
bytes is on a list, and `size` of them are wanted. What is too small for a block of its own stays
with the block that is handed out; small blocks are cut from the tail, so that the head stays where
it was and only goes on another list, and large ones from the head. `Heap.Split` says in full what
else may change, which is nothing but links (`Heap.Orderly.carve_splits`).

The heap need not have come from any run. `Heap.Orderly` asks that it passes its audit and that its
lists count their own nodes, and that is how it is left. So tags may have spare bits set that no
operation sets, and blocks that are not split keep them.
-/

namespace TagHeap

open Layout Operation

variable {n : Nat} [HasClass n]

/-- The carved blocks, case by case. -/
theorem Layout.carved_eq (tailLimit : Nat) (x : Extent) (size : Nat) :
    carved tailLimit x size =
      if x.size - size < Size.minBlock then [⟨x.offset, x.size, true⟩]
      else if size < tailLimit then
        [⟨x.offset, x.size - size, false⟩, ⟨x.offset + (x.size - size), size, true⟩]
      else [⟨x.offset, size, true⟩, ⟨x.offset + size, x.size - size, false⟩] := by
  rw [carved, occupied]
  by_cases hrest : x.size - size < Size.minBlock
  · rw [if_pos hrest, if_pos hrest, if_neg fun h => absurd h.1 (Nat.not_le.2 hrest)]
  · rw [if_neg hrest, if_neg hrest]
    by_cases htail : size < tailLimit
    · rw [if_pos ⟨Nat.le_of_not_lt hrest, htail⟩, if_pos htail]
    · rw [if_neg fun h => htail h.2, if_neg htail]

namespace Heap

variable {h h' : Heap n} {p b w : Block} {before after xs parts : List Extent} {x : Extent}
  {nodes : List Block} {c : Fin n} {total size : Nat}

/-! ## Orderly heaps -/

/-- The region is ready, the heap passes its audit, and each of its lists counts its own nodes. An
audit compares the counts only in total. -/
structure Orderly (h : Heap n) : Prop where
  ready : h.region.Ready
  consistent : h.Consistent
  counted : ∀ c, ∃ bs, (h.index.list c).nodes h.memory = .ok bs ∧
    (h.index.list c).length = bs.length

/-- The list of a class runs through the members of the class. -/
theorem Ajar.runsThrough (g : h.Ajar p xs h.memory.size 0 []) (c : Fin n) :
    (h.index.list c).RunsThrough h.memory ((members c xs).filterMap Block.ofOffset?) := by
  have hp := g.around.placed
  rw [List.append_nil] at hp
  exact g.lists.runsThrough hp g.legible.size_lt c

/-- A heap that can be read is orderly. -/
theorem Ajar.orderly (g : h.Ajar p xs h.memory.size 0 []) : h.Orderly where
  ready := g.ready
  consistent := g.consistent
  counted c := ⟨_, (g.runsThrough c).nodes, (g.runsThrough c).length⟩

/-- An orderly heap with a free block can be read. Without a block there is nothing that could tell
where the prologue stands. -/
theorem Orderly.ajar (g : h.Orderly) (hnodes : (h.index.list c).nodes h.memory = .ok nodes)
    (hb : b ∈ nodes) : ∃ p xs, h.Ajar p xs h.memory.size 0 [] := by
  obtain ⟨summary, total, haudit, hfree, -⟩ := g.consistent
  obtain ⟨hsum, hfits⟩ := Index.length_eq_ok_iff.1 hfree
  cases hp : h.prologue with
  | none =>
      -- Nothing is laid out, so nothing is counted.
      rw [audit, hp] at haudit
      obtain rfl : {} = summary := Except.ok.inj haudit
      obtain ⟨bs, hbs, hlength⟩ := g.counted c
      obtain rfl := Except.ok.inj (hnodes.symm.trans hbs)
      have hnone : (h.index.list c).length = 0 :=
        Finset.sum_eq_zero_iff.1 hsum c (Finset.mem_univ c)
      rw [hnone] at hlength
      rw [List.eq_nil_of_length_eq_zero hlength.symm] at hb
      cases hb
  | some p =>
      have short : h.size ≤ Region.maxSize := Nat.le_trans g.ready.size_le g.ready.limit_le
      have fits : h.memory.size < Size.bound := Nat.lt_of_le_of_lt short (by decide)
      obtain ⟨xs, places, hwell, -⟩ := ((audit_decides hp short hfits).ok_iff summary).1 haudit
      have hcount : ∀ d, (h.index.list d).length = (places d).length := by
        intro d
        obtain ⟨bs, hbs, hlength⟩ := g.counted d
        obtain ⟨bs', hbs', hlength', -⟩ := hwell.nodes_eq_ok fits d
        obtain rfl := Except.ok.inj (hbs.symm.trans hbs')
        exact hlength.trans hlength'
      obtain ⟨bs, hbs, -, hplaces⟩ := hwell.nodes_eq_ok fits c
      obtain rfl := Except.ok.inj (hnodes.symm.trans hbs)
      obtain ⟨x, hx, -⟩ := hwell.members c _ (hplaces b hb)
      exact ⟨p, xs, hp, g.ready, hwell.legible (hwell.prologue_mod hx) short hcount⟩

/-! ## Splitting -/

/-- The heap `h'` is `h` with `parts` in the place of the free block `x`. The block `w` is the part
that is in use. -/
structure Split (h : Heap n) (before : List Extent) (x : Extent) (parts after : List Extent)
    (w : Block) (h' : Heap n) : Prop where
  block : ∃ y ∈ parts, y.allocated = true ∧ y.offset = w.offset
  prologue : h'.prologue = h.prologue
  size : h'.size = h.size
  bounds : h'.region.bounds = h.region.bounds
  settings : h'.settings = h.settings
  layout : h'.layout = .ok (before ++ parts ++ after)
  tagged : ∀ y ∈ parts, y.Tagged h'.memory
  /-- The sentinels and the other blocks keep the words of their tags. -/
  tags : ∀ i ∈ h.tagPlaces (before ++ after), h'.memory.word i = h.memory.word i
  /-- The other blocks keep their bytes, but for the links of the free ones. -/
  bytes : ∀ y ∈ before ++ after, ∀ i, y.Covers i →
    (y.allocated = false → i < y.offset ∨ y.offset + 8 ≤ i) → h'.memory.byte i = h.memory.byte i
  /-- In the place of the free block, its list has what is left of it, if that is in its class, and
  the list of another class gets it otherwise. The other nodes stay, in their order. -/
  lists : ∀ c, ∃ front back,
    (h.index.list c).RunsThrough h.memory
      (front ++ (members c [x]).filterMap Block.ofOffset? ++ back) ∧
    (h'.index.list c).RunsThrough h'.memory
      (front ++ (members c parts).filterMap Block.ofOffset? ++ back) ∧
    (∀ q ∈ front, ∃ y ∈ before, q.offset = y.offset) ∧
    ∀ q ∈ back, ∃ y ∈ after, q.offset = y.offset

/-- A block is split when its parts tile it and carry their tags, and nothing was written outside of
it but links. -/
theorem Ajar.split_of_spares {run run' : Run n}
    (g : run.heap.Ajar p (before ++ x :: after) run.heap.memory.size 0 [])
    (g' : run'.heap.Ajar p (before ++ parts ++ after) run'.heap.memory.size 0 [])
    (ht : Tiles x.offset parts (x.offset + x.size)) (htag : ∀ y ∈ parts, y.Tagged run'.heap.memory)
    (hw : ∃ y ∈ parts, y.allocated = true ∧ y.offset = w.offset)
    (hk : run.Spares (OffRun (before ++ after) x.offset x.size) run') :
    run.heap.Split before x parts after w run'.heap := by
  have a : Around p before x.offset x.size after run.heap.memory.size := g.around.at_block
  have hl := g.lists
  have hl' := g'.lists
  have hp := g.around.placed
  have hp' := g'.around.placed
  rw [List.append_nil] at hp hp'
  rw [List.append_cons] at hl hp
  exact
    { block := hw
      prologue := g'.prologue.trans g.prologue.symm
      size := g'.around.before.stop_unique ((a.before.append ht).append a.after)
      bounds := hk.bounds_eq
      settings := hk.settings
      layout := g'.layout_eq_ok
      tagged := htag
      tags := fun i hi =>
        word_of_mem_tagPlaces a g.prologue (fun j hj => hk.byte j (a.offRun_of_atTag hj)) hi
      bytes := fun y hy i hi hout =>
        hk.byte i ⟨a.offLinks_of_covers hy hi hout, a.not_gap_of_covers hy hi⟩
      lists := fun c =>
        runsThrough_replaced hl hp g.legible.size_lt hl' hp' g'.legible.size_lt c }

/-- **A BLOCK IS SPLIT WITHOUT LOSS.** In the place of a free block are the block that is handed out
and what is left over, if that is large enough for a block. Nothing else changes, and the heap is
orderly as before. -/
theorem Orderly.carve_splits (g : h.Orderly)
    (hnodes : (h.index.list c).nodes h.memory = .ok nodes) (hb : b ∈ nodes)
    (htotal : b.size h.memory = .ok total) (h8 : size % 8 = 0) (hs : Size.minBlock ≤ size)
    (hle : size ≤ total) :
    ∃ w before parts after, ((carve b size).on h).result = .ok w ∧
      h.layout = .ok (before ++ ⟨b.offset, total, false⟩ :: after) ∧
      parts = (if total - size < Size.minBlock then [⟨b.offset, total, true⟩]
        else if size < h.settings.tailLimit then
          [⟨b.offset, total - size, false⟩, ⟨b.offset + (total - size), size, true⟩]
        else [⟨b.offset, size, true⟩, ⟨b.offset + size, total - size, false⟩]) ∧
      h.Split before ⟨b.offset, total, false⟩ parts after w ((carve b size).on h).state ∧
      ((carve b size).on h).state.Orderly := by
  obtain ⟨p, xs, hajar⟩ := g.ajar hnodes hb
  obtain rfl := Except.ok.inj (hnodes.symm.trans (hajar.runsThrough c).nodes)
  obtain ⟨⟨o, s, u⟩, hx, rfl, -, rfl⟩ := mem_members.1 (Block.mem_filterMap_ofOffset?.1 hb)
  have hmem : (⟨b.offset, s, false⟩ : Extent) ∈ xs ++ [] := List.mem_append_left _ hx
  obtain rfl : s = total :=
    Except.ok.inj ((hajar.legible.size_eq_ok hmem rfl).symm.trans htotal)
  obtain ⟨before, after, rfl⟩ := List.append_of_mem hx
  have g₀ : (Run.mk h []).heap.Ajar p (before ++ ⟨b.offset, s, false⟩ :: after)
    (Run.mk h []).heap.memory.size 0 [] := hajar
  obtain ⟨w, _, hresult, parts, hparts, g', htag, hw, hk⟩ :=
    on_of_ensures (g₀.carve_ensures rfl hs h8 hle rfl)
  have ht : Tiles b.offset parts (b.offset + s) := by
    rw [hparts]
    exact .of_carved hs h8 hle g₀.around.at_block.gap
  exact ⟨w, before, parts, after, hresult, hajar.layout_eq_ok, hparts.trans (carved_eq ..),
    g₀.split_of_spares g' ht htag hw hk, Ajar.orderly g'⟩

/-- A heap with a free block of 40 bytes in front of a block in use, which has a spare bit set in
both of its tags. -/
def freeThenUsed : Heap 2 where
  region :=
    { memory := ((((((((Memory.zeroed 72).setWord 4 9).setWord 8 9).setWord 12 40).setWord 48
        40).setWord 52 21).setWord 64 21).setWord 68 1)
      limit := 72
      backing := .buffer }
  index := ⟨#v[.empty, ⟨Block.ofOffset? 16, 1⟩]⟩
  settings := .standard
  prologue := Block.ofOffset? 8

theorem orderly_freeThenUsed : freeThenUsed.Orderly where
  ready := ⟨by decide, by decide, nofun⟩
  consistent := by
    refine ⟨⟨2, 1, 1, 16, 40, 40⟩, 56, rfl, rfl, rfl, fun p hp => ?_⟩
    obtain rfl := Option.some.inj hp
    rfl
  counted
    | 0 => ⟨[], rfl, rfl⟩
    | 1 => ⟨[⟨16, by decide⟩], rfl, rfl⟩

/-- The first 16 of the 40 bytes stay free, on the list of the smaller class. -/
theorem carve_splits_freeThenUsed :
    ((carve ⟨16, by decide⟩ 24).on freeThenUsed).state.layout =
        .ok [⟨16, 16, false⟩, ⟨32, 24, true⟩, ⟨56, 16, true⟩] ∧
      ((carve ⟨16, by decide⟩ 24).on freeThenUsed).state.Orderly ∧
      ∃ before after, freeThenUsed.Split before ⟨16, 40, false⟩ [⟨16, 16, false⟩, ⟨32, 24, true⟩]
        after ⟨32, by decide⟩ ((carve ⟨16, by decide⟩ 24).on freeThenUsed).state := by
  have hresult : ((carve ⟨16, by decide⟩ 24).on freeThenUsed).result = .ok ⟨32, by decide⟩ := rfl
  have hnodes : (freeThenUsed.index.list 1).nodes freeThenUsed.memory =
      .ok [⟨16, by decide⟩] := rfl
  have h8 : 24 % 8 = 0 := rfl
  obtain ⟨w, before, parts, after, hw, -, hparts, hsplit, horderly⟩ :=
    orderly_freeThenUsed.carve_splits hnodes (List.mem_singleton_self _) rfl h8 (by decide)
      (by decide)
  obtain rfl := Except.ok.inj (hresult.symm.trans hw)
  obtain rfl : parts = [⟨16, 16, false⟩, ⟨32, 24, true⟩] := hparts
  exact ⟨rfl, horderly, before, after, hsplit⟩

end Heap

/-- Every heap of a run is orderly once it is laid out, so this is what a request makes of the free
block that it takes. -/
theorem Reachable.orderly {h : Heap n} {live : Live} {p : Block} (hr : Reachable h live)
    (hp : h.prologue = some p) : h.Orderly := by
  cases hr.serves with
  | vacant hv =>
      rw [hv.prologue] at hp
      cases hp
  | shaped g _ => exact (Heap.Gapped.ajar g).orderly

end TagHeap
