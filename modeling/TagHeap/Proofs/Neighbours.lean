import TagHeap.Proofs.Shape

/-!
# Neighbours of a gap

What is read at the two ends of a gap, and what happens when a free neighbour is taken off its list
or a free block is put on one. A gap always has a neighbour on each side, if only a sentinel: the
word in front of it is the footer of the block before it or of the prologue, and the word behind it
is the header of the block after it or the epilogue.

A tag is read for the size and the use of its block, and for nothing else. So all of this holds of
memory in which tags have bits set that no operation sets. `Legible` is `InOrder` with marks in the
place of tags, and what is proved of it carries over (`InOrder.legible`, `Legible.inOrder`).
-/

namespace TagHeap

open Layout

variable {n : Nat} [HasClass n]

/-- The block in front, which ends where this one starts. -/
theorem Block.previous_eq_ok {b w : Block} {m : Memory} (fits : m.size < Size.bound)
    (room : 8 ≤ b.offset) (inside : b.offset ≤ m.size + 4)
    (hsize : w.offset + (Tag.mk (m.word (b.offset - 8))).size = b.offset) :
    b.previous m = .ok w := by
  have hfooter := Memory.readWord_eq_ok (i := b.offset - 8) fits (by omega)
  have hstart : Size.sub b.offset (Tag.mk (m.word (b.offset - 8))).size = .ok w.offset := by
    rw [Size.sub_eq_ok (by omega)]
    exact congrArg _ (by omega)
  rw [previous, bind_of_ok (Size.sub_eq_ok room), bind_of_ok hfooter, bind_of_ok hstart,
    ofOffset_eq_ok]

namespace Extent

/-- The block lies in the memory, with room for its tags, and a tag can tell of it. Unlike those
`Within`, it may be a sentinel, which is smaller than any block. -/
structure Inside (x : Extent) (m : Memory) : Prop where
  room : 4 ≤ x.offset
  stop_le : x.offset + x.size ≤ m.size
  overhead_le : Size.overhead ≤ x.size
  aligned : x.size % 8 = 0
  le_maxBlock : x.size ≤ Size.maxBlock
  short : m.size < Size.bound

namespace Inside

variable {x : Extent} {m m' : Memory} {b : Block}

theorem size_tag (h : x.Inside m) : x.tag.size = x.size :=
  Tag.size_pack h.aligned h.le_maxBlock x.allocated

theorem allocated_tag (h : x.Inside m) : x.tag.allocated = x.allocated :=
  Tag.allocated_pack h.aligned h.le_maxBlock x.allocated

/-- Memories of one size have the same blocks inside. -/
theorem congr (h : x.Inside m) (hm : m'.size = m.size) : x.Inside m' :=
  { h with
    stop_le := hm ▸ h.stop_le
    short := hm ▸ h.short }

/-- Reading the header of a block finds its tag. -/
theorem tag_eq_ok (h : x.Inside m) (hb : b.offset = x.offset)
    (ht : m.word (x.offset - 4) = x.tag.word) : b.tag m = .ok x.tag := by
  have h1 := h.room
  have h2 := h.stop_le
  rw [Block.tag_eq_ok h.short (by omega) (by omega), hb, ht]

/-- A block's tags are written to its two ends. -/
theorem writeTags_eq_ok (h : x.Inside m) (hb : b.offset = x.offset) :
    b.writeTags x.tag m = .ok ()
      ((m.setWord (x.offset - 4) x.tag.word).setWord (x.offset + x.size - 8) x.tag.word) := by
  have h1 := h.room
  have h2 := h.stop_le
  have h3 : 8 ≤ x.size := h.overhead_le
  have h4 := h.short
  rw [Block.writeTags_eq_ok h4 (by omega) (by rw [h.size_tag]; omega) (by omega)
    (by rw [h.size_tag]; omega) (by rw [h.size_tag]; omega), h.size_tag, hb]

/-- A block that carries its tags is what its header tells of. -/
theorem read_eq (h : x.Inside m) (ht : x.Tagged m) : read m x.offset = x := by
  show (⟨x.offset, (Tag.mk _).size, (Tag.mk _).allocated⟩ : Extent) = x
  rw [ht.header, h.size_tag, h.allocated_tag]

/-- **THERE AND BACK.** The header leads to the block behind, and the footer back from there. -/
theorem next_previous (h : x.Inside m) (ht : x.Tagged m) (hb : b.offset = x.offset) :
    ∃ c : Block, b.next m = .ok c ∧ c.previous m = .ok b ∧ c.offset = x.offset + x.size := by
  have h1 := h.stop_le
  have h2 : 8 ≤ x.size := h.overhead_le
  have h3 := h.short
  have hstop : b.offset + x.tag.size = x.offset + x.size := by rw [h.size_tag, hb]
  refine ⟨_, Block.next_eq_ok (h.tag_eq_ok hb ht.header) (by omega), ?_, hstop⟩
  refine Block.previous_eq_ok h3 (by dsimp only; omega) (by dsimp only; omega) ?_
  dsimp only
  rw [hstop, ht.footer, hstop]

end Inside

/-- The block has a legal size and lies in the memory, which is no longer than tags can tell. -/
structure Within (x : Extent) (m : Memory) : Prop where
  room : 8 ≤ x.offset
  stop_le : x.offset + x.size ≤ m.size
  large : Size.minBlock ≤ x.size
  aligned : x.size % 8 = 0
  short : m.size ≤ Region.maxSize

variable {x : Extent} {m : Memory} {b : Block}

theorem Within.size_le (h : x.Within m) : x.size ≤ Size.maxBlock := by
  have h1 := h.stop_le
  have h2 := h.short
  have h3 := h.aligned
  simp only [Size.maxBlock, Region.maxSize] at *
  omega

theorem Within.size_lt (h : x.Within m) : m.size < Size.wordBound :=
  Nat.lt_of_le_of_lt h.short (by decide)

theorem Within.inside (h : x.Within m) : x.Inside m where
  room := Nat.le_trans (by decide) h.room
  stop_le := h.stop_le
  overhead_le := Nat.le_trans (by decide) h.large
  aligned := h.aligned
  le_maxBlock := h.size_le
  short := size_lt_bound h.size_lt

theorem Within.size_tag (h : x.Within m) : x.tag.size = x.size :=
  h.inside.size_tag

/-- Reading the header of a block finds its tag. -/
theorem Within.tag_eq_ok (h : x.Within m) (hb : b.offset = x.offset)
    (ht : m.word (x.offset - 4) = x.tag.word) : b.tag m = .ok x.tag :=
  h.inside.tag_eq_ok hb ht

theorem Within.size_eq_ok (h : x.Within m) (hb : b.offset = x.offset)
    (ht : m.word (x.offset - 4) = x.tag.word) : b.size m = .ok x.size := by
  rw [Block.size_eq_ok (h.tag_eq_ok hb ht), h.size_tag]

/-- The size that a header tells of stays the same while its word does. -/
theorem Within.size_congr {m' : Memory} {s : Nat} (h : x.Within m) (h' : x.Within m')
    (hb : b.offset = x.offset) (hword : m'.word (x.offset - 4) = m.word (x.offset - 4))
    (hs : b.size m = .ok s) : b.size m' = .ok s := by
  have h1 := h.room
  have h2 := h.stop_le
  have h3 := h'.stop_le
  have ht := Block.tag_eq_ok (b := b) (size_lt_bound h.size_lt) (by omega) (by omega)
  have ht' := Block.tag_eq_ok (b := b) (size_lt_bound h'.size_lt) (by omega) (by omega)
  rw [← hs, Block.size_eq_ok ht, Block.size_eq_ok ht', hb, hword]

/-- The next block starts where the block ends. -/
theorem Within.next_eq_ok (h : x.Within m) (hb : b.offset = x.offset)
    (ht : m.word (x.offset - 4) = x.tag.word) :
    ∃ w : Block, b.next m = .ok w ∧ w.offset = x.offset + x.size := by
  have h1 := h.stop_le
  have h2 := size_lt_bound h.size_lt
  refine ⟨_, Block.next_eq_ok (h.tag_eq_ok hb ht) ?_, ?_⟩
  · rw [h.size_tag, hb]
    omega
  · show b.offset + x.tag.size = x.offset + x.size
    rw [h.size_tag, hb]

/-- A block's tags are written to its two ends. -/
theorem Within.writeTags_eq_ok (h : x.Within m) (hb : b.offset = x.offset) :
    b.writeTags x.tag m = .ok ()
      ((m.setWord (x.offset - 4) x.tag.word).setWord (x.offset + x.size - 8) x.tag.word) :=
  h.inside.writeTags_eq_ok hb

/-- A block that carries its tags is marked. -/
theorem Tagged.marked (ht : x.Tagged m) (h : x.Within m) : x.Marked m :=
  ⟨h.inside.read_eq ht, ht.footer.trans ht.header.symm⟩

/-- Reading the header of a marked block finds its size and its use. -/
theorem Marked.tag_eq_ok (hx : x.Marked m) (h : x.Within m) (hb : b.offset = x.offset) :
    ∃ t, b.tag m = .ok t ∧ t.size = x.size ∧ t.allocated = x.allocated := by
  have h1 := h.room
  have h2 := h.stop_le
  refine ⟨_, Block.tag_eq_ok (size_lt_bound h.size_lt) (by omega) (by omega), ?_, ?_⟩
  · rw [hb, hx.size_eq]
  · rw [hb, hx.allocated_eq]

theorem Marked.size_eq_ok (hx : x.Marked m) (h : x.Within m) (hb : b.offset = x.offset) :
    b.size m = .ok x.size := by
  obtain ⟨t, ht, hsize, -⟩ := hx.tag_eq_ok h hb
  rw [Block.size_eq_ok ht, hsize]

end Extent

/-- The block behind one whose size is known. -/
theorem Block.exists_next {b : Block} {m : Memory} {s : Nat} (hs : b.size m = .ok s)
    (fits : b.offset + s < Size.bound) :
    ∃ w : Block, b.next m = .ok w ∧ w.offset = b.offset + s := by
  refine ⟨⟨b.offset + s, Nat.add_pos_left b.pos s⟩, ?_, rfl⟩
  rw [next, bind_of_ok hs, bind_of_ok (Size.add_eq_ok fits)]
  exact dif_pos _

namespace Around

variable {m : Memory} {p : Block} {pre post : List Extent} {o s : Nat} {x : Extent}

/-- A block around a gap lies in the memory. -/
theorem within (a : Around p pre o s post m.size) (hx : x ∈ pre ++ post) : x.Within m := by
  obtain ⟨h1, h2, h3, h4, -⟩ := a.mem_bounds hx
  have := a.prologue_le
  exact ⟨by omega, h2, h3, h4, a.short⟩

/-- So does whatever is made a block inside of the gap. -/
theorem within_gap (a : Around p pre o s post m.size) (h1 : o ≤ x.offset)
    (h2 : x.offset + x.size ≤ o + s) (hs : Size.minBlock ≤ x.size) (h8 : x.size % 8 = 0) :
    x.Within m := by
  have hb := a.bounds
  have hp := a.prologue_le
  exact ⟨by omega, by omega, hs, h8, a.short⟩

end Around

/-! ## Marks in the place of tags -/

/-- The sentinels carry their tags, and the blocks of the layout are marked. -/
structure Readable (m : Memory) (p : Block) (xs : List Extent) : Prop where
  header : m.word (p.offset - 4) = (Tag.pack 8 true).word
  footer : m.word p.offset = (Tag.pack 8 true).word
  epilogue : m.word (m.size - 4) = Tag.epilogue.word
  marked : ∀ x ∈ xs, x.Marked m

namespace Readable

variable {m m' : Memory} {p : Block} {xs ys pre post : List Extent} {o s : Nat}

theorem subset (h : Readable m p xs) (hs : ys ⊆ xs) : Readable m p ys :=
  { h with marked := fun x hx => h.marked x (hs hx) }

theorem add {x : Extent} (h : Readable m p (pre ++ post)) (hx : x.Marked m) :
    Readable m p (pre ++ x :: post) :=
  { h with
    marked := by
      intro y hy
      rcases List.mem_append.mp hy with hy | hy
      · exact h.marked y (List.mem_append_left _ hy)
      · rcases List.mem_cons.mp hy with rfl | hy
        · exact hx
        · exact h.marked y (List.mem_append_right _ hy) }

/-- What is marked stays so when no tag is written to. -/
theorem congr (h : Readable m p (pre ++ post)) (a : Around p pre o s post m.size)
    (hm : m.Agrees (AtTag p (pre ++ post) m.size) m') : Readable m' p (pre ++ post) := by
  obtain ⟨hheader, hfooter, hepilogue⟩ := a.word_sentinel hm.byte
  refine ⟨hheader.trans h.header, hfooter.trans h.footer, ?_, fun x hx => ?_⟩
  · rw [hm.size, hepilogue, h.epilogue]
  · obtain ⟨hfront, hend⟩ := a.word_tag hm.byte hx
    have hmarked := h.marked x hx
    exact ⟨by rw [Extent.read, hfront]; exact hmarked.header,
      by rw [hfront, hend, hmarked.footer]⟩

end Readable

/-- All but the gap of `s` bytes at `o` is in order for those who read tags: the blocks around it
tile the memory, are marked, and are on their lists if they are free. -/
structure Legible (m : Memory) (index : Index n) (p : Block) (pre : List Extent) (o s : Nat)
    (post : List Extent) : Prop where
  around : Around p pre o s post m.size
  readable : Readable m p (pre ++ post)
  listed : index.Lists m (pre ++ post)

variable {m m' : Memory} {index : Index n} {p b w : Block} {pre post : List Extent} {o s r : Nat}
  {x y : Extent}

namespace InOrder

theorem within (g : InOrder m index p pre o s post) (hx : x ∈ pre ++ post) : x.Within m :=
  g.around.within hx

theorem within_gap (g : InOrder m index p pre o s post) (h1 : o ≤ x.offset)
    (h2 : x.offset + x.size ≤ o + s) (hs : Size.minBlock ≤ x.size) (h8 : x.size % 8 = 0) :
    x.Within m :=
  g.around.within_gap h1 h2 hs h8

/-- What is in order can be read. -/
theorem legible (g : InOrder m index p pre o s post) : Legible m index p pre o s post where
  around := g.around
  readable :=
    { header := g.stamped.header
      footer := g.stamped.footer
      epilogue := g.stamped.epilogue
      marked := fun x hx => (g.stamped.tagged x hx).marked (g.within hx) }
  listed := g.listed

end InOrder

namespace Legible

/-- What can be read is in order if the blocks carry the tags that they are read from. -/
theorem inOrder (g : Legible m index p pre o s post) (ht : ∀ x ∈ pre ++ post, x.Tagged m) :
    InOrder m index p pre o s post where
  around := g.around
  stamped :=
    { header := g.readable.header
      footer := g.readable.footer
      epilogue := g.readable.epilogue
      tagged := ht }
  listed := g.listed

theorem size_lt (g : Legible m index p pre o s post) : m.size < Size.wordBound :=
  Nat.lt_of_le_of_lt g.around.short (by decide)

/-- Reading the header of a block around the gap finds its size. -/
theorem size_eq_ok (g : Legible m index p pre o s post) (hx : x ∈ pre ++ post)
    (hb : b.offset = x.offset) : b.size m = .ok x.size :=
  (g.readable.marked x hx).size_eq_ok (g.around.within hx) hb

/-- What is written in the gap does not matter. -/
theorem overwrite (g : Legible m index p pre o s post)
    (hm : m.Agrees (fun i => i + 4 < o ∨ o + s ≤ i + 4) m') : Legible m' index p pre o s post := by
  refine ⟨hm.size ▸ g.around, ?_, ?_⟩
  · exact g.readable.congr g.around (hm.mono fun i hi => g.around.not_gap_of_atTag hi)
  · refine g.listed.congr fun x hx _ i h1 h2 => hm.byte i ?_
    exact g.around.not_gap_of_link hx h1 h2

/-- Links may be rewritten, as long as the index follows. -/
theorem relink {index' : Index n} (a : Around p pre o s post m.size)
    (h : Readable m p (pre ++ post)) (hl : index'.Lists m' (pre ++ post))
    (hm : m.Agrees (OffLinks (pre ++ post)) m') : Legible m' index' p pre o s post :=
  ⟨hm.size ▸ a, h.congr a (hm.mono fun _ hi => a.offLinks_of_atTag hi), hl⟩

/-- An empty gap may be closed where no two free blocks would touch. -/
theorem close (g : Legible m index p pre o 0 post) (hc : Coalesced (pre ++ post)) :
    Legible m index p (pre ++ post) m.size 0 [] where
  around := g.around.close hc
  readable := by rw [List.append_nil]; exact g.readable
  listed := by rw [List.append_nil]; exact g.listed

theorem split (g : Legible m index p (pre ++ post) m.size 0 []) :
    ∃ o, Legible m index p pre o 0 post := by
  have hr := g.readable
  have hl := g.listed
  rw [List.append_nil] at hr hl
  obtain ⟨o, ha⟩ := g.around.split
  exact ⟨o, ha, hr, hl⟩

/-- The gap gives up its first bytes to a marked block in use. -/
theorem give (g : Legible m index p pre o (r + s) post) (hr : Size.minBlock ≤ r) (h8 : r % 8 = 0)
    (hx : Extent.Marked ⟨o, r, true⟩ m) :
    Legible m index p (pre ++ [⟨o, r, true⟩]) (o + r) s post where
  around := g.around.give hr h8 true (coalesced_append_cons rfl g.around.coalesced_pre .nil)
  readable := by
    rw [List.append_assoc, List.singleton_append]
    exact g.readable.add hx
  listed := by
    rw [List.append_assoc, List.singleton_append]
    exact (Index.lists_cons_of_allocated rfl).2 g.listed

/-! ## Reading -/

/-- **BEHIND A GAP** is the epilogue or a block. -/
theorem tag_behind (g : Legible m index p pre o s post) (hw : w.offset = o + s) :
    (post = [] ∧ w.tag m = .ok .epilogue) ∨
      ∃ y ys t, post = y :: ys ∧ w.offset = y.offset ∧ w.tag m = .ok t ∧ t.size = y.size ∧
        t.allocated = y.allocated := by
  have hb := g.around.bounds
  have hp := g.around.prologue_le
  cases post with
  | nil =>
      have hhi : o + s = m.size := g.around.after
      refine .inl ⟨rfl, ?_⟩
      rw [Block.tag_eq_ok (size_lt_bound g.size_lt) (by omega) (by omega), hw, hhi,
        g.readable.epilogue]
  | cons y ys =>
      have hy : y.offset = o + s := g.around.after.1
      have hmem : y ∈ pre ++ y :: ys := by simp
      have hwy := hw.trans hy.symm
      obtain ⟨t, ht⟩ := (g.readable.marked y hmem).tag_eq_ok (g.around.within hmem) hwy
      exact .inr ⟨y, ys, t, rfl, hwy, ht⟩

/-- **IN FRONT OF A GAP** is the prologue or a block. -/
theorem tag_front (g : Legible m index p pre o s post) (hb : b.offset = o) :
    ∃ w t, b.previous m = .ok w ∧ w.tag m = .ok t ∧
      ((pre = [] ∧ t = .pack 8 true) ∨
        ∃ xs x, pre = xs ++ [x] ∧ w.offset = x.offset ∧ t.allocated = x.allocated) := by
  have hlo := g.around.bounds
  have hp := g.around.prologue_le
  have short := size_lt_bound g.size_lt
  -- The footer of whatever lies in front says how far back it starts.
  have hread : ∀ v : Block, Tag.size ⟨m.word (o - 8)⟩ ≤ o →
      v.offset = o - Tag.size ⟨m.word (o - 8)⟩ → b.previous m = .ok v := by
    intro v hle hv
    refine Block.previous_eq_ok short (by omega) (by omega) ?_
    rw [hb, hv, Nat.sub_add_cancel hle]
  rcases List.eq_nil_or_concat' pre with rfl | ⟨xs, x, rfl⟩
  · have ho : p.offset + 8 = o := g.around.before
    have hsize : Tag.size ⟨m.word (o - 8)⟩ = 8 := by
      rw [← ho, Nat.add_sub_cancel, g.readable.footer]
      rfl
    refine ⟨p, _, hread p (by omega) (by omega), ?_, .inl ⟨rfl, rfl⟩⟩
    rw [Block.tag_eq_ok short (by omega) (by omega), g.readable.header]
  · have hmem : x ∈ xs ++ [x] ++ post := by simp
    have hx := g.around.within hmem
    have hmarked := g.readable.marked x hmem
    have hend : x.offset + x.size = o := (tiles_concat.1 g.around.before).2.2.2
    have hroom := hx.room
    have hsize : Tag.size ⟨m.word (o - 8)⟩ = x.size := by
      rw [← hend, hmarked.footer, hmarked.size_eq]
    obtain ⟨t, ht, -, hu⟩ := hmarked.tag_eq_ok hx (b := ⟨x.offset, by omega⟩) rfl
    exact ⟨_, t, hread _ (by omega) (by dsimp only; omega), ht, .inr ⟨xs, x, rfl, rfl, hu⟩⟩

/-- Either the block in front of a gap is in use, or it is a free block of the layout. -/
theorem front (g : Legible m index p pre o s post) (hb : b.offset = o) :
    ∃ w, b.previous m = .ok w ∧
      ((w.allocated m = .ok true ∧ EndsUsed pre) ∨
        ∃ xs x, pre = xs ++ [x] ∧ x.allocated = false ∧ w.offset = x.offset ∧
          w.allocated m = .ok false) := by
  obtain ⟨w, t, hw, ht, h⟩ := g.tag_front hb
  have hu := Block.allocated_eq_ok ht
  refine ⟨w, hw, ?_⟩
  rcases h with ⟨rfl, rfl⟩ | ⟨xs, x, rfl, hx, hxu⟩
  · exact .inl ⟨hu, fun _ h => nomatch h⟩
  · rw [hxu] at hu
    cases hfree : x.allocated with
    | true => exact .inl ⟨by rw [hu, hfree], endsUsed_concat hfree xs⟩
    | false => exact .inr ⟨xs, x, rfl, hfree, hx, by rw [hu, hfree]⟩

/-- Either the block behind a gap is in use, or it is a free block of the layout. -/
theorem behind (g : Legible m index p pre o s post) (hw : w.offset = o + s) :
    (w.allocated m = .ok true ∧ StartsUsed post) ∨
      ∃ y ys, post = y :: ys ∧ y.allocated = false ∧ w.offset = y.offset ∧
        w.allocated m = .ok false := by
  rcases g.tag_behind hw with ⟨rfl, ht⟩ | ⟨y, ys, t, rfl, hy, ht, -, hyu⟩
  · exact .inl ⟨Block.allocated_eq_ok ht, fun _ h => nomatch h⟩
  · have hu := Block.allocated_eq_ok ht
    rw [hyu] at hu
    cases hfree : y.allocated with
    | true =>
        refine .inl ⟨by rw [hu, hfree], fun z hz => ?_⟩
        obtain rfl : y = z := by simpa using hz
        exact hfree
    | false => exact .inr ⟨y, ys, rfl, hfree, hy, by rw [hu, hfree]⟩

/-! ## Lists -/

/-- The gap swallows a free block behind it, which leaves its list. -/
theorem remove_next (g : Legible m index p pre o s (y :: post)) (hy : y.allocated = false)
    (hb : b.offset = y.offset) :
    (index.remove b).Ensures m fun index' m' =>
      Legible m' index' p pre o (s + y.size) post ∧ m.Agrees (OffLinks (pre ++ post)) m' := by
  have hsize := g.size_eq_ok (x := y) (by simp) hb
  refine (Index.remove_ensures g.listed g.around.placed g.size_lt hy hb hsize).mono ?_
  rintro index' m' ⟨hl, hm⟩
  have hr : Readable m p (pre ++ post) :=
    g.readable.subset ((List.Sublist.refl _).middle y).subset
  exact ⟨relink g.around.swallow_next hr hl hm, hm⟩

/-- The gap swallows a free block in front of it, which leaves its list. -/
theorem remove_previous (g : Legible m index p (pre ++ [x]) o s post) (hx : x.allocated = false)
    (hb : b.offset = x.offset) :
    (index.remove b).Ensures m fun index' m' =>
      Legible m' index' p pre x.offset (x.size + s) post ∧
        m.Agrees (OffLinks (pre ++ post)) m' := by
  have hsize := g.size_eq_ok (x := x) (by simp) hb
  have hl := g.listed
  have hp := g.around.placed
  rw [List.append_assoc, List.singleton_append] at hl hp
  refine (Index.remove_ensures hl hp g.size_lt hx hb hsize).mono ?_
  rintro index' m' ⟨hl', hm⟩
  have hr : Readable m p (pre ++ post) := g.readable.subset (by simp)
  exact ⟨relink g.around.swallow_previous hr hl' hm, hm⟩

/-- The gap gives up its first bytes to a marked free block, which goes on its list. -/
theorem insert (g : Legible m index p pre o (r + s) post) (hr : Size.minBlock ≤ r)
    (h8 : r % 8 = 0) (hpre : EndsUsed pre) (hx : Extent.Marked ⟨o, r, false⟩ m)
    (hb : b.offset = o) :
    (index.insert b).Ensures m fun index' m' =>
      Legible m' index' p (pre ++ [⟨o, r, false⟩]) (o + r) s post ∧
        m.Agrees (OffLinks (pre ++ [⟨o, r, false⟩] ++ post)) m' := by
  have hc : Coalesced (pre ++ [⟨o, r, false⟩]) :=
    coalesced_between g.around.coalesced_pre .nil hpre fun _ h => nomatch h
  have a := g.around.give hr h8 false hc
  have hin : Extent.Within ⟨o, r, false⟩ m :=
    g.around.within_gap (Nat.le_refl o) (Nat.add_le_add_left (Nat.le_add_right r s) o) hr h8
  have hsize := hx.size_eq_ok hin hb
  have hp := a.placed
  have hreadable := g.readable.add hx
  rw [List.append_assoc, List.singleton_append] at hp
  refine (Index.insert_ensures g.listed hp g.size_lt rfl hb hsize).mono ?_
  rintro index' m' ⟨hl, hm⟩
  rw [← List.singleton_append, ← List.append_assoc] at hl hm hreadable
  exact ⟨relink a hreadable hl hm, hm⟩

end Legible

namespace InOrder

/-- What is written in the gap does not matter. -/
theorem overwrite (g : InOrder m index p pre o s post)
    (hm : m.Agrees (fun i => i + 4 < o ∨ o + s ≤ i + 4) m') : InOrder m' index p pre o s post :=
  (g.legible.overwrite hm).inOrder
    (g.stamped.congr g.around (hm.mono fun _ hi => g.around.not_gap_of_atTag hi)).tagged

/-- Either the block in front of a gap is in use, or it is a free block of the layout. -/
theorem front (g : InOrder m index p pre o s post) (hb : b.offset = o) :
    ∃ w, b.previous m = .ok w ∧
      ((w.allocated m = .ok true ∧ EndsUsed pre) ∨
        ∃ xs x, pre = xs ++ [x] ∧ x.allocated = false ∧ w.offset = x.offset ∧
          w.allocated m = .ok false) :=
  g.legible.front hb

/-- Either the block behind a gap is in use, or it is a free block of the layout. -/
theorem behind (g : InOrder m index p pre o s post) (hw : w.offset = o + s) :
    (w.allocated m = .ok true ∧ StartsUsed post) ∨
      ∃ y ys, post = y :: ys ∧ y.allocated = false ∧ w.offset = y.offset ∧
        w.allocated m = .ok false :=
  g.legible.behind hw

end InOrder

end TagHeap
