import TagHeap.Heap
import TagHeap.Proofs.Listing

/-!
# The shape of a heap

The operations of a heap break its shape and mend it again. What holds in between is that all is in
order AROUND A GAP: the blocks in front of it and behind it tile the rest of the heap, carry their
tags, and are on their lists if they are free, while the bytes of the gap may hold anything.

* `Around p pre o s post hi` is the geometry: `pre` reaches from the prologue `p` to `o`, and `post`
  from `o + s` to the end of the memory.
* `Stamped m p xs` says that the sentinels and the blocks of `xs` carry their tags.
* `InOrder m index p pre o s post` puts both together with the index.

A gap swallows a neighbour and gives up a piece of itself again; each of these moves is one lemma
below. A heap without a gap is one whose gap is empty, and then the shape is whole.
-/

namespace TagHeap

open Layout

variable {n : Nat} [HasClass n]

/-- Both ends of the block hold its tag. -/
structure Extent.Tagged (x : Extent) (m : Memory) : Prop where
  header : m.word (x.offset - 4) = x.tag.word
  footer : m.word (x.offset + x.size - 8) = x.tag.word

namespace Extent

/-- The block that the header in front of a place tells of. -/
def read (m : Memory) (offset : Nat) : Extent :=
  ⟨offset, (Tag.mk (m.word (offset - 4))).size, (Tag.mk (m.word (offset - 4))).allocated⟩

/-- Both ends of the block hold the same word, and that word tells of the block. -/
structure Marked (x : Extent) (m : Memory) : Prop where
  header : read m x.offset = x
  footer : m.word (x.offset + x.size - 8) = m.word (x.offset - 4)

namespace Marked

variable {x : Extent} {m : Memory}

theorem size_eq (h : x.Marked m) : (Tag.mk (m.word (x.offset - 4))).size = x.size :=
  congrArg Extent.size h.header

theorem allocated_eq (h : x.Marked m) :
    (Tag.mk (m.word (x.offset - 4))).allocated = x.allocated :=
  congrArg Extent.allocated h.header

end Marked

end Extent

/-! ## Places -/

/-- The place is in the tag of a sentinel or of a block of the layout, in a memory of `hi` bytes. -/
def AtTag (p : Block) (xs : List Extent) (hi i : Nat) : Prop :=
  (p.offset ≤ i + 4 ∧ i < p.offset + 4) ∨ (hi ≤ i + 4 ∧ i < hi) ∨
    ∃ x ∈ xs, (x.offset ≤ i + 4 ∧ i < x.offset) ∨
      (x.offset + x.size ≤ i + 8 ∧ i + 4 < x.offset + x.size)

/-- The place lies below the first block, or in a block of the layout that is in use. -/
def Held (p : Block) (xs : List Extent) (i : Nat) : Prop :=
  i < p.offset + 4 ∨ ∃ x ∈ xs, x.allocated = true ∧ x.Covers i

theorem Held.mono {p : Block} {xs ys : List Extent} {i : Nat} (h : Held p xs i)
    (hs : ∀ x ∈ xs, x.allocated = true → x ∈ ys) : Held p ys i := by
  rcases h with h | ⟨x, hx, hu, hc⟩
  · exact .inl h
  · exact .inr ⟨x, hs x hx hu, hu, hc⟩

/-! ## Geometry -/

/-- The blocks of `pre` and `post` tile all that lies behind the prologue `p`, up to `hi`, but for a
gap of `s` bytes at `o`. -/
structure Around (p : Block) (pre : List Extent) (o s : Nat) (post : List Extent) (hi : Nat) :
    Prop where
  aligned : p.offset % 8 = 0
  before : Tiles (p.offset + 8) pre o
  after : Tiles (o + s) post hi
  gap : s % 8 = 0
  coalesced_pre : Coalesced pre
  coalesced_post : Coalesced post
  short : hi ≤ Region.maxSize

namespace Around

variable {p : Block} {pre post : List Extent} {o s hi : Nat} {x y : Extent}

theorem prologue_le (a : Around p pre o s post hi) : 8 ≤ p.offset := by
  have := a.aligned
  have := p.pos
  omega

theorem offset_mod (a : Around p pre o s post hi) : o % 8 = 0 :=
  a.before.hi_mod (by have := a.aligned; omega)

theorem hi_mod (a : Around p pre o s post hi) : hi % 8 = 0 :=
  a.after.hi_mod (by have := a.offset_mod; have := a.gap; omega)

/-- Where the gap lies. -/
theorem bounds (a : Around p pre o s post hi) : p.offset + 8 ≤ o ∧ o + s ≤ hi :=
  ⟨a.before.le, a.after.le⟩

theorem ordered (a : Around p pre o s post hi) : (pre ++ post).Pairwise Extent.Before :=
  a.before.ordered_append a.after (Nat.le_add_right o s)

/-- Where a block around the gap lies. -/
theorem mem_bounds (a : Around p pre o s post hi) (hx : x ∈ pre ++ post) :
    p.offset + 8 ≤ x.offset ∧ x.offset + x.size ≤ hi ∧ Size.minBlock ≤ x.size ∧ x.size % 8 = 0 ∧
      (x.offset + x.size ≤ o ∨ o + s ≤ x.offset) := by
  have hb := a.bounds
  rcases List.mem_append.mp hx with hx | hx
  · obtain ⟨h1, h2, h3, h4⟩ := a.before.bounds hx
    exact ⟨h1, by omega, h3, h4, .inl h2⟩
  · obtain ⟨h1, h2, h3, h4⟩ := a.after.bounds hx
    exact ⟨by omega, h2, h3, h4, .inr h1⟩

theorem mem_offset_mod (a : Around p pre o s post hi) (hx : x ∈ pre ++ post) :
    x.offset % 8 = 0 := by
  have hp := a.aligned
  have ho := a.offset_mod
  have hs := a.gap
  rcases List.mem_append.mp hx with hx | hx
  · exact a.before.offset_mod (by omega) hx
  · exact a.after.offset_mod (by omega) hx

theorem placed {m : Memory} (a : Around p pre o s post m.size) : Placed m (pre ++ post) := by
  refine ⟨a.ordered, fun x hx => ?_⟩
  obtain ⟨h1, h2, h3, -⟩ := a.mem_bounds hx
  exact ⟨by omega, h3, h2⟩

/-- The gap swallows the block behind it. -/
theorem swallow_next (a : Around p pre o s (y :: post) hi) : Around p pre o (s + y.size) post hi :=
  { a with
    after := by rw [← Nat.add_assoc]; exact a.after.2.2.2
    gap := by have := a.gap; have := a.after.2.2.1; omega
    coalesced_post := a.coalesced_post.tail }

/-- The gap swallows the block in front of it. -/
theorem swallow_previous (a : Around p (pre ++ [x]) o s post hi) :
    Around p pre x.offset (x.size + s) post hi := by
  obtain ⟨mid, hpre, rfl, -, h8, hmid⟩ := tiles_append.1 a.before
  have hmid : x.offset + x.size = o := hmid
  exact
    { a with
      before := hpre
      after := by rw [← Nat.add_assoc, hmid]; exact a.after
      gap := by have := a.gap; omega
      coalesced_pre := (coalesced_append.1 a.coalesced_pre).1 }

/-- The gap gives up its first bytes to a block. -/
theorem give {r : Nat} (a : Around p pre o (r + s) post hi) (hr : Size.minBlock ≤ r)
    (h8 : r % 8 = 0) (u : Bool) (hc : Coalesced (pre ++ [⟨o, r, u⟩])) :
    Around p (pre ++ [⟨o, r, u⟩]) (o + r) s post hi :=
  { a with
    before := a.before.append ⟨rfl, hr, h8, rfl⟩
    after := by rw [Nat.add_assoc]; exact a.after
    gap := by have := a.gap; omega
    coalesced_pre := hc }

/-- Another end of the gap, when it reaches to the end of the memory. -/
theorem stretch {hi' : Nat} (a : Around p pre o s [] hi) (h8 : hi' % 8 = 0) (ho : o ≤ hi')
    (hs : hi' ≤ Region.maxSize) : Around p pre o (hi' - o) [] hi' :=
  { a with
    after := Nat.add_sub_cancel' ho
    gap := by have := a.offset_mod; omega
    short := hs }

/-- An empty gap may be closed where no two free blocks would touch. -/
theorem close (a : Around p pre o 0 post hi) (hc : Coalesced (pre ++ post)) :
    Around p (pre ++ post) hi 0 [] hi :=
  { a with
    before := a.before.append a.after
    after := rfl
    coalesced_pre := hc
    coalesced_post := .nil }

/-- Without a gap there is an empty one between any two blocks. -/
theorem split (a : Around p (pre ++ post) hi 0 [] hi) : ∃ o, Around p pre o 0 post hi := by
  obtain ⟨o, hpre, hpost⟩ := tiles_append.1 a.before
  obtain ⟨c1, c2, -⟩ := coalesced_append.1 a.coalesced_pre
  exact ⟨o, { a with before := hpre, after := hpost, coalesced_pre := c1, coalesced_post := c2 }⟩

/-- Without a gap, a block may be looked at as one. -/
theorem at_block (a : Around p (pre ++ x :: post) hi 0 [] hi) :
    Around p pre x.offset x.size post hi := by
  obtain ⟨o, a₀⟩ := a.split
  obtain rfl : x.offset = o := a₀.after.1
  rw [← Nat.zero_add x.size]
  exact a₀.swallow_next

/-- The gap swallows a run of blocks behind it. -/
theorem swallow_run {xs : List Extent} (a : Around p pre o s (xs ++ post) hi) {stop : Nat}
    (hxs : Tiles (o + s) xs stop) : Around p pre o (stop - o) post hi := by
  obtain ⟨mid, hmid, hpost⟩ := tiles_append.1 a.after
  obtain rfl := hmid.stop_unique hxs
  have hle := hxs.le
  have ho := a.offset_mod
  have hstop := hxs.hi_mod (by have := a.gap; omega)
  exact
    { a with
      after := by rwa [Nat.add_sub_cancel' (Nat.le_trans (Nat.le_add_right o s) hle)]
      gap := by omega
      coalesced_post := (coalesced_append.1 a.coalesced_post).2.1 }

/-- The bytes of a block are no links, but for its own. -/
theorem offLinks_of_covers (a : Around p pre o s post hi) (hx : x ∈ pre ++ post) {i : Nat}
    (hc : x.Covers i) (hout : x.allocated = false → i < x.offset ∨ x.offset + 8 ≤ i) :
    OffLinks (pre ++ post) i := by
  intro z hz hfree
  have z3 := (a.mem_bounds hz).2.2.1
  simp only [Size.minBlock] at z3
  obtain ⟨hc1, hc2⟩ := hc
  by_cases hxz : x = z
  · subst hxz
    exact hout hfree
  · rcases Extent.before_or_before a.ordered hx hz hxz with hb | hb
    · have : x.offset + x.size ≤ z.offset := hb
      omega
    · have : z.offset + z.size ≤ x.offset := hb
      omega

/-- Tags are no links. -/
theorem offLinks_of_atTag (a : Around p pre o s post hi) {i : Nat}
    (h : AtTag p (pre ++ post) hi i) : OffLinks (pre ++ post) i := by
  rcases h with h | h | ⟨x, hx, h⟩
  · intro z hz _
    have := (a.mem_bounds hz).1
    omega
  · intro z hz _
    have := a.mem_bounds hz
    simp only [Size.minBlock] at this
    omega
  · -- A block's own tags lie in front of and behind its links.
    have x3 := (a.mem_bounds hx).2.2.1
    simp only [Size.minBlock] at x3
    exact a.offLinks_of_covers hx ⟨by omega, by omega⟩ fun _ => by omega

/-- The bytes of a block in use are no links. -/
theorem offLinks_of_held (a : Around p pre o s post hi) {i : Nat} (h : Held p (pre ++ post) i) :
    OffLinks (pre ++ post) i := by
  rcases h with h | ⟨x, hx, hu, hc⟩
  · intro z hz _
    have := (a.mem_bounds hz).1
    omega
  · refine a.offLinks_of_covers hx hc fun hfree => ?_
    rw [hu] at hfree
    cases hfree

/-- The bytes of the gap are no links. -/
theorem offLinks_of_gap (a : Around p pre o s post hi) {i : Nat} (h1 : o ≤ i + 4)
    (h2 : i + 4 < o + s) : OffLinks (pre ++ post) i := by
  intro z hz _
  obtain ⟨z1, z2, z3, -, z4⟩ := a.mem_bounds hz
  simp only [Size.minBlock] at z3
  omega

/-- The tags of a block survive what writes to no tag. -/
theorem word_tag {m m' : Memory} (a : Around p pre o s post hi)
    (hm : ∀ i, AtTag p (pre ++ post) hi i → m'.byte i = m.byte i) (hx : x ∈ pre ++ post) :
    m'.word (x.offset - 4) = m.word (x.offset - 4) ∧
      m'.word (x.offset + x.size - 8) = m.word (x.offset + x.size - 8) := by
  have hp := a.prologue_le
  obtain ⟨x1, -, x3, -⟩ := a.mem_bounds hx
  simp only [Size.minBlock] at x3
  exact ⟨Memory.word_congr fun j _ _ => hm j (.inr (.inr ⟨x, hx, .inl (by omega)⟩)),
    Memory.word_congr fun j _ _ => hm j (.inr (.inr ⟨x, hx, .inr (by omega)⟩))⟩

/-- So does a block that carries its tags. -/
theorem tagged {m m' : Memory} (a : Around p pre o s post hi)
    (hm : ∀ i, AtTag p (pre ++ post) hi i → m'.byte i = m.byte i) (hx : x ∈ pre ++ post)
    (ht : x.Tagged m) : x.Tagged m' := by
  obtain ⟨hfront, hend⟩ := a.word_tag hm hx
  exact ⟨hfront.trans ht.header, hend.trans ht.footer⟩

/-- So do the sentinels. -/
theorem word_sentinel {m m' : Memory} (a : Around p pre o s post hi)
    (hm : ∀ i, AtTag p (pre ++ post) hi i → m'.byte i = m.byte i) :
    m'.word (p.offset - 4) = m.word (p.offset - 4) ∧ m'.word p.offset = m.word p.offset ∧
      m'.word (hi - 4) = m.word (hi - 4) := by
  have hp := a.prologue_le
  have hb := a.bounds
  exact ⟨Memory.word_congr fun j _ _ => hm j (.inl (by omega)),
    Memory.word_congr fun j _ _ => hm j (.inl (by omega)),
    Memory.word_congr fun j _ _ => hm j (.inr (.inl (by omega)))⟩

/-- The bytes of blocks lie outside of the gap. -/
theorem not_gap_of_covers (a : Around p pre o s post hi) (hx : x ∈ pre ++ post) {i : Nat}
    (hc : x.Covers i) : i + 4 < o ∨ o + s ≤ i + 4 := by
  obtain ⟨x1, x2, -, -, x4⟩ := a.mem_bounds hx
  obtain ⟨hc1, hc2⟩ := hc
  omega

/-- So do tags and what is held. -/
theorem not_gap_of_atTag (a : Around p pre o s post hi) {i : Nat}
    (h : AtTag p (pre ++ post) hi i) : i + 4 < o ∨ o + s ≤ i + 4 := by
  have hb := a.bounds
  rcases h with h | h | ⟨x, hx, h⟩
  · omega
  · omega
  · have x3 := (a.mem_bounds hx).2.2.1
    simp only [Size.minBlock] at x3
    exact a.not_gap_of_covers hx ⟨by omega, by omega⟩

theorem not_gap_of_held (a : Around p pre o s post hi) {i : Nat} (h : Held p (pre ++ post) i) :
    i + 4 < o ∨ o + s ≤ i + 4 := by
  have hb := a.bounds
  rcases h with h | ⟨x, hx, -, hc⟩
  · omega
  · exact a.not_gap_of_covers hx hc

/-- Nothing is held where the epilogue is. -/
theorem held_lt (a : Around p pre o s post hi) {i : Nat} (h : Held p (pre ++ post) i) :
    i + 4 < hi := by
  have hb := a.bounds
  rcases h with h | ⟨x, hx, -, hc⟩
  · omega
  · obtain ⟨x1, x2, x3, -⟩ := a.mem_bounds hx
    obtain ⟨hc1, hc2⟩ := hc
    omega

/-- So do links. -/
theorem not_gap_of_link (a : Around p pre o s post hi) (hx : x ∈ pre ++ post) {i : Nat}
    (h1 : x.offset ≤ i) (h2 : i < x.offset + 8) : i + 4 < o ∨ o + s ≤ i + 4 := by
  obtain ⟨x1, x2, x3, -, x4⟩ := a.mem_bounds hx
  simp only [Size.minBlock] at x3
  omega

end Around

/-! ## Tags -/

/-- The sentinels and the blocks of the layout carry their tags. -/
structure Stamped (m : Memory) (p : Block) (xs : List Extent) : Prop where
  header : m.word (p.offset - 4) = (Tag.pack 8 true).word
  footer : m.word p.offset = (Tag.pack 8 true).word
  epilogue : m.word (m.size - 4) = Tag.epilogue.word
  tagged : ∀ x ∈ xs, x.Tagged m

namespace Stamped

variable {m m' : Memory} {p : Block} {xs ys pre post : List Extent} {o s : Nat}

theorem subset (h : Stamped m p xs) (hs : ys ⊆ xs) : Stamped m p ys :=
  { h with tagged := fun x hx => h.tagged x (hs hx) }

theorem add {x : Extent} (h : Stamped m p (pre ++ post)) (hx : x.Tagged m) :
    Stamped m p (pre ++ [x] ++ post) :=
  { h with
    tagged := by
      intro y hy
      rw [List.append_assoc, List.singleton_append] at hy
      rcases List.mem_append.mp hy with hy | hy
      · exact h.tagged y (List.mem_append_left _ hy)
      · rcases List.mem_cons.mp hy with rfl | hy
        · exact hx
        · exact h.tagged y (List.mem_append_right _ hy) }

/-- Tags survive what writes to none of them. -/
theorem congr (h : Stamped m p (pre ++ post)) (a : Around p pre o s post m.size)
    (hm : m.Agrees (AtTag p (pre ++ post) m.size) m') : Stamped m' p (pre ++ post) := by
  obtain ⟨hheader, hfooter, hepilogue⟩ := a.word_sentinel hm.byte
  exact ⟨hheader.trans h.header, hfooter.trans h.footer, by rw [hm.size, hepilogue, h.epilogue],
    fun x hx => a.tagged hm.byte hx (h.tagged x hx)⟩

end Stamped

/-! ## In order around a gap -/

/-- All but the gap of `s` bytes at `o` is in order: the blocks around it tile the memory, carry
their tags, and are on their lists if they are free. -/
structure InOrder (m : Memory) (index : Index n) (p : Block) (pre : List Extent) (o s : Nat)
    (post : List Extent) : Prop where
  around : Around p pre o s post m.size
  stamped : Stamped m p (pre ++ post)
  listed : index.Lists m (pre ++ post)

namespace InOrder

variable {m m' : Memory} {index : Index n} {p b : Block} {pre post : List Extent} {o s r : Nat}
  {x y : Extent}

theorem size_lt (g : InOrder m index p pre o s post) : m.size < Size.wordBound :=
  Nat.lt_of_le_of_lt g.around.short (by decide)

/-- The gap swallows a block in use behind it. -/
theorem swallow_next (g : InOrder m index p pre o s (x :: post)) (hx : x.allocated = true) :
    InOrder m index p pre o (s + x.size) post where
  around := g.around.swallow_next
  stamped := g.stamped.subset ((List.Sublist.refl _).middle x).subset
  listed := (Index.lists_cons_of_allocated hx).1 g.listed

/-- An empty gap may be anywhere, and may be closed where no two free blocks would touch. -/
theorem close (g : InOrder m index p pre o 0 post) (hc : Coalesced (pre ++ post)) :
    InOrder m index p (pre ++ post) m.size 0 [] where
  around := g.around.close hc
  stamped := by rw [List.append_nil]; exact g.stamped
  listed := by rw [List.append_nil]; exact g.listed

theorem split (g : InOrder m index p (pre ++ post) m.size 0 []) :
    ∃ o, InOrder m index p pre o 0 post := by
  have hs := g.stamped
  have hl := g.listed
  rw [List.append_nil] at hs hl
  obtain ⟨o, ha⟩ := g.around.split
  exact ⟨o, ha, hs, hl⟩

end InOrder

end TagHeap
