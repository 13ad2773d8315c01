import Mathlib.Algebra.BigOperators.Fin
import TagHeap.Proofs.Shape

/-!
# Well-formed memory

What it means for a memory, whatever its bytes are, to hold a heap: sentinels at both ends, blocks
that tile what lies between them, and lists that thread exactly the free ones. Nothing is said here
about how the memory came to be, so a tag may have bits set that no operation sets, and the links
may have been written by anyone.

`WellFormed m index p xs nodes` names the blocks `xs` and, class by class, the places `nodes` of the
nodes on its list. Both are determined by the words of the memory: a block is known by its header
(`Extent.Marked.eq_of_offset`).
-/

namespace TagHeap

open Layout

namespace Tag

/-- No tag says more than a word can hold. -/
theorem size_lt (t : Tag) : t.size < Size.wordBound := by
  have := t.word.toNat_lt
  simp only [Tag.size, Size.wordBound]
  omega

theorem size_mod (t : Tag) : t.size % 8 = 0 := by
  simp only [Tag.size]
  omega

end Tag

namespace Extent

/-- The block is marked, stands at a multiple of eight, and lies inside of the memory. -/
structure Intact (x : Extent) (m : Memory) : Prop extends Marked x m where
  aligned : x.offset % 8 = 0
  room : 4 ≤ x.offset
  large : Size.minBlock ≤ x.size
  stop_le : x.offset + x.size ≤ m.size

variable {x y : Extent} {m : Memory}

theorem Marked.size_mod (h : x.Marked m) : x.size % 8 = 0 := by
  rw [← h.size_eq]
  exact Tag.size_mod _

/-- A block is known by its header, and so by its place. -/
theorem Marked.eq_of_offset (hx : x.Marked m) (hy : y.Marked m) (ho : x.offset = y.offset) :
    x = y := by
  rw [← hx.header, ← hy.header, ho]

end Extent

variable {n : Nat} [HasClass n]

/-- The memory holds a heap behind the prologue `p`. Its blocks are `xs`, and the list of the class
`c` runs through the nodes at `nodes c`. -/
structure WellFormed (m : Memory) (index : Index n) (p : Block) (xs : List Extent)
    (nodes : Fin n → List Nat) : Prop where
  /-- There is room for the pad and the header of the prologue. -/
  prologue_le : 8 ≤ p.offset
  header : m.word (p.offset - 4) = (Tag.pack 8 true).word
  footer : m.word p.offset = (Tag.pack 8 true).word
  /-- The blocks lie one behind the other, from the prologue to the end of the memory. -/
  tiles : Tiles (p.offset + 8) xs m.size
  aligned : ∀ x ∈ xs, x.offset % 8 = 0
  marked : ∀ x ∈ xs, x.Marked m
  epilogue : m.word (m.size - 4) = Tag.epilogue.word
  /-- No two free blocks touch. -/
  coalesced : Coalesced xs
  /-- A list starts at its first node, and its links name the nodes in both directions. -/
  head : ∀ c, (index.list c).head = Block.ofOffset? ((nodes c).headD 0)
  threads : ∀ c, Threads m 0 (nodes c) 0
  ascending : ∀ c, (nodes c).Pairwise (· < ·)
  /-- The nodes are free blocks of the class. -/
  members : ∀ c, ∀ o ∈ nodes c, ∃ x ∈ xs, x.allocated = false ∧ Index.classOf n x.size = c ∧
    x.offset = o
  /-- Every free block is on a list. -/
  listed : ∀ x ∈ xs, x.allocated = false → ∃ c, x.offset ∈ nodes c
  /-- The lengths of the lists add up to the number of free blocks. -/
  counted : ∑ c, (index.list c).length = (xs.filter (!·.allocated)).length

namespace WellFormed

variable {m : Memory} {index : Index n} {p : Block} {xs : List Extent} {nodes : Fin n → List Nat}
  {x : Extent} {c : Fin n}

/-- Where a block lies. -/
theorem mem_bounds (h : WellFormed m index p xs nodes) (hx : x ∈ xs) :
    16 ≤ x.offset ∧ x.offset + x.size ≤ m.size ∧ Size.minBlock ≤ x.size := by
  obtain ⟨hlo, hhi, hlarge, -⟩ := h.tiles.bounds hx
  have := h.prologue_le
  exact ⟨by omega, hhi, hlarge⟩

theorem intact (h : WellFormed m index p xs nodes) (hx : x ∈ xs) : x.Intact m := by
  obtain ⟨hlo, hhi, hlarge⟩ := h.mem_bounds hx
  exact { h.marked x hx with
    aligned := h.aligned x hx
    room := Nat.le_trans (by decide) hlo
    large := hlarge
    stop_le := hhi }

/-- A free block is on the list of its class. -/
theorem mem_nodes_iff (h : WellFormed m index p xs nodes) (hx : x ∈ xs)
    (hfree : x.allocated = false) : x.offset ∈ nodes c ↔ Index.classOf n x.size = c := by
  have key : ∀ d, x.offset ∈ nodes d → Index.classOf n x.size = d := by
    intro d hd
    obtain ⟨y, hy, -, hclass, ho⟩ := h.members d _ hd
    obtain rfl := (h.marked y hy).eq_of_offset (h.marked x hx) ho
    exact hclass
  constructor
  · exact key c
  · intro hc
    obtain ⟨d, hd⟩ := h.listed x hx hfree
    rw [← hc, key d hd]
    exact hd

/-- The nodes of a list are the free blocks of its class. -/
theorem mem_nodes {o : Nat} (h : WellFormed m index p xs nodes) :
    o ∈ nodes c ↔ ∃ x ∈ xs, x.allocated = false ∧ Index.classOf n x.size = c ∧ x.offset = o := by
  constructor
  · exact h.members c o
  · rintro ⟨x, hx, hfree, hclass, rfl⟩
    exact (h.mem_nodes_iff hx hfree).2 hclass

/-- The prologue is aligned if there is a block behind it. -/
theorem prologue_mod (h : WellFormed m index p xs nodes) (hx : x ∈ xs) : p.offset % 8 = 0 := by
  cases xs with
  | nil => exact nomatch hx
  | cons y xs =>
      have ho : y.offset = p.offset + 8 := h.tiles.1
      have := h.aligned y (List.mem_cons_self ..)
      omega

theorem placed (h : WellFormed m index p xs nodes) : Placed m xs := by
  refine ⟨h.tiles.ordered, fun x hx => ?_⟩
  obtain ⟨hlo, hhi, hlarge⟩ := h.mem_bounds hx
  exact ⟨Nat.lt_of_lt_of_le (by decide) hlo, hlarge, hhi⟩

/-- The nodes of the lists follow from the blocks. -/
theorem nodes_eq_members (h : WellFormed m index p xs nodes) (c : Fin n) :
    nodes c = Layout.members c xs := by
  refine List.Pairwise.eq_of_mem_iff (h.ascending c) (h.placed.nodes c).increasing fun o => ?_
  rw [h.mem_nodes, mem_members]

/-- A walk along a list finds its nodes, whatever the list counts. -/
theorem nodes_eq_ok (h : WellFormed m index p xs nodes) (fits : m.size < Size.bound) (c : Fin n) :
    ∃ bs, (index.list c).nodes m = .ok bs ∧ bs.length = (nodes c).length ∧
      ∀ b ∈ bs, b.offset ∈ nodes c := by
  have hn : Nodes m (nodes c) := by
    rw [h.nodes_eq_members]
    exact h.placed.nodes c
  have ht : FreeList.Threaded ⟨(index.list c).head, (nodes c).length⟩ m (nodes c) :=
    ⟨h.head c, rfl, h.threads c⟩
  have hnodes := FreeList.visitAll_eq_ok ht hn fits (f := id) fun _ _ => rfl
  rw [List.map_id] at hnodes
  exact ⟨_, hnodes, Block.length_filterMap_ofOffset? fun o ho => (hn.inside o ho).1,
    fun b hb => Block.mem_filterMap_ofOffset?.1 hb⟩

end WellFormed

end TagHeap
