import TagHeap.Proofs.Guarantees
import TagHeap.Proofs.Transcripts

/-!
# The lists of a heap

A layout leaves NO CHOICE about the index: the list of each class runs through the free blocks of
that class, from the lowest to the highest, each of them names its neighbours in that order and no
others, and the list counts them. That is more than an audit looks at, which compares the counts only
in total and does not look at the two spare bits of a tag (`Reachable.index_canonical`).

It follows from `Heap.Serves`, where the lists are spoken of as offsets and words; here they are
spoken of as what a walk from node to node finds.
-/

namespace TagHeap

open Layout

/-! ## Lists as a walk finds them -/

/-- The nodes name each other, the first one has `last` before it and the last one nothing after
it. -/
def Linked (m : Memory) : (last : Option Block) → List Block → Prop
  | _, [] => True
  | last, b :: bs => b.before m = .ok last ∧ b.after m = .ok bs.head? ∧ Linked m (some b) bs

/-- The list runs through the blocks `bs`, which lie in ascending order, and counts them. -/
structure FreeList.RunsThrough (list : FreeList) (m : Memory) (bs : List Block) : Prop where
  nodes : list.nodes m = .ok bs
  head : list.head = bs.head?
  length : list.length = bs.length
  linked : Linked m none bs
  ascending : bs.Pairwise (·.offset < ·.offset)

/-- What the words of a chain say is what its nodes name. -/
theorem Threads.linked {m : Memory} {last : Nat} {os : List Nat} (h : Threads m last os 0)
    (hn : Nodes m os) (fits : m.size < Size.bound) :
    Linked m (Block.ofOffset? last) (os.filterMap Block.ofOffset?) := by
  induction os generalizing last with
  | nil => trivial
  | cons o os ih =>
      obtain ⟨hlast, hnext, hrest⟩ := h
      obtain ⟨hpos, hinside⟩ := hn.inside o (List.mem_cons_self ..)
      have hn' : Nodes m os := hn.sublist (List.sublist_cons_self o os)
      have hhead := Block.head?_filterMap_ofOffset? fun o ho => (hn'.inside o ho).1
      rw [List.filterMap_cons, Block.ofOffset?_of_pos hpos]
      refine ⟨?_, ?_, ?_⟩
      · rw [Block.before_eq_ok fits (by dsimp only; omega), hlast]
      · rw [Block.after_eq_ok fits hinside, hnext, hhead]
      · rw [← Block.ofOffset?_of_pos hpos]
        exact ih hrest hn'

theorem FreeList.Threaded.runsThrough {list : FreeList} {m : Memory} {os : List Nat}
    (h : list.Threaded m os) (hn : Nodes m os) (fits : m.size < Size.bound) :
    list.RunsThrough m (os.filterMap Block.ofOffset?) ∧
      (os.filterMap Block.ofOffset?).map (·.offset) = os := by
  have hpos : ∀ o ∈ os, 0 < o := fun o ho => (hn.inside o ho).1
  have hoffsets := Block.map_filterMap_ofOffset? hpos
  have hnodes := visitAll_eq_ok h hn fits (f := id) fun _ _ => rfl
  rw [List.map_id] at hnodes
  refine ⟨⟨hnodes, ?_, ?_, h.threads.linked hn fits, hn.ascending⟩, hoffsets⟩
  · rw [h.head, Block.head?_filterMap_ofOffset? hpos]
  · rw [h.length, Block.length_filterMap_ofOffset? hpos]

/-! ## Tags -/

/-- The two bits between the flag and the size are zero. -/
def Tag.Plain (tag : Tag) : Prop :=
  tag.word.toNat.testBit 1 = false ∧ tag.word.toNat.testBit 2 = false

theorem Tag.plain_pack {size : Nat} (aligned : size % 8 = 0) (fits : size ≤ Size.maxBlock)
    (allocated : Bool) : (pack size allocated).Plain := by
  have hflag := Bool.toNat_le allocated
  rw [Plain, toNat_pack aligned fits, Nat.testBit_eq_decide_div_mod_eq,
    Nat.testBit_eq_decide_div_mod_eq, decide_eq_false_iff_not, decide_eq_false_iff_not]
  omega

/-- Where the tags of a block are. -/
def Extent.tagPlaces (x : Extent) : List Nat := [x.offset - 4, x.offset + x.size - 8]

theorem Extent.Tagged.word_eq {x : Extent} {m : Memory} (h : x.Tagged m) {i : Nat}
    (hi : i ∈ x.tagPlaces) : m.word i = x.tag.word := by
  rcases List.mem_cons.mp hi with rfl | hi
  · exact h.header
  · obtain rfl := List.mem_singleton.1 hi
    exact h.footer

variable {n : Nat} [HasClass n] {h : Heap n} {live : Live} {xs : List Extent}

namespace Heap

/-- Where the tags of the sentinels are, if there are sentinels. -/
def sentinelPlaces (h : Heap n) : List Nat :=
  match h.prologue with
  | some p => [p.offset - 4, p.offset, h.size - 4]
  | none => []

/-- Where the tags of a heap with the blocks `xs` are, those of its sentinels among them. -/
def tagPlaces (h : Heap n) (xs : List Extent) : List Nat :=
  h.sentinelPlaces ++ xs.flatMap Extent.tagPlaces

/-- What there is to find in a heap whose blocks are `xs`, laid out or not. -/
structure Charted (h : Heap n) (xs : List Extent) : Prop where
  layout : h.layout = .ok xs
  lists : h.index.Lists h.memory xs
  placed : Placed h.memory xs
  short : h.memory.size ≤ Region.maxSize
  within : ∀ x ∈ xs, x.Within h.memory
  tagged : ∀ x ∈ xs, x.Tagged h.memory
  sentinel : ∀ i ∈ h.sentinelPlaces,
    h.memory.word i = (Tag.pack 8 true).word ∨ h.memory.word i = Tag.epilogue.word

theorem Vacant.charted (hv : h.Vacant) : h.Charted [] where
  layout := hv.layout_eq_ok
  lists := by
    rw [hv.index]
    exact Index.lists_empty
  placed := ⟨.nil, nofun⟩
  short := Nat.le_trans hv.sound.size_le hv.sound.limit_le
  within := nofun
  tagged := nofun
  sentinel := by
    rw [sentinelPlaces, hv.prologue]
    exact nofun

theorem Shaped.charted {p : Block} (g : h.Shaped p xs) : h.Charted xs := by
  have hstamped := g.inOrder.stamped
  have hlisted := g.inOrder.listed
  have hplaced := g.around.placed
  rw [List.append_nil] at hstamped hlisted hplaced
  refine ⟨layout_eq_ok g, hlisted, hplaced, g.around.short, fun x hx => ?_, hstamped.tagged, ?_⟩
  · exact g.inOrder.within (by rwa [List.append_nil])
  · rw [sentinelPlaces, g.prologue]
    intro i hi
    rcases List.mem_cons.mp hi with rfl | hi
    · exact .inl hstamped.header
    rcases List.mem_cons.mp hi with rfl | hi
    · exact .inl hstamped.footer
    · obtain rfl := List.mem_singleton.1 hi
      exact .inr hstamped.epilogue

theorem Serves.charted (hs : h.Serves live) : ∃ xs, h.Charted xs := by
  cases hs with
  | vacant hv => exact ⟨[], hv.charted⟩
  | shaped g _ => exact ⟨_, g.charted⟩

namespace Charted

theorem size_lt (hc : h.Charted xs) : h.memory.size < Size.wordBound :=
  Nat.lt_of_le_of_lt hc.short (by decide)

/-- The list of a class runs through the free blocks of the class. -/
theorem runsThrough (hc : h.Charted xs) (c : Fin n) :
    ∃ bs, (h.index.list c).RunsThrough h.memory bs ∧ bs.map (·.offset) = members c xs :=
  ⟨_, (hc.lists c).runsThrough (hc.placed.nodes c) (size_lt_bound hc.size_lt)⟩

/-- Both tags of a block hold its size and its use, and no more. -/
theorem word_eq (hc : h.Charted xs) {x : Extent} (hx : x ∈ xs) {i : Nat} (hi : i ∈ x.tagPlaces) :
    h.memory.word i = (Tag.pack x.size x.allocated).word :=
  (hc.tagged x hx).word_eq hi

/-- All tags of a heap are plain. -/
theorem plain (hc : h.Charted xs) {i : Nat} (hi : i ∈ h.tagPlaces xs) :
    Tag.Plain ⟨h.memory.word i⟩ := by
  rcases List.mem_append.mp hi with hi | hi
  · rcases hc.sentinel i hi with hw | hw
    · rw [hw]
      exact Tag.plain_pack (by decide) (by decide) true
    · rw [hw]
      exact Tag.plain_pack (by decide) (by decide) true
  · obtain ⟨x, hx, hi⟩ := List.mem_flatMap.1 hi
    rw [hc.word_eq hx hi]
    exact Tag.plain_pack (hc.within x hx).aligned (hc.within x hx).size_le _

end Charted

end Heap

/-- **THE INDEX IS CANONICAL.** In every state that a client which keeps to the rules can reach, the
list of a class runs through exactly the free blocks of that class, in ascending order, with the
right links and the right length, and the spare bits of all tags are zero. -/
theorem Reachable.index_canonical (hr : Reachable h live) :
    ∃ xs, h.layout = .ok xs ∧
      (∀ c : Fin n, ∃ bs, (h.index.list c).RunsThrough h.memory bs ∧
        bs.map (·.offset) =
          (xs.filter fun x => !x.allocated && Index.classOf n x.size == c).map (·.offset)) ∧
      ∀ i ∈ h.tagPlaces xs, Tag.Plain ⟨h.memory.word i⟩ := by
  obtain ⟨xs, hc⟩ := hr.serves.charted
  exact ⟨xs, hc.layout, hc.runsThrough, fun i hi => hc.plain hi⟩

/-- The free block in front of the two is alone on its list, and both of its tags are plain. -/
theorem index_canonical_twoBlocks :
    ∃ bs, (twoBlocks.index.list 1).RunsThrough twoBlocks.memory bs ∧ bs.map (·.offset) = [16] ∧
      Tag.Plain ⟨twoBlocks.memory.word 12⟩ ∧ Tag.Plain ⟨twoBlocks.memory.word 4024⟩ := by
  obtain ⟨xs, hlayout, hlists, hplain⟩ := reachable_twoBlocks.index_canonical
  have hxs : twoBlocks.layout =
      .ok [⟨16, 4016, false⟩, ⟨4032, 48, true⟩, ⟨4080, 32, true⟩] := rfl
  obtain rfl := Except.ok.inj (hxs.symm.trans hlayout)
  obtain ⟨bs, hruns, hoffsets⟩ := hlists 1
  have hplaces : twoBlocks.tagPlaces [⟨16, 4016, false⟩, ⟨4032, 48, true⟩, ⟨4080, 32, true⟩] =
      [4, 8, 4108, 12, 4024, 4028, 4072, 4076, 4104] := rfl
  rw [hplaces] at hplain
  exact ⟨bs, hruns, hoffsets, hplain 12 (by decide), hplain 4024 (by decide)⟩

end TagHeap
