import TagHeap.Memory
import TagHeap.Tag

/-!
# Blocks

A block is known by the offset of its payload. Its header is the word in front of the payload and
its footer the last word of the block; both hold the block's tag:

    header | payload ............ | footer | header of the next block
           ^ offset

The block after it starts at its offset plus its size. The block before it ends where its header
begins, so that one's footer, the word in front of the header, says how far back it starts.

Offset zero lies in the pad at the start of a heap and is no block's, which is why a zero word can
mean "no block" in a link.
-/

namespace TagHeap

/-- The offset of a payload. -/
structure Block where
  offset : Nat
  pos : 0 < offset

namespace Block

@[ext] theorem ext {a b : Block} (h : a.offset = b.offset) : a = b := by
  cases a; cases b; cases h; rfl

instance : DecidableEq Block := fun a b =>
  decidable_of_iff (a.offset = b.offset) ⟨ext, congrArg offset⟩

instance : Repr Block := ⟨fun b _ => repr b.offset⟩

/-- The block at an offset, none at zero. -/
def ofOffset? (offset : Nat) : Option Block :=
  if h : 0 < offset then some ⟨offset, h⟩ else none

/-- The block at an offset that must not be zero. -/
def ofOffset (offset : Nat) : Except Fault Block :=
  if h : 0 < offset then .ok ⟨offset, h⟩ else .error .noBlock

/-- Where the header is. -/
def header (b : Block) : Except Fault Nat := Size.sub b.offset 4

/-- The tag in the header. -/
def tag (b : Block) (m : Memory) : Except Fault Tag := do
  return ⟨← m.readWord (← b.header)⟩

/-- The size, tags included, that the header gives. -/
def size (b : Block) (m : Memory) : Except Fault Nat := return (← b.tag m).size

/-- Whether the header says that the block is in use. -/
def allocated (b : Block) (m : Memory) : Except Fault Bool := return (← b.tag m).allocated

/-- Where the footer is, by the size in the header. -/
def footer (b : Block) (m : Memory) : Except Fault Nat := do
  Size.sub (← Size.add b.offset (← b.size m)) 8

/-- The block that starts where this one ends. -/
def next (b : Block) (m : Memory) : Except Fault Block := do
  ofOffset (← Size.add b.offset (← b.size m))

/-- The block that ends where this one starts. -/
def previous (b : Block) (m : Memory) : Except Fault Block := do
  let footer : Tag := ⟨← m.readWord (← Size.sub b.offset 8)⟩
  ofOffset (← Size.sub b.offset footer.size)

/-- Writes a tag to both ends of a block. The header comes first, because the place of the footer
follows from the size in it. -/
def writeTags (b : Block) (tag : Tag) : Step Memory Unit := do
  Memory.writeWord (← b.header) tag.word
  Memory.writeWord (← Step.inspect b.footer) tag.word

@[simp] theorem ofOffset?_eq_some (b : Block) : ofOffset? b.offset = some b := dif_pos b.pos

theorem ofOffset?_eq_some_iff {o : Nat} {b : Block} : ofOffset? o = some b ↔ o = b.offset := by
  constructor
  · intro h
    rw [ofOffset?] at h
    split at h
    · exact congrArg offset (Option.some.inj h)
    · cases h
  · rintro rfl
    exact ofOffset?_eq_some b

@[simp] theorem ofOffset_eq_ok (b : Block) : ofOffset b.offset = .ok b := dif_pos b.pos

/-! ## Blocks inside the memory

A block whose header lies inside the memory can be read, and its tags can be written where both fit.
-/

section Inside

variable {b : Block} {m : Memory}

theorem header_eq_ok (room : 4 ≤ b.offset) : b.header = .ok (b.offset - 4) :=
  Size.sub_eq_ok room

theorem tag_eq_ok (fits : m.size < Size.bound) (room : 4 ≤ b.offset) (inside : b.offset ≤ m.size) :
    b.tag m = .ok ⟨m.word (b.offset - 4)⟩ := by
  have hr := Memory.readWord_eq_ok (i := b.offset - 4) fits (by omega)
  simp only [tag, header_eq_ok room, bind, Except.bind, hr]
  rfl

theorem size_eq_ok {t : Tag} (h : b.tag m = .ok t) : b.size m = .ok t.size := by
  simp only [size, h, bind, Except.bind]
  rfl

theorem allocated_eq_ok {t : Tag} (h : b.tag m = .ok t) : b.allocated m = .ok t.allocated := by
  simp only [allocated, h, bind, Except.bind]
  rfl

/-- The next block, where the heap goes on far enough. -/
theorem next_eq_ok {t : Tag} (h : b.tag m = .ok t) (fits : b.offset + t.size < Size.bound) :
    b.next m = .ok ⟨b.offset + t.size, Nat.add_pos_left b.pos _⟩ := by
  simp only [next, size_eq_ok h, bind, Except.bind, Size.add_eq_ok fits]
  exact dif_pos _

/-- Tags are written to the word before the payload and to the last word of the block. -/
theorem writeTags_eq_ok {t : Tag} (fits : m.size < Size.bound) (room : 4 ≤ b.offset)
    (large : 8 ≤ b.offset + t.size) (inside : b.offset ≤ m.size)
    (whole : b.offset + t.size ≤ m.size + 4) (short : b.offset + t.size < Size.bound) :
    b.writeTags t m =
      .ok () ((m.setWord (b.offset - 4) t.word).setWord (b.offset + t.size - 8) t.word) := by
  have h₁ := Memory.writeWord_eq_ok (i := b.offset - 4) (w := t.word) fits (by omega)
  have htag : b.tag (m.setWord (b.offset - 4) t.word) = .ok t := by
    rw [tag_eq_ok (by simpa using fits) room (by simpa using inside), Memory.word_setWord]
  have hfoot : b.footer (m.setWord (b.offset - 4) t.word) = .ok (b.offset + t.size - 8) := by
    simp only [footer, size_eq_ok htag, bind, Except.bind, Size.add_eq_ok short,
      Size.sub_eq_ok large]
  have h₂ := Memory.writeWord_eq_ok (m := m.setWord (b.offset - 4) t.word)
    (i := b.offset + t.size - 8) (w := t.word) (by simpa using fits)
    (by simp only [Memory.size_setWord]; omega)
  rw [writeTags, Step.bind_of_ok (Step.lift_of_ok (header_eq_ok room) m), Step.bind_of_ok h₁,
    Step.bind_of_ok (Step.inspect_of_ok hfoot), h₂]

end Inside

end Block

end TagHeap
