import TagHeap.Size

/-!
# Tags

A tag is one 32 bit word that holds a block's size and whether the block is in use. Sizes are
multiples of eight, so the lowest bit of the word is free for the flag, and the next two are zero in
every tag that `Tag.make` returns. Every block starts with its tag and ends with a copy of it.
-/

namespace TagHeap

/-- A word that holds the size of a block and whether it is allocated. -/
structure Tag where
  word : UInt32
deriving DecidableEq, Repr

namespace Tag

/-- The size of the block, tags included. -/
def size (tag : Tag) : Nat := tag.word.toNat / 8 * 8

/-- Whether the block is in use. -/
def allocated (tag : Tag) : Bool := tag.word.toNat % 2 == 1

/-- The tag of the empty block that closes the heap. -/
def epilogue : Tag := ⟨1⟩

/-- A size and a flag in one word. -/
def pack (size : Nat) (allocated : Bool) : Tag := ⟨.ofNat (size + allocated.toNat)⟩

/-- The tag of a size, which must be a multiple of eight that fits the word. -/
def make (size : Nat) (allocated : Bool) : Except Fault Tag :=
  if size % Size.granule ≠ 0 then .error (.unalignedSize size)
  else if Size.maxBlock < size then .error (.oversized size)
  else .ok (pack size allocated)

theorem make_eq_ok {size : Nat} (aligned : size % 8 = 0) (fits : size ≤ Size.maxBlock)
    (allocated : Bool) : make size allocated = .ok (pack size allocated) := by
  simp [make, aligned, Nat.not_lt.2 fits]

theorem toNat_pack {size : Nat} (aligned : size % 8 = 0) (fits : size ≤ Size.maxBlock)
    (allocated : Bool) : (pack size allocated).word.toNat = size + allocated.toNat := by
  have := Bool.toNat_le allocated
  simp only [Size.maxBlock] at fits
  simp only [pack, UInt32.toNat_ofNat']
  omega

theorem size_pack {size : Nat} (aligned : size % 8 = 0) (fits : size ≤ Size.maxBlock)
    (allocated : Bool) : (pack size allocated).size = size := by
  have := Bool.toNat_le allocated
  rw [Tag.size, toNat_pack aligned fits]
  omega

theorem allocated_pack {size : Nat} (aligned : size % 8 = 0) (fits : size ≤ Size.maxBlock)
    (allocated : Bool) : (pack size allocated).allocated = allocated := by
  rw [Tag.allocated, toNat_pack aligned fits]
  cases allocated <;> simp <;> omega

@[simp] theorem size_epilogue : epilogue.size = 0 := rfl

@[simp] theorem size_sentinel : (pack 8 true).size = 8 := rfl

end Tag

end TagHeap
