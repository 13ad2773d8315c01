import TagHeap.Size

/-!
# Settings

A heap can be told by how much it grows, which blocks it cuts from the far end of a free block, and
whether it audits itself after every change. The chunk by which it grows is always a legal block
size, because the chunk becomes a block.
-/

namespace TagHeap

/-- The choices that a heap leaves to its owner. -/
structure Settings where
  /-- The fewest bytes by which the heap grows when no free block is large enough. -/
  chunkSize : Nat := 4096
  /-- Blocks below this size are cut from the tail of a free block, others from its head. -/
  tailLimit : Nat := 96
  /-- Whether the heap is audited after every change. -/
  selfAudit : Bool := false
  chunk_aligned : chunkSize % 8 = 0 := by decide
  minBlock_le_chunk : Size.minBlock ≤ chunkSize := by decide
  chunk_le_maxBlock : chunkSize ≤ Size.maxBlock := by decide

namespace Settings

/-- The settings of a heap whose owner makes no choice. -/
def standard : Settings := {}

/-- Sets the chunk: the least legal block size that is not below `bytes`, or the largest one. -/
def withChunkSize (s : Settings) (bytes : Nat) : Settings where
  chunkSize := Size.ceil (max Size.minBlock (min bytes Size.maxBlock))
  tailLimit := s.tailLimit
  selfAudit := s.selfAudit
  chunk_aligned := Size.ceil_mod _
  minBlock_le_chunk := Nat.le_trans (Nat.le_max_left ..) (Size.le_ceil _)
  chunk_le_maxBlock := by
    simp only [Size.minBlock, Size.maxBlock, Size.ceil]
    omega

/-- Sets the size below which blocks are cut from the tail. -/
def withTailLimit (s : Settings) (bytes : Nat) : Settings := { s with tailLimit := bytes }

/-- Turns the audits on or off. -/
def withSelfAudit (s : Settings) (enabled : Bool) : Settings := { s with selfAudit := enabled }

instance : DecidableEq Settings := fun s t =>
  decidable_of_iff
    (s.chunkSize = t.chunkSize ∧ s.tailLimit = t.tailLimit ∧ s.selfAudit = t.selfAudit)
    ⟨fun h => by cases s; cases t; simp_all, fun h => h ▸ ⟨rfl, rfl, rfl⟩⟩

end Settings

end TagHeap
