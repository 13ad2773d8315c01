import TagHeap.Heap.Audit

/-!
# Allocation

How blocks are handed out and taken back.

* `Heap.allocate` takes the best fitting free block, or grows the heap by a chunk if there is none.
* `Heap.carve` cuts the block out of the free one: small blocks from the tail, so that the head
  stays free and keeps its place, large blocks from the head.
* `Heap.free` gives a block back, and `Heap.coalesce` merges it with its free neighbours at once, so
  two free blocks never touch.
* `Heap.layOut` lays out a heap with the sentinels and one free chunk, at the end of whatever the
  region already holds.

The list of a free block follows from its size, so a block is always taken off its list before its
tags change and put on one after.
-/

namespace TagHeap

variable {n : Nat} [HasClass n]

namespace Heap

open Operation

/-- Takes the free neighbours of a block off their lists. Returns the first of the blocks that are
to be one now, and the size of them all. -/
def absorbNeighbours [LinkEncoding] (b : Block) : Operation n (Block × Nat) := do
  let previous ← inspect b.previous
  let next ← inspect b.next
  let own ← inspect b.size
  let previousUsed ← inspect previous.allocated
  let nextUsed ← inspect next.allocated
  match previousUsed, nextUsed with
  | true, true => return (b, own)
  | true, false =>
    delist next
    return (b, ← Size.add own (← inspect next.size))
  | false, true =>
    delist previous
    return (previous, ← Size.add own (← inspect previous.size))
  | false, false =>
    delist previous
    delist next
    let gained ← Size.add (← inspect previous.size) (← inspect next.size)
    return (previous, ← Size.add own gained)

/-- Merges a free block that is on no list with its free neighbours, and puts the result on its
list. The result starts where the first of them did. -/
def coalesce [LinkEncoding] (b : Block) : Operation n Block := do
  let (merged, size) ← absorbNeighbours b
  let own ← inspect b.size
  -- A block that took in only its next neighbour keeps its place and grows.
  recordIf (merged ≠ b ∨ size ≠ own) (.coalesced b.offset size merged.offset)
  onMemory (merged.writeTags (← Tag.make size false))
  enlist merged
  return merged

/-- Grows the region by `bytes`, rounded up, and makes a free block of the new bytes, merged with
the last block if that one is free. Its header takes the place of the old epilogue. -/
def addRoom [LinkEncoding] (bytes : Nat) : Operation n (Except GrowthError Block) := do
  let size ← Size.roundUp bytes
  match ← grow size with
  | .error e => return .error e
  | .ok start =>
    -- An empty region has no epilogue to take over, and offset zero is no block.
    let b ← Block.ofOffset start
    onMemory (b.writeTags (← Tag.make size false))
    writeEpilogue b
    record (.extended size (← heap).size)
    return .ok (← coalesce b)

/-- Lays out the pad, the prologue and the epilogue at the end of the region, and one free chunk
between the last two. What the heap held before is given up. -/
def layOut [LinkEncoding] : Operation n (Except OutOfMemory Unit) := do
  modifyHeap ({ · with index := .empty, prologue := none })
  match ← grow 16 with
  | .error e => return .error ⟨e⟩
  | .ok start =>
    -- The pad puts every payload on a multiple of eight.
    onMemory (Memory.writeWord start 0)
    let prologue ← Block.ofOffset (← Size.add start 8)
    onMemory (prologue.writeTags (← Tag.make 8 true))
    writeEpilogue prologue
    modifyHeap ({ · with prologue := some prologue })
    match ← addRoom (← heap).settings.chunkSize with
    | .error e => return .error ⟨e⟩
    | .ok _ =>
      record (.laidOut start (← heap).size)
      selfAudit
      return .ok ()

/-- Lays out the heap if nobody has yet, and says whether it is there. -/
def ensureLaidOut [LinkEncoding] : Operation n Bool := do
  if (← heap).prologue.isSome then return true
  match ← layOut with
  | .ok () => return true
  | .error e =>
    record (.notLaidOut e)
    return false

/-- Marks the first `size` of the `total` bytes from `b` on as allocated. The rest becomes a free
block if it is large enough for one, else it stays in the block as padding. -/
def occupy [LinkEncoding] (b : Block) (total size : Nat) : Operation n Unit := do
  if (← Size.sub total size) < Size.minBlock then
    onMemory (b.writeTags (← Tag.make total true))
  else
    onMemory (b.writeTags (← Tag.make size true))
    let rest ← inspect b.next
    onMemory (rest.writeTags (← Tag.make (← Size.sub total size) false))
    discard <| coalesce rest

/-- Cuts an allocated block of `size` bytes out of the free block `b`. -/
def carve [LinkEncoding] (b : Block) (size : Nat) : Operation n Block := do
  let total ← inspect b.size
  -- The list to leave follows from the size that the header still holds.
  delist b
  let rest ← Size.sub total size
  if Size.minBlock ≤ rest ∧ size < (← heap).settings.tailLimit then
    onMemory (b.writeTags (← Tag.make rest false))
    enlist b
    let allocated ← inspect b.next
    onMemory (allocated.writeTags (← Tag.make size true))
    record (.placedAtTail size b.offset)
    return allocated
  else
    record (.placedAtHead size b.offset)
    occupy b total size
    return b

/-- A free block of at least `size` bytes: the best fit, or else one made by growing the heap. -/
def room [LinkEncoding] (size : Nat) : Operation n (Except GrowthError Block) := do
  let h ← heap
  match ← h.index.bestFit h.memory size with
  | some b => return .ok b
  | none => addRoom (max size h.settings.chunkSize)

/-- Hands out a block whose payload holds `size` bytes, none if `size` is zero or there is no
room. -/
def allocate [LinkEncoding] (size : Nat) : Operation n (Option Block) := do
  if size = 0 then return none
  if !(← ensureLaidOut) then return none
  let some blockSize := Size.ofRequest? size
    | record (.allocationTooLarge size)
      return none
  match ← room blockSize with
  | .error e =>
    record (.allocationFailed size e)
    return none
  | .ok b =>
    let b ← carve b blockSize
    record (.allocated blockSize b.offset size)
    selfAudit
    return some b

/-- Takes a block back. Without a block, or before the heap is laid out, nothing happens. -/
def free [LinkEncoding] (b? : Option Block) : Operation n Unit := do
  let some b := b? | return
  if (← heap).prologue.isNone then return
  let size ← inspect b.size
  onMemory (b.writeTags (← Tag.make size false))
  discard <| coalesce b
  record (.freed size b.offset)
  selfAudit

end Heap

end TagHeap
