import TagHeap.Heap.Allocate

/-!
# Resizing

`Heap.reallocate` gives a block a new size and keeps what its payload holds, as far as it fits.

A block shrinks where it is. A block that has to grow tries to stay near, in this order: over its
free next neighbour, past the end of the heap if it is the last block, over its free previous
neighbour, over both. Only when all of that fails it moves to a new block, and when that fails too
the block is left as it was.
-/

namespace TagHeap

variable {n : Nat} [HasClass n]

/-- A block that has to grow. -/
structure Growth where
  block : Block
  oldSize : Nat
  newSize : Nat
  /-- The payload bytes that the owner asked for. -/
  requested : Nat

/-- The payload bytes that have to survive. -/
def Growth.kept (g : Growth) : Except Fault Nat := do
  return min (← Size.sub g.oldSize Size.overhead) g.requested

namespace Heap

open Operation

/-- Copies the payload bytes that have to survive to another block. -/
def copyPayload (g : Growth) (target : Block) : Operation n Unit := do
  onMemory (Memory.move g.block.offset (← g.kept) target.offset)

/-- Takes over the next block if it is free and large enough. -/
def takeNext [LinkEncoding] (g : Growth) : Operation n (Option Block) := do
  let next ← inspect g.block.next
  if ← inspect next.allocated then return none
  let total ← Size.add g.oldSize (← inspect next.size)
  if total < g.newSize then return none
  delist next
  occupy g.block total g.newSize
  record (.grewIntoNext g.block.offset)
  return some g.block

/-- Grows the region by exactly what the last block needs. -/
def stretchAtEnd (g : Growth) : Operation n (Option Block) := do
  let next ← inspect g.block.next
  if (← inspect next.tag) ≠ .epilogue then return none
  match ← grow (← Size.sub g.newSize g.oldSize) with
  | .error e =>
    record (.stuckAtEnd g.block.offset e)
    return none
  | .ok _ =>
    -- The old epilogue becomes part of the block.
    onMemory (g.block.writeTags (← Tag.make g.newSize true))
    writeEpilogue g.block
    record (.grewAtEnd g.block.offset)
    return some g.block

/-- Takes over the previous block if it is free and large enough. The payload moves down, and its
old and new place may overlap. -/
def takePrevious [LinkEncoding] (g : Growth) : Operation n (Option Block) := do
  let previous ← inspect g.block.previous
  if ← inspect previous.allocated then return none
  let total ← Size.add (← inspect previous.size) g.oldSize
  if total < g.newSize then return none
  delist previous
  -- The payload moves before any tag is written, which could fall on it.
  copyPayload g previous
  occupy previous total g.newSize
  record (.grewIntoPrevious g.block.offset)
  return some previous

/-- Takes over both neighbours if they are free and large enough together. -/
def takeBoth [LinkEncoding] (g : Growth) : Operation n (Option Block) := do
  let previous ← inspect g.block.previous
  let next ← inspect g.block.next
  if ← inspect previous.allocated then return none
  if ← inspect next.allocated then return none
  let total ← Size.add (← Size.add (← inspect previous.size) g.oldSize) (← inspect next.size)
  if total < g.newSize then return none
  delist previous
  delist next
  copyPayload g previous
  occupy previous total g.newSize
  record (.grewIntoBoth g.block.offset)
  return some previous

/-- Moves the contents to a new block and gives the old one back. -/
def moveAway [LinkEncoding] (g : Growth) : Operation n (Option Block) := do
  let some target ← allocate g.requested | return none
  copyPayload g target
  free (some g.block)
  record (.moved (← g.kept) g.block.offset target.offset)
  return some target

/-- Runs operations until one returns a block. -/
def firstBlock : List (Operation n (Option Block)) → Operation n (Option Block)
  | [] => return none
  | attempt :: rest => do
      match ← attempt with
      | some b => return some b
      | none => firstBlock rest

/-- Gives a block of `g.oldSize` bytes the size `g.newSize`. -/
def resize [LinkEncoding] (g : Growth) : Operation n (Option Block) :=
  if g.newSize ≤ g.oldSize then do
    occupy g.block g.oldSize g.newSize
    record (.shrunk g.block.offset g.newSize)
    return some g.block
  else
    firstBlock [takeNext g, stretchAtEnd g, takePrevious g, takeBoth g, moveAway g]

/-- Gives a block a payload of at least `size` bytes and returns where it is then. Without a block
this allocates one, and with `size` zero it gives the block back. If there is no room the result is
none and the block stays as it is. -/
def reallocate [LinkEncoding] (b? : Option Block) (size : Nat) : Operation n (Option Block) := do
  let some b := b? | allocate size
  if size = 0 then
    free (some b)
    return none
  let some newSize := Size.ofRequest? size
    | record (.resizeTooLarge size)
      return none
  let oldSize ← inspect b.size
  let result ← resize { block := b, oldSize, newSize, requested := size }
  selfAudit
  return result

end Heap

end TagHeap
