import TagHeap.Event
import TagHeap.Index
import TagHeap.Settings

/-!
# Heaps

A heap is a region tiled by blocks, with an index of the free ones:

    pad | prologue | block | block | ... | block | epilogue

The prologue is an allocated block without payload and the epilogue an allocated header of size
zero, so every block in between has a neighbour on each side and merging never runs off an end.

An operation on a heap is a step that also keeps a journal of what it reports. This module holds the
state and the smallest operations; those that an owner asks for are in the modules below it.
-/

namespace TagHeap

/-- A region with blocks in it, indexed by `n` size classes. -/
structure Heap (n : Nat) where
  region : Region
  index : Index n
  settings : Settings
  /-- The first block, none before the heap is laid out. -/
  prologue : Option Block

/-- What an operation works on: the heap, and the events reported so far, the latest first. -/
structure Run (n : Nat) where
  heap : Heap n
  journal : List Event

/-- An operation on a heap. -/
abbrev Operation (n : Nat) (α : Type) : Type := Step (Run n) α

/-- How an operation ended: with a value or a fault, in a state, after some events. -/
structure Outcome (σ α : Type) where
  result : Except Fault α
  state : σ
  events : List Event

variable {n : Nat} {α : Type}

namespace Heap

/-- A heap that is not laid out yet. -/
def new (region : Region) (settings : Settings) : Heap n := ⟨region, .empty, settings, none⟩

/-- The bytes of the region. -/
def memory (h : Heap n) : Memory := h.region.memory

/-- Bytes that the region has granted. -/
def size (h : Heap n) : Nat := h.region.size

/-- The number of free blocks that the lists count. -/
def freeBlocks (h : Heap n) : Except Fault Nat := h.index.length

/-- Where the payload of a block starts and ends. -/
def payload (h : Heap n) (b : Block) : Except Fault (Nat × Nat) := do
  let stop ← Size.sub (← Size.add b.offset (← b.size h.memory)) Size.overhead
  if b.offset ≤ stop ∧ stop ≤ h.size then return (b.offset, stop) else throw .outOfBounds

/-- The bytes of a payload. -/
def payloadBytes (h : Heap n) (b : Block) : Except Fault (List UInt8) := do
  let (start, stop) ← h.payload b
  return h.memory.extract start (stop - start)

/-- The number of bytes in a payload. -/
def usableSize (h : Heap n) (b : Block) : Except Fault Nat := do
  Size.sub (← b.size h.memory) Size.overhead

/-- The block whose payload starts `delta` bytes after the first byte of the region. -/
def blockAt? (h : Heap n) (delta : Int) : Option Block :=
  if 0 ≤ delta ∧ delta < h.size then Block.ofOffset? delta.toNat else none

/-- How far after the first byte of the region the payload of a block starts. -/
def position? (h : Heap n) (b : Block) : Option Nat :=
  if b.offset < h.size then some b.offset else none

end Heap

namespace Operation

/-- Runs an operation on a heap. -/
def on (operation : Operation n α) (h : Heap n) : Outcome (Heap n) α :=
  match operation ⟨h, []⟩ with
  | .ok a run => ⟨.ok a, run.heap, run.journal.reverse⟩
  | .error e run => ⟨.error e, run.heap, run.journal.reverse⟩

/-- Reports an event. -/
def record (event : Event) : Operation n Unit :=
  modify fun run => { run with journal := event :: run.journal }

/-- Reports an event if there is reason to. -/
def recordIf (reason : Bool) (event : Event) : Operation n Unit :=
  if reason then record event else pure ()

/-- The heap as it is now. -/
def heap : Operation n (Heap n) := return (← get).heap

/-- Replaces the heap. -/
def modifyHeap (f : Heap n → Heap n) : Operation n Unit :=
  modify fun run => { run with heap := f run.heap }

/-- What `read` finds in the memory. -/
def inspect (read : Memory → Except Fault α) : Operation n α :=
  Step.inspect fun run => read run.heap.memory

/-- Runs a step on the memory. -/
def onMemory (x : Step Memory α) : Operation n α :=
  Step.zoom (·.heap.memory) (fun m run => { run with heap.region.memory := m }) x

/-- Runs a step on the region. -/
def onRegion (x : Step Region α) : Operation n α :=
  Step.zoom (·.heap.region) (fun r run => { run with heap.region := r }) x

/-- Changes the index along with the links in memory. -/
def onIndex (f : Index n → Step Memory (Index n)) : Operation n Unit := do
  let index ← onMemory (f (← heap).index)
  modifyHeap ({ · with index })

/-- Puts a free block on the list of its class. -/
def enlist [HasClass n] [LinkEncoding] (b : Block) : Operation n Unit := onIndex (·.insert b)

/-- Takes a free block off its list. -/
def delist [HasClass n] [LinkEncoding] (b : Block) : Operation n Unit := onIndex (·.remove b)

/-- Moves the end of the region up and returns where it was. -/
def grow (increment : Nat) : Operation n (Except GrowthError Nat) := do
  let mapped := (← heap).region.mapped
  let answer ← onRegion (Region.grow increment)
  let region := (← heap).region
  recordIf (!mapped && region.mapped) (.reserved region.limit)
  return answer

/-- Marks the place behind a block as the end of the heap. -/
def writeEpilogue (b : Block) : Operation n Unit := do
  let epilogue ← inspect b.next
  onMemory (Memory.writeWord (← epilogue.header) Tag.epilogue.word)

end Operation

namespace Heap

/-- Writes bytes at a place of a payload, which must have room for them. -/
def writePayload (b : Block) (position : Nat) (bytes : List UInt8) : Operation n Unit := do
  let (start, stop) ← (← Operation.heap).payload b
  if (← Size.add position bytes.length) ≤ stop - start then
    Operation.onMemory (modify (·.store (start + position) bytes))
  else throw .outOfBounds

/-- The bytes of a range of a payload, which must hold the range. -/
def readPayload (h : Heap n) (b : Block) (position count : Nat) : Except Fault (List UInt8) := do
  let (start, stop) ← h.payload b
  if (← Size.add position count) ≤ stop - start then
    return h.memory.extract (start + position) count
  else throw .outOfBounds

end Heap

end TagHeap
