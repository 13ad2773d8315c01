import TagHeap.Heap

/-!
# The audit of a heap

`Heap.audit` checks that a heap has the shape that its operations rely on, and counts its blocks.
It first follows every free list, then walks the blocks from the prologue to the epilogue, and last
compares the numbers:

* the two sentinels are intact, and the epilogue is the last word of the region;
* every block is aligned, lies inside the region and has two equal tags;
* no two free blocks touch;
* every free block is on the list of its class once, and nothing else is on any list;
* the lists are sorted, and their links agree in both directions.

The first violation found is the fault `Fault.inconsistent`. The audit reads and never writes, and
it is made for damaged heaps: it looks before it reads.
-/

namespace TagHeap

/-- The counts of a consistent heap. The sentinels are left out. -/
structure Summary where
  blocks : Nat := 0
  allocatedBlocks : Nat := 0
  freeBlocks : Nat := 0
  allocatedBytes : Nat := 0
  freeBytes : Nat := 0
  largestFree : Nat := 0
deriving DecidableEq, Repr

/-- Bytes that the blocks cover. -/
def Summary.totalBytes (s : Summary) : Except Fault Nat := Size.add s.allocatedBytes s.freeBytes

namespace Audit

variable {n : Nat}

/-- Ends the audit with a violation. -/
def fail {α : Type} (violation : Violation) : Except Fault α := .error (.inconsistent violation)

/-- Ends the audit with a violation unless the heap is as it should be. -/
def require (proper : Bool) (violation : Violation) : Except Fault Unit :=
  if proper then .ok () else fail violation

/-- The word at a place, or a violation where there is none. -/
def wordOr (m : Memory) (place : Nat) (violation : Violation) : Except Fault UInt32 :=
  match m.word? place with
  | some w => .ok w
  | none => fail violation

/-- Checks the tags of the block whose payload is at `offset` and returns them. -/
def block (m : Memory) (offset : Nat) : Except Fault Tag := do
  require (offset % 8 = 0) (.misaligned offset)
  require (4 ≤ offset) (.outside offset)
  let header ← wordOr m (offset - 4) (.outside offset)
  let tag : Tag := ⟨header⟩
  require (Size.minBlock ≤ tag.size) (.badSize offset tag.size)
  -- The block has to end in front of the word of the epilogue.
  let place ← Size.sub (← Size.add offset tag.size) 8
  require ((← Size.add place 8) ≤ m.size) (.outside offset)
  let footer ← wordOr m place (.outside offset)
  require (footer = header) (.tagMismatch offset header footer)
  return tag

/-- The free blocks met on lists, each with the class it was met in. -/
abbrev Listed (n : Nat) : Type := List (Block × Fin n)

/-- Checks the chain from `node`, after `last`, as the list of a class. -/
def chain [HasClass n] (m : Memory) (sizeClass : Fin n) :
    (count : Nat) → Listed n → (last node : Option Block) → Except Fault (Listed n)
  | _, listed, _, none => .ok listed
  | 0, _, _, some _ => .error .endless
  | count + 1, listed, last, some node => do
      let tag ← block m node.offset
      require (!tag.allocated) (.allocatedListed node.offset sizeClass)
      let expected := Index.classOf n tag.size
      require (expected = sizeClass) (.wrongClass node.offset tag.size sizeClass expected)
      require ((← node.before m) = last) (.brokenLink sizeClass node.offset)
      require (last.all (·.offset < node.offset)) (.unsorted sizeClass node.offset)
      -- A sorted list cannot run in a circle, but a node could be on two lists.
      require (listed.lookup node).isNone (.brokenLink sizeClass node.offset)
      chain m sizeClass count ((node, sizeClass) :: listed) (some node) (← node.after m)

/-- Checks all lists, the smallest class first. -/
def lists [HasClass n] (m : Memory) (index : Index n) : Except Fault (Listed n) :=
  List.foldlM
    (fun listed sizeClass =>
      chain m sizeClass (FreeList.patience m) listed none (index.list sizeClass).head)
    [] (List.finRange n)

/-- Counts an allocated block. -/
def addAllocated (s : Summary) (size : Nat) : Except Fault Summary := do
  return { s with
    blocks := ← Size.add s.blocks 1
    allocatedBlocks := ← Size.add s.allocatedBlocks 1
    allocatedBytes := ← Size.add s.allocatedBytes size }

/-- Counts a free block. -/
def addFree (s : Summary) (size : Nat) : Except Fault Summary := do
  return { s with
    blocks := ← Size.add s.blocks 1
    freeBlocks := ← Size.add s.freeBlocks 1
    freeBytes := ← Size.add s.freeBytes size
    largestFree := max s.largestFree size }

/-- Checks that a free block does not touch the free block `last` and is on the list of its
class. -/
def freeBlock [HasClass n] (listed : Listed n) (last : Option Block) (b : Block) (size : Nat) :
    Except Fault Unit := do
  last.forM fun last => fail (.uncoalesced last.offset b.offset)
  let expected := Index.classOf n size
  match listed.lookup b with
  | none => fail (.unlisted b.offset)
  | some found => require (found = expected) (.wrongClass b.offset size found expected)

/-- Walks the blocks from `b` on; `last` is the block before it if that one is free. -/
def blocks [HasClass n] (region : Region) (listed : Listed n) :
    (count : Nat) → Summary → (last : Option Block) → Block → Except Fault Summary
  | 0, _, _, _ => .error .endless
  | count + 1, summary, last, b => do
      let m := region.memory
      let place ← b.header
      let header ← wordOr m place (.outside b.offset)
      if (Tag.mk header).size = 0 then
        let final ← Size.sub (← Size.add place 4) 1
        require (header = Tag.epilogue.word ∧ region.highest? = some final) (.badEpilogue place)
        return summary
      let tag ← block m b.offset
      let next ← Block.ofOffset (← Size.add b.offset tag.size)
      if tag.allocated then
        blocks region listed count (← addAllocated summary tag.size) none next
      else
        freeBlock listed last b tag.size
        blocks region listed count (← addFree summary tag.size) (some b) next

/-- Whether the two tags of the prologue are intact. -/
def prologueIntact (region : Region) (prologue : Block) : Bool :=
  let sentinel := (Tag.pack 8 true).word
  region.lowest + 8 ≤ prologue.offset
    && region.memory.word? (prologue.offset - 4) == some sentinel
    && region.memory.word? prologue.offset == some sentinel

end Audit

/-- Checks a heap and counts its blocks. A heap that was never laid out is empty and consistent. -/
def Heap.audit {n : Nat} [HasClass n] (h : Heap n) : Except Fault Summary := do
  let some prologue := h.prologue | return {}
  let listed ← Audit.lists h.memory h.index
  Audit.require (Audit.prologueIntact h.region prologue) (.badPrologue prologue.offset)
  let first ← Block.ofOffset (← Size.add prologue.offset 8)
  let summary ← Audit.blocks h.region listed (FreeList.patience h.memory) {} none first
  let counted ← h.index.length
  Audit.require (listed.length = summary.freeBlocks ∧ counted = summary.freeBlocks)
    (.countMismatch (max listed.length counted) summary.freeBlocks)
  return summary

/-- Audits the heap if its owner wants that after every change. -/
def Operation.selfAudit {n : Nat} [HasClass n] : Operation n Unit := do
  let h ← Operation.heap
  if h.settings.selfAudit then
    let _ ← h.audit

end TagHeap
