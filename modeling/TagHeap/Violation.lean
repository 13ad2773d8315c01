/-!
# Violations of the heap's shape

A consistent heap is tiled by blocks between two sentinels, its free blocks are threaded on sorted
lists by size class, and no two free blocks touch. `Violation` names every way in which a heap can
break that shape, with the place where it does, and `Violation.message` words it.

Offsets are payload offsets from the start of the region unless a field says otherwise.
-/

namespace TagHeap

/-- The ways in which a heap can break its shape. -/
inductive Violation where
  /-- The sentinel in front of the first block is damaged. -/
  | badPrologue (offset : Nat)
  /-- The closing sentinel is damaged or is not the last word; `offset` is its header's. -/
  | badEpilogue (offset : Nat)
  /-- A block reaches past the end of the heap. -/
  | outside (offset : Nat)
  /-- A block does not start at a multiple of eight. -/
  | misaligned (offset : Nat)
  /-- A block is smaller than the smallest legal one. -/
  | badSize (offset size : Nat)
  /-- The two tags of a block differ. -/
  | tagMismatch (offset : Nat) (header footer : UInt32)
  /-- Two neighbouring blocks are both free. -/
  | uncoalesced (offset next : Nat)
  /-- A free block is on no list. -/
  | unlisted (offset : Nat)
  /-- An allocated block is on a list. -/
  | allocatedListed (offset sizeClass : Nat)
  /-- A free block is on the list of another class than its size asks for. -/
  | wrongClass (offset size found expected : Nat)
  /-- A node's back link does not name the node before it, or a node is met twice. -/
  | brokenLink (sizeClass offset : Nat)
  /-- A node does not lie above the node before it. -/
  | unsorted (sizeClass offset : Nat)
  /-- The lists and the heap disagree about the number of free blocks. -/
  | countMismatch (listed found : Nat)
deriving DecidableEq, Repr

namespace Violation

/-- A tag word in hexadecimal, with the marker that says so. -/
def hex (word : UInt32) : String :=
  "0x" ++ String.ofList (Nat.toDigits 16 word.toNat)

/-- The violation in words. -/
def message : Violation → String
  | badPrologue offset => s!"prologue block at {offset} is corrupted"
  | badEpilogue offset =>
      s!"epilogue header at {offset} is corrupted or not at the end of the heap"
  | outside offset => s!"block at {offset} extends outside of the heap"
  | misaligned offset => s!"block at {offset} is not aligned to a double word"
  | badSize offset size => s!"block at {offset} has invalid size {size}"
  | tagMismatch offset header footer =>
      s!"block at {offset} has header {hex header} but footer {hex footer}"
  | uncoalesced offset next => s!"free blocks at {offset} and {next} were not coalesced"
  | unlisted offset => s!"free block at {offset} is not in any free list"
  | allocatedListed offset sizeClass =>
      s!"allocated block at {offset} is in free list {sizeClass}"
  | wrongClass offset size found expected =>
      s!"block at {offset} of size {size} is in free list {found}, expected {expected}"
  | brokenLink sizeClass offset => s!"free list {sizeClass} has a broken link at {offset}"
  | unsorted sizeClass offset =>
      s!"free list {sizeClass} is not sorted by address at {offset}"
  | countMismatch listed found =>
      s!"free lists hold {listed} blocks but the heap has {found} free blocks"

end Violation

end TagHeap
