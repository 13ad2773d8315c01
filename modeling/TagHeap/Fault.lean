import TagHeap.Violation

/-!
# Faults

Heap code trusts the tags and links that it finds in memory. Where they are damaged, or where a
caller asks for the impossible, it stops with a `Fault` rather than go on with a wrong number: sizes
never wrap around, memory is never read or written outside of its bounds, and a tag is never made
of a size that it cannot hold.
-/

namespace TagHeap

/-- The reasons to stop. -/
inductive Fault where
  /-- A sum or a difference left the 64 bit range. -/
  | overflow
  /-- A place outside of the memory, or a range that ends before it starts. -/
  | outOfBounds
  /-- A block was expected at offset zero, where none can be. -/
  | noBlock
  /-- A tag was asked for a size that is not a multiple of eight. -/
  | unalignedSize (size : Nat)
  /-- A tag was asked for a size that does not fit its word. -/
  | oversized (size : Nat)
  /-- A chain of links returned to a node that it had left. -/
  | endless
  /-- The heap failed its audit. -/
  | inconsistent (violation : Violation)
deriving DecidableEq, Repr

/-- The fault in words. -/
def Fault.message : Fault → String
  | overflow => "size arithmetic left the 64 bit range"
  | outOfBounds => "access outside of the memory"
  | noBlock => "offset 0 is the alignment pad, not a payload"
  | unalignedSize size => s!"block size {size} is not aligned"
  | oversized size => s!"block size {size} does not fit a tag"
  | endless => "the links of a free list run in a circle"
  | inconsistent violation => s!"heap consistency check failed: {violation.message}"

end TagHeap
