import TagHeap.Heap

/-!
# Layouts

The layout of a heap is the list of its blocks in the order in which they lie, read off the headers
from the prologue on. It shows what the operations do to a heap without the bytes that they do it
with.
-/

namespace TagHeap

/-- A block with its size and its use. -/
structure Extent where
  offset : Nat
  size : Nat
  allocated : Bool
deriving DecidableEq, Repr

namespace Layout

/-- The blocks from `b` up to the first one of size zero. Each of them takes bytes of the memory, so
there are no more than it has. -/
def follow (m : Memory) : (count : Nat) → Block → Except Fault (List Extent)
  | 0, _ => .error .endless
  | count + 1, b => do
      let tag ← b.tag m
      if tag.size = 0 then return []
      return ⟨b.offset, tag.size, tag.allocated⟩ :: (← follow m count (← b.next m))

end Layout

namespace Heap

variable {n : Nat}

/-- The blocks between the sentinels, none in a heap that is not laid out. -/
def layout (h : Heap n) : Except Fault (List Extent) := do
  let some prologue := h.prologue | return []
  Layout.follow h.memory (FreeList.patience h.memory) (← prologue.next h.memory)

/-- The lists that are in use, each with its class, its length and its first nodes, at most `count`
of them. -/
def listing (h : Heap n) (count : Nat) : Except Fault (List (Nat × Nat × List Block)) :=
  h.index.listing h.memory count

end Heap

end TagHeap
