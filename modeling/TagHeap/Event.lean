import TagHeap.Region

/-!
# Events

What a heap reports while it works. Warnings mark requests that failed, debug events mark changes
of the region and costly moves, and traces follow every block.
-/

namespace TagHeap

/-- The reason why a heap could not be laid out. -/
structure OutOfMemory where
  cause : GrowthError
deriving DecidableEq, Repr

/-- The reason in words. -/
def OutOfMemory.message (e : OutOfMemory) : String := s!"out of memory: {e.cause.message}"

/-- How much an event matters. -/
inductive Level where
  | trace
  | debug
  | warn
deriving DecidableEq, Repr

/-- The name of a level. -/
def Level.name : Level → String
  | trace => "TRACE"
  | debug => "DEBUG"
  | warn => "WARN"

/-- The things that a heap reports. Blocks are given by their offsets. -/
inductive Event where
  /-- Address space was mapped. -/
  | reserved (length : Nat)
  /-- A heap was laid out at `start`. -/
  | laidOut (start regionSize : Nat)
  /-- No heap could be laid out. -/
  | notLaidOut (error : OutOfMemory)
  /-- The heap grew by one free block. -/
  | extended (size regionSize : Nat)
  /-- A request is larger than any block. -/
  | allocationTooLarge (requested : Nat)
  /-- A request found no room. -/
  | allocationFailed (requested : Nat) (error : GrowthError)
  /-- A block was handed out. -/
  | allocated (size block requested : Nat)
  /-- A block was cut from the tail of a free one. -/
  | placedAtTail (size block : Nat)
  /-- A block was cut from the head of a free one. -/
  | placedAtHead (size block : Nat)
  /-- A free block was merged with its neighbours. -/
  | coalesced (block size merged : Nat)
  /-- A block was given back. -/
  | freed (size block : Nat)
  /-- A new size is larger than any block. -/
  | resizeTooLarge (requested : Nat)
  /-- A block gave up what it does not need. -/
  | shrunk (block size : Nat)
  /-- A block took over its next neighbour. -/
  | grewIntoNext (block : Nat)
  /-- The last block grew with the heap. -/
  | grewAtEnd (block : Nat)
  /-- The last block did not grow with the heap. -/
  | stuckAtEnd (block : Nat) (error : GrowthError)
  /-- A block took over its previous neighbour. -/
  | grewIntoPrevious (block : Nat)
  /-- A block took over both neighbours. -/
  | grewIntoBoth (block : Nat)
  /-- The contents of a block moved to a new one. -/
  | moved (count source target : Nat)
deriving DecidableEq, Repr

namespace Event

/-- How much the event matters. -/
def level : Event → Level
  | notLaidOut _ | allocationTooLarge _ | allocationFailed .. | resizeTooLarge _ => .warn
  | reserved _ | laidOut .. | extended .. | stuckAtEnd .. | moved .. => .debug
  | _ => .trace

/-- The event in words. -/
def text : Event → String
  | reserved length => s!"reserved {length} bytes of address space"
  | laidOut start regionSize =>
      s!"heap initialized at offset {start}, region size {regionSize}"
  | notLaidOut error => s!"heap initialization failed: {error.message}"
  | extended size regionSize => s!"heap extended by {size} bytes, region size {regionSize}"
  | allocationTooLarge requested =>
      s!"allocation of {requested} bytes exceeds the maximum block size"
  | allocationFailed requested error => s!"allocation of {requested} bytes failed: {error.message}"
  | allocated size block requested =>
      s!"allocated {size} byte block at {block} for {requested} bytes"
  | placedAtTail size block => s!"placed {size} bytes at the tail of free block {block}"
  | placedAtHead size block => s!"placed {size} bytes at the head of free block {block}"
  | coalesced block size merged => s!"coalesced block at {block} into {size} bytes at {merged}"
  | freed size block => s!"freed {size} byte block at {block}"
  | resizeTooLarge requested => s!"reallocation to {requested} bytes exceeds the maximum block size"
  | shrunk block size => s!"shrunk block at {block} to {size} bytes"
  | grewIntoNext block => s!"grew block at {block} into its next block"
  | grewAtEnd block => s!"grew block at {block} by extending the heap"
  | stuckAtEnd block error =>
      s!"can't grow block at {block} at the end of the heap: {error.message}"
  | grewIntoPrevious block => s!"grew block at {block} into its previous block"
  | grewIntoBoth block => s!"grew block at {block} into both neighbours"
  | moved count source target => s!"moved {count} bytes from {source} to {target}"

/-- The event with its level. -/
def line (e : Event) : String := s!"{e.level.name} {e.text}"

end Event

end TagHeap
