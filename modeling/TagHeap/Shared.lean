import TagHeap.Heap.Resize

/-!
# Shared heaps

A shared heap sits behind one lock and speaks of addresses instead of offsets. Its region is a
mapping that starts at the address `base`, a multiple of the page size, so an offset that is a
multiple of eight becomes an address that is one. Stricter alignments are refused.

An operation that faults poisons the lock. From then on nothing is handed out or taken back, but the
owners of blocks can still read and write their bytes, which needs no lock.
-/

namespace TagHeap

/-- The number of size classes of a heap whose owner names none. -/
abbrev standardClasses : Nat := 20

/-- A heap behind a lock, at a place in the address space. -/
structure Shared where
  /-- Where the mapping starts once it is made. -/
  base : Nat
  poisoned : Bool
  heap : Heap standardClasses

namespace Shared

variable {α : Type}

/-- A shared heap of at most `reservation` bytes. -/
def new (base reservation : Nat) (system : System := {}) : Shared :=
  ⟨base, false, .new (.mapping reservation system) .standard⟩

/-- The address of a block's payload, none where the region has no such byte. -/
def addressOf? (s : Shared) (b : Block) : Option Nat := (s.heap.position? b).map (s.base + ·)

/-- The block at an address, none if the address is outside of the granted bytes. -/
def blockAt? (s : Shared) (address : Nat) : Option Block :=
  s.heap.blockAt? ((address : Int) - s.base)

/-- Runs an operation under the lock. A poisoned lock answers `refused`. -/
def underLock (s : Shared) (refused : α) (operation : Operation standardClasses α) :
    Outcome Shared α :=
  if s.poisoned then ⟨.ok refused, s, []⟩
  else
    let outcome := operation.on s.heap
    { result := outcome.result
      state := { s with heap := outcome.state, poisoned := !outcome.result.isOk }
      events := outcome.events }

/-- Runs an operation that yields a block, and gives the block's address. -/
def addressUnderLock (s : Shared) (align : Nat)
    (operation : Operation standardClasses (Option Block)) : Outcome Shared (Option Nat) :=
  if Size.granule < align then ⟨.ok none, s, []⟩
  else
    let outcome := s.underLock none operation
    { outcome with result := outcome.result.map (·.bind outcome.state.addressOf?) }

/-- Hands out the address of `size` bytes, none if there is no room for them. -/
def allocate (s : Shared) (size align : Nat) : Outcome Shared (Option Nat) :=
  s.addressUnderLock align (Heap.allocate size)

/-- Takes back the block at an address. Addresses outside of the heap mean nothing to it. -/
def deallocate (s : Shared) (address : Nat) : Outcome Shared Unit :=
  s.underLock () (Heap.free (s.blockAt? address))

/-- Gives the block at an address a new size, and returns its address, none if there is no room. -/
def reallocate (s : Shared) (address size align : Nat) : Outcome Shared (Option Nat) :=
  s.addressUnderLock align (Heap.reallocate (s.blockAt? address) size)

/-- Writes bytes at an address, as the owner of a block does. -/
def write (s : Shared) (address : Nat) (bytes : List UInt8) : Shared :=
  { s with heap.region.memory := s.heap.memory.store (address - s.base) bytes }

/-- The bytes at an address, as the owner of a block sees them. -/
def read (s : Shared) (address count : Nat) : List UInt8 :=
  s.heap.memory.extract (address - s.base) count

/-- Hands out the address of `size` bytes, all of them zero. -/
def allocateZeroed (s : Shared) (size align : Nat) : Outcome Shared (Option Nat) :=
  let outcome := s.allocate size align
  match outcome.result with
  | .ok (some address) =>
      { outcome with state := outcome.state.write address (.replicate size 0) }
  | _ => outcome

end Shared

end TagHeap
