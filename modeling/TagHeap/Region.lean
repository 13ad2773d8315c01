import TagHeap.Memory

/-!
# Regions

A region is the memory under a heap. It starts empty and grows at its end, up to a limit, and never
shrinks. New bytes are zero.

There are two kinds. A buffer owns its bytes from the start. A mapping asks for its address space
when it first grows; only then is its limit rounded to whole pages, and only then can the request
fail. It fails when there is nothing to ask for, and otherwise when the system refuses it; a mapping
carries the system that it asks, so pages of every size and every pattern of refusals can be looked
at.

Links are 32 bit offsets, so no region is larger than such an offset can reach.
-/

namespace TagHeap

/-- The reasons why a region does not grow. -/
inductive GrowthError where
  /-- The limit is closer than the bytes that were asked for. -/
  | exhausted (requested remaining : Nat)
  /-- The address space was refused. -/
  | mapFailed (length : Nat) (errno : Int)
deriving DecidableEq, Repr

/-- The error in words. -/
def GrowthError.message : GrowthError → String
  | exhausted requested remaining =>
      s!"heap region exhausted: requested {requested} bytes but only {remaining} remain"
  | mapFailed length errno =>
      s!"failed to reserve {length} bytes of address space (os error {errno})"

/-- No region is larger. -/
abbrev Region.maxSize : Nat := 4294967295

/-- A system that hands out address space. -/
structure System where
  /-- Address space comes in units of this size. -/
  pageSize : Nat := 4096
  /-- The error numbers with which the system answers the next requests, before it grants one. -/
  refusals : List Int := []
  pageSize_pos : 0 < pageSize := by decide
  pageSize_le : pageSize ≤ Region.maxSize := by decide
deriving DecidableEq, Repr

/-- Where the bytes of a region come from. -/
inductive Backing where
  /-- Bytes that are there from the start. -/
  | buffer
  /-- Address space that is mapped when it is first needed. -/
  | mapping (mapped : Bool) (system : System)
deriving DecidableEq, Repr

/-- Memory that grows up to a limit. -/
structure Region where
  memory : Memory
  limit : Nat
  backing : Backing

namespace Region

/-- The error number for an empty mapping. -/
def invalidArgument : Int := 22

/-- A buffer of `capacity` bytes, or of as many as a region can have. -/
def buffer (capacity : Nat) : Region := ⟨.zeroed 0, min capacity maxSize, .buffer⟩

/-- A mapping of `reservation` bytes, or of as many as a region can have. -/
def mapping (reservation : Nat) (system : System := {}) : Region :=
  ⟨.zeroed 0, min reservation maxSize, .mapping false system⟩

/-- The size of a buffer whose owner names none. -/
def standardBuffer : Nat := 20 * 1024 * 1024

/-- The size of a mapping whose owner names none. -/
def standardMapping : Nat := 256 * 1024 * 1024

/-- Bytes granted so far. -/
def size (r : Region) : Nat := r.memory.size

/-- The offset of the first byte. -/
def lowest (_ : Region) : Nat := 0

/-- The offset of the last byte. -/
def highest? (r : Region) : Option Nat := if 0 < r.size then some (r.size - 1) else none

/-- Whether the region holds a mapping from the system. -/
def mapped (r : Region) : Bool :=
  match r.backing with
  | .mapping mapped _ => mapped
  | .buffer => false

/-- The limit in whole pages, rounded up as long as that leaves it a legal size. -/
def wholePages (pageSize limit : Nat) : Nat :=
  (min limit (maxSize - pageSize) + pageSize - 1) / pageSize * pageSize

/-- Maps the address space if that has not happened yet. -/
def reserve : Step Region (Except GrowthError Unit) := do
  let r ← get
  match r.backing with
  | .buffer | .mapping true _ => return .ok ()
  | .mapping false system =>
    let length := wholePages system.pageSize r.limit
    if length = 0 then return .error (.mapFailed length invalidArgument)
    match system.refusals with
    | errno :: later =>
      set { r with backing := .mapping false { system with refusals := later } }
      return .error (.mapFailed length errno)
    | [] =>
      set { r with limit := length, backing := .mapping true system }
      return .ok ()

/-- Moves the end of the region up and returns where it was. -/
def grow (increment : Nat) : Step Region (Except GrowthError Nat) := do
  match ← reserve with
  | .error e => return .error e
  | .ok () =>
    let r ← get
    let remaining ← Size.sub r.limit r.size
    if remaining < increment then
      return .error (.exhausted increment remaining)
    set { r with memory := r.memory.grow increment }
    return .ok r.size

end Region

end TagHeap
