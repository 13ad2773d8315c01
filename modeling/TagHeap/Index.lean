import TagHeap.FreeList

/-!
# The index of free blocks

Free blocks are sorted into `n` classes by size. Class `0` holds sizes up to `16`, every further
class doubles the limit of the one before it, and the last class takes all that is left. Each class
has a `FreeList` of its own.

Larger classes hold larger blocks only, so the first class that has a block large enough also has
the best one: `Index.bestFit` looks no further.
-/

namespace TagHeap

/-- There is a class for every size, that is, `n` is not zero. -/
abbrev HasClass (n : Nat) : Prop := @NeZero Nat Zero.ofOfNat0 n

/-- One free list for each of `n` classes. -/
structure Index (n : Nat) where
  lists : Vector FreeList n

namespace Index

variable {n : Nat}

/-- The index of a heap without free blocks. -/
def empty : Index n := ⟨.replicate n .empty⟩

/-- How many of the next `classes` limits, of which `limit` is the first, lie below `size`. A limit
that would leave the range of sizes stays at its end. -/
def limitsBelow (size : Nat) : (classes limit : Nat) → Nat
  | 0, _ => 0
  | classes + 1, limit =>
      if size ≤ limit then 0
      else limitsBelow size classes (min (limit * 2) (Size.bound - 1)) + 1

theorem limitsBelow_le (size classes limit : Nat) : limitsBelow size classes limit ≤ classes := by
  induction classes generalizing limit with
  | zero => exact Nat.le_refl _
  | succ classes ih =>
    rw [limitsBelow]
    split
    · exact Nat.zero_le _
    · exact Nat.succ_le_succ (ih _)

/-- The class of a size. -/
def classOf (n : Nat) [HasClass n] (size : Nat) : Fin n :=
  ⟨limitsBelow size (n - 1) 16,
    Nat.lt_of_le_of_lt (limitsBelow_le ..) (Nat.sub_one_lt (NeZero.ne n))⟩

/-- The list of a class. -/
def list (index : Index n) (sizeClass : Fin n) : FreeList := index.lists[sizeClass]

/-- Replaces the list of a class. -/
def setList (index : Index n) (sizeClass : Fin n) (list : FreeList) : Index n :=
  ⟨index.lists.set sizeClass list⟩

/-- Adds a free block to the list of its class. -/
def insert [HasClass n] [LinkEncoding] (index : Index n) (block : Block) :
    Step Memory (Index n) := do
  let sizeClass := classOf n (← Step.inspect block.size)
  return index.setList sizeClass (← (index.list sizeClass).insert block)

/-- Takes a free block off the list of its class, which its header still gives. -/
def remove [HasClass n] [LinkEncoding] (index : Index n) (block : Block) :
    Step Memory (Index n) := do
  let sizeClass := classOf n (← Step.inspect block.size)
  return index.setList sizeClass (← (index.list sizeClass).remove block)

/-- The best fit of the first class, from that of `size` on, that has any block large enough. -/
def bestFit [HasClass n] (index : Index n) (m : Memory) (size : Nat) :
    Except Fault (Option Block) :=
  (index.lists.toList.drop (classOf n size)).findSomeM? (·.bestFit m size)

/-- The number of free blocks that the lists count. -/
def length (index : Index n) : Except Fault Nat :=
  index.lists.toList.foldlM (fun sum list => Size.add sum list.length) 0

/-- The lists that have a node or count one, each with its class, its length and its first nodes, at
most `count` of them. -/
def listing (index : Index n) (m : Memory) (count : Nat) :
    Except Fault (List (Nat × Nat × List Block)) := do
  let used := (List.finRange n).filter fun c =>
    (index.list c).head.isSome || (index.list c).length != 0
  used.mapM fun c => return (c.val, (index.list c).length, ← (index.list c).take m count)

/-- The lists in the order of their classes. -/
theorem toList_lists (index : Index n) :
    index.lists.toList = (List.finRange n).map index.list := by
  refine List.ext_getElem (by simp) fun i h1 h2 => ?_
  simp [Index.list]

theorem list_setList (index : Index n) (c : Fin n) (list : FreeList) (d : Fin n) :
    (index.setList c list).list d = if c = d then list else index.list d := by
  simp [Index.list, setList, Vector.getElem_set, Fin.ext_iff]

@[simp] theorem list_empty (c : Fin n) : (empty : Index n).list c = .empty := by
  simp [Index.list, empty]

end Index

end TagHeap
