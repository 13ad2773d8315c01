import TagHeap.Block

/-!
# Free lists

Nobody uses the payload of a free block, so its first two words hold the block's links: the offsets
of the node before it and of the node after it, zero where there is none.

    header | before | after | ...... | footer

A `FreeList` itself holds only its first node and its length. It is kept sorted by offset. Links
are read from memory, which may be damaged, so a chain can leave the memory or run in a circle; the
walks below fault then. A walk that meets more nodes than the memory has bytes has met one of them
twice, and that is how a circle is noticed.

A link is an offset in a word of 32 bits, and what is done with an offset that is too long for it is
up to the `LinkEncoding`. The operations cut such an offset off (`LinkEncoding.truncating`).
-/

namespace TagHeap

namespace Block

/-- The node before a free block in its list. -/
def before (b : Block) (m : Memory) : Except Fault (Option Block) := do
  return ofOffset? (← m.readWord b.offset).toNat

/-- The node after a free block in its list. -/
def after (b : Block) (m : Memory) : Except Fault (Option Block) := do
  return ofOffset? (← m.readWord (← Size.add b.offset 4)).toNat

/-- The word that stands for a link, if its offset fits. -/
def link : Option Block → UInt32
  | none => 0
  | some b => .ofNat b.offset

end Block

/-- How a link is put into a word. -/
class LinkEncoding where
  encode : Option Block → Except Fault UInt32

/-- An offset loses what is too long for the word. This is the encoding of all operations that name
no other. -/
instance LinkEncoding.truncating : LinkEncoding := ⟨fun node => .ok (Block.link node)⟩

theorem LinkEncoding.truncating_eq_ok (node : Option Block) :
    truncating.encode node = .ok (Block.link node) := rfl

namespace Block

/-- Replaces the link to the node before a block. -/
def setBefore [LinkEncoding] (b : Block) (node : Option Block) : Step Memory Unit := do
  Memory.writeWord b.offset (← LinkEncoding.encode node)

/-- Replaces the link to the node after a block. -/
def setAfter [LinkEncoding] (b : Block) (node : Option Block) : Step Memory Unit := do
  Memory.writeWord (← Size.add b.offset 4) (← LinkEncoding.encode node)

theorem before_eq_ok {b : Block} {m : Memory} (fits : m.size < Size.bound)
    (inside : b.offset + 4 ≤ m.size) : b.before m = .ok (ofOffset? (m.word b.offset).toNat) := by
  simp only [before, Memory.readWord_eq_ok fits inside, bind, Except.bind]
  rfl

theorem after_eq_ok {b : Block} {m : Memory} (fits : m.size < Size.bound)
    (inside : b.offset + 8 ≤ m.size) :
    b.after m = .ok (ofOffset? (m.word (b.offset + 4)).toNat) := by
  have ha := Size.add_eq_ok (a := b.offset) (b := 4) (by omega)
  have hr := Memory.readWord_eq_ok (i := b.offset + 4) fits (by omega)
  simp only [after, ha, hr, bind, Except.bind]
  rfl

theorem setBefore_eq_ok {b : Block} {m : Memory} (fits : m.size < Size.bound)
    (inside : b.offset + 4 ≤ m.size) (node : Option Block) :
    b.setBefore node m = .ok () (m.setWord b.offset (link node)) := by
  rw [setBefore, Step.bind_of_ok (Step.lift_of_ok (LinkEncoding.truncating_eq_ok node) m)]
  exact Memory.writeWord_eq_ok fits inside

theorem setAfter_eq_ok {b : Block} {m : Memory} (fits : m.size < Size.bound)
    (inside : b.offset + 8 ≤ m.size) (node : Option Block) :
    b.setAfter node m = .ok () (m.setWord (b.offset + 4) (link node)) := by
  rw [setAfter, Step.bind_of_ok (Step.lift_of_ok (Size.add_eq_ok (by omega)) m),
    Step.bind_of_ok (Step.lift_of_ok (LinkEncoding.truncating_eq_ok node) m)]
  exact Memory.writeWord_eq_ok fits (by omega)

end Block

/-- A list of free blocks, threaded through their payloads. -/
structure FreeList where
  head : Option Block
  length : Nat
deriving DecidableEq, Repr

namespace FreeList

/-- The list without nodes. -/
def empty : FreeList := ⟨none, 0⟩

/-- More steps than a chain that never repeats a node can take in `m`. -/
def patience (m : Memory) : Nat := m.size + 1

/-- Follows the chain from `node` for at most `count` nodes. Returns what `visit` finds at each of
them, and the node at which it stopped. The link onward is read before the node is visited. -/
def follow {α : Type} (m : Memory) (visit : Block → Except Fault α) :
    (count : Nat) → (node : Option Block) → Except Fault (List α × Option Block)
  | _, none => .ok ([], none)
  | 0, some node => .ok ([], some node)
  | count + 1, some node => do
      let onward ← node.after m
      let found ← visit node
      let (rest, stop) ← follow m visit count onward
      return (found :: rest, stop)

/-- The first nodes of a list, at most `count` of them. -/
def take (list : FreeList) (m : Memory) (count : Nat) : Except Fault (List Block) := do
  return (← follow m .ok count list.head).1

/-- What `visit` finds at each node of a list. -/
def visitAll {α : Type} (list : FreeList) (m : Memory) (visit : Block → Except Fault α) :
    Except Fault (List α) := do
  match ← follow m visit (patience m) list.head with
  | (found, none) => return found
  | (_, some _) => throw .endless

/-- The nodes of a list. -/
def nodes (list : FreeList) (m : Memory) : Except Fault (List Block) := list.visitAll m .ok

/-- The place of `block` in the chain from `node`: the last node that does not lie above it, and the
first one that does. -/
def seek (m : Memory) (block : Block) :
    (count : Nat) → (last node : Option Block) → Except Fault (Option Block × Option Block)
  | _, last, none => .ok (last, none)
  | 0, _, some _ => .error .endless
  | count + 1, last, some node =>
      if block.offset < node.offset then .ok (last, some node)
      else do seek m block count (some node) (← node.after m)

/-- Links a block in at its place. -/
def insert [LinkEncoding] (list : FreeList) (block : Block) : Step Memory FreeList := do
  let (last, next) ← Step.inspect fun m => seek m block (patience m) none list.head
  block.setBefore last
  block.setAfter next
  last.forM (·.setAfter (some block))
  next.forM (·.setBefore (some block))
  let length ← Size.add list.length 1
  return { head := if last.isSome then list.head else some block, length }

/-- Unlinks a node. -/
def remove [LinkEncoding] (list : FreeList) (block : Block) : Step Memory FreeList := do
  let last ← Step.inspect block.before
  let next ← Step.inspect block.after
  last.forM (·.setAfter next)
  next.forM (·.setBefore last)
  let length ← Size.sub list.length 1
  return { head := if last.isSome then list.head else next, length }

/-- Among the blocks with their sizes, the first of the smallest ones that hold `size` bytes. -/
def smallest (size : Nat) (candidates : List (Block × Nat)) : Option Block :=
  ((candidates.filter (size ≤ ·.2)).minOn? (·.2)).map (·.1)

/-- The smallest block of a list that holds `size` bytes, of equals the one that lies lowest. -/
def bestFit (list : FreeList) (m : Memory) (size : Nat) : Except Fault (Option Block) := do
  return smallest size (← list.visitAll m fun b => return (b, ← b.size m))

end FreeList

end TagHeap
