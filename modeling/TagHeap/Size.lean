import TagHeap.Fault

/-!
# Sizes

Sizes and offsets are natural numbers below `2 ^ 64`. Sums and differences that a damaged heap could
push out of that range go through `Size.add` and `Size.sub`, which fault instead of wrapping.

A request for payload bytes is turned into a block size by `Size.ofRequest?`: the two tags are
added, the sum is rounded up to a multiple of eight, and the result is never smaller than the
smallest block, which has to hold two tags and two links once it is free.
-/

namespace TagHeap.Size

/-- Sizes and offsets stay below this number, which is `2 ^ 64`. -/
abbrev bound : Nat := 18446744073709551616

/-- What is stored in a word stays below this number, which is `2 ^ 32`. -/
abbrev wordBound : Nat := 4294967296

/-- Block sizes and payload offsets are multiples of this number. -/
abbrev granule : Nat := 8

/-- The bytes of a block that its two tags take. -/
abbrev overhead : Nat := 8

/-- The size of the smallest block. -/
abbrev minBlock : Nat := 16

/-- The largest multiple of eight that fits a word. -/
abbrev maxBlock : Nat := 4294967288

/-- A block may have this size. -/
structure Legal (size : Nat) : Prop where
  aligned : size % granule = 0
  minBlock_le : minBlock ≤ size
  le_maxBlock : size ≤ maxBlock

instance (size : Nat) : Decidable (Legal size) :=
  decidable_of_iff (size % granule = 0 ∧ minBlock ≤ size ∧ size ≤ maxBlock)
    ⟨fun h => ⟨h.1, h.2.1, h.2.2⟩, fun h => ⟨h.aligned, h.minBlock_le, h.le_maxBlock⟩⟩

/-- The sum, as long as it stays in range. -/
def add (a b : Nat) : Except Fault Nat :=
  if a + b < bound then .ok (a + b) else .error .overflow

/-- The difference, as long as it is not negative. -/
def sub (a b : Nat) : Except Fault Nat :=
  if b ≤ a then .ok (a - b) else .error .overflow

/-- The least multiple of eight that is not below `n`. -/
def ceil (n : Nat) : Nat :=
  (n + 7) / 8 * 8

/-- `ceil` within the range of sizes. -/
def roundUp (n : Nat) : Except Fault Nat :=
  if n + granule < bound then .ok (ceil n) else .error .overflow

/-- The size of the block that serves a request of `n` bytes, if a tag can hold it. -/
def ofRequest? (n : Nat) : Option Nat :=
  if n ≤ granule then some minBlock
  else if n + (overhead + granule - 1) < bound ∧ ceil (n + overhead) ≤ maxBlock then
    some (ceil (n + overhead))
  else none

theorem add_eq_ok {a b : Nat} (h : a + b < bound) : add a b = .ok (a + b) :=
  if_pos h

theorem sub_eq_ok {a b : Nat} (h : b ≤ a) : sub a b = .ok (a - b) :=
  if_pos h

theorem roundUp_eq_ok {n : Nat} (h : n + granule < bound) : roundUp n = .ok (ceil n) :=
  if_pos h

theorem ceil_mod (n : Nat) : ceil n % 8 = 0 := by
  unfold ceil; omega

theorem le_ceil (n : Nat) : n ≤ ceil n := by
  unfold ceil; omega

theorem ceil_of_mod {n : Nat} (h : n % 8 = 0) : ceil n = n := by
  unfold ceil; omega

end TagHeap.Size
