/-!
# Cells

A map from all natural numbers to bytes that is zero almost everywhere: a binary tree in which the
root holds the byte at zero, one subtree the bytes at odd places and the other those at even places,
each halved. A blank subtree reads as zeros, so memory that nobody has written costs nothing,
however large it is.

`Cells.byte_set` is the law of the map: after a write the written place holds the new byte and every
other place what it held before.
-/

namespace TagHeap

/-- Bytes at all natural numbers, zero almost everywhere. -/
inductive Cells where
  | blank
  | node (byte : UInt8) (odd even : Cells)

namespace Cells

/-- The byte at a place. -/
def byte : Cells → Nat → UInt8
  | blank, _ => 0
  | node b _ _, 0 => b
  | node _ odd even, i + 1 => if i % 2 = 0 then odd.byte (i / 2) else even.byte (i / 2)

/-- One byte at a place below `fuel`, and zeros everywhere else. -/
def single : (fuel : Nat) → (i : Nat) → UInt8 → Cells
  | 0, _, _ => blank
  | _ + 1, 0, b => node b blank blank
  | fuel + 1, i + 1, b =>
      if i % 2 = 0 then node 0 (single fuel (i / 2) b) blank
      else node 0 blank (single fuel (i / 2) b)

/-- Writes a byte at a place below `fuel`. A zero that is written to a blank leaves it blank. -/
def setBelow : (fuel : Nat) → Cells → (i : Nat) → UInt8 → Cells
  | 0, cells, _, _ => cells
  | fuel + 1, blank, i, b => if b = 0 then blank else single (fuel + 1) i b
  | _ + 1, node _ odd even, 0, b => node b odd even
  | fuel + 1, node root odd even, i + 1, b =>
      if i % 2 = 0 then node root (setBelow fuel odd (i / 2) b) even
      else node root odd (setBelow fuel even (i / 2) b)

/-- Writes a byte at a place. -/
def set (cells : Cells) (i : Nat) (b : UInt8) : Cells :=
  setBelow (i + 1) cells i b

@[simp] theorem byte_blank (i : Nat) : blank.byte i = 0 := by
  cases i <;> rfl

/-- Places of the same parity are equal when their halves are. -/
theorem half_eq_iff {i j : Nat} (h : j % 2 = i % 2) : j / 2 = i / 2 ↔ j = i := by omega

theorem byte_single {fuel i : Nat} (h : i < fuel) (b : UInt8) (j : Nat) :
    (single fuel i b).byte j = if j = i then b else 0 := by
  induction fuel generalizing i j with
  | zero => omega
  | succ fuel ih =>
    cases i with
    | zero => cases j <;> simp [single, byte]
    | succ i =>
      have hi : i / 2 < fuel := by omega
      cases j with
      | zero => by_cases hp : i % 2 = 0 <;> simp [single, hp, byte]
      | succ j =>
        by_cases hs : j % 2 = i % 2
        · by_cases hp : i % 2 = 0 <;> simp [single, byte, hs, hp, ih hi, half_eq_iff hs]
        · have hne : j ≠ i := fun e => hs (e ▸ rfl)
          by_cases hp : i % 2 = 0
          · simp [single, byte, hp, hne, show ¬ j % 2 = 0 by omega]
          · simp [single, byte, hp, hne, show j % 2 = 0 by omega]

theorem byte_setBelow {fuel i : Nat} (h : i < fuel) (cells : Cells) (b : UInt8) (j : Nat) :
    (setBelow fuel cells i b).byte j = if j = i then b else cells.byte j := by
  induction fuel generalizing cells i j with
  | zero => omega
  | succ fuel ih =>
    cases cells with
    | blank =>
      by_cases hb : b = 0
      · simp [setBelow, hb]
      · simp [setBelow, hb, byte_single h]
    | node root odd even =>
      cases i with
      | zero => cases j <;> simp [setBelow, byte]
      | succ i =>
        have hi : i / 2 < fuel := by omega
        cases j with
        | zero => by_cases hp : i % 2 = 0 <;> simp [setBelow, hp, byte]
        | succ j =>
          by_cases hs : j % 2 = i % 2
          · by_cases hp : i % 2 = 0 <;> simp [setBelow, byte, hs, hp, ih hi, half_eq_iff hs]
          · have hne : j ≠ i := fun e => hs (e ▸ rfl)
            by_cases hp : i % 2 = 0
            · simp [setBelow, byte, hp, hne, show ¬ j % 2 = 0 by omega]
            · simp [setBelow, byte, hp, hne, show j % 2 = 0 by omega]

/-- A write changes one place and no other. -/
theorem byte_set (cells : Cells) (i : Nat) (b : UInt8) (j : Nat) :
    (cells.set i b).byte j = if j = i then b else cells.byte j :=
  byte_setBelow (Nat.lt_succ_self i) cells b j

end Cells

end TagHeap
