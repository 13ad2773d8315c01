import TagHeap.Memory.Cells
import TagHeap.Size
import TagHeap.Step

/-!
# Memory

`Memory` is a run of bytes with an end that can move up. It is read and written a byte, a word or a
range at a time; words are 32 bits wide with the low byte first, and need no alignment. The bytes
between the old and the new end of a memory that grows are zero if nobody wrote there.

`Memory.byte` is the view of a memory, and each operation has one law about it. The operations that
can leave the memory, `readWord`, `writeWord`, `readBytes`, `writeBytes` and `move`, fault there.
-/

namespace TagHeap

/-- A run of `size` bytes. -/
structure Memory where
  size : Nat
  cells : Cells

namespace Memory

/-- `size` zero bytes. -/
def zeroed (size : Nat) : Memory := ⟨size, .blank⟩

/-- The byte at a place. -/
def byte (m : Memory) (i : Nat) : UInt8 := m.cells.byte i

/-- Writes a byte. -/
def setByte (m : Memory) (i : Nat) (b : UInt8) : Memory := { m with cells := m.cells.set i b }

/-- Moves the end up. -/
def grow (m : Memory) (increment : Nat) : Memory := { m with size := m.size + increment }

/-- Writes bytes one after another. -/
def store (m : Memory) (start : Nat) : List UInt8 → Memory
  | [] => m
  | b :: rest => store (m.setByte start b) (start + 1) rest

/-- The bytes of a range. -/
def extract (m : Memory) (start count : Nat) : List UInt8 :=
  (List.range' start count).map m.byte

/-- The number that four bytes spell, low byte first. -/
def word (m : Memory) (i : Nat) : UInt32 :=
  .ofNat ((m.byte i).toNat + (m.byte (i + 1)).toNat * 256 + (m.byte (i + 2)).toNat * 65536 +
    (m.byte (i + 3)).toNat * 16777216)

/-- The four bytes of a word, low byte first. -/
def wordBytes (w : UInt32) : List UInt8 :=
  [.ofNat w.toNat, .ofNat (w.toNat / 256), .ofNat (w.toNat / 65536), .ofNat (w.toNat / 16777216)]

/-- Writes a word. -/
def setWord (m : Memory) (i : Nat) (w : UInt32) : Memory := m.store i (wordBytes w)

/-- The word at a place, if it lies inside the memory. -/
def word? (m : Memory) (i : Nat) : Option UInt32 :=
  if i + 4 ≤ m.size then some (m.word i) else none

/-- The word at a place, which must lie inside the memory. -/
def readWord (m : Memory) (i : Nat) : Except Fault UInt32 := do
  let stop ← Size.add i 4
  if stop ≤ m.size then .ok (m.word i) else .error .outOfBounds

/-- Writes a word at a place, which must lie inside the memory. -/
def writeWord (i : Nat) (w : UInt32) : Step Memory Unit := do
  let stop ← Size.add i 4
  if stop ≤ (← get).size then modify (·.setWord i w) else throw .outOfBounds

/-- The bytes of a range, which must lie inside the memory. -/
def readBytes (m : Memory) (start count : Nat) : Except Fault (List UInt8) := do
  let stop ← Size.add start count
  if stop ≤ m.size then .ok (m.extract start count) else .error .outOfBounds

/-- Writes bytes one after another, which must all lie inside the memory. -/
def writeBytes (start : Nat) (bytes : List UInt8) : Step Memory Unit := do
  let stop ← Size.add start bytes.length
  if stop ≤ (← get).size then modify (·.store start bytes) else throw .outOfBounds

/-- Copies `count` bytes to `target`. The ranges may overlap: all bytes are read before any is
written. -/
def move (source count target : Nat) : Step Memory Unit := do
  let bytes ← Step.inspect (·.readBytes source count)
  if target + count ≤ (← get).size then modify (·.store target bytes) else throw .outOfBounds

/-! ## The view -/

@[simp] theorem byte_grow (m : Memory) (increment i : Nat) :
    (m.grow increment).byte i = m.byte i := rfl

@[simp] theorem size_grow (m : Memory) (increment : Nat) :
    (m.grow increment).size = m.size + increment := rfl

theorem byte_setByte (m : Memory) (i : Nat) (b : UInt8) (j : Nat) :
    (m.setByte i b).byte j = if j = i then b else m.byte j := Cells.byte_set ..

@[simp] theorem size_store (m : Memory) (start : Nat) (bytes : List UInt8) :
    (m.store start bytes).size = m.size := by
  induction bytes generalizing m start with
  | nil => rfl
  | cons b rest ih => exact ih ..

/-- A store changes the bytes of its range and no others. -/
theorem byte_store (m : Memory) (start : Nat) (bytes : List UInt8) (j : Nat) :
    (m.store start bytes).byte j =
      if h : start ≤ j ∧ j < start + bytes.length then bytes[j - start] else m.byte j := by
  induction bytes generalizing m start with
  | nil => rw [store, dif_neg (by simp only [List.length_nil]; omega)]
  | cons b rest ih =>
    rw [store, ih]
    by_cases he : j = start
    · subst he
      rw [dif_neg (by omega), dif_pos (by simp)]
      simp [byte_setByte]
    · by_cases hin : start + 1 ≤ j ∧ j < start + 1 + rest.length
      · rw [dif_pos hin, dif_pos (by simp; omega)]
        have : j - start = j - (start + 1) + 1 := by omega
        simp [this]
      · rw [dif_neg hin, dif_neg (by simp; omega), byte_setByte, if_neg he]

/-- A store leaves alone what lies outside of its range. -/
theorem byte_store_of_not_mem {m : Memory} {start : Nat} {bytes : List UInt8} {j : Nat}
    (h : j < start ∨ start + bytes.length ≤ j) : (m.store start bytes).byte j = m.byte j := by
  rw [byte_store, dif_neg (by omega)]

@[simp] theorem length_extract (m : Memory) (start count : Nat) :
    (m.extract start count).length = count := by
  simp [extract]

theorem getElem_extract (m : Memory) (start count k : Nat)
    (h : k < (m.extract start count).length) :
    (m.extract start count)[k] = m.byte (start + k) := by
  simp [extract]

/-! ## Words -/

/-- A word depends on its four bytes only. -/
theorem word_congr {m m' : Memory} {i : Nat}
    (h : ∀ j, i ≤ j → j < i + 4 → m'.byte j = m.byte j) : m'.word i = m.word i := by
  simp only [word, h i (by omega) (by omega), h (i + 1) (by omega) (by omega),
    h (i + 2) (by omega) (by omega), h (i + 3) (by omega) (by omega)]

@[simp] theorem size_setWord (m : Memory) (i : Nat) (w : UInt32) : (m.setWord i w).size = m.size :=
  size_store ..

/-- A written word changes the four bytes of its place and no others. -/
theorem byte_setWord_of_not_mem {m : Memory} {i : Nat} {w : UInt32} {j : Nat}
    (h : j < i ∨ i + 4 ≤ j) : (m.setWord i w).byte j = m.byte j :=
  byte_store_of_not_mem (by simpa [wordBytes] using h)

/-- A word that was written reads back. -/
@[simp] theorem word_setWord (m : Memory) (i : Nat) (w : UInt32) : (m.setWord i w).word i = w := by
  have hw := w.toNat_lt
  apply UInt32.toNat_inj.1
  simp only [word, setWord, byte_store, wordBytes, List.length_cons, List.length_nil,
    UInt32.toNat_ofNat']
  rw [dif_pos (by omega), dif_pos (by omega), dif_pos (by omega), dif_pos (by omega)]
  simp only [Nat.sub_self, Nat.add_sub_cancel_left, List.getElem_cons_zero, List.getElem_cons_succ,
    UInt8.toNat_ofNat']
  omega

/-- A written word leaves alone every word that does not overlap it. -/
theorem word_setWord_of_disjoint {m : Memory} {i j : Nat} {w : UInt32}
    (h : j + 4 ≤ i ∨ i + 4 ≤ j) : (m.setWord i w).word j = m.word j :=
  word_congr fun _ _ _ => byte_setWord_of_not_mem (by omega)

/-- A word settles the four bytes that spell it. -/
theorem byte_eq_of_word_eq {m m' : Memory} {i j : Nat} (h : m'.word i = m.word i) (hi : i ≤ j)
    (hj : j < i + 4) : m'.byte j = m.byte j := by
  have hnat := congrArg UInt32.toNat h
  have bytes : ∀ m : Memory, ∀ k, (m.byte k).toNat < 256 := fun m k => (m.byte k).toNat_lt
  have h0 := bytes m i
  have h1 := bytes m (i + 1)
  have h2 := bytes m (i + 2)
  have h3 := bytes m (i + 3)
  have h0' := bytes m' i
  have h1' := bytes m' (i + 1)
  have h2' := bytes m' (i + 2)
  have h3' := bytes m' (i + 3)
  simp only [word, UInt32.toNat_ofNat'] at hnat
  apply UInt8.toNat_inj.1
  obtain rfl | rfl | rfl | rfl : j = i ∨ j = i + 1 ∨ j = i + 2 ∨ j = i + 3 := by omega
  · omega
  · omega
  · omega
  · omega

/-- A word that is written over itself changes nothing. -/
theorem byte_setWord_self (m : Memory) (i j : Nat) :
    (m.setWord i (m.word i)).byte j = m.byte j := by
  by_cases hj : i ≤ j ∧ j < i + 4
  · exact byte_eq_of_word_eq (word_setWord ..) hj.1 hj.2
  · exact byte_setWord_of_not_mem (by omega)

theorem readWord_eq_ok {m : Memory} {i : Nat} (fits : m.size < Size.bound) (h : i + 4 ≤ m.size) :
    m.readWord i = .ok (m.word i) := by
  simp [readWord, Size.add_eq_ok (Nat.lt_of_le_of_lt h fits), bind, Except.bind, h]

theorem writeWord_eq_ok {m : Memory} {i : Nat} {w : UInt32} (fits : m.size < Size.bound)
    (h : i + 4 ≤ m.size) : writeWord i w m = .ok () (m.setWord i w) := by
  rw [writeWord, Step.bind_of_ok (Step.lift_of_ok (Size.add_eq_ok (Nat.lt_of_le_of_lt h fits)) m),
    Step.bind_of_ok (Step.get_apply m), if_pos h]
  rfl

end Memory

end TagHeap
