import TagHeap.Memory

/-!
# Memories that agree

`m.Agrees kept m'` says that two memories have one size and hold the same bytes at the places in
`kept`. It is the frame of every write: a write agrees with what was there before everywhere outside
of its range. Words are read through their bytes, so a word survives when its four places are kept.
-/

namespace TagHeap

namespace Memory

/-- The memories have one size and hold the same bytes at the places in `kept`. -/
structure Agrees (kept : Nat → Prop) (m m' : Memory) : Prop where
  size : m'.size = m.size
  byte : ∀ i, kept i → m'.byte i = m.byte i

namespace Agrees

variable {kept : Nat → Prop} {m m' m'' : Memory}

theorem refl (kept : Nat → Prop) (m : Memory) : m.Agrees kept m :=
  ⟨rfl, fun _ _ => rfl⟩

theorem trans (h : m.Agrees kept m') (h' : m'.Agrees kept m'') : m.Agrees kept m'' :=
  ⟨h'.size.trans h.size, fun i hi => (h'.byte i hi).trans (h.byte i hi)⟩

/-- Memories that agree somewhere agree on every part of it. -/
theorem mono {k : Nat → Prop} (h : m.Agrees kept m') (hk : ∀ i, k i → kept i) : m.Agrees k m' :=
  ⟨h.size, fun i hi => h.byte i (hk i hi)⟩

/-- A word whose four places are kept is kept. -/
theorem word {i : Nat} (h : m.Agrees kept m') (hk : ∀ j, i ≤ j → j < i + 4 → kept j) :
    m'.word i = m.word i :=
  word_congr fun j h1 h2 => h.byte j (hk j h1 h2)

/-- A written word leaves all other places alone. -/
theorem setWord (m : Memory) (i : Nat) (w : UInt32) :
    m.Agrees (fun j => j < i ∨ i + 4 ≤ j) (m.setWord i w) :=
  ⟨size_setWord m i w, fun _ hj => byte_setWord_of_not_mem hj⟩

/-- A word that is written over itself leaves all places alone. -/
theorem setWord_self {i : Nat} {w : UInt32} (h : m.word i = w) : m.Agrees kept (m.setWord i w) := by
  subst h
  exact ⟨size_setWord .., fun j _ => byte_setWord_self m i j⟩

/-- Written bytes leave all other places alone. -/
theorem store (m : Memory) (start : Nat) (bytes : List UInt8) :
    m.Agrees (fun j => j < start ∨ start + bytes.length ≤ j) (m.store start bytes) :=
  ⟨size_store m start bytes, fun _ hj => byte_store_of_not_mem hj⟩

end Agrees

end Memory

end TagHeap
