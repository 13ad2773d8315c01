import TagHeap.Proofs.Inspecting

/-!
# Audits of heaps that may be damaged

What an audit is worth when nothing is known about the heap: its bytes may be any, its prologue and
the heads of its lists may point anywhere. All that is asked for is that the region is no larger
than regions are, and that the lengths of the lists can be added up.

* The audit ends, with a summary or with a violation (`Heap.audit_ends`). It reads nothing outside
  of the memory, no sum of offsets leaves the sizes, and no walk goes on for ever.
* It passes exactly where the heap is well-formed (`Heap.audit_eq_ok_iff`). So bytes in a payload
  that look like blocks, or like nodes of a list, do not deceive it, and they hide nothing from it.
-/

namespace TagHeap

variable {n : Nat} [HasClass n] {h : Heap n} {p : Block}

namespace Heap

/-- **AN AUDIT ENDS** on every heap, laid out or not, damaged or not: it passes, or it names a
violation. No other fault is met. -/
theorem audit_ends (short : h.size ≤ Region.maxSize)
    (hfits : ∑ c, (h.index.list c).length < Size.bound) :
    (∃ summary, h.audit = .ok summary) ∨ ∃ v, h.audit = .error (.inconsistent v) := by
  cases hp : h.prologue with
  | none =>
      refine .inl ⟨{}, ?_⟩
      rw [audit, hp]
      rfl
  | some p =>
      cases haudit : h.audit with
      | ok summary => exact .inl ⟨summary, rfl⟩
      | error e =>
          obtain ⟨v, rfl⟩ := (audit_decides hp short hfits).violation e haudit
          exact .inr ⟨v, rfl⟩

/-- A heap of 32 bytes with one free block in one list. The link of the block onwards is `after`. -/
def oneBlock (after : UInt32) : Heap 1 where
  region :=
    { memory := (((((((Memory.zeroed 32).setWord 4 9).setWord 8 9).setWord 12 16).setWord 20
        after).setWord 24 16).setWord 28 1)
      limit := 32
      backing := .buffer }
  index := ⟨#v[⟨Block.ofOffset? 16, 1⟩]⟩
  settings := .standard
  prologue := Block.ofOffset? 8

/-- A list that runs in a circle is noticed. -/
theorem audit_ends_circle : ∃ v, (oneBlock 16).audit = .error (.inconsistent v) := by
  rcases audit_ends (h := oneBlock 16) (by decide) (by decide) with ⟨summary, hok⟩ | hviolation
  · have herror : (oneBlock 16).audit =
        .error (.inconsistent (.brokenLink 0 16)) := rfl
    rw [herror] at hok
    exact nomatch hok
  · exact hviolation

/-- **THE AUDIT IS EXACT**: it passes on the well-formed heaps and on no others, and returns the
summary of the blocks. -/
theorem audit_eq_ok_iff (hp : h.prologue = some p) (short : h.size ≤ Region.maxSize)
    (hfits : ∑ c, (h.index.list c).length < Size.bound) (summary : Summary) :
    h.audit = .ok summary ↔
      ∃ xs nodes, WellFormed h.memory h.index p xs nodes ∧ summary = .ofLayout xs :=
  (audit_decides hp short hfits).ok_iff summary

/-- With a list that ends behind its only node the heap is well-formed. -/
theorem audit_eq_ok_iff_oneBlock :
    (oneBlock 0).audit = .ok ⟨1, 0, 1, 0, 16, 16⟩ ∧
      ∃ xs nodes, WellFormed (oneBlock 0).memory (oneBlock 0).index ⟨8, by decide⟩ xs nodes ∧
        Summary.mk 1 0 1 0 16 16 = .ofLayout xs := by
  have hok : (oneBlock 0).audit = .ok ⟨1, 0, 1, 0, 16, 16⟩ := rfl
  exact ⟨hok, (audit_eq_ok_iff rfl (by decide) (by decide) _).1 hok⟩

end Heap

end TagHeap
