import Mathlib.Algebra.BigOperators.Fin
import TagHeap.Heap.Audit
import TagHeap.Proofs.Ensures
import TagHeap.Proofs.Tiling

/-!
# Counting blocks

An audit counts the blocks that it walks over, one after the other, in checked sizes. `Summary.add`
is that without the checks, so the summary of a layout is a fold (`Summary.ofLayout`). The blocks
walked over lie side by side, so no count passes the place that the walk has reached
(`Summary.Below`), and the checks never fail while that place is a size.
-/

namespace TagHeap

namespace Summary

/-- The counts with one more block. -/
def add (s : Summary) (x : Extent) : Summary :=
  if x.allocated then
    { s with
      blocks := s.blocks + 1
      allocatedBlocks := s.allocatedBlocks + 1
      allocatedBytes := s.allocatedBytes + x.size }
  else
    { s with
      blocks := s.blocks + 1
      freeBlocks := s.freeBlocks + 1
      freeBytes := s.freeBytes + x.size
      largestFree := max s.largestFree x.size }

/-- The counts of a layout. -/
def ofLayout (xs : List Extent) : Summary := xs.foldl add {}

/-- No count is larger than `top`, and neither is the sum of the bytes. -/
structure Below (s : Summary) (top : Nat) : Prop where
  blocks : s.blocks ≤ top
  allocatedBlocks : s.allocatedBlocks ≤ top
  freeBlocks : s.freeBlocks ≤ top
  bytes : s.allocatedBytes + s.freeBytes ≤ top

/-- Before the walk nothing is counted. -/
theorem below_empty (top : Nat) : ({} : Summary).Below top :=
  ⟨Nat.zero_le _, Nat.zero_le _, Nat.zero_le _, Nat.zero_le _⟩

theorem Below.add {s : Summary} {top : Nat} {x : Extent} (h : s.Below top)
    (hx : Size.minBlock ≤ x.size) : (s.add x).Below (top + x.size) := by
  obtain ⟨h1, h2, h3, h4⟩ := h
  simp only [Size.minBlock] at hx
  rw [Summary.add]
  split <;> constructor <;> dsimp only <;> omega

theorem freeBlocks_foldl (xs : List Extent) (s : Summary) :
    (xs.foldl add s).freeBlocks = s.freeBlocks + (xs.filter (!·.allocated)).length := by
  induction xs generalizing s with
  | nil => rfl
  | cons x xs ih =>
      rw [List.foldl_cons, ih, List.filter_cons, add]
      cases x.allocated with
      | true => rfl
      | false => simp only [Bool.false_eq_true, if_false, Bool.not_false, if_true,
          List.length_cons]; omega

theorem freeBlocks_ofLayout (xs : List Extent) :
    (ofLayout xs).freeBlocks = (xs.filter (!·.allocated)).length := by
  rw [ofLayout, freeBlocks_foldl]
  exact Nat.zero_add _

theorem le_largestFree_foldl {size : Nat} (xs : List Extent) (s : Summary) :
    size ≤ (xs.foldl add s).largestFree ↔
      size ≤ s.largestFree ∨ ∃ x ∈ xs, x.allocated = false ∧ size ≤ x.size := by
  induction xs generalizing s with
  | nil => simp
  | cons x xs ih =>
      rw [List.foldl_cons, ih, List.exists_mem_cons_iff, ← or_assoc, add]
      cases x.allocated with
      | true => simp
      | false => simp

/-- Some free block holds so many bytes just if the largest one does. -/
theorem le_largestFree_ofLayout {size : Nat} (hsize : 0 < size) {xs : List Extent} :
    size ≤ (ofLayout xs).largestFree ↔ ∃ x ∈ xs, x.allocated = false ∧ size ≤ x.size := by
  rw [ofLayout, le_largestFree_foldl, or_iff_right (Nat.not_le.2 hsize)]

/-- The bytes of a tiling are all counted. -/
theorem bytes_foldl {lo hi : Nat} {xs : List Extent} (h : Tiles lo xs hi) (s : Summary) :
    (xs.foldl add s).allocatedBytes + (xs.foldl add s).freeBytes + lo =
      s.allocatedBytes + s.freeBytes + hi := by
  induction xs generalizing lo s with
  | nil => rw [show lo = hi from h]; rfl
  | cons x xs ih =>
      have := ih h.2.2.2 (s.add x)
      rw [List.foldl_cons]
      have hx : (s.add x).allocatedBytes + (s.add x).freeBytes =
          s.allocatedBytes + s.freeBytes + x.size := by
        rw [add]
        split <;> dsimp only <;> omega
      omega

end Summary

namespace Audit

variable {s : Summary} {top : Nat} {x : Extent}

theorem addAllocated_eq_ok (hs : s.Below top) (hu : x.allocated = true)
    (hx : Size.minBlock ≤ x.size) (ht : top + x.size < Size.bound) :
    addAllocated s x.size = .ok (s.add x) := by
  obtain ⟨h1, h2, -, h4⟩ := hs
  simp only [Size.minBlock] at hx
  rw [addAllocated, bind_of_ok (Size.add_eq_ok (by omega)), bind_of_ok (Size.add_eq_ok (by omega)),
    bind_of_ok (Size.add_eq_ok (by omega)), Summary.add, if_pos hu]
  rfl

theorem addFree_eq_ok (hs : s.Below top) (hu : x.allocated = false)
    (hx : Size.minBlock ≤ x.size) (ht : top + x.size < Size.bound) :
    addFree s x.size = .ok (s.add x) := by
  obtain ⟨h1, -, h3, h4⟩ := hs
  simp only [Size.minBlock] at hx
  rw [addFree, bind_of_ok (Size.add_eq_ok (by omega)), bind_of_ok (Size.add_eq_ok (by omega)),
    bind_of_ok (Size.add_eq_ok (by omega)), Summary.add, if_neg (by rw [hu]; exact nofun)]
  rfl

end Audit

/-- The lengths of the lists are added up, if the sum is a size. -/
theorem Index.length_eq_ok_iff {n total : Nat} {index : Index n} :
    index.length = .ok total ↔
      ∑ c, (index.list c).length = total ∧ ∑ c, (index.list c).length < Size.bound := by
  have key : ∀ (lists : List FreeList) (sum : Nat), sum < Size.bound →
      (lists.foldlM (fun sum list => Size.add sum list.length) sum = .ok total ↔
        sum + (lists.map (·.length)).sum = total ∧
          sum + (lists.map (·.length)).sum < Size.bound) := by
    intro lists
    induction lists with
    | nil =>
        intro sum h
        show (.ok sum : Except Fault Nat) = .ok total ↔ sum = total ∧ sum < Size.bound
        rw [Except.ok.injEq, and_iff_left h]
    | cons list lists ih =>
        intro sum h
        rw [List.foldlM_cons, List.map_cons, List.sum_cons, ← Nat.add_assoc]
        by_cases hfits : sum + list.length < Size.bound
        · rw [bind_of_ok (Size.add_eq_ok hfits), ih _ hfits]
        · -- The first sum that is no size ends the count.
          rw [Size.add, if_neg hfits]
          exact ⟨nofun, fun ⟨_, hlt⟩ => absurd hlt (by omega)⟩
  have hsum : (index.lists.toList.map (·.length)).sum = ∑ c, (index.list c).length := by
    rw [toList_lists, List.map_map, Fin.sum_univ_def]
    rfl
  rw [length, key _ 0 (by decide), hsum, Nat.zero_add]

theorem Index.length_eq_sum {n : Nat} {index : Index n}
    (hfits : ∑ c, (index.list c).length < Size.bound) :
    index.length = .ok (∑ c, (index.list c).length) :=
  length_eq_ok_iff.2 ⟨rfl, hfits⟩

end TagHeap
