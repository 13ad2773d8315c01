import TagHeap.Proofs.Guarantees

/-!
# Requests that are refused

A request for a block is refused when there is no room for one. A heap that is laid out is then left
exactly as it was. The first request is another matter: it lays out the heap, and what that took of
the region it keeps, also if the chunk or the block does not fit behind the sentinels any more
(`Reachable.allocate_refused`). So the first request leaves no trace only if the region refuses
everything, down to the sentinels. In no case is a byte changed that had been granted before.
-/

namespace TagHeap

variable {n : Nat} {h : Heap n} {live : Live} {size : Nat}

/-- The region has the same bytes and the heap the same prologue and the same lists. -/
structure Heap.Untouched (h h' : Heap n) : Prop where
  memory : h'.memory = h.memory
  prologue : h'.prologue = h.prologue
  index : h'.index = h.index

theorem Heap.Untouched.refl (h : Heap n) : h.Untouched h := ⟨rfl, rfl, rfl⟩

variable [HasClass n]

namespace Heap

open Operation

/-- A request that is refused by a heap in shape leaves it as it was. -/
theorem Shaped.state_of_refused {p : Block} {xs : List Extent} (g : h.Shaped p xs)
    (hsize : size ≠ 0) (hnone : ((allocate size).on h).result = .ok none) :
    ((allocate size).on h).state = h := by
  have g' : (Run.mk h []).heap.Shaped p xs := g
  obtain ⟨answer, journal, hanswer, hspec⟩ := on_of_ensures (allocate_ensures g' hsize)
  obtain rfl := Except.ok.inj (hnone.symm.trans hanswer)
  exact hspec.2.heap_eq

/-- A first request that is refused leaves the heap as laying it out does. -/
theorem Vacant.state_of_refused (hv : h.Vacant) (hsize : size ≠ 0)
    (hnone : ((allocate size).on h).result = .ok none) :
    ((allocate size).on h).state = (layOut.on h).state := by
  have hv' : (Run.mk h []).heap.Vacant := hv
  obtain ⟨answer, journal, hanswer, hspec⟩ := on_of_ensures (allocate_ensures_of_vacant hv' hsize)
  obtain rfl := Except.ok.inj (hnone.symm.trans hanswer)
  obtain ⟨⟨r, run₁, hrun₁, hheap⟩, -⟩ := hspec
  have hstate : (layOut.on h).state = run₁.heap := by rw [on, hrun₁]
  rw [hstate]
  exact hheap

/-- Laying out a heap leaves a trace exactly where it gets as far as the prologue. -/
theorem Vacant.layOut_untouched (hv : h.Vacant) :
    (∀ i < h.size, (layOut.on h).state.memory.byte i = h.memory.byte i) ∧
      (h.Untouched (layOut.on h).state ↔ (layOut.on h).state.prologue = none) := by
  have hsound : (Run.mk h []).heap.region.Sound := hv.sound
  obtain ⟨answer, journal, -, -, hbytes, -, hspec⟩ := on_of_ensures (layOut_ensures hsound)
  refine ⟨hbytes, ?_⟩
  constructor
  · intro huntouched
    exact huntouched.prologue.trans hv.prologue
  · intro hnone
    have hshaped : ∀ p xs, ¬ (layOut.on h).state.Shaped p xs := by
      intro p xs g
      have := g.prologue
      rw [hnone] at this
      exact nomatch this
    cases answer with
    | error e =>
        rcases hspec with ⟨hv', hmemory⟩ | ⟨p, -, g⟩
        · exact ⟨hmemory, hnone.trans hv.prologue.symm, hv'.index.trans hv.index.symm⟩
        · exact absurd g (hshaped _ _)
    | ok u =>
        obtain ⟨p, -, g⟩ := hspec
        exact absurd g (hshaped _ _)

end Heap

/-- **A REQUEST THAT IS REFUSED** leaves no trace in a heap that is laid out. Before that, it leaves
the heap as laying it out does, and that is no trace only if the sentinels were refused already. The
bytes that were granted before keep their values in any case. -/
theorem Reachable.allocate_refused (hr : Reachable h live)
    (hnone : ((Heap.allocate size).on h).result = .ok none) :
    ((Heap.allocate size).on h).state =
        (if size = 0 ∨ h.prologue.isSome then h else (Heap.layOut.on h).state) ∧
      (∀ i < h.size, ((Heap.allocate size).on h).state.memory.byte i = h.memory.byte i) ∧
      (h.Untouched ((Heap.allocate size).on h).state ↔
        size = 0 ∨ h.prologue.isSome ∨ (Heap.layOut.on h).state.prologue = none) := by
  by_cases hlaid : size = 0 ∨ h.prologue.isSome
  · have hstate : ((Heap.allocate size).on h).state = h := by
      rcases hlaid with rfl | hsome
      · rfl
      · by_cases hsize : size = 0
        · rw [hsize]
          rfl
        · cases hr.serves with
          | vacant hv =>
              rw [hv.prologue] at hsome
              exact nomatch hsome
          | shaped g _ => exact g.state_of_refused hsize hnone
    rw [if_pos hlaid, hstate]
    exact ⟨rfl, fun _ _ => rfl, iff_of_true (.refl h) (or_assoc.1 (.inl hlaid))⟩
  · obtain ⟨hsize, hnotSome⟩ := not_or.1 hlaid
    cases hr.serves with
    | vacant hv =>
        obtain ⟨hbytes, huntouched⟩ := hv.layOut_untouched
        rw [if_neg hlaid, hv.state_of_refused hsize hnone, huntouched]
        refine ⟨rfl, hbytes, ?_⟩
        constructor
        · intro hprologue
          exact .inr (.inr hprologue)
        · rintro (hzero | hsome | hprologue)
          · exact absurd hzero hsize
          · exact absurd hsome hnotSome
          · exact hprologue
    | shaped g _ =>
        rw [g.prologue] at hnotSome
        exact absurd rfl hnotSome

/-- A buffer with room for the sentinels but for no chunk refuses the first request, and the
sentinels stay. -/
theorem allocate_refused_touches :
    Reachable (.new (.buffer 64) .standard : Heap 1) [] ∧
      ((Heap.allocate 8).on (.new (.buffer 64) .standard : Heap 1)).result = .ok none ∧
      (Heap.new (.buffer 64) .standard : Heap 1).size = 0 ∧
      ((Heap.allocate 8).on (.new (.buffer 64) .standard : Heap 1)).state.size = 16 ∧
      ¬ (Heap.new (.buffer 64) .standard : Heap 1).Untouched
        ((Heap.allocate 8).on (.new (.buffer 64) .standard : Heap 1)).state := by
  refine ⟨.buffer 64 .standard, rfl, rfl, rfl, ?_⟩
  intro huntouched
  exact nomatch congrArg Memory.size huntouched.memory

/-- The same buffer, and one that has not even room for the sentinels. -/
theorem allocate_refused_first :
    ((Heap.allocate 8).on (.new (.buffer 64) .standard : Heap 1)).state =
        (Heap.layOut.on (.new (.buffer 64) .standard : Heap 1)).state ∧
      (Heap.new (.buffer 8) .standard : Heap 1).Untouched
        ((Heap.allocate 8).on (.new (.buffer 8) .standard : Heap 1)).state := by
  have hnone : ((Heap.allocate 8).on (.new (.buffer 64) .standard : Heap 1)).result = .ok none :=
    rfl
  have hnone' : ((Heap.allocate 8).on (.new (.buffer 8) .standard : Heap 1)).result = .ok none :=
    rfl
  obtain ⟨hstate, -, -⟩ := Reachable.allocate_refused (.buffer 64 .standard) hnone
  obtain ⟨-, -, huntouched⟩ := Reachable.allocate_refused (.buffer 8 .standard) hnone'
  exact ⟨hstate, huntouched.2 (.inr (.inr rfl))⟩

end TagHeap
