import TagHeap.Proofs.Couplings

/-!
# Where the bytes come from

A mapping that the system grants and a buffer of as many bytes are TWINS: they have granted the same
bytes and have the same limit, or will have it once the address space is asked for. They grow in the
same way and refuse with the same errors (`Region.Twin.grow`).

Heaps over twins, equal in everything else, are twins too, and runs on twins are coupled
(`Run.Twin.coupling`): no operation can tell twins apart or drives them apart. That is because an
operation learns of the region only by reading its memory, by its size and by growing it; the one
other thing that it looks at, whether the region is mapped by now, decides about a report and about
nothing else.
-/

namespace TagHeap

open Operation
open Step (Lockstep)

namespace Region

/-- The address space is there, or will be as soon as it is asked for. The bounds are `b` then. -/
structure Granted (b : Bounds) (r : Region) : Prop where
  reserve : r.bounds.reserve = (.ok (), b)
  again : b.reserve = (.ok (), b)
  size_le : r.size ≤ b.limit

variable {b : Bounds} {limit : Nat} {r r' : Region}

/-- Such a region refuses what lies beyond its limit, and nothing else. -/
theorem Granted.refuse?_eq (h : r.Granted b) (increment : Nat) :
    r.bounds.refuse? r.size increment =
      if b.limit - r.size < increment then some (.exhausted increment (b.limit - r.size))
      else none := by
  rw [Bounds.refuse?, h.reserve]

/-- Such a region grows up to its limit, and its bounds do not change again. -/
theorem Granted.grow_eq (h : r.Granted b) (increment : Nat) :
    grow increment r =
      if b.limit - r.size < increment then
        .ok (.error (.exhausted increment (b.limit - r.size))) (r.withBounds b)
      else .ok (.ok r.size) { r.withBounds b with memory := r.memory.grow increment } := by
  have hgrow := Region.grow_eq (r := r) increment fun _ => by
    rw [h.reserve]
    exact h.size_le
  rw [h.refuse?_eq, h.reserve] at hgrow
  by_cases hspare : b.limit - r.size < increment
  · rw [if_pos hspare] at hgrow ⊢
    exact hgrow
  · rw [if_neg hspare] at hgrow ⊢
    exact hgrow

/-- Memory may be replaced, as long as it stays within the limit. -/
theorem Granted.withMemory {m : Memory} (h : r.Granted b) (hm : m.size ≤ b.limit) :
    Granted b { r with memory := m } := ⟨h.reserve, h.again, hm⟩

/-- Once the region was to grow, its bounds are `b`. -/
theorem Granted.withBounds (h : r.Granted b) : (r.withBounds b).Granted b :=
  ⟨h.again, h.again, h.size_le⟩

/-- A mapping of which the system grants `limit` bytes, and a buffer of `limit` bytes. Both have
granted the same bytes so far. -/
structure Twin (limit : Nat) (r r' : Region) : Prop where
  memory : r'.memory = r.memory
  mapping : ∃ system, r.Granted ⟨limit, .mapping true system⟩
  buffer : r'.bounds = ⟨limit, .buffer⟩

theorem Twin.size_le (h : Twin limit r r') : r.size ≤ limit := by
  obtain ⟨system, hmapping⟩ := h.mapping
  exact hmapping.size_le

theorem Twin.not_mapped (h : Twin limit r r') : r'.mapped = false := by
  have hbacking : r'.backing = .buffer := congrArg Bounds.backing h.buffer
  rw [mapped, hbacking]

/-- **TWINS GROW ALIKE.** -/
theorem Twin.grow (increment : Nat) :
    Lockstep (Twin limit) (Region.grow increment) (Region.grow increment) := by
  intro r r' h
  obtain ⟨system, hmapping⟩ := h.mapping
  have hsize : r'.size = r.size := congrArg Memory.size h.memory
  have hbuffer : r'.Granted ⟨limit, .buffer⟩ :=
    ⟨by rw [h.buffer]; rfl, rfl, Nat.le_trans (Nat.le_of_eq hsize) h.size_le⟩
  rw [hmapping.grow_eq, hbuffer.grow_eq, hsize, h.memory]
  by_cases hspare : limit - r.size < increment
  · rw [if_pos hspare, if_pos hspare]
    exact .ok _ ⟨h.memory, ⟨system, hmapping.withBounds⟩, rfl⟩
  · rw [if_neg hspare, if_neg hspare]
    refine .ok _ ⟨rfl, ⟨system, hmapping.withBounds.withMemory ?_⟩, rfl⟩
    have := h.size_le
    show r.size + increment ≤ limit
    omega

end Region

/-! ## Heaps -/

variable {n : Nat} {limit : Nat}

/-- The two heaps differ in where their bytes come from and in nothing else. -/
structure Heap.Twin (limit : Nat) (h h' : Heap n) : Prop where
  region : h.region.Twin limit h'.region
  index : h'.index = h.index
  settings : h'.settings = h.settings
  prologue : h'.prologue = h.prologue

/-- The two runs work on twins, and have reported the same but for the mapping. -/
structure Run.Twin (limit : Nat) (run run' : Run n) : Prop where
  heap : run.heap.Twin limit run'.heap
  journal : run'.journal = run.journal.filter (!·.isReserved)

namespace Heap.Twin

variable {h h' : Heap n}

theorem resembles (t : h.Twin limit h') : h.Resembles h' :=
  ⟨t.region.memory, t.index, t.settings, t.prologue⟩

/-- Memory may be replaced in both, as long as it keeps its size. -/
theorem withMemory {m m' : Memory} (t : h.Twin limit h') (hm : Memory.Same h.size m m') :
    Twin limit (h.withMemory m) (h'.withMemory m') :=
  have hle : m.size ≤ limit := Nat.le_trans (Nat.le_of_eq hm.2) t.region.size_le
  ⟨⟨hm.1, t.region.mapping.imp fun _ hg => hg.withMemory hle, t.region.buffer⟩,
    t.index, t.settings, t.prologue⟩

end Heap.Twin

namespace Run.Twin

/-- An event that does not tell of a mapping. -/
theorem lockstep_record {event : Event} (h : event.isReserved = false) :
    Lockstep (Twin limit) (record (n := n) event) (record event) := by
  refine .modify fun run run' t => ⟨t.heap, ?_⟩
  show event :: run'.journal = List.filter _ (event :: run.journal)
  rw [List.filter_cons_of_pos (by rw [h]; rfl), t.journal]

/-- A step on the memory. -/
theorem lockstep_onMemory {α : Type} {x : Step Memory α}
    (hx : ∀ size, Lockstep (Memory.Same size) x x) :
    Lockstep (Twin limit) (onMemory (n := n) x) (onMemory x) := fun run _ t =>
  (hx run.heap.size).zoom ⟨t.heap.resembles.memory, rfl⟩ fun _ _ hm =>
    ⟨t.heap.withMemory hm, t.journal⟩

/-- A change of the heap that keeps twins. -/
theorem lockstep_modifyHeap {change change' : Heap n → Heap n}
    (h : ∀ h h', h.Twin limit h' → (change h).Twin limit (change' h')) :
    Lockstep (Twin limit) (modifyHeap change) (modifyHeap change') :=
  fun _ _ t => .ok _ ⟨h _ _ t.heap, t.journal⟩

theorem lockstep_onIndex {f : Index n → Step Memory (Index n)}
    (hf : ∀ size index, Lockstep (Memory.Same size) (f index) (f index)) :
    Lockstep (Twin limit) (onIndex f) (onIndex f) := by
  refine lockstep_heap fun run run' t => ?_
  rw [t.heap.index]
  exact .bind (lockstep_onMemory fun _ => hf _ _) fun index =>
    lockstep_modifyHeap fun _ _ t => { t with index := rfl }

/-- Only the mapping reports that it was made, and that report does not count. -/
private theorem lockstep_reserved (reason : Bool) (length length' : Nat) :
    Lockstep (Twin limit) (recordIf (n := n) reason (.reserved length))
      (recordIf false (.reserved length')) := by
  intro run run' t
  cases reason with
  | false => exact .ok _ t
  | true =>
      refine .ok _ ⟨t.heap, ?_⟩
      show run'.journal = (.reserved length :: run.journal).filter _
      rw [List.filter_cons_of_neg Bool.false_ne_true, t.journal]

/-- **GROWING** keeps twins, and is answered alike. -/
theorem lockstep_grow (increment : Nat) :
    Lockstep (Twin limit) (grow (n := n) increment) (grow increment) := by
  have hregion : Lockstep (Twin limit) (onRegion (n := n) (Region.grow increment))
      (onRegion (Region.grow increment)) := fun _ _ t =>
    (Region.Twin.grow increment).zoom t.heap.region fun _ _ hr =>
      ⟨{ t.heap with region := hr }, t.journal⟩
  refine lockstep_heap fun run run' t => .bind hregion fun answer =>
    lockstep_heap fun run₁ run₁' t₁ => ?_
  dsimp only
  -- A buffer is never mapped, so only the run over the mapping has something to report.
  rw [t.heap.region.not_mapped, t₁.heap.region.not_mapped, Bool.and_false]
  exact .bind (lockstep_reserved _ _ _) fun _ => .pure answer

variable [HasClass n]

/-- **TWINS ARE COUPLED.** -/
theorem coupling : Coupling .truncating .truncating (Twin (n := n) limit) where
  resembles t := t.heap.resembles
  lockstep_record := lockstep_record
  lockstep_onMemory := lockstep_onMemory
  lockstep_forget := lockstep_modifyHeap fun _ _ t => { t with index := rfl, prologue := rfl }
  lockstep_found _ := lockstep_modifyHeap fun _ _ t => { t with prologue := rfl }
  lockstep_grow := lockstep_grow
  lockstep_enlist b := lockstep_onIndex fun _ index => Memory.Same.indexInsert index b
  lockstep_delist b := lockstep_onIndex fun _ index => Memory.Same.indexRemove index b

end Run.Twin

end TagHeap
