import TagHeap.Proofs.Ensures

/-!
# Growing a region

A region is `Ready` when its address space is there: from then on growing is plain arithmetic, it
either moves the end up or changes NOTHING. Before that the first growth may have to map the address
space, which can fail; all that is known then is that the region is `Sound`, that is, within its
limit and empty as long as nothing is mapped.

What growing answers follows from the number of the bytes and from the `Bounds` of the region; the
bytes themselves take no part in it (`Region.grow_eq`).
-/

namespace TagHeap

namespace Region

/-- The region keeps to its limits, and its address space is there. -/
structure Ready (r : Region) : Prop where
  size_le : r.size ≤ r.limit
  limit_le : r.limit ≤ maxSize
  present : ∀ system, r.backing ≠ .mapping false system

/-- The region keeps to its limits, and is empty while its address space is not there. -/
structure Sound (r : Region) : Prop where
  size_le : r.size ≤ r.limit
  limit_le : r.limit ≤ maxSize
  absent : ∀ system, r.backing = .mapping false system → r.size = 0
  aligned : r.size % 8 = 0

variable {r : Region}

theorem Ready.sound (h : r.Ready) (h8 : r.size % 8 = 0) : r.Sound :=
  ⟨h.size_le, h.limit_le, fun system he => absurd he (h.present system), h8⟩

/-- The memory of a ready region may be replaced by one of the same size. -/
theorem Ready.withMemory {m : Memory} (h : r.Ready) (hm : m.size = r.size) :
    Ready { r with memory := m } :=
  ⟨Nat.le_trans (Nat.le_of_eq hm) h.size_le, h.limit_le, h.present⟩

/-- The memory of a sound region may be replaced by one of the same size. -/
theorem Sound.withMemory {m : Memory} (h : r.Sound) (hm : m.size = r.size) :
    Sound { r with memory := m } :=
  ⟨Nat.le_trans (Nat.le_of_eq hm) h.size_le, h.limit_le,
    fun system hs => hm.trans (h.absent system hs), (congrArg (· % 8) hm).trans h.aligned⟩

theorem sound_buffer (capacity : Nat) : (buffer capacity).Sound :=
  ⟨Nat.zero_le _, Nat.min_le_right .., nofun, rfl⟩

theorem sound_mapping (reservation : Nat) (system : System) :
    (mapping reservation system).Sound :=
  ⟨Nat.zero_le _, Nat.min_le_right .., fun _ _ => rfl, rfl⟩

theorem wholePages_le (system : System) (limit : Nat) :
    wholePages system.pageSize limit ≤ maxSize := by
  have hpos := system.pageSize_pos
  have hle := system.pageSize_le
  refine Nat.le_trans (Nat.div_mul_le_self ..) ?_
  omega

/-! ## Bounds -/

/-- What a region keeps besides its bytes: how far it may grow, and who is asked for the bytes. -/
structure Bounds where
  limit : Nat
  backing : Backing

/-- The bounds of a region. -/
def bounds (r : Region) : Bounds := ⟨r.limit, r.backing⟩

@[simp] theorem bounds_withMemory (r : Region) (m : Memory) :
    bounds { r with memory := m } = r.bounds := rfl

/-- The region with other bounds. -/
def withBounds (r : Region) (b : Bounds) : Region := ⟨r.memory, b.limit, b.backing⟩

namespace Bounds

/-- Asks for the address space if that has not happened yet. -/
def reserve (b : Bounds) : Except GrowthError Unit × Bounds :=
  match b.backing with
  | .buffer | .mapping true _ => (.ok (), b)
  | .mapping false system =>
      let length := wholePages system.pageSize b.limit
      if length = 0 then (.error (.mapFailed length invalidArgument), b)
      else match system.refusals with
        | errno :: later =>
            (.error (.mapFailed length errno),
              { b with backing := .mapping false { system with refusals := later } })
        | [] => (.ok (), ⟨length, .mapping true system⟩)

section Mapping

variable {limit : Nat} {system : System}

/-- There is nothing to ask for. -/
private theorem reserve_of_empty (h : wholePages system.pageSize limit = 0) :
    reserve ⟨limit, .mapping false system⟩ =
      (.error (.mapFailed 0 invalidArgument), ⟨limit, .mapping false system⟩) := by
  simp only [reserve, h, if_true]

/-- The system refuses. -/
private theorem reserve_of_refused (h : wholePages system.pageSize limit ≠ 0) {errno : Int}
    {later : List Int} (hr : system.refusals = errno :: later) :
    reserve ⟨limit, .mapping false system⟩ =
      (.error (.mapFailed (wholePages system.pageSize limit) errno),
        ⟨limit, .mapping false { system with refusals := later }⟩) := by
  simp only [reserve, h, hr, if_false]

/-- The system grants whole pages. -/
private theorem reserve_of_granted (h : wholePages system.pageSize limit ≠ 0)
    (hr : system.refusals = []) :
    reserve ⟨limit, .mapping false system⟩ =
      (.ok (), ⟨wholePages system.pageSize limit, .mapping true system⟩) := by
  simp only [reserve, h, hr, if_false]

end Mapping

/-- The error with which `size` bytes do not grow by `increment`, none if they do. -/
def refuse? (b : Bounds) (size increment : Nat) : Option GrowthError :=
  match b.reserve.1 with
  | .error e => some e
  | .ok () =>
      let spare := b.reserve.2.limit - size
      if spare < increment then some (.exhausted increment spare) else none

/-- What is not refused is granted, and lies within the limit. -/
theorem refuse?_eq_none {b : Bounds} {size increment : Nat} :
    b.refuse? size increment = none ↔
      b.reserve.1 = .ok () ∧ increment ≤ b.reserve.2.limit - size := by
  rw [refuse?]
  cases b.reserve.1 with
  | error e => exact ⟨nofun, fun h => nomatch h.1⟩
  | ok u =>
      dsimp only
      split
      · next hspare => exact ⟨nofun, fun h => absurd h.2 (Nat.not_le.2 hspare)⟩
      · next hspare => exact ⟨fun _ => ⟨rfl, Nat.le_of_not_lt hspare⟩, fun _ => rfl⟩

end Bounds

/-- Reserving looks at the bounds only. -/
private theorem reserve_eq (r : Region) :
    reserve r = .ok r.bounds.reserve.1 (r.withBounds r.bounds.reserve.2) := by
  obtain ⟨m, limit, backing⟩ := r
  cases backing with
  | buffer => rfl
  | mapping mapped system =>
      cases mapped with
      | true => rfl
      | false =>
          show reserve _ = .ok (Bounds.reserve ⟨limit, .mapping false system⟩).1 _
          by_cases hzero : wholePages system.pageSize limit = 0
          · rw [bounds, Bounds.reserve_of_empty hzero, reserve, Step.bind_of_ok (Step.get_apply _)]
            simp only [hzero, if_true]
            rfl
          cases hrefusals : system.refusals with
          | cons errno later =>
              rw [bounds, Bounds.reserve_of_refused hzero hrefusals, reserve,
                Step.bind_of_ok (Step.get_apply _)]
              simp only [hzero, hrefusals, if_false]
              rfl
          | nil =>
              rw [bounds, Bounds.reserve_of_granted hzero hrefusals, reserve,
                Step.bind_of_ok (Step.get_apply _)]
              simp only [hzero, hrefusals, if_false]
              rfl

/-- A region that is ready has nothing to reserve. -/
theorem Ready.reserve_eq (h : r.Ready) : r.bounds.reserve = (.ok (), r.bounds) := by
  obtain ⟨m, limit, backing⟩ := r
  cases backing with
  | buffer => rfl
  | mapping mapped system =>
      cases mapped with
      | true => rfl
      | false => exact absurd rfl (h.present system)

/-- A region that is ready refuses what lies beyond its limit. -/
theorem Ready.refuse?_eq (h : r.Ready) (increment : Nat) :
    r.bounds.refuse? r.size increment =
      if r.limit - r.size < increment then some (.exhausted increment (r.limit - r.size))
      else none := by
  rw [Bounds.refuse?, h.reserve_eq]
  rfl

/-- Reserving keeps a sound region sound. Once it succeeds the region is ready. -/
theorem Sound.reserve (h : r.Sound) : (r.withBounds r.bounds.reserve.2).Sound ∧
    (r.bounds.reserve.1 = .ok () → (r.withBounds r.bounds.reserve.2).Ready) := by
  by_cases hr : r.Ready
  · rw [hr.reserve_eq]
    exact ⟨h, fun _ => hr⟩
  obtain ⟨m, limit, backing⟩ := r
  cases backing with
  | buffer => exact absurd ⟨h.size_le, h.limit_le, nofun⟩ hr
  | mapping mapped system =>
      cases mapped with
      | true => exact absurd ⟨h.size_le, h.limit_le, nofun⟩ hr
      | false =>
          have empty : m.size = 0 := h.absent system rfl
          have hle := wholePages_le system limit
          by_cases hzero : wholePages system.pageSize limit = 0
          · rw [bounds, Bounds.reserve_of_empty hzero]
            exact ⟨h, nofun⟩
          cases hrefusals : system.refusals with
          | cons errno later =>
              rw [bounds, Bounds.reserve_of_refused hzero hrefusals]
              exact ⟨⟨h.size_le, h.limit_le, fun _ _ => empty, h.aligned⟩, nofun⟩
          | nil =>
              have hs : m.size ≤ wholePages system.pageSize limit := empty ▸ Nat.zero_le _
              rw [bounds, Bounds.reserve_of_granted hzero hrefusals]
              exact ⟨⟨hs, hle, nofun, h.aligned⟩, fun _ => ⟨hs, hle, nofun⟩⟩

/-! ## Growing -/

/-- **GROWING** reads no byte: whether it moves the end, and with which error it fails otherwise,
follows from the bounds and from the number of the bytes. -/
theorem grow_eq (increment : Nat)
    (h : r.bounds.reserve.1 = .ok () → r.size ≤ r.bounds.reserve.2.limit) :
    grow increment r =
      match r.bounds.refuse? r.size increment with
      | some e => .ok (.error e) (r.withBounds r.bounds.reserve.2)
      | none => .ok (.ok r.size)
          { r.withBounds r.bounds.reserve.2 with memory := r.memory.grow increment } := by
  rw [grow, Step.bind_of_ok (reserve_eq r), Bounds.refuse?]
  cases hreserve : r.bounds.reserve.1 with
  | error e => rfl
  | ok u =>
      have hsub : Size.sub (r.withBounds r.bounds.reserve.2).limit
          (r.withBounds r.bounds.reserve.2).size = .ok (r.bounds.reserve.2.limit - r.size) :=
        Size.sub_eq_ok (h hreserve)
      dsimp only
      rw [Step.bind_of_ok (Step.get_apply _), Step.bind_of_ok (Step.lift_of_ok hsub _)]
      by_cases hspare : r.bounds.reserve.2.limit - r.size < increment
      · rw [if_pos hspare, if_pos hspare]
        rfl
      · rw [if_neg hspare, if_neg hspare]
        rfl

/-- **GROWING A READY REGION** either moves its end or changes nothing at all. -/
theorem grow_of_ready (h : r.Ready) (increment : Nat) :
    grow increment r =
      if r.limit - r.size < increment then
        .ok (.error (.exhausted increment (r.limit - r.size))) r
      else .ok (.ok r.size) { r with memory := r.memory.grow increment } := by
  have hgrow := grow_eq (r := r) increment fun _ => by
    rw [h.reserve_eq]
    exact h.size_le
  rw [h.refuse?_eq, h.reserve_eq] at hgrow
  by_cases hspare : r.limit - r.size < increment
  · rw [if_pos hspare] at hgrow ⊢
    exact hgrow
  · rw [if_neg hspare] at hgrow ⊢
    exact hgrow

/-- The region grants so many bytes more when it is asked for them. -/
def canGrow (r : Region) (increment : Nat) : Bool :=
  match grow increment r with
  | .ok (.ok _) _ => true
  | _ => false

/-- A ready region grants what lies within its limit. -/
theorem Ready.canGrow_eq (h : r.Ready) (increment : Nat) :
    r.canGrow increment = decide (increment ≤ r.limit - r.size) := by
  rw [canGrow, grow_of_ready h]
  by_cases hspare : r.limit - r.size < increment
  · rw [if_pos hspare, decide_eq_false (Nat.not_le.2 hspare)]
  · rw [if_neg hspare, decide_eq_true (Nat.le_of_not_lt hspare)]

/-- A region that has grown within its limit is still ready. -/
theorem Ready.grow {increment : Nat} (h : r.Ready) (hi : increment ≤ r.limit - r.size) :
    Ready { r with memory := r.memory.grow increment } := by
  refine ⟨?_, h.limit_le, h.present⟩
  have := h.size_le
  show r.size + increment ≤ r.limit
  omega

/-- Growing a sound region fails and leaves its memory alone, or makes it ready and moves its
end. -/
theorem Sound.grow {increment : Nat} (h : r.Sound) (h8 : increment % 8 = 0) :
    (grow increment).Ensures r fun answer r' =>
      r'.Sound ∧ r'.bounds = r.bounds.reserve.2 ∧
      match r.bounds.refuse? r.size increment with
      | some e => answer = .error e ∧ r'.memory = r.memory
      | none => answer = .ok r.size ∧ r'.memory = r.memory.grow increment ∧ r'.Ready := by
  obtain ⟨hsound, hready⟩ := h.reserve
  have hgrow := grow_eq (r := r) increment fun hok => (hready hok).size_le
  cases hrefuse : r.bounds.refuse? r.size increment with
  | some e =>
      rw [hrefuse] at hgrow
      exact .of_ok hgrow ⟨hsound, rfl, rfl, rfl⟩
  | none =>
      rw [hrefuse] at hgrow
      obtain ⟨hreserve, hspare⟩ := Bounds.refuse?_eq_none.1 hrefuse
      have hgrown := (hready hreserve).grow hspare
      refine .of_ok hgrow ⟨hgrown.sound ?_, rfl, rfl, rfl, hgrown⟩
      show (r.size + increment) % 8 = 0
      have := h.aligned
      omega

/-- A region grows twice just if it grows by as much at once. -/
theorem Sound.refuse?_add (h : r.Sound) (first second : Nat) :
    r.bounds.refuse? r.size (first + second) = none ↔
      r.bounds.refuse? r.size first = none ∧
        r.bounds.reserve.2.refuse? (r.size + first) second = none := by
  simp only [Bounds.refuse?_eq_none]
  cases hreserve : r.bounds.reserve.1 with
  | error e => exact ⟨fun h => (nomatch h.1), fun h => (nomatch h.1.1)⟩
  | ok u =>
      have hready := h.reserve.2 hreserve
      have hagain : r.bounds.reserve.2.reserve = (.ok (), r.bounds.reserve.2) := hready.reserve_eq
      have hle : r.size ≤ r.bounds.reserve.2.limit := hready.size_le
      rw [hagain]
      simp only [true_and]
      omega

/-- What growing answers tells what is refused. -/
theorem Sound.grow_eq_ok_iff (h : r.Sound) (increment : Nat) :
    (∃ r', Region.grow increment r = .ok (.ok r.size) r') ↔
      r.bounds.refuse? r.size increment = none := by
  rw [grow_eq increment fun hok => (h.reserve.2 hok).size_le]
  cases r.bounds.refuse? r.size increment with
  | none => exact ⟨fun _ => rfl, fun _ => ⟨_, rfl⟩⟩
  | some e => exact ⟨fun ⟨_, h⟩ => (nomatch h), nofun⟩

end Region

/-- The heap with another region. -/
def Heap.withRegion {n : Nat} (h : Heap n) (r : Region) : Heap n := { h with region := r }

namespace Operation

variable {n : Nat} {run : Run n}

private theorem onRegion_eq_ok {α : Type} {x : Step Region α} {a : α} {r : Region}
    (h : x run.heap.region = .ok a r) :
    onRegion x run = .ok a ⟨run.heap.withRegion r, run.journal⟩ :=
  Step.zoom_of_ok h

/-- Growing the region of a heap is growing the region, and may report a mapping. -/
theorem ensures_grow {increment : Nat} {mid : Except GrowthError Nat → Region → Prop}
    (h : (Region.grow increment).Ensures run.heap.region mid) :
    (grow increment).Ensures run fun answer run' => ∃ r journal,
      run' = ⟨run.heap.withRegion r, journal⟩ ∧ mid answer r ∧
        Quiet run.journal journal := by
  obtain ⟨answer, r, hg, hm⟩ := h
  refine ensures_heap (Step.Ensures.bind_ok (onRegion_eq_ok hg) (ensures_heap ?_))
  show Step.Ensures (recordIf (!run.heap.region.mapped && r.mapped) (.reserved r.limit) >>=
    fun _ => pure answer) _ _
  cases !run.heap.region.mapped && r.mapped with
  | false => exact .bind_ok rfl (.pure ⟨r, _, rfl, hm, .refl _⟩)
  | true => exact .bind_ok rfl (.pure ⟨r, _, rfl, hm, (Quiet.refl _).record (by rintro ⟨⟩)⟩)

/-- Nothing is reported where the backing stays what it was. -/
private theorem grow_eq_ok {increment : Nat} {answer : Except GrowthError Nat} {r : Region}
    (h : Region.grow increment run.heap.region = .ok answer r)
    (hr : r.backing = run.heap.region.backing) :
    grow increment run = .ok answer ⟨run.heap.withRegion r, run.journal⟩ := by
  have quiet : (!run.heap.region.mapped && r.mapped) = false := by
    simp only [Region.mapped, hr, Bool.not_and_self]
  rw [grow, Step.bind_of_ok (heap_eq_ok run), Step.bind_of_ok (onRegion_eq_ok h),
    Step.bind_of_ok (heap_eq_ok _)]
  show (recordIf (!run.heap.region.mapped && r.mapped) (.reserved r.limit) >>=
    fun _ => pure answer) _ = _
  rw [quiet]
  rfl

/-- **GROWING A HEAP** whose region is ready leaves the run as it was when it fails. -/
theorem grow_of_ready (h : run.heap.region.Ready) (increment : Nat) :
    grow increment run =
      if run.heap.region.limit - run.heap.size < increment then
        .ok (.error (.exhausted increment (run.heap.region.limit - run.heap.size))) run
      else .ok (.ok run.heap.size) ⟨run.heap.withMemory (run.heap.memory.grow increment),
        run.journal⟩ := by
  have hg := Region.grow_of_ready h increment
  by_cases hi : run.heap.region.limit - run.heap.size < increment
  · rw [if_pos hi]
    exact grow_eq_ok (hg.trans (if_pos hi)) rfl
  · rw [if_neg hi]
    exact grow_eq_ok (hg.trans (if_neg hi)) rfl

end Operation

end TagHeap
