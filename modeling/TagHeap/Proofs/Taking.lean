import TagHeap.Heap.Resize
import TagHeap.Proofs.Allocation

/-!
# Growing a block where it is

The four attempts to give a block more room without moving it far: over its next neighbour, past the
end of the heap, over its previous neighbour, over both. Each of them either does what its name says
or leaves the run as it was, reports apart.

Where the payload moves down, its old and its new place may overlap, and the tags that are written
last may fall on the old one. What saves the bytes is the order: they are all read before any is
written, and all moved before any tag is (`Heap.ensures_moveDown`).
-/

namespace TagHeap

open Layout Operation Step

/-- **MOVING** bytes inside the memory: all are read before any is written. -/
theorem Memory.move_eq_ok {m : Memory} (source count target : Nat) (fits : m.size < Size.bound)
    (hs : source + count ≤ m.size) (ht : target + count ≤ m.size) :
    move source count target m = .ok () (m.store target (m.extract source count)) := by
  have hread : m.readBytes source count = .ok (m.extract source count) := by
    rw [readBytes, bind_of_ok (Size.add_eq_ok (by omega)), if_pos hs]
  have hinspect : Step.inspect (·.readBytes source count) m = .ok (m.extract source count) m :=
    Step.inspect_of_ok hread
  rw [move, Step.bind_of_ok hinspect, Step.bind_of_ok (Step.get_apply m), if_pos ht]
  rfl

theorem Memory.byte_moved {m : Memory} {source count target i : Nat} (hi : i < count) :
    (m.store target (m.extract source count)).byte (target + i) = m.byte (source + i) := by
  rw [byte_store, dif_pos (by rw [length_extract]; omega), getElem_extract, Nat.add_sub_cancel_left]

/-- The growth is asked of the block `x`, which is too small for it. -/
structure Growth.IsFor (growth : Growth) (x : Extent) : Prop where
  block : growth.block.offset = x.offset
  oldSize : growth.oldSize = x.size
  need : Size.ofRequest? growth.requested = some growth.newSize
  grows : x.size < growth.newSize

/-- A block that grows keeps all of its payload. -/
theorem Growth.IsFor.kept_eq_ok {growth : Growth} {x : Extent} (h : growth.IsFor x)
    (hmin : Size.minBlock ≤ x.size) (h8 : x.size % 8 = 0) : growth.kept = .ok (x.size - 8) := by
  have hlarge : 16 ≤ x.size := hmin
  have hmore : x.size - 8 ≤ growth.requested := by
    by_contra hlt
    have hr : growth.requested + 8 ≤ x.size := by omega
    exact absurd (Size.ofRequest?_le h.need hmin h8 hr) (Nat.not_le.2 h.grows)
  have hsub : Size.sub growth.oldSize Size.overhead = .ok (x.size - 8) := by
    rw [h.oldSize]
    exact Size.sub_eq_ok (by simp only [Size.overhead]; omega)
  rw [Growth.kept, bind_of_ok hsub, Nat.min_eq_left hmore]
  rfl

variable {n : Nat}

variable [HasClass n]

namespace Heap

variable {run : Run n} {p : Block} {pre post : List Extent} {x : Extent} {growth : Growth}

/-- The payload bytes of a block of `size` bytes at `o`. -/
def InPayload (o size i : Nat) : Prop := o ≤ i ∧ i + 8 < o + size

/-- **OVER THE NEXT BLOCK.** -/
theorem takeNext_ensures (g : run.heap.Shaped p (pre ++ x :: post)) (hx : x.allocated = true)
    (h : growth.IsFor x) :
    (takeNext growth).Ensures run fun answer run' =>
      match answer with
      | none => run' = run ∧ (StartsUsed post ∨
          ∃ y ys, post = y :: ys ∧ y.allocated = false ∧ x.size + y.size < growth.newSize)
      | some b => b = growth.block ∧ ∃ y ys, post = y :: ys ∧ y.allocated = false ∧
          growth.newSize ≤ x.size + y.size ∧
          run'.heap.Shaped p
            (merge (pre ++ occupied x.offset (x.size + y.size) growth.newSize ++ ys)) ∧
          run.Spares (fun i => Held p (pre ++ post) i ∨ InPayload x.offset x.size i) run' := by
  obtain ⟨hmin, h8, -, -⟩ := Size.ofRequest?_eq_some h.need
  obtain ⟨g₁, hin, ht⟩ := g.gap hx
  obtain ⟨w, hw, hwo⟩ := hin.next_eq_ok h.block ht.header
  have short := size_lt_bound hin.size_lt
  have hgap := g₁.around.bounds
  refine ensures_inspect hw ?_
  rcases g₁.inOrder.behind hwo with ⟨hu, hstarts⟩ | ⟨y, ys, rfl, hy, hwy, hu⟩
  · refine ensures_inspect hu ?_
    exact .pure ⟨rfl, .inl hstarts⟩
  · refine ensures_inspect hu ?_
    have hyin := g₁.inOrder.within (x := y) (by simp)
    have hyo : y.offset = x.offset + x.size := g₁.around.after.1
    have hystop := hyin.stop_le
    have hsize := g₁.size_eq_ok (x := y) (by simp) hwy
    rw [if_neg nofun]
    refine ensures_inspect hsize ?_
    rw [h.oldSize]
    refine .lift (Size.add_eq_ok (by omega)) ?_
    by_cases hfew : x.size + y.size < growth.newSize
    · rw [if_pos hfew]
      exact .pure ⟨rfl, .inr ⟨y, ys, rfl, hy, hfew⟩⟩
    · rw [if_neg hfew]
      have hle := Nat.le_of_not_lt hfew
      refine .bind (g₁.delist_next hy hwy) ?_
      rintro _ run₁ ⟨g₂, hk₁⟩
      refine .bind (occupy_ensures g₂ hmin h8 hle h.block) ?_
      rintro _ run₂ ⟨g₃, hk₂⟩
      have hfit := le_fitted hle
      have hgrows := h.grows
      have hk₁ := hk₁.mono (k := fun i => Held p (pre ++ y :: ys) i ∨ InPayload x.offset x.size i)
        fun i hi => by
          rcases hi with hi | ⟨h1, h2⟩
          · exact g₂.around.offLinks_of_held (hi.drop hy)
          · exact g₂.around.offLinks_of_gap (by omega) (by omega)
      have hk₂ := hk₂.mono (k := fun i => Held p (pre ++ y :: ys) i ∨ InPayload x.offset x.size i)
        fun i hi => by
          rcases hi with hi | ⟨h1, h2⟩
          · exact .inl (hi.drop hy)
          · exact .inr ⟨h1, by omega⟩
      exact ensures_record (.pure ⟨rfl, y, ys, rfl, hy, hle, g₃, (hk₁.trans hk₂).record nofun⟩)

/-- **PAST THE END.** -/
theorem stretchAtEnd_ensures (g : run.heap.Shaped p (pre ++ x :: post)) (hx : x.allocated = true)
    (h : growth.IsFor x) :
    (stretchAtEnd growth).Ensures run fun answer run' =>
      match answer with
      | none => run.Idle run' ∧
          (post ≠ [] ∨ ¬ run.heap.Fits (growth.newSize - growth.oldSize))
      | some b => b = growth.block ∧ post = [] ∧
          run.heap.Fits (growth.newSize - growth.oldSize) ∧
          run'.heap.Shaped p (pre ++ [⟨x.offset, growth.newSize, true⟩]) ∧
          run.Spares (fun i => Held p (pre ++ post) i ∨ InPayload x.offset x.size i) run' := by
  obtain ⟨hmin, h8, hmax, -⟩ := Size.ofRequest?_eq_some h.need
  obtain ⟨g₁, hin, ht⟩ := g.gap hx
  obtain ⟨w, hw, hwo⟩ := hin.next_eq_ok h.block ht.header
  have hgrows := h.grows
  have hin8 := hin.aligned
  have hlarge : 16 ≤ x.size := hin.large
  have hold := h.oldSize
  refine ensures_inspect hw ?_
  rcases g₁.inOrder.legible.tag_behind hwo with
    ⟨rfl, htag⟩ | ⟨y, ys, t, rfl, hyo, htag, htsize, -⟩
  · refine ensures_inspect htag ?_
    rw [if_neg (not_not_intro rfl)]
    refine .lift (Size.sub_eq_ok (by omega)) ?_
    have hgrow := Operation.grow_of_ready g.ready (growth.newSize - growth.oldSize)
    by_cases hfits : run.heap.Fits (growth.newSize - growth.oldSize)
    · rw [if_neg (Nat.not_lt_of_le hfits)] at hgrow
      refine .bind_ok hgrow ?_
      have hsum : x.size + (growth.newSize - growth.oldSize) = growth.newSize := by omega
      refine .lift (Tag.make_eq_ok h8 hmax true) (ensures_stretch (u := true) g₁ hfits hsum h8 hmin
        h.block fun run' g₂ htag' hk => ?_)
      have hshape := g₂.fill hmin h8 htag'
      refine ensures_record (.pure
        ⟨rfl, rfl, hfits, hshape, .record (hk.mono fun i hi => ?_) nofun⟩)
      rcases hi with hi | ⟨h1, h2⟩
      · have h1 := g₁.around.not_gap_of_held hi
        have h2 := g₁.around.held_lt hi
        have h3 : x.offset + x.size = run.heap.memory.size := g₁.around.after
        exact .inl (by omega)
      · exact .inr ⟨h1, Nat.lt_of_lt_of_le h2 (Nat.add_le_add_left (Nat.le_of_lt hgrows) _)⟩
    · rw [if_pos (Nat.lt_of_not_le hfits)] at hgrow
      exact .bind_ok hgrow (ensures_record (.pure
        ⟨⟨rfl, (Quiet.refl _).record (by rintro ⟨⟩)⟩, .inr hfits⟩))
  · refine ensures_inspect htag ?_
    have hyin := g₁.inOrder.within (x := y) (by simp)
    have hylarge : 16 ≤ y.size := hyin.large
    -- A block is never empty, so its tag is not the epilogue.
    have hne : t ≠ .epilogue := by
      rintro rfl
      rw [Tag.size_epilogue] at htsize
      omega
    rw [if_pos hne]
    exact .pure ⟨.refl run, .inl nofun⟩

/-- Where the payload goes that moves down inside of a gap: it arrives at the gap's first block,
whatever the two places have in common, and the tags that are written then fall on none of it. -/
theorem ensures_moveDown {β : Type} {f : Unit → Operation n β} {post' : β → Run n → Prop}
    {o total : Nat} {w : Block} (h : growth.IsFor x) (hx : Size.minBlock ≤ x.size)
    (hx8 : x.size % 8 = 0)
    (g : run.heap.Gapped p pre o total post) (hw : w.offset = o) (hle : growth.newSize ≤ total)
    (ho : o ≤ x.offset) (hend : x.offset + x.size ≤ o + total)
    (next : ∀ run', run'.heap.Shaped p (merge (pre ++ occupied o total growth.newSize ++ post)) →
      (∀ i, i + 8 < x.size →
        run'.heap.memory.byte (o + i) = run.heap.memory.byte (x.offset + i)) →
      run.Spares (Held p (pre ++ post)) run' → (f ()).Ensures run' post') :
    Ensures (copyPayload growth w >>= fun _ => occupy w total growth.newSize >>= f) run post' := by
  obtain ⟨hmin, h8, -, -⟩ := Size.ofRequest?_eq_some h.need
  have hgrows := h.grows
  have hlarge : 16 ≤ x.size := hx
  have hgap := g.around.bounds
  have hlo := g.around.prologue_le
  have short := size_lt_bound g.inOrder.size_lt
  have hmove := Memory.move_eq_ok growth.block.offset (x.size - 8) w.offset short
    (by rw [h.block]; omega) (by omega)
  have hagrees := Memory.Agrees.store run.heap.memory w.offset
    (run.heap.memory.extract growth.block.offset (x.size - 8))
  rw [Memory.length_extract] at hagrees
  have hcopy : (copyPayload growth w).Ensures run fun _ run' =>
      run'.heap.memory = run.heap.memory.store w.offset
          (run.heap.memory.extract growth.block.offset (x.size - 8)) ∧
        run'.heap.Gapped p pre o total post ∧
        run.Spares (fun i => i < w.offset ∨ w.offset + (x.size - 8) ≤ i) run' := by
    refine .lift (h.kept_eq_ok hx hx8) ((g.overwrite hmove hagrees fun i hi => ?_).mono
      fun _ _ hrun => hrun.2)
    omega
  refine .bind hcopy ?_
  rintro _ run₁ ⟨hm, g₁, hk₁⟩
  -- The tags are written around the payload of the new block, which is where the bytes are now.
  refine .bind (occupy_ensures g₁ hmin h8 hle hw) ?_
  rintro _ run₂ ⟨g₂, hk₂⟩
  have hfit := le_fitted hle
  refine next run₂ g₂ (fun i hi => ?_) ?_
  · rw [hk₂.byte (o + i) (.inr ⟨by omega, by omega⟩), hm, hw, h.block]
    exact Memory.byte_moved (by omega)
  · refine (hk₁.mono fun i hi => ?_).trans (hk₂.mono fun i hi => .inl hi)
    have := g.around.not_gap_of_held hi
    omega

/-- **OVER THE PREVIOUS BLOCK.** -/
theorem takePrevious_ensures (g : run.heap.Shaped p (pre ++ x :: post)) (hx : x.allocated = true)
    (h : growth.IsFor x) :
    (takePrevious growth).Ensures run fun answer run' =>
      match answer with
      | none => run' = run ∧ (EndsUsed pre ∨
          ∃ zs z, pre = zs ++ [z] ∧ z.allocated = false ∧ z.size + x.size < growth.newSize)
      | some b => ∃ zs z, pre = zs ++ [z] ∧ z.allocated = false ∧ z.offset = b.offset ∧
          growth.newSize ≤ z.size + x.size ∧
          run'.heap.Shaped p
            (merge (zs ++ occupied z.offset (z.size + x.size) growth.newSize ++ post)) ∧
          (∀ i, i + 8 < x.size →
            run'.heap.memory.byte (z.offset + i) = run.heap.memory.byte (x.offset + i)) ∧
          run.Spares (Held p (pre ++ post)) run' := by
  obtain ⟨g₁, hin, ht⟩ := g.gap hx
  have short := size_lt_bound hin.size_lt
  have hgap := g₁.around.bounds
  have hold := h.oldSize
  obtain ⟨w, hw, hfront⟩ := g₁.inOrder.front h.block
  refine ensures_inspect hw ?_
  rcases hfront with ⟨hu, hends⟩ | ⟨zs, z, rfl, hz, hwz, hu⟩
  · refine ensures_inspect hu ?_
    exact .pure ⟨rfl, .inl hends⟩
  · refine ensures_inspect hu ?_
    have hzo := (tiles_concat.1 g₁.around.before).2.2.2
    rw [if_neg nofun]
    refine ensures_inspect (g₁.size_eq_ok (x := z) (by simp) hwz) ?_
    rw [hold]
    refine .lift (Size.add_eq_ok (by omega)) ?_
    by_cases hfew : z.size + x.size < growth.newSize
    · rw [if_pos hfew]
      exact .pure ⟨rfl, .inr ⟨zs, z, rfl, hz, hfew⟩⟩
    · rw [if_neg hfew]
      have hle := Nat.le_of_not_lt hfew
      refine .bind (g₁.delist_previous hz hwz) ?_
      rintro _ run₁ ⟨g₂, hk₁⟩
      refine ensures_moveDown h hin.large hin.aligned g₂ hwz hle (by omega) (by omega)
        fun run₂ g₃ hbytes hk₂ => ?_
      rw [← List.append_cons]
      have hk := (hk₁.mono fun i hi => g₂.around.offLinks_of_held (Held.drop hi hz)).trans
        (hk₂.mono fun i hi => hi.drop hz)
      refine ensures_record (.pure ⟨zs, z, rfl, hz, hwz.symm, hle, g₃, fun i hi => ?_,
        hk.record nofun⟩)
      rw [hbytes i hi]
      exact hk₁.byte _ (g₂.around.offLinks_of_gap (by omega) (by omega))

/-- **OVER BOTH NEIGHBOURS.** -/
theorem takeBoth_ensures (g : run.heap.Shaped p (pre ++ x :: post)) (hx : x.allocated = true)
    (h : growth.IsFor x) :
    (takeBoth growth).Ensures run fun answer run' =>
      match answer with
      | none => run' = run ∧ (EndsUsed pre ∨ StartsUsed post ∨
          ∃ zs z y ys, pre = zs ++ [z] ∧ z.allocated = false ∧ post = y :: ys ∧
            y.allocated = false ∧ z.size + x.size + y.size < growth.newSize)
      | some b => ∃ zs z y ys, pre = zs ++ [z] ∧ z.allocated = false ∧ post = y :: ys ∧
          y.allocated = false ∧ z.offset = b.offset ∧
          growth.newSize ≤ z.size + x.size + y.size ∧
          run'.heap.Shaped p
            (merge (zs ++ occupied z.offset (z.size + x.size + y.size) growth.newSize ++ ys)) ∧
          (∀ i, i + 8 < x.size →
            run'.heap.memory.byte (z.offset + i) = run.heap.memory.byte (x.offset + i)) ∧
          run.Spares (Held p (pre ++ post)) run' := by
  obtain ⟨g₁, hin, ht⟩ := g.gap hx
  have short := size_lt_bound hin.size_lt
  have hgap := g₁.around.bounds
  have hold := h.oldSize
  obtain ⟨w, hw, hfront⟩ := g₁.inOrder.front h.block
  obtain ⟨v, hv, hvo⟩ := hin.next_eq_ok h.block ht.header
  refine ensures_inspect hw (ensures_inspect hv ?_)
  rcases hfront with ⟨hu, hends⟩ | ⟨zs, z, rfl, hz, hwz, hu⟩
  · refine ensures_inspect hu ?_
    exact .pure ⟨rfl, .inl hends⟩
  refine ensures_inspect hu ?_
  rw [if_neg nofun]
  rcases g₁.inOrder.behind hvo with ⟨hu', hstarts⟩ | ⟨y, ys, rfl, hy, hvy, hu'⟩
  · refine ensures_inspect hu' ?_
    exact .pure ⟨rfl, .inr (.inl hstarts)⟩
  refine ensures_inspect hu' ?_
  have hyin := g₁.inOrder.within (x := y) (by simp)
  have hyo : y.offset = x.offset + x.size := g₁.around.after.1
  have hystop := hyin.stop_le
  have hzo := (tiles_concat.1 g₁.around.before).2.2.2
  rw [if_neg nofun]
  refine ensures_inspect (g₁.size_eq_ok (x := z) (by simp) hwz) ?_
  rw [hold]
  refine .lift (Size.add_eq_ok (by omega)) (ensures_inspect (g₁.size_eq_ok (x := y) (by simp) hvy)
    (.lift (Size.add_eq_ok (by omega)) ?_))
  by_cases hfew : z.size + x.size + y.size < growth.newSize
  · rw [if_pos hfew]
    exact .pure ⟨rfl, .inr (.inr ⟨zs, z, y, ys, rfl, hz, rfl, hy, hfew⟩)⟩
  · rw [if_neg hfew]
    have hle := Nat.le_of_not_lt hfew
    refine .bind (g₁.delist_previous hz hwz) ?_
    rintro _ run₁ ⟨g₂, hk₁⟩
    refine .bind (g₂.delist_next hy hvy) ?_
    rintro _ run₂ ⟨g₃, hk₂⟩
    refine ensures_moveDown h hin.large hin.aligned g₃ hwz hle (by omega) (by omega)
      fun run₃ g₄ hbytes hk₃ => ?_
    rw [← List.append_cons]
    have hk := ((hk₁.mono fun i hi => g₂.around.offLinks_of_held (Held.drop hi hz)).trans
      (hk₂.mono fun i hi => g₃.around.offLinks_of_held ((Held.drop hi hz).drop hy))).trans
      (hk₃.mono fun i hi => (hi.drop hz).drop hy)
    refine ensures_record (.pure ⟨zs, z, y, ys, rfl, hz, rfl, hy, hwz.symm, hle, g₄, fun i hi => ?_,
      hk.record nofun⟩)
    rw [hbytes i hi, hk₂.byte _ (g₃.around.offLinks_of_gap (by omega) (by omega))]
    exact hk₁.byte _ (g₂.around.offLinks_of_gap (by omega) (by omega))

end Heap

end TagHeap
