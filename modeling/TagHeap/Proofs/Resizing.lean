import TagHeap.Proofs.Taking

/-!
# Resizing

What `Heap.reallocate` does to a block `x` of a heap in shape. However the block gets its new size,
`Run.Resized` holds: a block that is large enough takes the place of `x` among the blocks in use,
its payload starts with what the payload of `x` held, and no byte of any other block in use changes.

If the answer is none, the heap is EXACTLY what it was: the attempts that fail leave it alone, and
the last of them is a request that was refused. So a block that cannot be resized is one for which
no new block could have been had either.
-/

namespace TagHeap

open Layout Operation Step

variable {n : Nat} [HasClass n]

/-- The block `x`, with `pre` in front of it and `post` behind it, was given a new size of at least
`newSize` and is now the block `b`. -/
def Run.Resized (run : Run n) (p : Block) (pre : List Extent) (x : Extent) (post : List Extent)
    (newSize : Nat) (b : Block) (run' : Run n) : Prop :=
  ∃ ys y, run'.heap.Shaped p ys ∧ y.allocated = true ∧ y.offset = b.offset ∧ newSize ≤ y.size ∧
    (used ys).Perm (y :: used (pre ++ post)) ∧
    (∀ i, i + 8 < x.size → i + 8 < y.size →
      run'.heap.memory.byte (y.offset + i) = run.heap.memory.byte (x.offset + i)) ∧
    run.Spares (Held p (pre ++ post)) run'

/-- What comes before the block is resized does not matter if it is only reports. -/
theorem Run.Resized.of_idle {run run₁ run' : Run n} {p b : Block} {pre post : List Extent}
    {x : Extent} {newSize : Nat} (h : run₁.Resized p pre x post newSize b run')
    (hidle : run.Idle run₁) : run.Resized p pre x post newSize b run' := by
  obtain ⟨ys, y, g, hu, hb, hs, hperm, hbytes, hk⟩ := h
  refine ⟨ys, y, g, hu, hb, hs, hperm, fun i hi hi' => ?_, (hidle.spares _).trans hk⟩
  rw [hbytes i hi hi', hidle.heap_eq]

namespace Heap

variable {run run' : Run n} {p b : Block} {pre post pre' post' xs : List Extent} {x : Extent}
  {growth : Growth} {o total newSize : Nat}

/-- A block was resized where its new extent was occupied between the blocks that stay. -/
private theorem resized_of_occupied
    (g : run'.heap.Shaped p (merge (pre' ++ occupied o total newSize ++ post')))
    (hused : used (pre' ++ post') = used (pre ++ post)) (hb : b.offset = o) (hle : newSize ≤ total)
    (hbytes : ∀ i, i + 8 < x.size → i + 8 < fitted total newSize →
      run'.heap.memory.byte (o + i) = run.heap.memory.byte (x.offset + i))
    (hk : run.Spares (Held p (pre ++ post)) run') :
    run.Resized p pre x post newSize b run' := by
  obtain ⟨rest, hocc, hrest⟩ := occupied_eq o total newSize
  refine ⟨_, ⟨o, fitted total newSize, true⟩, g, rfl, hb.symm, le_fitted hle, ?_, hbytes, hk⟩
  have hnone : used (pre' ++ (rest ++ post')) = used (pre ++ post) := by
    rw [← hused, used_append, used_append, used_append, show used rest = [] from hrest,
      List.nil_append]
  rw [used_merge, hocc, List.append_assoc, List.cons_append, ← hnone]
  exact used_append_cons rfl pre' (rest ++ post')

/-- The owner of a block may write to its payload. -/
theorem Shaped.write {h : Heap n} {m : Memory} (g : h.Shaped p xs) (hx : x ∈ xs)
    (hu : x.allocated = true)
    (hm : h.memory.Agrees (fun i => ¬ InPayload x.offset x.size i) m) :
    (h.withMemory m).Shaped p xs := by
  obtain ⟨pre, post, rfl⟩ := List.append_of_mem hx
  obtain ⟨g₁, hin, ht⟩ := g.gap hu
  have hlarge : 16 ≤ x.size := hin.large
  have hroom := hin.room
  have g₂ := g₁.withMemory hm.size (g₁.inOrder.overwrite (hm.mono fun i hi => by
    simp only [InPayload]
    omega))
  have htag : x.Tagged m :=
    ⟨(hm.word fun j _ _ => by simp only [InPayload]; omega).trans ht.header,
      (hm.word fun j _ _ => by simp only [InPayload]; omega).trans ht.footer⟩
  have hxe : (⟨x.offset, x.size, true⟩ : Extent) = x := by rw [← hu]
  have hshape := g₂.fill hin.large hin.aligned (by rw [hxe]; exact htag)
  rwa [hxe] at hshape

/-- **SHRINKING.** A block that is large enough stays where it is. -/
theorem shrink_ensures (g : run.heap.Shaped p (pre ++ x :: post)) (hx : x.allocated = true)
    (hb : b.offset = x.offset) (hs : Size.minBlock ≤ newSize) (h8 : newSize % 8 = 0)
    (hle : newSize ≤ x.size) :
    (occupy b x.size newSize).Ensures run fun _ run' =>
      run'.heap.Shaped p (merge (pre ++ occupied x.offset x.size newSize ++ post)) ∧
        run.Resized p pre x post newSize b run' := by
  obtain ⟨g₁, -, -⟩ := g.gap hx
  refine (occupy_ensures g₁ hs h8 hle hb).mono ?_
  rintro _ run' ⟨g₂, hk⟩
  refine ⟨g₂, resized_of_occupied g₂ rfl hb hle (fun i _ hi => ?_) (hk.mono fun _ hi => .inl hi)⟩
  exact hk.byte _ (.inr ⟨by omega, by omega⟩)

/-- What an attempt to grow a block may end with, short of a refusal: it follows its plan, or there
is none. -/
private abbrev Attempted (run : Run n) (p : Block) (pre : List Extent) (x : Extent)
    (post : List Extent) (newSize : Nat) (plan : Option (Nat × List Extent))
    (answer : Option Block) (run' : Run n) : Prop :=
  match answer with
  | none => run.Idle run' ∧ plan = none
  | some b => run.Resized p pre x post newSize b run' ∧
      ∃ ys, plan = some (b.offset, ys) ∧ run'.heap.Shaped p ys

private theorem takeNext_attempted (g : run.heap.Shaped p (pre ++ x :: post))
    (hx : x.allocated = true) (h : growth.IsFor x) :
    (takeNext growth).Ensures run (Attempted run p pre x post growth.newSize
      (overNext? growth.newSize pre x post)) := by
  refine (takeNext_ensures g hx h).mono ?_
  rintro (_ | b) run'
  · rintro ⟨rfl, hreason⟩
    refine ⟨.refl run', ?_⟩
    rcases hreason with hstarts | ⟨y, ys, rfl, -, hfew⟩
    · cases post with
      | nil => rfl
      | cons y ys => exact if_neg fun hfits => Bool.eq_false_iff.1 hfits.1 (hstarts y rfl)
    · exact if_neg fun hfits => Nat.not_le.2 hfew hfits.2
  · rintro ⟨rfl, y, ys, rfl, hy, hle, g', hk⟩
    refine ⟨resized_of_occupied g' (used_append_cons_of_free hy pre ys).symm h.block hle
      (fun i hi _ => ?_) (hk.mono fun _ hi => .inl hi), _, ?_, g'⟩
    · exact hk.byte _ (.inr ⟨by omega, by omega⟩)
    · rw [overNext?, if_pos ⟨hy, hle⟩, h.block]

private theorem stretchAtEnd_attempted (g : run.heap.Shaped p (pre ++ x :: post))
    (hx : x.allocated = true) (h : growth.IsFor x) :
    (stretchAtEnd growth).Ensures run (Attempted run p pre x post growth.newSize
      (pastEnd? (run.heap.region.limit - run.heap.size) growth.newSize pre x post)) := by
  refine (stretchAtEnd_ensures g hx h).mono ?_
  rw [h.oldSize]
  rintro (_ | b) run'
  · rintro ⟨hidle, hreason⟩
    refine ⟨hidle, if_neg fun hfits => ?_⟩
    rcases hreason with hpost | hspare
    · exact hpost hfits.1
    · exact hspare hfits.2
  · rintro ⟨rfl, rfl, hfits, g', hk⟩
    refine ⟨⟨_, ⟨x.offset, growth.newSize, true⟩, g', rfl, h.block.symm, Nat.le_refl _, ?_,
      fun i hi _ => ?_, hk.mono fun _ hi => .inl hi⟩, _, ?_, g'⟩
    · exact used_append_cons rfl pre []
    · exact hk.byte _ (.inr ⟨by dsimp only; omega, by dsimp only; omega⟩)
    · rw [pastEnd?, if_pos ⟨rfl, hfits⟩, h.block]

private theorem takePrevious_attempted (g : run.heap.Shaped p (pre ++ x :: post))
    (hx : x.allocated = true) (h : growth.IsFor x) :
    (takePrevious growth).Ensures run (Attempted run p pre x post growth.newSize
      (overPrevious? growth.newSize pre x post)) := by
  refine (takePrevious_ensures g hx h).mono ?_
  rintro (_ | b) run'
  · rintro ⟨rfl, hreason⟩
    refine ⟨.refl run', ?_⟩
    rcases hreason with hends | ⟨zs, z, rfl, -, hfew⟩
    · refine Option.bind_eq_none_iff.2 fun z hz => if_neg fun hfits => ?_
      exact Bool.eq_false_iff.1 hfits.1 (hends z hz)
    · rw [overPrevious?, List.getLast?_concat]
      exact if_neg fun hfits => Nat.not_le.2 hfew hfits.2
  · rintro ⟨zs, z, rfl, hz, hzb, hle, g', hbytes, hk⟩
    refine ⟨resized_of_occupied g' ?_ hzb.symm hle (fun i hi _ => hbytes i hi) hk, _, ?_, g'⟩
    · rw [← List.append_cons, used_append_cons_of_free hz]
    · rw [overPrevious?, List.getLast?_concat, Option.bind_some, if_pos ⟨hz, hle⟩,
        List.dropLast_concat, hzb]

private theorem takeBoth_attempted (g : run.heap.Shaped p (pre ++ x :: post))
    (hx : x.allocated = true) (h : growth.IsFor x) :
    (takeBoth growth).Ensures run (Attempted run p pre x post growth.newSize
      (overBoth? growth.newSize pre x post)) := by
  refine (takeBoth_ensures g hx h).mono ?_
  rintro (_ | b) run'
  · rintro ⟨rfl, hreason⟩
    refine ⟨.refl run', ?_⟩
    rcases hreason with hends | hstarts | ⟨zs, z, y, ys, rfl, -, rfl, -, hfew⟩
    · cases post with
      | nil => rfl
      | cons y ys =>
          refine Option.bind_eq_none_iff.2 fun z hz => if_neg fun hfits => ?_
          exact Bool.eq_false_iff.1 hfits.1 (hends z hz)
    · cases post with
      | nil => rfl
      | cons y ys =>
          refine Option.bind_eq_none_iff.2 fun z _ => if_neg fun hfits => ?_
          exact Bool.eq_false_iff.1 hfits.2.1 (hstarts y rfl)
    · rw [overBoth?, List.getLast?_concat]
      exact if_neg fun hfits => Nat.not_le.2 hfew hfits.2.2
  · rintro ⟨zs, z, y, ys, rfl, hz, rfl, hy, hzb, hle, g', hbytes, hk⟩
    refine ⟨resized_of_occupied g' ?_ hzb.symm hle (fun i hi _ => hbytes i hi) hk, _, ?_, g'⟩
    · rw [← List.append_cons, used_append_cons_of_free hz, used_append_cons_of_free hy]
    · rw [overBoth?, List.getLast?_concat, Option.bind_some, if_pos ⟨hz, hy, hle⟩,
        List.dropLast_concat, hzb]

/-- What other blocks hold is none of a block's payload. -/
theorem Shaped.not_inPayload {h : Heap n} {y : Extent} {ys zs : List Extent} {i : Nat}
    (g : h.Shaped p ys) (hperm : (used ys).Perm (y :: used zs)) (hi : Held p zs i) :
    ¬ InPayload y.offset y.size i := by
  obtain ⟨hy, hyu⟩ := mem_used.1 (hperm.symm.subset (List.mem_cons_self ..))
  obtain ⟨pre, post, rfl⟩ := List.append_of_mem hy
  have hrest : (used zs).Perm (used (pre ++ post)) :=
    (List.Perm.cons_inv ((used_append_cons hyu pre post).symm.trans hperm)).symm
  intro hpay
  have := (g.gap hyu).1.around.not_gap_of_held (hi.subset hrest.subset)
  simp only [InPayload] at hpay
  omega

/-- **COPYING** the payload of one block to another that has room for it. -/
private theorem copyPayload_ensures {y : Extent} {ys : List Extent} (g : run.heap.Shaped p ys)
    (h : growth.IsFor x) (hx : x ∈ ys) (hy : y ∈ ys) (hyu : y.allocated = true)
    (hb : y.offset = b.offset) (hle : x.size ≤ y.size) :
    (copyPayload growth b).Ensures run fun _ run' =>
      run'.heap.Shaped p ys ∧
        (∀ i, i + 8 < x.size →
          run'.heap.memory.byte (y.offset + i) = run.heap.memory.byte (x.offset + i)) ∧
        run.Spares (fun i => ¬ InPayload y.offset y.size i) run' := by
  have hxin := g.inOrder.within (x := x) (by rwa [List.append_nil])
  have hyin := g.inOrder.within (x := y) (by rwa [List.append_nil])
  have hlarge : 16 ≤ x.size := hxin.large
  have hxstop := hxin.stop_le
  have hystop := hyin.stop_le
  have hmove := Memory.move_eq_ok growth.block.offset (x.size - 8) b.offset
    (size_lt_bound hyin.size_lt) (by rw [h.block]; omega) (by omega)
  have hagrees := (Memory.Agrees.store run.heap.memory b.offset
    (run.heap.memory.extract growth.block.offset (x.size - 8))).mono
    (k := fun i => ¬ InPayload y.offset y.size i) fun i hi => by
      simp only [InPayload] at hi
      rw [Memory.length_extract]
      omega
  refine .lift (h.kept_eq_ok hxin.large hxin.aligned)
    ((ensures_onMemory (.of_eq_ok hmove)).mono ?_)
  rintro _ _ ⟨m, rfl, rfl⟩
  refine ⟨g.write hy hyu hagrees, fun i hi => ?_, .of_agrees hagrees⟩
  rw [hb, ← h.block]
  exact Memory.byte_moved (by omega)

/-- The plan for moving a block away: a new one is handed out and the old one is taken back. -/
def moveAway? (h : Heap n) (pre : List Extent) (x : Extent) (post : List Extent) (need : Nat) :
    Option (Nat × List Extent) :=
  (h.serve? (pre ++ x :: post) need).map fun plan => (plan.1, takeBack x.offset plan.2)

/-- **MOVING AWAY.** A new block is handed out, the payload is copied to it, and the old one is
taken back; or the request for the new block is refused. -/
theorem moveAway_ensures (g : run.heap.Shaped p (pre ++ x :: post)) (hx : x.allocated = true)
    (h : growth.IsFor x) (hsize : growth.requested ≠ 0) :
    (moveAway growth).Ensures run fun answer run' =>
      match answer with
      | none => run.heap.Refuses (pre ++ x :: post) growth.requested ∧ run.Warned run'
      | some b => run.Resized p pre x post growth.newSize b run' ∧
          ∃ ys, run.heap.moveAway? pre x post growth.newSize = some (b.offset, ys) ∧
            run'.heap.Shaped p ys := by
  refine .bind (allocate_ensures g hsize) ?_
  rintro (_ | target) run₁
  · exact fun hnone => .pure hnone
  rintro ⟨-, ⟨ys, y, g₁, hyu, hyt, hys, hperm, hk₁⟩, need, ys', hneed', hplan, g₁'⟩
  obtain rfl := Option.some.inj (h.need.symm.trans hneed')
  obtain rfl := (g₁.unique g₁').2
  have hin := (g.gap hx).2.1
  have hgrows := h.grows
  have hxused : x ∈ used (pre ++ x :: post) := mem_used.2 ⟨by simp, hx⟩
  -- The new block is one among those of the heap, and so is still the old one.
  have hyys : y ∈ ys := (mem_used.1 (hperm.symm.subset (List.mem_cons_self ..))).1
  have hxys : x ∈ ys := (mem_used.1 (hperm.symm.subset (List.mem_cons_of_mem _ hxused))).1
  have hyin := g₁.inOrder.within (x := y) (by rwa [List.append_nil])
  have hneed := Size.ofRequest?_le h.need hyin.large hyin.aligned hys
  refine .bind (copyPayload_ensures g₁ h hxys hyys hyu hyt (by omega)) ?_
  rintro _ run₂ ⟨g₂, hmoved, hk₂⟩
  obtain ⟨pre₂, post₂, rfl⟩ := List.append_of_mem hxys
  refine .bind (free_ensures g₂ hx h.block) ?_
  rintro _ run₃ ⟨g₃, hk₃⟩
  have hused : (used (pre₂ ++ post₂)).Perm (y :: used (pre ++ post)) := by
    refine List.Perm.cons_inv (a := x) ?_
    refine (used_append_cons hx pre₂ post₂).symm.trans ?_
    exact hperm.trans (((used_append_cons hx pre post).cons y).trans (.swap ..))
  have hy₂ : y ∈ pre₂ ++ post₂ := (mem_used.1 (hused.symm.subset (List.mem_cons_self ..))).1
  -- The blocks that stay are spared by all three steps.
  have held₁ : ∀ i, Held p (pre ++ post) i → Held p (pre ++ x :: post) i := fun i hi =>
    hi.subset fun z hz => (used_append_cons hx pre post).symm.subset (List.mem_cons_of_mem _ hz)
  have held₃ : ∀ i, Held p (pre ++ post) i → Held p (pre₂ ++ post₂) i := fun i hi =>
    hi.subset fun z hz => hused.symm.subset (List.mem_cons_of_mem _ hz)
  have hk := ((hk₁.mono held₁).trans
    (hk₂.mono fun i hi => g₁.not_inPayload hperm (held₁ i hi))).trans (hk₃.mono held₃)
  refine .lift (h.kept_eq_ok hin.large hin.aligned) (ensures_record (.pure
    ⟨⟨_, y, g₃, hyu, hyt, hneed, ?_, ?_, hk.record nofun⟩, _, ?_, g₃⟩))
  · rw [used_merge, used_append_cons_of_free rfl]
    exact hused
  · intro i hi hi'
    have hcovers : y.Covers (y.offset + i) := ⟨by omega, by omega⟩
    have hcovers' : x.Covers (x.offset + i) := ⟨by omega, by omega⟩
    rw [hk₃.byte _ (.inr ⟨y, hy₂, hyu, hcovers⟩), hmoved i hi,
      hk₁.byte _ (.inr ⟨x, by simp, hx, hcovers'⟩)]
  · rw [moveAway?, hplan, Option.map_some, g₂.around.before.takeBack_eq]

/-- Attempts are made one after the other, until one yields a block. Those before it left no trace.
-/
private theorem firstBlock_ensures {attempt : Operation n (Option Block)}
    {rest : List (Operation n (Option Block))} {size : Nat} {plan later : Option (Nat × List Extent)}
    (ha : attempt.Ensures run (Attempted run p pre x post newSize plan))
    (hrest : ∀ run₁, run.Idle run₁ → (firstBlock rest).Ensures run₁ fun answer run' =>
      match answer with
      | none => run₁.heap.Refuses xs size ∧ run₁.Warned run' ∧ later = none
      | some b => run₁.Resized p pre x post newSize b run' ∧
          ∃ ys, later = some (b.offset, ys) ∧ run'.heap.Shaped p ys) :
    (firstBlock (attempt :: rest)).Ensures run fun answer run' =>
      match answer with
      | none => run.heap.Refuses xs size ∧ run.Warned run' ∧ plan.or later = none
      | some b => run.Resized p pre x post newSize b run' ∧
          ∃ ys, plan.or later = some (b.offset, ys) ∧ run'.heap.Shaped p ys := by
  refine .bind ha ?_
  rintro (_ | b) run₁ h
  · obtain ⟨hidle, rfl⟩ := h
    refine (hrest run₁ hidle).mono ?_
    rintro (_ | b) run' h'
    · exact ⟨hidle.heap_eq ▸ h'.1, hidle.warned h'.2.1, h'.2.2⟩
    · exact ⟨h'.1.of_idle hidle, h'.2⟩
  · obtain ⟨hresized, ys, rfl, g'⟩ := h
    exact .pure ⟨hresized, ys, rfl, g'⟩

/-- The plan for giving a block the size `need`. -/
def resize? (h : Heap n) (pre : List Extent) (x : Extent) (post : List Extent) (need : Nat) :
    Option (Nat × List Extent) :=
  Layout.resize? h.settings h.size (h.region.limit - h.size) need pre x post

/-- **RESIZING** a block gives it the new size, as planned, or refuses to and changes nothing. -/
theorem resize_ensures (g : run.heap.Shaped p (pre ++ x :: post)) (hx : x.allocated = true)
    (hb : growth.block.offset = x.offset) (hold : growth.oldSize = x.size)
    (hneed : Size.ofRequest? growth.requested = some growth.newSize)
    (hsize : growth.requested ≠ 0) :
    (resize growth).Ensures run fun answer run' =>
      match answer with
      | none => run.heap.Refuses (pre ++ x :: post) growth.requested ∧ run.Warned run' ∧
          run.heap.resize? pre x post growth.newSize = none
      | some b => run.Resized p pre x post growth.newSize b run' ∧
          ∃ ys, run.heap.resize? pre x post growth.newSize = some (b.offset, ys) ∧
            run'.heap.Shaped p ys := by
  obtain ⟨hmin, h8, -, -⟩ := Size.ofRequest?_eq_some hneed
  by_cases hle : growth.newSize ≤ growth.oldSize
  · rw [resize, if_pos hle, hold]
    rw [hold] at hle
    refine .bind (shrink_ensures g hx hb hmin h8 hle) ?_
    rintro _ run' ⟨g', h⟩
    have hplan : run.heap.resize? pre x post growth.newSize = some (growth.block.offset,
        merge (pre ++ occupied x.offset x.size growth.newSize ++ post)) := by
      rw [resize?, Layout.resize?, if_pos hle, hb]
    obtain ⟨ys, y, g'', hu, hyb, hs, hperm, hbytes, hk⟩ := h
    exact ensures_record (.pure
      ⟨⟨ys, y, g'', hu, hyb, hs, hperm, hbytes, hk.record nofun⟩, _, hplan, g'⟩)
  · rw [resize, if_neg hle]
    have h : growth.IsFor x := ⟨hb, hold, hneed, by omega⟩
    have hplan : run.heap.resize? pre x post growth.newSize =
        (overNext? growth.newSize pre x post).or
          ((pastEnd? (run.heap.region.limit - run.heap.size) growth.newSize pre x post).or
            ((overPrevious? growth.newSize pre x post).or
              ((overBoth? growth.newSize pre x post).or
                (run.heap.moveAway? pre x post growth.newSize)))) := by
      rw [resize?, Layout.resize?, if_neg (Nat.not_le.2 h.grows), grow?, Option.or_assoc,
        Option.or_assoc, Option.or_assoc]
      rfl
    rw [hplan]
    -- Every attempt starts from the same heap, because those that fail leave it alone.
    refine firstBlock_ensures (takeNext_attempted g hx h) fun run₁ h₁ => ?_
    rw [← h₁.heap_eq] at g ⊢
    refine firstBlock_ensures (stretchAtEnd_attempted g hx h) fun run₂ h₂ => ?_
    rw [← h₂.heap_eq] at g ⊢
    refine firstBlock_ensures (takePrevious_attempted g hx h) fun run₃ h₃ => ?_
    rw [← h₃.heap_eq] at g ⊢
    refine firstBlock_ensures (takeBoth_attempted g hx h) fun run₄ h₄ => ?_
    rw [← h₄.heap_eq] at g ⊢
    refine .bind (moveAway_ensures g hx h hsize) ?_
    rintro (_ | b) run' h'
    · have hmove : run₄.heap.moveAway? pre x post growth.newSize = none := by
        rw [moveAway?, h'.1.serve?_eq_none hneed, Option.map_none]
      exact .pure ⟨h'.1, h'.2, hmove⟩
    · exact .pure h'

/-- **REALLOCATING** a block in use with a size that is not zero follows the plan for it, and is
refused where there is none. -/
theorem reallocate_planned (g : run.heap.Shaped p (pre ++ x :: post)) (hx : x.allocated = true)
    (hb : b.offset = x.offset) {size : Nat} (hsize : size ≠ 0) :
    (reallocate (some b) size).Ensures run fun answer run' =>
      match answer with
      | none => run.heap.Refuses (pre ++ x :: post) size ∧ run.Warned run' ∧
          ∀ need, Size.ofRequest? size = some need → run.heap.resize? pre x post need = none
      | some b => ∃ need, Size.ofRequest? size = some need ∧
          run.Resized p pre x post need b run' ∧
          ∃ ys, run.heap.resize? pre x post need = some (b.offset, ys) ∧
            run'.heap.Shaped p ys := by
  obtain ⟨-, hin, ht⟩ := g.gap hx
  rw [reallocate, if_neg hsize]
  cases hneed : Size.ofRequest? size with
  | none =>
      have hrefuses : run.heap.Refuses (pre ++ x :: post) size := fun need h => by
        rw [hneed] at h
        exact nomatch h
      exact ensures_record (.pure ⟨hrefuses, run.warned_record rfl, nofun⟩)
  | some need =>
      refine ensures_inspect (hin.size_eq_ok hb ht.header) (.bind (resize_ensures g hx hb rfl hneed
        hsize) ?_)
      rintro (_ | b') run' h
      · refine .bind_ok (selfAudit_eq_ok (h.2.1.heap_eq ▸ g) _) (.pure ⟨h.1, h.2.1, ?_⟩)
        rintro _ ⟨⟩
        exact h.2.2
      · obtain ⟨hresized, ys, hplan, g'⟩ := h
        exact .bind_ok (selfAudit_eq_ok g' _) (.pure ⟨need, rfl, hresized, ys, hplan, g'⟩)

/-- What a block in use becomes when it is reallocated, whatever the plan for it is. -/
theorem reallocate_ensures (g : run.heap.Shaped p (pre ++ x :: post)) (hx : x.allocated = true)
    (hb : b.offset = x.offset) {size : Nat} (hsize : size ≠ 0) :
    (reallocate (some b) size).Ensures run fun answer run' =>
      match answer with
      | none => run.heap.Refuses (pre ++ x :: post) size ∧ run.Warned run'
      | some b => ∃ need, Size.ofRequest? size = some need ∧
          run.Resized p pre x post need b run' := by
  refine (reallocate_planned g hx hb hsize).mono ?_
  rintro (_ | q) run' h
  · exact ⟨h.1, h.2.1⟩
  · obtain ⟨need, hneed, hresized, -⟩ := h
    exact ⟨need, hneed, hresized⟩

end Heap

end TagHeap
