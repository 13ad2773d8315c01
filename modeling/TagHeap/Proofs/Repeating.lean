import TagHeap.Proofs.Snugness

/-!
# Repeating a request

A block that is given the size again that it was last given stays where it is, and so does every
byte of the heap (`Reachable.reallocate_again`). The request is served as one for a smaller block,
which writes both tags of the block. It changes nothing for two reasons: the block is snug, so
nothing is split off from it, however much room there may be behind it by now, and the tags that are
written are those that are there.
-/

namespace TagHeap

open Layout Operation Step

variable {n : Nat} {h : Heap n} {live : Live} {b : Block} {size : Nat}

/-- The two heaps cannot be told apart: their memories have one size and the same bytes at all
places, and all else is equal. -/
def Heap.ReadsAs (h h' : Heap n) : Prop :=
  ∃ m, h' = h.withMemory m ∧ h.memory.Agrees (fun _ => True) m

variable [HasClass n]

/-! ## The sizes of a client's blocks -/

/-- A request for no bytes is not answered with a block. -/
theorem Heap.answer_of_zero {b? answer : Option Block}
    (hanswer : ((reallocate b? 0).on h).result = .ok answer) : answer = none := by
  cases b? with
  | none => exact (Except.ok.inj hanswer).symm
  | some b =>
      rw [reallocate, if_pos rfl, on] at hanswer
      cases hfree : free (some b) ⟨h, []⟩ with
      | ok _ run =>
          rw [Step.bind_of_ok hfree] at hanswer
          exact (Except.ok.inj hanswer).symm
      | error e run =>
          rw [Step.bind_of_error hfree] at hanswer
          cases hanswer

/-- A client has no block of size zero. -/
theorem Reachable.size_pos (hr : Reachable h live) : ∀ e ∈ live, 0 < e.2 := by
  induction hr with
  | buffer capacity settings => exact nofun
  | mapping reservation system settings => exact nofun
  | @step h live request answer _ _ hanswer ih =>
      cases request with
      | layOut => exact nofun
      | allocate size =>
          cases answer with
          | none => exact ih
          | some b =>
              have hsize : size ≠ 0 := by
                rintro rfl
                cases hanswer
              exact List.forall_mem_cons.2 ⟨Nat.pos_of_ne_zero hsize, ih⟩
      | free b? => exact fun e he => ih e (Live.mem_without.1 he).1
      | reallocate b? size =>
          have hothers : ∀ e ∈ live.without b?, 0 < e.2 := fun e he =>
            ih e (Live.mem_without.1 he).1
          cases answer with
          | none =>
              rw [Live.after]
              split
              · exact hothers
              · exact ih
          | some b =>
              have hsize : size ≠ 0 := by
                rintro rfl
                cases Heap.answer_of_zero hanswer
              exact List.forall_mem_cons.2 ⟨Nat.pos_of_ne_zero hsize, hothers⟩
      | write b position bytes => exact ih

namespace Heap

variable {run : Run n} {p : Block} {pre post : List Extent} {x : Extent} {need : Nat}

/-- A block from which nothing can be split off is occupied by writing the tags that it has. -/
theorem Shaped.occupy_rewrites (g : run.heap.Shaped p (pre ++ x :: post)) (hx : x.allocated = true)
    (hb : b.offset = x.offset) (hle : need ≤ x.size) (hfew : x.size - need < Size.minBlock) :
    (occupy b x.size need).Ensures run fun _ run' => run.heap.ReadsAs run'.heap := by
  obtain ⟨-, hin, ht⟩ := g.gap hx
  have hmake : Tag.make x.size true = .ok x.tag := by
    rw [Extent.tag, hx]
    exact Tag.make_eq_ok hin.aligned hin.size_le true
  refine .lift (Size.sub_eq_ok hle) ?_
  rw [if_pos hfew]
  refine .lift hmake ((ensures_onMemory (.of_eq_ok (hin.writeTags_eq_ok hb))).mono ?_)
  rintro _ _ ⟨m, rfl, rfl⟩
  have hlarge : 16 ≤ x.size := hin.large
  have hfooter : (run.heap.memory.setWord (x.offset - 4) x.tag.word).word (x.offset + x.size - 8) =
      x.tag.word := by
    rw [Memory.word_setWord_of_disjoint (by omega), ht.footer]
  exact ⟨_, rfl, (Memory.Agrees.setWord_self ht.header).trans (.setWord_self hfooter)⟩

/-- **SHRINKING** a block by too little for a block of its own leaves the heap as it was. -/
theorem Shaped.reallocate_rewrites (g : run.heap.Shaped p (pre ++ x :: post))
    (hx : x.allocated = true) (hb : b.offset = x.offset) (hsize : size ≠ 0)
    (hneed : Size.ofRequest? size = some need) (hle : need ≤ x.size)
    (hfew : x.size - need < Size.minBlock) :
    (reallocate (some b) size).Ensures run fun answer run' =>
      answer = some b ∧ run.heap.ReadsAs run'.heap := by
  obtain ⟨-, hin, ht⟩ := g.gap hx
  obtain ⟨hmin, h8, -⟩ := Size.ofRequest?_eq_some hneed
  have hresize : (resize ⟨b, x.size, need, size⟩).Ensures run fun answer run' =>
      answer = some b ∧ run.heap.ReadsAs run'.heap ∧ ∃ ys, run'.heap.Shaped p ys := by
    rw [resize, if_pos hle]
    refine .bind ((shrink_ensures g hx hb hmin h8 hle).and (g.occupy_rewrites hx hb hle hfew)) ?_
    rintro _ run' ⟨⟨g', -⟩, hsame⟩
    exact ensures_record (.pure ⟨rfl, hsame, _, g'⟩)
  rw [reallocate, if_neg hsize, hneed]
  refine ensures_inspect (hin.size_eq_ok hb ht.header) (.bind hresize ?_)
  rintro _ run' ⟨rfl, hsame, ys, g'⟩
  exact .bind_ok (selfAudit_eq_ok g' _) (.pure ⟨rfl, hsame⟩)

end Heap

/-- A block that a client has is snug in a heap in shape. -/
theorem Reachable.snug_block (hr : Reachable h live) (hb : (b, size) ∈ live) :
    ∃ p pre x post need, h.Shaped p (pre ++ x :: post) ∧ x.allocated = true ∧
      b.offset = x.offset ∧ Size.ofRequest? size = some need ∧
      (x.size = need ∨ x.size = need + Size.granule) := by
  obtain ⟨o, ho, hs⟩ := hr.snug
  obtain ⟨p, xs, g, -⟩ := hr.serves.shaped_of_mem hb
  obtain ⟨x, hx, hxb, need, hneed, hsize⟩ := hs _ hb
  rw [Outline.layout, ho.content_eq g] at hx
  obtain ⟨hmem, hu⟩ := mem_used.1 hx
  obtain ⟨pre, post, rfl⟩ := List.append_of_mem hmem
  exact ⟨p, pre, x, post, need, g, hu, hxb.symm, hneed, hsize⟩

/-- **REPEATING A REQUEST** changes nothing. In every run, a block of the client that is given the
size again that it was last given stays where it is, and the heap is what it was: the same bytes,
the same prologue and the same lists. -/
theorem Reachable.reallocate_again (hr : Reachable h live) (hb : (b, size) ∈ live) :
    ((Heap.reallocate (some b) size).on h).result = .ok (some b) ∧
      h.ReadsAs ((Heap.reallocate (some b) size).on h).state := by
  obtain ⟨p, pre, x, post, need, g, hx, hbx, hneed, hsnug⟩ := hr.snug_block hb
  have g' : (Run.mk h []).heap.Shaped p (pre ++ x :: post) := g
  have hpos := hr.size_pos _ hb
  have hbounds : need ≤ x.size ∧ x.size - need < Size.minBlock := by
    simp only [Size.granule, Size.minBlock] at *
    omega
  obtain ⟨answer, _, hresult, rfl, hsame⟩ := on_of_ensures
    (g'.reallocate_rewrites hx hbx (Nat.ne_of_gt hpos) hneed hbounds.1 hbounds.2)
  exact ⟨hresult, hsame⟩

/-- The lower block has a granule more than its 32 payload bytes need, and asking for them again does
not take it away. -/
theorem reallocate_again_twoBlocks :
    let h := ((Heap.reallocate (some ⟨4032, by decide⟩) 32).on twoBlocks).state
    ((Heap.reallocate (some ⟨4032, by decide⟩) 32).on h).result = .ok (some ⟨4032, by decide⟩) ∧
      h.ReadsAs ((Heap.reallocate (some ⟨4032, by decide⟩) 32).on h).state := by
  have hresult : ((Heap.reallocate (some ⟨4032, by decide⟩) 32).on twoBlocks).result =
      .ok (some ⟨4032, by decide⟩) := rfl
  have hr := reachable_twoBlocks.step (allowed_twoBlocks 32) hresult
  exact hr.reallocate_again (List.mem_cons_self ..)

end TagHeap
