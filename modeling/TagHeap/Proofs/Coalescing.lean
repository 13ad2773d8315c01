import TagHeap.Heap.Allocate
import TagHeap.Proofs.Gaps

/-!
# Coalescing

A block that was taken back is a gap: it is on no list, and its neighbours may be free. Coalescing
lets the gap swallow its free neighbours, makes one free block of it, and puts that on its list.

What is swallowed is the RUN of free blocks that the gap lies in, which `Heap.Absorbed` names: the
blocks `as` in front of the gap and `bs` behind it. No other block is touched, and of the swallowed
ones only the links are read again, so it does not matter whether a tag has a spare bit set
(`Heap.Ajar.coalesce_ensures`). In a heap that is in order the result is `Layout.merge` of the
layout with the block marked free, whatever the neighbours were (`Heap.coalesce_ensures`). Blocks in
use keep every byte.
-/

namespace TagHeap

open Layout Operation Step

variable {n : Nat} [HasClass n]

/-- The place is in no link of a free block of the layout, and outside of `s` bytes at `o`. -/
def OffRun (xs : List Extent) (o s i : Nat) : Prop :=
  OffLinks xs i ∧ (i + 4 < o ∨ o + s ≤ i + 4)

namespace OffRun

variable {before after : List Extent} {o s i : Nat} {y : Extent}

/-- A block in the gap has its tags there. -/
theorem offTags (h : OffRun before o s i) (h1 : o ≤ y.offset) (h2 : y.offset + y.size ≤ o + s) :
    y.OffTags i := by
  have hout := h.2
  simp only [Extent.OffTags]
  omega

/-- A block in the gap has its links there, if it is free. -/
theorem offLinks_insert (h : OffRun (before ++ after) o s i) (h1 : o ≤ y.offset)
    (h2 : y.offset + y.size ≤ o + s) (hs : Size.minBlock ≤ y.size) :
    OffLinks (before ++ [y] ++ after) i := by
  intro z hz hfree
  rw [List.mem_append, List.mem_append, List.mem_singleton] at hz
  rcases hz with (hz | rfl) | hz
  · exact h.1 z (List.mem_append_left _ hz) hfree
  · have hlarge : 16 ≤ z.size := hs
    have hout := h.2
    omega
  · exact h.1 z (List.mem_append_right _ hz) hfree

end OffRun

/-- A gap of `s` bytes at `o` lies in the run of free blocks that starts with `as`, ends with `bs`,
and takes up `size` bytes from the block `w` on. Around it are blocks in use. -/
structure FreeRun (before as : List Extent) (o s : Nat) (bs after : List Extent) (w : Block)
    (size : Nat) : Prop where
  free : ∀ y ∈ as ++ bs, y.allocated = false
  endsUsed : EndsUsed before
  startsUsed : StartsUsed after
  tiles_front : Tiles w.offset as o
  tiles_behind : Tiles (o + s) bs (w.offset + size)

namespace FreeRun

variable {before as bs after : List Extent} {o s size hi i : Nat} {p w : Block}

theorem bounds (r : FreeRun before as o s bs after w size) :
    w.offset ≤ o ∧ o + s ≤ w.offset + size :=
  ⟨r.tiles_front.le, r.tiles_behind.le⟩

/-- The run with the gap in it. -/
theorem tiles (r : FreeRun before as o s bs after w size) (hs : Size.minBlock ≤ s)
    (h8 : s % 8 = 0) :
    Tiles w.offset (as ++ ⟨o, s, false⟩ :: bs) (w.offset + size) :=
  r.tiles_front.append ⟨rfl, hs, h8, r.tiles_behind⟩

/-- What is around the gap is around the run. -/
theorem around (r : FreeRun before as o s bs after w size)
    (a : Around p (before ++ as) o s (bs ++ after) hi) :
    Around p before w.offset size after hi := by
  obtain ⟨lo, hbefore, hfront⟩ := tiles_append.1 a.before
  obtain ⟨stop, hbehind, hafter⟩ := tiles_append.1 a.after
  obtain rfl := hfront.start_unique r.tiles_front
  obtain rfl := hbehind.stop_unique r.tiles_behind
  have hlo := hbefore.hi_mod (by have := a.aligned; omega)
  have hstop := hbehind.hi_mod (by have := a.offset_mod; have := a.gap; omega)
  exact
    { a with
      before := hbefore
      after := hafter
      gap := by omega
      coalesced_pre := (coalesced_append.1 a.coalesced_pre).1
      coalesced_post := (coalesced_append.1 a.coalesced_post).2.1 }

/-- The links of the blocks in a run lie in the run. -/
theorem offLinks_of_offRun (r : FreeRun before as o s bs after w size)
    (h : OffRun (before ++ after) w.offset size i) :
    OffLinks (before ++ as ++ (bs ++ after)) i := by
  obtain ⟨hoff, hout⟩ := h
  obtain ⟨hlo, hstop⟩ := r.bounds
  intro y hy hfree
  -- A block of the run lies between the ends of the run.
  have hin : ∀ {lo hi : Nat}, w.offset ≤ lo → hi ≤ w.offset + size → lo ≤ y.offset →
      y.offset + y.size ≤ hi → Size.minBlock ≤ y.size → i < y.offset ∨ y.offset + 8 ≤ i := by
    intro lo hi h1 h2 h3 h4 h5
    simp only [Size.minBlock] at h5
    omega
  rw [List.mem_append, List.mem_append, List.mem_append] at hy
  rcases hy with (hy | hy) | (hy | hy)
  · exact hoff y (List.mem_append_left _ hy) hfree
  · obtain ⟨h1, h2, h3, -⟩ := r.tiles_front.bounds hy
    exact hin (Nat.le_refl _) (by omega) h1 h2 h3
  · obtain ⟨h1, h2, h3, -⟩ := r.tiles_behind.bounds hy
    exact hin (by omega) (Nat.le_refl _) h1 h2 h3
  · exact hoff y (List.mem_append_right _ hy) hfree

/-- The blocks in use are outside of the run. -/
theorem mem_of_used {x : Extent} (r : FreeRun before as o s bs after w size)
    (hx : x ∈ before ++ as ++ (bs ++ after)) (hu : x.allocated = true) : x ∈ before ++ after := by
  rw [List.append_assoc, List.mem_append, ← List.append_assoc, List.mem_append] at hx
  rcases hx with hx | hx | hx
  · exact List.mem_append_left _ hx
  · have hfree := r.free x hx
    rw [hu] at hfree
    exact nomatch hfree
  · exact List.mem_append_right _ hx

/-- Merging makes one free block of the run. -/
theorem merge_eq (r : FreeRun before as o s bs after w size) (hs : Size.minBlock ≤ s)
    (h8 : s % 8 = 0) (hbefore : Coalesced before) (hafter : Coalesced after) :
    merge (before ++ as ++ ⟨o, s, false⟩ :: (bs ++ after)) =
      before ++ ⟨w.offset, size, false⟩ :: after := by
  have hfree : ∀ y ∈ as ++ ⟨o, s, false⟩ :: bs, y.allocated = false := by
    intro y hy
    rcases List.mem_append.mp hy with hy | hy
    · exact r.free y (List.mem_append_left _ hy)
    rcases List.mem_cons.mp hy with rfl | hy
    · rfl
    · exact r.free y (List.mem_append_right _ hy)
  have hsize : w.offset + size - w.offset = size := Nat.add_sub_cancel_left ..
  have hmerge := merge_run (r.tiles hs h8) hfree (List.append_ne_nil_of_right_ne_nil _ nofun)
    (coalesced_between hbefore hafter r.endsUsed r.startsUsed)
  rw [hsize] at hmerge
  rw [← hmerge, List.append_assoc, List.append_assoc, List.append_assoc, List.cons_append]

end FreeRun

namespace Around

variable {p : Block} {pre post : List Extent} {o s hi i : Nat}

/-- Tags are neither links nor in the gap. -/
theorem offRun_of_atTag (a : Around p pre o s post hi) (h : AtTag p (pre ++ post) hi i) :
    OffRun (pre ++ post) o s i :=
  ⟨a.offLinks_of_atTag h, a.not_gap_of_atTag h⟩

/-- Nor are the bytes of blocks in use. -/
theorem offRun_of_held (a : Around p pre o s post hi) (h : Held p (pre ++ post) i) :
    OffRun (pre ++ post) o s i :=
  ⟨a.offLinks_of_held h, a.not_gap_of_held h⟩

end Around

namespace Heap

variable {run run' : Run n} {p b w : Block} {pre post : List Extent} {o s : Nat} {x y : Extent}

/-- The gap at `o` has swallowed the run of free blocks that it lies in, and is now all of the block
`w`. -/
def Absorbed (run : Run n) (p : Block) (pre : List Extent) (o s : Nat) (post : List Extent)
    (w : Block) (size : Nat) (run' : Run n) : Prop :=
  ∃ before as bs after, pre = before ++ as ∧ post = bs ++ after ∧
    FreeRun before as o s bs after w size ∧ run'.heap.Ajar p before w.offset size after ∧
    run.Spares (OffLinks (pre ++ post)) run'

/-- The run of free blocks that the gap at `o` lay in is now the free block `w`, which carries its
tags and is on its list. Nothing was written but links of free blocks and bytes of the run. -/
def Merged (run : Run n) (p : Block) (pre : List Extent) (o s : Nat) (post : List Extent)
    (w : Block) (run' : Run n) : Prop :=
  ∃ before as bs after size, pre = before ++ as ∧ post = bs ++ after ∧
    FreeRun before as o s bs after w size ∧
    run'.heap.Ajar p (before ++ [⟨w.offset, size, false⟩]) (w.offset + size) 0 after ∧
    Extent.Tagged ⟨w.offset, size, false⟩ run'.heap.memory ∧
    run.Spares (OffRun (before ++ after) w.offset size) run'

namespace Ajar

/-- The header of a block that the gap has swallowed is still there. -/
private theorem size_swallowed {o' s' : Nat} {pre' post' : List Extent}
    (g : run.heap.Ajar p pre o s post) (g' : run'.heap.Ajar p pre' o' s' post')
    (hx : x ∈ pre ++ post) (hk : run.Spares (OffLinks (pre ++ post)) run') (hlo : o' ≤ x.offset)
    (hhi : x.offset + x.size ≤ o' + s') (hb : b.offset = x.offset) :
    b.size run'.heap.memory = .ok x.size := by
  have hin := g.around.within hx
  have hin' := g'.around.within_gap hlo hhi hin.large hin.aligned
  have hroom := hin.room
  have hstop := hin'.stop_le
  have hword : run'.heap.memory.word (x.offset - 4) = run.heap.memory.word (x.offset - 4) :=
    hk.word fun j _ _ => g.around.offLinks_of_atTag (.inr (.inr ⟨x, hx, .inl (by omega)⟩))
  rw [Block.size_eq_ok (Block.tag_eq_ok (size_lt_bound hin'.size_lt) (by omega) (by omega)), hb,
    hword, (g.legible.readable.marked x hx).size_eq]

/-- **ABSORBING.** The gap swallows its free neighbours, and what remains on its two sides is in
use. -/
theorem absorbNeighbours_ensures (g : run.heap.Ajar p pre o s post) (hb : b.offset = o)
    (hsize : b.size run.heap.memory = .ok s) :
    (absorbNeighbours b).Ensures run fun merged run' =>
      Absorbed run p pre o s post merged.1 merged.2 run' := by
  subst hb
  obtain ⟨before, hbefore, hfront⟩ := g.legible.front rfl
  obtain ⟨after, hafter, ho⟩ := Block.exists_next hsize g.stop_lt
  have hbehind := g.legible.behind ho
  refine ensures_inspect hbefore (ensures_inspect hafter (ensures_inspect hsize ?_))
  rcases hfront with ⟨hu, hends⟩ | ⟨xs, x, rfl, hx, hxb, hu⟩ <;>
    rcases hbehind with ⟨hu', hstarts⟩ | ⟨y, ys, rfl, hy, hyb, hu'⟩ <;>
    refine ensures_inspect hu (ensures_inspect hu' ?_)
  · -- no free neighbour
    exact .pure ⟨pre, [], [], post, (List.append_nil _).symm, rfl,
      ⟨nofun, hends, hstarts, rfl, rfl⟩, g, .refl _ _⟩
  · -- the next block only
    have hstarts := startsUsed_of_coalesced g.around.coalesced_post hy
    obtain ⟨hyo, hys, hy8, -⟩ := g.around.after
    refine .bind (g.delist_next hy hyb) ?_
    rintro _ run' ⟨g', hk'⟩
    have hk : run.Spares (OffLinks (pre ++ y :: ys)) run' := hk'.mono fun _ hi => hi.drop
    have hstop := g'.stop_lt
    have hsize' := g.size_swallowed g' (x := y) (by simp) hk (by omega) (by omega) hyb
    refine ensures_inspect hsize' (.lift (Size.add_eq_ok (by omega)) (.pure ?_))
    exact ⟨pre, [], [y], ys, (List.append_nil _).symm, rfl,
      ⟨by simpa using hy, hends, hstarts, rfl, hyo, hys, hy8, Nat.add_assoc ..⟩, g', hk⟩
  · -- the previous block only
    have hends := endsUsed_of_coalesced g.around.coalesced_pre hx
    obtain ⟨-, hxs, hx8, hxo⟩ := tiles_concat.1 g.around.before
    refine .bind (g.delist_previous hx hxb) ?_
    rintro _ run' ⟨g', hk'⟩
    have hk : run.Spares (OffLinks (xs ++ x :: post)) run' := hk'.mono fun _ hi => hi.drop
    rw [List.append_cons] at hk
    have hstop := g'.stop_lt
    have hsize' := g.size_swallowed g' (x := x) (by simp) hk (Nat.le_refl _) (by omega) hxb
    refine ensures_inspect hsize' (.lift (Size.add_eq_ok (by omega)) (.pure ?_))
    rw [← hxb, Nat.add_comm] at g'
    exact ⟨xs, [x], [], post, rfl, rfl,
      ⟨by simpa using hx, hends, hstarts, ⟨hxb.symm, hxs, hx8, by dsimp only [Tiles]; omega⟩,
        by dsimp only [Tiles]; omega⟩, g', hk⟩
  · -- both neighbours
    have hends := endsUsed_of_coalesced g.around.coalesced_pre hx
    have hstarts := startsUsed_of_coalesced g.around.coalesced_post hy
    obtain ⟨-, hxs, hx8, hxo⟩ := tiles_concat.1 g.around.before
    obtain ⟨hyo, hys, hy8, -⟩ := g.around.after
    refine .bind (g.delist_previous hx hxb) ?_
    rintro _ run₁ ⟨g₁, hk₁⟩
    refine .bind (g₁.delist_next hy hyb) ?_
    rintro _ run' ⟨g', hk'⟩
    have hk : run.Spares (OffLinks (xs ++ x :: y :: ys)) run' :=
      (hk₁.mono fun _ hi => hi.drop).trans (hk'.mono fun _ hi => hi.drop.drop)
    rw [List.append_cons] at hk
    have hstop := g'.stop_lt
    have hsize' := g.size_swallowed g' (x := x) (by simp) hk (Nat.le_refl _) (by omega) hxb
    have hsize'' := g.size_swallowed g' (x := y) (by simp) hk (by omega) (by omega) hyb
    refine ensures_inspect hsize' (ensures_inspect hsize'' (.lift (Size.add_eq_ok (by omega))
      (.lift (Size.add_eq_ok (by omega)) (.pure ?_))))
    have hsum : x.size + s + y.size = s + (x.size + y.size) := by omega
    rw [← hxb, hsum] at g'
    exact ⟨xs, [x], [y], ys, rfl, rfl,
      ⟨by simp [hx, hy], hends, hstarts, ⟨hxb.symm, hxs, hx8, by dsimp only [Tiles]; omega⟩,
        ⟨hyo, hys, hy8, by dsimp only [Tiles]; omega⟩⟩, g', hk⟩

/-- The first bytes of a gap are made a free block, which carries its tags and goes on its list, and
the program goes on with that. -/
theorem makeFree_ensures {α : Type} {r : Nat} {f : PUnit → Operation n α}
    {ensured : α → Run n → Prop} (g : run.heap.Ajar p pre o (r + s) post) (hr : Size.minBlock ≤ r)
    (h8 : r % 8 = 0) (hpre : EndsUsed pre) (hb : b.offset = o)
    (hf : ∀ run', run'.heap.Ajar p (pre ++ [⟨o, r, false⟩]) (o + r) s post →
      Extent.Tagged ⟨o, r, false⟩ run'.heap.memory →
      run.Spares (OffRun (pre ++ post) o (r + s)) run' → (f ⟨⟩).Ensures run' ensured) :
    Ensures (do
      onMemory (b.writeTags (← Tag.make r false))
      Operation.enlist b >>= f) run ensured := by
  have hle : o + r ≤ o + (r + s) := Nat.add_le_add_left (Nat.le_add_right r s) o
  obtain ⟨hmake, hstamp⟩ := g.stamp (x := ⟨o, r, false⟩) (Nat.le_refl _) hle hr h8 hb
  refine .lift hmake (.bind hstamp ?_)
  rintro _ run₁ ⟨g₁, htag, hk₁⟩
  have hin := g₁.around.within_gap (x := ⟨o, r, false⟩) (Nat.le_refl _) hle hr h8
  refine .bind (g₁.enlist hr h8 hpre (htag.marked hin) hb) ?_
  rintro _ run₂ ⟨g₂, hk₂⟩
  refine hf run₂ g₂ ?_ ((hk₁.mono fun i hi => ?_).trans (hk₂.mono fun i hi => ?_))
  · exact g₂.around.tagged (fun i hi => hk₂.byte i (g₂.around.offLinks_of_atTag hi)) (by simp) htag
  -- The tags are written inside of the gap, and so are the links of the new block.
  · exact hi.offTags (Nat.le_refl _) hle
  · exact hi.offLinks_insert (Nat.le_refl _) hle hr

/-- **COALESCING** a gap makes one free block of the run that it lies in, and puts that on its list.
-/
theorem coalesce_ensures (g : run.heap.Ajar p pre o s post) (hs : Size.minBlock ≤ s)
    (hb : b.offset = o) (hsize : b.size run.heap.memory = .ok s) :
    (coalesce b).Ensures run fun w run' => Merged run p pre o s post w run' := by
  refine .bind (absorbNeighbours_ensures g hb hsize) ?_
  rintro ⟨w, size⟩ run₁ ⟨before, as, bs, after, rfl, rfl, r, g₁, hk₁⟩
  dsimp only at *
  have hgap := g.around.bounds
  have hlo := g.around.prologue_le
  obtain ⟨hle, hge⟩ := r.bounds
  have hlarge : 16 ≤ s := hs
  have hmin : Size.minBlock ≤ size := by
    simp only [Size.minBlock]
    omega
  have hown : b.size run₁.heap.memory = .ok s := by
    have hin : Extent.Within ⟨o, s, false⟩ run.heap.memory :=
      g.around.within_gap (Nat.le_refl o) (Nat.le_refl _) hs g.around.gap
    have hin₁ : Extent.Within ⟨o, s, false⟩ run₁.heap.memory :=
      g₁.around.within_gap hle hge hs g.around.gap
    have hword : run₁.heap.memory.word (o - 4) = run.heap.memory.word (o - 4) :=
      hk₁.word fun j _ _ => g.around.offLinks_of_gap (by omega) (by omega)
    exact hin.size_congr hin₁ hb hword hsize
  refine ensures_inspect hown (ensures_recordIf fun events hevents => ?_)
  have hk₂ : run₁.Spares (OffRun (before ++ after) w.offset size)
      ⟨run₁.heap, events ++ run₁.journal⟩ :=
    .report fun e he => by rw [hevents e he]; exact nofun
  have g₂ : (Run.mk run₁.heap (events ++ run₁.journal)).heap.Ajar p before w.offset size after := g₁
  have hk₁₂ := (hk₁.mono fun i hi => r.offLinks_of_offRun hi).trans hk₂
  refine makeFree_ensures (s := 0) g₂ hmin g₁.around.gap r.endsUsed rfl fun run₃ g₃ htag hk₃ => ?_
  exact .pure ⟨before, as, bs, after, size, rfl, rfl, r, g₃, htag, hk₁₂.trans hk₃⟩

end Ajar

/-- A heap is in order when its blocks were, but for those that take the place of `s` bytes at `o`,
and those carry their tags. -/
theorem Ajar.shaped {before ys after : List Extent} {stop : Nat}
    (g : run'.heap.Ajar p (before ++ ys) stop 0 after) (hc : Coalesced (before ++ ys ++ after))
    (a : Around p before o s after run.heap.memory.size)
    (ht : ∀ y ∈ before ++ after, y.Tagged run.heap.memory)
    (hys : ∀ y ∈ ys, y.Tagged run'.heap.memory)
    (hk : run.Spares (OffRun (before ++ after) o s) run') :
    run'.heap.Shaped p (before ++ ys ++ after) := by
  have hkeep : ∀ y ∈ before ++ after, y.Tagged run'.heap.memory :=
    fun y hy => a.tagged (fun i hi => hk.byte i (a.offRun_of_atTag hi)) hy (ht y hy)
  refine (g.gapped fun y hy => ?_).close hc
  rw [List.append_assoc, List.mem_append, List.mem_append] at hy
  rcases hy with hy | hy | hy
  · exact hkeep y (List.mem_append_left _ hy)
  · exact hys y hy
  · exact hkeep y (List.mem_append_right _ hy)

/-- **COALESCING** a gap of a heap that is in order merges the layout in which the gap is a free
block, and no byte of a block in use changes. The answer is the free block that now covers the gap.
-/
theorem coalesce_ensures (g : run.heap.Gapped p pre o s post) (hs : Size.minBlock ≤ s)
    (hb : b.offset = o)
    (ht : run.heap.memory.word (o - 4) = (Extent.mk o s false).tag.word) :
    (coalesce b).Ensures run fun merged run' =>
      run'.heap.Shaped p (merge (pre ++ ⟨o, s, false⟩ :: post)) ∧
        (∃ x ∈ merge (pre ++ ⟨o, s, false⟩ :: post), x.allocated = false ∧
          x.offset = merged.offset ∧ x.offset ≤ o ∧ o + s ≤ x.offset + x.size) ∧
        run.Spares (Held p (pre ++ post)) run' := by
  have hin : Extent.Within ⟨o, s, false⟩ run.heap.memory :=
    g.inOrder.within_gap (Nat.le_refl o) (Nat.le_refl _) hs g.around.gap
  refine (g.ajar.coalesce_ensures hs hb (hin.size_eq_ok hb ht)).mono ?_
  rintro w run' ⟨before, as, bs, after, size, rfl, rfl, r, g', htag, hk⟩
  have a := r.around g.around
  have hmerge := r.merge_eq hs g.around.gap a.coalesced_pre a.coalesced_post
  rw [hmerge]
  have hold : ∀ y ∈ before ++ after, y.Tagged run.heap.memory := by
    refine fun y hy => g.inOrder.stamped.tagged y ?_
    rcases List.mem_append.mp hy with hy | hy
    · exact List.mem_append_left _ (List.mem_append_left _ hy)
    · exact List.mem_append_right _ (List.mem_append_right _ hy)
  have hc := coalesced_between (x := ⟨w.offset, size, false⟩) a.coalesced_pre a.coalesced_post
    r.endsUsed r.startsUsed
  refine ⟨?_, ⟨_, List.mem_append_right _ (List.mem_cons_self ..), rfl, rfl, r.bounds⟩,
    hk.mono fun i hi => a.offRun_of_held (hi.mono fun x hx hu => r.mem_of_used hx hu)⟩
  rw [List.append_cons] at hc ⊢
  exact g'.shaped hc a hold (List.forall_mem_singleton.2 htag) hk

end Heap

end TagHeap
