import TagHeap.Proofs.Coalescing

/-!
# Carving

How a block in use is made of free bytes. `Heap.occupy` makes one at the start of a gap and turns
what is left into a free block, if that is large enough for one; `Heap.carve` takes a free block off
its list and cuts a block in use out of its head or its tail.

The layouts that come out are `Layout.occupied` and `Layout.carved`, put in the place of the gap or
of the free block. Nothing else changes: the other blocks in use keep every byte, and so does the
payload of the block that is made, which matters when it was moved there before.

Tags are only read for what they say, so all of this holds of heaps with spare bits set in them
(`Heap.Ajar.occupy_ensures`, `Heap.Ajar.carve_ensures`). Heaps that are in order stay in order.
-/

namespace TagHeap

open Layout Operation Step

namespace Layout

/-- The size of the block in use when `size` of `total` bytes are wanted. What is too small for a
block of its own stays in it. -/
def fitted (total size : Nat) : Nat := if total - size < Size.minBlock then total else size

/-- The blocks that take the place of `total` bytes at `o` when the first `size` of them are wanted.
-/
def occupied (o total size : Nat) : List Extent :=
  if total - size < Size.minBlock then [⟨o, total, true⟩]
  else [⟨o, size, true⟩, ⟨o + size, total - size, false⟩]

/-- The blocks that take the place of the free block `x` when `size` of its bytes are wanted. -/
def carved (tailLimit : Nat) (x : Extent) (size : Nat) : List Extent :=
  if Size.minBlock ≤ x.size - size ∧ size < tailLimit then
    [⟨x.offset, x.size - size, false⟩, ⟨x.offset + (x.size - size), size, true⟩]
  else occupied x.offset x.size size

theorem le_fitted {total size : Nat} (h : size ≤ total) : size ≤ fitted total size := by
  rw [fitted]
  split <;> omega

/-- The block in use comes first. -/
theorem occupied_eq (o total size : Nat) :
    ∃ rest, occupied o total size = ⟨o, fitted total size, true⟩ :: rest ∧
      rest.filter (·.allocated) = [] := by
  rw [occupied, fitted]
  split
  · exact ⟨[], rfl, rfl⟩
  · exact ⟨_, rfl, rfl⟩

/-- What is occupied in front of a block in use leaves no two free blocks that touch. -/
theorem coalesced_occupied {o total size : Nat} {pre post : List Extent} (hpre : Coalesced pre)
    (hpost : Coalesced post) (hstarts : StartsUsed post) :
    Coalesced (pre ++ occupied o total size ++ post) := by
  rw [occupied]
  split
  · rw [← List.append_cons]
    exact coalesced_append_cons rfl hpre hpost
  · rw [List.append_assoc]
    exact coalesced_append_cons rfl hpre
      (coalesced_between (show Coalesced [] from .nil) hpost nofun hstarts)

/-- Carving makes one block in use. -/
theorem filter_carved {size : Nat} {x : Extent} (tailLimit : Nat) (h : size ≤ x.size) :
    ∃ y, (carved tailLimit x size).filter (·.allocated) = [y] ∧ size ≤ y.size := by
  rw [carved]
  split
  · exact ⟨_, rfl, Nat.le_refl _⟩
  · obtain ⟨rest, he, hr⟩ := occupied_eq x.offset x.size size
    refine ⟨⟨x.offset, fitted x.size size, true⟩, ?_, le_fitted h⟩
    rw [he, List.filter_cons_of_pos rfl, hr]

end Layout

/-- What is carved out of a block tiles it. -/
theorem Tiles.of_carved {tailLimit need : Nat} {x : Extent} (hs : Size.minBlock ≤ need)
    (h8 : need % 8 = 0) (hle : need ≤ x.size) (hx : x.size % 8 = 0) :
    Tiles x.offset (carved tailLimit x need) (x.offset + x.size) := by
  have hlarge : 16 ≤ need := hs
  rw [carved, occupied]
  by_cases htail : Size.minBlock ≤ x.size - need ∧ need < tailLimit
  · rw [if_pos htail]
    exact ⟨rfl, htail.1, by dsimp only; omega, rfl, hs, h8, by dsimp only [Tiles]; omega⟩
  rw [if_neg htail]
  by_cases hrest : x.size - need < Size.minBlock
  · rw [if_pos hrest]
    exact ⟨rfl, Nat.le_trans hs hle, hx, rfl⟩
  · rw [if_neg hrest]
    exact ⟨rfl, hs, h8, rfl, Nat.le_of_not_lt hrest, by dsimp only; omega,
      by dsimp only [Tiles]; omega⟩

/-- What is in front of a gap ends with a block in use, so the run that the gap lies in starts with
the gap. -/
theorem FreeRun.starts_at_gap {before as bs after pre : List Extent} {o s size : Nat} {w : Block}
    {x : Extent} (r : FreeRun before as o s bs after w size) (h : pre ++ [x] = before ++ as)
    (hx : x.allocated = true) : before = pre ++ [x] ∧ as = [] ∧ w.offset = o := by
  obtain rfl : as = [] := by
    rcases List.eq_nil_or_concat' as with rfl | ⟨as, y, rfl⟩
    · rfl
    · rw [← List.append_assoc] at h
      obtain rfl : x = y := (List.append_singleton_inj.1 h).2
      have hfree := r.free x (by simp)
      rw [hx] at hfree
      cases hfree
  rw [List.append_nil] at h
  exact ⟨h.symm, rfl, r.tiles_front⟩

variable {n : Nat} [HasClass n]

namespace Heap

variable {run run' : Run n} {p b : Block} {pre post : List Extent} {o total size : Nat}
  {x : Extent}

/-- Of a gap of `total` bytes at `o`, the first `size` bytes are now a block in use. The rest is in
it as well, or it is a free block, which has swallowed the run of free blocks behind the gap. The
new blocks carry their tags, and the payload of the one in use holds what it held. -/
def Occupied (run : Run n) (p : Block) (pre : List Extent) (o total size : Nat)
    (post : List Extent) (run' : Run n) : Prop :=
  ∃ ys bs after stop, post = bs ++ after ∧ (∀ y ∈ bs, y.allocated = false) ∧
    Tiles (o + total) bs stop ∧
    merge (pre ++ occupied o total size ++ post) = pre ++ ys ++ after ∧
    run'.heap.Ajar p (pre ++ ys) stop 0 after ∧ (∀ y ∈ ys, y.Tagged run'.heap.memory) ∧
    run.Spares (fun i => OffRun (pre ++ after) o (stop - o) i ∨
      (o ≤ i ∧ i + 8 < o + fitted total size)) run'

/-- Where what follows is in use, the rest of the gap has merged with nothing. -/
theorem Occupied.closed (h : Occupied run p pre o total size post run') (hpre : Coalesced pre)
    (hpost : Coalesced post) (hstarts : StartsUsed post) :
    run'.heap.Ajar p (pre ++ occupied o total size ++ post) run'.heap.memory.size 0 [] ∧
      (∀ y ∈ occupied o total size, y.Tagged run'.heap.memory) ∧
      run.Spares (OffRun (pre ++ post) o total) run' := by
  obtain ⟨ys, bs, after, stop, rfl, hfree, htiles, hmerge, g, hys, hk⟩ := h
  obtain rfl : bs = [] := by
    cases bs with
    | nil => rfl
    | cons y bs =>
        have hu := hstarts y (by simp)
        rw [hfree y (List.mem_cons_self ..)] at hu
        cases hu
  obtain rfl : o + total = stop := htiles
  have hc : Coalesced (pre ++ occupied o total size ++ after) :=
    coalesced_occupied hpre hpost hstarts
  rw [List.nil_append, merge_of_coalesced hc] at hmerge
  obtain rfl := List.append_cancel_left (List.append_cancel_right hmerge)
  rw [Nat.add_sub_cancel_left] at hk
  exact ⟨g.close hc, hys, hk.mono fun i hi => .inl hi⟩

/-- In the place of the free block `x` are now the blocks that were carved out of it, which carry
their tags, and `w` is the one of them that is in use. -/
def Carved (run : Run n) (p : Block) (pre : List Extent) (x : Extent) (post : List Extent)
    (size : Nat) (w : Block) (run' : Run n) : Prop :=
  ∃ ys, ys = carved run.heap.settings.tailLimit x size ∧
    run'.heap.Ajar p (pre ++ ys ++ post) run'.heap.memory.size 0 [] ∧
    (∀ y ∈ ys, y.Tagged run'.heap.memory) ∧ (∃ y ∈ ys, y.allocated = true ∧ y.offset = w.offset) ∧
    run.Spares (OffRun (pre ++ post) x.offset x.size) run'

namespace Ajar

/-- **OCCUPYING** the first bytes of a gap makes a block in use of them, and a free block of the
rest, merged with what follows. -/
theorem occupy_ensures (g : run.heap.Ajar p pre o total post) (hs : Size.minBlock ≤ size)
    (h8 : size % 8 = 0) (hle : size ≤ total) (hb : b.offset = o) :
    (occupy b total size).Ensures run fun _ run' => Occupied run p pre o total size post run' := by
  have hgap8 := g.around.gap
  have hlarge : 16 ≤ size := hs
  refine .lift (Size.sub_eq_ok hle) ?_
  by_cases hsmall : total - size < Size.minBlock
  · rw [if_pos hsmall]
    have hmin : Size.minBlock ≤ total := Nat.le_trans hs hle
    obtain ⟨hmake, hstamp⟩ := g.stamp (x := ⟨o, total, true⟩) (Nat.le_refl _) (Nat.le_refl _)
      hmin hgap8 hb
    refine .lift hmake (hstamp.mono ?_)
    rintro _ run' ⟨g', htag, hk⟩
    have hc := coalesced_append_cons (x := ⟨o, total, true⟩) rfl g.around.coalesced_pre
      g.around.coalesced_post
    refine ⟨[⟨o, total, true⟩], [], post, o + total, rfl, nofun, rfl, ?_,
      give (s := 0) g' hmin hgap8 htag, List.forall_mem_singleton.2 htag, hk.mono fun i hi => ?_⟩
    · rw [List.append_cons] at hc
      rw [occupied, if_pos hsmall, merge_of_coalesced hc]
    · rw [fitted, if_pos hsmall, Nat.add_sub_cancel_left] at hi
      rcases hi with hi | hi
      · exact hi.offTags (Nat.le_refl _) (Nat.le_refl _)
      · exact .inr (.inl hi)
  · rw [if_neg hsmall]
    have hrest : Size.minBlock ≤ total - size := Nat.le_of_not_lt hsmall
    obtain ⟨hmake, hstamp⟩ := g.stamp (x := ⟨o, size, true⟩) (Nat.le_refl _)
      (Nat.add_le_add_left hle o) hs h8 hb
    refine .lift hmake (.bind hstamp ?_)
    rintro _ run₁ ⟨g₁, htag, hk₁⟩
    -- From here on the block in use is one of the blocks in front of the gap.
    rw [← Nat.add_sub_cancel' hle] at g₁
    have g₁ := Ajar.give g₁ hs h8 htag
    have hin := g₁.around.within (x := ⟨o, size, true⟩) (by simp)
    obtain ⟨w, hw, hwo⟩ := hin.next_eq_ok hb htag.header
    obtain ⟨hmake', hstamp'⟩ := g₁.stamp (x := ⟨o + size, total - size, false⟩) (Nat.le_refl _)
      (Nat.le_refl _) hrest g₁.around.gap hwo
    refine ensures_inspect hw (.lift (Size.sub_eq_ok hle) (.lift hmake' (.bind hstamp' ?_)))
    rintro _ run₂ ⟨g₂, htag', hk₂⟩
    have hrestIn : Extent.Within ⟨o + size, total - size, false⟩ run₂.heap.memory :=
      g₂.around.within_gap (Nat.le_refl _) (Nat.le_refl _) hrest g₂.around.gap
    refine .discard ((g₂.coalesce_ensures hrest hwo
      (hrestIn.size_eq_ok hwo htag'.header)).mono ?_)
    rintro q run₃ ⟨before, as, bs, after, k, hpre, rfl, r, g₃, htag₃, hk₃⟩
    -- That block also ends the run of free blocks in front, so the run starts with the rest.
    obtain ⟨rfl, rfl, hq⟩ := r.starts_at_gap hpre rfl
    have hgap := r.bounds
    have a := r.around (by simpa using g₂.around)
    have hmerge := r.merge_eq hrest g₂.around.gap a.coalesced_pre a.coalesced_post
    have hbehind := r.tiles_behind
    have hk₂₃ := (hk₂.mono fun i hi => hi.offTags hgap.1 hgap.2).trans hk₃
    have hused := a.tagged (fun i hi => hk₂₃.byte i (a.offRun_of_atTag hi)) (by simp) htag
    rw [hq] at a g₃ htag₃ hbehind hmerge hk₂₃ hgap
    rw [Nat.add_assoc o, Nat.add_sub_cancel' hle] at hbehind
    have hocc : occupied o total size = [⟨o, size, true⟩, ⟨o + size, total - size, false⟩] := by
      rw [occupied, if_neg hsmall]
    refine ⟨[⟨o, size, true⟩, ⟨o + size, k, false⟩], bs, after, o + size + k, rfl,
      fun y hy => r.free y hy, hbehind, ?_, ?_, ?_, (hk₁.mono fun i hi => ?_).trans
        (hk₂₃.mono fun i hi => ?_)⟩
    · rw [hocc]
      simpa using hmerge
    · simpa using g₃
    · exact List.forall_mem_cons.2 ⟨hused, List.forall_mem_singleton.2 htag₃⟩
    · rw [fitted, if_neg hsmall] at hi
      rcases hi with hi | hi
      · exact hi.offTags (Nat.le_refl _) (by dsimp only; omega)
      · exact .inr (.inl hi)
    · rw [fitted, if_neg hsmall] at hi
      rcases hi with ⟨hoff, hi⟩ | ⟨h1, h2⟩
      · exact ⟨OffLinks.add_used hoff rfl, by omega⟩
      · exact a.offRun_of_held (.inr ⟨⟨o, size, true⟩, by simp, rfl, by dsimp only; omega,
          by dsimp only; omega⟩)

/-- **CARVING** puts the carved blocks in the place of a free block. Nothing is written but links of
free blocks and bytes of the block that is carved. -/
theorem carve_ensures (g : run.heap.Ajar p (pre ++ x :: post) run.heap.memory.size 0 [])
    (hx : x.allocated = false) (hs : Size.minBlock ≤ size) (h8 : size % 8 = 0)
    (hle : size ≤ x.size) (hb : b.offset = x.offset) :
    (carve b size).Ensures run fun w run' => Carved run p pre x post size w run' := by
  have hcoal : Coalesced (pre ++ x :: post) := g.around.coalesced_pre
  have hends : EndsUsed pre := by
    rw [List.append_cons] at hcoal
    exact endsUsed_of_coalesced (coalesced_append.1 hcoal).1 hx
  have hstarts := startsUsed_of_coalesced (coalesced_append.1 hcoal).2.1 hx
  have hlarge : 16 ≤ size := hs
  refine ensures_inspect (g.legible.size_eq_ok (x := x) (by simp) hb) ?_
  obtain ⟨o, g₀⟩ := g.split
  obtain rfl : x.offset = o := g₀.around.after.1
  refine .bind (g₀.delist_next hx hb) ?_
  rintro _ run₁ ⟨g₁, hk₁⟩
  rw [Nat.zero_add] at g₁
  have hk₁ := hk₁.mono (k := OffRun (pre ++ post) x.offset x.size) fun i hi => hi.1
  have hgap8 := g₁.around.gap
  refine .lift (Size.sub_eq_ok hle) (ensures_heap ?_)
  rw [hk₁.settings]
  by_cases htail : Size.minBlock ≤ x.size - size ∧ size < run.heap.settings.tailLimit
  · -- The free block becomes smaller where it is, and goes on the list of its new size.
    rw [if_pos htail]
    have hcarved : [⟨x.offset, x.size - size, false⟩, ⟨x.offset + (x.size - size), size, true⟩] =
        carved run.heap.settings.tailLimit x size := by
      rw [carved, if_pos htail]
    have hsum : x.size - size + size = x.size := Nat.sub_add_cancel hle
    rw [← hsum] at g₁
    refine g₁.makeFree_ensures htail.1 (by omega) hends hb fun run₂ g₂ htag₂ hk₂ => ?_
    rw [hsum] at hk₂
    have hin₂ := g₂.around.within (x := ⟨x.offset, x.size - size, false⟩) (by simp)
    obtain ⟨w, hw, hwo⟩ := hin₂.next_eq_ok hb htag₂.header
    -- What it gave up is all that is left of the gap.
    obtain ⟨hmake, hstamp⟩ := g₂.stamp (x := ⟨x.offset + (x.size - size), size, true⟩)
      (Nat.le_refl _) (Nat.le_refl _) hs h8 hwo
    refine ensures_inspect hw (.lift hmake (.bind hstamp ?_))
    rintro _ run₃ ⟨g₃, htag, hk₃⟩
    have htag₃ := g₃.around.tagged
      (fun i hi => hk₃.byte i ((g₃.around.offRun_of_atTag hi).offTags (Nat.le_refl _)
        (Nat.le_refl _))) (by simp) htag₂
    have g₄ := give (s := 0) g₃ hs h8 htag
    refine ensures_record (.pure ⟨_, hcarved, ?_, List.forall_mem_cons.2 ⟨htag₃,
      List.forall_mem_singleton.2 htag⟩, ⟨_, List.mem_cons_of_mem _ (List.mem_cons_self ..), rfl,
      hwo.symm⟩, .record ((hk₁.trans hk₂).trans (hk₃.mono fun i hi =>
        hi.offTags (Nat.le_add_right ..) (by dsimp only; omega))) (by rintro ⟨⟩)⟩)
    have hc := coalesced_append_cons (x := ⟨x.offset + (x.size - size), size, true⟩) rfl
      g₃.around.coalesced_pre g₃.around.coalesced_post
    rw [List.append_cons] at hc
    simpa using g₄.close hc
  · -- The neighbours of a free block are in use, so what is left over merges with nothing.
    rw [if_neg htail]
    have hcarved : occupied x.offset x.size size = carved run.heap.settings.tailLimit x size := by
      rw [carved, if_neg htail]
    have hreport : run₁.Spares (OffRun (pre ++ post) x.offset x.size) _ :=
      (Run.Spares.refl _ run₁).record (e := .placedAtHead size b.offset) (by rintro ⟨⟩)
    refine ensures_record (.bind (occupy_ensures (by exact g₁) hs h8 hle hb) ?_)
    rintro _ run₂ hocc
    obtain ⟨g₂, hys, hk₂⟩ := hocc.closed g₁.around.coalesced_pre g₁.around.coalesced_post hstarts
    obtain ⟨rest, he, -⟩ := occupied_eq x.offset x.size size
    refine .pure ⟨_, hcarved, g₂, hys, ⟨⟨x.offset, fitted x.size size, true⟩, ?_, rfl, hb.symm⟩,
      (hk₁.trans hreport).trans hk₂⟩
    rw [he]
    exact List.mem_cons_self ..

end Ajar

/-- **OCCUPYING** the first bytes of a gap makes a block in use of them, and a free block of the
rest, merged with what follows. The payload of the new block keeps its bytes. -/
theorem occupy_ensures (g : run.heap.Gapped p pre o total post) (hs : Size.minBlock ≤ size)
    (h8 : size % 8 = 0) (hle : size ≤ total) (hb : b.offset = o) :
    (occupy b total size).Ensures run fun _ run' =>
      run'.heap.Shaped p (merge (pre ++ occupied o total size ++ post)) ∧
        run.Spares (fun i => Held p (pre ++ post) i ∨ (o ≤ i ∧ i + 8 < o + fitted total size))
          run' := by
  refine (g.ajar.occupy_ensures hs h8 hle hb).mono ?_
  rintro _ run' ⟨ys, bs, after, stop, rfl, hfree, htiles, hmerge, g', hys, hk⟩
  have a := g.around.swallow_run htiles
  have hold := (g.inOrder.stamped.subset
    (List.Sublist.append_left (List.sublist_append_right bs after) pre).subset).tagged
  have hc := coalesced_merge (pre ++ occupied o total size ++ (bs ++ after))
  rw [hmerge] at hc ⊢
  refine ⟨g'.shaped hc a hold hys (hk.mono fun i hi => .inl hi), hk.mono fun i hi => ?_⟩
  rcases hi with hi | hi
  · refine .inl (a.offRun_of_held (hi.mono fun y hy hu => ?_))
    rw [List.mem_append, List.mem_append] at hy
    rcases hy with hy | hy | hy
    · exact List.mem_append_left _ hy
    · rw [hfree y hy] at hu
      cases hu
    · exact List.mem_append_right _ hy
  · exact .inr hi

/-- **CARVING** puts the carved blocks in the place of a free block, and returns the one of them
that is in use. -/
theorem carve_ensures (g : run.heap.Shaped p (pre ++ x :: post)) (hx : x.allocated = false)
    (hs : Size.minBlock ≤ size) (h8 : size % 8 = 0) (hle : size ≤ x.size)
    (hb : b.offset = x.offset) :
    (carve b size).Ensures run fun w run' =>
      run'.heap.Shaped p (pre ++ carved run.heap.settings.tailLimit x size ++ post) ∧
        (∃ y ∈ carved run.heap.settings.tailLimit x size, y.allocated = true ∧
          y.offset = w.offset) ∧
        run.Spares (Held p (pre ++ post)) run' := by
  refine (Ajar.carve_ensures (Gapped.ajar g) hx hs h8 hle hb).mono ?_
  rintro w run' ⟨ys, rfl, g', hys, hw, hk⟩
  have a : Around p pre x.offset x.size post run.heap.memory.size := Around.at_block g.around
  have hstamped := g.inOrder.stamped
  rw [List.append_nil] at hstamped
  have hold := (hstamped.subset ((List.Sublist.refl _).middle x).subset).tagged
  obtain ⟨stop, g''⟩ := g'.split
  exact ⟨g''.shaped g'.around.coalesced_pre a hold hys hk, hw,
    hk.mono fun i hi => a.offRun_of_held hi⟩

end Heap

end TagHeap
