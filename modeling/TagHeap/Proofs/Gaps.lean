import TagHeap.Proofs.Neighbours
import TagHeap.Proofs.Regions

/-!
# Heaps with a gap

The moves on a gap, as operations on a heap. Each of them is stated by three things: where the gap
is afterwards, what the operation made sure of inside of it, and which bytes it SPARES.

* `Heap.Gapped h p pre o s post` says that the heap is laid out behind the prologue `p`, that its
  region is ready, and that all is in order around the gap. `Heap.Shaped h p xs` is a heap without
  a gap, whose blocks are `xs`. `Heap.Ajar` asks for marks only where `Heap.Gapped` asks for tags,
  and a move that writes to no other tag keeps both.
* `run.Spares kept run'` says what two runs have in common: the bytes at the places in `kept`, the
  settings and the limits of the region. It also says that no warning was reported in between.
-/

namespace TagHeap

open Layout Operation Step

variable {n : Nat}

/-- The runs agree on the bytes at the places in `kept` and on all that an operation inside of the
granted bytes leaves alone, and no warning was reported between them. -/
structure Run.Spares (kept : Nat → Prop) (run run' : Run n) : Prop where
  byte : ∀ i, kept i → run'.heap.memory.byte i = run.heap.memory.byte i
  settings : run'.heap.settings = run.heap.settings
  limit : run'.heap.region.limit = run.heap.region.limit
  backing : run'.heap.region.backing = run.heap.region.backing
  quiet : Quiet run.journal run'.journal

namespace Run.Spares

variable {kept : Nat → Prop} {run run' run'' : Run n}

theorem refl (kept : Nat → Prop) (run : Run n) : run.Spares kept run :=
  ⟨fun _ _ => rfl, rfl, rfl, rfl, .refl _⟩

theorem trans (h : run.Spares kept run') (h' : run'.Spares kept run'') :
    run.Spares kept run'' where
  byte i hi := (h'.byte i hi).trans (h.byte i hi)
  settings := h'.settings.trans h.settings
  limit := h'.limit.trans h.limit
  backing := h'.backing.trans h.backing
  quiet := h.quiet.trans h'.quiet

/-- The region may still grow by what it could before. -/
theorem bounds_eq (h : run.Spares kept run') :
    run'.heap.region.bounds = run.heap.region.bounds := by
  rw [Region.bounds, h.limit, h.backing, Region.bounds]

/-- Runs that agree somewhere agree on every part of it. -/
theorem mono {k : Nat → Prop} (h : run.Spares kept run') (hk : ∀ i, k i → kept i) :
    run.Spares k run' :=
  { h with byte := fun i hi => h.byte i (hk i hi) }

/-- A word whose four places are kept is kept. -/
theorem word {i : Nat} (h : run.Spares kept run') (hk : ∀ j, i ≤ j → j < i + 4 → kept j) :
    run'.heap.memory.word i = run.heap.memory.word i :=
  Memory.word_congr fun j h1 h2 => h.byte j (hk j h1 h2)

/-- An operation on the memory alone. -/
theorem of_agrees {m : Memory} (hm : run.heap.memory.Agrees kept m) :
    run.Spares kept ⟨run.heap.withMemory m, run.journal⟩ :=
  ⟨hm.byte, rfl, rfl, rfl, .refl _⟩

/-- An operation on the memory and the index. -/
theorem of_agrees_index {m : Memory} {index : Index n} (hm : run.heap.memory.Agrees kept m) :
    run.Spares kept ⟨(run.heap.withMemory m).withIndex index, run.journal⟩ :=
  ⟨hm.byte, rfl, rfl, rfl, .refl _⟩

/-- Reports that are no warnings. -/
theorem report {events : List Event} (hq : ∀ e ∈ events, e.level ≠ .warn) :
    run.Spares kept ⟨run.heap, events ++ run.journal⟩ :=
  ⟨fun _ _ => rfl, rfl, rfl, rfl, .report hq⟩

/-- A last report that is no warning. -/
theorem record {e : Event} (h : run.Spares kept run') (hq : e.level ≠ .warn) :
    run.Spares kept ⟨run'.heap, e :: run'.journal⟩ :=
  { h with quiet := h.quiet.record hq }

end Run.Spares

/-- Nothing happened between two runs but reports, none of them a warning. -/
structure Run.Idle (run run' : Run n) : Prop where
  heap_eq : run'.heap = run.heap
  quiet : Quiet run.journal run'.journal

/-- Nothing happened between two runs but reports, and only the last of them is a warning. -/
def Run.Warned (run run' : Run n) : Prop :=
  ∃ run₁ event, run.Idle run₁ ∧ event.level = .warn ∧ run' = ⟨run₁.heap, event :: run₁.journal⟩

namespace Run.Idle

variable {run run' run'' : Run n}

theorem refl (run : Run n) : run.Idle run := ⟨rfl, .refl _⟩

theorem trans (h : run.Idle run') (h' : run'.Idle run'') : run.Idle run'' :=
  ⟨h'.heap_eq.trans h.heap_eq, h.quiet.trans h'.quiet⟩

theorem spares (h : run.Idle run') (kept : Nat → Prop) : run.Spares kept run' := by
  obtain ⟨heap, journal⟩ := run'
  obtain rfl : heap = run.heap := h.heap_eq
  exact ⟨fun _ _ => rfl, rfl, rfl, rfl, h.quiet⟩

/-- A warning after idling. -/
theorem warned (h : run.Idle run') (h' : run'.Warned run'') : run.Warned run'' := by
  obtain ⟨run₁, event, hidle, hlevel, rfl⟩ := h'
  exact ⟨run₁, event, h.trans hidle, hlevel, rfl⟩

end Run.Idle

theorem Run.Warned.heap_eq {run run' : Run n} (h : run.Warned run') : run'.heap = run.heap := by
  obtain ⟨run₁, event, hidle, -, rfl⟩ := h
  exact hidle.heap_eq

theorem Run.warned_record {event : Event} (run : Run n) (h : event.level = .warn) :
    run.Warned ⟨run.heap, event :: run.journal⟩ :=
  ⟨run, event, .refl run, h, rfl⟩

variable [HasClass n]

namespace Heap

/-- The heap is laid out, and all but a gap of `s` bytes at `o` is in order. -/
structure Gapped (h : Heap n) (p : Block) (pre : List Extent) (o s : Nat) (post : List Extent) :
    Prop where
  prologue : h.prologue = some p
  ready : h.region.Ready
  inOrder : InOrder h.memory h.index p pre o s post

/-- The heap is laid out, and all but a gap of `s` bytes at `o` can be read. -/
structure Ajar (h : Heap n) (p : Block) (pre : List Extent) (o s : Nat) (post : List Extent) :
    Prop where
  prologue : h.prologue = some p
  ready : h.region.Ready
  legible : Legible h.memory h.index p pre o s post

/-- The heap is laid out, and its blocks are `xs`. -/
def Shaped (h : Heap n) (p : Block) (xs : List Extent) : Prop := h.Gapped p xs h.memory.size 0 []

variable {h : Heap n} {p b : Block} {pre post : List Extent} {o s r : Nat} {x y : Extent}
  {run run' : Run n} {kept : Nat → Prop}

namespace Ajar

theorem around (g : h.Ajar p pre o s post) : Around p pre o s post h.memory.size :=
  g.legible.around

/-- Where the gap ends is no overflow. -/
theorem stop_lt (g : h.Ajar p pre o s post) : o + s < Size.bound :=
  Nat.lt_of_le_of_lt g.around.bounds.2 (size_lt_bound g.legible.size_lt)

/-- A heap whose blocks carry their tags is in order around the gap. -/
theorem gapped (g : h.Ajar p pre o s post) (ht : ∀ x ∈ pre ++ post, x.Tagged h.memory) :
    h.Gapped p pre o s post :=
  ⟨g.prologue, g.ready, g.legible.inOrder ht⟩

/-- An empty gap may be closed where no two free blocks would touch. -/
theorem close (g : h.Ajar p pre o 0 post) (hc : Coalesced (pre ++ post)) :
    h.Ajar p (pre ++ post) h.memory.size 0 [] :=
  ⟨g.prologue, g.ready, g.legible.close hc⟩

/-- A heap has an empty gap between any two blocks. -/
theorem split (g : h.Ajar p (pre ++ post) h.memory.size 0 []) : ∃ o, h.Ajar p pre o 0 post := by
  obtain ⟨o, hl⟩ := g.legible.split
  exact ⟨o, g.prologue, g.ready, hl⟩

/-- The gap gives up its first bytes to a block in use that carries its tags. -/
theorem give (g : h.Ajar p pre o (r + s) post) (hr : Size.minBlock ≤ r) (h8 : r % 8 = 0)
    (ht : Extent.Tagged ⟨o, r, true⟩ h.memory) :
    h.Ajar p (pre ++ [⟨o, r, true⟩]) (o + r) s post := by
  have hin : Extent.Within ⟨o, r, true⟩ h.memory :=
    g.around.within_gap (Nat.le_refl o) (Nat.add_le_add_left (Nat.le_add_right r s) o) hr h8
  exact ⟨g.prologue, g.ready, g.legible.give hr h8 (ht.marked hin)⟩

/-- Blocks keep the tags that they carried when no tag was written to. -/
theorem tagged (g : run'.heap.Ajar p pre o s post) (hk : run.Spares kept run')
    (hkept : ∀ i, AtTag p (pre ++ post) run'.heap.memory.size i → kept i)
    (ht : ∀ x ∈ pre ++ post, x.Tagged run.heap.memory) :
    ∀ x ∈ pre ++ post, x.Tagged run'.heap.memory :=
  fun x hx => g.around.tagged (fun i hi => hk.byte i (hkept i hi)) hx (ht x hx)

/-- The gap swallows a free block behind it, which leaves its list. -/
theorem delist_next (g : run.heap.Ajar p pre o s (y :: post)) (hy : y.allocated = false)
    (hb : b.offset = y.offset) :
    (delist b).Ensures run fun _ run' =>
      run'.heap.Ajar p pre o (s + y.size) post ∧ run.Spares (OffLinks (pre ++ post)) run' := by
  refine (ensures_onIndex (g.legible.remove_next hy hb)).mono ?_
  rintro _ _ ⟨index, m, rfl, hl, hm⟩
  exact ⟨⟨g.prologue, g.ready.withMemory hm.size, hl⟩, .of_agrees_index hm⟩

/-- The gap swallows a free block in front of it, which leaves its list. -/
theorem delist_previous (g : run.heap.Ajar p (pre ++ [x]) o s post) (hx : x.allocated = false)
    (hb : b.offset = x.offset) :
    (delist b).Ensures run fun _ run' =>
      run'.heap.Ajar p pre x.offset (x.size + s) post ∧
        run.Spares (OffLinks (pre ++ post)) run' := by
  refine (ensures_onIndex (g.legible.remove_previous hx hb)).mono ?_
  rintro _ _ ⟨index, m, rfl, hl, hm⟩
  exact ⟨⟨g.prologue, g.ready.withMemory hm.size, hl⟩, .of_agrees_index hm⟩

/-- The gap gives up its first bytes to a marked free block, which goes on its list. -/
theorem enlist (g : run.heap.Ajar p pre o (r + s) post) (hr : Size.minBlock ≤ r) (h8 : r % 8 = 0)
    (hpre : EndsUsed pre) (hx : Extent.Marked ⟨o, r, false⟩ run.heap.memory) (hb : b.offset = o) :
    (Operation.enlist b).Ensures run fun _ run' =>
      run'.heap.Ajar p (pre ++ [⟨o, r, false⟩]) (o + r) s post ∧
        run.Spares (OffLinks (pre ++ [⟨o, r, false⟩] ++ post)) run' := by
  refine (ensures_onIndex (g.legible.insert hr h8 hpre hx hb)).mono ?_
  rintro _ _ ⟨index, m, rfl, hl, hm⟩
  exact ⟨⟨g.prologue, g.ready.withMemory hm.size, hl⟩, .of_agrees_index hm⟩

/-- The gap may be written to. -/
theorem overwrite {α : Type} {w : Step Memory α} {a : α} {m : Memory}
    (g : run.heap.Ajar p pre o s post) (hw : w run.heap.memory = .ok a m)
    (hm : run.heap.memory.Agrees kept m) (hk : ∀ i, i + 4 < o ∨ o + s ≤ i + 4 → kept i) :
    (onMemory w).Ensures run fun a' run' =>
      a' = a ∧ run'.heap.memory = m ∧ run'.heap.Ajar p pre o s post ∧ run.Spares kept run' := by
  have hend : w.Ensures run.heap.memory fun a' m' => a' = a ∧ m' = m := .of_ok hw ⟨rfl, rfl⟩
  refine (ensures_onMemory hend).mono ?_
  rintro _ _ ⟨m', rfl, rfl, rfl⟩
  exact ⟨rfl, rfl, ⟨g.prologue, g.ready.withMemory hm.size, g.legible.overwrite (hm.mono hk)⟩,
    .of_agrees hm⟩

end Ajar

namespace Gapped

theorem around (g : h.Gapped p pre o s post) : Around p pre o s post h.memory.size :=
  g.inOrder.around

/-- Reading the header of a block around the gap finds its size. -/
theorem size_eq_ok (g : h.Gapped p pre o s post) (hx : x ∈ pre ++ post)
    (hb : b.offset = x.offset) : b.size h.memory = .ok x.size :=
  (g.inOrder.within hx).size_eq_ok hb (g.inOrder.stamped.tagged x hx).header

theorem withMemory {m : Memory} (g : h.Gapped p pre o s post) (hm : m.size = h.memory.size)
    (hi : InOrder m h.index p pre o s post) : (h.withMemory m).Gapped p pre o s post :=
  ⟨g.prologue, g.ready.withMemory hm, hi⟩

/-- An empty gap may be closed where no two free blocks would touch. -/
theorem close (g : h.Gapped p pre o 0 post) (hc : Coalesced (pre ++ post)) :
    h.Shaped p (pre ++ post) :=
  ⟨g.prologue, g.ready, g.inOrder.close hc⟩

/-- A heap that is in order can be read. -/
theorem ajar (g : h.Gapped p pre o s post) : h.Ajar p pre o s post :=
  ⟨g.prologue, g.ready, g.inOrder.legible⟩

/-- The gap gives up its first bytes to a block in use that carries its tags. -/
theorem give (g : h.Gapped p pre o (r + s) post) (hr : Size.minBlock ≤ r) (h8 : r % 8 = 0)
    (ht : Extent.Tagged ⟨o, r, true⟩ h.memory) :
    h.Gapped p (pre ++ [⟨o, r, true⟩]) (o + r) s post :=
  (g.ajar.give hr h8 ht).gapped (g.inOrder.stamped.add ht).tagged

/-- A block in use that carries its tags fills a gap of its size. -/
theorem fill (g : h.Gapped p pre o r post) (hr : Size.minBlock ≤ r) (h8 : r % 8 = 0)
    (ht : Extent.Tagged ⟨o, r, true⟩ h.memory) : h.Shaped p (pre ++ ⟨o, r, true⟩ :: post) := by
  have hc := coalesced_append_cons (x := ⟨o, r, true⟩) rfl g.around.coalesced_pre
    g.around.coalesced_post
  rw [List.append_cons] at hc ⊢
  exact (give (s := 0) g hr h8 ht).close hc

/-- The gap swallows a block in use behind it. -/
theorem swallow_next (g : h.Gapped p pre o s (x :: post)) (hx : x.allocated = true) :
    h.Gapped p pre o (s + x.size) post :=
  ⟨g.prologue, g.ready, g.inOrder.swallow_next hx⟩

/-- Links may be rewritten, and what can be read is then in order as before. -/
private theorem of_offLinks {pre' post' : List Extent} {o' s' : Nat}
    (g : run.heap.Gapped p pre o s post) (g' : run'.heap.Ajar p pre' o' s' post')
    (hk : run.Spares (OffLinks (pre' ++ post')) run') (hs : pre' ++ post' ⊆ pre ++ post) :
    run'.heap.Gapped p pre' o' s' post' :=
  g'.gapped (g'.tagged hk (fun _ hi => g'.around.offLinks_of_atTag hi) fun x hx =>
    g.inOrder.stamped.tagged x (hs hx))

/-- The gap swallows a free block behind it, which leaves its list. -/
theorem delist_next (g : run.heap.Gapped p pre o s (y :: post)) (hy : y.allocated = false)
    (hb : b.offset = y.offset) :
    (delist b).Ensures run fun _ run' =>
      run'.heap.Gapped p pre o (s + y.size) post ∧ run.Spares (OffLinks (pre ++ post)) run' :=
  (g.ajar.delist_next hy hb).mono fun _ _ ⟨g', hk⟩ =>
    ⟨g.of_offLinks g' hk ((List.Sublist.refl _).middle y).subset, hk⟩

/-- The gap swallows a free block in front of it, which leaves its list. -/
theorem delist_previous (g : run.heap.Gapped p (pre ++ [x]) o s post)
    (hx : x.allocated = false) (hb : b.offset = x.offset) :
    (delist b).Ensures run fun _ run' =>
      run'.heap.Gapped p pre x.offset (x.size + s) post ∧
        run.Spares (OffLinks (pre ++ post)) run' :=
  (g.ajar.delist_previous hx hb).mono fun _ _ ⟨g', hk⟩ => ⟨g.of_offLinks g' hk (by simp), hk⟩

/-- The gap may be written to. -/
theorem overwrite {α : Type} {w : Step Memory α} {a : α} {m : Memory}
    (g : run.heap.Gapped p pre o s post) (hw : w run.heap.memory = .ok a m)
    (hm : run.heap.memory.Agrees kept m) (hk : ∀ i, i + 4 < o ∨ o + s ≤ i + 4 → kept i) :
    (onMemory w).Ensures run fun a' run' =>
      a' = a ∧ run'.heap.memory = m ∧ run'.heap.Gapped p pre o s post ∧ run.Spares kept run' := by
  refine (g.ajar.overwrite hw hm hk).mono fun _ _ ⟨ha, he, g', hs⟩ => ⟨ha, he, ?_, hs⟩
  exact g'.gapped (g'.tagged hs (fun i hi => hk i (g'.around.not_gap_of_atTag hi))
    g.inOrder.stamped.tagged)

end Gapped

/-- A heap has an empty gap between any two blocks. -/
theorem Shaped.split {h : Heap n} {p : Block} {pre post : List Extent}
    (g : h.Shaped p (pre ++ post)) : ∃ o, h.Gapped p pre o 0 post := by
  obtain ⟨o, hi⟩ := g.inOrder.split
  exact ⟨o, g.prologue, g.ready, hi⟩

/-- A block in use may be looked at as a gap, in which its tags still are. -/
theorem Shaped.gap {h : Heap n} {p : Block} {pre post : List Extent} {x : Extent}
    (g : h.Shaped p (pre ++ x :: post)) (hx : x.allocated = true) :
    h.Gapped p pre x.offset x.size post ∧ x.Within h.memory ∧ x.Tagged h.memory := by
  have hmem : x ∈ pre ++ x :: post := by simp
  obtain ⟨o, g₀⟩ := g.split
  obtain rfl : x.offset = o := g₀.around.after.1
  have g₁ := g₀.swallow_next hx
  rw [Nat.zero_add] at g₁
  exact ⟨g₁, g₀.inOrder.within hmem, g₀.inOrder.stamped.tagged x hmem⟩

end Heap

/-- The place is in neither of the two tags of the block. -/
def Extent.OffTags (x : Extent) (i : Nat) : Prop :=
  i + 4 < x.offset ∨ (x.offset ≤ i ∧ i + 8 < x.offset + x.size) ∨ x.offset + x.size ≤ i + 4

namespace Extent.Inside

variable {x : Extent} {m m' : Memory} {b : Block}

/-- A block is given its tags, and nothing else is written. -/
theorem writeTags_ensures (h : x.Inside m) (hb : b.offset = x.offset) :
    (b.writeTags x.tag).Ensures m fun _ m' => x.Tagged m' ∧ m.Agrees x.OffTags m' := by
  have h1 := h.room
  have h2 : 8 ≤ x.size := h.overhead_le
  refine .of_ok (h.writeTags_eq_ok hb) ⟨⟨?_, Memory.word_setWord ..⟩, ?_⟩
  · rw [Memory.word_setWord_of_disjoint (by omega), Memory.word_setWord]
  · refine .trans ((Memory.Agrees.setWord ..).mono ?_) ((Memory.Agrees.setWord ..).mono ?_) <;>
    · intro i hi
      simp only [OffTags] at hi
      omega

/-- A block keeps its tags while their bytes are kept. -/
theorem tagged_congr (h : x.Inside m) (ht : x.Tagged m)
    (hm : ∀ i, ¬ x.OffTags i → m'.byte i = m.byte i) : x.Tagged m' := by
  have h1 := h.room
  have h2 : 8 ≤ x.size := h.overhead_le
  have kept : ∀ i, (x.offset ≤ i + 4 ∧ i < x.offset) ∨
      (x.offset + x.size ≤ i + 8 ∧ i + 4 < x.offset + x.size) → m'.byte i = m.byte i := by
    intro i hi
    refine hm i fun hoff => ?_
    simp only [OffTags] at hoff
    omega
  exact ⟨(Memory.word_congr fun j _ _ => kept j (.inl (by omega))).trans ht.header,
    (Memory.word_congr fun j _ _ => kept j (.inr (by omega))).trans ht.footer⟩

end Extent.Inside

/-- The tags of a block inside of the gap fall on no byte of a block in use. -/
theorem Around.offTags_of_held {p : Block} {pre post : List Extent} {o s hi : Nat} {x : Extent}
    (a : Around p pre o s post hi) (h1 : o ≤ x.offset) (h2 : x.offset + x.size ≤ o + s) {i : Nat}
    (h : Held p (pre ++ post) i) : x.OffTags i := by
  have := a.not_gap_of_held h
  simp only [Extent.OffTags]
  omega

/-- **STAMPING** a block inside of the gap gives it its tags. -/
theorem Heap.Ajar.stamp {p b : Block} {pre post : List Extent} {o s : Nat} {x : Extent}
    {run : Run n} (g : run.heap.Ajar p pre o s post) (h1 : o ≤ x.offset)
    (h2 : x.offset + x.size ≤ o + s) (hs : Size.minBlock ≤ x.size) (h8 : x.size % 8 = 0)
    (hb : b.offset = x.offset) :
    Tag.make x.size x.allocated = .ok x.tag ∧
      (onMemory (b.writeTags x.tag)).Ensures run fun _ run' =>
        run'.heap.Ajar p pre o s post ∧ x.Tagged run'.heap.memory ∧
          run.Spares x.OffTags run' := by
  have hin := g.around.within_gap h1 h2 hs h8
  refine ⟨Tag.make_eq_ok h8 hin.size_le _, ?_⟩
  obtain ⟨_, m', hok, htag, hm⟩ := hin.inside.writeTags_ensures hb
  refine (g.overwrite hok hm fun i hi => ?_).mono ?_
  · simp only [Extent.OffTags]
    omega
  · rintro _ run' ⟨-, he, hg, hk⟩
    exact ⟨hg, he ▸ htag, hk⟩

theorem Heap.Gapped.stamp {p b : Block} {pre post : List Extent} {o s : Nat} {x : Extent}
    {run : Run n} (g : run.heap.Gapped p pre o s post) (h1 : o ≤ x.offset)
    (h2 : x.offset + x.size ≤ o + s) (hs : Size.minBlock ≤ x.size) (h8 : x.size % 8 = 0)
    (hb : b.offset = x.offset) :
    Tag.make x.size x.allocated = .ok x.tag ∧
      (onMemory (b.writeTags x.tag)).Ensures run fun _ run' =>
        run'.heap.Gapped p pre o s post ∧ x.Tagged run'.heap.memory ∧
          run.Spares x.OffTags run' := by
  obtain ⟨hmake, hstamp⟩ := g.ajar.stamp h1 h2 hs h8 hb
  refine ⟨hmake, hstamp.mono fun _ _ ⟨g', htag, hk⟩ => ⟨?_, htag, hk⟩⟩
  refine g'.gapped (g'.tagged hk (fun i hi => ?_) g.inOrder.stamped.tagged)
  have := g'.around.not_gap_of_atTag hi
  simp only [Extent.OffTags]
  omega

end TagHeap
