import TagHeap.Proofs.Auditing
import TagHeap.Proofs.Coalescing

/-!
# Growing a heap

A heap grows at its end, where the epilogue is. The new bytes and, if the last block takes part in
it, that block are a gap; its first tag takes the place of the old epilogue and a new epilogue is
written at the new end (`InOrder.stretch`).

`Heap.addRoom` makes a free block of the new bytes, and `Heap.layOut` starts a heap at the end of
what the region holds, however it came to be there. Growing that fails changes NOTHING.
-/

namespace TagHeap

open Layout Operation Step

variable {n : Nat}

namespace Operation

variable {run : Run n}

/-- The epilogue is written to the last word, if that is where the block ends. -/
theorem writeEpilogue_ensures {b : Block} {t : Tag} (fits : run.heap.memory.size < Size.bound)
    (ht : b.tag run.heap.memory = .ok t) (hend : b.offset + t.size = run.heap.memory.size)
    (hroom : 4 ≤ run.heap.memory.size) :
    (writeEpilogue b).Ensures run fun _ run' => run' =
      ⟨run.heap.withMemory (run.heap.memory.setWord (run.heap.memory.size - 4) Tag.epilogue.word),
        run.journal⟩ := by
  have hheader : (Block.mk (b.offset + t.size) (Nat.add_pos_left b.pos _)).header =
      .ok (run.heap.memory.size - 4) := by
    rw [Block.header_eq_ok (by dsimp only; omega)]
    dsimp only
    rw [hend]
  have hwrite := Memory.writeWord_eq_ok (w := Tag.epilogue.word) fits
    (i := run.heap.memory.size - 4) (by omega)
  refine ensures_inspect (Block.next_eq_ok ht (by omega)) (.lift hheader ?_)
  refine (ensures_onMemory (.of_eq_ok hwrite)).mono ?_
  rintro _ _ ⟨m, rfl, rfl⟩
  rfl

end Operation

variable [HasClass n]

/-- A gap that reaches to the end of the memory may be stretched to another end, where the epilogue
is now. What the gap holds does not matter. -/
theorem InOrder.stretch {m m' : Memory} {index : Index n} {p : Block} {pre : List Extent}
    {o s : Nat} (g : InOrder m index p pre o s []) (h8 : m'.size % 8 = 0) (ho : o ≤ m'.size)
    (hmax : m'.size ≤ Region.maxSize) (hm : ∀ i, i + 4 < o → m'.byte i = m.byte i)
    (he : m'.word (m'.size - 4) = Tag.epilogue.word) :
    InOrder m' index p pre o (m'.size - o) [] := by
  have hp := g.around.prologue_le
  have hgap := g.around.bounds
  have hword : ∀ i, i + 8 ≤ o → m'.word i = m.word i := fun i hi =>
    Memory.word_congr fun j _ _ => hm j (by omega)
  have hinside : ∀ x ∈ pre ++ [], 8 ≤ x.offset ∧ 16 ≤ x.size ∧ x.offset + x.size ≤ o := by
    intro x hx
    have hin := g.within hx
    rw [List.append_nil] at hx
    exact ⟨hin.room, hin.large, (g.around.before.bounds hx).2.1⟩
  refine ⟨g.around.stretch h8 ho hmax, ⟨?_, ?_, he, fun x hx => ?_⟩, ?_⟩
  · rw [hword _ (by omega), g.stamped.header]
  · rw [hword _ (by omega), g.stamped.footer]
  · obtain ⟨h1, h2, h3⟩ := hinside x hx
    have ht := g.stamped.tagged x hx
    exact ⟨by rw [hword _ (by omega), ht.header], by rw [hword _ (by omega), ht.footer]⟩
  · refine g.listed.congr fun x hx _ i h1 h2 => hm i ?_
    have := hinside x hx
    omega

namespace Heap

variable {run : Run n} {p b : Block} {pre xs : List Extent} {o s size : Nat} {u : Bool}

/-- The region may grow by so much. -/
def Fits (h : Heap n) (increment : Nat) : Prop := increment ≤ h.region.limit - h.size

/-- The heap when its region has grown and nothing was written yet. -/
def grown (h : Heap n) (increment : Nat) : Heap n := h.withMemory (h.memory.grow increment)

/-- **STRETCHING.** When the region has grown, the gap at the end of the heap is made a block that
reaches to the new end, and the epilogue follows it. The payload of that block keeps its bytes. -/
theorem ensures_stretch {β : Type} {f : Unit → Operation n β} {post : β → Run n → Prop}
    (g : run.heap.Gapped p pre o s []) {increment : Nat} (hfits : run.heap.Fits increment)
    (hsum : s + increment = size) (h8 : size % 8 = 0) (hs : Size.minBlock ≤ size)
    (hb : b.offset = o)
    (next : ∀ run', run'.heap.Gapped p pre o size [] → Extent.Tagged ⟨o, size, u⟩ run'.heap.memory →
      run.Spares (fun i => i + 4 < o ∨ (o ≤ i ∧ i + 8 < o + size)) run' →
      (f ()).Ensures run' post) :
    Ensures (onMemory (b.writeTags (Extent.mk o size u).tag) >>= fun _ => writeEpilogue b >>= f)
      ⟨run.heap.grown increment, run.journal⟩ post := by
  have hready := g.ready.grow hfits
  have hlo := g.around.prologue_le
  have hgap := g.around.bounds
  have hgap8 := g.around.gap
  have ho8 := g.around.offset_mod
  have hend : o + s = run.heap.memory.size := g.around.after
  have hlimit : run.heap.memory.size + increment ≤ Region.maxSize :=
    Nat.le_trans hready.size_le hready.limit_le
  have hin : Extent.Within ⟨o, size, u⟩ (run.heap.memory.grow increment) :=
    ⟨by dsimp only; omega, by dsimp only [Memory.size_grow]; omega, hs, h8, hlimit⟩
  have hlarge : 16 ≤ size := hs
  have short := size_lt_bound hin.size_lt
  generalize hx : Extent.mk o size u = x at *
  have hxo : x.offset = o := hx ▸ rfl
  have hxs : x.size = size := hx ▸ rfl
  -- The header takes the place of the old epilogue if the gap is empty.
  refine .bind (ensures_onMemory (.of_eq_ok (hin.writeTags_eq_ok (hb.trans hxo.symm)))) ?_
  rintro _ _ ⟨m₁, rfl, hm₁⟩
  have hsize₁ : m₁.size = run.heap.memory.size + increment := by
    rw [hm₁, Memory.size_setWord, Memory.size_setWord, Memory.size_grow]
  have hheader : m₁.word (x.offset - 4) = x.tag.word := by
    rw [hm₁, Memory.word_setWord_of_disjoint (by omega), Memory.word_setWord]
  have hfooter : m₁.word (x.offset + x.size - 8) = x.tag.word := by
    rw [hm₁, Memory.word_setWord]
  have hkept : ∀ i, x.OffTags i → m₁.byte i = run.heap.memory.byte i := by
    intro i hi
    simp only [Extent.OffTags] at hi
    rw [hm₁, Memory.byte_setWord_of_not_mem (by omega), Memory.byte_setWord_of_not_mem (by omega),
      Memory.byte_grow]
  have hin₁ : x.Within m₁ :=
    ⟨hin.room, by rw [hsize₁]; exact hin.stop_le, hin.large, hin.aligned,
      by rw [hsize₁]; exact hlimit⟩
  -- The block now tells where it ends, and that is where the epilogue goes.
  have htag := hin₁.tag_eq_ok (hb.trans hxo.symm) hheader
  refine .bind (writeEpilogue_ensures (t := x.tag) (size_lt_bound hin₁.size_lt) htag ?_ ?_) ?_
  · rw [hin.size_tag]
    show b.offset + x.size = m₁.size
    omega
  · show 4 ≤ m₁.size
    omega
  rintro _ _ rfl
  -- Behind the gap nothing is left, and in front of it nothing was written.
  have hsize₂ : (m₁.setWord (m₁.size - 4) Tag.epilogue.word).size =
      run.heap.memory.size + increment := by rw [Memory.size_setWord, hsize₁]
  have hother : ∀ i, i + 4 < o + size → (m₁.setWord (m₁.size - 4) Tag.epilogue.word).byte i =
      m₁.byte i := fun i hi => Memory.byte_setWord_of_not_mem (by omega)
  have hi : InOrder (m₁.setWord (m₁.size - 4) Tag.epilogue.word) run.heap.index p pre o
      size [] := by
    rw [← show (m₁.setWord (m₁.size - 4) Tag.epilogue.word).size - o = size by omega]
    refine g.inOrder.stretch (by omega) (by omega) (by omega) (fun i hi => ?_) ?_
    · rw [hother i (by omega), hkept i (.inl (by omega))]
    · rw [Memory.size_setWord, Memory.word_setWord]
  refine next _ ⟨g.prologue, hready.withMemory hsize₂, hi⟩ ⟨?_, ?_⟩
    ⟨fun i hi => ?_, rfl, rfl, rfl, .refl _⟩
  · exact (Memory.word_congr fun j _ _ => hother j (by omega)).trans hheader
  · exact (Memory.word_congr fun j _ _ => hother j (by omega)).trans hfooter
  · exact (hother i (by omega)).trans (hkept i (by simp only [Extent.OffTags]; omega))

/-- A legal block size needs no rounding. -/
private theorem roundUp_of_mod (h8 : size % 8 = 0) (hmax : size ≤ Size.maxBlock) :
    Size.roundUp size = .ok size := by
  simp only [Size.maxBlock] at hmax
  rw [Size.roundUp_eq_ok (by simp only [Size.granule, Size.bound]; omega), Size.ceil_of_mod h8]

/-- **NO ROOM TO ADD.** Where the region cannot grow so much, nothing happens. -/
theorem addRoom_of_not_fits (g : run.heap.Shaped p xs) (h8 : size % 8 = 0)
    (hmax : size ≤ Size.maxBlock) (hfits : ¬ run.heap.Fits size) :
    addRoom size run =
      .ok (.error (.exhausted size (run.heap.region.limit - run.heap.size))) run := by
  have hround := Step.lift_of_ok (roundUp_of_mod h8 hmax) run
  have hgrow := Operation.grow_of_ready g.ready size
  rw [if_pos (Nat.lt_of_not_le hfits)] at hgrow
  rw [addRoom, Step.bind_of_ok hround, Step.bind_of_ok hgrow]
  rfl

/-- **ADDING ROOM** puts a free block at the end of the heap, merged with the last block if that one
is free, and returns it. -/
theorem addRoom_ensures (g : run.heap.Shaped p xs) (hs : Size.minBlock ≤ size) (h8 : size % 8 = 0)
    (hfits : run.heap.Fits size) :
    (addRoom size).Ensures run fun answer run' => ∃ b, answer = .ok b ∧
      run'.heap.Shaped p (merge (xs ++ [⟨run.heap.size, size, false⟩])) ∧
      (∃ x ∈ merge (xs ++ [⟨run.heap.size, size, false⟩]), x.allocated = false ∧
        x.offset = b.offset ∧ size ≤ x.size) ∧
      run.Spares (Held p xs) run' := by
  have hlo := g.around.prologue_le
  have hpos := g.around.bounds.1
  have hready := g.ready.grow hfits
  have hlimit : run.heap.memory.size + size ≤ Region.maxSize :=
    Nat.le_trans hready.size_le hready.limit_le
  have hmax : size ≤ Size.maxBlock := by
    simp only [Region.maxSize] at hlimit
    simp only [Size.maxBlock]
    omega
  have hgrow := Operation.grow_of_ready g.ready size
  rw [if_neg (Nat.not_lt_of_le hfits)] at hgrow
  have hmake := Tag.make_eq_ok h8 hmax false
  refine .lift (roundUp_of_mod h8 hmax) (.bind_ok hgrow ?_)
  have hblock : Block.ofOffset run.heap.size =
      .ok ⟨run.heap.memory.size, Nat.lt_of_lt_of_le (Nat.add_pos_right _ (by decide)) hpos⟩ :=
    dif_pos _
  refine .lift hblock (.lift hmake ?_)
  refine ensures_stretch g hfits (Nat.zero_add size) h8 hs rfl fun run₁ g₁ htag hk₁ => ?_
  have hreport : run₁.Spares (Held p xs) _ := (Run.Spares.refl _ run₁).record
    (e := .extended size run₁.heap.size) nofun
  refine ensures_heap (ensures_record
    (.bind (coalesce_ensures (by exact g₁) hs rfl htag.header) ?_))
  rintro b run₂ ⟨hshape, ⟨x, hx, hfree, hxb, hle, hge⟩, hk₂⟩
  refine .pure ⟨b, rfl, hshape, ⟨x, hx, hfree, hxb, by omega⟩, ?_⟩
  have hk₁ := hk₁.mono (k := Held p xs) fun i hi => by
    have := g.around.not_gap_of_held (i := i) (by rwa [List.append_nil])
    have := g.around.held_lt (i := i) (by rwa [List.append_nil])
    omega
  exact (hk₁.trans hreport).trans (hk₂.mono fun i hi => by rwa [List.append_nil])

end Heap

/-! ## Laying out -/

/-- The memory after the pad and the sentinels were written to its last sixteen bytes. -/
def Memory.withSentinels (m : Memory) (start : Nat) : Memory :=
  (((m.setWord start 0).setWord (start + 4) (Tag.pack 8 true).word).setWord (start + 8)
    (Tag.pack 8 true).word).setWord (start + 12) Tag.epilogue.word

@[simp] theorem Memory.size_withSentinels (m : Memory) (start : Nat) :
    (m.withSentinels start).size = m.size := by
  simp only [withSentinels, size_setWord]

/-- The sentinels alone are a heap without blocks. -/
theorem inOrder_withSentinels {m : Memory} {start : Nat} {p : Block} (h8 : start % 8 = 0)
    (hm : m.size = start + 16) (hmax : m.size ≤ Region.maxSize) (hp : p.offset = start + 8) :
    InOrder (m.withSentinels start) (Index.empty : Index n) p [] (m.withSentinels start).size 0
      [] := by
  have hsize : (m.withSentinels start).size = start + 16 := by rw [Memory.size_withSentinels, hm]
  have around : Around p [] (start + 16) 0 [] (start + 16) :=
    { aligned := by omega
      before := by show p.offset + 8 = start + 16; omega
      after := rfl
      gap := rfl
      coalesced_pre := .nil
      coalesced_post := .nil
      short := by omega }
  refine ⟨hsize ▸ around, ⟨?_, ?_, ?_, nofun⟩, Index.lists_empty⟩
  · rw [hp, show start + 8 - 4 = start + 4 by omega, Memory.withSentinels,
      Memory.word_setWord_of_disjoint (by omega), Memory.word_setWord_of_disjoint (by omega),
      Memory.word_setWord]
  · rw [hp, Memory.withSentinels, Memory.word_setWord_of_disjoint (by omega), Memory.word_setWord]
  · rw [hsize, show start + 16 - 4 = start + 12 by omega, Memory.withSentinels, Memory.word_setWord]

theorem byte_withSentinels {m : Memory} {start i : Nat} (hi : i < start) :
    (m.withSentinels start).byte i = m.byte i := by
  rw [Memory.withSentinels, Memory.byte_setWord_of_not_mem (by omega),
    Memory.byte_setWord_of_not_mem (by omega), Memory.byte_setWord_of_not_mem (by omega),
    Memory.byte_setWord_of_not_mem (by omega)]

namespace Heap

variable {run : Run n}

/-- The heap is not laid out and has no free blocks. -/
structure Vacant (h : Heap n) : Prop where
  prologue : h.prologue = none
  index : h.index = .empty
  sound : h.region.Sound

theorem Shaped.sound {h : Heap n} {p : Block} {xs : List Extent} (g : h.Shaped p xs) :
    h.region.Sound :=
  g.ready.sound g.around.hi_mod

/-- The first chunk of a heap is its only block, if there is room for it. -/
private theorem firstChunk_ensures {p : Block} {start : Nat} (stop : Nat) (bounds : Region.Bounds)
    (g : run.heap.Shaped p []) (hbounds : run.heap.region.bounds = bounds)
    (hstop : run.heap.size = stop) :
    Ensures (do
        match ← addRoom (← heap).settings.chunkSize with
        | .error e => return .error ⟨e⟩
        | .ok _ =>
          record (.laidOut start (← heap).size)
          selfAudit
          return .ok ()) run fun (answer : Except OutOfMemory Unit) run' =>
      run.Spares (Held p []) run' ∧
        match bounds.refuse? stop run.heap.settings.chunkSize with
        | some e => answer = .error ⟨e⟩ ∧ run'.heap.Shaped p []
        | none => answer = .ok () ∧ run'.heap.Shaped p
            [⟨stop, run.heap.settings.chunkSize, false⟩] := by
  subst hbounds hstop
  have h8 := run.heap.settings.chunk_aligned
  have hrefuse := g.ready.refuse?_eq run.heap.settings.chunkSize
  rw [show run.heap.region.size = run.heap.size from rfl] at hrefuse
  refine ensures_heap ?_
  by_cases hfits : run.heap.Fits run.heap.settings.chunkSize
  · rw [hrefuse, if_neg (Nat.not_lt.2 hfits)]
    refine .bind (addRoom_ensures g run.heap.settings.minBlock_le_chunk h8 hfits) ?_
    rintro _ run₁ ⟨b, rfl, hshape, -, hk⟩
    refine ensures_heap (ensures_record ?_)
    have hk' := hk.record (e := .laidOut start run₁.heap.size) nofun
    exact .bind_ok (selfAudit_eq_ok hshape _) (.pure ⟨hk', rfl, hshape⟩)
  · rw [hrefuse, if_pos (Nat.lt_of_not_le hfits)]
    have hroom := addRoom_of_not_fits g h8 run.heap.settings.chunk_le_maxBlock hfits
    exact .bind_ok hroom (.pure ⟨.refl _ _, rfl, g⟩)

omit [HasClass n] in
/-- **THE SENTINELS** are written to the last sixteen bytes of the region, the pad first. -/
private theorem ensures_sentinels {β : Type} {f : Block → Operation n β} {post : β → Run n → Prop}
    {p : Block} {start : Nat} (hsize : run.heap.memory.size = start + 16)
    (hmax : run.heap.memory.size ≤ Region.maxSize) (hp : p.offset = start + 8)
    (next : (f p).Ensures ⟨run.heap.withMemory (run.heap.memory.withSentinels start), run.journal⟩
      post) :
    Ensures (onMemory (Memory.writeWord start 0) >>= fun _ => liftM (Size.add start 8) >>= fun o =>
      liftM (Block.ofOffset o) >>= fun b => liftM (Tag.make 8 true) >>= fun t =>
      onMemory (b.writeTags t) >>= fun _ => writeEpilogue b >>= fun _ => f b) run post := by
  have short : run.heap.memory.size < Size.bound := Nat.lt_of_le_of_lt hmax (by decide)
  have hpad := Memory.writeWord_eq_ok (m := run.heap.memory) (i := start) (w := 0) short (by omega)
  refine .bind (ensures_onMemory (.of_eq_ok hpad)) ?_
  rintro _ _ ⟨m₁, rfl, hm₁⟩
  have hsize₁ : m₁.size = start + 16 := by rw [hm₁, Memory.size_setWord, hsize]
  have hblock : Block.ofOffset (start + 8) = .ok p := by rw [← hp, Block.ofOffset_eq_ok]
  have htags := Block.writeTags_eq_ok (b := p) (m := m₁) (t := .pack 8 true) (by omega) (by omega)
    (by rw [Tag.size_sentinel]; omega) (by omega) (by rw [Tag.size_sentinel]; omega)
    (by rw [Tag.size_sentinel]; omega)
  refine .lift (Size.add_eq_ok (by omega)) (.lift hblock (.lift (Tag.make_eq_ok rfl (by decide) _)
    (.bind (ensures_onMemory (.of_eq_ok htags)) ?_)))
  rintro _ _ ⟨m₂, rfl, hm₂⟩
  have hsize₂ : m₂.size = start + 16 := by
    rw [hm₂, Memory.size_setWord, Memory.size_setWord, hsize₁]
  have htag : p.tag m₂ = .ok (.pack 8 true) := by
    rw [Block.tag_eq_ok (by omega) (by omega) (by omega), hm₂, Tag.size_sentinel,
      Memory.word_setWord_of_disjoint (by omega), Memory.word_setWord]
  refine .bind (writeEpilogue_ensures (t := .pack 8 true) (by show m₂.size < _; omega) htag
    (by rw [Tag.size_sentinel]; show p.offset + 8 = m₂.size; omega) (by show 4 ≤ m₂.size; omega)) ?_
  rintro _ _ rfl
  -- The four words were written one after the other.
  have hsent : m₂.setWord (m₂.size - 4) Tag.epilogue.word =
      run.heap.memory.withSentinels start := by
    rw [hsize₂, hm₂, hm₁, Memory.withSentinels, Tag.size_sentinel, hp,
      show start + 16 - 4 = start + 12 by omega, show start + 8 - 4 = start + 4 by omega,
      show start + 8 + 8 - 8 = start + 8 by omega]
  rw [← hsent] at next
  exact next

/-- **LAYING OUT** a heap follows from how much the region still grows: for the sentinels, and for
the chunk behind them. The bytes that the region had granted before stay. -/
theorem layOut_planned (hs : run.heap.region.Sound) :
    layOut.Ensures run fun answer run' =>
      run'.heap.settings = run.heap.settings ∧
      (∀ i < run.heap.size, run'.heap.memory.byte i = run.heap.memory.byte i) ∧
      Quiet run.journal run'.journal ∧
      run'.heap.region.bounds = run.heap.region.bounds.reserve.2 ∧
      match run.heap.region.bounds.refuse? run.heap.size 16 with
      | some e => answer = .error ⟨e⟩ ∧ run'.heap.Vacant ∧ run'.heap.memory = run.heap.memory
      | none => ∃ p, p.offset = run.heap.size + 8 ∧
          match run.heap.region.bounds.reserve.2.refuse? (run.heap.size + 16)
            run.heap.settings.chunkSize with
          | some e => answer = .error ⟨e⟩ ∧ run'.heap.Shaped p []
          | none => answer = .ok () ∧ run'.heap.Shaped p
              [⟨run.heap.size + 16, run.heap.settings.chunkSize, false⟩] := by
  refine .bind_ok rfl (.bind (ensures_grow (Region.Sound.grow (by exact hs) rfl)) ?_)
  rintro answer _ ⟨r, journal, rfl, ⟨hsound, hbounds, hr⟩, hquiet⟩
  have hbounds : r.bounds = run.heap.region.bounds.reserve.2 := hbounds
  cases hrefuse : run.heap.region.bounds.refuse? run.heap.size 16 with
  | some e =>
      have hrefuse' : run.heap.region.bounds.refuse? run.heap.region.size 16 = some e := hrefuse
      rw [hrefuse'] at hr
      obtain ⟨rfl, hm⟩ := hr
      exact .pure ⟨rfl, fun i _ => congrArg (·.byte i) hm, hquiet, hbounds, rfl,
        ⟨rfl, rfl, hsound⟩, hm⟩
  | none =>
      obtain ⟨start, hstart⟩ : ∃ start, start = run.heap.size := ⟨_, rfl⟩
      have hrefuse' : run.heap.region.bounds.refuse? run.heap.region.size 16 = none := hrefuse
      rw [hrefuse', show run.heap.region.size = start from hstart.symm] at hr
      obtain ⟨rfl, hm, hready⟩ := hr
      have hm : r.memory = run.heap.memory.grow 16 := hm
      have h8 : start % 8 = 0 := by rw [hstart]; exact hs.aligned
      have hsize : r.memory.size = start + 16 := by
        rw [hm, Memory.size_grow, hstart]
        rfl
      have hlimit : r.memory.size ≤ Region.maxSize := Nat.le_trans hready.size_le hready.limit_le
      refine ensures_sentinels (p := ⟨start + 8, Nat.succ_pos _⟩) hsize hlimit rfl ?_
      have hshape := inOrder_withSentinels (n := n) (p := ⟨start + 8, Nat.succ_pos _⟩) h8 hsize
        hlimit rfl
      have hbytes : ∀ i < start, (r.memory.withSentinels start).byte i =
          run.heap.memory.byte i := by
        intro i hi
        rw [byte_withSentinels hi, hm]
        rfl
      have hsize' := Memory.size_withSentinels r.memory start
      refine .bind_ok rfl ((firstChunk_ensures (p := ⟨start + 8, Nat.succ_pos _⟩) (start + 16)
        r.bounds ?_ ?_ ?_).mono ?_)
      · exact ⟨rfl, hready.withMemory hsize', hshape⟩
      · exact Region.bounds_withMemory r _
      · exact hsize'.trans hsize
      · rintro answer run' ⟨hk, hrun'⟩
        have hbounds' := hk.bounds_eq.trans (Region.bounds_withMemory r _)
        refine ⟨hk.settings, fun i hi => ?_, hquiet.trans hk.quiet, hbounds'.trans hbounds,
          ⟨start + 8, Nat.succ_pos _⟩, congrArg (· + 8) hstart, ?_⟩
        · have hi : i < start := hstart ▸ hi
          exact (hk.byte i (.inl (by dsimp only; omega))).trans (hbytes i hi)
        · rw [← hstart, ← hbounds]
          exact hrun'

/-- Laying out a heap ends with one free block of the chunk's size behind new sentinels, or without
blocks, or without sentinels. -/
theorem layOut_ensures (hs : run.heap.region.Sound) :
    layOut.Ensures run fun answer run' =>
      run'.heap.settings = run.heap.settings ∧
      (∀ i < run.heap.size, run'.heap.memory.byte i = run.heap.memory.byte i) ∧
      Quiet run.journal run'.journal ∧
      match answer with
      | .error _ => (run'.heap.Vacant ∧ run'.heap.memory = run.heap.memory) ∨
          ∃ p, p.offset = run.heap.size + 8 ∧ run'.heap.Shaped p []
      | .ok () => ∃ p, p.offset = run.heap.size + 8 ∧ run'.heap.Shaped p
          [⟨run.heap.size + 16, run.heap.settings.chunkSize, false⟩] := by
  refine (layOut_planned hs).mono ?_
  rintro answer run' ⟨hsettings, hbytes, hquiet, -, hspec⟩
  refine ⟨hsettings, hbytes, hquiet, ?_⟩
  split at hspec
  · obtain ⟨rfl, hv, hm⟩ := hspec
    exact .inl ⟨hv, hm⟩
  · obtain ⟨p, hp, hspec⟩ := hspec
    split at hspec
    · obtain ⟨rfl, g⟩ := hspec
      exact .inr ⟨p, hp, g⟩
    · obtain ⟨rfl, g⟩ := hspec
      exact ⟨p, hp, g⟩

end Heap

end TagHeap
