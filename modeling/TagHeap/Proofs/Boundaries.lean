import Mathlib.Data.List.Chain
import TagHeap.Proofs.Guarantees

/-!
# Boundary tags, walked both ways

A block has its tag at both ends, so that its neighbours can find their way past it. The header says
where the next block starts, and the footer of a block tells the one behind it where the block
started. So ONE STEP there and back leads to the same block (`Extent.Inside.next_previous`), and
blocks one behind the other make a chain of such steps (`Extent.exists_steps`). A chain can be read
from either end. A walk that steps on until it meets a sentinel finds what stands along the chain
(`Layout.walk_eq_ok`), and that lemma serves the walk forwards along the chain as well as the one
backwards along its reverse.

* `Bracketed m p xs stop` says that the blocks `xs` lie between a prologue and an epilogue and carry
  their tags, and nothing about the other bytes.
* `TwoWay m p xs stop` says what walks find there. It holds of what is bracketed
  (`Bracketed.twoWay`), and since no tag lies in a payload, it goes on to hold when a payload
  changes (`Bracketed.congr`, `Bracketed.not_inPayload`).
* `Block.writeHeap` writes the tags of any legal blocks between two sentinels, whatever stood in the
  memory before (`Block.writeHeap_twoWay`). The heap of every run is bracketed as well
  (`Reachable.twoWay`).
-/

namespace TagHeap

namespace Layout

/-! ## Rows of blocks -/

/-- Blocks of these sizes and uses, one behind the other from `lo` on. -/
def row (lo : Nat) : List (Nat × Bool) → List Extent
  | [] => []
  | (size, used) :: rest => ⟨lo, size, used⟩ :: row (lo + size) rest

section Rows

variable {lo : Nat} {sizes : List (Nat × Bool)} {x : Extent}

theorem tiles_row (h : ∀ s ∈ sizes, Size.Legal s.1) :
    Tiles lo (row lo sizes) (lo + (sizes.map (·.1)).sum) := by
  induction sizes generalizing lo with
  | nil => rfl
  | cons s sizes ih =>
      obtain ⟨hs, hrest⟩ := List.forall_mem_cons.1 h
      refine ⟨rfl, hs.minBlock_le, hs.aligned, ?_⟩
      rw [List.map_cons, List.sum_cons, ← Nat.add_assoc]
      exact ih hrest

theorem legal_of_mem_row (h : ∀ s ∈ sizes, Size.Legal s.1) (hx : x ∈ row lo sizes) :
    Size.Legal x.size := by
  induction sizes generalizing lo with
  | nil => cases hx
  | cons s sizes ih =>
      obtain ⟨hs, hrest⟩ := List.forall_mem_cons.1 h
      rcases List.mem_cons.mp hx with rfl | hx
      · exact hs
      · exact ih hrest hx

theorem le_of_mem_row (hx : x ∈ row lo sizes) : lo ≤ x.offset := by
  induction sizes generalizing lo with
  | nil => cases hx
  | cons s sizes ih =>
      rcases List.mem_cons.mp hx with rfl | hx
      · exact Nat.le_refl _
      · exact Nat.le_trans (Nat.le_add_right ..) (ih hx)

end Rows

/-! ## Walks -/

/-- Steps on from `b` until a sentinel is met, which is smaller than any block. Returns the blocks
on the way, as their headers tell of them, and the sentinel. -/
def walk (m : Memory) (onward : Block → Except Fault Block) :
    (count : Nat) → Block → Except Fault (List Extent × Block)
  | 0, _ => .error .endless
  | count + 1, b => do
      let c ← onward b
      let tag ← c.tag m
      if tag.size < Size.minBlock then return ([], c)
      let (rest, stop) ← walk m onward count c
      return (⟨c.offset, tag.size, tag.allocated⟩ :: rest, stop)

/-- A walk meets one block after the other, up to the sentinel. -/
theorem walk_eq_ok {m : Memory} {onward : Block → Except Fault Block} {b stop : Block}
    {bs : List Block} {t : Tag} {count : Nat}
    (hsteps : (b :: bs ++ [stop]).IsChain fun c d => onward c = .ok d)
    (hbs : ∀ c ∈ bs, (Extent.read m c.offset).Inside m ∧
      Size.minBlock ≤ (Extent.read m c.offset).size)
    (hstop : stop.tag m = .ok t) (hend : t.size < Size.minBlock) (hcount : bs.length < count) :
    walk m onward count b = .ok (bs.map fun c => Extent.read m c.offset, stop) := by
  induction bs generalizing b count with
  | nil =>
      obtain ⟨count, rfl⟩ := Nat.exists_eq_add_of_lt hcount
      have hstep : onward b = .ok stop := (List.isChain_cons_cons.1 hsteps).1
      rw [walk, bind_of_ok hstep, bind_of_ok hstop, if_pos hend]
      rfl
  | cons c bs ih =>
      obtain ⟨count, rfl⟩ := Nat.exists_eq_succ_of_ne_zero (Nat.ne_zero_of_lt hcount)
      obtain ⟨hstep, hrest⟩ := List.isChain_cons_cons.1 hsteps
      obtain ⟨⟨hin, hlarge⟩, hbs⟩ := List.forall_mem_cons.1 hbs
      have htag : c.tag m = .ok ⟨m.word (c.offset - 4)⟩ :=
        Block.tag_eq_ok hin.short hin.room (Nat.le_trans (Nat.le_add_right ..) hin.stop_le)
      have hblock : ¬ (Tag.mk (m.word (c.offset - 4))).size < Size.minBlock := Nat.not_lt.2 hlarge
      rw [walk, bind_of_ok hstep, bind_of_ok htag, if_neg hblock,
        bind_of_ok (ih hrest hbs (Nat.lt_of_succ_lt_succ hcount))]
      rfl

end Layout

open Layout

variable {m m' : Memory} {p stop b : Block} {xs : List Extent} {x : Extent}

/-! ## Blocks between sentinels -/

/-- The extent of a prologue, which is a block without a payload. -/
def Block.sentinel (p : Block) : Extent := ⟨p.offset, 8, true⟩

/-- The blocks `xs` lie one behind the other between a prologue at `p` and an epilogue at `stop`,
and all of them carry their tags. The other bytes may be anything. -/
structure Bracketed (m : Memory) (p : Block) (xs : List Extent) (stop : Block) : Prop where
  room : 4 ≤ p.offset
  tiles : Tiles (p.offset + 8) xs stop.offset
  stop_le : stop.offset ≤ m.size
  short : m.size < Size.bound
  le_maxBlock : ∀ x ∈ xs, x.size ≤ Size.maxBlock
  tagged : ∀ x ∈ p.sentinel :: xs, x.Tagged m
  epilogue : m.word (stop.offset - 4) = Tag.epilogue.word

/-- The blocks `xs` can be walked along in both directions, between the prologue `p` and the
epilogue `stop`. -/
structure TwoWay (m : Memory) (p : Block) (xs : List Extent) (stop : Block) : Prop where
  prologue : p.tag m = .ok (.pack 8 true)
  epilogue : stop.tag m = .ok .epilogue
  forwards : ∀ count, xs.length < count → walk m (·.next m) count p = .ok (xs, stop)
  backwards : ∀ count, xs.length < count →
    walk m (·.previous m) count stop = .ok (xs.reverse, p)
  /-- A block on the way has the size and the use that it is listed with. -/
  decodes : ∀ x ∈ xs, ∀ b : Block, b.offset = x.offset →
    b.size m = .ok x.size ∧ b.allocated m = .ok x.allocated
  /-- From the block behind a block, or behind the prologue, the way back leads to it. -/
  returns : ∀ x ∈ p.sentinel :: xs, ∀ b : Block, b.offset = x.offset →
    (b.next m >>= fun c => c.previous m) = .ok b

/-- Blocks that carry their tags are one step apart, in both directions. -/
theorem Extent.exists_steps (hb : b.offset = x.offset)
    (ht : Tiles (x.offset + x.size) xs stop.offset)
    (hin : ∀ y ∈ x :: xs, y.Inside m ∧ y.Tagged m) :
    ∃ bs, bs.map (fun c => Extent.read m c.offset) = xs ∧
      (b :: bs ++ [stop]).IsChain fun c d => c.next m = .ok d ∧ d.previous m = .ok c := by
  induction xs generalizing x b with
  | nil =>
      obtain ⟨⟨hx, htag⟩, -⟩ := List.forall_mem_cons.1 hin
      obtain ⟨c, hnext, hprevious, hc⟩ := hx.next_previous htag hb
      obtain rfl : c = stop := Block.ext (hc.trans ht)
      exact ⟨[], rfl, .cons_cons ⟨hnext, hprevious⟩ (.singleton c)⟩
  | cons y ys ih =>
      obtain ⟨⟨hx, htag⟩, hrest⟩ := List.forall_mem_cons.1 hin
      obtain ⟨c, hnext, hprevious, hc⟩ := hx.next_previous htag hb
      obtain ⟨hy, -, -, hys⟩ := ht
      obtain ⟨bs, hbs, hsteps⟩ := ih (hc.trans hy.symm) (hy ▸ hys) hrest
      obtain ⟨hyin, hytag⟩ := hrest y (List.mem_cons_self ..)
      refine ⟨c :: bs, ?_, .cons_cons ⟨hnext, hprevious⟩ hsteps⟩
      rw [List.map_cons, hbs, hc, ← hy, hyin.read_eq hytag]

/-- A prologue and the blocks behind it lie in a memory that reaches as far as they do. -/
theorem Tiles.inside {hi : Nat} (ht : Tiles (p.offset + 8) xs hi) (room : 4 ≤ p.offset)
    (stop_le : hi ≤ m.size) (short : m.size < Size.bound)
    (hmax : ∀ x ∈ xs, x.size ≤ Size.maxBlock) (hx : x ∈ p.sentinel :: xs) : x.Inside m := by
  rcases List.mem_cons.mp hx with rfl | hx
  · have hmaxBlock : 8 ≤ Size.maxBlock := by decide
    exact ⟨room, Nat.le_trans ht.le stop_le, Nat.le_refl 8, Nat.mod_self 8, hmaxBlock, short⟩
  · obtain ⟨hlo, hhi, hlarge, h8⟩ := ht.bounds hx
    exact ⟨by omega, Nat.le_trans hhi stop_le, Nat.le_trans (by decide) hlarge, h8, hmax x hx,
      short⟩

/-- What lies in a tag of the prologue or of a block lies in one of the tags. -/
theorem atTag_of_not_offTags {hi i : Nat} (hx : x ∈ p.sentinel :: xs) (h : ¬ x.OffTags i) :
    AtTag p xs hi i := by
  simp only [Extent.OffTags] at h
  rcases List.mem_cons.mp hx with rfl | hx
  · refine .inl ?_
    simp only [Block.sentinel] at h
    omega
  · exact .inr (.inr ⟨x, hx, by omega⟩)

namespace Bracketed

theorem inside (h : Bracketed m p xs stop) (hx : x ∈ p.sentinel :: xs) : x.Inside m :=
  h.tiles.inside h.room h.stop_le h.short h.le_maxBlock hx

theorem tag_eq_ok (h : Bracketed m p xs stop) (hx : x ∈ p.sentinel :: xs)
    (hb : b.offset = x.offset) : b.tag m = .ok x.tag :=
  (h.inside hx).tag_eq_ok hb (h.tagged x hx).header

theorem tag_prologue (h : Bracketed m p xs stop) : p.tag m = .ok (.pack 8 true) :=
  h.tag_eq_ok (x := p.sentinel) (List.mem_cons_self ..) rfl

theorem tag_epilogue (h : Bracketed m p xs stop) : stop.tag m = .ok .epilogue := by
  have hroom := h.room
  have hle := h.tiles.le
  rw [Block.tag_eq_ok h.short (by omega) h.stop_le, h.epilogue]

/-- The steps from the prologue to the epilogue, with the blocks that they lead along. -/
theorem exists_steps (h : Bracketed m p xs stop) :
    ∃ bs, bs.map (fun c => Extent.read m c.offset) = xs ∧
      (∀ c ∈ bs, (Extent.read m c.offset).Inside m ∧
        Size.minBlock ≤ (Extent.read m c.offset).size) ∧
      (p :: bs ++ [stop]).IsChain fun c d => c.next m = .ok d ∧ d.previous m = .ok c := by
  obtain ⟨bs, hbs, hsteps⟩ := Extent.exists_steps (b := p) (x := p.sentinel) rfl h.tiles
    fun x hx => ⟨h.inside hx, h.tagged x hx⟩
  refine ⟨bs, hbs, fun c hc => ?_, hsteps⟩
  have hmem : Extent.read m c.offset ∈ xs := hbs ▸ List.mem_map_of_mem hc
  exact ⟨h.inside (List.mem_cons_of_mem _ hmem), (h.tiles.bounds hmem).2.2.1⟩

theorem walk_next (h : Bracketed m p xs stop) {count : Nat} (hcount : xs.length < count) :
    walk m (·.next m) count p = .ok (xs, stop) := by
  obtain ⟨bs, rfl, hblocks, hsteps⟩ := h.exists_steps
  rw [List.length_map] at hcount
  exact walk_eq_ok (hsteps.imp fun _ _ hstep => hstep.1) hblocks h.tag_epilogue (by decide) hcount

/-- The way back goes along the same steps, from their other end. -/
theorem walk_previous (h : Bracketed m p xs stop) {count : Nat} (hcount : xs.length < count) :
    walk m (·.previous m) count stop = .ok (xs.reverse, p) := by
  obtain ⟨bs, rfl, hblocks, hsteps⟩ := h.exists_steps
  have hback : (stop :: bs.reverse ++ [p]).IsChain fun c d => c.previous m = .ok d := by
    have hreversed : stop :: bs.reverse ++ [p] = (p :: bs ++ [stop]).reverse := by simp
    rw [hreversed, List.isChain_reverse]
    exact hsteps.imp fun _ _ hstep => hstep.2
  rw [List.length_map, ← List.length_reverse] at hcount
  rw [← List.map_reverse]
  exact walk_eq_ok hback (fun c hc => hblocks c (List.mem_reverse.1 hc)) h.tag_prologue (by decide)
    hcount

/-- **BOTH WAYS.** Tags are all that it takes to walk along the blocks in either direction. -/
theorem twoWay (h : Bracketed m p xs stop) : TwoWay m p xs stop where
  prologue := h.tag_prologue
  epilogue := h.tag_epilogue
  forwards := fun _ => h.walk_next
  backwards := fun _ => h.walk_previous
  decodes := by
    intro x hx b hb
    have hmem := List.mem_cons_of_mem p.sentinel hx
    have htag := h.tag_eq_ok hmem hb
    rw [Block.size_eq_ok htag, Block.allocated_eq_ok htag, (h.inside hmem).size_tag,
      (h.inside hmem).allocated_tag]
    exact ⟨rfl, rfl⟩
  returns := by
    intro x hx b hb
    obtain ⟨c, hnext, hprevious, -⟩ := (h.inside hx).next_previous (h.tagged x hx) hb
    rw [bind_of_ok hnext, hprevious]

/-- Blocks stay bracketed while the bytes of the tags are kept. -/
theorem congr (h : Bracketed m p xs stop) (hm : m.Agrees (AtTag p xs stop.offset) m') :
    Bracketed m' p xs stop := by
  have hle := h.tiles.le
  exact
    { h with
      stop_le := hm.size ▸ h.stop_le
      short := hm.size ▸ h.short
      tagged := by
        intro x hx
        refine (h.inside hx).tagged_congr (h.tagged x hx) fun i hi => ?_
        exact hm.byte i (atTag_of_not_offTags hx hi)
      epilogue := (hm.word fun j _ _ => .inr (.inl (by omega))).trans h.epilogue }

/-- No tag lies in a payload. -/
theorem not_inPayload (h : Bracketed m p xs stop) (hx : x ∈ xs) {i : Nat}
    (hi : AtTag p xs stop.offset i) : ¬ Heap.InPayload x.offset x.size i := by
  rintro ⟨h1, h2⟩
  obtain ⟨hlo, hhi, -⟩ := h.tiles.bounds hx
  rcases hi with hi | hi | ⟨y, hy, hi⟩
  · omega
  · omega
  · by_cases hxy : x = y
    · subst hxy
      omega
    · have hlarge : 16 ≤ y.size := (h.tiles.bounds hy).2.2.1
      rcases Extent.before_or_before h.tiles.ordered hx hy hxy with hb | hb
      · have hb : x.offset + x.size ≤ y.offset := hb
        omega
      · have hb : y.offset + y.size ≤ x.offset := hb
        omega

end Bracketed

/-! ## Writing a heap -/

namespace Block

/-- Writes the tags of blocks of these sizes and uses one after another, `b` the first of them, and
returns the block behind the last one. -/
def writeRow (b : Block) : List (Nat × Bool) → Step Memory Block
  | [] => return b
  | (size, used) :: rest => do
      b.writeTags (← Tag.make size used)
      writeRow (← Step.inspect b.next) rest

/-- Writes a prologue at `p`, the tags of blocks of these sizes and uses behind it, and an epilogue.
Returns the epilogue. -/
def writeHeap (p : Block) (sizes : List (Nat × Bool)) : Step Memory Block := do
  let epilogue ← p.writeRow ((8, true) :: sizes)
  Memory.writeWord (← epilogue.header) Tag.epilogue.word
  return epilogue

variable {sizes : List (Nat × Bool)}

/-- The blocks of a row are given their tags, and nothing else is written. -/
theorem writeRow_ensures (hin : ∀ x ∈ row b.offset sizes, x.Inside m) :
    (b.writeRow sizes).Ensures m fun stop m' =>
      stop.offset = b.offset + (sizes.map (·.1)).sum ∧ (∀ x ∈ row b.offset sizes, x.Tagged m') ∧
        m.Agrees (fun i => ∀ x ∈ row b.offset sizes, x.OffTags i) m' := by
  induction sizes generalizing b m with
  | nil => exact .pure ⟨rfl, nofun, .refl ..⟩
  | cons s sizes ih =>
      obtain ⟨size, used⟩ := s
      obtain ⟨hx, hrest⟩ := List.forall_mem_cons.1 hin
      refine .lift (Tag.make_eq_ok hx.aligned hx.le_maxBlock used) ?_
      refine .bind (hx.writeTags_ensures rfl) ?_
      rintro _ m₁ ⟨htag₁, hm₁⟩
      have hx₁ := hx.congr hm₁.size
      obtain ⟨c, hnext, -, hc⟩ := hx₁.next_previous htag₁ rfl
      have hc : c.offset = b.offset + size := hc
      rw [← hc] at hrest
      refine .inspect hnext ((ih fun y hy => (hrest y hy).congr hm₁.size).mono ?_)
      rintro stop m₂ ⟨hstop, htags, hm₂⟩
      rw [hc] at hstop htags hm₂
      -- The rest of the row starts where this block ends, so it is off this block's tags.
      have htag₂ : Extent.Tagged ⟨b.offset, size, used⟩ m₂ := by
        refine hx₁.tagged_congr htag₁ fun i hi => hm₂.byte i ?_
        intro y hy
        have hle := le_of_mem_row hy
        simp only [Extent.OffTags] at hi ⊢
        omega
      refine ⟨?_, List.forall_mem_cons.2 ⟨htag₂, htags⟩, (hm₁.mono ?_).trans (hm₂.mono ?_)⟩
      · rw [hstop, List.map_cons, List.sum_cons, Nat.add_assoc]
      · intro i hi
        exact (List.forall_mem_cons.1 hi).1
      · intro i hi
        exact (List.forall_mem_cons.1 hi).2

/-- Legal blocks are written between their sentinels, and nothing is written but tags. -/
theorem writeHeap_ensures (hlegal : ∀ s ∈ sizes, Size.Legal s.1) (room : 4 ≤ p.offset)
    (short : m.size < Size.bound) (fits : p.offset + 8 + (sizes.map (·.1)).sum ≤ m.size) :
    (p.writeHeap sizes).Ensures m fun stop m' =>
      Bracketed m' p (row (p.offset + 8) sizes) stop ∧
        m.Agrees (fun i => ¬ AtTag p (row (p.offset + 8) sizes) stop.offset i) m' := by
  have ht : Tiles (p.offset + 8) (row (p.offset + 8) sizes) _ := tiles_row hlegal
  have hmax : ∀ x ∈ row (p.offset + 8) sizes, x.size ≤ Size.maxBlock :=
    fun x hx => (legal_of_mem_row hlegal hx).le_maxBlock
  have hin : ∀ x ∈ row p.offset ((8, true) :: sizes), x.Inside m :=
    fun x hx => ht.inside room fits short hmax hx
  refine .bind (writeRow_ensures hin) ?_
  rintro stop m₁ ⟨hstop, htags, hm₁⟩
  rw [List.map_cons, List.sum_cons, ← Nat.add_assoc] at hstop
  rw [← hstop] at ht fits
  have hle := ht.le
  have hsize := hm₁.size
  have hwrite := Memory.writeWord_eq_ok (m := m₁) (i := stop.offset - 4) (w := Tag.epilogue.word)
    (by omega) (by omega)
  refine .lift (header_eq_ok (by omega)) (.bind_ok hwrite (.pure ⟨?_, ?_⟩))
  · have hends : ∀ x ∈ row p.offset ((8, true) :: sizes), x.offset + x.size ≤ stop.offset :=
      List.forall_mem_cons.2 ⟨hle, fun x hx => (ht.bounds hx).2.1⟩
    exact
      { room := room
        tiles := ht
        stop_le := by rw [Memory.size_setWord, hsize]; exact fits
        short := by rw [Memory.size_setWord, hsize]; exact short
        le_maxBlock := hmax
        tagged := by
          intro x hx
          refine ((hin x hx).congr hsize).tagged_congr (htags x hx) fun i hi => ?_
          have hend := hends x hx
          simp only [Extent.OffTags] at hi
          exact Memory.byte_setWord_of_not_mem (by omega)
        epilogue := Memory.word_setWord .. }
  · refine (hm₁.mono fun i hi x hx => ?_).trans ((Memory.Agrees.setWord ..).mono fun i hi => ?_)
    · by_contra hoff
      exact hi (atTag_of_not_offTags hx hoff)
    · have hend : ¬ (stop.offset ≤ i + 4 ∧ i < stop.offset) := fun hend => hi (.inr (.inl hend))
      omega

/-- **A HEAP IS WRITTEN** over any bytes, and can be walked along both ways. All blocks are found
with the sizes and uses that they were written with, and so they are when a payload changes. -/
theorem writeHeap_twoWay (hlegal : ∀ s ∈ sizes, Size.Legal s.1) (room : 4 ≤ p.offset)
    (short : m.size < Size.bound) (fits : p.offset + 8 + (sizes.map (·.1)).sum ≤ m.size) :
    ∃ stop m', p.writeHeap sizes m = .ok stop m' ∧
      stop.offset = p.offset + 8 + (sizes.map (·.1)).sum ∧
      m.Agrees (fun i => ¬ AtTag p (row (p.offset + 8) sizes) stop.offset i) m' ∧
      TwoWay m' p (row (p.offset + 8) sizes) stop ∧
      ∀ x ∈ row (p.offset + 8) sizes, ∀ m'',
        m'.Agrees (fun i => ¬ Heap.InPayload x.offset x.size i) m'' →
          TwoWay m'' p (row (p.offset + 8) sizes) stop := by
  obtain ⟨stop, m', hok, h, hm⟩ := writeHeap_ensures hlegal room short fits
  refine ⟨stop, m', hok, h.tiles.stop_unique (tiles_row hlegal), hm, h.twoWay, ?_⟩
  intro x hx m'' hm'
  exact (h.congr (hm'.mono fun i hi => h.not_inPayload hx hi)).twoWay

/-- Three blocks, written over junk. What was written in the payload of the second one is then
cleared. -/
theorem writeHeap_twoWay_threeBlocks :
    let p : Block := ⟨8, by decide⟩
    let m := (Memory.zeroed 100).store 0 (List.replicate 100 0xFF)
    let xs : List Extent := [⟨16, 16, true⟩, ⟨32, 40, false⟩, ⟨72, 24, true⟩]
    ∃ stop m', p.writeHeap [(16, true), (40, false), (24, true)] m = .ok stop m' ∧
      stop.offset = 96 ∧ walk m' (·.next m') 4 p = .ok (xs, stop) ∧
      walk m' (·.previous m') 4 stop = .ok (xs.reverse, p) ∧
      TwoWay (m'.store 32 (List.replicate 32 0)) p xs stop := by
  intro p m xs
  have hlegal : ∀ s ∈ [(16, true), (40, false), (24, true)], Size.Legal s.1 := by decide
  obtain ⟨stop, m', hok, hstop, -, htwo, hpayload⟩ :=
    writeHeap_twoWay (p := p) (m := m) hlegal (by decide) (by decide) (by decide)
  refine ⟨stop, m', hok, hstop, htwo.forwards 4 (by decide), htwo.backwards 4 (by decide), ?_⟩
  refine hpayload ⟨32, 40, false⟩ (by simp [row, p]) _ ?_
  refine (Memory.Agrees.store ..).mono fun i hi => ?_
  simp only [Heap.InPayload] at hi
  rw [List.length_replicate]
  omega

end Block

/-! ## In every run -/

variable {n : Nat} [HasClass n] {h : Heap n} {live : Live}

/-- The blocks of a heap in shape are bracketed by its sentinels. -/
theorem Heap.Shaped.bracketed (g : h.Shaped p xs) (hstop : stop.offset = h.memory.size) :
    Bracketed h.memory p xs stop where
  room := Nat.le_trans (by decide) g.around.prologue_le
  tiles := hstop ▸ g.around.before
  stop_le := Nat.le_of_eq hstop
  short := size_lt_bound g.inOrder.legible.size_lt
  le_maxBlock := fun x hx => (g.inOrder.within (by rwa [List.append_nil])).size_le
  tagged := by
    have hs := g.inOrder.stamped
    refine List.forall_mem_cons.2 ⟨⟨hs.header, hs.footer⟩, fun x hx => ?_⟩
    exact hs.tagged x (by rwa [List.append_nil])
  epilogue := by rw [hstop, g.inOrder.stamped.epilogue]

/-- **EVERY HEAP** that has been laid out can be walked along both ways, from end to end. -/
theorem Reachable.twoWay (hr : Reachable h live) (hp : h.prologue = some p) :
    ∃ xs stop, h.layout = .ok xs ∧ stop.offset = h.size ∧ TwoWay h.memory p xs stop := by
  cases hr.serves with
  | vacant hv => cases hv.prologue.symm.trans hp
  | shaped g _ =>
      have hpos : 0 < h.memory.size := by
        have hle := g.around.before.le
        omega
      rw [g.prologue] at hp
      cases hp
      exact ⟨_, ⟨_, hpos⟩, Heap.layout_eq_ok g, rfl, (g.bracketed rfl).twoWay⟩

end TagHeap
