import TagHeap.Proofs.Counting
import TagHeap.Proofs.Tracing

/-!
# Walking over blocks

The walk from the prologue to the epilogue, over memory that may hold any bytes. Every block that
passes is at least as large as the smallest legal one, so the walk goes up, and a block has to lie
inside of the memory, so it ends.

`Walked` says what the walk accepts. Whether it goes on follows from the size in the header
(`Audit.walked_of_size_eq_zero`, `Audit.walked_of_size_ne_zero`), and that is also what a step of
the walk looks at first (`Audit.blocks_end_decides`, `Audit.blocks_succ_decides`).
-/

namespace TagHeap

open Layout

variable {n : Nat} [HasClass n] {m : Memory} {b : Block}

namespace Audit

/-! ## The blocks -/

/-- From `lo` on the blocks `xs` tile the memory up to the epilogue. All of them are marked, no two
free ones touch, and every free one is in the table under its class. After a free block the first
of them has to be in use. -/
structure Walked (m : Memory) (listed : Listed n) (afterFree : Bool) (lo : Nat)
    (xs : List Extent) : Prop where
  tiles : Tiles lo xs m.size
  aligned : ∀ x ∈ xs, x.offset % 8 = 0
  marked : ∀ x ∈ xs, x.Marked m
  epilogue : m.word (m.size - 4) = Tag.epilogue.word
  coalesced : Coalesced xs
  starts : afterFree = true → StartsUsed xs
  found : ∀ x ∈ xs, x.allocated = false → ∀ b : Block, b.offset = x.offset →
    listed.lookup b = some (Index.classOf n x.size)

section Blocks

variable {listed : Listed n} {afterFree : Bool} {lo : Nat} {x : Extent} {xs : List Extent}

theorem walked_nil :
    Walked m listed afterFree lo [] ↔ lo = m.size ∧ m.word (m.size - 4) = Tag.epilogue.word := by
  constructor
  · intro h
    exact ⟨h.tiles, h.epilogue⟩
  · rintro ⟨hlo, hepilogue⟩
    exact ⟨hlo, nofun, nofun, hepilogue, .nil, fun _ => nofun, nofun⟩

/-- A walk is its first block and the walk behind it. -/
theorem walked_cons (hlo : 4 ≤ lo) :
    Walked m listed afterFree lo (x :: xs) ↔
      x = Extent.read m lo ∧ x.Intact m ∧
        (x.allocated = false → afterFree = false ∧
          ∀ b : Block, b.offset = x.offset → listed.lookup b = some (Index.classOf n x.size)) ∧
        Walked m listed (!x.allocated) (lo + x.size) xs := by
  constructor
  · intro h
    obtain ⟨hmarked, hmarkedTail⟩ := List.forall_mem_cons.1 h.marked
    obtain ⟨haligned, halignedTail⟩ := List.forall_mem_cons.1 h.aligned
    obtain ⟨hfound, hfoundTail⟩ := List.forall_mem_cons.1 h.found
    obtain ⟨rfl, hlarge, -, hrest⟩ := h.tiles
    refine ⟨hmarked.header.symm, ⟨hmarked, haligned, hlo, hlarge, hrest.le⟩, ?_, hrest,
      halignedTail, hmarkedTail, h.epilogue, h.coalesced.tail, ?_, hfoundTail⟩
    · intro hfree
      refine ⟨?_, hfound hfree⟩
      cases afterFree with
      | false => rfl
      | true => exact absurd ((h.starts rfl) x rfl) (by rw [hfree]; exact nofun)
    · intro hfree
      rw [Bool.not_eq_true'] at hfree
      exact startsUsed_of_coalesced h.coalesced hfree
  · rintro ⟨hx, hintact, hfree, h⟩
    have hoffset : x.offset = lo := by rw [hx]; rfl
    refine ⟨⟨hoffset, hintact.large, hintact.size_mod, h.tiles⟩,
      List.forall_mem_cons.2 ⟨hintact.aligned, h.aligned⟩,
      List.forall_mem_cons.2 ⟨hintact.toMarked, h.marked⟩, h.epilogue,
      List.isChain_cons.2 ⟨?_, h.coalesced⟩, ?_,
      List.forall_mem_cons.2 ⟨fun hu => (hfree hu).2, h.found⟩⟩
    · intro y hy
      cases hu : x.allocated with
      | true => exact .inl hu
      | false => exact .inr (h.starts (by rw [hu]; rfl) y hy)
    · rintro rfl y hy
      obtain rfl : x = y := Option.some.inj hy
      cases hu : x.allocated with
      | true => rfl
      | false => exact nomatch (hfree hu).1

/-- A header of size zero is no block's, so the walk ends there. -/
theorem walked_of_size_eq_zero (hlo : 4 ≤ lo) (hsize : (Extent.read m lo).size = 0) :
    Walked m listed afterFree lo xs ↔
      xs = [] ∧ lo = m.size ∧ m.word (m.size - 4) = Tag.epilogue.word := by
  constructor
  · intro h
    cases xs with
    | nil => exact ⟨rfl, walked_nil.1 h⟩
    | cons x xs =>
        obtain ⟨rfl, hintact, -⟩ := (walked_cons hlo).1 h
        have hlarge : 16 ≤ (Extent.read m lo).size := hintact.large
        omega
  · rintro ⟨rfl, hend⟩
    exact walked_nil.2 hend

/-- Any other header is not the epilogue, so the walk goes on. -/
theorem walked_of_size_ne_zero (hlo : 4 ≤ lo) (hx : x = Extent.read m lo) (hsize : x.size ≠ 0) :
    Walked m listed afterFree lo xs ↔
      ∃ ys, xs = x :: ys ∧ x.Intact m ∧
        (x.allocated = false → afterFree = false ∧
          ∀ b : Block, b.offset = x.offset → listed.lookup b = some (Index.classOf n x.size)) ∧
        Walked m listed (!x.allocated) (lo + x.size) ys := by
  constructor
  · intro h
    cases xs with
    | nil =>
        obtain ⟨hend, hword⟩ := walked_nil.1 h
        refine absurd ?_ hsize
        rw [hx]
        show (Tag.mk (m.word (lo - 4))).size = 0
        rw [hend, hword]
        rfl
    | cons y ys =>
        obtain ⟨hy, hwalked⟩ := (walked_cons hlo).1 h
        obtain rfl : x = y := hx.trans hy.symm
        exact ⟨ys, rfl, hwalked⟩
  · rintro ⟨ys, rfl, hwalked⟩
    exact (walked_cons hlo).2 ⟨hx, hwalked⟩

/-- A free block passes its check where the block before it is not free and it is in the table under
its class. -/
theorem freeBlock_decides (listed : Listed n) (last : Option Block) (b : Block) (size : Nat) :
    Decides (freeBlock listed last b size) fun u =>
      u = () ∧ last = none ∧ listed.lookup b = some (Index.classOf n size) := by
  cases last with
  | some last => exact .of_fail (by rintro _ ⟨-, h, -⟩; exact nomatch h)
  | none =>
      rw [freeBlock]
      refine .bind_ok (a := ()) rfl ?_
      cases hfound : listed.lookup b with
      | none => exact .of_fail (by rintro _ ⟨-, -, h⟩; exact nomatch h)
      | some c =>
          refine (Decides.require_prop (c = Index.classOf n size) _).congr fun u => ?_
          rw [Option.some.injEq]
          exact and_congr_right fun _ => (and_iff_right rfl).symm

variable {r : Region} {last : Option Block} {s : Summary}

/-- Where the header has size zero, the walk ends, and that has to be at the epilogue. -/
theorem blocks_end_decides (short : r.memory.size ≤ Region.maxSize) (h4 : 4 ≤ b.offset)
    (count : Nat) (hsize : (Extent.read r.memory b.offset).size = 0) :
    Decides (blocks r listed (count + 1) s last b) fun total =>
      (b.offset = r.memory.size ∧ r.memory.word (r.memory.size - 4) = Tag.epilogue.word) ∧
        total = s := by
  have key : Decides (blocks r listed (count + 1) s last b) fun total =>
      b.offset - 4 + 4 ≤ r.memory.size ∧
        (r.memory.word (b.offset - 4) = Tag.epilogue.word ∧
          r.highest? = some (b.offset - 4 + 4 - 1)) ∧ total = s := by
    rw [blocks]
    refine .bind_ok (Block.header_eq_ok h4) (.bind_eq (.wordOr r.memory _ _) fun _ => ?_)
    rw [if_pos (show (Tag.mk (r.memory.word (b.offset - 4))).size = 0 from hsize)]
    have hadd : b.offset - 4 + 4 < Size.bound := by
      simp only [Size.bound, Region.maxSize] at short ⊢
      omega
    refine .bind_ok (Size.add_eq_ok hadd) (.bind_ok (Size.sub_eq_ok (by omega)) ?_)
    exact .bind_eq (.require_prop _ _) fun _ => .of_ok rfl
  refine key.congr fun total => ?_
  rw [Nat.sub_add_cancel h4, Region.highest?, Region.size]
  constructor
  · rintro ⟨hle, ⟨hword, hlast⟩, rfl⟩
    split at hlast
    · have := Option.some.inj hlast
      obtain heq : b.offset = r.memory.size := by omega
      exact ⟨⟨heq, heq ▸ hword⟩, rfl⟩
    · exact nomatch hlast
  · rintro ⟨⟨heq, hword⟩, rfl⟩
    refine ⟨Nat.le_of_eq heq, ⟨heq ▸ hword, ?_⟩, rfl⟩
    rw [if_pos (by omega), heq]

/-- One step along the blocks. The block has to be intact, and if it is free, it has to be in the
table and the block before it in use. -/
theorem blocks_succ_decides (short : r.memory.size ≤ Region.maxSize) (h4 : 4 ≤ b.offset)
    (hs : s.Below b.offset) {count : Nat} {post : Summary → Prop}
    (hx : x = Extent.read r.memory b.offset) (hsize : x.size ≠ 0)
    (hrest : x.Intact r.memory →
      Decides (blocks r listed count (s.add x) (if x.allocated then none else some b)
        ⟨b.offset + x.size, Nat.add_pos_left b.pos _⟩) post) :
    Decides (blocks r listed (count + 1) s last b) fun total =>
      (x.Intact r.memory ∧ (x.allocated = false → last = none ∧
        listed.lookup b = some (Index.classOf n x.size))) ∧ post total := by
  subst hx
  let x := Extent.read r.memory b.offset
  have key : Decides (blocks r listed (count + 1) s last b) fun total =>
      b.offset - 4 + 4 ≤ r.memory.size ∧ x.Intact r.memory ∧
        (x.allocated = false → last = none ∧
          listed.lookup b = some (Index.classOf n x.size)) ∧ post total := by
    rw [blocks]
    refine .bind_ok (Block.header_eq_ok h4) (.bind_eq (.wordOr r.memory _ _) fun _ => ?_)
    rw [if_neg (show ¬ (Tag.mk (r.memory.word (b.offset - 4))).size = 0 from hsize)]
    refine .bind_eq (block_decides short b.offset) fun hintact => ?_
    have hstop : b.offset + x.size < Size.bound :=
      Nat.lt_of_le_of_lt hintact.stop_le (Nat.lt_of_le_of_lt short (by decide))
    have hrest := hrest hintact
    refine .bind_ok (Size.add_eq_ok hstop) (.bind_ok (dif_pos (Nat.add_pos_left b.pos _)) ?_)
    show Decides
      (if x.allocated then do
        blocks r listed count (← addAllocated s x.size) none ⟨b.offset + x.size, _⟩
      else do
        freeBlock listed last b x.size
        blocks r listed count (← addFree s x.size) (some b) ⟨b.offset + x.size, _⟩) _
    cases hu : x.allocated with
    | true =>
        rw [hu, if_pos rfl] at hrest
        rw [if_pos rfl]
        refine (Decides.bind_ok (addAllocated_eq_ok hs hu hintact.large hstop) hrest).congr ?_
        intro total
        exact (and_iff_right nofun).symm
    | false =>
        rw [hu, if_neg Bool.false_ne_true] at hrest
        rw [if_neg Bool.false_ne_true]
        refine (Decides.bind_eq (freeBlock_decides listed last b x.size) fun _ =>
          .bind_ok (addFree_eq_ok hs hu hintact.large hstop) hrest).congr fun total => ?_
        exact and_congr_left fun _ => ⟨fun h _ => h, fun h => h rfl⟩
  refine key.congr fun total => ?_
  constructor
  · rintro ⟨-, hintact, hfree, hpost⟩
    exact ⟨⟨hintact, hfree⟩, hpost⟩
  · rintro ⟨⟨hintact, hfree⟩, hpost⟩
    have hlarge : 16 ≤ x.size := hintact.large
    have hstop : b.offset + x.size ≤ r.memory.size := hintact.stop_le
    exact ⟨by omega, hintact, hfree, hpost⟩

/-- **THE BLOCKS** pass their check exactly where they can be walked up to the epilogue, and are
counted. The walk goes up by their sizes, which is why the steps suffice. -/
theorem blocks_decides (short : r.memory.size ≤ Region.maxSize) {count : Nat} (h4 : 4 ≤ b.offset)
    (hs : s.Below b.offset) (hstart : b.offset ≤ r.memory.size + 4)
    (hcount : r.memory.size + 4 < count + b.offset) :
    Decides (blocks r listed count s last b) fun total =>
      ∃ xs, Walked r.memory listed last.isSome b.offset xs ∧ total = xs.foldl Summary.add s := by
  -- The steps that are left outnumber the bytes from `b` on, and every block takes some of them.
  induction count generalizing b s last with
  | zero => omega
  | succ count ih =>
      obtain ⟨x, hx⟩ : ∃ x, x = Extent.read r.memory b.offset := ⟨_, rfl⟩
      have hoffset : x.offset = b.offset := by rw [hx]; rfl
      by_cases hsize : x.size = 0
      · rw [hx] at hsize
        refine (blocks_end_decides short h4 count hsize).congr fun total => ?_
        simp only [walked_of_size_eq_zero h4 hsize]
        constructor
        · rintro ⟨hend, rfl⟩
          exact ⟨[], ⟨rfl, hend⟩, rfl⟩
        · rintro ⟨_, ⟨rfl, hend⟩, rfl⟩
          exact ⟨hend, rfl⟩
      · have hrest : x.Intact r.memory →
            Decides (blocks r listed count (s.add x) (if x.allocated then none else some b)
              ⟨b.offset + x.size, Nat.add_pos_left b.pos _⟩) fun total =>
                ∃ xs, Walked r.memory listed (!x.allocated) (b.offset + x.size) xs ∧
                  total = xs.foldl Summary.add (s.add x) := by
          intro hintact
          have hlarge : 16 ≤ x.size := hintact.large
          have hstop := hintact.stop_le
          have hlast : (if x.allocated then none else some b).isSome = !x.allocated := by
            cases x.allocated <;> rfl
          rw [← hlast]
          exact ih (Nat.le_add_right_of_le h4) (hs.add hintact.large) (by dsimp only; omega)
            (by dsimp only; omega)
        refine (blocks_succ_decides short h4 hs hx hsize hrest).congr fun total => ?_
        simp only [walked_of_size_ne_zero h4 hx hsize]
        constructor
        · rintro ⟨⟨hintact, hfree⟩, ys, h, rfl⟩
          refine ⟨_, ⟨ys, rfl, hintact, fun hu => ?_, h⟩, rfl⟩
          obtain ⟨rfl, hfound⟩ := hfree hu
          refine ⟨rfl, fun b' hb' => ?_⟩
          rwa [Block.ext (hb'.trans hoffset)]
        · rintro ⟨_, ⟨ys, rfl, hintact, hfree, h⟩, rfl⟩
          refine ⟨⟨hintact, fun hu => ?_⟩, ys, h, rfl⟩
          obtain ⟨hlast, hfound⟩ := hfree hu
          exact ⟨Option.isNone_iff_eq_none.1 (Option.isSome_eq_false_iff.1 hlast),
            hfound b hoffset.symm⟩

end Blocks

end Audit

end TagHeap
