import TagHeap.Proofs.Guarantees
import TagHeap.Shared

/-!
# Addresses

A program that lives on a shared heap knows addresses only, and the sizes that it asked for. It comes
to the heap beneath as a client: its allocations are the client's blocks, moved up by the base of the
mapping (`Live.located`). As long as no call faults the lock is not poisoned, and the shared heap
serves its program (`Shared.Serves`) because the heap serves the client.

Each call is looked at on its own here, with one lemma that says what it answers, that the program
is served after it, and which bytes stay.
-/

namespace TagHeap

open Layout Operation Step

/-! ## The bytes that were asked for -/

/-- The first bytes of a range. -/
theorem Memory.take_extract (m : Memory) (start : Nat) {k count : Nat} (h : k ≤ count) :
    (m.extract start count).take k = m.extract start k := by
  refine List.ext_getElem ?_ fun i hi hi' => ?_
  · rw [List.length_take, length_extract, length_extract, Nat.min_eq_left h]
  · rw [List.getElem_take, getElem_extract, getElem_extract]

/-- Bytes that were stored read back. -/
theorem Memory.extract_store (m : Memory) (start : Nat) (bytes : List UInt8) :
    (m.store start bytes).extract start bytes.length = bytes := by
  refine List.ext_getElem (length_extract ..) fun i hi hi' => ?_
  rw [getElem_extract, byte_store, dif_pos ⟨Nat.le_add_right .., Nat.add_lt_add_left hi' start⟩]
  simp only [Nat.add_sub_cancel_left]

variable {n : Nat} [HasClass n]

namespace Heap

variable {h h' : Heap n} {live live' : Live} {e e' : Block × Nat} {k : Nat}

/-- A block of the client starts inside of the heap. -/
theorem Serves.offset_lt (hs : h.Serves live) (he : e ∈ live) : e.1.offset < h.size := by
  obtain ⟨p, xs, g, hbacks⟩ := hs.shaped_of_mem he
  obtain ⟨x, -, hh, -⟩ := g.extent hbacks he
  have hb := hh.offset
  have hstop : x.offset + x.size ≤ h.size := hh.within.stop_le
  have hlarge : 16 ≤ x.size := hh.within.large
  omega

/-- The payload of a block starts with the bytes that the client asked for. -/
theorem Serves.payloadBytes_take (hs : h.Serves live) (he : e ∈ live) (hk : k ≤ e.2) :
    ∃ bytes, h.payloadBytes e.1 = .ok bytes ∧ k ≤ bytes.length ∧
      bytes.take k = h.memory.extract e.1.offset k := by
  obtain ⟨p, xs, g, hbacks⟩ := hs.shaped_of_mem he
  obtain ⟨x, -, hh, -, hlarge⟩ := g.extent hbacks he
  have hle : k ≤ x.size - 8 := by omega
  refine ⟨_, hh.payloadBytes_eq_ok, ?_, Memory.take_extract _ _ hle⟩
  rwa [Memory.length_extract]

/-- A block that is kept keeps the bytes that the client asked for. -/
theorem Keeps.extract_eq (hk : h.Keeps h' e.1) (hs : h.Serves live) (he : e ∈ live)
    (hs' : h'.Serves live') (he' : e ∈ live') :
    h'.memory.extract e.1.offset e.2 = h.memory.extract e.1.offset e.2 := by
  obtain ⟨bytes, hbytes, -, htake⟩ := hs.payloadBytes_take he (Nat.le_refl e.2)
  obtain ⟨bytes', hbytes', -, htake'⟩ := hs'.payloadBytes_take he' (Nat.le_refl e.2)
  obtain rfl := Except.ok.inj (hbytes'.symm.trans (hk.payloadBytes.trans hbytes))
  exact htake'.symm.trans htake

/-- A block that is carried over takes the bytes along that the client asked for, as far as it asked
for them both times. -/
theorem Carries.extract_eq (hc : h.Carries h' e.1 e'.1) (hs : h.Serves live) (he : e ∈ live)
    (hs' : h'.Serves live') (he' : e' ∈ live') :
    h'.memory.extract e'.1.offset (min e.2 e'.2) = h.memory.extract e.1.offset (min e.2 e'.2) := by
  obtain ⟨old, new, hold, -, hnew, -, hsame⟩ := hc
  obtain ⟨bytes, hbytes, hle, htake⟩ := hs.payloadBytes_take he (Nat.min_le_left e.2 e'.2)
  obtain ⟨bytes', hbytes', hle', htake'⟩ := hs'.payloadBytes_take he' (Nat.min_le_right e.2 e'.2)
  obtain rfl := Except.ok.inj (hold.symm.trans hbytes)
  obtain rfl := Except.ok.inj (hnew.symm.trans hbytes')
  have hmin : min e.2 e'.2 ≤ min old.length new.length := Nat.le_min.2 ⟨hle, hle'⟩
  have hprefix := congrArg (List.take (min e.2 e'.2)) hsame
  rw [List.take_take, List.take_take, Nat.min_eq_left hmin] at hprefix
  rw [← htake, ← htake', hprefix]

/-- Between the bytes that the client asked for in two blocks there are the tags of the blocks. -/
theorem Serves.spaced (hs : h.Serves live) :
    live.Pairwise fun e e' =>
      e.1.offset + e.2 < e'.1.offset ∨ e'.1.offset + e'.2 < e.1.offset := by
  refine hs.disjoint.imp_of_mem fun {e e'} he he' hno => ?_
  obtain ⟨-, usable, husable, hle, -⟩ := hs.usableSize_eq_ok he
  obtain ⟨-, usable', husable', hle', -⟩ := hs.usableSize_eq_ok he'
  by_contra hmeet
  have hin : h.Occupies e.1 (max e.1.offset e'.1.offset) := ⟨usable, husable, by omega, by omega⟩
  have hin' : h.Occupies e'.1 (max e.1.offset e'.1.offset) :=
    ⟨usable', husable', by omega, by omega⟩
  exact hno _ ⟨hin, hin'⟩

/-- A resize that is refused leaves the heap as it is. -/
theorem Serves.reallocate_refused {run : Run n} {b : Block} {old size : Nat}
    (hs : run.heap.Serves live) (hb : (b, old) ∈ live) (hsize : 0 < size) :
    (reallocate (some b) size).Ensures run fun answer run' =>
      answer = none → run'.heap = run.heap := by
  obtain ⟨p, xs, g, hbacks⟩ := hs.shaped_of_mem hb
  obtain ⟨pre, x, post, rfl, hx, hbx⟩ := hbacks.split hb
  refine (reallocate_ensures g hx hbx (Nat.ne_of_gt hsize)).mono ?_
  rintro (_ | q) run' hspec
  · exact fun _ => hspec.2.heap_eq
  · exact nofun

/-- A client that writes to its block stores the bytes there. -/
theorem Serves.store (hs : h.Serves live) (he : e ∈ live) {position : Nat} {bytes : List UInt8}
    (hfits : position + bytes.length ≤ e.2) :
    (h.withMemory (h.memory.store (e.1.offset + position) bytes)).Serves live ∧
      ∀ e' ∈ live.without (some e.1),
        h.Keeps (h.withMemory (h.memory.store (e.1.offset + position) bytes)) e'.1 := by
  obtain ⟨p, xs, g, hbacks⟩ := hs.shaped_of_mem he
  obtain ⟨x, -, hh, -, hlarge⟩ := g.extent hbacks he
  have hroom : position + bytes.length ≤ x.size - 8 := by omega
  have hs' : (Run.mk h []).heap.Serves live := hs
  obtain ⟨_, run', hrun, hafter⟩ := write_served hs' he hh.usableSize_eq_ok hroom
  have hh' : (Run.mk h []).heap.Houses e.1 x := hh
  obtain ⟨-, rfl⟩ := EStateM.Result.ok.inj ((hh'.writePayload_eq_ok hroom).symm.trans hrun)
  exact hafter

end Heap

/-! ## Calls and allocations -/

/-- What a program asks of a shared heap. -/
inductive Call where
  | allocate (size align : Nat)
  | allocateZeroed (size align : Nat)
  | deallocate (address : Nat)
  | reallocate (address size align : Nat)
  /-- Writes to an allocation, from one of its bytes on. -/
  | write (address position : Nat) (bytes : List UInt8)

/-- What a program has: addresses, each with the size that it last asked for there. -/
abbrev Allocations : Type := List (Nat × Nat)

namespace Shared

/-- The allocation lies in the bytes that the mapping has granted, where an allocation may start. -/
structure Grants (s : Shared) (a : Nat × Nat) : Prop where
  aligned : a.1 % Size.granule = 0
  not_null : a.1 ≠ 0
  above : s.base ≤ a.1
  below : a.1 + a.2 ≤ s.base + s.heap.size

/-- The address is null or outside of the granted bytes. -/
def Foreign (s : Shared) (address : Nat) : Prop :=
  address = 0 ∨ address < s.base ∨ s.base + s.heap.size ≤ address

end Shared

namespace Allocations

/-- No byte is in both allocations. -/
def Apart (a a' : Nat × Nat) : Prop := a.1 + a.2 ≤ a'.1 ∨ a'.1 + a'.2 ≤ a.1

/-- What is left without an address. -/
def without (live : Allocations) (address : Nat) : Allocations := live.filter (·.1 ≠ address)

/-- What the program has after a call that was answered with an address or without one. -/
def after (live : Allocations) : Call → Option Nat → Allocations
  | .allocate size _, some address | .allocateZeroed size _, some address =>
      (address, size) :: live
  | .allocate .., none | .allocateZeroed .., none => live
  | .deallocate address, _ => live.without address
  | .reallocate old size _, some address => (address, size) :: live.without old
  | .reallocate .., none => live
  | .write .., _ => live

end Allocations

/-! ## Serving a program -/

/-- The blocks of a client as allocations of a program. -/
def Live.located (base : Nat) (blocks : Live) : Allocations :=
  blocks.map fun e => (base + e.1.offset, e.2)

/-- Without an address the allocations are those without the block there. -/
theorem Live.located_without (base : Nat) (blocks : Live) (b : Block) :
    (blocks.without (some b)).located base = (blocks.located base).without (base + b.offset) := by
  rw [located, located, Allocations.without, List.filter_map, without]
  refine congrArg _ (List.filter_congr fun e _ => ?_)
  simp only [Function.comp_apply, ne_eq, Option.some.injEq, Block.ext_iff, Nat.add_left_cancel_iff]

namespace Allocations

theorem mem_without {live : Allocations} {address : Nat} {a : Nat × Nat} :
    a ∈ live.without address ↔ a ∈ live ∧ some address ≠ some a.1 := by
  rw [without, List.mem_filter, decide_eq_true_eq, ne_eq, ne_eq, Option.some.injEq, eq_comm]

end Allocations

namespace Shared

/-- The shared heap serves a program that has the allocations `live`: its heap serves the client
that has the blocks there, and nothing has poisoned the lock. -/
structure Serves (s : Shared) (live : Allocations) : Prop where
  unlocked : s.poisoned = false
  base_pos : 0 < s.base
  base_mod : s.base % Size.granule = 0
  heap : ∃ blocks : Live, s.heap.Serves blocks ∧ blocks.located s.base = live

variable {α : Type} {s : Shared} {h : Heap standardClasses} {live : Allocations} {blocks : Live}
  {a : Nat × Nat} {b : Block} {address size align : Nat}

theorem read_base_add (s : Shared) (offset count : Nat) :
    s.read (s.base + offset) count = s.heap.memory.extract offset count := by
  rw [read, Nat.add_sub_cancel_left]

/-- Bytes that were written read back. -/
theorem read_write (s : Shared) (address : Nat) (bytes : List UInt8) :
    (s.write address bytes).read address bytes.length = bytes := Memory.extract_store ..

theorem addressOf?_eq_some (hb : b.offset < s.heap.size) :
    s.addressOf? b = some (s.base + b.offset) := by
  rw [addressOf?, Heap.position?, if_pos hb]
  rfl

theorem blockAt?_eq_some (hb : b.offset < s.heap.size) :
    s.blockAt? (s.base + b.offset) = some b := by
  have hdelta : ((s.base + b.offset : Nat) : Int) - s.base = (b.offset : Nat) := by omega
  have hin : (0 : Int) ≤ (b.offset : Nat) ∧ ((b.offset : Nat) : Int) < s.heap.size := by omega
  rw [blockAt?, hdelta, Heap.blockAt?, if_pos hin, Int.toNat_natCast, Block.ofOffset?_eq_some]

theorem blockAt?_eq_none (hbase : 0 < s.base) (hf : s.Foreign address) :
    s.blockAt? address = none := by
  have hout : ¬ (0 ≤ (address : Int) - s.base ∧ (address : Int) - s.base < s.heap.size) := by
    rcases hf with rfl | hf | hf <;> omega
  rw [blockAt?, Heap.blockAt?, if_neg hout]

namespace Serves

/-- What the program has is granted. -/
theorem grants (hs : s.Serves live) (ha : a ∈ live) : s.Grants a := by
  obtain ⟨blocks, hblocks, rfl⟩ := hs.heap
  obtain ⟨e, he, rfl⟩ := List.mem_map.1 ha
  obtain ⟨h8, usable, -, hle, -, hstop⟩ := hblocks.usableSize_eq_ok he
  have hbase := hs.base_pos
  have hmod : s.base % 8 = 0 := hs.base_mod
  refine ⟨?_, ?_, Nat.le_add_right .., ?_⟩
  · show (s.base + e.1.offset) % 8 = 0
    omega
  · show s.base + e.1.offset ≠ 0
    omega
  · show s.base + e.1.offset + e.2 ≤ s.base + s.heap.size
    omega

/-- Two allocations of the program do not even touch. -/
theorem spaced (hs : s.Serves live) :
    live.Pairwise fun a a' => a.1 + a.2 < a'.1 ∨ a'.1 + a'.2 < a.1 := by
  obtain ⟨blocks, hblocks, rfl⟩ := hs.heap
  refine List.pairwise_map.2 (hblocks.spaced.imp fun {e e'} hor => ?_)
  show s.base + e.1.offset + e.2 < s.base + e'.1.offset ∨
    s.base + e'.1.offset + e'.2 < s.base + e.1.offset
  omega

/-- No two allocations of the program share a byte. -/
theorem apart (hs : s.Serves live) : live.Pairwise Allocations.Apart :=
  hs.spaced.imp fun hor => hor.imp Nat.le_of_lt Nat.le_of_lt

/-- What the program got last is granted, and lies apart from all else that it has. -/
theorem handsOut (hs : s.Serves ((address, size) :: live)) :
    s.Grants (address, size) ∧ ∀ a ∈ live, Allocations.Apart (address, size) a :=
  ⟨hs.grants (List.mem_cons_self ..), (List.pairwise_cons.1 hs.apart).1⟩

/-- The block of an allocation. -/
theorem exists_block (hs : s.Serves live) (ha : (address, size) ∈ live) :
    ∃ blocks b, s.heap.Serves blocks ∧ blocks.located s.base = live ∧ (b, size) ∈ blocks ∧
      address = s.base + b.offset ∧ s.blockAt? address = some b := by
  obtain ⟨blocks, hblocks, rfl⟩ := hs.heap
  obtain ⟨⟨b, _⟩, he, heq⟩ := List.mem_map.1 ha
  obtain ⟨rfl, rfl⟩ := Prod.mk.inj heq
  exact ⟨blocks, b, hblocks, rfl, he, rfl, blockAt?_eq_some (hblocks.offset_lt he)⟩

/-- What is not the heap's is not the program's either. -/
theorem without_foreign (hs : s.Serves live) (hf : s.Foreign address) :
    live.without address = live := by
  refine List.filter_eq_self.2 fun a ha => decide_eq_true ?_
  rintro rfl
  obtain ⟨_, b, -, -, -, -, hb⟩ := hs.exists_block ha
  rw [blockAt?_eq_none hs.base_pos hf] at hb
  exact nomatch hb

/-- A shared heap with another heap serves the client's blocks there. -/
theorem withHeap (hs : s.Serves live) (hblocks : h.Serves blocks) :
    { s with heap := h }.Serves (blocks.located s.base) :=
  ⟨hs.unlocked, hs.base_pos, hs.base_mod, blocks, hblocks, rfl⟩

end Serves

/-- Blocks that are kept are read as before. -/
theorem read_eq_of_keeps {kept blocks' : Live} (hs : s.heap.Serves blocks) (hs' : h.Serves blocks')
    (hsub : kept ⊆ blocks) (hsub' : kept ⊆ blocks') (hk : ∀ e ∈ kept, s.heap.Keeps h e.1) :
    ∀ a ∈ kept.located s.base, { s with heap := h }.read a.1 a.2 = s.read a.1 a.2 := by
  intro a ha
  obtain ⟨e, he, rfl⟩ := List.mem_map.1 ha
  have hread : { s with heap := h }.read (s.base + e.1.offset) e.2 =
      h.memory.extract e.1.offset e.2 := read_base_add { s with heap := h } e.1.offset e.2
  rw [hread, read_base_add]
  exact (hk e he).extract_eq hs (hsub he) hs' (hsub' he)

/-- An operation that does not fault leaves the lock as it is. -/
theorem underLock_of_ensures {operation : Operation standardClasses α}
    {mid : α → Run standardClasses → Prop} (hs : s.poisoned = false) (refused : α)
    (hx : operation.Ensures ⟨s.heap, []⟩ mid) :
    ∃ a h' journal, (s.underLock refused operation).result = .ok a ∧
      (s.underLock refused operation).state = { s with heap := h' } ∧ mid a ⟨h', journal⟩ := by
  obtain ⟨a, journal, hresult, hm⟩ := on_of_ensures hx
  refine ⟨a, (operation.on s.heap).state, journal, ?_, ?_, hm⟩
  · rw [underLock, hs]
    exact hresult
  · rw [underLock, hs]
    show (⟨s.base, !(operation.on s.heap).result.isOk, (operation.on s.heap).state⟩ : Shared) = _
    rw [hresult]
    rfl

/-- An operation that yields blocks of the heap yields their addresses. -/
theorem addressUnderLock_of_ensures {operation : Operation standardClasses (Option Block)}
    {mid : Option Block → Run standardClasses → Prop} (hs : s.poisoned = false)
    (halign : align ≤ Size.granule) (hx : operation.Ensures ⟨s.heap, []⟩ mid)
    (hin : ∀ b run', mid (some b) run' → b.offset < run'.heap.size) :
    ∃ b? h' journal, (s.addressUnderLock align operation).result =
        .ok (b?.map fun b => s.base + b.offset) ∧
      (s.addressUnderLock align operation).state = { s with heap := h' } ∧
      mid b? ⟨h', journal⟩ := by
  obtain ⟨b?, h', journal, hresult, hstate, hm⟩ := underLock_of_ensures hs none hx
  rw [addressUnderLock, if_neg (Nat.not_lt.2 halign)]
  refine ⟨b?, h', journal, ?_, hstate, hm⟩
  dsimp only
  rw [hresult, hstate]
  cases b? with
  | none => rfl
  | some b =>
      have hb : ({ s with heap := h' } : Shared).addressOf? b = some (s.base + b.offset) :=
        addressOf?_eq_some (hin b _ hm)
      exact congrArg Except.ok hb

/-- Strict alignments are refused before anything else is looked at. -/
theorem addressUnderLock_of_strict (s : Shared) (halign : Size.granule < align)
    (operation : Operation standardClasses (Option Block)) :
    s.addressUnderLock align operation = ⟨.ok none, s, []⟩ := if_pos halign

/-! ## One lemma a call -/

namespace Serves

theorem allocate (hs : s.Serves live) (size : Nat) (halign : align ≤ Size.granule) :
    ∃ answer, (s.allocate size align).result = .ok answer ∧
      (s.allocate size align).state.Serves (live.after (.allocate size align) answer) ∧
      ∀ a ∈ live, (s.allocate size align).state.read a.1 a.2 = s.read a.1 a.2 := by
  obtain ⟨blocks, hblocks, rfl⟩ := hs.heap
  have hrun : (Run.mk s.heap []).heap.Serves blocks := hblocks
  obtain ⟨b?, h', _, hresult, hstate, hserves, hkeeps⟩ :=
    addressUnderLock_of_ensures hs.unlocked halign (Heap.allocate_served hrun size)
      fun b run' hm => hm.1.offset_lt (List.mem_cons_self ..)
  rw [Shared.allocate, hstate]
  refine ⟨_, hresult, ?_, ?_⟩
  · cases b? with
    | none => exact hs.withHeap hserves
    | some b => exact hs.withHeap hserves
  · refine read_eq_of_keeps hblocks hserves (List.Subset.refl _) ?_ hkeeps
    intro e he
    cases b? with
    | none => exact he
    | some b => exact List.mem_cons_of_mem _ he

theorem deallocate (hs : s.Serves live) (ha : (address, size) ∈ live) :
    (s.deallocate address).result = .ok () ∧
      (s.deallocate address).state.Serves (live.without address) ∧
      ∀ a ∈ live.without address, (s.deallocate address).state.read a.1 a.2 = s.read a.1 a.2 := by
  obtain ⟨blocks, b, hblocks, rfl, he, rfl, hb⟩ := hs.exists_block ha
  have hrun : (Run.mk s.heap []).heap.Serves blocks := hblocks
  obtain ⟨_, h', _, hresult, hstate, hserves, hkeeps⟩ :=
    underLock_of_ensures hs.unlocked () (Heap.free_served hrun he)
  rw [Shared.deallocate, hb, hstate, ← Live.located_without]
  refine ⟨hresult, hs.withHeap hserves, ?_⟩
  exact read_eq_of_keeps hblocks hserves (List.filter_subset_self _) (List.Subset.refl _) hkeeps

/-- Giving back what is not the heap's does nothing. -/
theorem deallocate_foreign (hs : s.Serves live) (hf : s.Foreign address) :
    s.deallocate address = ⟨.ok (), s, []⟩ := by
  rw [Shared.deallocate, blockAt?_eq_none hs.base_pos hf, underLock, hs.unlocked]
  show (⟨.ok (), ⟨s.base, false, s.heap⟩, []⟩ : Outcome Shared Unit) = _
  rw [← hs.unlocked]

/-- What a program has after a resize is what the client of the heap beneath has. -/
theorem located_after_reallocate (base : Nat) (blocks : Live) (b : Block) (hsize : 0 < size)
    (align : Nat) (b? : Option Block) :
    (blocks.after (.reallocate (some b) size) b?).located base =
      (blocks.located base).after (.reallocate (base + b.offset) size align)
        (b?.map fun b => base + b.offset) := by
  cases b? with
  | none =>
      rw [Live.after, if_neg (Nat.ne_of_gt hsize)]
      rfl
  | some q =>
      show (base + q.offset, size) :: (blocks.without (some b)).located base = _
      rw [Live.located_without]
      rfl

theorem reallocate (hs : s.Serves live) {old : Nat} (ha : (address, old) ∈ live) (hsize : 0 < size)
    (halign : align ≤ Size.granule) :
    ∃ answer, (s.reallocate address size align).result = .ok answer ∧
      (s.reallocate address size align).state.Serves
        (live.after (.reallocate address size align) answer) ∧
      (∀ a ∈ live.without address,
        (s.reallocate address size align).state.read a.1 a.2 = s.read a.1 a.2) ∧
      (answer = none → (s.reallocate address size align).state = s) ∧
      ∀ address', answer = some address' →
        (s.reallocate address size align).state.read address' (min old size) =
          s.read address (min old size) := by
  obtain ⟨blocks, b, hblocks, rfl, he, rfl, hb⟩ := hs.exists_block ha
  have hrun : (Run.mk s.heap []).heap.Serves blocks := hblocks
  obtain ⟨b?, h', _, hresult, hstate, ⟨hserves, hkeeps, hcarries⟩, hrefused⟩ :=
    addressUnderLock_of_ensures hs.unlocked halign
      ((Heap.reallocate_served hrun he size).and (hrun.reallocate_refused he hsize))
      fun q run' hm => hm.1.1.offset_lt (List.mem_cons_self ..)
  rw [Shared.reallocate, hb, hstate]
  refine ⟨_, hresult, ?_, ?_, ?_, ?_⟩
  · rw [← located_after_reallocate s.base blocks b hsize]
    exact hs.withHeap hserves
  · rw [← Live.located_without]
    refine read_eq_of_keeps hblocks hserves (List.filter_subset_self _) ?_ hkeeps
    intro e he'
    have hnamed : e ∈ blocks.without (Request.reallocate (some b) size).argument := he'
    rcases Request.mem_after b? hnamed with hlay | hmem
    · exact nomatch hlay
    · exact hmem
  · intro hnone
    have hheap : h' = s.heap := hrefused (Option.map_eq_none_iff.1 hnone)
    rw [hheap]
  · intro address' hsome
    obtain ⟨q, rfl, rfl⟩ := Option.map_eq_some_iff.1 hsome
    have hq : (q, size) ∈ blocks.after (.reallocate (some b) size) (some q) :=
      List.mem_cons_self ..
    have hread : ({ s with heap := h' } : Shared).read (s.base + q.offset) (min old size) =
        h'.memory.extract q.offset (min old size) := read_base_add { s with heap := h' } _ _
    rw [hread, read_base_add]
    exact (hcarries q rfl).extract_eq hblocks he hserves hq

theorem write (hs : s.Serves live) (ha : (address, size) ∈ live) {position : Nat}
    {bytes : List UInt8} (hfits : position + bytes.length ≤ size) :
    (s.write (address + position) bytes).Serves live ∧
      ∀ a ∈ live.without address,
        (s.write (address + position) bytes).read a.1 a.2 = s.read a.1 a.2 := by
  obtain ⟨blocks, b, hblocks, rfl, he, rfl, -⟩ := hs.exists_block ha
  obtain ⟨hserves, hkeeps⟩ := hblocks.store he hfits
  have hwrite : s.write (s.base + b.offset + position) bytes =
      { s with heap := s.heap.withMemory (s.heap.memory.store (b.offset + position) bytes) } := by
    rw [Shared.write, Nat.add_assoc, Nat.add_sub_cancel_left]
    rfl
  rw [hwrite, ← Live.located_without]
  refine ⟨hs.withHeap hserves, ?_⟩
  exact read_eq_of_keeps hblocks hserves (List.filter_subset_self _)
    (List.filter_subset_self _) hkeeps

theorem allocateZeroed (hs : s.Serves live) (hsize : 0 < size) (halign : align ≤ Size.granule) :
    ∃ answer, (s.allocateZeroed size align).result = .ok answer ∧
      (s.allocateZeroed size align).state.Serves (live.after (.allocateZeroed size align) answer) ∧
      (∀ a ∈ live, (s.allocateZeroed size align).state.read a.1 a.2 = s.read a.1 a.2) ∧
      ∀ address, answer = some address →
        (s.allocateZeroed size align).state.read address size = .replicate size 0 := by
  obtain ⟨answer, hresult, hserves, hkeeps⟩ := hs.allocate size halign
  cases answer with
  | none =>
      have hsame : s.allocateZeroed size align = s.allocate size align := by
        simp only [Shared.allocateZeroed, hresult]
      rw [hsame]
      exact ⟨none, hresult, hserves, hkeeps, nofun⟩
  | some address =>
      have hzeroed : s.allocateZeroed size align = { s.allocate size align with
          state := (s.allocate size align).state.write address (.replicate size 0) } := by
        simp only [Shared.allocateZeroed, hresult]
      have hmem : (address, size) ∈ live.after (.allocate size align) (some address) :=
        List.mem_cons_self ..
      have hfits : 0 + (List.replicate size (0 : UInt8)).length ≤ size := by
        rw [List.length_replicate, Nat.zero_add]
      obtain ⟨hserves', hkeeps'⟩ := hserves.write hmem hfits
      rw [hzeroed]
      refine ⟨some address, hresult, hserves', fun a ha => ?_, ?_⟩
      · -- What the program had lies somewhere else than what it just got.
        have hspaced := (List.pairwise_cons.1 hserves.spaced).1 a ha
        have hne : some address ≠ some a.1 := by
          rintro ⟨⟩
          omega
        exact (hkeeps' a (Allocations.mem_without.2 ⟨List.mem_cons_of_mem _ ha, hne⟩)).trans
          (hkeeps a ha)
      · rintro _ ⟨⟩
        have hread := read_write (s.allocate size align).state address (.replicate size 0)
        rwa [List.length_replicate] at hread

end Serves

end Shared

end TagHeap
