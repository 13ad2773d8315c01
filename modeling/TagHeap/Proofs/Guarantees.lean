import TagHeap.Proofs.Clients

/-!
# What a client may rely on

The promises that a heap makes to every client that keeps to the rules, in every run: whatever the
region, the number of classes and the settings are, and whatever was asked for before.

* No request faults, and the heap passes its audit at all times.
* The bytes of a block are its owner's: nobody else changes them, and a block that is resized takes
  them along.
* The blocks in use are those that the client has, they are as large as they were asked for, and no
  two of them share a byte.
* A resize that is refused did not happen, and a new block would have been refused too.

All of this is read off `Heap.Serves`, which holds in every run.
-/

namespace TagHeap

open Layout

variable {n : Nat} [HasClass n] {h : Heap n} {live : Live} {b : Block} {e : Block × Nat}

/-! ## Audits -/

/-- The audit of the heap passes. It finds as many free blocks as the lists count, and the blocks
take all bytes behind the prologue. -/
def Heap.Consistent (h : Heap n) : Prop :=
  ∃ summary total, h.audit = .ok summary ∧ h.freeBlocks = .ok summary.freeBlocks ∧
    summary.totalBytes = .ok total ∧ ∀ p, h.prologue = some p → p.offset + 8 + total = h.size

namespace Heap

theorem Vacant.consistent (hv : h.Vacant) : h.Consistent := by
  refine ⟨{}, 0, ?_, ?_, rfl, fun p hp => ?_⟩
  · rw [audit, hv.prologue]
    rfl
  · rw [freeBlocks, hv.index, Index.length_eq_ok (m := h.memory) Index.lists_empty (by decide)]
    rfl
  · rw [hv.prologue] at hp
    cases hp

theorem Ajar.consistent {p : Block} {xs : List Extent} (g : h.Ajar p xs h.memory.size 0 []) :
    h.Consistent := by
  have hbytes := Summary.bytes_foldl g.around.before {}
  have short := size_lt_bound g.legible.size_lt
  refine ⟨_, _, g.audit_eq_ok, g.freeBlocks_eq_ok, Size.add_eq_ok ?_, fun q hq => ?_⟩
  · rw [Summary.ofLayout]
    dsimp only at hbytes
    omega
  · obtain rfl : p = q := Option.some.inj (g.prologue.symm.trans hq)
    show _ = h.memory.size
    rw [Summary.ofLayout]
    dsimp only at hbytes
    omega

theorem Shaped.consistent {p : Block} {xs : List Extent} (g : h.Shaped p xs) : h.Consistent :=
  (Gapped.ajar g).consistent

theorem Serves.consistent (hs : h.Serves live) : h.Consistent := by
  cases hs with
  | vacant hv => exact hv.consistent
  | shaped g _ => exact g.consistent

end Heap

/-! ## Blocks -/

/-- The place is in the block, between the first byte of its header and the last of its footer. -/
def Heap.Occupies (h : Heap n) (b : Block) (i : Nat) : Prop :=
  ∃ usable, h.usableSize b = .ok usable ∧ b.offset ≤ i + 4 ∧ i < b.offset + usable + 4

namespace Heap

/-- The blocks in use that are met on a walk through the heap are the client's, each once. -/
theorem Serves.layout_eq_ok (hs : h.Serves live) :
    ∃ xs, h.layout = .ok xs ∧ ((used xs).map (·.offset)).Perm (live.map (·.1.offset)) := by
  cases hs with
  | vacant hv =>
      refine ⟨[], ?_, .nil⟩
      rw [layout, hv.prologue]
      rfl
  | shaped g hbacks => exact ⟨_, Heap.layout_eq_ok g, hbacks.offsets⟩

/-- The extent of a block of the client. -/
theorem Shaped.extent {p : Block} {xs : List Extent} (g : h.Shaped p xs) (hbacks : Backs xs live)
    (he : e ∈ live) : ∃ x ∈ xs, h.Houses e.1 x ∧ x.offset % 8 = 0 ∧ e.2 + 8 ≤ x.size := by
  obtain ⟨x, hx, hxe, hlarge⟩ := hbacks.large e he
  have hmem := (mem_used.1 hx).1
  have h8 := g.around.mem_offset_mod (x := x) (by rwa [List.append_nil])
  exact ⟨x, hmem, g.houses hmem hxe.symm, h8, hlarge⟩

/-- A block of the client lies where it should and is as large as it was asked for. -/
theorem Serves.usableSize_eq_ok (hs : h.Serves live) (he : e ∈ live) :
    e.1.offset % 8 = 0 ∧ ∃ usable, h.usableSize e.1 = .ok usable ∧ e.2 ≤ usable ∧
      h.payload e.1 = .ok (e.1.offset, e.1.offset + usable) ∧ e.1.offset + usable ≤ h.size := by
  obtain ⟨p, xs, g, hbacks⟩ := hs.shaped_of_mem he
  obtain ⟨x, -, hh, h8, hlarge⟩ := g.extent hbacks he
  have hstop := hh.within.stop_le
  have hb := hh.offset
  refine ⟨by omega, x.size - 8, hh.usableSize_eq_ok, by omega, hh.payload_eq_ok, ?_⟩
  show _ ≤ h.memory.size
  omega

/-- No two blocks of the client share a byte. -/
theorem Serves.disjoint (hs : h.Serves live) :
    live.Pairwise fun e e' => ∀ i, ¬ (h.Occupies e.1 i ∧ h.Occupies e'.1 i) := by
  cases hs with
  | vacant _ => exact .nil
  | @shaped p xs _ g hbacks =>
      have hordered := g.around.ordered
      rw [List.append_nil] at hordered
      have hapart : ((used xs).map (·.offset)).Nodup := by
        refine List.pairwise_map.2 ((hordered.sublist List.filter_sublist).imp_of_mem ?_)
        intro x y hx _ (hxy : x.offset + x.size ≤ y.offset)
        have hmem : x ∈ xs ++ [] := by rw [List.append_nil]; exact (mem_used.1 hx).1
        have hlarge : 16 ≤ x.size := (g.around.mem_bounds hmem).2.2.1
        omega
      refine (List.pairwise_map.1 (hbacks.offsets.nodup hapart)).imp_of_mem ?_
      rintro e e' he he' hne i ⟨⟨u, hu, h1, h2⟩, u', hu', h1', h2'⟩
      obtain ⟨x, hx, hh, -⟩ := g.extent hbacks he
      obtain ⟨x', hx', hh', -⟩ := g.extent hbacks he'
      rw [hh.usableSize_eq_ok] at hu
      rw [hh'.usableSize_eq_ok] at hu'
      obtain rfl := Except.ok.inj hu
      obtain rfl := Except.ok.inj hu'
      have hb := hh.offset
      have hb' := hh'.offset
      have hlarge : 16 ≤ x.size := hh.within.large
      have hlarge' : 16 ≤ x'.size := hh'.within.large
      rcases Extent.before_or_before hordered hx hx' (fun hxx => hne (by rw [hb, hb', hxx])) with
        hxx | hxx
      · have : x.offset + x.size ≤ x'.offset := hxx
        omega
      · have : x'.offset + x'.size ≤ x.offset := hxx
        omega

end Heap

/-! ## Promises -/

/-- A heap of one chunk with two blocks in use, next to each other at its end. -/
def twoBlocks : Heap 2 :=
  ((Heap.allocate 40).on ((Heap.allocate 24).on (.new (.buffer 4112) .standard)).state).state

theorem reachable_twoBlocks :
    Reachable twoBlocks [(⟨4032, by decide⟩, 40), (⟨4080, by decide⟩, 24)] := by
  have fresh : Reachable (.new (.buffer 4112) .standard : Heap 2) [] := .buffer 4112 .standard
  have first : Reachable ((Heap.allocate 24).on (.new (.buffer 4112) .standard : Heap 2)).state
      [(⟨4080, by decide⟩, 24)] :=
    fresh.step (show Request.Allowed (.allocate 24) _ _ from ⟨nofun, trivial⟩) rfl
  exact first.step (show Request.Allowed (.allocate 40) _ _ from ⟨nofun, trivial⟩) rfl

/-- Resizing the lower of the two blocks keeps to the rules. -/
theorem allowed_twoBlocks (size : Nat) :
    Request.Allowed (.reallocate (some ⟨4032, by decide⟩) size) twoBlocks
      [(⟨4032, by decide⟩, 40), (⟨4080, by decide⟩, 24)] := by
  refine ⟨?_, trivial⟩
  rintro _ ⟨⟩
  exact ⟨40, .head _⟩

/-- **NO REQUEST FAULTS** in a run of a client that keeps to the rules, and the heap is consistent
before and after it. -/
theorem Reachable.answers_consistently (hr : Reachable h live) :
    h.Consistent ∧ ∀ request : Request, request.Allowed h live →
      ∃ answer, (request.operation.on h).result = .ok answer ∧
        (request.operation.on h).state.Consistent := by
  refine ⟨hr.serves.consistent, fun request ha => ?_⟩
  obtain ⟨answer, hresult, hserved⟩ := Request.served hr.serves ha
  exact ⟨answer, hresult, hserved.serves.consistent⟩

theorem answers_consistently_twoBlocks :
    twoBlocks.Consistent ∧ ∃ answer,
      ((Heap.reallocate (some ⟨4032, by decide⟩) 60).on twoBlocks).result = .ok answer ∧
        ((Heap.reallocate (some ⟨4032, by decide⟩) 60).on twoBlocks).state.Consistent := by
  obtain ⟨hnow, hthen⟩ := reachable_twoBlocks.answers_consistently
  exact ⟨hnow, hthen _ (allowed_twoBlocks 60)⟩

/-- **THE BYTES OF A BLOCK** are its owner's. No request changes them unless it names the block, and
a block that is resized has at its new place what it had at its old one, as far as both reach. -/
theorem Reachable.keeps_payloads (hr : Reachable h live) {request : Request}
    (ha : request.Allowed h live) :
    ∃ answer, (request.operation.on h).result = .ok answer ∧
      (∀ e ∈ live, request.argument ≠ some e.1 → ∃ bytes, h.payloadBytes e.1 = .ok bytes ∧
        h.usableSize e.1 = .ok bytes.length ∧
        (request.operation.on h).state.payloadBytes e.1 = .ok bytes) ∧
      ∀ b size q, request = .reallocate (some b) size → answer = some q →
        h.Carries (request.operation.on h).state b q := by
  obtain ⟨answer, hresult, hserved⟩ := Request.served hr.serves ha
  refine ⟨answer, hresult, fun e he hne => ?_, hserved.carries⟩
  obtain ⟨p, xs, g, hbacks⟩ := hr.serves.shaped_of_mem he
  obtain ⟨x, -, hh, -⟩ := g.extent hbacks he
  have hkeeps := hserved.keeps e (Live.mem_without.2 ⟨he, hne.symm⟩)
  refine ⟨_, hh.payloadBytes_eq_ok, ?_, hkeeps.payloadBytes.trans hh.payloadBytes_eq_ok⟩
  rw [Memory.length_extract, hh.usableSize_eq_ok]

/-- The block that grows takes over its previous neighbour, and its payload moves down. -/
theorem keeps_payloads_twoBlocks :
    (∃ bytes, twoBlocks.payloadBytes ⟨4080, by decide⟩ = .ok bytes ∧
      ((Heap.reallocate (some ⟨4032, by decide⟩) 60).on twoBlocks).state.payloadBytes
        ⟨4080, by decide⟩ = .ok bytes) ∧
      twoBlocks.Carries ((Heap.reallocate (some ⟨4032, by decide⟩) 60).on twoBlocks).state
        ⟨4032, by decide⟩ ⟨16, by decide⟩ := by
  obtain ⟨answer, hanswer, hkeeps, hcarries⟩ :=
    reachable_twoBlocks.keeps_payloads (allowed_twoBlocks 60)
  have hsome : ((Heap.reallocate (some ⟨4032, by decide⟩) 60).on twoBlocks).result =
      .ok (some ⟨16, by decide⟩) := rfl
  obtain ⟨bytes, hbytes, -, hbytes'⟩ := hkeeps _ (.tail _ (.head _)) (by decide)
  exact ⟨⟨bytes, hbytes, hbytes'⟩,
    hcarries _ _ _ rfl (Except.ok.inj (hanswer.symm.trans hsome))⟩

/-- **THE BLOCKS IN USE** are those that the client has, each aligned, inside of the heap and as
large as it was asked for, and no two of them share a byte. A request moves and resizes none but the
block that it names. -/
theorem Reachable.layout_of_live (hr : Reachable h live) :
    (∃ xs, h.layout = .ok xs ∧ ((used xs).map (·.offset)).Perm (live.map (·.1.offset))) ∧
      (∀ e ∈ live, e.1.offset % 8 = 0 ∧ ∃ usable, h.usableSize e.1 = .ok usable ∧ e.2 ≤ usable ∧
        h.payload e.1 = .ok (e.1.offset, e.1.offset + usable) ∧ e.1.offset + usable ≤ h.size) ∧
      (live.Pairwise fun e e' => ∀ i, ¬ (h.Occupies e.1 i ∧ h.Occupies e'.1 i)) ∧
      ∀ request : Request, request.Allowed h live →
        ∃ answer, (request.operation.on h).result = .ok answer ∧
          ∀ e ∈ live, request.argument ≠ some e.1 →
            (request.operation.on h).state.usableSize e.1 = h.usableSize e.1 ∧
              (request = .layOut ∨ e ∈ live.after request answer) := by
  have hs := hr.serves
  refine ⟨hs.layout_eq_ok, fun e he => hs.usableSize_eq_ok he, hs.disjoint, fun request ha => ?_⟩
  obtain ⟨answer, hresult, hserved⟩ := Request.served hs ha
  refine ⟨answer, hresult, fun e he hne => ?_⟩
  have hmem := Live.mem_without.2 ⟨he, hne.symm⟩
  exact ⟨(hserved.keeps e hmem).usableSize, Request.mem_after answer hmem⟩

/-- The two blocks are all that is in use, and they do not overlap. -/
theorem layout_of_live_twoBlocks :
    (∃ xs, twoBlocks.layout = .ok xs ∧ ((used xs).map (·.offset)).Perm [4032, 4080]) ∧
      (∃ usable, twoBlocks.usableSize ⟨4032, by decide⟩ = .ok usable ∧ 40 ≤ usable) ∧
      (∀ i, ¬ (twoBlocks.Occupies ⟨4032, by decide⟩ i ∧ twoBlocks.Occupies ⟨4080, by decide⟩ i)) ∧
      ((Heap.reallocate (some ⟨4032, by decide⟩) 60).on twoBlocks).state.usableSize
        ⟨4080, by decide⟩ = twoBlocks.usableSize ⟨4080, by decide⟩ := by
  obtain ⟨hlayout, hblocks, hdisjoint, hrequests⟩ := reachable_twoBlocks.layout_of_live
  obtain ⟨-, usable, husable, hle, -⟩ := hblocks _ (.head _)
  obtain ⟨answer, -, hothers⟩ := hrequests _ (allowed_twoBlocks 60)
  exact ⟨hlayout, ⟨usable, husable, hle⟩, (List.pairwise_cons.1 hdisjoint).1 _ (.head _),
    (hothers _ (.tail _ (.head _)) (by decide)).1⟩

/-- **A RESIZE THAT IS REFUSED** leaves no trace: the heap is what it was, down to the last byte and
link. It is only refused where a new block of that size would be refused too. -/
theorem Reachable.reallocate_atomic {old size : Nat} (hr : Reachable h live)
    (hb : (b, old) ∈ live) (hsize : 0 < size)
    (hnone : ((Heap.reallocate (some b) size).on h).result = .ok none) :
    ((Heap.reallocate (some b) size).on h).state = h ∧
      ((Heap.allocate size).on h).result = .ok none := by
  obtain ⟨p, xs, g, hbacks⟩ := hr.serves.shaped_of_mem hb
  obtain ⟨pre, x, post, rfl, hx, hbx⟩ := hbacks.split hb
  have g' : (Run.mk h []).heap.Shaped p (pre ++ x :: post) := g
  obtain ⟨answer, journal, hanswer, hspec⟩ :=
    Operation.on_of_ensures (Heap.reallocate_ensures g' hx hbx (Nat.ne_of_gt hsize))
  obtain rfl := Except.ok.inj (hnone.symm.trans hanswer)
  obtain ⟨hrefuses, hwarned⟩ := hspec
  refine ⟨hwarned.heap_eq, ?_⟩
  -- The last attempt was a request for a new block, and it was made of this same heap.
  obtain ⟨answer', journal', hanswer', hspec'⟩ :=
    Operation.on_of_ensures (Heap.allocate_ensures g' (Nat.ne_of_gt hsize))
  cases answer' with
  | none => exact hanswer'
  | some q => exact absurd hrefuses hspec'.1

theorem reallocate_atomic_twoBlocks :
    ((Heap.reallocate (some ⟨4032, by decide⟩) 5000).on twoBlocks).state = twoBlocks ∧
      ((Heap.allocate 5000).on twoBlocks).result = .ok none :=
  reachable_twoBlocks.reallocate_atomic (.head _) (by decide) rfl

end TagHeap
