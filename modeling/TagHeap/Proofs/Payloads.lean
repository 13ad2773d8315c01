import TagHeap.Proofs.Resizing

/-!
# Payloads

What the owner of a block sees of it. `h.Houses b x` says that the block `b` lies in the memory of
`h` and has there the extent that its header gives, so that all queries about it succeed. A block is
housed as long as nobody writes to its header, whatever becomes of the heap around it, and if nobody
writes to any of its bytes its owner sees NO CHANGE at all (`Heap.Keeps`).
-/

namespace TagHeap

open Layout Operation Step

variable {n : Nat}

namespace Heap

/-- The block `b` lies in the memory and has the extent `x`. -/
structure Houses (h : Heap n) (b : Block) (x : Extent) : Prop where
  offset : b.offset = x.offset
  within : x.Within h.memory
  header : h.memory.word (x.offset - 4) = x.tag.word

/-- The owner of the block sees the same payload in both heaps. -/
structure Keeps (h h' : Heap n) (b : Block) : Prop where
  usableSize : h'.usableSize b = h.usableSize b
  payloadBytes : h'.payloadBytes b = h.payloadBytes b

theorem Keeps.refl (h : Heap n) (b : Block) : h.Keeps h b := ⟨rfl, rfl⟩

namespace Houses

variable {h h' : Heap n} {b : Block} {x : Extent}

theorem size_eq_ok (hh : h.Houses b x) : b.size h.memory = .ok x.size :=
  hh.within.size_eq_ok hh.offset hh.header

theorem usableSize_eq_ok (hh : h.Houses b x) : h.usableSize b = .ok (x.size - 8) := by
  have hlarge : 16 ≤ x.size := hh.within.large
  rw [usableSize, bind_of_ok hh.size_eq_ok, Size.sub_eq_ok (by simp only [Size.overhead]; omega)]

theorem payload_eq_ok (hh : h.Houses b x) :
    h.payload b = .ok (b.offset, b.offset + (x.size - 8)) := by
  have hlarge : 16 ≤ x.size := hh.within.large
  have hstop := hh.within.stop_le
  have short := size_lt_bound hh.within.size_lt
  have hb := hh.offset
  have hadd : Size.add b.offset x.size = .ok (b.offset + x.size) := Size.add_eq_ok (by omega)
  have hsub : Size.sub (b.offset + x.size) Size.overhead = .ok (b.offset + (x.size - 8)) := by
    rw [Size.sub_eq_ok (by simp only [Size.overhead]; omega), Nat.add_sub_assoc]
    simp only [Size.overhead]
    omega
  have hin : b.offset ≤ b.offset + (x.size - 8) ∧ b.offset + (x.size - 8) ≤ h.size := by
    refine ⟨Nat.le_add_right .., ?_⟩
    show _ ≤ h.memory.size
    omega
  rw [payload, bind_of_ok hh.size_eq_ok, bind_of_ok hadd, bind_of_ok hsub, if_pos hin]
  rfl

theorem payloadBytes_eq_ok (hh : h.Houses b x) :
    h.payloadBytes b = .ok (h.memory.extract b.offset (x.size - 8)) := by
  rw [payloadBytes, bind_of_ok hh.payload_eq_ok]
  dsimp only
  rw [Nat.add_sub_cancel_left]
  rfl

/-- A block whose bytes stay is housed by every heap that is not smaller. -/
theorem of_bytes (hh : h.Houses b x) (hsize : h.memory.size ≤ h'.memory.size)
    (hmax : h'.memory.size ≤ Region.maxSize)
    (hbytes : ∀ i, x.Covers i → h'.memory.byte i = h.memory.byte i) : h'.Houses b x := by
  have hlarge : 16 ≤ x.size := hh.within.large
  have hroom := hh.within.room
  refine ⟨hh.offset, { hh.within with
    stop_le := Nat.le_trans hh.within.stop_le hsize
    short := hmax }, ?_⟩
  rw [← hh.header]
  exact Memory.word_congr fun i _ _ => hbytes i ⟨by omega, by omega⟩

/-- A block whose bytes stay looks the same to its owner. -/
theorem keeps (hh : h.Houses b x) (hh' : h'.Houses b x)
    (hbytes : ∀ i, x.Covers i → h'.memory.byte i = h.memory.byte i) : h.Keeps h' b := by
  refine ⟨by rw [hh.usableSize_eq_ok, hh'.usableSize_eq_ok], ?_⟩
  rw [hh.payloadBytes_eq_ok, hh'.payloadBytes_eq_ok]
  refine congrArg _ (List.ext_getElem (by simp only [Memory.length_extract]) fun i hi _ => ?_)
  rw [Memory.length_extract] at hi
  have hb := hh.offset
  rw [Memory.getElem_extract, Memory.getElem_extract]
  exact hbytes _ ⟨by omega, by omega⟩

/-- Bytes that fit into a payload are stored there, and that is all. -/
theorem writePayload_eq_ok {run : Run n} (hh : run.heap.Houses b x) {position : Nat}
    {bytes : List UInt8} (hfit : position + bytes.length ≤ x.size - 8) :
    writePayload b position bytes run =
      .ok () ⟨run.heap.withMemory (run.heap.memory.store (b.offset + position) bytes),
        run.journal⟩ := by
  have hstop := hh.within.stop_le
  have short := size_lt_bound hh.within.size_lt
  have hlarge : 16 ≤ x.size := hh.within.large
  have hadd : Size.add position bytes.length = .ok (position + bytes.length) :=
    Size.add_eq_ok (by omega)
  have hpayload := lift_of_ok hh.payload_eq_ok run
  rw [writePayload, Step.bind_of_ok (heap_eq_ok run), Step.bind_of_ok hpayload]
  dsimp only
  rw [Step.bind_of_ok (lift_of_ok hadd run), if_pos (by omega)]
  rfl

end Houses

variable [HasClass n] {h : Heap n} {p b : Block} {pre post xs : List Extent} {x : Extent}
  {run : Run n}

theorem Shaped.size_le (g : h.Shaped p xs) : h.memory.size ≤ Region.maxSize := g.around.short

/-- A heap in shape houses its blocks. -/
theorem Shaped.houses (g : h.Shaped p xs) (hx : x ∈ xs) (hb : b.offset = x.offset) :
    h.Houses b x := by
  have hx : x ∈ xs ++ [] := by rwa [List.append_nil]
  exact ⟨hb, g.inOrder.within hx, (g.inOrder.stamped.tagged x hx).header⟩

/-- **A CLIENT WRITES** to a payload. The heap stays in shape, and no byte outside of the payload
changes. -/
theorem writePayload_ensures (g : run.heap.Shaped p (pre ++ x :: post)) (hx : x.allocated = true)
    (hb : b.offset = x.offset) {position : Nat} {bytes : List UInt8}
    (hfit : position + bytes.length ≤ x.size - 8) :
    (writePayload b position bytes).Ensures run fun _ run' =>
      run'.heap.Shaped p (pre ++ x :: post) ∧ run.Spares (Held p (pre ++ post)) run' := by
  have hmem : x ∈ pre ++ x :: post := by simp
  have hh := g.houses hmem hb
  have hlarge : 16 ≤ x.size := hh.within.large
  have hagrees := (Memory.Agrees.store run.heap.memory (b.offset + position) bytes).mono
    fun i (hi : ¬ InPayload x.offset x.size i) => by
      simp only [InPayload] at hi
      omega
  refine .of_ok (hh.writePayload_eq_ok hfit) ⟨g.write hmem hx hagrees, ?_⟩
  exact (Run.Spares.of_agrees hagrees).mono fun i hi =>
    g.not_inPayload (used_append_cons hx pre post) hi

end Heap

end TagHeap
