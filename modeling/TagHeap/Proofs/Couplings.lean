import TagHeap.Proofs.Lockstep
import TagHeap.Proofs.Outlines

/-!
# Coupled runs

Two runs may differ in what no operation looks at, and they may put links into words in different
ways. A COUPLING is a relation of runs under which neither shows: coupled runs agree on all that an
operation reads, and the few things by which an operation changes a run end alike and leave coupled
runs (`Coupling`). All operations are made of these, so all of them run in lockstep. There is one
`lockstep_` lemma an operation, and its proof runs along the program (`Coupling.lockstep_operation`
for the requests of a client).
-/

namespace TagHeap

open Operation
open Step (Lockstep)

variable {n : Nat}

/-- The heaps have the same bytes and lists, and are laid out at the same place. Their regions may
differ in where the bytes come from. -/
structure Heap.Resembles (h h' : Heap n) : Prop where
  memory : h'.memory = h.memory
  index : h'.index = h.index
  settings : h'.settings = h.settings
  prologue : h'.prologue = h.prologue

/-- The heaps of related runs are looked at. -/
theorem Operation.lockstep_heap {β : Type} {related : Run n → Run n → Prop}
    {f g : Heap n → Operation n β}
    (hf : ∀ run run', related run run' → Lockstep related (f run.heap) (g run'.heap)) :
    Lockstep related (heap >>= f) (heap >>= g) := by
  intro run run' t
  rw [Step.bind_of_ok (heap_eq_ok run), Step.bind_of_ok (heap_eq_ok run')]
  exact hf run run' t run run' t

variable [HasClass n]

/-- The walk over the blocks of a heap looks at the bytes of its region and at nothing else. -/
theorem Audit.blocks_congr {r r' : Region} (h : r'.memory = r.memory)
    (listed : Listed n) (count : Nat) (summary : Summary) (last : Option Block) (b : Block) :
    blocks r' listed count summary last b = blocks r listed count summary last b := by
  have hhighest : r'.highest? = r.highest? := by
    rw [Region.highest?, Region.highest?, Region.size, Region.size, h]
  induction count generalizing summary last b with
  | zero => rfl
  | succ count ih => simp only [blocks, h, hhighest, ih]

namespace Heap.Resembles

variable {h h' : Heap n}

omit [HasClass n] in
theorem size (hh : h.Resembles h') : h'.size = h.size := congrArg Memory.size hh.memory

/-- Audits of both come to one result. -/
theorem audit_eq (hh : h.Resembles h') : h'.audit = h.audit := by
  have hmemory : h'.region.memory = h.region.memory := hh.memory
  have hintact : ∀ p, Audit.prologueIntact h'.region p = Audit.prologueIntact h.region p := by
    intro p
    rw [Audit.prologueIntact, Audit.prologueIntact, hmemory]
    rfl
  simp only [audit, hh.prologue, hh.memory, hh.index, hintact, Audit.blocks_congr hmemory]

end Heap.Resembles

/-- The event tells that address space was mapped. -/
def Event.isReserved : Event → Bool
  | .reserved _ => true
  | _ => false

/-- Runs that are related resemble each other, and whatever an operation is made of ends alike on
both and leaves them related. The links of the first run are encoded by `E`, those of the second one
by `E'`. -/
structure Coupling (E E' : LinkEncoding) (related : Run n → Run n → Prop) : Prop where
  resembles {run run' : Run n} : related run run' → run.heap.Resembles run'.heap
  lockstep_record {event : Event} : event.isReserved = false →
    Lockstep related (record event) (record event)
  lockstep_onMemory {α : Type} {x : Step Memory α} :
    (∀ size, Lockstep (Memory.Same size) x x) → Lockstep related (onMemory x) (onMemory x)
  lockstep_forget : Lockstep related (modifyHeap ({ · with index := .empty, prologue := none }))
    (modifyHeap ({ · with index := .empty, prologue := none }))
  lockstep_found (p : Block) : Lockstep related (modifyHeap ({ · with prologue := some p }))
    (modifyHeap ({ · with prologue := some p }))
  lockstep_grow (increment : Nat) : Lockstep related (grow increment) (grow increment)
  lockstep_enlist (b : Block) : Lockstep related (@enlist n _ E b) (@enlist n _ E' b)
  lockstep_delist (b : Block) : Lockstep related (@delist n _ E b) (@delist n _ E' b)

namespace Coupling

variable {E E' : LinkEncoding} {related : Run n → Run n → Prop} {α β : Type}

omit [HasClass n] in
/-- Attempts that run in lockstep one by one do so until one yields a block. -/
theorem lockstep_firstBlock {attempts attempts' : List (Operation n (Option Block))}
    (h : List.Forall₂ (Lockstep related) attempts attempts') :
    Lockstep related (Heap.firstBlock attempts) (Heap.firstBlock attempts') := by
  induction h with
  | nil => exact .pure _
  | cons hattempt _ ih =>
      refine .bind hattempt ?_
      rintro (_ | b)
      · exact ih
      · exact .pure _

variable (c : Coupling E E' related)
include c

/-! ## Parts -/

/-- Both heaps are looked at. -/
theorem lockstep_heap {f g : Heap n → Operation n β}
    (hf : ∀ h h' : Heap n, h.Resembles h' → Lockstep related (f h) (g h')) :
    Lockstep related (heap >>= f) (heap >>= g) :=
  Operation.lockstep_heap fun _ _ t => hf _ _ (c.resembles t)

/-- A read of the memory. -/
theorem lockstep_inspect (read : Memory → Except Fault α) :
    Lockstep related (inspect read) (inspect read) :=
  .inspect fun _ _ t => congrArg read (c.resembles t).memory

theorem lockstep_recordIf (reason : Bool) {event : Event} (h : event.isReserved = false) :
    Lockstep related (recordIf reason event) (recordIf reason event) := by
  cases reason with
  | false => exact .pure _
  | true => exact c.lockstep_record h

theorem lockstep_writeEpilogue (b : Block) :
    Lockstep related (writeEpilogue b) (writeEpilogue b) :=
  .bind (c.lockstep_inspect _) fun _ => .bind (.lift _) fun _ =>
    c.lockstep_onMemory fun _ => Memory.Same.writeWord _ _

/-- A step that first writes the tags of a block, if there are such tags. -/
theorem lockstep_writeTags (b : Block) (size : Nat) (allocated : Bool) {x y : Operation n α}
    (h : Lockstep related x y) :
    Lockstep related (do onMemory (b.writeTags (← Tag.make size allocated)); x)
      (do onMemory (b.writeTags (← Tag.make size allocated)); y) :=
  .bind (.lift _) fun _ => .bind (c.lockstep_onMemory fun _ => Memory.Same.writeTags _ _) fun _ => h

/-! ## Allocating -/

open Heap

theorem lockstep_selfAudit : Lockstep related (selfAudit (n := n)) selfAudit := by
  refine c.lockstep_heap fun h h' t => ?_
  rw [t.settings, t.audit_eq]
  cases h.settings.selfAudit with
  | false => exact .pure _
  | true => exact .bind (.lift _) fun _ => .pure _

theorem lockstep_absorbNeighbours (b : Block) :
    Lockstep related (@absorbNeighbours n _ E b) (@absorbNeighbours n _ E' b) := by
  refine .bind (c.lockstep_inspect _) fun previous => .bind (c.lockstep_inspect _) fun next =>
    .bind (c.lockstep_inspect _) fun own => .bind (c.lockstep_inspect _) fun previousUsed =>
    .bind (c.lockstep_inspect _) fun nextUsed => ?_
  have hadd : ∀ (start other : Block), Lockstep related
      (do return (start, ← Size.add own (← inspect (n := n) other.size)))
      (do return (start, ← Size.add own (← inspect other.size))) := fun _ _ =>
    .bind (c.lockstep_inspect _) fun _ => .bind (.lift _) fun _ => .pure _
  cases previousUsed with
  | true =>
      cases nextUsed with
      | true => exact .pure _
      | false => exact .bind (c.lockstep_delist next) fun _ => hadd b next
  | false =>
      cases nextUsed with
      | true => exact .bind (c.lockstep_delist previous) fun _ => hadd previous previous
      | false =>
          exact .bind (c.lockstep_delist previous) fun _ => .bind (c.lockstep_delist next) fun _ =>
            .bind (c.lockstep_inspect _) fun _ => .bind (c.lockstep_inspect _) fun _ =>
            .bind (.lift _) fun _ => .bind (.lift _) fun _ => .pure _

theorem lockstep_coalesce (b : Block) :
    Lockstep related (@coalesce n _ E b) (@coalesce n _ E' b) := by
  refine .bind (c.lockstep_absorbNeighbours b) ?_
  rintro ⟨merged, size⟩
  exact .bind (c.lockstep_inspect _) fun own => .bind (c.lockstep_recordIf _ rfl) fun _ =>
    c.lockstep_writeTags merged size false <| .bind (c.lockstep_enlist merged) fun _ => .pure _

theorem lockstep_addRoom (bytes : Nat) :
    Lockstep related (@addRoom n _ E bytes) (@addRoom n _ E' bytes) := by
  refine .bind (.lift _) fun size => .bind (c.lockstep_grow size) ?_
  rintro (e | start)
  · exact .pure _
  · refine .bind (.lift _) fun b => c.lockstep_writeTags b size false <|
      .bind (c.lockstep_writeEpilogue b) fun _ => c.lockstep_heap fun h h' t => ?_
    rw [t.size]
    exact .bind (c.lockstep_record rfl) fun _ => .bind (c.lockstep_coalesce b) fun _ => .pure _

theorem lockstep_layOut : Lockstep related (@layOut n _ E) (@layOut n _ E') := by
  refine .bind c.lockstep_forget fun _ => .bind (c.lockstep_grow 16) ?_
  rintro (e | start)
  · exact .pure _
  · refine .bind (c.lockstep_onMemory fun _ => Memory.Same.writeWord _ _) fun _ =>
      .bind (.lift _) fun _ => .bind (.lift _) fun p => c.lockstep_writeTags p 8 true <|
      .bind (c.lockstep_writeEpilogue p) fun _ => .bind (c.lockstep_found _) fun _ =>
      c.lockstep_heap fun h h' t => ?_
    rw [t.settings]
    refine .bind (c.lockstep_addRoom _) ?_
    rintro (e | _)
    · exact .pure _
    · refine c.lockstep_heap fun h h' t => ?_
      rw [t.size]
      exact .bind (c.lockstep_record rfl) fun _ => .bind c.lockstep_selfAudit fun _ => .pure _

theorem lockstep_ensureLaidOut :
    Lockstep related (@ensureLaidOut n _ E) (@ensureLaidOut n _ E') := by
  refine c.lockstep_heap fun h h' t => ?_
  rw [t.prologue]
  cases h.prologue with
  | some p => exact .pure _
  | none =>
      refine .bind c.lockstep_layOut ?_
      rintro (e | _)
      · exact .bind (c.lockstep_record rfl) fun _ => .pure _
      · exact .pure _

theorem lockstep_occupy (b : Block) (total size : Nat) :
    Lockstep related (@occupy n _ E b total size) (@occupy n _ E' b total size) := by
  refine .bind (.lift _) fun rest => ?_
  split
  · exact .bind (.lift _) fun _ => c.lockstep_onMemory fun _ => Memory.Same.writeTags _ _
  · exact c.lockstep_writeTags b size true <| .bind (c.lockstep_inspect _) fun rest =>
      .bind (.lift _) fun left => c.lockstep_writeTags rest left false <|
      (c.lockstep_coalesce rest).discard

theorem lockstep_carve (b : Block) (size : Nat) :
    Lockstep related (@carve n _ E b size) (@carve n _ E' b size) := by
  refine .bind (c.lockstep_inspect _) fun total => .bind (c.lockstep_delist b) fun _ =>
    .bind (.lift _) fun rest => c.lockstep_heap fun h h' t => ?_
  rw [t.settings]
  split
  · exact c.lockstep_writeTags b rest false <| .bind (c.lockstep_enlist b) fun _ =>
      .bind (c.lockstep_inspect _) fun allocated => c.lockstep_writeTags allocated size true <|
      .bind (c.lockstep_record rfl) fun _ => .pure _
  · exact .bind (c.lockstep_record rfl) fun _ => .bind (c.lockstep_occupy b total size) fun _ =>
      .pure _

theorem lockstep_room (size : Nat) :
    Lockstep related (@room n _ E size) (@room n _ E' size) := by
  refine c.lockstep_heap fun h h' t => ?_
  rw [t.index, t.memory, t.settings]
  refine .bind (.lift _) ?_
  rintro (_ | b)
  · exact c.lockstep_addRoom _
  · exact .pure _

theorem lockstep_allocate (size : Nat) :
    Lockstep related (@allocate n _ E size) (@allocate n _ E' size) := by
  unfold allocate
  split
  · exact .pure _
  · refine .bind c.lockstep_ensureLaidOut ?_
    rintro (_ | _)
    · exact .pure _
    · cases Size.ofRequest? size with
      | none => exact .bind (c.lockstep_record rfl) fun _ => .pure _
      | some blockSize =>
          refine .bind (c.lockstep_room blockSize) ?_
          rintro (e | b)
          · exact .bind (c.lockstep_record rfl) fun _ => .pure _
          · exact .bind (c.lockstep_carve b blockSize) fun b =>
              .bind (c.lockstep_record rfl) fun _ => .bind c.lockstep_selfAudit fun _ => .pure _

theorem lockstep_free (b? : Option Block) :
    Lockstep related (@free n _ E b?) (@free n _ E' b?) := by
  cases b? with
  | none => exact .pure _
  | some b =>
      refine c.lockstep_heap fun h h' t => ?_
      rw [t.prologue]
      cases h.prologue with
      | none => exact .pure _
      | some p =>
          exact .bind (c.lockstep_inspect _) fun size => c.lockstep_writeTags b size false <|
            .bind (c.lockstep_coalesce b).discard fun _ => .bind (c.lockstep_record rfl) fun _ =>
            c.lockstep_selfAudit

/-! ## Resizing -/

theorem lockstep_copyPayload (g : Growth) (target : Block) :
    Lockstep related (copyPayload (n := n) g target) (copyPayload g target) :=
  .bind (.lift _) fun _ => c.lockstep_onMemory fun _ => Memory.Same.move _ _ _

theorem lockstep_takeNext (g : Growth) :
    Lockstep related (@takeNext n _ E g) (@takeNext n _ E' g) := by
  refine .bind (c.lockstep_inspect _) fun next => .bind (c.lockstep_inspect _) ?_
  rintro (_ | _)
  · refine .bind (c.lockstep_inspect _) fun size => .bind (.lift _) fun total => ?_
    split
    · exact .pure _
    · exact .bind (c.lockstep_delist next) fun _ => .bind (c.lockstep_occupy _ _ _) fun _ =>
        .bind (c.lockstep_record rfl) fun _ => .pure _
  · exact .pure _

theorem lockstep_stretchAtEnd (g : Growth) :
    Lockstep related (stretchAtEnd (n := n) g) (stretchAtEnd g) := by
  refine .bind (c.lockstep_inspect _) fun next => .bind (c.lockstep_inspect _) fun tag => ?_
  split
  · exact .pure _
  · refine .bind (.lift _) fun _ => .bind (c.lockstep_grow _) ?_
    rintro (e | _)
    · exact .bind (c.lockstep_record rfl) fun _ => .pure _
    · exact c.lockstep_writeTags _ _ true <| .bind (c.lockstep_writeEpilogue _) fun _ =>
        .bind (c.lockstep_record rfl) fun _ => .pure _

theorem lockstep_takePrevious (g : Growth) :
    Lockstep related (@takePrevious n _ E g) (@takePrevious n _ E' g) := by
  refine .bind (c.lockstep_inspect _) fun previous => .bind (c.lockstep_inspect _) ?_
  rintro (_ | _)
  · refine .bind (c.lockstep_inspect _) fun size => .bind (.lift _) fun total => ?_
    split
    · exact .pure _
    · exact .bind (c.lockstep_delist previous) fun _ => .bind (c.lockstep_copyPayload g _) fun _ =>
        .bind (c.lockstep_occupy _ _ _) fun _ => .bind (c.lockstep_record rfl) fun _ => .pure _
  · exact .pure _

theorem lockstep_takeBoth (g : Growth) :
    Lockstep related (@takeBoth n _ E g) (@takeBoth n _ E' g) := by
  refine .bind (c.lockstep_inspect _) fun previous => .bind (c.lockstep_inspect _) fun next =>
    .bind (c.lockstep_inspect _) ?_
  rintro (_ | _)
  · refine .bind (c.lockstep_inspect _) ?_
    rintro (_ | _)
    · refine .bind (c.lockstep_inspect _) fun _ => .bind (.lift _) fun _ =>
        .bind (c.lockstep_inspect _) fun _ => .bind (.lift _) fun total => ?_
      split
      · exact .pure _
      · exact .bind (c.lockstep_delist previous) fun _ => .bind (c.lockstep_delist next) fun _ =>
          .bind (c.lockstep_copyPayload g _) fun _ => .bind (c.lockstep_occupy _ _ _) fun _ =>
          .bind (c.lockstep_record rfl) fun _ => .pure _
    · exact .pure _
  · exact .pure _

theorem lockstep_moveAway (g : Growth) :
    Lockstep related (@moveAway n _ E g) (@moveAway n _ E' g) := by
  refine .bind (c.lockstep_allocate _) ?_
  rintro (_ | target)
  · exact .pure _
  · exact .bind (c.lockstep_copyPayload g target) fun _ => .bind (c.lockstep_free _) fun _ =>
      .bind (.lift _) fun _ => .bind (c.lockstep_record rfl) fun _ => .pure _

theorem lockstep_resize (g : Growth) :
    Lockstep related (@resize n _ E g) (@resize n _ E' g) := by
  unfold resize
  split
  · exact .bind (c.lockstep_occupy _ _ _) fun _ => .bind (c.lockstep_record rfl) fun _ => .pure _
  · exact lockstep_firstBlock <| .cons (c.lockstep_takeNext g) <|
      .cons (c.lockstep_stretchAtEnd g) <| .cons (c.lockstep_takePrevious g) <|
      .cons (c.lockstep_takeBoth g) <| .cons (c.lockstep_moveAway g) .nil

theorem lockstep_reallocate (b? : Option Block) (size : Nat) :
    Lockstep related (@reallocate n _ E b? size) (@reallocate n _ E' b? size) := by
  cases b? with
  | none => exact c.lockstep_allocate size
  | some b =>
      unfold reallocate
      dsimp only
      split
      · exact .bind (c.lockstep_free _) fun _ => .pure _
      · cases Size.ofRequest? size with
        | none => exact .bind (c.lockstep_record rfl) fun _ => .pure _
        | some newSize =>
            exact .bind (c.lockstep_inspect _) fun oldSize => .bind (c.lockstep_resize _) fun _ =>
              .bind c.lockstep_selfAudit fun _ => .pure _

theorem lockstep_writePayload (b : Block) (position : Nat) (bytes : List UInt8) :
    Lockstep related (writePayload b position bytes) (writePayload b position bytes) := by
  refine c.lockstep_heap fun h h' t => ?_
  -- Where the payload ends depends on the block's tag and on the size of the region.
  have hpayload : h'.payload b = h.payload b := by
    rw [payload, payload, t.memory, t.size]
  rw [hpayload]
  refine .bind (.lift _) ?_
  rintro ⟨start, stop⟩
  refine .bind (.lift _) fun _ => ?_
  split
  · refine c.lockstep_onMemory fun _ => .modify fun m m' hm => ?_
    exact ⟨by rw [hm.1], by simpa using hm.2⟩
  · exact .throw _

/-! ## Requests -/

/-- **A REQUEST** runs in lockstep on coupled runs. -/
theorem lockstep_serve (request : Request) :
    Lockstep related (@Request.serve n _ E request) (@Request.serve n _ E' request) := by
  cases request with
  | layOut => exact .bind c.lockstep_layOut fun _ => .pure _
  | allocate size => exact .bind (c.lockstep_allocate size) fun _ => .pure _
  | free b? => exact .bind (c.lockstep_free b?) fun _ => .pure _
  | reallocate b? size => exact .bind (c.lockstep_reallocate b? size) fun _ => .pure _
  | write b position bytes =>
      exact .bind (c.lockstep_writePayload b position bytes) fun _ => .pure _

theorem lockstep_operation (request : Request) :
    Lockstep related (@Request.operation n _ E request) (@Request.operation n _ E' request) := by
  rw [@Request.operation_eq n _ E, @Request.operation_eq n _ E']
  exact .bind (c.lockstep_serve request) fun _ => .pure _

end Coupling

end TagHeap
