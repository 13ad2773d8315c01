import TagHeap.Proofs.Guarantees
import TagHeap.Proofs.Transcripts

/-!
# Laying a heap out anew

A heap that is laid out anew leaves what it was behind: it goes on at the end of the granted bytes,
and nothing that lies below is touched or looked at again (`Reachable.layOut_isolated`). The old
epilogue, old tags and old links are right below the new prologue and look as good as ever, so this
says that no merge, no look at a previous block and no walk along a list crosses the boundary,
whatever is asked for later.

The invariant is `Heap.Above`: the prologue lies above the floor, or there is none and the granted
bytes reach up to the floor, so that a heap that is laid out on the first request after a failure is
above the floor too.
-/

namespace TagHeap

open Layout Operation Step

variable {n : Nat} [HasClass n] {floor : Nat}

/-! ## Above the floor -/

namespace Heap

/-- The heap is above the first `floor` bytes, or will be once it is laid out. -/
inductive Above (floor : Nat) (h : Heap n) : Prop
  | vacant (hv : h.Vacant) (hle : floor ≤ h.size)
  | shaped {p : Block} {xs : List Extent} (g : h.Shaped p xs) (hle : floor + 8 ≤ p.offset)

variable {h : Heap n} {p b : Block} {xs : List Extent} {live : Live}

/-- The prologue of a heap above the floor is above the floor. -/
theorem Above.le_prologue (ha : h.Above floor) (g : h.Shaped p xs) : floor + 8 ≤ p.offset := by
  cases ha with
  | vacant hv =>
      have hnone := hv.prologue
      rw [g.prologue] at hnone
      exact nomatch hnone
  | shaped g' hle =>
      obtain ⟨rfl, -⟩ := Shaped.unique g g'
      exact hle

end Heap

/-- The heap still is above the floor, and no byte below has changed. -/
structure Run.StaysAbove (floor : Nat) (run run' : Run n) : Prop where
  above : run'.heap.Above floor
  byte : ∀ i < floor, run'.heap.memory.byte i = run.heap.memory.byte i

namespace Run.StaysAbove

variable {run run' run'' : Run n} {p : Block} {xs ys zs : List Extent}

theorem of_heap_eq (ha : run.heap.Above floor) (h : run'.heap = run.heap) :
    run.StaysAbove floor run' := by
  rw [← h] at ha
  exact ⟨ha, fun i _ => congrArg (fun h : Heap n => h.memory.byte i) h⟩

theorem trans (h : run.StaysAbove floor run') (h' : run'.StaysAbove floor run'') :
    run.StaysAbove floor run'' :=
  ⟨h'.above, fun i hi => (h'.byte i hi).trans (h.byte i hi)⟩

/-- What spares all that lies below the first block spares all that lies below the floor. -/
theorem of_spares (hle : floor + 8 ≤ p.offset) (g : run'.heap.Shaped p ys)
    (hk : run.Spares (Held p zs) run') : run.StaysAbove floor run' :=
  ⟨.shaped g hle, fun i hi => hk.byte i (.inl (by omega))⟩

end Run.StaysAbove

namespace Heap

variable {run : Run n} {p b : Block} {xs : List Extent} {live : Live}

/-- **LAYING OUT** a heap at the end of the granted bytes. -/
theorem layOut_staysAbove (hs : run.heap.region.Sound) (hle : floor ≤ run.heap.size) :
    layOut.Ensures run fun answer run' => run.StaysAbove floor run' ∧
      (answer = .ok () → ∃ p xs, run'.heap.Shaped p xs) := by
  refine (layOut_ensures hs).mono ?_
  rintro answer run' ⟨-, hbytes, -, hspec⟩
  have hbelow : ∀ i < floor, run'.heap.memory.byte i = run.heap.memory.byte i := fun i hi =>
    hbytes i (Nat.lt_of_lt_of_le hi hle)
  cases answer with
  | error e =>
      refine ⟨⟨?_, hbelow⟩, nofun⟩
      rcases hspec with ⟨hv, hm⟩ | ⟨p, hp, g⟩
      · exact .vacant hv (Nat.le_trans hle (Nat.le_of_eq (congrArg Memory.size hm).symm))
      · exact .shaped g (by omega)
  | ok u =>
      obtain ⟨p, hp, g⟩ := hspec
      exact ⟨⟨.shaped g (by omega), hbelow⟩, fun _ => ⟨p, _, g⟩⟩

/-- It succeeds just if the region can grow by as much at once, and leaves one free chunk. -/
theorem layOut_succeeds (hs : run.heap.region.Sound) :
    layOut.Ensures run fun answer run' =>
      (answer = .ok () ↔ ∃ r, Region.grow (16 + run.heap.settings.chunkSize) run.heap.region =
        .ok (.ok run.heap.region.size) r) ∧
      (answer = .ok () →
        run'.heap.layout = .ok [⟨run.heap.size + 16, run.heap.settings.chunkSize, false⟩] ∧
          run'.heap.size = run.heap.size + 16 + run.heap.settings.chunkSize) := by
  refine (layOut_planned hs).mono ?_
  rintro answer run' ⟨-, -, -, -, hspec⟩
  have hsize : run.heap.size = run.heap.region.size := rfl
  rw [hsize] at hspec ⊢
  rw [hs.grow_eq_ok_iff, hs.refuse?_add]
  cases hfirst : run.heap.region.bounds.refuse? run.heap.region.size 16 with
  | some e =>
      rw [hfirst] at hspec
      obtain ⟨rfl, -⟩ := hspec
      exact ⟨⟨nofun, fun h => (nomatch h.1)⟩, nofun⟩
  | none =>
      rw [hfirst] at hspec
      obtain ⟨p, hp, hspec⟩ := hspec
      cases hchunk : run.heap.region.bounds.reserve.2.refuse? (run.heap.region.size + 16)
        run.heap.settings.chunkSize with
      | some e =>
          rw [hchunk] at hspec
          obtain ⟨rfl, -⟩ := hspec
          exact ⟨⟨nofun, fun h => (nomatch h.2)⟩, nofun⟩
      | none =>
          rw [hchunk] at hspec
          obtain ⟨rfl, g⟩ := hspec
          refine ⟨⟨fun _ => ⟨rfl, rfl⟩, fun _ => rfl⟩, fun _ => ⟨layout_eq_ok g, ?_⟩⟩
          rw [g.size_eq, hp, List.map_singleton, List.sum_singleton]

theorem allocate_staysAbove_of_shaped (g : run.heap.Shaped p xs) (hle : floor + 8 ≤ p.offset)
    {size : Nat} (hsize : size ≠ 0) :
    (allocate size).Ensures run fun _ run' => run.StaysAbove floor run' := by
  refine (allocate_ensures g hsize).mono ?_
  rintro (_ | b) run' hspec
  · exact .of_heap_eq (.shaped g hle) hspec.2.heap_eq
  · obtain ⟨-, ⟨ys, y, g', -, -, -, -, hk⟩, -⟩ := hspec
    exact .of_spares hle g' hk

theorem allocate_staysAbove (ha : run.heap.Above floor) (size : Nat) :
    (allocate size).Ensures run fun _ run' => run.StaysAbove floor run' := by
  by_cases hsize : size = 0
  · rw [allocate, if_pos hsize]
    exact .pure (.of_heap_eq ha rfl)
  cases ha with
  | shaped g hle => exact allocate_staysAbove_of_shaped g hle hsize
  | vacant hv hle =>
      -- The first request lays the heap out, and what is handed out comes from that heap.
      obtain ⟨answer, run₁, hrun₁, hstays, hshaped⟩ := layOut_staysAbove hv.sound hle
      cases answer with
      | error e =>
          exact .of_ok (allocate_of_not_laidOut hv.prologue hrun₁ hsize)
            (hstays.trans (.of_heap_eq hstays.above rfl))
      | ok u =>
          obtain ⟨p, xs, g⟩ := hshaped rfl
          obtain ⟨answer, run', hrun', hstays'⟩ :=
            allocate_staysAbove_of_shaped g (hstays.above.le_prologue g) hsize
          exact .of_ok ((allocate_of_laidOut hv.prologue hrun₁ g hsize).trans hrun')
            (hstays.trans hstays')

theorem free_staysAbove (ha : run.heap.Above floor) (hs : run.heap.Serves live) {size : Nat}
    (hb : (b, size) ∈ live) :
    (free (some b)).Ensures run fun _ run' => run.StaysAbove floor run' := by
  obtain ⟨p, xs, g, hbacks⟩ := hs.shaped_of_mem hb
  have hle := ha.le_prologue g
  obtain ⟨pre, x, post, rfl, hx, hbx⟩ := hbacks.split hb
  refine (free_ensures g hx hbx).mono ?_
  rintro _ run' ⟨g', hk⟩
  exact .of_spares hle g' hk

theorem reallocate_staysAbove (ha : run.heap.Above floor) (hs : run.heap.Serves live) {old : Nat}
    (hb : (b, old) ∈ live) (size : Nat) :
    (reallocate (some b) size).Ensures run fun _ run' => run.StaysAbove floor run' := by
  by_cases hsize : size = 0
  · rw [reallocate, if_pos hsize]
    exact .bind (free_staysAbove ha hs hb) fun _ _ h => .pure h
  obtain ⟨p, xs, g, hbacks⟩ := hs.shaped_of_mem hb
  have hle := ha.le_prologue g
  obtain ⟨pre, x, post, rfl, hx, hbx⟩ := hbacks.split hb
  refine (reallocate_ensures g hx hbx hsize).mono ?_
  rintro (_ | q) run' hspec
  · exact .of_heap_eq ha hspec.2.heap_eq
  · obtain ⟨need, -, ys, y, g', -, -, -, -, -, hk⟩ := hspec
    exact .of_spares hle g' hk

theorem write_staysAbove (ha : run.heap.Above floor) (hs : run.heap.Serves live)
    {size position usable : Nat} {bytes : List UInt8} (hb : (b, size) ∈ live)
    (husable : run.heap.usableSize b = .ok usable) (hfits : position + bytes.length ≤ usable) :
    (writePayload b position bytes).Ensures run fun _ run' => run.StaysAbove floor run' := by
  obtain ⟨p, xs, g, hbacks⟩ := hs.shaped_of_mem hb
  have hle := ha.le_prologue g
  obtain ⟨pre, x, post, rfl, hx, hbx⟩ := hbacks.split hb
  rw [(g.houses (x := x) (by simp) hbx).usableSize_eq_ok] at husable
  obtain rfl := Except.ok.inj husable
  refine (writePayload_ensures g hx hbx hfits).mono ?_
  rintro _ run' ⟨g', hk⟩
  exact .of_spares hle g' hk

end Heap

namespace Request

variable {h : Heap n} {run : Run n} {live : Live} {request : Request} {o : Outline}

/-- **NO REQUEST** but the one to lay the heap out anew gets below the floor. -/
theorem ensures_staysAbove (habove : run.heap.Above floor) (hs : run.heap.Serves live)
    (ha : request.Allowed run.heap live) (hne : request ≠ .layOut) :
    request.operation.Ensures run fun _ run' => run.StaysAbove floor run' := by
  cases request with
  | layOut => exact absurd rfl hne
  | allocate size => exact Heap.allocate_staysAbove habove size
  | free b? =>
      cases b? with
      | none => exact .bind_ok rfl (.pure (.of_heap_eq habove rfl))
      | some b =>
          obtain ⟨size, hb⟩ := ha.has b rfl
          exact .bind (Heap.free_staysAbove habove hs hb) fun _ _ h => .pure h
  | reallocate b? size =>
      cases b? with
      | none => exact Heap.allocate_staysAbove habove size
      | some b =>
          obtain ⟨old, hb⟩ := ha.has b rfl
          exact Heap.reallocate_staysAbove habove hs hb size
  | write b position bytes =>
      obtain ⟨size, hb⟩ := ha.has b rfl
      obtain ⟨usable, husable, hfits⟩ := ha.fits
      exact .bind (Heap.write_staysAbove habove hs hb husable hfits) fun _ _ h => .pure h

/-- The block in a reply is one that the client has afterwards. -/
theorem mem_after_of_block? (live : Live) {b : Block}
    (hb : (o.serve request).1.block? = some b) :
    ∃ size, (b, size) ∈ live.after request (some b) := by
  cases request with
  | layOut => exact nomatch hb
  | allocate size => exact ⟨size, .head _⟩
  | free b? => exact nomatch hb
  | reallocate b? size => exact ⟨size, .head _⟩
  | write b position bytes => exact nomatch hb

/-- One request of a client, as the client sees it: it is answered, a block that it gets is above
the floor, and so is all that has changed. -/
theorem serve_on_above (habove : h.Above floor) (hs : h.Serves live)
    (ha : request.Allowed h live) (hne : request ≠ .layOut) :
    ∃ reply, (request.serve.on h).result = .ok reply ∧
      (∀ b, reply.block? = some b → floor + 16 ≤ b.offset) ∧
      (request.serve.on h).state.Serves (live.after request reply.block?) ∧
      (request.serve.on h).state.Above floor ∧
      ∀ i < floor, (request.serve.on h).state.memory.byte i = h.memory.byte i := by
  obtain ⟨o, ho⟩ := hs.exists_outline
  obtain ⟨hresult, -, hserves⟩ := serve_on ho hs ha
  have habove' : (Run.mk h []).heap.Above floor := habove
  obtain ⟨answer, journal, -, hstays⟩ := on_of_ensures (ensures_staysAbove habove' hs ha hne)
  rw [(request.operation_on h).2] at hstays
  refine ⟨_, hresult, fun b hb => ?_, hserves, hstays.above, hstays.byte⟩
  -- The client has the block now, so it is one of the blocks behind the prologue.
  rw [hb] at hserves
  obtain ⟨size, hmem⟩ := mem_after_of_block? live hb
  obtain ⟨p, xs, g, hbacks⟩ := hserves.shaped_of_mem hmem
  obtain ⟨x, hx, hxe, -⟩ := hbacks.large _ hmem
  have hle := hstays.above.le_prologue g
  have hlo := (g.around.before.bounds (mem_used.1 hx).1).1
  dsimp only at hxe
  omega

end Request

/-! ## Runs above the floor -/

namespace Heap

variable {h : Heap n} {o : Outline} {p : Block} {xs : List Extent} {live : Live}
  {requests early late : List Request} {m : Memory}

/-- In a run above the floor every request is answered, every block is above the floor, and no byte
below ever changes. -/
theorem Above.transcript (habove : h.Above floor) (hs : h.Serves live)
    (ha : h.Admits live requests) (hne : .layOut ∉ requests) :
    ∀ entry ∈ h.transcript memory requests,
      (∃ reply, entry.reply = .ok reply ∧ ∀ b, reply.block? = some b → floor + 16 ≤ b.offset) ∧
        ∀ i < floor, entry.seen.byte i = h.memory.byte i := by
  induction requests generalizing h live with
  | nil => exact fun _ he => nomatch he
  | cons request rest ih =>
      obtain ⟨hallowed, hrest⟩ := ha
      rw [List.mem_cons, not_or] at hne
      obtain ⟨reply, hresult, hblock, hs', habove', hbytes⟩ :=
        request.serve_on_above habove hs hallowed (Ne.symm hne.1)
      intro entry he
      rcases List.mem_cons.mp he with rfl | he
      · exact ⟨⟨reply, hresult, hblock⟩, hbytes⟩
      · obtain ⟨hreply, hseen⟩ := ih habove' hs' (hrest reply hresult) hne.2 entry he
        exact ⟨hreply, fun i hi => (hseen i hi).trans (hbytes i hi)⟩

/-- A run above the floor may be looked at from any point on. -/
theorem Above.afterAll (habove : h.Above floor) (hs : h.Serves live)
    (ha : h.Admits live (early ++ late)) (hne : .layOut ∉ early) :
    (h.afterAll early).Above floor ∧ ∃ live', (h.afterAll early).Serves live' ∧
      (h.afterAll early).Admits live' late := by
  induction early generalizing h live with
  | nil => exact ⟨habove, live, hs, ha⟩
  | cons request rest ih =>
      obtain ⟨hallowed, hrest⟩ := ha
      rw [List.mem_cons, not_or] at hne
      obtain ⟨reply, hresult, -, hs', habove', -⟩ :=
        request.serve_on_above habove hs hallowed (Ne.symm hne.1)
      exact ih habove' hs' (hrest reply hresult) hne.2

/-! ### What lies below does not matter -/

/-- A heap in shape takes no notice of what lies below its prologue. -/
theorem Shaped.withMemory (g : h.Shaped p xs) (hm : h.memory.Agrees (fun i => p.offset ≤ i + 4) m) :
    (h.withMemory m).Shaped p xs := by
  have hlo := g.around.bounds.1
  have around : Around p xs m.size 0 [] m.size := by
    rw [hm.size]
    exact g.around
  refine ⟨g.prologue, g.ready.withMemory hm.size, around, ?_, ?_⟩
  · refine g.inOrder.stamped.congr g.around (hm.mono fun i hi => ?_)
    rcases hi with hi | hi | ⟨x, hx, hi⟩
    · omega
    · omega
    · obtain ⟨h1, -, h2, -⟩ := g.around.mem_bounds hx
      simp only [Size.minBlock] at h2
      omega
  · refine g.inOrder.listed.congr fun x hx _ i hi _ => hm.byte i ?_
    have := (g.around.mem_bounds hx).1
    omega

/-- Nor does an outline of what lies below the floor. -/
theorem HasOutline.withMemory (ho : h.HasOutline o) (habove : h.Above floor)
    (hm : h.memory.Agrees (floor ≤ ·) m) : (h.withMemory m).HasOutline o := by
  refine ⟨ho.bounds, ho.settings, ?_⟩
  have hc := ho.content
  cases hcontent : o.content with
  | vacant size =>
      rw [hcontent] at hc
      obtain ⟨hv, rfl⟩ := hc
      exact ⟨⟨hv.prologue, hv.index, hv.sound.withMemory hm.size⟩, hm.size⟩
  | blocks p xs =>
      rw [hcontent] at hc
      have g : h.Shaped p xs := hc
      have hle := habove.le_prologue g
      exact g.withMemory (hm.mono fun i hi => by omega)

/-- **BLINDNESS.** Other bytes below the floor make no difference to a run above it. -/
theorem Above.blind (habove : h.Above floor) (hs : h.Serves live) (ha : h.Admits live requests)
    (hm : h.memory.Agrees (floor ≤ ·) m) :
    (h.withMemory m).transcript (fun h => (h.view, h.freeList)) requests =
      h.transcript (fun h => (h.view, h.freeList)) requests := by
  -- Both runs are what their common outline says.
  obtain ⟨o, ho⟩ := hs.exists_outline
  have ho' := ho.withMemory habove hm
  rw [(transcript_eq HasOutline.seen_eq ho hs ha).1,
    (transcript_eq HasOutline.seen_eq ho' (ho.serves ho' hs) (ha.congr ho ho' hs)).1]

end Heap

/-! ## The promise -/

namespace Heap

variable {h : Heap n} {live : Live}

/-- What a client may rely on that was given the heap without any block: as long as it does not lay
the heap out anew, its requests neither reach below the floor nor look there. -/
structure Isolated (floor : Nat) (h : Heap n) : Prop where
  /-- Requests are answered with blocks above the floor, and change no byte below. -/
  keeps : ∀ requests, h.Admits [] requests → .layOut ∉ requests →
    ∀ entry ∈ h.transcript memory requests,
      (∃ reply, entry.reply = .ok reply ∧ ∀ b, reply.block? = some b → floor + 16 ≤ b.offset) ∧
        ∀ i < floor, entry.seen.byte i = h.memory.byte i
  /-- At any time, other bytes below the floor would make no difference to what follows. -/
  blind : ∀ early late, h.Admits [] (early ++ late) → .layOut ∉ early ++ late →
    ∀ m, (h.afterAll early).memory.Agrees (floor ≤ ·) m →
      ((h.afterAll early).withMemory m).transcript (fun h => (h.view, h.freeList)) late =
        (h.afterAll early).transcript (fun h => (h.view, h.freeList)) late

theorem Above.isolated {floor : Nat} (habove : h.Above floor) (hs : h.Serves []) :
    h.Isolated floor := by
  refine ⟨fun requests ha hne => habove.transcript hs ha hne, fun early late ha hne m hm => ?_⟩
  obtain ⟨hnow, live, hserves, hlate⟩ :=
    habove.afterAll hs ha fun hmem => hne (List.mem_append_left _ hmem)
  exact hnow.blind hserves hlate hm

end Heap

variable {h : Heap n} {live : Live}

/-- **LAYING A HEAP OUT ANEW** changes no byte that was granted before. It succeeds just if the
region can grow by sixteen bytes and a chunk, and then the chunk is the only block and free. Whether
it succeeds or not, what was there before is out of reach from then on. -/
theorem Reachable.layOut_isolated (hr : Reachable h live) :
    ∃ answer, (Heap.layOut.on h).result = .ok answer ∧
      (∀ i < h.size, (Heap.layOut.on h).state.memory.byte i = h.memory.byte i) ∧
      (answer = .ok () ↔
        ∃ r, Region.grow (16 + h.settings.chunkSize) h.region = .ok (.ok h.size) r) ∧
      (answer = .ok () →
        (Heap.layOut.on h).state.layout = .ok [⟨h.size + 16, h.settings.chunkSize, false⟩] ∧
          (Heap.layOut.on h).state.size = h.size + 16 + h.settings.chunkSize) ∧
      (Heap.layOut.on h).state.Isolated h.size := by
  have hs : (Run.mk h []).heap.Serves live := hr.serves
  obtain ⟨answer, journal, hresult, ⟨⟨hiff, hfresh⟩, hserved, -⟩, hstays, -⟩ := on_of_ensures
    (((Heap.layOut_succeeds hs.sound).and (Heap.layOut_served hs)).and
      (Heap.layOut_staysAbove hs.sound (Nat.le_refl _)))
  exact ⟨answer, hresult, hstays.byte, hiff, hfresh, hstays.above.isolated hserved⟩

/-- A heap that has used half of its region, with a block at its end. -/
def halfFull : Heap 3 := ((Heap.allocate 24).on (.new (.buffer 8224) .standard)).state

theorem reachable_halfFull : Reachable halfFull [(⟨4080, by decide⟩, 24)] := by
  have fresh : Reachable (.new (.buffer 8224) .standard : Heap 3) [] := .buffer 8224 .standard
  have first : Reachable ((Heap.allocate 24).on (.new (.buffer 8224) .standard : Heap 3)).state
      [(⟨4080, by decide⟩, 24)] :=
    fresh.step (show Request.Allowed (.allocate 24) _ _ from ⟨nofun, trivial⟩) rfl
  exact first

/-- The other half holds the sentinels and the chunk of a new heap, and no more. -/
theorem layOut_isolated_halfFull :
    (Heap.layOut.on halfFull).state.layout = .ok [⟨4128, 4096, false⟩] ∧
      (Heap.layOut.on halfFull).state.size = 8224 ∧
      (Heap.layOut.on halfFull).state.Isolated 4112 := by
  obtain ⟨answer, hanswer, -, -, hfresh, hisolated⟩ := reachable_halfFull.layOut_isolated
  have hok : (Heap.layOut.on halfFull).result = .ok (.ok ()) := rfl
  obtain rfl := Except.ok.inj (hok.symm.trans hanswer)
  have hsize : halfFull.size = 4112 := rfl
  rw [hsize] at hfresh hisolated
  exact ⟨(hfresh rfl).1, (hfresh rfl).2, hisolated⟩

end TagHeap
