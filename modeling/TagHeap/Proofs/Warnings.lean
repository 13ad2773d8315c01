import TagHeap.Proofs.Guarantees

/-!
# Warnings

A warning says that somebody asked for a block and did not get one. It is reported where the request
fails, and there are several such places: laying out the heap for the first request, the limit on
block sizes, the growth of the region, and the request for a new block when a block is resized and
cannot stay near. Each way through them reports exactly one warning if it ends without a block, and
none if it ends with one (`Reachable.warns_of_failures`). Attempts that fail on the way to a block
are no failures; they are reported at another level.
-/

namespace TagHeap

open Layout Operation Step

/-- The number of warnings among events. -/
def warnings (events : List Event) : Nat := events.countP (·.level = .warn)

@[simp] theorem warnings_nil : warnings [] = 0 := rfl

@[simp] theorem warnings_append (events events' : List Event) :
    warnings (events ++ events') = warnings events + warnings events' := List.countP_append

theorem warnings_cons_of_warn {e : Event} (he : e.level = .warn) (events : List Event) :
    warnings (e :: events) = warnings events + 1 :=
  List.countP_cons_of_pos (decide_eq_true he)

@[simp] theorem warnings_reverse (events : List Event) :
    warnings events.reverse = warnings events := List.countP_reverse

/-- A quiet operation adds no warning. -/
theorem Quiet.warnings_eq {journal journal' : List Event} (h : Quiet journal journal') :
    warnings journal' = warnings journal := by
  obtain ⟨events, rfl, hnone⟩ := h
  have hzero : warnings events = 0 := by
    refine List.countP_eq_zero.2 fun e he hwarn => ?_
    exact hnone e he (of_decide_eq_true hwarn)
  rw [warnings_append, hzero, Nat.zero_add]

namespace Request

/-- The request asks for a block of at least one byte. -/
def AsksForBlock : Request → Prop
  | allocate size | reallocate _ size => size ≠ 0
  | layOut | free _ | write .. => False

instance : DecidablePred AsksForBlock
  | allocate _ | reallocate .. => inferInstanceAs (Decidable (_ ≠ _))
  | layOut | free _ | write .. => inferInstanceAs (Decidable False)

end Request

variable {n : Nat}

namespace Run

/-- Between the two runs one warning was reported if the answer is no block, and none if it is one.
-/
def WarnsUnless (run : Run n) (answer : Option Block) (run' : Run n) : Prop :=
  warnings run'.journal = warnings run.journal + if answer = none then 1 else 0

variable {run run' : Run n}

theorem Warned.warnsUnless (h : run.Warned run') : run.WarnsUnless none run' := by
  obtain ⟨run₁, e, hidle, he, rfl⟩ := h
  rw [WarnsUnless, warnings_cons_of_warn he, hidle.quiet.warnings_eq]
  rfl

theorem warnsUnless_of_quiet (h : Quiet run.journal run'.journal) (b : Block) :
    run.WarnsUnless (some b) run' := h.warnings_eq

end Run

variable [HasClass n] {h : Heap n} {live : Live} {run : Run n} {p b : Block} {xs : List Extent}
  {size : Nat}

namespace Heap

/-! ## One request -/

theorem Shaped.allocate_warns (g : run.heap.Shaped p xs) (hsize : size ≠ 0) :
    (allocate size).Ensures run run.WarnsUnless := by
  refine (allocate_ensures g hsize).mono ?_
  rintro (_ | b) run' hspec
  · exact hspec.2.warnsUnless
  · obtain ⟨-, ⟨_, _, -, -, -, -, -, hk⟩, -⟩ := hspec
    exact Run.warnsUnless_of_quiet hk.quiet b

/-- The first request warns once, where the heap cannot be laid out or where it has no room. -/
theorem Vacant.allocate_warns (hv : run.heap.Vacant) (hsize : size ≠ 0) :
    (allocate size).Ensures run run.WarnsUnless := by
  obtain ⟨answer, run₁, hrun₁, -, -, hquiet, hspec⟩ := layOut_ensures hv.sound
  cases answer with
  | error e =>
      have hwarned : warnings (.notLaidOut e :: run₁.journal) = warnings run.journal + 1 := by
        rw [warnings_cons_of_warn rfl, hquiet.warnings_eq]
      exact .of_ok (allocate_of_not_laidOut hv.prologue hrun₁ hsize) hwarned
  | ok _ =>
      obtain ⟨q, -, g⟩ := hspec
      obtain ⟨answer, run', hrun', hwarns⟩ := g.allocate_warns hsize
      refine .of_ok ((allocate_of_laidOut hv.prologue hrun₁ g hsize).trans hrun') ?_
      rw [Run.WarnsUnless, ← hquiet.warnings_eq]
      exact hwarns

theorem Serves.allocate_warns (hs : run.heap.Serves live) (hsize : size ≠ 0) :
    (allocate size).Ensures run run.WarnsUnless := by
  cases hs with
  | vacant hv => exact hv.allocate_warns hsize
  | shaped g _ => exact g.allocate_warns hsize

theorem Serves.free_quiet (hs : run.heap.Serves live) (hb : (b, size) ∈ live) :
    (free (some b)).Ensures run fun _ run' => Quiet run.journal run'.journal := by
  obtain ⟨p, xs, g, hbacks⟩ := hs.shaped_of_mem hb
  obtain ⟨pre, x, post, rfl, hx, hbx⟩ := hbacks.split hb
  exact (free_ensures g hx hbx).mono fun _ _ hspec => hspec.2.quiet

theorem Serves.write_quiet {position usable : Nat} {bytes : List UInt8}
    (hs : run.heap.Serves live) (hb : (b, size) ∈ live)
    (husable : run.heap.usableSize b = .ok usable) (hfits : position + bytes.length ≤ usable) :
    (writePayload b position bytes).Ensures run fun _ run' =>
      Quiet run.journal run'.journal := by
  obtain ⟨p, xs, g, hbacks⟩ := hs.shaped_of_mem hb
  obtain ⟨pre, x, post, rfl, hx, hbx⟩ := hbacks.split hb
  rw [(g.houses (x := x) (by simp) hbx).usableSize_eq_ok] at husable
  obtain rfl := Except.ok.inj husable
  exact (writePayload_ensures g hx hbx hfits).mono fun _ _ hspec => hspec.2.quiet

/-- However a block is resized, one warning says that it was not. -/
theorem Serves.reallocate_warns {old : Nat} (hs : run.heap.Serves live) (hb : (b, old) ∈ live)
    (hsize : size ≠ 0) : (reallocate (some b) size).Ensures run run.WarnsUnless := by
  obtain ⟨p, xs, g, hbacks⟩ := hs.shaped_of_mem hb
  obtain ⟨pre, x, post, rfl, hx, hbx⟩ := hbacks.split hb
  refine (reallocate_ensures g hx hbx hsize).mono ?_
  rintro (_ | q) run' hspec
  · exact hspec.2.warnsUnless
  · obtain ⟨_, -, _, _, -, -, -, -, -, -, hk⟩ := hspec
    exact Run.warnsUnless_of_quiet hk.quiet q

end Heap

/-! ## Every request -/

namespace Request

variable {request : Request} {answer : Option Block} {run' : Run n}

/-- Between the two runs one warning was reported if the request asks for a block and was answered
with none, and no warning else. -/
def Reports (request : Request) (run : Run n) (answer : Option Block) (run' : Run n) : Prop :=
  warnings run'.journal =
    warnings run.journal + if request.AsksForBlock ∧ answer = none then 1 else 0

omit [HasClass n] in
theorem reports_of_warnsUnless (hasks : request.AsksForBlock) (h : run.WarnsUnless answer run') :
    request.Reports run answer run' := by
  rw [Reports, h, if_congr (and_iff_right hasks) rfl rfl]

omit [HasClass n] in
theorem reports_of_quiet (hasks : ¬ request.AsksForBlock) (h : Quiet run.journal run'.journal) :
    request.Reports run answer run' := by
  rw [Reports, h.warnings_eq, if_neg fun hboth => hasks hboth.1, Nat.add_zero]

/-- A request reports the warning that is due, and no other one. -/
theorem ensures_reports (hs : run.heap.Serves live) (ha : request.Allowed run.heap live) :
    request.operation.Ensures run (request.Reports run) := by
  have hnone : ∀ {request : Request}, ¬ request.AsksForBlock →
      request.Reports run none run := fun hasks => reports_of_quiet hasks (.refl _)
  cases request with
  | layOut =>
      have hlay : Ensures (discard Heap.layOut) run fun _ run' => Quiet run.journal run'.journal :=
        .discard ((Heap.layOut_ensures hs.sound).mono fun _ _ hspec => hspec.2.2.1)
      exact .bind hlay fun _ _ hquiet => .pure (reports_of_quiet id hquiet)
  | allocate size =>
      by_cases hsize : size = 0
      · subst hsize
        exact .of_ok rfl (hnone (not_not.2 rfl))
      · exact (hs.allocate_warns hsize).mono fun _ _ => reports_of_warnsUnless hsize
  | free b? =>
      cases b? with
      | none => exact .of_ok rfl (hnone id)
      | some b =>
          obtain ⟨size, hb⟩ := ha.has b rfl
          exact .bind (hs.free_quiet hb) fun _ _ hquiet => .pure (reports_of_quiet id hquiet)
  | reallocate b? size =>
      cases b? with
      | none =>
          by_cases hsize : size = 0
          · subst hsize
            exact .of_ok rfl (hnone (not_not.2 rfl))
          · exact (hs.allocate_warns hsize).mono fun _ _ => reports_of_warnsUnless hsize
      | some b =>
          obtain ⟨old, hb⟩ := ha.has b rfl
          by_cases hsize : size = 0
          · subst hsize
            exact .bind (hs.free_quiet hb) fun _ _ hquiet =>
              .pure (reports_of_quiet (not_not.2 rfl) hquiet)
          · exact (hs.reallocate_warns hb hsize).mono fun _ _ => reports_of_warnsUnless hsize
  | write b position bytes =>
      obtain ⟨size, hb⟩ := ha.has b rfl
      obtain ⟨usable, husable, hfits⟩ := ha.fits
      exact .bind (hs.write_quiet hb husable hfits) fun _ _ hquiet =>
        .pure (reports_of_quiet id hquiet)

end Request

/-- **WARNINGS MARK THE FAILURES**, each of them once. In every run, a request for a block of at
least one byte, new or resized, reports one warning if it is answered with none, and no warning if
it is answered with a block. No other request reports a warning. -/
theorem Reachable.warns_of_failures (hr : Reachable h live) {request : Request}
    (ha : request.Allowed h live) :
    ∃ answer, (request.operation.on h).result = .ok answer ∧
      warnings (request.operation.on h).events =
        if request.AsksForBlock ∧ answer = none then 1 else 0 := by
  have hs : (Run.mk h []).heap.Serves live := hr.serves
  obtain ⟨answer, hresult, hcount⟩ := outcome_of_ensures (Request.ensures_reports hs ha)
  rw [Request.Reports, warnings_reverse, warnings_nil, Nat.zero_add] at hcount
  exact ⟨answer, hresult, hcount⟩

/-- A block that cannot grow where it is, nor be moved, is one warning. So is a heap that cannot be
laid out. A block that grows after attempts that failed is none. -/
theorem warns_of_failures_twoBlocks :
    warnings ((Heap.reallocate (some ⟨4032, by decide⟩) 5000).on twoBlocks).events = 1 ∧
      warnings ((Heap.reallocate (some ⟨4032, by decide⟩) 60).on twoBlocks).events = 0 ∧
      warnings ((Heap.allocate 8).on (.new (.buffer 64) .standard : Heap 2)).events = 1 := by
  have fresh : Reachable (.new (.buffer 64) .standard : Heap 2) [] := .buffer 64 .standard
  obtain ⟨answer, hanswer, hfails⟩ :=
    reachable_twoBlocks.warns_of_failures (allowed_twoBlocks 5000)
  obtain ⟨answer', hanswer', hgrows⟩ :=
    reachable_twoBlocks.warns_of_failures (allowed_twoBlocks 60)
  obtain ⟨answer'', hanswer'', hfirst⟩ := fresh.warns_of_failures
    (show Request.Allowed (.allocate 8) _ _ from ⟨nofun, trivial⟩)
  have hnone : ((Heap.reallocate (some ⟨4032, by decide⟩) 5000).on twoBlocks).result = .ok none :=
    rfl
  have hsome : ((Heap.reallocate (some ⟨4032, by decide⟩) 60).on twoBlocks).result =
      .ok (some ⟨16, by decide⟩) := rfl
  have hnone' : ((Heap.allocate 8).on (.new (.buffer 64) .standard : Heap 2)).result = .ok none :=
    rfl
  obtain rfl := Except.ok.inj (hnone.symm.trans hanswer)
  obtain rfl := Except.ok.inj (hsome.symm.trans hanswer')
  obtain rfl := Except.ok.inj (hnone'.symm.trans hanswer'')
  exact ⟨hfails, hgrows, hfirst⟩

end TagHeap
