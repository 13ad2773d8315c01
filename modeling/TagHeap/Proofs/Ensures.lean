import TagHeap.Heap

/-!
# Steps that succeed

A step is specified by what it ensures: `x.Ensures s post` says that `x` SUCCEEDS from `s`, and that
what it returns and the state it leaves satisfy `post`. A step that faults ensures nothing, so every
such statement also says that no fault is met on the way.

The rules below follow the shape of the programs. A program is a chain of binds; `Ensures.bind` cuts
it where a callee has a specification of its own, and the other rules execute what is known
outright: a read that finds a value, arithmetic that stays in range, a report to the journal.
-/

namespace TagHeap

/-- A computation without state goes on with the value that its first part yields. -/
theorem bind_of_ok {α β : Type} {x : Except Fault α} {a : α} (h : x = .ok a)
    (f : α → Except Fault β) : (x >>= f) = f a := by
  rw [h]
  rfl

/-- What a computation without state yields is yielded by its parts. -/
theorem eq_ok_of_bind {α β : Type} {x : Except Fault α} {f : α → Except Fault β} {b : β}
    (h : (x >>= f) = .ok b) : ∃ a, x = .ok a ∧ f a = .ok b := by
  cases x with
  | ok a => exact ⟨a, rfl, h⟩
  | error e => cases h

namespace Step

variable {σ α β : Type}

/-- The step succeeds from `s`, with an answer and a state that satisfy `post`. -/
def Ensures (x : Step σ α) (s : σ) (post : α → σ → Prop) : Prop :=
  ∃ a s', x s = .ok a s' ∧ post a s'

namespace Ensures

variable {x : Step σ α} {f : α → Step σ β} {s s' : σ} {a : α} {mid mid' : α → σ → Prop}
  {post : β → σ → Prop}

theorem of_ok {t : σ} (h : x s = .ok a t) (hp : mid a t) : x.Ensures s mid :=
  ⟨a, t, h, hp⟩

/-- A step whose end is known ensures just that. -/
theorem of_eq_ok (h : x s = .ok a s') : x.Ensures s fun _ t => t = s' :=
  of_ok h rfl

theorem pure (h : mid a s) : Ensures (pure a) s mid :=
  ⟨a, s, rfl, h⟩

/-- What a step ensures may be weakened. -/
theorem mono (h : x.Ensures s mid) (hm : ∀ a s', mid a s' → mid' a s') : x.Ensures s mid' := by
  obtain ⟨a, s', hx, ha⟩ := h
  exact ⟨a, s', hx, hm a s' ha⟩

/-- A step ends in one way only, so it ensures two things together that it ensures apart. -/
theorem and (h : x.Ensures s mid) (h' : x.Ensures s mid') :
    x.Ensures s fun a t => mid a t ∧ mid' a t := by
  obtain ⟨a, t, hx, ha⟩ := h
  obtain ⟨a', t', hx', ha'⟩ := h'
  obtain ⟨rfl, rfl⟩ := EStateM.Result.ok.inj (hx.symm.trans hx')
  exact ⟨a, t, hx, ha, ha'⟩

/-- A chain ensures what its second part ensures after the first. -/
theorem bind (h : x.Ensures s mid) (hf : ∀ a s', mid a s' → (f a).Ensures s' post) :
    Ensures (x >>= f) s post := by
  obtain ⟨a, s', hx, ha⟩ := h
  obtain ⟨b, s'', hb, hp⟩ := hf a s' ha
  exact ⟨b, s'', by rw [bind_of_ok hx, hb], hp⟩

/-- A chain whose first part is known to succeed. -/
theorem bind_ok (h : x s = .ok a s') (hf : (f a).Ensures s' post) :
    Ensures (x >>= f) s post := by
  obtain ⟨b, s'', hb, hp⟩ := hf
  exact ⟨b, s'', by rw [bind_of_ok h, hb], hp⟩

/-- A computation without state that yields a value. -/
theorem lift {y : Except Fault α} (h : y = .ok a) (hf : (f a).Ensures s post) :
    Ensures ((liftM y : Step σ α) >>= f) s post :=
  bind_ok (lift_of_ok h s) hf

/-- A read that yields a value. -/
theorem inspect {read : σ → Except Fault α} (h : read s = .ok a) (hf : (f a).Ensures s post) :
    Ensures (Step.inspect read >>= f) s post :=
  bind_ok (inspect_of_ok h) hf

/-- The answer of a step that is run for its effect does not matter. -/
theorem discard {after : PUnit → σ → Prop} (h : x.Ensures s fun _ => after ⟨⟩) :
    Ensures (discard x) s after := by
  obtain ⟨a, s', hx, hp⟩ := h
  refine ⟨⟨⟩, s', ?_, hp⟩
  show EStateM.map (fun _ => PUnit.unit) x s = .ok ⟨⟩ s'
  simp only [EStateM.map, hx]

end Ensures

end Step

variable {n : Nat} {α β : Type}

/-- The heap with other memory. -/
def Heap.withMemory (h : Heap n) (m : Memory) : Heap n := { h with region.memory := m }

/-- The heap with another index. -/
def Heap.withIndex (h : Heap n) (index : Index n) : Heap n := { h with index := index }

/-- No warning was reported between two journals. -/
def Quiet (journal journal' : List Event) : Prop :=
  ∃ events, journal' = events ++ journal ∧ ∀ e ∈ events, e.level ≠ .warn

namespace Quiet

variable {journal journal' journal'' events : List Event} {e : Event}

theorem refl (journal : List Event) : Quiet journal journal := ⟨[], rfl, List.forall_mem_nil _⟩

theorem trans (h : Quiet journal journal') (h' : Quiet journal' journal'') :
    Quiet journal journal'' := by
  obtain ⟨events, he, hn⟩ := h
  obtain ⟨events', he', hn'⟩ := h'
  refine ⟨events' ++ events, by rw [he', he, List.append_assoc], fun e hm => ?_⟩
  rcases List.mem_append.mp hm with hm | hm
  · exact hn' e hm
  · exact hn e hm

/-- Reports that are no warnings. -/
theorem report (hn : ∀ e ∈ events, e.level ≠ .warn) : Quiet journal (events ++ journal) :=
  ⟨events, rfl, hn⟩

/-- A last report that is no warning. -/
theorem record (h : Quiet journal journal') (he : e.level ≠ .warn) :
    Quiet journal (e :: journal') := by
  have hn : ∀ e' ∈ [e], e'.level ≠ .warn := fun _ hm => List.mem_singleton.1 hm ▸ he
  exact h.trans (report hn)

end Quiet

namespace Operation

open Step

variable {run : Run n} {f : α → Operation n β} {post : β → Run n → Prop} {a : α}

theorem heap_eq_ok (run : Run n) : heap run = .ok run.heap run := rfl

theorem ensures_heap {f : Heap n → Operation n β} (h : (f run.heap).Ensures run post) :
    Ensures (heap >>= f) run post :=
  Ensures.bind_ok (a := run.heap) rfl h

theorem ensures_inspect {read : Memory → Except Fault α} (hr : read run.heap.memory = .ok a)
    (h : (f a).Ensures run post) : Ensures (inspect read >>= f) run post :=
  Ensures.inspect hr h

theorem ensures_record {event : Event} {f : Unit → Operation n β}
    (h : (f ()).Ensures ⟨run.heap, event :: run.journal⟩ post) :
    Ensures (record event >>= f) run post :=
  Ensures.bind_ok (a := ()) rfl h

/-- What is reported on a condition is either the event or nothing. -/
theorem ensures_recordIf {reason : Bool} {event : Event} {f : Unit → Operation n β}
    (h : ∀ events, (∀ e ∈ events, e = event) →
      (f ()).Ensures ⟨run.heap, events ++ run.journal⟩ post) :
    Ensures (recordIf reason event >>= f) run post := by
  cases reason with
  | false => exact Ensures.bind_ok (a := ()) rfl (h [] nofun)
  | true => exact Ensures.bind_ok (a := ()) rfl (h [event] fun _ he => List.mem_singleton.1 he)

/-- A step on the memory, as a step on the heap. -/
theorem ensures_onMemory {x : Step Memory α} {mid : α → Memory → Prop}
    (h : x.Ensures run.heap.memory mid) :
    (onMemory x).Ensures run fun a run' =>
      ∃ m, run' = ⟨run.heap.withMemory m, run.journal⟩ ∧ mid a m := by
  obtain ⟨a, m, hx, hm⟩ := h
  exact ⟨a, _, zoom_of_ok hx, m, rfl, hm⟩

/-- A change of the index along with the links in memory. -/
theorem ensures_onIndex {x : Index n → Step Memory (Index n)} {mid : Index n → Memory → Prop}
    (h : (x run.heap.index).Ensures run.heap.memory mid) :
    (onIndex x).Ensures run fun _ run' => ∃ index m,
      run' = ⟨(run.heap.withMemory m).withIndex index, run.journal⟩ ∧ mid index m := by
  refine ensures_heap (Ensures.bind (ensures_onMemory h) ?_)
  rintro index _ ⟨m, rfl, hm⟩
  exact ⟨(), _, rfl, index, m, rfl, hm⟩

/-- What an operation ensures holds of its outcome. The journal is what it reported, the latest
first. -/
theorem outcome_of_ensures {x : Operation n α} {h : Heap n} {mid : α → Run n → Prop}
    (hx : x.Ensures ⟨h, []⟩ mid) :
    ∃ a, (x.on h).result = .ok a ∧ mid a ⟨(x.on h).state, (x.on h).events.reverse⟩ := by
  obtain ⟨a, run', hrun, hm⟩ := hx
  refine ⟨a, ?_, ?_⟩
  · rw [on, hrun]
  · rw [on, hrun, List.reverse_reverse]
    exact hm

/-- The journal does not matter to most of what is ensured. -/
theorem on_of_ensures {x : Operation n α} {h : Heap n} {mid : α → Run n → Prop}
    (hx : x.Ensures ⟨h, []⟩ mid) :
    ∃ a journal, (x.on h).result = .ok a ∧ mid a ⟨(x.on h).state, journal⟩ := by
  obtain ⟨a, hresult, hm⟩ := outcome_of_ensures hx
  exact ⟨a, _, hresult, hm⟩

end Operation

end TagHeap
