import TagHeap.Fault

/-!
# Steps

A `Step σ α` changes a state of type `σ` and returns an `α`, or ends in a fault. A fault keeps the
state that was reached, because what was written before it stays written.

* `MonadLift` lets a computation that may fault but touches no state run as a step.
* `Step.inspect` reads the state.
* `Step.zoom` runs a step on a part of a larger state.
-/

namespace TagHeap

/-- A change of state that may end in a fault, which keeps the state reached. -/
abbrev Step (σ α : Type) : Type := EStateM Fault σ α

namespace Step

variable {σ τ α β : Type}

/-- A computation without state, run as a step. -/
def attempt (x : Except Fault α) : Step σ α := fun s =>
  match x with
  | .ok a => .ok a s
  | .error e => .error e s

instance : MonadLift (Except Fault) (Step σ) := ⟨attempt⟩

/-- What `read` finds in the state. -/
def inspect (read : σ → Except Fault α) : Step σ α := fun s => attempt (read s) s

/-- Runs a step on the part of the state that `get` finds and `put` replaces. -/
def zoom (get : τ → σ) (put : σ → τ → τ) (x : Step σ α) : Step τ α := fun t =>
  match x (get t) with
  | .ok a s => .ok a (put s t)
  | .error e s => .error e (put s t)

/-! ## Running steps

A step that succeeds is followed by the rest; one that faults is the end.
-/

@[simp] theorem get_apply (s : σ) : (get : Step σ σ) s = .ok s s := rfl

theorem bind_of_ok {x : Step σ α} {f : α → Step σ β} {s s' : σ} {a : α} (h : x s = .ok a s') :
    (x >>= f) s = f a s' := by
  simp only [bind, EStateM.bind, h]

theorem bind_of_error {x : Step σ α} {f : α → Step σ β} {s s' : σ} {e : Fault}
    (h : x s = .error e s') : (x >>= f) s = .error e s' := by
  simp only [bind, EStateM.bind, h]

/-- What a chain does is done by its parts. -/
theorem eq_ok_of_bind {x : Step σ α} {f : α → Step σ β} {s s'' : σ} {b : β}
    (h : (x >>= f) s = .ok b s'') : ∃ a s', x s = .ok a s' ∧ f a s' = .ok b s'' := by
  cases hx : x s with
  | ok a s' => exact ⟨a, s', rfl, (bind_of_ok hx).symm.trans h⟩
  | error e s' => cases (bind_of_error hx).symm.trans h

/-- How a chain goes on matters only where its first part leads. -/
theorem bind_congr {x y : Step σ α} {f g : α → Step σ β} {s : σ} (hx : x s = y s)
    (hf : ∀ a s', y s = .ok a s' → f a s' = g a s') : (x >>= f) s = (y >>= g) s := by
  cases hy : y s with
  | ok a s' =>
      rw [bind_of_ok (hx.trans hy), bind_of_ok hy]
      exact hf a s' hy
  | error e s' => rw [bind_of_error (hx.trans hy), bind_of_error hy]

theorem lift_of_ok {x : Except Fault α} {a : α} (h : x = .ok a) (s : σ) :
    (liftM x : Step σ α) s = .ok a s := by
  subst h; rfl

@[simp] theorem attempt_ok (a : α) (s : σ) : attempt (.ok a) s = .ok a s := rfl

theorem eq_ok_of_attempt {x : Except Fault α} {s s' : σ} {a : α} (h : attempt x s = .ok a s') :
    x = .ok a ∧ s' = s := by
  cases x with
  | ok b =>
      cases h
      exact ⟨rfl, rfl⟩
  | error e => cases h

theorem inspect_of_ok {read : σ → Except Fault α} {s : σ} {a : α} (h : read s = .ok a) :
    inspect read s = .ok a s := by
  simp [inspect, h]

theorem zoom_of_ok {get : τ → σ} {put : σ → τ → τ} {x : Step σ α} {t : τ} {a : α} {s : σ}
    (h : x (get t) = .ok a s) : zoom get put x t = .ok a (put s t) := by
  simp [zoom, h]

theorem zoom_of_error {get : τ → σ} {put : σ → τ → τ} {x : Step σ α} {t : τ} {e : Fault} {s : σ}
    (h : x (get t) = .error e s) : zoom get put x t = .error e (put s t) := by
  simp [zoom, h]

end Step

end TagHeap
