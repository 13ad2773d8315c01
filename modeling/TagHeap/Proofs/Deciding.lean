import TagHeap.Heap.Audit
import TagHeap.Proofs.Ensures

/-!
# Checks that decide

A check of a heap that may be damaged has two proper ends: it passes with a result, or it names a
violation. `Decides x right` says that the check `x` ends in one of these two ways, and that it
passes EXACTLY with what is `right`. One such statement says three things: what the check accepts is
right, what is right it accepts, and no other fault is met on the way.

The rules below follow the shape of the checks. A check is a chain of guards and lookups, so what is
right of the chain is what its parts ask for, joined by `∧`, and every part may rely on the parts
before it: a lookup is in range because an earlier guard said so.
-/

namespace TagHeap

namespace Audit

variable {α β : Type} {x : Except Fault α} {f : α → Except Fault β} {right right' : α → Prop}
  {v : Violation}

/-- The check passes exactly with what is right, and otherwise it names a violation. -/
structure Decides (x : Except Fault α) (right : α → Prop) : Prop where
  ok_iff : ∀ a, x = .ok a ↔ right a
  violation : ∀ e, x = .error e → ∃ v, e = .inconsistent v

namespace Decides

/-- What is right may be said in other words. -/
theorem congr (h : Decides x right) (hr : ∀ a, right a ↔ right' a) : Decides x right' :=
  ⟨fun a => (h.ok_iff a).trans (hr a), h.violation⟩

/-- A computation that is known to succeed is right about its value. -/
theorem of_ok {a : α} (h : x = .ok a) : Decides x fun b => b = a := by
  subst h
  constructor
  · intro b
    constructor
    · intro hb
      exact (Except.ok.inj hb).symm
    · intro hb
      rw [hb]
  · intro e he
    exact nomatch he

/-- A violation is right about nothing. -/
theorem of_fail (hr : ∀ a, ¬ right a) : Decides (fail v) right := by
  constructor
  · intro a
    constructor
    · intro ha
      exact nomatch ha
    · intro ha
      exact absurd ha (hr a)
  · intro e he
    exact ⟨v, (Except.error.inj he).symm⟩

/-- A chain of checks. The second one may rely on what is right of the first. -/
theorem bind {post : α → β → Prop} (h : Decides x right)
    (hf : ∀ a, right a → Decides (f a) (post a)) :
    Decides (x >>= f) fun b => ∃ a, right a ∧ post a b := by
  cases hx : x with
  | error e =>
      have hnone : ∀ a, ¬ right a := by
        intro a ha
        have := (h.ok_iff a).2 ha
        rw [hx] at this
        exact nomatch this
      obtain ⟨v, rfl⟩ := h.violation e hx
      refine of_fail (v := v) ?_
      rintro b ⟨a, ha, -⟩
      exact hnone a ha
  | ok a =>
      have ha : right a := (h.ok_iff a).1 hx
      refine (hf a ha).congr fun b => ?_
      constructor
      · intro hb
        exact ⟨a, ha, hb⟩
      · rintro ⟨a', ha', hb⟩
        have hx' := (h.ok_iff a').2 ha'
        rw [hx] at hx'
        rw [Except.ok.inj hx']
        exact hb

/-- A chain whose first check can pass with one result only, and does so on a condition. -/
theorem bind_eq {a : α} {c : Prop} {post : β → Prop} (h : Decides x fun b => b = a ∧ c)
    (hf : c → Decides (f a) post) : Decides (x >>= f) fun b => c ∧ post b := by
  have hf' : ∀ b, b = a ∧ c → Decides (f b) post := by
    rintro _ ⟨rfl, hc⟩
    exact hf hc
  refine (bind h hf').congr fun b => ?_
  constructor
  · rintro ⟨_, ⟨-, hc⟩, hb⟩
    exact ⟨hc, hb⟩
  · rintro ⟨hc, hb⟩
    exact ⟨a, ⟨rfl, hc⟩, hb⟩

/-- A chain whose first part is known to succeed. -/
theorem bind_ok {a : α} {post : β → Prop} (h : x = .ok a) (hf : Decides (f a) post) :
    Decides (x >>= f) post := by
  rw [bind_of_ok h]
  exact hf

/-- A guard passes on its condition. -/
theorem require (proper : Bool) (v : Violation) :
    Decides (require proper v) fun u => u = () ∧ proper = true := by
  cases proper with
  | false => exact of_fail (by rintro _ ⟨-, h⟩; exact nomatch h)
  | true => exact (of_ok rfl).congr fun u => (and_iff_left rfl).symm

/-- The same for a condition that is not a truth value yet. -/
theorem require_prop (c : Prop) [Decidable c] (v : Violation) :
    Decides (Audit.require c v) fun u => u = () ∧ c :=
  (require (decide c) v).congr fun u => by rw [decide_eq_true_iff]

/-- A lookup finds the word of a place that lies inside of the memory. -/
theorem wordOr (m : Memory) (i : Nat) (v : Violation) :
    Decides (wordOr m i v) fun w => w = m.word i ∧ i + 4 ≤ m.size := by
  rw [Audit.wordOr, Memory.word?]
  by_cases hi : i + 4 ≤ m.size
  · rw [if_pos hi]
    exact (of_ok rfl).congr fun w => (and_iff_left hi).symm
  · rw [if_neg hi]
    exact of_fail fun w hw => hi hw.2

end Decides

end Audit

end TagHeap
