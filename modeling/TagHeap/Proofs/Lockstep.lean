import TagHeap.Proofs.Ensures

/-!
# Steps in lockstep

`Lockstep related x y` compares two runs: from states that are related, the steps `x` and `y` end
ALIKE, with the same value or with the same fault, and in states that are related again. Mostly `x`
and `y` are one step, and then it says that the step cannot tell the two states apart and does not
drive them apart either.

The rules follow the shape of the programs, as those of `Ensures` do, but they ask for nothing: a
fault is as good an end as a value. So what is proved with them holds from any state, also from one
that no heap in order is ever in.

The steps on memory are in lockstep with themselves on equal memories, and keep their size
(`Memory.Same`).
-/

namespace TagHeap

namespace Step

variable {σ τ α β : Type}

/-- The same value or the same fault, in related states. -/
inductive Alike (related : σ → σ → Prop) :
    EStateM.Result Fault σ α → EStateM.Result Fault σ α → Prop
  | ok (a : α) {s t : σ} (h : related s t) : Alike related (.ok a s) (.ok a t)
  | error (e : Fault) {s t : σ} (h : related s t) : Alike related (.error e s) (.error e t)

theorem Alike.elim {related : σ → σ → Prop} {r r' : EStateM.Result Fault σ α}
    (h : Alike related r r') :
    (∃ a s t, r = .ok a s ∧ r' = .ok a t ∧ related s t) ∨
      ∃ e s t, r = .error e s ∧ r' = .error e t ∧ related s t := by
  cases h with
  | ok a h => exact .inl ⟨a, _, _, rfl, rfl, h⟩
  | error e h => exact .inr ⟨e, _, _, rfl, rfl, h⟩

/-- From related states the two steps end alike. -/
def Lockstep (related : σ → σ → Prop) (x y : Step σ α) : Prop :=
  ∀ s t, related s t → Alike related (x s) (y t)

namespace Lockstep

variable {related : σ → σ → Prop} {x y : Step σ α} {f g : α → Step σ β}

theorem pure (a : α) : Lockstep related (pure a) (pure a) := fun _ _ h => .ok a h

theorem throw (e : Fault) : Lockstep related (throw e : Step σ α) (throw e) :=
  fun _ _ h => .error e h

/-- A computation without state does not look at any. -/
theorem lift (z : Except Fault α) : Lockstep related (liftM z : Step σ α) (liftM z) := by
  intro s t h
  cases z with
  | ok a => exact .ok a h
  | error e => exact .error e h

/-- A read that finds the same in related states. -/
theorem inspect {read : σ → Except Fault α} (hread : ∀ s t, related s t → read t = read s) :
    Lockstep related (inspect read) (inspect read) := by
  intro s t h
  have hlift : Alike related _ _ := lift (read s) s t h
  show Alike related (attempt (read s) s) (attempt (read t) t)
  rw [hread s t h]
  exact hlift

/-- Chains whose parts run in lockstep. -/
theorem bind (hx : Lockstep related x y) (hf : ∀ a, Lockstep related (f a) (g a)) :
    Lockstep related (x >>= f) (y >>= g) := by
  intro s t h
  rcases (hx s t h).elim with ⟨a, s', t', hxs, hyt, h'⟩ | ⟨e, s', t', hxs, hyt, h'⟩
  · rw [bind_of_ok hxs, bind_of_ok hyt]
    exact hf a s' t' h'
  · rw [bind_of_error hxs, bind_of_error hyt]
    exact .error e h'

/-- A step that is run for its effect. -/
theorem discard (hx : Lockstep related x y) : Lockstep related (discard x) (discard y) := by
  have hbind : ∀ z : Step σ α, (Functor.discard z : Step σ PUnit) = z >>= fun _ => Pure.pure ⟨⟩ :=
    fun _ => rfl
  rw [hbind, hbind]
  exact hx.bind fun _ => pure _

/-- A change that keeps states related. -/
theorem modify {change : σ → σ} (h : ∀ s t, related s t → related (change s) (change t)) :
    Lockstep related (modify change) (modify change) :=
  fun s t hst => .ok _ (h s t hst)

/-- A step that is run if there is something to run it on. -/
theorem forM {f : α → Step σ PUnit} (hf : ∀ a, Lockstep related (f a) (f a)) (a? : Option α) :
    Lockstep related (a?.forM f) (a?.forM f) := by
  cases a? with
  | none => exact pure _
  | some a => exact hf a

/-- Steps that run in lockstep on parts of two states do so on the states, if these stay related
when the parts do. -/
theorem zoom {inner : τ → τ → Prop} {get : σ → τ} {put : τ → σ → σ} {x y : Step τ α}
    (hx : Lockstep inner x y) {s t : σ} (hget : inner (get s) (get t))
    (hput : ∀ a b, inner a b → related (put a s) (put b t)) :
    Alike related (Step.zoom get put x s) (Step.zoom get put y t) := by
  rcases (hx _ _ hget).elim with ⟨a, s', t', hxs, hyt, h⟩ | ⟨e, s', t', hxs, hyt, h⟩
  · rw [zoom_of_ok hxs, zoom_of_ok hyt]
    exact .ok a (hput s' t' h)
  · rw [zoom_of_error hxs, zoom_of_error hyt]
    exact .error e (hput s' t' h)

end Lockstep

end Step

/-! ## Memory -/

/-- The memories are equal and have `size` bytes. -/
def Memory.Same (size : Nat) (m m' : Memory) : Prop := m' = m ∧ m.size = size

namespace Memory.Same

open Step (Lockstep)

variable {size : Nat}

/-- A read finds the same in equal memories. -/
theorem inspect {α : Type} (read : Memory → Except Fault α) :
    Lockstep (Same size) (Step.inspect read) (Step.inspect read) :=
  .inspect fun _ _ h => congrArg read h.1

/-- A change that keeps the size, made where the memory is large enough. -/
private theorem guarded {change : Memory → Memory} (hchange : ∀ m, (change m).size = m.size)
    (stop : Nat) (e : Fault) :
    Lockstep (Same size)
      (do if stop ≤ (← get).size then modify change else throw e)
      (do if stop ≤ (← get).size then modify change else throw e) := by
  rintro _ m ⟨rfl, hm⟩
  rw [Step.bind_of_ok (Step.get_apply m)]
  split
  · exact .ok _ ⟨rfl, (hchange m).trans hm⟩
  · exact .error e ⟨rfl, hm⟩

theorem writeWord (i : Nat) (w : UInt32) :
    Lockstep (Same size) (Memory.writeWord i w) (Memory.writeWord i w) :=
  .bind (.lift _) fun stop => guarded (fun m => m.size_setWord i w) stop _

theorem move (source count target : Nat) :
    Lockstep (Same size) (Memory.move source count target) (Memory.move source count target) :=
  .bind (inspect _) fun bytes => guarded (fun m => m.size_store target bytes) _ _

theorem writeTags (b : Block) (t : Tag) :
    Lockstep (Same size) (b.writeTags t) (b.writeTags t) :=
  .bind (.lift _) fun _ => .bind (writeWord _ _) fun _ => .bind (inspect _) fun _ => writeWord _ _

theorem setBefore (b : Block) (node : Option Block) :
    Lockstep (Same size) (b.setBefore node) (b.setBefore node) :=
  .bind (.lift _) fun _ => writeWord _ _

theorem setAfter (b : Block) (node : Option Block) :
    Lockstep (Same size) (b.setAfter node) (b.setAfter node) :=
  .bind (.lift _) fun _ => .bind (.lift _) fun _ => writeWord _ _

/-- The two nodes that face a seam, if they are there, are linked to others. -/
private theorem faceSeam (last next last' next' : Option Block) (length : Except Fault Nat)
    (list : Nat → FreeList) :
    Lockstep (Same size)
      (do last.forM (·.setAfter next'); next.forM (·.setBefore last'); return list (← length))
      (do last.forM (·.setAfter next'); next.forM (·.setBefore last'); return list (← length)) :=
  .bind (.forM (fun _ => setAfter _ _) last) fun _ =>
    .bind (.forM (fun _ => setBefore _ _) next) fun _ => .bind (.lift _) fun _ => .pure _

theorem insert (list : FreeList) (b : Block) :
    Lockstep (Same size) (list.insert b) (list.insert b) := by
  refine .bind (inspect _) ?_
  rintro ⟨last, next⟩
  exact .bind (setBefore b last) fun _ => .bind (setAfter b next) fun _ =>
    faceSeam last next (some b) (some b) _ _

theorem remove (list : FreeList) (b : Block) :
    Lockstep (Same size) (list.remove b) (list.remove b) :=
  .bind (inspect _) fun last => .bind (inspect _) fun next => faceSeam last next last next _ _

variable {n : Nat} [HasClass n]

theorem indexInsert (index : Index n) (b : Block) :
    Lockstep (Same size) (index.insert b) (index.insert b) :=
  .bind (inspect _) fun _ => .bind (insert _ b) fun _ => .pure _

theorem indexRemove (index : Index n) (b : Block) :
    Lockstep (Same size) (index.remove b) (index.remove b) :=
  .bind (inspect _) fun _ => .bind (remove _ b) fun _ => .pure _

end Memory.Same

end TagHeap
