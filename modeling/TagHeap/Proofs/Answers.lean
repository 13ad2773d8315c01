import TagHeap.Proofs.Transcripts

/-!
# Answers

The requests of a client, as the client sees them: it has the answer in its hands, and the heap
that the request has left. The answer of a heap in shape follows a plan (`Heap.Follows`). Where
there is a plan, the block lies where the plan says and the layout is the one that the plan leaves;
where there is none, there is no block and the heap is WHAT IT WAS.

What a heap in shape shows of itself is settled by its prologue and its layout alone
(`Heap.Shaped.shows`), so two heaps in which plans have left the same layout show the same.
-/

namespace TagHeap

open Layout Operation

variable {n : Nat} [HasClass n]

namespace Heap

variable {h h' : Heap n} {p b : Block} {pre post xs : List Extent} {x : Extent} {size need : Nat}
  {live : Live} {answer : Option Block}

/-- Any client may ask for a block. -/
theorem Serves.allocated (hs : h.Serves live)
    (hresult : ((allocate size).on h).result = .ok answer) :
    Request.Served (.allocate size) h live answer ((allocate size).on h).state :=
  Request.served_of_result hs (show Request.Allowed (.allocate size) h live from ⟨nofun, trivial⟩)
    hresult

/-- A client may ask for another size of a block that it has. -/
theorem Serves.reallocated {old : Nat} (hs : h.Serves live) (hb : (b, old) ∈ live)
    (hresult : ((reallocate (some b) size).on h).result = .ok answer) :
    Request.Served (.reallocate (some b) size) h live answer
      ((reallocate (some b) size).on h).state := by
  have allowed : Request.Allowed (.reallocate (some b) size) h live := by
    refine ⟨?_, trivial⟩
    rintro _ ⟨⟩
    exact ⟨old, hb⟩
  exact Request.served_of_result hs allowed hresult

/-- The outcome of a request to the heap `h` is the one that is planned for it. -/
def Follows (h : Heap n) (p : Block) (plan : Option (Nat × List Extent))
    (outcome : Outcome (Heap n) (Option Block)) : Prop :=
  match plan with
  | none => outcome.result = .ok none ∧ outcome.state = h
  | some (o, ys) => ∃ q : Block, q.offset = o ∧ outcome.result = .ok (some q) ∧
      outcome.state.Shaped p ys

/-- What is too large for any block is refused. -/
theorem Shaped.allocate_tooLarge (g : h.Shaped p xs) (hsize : size ≠ 0)
    (hneed : Size.ofRequest? size = none) :
    ((allocate size).on h).result = .ok none ∧ ((allocate size).on h).state = h := by
  have g' : (Run.mk h []).heap.Shaped p xs := g
  obtain ⟨answer, journal, hresult, hspec⟩ := on_of_ensures (allocate_ensures g' hsize)
  cases answer with
  | none => exact ⟨hresult, hspec.2.heap_eq⟩
  | some q =>
      obtain ⟨-, -, need, ys, hneed', -⟩ := hspec
      rw [hneed] at hneed'
      cases hneed'

/-- A block is handed out as planned. -/
theorem Shaped.allocate_follows (g : h.Shaped p xs) (hsize : size ≠ 0)
    (hneed : Size.ofRequest? size = some need) :
    h.Follows p (h.serve? xs need) ((allocate size).on h) := by
  have g' : (Run.mk h []).heap.Shaped p xs := g
  obtain ⟨answer, journal, hresult, hspec⟩ := on_of_ensures (allocate_ensures g' hsize)
  cases answer with
  | none =>
      obtain ⟨hrefuses, hwarned⟩ := hspec
      have hrefuses : h.Refuses xs size := hrefuses
      rw [hrefuses.serve?_eq_none hneed]
      exact ⟨hresult, hwarned.heap_eq⟩
  | some q =>
      obtain ⟨-, -, need', ys, hneed', hplan, hshape⟩ := hspec
      obtain rfl := Option.some.inj (hneed.symm.trans hneed')
      have hplan : h.serve? xs need = some (q.offset, ys) := hplan
      rw [hplan]
      exact ⟨q, rfl, hresult, hshape⟩

/-- A block is resized as planned. -/
theorem Shaped.reallocate_follows (g : h.Shaped p (pre ++ x :: post)) (hx : x.allocated = true)
    (hb : b.offset = x.offset) (hsize : size ≠ 0) (hneed : Size.ofRequest? size = some need) :
    h.Follows p (h.resize? pre x post need) ((reallocate (some b) size).on h) := by
  have g' : (Run.mk h []).heap.Shaped p (pre ++ x :: post) := g
  obtain ⟨answer, journal, hresult, hspec⟩ := on_of_ensures (reallocate_planned g' hx hb hsize)
  cases answer with
  | none =>
      obtain ⟨-, hwarned, hplan⟩ := hspec
      have hplan : h.resize? pre x post need = none := hplan need hneed
      rw [hplan]
      exact ⟨hresult, hwarned.heap_eq⟩
  | some q =>
      obtain ⟨need', hneed', -, ys, hplan, hshape⟩ := hspec
      obtain rfl := Option.some.inj (hneed.symm.trans hneed')
      have hplan : h.resize? pre x post need = some (q.offset, ys) := hplan
      rw [hplan]
      exact ⟨q, rfl, hresult, hshape⟩

/-- A block that the client has is taken back out of the layout. -/
theorem Shaped.free_follows (g : h.Shaped p xs) (hs : h.Serves live) (hb : (b, size) ∈ live) :
    ((free (some b)).on h).result = .ok () ∧
      ((free (some b)).on h).state.Shaped p (takeBack b.offset xs) := by
  have ho : (Run.mk h []).heap.HasOutline ⟨h.region.bounds, h.settings, .blocks p xs⟩ :=
    g.hasOutline
  obtain ⟨answer, journal, hresult, hafter⟩ := on_of_ensures (free_outlined ho hs hb)
  exact ⟨hresult, hafter.content⟩

/-- Heaps with the same prologue and the same layout show the same of themselves. -/
theorem Shaped.shows (g : h.Shaped p xs) (g' : h'.Shaped p xs) :
    h'.view = h.view ∧ h'.freeList = h.freeList := by
  have hview : h'.view = h.view := by
    rw [g.hasOutline.view_eq, g'.hasOutline.view_eq]
    rfl
  refine ⟨hview, funext fun c => ?_⟩
  rw [g.hasOutline.freeList_eq c, g'.hasOutline.freeList_eq c]
  rfl

end Heap

end TagHeap
