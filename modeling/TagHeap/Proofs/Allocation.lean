import TagHeap.Proofs.Growing
import TagHeap.Proofs.Planning

/-!
# Handing out and taking back

What `Heap.allocate` and `Heap.free` do to a heap in shape. Both leave a heap in shape; the blocks
in use are the old ones and the new one, or the old ones without the one that was given back, and
the bytes of the others stay. A request that finds no room changes NOTHING but the journal, which
has one warning more.
-/

namespace TagHeap

open Layout Operation Step

variable {n : Nat} [HasClass n]

namespace Layout

/-- The blocks in use. -/
def used (xs : List Extent) : List Extent := xs.filter (·.allocated)

theorem used_append (xs ys : List Extent) : used (xs ++ ys) = used xs ++ used ys :=
  List.filter_append ..

@[simp] theorem used_merge (xs : List Extent) : used (merge xs) = used xs := filter_merge xs

theorem used_cons_of_allocated {x : Extent} (hx : x.allocated = true) (xs : List Extent) :
    used (x :: xs) = x :: used xs := List.filter_cons_of_pos hx

theorem used_cons_of_free {x : Extent} (hx : x.allocated = false) (xs : List Extent) :
    used (x :: xs) = used xs := List.filter_cons_of_neg (by rw [hx]; exact nofun)

theorem mem_used {x : Extent} {xs : List Extent} : x ∈ used xs ↔ x ∈ xs ∧ x.allocated = true :=
  List.mem_filter

theorem used_append_cons_of_free {x : Extent} (hx : x.allocated = false) (pre post : List Extent) :
    used (pre ++ x :: post) = used (pre ++ post) := by
  rw [used_append, used_append, used_cons_of_free hx]

/-- A block in use among others. -/
theorem used_append_cons {x : Extent} (hx : x.allocated = true) (pre post : List Extent) :
    (used (pre ++ x :: post)).Perm (x :: used (pre ++ post)) := by
  rw [used_append, used_append, used_cons_of_allocated hx]
  exact List.perm_middle

/-- Carving adds one block to those in use. -/
theorem used_carved {tailLimit size : Nat} {x y : Extent} (hx : x.allocated = false)
    (hle : size ≤ x.size) (hy : y ∈ carved tailLimit x size) (hu : y.allocated = true)
    (pre post : List Extent) :
    size ≤ y.size ∧ (used (pre ++ carved tailLimit x size ++ post)).Perm
      (y :: used (pre ++ x :: post)) := by
  obtain ⟨z, hz, hzs⟩ := filter_carved tailLimit hle
  have hyz : y ∈ [z] := hz ▸ List.mem_filter.2 ⟨hy, hu⟩
  obtain rfl := List.mem_singleton.1 hyz
  refine ⟨hzs, ?_⟩
  rw [used_append_cons_of_free hx, used_append, used_append, used_append]
  rw [show used (carved tailLimit x size) = [y] from hz, List.append_assoc]
  exact List.perm_middle

end Layout

/-- What is held depends on the blocks in use only. -/
theorem Held.subset {p : Block} {xs ys : List Extent} {i : Nat} (h : Held p xs i)
    (hs : used xs ⊆ used ys) : Held p ys i :=
  h.mono fun _ hx hu => (mem_used.1 (hs (mem_used.2 ⟨hx, hu⟩))).1

theorem Held.congr {p : Block} {xs ys : List Extent} {i : Nat} (h : Held p xs i)
    (hu : used ys = used xs) : Held p ys i :=
  h.subset fun _ hx => hu ▸ hx

/-- A free block holds nothing. -/
theorem Held.drop {p : Block} {pre post : List Extent} {y : Extent} {i : Nat}
    (h : Held p (pre ++ y :: post) i) (hy : y.allocated = false) : Held p (pre ++ post) i :=
  h.congr (used_append_cons_of_free hy pre post).symm

namespace Size

/-- What a request is served with is a legal block size that holds the request. -/
theorem ofRequest?_eq_some {request size : Nat} (h : ofRequest? request = some size) :
    minBlock ≤ size ∧ size % 8 = 0 ∧ size ≤ maxBlock ∧ request + overhead ≤ size := by
  rw [ofRequest?] at h
  split at h
  · obtain rfl := Option.some.inj h
    simp only [granule, minBlock, overhead] at *
    exact ⟨Nat.le_refl _, trivial, by decide, by omega⟩
  · split at h
    · next hn hc =>
      obtain rfl := Option.some.inj h
      have := le_ceil (request + overhead)
      simp only [granule, minBlock, overhead] at *
      exact ⟨by omega, ceil_mod _, hc.2, this⟩
    · exact nomatch h

/-- It is the least such size. -/
theorem ofRequest?_le {request need size : Nat} (h : ofRequest? request = some need)
    (hmin : minBlock ≤ size) (h8 : size % 8 = 0) (hr : request + overhead ≤ size) :
    need ≤ size := by
  rw [ofRequest?] at h
  split at h
  · obtain rfl := Option.some.inj h
    exact hmin
  · split at h
    · obtain rfl := Option.some.inj h
      rw [← ceil_of_mod h8, ceil, ceil]
      omega
    · exact nomatch h

/-- A request that a legal size has room for is served by a block that is no larger. -/
theorem exists_ofRequest?_le {request size : Nat} (hmin : minBlock ≤ size) (h8 : size % 8 = 0)
    (hmax : size ≤ maxBlock) (hr : request + overhead ≤ size) :
    ∃ need, ofRequest? request = some need ∧ need ≤ size := by
  have hceil : ceil (request + overhead) ≤ size := by
    rw [← ceil_of_mod h8, ceil, ceil]
    omega
  simp only [overhead, maxBlock] at hr hmax
  rw [ofRequest?]
  split
  · exact ⟨_, rfl, hmin⟩
  · rw [if_pos ⟨by simp only [overhead, granule, bound]; omega, Nat.le_trans hceil hmax⟩]
    exact ⟨_, rfl, hceil⟩

/-- A request for all bytes of a payload is served by a block of the same size. -/
theorem ofRequest?_payload {size : Nat} (hmin : minBlock ≤ size) (h8 : size % 8 = 0)
    (hmax : size ≤ maxBlock) : ofRequest? (size - overhead) = some size := by
  have hlarge : 16 ≤ size := hmin
  have hr : size - overhead + overhead = size := Nat.sub_add_cancel (Nat.le_trans (by decide) hmin)
  obtain ⟨need, hneed, hle⟩ := exists_ofRequest?_le hmin h8 hmax (Nat.le_of_eq hr)
  rw [hneed, Nat.le_antisymm hle (hr ▸ (ofRequest?_eq_some hneed).2.2.2)]

end Size

/-- A block for a request of `size` bytes was handed out of a heap with the blocks `xs`. The blocks
in use are the old ones and the new one, and the bytes of the old ones are spared. -/
def Run.HandsOut (run : Run n) (p : Block) (xs : List Extent) (size : Nat) (b : Block)
    (run' : Run n) : Prop :=
  ∃ ys y, run'.heap.Shaped p ys ∧ y.allocated = true ∧ y.offset = b.offset ∧
    size + Size.overhead ≤ y.size ∧ (used ys).Perm (y :: used xs) ∧ run.Spares (Held p xs) run'

namespace Heap

variable {run : Run n} {p b : Block} {pre post xs : List Extent} {size : Nat} {x : Extent}

/-- The free bytes that are added at the end of a heap that has no room for a block. -/
def growthFor (h : Heap n) (size : Nat) : Nat := max size h.settings.chunkSize

/-- A heap with the blocks `xs` offers the free block `x` of the layout `ys` for `size` bytes: it is
the best fit, or nothing fits and it is what is there once the heap has grown. -/
def Offers (h : Heap n) (xs : List Extent) (size : Nat) (ys : List Extent) (x : Extent) : Prop :=
  (BestFit xs size x ∧ ys = xs) ∨
    ((∀ x ∈ xs, x.allocated = false → x.size < size) ∧ h.Fits (h.growthFor size) ∧
      ys = extend h.size (h.growthFor size) xs)

/-- **ROOM** for a block is the best fit, or what is added at the end of the heap when nothing fits.
If the region has no room for that either, nothing happens. -/
theorem room_ensures (g : run.heap.Shaped p xs) (hs : Size.minBlock ≤ size) (h8 : size % 8 = 0)
    (hmax : size ≤ Size.maxBlock) :
    (room size).Ensures run fun answer run' =>
      match answer with
      | .error _ => run' = run ∧ (∀ x ∈ xs, x.allocated = false → x.size < size) ∧
          ¬ run.heap.Fits (run.heap.growthFor size)
      | .ok b => ∃ ys x, run'.heap.Shaped p ys ∧ x ∈ ys ∧ x.allocated = false ∧
          x.offset = b.offset ∧ size ≤ x.size ∧ run.Spares (Held p xs) run' ∧
          run.heap.Offers xs size ys x := by
  obtain ⟨answer, hanswer, hspec⟩ := Index.bestFit_eq_ok g.inOrder size
  refine ensures_heap (.lift hanswer ?_)
  cases answer with
  | some b =>
      obtain ⟨x, hx, hxb⟩ := hspec
      exact .pure ⟨xs, x, g, hx.mem, hx.free, hxb, hx.large, .refl _ _, .inl ⟨hx, rfl⟩⟩
  | none =>
      have hchunk := run.heap.settings.chunk_aligned
      have hchunk' := run.heap.settings.chunk_le_maxBlock
      have hle : size ≤ run.heap.growthFor size := Nat.le_max_left ..
      have hmod : run.heap.growthFor size % 8 = 0 := by
        rw [growthFor]
        rcases Nat.le_total size run.heap.settings.chunkSize with h | h
        · rw [Nat.max_eq_right h, hchunk]
        · rw [Nat.max_eq_left h, h8]
      by_cases hfits : run.heap.Fits (run.heap.growthFor size)
      · refine (addRoom_ensures g (Nat.le_trans hs hle) hmod hfits).mono ?_
        rintro _ run' ⟨b, rfl, hshape, ⟨x, hx, hfree, hxb, hxs⟩, hk⟩
        exact ⟨_, x, hshape, hx, hfree, hxb, Nat.le_trans hle hxs, hk, .inr ⟨hspec, hfits, rfl⟩⟩
      · have hroom := addRoom_of_not_fits g hmod (Nat.max_le.2 ⟨hmax, hchunk'⟩) hfits
        exact .of_ok hroom ⟨rfl, hspec, hfits⟩

/-- A heap with the blocks `xs` refuses a request: the request is too large for any block, or no
free block holds it and there is no room for another one. -/
def Refuses (h : Heap n) (xs : List Extent) (size : Nat) : Prop :=
  ∀ need, Size.ofRequest? size = some need →
    (∀ x ∈ xs, x.allocated = false → x.size < need) ∧ ¬ h.Fits (h.growthFor need)

/-- The plan for handing out a block of `need` bytes when the blocks are `xs`. -/
def serve? (h : Heap n) (xs : List Extent) (need : Nat) : Option (Nat × List Extent) :=
  Layout.serve? h.settings h.size (h.region.limit - h.size) need xs

omit [HasClass n] in
/-- A heap that refuses a request has no plan for it. -/
theorem Refuses.serve?_eq_none {h : Heap n} {need : Nat} (hr : h.Refuses xs size)
    (hneed : Size.ofRequest? size = some need) : h.serve? xs need = none := by
  obtain ⟨hnone, hfits⟩ := hr need hneed
  rw [serve?, Layout.serve?, place?_eq_none hnone, Option.none_or]
  exact if_neg hfits

omit [HasClass n] in
/-- A heap that has something to offer does not refuse. -/
theorem Offers.not_refuses {h : Heap n} {need : Nat} {ys : List Extent}
    (ho : h.Offers xs need ys x) (hx : x.allocated = false) (hlarge : need ≤ x.size)
    (hneed : Size.ofRequest? size = some need) : ¬ h.Refuses xs size := by
  intro hrefuses
  obtain ⟨hnone, hfits⟩ := hrefuses need hneed
  rcases ho with ⟨hbest, -⟩ | ⟨-, hfits', -⟩
  · exact absurd (hnone x hbest.mem hx) (Nat.not_lt.2 hlarge)
  · exact hfits hfits'

omit [HasClass n] in
/-- Growing for an offer adds a free block and no other. -/
theorem Offers.used_eq {h : Heap n} {need : Nat} {ys : List Extent}
    (ho : h.Offers xs need ys x) : used ys = used xs := by
  rcases ho with ⟨-, rfl⟩ | ⟨-, -, rfl⟩
  · rfl
  · rw [extend, used_merge, used_append_cons_of_free rfl, List.append_nil]

/-- The plan carves the block out of what is offered. -/
theorem Offers.serve?_eq {h h' : Heap n} {need : Nat} (ho : h.Offers xs need (pre ++ x :: post) x)
    (g : h.Shaped p xs) (g' : h'.Shaped p (pre ++ x :: post)) (hx : x.allocated = false)
    (hlarge : need ≤ x.size) :
    h.serve? xs need = some (carvedAt h.settings.tailLimit x need,
      pre ++ carved h.settings.tailLimit x need ++ post) := by
  rcases ho with ⟨hbest, rfl⟩ | ⟨hnone, hfits, hys⟩
  · rw [serve?, Layout.serve?, place?_eq_some g.around.before hbest, Option.some_or]
  · have hmem : x ∈ extend h.size (h.growthFor need) xs := by
      rw [← hys]
      exact List.mem_append_right _ (List.mem_cons_self ..)
    have hbest := bestFit_extend g.around.coalesced_pre hnone hmem hx hlarge
    rw [← hys] at hbest
    have hplace : place? h.settings.tailLimit need _ = _ := place?_eq_some g'.around.before hbest
    rw [hys] at hplace
    rw [serve?, Layout.serve?, place?_eq_none hnone, Option.none_or]
    exact (if_pos hfits).trans hplace

theorem ensureLaidOut_of_shaped (g : run.heap.Shaped p xs) : ensureLaidOut run = .ok true run := by
  rw [ensureLaidOut, Step.bind_of_ok (heap_eq_ok run), g.prologue]
  rfl

/-- **ALLOCATING** in a heap in shape hands out a new block that holds the request, as planned, or
changes nothing and warns once. -/
theorem allocate_ensures (g : run.heap.Shaped p xs) (hsize : size ≠ 0) :
    (allocate size).Ensures run fun answer run' =>
      match answer with
      | none => run.heap.Refuses xs size ∧ run.Warned run'
      | some b => ¬ run.heap.Refuses xs size ∧ run.HandsOut p xs size b run' ∧
          ∃ need ys, Size.ofRequest? size = some need ∧
            run.heap.serve? xs need = some (b.offset, ys) ∧ run'.heap.Shaped p ys := by
  rw [allocate, if_neg hsize]
  refine .bind_ok (ensureLaidOut_of_shaped g) ?_
  cases hneed : Size.ofRequest? size with
  | none =>
      have hrefuses : run.heap.Refuses xs size := fun need h => by
        rw [hneed] at h
        contradiction
      exact ensures_record (.pure ⟨hrefuses, run.warned_record rfl⟩)
  | some need =>
      obtain ⟨hmin, h8, hmax, hreq⟩ := Size.ofRequest?_eq_some hneed
      refine .bind (room_ensures g hmin h8 hmax) ?_
      rintro (e | b) run₁ hroom
      · obtain ⟨rfl, hnone, hfits⟩ := hroom
        have hrefuses : run₁.heap.Refuses xs size := fun need' h => by
          obtain rfl : need = need' := Option.some.inj (hneed.symm.trans h)
          exact ⟨hnone, hfits⟩
        exact ensures_record (.pure ⟨hrefuses, run₁.warned_record rfl⟩)
      · obtain ⟨zs, x, g₁, hx, hfree, hxb, hlarge, hk₁, hoffers⟩ := hroom
        obtain ⟨pre, post, rfl⟩ := List.append_of_mem hx
        have hused := hoffers.used_eq
        refine .bind (carve_ensures g₁ hfree hmin h8 hlarge hxb.symm) ?_
        rintro w run₂ ⟨g₂, ⟨y, hy, hyu, hyw⟩, hk₂⟩
        obtain ⟨hys, hperm⟩ := used_carved hfree hlarge hy hyu pre post
        rw [hused] at hperm
        have hk := hk₁.trans (hk₂.mono fun i hi => hi.congr (by
          rw [← used_append_cons_of_free hfree, hused]))
        have hlevel : (Event.allocated need w.offset size).level ≠ .warn := by
          intro h
          cases h
        have hk' := hk.record hlevel
        have hplan := hoffers.serve?_eq g g₁ hfree hlarge
        rw [← hk₁.settings, ← offset_of_mem_carved hy hyu, hyw] at hplan
        refine ensures_record (.bind_ok (selfAudit_eq_ok g₂ _) (.pure ?_))
        exact ⟨hoffers.not_refuses hfree hlarge hneed, ⟨_, y, g₂, hyu, hyw, Nat.le_trans hreq hys,
          hperm, hk'⟩, need, _, rfl, hplan, g₂⟩

/-- The first request is served by what laying out the heap has made of it. -/
theorem allocate_of_laidOut {run₁ : Run n} (hnone : run.heap.prologue = none)
    (hout : layOut run = .ok (.ok ()) run₁) (g : run₁.heap.Shaped p xs) (hsize : size ≠ 0) :
    allocate size run = allocate size run₁ := by
  have hfirst : ensureLaidOut run = .ok true run₁ := by
    rw [ensureLaidOut, Step.bind_of_ok (heap_eq_ok run), hnone]
    exact Step.bind_of_ok hout
  rw [allocate, if_neg hsize, Step.bind_of_ok hfirst, Step.bind_of_ok (ensureLaidOut_of_shaped g)]

/-- A heap that cannot be laid out has no block to hand out. -/
theorem allocate_of_not_laidOut {run₁ : Run n} {e : OutOfMemory} (hnone : run.heap.prologue = none)
    (hout : layOut run = .ok (.error e) run₁) (hsize : size ≠ 0) :
    allocate size run = .ok none ⟨run₁.heap, .notLaidOut e :: run₁.journal⟩ := by
  have hfirst : ensureLaidOut run = .ok false ⟨run₁.heap, .notLaidOut e :: run₁.journal⟩ := by
    rw [ensureLaidOut, Step.bind_of_ok (heap_eq_ok run), hnone]
    exact Step.bind_of_ok hout
  rw [allocate, if_neg hsize, Step.bind_of_ok hfirst]
  rfl

/-- The first request lays out the heap. If that fails, or if there is no room for the block after
it, no block is in use and the heap is what laying it out has made of it; otherwise the new block is
the only one. -/
theorem allocate_ensures_of_vacant (hv : run.heap.Vacant) (hsize : size ≠ 0) :
    (allocate size).Ensures run fun answer run' =>
      match answer with
      | none => (∃ r run₁, layOut run = .ok r run₁ ∧ run'.heap = run₁.heap) ∧
          (run'.heap.Vacant ∨ ∃ p ys, run'.heap.Shaped p ys ∧ used ys = [])
      | some b => ∃ p ys y, run'.heap.Shaped p ys ∧ y.allocated = true ∧ y.offset = b.offset ∧
          size + Size.overhead ≤ y.size ∧ used ys = [y] := by
  obtain ⟨answer, run₁, hrun₁, -, -, -, hspec⟩ := layOut_ensures hv.sound
  cases answer with
  | error e =>
      refine .of_ok (allocate_of_not_laidOut hv.prologue hrun₁ hsize) ⟨⟨_, run₁, hrun₁, rfl⟩, ?_⟩
      rcases hspec with ⟨hv', -⟩ | ⟨p, -, g⟩
      · exact .inl hv'
      · exact .inr ⟨p, [], g, rfl⟩
  | ok u =>
      obtain ⟨p, -, g⟩ := hspec
      obtain ⟨answer, run', hrun', hserved⟩ := allocate_ensures g hsize
      refine .of_ok ((allocate_of_laidOut hv.prologue hrun₁ g hsize).trans hrun') ?_
      cases answer with
      | none =>
          have hheap := hserved.2.heap_eq
          exact ⟨⟨_, run₁, hrun₁, hheap⟩, .inr ⟨p, _, hheap ▸ g, rfl⟩⟩
      | some b =>
          obtain ⟨-, ⟨ys, y, g', hyu, hyb, hys, hperm, -⟩, -⟩ := hserved
          exact ⟨p, ys, y, g', hyu, hyb, hys, List.perm_singleton.1 hperm⟩

/-- **FREEING** a block in use merges the layout in which it is free. -/
theorem free_ensures (g : run.heap.Shaped p (pre ++ x :: post)) (hx : x.allocated = true)
    (hb : b.offset = x.offset) :
    (free (some b)).Ensures run fun _ run' =>
      run'.heap.Shaped p (merge (pre ++ { x with allocated := false } :: post)) ∧
        run.Spares (Held p (pre ++ post)) run' := by
  obtain ⟨g₁, hin, ht⟩ := g.gap hx
  have hsize := hin.size_eq_ok hb ht.header
  obtain ⟨hmake, hstamp⟩ := g₁.stamp (x := { x with allocated := false }) (Nat.le_refl _)
    (Nat.le_refl _) hin.large hin.aligned hb
  refine ensures_heap ?_
  rw [g.prologue]
  refine ensures_inspect hsize (.lift hmake (.bind hstamp ?_))
  rintro _ run₂ ⟨g₂, htag, hk₂⟩
  have hcoalesce : Ensures (discard (coalesce b)) run₂ fun _ run' =>
      run'.heap.Shaped p (merge (pre ++ { x with allocated := false } :: post)) ∧
        run₂.Spares (Held p (pre ++ post)) run' :=
    .discard ((coalesce_ensures g₂ hin.large hb htag.header).mono fun _ _ h => ⟨h.1, h.2.2⟩)
  refine .bind hcoalesce ?_
  rintro _ run₃ ⟨hshape, hk₃⟩
  have hk₂ := hk₂.mono fun i hi =>
    g₁.around.offTags_of_held (Nat.le_refl _) (Nat.le_refl _) hi
  have hk := (hk₂.trans hk₃).record (e := .freed x.size b.offset) (by rintro ⟨⟩)
  exact ensures_record (.of_ok (selfAudit_eq_ok hshape _) ⟨hshape, hk⟩)

end Heap

end TagHeap
