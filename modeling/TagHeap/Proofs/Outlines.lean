import TagHeap.Proofs.Clients

/-!
# Outlines

The outline of a heap is what is left of it when the bytes are taken away: the bounds of the region,
the settings, and the layout behind its prologue, or only the number of the granted bytes if the
heap is not laid out. An outline has no bytes, no links and no classes, and still it answers every
request: the requests are plain functions on outlines, put together from the plans.

**A HEAP BEHAVES AS ITS OUTLINE** (`Request.serve_outlined`). Whatever a client that keeps to the
rules asks for, the heap gives the answer that its outline gives, and afterwards it has the outline
that its outline has become. So all that a heap answers is settled by its outline, and two heaps
with the same outline cannot be told apart.
-/

namespace TagHeap

open Layout Operation Step

/-- What the granted bytes are there for. -/
inductive Content where
  /-- No block is laid out. -/
  | vacant (size : Nat)
  | blocks (prologue : Block) (xs : List Extent)

/-- A heap without its bytes. -/
structure Outline where
  bounds : Region.Bounds
  settings : Settings
  content : Content

/-- What a client learns from a request. -/
inductive Reply where
  | laidOut (result : Except OutOfMemory Unit)
  | block (b? : Option Block)
  | done

/-- The block in a reply. -/
def Reply.block? : Reply → Option Block
  | block b? => b?
  | laidOut _ | done => none

namespace Outline

/-- The number of the granted bytes. -/
def size (o : Outline) : Nat :=
  match o.content with
  | .vacant size => size
  | .blocks p xs => p.offset + 8 + (xs.map (·.size)).sum

/-- The blocks, none if the heap is not laid out. -/
def layout (o : Outline) : List Extent :=
  match o.content with
  | .vacant _ => []
  | .blocks _ xs => xs

/-- How many bytes are left to grow by. -/
def spare (o : Outline) : Nat := o.bounds.limit - o.size

/-- The outline with another content. -/
def withContent (o : Outline) (content : Content) : Outline := { o with content }

/-- Lays out the heap at the end of the granted bytes. -/
def layOut (o : Outline) : Except OutOfMemory Unit × Outline :=
  let bounds := o.bounds.reserve.2
  match o.bounds.refuse? o.size 16 with
  | some e => (.error ⟨e⟩, ⟨bounds, o.settings, .vacant o.size⟩)
  | none =>
      let p : Block := ⟨o.size + 8, Nat.succ_pos _⟩
      match bounds.refuse? (o.size + 16) o.settings.chunkSize with
      | some e => (.error ⟨e⟩, ⟨bounds, o.settings, .blocks p []⟩)
      | none =>
          (.ok (), ⟨bounds, o.settings, .blocks p [⟨o.size + 16, o.settings.chunkSize, false⟩]⟩)

/-- Follows a plan for the blocks behind the prologue `p`, if there is one. -/
def follow (o : Outline) (p : Block) : Option (Nat × List Extent) → Option Block × Outline
  | some (b, xs) => (Block.ofOffset? b, o.withContent (.blocks p xs))
  | none => (none, o)

/-- Hands out a block of a heap that is laid out. -/
def handOut (o : Outline) (size : Nat) : Option Block × Outline :=
  match o.content, Size.ofRequest? size with
  | .blocks p xs, some need => o.follow p (serve? o.settings o.size o.spare need xs)
  | _, _ => (none, o)

/-- Hands out a block, and lays out the heap before if nobody has yet. -/
def allocate (o : Outline) (size : Nat) : Option Block × Outline :=
  if size = 0 then (none, o)
  else match o.content, o.layOut with
    | .blocks .., _ => o.handOut size
    | .vacant _, (.ok (), o') => o'.handOut size
    | .vacant _, (.error _, o') => (none, o')

/-- Takes a block back. -/
def free (o : Outline) (b? : Option Block) : Outline :=
  match b?, o.content with
  | some b, .blocks p xs => o.withContent (.blocks p (takeBack b.offset xs))
  | _, _ => o

/-- Gives a block a new size. -/
def reallocate (o : Outline) (b? : Option Block) (size : Nat) : Option Block × Outline :=
  match b? with
  | none => o.allocate size
  | some b =>
      if size = 0 then (none, o.free (some b))
      else match o.content, Size.ofRequest? size with
        | .blocks p xs, some need => o.follow p <| (cut? b.offset xs).bind fun c =>
            resize? o.settings o.size o.spare need c.pre c.block c.post
        | _, _ => (none, o)

/-- The reply to a request, and the outline after it. -/
def serve (o : Outline) : Request → Reply × Outline
  | .layOut => (.laidOut o.layOut.1, o.layOut.2)
  | .allocate size => (.block (o.allocate size).1, (o.allocate size).2)
  | .free b? => (.done, o.free b?)
  | .reallocate b? size => (.block (o.reallocate b? size).1, (o.reallocate b? size).2)
  | .write .. => (.done, o)

/-- Once the heap is laid out it has a prologue. -/
theorem content_layOut {o : Outline} (h : o.layOut.1 = .ok ()) :
    ∃ p xs, o.layOut.2.content = .blocks p xs := by
  rw [layOut] at h ⊢
  cases hfirst : o.bounds.refuse? o.size 16 with
  | some e =>
      rw [hfirst] at h
      exact nomatch h
  | none =>
      dsimp only
      cases o.bounds.reserve.2.refuse? (o.size + 16) o.settings.chunkSize with
      | some e => exact ⟨_, _, rfl⟩
      | none => exact ⟨_, _, rfl⟩

end Outline

/-! ## Heaps and their outlines -/

/-- The sizes of a tiling add up. -/
theorem Tiles.sum {lo hi : Nat} {xs : List Extent} (h : Tiles lo xs hi) :
    lo + (xs.map (·.size)).sum = hi := by
  induction xs generalizing lo with
  | nil => exact h
  | cons x xs ih =>
      have hrest := ih h.2.2.2
      rwa [List.map_cons, List.sum_cons, ← Nat.add_assoc]

variable {n : Nat} [HasClass n]

namespace Heap

/-- What a heap has granted its bytes for. -/
def Holds (h : Heap n) : Content → Prop
  | .vacant size => h.Vacant ∧ h.size = size
  | .blocks p xs => h.Shaped p xs

/-- The heap without its bytes is `o`. -/
structure HasOutline (h : Heap n) (o : Outline) : Prop where
  bounds : h.region.bounds = o.bounds
  settings : h.settings = o.settings
  content : h.Holds o.content

variable {h : Heap n} {run run' : Run n} {o : Outline} {p b : Block} {xs ys : List Extent}
  {live : Live}

theorem Shaped.size_eq (g : h.Shaped p xs) : h.size = p.offset + 8 + (xs.map (·.size)).sum :=
  g.around.before.sum.symm

theorem Shaped.hasOutline (g : h.Shaped p xs) :
    h.HasOutline ⟨h.region.bounds, h.settings, .blocks p xs⟩ := ⟨rfl, rfl, g⟩

/-- A heap that serves a client has an outline. -/
theorem Serves.exists_outline (hs : h.Serves live) : ∃ o, h.HasOutline o := by
  cases hs with
  | vacant hv => exact ⟨⟨h.region.bounds, h.settings, .vacant h.size⟩, rfl, rfl, hv, rfl⟩
  | shaped g _ => exact ⟨_, g.hasOutline⟩

namespace HasOutline

theorem size_eq (ho : h.HasOutline o) : h.size = o.size := by
  have hc := ho.content
  rw [Outline.size]
  cases hcontent : o.content with
  | vacant size =>
      rw [hcontent] at hc
      exact hc.2
  | blocks p xs =>
      rw [hcontent] at hc
      exact Shaped.size_eq hc

theorem spare_eq (ho : h.HasOutline o) : h.region.limit - h.size = o.spare := by
  rw [Outline.spare, ← ho.bounds, ← ho.size_eq]
  rfl

theorem sound (ho : h.HasOutline o) : h.region.Sound := by
  have hc := ho.content
  cases hcontent : o.content with
  | vacant size =>
      rw [hcontent] at hc
      exact hc.1.sound
  | blocks p xs =>
      rw [hcontent] at hc
      exact Shaped.sound hc

/-- The outline of a heap that is laid out shows its layout. -/
theorem content_eq (ho : h.HasOutline o) (g : h.Shaped p xs) : o.content = .blocks p xs := by
  have hc := ho.content
  cases hcontent : o.content with
  | vacant size =>
      rw [hcontent] at hc
      have hnone := hc.1.prologue
      rw [g.prologue] at hnone
      exact nomatch hnone
  | blocks q ys =>
      rw [hcontent] at hc
      obtain ⟨rfl, rfl⟩ := Shaped.unique g hc
      rfl

theorem serve?_eq (ho : h.HasOutline o) (xs : List Extent) (need : Nat) :
    h.serve? xs need = Layout.serve? o.settings o.size o.spare need xs := by
  rw [serve?, ho.settings, ho.spare_eq, ho.size_eq]

theorem resize?_eq (ho : h.HasOutline o) (pre : List Extent) (x : Extent) (post : List Extent)
    (need : Nat) :
    h.resize? pre x post need = Layout.resize? o.settings o.size o.spare need pre x post := by
  rw [resize?, ho.settings, ho.spare_eq, ho.size_eq]

/-- A heap that spares the settings and the bounds has the old outline, but for the layout. -/
theorem withContent {kept : Nat → Prop} (ho : run.heap.HasOutline o) (g : run'.heap.Shaped p ys)
    (hk : run.Spares kept run') : run'.heap.HasOutline (o.withContent (.blocks p ys)) :=
  ⟨hk.bounds_eq.trans ho.bounds, hk.settings.trans ho.settings, g⟩

/-- A block that lies where the plan says is the block of the outline. -/
theorem follow {kept : Nat → Prop} {plan : Option (Nat × List Extent)}
    (ho : run.heap.HasOutline o) (hplan : plan = some (b.offset, ys)) (g : run'.heap.Shaped p ys)
    (hk : run.Spares kept run') :
    some b = (o.follow p plan).1 ∧ run'.heap.HasOutline (o.follow p plan).2 := by
  subst hplan
  exact ⟨(Block.ofOffset?_eq_some_iff.2 rfl).symm, ho.withContent g hk⟩

end HasOutline

section Twins

variable {m : Nat} [HasClass m] {h' : Heap m}

/-- Two heaps with the same outline serve the same clients. -/
theorem HasOutline.serves (ho : h.HasOutline o) (ho' : h'.HasOutline o) (hs : h.Serves live) :
    h'.Serves live := by
  have hc' := ho'.content
  cases hs with
  | vacant hv =>
      have hc := ho.content
      cases hcontent : o.content with
      | vacant size =>
          rw [hcontent] at hc'
          exact .vacant hc'.1
      | blocks p xs =>
          rw [hcontent] at hc
          have hsome : h.prologue = some p := Gapped.prologue hc
          rw [hv.prologue] at hsome
          exact nomatch hsome
  | shaped g hbacks =>
      rw [ho.content_eq g] at hc'
      exact .shaped hc' hbacks

/-- The blocks of a client are as large in one heap as in the other. -/
theorem HasOutline.usableSize_eq (ho : h.HasOutline o) (ho' : h'.HasOutline o)
    (hs : h.Serves live) {e : Block × Nat} (he : e ∈ live) :
    h'.usableSize e.1 = h.usableSize e.1 := by
  obtain ⟨p, xs, g, hbacks⟩ := hs.shaped_of_mem he
  obtain ⟨x, hx, hxe, -⟩ := hbacks.large e he
  have hmem := (mem_used.1 hx).1
  have g' : h'.Holds o.content := ho'.content
  rw [ho.content_eq g] at g'
  rw [(g.houses hmem hxe.symm).usableSize_eq_ok, (Shaped.houses g' hmem hxe.symm).usableSize_eq_ok]

/-- A request that keeps to the rules in one heap keeps to them in the other. -/
theorem HasOutline.allowed (ho : h.HasOutline o) (ho' : h'.HasOutline o) (hs : h.Serves live)
    {request : Request} (ha : request.Allowed h live) : request.Allowed h' live := by
  refine ⟨ha.has, ?_⟩
  have hfits := ha.fits
  cases request with
  | write b position bytes =>
      obtain ⟨size, hb⟩ := ha.has b rfl
      obtain ⟨usable, husable, hle⟩ := hfits
      exact ⟨usable, (ho.usableSize_eq ho' hs hb).trans husable, hle⟩
  | _ => exact trivial

end Twins

/-- **LAYING OUT** a heap lays out its outline. -/
theorem layOut_outlined (ho : run.heap.HasOutline o) :
    layOut.Ensures run fun answer run' =>
      answer = o.layOut.1 ∧ run'.heap.HasOutline o.layOut.2 := by
  refine (layOut_planned ho.sound).mono ?_
  rintro answer run' ⟨hsettings, -, -, hbounds, hspec⟩
  rw [ho.bounds, ho.size_eq, ho.settings] at hspec
  rw [ho.bounds] at hbounds
  rw [ho.settings] at hsettings
  rw [Outline.layOut]
  cases hfirst : o.bounds.refuse? o.size 16 with
  | some e =>
      rw [hfirst] at hspec
      obtain ⟨hanswer, hv, hm⟩ := hspec
      have hsize : run'.heap.size = o.size := (congrArg Memory.size hm).trans ho.size_eq
      exact ⟨hanswer, hbounds, hsettings, hv, hsize⟩
  | none =>
      rw [hfirst] at hspec
      obtain ⟨p, hp, hspec⟩ := hspec
      obtain rfl : p = ⟨o.size + 8, Nat.succ_pos _⟩ := Block.ext hp
      dsimp only at hspec ⊢
      cases hchunk : o.bounds.reserve.2.refuse? (o.size + 16) o.settings.chunkSize with
      | some e =>
          rw [hchunk] at hspec
          exact ⟨hspec.1, hbounds, hsettings, hspec.2⟩
      | none =>
          rw [hchunk] at hspec
          exact ⟨hspec.1, hbounds, hsettings, hspec.2⟩

/-- A heap that is laid out hands out the block that its outline hands out. -/
private theorem handOut_outlined (ho : run.heap.HasOutline o) (g : run.heap.Shaped p xs)
    {size : Nat} (hsize : size ≠ 0) :
    (allocate size).Ensures run fun answer run' =>
      answer = (o.handOut size).1 ∧ run'.heap.HasOutline (o.handOut size).2 := by
  refine (allocate_ensures g hsize).mono ?_
  rw [Outline.handOut, ho.content_eq g]
  rintro (_ | b) run' hspec
  · obtain ⟨hrefuses, hwarned⟩ := hspec
    rw [hwarned.heap_eq]
    cases hneed : Size.ofRequest? size with
    | none => exact ⟨rfl, ho⟩
    | some need =>
        dsimp only
        rw [← ho.serve?_eq, hrefuses.serve?_eq_none hneed]
        exact ⟨rfl, ho⟩
  · obtain ⟨-, ⟨-, -, -, -, -, -, -, hk⟩, need, ys, hneed, hplan, g'⟩ := hspec
    rw [ho.serve?_eq] at hplan
    rw [hneed]
    exact ho.follow hplan g' hk

/-- **ALLOCATING** in a heap is allocating in its outline. -/
theorem allocate_outlined (ho : run.heap.HasOutline o) (size : Nat) :
    (allocate size).Ensures run fun answer run' =>
      answer = (o.allocate size).1 ∧ run'.heap.HasOutline (o.allocate size).2 := by
  by_cases hsize : size = 0
  · rw [allocate, if_pos hsize, Outline.allocate, if_pos hsize]
    exact .pure ⟨rfl, ho⟩
  rw [Outline.allocate, if_neg hsize]
  have hc := ho.content
  cases hcontent : o.content with
  | blocks p xs =>
      rw [hcontent] at hc
      exact handOut_outlined ho hc hsize
  | vacant _ =>
      rw [hcontent] at hc
      obtain ⟨answer, run₁, hout, hanswer, ho₁⟩ := layOut_outlined ho
      have hlaid := o.content_layOut
      cases hlay : o.layOut with
      | mk result o₁ =>
          rw [hlay] at hanswer ho₁ hlaid
          obtain rfl : answer = result := hanswer
          cases answer with
          | error e =>
              exact .of_ok (allocate_of_not_laidOut hc.1.prologue hout hsize) ⟨rfl, ho₁⟩
          | ok u =>
              obtain ⟨p, xs, hblocks⟩ := hlaid rfl
              have g : run₁.heap.Holds o₁.content := ho₁.content
              rw [hblocks] at g
              obtain ⟨b?, run₂, hrun₂, hserved⟩ := handOut_outlined ho₁ g hsize
              exact .of_ok ((allocate_of_laidOut hc.1.prologue hout g hsize).trans hrun₂) hserved

/-- **FREEING** a block of a heap is freeing it in its outline. -/
theorem free_outlined (ho : run.heap.HasOutline o) (hs : run.heap.Serves live) {size : Nat}
    (hb : (b, size) ∈ live) :
    (free (some b)).Ensures run fun _ run' => run'.heap.HasOutline (o.free (some b)) := by
  obtain ⟨p, xs, g, hbacks⟩ := hs.shaped_of_mem hb
  obtain ⟨pre, x, post, rfl, hx, hbx⟩ := hbacks.split hb
  have hfree : o.free (some b) =
      o.withContent (.blocks p (merge (pre ++ { x with allocated := false } :: post))) := by
    simp only [Outline.free, ho.content_eq g, hbx, g.around.before.takeBack_eq]
  rw [hfree]
  refine (free_ensures g hx hbx).mono ?_
  rintro _ run' ⟨g', hk⟩
  exact ho.withContent g' hk

/-- **REALLOCATING** a block of a heap is reallocating it in its outline. -/
theorem reallocate_outlined (ho : run.heap.HasOutline o) (hs : run.heap.Serves live) {old : Nat}
    (hb : (b, old) ∈ live) (size : Nat) :
    (reallocate (some b) size).Ensures run fun answer run' =>
      answer = (o.reallocate (some b) size).1 ∧
        run'.heap.HasOutline (o.reallocate (some b) size).2 := by
  by_cases hsize : size = 0
  · rw [reallocate, if_pos hsize, Outline.reallocate, if_pos hsize]
    refine .bind (free_outlined ho hs hb) ?_
    rintro _ run' ho'
    exact .pure ⟨rfl, ho'⟩
  obtain ⟨p, xs, g, hbacks⟩ := hs.shaped_of_mem hb
  obtain ⟨pre, x, post, rfl, hx, hbx⟩ := hbacks.split hb
  have hplanned : ∀ need, Size.ofRequest? size = some need →
      o.reallocate (some b) size =
        o.follow p (Layout.resize? o.settings o.size o.spare need pre x post) := by
    intro need hneed
    have hcut : cut? b.offset (pre ++ x :: post) = some ⟨pre, x, post⟩ := by
      rw [hbx]
      exact g.around.before.cut?_eq_some
    simp only [Outline.reallocate, hsize, if_false, ho.content_eq g, hneed, hcut, Option.bind_some]
  refine (reallocate_planned g hx hbx hsize).mono ?_
  rintro (_ | q) run' hspec
  · obtain ⟨-, hwarned, hplan⟩ := hspec
    rw [hwarned.heap_eq]
    cases hneed : Size.ofRequest? size with
    | none =>
        have hnone : o.reallocate (some b) size = (none, o) := by
          simp only [Outline.reallocate, hsize, if_false, ho.content_eq g, hneed]
        rw [hnone]
        exact ⟨rfl, ho⟩
    | some need =>
        rw [hplanned need hneed, ← ho.resize?_eq, hplan need hneed]
        exact ⟨rfl, ho⟩
  · obtain ⟨need, hneed, ⟨-, -, -, -, -, -, -, -, hk⟩, ys, hplan, g'⟩ := hspec
    rw [ho.resize?_eq] at hplan
    rw [hplanned need hneed]
    exact ho.follow hplan g' hk

/-- Writing to a payload leaves the outline as it is. -/
theorem write_outlined (ho : run.heap.HasOutline o) (hs : run.heap.Serves live)
    {size position usable : Nat} {bytes : List UInt8} (hb : (b, size) ∈ live)
    (husable : run.heap.usableSize b = .ok usable) (hfits : position + bytes.length ≤ usable) :
    (writePayload b position bytes).Ensures run fun _ run' => run'.heap.HasOutline o := by
  obtain ⟨p, xs, g, hbacks⟩ := hs.shaped_of_mem hb
  obtain ⟨pre, x, post, rfl, hx, hbx⟩ := hbacks.split hb
  rw [(g.houses (x := x) (by simp) hbx).usableSize_eq_ok] at husable
  obtain rfl := Except.ok.inj husable
  refine (writePayload_ensures g hx hbx hfits).mono ?_
  rintro _ run' ⟨g', hk⟩
  have ho' := ho.withContent g' hk
  rwa [Outline.withContent, ← ho.content_eq g] at ho'

end Heap

namespace Request

/-- The request as an operation that tells all that a client learns from it. -/
def serve [LinkEncoding] : Request → Operation n Reply
  | layOut => return .laidOut (← Heap.layOut)
  | allocate size => return .block (← Heap.allocate size)
  | free b? => do
      Heap.free b?
      return .done
  | reallocate b? size => return .block (← Heap.reallocate b? size)
  | write b position bytes => do
      Heap.writePayload b position bytes
      return .done

/-- The block that a client gets is the block in the reply. -/
theorem operation_eq [LinkEncoding] (request : Request) :
    request.operation = (do return (← request.serve (n := n)).block?) := by
  cases request with
  | layOut =>
      have hdiscard : discard (Heap.layOut (n := n)) = (fun _ => PUnit.unit) <$> Heap.layOut := rfl
      simp [operation, serve, Reply.block?, hdiscard]
  | allocate size => simp [operation, serve, Reply.block?]
  | free b? => simp [operation, serve, Reply.block?]
  | reallocate b? size => simp [operation, serve, Reply.block?]
  | write b position bytes => simp [operation, serve, Reply.block?]

/-- **A HEAP BEHAVES AS ITS OUTLINE.** -/
theorem serve_outlined {run : Run n} {o : Outline} {live : Live} {request : Request}
    (ho : run.heap.HasOutline o) (hs : run.heap.Serves live) (ha : request.Allowed run.heap live) :
    request.serve.Ensures run fun reply run' =>
      reply = (o.serve request).1 ∧ run'.heap.HasOutline (o.serve request).2 := by
  cases request with
  | layOut =>
      refine .bind (Heap.layOut_outlined ho) ?_
      rintro answer run' ⟨rfl, ho'⟩
      exact .pure ⟨rfl, ho'⟩
  | allocate size =>
      refine .bind (Heap.allocate_outlined ho size) ?_
      rintro answer run' ⟨rfl, ho'⟩
      exact .pure ⟨rfl, ho'⟩
  | free b? =>
      cases b? with
      | none => exact .bind_ok rfl (.pure ⟨rfl, ho⟩)
      | some b =>
          obtain ⟨size, hb⟩ := ha.has b rfl
          refine .bind (Heap.free_outlined ho hs hb) ?_
          rintro _ run' ho'
          exact .pure ⟨rfl, ho'⟩
  | reallocate b? size =>
      cases b? with
      | none =>
          refine .bind (Heap.allocate_outlined ho size) ?_
          rintro answer run' ⟨rfl, ho'⟩
          exact .pure ⟨rfl, ho'⟩
      | some b =>
          obtain ⟨old, hb⟩ := ha.has b rfl
          refine .bind (Heap.reallocate_outlined ho hs hb size) ?_
          rintro answer run' ⟨rfl, ho'⟩
          exact .pure ⟨rfl, ho'⟩
  | write b position bytes =>
      obtain ⟨size, hb⟩ := ha.has b rfl
      obtain ⟨usable, husable, hfits⟩ := ha.fits
      refine .bind (Heap.write_outlined ho hs hb husable hfits) ?_
      rintro _ run' ho'
      exact .pure ⟨rfl, ho'⟩

/-- The block that a client gets, and the heap it gets it from, do not depend on whether it asks for
the reply or for the block only. -/
theorem operation_on (request : Request) (h : Heap n) :
    (request.operation.on h).result = (request.serve.on h).result.map Reply.block? ∧
      (request.operation.on h).state = (request.serve.on h).state := by
  rw [operation_eq, on, on]
  cases hserve : request.serve (n := n) ⟨h, []⟩ with
  | ok reply run =>
      rw [Step.bind_of_ok hserve]
      exact ⟨rfl, rfl⟩
  | error e run =>
      rw [Step.bind_of_error hserve]
      exact ⟨rfl, rfl⟩

/-- A request as its client sees it, next to the outline of the heap. -/
theorem serve_on {h : Heap n} {o : Outline} {live : Live} {request : Request}
    (ho : h.HasOutline o) (hs : h.Serves live) (ha : request.Allowed h live) :
    (request.serve.on h).result = .ok (o.serve request).1 ∧
      (request.serve.on h).state.HasOutline (o.serve request).2 ∧
      (request.serve.on h).state.Serves (live.after request (o.serve request).1.block?) := by
  have ho' : (Run.mk h []).heap.HasOutline o := ho
  obtain ⟨reply, _, hresult, rfl, hafter⟩ := on_of_ensures (serve_outlined ho' hs ha)
  obtain ⟨answer, hanswer, hserved⟩ := served hs ha
  obtain ⟨hblock, hstate⟩ := request.operation_on h
  rw [hanswer, hresult] at hblock
  obtain rfl := Except.ok.inj hblock
  rw [hstate] at hserved
  exact ⟨hresult, hafter, hserved.serves⟩

end Request

end TagHeap
