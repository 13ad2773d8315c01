import TagHeap.Proofs.Payloads

/-!
# Clients

A client asks a heap for blocks, gives them back, and writes to the payloads of those that it has.
It keeps to the rules when it names no block that it does not have (`Request.Allowed`).
`Reachable h live` says that such a client may come to the heap `h` with the blocks `live`, from a
fresh heap and in any order of requests, among them the request to lay the heap out anew, which
takes all blocks away.

The heart of the argument is `Heap.Serves`: the blocks in use are EXACTLY those that the client has,
or the heap is vacant and the client has none. Every request is answered, keeps that true and leaves
the blocks alone that it does not name (`Request.ensures_served`), so it is true in every run
(`Reachable.serves`).
-/

namespace TagHeap

open Layout Operation Step

/-- What a client may ask of a heap. -/
inductive Request where
  /-- Lays out the heap, whatever it holds. -/
  | layOut
  | allocate (size : Nat)
  | free (b? : Option Block)
  | reallocate (b? : Option Block) (size : Nat)
  /-- Writes to the payload of a block. -/
  | write (b : Block) (position : Nat) (bytes : List UInt8)

/-- The blocks that a client has, each with the size that it was last given. -/
abbrev Live : Type := List (Block × Nat)

namespace Live

/-- What is left without a block. -/
def without (live : Live) (b? : Option Block) : Live := live.filter fun e => some e.1 ≠ b?

/-- What the client has after a request that was answered with a block or without one. -/
def after (live : Live) : Request → Option Block → Live
  | .layOut, _ => []
  | .allocate size, some b => (b, size) :: live
  | .allocate _, none => live
  | .free b?, _ => live.without b?
  | .reallocate b? size, some b => (b, size) :: live.without b?
  | .reallocate b? size, none => if size = 0 then live.without b? else live
  | .write .., _ => live

@[simp] theorem without_none (live : Live) : live.without none = live :=
  List.filter_eq_self.2 fun _ _ => rfl

theorem mem_without {live : Live} {b? : Option Block} {e : Block × Nat} :
    e ∈ live.without b? ↔ e ∈ live ∧ some e.1 ≠ b? := by
  rw [without, List.mem_filter, decide_eq_true_eq]

end Live

variable {n : Nat} [HasClass n]

namespace Request

/-- The request as an operation. Its answer is the block that the client gets, if it gets one. -/
def operation [LinkEncoding] : Request → Operation n (Option Block)
  | layOut => do
      discard Heap.layOut
      return none
  | allocate size => Heap.allocate size
  | free b? => do
      Heap.free b?
      return none
  | reallocate b? size => Heap.reallocate b? size
  | write b position bytes => do
      Heap.writePayload b position bytes
      return none

/-- The block that the request names. -/
def argument : Request → Option Block
  | layOut | allocate _ => none
  | free b? | reallocate b? _ => b?
  | write b _ _ => some b

/-- The client still has the blocks that a request did not name, unless the heap was laid out anew.
-/
theorem mem_after {live : Live} {request : Request} {e : Block × Nat} (answer : Option Block)
    (he : e ∈ live.without request.argument) :
    request = .layOut ∨ e ∈ live.after request answer := by
  have hlive := (Live.mem_without.1 he).1
  cases request with
  | layOut => exact .inl rfl
  | allocate size => cases answer with
    | none => exact .inr hlive
    | some b => exact .inr (.tail _ hlive)
  | free b? => exact .inr he
  | reallocate b? size => cases answer with
    | none =>
        refine .inr ?_
        rw [Live.after]
        split
        · exact he
        · exact hlive
    | some b => exact .inr (.tail _ he)
  | write b position bytes => exact .inr hlive

/-- The bytes that the request writes, if there are any, fit into the payload. -/
def Fits (h : Heap n) : Request → Prop
  | write b position bytes => ∃ usable, h.usableSize b = .ok usable ∧
      position + bytes.length ≤ usable
  | _ => True

/-- The request keeps to the rules: the block that it names is one of the client's, and what it
writes fits into the payload. -/
structure Allowed (request : Request) (h : Heap n) (live : Live) : Prop where
  has : ∀ b, request.argument = some b → ∃ size, (b, size) ∈ live
  fits : request.Fits h

end Request

/-- A client that keeps to the rules may come to the heap `h` with the blocks `live`. -/
inductive Reachable : Heap n → Live → Prop
  | buffer (capacity : Nat) (settings : Settings) : Reachable (.new (.buffer capacity) settings) []
  | mapping (reservation : Nat) (system : System) (settings : Settings) :
      Reachable (.new (.mapping reservation system) settings) []
  | step {h : Heap n} {live : Live} {request : Request} {answer : Option Block} :
      Reachable h live → request.Allowed h live → (request.operation.on h).result = .ok answer →
      Reachable (request.operation.on h).state (live.after request answer)

/-! ## What the client has -/

/-- The blocks of the layout in use are those that the client has, each as large as it needs it. -/
structure Layout.Backs (xs : List Extent) (live : Live) : Prop where
  offsets : ((used xs).map (·.offset)).Perm (live.map (·.1.offset))
  large : ∀ e ∈ live, ∃ x ∈ used xs, x.offset = e.1.offset ∧ e.2 + Size.overhead ≤ x.size

namespace Layout.Backs

variable {xs ys pre post : List Extent} {live : Live} {b : Block} {size : Nat} {x y : Extent}

theorem nil (h : used xs = []) : Backs xs [] := by
  refine ⟨?_, nofun⟩
  rw [h]
  exact .nil

theorem congr (h : Backs xs live) (hu : used ys = used xs) : Backs ys live := by
  obtain ⟨ho, hl⟩ := h
  rw [← hu] at ho hl
  exact ⟨ho, hl⟩

/-- The client has one block more. -/
theorem add (h : Backs xs live) (hperm : (used ys).Perm (y :: used xs)) (hy : y.offset = b.offset)
    (hs : size + Size.overhead ≤ y.size) : Backs ys ((b, size) :: live) := by
  refine ⟨?_, fun e he => ?_⟩
  · refine (hperm.map _).trans ?_
    rw [List.map_cons, List.map_cons, hy]
    exact h.offsets.cons _
  · rcases List.mem_cons.mp he with rfl | he
    · exact ⟨y, hperm.symm.subset (List.mem_cons_self ..), hy, hs⟩
    · obtain ⟨x, hx, hxe⟩ := h.large e he
      exact ⟨x, hperm.symm.subset (List.mem_cons_of_mem _ hx), hxe⟩

/-- The client has one block less. -/
theorem remove (h : Backs (pre ++ x :: post) live) (hx : x.allocated = true)
    (hb : b.offset = x.offset) (hne : ∀ z ∈ pre ++ post, z.offset ≠ x.offset) :
    Backs (pre ++ post) (live.without (some b)) := by
  have hsplit := used_append_cons hx pre post
  have hrest : ∀ z ∈ used (pre ++ post), z.offset ≠ x.offset := fun z hz =>
    hne z (mem_used.1 hz).1
  refine ⟨?_, fun e he => ?_⟩
  · have hp := ((hsplit.map (·.offset)).symm.trans h.offsets).filter (· ≠ x.offset)
    rw [List.map_cons, List.filter_cons_of_neg (by simp), List.filter_eq_self.2,
      List.filter_map] at hp
    · -- The client's blocks lie where those in use do, so dropping the place drops the block.
      refine hp.trans (.of_eq (congrArg _ (List.filter_congr fun e _ => ?_)))
      simp only [Function.comp_apply, ne_eq, Option.some.injEq, Block.ext_iff, hb]
    · intro o ho
      obtain ⟨z, hz, rfl⟩ := List.mem_map.1 ho
      exact decide_eq_true (hrest z hz)
  · obtain ⟨he, hne'⟩ := Live.mem_without.1 he
    obtain ⟨z, hz, hze, hs⟩ := h.large e he
    refine ⟨z, ?_, hze, hs⟩
    rcases List.mem_cons.mp (hsplit.subset hz) with rfl | hz
    · exact absurd (congrArg some (Block.ext (hze.symm.trans hb.symm))) hne'
    · exact hz

/-- A block that the client has is one of the layout. -/
theorem split (h : Backs xs live) (hb : (b, size) ∈ live) :
    ∃ pre x post, xs = pre ++ x :: post ∧ x.allocated = true ∧ b.offset = x.offset := by
  obtain ⟨x, hx, hxb, -⟩ := h.large _ hb
  obtain ⟨hmem, hu⟩ := mem_used.1 hx
  obtain ⟨pre, post, rfl⟩ := List.append_of_mem hmem
  exact ⟨pre, x, post, rfl, hu, hxb.symm⟩

end Layout.Backs

/-! ## Serving a client -/

namespace Heap

/-- The heap serves a client that has the blocks `live`: those are its blocks in use, or there is
neither a layout nor a block. -/
inductive Serves (h : Heap n) : Live → Prop
  | vacant : h.Vacant → Serves h []
  | shaped {p : Block} {xs : List Extent} {live : Live} :
      h.Shaped p xs → Layout.Backs xs live → Serves h live

/-- What the payload of `b` held is what the payload of `q` holds now, as far as both reach. -/
def Carries (h h' : Heap n) (b q : Block) : Prop :=
  ∃ old new, h.payloadBytes b = .ok old ∧ h.usableSize b = .ok old.length ∧
    h'.payloadBytes q = .ok new ∧ h'.usableSize q = .ok new.length ∧
    new.take (min old.length new.length) = old.take (min old.length new.length)

variable {h h' : Heap n} {run run' : Run n} {p b : Block} {xs ys zs pre post : List Extent}
  {x y : Extent} {live : Live}

theorem Serves.sound (hs : h.Serves live) : h.region.Sound := by
  cases hs with
  | vacant hv => exact hv.sound
  | shaped g _ => exact g.sound

/-- Where the blocks of `zs` stay and their bytes are spared, their owner sees no change. -/
theorem Shaped.keeps (g : run.heap.Shaped p xs) (g' : run'.heap.Shaped p ys)
    (hbacks : Backs zs live) (hxs : used zs ⊆ used xs) (hys : used zs ⊆ used ys)
    (hk : run.Spares (Held p zs) run') : ∀ e ∈ live, run.heap.Keeps run'.heap e.1 := by
  intro e he
  obtain ⟨x, hx, hxe, -⟩ := hbacks.large e he
  obtain ⟨hmem, hu⟩ := mem_used.1 hx
  have hh := g.houses (mem_used.1 (hxs hx)).1 hxe.symm
  have hh' := g'.houses (mem_used.1 (hys hx)).1 hxe.symm
  exact hh.keeps hh' fun i hi => hk.byte i (.inr ⟨x, hmem, hu, hi⟩)

/-- Laying a heap out anew serves a client without blocks. The bytes of the blocks that it had stay.
-/
theorem layOut_served (hs : run.heap.Serves live) :
    layOut.Ensures run fun _ run' =>
      run'.heap.Serves [] ∧ ∀ e ∈ live, run.heap.Keeps run'.heap e.1 := by
  refine (layOut_ensures hs.sound).mono ?_
  rintro answer run' ⟨-, hbytes, -, hspec⟩
  have hend : run'.heap.Serves [] ∧ run.heap.memory.size ≤ run'.heap.memory.size ∧
      run'.heap.memory.size ≤ Region.maxSize := by
    have shaped : ∀ {p ys}, p.offset = run.heap.size + 8 → run'.heap.Shaped p ys → used ys = [] →
        run'.heap.Serves [] ∧ run.heap.memory.size ≤ run'.heap.memory.size ∧
          run'.heap.memory.size ≤ Region.maxSize := by
      intro p ys hp g hused
      have hlo : run.heap.memory.size + 8 + 8 ≤ run'.heap.memory.size := hp ▸ g.around.before.le
      exact ⟨.shaped g (.nil hused), by omega, g.size_le⟩
    cases answer with
    | error _ =>
        rcases hspec with ⟨hv, hm⟩ | ⟨p, hp, g⟩
        · exact ⟨.vacant hv, Nat.le_of_eq (congrArg _ hm).symm,
            Nat.le_trans hv.sound.size_le hv.sound.limit_le⟩
        · exact shaped hp g rfl
    | ok _ =>
        obtain ⟨p, hp, g⟩ := hspec
        exact shaped hp g rfl
  refine ⟨hend.1, fun e he => ?_⟩
  cases hs with
  | vacant _ => exact nomatch he
  | shaped g hbacks =>
      obtain ⟨x, hx, hxe, -⟩ := hbacks.large e he
      have hh := g.houses (mem_used.1 hx).1 hxe.symm
      have hstop := hh.within.stop_le
      -- The new sentinels lie behind the old epilogue, and so behind every old block.
      have hkept : ∀ i, x.Covers i → run'.heap.memory.byte i = run.heap.memory.byte i :=
        fun i hi => hbytes i (Nat.lt_of_lt_of_le (Nat.lt_of_add_right_lt hi.2) hstop)
      exact hh.keeps (hh.of_bytes hend.2.1 hend.2.2 hkept) hkept

theorem allocate_served (hs : run.heap.Serves live) (size : Nat) :
    (allocate size).Ensures run fun answer run' =>
      run'.heap.Serves (live.after (.allocate size) answer) ∧
        ∀ e ∈ live, run.heap.Keeps run'.heap e.1 := by
  by_cases hsize : size = 0
  · rw [allocate, if_pos hsize]
    exact .pure ⟨hs, fun _ _ => .refl ..⟩
  cases hs with
  | vacant hv =>
      refine (allocate_ensures_of_vacant hv hsize).mono ?_
      rintro (_ | b) run' hspec
      · refine ⟨?_, List.forall_mem_nil _⟩
        rcases hspec with ⟨-, hv' | ⟨p, ys, g, hused⟩⟩
        · exact .vacant hv'
        · exact .shaped g (.nil hused)
      · obtain ⟨p, ys, y, g, -, hyb, hys, hused⟩ := hspec
        have hnone : Backs [] [] := .nil rfl
        exact ⟨.shaped g (hnone.add (.of_eq hused) hyb hys), List.forall_mem_nil _⟩
  | shaped g hbacks =>
      refine (allocate_ensures g hsize).mono ?_
      rintro (_ | b) run' hspec
      · rw [hspec.2.heap_eq]
        exact ⟨.shaped g hbacks, fun _ _ => .refl ..⟩
      · obtain ⟨-, ⟨ys, y, g', -, hyb, hys, hperm, hk⟩, -⟩ := hspec
        exact ⟨.shaped g' (hbacks.add hperm hyb hys),
          g.keeps g' hbacks (fun _ h => h) (fun _ h => hperm.symm.subset (.tail _ h)) hk⟩

/-- A block that the client has is in use, and the client's other blocks are the others in use. -/
theorem Shaped.others (g : h.Shaped p xs) (hbacks : Backs xs live) {size : Nat}
    (hb : (b, size) ∈ live) : ∃ pre x post, xs = pre ++ x :: post ∧ x.allocated = true ∧
      b.offset = x.offset ∧ Backs (pre ++ post) (live.without (some b)) ∧
      used (pre ++ post) ⊆ used xs := by
  obtain ⟨pre, x, post, rfl, hx, hbx⟩ := hbacks.split hb
  have hsplit := used_append_cons hx pre post
  have around := (g.gap hx).1.around
  have hlarge : 16 ≤ x.size := (g.gap hx).2.1.large
  refine ⟨pre, x, post, rfl, hx, hbx, hbacks.remove hx hbx fun z hz => ?_,
    fun _ h => hsplit.symm.subset (.tail _ h)⟩
  obtain ⟨-, -, hz, -, hzx⟩ := around.mem_bounds hz
  have hz : 16 ≤ z.size := hz
  omega

/-- A vacant heap serves a client that has no block to name. -/
theorem Serves.shaped_of_mem (hs : h.Serves live) {e : Block × Nat} (he : e ∈ live) :
    ∃ p xs, h.Shaped p xs ∧ Backs xs live := by
  cases hs with
  | vacant _ => exact nomatch he
  | shaped g hbacks => exact ⟨_, _, g, hbacks⟩

theorem free_served (hs : run.heap.Serves live) {size : Nat} (hb : (b, size) ∈ live) :
    (free (some b)).Ensures run fun _ run' =>
      run'.heap.Serves (live.without (some b)) ∧
        ∀ e ∈ live.without (some b), run.heap.Keeps run'.heap e.1 := by
  obtain ⟨p, xs, g, hbacks⟩ := hs.shaped_of_mem hb
  obtain ⟨pre, x, post, rfl, hx, hbx, hrest, hsub⟩ := g.others hbacks hb
  refine (free_ensures g hx hbx).mono ?_
  rintro _ run' ⟨g', hk⟩
  have hused : used (merge (pre ++ { x with allocated := false } :: post)) =
      used (pre ++ post) := by
    rw [used_merge, used_append_cons_of_free rfl]
  exact ⟨.shaped g' (hrest.congr hused), g.keeps g' hrest hsub (fun _ h => hused ▸ h) hk⟩

/-- A block that was resized carries its payload over. -/
theorem Shaped.carries {q : Block} {newSize : Nat} (g : run.heap.Shaped p (pre ++ x :: post))
    (hb : b.offset = x.offset) (hr : run.Resized p pre x post newSize q run') :
    run.heap.Carries run'.heap b q := by
  obtain ⟨ys, y, g', hyu, hyq, -, hperm, hbytes, -⟩ := hr
  have hh := g.houses (x := x) (by simp) hb
  have hh' := g'.houses (mem_used.1 (hperm.symm.subset (List.mem_cons_self ..))).1 hyq.symm
  refine ⟨_, _, hh.payloadBytes_eq_ok, ?_, hh'.payloadBytes_eq_ok, ?_, ?_⟩
  · rw [Memory.length_extract, hh.usableSize_eq_ok]
  · rw [Memory.length_extract, hh'.usableSize_eq_ok]
  · rw [Memory.length_extract, Memory.length_extract]
    refine List.ext_getElem (by simp) fun i hi _ => ?_
    simp only [List.length_take, Memory.length_extract] at hi
    rw [List.getElem_take, List.getElem_take, Memory.getElem_extract, Memory.getElem_extract, hb,
      ← hyq]
    exact hbytes i (by omega) (by omega)

theorem reallocate_served (hs : run.heap.Serves live) {old : Nat} (hb : (b, old) ∈ live)
    (size : Nat) :
    (reallocate (some b) size).Ensures run fun answer run' =>
      run'.heap.Serves (live.after (.reallocate (some b) size) answer) ∧
        (∀ e ∈ live.without (some b), run.heap.Keeps run'.heap e.1) ∧
        ∀ q, answer = some q → run.heap.Carries run'.heap b q := by
  by_cases hsize : size = 0
  · rw [reallocate, if_pos hsize]
    refine .bind (free_served hs hb) ?_
    rintro _ run' ⟨hs', hkeeps⟩
    refine .pure ⟨?_, hkeeps, by rintro _ ⟨⟩⟩
    rw [Live.after, if_pos hsize]
    exact hs'
  obtain ⟨p, xs, g, hbacks⟩ := hs.shaped_of_mem hb
  obtain ⟨pre, x, post, rfl, hx, hbx, hrest, hsub⟩ := g.others hbacks hb
  refine (reallocate_ensures g hx hbx hsize).mono ?_
  rintro (_ | q) run' hspec
  · rw [hspec.2.heap_eq, Live.after, if_neg hsize]
    exact ⟨hs, fun _ _ => .refl .., by rintro _ ⟨⟩⟩
  · obtain ⟨need, hneed, hr⟩ := hspec
    have hcarries := g.carries hbx hr
    obtain ⟨ys, y, g', hyu, hyq, hys, hperm, -, hk⟩ := hr
    have hlarge := Nat.le_trans (Size.ofRequest?_eq_some hneed).2.2.2 hys
    refine ⟨.shaped g' (hrest.add hperm hyq hlarge),
      g.keeps g' hrest hsub (fun _ h => hperm.symm.subset (.tail _ h)) hk, ?_⟩
    rintro _ ⟨⟩
    exact hcarries

theorem write_served (hs : run.heap.Serves live) {size position usable : Nat} {bytes : List UInt8}
    (hb : (b, size) ∈ live) (husable : run.heap.usableSize b = .ok usable)
    (hfits : position + bytes.length ≤ usable) :
    (writePayload b position bytes).Ensures run fun _ run' =>
      run'.heap.Serves live ∧ ∀ e ∈ live.without (some b), run.heap.Keeps run'.heap e.1 := by
  obtain ⟨p, xs, g, hbacks⟩ := hs.shaped_of_mem hb
  obtain ⟨pre, x, post, rfl, hx, hbx, hrest, hsub⟩ := g.others hbacks hb
  rw [(g.houses (x := x) (by simp) hbx).usableSize_eq_ok] at husable
  obtain rfl := Except.ok.inj husable
  refine (writePayload_ensures g hx hbx hfits).mono ?_
  rintro _ run' ⟨g', hk⟩
  exact ⟨.shaped g' hbacks, g.keeps g' hrest hsub hsub hk⟩

end Heap

/-! ## Runs -/

/-- What a client finds after a request: it is still served, the blocks that the request did not
name are as they were, and a block that was resized has its payload. -/
structure Request.Served (request : Request) (h : Heap n) (live : Live) (answer : Option Block)
    (h' : Heap n) : Prop where
  serves : h'.Serves (live.after request answer)
  keeps : ∀ e ∈ live.without request.argument, h.Keeps h' e.1
  carries : ∀ b size q, request = .reallocate (some b) size → answer = some q → h.Carries h' b q

/-- **EVERY REQUEST** that keeps to the rules is answered, and the client is served after it. -/
theorem Request.ensures_served {run : Run n} {live : Live} {request : Request}
    (hs : run.heap.Serves live) (ha : request.Allowed run.heap live) :
    request.operation.Ensures run fun answer run' =>
      request.Served run.heap live answer run'.heap := by
  cases request with
  | layOut =>
      have hlay : Ensures (discard Heap.layOut) run fun _ run' =>
          run'.heap.Serves [] ∧ ∀ e ∈ live, run.heap.Keeps run'.heap e.1 :=
        .discard (Heap.layOut_served hs)
      refine .bind hlay ?_
      rintro _ run' ⟨hs', hkeeps⟩
      exact .pure ⟨hs', by simpa only [argument, Live.without_none] using hkeeps, nofun⟩
  | allocate size =>
      refine (Heap.allocate_served hs size).mono ?_
      rintro answer run' ⟨hs', hkeeps⟩
      exact ⟨hs', by simpa only [argument, Live.without_none] using hkeeps, nofun⟩
  | free b? =>
      cases b? with
      | none =>
          refine .bind_ok rfl (.pure ⟨?_, fun _ _ => .refl .., nofun⟩)
          rw [Live.after, Live.without_none]
          exact hs
      | some b =>
          obtain ⟨size, hb⟩ := ha.has b rfl
          refine .bind (Heap.free_served hs hb) ?_
          rintro _ run' ⟨hs', hkeeps⟩
          exact .pure ⟨hs', hkeeps, nofun⟩
  | reallocate b? size =>
      cases b? with
      | none =>
          refine (Heap.allocate_served hs size).mono ?_
          rintro answer run' ⟨hs', hkeeps⟩
          refine ⟨?_, by simpa only [argument, Live.without_none] using hkeeps, nofun⟩
          cases answer <;> simpa [Live.after] using hs'
      | some b =>
          obtain ⟨old, hb⟩ := ha.has b rfl
          refine (Heap.reallocate_served hs hb size).mono ?_
          rintro answer run' ⟨hs', hkeeps, hcarries⟩
          refine ⟨hs', hkeeps, ?_⟩
          rintro _ _ q ⟨⟩
          exact hcarries q
  | write b position bytes =>
      obtain ⟨size, hb⟩ := ha.has b rfl
      obtain ⟨usable, husable, hfits⟩ := ha.fits
      refine .bind (Heap.write_served hs hb husable hfits) ?_
      rintro _ run' ⟨hs', hkeeps⟩
      exact .pure ⟨hs', hkeeps, nofun⟩

/-- A request as its client sees it. -/
theorem Request.served {h : Heap n} {live : Live} {request : Request} (hs : h.Serves live)
    (ha : request.Allowed h live) :
    ∃ answer, (request.operation.on h).result = .ok answer ∧
      request.Served h live answer (request.operation.on h).state := by
  have hx : request.operation.Ensures ⟨h, []⟩ fun answer run' =>
      request.Served h live answer run'.heap := ensures_served hs ha
  obtain ⟨answer, _, hresult, hserved⟩ := on_of_ensures hx
  exact ⟨answer, hresult, hserved⟩

/-- What a client finds after a request that was answered. -/
theorem Request.served_of_result {h : Heap n} {live : Live} {request : Request}
    {answer : Option Block} (hs : h.Serves live) (ha : request.Allowed h live)
    (hresult : (request.operation.on h).result = .ok answer) :
    request.Served h live answer (request.operation.on h).state := by
  obtain ⟨answer', hresult', hserved⟩ := Request.served hs ha
  rwa [Except.ok.inj (hresult.symm.trans hresult')]

/-- **IN EVERY RUN** the heap serves its client. -/
theorem Reachable.serves {h : Heap n} {live : Live} (hr : Reachable h live) : h.Serves live := by
  induction hr with
  | buffer capacity settings => exact .vacant ⟨rfl, rfl, Region.sound_buffer capacity⟩
  | mapping reservation system settings =>
      exact .vacant ⟨rfl, rfl, Region.sound_mapping reservation system⟩
  | step _ ha hanswer ih => exact (Request.served_of_result ih ha hanswer).serves

end TagHeap
