import TagHeap.Proofs.Spaces
import TagHeap.Proofs.Supplying

/-!
# Snugness

How much of a block in use goes to waste. A block is handed out as a whole number of granules, and
what is left of the free bytes that it is cut from stays in it when that is too little for a block
of its own, which is at most one granule. So a block is SNUG: it has the size that serves its
request, or one granule more.

Every plan makes the block snug that it is made for (`Tiles.serve?_snug`, `Tiles.resize?_snug`), and
it leaves the other blocks in use as they are. A heap behaves as its outline, which follows these
plans, so all blocks are snug after every request (`Outline.serve_snug`) and therefore in every run
(`Reachable.waste_bounded`). Which of the many ways a block has come to its place does not matter.
-/

namespace TagHeap

open Layout

/-- The block is as large as a request of `size` bytes needs, or one granule larger. -/
def Extent.Snug (x : Extent) (size : Nat) : Prop :=
  ∃ need, Size.ofRequest? size = some need ∧ (x.size = need ∨ x.size = need + Size.granule)

/-- Each block of the client is in use, and no larger than it should be. -/
def Layout.Snug (xs : List Extent) (live : Live) : Prop :=
  ∀ e ∈ live, ∃ x ∈ used xs, x.offset = e.1.offset ∧ x.Snug e.2

namespace Layout

variable {xs ys pre post taken : List Extent} {x y : Extent} {live : Live} {b : Block}
  {size need total o : Nat} {s : Space}

theorem Snug.mono (h : Snug xs live) (hs : used xs ⊆ used ys) : Snug ys live := by
  intro e he
  obtain ⟨x, hx, hxe, hsnug⟩ := h e he
  exact ⟨x, hs hx, hxe, hsnug⟩

/-- The blocks that lie elsewhere are enough for a client that gave one back. -/
theorem Snug.without (h : Snug xs live)
    (hs : ∀ x ∈ used xs, x.offset ≠ b.offset → x ∈ used ys) :
    Snug ys (live.without (some b)) := by
  intro e he
  obtain ⟨hlive, hne⟩ := Live.mem_without.1 he
  obtain ⟨x, hx, hxe, hsnug⟩ := h e hlive
  refine ⟨x, hs x hx fun hxb => hne ?_, hxe, hsnug⟩
  rw [Block.ext (hxe.symm.trans hxb)]

theorem Snug.add (h : Snug xs live) (hy : ∃ y ∈ used xs, y.offset = b.offset ∧ y.Snug size) :
    Snug xs ((b, size) :: live) := by
  intro e he
  rcases List.mem_cons.mp he with rfl | he
  · exact hy
  · exact h e he

/-! ## Blocks that are cut out -/

/-- A cut leaves nothing or one granule more than is wanted. -/
theorem fitted_eq (ht : total % 8 = 0) (hs : need % 8 = 0) (hle : need ≤ total) :
    fitted total need = need ∨ fitted total need = need + Size.granule := by
  rw [fitted]
  split
  · next hfew =>
    simp only [Size.minBlock, Size.granule] at *
    omega
  · exact .inl rfl

/-- The block that is carved out lies where the plan says, and it is snug. -/
theorem exists_mem_carved (hneed : Size.ofRequest? size = some need) (h8 : x.size % 8 = 0)
    (hle : need ≤ x.size) (tailLimit : Nat) :
    ∃ y ∈ carved tailLimit x need, y.allocated = true ∧ y.offset = carvedAt tailLimit x need ∧
      y.Snug size := by
  obtain ⟨-, hneed8, -⟩ := Size.ofRequest?_eq_some hneed
  rw [carved, carvedAt]
  split
  · exact ⟨_, List.mem_cons_of_mem _ (List.mem_singleton_self _), rfl, rfl, need, hneed, .inl rfl⟩
  · obtain ⟨rest, hocc, -⟩ := occupied_eq x.offset x.size need
    rw [hocc]
    exact ⟨_, List.mem_cons_self .., rfl, rfl, need, hneed, fitted_eq h8 hneed8 hle⟩

/-- It lies inside of the free block that it is carved out of. -/
theorem carvedAt_bounds (tailLimit : Nat) (hle : need ≤ x.size) (hpos : 0 < need) :
    x.offset ≤ carvedAt tailLimit x need ∧
      carvedAt tailLimit x need < x.offset + x.size := by
  rw [carvedAt]
  split <;> omega

/-- Only the block that was taken back is no longer in use. -/
theorem mem_used_takeBack (hx : x ∈ used xs) (ho : x.offset ≠ o) : x ∈ used (takeBack o xs) := by
  obtain ⟨hmem, hu⟩ := mem_used.1 hx
  have hkept : (!([o] : List Nat).contains x.offset) = true := by simpa using ho
  rw [takeBack, used_merge, mem_used]
  refine ⟨List.mem_map.2 ⟨x, hmem, ?_⟩, hu⟩
  rw [hkept, Bool.and_true]

/-! ## Blocks that fill a space -/

theorem Space.MadeOf.used_eq (hs : s.MadeOf taken xs x) :
    used xs = used s.pre ++ x :: used s.post := by
  rw [hs.layout, used_append, used_append, hs.own, List.append_assoc, List.singleton_append]

/-- A space that is filled has one block in use, and the blocks around it are what they were. -/
theorem Space.MadeOf.used_fill (hs : s.MadeOf taken xs x) (hc : Coalesced xs) :
    used (s.fill need) =
      used s.pre ++ ⟨s.offset, fitted s.total need, true⟩ :: used s.post := by
  rw [hs.layout] at hc
  obtain ⟨hfront, hpost, -⟩ := coalesced_append.1 hc
  obtain ⟨rest, hocc, hrest⟩ := occupied_eq s.offset s.total need
  rw [fill, ← merge_occupied (coalesced_append.1 hfront).1 hpost, used_merge, used_append,
    used_append, hocc, used_cons_of_allocated rfl, show used rest = [] from hrest,
    List.append_assoc, List.singleton_append]

/-- The spaces around a block are whole granules. -/
theorem total_mod_of_mem_spaces (h : ∀ y ∈ pre ++ x :: post, y.size % 8 = 0)
    (hneed : need % 8 = 0) (hs : s ∈ spaces need pre x post) : s.total % 8 = 0 := by
  have hx : x.size % 8 = 0 := h x (List.mem_append_right _ (List.mem_cons_self ..))
  simp only [spaces, List.mem_cons, List.mem_append, Option.mem_toList] at hs
  rcases hs with rfl | ((hs | hs) | hs) | hs
  · exact hx
  · cases post with
    | nil => cases hs
    | cons y ys =>
        have hy : y.size % 8 = 0 := h y (by simp)
        rw [withNext?, Option.ite_none_left_eq_some] at hs
        obtain ⟨-, ⟨⟩⟩ := hs
        dsimp only
        omega
  · cases post with
    | nil =>
        cases hs
        dsimp only
        omega
    | cons y ys => cases hs
  · obtain ⟨z, hz, hs⟩ := Option.bind_eq_some_iff.1 hs
    have hz : z.size % 8 = 0 := h z (List.mem_append_left _ (List.mem_of_getLast? hz))
    rw [Option.ite_none_left_eq_some] at hs
    obtain ⟨-, ⟨⟩⟩ := hs
    dsimp only
    omega
  · cases post with
    | nil => cases hs
    | cons y ys =>
        have hy : y.size % 8 = 0 := h y (by simp)
        obtain ⟨z, hz, hs⟩ := Option.bind_eq_some_iff.1 hs
        have hz : z.size % 8 = 0 := h z (List.mem_append_left _ (List.mem_of_getLast? hz))
        rw [Option.ite_none_left_eq_some] at hs
        obtain ⟨-, ⟨⟩⟩ := hs
        dsimp only
        omega

end Layout

/-! ## Plans -/

namespace Tiles

variable {lo hi stop spare size need o : Nat} {xs ys pre post : List Extent} {x : Extent}
  {settings : Settings}

/-- A block that is placed in a free one is snug and takes nobody's place. -/
theorem place?_snug {tailLimit : Nat} (h : Tiles lo xs hi)
    (hneed : Size.ofRequest? size = some need)
    (hplan : place? tailLimit need xs = some (o, ys)) :
    lo ≤ o ∧ (∃ y ∈ used ys, y.offset = o ∧ y.Snug size) ∧ used xs ⊆ used ys ∧
      ∀ x ∈ used xs, x.offset ≠ o := by
  obtain ⟨hmin, -⟩ := Size.ofRequest?_eq_some hneed
  have hpos : 0 < need := Nat.lt_of_lt_of_le (by decide) hmin
  cases hfit : bestFit? need xs with
  | none =>
      rw [place?_eq_none (bestFit?_eq_none.1 hfit)] at hplan
      cases hplan
  | some x =>
      have hx := (bestFit?_eq_some h).1 hfit
      obtain ⟨pre, post, rfl⟩ := List.append_of_mem hx.mem
      rw [place?_eq_some h hx] at hplan
      cases hplan
      obtain ⟨mid, hpre, rfl, -, h8, hpost⟩ := tiles_append.1 h
      obtain ⟨y, hy, hyu, hyo, hsnug⟩ := exists_mem_carved hneed h8 hx.large tailLimit
      obtain ⟨-, hperm⟩ := used_carved hx.free hx.large hy hyu pre post
      obtain ⟨hstart, hstop⟩ := carvedAt_bounds tailLimit hx.large hpos
      refine ⟨Nat.le_trans hpre.le hstart,
        ⟨y, hperm.symm.subset (List.mem_cons_self ..), hyo, hsnug⟩,
        fun _ h => hperm.symm.subset (List.mem_cons_of_mem _ h), fun z hz => ?_⟩
      rw [used_append_cons_of_free hx.free, mem_used] at hz
      -- The other blocks end in front of the free one, or start behind it.
      rcases List.mem_append.mp hz.1 with hz | hz
      · have hb := hpre.bounds hz
        have hlarge : 16 ≤ z.size := hb.2.2.1
        omega
      · have hb := hpost.bounds hz
        omega

theorem serve?_snug (h : Tiles lo xs stop) (hneed : Size.ofRequest? size = some need)
    (hplan : serve? settings stop spare need xs = some (o, ys)) :
    lo ≤ o ∧ (∃ y ∈ used ys, y.offset = o ∧ y.Snug size) ∧ used xs ⊆ used ys ∧
      ∀ x ∈ used xs, x.offset ≠ o := by
  obtain ⟨hmin, h8, -⟩ := Size.ofRequest?_eq_some hneed
  rw [serve?, Option.or_eq_some_iff] at hplan
  rcases hplan with hplan | ⟨-, hplan⟩
  · exact h.place?_snug hneed hplan
  · rw [Option.ite_none_right_eq_some] at hplan
    have hextended := (h.extended_for hmin h8 settings).place?_snug hneed hplan.2
    rwa [extend, used_merge, used_append_cons_of_free rfl, List.append_nil] at hextended

/-- A block that is resized is snug, wherever it is then, and the others stay. -/
theorem resize?_snug (h : Tiles lo (pre ++ x :: post) stop) (hc : Coalesced (pre ++ x :: post))
    (hx : x.allocated = true) (hneed : Size.ofRequest? size = some need)
    (hplan : resize? settings stop spare need pre x post = some (o, ys)) :
    lo ≤ o ∧ (∃ y ∈ used ys, y.offset = o ∧ y.Snug size) ∧
      ∀ y ∈ used (pre ++ x :: post), y.offset ≠ x.offset → y ∈ used ys := by
  obtain ⟨-, h8, -⟩ := Size.ofRequest?_eq_some hneed
  have hgrow : ∀ k, (fun k => decide (k ≤ spare)) k = decide (k ≤ spare) := fun _ => rfl
  rw [resize?_eq hgrow hc] at hplan
  split at hplan
  · next s hfind =>
    cases hplan
    have hmem := List.mem_of_find?_eq_some hfind
    have hfits := List.find?_some hfind
    rw [Space.fits, Bool.and_eq_true, decide_eq_true_eq] at hfits
    obtain ⟨taken, hmade⟩ := madeOf_of_mem_spaces hx hmem
    have htotal := total_mod_of_mem_spaces (fun y hy => (h.bounds hy).2.2.2) h8 hmem
    have hstart : lo ≤ s.offset := by
      obtain ⟨t, ht, hts⟩ := Option.map_eq_some_iff.1 hmade.offset
      have hin : t ∈ pre ++ x :: post := by
        rw [hmade.layout]
        exact List.mem_append_left _ (List.mem_append_right _ (List.mem_of_mem_head? ht))
      exact hts ▸ (h.bounds hin).1
    rw [hmade.used_fill hc, hmade.used_eq]
    refine ⟨hstart, ⟨_, List.mem_append_right _ (List.mem_cons_self ..), rfl, need, hneed,
      fitted_eq htotal h8 hfits.1⟩, fun y hy hne => ?_⟩
    rcases List.mem_append.mp hy with hy | hy
    · exact List.mem_append_left _ hy
    · rcases List.mem_cons.mp hy with rfl | hy
      · exact absurd rfl hne
      · exact List.mem_append_right _ (List.mem_cons_of_mem _ hy)
  · obtain ⟨⟨o', zs⟩, hserve, hback⟩ := Option.map_eq_some_iff.1 hplan
    cases hback
    obtain ⟨hstart, ⟨y, hy, rfl, hsnug⟩, hkeeps, hfresh⟩ := h.serve?_snug hneed hserve
    have hxu : x ∈ used (pre ++ x :: post) := mem_used.2 ⟨by simp, hx⟩
    -- The new block does not lie where the old one does, which is given back.
    exact ⟨hstart, ⟨y, mem_used_takeBack hy (hfresh x hxu).symm, rfl, hsnug⟩,
      fun z hz hne => mem_used_takeBack (hkeeps hz) hne⟩

end Tiles

/-! ## Outlines -/

namespace Outline

variable {o : Outline} {live : Live} {b : Block} {size : Nat}

/-- The blocks of the outline tile all that lies behind its prologue, and no two free ones touch. -/
def Tidy (o : Outline) : Prop :=
  match o.content with
  | .vacant _ => True
  | .blocks p xs => Tiles (p.offset + 8) xs o.size ∧ Coalesced xs

/-- A block that is handed out is snug. -/
private theorem handOut_snug (ht : o.Tidy) (hs : Snug o.layout live) (size : Nat) :
    Snug (o.handOut size).2.layout (live.after (.allocate size) (o.handOut size).1) := by
  rw [Tidy] at ht
  rw [handOut]
  cases hcontent : o.content with
  | vacant _ => exact hs
  | blocks p xs =>
      rw [hcontent] at ht
      have hlayout : o.layout = xs := by rw [layout, hcontent]
      cases hneed : Size.ofRequest? size with
      | none => exact hs
      | some need =>
          dsimp only
          cases hplan : serve? o.settings o.size o.spare need xs with
          | none => exact hs
          | some plan =>
              obtain ⟨q, ys⟩ := plan
              obtain ⟨hstart, hnew, hkeeps, -⟩ := ht.1.serve?_snug hneed hplan
              rw [hlayout] at hs
              rw [follow, Block.ofOffset?_of_pos (Nat.lt_of_lt_of_le (Nat.succ_pos _) hstart)]
              exact (hs.mono hkeeps).add hnew

/-- An outline that is laid out first is tidy then, and a client that has come before it has no
block. -/
private theorem allocate_snug (ht : o.Tidy) (hlaid : o.layOut.2.Tidy) (hs : Snug o.layout live)
    (size : Nat) :
    Snug (o.allocate size).2.layout (live.after (.allocate size) (o.allocate size).1) := by
  rw [allocate]
  split
  · exact hs
  cases hcontent : o.content with
  | blocks p xs => exact handOut_snug ht hs size
  | vacant _ =>
      have hnone : Snug o.layOut.2.layout live := by
        intro e he
        obtain ⟨x, hx, -⟩ := hs e he
        rw [layout, hcontent] at hx
        cases hx
      cases hlay : o.layOut with
      | mk result o' =>
          rw [hlay] at hlaid hnone
          cases result with
          | error _ => exact hnone
          | ok _ => exact handOut_snug hlaid hnone size

/-- Giving a block back leaves the other ones alone. -/
private theorem free_snug (hs : Snug o.layout live) (b : Block) :
    Snug (o.free (some b)).layout (live.without (some b)) := by
  refine hs.without fun x hx hne => ?_
  rw [layout] at hx
  cases hcontent : o.content with
  | vacant _ =>
      rw [hcontent] at hx
      cases hx
  | blocks p xs =>
      rw [hcontent] at hx
      simp only [free, hcontent]
      exact mem_used_takeBack hx hne

/-- A block that was resized is snug. One that was not is what it was. -/
private theorem reallocate_snug {old : Nat} (ht : o.Tidy) (hs : Snug o.layout live)
    (hb : (b, old) ∈ live) (hsize : size ≠ 0) :
    Snug (o.reallocate (some b) size).2.layout
      (live.after (.reallocate (some b) size) (o.reallocate (some b) size).1) := by
  have hrefused : Snug o.layout (live.after (.reallocate (some b) size) none) := by
    rw [Live.after, if_neg hsize]
    exact hs
  rw [Tidy] at ht
  rw [reallocate]
  simp only [if_neg hsize]
  cases hcontent : o.content with
  | vacant _ => exact hrefused
  | blocks p xs =>
      rw [hcontent] at ht
      obtain ⟨htiles, hc⟩ := ht
      rw [layout, hcontent] at hs
      cases hneed : Size.ofRequest? size with
      | none => exact hrefused
      | some need =>
          obtain ⟨x, hx, hxb, -⟩ := hs _ hb
          obtain ⟨hmem, hu⟩ := mem_used.1 hx
          obtain ⟨pre, post, rfl⟩ := List.append_of_mem hmem
          dsimp only
          rw [← hxb, htiles.cut?_eq_some, Option.bind_some]
          dsimp only
          cases hplan : resize? o.settings o.size o.spare need pre x post with
          | none => exact hrefused
          | some plan =>
              obtain ⟨q, ys⟩ := plan
              obtain ⟨hstart, hnew, hkeeps⟩ := htiles.resize?_snug hc hu hneed hplan
              rw [follow, Block.ofOffset?_of_pos (Nat.lt_of_lt_of_le (Nat.succ_pos _) hstart)]
              exact (hs.without fun y hy hne => hkeeps y hy (hxb ▸ hne)).add hnew

/-- **EVERY REQUEST** leaves the blocks of the client snug. -/
theorem serve_snug {request : Request} (ht : o.Tidy) (hlaid : o.layOut.2.Tidy)
    (hs : Snug o.layout live)
    (hhas : ∀ b, request.argument = some b → ∃ size, (b, size) ∈ live) :
    Snug (o.serve request).2.layout (live.after request (o.serve request).1.block?) := by
  cases request with
  | layOut => exact nofun
  | allocate size => exact allocate_snug ht hlaid hs size
  | free b? =>
      cases b? with
      | none =>
          rw [Live.after, Live.without_none]
          exact hs
      | some b => exact free_snug hs b
  | reallocate b? size =>
      cases b? with
      | none =>
          have hafter : ∀ answer, live.after (.reallocate none size) answer =
              live.after (.allocate size) answer := by
            intro answer
            cases answer <;> simp [Live.after]
          rw [hafter]
          exact allocate_snug ht hlaid hs size
      | some b =>
          obtain ⟨old, hb⟩ := hhas b rfl
          by_cases hsize : size = 0
          · subst hsize
            exact free_snug hs b
          · exact reallocate_snug ht hs hb hsize
  | write b position bytes => exact hs

end Outline

/-! ## Runs -/

variable {n : Nat} [HasClass n] {h : Heap n} {live : Live} {b : Block} {size : Nat}

/-- The outline of a heap is tidy. -/
theorem Heap.HasOutline.tidy {o : Outline} (ho : h.HasOutline o) : o.Tidy := by
  have hc := ho.content
  rw [Outline.Tidy]
  cases hcontent : o.content with
  | vacant _ => trivial
  | blocks p xs =>
      rw [hcontent] at hc
      have g : h.Shaped p xs := hc
      exact ⟨ho.size_eq ▸ g.around.before, g.around.coalesced_pre⟩

/-- In every run the blocks of the client are snug. -/
theorem Reachable.snug (hr : Reachable h live) : ∃ o, h.HasOutline o ∧ Snug o.layout live := by
  induction hr with
  | buffer capacity settings =>
      exact ⟨_, (Heap.new_hasOutline (.buffer capacity) settings).1, nofun⟩
  | mapping reservation system settings =>
      exact ⟨_, (Heap.new_hasOutline (.mapping reservation system) settings).1, nofun⟩
  | @step h live request answer hr ha hanswer ih =>
      obtain ⟨o, ho, hs⟩ := ih
      obtain ⟨hreply, hafter, -⟩ := request.serve_on ho hr.serves ha
      obtain ⟨hresult, hstate⟩ := request.operation_on h
      rw [hanswer, hreply] at hresult
      obtain rfl := Except.ok.inj hresult
      have ho' : (Run.mk h []).heap.HasOutline o := ho
      obtain ⟨_, _, -, -, hlaid⟩ := Operation.on_of_ensures (Heap.layOut_outlined ho')
      exact ⟨_, hstate ▸ hafter, Outline.serve_snug ho.tidy hlaid.tidy hs ha.has⟩

/-- **NO MORE THAN ONE GRANULE IS WASTED.** In every run, whatever was asked for before, a block of
the client has the size that serves the last request for it, or eight bytes more. -/
theorem Reachable.waste_bounded (hr : Reachable h live) (hb : (b, size) ∈ live) :
    ∃ need total, Size.ofRequest? size = some need ∧ b.size h.memory = .ok total ∧
      (total = need ∨ total = need + 8) := by
  obtain ⟨o, ho, hs⟩ := hr.snug
  obtain ⟨p, xs, g, -⟩ := hr.serves.shaped_of_mem hb
  obtain ⟨x, hx, hxb, need, hneed, hsize⟩ := hs _ hb
  rw [Outline.layout, ho.content_eq g] at hx
  have hmem : x ∈ xs ++ [] := by
    rw [List.append_nil]
    exact (mem_used.1 hx).1
  exact ⟨need, x.size, hneed, g.size_eq_ok hmem hxb.symm, hsize⟩

/-- The lower block gives up 8 of its 40 payload bytes. They are too few for a block of their own,
so it keeps its size, which is a granule more than 32 payload bytes need. -/
theorem waste_bounded_twoBlocks :
    Size.ofRequest? 32 = some 40 ∧ ∃ total,
      Block.size ⟨4032, by decide⟩
        ((Heap.reallocate (some ⟨4032, by decide⟩) 32).on twoBlocks).state.memory = .ok total ∧
      (total = 40 ∨ total = 48) := by
  have hresult : ((Heap.reallocate (some ⟨4032, by decide⟩) 32).on twoBlocks).result =
      .ok (some ⟨4032, by decide⟩) := rfl
  have hr := reachable_twoBlocks.step (allowed_twoBlocks 32) hresult
  obtain ⟨need, total, hneed, htotal, hle⟩ := hr.waste_bounded (List.mem_cons_self ..)
  obtain rfl : 40 = need := Option.some.inj hneed
  exact ⟨hneed, total, htotal, hle⟩

end TagHeap
