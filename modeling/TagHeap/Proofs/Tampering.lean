import TagHeap.Proofs.Guarantees

/-!
# Tampering with a heap

Every word that a heap keeps for itself is told twice. Both ends of a block hold its tag, the nodes
of a list name each other, and the sentinels are constants. So a well-formed heap in which ONE such
word is overwritten is not well-formed, whatever the new word is and whatever the payloads hold
(`WellFormed.not_setWord`), and an audit of it names a violation.

A new size or link can lead a walk astray, into bytes that look like blocks. What rules this out is
alignment. Headers lie four bytes in front of a multiple of eight and footers at one, so a word that
is overwritten leaves all headers alone, wherever they may be, or all footers. The headers alone
determine a tiling from its start on (`Tiles.eq_of_headers`), and the footers alone from its end on
(`Tiles.eq_of_footers`). Either way the blocks are the ones that were there before, then so are the
nodes of the lists, and every word that is told twice is what its other witness says.
-/

namespace TagHeap

open Layout

variable {n : Nat} {m m' : Memory}

/-! ## Tilings -/

section Tilings

variable {lo hi : Nat} {x : Extent} {xs ys : List Extent}

/-- With a block there is something to tile. -/
theorem Tiles.lt_of_mem (h : Tiles lo xs hi) (hx : x ∈ xs) : lo < hi := by
  obtain ⟨hlo, hhi, hlarge, -⟩ := h.bounds hx
  have hlarge : 16 ≤ x.size := hlarge
  omega

/-- Two tilings of one range are the same if their blocks have the same headers. -/
theorem Tiles.eq_of_headers (hx : Tiles lo xs hi) (hy : Tiles lo ys hi) (h8 : lo % 8 = 0)
    (hlo : 8 ≤ lo) (hxs : ∀ x ∈ xs, x.Marked m) (hys : ∀ y ∈ ys, y.Marked m')
    (hsame : ∀ o, o % 8 = 0 → 8 ≤ o → m'.word (o - 4) = m.word (o - 4)) : xs = ys := by
  induction xs generalizing lo ys with
  | nil =>
      cases ys with
      | nil => rfl
      | cons y ys => exact absurd hx (Nat.ne_of_lt (hy.lt_of_mem (.head _)))
  | cons x xs ih =>
      cases ys with
      | nil => exact absurd hy (Nat.ne_of_lt (hx.lt_of_mem (.head _)))
      | cons y ys =>
          obtain ⟨hxm, hxsm⟩ := List.forall_mem_cons.1 hxs
          obtain ⟨hym, hysm⟩ := List.forall_mem_cons.1 hys
          obtain ⟨hxo, -, hx8, hxt⟩ := hx
          obtain ⟨hyo, -, -, hyt⟩ := hy
          obtain rfl : x = y := by
            rw [← hxm.header, ← hym.header, Extent.read, Extent.read, hyo, hxo, hsame lo h8 hlo]
          rw [ih hxt hyt (by omega) (by omega) hxsm hysm]

/-- A block is known by its footer and by where it ends. -/
theorem Extent.Marked.of_footer (h : x.Marked m) (hstop : x.offset + x.size = hi) :
    x = ⟨hi - (Tag.mk (m.word (hi - 8))).size, (Tag.mk (m.word (hi - 8))).size,
      (Tag.mk (m.word (hi - 8))).allocated⟩ := by
  have hfooter := h.footer
  rw [hstop] at hfooter
  rw [hfooter, h.size_eq, h.allocated_eq, ← hstop, Nat.add_sub_cancel]

/-- Two tilings of one range are the same if their blocks have the same footers. The induction takes
the blocks off at the end, where the next footer is known to be. -/
theorem Tiles.eq_of_footers (hx : Tiles lo xs hi) (hy : Tiles lo ys hi) (h8 : lo % 8 = 0)
    (hlo : 8 ≤ lo) (hxs : ∀ x ∈ xs, x.Marked m) (hys : ∀ y ∈ ys, y.Marked m')
    (hsame : ∀ o, o % 8 = 0 → 8 ≤ o → m'.word (o - 8) = m.word (o - 8)) : xs = ys := by
  induction xs using List.reverseRecOn generalizing hi ys with
  | nil =>
      cases ys with
      | nil => rfl
      | cons y ys => exact absurd hx (Nat.ne_of_lt (hy.lt_of_mem (.head _)))
  | append_singleton xs x ih =>
      rcases List.eq_nil_or_concat' ys with rfl | ⟨ys, y, rfl⟩
      · exact absurd hy (Nat.ne_of_lt (hx.lt_of_mem (List.mem_concat_self ..)))
      · have hhi := hx.hi_mod h8
        have hle := Nat.le_trans hlo hx.le
        obtain ⟨hxt, -, -, hxstop⟩ := tiles_concat.1 hx
        obtain ⟨hyt, -, -, hystop⟩ := tiles_concat.1 hy
        obtain rfl : x = y := by
          rw [(hxs x (by simp)).of_footer hxstop, (hys y (by simp)).of_footer hystop,
            hsame hi hhi hle]
        rw [ih hxt hyt (fun x hx => hxs x (List.mem_append_left _ hx))
          (fun y hy => hys y (List.mem_append_left _ hy))]

end Tilings

/-! ## Words of the heap -/

/-- The place is that of a word that the heap keeps for itself: a tag of a sentinel or of a block,
or a link of a free block. -/
inductive Metadata (m : Memory) (p : Block) (xs : List Extent) : Nat → Prop
  | prologueHeader : Metadata m p xs (p.offset - 4)
  | prologueFooter : Metadata m p xs p.offset
  | epilogue : Metadata m p xs (m.size - 4)
  | header {x : Extent} (hx : x ∈ xs) : Metadata m p xs (x.offset - 4)
  | footer {x : Extent} (hx : x ∈ xs) : Metadata m p xs (x.offset + x.size - 8)
  | before {x : Extent} (hx : x ∈ xs) (hfree : x.allocated = false) : Metadata m p xs x.offset
  | after {x : Extent} (hx : x ∈ xs) (hfree : x.allocated = false) : Metadata m p xs (x.offset + 4)

variable [HasClass n] {index : Index n} {p : Block} {x : Extent} {xs ys : List Extent}
  {nodes nodes' : Fin n → List Nat} {place : Nat} {w : UInt32}

namespace WellFormed

/-- The nodes of the lists follow from the blocks. -/
theorem nodes_eq (h : WellFormed m index p xs nodes) (h' : WellFormed m' index p xs nodes') :
    nodes' = nodes := by
  funext c
  rw [h'.nodes_eq_members, h.nodes_eq_members]

/-- A word that is overwritten at a multiple of four leaves all headers alone or all footers, and so
it leaves the blocks alone. -/
theorem blocks_eq_of_setWord (h : WellFormed m index p xs nodes)
    (h' : WellFormed (m.setWord place w) index p ys nodes') (hx : x ∈ xs) (h4 : place % 4 = 0) :
    ys = xs := by
  have h8 := h.prologue_mod hx
  have hy := h'.tiles
  rw [Memory.size_setWord] at hy
  have hlo : 8 ≤ p.offset + 8 := Nat.le_add_left ..
  have hplace : place % 8 = 0 ∨ place % 8 = 4 := by omega
  rcases hplace with hplace | hplace
  · refine (h.tiles.eq_of_headers hy (by omega) hlo h.marked h'.marked fun o ho hle => ?_).symm
    exact Memory.word_setWord_of_disjoint (by omega)
  · refine (h.tiles.eq_of_footers hy (by omega) hlo h.marked h'.marked fun o ho hle => ?_).symm
    exact Memory.word_setWord_of_disjoint (by omega)

/-- The links of a free block are determined by the blocks. -/
theorem links_eq (h : WellFormed m index p xs nodes) (h' : WellFormed m' index p xs nodes')
    (hx : x ∈ xs) (hfree : x.allocated = false) :
    m'.word x.offset = m.word x.offset ∧ m'.word (x.offset + 4) = m.word (x.offset + 4) := by
  obtain rfl := h.nodes_eq h'
  have hmem := (h.mem_nodes_iff hx hfree).2 rfl
  exact (h.threads _).word_eq (h'.threads _) hmem

/-- **NO WORD** that a well-formed heap keeps for itself can be replaced by another one so that the
heap is well-formed again. -/
theorem not_setWord (h : WellFormed m index p xs nodes) (hplace : Metadata m p xs place)
    (hw : w ≠ m.word place) : ¬ WellFormed (m.setWord place w) index p ys nodes' := by
  intro h'
  have hblocks : ∀ {x}, x ∈ xs → place % 4 = 0 → ys = xs :=
    fun hx h4 => h.blocks_eq_of_setWord h' hx h4
  have hbounds : ∀ {x}, x ∈ xs →
      x.offset % 8 = 0 ∧ x.size % 8 = 0 ∧ 16 ≤ x.offset ∧ 16 ≤ x.size := by
    intro x hx
    obtain ⟨hlo, -, hlarge⟩ := h.mem_bounds hx
    exact ⟨h.aligned x hx, (h.marked x hx).size_mod, hlo, hlarge⟩
  -- The other witness of the word tells what it was, and that one was not touched.
  suffices hsame : (m.setWord place w).word place = m.word place by
    rw [Memory.word_setWord] at hsame
    exact hw hsame
  cases hplace with
  | prologueHeader => exact h'.header.trans h.header.symm
  | prologueFooter => exact h'.footer.trans h.footer.symm
  | epilogue =>
      have hword := h'.epilogue
      rw [Memory.size_setWord] at hword
      exact hword.trans h.epilogue.symm
  | @header x hx =>
      obtain ⟨ho, hs, hlo, hlarge⟩ := hbounds hx
      obtain rfl := hblocks hx (by omega)
      have hfooter : (m.setWord (x.offset - 4) w).word (x.offset + x.size - 8) =
          m.word (x.offset + x.size - 8) := Memory.word_setWord_of_disjoint (by omega)
      calc (m.setWord (x.offset - 4) w).word (x.offset - 4)
          = (m.setWord (x.offset - 4) w).word (x.offset + x.size - 8) :=
            (h'.marked x hx).footer.symm
        _ = m.word (x.offset + x.size - 8) := hfooter
        _ = m.word (x.offset - 4) := (h.marked x hx).footer
  | @footer x hx =>
      obtain ⟨ho, hs, hlo, hlarge⟩ := hbounds hx
      obtain rfl := hblocks hx (by omega)
      have hheader : (m.setWord (x.offset + x.size - 8) w).word (x.offset - 4) =
          m.word (x.offset - 4) := Memory.word_setWord_of_disjoint (by omega)
      calc (m.setWord (x.offset + x.size - 8) w).word (x.offset + x.size - 8)
          = (m.setWord (x.offset + x.size - 8) w).word (x.offset - 4) := (h'.marked x hx).footer
        _ = m.word (x.offset - 4) := hheader
        _ = m.word (x.offset + x.size - 8) := (h.marked x hx).footer.symm
  | before hx hfree =>
      obtain ⟨ho, -, -, -⟩ := hbounds hx
      obtain rfl := hblocks hx (by omega)
      exact (h.links_eq h' hx hfree).1
  | after hx hfree =>
      obtain ⟨ho, -, -, -⟩ := hbounds hx
      obtain rfl := hblocks hx (by omega)
      exact (h.links_eq h' hx hfree).2

end WellFormed

/-! ## Audits -/

section Audits

variable {h : Heap n} {live : Live}

/-- An audit of a heap in shape, but for one word that it keeps for itself, names a violation. -/
theorem Heap.Shaped.audit_setWord (g : h.Shaped p xs) (hplace : Metadata h.memory p xs place)
    (hw : w ≠ h.memory.word place) :
    ∃ v, (h.withMemory (h.memory.setWord place w)).audit = .error (.inconsistent v) := by
  have short : (h.withMemory (h.memory.setWord place w)).size ≤ Region.maxSize := by
    show (h.memory.setWord place w).size ≤ Region.maxSize
    rw [Memory.size_setWord]
    exact g.inOrder.around.short
  have hdecides := Heap.audit_decides (h := h.withMemory (h.memory.setWord place w)) g.prologue
    short g.sum_length_lt
  cases haudit : (h.withMemory (h.memory.setWord place w)).audit with
  | ok summary =>
      obtain ⟨ys, nodes, hwell, -⟩ := (hdecides.ok_iff summary).1 haudit
      exact absurd hwell (g.inOrder.wellFormed.not_setWord hplace hw)
  | error e =>
      obtain ⟨v, rfl⟩ := hdecides.violation e haudit
      exact ⟨v, rfl⟩

/-- **EVERY CHANGE** of one word that a heap keeps for itself is noticed, in every heap that a
client can come to have, and whatever the client has written into its blocks. -/
theorem Reachable.audit_detects (hr : Reachable h live) (hp : h.prologue = some p) :
    ∃ xs, h.layout = .ok xs ∧ ∀ place, Metadata h.memory p xs place →
      ∀ w, w ≠ h.memory.word place →
        ∃ v, (h.withMemory (h.memory.setWord place w)).audit = .error (.inconsistent v) := by
  cases hr.serves with
  | vacant hv =>
      rw [hv.prologue] at hp
      exact nomatch hp
  | @shaped q xs _ g _ =>
      obtain rfl : p = q := Option.some.inj (hp.symm.trans g.prologue)
      exact ⟨xs, Heap.layout_eq_ok g, fun place hplace w hw => g.audit_setWord hplace hw⟩

/-- The link onwards of the free block is its own. If it named one of the blocks in use, an audit
would tell. -/
theorem audit_detects_twoBlocks :
    ∃ v, (twoBlocks.withMemory (twoBlocks.memory.setWord 20 4032)).audit =
      .error (.inconsistent v) := by
  obtain ⟨xs, hlayout, hdetects⟩ :=
    reachable_twoBlocks.audit_detects (p := ⟨8, by decide⟩) rfl
  have hxs : twoBlocks.layout =
      .ok [⟨16, 4016, false⟩, ⟨4032, 48, true⟩, ⟨4080, 32, true⟩] := rfl
  obtain rfl := Except.ok.inj (hxs.symm.trans hlayout)
  exact hdetects 20 (.after (List.mem_cons_self ..) rfl) 4032 (by decide)

end Audits

end TagHeap
