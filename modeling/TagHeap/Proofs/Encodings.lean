import TagHeap.Proofs.Reservations

/-!
# Encodings of links

A link is an offset in a word of 32 bits, and how it gets there is up to a `LinkEncoding`. One that
is EXACT takes over every offset that fits, and may do as it likes with the others: the operations
cut those off (`LinkEncoding.truncating`), where `LinkEncoding.checked` faults.

No operation can tell exact encodings apart, because no offset that does not fit is ever linked to.
A node comes out of the word that links to it, or it is a block that is linked in, and then its own
links have been written to the memory, which is no larger than a word can tell. So all that has to
be kept is that the region stays within its limit and that the lists start at nodes that fit
(`Heap.Linkable`). Every operation keeps that, on any bytes (`Run.Same.coupling`), and so the
outcome of a request is the same with all exact encodings (`Heap.Linkable.operation_on`).
-/

namespace TagHeap

open Operation Step

variable {E : LinkEncoding}

/-! ## Links that fit -/

/-- The offset of the node, if there is one, fits into a word. -/
def Block.FitsLink (node : Option Block) : Prop := ∀ b, node = some b → b.offset < Size.wordBound

namespace Block

variable {b : Block} {node : Option Block} {m m' : Memory} {u : Unit}

/-- The word for a link that fits stands for its node. -/
theorem FitsLink.ofOffset?_link (h : FitsLink node) : ofOffset? (link node).toNat = node := by
  cases node with
  | none => rfl
  | some b => rw [link, UInt32.toNat_ofNat', Nat.mod_eq_of_lt (h b rfl), ofOffset?_eq_some]

theorem fitsLink_none : FitsLink none := nofun

/-- What was read from a link can be written to a link. -/
theorem fitsLink_ofOffset? (w : UInt32) : FitsLink (ofOffset? w.toNat) := by
  intro b hb
  rw [← ofOffset?_eq_some_iff.1 hb]
  exact w.toNat_lt

theorem fitsLink_of_before (h : b.before m = .ok node) : FitsLink node := by
  obtain ⟨w, -, h⟩ := eq_ok_of_bind h
  obtain rfl := Except.ok.inj h
  exact fitsLink_ofOffset? w

theorem fitsLink_of_after (h : b.after m = .ok node) : FitsLink node := by
  obtain ⟨place, -, h⟩ := eq_ok_of_bind h
  obtain ⟨w, -, h⟩ := eq_ok_of_bind h
  obtain rfl := Except.ok.inj h
  exact fitsLink_ofOffset? w

/-- A block inside of a memory of legal size can be linked to. -/
theorem fitsLink_of_le (hle : b.offset ≤ m.size) (hm : m.size ≤ Region.maxSize) :
    FitsLink (some b) := by
  rintro _ ⟨⟩
  exact Nat.lt_of_le_of_lt (Nat.le_trans hle hm) (by decide)

end Block

/-- A word is only written inside of the memory. -/
theorem Memory.le_of_writeWord {m m' : Memory} {i : Nat} {w : UInt32} {u : Unit}
    (h : writeWord i w m = .ok u m') : i ≤ m.size := by
  obtain ⟨stop, m₁, hstop, hwrite⟩ := Step.eq_ok_of_bind h
  obtain ⟨hadd, rfl⟩ := Step.eq_ok_of_attempt hstop
  rw [Step.bind_of_ok (Step.get_apply _)] at hwrite
  split at hwrite
  · next hle =>
    have hstop : stop = i + 4 := by
      rw [Size.add] at hadd
      split at hadd <;> cases hadd
      rfl
    omega
  · cases hwrite

namespace LinkEncoding

/-- The encoding takes over every offset that fits. -/
def Exact (E : LinkEncoding) : Prop :=
  ∀ node, Block.FitsLink node → E.encode node = .ok (Block.link node)

/-- Faults where an offset does not fit. -/
@[reducible] def checked : LinkEncoding :=
  ⟨fun node =>
    if ∀ b ∈ node, b.offset < Size.wordBound then .ok (Block.link node) else .error .overflow⟩

theorem checked_exact : checked.Exact := fun _ h => if_pos h

/-- A link that passes the check is kept in full. -/
theorem eq_ok_of_checked {node : Option Block} {w : UInt32} (h : checked.encode node = .ok w) :
    Block.FitsLink node ∧ Block.ofOffset? w.toNat = node := by
  by_cases hfits : Block.FitsLink node
  · obtain rfl := Except.ok.inj ((checked_exact node hfits).symm.trans h)
    exact ⟨hfits, hfits.ofOffset?_link⟩
  · cases (if_neg hfits).symm.trans h

/-- The first offset that does not fit: cut off it would be no node at all. -/
example : Block.link (some ⟨4294967296, by decide⟩) = 0 ∧
    checked.encode (some ⟨4294967296, by decide⟩) = .error .overflow := ⟨rfl, rfl⟩

end LinkEncoding

/-! ## Lists -/

namespace Block

variable {b : Block} {node : Option Block}

theorem setBefore_eq (hE : E.Exact) (h : FitsLink node) (b : Block) :
    @setBefore E b node = @setBefore .truncating b node := by
  simp only [setBefore, hE node h, LinkEncoding.truncating_eq_ok]

theorem setAfter_eq (hE : E.Exact) (h : FitsLink node) (b : Block) :
    @setAfter E b node = @setAfter .truncating b node := by
  simp only [setAfter, hE node h, LinkEncoding.truncating_eq_ok]

/-- A block whose own link was written lies inside of the memory. -/
theorem le_of_setBefore {m m' : Memory} {u : Unit}
    (h : @setBefore .truncating b node m = .ok u m') : b.offset ≤ m.size :=
  Memory.le_of_writeWord h

end Block

namespace FreeList

open Block

variable {list list' : FreeList} {b : Block} {last node last' node' : Option Block}
  {m m' : Memory}

/-- The place of a block is between nodes that fit. -/
theorem fitsLink_of_seek {count : Nat} (hlast : FitsLink last) (hnode : FitsLink node)
    (h : seek m b count last node = .ok (last', node')) : FitsLink last' ∧ FitsLink node' := by
  induction count generalizing last node with
  | zero =>
      cases node with
      | none =>
          cases h
          exact ⟨hlast, fitsLink_none⟩
      | some a => cases h
  | succ count ih =>
      cases node with
      | none =>
          cases h
          exact ⟨hlast, fitsLink_none⟩
      | some a =>
          rw [seek] at h
          split at h
          · cases h
            exact ⟨hlast, hnode⟩
          · obtain ⟨onward, honward, h⟩ := eq_ok_of_bind h
            exact ih hnode (fitsLink_of_after honward) h

/-- **LINKING IN** is the same with all exact encodings. -/
theorem insert_eq (hE : E.Exact) (hhead : FitsLink list.head) (hm : m.size ≤ Region.maxSize) :
    @insert E list b m = @insert .truncating list b m := by
  refine bind_congr rfl ?_
  rintro ⟨last, next⟩ m₀ hseek
  obtain ⟨hseek, rfl⟩ := eq_ok_of_attempt hseek
  obtain ⟨hlast, hnext⟩ := fitsLink_of_seek fitsLink_none hhead hseek
  simp only [setBefore_eq hE hlast, setAfter_eq hE hnext]
  refine bind_congr rfl fun _ m₁ hbefore => ?_
  -- From here on the block is known to be inside of the memory.
  have hb : FitsLink (some b) := fitsLink_of_le (le_of_setBefore hbefore) hm
  simp only [setBefore_eq hE hb, setAfter_eq hE hb]

/-- **UNLINKING** is the same with all exact encodings, on any list. -/
theorem remove_eq (hE : E.Exact) : @remove E list b m = @remove .truncating list b m := by
  refine bind_congr rfl fun last m₀ hbefore => bind_congr rfl fun next m₁ hafter => ?_
  have hlast := fitsLink_of_before (eq_ok_of_attempt hbefore).1
  have hnext := fitsLink_of_after (eq_ok_of_attempt hafter).1
  simp only [setBefore_eq hE hlast, setAfter_eq hE hnext]

/-- A list into which a block is linked starts at a node that fits. -/
theorem fitsLink_of_insert (hhead : FitsLink list.head) (hm : m.size ≤ Region.maxSize)
    (h : @insert .truncating list b m = .ok list' m') : FitsLink list'.head := by
  obtain ⟨⟨last, next⟩, m₀, hseek, h₀⟩ := Step.eq_ok_of_bind h
  obtain ⟨-, rfl⟩ := eq_ok_of_attempt hseek
  obtain ⟨_, m₁, hbefore, h₁⟩ := Step.eq_ok_of_bind h₀
  have hb : FitsLink (some b) := fitsLink_of_le (le_of_setBefore hbefore) hm
  obtain ⟨_, m₂, -, h₂⟩ := Step.eq_ok_of_bind h₁
  obtain ⟨_, m₃, -, h₃⟩ := Step.eq_ok_of_bind h₂
  obtain ⟨_, m₄, -, h₄⟩ := Step.eq_ok_of_bind h₃
  obtain ⟨length, m₅, -, h₅⟩ := Step.eq_ok_of_bind h₄
  cases h₅
  cases last with
  | none => exact hb
  | some a => exact hhead

/-- So does a list from which a node is unlinked. -/
theorem fitsLink_of_remove (hhead : FitsLink list.head)
    (h : @remove .truncating list b m = .ok list' m') : FitsLink list'.head := by
  obtain ⟨last, m₀, -, h₀⟩ := Step.eq_ok_of_bind h
  obtain ⟨next, m₁, hafter, h₁⟩ := Step.eq_ok_of_bind h₀
  have hnext := fitsLink_of_after (eq_ok_of_attempt hafter).1
  obtain ⟨_, m₂, -, h₂⟩ := Step.eq_ok_of_bind h₁
  obtain ⟨_, m₃, -, h₃⟩ := Step.eq_ok_of_bind h₂
  obtain ⟨length, m₄, -, h₄⟩ := Step.eq_ok_of_bind h₃
  cases h₄
  cases last with
  | none => exact hnext
  | some a => exact hhead

end FreeList

/-! ## Indexes -/

variable {n : Nat}

/-- The lists start at nodes that fit. -/
def Index.Linkable (index : Index n) : Prop := ∀ c, Block.FitsLink (index.list c).head

namespace Index

variable {index index' : Index n} {b : Block} {m m' : Memory}

theorem Linkable.empty : (empty : Index n).Linkable := by
  intro c
  rw [list_empty]
  exact Block.fitsLink_none

theorem Linkable.setList {list : FreeList} (h : index.Linkable) (c : Fin n)
    (hlist : Block.FitsLink list.head) : (index.setList c list).Linkable := by
  intro d
  rw [list_setList]
  split
  · exact hlist
  · exact h d

variable [HasClass n]

theorem insert_eq (hE : E.Exact) (h : index.Linkable) (hm : m.size ≤ Region.maxSize) :
    @insert n _ E index b m = @insert n _ .truncating index b m := by
  refine bind_congr rfl fun size m₀ hsize => ?_
  obtain ⟨-, rfl⟩ := eq_ok_of_attempt hsize
  exact bind_congr (FreeList.insert_eq hE (h _) hm) fun _ _ _ => rfl

theorem remove_eq (hE : E.Exact) :
    @remove n _ E index b m = @remove n _ .truncating index b m :=
  bind_congr rfl fun _ _ _ => bind_congr (FreeList.remove_eq hE) fun _ _ _ => rfl

theorem Linkable.insert (h : index.Linkable) (hm : m.size ≤ Region.maxSize)
    (hinsert : @insert n _ .truncating index b m = .ok index' m') : index'.Linkable := by
  obtain ⟨size, m₀, hsize, h₀⟩ := Step.eq_ok_of_bind hinsert
  obtain ⟨-, rfl⟩ := eq_ok_of_attempt hsize
  obtain ⟨list', m₁, hlist, h₁⟩ := Step.eq_ok_of_bind h₀
  cases h₁
  exact h.setList _ (FreeList.fitsLink_of_insert (h _) hm hlist)

theorem Linkable.remove (h : index.Linkable)
    (hremove : @remove n _ .truncating index b m = .ok index' m') : index'.Linkable := by
  obtain ⟨size, m₀, -, h₀⟩ := Step.eq_ok_of_bind hremove
  obtain ⟨list', m₁, hlist, h₁⟩ := Step.eq_ok_of_bind h₀
  cases h₁
  exact h.setList _ (FreeList.fitsLink_of_remove (h _) hlist)

end Index

/-! ## Operations -/

/-- The region is within its limit, and the lists start at nodes that fit. Then so does every node
that an operation on the heap writes a link to. -/
structure Heap.Linkable (h : Heap n) : Prop where
  region : h.region.Bounded
  index : h.index.Linkable

/-- The runs are equal, and work on a heap that is linkable. -/
def Run.Same (run run' : Run n) : Prop := run' = run ∧ run.heap.Linkable

theorem Heap.Linkable.size_le {h : Heap n} (hl : h.Linkable) : h.memory.size ≤ Region.maxSize :=
  Nat.le_trans hl.region.size_le hl.region.limit_le

/-- Memory may be replaced, as long as it keeps its size. -/
theorem Heap.Linkable.withMemory {h : Heap n} {m : Memory} (hl : h.Linkable)
    (hm : m.size = h.memory.size) : (h.withMemory m).Linkable :=
  ⟨hl.region.becomes (.write .start m hm), hl.index⟩

namespace Run.Same

variable {α : Type}

/-- A change of the heap that keeps it linkable. -/
theorem lockstep_modifyHeap {change : Heap n → Heap n}
    (h : ∀ h : Heap n, h.Linkable → (change h).Linkable) :
    Lockstep Same (modifyHeap change) (modifyHeap change) := by
  refine .modify ?_
  rintro _ run ⟨rfl, hl⟩
  exact ⟨rfl, h _ hl⟩

theorem lockstep_onMemory {x : Step Memory α} (hx : ∀ size, Lockstep (Memory.Same size) x x) :
    Lockstep Same (onMemory (n := n) x) (onMemory x) := by
  rintro _ run ⟨rfl, hl⟩
  refine (hx run.heap.memory.size).zoom ⟨rfl, rfl⟩ ?_
  rintro _ m ⟨rfl, hm⟩
  exact ⟨rfl, hl.withMemory hm⟩

theorem lockstep_grow (increment : Nat) :
    Lockstep Same (grow (n := n) increment) (grow increment) := by
  rintro _ run ⟨rfl, hl⟩
  obtain ⟨answer, _, hgrow, r, journal, rfl, hr, -⟩ := ensures_grow (hl.region.grow increment)
  rw [hgrow]
  exact .ok _ ⟨rfl, hr, hl.index⟩

/-- Two changes of the index that come to the same on a linkable heap and keep it linkable. -/
theorem lockstep_onIndex {f g : Index n → Step Memory (Index n)}
    (hf : ∀ size index, Lockstep (Memory.Same size) (f index) (f index))
    (hg : ∀ {index m}, index.Linkable → m.size ≤ Region.maxSize → g index m = f index m)
    (hkeep : ∀ {index index' m m'}, index.Linkable → m.size ≤ Region.maxSize →
      f index m = .ok index' m' → index'.Linkable) :
    Lockstep Same (onIndex f) (onIndex g) := by
  rintro _ run ⟨rfl, hl⟩
  have hsame : onMemory (g run.heap.index) run = onMemory (f run.heap.index) run := by
    simp only [onMemory, zoom, hg hl.index hl.size_le]
  rw [onIndex, onIndex, Step.bind_of_ok (heap_eq_ok run), Step.bind_of_ok (heap_eq_ok run),
    Step.bind_congr hsame fun _ _ _ => rfl]
  rcases (hf _ run.heap.index _ _ ⟨rfl, rfl⟩).elim with ⟨index, _, m, hm, -, rfl, hsize⟩ |
    ⟨e, _, m, hm, -, rfl, hsize⟩
  · have hstep : onMemory (f run.heap.index) run =
        .ok index ⟨run.heap.withMemory m, run.journal⟩ := zoom_of_ok hm
    rw [Step.bind_of_ok hstep]
    exact .ok _ ⟨rfl, (hl.withMemory hsize).region, hkeep hl.index hl.size_le hm⟩
  · have hstep : onMemory (f run.heap.index) run =
        .error e ⟨run.heap.withMemory m, run.journal⟩ := zoom_of_error hm
    rw [Step.bind_of_error hstep]
    exact .error _ ⟨rfl, hl.withMemory hsize⟩

variable [HasClass n]

/-- **EXACT ENCODINGS ARE COUPLED.** -/
theorem coupling (hE : E.Exact) : Coupling .truncating E (Same (n := n)) where
  resembles := by
    rintro _ run ⟨rfl, -⟩
    exact ⟨rfl, rfl, rfl, rfl⟩
  lockstep_record _ := .modify fun _ _ h => ⟨by rw [h.1], h.2⟩
  lockstep_onMemory := lockstep_onMemory
  lockstep_forget := lockstep_modifyHeap fun _ hl => ⟨hl.region, .empty⟩
  lockstep_found _ := lockstep_modifyHeap fun _ hl => ⟨hl.region, hl.index⟩
  lockstep_grow := lockstep_grow
  lockstep_enlist b := lockstep_onIndex (fun _ index => Memory.Same.indexInsert index b)
    (Index.insert_eq hE) Index.Linkable.insert
  lockstep_delist b := lockstep_onIndex (fun _ index => Memory.Same.indexRemove index b)
    (fun _ _ => Index.remove_eq hE) fun h _ => h.remove

end Run.Same

variable [HasClass n]

namespace Heap.Linkable

variable {h : Heap n}

/-- **A REQUEST** has one outcome with all exact encodings, and leaves the heap linkable. -/
theorem operation_on (hl : h.Linkable) (hE : E.Exact) (request : Request) :
    (@Request.operation n _ E request).on h = (@Request.operation n _ .truncating request).on h ∧
      ((@Request.operation n _ .truncating request).on h).state.Linkable := by
  have hsame : Run.Same ⟨h, []⟩ ⟨h, []⟩ := ⟨rfl, hl⟩
  rw [on, on]
  rcases ((Run.Same.coupling hE).lockstep_operation request _ _ hsame).elim with
    ⟨a, run, run', hrun, hrun', rfl, hafter⟩ | ⟨e, run, run', hrun, hrun', rfl, hafter⟩
  all_goals
    rw [hrun, hrun']
    exact ⟨rfl, hafter⟩

end Heap.Linkable

/-- Whatever is done to a heap, it stays linkable. -/
theorem Reachable.linkable {h : Heap n} {live : Live} (hr : Reachable h live) : h.Linkable := by
  induction hr with
  | buffer capacity settings => exact ⟨Region.Fresh.bounded (.buffer capacity), .empty⟩
  | mapping reservation system settings =>
      exact ⟨Region.Fresh.bounded (.mapping reservation system), .empty⟩
  | @step h live request answer _ _ _ ih => exact (ih.operation_on (fun _ _ => rfl) request).2

end TagHeap
