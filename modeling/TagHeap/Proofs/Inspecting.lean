import Mathlib.Data.List.Perm.Subperm
import TagHeap.Proofs.Walking

/-!
# What an audit decides

Whatever the bytes of a heap are and wherever its lists start, an audit ends, and it passes exactly
on a well-formed heap, with the summary of its blocks (`Heap.audit_decides`). In every other case it
names a violation: it meets no other fault, although it adds offsets and reads links without looking
first.

The walks along the lists and over the blocks know nothing of each other but the table of the nodes
that were met. Every free block is looked up in the table, and there are as many entries as free
blocks: that is how the audit knows that nothing else is on a list, without looking for the nodes
among the blocks. The argument is a count (`Audit.wellFormed_iff`): the places of the free blocks
are among the places that were met, neither repeats, and there are as many.
-/

namespace TagHeap

open Layout

variable {n : Nat} [HasClass n] {m : Memory} {o : Nat}

namespace Audit

/-! ## The table and the blocks -/

/-- The places of the free blocks. -/
def freePlaces (xs : List Extent) : List Nat := (xs.filter (!·.allocated)).map (·.offset)

theorem mem_freePlaces {xs : List Extent} :
    o ∈ freePlaces xs ↔ ∃ x ∈ xs, x.allocated = false ∧ x.offset = o := by
  simp [freePlaces, and_assoc]

theorem nodup_freePlaces {lo hi : Nat} {xs : List Extent} (h : Tiles lo xs hi) :
    (freePlaces xs).Nodup := by
  have hsorted : xs.Pairwise fun x y => x.offset ≠ y.offset := by
    refine h.ordered.imp_of_mem ?_
    intro x y hx _ hxy
    have hbefore : x.offset + x.size ≤ y.offset := hxy
    have hlarge : 16 ≤ x.size := (h.bounds hx).2.2.1
    omega
  exact List.pairwise_map.2 (hsorted.sublist List.filter_sublist)

/-- The places in the table. -/
def metPlaces (nodes : Fin n → List Nat) : List Nat :=
  (table (List.finRange n) nodes).map (·.1.offset)

section Table

variable {nodes : Fin n → List Nat} {head : Fin n → Option Block}

theorem mem_metPlaces (h : ∀ c, Traced m c 0 (head c) (nodes c)) :
    o ∈ metPlaces nodes ↔ ∃ c, o ∈ nodes c := by
  rw [metPlaces, List.mem_map]
  constructor
  · rintro ⟨e, he, rfl⟩
    exact ⟨e.2, (mem_table.1 he).2⟩
  · rintro ⟨c, ho⟩
    have hpos := ((h c).nodes o ho).pos
    exact ⟨(⟨o, hpos⟩, c), mem_table.2 ⟨List.mem_finRange c, ho⟩, rfl⟩

/-- No place is in the table twice: a list goes up, and the nodes of two lists differ in class. -/
theorem nodup_metPlaces (h : ∀ c, Traced m c 0 (head c) (nodes c)) : (metPlaces nodes).Nodup := by
  have hmap : ∀ c, (entered c (nodes c)).map (·.1.offset) = (nodes c).reverse :=
    fun c => map_entered fun o ho => ((h c).nodes o ho).pos
  simp only [metPlaces, table, List.map_flatMap, hmap]
  refine List.nodup_flatMap.2 ⟨fun c _ => ?_, ?_⟩
  · have hascending := (List.pairwise_cons.1 (h c).ascending).2
    exact List.nodup_reverse.2 (hascending.imp Nat.ne_of_lt)
  · refine (List.nodup_reverse.2 (List.nodup_finRange n)).imp fun hne => ?_
    intro o hc hd
    have hc := (h _).nodes o (List.mem_reverse.1 hc)
    have hd := (h _).nodes o (List.mem_reverse.1 hd)
    exact hne (hc.class_eq.symm.trans hd.class_eq)

end Table

/-! ## The heap -/

/-- Both tags of the prologue are intact, and there is room in front of it. -/
def Opened (m : Memory) (p : Block) : Prop :=
  8 ≤ p.offset ∧ m.word (p.offset - 4) = (Tag.pack 8 true).word ∧
    m.word p.offset = (Tag.pack 8 true).word

theorem prologueIntact_iff {r : Region} {p : Block} :
    prologueIntact r p = true ↔ p.offset + 4 ≤ r.memory.size ∧ Opened r.memory p := by
  have hword : ∀ i w, r.memory.word? i = some w ↔ i + 4 ≤ r.memory.size ∧ r.memory.word i = w := by
    intro i w
    rw [Memory.word?, Option.ite_none_right_eq_some, Option.some.injEq]
  have hlowest : r.lowest = 0 := rfl
  simp only [prologueIntact, Bool.and_eq_true, decide_eq_true_iff, beq_iff_eq, hword]
  constructor
  · rintro ⟨⟨hlo, -, hheader⟩, hin, hfooter⟩
    exact ⟨hin, by omega, hheader, hfooter⟩
  · rintro ⟨hin, hlo, hheader, hfooter⟩
    exact ⟨⟨by omega, by omega, hheader⟩, hin, hfooter⟩

section WellFormed

variable {index : Index n} {p : Block} {xs : List Extent} {nodes : Fin n → List Nat}
  {head : Fin n → Option Block}

/-- On a well-formed heap the walks meet what they ask for. -/
theorem traced_of_wellFormed (h : WellFormed m index p xs nodes) (c : Fin n) :
    Traced m c 0 (index.list c).head (nodes c) := by
  have hnode : ∀ o ∈ nodes c, Node m c o := by
    intro o ho
    obtain ⟨x, hx, hfree, hclass, rfl⟩ := h.members c o ho
    have hread := (h.marked x hx).header
    constructor
    · rw [hread]
      exact h.intact hx
    · rw [hread]
      exact hfree
    · rw [hread]
      exact hclass
  exact ⟨h.head c, h.threads c, List.pairwise_cons.2 ⟨fun o ho => (hnode o ho).pos, h.ascending c⟩,
    hnode⟩

theorem walked_of_wellFormed (h : WellFormed m index p xs nodes) :
    Walked m (table (List.finRange n) nodes) false (p.offset + 8) xs := by
  refine ⟨h.tiles, h.aligned, h.marked, h.epilogue, h.coalesced, nofun, ?_⟩
  intro x hx hfree b hb
  refine lookup_table (List.mem_finRange _) ?_ ?_
  · rw [hb]
    exact (h.mem_nodes_iff hx hfree).2 rfl
  · intro d hd
    rw [hb] at hd
    exact ((h.mem_nodes_iff hx hfree).1 hd).symm

/-- The nodes that are met on a well-formed heap are its free blocks, so there are as many. -/
theorem length_table_of_wellFormed (h : WellFormed m index p xs nodes) :
    (table (List.finRange n) nodes).length = (xs.filter (!·.allocated)).length := by
  have htraced := traced_of_wellFormed h
  have hsame : ∀ o, o ∈ metPlaces nodes ↔ o ∈ freePlaces xs := by
    intro o
    rw [mem_metPlaces htraced, mem_freePlaces]
    constructor
    · rintro ⟨c, ho⟩
      obtain ⟨x, hx, hfree, -, hxo⟩ := h.members c o ho
      exact ⟨x, hx, hfree, hxo⟩
    · rintro ⟨x, hx, hfree, rfl⟩
      exact h.listed x hx hfree
  have hperm := (List.perm_ext_iff_of_nodup (nodup_metPlaces htraced)
    (nodup_freePlaces h.tiles)).2 hsame
  simpa only [metPlaces, freePlaces, List.length_map] using hperm.length_eq

/-- The converse: if all free blocks were met and nothing else was counted, nothing else was met. -/
theorem mem_freePlaces_of_walked {lo : Nat} (htraced : ∀ c, Traced m c 0 (head c) (nodes c))
    (hwalked : Walked m (table (List.finRange n) nodes) false lo xs)
    (hlisted : ∀ x ∈ xs, x.allocated = false → ∃ c, x.offset ∈ nodes c)
    (hlength : (table (List.finRange n) nodes).length = (xs.filter (!·.allocated)).length)
    {c : Fin n} (ho : o ∈ nodes c) : o ∈ freePlaces xs := by
  have hsub : freePlaces xs ⊆ metPlaces nodes := by
    intro o ho
    obtain ⟨x, hx, hfree, rfl⟩ := mem_freePlaces.1 ho
    exact (mem_metPlaces htraced).2 (hlisted x hx hfree)
  have hle : (metPlaces nodes).length ≤ (freePlaces xs).length := by
    simpa only [metPlaces, freePlaces, List.length_map] using Nat.le_of_eq hlength
  have hperm :=
    (List.subperm_of_subset (nodup_freePlaces hwalked.tiles) hsub).perm_of_length_le hle
  exact hperm.mem_iff.2 ((mem_metPlaces htraced).2 ⟨c, ho⟩)

/-- **WELL-FORMED** is what can be walked with as many nodes on the lists as there are free blocks.
The nodes are then the free blocks and nothing else. -/
theorem wellFormed_iff :
    WellFormed m index p xs nodes ↔
      Opened m p ∧ (∀ c, Traced m c 0 (index.list c).head (nodes c)) ∧
        Walked m (table (List.finRange n) nodes) false (p.offset + 8) xs ∧
          (table (List.finRange n) nodes).length = (xs.filter (!·.allocated)).length ∧
            ∑ c, (index.list c).length = (xs.filter (!·.allocated)).length := by
  constructor
  · intro h
    exact ⟨⟨h.prologue_le, h.header, h.footer⟩, traced_of_wellFormed h, walked_of_wellFormed h,
      length_table_of_wellFormed h, h.counted⟩
  · rintro ⟨hopened, htraced, hwalked, hlength, hcounted⟩
    have hlisted : ∀ x ∈ xs, x.allocated = false → ∃ c, x.offset ∈ nodes c := by
      intro x hx hfree
      have hlo : p.offset + 8 ≤ x.offset := (hwalked.tiles.bounds hx).1
      have hpos : 0 < x.offset := Nat.lt_of_lt_of_le (Nat.add_pos_left p.pos 8) hlo
      exact ⟨_, mem_of_lookup_table (hwalked.found x hx hfree ⟨x.offset, hpos⟩ rfl)⟩
    have hmembers : ∀ c, ∀ o ∈ nodes c, ∃ x ∈ xs, x.allocated = false ∧
        Index.classOf n x.size = c ∧ x.offset = o := by
      intro c o ho
      obtain ⟨x, hx, hfree, rfl⟩ :=
        mem_freePlaces.1 (mem_freePlaces_of_walked htraced hwalked hlisted hlength ho)
      have hclass := ((htraced c).nodes _ ho).class_eq
      rw [(hwalked.marked x hx).header] at hclass
      exact ⟨x, hx, hfree, hclass, rfl⟩
    exact
      { hwalked with
        prologue_le := hopened.1
        header := hopened.2.1
        footer := hopened.2.2
        head := fun c => (htraced c).head
        threads := fun c => (htraced c).threads
        ascending := fun c => (List.pairwise_cons.1 (htraced c).ascending).2
        members := hmembers
        listed := hlisted
        counted := hcounted }

end WellFormed

end Audit

namespace Heap

open Audit

variable {h : Heap n} {p : Block}

/-- **THE AUDIT** of a heap with any bytes and any lists passes exactly where the heap is
well-formed, with the summary of its blocks, and otherwise names a violation. -/
theorem audit_decides (hp : h.prologue = some p) (short : h.size ≤ Region.maxSize)
    (hfits : ∑ c, (h.index.list c).length < Size.bound) :
    Decides h.audit fun summary =>
      ∃ xs nodes, WellFormed h.memory h.index p xs nodes ∧ summary = .ofLayout xs := by
  have hlength : h.index.length = .ok (∑ c, (h.index.list c).length) := Index.length_eq_sum hfits
  have key : Decides h.audit fun summary =>
      ∃ listed, (∃ nodes : Fin n → List Nat,
        (∀ c, Traced h.memory c 0 (h.index.list c).head (nodes c)) ∧
          listed = table (List.finRange n) nodes) ∧
        (p.offset + 4 ≤ h.memory.size ∧ Opened h.memory p) ∧
          ∃ total, (∃ xs, Walked h.memory listed false (p.offset + 8) xs ∧
            total = .ofLayout xs) ∧
              (listed.length = total.freeBlocks ∧
                ∑ c, (h.index.list c).length = total.freeBlocks) ∧ summary = total := by
    rw [audit, hp]
    dsimp only
    refine .bind (lists_decides (m := h.memory) short h.index) fun listed _ => ?_
    have hintact := (Decides.require (prologueIntact h.region p) (.badPrologue p.offset)).congr
      fun _ => and_congr_right fun _ => prologueIntact_iff
    refine .bind_eq hintact fun hopened => ?_
    have hstart : p.offset + 8 ≤ h.region.memory.size + 4 := Nat.add_le_add_right hopened.1 4
    have hprologue : 8 ≤ p.offset := hopened.2.1
    have hfits : p.offset + 8 < Size.bound := by
      have : h.region.memory.size ≤ 4294967295 := short
      simp only [Size.bound]
      omega
    refine .bind_ok (Size.add_eq_ok hfits) (.bind_ok (dif_pos (Nat.add_pos_left p.pos 8)) ?_)
    have hsteps : h.region.memory.size + 4 < FreeList.patience h.memory + (p.offset + 8) := by
      show h.region.memory.size + 4 < h.region.memory.size + 1 + (p.offset + 8)
      omega
    refine .bind (blocks_decides short (Nat.le_add_left_of_le (by decide)) (Summary.below_empty _)
      hstart hsteps) fun total _ => ?_
    exact .bind_ok hlength (.bind_eq (.require_prop _ _) fun _ => .of_ok rfl)
  refine key.congr fun summary => ?_
  constructor
  · rintro ⟨_, ⟨nodes, htraced, rfl⟩, ⟨-, hopened⟩, _, ⟨xs, hwalked, rfl⟩, ⟨hlen, hsum⟩, rfl⟩
    rw [Summary.freeBlocks_ofLayout] at hlen hsum
    exact ⟨xs, nodes, wellFormed_iff.2 ⟨hopened, htraced, hwalked, hlen, hsum⟩, rfl⟩
  · rintro ⟨xs, nodes, hwell, rfl⟩
    obtain ⟨hopened, htraced, hwalked, hlen, hsum⟩ := wellFormed_iff.1 hwell
    have hroom : p.offset + 4 ≤ h.memory.size := by
      have := hwalked.tiles.le
      omega
    rw [← Summary.freeBlocks_ofLayout] at hlen hsum
    exact ⟨_, ⟨nodes, htraced, rfl⟩, ⟨hroom, hopened⟩, _, ⟨xs, hwalked, rfl⟩, ⟨hlen, hsum⟩, rfl⟩

end Heap

end TagHeap
