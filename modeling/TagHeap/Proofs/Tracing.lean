import TagHeap.Heap.Audit
import TagHeap.Proofs.Deciding
import TagHeap.Proofs.WellFormed

/-!
# Tracing lists

The lists of a heap may start anywhere and the memory may hold any bytes. Still the walk along a
list ends: a node that does not lie above the node before it is a violation, and so is one that
leaves the memory, so the walk takes no more steps than the memory has bytes.

`Traced` says what the walk along one list accepts, `Audit.table` what it has entered in the table
of the nodes that were met. A node can only be on the list of its own class, so that no node is met
twice needs no check beyond those that a list passes alone (`Audit.foldlM_chain_decides`).
-/

namespace TagHeap

open Layout

variable {n : Nat} {m : Memory}

namespace Audit

/-! ## A block -/

/-- **THE TAGS** at a place pass their check exactly where they are those of a block that lies
inside of the memory. -/
theorem block_decides (short : m.size ≤ Region.maxSize) (offset : Nat) :
    Decides (block m offset) fun tag =>
      tag = ⟨m.word (offset - 4)⟩ ∧ (Extent.read m offset).Intact m := by
  let tag : Tag := ⟨m.word (offset - 4)⟩
  have hsize := tag.size_lt
  simp only [Region.maxSize] at short
  simp only [Size.wordBound] at hsize
  have key : Decides (block m offset) fun t =>
      offset % 8 = 0 ∧ 4 ≤ offset ∧ offset - 4 + 4 ≤ m.size ∧ Size.minBlock ≤ tag.size ∧
        offset + tag.size - 8 + 8 ≤ m.size ∧ offset + tag.size - 8 + 4 ≤ m.size ∧
          m.word (offset + tag.size - 8) = m.word (offset - 4) ∧ t = tag := by
    refine .bind_eq (.require_prop _ _) fun haligned => .bind_eq (.require_prop _ _) fun hroom =>
      .bind_eq (.wordOr m _ _) fun hinside => .bind_eq (.require_prop _ _) fun hlarge => ?_
    -- The place is inside of the memory by now, so no sum with a size can overflow.
    have hstop : offset + tag.size < Size.bound := by
      simp only [Size.bound]
      omega
    have hfooter : 8 ≤ offset + tag.size :=
      Nat.le_add_left_of_le (Nat.le_trans (by decide) hlarge)
    have hback : offset + tag.size - 8 + 8 < Size.bound := by rwa [Nat.sub_add_cancel hfooter]
    refine .bind_ok (Size.add_eq_ok hstop) (.bind_ok (Size.sub_eq_ok hfooter)
      (.bind_ok (Size.add_eq_ok hback) ?_))
    exact .bind_eq (.require_prop _ _) fun _ => .bind_eq (.wordOr m _ _) fun _ =>
      .bind_eq (.require_prop _ _) fun _ => .of_ok rfl
  refine key.congr fun t => ?_
  constructor
  · rintro ⟨haligned, hroom, -, hlarge, hstop, -, hfooter, rfl⟩
    refine ⟨rfl, ⟨rfl, hfooter⟩, haligned, hroom, hlarge, ?_⟩
    show offset + tag.size ≤ m.size
    omega
  · rintro ⟨rfl, h⟩
    have hroom : 4 ≤ offset := h.room
    have hlarge : 16 ≤ tag.size := h.large
    have hstop : offset + tag.size ≤ m.size := h.stop_le
    exact ⟨h.aligned, hroom, by omega, hlarge, by omega, by omega, h.footer, rfl⟩

/-! ## A list -/

/-- At the place is a free block of the class. -/
structure Node [HasClass n] (m : Memory) (c : Fin n) (offset : Nat) : Prop where
  intact : (Extent.read m offset).Intact m
  free : (Extent.read m offset).allocated = false
  class_eq : Index.classOf n (Extent.read m offset).size = c

/-- The chain that goes on with `node`, behind the node at `last`, runs upwards through free blocks
of the class at the places `os`, and its links name them in both directions. -/
structure Traced [HasClass n] (m : Memory) (c : Fin n) (last : Nat) (node : Option Block)
    (os : List Nat) : Prop where
  head : node = Block.ofOffset? (os.headD 0)
  threads : Threads m last os 0
  ascending : (last :: os).Pairwise (· < ·)
  nodes : ∀ o ∈ os, Node m c o

/-- The entries that the walk along a list makes in the table, the last node first. -/
def entered (c : Fin n) (os : List Nat) : Listed n :=
  ((os.filterMap Block.ofOffset?).map (·, c)).reverse

variable {c : Fin n} {last o : Nat} {os : List Nat} {b : Block} {e : Block × Fin n}

theorem entered_cons : entered c (b.offset :: os) = entered c os ++ [(b, c)] := by
  rw [entered, List.filterMap_cons, Block.ofOffset?_eq_some]
  exact List.reverse_cons

theorem mem_entered : e ∈ entered c os ↔ e.1.offset ∈ os ∧ e.2 = c := by
  obtain ⟨b, d⟩ := e
  simp only [entered, List.mem_reverse, List.mem_map, List.mem_filterMap,
    Block.ofOffset?_eq_some_iff, Prod.mk.injEq]
  constructor
  · rintro ⟨_, ⟨_, ho, rfl⟩, rfl, rfl⟩
    exact ⟨ho, rfl⟩
  · rintro ⟨ho, rfl⟩
    exact ⟨b, ⟨_, ho, rfl⟩, rfl, rfl⟩

/-- Every node is entered with its place. -/
theorem map_entered (h : ∀ o ∈ os, 0 < o) :
    (entered c os).map (·.1.offset) = os.reverse := by
  induction os with
  | nil => rfl
  | cons o os ih =>
      have ho := h o (List.mem_cons_self ..)
      obtain ⟨b, rfl⟩ : ∃ b : Block, o = b.offset := ⟨⟨o, ho⟩, rfl⟩
      rw [entered_cons, List.map_append, ih fun x hx => h x (List.mem_cons_of_mem _ hx),
        List.reverse_cons]
      rfl

variable [HasClass n]

theorem Node.pos (h : Node m c o) : 0 < o := Nat.lt_of_lt_of_le (by decide) h.intact.room

theorem Node.lt_size (h : Node m c o) : o + 8 < m.size := by
  have hlarge : 16 ≤ (Extent.read m o).size := h.intact.large
  have hstop : o + (Extent.read m o).size ≤ m.size := h.intact.stop_le
  omega

theorem traced_none : Traced m c last none os ↔ os = [] := by
  constructor
  · intro h
    cases os with
    | nil => rfl
    | cons o os =>
        have hpos := (h.nodes o (List.mem_cons_self ..)).pos
        have hhead := h.head
        rw [List.headD_cons, Block.ofOffset?_of_pos hpos] at hhead
        exact nomatch hhead
  · rintro rfl
    exact ⟨rfl, trivial, List.pairwise_singleton _ _, nofun⟩

/-- A chain that goes on with a node is that node and the chain behind it. -/
theorem traced_some :
    Traced m c last (some b) os ↔
      ∃ rest, os = b.offset :: rest ∧ Node m c b.offset ∧ (m.word b.offset).toNat = last ∧
        last < b.offset ∧
          Traced m c b.offset (Block.ofOffset? (m.word (b.offset + 4)).toNat) rest := by
  constructor
  · intro h
    cases os with
    | nil => exact nomatch h.head
    | cons o rest =>
        obtain rfl : o = b.offset := Block.ofOffset?_eq_some_iff.1 h.head.symm
        obtain ⟨hbefore, hafter, hrest⟩ := h.threads
        obtain ⟨hlast, hascending⟩ := List.pairwise_cons.1 h.ascending
        refine ⟨rest, rfl, h.nodes _ (List.mem_cons_self ..), hbefore,
          hlast _ (List.mem_cons_self ..), ?_, hrest, hascending, ?_⟩
        · rw [hafter]
        · intro o ho
          exact h.nodes o (List.mem_cons_of_mem _ ho)
  · rintro ⟨rest, rfl, hnode, hbefore, hlast, h⟩
    refine ⟨(Block.ofOffset?_eq_some b).symm, ⟨hbefore, Block.ofOffset?_inj.1 h.head, h.threads⟩,
      List.pairwise_cons.2 ⟨?_, h.ascending⟩, ?_⟩
    · intro o ho
      rcases List.mem_cons.mp ho with rfl | ho
      · exact hlast
      · exact Nat.lt_trans hlast ((List.pairwise_cons.1 h.ascending).1 o ho)
    · intro o ho
      rcases List.mem_cons.mp ho with rfl | ho
      · exact hnode
      · exact h.nodes o ho

/-- One step along a list. The node has to be a free block of the class that points back to the
node before it, lies above it, and is met for the first time. -/
theorem chain_succ_decides (short : m.size ≤ Region.maxSize) {count : Nat} {listed : Listed n}
    {post : Listed n → Prop}
    (hrest : Node m c b.offset → last < b.offset →
      Decides (chain m c count ((b, c) :: listed) (some b)
        (Block.ofOffset? (m.word (b.offset + 4)).toNat)) post) :
    Decides (chain m c (count + 1) listed (Block.ofOffset? last) (some b)) fun found =>
      (Node m c b.offset ∧ (m.word b.offset).toNat = last ∧ last < b.offset ∧
        ∀ e ∈ listed, e.1 ≠ b) ∧ post found := by
  have fits : m.size < Size.bound := Nat.lt_of_le_of_lt short (by decide)
  have hall : (Block.ofOffset? last).all (·.offset < b.offset) = true ↔ last < b.offset := by
    rcases Nat.eq_zero_or_pos last with rfl | hlast
    · exact iff_of_true rfl b.pos
    · rw [Block.ofOffset?_of_pos hlast]
      exact decide_eq_true_iff
  have hnew : (listed.lookup b).isNone = true ↔ ∀ e ∈ listed, e.1 ≠ b := by
    rw [Option.isNone_iff_eq_none, List.lookup_eq_none_iff]
    refine forall₂_congr fun e _ => ?_
    rw [bne_iff_ne]
    exact ne_comm
  have key : Decides (chain m c (count + 1) listed (Block.ofOffset? last) (some b)) fun found =>
      (Extent.read m b.offset).Intact m ∧ (!(Extent.read m b.offset).allocated) = true ∧
        Index.classOf n (Extent.read m b.offset).size = c ∧
          Block.ofOffset? (m.word b.offset).toNat = Block.ofOffset? last ∧
            (Block.ofOffset? last).all (·.offset < b.offset) = true ∧
              (listed.lookup b).isNone = true ∧ post found := by
    refine .bind_eq (block_decides short b.offset) fun hintact => ?_
    have hlarge : 16 ≤ (Extent.read m b.offset).size := hintact.large
    have hstop : b.offset + (Extent.read m b.offset).size ≤ m.size := hintact.stop_le
    refine .bind_eq (.require _ _) fun hfree => .bind_eq (.require_prop _ _) fun hclass =>
      .bind_ok (Block.before_eq_ok fits (by omega)) ?_
    refine .bind_eq (.require_prop _ _) fun _ => .bind_eq (.require _ _) fun habove =>
      .bind_eq (.require _ _) fun _ => .bind_ok (Block.after_eq_ok fits (by omega)) ?_
    rw [Bool.not_eq_true'] at hfree
    exact hrest ⟨hintact, hfree, hclass⟩ (hall.1 habove)
  refine key.congr fun found => ?_
  rw [Bool.not_eq_true', Block.ofOffset?_inj, hall, hnew]
  constructor
  · rintro ⟨hintact, hfree, hclass, hbefore, habove, hfirst, hpost⟩
    exact ⟨⟨⟨hintact, hfree, hclass⟩, hbefore, habove, hfirst⟩, hpost⟩
  · rintro ⟨⟨⟨hintact, hfree, hclass⟩, hbefore, habove, hfirst⟩, hpost⟩
    exact ⟨hintact, hfree, hclass, hbefore, habove, hfirst, hpost⟩

/-- **A LIST** passes its check exactly where its chain can be traced and all its nodes are met for
the first time. The chain goes up and stays inside of the memory, which is why the steps suffice. -/
theorem chain_decides (short : m.size ≤ Region.maxSize) (c : Fin n) (count last : Nat)
    (listed : Listed n) (node : Option Block) (hlast : last ≤ m.size)
    (hcount : m.size < count + last) :
    Decides (chain m c count listed (Block.ofOffset? last) node) fun found =>
      ∃ os, Traced m c last node os ∧ (∀ e ∈ listed, e.1.offset ∉ os) ∧
        found = entered c os ++ listed := by
  -- The steps that are left outnumber the bytes behind `last`, and every node lies behind it.
  induction count generalizing last listed node with
  | zero => omega
  | succ count ih =>
      cases node with
      | none =>
          refine (Decides.of_ok rfl).congr fun found => ?_
          simp only [traced_none]
          constructor
          · rintro rfl
            exact ⟨[], rfl, fun _ _ => List.not_mem_nil, rfl⟩
          · rintro ⟨_, rfl, -, rfl⟩
            rfl
      | some b =>
          have hrest : Node m c b.offset → last < b.offset →
              Decides (chain m c count ((b, c) :: listed) (some b)
                (Block.ofOffset? (m.word (b.offset + 4)).toNat)) fun found =>
                  ∃ os, Traced m c b.offset (Block.ofOffset? (m.word (b.offset + 4)).toNat) os ∧
                    (∀ e ∈ (b, c) :: listed, e.1.offset ∉ os) ∧
                      found = entered c os ++ (b, c) :: listed := by
            intro hnode habove
            have hin := hnode.lt_size
            have := ih b.offset ((b, c) :: listed) (Block.ofOffset? (m.word (b.offset + 4)).toNat)
              (by omega) (by omega)
            rwa [Block.ofOffset?_eq_some] at this
          refine (chain_succ_decides short hrest).congr fun found => ?_
          constructor
          · rintro ⟨⟨hnode, hbefore, habove, hfirst⟩, rest, htraced, hfresh, rfl⟩
            obtain ⟨-, hfresh⟩ := List.forall_mem_cons.1 hfresh
            refine ⟨b.offset :: rest, traced_some.2 ⟨rest, rfl, hnode, hbefore, habove, htraced⟩,
              ?_, ?_⟩
            · intro e he hmem
              rcases List.mem_cons.mp hmem with heb | hmem
              · exact hfirst e he (Block.ext heb)
              · exact hfresh e he hmem
            · rw [entered_cons, List.append_assoc]
              rfl
          · rintro ⟨_, htraced, hfresh, rfl⟩
            obtain ⟨rest, rfl, hnode, hbefore, habove, htraced⟩ := traced_some.1 htraced
            refine ⟨⟨hnode, hbefore, habove, ?_⟩, rest, htraced, ?_, ?_⟩
            · rintro e he rfl
              exact hfresh e he (List.mem_cons_self ..)
            · refine List.forall_mem_cons.2 ⟨?_, fun e he h =>
                hfresh e he (List.mem_cons_of_mem _ h)⟩
              intro hmem
              exact Nat.lt_irrefl _ ((List.pairwise_cons.1 htraced.ascending).1 _ hmem)
            · rw [entered_cons, List.append_assoc]
              rfl

/-! ## All lists -/

/-- The table when the lists of the classes `cs` were walked one after the other. -/
def table (cs : List (Fin n)) (nodes : Fin n → List Nat) : Listed n :=
  cs.reverse.flatMap fun c => entered c (nodes c)

section Table

omit [HasClass n]

variable {cs : List (Fin n)} {nodes nodes' : Fin n → List Nat}

theorem table_cons : table (c :: cs) nodes = table cs nodes ++ entered c (nodes c) := by
  rw [table, List.reverse_cons, List.flatMap_append, List.flatMap_singleton]
  rfl

theorem table_congr (h : ∀ c ∈ cs, nodes c = nodes' c) : table cs nodes = table cs nodes' :=
  List.flatMap_congr fun c hc => congrArg (entered c) (h c (List.mem_reverse.1 hc))

theorem mem_table : e ∈ table cs nodes ↔ e.2 ∈ cs ∧ e.1.offset ∈ nodes e.2 := by
  rw [table, List.mem_flatMap]
  constructor
  · rintro ⟨c, hc, he⟩
    obtain ⟨ho, rfl⟩ := mem_entered.1 he
    exact ⟨List.mem_reverse.1 hc, ho⟩
  · rintro ⟨hc, ho⟩
    exact ⟨e.2, List.mem_reverse.2 hc, mem_entered.2 ⟨ho, rfl⟩⟩

theorem mem_of_lookup_table (h : (table cs nodes).lookup b = some c) : b.offset ∈ nodes c := by
  obtain ⟨_, _, heq, -⟩ := List.lookup_eq_some_iff.1 h
  have hin : (b, c) ∈ table cs nodes := by
    rw [heq]
    exact List.mem_append_right _ (List.mem_cons_self ..)
  exact (mem_table.1 hin).2

/-- A node that is on one list only is found in the table under the class of that list. -/
theorem lookup_table (hc : c ∈ cs) (hmem : b.offset ∈ nodes c)
    (honly : ∀ d, b.offset ∈ nodes d → d = c) : (table cs nodes).lookup b = some c := by
  have hin : (b, c) ∈ table cs nodes := mem_table.2 ⟨hc, hmem⟩
  cases hfound : (table cs nodes).lookup b with
  | none => exact absurd (List.lookup_eq_none_iff.1 hfound _ hin) (by simp)
  | some d => exact congrArg some (honly d (mem_of_lookup_table hfound))

end Table

/-- The lists of the classes `cs`, walked one after the other. A node that was met on the list of
another class is not of this class, so here no node is met twice. -/
theorem foldlM_chain_decides (short : m.size ≤ Region.maxSize) (index : Index n)
    {cs : List (Fin n)} (hcs : cs.Nodup) (listed : Listed n)
    (hlisted : ∀ e ∈ listed, e.2 ∉ cs ∧ Node m e.2 e.1.offset) :
    Decides (cs.foldlM (fun listed c =>
        chain m c (FreeList.patience m) listed none (index.list c).head) listed) fun found =>
      ∃ nodes : Fin n → List Nat, (∀ c ∈ cs, Traced m c 0 (index.list c).head (nodes c)) ∧
        found = table cs nodes ++ listed := by
  induction cs generalizing listed with
  | nil =>
      refine (Decides.of_ok rfl).congr fun found => ?_
      constructor
      · rintro rfl
        exact ⟨fun _ => [], nofun, rfl⟩
      · rintro ⟨_, -, rfl⟩
        rfl
  | cons c cs ih =>
      obtain ⟨hc, hcs⟩ := List.nodup_cons.1 hcs
      have hchain := chain_decides short c (FreeList.patience m) 0 listed (index.list c).head
        (Nat.zero_le _) (Nat.lt_succ_self _)
      have hrest : ∀ met, (∃ os, Traced m c 0 (index.list c).head os ∧
          (∀ e ∈ listed, e.1.offset ∉ os) ∧ met = entered c os ++ listed) →
            Decides (cs.foldlM (fun listed c =>
              chain m c (FreeList.patience m) listed none (index.list c).head) met) fun found =>
                ∃ nodes : Fin n → List Nat,
                  (∀ c ∈ cs, Traced m c 0 (index.list c).head (nodes c)) ∧
                    found = table cs nodes ++ met := by
        rintro _ ⟨os, htraced, -, rfl⟩
        refine ih hcs (entered c os ++ listed) fun e he => ?_
        rcases List.mem_append.mp he with he | he
        · obtain ⟨ho, rfl⟩ := mem_entered.1 he
          exact ⟨hc, htraced.nodes _ ho⟩
        · obtain ⟨hne, hnode⟩ := hlisted e he
          exact ⟨fun h => hne (List.mem_cons_of_mem _ h), hnode⟩
      rw [List.foldlM_cons]
      refine (hchain.bind hrest).congr fun found => ?_
      constructor
      · rintro ⟨_, ⟨os, htraced, -, rfl⟩, nodes, hnodes, rfl⟩
        -- The class is not met again, so its nodes can be added to what is known of the others.
        have hother : ∀ d ∈ cs, Function.update nodes c os d = nodes d := by
          intro d hd
          have hne : d ≠ c := by
            rintro rfl
            exact hc hd
          rw [Function.update_of_ne hne]
        refine ⟨Function.update nodes c os, List.forall_mem_cons.2 ⟨?_, ?_⟩, ?_⟩
        · rwa [Function.update_self]
        · intro d hd
          rw [hother d hd]
          exact hnodes d hd
        · rw [table_cons, Function.update_self, table_congr hother, List.append_assoc]
      · rintro ⟨nodes, hnodes, rfl⟩
        obtain ⟨htraced, hnodes⟩ := List.forall_mem_cons.1 hnodes
        refine ⟨_, ⟨nodes c, htraced, ?_, rfl⟩, nodes, hnodes, ?_⟩
        · intro e he ho
          obtain ⟨hne, hnode⟩ := hlisted e he
          have hclass : e.2 = c := hnode.class_eq.symm.trans (htraced.nodes _ ho).class_eq
          exact hne (hclass ▸ List.mem_cons_self ..)
        · rw [table_cons, List.append_assoc]

/-- **THE LISTS** pass their check exactly where every chain can be traced from its head, and the
table then holds all their nodes. -/
theorem lists_decides (short : m.size ≤ Region.maxSize) (index : Index n) :
    Decides (lists m index) fun listed =>
      ∃ nodes : Fin n → List Nat, (∀ c, Traced m c 0 (index.list c).head (nodes c)) ∧
        listed = table (List.finRange n) nodes := by
  refine (foldlM_chain_decides short index (List.nodup_finRange n) [] nofun).congr fun listed => ?_
  simp only [List.mem_finRange, forall_true_left, List.append_nil]

end Audit

end TagHeap
