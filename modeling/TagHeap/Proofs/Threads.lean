import TagHeap.FreeList
import TagHeap.Proofs.Agreement
import TagHeap.Proofs.Ensures

/-!
# The threads of free lists

A free list is a chain through memory. `Threads m last os next` says what its links are: the nodes
at the offsets `os` name each other in both directions, the first one names `last` before it and the
last one names `next` after it. Offset zero stands for no node, in the statement as in the words.

The heart is `threads_append`: a chain may be cut at any seam, and what the two parts share is only
the offset that each names beyond the cut. Unlinking a node and linking one in both rewrite the two
words that face the seam, so `FreeList.remove_ensures` and `FreeList.insert_ensures` also say that
NO OTHER byte changes.
-/

namespace TagHeap

/-- The nodes at `os` are linked in both directions, the first one behind `last` and the last one in
front of `next`. -/
def Threads (m : Memory) : (last : Nat) → List Nat → (next : Nat) → Prop
  | _, [], _ => True
  | last, o :: os, next =>
      (m.word o).toNat = last ∧ (m.word (o + 4)).toNat = os.headD next ∧ Threads m o os next

theorem threads_cons {m : Memory} {last next o : Nat} {os : List Nat} :
    Threads m last (o :: os) next ↔
      (m.word o).toNat = last ∧ (m.word (o + 4)).toNat = os.headD next ∧ Threads m o os next :=
  Iff.rfl

/-- A chain may be cut at any seam. -/
theorem threads_append {m : Memory} {last next : Nat} {as bs : List Nat} :
    Threads m last (as ++ bs) next ↔
      Threads m last as (bs.headD next) ∧ Threads m (as.getLastD last) bs next := by
  induction as generalizing last with
  | nil => exact ⟨fun h => ⟨trivial, h⟩, fun h => h.2⟩
  | cons a as ih =>
      have hhead : (as ++ bs).headD next = as.headD (bs.headD next) := by cases as <;> rfl
      rw [List.cons_append, threads_cons, threads_cons, ih, hhead, List.getLastD_cons]
      constructor
      · rintro ⟨h1, h2, h3, h4⟩
        exact ⟨⟨h1, h2, h3⟩, h4⟩
      · rintro ⟨⟨h1, h2, h3⟩, h4⟩
        exact ⟨h1, h2, h3, h4⟩

/-- A chain lives in the link words of its nodes. -/
theorem Threads.congr {m m' : Memory} {last next : Nat} {os : List Nat}
    (h : Threads m last os next)
    (hk : ∀ o ∈ os, ∀ i, o ≤ i → i < o + 8 → m'.byte i = m.byte i) :
    Threads m' last os next := by
  induction os generalizing last with
  | nil => trivial
  | cons o os ih =>
      obtain ⟨h1, h2, h3⟩ := h
      have ho := hk o (List.mem_cons_self ..)
      refine ⟨?_, ?_, ih h3 fun x hx => hk x (List.mem_cons_of_mem _ hx)⟩
      · rw [Memory.word_congr fun j hj hj' => ho j hj (by omega)]
        exact h1
      · rw [Memory.word_congr fun j hj hj' => ho j (by omega) (by omega)]
        exact h2

/-- The links of a chain are determined by its nodes. -/
theorem Threads.word_eq {m m' : Memory} {last next o : Nat} {os : List Nat} (h : Threads m last os next)
    (h' : Threads m' last os next) (ho : o ∈ os) :
    m'.word o = m.word o ∧ m'.word (o + 4) = m.word (o + 4) := by
  induction os generalizing last with
  | nil => exact nomatch ho
  | cons a os ih =>
      obtain ⟨h1, h2, h3⟩ := h
      obtain ⟨h1', h2', h3'⟩ := h'
      rcases List.mem_cons.mp ho with rfl | ho
      · exact ⟨UInt32.toNat_inj.1 (h1'.trans h1.symm), UInt32.toNat_inj.1 (h2'.trans h2.symm)⟩
      · exact ih h3 h3' ho

/-- The places of nodes: inside the memory and a node's links apart. -/
structure Nodes (m : Memory) (os : List Nat) : Prop where
  apart : os.Pairwise fun a b => a + 8 ≤ b
  inside : ∀ o ∈ os, 0 < o ∧ o + 8 ≤ m.size

namespace Nodes

variable {m : Memory} {os os' : List Nat}

theorem sublist (h : Nodes m os) (hs : os'.Sublist os) : Nodes m os' :=
  ⟨h.apart.sublist hs, fun o ho => h.inside o (hs.subset ho)⟩

theorem headD (h : Nodes m os) : os.headD 0 = 0 ∨ os.headD 0 + 8 ≤ m.size := by
  cases os with
  | nil => exact .inl rfl
  | cons o os => exact .inr (h.inside o (List.mem_cons_self ..)).2

theorem getLastD (h : Nodes m os) : os.getLastD 0 = 0 ∨ os.getLastD 0 + 8 ≤ m.size := by
  rcases List.eq_nil_or_concat os with rfl | ⟨os, o, rfl⟩
  · exact .inl rfl
  · rw [List.concat_eq_append, List.getLastD_concat]
    exact .inr (h.inside o (by simp)).2

/-- In a memory that links reach all over, they reach its nodes. -/
theorem low (h : Nodes m os) (fits : m.size < Size.wordBound) : ∀ o ∈ os, o < Size.wordBound := by
  intro o ho
  have := (h.inside o ho).2
  omega

/-- There are fewer nodes than bytes. -/
theorem length_le (h : Nodes m os) : os.length ≤ m.size := by
  have key : ∀ lo, (∀ o ∈ os, lo ≤ o) → lo ≤ m.size → lo + os.length ≤ m.size := by
    obtain ⟨hp, hi⟩ := h
    induction hp with
    | nil => exact fun lo _ h => h
    | @cons o os ho _ ih =>
        intro lo hlo _
        have h1 := hlo o (List.mem_cons_self ..)
        have h2 := hi o (List.mem_cons_self ..)
        have h3 := ih (fun x hx => hi x (List.mem_cons_of_mem _ hx)) (o + 8) ho h2.2
        rw [List.length_cons]
        omega
  have := key 0 (fun _ _ => Nat.zero_le _) (Nat.zero_le _)
  omega

end Nodes

/-- Link words reach every memory that is short enough for sizes. -/
theorem size_lt_bound {m : Memory} (h : m.size < Size.wordBound) : m.size < Size.bound :=
  Nat.lt_trans h (by decide)

namespace Block

theorem ofOffset?_of_pos {o : Nat} (h : 0 < o) : ofOffset? o = some ⟨o, h⟩ := dif_pos h

theorem ofOffset?_inj {a b : Nat} : ofOffset? a = ofOffset? b ↔ a = b := by
  constructor
  · intro h
    rcases Nat.eq_zero_or_pos b with rfl | hb
    · rcases Nat.eq_zero_or_pos a with ha | ha
      · exact ha
      · rw [ofOffset?_of_pos ha] at h
        exact nomatch h
    · rw [ofOffset?_of_pos hb] at h
      exact ofOffset?_eq_some_iff.1 h
  · intro h
    rw [h]

/-- The word that stands for the node at an offset, where it fits. -/
theorem toNat_link {o : Nat} (h : o < Size.wordBound) : (link (ofOffset? o)).toNat = o := by
  rcases Nat.eq_zero_or_pos o with rfl | hpos
  · rfl
  · rw [ofOffset?_of_pos hpos, link, UInt32.toNat_ofNat']
    exact Nat.mod_eq_of_lt h

theorem head?_filterMap_ofOffset? {os : List Nat} (hpos : ∀ o ∈ os, 0 < o) :
    (os.filterMap ofOffset?).head? = ofOffset? (os.headD 0) := by
  cases os with
  | nil => rfl
  | cons o os =>
      have ho := ofOffset?_of_pos (hpos o (List.mem_cons_self ..))
      rw [List.filterMap_cons, ho]
      exact ho.symm

/-- Places that are not zero are the places of blocks. -/
theorem map_filterMap_ofOffset? {os : List Nat} (hpos : ∀ o ∈ os, 0 < o) :
    (os.filterMap ofOffset?).map (·.offset) = os := by
  induction os with
  | nil => rfl
  | cons o os ih =>
      have hrest := ih fun o ho => hpos o (List.mem_cons_of_mem _ ho)
      rw [List.filterMap_cons, ofOffset?_of_pos (hpos o (List.mem_cons_self ..)), List.map_cons,
        hrest]

theorem length_filterMap_ofOffset? {os : List Nat} (hpos : ∀ o ∈ os, 0 < o) :
    (os.filterMap ofOffset?).length = os.length := by
  rw [← List.length_map (f := Block.offset), map_filterMap_ofOffset? hpos]

theorem mem_filterMap_ofOffset? {os : List Nat} {b : Block} :
    b ∈ os.filterMap ofOffset? ↔ b.offset ∈ os := by
  simp only [List.mem_filterMap, ofOffset?_eq_some_iff, exists_eq_right]

/-- A link onwards can only be read inside of the memory. -/
theorem stop_le_of_after_eq_ok {b : Block} {m : Memory} {next : Option Block}
    (h : b.after m = .ok next) : b.offset + 8 ≤ m.size := by
  rw [after, Size.add] at h
  split at h
  · rw [bind_of_ok rfl, Memory.readWord, Size.add] at h
    split at h
    · rw [bind_of_ok rfl] at h
      split at h
      · assumption
      · cases h
    · cases h
  · cases h

end Block

/-! ## Chains

A walk from node to node reads the links onwards only. -/

/-- Each block names the one behind it, and the last one names none. -/
def Chained (m : Memory) : List Block → Prop
  | [] => True
  | b :: bs => b.after m = .ok bs.head? ∧ Chained m bs

/-- An ascending chain has fewer nodes than there are bytes. -/
theorem Chained.length_le {m : Memory} {bs : List Block} (h : Chained m bs)
    (hs : bs.Pairwise (·.offset < ·.offset)) : bs.length ≤ m.size := by
  have key : ∀ lo, (∀ b ∈ bs, lo ≤ b.offset) → lo ≤ m.size → lo + bs.length ≤ m.size := by
    induction hs with
    | nil => exact fun lo _ hlo => hlo
    | @cons b bs hb _ ih =>
        intro lo hlo _
        obtain ⟨hafter, hrest⟩ := h
        have h1 := hlo b (List.mem_cons_self ..)
        have h2 := Block.stop_le_of_after_eq_ok hafter
        have h3 := ih hrest (b.offset + 1) hb (by omega)
        rw [List.length_cons]
        omega
  have := key 0 (fun _ _ => Nat.zero_le _) (Nat.zero_le _)
  omega

/-- The places of nodes ascend. -/
theorem Nodes.increasing {m : Memory} {os : List Nat} (hn : Nodes m os) : os.Pairwise (· < ·) :=
  hn.apart.imp fun hle => Nat.lt_of_lt_of_le (Nat.lt_add_of_pos_right (by decide)) hle

/-- The nodes at ascending places ascend. -/
theorem Nodes.ascending {m : Memory} {os : List Nat} (hn : Nodes m os) :
    (os.filterMap Block.ofOffset?).Pairwise (·.offset < ·.offset) := by
  rw [← List.pairwise_map (f := Block.offset) (R := (· < ·)),
    Block.map_filterMap_ofOffset? fun o ho => (hn.inside o ho).1]
  exact hn.increasing

/-- Nodes that are linked in both directions are chained. -/
theorem Threads.chained {m : Memory} {last : Nat} {os : List Nat} (h : Threads m last os 0)
    (hn : Nodes m os) (fits : m.size < Size.bound) :
    Chained m (os.filterMap Block.ofOffset?) := by
  induction os generalizing last with
  | nil => trivial
  | cons o os ih =>
      obtain ⟨-, hnext, hrest⟩ := h
      obtain ⟨hpos, hinside⟩ := hn.inside o (List.mem_cons_self ..)
      have hn' : Nodes m os := hn.sublist (List.sublist_cons_self o os)
      have hhead := Block.head?_filterMap_ofOffset? fun o ho => (hn'.inside o ho).1
      rw [List.filterMap_cons, Block.ofOffset?_of_pos hpos]
      refine ⟨?_, ih hrest hn'⟩
      rw [Block.after_eq_ok fits hinside, hnext, hhead]

/-! ## Facing a seam -/

namespace Memory

/-- The memory after the node at `a`, if there is one, was given a new node after it. -/
def faceRight (m : Memory) (a : Nat) (node : Option Block) : Memory :=
  if a = 0 then m else m.setWord (a + 4) (Block.link node)

/-- The memory after the node at `b`, if there is one, was given a new node before it. -/
def faceLeft (m : Memory) (b : Nat) (node : Option Block) : Memory :=
  if b = 0 then m else m.setWord b (Block.link node)

theorem agrees_faceRight (m : Memory) (a : Nat) (node : Option Block) :
    m.Agrees (fun i => a = 0 ∨ i < a + 4 ∨ a + 8 ≤ i) (m.faceRight a node) := by
  rw [faceRight]
  split
  · exact Agrees.refl _ m
  · rename_i ha
    refine (Agrees.setWord m (a + 4) _).mono ?_
    intro i hi
    rcases hi with hi | hi
    · exact absurd hi ha
    · exact hi

theorem agrees_faceLeft (m : Memory) (b : Nat) (node : Option Block) :
    m.Agrees (fun i => b = 0 ∨ i < b ∨ b + 4 ≤ i) (m.faceLeft b node) := by
  rw [faceLeft]
  split
  · exact Agrees.refl _ m
  · rename_i hb
    refine (Agrees.setWord m b _).mono ?_
    intro i hi
    rcases hi with hi | hi
    · exact absurd hi hb
    · exact hi

theorem word_faceRight {m : Memory} {a : Nat} (ha : 0 < a) (node : Option Block) :
    (m.faceRight a node).word (a + 4) = Block.link node := by
  rw [faceRight, if_neg (by omega), word_setWord]

theorem word_faceLeft {m : Memory} {b : Nat} (hb : 0 < b) (node : Option Block) :
    (m.faceLeft b node).word b = Block.link node := by
  rw [faceLeft, if_neg (by omega), word_setWord]

end Memory

/-- The place is in neither of the two link words that face the seam between `as` and `bs`. -/
def ClearOf (as bs : List Nat) (i : Nat) : Prop :=
  (as.getLastD 0 = 0 ∨ i < as.getLastD 0 + 4 ∨ as.getLastD 0 + 8 ≤ i) ∧
    (bs.headD 0 = 0 ∨ i < bs.headD 0 ∨ bs.headD 0 + 4 ≤ i)

/-- A place that is clear of all nodes is clear of the seam. -/
theorem clearOf_of_forall {as bs : List Nat} {i : Nat}
    (h : ∀ o ∈ as ++ bs, i < o ∨ o + 8 ≤ i) : ClearOf as bs i := by
  constructor
  · rcases List.eq_nil_or_concat as with rfl | ⟨as, a, rfl⟩
    · exact .inl rfl
    · have := h a (by simp)
      rw [List.concat_eq_append, List.getLastD_concat]
      omega
  · cases bs with
    | nil => exact .inl rfl
    | cons b bs =>
        have := h b (by simp)
        rw [List.headD_cons]
        omega

section Seam

variable {m m' : Memory} {as bs : List Nat} {x y : Nat}

/-- The part of a chain in front of a seam after the words that face the seam were rewritten. -/
theorem threads_faced_front (x' : Nat) (hl : Threads m 0 as x) (hn : Nodes m (as ++ bs))
    (hm : m.Agrees (ClearOf as bs) m')
    (hx : as ≠ [] → (m'.word (as.getLastD 0 + 4)).toNat = x') : Threads m' 0 as x' := by
  obtain ⟨hpre, -, hcross⟩ := List.pairwise_append.1 hn.apart
  rcases List.eq_nil_or_concat as with rfl | ⟨as, a, rfl⟩
  · trivial
  · rw [List.concat_eq_append] at *
    rw [List.getLastD_concat] at hx
    obtain ⟨has, -, hasa⟩ := List.pairwise_append.1 hpre
    have hb : ∀ b ∈ bs.head?, a + 8 ≤ b := fun b hb =>
      hcross a (by simp) b (List.mem_of_mem_head? hb)
    -- The last node's own second word is the only one of the part that was written.
    have clear : ∀ i, i < a + 4 → ClearOf (as ++ [a]) bs i := by
      intro i hi
      refine ⟨by rw [List.getLastD_concat]; omega, ?_⟩
      cases bs with
      | nil => exact .inl rfl
      | cons b bs =>
          have := hb b rfl
          rw [List.headD_cons]
          omega
    obtain ⟨h1, h2, -, -⟩ := threads_append.1 hl
    refine threads_append.2 ⟨?_, ?_, hx (by simp), trivial⟩
    · refine h1.congr fun o ho i _ hi => hm.byte i (clear i ?_)
      have := hasa o ho a (by simp)
      omega
    · rw [hm.word fun j _ hj => clear j hj]
      exact h2

/-- The part of a chain behind a seam after the words that face the seam were rewritten. -/
theorem threads_faced_back (y' : Nat) (hr : Threads m y bs 0) (hn : Nodes m (as ++ bs))
    (hm : m.Agrees (ClearOf as bs) m')
    (hy : bs ≠ [] → (m'.word (bs.headD 0)).toNat = y') : Threads m' y' bs 0 := by
  obtain ⟨-, hpost, hcross⟩ := List.pairwise_append.1 hn.apart
  cases bs with
  | nil => trivial
  | cons b bs =>
      have ha : as.getLastD 0 = 0 ∨ as.getLastD 0 + 8 ≤ b := by
        rcases List.eq_nil_or_concat as with rfl | ⟨as, a, rfl⟩
        · exact .inl rfl
        · rw [List.concat_eq_append, List.getLastD_concat]
          exact .inr (hcross a (by simp) b (by simp))
      have clear : ∀ i, b + 4 ≤ i → ClearOf as (b :: bs) i := by
        intro i hi
        exact ⟨by omega, by rw [List.headD_cons]; omega⟩
      obtain ⟨-, h2, h3⟩ := hr
      refine ⟨hy (by simp), ?_, ?_⟩
      · rw [hm.word fun j hj _ => clear j hj]
        exact h2
      · refine h3.congr fun o ho i hi _ => hm.byte i (clear i ?_)
        have := List.rel_of_pairwise_cons hpost ho
        omega

end Seam

namespace FreeList

/-- The list runs through the nodes at `os`. -/
structure Threaded (list : FreeList) (m : Memory) (os : List Nat) : Prop where
  head : list.head = Block.ofOffset? (os.headD 0)
  length : list.length = os.length
  threads : Threads m 0 os 0

/-- A list keeps its nodes when their link words are kept. -/
theorem Threaded.congr {list : FreeList} {m m' : Memory} {os : List Nat} (h : list.Threaded m os)
    (hk : ∀ o ∈ os, ∀ i, o ≤ i → i < o + 8 → m'.byte i = m.byte i) : list.Threaded m' os :=
  ⟨h.head, h.length, h.threads.congr hk⟩

theorem forM_setAfter {m : Memory} {a : Nat} (fits : m.size < Size.bound)
    (inside : a = 0 ∨ a + 8 ≤ m.size) (node : Option Block) :
    (Block.ofOffset? a).forM (·.setAfter node) m = .ok ⟨⟩ (m.faceRight a node) := by
  rcases Nat.eq_zero_or_pos a with rfl | ha
  · rfl
  · rw [Block.ofOffset?_of_pos ha, Memory.faceRight, if_neg (by omega)]
    exact Block.setAfter_eq_ok fits (by show a + 8 ≤ m.size; omega) node

theorem forM_setBefore {m : Memory} {b : Nat} (fits : m.size < Size.bound)
    (inside : b = 0 ∨ b + 8 ≤ m.size) (node : Option Block) :
    (Block.ofOffset? b).forM (·.setBefore node) m = .ok ⟨⟩ (m.faceLeft b node) := by
  rcases Nat.eq_zero_or_pos b with rfl | hb
  · rfl
  · rw [Block.ofOffset?_of_pos hb, Memory.faceLeft, if_neg (by omega)]
    exact Block.setBefore_eq_ok fits (by show b + 4 ≤ m.size; omega) node

/-- The memory after the two words that face the seam between `as` and `bs` were rewritten. -/
def faced (m : Memory) (as bs : List Nat) (right left : Option Block) : Memory :=
  (m.faceRight (as.getLastD 0) right).faceLeft (bs.headD 0) left

section Faced

variable {m : Memory} {as bs : List Nat}

theorem agrees_faced (m : Memory) (as bs : List Nat) (right left : Option Block) :
    m.Agrees (ClearOf as bs) (faced m as bs right left) :=
  ((Memory.agrees_faceRight ..).mono fun _ hi => hi.1).trans
    ((Memory.agrees_faceLeft ..).mono fun _ hi => hi.2)

theorem word_faced_right (hn : Nodes m (as ++ bs)) (has : as ≠ []) (right left : Option Block) :
    (faced m as bs right left).word (as.getLastD 0 + 4) = Block.link right := by
  rcases List.eq_nil_or_concat as with rfl | ⟨as, a, rfl⟩
  · exact absurd rfl has
  · rw [List.concat_eq_append] at *
    have ha := hn.inside a (by simp)
    have hb : bs.headD 0 = 0 ∨ a + 8 ≤ bs.headD 0 := by
      cases bs with
      | nil => exact .inl rfl
      | cons b bs => exact .inr ((List.pairwise_append.1 hn.apart).2.2 a (by simp) b (by simp))
    rw [faced, (Memory.agrees_faceLeft ..).word, List.getLastD_concat, Memory.word_faceRight ha.1]
    intro j hj hj'
    rw [List.getLastD_concat] at hj hj'
    omega

theorem word_faced_left (hn : Nodes m (as ++ bs)) (hbs : bs ≠ []) (right left : Option Block) :
    (faced m as bs right left).word (bs.headD 0) = Block.link left := by
  cases bs with
  | nil => exact absurd rfl hbs
  | cons b bs => exact Memory.word_faceLeft (hn.inside b (by simp)).1 left

/-- Rewriting the two words that face a seam succeeds. -/
theorem faced_ensures {α : Type} {right left : Option Block} {f : PUnit → Step Memory α}
    {post : α → Memory → Prop} (hn : Nodes m (as ++ bs)) (short : m.size < Size.bound)
    (h : (f ⟨⟩).Ensures (faced m as bs right left) post) :
    Step.Ensures (do
      (Block.ofOffset? (as.getLastD 0)).forM (·.setAfter right)
      f (← (Block.ofOffset? (bs.headD 0)).forM (·.setBefore left))) m post := by
  have hl := (hn.sublist (List.sublist_append_left as bs)).getLastD
  have hr := (hn.sublist (List.sublist_append_right as bs)).headD
  have hs := (Memory.agrees_faceRight m (as.getLastD 0) right).size
  exact .bind_ok (forM_setAfter short hl right)
    (.bind_ok (forM_setBefore (hs ▸ short) (hs ▸ hr) left) h)

/-- Where a list starts that keeps its nodes at `as` and goes on with `cs`. -/
theorem head_append {list : FreeList} {ds : List Nat} (cs : List Nat)
    (ht : list.Threaded m (as ++ ds)) (hpos : ∀ a ∈ as, 0 < a) :
    (if (Block.ofOffset? (as.getLastD 0)).isSome then list.head else Block.ofOffset? (cs.headD 0))
      = Block.ofOffset? ((as ++ cs).headD 0) := by
  rcases List.eq_nil_or_concat as with rfl | ⟨as', a, rfl⟩
  · rfl
  · rw [List.concat_eq_append] at *
    have ha := hpos a (by simp)
    rw [List.getLastD_concat, Block.ofOffset?_of_pos ha, Option.isSome_some, if_pos rfl, ht.head]
    cases as' <;> rfl

end Faced

/-! ## Unlinking and linking -/

section Edit

variable {list : FreeList} {m : Memory} {as bs : List Nat} {b : Block}

private theorem mem_of_mem_seam {o x : Nat} (ho : o ∈ as ++ bs) : o ∈ as ++ x :: bs :=
  ((List.Sublist.refl _).middle x).subset ho

/-- Links reach the two nodes that face a seam, or there are none. -/
private theorem seam_lt (low : ∀ o ∈ as ++ bs, o < Size.wordBound) :
    as.getLastD 0 < Size.wordBound ∧ bs.headD 0 < Size.wordBound := by
  constructor
  · rcases List.eq_nil_or_concat as with rfl | ⟨as, a, rfl⟩
    · decide
    · rw [List.concat_eq_append, List.getLastD_concat]
      exact low a (by simp)
  · cases bs with
    | nil => decide
    | cons b bs => exact low b (by simp)

/-- **UNLINKING.** Taking a node off a list succeeds, leaves the other nodes in their order, and
writes to the two words that faced the node only. -/
theorem remove_ensures (ht : list.Threaded m (as ++ b.offset :: bs))
    (hn : Nodes m (as ++ b.offset :: bs)) (short : m.size < Size.bound)
    (low : ∀ o ∈ as ++ b.offset :: bs, o < Size.wordBound) :
    (list.remove b).Ensures m fun list' m' =>
      list'.Threaded m' (as ++ bs) ∧ m.Agrees (ClearOf as bs) m' := by
  have hb := hn.inside b.offset (by simp)
  have hn' := hn.sublist ((List.Sublist.refl _).middle b.offset)
  obtain ⟨hl, hbefore, hafter, hr⟩ := threads_append.1 ht.threads
  have h1 : b.before m = .ok (Block.ofOffset? (as.getLastD 0)) := by
    rw [Block.before_eq_ok short (by omega), hbefore]
  have h2 : b.after m = .ok (Block.ofOffset? (bs.headD 0)) := by
    rw [Block.after_eq_ok short (by omega), hafter]
  have h3 : Size.sub list.length 1 = .ok (as ++ bs).length := by
    have hlen : list.length = (as ++ bs).length + 1 := by
      simp only [ht.length, List.length_append, List.length_cons]
      omega
    rw [hlen, Size.sub_eq_ok (Nat.le_add_left ..), Nat.add_sub_cancel]
  have hpos : ∀ a ∈ as, 0 < a := fun a ha => (hn.inside a (List.mem_append_left _ ha)).1
  refine .inspect h1 (.inspect h2 (faced_ensures hn' short (.lift h3 (.pure ?_))))
  have hm := agrees_faced m as bs (Block.ofOffset? (bs.headD 0)) (Block.ofOffset? (as.getLastD 0))
  obtain ⟨hlast, hnext⟩ := seam_lt fun o ho => low o (mem_of_mem_seam ho)
  refine ⟨⟨head_append _ ht hpos, rfl, threads_append.2
    ⟨threads_faced_front _ hl hn' hm ?_, threads_faced_back _ hr hn' hm ?_⟩⟩, hm⟩
  · intro has
    rw [word_faced_right hn' has, Block.toNat_link hnext]
  · intro hbs
    rw [word_faced_left hn' hbs, Block.toNat_link hlast]

/-- The search for the place of a block stops at the seam between the nodes below it and the nodes
above it. -/
theorem seek_eq_ok (hn : Nodes m (as ++ bs)) (short : m.size < Size.bound)
    (hbelow : ∀ a ∈ as, a < b.offset) (habove : ∀ c ∈ bs, b.offset < c) {last count : Nat}
    (ht : Threads m last (as ++ bs) 0) (hc : as.length < count) :
    seek m b count (Block.ofOffset? last) (Block.ofOffset? ((as ++ bs).headD 0)) =
      .ok (Block.ofOffset? (as.getLastD last), Block.ofOffset? (bs.headD 0)) := by
  induction as generalizing last count with
  | nil =>
      cases bs with
      | nil => rw [List.getLastD_nil]; cases count <;> rfl
      | cons c bs =>
          obtain ⟨count, rfl⟩ := Nat.exists_eq_succ_of_ne_zero (Nat.ne_of_gt hc)
          have hpos := (hn.inside c (by simp)).1
          rw [List.nil_append, List.headD_cons, Block.ofOffset?_of_pos hpos, seek,
            if_pos (habove c (by simp)), List.getLastD_nil]
  | cons a as ih =>
      obtain ⟨count, rfl⟩ := Nat.exists_eq_succ_of_ne_zero (Nat.ne_zero_of_lt hc)
      have ha := hn.inside a (by simp)
      rw [List.cons_append] at ht
      obtain ⟨-, hafter, hrest⟩ := ht
      have hstep : (Block.mk a ha.1).after m = .ok (Block.ofOffset? ((as ++ bs).headD 0)) := by
        rw [Block.after_eq_ok short ha.2, hafter]
      have hnot : ¬ b.offset < a := Nat.lt_asymm (hbelow a (by simp))
      have hrec := ih (hn.sublist (List.sublist_cons_self ..))
        (fun x hx => hbelow x (List.mem_cons_of_mem _ hx)) hrest
        (Nat.lt_of_succ_lt_succ hc)
      rw [List.cons_append, List.headD_cons, Block.ofOffset?_of_pos ha.1, seek, if_neg hnot, hstep,
        List.getLastD_cons]
      rw [Block.ofOffset?_of_pos ha.1] at hrec
      exact hrec

/-- The memory after a block was given links of its own. -/
def owned (m : Memory) (b : Block) (last next : Nat) : Memory :=
  (m.setWord b.offset (Block.link (Block.ofOffset? last))).setWord (b.offset + 4)
    (Block.link (Block.ofOffset? next))

theorem agrees_owned (m : Memory) (b : Block) (last next : Nat) :
    m.Agrees (fun i => i < b.offset ∨ b.offset + 8 ≤ i) (owned m b last next) :=
  ((Memory.Agrees.setWord m b.offset _).mono (by omega)).trans
    ((Memory.Agrees.setWord _ (b.offset + 4) _).mono (by omega))

/-- Where a block belongs, no node's links overlap its own. -/
theorem owned_disjoint (hn : Nodes m (as ++ b.offset :: bs)) :
    ∀ o ∈ as ++ bs, o + 8 ≤ b.offset ∨ b.offset + 8 ≤ o := by
  obtain ⟨-, hpost, hcross⟩ := List.pairwise_append.1 hn.apart
  intro o ho
  rcases List.mem_append.mp ho with ho | ho
  · exact .inl (hcross o ho b.offset (by simp))
  · exact .inr (List.rel_of_pairwise_cons hpost ho)

/-- A chain with one more node, once the block's own links and those that face it are written. -/
theorem threads_linked (ht : Threads m 0 (as ++ bs) 0) (hn : Nodes m (as ++ b.offset :: bs))
    (low : ∀ o ∈ as ++ b.offset :: bs, o < Size.wordBound) :
    Threads (faced (owned m b (as.getLastD 0) (bs.headD 0)) as bs (some b) (some b)) 0
      (as ++ b.offset :: bs) 0 := by
  have hdis := owned_disjoint hn
  have hn' := hn.sublist ((List.Sublist.refl _).middle b.offset)
  obtain ⟨hl, hr⟩ := threads_append.1 ht
  obtain ⟨hlast, hnext⟩ := seam_lt fun o ho => low o (mem_of_mem_seam ho)
  have hown := agrees_owned m b (as.getLastD 0) (bs.headD 0)
  have hword : (owned m b (as.getLastD 0) (bs.headD 0)).word b.offset =
      Block.link (Block.ofOffset? (as.getLastD 0)) := by
    rw [owned, Memory.word_setWord_of_disjoint (by omega), Memory.word_setWord]
  have hword' : (owned m b (as.getLastD 0) (bs.headD 0)).word (b.offset + 4) =
      Block.link (Block.ofOffset? (bs.headD 0)) := Memory.word_setWord ..
  -- What was written so far are links of `b` alone, so both parts of the chain are still there.
  generalize owned m b (as.getLastD 0) (bs.headD 0) = m₁ at *
  have hn₁ : Nodes m₁ (as ++ bs) := ⟨hn'.apart, by simpa only [hown.size] using hn'.inside⟩
  have hm := agrees_faced m₁ as bs (some b) (some b)
  have kept : ∀ o ∈ as ++ bs, ∀ i, o ≤ i → i < o + 8 → m₁.byte i = m.byte i := by
    intro o ho i _ _
    have := hdis o ho
    exact hown.byte i (by omega)
  have clear : ∀ i, b.offset ≤ i → i < b.offset + 8 → ClearOf as bs i := by
    intro i _ _
    refine clearOf_of_forall fun o ho => ?_
    have := hdis o ho
    omega
  have hself : (Block.link (some b)).toNat = b.offset := by
    rw [← Block.ofOffset?_eq_some, Block.toNat_link (low b.offset (by simp))]
  have hl' := threads_faced_front b.offset
    (hl.congr fun o ho => kept o (List.mem_append_left _ ho)) hn₁ hm
    fun has => by rw [word_faced_right hn₁ has, hself]
  have hr' := threads_faced_back b.offset
    (hr.congr fun o ho => kept o (List.mem_append_right _ ho)) hn₁ hm
    fun hbs => by rw [word_faced_left hn₁ hbs, hself]
  -- The words that face the seam are not those of `b`, whose links were written first.
  refine threads_append.2 ⟨hl', ?_, ?_, hr'⟩
  · rw [hm.word fun j hj hj' => clear j hj (by omega), hword, Block.toNat_link hlast]
  · rw [hm.word fun j hj hj' => clear j (by omega) (by omega), hword', Block.toNat_link hnext]

/-- **LINKING IN.** Putting a block on a list succeeds and puts it between the nodes below it and
the nodes above it. It writes to the block's own link words and to the two words that now face it.
-/
theorem insert_ensures (ht : list.Threaded m (as ++ bs)) (hn : Nodes m (as ++ b.offset :: bs))
    (short : m.size < Size.bound) (low : ∀ o ∈ as ++ b.offset :: bs, o < Size.wordBound) :
    (list.insert b).Ensures m fun list' m' =>
      list'.Threaded m' (as ++ b.offset :: bs) ∧
        m.Agrees (fun i => (i < b.offset ∨ b.offset + 8 ≤ i) ∧ ClearOf as bs i) m' := by
  have hb := hn.inside b.offset (by simp)
  have hn' := hn.sublist ((List.Sublist.refl _).middle b.offset)
  obtain ⟨-, hpost, hcross⟩ := List.pairwise_append.1 hn.apart
  have h1 : seek m b (patience m) none list.head =
      .ok (Block.ofOffset? (as.getLastD 0), Block.ofOffset? (bs.headD 0)) := by
    rw [ht.head]
    refine seek_eq_ok hn' short (fun a ha => ?_) (fun c hc => ?_) ht.threads ?_
    · have := hcross a ha b.offset (by simp)
      omega
    · have := List.rel_of_pairwise_cons hpost hc
      omega
    · have := hn'.length_le
      rw [List.length_append] at this
      rw [patience]
      omega
  have h2 : b.setBefore (Block.ofOffset? (as.getLastD 0)) m = .ok () _ :=
    Block.setBefore_eq_ok short (by omega) _
  have h3 : b.setAfter (Block.ofOffset? (bs.headD 0)) _ =
      .ok () (owned m b (as.getLastD 0) (bs.headD 0)) :=
    Block.setAfter_eq_ok (by rwa [Memory.size_setWord]) (by rw [Memory.size_setWord]; exact hb.2) _
  have h4 : Size.add list.length 1 = .ok (as ++ b.offset :: bs).length := by
    have hlen : (as ++ b.offset :: bs).length = list.length + 1 := by
      simp only [ht.length, List.length_append, List.length_cons]
      omega
    have := hn.length_le
    rw [hlen, Size.add_eq_ok (by omega)]
  have hown := agrees_owned m b (as.getLastD 0) (bs.headD 0)
  have hn₁ : Nodes (owned m b (as.getLastD 0) (bs.headD 0)) (as ++ bs) :=
    ⟨hn'.apart, by simpa only [hown.size] using hn'.inside⟩
  refine .inspect h1 (.bind_ok h2 (.bind_ok h3 ?_))
  refine faced_ensures hn₁ (by rwa [hown.size]) (.lift h4 (.pure ⟨⟨?_, rfl, ?_⟩, ?_⟩))
  · have hpos : ∀ a ∈ as, 0 < a := fun a ha => (hn.inside a (List.mem_append_left _ ha)).1
    rw [← head_append (b.offset :: bs) ht hpos, List.headD_cons, Block.ofOffset?_eq_some]
  · exact threads_linked ht.threads hn low
  · exact (hown.mono fun i hi => hi.1).trans
      ((agrees_faced _ as bs (some b) (some b)).mono fun i hi => hi.2)

end Edit

/-! ## Visiting -/

section Visit

variable {α : Type} {m : Memory} {list : FreeList} {bs : List Block} {os : List Nat}
  {visit : Block → Except Fault α} {f : Block → α}

/-- The walk along a chain meets its nodes in their order. -/
theorem follow_eq_ok (h : Chained m bs) (hv : ∀ b ∈ bs, visit b = .ok (f b)) {count : Nat}
    (hc : bs.length ≤ count) : follow m visit count bs.head? = .ok (bs.map f, none) := by
  induction bs generalizing count with
  | nil => cases count <;> rfl
  | cons b bs ih =>
      obtain ⟨count, rfl⟩ := Nat.exists_eq_succ_of_ne_zero (Nat.ne_zero_of_lt hc)
      obtain ⟨honward, hrest⟩ := h
      have hvisit := hv b (List.mem_cons_self ..)
      have hrec := ih hrest (fun c hc => hv c (List.mem_cons_of_mem _ hc))
        (Nat.le_of_succ_le_succ hc)
      rw [List.head?_cons, follow, bind_of_ok honward, bind_of_ok hvisit, bind_of_ok hrec]
      rfl

/-- A visit of all nodes sees each of them once, in their order. No more is asked of the list than
that its chain ascends: a walk along it can meet no node twice. -/
theorem visitAll_of_chained (hhead : list.head = bs.head?) (h : Chained m bs)
    (hs : bs.Pairwise (·.offset < ·.offset)) (hv : ∀ b ∈ bs, visit b = .ok (f b)) :
    list.visitAll m visit = .ok (bs.map f) := by
  have hc : bs.length ≤ patience m := Nat.le_succ_of_le (h.length_le hs)
  rw [visitAll, hhead, follow_eq_ok h hv hc]
  rfl

/-- So does a visit of a list that is linked in both directions. -/
theorem visitAll_eq_ok (ht : list.Threaded m os) (hn : Nodes m os) (fits : m.size < Size.bound)
    (hv : ∀ b : Block, b.offset ∈ os → visit b = .ok (f b)) :
    list.visitAll m visit = .ok ((os.filterMap Block.ofOffset?).map f) := by
  have hhead : list.head = (os.filterMap Block.ofOffset?).head? := by
    rw [ht.head, Block.head?_filterMap_ofOffset? fun o ho => (hn.inside o ho).1]
  exact visitAll_of_chained hhead (ht.threads.chained hn fits) hn.ascending fun b hb =>
    hv b (Block.mem_filterMap_ofOffset?.1 hb)

end Visit

end FreeList

end TagHeap
