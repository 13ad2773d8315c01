import TagHeap.Proofs.Canonicity

/-!
# Free lists as sorted sets

A free list by itself, whatever memory it is threaded through and whatever else that memory holds.
`FreeList.Sorted` is the invariant: a walk from the head meets ascending blocks, each of them names
the one before it and the one behind it, and the length counts them. To link a block in and to
unlink a node are then insertion into a sorted set and removal from it, and both leave every byte
alone but the links that have to change (`FreeList.Sorted.refines_set`).

The memory may be larger than what links reach. Then only the blocks that a link can name may be
nodes.
-/

namespace TagHeap

namespace Block

/-- A node fits at the block: its two links lie inside of the memory, and a link can name it. -/
structure Linkable (b : Block) (m : Memory) : Prop where
  inside : b.offset + 8 ≤ m.size
  low : b.offset < Size.wordBound

/-- The links of the two blocks do not overlap. -/
def Apart (a b : Block) : Prop := a.offset + 8 ≤ b.offset ∨ b.offset + 8 ≤ a.offset

/-- The places of the two link words of a block. -/
def links (b : Block) : List Nat := [b.offset, b.offset + 4]

/-- Blocks are known by their offsets. -/
theorem filterMap_ofOffset?_map (bs : List Block) :
    (bs.map (·.offset)).filterMap ofOffset? = bs := by
  induction bs with
  | nil => rfl
  | cons b bs ih => rw [List.map_cons, List.filterMap_cons, ofOffset?_eq_some, ih]

/-- The places of nodes whose links lie apart. -/
theorem places {m : Memory} {bs : List Block} (hl : ∀ b ∈ bs, b.Linkable m)
    (ha : bs.Pairwise fun a b => a.offset + 8 ≤ b.offset) : Nodes m (bs.map (·.offset)) where
  apart := List.pairwise_map.2 ha
  inside := List.forall_mem_map.2 fun b hb => ⟨b.pos, (hl b hb).inside⟩

/-- A block that is apart from ascending blocks has a place among them. -/
theorem exists_place {bs : List Block} {b : Block} (hs : bs.Pairwise (·.offset < ·.offset))
    (hb : ∀ a ∈ bs, a.Apart b) :
    ∃ front back, bs = front ++ back ∧ (∀ a ∈ front, a.offset + 8 ≤ b.offset) ∧
      ∀ c ∈ back, b.offset + 8 ≤ c.offset := by
  induction hs with
  | nil => exact ⟨[], [], rfl, nofun, nofun⟩
  | @cons a bs ha _ ih =>
      obtain ⟨hab, hbs⟩ := List.forall_mem_cons.1 hb
      rcases hab with hab | hab
      · obtain ⟨front, back, rfl, hfront, hback⟩ := ih hbs
        exact ⟨a :: front, back, rfl, List.forall_mem_cons.2 ⟨hab, hfront⟩, hback⟩
      · refine ⟨[], a :: bs, rfl, nofun, List.forall_mem_cons.2 ⟨hab, ?_⟩⟩
        intro c hc
        exact Nat.le_trans hab (Nat.le_of_lt (ha c hc))

end Block

/-- The place is in none of the words. -/
def OffWords (words : List Nat) (i : Nat) : Prop := ∀ w ∈ words, i < w ∨ w + 4 ≤ i

/-- The link words that face each other where `front` ends and `back` starts: the second one of the
last block in front and the first one of the first block behind. -/
def facing (front back : List Block) : List Nat :=
  (front.getLast?.map (·.offset + 4)).toList ++ (back.head?.map (·.offset)).toList

section Facing

variable {front back : List Block} {w i : Nat}

/-- The words that face a seam are links of blocks. -/
theorem mem_links_of_mem_facing (hw : w ∈ facing front back) :
    ∃ a ∈ front ++ back, w ∈ a.links := by
  rcases List.mem_append.mp hw with hw | hw
  · obtain ⟨a, ha, rfl⟩ := Option.map_eq_some_iff.1 (Option.mem_toList.1 hw)
    exact ⟨a, List.mem_append_left _ (List.mem_of_getLast? ha), by simp [Block.links]⟩
  · obtain ⟨a, ha, rfl⟩ := Option.map_eq_some_iff.1 (Option.mem_toList.1 hw)
    exact ⟨a, List.mem_append_right _ (List.mem_of_head? ha), by simp [Block.links]⟩

/-- Off the words that face a seam is clear of the seam. -/
theorem clearOf_of_offWords (h : OffWords (facing front back) i) :
    ClearOf (front.map (·.offset)) (back.map (·.offset)) i := by
  obtain ⟨hfront, hback⟩ := List.forall_mem_append.1 h
  constructor
  · rcases List.eq_nil_or_concat' front with rfl | ⟨front, a, rfl⟩
    · exact .inl rfl
    · have := hfront (a.offset + 4) (by simp)
      rw [List.map_append, List.map_singleton, List.getLastD_concat]
      omega
  · cases back with
    | nil => exact .inl rfl
    | cons c back =>
        have := hback c.offset (by simp)
        rw [List.map_cons, List.headD_cons]
        omega

end Facing

/-- The links of a block say what its neighbours are. -/
theorem Linked.threads {m : Memory} {last : Nat} {bs : List Block}
    (h : Linked m (Block.ofOffset? last) bs) (hin : ∀ b ∈ bs, b.offset + 8 ≤ m.size)
    (short : m.size < Size.bound) : Threads m last (bs.map (·.offset)) 0 := by
  induction bs generalizing last with
  | nil => trivial
  | cons b bs ih =>
      obtain ⟨hbefore, hafter, hrest⟩ := h
      obtain ⟨hb, hbs⟩ := List.forall_mem_cons.1 hin
      rw [Block.before_eq_ok short (by omega)] at hbefore
      rw [Block.after_eq_ok short hb] at hafter
      refine ⟨Block.ofOffset?_inj.1 (Except.ok.inj hbefore), ?_, ?_⟩
      · rw [← Block.ofOffset?_inj, Except.ok.inj hafter]
        cases bs with
        | nil => rfl
        | cons c bs => exact (Block.ofOffset?_eq_some c).symm
      · rw [← Block.ofOffset?_eq_some] at hrest
        exact ih hrest hbs

namespace FreeList

/-- The list is a sorted set of blocks: it runs through them in ascending order, and their links lie
apart, inside of the memory and where links reach. -/
structure Sorted (list : FreeList) (m : Memory) (bs : List Block) : Prop
    extends list.RunsThrough m bs where
  linkable : ∀ b ∈ bs, b.Linkable m
  apart : bs.Pairwise fun a b => a.offset + 8 ≤ b.offset

namespace Sorted

variable {list : FreeList} {m : Memory} {bs front back : List Block} {b : Block}

theorem places (h : list.Sorted m bs) : Nodes m (bs.map (·.offset)) :=
  Block.places h.linkable h.apart

theorem low (h : list.Sorted m bs) : ∀ o ∈ bs.map (·.offset), o < Size.wordBound :=
  List.forall_mem_map.2 fun b hb => (h.linkable b hb).low

theorem threaded (h : list.Sorted m bs) (short : m.size < Size.bound) :
    list.Threaded m (bs.map (·.offset)) where
  head := by
    rw [h.head]
    cases bs with
    | nil => rfl
    | cons b bs => exact (Block.ofOffset?_eq_some b).symm
  length := by rw [h.length, List.length_map]
  threads := h.linked.threads (fun b hb => (h.linkable b hb).inside) short

/-- A list that is threaded through places where nodes fit is a sorted set. -/
theorem of_threaded (ht : list.Threaded m (bs.map (·.offset)))
    (hn : Nodes m (bs.map (·.offset))) (short : m.size < Size.bound)
    (low : ∀ o ∈ bs.map (·.offset), o < Size.wordBound) : list.Sorted m bs := by
  obtain ⟨hruns, -⟩ := ht.runsThrough hn short
  rw [Block.filterMap_ofOffset?_map] at hruns
  refine { toRunsThrough := hruns, linkable := fun b hb => ?_, apart := List.pairwise_map.1 hn.apart }
  have hmem : b.offset ∈ bs.map (·.offset) := List.mem_map_of_mem hb
  exact ⟨(hn.inside _ hmem).2, low _ hmem⟩

/-- Unlinking removes a node from the set. -/
theorem remove_ensures (h : list.Sorted m (front ++ b :: back)) (short : m.size < Size.bound) :
    (list.remove b).Ensures m fun list' m' =>
      list'.Sorted m' (front ++ back) ∧ m.Agrees (OffWords (facing front back)) m' := by
  have ht := h.threaded short
  have hn := h.places
  have hlow := h.low
  rw [List.map_append, List.map_cons] at ht hn hlow
  refine (FreeList.remove_ensures ht hn short hlow).mono ?_
  rintro list' m' ⟨ht', hm⟩
  have hsub : (front.map (·.offset) ++ back.map (·.offset)).Sublist
      (front.map (·.offset) ++ b.offset :: back.map (·.offset)) :=
    (List.Sublist.refl _).middle _
  have hn' : Nodes m' (front.map (·.offset) ++ back.map (·.offset)) :=
    ⟨(hn.sublist hsub).apart, by simpa only [hm.size] using (hn.sublist hsub).inside⟩
  rw [← List.map_append] at ht' hn' hsub
  exact ⟨.of_threaded ht' hn' (hm.size ▸ short) fun o ho => hlow o (hsub.subset ho),
    hm.mono fun _ => clearOf_of_offWords⟩

/-- Linking in puts a block at its place in the set. -/
theorem insert_ensures (h : list.Sorted m (front ++ back)) (short : m.size < Size.bound)
    (hb : b.Linkable m) (hfront : ∀ a ∈ front, a.offset + 8 ≤ b.offset)
    (hback : ∀ c ∈ back, b.offset + 8 ≤ c.offset) :
    (list.insert b).Ensures m fun list' m' =>
      list'.Sorted m' (front ++ b :: back) ∧
        m.Agrees (OffWords (b.links ++ facing front back)) m' := by
  have hlink : ∀ a ∈ front ++ b :: back, a.Linkable m := by
    rw [List.forall_mem_append, List.forall_mem_cons]
    obtain ⟨h1, h2⟩ := List.forall_mem_append.1 h.linkable
    exact ⟨h1, hb, h2⟩
  have hapart : (front ++ b :: back).Pairwise fun a b => a.offset + 8 ≤ b.offset := by
    obtain ⟨h1, h2, h3⟩ := List.pairwise_append.1 h.apart
    refine List.pairwise_append.2 ⟨h1, .cons hback h2, fun a ha => List.forall_mem_cons.2 ?_⟩
    exact ⟨hfront a ha, h3 a ha⟩
  have hn := Block.places hlink hapart
  have hlow : ∀ o ∈ (front ++ b :: back).map (·.offset), o < Size.wordBound :=
    List.forall_mem_map.2 fun a ha => (hlink a ha).low
  have ht := h.threaded short
  rw [List.map_append, List.map_cons] at hn hlow
  rw [List.map_append] at ht
  refine (FreeList.insert_ensures ht hn short hlow).mono ?_
  rintro list' m' ⟨ht', hm⟩
  have hn' : Nodes m' (front.map (·.offset) ++ b.offset :: back.map (·.offset)) :=
    ⟨hn.apart, by simpa only [hm.size] using hn.inside⟩
  rw [← List.map_cons, ← List.map_append] at ht' hn' hlow
  refine ⟨.of_threaded ht' hn' (hm.size ▸ short) hlow, hm.mono fun i hi => ?_⟩
  obtain ⟨hown, hseam⟩ := List.forall_mem_append.1 hi
  have h1 := hown b.offset (by simp [Block.links])
  have h2 := hown (b.offset + 4) (by simp [Block.links])
  exact ⟨by omega, clearOf_of_offWords hseam⟩

/-- The nodes of a set name the same neighbours wherever the set is threaded. -/
theorem byte_eq {m' : Memory} (h : list.Sorted m bs) (h' : list.Sorted m' bs)
    (short : m.size < Size.bound) (short' : m'.size < Size.bound) {a : Block} (ha : a ∈ bs)
    {w i : Nat} (hw : w ∈ a.links) (hi : w ≤ i) (hi' : i < w + 4) : m'.byte i = m.byte i := by
  obtain ⟨hbefore, hafter⟩ := (h.threaded short).threads.word_eq (h'.threaded short').threads
    (List.mem_map_of_mem ha)
  rcases List.mem_cons.mp hw with rfl | hw
  · exact Memory.byte_eq_of_word_eq hbefore hi hi'
  · obtain rfl := List.mem_singleton.1 hw
    exact Memory.byte_eq_of_word_eq hafter hi hi'

/-- **A FREE LIST REFINES A SORTED SET.** To link in a block whose links lie apart from those of all
nodes succeeds and puts it at its place in the set; to unlink a node succeeds and takes it out of
the set. Only links are written: those of a block that is linked in, and the two that face it or the
node that leaves. A block that is linked in and unlinked again leaves the list as it was, and every
byte but those of its own links. -/
theorem refines_set (h : list.Sorted m bs) (short : m.size < Size.bound) :
    (∀ b, b.Linkable m → (∀ a ∈ bs, a.Apart b) →
      ∃ front back list' m', bs = front ++ back ∧ (∀ a ∈ front, a.offset < b.offset) ∧
        (∀ c ∈ back, b.offset < c.offset) ∧ list.insert b m = .ok list' m' ∧
        list'.Sorted m' (front ++ b :: back) ∧
        m.Agrees (OffWords (b.links ++ facing front back)) m' ∧
        ∃ m'', list'.remove b m' = .ok list m'' ∧ list.Sorted m'' bs ∧
          m.Agrees (OffWords b.links) m'') ∧
    ∀ front b back, bs = front ++ b :: back →
      ∃ list' m', list.remove b m = .ok list' m' ∧ list'.Sorted m' (front ++ back) ∧
        m.Agrees (OffWords (facing front back)) m' := by
  constructor
  · intro b hb hapart
    obtain ⟨front, back, rfl, hfront, hback⟩ := Block.exists_place h.ascending hapart
    obtain ⟨list', m', hinsert, h', hm⟩ := h.insert_ensures short hb hfront hback
    have short' : m'.size < Size.bound := hm.size ▸ short
    obtain ⟨list'', m'', hremove, h'', hm'⟩ := h'.remove_ensures short'
    have hsame : list'' = list := by
      have hhead := h''.head.trans h.head.symm
      have hlength := h''.length.trans h.length.symm
      cases list''
      cases list
      exact congrArg₂ FreeList.mk hhead hlength
    subst hsame
    refine ⟨front, back, list', m', rfl, ?_, ?_, hinsert, h', hm, m'', hremove, h'',
      hm'.size.trans hm.size, fun i hi => ?_⟩
    · intro a ha
      exact Nat.lt_of_lt_of_le (Nat.lt_add_of_pos_right (by decide)) (hfront a ha)
    · intro c hc
      exact Nat.lt_of_lt_of_le (Nat.lt_add_of_pos_right (by decide)) (hback c hc)
    · -- The words that face the block were written twice, and now they are what they were.
      by_cases hseam : OffWords (facing front back) i
      · exact (hm'.byte i hseam).trans (hm.byte i (List.forall_mem_append.2 ⟨hi, hseam⟩))
      · simp only [OffWords, not_forall, not_or, Nat.not_lt, Nat.not_le] at hseam
        obtain ⟨w, hw, hwi, hiw⟩ := hseam
        obtain ⟨a, ha, hwa⟩ := mem_links_of_mem_facing hw
        exact h.byte_eq h'' short (hm'.size ▸ short') ha hwa hwi hiw
  · rintro front b back rfl
    exact h.remove_ensures short

end Sorted

/-- A list of the nodes 16 and 48, and the memory it is threaded through. -/
def twoNodes : FreeList × Memory :=
  (⟨Block.ofOffset? 16, 2⟩, ((Memory.zeroed 64).setWord 20 48).setWord 48 16)

theorem sorted_twoNodes :
    twoNodes.1.Sorted twoNodes.2 [⟨16, by decide⟩, ⟨48, by decide⟩] where
  nodes := rfl
  head := rfl
  length := rfl
  linked := ⟨rfl, rfl, rfl, rfl, trivial⟩
  ascending := .cons (by simp) (.cons nofun .nil)
  linkable := List.forall_mem_cons.2
    ⟨⟨by decide, by decide⟩, List.forall_mem_cons.2 ⟨⟨by decide, by decide⟩, nofun⟩⟩
  apart := .cons (by simp) (.cons nofun .nil)

/-- The block 32 goes between the two nodes and leaves again, and either node may leave the list. -/
theorem refines_set_twoNodes :
    (∃ list m, twoNodes.1.insert ⟨32, by decide⟩ twoNodes.2 = .ok list m ∧ list.length = 3 ∧
      ∃ m', list.remove ⟨32, by decide⟩ m = .ok twoNodes.1 m' ∧
        twoNodes.2.Agrees (OffWords [32, 36]) m') ∧
    (∃ list m, twoNodes.1.remove ⟨16, by decide⟩ twoNodes.2 = .ok list m ∧
      list.nodes m = .ok [⟨48, by decide⟩] ∧ twoNodes.2.Agrees (OffWords [48]) m) ∧
    ∃ list m, twoNodes.1.remove ⟨48, by decide⟩ twoNodes.2 = .ok list m ∧
      list.nodes m = .ok [⟨16, by decide⟩] ∧ twoNodes.2.Agrees (OffWords [20]) m := by
  obtain ⟨hinsert, hremove⟩ := sorted_twoNodes.refines_set (by decide)
  refine ⟨?_, ?_, ?_⟩
  · obtain ⟨front, back, list, m, hparts, -, -, hok, hsorted, -, m', hback, -, hm⟩ :=
      hinsert ⟨32, by decide⟩ ⟨by decide, by decide⟩ (List.forall_mem_cons.2
        ⟨.inl (by decide), List.forall_mem_cons.2 ⟨.inr (by decide), nofun⟩⟩)
    refine ⟨list, m, hok, ?_, m', hback, hm⟩
    have hlength := congrArg List.length hparts
    rw [List.length_append] at hlength
    rw [hsorted.length, List.length_append, List.length_cons, ← Nat.add_assoc, ← hlength]
    rfl
  · obtain ⟨list, m, hok, hsorted, hm⟩ := hremove [] ⟨16, by decide⟩ [⟨48, by decide⟩] rfl
    exact ⟨list, m, hok, hsorted.nodes, hm⟩
  · obtain ⟨list, m, hok, hsorted, hm⟩ := hremove [⟨16, by decide⟩] ⟨48, by decide⟩ [] rfl
    exact ⟨list, m, hok, hsorted.nodes, hm⟩

end FreeList

end TagHeap
