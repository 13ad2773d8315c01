import TagHeap.Proofs.Neighbours

/-!
# Searching for the best fit

`BestAmong sized size answer` says that `answer` is the best fit among some blocks: the smallest one
that holds `size` bytes, and of equals the one that lies lowest. `Index.bestFit` looks at one class
after the other and stops at the first hit. That this is the best fit of all rests on one fact: a
block of a larger class is a larger block (`Index.classOf_mono`).

Nothing is asked of the memory but that the lists can be walked along. `Index.Sorted` says that the
list of each class is an ascending chain of blocks of the class, and that is enough for the search
to be global (`Index.Sorted.bestFit_global`). The blocks need not lie in order, touch or carry
footers, nor need a list know what is in front of a node. In a heap that is in order the nodes are
the free blocks of the layout, so the search finds the best fit among them (`Layout.BestFit`).
-/

namespace TagHeap

variable {n : Nat}

namespace Index

theorem limitsBelow_mono {size size' : Nat} (h : size ≤ size') (classes limit : Nat) :
    limitsBelow size classes limit ≤ limitsBelow size' classes limit := by
  induction classes generalizing limit with
  | zero => exact Nat.le_refl _
  | succ classes ih =>
      rw [limitsBelow, limitsBelow]
      by_cases hs : size ≤ limit
      · rw [if_pos hs]
        exact Nat.zero_le _
      · rw [if_neg hs, if_neg (by omega)]
        exact Nat.succ_le_succ (ih _)

/-- Larger blocks are in larger classes. -/
theorem classOf_mono [HasClass n] {size size' : Nat} (h : size ≤ size') :
    classOf n size ≤ classOf n size' :=
  limitsBelow_mono h (n - 1) 16

end Index

/-- The first of the smallest: nothing is smaller, and nothing in front of it is as small. -/
theorem first_of_minOn? {α : Type} {f : α → Nat} {r : α → α → Prop} {l : List α}
    (hl : l.Pairwise r) {x : α} (h : l.minOn? f = some x) :
    ∀ y ∈ l, f x < f y ∨ f x = f y ∧ (x = y ∨ r x y) := by
  induction hl generalizing x with
  | nil => exact nofun
  | @cons z zs hz _ ih =>
      rw [List.minOn?_cons] at h
      intro y hy
      cases hw : zs.minOn? f with
      | none =>
          have hzs : zs = [] := by
            by_contra hne
            have := List.isSome_minOn?_iff (f := f).2 hne
            rw [hw] at this
            exact nomatch this
          subst hzs
          obtain rfl : z = x := by simpa using h
          obtain rfl := List.mem_singleton.1 hy
          exact .inr ⟨rfl, .inl rfl⟩
      | some w =>
          have hx : minOn f z w = x := by simpa [hw] using h
          rw [minOn] at hx
          -- Of two equals the search keeps the first.
          split at hx
          · next hzw =>
            subst hx
            rcases List.mem_cons.mp hy with rfl | hy
            · exact .inr ⟨rfl, .inl rfl⟩
            · have := ih hw y hy
              have hr := hz y hy
              rcases Nat.lt_or_ge (f z) (f y) with hlt | hge
              · exact .inl hlt
              · exact .inr ⟨by omega, .inr hr⟩
          · next hzw =>
            subst hx
            rcases List.mem_cons.mp hy with rfl | hy
            · exact .inl (by omega)
            · exact ih hw y hy

/-- The answer is the smallest of the blocks that hold `size` bytes, of equals the one that lies
lowest, and none only if no block holds them. The blocks are those of which `sized` tells the size.
-/
def BestAmong (sized : Block → Nat → Prop) (size : Nat) : Option Block → Prop
  | none => ∀ b s, sized b s → s < size
  | some b => ∃ s, sized b s ∧ size ≤ s ∧
      ∀ b' s', sized b' s' → size ≤ s' → s < s' ∨ s = s' ∧ b.offset ≤ b'.offset

namespace BestAmong

variable {sized sized' : Block → Nat → Prop} {size : Nat} {answer : Option Block} {b : Block}

/-- Blocks that are too small do not matter. -/
theorem widen (h : BestAmong sized size answer) (hsub : ∀ b s, sized b s → sized' b s)
    (hrest : ∀ b s, sized' b s → size ≤ s → sized b s) : BestAmong sized' size answer := by
  cases answer with
  | none =>
      intro b s hs
      by_contra hge
      exact hge (h b s (hrest b s hs (Nat.le_of_not_lt hge)))
  | some b =>
      obtain ⟨s, hs, hlarge, hbest⟩ := h
      exact ⟨s, hsub b s hs, hlarge, fun b' s' hs' hle => hbest b' s' (hrest b' s' hs' hle) hle⟩

/-- Where some blocks have no answer, others may have one. -/
theorem skip (h : BestAmong sized size none) (h' : BestAmong sized' size answer) :
    BestAmong (fun b s => sized b s ∨ sized' b s) size answer :=
  h'.widen (fun _ _ => .inr) fun b s hs hle =>
    hs.resolve_left fun hs => absurd (h b s hs) (Nat.not_lt.2 hle)

/-- An answer stays the answer when only larger blocks are added. -/
theorem stop (h : BestAmong sized size (some b))
    (hlarger : ∀ b s b' s', sized b s → sized' b' s' → s < s') :
    BestAmong (fun b s => sized b s ∨ sized' b s) size (some b) := by
  obtain ⟨s, hs, hlarge, hbest⟩ := h
  refine ⟨s, .inl hs, hlarge, fun b' s' hs' hle => ?_⟩
  rcases hs' with hs' | hs'
  · exact hbest b' s' hs' hle
  · exact .inl (hlarger b s b' s' hs hs')

end BestAmong

namespace FreeList

/-- The smallest of the entries that are large enough, if they come in ascending order. -/
private theorem smallest_best {found : List (Block × Nat)} (size : Nat)
    (hsorted : found.Pairwise fun a b => a.1.offset < b.1.offset) :
    BestAmong (fun b s => (b, s) ∈ found) size (smallest size found) := by
  cases hsmallest : smallest size found with
  | none =>
      intro b s hs
      by_contra hge
      have hin : (b, s) ∈ found.filter (size ≤ ·.2) :=
        List.mem_filter.2 ⟨hs, decide_eq_true (Nat.le_of_not_lt hge)⟩
      have hsome := List.isSome_minOn?_iff (f := (·.2)).2 (List.ne_nil_of_mem hin)
      rw [smallest, Option.map_eq_none_iff] at hsmallest
      rw [hsmallest] at hsome
      cases hsome
  | some b =>
      rw [smallest, Option.map_eq_some_iff] at hsmallest
      obtain ⟨⟨b, s⟩, hmin, rfl⟩ := hsmallest
      have hin := List.mem_filter.1 (List.minOn?_mem hmin)
      refine ⟨s, hin.1, of_decide_eq_true hin.2, fun b' s' hs' hle => ?_⟩
      have hin' : (b', s') ∈ found.filter (size ≤ ·.2) :=
        List.mem_filter.2 ⟨hs', decide_eq_true hle⟩
      rcases first_of_minOn? (hsorted.filter _) hmin _ hin' with hlt | ⟨heq, hsame | hlt⟩
      · exact .inl hlt
      · exact .inr ⟨heq, Nat.le_of_eq (congrArg (·.1.offset) hsame)⟩
      · exact .inr ⟨heq, Nat.le_of_lt hlt⟩

/-- **ON ONE LIST** the search finds the smallest node that is large enough, of equals the lowest.
-/
theorem bestFit_eq_ok {list : FreeList} {m : Memory} {bs : List Block}
    (hhead : list.head = bs.head?) (h : Chained m bs) (hs : bs.Pairwise (·.offset < ·.offset))
    (hsized : ∀ b ∈ bs, ∃ s, b.size m = .ok s) (size : Nat) :
    ∃ answer, list.bestFit m size = .ok answer ∧
      BestAmong (fun b s => b ∈ bs ∧ b.size m = .ok s) size answer := by
  choose! sizeOf hsizeOf using hsized
  have hvisit : list.visitAll m (fun b => return (b, ← b.size m)) =
      .ok (bs.map fun b => (b, sizeOf b)) := by
    refine visitAll_of_chained hhead h hs fun b hb => ?_
    rw [bind_of_ok (hsizeOf b hb)]
    rfl
  have hfound : ∀ b s, (b, s) ∈ bs.map (fun b => (b, sizeOf b)) ↔ b ∈ bs ∧ b.size m = .ok s := by
    intro b s
    rw [List.mem_map]
    constructor
    · rintro ⟨b, hb, ⟨⟩⟩
      exact ⟨hb, hsizeOf b hb⟩
    · rintro ⟨hb, hbs⟩
      obtain rfl := Except.ok.inj ((hsizeOf b hb).symm.trans hbs)
      exact ⟨b, hb, rfl⟩
  have hbest := smallest_best size
    (List.pairwise_map.2 hs : (bs.map fun b => (b, sizeOf b)).Pairwise _)
  exact ⟨_, by rw [bestFit, bind_of_ok hvisit]; rfl,
    hbest.widen (fun b s => (hfound b s).1) fun b s hs _ => (hfound b s).2 hs⟩

end FreeList

namespace Index

variable [HasClass n] {index : Index n} {m : Memory} {nodes : Fin n → List Block}

/-- The list of each class is a chain through the nodes `nodes`, from lower to higher ones, and all
of them have a size of the class. Nothing else is said of the memory. -/
structure Sorted (index : Index n) (m : Memory) (nodes : Fin n → List Block) : Prop where
  head : ∀ c, (index.list c).head = (nodes c).head?
  chained : ∀ c, Chained m (nodes c)
  ascending : ∀ c, (nodes c).Pairwise (·.offset < ·.offset)
  classed : ∀ c, ∀ b ∈ nodes c, ∃ s, b.size m = .ok s ∧ classOf n s = c

namespace Sorted

/-- The search through one class finds the best fit among its blocks. -/
theorem bestFit_list (h : index.Sorted m nodes) (c : Fin n) (size : Nat) :
    ∃ answer, (index.list c).bestFit m size = .ok answer ∧
      BestAmong (fun b s => b ∈ nodes c ∧ b.size m = .ok s) size answer :=
  FreeList.bestFit_eq_ok (h.head c) (h.chained c) (h.ascending c)
    (fun b hb => (h.classed c b hb).imp fun _ hs => hs.1) size

/-- Blocks of a larger class are larger. -/
theorem size_lt_size (h : index.Sorted m nodes) {c d : Fin n} (hcd : c < d) {b b' : Block}
    {s s' : Nat} (hb : b ∈ nodes c) (hs : b.size m = .ok s) (hb' : b' ∈ nodes d)
    (hs' : b'.size m = .ok s') : s < s' := by
  obtain ⟨_, hr, rfl⟩ := h.classed c b hb
  obtain ⟨_, hr', rfl⟩ := h.classed d b' hb'
  obtain rfl := Except.ok.inj (hs.symm.trans hr)
  obtain rfl := Except.ok.inj (hs'.symm.trans hr')
  exact Nat.lt_of_not_le fun hle => Nat.not_le.2 hcd (classOf_mono hle)

/-- The search through some classes, from smaller to larger ones, finds the best fit among their
blocks. -/
theorem findSomeM?_bestFit (h : index.Sorted m nodes) (size : Nat) {cs : List (Fin n)}
    (hcs : cs.Pairwise (· < ·)) :
    ∃ answer, (cs.map index.list).findSomeM? (·.bestFit m size) = .ok answer ∧
      BestAmong (fun b s => (∃ c ∈ cs, b ∈ nodes c) ∧ b.size m = .ok s) size answer := by
  induction hcs with
  | nil => exact ⟨none, rfl, fun _ _ ⟨⟨_, hc, _⟩, _⟩ => nomatch hc⟩
  | @cons c cs hc _ ih =>
      obtain ⟨answer, hanswer, hspec⟩ := h.bestFit_list c size
      have hcons : ∀ b s, ((b ∈ nodes c ∧ b.size m = .ok s) ∨
          ((∃ d ∈ cs, b ∈ nodes d) ∧ b.size m = .ok s)) ↔
          (∃ d ∈ c :: cs, b ∈ nodes d) ∧ b.size m = .ok s := by
        intro b s
        rw [← or_and_right, List.exists_mem_cons_iff]
      rw [List.map_cons, List.findSomeM?_cons, bind_of_ok hanswer]
      cases answer with
      | some b =>
          -- Whatever a class behind may hold is larger.
          refine ⟨some b, rfl, (hspec.stop ?_).widen (fun b s => (hcons b s).1)
            fun b s hs _ => (hcons b s).2 hs⟩
          rintro b s b' s' ⟨hb, hs⟩ ⟨⟨d, hd, hb'⟩, hs'⟩
          exact h.size_lt_size (hc d hd) hb hs hb' hs'
      | none =>
          obtain ⟨answer', hanswer', hrest⟩ := ih
          exact ⟨answer', hanswer', (hspec.skip hrest).widen (fun b s => (hcons b s).1)
            fun b s hs _ => (hcons b s).2 hs⟩

/-- **THE SEARCH** never faults, and finds the best fit among all nodes of all lists. -/
theorem bestFit_eq_ok (h : index.Sorted m nodes) (size : Nat) :
    ∃ answer, index.bestFit m size = .ok answer ∧
      BestAmong (fun b s => (∃ c, b ∈ nodes c) ∧ b.size m = .ok s) size answer := by
  have hdrop : index.lists.toList.drop (classOf n size) =
      ((List.finRange n).drop (classOf n size)).map index.list := by
    rw [toList_lists, List.map_drop]
  have hmem : ∀ s, size ≤ s → classOf n s ∈ (List.finRange n).drop (classOf n size) := by
    intro s hs
    have hle : (classOf n size).val ≤ (classOf n s).val := classOf_mono hs
    have hlt := (classOf n s).isLt
    rw [List.mem_iff_getElem]
    refine ⟨classOf n s - classOf n size, by simp; omega, ?_⟩
    rw [List.getElem_drop, List.getElem_finRange]
    ext
    simp only [Fin.val_cast]
    omega
  obtain ⟨answer, hanswer, hspec⟩ := h.findSomeM?_bestFit size (List.pairwise_lt_finRange n).drop
  refine ⟨answer, by rw [bestFit, hdrop]; exact hanswer, hspec.widen ?_ ?_⟩
  · rintro b s ⟨⟨c, -, hb⟩, hs⟩
    exact ⟨⟨c, hb⟩, hs⟩
  · -- A class in front of that of `size` has only smaller blocks.
    rintro b s ⟨⟨c, hb⟩, hs⟩ hle
    obtain ⟨_, hs', rfl⟩ := h.classed c b hb
    obtain rfl := Except.ok.inj (hs.symm.trans hs')
    exact ⟨⟨_, hmem s hle, hb⟩, hs⟩

/-- **THE SEARCH IS GLOBAL.** However many classes there are, and whatever the lists hold, as long
as each of them ascends and holds blocks of its class only, the search finds a block just when some
listed block is large enough. It finds the smallest such block of all lists, and among those of
equal size the one that lies lowest. -/
theorem bestFit_global (h : index.Sorted m nodes) (size : Nat) :
    ∃ answer, index.bestFit m size = .ok answer ∧
      (answer = none ↔ ∀ c, ∀ b ∈ nodes c, ∀ s, b.size m = .ok s → s < size) ∧
      ∀ b, answer = some b → ∃ c s, b ∈ nodes c ∧ b.size m = .ok s ∧ size ≤ s ∧
        ∀ c', ∀ b' ∈ nodes c', ∀ s', b'.size m = .ok s' → size ≤ s' →
          s < s' ∨ s = s' ∧ b.offset ≤ b'.offset := by
  obtain ⟨answer, hanswer, hspec⟩ := h.bestFit_eq_ok size
  refine ⟨answer, hanswer, ⟨?_, fun hsmall => ?_⟩, ?_⟩
  · rintro rfl c b hb s hs
    exact hspec b s ⟨⟨c, hb⟩, hs⟩
  · cases answer with
    | none => rfl
    | some b =>
        obtain ⟨s, ⟨⟨c, hb⟩, hs⟩, hlarge, -⟩ := hspec
        exact absurd (hsmall c b hb s hs) (Nat.not_lt.2 hlarge)
  · rintro b rfl
    obtain ⟨s, ⟨⟨c, hb⟩, hs⟩, hlarge, hbest⟩ := hspec
    exact ⟨c, s, hb, hs, hlarge, fun c' b' hb' s' hs' => hbest b' s' ⟨⟨c', hb'⟩, hs'⟩⟩

end Sorted

/-- A memory with four free blocks: 32 bytes at 16, 24 bytes at 48 and at 72, and 40 bytes at 96. -/
def fourFree : Memory :=
  ((((((Memory.zeroed 144).setWord 12 32).setWord 20 48).setWord 44 24).setWord 52 72).setWord 68
    24).setWord 92 40

/-- The index of the four blocks. The three smaller ones are of one class. -/
def fourFreeIndex : Index 3 :=
  ⟨#v[.empty, ⟨Block.ofOffset? 16, 3⟩, ⟨Block.ofOffset? 96, 1⟩]⟩

/-- The nodes of its lists. -/
def fourFreeNodes : Fin 3 → List Block
  | 0 => []
  | 1 => [⟨16, by decide⟩, ⟨48, by decide⟩, ⟨72, by decide⟩]
  | 2 => [⟨96, by decide⟩]

theorem sorted_fourFree : fourFreeIndex.Sorted fourFree fourFreeNodes where
  head := by decide
  chained
    | 0 => trivial
    | 1 => ⟨rfl, rfl, rfl, trivial⟩
    | 2 => ⟨rfl, trivial⟩
  ascending := by decide
  classed c b hb := by
    match c with
    | 0 => cases hb
    | 1 =>
        rcases List.mem_cons.mp hb with rfl | hb
        · exact ⟨32, rfl, rfl⟩
        rcases List.mem_cons.mp hb with rfl | hb
        · exact ⟨24, rfl, rfl⟩
        obtain rfl := List.mem_singleton.1 hb
        exact ⟨24, rfl, rfl⟩
    | 2 =>
        obtain rfl := List.mem_singleton.1 hb
        exact ⟨40, rfl, rfl⟩

/-- Of the two blocks of 24 bytes the lower one is found, though a larger one stands in front of it
on the list. For 41 bytes there is no block. -/
theorem bestFit_global_fourFree :
    (fourFreeIndex.bestFit fourFree 20 = .ok (Block.ofOffset? 48) ∧
        ∀ c, ∀ b ∈ fourFreeNodes c, ∀ s, b.size fourFree = .ok s → 20 ≤ s →
          24 < s ∨ 24 = s ∧ 48 ≤ b.offset) ∧
      fourFreeIndex.bestFit fourFree 41 = .ok none ∧
        ∀ c, ∀ b ∈ fourFreeNodes c, ∀ s, b.size fourFree = .ok s → s < 41 := by
  have hfound : fourFreeIndex.bestFit fourFree 20 = .ok (Block.ofOffset? 48) := rfl
  have hnone : fourFreeIndex.bestFit fourFree 41 = .ok none := rfl
  obtain ⟨_, hanswer, -, hbest⟩ := sorted_fourFree.bestFit_global 20
  obtain rfl := Except.ok.inj (hfound.symm.trans hanswer)
  obtain ⟨_, hanswer', hsmall, -⟩ := sorted_fourFree.bestFit_global 41
  obtain rfl := Except.ok.inj (hnone.symm.trans hanswer')
  obtain ⟨c, s, -, hs, -, hleast⟩ := hbest ⟨48, by decide⟩ rfl
  have hsize : Block.size ⟨48, by decide⟩ fourFree = .ok 24 := rfl
  obtain rfl := Except.ok.inj (hsize.symm.trans hs)
  exact ⟨⟨hfound, hleast⟩, hnone, hsmall.1 rfl⟩

end Index

namespace Layout

/-- The block is free, holds `size` bytes, and is the smallest one that does, of equals the one that
lies lowest. -/
structure BestFit (xs : List Extent) (size : Nat) (x : Extent) : Prop where
  mem : x ∈ xs
  free : x.allocated = false
  large : size ≤ x.size
  best : ∀ y ∈ xs, y.allocated = false → size ≤ y.size →
    x.size < y.size ∨ x.size = y.size ∧ x.offset ≤ y.offset

end Layout

open Layout

variable [HasClass n] {index : Index n} {m : Memory} {p : Block} {xs : List Extent}

/-- The blocks of a list are the free blocks of its class, with their sizes. -/
theorem InOrder.mem_nodes (g : InOrder m index p xs m.size 0 []) {c : Fin n} {b : Block} {s : Nat} :
    b ∈ (members c xs).filterMap Block.ofOffset? ∧ b.size m = .ok s ↔
      ∃ x ∈ xs, x.allocated = false ∧ Index.classOf n x.size = c ∧ x.offset = b.offset ∧
        x.size = s := by
  have hread : ∀ x ∈ xs, x.offset = b.offset → b.size m = .ok x.size := by
    intro x hx hxb
    have hmem : x ∈ xs ++ [] := List.mem_append_left _ hx
    exact (g.within hmem).size_eq_ok hxb.symm (g.stamped.tagged x hmem).header
  rw [Block.mem_filterMap_ofOffset?, mem_members]
  constructor
  · rintro ⟨⟨x, hx, hfree, hc, hxb⟩, hs⟩
    exact ⟨x, hx, hfree, hc, hxb, Except.ok.inj ((hread x hx hxb).symm.trans hs)⟩
  · rintro ⟨x, hx, hfree, hc, hxb, rfl⟩
    exact ⟨⟨x, hx, hfree, hc, hxb⟩, hread x hx hxb⟩

/-- The index of a layout is sorted. -/
theorem InOrder.sorted (g : InOrder m index p xs m.size 0 []) :
    index.Sorted m fun c => (members c xs).filterMap Block.ofOffset? := by
  have hl := g.listed
  have hp := g.around.placed
  rw [List.append_nil] at hl hp
  refine ⟨fun c => ?_, fun c => (hl c).threads.chained (hp.nodes c) (size_lt_bound g.size_lt),
    fun c => (hp.nodes c).ascending, fun c b hb => ?_⟩
  · rw [(hl c).head, Block.head?_filterMap_ofOffset? fun o ho => ((hp.nodes c).inside o ho).1]
  · obtain ⟨x, hx, hfree, hc, hxb⟩ := mem_members.1 (Block.mem_filterMap_ofOffset?.1 hb)
    exact ⟨x.size, (g.mem_nodes.2 ⟨x, hx, hfree, hc, hxb, rfl⟩).2, hc⟩

/-- The search finds the best fit of the layout, and nothing only if no free block is large enough.
-/
theorem Index.bestFit_eq_ok (g : InOrder m index p xs m.size 0 []) (size : Nat) :
    ∃ answer, index.bestFit m size = .ok answer ∧
      match answer with
      | none => ∀ x ∈ xs, x.allocated = false → x.size < size
      | some b => ∃ x, BestFit xs size x ∧ x.offset = b.offset := by
  obtain ⟨answer, hanswer, hspec⟩ := g.sorted.bestFit_eq_ok size
  -- Every free block is on a list.
  have hlisted : ∀ x ∈ xs, x.allocated = false → ∃ b : Block, b.offset = x.offset ∧
      (∃ c : Fin n, b ∈ (members c xs).filterMap Block.ofOffset?) ∧ b.size m = .ok x.size := by
    intro x hx hfree
    have hpos := (g.around.placed.inside x (List.mem_append_left _ hx)).1
    have hin := g.mem_nodes (b := ⟨x.offset, hpos⟩).2 ⟨x, hx, hfree, rfl, rfl, rfl⟩
    exact ⟨⟨x.offset, hpos⟩, rfl, ⟨_, hin.1⟩, hin.2⟩
  refine ⟨answer, hanswer, ?_⟩
  cases answer with
  | none =>
      intro x hx hfree
      obtain ⟨b, -, hb⟩ := hlisted x hx hfree
      exact hspec b x.size hb
  | some b =>
      obtain ⟨s, ⟨⟨c, hb⟩, hs⟩, hlarge, hbest⟩ := hspec
      obtain ⟨x, hx, hfree, -, hxb, rfl⟩ := g.mem_nodes.1 ⟨hb, hs⟩
      refine ⟨x, ⟨hx, hfree, hlarge, fun y hy hyfree hys => ?_⟩, hxb⟩
      obtain ⟨b', hyb, hb'⟩ := hlisted y hy hyfree
      rw [hxb, ← hyb]
      exact hbest b' y.size hb' hys

end TagHeap
