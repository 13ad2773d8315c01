import TagHeap.Proofs.Canonicity
import TagHeap.Proofs.Encodings

/-!
# No number is cut short

Sizes and offsets go into words of 32 bits, three blocks at a time are added up before that, and
differences of sizes are taken in many places. Nothing is ever lost on the way, up to the largest
region and with chunks and requests of any size (`Reachable.numbers_exact`).

While a request is served every number is checked: a tag that would not hold its size is a fault, a
negative difference is one, and so is a link that would not hold its offset if links are encoded by
`LinkEncoding.checked`. What passes is kept in full (`LinkEncoding.checked_faithful`). A request that
is checked in this way is answered nevertheless, and does what it does without the check on links. So
in every state the words that hold tags and links hold the sizes and offsets that the layout and the
lists are made of (`Heap.Exact`).
-/

namespace TagHeap

open Layout Operation

/-! ## Checks -/

/-- A tag that is granted holds a legal size in full. -/
theorem Tag.eq_ok_of_make {size : Nat} {allocated : Bool} {tag : Tag}
    (h : make size allocated = .ok tag) :
    size % 8 = 0 ∧ size ≤ Size.maxBlock ∧ tag.word.toNat = size + allocated.toNat := by
  rw [make] at h
  split at h
  · cases h
  · next haligned =>
    split at h
    · cases h
    · next hfits =>
      have haligned : size % 8 = 0 := Decidable.not_not.1 haligned
      have hfits : size ≤ Size.maxBlock := Nat.le_of_not_lt hfits
      obtain rfl := Except.ok.inj h
      exact ⟨haligned, hfits, toNat_pack haligned hfits allocated⟩

/-- A difference that is granted is not negative. -/
theorem Size.eq_ok_of_sub {a b c : Nat} (h : sub a b = .ok c) : b ≤ a ∧ c = a - b := by
  rw [sub] at h
  split at h
  · next hle => exact ⟨hle, (Except.ok.inj h).symm⟩
  · cases h

/-- An operation that encodes links like that loses no part of a number without a fault. -/
structure LinkEncoding.Faithful (E : LinkEncoding) : Prop where
  /-- Tags are made of multiples of eight that fit, and hold them in full. -/
  tags : ∀ {size : Nat} {allocated : Bool} {tag : Tag}, Tag.make size allocated = .ok tag →
    size % 8 = 0 ∧ size ≤ Size.maxBlock ∧ tag.word.toNat = size + allocated.toNat
  /-- Links are made of offsets that fit, and are read as what they were made of. -/
  links : ∀ {node : Option Block} {w : UInt32}, E.encode node = .ok w →
    Block.FitsLink node ∧ Block.ofOffset? w.toNat = node
  /-- Differences are not negative. -/
  differences : ∀ {a b c : Nat}, Size.sub a b = .ok c → b ≤ a ∧ c = a - b

theorem LinkEncoding.checked_faithful : checked.Faithful :=
  ⟨Tag.eq_ok_of_make, eq_ok_of_checked, Size.eq_ok_of_sub⟩

variable {n : Nat} [HasClass n] {h : Heap n} {live : Live} {xs : List Extent}

/-- The request as an operation that checks the links, too. -/
def Request.checked (request : Request) : Operation n (Option Block) :=
  @operation n _ .checked request

/-! ## States -/

namespace Heap

/-- The words of a heap hold its sizes and offsets in full. -/
structure Exact (h : Heap n) : Prop where
  /-- The region is no larger than a word can tell. -/
  size_le : h.size ≤ Region.maxSize
  /-- Blocks have legal sizes, and both of their tags hold them in full. -/
  tags : ∃ xs, h.layout = .ok xs ∧ ∀ x ∈ xs, x.size % 8 = 0 ∧ x.size ≤ Size.maxBlock ∧
    ∀ i ∈ x.tagPlaces, (h.memory.word i).toNat = x.size + x.allocated.toNat
  /-- The nodes of a list can be linked to, and their links name their neighbours. -/
  links : ∀ c : Fin n, ∃ bs, (h.index.list c).RunsThrough h.memory bs ∧
    ∀ b ∈ bs, Block.FitsLink (some b)

theorem Charted.exact (hc : h.Charted xs) : h.Exact := by
  refine ⟨hc.short, ⟨xs, hc.layout, fun x hx => ?_⟩, fun c => ?_⟩
  · have hin := hc.within x hx
    refine ⟨hin.aligned, hin.size_le, fun i hi => ?_⟩
    rw [hc.word_eq hx hi, Tag.toNat_pack hin.aligned hin.size_le]
  · obtain ⟨bs, hruns, hoffsets⟩ := hc.runsThrough c
    refine ⟨bs, hruns, fun b hb => ?_⟩
    have hmem : b.offset ∈ members c xs := hoffsets ▸ List.mem_map_of_mem hb
    exact Block.fitsLink_of_le (by have := ((hc.placed.nodes c).inside _ hmem).2; omega) hc.short

end Heap

/-- **NO NUMBER IS CUT SHORT.** Let a client that keeps to the rules make any request, in any run.
Served with every tag, every link and every difference checked, the request is answered: no tag is
made of an illegal size, no link of an offset that does not fit, and no difference is negative. Its
answer, its reports and the heap that it leaves are those of the request whose links are not checked.
Before and after it the words of the heap hold its sizes and offsets in full, in a region within its
limit. -/
theorem Reachable.numbers_exact (hr : Reachable h live) {request : Request}
    (ha : request.Allowed h live) :
    LinkEncoding.checked.Faithful ∧
      (∃ answer, (request.checked.on h).result = .ok answer) ∧
      request.checked.on h = request.operation.on h ∧
      h.Exact ∧ (request.operation.on h).state.Exact := by
  obtain ⟨xs, hc⟩ := hr.serves.charted
  obtain ⟨answer, hanswer, hserved⟩ := Request.served hr.serves ha
  obtain ⟨ys, hc'⟩ := hserved.serves.charted
  have hchecked : request.checked.on h = request.operation.on h :=
    (hr.linkable.operation_on LinkEncoding.checked_exact request).1
  refine ⟨LinkEncoding.checked_faithful, ⟨answer, ?_⟩, hchecked, hc.exact, hc'.exact⟩
  rw [hchecked]
  exact hanswer

/-- The lower of two blocks grows and moves down over the free block in front of it. That takes a
node off its list and puts one on, makes tags for both parts and takes the difference of sizes. -/
theorem numbers_exact_twoBlocks :
    twoBlocks.Exact ∧
      ((Request.reallocate (some ⟨4032, by decide⟩) 100).checked.on twoBlocks).result =
        .ok (some ⟨16, by decide⟩) ∧
      ((Request.reallocate (some ⟨4032, by decide⟩) 100).checked.on twoBlocks).state.layout =
        .ok [⟨16, 112, true⟩, ⟨128, 3952, false⟩, ⟨4080, 32, true⟩] := by
  have ha : Request.Allowed (.reallocate (some ⟨4032, by decide⟩) 100) twoBlocks
      [(⟨4032, by decide⟩, 40), (⟨4080, by decide⟩, 24)] := by
    refine ⟨?_, trivial⟩
    rintro _ ⟨⟩
    exact ⟨40, .head _⟩
  obtain ⟨-, -, hchecked, hexact, -⟩ := reachable_twoBlocks.numbers_exact ha
  rw [hchecked]
  exact ⟨hexact, rfl, rfl⟩

/-- In the largest region a block is linked in whose offset is 80 bytes short of too long. -/
example : ((Request.allocate 4294967192).checked.on
    (.new (.buffer Region.maxSize) (Settings.standard.withChunkSize 4294967272) :
      Heap 3)).state.layout = .ok [⟨16, 4294967200, true⟩, ⟨4294967216, 72, false⟩] := rfl

end TagHeap
