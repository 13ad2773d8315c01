import TagHeap.Proofs.Backings
import TagHeap.Proofs.Transcripts

/-!
# Reservations

A mapping of any reservation but zero comes to whole pages. A buffer of as many bytes is its twin
from the start (`Region.twin_mapping`), and so whatever is done to two heaps, one over each of them,
they answer alike, report alike and hold the same bytes (`Heap.mapping_agrees_with_buffer`). That
takes no rules: requests that damage a heap damage both in the same way.

The delicate reservations are those within a page of the largest region, where rounding up would
leave the range: they are rounded down (`Region.wholePages_eq`), and no step of the computation
leaves the range either (`Region.checkedPages_eq_ok`).
-/

namespace TagHeap

namespace Region

/-! ## Whole pages -/

/-- The bytes that a reservation comes to: whole pages, rounded up, or rounded down from the largest
region where that many would be too many. -/
def inPages (pageSize reservation : Nat) : Nat :=
  let up := (reservation + pageSize - 1) / pageSize * pageSize
  if up ≤ maxSize then up else maxSize / pageSize * pageSize

/-- The limit in whole pages, computed by steps that fault where they leave the range of sizes. -/
def checkedPages (pageSize limit : Nat) : Except Fault Nat := do
  let sum ← Size.add (min limit (← Size.sub maxSize pageSize)) pageSize
  let pages := (← Size.sub sum 1) / pageSize
  if pages * pageSize < Size.bound then return pages * pageSize else throw .overflow

/-- No step on the way to whole pages leaves the range, whatever the limit and the page are. -/
theorem checkedPages_eq_ok (system : System) (limit : Nat) :
    checkedPages system.pageSize limit = .ok (wholePages system.pageSize limit) := by
  have hpos := system.pageSize_pos
  have hle := system.pageSize_le
  have hmost := Size.sub_eq_ok hle
  have hsum : min limit (maxSize - system.pageSize) + system.pageSize < Size.bound := by
    have hrange : maxSize < Size.bound := by decide
    omega
  have hone : 1 ≤ min limit (maxSize - system.pageSize) + system.pageSize := by omega
  have hpages := wholePages_le system limit
  rw [wholePages] at hpages ⊢
  simp only [checkedPages, bind, Except.bind, hmost, Size.add_eq_ok hsum, Size.sub_eq_ok hone]
  exact if_pos (Nat.lt_of_le_of_lt hpages (by decide))

/-- A mapping asks for what its reservation comes to. -/
theorem wholePages_eq (reservation : Nat) :
    wholePages 4096 (min reservation maxSize) = inPages 4096 reservation := by
  simp only [wholePages, inPages, maxSize]
  split <;> omega

theorem inPages_le (reservation : Nat) : inPages 4096 reservation ≤ maxSize := by
  simp only [inPages, maxSize]
  split <;> omega

theorem inPages_pos {reservation : Nat} (h : 0 < reservation) : 0 < inPages 4096 reservation := by
  simp only [inPages, maxSize]
  split <;> omega

/-! ## Growing without overflow -/

/-- What a region becomes when it grows and its bytes are written, in any order. -/
inductive Becomes (r : Region) : Region → Prop
  | start : Becomes r r
  | write {r' : Region} (h : Becomes r r') (m : Memory) (hm : m.size = r'.size) :
      Becomes r { r' with memory := m }
  | grow {r' r'' : Region} (h : Becomes r r') {increment : Nat} {answer : Except GrowthError Nat}
      (hgrow : grow increment r' = .ok answer r'') : Becomes r r''

/-- The region is within its limit, and empty as long as its address space is not there. -/
structure Bounded (r : Region) : Prop where
  size_le : r.size ≤ r.limit
  limit_le : r.limit ≤ maxSize
  absent : ∀ system, r.backing = .mapping false system → r.size = 0

variable {r r' : Region} {reservation : Nat}

theorem Ready.bounded (h : r.Ready) : r.Bounded :=
  ⟨h.size_le, h.limit_le, fun system hs => absurd hs (h.present system)⟩

/-- Asking for the address space keeps a region within its limit. Once it succeeds the region is
ready. -/
theorem Bounded.reserve (h : r.Bounded) : (r.withBounds r.bounds.reserve.2).Bounded ∧
    (r.bounds.reserve.1 = .ok () → (r.withBounds r.bounds.reserve.2).Ready) := by
  by_cases hr : r.Ready
  · rw [hr.reserve_eq]
    exact ⟨h, fun _ => hr⟩
  · -- Such a region is empty, so nothing is left to be aligned.
    have hempty : r.size = 0 := by
      by_contra hsize
      exact hr ⟨h.size_le, h.limit_le, fun system hs => hsize (h.absent system hs)⟩
    have hsound : r.Sound := ⟨h.size_le, h.limit_le, h.absent, by rw [hempty]⟩
    obtain ⟨hafter, hready⟩ := hsound.reserve
    exact ⟨⟨hafter.size_le, hafter.limit_le, hafter.absent⟩, hready⟩

/-- Growing does not fault, and keeps a region within its limit. -/
theorem Bounded.grow (h : r.Bounded) (increment : Nat) :
    (grow increment).Ensures r fun _ r' => r'.Bounded := by
  obtain ⟨hafter, hready⟩ := h.reserve
  have hgrow := grow_eq (r := r) increment fun hreserve => (hready hreserve).size_le
  cases hrefuse : r.bounds.refuse? r.size increment with
  | some e =>
      rw [hrefuse] at hgrow
      exact .of_ok hgrow hafter
  | none =>
      rw [hrefuse] at hgrow
      obtain ⟨hreserve, hspare⟩ := Bounds.refuse?_eq_none.1 hrefuse
      exact .of_ok hgrow ((hready hreserve).grow hspare).bounded

theorem Bounded.becomes (h : r.Bounded) (hr : r.Becomes r') : r'.Bounded := by
  induction hr with
  | start => exact h
  | write _ m hm ih =>
      exact ⟨Nat.le_trans (Nat.le_of_eq hm) ih.size_le, ih.limit_le,
        fun system hs => hm.trans (ih.absent system hs)⟩
  | grow _ hgrow ih =>
      obtain ⟨_, _, hgrow', hbounded⟩ := ih.grow _
      cases hgrow.symm.trans hgrow'
      exact hbounded

theorem Fresh.bounded (h : r.Fresh) : r.Bounded := by
  cases h with
  | buffer capacity => exact ⟨Nat.zero_le _, Nat.min_le_right .., nofun⟩
  | mapping reservation system => exact ⟨Nat.zero_le _, Nat.min_le_right .., fun _ _ => rfl⟩

/-! ## Twins -/

theorem granted_mapping (h : 0 < reservation) :
    (mapping reservation).Granted ⟨inPages 4096 reservation, .mapping true {}⟩ := by
  have hpos := inPages_pos h
  refine ⟨?_, rfl, Nat.zero_le _⟩
  show Bounds.reserve ⟨min reservation maxSize, .mapping false {}⟩ = _
  simp only [Bounds.reserve, wholePages_eq]
  exact if_neg (Nat.ne_of_gt hpos)

/-- A mapping and a buffer of as many bytes are twins. -/
theorem twin_mapping (h : 0 < reservation) :
    Twin (inPages 4096 reservation) (mapping reservation)
      (buffer (inPages 4096 reservation)) := by
  refine ⟨rfl, ⟨{}, granted_mapping h⟩, ?_⟩
  rw [buffer, Nat.min_eq_left (inPages_le reservation)]
  rfl

end Region

/-! ## Heaps over both -/

variable {n : Nat} [HasClass n] {limit : Nat}

namespace Heap

/-- All that there is to see of a heap, but where its bytes come from. -/
structure Sight (n : Nat) where
  size : Nat
  memory : Memory
  index : Index n
  prologue : Option Block
  layout : Except Fault (List Extent)
  audit : Except Fault Summary

/-- What there is to see of a heap. -/
def sight (h : Heap n) : Sight n := ⟨h.size, h.memory, h.index, h.prologue, h.layout, h.audit⟩

/-- What a heap reports while it works on some requests. -/
def reports : Heap n → List Request → List Event
  | _, [] => []
  | h, request :: rest =>
      let outcome := request.serve.on h
      outcome.events ++ reports outcome.state rest

variable {h h' : Heap n}

theorem Twin.sight_eq (t : h.Twin limit h') : h'.sight = h.sight := by
  have hlayout : h'.layout = h.layout := by
    rw [layout, layout, t.prologue, t.resembles.memory]
  rw [sight, sight, t.resembles.size, t.resembles.memory, t.index, t.prologue, hlayout,
    t.resembles.audit_eq]

/-- One request made to twins. -/
theorem Twin.serve_on (t : h.Twin limit h') (request : Request) :
    (request.serve.on h').result = (request.serve.on h).result ∧
      (request.serve.on h').events = (request.serve.on h).events.filter (!·.isReserved) ∧
      (request.serve.on h).state.Twin limit (request.serve.on h').state := by
  have hrun : Run.Twin limit ⟨h, []⟩ ⟨h', []⟩ := ⟨t, rfl⟩
  rw [Operation.on, Operation.on]
  rcases (Run.Twin.coupling.lockstep_serve request _ _ hrun).elim with ⟨a, s, s', hs, hs', hafter⟩ |
    ⟨e, s, s', hs, hs', hafter⟩
  all_goals
    rw [hs, hs']
    refine ⟨rfl, ?_, hafter.heap⟩
    rw [List.filter_reverse, ← hafter.journal]

/-- **A RUN** on one twin is a run on the other. -/
theorem Twin.run (t : h.Twin limit h') (requests : List Request) :
    h'.transcript sight requests = h.transcript sight requests ∧
      h'.reports requests = (h.reports requests).filter (!·.isReserved) := by
  induction requests generalizing h h' with
  | nil => exact ⟨rfl, rfl⟩
  | cons request rest ih =>
      obtain ⟨hresult, hevents, hnext⟩ := t.serve_on request
      obtain ⟨htranscript, hreports⟩ := ih hnext
      refine ⟨?_, ?_⟩
      · rw [transcript, transcript, htranscript, hresult, hnext.sight_eq]
      · rw [reports, reports, List.filter_append, hreports, hevents]

end Heap

/-- **WHERE THE BYTES COME FROM DOES NOT MATTER.** A heap over a mapping that the system grants, and
a heap over a buffer of as many bytes as the reservation comes to, answer every sequence of requests
alike. They report the same events, the errors with their numbers among them, except that the mapping
also reports that it was made, and at any time they have the same bytes, the same lists and the same
outcome of an audit. Neither computing the length nor growing, whatever was done before, leaves the
range of sizes. -/
theorem Heap.mapping_agrees_with_buffer (reservation : Nat) (settings : Settings)
    (requests : List Request) :
    let mapping := Region.mapping reservation
    let buffer := Region.buffer (Region.inPages 4096 reservation)
    let mapped : Heap n := .new mapping settings
    let buffered : Heap n := .new buffer settings
    (0 < reservation →
      buffered.transcript Heap.sight requests = mapped.transcript Heap.sight requests ∧
        buffered.reports requests = (mapped.reports requests).filter (!·.isReserved)) ∧
    Region.checkedPages 4096 mapping.limit = .ok (Region.inPages 4096 reservation) ∧
    ∀ r, mapping.Becomes r ∨ buffer.Becomes r → ∀ increment, ∃ answer r',
      Region.grow increment r = .ok answer r' ∧ r'.size ≤ r'.limit ∧
        r'.limit ≤ Region.maxSize := by
  intro mapping buffer mapped buffered
  refine ⟨fun hpos => ?_, ?_, ?_⟩
  · have htwin : mapped.Twin (Region.inPages 4096 reservation) buffered :=
      ⟨Region.twin_mapping hpos, rfl, rfl, rfl⟩
    exact htwin.run requests
  · rw [← Region.wholePages_eq]
    exact Region.checkedPages_eq_ok {} _
  · have hfresh : mapping.Bounded ∧ buffer.Bounded :=
      ⟨Region.Fresh.bounded (.mapping ..), Region.Fresh.bounded (.buffer _)⟩
    intro r hr increment
    have hbounded : r.Bounded := hr.elim hfresh.1.becomes hfresh.2.becomes
    obtain ⟨answer, r', hgrow, hafter⟩ := hbounded.grow increment
    exact ⟨answer, r', hgrow, hafter.size_le, hafter.limit_le⟩

/-- The largest reservation is rounded down. The lay-out of a heap over it answers and shows what it
does over a buffer of whole pages. -/
theorem Heap.largest_mapping_agrees_with_buffer :
    0 < Region.maxSize ∧ Region.inPages 4096 Region.maxSize = 4294963200 ∧
      (Heap.new (.buffer 4294963200) .standard : Heap 2).transcript Heap.sight [.layOut] =
        (Heap.new (.mapping Region.maxSize) .standard : Heap 2).transcript Heap.sight [.layOut] := by
  have hpos : 0 < Region.maxSize := by decide
  have hpages : Region.inPages 4096 Region.maxSize = 4294963200 := by decide
  have hrun := (mapping_agrees_with_buffer (n := 2) Region.maxSize .standard [.layOut]).1 hpos
  rw [hpages] at hrun
  exact ⟨hpos, hpages, hrun.1⟩

end TagHeap
