import TagHeap.Proofs.Addresses

/-!
# What a program may rely on

The contract between a shared heap and the program that lives on it. The program keeps to the rules
when no size is zero, when it resizes and writes to nothing but what it has, and when what it gives
back is its own, or null, or not in the heap at all (`Call.Allowed`). What it may rely on then is
`Call.Meets`, in every run and for every call.

Nothing is asked of the mapping but that it starts at a page: it may be small or refused, pages may
have any size, and the program may exhaust it at any point.
-/

namespace TagHeap

open Allocations

/-! ## The rules -/

namespace Call

/-- Makes the call. Its answer is the address that the program gets, if it gets one. -/
def perform (s : Shared) : Call → Outcome Shared (Option Nat)
  | allocate size align => s.allocate size align
  | allocateZeroed size align => s.allocateZeroed size align
  | deallocate address =>
      let outcome := s.deallocate address
      ⟨outcome.result.map fun _ => none, outcome.state, outcome.events⟩
  | reallocate address size align => s.reallocate address size align
  | write address position bytes => ⟨.ok none, s.write (address + position) bytes, []⟩

/-- The address that the call names. -/
def argument : Call → Option Nat
  | allocate .. | allocateZeroed .. => none
  | deallocate address | reallocate address .. | write address .. => some address

/-- The number of bytes that the call asks for. -/
def size : Call → Nat
  | allocate size _ | allocateZeroed size _ | reallocate _ size _ => size
  | deallocate _ | write .. => 0

/-- The alignment that the call asks for. -/
def align : Call → Nat
  | allocate _ align | allocateZeroed _ align | reallocate _ _ align => align
  | deallocate _ | write .. => 1

/-- The call keeps to the rules. -/
def Allowed (s : Shared) (live : Allocations) : Call → Prop
  | allocate size _ | allocateZeroed size _ => 0 < size
  | deallocate address => (∃ size, (address, size) ∈ live) ∨ s.Foreign address
  | reallocate address size _ => 0 < size ∧ ∃ old, (address, old) ∈ live
  | write address position bytes =>
      ∃ size, (address, size) ∈ live ∧ position + bytes.length ≤ size

/-- What the program finds after a call. -/
structure Meets (call : Call) (s : Shared) (live : Allocations) (answer : Option Nat)
    (s' : Shared) : Prop where
  /-- What is handed out is granted, and lies apart from all that the program still has. -/
  handsOut : ∀ address, answer = some address → s'.Grants (address, call.size) ∧
    ∀ a ∈ live, call.argument ≠ some a.1 → Apart (address, call.size) a
  /-- Zeroed bytes are zero. -/
  zeroes : ∀ size align address, call = .allocateZeroed size align → answer = some address →
    s'.read address size = .replicate size 0
  /-- What is resized takes its bytes along. -/
  carries : ∀ old size size' align address, call = .reallocate old size' align →
    (old, size) ∈ live → answer = some address →
    s'.read address (min size size') = s.read old (min size size')
  /-- The bytes of all other allocations stay. -/
  keeps : ∀ a ∈ live, call.argument ≠ some a.1 → s'.read a.1 a.2 = s.read a.1 a.2
  /-- A resize that is refused did not happen. -/
  refuses : ∀ old size align, call = .reallocate old size align → answer = none →
    s' = s ∧ live.after call answer = live
  /-- Strict alignments are refused, and nothing else happens. -/
  strict : Size.granule < call.align → answer = none ∧ s' = s
  /-- What is not the heap's means nothing to it. -/
  ignores : ∀ address, call = .deallocate address → s.Foreign address →
    s' = s ∧ live.after call answer = live

end Call

/-! ## Every call -/

namespace Call

open Shared

variable {s : Shared} {live : Allocations} {call : Call} {address size align : Nat}

/-- A call that neither hands out nor changes anything meets what it should. -/
theorem Meets.unchanged (hlive : live.after call none = live) : call.Meets s live none s where
  handsOut := nofun
  zeroes := nofun
  carries := nofun
  keeps := fun _ _ _ => rfl
  refuses := fun _ _ _ _ _ => ⟨rfl, hlive⟩
  strict := fun _ => ⟨rfl, rfl⟩
  ignores := fun _ _ _ => ⟨rfl, hlive⟩

/-- A call that says nothing of an alignment asks for no strict one. -/
theorem granule_not_lt_one : ¬ Size.granule < 1 := by decide

/-- A call for a strict alignment does nothing. -/
theorem perform_of_strict (s : Shared) (live : Allocations) (h : Size.granule < call.align) :
    call.perform s = ⟨.ok none, s, []⟩ ∧ live.after call none = live := by
  cases call with
  | allocate size align => exact ⟨addressUnderLock_of_strict s h _, rfl⟩
  | allocateZeroed size align =>
      have hnone : s.allocate size align = ⟨.ok none, s, []⟩ := addressUnderLock_of_strict s h _
      refine ⟨?_, rfl⟩
      rw [perform, Shared.allocateZeroed, hnone]
  | deallocate address => exact absurd h granule_not_lt_one
  | reallocate address size align => exact ⟨addressUnderLock_of_strict s h _, rfl⟩
  | write address position bytes => exact absurd h granule_not_lt_one

/-- The call is answered and meets what it should, and the program is served after it. -/
def Answered (call : Call) (s : Shared) (live : Allocations) : Prop :=
  ∃ answer, (call.perform s).result = .ok answer ∧
    call.Meets s live answer (call.perform s).state ∧
    (call.perform s).state.Serves (live.after call answer)

/-- A call that does nothing is answered. -/
theorem answered_of_idle (hs : s.Serves live) (hperform : call.perform s = ⟨.ok none, s, []⟩)
    (hlive : live.after call none = live) : call.Answered s live := by
  rw [Answered, hperform]
  refine ⟨none, rfl, .unchanged hlive, ?_⟩
  rw [hlive]
  exact hs

theorem answered_allocate (hs : s.Serves live) (size : Nat) (halign : ¬ Size.granule < align) :
    (allocate size align).Answered s live := by
  obtain ⟨answer, hresult, hserves, hkeeps⟩ := hs.allocate size (Nat.not_lt.1 halign)
  refine ⟨answer, hresult, ?_, hserves⟩
  constructor
  case handsOut =>
    rintro address rfl
    obtain ⟨hgrants, hapart⟩ := hserves.handsOut
    exact ⟨hgrants, fun a ha _ => hapart a ha⟩
  case keeps => exact fun a ha _ => hkeeps a ha
  case strict => exact fun h => absurd h halign
  all_goals exact nofun

theorem answered_allocateZeroed (hs : s.Serves live) (hsize : 0 < size)
    (halign : ¬ Size.granule < align) : (allocateZeroed size align).Answered s live := by
  obtain ⟨answer, hresult, hserves, hkeeps, hzero⟩ :=
    hs.allocateZeroed hsize (Nat.not_lt.1 halign)
  refine ⟨answer, hresult, ?_, hserves⟩
  constructor
  case handsOut =>
    rintro address rfl
    obtain ⟨hgrants, hapart⟩ := hserves.handsOut
    exact ⟨hgrants, fun a ha _ => hapart a ha⟩
  case zeroes =>
    rintro _ _ address ⟨⟩ hsome
    exact hzero address hsome
  case keeps => exact fun a ha _ => hkeeps a ha
  case strict => exact fun h => absurd h halign
  all_goals exact nofun

theorem answered_deallocate (hs : s.Serves live) (hmem : (address, size) ∈ live) :
    (deallocate address).Answered s live := by
  obtain ⟨hresult, hserves, hkeeps⟩ := hs.deallocate hmem
  refine ⟨none, congrArg (Except.map fun _ => none) hresult, ?_, hserves⟩
  constructor
  case keeps => exact fun a ha hne => hkeeps a (mem_without.2 ⟨ha, hne⟩)
  case strict => exact fun h => absurd h granule_not_lt_one
  case ignores =>
    rintro _ ⟨⟩ hf
    rw [← hs.without_foreign hf] at hmem
    exact absurd rfl (mem_without.1 hmem).2
  all_goals exact nofun

theorem answered_reallocate (hs : s.Serves live) {old : Nat} (hmem : (address, old) ∈ live)
    (hsize : 0 < size) (halign : ¬ Size.granule < align) :
    (reallocate address size align).Answered s live := by
  have halign' := Nat.not_lt.1 halign
  obtain ⟨answer, hresult, hserves, hkeeps, hrefused, -⟩ := hs.reallocate hmem hsize halign'
  refine ⟨answer, hresult, ?_, hserves⟩
  constructor
  case handsOut =>
    rintro address' rfl
    obtain ⟨hgrants, hapart⟩ := hserves.handsOut
    exact ⟨hgrants, fun a ha hne => hapart a (mem_without.2 ⟨ha, hne⟩)⟩
  case carries =>
    rintro _ old' _ _ address' ⟨⟩ hmem' hsome
    -- The call is the same whatever the program had asked for at the address.
    obtain ⟨answer', hresult', -, -, -, hcarries⟩ := hs.reallocate hmem' hsize halign'
    obtain rfl := Except.ok.inj (hresult'.symm.trans hresult)
    exact hcarries address' hsome
  case keeps => exact fun a ha hne => hkeeps a (mem_without.2 ⟨ha, hne⟩)
  case refuses =>
    rintro _ _ _ ⟨⟩ rfl
    exact ⟨hrefused rfl, rfl⟩
  case strict => exact fun h => absurd h halign
  all_goals exact nofun

theorem answered_write (hs : s.Serves live) (hmem : (address, size) ∈ live) {position : Nat}
    {bytes : List UInt8} (hfits : position + bytes.length ≤ size) :
    (write address position bytes).Answered s live := by
  obtain ⟨hserves, hkeeps⟩ := hs.write hmem hfits
  refine ⟨none, rfl, ?_, hserves⟩
  constructor
  case keeps => exact fun a ha hne => hkeeps a (mem_without.2 ⟨ha, hne⟩)
  case strict => exact fun h => absurd h granule_not_lt_one
  all_goals exact nofun

/-- **EVERY CALL** that keeps to the rules is answered. -/
theorem answered (hs : s.Serves live) (ha : call.Allowed s live) : call.Answered s live := by
  by_cases hstrict : Size.granule < call.align
  · obtain ⟨hperform, hlive⟩ := perform_of_strict s live hstrict
    exact answered_of_idle hs hperform hlive
  cases call with
  | allocate size align => exact answered_allocate hs size hstrict
  | allocateZeroed size align => exact answered_allocateZeroed hs ha hstrict
  | deallocate address =>
      rcases ha with ⟨size, hmem⟩ | hf
      · exact answered_deallocate hs hmem
      · refine answered_of_idle hs ?_ (hs.without_foreign hf)
        rw [perform, hs.deallocate_foreign hf]
        rfl
  | reallocate address size align =>
      obtain ⟨hsize, old, hmem⟩ := ha
      exact answered_reallocate hs hmem hsize hstrict
  | write address position bytes =>
      obtain ⟨size, hmem, hfits⟩ := ha
      exact answered_write hs hmem hfits

end Call

/-! ## Runs -/

namespace Shared

/-- A program that keeps to the rules may come to the shared heap `s` with the allocations `live`.
The mapping starts at a page, so not at null and at a multiple of the granule. -/
inductive Reachable : Shared → Allocations → Prop
  | new {base : Nat} (reservation : Nat) (system : System) :
      0 < base → base % Size.granule = 0 → Reachable (.new base reservation system) []
  | step {s : Shared} {live : Allocations} {call : Call} {answer : Option Nat} :
      Reachable s live → call.Allowed s live → (call.perform s).result = .ok answer →
      Reachable (call.perform s).state (live.after call answer)

variable {s : Shared} {live : Allocations}

/-- **IN EVERY RUN** the shared heap serves its program. -/
theorem Reachable.serves (hr : s.Reachable live) : s.Serves live := by
  induction hr with
  | new reservation system hpos hmod =>
      have hfresh : TagHeap.Reachable
          (.new (.mapping reservation system) .standard : Heap standardClasses) [] :=
        .mapping reservation system .standard
      exact ⟨rfl, hpos, hmod, [], hfresh.serves, rfl⟩
  | step _ ha hanswer ih =>
      obtain ⟨answer, hresult, -, hserves⟩ := Call.answered ih ha
      rw [Except.ok.inj (hanswer.symm.trans hresult)]
      exact hserves

/-- **A SHARED HEAP MEETS THE CONTRACT** of an allocator, in every run and whatever the mapping is.
All that a program has is granted, aligned and not null, and no two allocations share a byte. Every
call is answered: what is handed out lies apart from what the program has, zeroed bytes are zero,
resized bytes are carried over, all other bytes stay, and a call that is refused or that names
nothing of the heap's changes nothing. -/
theorem Reachable.meets_contract (hr : s.Reachable live) :
    (∀ a ∈ live, s.Grants a) ∧ live.Pairwise Apart ∧
      ∀ call : Call, call.Allowed s live →
        ∃ answer, (call.perform s).result = .ok answer ∧
          call.Meets s live answer (call.perform s).state := by
  refine ⟨fun a ha => hr.serves.grants ha, hr.serves.apart, fun call ha => ?_⟩
  obtain ⟨answer, hresult, hmeets, -⟩ := Call.answered hr.serves ha
  exact ⟨answer, hresult, hmeets⟩

/-- A shared heap of two pages whose program has asked for 24 zeroed bytes. -/
def twoPages : Shared := ((Shared.new 65536 8192).allocateZeroed 24 8).state

theorem reachable_twoPages : twoPages.Reachable [(69616, 24)] := by
  have fresh : (Shared.new 65536 8192).Reachable [] := .new 8192 {} (by decide) (by decide)
  have hallowed : Call.Allowed (.new 65536 8192) [] (.allocateZeroed 24 8) := by
    show 0 < 24
    decide
  have hanswer : (Call.perform (.new 65536 8192) (.allocateZeroed 24 8)).result =
      .ok (some 69616) := rfl
  exact fresh.step hallowed hanswer

/-- The program asks for 60 bytes in place of the 24, and finds these where it gets the others. It
is refused a stricter alignment, and giving back null does nothing. -/
theorem meets_contract_twoPages :
    twoPages.Grants (69616, 24) ∧
      (twoPages.reallocate 69616 60 8).state.Grants (69616, 60) ∧
      (twoPages.reallocate 69616 60 8).state.read 69616 24 = twoPages.read 69616 24 ∧
      (twoPages.reallocate 69616 60 16).state = twoPages ∧
      (twoPages.deallocate 0).state = twoPages := by
  obtain ⟨hgrants, -, hcalls⟩ := reachable_twoPages.meets_contract
  have hgrown : (Call.perform twoPages (.reallocate 69616 60 8)).result = .ok (some 69616) := rfl
  obtain ⟨_, hresult, hgrow⟩ := hcalls (.reallocate 69616 60 8) ⟨by decide, 24, .head _⟩
  obtain rfl := Except.ok.inj (hgrown.symm.trans hresult)
  obtain ⟨_, -, hstrict⟩ := hcalls (.reallocate 69616 60 16) ⟨by decide, 24, .head _⟩
  obtain ⟨_, -, hnull⟩ := hcalls (.deallocate 0) (.inr (.inl rfl))
  have hcarried := hgrow.carries 69616 24 60 8 69616 rfl (.head _) rfl
  rw [Nat.min_eq_left (by decide)] at hcarried
  exact ⟨hgrants _ (.head _), (hgrow.handsOut _ rfl).1, hcarried, (hstrict.strict (by decide)).2,
    (hnull.ignores _ rfl (.inl rfl)).1⟩

end Shared

end TagHeap
