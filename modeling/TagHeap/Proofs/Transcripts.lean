import TagHeap.Proofs.Outlines

/-!
# Transcripts

A client sees the replies to its requests, and whatever a heap shows of itself when it is asked: its
size, its counts, its layout, its free lists, the outcome of an audit. A transcript puts all of that
down, request by request.

A run of a heap leaves the transcript that a run of its outline leaves (`Heap.transcript_eq`), and
two things are not in an outline. The NUMBER OF CLASSES is not, so a heap with many lists of free
blocks cannot be told from one that keeps all of them on a single list
(`Heap.classes_unobservable`). The BYTES are not, so nothing that a client writes to its blocks has
an influence on what a heap answers or on where it puts a block (`Heap.payloads_unobservable`).
-/

namespace TagHeap

open Layout

/-- One request in a transcript: the reply to it and what was seen afterwards. -/
structure Entry (σ : Type) where
  request : Request
  reply : Except Fault Reply
  seen : σ

/-- What a heap tells of itself to those who cannot look at its bytes. -/
structure View where
  size : Nat
  freeBlocks : Except Fault Nat
  layout : Except Fault (List Extent)
  audit : Except Fault Summary

/-- Whether the request is one that the heap works on, and not a client writing to its block. -/
def Request.isCall : Request → Bool
  | .write .. => false
  | _ => true

/-- The regions that no heap has used yet. -/
inductive Region.Fresh : Region → Prop
  | buffer (capacity : Nat) : Fresh (.buffer capacity)
  | mapping (reservation : Nat) (system : System) : Fresh (.mapping reservation system)

variable {n m : Nat} [HasClass n] [HasClass m] {σ : Type}

namespace Heap

/-- What a heap tells of itself. -/
def view (h : Heap n) : View := ⟨h.size, h.freeBlocks, h.layout, h.audit⟩

/-- The list of a class with its nodes. -/
def freeList (h : Heap n) (c : Fin n) : FreeList × Except Fault (List Block) :=
  (h.index.list c, (h.index.list c).nodes h.memory)

/-- The heap after some requests. -/
def afterAll (h : Heap n) (requests : List Request) : Heap n :=
  requests.foldl (fun h request => (request.serve.on h).state) h

/-- The transcript of a run. -/
def transcript (see : Heap n → σ) : Heap n → List Request → List (Entry σ)
  | _, [] => []
  | h, request :: rest =>
      let outcome := request.serve.on h
      ⟨request, outcome.result, see outcome.state⟩ :: transcript see outcome.state rest

/-- The requests keep to the rules, each of them when it is made. -/
def Admits (h : Heap n) (live : Live) : List Request → Prop
  | [] => True
  | request :: rest => request.Allowed h live ∧
      ∀ reply, (request.serve.on h).result = .ok reply →
        Admits (request.serve.on h).state (live.after request reply.block?) rest

end Heap

namespace Outline

/-- What the heap with this outline tells of itself. -/
def view (o : Outline) : View :=
  ⟨o.size, .ok (Summary.ofLayout o.layout).freeBlocks, .ok o.layout, .ok (.ofLayout o.layout)⟩

/-- The list of a class in the heap with this outline: the free blocks of the class. -/
def freeList (o : Outline) (c : Fin n) : FreeList × Except Fault (List Block) :=
  (⟨Block.ofOffset? ((members c o.layout).headD 0), (members c o.layout).length⟩,
    .ok ((members c o.layout).filterMap Block.ofOffset?))

/-- The outline after some requests. -/
def afterAll (o : Outline) (requests : List Request) : Outline :=
  requests.foldl (fun o request => (o.serve request).2) o

/-- The transcript of an outline. -/
def transcript (look : Outline → σ) : Outline → List Request → List (Entry σ)
  | _, [] => []
  | o, request :: rest =>
      let answer := o.serve request
      ⟨request, .ok answer.1, look answer.2⟩ :: transcript look answer.2 rest

/-- An outline does not notice what its client writes. -/
theorem serve_of_not_isCall {o : Outline} {request : Request} (h : request.isCall = false) :
    (o.serve request).2 = o := by
  cases request with
  | write => rfl
  | _ => exact nomatch h

theorem afterAll_filter (o : Outline) (requests : List Request) :
    o.afterAll (requests.filter (·.isCall)) = o.afterAll requests := by
  induction requests generalizing o with
  | nil => rfl
  | cons request rest ih =>
      cases hcall : request.isCall with
      | true =>
          rw [List.filter_cons_of_pos hcall]
          exact ih _
      | false =>
          rw [List.filter_cons_of_neg (by rw [hcall]; exact nofun), ih]
          show o.afterAll rest = (o.serve request).2.afterAll rest
          rw [serve_of_not_isCall hcall]

/-- Without the entries of what the client wrote, a transcript is that of the calls alone. -/
theorem transcript_filter (look : Outline → σ) (o : Outline) (requests : List Request) :
    (o.transcript look requests).filter (·.request.isCall) =
      o.transcript look (requests.filter (·.isCall)) := by
  induction requests generalizing o with
  | nil => rfl
  | cons request rest ih =>
      cases hcall : request.isCall with
      | true =>
          rw [List.filter_cons_of_pos hcall, transcript, transcript, ← ih]
          exact List.filter_cons_of_pos hcall
      | false =>
          have hnot : ¬ request.isCall = true := by rw [hcall]; exact nofun
          rw [List.filter_cons_of_neg hnot, ← ih o, transcript, serve_of_not_isCall hcall]
          exact List.filter_cons_of_neg hnot

end Outline

namespace Heap

variable {h : Heap n} {h' : Heap m} {o : Outline} {live : Live} {requests : List Request}

omit [HasClass n] in
/-- A heap that is not laid out counts no free block. -/
theorem Vacant.freeBlocks_eq_ok (hv : h.Vacant) : h.freeBlocks = .ok 0 := by
  have hnone : ∀ c, (h.index.list c).length = 0 := by
    intro c
    rw [hv.index, Index.list_empty]
    rfl
  have hsum : ∑ c, (h.index.list c).length = 0 := Finset.sum_eq_zero fun c _ => hnone c
  rw [freeBlocks, Index.length_eq_sum (by rw [hsum]; decide), hsum]

omit [HasClass n] in
theorem Vacant.layout_eq_ok (hv : h.Vacant) : h.layout = .ok [] := by
  rw [layout, hv.prologue]
  rfl

/-- An outline shows what its heap tells of itself. -/
theorem HasOutline.view_eq (ho : h.HasOutline o) : h.view = o.view := by
  have hc := ho.content
  rw [view, Outline.view, Outline.layout, ho.size_eq]
  cases hcontent : o.content with
  | vacant size =>
      rw [hcontent] at hc
      have haudit : h.audit = .ok {} := by rw [audit, hc.1.prologue]; rfl
      rw [hc.1.freeBlocks_eq_ok, hc.1.layout_eq_ok, haudit]
      rfl
  | blocks p xs =>
      rw [hcontent] at hc
      rw [freeBlocks_eq_ok hc, layout_eq_ok hc, audit_eq_ok hc]

/-- An outline shows the free lists of its heap. -/
theorem HasOutline.freeList_eq (ho : h.HasOutline o) (c : Fin n) : h.freeList c = o.freeList c := by
  have hc := ho.content
  rw [freeList, Outline.freeList, Outline.layout]
  cases hcontent : o.content with
  | vacant size =>
      rw [hcontent] at hc
      rw [hc.1.index, Index.list_empty]
      rfl
  | blocks p xs =>
      rw [hcontent] at hc
      have g : h.Shaped p xs := hc
      have hplaced := g.around.placed
      rw [List.append_nil] at hplaced
      have ht := g.lists c
      have hnodes : (h.index.list c).nodes h.memory =
          .ok ((members c xs).filterMap Block.ofOffset?) := by
        have hvisit := FreeList.visitAll_eq_ok ht (hplaced.nodes c) (size_lt_bound g.inOrder.size_lt)
          (f := id) fun _ _ => rfl
        rwa [List.map_id] at hvisit
      have hlist : h.index.list c =
          ⟨Block.ofOffset? ((members c xs).headD 0), (members c xs).length⟩ := by
        rw [← ht.head, ← ht.length]
      rw [hnodes, hlist]

/-- An outline shows all that is asked for in a transcript. -/
theorem HasOutline.seen_eq (ho : h.HasOutline o) :
    (h.view, h.freeList) = (o.view, (o.freeList : Fin n → FreeList × Except Fault (List Block))) :=
  congrArg₂ Prod.mk ho.view_eq (funext ho.freeList_eq)

/-- **A RUN** of a heap leaves the transcript that its outline leaves. -/
theorem transcript_eq {see : Heap n → σ} {look : Outline → σ}
    (hsee : ∀ {h o}, h.HasOutline o → see h = look o) (ho : h.HasOutline o) (hs : h.Serves live)
    (ha : h.Admits live requests) :
    h.transcript see requests = o.transcript look requests ∧
      (h.afterAll requests).HasOutline (o.afterAll requests) := by
  induction requests generalizing h o live with
  | nil => exact ⟨rfl, ho⟩
  | cons request rest ih =>
      obtain ⟨hallowed, hrest⟩ := ha
      obtain ⟨hresult, ho', hs'⟩ := request.serve_on ho hs hallowed
      obtain ⟨htranscript, hafter⟩ := ih ho' hs' (hrest _ hresult)
      refine ⟨?_, hafter⟩
      rw [transcript, Outline.transcript, htranscript, hresult, hsee ho']

/-- What keeps to the rules in one heap keeps to them in every heap with its outline. -/
theorem Admits.congr (ha : h.Admits live requests) (ho : h.HasOutline o) (ho' : h'.HasOutline o)
    (hs : h.Serves live) : h'.Admits live requests := by
  induction requests generalizing h h' o live with
  | nil => exact trivial
  | cons request rest ih =>
      obtain ⟨hallowed, hrest⟩ := ha
      have hallowed' := ho.allowed ho' hs hallowed
      have hs' := ho.serves ho' hs
      obtain ⟨hresult, hnext, hserves⟩ := request.serve_on ho hs hallowed
      obtain ⟨hresult', hnext', -⟩ := request.serve_on ho' hs' hallowed'
      refine ⟨hallowed', fun reply hreply => ?_⟩
      obtain rfl := Except.ok.inj (hresult'.symm.trans hreply)
      exact ih (hrest _ hresult) hnext hnext' hserves

/-- A heap that nobody has used yet has no layout, and serves a client that has no block. -/
theorem new_hasOutline {region : Region} (hr : region.Fresh) (settings : Settings) :
    (new region settings : Heap n).HasOutline ⟨region.bounds, settings, .vacant 0⟩ ∧
      (new region settings : Heap n).Serves [] := by
  have hv : (new region settings : Heap n).Vacant ∧ region.size = 0 := by
    cases hr with
    | buffer capacity => exact ⟨⟨rfl, rfl, Region.sound_buffer capacity⟩, rfl⟩
    | mapping reservation system =>
        exact ⟨⟨rfl, rfl, Region.sound_mapping reservation system⟩, rfl⟩
  exact ⟨⟨rfl, rfl, hv⟩, .vacant hv.1⟩

/-- Every entry of a transcript is an answer, and what was seen then is what a heap shows that serves
its client. -/
theorem mem_transcript {see : Heap n → σ} (hs : h.Serves live) (ha : h.Admits live requests)
    {entry : Entry σ} (he : entry ∈ h.transcript see requests) :
    (∃ reply, entry.reply = .ok reply) ∧
      ∃ (now : Heap n) (live' : Live), now.Serves live' ∧ entry.seen = see now := by
  induction requests generalizing h live with
  | nil => exact nomatch he
  | cons request rest ih =>
      obtain ⟨hallowed, hrest⟩ := ha
      obtain ⟨o, ho⟩ := hs.exists_outline
      obtain ⟨hresult, -, hserves⟩ := request.serve_on ho hs hallowed
      rcases List.mem_cons.mp he with rfl | he
      · exact ⟨⟨_, hresult⟩, _, _, hserves, rfl⟩
      · exact ih hserves (hrest _ hresult) he

/-- **ONE LIST.** A heap with a single class keeps all of its free blocks on one list, in the order
in which they lie. -/
theorem Serves.single_list {h : Heap 1} (hs : h.Serves live) :
    ∃ xs bs, h.layout = .ok xs ∧ (h.freeList 0).2 = .ok bs ∧
      bs.map (·.offset) = (xs.filter (!·.allocated)).map (·.offset) ∧
      bs.Pairwise (·.offset < ·.offset) := by
  obtain ⟨o, ho⟩ := hs.exists_outline
  have hlayout : h.layout = .ok o.layout := congrArg View.layout ho.view_eq
  have hnodes : (h.freeList 0).2 = .ok ((members (0 : Fin 1) o.layout).filterMap Block.ofOffset?) :=
    congrArg Prod.snd (ho.freeList_eq 0)
  have hmembers : members (0 : Fin 1) o.layout =
      (o.layout.filter (!·.allocated)).map (·.offset) := by
    have hclass : ∀ size, (Index.classOf 1 size == 0) = true := fun _ =>
      beq_iff_eq.2 (Subsingleton.elim ..)
    simp only [members, hclass, Bool.and_true]
  have hplaces : ∃ memory, Nodes memory (members (0 : Fin 1) o.layout) := by
    have hc := ho.content
    rw [Outline.layout]
    cases hcontent : o.content with
    | vacant size => exact ⟨h.memory, .nil, List.forall_mem_nil _⟩
    | blocks p xs =>
        rw [hcontent] at hc
        have hplaced := (Gapped.around hc).placed
        rw [List.append_nil] at hplaced
        exact ⟨h.memory, hplaced.nodes 0⟩
  obtain ⟨memory, hplaced⟩ := hplaces
  have hmap := Block.map_filterMap_ofOffset? fun o ho => (hplaced.inside o ho).1
  exact ⟨_, _, hlayout, hnodes, hmap.trans hmembers, hplaced.ascending⟩

end Heap

/-! ## What cannot be observed -/

variable {region : Region} {settings : Settings} {requests requests' : List Request}

/-- **THE NUMBER OF CLASSES CANNOT BE OBSERVED.** The same requests are answered in the same way, and
leave the same size, the same counts, the same layout and the same outcome of an audit, whatever the
number of classes is. In particular a heap with many lists is no different from a heap that has all
of its free blocks on a single one. -/
theorem Heap.classes_unobservable (hr : region.Fresh)
    (ha : (Heap.new region settings : Heap n).Admits [] requests) :
    (Heap.new region settings : Heap m).Admits [] requests ∧
      (Heap.new region settings : Heap m).transcript Heap.view requests =
        (Heap.new region settings : Heap n).transcript Heap.view requests ∧
      (∀ entry ∈ (Heap.new region settings : Heap n).transcript Heap.view requests,
        ∃ reply, entry.reply = .ok reply) ∧
      ∀ entry ∈ (Heap.new region settings : Heap 1).transcript
          (fun h => (h.layout, (h.freeList 0).2)) requests,
        ∃ xs bs, entry.seen = (.ok xs, .ok bs) ∧
          bs.map (·.offset) = (xs.filter (!·.allocated)).map (·.offset) ∧
          bs.Pairwise (·.offset < ·.offset) := by
  obtain ⟨ho, hs⟩ := Heap.new_hasOutline (n := n) hr settings
  obtain ⟨ho', hs'⟩ := Heap.new_hasOutline (n := m) hr settings
  obtain ⟨ho₁, hs₁⟩ := Heap.new_hasOutline (n := 1) hr settings
  have ha' := ha.congr ho ho' hs
  refine ⟨ha', ?_, ?_, ?_⟩
  · rw [(Heap.transcript_eq Heap.HasOutline.view_eq ho hs ha).1,
      (Heap.transcript_eq Heap.HasOutline.view_eq ho' hs' ha').1]
  · intro entry he
    exact (Heap.mem_transcript hs ha he).1
  · intro entry he
    obtain ⟨-, now, live, hserves, hseen⟩ := Heap.mem_transcript hs₁ (ha.congr ho ho₁ hs) he
    obtain ⟨xs, bs, hlayout, hnodes, hmap, hsorted⟩ := hserves.single_list
    exact ⟨xs, bs, by rw [hseen, hlayout, hnodes], hmap, hsorted⟩

/-- A client is given a block, writes to it and gives it back. -/
def roundTrip (bytes : List UInt8) : List Request :=
  [.allocate 24, .write ⟨4080, by decide⟩ 0 bytes, .free (some ⟨4080, by decide⟩)]

theorem admits_roundTrip (bytes : List UInt8) (hfits : bytes.length ≤ 24) :
    (Heap.new (.buffer 4112) .standard : Heap 2).Admits [] (roundTrip bytes) := by
  have hfirst : ((Request.allocate 24).serve.on
      (.new (.buffer 4112) .standard : Heap 2)).result = .ok (.block (some ⟨4080, by decide⟩)) := rfl
  have husable : ((Request.allocate 24).serve.on
      (.new (.buffer 4112) .standard : Heap 2)).state.usableSize ⟨4080, by decide⟩ = .ok 24 := rfl
  refine ⟨⟨nofun, trivial⟩, fun reply hreply => ?_⟩
  obtain rfl := Except.ok.inj (hfirst.symm.trans hreply)
  refine ⟨⟨?_, 24, husable, ?_⟩, fun _ _ => ⟨⟨?_, trivial⟩, fun _ _ => trivial⟩⟩
  · rintro _ ⟨⟩
    exact ⟨24, .head _⟩
  · rwa [Nat.zero_add]
  · rintro _ ⟨⟩
    exact ⟨24, .head _⟩

/-- Two classes and twenty are the same to a client that gives its block back. -/
theorem classes_unobservable_roundTrip :
    (Heap.new (.buffer 4112) .standard : Heap 20).transcript Heap.view (roundTrip [1, 2, 3]) =
      (Heap.new (.buffer 4112) .standard : Heap 2).transcript Heap.view (roundTrip [1, 2, 3]) := by
  have ha := admits_roundTrip [1, 2, 3] (by decide)
  exact (Heap.classes_unobservable (m := 20) (.buffer 4112) ha).2.1

/-- **WHAT A CLIENT WRITES CANNOT BE OBSERVED.** Two runs with the same calls, between which the
client writes what and where it pleases to its own blocks, get the same replies, and after every
call and at their ends they show the same size, counts, layout, audit and free lists. -/
theorem Heap.payloads_unobservable (hr : region.Fresh)
    (ha : (Heap.new region settings : Heap n).Admits [] requests)
    (ha' : (Heap.new region settings : Heap n).Admits [] requests')
    (hcalls : requests.filter (·.isCall) = requests'.filter (·.isCall)) :
    ((Heap.new region settings : Heap n).transcript (fun h => (h.view, h.freeList)) requests).filter
        (·.request.isCall) =
      ((Heap.new region settings : Heap n).transcript (fun h => (h.view, h.freeList))
        requests').filter (·.request.isCall) ∧
      ((Heap.new region settings : Heap n).afterAll requests).view =
        ((Heap.new region settings : Heap n).afterAll requests').view ∧
      ((Heap.new region settings : Heap n).afterAll requests).freeList =
        ((Heap.new region settings : Heap n).afterAll requests').freeList := by
  obtain ⟨ho, hs⟩ := Heap.new_hasOutline (n := n) hr settings
  obtain ⟨hrun, hend⟩ := Heap.transcript_eq Heap.HasOutline.seen_eq ho hs ha
  obtain ⟨hrun', hend'⟩ := Heap.transcript_eq Heap.HasOutline.seen_eq ho hs ha'
  rw [← Outline.afterAll_filter, hcalls, Outline.afterAll_filter] at hend
  refine ⟨?_, ?_, ?_⟩
  · rw [hrun, hrun', Outline.transcript_filter, Outline.transcript_filter, hcalls]
  · rw [hend.view_eq, hend'.view_eq]
  · exact (funext hend.freeList_eq).trans (funext hend'.freeList_eq).symm

/-- Whether that client writes to its block or not makes no difference. -/
theorem payloads_unobservable_roundTrip :
    ((Heap.new (.buffer 4112) .standard : Heap 2).afterAll (roundTrip [1, 2, 3])).view =
      ((Heap.new (.buffer 4112) .standard : Heap 2).afterAll (roundTrip [])).view := by
  have ha := admits_roundTrip [1, 2, 3] (by decide)
  have ha' := admits_roundTrip [] (by decide)
  exact (Heap.payloads_unobservable (.buffer 4112) ha ha' rfl).2.1

end TagHeap
