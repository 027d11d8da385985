import ArcMonark.Mm.HeapRuns

/-! What holds of the heap in every state of every run.

The block list is read off memory as it stands (`headers`); that it is well formed
(`heap_list_invariant`), that clients are safe from one another and from the
allocator (`allocator_safe`) and that the heap's pages are its own
(`heap_pages_private`) follow from the invariant. -/
namespace ArcMonark.Mm.Heap
open Library Pmm Vmm Virtual
open Block (Laid Settled used)

/-! ### The list as it stands in memory -/

/-- A `block_t`, with its address. -/
structure BlockHeader where
  addr : Nat
  size : Nat
  free : Bool
  next : Nat
  prev : Nat
  deriving DecidableEq, Repr

/-- The headers from `b` on, following `next`. -/
def headersFrom (m : Machine) : (fuel b : Nat) → Except Fault (List BlockHeader)
  | 0, _ => .error .diverge
  | fuel + 1, b =>
    if b = null then .ok []
    else do
      let size ← getSize m b
      let free ← getFree m b
      let next ← getNext m b
      let prev ← getPrev m b
      return ⟨b, size, free, next, prev⟩ :: (← headersFrom m fuel next)

/-- The block list of the heap. -/
def headers (m : Machine) : Except Fault (List BlockHeader) := headersFrom m endless m.head

/-- A well-formed block list. -/
structure WellFormed (m : Machine) (hs : List BlockHeader) : Prop where
  first : ∃ b, hs.head? = some b ∧ b.addr = heapBase ∧ m.head = heapBase ∧ b.prev = null
  linked : hs.IsChain fun b c => b.next = c.addr ∧ c.prev = b.addr
  ordered : hs.IsChain fun b c => b.addr < c.addr ∧ b.addr + sizeofBlock + b.size ≤ c.addr
  last : ∀ b ∈ hs.getLast?, b.next = null ∧ b.addr + sizeofBlock + b.size ≤ m.heapEnd
  aligned : ∀ b ∈ hs, b.size % align = 0
  settled : hs.IsChain fun b c => ¬ (b.free = true ∧ c.free = true)
  used : m.usedBytes = ((hs.filter fun b => !b.free).map BlockHeader.size).sum

/-- The headers of linked blocks. -/
def headersOf (prev : Nat) : List Block → Nat → List BlockHeader
  | [], _ => []
  | b :: bs, next => ⟨b.addr, b.size, b.free, firstAddr bs next, prev⟩ :: headersOf b.addr bs next

section HeadersOf
variable {A : Space} {role : Nat → Role} {n prev next : Nat} {V : Mem} {bs ys : List Block} {m : Machine}

theorem Listed.headersFrom (h : Listed A role n V bs m) {fuel : Nat} (hsub : ∀ b ∈ ys, b ∈ bs)
    (hl : Linked V prev ys null) (hfuel : ys.length < fuel) :
    headersFrom m fuel (firstAddr ys null) = .ok (headersOf prev ys null) := by
  induction ys generalizing fuel prev with
  | nil =>
    obtain ⟨fuel, rfl⟩ := Nat.exists_eq_succ_of_ne_zero (Nat.ne_zero_of_lt hfuel)
    rfl
  | cons b ys ih =>
    obtain ⟨fuel, rfl⟩ := Nat.exists_eq_succ_of_ne_zero (Nat.ne_zero_of_lt hfuel)
    have hb := hsub b List.mem_cons_self
    have hin := h.inHeap hb
    have hrest := ih (fun c hc => hsub c (List.mem_cons_of_mem b hc)) hl.2
      (show ys.length < fuel by rw [List.length_cons] at hfuel; omega)
    simp only [Heap.headersFrom, firstAddr_cons, if_neg (h.ne_null hb), h.toFlat.getSize hin,
      h.toFlat.getFree hin, h.toFlat.getNext hin, h.toFlat.getPrev hin, ok_bind, hl.1.size, hl.1.free,
      hl.1.next, hl.1.prev, hrest]
    rfl

/-- Every header is that of a block. -/
theorem mem_headersOf {b : BlockHeader} (hb : b ∈ headersOf prev bs next) :
    ⟨b.addr, b.size, b.free⟩ ∈ bs := by
  induction bs generalizing prev with
  | nil => cases hb
  | cons c bs ih =>
    rcases List.mem_cons.mp hb with rfl | hb
    · exact List.mem_cons_self
    · exact List.mem_cons_of_mem c (ih hb)

/-- Every block has its header. -/
theorem exists_header {c : Block} (hc : c ∈ bs) (prev next : Nat) :
    ∃ d ∈ headersOf prev bs next, d.addr = c.addr ∧ d.size = c.size ∧ d.free = c.free := by
  induction bs generalizing prev with
  | nil => cases hc
  | cons b bs ih =>
    rcases List.mem_cons.mp hc with rfl | hc
    · exact ⟨_, List.mem_cons_self, rfl, rfl, rfl⟩
    · obtain ⟨d, hd, hsame⟩ := ih hc b.addr
      exact ⟨d, List.mem_cons_of_mem _ hd, hsame⟩

/-- What holds of neighbouring blocks holds of their headers, which are linked. -/
theorem isChain_headersOf {R : Block → Block → Prop} (h : bs.IsChain R) (prev next : Nat) :
    (headersOf prev bs next).IsChain fun b c =>
      (b.next = c.addr ∧ c.prev = b.addr) ∧ R ⟨b.addr, b.size, b.free⟩ ⟨c.addr, c.size, c.free⟩ := by
  induction bs generalizing prev with
  | nil => exact List.isChain_nil
  | cons b bs ih =>
    obtain ⟨hhead, htail⟩ := List.isChain_cons.mp h
    refine List.isChain_cons.mpr ⟨fun c hc => ?_, ih htail b.addr⟩
    cases bs with
    | nil => cases hc
    | cons d bs =>
      cases hc
      exact ⟨⟨rfl, rfl⟩, hhead d rfl⟩

theorem getLast?_headersOf {b : BlockHeader} (hb : b ∈ (headersOf prev bs next).getLast?) :
    b.next = next := by
  induction bs generalizing prev with
  | nil => cases hb
  | cons c bs ih =>
    cases bs with
    | nil =>
      cases hb
      rfl
    | cons d bs =>
      rw [headersOf, headersOf, List.getLast?_cons_cons] at hb
      exact ih hb

theorem used_headersOf (prev next : Nat) (bs : List Block) :
    (((headersOf prev bs next).filter fun b => !b.free).map BlockHeader.size).sum = used bs := by
  induction bs generalizing prev with
  | nil => rfl
  | cons b bs ih =>
    rw [headersOf, used, ← ih b.addr]
    cases hfree : b.free <;> simp

/-- The headers in memory of a heap with its invariant. -/
theorem HeapInv.headers (h : HeapInv A role n V bs m) : headers m = .ok (headersOf null bs null) := by
  rw [Heap.headers, h.head, ← h.first]
  exact h.toListed.headersFrom (fun _ hb => hb) h.linked h.length_lt

theorem HeapInv.wellFormed (h : HeapInv A role n V bs m) : WellFormed m (headersOf null bs null) := by
  have hlinked := isChain_headersOf h.settled null null
  have hordered := isChain_headersOf h.laid.pairwise.isChain null null
  refine ⟨?_, hlinked.imp fun _ _ hc => hc.1, hordered.imp fun b c hc => ?_, fun b hb => ?_,
    fun b hb => (h.sized _ (mem_headersOf hb)).2, hlinked.imp fun _ _ hc => hc.2, ?_⟩
  · have hfirst := h.first
    cases bs with
    | nil => exact absurd hfirst (show null ≠ heapBase by decide)
    | cons b bs => exact ⟨_, rfl, hfirst, h.head, rfl⟩
  · have hstop : b.addr + 32 + b.size ≤ c.addr := hc.2
    exact ⟨by omega, hstop⟩
  · rw [h.heapEnd]
    exact ⟨getLast?_headersOf hb, (h.bounds (mem_headersOf (List.mem_of_getLast? hb))).2.1⟩
  · rw [used_headersOf, h.count_used]

end HeadersOf

/-- **The block list is well formed** in every state of every run. -/
theorem heap_list_invariant (B : HeapBoot) {w : HeapRun} (h : (heap B).Reachable w) :
    ∃ hs, headers w.machine = .ok hs ∧ WellFormed w.machine hs := by
  obtain ⟨A, role, n, V, bs, _, hw⟩ := held_reachable h
  exact ⟨_, hw.toHeapInv.headers, hw.toHeapInv.wellFormed⟩

/-- A plain machine of 64 pages serves a request for 100 bytes. -/
theorem flatHeap_allocates : ∃ w p, (heap (flatHeap (n := 64) (by decide))).Reachable w ∧
    (p, 100) ∈ w.live := by
  obtain ⟨A, role, V, m, _, hinit, hheld, _⟩ := flatHeap_start (n := 64) (by decide) (by decide)
  obtain ⟨_, _, _, _, m', c, hr, _, h', _, hc, _⟩ :=
    hheld.kmalloc_serves (show 100 ≠ 0 by decide) (by decide) (.inl (by unfold SomeFits; decide))
  have hne : c.addr + 32 ≠ null := (h'.ptr hc).1
  refine ⟨_, c.addr + 32, .step (.start hinit) (.malloc (by decide) hr), ?_⟩
  show (c.addr + 32, 100) ∈ record (c.addr + 32) 100 []
  rw [record, if_neg hne]
  exact List.mem_cons_self

theorem heap_list_invariant_flatHeap : ∃ (w : HeapRun) (p : Nat), (p, 100) ∈ w.live ∧
    ∃ hs, headers w.machine = .ok hs ∧ WellFormed w.machine hs := by
  obtain ⟨w, p, hw, hp⟩ := flatHeap_allocates
  exact ⟨w, p, hp, heap_list_invariant _ hw⟩

/-! ### Clients -/

/-- The bytes behind a pointer, by the header in front of it. -/
def payload (m : Machine) (ptr : Nat) : Except Fault Nat := getSize m (sub64 ptr sizeofBlock)

/-- A pointer a client can use for `size` bytes. -/
def Usable (m : Machine) (ptr size : Nat) : Prop :=
  ptr % align = 0 ∧ heapBase ≤ ptr ∧ ptr + size ≤ m.heapEnd

section Clients
variable {A : Space} {role : Nat → Role} {n : Nat} {V : Mem} {bs : List Block} {w : HeapRun}

theorem HeapInv.payload {m : Machine} {b : Block} (h : HeapInv A role n V bs m) (hb : b ∈ bs) :
    payload m (b.addr + 32) = .ok b.size := by
  obtain ⟨_, hptr, hget⟩ := h.ptr hb
  rw [Heap.payload, hptr, hget]

/-- What a live pointer points to. -/
theorem Held.payload (h : Held A role n V bs w) {p : Nat} (hp : w.Live p) :
    ∃ b ∈ bs, b.free = false ∧ p = b.addr + 32 ∧ payload w.machine p = .ok b.size ∧
      Usable w.machine p b.size := by
  obtain ⟨b, hb, hfree, rfl⟩ := h.block hp
  obtain ⟨hbase, hend, _⟩ := h.bounds hb
  have haddr := (h.sized b hb).1
  refine ⟨b, hb, hfree, rfl, h.toHeapInv.payload hb, ?_, by omega, by rw [h.heapEnd]; exact hend⟩
  unfold align at *
  omega

theorem Held.usable (h : Held A role n V bs w) {p s : Nat} (hp : (p, s) ∈ w.live) :
    Usable w.machine p s := by
  obtain ⟨b, hb, _, rfl, hs⟩ := h.live p s hp
  obtain ⟨c, hc, _, haddr, _, halign, hle, hend⟩ := h.payload ⟨s, hp⟩
  have hbc := h.eq_of_addr hb hc (by omega)
  subst hbc
  exact ⟨halign, hle, by omega⟩

/-- Two payloads, or a payload and a header. -/
theorem Held.apart (h : Held A role n V bs w) {b c : Block} (hb : b ∈ bs) (hc : c ∈ bs) :
    (b.addr ≠ c.addr → b.addr + 32 + b.size ≤ c.addr + 32 ∨ c.addr + 32 + c.size ≤ b.addr + 32) ∧
      (b.addr + 32 + b.size ≤ c.addr ∨ c.addr + 32 ≤ b.addr + 32) := by
  have happart := h.laid.apart hb hc
  unfold Block.stop sizeofBlock at happart
  rcases happart with rfl | happart | happart
  · exact ⟨fun hne => absurd rfl hne, by omega⟩
  · exact ⟨fun _ => by omega, by omega⟩
  · exact ⟨fun _ => by omega, by omega⟩

/-- What `krealloc` returns is live afterwards, if it is not null. -/
theorem mem_afterRealloc {ptr size p : Nat} {m m' : Machine} {live : List (Nat × Nat)}
    (hk : krealloc m ptr size = .ok (p, m')) (hne : p ≠ null) :
    (p, size) ∈ afterRealloc ptr size p live := by
  unfold afterRealloc
  by_cases hnull : ptr = null
  · rw [if_pos hnull, record, if_neg hne]
    exact List.mem_cons_self
  · rw [if_neg hnull]
    by_cases hsize : size = 0
    · subst hsize
      exact absurd (krealloc_zero hnull hk).1 hne
    · rw [if_neg hsize, if_neg hne]
      exact List.mem_cons_self

/-- A block that is kept reads as before. -/
theorem Held.read_kept {role' : Nat → Role} {n' : Nat} {V' : Mem} {bs' : List Block} {w' : HeapRun}
    (h : Held A role n V bs w) (h' : Held A role' n' V' bs' w') (hkept : Kept bs bs' V V' w w') {b : Block}
    (hb : b ∈ bs) (hlive : w.Live (b.addr + 32)) (hlive' : w'.Live (b.addr + 32)) {i : Nat}
    (hi : i < b.size) :
    readByte w'.machine (b.addr + 32 + i) = readByte w.machine (b.addr + 32 + i) := by
  obtain ⟨hb', hold⟩ := hkept b hb hlive hlive'
  obtain ⟨hbase, hend, _⟩ := h.bounds hb
  obtain ⟨_, hend', _⟩ := h'.bounds hb'
  rw [h.bytes _ (by omega) (by omega), h'.bytes _ (by omega) (by omega)]
  exact congrArg Except.ok (hold i hi)

end Clients

/-- **The allocator is safe towards its clients** in every state of every run: the
pointers it returns are aligned and inside the heap with the bytes asked for; the
payloads of live allocations lie apart from one another and from every header of
the list; and no call changes a byte of an allocation that stays live. -/
theorem allocator_safe (B : HeapBoot) {w : HeapRun} (h : (heap B).Reachable w) :
    (∀ p s, (p, s) ∈ w.live → Usable w.machine p s ∧
      ∃ k, payload w.machine p = .ok k ∧ s ≤ k ∧ Usable w.machine p k) ∧
    (∀ size p m, size < 2 ^ 63 → kmalloc w.machine size = .ok (p, m) → p ≠ null → Usable m p size) ∧
    (∀ ptr size p m, ptr = null ∨ w.Live ptr → size < 2 ^ 63 →
      krealloc w.machine ptr size = .ok (p, m) → p ≠ null → Usable m p size) ∧
    (∀ p q k l, w.Live p → w.Live q → p ≠ q → payload w.machine p = .ok k →
      payload w.machine q = .ok l → p + k ≤ q ∨ q + l ≤ p) ∧
    (∃ hs, headers w.machine = .ok hs ∧ ∀ p k, w.Live p → payload w.machine p = .ok k →
      ∀ b ∈ hs, p + k ≤ b.addr ∨ b.addr + sizeofBlock ≤ p) ∧
    (∀ e w', HeapStep w e w' → e.IsCall → ∀ p k, w.Live p → w'.Live p →
      payload w.machine p = .ok k → ∀ i, i < k →
        readByte w'.machine (p + i) = readByte w.machine (p + i)) := by
  obtain ⟨A, role, n, V, bs, _, hw⟩ := held_reachable h
  refine ⟨fun p s hp => ?_, fun size p m hlt hk hne => ?_, fun ptr size p m hptr hlt hk hne => ?_,
    fun p q k l hp hq hne hk hl => ?_, ⟨_, hw.toHeapInv.headers, fun p k hp hk b hb => ?_⟩,
    fun e w' hs hcall p k hp hp' hk i hi => ?_⟩
  · obtain ⟨b, hb, _, rfl, hs⟩ := hw.live p s hp
    obtain ⟨c, hc, _, haddr, hpay, husable⟩ := hw.payload ⟨s, hp⟩
    have hbc := hw.eq_of_addr hb hc (by omega)
    subst hbc
    exact ⟨hw.usable hp, b.size, hpay, hs, husable⟩
  · obtain ⟨_, _, _, _, hw', _⟩ := held_step hw (.malloc hlt hk)
    refine hw'.usable (p := p) (s := size) ?_
    show (p, size) ∈ record p size w.live
    rw [record, if_neg hne]
    exact List.mem_cons_self
  · obtain ⟨_, _, _, _, hw', _⟩ := held_step hw (.realloc hptr hlt hk)
    refine hw'.usable (p := p) (s := size) ?_
    exact mem_afterRealloc hk hne
  · obtain ⟨b, hb, _, rfl, hpay, _⟩ := hw.payload hp
    obtain ⟨c, hc, _, rfl, hpay', _⟩ := hw.payload hq
    rw [hpay] at hk
    rw [hpay'] at hl
    cases hk
    cases hl
    exact (hw.apart hb hc).1 (by omega)
  · obtain ⟨c, hc, _, rfl, hpay, _⟩ := hw.payload hp
    rw [hpay] at hk
    cases hk
    exact (hw.apart hc (mem_headersOf hb)).2
  · obtain ⟨b, hb, _, rfl, hpay, _⟩ := hw.payload hp
    rw [hpay] at hk
    cases hk
    obtain ⟨_, _, _, _, hw', hkept⟩ := held_step hw hs
    exact hw.read_kept hw' (hkept hcall) hb hp hp' hi

/-- Two allocations of a plain machine. The byte a client writes behind the first is still there
once the second is freed. -/
theorem allocator_safe_flatHeap : ∃ w w' : HeapRun,
    (heap (flatHeap (n := 64) (by decide))).Reachable w ∧ w.live = [(heapBase + 176, 200), (heapBase + 32, 100)] ∧
    Usable w.machine (heapBase + 32) 100 ∧ Usable w.machine (heapBase + 176) 200 ∧
    payload w.machine (heapBase + 32) = .ok 112 ∧ payload w.machine (heapBase + 176) = .ok 208 ∧
    (heapBase + 32 + 112 ≤ heapBase + 176 ∨ heapBase + 176 + 208 ≤ heapBase + 32) ∧
    readByte w.machine (heapBase + 32 + 99) = .ok 0x5A ∧ HeapStep w (.free (heapBase + 176)) w' ∧
    readByte w'.machine (heapBase + 32 + 99) = .ok 0x5A := by
  obtain ⟨A, role, V, m, hw, hheld⟩ := flatHeap_two (n := 64) (by decide) (by decide)
  have hb : (⟨heapBase, 112, false⟩ : Block) ∈
      [⟨heapBase, 112, false⟩, ⟨heapBase + 144, 208, false⟩, ⟨heapBase + 384, 65120, true⟩] := List.mem_cons_self
  have hc : (⟨heapBase + 144, 208, false⟩ : Block) ∈
      [⟨heapBase, 112, false⟩, ⟨heapBase + 144, 208, false⟩, ⟨heapBase + 384, 65120, true⟩] :=
    List.mem_cons_of_mem _ List.mem_cons_self
  have hfirst : (heapBase + 32, 100) ∈ [(heapBase + 176, 200), (heapBase + 32, 100)] :=
    List.mem_cons_of_mem _ List.mem_cons_self
  obtain ⟨ram, hwrite, h'⟩ := hheld.toHeapInv.clientWrite hb (show 99 < 112 by decide) 0x5A
  have hstep : HeapStep ⟨m, [(heapBase + 176, 200), (heapBase + 32, 100)]⟩ (.write (heapBase + 32) 99 0x5A)
      ⟨{m with ram}, [(heapBase + 176, 200), (heapBase + 32, 100)]⟩ :=
    .write hfirst (show 99 < 100 by decide) hwrite
  have hw' := hw.step hstep
  have hheld' : Held A role heapInitPages _ _ ⟨{m with ram}, [(heapBase + 176, 200), (heapBase + 32, 100)]⟩ :=
    ⟨h', hheld.live, hheld.distinct⟩
  have hp : HeapRun.Live ⟨{m with ram}, [(heapBase + 176, 200), (heapBase + 32, 100)]⟩ (heapBase + 32) :=
    ⟨100, hfirst⟩
  have hq : HeapRun.Live ⟨{m with ram}, [(heapBase + 176, 200), (heapBase + 32, 100)]⟩ (heapBase + 176) :=
    ⟨200, List.mem_cons_self⟩
  have hpay := h'.payload hb
  have hpay' := h'.payload hc
  have hread : readByte {m with ram} (heapBase + 32 + 99) = .ok 0x5A := by
    rw [h'.bytes _ (by omega) (by decide), Mem.set_same]
  obtain ⟨_, _, _, _, _, _, _, _, _, hk, _⟩ := hheld'.kfree hq
  have hfree := HeapStep.free (.inr hq) hk
  obtain ⟨husable, _, _, happart, _, hkept⟩ := allocator_safe _ hw'
  refine ⟨_, _, hw', rfl, (husable _ _ hfirst).1,
    (husable _ _ List.mem_cons_self).1, hpay, hpay', happart _ _ _ _ hp hq (by decide) hpay hpay', hread, hfree, ?_⟩
  rw [hkept _ _ hfree trivial _ _ hp ⟨100, mem_forget.mpr ⟨hfirst, by decide⟩⟩
    hpay 99 (by decide)]
  exact hread

/-! ### Pages -/

namespace Backed
variable {A : Space} {role : Nat → Role} {n : Nat} {m : Machine}

/-- A page of the heap has a frame to itself: marked used, and neither a table nor
part of the bitmap. -/
theorem page_private (h : Backed A role n m) {v : Nat} (hle : heapBase ≤ v) (hlt : v < pageAddr n) :
    ∃ t, walk m.ram m.cr3 v = some t ∧ t.write = true ∧ t.phys / pageSize < m.totalFrames ∧
      bmpTest m (t.phys / pageSize) = true ∧
      (∀ l table, TableOf m.ram m.cr3 l table → table / pageSize ≠ t.phys / pageSize) ∧
      (∀ a, m.direct m.bitmap ≤ a → a < m.direct m.bitmap + m.bitmapSize →
        a / pageSize ≠ t.phys / pageSize) := by
  have htotal := h.total
  obtain ⟨f, k, hf, _, hwalk⟩ := h.walk_heap hle hlt
  obtain ⟨_, hflt, _⟩ := h.leads f k hf
  have hflt' : f < m.totalFrames := by rw [h.total_eq]; exact hflt
  refine ⟨_, hwalk, rfl, ?_⟩
  show (f * pageSize + v % pageSize) / pageSize < _ ∧ _
  simp only [offset_page]
  refine ⟨hflt', ?_, fun l table htable heq => ?_, fun a hale halt heq => ?_⟩
  · rcases h.taken f (by rw [hf]; simp) with hge | hset
    · omega
    · exact hset
  · rw [h.cr3] at htable
    have hrole := h.shape.tableOf_role htable
    rw [heq, hf] at hrole
    exact hrole
  · rw [h.direct_bitmap] at hale halt
    have hrole := h.toTables.bitmap_byte hale halt
    rw [heq, hf] at hrole
    cases hrole

/-- Different pages of the heap lead to different frames. -/
theorem pages_apart (h : Backed A role n m) {v v' : Nat} {t t' : Translation} (hle : heapBase ≤ v)
    (hlt : v < pageAddr n) (hle' : heapBase ≤ v') (hlt' : v' < pageAddr n)
    (hne : v / pageSize ≠ v' / pageSize) (ht : walk m.ram m.cr3 v = some t)
    (ht' : walk m.ram m.cr3 v' = some t') : t.phys / pageSize ≠ t'.phys / pageSize := by
  obtain ⟨f, k, hf, hin, hwalk⟩ := h.walk_heap hle hlt
  obtain ⟨f', k', hf', hin', hwalk'⟩ := h.walk_heap hle' hlt'
  rw [hwalk] at ht
  rw [hwalk'] at ht'
  cases ht
  cases ht'
  simp only [offset_page]
  intro heq
  rw [heq, hf'] at hf
  have hkk : k' = k := Role.page.inj hf
  rw [InPage] at hin hin'
  rw [hkk] at hin'
  exact hne (hin.trans hin'.symm)

/-- Behind the heap's pages nothing is mapped in its slot. -/
theorem walk_beyond (h : Backed A role n m) {v : Nat} (hv : Canonical v)
    (hslot : levelIndex 3 v = levelIndex 3 heapBase) (hend : pageAddr n ≤ v) :
    walk m.ram m.cr3 v = none := by
  have hcount := h.count
  rw [h.cr3]
  refine h.beyond v hv ?_ fun k hk hin => ?_
  · rw [hslot]
    exact h.owned 0 (by omega)
  · rw [inPage_iff] at hin
    have := pageAddr_mono (show k + 1 ≤ n by omega)
    omega

end Backed

/-- **The heap's pages are its own** in every state of every run: each is mapped,
writable, to a frame that is marked used; different pages lead to different
frames; no such frame holds a page table reachable from the kernel's PML4 or a
byte of the frame bitmap; and in the heap's slot nothing is mapped from the
heap's end on. -/
theorem heap_pages_private (B : HeapBoot) {w : HeapRun} (h : (heap B).Reachable w) :
    w.machine.cr3 = w.machine.direct w.machine.kernelPml4 ∧
    (∀ v, heapBase ≤ v → v < w.machine.heapEnd → ∃ t,
      walk w.machine.ram w.machine.cr3 v = some t ∧ t.write = true ∧
        t.phys / pageSize < w.machine.totalFrames ∧
        bmpTest w.machine (t.phys / pageSize) = true ∧
        (∀ l table, TableOf w.machine.ram w.machine.cr3 l table →
          table / pageSize ≠ t.phys / pageSize) ∧
        (∀ a, w.machine.direct w.machine.bitmap ≤ a →
          a < w.machine.direct w.machine.bitmap + w.machine.bitmapSize →
          a / pageSize ≠ t.phys / pageSize)) ∧
    (∀ v v' t t', heapBase ≤ v → v < w.machine.heapEnd → heapBase ≤ v' → v' < w.machine.heapEnd →
      v / pageSize ≠ v' / pageSize → walk w.machine.ram w.machine.cr3 v = some t →
      walk w.machine.ram w.machine.cr3 v' = some t' → t.phys / pageSize ≠ t'.phys / pageSize) ∧
    (∀ v, Canonical v → levelIndex 3 v = levelIndex 3 heapBase → w.machine.heapEnd ≤ v →
      walk w.machine.ram w.machine.cr3 v = none) := by
  obtain ⟨A, role, n, V, bs, _, hw⟩ := held_reachable h
  have hroot52 : A.root < 2 ^ 52 := hw.shape.table_lt (p := []) (by decide) rfl
  rw [hw.heapEnd]
  refine ⟨?_, fun v hle hlt => hw.page_private hle hlt,
    fun v v' t t' hle hlt hle' hlt' hne ht ht' => hw.pages_apart hle hlt hle' hlt' hne ht ht',
    fun v hv hslot hend => hw.walk_beyond hv hslot hend⟩
  rw [hw.cr3, hw.pml4, direct_phys hw.offset hroot52]

theorem heap_pages_private_flatHeap : ∃ (w : HeapRun) (p : Nat) (t : Translation), (p, 100) ∈ w.live ∧
    walk w.machine.ram w.machine.cr3 p = some t ∧ t.write = true ∧
      bmpTest w.machine (t.phys / pageSize) = true := by
  obtain ⟨w, p, hw, hp⟩ := flatHeap_allocates
  obtain ⟨A, role, n, V, bs, _, hheld⟩ := held_reachable hw
  obtain ⟨_, hle, hend⟩ := hheld.usable hp
  obtain ⟨t, hwalk, hwrite, _, hused, _⟩ := (heap_pages_private _ hw).2.1 p hle (by omega)
  exact ⟨w, p, t, hp, hwalk, hwrite, hused⟩

end ArcMonark.Mm.Heap
