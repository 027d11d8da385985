import ArcMonark.Mm.HeapProofs

/-! Runs of the heap.

A run starts with `pmm_init`, `vmm_init` and `heap_init`; then clients call
`kmalloc`, `krealloc` and `kfree` and write to the bytes they asked for, and other
parts of the kernel take frames. `Held` is the invariant of the machine and the
live pointers; every step keeps it (`held_step`). -/
namespace ArcMonark.Mm.Heap
open Library Pmm Vmm Virtual
open Block (Laid Settled used)

/-- A machine whose boot tables leave the heap's slots free, as far up as its
frames could ever take the heap. -/
structure HeapBoot extends Boot where
  top : pageAddr toLimineMap.totalFrames < 2 ^ 64
  slots : ∀ k, k < toLimineMap.totalFrames →
    present (entryAt ram (cr3 &&& pageAddrMask) (levelIndex 3 (pageAddr k))) = false

/-! ### The start -/

/-- The heap's slots lie in the upper half. -/
theorem levelIndex_heap {v : Nat} (hle : heapBase ≤ v) (hlt : v < 2 ^ 64) : 320 ≤ levelIndex 3 v := by
  rw [levelIndex_eq]
  simp only [Nat.reduceMul, Nat.reduceAdd, Nat.reducePow]
  unfold heapBase at hle
  omega

/-- After `vmm_init` no page of the heap is mapped, and the heap may grow. -/
theorem HeapBoot.backed (B : HeapBoot) {m : Machine} {A : Space} {role : Nat → Role}
    (h : Initialized B.toBoot m A role) (hfree : pmmFreeFrames m < B.totalFrames) :
    Backed A role 0 {m with heapEnd := heapBase} := by
  have hmap : A.map.totalFrames = B.totalFrames := by rw [h.map]
  refine ⟨tables_of_vars h.tables heapBase m.head m.usedBytes, ?_, fun k hk => ?_, ?_, rfl, ?_,
    fun k hk => absurd hk (Nat.not_lt_zero k), fun f k hf => absurd hf (h.no_page f k),
    fun v _ ho _ => ?_, fun q t hq _ ht => ?_⟩
  · rw [hmap]
    exact B.top
  · rw [hmap] at hk
    have hlt : pageAddr k < 2 ^ 64 := Nat.lt_of_le_of_lt (pageAddr_mono (Nat.le_of_lt hk)) B.top
    have hge := levelIndex_heap (pageAddr_mono (Nat.zero_le k)) hlt
    have habsent : present (entryAt B.ram B.oldRoot (levelIndex 3 (pageAddr k))) = false := B.slots k hk
    rw [h.owned _ (levelIndex_lt 3 _), h.upper _ (by omega) (levelIndex_lt 3 _), habsent]
    rfl
  · rw [h.owned 0 (by decide), h.lower 0 (by decide)]
    rfl
  · rw [hmap, Nat.zero_add]
    exact hfree
  · show walk m.ram A.root v = none
    rw [h.tables.shape.walk_owned ho, h.bare _ (by simp [path])]
    rfl
  · rw [h.bare q hq] at ht
    cases ht

/-! ### Steps -/

/-- The machine and the live allocations: pointers and the sizes asked for. -/
structure HeapRun where
  machine : Machine
  live : List (Nat × Nat)

inductive HeapEvent where
  | malloc (size ptr : Nat)
  | realloc (ptr size newPtr : Nat)
  | free (ptr : Nat)
  /-- A client writes to one of the bytes it asked for. -/
  | write (ptr i : Nat) (b : Byte)
  /-- Another part of the kernel takes a frame. -/
  | take

/-- An allocation of some bytes that returned null. -/
def HeapEvent.Refused : HeapEvent → Prop
  | .malloc size ptr => size ≠ 0 ∧ ptr = null
  | .realloc _ size newPtr => size ≠ 0 ∧ newPtr = null
  | .free _ | .write _ _ _ | .take => False

/-- A call of the heap, not something its clients do by themselves. -/
def HeapEvent.IsCall : HeapEvent → Prop
  | .malloc _ _ | .realloc _ _ _ | .free _ => True
  | .write _ _ _ | .take => False

def record (ptr size : Nat) (live : List (Nat × Nat)) : List (Nat × Nat) :=
  if ptr = null then live else (ptr, size) :: live

def forget (ptr : Nat) (live : List (Nat × Nat)) : List (Nat × Nat) :=
  live.filter fun a => decide (a.1 ≠ ptr)

def HeapRun.Live (w : HeapRun) (ptr : Nat) : Prop := ∃ size, (ptr, size) ∈ w.live

/-- The live allocations after `krealloc` of `ptr` returned `newPtr`. -/
def afterRealloc (ptr size newPtr : Nat) (live : List (Nat × Nat)) : List (Nat × Nat) :=
  if ptr = null then record newPtr size live
  else if size = 0 then forget ptr live
  else if newPtr = null then live
  else (newPtr, size) :: forget ptr live

inductive HeapStep : HeapRun → HeapEvent → HeapRun → Prop where
  | malloc {w size p m} : size < 2 ^ 63 → kmalloc w.machine size = .ok (p, m) →
      HeapStep w (.malloc size p) ⟨m, record p size w.live⟩
  | realloc {w ptr size p m} : ptr = null ∨ w.Live ptr → size < 2 ^ 63 →
      krealloc w.machine ptr size = .ok (p, m) →
      HeapStep w (.realloc ptr size p) ⟨m, afterRealloc ptr size p w.live⟩
  | free {w ptr m} : ptr = null ∨ w.Live ptr → kfree w.machine ptr = .ok m →
      HeapStep w (.free ptr) ⟨m, forget ptr w.live⟩
  | write {w ptr size i b m} : (ptr, size) ∈ w.live → i < size →
      writeByte w.machine (ptr + i) b = .ok m → HeapStep w (.write ptr i b) ⟨m, w.live⟩
  | take {w} : HeapStep w .take ⟨(pmmAllocFrame w.machine).2, w.live⟩

/-- `pmm_init`, `vmm_init` with a frame for its PML4, `heap_init`, then any steps. -/
def heap (B : HeapBoot) : System HeapRun HeapEvent where
  init := fun w => ∃ m, B.pmmInit = .ok m ∧ 0 < pmmFreeFrames m ∧
    heapInit (vmmInit m) = .ok w.machine ∧ w.live = []
  step := HeapStep

/-! ### The invariant -/

/-- Live pointers are those of different blocks in use, with room for what was
asked for. -/
structure Held (A : Space) (role : Nat → Role) (n : Nat) (V : Mem) (bs : List Block) (w : HeapRun) :
    Prop extends HeapInv A role n V bs w.machine where
  live : ∀ p s, (p, s) ∈ w.live → ∃ b ∈ bs, b.free = false ∧ p = b.addr + 32 ∧ s ≤ b.size
  distinct : w.live.Pairwise fun a b => a.1 ≠ b.1

/-- From `w` to `w'` the blocks of pointers that stay live stay and hold what they held. -/
def Kept (bs bs' : List Block) (V V' : Mem) (w w' : HeapRun) : Prop :=
  ∀ b ∈ bs, w.Live (b.addr + 32) → w'.Live (b.addr + 32) → b ∈ bs' ∧ Holds b V V'

theorem mem_forget {ptr p s : Nat} {live : List (Nat × Nat)} :
    (p, s) ∈ forget ptr live ↔ (p, s) ∈ live ∧ p ≠ ptr := by
  simp [forget]

section Held
variable {A : Space} {role role' : Nat → Role} {n n' x : Nat} {V V' : Mem} {bs bs' : List Block}
  {w : HeapRun} {m' : Machine}

/-- A live pointer is that of a block in use. -/
theorem Held.block (h : Held A role n V bs w) {p : Nat} (hp : w.Live p) :
    ∃ b ∈ bs, b.free = false ∧ p = b.addr + 32 := by
  obtain ⟨s, hs⟩ := hp
  obtain ⟨b, hb, hfree, hptr, _⟩ := h.live p s hs
  exact ⟨b, hb, hfree, hptr⟩

/-- Some of the old blocks in use stay live, possibly under other sizes. -/
theorem Held.narrow (h : Held A role n V bs w) (h' : HeapInv A role' n' V' bs' m')
    (hpres : Preserves x bs bs' V V') {live' : List (Nat × Nat)}
    (hlive : ∀ p s, (p, s) ∈ live' →
      ∃ b ∈ bs, b.free = false ∧ p = b.addr + 32 ∧ s ≤ b.size ∧ b.addr ≠ x)
    (hdistinct : live'.Pairwise fun a b => a.1 ≠ b.1) :
    Held A role' n' V' bs' ⟨m', live'⟩ ∧ Kept bs bs' V V' w ⟨m', live'⟩ := by
  refine ⟨⟨h', fun p s hp => ?_, hdistinct⟩, fun b hb _ hb' => ?_⟩
  · obtain ⟨b, hb, hfree, hptr, hs, hx⟩ := hlive p s hp
    exact ⟨b, (hpres b hb hfree hx).1, hfree, hptr, hs⟩
  · obtain ⟨s, hs⟩ := hb'
    obtain ⟨c, hc, hfree, hptr, _, hx⟩ := hlive _ s hs
    have hbc := h.eq_of_addr hb hc (by omega)
    subst hbc
    exact hpres b hb hfree hx

/-- A new block in use becomes live. -/
theorem Held.add {live' : List (Nat × Nat)} (h : Held A role n V bs w)
    (h' : Held A role' n' V' bs' ⟨m', live'⟩) (hkept : Kept bs bs' V V' w ⟨m', live'⟩) {c : Block}
    {size : Nat} (hc : c ∈ bs') (hfree : c.free = false) (hs : size ≤ c.size)
    (hfresh : ∀ d ∈ bs, d.free = false → d.addr ≠ c.addr)
    (hnew : ∀ p s, (p, s) ∈ live' → ∃ b ∈ bs, b.free = false ∧ p = b.addr + 32) :
    Held A role' n' V' bs' ⟨m', (c.addr + 32, size) :: live'⟩ ∧
      Kept bs bs' V V' w ⟨m', (c.addr + 32, size) :: live'⟩ := by
  refine ⟨⟨h'.toHeapInv, fun p s hp => ?_, List.pairwise_cons.mpr ⟨fun a ha => ?_, h'.distinct⟩⟩,
    fun b hb hlive hlive' => ?_⟩
  · rcases List.mem_cons.mp hp with heq | hp
    · cases heq
      exact ⟨c, hc, hfree, rfl, hs⟩
    · exact h'.live p s hp
  · obtain ⟨b, hb, hbfree, hptr⟩ := hnew a.1 a.2 ha
    have := hfresh b hb hbfree
    show c.addr + 32 ≠ a.1
    omega
  · obtain ⟨s, hs'⟩ := hlive'
    rcases List.mem_cons.mp hs' with heq | hs'
    · obtain ⟨d, hd, hdfree, hptr⟩ := h.block hlive
      have := hfresh d hd hdfree
      have heq : b.addr + 32 = c.addr + 32 := congrArg Prod.fst heq
      omega
    · exact hkept b hb hlive ⟨s, hs'⟩

/-- What `kmalloc` returned, when it returned. -/
theorem HeapInv.kmalloc_ok {m : Machine} (h : HeapInv A role n V bs m) {size p : Nat}
    (hlt : size ≤ maxRequest) (hk : Heap.kmalloc m size = .ok (p, m')) :
    (p = null ∧ ∃ role' n' V', HeapInv A role' n' V' bs m' ∧ Preserves null bs bs V V' ∧ (size = 0 → n' = n)) ∨
      ServedExactly A n V bs size m (.ok (p, m')) := by
  by_cases hsize : size = 0
  · rw [Heap.kmalloc, if_pos hsize] at hk
    cases hk
    exact .inl ⟨rfl, role, n, V, h, .refl _ _ _, fun _ => rfl⟩
  · by_cases hfits : SomeFits bs size
    · rw [← hk]
      exact .inr (h.kmalloc_exact hsize hlt (.inl hfits))
    · rcases framesNeeded_cases n (pagesFor size) (pmmFreeFrames m) with hle | ⟨j, hj, heq | ⟨hlo, hhi⟩⟩
      · rw [← hk]
        exact .inr (h.kmalloc_exact hsize hlt (.inr hle))
      · obtain ⟨role', V', m'', hr, h', hpres, _⟩ := h.kmalloc_refuses hsize hfits hj heq
        rw [hr] at hk
        cases hk
        exact .inl ⟨rfl, role', _, V', h', hpres, fun hzero => absurd hzero hsize⟩
      · rw [h.kmalloc_faults hsize hfits hj hlo hhi] at hk
        cases hk

theorem HeapInv.krealloc_ok {m : Machine} (h : HeapInv A role n V bs m) {b : Block} (hb : b ∈ bs)
    (hfree : b.free = false) {size p : Nat} (hne : size ≠ 0) (hlt : size ≤ maxRequest)
    (hk : Heap.krealloc m (b.addr + 32) size = .ok (p, m')) :
    (p = b.addr + 32 ∧ m' = m ∧ size ≤ b.size) ∨
    (p = null ∧ ∃ role' n' V', HeapInv A role' n' V' bs m' ∧ Preserves null bs bs V V') ∨
      Moved A n V bs b size (.ok (p, m')) := by
  by_cases hle : size ≤ b.size
  · rw [h.krealloc_eq hb hne, if_pos ((h.size_lt_iff hb hlt).mpr hle)] at hk
    cases hk
    exact .inl ⟨rfl, rfl, hle⟩
  · refine .inr ?_
    cases hmalloc : Heap.kmalloc m size with
    | error f =>
      rw [h.krealloc_eq hb hne, if_neg (by rw [h.size_lt_iff hb hlt]; exact hle), hmalloc] at hk
      cases hk
    | ok r =>
      rcases h.kmalloc_ok hlt hmalloc with ⟨hnull, role', n', V', h', hpres, _⟩ | hserve
      · rw [h.krealloc_eq hb hne, if_neg (by rw [h.size_lt_iff hb hlt]; exact hle), hmalloc, ok_bind,
          if_pos hnull] at hk
        cases hk
        exact .inl ⟨rfl, role', n', V', h', hpres⟩
      · rw [← hmalloc] at hserve
        rw [← hk]
        exact .inr (h.krealloc_moves hb hfree hne hlt (by omega) hserve)

/-- Frames taken by others change nothing in the heap. -/
theorem HeapInv.alloc {m : Machine} (h : HeapInv A role n V bs m) :
    ∃ V', HeapInv A role n V' bs (pmmAllocFrame m).2 ∧ ∀ x, Preserves x bs bs V V' := by
  rcases h.toAllocator.alloc_cases with ⟨_, hnull⟩ | ⟨f, _, hlt, hfree, _, hsome⟩
  · rw [hnull]
    exact ⟨V, h, fun x => .refl x bs V⟩
  · rw [hsome]
    have ht := h.toTables.setFrame hlt hfree
    have hdec := h.toAllocator.free_setFrame hlt hfree
    have htables := fun a ha => h.toTables.setFrame_tableBytes hlt (a := a) ha
    have hwalk := h.shape.walk_congr htables
    have hcount := h.count
    have hback : Backed A role n (setFrame m f) := by
      refine ⟨ht, h.top, h.owned, h.lowest, h.heapEnd, by omega, h.page, fun g k hg => ?_, fun v hv ho hout => ?_,
        fun q t hq hlen hqt => ?_⟩
      · obtain ⟨hk, hglt, hto⟩ := h.leads g k hg
        exact ⟨hk, hglt, fun v hv => by rw [hwalk, hto v hv]⟩
      · rw [hwalk, h.beyond v hv ho hout]
      · rw [h.shape.tableAt_congr htables hlen] at hqt
        exact h.grown q t hq hlen hqt
    have g : Growth role role m (setFrame m f) := by
      refine ⟨rfl, fun _ _ => rfl, fun a ha => h.toTables.setFrame_same hlt fun heq => ?_⟩
      rw [heq] at ha
      exact ha
    obtain ⟨V', h', hpres⟩ := h.toListed.grow hback g (Nat.le_refl n)
    exact ⟨V', ⟨h', h.settled, h.count_used⟩, hpres⟩

/-- A client's write to a byte of a block. -/
theorem HeapInv.clientWrite {m : Machine} (h : HeapInv A role n V bs m) {b : Block} (hb : b ∈ bs)
    {i : Nat} (hi : i < b.size) (v : Byte) :
    ∃ ram, writeByte m (b.addr + 32 + i) v = .ok {m with ram} ∧
      HeapInv A role n (V.set (b.addr + 32 + i) v) bs {m with ram} := by
  obtain ⟨hbase, hend, _⟩ := h.bounds hb
  obtain ⟨ram, hw, hflat⟩ := h.toFlat.writeByte (v := b.addr + 32 + i) (by omega) (by omega) v
  refine ⟨ram, hw, h.reflat hflat fun c hc a hle hlt => Mem.set_ne _ _ ?_, h.settled, h.count_used⟩
  have happart := h.laid.apart hb hc
  unfold Block.stop sizeofBlock at happart
  rcases happart with rfl | happart | happart <;> omega

end Held

/-! ### Every step keeps the invariant -/

section Step
variable {A : Space} {role : Nat → Role} {n : Nat} {V : Mem} {bs : List Block} {w : HeapRun}

/-- How the blocks, and the pointers that are live, change in a step. -/
inductive Changed (n : Nat) (bs : List Block) (w : HeapRun) (e : HeapEvent) (w' : HeapRun) :
    Nat → List Block → Prop where
  | same {n'} : n' = n ∨ e.Refused → (∀ p, w.Live p → w'.Live p) → Changed n bs w e w' n' bs
  | allocated {size c n' bs'} : Allocated n bs size c n' bs' → w'.Live (c.addr + 32) →
      (∀ p, w.Live p → w'.Live p) → Changed n bs w e w' n' bs'
  | freed {xs b ys} : bs = xs ++ b :: ys → (∀ d ∈ freed xs b ys, d.free = false → d ∈ bs ∧ d.addr ≠ b.addr) →
      (∀ p, w.Live p → p ≠ b.addr + 32 → w'.Live p) → Changed n bs w e w' n (freed xs b ys)
  | moved {size c n' xs b ys} : Allocated n bs size c n' (xs ++ b :: ys) → w'.Live (c.addr + 32) →
      (∀ d ∈ freed xs b ys, d.free = false → d ∈ xs ++ b :: ys ∧ d.addr ≠ b.addr) →
      (∀ p, w.Live p → p ≠ b.addr + 32 → w'.Live p) → Changed n bs w e w' n' (freed xs b ys)

/-- What a step makes of the invariant, what it keeps, and what it changes. -/
def StepExact (A : Space) (n : Nat) (V : Mem) (bs : List Block) (w : HeapRun) (e : HeapEvent) (w' : HeapRun) :
    Prop :=
  ∃ role' n' V' bs', Held A role' n' V' bs' w' ∧ (e.IsCall → Kept bs bs' V V' w w') ∧ Changed n bs w e w' n' bs'

/-- What a step makes of the invariant, and what it keeps. -/
def StepResult (A : Space) (V : Mem) (bs : List Block) (w : HeapRun) (e : HeapEvent) (w' : HeapRun) :
    Prop :=
  ∃ role' n' V' bs', Held A role' n' V' bs' w' ∧ (e.IsCall → Kept bs bs' V V' w w')

theorem live_forget {p q : Nat} (hq : w.Live q) (hne : q ≠ p) (m : Machine) :
    HeapRun.Live ⟨m, forget p w.live⟩ q := by
  obtain ⟨s, hs⟩ := hq
  exact ⟨s, mem_forget.mpr ⟨hs, hne⟩⟩

theorem live_cons {p size q : Nat} {live : List (Nat × Nat)} {m : Machine} (hq : HeapRun.Live ⟨m, live⟩ q) :
    HeapRun.Live ⟨m, (p, size) :: live⟩ q := by
  obtain ⟨s, hs⟩ := hq
  exact ⟨s, List.mem_cons_of_mem _ hs⟩

/-- The live blocks, with no block left out. -/
theorem Held.blocks (h : Held A role n V bs w) (p s : Nat) (hp : (p, s) ∈ w.live) :
    ∃ b ∈ bs, b.free = false ∧ p = b.addr + 32 ∧ s ≤ b.size ∧ b.addr ≠ null := by
  obtain ⟨b, hb, hfree, hptr, hs⟩ := h.live p s hp
  exact ⟨b, hb, hfree, hptr, hs, h.ne_null hb⟩

/-- The live blocks but for one. -/
theorem Held.others (h : Held A role n V bs w) {b : Block} (p s : Nat)
    (hp : (p, s) ∈ forget (b.addr + 32) w.live) :
    ∃ c ∈ bs, c.free = false ∧ p = c.addr + 32 ∧ s ≤ c.size ∧ c.addr ≠ b.addr := by
  obtain ⟨hp, hne⟩ := mem_forget.mp hp
  obtain ⟨c, hc, hfree, hptr, hs⟩ := h.live p s hp
  exact ⟨c, hc, hfree, hptr, hs, by omega⟩

theorem held_malloc (h : Held A role n V bs w) {size p : Nat} {m : Machine} (hlt : size < 2 ^ 63)
    (hk : kmalloc w.machine size = .ok (p, m)) {e : HeapEvent} (he : size ≠ 0 → p = null → e.Refused) :
    StepExact A n V bs w e ⟨m, record p size w.live⟩ := by
  rcases h.toHeapInv.kmalloc_ok (le_maxRequest hlt) hk with ⟨rfl, role', n', V', h', hpres, hzero⟩ |
    ⟨role', n', V', bs', m', c, hr, _, h', hpres, halloc, hs, hfresh⟩
  · obtain ⟨hheld, hkept⟩ := h.narrow h' hpres h.blocks h.distinct
    refine ⟨role', n', V', bs, hheld, fun _ => hkept, .same ?_ fun q hq => hq⟩
    by_cases hsize : size = 0
    · exact .inl (hzero hsize)
    · exact .inr (he hsize rfl)
  · cases hr
    obtain ⟨hc, hcfree⟩ := halloc.mem
    obtain ⟨hheld, hkept⟩ := h.narrow h' hpres h.blocks h.distinct
    obtain ⟨hheld, hkept⟩ := h.add hheld hkept hc hcfree hs hfresh fun p s hp => h.block ⟨s, hp⟩
    rw [record, if_neg (h'.ptr hc).1]
    exact ⟨role', n', V', bs', hheld, fun _ => hkept, .allocated halloc ⟨size, List.mem_cons_self⟩ fun q => live_cons⟩

/-- `kfree` of a live pointer: the list is that with its block freed. -/
theorem Held.kfree_at {xs ys : List Block} {b : Block} (h : Held A role n V (xs ++ b :: ys) w)
    (hfree : b.free = false) : ∃ V' ram usedBytes,
      Heap.kfree w.machine (b.addr + 32) = .ok {w.machine with ram, usedBytes} ∧
      Held A role n V' (freed xs b ys) ⟨{w.machine with ram, usedBytes}, forget (b.addr + 32) w.live⟩ ∧
      Kept (xs ++ b :: ys) (freed xs b ys) V V' w ⟨{w.machine with ram, usedBytes}, forget (b.addr + 32) w.live⟩ ∧
      Still (xs ++ b :: ys) (flagged V b true) V' := by
  obtain ⟨V', ram, u, hr, h', hstill⟩ := h.toHeapInv.kfree_exact hfree
  obtain ⟨hheld, hkept⟩ := h.narrow h' (h.preserves_freed hstill) h.others (h.distinct.filter _)
  exact ⟨V', ram, u, hr, hheld, hkept, hstill⟩

theorem Held.kfree (h : Held A role n V bs w) {p : Nat} (hp : w.Live p) :
    ∃ xs b ys V' ram usedBytes, bs = xs ++ b :: ys ∧ b.free = false ∧ p = b.addr + 32 ∧
      Heap.kfree w.machine p = .ok {w.machine with ram, usedBytes} ∧
      Held A role n V' (freed xs b ys) ⟨{w.machine with ram, usedBytes}, forget p w.live⟩ ∧
      Kept bs (freed xs b ys) V V' w ⟨{w.machine with ram, usedBytes}, forget p w.live⟩ ∧
      Still bs (flagged V b true) V' := by
  obtain ⟨b, hb, hfree, rfl⟩ := h.block hp
  obtain ⟨xs, ys, rfl⟩ := List.append_of_mem hb
  obtain ⟨V', ram, u, hrest⟩ := h.kfree_at hfree
  exact ⟨xs, b, ys, V', ram, u, rfl, hfree, rfl, hrest⟩

theorem held_free (h : Held A role n V bs w) {p : Nat} {m : Machine} (hp : w.Live p)
    (hk : kfree w.machine p = .ok m) {e : HeapEvent} : StepExact A n V bs w e ⟨m, forget p w.live⟩ := by
  obtain ⟨xs, b, ys, V', ram, u, rfl, _, rfl, hr, hheld, hkept, _⟩ := h.kfree hp
  rw [hr] at hk
  cases hk
  exact ⟨role, n, V', freed xs b ys, hheld, fun _ => hkept,
    .freed rfl (fun d hd => h.of_mem_freed hd) fun q hq hne => live_forget hq hne _⟩

theorem held_realloc (h : Held A role n V bs w) {ptr size p : Nat} {m : Machine} (hptr : w.Live ptr)
    (hne : size ≠ 0) (hlt : size < 2 ^ 63) (hk : krealloc w.machine ptr size = .ok (p, m))
    {e : HeapEvent} (he : p = null → e.Refused) : StepExact A n V bs w e
      ⟨m, if p = null then w.live else (p, size) :: forget ptr w.live⟩ := by
  obtain ⟨b, hb, hfree, rfl⟩ := h.block hptr
  have hothers : ∀ p s, (p, s) ∈ forget (b.addr + 32) w.live → ∃ c ∈ bs, c.free = false ∧ p = c.addr + 32 := by
    intro p s hp
    obtain ⟨c, hc, hcfree, hcptr, _⟩ := h.others p s hp
    exact ⟨c, hc, hcfree, hcptr⟩
  rcases h.toHeapInv.krealloc_ok hb hfree hne (le_maxRequest hlt) hk with ⟨rfl, rfl, hle⟩ |
    ⟨rfl, role', n', V', h', hpres⟩ |
    ⟨role', n', V', m', c, xs, ys, hr, halloc, h', hpres, hc, hcfree, hs, hfresh, hfreed, _⟩
  · rw [if_neg (h.ptr hb).1]
    have hlive : ∀ q t, (q, t) ∈ (b.addr + 32, size) :: forget (b.addr + 32) w.live →
        ∃ c ∈ bs, c.free = false ∧ q = c.addr + 32 ∧ t ≤ c.size ∧ c.addr ≠ null := by
      intro q t hq
      rcases List.mem_cons.mp hq with heq | hq
      · cases heq
        exact ⟨b, hb, hfree, rfl, hle, h.ne_null hb⟩
      · exact h.blocks q t (mem_forget.mp hq).1
    obtain ⟨hheld, hkept⟩ := h.narrow h.toHeapInv (.refl null bs V) hlive
      (List.pairwise_cons.mpr ⟨fun a ha => Ne.symm (mem_forget.mp ha).2, h.distinct.filter _⟩)
    refine ⟨role, n, V, bs, hheld, fun _ => hkept, .same (.inl rfl) fun q hq => ?_⟩
    by_cases hqp : q = b.addr + 32
    · exact ⟨size, hqp ▸ List.mem_cons_self⟩
    · exact live_cons (live_forget hq hqp _)
  · obtain ⟨hheld, hkept⟩ := h.narrow h' hpres h.blocks h.distinct
    exact ⟨role', n', V', bs, hheld, fun _ => hkept, .same (.inr (he rfl)) fun q hq => hq⟩
  · cases hr
    obtain ⟨hheld, hkept⟩ := h.narrow h' hpres h.others (h.distinct.filter _)
    obtain ⟨hheld, hkept⟩ := h.add hheld hkept hc hcfree hs hfresh hothers
    rw [if_neg (h'.ptr hc).1]
    exact ⟨role', n', V', freed xs b ys, hheld, fun _ => hkept,
      .moved halloc ⟨size, List.mem_cons_self⟩ hfreed fun q hq hqp => live_cons (live_forget hq hqp _)⟩

/-- For no bytes `krealloc` frees, and returns null. -/
theorem krealloc_zero {m m' : Machine} {ptr p : Nat} (hne : ptr ≠ null) (hk : krealloc m ptr 0 = .ok (p, m')) :
    p = null ∧ kfree m ptr = .ok m' := by
  rw [krealloc, if_neg hne, if_pos rfl] at hk
  cases hfree : kfree m ptr with
  | error f =>
    rw [hfree] at hk
    cases hk
  | ok m₁ =>
    rw [hfree] at hk
    cases hk
    exact ⟨rfl, rfl⟩

/-- **Every step keeps the invariant**, every call keeps the blocks that stay live, and the
list changes in one of four ways. -/
theorem held_step_exact (h : Held A role n V bs w) {e : HeapEvent} {w' : HeapRun} (hs : HeapStep w e w') :
    StepExact A n V bs w e w' := by
  cases hs with
  | malloc hlt hk => exact held_malloc h hlt hk fun hsize hnull => ⟨hsize, hnull⟩
  | @realloc ptr size p m hptr hlt hk =>
    unfold afterRealloc
    by_cases hnull : ptr = null
    · rw [if_pos hnull]
      rw [krealloc, if_pos hnull] at hk
      exact held_malloc h hlt hk fun hsize hp => ⟨hsize, hp⟩
    · have hlive := hptr.resolve_left hnull
      rw [if_neg hnull]
      by_cases hsize : size = 0
      · subst hsize
        rw [if_pos rfl]
        exact held_free h hlive (krealloc_zero hnull hk).2
      · rw [if_neg hsize]
        exact held_realloc h hlive hsize hlt hk fun hp => ⟨hsize, hp⟩
  | @free ptr m hptr hk =>
    by_cases hnull : ptr = null
    · rw [kfree, if_pos hnull] at hk
      cases hk
      have hsame : ∀ p s, (p, s) ∈ forget ptr w.live → ∃ b ∈ bs, b.free = false ∧ p = b.addr + 32 ∧
          s ≤ b.size ∧ b.addr ≠ null := fun p s hp => h.blocks p s (mem_forget.mp hp).1
      obtain ⟨hheld, hkept⟩ := h.narrow h.toHeapInv (.refl null bs V) hsame (h.distinct.filter _)
      refine ⟨role, n, V, bs, hheld, fun _ => hkept, .same (.inl rfl) fun q hq => live_forget hq ?_ _⟩
      obtain ⟨b, hb, _, rfl⟩ := h.block hq
      rw [hnull]
      exact (h.ptr hb).1
    · exact held_free h (hptr.resolve_left hnull) hk
  | @write ptr size i v m hptr hi hk =>
    obtain ⟨b, hb, _, rfl, hs⟩ := h.live ptr size hptr
    obtain ⟨ram, hr, h'⟩ := h.toHeapInv.clientWrite hb (Nat.lt_of_lt_of_le hi hs) v
    rw [hr] at hk
    cases hk
    exact ⟨role, n, _, bs, ⟨h', h.live, h.distinct⟩, (fun hcall => by cases hcall), .same (.inl rfl) fun q hq => hq⟩
  | take =>
    obtain ⟨V', h', _⟩ := h.toHeapInv.alloc
    exact ⟨role, n, V', bs, ⟨h', h.live, h.distinct⟩, (fun hcall => by cases hcall),
      .same (.inl rfl) fun q hq => hq⟩

theorem held_step (h : Held A role n V bs w) {e : HeapEvent} {w' : HeapRun} (hs : HeapStep w e w') :
    StepResult A V bs w e w' := by
  obtain ⟨role', n', V', bs', hheld, hkept, _⟩ := held_step_exact h hs
  exact ⟨role', n', V', bs', hheld, hkept⟩

end Step

/-! ### The start of a run -/

/-- The kernel fills the lower half of the PML4 itself. -/
def LowerOwned (A : Space) : Prop := ∀ i, i < 256 → A.owned i = true

theorem lowerOwned_of_initialized {B : Boot} {m : Machine} {A : Space} {role : Nat → Role}
    (h : Initialized B m A role) : LowerOwned A := by
  intro i hi
  rw [h.owned i (by omega), h.lower i hi]
  rfl

/-- Before `heap_init`: the heap has no page yet, and one frame is the PML4. -/
theorem HeapBoot.placed (B : HeapBoot) {m : Machine} (hm : B.pmmInit = .ok m)
    (hpos : 0 < pmmFreeFrames m) :
    ∃ A role, A.map = B.toPlacedMap ∧ LowerOwned A ∧ Backed A role 0 {vmmInit m with heapEnd := heapBase} ∧
      pmmFreeFrames m = pmmFreeFrames (vmmInit m) + 1 := by
  obtain ⟨A, role, hI, hfree⟩ := B.vmmInit_ok hm hpos
  obtain ⟨m', hm', halloc, _⟩ := B.pmmInit_ok
  rw [hm] at hm'
  cases hm'
  have htotal : pmmFreeFrames m ≤ B.totalFrames := by
    rw [halloc.free_eq, halloc.total_eq]
    exact Nat.sub_le _ _
  exact ⟨A, role, hI.map, lowerOwned_of_initialized hI, B.backed hI (by omega), hfree⟩

/-- Nothing is live yet. -/
theorem HeapInv.held {A : Space} {role : Nat → Role} {n : Nat} {V : Mem} {bs : List Block} {m : Machine}
    (h : HeapInv A role n V bs m) : Held A role n V bs ⟨m, []⟩ :=
  ⟨h, (fun _ _ hp => nomatch hp), .nil⟩

/-- A run starts when there are frames for the PML4 and the first pages. -/
theorem HeapBoot.start (B : HeapBoot) {m : Machine} (hm : B.pmmInit = .ok m)
    (hfree : framesNeeded 0 heapInitPages < pmmFreeFrames m) :
    ∃ A role V m', A.map = B.toPlacedMap ∧ (heap B).init ⟨m', []⟩ ∧
      Held A role heapInitPages V initBlocks ⟨m', []⟩ ∧
      pmmFreeFrames m = pmmFreeFrames m' + framesNeeded 0 heapInitPages + 1 := by
  have hpos : 0 < pmmFreeFrames m := by omega
  obtain ⟨A, role, hmap, _, hback, hone⟩ := B.placed hm hpos
  obtain ⟨role', V, m', hr, hinv, hrest⟩ := (heapInit_ok hback).1 (by omega)
  exact ⟨A, role', V, m', hmap, ⟨m, hm, hpos, hr, rfl⟩, hinv.held, by omega⟩

/-- The invariant holds after `heap_init`, with one free block. -/
theorem held_init (B : HeapBoot) {w : HeapRun} (h : (heap B).init w) :
    ∃ A role V, A.map = B.toPlacedMap ∧ LowerOwned A ∧ Held A role heapInitPages V initBlocks w := by
  obtain ⟨m, hm, hpos, hinit, hlive⟩ := h
  obtain ⟨A, role, hmap, hlower, hback, _⟩ := B.placed hm hpos
  obtain ⟨hok, hnot⟩ := heapInit_ok hback
  obtain ⟨m', live⟩ := w
  cases hlive
  by_cases hle : framesNeeded 0 heapInitPages ≤ pmmFreeFrames (vmmInit m)
  · obtain ⟨role', V, m₁, hr, hinv, _⟩ := hok hle
    rw [hr] at hinit
    cases hinit
    exact ⟨A, role', V, hmap, hlower, hinv.held⟩
  · exact absurd hinit (hnot (Nat.lt_of_not_le hle) _)

/-- With it holds, in every reachable state, what one free block has and every change of
the list keeps. -/
theorem changed_reachable {B : HeapBoot} {C : HeapRun → HeapEvent → Prop}
    {P : Space → Nat → List Block → HeapRun → Prop}
    (start : ∀ A w, LowerOwned A → P A heapInitPages initBlocks w)
    (preserved : ∀ {A n bs w e w' n' bs'}, C w e → Changed n bs w e w' n' bs' → P A n bs w → P A n' bs' w')
    {w : HeapRun} (h : ((heap B).restrict C).Reachable w) :
    ∃ A role n V bs, A.map = B.toPlacedMap ∧ Held A role n V bs w ∧ P A n bs w := by
  refine System.invariant (P := fun w => ∃ A role n V bs, A.map = B.toPlacedMap ∧ Held A role n V bs w ∧
    P A n bs w) (fun w hw => ?_) ?_ h
  · obtain ⟨A, role, V, hmap, hlower, hheld⟩ := held_init B hw
    exact ⟨A, role, _, V, initBlocks, hmap, hheld, start A w hlower⟩
  · rintro w e w' ⟨A, role, n, V, bs, hmap, hw, hP⟩ ⟨hC, hs⟩
    obtain ⟨role', n', V', bs', hw', _, hchanged⟩ := held_step_exact hw hs
    exact ⟨A, role', n', V', bs', hmap, hw', preserved hC hchanged hP⟩

theorem held_reachable {B : HeapBoot} {w : HeapRun} (h : (heap B).Reachable w) :
    ∃ A role n V bs, A.map = B.toPlacedMap ∧ Held A role n V bs w := by
  obtain ⟨A, role, n, V, bs, hmap, hw, _⟩ := changed_reachable (P := fun _ _ _ _ => True)
    (fun _ _ _ => trivial) (fun _ _ _ => trivial) (System.reachable_restrict h)
  exact ⟨A, role, n, V, bs, hmap, hw⟩

section Last
variable {A : Space} {role : Nat → Role} {n size : Nat} {V : Mem} {m : Machine} {b : Block} (us : List Block)

/-- A size that fits is taken from the one free block, at the end of the list. -/
theorem HeapInv.kmalloc_last (h : HeapInv A role n V (us ++ [b]) m) (hus : ∀ c ∈ us, c.free = false)
    (hb : b.free = true) (hne : size ≠ 0) (hfits : alignUp size align ≤ b.size) :
    ∃ V' ram usedBytes, kmalloc m size = .ok (b.addr + 32, {m with ram, usedBytes}) ∧
      HeapInv A role n V' (taken us b (alignUp size align) []) {m with ram, usedBytes} ∧
      Preserves null (us ++ [b]) (taken us b (alignUp size align) []) V V' := by
  have hnone : us.find? (Fits (alignUp size align)) = none := by
    refine List.find?_eq_none.mpr fun c hc => ?_
    rw [Fits, hus c hc]
    exact Bool.false_ne_true
  have hfit : Fits (alignUp size align) b = true := by
    rw [Fits, hb, decide_eq_true hfits, Bool.and_self]
  have hfind : (us ++ [b]).find? (Fits (alignUp size align)) = some b := by
    rw [List.find?_append, hnone, Option.none_or, List.find?_cons_of_pos hfit]
  obtain ⟨V', ram, usedBytes, htake, h', hpres, _⟩ := h.take hb hfits (alignUp_mod (k := 4) (by decide))
  exact ⟨V', ram, usedBytes, (h.kmalloc_found hne hfind).trans htake, h', hpres⟩

/-- Its pointer is live then. -/
theorem Held.kmalloc_last {live : List (Nat × Nat)} (h : Held A role n V (us ++ [b]) ⟨m, live⟩)
    (hus : ∀ c ∈ us, c.free = false) (hb : b.free = true) (hne : size ≠ 0) (hlt : size ≤ maxRequest)
    (hfits : alignUp size align ≤ b.size) :
    ∃ V' m', kmalloc m size = .ok (b.addr + 32, m') ∧
      Held A role n V' (taken us b (alignUp size align) []) ⟨m', record (b.addr + 32) size live⟩ ∧
      pmmFreeFrames m' = pmmFreeFrames m := by
  obtain ⟨V', ram, u, hk, h', hpres⟩ := h.toHeapInv.kmalloc_last us hus hb hne hfits
  have hc : (⟨b.addr, takenSize b (alignUp size align), false⟩ : Block) ∈ taken us b (alignUp size align) [] :=
    List.mem_append_right _ List.mem_cons_self
  have hsize : size ≤ takenSize b (alignUp size align) := Nat.le_trans (request_sizes hlt).1 (le_takenSize hfits)
  have hfresh : ∀ d ∈ us ++ [b], d.free = false → d.addr ≠ b.addr := fun d hd hdfree haddr => by
    rw [h.toListed.eq_of_addr hd (by simp) haddr, hb] at hdfree
    cases hdfree
  obtain ⟨hheld, hkept⟩ := h.narrow h' hpres h.blocks h.distinct
  obtain ⟨hheld, _⟩ := h.add hheld hkept hc rfl hsize hfresh fun p s hp => h.block ⟨s, hp⟩
  rw [record, if_neg (h'.ptr hc).1]
  exact ⟨V', _, hk, hheld, rfl⟩

end Last

/-! ### A plain heap -/

section Flat
variable {n : Nat} (hn : 0 < n ∧ n < 2 ^ 15)

/-- The heap of a plain machine: its boot tables are empty. -/
def flatHeap : HeapBoot where
  toBoot := flatBoot hn
  top := by
    rw [show (flatBoot hn).totalFrames = n + 1 from flatMap_total hn]
    unfold pageAddr heapBase pageSize
    omega
  slots := fun _ _ => present_zero fun _ _ _ => rfl

/-- What `heap_init` leaves of the `n` pages. -/
theorem flatHeap_start (hlt : 20 < n) : ∃ A role V m, A.map = (flatHeap hn).toPlacedMap ∧
    (heap (flatHeap hn)).init ⟨m, []⟩ ∧ Held A role heapInitPages V initBlocks ⟨m, []⟩ ∧
    pmmFreeFrames m = n - 21 := by
  obtain ⟨m, hm, _⟩ := (flatHeap hn).pmmInit_ok
  have hneed : framesNeeded 0 heapInitPages = 19 := by decide
  have hfree : pmmFreeFrames m = n - 1 := flatBoot_free hn hm
  obtain ⟨A, role, V, m', hmap, hinit, hheld, hrest⟩ := (flatHeap hn).start hm (by omega)
  exact ⟨A, role, V, m', hmap, hinit, hheld, by omega⟩

/-- The lists `heap_init` leaves once 100 bytes are taken, and 200 more. -/
theorem taken_first : taken [] ⟨heapBase, heapInitPages * pageSize - sizeofBlock, true⟩ (alignUp 100 align) [] =
    [⟨heapBase, 112, false⟩, ⟨heapBase + 144, 65360, true⟩] := by decide

theorem taken_second : taken [⟨heapBase, 112, false⟩] ⟨heapBase + 144, 65360, true⟩ (alignUp 200 align) [] =
    [⟨heapBase, 112, false⟩, ⟨heapBase + 144, 208, false⟩, ⟨heapBase + 384, 65120, true⟩] := by decide

theorem flatHeap_one (hlt : 20 < n) : ∃ A role V m, (heap (flatHeap hn)).Reachable ⟨m, [(heapBase + 32, 100)]⟩ ∧
    Held A role heapInitPages V [⟨heapBase, 112, false⟩, ⟨heapBase + 144, 65360, true⟩]
      ⟨m, [(heapBase + 32, 100)]⟩ := by
  obtain ⟨A, role, V, m, _, hinit, hheld, _⟩ := flatHeap_start hn hlt
  obtain ⟨V', m', hk, h', _⟩ := hheld.kmalloc_last [] (by simp) rfl (show 100 ≠ 0 by decide) (by decide) (by decide)
  have hlive : record (heapBase + 32) 100 [] = [(heapBase + 32, 100)] := by decide
  rw [taken_first, hlive] at h'
  exact ⟨A, role, V', m', hlive ▸ .step (.start hinit) (.malloc (by decide) hk), h'⟩

theorem flatHeap_two (hlt : 20 < n) : ∃ A role V m,
    (heap (flatHeap hn)).Reachable ⟨m, [(heapBase + 176, 200), (heapBase + 32, 100)]⟩ ∧
    Held A role heapInitPages V [⟨heapBase, 112, false⟩, ⟨heapBase + 144, 208, false⟩, ⟨heapBase + 384, 65120, true⟩]
      ⟨m, [(heapBase + 176, 200), (heapBase + 32, 100)]⟩ := by
  obtain ⟨A, role, V, m, hw, hheld⟩ := flatHeap_one hn hlt
  obtain ⟨V', m', hk, h', _⟩ := Held.kmalloc_last [_] hheld (by simp) rfl (show 200 ≠ 0 by decide) (by decide)
    (by decide)
  have hlive : record (heapBase + 176) 200 [(heapBase + 32, 100)] = [(heapBase + 176, 200), (heapBase + 32, 100)] := by
    decide
  rw [taken_second, hlive] at h'
  exact ⟨A, role, V', m', hlive ▸ hw.step (.malloc (by decide) hk), h'⟩

end Flat

end ArcMonark.Mm.Heap
