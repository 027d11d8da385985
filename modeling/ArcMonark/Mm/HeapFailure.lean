import ArcMonark.Mm.HeapSafety

/-! What `kmalloc` does when the frames run out.

The heap grows a page at a time, and each page takes a frame for its bytes and up
to three for its tables. Where the frames run out decides what becomes of the
request: in front of the first page it is refused and nothing changes, in front
of a later one the pages before it stay in the heap (`failed_allocation_traces`),
and between a page and its tables a null table is indexed
(`out_of_frames_reported`). -/
namespace ArcMonark.Mm.Heap
open Library Pmm Vmm Virtual

/-- The pages of the heap. -/
def heapPages (m : Machine) : Nat := (m.heapEnd - heapBase) / pageSize

/-- No free block of the list can take the request. -/
def NoFit (m : Machine) (size : Nat) : Prop :=
  ∀ hs, headers m = .ok hs → ∀ b ∈ hs, b.free = true → b.size < alignUp size align

/-- The free frames are just enough for some, but not all, of the pages that the
request asks for. -/
def StopsHalfway (m : Machine) (size : Nat) : Prop :=
  size ≠ 0 ∧ NoFit m size ∧ ∃ j, 0 < j ∧ j < pagesFor size ∧
    pmmFreeFrames m = framesNeeded (heapPages m) j

/-- The free frames are enough for the bytes of some page that the request asks
for, but not for its tables. -/
def StopsInTables (m : Machine) (size : Nat) : Prop :=
  size ≠ 0 ∧ NoFit m size ∧ ∃ j, j < pagesFor size ∧
    framesNeeded (heapPages m) j < pmmFreeFrames m ∧
    pmmFreeFrames m < framesNeeded (heapPages m) (j + 1)

/-! ### Counting frames -/

/-- The last page's share. -/
theorem framesNeeded_succ (n j : Nat) :
    framesNeeded n (j + 1) = framesNeeded n j + (1 + tableCost (pageAddr (n + j))) := by
  induction j generalizing n with
  | zero => exact Nat.add_comm _ _
  | succ j ih =>
    rw [framesNeeded, ih (n + 1), framesNeeded, show n + 1 + j = n + (j + 1) by omega]
    omega

/-- Pages that no table's reach begins with take one frame each. -/
theorem framesNeeded_plain {n j : Nat} (hn : 0 < n) (hj : n + j ≤ 512) : framesNeeded n j = j := by
  induction j with
  | zero => rfl
  | succ j ih =>
    have hinside : pageAddr (n + j) % 2 ^ 21 ≠ 0 := by
      unfold pageAddr heapBase pageSize
      omega
    rw [framesNeeded_succ, ih (by omega), tableCost, if_neg (by omega), if_neg (by omega),
      if_neg hinside]

/-! ### The conditions, on the blocks -/

section Conditions
variable {A : Space} {role : Nat → Role} {n : Nat} {V : Mem} {bs : List Block} {m : Machine}

theorem HeapInv.noFit_iff (h : HeapInv A role n V bs m) (size : Nat) :
    NoFit m size ↔ ¬ SomeFits bs size := by
  rw [someFits_iff]
  constructor
  · rintro hno ⟨b, hb, hbfree, hbsize⟩
    obtain ⟨c, hc, _, hsize, hfree⟩ := exists_header hb null null
    have := hno _ h.headers c hc (by rw [hfree, hbfree])
    omega
  · intro hno hs hhs b hb hfree
    rw [h.headers] at hhs
    cases hhs
    exact Nat.lt_of_not_le fun hle => hno ⟨_, mem_headersOf hb, hfree, hle⟩

theorem HeapInv.heapPages (h : HeapInv A role n V bs m) : heapPages m = n := by
  rw [Heap.heapPages, h.heapEnd]
  unfold pageAddr pageSize
  omega

/-- **`kmalloc` serves** a request exactly when it fits a free block, or the free frames
suffice for its pages. -/
theorem HeapInv.kmalloc_serves_iff (h : HeapInv A role n V bs m) {size : Nat} (hne : size ≠ 0) (hlt : size < 2 ^ 63) :
    (∃ p m', kmalloc m size = .ok (p, m') ∧ p ≠ null) ↔
      SomeFits bs size ∨ framesNeeded n (pagesFor size) ≤ pmmFreeFrames m := by
  constructor
  · rintro ⟨p, m', hk, hp⟩
    by_contra hno
    obtain ⟨hfits, hframes⟩ := not_or.mp hno
    rcases framesNeeded_cases n (pagesFor size) (pmmFreeFrames m) with hle | ⟨j, hj, heq | ⟨hlo, hhi⟩⟩
    · exact hframes hle
    · obtain ⟨_, _, _, hk', _⟩ := h.kmalloc_refuses hne hfits hj heq
      rw [hk'] at hk
      cases hk
      exact hp rfl
    · rw [h.kmalloc_faults hne hfits hj hlo hhi] at hk
      cases hk
  · intro hcase
    obtain ⟨_, _, _, _, m', c, hk, _, h', _, hc, _⟩ := h.kmalloc_serves hne hlt hcase
    exact ⟨_, m', hk, (h'.ptr hc).1⟩

end Conditions

/-! ### Failed requests -/

/-- A failed request left everything as it was: `m` before, `m'` after. -/
structure NoTrace (m m' : Machine) : Prop where
  list : headers m' = headers m
  heapEnd : m'.heapEnd = m.heapEnd
  used : heapUsedBytes m' = heapUsedBytes m
  frames : pmmUsedFrames m' = pmmUsedFrames m
  serves : ∀ size p m₁, kmalloc m size = .ok (p, m₁) → p ≠ null →
    ∃ p' m₂, kmalloc m' size = .ok (p', m₂) ∧ p' ≠ null

theorem NoTrace.refl (m : Machine) : NoTrace m m :=
  ⟨rfl, rfl, rfl, rfl, fun _ p m₁ hk hne => ⟨p, m₁, hk, hne⟩⟩

section Failed
variable {A : Space} {role : Nat → Role} {n : Nat} {V : Mem} {bs : List Block} {m : Machine}

/-- Only a request that stops halfway leaves a trace. -/
theorem HeapInv.noTrace (h : HeapInv A role n V bs m) {size : Nat} (hno : ¬ StopsHalfway m size)
    {m' : Machine} (hk : kmalloc m size = .ok (null, m')) : NoTrace m m' := by
  by_cases hsize : size = 0
  · rw [kmalloc, if_pos hsize] at hk
    cases hk
    exact .refl m
  · obtain ⟨hfits, j, hj, heq⟩ := h.kmalloc_null hsize hk
    have hzero : j = 0 := by
      by_contra hne
      refine hno ⟨hsize, (h.noFit_iff size).mpr hfits, j, Nat.pos_of_ne_zero hne, hj, ?_⟩
      rw [h.heapPages, heq]
    obtain ⟨_, _, m'', hk', _, _, _, hsame⟩ := h.kmalloc_refuses hsize hfits hj heq
    rw [hk'] at hk
    cases hk
    rw [hsame hzero]
    exact .refl m

/-- A request that stops halfway leaves the heap longer than it was. -/
theorem HeapInv.trace (h : HeapInv A role n V bs m) {size : Nat} (hstop : StopsHalfway m size) :
    ∃ m', kmalloc m size = .ok (null, m') ∧ m.heapEnd < m'.heapEnd := by
  obtain ⟨hsize, hfits, j, hpos, hj, heq⟩ := hstop
  rw [h.noFit_iff] at hfits
  rw [h.heapPages] at heq
  obtain ⟨_, _, m', hk, h', _⟩ := h.kmalloc_refuses hsize hfits hj heq
  refine ⟨m', hk, ?_⟩
  rw [h.heapEnd, h'.heapEnd]
  unfold pageAddr pageSize
  omega

end Failed

/-- **A failed request leaves no trace** exactly when it did not stop halfway: the
block list, the heap's end, the count of used bytes and that of used frames are
what they were, and what would have been served still is. -/
theorem failed_allocation_traces (B : HeapBoot) {w : HeapRun} (h : (heap B).Reachable w) :
    (∀ size, (∀ m', kmalloc w.machine size = .ok (null, m') → NoTrace w.machine m') ↔
      ¬ StopsHalfway w.machine size) ∧
    (∀ ptr size k, w.Live ptr → payload w.machine ptr = .ok k → size ≠ 0 →
      ((∀ m', krealloc w.machine ptr size = .ok (null, m') → NoTrace w.machine m') ↔
        ¬ (k < alignUp size align ∧ StopsHalfway w.machine size))) := by
  obtain ⟨A, role, n, V, bs, _, hw⟩ := held_reachable h
  refine ⟨fun size => ⟨fun hall hstop => ?_, fun hno m' hk => hw.toHeapInv.noTrace hno hk⟩,
    fun ptr size k hptr hpay hsize => ?_⟩
  · obtain ⟨m', hk, hlt⟩ := hw.toHeapInv.trace hstop
    have := (hall m' hk).heapEnd
    omega
  · obtain ⟨b, hb, _, rfl, hpay', _⟩ := hw.payload hptr
    rw [hpay] at hpay'
    cases hpay'
    constructor
    · rintro hall ⟨hbig, hstop⟩
      obtain ⟨m', hk, hlt⟩ := hw.toHeapInv.trace hstop
      have := (hall m' ((hw.toHeapInv.krealloc_null hb hsize).mpr ⟨by omega, hk⟩)).heapEnd
      omega
    · intro hno m' hk
      obtain ⟨hbig, hk⟩ := (hw.toHeapInv.krealloc_null hb hsize).mp hk
      exact hw.toHeapInv.noTrace (fun hstop => hno ⟨by omega, hstop⟩) hk

/-- With 22 pages one frame is free after `heap_init`. A request for 64 KiB, which
takes 17 pages, is refused, and the frame is gone. -/
theorem flatHeap_refuses : ∃ (w : HeapRun) (m' : Machine),
    (heap (flatHeap (n := 22) (by decide))).Reachable w ∧
    kmalloc w.machine 65536 = .ok (null, m') ∧ pmmFreeFrames w.machine = 1 ∧
    m'.heapEnd = w.machine.heapEnd + pageSize ∧ pmmFreeFrames m' = 0 := by
  obtain ⟨A, role, V, m, _, hinit, hheld, hfree⟩ := flatHeap_start (n := 22) (by decide) (by decide)
  have hone : framesNeeded heapInitPages 1 = 1 := framesNeeded_plain (by decide) (by decide)
  obtain ⟨_, _, m', hk, h', _, hfree', _⟩ := hheld.kmalloc_refuses (j := 1)
    (show 65536 ≠ 0 by decide) (by unfold SomeFits; decide) (by decide) (by rw [hone]; exact hfree)
  refine ⟨⟨m, []⟩, m', .start hinit, hk, hfree, ?_, hfree'⟩
  show m'.heapEnd = m.heapEnd + pageSize
  rw [h'.heapEnd, hheld.heapEnd, pageAddr_succ]

theorem failed_allocation_leaves_trace : ∃ (w : HeapRun) (m' : Machine),
    (heap (flatHeap (n := 22) (by decide))).Reachable w ∧
    kmalloc w.machine 65536 = .ok (null, m') ∧ ¬ NoTrace w.machine m' := by
  obtain ⟨w, m', hw, hk, _, hend, _⟩ := flatHeap_refuses
  refine ⟨w, m', hw, hk, fun htrace => ?_⟩
  rw [htrace.heapEnd] at hend
  unfold pageSize at hend
  omega

theorem failed_allocation_traces_flatHeap : ∃ w : HeapRun,
    (heap (flatHeap (n := 22) (by decide))).Reachable w ∧ StopsHalfway w.machine 65536 := by
  obtain ⟨w, m', hw, hk, _, hend, _⟩ := flatHeap_refuses
  refine ⟨w, hw, Classical.byContradiction fun hno => ?_⟩
  have hsame := (((failed_allocation_traces _ hw).1 65536).mpr hno m' hk).heapEnd
  rw [hsame] at hend
  unfold pageSize at hend
  omega

/-! ### Null tables -/

/-- `kmalloc` returned, with null or with a pointer to mapped pages. -/
def Reported (m : Machine) (size : Nat) : Prop :=
  ∃ p m', kmalloc m size = .ok (p, m') ∧ (p = null ∨
    heapBase ≤ p ∧ p + size ≤ m'.heapEnd ∧ ∀ v, heapBase ≤ v → v < m'.heapEnd →
      ∃ t, walk m'.ram m'.cr3 v = some t ∧ t.write = true)

section Tables
variable {A : Space} {role : Nat → Role} {n : Nat} {V : Mem} {bs : List Block} {m : Machine}

/-- Every page of the heap is mapped, and writable. -/
theorem HeapInv.mapped (h : HeapInv A role n V bs m) {v : Nat} (hle : heapBase ≤ v) (hlt : v < m.heapEnd) :
    ∃ t, walk m.ram m.cr3 v = some t ∧ t.write = true := by
  rw [h.heapEnd] at hlt
  obtain ⟨f, k, _, _, hwalk⟩ := h.walk_heap hle hlt
  exact ⟨_, hwalk, rfl⟩

theorem reported_of_served {size : Nat} (h : Served A n V bs size m (kmalloc m size)) : Reported m size := by
  obtain ⟨_, _, _, _, m', c, hr, _, h', _, hc, _, hsize, _⟩ := h
  obtain ⟨hbase, hend, _⟩ := h'.bounds hc
  refine ⟨_, m', hr, .inr ⟨by omega, ?_, fun v hle hlt => h'.mapped hle hlt⟩⟩
  rw [h'.heapEnd]
  omega

end Tables

/-- **Running out of frames is reported** exactly when they do not run out between
a page and its tables; there `kmalloc` indexes a null table. -/
theorem out_of_frames_reported (B : HeapBoot) {w : HeapRun} (h : (heap B).Reachable w) {size : Nat}
    (hlt : size < 2 ^ 63) :
    (Reported w.machine size ↔ ¬ StopsInTables w.machine size) ∧
    (kmalloc w.machine size = .error .nullTable ↔ StopsInTables w.machine size) := by
  obtain ⟨A, role, n, V, bs, _, hw⟩ := held_reachable h
  have hfault : StopsInTables w.machine size → kmalloc w.machine size = .error .nullTable := by
    rintro ⟨hsize, hfits, j, hj, hlo, hhi⟩
    rw [hw.toHeapInv.heapPages] at hlo hhi
    exact hw.toHeapInv.kmalloc_faults hsize ((hw.toHeapInv.noFit_iff size).mp hfits) hj hlo hhi
  have hreport : ¬ StopsInTables w.machine size → Reported w.machine size := by
    intro hno
    by_cases hsize : size = 0
    · exact ⟨null, w.machine, by rw [kmalloc, if_pos hsize], .inl rfl⟩
    · by_cases hfits : SomeFits bs size
      · exact reported_of_served (hw.toHeapInv.kmalloc_serves hsize hlt (.inl hfits))
      · rcases framesNeeded_cases n (pagesFor size) (pmmFreeFrames w.machine) with
          hle | ⟨j, hj, heq | ⟨hlo, hhi⟩⟩
        · exact reported_of_served (hw.toHeapInv.kmalloc_serves hsize hlt (.inr hle))
        · obtain ⟨_, _, m', hk, _⟩ := hw.toHeapInv.kmalloc_refuses hsize hfits hj heq
          exact ⟨null, m', hk, .inl rfl⟩
        · refine absurd ⟨hsize, (hw.toHeapInv.noFit_iff size).mpr hfits, j, hj, ?_⟩ hno
          rw [hw.toHeapInv.heapPages]
          exact ⟨hlo, hhi⟩
  refine ⟨⟨?_, hreport⟩, ⟨fun hk => ?_, hfault⟩⟩
  · rintro ⟨p, m', hk, _⟩ hstop
    rw [hfault hstop] at hk
    cases hk
  · by_contra hno
    obtain ⟨p, m', hk', _⟩ := hreport hno
    rw [hk] at hk'
    cases hk'

/-- With 518 pages 497 frames are free after `heap_init`. A request of 497 pages
takes 498, as the last of them is the first behind a 2 MiB boundary. -/
theorem flatHeap_faults : ∃ w : HeapRun, (heap (flatHeap (n := 518) (by decide))).Reachable w ∧
    pmmFreeFrames w.machine = 497 ∧ kmalloc w.machine 2035680 = .error .nullTable := by
  obtain ⟨A, role, V, m, _, hinit, hheld, hfree⟩ := flatHeap_start (n := 518) (by decide) (by decide)
  have hlo : framesNeeded heapInitPages 496 = 496 := framesNeeded_plain (by decide) (by decide)
  have hhi : framesNeeded heapInitPages 497 = 498 := by
    rw [framesNeeded_succ, hlo]
    decide
  exact ⟨⟨m, []⟩, .start hinit, hfree, hheld.kmalloc_faults (j := 496) (by decide)
    (by unfold SomeFits; decide) (by decide) (by rw [hlo, hfree]; decide) (by rw [hhi, hfree]; decide)⟩

theorem out_of_frames_faults : ∃ w : HeapRun,
    (heap (flatHeap (n := 518) (by decide))).Reachable w ∧
    kmalloc w.machine 2035680 = .error .nullTable ∧ ¬ Reported w.machine 2035680 := by
  obtain ⟨w, hw, _, hk⟩ := flatHeap_faults
  refine ⟨w, hw, hk, ?_⟩
  rintro ⟨p, m', hk', _⟩
  rw [hk] at hk'
  cases hk'

theorem out_of_frames_reported_flatHeap : ∃ w : HeapRun,
    (heap (flatHeap (n := 518) (by decide))).Reachable w ∧ StopsInTables w.machine 2035680 := by
  obtain ⟨w, hw, _, hk⟩ := flatHeap_faults
  exact ⟨w, hw, (out_of_frames_reported _ hw (by decide)).2.mp hk⟩

end ArcMonark.Mm.Heap
