import ArcMonark.Mm.HeapRealloc

/-! Sizes near the top of the address space.

`kmalloc` and `krealloc` round the size up, and `extend_heap` adds a header and rounds to
pages, all modulo 2^64. Up to 2^64 - 4128 nothing wraps. Above that the number of pages is
zero, so that a header is written behind the heap's end; for the last 16 sizes below
2^64 - 16 the header's 32 bytes wrap to one page, and `split_block` faults; and above
2^64 - 16 the size itself wraps to zero, which every block can serve
(`sizes_wrap_iff`). -/
namespace ArcMonark.Mm.Heap
open Library Pmm Vmm Virtual

/-- A machine whose heap keeps its invariant, in a space whose lower half the kernel fills. -/
def Intact (m : Machine) : Prop := ∃ A role n V bs, LowerOwned A ∧ HeapInv A role n V bs m

/-- What is returned, if it is not null, has room for `size` bytes. -/
def Roomy (size : Nat) (r : Except Fault (Nat × Machine)) : Prop :=
  ∀ p m, r = .ok (p, m) → p ≠ null → ∃ k, payload m p = .ok k ∧ size ≤ k

/-- `extend_heap(min_size)` puts its header, at the old end of the heap, below the end that
`grow_pages` leaves. -/
def HeaderInside (m : Machine) (minSize : Nat) : Prop :=
  ∀ m', growPages m (alignUp (add64 minSize sizeofBlock) pageSize / pageSize) = .ok (true, m') →
    m.heapEnd < m'.heapEnd

/-- No size wraps on the way to a result. -/
structure NeverWraps (m : Machine) (size : Nat) : Prop where
  malloc : Roomy size (kmalloc m size)
  realloc : ∀ ptr, InUse m ptr → Roomy size (krealloc m ptr size)
  header : HeaderInside m (alignUp size align)

theorem intact_reachable {B : HeapBoot} {w : HeapRun} (h : (heap B).Reachable w) : Intact w.machine := by
  obtain ⟨A, role, n, V, bs, _, hw, hlower⟩ := changed_reachable (P := fun A _ _ _ => LowerOwned A)
    (fun _ _ hlower => hlower) (fun _ _ hlower => hlower) (System.reachable_restrict h)
  exact ⟨A, role, n, V, bs, hlower, hw.toHeapInv⟩

/-! ### The rounded sizes -/

/-- Up to 2^64 - 32 the size can be rounded, but not with a header to pages. -/
theorem pagesFor_wraps {size : Nat} (hlo : maxRequest < size) (hhi : size ≤ 2 ^ 64 - 32) : pagesFor size = 0 := by
  unfold maxRequest at hlo
  have hle : size ≤ alignUp size align := le_alignUp (k := 4) (by decide) (by omega)
  have hup : alignUp size align < size + 16 := alignUp_lt (k := 4) (by decide) (by omega)
  have hmod : alignUp size align % 16 = 0 := alignUp_mod (k := 4) (by decide)
  have hzero : alignUp (add64 (alignUp size align) sizeofBlock) pageSize = 0 := by
    by_cases htop : alignUp size align = 2 ^ 64 - 32
    · rw [htop]
      decide
    · have hsum : add64 (alignUp size align) sizeofBlock = alignUp size align + 32 :=
        add64_eq (by unfold sizeofBlock; omega)
      rw [hsum]
      exact alignUp_wraps (k := 12) (by decide) (by omega) (by omega)
  rw [pagesFor, hzero]
  rfl

/-- The next 16 sizes are all rounded to 2^64 - 16, and one page is asked for. -/
theorem rounded_top {size : Nat} (hlo : 2 ^ 64 - 32 < size) (hhi : size ≤ 2 ^ 64 - 16) :
    alignUp size align = 2 ^ 64 - 16 ∧ pagesFor size = 1 := by
  have hle : size ≤ alignUp size align := le_alignUp (k := 4) (by decide) (by omega)
  have hlt : alignUp size align < 2 ^ 64 := and_bits_lt (show 4 ≤ 64 by decide) _
  have hmod : alignUp size align % 16 = 0 := alignUp_mod (k := 4) (by decide)
  have hround : alignUp size align = 2 ^ 64 - 16 := by omega
  refine ⟨hround, ?_⟩
  rw [pagesFor, hround]
  decide

/-- The last 15 wrap to zero. -/
theorem rounded_zero {size : Nat} (hlo : 2 ^ 64 - 16 < size) (hlt : size < 2 ^ 64) : alignUp size align = 0 :=
  alignUp_wraps (k := 4) (by decide) hlt (by omega)

section Sizes
variable {A : Space} {role : Nat → Role} {n size : Nat} {V : Mem} {m : Machine} {b : Block} {bs xs ys : List Block}

/-- No block is nearly as large as the address space. -/
theorem Listed.size_lt (h : Listed A role n V bs m) (hb : b ∈ bs) : b.size < 3 * 2 ^ 45 := by
  obtain ⟨hbase, hend, htop⟩ := h.bounds hb
  unfold heapBase at hbase
  omega

/-! ### Sizes that do not wrap -/

/-- When any page is asked for, the old end of the heap is below the new one. -/
theorem Backed.header_inside (h : Backed A role n m) {pages : Nat} (hpos : 0 < pages) {m' : Machine}
    (hgrow : Heap.growPages m pages = .ok (true, m')) : m.heapEnd < m'.heapEnd := by
  obtain ⟨hok, hfalse, hfault⟩ := h.growPages pages
  rcases framesNeeded_cases n pages (pmmFreeFrames m) with hle | ⟨j, hj, heq | ⟨hlo, hhi⟩⟩
  · obtain ⟨role', m'', hr, h', _⟩ := hok hle
    rw [hr] at hgrow
    cases hgrow
    rw [h.heapEnd, h'.heapEnd]
    unfold pageAddr pageSize
    omega
  · obtain ⟨_, _, hr, _⟩ := hfalse j hj heq
    rw [hr] at hgrow
    cases hgrow
  · rw [hfault j hj hlo hhi] at hgrow
    cases hgrow

theorem HeapInv.neverWraps (h : HeapInv A role n V bs m) (hlt : size ≤ maxRequest) : NeverWraps m size := by
  refine ⟨fun p m' hk hne => ?_, fun ptr hptr p m' hk hne => ?_, fun m' hgrow => ?_⟩
  · rcases h.kmalloc_ok hlt hk with ⟨hnull, _⟩ | ⟨_, _, _, _, m'', c, hr, _, h', _, halloc, hsize, _⟩
    · exact absurd hnull hne
    · cases hr
      exact ⟨c.size, h'.payload halloc.mem.1, hsize⟩
  · obtain ⟨b, hb, hfree, rfl⟩ := (h.inUse_iff ptr).mp hptr
    by_cases hzero : size = 0
    · subst hzero
      exact absurd (krealloc_zero (h.ptr hb).1 hk).1 hne
    · rcases h.krealloc_ok hb hfree hzero hlt hk with ⟨rfl, rfl, hle⟩ | ⟨hnull, _⟩ |
        ⟨_, _, _, m'', c, _, _, hr, _, h', _, hc, _, hsize, _⟩
      · exact ⟨b.size, h.payload hb, hle⟩
      · exact absurd hnull hne
      · cases hr
        exact ⟨c.size, h'.payload hc, hsize⟩
  · have hneed := (request_sizes hlt).2.2.1
    have hpos : 0 < pagesFor size := by
      unfold pageSize at hneed
      omega
    exact h.toBacked.header_inside hpos hgrow

/-! ### Sizes for which no page is asked -/

theorem not_headerInside (hzero : pagesFor size = 0) : ¬ HeaderInside m (alignUp size align) := by
  intro hinside
  refine Nat.lt_irrefl _ (hinside m ?_)
  rw [← pagesFor, hzero]
  rfl

/-! ### Sizes for which a block is split in its own header -/

/-- A lower address leads nowhere. -/
theorem Backed.walk_lower (h : Backed A role n m) (hlower : LowerOwned A) {v : Nat} (hv : v < 2 ^ 47) :
    walk m.ram m.cr3 v = none := by
  have hslot : levelIndex 3 v < 256 := by
    rw [levelIndex_eq]
    simp only [Nat.reduceMul, Nat.reduceAdd]
    omega
  rw [h.cr3]
  refine h.beyond v (.inl hv) (hlower _ hslot) fun k _ hin => ?_
  rw [inPage_iff] at hin
  have hbase : heapBase ≤ pageAddr k := pageAddr_mono (Nat.zero_le k)
  unfold heapBase at hbase
  omega

/-- `split_block` for 2^64 - 16 bytes: what is left is larger than the block, and the new
header lies in the old one, whose link to the next block it overwrites with that size. -/
theorem Listed.splitBlock_wraps (h : Listed A role n V bs m) (hlower : LowerOwned A) (hb : b ∈ bs)
    (hroom : 48 ≤ b.size) (hsize : size = 2 ^ 64 - 16) :
    splitBlock m b.addr size = .error (.pageFault (b.size + 15)) := by
  obtain ⟨hbase, hend, htop⟩ := h.bounds hb
  have hsmall := h.size_lt hb
  obtain ⟨xs, ys, rfl⟩ := List.append_of_mem hb
  have hin := h.inHeap hb
  have hget : getSize m b.addr = .ok b.size := by
    rw [h.toFlat.getSize hin, (linked_split.mp h.linked).2.1.size]
  have hremaining : sub64 b.size size = b.size + 16 := by
    unfold sub64
    omega
  have hnot : ¬ b.size + 16 < sizeofBlock + align := by
    unfold sizeofBlock align
    omega
  have hnb : add64 (add64 b.addr sizeofBlock) size = b.addr + 16 := by
    unfold add64 sizeofBlock
    omega
  have hnbsize : sub64 (b.size + 16) sizeofBlock = b.size - 16 := by
    unfold sub64 sizeofBlock
    omega
  have hnbin : InHeap n (b.addr + 16) := ⟨by omega, by unfold sizeofBlock; omega⟩
  have hword : b.size - 16 < 2 ^ 64 := by omega
  obtain ⟨ram₁, hw₁, f₁⟩ := h.toFlat.setSize hnbin (b.size - 16)
  obtain ⟨ram₂, hw₂, f₂⟩ := f₁.setFree hnbin true
  -- the size is read back as the link
  have hnext : getNext {m with ram := ram₂} b.addr = .ok (b.size - 16) := by
    rw [f₂.getNext hin, Mem.load64_set_apart _ _ (by omega), Mem.load64_store64_same _ _ hword]
  obtain ⟨ram₃, hw₃, f₃⟩ := f₂.setNext hnbin (b.size - 16)
  obtain ⟨ram₄, hw₄, f₄⟩ := f₃.setPrev hnbin b.addr
  have hnext' : getNext {m with ram := ram₄} (b.addr + 16) = .ok (b.size - 16) := by
    rw [f₄.getNext hnbin, Mem.load64_store64_apart _ _ (by omega), Mem.load64_store64_same _ _ hword]
  have hlink : linkBack {m with ram := ram₄} (b.size - 16) (b.addr + 16) = .error (.pageFault (b.size + 15)) := by
    have hne : b.size - 16 ≠ null := by
      unfold null
      omega
    have hsum : add64 (b.size - 16) 24 = b.size + 8 := by
      rw [add64_eq (by omega)]
      omega
    have hfault := writeBytes_unmapped (m := {m with ram := ram₄}) (v := b.size + 8) (k := 7) (by omega)
      (f₄.toBacked.walk_lower hlower (by omega)) (b.addr + 16)
    have hlast : b.size + 8 + 7 = b.size + 15 := by omega
    rw [linkBack, if_pos hne, setPrev, hsum, ← hlast]
    exact hfault
  unfold splitBlock
  simp only [hget, ok_bind, hremaining, if_neg hnot, hnb, hnbsize, hw₁, hw₂, hnext, hw₃, hw₄, hnext', hlink,
    error_bind]

/-- So `kmalloc` returns null at most. -/
theorem HeapInv.kmalloc_top (h : HeapInv A role n V bs m) (hlower : LowerOwned A) (hlo : 2 ^ 64 - 32 < size)
    (hhi : size ≤ 2 ^ 64 - 16) {p : Nat} {m' : Machine} (hk : kmalloc m size = .ok (p, m')) : p = null := by
  obtain ⟨hround, hpages⟩ := rounded_top hlo hhi
  have hfits : ¬ SomeFits bs size := by
    intro hfits
    obtain ⟨xs, b, ys, rfl, _, hsize, _⟩ := h.kmalloc_fits (by omega) hfits
    have := h.size_lt (b := b) (by simp)
    omega
  rw [h.kmalloc_extends (by omega) hfits] at hk
  obtain ⟨hok, hfalse, hfault⟩ := h.extend (show 0 < pagesFor size by omega)
  rcases framesNeeded_cases n (pagesFor size) (pmmFreeFrames m) with hle | ⟨j, hj, heq | ⟨hlt, hgt⟩⟩
  · obtain ⟨_, _, m₁, zs, b, hext, h₁, hbfree, hbsize, _⟩ := hok hle
    have hb : b ∈ zs ++ [b] := by simp
    have hroom : 48 ≤ b.size := by
      rw [hpages] at hbsize
      unfold pageSize at hbsize
      omega
    rw [hext, ok_bind, if_neg (h₁.ne_null hb), takeBlock,
      h₁.toListed.splitBlock_wraps hlower hb hroom hround, error_bind] at hk
    cases hk
  · obtain ⟨_, _, m₁, hext, _⟩ := hfalse j hj heq
    rw [hext, ok_bind, if_pos rfl] at hk
    cases hk
    rfl
  · rw [hfault j hj hlt hgt, error_bind] at hk
    cases hk

theorem HeapInv.neverWraps_top (h : HeapInv A role n V bs m) (hlower : LowerOwned A) (hlo : 2 ^ 64 - 32 < size)
    (hhi : size ≤ 2 ^ 64 - 16) : NeverWraps m size := by
  obtain ⟨hround, hpages⟩ := rounded_top hlo hhi
  refine ⟨fun p m' hk hne => absurd (h.kmalloc_top hlower hlo hhi hk) hne, fun ptr hptr p m' hk hne => ?_,
    fun m' hgrow => h.toBacked.header_inside (show 0 < pagesFor size by omega) hgrow⟩
  obtain ⟨b, hb, _, rfl⟩ := (h.inUse_iff ptr).mp hptr
  have hsmall := h.size_lt hb
  rw [h.krealloc_eq hb (by omega), if_neg (by omega)] at hk
  cases hmalloc : kmalloc m size with
  | error f =>
    rw [hmalloc] at hk
    cases hk
  | ok r =>
    rw [hmalloc, ok_bind, if_pos (h.kmalloc_top hlower hlo hhi hmalloc)] at hk
    cases hk
    exact absurd rfl hne

/-! ### Sizes that wrap to zero -/

/-- A free block is taken for no bytes, or else `krealloc` finds any block large enough. -/
theorem HeapInv.wraps (h : HeapInv A role n V bs m) (hlo : 2 ^ 64 - 16 < size) (hlt : size < 2 ^ 64) :
    ¬ NeverWraps m size := by
  intro hno
  have hround := rounded_zero hlo hlt
  by_cases hfree : ∃ b ∈ bs, b.free = true
  · have hfits : SomeFits bs size := by
      obtain ⟨b, hb, hbfree⟩ := hfree
      exact someFits_iff.mpr ⟨b, hb, hbfree, by rw [hround]; exact Nat.zero_le _⟩
    obtain ⟨xs, b, ys, rfl, hbfree, hbsize, hrun, _⟩ := h.kmalloc_fits (by omega) hfits
    rw [hround] at hbsize hrun
    obtain ⟨_, ram, u, htake, h', _⟩ := h.take hbfree hbsize (by decide)
    have hmem := h'.around.1
    obtain ⟨k, hpay, hle⟩ := hno.malloc _ _ (hrun.trans htake) (h'.ptr hmem).1
    have hpay' := h'.payload hmem
    dsimp only at hpay'
    rw [hpay'] at hpay
    cases hpay
    have := takenSize_le (h.sized b h.around.1).2 (show 0 % align = 0 by decide)
    unfold sizeofBlock at this
    omega
  · obtain ⟨xs, b, rfl⟩ := h.exists_last
    have hb : b ∈ xs ++ [b] := by simp
    have hbfree : b.free = false := Bool.eq_false_iff.mpr fun hbfree => hfree ⟨b, hb, hbfree⟩
    have hk : krealloc m (b.addr + 32) size = .ok (b.addr + 32, m) := by
      rw [h.krealloc_eq hb (by omega), hround, if_pos (Nat.zero_le _)]
    obtain ⟨k, hpay, hle⟩ := hno.realloc _ ((h.inUse_iff _).mpr ⟨b, hb, hbfree, rfl⟩) _ _ hk (h.ptr hb).1
    rw [h.payload hb] at hpay
    cases hpay
    have := h.size_lt hb
    omega

end Sizes

/-- **Sizes wrap** exactly above 2^64 - 4128, but for the 16 sizes for which `split_block`
faults before anything is returned. -/
theorem sizes_wrap_iff {m : Machine} (h : Intact m) {size : Nat} (hlt : size < 2 ^ 64) :
    NeverWraps m size ↔ size ≤ 2 ^ 64 - 4128 ∨ 2 ^ 64 - 32 < size ∧ size ≤ 2 ^ 64 - 16 := by
  obtain ⟨A, role, n, V, bs, hlower, h⟩ := h
  constructor
  · intro hno
    by_contra hwraps
    by_cases htop : 2 ^ 64 - 16 < size
    · exact h.wraps htop hlt hno
    · exact not_headerInside (pagesFor_wraps (by unfold maxRequest; omega) (by omega)) hno.header
  · rintro (hle | ⟨hlo, hhi⟩)
    · exact h.neverWraps hle
    · exact h.neverWraps_top hlower hlo hhi

/-- After `heap_init`, `kmalloc(2^64 - 1)` returns a pointer to a block of no bytes. -/
theorem size_wraps_to_zero : ∃ (w : HeapRun) (p : Nat) (m : Machine),
    (heap (flatHeap (n := 64) (by decide))).Reachable w ∧ kmalloc w.machine (2 ^ 64 - 1) = .ok (p, m) ∧
    p ≠ null ∧ payload m p = .ok 0 ∧ ¬ NeverWraps w.machine (2 ^ 64 - 1) := by
  obtain ⟨A, role, V, m, _, hinit, hheld, _⟩ := flatHeap_start (n := 64) (by decide) (by decide)
  obtain ⟨_, ram, u, hk, h', _⟩ := hheld.toHeapInv.kmalloc_last [] (by simp) rfl (show 2 ^ 64 - 1 ≠ 0 by decide)
    (by decide)
  have hmem := h'.around.1
  have hpay := h'.payload hmem
  have hzero : takenSize ⟨heapBase, heapInitPages * pageSize - sizeofBlock, true⟩ (alignUp (2 ^ 64 - 1) align) = 0 := by
    decide
  dsimp only at hpay
  rw [hzero] at hpay
  exact ⟨_, _, _, .start hinit, hk, (h'.ptr hmem).1, hpay, hheld.toHeapInv.wraps (by decide) (by decide)⟩

theorem sizes_wrap_iff_flatHeap : ∃ m, Intact m ∧ NeverWraps m 100 ∧ ¬ NeverWraps m (2 ^ 64 - 4096) := by
  obtain ⟨A, role, V, m, _, hinit, _, _⟩ := flatHeap_start (n := 64) (by decide) (by decide)
  have hm : Intact m := intact_reachable (.start hinit)
  refine ⟨m, hm, (sizes_wrap_iff hm (by decide)).mpr (by decide), fun hno => ?_⟩
  exact absurd ((sizes_wrap_iff hm (by decide)).mp hno) (by decide)

end ArcMonark.Mm.Heap
