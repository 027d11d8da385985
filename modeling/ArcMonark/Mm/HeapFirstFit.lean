import ArcMonark.Mm.HeapSafety

/-! Taking a block and giving it back.

A request that some free block can take is served from the first such block, which is
the lowest, with no page mapped and no frame taken; `kfree` of the result joins what was
cut, and leaves the list that was there before (`first_fit_undone`). -/
namespace ArcMonark.Mm.Heap
open Library Pmm Vmm Virtual
open Block (Settled coalesce)

/-- The lowest free block that can take the request. -/
def FirstFit (hs : List BlockHeader) (size : Nat) (b : BlockHeader) : Prop :=
  b ∈ hs ∧ b.free = true ∧ alignUp size align ≤ b.size ∧
    ∀ c ∈ hs, c.free = true → alignUp size align ≤ c.size → b.addr ≤ c.addr

/-- From `m` to `m'` the heap's pages and its count of used bytes may have changed: every
variable, table and translation, and the bitmap of the frames, is as it was. -/
structure PagesAside (m m' : Machine) : Prop where
  globals : m' = {m with ram := m'.ram, usedBytes := m'.usedBytes}
  tables : ∀ l t, TableOf m.ram m.cr3 l t → ∀ i, i < pageSize → m'.ram (t + i) = m.ram (t + i)
  walks : ∀ v, walk m'.ram m'.cr3 v = walk m.ram m.cr3 v
  bitmap : ∀ a, m.direct m.bitmap ≤ a → a < m.direct m.bitmap + m.bitmapSize → m'.ram a = m.ram a

section FirstFit
variable {A : Space} {role : Nat → Role} {n size : Nat} {V : Mem} {m : Machine} {b : Block} {bs xs ys : List Block}

theorem Backed.pagesAside (h : Backed A role n m) {ram : Mem} (hpages : PagesOnly role m.ram ram) (usedBytes : Nat) :
    PagesAside m {m with ram, usedBytes} := by
  have hroot : A.root % pageSize = 0 := (h.shape.table [] A.root (by decide) rfl).1
  refine ⟨rfl, fun l t ht i hi => hpages _ fun k hrole => ?_, fun v => ?_, fun a hle hlt => hpages a fun k hrole => ?_⟩
  · rw [h.cr3] at ht
    have htable := h.shape.tableOf_role ht
    have hframe : (t + i) / pageSize = t / pageSize := by
      have halign := tableOf_aligned hroot ht
      unfold pageSize at *
      omega
    rw [← hframe, hrole] at htable
    exact htable
  · show walk ram m.cr3 v = walk m.ram m.cr3 v
    rw [h.cr3]
    exact (h.store hpages).2 v
  · rw [h.direct_bitmap] at hle hlt
    rw [h.toTables.bitmap_byte hle hlt] at hrole
    cases hrole

/-- Joining what was cut gives the block back. -/
theorem coalesce_taken (hset : Settled (xs ++ b :: ys)) (hb : b.free = true) (hs : size ≤ b.size) :
    coalesce sizeofBlock (xs ++ ⟨b.addr, takenSize b size, true⟩ :: (remainder b size ++ ys)) = xs ++ b :: ys := by
  obtain ⟨addr, bsize, free⟩ := b
  change free = true at hb
  subst hb
  unfold takenSize remainder
  split
  · exact Block.coalesce_of_settled hset
  · have hroom : ¬ bsize - size < 32 + 16 := by assumption
    have hjoin := Block.coalesce_join (h := sizeofBlock) (b := ⟨addr, size, true⟩)
      (c := ⟨addr + sizeofBlock + size, bsize - size - sizeofBlock, true⟩) xs ys rfl rfl
    have hsum : size + (sizeofBlock + (bsize - size - sizeofBlock)) = bsize := by
      unfold sizeofBlock
      omega
    dsimp only at hjoin hs ⊢
    rw [hsum, Block.coalesce_of_settled hset] at hjoin
    exact hjoin.symm

/-- The other blocks stay on the list. -/
theorem mem_taken {c : Block} (hc : c ∈ xs ++ b :: ys) (hne : c ≠ b) : c ∈ taken xs b size ys := by
  simp only [taken, List.mem_append, List.mem_cons] at hc ⊢
  rcases hc with hc | hc | hc
  · exact .inl hc
  · exact absurd hc hne
  · exact .inr (.inr (.inr hc))

/-- A free header that is large enough is a block that fits. -/
theorem someFits_of_header (hfit : ∃ d ∈ headersOf null bs null, d.free = true ∧ alignUp size align ≤ d.size) :
    SomeFits bs size := by
  obtain ⟨d, hd, hfree, hsize⟩ := hfit
  exact someFits_iff.mpr ⟨_, mem_headersOf hd, hfree, hsize⟩

/-- The first block that fits is the lowest one. -/
theorem Listed.firstFit (h : Listed A role n V (xs ++ b :: ys) m) (hbfree : b.free = true)
    (hbsize : alignUp size align ≤ b.size) (hfirst : ∀ c ∈ xs, Fits (alignUp size align) c = false) :
    ∃ d, FirstFit (headersOf null (xs ++ b :: ys) null) size d ∧ d.addr = b.addr := by
  obtain ⟨d, hd, haddr, hdsize, hdfree⟩ := exists_header h.around.1 null null
  refine ⟨d, ⟨hd, hdfree.trans hbfree, hdsize ▸ hbsize, fun c hc hcfree hcsize => ?_⟩, haddr⟩
  rw [haddr]
  rcases List.mem_append.mp (mem_headersOf hc) with hc | hc
  · -- what lies in front does not fit
    have hno := hfirst _ hc
    rw [Fits, hcfree, decide_eq_true hcsize] at hno
    cases hno
  · rcases List.mem_cons.mp hc with heq | hc
    · rw [← heq]
    · have hbehind := h.around.2.2 _ hc
      dsimp only at hbehind
      omega

end FirstFit

/-- **First fit, and `kfree` undoes it**, in every state of every run. A request that some
free block can take gets the lowest such block, of at most a header more than the rounded
size; the other blocks, the heap's end, the tables and the frames stay as they are; and
`kfree` of the result brings the list and the count of used bytes back. -/
theorem first_fit_undone (B : HeapBoot) {w : HeapRun} (h : (heap B).Reachable w) {size : Nat} (hpos : 0 < size)
    (hlt : size < 2 ^ 63) {hs : List BlockHeader} (hhs : headers w.machine = .ok hs)
    (hfit : ∃ b ∈ hs, b.free = true ∧ alignUp size align ≤ b.size) :
    ∃ b m hs', FirstFit hs size b ∧ kmalloc w.machine size = .ok (b.addr + sizeofBlock, m) ∧
      headers m = .ok hs' ∧ PagesAside w.machine m ∧
      (∀ c ∈ hs, c.addr ≠ b.addr → ∃ d ∈ hs', d.addr = c.addr ∧ d.size = c.size ∧ d.free = c.free) ∧
      (∃ c ∈ hs', c.addr = b.addr ∧ c.free = false ∧ alignUp size align ≤ c.size ∧
        c.size ≤ alignUp size align + 32) ∧
      ∃ m', kfree m (b.addr + sizeofBlock) = .ok m' ∧ headers m' = .ok hs ∧
        heapUsedBytes m' = heapUsedBytes w.machine := by
  obtain ⟨A, role, n, V, bs, _, hw⟩ := held_reachable h
  have hsame : headersOf null bs null = hs := Except.ok.inj (hw.toHeapInv.headers.symm.trans hhs)
  subst hsame
  obtain ⟨xs, b, ys, rfl, hbfree, hbsize, hrun, hfirst⟩ := hw.toHeapInv.kmalloc_fits (Nat.ne_of_gt hpos)
    (someFits_of_header hfit)
  have hbmem : b ∈ xs ++ b :: ys := by simp
  obtain ⟨_, hmod, _⟩ := request_sizes (le_maxRequest hlt)
  obtain ⟨V₁, ram₁, u₁, htake, h₁, _, hpages⟩ := hw.toHeapInv.take hbfree hbsize hmod
  obtain ⟨V₂, ram₂, u₂, hkfree, h₂, _⟩ := h₁.kfree_exact rfl
  have hback : freed xs ⟨b.addr, takenSize b (alignUp size align), false⟩ (remainder b (alignUp size align) ++ ys) =
      xs ++ b :: ys := coalesce_taken hw.settled hbfree hbsize
  rw [hback] at h₂
  obtain ⟨d, hd, haddr⟩ := hw.toListed.firstFit hbfree hbsize hfirst
  have hptr : d.addr + sizeofBlock = b.addr + 32 := by rw [haddr, sizeofBlock]
  refine ⟨d, _, _, hd, ?_, h₁.headers, hw.toBacked.pagesAside hpages u₁, fun c hc hne => ?_, ?_, _, ?_, h₂.headers, ?_⟩
  · rw [hptr, hrun, htake]
  · refine exists_header (mem_taken (b := b) (mem_headersOf hc) fun heq => hne ?_) null null
    rw [haddr, ← heq]
  · obtain ⟨c, hc, hcaddr, hcsize, hcfree⟩ := exists_header h₁.around.1 null null
    refine ⟨c, hc, hcaddr.trans haddr.symm, hcfree, ?_, ?_⟩
    · rw [hcsize]
      exact le_takenSize hbsize
    · rw [hcsize]
      exact takenSize_le (hw.sized b hbmem).2 hmod
  · rw [hptr]
    exact hkfree
  · exact h₂.count_used.trans hw.count_used.symm

/-- A request for 100 bytes, right after `heap_init`. -/
theorem first_fit_undone_flatHeap : ∃ (w : HeapRun) (hs : List BlockHeader) (b : BlockHeader) (m m' : Machine),
    headers w.machine = .ok hs ∧ FirstFit hs 100 b ∧ kmalloc w.machine 100 = .ok (b.addr + sizeofBlock, m) ∧
    kfree m (b.addr + sizeofBlock) = .ok m' ∧ headers m' = .ok hs := by
  obtain ⟨A, role, V, m, _, hinit, hheld, _⟩ := flatHeap_start (n := 64) (by decide) (by decide)
  have hhs := hheld.toHeapInv.headers
  obtain ⟨b, m₁, _, hfirst, hk, _, _, _, _, m₂, hkfree, hlist, _⟩ := first_fit_undone _ (.start hinit)
    (show 0 < 100 by decide) (by decide) hhs ⟨_, List.mem_cons_self, rfl, by decide⟩
  exact ⟨⟨m, []⟩, _, b, m₁, m₂, hhs, hfirst, hk, hkfree, hlist⟩

end ArcMonark.Mm.Heap
