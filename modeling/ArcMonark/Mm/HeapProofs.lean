import ArcMonark.Mm.HeapOps

/-! What the calls of `heap.c` do.

`HeapInv` is the invariant: the pages are backed, the blocks are listed in order,
no two neighbours are free, and the count of used bytes is right. Every call
keeps it, and says what becomes of the other blocks; how many frames are free
decides whether `kmalloc` serves, refuses or faults (`HeapInv.kmalloc`). -/
namespace ArcMonark.Mm.Heap
open Library Pmm Vmm Virtual
open Block (Laid Settled used coalesce)

structure HeapInv (A : Space) (role : Nat → Role) (n : Nat) (V : Mem) (bs : List Block)
    (m : Machine) : Prop extends Listed A role n V bs m where
  settled : Settled bs
  count_used : m.usedBytes = Block.used bs

variable {A : Space} {role : Nat → Role} {n : Nat} {V : Mem} {m : Machine} {b : Block}
  {bs xs ys : List Block}

/-! ### Taking a block -/

/-- The size of the block that is taken for `size` bytes of `b`. -/
def takenSize (b : Block) (size : Nat) : Nat := if b.size - size < sizeofBlock + align then b.size else size

/-- What is left of `b` behind it. -/
def remainder (b : Block) (size : Nat) : List Block :=
  if b.size - size < sizeofBlock + align then []
  else [⟨b.addr + sizeofBlock + size, b.size - size - sizeofBlock, true⟩]

theorem cut_eq (b : Block) (size : Nat) : cut b size = ⟨b.addr, takenSize b size, b.free⟩ :: remainder b size := by
  unfold cut takenSize remainder
  split <;> rfl

theorem le_takenSize {size : Nat} (hs : size ≤ b.size) : size ≤ takenSize b size := by
  unfold takenSize
  split
  · exact hs
  · exact Nat.le_refl size

/-- A block is at most a header larger than what was asked for. -/
theorem takenSize_le {size : Nat} (hb : b.size % align = 0) (hsize : size % align = 0) :
    takenSize b size ≤ size + sizeofBlock := by
  unfold takenSize sizeofBlock
  split
  · unfold align at *
    omega
  · omega

theorem remainder_cases (b : Block) (size : Nat) :
    remainder b size = [] ∨ ∃ c, remainder b size = [c] ∧ c.free = true := by
  unfold remainder
  split
  · exact .inl rfl
  · exact .inr ⟨_, rfl, rfl⟩

/-- What is left is free. -/
theorem inUse_remainder (b : Block) (size : Nat) : Block.inUse (remainder b size) = [] := by
  rcases remainder_cases b size with hnil | ⟨c, hone, hfree⟩
  · rw [hnil]
    rfl
  · rw [hone, Block.inUse_cons, hfree]
    rfl

/-- The list once `size` bytes of `b` are taken. -/
def taken (xs : List Block) (b : Block) (size : Nat) (ys : List Block) : List Block :=
  xs ++ ⟨b.addr, takenSize b size, false⟩ :: (remainder b size ++ ys)

/-- The list before: the block that is taken is still free. -/
theorem cut_append (xs : List Block) (b : Block) (size : Nat) (ys : List Block) :
    xs ++ cut b size ++ ys = xs ++ ⟨b.addr, takenSize b size, b.free⟩ :: (remainder b size ++ ys) := by
  rw [cut_eq, List.append_assoc]
  rfl

/-- A block in use may stand between any neighbours. -/
theorem settled_taken {size : Nat} (h : Settled (xs ++ b :: ys)) (hb : b.free = true) :
    Settled (taken xs b size ys) := by
  obtain ⟨hxs, _, hnext, hys⟩ := Block.settled_split.mp h
  refine Block.settled_split.mpr ⟨hxs, ?_, ?_, ?_⟩
  · rintro a _ ⟨_, hc⟩
    cases hc
  · rintro a _ ⟨hc, _⟩
    cases hc
  · rcases remainder_cases b size with hnil | ⟨d, hone, hd⟩
    · rw [hnil]
      exact hys
    · rw [hone]
      refine List.isChain_cons.mpr ⟨fun e he => ?_, hys⟩
      have := hnext e he
      rw [hb] at this
      rw [hd]
      exact this

theorem used_taken (hb : b.free = true) (size : Nat) :
    used (taken xs b size ys) = used (xs ++ b :: ys) + takenSize b size := by
  have hrest : used (remainder b size) = 0 := by
    rw [← Block.used_inUse, inUse_remainder]
    rfl
  simp only [taken, Block.used_append, used, hb, hrest, if_true, Bool.false_eq_true, if_false]
  omega

/-- **A block is taken**: the list is cut there, and nothing but the heap's pages and the
count is written. -/
theorem HeapInv.take (h : HeapInv A role n V (xs ++ b :: ys) m) (hb : b.free = true) {size : Nat}
    (hs : size ≤ b.size) (hsize : size % align = 0) :
    ∃ V' ram usedBytes, takeBlock m b.addr size = .ok (b.addr + 32, {m with ram, usedBytes}) ∧
      HeapInv A role n V' (taken xs b size ys) {m with ram, usedBytes} ∧
      Preserves null (xs ++ b :: ys) (taken xs b size ys) V V' ∧ PagesOnly role m.ram ram := by
  obtain ⟨V₁, ram₁, hsplit, h₁, hpres₁⟩ := h.split (x := null) hb hs hsize
  have hpages₁ := h.split_pagesOnly hs hsplit
  rw [cut_append] at h₁ hpres₁
  have hmem₁ := h₁.around.1
  obtain ⟨ram₂, hmark, f₂, hpages₂⟩ := h₁.toFlat.patchFree (h₁.inHeap hmem₁) false
  obtain ⟨h₂, hpres₂⟩ := h₁.marked (x := null) (.inl hb) false f₂
  have hmem := h₂.around.1
  have hget : getSize {m with ram := ram₂} b.addr = .ok (takenSize b size) := by
    rw [h₂.toFlat.getSize (h₂.inHeap hmem), (linked_split.mp h₂.linked).2.1.size]
  have hused : add64 m.usedBytes (takenSize b size) = used (taken xs b size ys) := by
    have hbound := h₂.laid.used_le
    have htop := (h₂.bounds hmem).2.2
    have hsum : used (taken xs b size ys) = used (xs ++ b :: ys) + takenSize b size := used_taken hb size
    unfold taken at hsum
    rw [hsum] at hbound
    rw [h.count_used, taken, hsum]
    exact add64_eq (by omega)
  have hptr : add64 b.addr sizeofBlock = b.addr + 32 := by
    have hend : b.addr + 32 + takenSize b size ≤ pageAddr n := (h₂.bounds hmem).2.1
    have htop := (h₂.bounds hmem).2.2
    unfold sizeofBlock
    exact add64_eq (by omega)
  refine ⟨_, ram₂, _, ?_, ⟨h₂.setUsed _, settled_taken h.settled hb, hused⟩, hpres₁.trans hpres₂,
    hpages₁.trans hpages₂⟩
  simp only [takeBlock, hsplit, hmark, hget, ok_bind, hptr]
  rfl

/-! ### Releasing a block -/

/-- Joining a free block with what follows: its address stays, it stays free, and
no free block follows. -/
theorem joinNext_cases (hb : b.free = true) (hys : Settled ys) : ∃ k zs,
    joinNext b ys = ⟨b.addr, k, true⟩ :: zs ∧ (∀ c ∈ zs.head?, c.free = false) ∧ Settled zs := by
  obtain ⟨addr, size, free⟩ := b
  change free = true at hb
  subst hb
  cases ys with
  | nil => exact ⟨size, [], rfl, (fun c hc => nomatch hc), List.isChain_nil⟩
  | cons c ys =>
    cases hc : c.free
    · refine ⟨size, c :: ys, by simp [joinNext, hc], fun d hd => ?_, hys⟩
      cases hd
      exact hc
    · obtain ⟨hnext, hys'⟩ := List.isChain_cons.mp hys
      refine ⟨size + (sizeofBlock + c.size), ys, by simp only [joinNext, hc, if_true], fun d hd => ?_, hys'⟩
      have := hnext d hd
      rw [hc] at this
      exact Bool.not_eq_true _ ▸ fun hd => this ⟨rfl, hd⟩

/-- It is a step of coalescing. -/
theorem coalesce_joinNext (hb : b.free = true) (xs ys : List Block) :
    coalesce sizeofBlock (xs ++ joinNext b ys) = coalesce sizeofBlock (xs ++ b :: ys) := by
  cases ys with
  | nil => rfl
  | cons c ys =>
    cases hc : c.free
    · simp [joinNext, hc]
    · simp only [joinNext, hc, if_true]
      exact Block.coalesce_join xs ys hb hc

theorem mem_joinNext {d : Block} (hd : d ∈ joinNext b ys) : ∃ e ∈ b :: ys, e.addr = d.addr := by
  cases ys with
  | nil => exact ⟨d, hd, rfl⟩
  | cons c ys =>
    cases hc : c.free
    · simp only [joinNext, hc, Bool.false_eq_true, if_false] at hd
      exact ⟨d, hd, rfl⟩
    · simp only [joinNext, hc, if_true] at hd
      rcases List.mem_cons.mp hd with rfl | hd
      · exact ⟨b, List.mem_cons_self, rfl⟩
      · exact ⟨d, by simp [hd], rfl⟩

/-- Joining a free block with what is in front ends the coalescing. -/
theorem Listed.mergePrev (h : Listed A role n V (xs ++ b :: ys) m) (hb : b.free = true)
    (hxs : Settled xs) (hys : Settled ys) (hhead : ∀ c ∈ ys.head?, c.free = false) :
    ∃ V' ram, mergePrev m b.addr = .ok {m with ram} ∧
      Listed A role n V' (coalesce sizeofBlock (xs ++ b :: ys)) {m with ram} ∧ Still (xs ++ b :: ys) V V' := by
  have hnotFree : ∀ d : Block, ∀ c ∈ ys.head?, ¬ (d.free = true ∧ c.free = true) := by
    intro d c hc hboth
    rw [hhead c hc] at hboth
    cases hboth.2
  by_cases hprev : ∃ a ∈ xs.getLast?, a.free = true
  · obtain ⟨a, ha, hafree⟩ := hprev
    obtain ⟨ws, rfl⟩ := List.getLast?_eq_some_iff.mp ha
    rw [List.append_assoc, List.singleton_append] at h ⊢
    obtain ⟨hws, hlast, _, _⟩ := Block.settled_split.mp hxs
    have hsettled : Settled (ws ++ ⟨a.addr, a.size + (sizeofBlock + b.size), true⟩ :: ys) :=
      Block.settled_split.mpr ⟨hws, fun d hd hboth => hlast d hd ⟨hboth.1, hafree⟩, hnotFree _, hys⟩
    obtain ⟨ram, hmerge, hflat⟩ := h.mergePrev_runs hafree
    rw [← Block.coalesce_join ws ys hafree hb, Block.coalesce_of_settled hsettled]
    exact ⟨_, ram, hmerge, (h.absorbed (x := null) hafree hb hflat).1, h.absorb_still⟩
  · have hnone : ∀ a ∈ xs.getLast?, a.free = false := fun a ha =>
      Bool.eq_false_iff.mpr fun hafree => hprev ⟨a, ha, hafree⟩
    have hsettled : Settled (xs ++ b :: ys) := by
      refine Block.settled_split.mpr ⟨hxs, fun d hd hboth => ?_, hnotFree _, hys⟩
      rw [hnone d hd] at hboth
      cases hboth.1
    rw [h.mergePrev_none hnone, Block.coalesce_of_settled hsettled]
    exact ⟨V, m.ram, rfl, h, .refl _ V⟩

/-- The count of bytes in use, less a block's. -/
theorem HeapInv.sub_used (h : HeapInv A role n V (xs ++ b :: ys) m) (hb : b.free = false) :
    sub64 m.usedBytes b.size = used xs + used ys := by
  obtain ⟨hbmem, _, _⟩ := h.around
  have hbound := h.laid.used_le
  have htop := (h.bounds hbmem).2.2
  have hsum : used (xs ++ b :: ys) = used xs + used ys + b.size := by
    simp only [Block.used_append, used, hb, Bool.false_eq_true, if_false]
    omega
  rw [hsum] at hbound
  rw [h.count_used, hsum, sub64_eq (by omega) (by omega)]
  omega

/-- What is in no header holds what it held. -/
theorem Listed.holds_still (h : Listed A role n V (xs ++ b :: ys) m) {V' : Mem}
    (hstill : Still (xs ++ b :: ys) (flagged V b true) V') {c : Block} (hc : c ∈ xs ++ b :: ys) : Holds c V V' := by
  refine h.holds (fun a ha => ?_) hc
  have hab := ha b h.around.1
  exact (hstill a fun d hd => by have := ha d hd; omega).trans (Mem.set_ne _ _ (by omega))

/-- The flag of `b` is set, and the list coalesced. -/
def freed (xs : List Block) (b : Block) (ys : List Block) : List Block :=
  coalesce sizeofBlock (xs ++ ⟨b.addr, b.size, true⟩ :: ys)

/-- **`kfree`** marks the block free and coalesces the list; but for that mark, it writes
sizes and links only. -/
theorem HeapInv.kfree_exact (h : HeapInv A role n V (xs ++ b :: ys) m) (hb : b.free = false) :
    ∃ V' ram usedBytes, kfree m (b.addr + 32) = .ok {m with ram, usedBytes} ∧
      HeapInv A role n V' (freed xs b ys) {m with ram, usedBytes} ∧
      Still (xs ++ b :: ys) (flagged V b true) V' := by
  obtain ⟨hbmem, _, _⟩ := h.around
  obtain ⟨hbase, hend, htop⟩ := h.bounds hbmem
  have hptr : sub64 (b.addr + 32) sizeofBlock = b.addr := sub64_eq (Nat.le_add_left _ _) (by omega)
  have hne : b.addr + 32 ≠ null := by
    unfold null
    omega
  have hin := h.inHeap hbmem
  obtain ⟨ram₁, hmark, f₁⟩ := h.toFlat.setFree hin true
  have h₁ := (h.marked (x := b.addr) (.inr rfl) true f₁).1
  obtain ⟨hsxs, _, _, hsys⟩ := Block.settled_split.mp h.settled
  have hfree : getFree m b.addr = .ok false := by
    rw [h.toFlat.getFree hin, (linked_split.mp h.linked).2.1.free, hb]
  have hsize : getSize {m with ram := ram₁} b.addr = .ok b.size := by
    rw [h₁.toFlat.getSize hin, (linked_split.mp h₁.linked).2.1.size]
  -- the block behind
  obtain ⟨V₂, ram₂, hnext, h₂, hstill₂⟩ := (h₁.setUsed (sub64 m.usedBytes b.size)).mergeNext rfl
  obtain ⟨k, zs, hjoin, hhead, hszs⟩ := joinNext_cases (b := ⟨b.addr, b.size, true⟩) rfl hsys
  have hcoalesce := coalesce_joinNext (b := ⟨b.addr, b.size, true⟩) rfl xs ys
  have haddrs : ∀ d ∈ xs ++ joinNext ⟨b.addr, b.size, true⟩ ys,
      ∃ e ∈ xs ++ ⟨b.addr, b.size, true⟩ :: ys, e.addr = d.addr := by
    intro d hd
    rcases List.mem_append.mp hd with hd | hd
    · exact ⟨d, List.mem_append_left _ hd, rfl⟩
    · obtain ⟨e, he, haddr⟩ := mem_joinNext hd
      exact ⟨e, List.mem_append_right _ he, haddr⟩
  rw [hjoin] at h₂ hcoalesce haddrs
  have hrun : Heap.kfree m (b.addr + 32) =
      Heap.mergePrev {m with ram := ram₂, usedBytes := sub64 m.usedBytes b.size} b.addr := by
    simp only [Heap.kfree, if_neg hne, hptr, hfree, hmark, hsize, ok_bind, hnext, Bool.false_eq_true,
      if_false]
  -- the block in front
  obtain ⟨V₃, ram₃, hmerge, h₃, hstill₃⟩ := h₂.mergePrev rfl hsxs hszs hhead
  rw [hcoalesce] at h₃
  refine ⟨V₃, ram₃, _, hrun.trans hmerge, ⟨h₃, Block.settled_coalesce _ _, ?_⟩, ?_⟩
  · show sub64 m.usedBytes b.size = _
    rw [h.sub_used hb, freed, Block.used_coalesce, Block.used_append]
    simp only [used, if_true, Nat.zero_add]
  · intro a ha
    refine (hstill₂.trans hstill₃ haddrs) a fun d hd => ?_
    simp only [List.mem_append, List.mem_cons] at hd
    rcases hd with hd | rfl | hd
    · exact ha d (by simp [hd])
    · exact ha b (by simp)
    · exact ha d (by simp [hd])

/-- The other blocks in use are on the list that `kfree` leaves. -/
theorem mem_freed {c : Block} (hc : c ∈ xs ++ b :: ys) (hu : c.free = false) (hcb : c.addr ≠ b.addr) :
    c ∈ freed xs b ys := by
  have hmem : c ∈ Block.inUse (freed xs b ys) := by
    rw [freed, Block.inUse_coalesce, Block.mem_inUse]
    refine ⟨?_, hu⟩
    simp only [List.mem_append, List.mem_cons] at hc ⊢
    rcases hc with hc | rfl | hc
    · exact .inl hc
    · exact absurd rfl hcb
    · exact .inr (.inr hc)
  exact (Block.mem_inUse.mp hmem).1

/-- They are all that is in use there. -/
theorem Listed.of_mem_freed (h : Listed A role n V (xs ++ b :: ys) m) {c : Block} (hc : c ∈ freed xs b ys)
    (hu : c.free = false) : c ∈ xs ++ b :: ys ∧ c.addr ≠ b.addr := by
  obtain ⟨_, hxs, hys⟩ := h.around
  have hmem : c ∈ Block.inUse (freed xs b ys) := Block.mem_inUse.mpr ⟨hc, hu⟩
  rw [freed, Block.inUse_coalesce, Block.mem_inUse] at hmem
  simp only [List.mem_append, List.mem_cons] at hmem ⊢
  rcases hmem.1 with hc | rfl | hc
  · have := hxs c hc
    exact ⟨.inl hc, by omega⟩
  · cases hu
  · have := hys c hc
    exact ⟨.inr (.inr hc), by omega⟩

theorem Listed.preserves_freed (h : Listed A role n V (xs ++ b :: ys) m) {V' : Mem}
    (hstill : Still (xs ++ b :: ys) (flagged V b true) V') :
    Preserves b.addr (xs ++ b :: ys) (freed xs b ys) V V' :=
  fun _ hc hu hcb => ⟨mem_freed hc hu hcb, h.holds_still hstill hc⟩

/-! ### Sizes -/

/-- The pages by which the heap grows for a request. -/
def pagesFor (size : Nat) : Nat := alignUp (add64 (alignUp size align) sizeofBlock) pageSize / pageSize

theorem pagesFor_lt (size : Nat) : pagesFor size * pageSize < 2 ^ 64 :=
  Nat.lt_of_le_of_lt (Nat.div_mul_le_self _ _) (and_bits_lt (show 12 ≤ 64 by decide) _)

/-- The largest size that can be rounded up to pages, with a header, without a wrap. -/
def maxRequest : Nat := 2 ^ 64 - 4128

theorem le_maxRequest {size : Nat} (hlt : size < 2 ^ 63) : size ≤ maxRequest :=
  Nat.le_trans (Nat.le_of_lt hlt) (by decide)

/-- A rounded size, and the pages for it. -/
theorem request_sizes {size : Nat} (hlt : size ≤ maxRequest) :
    size ≤ alignUp size align ∧ alignUp size align % align = 0 ∧
      alignUp size align + 32 ≤ pagesFor size * pageSize ∧ pagesFor size * pageSize < 2 ^ 64 := by
  unfold maxRequest at hlt
  have hle : size ≤ alignUp size align := le_alignUp (k := 4) (by decide) (by omega)
  have hup : alignUp size align < size + 16 := alignUp_lt (k := 4) (by decide) (by omega)
  have hmod : alignUp size align % align = 0 := alignUp_mod (k := 4) (by decide)
  have hsum : add64 (alignUp size align) sizeofBlock = alignUp size align + 32 :=
    add64_eq (by unfold sizeofBlock; omega)
  have hround : alignUp size align ≤ 2 ^ 64 - 4128 := by
    unfold align at *
    omega
  have hneed : alignUp size align + 32 ≤ alignUp (alignUp size align + 32) pageSize :=
    le_alignUp (k := 12) (by decide) (by omega)
  have hneedmod : alignUp (alignUp size align + 32) pageSize % pageSize = 0 :=
    alignUp_mod (k := 12) (by decide)
  have hpages : pagesFor size * pageSize = alignUp (alignUp size align + 32) pageSize := by
    rw [pagesFor, hsum]
    exact Nat.div_mul_cancel (Nat.dvd_of_mod_eq_zero hneedmod)
  refine ⟨hle, hmod, ?_, pagesFor_lt size⟩
  rw [hpages]
  exact hneed

/-! ### Extending the heap -/

/-- The list of a heap of `n` pages that grows by `pages`: what was free at its end is
one with the new block. -/
def grown (n pages : Nat) (bs : List Block) : List Block :=
  coalesce sizeofBlock (bs ++ [⟨pageAddr n, pages * pageSize - 32, true⟩])

/-- `extend_heap`, as far as the free frames go. -/
theorem HeapInv.extend (h : HeapInv A role n V bs m) {size : Nat} (hpos : 0 < pagesFor size) :
    (framesNeeded n (pagesFor size) ≤ pmmFreeFrames m → ∃ role' V' m' zs b,
      extendHeap m (alignUp size align) = .ok (b.addr, m') ∧
        HeapInv A role' (n + pagesFor size) V' (zs ++ [b]) m' ∧ b.free = true ∧
        pagesFor size * pageSize - 32 ≤ b.size ∧ Preserves null bs (zs ++ [b]) V V' ∧
        pmmFreeFrames m = pmmFreeFrames m' + framesNeeded n (pagesFor size) ∧
        (∀ d ∈ bs, d.free = false → d.addr ≠ b.addr) ∧ zs ++ [b] = grown n (pagesFor size) bs) ∧
    (∀ j, j < pagesFor size → pmmFreeFrames m = framesNeeded n j → ∃ role' V' m',
      extendHeap m (alignUp size align) = .ok (null, m') ∧ HeapInv A role' (n + j) V' bs m' ∧
        Preserves null bs bs V V' ∧ pmmFreeFrames m' = 0 ∧ (j = 0 → m' = m)) ∧
    (∀ j, j < pagesFor size → framesNeeded n j < pmmFreeFrames m →
      pmmFreeFrames m < framesNeeded n (j + 1) →
      extendHeap m (alignUp size align) = .error .nullTable) := by
  have hpages := pagesFor_lt size
  obtain ⟨hok, hfalse, hfault⟩ := h.growPages (pagesFor size)
  have hused : ∀ {role'} {m' : Machine}, Growth role role' m m' → m'.usedBytes = m.usedBytes :=
    fun g => by rw [g.fields]
  refine ⟨fun hle => ?_, fun j hj heq => ?_, fun j hj hlo hhi => ?_⟩
  · obtain ⟨role', m', hgrow, hback, g, hfree⟩ := hok hle
    obtain ⟨V₁, h₁, hpres₁⟩ := h.toListed.grow hback g (Nat.le_add_right _ _)
    have hsize : sub64 (pagesFor size * pageSize) sizeofBlock = pagesFor size * pageSize - 32 :=
      sub64_eq (by unfold sizeofBlock pageSize; omega) hpages
    have hroom : pageAddr n + 32 + (pagesFor size * pageSize - 32) ≤ pageAddr (n + pagesFor size) := by
      unfold pageAddr pageSize
      omega
    have haligned : pageAddr n % align = 0 ∧ (pagesFor size * pageSize - 32) % align = 0 := by
      unfold pageAddr heapBase pageSize align at *
      omega
    obtain ⟨V₂, ram₂, zs, b, happ, h₂, hset, husedEq, hb, hbsize, hpres₂, hfresh, hgrown⟩ :=
      h₁.append (x := null) h.settled h.laid hroom haligned
    refine ⟨role', V₂, _, zs, b, ?_, ⟨h₂, hset, ?_⟩, hb, hbsize, (hpres₁ null).trans hpres₂, hfree, hfresh, hgrown⟩
    · rw [extendHeap, ← pagesFor, hgrow, h.heapEnd]
      simp only [ok_bind, Bool.not_true, Bool.false_eq_true, if_false, hsize]
      exact happ
    · show m'.usedBytes = _
      rw [husedEq, ← h.count_used, hused g]
  · obtain ⟨role', m', hgrow, hback, g, hfree, hsame⟩ := hfalse j hj heq
    obtain ⟨V₁, h₁, hpres₁⟩ := h.toListed.grow hback g (Nat.le_add_right _ _)
    refine ⟨role', V₁, m', ?_, ⟨h₁, h.settled, (hused g).trans h.count_used⟩, hpres₁ null, hfree, hsame⟩
    rw [extendHeap, ← pagesFor, hgrow]
    rfl
  · rw [extendHeap, ← pagesFor, hfault j hj hlo hhi]
    rfl

/-- Where the rounded size wraps and no page is asked for, the new header is
written behind the heap's end, which is not mapped. -/
theorem HeapInv.extend_wrapped (h : HeapInv A role n V bs m) {size : Nat} (hzero : pagesFor size = 0) :
    extendHeap m (alignUp size align) = .error (.pageFault (pageAddr n + 7)) := by
  have hcount := h.count
  have htop := h.pageAddr_lt (k := n + 1) (by omega)
  rw [pageAddr_succ] at htop
  have hunmapped : walk m.ram m.cr3 (pageAddr n + 7) = none := by
    have hin : InPage n (pageAddr n + 7) := by
      rw [inPage_iff, pageAddr_succ]
      unfold pageSize
      omega
    have hslot : levelIndex 3 (pageAddr n + 7) = levelIndex 3 (pageAddr n) :=
      (List.cons.inj (indices_of_page_eq hin).1).1
    rw [h.cr3]
    refine h.beyond _ (h.canonical (by omega) hin) ?_ fun k hk hink => ?_
    · rw [hslot]
      exact h.owned n (by omega)
    · rw [inPage_iff] at hin hink
      have := pageAddr_mono (show k + 1 ≤ n by omega)
      omega
  have hwrite : ∀ x, setSize m (pageAddr n) x = .error (.pageFault (pageAddr n + 7)) :=
    fun x => writeBytes_unmapped (k := 7) (by unfold pageSize at htop; omega) hunmapped x
  rw [extendHeap, ← pagesFor, hzero, Heap.growPages, h.heapEnd]
  simp only [ok_bind, Bool.not_true, Bool.false_eq_true, if_false, appendBlock, hwrite, error_bind]

/-! ### `kmalloc` -/

/-- A request was served: a block in use that was not in use before, of at least
the requested size, stands behind the pointer; the heap grew by at most the pages
for the request. -/
def Served (A : Space) (n : Nat) (V : Mem) (bs : List Block) (size : Nat) (m : Machine)
    (r : Except Fault (Nat × Machine)) : Prop :=
  ∃ role' n' V' bs' m' c, r = .ok (c.addr + 32, m') ∧
    (∃ j, j ≤ pagesFor size ∧ n' = n + j ∧ pmmFreeFrames m = pmmFreeFrames m' + framesNeeded n j) ∧
    HeapInv A role' n' V' bs' m' ∧ Preserves null bs bs' V V' ∧ c ∈ bs' ∧ c.free = false ∧
    size ≤ c.size ∧ ∀ d ∈ bs, d.free = false → d.addr ≠ c.addr

/-- How the list of a heap of `n` pages changes when the block `c` is taken for `size`
bytes: from a free block of it, or from the last one once the heap has grown. -/
def Allocated (n : Nat) (bs : List Block) (size : Nat) (c : Block) (n' : Nat) (bs' : List Block) : Prop :=
  ∃ xs b ys, bs' = taken xs b size ys ∧ c = ⟨b.addr, takenSize b size, false⟩ ∧ b.free = true ∧ size ≤ b.size ∧
    (n' = n ∧ bs = xs ++ b :: ys ∨ ∃ j, n' = n + j ∧ 0 < j ∧ xs ++ b :: ys = grown n j bs)

/-- `Served`, with the list that comes out. -/
def ServedExactly (A : Space) (n : Nat) (V : Mem) (bs : List Block) (size : Nat) (m : Machine)
    (r : Except Fault (Nat × Machine)) : Prop :=
  ∃ role' n' V' bs' m' c, r = .ok (c.addr + 32, m') ∧
    (∃ j, j ≤ pagesFor size ∧ n' = n + j ∧ pmmFreeFrames m = pmmFreeFrames m' + framesNeeded n j) ∧
    HeapInv A role' n' V' bs' m' ∧ Preserves null bs bs' V V' ∧ Allocated n bs (alignUp size align) c n' bs' ∧
    size ≤ c.size ∧ ∀ d ∈ bs, d.free = false → d.addr ≠ c.addr

section Allocated
variable {n' size : Nat} {c : Block} {bs' : List Block}

theorem Allocated.mem (h : Allocated n bs size c n' bs') : c ∈ bs' ∧ c.free = false := by
  obtain ⟨xs, b, ys, rfl, rfl, _⟩ := h
  exact ⟨by simp [taken], rfl⟩

/-- One more block is in use, and the others are as before. -/
theorem Allocated.inUse (h : Allocated n bs size c n' bs') :
    ∃ us vs, Block.inUse bs = us ++ vs ∧ Block.inUse bs' = us ++ c :: vs := by
  obtain ⟨xs, b, ys, rfl, rfl, hfree, _, hfrom⟩ := h
  have hsplit : Block.inUse (xs ++ b :: ys) = Block.inUse xs ++ Block.inUse ys := by
    rw [Block.inUse_append, Block.inUse_cons, if_pos hfree]
  have hold : Block.inUse bs = Block.inUse (xs ++ b :: ys) := by
    rcases hfrom with ⟨_, rfl⟩ | ⟨j, _, _, hgrown⟩
    · rfl
    · rw [hgrown, grown, Block.inUse_coalesce, Block.inUse_append]
      exact (List.append_nil _).symm
  refine ⟨Block.inUse xs, Block.inUse ys, hold.trans hsplit, ?_⟩
  rw [taken, Block.inUse_append, Block.inUse_cons, Block.inUse_append, inUse_remainder]
  rfl

theorem Allocated.mem_inUse (h : Allocated n bs size c n' bs') {d : Block} (hd : d ∈ bs') (hu : d.free = false) :
    d = c ∨ d ∈ bs := by
  obtain ⟨us, vs, hold, hnew⟩ := h.inUse
  have hmem : d ∈ us ++ c :: vs := hnew ▸ Block.mem_inUse.mpr ⟨hd, hu⟩
  rw [List.mem_append, List.mem_cons] at hmem
  have hback : d ∈ us ++ vs → d ∈ bs := fun hmem => (Block.mem_inUse.mp (hold ▸ hmem)).1
  rcases hmem with hmem | rfl | hmem
  · exact .inr (hback (List.mem_append_left _ hmem))
  · exact .inl rfl
  · exact .inr (hback (List.mem_append_right _ hmem))

end Allocated

/-- A block is known by its address. -/
theorem Listed.eq_of_addr (h : Listed A role n V bs m) {c : Block} (hb : b ∈ bs) (hc : c ∈ bs)
    (haddr : b.addr = c.addr) : b = c := by
  refine (h.laid.apart hb hc).resolve_right ?_
  unfold Block.stop sizeofBlock
  omega

/-- Some free block can take the request. -/
def SomeFits (bs : List Block) (size : Nat) : Prop := (bs.find? (Fits (alignUp size align))).isSome

theorem someFits_iff {size : Nat} : SomeFits bs size ↔ ∃ c ∈ bs, c.free = true ∧ alignUp size align ≤ c.size := by
  simp only [SomeFits, List.find?_isSome, Fits, Bool.and_eq_true, decide_eq_true_eq]

/-- `kmalloc` takes the first block that fits. -/
theorem HeapInv.kmalloc_found (h : HeapInv A role n V bs m) {size : Nat} (hne : size ≠ 0)
    (hb : bs.find? (Fits (alignUp size align)) = some b) :
    kmalloc m size = takeBlock m b.addr (alignUp size align) := by
  have hfind := h.findFit (alignUp size align)
  rw [hb] at hfind
  simp only [Heap.kmalloc, if_neg hne, hfind, ok_bind, Option.map_some, Option.getD_some,
    if_pos (h.ne_null (List.mem_of_find?_eq_some hb))]

/-- `kmalloc` up to the block it takes. -/
theorem HeapInv.kmalloc_fits (h : HeapInv A role n V bs m) {size : Nat} (hne : size ≠ 0)
    (hfits : SomeFits bs size) : ∃ xs b ys, bs = xs ++ b :: ys ∧ b.free = true ∧
      alignUp size align ≤ b.size ∧ kmalloc m size = takeBlock m b.addr (alignUp size align) ∧
      ∀ c ∈ xs, Fits (alignUp size align) c = false := by
  obtain ⟨b, hb⟩ := Option.isSome_iff_exists.mp hfits
  obtain ⟨hfit, xs, ys, rfl, hfirst⟩ := List.find?_eq_some_iff_append.mp hb
  rw [Fits, Bool.and_eq_true, decide_eq_true_eq] at hfit
  exact ⟨xs, b, ys, rfl, hfit.1, hfit.2, h.kmalloc_found hne hb, fun c hc => by simpa using hfirst c hc⟩

theorem HeapInv.kmalloc_extends (h : HeapInv A role n V bs m) {size : Nat} (hne : size ≠ 0)
    (hfits : ¬ SomeFits bs size) : kmalloc m size =
      (extendHeap m (alignUp size align) >>= fun r =>
        if r.1 = null then .ok (null, r.2) else takeBlock r.2 r.1 (alignUp size align)) := by
  have hnone : bs.find? (Fits (alignUp size align)) = none := by
    rw [SomeFits] at hfits
    simpa using hfits
  have hfind := h.findFit (alignUp size align)
  rw [hnone] at hfind
  simp only [Heap.kmalloc, if_neg hne, hfind, ok_bind]
  rfl

/-- **`kmalloc` serves** a request that fits a free block, or for which the free
frames suffice. -/
theorem HeapInv.kmalloc_exact (h : HeapInv A role n V bs m) {size : Nat} (hne : size ≠ 0)
    (hlt : size ≤ maxRequest) (hcase : SomeFits bs size ∨ framesNeeded n (pagesFor size) ≤ pmmFreeFrames m) :
    ServedExactly A n V bs size m (kmalloc m size) := by
  obtain ⟨hle, hmod, hneed, _⟩ := request_sizes hlt
  by_cases hfits : SomeFits bs size
  · obtain ⟨xs, b, ys, rfl, hbfree, hbsize, hrun, _⟩ := h.kmalloc_fits hne hfits
    have hbmem : b ∈ xs ++ b :: ys := by simp
    obtain ⟨V', ram, u, htake, h', hpres, _⟩ := h.take hbfree hbsize hmod
    refine ⟨role, n, V', _, {m with ram, usedBytes := u}, ⟨b.addr, takenSize b _, false⟩, by rw [hrun, htake],
      ⟨0, Nat.zero_le _, rfl, rfl⟩, h', hpres, ⟨xs, b, ys, rfl, rfl, hbfree, hbsize, .inl ⟨rfl, rfl⟩⟩,
      Nat.le_trans hle (le_takenSize hbsize), fun d hd hdfree heq => ?_⟩
    rw [h.toListed.eq_of_addr hd hbmem heq, hbfree] at hdfree
    cases hdfree
  · have hpos : 0 < pagesFor size := by
      unfold pageSize at hneed
      omega
    obtain ⟨role', V₁, m₁, zs, b, hext, h₁, hbfree, hbsize, hpres₁, hfree, hfresh, hgrown⟩ :=
      (h.extend hpos).1 (hcase.resolve_left hfits)
    have hroom : alignUp size align ≤ b.size := by omega
    obtain ⟨V', ram, u, htake, h', hpres, _⟩ := h₁.take hbfree hroom hmod
    have hbne : b.addr ≠ null := h₁.ne_null (by simp)
    refine ⟨role', _, V', _, {m₁ with ram, usedBytes := u}, ⟨b.addr, takenSize b _, false⟩, ?_,
      ⟨_, Nat.le_refl _, rfl, hfree⟩, h', hpres₁.trans hpres,
      ⟨zs, b, [], rfl, rfl, hbfree, hroom, .inr ⟨_, rfl, hpos, hgrown⟩⟩, Nat.le_trans hle (le_takenSize hroom),
      fun d hd hdfree => hfresh d hd hdfree⟩
    rw [h.kmalloc_extends hne hfits, hext, ok_bind, if_neg hbne, htake]

theorem ServedExactly.served {size : Nat} {r : Except Fault (Nat × Machine)} (h : ServedExactly A n V bs size m r) :
    Served A n V bs size m r := by
  obtain ⟨role', n', V', bs', m', c, hr, hframes, h', hpres, halloc, hs, hfresh⟩ := h
  exact ⟨role', n', V', bs', m', c, hr, hframes, h', hpres, halloc.mem.1, halloc.mem.2, hs, hfresh⟩

theorem HeapInv.kmalloc_serves (h : HeapInv A role n V bs m) {size : Nat} (hne : size ≠ 0)
    (hlt : size < 2 ^ 63) (hcase : SomeFits bs size ∨ framesNeeded n (pagesFor size) ≤ pmmFreeFrames m) :
    Served A n V bs size m (kmalloc m size) := (h.kmalloc_exact hne (le_maxRequest hlt) hcase).served

/-- **`kmalloc` refuses** when the frames run out in front of a page. -/
theorem HeapInv.kmalloc_refuses (h : HeapInv A role n V bs m) {size : Nat} (hne : size ≠ 0)
    (hfits : ¬ SomeFits bs size) {j : Nat} (hj : j < pagesFor size)
    (heq : pmmFreeFrames m = framesNeeded n j) : ∃ role' V' m', kmalloc m size = .ok (null, m') ∧
      HeapInv A role' (n + j) V' bs m' ∧ Preserves null bs bs V V' ∧ pmmFreeFrames m' = 0 ∧
        (j = 0 → m' = m) := by
  obtain ⟨role', V', m', hext, h', hpres, hfree, hsame⟩ :=
    (h.extend (Nat.lt_of_le_of_lt (Nat.zero_le j) hj)).2.1 j hj heq
  refine ⟨role', V', m', ?_, h', hpres, hfree, hsame⟩
  rw [h.kmalloc_extends hne hfits, hext]
  rfl

/-- **`kmalloc` faults** when they run out in the middle of a page's tables. -/
theorem HeapInv.kmalloc_faults (h : HeapInv A role n V bs m) {size : Nat} (hne : size ≠ 0)
    (hfits : ¬ SomeFits bs size) {j : Nat} (hj : j < pagesFor size)
    (hlo : framesNeeded n j < pmmFreeFrames m) (hhi : pmmFreeFrames m < framesNeeded n (j + 1)) :
    kmalloc m size = .error .nullTable := by
  have hext := (h.extend (Nat.lt_of_le_of_lt (Nat.zero_le j) hj)).2.2 j hj hlo hhi
  rw [h.kmalloc_extends hne hfits, hext]
  rfl

/-- The pointer `kmalloc` makes of a block. -/
theorem takeBlock_ptr {m m' : Machine} {b size p : Nat} (h : takeBlock m b size = .ok (p, m')) :
    p = add64 b sizeofBlock := by
  unfold takeBlock at h
  cases hsplit : splitBlock m b size with
  | error f =>
    rw [hsplit] at h
    cases h
  | ok m₁ =>
    rw [hsplit, ok_bind] at h
    cases hfree : setFree m₁ b false with
    | error f =>
      rw [hfree] at h
      cases h
    | ok m₂ =>
      rw [hfree, ok_bind] at h
      cases hsize : getSize m₂ b with
      | error f =>
        rw [hsize] at h
        cases h
      | ok k =>
        rw [hsize, ok_bind] at h
        cases h
        rfl

theorem Listed.ptr_ne_null (h : Listed A role n V bs m) (hb : b ∈ bs) :
    add64 b.addr sizeofBlock ≠ null := by
  obtain ⟨hbase, hend, htop⟩ := h.bounds hb
  have hptr : add64 b.addr sizeofBlock = b.addr + 32 := by
    unfold sizeofBlock
    exact add64_eq (by omega)
  rw [hptr]
  unfold null
  omega

/-- A null result, for a request of any size, means that no free block fits and
that the frames ran out in front of a page. -/
theorem HeapInv.kmalloc_null (h : HeapInv A role n V bs m) {size : Nat} (hne : size ≠ 0) {m' : Machine}
    (hk : kmalloc m size = .ok (null, m')) :
    ¬ SomeFits bs size ∧ ∃ j, j < pagesFor size ∧ pmmFreeFrames m = framesNeeded n j := by
  have hfits : ¬ SomeFits bs size := by
    intro hfits
    obtain ⟨xs, b, ys, rfl, _, _, hrun, _⟩ := h.kmalloc_fits hne hfits
    rw [hrun] at hk
    exact h.ptr_ne_null (b := b) (by simp) (takeBlock_ptr hk).symm
  refine ⟨hfits, ?_⟩
  rw [h.kmalloc_extends hne hfits] at hk
  rcases Nat.eq_zero_or_pos (pagesFor size) with hzero | hpos
  · rw [h.extend_wrapped hzero] at hk
    cases hk
  · obtain ⟨hok, _, hfault⟩ := h.extend hpos
    rcases framesNeeded_cases n (pagesFor size) (pmmFreeFrames m) with hle | ⟨j, hj, heq | ⟨hlo, hhi⟩⟩
    · obtain ⟨role', V₁, m₁, zs, b, hext, h₁, _⟩ := hok hle
      have hbmem : b ∈ zs ++ [b] := by simp
      rw [hext, ok_bind, if_neg (h₁.ne_null hbmem)] at hk
      exact absurd (takeBlock_ptr hk).symm (h₁.ptr_ne_null hbmem)
    · exact ⟨j, hj, heq⟩
    · rw [hfault j hj hlo hhi] at hk
      cases hk

/-! ### `krealloc` -/

/-- A served `krealloc` that moved the block `b`: a new block was taken, what `b` held is
in it, and `b` is freed and no longer in use. -/
def Moved (A : Space) (n : Nat) (V : Mem) (bs : List Block) (b : Block) (size : Nat)
    (r : Except Fault (Nat × Machine)) : Prop :=
  ∃ role' n' V' m' c xs ys, r = .ok (c.addr + 32, m') ∧
    Allocated n bs (alignUp size align) c n' (xs ++ b :: ys) ∧ HeapInv A role' n' V' (freed xs b ys) m' ∧
    Preserves b.addr bs (freed xs b ys) V V' ∧ c ∈ freed xs b ys ∧ c.free = false ∧ size ≤ c.size ∧
    (∀ d ∈ bs, d.free = false → d.addr ≠ c.addr) ∧
    (∀ d ∈ freed xs b ys, d.free = false → d ∈ xs ++ b :: ys ∧ d.addr ≠ b.addr) ∧
    ∀ i, i < b.size → V' (c.addr + 32 + i) = V (b.addr + 32 + i)

/-- A block in use is not the null pointer's, and `krealloc` finds its header. -/
theorem HeapInv.ptr (h : HeapInv A role n V bs m) (hb : b ∈ bs) :
    b.addr + 32 ≠ null ∧ sub64 (b.addr + 32) sizeofBlock = b.addr ∧ getSize m b.addr = .ok b.size := by
  obtain ⟨hbase, hend, htop⟩ := h.bounds hb
  obtain ⟨xs, ys, rfl⟩ := List.append_of_mem hb
  refine ⟨by unfold null; omega, sub64_eq (Nat.le_add_left _ _) (by omega), ?_⟩
  rw [h.toFlat.getSize (h.inHeap hb), (linked_split.mp h.linked).2.1.size]

/-- `krealloc` is `kmalloc`, the copy and `kfree` when the block is too small. -/
theorem HeapInv.krealloc_eq (h : HeapInv A role n V bs m) (hb : b ∈ bs) {size : Nat} (hne : size ≠ 0) :
    krealloc m (b.addr + 32) size =
      if alignUp size align ≤ b.size then .ok (b.addr + 32, m)
      else kmalloc m size >>= fun r =>
        if r.1 = null then .ok (null, r.2)
        else do
          let m ← memcpy r.2 r.1 (b.addr + 32) (← getSize r.2 b.addr)
          let m ← Heap.kfree m (b.addr + 32)
          return (r.1, m) := by
  obtain ⟨hptrne, hptr, hget⟩ := h.ptr hb
  simp only [Heap.krealloc, if_neg hptrne, if_neg hne, hptr, hget, ok_bind]
  rfl

/-- Block sizes are rounded, so rounding the request does not matter. -/
theorem Listed.size_lt_iff (h : Listed A role n V bs m) (hb : b ∈ bs) {size : Nat} (hlt : size ≤ maxRequest) :
    alignUp size align ≤ b.size ↔ size ≤ b.size := by
  have hbs := (h.sized b hb).2
  obtain ⟨hle, hmod, _⟩ := request_sizes hlt
  unfold maxRequest at hlt
  have hround : alignUp size align < size + 16 := alignUp_lt (k := 4) (by decide) (by omega)
  unfold align at *
  omega

/-- **`krealloc` moves** a block that is too small, when `kmalloc` serves. -/
theorem HeapInv.krealloc_moves (h : HeapInv A role n V bs m) (hb : b ∈ bs) (hbfree : b.free = false)
    {size : Nat} (hne : size ≠ 0) (hlt : size ≤ maxRequest) (hbig : b.size < size)
    (hserve : ServedExactly A n V bs size m (kmalloc m size)) :
    Moved A n V bs b size (krealloc m (b.addr + 32) size) := by
  obtain ⟨role₁, n₁, V₁, bs₁, m₁, c, hmalloc, _, h₁, hpres₁, halloc, hcsize, hfresh⟩ := hserve
  obtain ⟨hc, hcfree⟩ := halloc.mem
  have hnot : ¬ alignUp size align ≤ b.size := by
    rw [h.size_lt_iff hb hlt]
    omega
  obtain ⟨hb₁, hold₁⟩ := hpres₁ b hb hbfree (h.ne_null hb)
  obtain ⟨_, _, hget₁⟩ := h₁.ptr hb₁
  have hbc : b.addr ≠ c.addr := hfresh b hb hbfree
  have hcne : c.addr + 32 ≠ null := (h₁.ptr hc).1
  obtain ⟨hbbase, hbend, htop⟩ := h₁.bounds hb₁
  obtain ⟨hcbase, hcend, _⟩ := h₁.bounds hc
  have happart := (h₁.laid.apart hb₁ hc).resolve_left fun heq => hbc (by rw [heq])
  unfold Block.stop sizeofBlock at happart
  obtain ⟨V₂, ⟨ram₂, hcopy, f₂⟩, hcopied, hkept⟩ := h₁.toFlat.memcpy (k := b.size)
    (show heapBase ≤ c.addr + 32 by omega) (by omega) (show heapBase ≤ b.addr + 32 by omega) (by omega)
    (by omega)
  -- the copy lies in the new block's payload
  have hclear : ∀ d ∈ bs₁, d ≠ c → ∀ a, d.addr ≤ a → a < d.addr + 32 + d.size → V₂ a = V₁ a := by
    intro d hd hdc a hle' hlt'
    have hdapart := (h₁.laid.apart hd hc).resolve_left hdc
    unfold Block.stop sizeofBlock at hdapart
    exact hkept a (by omega)
  have h₂ : HeapInv A role₁ n₁ V₂ bs₁ {m₁ with ram := ram₂} := by
    refine ⟨h₁.reflat f₂ fun d hd a hle' hlt' => ?_, h₁.settled, h₁.count_used⟩
    by_cases hdc : d = c
    · rw [hdc] at hle' hlt'
      exact hkept a (by omega)
    · exact hclear d hd hdc a hle' (by omega)
  obtain ⟨xs, ys, rfl⟩ := List.append_of_mem hb₁
  obtain ⟨V₃, ram₃, u, hkfree, h₃, hstill₃⟩ := h₂.kfree_exact hbfree
  have hpres₃ := h₂.preserves_freed hstill₃
  obtain ⟨hc₃, hold₃⟩ := hpres₃ c hc hcfree (Ne.symm hbc)
  refine ⟨role₁, n₁, V₃, _, c, xs, ys, ?_, halloc, h₃, fun d hd hdfree hdb => ?_, hc₃, hcfree, hcsize, hfresh,
    fun d hd => h₂.of_mem_freed hd, fun i hi => ?_⟩
  · simp only [h.krealloc_eq hb hne, if_neg hnot, hmalloc, ok_bind, if_neg hcne, hget₁, hcopy, hkfree]
    rfl
  · obtain ⟨hd₁, hold⟩ := hpres₁ d hd hdfree (h.ne_null hd)
    obtain ⟨hd₃, hold'⟩ := hpres₃ d hd₁ hdfree hdb
    have hdc : d ≠ c := fun heq => hfresh d hd hdfree (by rw [heq])
    refine ⟨hd₃, fun i hi => ?_⟩
    rw [hold' i hi, hclear d hd₁ hdc (d.addr + sizeofBlock + i)
      (Nat.le_trans (Nat.le_add_right _ _) (Nat.le_add_right _ _)) (Nat.add_lt_add_left hi _),
      hold i hi]
  · exact (hold₃ i (by omega)).trans ((hcopied i hi).trans (hold₁ i hi))

/-- A null result of `krealloc` is one of `kmalloc`. -/
theorem HeapInv.krealloc_null (h : HeapInv A role n V bs m) (hb : b ∈ bs) {size : Nat} (hne : size ≠ 0)
    {m' : Machine} : krealloc m (b.addr + 32) size = .ok (null, m') ↔
      ¬ alignUp size align ≤ b.size ∧ kmalloc m size = .ok (null, m') := by
  rw [h.krealloc_eq hb hne]
  by_cases hfit : alignUp size align ≤ b.size
  · rw [if_pos hfit]
    constructor
    · intro hk
      cases hk
    · exact fun hk => absurd hfit hk.1
  · rw [if_neg hfit]
    cases hmalloc : kmalloc m size with
    | error f => simp [error_bind]
    | ok r =>
      obtain ⟨np, m₁⟩ := r
      rw [ok_bind]
      by_cases hnp : np = null
      · simp [hnp, hfit]
      · simp only [if_neg hnp]
        constructor
        · intro hk
          cases hget : getSize m₁ b.addr with
          | error f =>
            rw [hget] at hk
            cases hk
          | ok k =>
            rw [hget, ok_bind] at hk
            cases hcopy : memcpy m₁ np (b.addr + 32) k with
            | error f =>
              rw [hcopy] at hk
              cases hk
            | ok m₂ =>
              rw [hcopy, ok_bind] at hk
              cases hkfree : Heap.kfree m₂ (b.addr + 32) with
              | error f =>
                rw [hkfree] at hk
                cases hk
              | ok m₃ =>
                rw [hkfree] at hk
                cases hk
                exact absurd rfl hnp
        · rintro ⟨_, hk⟩
          cases hk
          exact absurd rfl hnp

/-! ### `heap_init` -/

/-- The list `heap_init` leaves: one free block. -/
def initBlocks : List Block := [⟨heapBase, heapInitPages * pageSize - sizeofBlock, true⟩]

/-- `heap_init` returns when there are frames for the first pages, and leaves the
invariant. -/
theorem heapInit_ok (h : Backed A role 0 {m with heapEnd := heapBase}) :
    (framesNeeded 0 heapInitPages ≤ pmmFreeFrames m → ∃ role' V m', heapInit m = .ok m' ∧
      HeapInv A role' heapInitPages V initBlocks m' ∧
      pmmFreeFrames m = pmmFreeFrames m' + framesNeeded 0 heapInitPages) ∧
    (pmmFreeFrames m < framesNeeded 0 heapInitPages → ∀ m', heapInit m ≠ .ok m') := by
  obtain ⟨hok, hfalse, hfault⟩ := h.growPages heapInitPages
  have hfreeEq : pmmFreeFrames {m with heapEnd := heapBase} = pmmFreeFrames m := rfl
  rw [hfreeEq] at hok hfalse hfault
  refine ⟨fun hle => ?_, fun hlt m' hinit => ?_⟩
  · obtain ⟨role', m₁, hgrow, hback, g, hfree⟩ := hok hle
    rw [Nat.zero_add] at hback
    obtain ⟨V, hflat⟩ := Flat.exists_of_backed hback
    have hflat := hflat.vars heapBase m₁.usedBytes
    have hin : InHeap heapInitPages heapBase := ⟨Nat.le_refl _, by decide⟩
    obtain ⟨ram₁, hw₁, f₁⟩ := hflat.setSize hin (heapInitPages * pageSize - sizeofBlock)
    obtain ⟨ram₂, hw₂, f₂⟩ := f₁.setFree hin true
    obtain ⟨ram₃, hw₃, f₃⟩ := f₂.setNext hin null
    obtain ⟨ram₄, hw₄, f₄⟩ := f₃.setPrev hin null
    have hheader := ((((Header.self V heapBase).storeSize
      (x := heapInitPages * pageSize - sizeofBlock) (by decide)).storeFree true).storeNext
      (x := null) (by decide)).storePrev (x := null) (by decide)
    have hend : Block.stop sizeofBlock ⟨heapBase, heapInitPages * pageSize - sizeofBlock, true⟩ ≤
        pageAddr heapInitPages := by decide
    refine ⟨role', _, {m₁ with ram := ram₄, head := heapBase, usedBytes := 0}, ?_,
      ⟨⟨f₄.vars heapBase 0, rfl, rfl, ⟨hheader, trivial⟩, ⟨Nat.le_refl _, hend⟩, fun b hb => ?_⟩,
        List.isChain_singleton _, rfl⟩, hfree⟩
    · simp only [heapInit, hgrow, ok_bind, Bool.not_true, Bool.false_eq_true, if_false, hw₁, hw₂, hw₃,
        hw₄]
      rfl
    · rw [List.mem_singleton.mp hb]
      decide
  · rcases framesNeeded_cases 0 heapInitPages (pmmFreeFrames m) with hle | ⟨j, hj, heq | ⟨hlo, hhi⟩⟩
    · omega
    · obtain ⟨_, _, hgrow, _⟩ := hfalse j hj heq
      rw [heapInit, hgrow] at hinit
      cases hinit
    · rw [heapInit, hfault j hj hlo hhi] at hinit
      cases hinit

end ArcMonark.Mm.Heap
