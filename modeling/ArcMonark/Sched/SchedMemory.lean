import ArcMonark.Mm.HeapFailure
import ArcMonark.Mm.HeapFirstFit
import ArcMonark.Sched.SchedRuns

/-! Memory for a task.

`task_create` asks `kmalloc` for a task and then for its stack. The second request sees
what the first one leaves: the rest of a block, or a page less. Both are served exactly
when the block list and the free frames have room for both (`servesBoth_iff`). -/
namespace ArcMonark.Sched
open Library Mm
open Heap (HeapInv BlockHeader NoFit FirstFit SomeFits headers headersOf framesNeeded heapPages pagesFor align
  sizeofBlock taken remainder)

/-- The free frames let the heap grow by `pages`. -/
def CanGrow (m : Machine) (pages : Nat) : Prop := framesNeeded (heapPages m) pages ≤ Pmm.pmmFreeFrames m

/-- With the task in the block `b`, what is left of it can take the stack, or another
free block can. -/
def StackFits (hs : List BlockHeader) (b : BlockHeader) : Prop :=
  alignUp sizeofTask align + sizeofBlock + kstackSize ≤ b.size ∨
    ∃ c ∈ hs, c.addr ≠ b.addr ∧ c.free = true ∧ kstackSize ≤ c.size

/-- There is memory for a task and its stack. -/
def CanCreate (m : Machine) : Prop :=
  NoFit m sizeofTask ∧ CanGrow m (pagesFor sizeofTask + pagesFor kstackSize) ∨
    ∃ hs b, headers m = .ok hs ∧ FirstFit hs sizeofTask b ∧ (StackFits hs b ∨ CanGrow m (pagesFor kstackSize))

/-- `kmalloc` gives memory for both. -/
def ServesBoth (m : Machine) : Prop :=
  ∃ t m₁ k m₂, Heap.kmalloc m sizeofTask = .ok (t, m₁) ∧ t ≠ null ∧
    Heap.kmalloc m₁ kstackSize = .ok (k, m₂) ∧ k ≠ null

/-- The second request is left, once the first was served. -/
theorem servesBoth_of_task {m m₁ : Machine} {t : Nat} (hk : Heap.kmalloc m sizeofTask = .ok (t, m₁)) (ht : t ≠ null) :
    ServesBoth m ↔ ∃ k m₂, Heap.kmalloc m₁ kstackSize = .ok (k, m₂) ∧ k ≠ null := by
  constructor
  · rintro ⟨_, _, k, m₂, hr₁, _, hr₂, hne⟩
    rw [hk] at hr₁
    cases hr₁
    exact ⟨k, m₂, hr₂, hne⟩
  · rintro ⟨k, m₂, hr₂, hne⟩
    exact ⟨t, m₁, k, m₂, hk, ht, hr₂, hne⟩

theorem framesNeeded_one_add (n j : Nat) : framesNeeded n (1 + j) = framesNeeded n 1 + framesNeeded (n + 1) j := by
  rw [Nat.add_comm 1 j]
  rfl

section Requests
variable {A : Vmm.Space} {role : Nat → Vmm.Role} {n : Nat} {V : Mem} {m : Machine} {b : Block} {bs xs ys : List Block}

/-- Rounded sizes. -/
theorem alignUp_task : alignUp sizeofTask align = 48 := by decide

theorem alignUp_stack : alignUp kstackSize align = kstackSize := by decide

/-- Room for the stack, once the task is taken from `b`. -/
theorem someFits_taken : SomeFits (taken xs b (alignUp sizeofTask align) ys) kstackSize ↔
    alignUp sizeofTask align + sizeofBlock + kstackSize ≤ b.size ∨
      ∃ c ∈ xs ++ ys, c.free = true ∧ kstackSize ≤ c.size := by
  rw [Heap.someFits_iff, alignUp_stack, alignUp_task]
  have hrest : (∃ c ∈ remainder b 48, c.free = true ∧ kstackSize ≤ c.size) ↔ 48 + sizeofBlock + kstackSize ≤ b.size := by
    unfold remainder sizeofBlock align kstackSize
    split
    · simp only [List.not_mem_nil, false_and, exists_false, false_iff]
      omega
    · simp only [List.mem_singleton, exists_eq_left, true_and]
      omega
  rw [← hrest]
  simp only [taken, List.mem_append, List.mem_cons]
  constructor
  · rintro ⟨c, hc | rfl | hc | hc, hfree, hsize⟩
    · exact .inr ⟨c, .inl hc, hfree, hsize⟩
    · cases hfree
    · exact .inl ⟨c, hc, hfree, hsize⟩
    · exact .inr ⟨c, .inr hc, hfree, hsize⟩
  · rintro (⟨c, hc, hfit⟩ | ⟨c, hc | hc, hfit⟩)
    · exact ⟨c, .inr (.inr (.inl hc)), hfit⟩
    · exact ⟨c, .inl hc, hfit⟩
    · exact ⟨c, .inr (.inr (.inr hc)), hfit⟩

/-- The free blocks other than `b` are those with another header. -/
theorem stackFits_iff (h : Heap.Listed A role n V (xs ++ b :: ys) m) {d : BlockHeader} (haddr : d.addr = b.addr)
    (hsize : d.size = b.size) : StackFits (headersOf null (xs ++ b :: ys) null) d ↔
      SomeFits (taken xs b (alignUp sizeofTask align) ys) kstackSize := by
  obtain ⟨_, hxs, hys⟩ := h.around
  rw [someFits_taken, StackFits, haddr, hsize]
  refine or_congr_right ⟨?_, ?_⟩
  · rintro ⟨c, hc, hne, hfree, hroom⟩
    have hmem : (⟨c.addr, c.size, c.free⟩ : Block) ∈ xs ++ b :: ys := Heap.mem_headersOf hc
    rw [List.mem_append, List.mem_cons] at hmem
    refine ⟨⟨c.addr, c.size, c.free⟩, List.mem_append.mpr ?_, hfree, hroom⟩
    rcases hmem with hmem | heq | hmem
    · exact .inl hmem
    · exact absurd (congrArg Block.addr heq) hne
    · exact .inr hmem
  · rintro ⟨c, hc, hfree, hroom⟩
    have hmem : c ∈ xs ++ b :: ys := by
      rw [List.mem_append, List.mem_cons]
      exact (List.mem_append.mp hc).imp_right .inr
    obtain ⟨e, he, headdr, hesize, hefree⟩ := Heap.exists_header hmem null null
    refine ⟨e, he, ?_, hefree.trans hfree, hesize ▸ hroom⟩
    rcases List.mem_append.mp hc with hc | hc
    · have := hxs c hc
      omega
    · have := hys c hc
      omega

/-- There is one block that the task is taken from. -/
theorem firstFit_unique (h : Heap.Listed A role n V (xs ++ b :: ys) m) {size : Nat} (hbfree : b.free = true)
    (hbsize : alignUp size align ≤ b.size) (hfirst : ∀ c ∈ xs, Heap.Fits (alignUp size align) c = false)
    {d : BlockHeader} (hd : FirstFit (headersOf null (xs ++ b :: ys) null) size d) :
    d.addr = b.addr ∧ d.size = b.size := by
  obtain ⟨e, he, headdr⟩ := h.firstFit hbfree hbsize hfirst
  have hle := hd.2.2.2 e he.1 he.2.1 he.2.2.1
  have hge := he.2.2.2 d hd.1 hd.2.1 hd.2.2.1
  have haddr : d.addr = b.addr := by omega
  exact ⟨haddr, congrArg Block.size (h.eq_of_addr (Heap.mem_headersOf hd.1) h.around.1 haddr)⟩

/-- Where a free block takes the task, the stack gets what is left, or new pages. -/
theorem servesBoth_fits (h : HeapInv A role n V bs m) (hfits : SomeFits bs sizeofTask) :
    ServesBoth m ↔ CanCreate m := by
  obtain ⟨xs, b, ys, rfl, hbfree, hbsize, hrun, hfirst⟩ := h.kmalloc_fits (by decide) hfits
  obtain ⟨V₁, ram, u, htake, h₁, _⟩ := h.take hbfree hbsize (by decide)
  have hk : Heap.kmalloc m sizeofTask = .ok (b.addr + 32, {m with ram, usedBytes := u}) := hrun.trans htake
  have hptr : b.addr + 32 ≠ null := (h₁.ptr h₁.toListed.around.1).1
  have hserve := h₁.kmalloc_serves_iff (show kstackSize ≠ 0 by decide) (by decide)
  have hleft : Pmm.pmmFreeFrames {m with ram, usedBytes := u} = Pmm.pmmFreeFrames m := rfl
  have hgrow : framesNeeded n (pagesFor kstackSize) ≤ Pmm.pmmFreeFrames m ↔ CanGrow m (pagesFor kstackSize) := by
    rw [CanGrow, h.heapPages]
  have hsecond : ServesBoth m ↔ SomeFits (taken xs b (alignUp sizeofTask align) ys) kstackSize ∨
      CanGrow m (pagesFor kstackSize) := by
    rw [← hgrow, ← hleft, ← hserve]
    exact servesBoth_of_task hk hptr
  rw [hsecond]
  constructor
  · intro hcase
    obtain ⟨d, hd, _⟩ := h.toListed.firstFit hbfree hbsize hfirst
    obtain ⟨haddr, hsize⟩ := firstFit_unique h.toListed hbfree hbsize hfirst hd
    exact .inr ⟨_, d, h.headers, hd, hcase.imp_left (stackFits_iff h.toListed haddr hsize).mpr⟩
  · rintro (⟨hno, _⟩ | ⟨hs, d, hhs, hd, hcase⟩)
    · exact absurd hfits ((h.noFit_iff _).mp hno)
    · rw [h.headers] at hhs
      cases hhs
      obtain ⟨haddr, hsize⟩ := firstFit_unique h.toListed hbfree hbsize hfirst hd
      exact hcase.imp_left (stackFits_iff h.toListed haddr hsize).mp

/-- A page for the task leaves no room for the stack. -/
theorem grown_small (hset : Block.Settled bs) (hfits : ¬ SomeFits bs sizeofTask) {c : Block}
    (hc : c ∈ Heap.grown n 1 bs) (hfree : c.free = true) : c.size < 48 + sizeofBlock + pageSize := by
  have hsmall : ∀ d ∈ bs, d.free = true → d.size < 48 := fun d hd hdfree => by
    by_contra hle
    exact hfits (Heap.someFits_iff.mpr ⟨d, hd, hdfree, by rw [alignUp_task]; omega⟩)
  unfold sizeofBlock pageSize
  rcases Block.mem_coalesce_snoc hset hc with hmem | rfl | ⟨l, hl, hlfree, rfl⟩
  · have := hsmall c hmem hfree
    omega
  · show 1 * pageSize - 32 < _
    unfold pageSize
    omega
  · have := hsmall l hl hlfree
    show l.size + (sizeofBlock + (1 * pageSize - 32)) < _
    unfold sizeofBlock pageSize
    omega

/-- Where no free block takes the task, it gets a page, and no block can take the stack. -/
theorem kmalloc_task_grows (h : HeapInv A role n V bs m) (hfits : ¬ SomeFits bs sizeofTask)
    (hone : framesNeeded n 1 ≤ Pmm.pmmFreeFrames m) : ∃ role' V' bs' t m₁, Heap.kmalloc m sizeofTask = .ok (t, m₁) ∧
      t ≠ null ∧ HeapInv A role' (n + 1) V' bs' m₁ ∧ ¬ SomeFits bs' kstackSize ∧
      Pmm.pmmFreeFrames m = Pmm.pmmFreeFrames m₁ + framesNeeded n 1 := by
  obtain ⟨role', n', V', bs', m₁, c, hk, ⟨j, hj, hn', hframes⟩, h₁, _, halloc, _⟩ :=
    h.kmalloc_exact (show sizeofTask ≠ 0 by decide) (by decide) (.inr (by rw [pagesFor_task]; exact hone))
  have hptr : c.addr + 32 ≠ null := (h₁.ptr halloc.mem.1).1
  obtain ⟨xs, b, ys, rfl, _, hbfree, hbsize, hsame | ⟨i, hi, hpos, hgrown⟩⟩ := halloc
  · exact absurd (Heap.someFits_iff.mpr ⟨b, by rw [hsame.2]; simp, hbfree, hbsize⟩) hfits
  · have hji : j = 1 ∧ i = 1 := by
      rw [pagesFor_task] at hj
      omega
    obtain ⟨rfl, rfl⟩ := hji
    subst hn'
    refine ⟨role', V', _, _, m₁, hk, hptr, h₁, ?_, hframes⟩
    have hsmall : ∀ d ∈ xs ++ b :: ys, d.free = true → d.size < 48 + sizeofBlock + pageSize := fun d hd =>
      grown_small h.settled hfits (by rw [← hgrown]; exact hd)
    rw [someFits_taken, alignUp_task]
    unfold sizeofBlock pageSize at hsmall
    unfold sizeofBlock kstackSize
    rintro (hle | ⟨d, hd, hdfree, hle⟩)
    · have := hsmall b (by simp) hbfree
      omega
    · have hmem : d ∈ xs ++ b :: ys := by
        rw [List.mem_append, List.mem_cons]
        exact (List.mem_append.mp hd).imp_right .inr
      have := hsmall d hmem hdfree
      omega

/-- Then both get new pages. -/
theorem servesBoth_grows (h : HeapInv A role n V bs m) (hfits : ¬ SomeFits bs sizeofTask) :
    ServesBoth m ↔ CanCreate m := by
  have hfirst := h.kmalloc_serves_iff (show sizeofTask ≠ 0 by decide) (by decide)
  rw [or_iff_right hfits, pagesFor_task] at hfirst
  have hneed : framesNeeded n (pagesFor sizeofTask + pagesFor kstackSize) =
      framesNeeded n 1 + framesNeeded (n + 1) (pagesFor kstackSize) := by
    rw [pagesFor_task, framesNeeded_one_add]
  have hgrow : CanCreate m ↔
      framesNeeded n (pagesFor sizeofTask + pagesFor kstackSize) ≤ Pmm.pmmFreeFrames m := by
    rw [CanCreate, CanGrow, h.heapPages]
    constructor
    · rintro (⟨_, hle⟩ | ⟨hs, d, hhs, hd, _⟩)
      · exact hle
      · rw [h.headers] at hhs
        cases hhs
        exact absurd (Heap.someFits_of_header ⟨d, hd.1, hd.2.1, hd.2.2.1⟩) hfits
    · exact fun hle => .inl ⟨(h.noFit_iff _).mpr hfits, hle⟩
  -- what the first request leaves
  have hsecond : framesNeeded n 1 ≤ Pmm.pmmFreeFrames m → (ServesBoth m ↔ CanCreate m) := by
    intro hone
    obtain ⟨_, _, bs', t, m₁, hk, hptr, h₁, hroom, hframes⟩ := kmalloc_task_grows h hfits hone
    have hserve := h₁.kmalloc_serves_iff (show kstackSize ≠ 0 by decide) (by decide)
    rw [servesBoth_of_task hk hptr, hserve, or_iff_right hroom, hgrow]
    omega
  constructor
  · intro hboth
    obtain ⟨t, m₁, k, m₂, hr₁, hne, _⟩ := id hboth
    exact (hsecond (hfirst.mp ⟨t, m₁, hr₁, hne⟩)).mp hboth
  · intro hcan
    have hle := hgrow.mp hcan
    exact (hsecond (by omega)).mpr hcan

/-- **Both requests are served** exactly when there is memory for both. -/
theorem servesBoth_iff (h : HeapInv A role n V bs m) : ServesBoth m ↔ CanCreate m := by
  by_cases hfits : SomeFits bs sizeofTask
  · exact servesBoth_fits h hfits
  · exact servesBoth_grows h hfits

end Requests

end ArcMonark.Sched
