import ArcMonark.Mm.HeapSafety

/-! The heap as its clients see it.

A client knows the pointers it was given, with their sizes, and the bytes behind
them. `Client` puts the heap's invariant behind that view; what follows is what
the calls and accesses of a client do, with no block or page table in sight. -/
namespace ArcMonark.Mm.Heap
open Library Pmm Vmm Virtual
open Block (Laid Settled used)

/-- The heap keeps its invariant and holds the bytes of `V`. -/
def Client (B : HeapBoot) (V : Mem) (w : HeapRun) : Prop :=
  ∃ A role n bs, A.map = B.toPlacedMap ∧ Held A role n V bs w

/-- The bytes behind live pointers are the same. -/
def SameData (live : List (Nat × Nat)) (V V' : Mem) : Prop :=
  ∀ p s, (p, s) ∈ live → ∀ i, i < s → V' (p + i) = V (p + i)

theorem client_reachable {B : HeapBoot} {w : HeapRun} (h : (heap B).Reachable w) : ∃ V, Client B V w := by
  obtain ⟨A, role, n, V, bs, hmap, hw⟩ := held_reachable h
  exact ⟨V, A, role, n, bs, hmap, hw⟩

section Client
variable {B : HeapBoot} {V : Mem} {w : HeapRun} {p q s t : Nat}

/-! ### Pointers -/

theorem Client.bounds (h : Client B V w) (hp : (p, s) ∈ w.live) :
    heapBase + 32 ≤ p ∧ p + s < 2 ^ 64 ∧ p % align = 0 := by
  obtain ⟨A, role, n, bs, _, hw⟩ := h
  obtain ⟨b, hb, _, rfl, hs⟩ := hw.live p s hp
  obtain ⟨hbase, hend, htop⟩ := hw.bounds hb
  have haddr := (hw.sized b hb).1
  unfold align at *
  omega

theorem Client.ne_null (h : Client B V w) (hp : (p, s) ∈ w.live) : p ≠ null := by
  obtain ⟨hbase, _⟩ := h.bounds hp
  unfold heapBase at hbase
  unfold null
  omega

theorem Client.unique (h : Client B V w) (hp : (p, s) ∈ w.live) (hp' : (p, t) ∈ w.live) : s = t := by
  obtain ⟨A, role, n, bs, _, hw⟩ := h
  by_contra hne
  have hpair : (p, s) ≠ (p, t) := fun heq => hne (congrArg Prod.snd heq)
  have hall := List.pairwise_iff_getElem.mp hw.distinct
  obtain ⟨i, hi, hgi⟩ := List.getElem_of_mem hp
  obtain ⟨j, hj, hgj⟩ := List.getElem_of_mem hp'
  rcases Nat.lt_trichotomy i j with hlt | heq | hlt
  · exact hall i j hi hj hlt (by rw [hgi, hgj])
  · subst heq
    exact hpair (hgi.symm.trans hgj)
  · exact hall j i hj hi hlt (by rw [hgi, hgj])

theorem Client.apart (h : Client B V w) (hp : (p, s) ∈ w.live) (hq : (q, t) ∈ w.live) (hne : p ≠ q) :
    p + s ≤ q ∨ q + t ≤ p := by
  obtain ⟨A, role, n, bs, _, hw⟩ := h
  obtain ⟨b, hb, _, rfl, hs⟩ := hw.live p s hp
  obtain ⟨c, hc, _, rfl, ht⟩ := hw.live q t hq
  have happart := (hw.apart hb hc).1 (by omega)
  omega

/-! ### Accesses -/

theorem Client.read (h : Client B V w) (hp : (p, s) ∈ w.live) {i k : Nat} (hi : i + k ≤ s) :
    readBytes w.machine (add64 p i) k = .ok (V.load (p + i) k) := by
  obtain ⟨hbase, htop, _⟩ := h.bounds hp
  obtain ⟨A, role, n, bs, _, hw⟩ := h
  obtain ⟨b, hb, _, rfl, hs⟩ := hw.live p s hp
  obtain ⟨_, hend, _⟩ := hw.bounds hb
  rw [add64_eq (by omega)]
  exact hw.toFlat.readBytes (by omega) (by omega)

theorem Client.readByte (h : Client B V w) (hp : (p, s) ∈ w.live) {i : Nat} (hi : i < s) :
    Virtual.readByte w.machine (p + i) = .ok (V (p + i)) := by
  obtain ⟨A, role, n, bs, _, hw⟩ := h
  obtain ⟨b, hb, _, rfl, hs⟩ := hw.live p s hp
  obtain ⟨hbase, hend, _⟩ := hw.bounds hb
  exact hw.bytes _ (by omega) (by omega)

/-- A write behind a live pointer leaves the list as it is. -/
theorem Held.write {A : Space} {role : Nat → Role} {n : Nat} {bs : List Block} (h : Held A role n V bs w)
    (hp : (p, s) ∈ w.live) {i k : Nat} (hi : i + k ≤ s) (x : Nat) :
    ∃ m, writeBytes w.machine (add64 p i) k x = .ok m ∧
      Held A role n (V.store (p + i) k x) bs {w with machine := m} := by
  obtain ⟨b, hb, _, rfl, hs⟩ := h.live p s hp
  obtain ⟨_, hend, htop⟩ := h.bounds hb
  obtain ⟨ram, hr, hflat⟩ := h.toFlat.writeBytes (v := b.addr + 32 + i) (by have := (h.bounds hb).1; omega)
    (show b.addr + 32 + i + k ≤ pageAddr n by omega) x
  have hlist := h.toListed.reflat hflat fun c hc a hle hlt => Mem.store_of_outside _ _ (by
    have happart := (h.apart hb hc).2
    omega)
  rw [add64_eq (by omega)]
  exact ⟨_, hr, ⟨hlist, h.settled, h.count_used⟩, h.live, h.distinct⟩

theorem Client.write (h : Client B V w) (hp : (p, s) ∈ w.live) {i k : Nat} (hi : i + k ≤ s) (x : Nat) :
    ∃ m, writeBytes w.machine (add64 p i) k x = .ok m ∧
      Client B (V.store (p + i) k x) {w with machine := m} := by
  obtain ⟨A, role, n, bs, hmap, hw⟩ := h
  obtain ⟨m, hr, hw'⟩ := hw.write hp hi x
  exact ⟨m, hr, A, role, n, bs, hmap, hw'⟩

theorem Client.memset (h : Client B V w) (hp : (p, s) ∈ w.live) (value : Byte) {k : Nat} (hk : k ≤ s) :
    ∃ m V', Virtual.memset w.machine p value k = .ok m ∧ Client B V' {w with machine := m} ∧
      ∀ i < k, V' (p + i) = value := by
  induction k with
  | zero => exact ⟨_, V, rfl, h, fun i hi => absurd hi (Nat.not_lt_zero i)⟩
  | succ k ih =>
    obtain ⟨m, V', hm, h', hset⟩ := ih (by omega)
    obtain ⟨m', hm', h''⟩ := h'.write hp (i := k) (k := 1) hk value.toNat
    refine ⟨m', _, ?_, h'', fun i hi => ?_⟩
    · rw [Virtual.memset, hm, ok_bind, ← hm']
      show _ = writeByte m (add64 p k) (BitVec.ofNat 8 value.toNat)
      rw [BitVec.ofNat_toNat, BitVec.setWidth_eq]
    · rcases Nat.lt_succ_iff_lt_or_eq.mp hi with hlt | rfl
      · rw [Mem.store_of_outside _ _ (by omega), hset i hlt]
      · rw [Mem.store, Mem.set_same, BitVec.ofNat_toNat, BitVec.setWidth_eq]

/-- Nothing is written through a null pointer. -/
theorem Client.write_low (h : Client B V w) {v k : Nat} (hv : v + k < 2 ^ 39) (x : Nat) :
    ∃ f, writeBytes w.machine v (k + 1) x = .error f := by
  obtain ⟨A, role, n, bs, _, hw⟩ := h
  refine ⟨_, writeBytes_unmapped (by omega) ?_ x⟩
  have hslot : levelIndex 3 (v + k) = 0 := by
    rw [levelIndex_eq]
    simp only [Nat.reduceMul, Nat.reduceAdd]
    omega
  rw [hw.cr3]
  refine hw.beyond _ (.inl (by omega)) (by rw [hslot]; exact hw.lowest) fun j _ hin => ?_
  rw [inPage_iff] at hin
  have hbase : heapBase ≤ pageAddr j := pageAddr_mono (Nat.zero_le j)
  unfold heapBase at hbase
  omega

/-! ### Calls -/

/-- What stays live holds what it held. -/
theorem Held.sameData {A : Space} {role : Nat → Role} {n : Nat} {bs bs' : List Block} {V' : Mem}
    {w' : HeapRun} (h : Held A role n V bs w) (hkept : Kept bs bs' V V' w w')
    {live : List (Nat × Nat)} (hlive : live ⊆ w.live)
    (hlive' : ∀ a ∈ live, w'.Live a.1) : SameData live V V' := by
  intro p s hp i hi
  obtain ⟨b, hb, _, rfl, hs⟩ := h.live p s (hlive hp)
  exact (hkept b hb ⟨s, hlive hp⟩ (hlive' _ hp)).2 i (by omega)

/-- What `kmalloc` returns is null, or a pointer that was not live. -/
theorem Client.kmalloc (h : Client B V w) {size p : Nat} {m : Machine} (hlt : size < 2 ^ 63)
    (hk : Heap.kmalloc w.machine size = .ok (p, m)) :
    ∃ V', Client B V' ⟨m, record p size w.live⟩ ∧ SameData w.live V V' ∧
      ∀ q s, (q, s) ∈ w.live → q ≠ p := by
  obtain ⟨A, role, n, bs, hmap, hw⟩ := h
  obtain ⟨role', n', V', bs', hw', hkept⟩ := held_step hw (.malloc hlt hk)
  have hsub : ∀ a ∈ w.live, a ∈ record p size w.live := by
    intro a ha
    unfold record
    split
    · exact ha
    · exact List.mem_cons_of_mem _ ha
  refine ⟨V', ⟨A, role', n', bs', hmap, hw'⟩,
    hw.sameData (hkept trivial) (fun _ ha => ha) fun a ha => ⟨a.2, hsub a ha⟩, fun q s hq heq => ?_⟩
  by_cases hnull : p = null
  · exact Client.ne_null ⟨A, role, n, bs, hmap, hw⟩ hq (heq.trans hnull)
  · have hdistinct := hw'.distinct
    change (record p size w.live).Pairwise _ at hdistinct
    rw [record, if_neg hnull] at hdistinct
    exact (List.pairwise_cons.mp hdistinct).1 _ hq heq.symm

theorem framesNeeded_le (n j : Nat) : framesNeeded n j ≤ 4 * j := by
  induction j generalizing n with
  | zero => exact Nat.le_refl 0
  | succ j ih =>
    have hcost : tableCost (pageAddr n) ≤ 3 := by
      unfold tableCost
      split <;> split <;> split <;> omega
    have hrest := ih (n + 1)
    rw [framesNeeded]
    omega

/-- `kmalloc` serves as long as there are four frames for each page. -/
theorem Client.serves (h : Client B V w) {size : Nat} (hne : size ≠ 0) (hlt : size < 2 ^ 63)
    (hfree : 4 * pagesFor size ≤ pmmFreeFrames w.machine) :
    ∃ p m, Heap.kmalloc w.machine size = .ok (p, m) ∧ p ≠ null ∧
      pmmFreeFrames w.machine ≤ pmmFreeFrames m + 4 * pagesFor size := by
  obtain ⟨A, role, n, bs, _, hw⟩ := h
  have hneed := framesNeeded_le n (pagesFor size)
  obtain ⟨_, _, _, _, m, c, hk, ⟨j, hj, _, hused⟩, h', _, hc, _⟩ :=
    hw.toHeapInv.kmalloc_serves hne hlt (.inr (Nat.le_trans hneed hfree))
  have hcost := framesNeeded_le n j
  exact ⟨_, m, hk, (h'.ptr hc).1, by omega⟩

theorem Client.kfree (h : Client B V w) (hp : w.Live p) :
    ∃ m V', Heap.kfree w.machine p = .ok m ∧ Client B V' ⟨m, forget p w.live⟩ ∧
      SameData (forget p w.live) V V' ∧ pmmFreeFrames m = pmmFreeFrames w.machine := by
  obtain ⟨A, role, n, bs, hmap, hw⟩ := h
  obtain ⟨xs, b, ys, V', ram, u, _, _, _, hr, hw', hkept, _⟩ := hw.kfree hp
  exact ⟨_, V', hr, ⟨A, role, n, freed xs b ys, hmap, hw'⟩, hw.sameData hkept
    (fun a ha => (mem_forget.mp ha).1) fun a ha => ⟨a.2, ha⟩, rfl⟩

/-- Another part of the kernel takes a frame. -/
theorem Client.take (h : Client B V w) :
    ∃ V', Client B V' {w with machine := (pmmAllocFrame w.machine).2} ∧ SameData w.live V V' := by
  obtain ⟨A, role, n, bs, hmap, hw⟩ := h
  obtain ⟨V', h', hpres⟩ := hw.toHeapInv.alloc
  refine ⟨V', ⟨A, role, n, bs, hmap, ⟨h', hw.live, hw.distinct⟩⟩, fun p s hp i hi => ?_⟩
  obtain ⟨b, hb, hfree, rfl, hs⟩ := hw.live p s hp
  exact (hpres null b hb hfree (hw.ne_null hb)).2 i (by omega)

/-! ### Steps of others -/

/-- The event is about the pointer `p`, which it takes from its caller. -/
def HeapEvent.On : HeapEvent → Nat → Prop
  | .realloc ptr _ _, p | .free ptr, p | .write ptr _ _, p => p = ptr
  | .malloc _ _, _ | .take, _ => False

/-- Pointers that an event is not about stay live. -/
theorem HeapStep.live {e : HeapEvent} {w' : HeapRun} (hs : HeapStep w e w') (hp : (p, s) ∈ w.live)
    (hon : ¬ e.On p) : (p, s) ∈ w'.live := by
  have hrecord : ∀ q k, (p, s) ∈ record q k w.live := by
    intro q k
    unfold record
    split
    · exact hp
    · exact List.mem_cons_of_mem _ hp
  cases hs with
  | malloc _ _ => exact hrecord _ _
  | @realloc ptr size q m _ _ _ =>
    have hforget : (p, s) ∈ forget ptr w.live := mem_forget.mpr ⟨hp, hon⟩
    show (p, s) ∈ afterRealloc ptr size q w.live
    unfold afterRealloc
    split
    · exact hrecord _ _
    · split
      · exact hforget
      · split
        · exact hp
        · exact List.mem_cons_of_mem _ hforget
  | free _ _ => exact mem_forget.mpr ⟨hp, hon⟩
  | write _ _ _ => exact hp
  | take => exact hp

/-- **What others do** leaves a client's pointers live, and their bytes as they were. -/
theorem Client.step (h : Client B V w) {e : HeapEvent} {w' : HeapRun} (hs : HeapStep w e w') :
    ∃ V', Client B V' w' ∧ ∀ p s, (p, s) ∈ w.live → ¬ e.On p →
      (p, s) ∈ w'.live ∧ ∀ i, i < s → V' (p + i) = V (p + i) := by
  by_cases hcall : e.IsCall
  · obtain ⟨A, role, n, bs, hmap, hw⟩ := h
    obtain ⟨role', n', V', bs', hw', hkept⟩ := held_step hw hs
    refine ⟨V', ⟨A, role', n', bs', hmap, hw'⟩, fun p s hp hon => ⟨hs.live hp hon, fun i hi => ?_⟩⟩
    obtain ⟨b, hb, _, rfl, hsize⟩ := hw.live p s hp
    exact (hkept hcall b hb ⟨s, hp⟩ ⟨s, hs.live hp hon⟩).2 i (by omega)
  · cases hs with
    | malloc _ _ => exact absurd trivial hcall
    | realloc _ _ _ => exact absurd trivial hcall
    | free _ _ => exact absurd trivial hcall
    | @write ptr size i b m hptr hi hk =>
      have hclient := h
      obtain ⟨A, role, n, bs, hmap, hw⟩ := h
      obtain ⟨c, hc, _, rfl, hsize⟩ := hw.live ptr size hptr
      obtain ⟨ram, hr, h'⟩ := hw.toHeapInv.clientWrite hc (Nat.lt_of_lt_of_le hi hsize) b
      rw [hr] at hk
      cases hk
      refine ⟨_, ⟨A, role, n, bs, hmap, ⟨h', hw.live, hw.distinct⟩⟩, fun p s hp hon => ⟨hp, fun j hj => ?_⟩⟩
      have happart := hclient.apart hp hptr hon
      exact Mem.set_ne _ _ (by omega)
    | take =>
      obtain ⟨V', h', hsame⟩ := h.take
      exact ⟨V', h', fun p s hp _ => ⟨hp, hsame p s hp⟩⟩

/-- A client writes byte by byte. -/
theorem reachable_writeBytes (h : (heap B).Reachable w) (hp : (p, s) ∈ w.live) {i k x : Nat} (hi : i + k ≤ s)
    {m : Machine} (hm : writeBytes w.machine (add64 p i) k x = .ok m) :
    (heap B).Reachable {w with machine := m} := by
  obtain ⟨V, hclient⟩ := client_reachable h
  obtain ⟨_, htop, _⟩ := hclient.bounds hp
  induction k generalizing i x m with
  | zero =>
    cases hm
    exact h
  | succ k ih =>
    obtain ⟨m', hrest, hbyte⟩ := ok_of_bind hm
    rw [add64_eq (show p + i < 2 ^ 64 by omega)] at hrest hbyte
    rw [add64_eq (show p + i + 1 < 2 ^ 64 by omega)] at hrest
    have hrest' := ih (i := i + 1) (by omega) (by rw [add64_eq (show p + (i + 1) < 2 ^ 64 by omega)]; exact hrest)
    exact hrest'.step (.write hp (show i < s by omega) hbyte)

theorem reachable_memset (h : (heap B).Reachable w) (hp : (p, s) ∈ w.live) {value : Byte} {k : Nat} (hk : k ≤ s)
    {m : Machine} (hm : Virtual.memset w.machine p value k = .ok m) : (heap B).Reachable {w with machine := m} := by
  obtain ⟨V, hclient⟩ := client_reachable h
  obtain ⟨_, htop, _⟩ := hclient.bounds hp
  induction k generalizing m with
  | zero =>
    cases hm
    exact h
  | succ k ih =>
    obtain ⟨m', hrest, hbyte⟩ := ok_of_bind hm
    rw [add64_eq (show p + k < 2 ^ 64 by omega)] at hbyte
    exact (ih (by omega) hrest).step (.write hp (show k < s by omega) hbyte)

/-! ### Room -/

/-- Pointers to pieces of `k` bytes are no more than the memory has room for. -/
theorem Client.count_le (h : Client B V w) {k : Nat} {ps : List Nat} (hps : ps.Nodup)
    (hlive : ∀ p ∈ ps, (p, k) ∈ w.live) : ps.length * k ≤ B.totalFrames * pageSize := by
  obtain ⟨A, role, n, bs, hmap, hw⟩ := h
  have hsub : ps ⊆ (bs.filter fun b => !b.free && decide (k ≤ b.size)).map fun b => b.addr + 32 := by
    intro p hp
    obtain ⟨b, hb, hfree, rfl, hs⟩ := hw.live p k (hlive p hp)
    exact List.mem_map.mpr ⟨b, List.mem_filter.mpr ⟨hb, by simp [hfree, hs]⟩, rfl⟩
  have hlen := (List.subperm_of_subset hps hsub).length_le
  rw [List.length_map] at hlen
  have hused := hw.laid.used_le
  have hcount := hw.count
  rw [hmap] at hcount
  have hbig := Block.filter_le_used k bs
  calc ps.length * k ≤ (bs.filter fun b => !b.free && decide (k ≤ b.size)).length * k :=
        Nat.mul_le_mul_right k hlen
    _ ≤ used bs := hbig
    _ ≤ n * pageSize := by unfold pageAddr at hused; omega
    _ ≤ B.totalFrames * pageSize := Nat.mul_le_mul_right _ (by omega)

end Client

end ArcMonark.Mm.Heap
