import ArcMonark.Mm.HeapSafety

/-! What `krealloc` does to the bytes behind pointers.

It returns its argument, null, or a new pointer; the old bytes are behind the result, or
where they were, and the bytes behind other pointers stay (`krealloc_keeps_data`). -/
namespace ArcMonark.Mm.Heap
open Library Pmm Vmm Virtual

/-- `k` bytes behind `p` in `m` and behind `q` in `m'` are the same. -/
def SameBytes (m m' : Machine) (p q k : Nat) : Prop :=
  ∀ i, i < k → ∃ b, readByte m (p + i) = .ok b ∧ readByte m' (q + i) = .ok b

/-- A block in use stands behind `p`. -/
def InUse (m : Machine) (p : Nat) : Prop :=
  ∃ hs, headers m = .ok hs ∧ ∃ b ∈ hs, b.free = false ∧ p = b.addr + sizeofBlock

section Bytes
variable {A : Space} {role role' : Nat → Role} {n n' : Nat} {V V' : Mem} {m m' : Machine} {b c : Block}
  {bs bs' : List Block}

theorem HeapInv.inUse_iff (h : HeapInv A role n V bs m) (p : Nat) :
    InUse m p ↔ ∃ b ∈ bs, b.free = false ∧ p = b.addr + 32 := by
  constructor
  · rintro ⟨hs, hhs, b, hb, hfree, rfl⟩
    rw [h.headers] at hhs
    cases hhs
    exact ⟨_, mem_headersOf hb, hfree, rfl⟩
  · rintro ⟨b, hb, hfree, rfl⟩
    obtain ⟨d, hd, haddr, _, hdfree⟩ := exists_header hb null null
    exact ⟨_, h.headers, d, hd, hdfree.trans hfree, by rw [haddr, sizeofBlock]⟩

/-- Bytes of two blocks that the flat memories agree on. -/
theorem HeapInv.sameBytes (h : HeapInv A role n V bs m) (h' : HeapInv A role' n' V' bs' m') (hb : b ∈ bs)
    (hc : c ∈ bs') {k : Nat} (hkb : k ≤ b.size) (hkc : k ≤ c.size)
    (hsame : ∀ i, i < k → V' (c.addr + 32 + i) = V (b.addr + 32 + i)) :
    SameBytes m m' (b.addr + 32) (c.addr + 32) k := by
  intro i hi
  obtain ⟨hbase, hend, _⟩ := h.bounds hb
  obtain ⟨hbase', hend', _⟩ := h'.bounds hc
  refine ⟨_, h.bytes _ (by omega) (by omega), ?_⟩
  rw [h'.bytes _ (by omega) (by omega), hsame i hi]

/-- A block that is preserved is in use as before, and holds what it held. -/
theorem HeapInv.preserved (h : HeapInv A role n V bs m) (h' : HeapInv A role' n' V' bs' m') {x : Nat}
    (hpres : Preserves x bs bs' V V') (hb : b ∈ bs) (hfree : b.free = false) (hx : b.addr ≠ x) :
    InUse m' (b.addr + 32) ∧ Heap.payload m' (b.addr + 32) = .ok b.size ∧
      SameBytes m m' (b.addr + 32) (b.addr + 32) b.size := by
  obtain ⟨hb', hold⟩ := hpres b hb hfree hx
  exact ⟨(h'.inUse_iff _).mpr ⟨b, hb', hfree, rfl⟩, h'.payload hb',
    h.sameBytes h' hb hb' (Nat.le_refl _) (Nat.le_refl _) hold⟩

/-- So are live pointers, but for that of the block at `x`. -/
theorem Held.preserved {w : HeapRun} (h : Held A role n V bs w) (h' : HeapInv A role' n' V' bs' m') {x : Nat}
    (hpres : Preserves x bs bs' V V') {q k : Nat} (hq : w.Live q) (hx : q ≠ x + 32)
    (hpay : Heap.payload w.machine q = .ok k) :
    InUse m' q ∧ Heap.payload m' q = .ok k ∧ SameBytes w.machine m' q q k := by
  obtain ⟨b, hb, hfree, rfl⟩ := h.block hq
  rw [h.toHeapInv.payload hb] at hpay
  cases hpay
  exact h.toHeapInv.preserved h' hpres hb hfree fun heq => hx (by rw [heq])

end Bytes

/-- **`krealloc` keeps the data**, in every state of every run. A result has room for
`size` bytes and holds the old ones, as far as they fit, and the old pointer is not in use
any more unless it is the result; with a null result the list is as it was; and all other
pointers keep their bytes. -/
theorem krealloc_keeps_data (B : HeapBoot) {w : HeapRun} (h : (heap B).Reachable w) {ptr s size p : Nat}
    {m : Machine} (hptr : w.Live ptr) (hs : payload w.machine ptr = .ok s) (hpos : 0 < size)
    (hlt : size < 2 ^ 63) (hk : krealloc w.machine ptr size = .ok (p, m)) :
    (p ≠ null → InUse m p ∧ (∃ k, payload m p = .ok k ∧ size ≤ k) ∧ SameBytes w.machine m ptr p (min s size) ∧
      (p ≠ ptr → ¬ InUse m ptr)) ∧
    (p = null → headers m = headers w.machine ∧ InUse m ptr ∧ payload m ptr = .ok s ∧
      SameBytes w.machine m ptr ptr s) ∧
    (∀ q k, w.Live q → q ≠ ptr → payload w.machine q = .ok k →
      InUse m q ∧ payload m q = .ok k ∧ SameBytes w.machine m q q k) := by
  obtain ⟨A, role, n, V, bs, _, hw⟩ := held_reachable h
  obtain ⟨b, hb, hfree, rfl⟩ := hw.block hptr
  rw [hw.toHeapInv.payload hb] at hs
  cases hs
  have hne : b.addr + 32 ≠ null := (hw.ptr hb).1
  rcases hw.toHeapInv.krealloc_ok hb hfree (Nat.ne_of_gt hpos) (le_maxRequest hlt) hk with
    ⟨rfl, rfl, hle⟩ | ⟨rfl, role', n', V', h', hpres⟩ |
    ⟨role', n', V', m', c, xs, ys, hr, _, h', hpres, hc, hcfree, hcsize, _, hfreed, hcopied⟩
  · -- the block is large enough
    obtain ⟨hin, hpay, hsame⟩ := hw.toHeapInv.preserved hw.toHeapInv (.refl null bs V) hb hfree (hw.ne_null hb)
    refine ⟨fun _ => ⟨hin, ⟨_, hpay, hle⟩, fun i hi => hsame i (by omega), fun hself => absurd rfl hself⟩,
      fun hnull => absurd hnull hne,
      fun q k hq hqne hpay => hw.preserved hw.toHeapInv (.refl b.addr bs V) hq hqne hpay⟩
  · -- no block was found
    have hothers : Preserves b.addr bs bs V V' := fun d hd hu _ => hpres d hd hu (hw.ne_null hd)
    obtain ⟨hin, hpay, hsame⟩ := hw.toHeapInv.preserved h' hpres hb hfree (hw.ne_null hb)
    exact ⟨fun hnull => absurd rfl hnull, fun _ => ⟨h'.headers.trans hw.toHeapInv.headers.symm, hin, hpay, hsame⟩,
      fun q k hq hqne hpay => hw.preserved h' hothers hq hqne hpay⟩
  · -- the block was moved
    cases hr
    refine ⟨fun _ => ⟨(h'.inUse_iff _).mpr ⟨c, hc, hcfree, rfl⟩, ⟨_, h'.payload hc, hcsize⟩, ?_, ?_⟩,
      fun hnull => absurd hnull (h'.ptr hc).1, fun q k hq hqne hpay => hw.preserved h' hpres hq hqne hpay⟩
    · refine hw.toHeapInv.sameBytes h' hb hc (Nat.min_le_left _ _) ?_ fun i hi => hcopied i (by omega)
      exact Nat.le_trans (Nat.min_le_right _ _) hcsize
    · rintro _ hin
      obtain ⟨d, hd, hdfree, hdptr⟩ := (h'.inUse_iff _).mp hin
      have := (hfreed d hd hdfree).2
      omega

/-- It is moved when 200 bytes are asked for. -/
theorem krealloc_keeps_data_flatHeap : ∃ (w : HeapRun) (p q : Nat) (m : Machine), w.Live p ∧
    payload w.machine p = .ok 112 ∧ krealloc w.machine p 200 = .ok (q, m) ∧ q ≠ null ∧
    SameBytes w.machine m p q 112 ∧ (q ≠ p → ¬ InUse m p) := by
  obtain ⟨A, role, V, m, hw, hheld⟩ := flatHeap_one (n := 64) (by decide) (by decide)
  have hinv := hheld.toHeapInv
  have hb : (⟨heapBase, 112, false⟩ : Block) ∈ [⟨heapBase, 112, false⟩, ⟨heapBase + 144, 65360, true⟩] :=
    List.mem_cons_self
  obtain ⟨_, _, _, m', c, _, _, hk, _, h', _, hc, _⟩ := hinv.krealloc_moves hb rfl (show 200 ≠ 0 by decide)
    (by decide) (by decide) (hinv.kmalloc_exact (by decide) (by decide) (.inl (by unfold SomeFits; decide)))
  have hlive : HeapRun.Live ⟨m, [(heapBase + 32, 100)]⟩ (heapBase + 32) := ⟨100, List.mem_cons_self⟩
  have hpay := hinv.payload hb
  dsimp only at hpay hk
  have hne : c.addr + 32 ≠ null := (h'.ptr hc).1
  obtain ⟨hmoved, _, _⟩ := krealloc_keeps_data _ hw hlive hpay (by decide) (by decide) hk
  obtain ⟨_, _, hsame, hgone⟩ := hmoved hne
  exact ⟨_, _, _, m', hlive, hpay, hk, hne, hsame, hgone⟩

end ArcMonark.Mm.Heap
