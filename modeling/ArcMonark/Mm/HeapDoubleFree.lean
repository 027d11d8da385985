import ArcMonark.Mm.HeapSafety

/-! Freeing a pointer twice (`kfree`).

`kfree` returns at once when the block's flag says that it is free. Once neighbouring
free blocks are joined, the header of a freed block may no longer be on the list; it lies
among the bytes of a larger free block then, and its flag is *stale*. No call of `kfree`
and no client writes there (`Stale`), so that the flag stays set until something is
allocated. -/
namespace ArcMonark.Mm.Heap
open Library Pmm Vmm Virtual
open Block (Laid Settled used coalesce)

/-! ### Sequences of frees -/

/-- A heap whose clients free, and what they have freed so far. -/
structure Freeing where
  run : HeapRun
  freed : List Nat

inductive FreeEvent where
  | free (ptr : Nat)
  /-- A client writes to a byte of a live block. -/
  | write (ptr i : Nat) (b : Byte)

inductive FreeStep (s : Freeing) : FreeEvent → Freeing → Prop where
  | live {ptr m} : s.run.Live ptr → kfree s.run.machine ptr = .ok m →
      FreeStep s (.free ptr) ⟨⟨m, forget ptr s.run.live⟩, ptr :: s.freed⟩
  | again {ptr m} : ptr ∈ s.freed → kfree s.run.machine ptr = .ok m →
      FreeStep s (.free ptr) ⟨⟨m, s.run.live⟩, s.freed⟩
  | write {ptr k i b m} : s.run.Live ptr → getSize s.run.machine (ptr - sizeofBlock) = .ok k → i < k →
      writeByte s.run.machine (ptr + i) b = .ok m → FreeStep s (.write ptr i b) ⟨⟨m, s.run.live⟩, s.freed⟩

/-- From `w` on, nothing is allocated. -/
def frees (w : HeapRun) : System Freeing FreeEvent where
  init s := s = ⟨w, []⟩
  step := FreeStep

/-! ### Stale headers -/

/-- The byte at `a` is in the block's header, or in the bytes of a block in use. -/
def Covers (d : Block) (a : Nat) : Prop := d.addr ≤ a ∧ a < d.addr + 32 + (if d.free then 0 else d.size)

/-- A freed header: its flag is set, and no other block covers that. -/
structure Stale (n : Nat) (V : Mem) (bs : List Block) (q : Nat) : Prop where
  inHeap : InHeap n q
  flag : V (q + 8) ≠ 0
  apart : ∀ d ∈ bs, d.free = true ∧ d.addr = q ∨ ¬ Covers d (q + 8)

section Stale
variable {A : Space} {role : Nat → Role} {n q : Nat} {V V' : Mem} {b c d : Block} {bs xs ys : List Block} {m : Machine}

theorem covers_used (hd : d.free = false) {a : Nat} : Covers d a ↔ d.addr ≤ a ∧ a < d.addr + 32 + d.size := by
  unfold Covers
  rw [hd]
  rfl

theorem covers_free (hd : d.free = true) {a : Nat} : Covers d a ↔ d.addr ≤ a ∧ a < d.addr + 32 := by
  unfold Covers
  rw [hd]
  rfl

/-- A header is covered in any case. -/
theorem covers_header {a : Nat} (h : d.addr ≤ a ∧ a < d.addr + 32) : Covers d a := by
  unfold Covers
  split <;> omega

/-- A block in use does not cover a stale flag. -/
theorem Stale.used_apart (h : Stale n V bs q) (hb : b ∈ bs) (hu : b.free = false) :
    q + 8 < b.addr ∨ b.addr + 32 + b.size ≤ q + 8 := by
  rcases h.apart b hb with ⟨hfree, _⟩ | hnot
  · rw [hu] at hfree
    cases hfree
  · rw [covers_used hu] at hnot
    omega

/-- `kfree` returns at once on a stale header. -/
theorem Stale.kfree (h : Stale n V bs q) (hflat : Flat A role n V m) : kfree m (q + 32) = .ok m := by
  have hhigh := h.inHeap.2
  have hcount := hflat.count
  have htop := hflat.pageAddr_lt (k := n) (by omega)
  unfold sizeofBlock at hhigh
  have hne : q + 32 ≠ null := by
    unfold null
    omega
  have hptr : sub64 (q + 32) sizeofBlock = q := sub64_eq (Nat.le_add_left _ _) (by omega)
  have hflag : (V (q + 8) != 0#8) = true := by simpa using h.flag
  simp only [Heap.kfree, if_neg hne, hptr, hflat.getFree h.inHeap, ok_bind, hflag, if_true]
  rfl

/-- Where a block of the list that `kfree` leaves comes from. -/
theorem freed_origin (hd : d ∈ freed xs b ys) : d ∈ xs ++ ⟨b.addr, b.size, true⟩ :: ys ∨
    d.free = true ∧ ∃ e ∈ xs ++ ⟨b.addr, b.size, true⟩ :: ys, e.free = true ∧ e.addr = d.addr :=
  Block.mem_coalesce hd

/-- What no block covers before `kfree` no block covers afterwards. -/
theorem apart_freed (hapart : ∀ d ∈ xs ++ ⟨b.addr, b.size, true⟩ :: ys, d.free = true ∧ d.addr = q ∨ ¬ Covers d (q + 8))
    (hd : d ∈ freed xs b ys) : d.free = true ∧ d.addr = q ∨ ¬ Covers d (q + 8) := by
  rcases freed_origin hd with hd | ⟨hfree, e, he, hefree, haddr⟩
  · exact hapart d hd
  · rcases hapart e he with ⟨_, heq⟩ | hnot
    · exact .inl ⟨hfree, haddr ▸ heq⟩
    · rw [covers_free hefree, haddr] at hnot
      rw [covers_free hfree]
      exact .inr hnot

/-- **A stale header stays stale** when another block is freed. -/
theorem Stale.freed (h : Stale n V (xs ++ b :: ys) q) (hu : b.free = false)
    (hstill : Still (xs ++ b :: ys) (flagged V b true) V') : Stale n V' (freed xs b ys) q := by
  have hb := h.used_apart (b := b) (by simp) hu
  refine ⟨h.inHeap, ?_, fun d hd => apart_freed (fun d hd => ?_) hd⟩
  · rw [hstill (q + 8) fun d hd => ?_, flagged, Mem.set_ne _ _ (by omega)]
    · exact h.flag
    · rcases h.apart d hd with ⟨_, rfl⟩ | hnot
      · exact .inr (.inr rfl)
      · by_contra hin
        exact hnot (covers_header (by omega))
  · simp only [List.mem_append, List.mem_cons] at hd
    rcases hd with hd | rfl | hd
    · exact h.apart d (by simp [hd])
    · refine .inr fun hcovers => ?_
      rw [covers_free rfl] at hcovers
      dsimp only at hcovers
      omega
    · exact h.apart d (by simp [hd])

/-- The header of the block that is freed becomes stale. -/
theorem Listed.stale (h : Listed A role n V (xs ++ b :: ys) m)
    (hstill : Still (xs ++ b :: ys) (flagged V b true) V') : Stale n V' (freed xs b ys) b.addr := by
  obtain ⟨hb, hxs, hys⟩ := h.around
  refine ⟨h.inHeap hb, ?_, fun d hd => apart_freed (fun d hd => ?_) hd⟩
  · rw [hstill (b.addr + 8) fun d hd => ?_, flagged, Mem.set_same]
    · decide
    · simp only [List.mem_append, List.mem_cons] at hd
      rcases hd with hd | rfl | hd
      · have := hxs d hd
        omega
      · exact .inr (.inr rfl)
      · have := hys d hd
        omega
  · simp only [List.mem_append, List.mem_cons] at hd
    rcases hd with hd | rfl | hd
    · have := hxs d hd
      refine .inr fun hcovers => ?_
      unfold Covers at hcovers
      split at hcovers <;> omega
    · exact .inl ⟨rfl, rfl⟩
    · have := hys d hd
      refine .inr fun hcovers => ?_
      unfold Covers at hcovers
      omega

/-- Clients write to blocks in use. -/
theorem Stale.write (h : Stale n V bs q) (hb : b ∈ bs) (hu : b.free = false) {i : Nat} (hi : i < b.size) (v : Byte) :
    Stale n (V.set (b.addr + 32 + i) v) bs q := by
  have hapart := h.used_apart hb hu
  refine ⟨h.inHeap, ?_, h.apart⟩
  rw [Mem.set_ne _ _ (by omega)]
  exact h.flag

end Stale

/-! ### Every state of a sequence -/

/-- The heap's invariant, and the header of each freed pointer is stale. -/
structure Freed (A : Space) (role : Nat → Role) (n : Nat) (V : Mem) (bs : List Block) (s : Freeing) : Prop
    extends Held A role n V bs s.run where
  stale : ∀ p ∈ s.freed, ∃ q, p = q + 32 ∧ Stale n V bs q

theorem freed_step {A : Space} {role : Nat → Role} {n : Nat} {V : Mem} {bs : List Block} {s s' : Freeing}
    {e : FreeEvent} (h : Freed A role n V bs s) (hs : FreeStep s e s') : ∃ V' bs', Freed A role n V' bs' s' := by
  cases hs with
  | @live ptr m hlive hk =>
    obtain ⟨xs, b, ys, V', ram, u, rfl, hu, rfl, hr, hheld, _, hstill⟩ := h.toHeld.kfree hlive
    rw [hr] at hk
    cases hk
    refine ⟨V', _, hheld, fun p hp => ?_⟩
    rcases List.mem_cons.mp hp with rfl | hp
    · exact ⟨b.addr, rfl, h.toListed.stale hstill⟩
    · obtain ⟨q, rfl, hq⟩ := h.stale p hp
      exact ⟨q, rfl, hq.freed hu hstill⟩
  | @again ptr m hfreed hk =>
    obtain ⟨q, rfl, hq⟩ := h.stale ptr hfreed
    rw [hq.kfree h.toFlat] at hk
    cases hk
    exact ⟨V, bs, h⟩
  | @write ptr k i v m hlive hsize hi hk =>
    obtain ⟨b, hb, hu, rfl⟩ := h.block hlive
    have hget : getSize s.run.machine b.addr = .ok b.size := (h.ptr hb).2.2
    have haddr : b.addr + 32 - sizeofBlock = b.addr := Nat.add_sub_cancel _ _
    rw [haddr, hget] at hsize
    cases hsize
    obtain ⟨ram, hr, h'⟩ := h.toHeapInv.clientWrite hb hi v
    rw [hr] at hk
    cases hk
    refine ⟨_, bs, ⟨h', h.live, h.distinct⟩, fun p hp => ?_⟩
    obtain ⟨q, rfl, hq⟩ := h.stale p hp
    exact ⟨q, rfl, hq.write hb hu hi v⟩

/-- **A double free is harmless** until something is allocated: from any reachable heap,
after any sequence of frees and client writes, to free again what was freed in it changes
nothing. -/
theorem double_free_harmless (B : HeapBoot) {w : HeapRun} (hw : (heap B).Reachable w) {s : Freeing}
    (hs : (frees w).Reachable s) {p : Nat} (hp : p ∈ s.freed) : kfree s.run.machine p = .ok s.run.machine := by
  obtain ⟨A, role, n, V, bs, _, hheld⟩ := held_reachable hw
  obtain ⟨V', bs', h⟩ : ∃ V' bs', Freed A role n V' bs' s := by
    refine System.invariant (P := fun s => ∃ V' bs', Freed A role n V' bs' s) ?_ ?_ hs
    · rintro _ rfl
      exact ⟨V, bs, hheld, fun p hp => nomatch hp⟩
    · rintro s e s' ⟨V', bs', h⟩ hstep
      exact freed_step h hstep
  obtain ⟨q, rfl, hq⟩ := h.stale p hp
  exact hq.kfree h.toFlat

/-- Two neighbours of a plain machine are freed. The header of the second is no longer on the list,
and the second is freed again. -/
theorem double_free_harmless_flatHeap : ∃ (w : HeapRun) (s : Freeing),
    w.live = [(heapBase + 176, 200), (heapBase + 32, 100)] ∧ (frees w).Reachable s ∧
    s.freed = [heapBase + 176, heapBase + 32] ∧
    headers s.run.machine = .ok [⟨heapBase, 65504, true, null, null⟩] ∧
    kfree s.run.machine (heapBase + 176) = .ok s.run.machine := by
  obtain ⟨A, role, V, m, hw, hheld⟩ := flatHeap_two (n := 64) (by decide) (by decide)
  rw [← List.nil_append (_ :: _)] at hheld
  obtain ⟨V₁, ram₁, u₁, hk₁, h₁, _⟩ := hheld.kfree_at rfl
  have hlist₁ : freed [] ⟨heapBase, 112, false⟩ [⟨heapBase + 144, 208, false⟩, ⟨heapBase + 384, 65120, true⟩] =
      [⟨heapBase, 112, true⟩] ++ ⟨heapBase + 144, 208, false⟩ :: [⟨heapBase + 384, 65120, true⟩] := by decide
  rw [hlist₁] at h₁
  obtain ⟨V₂, ram₂, u₂, hk₂, h₂, _⟩ := h₁.kfree_at rfl
  have hlist₂ : freed [⟨heapBase, 112, true⟩] ⟨heapBase + 144, 208, false⟩ [⟨heapBase + 384, 65120, true⟩] =
      [⟨heapBase, 65504, true⟩] := by decide
  rw [hlist₂] at h₂
  have hone := System.Reachable.step (S := frees _) (.start rfl)
    (FreeStep.live ⟨100, List.mem_cons_of_mem _ List.mem_cons_self⟩ hk₁)
  have htwo := hone.step (FreeStep.live ⟨200, mem_forget.mpr ⟨List.mem_cons_self, by decide⟩⟩ hk₂)
  exact ⟨_, _, rfl, htwo, rfl, h₂.toHeapInv.headers, double_free_harmless _ hw htwo List.mem_cons_self⟩

end ArcMonark.Mm.Heap
