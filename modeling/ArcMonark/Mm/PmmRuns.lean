import ArcMonark.Mm.PmmInit
import ArcMonark.Library.Runs

/-! Runs of the frame allocator.

After `pmm_init` frames are handed out and given back in any order. `Allocator`
is the invariant; what a caller may rely on (`frame_allocator_safe`) is read off
it in every state of every run. -/
namespace ArcMonark.Mm.Pmm
open Library

/-! ### One allocation, one release -/

/-- The search loop stops at the first free frame, if there is one. -/
theorem allocScan_cases (m : Machine) (i n : Nat) :
    (allocScan m i n = (null, m) ∧ ∀ k, i ≤ k → k < i + n → bmpTest m k = true) ∨
      ∃ f, i ≤ f ∧ f < i + n ∧ bmpTest m f = false ∧
        allocScan m i n = (f * pageSize, setFrame m f) := by
  induction n generalizing i with
  | zero => exact .inl ⟨rfl, fun k hk hlt => absurd hlt (by omega)⟩
  | succ n ih =>
    unfold allocScan
    cases hbit : bmpTest m i
    · exact .inr ⟨i, Nat.le_refl i, by omega, hbit, by simp⟩
    · rcases ih (i + 1) with ⟨hnone, hall⟩ | ⟨f, hle, hlt, hfree, hsome⟩
      · refine .inl ⟨by simpa using hnone, fun k hk hlt => ?_⟩
        by_cases hki : k = i
        · rw [hki, hbit]
        · exact hall k (by omega) (by omega)
      · exact .inr ⟨f, by omega, by omega, hfree, by simpa using hsome⟩

namespace Allocator
variable {P : PlacedMap} {m : Machine}

theorem zero_used (h : Allocator P m) (ht : 0 < m.totalFrames) : bmpTest m 0 = true := by
  cases hbit : bmpTest m 0
  · obtain ⟨⟨e, he, hu, hf⟩, _⟩ := h.free_usable 0 ht hbit
    exact absurd (P.holdsFrame_pos he hu hf) (Nat.lt_irrefl 0)
  · rfl

theorem total_le (h : Allocator P m) : m.totalFrames ≤ 2 ^ 40 := by
  rw [h.total_eq]
  exact P.total_le

/-- A byte of the stored bitmap lies in one of the bitmap's frames. -/
theorem inBitmap_byte (h : Allocator P m) {a : Nat} (hle : P.bitmapBase ≤ a)
    (hlt : a < P.bitmapBase + m.bitmapSize) : P.InBitmap (a / pageSize) := by
  apply P.inBitmap_of_byte hle
  have hsize := h.size
  rw [h.total_eq] at hsize
  show a < P.bitmapBase + (P.totalFrames + 7) / 8
  omega

/-- Setting a frame's bit changes bytes in the bitmap's frames only. -/
theorem setFrame_apart (h : Allocator P m) {f a : Nat} (hlt : f < m.totalFrames)
    (ha : ¬ P.InBitmap (a / pageSize)) : (Pmm.setFrame m f).ram a = m.ram a := by
  refine (h.toPlaced.setFrame_only hlt).outside a ?_
  by_contra hin
  push Not at hin
  exact ha (h.inBitmap_byte hin.1 hin.2)

/-- There is a free frame exactly when the counters say so. -/
theorem free_pos_iff (h : Allocator P m) :
    0 < pmmFreeFrames m ↔ ∃ f, f < m.totalFrames ∧ bmpTest m f = false := by
  have hle := h.used_le
  rw [← Bitmap.ones_lt_iff, ← h.used, h.free_eq]
  omega

/-- Both outcomes of `pmm_alloc_frame`. -/
theorem alloc_cases (h : Allocator P m) :
    (pmmFreeFrames m = 0 ∧ pmmAllocFrame m = (null, m)) ∨
      ∃ f, 0 < f ∧ f < m.totalFrames ∧ bmpTest m f = false ∧ 0 < pmmFreeFrames m ∧
        pmmAllocFrame m = (f * pageSize, setFrame m f) := by
  rcases allocScan_cases m 1 (m.totalFrames - 1) with ⟨hnone, hall⟩ | ⟨f, hle, hlt, hfree, hsome⟩
  · refine .inl ⟨?_, hnone⟩
    by_contra hpos
    obtain ⟨f, hf, hbit⟩ := h.free_pos_iff.mp (Nat.pos_of_ne_zero hpos)
    by_cases hzero : f = 0
    · rw [hzero, h.zero_used (by omega)] at hbit
      cases hbit
    · rw [hall f (by omega) (by omega)] at hbit
      cases hbit
  · have hf : f < m.totalFrames := by omega
    exact .inr ⟨f, by omega, hf, hfree, h.free_pos_iff.mpr ⟨f, hf, hfree⟩, hsome⟩

theorem setFrame (h : Allocator P m) {f : Nat} (hf : f < m.totalFrames)
    (hfree : bmpTest m f = false) : Allocator P (setFrame m f) := by
  refine ⟨h.toCounted.setFrame hf hfree, h.offset_eq, h.total_eq, fun g hg hbit => ?_⟩
  rw [h.toPlaced.bmpTest_setFrame hf hg, Bool.or_eq_false_iff] at hbit
  exact h.free_usable g hg hbit.2

theorem clearFrame (h : Allocator P m) {f : Nat} (hf : f < m.totalFrames)
    (hset : bmpTest m f = true) (husable : P.UsableFrame f) (hout : ¬ P.InBitmap f) :
    Allocator P (clearFrame m f) := by
  refine ⟨h.toCounted.clearFrame hf hset, h.offset_eq, h.total_eq, fun g hg hbit => ?_⟩
  rw [h.toPlaced.bmpTest_clearFrame hf hg] at hbit
  by_cases hgf : g = f
  · rw [hgf]
    exact ⟨husable, hout⟩
  · exact h.free_usable g hg (by simpa [hgf] using hbit)

/-- An allocation takes one frame from the free ones. -/
theorem free_setFrame (h : Allocator P m) {f : Nat} (hf : f < m.totalFrames)
    (hfree : bmpTest m f = false) :
    pmmFreeFrames (Pmm.setFrame m f) = pmmFreeFrames m - 1 := by
  have hlt := (h.free_pos_iff.mpr ⟨f, hf, hfree⟩)
  have htotal := h.total
  rw [h.free_eq] at hlt
  rw [(h.setFrame hf hfree).free_eq, h.free_eq]
  show m.totalFrames - add64 m.usedFrames 1 = _
  rw [add64_eq (by omega)]
  omega

/-- What `pmm_free_frame` does to a frame that is usable and no part of the bitmap. -/
theorem free (h : Allocator P m) {p : Nat} (husable : P.UsableFrame (p / pageSize))
    (hout : ¬ P.InBitmap (p / pageSize)) : Allocator P (pmmFreeFrame m p) := by
  have hf : p / pageSize < m.totalFrames := by
    rw [h.total_eq]
    exact husable.lt
  unfold pmmFreeFrame
  cases hbit : bmpTest m (p / pageSize)
  · simpa [hbit] using h
  · simpa [hbit] using h.clearFrame hf hbit husable hout

end Allocator

/-! ### Writes that are not the allocator's -/

/-- `m'` has the allocator's variables and the bitmap's bytes of `m`. -/
structure SameFrames (bp : Nat) (m m' : Machine) : Prop where
  offset : m'.hhdmOffset = m.hhdmOffset
  bitmap : m'.bitmap = m.bitmap
  total : m'.totalFrames = m.totalFrames
  used : m'.usedFrames = m.usedFrames
  size : m'.bitmapSize = m.bitmapSize
  bytes : ∀ a, bp ≤ a → a < bp + m.bitmapSize → m'.ram a = m.ram a

section SameFrames
variable {bp : Nat} {P : PlacedMap} {m m' : Machine}

theorem SameFrames.bmpTest (s : SameFrames bp m m') (h : Placed bp m) {f : Nat}
    (hf : f < m.totalFrames) : Pmm.bmpTest m' f = Pmm.bmpTest m f := by
  have hlt := h.byte_lt hf
  have hbyte : bmpByte m' f = bmpByte m f := by
    rw [bmpByte, bmpByte, Machine.direct, Machine.direct, s.offset, s.bitmap]
  rw [Pmm.bmpTest, Pmm.bmpTest, hbyte, h.bmpByte_eq hf, s.bytes _ (by omega) (by omega)]

theorem SameFrames.placed (s : SameFrames bp m m') (h : Placed bp m) : Placed bp m' := by
  refine ⟨?_, ?_, ?_, ?_, ?_⟩
  · rw [s.offset]
    exact h.offset
  · rw [s.bitmap, s.offset]
    exact h.bitmap
  · rw [s.size, s.total]
    exact h.size
  · rw [s.total]
    exact h.total
  · rw [s.size]
    exact h.room

/-- The allocator does not notice them. -/
theorem Allocator.same (h : Allocator P m) (s : SameFrames P.bitmapBase m m') : Allocator P m' := by
  have hbits : ∀ f, f < m.totalFrames → Pmm.bmpTest m' f = Pmm.bmpTest m f :=
    fun f hf => s.bmpTest h.toPlaced hf
  refine ⟨⟨s.placed h.toPlaced, ?_⟩, ?_, ?_, ?_⟩
  · rw [s.used, s.total, h.used]
    exact (Bitmap.ones_congr hbits).symm
  · rw [s.offset]
    exact h.offset_eq
  · rw [s.total]
    exact h.total_eq
  · intro f hf hfree
    rw [s.total] at hf
    rw [hbits f hf] at hfree
    exact h.free_usable f hf hfree

theorem SameFrames.free (s : SameFrames bp m m') : pmmFreeFrames m' = pmmFreeFrames m := by
  rw [pmmFreeFrames, pmmFreeFrames, s.total, s.used]

end SameFrames

/-! ### Runs -/

/-- The machine, the frames handed out so far and those not given back since. -/
structure FrameRun where
  machine : Machine
  out : List Nat
  held : List Nat

inductive FrameEvent where
  /-- A call of `pmm_alloc_frame` and what it returned. -/
  | alloc (frame : Nat)
  | free (frame : Nat)

inductive FrameStep : FrameRun → FrameEvent → FrameRun → Prop where
  | alloc {w p m} : pmmAllocFrame w.machine = (p, m) → p ≠ null →
      FrameStep w (.alloc p) ⟨m, p :: w.out, p :: w.held⟩
  | exhausted {w m} : pmmAllocFrame w.machine = (null, m) →
      FrameStep w (.alloc null) ⟨m, w.out, w.held⟩
  | free {w p} : p ∈ w.out →
      FrameStep w (.free p) ⟨pmmFreeFrame w.machine p, w.out, w.held.filter (· ≠ p)⟩

/-- `pmm_init` on the map `P`, then any calls that free handed-out frames only. -/
def frames (P : PlacedMap) (m₀ : Machine) : System FrameRun FrameEvent where
  init := fun w => pmmInit m₀ (some P.entries) (some P.offset) = .ok w.machine ∧ w.out = [] ∧ w.held = []
  step := FrameStep

/-- What is handed out is the address of a usable frame apart from the bitmap,
and what is held is marked used. -/
structure Handed (P : PlacedMap) (w : FrameRun) : Prop where
  allocator : Allocator P w.machine
  out : ∀ p ∈ w.out, p % pageSize = 0 ∧ P.UsableFrame (p / pageSize) ∧ ¬ P.InBitmap (p / pageSize)
  held_out : ∀ p ∈ w.held, p ∈ w.out
  held : ∀ p ∈ w.held, bmpTest w.machine (p / pageSize) = true

theorem frame_mod (f : Nat) : f * pageSize % pageSize = 0 := Nat.mul_mod_left _ _

theorem frame_div (f : Nat) : f * pageSize / pageSize = f := Nat.mul_div_cancel f (by decide)

/-- Held frames stay marked when a frame's bit is set. -/
theorem Handed.held_setFrame {P : PlacedMap} {w : FrameRun} (h : Handed P w) {f : Nat}
    (hf : f < w.machine.totalFrames) {p : Nat} (hp : p ∈ w.held) :
    bmpTest (setFrame w.machine f) (p / pageSize) = true := by
  have hlt : p / pageSize < w.machine.totalFrames := by
    rw [h.allocator.total_eq]
    exact (h.out p (h.held_out p hp)).2.1.lt
  rw [h.allocator.toPlaced.bmpTest_setFrame hf hlt, h.held p hp, Bool.or_true]

/-- Held frames stay marked when another frame is given back. -/
theorem Handed.held_free {P : PlacedMap} {w : FrameRun} (h : Handed P w) {p q : Nat}
    (hp : p ∈ w.out) (hq : q ∈ w.held) (hne : q ≠ p) :
    bmpTest (pmmFreeFrame w.machine p) (q / pageSize) = true := by
  obtain ⟨hpmod, hpu, _⟩ := h.out p hp
  obtain ⟨hqmod, hqu, _⟩ := h.out q (h.held_out q hq)
  have hpf : p / pageSize < w.machine.totalFrames := by rw [h.allocator.total_eq]; exact hpu.lt
  have hqf : q / pageSize < w.machine.totalFrames := by rw [h.allocator.total_eq]; exact hqu.lt
  have hframe : q / pageSize ≠ p / pageSize := by
    unfold pageSize at *
    omega
  unfold pmmFreeFrame
  cases hbit : bmpTest w.machine (p / pageSize)
  · simpa [hbit] using h.held q hq
  · simp only [hbit, Bool.not_true, Bool.false_eq_true, if_false]
    rw [h.allocator.toPlaced.bmpTest_clearFrame hpf hqf, h.held q hq]
    simp [hframe]

/-- A frame that is handed out is usable memory, not the bitmap's, and nobody holds it. -/
theorem Handed.alloc_fresh {P : PlacedMap} {w : FrameRun} (h : Handed P w) {p : Nat} {m : Machine}
    (halloc : pmmAllocFrame w.machine = (p, m)) (hne : p ≠ null) :
    p % pageSize = 0 ∧ P.UsableFrame (p / pageSize) ∧ ¬ P.InBitmap (p / pageSize) ∧
      bmpTest w.machine (p / pageSize) = false ∧ p ∉ w.held := by
  rcases h.allocator.alloc_cases with ⟨_, hnull⟩ | ⟨f, _, hlt, hfree, _, hsome⟩
  · rw [hnull] at halloc
    cases halloc
    exact absurd rfl hne
  · rw [hsome] at halloc
    cases halloc
    obtain ⟨husable, hout⟩ := h.allocator.free_usable f hlt hfree
    rw [frame_mod, frame_div]
    refine ⟨rfl, husable, hout, hfree, fun hheld => ?_⟩
    have hset := h.held _ hheld
    rw [frame_div, hfree] at hset
    cases hset

theorem handed_step {P : PlacedMap} {w w' : FrameRun} {i : FrameEvent} (h : Handed P w)
    (hs : FrameStep w i w') : Handed P w' := by
  cases hs with
  | @alloc p m halloc hne =>
    rcases h.allocator.alloc_cases with ⟨_, hnull⟩ | ⟨f, _, hlt, hfree, _, hsome⟩
    · rw [hnull] at halloc
      cases halloc
      exact absurd rfl hne
    · rw [hsome] at halloc
      cases halloc
      have husable := h.allocator.free_usable f hlt hfree
      refine ⟨h.allocator.setFrame hlt hfree, ?_, ?_, ?_⟩
      · intro p hp
        rcases List.mem_cons.mp hp with rfl | hp
        · rw [frame_mod, frame_div]
          exact ⟨rfl, husable⟩
        · exact h.out p hp
      · intro p hp
        rcases List.mem_cons.mp hp with rfl | hp
        · exact List.mem_cons_self
        · exact List.mem_cons_of_mem _ (h.held_out p hp)
      · intro p hp
        rcases List.mem_cons.mp hp with rfl | hp
        · rw [frame_div, h.allocator.toPlaced.bmpTest_setFrame hlt hlt]
          simp
        · exact h.held_setFrame hlt hp
  | @exhausted m halloc =>
    rcases h.allocator.alloc_cases with ⟨_, hnull⟩ | ⟨f, hpos, _, _, _, hsome⟩
    · rw [hnull] at halloc
      cases halloc
      exact h
    · rw [hsome] at halloc
      have hzero : f * pageSize = 0 := congrArg Prod.fst halloc
      unfold pageSize at hzero
      omega
  | @free p hp =>
    obtain ⟨_, husable, hout⟩ := h.out p hp
    refine ⟨h.allocator.free husable hout, h.out, ?_, ?_⟩
    · intro q hq
      exact h.held_out q (List.mem_filter.mp hq).1
    · intro q hq
      obtain ⟨hq, hne⟩ := List.mem_filter.mp hq
      exact h.held_free hp hq (by simpa using hne)

theorem handed_reachable {P : PlacedMap} {m₀ : Machine} {w : FrameRun}
    (h : (frames P m₀).Reachable w) : Handed P w := by
  refine System.invariant (P := Handed P) ?_ (fun _ _ _ h hs => handed_step h hs) h
  rintro ⟨m, out, held⟩ ⟨hinit, rfl, rfl⟩
  obtain ⟨m', hm', halloc, _⟩ := pmmInit_ok P m₀
  rw [hm'] at hinit
  cases hinit
  exact ⟨halloc, (fun _ h => nomatch h), (fun _ h => nomatch h), (fun _ h => nomatch h)⟩

/-- **The frame allocator is safe and its accounts are right** in every state of
every run: the used count is the number of set bits; a frame it hands out is
aligned, not null, inside a usable entry, apart from the bitmap, unmarked until
now and not held by anyone; and it has none to hand out exactly when the free
count is zero. -/
theorem frame_allocator_safe (P : PlacedMap) (m₀ : Machine) {w : FrameRun}
    (h : (frames P m₀).Reachable w) :
    pmmUsedFrames w.machine = Bitmap.ones (bmpTest w.machine) (pmmTotalFrames w.machine) ∧
      (∀ p m, pmmAllocFrame w.machine = (p, m) → p ≠ null →
        p % pageSize = 0 ∧ P.UsableFrame (p / pageSize) ∧ ¬ P.InBitmap (p / pageSize) ∧
          bmpTest w.machine (p / pageSize) = false ∧ p ∉ w.held) ∧
      ((pmmAllocFrame w.machine).1 = null ↔ pmmFreeFrames w.machine = 0) := by
  have hw := handed_reachable h
  refine ⟨hw.allocator.used, ?_, ?_⟩
  · exact fun p m halloc hne => hw.alloc_fresh halloc hne
  · rcases hw.allocator.alloc_cases with ⟨hzero, hnull⟩ | ⟨f, hpos, _, _, hfreePos, hsome⟩
    · rw [hnull]
      exact ⟨fun _ => hzero, fun _ => rfl⟩
    · rw [hsome]
      constructor
      · intro hframe
        have hzero : f * pageSize = 0 := hframe
        unfold pageSize at hzero
        omega
      · intro hzero
        omega

/-- Four usable pages, the first of which takes the bitmap. -/
def smallMap : PlacedMap where
  entries := [⟨0x1000, 0x4000, limineMemmapUsable⟩, ⟨0x5000, 0x1000, 1⟩]
  offset := 0xFFFF800000000000
  offset_lt := by decide
  aligned := by decide
  apart := by simp [MemmapEntry.Usable, limineMemmapUsable]
  above := by decide
  physical := by decide
  fits := by decide

/-- The allocator on that map, after `pmm_init`. -/
def smallMachine : Machine :=
  match pmmInit (.fresh (fun _ => 0) 0) (some smallMap.entries) (some smallMap.offset) with
  | .ok m => m
  | .error _ => .fresh (fun _ => 0) 0

/-- Two frames are handed out, and the first is given back. -/
def smallMachineFreed : Machine :=
  pmmFreeFrame (pmmAllocFrame (pmmAllocFrame smallMachine).2).2 0x2000

/-- The first frame is given back once more, while the second is held. -/
theorem smallMachine_reachable :
    (frames smallMap (.fresh (fun _ => 0) 0)).Reachable
      ⟨pmmFreeFrame smallMachineFreed 0x2000, [0x3000, 0x2000], [0x3000]⟩ := by
  have hstart : (frames smallMap (.fresh (fun _ => 0) 0)).Reachable ⟨smallMachine, [], []⟩ :=
    .start ⟨rfl, rfl, rfl⟩
  have hfirst := hstart.step (.alloc (p := 0x2000) (Prod.ext (by decide) rfl) (by decide))
  have hsecond := hfirst.step (.alloc (p := 0x3000) (Prod.ext (by decide) rfl) (by decide))
  have hfreed := hsecond.step (.free (p := 0x2000) (by decide))
  exact hfreed.step (.free (p := 0x2000) (by decide))

theorem frame_allocator_safe_smallMap :
    let m := pmmFreeFrame smallMachineFreed 0x2000
    pmmUsedFrames m = Bitmap.ones (bmpTest m) (pmmTotalFrames m) ∧
      (∀ p m', pmmAllocFrame m = (p, m') → p ≠ null →
        p % pageSize = 0 ∧ smallMap.UsableFrame (p / pageSize) ∧ ¬ smallMap.InBitmap (p / pageSize) ∧
          bmpTest m (p / pageSize) = false ∧ p ∉ [0x3000]) ∧
      ((pmmAllocFrame m).1 = null ↔ pmmFreeFrames m = 0) :=
  frame_allocator_safe smallMap (.fresh (fun _ => 0) 0) smallMachine_reachable

end ArcMonark.Mm.Pmm
