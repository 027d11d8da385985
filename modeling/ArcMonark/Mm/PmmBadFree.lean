import ArcMonark.Mm.PmmMaps
import ArcMonark.Mm.PmmRuns

/-! Bad frees (`pmm_free_frame`).

`pmm_free_frame` tests one bit, whose place it computes from the address it is given, and
takes any address whose bit is set. `bad_free_rejected_iff` says which addresses it
rejects: those whose bit is one of the bitmap's and clear. As long as no other bad address
is given to it, frames that are handed out are usable memory. -/
namespace ArcMonark.Mm.Pmm
open Library

/-! ### Any calls -/

inductive CallStep : FrameRun → FrameEvent → FrameRun → Prop where
  | alloc {w p m} : pmmAllocFrame w.machine = (p, m) → p ≠ null →
      CallStep w (.alloc p) ⟨m, p :: w.out, p :: w.held⟩
  | exhausted {w m} : pmmAllocFrame w.machine = (null, m) →
      CallStep w (.alloc null) ⟨m, w.out, w.held⟩
  /-- Any address is given to `pmm_free_frame`. -/
  | free {w p} : p < 2 ^ 64 → CallStep w (.free p) ⟨pmmFreeFrame w.machine p, w.out, w.held.filter (· ≠ p)⟩

/-- `pmm_init` on the map `P`, then any calls at all. -/
def calls (P : PlacedMap) (m₀ : Machine) : System FrameRun FrameEvent where
  init := (frames P m₀).init
  step := CallStep

/-- The call reads a byte of the bitmap and changes nothing. -/
def Rejects (P : PlacedMap) (m : Machine) (p : Nat) : Prop :=
  (P.bitmapBase ≤ bmpByte m (p / pageSize) ∧ bmpByte m (p / pageSize) < P.bitmapBase + m.bitmapSize) ∧
    pmmFreeFrame m p = m

/-- The bit of the address is one of the bitmap's, and clear. -/
def BitClear (m : Machine) (p : Nat) : Prop :=
  p / pageSize / 8 < m.bitmapSize ∧ bmpTest m (p / pageSize) = false

/-- An address that `pmm_free_frame` may be given in this state. -/
def FreeFits (w : FrameRun) (p : Nat) : Prop := p ∈ w.held ∨ BitClear w.machine p

/-- An address is given to `pmm_free_frame` only if it may be. -/
def CallFits (w : FrameRun) : FrameEvent → Prop
  | .alloc _ => True
  | .free p => FreeFits w p

section Calls
variable {P : PlacedMap} {m : Machine} {w w' : FrameRun} {p : Nat} {i : FrameEvent}

/-! ### One call -/

/-- A bit that has been cleared is clear, wherever it is. -/
theorem bmpTest_clearFrame_same (m : Machine) (f : Nat) : bmpTest (clearFrame m f) f = false := by
  have hbyte : bmpByte (clearFrame m f) f = bmpByte m f := rfl
  have hmask : ∀ x k : Byte, x &&& ~~~k &&& k = 0#8 := fun x k => by
    rw [BitVec.and_assoc, BitVec.and_comm (~~~k), BitVec.and_not_self]
    exact BitVec.and_zero
  rw [bmpTest, hbyte]
  simp only [clearFrame, bmpClear, Mem.set_same, hmask]
  rfl

/-- The call changes nothing exactly when the bit is clear. -/
theorem free_unchanged_iff (m : Machine) (p : Nat) :
    pmmFreeFrame m p = m ↔ bmpTest m (p / pageSize) = false := by
  unfold pmmFreeFrame
  cases hbit : bmpTest m (p / pageSize) with
  | false => simp [hbit]
  | true =>
    simp only [hbit, Bool.not_true, Bool.false_eq_true, if_false, Bool.true_eq_false, iff_false]
    intro hsame
    have hclear := bmpTest_clearFrame_same m (p / pageSize)
    rw [hsame, hbit] at hclear
    cases hclear

/-- The byte that is read is as far behind the bitmap's first as the frame's number says. -/
theorem bmpByte_far (h : Placed P.bitmapBase m) {f : Nat} (hf : f < 2 ^ 52) : bmpByte m f = P.bitmapBase + f / 8 := by
  obtain ⟨e, he, hu, hbase, _⟩ := P.toHoldingMap.bitmap_inside
  have hend := P.physical e he hu
  have hstart : P.bitmapBase = e.base := hbase
  rw [bmpByte, Machine.direct, h.bitmap]
  exact sub64_add64_add64 (by omega) h.offset

theorem rejects_iff (h : Placed P.bitmapBase m) (hp : p < 2 ^ 64) : Rejects P m p ↔ BitClear m p := by
  have hf : p / pageSize < 2 ^ 52 := Nat.div_lt_of_lt_mul hp
  rw [Rejects, BitClear, free_unchanged_iff, bmpByte_far h hf]
  exact and_congr_left fun _ => ⟨fun hin => Nat.lt_of_add_lt_add_left hin.2,
    fun hlt => ⟨Nat.le_add_right _ _, Nat.add_lt_add_left hlt _⟩⟩

/-! ### Runs -/

/-- A call sets a bit, clears one, or does nothing. -/
theorem CallStep.keeps {Q : Machine → Prop} (hset : ∀ m f, Q m → Q (setFrame m f))
    (hclear : ∀ m f, Q m → Q (clearFrame m f)) (h : Q w.machine) (hs : CallStep w i w') : Q w'.machine := by
  have halloc : Q (pmmAllocFrame w.machine).2 := by
    rcases allocScan_cases w.machine 1 (w.machine.totalFrames - 1) with ⟨hnone, _⟩ | ⟨f, _, _, _, hsome⟩
    · rw [pmmAllocFrame, hnone]
      exact h
    · rw [pmmAllocFrame, hsome]
      exact hset _ f h
  cases hs with
  | alloc heq _ => rwa [heq] at halloc
  | exhausted heq => rwa [heq] at halloc
  | free _ =>
    show Q (pmmFreeFrame w.machine _)
    unfold pmmFreeFrame
    dsimp only
    split
    · exact h
    · exact hclear _ _ h

/-- No call moves the bitmap, or changes the number of frames. -/
theorem calls_placed {m₀ : Machine} (h : (calls P m₀).Reachable w) :
    Placed P.bitmapBase w.machine ∧ w.machine.totalFrames = P.totalFrames := by
  let Q : Machine → Prop := fun m => Placed P.bitmapBase m ∧ m.totalFrames = P.totalFrames
  have hset : ∀ m f, Q m → Q (setFrame m f) := fun m f h =>
    ⟨⟨h.1.offset, h.1.bitmap, h.1.size, h.1.total, h.1.room⟩, h.2⟩
  have hclear : ∀ m f, Q m → Q (clearFrame m f) := fun m f h =>
    ⟨⟨h.1.offset, h.1.bitmap, h.1.size, h.1.total, h.1.room⟩, h.2⟩
  refine System.invariant (P := fun w : FrameRun => Q w.machine) ?_
    (fun _ _ _ h hs => CallStep.keeps hset hclear h hs) h
  intro w hw
  have hallocator := (handed_reachable (.start hw)).allocator
  exact ⟨hallocator.toPlaced, hallocator.total_eq⟩

/-- A call that fits keeps what the allocator guarantees. -/
theorem handed_call (h : Handed P w) (hfits : CallFits w i) (hs : CallStep w i w') : Handed P w' := by
  cases hs with
  | alloc heq hne => exact handed_step h (.alloc heq hne)
  | exhausted heq => exact handed_step h (.exhausted heq)
  | @free p _ =>
    rcases hfits with hheld | ⟨_, hclear⟩
    · exact handed_step h (.free (h.held_out p hheld))
    · have hsame := (free_unchanged_iff w.machine p).mpr hclear
      refine ⟨?_, h.out, ?_, ?_⟩
      · show Allocator P (pmmFreeFrame w.machine p)
        rw [hsame]
        exact h.allocator
      · exact fun q hq => h.held_out q (List.mem_filter.mp hq).1
      · intro q hq
        show bmpTest (pmmFreeFrame w.machine p) _ = true
        rw [hsame]
        exact h.held q (List.mem_filter.mp hq).1

theorem handed_calls {m₀ : Machine} (h : ((calls P m₀).restrict CallFits).Reachable w) : Handed P w := by
  refine System.invariant (S := (calls P m₀).restrict CallFits) (P := Handed P) ?_ ?_ h
  · exact fun _ hw => handed_reachable (.start hw)
  · exact fun _ _ _ hw hs => handed_call hw hs.1 hs.2

end Calls

/-! ### Which bits are clear -/

/-- The call hands out the frame. -/
def FrameEvent.Takes (f : Nat) : FrameEvent → Prop
  | .alloc p => p ≠ null ∧ p / pageSize = f
  | .free _ => False

/-- The call gives the frame back. -/
def FrameEvent.Returns (f : Nat) : FrameEvent → Prop
  | .alloc _ => False
  | .free p => p / pageSize = f

/-- By these calls: the bit was clear at first, or has been cleared, and the frame has not been
handed out since. -/
def ClearSince (first : Prop) (f : Nat) (is : List FrameEvent) : Prop :=
  (first ∧ ∀ i ∈ is, ¬ i.Takes f) ∨
    ∃ before i after, is = before ++ i :: after ∧ i.Returns f ∧ ∀ j ∈ after, ¬ j.Takes f

section Clear
variable {P : PlacedMap} {m m₀ : Machine} {w w' w₀ : FrameRun} {f g : Nat} {i : FrameEvent} {is : List FrameEvent}

theorem clearSince_snoc {first : Prop} :
    ClearSince first f (is ++ [i]) ↔ i.Returns f ∨ ClearSince first f is ∧ ¬ i.Takes f := by
  constructor
  · rintro (⟨hfirst, hnone⟩ | ⟨before, j, after, heq, hj, hnone⟩)
    · rw [List.forall_mem_append, List.forall_mem_singleton] at hnone
      exact .inr ⟨.inl ⟨hfirst, hnone.1⟩, hnone.2⟩
    · rcases List.eq_nil_or_concat after with rfl | ⟨after, k, rfl⟩
      · obtain ⟨-, rfl⟩ := List.append_singleton_inj.mp heq
        exact .inl hj
      · rw [List.concat_eq_append, ← List.cons_append, ← List.append_assoc] at heq
        obtain ⟨rfl, rfl⟩ := List.append_singleton_inj.mp heq
        rw [List.concat_eq_append, List.forall_mem_append, List.forall_mem_singleton] at hnone
        exact .inr ⟨.inr ⟨before, j, after, rfl, hj, hnone.1⟩, hnone.2⟩
  · rintro (hreturns | ⟨⟨hfirst, hnone⟩ | ⟨before, j, after, rfl, hj, hnone⟩, hi⟩)
    · exact .inr ⟨is, i, [], rfl, hreturns, nofun⟩
    · refine .inl ⟨hfirst, ?_⟩
      rw [List.forall_mem_append, List.forall_mem_singleton]
      exact ⟨hnone, hi⟩
    · refine .inr ⟨before, j, after ++ [i], by rw [List.append_assoc, List.cons_append], hj, ?_⟩
      rw [List.forall_mem_append, List.forall_mem_singleton]
      exact ⟨hnone, hi⟩

/-- The bit at a place in the bitmap, or behind it. -/
theorem bmpTest_far (h : Placed P.bitmapBase m) (hf : f < 2 ^ 52) : bmpTest m f = Bitmap.test m.ram P.bitmapBase f := by
  rw [bmpTest, bmpByte_far h hf]
  rfl

theorem clearFrame_far (h : Placed P.bitmapBase m) (hf : f < 2 ^ 52) (hg : g < 2 ^ 52) :
    Placed P.bitmapBase (clearFrame m f) ∧ bmpTest (clearFrame m f) g = (!decide (g = f) && bmpTest m g) := by
  have h' : Placed P.bitmapBase (clearFrame m f) := ⟨h.offset, h.bitmap, h.size, h.total, h.room⟩
  refine ⟨h', ?_⟩
  rw [bmpTest_far h' hg, bmpTest_far h hg, ← Bitmap.test_clearBit]
  simp only [clearFrame, bmpClear, bmpByte_far h hf]
  rfl

theorem setFrame_far (h : Placed P.bitmapBase m) (hf : f < 2 ^ 52) (hg : g < 2 ^ 52) :
    Placed P.bitmapBase (setFrame m f) ∧ bmpTest (setFrame m f) g = (decide (g = f) || bmpTest m g) := by
  have h' : Placed P.bitmapBase (setFrame m f) := ⟨h.offset, h.bitmap, h.size, h.total, h.room⟩
  refine ⟨h', ?_⟩
  rw [bmpTest_far h' hg, bmpTest_far h hg, ← Bitmap.test_setBit]
  simp only [setFrame, bmpSet, bmpByte_far h hf]
  rfl

/-- The bits behind the last frame's stay set: no loop of `pmm_init` comes to them. -/
theorem behind_set (hinit : pmmInit m₀ (some P.entries) (some P.offset) = .ok m) (hf : f / 8 < P.bitmapSize)
    (hframe : ¬ f < P.totalFrames) : bmpTest m f = true := by
  have htotal := P.total_le
  have hlt : f < 2 ^ 52 := by
    unfold MemoryMap.bitmapSize at hf
    omega
  have hvisited : ∀ g ∈ clearedFrames P.entries ++ markedFrames (sizeBitmap m₀ P.entries P.offset), g < P.totalFrames :=
    fun g hg => visited_lt P.toHoldingMap m₀ hg
  obtain ⟨hcleared, hmarked⟩ := List.forall_mem_append.mp hvisited
  have hplaced := P.sizeBitmap_placed m₀
  obtain ⟨hcounted, _, _⟩ := fillBitmap_counted hplaced
  have hfill : bmpTest (fillBitmap (sizeBitmap m₀ P.entries P.offset)) f = true := by
    rw [bmpTest_far hcounted.toPlaced hlt]
    exact fillBitmap_test hplaced hf
  have hclear := List.foldlRecOn (motive := fun m => Placed P.bitmapBase m ∧ bmpTest m f = true)
    (clearedFrames P.entries) clearFrame ⟨hcounted.toPlaced, hfill⟩ fun m ⟨hm, hset⟩ g hg => by
      have hg' := hcleared g hg
      obtain ⟨hm', htest⟩ := clearFrame_far hm (show g < 2 ^ 52 by omega) hlt
      rw [htest, hset, decide_eq_false (show f ≠ g by omega)]
      exact ⟨hm', rfl⟩
  have hmark := List.foldlRecOn (motive := fun m => Placed P.bitmapBase m ∧ bmpTest m f = true)
    (markedFrames (sizeBitmap m₀ P.entries P.offset)) setFrame hclear fun m ⟨hm, hset⟩ g hg => by
      have hg' := hmarked g hg
      obtain ⟨hm', htest⟩ := setFrame_far hm (show g < 2 ^ 52 by omega) hlt
      rw [htest, hset, Bool.or_true]
      exact ⟨hm', rfl⟩
  rw [pmmInit_eq] at hinit
  cases hinit
  exact hmark.2

/-- At first the bits of the usable frames are clear, but for the bitmap's own, and no other bit of
the bitmap is. -/
theorem first_clear (hinit : pmmInit m₀ (some P.entries) (some P.offset) = .ok m) (hf : f / 8 < P.bitmapSize) :
    bmpTest m f = false ↔ P.UsableFrame f ∧ ¬ P.InBitmap f := by
  by_cases hframe : f < P.totalFrames
  · obtain ⟨m', hm', _, hexact, _⟩ := pmmInit_ok P m₀
    cases hm'.symm.trans hinit
    exact hexact f hframe
  · have hnot : ¬ (P.UsableFrame f ∧ ¬ P.InBitmap f) := fun h => hframe h.1.lt
    rw [iff_false_right hnot, Bool.not_eq_false]
    exact behind_set hinit hf hframe

/-- What a call does to a bit. -/
theorem call_clear_iff (h : Placed P.bitmapBase w.machine) (htotal : w.machine.totalFrames ≤ 2 ^ 40)
    (hs : CallStep w i w') (hf : f < 2 ^ 52) :
    bmpTest w'.machine f = false ↔ i.Returns f ∨ bmpTest w.machine f = false ∧ ¬ i.Takes f := by
  cases hs with
  | @alloc p m halloc hne =>
    rcases allocScan_cases w.machine 1 (w.machine.totalFrames - 1) with ⟨hnone, _⟩ | ⟨g, _, hg, _, hsome⟩
    · rw [pmmAllocFrame, hnone] at halloc
      exact absurd (Prod.mk.inj halloc).1.symm hne
    · rw [pmmAllocFrame, hsome] at halloc
      cases halloc
      have hdiv := frame_div g
      obtain ⟨_, htest⟩ := setFrame_far h (show g < 2 ^ 52 by omega) hf
      dsimp only
      rw [htest, Bool.or_eq_false_iff, decide_eq_false_iff_not, FrameEvent.Returns, FrameEvent.Takes, false_or, hdiv,
        and_comm, not_and]
      exact and_congr_right fun _ => ⟨fun hfg _ hgf => hfg hgf.symm, fun hnot hfg => hnot hne hfg.symm⟩
  | @exhausted m hnull =>
    rcases allocScan_cases w.machine 1 (w.machine.totalFrames - 1) with ⟨hnone, _⟩ | ⟨g, hpos, _, _, hsome⟩
    · rw [pmmAllocFrame, hnone] at hnull
      cases hnull
      simp [FrameEvent.Returns, FrameEvent.Takes]
    · rw [pmmAllocFrame, hsome] at hnull
      have hzero : g * pageSize = 0 := (Prod.mk.inj hnull).1
      unfold pageSize at hzero
      omega
  | @free p hp =>
    have hg : p / pageSize < 2 ^ 52 := Nat.div_lt_of_lt_mul hp
    obtain ⟨_, htest⟩ := clearFrame_far h hg hf
    have hboth : bmpTest (pmmFreeFrame w.machine p) f = (!decide (f = p / pageSize) && bmpTest w.machine f) := by
      unfold pmmFreeFrame
      cases hbit : bmpTest w.machine (p / pageSize) with
      | true => simpa [hbit] using htest
      | false =>
        by_cases hfp : f = p / pageSize
        · simp [hbit, hfp]
        · simp [hbit, hfp]
    dsimp only
    rw [hboth, Bool.and_eq_false_iff, Bool.not_eq_false', decide_eq_true_iff, FrameEvent.Returns, FrameEvent.Takes,
      not_false_eq_true, and_true, eq_comm]

/-- **Which bits are clear**: those of the usable frames, but for the bitmap's own, and those
that a call has cleared, as long as the frame is not handed out. -/
theorem bit_clear_iff {m₀ : Machine} (hinit : (calls P m₀).init w₀) (hrun : (calls P m₀).Run w₀ is w)
    (hf : f / 8 < P.bitmapSize) :
    bmpTest w.machine f = false ↔ ClearSince (P.UsableFrame f ∧ ¬ P.InBitmap f) f is := by
  have htotal := P.total_le
  have hlt : f < 2 ^ 52 := by
    unfold MemoryMap.bitmapSize at hf
    omega
  induction hrun with
  | nil =>
    rw [first_clear hinit.1 hf]
    simp [ClearSince]
  | @snoc is w₁ i w₂ hrun hs ih =>
    obtain ⟨hplaced, hframes⟩ := calls_placed (hrun.reachable hinit)
    rw [call_clear_iff hplaced (hframes ▸ htotal) hs hlt, clearSince_snoc]
    exact or_congr_right (and_congr_left fun _ => ih)

end Clear

/-- **A bad free is rejected** if and only if its bit is one of the bitmap's and clear, in
every state that any calls lead to. Where every address that is given to `pmm_free_frame`
is that of a frame still handed out, or has such a bit, each frame that is handed out is
usable memory, not the bitmap's, and not handed out already. -/
theorem bad_free_rejected_iff (P : PlacedMap) (m₀ : Machine) :
    (∀ w, (calls P m₀).Reachable w → ∀ p < 2 ^ 64,
      ((p ∉ w.held → Rejects P w.machine p) ↔ FreeFits w p)) ∧
    ∀ w, ((calls P m₀).restrict CallFits).Reachable w → ∀ p m, pmmAllocFrame w.machine = (p, m) → p ≠ null →
      p % pageSize = 0 ∧ P.UsableFrame (p / pageSize) ∧ ¬ P.InBitmap (p / pageSize) ∧ p ∉ w.held := by
  constructor
  · intro w hw p hp
    rw [rejects_iff (calls_placed hw).1 hp, FreeFits]
    exact (or_iff_not_imp_left).symm
  · intro w hw p m halloc hne
    obtain ⟨hmod, husable, hout, _, hheld⟩ := (handed_calls hw).alloc_fresh halloc hne
    exact ⟨hmod, husable, hout, hheld⟩

/-- Two usable pages with a reserved one between them. -/
def gapMap : PlacedMap where
  entries := [⟨0x1000, 0x1000, limineMemmapUsable⟩, ⟨0x2000, 0x1000, 1⟩, ⟨0x3000, 0x1000, limineMemmapUsable⟩]
  offset := smallMap.offset
  offset_lt := smallMap.offset_lt
  aligned := by decide
  apart := by
    simp only [List.pairwise_cons, MemmapEntry.Usable, MemmapEntry.Covers, limineMemmapUsable]
    simp
    omega
  above := by decide
  physical := by decide
  fits := by decide

/-- The allocator on that map, after `pmm_init`. -/
def gapMachine : Machine :=
  match pmmInit (.fresh (fun _ => 0) 0) (some gapMap.entries) (some gapMap.offset) with
  | .ok m => m
  | .error _ => .fresh (fun _ => 0) 0

theorem gapMachine_reachable : (calls gapMap (.fresh (fun _ => 0) 0)).Reachable ⟨gapMachine, [], []⟩ :=
  .start ⟨rfl, rfl, rfl⟩

/-- The address of the reserved page is freed, and the page is handed out next. -/
theorem reserved_page_freed :
    (calls gapMap (.fresh (fun _ => 0) 0)).Reachable ⟨gapMachine, [], []⟩ ∧ ¬ gapMap.UsableFrame 2 ∧
      ¬ Rejects gapMap gapMachine 0x2000 ∧ (pmmAllocFrame (pmmFreeFrame gapMachine 0x2000)).1 = 0x2000 := by
  refine ⟨gapMachine_reachable, ?_, ?_, by decide⟩
  · rintro ⟨e, he, hu, hle, hend⟩
    simp only [gapMap, List.mem_cons, List.not_mem_nil, or_false] at he
    rcases he with rfl | rfl | rfl
    · exact absurd hend (by decide)
    · exact absurd hu (by decide)
    · exact absurd hle (by decide)
  · rintro ⟨_, hsame⟩
    rw [free_unchanged_iff] at hsame
    exact absurd hsame (by decide)

/-- The free page of that map, freed again, is rejected. -/
theorem bad_free_rejected_iff_gapMap : Rejects gapMap gapMachine 0x3000 := by
  have hclear : BitClear gapMachine 0x3000 := ⟨by decide, by decide⟩
  exact ((bad_free_rejected_iff gapMap (.fresh (fun _ => 0) 0)).1 _ gapMachine_reachable 0x3000 (by decide)).mpr
    (.inr hclear) (List.not_mem_nil)

end ArcMonark.Mm.Pmm
