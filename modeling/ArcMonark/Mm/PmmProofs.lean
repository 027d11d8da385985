import ArcMonark.Mm.Pmm
import ArcMonark.Library.Runs

/-! What the frame allocator guarantees.

`Placed` says where the bitmap lies, `Counted` that the counter is the number of
ones; both are carried through the loops of `pmm_init` together with the set of
frames cleared so far. -/
namespace ArcMonark.Mm.Pmm
open Library

/-! ### A bitmap at a known place -/

/-- The bitmap's pointer is the direct-map address of `bp`, and it fits. -/
structure Placed (bp : Nat) (m : Machine) : Prop where
  offset : m.hhdmOffset < 2 ^ 64
  bitmap : m.bitmap = add64 bp m.hhdmOffset
  size : m.bitmapSize = (m.totalFrames + 7) / 8
  total : m.totalFrames ≤ 2 ^ 52
  room : bp + m.bitmapSize < 2 ^ 64

/-- `m'` differs from `m` in the bitmap's bytes and the counter at most. -/
structure BitmapOnly (bp : Nat) (m m' : Machine) : Prop where
  fields : m' = {m with ram := m'.ram, usedFrames := m'.usedFrames}
  outside : ∀ a, a < bp ∨ bp + m.bitmapSize ≤ a → m'.ram a = m.ram a

namespace BitmapOnly
variable {bp : Nat} {m m' m'' : Machine}

theorem refl (bp : Nat) (m : Machine) : BitmapOnly bp m m := ⟨rfl, fun _ _ => rfl⟩

theorem bitmapSize (h : BitmapOnly bp m m') : m'.bitmapSize = m.bitmapSize := by
  rw [h.fields]

theorem totalFrames (h : BitmapOnly bp m m') : m'.totalFrames = m.totalFrames := by
  rw [h.fields]

theorem hhdmOffset (h : BitmapOnly bp m m') : m'.hhdmOffset = m.hhdmOffset := by
  rw [h.fields]

theorem trans (h : BitmapOnly bp m m') (h' : BitmapOnly bp m' m'') : BitmapOnly bp m m'' :=
  ⟨by rw [h'.fields, h.fields], fun a ha =>
    (h'.outside a (by rw [h.bitmapSize]; exact ha)).trans (h.outside a ha)⟩

theorem placed (h : BitmapOnly bp m m') (hp : Placed bp m) : Placed bp m' := by
  have hf := h.fields
  exact ⟨by rw [hf]; exact hp.offset, by rw [hf]; exact hp.bitmap, by rw [hf]; exact hp.size,
    by rw [hf]; exact hp.total, by rw [hf]; exact hp.room⟩

end BitmapOnly

section Placed
variable {bp : Nat} {m : Machine}

theorem Placed.byte_lt (h : Placed bp m) {f : Nat} (hf : f < m.totalFrames) :
    f / 8 < m.bitmapSize := by
  have := h.size
  omega

theorem Placed.bmpByte_eq (h : Placed bp m) {f : Nat} (hf : f < m.totalFrames) :
    bmpByte m f = bp + f / 8 := by
  have hlt := h.byte_lt hf
  have hroom := h.room
  rw [bmpByte, Machine.direct, h.bitmap]
  exact sub64_add64_add64 (by omega) h.offset

theorem Placed.direct_bitmap (h : Placed bp m) : m.direct m.bitmap = bp := by
  have hroom := h.room
  rw [Machine.direct, h.bitmap]
  exact sub64_add64 (by omega) h.offset

theorem Placed.bmpTest_eq (h : Placed bp m) {f : Nat} (hf : f < m.totalFrames) :
    bmpTest m f = Bitmap.test m.ram bp f := by
  rw [bmpTest, h.bmpByte_eq hf]
  rfl

theorem Placed.clearFrame_only (h : Placed bp m) {f : Nat} (hf : f < m.totalFrames) :
    BitmapOnly bp m (clearFrame m f) := by
  refine ⟨rfl, fun a ha => ?_⟩
  have hlt := h.byte_lt hf
  simp only [clearFrame, bmpClear, h.bmpByte_eq hf]
  exact Mem.set_ne _ _ (by omega)

theorem Placed.setFrame_only (h : Placed bp m) {f : Nat} (hf : f < m.totalFrames) :
    BitmapOnly bp m (setFrame m f) := by
  refine ⟨rfl, fun a ha => ?_⟩
  have hlt := h.byte_lt hf
  simp only [setFrame, bmpSet, h.bmpByte_eq hf]
  exact Mem.set_ne _ _ (by omega)

theorem Placed.bmpTest_clearFrame (h : Placed bp m) {f g : Nat} (hf : f < m.totalFrames)
    (hg : g < m.totalFrames) : bmpTest (clearFrame m f) g = (!decide (g = f) && bmpTest m g) := by
  have h' := (h.clearFrame_only hf).placed h
  rw [h'.bmpTest_eq hg, h.bmpTest_eq hg, ← Bitmap.test_clearBit]
  simp only [clearFrame, bmpClear, h.bmpByte_eq hf]
  rfl

theorem Placed.bmpTest_setFrame (h : Placed bp m) {f g : Nat} (hf : f < m.totalFrames)
    (hg : g < m.totalFrames) : bmpTest (setFrame m f) g = (decide (g = f) || bmpTest m g) := by
  have h' := (h.setFrame_only hf).placed h
  rw [h'.bmpTest_eq hg, h.bmpTest_eq hg, ← Bitmap.test_setBit]
  simp only [setFrame, bmpSet, h.bmpByte_eq hf]
  rfl

end Placed

/-! ### The counter counts the ones -/

structure Counted (bp : Nat) (m : Machine) : Prop extends Placed bp m where
  used : m.usedFrames = Bitmap.ones (bmpTest m) m.totalFrames

section Counted
variable {bp : Nat} {m : Machine}

theorem Counted.used_le (h : Counted bp m) : m.usedFrames ≤ m.totalFrames := by
  rw [h.used]
  exact Bitmap.ones_le _ _

theorem Counted.free_eq (h : Counted bp m) : pmmFreeFrames m = m.totalFrames - m.usedFrames := by
  have hlt := h.total
  exact sub64_eq h.used_le (by omega)

theorem Counted.clearFrame (h : Counted bp m) {f : Nat} (hf : f < m.totalFrames)
    (hset : bmpTest m f = true) : Counted bp (clearFrame m f) := by
  have hp := h.toPlaced
  refine ⟨(hp.clearFrame_only hf).placed hp, ?_⟩
  have hcount : Bitmap.ones (bmpTest m) m.totalFrames =
      Bitmap.ones (bmpTest (Pmm.clearFrame m f)) m.totalFrames + 1 := by
    apply Bitmap.ones_insert hf
    · rw [hp.bmpTest_clearFrame hf hf]
      simp
    · intro g hg
      rw [hp.bmpTest_clearFrame hf hg]
      by_cases hgf : g = f
      · simp [hgf, hset]
      · simp [hgf]
  have hlt := h.total
  have hle := h.used_le
  have hused := h.used
  show sub64 m.usedFrames 1 = Bitmap.ones (bmpTest (Pmm.clearFrame m f)) m.totalFrames
  rw [sub64_eq (by omega) (by omega)]
  omega

theorem Counted.setFrame (h : Counted bp m) {f : Nat} (hf : f < m.totalFrames)
    (hclear : bmpTest m f = false) : Counted bp (setFrame m f) := by
  have hp := h.toPlaced
  refine ⟨(hp.setFrame_only hf).placed hp, ?_⟩
  have hcount : Bitmap.ones (bmpTest (Pmm.setFrame m f)) m.totalFrames =
      Bitmap.ones (bmpTest m) m.totalFrames + 1 :=
    Bitmap.ones_insert hf hclear fun g hg => hp.bmpTest_setFrame hf hg
  have hlt := h.total
  have hle := h.used_le
  have hused := h.used
  show add64 m.usedFrames 1 = Bitmap.ones (bmpTest (Pmm.setFrame m f)) m.totalFrames
  rw [hcount, ← hused, add64_eq (by omega)]

/-- Giving frames, one after another, the bit `b` that none of them had: they and only
they change. -/
theorem Counted.writeAll (h : Counted bp m) (b : Bool) {op : Machine → Nat → Machine}
    (hop : ∀ {m f}, Counted bp m → f < m.totalFrames → bmpTest m f = !b →
      Counted bp (op m f) ∧ BitmapOnly bp m (op m f) ∧
        ∀ g, g < m.totalFrames → bmpTest (op m f) g = if g = f then b else bmpTest m g)
    {fs : List Nat} (hfs : fs.Nodup) (hin : ∀ f ∈ fs, f < m.totalFrames ∧ bmpTest m f = !b) :
    Counted bp (fs.foldl op m) ∧ BitmapOnly bp m (fs.foldl op m) ∧
      ∀ g, g < m.totalFrames → bmpTest (fs.foldl op m) g = if g ∈ fs then b else bmpTest m g := by
  induction fs generalizing m with
  | nil => exact ⟨h, .refl _ _, fun g _ => (if_neg List.not_mem_nil).symm⟩
  | cons f fs ih =>
    obtain ⟨hnot, hfs⟩ := List.nodup_cons.mp hfs
    obtain ⟨hlt, hbit⟩ := hin f List.mem_cons_self
    obtain ⟨hc₁, ho₁, ht₁⟩ := hop h hlt hbit
    obtain ⟨hc, ho, ht⟩ := ih hc₁ hfs fun g hg => by
      obtain ⟨hglt, hgbit⟩ := hin g (List.mem_cons_of_mem f hg)
      have hne : g ≠ f := by
        rintro rfl
        exact hnot hg
      exact ⟨by rw [ho₁.totalFrames]; exact hglt, by rw [ht₁ g hglt, if_neg hne, hgbit]⟩
    refine ⟨hc, ho₁.trans ho, fun g hg => ?_⟩
    rw [List.foldl_cons, ht g (by rw [ho₁.totalFrames]; exact hg), ht₁ g hg]
    by_cases hgf : g = f
    · simp [hgf]
    · simp [hgf]

/-- Clearing frames that were all used. -/
theorem Counted.clearAll (h : Counted bp m) {fs : List Nat} (hfs : fs.Nodup)
    (hin : ∀ f ∈ fs, f < m.totalFrames ∧ bmpTest m f = true) :
    Counted bp (fs.foldl Pmm.clearFrame m) ∧ BitmapOnly bp m (fs.foldl Pmm.clearFrame m) ∧
      ∀ g, g < m.totalFrames → bmpTest (fs.foldl Pmm.clearFrame m) g = if g ∈ fs then false else bmpTest m g :=
  h.writeAll false (fun {m f} hm hf hset => ⟨hm.clearFrame hf hset, hm.clearFrame_only hf, fun g hg => by
    rw [hm.bmpTest_clearFrame hf hg]
    by_cases hgf : g = f <;> simp [hgf]⟩) hfs hin

/-- Setting frames that were all free. -/
theorem Counted.setAll (h : Counted bp m) {fs : List Nat} (hfs : fs.Nodup)
    (hin : ∀ f ∈ fs, f < m.totalFrames ∧ bmpTest m f = false) :
    Counted bp (fs.foldl Pmm.setFrame m) ∧ BitmapOnly bp m (fs.foldl Pmm.setFrame m) ∧
      ∀ g, g < m.totalFrames → bmpTest (fs.foldl Pmm.setFrame m) g = if g ∈ fs then true else bmpTest m g :=
  h.writeAll true (fun {m f} hm hf hclear => ⟨hm.setFrame hf hclear, hm.setFrame_only hf, fun g hg => by
    rw [hm.bmpTest_setFrame hf hg]
    by_cases hgf : g = f <;> simp [hgf]⟩) hfs hin

end Counted

/-! ### The frames that the loops visit -/

/-- The frames of `n` pages from `base`. -/
def pageFrames (base n : Nat) : List Nat := (List.range n).map fun k => add64 base (k * pageSize) / pageSize

/-- The frames that `clearUsable` clears, in order. -/
def clearedFrames : List MemmapEntry → List Nat
  | [] => []
  | e :: rest =>
    if e.type ≠ limineMemmapUsable then clearedFrames rest
    else pageFrames e.base (pageSteps e.length) ++ clearedFrames rest

/-- The frames that `pmm_init` sets again: those of the bitmap, once it has its place. -/
def markedFrames (m : Machine) : List Nat := pageFrames (sub64 m.bitmap m.hhdmOffset) (pageSteps m.bitmapSize)

theorem pageFrames_succ (base n : Nat) :
    pageFrames base (n + 1) = pageFrames base n ++ [add64 base (n * pageSize) / pageSize] := by
  rw [pageFrames, List.range_succ, List.map_append]
  rfl

theorem clearPages_eq (m : Machine) (base n : Nat) :
    clearPages m base n = (pageFrames base n).foldl clearFrame m := by
  induction n with
  | zero => rfl
  | succ n ih => rw [clearPages, ih, pageFrames_succ, List.foldl_append, List.foldl_cons, List.foldl_nil]

theorem setPages_eq (m : Machine) (base n : Nat) : setPages m base n = (pageFrames base n).foldl setFrame m := by
  induction n with
  | zero => rfl
  | succ n ih => rw [setPages, ih, pageFrames_succ, List.foldl_append, List.foldl_cons, List.foldl_nil]

theorem clearUsable_eq (m : Machine) (es : List MemmapEntry) :
    clearUsable m es = (clearedFrames es).foldl clearFrame m := by
  induction es generalizing m with
  | nil => rfl
  | cons e rest ih =>
    rw [clearUsable, clearedFrames]
    split
    · exact ih m
    · rw [ih, clearPages_eq, List.foldl_append]

/-- From an aligned base they are consecutive. -/
theorem page_frame {base n : Nat} (ha : base % pageSize = 0) (h : base + n * pageSize < 2 ^ 64) :
    add64 base (n * pageSize) / pageSize = base / pageSize + n := by
  rw [add64_eq h]
  unfold pageSize at *
  omega

theorem pageFrames_eq {base n : Nat} (ha : base % pageSize = 0) (h : base + n * pageSize ≤ 2 ^ 64) :
    pageFrames base n = (List.range n).map (base / pageSize + ·) := by
  refine List.map_congr_left fun k hk => page_frame ha ?_
  have := List.mem_range.mp hk
  unfold pageSize at *
  omega

section PageFrames
variable {base n : Nat} (ha : base % pageSize = 0) (h : base + n * pageSize ≤ 2 ^ 64)
include ha h

theorem mem_pageFrames (f : Nat) : f ∈ pageFrames base n ↔ base / pageSize ≤ f ∧ f < base / pageSize + n := by
  rw [pageFrames_eq ha h, List.mem_map]
  constructor
  · rintro ⟨k, hk, rfl⟩
    have := List.mem_range.mp hk
    omega
  · rintro ⟨hle, hlt⟩
    exact ⟨f - base / pageSize, List.mem_range.mpr (by omega), Nat.add_sub_cancel' hle⟩

theorem nodup_pageFrames : (pageFrames base n).Nodup := by
  rw [pageFrames_eq ha h]
  exact List.nodup_range.map fun _ _ heq => Nat.add_left_cancel heq

end PageFrames

end ArcMonark.Mm.Pmm
