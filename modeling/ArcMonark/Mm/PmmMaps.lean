import ArcMonark.Mm.PmmInit

/-! `pmm_init` on any memory map.

Where some usable entry can hold the bitmap, `pmm_init` frees exactly the usable memory
(`pmmInit_frees_usable`). Where none can, it does not stop: the search leaves the pointer
null, and the bits are written from there on (`pmmInit_stored_iff`). -/
namespace ArcMonark.Mm.Pmm
open Library

/-! ### A map that can hold the bitmap -/

section Holding
variable (P : HoldingMap) (m₀ : Machine)

/-- Every bit that is written belongs to a frame of the map. -/
theorem visited_lt {f : Nat} (hf : f ∈ clearedFrames P.entries ++ markedFrames (sizeBitmap m₀ P.entries P.offset)) :
    f < P.totalFrames := by
  rcases List.mem_append.mp hf with hf | hf
  · exact MemoryMap.UsableFrame.lt (L := P.toMemoryMap) ((mem_clearedFrames P.aligned P.ends f).mp hf)
  · exact (P.inBitmap_usable ((mem_markedFrames P m₀ f).mp hf)).lt

/-- In front of each decrement the bit is still set, so that the counter is not zero. -/
theorem clear_positive {fs rest : List Nat} {f : Nat} (hsplit : clearedFrames P.entries = fs ++ f :: rest) :
    0 < (fs.foldl clearFrame (fillBitmap (sizeBitmap m₀ P.entries P.offset))).usedFrames := by
  obtain ⟨hc, ho, hall⟩ := fillBitmap_counted (P.sizeBitmap_placed m₀)
  have hnodup := nodup_clearedFrames P.aligned P.ends P.apart
  rw [hsplit] at hnodup
  obtain ⟨hfs, _, hapart⟩ := List.nodup_append.mp hnodup
  have hlt : ∀ g ∈ fs ++ f :: rest, g < P.totalFrames := fun g hg =>
    visited_lt P m₀ (List.mem_append_left _ (hsplit ▸ hg))
  obtain ⟨hc', ho', ht⟩ := hc.clearAll hfs fun g hg => by
    have hglt := hlt g (List.mem_append_left _ hg)
    exact ⟨hglt, hall g hglt⟩
  have hflt : f < P.totalFrames := hlt f (by simp)
  have hnot : f ∉ fs := fun hf => hapart f hf f List.mem_cons_self rfl
  rw [hc'.used]
  refine Bitmap.ones_pos (f := f) (by rw [ho'.totalFrames]; exact hflt) ?_
  rw [ht f hflt, if_neg hnot]
  exact hall f hflt

/-- The highest end of a usable entry is a whole number of frames. -/
theorem highestEnd : (∀ e ∈ P.entries, e.Usable → e.base + e.length ≤ P.totalFrames * pageSize) ∧
    ∃ e ∈ P.entries, e.Usable ∧ e.base + e.length = P.totalFrames * pageSize := by
  obtain ⟨e₀, he₀, hu₀, _⟩ := P.fits
  obtain ⟨e, he, hu, htop⟩ := P.exists_highest ⟨e₀, he₀, hu₀⟩
  have hend : e.base + e.length = P.totalFrames * pageSize := by
    obtain ⟨hb, hl⟩ := P.aligned e he hu
    unfold MemoryMap.totalFrames
    rw [← htop]
    unfold pageSize at *
    omega
  refine ⟨fun e' he' hu' => ?_, e, he, hu, hend⟩
  rw [← hend, htop]
  exact P.top_le he' hu'

end Holding

/-- **`pmm_init` frees exactly the usable memory**, on every map that can hold the bitmap.
A frame is free when it is usable and not the bitmap's, which lies inside one usable entry;
the frames end where the highest usable entry does; the counter ends as the number of
set bits, and is positive in front of every decrement; and only bits of the map's frames,
and only bytes of the bitmap, are written. -/
theorem pmmInit_frees_usable (P : HoldingMap) (m₀ : Machine) :
    ∃ m, pmmInit m₀ (some P.entries) (some P.offset) = .ok m ∧
      (∀ f, f < m.totalFrames → (bmpTest m f = false ↔ P.UsableFrame f ∧ ¬ P.InBitmap f)) ∧
      m.bitmap = add64 P.bitmapBase m.hhdmOffset ∧ m.bitmapSize = P.bitmapSize ∧
      (∃ e ∈ P.entries, e.Usable ∧ e.base ≤ P.bitmapBase ∧ P.bitmapBase + P.bitmapSize ≤ e.base + e.length) ∧
      (∀ e ∈ P.entries, e.Usable → e.base + e.length ≤ m.totalFrames * pageSize) ∧
      (∃ e ∈ P.entries, e.Usable ∧ e.base + e.length = m.totalFrames * pageSize) ∧
      m.usedFrames = Bitmap.ones (bmpTest m) m.totalFrames ∧
      (∀ fs f rest, clearedFrames P.entries = fs ++ f :: rest →
        0 < (fs.foldl clearFrame (fillBitmap (sizeBitmap m₀ P.entries P.offset))).usedFrames) ∧
      (∀ f ∈ clearedFrames P.entries ++ markedFrames (sizeBitmap m₀ P.entries P.offset), f < m.totalFrames) ∧
      ∀ a, a < P.bitmapBase ∨ P.bitmapBase + P.bitmapSize ≤ a → m.ram a = m₀.ram a := by
  obtain ⟨m, hm, hc, hexact, ho⟩ := pmmInit_exact P m₀
  have htotal : m.totalFrames = P.totalFrames := ho.totalFrames
  obtain ⟨hbelow, htop⟩ := highestEnd P
  obtain ⟨e, he, hu, hbase, _, hsize, _⟩ := P.bitmap_inside
  refine ⟨m, hm, ?_, hc.bitmap, ho.bitmapSize, ⟨e, he, hu, by rw [hbase], by rw [hbase]; omega⟩, ?_, ?_, hc.used,
    fun fs f rest => clear_positive P m₀, fun f hf => ?_, ho.outside⟩
  · rw [htotal]
    exact hexact
  · rw [htotal]
    exact hbelow
  · rw [htotal]
    exact htop
  · rw [htotal]
    exact visited_lt P m₀ hf

/-! ### Any map -/

/-- Byte `k` behind the bitmap's pointer is written, by the fill or with a bit of a frame. -/
def Touches (m : Machine) (entries : List MemmapEntry) (k : Nat) : Prop :=
  k < m.bitmapSize ∨ ∃ f ∈ clearedFrames entries ++ markedFrames m, f / 8 = k

/-- The bitmap is stored wholly inside a usable entry. -/
def StoredInside (m : Machine) (entries : List MemmapEntry) : Prop :=
  ∃ e ∈ entries, e.Usable ∧ ∃ bp, m.bitmap = add64 bp m.hhdmOffset ∧ e.base ≤ bp ∧
    bp + m.bitmapSize ≤ e.base + e.length

/-- `pmm_init` stops, or writes only bytes of a bitmap that is stored inside a usable entry. -/
def StopsOrStores (m₀ : Machine) (memmap : Option (List MemmapEntry)) (hhdm : Option Nat) : Prop :=
  pmmInit m₀ memmap hhdm = .error .halt ∨ ∃ entries offset, memmap = some entries ∧ hhdm = some offset ∧
    ∀ k, Touches (sizeBitmap m₀ entries offset) entries k →
      k < (sizeBitmap m₀ entries offset).bitmapSize ∧ StoredInside (sizeBitmap m₀ entries offset) entries

section AnyMap
variable (M : MemoryMap) (m₀ : Machine)

theorem stores_of_fits (hfits : ∃ e ∈ M.entries, MemoryMap.CanHold M.bitmapSize e) {k : Nat}
    (hk : Touches (sizeBitmap m₀ M.entries M.offset) M.entries k) :
    k < (sizeBitmap m₀ M.entries M.offset).bitmapSize ∧
      StoredInside (sizeBitmap m₀ M.entries M.offset) M.entries := by
  let P : HoldingMap := ⟨M, hfits⟩
  have hp := P.sizeBitmap_placed m₀
  obtain ⟨e, he, hu, hbase, _, hsize, _⟩ := P.bitmap_inside
  refine ⟨?_, e, he, hu, P.bitmapBase, hp.bitmap, by rw [hbase], ?_⟩
  · rcases hk with hk | ⟨f, hf, rfl⟩
    · exact hk
    · exact hp.byte_lt (visited_lt P m₀ hf)
  · show P.bitmapBase + P.bitmapSize ≤ e.base + e.length
    omega

/-- Without usable entries there is nothing to write. -/
theorem not_touches (hnone : ∀ e ∈ M.entries, ¬ e.Usable) (k : Nat) :
    ¬ Touches (sizeBitmap m₀ M.entries M.offset) M.entries k := by
  have htop : highestTop M.entries 0 = 0 :=
    Nat.le_zero.mp (highestTop_le (Nat.le_refl 0) fun e he hu => absurd hu (hnone e he))
  have hsize : (sizeBitmap m₀ M.entries M.offset).bitmapSize = 0 := by
    show (highestTop M.entries 0 / pageSize + 7) / 8 = 0
    rw [htop]
    rfl
  have hcleared : ∀ f, f ∉ clearedFrames M.entries := by
    intro f hf
    obtain ⟨e, he, hu, _⟩ := (mem_clearedFrames M.aligned M.ends f).mp hf
    exact hnone e he hu
  have hmarked : markedFrames (sizeBitmap m₀ M.entries M.offset) = [] := by
    rw [markedFrames, hsize]
    rfl
  rintro (hk | ⟨f, hf, _⟩)
  · omega
  · rw [hmarked, List.append_nil] at hf
    exact hcleared f hf

/-- An unplaced bitmap is written all the same. -/
theorem not_stored (hnone : ∀ e ∈ M.entries, ¬ MemoryMap.CanHold M.bitmapSize e) (hsome : ∃ e ∈ M.entries, e.Usable) :
    ¬ StopsOrStores m₀ (some M.entries) (some M.offset) := by
  rintro (hhalt | ⟨entries, offset, hentries, hoffset, hstores⟩)
  · rw [pmmInit_eq] at hhalt
    cases hhalt
  · cases hentries
    cases hoffset
    obtain ⟨e, he, hu⟩ := hsome
    have hshort : ¬ M.bitmapSize ≤ e.length := fun hle => hnone e he ⟨hu, hle⟩
    have hpos : 0 < (sizeBitmap m₀ M.entries M.offset).bitmapSize := show 0 < M.bitmapSize by omega
    obtain ⟨_, e', he', hu', bp, _, hle, hend⟩ := hstores 0 (.inl hpos)
    change bp + M.bitmapSize ≤ e'.base + e'.length at hend
    exact hnone e' he' ⟨hu', by omega⟩

end AnyMap

/-- **The bitmap is stored inside a usable entry** exactly when one can hold it, or when
there is none; else `pmm_init` does not stop. -/
theorem pmmInit_stored_iff (M : MemoryMap) (m₀ : Machine) :
    StopsOrStores m₀ (some M.entries) (some M.offset) ↔
      (∃ e ∈ M.entries, MemoryMap.CanHold M.bitmapSize e) ∨ ∀ e ∈ M.entries, ¬ e.Usable := by
  constructor
  · intro h
    by_contra hno
    push Not at hno
    exact not_stored M m₀ hno.1 hno.2 h
  · rintro (hfits | hnone)
    · exact .inr ⟨_, _, rfl, rfl, fun k hk => stores_of_fits M m₀ hfits hk⟩
    · exact .inr ⟨_, _, rfl, rfl, fun k hk => absurd hk (not_touches M m₀ hnone k)⟩

/-- One usable page at 64 GiB. -/
def highMap : LimineMap where
  entries := [⟨0x1000000000, 0x1000, limineMemmapUsable⟩]
  offset := 0xFFFF900000000000
  offset_lt := by decide
  aligned := by decide
  apart := by simp
  above := by decide
  physical := by decide

/-- Its bitmap takes 2 MiB and a byte, which no entry has: the bits are written behind null. -/
theorem highMap_not_stored : (sizeBitmap (.fresh (fun _ => 0) 0) highMap.entries highMap.offset).bitmap = null ∧
    highMap.bitmapSize = 2097153 ∧
    ¬ StopsOrStores (.fresh (fun _ => 0) 0) (some highMap.entries) (some highMap.offset) := by
  refine ⟨by decide, by decide, not_stored highMap.toMemoryMap _ (by decide) (by decide)⟩

end ArcMonark.Mm.Pmm
