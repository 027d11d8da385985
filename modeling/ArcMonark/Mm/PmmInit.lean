import ArcMonark.Mm.PmmProofs

/-! What `pmm_init` makes of a memory map.

A `HoldingMap` is a memory map with a usable entry that can hold the bitmap. On every
such map `pmm_init` leaves exactly the usable frames outside the bitmap's own storage
free (`pmmInit_exact`); a `PlacedMap` moreover has what the bootloader guarantees, which
the allocator relies on later. -/
namespace ArcMonark.Mm.Pmm
open Library

/-! ### Memory maps -/

namespace MemmapEntry

def Usable (e : MemmapEntry) : Prop := e.type = limineMemmapUsable

instance (e : MemmapEntry) : Decidable e.Usable := inferInstanceAs (Decidable (_ = _))

/-- Address `a` lies in the entry. -/
def Covers (e : MemmapEntry) (a : Nat) : Prop := e.base ≤ a ∧ a < e.base + e.length

/-- Page `f` lies wholly in the entry. -/
def HoldsFrame (e : MemmapEntry) (f : Nat) : Prop :=
  e.base ≤ f * pageSize ∧ f * pageSize + pageSize ≤ e.base + e.length

end MemmapEntry

/-- A memory map and the direct-map offset: usable entries are page-aligned, do not
overlap, and end at a 64-bit address. -/
structure MemoryMap where
  entries : List MemmapEntry
  offset : Nat
  offset_lt : offset < 2 ^ 64
  aligned : ∀ e ∈ entries, e.Usable → e.base % pageSize = 0 ∧ e.length % pageSize = 0
  apart : entries.Pairwise fun e e' =>
    e.Usable → e'.Usable → ∀ a, ¬ (e.Covers a ∧ e'.Covers a)
  ends : ∀ e ∈ entries, e.Usable → e.base + e.length < 2 ^ 64

namespace MemoryMap

def totalFrames (L : MemoryMap) : Nat := highestTop L.entries 0 / pageSize

def bitmapSize (L : MemoryMap) : Nat := (L.totalFrames + 7) / 8

def CanHold (size : Nat) (e : MemmapEntry) : Prop := e.Usable ∧ size ≤ e.length

instance (size : Nat) (e : MemmapEntry) : Decidable (CanHold size e) :=
  inferInstanceAs (Decidable (_ ∧ _))

/-- The physical address where the bitmap goes. -/
def bitmapBase (L : MemoryMap) : Nat :=
  ((L.entries.find? fun e => decide (CanHold L.bitmapSize e)).map (·.base)).getD 0

def UsableFrame (L : MemoryMap) (f : Nat) : Prop :=
  ∃ e ∈ L.entries, e.Usable ∧ e.HoldsFrame f

/-- Page `f` holds a byte of the bitmap. -/
def InBitmap (L : MemoryMap) (f : Nat) : Prop :=
  L.bitmapBase < f * pageSize + pageSize ∧ f * pageSize < L.bitmapBase + L.bitmapSize

end MemoryMap

/-- A map with a usable entry long enough for the bitmap. -/
structure HoldingMap extends MemoryMap where
  fits : ∃ e ∈ entries, MemoryMap.CanHold toMemoryMap.bitmapSize e

/-- What else Limine promises of the usable entries: they lie above the first page and
describe physical addresses, which have 52 bits. -/
structure LimineMap extends MemoryMap where
  above : ∀ e ∈ entries, e.Usable → 0x1000 ≤ e.base
  physical : ∀ e ∈ entries, e.Usable → e.base + e.length ≤ 2 ^ 52
  ends := fun e he hu => Nat.lt_of_le_of_lt (physical e he hu) (by decide)

structure PlacedMap extends LimineMap, HoldingMap

/-! ### The three scans of the map -/

section Cons
variable {e : MemmapEntry} (rest : List MemmapEntry)

theorem highestTop_usable (hu : e.Usable) (h : Nat) : highestTop (e :: rest) h =
    highestTop rest (if add64 e.base e.length > h then add64 e.base e.length else h) :=
  if_neg (Decidable.not_not.mpr hu)

theorem highestTop_other (hu : ¬ e.Usable) (h : Nat) :
    highestTop (e :: rest) h = highestTop rest h := if_pos hu

theorem placeBitmap_usable (hu : e.Usable) (offset size : Nat) : placeBitmap offset size (e :: rest) =
    if e.length ≥ size then add64 e.base offset else placeBitmap offset size rest :=
  if_neg (Decidable.not_not.mpr hu)

theorem placeBitmap_other (hu : ¬ e.Usable) (offset size : Nat) :
    placeBitmap offset size (e :: rest) = placeBitmap offset size rest := if_pos hu

end Cons

theorem le_highestTop (es : List MemmapEntry) (h : Nat) : h ≤ highestTop es h := by
  induction es generalizing h with
  | nil => exact Nat.le_refl h
  | cons e rest ih =>
    by_cases hu : e.Usable
    · rw [highestTop_usable rest hu]
      refine Nat.le_trans ?_ (ih _)
      split <;> omega
    · rw [highestTop_other rest hu]
      exact ih h

theorem highestTop_le {es : List MemmapEntry} {h b : Nat} (hb : h ≤ b)
    (hes : ∀ e ∈ es, e.Usable → add64 e.base e.length ≤ b) : highestTop es h ≤ b := by
  induction es generalizing h with
  | nil => exact hb
  | cons e rest ih =>
    have hrest : ∀ e ∈ rest, e.Usable → add64 e.base e.length ≤ b :=
      fun e' he' => hes e' (List.mem_cons_of_mem _ he')
    by_cases hu : e.Usable
    · rw [highestTop_usable rest hu]
      split
      · exact ih (hes e List.mem_cons_self hu) hrest
      · exact ih hb hrest
    · rw [highestTop_other rest hu]
      exact ih hb hrest

theorem top_le_highestTop {es : List MemmapEntry} {e : MemmapEntry} (he : e ∈ es)
    (hu : e.Usable) (h : Nat) : add64 e.base e.length ≤ highestTop es h := by
  induction es generalizing h with
  | nil => cases he
  | cons e' rest ih =>
    rcases List.mem_cons.mp he with rfl | he
    · rw [highestTop_usable rest hu]
      refine Nat.le_trans ?_ (le_highestTop rest _)
      split <;> omega
    · by_cases hu' : e'.Usable
      · rw [highestTop_usable rest hu']
        exact ih he _
      · rw [highestTop_other rest hu']
        exact ih he h

/-- The highest top is that of an entry, or where the search started. -/
theorem highestTop_cases (es : List MemmapEntry) (h : Nat) :
    highestTop es h = h ∨ ∃ e ∈ es, e.Usable ∧ add64 e.base e.length = highestTop es h := by
  induction es generalizing h with
  | nil => exact .inl rfl
  | cons e rest ih =>
    by_cases hu : e.Usable
    · rw [highestTop_usable rest hu]
      split
      · rcases ih (add64 e.base e.length) with heq | ⟨e', he', hu', htop⟩
        · exact .inr ⟨e, List.mem_cons_self, hu, heq.symm⟩
        · exact .inr ⟨e', List.mem_cons_of_mem e he', hu', htop⟩
      · rcases ih h with heq | ⟨e', he', hu', htop⟩
        · exact .inl heq
        · exact .inr ⟨e', List.mem_cons_of_mem e he', hu', htop⟩
    · rw [highestTop_other rest hu]
      rcases ih h with heq | ⟨e', he', hu', htop⟩
      · exact .inl heq
      · exact .inr ⟨e', List.mem_cons_of_mem e he', hu', htop⟩

theorem placeBitmap_eq (offset size : Nat) (es : List MemmapEntry) :
    placeBitmap offset size es =
      match es.find? fun e => decide (MemoryMap.CanHold size e) with
      | some e => add64 e.base offset
      | none => null := by
  induction es with
  | nil => rfl
  | cons e rest ih =>
    rw [List.find?_cons]
    by_cases hu : e.Usable
    · rw [placeBitmap_usable rest hu]
      by_cases hl : size ≤ e.length
      · have hc : MemoryMap.CanHold size e := ⟨hu, hl⟩
        simp [hc, hl]
      · have hc : ¬ MemoryMap.CanHold size e := fun h => hl h.2
        simp [hc, hl, ih]
    · have hc : ¬ MemoryMap.CanHold size e := fun h => hu h.1
      rw [placeBitmap_other rest hu]
      simp [hc, ih]

namespace MemoryMap
variable (L : MemoryMap)

theorem top_eq {e : MemmapEntry} (he : e ∈ L.entries) (hu : e.Usable) : add64 e.base e.length = e.base + e.length :=
  add64_eq (L.ends e he hu)

theorem top_le {e : MemmapEntry} (he : e ∈ L.entries) (hu : e.Usable) :
    e.base + e.length ≤ highestTop L.entries 0 := by
  rw [← L.top_eq he hu]
  exact top_le_highestTop he hu 0

/-- Some usable entry ends highest. -/
theorem exists_highest (hsome : ∃ e ∈ L.entries, e.Usable) :
    ∃ e ∈ L.entries, e.Usable ∧ e.base + e.length = highestTop L.entries 0 := by
  rcases highestTop_cases L.entries 0 with hzero | ⟨e, he, hu, htop⟩
  · obtain ⟨e, he, hu⟩ := hsome
    have := L.top_le he hu
    exact ⟨e, he, hu, by omega⟩
  · exact ⟨e, he, hu, (L.top_eq he hu).symm.trans htop⟩

theorem highestTop_lt : highestTop L.entries 0 < 2 ^ 64 := by
  refine Nat.lt_of_le_of_lt (highestTop_le (b := 2 ^ 64 - 1) (Nat.zero_le _) fun e he hu => ?_) (by decide)
  rw [L.top_eq he hu]
  exact Nat.le_pred_of_lt (L.ends e he hu)

theorem totalFrames_le : L.totalFrames ≤ 2 ^ 52 := by
  have := L.highestTop_lt
  unfold totalFrames pageSize
  omega

theorem holdsFrame_lt {e : MemmapEntry} (he : e ∈ L.entries) (hu : e.Usable) {f : Nat}
    (hf : e.HoldsFrame f) : f < L.totalFrames := by
  have ht := L.top_le he hu
  have h2 := hf.2
  unfold totalFrames pageSize at *
  omega

theorem UsableFrame.lt {L : MemoryMap} {f : Nat} (h : L.UsableFrame f) : f < L.totalFrames := by
  obtain ⟨e, he, hu, hf⟩ := h
  exact L.holdsFrame_lt he hu hf

end MemoryMap

namespace LimineMap
variable (L : LimineMap)

theorem total_le : L.totalFrames ≤ 2 ^ 40 := by
  have : highestTop L.entries 0 ≤ 2 ^ 52 := by
    refine highestTop_le (by decide) fun e he hu => ?_
    rw [L.top_eq he hu]
    exact L.physical e he hu
  unfold MemoryMap.totalFrames pageSize
  omega

theorem holdsFrame_pos {e : MemmapEntry} (he : e ∈ L.entries) (hu : e.Usable) {f : Nat}
    (hf : e.HoldsFrame f) : 0 < f := by
  have ha := L.above e he hu
  have h1 := hf.1
  unfold pageSize at h1
  omega

end LimineMap

/-! ### The frames of an entry -/

/-- In a page-aligned entry the pages that lie in it are the ones the clearing
loop visits. -/
theorem holdsFrame_iff {e : MemmapEntry} (hb : e.base % pageSize = 0)
    (hl : e.length % pageSize = 0) (f : Nat) :
    e.HoldsFrame f ↔ e.base / pageSize ≤ f ∧ f < e.base / pageSize + pageSteps e.length := by
  unfold MemmapEntry.HoldsFrame pageSteps pageSize at *
  omega

theorem holdsFrame_apart {e e' : MemmapEntry} (h : ∀ a, ¬ (e.Covers a ∧ e'.Covers a)) {f : Nat}
    (hf : e.HoldsFrame f) : ¬ e'.HoldsFrame f := by
  intro hf'
  refine h (f * pageSize) ⟨⟨hf.1, ?_⟩, ⟨hf'.1, ?_⟩⟩
  · have := hf.2
    unfold pageSize at *
    omega
  · have := hf'.2
    unfold pageSize at *
    omega

/-- Whole pages take up an aligned length. -/
theorem pageSteps_mul {length : Nat} (hl : length % pageSize = 0) : pageSteps length * pageSize = length := by
  unfold pageSteps pageSize at *
  omega

section Cleared
variable {es : List MemmapEntry} {e : MemmapEntry}

theorem clearedFrames_usable (hu : e.Usable) (rest : List MemmapEntry) :
    clearedFrames (e :: rest) = pageFrames e.base (pageSteps e.length) ++ clearedFrames rest :=
  if_neg (Decidable.not_not.mpr hu)

theorem clearedFrames_other (hu : ¬ e.Usable) (rest : List MemmapEntry) :
    clearedFrames (e :: rest) = clearedFrames rest := if_pos hu

variable (aligned : ∀ e ∈ es, e.Usable → e.base % pageSize = 0 ∧ e.length % pageSize = 0)
  (ends : ∀ e ∈ es, e.Usable → e.base + e.length < 2 ^ 64)
include aligned ends

theorem room_of_mem (he : e ∈ es) (hu : e.Usable) : e.base + pageSteps e.length * pageSize ≤ 2 ^ 64 := by
  rw [pageSteps_mul (aligned e he hu).2]
  exact Nat.le_of_lt (ends e he hu)

/-- The loop over the entries visits the frames of usable entries. -/
theorem mem_clearedFrames (f : Nat) : f ∈ clearedFrames es ↔ ∃ e ∈ es, e.Usable ∧ e.HoldsFrame f := by
  induction es with
  | nil => simp [clearedFrames]
  | cons e rest ih =>
    have ih := ih (fun e he => aligned e (List.mem_cons_of_mem _ he)) fun e he => ends e (List.mem_cons_of_mem _ he)
    by_cases hu : e.Usable
    · obtain ⟨hb, hl⟩ := aligned e List.mem_cons_self hu
      have hroom := room_of_mem aligned ends List.mem_cons_self hu
      rw [clearedFrames_usable hu, List.mem_append, mem_pageFrames hb hroom, ← holdsFrame_iff hb hl, ih]
      simp [hu]
    · rw [clearedFrames_other hu, ih]
      simp [hu]

/-- It visits none of them twice. -/
theorem nodup_clearedFrames
    (apart : es.Pairwise fun e e' => e.Usable → e'.Usable → ∀ a, ¬ (e.Covers a ∧ e'.Covers a)) :
    (clearedFrames es).Nodup := by
  induction es with
  | nil => exact List.nodup_nil
  | cons e rest ih =>
    obtain ⟨hnot, hrest⟩ := List.pairwise_cons.mp apart
    have aligned' := fun e he => aligned e (List.mem_cons_of_mem _ he)
    have ends' := fun e he => ends e (List.mem_cons_of_mem _ he)
    have ih := ih aligned' ends' hrest
    by_cases hu : e.Usable
    · obtain ⟨hb, hl⟩ := aligned e List.mem_cons_self hu
      have hroom := room_of_mem aligned ends List.mem_cons_self hu
      rw [clearedFrames_usable hu]
      refine List.nodup_append.mpr ⟨nodup_pageFrames hb hroom, ih, fun f hf g hg heq => ?_⟩
      subst heq
      obtain ⟨e', he', hu', hf'⟩ := (mem_clearedFrames aligned' ends' f).mp hg
      rw [mem_pageFrames hb hroom, ← holdsFrame_iff hb hl] at hf
      exact holdsFrame_apart (hnot e' he' hu hu') hf hf'
    · rw [clearedFrames_other hu]
      exact ih

end Cleared

/-! ### The whole of `pmm_init` -/

/-- The frame allocator on the map `P`, at any time: the bitmap is where
`pmm_init` put it, the counter counts, and only usable frames apart from the
bitmap are ever free. -/
structure Allocator (P : PlacedMap) (m : Machine) : Prop extends Counted P.bitmapBase m where
  offset_eq : m.hhdmOffset = P.offset
  total_eq : m.totalFrames = P.totalFrames
  free_usable : ∀ f, f < m.totalFrames → bmpTest m f = false → P.UsableFrame f ∧ ¬ P.InBitmap f

namespace HoldingMap
variable (P : HoldingMap)

theorem exists_bitmapEntry : ∃ e ∈ P.entries, MemoryMap.CanHold P.bitmapSize e ∧
    P.bitmapBase = e.base ∧ placeBitmap P.offset P.bitmapSize P.entries = add64 e.base P.offset := by
  obtain ⟨e₀, he₀, hc₀⟩ := P.fits
  cases hfind : P.entries.find? fun e => decide (MemoryMap.CanHold P.bitmapSize e) with
  | none =>
    have := List.find?_eq_none.mp hfind e₀ he₀
    exact absurd hc₀ (by simpa using this)
  | some e =>
    refine ⟨e, List.mem_of_find?_eq_some hfind, by simpa using List.find?_some hfind, ?_, ?_⟩
    · simp [MemoryMap.bitmapBase, hfind]
    · rw [placeBitmap_eq, hfind]

/-- The bitmap lies wholly inside one usable entry. -/
theorem bitmap_inside : ∃ e ∈ P.entries, e.Usable ∧ P.bitmapBase = e.base ∧
    P.bitmapBase % pageSize = 0 ∧ P.bitmapSize ≤ e.length ∧
    ∀ f, P.InBitmap f → e.HoldsFrame f := by
  obtain ⟨e, he, hc, hb, _⟩ := P.exists_bitmapEntry
  obtain ⟨ha, hl⟩ := P.aligned e he hc.1
  refine ⟨e, he, hc.1, hb, by rw [hb]; exact ha, hc.2, fun f hf => ?_⟩
  have hsize := hc.2
  unfold MemoryMap.InBitmap at hf
  rw [hb] at hf
  unfold MemmapEntry.HoldsFrame pageSize at *
  omega

theorem bitmapBase_mod : P.bitmapBase % pageSize = 0 := by
  obtain ⟨_, _, _, _, ha, _⟩ := P.bitmap_inside
  exact ha

/-- The bitmap's pages, the last one included, lie in its entry. -/
theorem bitmapPages_room : P.bitmapBase + pageSteps P.bitmapSize * pageSize ≤ 2 ^ 64 := by
  obtain ⟨e, he, hu, hb, _, hsize, _⟩ := P.bitmap_inside
  have hend := P.ends e he hu
  have hlength := (P.aligned e he hu).2
  unfold pageSteps pageSize at *
  omega

theorem inBitmap_iff (f : Nat) : P.InBitmap f ↔
    P.bitmapBase / pageSize ≤ f ∧ f < P.bitmapBase / pageSize + pageSteps P.bitmapSize := by
  have ha := P.bitmapBase_mod
  unfold MemoryMap.InBitmap pageSteps pageSize at *
  omega

theorem inBitmap_usable {f : Nat} (h : P.InBitmap f) : P.UsableFrame f := by
  obtain ⟨e, he, hu, _, _, _, hin⟩ := P.bitmap_inside
  exact ⟨e, he, hu, hin f h⟩

/-- The address of a byte of the bitmap lies in one of the bitmap's frames. -/
theorem inBitmap_of_byte {a : Nat} (h : P.bitmapBase ≤ a) (h' : a < P.bitmapBase + P.bitmapSize) :
    P.InBitmap (a / pageSize) := by
  unfold MemoryMap.InBitmap pageSize
  omega

theorem bitmap_room : P.bitmapBase + P.bitmapSize < 2 ^ 64 := by
  obtain ⟨e, he, hu, hb, _, hl, _⟩ := P.bitmap_inside
  have := P.ends e he hu
  omega

theorem sizeBitmap_placed (m : Machine) : Placed P.bitmapBase (sizeBitmap m P.entries P.offset) := by
  obtain ⟨e, _, _, hb, hplace⟩ := P.exists_bitmapEntry
  refine ⟨P.offset_lt, ?_, rfl, P.totalFrames_le, P.bitmap_room⟩
  show placeBitmap P.offset P.bitmapSize P.entries = _
  rw [hplace, hb]
  rfl

end HoldingMap

/-- Every bit of the bitmap is set. -/
theorem fillBitmap_test {bp : Nat} {m : Machine} (h : Placed bp m) {f : Nat} (hf : f / 8 < m.bitmapSize) :
    Bitmap.test (fillBitmap m).ram bp f = true := by
  have hbyte : (fillBitmap m).ram (bp + f / 8) = 0xFF := by
    show memset m.ram (m.direct m.bitmap) 0xFF m.bitmapSize (bp + f / 8) = 0xFF
    rw [h.direct_bitmap]
    exact memset_inside _ _ (by omega) (by omega)
  have hbit : f % 8 < 8 := Nat.mod_lt _ (by decide)
  rw [Bitmap.test_eq, hbyte]
  generalize f % 8 = i at hbit
  revert i
  decide

/-- Before anything is cleared every frame counts as used. -/
theorem fillBitmap_counted {bp : Nat} {m : Machine} (h : Placed bp m) :
    Counted bp (fillBitmap m) ∧ BitmapOnly bp m (fillBitmap m) ∧
      ∀ f, f < m.totalFrames → bmpTest (fillBitmap m) f = true := by
  have ho : BitmapOnly bp m (fillBitmap m) := by
    refine ⟨rfl, fun a ha => ?_⟩
    show memset m.ram (m.direct m.bitmap) 0xFF m.bitmapSize a = m.ram a
    rw [h.direct_bitmap]
    exact memset_outside _ _ ha
  have hp := ho.placed h
  have hall : ∀ f, f < m.totalFrames → bmpTest (fillBitmap m) f = true := by
    intro f hf
    rw [hp.bmpTest_eq hf]
    exact fillBitmap_test h (h.byte_lt hf)
  exact ⟨⟨hp, (Bitmap.ones_all hall).symm⟩, ho, hall⟩

/-- The loops change nothing but the bitmap and the counter. -/
theorem foldl_fields {op : Machine → Nat → Machine}
    (hop : ∀ m f, op m f = {m with ram := (op m f).ram, usedFrames := (op m f).usedFrames}) (m : Machine)
    (fs : List Nat) : fs.foldl op m =
      {m with ram := (fs.foldl op m).ram, usedFrames := (fs.foldl op m).usedFrames} := by
  induction fs generalizing m with
  | nil => rfl
  | cons f fs ih =>
    rw [List.foldl_cons, ih, hop]

/-- `pmm_init`, by the frames it visits. -/
theorem pmmInit_eq (m : Machine) (entries : List MemmapEntry) (offset : Nat) :
    pmmInit m (some entries) (some offset) =
      .ok ((markedFrames (sizeBitmap m entries offset)).foldl setFrame
        ((clearedFrames entries).foldl clearFrame (fillBitmap (sizeBitmap m entries offset)))) := by
  have hop : ∀ m f, clearFrame m f =
      {m with ram := (clearFrame m f).ram, usedFrames := (clearFrame m f).usedFrames} := fun _ _ => rfl
  have hfields := foldl_fields hop (fillBitmap (sizeBitmap m entries offset)) (clearedFrames entries)
  show Except.ok (setPages (clearUsable _ entries) _ _) = _
  rw [setPages_eq, clearUsable_eq, hfields]
  rfl

section Exact
variable (P : HoldingMap) (m₀ : Machine)

/-- The bits when the bitmap is filled and the usable frames are cleared. -/
theorem clearUsable_exact : Counted P.bitmapBase
      ((clearedFrames P.entries).foldl clearFrame (fillBitmap (sizeBitmap m₀ P.entries P.offset))) ∧
    BitmapOnly P.bitmapBase (sizeBitmap m₀ P.entries P.offset)
      ((clearedFrames P.entries).foldl clearFrame (fillBitmap (sizeBitmap m₀ P.entries P.offset))) ∧
    ∀ f, f < P.totalFrames → (bmpTest ((clearedFrames P.entries).foldl clearFrame
      (fillBitmap (sizeBitmap m₀ P.entries P.offset))) f = false ↔ P.UsableFrame f) := by
  obtain ⟨hc₁, ho₁, hall⟩ := fillBitmap_counted (P.sizeBitmap_placed m₀)
  have hmem := mem_clearedFrames P.aligned P.ends
  obtain ⟨hc₂, ho₂, ht₂⟩ := hc₁.clearAll (nodup_clearedFrames P.aligned P.ends P.apart) fun f hf => by
    have hlt := MemoryMap.UsableFrame.lt (L := P.toMemoryMap) ((hmem f).mp hf)
    exact ⟨hlt, hall f hlt⟩
  refine ⟨hc₂, ho₁.trans ho₂, fun f hf => ?_⟩
  rw [ht₂ f hf, hall f hf]
  by_cases hin : f ∈ clearedFrames P.entries
  · simp only [hin, if_true, true_iff]
    exact (hmem f).mp hin
  · simp only [hin, if_false, Bool.true_eq_false, false_iff]
    exact fun husable => hin ((hmem f).mpr husable)

theorem markedFrames_eq : markedFrames (sizeBitmap m₀ P.entries P.offset) =
    pageFrames P.bitmapBase (pageSteps P.bitmapSize) := by
  rw [markedFrames, show sub64 (sizeBitmap m₀ P.entries P.offset).bitmap _ = P.bitmapBase from
    (P.sizeBitmap_placed m₀).direct_bitmap]
  rfl

/-- The bitmap's frames are those that are set again. -/
theorem mem_markedFrames (f : Nat) : f ∈ markedFrames (sizeBitmap m₀ P.entries P.offset) ↔ P.InBitmap f := by
  rw [markedFrames_eq, mem_pageFrames P.bitmapBase_mod P.bitmapPages_room, P.inBitmap_iff]

/-- **What `pmm_init` does**: it returns, the counter counts, exactly the usable frames
outside the bitmap are free, and apart from the allocator's own variables nothing but the
bitmap's bytes has changed. -/
theorem pmmInit_exact : ∃ m, pmmInit m₀ (some P.entries) (some P.offset) = .ok m ∧ Counted P.bitmapBase m ∧
    (∀ f, f < P.totalFrames → (bmpTest m f = false ↔ P.UsableFrame f ∧ ¬ P.InBitmap f)) ∧
    BitmapOnly P.bitmapBase (sizeBitmap m₀ P.entries P.offset) m := by
  obtain ⟨hc₂, ho₂, ht₂⟩ := clearUsable_exact P m₀
  have hmem := mem_markedFrames P m₀
  have hnodup : (markedFrames (sizeBitmap m₀ P.entries P.offset)).Nodup := by
    rw [markedFrames_eq]
    exact nodup_pageFrames P.bitmapBase_mod P.bitmapPages_room
  -- the bitmap's own frames are usable, hence free at this point
  obtain ⟨hc₃, ho₃, ht₃⟩ := hc₂.setAll hnodup fun f hf => by
    have husable := P.inBitmap_usable ((hmem f).mp hf)
    exact ⟨by rw [ho₂.totalFrames]; exact husable.lt, (ht₂ f husable.lt).mpr husable⟩
  refine ⟨_, pmmInit_eq m₀ P.entries P.offset, hc₃, fun f hf => ?_, ho₂.trans ho₃⟩
  rw [ht₃ f (by rw [ho₂.totalFrames]; exact hf), ← ht₂ f hf]
  by_cases hin : f ∈ markedFrames (sizeBitmap m₀ P.entries P.offset)
  · simp only [hin, if_true, Bool.true_eq_false, false_iff, not_and_not_right]
    exact fun _ => (hmem f).mp hin
  · simp only [hin, if_false]
    exact ⟨fun hclear => ⟨hclear, fun hbitmap => hin ((hmem f).mpr hbitmap)⟩, fun h => h.1⟩

end Exact

theorem pmmInit_ok (P : PlacedMap) (m₀ : Machine) :
    ∃ m, pmmInit m₀ (some P.entries) (some P.offset) = .ok m ∧ Allocator P m ∧
      (∀ f, f < P.totalFrames → (bmpTest m f = false ↔ P.UsableFrame f ∧ ¬ P.InBitmap f)) ∧
      BitmapOnly P.bitmapBase (sizeBitmap m₀ P.entries P.offset) m := by
  obtain ⟨m, hm, hc, hexact, ho⟩ := pmmInit_exact P.toHoldingMap m₀
  have htotal : m.totalFrames = P.totalFrames := ho.totalFrames
  refine ⟨m, hm, ⟨hc, ho.hhdmOffset, htotal, fun f hf hfree => ?_⟩, hexact, ho⟩
  exact (hexact f (htotal ▸ hf)).mp hfree

end ArcMonark.Mm.Pmm
