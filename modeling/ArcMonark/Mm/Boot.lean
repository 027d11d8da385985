import ArcMonark.Mm.VmmProofs

/-! The machine the bootloader hands over, and the tables `vmm_init` makes of it.

A `Boot` is a memory map that can hold the bitmap, a memory and a table root; the
bootloader's page tables lie in no usable frame, and the direct map does not
wrap. After `pmm_init` and `vmm_init` the tables have their shape: the upper half
of the PML4 is the bootloader's, and every absent slot is the kernel's to fill. -/
namespace ArcMonark.Mm.Vmm
open Library Pmm

/-- The tables a root leads to, by level: the root has level 3, and an entry that
maps a large page leads to none. -/
inductive TableOf (ram : Mem) (root : Nat) : Nat → Nat → Prop where
  | root : TableOf ram root 3 root
  | child {l t i} : TableOf ram root (l + 1) t → i < 512 → present (entryAt ram t i) = true →
      (l = 2 ∨ large (entryAt ram t i) = false) → TableOf ram root l (entryAt ram t i &&& pageAddrMask)

/-- What the bootloader leaves behind. -/
structure Boot extends PlacedMap where
  ram : Mem
  cr3 : Nat
  direct : offset + toLimineMap.totalFrames * pageSize ≤ 2 ^ 64
  tables : ∀ l t, TableOf ram (cr3 &&& pageAddrMask) l t → ¬ toLimineMap.UsableFrame (t / pageSize)

/-- The machine as the kernel finds it. -/
def Boot.machine (B : Boot) : Machine := .fresh B.ram B.cr3

/-- The physical address of the bootloader's PML4. -/
def Boot.oldRoot (B : Boot) : Nat := B.cr3 &&& pageAddrMask

/-- `pmm_init` on what the bootloader left. -/
def Boot.pmmInit (B : Boot) : Except Fault Machine :=
  Pmm.pmmInit B.machine (some B.entries) (some B.offset)

theorem tableOf_aligned {ram : Mem} {root l t : Nat} (hr : root % pageSize = 0)
    (h : TableOf ram root l t) : t % pageSize = 0 := by
  cases h with
  | root => exact hr
  | child _ _ _ _ => exact mask_mod _

/-- The tables below the root are those of the trie and the bootloader's. -/
theorem Shape.tableOf_cases {A : Space} {role : Nat → Role} {ram : Mem} (h : Shape A role ram)
    {l t : Nat} (ht : TableOf ram A.root l t) :
    (∃ p, p.length + l = 3 ∧ A.tableAt ram p = some t) ∨ (l ≤ 2 ∧ A.inherited l t) := by
  induction ht with
  | root => exact .inl ⟨[], rfl, rfl⟩
  | @child l t i ht hi hpres hsmall ih =>
    rcases ih with ⟨p, hp, hpt⟩ | ⟨hl, hin⟩
    · by_cases hroot : t = A.root ∧ A.owned i = false
      · obtain ⟨rfl, ho⟩ := hroot
        have hnil : p = [] := h.path_unique (p := []) (by decide) (by omega) rfl hpt
        subst hnil
        have hl : l = 2 := by
          simp only [List.length_nil] at hp
          omega
        exact .inr ⟨by omega, hl ▸ h.closed_root i hi ho hpres⟩
      · have ho : t = A.root → A.owned i = true := by
          intro heq
          cases ho : A.owned i
          · exact absurd ⟨heq, ho⟩ hroot
          · rfl
        refine .inl ⟨p ++ [i], ?_, (Trie.reach_snoc_of hpt i).trans (child_of_present hi ho hpres)⟩
        rw [List.length_append, List.length_singleton]
        omega
    · exact .inr ⟨by omega, h.closed l t i hin hi hpres (hsmall.resolve_left (by omega))⟩

/-- Every table lies in a frame with a table's role. -/
theorem Shape.tableOf_role {A : Space} {role : Nat → Role} {ram : Mem} (h : Shape A role ram)
    {l t : Nat} (ht : TableOf ram A.root l t) : (role (t / pageSize)).IsTable := by
  rcases h.tableOf_cases ht with ⟨p, hp, hpt⟩ | ⟨_, hin⟩
  · rw [(h.table p t (by omega) hpt).2.2.2]
    trivial
  · rw [(h.inherited l t hin).2]
    trivial

/-! ### The copying loop -/

/-- Copying entries between two pages. -/
theorem copyEntries_ok {m : Machine} {dest src i n : Nat} (hoff : m.hhdmOffset < 2 ^ 64)
    (hd : dest % pageSize = 0) (hs : src % pageSize = 0) (hd52 : dest < 2 ^ 52) (hs52 : src < 2 ^ 52)
    (hne : dest ≠ src) (hn : i + n ≤ 512) :
    ∃ ram, copyEntries m (physToVirt m dest) (physToVirt m src) i n = {m with ram} ∧
      (∀ a, a / pageSize ≠ dest / pageSize → ram a = m.ram a) ∧
      ∀ j, j < 512 → entryAt ram dest j =
        if i ≤ j ∧ j < i + n then entryAt m.ram src j else entryAt m.ram dest j := by
  induction n generalizing m i with
  | zero =>
    refine ⟨m.ram, rfl, fun _ _ => rfl, fun j _ => ?_⟩
    rw [if_neg (by omega)]
  | succ n ih =>
    have hdslot : slotAddr m (physToVirt m dest) i = dest + 8 * i :=
      sub64_add64_add64 (by omega) hoff
    have hsslot : slotAddr m (physToVirt m src) i = src + 8 * i :=
      sub64_add64_add64 (by omega) hoff
    have hbytes : ∀ a, (a < dest + 8 * i ∨ dest + 8 * i + 8 ≤ a) →
        (tableSet m (physToVirt m dest) i (tableGet m (physToVirt m src) i)).ram a = m.ram a := by
      intro a ha
      simp only [tableSet, hdslot]
      exact Mem.store64_of_outside _ _ ha
    have hentry : ∀ t j, t % pageSize = 0 → j < 512 → (t ≠ dest ∨ j ≠ i) →
        entryAt (tableSet m (physToVirt m dest) i (tableGet m (physToVirt m src) i)).ram t j =
          entryAt m.ram t j := by
      intro t j ht hj hdiff
      refine entryAt_congr ht hj fun a _ hle hlt => hbytes a ?_
      unfold pageSize at *
      omega
    have hnew : entryAt (tableSet m (physToVirt m dest) i (tableGet m (physToVirt m src) i)).ram dest i =
        entryAt m.ram src i := by
      simp only [tableSet, tableGet, hdslot, hsslot]
      exact Mem.load64_store64_same _ _ (Mem.load64_lt _ _)
    obtain ⟨ram, hcopy, hout, hin⟩ :=
      ih (m := tableSet m (physToVirt m dest) i (tableGet m (physToVirt m src) i)) (i := i + 1)
        hoff (by omega)
    refine ⟨ram, hcopy, ?_, ?_⟩
    · intro a ha
      rw [hout a ha]
      refine hbytes a ?_
      unfold pageSize at *
      omega
    · intro j hj
      rw [hin j hj]
      by_cases hji : j = i
      · subst hji
        rw [if_neg (by omega), if_pos (by omega), hnew]
      · by_cases hrange : i + 1 ≤ j ∧ j < i + 1 + n
        · rw [if_pos hrange, if_pos (by omega), hentry src j hs hj (.inl (Ne.symm hne))]
        · rw [if_neg hrange, if_neg (by omega), hentry dest j hd hj (.inr hji)]

section VmmInit
variable {P : PlacedMap} {m : Machine} {f : Nat} (h : Allocator P m) (hlt : f < m.totalFrames)
include h hlt

theorem frame_lt : f * pageSize < 2 ^ 52 := by
  have htotal := h.total_le
  unfold pageSize
  omega

/-- The memory as the new root has been cleared. -/
theorem zeroPage_root :
    zeroPage {setFrame m f with kernelPml4 := physToVirt m (f * pageSize)} (physToVirt m (f * pageSize)) =
      {setFrame m f with
        ram := memset (setFrame m f).ram (f * pageSize) 0 pageSize
        kernelPml4 := physToVirt m (f * pageSize)} := by
  have hroot := frame_lt h hlt
  have hdirect : m.direct (physToVirt m (f * pageSize)) = f * pageSize :=
    sub64_add64 (by omega) h.offset
  show ({setFrame m f with
    ram := memset _ (m.direct (physToVirt m (f * pageSize))) 0 pageSize
    kernelPml4 := physToVirt m (f * pageSize)} : Machine) = _
  rw [hdirect]

/-- `vmm_init`, spelled out on its memory: the root's lower half is empty, its upper
half is the old root's, and beside the bitmap nothing else has changed. -/
theorem vmmInit_memory (halloc : pmmAllocFrame m = (f * pageSize, setFrame m f))
    (hne : f * pageSize ≠ m.cr3 &&& pageAddrMask) :
    ∃ ram, vmmInit m =
        {setFrame m f with ram, cr3 := f * pageSize, kernelPml4 := physToVirt m (f * pageSize)} ∧
      (∀ a, a / pageSize ≠ f → ram a = (setFrame m f).ram a) ∧
      (∀ i, i < 256 → entryAt ram (f * pageSize) i = 0) ∧
      ∀ i, 256 ≤ i → i < 512 →
        entryAt ram (f * pageSize) i = entryAt (setFrame m f).ram (m.cr3 &&& pageAddrMask) i := by
  have hmod := mask_mod m.cr3
  obtain ⟨ram, hcopy, hout, hin⟩ := copyEntries_ok
    (m := {setFrame m f with
      ram := memset (setFrame m f).ram (f * pageSize) 0 pageSize
      kernelPml4 := physToVirt m (f * pageSize)})
    h.offset (frame_mod f) hmod (frame_lt h hlt) (mask_lt _) hne (i := 256) (n := 256) (by decide)
  have hzeroed : ∀ a, a / pageSize ≠ f →
      memset (setFrame m f).ram (f * pageSize) 0 pageSize a = (setFrame m f).ram a :=
    fun a ha => memset_outside _ _ (by unfold pageSize at *; omega)
  have hempty : ∀ i, i < 512 →
      entryAt (memset (setFrame m f).ram (f * pageSize) 0 pageSize) (f * pageSize) i = 0 := by
    intro i hi
    refine Mem.load_zero fun a hle hlt => memset_inside _ _ (by omega) ?_
    unfold pageSize at *
    omega
  refine ⟨ram, ?_, ?_, ?_, ?_⟩
  · unfold vmmInit
    rw [halloc]
    change ({copyEntries (zeroPage {setFrame m f with kernelPml4 := physToVirt m (f * pageSize)}
      (physToVirt m (f * pageSize))) (physToVirt m (f * pageSize)) (physToVirt m (m.cr3 &&& pageAddrMask))
      256 256 with cr3 := f * pageSize} : Machine) = _
    rw [zeroPage_root h hlt]
    exact congrArg (fun k : Machine => {k with cr3 := f * pageSize}) hcopy
  · intro a ha
    rw [hout a (by rw [frame_div]; exact ha)]
    exact hzeroed a ha
  · intro i hi
    rw [hin i (by omega), if_neg (by omega)]
    exact hempty i (by omega)
  · intro i hge hi
    rw [hin i hi, if_pos ⟨hge, by omega⟩]
    refine entryAt_congr hmod hi fun a ha _ _ => hzeroed a fun heq => hne ?_
    rw [← heq, ha]
    unfold pageSize at *
    omega

end VmmInit

namespace Boot
variable (B : Boot)

theorem pmmInit_ok : ∃ m, B.pmmInit = .ok m ∧ Allocator B.toPlacedMap m ∧
    (∀ f, f < B.totalFrames → (bmpTest m f = false ↔ B.UsableFrame f ∧ ¬ B.InBitmap f)) ∧
    BitmapOnly B.bitmapBase (sizeBitmap B.machine B.entries B.offset) m :=
  Pmm.pmmInit_ok B.toPlacedMap B.machine

theorem oldRoot_mod : B.oldRoot % pageSize = 0 := mask_mod _

/-- Bytes of unusable frames are not the bitmap's. -/
theorem bitmap_apart {a : Nat} (ha : ¬ B.UsableFrame (a / pageSize)) :
    a < B.bitmapBase ∨ B.bitmapBase + B.bitmapSize ≤ a := by
  by_contra hin
  push Not at hin
  exact ha (B.inBitmap_usable (B.inBitmap_of_byte hin.1 hin.2))

end Boot

/-! ### `vmm_init` -/

/-- What `vmm_init` leaves: well-shaped tables with nothing below the kernel's own
slots, which are the absent ones. -/
structure Initialized (B : Boot) (m : Machine) (A : Space) (role : Nat → Role) : Prop where
  map : A.map = B.toPlacedMap
  tables : Tables A role m
  owned : ∀ i, i < 512 → A.owned i = !present (entryAt m.ram A.root i)
  lower : ∀ i, i < 256 → entryAt m.ram A.root i = 0
  upper : ∀ i, 256 ≤ i → i < 512 → entryAt m.ram A.root i = entryAt B.ram B.oldRoot i
  bare : ∀ q, q ≠ [] → A.tableAt m.ram q = none
  inherited : ∀ l t, A.inherited l t ↔ l ≤ 2 ∧ TableOf B.ram B.oldRoot l t
  no_page : ∀ f k, role f ≠ .page k

namespace Boot
variable (B : Boot)

open Classical in
/-- The roles after `vmm_init` took frame `f` for the root. -/
noncomputable def initRole (f : Nat) : Nat → Role := fun g =>
  if B.InBitmap g then .bitmap
  else if g = f then .table []
  else if ∃ l t, l ≤ 2 ∧ TableOf B.ram B.oldRoot l t ∧ t / pageSize = g then .inherited
  else .spare

/-- The address space rooted at frame `f`. -/
def space (f : Nat) (ram : Mem) : Space where
  map := B.toPlacedMap
  root := f * pageSize
  owned := fun i => !present (entryAt ram (f * pageSize) i)
  inherited := fun l t => l ≤ 2 ∧ TableOf B.ram B.oldRoot l t
  direct := B.direct

theorem initRole_inherited {f l t : Nat} (hf : B.UsableFrame f) (hl : l ≤ 2)
    (ht : TableOf B.ram B.oldRoot l t) : B.initRole f (t / pageSize) = .inherited := by
  have hu := B.tables l t ht
  have hbitmap : ¬ B.InBitmap (t / pageSize) := fun h => hu (B.inBitmap_usable h)
  have hne : t / pageSize ≠ f := fun h => hu (h ▸ hf)
  rw [initRole, if_neg hbitmap, if_neg hne, if_pos ⟨l, t, hl, ht, rfl⟩]

theorem initRole_root {f : Nat} (hf : ¬ B.InBitmap f) : B.initRole f f = .table [] := by
  rw [initRole, if_neg hf, if_pos rfl]

end Boot

/-- `pmm_init` has run, and `f` is the frame that `vmm_init` will be given. -/
structure NextFrame (B : Boot) (m : Machine) (f : Nat) : Prop where
  allocator : Allocator B.toPlacedMap m
  clear : ∀ g, g < B.totalFrames → (bmpTest m g = false ↔ B.UsableFrame g ∧ ¬ B.InBitmap g)
  only : BitmapOnly B.bitmapBase (sizeBitmap B.machine B.entries B.offset) m
  pos : 0 < f
  lt : f < m.totalFrames
  free : bmpTest m f = false
  alloc : pmmAllocFrame m = (f * pageSize, setFrame m f)

theorem exists_nextFrame {B : Boot} {m : Machine} (hm : B.pmmInit = .ok m) (hpos : 0 < pmmFreeFrames m) :
    ∃ f, NextFrame B m f := by
  obtain ⟨m', hm', hA, hclear, honly⟩ := B.pmmInit_ok
  rw [hm] at hm'
  cases hm'
  rcases hA.alloc_cases with ⟨hzero, _⟩ | ⟨f, hfpos, hlt, hfree, _, halloc⟩
  · omega
  · exact ⟨f, hA, hclear, honly, hfpos, hlt, hfree, halloc⟩

namespace NextFrame
variable {B : Boot} {m : Machine} {f : Nat} {ram : Mem}

theorem usable (h : NextFrame B m f) : B.UsableFrame f ∧ ¬ B.InBitmap f := h.allocator.free_usable f h.lt h.free

theorem bitmapSize (h : NextFrame B m f) : m.bitmapSize = B.bitmapSize := h.only.bitmapSize

/-- Outside the usable frames the memory is the bootloader's. -/
theorem kept (h : NextFrame B m f) {a : Nat} (ha : ¬ B.UsableFrame (a / pageSize)) :
    (setFrame m f).ram a = B.ram a := by
  have hapart := B.bitmap_apart ha
  rw [(h.allocator.toPlaced.setFrame_only h.lt).outside a (by rw [h.bitmapSize]; exact hapart), h.only.outside a hapart]
  rfl

/-- The bootloader's tables are what they were, if only the new root has been written. -/
theorem entry_kept (h : NextFrame B m f) (hsame : ∀ a, a / pageSize ≠ f → ram a = (setFrame m f).ram a) {l t i : Nat}
    (ht : TableOf B.ram B.oldRoot l t) (hi : i < 512) : entryAt ram t i = entryAt B.ram t i := by
  refine entryAt_congr (tableOf_aligned B.oldRoot_mod ht) hi fun a ha _ _ => ?_
  have hua : ¬ B.UsableFrame (a / pageSize) := ha ▸ B.tables l t ht
  rw [hsame a fun heq => hua (heq ▸ h.usable.1), h.kept hua]

/-- What `vmm_init` makes of the bootloader's tables. -/
theorem vmmInit_ram (h : NextFrame B m f) :
    ∃ ram, vmmInit m =
        {setFrame m f with ram, cr3 := f * pageSize, kernelPml4 := physToVirt m (f * pageSize)} ∧
      (∀ a, a / pageSize ≠ f → ram a = (setFrame m f).ram a) ∧
      (∀ i, i < 256 → entryAt ram (f * pageSize) i = 0) ∧
      ∀ i, 256 ≤ i → i < 512 → entryAt ram (f * pageSize) i = entryAt B.ram B.oldRoot i := by
  have hcr3 : m.cr3 &&& pageAddrMask = B.oldRoot := by
    rw [h.only.fields]
    rfl
  have hne : f * pageSize ≠ m.cr3 &&& pageAddrMask := by
    intro heq
    have hold := B.tables 3 B.oldRoot .root
    rw [← hcr3, ← heq, frame_div] at hold
    exact hold h.usable.1
  obtain ⟨ram, hinit, hout, hlower, hupper⟩ := vmmInit_memory h.allocator h.lt h.alloc hne
  refine ⟨ram, hinit, hout, hlower, fun i hge hi => ?_⟩
  rw [hupper i hge hi, hcr3]
  exact h.entry_kept (fun _ _ => rfl) .root hi

end NextFrame

namespace Boot
variable (B : Boot) {m : Machine} {f : Nat} {ram : Mem}

/-- Every present slot of the new root is the bootloader's, so no table below it is the
kernel's own. -/
theorem space_child (i : Nat) : (B.space f ram).child ram (f * pageSize) i = none := by
  refine if_neg fun hchild => ?_
  have hnot : (!present (entryAt ram (f * pageSize) i)) = true := hchild.2.1 rfl
  rw [hchild.2.2] at hnot
  cases hnot

theorem space_bare {q : List Nat} (hq : q ≠ []) : (B.space f ram).tableAt ram q = none := by
  obtain ⟨i, q, rfl⟩ := List.exists_cons_of_ne_nil hq
  show ((B.space f ram).child ram (f * pageSize) i).bind _ = none
  rw [space_child]
  rfl

theorem initRole_no_page (f g k : Nat) : B.initRole f g ≠ .page k := by
  unfold initRole
  split
  · simp
  · split
    · simp
    · split <;> simp

/-- The tables as `vmm_init` leaves them. -/
theorem init_shape (h : NextFrame B m f) (hsame : ∀ a, a / pageSize ≠ f → ram a = (setFrame m f).ram a)
    (hlower : ∀ i, i < 256 → entryAt ram (f * pageSize) i = 0)
    (hupper : ∀ i, 256 ≤ i → i < 512 → entryAt ram (f * pageSize) i = entryAt B.ram B.oldRoot i) :
    Shape (B.space f ram) (B.initRole f) ram := by
  obtain ⟨husable, hbitmap⟩ := h.usable
  refine ⟨?_, ?_, ?_, ?_, ?_⟩
  · intro q t _ ht
    by_cases hq : q = []
    · subst hq
      cases ht
      show f * pageSize % pageSize = 0 ∧ 0 < f * pageSize / pageSize ∧
        f * pageSize / pageSize < B.totalFrames ∧ B.initRole f (f * pageSize / pageSize) = .table []
      rw [frame_div, ← h.allocator.total_eq]
      exact ⟨frame_mod f, h.pos, h.lt, B.initRole_root hbitmap⟩
    · rw [B.space_bare hq] at ht
      cases ht
  · intro q t i c _ ht hc
    by_cases hq : q = []
    · subst hq
      cases ht
      rw [show (B.space f ram).child ram (B.space f ram).root i = none from B.space_child i] at hc
      cases hc
    · rw [B.space_bare hq] at ht
      cases ht
  · rintro l t ⟨hl, ht⟩
    exact ⟨tableOf_aligned B.oldRoot_mod ht, B.initRole_inherited husable hl ht⟩
  · intro i hi ho hp
    have hge : 256 ≤ i := by
      by_contra hlt'
      rw [show entryAt ram (B.space f ram).root i = 0 from hlower i (by omega)] at hp
      cases hp
    rw [show entryAt ram (B.space f ram).root i = _ from hupper i hge hi] at hp ⊢
    exact ⟨Nat.le_refl 2, .child .root hi hp (.inl rfl)⟩
  · rintro l t i ⟨hl, ht⟩ hi hp hsmall
    rw [h.entry_kept hsame ht hi] at hp hsmall ⊢
    exact ⟨by omega, .child ht hi hp (.inr hsmall)⟩

/-- Every frame that is not spare is used. -/
theorem init_used (h : NextFrame B m f) {g : Nat} (hlt : g < m.totalFrames) (hg : B.initRole f g ≠ .spare) :
    bmpTest (setFrame m f) g = true := by
  rw [h.allocator.toPlaced.bmpTest_setFrame h.lt hlt]
  by_cases hgf : g = f
  · simp [hgf]
  · have hused : bmpTest m g = true := by
      by_contra hclear
      rw [Bool.not_eq_true, h.clear g (by rw [← h.allocator.total_eq]; exact hlt)] at hclear
      apply hg
      rw [initRole, if_neg hclear.2, if_neg hgf, if_neg]
      rintro ⟨l, t, _, ht, rfl⟩
      exact B.tables l t ht hclear.1
    rw [hused, Bool.or_true]

/-- **After `pmm_init` and `vmm_init`** the tables have their shape, one frame is
gone, and nothing is mapped in the kernel's own slots. -/
theorem vmmInit_ok (hm : B.pmmInit = .ok m) (hpos : 0 < pmmFreeFrames m) :
    ∃ A role, Initialized B (vmmInit m) A role ∧
      pmmFreeFrames m = pmmFreeFrames (vmmInit m) + 1 := by
  obtain ⟨f, h⟩ := exists_nextFrame hm hpos
  obtain ⟨ram, hinit, hsame, hlower, hupper⟩ := h.vmmInit_ram
  have hdec := h.allocator.free_setFrame h.lt h.free
  have hset := h.allocator.setFrame h.lt h.free
  have hsameFrames : SameFrames B.bitmapBase (setFrame m f) (vmmInit m) := by
    rw [hinit]
    refine ⟨rfl, rfl, rfl, rfl, rfl, fun a hle hlt' => hsame a fun heq => h.usable.2 ?_⟩
    rw [← heq]
    exact B.inBitmap_of_byte hle (by rw [← h.bitmapSize]; exact hlt')
  have hram : (vmmInit m).ram = ram := by rw [hinit]
  refine ⟨B.space f ram, B.initRole f, ⟨rfl, ⟨hset.same hsameFrames, ?_, ?_, ?_, ?_, ?_⟩, ?_, ?_,
    ?_, ?_, fun _ _ => Iff.rfl, B.initRole_no_page f⟩, ?_⟩
  · rw [hram]
    exact B.init_shape h hsame hlower hupper
  · rw [hinit]
    rfl
  · rw [hinit]
    rfl
  · intro g hg
    rw [show (vmmInit m).totalFrames = m.totalFrames from hsameFrames.total]
    by_cases hglt : g < m.totalFrames
    · refine .inr ?_
      rw [hsameFrames.bmpTest hset.toPlaced hglt]
      exact B.init_used h hglt hg
    · exact .inl (Nat.le_of_not_lt hglt)
  · intro g hg
    exact if_pos hg
  · intro i _
    rw [hram]
    rfl
  · rw [hram]
    exact hlower
  · rw [hram]
    exact hupper
  · intro q hq
    rw [hram]
    exact B.space_bare hq
  · have hfreeEq : pmmFreeFrames (vmmInit m) = pmmFreeFrames (setFrame m f) := hsameFrames.free
    omega

end Boot

/-! ### A plain machine -/

theorem flatMap_offset_lt : 0xFFFF800000000000 < 2 ^ 64 := by decide

theorem flatMap_physical {n : Nat} (hn : n < 2 ^ 15) : 0x1000 + n * pageSize ≤ 2 ^ 52 := by
  unfold pageSize
  omega

/-- `n` usable pages from `0x1000` up. -/
def flatMap (n : Nat) (hn : 0 < n ∧ n < 2 ^ 15) : LimineMap where
  entries := [⟨0x1000, n * pageSize, limineMemmapUsable⟩]
  offset := 0xFFFF800000000000
  offset_lt := flatMap_offset_lt
  aligned := by
    intro e he _
    rw [List.mem_singleton.mp he]
    exact ⟨show 0x1000 % pageSize = 0 by decide, Nat.mul_mod_left _ _⟩
  apart := List.pairwise_singleton _ _
  above := by
    intro e he _
    rw [List.mem_singleton.mp he]
  physical := by
    intro e he _
    rw [List.mem_singleton.mp he]
    exact flatMap_physical hn.2

section Flat
variable {n : Nat} (hn : 0 < n ∧ n < 2 ^ 15)

theorem flatMap_total : (flatMap n hn).totalFrames = n + 1 := by
  have htop : add64 0x1000 (n * pageSize) = (n + 1) * pageSize := by
    unfold pageSize
    rw [add64_eq (by omega)]
    omega
  show highestTop [⟨0x1000, n * pageSize, limineMemmapUsable⟩] 0 / pageSize = n + 1
  rw [highestTop_usable (e := ⟨0x1000, n * pageSize, limineMemmapUsable⟩) [] rfl]
  show (if add64 0x1000 (n * pageSize) > 0 then add64 0x1000 (n * pageSize) else 0) / pageSize = n + 1
  rw [htop, if_pos (by unfold pageSize; omega), frame_div]

theorem flatMap_canHold : MemoryMap.CanHold (flatMap n hn).bitmapSize
    ⟨0x1000, n * pageSize, limineMemmapUsable⟩ := by
  refine ⟨rfl, ?_⟩
  rw [MemoryMap.bitmapSize, flatMap_total]
  show (n + 1 + 7) / 8 ≤ n * pageSize
  unfold pageSize
  omega

/-- The same pages behind an empty memory, with a table root in page zero. -/
def flatBoot : Boot where
  toLimineMap := flatMap n hn
  fits := ⟨_, List.mem_singleton_self _, flatMap_canHold hn⟩
  ram := fun _ => 0
  cr3 := 0
  direct := by
    rw [flatMap_total]
    show 0xFFFF800000000000 + (n + 1) * pageSize ≤ 2 ^ 64
    unfold pageSize
    omega
  tables := by
    have habsent : ∀ t i, present (entryAt (fun _ => 0) t i) = false :=
      fun t i => present_zero fun _ _ _ => rfl
    intro l t ht husable
    cases ht with
    | root =>
      obtain ⟨e, he, _, hle, _⟩ := husable
      rw [List.mem_singleton.mp he] at hle
      exact absurd hle (show ¬ 0x1000 ≤ (0 &&& pageAddrMask) / pageSize * pageSize by decide)
    | child _ _ hpres _ =>
      rw [habsent] at hpres
      cases hpres

/-- The bitmap takes the first of the pages; the others are free. -/
theorem flatMap_free {B : Boot} (hB : B.toPlacedMap = (flatBoot hn).toPlacedMap) {m : Machine}
    (hm : B.pmmInit = .ok m) : pmmFreeFrames m = n - 1 := by
  obtain ⟨map, ram, cr3, direct, tables⟩ := B
  change map = _ at hB
  subst hB
  obtain ⟨m', hm', hA, hbits, _⟩ := Boot.pmmInit_ok ⟨_, ram, cr3, direct, tables⟩
  rw [hm] at hm'
  cases hm'
  have htotal : m.totalFrames = n + 1 := hA.total_eq.trans (flatMap_total hn)
  have hbase : (flatBoot hn).bitmapBase = 0x1000 := by
    have hfind : (flatBoot hn).entries.find?
        (fun e => decide (MemoryMap.CanHold (flatBoot hn).bitmapSize e)) = some _ :=
      List.find?_cons_of_pos (decide_eq_true (flatMap_canHold hn))
    rw [MemoryMap.bitmapBase, hfind]
    rfl
  have hsize : (flatBoot hn).bitmapSize = (n + 1 + 7) / 8 := by
    rw [MemoryMap.bitmapSize]
    exact congrArg (fun t => (t + 7) / 8) (flatMap_total hn)
  have hused : ∀ f, f < n + 1 → bmpTest m f = decide (f < 2) := by
    intro f hf
    have hiff := hbits f (by rw [show (flatBoot hn).totalFrames = n + 1 from flatMap_total hn]; exact hf)
    have husable : (flatBoot hn).UsableFrame f ↔ 1 ≤ f := by
      constructor
      · rintro ⟨e, he, _, hle, _⟩
        rw [List.mem_singleton.mp he] at hle
        change 0x1000 ≤ f * pageSize at hle
        unfold pageSize at hle
        omega
      · intro hle
        refine ⟨_, List.mem_singleton_self _, rfl, ?_, ?_⟩
        · show 0x1000 ≤ f * pageSize
          unfold pageSize
          omega
        · show f * pageSize + pageSize ≤ 0x1000 + n * pageSize
          unfold pageSize
          omega
    have hin : (flatBoot hn).InBitmap f ↔ f = 1 := by
      rw [MemoryMap.InBitmap, hbase, hsize]
      unfold pageSize
      omega
    rw [husable, hin] at hiff
    cases hbit : bmpTest m f
    · have := hiff.mp hbit
      rw [decide_eq_false (by omega)]
    · have : ¬ (1 ≤ f ∧ f ≠ 1) := fun h => by rw [hiff.mpr h] at hbit; cases hbit
      rw [decide_eq_true (by omega)]
  have hones : Bitmap.ones (bmpTest m) (n + 1) = 2 := by
    rw [Bitmap.ones_congr hused]
    exact Bitmap.ones_below (by omega)
  rw [hA.free_eq, hA.used, htotal, hones]
  omega

theorem flatBoot_free {m : Machine} (hm : (flatBoot hn).pmmInit = .ok m) : pmmFreeFrames m = n - 1 :=
  flatMap_free hn rfl hm

end Flat

end ArcMonark.Mm.Vmm
