import ArcMonark.Mm.Boot
import ArcMonark.Library.Runs

/-! Page tables refine a map.

The abstract address space is a map from page numbers to pages. After `vmm_init`
the kernel maps and unmaps pages in the PML4 slots that were absent, in any
order; the map is updated at the page of each call, and in every state of every
run the hardware walk is a lookup in it (`page_tables_refine_map`). -/
namespace ArcMonark.Mm.Vmm
open Library Pmm

/-! ### The abstract address space -/

/-- Where a page leads and what it allows. -/
structure Page where
  frame : Nat
  write : Bool
  user : Bool
  nx : Bool
  deriving DecidableEq, Repr

/-- A page, or none, for every page number. -/
abbrev PageMap := Nat → Option Page

namespace PageMap

def set (p : PageMap) (n : Nat) (page : Option Page) : PageMap := fun k => if k = n then page else p k

/-- Mapping updates one page, with the permissions the flags give. -/
def map (p : PageMap) (virt phys flags : Nat) : PageMap :=
  p.set (virt / pageSize)
    (some ⟨phys &&& pageAddrMask, flags.testBit 1, flags.testBit 2, flags.testBit 63⟩)

def unmap (p : PageMap) (virt : Nat) : PageMap := p.set (virt / pageSize) none

/-- An address is its page's frame and its offset in the page. -/
def translate (p : PageMap) (v : Nat) : Option Translation :=
  (p (v / pageSize)).map fun page => ⟨page.frame + v % pageSize, page.write, page.user, page.nx⟩

/-- The pages that a walk of tables finds. -/
def ofWalk (ram : Mem) (root : Nat) : PageMap := fun n =>
  (walk ram root (n * pageSize)).map fun t => ⟨t.phys, t.write, t.user, t.nx⟩

theorem translate_set (p : PageMap) {n v : Nat} (page : Option Page) (h : v / pageSize ≠ n) :
    (p.set n page).translate v = p.translate v := by
  rw [translate, translate, set, if_neg h]

theorem translate_set_same (p : PageMap) {n v : Nat} (page : Option Page) (h : v / pageSize = n) :
    (p.set n page).translate v =
      page.map fun page => ⟨page.frame + v % pageSize, page.write, page.user, page.nx⟩ := by
  rw [translate, set, if_pos h]

end PageMap

/-! ### Walks are page-wise -/

/-- Every page size is a multiple of the small one. -/
theorem leafPhys_page (level e v : Nat) :
    leafPhys level e v = leafPhys level e (v / pageSize * pageSize) + v % pageSize := by
  have hpow : 2 ^ (12 + 9 * level) = pageSize * 2 ^ (9 * level) := by
    rw [Nat.pow_add]
    rfl
  have hmod : v % 2 ^ (12 + 9 * level) =
      v / pageSize * pageSize % 2 ^ (12 + 9 * level) + v % pageSize := by
    rw [hpow, Nat.mul_comm (v / pageSize), Nat.mul_mod_mul_left, Nat.mod_mul, Nat.add_comm]
  rw [leafPhys, leafPhys, hmod]
  exact (Nat.add_assoc _ _ _).symm

theorem levelIndex_page (level v : Nat) : levelIndex level (v / pageSize * pageSize) = levelIndex level v := by
  have hpow : 2 ^ (12 + 9 * level) = pageSize * 2 ^ (9 * level) := by
    rw [Nat.pow_add]
    rfl
  rw [levelIndex_eq, levelIndex_eq, hpow, ← Nat.div_div_eq_div_mul, ← Nat.div_div_eq_div_mul,
    frame_div]

theorem walkFrom_page (ram : Mem) (v level t : Nat) (write user nx : Bool) :
    walkFrom ram v level t write user nx =
      (walkFrom ram (v / pageSize * pageSize) level t write user nx).map fun tr =>
        {tr with phys := tr.phys + v % pageSize} := by
  induction level generalizing t write user nx with
  | zero =>
    simp only [walkFrom, levelIndex_page]
    split
    · rw [leafPhys_page 0 _ v]
      rfl
    · rfl
  | succ level ih =>
    simp only [walkFrom, levelIndex_page]
    split
    · split
      · rw [leafPhys_page (level + 1) _ v]
        rfl
      · exact ih _ _ _ _
    · rfl

/-- The tables of any memory translate as the map they make does. -/
theorem walk_eq_translate (ram : Mem) (root v : Nat) :
    walk ram root v = (PageMap.ofWalk ram root).translate v := by
  rw [walk, walkFrom_page, PageMap.translate, PageMap.ofWalk, Option.map_map]
  rfl

/-! ### Runs -/

/-- The machine just after `vmm_init`, the machine now, and the abstract map. -/
structure SpaceRun where
  start : Machine
  machine : Machine
  pages : PageMap

/-- A 48-bit address in a slot that was absent after `vmm_init`. -/
def SpaceRun.Own (w : SpaceRun) (v : Nat) : Prop :=
  Canonical v ∧ present (entryAt w.start.ram w.start.cr3 (levelIndex 3 v)) = false

/-- A word of permission bits: nothing of an address, and no large-page bit. -/
def IsFlags (flags : Nat) : Prop :=
  flags < 2 ^ 64 ∧ flags &&& pageAddrMask = 0 ∧ flags.testBit 7 = false

inductive SpaceEvent where
  | map (virt phys flags : Nat)
  | unmap (virt : Nat)
  /-- `pmm_alloc_frame`, called by anyone for anything. -/
  | alloc

inductive SpaceStep : SpaceRun → SpaceEvent → SpaceRun → Prop where
  | map {w virt phys flags m} : w.Own virt → IsFlags flags →
      vmmMap w.machine w.machine.kernelPml4 virt phys flags = .ok m →
      SpaceStep w (.map virt phys flags) ⟨w.start, m, w.pages.map virt phys flags⟩
  | unmap {w virt m} : w.Own virt → vmmUnmap w.machine w.machine.kernelPml4 virt = .ok m →
      SpaceStep w (.unmap virt) ⟨w.start, m, w.pages.unmap virt⟩
  | alloc {w} : SpaceStep w .alloc ⟨w.start, (pmmAllocFrame w.machine).2, w.pages⟩

/-- `pmm_init` and `vmm_init` on what the bootloader left, then any calls. -/
def space (B : Boot) : System SpaceRun SpaceEvent where
  init := fun w => ∃ m, B.pmmInit = .ok m ∧ 0 < pmmFreeFrames m ∧
    w = ⟨vmmInit m, vmmInit m, PageMap.ofWalk (vmmInit m).ram (vmmInit m).cr3⟩
  step := SpaceStep

/-- The tables have their shape, the kernel's slots are those absent at the start,
and the walk is the map. -/
structure Refined (A : Space) (role : Nat → Role) (w : SpaceRun) : Prop where
  tables : Tables A role w.machine
  owned : ∀ v, A.owned (levelIndex 3 v) = !present (entryAt w.start.ram w.start.cr3 (levelIndex 3 v))
  walk : ∀ v, Canonical v → walk w.machine.ram A.root v = w.pages.translate v

namespace Refined
variable {A : Space} {role : Nat → Role} {w : SpaceRun}

theorem own (h : Refined A role w) {v : Nat} (hv : w.Own v) : A.owned (levelIndex 3 v) = true := by
  rw [h.owned, hv.2]
  rfl

/-- A written leaf entry is a page of the map. -/
theorem written (h : Refined A role w) {virt e : Nat} {role' : Nat → Role} {m : Machine}
    {page : Option Page} (hv : w.Own virt) (ht : Tables A role' m)
    (hw : Written A virt e role role' w.machine m)
    (hleaf : ∀ v, leafOf e v =
      page.map fun page => ⟨page.frame + v % pageSize, page.write, page.user, page.nx⟩) :
    Refined A role' ⟨w.start, m, w.pages.set (virt / pageSize) page⟩ := by
  refine ⟨ht, h.owned, fun v hcanon => ?_⟩
  show Vmm.walk m.ram A.root v = _
  rw [hw.walk]
  by_cases hsame : SamePage virt v
  · have hpage := page_eq_of_indices hcanon hv.1 hsame.1 hsame.2
    rw [if_pos hsame, hleaf, PageMap.translate_set_same _ _ hpage]
  · have hpage : v / pageSize ≠ virt / pageSize := fun heq => hsame (indices_of_page_eq heq)
    rw [if_neg hsame, h.walk v hcanon, PageMap.translate_set _ _ hpage]

end Refined

/-- What `vmm_map` writes is the page of the abstract map. -/
theorem leafOf_leafEntry {phys flags : Nat} (hf : IsFlags flags) (v : Nat) :
    leafOf (leafEntry phys flags) v = some
      ⟨(phys &&& pageAddrMask) + v % pageSize, flags.testBit 1, flags.testBit 2, flags.testBit 63⟩ := by
  have hphys : leafPhys 0 (leafEntry phys flags) v = (phys &&& pageAddrMask) + v % pageSize := by
    rw [leafPhys, leafEntry_addr hf.2.1]
    exact congrArg (· + v % pageSize) (Nat.div_mul_cancel (Nat.dvd_of_mod_eq_zero (mask_mod phys)))
  rw [leafOf, if_pos (leafEntry_present phys flags), hphys, testBit_leafEntry (by decide),
    testBit_leafEntry (by decide), testBit_leafEntry (by decide)]

theorem refined_step {A : Space} {role : Nat → Role} {w w' : SpaceRun} {i : SpaceEvent}
    (h : Refined A role w) (hs : SpaceStep w i w') : ∃ role', Refined A role' w' := by
  cases hs with
  | @map virt phys flags m hv hf hmap =>
    by_cases hfree : missing A w.machine.ram [] (path virt) ≤ pmmFreeFrames w.machine
    · obtain ⟨role', m', hok, ht, hw, _, _⟩ := h.tables.map_ok (h.own hv) phys hf.1 hfree
      rw [hok] at hmap
      cases hmap
      exact ⟨role', h.written hv ht hw fun v => leafOf_leafEntry hf v⟩
    · rw [h.tables.map_fault (h.own hv) (Nat.lt_of_not_le hfree)] at hmap
      cases hmap
  | @unmap virt m hv hunmap =>
    obtain ⟨m', hok, ht, hw⟩ := h.tables.unmap (h.own hv)
    rw [hok] at hunmap
    cases hunmap
    exact ⟨role, h.written hv ht hw fun v => leafOf_zero v⟩
  | alloc =>
    obtain ⟨ht, hwalk⟩ := h.tables.alloc
    exact ⟨role, ht, h.owned, fun v hv => (hwalk v).trans (h.walk v hv)⟩

theorem refined_reachable {B : Boot} {w : SpaceRun} (h : (space B).Reachable w) :
    ∃ A role, Refined A role w := by
  refine System.invariant (P := fun w => ∃ A role, Refined A role w) ?_ ?_ h
  · rintro w ⟨m, hm, hpos, rfl⟩
    obtain ⟨A, role, hinit, _⟩ := B.vmmInit_ok hm hpos
    have hcr3 := hinit.tables.cr3
    refine ⟨A, role, hinit.tables, fun v => ?_, fun v _ => ?_⟩
    · rw [hinit.owned _ (levelIndex_lt 3 v), hcr3]
    · rw [← hcr3]
      exact walk_eq_translate _ _ v
  · rintro w i w' ⟨A, role, h⟩ hs
    obtain ⟨role', h'⟩ := refined_step h hs
    exact ⟨A, role', h'⟩

/-- The walk from `p` on misses no more tables than there are levels. -/
theorem missing_le (A : Space) (ram : Mem) (p is : List Nat) : missing A ram p is ≤ is.length := by
  induction is generalizing p with
  | nil => exact Nat.le_refl 0
  | cons i is ih =>
    have := ih (p ++ [i])
    rw [missing, List.length_cons]
    split <;> omega

/-- **Page tables refine a map.** In every state of every run the hardware walk of
a 48-bit address is a lookup in the abstract map, which each call updates at its
own page only; with three free frames `vmm_map` returns, and `vmm_unmap` always
does. -/
theorem page_tables_refine_map (B : Boot) {w : SpaceRun} (h : (space B).Reachable w) :
    (∀ v, Canonical v → walk w.machine.ram w.machine.cr3 v = w.pages.translate v) ∧
      (∀ virt phys flags, w.Own virt → IsFlags flags → 3 ≤ pmmFreeFrames w.machine →
        ∃ m, vmmMap w.machine w.machine.kernelPml4 virt phys flags = .ok m) ∧
      ∀ virt, w.Own virt → ∃ m, vmmUnmap w.machine w.machine.kernelPml4 virt = .ok m := by
  obtain ⟨A, role, hw⟩ := refined_reachable h
  refine ⟨fun v hv => ?_, fun virt phys flags hv hf hfree => ?_, fun virt hv => ?_⟩
  · rw [hw.tables.cr3]
    exact hw.walk v hv
  · have hmissing := missing_le A w.machine.ram [] (path virt)
    obtain ⟨_, m, hok, _⟩ := hw.tables.map_ok (hw.own hv) phys hf.1
      (Nat.le_trans hmissing hfree)
    exact ⟨m, hok⟩
  · obtain ⟨m, hok, _⟩ := hw.tables.unmap (hw.own hv)
    exact ⟨m, hok⟩

theorem page_tables_refine_map_flatBoot :
    ∃ w, (space (flatBoot (n := 8) (by decide))).Reachable w ∧
      walk w.machine.ram w.machine.cr3 0xFFFFA00000000123 = some ⟨0x5123, true, false, false⟩ := by
  obtain ⟨m, hm, _⟩ := (flatBoot (n := 8) (by decide)).pmmInit_ok
  have hfree : pmmFreeFrames m = 7 := flatBoot_free _ hm
  obtain ⟨A, role, hinit, hfree'⟩ := (flatBoot (n := 8) (by decide)).vmmInit_ok hm (by omega)
  have hstart : (space (flatBoot (n := 8) (by decide))).Reachable _ :=
    .start ⟨m, hm, by omega, rfl⟩
  have hown : SpaceRun.Own ⟨vmmInit m, vmmInit m, PageMap.ofWalk (vmmInit m).ram (vmmInit m).cr3⟩
      0xFFFFA00000000000 := by
    refine ⟨.inr (by decide), ?_⟩
    show present (entryAt (vmmInit m).ram (vmmInit m).cr3 320) = false
    rw [hinit.tables.cr3, hinit.upper 320 (by decide) (by decide)]
    exact present_zero fun _ _ _ => rfl
  have hflags : IsFlags pageWrite := by unfold IsFlags; decide
  obtain ⟨_, hmap, _⟩ := page_tables_refine_map _ hstart
  obtain ⟨m', hok⟩ := hmap 0xFFFFA00000000000 0x5000 pageWrite hown hflags
    (show 3 ≤ pmmFreeFrames (vmmInit m) by omega)
  have hmapped := System.Reachable.step hstart (SpaceStep.map hown hflags hok)
  refine ⟨_, hmapped, ?_⟩
  rw [(page_tables_refine_map _ hmapped).1 _ (.inr (by decide)), PageMap.map,
    PageMap.translate_set_same _ _ (by decide)]
  decide

end ArcMonark.Mm.Vmm
