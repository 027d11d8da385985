import ArcMonark.Mm.VmmWalk

/-! What `vmm.c` does to well-shaped tables.

`Tables` joins the shape of the page tables to the frame allocator: what has a
role is marked used, so a frame just allocated has none. `vmm_map` succeeds
exactly when the free frames suffice for the missing tables on its way
(`Tables.map_ok`, `Tables.map_fault`), and changes one translation. -/
namespace ArcMonark.Mm.Vmm
open Library Pmm
open Library.Trie (reach Graft)

structure Tables (A : Space) (role : Nat → Role) (m : Machine) : Prop extends Allocator A.map m where
  shape : Shape A role m.ram
  cr3 : m.cr3 = A.root
  pml4 : m.kernelPml4 = physToVirt m A.root
  taken : ∀ f, role f ≠ .spare → m.totalFrames ≤ f ∨ bmpTest m f = true
  bitmap_role : ∀ f, A.map.InBitmap f → role f = .bitmap

/-- Memory that mapping leaves alone: the bootloader's tables and the heap's pages. -/
def Role.IsData : Role → Prop
  | .inherited => True
  | .page _ => True
  | _ => False

/-- From `m` to `m'` tables were added on the way to `v` at most. -/
structure Grown (A : Space) (v : Nat) (role role' : Nat → Role) (m m' : Machine) : Prop where
  fields : m' = {m with ram := m'.ram, usedFrames := m'.usedFrames}
  kept : ∀ f, role f ≠ .spare → role' f = role f
  fresh : ∀ f, role f = .spare → role' f = .spare ∨ ∃ p, role' f = .table p
  data : ∀ a, (role (a / pageSize)).IsData → m'.ram a = m.ram a
  walk : ∀ w, walk m'.ram A.root w = walk m.ram A.root w
  mono : ∀ q t, q.length ≤ 3 → A.tableAt m.ram q = some t → A.tableAt m'.ram q = some t
  only : ∀ q t, q.length ≤ 3 → A.tableAt m'.ram q = some t → A.tableAt m.ram q = some t ∨ q <+: path v

namespace Grown
variable {A : Space} {v : Nat} {role role' role'' : Nat → Role} {m m' m'' : Machine}

theorem refl (A : Space) (v : Nat) (role : Nat → Role) (m : Machine) : Grown A v role role m m :=
  ⟨rfl, fun _ _ => rfl, fun _ h => .inl h, fun _ _ => rfl, fun _ => rfl, fun _ _ _ h => h,
    fun _ _ _ h => .inl h⟩

theorem trans (h : Grown A v role role' m m') (h' : Grown A v role' role'' m' m'') :
    Grown A v role role'' m m'' := by
  refine ⟨by rw [h'.fields, h.fields], ?_, ?_, ?_, ?_, ?_, ?_⟩
  · intro f hf
    rw [h'.kept f (by rw [h.kept f hf]; exact hf), h.kept f hf]
  · intro f hf
    rcases h.fresh f hf with hspare | ⟨p, hp⟩
    · exact h'.fresh f hspare
    · exact .inr ⟨p, by rw [h'.kept f (by rw [hp]; simp), hp]⟩
  · intro a ha
    have hne : role (a / pageSize) ≠ .spare := by
      intro hs
      rw [hs] at ha
      exact ha
    rw [h'.data a (by rw [h.kept _ hne]; exact ha), h.data a ha]
  · intro w
    rw [h'.walk, h.walk]
  · intro q t hq ht
    exact h'.mono q t hq (h.mono q t hq ht)
  · intro q t hq ht
    rcases h'.only q t hq ht with hold | hpre
    · exact h.only q t hq hold
    · exact .inr hpre

end Grown

/-! ### Pointers into the direct map -/

section Pointers
variable {m : Machine} (hoff : m.hhdmOffset < 2 ^ 64) {t i : Nat} (ht : t < 2 ^ 52)
include hoff ht

/-- Indexing a table through the direct map. -/
theorem slotAddr_phys (hi : i < 512) : slotAddr m (physToVirt m t) i = t + 8 * i :=
  sub64_add64_add64 (by omega) hoff

theorem tableGet_phys (hi : i < 512) : tableGet m (physToVirt m t) i = entryAt m.ram t i := by
  rw [tableGet, slotAddr_phys hoff ht hi]
  rfl

theorem direct_phys : m.direct (physToVirt m t) = t := sub64_add64 (by omega) hoff

end Pointers

namespace Tables
variable {A : Space} {role : Nat → Role} {m : Machine}

theorem spare_of_free (h : Tables A role m) {f : Nat} (hf : f < m.totalFrames)
    (hfree : bmpTest m f = false) : role f = .spare := by
  by_contra hne
  rcases h.taken f hne with hge | hset
  · omega
  · rw [hfree] at hset
    cases hset

/-- The pointer to a frame of the allocator's is not null. -/
theorem ptr_ne_null (h : Tables A role m) {t : Nat} (hpos : 0 < t / pageSize)
    (hlt : t / pageSize < A.map.totalFrames) : physToVirt m t ≠ null := by
  have hd := A.direct
  have hoff := h.offset_eq
  unfold physToVirt add64 null
  unfold pageSize at *
  omega

theorem table_ne_null (h : Tables A role m) {p : List Nat} {t : Nat} (hp : p.length ≤ 3)
    (ht : A.tableAt m.ram p = some t) : physToVirt m t ≠ null := by
  obtain ⟨_, hpos, hlt, _⟩ := h.shape.table p t hp ht
  exact h.ptr_ne_null hpos hlt

theorem slotAddr_eq (h : Tables A role m) {t i : Nat} (ht : t < 2 ^ 52) (hi : i < 512) :
    slotAddr m (physToVirt m t) i = t + 8 * i := slotAddr_phys h.offset ht hi

/-- The bitmap's bytes lie in no page of another role. -/
theorem bitmap_byte (h : Tables A role m) {a : Nat} (hle : A.map.bitmapBase ≤ a)
    (hlt : a < A.map.bitmapBase + m.bitmapSize) : role (a / pageSize) = .bitmap :=
  h.bitmap_role _ (h.toAllocator.inBitmap_byte hle hlt)

end Tables

/-! ### One level -/

/-- The machine after a fresh frame `f` was linked in at entry `i` of table `t`. -/
def linkFrame (m : Machine) (t i f : Nat) : Machine :=
  tableSet (zeroPage (setFrame m f) (physToVirt m (f * pageSize))) (physToVirt m t) i
    (linkEntry (f * pageSize))

theorem linkFrame_ram {m : Machine} {t i f : Nat} (hoff : m.hhdmOffset < 2 ^ 64) (ht : t < 2 ^ 52)
    (hi : i < 512) (hf : f * pageSize < 2 ^ 52) :
    (linkFrame m t i f).ram =
      (memset (setFrame m f).ram (f * pageSize) 0 pageSize).store64 (t + 8 * i)
        (linkEntry (f * pageSize)) := by
  have hslot := slotAddr_phys hoff ht hi
  have hdirect := direct_phys hoff hf
  show (memset _ (m.direct (physToVirt m (f * pageSize))) 0 pageSize).store64
    (slotAddr m (physToVirt m t) i) _ = _
  rw [hslot, hdirect]

section LinkFrame
variable {P : PlacedMap} {m : Machine} {t i f : Nat} (h : Allocator P m) (hlt : f < m.totalFrames)
  (hfree : bmpTest m f = false)
include h hlt hfree

/-- One frame fewer is free. -/
theorem linkFrame_free : pmmFreeFrames m = pmmFreeFrames (linkFrame m t i f) + 1 := by
  have hpos := h.free_pos_iff.mpr ⟨f, hlt, hfree⟩
  have hdec := h.free_setFrame hlt hfree
  show pmmFreeFrames m = pmmFreeFrames (setFrame m f) + 1
  omega

variable (ht : t < 2 ^ 52) (htmod : t % pageSize = 0) (hi : i < 512) (hbit : ¬ P.InBitmap (t / pageSize))
include ht htmod hi hbit

/-- The new frame and the new entry are not the bitmap's. -/
theorem linkFrame_frames : SameFrames P.bitmapBase (setFrame m f) (linkFrame m t i f) := by
  refine ⟨rfl, rfl, rfl, rfl, rfl, fun a hle hlt' => ?_⟩
  have hin := h.inBitmap_byte hle hlt'
  have htotal := h.total_le
  have hpage : a / pageSize ≠ f := by
    intro heq
    rw [heq] at hin
    exact (h.free_usable f hlt hfree).2 hin
  have hpage' : a / pageSize ≠ t / pageSize := by
    intro heq
    rw [heq] at hin
    exact hbit hin
  rw [linkFrame_ram h.offset ht hi (by unfold pageSize; omega),
    Mem.store64_of_outside _ _ (by unfold pageSize at *; omega),
    memset_outside _ _ (by unfold pageSize at *; omega)]

theorem linkFrame_allocator : Allocator P (linkFrame m t i f) :=
  (h.setFrame hlt hfree).same (linkFrame_frames h hlt hfree ht htmod hi hbit)

theorem bmpTest_linkFrame {g : Nat} (hg : g < m.totalFrames) :
    bmpTest (linkFrame m t i f) g = (decide (g = f) || bmpTest m g) := by
  have hsame := linkFrame_frames h hlt hfree ht htmod hi hbit
  rw [hsame.bmpTest (h.setFrame hlt hfree).toPlaced (f := g) hg, h.toPlaced.bmpTest_setFrame hlt hg]

end LinkFrame

/-- An entry of a table is apart from the bitmap. -/
theorem tableSet_frames {P : PlacedMap} {m : Machine} {t i : Nat} (h : Allocator P m) (ht : t < 2 ^ 52)
    (htmod : t % pageSize = 0) (hi : i < 512) (hbit : ¬ P.InBitmap (t / pageSize)) (e : Nat) :
    SameFrames P.bitmapBase m (tableSet m (physToVirt m t) i e) := by
  refine ⟨rfl, rfl, rfl, rfl, rfl, fun a hle hlt => ?_⟩
  have hin := h.inBitmap_byte hle hlt
  have hpage : a / pageSize ≠ t / pageSize := by
    intro heq
    rw [heq] at hin
    exact hbit hin
  show m.ram.store64 (slotAddr m (physToVirt m t) i) e a = _
  rw [slotAddr_phys h.offset ht hi]
  exact Mem.store64_of_outside _ _ (by unfold pageSize at *; omega)

/-! ### What `get_next_level` returns -/

section NextLevel
variable {m : Machine} {t i : Nat} (hoff : m.hhdmOffset < 2 ^ 64) (ht : t < 2 ^ 52) (hi : i < 512)
  (hptr : physToVirt m t ≠ null)
include hoff ht hi hptr

theorem getNextLevel_present (hp : present (entryAt m.ram t i) = true) (allocate : Bool) :
    getNextLevel m (physToVirt m t) i allocate = .ok (physToVirt m (entryAt m.ram t i &&& pageAddrMask), m) := by
  have hget := tableGet_phys hoff ht hi
  rw [getNextLevel, if_neg hptr, hget, if_pos ((present_iff _).mpr hp)]

theorem getNextLevel_absent (hp : present (entryAt m.ram t i) = false) :
    getNextLevel m (physToVirt m t) i false = .ok (null, m) := by
  have hget := tableGet_phys hoff ht hi
  have habsent : ¬ (entryAt m.ram t i &&& pagePresent ≠ 0) := by
    rw [present_iff, hp]
    exact Bool.false_ne_true
  rw [getNextLevel, if_neg hptr, hget, if_neg habsent]
  rfl

/-- A missing table is made when there is a frame for it. -/
theorem getNextLevel_alloc {P : PlacedMap} (h : Allocator P m) (hp : present (entryAt m.ram t i) = false) :
    (pmmFreeFrames m = 0 ∧ getNextLevel m (physToVirt m t) i true = .ok (null, m)) ∨
      ∃ f, 0 < f ∧ f < m.totalFrames ∧ bmpTest m f = false ∧
        getNextLevel m (physToVirt m t) i true = .ok (physToVirt m (f * pageSize), linkFrame m t i f) := by
  have hget := tableGet_phys hoff ht hi
  have habsent : ¬ (tableGet m (physToVirt m t) i &&& pagePresent ≠ 0) := by
    rw [hget, present_iff, hp]
    exact Bool.false_ne_true
  rcases h.alloc_cases with ⟨hzero, hnull⟩ | ⟨f, hpos, hlt, hfree, _, hsome⟩
  · refine .inl ⟨hzero, ?_⟩
    simp [getNextLevel, hptr, habsent, hnull]
  · have hfne : f * pageSize ≠ null := by
      unfold pageSize null
      omega
    refine .inr ⟨f, hpos, hlt, hfree, ?_⟩
    simp only [getNextLevel, hptr, if_false, habsent, hsome, hfne]
    rfl

end NextLevel

namespace Tables
variable {A : Space} {role : Nat → Role} {m : Machine} {p : List Nat} {t i f : Nat}

section Linking
variable (h : Tables A role m) (hp : p.length ≤ 2) (ht : A.tableAt m.ram p = some t) (hi : i < 512)
  (hlt : f < m.totalFrames)
include h hp ht hi hlt

/-- Apart from the new entry and the new frame, only the bitmap changes. -/
theorem linkFrame_same {a : Nat} (hpage : a / pageSize ≠ f)
    (hslot : a < t + 8 * i ∨ t + 8 * i + 8 ≤ a) (hbitmap : role (a / pageSize) ≠ .bitmap) :
    (linkFrame m t i f).ram a = m.ram a := by
  have ht52 := h.shape.table_lt (by omega) ht
  have htotal := h.toAllocator.total_le
  rw [linkFrame_ram h.offset ht52 hi (by unfold pageSize; omega), Mem.store64_of_outside _ _ hslot,
    memset_outside _ _ (by unfold pageSize at *; omega)]
  refine (h.toPlaced.setFrame_only hlt).outside a ?_
  by_contra hin
  push Not at hin
  exact hbitmap (h.bitmap_byte hin.1 hin.2)

variable (hfree : bmpTest m f = false)
include hfree

theorem linkFrame_links : Links role m.ram (linkFrame m t i f).ram t i f := by
  obtain ⟨htmod, _, _, htrole⟩ := h.shape.table p t (by omega) ht
  have ht52 := h.shape.table_lt (by omega) ht
  have hspare := h.spare_of_free hlt hfree
  have htotal := h.toAllocator.total_le
  have hf52 : f * pageSize < 2 ^ 52 := by unfold pageSize; omega
  have htf : t / pageSize ≠ f := by
    intro heq
    rw [heq, hspare] at htrole
    cases htrole
  refine ⟨?_, ?_, ?_⟩
  · rw [linkFrame_ram h.offset ht52 hi hf52]
    exact Mem.load64_store64_same _ _ (linkEntry_lt hf52)
  · intro a ha
    rw [linkFrame_ram h.offset ht52 hi hf52,
      Mem.store64_of_outside _ _ (by unfold pageSize at *; omega),
      memset_inside _ _ (by unfold pageSize at *; omega) (by unfold pageSize at *; omega)]
  · intro a ha hout
    refine h.linkFrame_same hp ht hi hlt ?_ hout ?_
    · intro heq
      rw [heq, hspare] at ha
      exact ha
    · intro heq
      rw [heq] at ha
      exact ha

theorem linkFrame_tables (hpos : 0 < f) (ho : p = [] → A.owned i = true)
    (habsent : present (entryAt m.ram t i) = false) :
    Tables A (assign role f (.table (p ++ [i]))) (linkFrame m t i f) := by
  obtain ⟨htmod, _, _, htrole⟩ := h.shape.table p t (by omega) ht
  have hspare := h.spare_of_free hlt hfree
  have hL := h.linkFrame_links hp ht hi hlt hfree
  have ht52 := h.shape.table_lt (by omega) ht
  have hbit : ¬ A.map.InBitmap (t / pageSize) := by
    intro hin
    rw [h.bitmap_role _ hin] at htrole
    cases htrole
  have halloc := linkFrame_allocator h.toAllocator hlt hfree ht52 htmod hi hbit
  have hbits := fun g (hg : g < m.totalFrames) =>
    bmpTest_linkFrame h.toAllocator hlt hfree ht52 htmod hi hbit hg
  refine ⟨halloc, ?_, h.cr3, h.pml4, ?_, ?_⟩
  · exact h.shape.linked hp ht hi ho habsent hspare hpos (by rw [← h.total_eq]; exact hlt) hL
  · intro g hg
    by_cases hgf : g = f
    · subst hgf
      exact .inr (by rw [hbits g hlt]; simp)
    · rw [assign_ne role _ hgf] at hg
      rcases h.taken g hg with hge | hset
      · exact .inl hge
      · by_cases hglt : g < m.totalFrames
        · exact .inr (by rw [hbits g hglt, hset, Bool.or_true])
        · exact .inl (Nat.le_of_not_lt hglt)
  · intro g hg
    have hgf : g ≠ f := by
      rintro rfl
      rw [h.bitmap_role g hg] at hspare
      cases hspare
    rw [assign_ne role _ hgf]
    exact h.bitmap_role g hg

theorem linkFrame_grown (hpos : 0 < f) (ho : p = [] → A.owned i = true)
    (habsent : present (entryAt m.ram t i) = false) {v : Nat} (hv : p ++ [i] <+: path v) :
    Grown A v role (assign role f (.table (p ++ [i]))) m (linkFrame m t i f) := by
  have hspare := h.spare_of_free hlt hfree
  have hL := h.linkFrame_links hp ht hi hlt hfree
  have hlt' : f < A.map.totalFrames := by rw [← h.total_eq]; exact hlt
  have g := h.shape.graft hp ht hi ho habsent hspare hlt' hL
  refine ⟨rfl, ?_, ?_, ?_, ?_, ?_, ?_⟩
  · intro f' hne
    exact assign_ne role _ fun heq => hne (heq ▸ hspare)
  · intro f' hs
    by_cases heq : f' = f
    · exact .inr ⟨_, by rw [heq, assign_same]⟩
    · exact .inl (by rw [assign_ne role _ heq, hs])
  · intro a ha
    obtain ⟨htmod, _, _, htrole⟩ := h.shape.table p t (by omega) ht
    refine h.linkFrame_same hp ht hi hlt ?_ ?_ ?_
    · intro heq
      rw [heq, hspare] at ha
      exact ha
    · by_contra hin
      push Not at hin
      have hpage : a / pageSize = t / pageSize := by
        unfold pageSize at *
        omega
      rw [hpage, htrole] at ha
      exact ha
    · intro heq
      rw [heq] at ha
      exact ha
  · exact h.shape.linked_walk hp ht hi ho habsent hspare hpos hlt' hL
  · intro q t' hq hqt
    exact g.reach_mono hq hqt
  · intro q t' hq hqt
    rcases g.reach_cases (by omega) hq hqt with hold | ⟨rfl, _⟩
    · exact .inl hold
    · exact .inr hv

end Linking

/-- The three outcomes of `get_next_level` when it may allocate: the table was
there, there is no frame for it, or it is new. -/
theorem nextLevel (h : Tables A role m) (hp : p.length ≤ 2) (ht : A.tableAt m.ram p = some t)
    (hi : i < 512) (ho : p = [] → A.owned i = true) {v : Nat} (hv : p ++ [i] <+: path v) :
    (∃ c, A.tableAt m.ram (p ++ [i]) = some c ∧
      getNextLevel m (physToVirt m t) i true = .ok (physToVirt m c, m)) ∨
    (A.tableAt m.ram (p ++ [i]) = none ∧ pmmFreeFrames m = 0 ∧
      getNextLevel m (physToVirt m t) i true = .ok (null, m)) ∨
    (A.tableAt m.ram (p ++ [i]) = none ∧ ∃ role' m' c,
      getNextLevel m (physToVirt m t) i true = .ok (physToVirt m' c, m') ∧ Tables A role' m' ∧
        Grown A v role role' m m' ∧ A.tableAt m'.ram (p ++ [i]) = some c ∧
        (∀ s, s ≠ [] → A.tableAt m'.ram (p ++ [i] ++ s) = none) ∧
        pmmFreeFrames m = pmmFreeFrames m' + 1) := by
  have ht52 := h.shape.table_lt (by omega) ht
  have hne := h.table_ne_null (by omega) ht
  have hsnoc := Trie.reach_snoc_of ht i
  cases hpres : present (entryAt m.ram t i)
  · have hnone : A.tableAt m.ram (p ++ [i]) = none := hsnoc.trans (child_of_absent hpres)
    rcases getNextLevel_alloc h.offset ht52 hi hne h.toAllocator hpres with
      ⟨hzero, hnull⟩ | ⟨f, hpos, hlt, hfree, hsome⟩
    · exact .inr (.inl ⟨hnone, hzero, hnull⟩)
    · have hlt' : f < A.map.totalFrames := by rw [← h.total_eq]; exact hlt
      have hL := h.linkFrame_links hp ht hi hlt hfree
      have g := h.shape.graft hp ht hi ho hpres (h.spare_of_free hlt hfree) hlt' hL
      exact .inr (.inr ⟨hnone, _, linkFrame m t i f, f * pageSize, hsome,
        h.linkFrame_tables hp ht hi hlt hfree hpos ho hpres,
        h.linkFrame_grown hp ht hi hlt hfree hpos ho hpres hv, g.reach_new (by omega),
        fun s hs => g.reach_below (by omega) hs, linkFrame_free h.toAllocator hlt hfree⟩)
  · have hchild := child_of_present hi (h.shape.owned_of_root (by omega) ht ho) hpres
    exact .inl ⟨_, hsnoc.trans hchild, getNextLevel_present h.offset ht52 hi hne hpres true⟩

end Tables

/-! ### The whole way down -/

/-- The tables along a path of labels, made where they are missing. -/
def descend (m : Machine) (table : Nat) : List Nat → Except Fault (Nat × Machine)
  | [] => if table = null then .error .nullTable else .ok (table, m)
  | i :: is => getNextLevel m table i true >>= fun (next, m) => descend m next is

/-- `vmm_map` is a descent and one write. -/
theorem vmmMap_eq (m : Machine) (pml4 v phys flags : Nat) :
    vmmMap m pml4 v phys flags = (descend m pml4 (path v) >>= fun (pt, m) =>
      .ok (tableSet m pt (ptIndex v) (leafEntry phys flags))) := by
  simp only [vmmMap, descend, path, bind_assoc]
  congr 1
  funext pdpt
  congr 1
  funext pd
  congr 1
  funext last
  obtain ⟨pt, m₃⟩ := last
  by_cases hpt : pt = null
  · simp only [hpt, if_true]
    rfl
  · simp only [hpt, if_false]
    rfl

theorem descend_null (m : Machine) (is : List Nat) : descend m null is = .error .nullTable := by
  cases is with
  | nil => rfl
  | cons i is =>
    rw [descend, getNextLevel, if_pos rfl, error_bind]

/-- How many tables are missing on the way from `p` along `is`. -/
def missing (A : Space) (ram : Mem) (p : List Nat) : List Nat → Nat
  | [] => 0
  | i :: is => (if (A.tableAt ram (p ++ [i])).isSome then 0 else 1) + missing A ram (p ++ [i]) is

theorem missing_of_none {A : Space} {ram : Mem} {p is : List Nat}
    (h : ∀ s, s ≠ [] → A.tableAt ram (p ++ s) = none) : missing A ram p is = is.length := by
  induction is generalizing p with
  | nil => rfl
  | cons i is ih =>
    have hrest : ∀ s, s ≠ [] → A.tableAt ram (p ++ [i] ++ s) = none := by
      intro s _
      rw [List.append_assoc]
      exact h _ (by simp)
    rw [missing, h [i] (by simp), ih hrest, List.length_cons]
    simp [Nat.add_comm]

namespace Tables
variable {A : Space} {role : Nat → Role} {m : Machine}

/-- With enough free frames the descent reaches the last table; with too few it
ends at a null pointer. -/
theorem descend (h : Tables A role m) {v : Nat} (hv : A.owned (levelIndex 3 v) = true)
    {p is : List Nat} {t : Nat} (hpath : p ++ is = path v) (ht : A.tableAt m.ram p = some t) :
    (missing A m.ram p is ≤ pmmFreeFrames m → ∃ role' m' pt,
      descend m (physToVirt m t) is = .ok (physToVirt m' pt, m') ∧ Tables A role' m' ∧
        Grown A v role role' m m' ∧ A.tableAt m'.ram (path v) = some pt ∧
        pmmFreeFrames m = pmmFreeFrames m' + missing A m.ram p is) ∧
    (pmmFreeFrames m < missing A m.ram p is → descend m (physToVirt m t) is = .error .nullTable) := by
  induction is generalizing p t m role with
  | nil =>
    rw [List.append_nil] at hpath
    subst hpath
    refine ⟨fun _ => ⟨role, m, t, ?_, h, .refl _ _ _ _, ht, rfl⟩, fun hlt => absurd hlt (Nat.not_lt_zero _)⟩
    rw [Vmm.descend, if_neg (h.table_ne_null (path_le v) ht)]
  | cons i is ih =>
    have hlen : p.length + (is.length + 1) = 3 := by
      have := congrArg List.length hpath
      simpa using this
    have hsplit : p ++ [i] ++ is = path v := by rw [← hpath, List.append_assoc]; rfl
    have hpre : p ++ [i] <+: path v := ⟨is, hsplit⟩
    have ho : p = [] → A.owned i = true := by
      rintro rfl
      have : i = levelIndex 3 v := (List.cons.inj hpath).1
      rw [this]
      exact hv
    have hi : i < 512 := by
      have hmem : i ∈ path v := hpre.subset (by simp)
      simp only [path, List.mem_cons, List.not_mem_nil, or_false] at hmem
      rcases hmem with rfl | rfl | rfl <;> exact levelIndex_lt _ _
    rw [Vmm.descend, missing]
    rcases h.nextLevel (by omega) ht hi ho hpre with
      ⟨c, hc, hget⟩ | ⟨hnone, hzero, hget⟩ | ⟨hnone, role₁, m₁, c, hget, h₁, g₁, hc, hbelow, hfree⟩
    · rw [hget, hc, ok_bind]
      simpa using ih h hsplit hc
    · rw [hget, hnone, ok_bind]
      refine ⟨fun hle => ?_, fun _ => descend_null m is⟩
      simp only [Option.isSome_none, Bool.false_eq_true, if_false] at hle
      omega
    · have hbelow' : ∀ s, s ≠ [] → A.tableAt m.ram (p ++ [i] ++ s) = none :=
        fun s _ => Trie.reach_none_of_begins (List.prefix_append _ s) hnone
      have hcount : missing A m₁.ram (p ++ [i]) is = missing A m.ram (p ++ [i]) is := by
        rw [missing_of_none hbelow, missing_of_none hbelow']
      obtain ⟨hok, hfault⟩ := ih h₁ hsplit hc
      rw [hcount] at hok hfault
      rw [hget, hnone, ok_bind]
      simp only [Option.isSome_none, Bool.false_eq_true, if_false]
      refine ⟨fun hle => ?_, fun hlt => hfault (by omega)⟩
      obtain ⟨role', m', pt, hd, h', g', hpt, hfree'⟩ := hok (by omega)
      exact ⟨role', m', pt, hd, h', g₁.trans g', hpt, by omega⟩

end Tables

/-! ### `vmm_map` and `vmm_unmap` -/

/-- Two addresses go through the same entries. -/
def SamePage (v w : Nat) : Prop := path w = path v ∧ levelIndex 0 w = levelIndex 0 v

instance (v w : Nat) : Decidable (SamePage v w) := inferInstanceAs (Decidable (_ ∧ _))

/-- A page lies in one slot of the root. -/
theorem SamePage.owned {A : Space} {v w : Nat} (h : SamePage v w) (hv : A.owned (levelIndex 3 v) = true) :
    A.owned (levelIndex 3 w) = true := by
  rw [show levelIndex 3 w = levelIndex 3 v from (List.cons.inj h.1).1]
  exact hv

/-- From `m` to `m'` the leaf entry of `v` became `e`, and tables were added on
the way to it at most. -/
structure Written (A : Space) (v e : Nat) (role role' : Nat → Role) (m m' : Machine) : Prop where
  fields : m' = {m with ram := m'.ram, usedFrames := m'.usedFrames}
  kept : ∀ f, role f ≠ .spare → role' f = role f
  fresh : ∀ f, role f = .spare → role' f = .spare ∨ ∃ p, role' f = .table p
  data : ∀ a, (role (a / pageSize)).IsData → m'.ram a = m.ram a
  walk : ∀ w, walk m'.ram A.root w = if SamePage v w then leafOf e w else walk m.ram A.root w
  mono : ∀ q t, q.length ≤ 3 → A.tableAt m.ram q = some t → A.tableAt m'.ram q = some t
  only : ∀ q t, q.length ≤ 3 → A.tableAt m'.ram q = some t → A.tableAt m.ram q = some t ∨ q <+: path v

theorem leafOf_zero (v : Nat) : leafOf 0 v = none := rfl

namespace Tables
variable {A : Space} {role : Nat → Role} {m : Machine} {v pt e : Nat}

section SetLeaf
variable (h : Tables A role m) (hv : A.owned (levelIndex 3 v) = true)
  (ht : A.tableAt m.ram (path v) = some pt) (he : e < 2 ^ 64)
include h ht

theorem setLeaf_same {a : Nat} (ha : a < pt + 8 * levelIndex 0 v ∨ pt + 8 * levelIndex 0 v + 8 ≤ a) :
    (tableSet m (physToVirt m pt) (ptIndex v) e).ram a = m.ram a := by
  have hslot := h.slotAddr_eq (h.shape.table_lt (path_le v) ht) (levelIndex_lt 0 v)
  show m.ram.store64 (slotAddr m (physToVirt m pt) (levelIndex 0 v)) e a = _
  rw [hslot]
  exact Mem.store64_of_outside _ _ ha

/-- Bytes of pages in another role are not those of the written entry. -/
theorem setLeaf_role {a : Nat} (ha : role (a / pageSize) ≠ .table (path v)) :
    (tableSet m (physToVirt m pt) (ptIndex v) e).ram a = m.ram a := by
  obtain ⟨hmod, _, _, hrole⟩ := h.shape.table _ pt (path_le v) ht
  have hidx := levelIndex_lt 0 v
  refine h.setLeaf_same ht ?_
  by_contra hin
  push Not at hin
  have hpage : a / pageSize = pt / pageSize := by
    unfold pageSize at *
    omega
  exact ha (hpage ▸ hrole)

theorem setLeaf_tables : Tables A role (tableSet m (physToVirt m pt) (ptIndex v) e) := by
  obtain ⟨hmod, _, _, hrole⟩ := h.shape.table _ pt (path_le v) ht
  have hbit : ¬ A.map.InBitmap (pt / pageSize) := by
    intro hin
    rw [h.bitmap_role _ hin] at hrole
    cases hrole
  have hsame : SameFrames A.map.bitmapBase m (tableSet m (physToVirt m pt) (ptIndex v) e) :=
    tableSet_frames h.toAllocator (h.shape.table_lt (path_le v) ht) hmod (levelIndex_lt 0 v) hbit e
  refine ⟨h.toAllocator.same hsame, ?_, h.cr3, h.pml4, ?_, h.bitmap_role⟩
  · exact h.shape.leaf (path_length v) ht (levelIndex_lt 0 v) fun a _ ha => h.setLeaf_same ht ha
  · intro f hf
    rcases h.taken f hf with hge | hset
    · exact .inl hge
    · by_cases hlt : f < m.totalFrames
      · exact .inr (by rw [hsame.bmpTest h.toPlaced hlt]; exact hset)
      · exact .inl (Nat.le_of_not_lt hlt)

include hv he in
theorem setLeaf_written :
    Written A v e role role m (tableSet m (physToVirt m pt) (ptIndex v) e) := by
  have hsame := fun a (_ : (role (a / pageSize)).IsTable) => h.setLeaf_same (e := e) ht (a := a)
  have hslot := h.slotAddr_eq (h.shape.table_lt (path_le v) ht) (levelIndex_lt 0 v)
  have hentry : entryAt (tableSet m (physToVirt m pt) (ptIndex v) e).ram pt (levelIndex 0 v) = e := by
    show (m.ram.store64 (slotAddr m (physToVirt m pt) (levelIndex 0 v)) e).load64 _ = e
    rw [hslot]
    exact Mem.load64_store64_same _ _ he
  refine ⟨rfl, fun _ _ => rfl, fun _ hs => .inl hs, ?_, ?_, ?_, ?_⟩
  · intro a ha
    refine h.setLeaf_role ht fun heq => ?_
    rw [heq] at ha
    exact ha
  · intro w
    rw [h.shape.leaf_walk (path_length v) ht (levelIndex_lt 0 v) hsame, hentry]
    by_cases hw : SamePage v w
    · rw [if_pos hw, if_pos ⟨hw.1, hw.2, hw.owned hv⟩]
    · rw [if_neg hw, if_neg fun hcond => hw ⟨hcond.1, hcond.2.1⟩]
  · intro q t hq hqt
    rw [h.shape.leaf_tableAt (path_length v) ht (levelIndex_lt 0 v) hsame hq]
    exact hqt
  · intro q t hq hqt
    rw [h.shape.leaf_tableAt (path_length v) ht (levelIndex_lt 0 v) hsame hq] at hqt
    exact .inl hqt

end SetLeaf

/-- **`vmm_map` with enough frames** writes its leaf entry, below tables that it
adds where they were missing. -/
theorem map_ok (h : Tables A role m) (hv : A.owned (levelIndex 3 v) = true) (phys : Nat) {flags : Nat}
    (hflags : flags < 2 ^ 64) (hfree : missing A m.ram [] (path v) ≤ pmmFreeFrames m) :
    ∃ role' m', vmmMap m m.kernelPml4 v phys flags = .ok m' ∧ Tables A role' m' ∧
      Written A v (leafEntry phys flags) role role' m m' ∧
      (A.tableAt m'.ram (path v)).isSome ∧
      pmmFreeFrames m = pmmFreeFrames m' + missing A m.ram [] (path v) := by
  obtain ⟨role', m₁, pt, hd, h₁, g, hpt, hcount⟩ := (h.descend hv (List.nil_append (path v)) rfl).1 hfree
  have hw := h₁.setLeaf_written hv hpt (show leafEntry phys flags < 2 ^ 64 from leafEntry_lt hflags)
  have hat : A.tableAt (tableSet m₁ (physToVirt m₁ pt) (ptIndex v) (leafEntry phys flags)).ram
      (path v) = some pt := hw.mono _ pt (path_le v) hpt
  refine ⟨role', _, ?_, h₁.setLeaf_tables hpt, ?_, by rw [hat]; rfl, hcount⟩
  · rw [vmmMap_eq, h.pml4, hd, ok_bind]
  · refine ⟨by rw [hw.fields, g.fields], g.kept, g.fresh, ?_, ?_, ?_, ?_⟩
    · intro a ha
      have hne : role (a / pageSize) ≠ .spare := by
        intro hs
        rw [hs] at ha
        exact ha
      rw [hw.data a (by rw [g.kept _ hne]; exact ha), g.data a ha]
    · intro w
      rw [hw.walk, g.walk]
    · intro q t hq hqt
      exact hw.mono q t hq (g.mono q t hq hqt)
    · intro q t hq hqt
      rcases hw.only q t hq hqt with hold | hpre
      · exact g.only q t hq hold
      · exact .inr hpre

/-- **`vmm_map` with too few frames** looks into a null table. -/
theorem map_fault (h : Tables A role m) (hv : A.owned (levelIndex 3 v) = true) {phys flags : Nat}
    (hfree : pmmFreeFrames m < missing A m.ram [] (path v)) :
    vmmMap m m.kernelPml4 v phys flags = .error .nullTable := by
  have hd := (h.descend hv (List.nil_append (path v)) rfl).2 hfree
  rw [vmmMap_eq, h.pml4, hd, error_bind]

/-- Looking a level down without allocating. -/
theorem lookLevel (h : Tables A role m) {p : List Nat} {t i : Nat} (hp : p.length ≤ 2)
    (ht : A.tableAt m.ram p = some t) (hi : i < 512) (ho : p = [] → A.owned i = true) :
    getNextLevel m (physToVirt m t) i false = .ok
      (match A.tableAt m.ram (p ++ [i]) with
        | some c => physToVirt m c
        | none => null, m) := by
  have ht52 := h.shape.table_lt (by omega) ht
  have hne := h.table_ne_null (by omega) ht
  have hsnoc : A.tableAt m.ram (p ++ [i]) = A.child m.ram t i := Trie.reach_snoc_of ht i
  rw [hsnoc]
  cases hpres : present (entryAt m.ram t i)
  · rw [getNextLevel_absent h.offset ht52 hi hne hpres, child_of_absent hpres]
  · rw [getNextLevel_present h.offset ht52 hi hne hpres,
      child_of_present hi (h.shape.owned_of_root (by omega) ht ho) hpres]

/-- **`vmm_unmap`** clears the leaf entry, if there is a table to hold it. -/
theorem unmap (h : Tables A role m) (hv : A.owned (levelIndex 3 v) = true) :
    ∃ m', vmmUnmap m m.kernelPml4 v = .ok m' ∧ Tables A role m' ∧ Written A v 0 role role m m' := by
  have hl3 := h.lookLevel (p := []) (t := A.root) (by decide) rfl (levelIndex_lt 3 v) fun _ => hv
  -- where a table is missing nothing of the page was mapped, and nothing changes
  have hmissing : A.tableAt m.ram (path v) = none → Written A v 0 role role m m := by
    intro hnone
    refine ⟨rfl, fun _ _ => rfl, fun _ hs => .inl hs, fun _ _ => rfl, ?_, fun _ _ _ ht => ht,
      fun _ _ _ ht => .inl ht⟩
    intro w
    by_cases hw : SamePage v w
    · rw [if_pos hw, leafOf_zero, h.shape.walk_owned (hw.owned hv), hw.1, hnone]
      rfl
    · rw [if_neg hw]
  have hstop : ∀ q, q <+: path v → A.tableAt m.ram q = none → A.tableAt m.ram (path v) = none :=
    fun q hq hnone => Trie.reach_none_of_begins hq hnone
  unfold vmmUnmap
  rw [h.pml4]
  change getNextLevel m (physToVirt m A.root) (pml4Index v) false = _ at hl3
  rw [hl3, ok_bind]
  cases hc3 : A.tableAt m.ram ([] ++ [levelIndex 3 v]) with
  | none => exact ⟨m, rfl, h, hmissing (hstop _ ⟨_, rfl⟩ hc3)⟩
  | some pdpt =>
    have hl2 := h.lookLevel (by simp) hc3 (levelIndex_lt 2 v) fun hnil => by simp at hnil
    change getNextLevel m (physToVirt m pdpt) (pdptIndex v) false = _ at hl2
    simp only [if_neg (h.table_ne_null (by simp) hc3), hl2, ok_bind]
    cases hc2 : A.tableAt m.ram ([] ++ [levelIndex 3 v] ++ [levelIndex 2 v]) with
    | none => exact ⟨m, rfl, h, hmissing (hstop _ ⟨_, rfl⟩ hc2)⟩
    | some pd =>
      have hl1 := h.lookLevel (by simp) hc2 (levelIndex_lt 1 v) fun hnil => by simp at hnil
      change getNextLevel m (physToVirt m pd) (pdIndex v) false = _ at hl1
      simp only [if_neg (h.table_ne_null (by simp) hc2), hl1, ok_bind]
      cases hc1 : A.tableAt m.ram ([] ++ [levelIndex 3 v] ++ [levelIndex 2 v] ++ [levelIndex 1 v]) with
      | none => exact ⟨m, rfl, h, hmissing hc1⟩
      | some pt =>
        simp only [if_neg (h.table_ne_null (by simp) hc1)]
        exact ⟨_, rfl, h.setLeaf_tables hc1, h.setLeaf_written hv hc1 (by decide)⟩

/-! ### Frames for others -/

section SetFrame
variable (h : Tables A role m) {f : Nat} (hlt : f < m.totalFrames)
include h hlt

/-- Marking a frame changes bytes of the bitmap only. -/
theorem setFrame_same {a : Nat} (ha : role (a / pageSize) ≠ .bitmap) :
    (setFrame m f).ram a = m.ram a := by
  refine (h.toPlaced.setFrame_only hlt).outside a ?_
  by_contra hin
  push Not at hin
  exact ha (h.bitmap_byte hin.1 hin.2)

theorem setFrame_tableBytes {a : Nat} (ha : (role (a / pageSize)).IsTable) :
    (setFrame m f).ram a = m.ram a := by
  refine h.setFrame_same hlt fun heq => ?_
  rw [heq] at ha
  exact ha

variable (hfree : bmpTest m f = false)
include hfree

/-- A frame handed to someone else leaves the tables as they are. -/
theorem setFrame : Tables A role (setFrame m f) := by
  refine ⟨h.toAllocator.setFrame hlt hfree, h.shape.congr fun a ha => h.setFrame_tableBytes hlt ha,
    h.cr3, h.pml4, fun g hg => ?_, h.bitmap_role⟩
  rcases h.taken g hg with hge | hset
  · exact .inl hge
  · by_cases hglt : g < m.totalFrames
    · exact .inr (by rw [h.toPlaced.bmpTest_setFrame hlt hglt, hset, Bool.or_true])
    · exact .inl (Nat.le_of_not_lt hglt)

/-- The same, with a role for the frame. -/
theorem setFrame_assign (r : Role) :
    Tables A (assign role f r) (Pmm.setFrame m f) := by
  have hset := h.setFrame hlt hfree
  have hspare := h.spare_of_free hlt hfree
  refine ⟨hset.toAllocator, hset.shape.assigned hspare r, hset.cr3, hset.pml4, fun g hg => ?_, fun g hg => ?_⟩
  · by_cases hgf : g = f
    · subst hgf
      exact .inr (by rw [h.toPlaced.bmpTest_setFrame hlt hlt]; simp)
    · rw [assign_ne role _ hgf] at hg
      exact hset.taken g hg
  · rw [assign_ne role _ fun heq => ?_]
    · exact h.bitmap_role g hg
    · rw [h.bitmap_role f (heq ▸ hg)] at hspare
      cases hspare

end SetFrame

/-- `pmm_alloc_frame` on its own leaves the tables and every translation as they are. -/
theorem alloc (h : Tables A role m) : Tables A role (pmmAllocFrame m).2 ∧
    ∀ v, walk (pmmAllocFrame m).2.ram A.root v = walk m.ram A.root v := by
  rcases h.toAllocator.alloc_cases with ⟨_, hnull⟩ | ⟨f, _, hlt, hfree, _, hsome⟩
  · rw [hnull]
    exact ⟨h, fun _ => rfl⟩
  · rw [hsome]
    exact ⟨h.setFrame hlt hfree,
      h.shape.walk_congr fun a ha => h.setFrame_tableBytes hlt ha⟩

end Tables

end ArcMonark.Mm.Vmm
