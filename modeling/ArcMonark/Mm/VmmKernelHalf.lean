import ArcMonark.Mm.VmmTree

/-! What `vmm_init` keeps.

The tables that `cr3` leads to lie in used frames, apart from the bitmap, so the frame
of the new PML4 is none of them: what the old tables held in the upper half is reached
through the new one, and the lower half is empty (`vmmInit_keeps_kernel_half`). -/
namespace ArcMonark.Mm.Vmm
open Library Pmm

/-- The table root that `cr3` points to. -/
def activeRoot (m : Machine) : Nat := m.cr3 &&& pageAddrMask

/-- The root behind `kernel_pml4`. -/
def kernelRoot (m : Machine) : Nat := m.direct m.kernelPml4

/-- A bootloader's tree. The frame allocator hands out no frame of its tables: it marks
them used, or they lie above the frames it counts. None of them is the bitmap's, which
`pmm_init` puts in usable memory. -/
structure OldTree (P : PlacedMap) (m : Machine) : Prop where
  used : ∀ p n, nodeAt m.ram (activeRoot m) p = some n →
    m.totalFrames ≤ n.table / pageSize ∨ bmpTest m (n.table / pageSize) = true
  apart : ∀ p n, nodeAt m.ram (activeRoot m) p = some n → ¬ P.InBitmap (n.table / pageSize)

theorem activeRoot_mod (m : Machine) : activeRoot m % pageSize = 0 ∧ activeRoot m < 2 ^ 52 :=
  ⟨mask_mod _, mask_lt _⟩

theorem OldTree.ne_free {P : PlacedMap} {m : Machine} (h : OldTree P m) {p : List Nat} {n : Node} {f : Nat}
    (hn : nodeAt m.ram (activeRoot m) p = some n) (hlt : f < m.totalFrames) (hfree : bmpTest m f = false) :
    n.table / pageSize ≠ f := by
  rintro rfl
  rcases h.used p n hn with hge | hused
  · omega
  · rw [hfree] at hused
    cases hused

/-- `vmm_init` on an old tree: the new root's frame was free, and all that changes beside
it is the bitmap. -/
structure TookOver (P : PlacedMap) (m m' : Machine) (f : Nat) : Prop where
  pos : 0 < f
  lt : f < m.totalFrames
  free : bmpTest m f = false
  alloc : pmmAllocFrame m = (f * pageSize, setFrame m f)
  fields : m' = {setFrame m f with
    ram := m'.ram, cr3 := f * pageSize, kernelPml4 := physToVirt m (f * pageSize)}
  same : ∀ a, a / pageSize ≠ f → m'.ram a = (setFrame m f).ram a
  lower : ∀ i, i < 256 → entryAt m'.ram (f * pageSize) i = 0
  upper : ∀ i, 256 ≤ i → i < 512 → entryAt m'.ram (f * pageSize) i = entryAt m.ram (activeRoot m) i

section TakeOver
variable {P : PlacedMap} {m m' : Machine} {f : Nat}

theorem vmmInit_tookOver (h : Allocator P m) (hold : OldTree P m) (hfree : 0 < pmmFreeFrames m) :
    ∃ f, TookOver P m (vmmInit m) f := by
  rcases h.alloc_cases with ⟨hzero, _⟩ | ⟨f, hpos, hlt, hbit, _, halloc⟩
  · omega
  · have hroot : nodeAt m.ram (activeRoot m) [] = some ⟨3, activeRoot m⟩ := rfl
    have hapart : ¬ P.InBitmap (activeRoot m / pageSize) := hold.apart [] ⟨3, activeRoot m⟩ rfl
    have hne : f * pageSize ≠ activeRoot m := by
      intro heq
      exact hold.ne_free hroot hlt hbit (by rw [← heq, frame_div])
    obtain ⟨ram, hinit, hout, hlower, hupper⟩ := vmmInit_memory h hlt halloc hne
    have hram : (vmmInit m).ram = ram := by rw [hinit]
    refine ⟨f, hpos, hlt, hbit, halloc, ?_, ?_, ?_, fun i hge hi => ?_⟩
    · rw [hram]
      exact hinit
    · rw [hram]
      exact hout
    · rw [hram]
      exact hlower
    · rw [hram, hupper i hge hi]
      refine entryAt_congr (activeRoot_mod m).1 hi fun a ha _ _ => h.setFrame_apart hlt ?_
      rw [ha]
      exact hapart

theorem TookOver.root (t : TookOver P m m' f) (h : Allocator P m) : kernelRoot m' = f * pageSize := by
  have hlt := frame_lt h t.lt
  have hptr : m'.kernelPml4 = physToVirt m (f * pageSize) := by rw [t.fields]
  have hoff : m'.hhdmOffset = m.hhdmOffset := by
    rw [t.fields]
    rfl
  rw [kernelRoot, Machine.direct, hptr, hoff]
  exact sub64_add64 (by omega) h.offset

/-- The old tables are what they were. -/
theorem TookOver.kept (t : TookOver P m m' f) (h : Allocator P m) (hold : OldTree P m) {p : List Nat} {n : Node}
    {a : Nat} (hn : nodeAt m.ram (activeRoot m) p = some n) (ha : a / pageSize = n.table / pageSize) :
    m'.ram a = m.ram a := by
  rw [t.same a (by rw [ha]; exact hold.ne_free hn t.lt t.free)]
  exact h.setFrame_apart t.lt (by rw [ha]; exact hold.apart p n hn)

theorem TookOver.entry_kept (t : TookOver P m m' f) (h : Allocator P m) (hold : OldTree P m) {p : List Nat} {n : Node}
    {i : Nat} (hn : nodeAt m.ram (activeRoot m) p = some n) (hi : i < 512) :
    entryAt m'.ram n.table i = entryAt m.ram n.table i :=
  entryAt_congr (nodeAt_mod (activeRoot_mod m) hn).1 hi fun _ ha _ _ => t.kept h hold hn ha

end TakeOver

/-! ### After `pmm_init` -/

namespace Boot
variable (B : Boot) {m : Machine}

/-- `pmm_init` leaves the bootloader's tables as they are. -/
theorem entry_after_pmmInit (hm : B.pmmInit = .ok m) {p : List Nat} {n : Node} {i : Nat}
    (hn : nodeAt B.ram B.oldRoot p = some n) (hi : i < 512) :
    entryAt m.ram n.table i = entryAt B.ram n.table i := by
  obtain ⟨m', hm', _, _, honly⟩ := B.pmmInit_ok
  rw [hm] at hm'
  cases hm'
  have ht := tableOf_iff.mpr ⟨p, hn⟩
  refine entryAt_congr (tableOf_aligned B.oldRoot_mod ht) hi fun a ha _ _ => ?_
  exact honly.outside a (B.bitmap_apart (ha ▸ B.tables _ _ ht))

theorem nodeAt_after_pmmInit (hm : B.pmmInit = .ok m) {p : List Nat} (hp : p.length ≤ 3) :
    nodeAt m.ram B.oldRoot p = nodeAt B.ram B.oldRoot p :=
  Trie.reach_congr (fun _ _ _ _ hn => below_congr fun hi => B.entry_after_pmmInit hm hn hi) hp

theorem activeRoot_after_pmmInit (hm : B.pmmInit = .ok m) : activeRoot m = B.oldRoot := by
  obtain ⟨m', hm', _, _, honly⟩ := B.pmmInit_ok
  rw [hm] at hm'
  cases hm'
  rw [activeRoot, honly.fields]
  rfl

/-- What the bootloader leaves is such a tree once `pmm_init` has run. -/
theorem oldTree (hm : B.pmmInit = .ok m) : OldTree B.toPlacedMap m := by
  obtain ⟨m', hm', hA, hclear, _⟩ := B.pmmInit_ok
  rw [hm] at hm'
  cases hm'
  have hunusable : ∀ p n, nodeAt m.ram (activeRoot m) p = some n → ¬ B.UsableFrame (n.table / pageSize) := by
    intro p n hn
    rw [B.activeRoot_after_pmmInit hm, B.nodeAt_after_pmmInit hm (nodeAt_length hn)] at hn
    exact B.tables _ _ (tableOf_iff.mpr ⟨p, hn⟩)
  refine ⟨fun p n hn => ?_, fun p n hn hbitmap => hunusable p n hn (B.inBitmap_usable hbitmap)⟩
  by_cases hlt : n.table / pageSize < m.totalFrames
  · refine .inr ?_
    by_contra hbit
    rw [Bool.not_eq_true, hclear _ (by rw [← hA.total_eq]; exact hlt)] at hbit
    exact hunusable p n hn hbit.1
  · exact .inl (Nat.le_of_not_lt hlt)

/-- The bootloader's own tables translate as they did. -/
theorem walk_after_pmmInit (hm : B.pmmInit = .ok m) (v : Nat) :
    walk m.ram B.oldRoot v = walk B.ram B.oldRoot v :=
  walk_congr_way fun _ _ _ hn hj _ => B.entry_after_pmmInit hm hn hj

end Boot

/-! ### A direct map of large pages -/

/-- A PML4 at 0 whose slot 256 leads to a PDPT at `0x10000`; that maps its first GiB, writable,
to the physical addresses from `0x40000000` up. -/
def gigaRam : Mem := (Mem.store64 (fun _ => 0) (8 * 256) 0x10003).store64 0x10000 0x40000083

theorem gigaRam_root {i : Nat} (hi : i < 512) : entryAt gigaRam 0 i = if i = 256 then 0x10003 else 0 := by
  rw [entryAt, gigaRam, Mem.load64_store64_apart _ _ (by omega)]
  split
  · rename_i h
    subst h
    exact Mem.load64_store64_same _ _ (by decide)
  · rw [Mem.load64_store64_apart _ _ (by omega)]
    exact Mem.load_zero fun _ _ _ => rfl

theorem gigaRam_pdpt {i : Nat} (hi : i < 512) :
    entryAt gigaRam 0x10000 i = if i = 0 then 0x40000083 else 0 := by
  rw [entryAt, gigaRam]
  split
  · rename_i h
    subst h
    exact Mem.load64_store64_same _ _ (by decide)
  · rw [Mem.load64_store64_apart _ _ (by omega), Mem.load64_store64_apart _ _ (by omega)]
    exact Mem.load_zero fun _ _ _ => rfl

/-- There are no other tables. -/
theorem gigaRam_nodeAt {p : List Nat} {n : Node} (h : nodeAt gigaRam 0 p = some n) :
    p = [] ∧ n = ⟨3, 0⟩ ∨ p = [256] ∧ n = ⟨2, 0x10000⟩ := by
  induction p using List.reverseRecOn generalizing n with
  | nil =>
    cases h
    exact .inl ⟨rfl, rfl⟩
  | append_singleton p i ih =>
    rw [nodeAt, Trie.reach_snoc] at h
    obtain ⟨c, hc, hn⟩ := Option.bind_eq_some_iff.mp h
    obtain ⟨hlevel, htable, hi, hp, hs⟩ := below_some hn
    rcases ih hc with ⟨rfl, rfl⟩ | ⟨rfl, rfl⟩
    · rw [gigaRam_root hi] at hp htable
      split at hp
      · rename_i h
        subst h
        refine .inr ⟨rfl, Node.ext ?_ ?_⟩
        · have : 3 = n.level + 1 := hlevel
          show n.level = 2
          omega
        · rw [htable]
          decide
      · cases hp
    · rw [gigaRam_pdpt hi] at hp hs
      split at hp
      · rename_i h
        rw [if_pos h] at hs
        have : 2 = n.level + 1 := hlevel
        rcases hs with hs | hs
        · omega
        · cases hs
      · cases hp

theorem giga_small {n : Nat} (hn : 0 < n ∧ n < 15) : 0 < n ∧ n < 2 ^ 15 := ⟨hn.1, by omega⟩

section Giga
variable {n : Nat} (hn : 0 < n ∧ n < 15)

/-- These tables above `n` usable pages. -/
def gigaBoot : Boot where
  toPlacedMap := (flatBoot (giga_small hn)).toPlacedMap
  ram := gigaRam
  cr3 := 0
  direct := (flatBoot (giga_small hn)).direct
  tables := by
    intro l t ht husable
    obtain ⟨e, he, _, hle, hend⟩ := husable
    rw [List.mem_singleton.mp he] at hle hend
    change 0x1000 ≤ t / pageSize * pageSize at hle
    change t / pageSize * pageSize + pageSize ≤ 0x1000 + n * pageSize at hend
    unfold pageSize at hle hend
    obtain ⟨p, hp⟩ := tableOf_iff.mp ht
    rcases gigaRam_nodeAt hp with ⟨_, hnode⟩ | ⟨_, hnode⟩ <;> cases hnode <;> omega

theorem gigaBoot_free {m : Machine} (hm : (gigaBoot hn).pmmInit = .ok m) : pmmFreeFrames m = n - 1 :=
  flatMap_free (B := gigaBoot hn) (giga_small hn) rfl hm

end Giga

/-! ### The kernel half -/

/-- **`vmm_init` keeps the kernel half and nothing else.** Through `kernel_pml4` an
address of the upper half translates as it did through the old `cr3`, one of the lower
half does not, and no byte of an old table changes. -/
theorem vmmInit_keeps_kernel_half {P : PlacedMap} {m : Machine} (h : Allocator P m) (hold : OldTree P m)
    (hfree : 0 < pmmFreeFrames m) :
    (∀ v, 256 ≤ pml4Index v →
      walk (vmmInit m).ram (kernelRoot (vmmInit m)) v = walk m.ram (activeRoot m) v) ∧
    (∀ v, pml4Index v < 256 → walk (vmmInit m).ram (kernelRoot (vmmInit m)) v = none) ∧
    (∀ p n a, nodeAt m.ram (activeRoot m) p = some n → a / pageSize = n.table / pageSize →
      (vmmInit m).ram a = m.ram a) ∧
    activeRoot (vmmInit m) = kernelRoot (vmmInit m) := by
  obtain ⟨f, t⟩ := vmmInit_tookOver h hold hfree
  have hroot := t.root h
  refine ⟨fun v hv => ?_, fun v hv => ?_, fun p n a hn ha => t.kept h hold hn ha, ?_⟩
  · have hentry := t.upper (levelIndex 3 v) hv (levelIndex_lt 3 v)
    rw [hroot]
    simp only [walk, walkFrom, hentry]
    cases hp : present (entryAt m.ram (activeRoot m) (levelIndex 3 v))
    · simp
    · -- below the root the walk goes through old tables only
      have hnode : nodeAt m.ram (activeRoot m) [levelIndex 3 v] = some ⟨2, _⟩ :=
        (Trie.reach_snoc_of (p := []) rfl _).trans (below_present (levelIndex_lt 3 v) hp (.inl rfl))
      simp only [if_true, bne_self_eq_false, Bool.and_false, Bool.false_eq_true, if_false]
      exact walkFrom_congr (fun q n j hn hj _ => t.entry_kept h hold hn hj) hnode rfl _ _ _
  · have hentry : entryAt (vmmInit m).ram (f * pageSize) (levelIndex 3 v) = 0 := t.lower _ hv
    rw [hroot]
    refine walkFrom_absent _ _ _ ?_
    rw [hentry]
    rfl
  · rw [hroot, activeRoot, t.fields]
    exact mask_eq (frame_mod f) (frame_lt h t.lt)

theorem vmmInit_keeps_kernel_half_giga :
    ∃ m, (gigaBoot (n := 8) (by decide)).pmmInit = .ok m ∧
      walk (vmmInit m).ram (kernelRoot (vmmInit m)) 0xFFFF800000000123 =
        some ⟨0x40000123, true, false, false⟩ := by
  obtain ⟨m, hm, hA, _⟩ := (gigaBoot (n := 8) (by decide)).pmmInit_ok
  have hfree := gigaBoot_free _ hm
  have hupper := (vmmInit_keeps_kernel_half hA (Boot.oldTree _ hm) (by omega)).1
  refine ⟨m, hm, ?_⟩
  rw [hupper _ (by decide), Boot.activeRoot_after_pmmInit _ hm, Boot.walk_after_pmmInit _ hm]
  decide

end ArcMonark.Mm.Vmm
