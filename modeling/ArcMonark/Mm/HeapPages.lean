import ArcMonark.Mm.VmmRuns
import ArcMonark.Mm.Heap

/-! The pages behind the heap.

`Backed` says that the heap's first `n` pages, and no other page of the kernel's
slots, are mapped, each to a frame of its own. Then the number of free frames
decides what `grow_pages` does (`Backed.growPages`), and the heap reads and
writes like a memory of its own (`Flat`). -/
namespace ArcMonark.Mm.Heap
open Library Pmm Vmm Virtual

/-- The virtual address of the heap's `k`-th page. -/
def pageAddr (k : Nat) : Nat := heapBase + k * pageSize

/-- `v` lies in the heap's `k`-th page. -/
def InPage (k v : Nat) : Prop := v / pageSize = pageAddr k / pageSize

/-- `n` pages of the heap are mapped, each to its own frame, and nothing else is
mapped in the kernel's slots, of which the lowest is one; the tables there are
those on the way to these pages. There are slots and frames for the heap to grow
into. -/
structure Backed (A : Space) (role : Nat → Role) (n : Nat) (m : Machine) : Prop
    extends Tables A role m where
  top : pageAddr A.map.totalFrames < 2 ^ 64
  owned : ∀ k, k < A.map.totalFrames → A.owned (levelIndex 3 (pageAddr k)) = true
  lowest : A.owned 0 = true
  heapEnd : m.heapEnd = pageAddr n
  count : n + pmmFreeFrames m < A.map.totalFrames
  page : ∀ k, k < n → ∃ f, role f = .page k
  leads : ∀ f k, role f = .page k → k < n ∧ f < A.map.totalFrames ∧ ∀ v, InPage k v →
    walk m.ram A.root v = some ⟨f * pageSize + v % pageSize, true, false, false⟩
  beyond : ∀ v, Canonical v → A.owned (levelIndex 3 v) = true → (∀ k, k < n → ¬ InPage k v) →
    walk m.ram A.root v = none
  grown : ∀ q t, q ≠ [] → q.length ≤ 3 → A.tableAt m.ram q = some t →
    ∃ k, k < n ∧ q <+: path (pageAddr k)

/-! ### Addresses -/

theorem inPage_iff (k v : Nat) : InPage k v ↔ pageAddr k ≤ v ∧ v < pageAddr (k + 1) := by
  unfold InPage pageAddr heapBase pageSize
  omega

theorem inPage_pageAddr (k : Nat) : InPage k (pageAddr k) := rfl

theorem pageAddr_mono {k n : Nat} (h : k ≤ n) : pageAddr k ≤ pageAddr n := by
  unfold pageAddr pageSize
  omega

theorem pageAddr_succ (k : Nat) : pageAddr (k + 1) = pageAddr k + pageSize := by
  unfold pageAddr pageSize
  omega

/-- Every address of the heap lies in one of its pages. -/
theorem exists_inPage {n v : Nat} (hle : heapBase ≤ v) (hlt : v < pageAddr n) :
    ∃ k, k < n ∧ InPage k v := by
  refine ⟨(v - heapBase) / pageSize, ?_, ?_⟩
  · unfold pageAddr pageSize at *
    omega
  · rw [inPage_iff]
    unfold pageAddr pageSize
    omega

theorem canonical_of_heap {v : Nat} (hle : heapBase ≤ v) (hlt : v < 2 ^ 64) : Canonical v := by
  unfold heapBase at hle
  exact .inr ⟨by omega, hlt⟩

/-- How many tables a page at `v` needs that no page before it does. -/
def tableCost (v : Nat) : Nat :=
  (if v % 2 ^ 39 = 0 then 1 else 0) + (if v % 2 ^ 30 = 0 then 1 else 0) +
    (if v % 2 ^ 21 = 0 then 1 else 0)

/-- The frames that `j` pages from the `n`-th on take, tables included. -/
def framesNeeded (n : Nat) : Nat → Nat
  | 0 => 0
  | j + 1 => 1 + tableCost (pageAddr n) + framesNeeded (n + 1) j

/-- The frames that the pages of a growth take run out at some page, in front of
it or in the middle of its tables, or do not run out. -/
theorem framesNeeded_cases (n pages free : Nat) :
    framesNeeded n pages ≤ free ∨ ∃ j, j < pages ∧ (free = framesNeeded n j ∨
      (framesNeeded n j < free ∧ free < framesNeeded n (j + 1))) := by
  induction pages generalizing n free with
  | zero => exact .inl (Nat.zero_le _)
  | succ pages ih =>
    by_cases hzero : free = 0
    · exact .inr ⟨0, by omega, .inl hzero⟩
    · by_cases hlt : free < 1 + tableCost (pageAddr n)
      · exact .inr ⟨0, by omega, .inr ⟨Nat.pos_of_ne_zero hzero, by simpa [framesNeeded] using hlt⟩⟩
      · rcases ih (n + 1) (free - (1 + tableCost (pageAddr n))) with hle | ⟨j, hj, hcase⟩
        · refine .inl ?_
          rw [framesNeeded]
          omega
        · refine .inr ⟨j + 1, by omega, ?_⟩
          simp only [framesNeeded] at hcase ⊢
          omega

/-- No growth takes some frames, and not enough of them for its first page. -/
theorem framesNeeded_ne {n free : Nat} (hpos : 0 < free) (hle : free ≤ tableCost (pageAddr n)) (j : Nat) :
    free ≠ framesNeeded n j := by
  cases j with
  | zero => exact Nat.ne_of_gt hpos
  | succ j =>
    rw [framesNeeded]
    omega

/-! ### Which tables are there -/

/-- A page shares a region of the size of a table's reach with an earlier page
unless it is the region's first. -/
theorem shares_iff {n size : Nat} (hsize : size = 2 ^ 39 ∨ size = 2 ^ 30 ∨ size = 2 ^ 21) :
    (∃ k, k < n ∧ pageAddr k / size = pageAddr n / size) ↔ pageAddr n % size ≠ 0 := by
  constructor
  · rintro ⟨k, hk, heq⟩
    unfold pageAddr heapBase pageSize at *
    rcases hsize with rfl | rfl | rfl <;> omega
  · intro hne
    have hn : n ≠ 0 := by
      rintro rfl
      rcases hsize with rfl | rfl | rfl <;> exact hne (by decide)
    refine ⟨n - 1, by omega, ?_⟩
    unfold pageAddr heapBase pageSize at *
    rcases hsize with rfl | rfl | rfl <;> omega

section Prefix
variable {v w : Nat} (hv : heapBase ≤ v ∧ v < 2 ^ 64) (hw : heapBase ≤ w ∧ w < 2 ^ 64)
include hv hw

theorem prefix_one : [levelIndex 3 v] <+: path w ↔ w / 2 ^ 39 = v / 2 ^ 39 := by
  simp only [path, levelIndex_eq, List.cons_prefix_cons, List.nil_prefix, and_true]
  simp only [Nat.reduceMul, Nat.reduceAdd, Nat.reducePow]
  unfold heapBase at *
  omega

theorem prefix_two : [levelIndex 3 v, levelIndex 2 v] <+: path w ↔ w / 2 ^ 30 = v / 2 ^ 30 := by
  simp only [path, levelIndex_eq, List.cons_prefix_cons, List.nil_prefix, and_true]
  simp only [Nat.reduceMul, Nat.reduceAdd, Nat.reducePow]
  unfold heapBase at *
  omega

theorem prefix_three : path v <+: path w ↔ w / 2 ^ 21 = v / 2 ^ 21 := by
  simp only [path, levelIndex_eq, List.cons_prefix_cons, List.nil_prefix, and_true]
  simp only [Nat.reduceMul, Nat.reduceAdd, Nat.reducePow]
  unfold heapBase at *
  omega

end Prefix

theorem missing_congr {A : Space} {ram ram' : Mem} {p is : List Nat}
    (h : ∀ q, q.length ≤ p.length + is.length → A.tableAt ram' q = A.tableAt ram q) :
    missing A ram' p is = missing A ram p is := by
  induction is generalizing p with
  | nil => rfl
  | cons i is ih =>
    rw [missing, missing, h (p ++ [i]) (by simp), ih fun q hq => h q (by simp at hq ⊢; omega)]

namespace Backed
variable {A : Space} {role : Nat → Role} {n : Nat} {m : Machine}

theorem pageAddr_lt (h : Backed A role n m) {k : Nat} (hk : k ≤ A.map.totalFrames) :
    pageAddr k < 2 ^ 64 := Nat.lt_of_le_of_lt (pageAddr_mono hk) h.top

theorem heap_lt (h : Backed A role n m) {v : Nat} (hlt : v < pageAddr n) : v < 2 ^ 64 := by
  have := h.count
  have := h.pageAddr_lt (k := n) (by omega)
  omega

/-- A table is there exactly when a page of the heap needs it. -/
theorem tableAt_iff (h : Backed A role n m) {q : List Nat} (hq : q ≠ []) (hlen : q.length ≤ 3) :
    (A.tableAt m.ram q).isSome ↔ ∃ k, k < n ∧ q <+: path (pageAddr k) := by
  constructor
  · intro hsome
    obtain ⟨t, ht⟩ := Option.isSome_iff_exists.mp hsome
    exact h.grown q t hq hlen ht
  · rintro ⟨k, hk, hpre⟩
    obtain ⟨f, hf⟩ := h.page k hk
    obtain ⟨_, _, hwalk⟩ := h.leads f k hf
    have hcount := h.count
    have hk' := hwalk (pageAddr k) (inPage_pageAddr k)
    rw [h.shape.walk_owned (h.owned k (by omega))] at hk'
    refine Trie.reach_isSome_of_begins hpre ?_
    change (A.tableAt m.ram (path (pageAddr k))).isSome
    cases hpt : A.tableAt m.ram (path (pageAddr k)) with
    | some pt => rfl
    | none =>
      rw [hpt] at hk'
      cases hk'

/-- What the next page costs in tables. -/
theorem missing_eq (h : Backed A role n m) :
    missing A m.ram [] (path (pageAddr n)) = tableCost (pageAddr n) := by
  have hcount := h.count
  have hbounds : ∀ k, k ≤ n → heapBase ≤ pageAddr k ∧ pageAddr k < 2 ^ 64 := fun k hk =>
    ⟨pageAddr_mono (Nat.zero_le k), h.pageAddr_lt (by omega)⟩
  have hsome : ∀ {q size}, q ≠ [] → q.length ≤ 3 →
      (size = 2 ^ 39 ∨ size = 2 ^ 30 ∨ size = 2 ^ 21) →
      (∀ k, k ≤ n → (q <+: path (pageAddr k) ↔ pageAddr k / size = pageAddr n / size)) →
      ((A.tableAt m.ram q).isSome ↔ pageAddr n % size ≠ 0) := by
    intro q size hq hlen hsize hpre
    rw [h.tableAt_iff hq hlen, ← shares_iff hsize]
    exact exists_congr fun k => and_congr_right fun hk => hpre k (Nat.le_of_lt hk)
  have h3 := hsome (q := [levelIndex 3 (pageAddr n)]) (by simp) (by simp) (.inl rfl)
    fun k hk => prefix_one (hbounds n (Nat.le_refl n)) (hbounds k hk)
  have h2 := hsome (q := [levelIndex 3 (pageAddr n), levelIndex 2 (pageAddr n)]) (by simp) (by simp)
    (.inr (.inl rfl)) fun k hk => prefix_two (hbounds n (Nat.le_refl n)) (hbounds k hk)
  have h1 := hsome (q := path (pageAddr n)) (by simp [path]) (path_le _)
    (.inr (.inr rfl)) fun k hk => prefix_three (hbounds n (Nat.le_refl n)) (hbounds k hk)
  have hif : ∀ {q : List Nat} {x : Nat}, ((A.tableAt m.ram q).isSome ↔ x ≠ 0) →
      (if (A.tableAt m.ram q).isSome then 0 else 1) = if x = 0 then 1 else 0 := by
    intro q x hiff
    by_cases hx : x = 0
    · rw [if_pos hx, if_neg fun hs => hiff.mp hs hx]
    · rw [if_neg hx, if_pos (hiff.mpr hx)]
  show (if (A.tableAt m.ram [levelIndex 3 (pageAddr n)]).isSome then 0 else 1) +
    ((if (A.tableAt m.ram [levelIndex 3 (pageAddr n), levelIndex 2 (pageAddr n)]).isSome then 0 else 1) +
    ((if (A.tableAt m.ram (path (pageAddr n))).isSome then 0 else 1) + 0)) = _
  rw [hif h3, hif h2, hif h1, tableCost, Nat.add_zero, Nat.add_assoc]

end Backed

/-! ### Growing -/

/-- The heap's variables are no concern of the frame allocator and the tables. -/
theorem tables_of_vars {A : Space} {role : Nat → Role} {m : Machine} (h : Tables A role m)
    (heapEnd head usedBytes : Nat) : Tables A role {m with heapEnd, head, usedBytes} := by
  have hsame : SameFrames A.map.bitmapBase m {m with heapEnd, head, usedBytes} :=
    ⟨rfl, rfl, rfl, rfl, rfl, fun _ _ _ => rfl⟩
  exact ⟨h.toAllocator.same hsame, h.shape, h.cr3, h.pml4, h.taken, h.bitmap_role⟩

theorem free_of_vars (m : Machine) (heapEnd head usedBytes : Nat) :
    pmmFreeFrames {m with heapEnd, head, usedBytes} = pmmFreeFrames m := rfl

/-- From `m` to `m'` the heap grew: frames took new roles, and what was mapped
holds what it held. -/
structure Growth (role role' : Nat → Role) (m m' : Machine) : Prop where
  fields : m' = {m with ram := m'.ram, usedFrames := m'.usedFrames, heapEnd := m'.heapEnd}
  kept : ∀ f, role f ≠ .spare → role' f = role f
  data : ∀ a, (role (a / pageSize)).IsData → m'.ram a = m.ram a

namespace Growth
variable {role role' role'' : Nat → Role} {m m' m'' : Machine}

theorem refl (role : Nat → Role) (m : Machine) : Growth role role m m :=
  ⟨rfl, fun _ _ => rfl, fun _ _ => rfl⟩

theorem trans (h : Growth role role' m m') (h' : Growth role' role'' m' m'') :
    Growth role role'' m m'' := by
  refine ⟨by rw [h'.fields, h.fields], fun f hf => ?_, fun a ha => ?_⟩
  · rw [h'.kept f (by rw [h.kept f hf]; exact hf), h.kept f hf]
  · have hne : role (a / pageSize) ≠ .spare := by
      intro hs
      rw [hs] at ha
      exact ha
    rw [h'.data a (by rw [h.kept _ hne]; exact ha), h.data a ha]

end Growth

namespace Backed
variable {A : Space} {role : Nat → Role} {n : Nat} {m : Machine}

theorem canonical (h : Backed A role n m) {k v : Nat} (hk : k < A.map.totalFrames) (hv : InPage k v) :
    Canonical v := by
  rw [inPage_iff] at hv
  have htop := h.pageAddr_lt (k := k + 1) (by omega)
  have hbase : heapBase ≤ pageAddr k := pageAddr_mono (Nat.zero_le k)
  exact canonical_of_heap (by omega) (by omega)

/-- A frame that is a page of the heap after a mapping was one before, or it is the
frame of the new page. -/
theorem page_cases {f : Nat} {role' : Nat → Role} {v e : Nat} {m₀ m' : Machine}
    (hw : Written A v e (assign role f (.page n)) role' m₀ m') {g k : Nat}
    (hg : role' g = .page k) : role g = .page k ∨ g = f ∧ k = n := by
  by_cases hgf : g = f
  · refine .inr ⟨hgf, ?_⟩
    rw [hgf, hw.kept f (by rw [assign_same]; simp), assign_same] at hg
    exact (Role.page.inj hg).symm
  · by_cases hs : role g = .spare
    · rcases hw.fresh g (by rw [assign_ne role _ hgf]; exact hs) with hs' | ⟨p, hp⟩
      · rw [hs'] at hg
        cases hg
      · rw [hp] at hg
        cases hg
    · rw [hw.kept g (by rw [assign_ne role _ hgf]; exact hs), assign_ne role _ hgf] at hg
      exact .inl hg

/-- The pages of the heap after a mapping: those before it, and the new one. -/
theorem page_of_written (h : Backed A role n m) {f : Nat} (hspare : role f = .spare)
    {role' : Nat → Role} {v e : Nat} {m₀ m' : Machine}
    (hw : Written A v e (assign role f (.page n)) role' m₀ m') {k : Nat} (hk : k < n + 1) :
    ∃ g, role' g = .page k := by
  by_cases hkn : k = n
  · exact ⟨f, by rw [hw.kept f (by rw [assign_same]; simp), assign_same, hkn]⟩
  · obtain ⟨g, hg⟩ := h.page k (by omega)
    have hgf : g ≠ f := by
      rintro rfl
      rw [hspare] at hg
      cases hg
    exact ⟨g, by rw [hw.kept g (by rw [assign_ne role _ hgf, hg]; simp), assign_ne role _ hgf, hg]⟩

/-- One page more, with its frame `f` and what `vmm_map` wrote for it. -/
theorem mapped (h : Backed A role n m) {f : Nat} {role' : Nat → Role} {m' : Machine}
    (hlt : f < A.map.totalFrames) (hspare : role f = .spare)
    (ht : Tables A role' m')
    (hw : Written A (pageAddr n) (leafEntry (f * pageSize) pageWrite) (assign role f (.page n)) role'
      (setFrame m f) m')
    (hfree : pmmFreeFrames m' < pmmFreeFrames m) (hf : f < m.totalFrames) :
    Backed A role' (n + 1) {m' with heapEnd := add64 m'.heapEnd pageSize} := by
  have hcount := h.count
  have htotal := A.map.total_le
  have hn : n < A.map.totalFrames := by omega
  have hend : m'.heapEnd = pageAddr n := by rw [hw.fields]; exact h.heapEnd
  have hcanon := h.canonical hn (inPage_pageAddr n)
  have htables := fun a ha => h.toTables.setFrame_tableBytes hf (a := a) ha
  have hwalk : ∀ v, walk (setFrame m f).ram A.root v = walk m.ram A.root v :=
    h.shape.walk_congr htables
  have hleaf : ∀ v, leafOf (leafEntry (f * pageSize) pageWrite) v =
      some ⟨f * pageSize + v % pageSize, true, false, false⟩ := by
    intro v
    rw [leafOf_leafEntry (by unfold IsFlags; decide),
      mask_eq (frame_mod f) (by unfold pageSize; omega)]
    rfl
  have hsame : ∀ v, InPage n v → SamePage (pageAddr n) v :=
    fun v hv => indices_of_page_eq hv
  have hother : ∀ v, Canonical v → ¬ InPage n v → ¬ SamePage (pageAddr n) v :=
    fun v hv hne hs => hne (page_eq_of_indices hv hcanon hs.1 hs.2)
  refine ⟨tables_of_vars ht _ _ _, h.top, h.owned, h.lowest, ?_, ?_,
    fun k hk => h.page_of_written hspare hw hk, ?_, ?_, ?_⟩
  · show add64 m'.heapEnd pageSize = _
    have htop := h.pageAddr_lt (k := n + 1) (by omega)
    rw [pageAddr_succ] at htop
    rw [hend, add64_eq htop, pageAddr_succ]
  · rw [free_of_vars m']
    omega
  · intro g k hg
    rcases page_cases hw hg with hold | ⟨rfl, rfl⟩
    · obtain ⟨hk, hglt, hto⟩ := h.leads g k hold
      refine ⟨by omega, hglt, fun v hv => ?_⟩
      have hne : ¬ InPage n v := by
        rw [inPage_iff] at hv ⊢
        have := pageAddr_mono (show k + 1 ≤ n by omega)
        omega
      show walk m'.ram A.root v = _
      rw [hw.walk, if_neg (hother v (h.canonical (by omega) hv) hne), hwalk, hto v hv]
    · refine ⟨by omega, hlt, fun v hv => ?_⟩
      show walk m'.ram A.root v = _
      rw [hw.walk, if_pos (hsame v hv), hleaf]
  · intro v hv howned hout
    show walk m'.ram A.root v = _
    rw [hw.walk, if_neg (hother v hv (hout n (by omega))), hwalk,
      h.beyond v hv howned fun k hk => hout k (by omega)]
  · intro q t hq hlen hqt
    rcases hw.only q t hlen hqt with hold | hpre
    · rw [h.shape.tableAt_congr htables hlen] at hold
      obtain ⟨k, hk, hpre⟩ := h.grown q t hq hlen hold
      exact ⟨k, by omega, hpre⟩
    · exact ⟨n, by omega, hpre⟩

/-- Taking a frame for a page and mapping it there lets the heap grow. -/
theorem growth_of_written (h : Backed A role n m) {f : Nat} {role' : Nat → Role} {m' : Machine}
    {v e : Nat} (hlt : f < m.totalFrames) (hspare : role f = .spare)
    (hw : Written A v e (assign role f (.page n)) role' (setFrame m f) m') :
    Growth role role' m {m' with heapEnd := add64 m'.heapEnd pageSize} := by
  refine ⟨?_, fun g hg => ?_, fun a ha => ?_⟩
  · rw [hw.fields]
    rfl
  · have hgf : g ≠ f := fun heq => hg (heq ▸ hspare)
    rw [hw.kept g (by rw [assign_ne role _ hgf]; exact hg), assign_ne role _ hgf]
  · have hpage : a / pageSize ≠ f := by
      intro heq
      rw [heq, hspare] at ha
      exact ha
    show m'.ram a = m.ram a
    rw [hw.data a (by rw [assign_ne role _ hpage]; exact ha)]
    refine h.toTables.setFrame_same hlt fun heq => ?_
    rw [heq] at ha
    exact ha

/-- One turn of the loop in `grow_pages`. -/
theorem growOne (h : Backed A role n m) (pages : Nat) :
    (pmmFreeFrames m = 0 ∧ growPages m (pages + 1) = .ok (false, m)) ∨
    (0 < pmmFreeFrames m ∧ pmmFreeFrames m ≤ tableCost (pageAddr n) ∧
      growPages m (pages + 1) = .error .nullTable) ∨
    (tableCost (pageAddr n) < pmmFreeFrames m ∧ ∃ role' m',
      growPages m (pages + 1) = growPages m' pages ∧ Backed A role' (n + 1) m' ∧
        Growth role role' m m' ∧
        pmmFreeFrames m = pmmFreeFrames m' + (1 + tableCost (pageAddr n))) := by
  have hcount := h.count
  rcases h.toAllocator.alloc_cases with ⟨hzero, hnull⟩ | ⟨f, hpos, hlt, hfree, hfreePos, hsome⟩
  · refine .inl ⟨hzero, ?_⟩
    rw [growPages, hnull]
    rfl
  · have hfne : f * pageSize ≠ null := by
      unfold pageSize null
      omega
    have hspare := h.toTables.spare_of_free hlt hfree
    have ht := h.toTables.setFrame_assign hlt hfree (.page n)
    have hdec := h.toAllocator.free_setFrame hlt hfree
    have htables := fun a ha => h.toTables.setFrame_tableBytes hlt (a := a) ha
    have hcost : missing A (setFrame m f).ram [] (path (pageAddr n)) = tableCost (pageAddr n) := by
      rw [missing_congr fun q hq => h.shape.tableAt_congr htables (by simpa using hq), h.missing_eq]
    have hv := h.owned n (by omega)
    have hgrow : growPages m (pages + 1) =
        (vmmMap (setFrame m f) (setFrame m f).kernelPml4 (pageAddr n) (f * pageSize) pageWrite >>= fun m =>
          growPages {m with heapEnd := add64 m.heapEnd pageSize} pages) := by
      rw [growPages, hsome, ← h.heapEnd]
      simp only [hfne, if_false]
      rfl
    by_cases hle : pmmFreeFrames m ≤ tableCost (pageAddr n)
    · refine .inr (.inl ⟨hfreePos, hle, ?_⟩)
      rw [hgrow, ht.map_fault hv (by rw [hcost]; omega), error_bind]
    · obtain ⟨role', m', hmap, ht', hw, _, hused⟩ := ht.map_ok hv (f * pageSize)
        (show pageWrite < 2 ^ 64 by decide) (by rw [hcost]; omega)
      rw [hcost] at hused
      have hlt' : f < A.map.totalFrames := by rw [← h.total_eq]; exact hlt
      refine .inr (.inr ⟨Nat.lt_of_not_le hle, role', _, by rw [hgrow, hmap, ok_bind],
        h.mapped hlt' hspare ht' hw (by omega) hlt, h.growth_of_written hlt hspare hw, ?_⟩)
      rw [free_of_vars m']
      omega

/-- **`grow_pages`** maps all its pages when the free frames suffice; when they
run out in front of a page it returns false with the pages before mapped, and in
the middle of a page's tables it looks into a null table. -/
theorem growPages (h : Backed A role n m) (pages : Nat) :
    (framesNeeded n pages ≤ pmmFreeFrames m → ∃ role' m',
      Heap.growPages m pages = .ok (true, m') ∧ Backed A role' (n + pages) m' ∧
        Growth role role' m m' ∧ pmmFreeFrames m = pmmFreeFrames m' + framesNeeded n pages) ∧
    (∀ j, j < pages → pmmFreeFrames m = framesNeeded n j → ∃ role' m',
      Heap.growPages m pages = .ok (false, m') ∧ Backed A role' (n + j) m' ∧
        Growth role role' m m' ∧ pmmFreeFrames m' = 0 ∧ (j = 0 → m' = m)) ∧
    (∀ j, j < pages → framesNeeded n j < pmmFreeFrames m →
      pmmFreeFrames m < framesNeeded n (j + 1) → Heap.growPages m pages = .error .nullTable) := by
  induction pages generalizing n m role with
  | zero =>
    refine ⟨fun _ => ⟨role, m, rfl, h, .refl _ _, rfl⟩, fun j hj => absurd hj (Nat.not_lt_zero j),
      fun j hj => absurd hj (Nat.not_lt_zero j)⟩
  | succ pages ih =>
    rcases h.growOne pages with ⟨hzero, hnull⟩ | ⟨hpos, hle, hfault⟩ | ⟨hlt, role₁, m₁, hgrow, h₁, g₁, hfree⟩
    · refine ⟨fun hle => ?_, fun j hj heq => ?_, fun j hj hlt => ?_⟩
      · rw [framesNeeded] at hle
        omega
      · cases j with
        | zero => exact ⟨role, m, hnull, h, .refl _ _, hzero, fun _ => rfl⟩
        | succ j =>
          rw [framesNeeded] at heq
          omega
      · omega
    · refine ⟨fun hle' => ?_, fun j hj heq => ?_, fun j hj _ _ => hfault⟩
      · rw [framesNeeded] at hle'
        omega
      · exact absurd heq (framesNeeded_ne hpos hle j)
    · obtain ⟨hok, hfalse, hfault⟩ := ih h₁
      rw [hgrow]
      refine ⟨fun hle => ?_, fun j hj heq => ?_, fun j hj hlt' hgt => ?_⟩
      · rw [framesNeeded] at hle
        obtain ⟨role', m', hr, h', g', hused⟩ := hok (by omega)
        refine ⟨role', m', hr, ?_, g₁.trans g', by rw [framesNeeded]; omega⟩
        rw [show n + (pages + 1) = n + 1 + pages by omega]
        exact h'
      · cases j with
        | zero =>
          rw [framesNeeded] at heq
          omega
        | succ j =>
          rw [framesNeeded] at heq
          obtain ⟨role', m', hr, h', g', hused, _⟩ := hfalse j (by omega) (by omega)
          refine ⟨role', m', hr, ?_, g₁.trans g', hused, fun hj => nomatch hj⟩
          rw [show n + (j + 1) = n + 1 + j by omega]
          exact h'
      · cases j with
        | zero =>
          simp only [framesNeeded] at hgt
          omega
        | succ j =>
          simp only [framesNeeded] at hlt' hgt
          exact hfault j (by omega) (by omega) (by simp only [framesNeeded]; omega)

end Backed

end ArcMonark.Mm.Heap
