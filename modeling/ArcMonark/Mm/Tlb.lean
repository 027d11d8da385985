import ArcMonark.Mm.VmmRuns
import ArcMonark.Mm.VmmInherited
import ArcMonark.Library.Cache

/-! Cached translations.

The processor keeps translations it has walked and may walk any address at any time,
between two table entries that a call writes and between the entry of the page and the
`invlpg` after it too. Here `vmm_map` and `vmm_unmap` take one `get_next_level` at a time.
What the processor translates is the abstract map, but for the one page whose `invlpg` is
still to come, which may lead where it led before (`translations_are_current`). -/
namespace ArcMonark.Mm.Vmm
open Library Pmm

/-! ### Calls in steps -/

/-- Where a call stands. -/
inductive Call where
  | idle
  /-- `vmm_map` at a table, with the indices still to follow. -/
  | mapping (virt phys flags table : Nat) (left : List Nat)
  | unmapping (virt table : Nat) (left : List Nat)
  /-- The page's entry is written and `invlpg` comes next; the page was `old`. -/
  | flushing (virt : Nat) (old : Option Page)

/-- The run of whole calls so far, the machine now, the call under way and the cache. -/
structure CachedRun where
  space : SpaceRun
  machine : Machine
  call : Call
  tlb : Cache Nat Page

namespace CachedRun

/-- The pages that the processor finds in the tables. -/
def walked (w : CachedRun) : PageMap := PageMap.ofWalk w.machine.ram w.machine.cr3

/-- What the processor translates, from the cache where it can. -/
def translate (w : CachedRun) (v : Nat) : Option Translation :=
  PageMap.translate (w.tlb.lookup w.walked) v

/-- The last write of a call: the page's entry becomes `e`. -/
def write (w : CachedRun) (table virt e : Nat) (pages : PageMap) : CachedRun :=
  let m := tableSet w.machine table (ptIndex virt) e
  {w with space := ⟨w.space.start, m, pages⟩, machine := m,
          call := .flushing virt (w.space.pages (virt / pageSize))}

end CachedRun

inductive CachedEvent where
  | map (virt phys flags : Nat)
  | unmap (virt : Nat)
  | level
  | write
  | invlpg
  | alloc
  /-- The processor walks an address, for an access or ahead of one. -/
  | fill (v : Nat)
  | evict (n : Nat)

inductive CachedStep : CachedRun → CachedEvent → CachedRun → Prop where
  | map {w virt phys flags} : w.call = .idle → w.space.Own virt → IsFlags flags →
      CachedStep w (.map virt phys flags)
        {w with call := .mapping virt phys flags w.machine.kernelPml4 (path virt)}
  | make {w virt phys flags table i is next m} : w.call = .mapping virt phys flags table (i :: is) →
      getNextLevel w.machine table i true = .ok (next, m) →
      CachedStep w .level {w with machine := m, call := .mapping virt phys flags next is}
  | set {w virt phys flags table} : w.call = .mapping virt phys flags table [] → table ≠ null →
      CachedStep w .write
        (w.write table virt (leafEntry phys flags) (w.space.pages.map virt phys flags))
  | unmap {w virt} : w.call = .idle → w.space.Own virt →
      CachedStep w (.unmap virt) {w with call := .unmapping virt w.machine.kernelPml4 (path virt)}
  | look {w virt table i is next m} : w.call = .unmapping virt table (i :: is) →
      getNextLevel w.machine table i false = .ok (next, m) → next ≠ null →
      CachedStep w .level {w with machine := m, call := .unmapping virt next is}
  /-- An early return of `vmm_unmap`, without `invlpg`. -/
  | absent {w virt table i is m} : w.call = .unmapping virt table (i :: is) →
      getNextLevel w.machine table i false = .ok (null, m) →
      CachedStep w .level
        {w with space := ⟨w.space.start, m, w.space.pages.unmap virt⟩, machine := m, call := .idle}
  | clear {w virt table} : w.call = .unmapping virt table [] →
      CachedStep w .write (w.write table virt 0 (w.space.pages.unmap virt))
  | invlpg {w virt old} : w.call = .flushing virt old →
      CachedStep w .invlpg {w with call := .idle, tlb := w.tlb.drop (virt / pageSize)}
  | alloc {w} : w.call = .idle →
      CachedStep w .alloc
        {w with space := {w.space with machine := (pmmAllocFrame w.machine).2},
                machine := (pmmAllocFrame w.machine).2}
  | fill {w v} : Canonical v →
      CachedStep w (.fill v) {w with tlb := w.tlb.fill (v / pageSize) (w.walked (v / pageSize))}
  | evict {w n} : CachedStep w (.evict n) {w with tlb := w.tlb.drop n}

/-- The write of CR3 in `vmm_init` leaves no translation cached. -/
def cached (B : Boot) : System CachedRun CachedEvent where
  init := fun w => (space B).init w.space ∧ w.machine = w.space.machine ∧ w.call = .idle ∧
    w.tlb = fun _ => none
  step := CachedStep

/-! ### The invariant -/

/-- The page that may still lead where it led before. -/
def Call.stale : Call → Option (Nat × Option Page)
  | .flushing virt old => some (virt / pageSize, old)
  | _ => none

/-- The tables now translate as the map of the whole calls does. -/
def Translates (A : Space) (w : CachedRun) : Prop :=
  ∃ role, Refined A role ⟨w.space.start, w.machine, w.space.pages⟩

/-- What a call under way has done, and what it still does. -/
def Underway (A : Space) (w : CachedRun) : Call → Prop
  | .idle => w.machine = w.space.machine
  | .mapping virt phys flags table left =>
    w.space.Own virt ∧ IsFlags flags ∧
      (table = null ∨ ∃ p t, p ++ left = path virt ∧ A.tableAt w.machine.ram p = some t ∧
        table = physToVirt w.machine t) ∧
      vmmMap w.space.machine w.space.machine.kernelPml4 virt phys flags =
        (descend w.machine table left >>= fun (pt, m) =>
          .ok (tableSet m pt (ptIndex virt) (leafEntry phys flags)))
  | .unmapping virt table left =>
    w.space.Own virt ∧ w.machine = w.space.machine ∧ table ≠ null ∧
      vmmUnmap w.space.machine w.space.machine.kernelPml4 virt =
        (lookup w.machine table left >>= fun pt =>
          if pt = null then .ok w.machine else .ok (tableSet w.machine pt (ptIndex virt) 0))
  | .flushing _ _ => w.machine = w.space.machine

structure CacheOk (B : Boot) (w : CachedRun) : Prop where
  whole : (space B).Reachable w.space
  call : ∃ A, Translates A w ∧ Underway A w w.call
  tlb : w.tlb.Within w.space.pages w.call.stale

namespace PageMap

/-- The translation of an address tells its page. -/
theorem page_of_translate {p q : PageMap} {v : Nat} (h : p.translate v = q.translate v) :
    p (v / pageSize) = q (v / pageSize) := by
  rw [translate, translate] at h
  refine Option.map_injective (fun a b hab => ?_) h
  obtain ⟨frame, write, user, nx⟩ := a
  obtain ⟨frame', write', user', nx'⟩ := b
  simp only [Translation.mk.injEq, Nat.add_right_cancel_iff] at hab
  simp only [Page.mk.injEq]
  exact hab

theorem translate_congr {p q : PageMap} {v : Nat} (h : p (v / pageSize) = q (v / pageSize)) :
    p.translate v = q.translate v := by
  rw [translate, translate, h]

theorem map_same (p : PageMap) (virt phys flags : Nat) {v : Nat} (h : v / pageSize = virt / pageSize) :
    p.map virt phys flags (v / pageSize) =
      some ⟨phys &&& pageAddrMask, flags.testBit 1, flags.testBit 2, flags.testBit 63⟩ := by
  rw [map, set, if_pos h]

/-- Unmapping what is not mapped changes nothing. -/
theorem unmap_of_none {p : PageMap} {v : Nat} (h : p (v / pageSize) = none) : p.unmap v = p := by
  funext n
  rw [unmap, set]
  split
  case isTrue heq => rw [heq, h]
  case isFalse => rfl

end PageMap

section Invariant
variable {B : Boot} {A : Space} {w w' : CachedRun}

theorem Translates.walk (h : Translates A w) {v : Nat} (hv : Canonical v) :
    walk w.machine.ram w.machine.cr3 v = w.space.pages.translate v := by
  obtain ⟨role, h⟩ := h
  rw [show w.machine.cr3 = A.root from h.tables.cr3]
  exact h.walk v hv

/-- A page filled from the tables is a page of the map. -/
theorem Translates.page (h : Translates A w) {v : Nat} (hv : Canonical v) :
    w.walked (v / pageSize) = w.space.pages (v / pageSize) :=
  PageMap.page_of_translate ((walk_eq_translate _ _ v).symm.trans (h.walk hv))

/-- Between whole calls the tables are those of a run of whole calls. -/
theorem translates_whole (hrun : (space B).Reachable w.space) (hm : w.machine = w.space.machine) :
    ∃ A, Translates A w := by
  obtain ⟨A, role, h⟩ := refined_reachable hrun
  exact ⟨A, role, by rw [hm]; exact h⟩

/-- A table found or made on the way changes no translation. -/
theorem underway_make {virt phys flags table i next : Nat} {is : List Nat} {m : Machine}
    (h : Translates A w) (hu : Underway A w (.mapping virt phys flags table (i :: is)))
    (hnext : getNextLevel w.machine table i true = .ok (next, m)) :
    Translates A {w with machine := m, call := .mapping virt phys flags next is} ∧
      Underway A {w with machine := m, call := .mapping virt phys flags next is}
        (.mapping virt phys flags next is) := by
  obtain ⟨role, h⟩ := h
  obtain ⟨hown, hf, htable, hcall⟩ := hu
  have hcall' : vmmMap w.space.machine w.space.machine.kernelPml4 virt phys flags =
      (descend m next is >>= fun (pt, m) => .ok (tableSet m pt (ptIndex virt) (leafEntry phys flags))) := by
    rw [hcall, descend, hnext, ok_bind]
  rcases htable with rfl | ⟨p, t, hpath, ht, rfl⟩
  · rw [getNextLevel, if_pos rfl] at hnext
    cases hnext
  have hlen : p.length ≤ 2 := by
    have := congrArg List.length hpath
    simp only [List.length_append, List.length_cons, path_length] at this
    omega
  have hpre : p ++ [i] <+: path virt := ⟨is, by rw [← hpath]; simp⟩
  have hi : i < 512 := by
    have hmem : i ∈ path virt := hpre.subset (by simp)
    simp only [path, List.mem_cons, List.not_mem_nil, or_false] at hmem
    rcases hmem with rfl | rfl | rfl <;> exact levelIndex_lt _ _
  have howned : p = [] → A.owned i = true := by
    rintro rfl
    have hi3 : i = levelIndex 3 virt := (List.cons.inj hpath).1
    rw [hi3]
    exact h.own hown
  have hrest : p ++ [i] ++ is = path virt := by rw [← hpath, List.append_assoc]; rfl
  rcases h.tables.nextLevel hlen ht hi howned hpre with
    ⟨c, hc, heq⟩ | ⟨_, _, heq⟩ | ⟨_, role', m', c, heq, htables, hgrown, hc, _⟩
  · cases hnext.symm.trans heq
    exact ⟨⟨role, h⟩, hown, hf, .inr ⟨p ++ [i], c, hrest, hc, rfl⟩, hcall'⟩
  · cases hnext.symm.trans heq
    exact ⟨⟨role, h⟩, hown, hf, .inl rfl, hcall'⟩
  · cases hnext.symm.trans heq
    refine ⟨⟨role', htables, h.owned, fun v hv => ?_⟩, hown, hf, .inr ⟨p ++ [i], c, hrest, hc, rfl⟩, hcall'⟩
    rw [← h.walk v hv]
    exact hgrown.walk v

/-- After the last write of `vmm_map` the machine is that of the whole call. -/
theorem whole_set {virt phys flags table : Nat} (hrun : (space B).Reachable w.space)
    (hu : Underway A w (.mapping virt phys flags table [])) (hne : table ≠ null) :
    (space B).Reachable
      (w.write table virt (leafEntry phys flags) (w.space.pages.map virt phys flags)).space := by
  obtain ⟨hown, hf, _, hcall⟩ := hu
  rw [descend, if_neg hne, ok_bind] at hcall
  exact .step hrun (SpaceStep.map hown hf hcall)

theorem whole_clear {virt table : Nat} (hrun : (space B).Reachable w.space)
    (hu : Underway A w (.unmapping virt table [])) :
    (space B).Reachable (w.write table virt 0 (w.space.pages.unmap virt)).space := by
  obtain ⟨hown, _, hne, hcall⟩ := hu
  rw [lookup, ok_bind, if_neg hne] at hcall
  exact .step hrun (SpaceStep.unmap hown hcall)

/-- A look stays in the machine of the whole calls. -/
theorem underway_look {virt table i next : Nat} {is : List Nat} {m : Machine}
    (hu : Underway A w (.unmapping virt table (i :: is)))
    (hnext : getNextLevel w.machine table i false = .ok (next, m)) :
    m = w.machine ∧ vmmUnmap w.space.machine w.space.machine.kernelPml4 virt =
      (if next = null then .ok null else lookup w.machine next is) >>= fun pt =>
        if pt = null then .ok w.machine else .ok (tableSet w.machine pt (ptIndex virt) 0) := by
  obtain ⟨_, _, _, hcall⟩ := hu
  rcases look_cases w.machine table i with ⟨e, he⟩ | ⟨next', hn⟩
  · rw [he] at hnext
    cases hnext
  · cases hn.symm.trans hnext
    refine ⟨rfl, ?_⟩
    rw [hcall, lookup, hn, ok_bind]

/-- The last write leaves one page stale. -/
theorem cacheOk_write {table virt e : Nat} {page : Option Page} (h : CacheOk B w)
    (hfresh : w.call.stale = none)
    (hrun : (space B).Reachable (w.write table virt e (w.space.pages.set (virt / pageSize) page)).space) :
    CacheOk B (w.write table virt e (w.space.pages.set (virt / pageSize) page)) := by
  obtain ⟨A, htr⟩ := translates_whole hrun rfl
  have htlb := h.tlb
  rw [hfresh] at htlb
  exact ⟨hrun, ⟨A, htr, rfl⟩, htlb.set fun n hn => if_neg hn⟩

/-- A page without a table is not mapped, so its early return leaves nothing stale. -/
theorem cacheOk_absent {virt table i : Nat} {is : List Nat} {m : Machine} (h : CacheOk B w)
    (hcall : w.call = .unmapping virt table (i :: is))
    (hnext : getNextLevel w.machine table i false = .ok (null, m)) :
    CacheOk B {w with space := ⟨w.space.start, m, w.space.pages.unmap virt⟩, machine := m,
                      call := .idle} := by
  obtain ⟨A, htr, hu⟩ := h.call
  have htlb := h.tlb
  rw [hcall] at hu htlb
  obtain ⟨rfl, hwhole⟩ := underway_look hu hnext
  rw [if_pos rfl, ok_bind, if_pos rfl] at hwhole
  have hrun := System.Reachable.step h.whole (SpaceStep.unmap hu.1 hwhole)
  obtain ⟨A', htr'⟩ := translates_whole (w := {w with
    space := ⟨w.space.start, w.machine, w.space.pages.unmap virt⟩, call := .idle}) hrun rfl
  have hpage : w.space.pages (virt / pageSize) = none := by
    have htwo := (htr.walk hu.1.1).symm.trans (htr'.walk hu.1.1)
    rw [PageMap.page_of_translate htwo]
    exact if_pos rfl
  refine ⟨hrun, ⟨A', htr', rfl⟩, ?_⟩
  show w.tlb.Within (w.space.pages.unmap virt) none
  rw [PageMap.unmap_of_none hpage]
  exact htlb

theorem cacheOk_step {i : CachedEvent} (h : CacheOk B w) (hs : CachedStep w i w') : CacheOk B w' := by
  obtain ⟨A, htr, hu⟩ := h.call
  have htlb := h.tlb
  cases hs with
  | map hcall hown hf =>
    rw [hcall] at hu htlb
    obtain ⟨A, role, hr⟩ := refined_reachable h.whole
    refine ⟨h.whole, ⟨A, ⟨role, by rw [hu]; exact hr⟩, hown, hf, .inr ⟨[], A.root, rfl, rfl, ?_⟩, ?_⟩, htlb⟩
    · rw [hu]
      exact hr.tables.pml4
    · rw [← vmmMap_eq, hu]
  | make hcall hnext =>
    rw [hcall] at hu htlb
    obtain ⟨htr', hu'⟩ := underway_make htr hu hnext
    exact ⟨h.whole, ⟨A, htr', hu'⟩, htlb⟩
  | set hcall hne =>
    rw [hcall] at hu
    exact cacheOk_write h (by rw [hcall]; rfl) (whole_set h.whole hu hne)
  | unmap hcall hown =>
    rw [hcall] at hu htlb
    obtain ⟨A, role, hr⟩ := refined_reachable h.whole
    refine ⟨h.whole, ⟨A, ⟨role, by rw [hu]; exact hr⟩, hown, hu, ?_, ?_⟩, htlb⟩
    · rw [hu, hr.tables.pml4]
      exact hr.tables.table_ne_null (p := []) (by simp) rfl
    · rw [← vmmUnmap_eq, hu]
  | look hcall hnext hne =>
    rw [hcall] at hu htlb
    obtain ⟨rfl, hwhole⟩ := underway_look hu hnext
    rw [if_neg hne] at hwhole
    exact ⟨h.whole, ⟨A, htr, hu.1, hu.2.1, hne, hwhole⟩, htlb⟩
  | absent hcall hnext => exact cacheOk_absent h hcall hnext
  | clear hcall =>
    rw [hcall] at hu
    exact cacheOk_write h (by rw [hcall]; rfl) (whole_clear h.whole hu)
  | invlpg hcall =>
    rw [hcall] at hu htlb
    exact ⟨h.whole, ⟨A, htr, hu⟩, htlb.flush⟩
  | alloc hcall =>
    rw [hcall] at hu
    have hrun := System.Reachable.step h.whole SpaceStep.alloc
    rw [← hu] at hrun
    obtain ⟨A, htr⟩ := translates_whole (w := {w with
      space := ⟨w.space.start, (pmmAllocFrame w.machine).2, w.space.pages⟩,
      machine := (pmmAllocFrame w.machine).2}) hrun rfl
    refine ⟨hrun, ⟨A, htr, ?_⟩, htlb⟩
    rw [hcall]
    rfl
  | fill hv => exact ⟨h.whole, ⟨A, htr, hu⟩, htlb.fill (htr.page hv)⟩
  | evict => exact ⟨h.whole, ⟨A, htr, hu⟩, htlb.drop _⟩

theorem cacheOk_reachable (h : (cached B).Reachable w) : CacheOk B w := by
  refine System.invariant ?_ (fun _ _ _ => cacheOk_step) h
  rintro w ⟨hspace, hm, hcall, htlb⟩
  obtain ⟨A, htr⟩ := translates_whole (.start hspace) hm
  refine ⟨.start hspace, ⟨A, htr, ?_⟩, ?_⟩
  · rw [hcall]
    exact hm
  · rw [htlb]
    exact .empty _ _

end Invariant

/-! ### Whole calls in steps -/

section Steps
variable {B : Boot} {s : SpaceRun} {tlb : Cache Nat Page}

/-- Level by level to the last table. -/
theorem mapping_runs {virt phys flags table pt : Nat} {left : List Nat} {m m' : Machine}
    (h : (cached B).Reachable ⟨s, m, .mapping virt phys flags table left, tlb⟩)
    (hd : descend m table left = .ok (pt, m')) :
    pt ≠ null ∧ (cached B).Reachable ⟨s, m', .mapping virt phys flags pt [], tlb⟩ := by
  induction left generalizing table m with
  | nil =>
    rw [descend] at hd
    split at hd
    · cases hd
    · cases hd
      exact ⟨‹_›, h⟩
  | cons i is ih =>
    obtain ⟨⟨next, m₁⟩, hnext, hd⟩ := ok_of_bind hd
    exact ih (.step h (CachedStep.make rfl hnext)) hd

theorem unmapping_runs {virt table : Nat} {left : List Nat} {m : Machine}
    (h : (cached B).Reachable ⟨s, s.machine, .unmapping virt table left, tlb⟩) (hne : table ≠ null)
    (hl : (lookup s.machine table left >>= fun pt =>
      if pt = null then .ok s.machine else .ok (tableSet s.machine pt (ptIndex virt) 0)) = .ok m) :
    ∃ tlb', (cached B).Reachable ⟨⟨s.start, m, s.pages.unmap virt⟩, m, .idle, tlb'⟩ := by
  induction left generalizing table with
  | nil =>
    rw [lookup, ok_bind, if_neg hne] at hl
    cases hl
    exact ⟨_, .step (.step h (CachedStep.clear rfl)) (CachedStep.invlpg rfl)⟩
  | cons i is ih =>
    rcases look_cases s.machine table i with ⟨e, he⟩ | ⟨next, hnext⟩
    · rw [lookup, he] at hl
      cases hl
    · rw [lookup, hnext, ok_bind] at hl
      by_cases hnull : next = null
      · subst hnull
        cases hl
        exact ⟨_, .step h (CachedStep.absent rfl hnext)⟩
      · simp only [if_neg hnull] at hl
        exact ih (.step h (CachedStep.look rfl hnext hnull)) hnull hl

end Steps

/-- What whole calls reach, calls in steps reach too. -/
theorem whole_runs {B : Boot} {s : SpaceRun} (h : (space B).Reachable s) :
    ∃ tlb, (cached B).Reachable ⟨s, s.machine, .idle, tlb⟩ := by
  induction h with
  | start hi => exact ⟨_, .start ⟨hi, rfl, rfl, rfl⟩⟩
  | @step s i s' hprev hs ih =>
    obtain ⟨tlb, ih⟩ := ih
    cases hs with
    | map hown hf hmap =>
      rw [vmmMap_eq] at hmap
      obtain ⟨⟨pt, m'⟩, hd, hm⟩ := ok_of_bind hmap
      cases hm
      obtain ⟨hne, hrun⟩ := mapping_runs (.step ih (CachedStep.map rfl hown hf)) hd
      exact ⟨_, .step (.step hrun (CachedStep.set rfl hne)) (CachedStep.invlpg rfl)⟩
    | unmap hown hunmap =>
      obtain ⟨A, role, hr⟩ := refined_reachable hprev
      rw [vmmUnmap_eq] at hunmap
      refine unmapping_runs (.step ih (CachedStep.unmap rfl hown)) ?_ hunmap
      rw [hr.tables.pml4]
      exact hr.tables.table_ne_null (p := []) (by simp) rfl
    | alloc => exact ⟨_, .step ih (CachedStep.alloc rfl)⟩

/-- A call that has its frames comes to its `invlpg`, with the cache as it was. -/
theorem map_runs {B : Boot} {s : SpaceRun} {tlb : Cache Nat Page} {virt flags : Nat} (phys : Nat)
    (h : (cached B).Reachable ⟨s, s.machine, .idle, tlb⟩) (hrun : (space B).Reachable s)
    (hown : s.Own virt) (hf : IsFlags flags) (hfree : 3 ≤ pmmFreeFrames s.machine) :
    ∃ m, pmmFreeFrames s.machine ≤ pmmFreeFrames m + 3 ∧
      (space B).Reachable ⟨s.start, m, s.pages.map virt phys flags⟩ ∧
      (cached B).Reachable ⟨⟨s.start, m, s.pages.map virt phys flags⟩, m,
        .flushing virt (s.pages (virt / pageSize)), tlb⟩ := by
  obtain ⟨A, role, hr⟩ := refined_reachable hrun
  have hmissing := missing_le A s.machine.ram [] (path virt)
  obtain ⟨_, m, hmap, _, _, _, hcount⟩ := hr.tables.map_ok (hr.own hown) phys hf.1
    (Nat.le_trans hmissing hfree)
  have hwhole := System.Reachable.step hrun (SpaceStep.map hown hf hmap)
  rw [vmmMap_eq] at hmap
  obtain ⟨⟨pt, m'⟩, hd, hm⟩ := ok_of_bind hmap
  cases hm
  obtain ⟨hne, hsteps⟩ := mapping_runs (.step h (CachedStep.map rfl hown hf)) hd
  rw [path_length] at hmissing
  exact ⟨_, by omega, hwhole, .step hsteps (CachedStep.set rfl hne)⟩

/-- **Translations are current.** In every state of every run, with walks at any time, the
processor translates every 48-bit address as the map of the calls so far does, but for the
page whose `invlpg` is still to come; that one may lead where it led before. Between calls
the machine is one that whole calls make. -/
theorem translations_are_current (B : Boot) {w : CachedRun} (h : (cached B).Reachable w) :
    (w.call = .idle → (space B).Reachable w.space ∧ w.machine = w.space.machine) ∧
      ∀ v, Canonical v →
        ((∀ virt old, w.call = .flushing virt old → v / pageSize ≠ virt / pageSize) →
          w.translate v = w.space.pages.translate v) ∧
        ∀ virt old, w.call = .flushing virt old → v / pageSize = virt / pageSize →
          w.translate v = w.space.pages.translate v ∨
            w.translate v = (w.space.pages.set (virt / pageSize) old).translate v := by
  have hw := cacheOk_reachable h
  obtain ⟨A, htr, hu⟩ := hw.call
  refine ⟨fun hidle => ⟨hw.whole, ?_⟩, fun v hv => ⟨fun hother => ?_, fun virt old hcall hpage => ?_⟩⟩
  · rw [hidle] at hu
    exact hu
  · refine PageMap.translate_congr ((w.tlb.lookup_congr (htr.page hv)).trans ?_)
    refine hw.tlb.lookup_of_ne fun old hstale => ?_
    cases hcall : w.call with
    | flushing virt old' =>
      rw [hcall] at hstale
      exact hother virt old' hcall (congrArg Prod.fst (Option.some.inj hstale)).symm
    | _ => simp [hcall, Call.stale] at hstale
  · have htlb := hw.tlb
    rw [hcall, Call.stale, ← hpage] at htlb
    have hwalked := w.tlb.lookup_congr (htr.page hv)
    refine htlb.lookup_stale.imp (fun hnow => PageMap.translate_congr (hwalked.trans hnow)) fun hold => ?_
    refine PageMap.translate_congr ((hwalked.trans hold).trans ?_)
    rw [PageMap.set, if_pos hpage]

/-- A page mapped anew leads where it did until `invlpg`, if the processor had walked it. -/
theorem translations_are_current_flatBoot :
    ∃ w w', (cached (flatBoot (n := 8) (by decide))).Reachable w ∧ CachedStep w .invlpg w' ∧
      w.translate 0xFFFFA00000000123 = some ⟨0x5123, true, false, false⟩ ∧
      w'.translate 0xFFFFA00000000123 = some ⟨0x6123, true, false, false⟩ := by
  obtain ⟨m, hm, _⟩ := (flatBoot (n := 8) (by decide)).pmmInit_ok
  have hfree : pmmFreeFrames m = 7 := flatBoot_free _ hm
  obtain ⟨A, role, hinit, hfree'⟩ := (flatBoot (n := 8) (by decide)).vmmInit_ok hm (by omega)
  have hstart : (space (flatBoot (n := 8) (by decide))).Reachable _ :=
    .start ⟨m, hm, by omega, rfl⟩
  have habsent : present (entryAt (vmmInit m).ram (vmmInit m).cr3 320) = false := by
    rw [hinit.tables.cr3, hinit.upper 320 (by decide) (by decide)]
    exact present_zero fun _ _ _ => rfl
  have hown : ∀ s : SpaceRun, s.start = vmmInit m → s.Own 0xFFFFA00000000000 := by
    intro s hs
    refine ⟨.inr (by decide), ?_⟩
    rw [hs]
    exact habsent
  have hflags : IsFlags pageWrite := by unfold IsFlags; decide
  have hv : Canonical 0xFFFFA00000000123 := .inr (by decide)
  -- mapped, flushed and walked
  obtain ⟨tlb, hidle⟩ := whole_runs hstart
  obtain ⟨m₁, hcount, hwhole₁, hrun₁⟩ := map_runs 0x5000 hidle hstart (hown _ rfl) hflags
    (show 3 ≤ pmmFreeFrames (vmmInit m) by omega)
  have hcount : pmmFreeFrames (vmmInit m) ≤ pmmFreeFrames m₁ + 3 := hcount
  have hflushed₁ := System.Reachable.step hrun₁ (CachedStep.invlpg rfl)
  obtain ⟨_, htr⟩ := translates_whole (w := ⟨_, m₁, .idle, _⟩) hwhole₁ rfl
  have hpage : _ = PageMap.map _ 0xFFFFA00000000000 0x5000 pageWrite _ := htr.page hv
  rw [PageMap.map_same _ _ _ _ (by decide)] at hpage
  have hwalked := System.Reachable.step hflushed₁ (CachedStep.fill hv)
  -- mapped elsewhere
  obtain ⟨m₂, _, _, hrun₂⟩ := map_runs 0x6000 hwalked hwhole₁ (hown _ rfl) hflags
    (show 3 ≤ pmmFreeFrames m₁ by omega)
  have hflushed := System.Reachable.step hrun₂ (CachedStep.invlpg rfl)
  refine ⟨_, _, hrun₂, CachedStep.invlpg rfl, ?_, ?_⟩
  · refine (PageMap.translate_congr (q := fun _ => some ⟨0x5000, true, false, false⟩) ?_).trans (by decide)
    rw [Cache.lookup_fill, hpage]
    rfl
  · rw [((translations_are_current _ hflushed).2 _ hv).1 nofun]
    exact PageMap.translate_set_same _ _ (by decide)

end ArcMonark.Mm.Vmm
