import ArcMonark.Mm.VmmKernelHalf

/-! `vmm_map` and `vmm_unmap` inside a tree that was taken over.

A `LiveTree` has its tables in used frames, each at one place, and within reach of the
direct map; what they allow and how they map does not matter. As long as the way to an
address meets no large page, the code walks as the processor does, adds fresh tables
where some are missing, and writes one entry of the last. -/
namespace ArcMonark.Mm.Vmm
open Library Pmm
open Library.Trie (reach Graft)

structure LiveTree (P : PlacedMap) (root : Nat) (m : Machine) : Prop extends Allocator P m where
  direct : P.offset + P.totalFrames * pageSize ≤ 2 ^ 64
  pml4 : m.kernelPml4 = physToVirt m root
  root_mod : root % pageSize = 0 ∧ root < 2 ^ 52
  taken : ∀ p n, nodeAt m.ram root p = some n →
    m.totalFrames ≤ n.table / pageSize ∨ bmpTest m (n.table / pageSize) = true
  apart : ∀ p n, nodeAt m.ram root p = some n → ¬ P.InBitmap (n.table / pageSize)
  mapped : ∀ p n, nodeAt m.ram root p = some n → physToVirt m n.table ≠ null
  unique : ∀ p q n n', nodeAt m.ram root p = some n → nodeAt m.ram root q = some n' →
    n.table = n'.table → p = q

/-- The pointer to a frame of the allocator's is not null. -/
theorem frame_ptr {P : PlacedMap} {m : Machine} {f : Nat} (h : Allocator P m)
    (hd : P.offset + P.totalFrames * pageSize ≤ 2 ^ 64) (hpos : 0 < f) (hlt : f < m.totalFrames) :
    physToVirt m (f * pageSize) ≠ null := by
  have hoff := h.offset_eq
  have htotal := h.total_eq
  unfold physToVirt add64 null pageSize at *
  omega

/-- Frame `f` was handed out between `m` and `m'`. -/
def Taken (m m' : Machine) (f : Nat) : Prop :=
  f < m.totalFrames ∧ bmpTest m f = false ∧ bmpTest m' f = true

/-- Where a call may write: into tables, into frames that it was handed, and into the
bitmap, where the frame allocator records them. -/
def Allowed (P : PlacedMap) (root : Nat) (m m' : Machine) (a : Nat) : Prop :=
  (∃ p n, nodeAt m.ram root p = some n ∧ a / pageSize = n.table / pageSize) ∨
    Taken m m' (a / pageSize) ∨ P.bitmapBase ≤ a ∧ a < P.bitmapBase + m.bitmapSize

/-- From `m` to `m'` only such places were written, and every new table is a frame handed
out meanwhile. -/
structure Confined (P : PlacedMap) (root : Nat) (m m' : Machine) : Prop where
  fields : m' = {m with ram := m'.ram, usedFrames := m'.usedFrames}
  fresh : ∀ p n, nodeAt m'.ram root p = some n →
    nodeAt m.ram root p = some n ∨ Taken m m' (n.table / pageSize)
  used : ∀ f, f < m.totalFrames → bmpTest m f = true → bmpTest m' f = true
  bytes : ∀ a, m'.ram a ≠ m.ram a → Allowed P root m m' a

namespace Confined
variable {P : PlacedMap} {root : Nat} {m m' m'' : Machine}

theorem refl (P : PlacedMap) (root : Nat) (m : Machine) : Confined P root m m :=
  ⟨rfl, fun _ _ h => .inl h, fun _ _ h => h, fun _ h => absurd rfl h⟩

theorem total (h : Confined P root m m') : m'.totalFrames = m.totalFrames := by
  rw [h.fields]

theorem taken_left (h : Confined P root m' m'') {f : Nat} (ht : m'.totalFrames = m.totalFrames)
    (hf : Taken m m' f) : Taken m m'' f :=
  ⟨hf.1, hf.2.1, h.used f (by rw [ht]; exact hf.1) hf.2.2⟩

theorem taken_right (h : Confined P root m m') {f : Nat} (hf : Taken m' m'' f) : Taken m m'' f := by
  refine ⟨by rw [← h.total]; exact hf.1, ?_, hf.2.2⟩
  cases hbit : bmpTest m f
  · rfl
  · rw [← hf.2.1]
    exact (h.used f (by rw [← h.total]; exact hf.1) hbit).symm

theorem trans (h : Confined P root m m') (h' : Confined P root m' m'') : Confined P root m m'' := by
  refine ⟨by rw [h'.fields, h.fields], ?_, ?_, ?_⟩
  · intro p n hn
    rcases h'.fresh p n hn with hn | ht
    · exact (h.fresh p n hn).imp_right (h'.taken_left h.total)
    · exact .inr (h.taken_right ht)
  · intro f hf hbit
    exact h'.used f (by rw [h.total]; exact hf) (h.used f hf hbit)
  · intro a ha
    by_cases hsame : m'.ram a = m.ram a
    · have hsize : m'.bitmapSize = m.bitmapSize := by rw [h.fields]
      rcases h'.bytes a (by rw [hsame]; exact ha) with ⟨p, n, hn, hpage⟩ | ht | hin
      · rcases h.fresh p n hn with hn | ht
        · exact .inl ⟨p, n, hn, hpage⟩
        · exact .inr (.inl (by rw [hpage]; exact h'.taken_left h.total ht))
      · exact .inr (.inl (h.taken_right ht))
      · exact .inr (.inr (by rw [← hsize]; exact hin))
    · exact (h.bytes a hsame).imp_right (Or.imp_left (h'.taken_left h.total))

end Confined

namespace LiveTree
variable {P : PlacedMap} {root : Nat} {m m' : Machine} {p : List Nat} {n : Node} {level t i f : Nat}

theorem table_mod (h : LiveTree P root m) (hn : nodeAt m.ram root p = some n) :
    n.table % pageSize = 0 ∧ n.table < 2 ^ 52 := nodeAt_mod h.root_mod hn

theorem ne_free (h : LiveTree P root m) (hn : nodeAt m.ram root p = some n) (hlt : f < m.totalFrames)
    (hfree : bmpTest m f = false) : n.table / pageSize ≠ f := by
  rintro rfl
  rcases h.taken p n hn with hge | hused
  · omega
  · rw [hfree] at hused
    cases hused

/-- Another entry is apart from one that is written. -/
theorem entry_other (h : LiveTree P root m) {q : List Nat} {n' : Node} {j : Nat}
    (hn : nodeAt m.ram root p = some n) (hn' : nodeAt m.ram root q = some n') (hi : i < 512) (hj : j < 512)
    (hne : q ≠ p ∨ j ≠ i) {a : Nat} (hle : n'.table + 8 * j ≤ a) (hlt : a < n'.table + 8 * j + 8) :
    a < n.table + 8 * i ∨ n.table + 8 * i + 8 ≤ a := by
  obtain ⟨hmod, _⟩ := h.table_mod hn
  obtain ⟨hmod', _⟩ := h.table_mod hn'
  have htable : q ≠ p → n'.table ≠ n.table := fun hqp heq => hqp (h.unique q p n' n hn' hn heq)
  unfold pageSize at *
  rcases hne with hqp | hji
  · have := htable hqp
    omega
  · by_cases hqp : q = p
    · subst hqp
      rw [hn] at hn'
      cases hn'
      omega
    · have := htable hqp
      omega

/-! ### One table more -/

section Link
variable (h : LiveTree P root m) (hn : nodeAt m.ram root p = some ⟨level + 1, t⟩) (hi : i < 512)
  (hlt : f < m.totalFrames)
include h hn hi hlt

/-- What linking frame `f` in at entry `i` writes. -/
theorem link_bytes {a : Nat} (hpage : a / pageSize ≠ f) (hslot : a < t + 8 * i ∨ t + 8 * i + 8 ≤ a) :
    (linkFrame m t i f).ram a = (setFrame m f).ram a := by
  have ht : t < 2 ^ 52 := (h.table_mod hn).2
  rw [linkFrame_ram h.offset ht hi (frame_lt h.toAllocator hlt), Mem.store64_of_outside _ _ hslot,
    memset_outside _ _ (by unfold pageSize at *; omega)]

theorem link_entry : entryAt (linkFrame m t i f).ram t i = linkEntry (f * pageSize) := by
  have hf := frame_lt h.toAllocator hlt
  rw [linkFrame_ram h.offset (h.table_mod hn).2 hi hf]
  exact Mem.load64_store64_same _ _ (linkEntry_lt hf)

variable (hfree : bmpTest m f = false)
include hfree

theorem link_empty {j : Nat} (hj : j < 512) :
    present (entryAt (linkFrame m t i f).ram (f * pageSize) j) = false := by
  have ht : t % pageSize = 0 ∧ t < 2 ^ 52 := h.table_mod hn
  have hne : t / pageSize ≠ f := h.ne_free hn hlt hfree
  refine present_zero fun a hle hlt' => ?_
  have hpage : a / pageSize = f := by
    unfold pageSize at *
    omega
  have hmod := ht.1
  have hout : a < t + 8 * i ∨ t + 8 * i + 8 ≤ a := by
    unfold pageSize at *
    omega
  have hin : f * pageSize ≤ a ∧ a < f * pageSize + pageSize := by
    clear ht
    unfold pageSize at *
    omega
  rw [linkFrame_ram h.offset ht.2 hi (frame_lt h.toAllocator hlt), Mem.store64_of_outside _ _ hout,
    memset_inside _ _ hin.1 hin.2]

/-- Every other entry of every table is kept. -/
theorem link_other {q : List Nat} {n' : Node} {j : Nat} (hn' : nodeAt m.ram root q = some n') (hj : j < 512)
    (hne : q ≠ p ∨ j ≠ i) : entryAt (linkFrame m t i f).ram n'.table j = entryAt m.ram n'.table j := by
  refine entryAt_congr (h.table_mod hn').1 hj fun a ha hle hlt' => ?_
  rw [h.link_bytes hn hi hlt (by rw [ha]; exact h.ne_free hn' hlt hfree)
    (h.entry_other hn hn' hi hj hne hle hlt')]
  exact h.toAllocator.setFrame_apart hlt (by rw [ha]; exact h.apart q n' hn')

theorem link_bit {g : Nat} (hg : g < m.totalFrames) :
    bmpTest (linkFrame m t i f) g = (decide (g = f) || bmpTest m g) := by
  obtain ⟨hmod, ht⟩ := h.table_mod hn
  exact bmpTest_linkFrame h.toAllocator hlt hfree ht hmod hi (h.apart p ⟨level + 1, t⟩ hn) hg

theorem link_taken : Taken m (linkFrame m t i f) f :=
  ⟨hlt, hfree, by rw [h.link_bit hn hi hlt hfree hlt]; simp⟩

variable (habsent : present (entryAt m.ram t i) = false)
include habsent

theorem link_graft : Graft (Node.below m.ram) (Node.below (linkFrame m t i f).ram) ⟨3, root⟩ 3 p
    ⟨level + 1, t⟩ i ⟨level, f * pageSize⟩ := by
  have hf := frame_lt h.toAllocator hlt
  have hentry := h.link_entry hn hi hlt
  refine ⟨hn, ?_, below_absent habsent, ?_, ?_, ?_, ?_⟩
  · intro q _ hq
    exact h.unique q p _ _ hq hn rfl
  · intro q _ hq
    exact h.ne_free hq hlt hfree (frame_div f)
  · have hopen := linkEntry_open (frame_mod f) hf
    rw [below_present hi (by rw [hentry]; exact linkEntry_present _) (.inr (by rw [hentry]; exact hopen.small)),
      hentry, linkEntry_addr (frame_mod f) hf]
  · intro j
    by_cases hj : j < 512
    · exact below_absent (h.link_empty hn hi hlt hfree hj)
    · cases hb : Node.below (linkFrame m t i f).ram ⟨level, f * pageSize⟩ j with
      | none => rfl
      | some c => exact absurd (below_some hb).2.2.1 hj
  · intro q n' j _ hq hne
    refine below_congr fun hj => h.link_other hn hi hlt hfree hq hj ?_
    refine hne.imp_left fun hn' hqp => hn' ?_
    subst hqp
    exact Option.some.inj (hq.symm.trans hn)

/-- The new table translates nothing, and no other entry changes. -/
theorem link_walk (v : Nat) : walk (linkFrame m t i f).ram root v = walk m.ram root v := by
  have hcount := nodeAt_level hn
  by_cases hpre : p ++ [i] <+: way v
  · have hnew := (h.link_graft hn hi hlt hfree habsent).reach_new (nodeAt_length hn)
    obtain ⟨hq, rfl⟩ := way_split hcount hpre
    have hnext : p ++ [levelIndex (level + 1) v] ++ [levelIndex level v] <+: way v :=
      way_next (by rw [← hq, List.append_assoc]; rfl)
    rw [walk_absent hn hpre habsent, walk_absent hnew hnext (h.link_empty hn hi hlt hfree (levelIndex_lt _ v))]
  · refine walk_congr_way fun q n' j hq hj hqj => h.link_other hn hi hlt hfree hq hj ?_
    by_contra hsame
    push Not at hsame
    obtain ⟨rfl, rfl⟩ := hsame
    exact hpre hqj

theorem link_fresh {q : List Nat} {n' : Node} (hq : nodeAt (linkFrame m t i f).ram root q = some n') :
    nodeAt m.ram root q = some n' ∨ n'.table / pageSize = f ∧ q = p ++ [i] := by
  have g := h.link_graft hn hi hlt hfree habsent
  rcases g.reach_cases (nodeAt_length hn) (nodeAt_length hq) hq with hold | ⟨rfl, rfl⟩
  · exact .inl hold
  · exact .inr ⟨frame_div f, rfl⟩

theorem link_confined : Confined P root m (linkFrame m t i f) := by
  refine ⟨rfl, ?_, ?_, ?_⟩
  · intro q n' hq
    refine (h.link_fresh hn hi hlt hfree habsent hq).imp_right fun hf => ?_
    rw [hf.1]
    exact h.link_taken hn hi hlt hfree
  · intro g hg hbit
    rw [h.link_bit hn hi hlt hfree hg, hbit, Bool.or_true]
  · intro a ha
    by_cases hpage : a / pageSize = f
    · refine .inr (.inl ?_)
      rw [hpage]
      exact h.link_taken hn hi hlt hfree
    · by_cases hslot : a < t + 8 * i ∨ t + 8 * i + 8 ≤ a
      · refine .inr (.inr ?_)
        by_contra hout
        rw [h.link_bytes hn hi hlt hpage hslot] at ha
        exact ha ((h.toPlaced.setFrame_only hlt).outside a (by omega))
      · have hmod : t % pageSize = 0 := (h.table_mod hn).1
        refine .inl ⟨p, _, hn, ?_⟩
        show a / pageSize = t / pageSize
        unfold pageSize at *
        omega

theorem link_tree (hpos : 0 < f) : LiveTree P root (linkFrame m t i f) := by
  obtain ⟨hmod, ht⟩ := h.table_mod hn
  have hptr := frame_ptr h.toAllocator h.direct hpos hlt
  refine ⟨linkFrame_allocator h.toAllocator hlt hfree ht hmod hi (h.apart p ⟨level + 1, t⟩ hn), h.direct, h.pml4, h.root_mod,
    ?_, ?_, ?_, ?_⟩
  · intro q n' hq
    by_cases hg : n'.table / pageSize < m.totalFrames
    · refine .inr ?_
      rw [h.link_bit hn hi hlt hfree hg]
      rcases h.link_fresh hn hi hlt hfree habsent hq with hold | ⟨hf, _⟩
      · rcases h.taken q n' hold with hge | hbit
        · omega
        · rw [hbit, Bool.or_true]
      · simp [hf]
    · exact .inl (Nat.le_of_not_lt hg)
  · intro q n' hq
    rcases h.link_fresh hn hi hlt hfree habsent hq with hold | ⟨hf, _⟩
    · exact h.apart q n' hold
    · rw [hf]
      exact (h.free_usable f hlt hfree).2
  · intro q n' hq
    rcases (h.link_graft hn hi hlt hfree habsent).reach_cases (nodeAt_length hn) (nodeAt_length hq) hq with
      hold | ⟨_, rfl⟩
    · exact h.mapped q n' hold
    · exact hptr
  · intro q r n' n'' hq hr heq
    rcases h.link_fresh hn hi hlt hfree habsent hq with hq' | ⟨hf, rfl⟩
    · rcases h.link_fresh hn hi hlt hfree habsent hr with hr' | ⟨hf, rfl⟩
      · exact h.unique q r n' n'' hq' hr' heq
      · exact absurd (by rw [heq, hf]) (h.ne_free hq' hlt hfree)
    · rcases h.link_fresh hn hi hlt hfree habsent hr with hr' | ⟨_, rfl⟩
      · exact absurd (by rw [← heq, hf]) (h.ne_free hr' hlt hfree)
      · rfl

end Link

end LiveTree

/-! ### The way down -/

/-- The address bits of the entry that maps a large page on the way to `v`, if the
processor meets one: what the code takes for the next table. -/
def largeFrom (ram : Mem) (v : Nat) : (level table : Nat) → Option Nat
  | 0, _ => none
  | level + 1, table =>
    let e := entryAt ram table (levelIndex (level + 1) v)
    if present e then
      if large e && level != 2 then some (e &&& pageAddrMask) else largeFrom ram v level (e &&& pageAddrMask)
    else none

/-- The tables along labels, none made where one is missing. -/
def lookup (m : Machine) (table : Nat) : List Nat → Except Fault Nat
  | [] => .ok table
  | i :: is => getNextLevel m table i false >>= fun (next, _) => if next = null then .ok null else lookup m next is

/-- A look changes nothing. -/
theorem look_cases (m : Machine) (table i : Nat) :
    (∃ e, getNextLevel m table i false = .error e) ∨ ∃ next, getNextLevel m table i false = .ok (next, m) := by
  unfold getNextLevel
  split
  · exact .inl ⟨_, rfl⟩
  · split
    · exact .inr ⟨_, rfl⟩
    · exact .inr ⟨_, rfl⟩

/-- `vmm_unmap` is a look and one write. -/
theorem vmmUnmap_eq (m : Machine) (pml4 v : Nat) :
    vmmUnmap m pml4 v = (lookup m pml4 (path v) >>= fun pt =>
      if pt = null then .ok m else .ok (tableSet m pt (ptIndex v) 0)) := by
  have hstep : ∀ (table i : Nat) (is : List Nat) (rest : Nat → Machine → Except Fault Machine),
      (∀ next, next ≠ null → rest next m = (lookup m next is >>= fun pt =>
        if pt = null then .ok m else .ok (tableSet m pt (ptIndex v) 0))) →
      (getNextLevel m table i false >>= fun (next, m) => if next = null then .ok m else rest next m) =
        (lookup m table (i :: is) >>= fun pt =>
          if pt = null then .ok m else .ok (tableSet m pt (ptIndex v) 0)) := by
    intro table i is rest hrest
    rw [lookup]
    rcases look_cases m table i with ⟨e, he⟩ | ⟨next, hn⟩
    · rw [he]
      rfl
    · rw [hn, ok_bind, ok_bind]
      by_cases hnull : next = null
      · simp only [hnull, if_true]
        rfl
      · simp only [hnull, if_false]
        exact hrest next hnull
  refine hstep pml4 (levelIndex 3 v) [levelIndex 2 v, levelIndex 1 v] (fun pdpt m =>
    getNextLevel m pdpt (levelIndex 2 v) false >>= fun (pd, m) => if pd = null then .ok m else
      getNextLevel m pd (levelIndex 1 v) false >>= fun (pt, m) => if pt = null then .ok m else
        .ok (tableSet m pt (ptIndex v) 0)) fun pdpt _ => ?_
  refine hstep pdpt (levelIndex 2 v) [levelIndex 1 v] (fun pd m =>
    getNextLevel m pd (levelIndex 1 v) false >>= fun (pt, m) => if pt = null then .ok m else
      .ok (tableSet m pt (ptIndex v) 0)) fun pd _ => ?_
  refine hstep pd (levelIndex 1 v) [] (fun pt m => .ok (tableSet m pt (ptIndex v) 0)) fun pt hpt => ?_
  simp only [lookup, ok_bind, hpt, if_false]

/-- With no large page below, a present entry leads on, and there is none below that. -/
theorem nodeAt_next_small {ram : Mem} {root v level t : Nat} {q : List Nat}
    (hn : nodeAt ram root q = some ⟨level + 1, t⟩) (hq : q ++ pathFrom v (level + 1) = path v)
    (hp : present (entryAt ram t (levelIndex (level + 1) v)) = true) (hsmall : largeFrom ram v (level + 1) t = none) :
    nodeAt ram root (q ++ [levelIndex (level + 1) v]) =
        some ⟨level, entryAt ram t (levelIndex (level + 1) v) &&& pageAddrMask⟩ ∧
      q ++ [levelIndex (level + 1) v] ++ pathFrom v level = path v ∧
      largeFrom ram v level (entryAt ram t (levelIndex (level + 1) v) &&& pageAddrMask) = none := by
  simp only [largeFrom, hp, if_true] at hsmall
  cases hlarge : large (entryAt ram t (levelIndex (level + 1) v)) && level != 2
  · rw [hlarge] at hsmall
    obtain ⟨hnode, hq'⟩ := nodeAt_next hn hq hp hlarge
    exact ⟨hnode, hq', by simpa using hsmall⟩
  · rw [hlarge] at hsmall
    simp at hsmall

namespace LiveTree
variable {P : PlacedMap} {root : Nat} {m m' : Machine} {v level t : Nat} {p : List Nat}

/-- Where the way meets no large page the descent ends at the last table, if the frames
suffice for the missing ones. -/
theorem descend (h : LiveTree P root m) (hn : nodeAt m.ram root p = some ⟨level, t⟩)
    (hq : p ++ pathFrom v level = path v) (hsmall : largeFrom m.ram v level t = none) :
    (level ≤ pmmFreeFrames m → ∃ r, Vmm.descend m (physToVirt m t) (pathFrom v level) = .ok r) ∧
      ∀ ptr m', Vmm.descend m (physToVirt m t) (pathFrom v level) = .ok (ptr, m') →
        ∃ pt, ptr = physToVirt m' pt ∧ LiveTree P root m' ∧ Confined P root m m' ∧
          (∀ w, walk m'.ram root w = walk m.ram root w) ∧
          nodeAt m'.ram root (path v) = some ⟨0, pt⟩ := by
  induction level generalizing m p t with
  | zero =>
    rw [pathFrom, List.append_nil] at hq
    subst hq
    have hptr := h.mapped _ _ hn
    rw [pathFrom, Vmm.descend, if_neg hptr]
    refine ⟨fun _ => ⟨_, rfl⟩, fun ptr m' hok => ?_⟩
    cases hok
    exact ⟨t, rfl, h, .refl _ _ _, fun _ => rfl, hn⟩
  | succ level ih =>
    have hi := levelIndex_lt (level + 1) v
    have hptr : physToVirt m t ≠ null := h.mapped _ _ hn
    have ht : t < 2 ^ 52 := (h.table_mod hn).2
    rw [pathFrom, Vmm.descend]
    cases hp : present (entryAt m.ram t (levelIndex (level + 1) v))
    · rcases getNextLevel_alloc h.offset ht hi hptr h.toAllocator hp with
        ⟨hzero, hnull⟩ | ⟨f, hpos, hlt, hfree, hsome⟩
      · rw [hnull, ok_bind]
        have hfault := descend_null m (pathFrom v level)
        exact ⟨fun hle => absurd hle (by omega), fun ptr m' hok => by cases hfault.symm.trans hok⟩
      · have h₁ := h.link_tree hn hi hlt hfree hp hpos
        have hnew := (h.link_graft hn hi hlt hfree hp).reach_new (nodeAt_length hn)
        have hconf := h.link_confined hn hi hlt hfree hp
        have hcount : pmmFreeFrames m = pmmFreeFrames (linkFrame m t (levelIndex (level + 1) v) f) + 1 :=
          linkFrame_free h.toAllocator hlt hfree
        have hempty : largeFrom (linkFrame m t (levelIndex (level + 1) v) f).ram v level (f * pageSize) = none := by
          cases level with
          | zero => rfl
          | succ level =>
            simp [largeFrom, h.link_empty hn hi hlt hfree (levelIndex_lt (level + 1) v)]
        obtain ⟨hok, hres⟩ := ih h₁ hnew (by rw [← hq, List.append_assoc]; rfl) hempty
        rw [hsome, ok_bind]
        refine ⟨fun hle => hok (by omega), fun ptr m' hd => ?_⟩
        obtain ⟨pt, hpt, h', hconf', hwalk, hnode⟩ := hres ptr m' hd
        exact ⟨pt, hpt, h', hconf.trans hconf',
          fun w => (hwalk w).trans (h.link_walk hn hi hlt hfree hp w), hnode⟩
    · obtain ⟨hnode, hq', hbelow⟩ := nodeAt_next_small hn hq hp hsmall
      rw [getNextLevel_present h.offset ht hi hptr hp, ok_bind]
      obtain ⟨hok, hres⟩ := ih h hnode hq' hbelow
      exact ⟨fun hle => hok (by omega), hres⟩

/-- The same for a look. -/
theorem lookup (h : LiveTree P root m) (hn : nodeAt m.ram root p = some ⟨level, t⟩)
    (hq : p ++ pathFrom v level = path v) (hsmall : largeFrom m.ram v level t = none) :
    ∃ ptr, Vmm.lookup m (physToVirt m t) (pathFrom v level) = .ok ptr ∧
      (ptr ≠ null → ∃ pt, ptr = physToVirt m pt ∧ nodeAt m.ram root (path v) = some ⟨0, pt⟩) := by
  induction level generalizing p t with
  | zero =>
    rw [pathFrom, List.append_nil] at hq
    subst hq
    exact ⟨_, rfl, fun _ => ⟨t, rfl, hn⟩⟩
  | succ level ih =>
    have hi := levelIndex_lt (level + 1) v
    have hptr : physToVirt m t ≠ null := h.mapped _ _ hn
    have ht : t < 2 ^ 52 := (h.table_mod hn).2
    rw [pathFrom, Vmm.lookup]
    cases hp : present (entryAt m.ram t (levelIndex (level + 1) v))
    · rw [getNextLevel_absent h.offset ht hi hptr hp, ok_bind]
      exact ⟨null, rfl, fun hne => absurd rfl hne⟩
    · obtain ⟨hnode, hq', hbelow⟩ := nodeAt_next_small hn hq hp hsmall
      have hnext := h.mapped _ _ hnode
      rw [getNextLevel_present h.offset ht hi hptr hp, ok_bind]
      simp only [hnext, if_false]
      exact ih hnode hq' hbelow

/-! ### The last entry -/

section Leaf
variable {pt : Nat} (h : LiveTree P root m) (hn : nodeAt m.ram root (path v) = some ⟨0, pt⟩) (e : Nat)
include h hn

theorem leaf_bytes {a : Nat} (ha : a < pt + 8 * levelIndex 0 v ∨ pt + 8 * levelIndex 0 v + 8 ≤ a) :
    (tableSet m (physToVirt m pt) (ptIndex v) e).ram a = m.ram a := by
  have hslot := slotAddr_phys h.offset (h.table_mod hn).2 (levelIndex_lt 0 v)
  show m.ram.store64 (slotAddr m (physToVirt m pt) (levelIndex 0 v)) e a = _
  rw [hslot]
  exact Mem.store64_of_outside _ _ ha

theorem leaf_other {q : List Nat} {n' : Node} {j : Nat} (hn' : nodeAt m.ram root q = some n') (hj : j < 512)
    (hne : q ≠ path v ∨ j ≠ levelIndex 0 v) :
    entryAt (tableSet m (physToVirt m pt) (ptIndex v) e).ram n'.table j = entryAt m.ram n'.table j :=
  entryAt_congr (h.table_mod hn').1 hj fun _ _ hle hlt =>
    h.leaf_bytes hn e (h.entry_other hn hn' (levelIndex_lt 0 v) hj hne hle hlt)

/-- The tables stay where they are. -/
theorem leaf_nodeAt {q : List Nat} (hq : q.length ≤ 3) :
    nodeAt (tableSet m (physToVirt m pt) (ptIndex v) e).ram root q = nodeAt m.ram root q := by
  refine Trie.reach_congr (fun q n' j hlt hq => below_congr fun hj => h.leaf_other hn e hq hj (.inl ?_)) hq
  rintro rfl
  exact absurd hlt (by rw [path_length]; omega)

theorem leaf_confined : Confined P root m (tableSet m (physToVirt m pt) (ptIndex v) e) := by
  obtain ⟨hmod, ht⟩ := h.table_mod hn
  have hsame := tableSet_frames h.toAllocator ht hmod (levelIndex_lt 0 v) (h.apart _ ⟨0, pt⟩ hn) e
  refine ⟨rfl, fun q n' hq => ?_, fun f hf hbit => ?_, fun a ha => ?_⟩
  · rw [h.leaf_nodeAt hn e (nodeAt_length hq)] at hq
    exact .inl hq
  · exact (hsame.bmpTest h.toPlaced hf).trans hbit
  · refine .inl ⟨_, _, hn, ?_⟩
    by_contra hpage
    refine ha (h.leaf_bytes hn e ?_)
    have hidx := levelIndex_lt 0 v
    change pt % pageSize = 0 at hmod
    change ¬ a / pageSize = pt / pageSize at hpage
    unfold pageSize at *
    omega

/-- Only addresses with the same way see the entry. -/
theorem leaf_walk {w : Nat} (hw : way w ≠ way v) :
    walk (tableSet m (physToVirt m pt) (ptIndex v) e).ram root w = walk m.ram root w := by
  refine walk_congr_way fun q n' j hq hj hpre => h.leaf_other hn e hq hj ?_
  by_contra hsame
  push Not at hsame
  obtain ⟨rfl, rfl⟩ := hsame
  exact hw (hpre.eq_of_length rfl).symm

end Leaf

end LiveTree

/-! ### One call -/

/-- A call that maps or unmaps the page of an address. -/
inductive PageCall where
  | map (phys flags : Nat)
  | unmap

def PageCall.run (c : PageCall) (m : Machine) (virt : Nat) : Except Fault Machine :=
  match c with
  | .map phys flags => vmmMap m m.kernelPml4 virt phys flags
  | .unmap => vmmUnmap m m.kernelPml4 virt

/-- What a call on the page of `virt` should do to the rest: nothing. -/
structure Local (P : PlacedMap) (root virt : Nat) (m m' : Machine) : Prop where
  bytes : ∀ a, m'.ram a ≠ m.ram a → Allowed P root m m' a
  walk : ∀ w, Canonical w → w / pageSize ≠ virt / pageSize → walk m'.ram root w = walk m.ram root w

theorem way_ne {v w : Nat} (hv : Canonical v) (hw : Canonical w) (h : w / pageSize ≠ v / pageSize) :
    way w ≠ way v := by
  intro heq
  obtain ⟨hpath, hlast⟩ := List.append_inj heq rfl
  exact h (page_eq_of_indices hw hv hpath (List.cons.inj hlast).1)

namespace LiveTree
variable {P : PlacedMap} {root : Nat} {m : Machine} {v : Nat}

/-- Where the way meets no large page a call is local, and with three free frames it
returns. -/
theorem call_local (h : LiveTree P root m) (hv : Canonical v) (hsmall : largeFrom m.ram v 3 root = none)
    (c : PageCall) : (3 ≤ pmmFreeFrames m → ∃ m', c.run m v = .ok m') ∧
      ∀ m', c.run m v = .ok m' → Local P root v m m' := by
  have hroot : nodeAt m.ram root [] = some ⟨3, root⟩ := rfl
  cases c with
  | map phys flags =>
    obtain ⟨hok, hres⟩ := h.descend hroot rfl hsmall
    simp only [PageCall.run, vmmMap_eq, h.pml4]
    refine ⟨fun hfree => ?_, fun m' hrun => ?_⟩
    · obtain ⟨⟨pt, m₁⟩, hd⟩ := hok hfree
      exact ⟨_, congrArg (· >>= _) hd⟩
    · obtain ⟨⟨ptr, m₁⟩, hd, hset⟩ := ok_of_bind hrun
      obtain ⟨pt, rfl, h₁, hconf, hwalk, hnode⟩ := hres ptr m₁ hd
      cases hset
      refine ⟨(hconf.trans (h₁.leaf_confined hnode _)).bytes, fun w hw hpage => ?_⟩
      exact (h₁.leaf_walk hnode _ (way_ne hv hw hpage)).trans (hwalk w)
  | unmap =>
    obtain ⟨ptr, hl, hres⟩ := h.lookup hroot rfl hsmall
    simp only [PageCall.run, vmmUnmap_eq, h.pml4]
    have hl' : Vmm.lookup m (physToVirt m root) (path v) = .ok ptr := hl
    rw [hl', ok_bind]
    by_cases hnull : ptr = null
    · simp only [hnull, if_true]
      refine ⟨fun _ => ⟨m, rfl⟩, fun m' hrun => ?_⟩
      cases hrun
      exact ⟨fun a ha => absurd rfl ha, fun _ _ _ => rfl⟩
    · simp only [hnull, if_false]
      refine ⟨fun _ => ⟨_, rfl⟩, fun m' hrun => ?_⟩
      cases hrun
      obtain ⟨pt, rfl, hnode⟩ := hres hnull
      exact ⟨(h.leaf_confined hnode 0).bytes, fun w hw hpage => h.leaf_walk hnode 0 (way_ne hv hw hpage)⟩

end LiveTree

end ArcMonark.Mm.Vmm
