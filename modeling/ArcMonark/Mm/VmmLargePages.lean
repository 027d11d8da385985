import ArcMonark.Mm.VmmInherited

/-! Large pages in an inherited tree.

`get_next_level` follows every present entry as if it led to a table. On the way to an
address without large pages a call is local; where a large page lies on the way, the
code takes the first frame of that page for a table and reads and writes there
(`inherited_mapping_local`). -/
namespace ArcMonark.Mm.Vmm
open Library Pmm

/-! ### After `vmm_init` -/

/-- A bootloader's tree that the kernel can work in: what it keeps of it is a tree, and
the direct map reaches its tables. -/
structure Inheritable (P : PlacedMap) (m : Machine) : Prop extends OldTree P m where
  direct : P.offset + P.totalFrames * pageSize ≤ 2 ^ 64
  mapped : ∀ i p n, 256 ≤ i → nodeAt m.ram (activeRoot m) (i :: p) = some n → physToVirt m n.table ≠ null
  unique : ∀ i j p q n n', 256 ≤ i → 256 ≤ j → nodeAt m.ram (activeRoot m) (i :: p) = some n →
    nodeAt m.ram (activeRoot m) (j :: q) = some n' → n.table = n'.table → i :: p = j :: q

section TakeOver
variable {P : PlacedMap} {m m' : Machine} {f : Nat} (t : TookOver P m m' f) (h : Allocator P m)
include t h

/-- What the new root leads to in the upper half is what the old one leads to. -/
theorem TookOver.nodeAt_upper (hold : OldTree P m) {i : Nat} {p : List Nat} (hge : 256 ≤ i) (hp : p.length ≤ 2) :
    nodeAt m'.ram (f * pageSize) (i :: p) = nodeAt m.ram (activeRoot m) (i :: p) := by
  have hbelow : Node.below m'.ram ⟨3, f * pageSize⟩ i = Node.below m.ram ⟨3, activeRoot m⟩ i := by
    by_cases hi : i < 512
    · simp only [Node.below, t.upper i hge hi]
    · simp only [Node.below, hi, false_and, if_false]
  show (Node.below m'.ram ⟨3, f * pageSize⟩ i).bind _ = (Node.below m.ram ⟨3, activeRoot m⟩ i).bind _
  rw [hbelow]
  cases hc : Node.below m.ram ⟨3, activeRoot m⟩ i with
  | none => rw [Option.bind_none, Option.bind_none]
  | some c =>
    refine Trie.reach_congr (fun q n' j _ hq => below_congr fun hj => ?_) hp
    have hq' : nodeAt m.ram (activeRoot m) (i :: q) = some n' := Option.bind_eq_some_iff.mpr ⟨c, hc, hq⟩
    exact t.entry_kept h hold hq' hj

omit h in
/-- It leads to nothing in the lower half. -/
theorem TookOver.nodeAt_lower {i : Nat} {p : List Nat} (hlt : i < 256) :
    nodeAt m'.ram (f * pageSize) (i :: p) = none := by
  have habsent : present (entryAt m'.ram (f * pageSize) i) = false := by
    rw [t.lower i hlt]
    rfl
  have hbelow : Node.below m'.ram ⟨3, f * pageSize⟩ i = none := below_absent habsent
  show (Node.below m'.ram ⟨3, f * pageSize⟩ i).bind _ = none
  rw [hbelow]
  rfl

theorem TookOver.frames : SameFrames P.bitmapBase (setFrame m f) m' := by
  refine ⟨?_, ?_, ?_, ?_, ?_, fun a hle hlt => ?_⟩
  any_goals rw [t.fields]
  refine t.same a fun heq => (h.free_usable f t.lt t.free).2 ?_
  rw [← heq]
  exact h.inBitmap_byte hle hlt

theorem TookOver.bit {g : Nat} (hg : g < m.totalFrames) : bmpTest m' g = (decide (g = f) || bmpTest m g) := by
  rw [(t.frames h).bmpTest (h.setFrame t.lt t.free).toPlaced (f := g) hg, h.toPlaced.bmpTest_setFrame t.lt hg]

/-- The tree after `vmm_init`. -/
theorem TookOver.liveTree (hold : Inheritable P m) : LiveTree P (f * pageSize) m' := by
  have htotal : m'.totalFrames = m.totalFrames := (t.frames h).total
  have hoff : m'.hhdmOffset = m.hhdmOffset := (t.frames h).offset
  have hptr : ∀ a, physToVirt m' a = physToVirt m a := fun a => by rw [physToVirt, physToVirt, hoff]
  have hfrees := h.free_usable f t.lt t.free
  -- a table is the new root or an old table
  have hcases : ∀ p n, nodeAt m'.ram (f * pageSize) p = some n → (p = [] ∧ n.table = f * pageSize) ∨
      ∃ i q, p = i :: q ∧ 256 ≤ i ∧ nodeAt m.ram (activeRoot m) (i :: q) = some n := by
    intro p n hn
    cases p with
    | nil =>
      cases hn
      exact .inl ⟨rfl, rfl⟩
    | cons i q =>
      have hlen := nodeAt_length hn
      rw [List.length_cons] at hlen
      by_cases hge : 256 ≤ i
      · rw [t.nodeAt_upper h hold.toOldTree hge (by omega)] at hn
        exact .inr ⟨i, q, rfl, hge, hn⟩
      · rw [t.nodeAt_lower (by omega)] at hn
        cases hn
  refine ⟨(h.setFrame t.lt t.free).same (t.frames h), hold.direct, ?_, ⟨frame_mod f, frame_lt h t.lt⟩,
    fun p n hn => ?_, fun p n hn => ?_, fun p n hn => ?_, fun p q n n' hn hn' heq => ?_⟩
  · rw [hptr, t.fields]
  · rw [htotal]
    by_cases hlt : n.table / pageSize < m.totalFrames
    · refine .inr ?_
      rw [t.bit h hlt]
      rcases hcases p n hn with ⟨_, htable⟩ | ⟨i, q, _, _, hold'⟩
      · simp [htable, frame_div]
      · rcases hold.used _ n hold' with hge | hbit
        · omega
        · rw [hbit, Bool.or_true]
    · exact .inl (Nat.le_of_not_lt hlt)
  · rcases hcases p n hn with ⟨_, htable⟩ | ⟨i, q, _, _, hold'⟩
    · rw [htable, frame_div]
      exact hfrees.2
    · exact hold.apart _ n hold'
  · rw [hptr]
    rcases hcases p n hn with ⟨_, htable⟩ | ⟨i, q, _, hge, hold'⟩
    · rw [htable]
      exact frame_ptr h hold.direct t.pos t.lt
    · exact hold.mapped i q n hge hold'
  · have hroot : ∀ i r u, nodeAt m.ram (activeRoot m) (i :: r) = some u → u.table ≠ f * pageSize :=
      fun i r u hu htable => hold.ne_free hu t.lt t.free (by rw [htable, frame_div])
    rcases hcases p n hn with ⟨rfl, htable⟩ | ⟨i, r, rfl, hge, hold₁⟩ <;>
      rcases hcases q n' hn' with ⟨rfl, htable'⟩ | ⟨j, s, rfl, hge', hold₂⟩
    · rfl
    · exact absurd (heq ▸ htable) (hroot j s n' hold₂)
    · exact absurd (heq.trans htable') (hroot i r n hold₁)
    · exact hold.unique i j r s n n' hge hge' hold₁ hold₂ heq

end TakeOver

/-! ### A large page on the way -/

/-- Frame `x / PAGE_SIZE` holds data: no table of the tree and no part of the bitmap, not
free, and within reach of the direct map. -/
structure DataFrame (P : PlacedMap) (root : Nat) (m : Machine) (x : Nat) : Prop where
  table : ∀ p n, nodeAt m.ram root p = some n → n.table / pageSize ≠ x / pageSize
  used : m.totalFrames ≤ x / pageSize ∨ bmpTest m (x / pageSize) = true
  apart : ¬ P.InBitmap (x / pageSize)
  mapped : physToVirt m x ≠ null

/-- The table whose entry maps a large page at `x` on the way to `v`; tables of level
`level` would come next. -/
structure LargeAt (root : Nat) (m : Machine) (v level t x : Nat) (q : List Nat) : Prop where
  small : level < 2
  node : nodeAt m.ram root q = some ⟨level + 1, t⟩
  way : q ++ pathFrom v (level + 1) = path v
  present : present (entryAt m.ram t (levelIndex (level + 1) v)) = true
  page : x = entryAt m.ram t (levelIndex (level + 1) v) &&& pageAddrMask

theorem largeFrom_some {m : Machine} {root v level t x : Nat} {q : List Nat} (hl : level ≤ 3)
    (hn : nodeAt m.ram root q = some ⟨level, t⟩) (hq : q ++ pathFrom v level = path v)
    (h : largeFrom m.ram v level t = some x) : ∃ l t' q', LargeAt root m v l t' x q' := by
  induction level generalizing t q with
  | zero => cases h
  | succ level ih =>
    simp only [largeFrom] at h
    cases hp : present (entryAt m.ram t (levelIndex (level + 1) v))
    · simp [hp] at h
    · cases hlarge : large (entryAt m.ram t (levelIndex (level + 1) v)) && level != 2
      · obtain ⟨hnode, hq'⟩ := nodeAt_next hn hq hp hlarge
        simp only [hp, hlarge, if_true, Bool.false_eq_true, if_false] at h
        exact ih (by omega) hnode hq' h
      · simp only [hp, hlarge, if_true, Option.some.injEq] at h
        have hne : level ≠ 2 := by simpa using (Bool.and_eq_true_iff.mp hlarge).2
        exact ⟨level, t, q, by omega, hn, hq, hp, h.symm⟩

namespace LiveTree
variable {P : PlacedMap} {root : Nat} {m m' : Machine} {v level t x : Nat} {q : List Nat}

/-- Both walks of the code get to every table on the way. -/
theorem reach_node (h : LiveTree P root m) (hn : nodeAt m.ram root q = some ⟨level, t⟩)
    (hq : q ++ pathFrom v level = path v) :
    Vmm.descend m (physToVirt m root) (path v) = Vmm.descend m (physToVirt m t) (pathFrom v level) ∧
      Vmm.lookup m (physToVirt m root) (path v) = Vmm.lookup m (physToVirt m t) (pathFrom v level) := by
  induction q using List.reverseRecOn generalizing level t with
  | nil =>
    cases hn
    exact ⟨rfl, rfl⟩
  | append_singleton q i ih =>
    have hstep := hn
    rw [nodeAt, Trie.reach_snoc] at hstep
    obtain ⟨⟨level', u⟩, hu, hbelow⟩ := Option.bind_eq_some_iff.mp hstep
    obtain ⟨hlevel, htable, _, hp, _⟩ := below_some hbelow
    have hl : level' = level + 1 := hlevel
    have ht : t = entryAt m.ram u i &&& pageAddrMask := htable
    subst hl ht
    have hi : i = levelIndex (level + 1) v := label_eq (nodeAt_level hu) ⟨_, hq⟩
    subst hi
    have hq' : q ++ pathFrom v (level + 1) = path v := by
      rw [← hq, List.append_assoc]
      rfl
    have hu52 : u < 2 ^ 52 := (h.table_mod hu).2
    have hptr : physToVirt m u ≠ null := h.mapped _ _ hu
    have hnext := h.mapped _ _ hn
    obtain ⟨hd, hl⟩ := ih hu hq'
    have hget := getNextLevel_present h.offset hu52 (levelIndex_lt _ v) hptr hp
    refine ⟨hd.trans ?_, hl.trans ?_⟩
    · rw [pathFrom, Vmm.descend, hget, ok_bind]
    · rw [pathFrom, Vmm.lookup, hget, ok_bind]
      exact if_neg hnext

/-- Where a large page lies on the way, both go on in its first frame. -/
theorem reach_page (h : LiveTree P root m) (hx : LargeAt root m v level t x q) (hdata : DataFrame P root m x) :
    Vmm.descend m (physToVirt m root) (path v) = Vmm.descend m (physToVirt m x) (pathFrom v level) ∧
      Vmm.lookup m (physToVirt m root) (path v) = Vmm.lookup m (physToVirt m x) (pathFrom v level) := by
  obtain ⟨hd, hl⟩ := h.reach_node hx.node hx.way
  have ht : t < 2 ^ 52 := (h.table_mod hx.node).2
  have hptr : physToVirt m t ≠ null := h.mapped _ _ hx.node
  have hget := getNextLevel_present h.offset ht (levelIndex_lt (level + 1) v) hptr hx.present
  rw [← hx.page] at hget
  refine ⟨hd.trans ?_, hl.trans ?_⟩
  · rw [pathFrom, Vmm.descend, hget, ok_bind]
  · rw [pathFrom, Vmm.lookup, hget, ok_bind]
    exact if_neg hdata.mapped

end LiveTree

/-- A call that changes a word of a data frame is not local. -/
theorem DataFrame.not_local {P : PlacedMap} {root : Nat} {m m' : Machine} {v x j : Nat}
    (h : Allocator P m) (hx : DataFrame P root m x) (hmod : x % pageSize = 0) (hj : j < 512)
    (hne : entryAt m'.ram x j ≠ entryAt m.ram x j) : ¬ Local P root v m m' := by
  intro hlocal
  refine hne (Mem.load64_congr fun a hle hlt => ?_)
  have hpage : a / pageSize = x / pageSize := by
    unfold pageSize at *
    omega
  by_contra ha
  rcases hlocal.bytes a ha with ⟨p, n, hn, htable⟩ | ⟨hlt', hfree, _⟩ | ⟨hle', hlt'⟩
  · exact hx.table p n hn (htable.symm.trans hpage)
  · rw [hpage] at hlt' hfree
    rcases hx.used with hge | hbit
    · omega
    · rw [hfree] at hbit
      cases hbit
  · exact hx.apart (hpage ▸ h.inBitmap_byte hle' hlt')

/-! ### What the page may hold -/

theorem LargeAt.mod {root : Nat} {m : Machine} {v level t x : Nat} {q : List Nat}
    (hx : LargeAt root m v level t x q) : x % pageSize = 0 ∧ x < 2 ^ 52 := by
  rw [hx.page]
  exact ⟨mask_mod _, mask_lt _⟩

section Contents
variable {P : PlacedMap} {root : Nat} {m : Machine} {v level t x : Nat} {q : List Nat}

/-- The tree does not depend on what a data frame holds. -/
theorem LiveTree.with_data (h : LiveTree P root m) (hdata : DataFrame P root m x)
    (hx : LargeAt root m v level t x q) {ram : Mem}
    (hag : ∀ a, a / pageSize ≠ x / pageSize → ram a = m.ram a) :
    LiveTree P root {m with ram} ∧ DataFrame P root {m with ram} x ∧
      LargeAt root {m with ram} v level t x q := by
  have hentry : ∀ p n j, nodeAt m.ram root p = some n → j < 512 →
      entryAt ram n.table j = entryAt m.ram n.table j := fun p n j hn hj =>
    entryAt_congr (h.table_mod hn).1 hj fun a ha _ _ => hag a (by rw [ha]; exact hdata.table p n hn)
  have hnode : ∀ p, p.length ≤ 3 → nodeAt ram root p = nodeAt m.ram root p := fun p hp =>
    Trie.reach_congr (fun q n j _ hn => below_congr fun hj => hentry q n j hn hj) hp
  have hold : ∀ p n, nodeAt ram root p = some n → nodeAt m.ram root p = some n := by
    intro p n hn
    rw [← hnode p (nodeAt_length hn)]
    exact hn
  have hsame : SameFrames P.bitmapBase m {m with ram} := by
    refine ⟨rfl, rfl, rfl, rfl, rfl, fun a hle hlt => hag a fun heq => hdata.apart ?_⟩
    rw [← heq]
    exact h.toAllocator.inBitmap_byte hle hlt
  have hbit : ∀ f, m.totalFrames ≤ f ∨ bmpTest m f = true →
      m.totalFrames ≤ f ∨ bmpTest {m with ram} f = true := by
    rintro f (hge | hbit)
    · exact .inl hge
    · by_cases hlt : f < m.totalFrames
      · exact .inr ((hsame.bmpTest h.toPlaced hlt).trans hbit)
      · exact .inl (Nat.le_of_not_lt hlt)
  refine ⟨⟨h.toAllocator.same hsame, h.direct, h.pml4, h.root_mod, fun p n hn => hbit _ (h.taken p n (hold p n hn)),
    fun p n hn => h.apart p n (hold p n hn), fun p n hn => h.mapped p n (hold p n hn),
    fun p r n n' hn hn' => h.unique p r n n' (hold p n hn) (hold r n' hn')⟩,
    ⟨fun p n hn => hdata.table p n (hold p n hn), hbit _ hdata.used, hdata.apart, hdata.mapped⟩, ?_⟩
  have he : entryAt ram t (levelIndex (level + 1) v) = entryAt m.ram t (levelIndex (level + 1) v) :=
    hentry q ⟨level + 1, t⟩ _ hx.node (levelIndex_lt _ v)
  exact ⟨hx.small, (hnode q (nodeAt_length hx.node)).trans hx.node, hx.way, by rw [he]; exact hx.present,
    by rw [he]; exact hx.page⟩

/-- A link that a page may hold to itself. -/
theorem self_entry (hmod : x % pageSize = 0) (hx52 : x < 2 ^ 52) :
    present (x ||| 1) = true ∧ (x ||| 1) &&& pageAddrMask = x := by
  refine ⟨by simp [present], ?_⟩
  rw [Nat.and_or_distrib_right, mask_eq hmod hx52]
  simp [pageAddrMask]

/-- What a written entry holds. -/
theorem tableSet_entry {m : Machine} {t i e : Nat} (hoff : m.hhdmOffset < 2 ^ 64) (ht : t < 2 ^ 52) (hi : i < 512) :
    entryAt (tableSet m (physToVirt m t) i e).ram t i = e % 2 ^ 64 := by
  show (m.ram.store64 (slotAddr m (physToVirt m t) i) e).load64 _ = _
  rw [slotAddr_phys hoff ht hi]
  exact Mem.load_store_same _ _ 8 _

/-- An entry of another page is kept. -/
theorem tableSet_apart {m : Machine} {t i j e : Nat} (hoff : m.hhdmOffset < 2 ^ 64) (ht : t < 2 ^ 52) (hi : i < 512)
    (hxmod : x % pageSize = 0) (htmod : t % pageSize = 0) (hne : x / pageSize ≠ t / pageSize) (hj : j < 512) :
    entryAt (tableSet m (physToVirt m t) i e).ram x j = entryAt m.ram x j := by
  refine entryAt_congr hxmod hj fun a ha hle hlt => ?_
  show m.ram.store64 (slotAddr m (physToVirt m t) i) e a = _
  rw [slotAddr_phys hoff ht hi]
  exact Mem.store64_of_outside _ _ (by unfold pageSize at *; omega)

variable (h : LiveTree P root m) (hdata : DataFrame P root m x) (hx : LargeAt root m v level t x q)
include h hdata hx

/-- `vmm_map` writes into the page when it holds zeros. -/
theorem LiveTree.map_page (hempty : ∀ j, j < 512 → entryAt m.ram x j = 0) (hfree : 0 < pmmFreeFrames m)
    (phys flags : Nat) : ∃ m' j, vmmMap m m.kernelPml4 v phys flags = .ok m' ∧ j < 512 ∧
      entryAt m'.ram x j ≠ entryAt m.ram x j := by
  obtain ⟨hmod, hx52⟩ := hx.mod
  have hd := (h.reach_page hx hdata).1
  have hsmall := hx.small
  rw [vmmMap_eq, h.pml4, hd]
  obtain rfl | rfl : level = 0 ∨ level = 1 := by omega
  · -- the page's frame is taken for a table of pages, and the leaf entry goes there
    have hleaf := tableSet_entry (e := leafEntry phys flags) h.offset hx52 (levelIndex_lt 0 v)
    refine ⟨tableSet m (physToVirt m x) (ptIndex v) (leafEntry phys flags), levelIndex 0 v, ?_, levelIndex_lt 0 v, ?_⟩
    · rw [pathFrom, Vmm.descend, if_neg hdata.mapped, ok_bind]
    · have hodd := leafEntry_present phys flags
      rw [present, Nat.testBit_zero, decide_eq_true_eq] at hodd
      change entryAt (tableSet m (physToVirt m x) (levelIndex 0 v) (leafEntry phys flags)).ram x (levelIndex 0 v) ≠ _
      rw [hleaf, hempty _ (levelIndex_lt 0 v)]
      omega
  · -- it is taken for a page directory, and a fresh table is linked in
    have habsent : present (entryAt m.ram x (levelIndex 1 v)) = false := by
      rw [hempty _ (levelIndex_lt 1 v)]
      rfl
    rcases getNextLevel_alloc h.offset hx52 (levelIndex_lt 1 v) hdata.mapped h.toAllocator habsent with
      ⟨hzero, _⟩ | ⟨f, hpos, hlt, hbit, hget⟩
    · omega
    · have hf52 := frame_lt h.toAllocator hlt
      have hptr := frame_ptr h.toAllocator h.direct hpos hlt
      have hne : f ≠ x / pageSize := by
        rintro rfl
        rcases hdata.used with hge | hused
        · omega
        · rw [hbit] at hused
          cases hused
      have hdown : Vmm.descend m (physToVirt m x) (pathFrom v 1) =
          .ok (physToVirt m (f * pageSize), linkFrame m x (levelIndex 1 v) f) := by
        rw [pathFrom, Vmm.descend, hget, ok_bind]
        exact if_neg hptr
      refine ⟨_, levelIndex 1 v, by rw [hdown, ok_bind], levelIndex_lt 1 v, ?_⟩
      have hapart : x / pageSize ≠ f * pageSize / pageSize := by
        rw [frame_div]
        exact Ne.symm hne
      have hlink : entryAt (linkFrame m x (levelIndex 1 v) f).ram x (levelIndex 1 v) = linkEntry (f * pageSize) := by
        rw [linkFrame_ram h.offset hx52 (levelIndex_lt 1 v) hf52]
        exact Mem.load64_store64_same _ _ (linkEntry_lt hf52)
      have hkeep : entryAt (tableSet (linkFrame m x (levelIndex 1 v) f) (physToVirt m (f * pageSize)) (ptIndex v)
          (leafEntry phys flags)).ram x (levelIndex 1 v) = linkEntry (f * pageSize) :=
        (tableSet_apart (m := linkFrame m x (levelIndex 1 v) f) h.offset hf52 (levelIndex_lt 0 v) hmod
          (frame_mod f) hapart (levelIndex_lt 1 v)).trans hlink
      have hpres := linkEntry_present (f * pageSize)
      rw [hkeep, hempty _ (levelIndex_lt 1 v)]
      intro hzero
      rw [hzero] at hpres
      cases hpres

/-- `vmm_unmap` clears a word of the page when what it holds leads back to it. -/
theorem LiveTree.unmap_page (hself : entryAt m.ram x (levelIndex 1 v) = x ||| 1)
    (hword : entryAt m.ram x (levelIndex 0 v) ≠ 0) : ∃ m' j, vmmUnmap m m.kernelPml4 v = .ok m' ∧ j < 512 ∧
      entryAt m'.ram x j ≠ entryAt m.ram x j := by
  obtain ⟨hmod, hx52⟩ := hx.mod
  obtain ⟨hpres, haddr⟩ := self_entry hmod hx52
  have hl := (h.reach_page hx hdata).2
  have hsmall := hx.small
  have hdown : Vmm.lookup m (physToVirt m x) (pathFrom v level) = .ok (physToVirt m x) := by
    obtain rfl | rfl : level = 0 ∨ level = 1 := by omega
    · rfl
    · have hget := getNextLevel_present h.offset hx52 (levelIndex_lt 1 v) hdata.mapped (by rw [hself]; exact hpres) false
      rw [hself, haddr] at hget
      rw [pathFrom, Vmm.lookup, hget, ok_bind]
      exact if_neg hdata.mapped
  have hzero : entryAt (tableSet m (physToVirt m x) (ptIndex v) 0).ram x (levelIndex 0 v) = 0 % 2 ^ 64 :=
    tableSet_entry h.offset hx52 (levelIndex_lt 0 v)
  refine ⟨tableSet m (physToVirt m x) (ptIndex v) 0, levelIndex 0 v, ?_, levelIndex_lt 0 v, ?_⟩
  · rw [vmmUnmap_eq, h.pml4, hl, hdown, ok_bind, if_neg hdata.mapped]
  · rw [hzero]
    exact hword.symm

end Contents

/-- Over a large page in a data frame there are contents with which a call is not local. -/
theorem LiveTree.call_page {P : PlacedMap} {root : Nat} {m : Machine} {v x : Nat} (h : LiveTree P root m)
    (hx : largeFrom m.ram v 3 root = some x) (hdata : DataFrame P root m x) (hfree : 0 < pmmFreeFrames m)
    (c : PageCall) : ∃ ram, (∀ a, a / pageSize ≠ x / pageSize → ram a = m.ram a) ∧
      ∃ m', c.run {m with ram} v = .ok m' ∧ ¬ Local P root v {m with ram} m' := by
  obtain ⟨level, t, q, hat⟩ := largeFrom_some (q := []) (Nat.le_refl 3) rfl rfl hx
  obtain ⟨hmod, hx52⟩ := hat.mod
  cases c with
  | map phys flags =>
    have hag : ∀ a, a / pageSize ≠ x / pageSize → memset m.ram x 0 pageSize a = m.ram a :=
      fun a ha => memset_outside _ _ (by unfold pageSize at *; omega)
    have hempty : ∀ j, j < 512 → entryAt (memset m.ram x 0 pageSize) x j = 0 := fun j hj =>
      Mem.load_zero fun a hle hlt => memset_inside _ _ (by omega) (by unfold pageSize; omega)
    obtain ⟨h', hdata', hat'⟩ := h.with_data hdata hat hag
    obtain ⟨m', j, hrun, hj, hne⟩ := h'.map_page hdata' hat' hempty hfree phys flags
    exact ⟨_, hag, m', hrun, hdata'.not_local h'.toAllocator hmod hj hne⟩
  | unmap =>
    let ram := (m.ram.store64 (x + 8 * levelIndex 1 v) (x ||| 1)).store64 (x + 8 * levelIndex 0 v) (x ||| 1)
    have hlt1 := levelIndex_lt 1 v
    have hlt0 := levelIndex_lt 0 v
    have hone : x ||| 1 < 2 ^ 64 := Nat.or_lt_two_pow (by omega) (by decide)
    have hag : ∀ a, a / pageSize ≠ x / pageSize → ram a = m.ram a := by
      intro a ha
      have hout : ∀ i, i < 512 → a < x + 8 * i ∨ x + 8 * i + 8 ≤ a := fun i hi => by
        unfold pageSize at *
        omega
      exact (Mem.store64_of_outside _ _ (hout _ hlt0)).trans (Mem.store64_of_outside _ _ (hout _ hlt1))
    have hlast : entryAt ram x (levelIndex 0 v) = x ||| 1 := Mem.load64_store64_same _ _ hone
    have hself : entryAt ram x (levelIndex 1 v) = x ||| 1 := by
      by_cases heq : levelIndex 1 v = levelIndex 0 v
      · rw [heq]
        exact hlast
      · exact (Mem.load64_store64_apart _ _ (by omega)).trans (Mem.load64_store64_same _ _ hone)
    have hpres := (self_entry hmod hx52).1
    obtain ⟨h', hdata', hat'⟩ := h.with_data hdata hat hag
    obtain ⟨m', j, hrun, hj, hne⟩ := h'.unmap_page hdata' hat' hself (by
      show entryAt ram x (levelIndex 0 v) ≠ 0
      rw [hlast]
      intro hzero
      rw [hzero] at hpres
      cases hpres)
    exact ⟨ram, hag, m', hrun, hdata'.not_local h'.toAllocator hmod hj hne⟩

/-- The large page on the way to `v` in the kernel's tables. -/
def largePage (m : Machine) (v : Nat) : Option Nat := largeFrom m.ram v 3 (kernelRoot m)

/-- **Mapping inside an inherited tree is local where no large page lies on the way**:
only tables, fresh frames and their bits are written, and no address of another page
translates differently. Over a large page that starts in a data frame it is not, for
some contents of that frame. -/
theorem inherited_mapping_local {P : PlacedMap} {m : Machine} (h : Allocator P m) (hold : Inheritable P m)
    (hfree : 0 < pmmFreeFrames m) {v : Nat} (hv : Canonical v) (c : PageCall) :
    (largePage (vmmInit m) v = none →
      (3 ≤ pmmFreeFrames (vmmInit m) → ∃ m', c.run (vmmInit m) v = .ok m') ∧
        ∀ m', c.run (vmmInit m) v = .ok m' → Local P (kernelRoot (vmmInit m)) v (vmmInit m) m') ∧
    ∀ x, largePage (vmmInit m) v = some x → DataFrame P (kernelRoot (vmmInit m)) (vmmInit m) x →
      0 < pmmFreeFrames (vmmInit m) →
        ∃ ram, (∀ a, a / pageSize ≠ x / pageSize → ram a = (vmmInit m).ram a) ∧
          ∃ m', c.run {vmmInit m with ram} v = .ok m' ∧
            ¬ Local P (kernelRoot (vmmInit m)) v {vmmInit m with ram} m' := by
  obtain ⟨f, t⟩ := vmmInit_tookOver h hold.toOldTree hfree
  have hlive := t.liveTree h hold
  rw [← t.root h] at hlive
  exact ⟨fun hsmall => hlive.call_local hv hsmall c,
    fun x hx hdata hpos => hlive.call_page hx hdata hpos c⟩

/-! ### The direct map of large pages -/

theorem giga_oldRoot {n : Nat} (hn : 0 < n ∧ n < 15) : (gigaBoot hn).oldRoot = 0 := by
  show 0 &&& pageAddrMask = 0
  decide

section Giga
variable {n : Nat} (hn : 0 < n ∧ n < 15) {m : Machine} (hm : (gigaBoot hn).pmmInit = .ok m)
include hm

theorem giga_nodeAt {p : List Nat} {u : Node} (hu : nodeAt m.ram (activeRoot m) p = some u) :
    p = [] ∧ u = ⟨3, 0⟩ ∨ p = [256] ∧ u = ⟨2, 0x10000⟩ := by
  rw [Boot.activeRoot_after_pmmInit _ hm, Boot.nodeAt_after_pmmInit _ hm (nodeAt_length hu), giga_oldRoot] at hu
  exact gigaRam_nodeAt hu

theorem giga_inheritable : Inheritable (gigaBoot hn).toPlacedMap m := by
  obtain ⟨m', hm', hA, _⟩ := (gigaBoot hn).pmmInit_ok
  rw [hm] at hm'
  cases hm'
  have hoff : m.hhdmOffset = 0xFFFF800000000000 := hA.offset_eq
  -- of the upper half there is one table
  have hupper : ∀ i p u, nodeAt m.ram (activeRoot m) (i :: p) = some u →
      i :: p = [256] ∧ u = ⟨2, 0x10000⟩ := by
    intro i p u hu
    rcases giga_nodeAt hn hm hu with ⟨hnil, _⟩ | h
    · cases hnil
    · exact h
  refine ⟨Boot.oldTree _ hm, (gigaBoot hn).direct, fun i p u _ hu => ?_, fun i j p q u u' _ _ hu hu' _ => ?_⟩
  · rw [(hupper i p u hu).2, physToVirt, hoff]
    decide
  · rw [(hupper i p u hu).1, (hupper j q u' hu').1]

variable {f : Nat} (t : TookOver (gigaBoot hn).toPlacedMap m (vmmInit m) f)
  (hA : Allocator (gigaBoot hn).toPlacedMap m)
include t hA

omit hA in
theorem giga_root : entryAt (vmmInit m).ram (f * pageSize) 256 = 0x10003 := by
  have hroot : nodeAt (gigaBoot hn).ram (gigaBoot hn).oldRoot [] = some ⟨3, (gigaBoot hn).oldRoot⟩ := rfl
  have hkept := Boot.entry_after_pmmInit _ hm hroot (show 256 < 512 by decide)
  rw [giga_oldRoot] at hkept
  rw [t.upper 256 (by decide) (by decide), Boot.activeRoot_after_pmmInit _ hm, giga_oldRoot]
  exact hkept.trans (gigaRam_root (by decide))

theorem giga_pdpt {i : Nat} (hi : i < 512) :
    entryAt (vmmInit m).ram 0x10000 i = if i = 0 then 0x40000083 else 0 := by
  have hnode : nodeAt (gigaBoot hn).ram (gigaBoot hn).oldRoot [256] = some ⟨2, 0x10000⟩ := by
    have hentry : entryAt gigaRam 0 256 = 0x10003 := gigaRam_root (by decide)
    have hbelow : Node.below gigaRam ⟨3, 0⟩ 256 = some ⟨2, entryAt gigaRam 0 256 &&& pageAddrMask⟩ :=
      below_present (by decide) (by rw [hentry]; decide) (.inl rfl)
    rw [hentry] at hbelow
    rw [giga_oldRoot]
    exact (Trie.reach_snoc_of (p := []) rfl 256).trans hbelow
  have hnode' : nodeAt m.ram (activeRoot m) [256] = some ⟨2, 0x10000⟩ := by
    rw [Boot.activeRoot_after_pmmInit _ hm, Boot.nodeAt_after_pmmInit _ hm (by decide)]
    exact hnode
  have hkept := t.entry_kept hA (Boot.oldTree _ hm) hnode' hi
  have hfirst := Boot.entry_after_pmmInit _ hm hnode hi
  exact (hkept.trans hfirst).trans (gigaRam_pdpt hi)

theorem giga_free : pmmFreeFrames (vmmInit m) = n - 2 := by
  have hfree := gigaBoot_free hn hm
  have hdec := hA.free_setFrame t.lt t.free
  have hsame := (t.frames hA).free
  omega

/-- The first GiB of slot 256 lies on the large page, what follows it is not mapped. -/
theorem giga_largePage : largePage (vmmInit m) 0xFFFF800000000000 = some 0x40000000 ∧
    largePage (vmmInit m) 0xFFFF800040000000 = none := by
  have hroot : entryAt (vmmInit m).ram (kernelRoot (vmmInit m)) 256 = 0x10003 := by
    rw [t.root hA]
    exact giga_root hn hm t
  have hfirst := giga_pdpt hn hm t hA (show 0 < 512 by decide)
  have hsecond := giga_pdpt hn hm t hA (show 1 < 512 by decide)
  have hstep : ∀ v, levelIndex 3 v = 256 →
      largePage (vmmInit m) v = largeFrom (vmmInit m).ram v 2 0x10000 := by
    intro v hv
    have hpres : present 0x10003 = true := by decide
    have hmask : 0x10003 &&& pageAddrMask = 0x10000 := by decide
    simp [largePage, largeFrom, hv, hroot, hpres, hmask]
  refine ⟨(hstep _ (by decide)).trans ?_, (hstep _ (by decide)).trans ?_⟩
  · have hidx : levelIndex 2 0xFFFF800000000000 = 0 := by decide
    rw [largeFrom, hidx, hfirst]
    rfl
  · have hidx : levelIndex 2 0xFFFF800040000000 = 1 := by decide
    rw [largeFrom, hidx, hsecond]
    rfl

/-- The page behind the large page is data, and holds zeros. -/
theorem giga_data : DataFrame (gigaBoot hn).toPlacedMap (kernelRoot (vmmInit m)) (vmmInit m) 0x40000000 ∧
    ∀ j, j < 512 → entryAt (vmmInit m).ram 0x40000000 j = 0 := by
  have htotal : m.totalFrames = n + 1 := hA.total_eq.trans (flatMap_total (giga_small hn))
  have hlt := t.lt
  have hfar : ¬ (gigaBoot hn).InBitmap (0x40000000 / pageSize) := by
    intro hin
    have := ((gigaBoot hn).inBitmap_usable hin).lt
    rw [← hA.total_eq] at this
    unfold pageSize at this
    omega
  have hne : 0x40000000 / pageSize ≠ f := by
    unfold pageSize
    omega
  have hbytes : ∀ a, a / pageSize = 0x40000000 / pageSize → (vmmInit m).ram a = gigaRam a := by
    intro a ha
    obtain ⟨m', hm', _, _, honly⟩ := (gigaBoot hn).pmmInit_ok
    rw [hm] at hm'
    cases hm'
    rw [t.same a (by rw [ha]; exact hne), hA.setFrame_apart hlt (by rw [ha]; exact hfar)]
    refine honly.outside a ?_
    by_contra hin
    push Not at hin
    exact hfar (ha ▸ (gigaBoot hn).inBitmap_of_byte hin.1 hin.2)
  refine ⟨⟨fun p u hu => ?_, .inl ?_, hfar, ?_⟩, fun j hj => ?_⟩
  · rw [t.root hA] at hu
    cases p with
    | nil =>
      cases hu
      rw [frame_div]
      exact hne.symm
    | cons i q =>
      have hlen := nodeAt_length hu
      rw [List.length_cons] at hlen
      by_cases hge : 256 ≤ i
      · rw [t.nodeAt_upper hA (Boot.oldTree _ hm) hge (by omega)] at hu
        rcases giga_nodeAt hn hm hu with ⟨hnil, _⟩ | ⟨_, rfl⟩
        · cases hnil
        · decide
      · rw [t.nodeAt_lower (by omega)] at hu
        cases hu
  · rw [(t.frames hA).total]
    show m.totalFrames ≤ _
    unfold pageSize
    omega
  · have hoff : (vmmInit m).hhdmOffset = 0xFFFF800000000000 := (t.frames hA).offset.trans hA.offset_eq
    rw [physToVirt, hoff]
    decide
  · refine Mem.load_zero fun a hle hlt' => ?_
    rw [hbytes a (by unfold pageSize; omega), gigaRam, Mem.store64_of_outside _ _ (by omega),
      Mem.store64_of_outside _ _ (by omega)]

end Giga

theorem inherited_mapping_local_giga : ∃ m m', (gigaBoot (n := 8) (by decide)).pmmInit = .ok m ∧
    PageCall.run (.map 0x5000 pageWrite) (vmmInit m) 0xFFFF800040000000 = .ok m' ∧
      Local (gigaBoot (n := 8) (by decide)).toPlacedMap (kernelRoot (vmmInit m)) 0xFFFF800040000000 (vmmInit m) m' := by
  obtain ⟨m, hm, hA, _⟩ := (gigaBoot (n := 8) (by decide)).pmmInit_ok
  have hold := giga_inheritable _ hm
  have hfree := gigaBoot_free _ hm
  obtain ⟨f, t⟩ := vmmInit_tookOver hA hold.toOldTree (by omega)
  have hleft := giga_free _ hm t hA
  obtain ⟨hok, hres⟩ := (inherited_mapping_local hA hold (by omega) (v := 0xFFFF800040000000) (.inr (by decide))
    (.map 0x5000 pageWrite)).1 (giga_largePage _ hm t hA).2
  obtain ⟨m', hrun⟩ := hok (by omega)
  exact ⟨m, m', hm, hrun, hres m' hrun⟩

/-- Mapping a page on the 1 GiB page writes into the memory behind it. -/
theorem large_page_overwritten : ∃ m m', (gigaBoot (n := 8) (by decide)).pmmInit = .ok m ∧
    Inheritable (gigaBoot (n := 8) (by decide)).toPlacedMap m ∧ 3 ≤ pmmFreeFrames (vmmInit m) ∧
    PageCall.run (.map 0x5000 pageWrite) (vmmInit m) 0xFFFF800000000000 = .ok m' ∧
      ¬ Local (gigaBoot (n := 8) (by decide)).toPlacedMap (kernelRoot (vmmInit m)) 0xFFFF800000000000
        (vmmInit m) m' := by
  obtain ⟨m, hm, hA, _⟩ := (gigaBoot (n := 8) (by decide)).pmmInit_ok
  have hold := giga_inheritable _ hm
  have hfree := gigaBoot_free _ hm
  obtain ⟨f, t⟩ := vmmInit_tookOver hA hold.toOldTree (by omega)
  have hleft := giga_free _ hm t hA
  have hlive := t.liveTree hA hold
  rw [← t.root hA] at hlive
  obtain ⟨hdata, hempty⟩ := giga_data _ hm t hA
  obtain ⟨level, u, q, hat⟩ := largeFrom_some (q := []) (Nat.le_refl 3) rfl rfl (giga_largePage _ hm t hA).1
  obtain ⟨m', j, hrun, hj, hne⟩ := hlive.map_page hdata hat hempty (by omega) 0x5000 pageWrite
  exact ⟨m, m', hm, hold, by omega, hrun, hdata.not_local hlive.toAllocator (by decide) hj hne⟩

end ArcMonark.Mm.Vmm
