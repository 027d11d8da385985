import ArcMonark.Mm.Vmm
import ArcMonark.Mm.PmmRuns
import ArcMonark.Library.Trie

/-! The shape of the page tables.

The tables that `vmm_map` builds form a trie below the PML4 slots the kernel
fills itself; every physical frame plays at most one `Role`, so that distinct
paths lead to distinct frames. The other slots lead into the bootloader's tables,
which nothing writes. On a shape, the hardware walk is a lookup in the trie. -/
namespace ArcMonark.Mm.Vmm
open Library Pmm
open Library.Trie (reach Graft)

/-! ### Entries -/

theorem present_iff (e : Nat) : e &&& pagePresent ≠ 0 ↔ present e = true := by
  simp only [pagePresent, present, Nat.shiftLeft_zero, Nat.and_one_is_mod, Nat.testBit_zero,
    decide_eq_true_eq]
  omega

theorem mask_mod (e : Nat) : (e &&& pageAddrMask) % pageSize = 0 :=
  and_bits_mod (show 12 ≤ 52 by decide) e

theorem mask_lt (e : Nat) : (e &&& pageAddrMask) < 2 ^ 52 :=
  and_bits_lt (show 12 ≤ 52 by decide) e

theorem mask_eq {x : Nat} (ha : x % pageSize = 0) (hx : x < 2 ^ 52) : x &&& pageAddrMask = x :=
  and_bits_eq (show 12 ≤ 52 by decide) hx ha

theorem testBit_mask (i : Nat) :
    pageAddrMask.testBit i = (decide (12 ≤ i) && decide (i < 52)) :=
  testBit_bits (show 12 ≤ 52 by decide) i

/-- A bit that an address of a page cannot have. -/
theorem testBit_addr {x i : Nat} (ha : x % pageSize = 0) (hx : x < 2 ^ 52) (hi : i < 12 ∨ 52 ≤ i) :
    x.testBit i = false := by
  have hmask : ¬ (12 ≤ i ∧ i < 52) := by omega
  rw [← mask_eq ha hx, Nat.testBit_and, testBit_mask, ← Bool.decide_and, decide_eq_false hmask,
    Bool.and_false]

/-- The entry `get_next_level` links a new table with. -/
def linkEntry (phys : Nat) : Nat := phys ||| pagePresent ||| pageWrite ||| pageUser

/-- The entry `vmm_map` writes. -/
def leafEntry (phys flags : Nat) : Nat := (phys &&& pageAddrMask) ||| flags ||| pagePresent

/-- An entry that leads to a table and takes no permission away. -/
structure Open (e : Nat) : Prop where
  write : e.testBit 1 = true
  user : e.testBit 2 = true
  nx : e.testBit 63 = false
  small : large e = false

section linkEntry
variable {phys : Nat} (ha : phys % pageSize = 0) (hx : phys < 2 ^ 52)

theorem testBit_linkEntry (phys i : Nat) :
    (linkEntry phys).testBit i = (phys.testBit i || decide (i < 3)) := by
  have hflags : linkEntry phys = phys ||| (2 ^ 3 - 1) := by
    simp [linkEntry, pagePresent, pageWrite, pageUser, Nat.or_assoc]
  rw [hflags, Nat.testBit_or, Nat.testBit_two_pow_sub_one]

include hx in
theorem linkEntry_lt : linkEntry phys < 2 ^ 64 := by
  have h : phys < 2 ^ 64 := by omega
  exact Nat.or_lt_two_pow (Nat.or_lt_two_pow (Nat.or_lt_two_pow h (by decide)) (by decide)) (by decide)

include ha hx in
theorem linkEntry_addr : linkEntry phys &&& pageAddrMask = phys := by
  rw [linkEntry, Nat.and_or_distrib_right, Nat.and_or_distrib_right, Nat.and_or_distrib_right,
    mask_eq ha hx]
  simp [pagePresent, pageWrite, pageUser, pageAddrMask]

theorem linkEntry_present (phys : Nat) : present (linkEntry phys) = true := by
  rw [present, testBit_linkEntry]
  simp

include ha hx in
theorem linkEntry_open : Open (linkEntry phys) where
  write := by rw [testBit_linkEntry]; simp
  user := by rw [testBit_linkEntry]; simp
  nx := by rw [testBit_linkEntry, testBit_addr ha hx (by omega)]; rfl
  small := by rw [large, testBit_linkEntry, testBit_addr ha hx (by omega)]; rfl

end linkEntry

section leafEntry
variable {phys flags : Nat} (hf : flags < 2 ^ 64)

include hf in
theorem leafEntry_lt : leafEntry phys flags < 2 ^ 64 := by
  have := mask_lt phys
  exact Nat.or_lt_two_pow (Nat.or_lt_two_pow (by omega) hf) (by decide)

theorem leafEntry_present (phys flags : Nat) : present (leafEntry phys flags) = true := by
  simp [present, leafEntry, pagePresent]

theorem leafEntry_addr (haddr : flags &&& pageAddrMask = 0) :
    leafEntry phys flags &&& pageAddrMask = phys &&& pageAddrMask := by
  rw [leafEntry, Nat.and_or_distrib_right, Nat.and_or_distrib_right, haddr, Nat.and_assoc,
    Nat.and_self]
  simp [pagePresent, pageAddrMask]

theorem testBit_leafEntry {i : Nat} (hi : 0 < i ∧ i < 12 ∨ 52 ≤ i) :
    (leafEntry phys flags).testBit i = flags.testBit i := by
  have hmask : ¬ (12 ≤ i ∧ i < 52) := by omega
  have hone : pagePresent.testBit i = false := by
    have hi0 : i ≠ 0 := by omega
    exact Bool.eq_false_iff.mpr fun h => hi0 (Nat.testBit_one_eq_true_iff_self_eq_zero.mp h)
  rw [leafEntry, Nat.testBit_or, Nat.testBit_or, Nat.testBit_and, testBit_mask, ← Bool.decide_and,
    decide_eq_false hmask, hone]
  simp

end leafEntry

/-! ### Indices -/

theorem levelIndex_eq (level v : Nat) : levelIndex level v = v / 2 ^ (12 + 9 * level) % 512 := by
  rw [levelIndex, Nat.shiftRight_eq_div_pow]
  exact Nat.and_two_pow_sub_one_eq_mod _ 9

theorem levelIndex_lt (level v : Nat) : levelIndex level v < 512 := by
  rw [levelIndex_eq]
  exact Nat.mod_lt _ (by decide)

/-- The labels on the way from the root to the last table. -/
def path (v : Nat) : List Nat := [levelIndex 3 v, levelIndex 2 v, levelIndex 1 v]

@[simp] theorem path_length (v : Nat) : (path v).length = 3 := rfl

theorem path_le (v : Nat) : (path v).length ≤ 3 := Nat.le_refl 3

/-- A 48-bit address, sign-extended. -/
def Canonical (v : Nat) : Prop := v < 2 ^ 47 ∨ 2 ^ 64 - 2 ^ 47 ≤ v ∧ v < 2 ^ 64

/-- Canonical addresses with the same indices lie in the same page. -/
theorem page_eq_of_indices {v w : Nat} (hv : Canonical v) (hw : Canonical w)
    (hp : path v = path w) (h0 : levelIndex 0 v = levelIndex 0 w) : v / pageSize = w / pageSize := by
  simp only [path, List.cons.injEq, and_true, levelIndex_eq] at hp
  rw [levelIndex_eq, levelIndex_eq] at h0
  unfold Canonical at hv hw
  unfold pageSize
  simp only [Nat.reduceMul, Nat.reduceAdd, Nat.reducePow] at hp h0
  omega

theorem indices_of_page_eq {v w : Nat} (h : v / pageSize = w / pageSize) :
    path v = path w ∧ levelIndex 0 v = levelIndex 0 w := by
  unfold pageSize at h
  simp only [path, levelIndex_eq, List.cons.injEq, and_true]
  simp only [Nat.reduceMul, Nat.reduceAdd, Nat.reducePow]
  omega

/-! ### Spaces and roles -/

/-- An address space: its root, the PML4 slots that the kernel fills itself, and
the bootloader's tables, by level, that the other slots lead to. The direct map
takes every frame to an address without wrapping. -/
structure Space where
  map : PlacedMap
  root : Nat
  owned : Nat → Bool
  inherited : Nat → Nat → Prop
  direct : map.offset + map.totalFrames * pageSize ≤ 2 ^ 64

/-- What a physical frame is used for. -/
inductive Role where
  | spare
  | bitmap
  /-- The table at the end of a path; the root has the empty one. -/
  | table (path : List Nat)
  | inherited
  /-- The frame behind the `k`-th page of the heap. -/
  | page (k : Nat)

/-- The table below an entry, in the kernel's own part of the space. -/
def Space.child (A : Space) (ram : Mem) (t i : Nat) : Option Nat :=
  if i < 512 ∧ (t = A.root → A.owned i = true) ∧ present (entryAt ram t i) = true then
    some (entryAt ram t i &&& pageAddrMask)
  else none

def Space.tableAt (A : Space) (ram : Mem) (p : List Nat) : Option Nat := reach (A.child ram) A.root p

/-- The page tables in memory `ram`, with every frame in the role `role` says. -/
structure Shape (A : Space) (role : Nat → Role) (ram : Mem) : Prop where
  table : ∀ p t, p.length ≤ 3 → A.tableAt ram p = some t →
    t % pageSize = 0 ∧ 0 < t / pageSize ∧ t / pageSize < A.map.totalFrames ∧
      role (t / pageSize) = .table p
  opened : ∀ p t i c, p.length ≤ 2 → A.tableAt ram p = some t → A.child ram t i = some c →
    Open (entryAt ram t i)
  inherited : ∀ l t, A.inherited l t → t % pageSize = 0 ∧ role (t / pageSize) = .inherited
  closed_root : ∀ i, i < 512 → A.owned i = false → present (entryAt ram A.root i) = true →
    A.inherited 2 (entryAt ram A.root i &&& pageAddrMask)
  closed : ∀ l t i, A.inherited (l + 1) t → i < 512 → present (entryAt ram t i) = true →
    large (entryAt ram t i) = false → A.inherited l (entryAt ram t i &&& pageAddrMask)

/-- A page holds table entries. -/
def Role.IsTable : Role → Prop
  | .table _ => True
  | .inherited => True
  | _ => False

theorem entryAt_congr {ram ram' : Mem} {t i : Nat} (ht : t % pageSize = 0) (hi : i < 512)
    (h : ∀ a, a / pageSize = t / pageSize → t + 8 * i ≤ a → a < t + 8 * i + 8 → ram' a = ram a) :
    entryAt ram' t i = entryAt ram t i := by
  apply Mem.load64_congr
  intro a ha hlt
  refine h a ?_ ha hlt
  unfold pageSize at *
  omega

namespace Shape
variable {A : Space} {role : Nat → Role} {ram ram' : Mem}

theorem root_mod (h : Shape A role ram) : A.root % pageSize = 0 :=
  (h.table [] A.root (by decide) rfl).1

theorem root_role (h : Shape A role ram) : role (A.root / pageSize) = .table [] :=
  (h.table [] A.root (by decide) rfl).2.2.2

theorem table_lt (h : Shape A role ram) {p : List Nat} {t : Nat} (hp : p.length ≤ 3)
    (ht : A.tableAt ram p = some t) : t < 2 ^ 52 := by
  obtain ⟨_, _, hlt, _⟩ := h.table p t hp ht
  have htotal := A.map.total_le
  unfold pageSize at hlt
  omega

/-- A table has one path. -/
theorem path_unique (h : Shape A role ram) {p q : List Nat} {t : Nat} (hp : p.length ≤ 3)
    (hq : q.length ≤ 3) (htp : A.tableAt ram p = some t) (htq : A.tableAt ram q = some t) :
    q = p := by
  have hrp := (h.table p t hp htp).2.2.2
  have hrq := (h.table q t hq htq).2.2.2
  rw [hrp] at hrq
  exact (Role.table.inj hrq).symm

section Congr
variable (h : Shape A role ram) (hag : ∀ a, (role (a / pageSize)).IsTable → ram' a = ram a)
include h hag

omit h in
theorem entry_congr {t i : Nat} (ht : t % pageSize = 0) (hi : i < 512)
    (hr : (role (t / pageSize)).IsTable) : entryAt ram' t i = entryAt ram t i :=
  entryAt_congr ht hi fun a ha _ _ => hag a (by rw [ha]; exact hr)

theorem child_congr {q : List Nat} {t : Nat} (hq : q.length ≤ 3) (ht : A.tableAt ram q = some t)
    (j : Nat) : A.child ram' t j = A.child ram t j := by
  obtain ⟨hmod, _, _, hrole⟩ := h.table q t hq ht
  unfold Space.child
  by_cases hj : j < 512
  · rw [entry_congr hag hmod hj (by rw [hrole]; trivial)]
  · simp [hj]

theorem tableAt_congr {q : List Nat} (hq : q.length ≤ 3) : A.tableAt ram' q = A.tableAt ram q :=
  Trie.reach_congr (fun _ _ j hlt ht => h.child_congr hag (Nat.le_of_lt hlt) ht j) hq

/-- Bytes of other pages do not matter. -/
theorem congr : Shape A role ram' := by
  refine ⟨?_, ?_, h.inherited, ?_, ?_⟩
  · intro p t hp ht
    rw [h.tableAt_congr hag hp] at ht
    exact h.table p t hp ht
  · intro p t i c hp ht hc
    rw [h.tableAt_congr hag (by omega)] at ht
    rw [h.child_congr hag (by omega) ht] at hc
    obtain ⟨hmod, _, _, hrole⟩ := h.table p t (by omega) ht
    have hi : i < 512 := by
      by_contra hi
      simp [Space.child, hi] at hc
    rw [entry_congr hag hmod hi (by rw [hrole]; trivial)]
    exact h.opened p t i c hp ht hc
  · intro i hi ho hpres
    have he := entry_congr hag h.root_mod hi (by rw [h.root_role]; trivial)
    rw [he] at hpres ⊢
    exact h.closed_root i hi ho hpres
  · intro l t i hin hi hpres hsmall
    obtain ⟨hmod, hrole⟩ := h.inherited _ t hin
    have he := entry_congr hag hmod hi (by rw [hrole]; trivial)
    rw [he] at hpres hsmall ⊢
    exact h.closed l t i hin hi hpres hsmall

end Congr

end Shape

end ArcMonark.Mm.Vmm
