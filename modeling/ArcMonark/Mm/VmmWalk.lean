import ArcMonark.Mm.VmmTables

/-! The walk on well-shaped tables, and how the two writes of `vmm.c` change it.

In the kernel's own slots the walk is the trie's lookup followed by one leaf
entry. Linking a fresh table changes no translation (`Shape.linked_walk`);
writing a leaf entry changes its own page's only (`Shape.leaf_walk`). -/
namespace ArcMonark.Mm.Vmm
open Library Pmm
open Library.Trie (reach Graft)

/-- What a last-level entry makes of an address. -/
def leafOf (e v : Nat) : Option Translation :=
  if present e then some ⟨leafPhys 0 e v, e.testBit 1, e.testBit 2, e.testBit 63⟩ else none

/-- The labels from a table of a level down to the last table. -/
def pathFrom (v : Nat) : Nat → List Nat
  | 0 => []
  | level + 1 => levelIndex (level + 1) v :: pathFrom v level

theorem walkFrom_absent {ram : Mem} {v level t : Nat} (write user nx : Bool)
    (h : present (entryAt ram t (levelIndex level v)) = false) :
    walkFrom ram v level t write user nx = none := by
  cases level <;> simp [walkFrom, h]

theorem walkFrom_open {ram : Mem} {v level t : Nat}
    (h : present (entryAt ram t (levelIndex (level + 1) v)) = true)
    (ho : Open (entryAt ram t (levelIndex (level + 1) v))) :
    walkFrom ram v (level + 1) t true true false =
      walkFrom ram v level (entryAt ram t (levelIndex (level + 1) v) &&& pageAddrMask)
        true true false := by
  simp [walkFrom, h, ho.small, ho.write, ho.user, ho.nx]

theorem child_of_present {A : Space} {ram : Mem} {t i : Nat} (hi : i < 512)
    (ho : t = A.root → A.owned i = true) (hp : present (entryAt ram t i) = true) :
    A.child ram t i = some (entryAt ram t i &&& pageAddrMask) := if_pos ⟨hi, ho, hp⟩

theorem child_of_absent {A : Space} {ram : Mem} {t i : Nat}
    (hp : present (entryAt ram t i) = false) : A.child ram t i = none :=
  if_neg fun h => by simp [hp] at h

namespace Shape
variable {A : Space} {role : Nat → Role} {ram ram' : Mem}

theorem owned_of_root (h : Shape A role ram) {p : List Nat} {t : Nat} (hp : p.length ≤ 3)
    (ht : A.tableAt ram p = some t) {i : Nat} (ho : p = [] → A.owned i = true) :
    t = A.root → A.owned i = true := by
  intro hroot
  subst hroot
  exact ho (h.path_unique (p := []) (by decide) hp rfl ht)

theorem walkFrom_tableAt (h : Shape A role ram) (v : Nat) {level : Nat} {p : List Nat} {t : Nat}
    (hl : p.length + level = 3) (ht : A.tableAt ram p = some t)
    (ho : p = [] → A.owned (levelIndex 3 v) = true) :
    walkFrom ram v level t true true false =
      (A.tableAt ram (p ++ pathFrom v level)).bind fun pt =>
        leafOf (entryAt ram pt (levelIndex 0 v)) v := by
  induction level generalizing p t with
  | zero =>
    rw [pathFrom, List.append_nil, ht]
    simp [walkFrom, leafOf]
  | succ level ih =>
    have hlevel : p = [] → level + 1 = 3 := by
      rintro rfl
      simpa using hl
    have howned : t = A.root → A.owned (levelIndex (level + 1) v) = true :=
      h.owned_of_root (by omega) ht fun hp => by rw [hlevel hp]; exact ho hp
    have hsplit : p ++ pathFrom v (level + 1) =
        (p ++ [levelIndex (level + 1) v]) ++ pathFrom v level := by
      simp [pathFrom]
    have hsnoc := Trie.reach_snoc_of ht (levelIndex (level + 1) v)
    rw [hsplit]
    cases hp : present (entryAt ram t (levelIndex (level + 1) v))
    · rw [walkFrom_absent _ _ _ hp]
      have hnone : A.tableAt ram (p ++ [levelIndex (level + 1) v]) = none :=
        hsnoc.trans (child_of_absent hp)
      rw [Space.tableAt, Trie.reach_none_of_begins (List.prefix_append _ _) hnone]
      rfl
    · have hchild := child_of_present (levelIndex_lt (level + 1) v) howned hp
      rw [walkFrom_open hp (h.opened p t _ _ (by omega) ht hchild)]
      apply ih
      · rw [List.length_append, List.length_singleton]
        omega
      · exact hsnoc.trans hchild
      · intro hnil
        simp at hnil

/-- In the kernel's own slots the walk is a lookup. -/
theorem walk_owned (h : Shape A role ram) {v : Nat} (hv : A.owned (levelIndex 3 v) = true) :
    walk ram A.root v = (A.tableAt ram (path v)).bind fun pt =>
      leafOf (entryAt ram pt (levelIndex 0 v)) v :=
  h.walkFrom_tableAt v (p := []) rfl rfl fun _ => hv

/-- The bootloader's tables translate as they did when none of their bytes changed. -/
theorem walkFrom_inherited (h : Shape A role ram)
    (hag : ∀ a, role (a / pageSize) = .inherited → ram' a = ram a) (v : Nat) {level t : Nat}
    (hl : level ≤ 2) (hin : A.inherited level t) (write user nx : Bool) :
    walkFrom ram' v level t write user nx = walkFrom ram v level t write user nx := by
  have hentry : ∀ l t, A.inherited l t → entryAt ram' t (levelIndex l v) = entryAt ram t (levelIndex l v) := by
    intro l t hin
    obtain ⟨hmod, hrole⟩ := h.inherited l t hin
    exact entryAt_congr hmod (levelIndex_lt l v) fun a ha _ _ => hag a (by rw [ha]; exact hrole)
  induction level generalizing t write user nx with
  | zero => simp only [walkFrom, hentry 0 t hin]
  | succ level ih =>
    simp only [walkFrom, hentry (level + 1) t hin]
    cases hp : present (entryAt ram t (levelIndex (level + 1) v))
    · simp
    · cases hlarge : large (entryAt ram t (levelIndex (level + 1) v))
      · simp only [if_true, Bool.false_and, Bool.false_eq_true, if_false]
        exact ih (by omega) (h.closed level t _ hin (levelIndex_lt _ _) hp hlarge) _ _ _
      · have hne : (level != 2) = true := by
          rw [bne_iff_ne]
          omega
        simp [hne]

/-- The slots that are not the kernel's translate as they did when neither the
root's entries there nor the bootloader's tables changed. -/
theorem walk_inherited (h : Shape A role ram)
    (hag : ∀ a, role (a / pageSize) = .inherited → ram' a = ram a) {v : Nat}
    (hv : A.owned (levelIndex 3 v) = false)
    (hroot : entryAt ram' A.root (levelIndex 3 v) = entryAt ram A.root (levelIndex 3 v)) :
    walk ram' A.root v = walk ram A.root v := by
  simp only [walk, walkFrom, hroot]
  cases hp : present (entryAt ram A.root (levelIndex 3 v))
  · simp
  · simp only [if_true, bne_self_eq_false, Bool.and_false, Bool.false_eq_true, if_false]
    exact h.walkFrom_inherited hag v (Nat.le_refl 2)
      (h.closed_root _ (levelIndex_lt _ _) hv hp) _ _ _

/-- Every translation depends on the bytes of tables only. -/
theorem walk_congr (h : Shape A role ram)
    (hag : ∀ a, (role (a / pageSize)).IsTable → ram' a = ram a) (v : Nat) :
    walk ram' A.root v = walk ram A.root v := by
  cases hv : A.owned (levelIndex 3 v)
  · refine h.walk_inherited (fun a ha => hag a (by rw [ha]; trivial)) hv ?_
    exact entry_congr hag h.root_mod (levelIndex_lt 3 v) (by rw [h.root_role]; trivial)
  · simp only [(h.congr hag).walk_owned hv, h.walk_owned hv, h.tableAt_congr hag (path_le v)]
    cases hpt : A.tableAt ram (path v) with
    | none => simp only [Option.bind_none]
    | some pt =>
      obtain ⟨hmod, _, _, hrole⟩ := h.table _ pt (path_le v) hpt
      simp only [Option.bind_some]
      rw [entry_congr hag hmod (levelIndex_lt 0 v) (by rw [hrole]; trivial)]

end Shape

/-! ### Linking a fresh table -/

/-- Gives frame `f` a role. -/
def assign (role : Nat → Role) (f : Nat) (r : Role) : Nat → Role := fun g => if g = f then r else role g

theorem assign_same (role : Nat → Role) (f : Nat) (r : Role) : assign role f r f = r := if_pos rfl

theorem assign_ne (role : Nat → Role) {f g : Nat} (r : Role) (h : g ≠ f) :
    assign role f r g = role g := if_neg h

/-- A spare frame may take any role. -/
theorem Shape.assigned {A : Space} {role : Nat → Role} {ram : Mem} (h : Shape A role ram) {f : Nat}
    (hf : role f = .spare) (r : Role) : Shape A (assign role f r) ram := by
  have hkeep : ∀ g, role g ≠ .spare → assign role f r g = role g :=
    fun g hne => assign_ne role r fun heq => hne (heq ▸ hf)
  refine ⟨fun p t hp ht => ?_, h.opened, fun l t hin => ?_, h.closed_root, h.closed⟩
  · obtain ⟨hmod, hpos, hlt, hrole⟩ := h.table p t hp ht
    exact ⟨hmod, hpos, hlt, by rw [hkeep _ (by rw [hrole]; simp)]; exact hrole⟩
  · obtain ⟨hmod, hrole⟩ := h.inherited l t hin
    exact ⟨hmod, by rw [hkeep _ (by rw [hrole]; simp)]; exact hrole⟩

/-- `ram'` is `ram` with a zeroed frame `f` linked in at entry `i` of `t`, as far
as tables go. -/
structure Links (role : Nat → Role) (ram ram' : Mem) (t i f : Nat) : Prop where
  entry : entryAt ram' t i = linkEntry (f * pageSize)
  zero : ∀ a, a / pageSize = f → ram' a = 0
  same : ∀ a, (role (a / pageSize)).IsTable → (a < t + 8 * i ∨ t + 8 * i + 8 ≤ a) → ram' a = ram a

/-- Another entry of a table is not touched by a write to one entry. -/
theorem entryAt_other {role : Nat → Role} {ram ram' : Mem} {t i t' j : Nat} (ht : t % pageSize = 0)
    (ht' : t' % pageSize = 0) (hi : i < 512) (hj : j < 512) (hr : (role (t' / pageSize)).IsTable)
    (hne : t' ≠ t ∨ j ≠ i)
    (same : ∀ a, (role (a / pageSize)).IsTable → (a < t + 8 * i ∨ t + 8 * i + 8 ≤ a) →
      ram' a = ram a) : entryAt ram' t' j = entryAt ram t' j := by
  refine entryAt_congr ht' hj fun a ha hle hlt => same a (by rw [ha]; exact hr) ?_
  unfold pageSize at *
  omega

theorem present_zero {ram : Mem} {t i : Nat} (h : ∀ a, t + 8 * i ≤ a → a < t + 8 * i + 8 → ram a = 0) :
    present (entryAt ram t i) = false := by
  rw [entryAt, Mem.load64, Mem.load_zero h]
  rfl

namespace Shape
variable {A : Space} {role : Nat → Role} {ram ram' : Mem} {p : List Nat} {t i f : Nat}

/-- A write to an entry of a table of one's own leaves the inherited tables as they are. -/
theorem inherited_byte (h : Shape A role ram) (hp : p.length ≤ 3) (ht : A.tableAt ram p = some t)
    (hi : i < 512)
    (same : ∀ a, (role (a / pageSize)).IsTable → (a < t + 8 * i ∨ t + 8 * i + 8 ≤ a) →
      ram' a = ram a) {a : Nat} (ha : role (a / pageSize) = .inherited) : ram' a = ram a := by
  obtain ⟨htmod, _, _, htrole⟩ := h.table p t hp ht
  refine same a (by rw [ha]; trivial) ?_
  by_contra hin
  push Not at hin
  have hpage : a / pageSize = t / pageSize := by
    unfold pageSize at *
    omega
  rw [hpage, htrole] at ha
  cases ha

/-- Tables at different paths are different. -/
theorem table_ne (h : Shape A role ram) {q : List Nat} {t' : Nat} (hp : p.length ≤ 3)
    (hq : q.length ≤ 3) (ht : A.tableAt ram p = some t) (htq : A.tableAt ram q = some t')
    (hne : q ≠ p) : t' ≠ t := by
  rintro rfl
  exact hne (h.path_unique hp hq ht htq)

/-- In the root only an entry in an owned slot is written. -/
theorem root_entry_ne (h : Shape A role ram) (hp : p.length ≤ 3) (ht : A.tableAt ram p = some t)
    (ho : p = [] → A.owned i = true) {j : Nat} (hj : A.owned j = false) : A.root ≠ t ∨ j ≠ i := by
  by_contra hsame
  push Not at hsame
  obtain ⟨hroot, rfl⟩ := hsame
  rw [ho (h.path_unique (p := []) (by decide) hp rfl (hroot ▸ ht))] at hj
  cases hj

theorem fresh_zero (L : Links role ram ram' t i f) {j : Nat} (hj : j < 512) :
    present (entryAt ram' (f * pageSize) j) = false := by
  refine present_zero fun a ha hlt => L.zero a ?_
  unfold pageSize at *
  omega

theorem graft (h : Shape A role ram) (hp : p.length ≤ 2) (ht : A.tableAt ram p = some t)
    (hi : i < 512) (ho : p = [] → A.owned i = true)
    (habsent : present (entryAt ram t i) = false) (hf : role f = .spare)
    (hlt : f < A.map.totalFrames) (L : Links role ram ram' t i f) :
    Graft (A.child ram) (A.child ram') A.root 3 p t i (f * pageSize) := by
  have htmod := (h.table p t (by omega) ht).1
  have htotal := A.map.total_le
  have hfmod : f * pageSize % pageSize = 0 := frame_mod f
  have hflt : f * pageSize < 2 ^ 52 := by unfold pageSize; omega
  refine ⟨ht, ?_, child_of_absent habsent, ?_, ?_, ?_, ?_⟩
  · intro q hq htq
    exact h.path_unique (by omega) (by omega) ht htq
  · intro q hq htq
    have hrole := (h.table q _ (by omega) htq).2.2.2
    rw [frame_div, hf] at hrole
    cases hrole
  · rw [child_of_present hi (h.owned_of_root (by omega) ht ho) (by rw [L.entry]; exact linkEntry_present _),
      L.entry, linkEntry_addr hfmod hflt]
  · intro j
    by_cases hj : j < 512
    · exact child_of_absent (fresh_zero L hj)
    · exact if_neg fun h => hj h.1
  · intro q t' j hq htq hne
    obtain ⟨hmod, _, _, hrole⟩ := h.table q t' (by omega) htq
    unfold Space.child
    by_cases hj : j < 512
    · rw [entryAt_other htmod hmod hi hj (by rw [hrole]; trivial) hne L.same]
    · simp [hj]

/-- The tables keep their shape, with the new one in its role. -/
theorem linked (h : Shape A role ram) (hp : p.length ≤ 2) (ht : A.tableAt ram p = some t)
    (hi : i < 512) (ho : p = [] → A.owned i = true)
    (habsent : present (entryAt ram t i) = false) (hf : role f = .spare) (hpos : 0 < f)
    (hlt : f < A.map.totalFrames) (L : Links role ram ram' t i f) :
    Shape A (assign role f (.table (p ++ [i]))) ram' := by
  have g := h.graft hp ht hi ho habsent hf hlt L
  obtain ⟨htmod, _, _, htrole⟩ := h.table p t (by omega) ht
  have htotal := A.map.total_le
  have hflt : f * pageSize < 2 ^ 52 := by unfold pageSize; omega
  have hkeep : ∀ f', role f' ≠ .spare → assign role f (.table (p ++ [i])) f' = role f' :=
    fun f' hne => assign_ne role _ fun heq => hne (heq ▸ hf)
  refine ⟨?_, ?_, ?_, ?_, ?_⟩
  · intro q t' hq htq
    rcases g.reach_cases (by omega) hq htq with hold | ⟨rfl, rfl⟩
    · obtain ⟨hmod, hpos', hlt', hrole⟩ := h.table q t' hq hold
      exact ⟨hmod, hpos', hlt', by rw [hkeep _ (by rw [hrole]; simp)]; exact hrole⟩
    · rw [frame_div]
      exact ⟨frame_mod f, hpos, hlt, assign_same _ _ _⟩
  · intro q t' j c hq htq hc
    rcases g.reach_cases (by omega) (by omega) htq with hold | ⟨rfl, rfl⟩
    · by_cases hsame : t' = t ∧ j = i
      · obtain ⟨rfl, rfl⟩ := hsame
        rw [L.entry]
        exact linkEntry_open (frame_mod f) hflt
      · have hne : t' ≠ t ∨ j ≠ i := by
          by_contra h
          push Not at h
          exact hsame h
        rw [g.other q t' j (by omega) hold hne] at hc
        have hj : j < 512 := by
          by_contra hj
          simp [Space.child, hj] at hc
        obtain ⟨hmod, _, _, hrole⟩ := h.table q t' (by omega) hold
        rw [entryAt_other htmod hmod hi hj (by rw [hrole]; trivial) hne L.same]
        exact h.opened q t' j c hq hold hc
    · rw [g.empty j] at hc
      cases hc
  · intro l t' hin
    obtain ⟨hmod, hrole⟩ := h.inherited l t' hin
    exact ⟨hmod, by rw [hkeep _ (by rw [hrole]; simp)]; exact hrole⟩
  · intro j hj hnot hpres
    have hne := h.root_entry_ne (by omega) ht ho hnot
    have he := entryAt_other htmod h.root_mod hi hj (by rw [h.root_role]; trivial) hne L.same
    rw [he] at hpres ⊢
    exact h.closed_root j hj hnot hpres
  · intro l t' j hin hj hpres hsmall
    obtain ⟨hmod, hrole⟩ := h.inherited _ t' hin
    have hne : t' ≠ t := by
      rintro rfl
      rw [hrole] at htrole
      cases htrole
    have he := entryAt_other htmod hmod hi hj (by rw [hrole]; trivial) (.inl hne) L.same
    rw [he] at hpres hsmall ⊢
    exact h.closed l t' j hin hj hpres hsmall

/-- A fresh table translates nothing yet, and no other translation changes. -/
theorem linked_walk (h : Shape A role ram) (hp : p.length ≤ 2) (ht : A.tableAt ram p = some t)
    (hi : i < 512) (ho : p = [] → A.owned i = true)
    (habsent : present (entryAt ram t i) = false) (hf : role f = .spare) (hpos : 0 < f)
    (hlt : f < A.map.totalFrames) (L : Links role ram ram' t i f) (v : Nat) :
    walk ram' A.root v = walk ram A.root v := by
  have g := h.graft hp ht hi ho habsent hf hlt L
  have h' := h.linked hp ht hi ho habsent hf hpos hlt L
  obtain ⟨htmod, _, _, _⟩ := h.table p t (by omega) ht
  cases hv : A.owned (levelIndex 3 v)
  · exact h.walk_inherited (fun a ha => h.inherited_byte (by omega) ht hi L.same ha) hv
      (entryAt_other htmod h.root_mod hi (levelIndex_lt _ _) (by rw [h.root_role]; trivial)
        (h.root_entry_ne (by omega) ht ho hv) L.same)
  · simp only [h.walk_owned hv, h'.walk_owned hv]
    by_cases hpre : p ++ [i] <+: path v
    · -- the walk ends at the missing entry before, at an empty table after
      have hnone : A.tableAt ram (path v) = none :=
        Trie.reach_none_of_begins hpre ((Trie.reach_snoc_of ht i).trans (child_of_absent habsent))
      rw [hnone]
      cases hpt : A.tableAt ram' (path v) with
      | none => simp only [Option.bind_none]
      | some pt =>
        rcases g.reach_cases (by omega) (path_le v) hpt with hold | ⟨_, rfl⟩
        · rw [Space.tableAt, hold] at hnone
          cases hnone
        · simp [leafOf, fresh_zero L (levelIndex_lt 0 v)]
    · rw [Space.tableAt, Space.tableAt, g.reach_off (path_le v) hpre]
      cases hpt : A.tableAt ram (path v) with
      | none =>
        rw [Space.tableAt] at hpt
        simp only [hpt, Option.bind_none]
      | some pt =>
        obtain ⟨hmod, _, _, hrole⟩ := h.table (path v) pt (path_le v) hpt
        have hne : pt ≠ t := by
          refine h.table_ne (by omega) (path_le v) ht hpt fun heq => ?_
          rw [← heq, path_length] at hp
          omega
        rw [Space.tableAt] at hpt
        rw [hpt]
        simp only [Option.bind_some]
        rw [entryAt_other htmod hmod hi (levelIndex_lt 0 v) (by rw [hrole]; trivial) (.inl hne) L.same]

/-! ### Writing a leaf entry -/

section Leaf
variable (h : Shape A role ram) (hp : p.length = 3) (ht : A.tableAt ram p = some t) (hi : i < 512)
  (same : ∀ a, (role (a / pageSize)).IsTable → (a < t + 8 * i ∨ t + 8 * i + 8 ≤ a) → ram' a = ram a)
include h hp ht hi same

/-- Only the entry itself changes, and its table is a last-level one. -/
theorem leaf_entry {q : List Nat} {t' j : Nat} (hq : q.length < 3) (htq : A.tableAt ram q = some t')
    (hj : j < 512) : entryAt ram' t' j = entryAt ram t' j := by
  obtain ⟨htmod, _, _, _⟩ := h.table p t (by omega) ht
  obtain ⟨hmod, _, _, hrole⟩ := h.table q t' (by omega) htq
  have hne : t' ≠ t := h.table_ne (by omega) (by omega) ht htq fun heq => by
    rw [heq] at hq
    omega
  exact entryAt_other htmod hmod hi hj (by rw [hrole]; trivial) (.inl hne) same

theorem leaf_tableAt {q : List Nat} (hq : q.length ≤ 3) : A.tableAt ram' q = A.tableAt ram q := by
  refine Trie.reach_congr (fun q t' j hq htq => ?_) hq
  unfold Space.child
  by_cases hj : j < 512
  · rw [h.leaf_entry hp ht hi same hq htq hj]
  · simp [hj]

theorem leaf : Shape A role ram' := by
  have hat {q : List Nat} (hq : q.length ≤ 3) := h.leaf_tableAt hp ht hi same hq
  have hinherited : ∀ l t' j, A.inherited l t' → j < 512 → entryAt ram' t' j = entryAt ram t' j := by
    intro l t' j hin hj
    obtain ⟨hmod, hrole⟩ := h.inherited l t' hin
    exact entryAt_congr hmod hj fun a ha _ _ =>
      h.inherited_byte (by omega) ht hi same (by rw [ha]; exact hrole)
  refine ⟨?_, ?_, h.inherited, ?_, ?_⟩
  · intro q t' hq htq
    rw [hat hq] at htq
    exact h.table q t' hq htq
  · intro q t' j c hq htq hc
    rw [hat (by omega)] at htq
    have hj : j < 512 := by
      by_contra hj
      simp [Space.child, hj] at hc
    have he := h.leaf_entry hp ht hi same (by omega) htq hj
    unfold Space.child at hc
    rw [he] at hc ⊢
    exact h.opened q t' j c hq htq hc
  · intro j hj ho hpres
    have he := h.leaf_entry hp ht hi same (q := []) (by decide) rfl hj
    rw [he] at hpres ⊢
    exact h.closed_root j hj ho hpres
  · intro l t' j hin hj hpres hsmall
    have he := hinherited _ t' j hin hj
    rw [he] at hpres hsmall ⊢
    exact h.closed l t' j hin hj hpres hsmall

/-- The written entry decides its own addresses; no other translation changes. -/
theorem leaf_walk (v : Nat) :
    walk ram' A.root v =
      if path v = p ∧ levelIndex 0 v = i ∧ A.owned (levelIndex 3 v) = true then
        leafOf (entryAt ram' t i) v
      else walk ram A.root v := by
  have h' := h.leaf hp ht hi same
  obtain ⟨htmod, _, _, _⟩ := h.table p t (by omega) ht
  cases hv : A.owned (levelIndex 3 v)
  · simp only [Bool.false_eq_true, and_false, if_false]
    exact h.walk_inherited (fun a ha => h.inherited_byte (by omega) ht hi same ha) hv
      (h.leaf_entry hp ht hi same (q := []) (by decide) rfl (levelIndex_lt _ _))
  · simp only [and_true]
    simp only [h'.walk_owned hv, h.walk_owned hv, h.leaf_tableAt hp ht hi same (path_le v)]
    by_cases hpath : path v = p
    · subst hpath
      rw [ht]
      by_cases hidx : levelIndex 0 v = i
      · simp [hidx]
      · obtain ⟨hmod, _, _, hrole⟩ := h.table _ t (path_le v) ht
        have he := entryAt_other htmod hmod hi (levelIndex_lt 0 v) (by rw [hrole]; trivial)
          (.inr hidx) same
        simp [hidx, he]
    · simp only [hpath, false_and, if_false]
      cases hpt : A.tableAt ram (path v) with
      | none => simp only [Option.bind_none]
      | some pt =>
        obtain ⟨hmod, _, _, hrole⟩ := h.table _ pt (path_le v) hpt
        have hne : pt ≠ t := h.table_ne (by omega) (path_le v) ht hpt hpath
        simp only [Option.bind_some]
        rw [entryAt_other htmod hmod hi (levelIndex_lt 0 v) (by rw [hrole]; trivial) (.inl hne) same]

end Leaf

end Shape

end ArcMonark.Mm.Vmm
