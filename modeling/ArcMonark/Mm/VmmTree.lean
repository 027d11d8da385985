import ArcMonark.Mm.Boot

/-! The tables below a root, as the processor finds them.

A `Node` is a table with its level. An entry leads to a node one level down, unless it
is absent or maps a large page; the nodes of a root form a trie. The walk of an address
depends on the entries on its way only (`walkFrom_congr`), whatever else lies in memory. -/
namespace ArcMonark.Mm.Vmm
open Library Pmm
open Library.Trie (reach Graft)

/-- A table with its level: 3 for a root, 0 for a table of pages. -/
@[ext] structure Node where
  level : Nat
  table : Nat
  deriving DecidableEq, Repr

/-- The node an entry leads to. -/
def Node.below (ram : Mem) (n : Node) (i : Nat) : Option Node :=
  match n.level with
  | 0 => none
  | level + 1 =>
    if i < 512 ∧ present (entryAt ram n.table i) = true ∧
        (level = 2 ∨ large (entryAt ram n.table i) = false) then
      some ⟨level, entryAt ram n.table i &&& pageAddrMask⟩
    else none

/-- The node at the end of a path from a root. -/
def nodeAt (ram : Mem) (root : Nat) (p : List Nat) : Option Node := reach (Node.below ram) ⟨3, root⟩ p

/-- All four labels of an address. -/
def way (v : Nat) : List Nat := path v ++ [levelIndex 0 v]

theorem below_some {ram : Mem} {n c : Node} {i : Nat} (h : n.below ram i = some c) :
    n.level = c.level + 1 ∧ c.table = entryAt ram n.table i &&& pageAddrMask ∧ i < 512 ∧
      present (entryAt ram n.table i) = true ∧
      (c.level = 2 ∨ large (entryAt ram n.table i) = false) := by
  obtain ⟨level, t⟩ := n
  cases level with
  | zero => cases h
  | succ level =>
    simp only [Node.below] at h
    split at h
    · rename_i hcond
      cases h
      exact ⟨rfl, rfl, hcond⟩
    · cases h

theorem below_absent {ram : Mem} {n : Node} {i : Nat} (h : present (entryAt ram n.table i) = false) :
    n.below ram i = none := by
  cases hb : n.below ram i with
  | none => rfl
  | some c =>
    rw [(below_some hb).2.2.2.1] at h
    cases h

theorem below_present {ram : Mem} {level t i : Nat} (hi : i < 512)
    (hp : present (entryAt ram t i) = true) (hs : level = 2 ∨ large (entryAt ram t i) = false) :
    Node.below ram ⟨level + 1, t⟩ i = some ⟨level, entryAt ram t i &&& pageAddrMask⟩ :=
  if_pos ⟨hi, hp, hs⟩

/-- Where an entry leads depends on the entry only. -/
theorem below_congr {ram ram' : Mem} {n : Node} {i : Nat}
    (h : i < 512 → entryAt ram' n.table i = entryAt ram n.table i) : n.below ram' i = n.below ram i := by
  obtain ⟨level, t⟩ := n
  cases level with
  | zero => rfl
  | succ level =>
    by_cases hi : i < 512
    · simp only [Node.below, h hi]
    · simp only [Node.below, hi, false_and, if_false]

theorem nodeAt_level {ram : Mem} {root : Nat} {p : List Nat} {n : Node}
    (h : nodeAt ram root p = some n) : p.length + n.level = 3 := by
  induction p using List.reverseRecOn generalizing n with
  | nil =>
    cases h
    rfl
  | append_singleton p i ih =>
    rw [nodeAt, Trie.reach_snoc] at h
    obtain ⟨c, hc, hn⟩ := Option.bind_eq_some_iff.mp h
    have hlevel := (below_some hn).1
    have := ih hc
    rw [List.length_append, List.length_singleton]
    omega

theorem nodeAt_length {ram : Mem} {root : Nat} {p : List Nat} {n : Node}
    (h : nodeAt ram root p = some n) : p.length ≤ 3 := by
  have := nodeAt_level h
  omega

/-- The labels of a path are indices into a table. -/
theorem nodeAt_mod {ram : Mem} {root : Nat} (hroot : root % pageSize = 0 ∧ root < 2 ^ 52) {p : List Nat}
    {n : Node} (h : nodeAt ram root p = some n) : n.table % pageSize = 0 ∧ n.table < 2 ^ 52 := by
  induction p using List.reverseRecOn generalizing n with
  | nil =>
    cases h
    exact hroot
  | append_singleton p i ih =>
    rw [nodeAt, Trie.reach_snoc] at h
    obtain ⟨c, _, hn⟩ := Option.bind_eq_some_iff.mp h
    rw [(below_some hn).2.1]
    exact ⟨mask_mod _, mask_lt _⟩

/-- The nodes are the tables of `TableOf`. -/
theorem tableOf_iff {ram : Mem} {root l t : Nat} :
    TableOf ram root l t ↔ ∃ p, nodeAt ram root p = some ⟨l, t⟩ := by
  constructor
  · intro h
    induction h with
    | root => exact ⟨[], rfl⟩
    | @child l t i _ hi hp hs ih =>
      obtain ⟨p, hp'⟩ := ih
      exact ⟨p ++ [i], (Trie.reach_snoc_of hp' i).trans (below_present hi hp hs)⟩
  · rintro ⟨p, h⟩
    induction p using List.reverseRecOn generalizing l t with
    | nil =>
      cases h
      exact .root
    | append_singleton p i ih =>
      rw [nodeAt, Trie.reach_snoc] at h
      obtain ⟨c, hc, hn⟩ := Option.bind_eq_some_iff.mp h
      obtain ⟨level, u⟩ := c
      obtain ⟨hlevel, htable, hi, hp, hs⟩ := below_some hn
      have hl : level = l + 1 := hlevel
      have ht : t = entryAt ram u i &&& pageAddrMask := htable
      subst hl ht
      exact .child (ih hc) hi hp hs

/-! ### The walk on its way -/

/-- The labels of a way, level by level. -/
theorem way_split {v level : Nat} {p : List Nat} {i : Nat} (hl : p.length + level = 3)
    (h : p ++ [i] <+: way v) : p ++ pathFrom v level = path v ∧ i = levelIndex level v := by
  have hlevel : level = 3 - p.length := by omega
  subst hlevel
  rcases p with _ | ⟨a, _ | ⟨b, _ | ⟨c, _ | ⟨d, p⟩⟩⟩⟩
  all_goals simp_all [way, path, pathFrom, List.cons_prefix_cons]

/-- The next label on the way past a table. -/
theorem way_next {v level : Nat} {q : List Nat} (hq : q ++ pathFrom v level = path v) :
    q ++ [levelIndex level v] <+: way v := by
  rw [way, ← hq, List.append_assoc]
  refine List.prefix_append_right_inj q |>.mpr ?_
  cases level with
  | zero => exact List.prefix_refl _
  | succ level => exact ⟨_, rfl⟩

theorem label_eq {v level : Nat} {p : List Nat} {i : Nat} (hl : p.length + (level + 1) = 3)
    (h : p ++ [i] <+: path v) : i = levelIndex (level + 1) v :=
  (way_split hl (h.trans (List.prefix_append _ _))).2

/-- A present entry on the way that maps no large page leads to the next table. -/
theorem nodeAt_next {ram : Mem} {root v level t : Nat} {q : List Nat}
    (hn : nodeAt ram root q = some ⟨level + 1, t⟩) (hq : q ++ pathFrom v (level + 1) = path v)
    (hp : present (entryAt ram t (levelIndex (level + 1) v)) = true)
    (hs : (large (entryAt ram t (levelIndex (level + 1) v)) && level != 2) = false) :
    nodeAt ram root (q ++ [levelIndex (level + 1) v]) =
        some ⟨level, entryAt ram t (levelIndex (level + 1) v) &&& pageAddrMask⟩ ∧
      q ++ [levelIndex (level + 1) v] ++ pathFrom v level = path v := by
  rw [Bool.and_eq_false_iff, bne_eq_false_iff_eq] at hs
  refine ⟨(Trie.reach_snoc_of hn _).trans (below_present (levelIndex_lt _ v) hp hs.symm), ?_⟩
  rw [← hq, List.append_assoc]
  rfl

/-- The walk of an address depends on the entries on its way only. -/
theorem walkFrom_congr {ram ram' : Mem} {root v : Nat}
    (hsame : ∀ q n j, nodeAt ram root q = some n → j < 512 → q ++ [j] <+: way v →
      entryAt ram' n.table j = entryAt ram n.table j)
    {level t : Nat} {q : List Nat} (hn : nodeAt ram root q = some ⟨level, t⟩)
    (hq : q ++ pathFrom v level = path v) (write user nx : Bool) :
    walkFrom ram' v level t write user nx = walkFrom ram v level t write user nx := by
  induction level generalizing t q write user nx with
  | zero =>
    have hentry := hsame q _ _ hn (levelIndex_lt 0 v) (way_next hq)
    simp only [walkFrom, hentry]
  | succ level ih =>
    have hentry := hsame q _ _ hn (levelIndex_lt (level + 1) v) (way_next hq)
    simp only [walkFrom, hentry]
    cases hp : present (entryAt ram t (levelIndex (level + 1) v))
    · simp
    · cases hs : large (entryAt ram t (levelIndex (level + 1) v)) && level != 2
      · obtain ⟨hnode, hq'⟩ := nodeAt_next hn hq hp hs
        simp only [if_true, Bool.false_eq_true, if_false]
        exact ih hnode hq' _ _ _
      · simp

/-- A walk starts with the walk to any table on its way. -/
theorem walk_from_node {ram : Mem} {root v level t : Nat} {q : List Nat}
    (hn : nodeAt ram root q = some ⟨level, t⟩) (hq : q ++ pathFrom v level = path v) :
    ∃ write user nx, walk ram root v = walkFrom ram v level t write user nx := by
  induction q using List.reverseRecOn generalizing level t with
  | nil =>
    cases hn
    exact ⟨true, true, false, rfl⟩
  | append_singleton q i ih =>
    rw [nodeAt, Trie.reach_snoc] at hn
    obtain ⟨⟨level', u⟩, hu, hbelow⟩ := Option.bind_eq_some_iff.mp hn
    obtain ⟨hlevel, htable, _, hp, hs⟩ := below_some hbelow
    have hl : level' = level + 1 := hlevel
    have ht : t = entryAt ram u i &&& pageAddrMask := htable
    subst hl ht
    have hcount := nodeAt_level hu
    have hsplit : q ++ [i] ++ pathFrom v level = path v := hq
    -- the label is the address's own
    have hi : i = levelIndex (level + 1) v := label_eq hcount (by rw [← hsplit]; simp)
    subst hi
    obtain ⟨write, user, nx, hw⟩ := ih hu (by rw [← hsplit, pathFrom]; simp)
    have hpres : present (entryAt ram u (levelIndex (level + 1) v)) = true := hp
    have hleaf : (large (entryAt ram u (levelIndex (level + 1) v)) && level != 2) = false := by
      rcases hs with hl | hs
      · have : level = 2 := hl
        simp [this]
      · simp [show large (entryAt ram u (levelIndex (level + 1) v)) = false from hs]
    refine ⟨write && (entryAt ram u (levelIndex (level + 1) v)).testBit 1,
      user && (entryAt ram u (levelIndex (level + 1) v)).testBit 2,
      nx || (entryAt ram u (levelIndex (level + 1) v)).testBit 63, ?_⟩
    simp only [hw, walkFrom, hpres, hleaf, if_true, Bool.false_eq_true, if_false]

/-- An absent entry on the way ends the walk. -/
theorem walk_absent {ram : Mem} {root v : Nat} {p : List Nat} {n : Node} {i : Nat}
    (hn : nodeAt ram root p = some n) (hpre : p ++ [i] <+: way v)
    (hp : present (entryAt ram n.table i) = false) : walk ram root v = none := by
  obtain ⟨hq, rfl⟩ := way_split (nodeAt_level hn) hpre
  obtain ⟨write, user, nx, hw⟩ := walk_from_node hn hq
  rw [hw, walkFrom_absent _ _ _ hp]

theorem walk_congr_way {ram ram' : Mem} {root v : Nat}
    (hsame : ∀ q n j, nodeAt ram root q = some n → j < 512 → q ++ [j] <+: way v →
      entryAt ram' n.table j = entryAt ram n.table j) : walk ram' root v = walk ram root v :=
  walkFrom_congr hsame (q := []) rfl rfl _ _ _

end ArcMonark.Mm.Vmm
