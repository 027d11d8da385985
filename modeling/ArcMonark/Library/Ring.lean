import Mathlib.Data.List.Nodup
import Mathlib.Data.List.Perm.Subperm

/-! Circular lists.

`Ring next h xs` says that following `next` from `h` visits each of `xs` once, in
order, and comes back to `h`. Nodes go in and out by changing `next` at one node
(`Ring.insert`, `Ring.remove`), and the ring reads the same from any of its nodes
(`Ring.rotate`). -/
namespace ArcMonark.Library

structure Ring {α : Type} (next : α → α) (h : α) (xs : List α) : Prop where
  nodup : (h :: xs).Nodup
  closed : (h :: xs).map next = xs ++ [h]

namespace Ring
variable {α : Type} {next next' : α → α} {h t x y : α} {xs ys : List α}

/-- A node alone is its own successor. -/
theorem single (hh : next h = h) : Ring next h [] := ⟨List.nodup_singleton h, by simp [hh]⟩

theorem next_mem (hr : Ring next h xs) (hx : x ∈ h :: xs) : next x ∈ h :: xs := by
  have hmem : next x ∈ (h :: xs).map next := List.mem_map_of_mem hx
  rw [hr.closed] at hmem
  simpa [or_comm] using hmem

/-- No two nodes have the same successor. -/
theorem next_inj (hr : Ring next h xs) (hx : x ∈ h :: xs) (hy : y ∈ h :: xs) (heq : next x = next y) :
    x = y := by
  refine List.inj_on_of_nodup_map ?_ hx hy heq
  rw [hr.closed]
  exact (List.perm_append_singleton h xs).nodup_iff.mpr hr.nodup

/-- The ring, cut in front of one of its nodes. -/
theorem cut (hr : Ring next h (xs ++ t :: ys)) :
    (h :: xs).map next = xs ++ [t] ∧ (t :: ys).map next = ys ++ [h] := by
  have hclosed := hr.closed
  rw [← List.cons_append, List.map_append, List.append_assoc] at hclosed
  refine List.append_inj (hclosed.trans ?_) (by simp)
  simp

/-- Only the nodes' own successors matter. -/
theorem congr (hr : Ring next h xs) (hag : ∀ x ∈ h :: xs, next' x = next x) : Ring next' h xs :=
  ⟨hr.nodup, (List.map_congr_left hag).trans hr.closed⟩

/-- The successor of a node is the one behind it, or the first. -/
theorem next_eq (hr : Ring next h xs) {as bs : List α} (hx : h :: xs = as ++ x :: bs) :
    next x = bs.headD h := by
  have hclosed := hr.closed
  rw [hx, List.map_append, List.map_cons] at hclosed
  have hlen : (as.map next).length = (xs.take as.length).length := by
    have := congrArg List.length hx
    simp only [List.length_cons, List.length_append] at this
    simp only [List.length_map, List.length_take]
    omega
  have hdrop : xs.drop as.length = bs := by
    have := congrArg (List.drop (as.length + 1)) hx
    rw [List.drop_succ_cons, ← List.drop_drop, List.drop_left] at this
    exact this
  rw [← List.take_append_drop as.length xs, List.append_assoc] at hclosed
  have hback := (List.append_inj hclosed hlen).2
  rw [hdrop] at hback
  cases bs with
  | nil => exact (List.cons.inj hback).1
  | cons b bs => exact (List.cons.inj hback).1

/-- Behind a node comes no first node. -/
theorem ne_first (hr : Ring next h xs) {as bs : List α} (hx : h :: xs = as ++ x :: y :: bs) : y ≠ h := by
  have hnodup := hr.nodup
  rintro rfl
  cases as with
  | nil =>
    obtain ⟨rfl, rfl⟩ := List.cons.inj hx
    simp at hnodup
  | cons a as =>
    obtain ⟨rfl, rfl⟩ := List.cons.inj hx
    simp at hnodup

/-- The ring, read from another of its nodes. -/
theorem rotate (hr : Ring next h xs) (ht : t ∈ h :: xs) :
    ∃ zs, Ring next t zs ∧ (t :: zs).Perm (h :: xs) := by
  rcases List.mem_cons.mp ht with rfl | ht
  · exact ⟨xs, hr, .refl _⟩
  · obtain ⟨as, bs, rfl⟩ := List.append_of_mem ht
    obtain ⟨hfront, hback⟩ := hr.cut
    have hperm : (t :: (bs ++ h :: as)).Perm (h :: (as ++ t :: bs)) := by
      rw [← List.cons_append, ← List.cons_append]
      exact List.perm_append_comm
    refine ⟨bs ++ h :: as, ⟨hperm.nodup_iff.mpr hr.nodup, ?_⟩, hperm⟩
    rw [← List.cons_append, List.map_append, hback, hfront]
    simp

/-- A new node behind the first. -/
theorem insert (hr : Ring next h xs) (ht : t ∉ h :: xs) (hnew : next' t = next h) (hh : next' h = t)
    (hag : ∀ x ∈ xs, next' x = next x) : Ring next' h (t :: xs) := by
  have hclosed := hr.closed
  rw [List.map_cons] at hclosed
  refine ⟨(List.Perm.swap t h xs).nodup_iff.mpr (List.nodup_cons.mpr ⟨ht, hr.nodup⟩), ?_⟩
  rw [List.map_cons, List.map_cons, hh, hnew, List.map_congr_left hag, hclosed]
  rfl

/-- A node that is not the first leaves the ring when its predecessor skips it. -/
theorem remove (hr : Ring next h (xs ++ t :: ys)) (hx : x ∈ h :: (xs ++ t :: ys)) (hnext : next x = t)
    (hskip : next' x = next t) (hag : ∀ y ∈ h :: (xs ++ ys), y ≠ x → next' y = next y) :
    Ring next' h (xs ++ ys) := by
  obtain ⟨hfront, hback⟩ := hr.cut
  obtain ⟨zs, q, hzs⟩ := List.eq_nil_or_concat' (h :: xs) |>.resolve_left (List.cons_ne_nil h xs)
  have hsub : (h :: (xs ++ ys)).Sublist (h :: (xs ++ t :: ys)) :=
    ((List.Sublist.refl xs).append (List.sublist_cons_self t ys)).cons_cons h
  have hnodup := hr.nodup.sublist hsub
  -- the predecessor is the node in front
  rw [hzs, List.map_append] at hfront
  obtain ⟨hzsmap, hq⟩ := List.append_inj' hfront rfl
  have hqt : next q = t := (List.cons.inj hq).1
  have hqmem : q ∈ h :: xs := by
    rw [hzs]
    simp
  have hxq : x = q := hr.next_inj hx (by
    rcases List.mem_cons.mp hqmem with rfl | hmem
    · exact List.mem_cons_self
    · exact List.mem_cons_of_mem _ (List.mem_append_left _ hmem)) (hnext.trans hqt.symm)
  subst hxq
  have hsplit : h :: (xs ++ ys) = zs ++ x :: ys := by
    rw [← List.cons_append, hzs, List.append_assoc]
    rfl
  rw [hsplit] at hnodup hag
  have hother : ∀ y ∈ zs ++ ys, next' y = next y := by
    intro y hy
    obtain ⟨_, hxys, hapart⟩ := List.nodup_append.mp hnodup
    rcases List.mem_append.mp hy with hmem | hmem
    · exact hag y (List.mem_append_left _ hmem) (hapart y hmem x List.mem_cons_self)
    · refine hag y (List.mem_append_right _ (List.mem_cons_of_mem x hmem)) fun heq => ?_
      exact (List.nodup_cons.mp hxys).1 (heq ▸ hmem)
  refine ⟨hsplit ▸ hnodup, ?_⟩
  rw [hsplit, List.map_append, List.map_cons, hskip,
    List.map_congr_left fun y hy => hother y (List.mem_append_left _ hy),
    List.map_congr_left fun y hy => hother y (List.mem_append_right _ hy), hzsmap, ← List.map_cons,
    hback, List.append_assoc]

end Ring

end ArcMonark.Library
