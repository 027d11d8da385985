import Mathlib.Data.List.Induction
import Mathlib.Tactic.Push
/-! Pointer tries.

Nodes are joined by labelled edges, `next n i` being the child of `n` at label
`i`. `reach next r p` follows a path `p` from the root `r`. Where every node that
paths shorter than `d` reach has one path only, grafting a fresh node without
children onto a missing edge adds one path and moves no other (`Graft.reach_off`),
and changing what lies below depth `d` moves nothing (`reach_congr`). -/
namespace ArcMonark.Library.Trie

variable {N ι : Type} {next next' : N → ι → Option N}

def reach (next : N → ι → Option N) : N → List ι → Option N
  | n, [] => some n
  | n, i :: p => (next n i).bind fun c => reach next c p

theorem reach_append (next : N → ι → Option N) (r : N) (p q : List ι) :
    reach next r (p ++ q) = (reach next r p).bind fun n => reach next n q := by
  induction p generalizing r with
  | nil => rfl
  | cons i p ih =>
    simp only [List.cons_append, reach]
    cases next r i with
    | none => rfl
    | some c => exact ih c

theorem reach_snoc (next : N → ι → Option N) (r : N) (p : List ι) (i : ι) :
    reach next r (p ++ [i]) = (reach next r p).bind fun n => next n i := by
  rw [reach_append]
  congr 1
  funext n
  simp only [reach]
  cases next n i <;> rfl

theorem reach_snoc_of {r n : N} {p : List ι} (h : reach next r p = some n) (i : ι) :
    reach next r (p ++ [i]) = next n i := by
  rw [reach_snoc, h]
  rfl

/-- Where a path ends, no longer path goes on. -/
theorem reach_none_of_begins {r : N} {p q : List ι} (hpq : p <+: q) (h : reach next r p = none) :
    reach next r q = none := by
  obtain ⟨s, rfl⟩ := hpq
  rw [reach_append, h]
  rfl

theorem reach_isSome_of_begins {r : N} {p q : List ι} (hpq : p <+: q)
    (h : (reach next r q).isSome) : (reach next r p).isSome := by
  cases hp : reach next r p with
  | some n => rfl
  | none =>
    rw [reach_none_of_begins hpq hp] at h
    cases h

/-- Paths no longer than `d` see only the edges of nodes at depths below `d`. -/
theorem reach_congr {r : N} {d : Nat}
    (h : ∀ q n j, q.length < d → reach next r q = some n → next' n j = next n j)
    {q : List ι} (hq : q.length ≤ d) : reach next' r q = reach next r q := by
  induction q using List.reverseRecOn with
  | nil => rfl
  | append_singleton q j ih =>
    rw [List.length_append, List.length_singleton] at hq
    rw [reach_snoc, reach_snoc, ih (by omega)]
    cases hn : reach next r q with
    | none => rfl
    | some n => exact h q n j (by omega) hn

/-- What it takes to hang `f` below `n` at label `i`: the edge was missing, `n`
is reached by `p` alone and `f` by nothing, and `f` has no children. -/
structure Graft (next next' : N → ι → Option N) (r : N) (d : Nat) (p : List ι) (n : N) (i : ι)
    (f : N) : Prop where
  reached : reach next r p = some n
  only : ∀ q, q.length < d → reach next r q = some n → q = p
  missing : next n i = none
  fresh : ∀ q, q.length < d → reach next r q ≠ some f
  linked : next' n i = some f
  empty : ∀ j, next' f j = none
  other : ∀ q m j, q.length < d → reach next r q = some m → (m ≠ n ∨ j ≠ i) →
    next' m j = next m j

namespace Graft
variable {r n f : N} {d : Nat} {p : List ι} {i : ι}

/-- Paths that do not run through the new edge are as before. -/
theorem reach_off (g : Graft next next' r d p n i f) {q : List ι} (hq : q.length ≤ d)
    (hoff : ¬ p ++ [i] <+: q) : reach next' r q = reach next r q := by
  induction q using List.reverseRecOn with
  | nil => rfl
  | append_singleton q j ih =>
    rw [List.length_append, List.length_singleton] at hq
    have hoff' : ¬ p ++ [i] <+: q := fun h => hoff (h.trans (List.prefix_append q [j]))
    rw [reach_snoc, reach_snoc, ih (by omega) hoff']
    cases hm : reach next r q with
    | none => rfl
    | some m =>
      apply g.other q m j (by omega) hm
      by_contra hsame
      push Not at hsame
      obtain ⟨rfl, rfl⟩ := hsame
      exact hoff (g.only q (by omega) hm ▸ List.prefix_refl _)

/-- The new edge. -/
theorem reach_new (g : Graft next next' r d p n i f) (hp : p.length ≤ d) :
    reach next' r (p ++ [i]) = some f := by
  have hself : ¬ p ++ [i] <+: p := by
    intro h
    have := h.length_le
    rw [List.length_append, List.length_singleton] at this
    omega
  rw [reach_snoc, g.reach_off hp hself, g.reached]
  exact g.linked

/-- Nothing lies below the new node. -/
theorem reach_below (g : Graft next next' r d p n i f) (hp : p.length ≤ d) {s : List ι}
    (hs : s ≠ []) : reach next' r (p ++ [i] ++ s) = none := by
  obtain ⟨j, s, rfl⟩ := List.exists_cons_of_ne_nil hs
  rw [reach_append, g.reach_new hp]
  simp only [Option.bind_some, reach, g.empty j, Option.bind_none]

/-- Every old path still leads where it led. -/
theorem reach_mono (g : Graft next next' r d p n i f) {q : List ι} (hq : q.length ≤ d) {m : N}
    (h : reach next r q = some m) : reach next' r q = some m := by
  rw [g.reach_off hq ?_, h]
  intro hpre
  rw [reach_none_of_begins hpre ((reach_snoc_of g.reached i).trans g.missing)] at h
  cases h

/-- A path leads where it led, or is the new one. -/
theorem reach_cases (g : Graft next next' r d p n i f) (hp : p.length ≤ d) {q : List ι}
    (hq : q.length ≤ d) {m : N} (h : reach next' r q = some m) :
    reach next r q = some m ∨ (q = p ++ [i] ∧ m = f) := by
  by_cases hpre : p ++ [i] <+: q
  · obtain ⟨s, rfl⟩ := hpre
    by_cases hs : s = []
    · subst hs
      rw [List.append_nil, g.reach_new hp] at h
      cases h
      exact .inr ⟨List.append_nil _, rfl⟩
    · rw [g.reach_below hp hs] at h
      cases h
  · rw [g.reach_off hq hpre] at h
    exact .inl h

end Graft

end ArcMonark.Library.Trie
