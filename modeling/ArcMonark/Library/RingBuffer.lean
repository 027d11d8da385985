import Mathlib.Algebra.Ring.Nat
import Mathlib.Data.List.Basic
import Mathlib.Logic.Function.Basic

/-! Ring buffers.

`n` slots, an index `head` where the next item goes and an index `tail` where the
oldest one is. `Buffered` reads the items off the slots; one slot stays free, so that
equal indices mean an empty buffer. -/
namespace ArcMonark.Library

/-- The slots from `tail` up to `head` hold `xs`, the oldest first. -/
structure Buffered {α : Type} (n : Nat) (slots : Nat → α) (head tail : Nat) (xs : List α) : Prop where
  room : xs.length < n
  tail_lt : tail < n
  head_eq : head = (tail + xs.length) % n
  slot : ∀ i (h : i < xs.length), slots ((tail + i) % n) = xs[i]

namespace Buffered
variable {α : Type} {n : Nat} {slots : Nat → α} {head tail : Nat} {x : α} {xs : List α}

/-- Two places less than a turn apart are different slots. -/
theorem slot_ne {i j : Nat} (hij : i < j) (hj : j < i + n) : (tail + i) % n ≠ (tail + j) % n := by
  intro heq
  have hmod := Nat.sub_mod_eq_zero_of_mod_eq heq.symm
  have hle := Nat.le_of_dvd (by omega) (Nat.dvd_of_mod_eq_zero hmod)
  omega

theorem empty (slots : Nat → α) (ht : tail < n) : Buffered n slots tail tail [] :=
  ⟨Nat.zero_lt_of_lt ht, ht, (Nat.mod_eq_of_lt ht).symm, nofun⟩

theorem head_lt (h : Buffered n slots head tail xs) : head < n := by
  rw [h.head_eq]
  exact Nat.mod_lt _ (Nat.zero_lt_of_lt h.tail_lt)

theorem tail_eq (h : Buffered n slots head tail xs) : tail = (tail + 0) % n :=
  (Nat.mod_eq_of_lt h.tail_lt).symm

/-- Equal indices mean that nothing is buffered. -/
theorem head_eq_tail (h : Buffered n slots head tail xs) : head = tail ↔ xs = [] := by
  constructor
  · intro heq
    by_contra hne
    have hpos := List.length_pos_of_ne_nil hne
    have hroom := h.room
    refine @slot_ne n tail 0 xs.length hpos (by omega) ?_
    rw [← h.tail_eq, ← h.head_eq, heq]
  · rintro rfl
    rw [h.head_eq, List.length_nil, ← h.tail_eq]

/-- The index behind the head. -/
theorem next_eq (h : Buffered n slots head tail xs) : (head + 1) % n = (tail + (xs.length + 1)) % n := by
  rw [h.head_eq, Nat.mod_add_mod, Nat.add_assoc]

/-- The head catches up with the tail when one slot is left. -/
theorem next_eq_tail (h : Buffered n slots head tail xs) : (head + 1) % n = tail ↔ xs.length + 1 = n := by
  rw [h.next_eq]
  constructor
  · intro heq
    by_contra hne
    have hroom := h.room
    refine @slot_ne n tail 0 (xs.length + 1) (by omega) (by omega) ?_
    rw [heq, ← h.tail_eq]
  · intro heq
    rw [heq, Nat.add_mod_right, Nat.mod_eq_of_lt h.tail_lt]

/-- The head is none of the slots in use. -/
theorem head_ne (h : Buffered n slots head tail xs) {i : Nat} (hi : i < xs.length) : (tail + i) % n ≠ head := by
  rw [h.head_eq]
  exact slot_ne hi (by have := h.room; omega)

/-- Writing at the head overwrites nothing that is buffered. -/
theorem write (h : Buffered n slots head tail xs) (x : α) :
    Buffered n (Function.update slots head x) head tail xs := by
  refine ⟨h.room, h.tail_lt, h.head_eq, fun i hi => ?_⟩
  rw [Function.update_of_ne (h.head_ne hi), h.slot i hi]

/-- A write at the head that then moves on appends. -/
theorem push (h : Buffered n slots head tail xs) (hroom : xs.length + 1 < n) (x : α) :
    Buffered n (Function.update slots head x) ((head + 1) % n) tail (xs ++ [x]) := by
  refine ⟨by simpa using hroom, h.tail_lt, by simpa using h.next_eq, fun i hi => ?_⟩
  rw [List.length_append, List.length_singleton] at hi
  by_cases hlt : i < xs.length
  · rw [List.getElem_append_left hlt, (h.write x).slot i hlt]
  · have heq : i = xs.length := by omega
    subst heq
    rw [← h.head_eq, Function.update_self]
    simp

/-- The oldest item is at the tail. -/
theorem first (h : Buffered n slots head tail (x :: xs)) : slots tail = x := by
  have hslot := h.slot 0 (Nat.succ_pos _)
  rwa [← h.tail_eq] at hslot

/-- Moving the tail on takes the oldest item out. -/
theorem pop (h : Buffered n slots head tail (x :: xs)) : Buffered n slots head ((tail + 1) % n) xs := by
  have hroom := h.room
  rw [List.length_cons] at hroom
  have hshift : ∀ i, ((tail + 1) % n + i) % n = (tail + (i + 1)) % n := fun i => by
    rw [Nat.mod_add_mod, Nat.add_assoc, Nat.add_comm 1]
  refine ⟨by omega, Nat.mod_lt _ (by omega), ?_, fun i hi => ?_⟩
  · rw [hshift, h.head_eq, List.length_cons]
  · rw [hshift, h.slot (i + 1) (by simpa using hi)]
    rfl

end Buffered

end ArcMonark.Library
