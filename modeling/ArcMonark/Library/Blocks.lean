import Mathlib.Data.List.Chain
import Mathlib.Tactic.Push
/-! Lists of blocks in address order.

A block is an address, a size and whether it is free; a header of `h` bytes stands
in front of its `size` bytes. `Laid h lo bs hi` says that the blocks of `bs` follow
one another between `lo` and `hi` without overlapping; gaps are allowed. Where a
stretch of a laid list is replaced by blocks laid between the same bounds the list
stays laid, so that every change of a list is a change of a stretch. -/
namespace ArcMonark.Library

structure Block where
  addr : Nat
  size : Nat
  free : Bool
  deriving DecidableEq, Repr

namespace Block

/-- The end of a block behind a header of `h` bytes. -/
def stop (h : Nat) (b : Block) : Nat := b.addr + h + b.size

/-- Blocks follow one another `lo … hi`, each header in front of its bytes. -/
def Laid (h lo : Nat) : List Block → Nat → Prop
  | [], hi => lo ≤ hi
  | b :: bs, hi => lo ≤ b.addr ∧ Laid h (b.stop h) bs hi

/-- The bytes in blocks that are not free. -/
def used : List Block → Nat
  | [] => 0
  | b :: bs => (if b.free then 0 else b.size) + used bs

/-- No two neighbours are both free. -/
def Settled (bs : List Block) : Prop := bs.IsChain fun b c => ¬ (b.free = true ∧ c.free = true)

section Laid
variable {h lo hi : Nat} {b c : Block} {bs xs ys : List Block}

theorem Laid.le (hl : Laid h lo bs hi) : lo ≤ hi := by
  induction bs generalizing lo with
  | nil => exact hl
  | cons b bs ih =>
    have hle := hl.1
    have hrest := ih hl.2
    unfold stop at hrest
    omega

theorem Laid.mono (hl : Laid h lo bs hi) {hi' : Nat} (hle : hi ≤ hi') : Laid h lo bs hi' := by
  induction bs generalizing lo with
  | nil => exact Nat.le_trans hl hle
  | cons b bs ih => exact ⟨hl.1, ih hl.2⟩

theorem laid_append : Laid h lo (xs ++ ys) hi ↔ ∃ mid, Laid h lo xs mid ∧ Laid h mid ys hi := by
  induction xs generalizing lo with
  | nil =>
    constructor
    · exact fun hl => ⟨lo, Nat.le_refl lo, hl⟩
    · rintro ⟨mid, hle, hl⟩
      have hle : lo ≤ mid := hle
      cases ys with
      | nil => exact Nat.le_trans hle hl
      | cons y ys => exact ⟨Nat.le_trans hle hl.1, hl.2⟩
  | cons x xs ih =>
    constructor
    · rintro ⟨hle, hl⟩
      obtain ⟨mid, hx, hy⟩ := ih.mp hl
      exact ⟨mid, ⟨hle, hx⟩, hy⟩
    · rintro ⟨mid, ⟨hle, hx⟩, hy⟩
      exact ⟨hle, ih.mpr ⟨mid, hx, hy⟩⟩

/-- A stretch may be replaced by what is laid between the same bounds. -/
theorem Laid.replace {old new : List Block} (hl : Laid h lo (xs ++ old ++ ys) hi)
    (hnew : ∀ a z, Laid h a old z → Laid h a new z) : Laid h lo (xs ++ new ++ ys) hi := by
  obtain ⟨z, hxo, hy⟩ := laid_append.mp hl
  obtain ⟨a, hx, ho⟩ := laid_append.mp hxo
  exact laid_append.mpr ⟨z, laid_append.mpr ⟨a, hx, hnew a z ho⟩, hy⟩

theorem Laid.mem (hl : Laid h lo bs hi) (hb : b ∈ bs) : lo ≤ b.addr ∧ b.stop h ≤ hi := by
  induction bs generalizing lo with
  | nil => cases hb
  | cons d bs ih =>
    rcases List.mem_cons.mp hb with rfl | hb
    · exact ⟨hl.1, hl.2.le⟩
    · obtain ⟨hle, hstop⟩ := ih hl.2 hb
      have := hl.1
      unfold stop at *
      exact ⟨by omega, hstop⟩

theorem Laid.pairwise (hl : Laid h lo bs hi) : bs.Pairwise fun b c => b.stop h ≤ c.addr := by
  induction bs generalizing lo with
  | nil => exact .nil
  | cons b bs ih => exact List.pairwise_cons.mpr ⟨fun c hc => (hl.2.mem hc).1, ih hl.2⟩

/-- Two blocks of a laid list are the same or lie apart. -/
theorem Laid.apart (hl : Laid h lo bs hi) (hb : b ∈ bs) (hc : c ∈ bs) :
    b = c ∨ b.stop h ≤ c.addr ∨ c.stop h ≤ b.addr := by
  induction bs generalizing lo with
  | nil => cases hb
  | cons d bs ih =>
    rcases List.mem_cons.mp hb with rfl | hb' <;> rcases List.mem_cons.mp hc with rfl | hc'
    · exact .inl rfl
    · exact .inr (.inl (hl.2.mem hc').1)
    · exact .inr (.inr (hl.2.mem hb').1)
    · exact ih hl.2 hb' hc'

/-- Blocks in front of and behind a block of a laid list. -/
theorem Laid.split (hl : Laid h lo (xs ++ b :: ys) hi) :
    lo ≤ b.addr ∧ b.stop h ≤ hi ∧ (∀ c ∈ xs, lo ≤ c.addr ∧ c.stop h ≤ b.addr) ∧
      ∀ c ∈ ys, b.stop h ≤ c.addr ∧ c.stop h ≤ hi := by
  obtain ⟨mid, hx, hb, hy⟩ := laid_append.mp hl
  have hlo := hx.le
  refine ⟨Nat.le_trans hlo hb, hy.le, fun c hc => ?_, fun c hc => hy.mem hc⟩
  obtain ⟨hle, hstop⟩ := hx.mem hc
  exact ⟨hle, Nat.le_trans hstop hb⟩

end Laid

/-- A laid list is no longer than its bounds allow. -/
theorem Laid.length_le {h lo hi : Nat} {bs : List Block} (hl : Laid h lo bs hi) :
    lo + h * bs.length ≤ hi := by
  induction bs generalizing lo with
  | nil => exact hl
  | cons b bs ih =>
    have hle := hl.1
    have hrest := ih hl.2
    unfold stop at hrest
    rw [List.length_cons, Nat.mul_add_one]
    omega

/-- Around a block, no neighbours are both free. -/
theorem settled_split {xs ys : List Block} {b : Block} : Settled (xs ++ b :: ys) ↔
    Settled xs ∧ (∀ a ∈ xs.getLast?, ¬ (a.free = true ∧ b.free = true)) ∧
      (∀ c ∈ ys.head?, ¬ (b.free = true ∧ c.free = true)) ∧ Settled ys := by
  unfold Settled
  rw [List.isChain_append, List.isChain_cons]
  constructor
  · rintro ⟨hxs, ⟨hnext, hys⟩, hprev⟩
    exact ⟨hxs, fun a ha => hprev a ha b rfl, hnext, hys⟩
  · rintro ⟨hxs, hprev, hnext, hys⟩
    refine ⟨hxs, ⟨hnext, hys⟩, fun a ha c hc => ?_⟩
    cases hc
    exact hprev a ha

section Used
variable {h lo hi : Nat} {b : Block} {bs xs ys : List Block}

theorem used_append (xs ys : List Block) : used (xs ++ ys) = used xs + used ys := by
  induction xs with
  | nil => exact (Nat.zero_add _).symm
  | cons x xs ih =>
    simp only [List.cons_append, used, ih]
    exact (Nat.add_assoc _ _ _).symm

theorem Laid.used_le (hl : Laid h lo bs hi) : lo + used bs ≤ hi := by
  induction bs generalizing lo with
  | nil => exact hl
  | cons b bs ih =>
    have hle := hl.1
    have hrest := ih hl.2
    unfold stop at hrest
    rw [used]
    split <;> omega

/-- The blocks in use of at least `k` bytes take `k` bytes each. -/
theorem filter_le_used (k : Nat) (bs : List Block) :
    (bs.filter fun b => !b.free && decide (k ≤ b.size)).length * k ≤ used bs := by
  induction bs with
  | nil => exact Nat.le_of_eq (Nat.zero_mul k)
  | cons b bs ih =>
    rw [used, List.filter_cons]
    by_cases hfree : b.free = true
    · rw [if_neg (by simp [hfree]), if_pos hfree]
      omega
    · rw [if_neg hfree]
      split
      · rename_i hk
        simp only [Bool.and_eq_true, decide_eq_true_eq] at hk
        rw [List.length_cons, Nat.succ_mul]
        omega
      · omega

end Used

end Block

end ArcMonark.Library
