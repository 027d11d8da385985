import ArcMonark.Library.Raster
import ArcMonark.Library.Words

/-! Copying memory (`lib/string.c`).

`memcpy` copies upwards. `memmove` copies upwards when the destination is below the
source and downwards when it is above, so that no byte is read after it is written.
Addresses are 64-bit words. `Copied` is the invariant of both loops: which part of the
range is copied, and that nothing else has changed. -/
namespace ArcMonark.Lib
open Library

/-- `for (i = n; i > 0; i--)`, the body at `i - 1`. -/
def loopDown {σ : Type} : Nat → (Nat → σ → σ) → σ → σ
  | 0, _, s => s
  | n + 1, body, s => loopDown n body (body n s)

/-- `d[i] = s[i]` -/
def copyByte (dest src i : Nat) (m : Mem) : Mem := m.set (add64 dest i) (m (add64 src i))

/-- What is returned, and the memory after it. -/
def memcpy (m : Mem) (dest src count : Nat) : Nat × Mem := (dest, loop count (copyByte dest src) m)

def memmove (m : Mem) (dest src count : Nat) : Nat × Mem :=
  if dest = src ∨ count = 0 then (dest, m)
  else if dest < src then (dest, loop count (copyByte dest src) m)
  else (dest, loopDown count (copyByte dest src) m)

/-! ### Partly copied ranges -/

/-- The bytes of the range from number `lo` up to `hi` are copied, and no other byte of `m`
has changed. -/
structure Copied (m m' : Mem) (dest src lo hi : Nat) : Prop where
  inside : ∀ i, lo ≤ i → i < hi → m' (dest + i) = m (src + i)
  outside : ∀ a, a < dest + lo ∨ dest + hi ≤ a → m' a = m a

section Copied
variable {m m' : Mem} {dest src count lo hi : Nat}

theorem Copied.none (m : Mem) (dest src lo : Nat) : Copied m m dest src lo lo :=
  ⟨fun _ hlo hhi => absurd hlo (Nat.not_le.mpr hhi), fun _ _ => rfl⟩

/-- Two memories with the same range copied are the same. -/
theorem Copied.unique {m₁ m₂ : Mem} (h₁ : Copied m m₁ dest src lo hi) (h₂ : Copied m m₂ dest src lo hi) : m₁ = m₂ := by
  funext a
  by_cases hin : dest + lo ≤ a ∧ a < dest + hi
  · obtain ⟨i, rfl⟩ := Nat.exists_eq_add_of_le (show dest ≤ a by omega)
    rw [h₁.inside i (by omega) (by omega), h₂.inside i (by omega) (by omega)]
  · rw [h₁.outside a (by omega), h₂.outside a (by omega)]

/-- The next byte upwards, which must not be one that is copied already. -/
theorem Copied.up (h : Copied m m' dest src lo hi) (hlo : lo ≤ hi) (hd : dest + hi < 2 ^ 64) (hs : src + hi < 2 ^ 64)
    (hread : src + hi < dest + lo ∨ dest ≤ src) : Copied m (copyByte dest src hi m') dest src lo (hi + 1) := by
  have hsame : copyByte dest src hi m' = m'.set (dest + hi) (m (src + hi)) := by
    rw [copyByte, add64_eq hd, add64_eq hs, h.outside (src + hi) (by omega)]
  rw [hsame]
  refine ⟨fun i hi₁ hi₂ => ?_, fun a ha => ?_⟩
  · rcases Nat.lt_succ_iff_lt_or_eq.mp hi₂ with hlt | rfl
    · rw [Mem.set_ne _ _ (by omega)]
      exact h.inside i hi₁ hlt
    · exact Mem.set_same _ _ _
  · rw [Mem.set_ne _ _ (by omega)]
    exact h.outside a (by omega)

/-- The next byte downwards. -/
theorem Copied.down (h : Copied m m' dest src (lo + 1) hi) (hhi : lo < hi) (hd : dest + lo < 2 ^ 64)
    (hs : src + lo < 2 ^ 64) (hread : src ≤ dest) : Copied m (copyByte dest src lo m') dest src lo hi := by
  have hsame : copyByte dest src lo m' = m'.set (dest + lo) (m (src + lo)) := by
    rw [copyByte, add64_eq hd, add64_eq hs, h.outside (src + lo) (by omega)]
  rw [hsame]
  refine ⟨fun i hi₁ hi₂ => ?_, fun a ha => ?_⟩
  · rcases Nat.eq_or_lt_of_le hi₁ with rfl | hlt
    · exact Mem.set_same _ _ _
    · rw [Mem.set_ne _ _ (by omega)]
      exact h.inside i hlt hi₂
  · rw [Mem.set_ne _ _ (by omega)]
    exact h.outside a (by omega)

/-- Upwards, a destination that is not inside the source's rest is safe. -/
theorem copyUp (m : Mem) (hd : dest + count ≤ 2 ^ 64) (hs : src + count ≤ 2 ^ 64)
    (hread : src + count ≤ dest ∨ dest ≤ src) :
    Copied m (loop count (copyByte dest src) m) dest src 0 count := by
  refine loop_induct (P := fun n m' => Copied m m' dest src 0 n) (.none m dest src 0) fun i m' hi h => ?_
  exact h.up (Nat.zero_le i) (by omega) (by omega) (by omega)

/-- What is above `n` is copied; the loop does the rest. -/
theorem copyDown (hd : dest + count ≤ 2 ^ 64) (hs : src + count ≤ 2 ^ 64) (hread : src ≤ dest) {n : Nat} (hn : n ≤ count)
    (h : Copied m m' dest src n count) : Copied m (loopDown n (copyByte dest src) m') dest src 0 count := by
  induction n generalizing m' with
  | zero => exact h
  | succ n ih => exact ih (Nat.le_of_succ_le hn) (h.down hn (by omega) (by omega) hread)

theorem memmove_copied (m : Mem) (hd : dest + count ≤ 2 ^ 64) (hs : src + count ≤ 2 ^ 64) :
    Copied m (memmove m dest src count).2 dest src 0 count := by
  unfold memmove
  split
  · rename_i hnothing
    rcases hnothing with rfl | rfl
    · exact ⟨fun _ _ _ => rfl, fun _ _ => rfl⟩
    · exact .none m dest src 0
  · split
    · exact copyUp m hd hs (by omega)
    · exact copyDown hd hs (by omega) (Nat.le_refl _) (.none m dest src count)

end Copied

/-- **`memmove` is correct under every overlap**: the destination holds what the source
held, and nothing else changes. `memcpy` does the same when the ranges are apart, or the
destination is below. -/
theorem memmove_correct (m : Mem) {dest src count : Nat} (hd : dest + count ≤ 2 ^ 64) (hs : src + count ≤ 2 ^ 64) :
    (∀ i, i < count → (memmove m dest src count).2 (dest + i) = m (src + i)) ∧
    (∀ a, a < dest ∨ dest + count ≤ a → (memmove m dest src count).2 a = m a) ∧
    (dest + count ≤ src ∨ src + count ≤ dest ∨ dest < src →
      (memcpy m dest src count).2 = (memmove m dest src count).2) := by
  have hmove := memmove_copied m hd hs
  refine ⟨fun i hi => hmove.inside i (Nat.zero_le i) hi, fun a ha => hmove.outside a ha, fun hapart => ?_⟩
  exact (copyUp m hd hs (by omega)).unique hmove

/-- Four bytes move up by one, over three of themselves. -/
theorem memmove_correct_up : (memmove (fun a => BitVec.ofNat 8 a) 0x1001 0x1000 4).2 0x1004 = 3 := by
  obtain ⟨hcopied, _, _⟩ := memmove_correct (fun a => BitVec.ofNat 8 a) (show 0x1001 + 4 ≤ 2 ^ 64 by decide)
    (show 0x1000 + 4 ≤ 2 ^ 64 by decide)
  exact hcopied 3 (by decide)

end ArcMonark.Lib
