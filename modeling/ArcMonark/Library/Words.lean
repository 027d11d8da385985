import Mathlib.Algebra.Ring.Nat

/-! 64-bit arithmetic on natural numbers.

Words are natural numbers below `2 ^ 64`; sums and differences wrap as the
machine's do, and each has a lemma for the case that does not. `bits lo hi` is
the mask with ones from position `lo` up to `hi`; masking with it, and the
rounding masks of aligned sizes, become division and remainder. -/
namespace ArcMonark.Library

def add64 (a b : Nat) : Nat := (a + b) % 2 ^ 64

def sub64 (a b : Nat) : Nat := (2 ^ 64 + a - b) % 2 ^ 64

theorem add64_eq {a b : Nat} (h : a + b < 2 ^ 64) : add64 a b = a + b := Nat.mod_eq_of_lt h

theorem sub64_eq {a b : Nat} (h : b ≤ a) (ha : a < 2 ^ 64) : sub64 a b = a - b := by
  unfold sub64
  omega

/-- Adding and taking away again is nothing, even when the sum wraps. -/
theorem sub64_add64 {a b : Nat} (ha : a < 2 ^ 64) (hb : b < 2 ^ 64) : sub64 (add64 a b) b = a := by
  unfold sub64 add64
  omega

/-- A sum with a wrapped base, taken back by that base. -/
theorem sub64_add64_add64 {a b c : Nat} (h : a + c < 2 ^ 64) (hb : b < 2 ^ 64) :
    sub64 (add64 (add64 a b) c) b = a + c := by
  unfold sub64 add64
  omega

/-! ### Masks -/

/-- Ones at the positions from `lo` up to `hi`. -/
def bits (lo hi : Nat) : Nat := 2 ^ hi - 2 ^ lo

theorem testBit_bits {lo hi : Nat} (h : lo ≤ hi) (i : Nat) :
    (bits lo hi).testBit i = (decide (lo ≤ i) && decide (i < hi)) := by
  have hsplit : bits lo hi = 2 ^ lo * (2 ^ (hi - lo) - 1) := by
    rw [bits, Nat.mul_sub_one, ← Nat.pow_add, Nat.add_sub_cancel' h]
  rw [hsplit, Nat.testBit_two_pow_mul, Nat.testBit_two_pow_sub_one]
  by_cases hi' : lo ≤ i
  · have : i - lo < hi - lo ↔ i < hi := by omega
    simp [hi', this]
  · simp [hi']

theorem and_bits {lo hi : Nat} (h : lo ≤ hi) (x : Nat) :
    x &&& bits lo hi = x % 2 ^ hi / 2 ^ lo * 2 ^ lo := by
  apply Nat.eq_of_testBit_eq
  intro i
  rw [Nat.testBit_and, testBit_bits h, Nat.mul_comm, Nat.testBit_two_pow_mul,
    Nat.testBit_div_two_pow, Nat.testBit_mod_two_pow]
  by_cases hi' : lo ≤ i
  · rw [Nat.sub_add_cancel hi']
    simp [hi', Bool.and_comm]
  · simp [hi']

/-- What a mask keeps of a value that lies inside it. -/
theorem and_bits_eq {lo hi x : Nat} (h : lo ≤ hi) (hx : x < 2 ^ hi) (ha : x % 2 ^ lo = 0) :
    x &&& bits lo hi = x := by
  rw [and_bits h, Nat.mod_eq_of_lt hx]
  exact Nat.div_mul_cancel (Nat.dvd_of_mod_eq_zero ha)

/-- Masked values are aligned and bounded. -/
theorem and_bits_mod {lo hi : Nat} (h : lo ≤ hi) (x : Nat) : (x &&& bits lo hi) % 2 ^ lo = 0 := by
  rw [and_bits h]
  exact Nat.mul_mod_left _ _

theorem and_bits_lt {lo hi : Nat} (h : lo ≤ hi) (x : Nat) : (x &&& bits lo hi) < 2 ^ hi := by
  rw [and_bits h]
  exact Nat.lt_of_le_of_lt (Nat.div_mul_le_self _ _) (Nat.mod_lt _ (Nat.two_pow_pos hi))

/-! ### Rounding up -/

/-- `(n + a - 1) & ~(a - 1)` of an unsigned 64-bit `n`. -/
def alignUp (n a : Nat) : Nat := add64 n (a - 1) &&& (2 ^ 64 - a)

theorem alignUp_eq {n k : Nat} (hk : k < 64) (h : n + 2 ^ k ≤ 2 ^ 64) :
    alignUp n (2 ^ k) = (n + 2 ^ k - 1) / 2 ^ k * 2 ^ k := by
  have hpos := Nat.two_pow_pos k
  have hsum : n + (2 ^ k - 1) = n + 2 ^ k - 1 := by omega
  have hlt : n + 2 ^ k - 1 < 2 ^ 64 := by omega
  show add64 n (2 ^ k - 1) &&& bits k 64 = _
  rw [and_bits (by omega), add64_eq (by omega), hsum, Nat.mod_eq_of_lt hlt]

theorem alignUp_mod {n k : Nat} (hk : k ≤ 64) : alignUp n (2 ^ k) % 2 ^ k = 0 :=
  and_bits_mod hk _

theorem le_alignUp {n k : Nat} (hk : k < 64) (h : n + 2 ^ k ≤ 2 ^ 64) : n ≤ alignUp n (2 ^ k) := by
  rw [alignUp_eq hk h]
  have hpos := Nat.two_pow_pos k
  have hdiv := Nat.div_add_mod (n + 2 ^ k - 1) (2 ^ k)
  have hmod := Nat.mod_lt (n + 2 ^ k - 1) hpos
  rw [Nat.mul_comm] at hdiv
  omega

/-- Near the top, rounding up wraps to zero. -/
theorem alignUp_wraps {n k : Nat} (hk : k < 64) (hn : n < 2 ^ 64) (h : 2 ^ 64 < n + 2 ^ k) :
    alignUp n (2 ^ k) = 0 := by
  have hpow : 2 ^ k < 2 ^ 64 := Nat.pow_lt_pow_right (by decide) hk
  have hsum : add64 n (2 ^ k - 1) = n + (2 ^ k - 1) - 2 ^ 64 := by
    unfold add64
    omega
  show add64 n (2 ^ k - 1) &&& bits k 64 = 0
  rw [and_bits (Nat.le_of_lt hk), hsum, Nat.mod_eq_of_lt (by omega), Nat.div_eq_of_lt (by omega), Nat.zero_mul]

theorem alignUp_lt {n k : Nat} (hk : k < 64) (h : n + 2 ^ k ≤ 2 ^ 64) :
    alignUp n (2 ^ k) < n + 2 ^ k := by
  rw [alignUp_eq hk h]
  have hpos := Nat.two_pow_pos k
  have := Nat.div_mul_le_self (n + 2 ^ k - 1) (2 ^ k)
  omega

end ArcMonark.Library
