import Mathlib.Algebra.Ring.Nat

/-! Byte memories and little-endian words.

A memory is a byte at every address. Words of any width are read and written
least significant byte first; the lemmas say what a read sees of a write (the
written value at the same place, the old value anywhere else) and that a read
depends on the bytes it covers only. Nothing here knows what the bytes hold. -/
namespace ArcMonark.Library

abbrev Byte := BitVec 8

abbrev Mem := Nat → Byte

namespace Mem

def set (m : Mem) (a : Nat) (v : Byte) : Mem := fun b => if b = a then v else m b

/-- `n` bytes from `a` up, as a number. -/
def load (m : Mem) (a : Nat) : Nat → Nat
  | 0 => 0
  | n + 1 => (m a).toNat + 256 * load m (a + 1) n

/-- The low `n` bytes of `v` from `a` up. -/
def store (m : Mem) (a : Nat) : Nat → Nat → Mem
  | 0, _ => m
  | n + 1, v => (store m (a + 1) n (v / 256)).set a (BitVec.ofNat 8 v)

def load64 (m : Mem) (a : Nat) : Nat := m.load a 8

def store64 (m : Mem) (a v : Nat) : Mem := m.store a 8 v

/-- Two memories hold the same bytes from `a` up to `b`. -/
def Agree (m m' : Mem) (a b : Nat) : Prop := ∀ i, a ≤ i → i < b → m' i = m i

@[simp] theorem set_same (m : Mem) (a : Nat) (v : Byte) : m.set a v a = v := by
  simp [set]

theorem set_ne (m : Mem) {a b : Nat} (v : Byte) (h : b ≠ a) : m.set a v b = m b := by
  simp [set, h]

theorem load_lt (m : Mem) (a n : Nat) : m.load a n < 256 ^ n := by
  induction n generalizing a with
  | zero => simp [load]
  | succ n ih =>
    have hb := (m a).isLt
    have hr := ih (a + 1)
    rw [load, Nat.pow_succ]
    omega

/-- A read depends on the bytes it covers only. -/
theorem load_congr {m m' : Mem} {a n : Nat} (h : Agree m m' a (a + n)) :
    m'.load a n = m.load a n := by
  induction n generalizing a with
  | zero => rfl
  | succ n ih =>
    rw [load, load, h a (Nat.le_refl _) (by omega),
      ih (fun i hi hlt => h i (by omega) (by omega))]

/-- A number of so many bytes determines them. -/
theorem load_inj {m m' : Mem} {a n : Nat} (h : m'.load a n = m.load a n) : Agree m m' a (a + n) := by
  induction n generalizing a with
  | zero => exact fun i hi hlt => absurd hlt (by omega)
  | succ n ih =>
    have hb := (m a).isLt
    have hb' := (m' a).isLt
    rw [load, load] at h
    intro i hi hlt
    rcases Nat.eq_or_lt_of_le hi with rfl | hgt
    · exact BitVec.eq_of_toNat_eq (by omega)
    · exact ih (a := a + 1) (by omega) i hgt (by omega)

/-- A write touches the bytes it covers only. -/
theorem store_of_outside (m : Mem) {a n b : Nat} (v : Nat) (h : b < a ∨ a + n ≤ b) :
    m.store a n v b = m b := by
  induction n generalizing a v with
  | zero => rfl
  | succ n ih =>
    rw [store, set_ne _ _ (by omega), ih _ (by omega)]

theorem load_store_same (m : Mem) (a n v : Nat) : (m.store a n v).load a n = v % 256 ^ n := by
  induction n generalizing a v with
  | zero => simp [load, Nat.mod_one]
  | succ n ih =>
    have hrest : (m.store a (n + 1) v).load (a + 1) n = v / 256 % 256 ^ n := by
      rw [← ih (a + 1) (v / 256)]
      apply load_congr
      intro i hi _
      rw [store, set_ne _ _ (by omega)]
    have hpow : 256 ^ (n + 1) = 256 * 256 ^ n := by rw [Nat.pow_succ, Nat.mul_comm]
    rw [load, hrest, store, set_same, hpow, Nat.mod_mul]
    exact congrArg (· + 256 * (v / 256 % 256 ^ n)) (BitVec.toNat_ofNat v 8)

/-- A read apart from a write does not see it. -/
theorem load_store_apart (m : Mem) {a n b k : Nat} (v : Nat) (h : b + k ≤ a ∨ a + n ≤ b) :
    (m.store a n v).load b k = m.load b k := by
  apply load_congr
  intro i hi hlt
  exact store_of_outside m v (by omega)

/-! ### A piece of a memory, seen from its first byte -/

section Piece
variable {m piece : Mem} {p n : Nat}

theorem load_piece (h : ∀ i < n, m (p + i) = piece i) {i k : Nat} (hin : i + k ≤ n) :
    m.load (p + i) k = piece.load i k := by
  induction k generalizing i with
  | zero => rfl
  | succ k ih => rw [load, load, h i (by omega), Nat.add_assoc, ih (by omega)]

theorem store_piece (h : ∀ i < n, m (p + i) = piece i) (i k v : Nat) :
    ∀ j < n, m.store (p + i) k v (p + j) = piece.store i k v j := by
  induction k generalizing i v with
  | zero => exact h
  | succ k ih =>
    intro j hj
    rw [store, store]
    by_cases heq : j = i
    · rw [heq, set_same, set_same]
    · rw [set_ne _ _ (by omega), set_ne _ _ heq, Nat.add_assoc]
      exact ih (i + 1) (v / 256) j hj

end Piece

/-! ### 64-bit words -/

theorem load64_lt (m : Mem) (a : Nat) : m.load64 a < 2 ^ 64 := m.load_lt a 8

theorem load64_congr {m m' : Mem} {a : Nat} (h : Agree m m' a (a + 8)) :
    m'.load64 a = m.load64 a := load_congr h

theorem load64_store64_same (m : Mem) (a : Nat) {v : Nat} (h : v < 2 ^ 64) :
    (m.store64 a v).load64 a = v :=
  (load_store_same m a 8 v).trans (Nat.mod_eq_of_lt h)

theorem load64_store64_apart (m : Mem) {a b : Nat} (v : Nat) (h : b + 8 ≤ a ∨ a + 8 ≤ b) :
    (m.store64 a v).load64 b = m.load64 b := load_store_apart m v h

theorem store64_of_outside (m : Mem) {a b : Nat} (v : Nat) (h : b < a ∨ a + 8 ≤ b) :
    m.store64 a v b = m b := store_of_outside m v h

theorem load64_set_apart (m : Mem) {a b : Nat} (v : Byte) (h : b + 8 ≤ a ∨ a < b) :
    (m.set a v).load64 b = m.load64 b :=
  load64_congr fun i hi hlt => set_ne m v (by omega)

/-- A word of zero bytes is zero. -/
theorem load_zero {m : Mem} {a n : Nat} (h : ∀ i, a ≤ i → i < a + n → m i = 0) :
    m.load a n = 0 := by
  induction n generalizing a with
  | zero => rfl
  | succ n ih =>
    rw [load, h a (Nat.le_refl _) (by omega), ih (fun i hi hlt => h i (by omega) (by omega))]
    rfl

/-! ### Agreement -/

theorem Agree.mono {m m' : Mem} {a b c d : Nat} (h : Agree m m' a b) (hc : a ≤ c) (hd : d ≤ b) :
    Agree m m' c d := fun i hi hlt => h i (Nat.le_trans hc hi) (Nat.lt_of_lt_of_le hlt hd)

end Mem

end ArcMonark.Library
