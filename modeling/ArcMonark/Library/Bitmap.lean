import Mathlib.Order.Interval.Finset.Nat
import ArcMonark.Library.Bytes

/-! Bitmaps in byte memories.

Bit `f` of the bitmap at `base` is bit `f % 8` of the byte at `base + f / 8`,
tested, set and cleared with one-bit masks. The lemmas say that a set or a clear
changes its own bit only, which byte it touches, and how the number of ones below
a bound moves. -/
namespace ArcMonark.Library.Bitmap

def mask (f : Nat) : Byte := 1#8 <<< (f % 8)

def test (m : Mem) (base f : Nat) : Bool := m (base + f / 8) &&& mask f != 0#8

def setBit (m : Mem) (base f : Nat) : Mem :=
  m.set (base + f / 8) (m (base + f / 8) ||| mask f)

def clearBit (m : Mem) (base f : Nat) : Mem :=
  m.set (base + f / 8) (m (base + f / 8) &&& ~~~ mask f)

theorem mask_getLsbD (f i : Nat) (hi : i < 8) : (mask f).getLsbD i = decide (i = f % 8) := by
  have hf : f % 8 < 8 := Nat.mod_lt _ (by decide)
  simp only [mask, BitVec.getLsbD_shiftLeft, BitVec.getLsbD_one]
  by_cases h : i < f % 8
  · have : i ≠ f % 8 := by omega
    simp [h, this]
  · have : (i - f % 8 = 0) ↔ i = f % 8 := by omega
    simp [hi, h, this]

theorem test_eq (m : Mem) (base f : Nat) :
    test m base f = (m (base + f / 8)).getLsbD (f % 8) := by
  have hf : f % 8 < 8 := Nat.mod_lt _ (by decide)
  have hand : ∀ i, i < 8 → (m (base + f / 8) &&& mask f).getLsbD i =
      (decide (i = f % 8) && (m (base + f / 8)).getLsbD (f % 8)) := by
    intro i hi
    rw [BitVec.getLsbD_and, mask_getLsbD f i hi]
    by_cases h : i = f % 8
    · simp [h]
    · simp [h]
  cases hbit : (m (base + f / 8)).getLsbD (f % 8)
  · have hzero : m (base + f / 8) &&& mask f = 0#8 := by
      apply BitVec.eq_of_getLsbD_eq
      intro i hi
      rw [hand i hi, hbit]
      simp
    simp [test, hzero]
  · have hne : m (base + f / 8) &&& mask f ≠ 0#8 := by
      intro hz
      have := hand (f % 8) hf
      rw [hz, hbit] at this
      simp at this
    simp [test, hne]

theorem test_congr {m m' : Mem} {base f : Nat} (h : m' (base + f / 8) = m (base + f / 8)) :
    test m' base f = test m base f := by
  simp only [test, h]

theorem index_eq {f g : Nat} (h : f / 8 = g / 8) (h' : f % 8 = g % 8) : f = g := by omega

theorem test_setBit (m : Mem) (base f g : Nat) :
    test (setBit m base f) base g = (decide (g = f) || test m base g) := by
  have hg : g % 8 < 8 := Nat.mod_lt _ (by decide)
  by_cases hbyte : g / 8 = f / 8
  · rw [test_eq, test_eq, setBit, hbyte, Mem.set_same, BitVec.getLsbD_or, mask_getLsbD f _ hg,
      Bool.or_comm]
    have : g % 8 = f % 8 ↔ g = f := ⟨fun h => index_eq hbyte h, fun h => h ▸ rfl⟩
    simp [this]
  · have hne : g ≠ f := fun h => hbyte (h ▸ rfl)
    rw [setBit, test_congr (Mem.set_ne m _ (by omega))]
    simp [hne]

theorem test_clearBit (m : Mem) (base f g : Nat) :
    test (clearBit m base f) base g = (!decide (g = f) && test m base g) := by
  have hg : g % 8 < 8 := Nat.mod_lt _ (by decide)
  by_cases hbyte : g / 8 = f / 8
  · rw [test_eq, test_eq, clearBit, hbyte, Mem.set_same, BitVec.getLsbD_and, BitVec.getLsbD_not,
      mask_getLsbD f _ hg, Bool.and_comm]
    have : g % 8 = f % 8 ↔ g = f := ⟨fun h => index_eq hbyte h, fun h => h ▸ rfl⟩
    simp [hg, this]
  · have hne : g ≠ f := fun h => hbyte (h ▸ rfl)
    rw [clearBit, test_congr (Mem.set_ne m _ (by omega))]
    simp [hne]

/-! ### The number of ones -/

/-- How many of the numbers below `n` satisfy `p`. -/
def ones (p : Nat → Bool) (n : Nat) : Nat := ((Finset.range n).filter (p · = true)).card

theorem ones_le (p : Nat → Bool) (n : Nat) : ones p n ≤ n :=
  (Finset.card_filter_le _ _).trans_eq (Finset.card_range n)

theorem ones_congr {p q : Nat → Bool} {n : Nat} (h : ∀ f, f < n → q f = p f) :
    ones q n = ones p n := by
  unfold ones
  congr 1
  apply Finset.filter_congr
  intro f hf
  rw [h f (Finset.mem_range.mp hf)]

/-- One more one. -/
theorem ones_insert {p q : Nat → Bool} {n f : Nat} (hf : f < n) (hp : p f = false)
    (hq : ∀ g, g < n → q g = (decide (g = f) || p g)) : ones q n = ones p n + 1 := by
  have hset : (Finset.range n).filter (q · = true) =
      insert f ((Finset.range n).filter (p · = true)) := by
    ext g
    simp only [Finset.mem_filter, Finset.mem_range, Finset.mem_insert]
    constructor
    · rintro ⟨hg, h⟩
      rw [hq g hg] at h
      simp only [Bool.or_eq_true, decide_eq_true_eq] at h
      exact h.imp_right fun h => ⟨hg, h⟩
    · rintro (rfl | ⟨hg, h⟩)
      · exact ⟨hf, by rw [hq g hf]; simp⟩
      · exact ⟨hg, by rw [hq g hg, h]; simp⟩
  rw [ones, hset, Finset.card_insert_of_notMem (by simp [hp])]
  rfl

theorem ones_pos {p : Nat → Bool} {n f : Nat} (hf : f < n) (hp : p f = true) : 0 < ones p n :=
  Finset.card_pos.mpr ⟨f, Finset.mem_filter.mpr ⟨Finset.mem_range.mpr hf, hp⟩⟩

theorem ones_all {p : Nat → Bool} {n : Nat} (h : ∀ f, f < n → p f = true) : ones p n = n := by
  rw [ones, Finset.filter_true_of_mem (fun f hf => h f (Finset.mem_range.mp hf)), Finset.card_range]

/-- Ones below `k` and nowhere else. -/
theorem ones_below {k n : Nat} (hk : k ≤ n) : ones (fun f => decide (f < k)) n = k := by
  have hset : (Finset.range n).filter (fun f => decide (f < k) = true) = Finset.range k := by
    ext f
    simp only [Finset.mem_filter, Finset.mem_range, decide_eq_true_eq]
    omega
  rw [ones, hset, Finset.card_range]

/-- The count falls short of the bound exactly when some number is left out. -/
theorem ones_lt_iff {p : Nat → Bool} {n : Nat} : ones p n < n ↔ ∃ f, f < n ∧ p f = false := by
  constructor
  · intro h
    by_contra hnone
    push Not at hnone
    have := ones_all fun f hf => by simpa using hnone f hf
    omega
  · rintro ⟨f, hf, hp⟩
    have hfull := ones_insert (q := fun g => decide (g = f) || p g) hf hp fun _ _ => rfl
    have := ones_le (fun g => decide (g = f) || p g) n
    omega

end ArcMonark.Library.Bitmap
