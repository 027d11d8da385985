import ArcMonark.Library.Bytes
import Mathlib.Data.Nat.Digits.Lemmas

/-! Numbers written in digits.

A numeral in base `b` is a list of characters, the most significant digit first. `numeral`
writes a number from its list of digits and `value` reads one; reading what was written
gives the number back (`value_numeral`), in as many characters as its size needs
(`numeral_length`), without zeros in front (`numeral_isNumeral`). -/
namespace ArcMonark.Library

/-- The character of a digit. -/
def digit (d : Nat) : Byte := BitVec.ofNat 8 (0x30 + d)

/-- The number that is read, digit after digit. -/
def value (b : Nat) (s : List Byte) : Nat := s.foldl (fun n c => b * n + (c.toNat - 0x30)) 0

def numeral (b v : Nat) : List Byte := if v = 0 then [digit 0] else ((Nat.digits b v).map digit).reverse

/-- Digits of the base, with no zero in front of others. -/
structure IsNumeral (b : Nat) (s : List Byte) : Prop where
  nonempty : s ≠ []
  digits : ∀ c ∈ s, 0x30 ≤ c.toNat ∧ c.toNat < 0x30 + b
  lead : s.head? = some (digit 0) → s = [digit 0]

section Numerals
variable {b v : Nat}

theorem digit_toNat {d : Nat} (hd : d < 10) : (digit d).toNat = 0x30 + d := by
  rw [digit, BitVec.toNat_ofNat]
  omega

theorem value_snoc (b : Nat) (s : List Byte) (c : Byte) : value b (s ++ [c]) = b * value b s + (c.toNat - 0x30) := by
  rw [value, List.foldl_append]
  rfl

/-- Read from the back, the digits are the least significant first. -/
theorem value_reverse (b : Nat) {ds : List Nat} (hds : ∀ d ∈ ds, d < 10) :
    value b (ds.map digit).reverse = Nat.ofDigits b ds := by
  induction ds with
  | nil => rfl
  | cons d ds ih =>
    obtain ⟨hd, hds⟩ := List.forall_mem_cons.mp hds
    rw [List.map_cons, List.reverse_cons, value_snoc, ih hds, digit_toNat hd, Nat.ofDigits_cons]
    omega

theorem digits_lt_ten (hb : 1 < b) (hten : b ≤ 10) : ∀ d ∈ Nat.digits b v, d < 10 :=
  fun _ hd => Nat.lt_of_lt_of_le (Nat.digits_lt_base hb hd) hten

theorem value_numeral (hb : 1 < b) (hten : b ≤ 10) : value b (numeral b v) = v := by
  unfold numeral
  split
  · rename_i hzero
    rw [hzero]
    rfl
  · rw [value_reverse b (digits_lt_ten hb hten), Nat.ofDigits_digits]

theorem numeral_length (hb : 1 < b) {k : Nat} (hk : 0 < k) (hv : v < b ^ k) : (numeral b v).length ≤ k := by
  unfold numeral
  split
  · exact hk
  · rw [List.length_reverse, List.length_map]
    exact (Nat.digits_length_le_iff hb v).mpr hv

theorem numeral_digit (hb : 1 < b) (hten : b ≤ 10) : ∀ c ∈ numeral b v, 0x30 ≤ c.toNat ∧ c.toNat < 0x30 + b := by
  intro c hc
  have hdigit : ∃ d, d < b ∧ c = digit d := by
    unfold numeral at hc
    split at hc
    · exact ⟨0, by omega, List.mem_singleton.mp hc⟩
    · obtain ⟨d, hd, rfl⟩ := List.mem_map.mp (List.mem_reverse.mp hc)
      exact ⟨d, Nat.digits_lt_base hb hd, rfl⟩
  obtain ⟨d, hd, rfl⟩ := hdigit
  rw [digit_toNat (by omega)]
  omega

/-- The last digit, the most significant one, is not zero. -/
theorem numeral_lead (hb : 1 < b) (hten : b ≤ 10) (hv : v ≠ 0) : (numeral b v).head? ≠ some (digit 0) := by
  have hne := Nat.digits_ne_nil_iff_ne_zero (b := b).mpr hv
  have hlast := Nat.getLast_digit_ne_zero b hv
  have hlt := digits_lt_ten hb hten _ (List.getLast_mem hne)
  rw [numeral, if_neg hv, List.head?_reverse, List.getLast?_map, List.getLast?_eq_some_getLast hne, Option.map_some]
  intro heq
  have hsame := congrArg BitVec.toNat (Option.some.inj heq)
  rw [digit_toNat hlt, digit_toNat (by decide)] at hsame
  omega

theorem numeral_isNumeral (hb : 1 < b) (hten : b ≤ 10) : IsNumeral b (numeral b v) := by
  by_cases hv : v = 0
  · subst hv
    exact ⟨List.cons_ne_nil _ _, numeral_digit hb hten, fun _ => rfl⟩
  · refine ⟨?_, numeral_digit hb hten, fun h => absurd h (numeral_lead hb hten hv)⟩
    rw [numeral, if_neg hv]
    intro hnil
    exact Nat.digits_ne_nil_iff_ne_zero.mpr hv (List.map_eq_nil_iff.mp (List.reverse_eq_nil_iff.mp hnil))

end Numerals

/-! ### A fixed number of digits -/

/-- The lowest `n` digits of the number, the most significant first. -/
def fixed (char : Nat → Byte) (b n v : Nat) : List Byte := (List.range n).map fun i => char (v / b ^ (n - 1 - i) % b)

section Fixed
variable {char : Nat → Byte} {b n v v' : Nat}

theorem fixed_length (char : Nat → Byte) (b n v : Nat) : (fixed char b n v).length = n := by
  rw [fixed, List.length_map, List.length_range]

theorem fixed_digit (hb : 0 < b) {c : Byte} (hc : c ∈ fixed char b n v) : ∃ d, d < b ∧ c = char d := by
  obtain ⟨i, -, rfl⟩ := List.mem_map.mp hc
  exact ⟨_, Nat.mod_lt _ hb, rfl⟩

/-- The last digit is the remainder. -/
theorem fixed_succ (char : Nat → Byte) (b n v : Nat) :
    fixed char b (n + 1) v = fixed char b n (v / b) ++ [char (v % b)] := by
  unfold fixed
  rw [List.range_succ, List.map_append]
  congr 1
  · refine List.map_congr_left fun i hi => ?_
    have hlt := List.mem_range.mp hi
    rw [show n + 1 - 1 - i = n - 1 - i + 1 by omega, Nat.pow_succ', ← Nat.div_div_eq_div_mul]
  · simp

theorem fixed_inj (hchar : ∀ d < b, ∀ d' < b, char d = char d' → d = d') (hv : v < b ^ n) (hv' : v' < b ^ n)
    (h : fixed char b n v = fixed char b n v') : v = v' := by
  induction n generalizing v v' with
  | zero =>
    rw [Nat.pow_zero] at hv hv'
    omega
  | succ n ih =>
    have hb : 0 < b := Nat.pos_of_ne_zero fun hzero => by simp [hzero] at hv
    rw [fixed_succ, fixed_succ] at h
    obtain ⟨hfirst, hlast⟩ := List.append_singleton_inj.mp h
    have hdigit := hchar _ (Nat.mod_lt v hb) _ (Nat.mod_lt v' hb) hlast
    have hrest := ih (Nat.div_lt_of_lt_mul (by rwa [Nat.pow_succ'] at hv))
      (Nat.div_lt_of_lt_mul (by rwa [Nat.pow_succ'] at hv')) hfirst
    rw [← Nat.div_add_mod v b, ← Nat.div_add_mod v' b, hdigit, hrest]

end Fixed

end ArcMonark.Library
