import ArcMonark.Library.Numerals
import ArcMonark.Library.Objects

/-! Numbers in decimal (`lib/string.c`, `u64_to_dec`).

The digits come out of the divisions least significant first. They go into a local array
of 20 bytes, which the largest numbers fill, and from its end into the buffer.
`u64ToDec_exact`: the buffer then holds the number's decimal numeral, and the code has
touched nothing but its 21 bytes. -/
namespace ArcMonark.Lib
open Library

/-- `while (v > 0) { tmp[i++] = '0' + v % 10; v /= 10; }`; no result where `tmp` has no byte `i`. -/
def digitsWhile (v i : Nat) (tmp : Vector Byte 20) : Option (Nat × Vector Byte 20) :=
  if 0 < v then
    if h : i < 20 then digitsWhile (v / 10) (i + 1) (tmp.set i (BitVec.ofNat 8 (0x30 + v % 10))) else none
  else some (i, tmp)
termination_by v
decreasing_by exact Nat.div_lt_self ‹0 < v› (by decide)

/-- `while (i > 0) buf[j++] = tmp[--i];` -/
def turnWhile (tmp : Vector Byte 20) (buf : Nat) : (i j : Nat) → Object → Option (Nat × Object)
  | 0, j, m => some (j, m)
  | i + 1, j, m => if h : i < 20 then do turnWhile tmp buf i (j + 1) (← m.write (add64 buf j) tmp[i]) else none

/-- What is returned, and the object that the buffer is in. `tmp` holds anything at first. -/
def u64ToDec (m : Object) (v buf : Nat) (tmp : Vector Byte 20) : Option (Nat × Object) :=
  if v = 0 then do
    let m ← m.write (add64 buf 0) 0x30
    let m ← m.write (add64 buf 1) 0
    return (buf, m)
  else do
    let (i, tmp) ← digitsWhile v 0 tmp
    let (j, m) ← turnWhile tmp buf i 0 m
    let m ← m.write (add64 buf j) 0
    return (buf, m)

section U64ToDec
variable {m m₁ : Object} {v buf i n : Nat} {s : List Byte}

theorem take_next (tmp : Vector Byte 20) (hi : i < 20) : tmp.toList.take (i + 1) = tmp.toList.take i ++ [tmp[i]] := by
  rw [List.take_succ_eq_append_getElem (by rwa [Vector.length_toList]), Vector.getElem_toList]

theorem take_set (tmp : Vector Byte 20) (hi : i < 20) (c : Byte) :
    (tmp.set i c).toList.take (i + 1) = tmp.toList.take i ++ [c] := by
  rw [take_next (tmp.set i c) hi, Vector.getElem_set_self, Vector.toList_set, List.take_set_of_le (Nat.le_refl i)]

/-- The loop puts the digits behind what is in the array, the least significant first. -/
theorem digitsWhile_digits (tmp : Vector Byte 20) (hlen : i + (Nat.digits 10 v).length ≤ 20) :
    ∃ tmp', digitsWhile v i tmp = some (i + (Nat.digits 10 v).length, tmp') ∧
      tmp'.toList.take (i + (Nat.digits 10 v).length) = tmp.toList.take i ++ (Nat.digits 10 v).map digit := by
  induction v using Nat.strong_induction_on generalizing i tmp with
  | _ v ih =>
    rw [digitsWhile]
    split
    · rename_i hv
      have hdigits : Nat.digits 10 v = v % 10 :: Nat.digits 10 (v / 10) := Nat.digits_def' (by decide) hv
      rw [hdigits, List.length_cons] at hlen ⊢
      have hi : i < 20 := by omega
      obtain ⟨tmp', hrun, htake⟩ := ih (v / 10) (Nat.div_lt_self hv (by decide))
        (tmp.set i (BitVec.ofNat 8 (0x30 + v % 10))) (show i + 1 + (Nat.digits 10 (v / 10)).length ≤ 20 by omega)
      rw [dif_pos hi, show i + ((Nat.digits 10 (v / 10)).length + 1) = i + 1 + (Nat.digits 10 (v / 10)).length by omega]
      refine ⟨tmp', hrun, ?_⟩
      rw [htake, take_set tmp hi, List.append_assoc]
      rfl
    · rename_i hv
      cases Nat.eq_zero_of_not_pos hv
      exact ⟨tmp, rfl, (List.append_nil _).symm⟩

/-- The loop takes the first `i` bytes of the array from the back. -/
theorem turnWhile_reverses {j : Nat} (tmp : Vector Byte 20) (hw : Wrote m m₁ buf s) (hroom : m.Room buf n)
    (hj : s.length = j) (hi : i ≤ 20) (hn : j + i ≤ n) :
    ∃ m', turnWhile tmp buf i j m₁ = some (j + i, m') ∧ Wrote m m' buf (s ++ (tmp.toList.take i).reverse) := by
  induction i generalizing s m₁ j with
  | zero => exact ⟨m₁, rfl, by simpa using hw⟩
  | succ i ih =>
    obtain ⟨m₂, hwrite, hw₂⟩ := hw.next hroom hj (by omega) tmp[i]
    have hlen : (s ++ [tmp[i]]).length = j + 1 := by rw [List.length_append, hj, List.length_singleton]
    obtain ⟨m', hrun, hw'⟩ := ih hw₂ hlen (by omega) (by omega)
    refine ⟨m', ?_, ?_⟩
    · rw [turnWhile, dif_pos (by omega), hwrite]
      refine hrun.trans ?_
      rw [Nat.add_assoc, Nat.add_comm 1]
    · rw [take_next tmp (by omega), List.reverse_append, List.reverse_singleton, ← List.append_assoc]
      exact hw'

/-- The buffer holds the numeral of the number and a zero. -/
theorem u64ToDec_wrote (tmp : Vector Byte 20) (hroom : m.Room buf 21) (hv : v < 2 ^ 64) :
    ∃ m', u64ToDec m v buf tmp = some (buf, m') ∧ Wrote m m' buf (numeral 10 v ++ [0]) := by
  have hstart := Wrote.nil m buf
  unfold u64ToDec numeral
  split
  · obtain ⟨m₁, hwrite₁, hw₁⟩ := hstart.next (j := 0) hroom rfl (by decide) 0x30
    obtain ⟨m₂, hwrite₂, hw₂⟩ := hw₁.next (j := 1) hroom rfl (by decide) 0
    refine ⟨m₂, ?_, hw₂⟩
    simp only [hwrite₁, hwrite₂, Option.bind_eq_bind, Option.bind_some, Option.pure_def]
  · have hlen : (Nat.digits 10 v).length ≤ 20 := (Nat.digits_length_le_iff (by decide) v).mpr (by omega)
    obtain ⟨tmp', hdigits, htake⟩ := digitsWhile_digits (v := v) (i := 0) tmp (by omega)
    rw [Nat.zero_add] at hdigits htake
    rw [List.take_zero, List.nil_append] at htake
    obtain ⟨m₁, hturn, hw₁⟩ := turnWhile_reverses tmp' hstart hroom rfl hlen (show 0 + _ ≤ 21 by omega)
    rw [htake, List.nil_append] at hw₁
    have hlast : ((Nat.digits 10 v).map digit).reverse.length = 0 + (Nat.digits 10 v).length := by
      rw [List.length_reverse, List.length_map, Nat.zero_add]
    obtain ⟨m₂, hwrite, hw₂⟩ := hw₁.next hroom hlast (by omega) 0
    refine ⟨m₂, ?_, hw₂⟩
    rw [List.length_nil] at hturn
    simp only [hdigits, hturn, hwrite, Option.bind_eq_bind, Option.bind_some, Option.pure_def]

/-- So it holds a string, the numeral. -/
theorem u64ToDec_string (tmp : Vector Byte 20) (hroom : m.Room buf 21) (hv : v < 2 ^ 64) :
    ∃ m', u64ToDec m v buf tmp = some (buf, m') ∧ (∀ x, x < buf ∨ buf + 21 ≤ x → m' x = m x) ∧
      StringAt m' buf (numeral 10 v) := by
  obtain ⟨m', hrun, hw⟩ := u64ToDec_wrote tmp hroom hv
  have hlen : (numeral 10 v).length ≤ 20 := numeral_length (by decide) (by decide) (by omega)
  have hin := hroom.inside
  have hnonzero : ∀ c ∈ numeral 10 v, c ≠ 0 := by
    rintro c hc rfl
    exact absurd (numeral_digit (by decide) (by decide) _ hc).1 (by decide)
  refine ⟨m', hrun, fun x hx => hw.outside x ?_, hw.string hroom.notNull (by omega) hnonzero⟩
  rw [List.length_append, List.length_singleton]
  omega

end U64ToDec

/-- **`u64_to_dec` is exact**: with 21 bytes to write to, and no others, it returns a string
of decimal digits, without a zero in front, whose value is the number. The string is that
of no other number, whatever the buffers and the local arrays are. -/
theorem u64ToDec_exact {m : Object} {v buf : Nat} (tmp : Vector Byte 20) (hroom : m.Room buf 21) (hv : v < 2 ^ 64) :
    ∃ m' s, u64ToDec m v buf tmp = some (buf, m') ∧ (∀ x, x < buf ∨ buf + 21 ≤ x → m' x = m x) ∧
      StringAt m' buf s ∧ IsNumeral 10 s ∧ (v = 0 → s = [digit 0]) ∧ value 10 s = v ∧
      ∀ m₁ m₁' v₁ buf₁ tmp₁, m₁.Room buf₁ 21 → v₁ < 2 ^ 64 → u64ToDec m₁ v₁ buf₁ tmp₁ = some (buf₁, m₁') →
        StringAt m₁' buf₁ s → v₁ = v := by
  obtain ⟨m', hrun, hsame, hstring⟩ := u64ToDec_string tmp hroom hv
  refine ⟨m', numeral 10 v, hrun, hsame, hstring, numeral_isNumeral (by decide) (by decide), fun hzero => ?_,
    value_numeral (by decide) (by decide), fun m₁ m₁' v₁ buf₁ tmp₁ hroom₁ hv₁ hrun₁ hstring₁ => ?_⟩
  · rw [hzero]
    rfl
  · obtain ⟨m₂, hrun₂, _, hstring₂⟩ := u64ToDec_string tmp₁ hroom₁ hv₁
    rw [hrun₁] at hrun₂
    cases hrun₂
    have hvalue := congrArg (value 10) (hstring₂.unique hstring₁)
    rwa [value_numeral (by decide) (by decide), value_numeral (by decide) (by decide)] at hvalue

/-- The largest number, in a buffer that holds other bytes. -/
theorem u64ToDec_exact_largest : ∃ m' s,
    u64ToDec (.bytes 0x1000 (List.replicate 21 0xFF)) (2 ^ 64 - 1) 0x1000 (.replicate 20 0xCC) = some (0x1000, m') ∧
    StringAt m' 0x1000 s ∧ value 10 s = 18446744073709551615 := by
  have hroom : (Object.bytes 0x1000 (List.replicate 21 0xFF)).Room 0x1000 21 :=
    Object.bytes_room (by decide) (by decide)
  obtain ⟨m', s, hrun, _, hstring, _, _, hvalue, _⟩ := u64ToDec_exact (Vector.replicate 20 0xCC) hroom
    (show 2 ^ 64 - 1 < 2 ^ 64 by decide)
  exact ⟨m', s, hrun, hstring, hvalue⟩

end ArcMonark.Lib
