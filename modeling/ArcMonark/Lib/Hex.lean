import ArcMonark.Library.Numerals
import ArcMonark.Library.Objects

/-! Numbers in 16 hexadecimal digits, as `print_hex` and `serial_write_hex` write them. -/
namespace ArcMonark.Lib
open Library

/-- `"0123456789ABCDEF"[d]` -/
def hexDigit (d : Nat) : Byte := (text "0123456789ABCDEF").getD d 0

def hexText (v : Nat) : List Byte := text "0x" ++ fixed hexDigit 16 16 v

theorem hexDigit_inj : ∀ d < 16, ∀ d' < 16, hexDigit d = hexDigit d' → d = d' := by decide +kernel

theorem hexDigit_plain : ∀ d < 16, hexDigit d ≠ 0 ∧ hexDigit d ≠ 0x0A := by decide +kernel

section Hex
variable {v v' : Nat}

theorem hexText_length (v : Nat) : (hexText v).length = 18 := by
  rw [hexText, List.length_append, fixed_length]
  rfl

/-- Different numbers are written differently. -/
theorem hexText_inj (hv : v < 2 ^ 64) (hv' : v' < 2 ^ 64) (h : hexText v = hexText v') : v = v' :=
  fixed_inj hexDigit_inj (by omega) (by omega) (List.append_cancel_left h)

theorem hexText_plain (v : Nat) : ∀ c ∈ hexText v, c ≠ 0 ∧ c ≠ 0x0A := by
  intro c hc
  rcases List.mem_append.mp hc with hpre | hdigit
  · have hall : ∀ c ∈ text "0x", c ≠ 0 ∧ c ≠ 0x0A := by decide
    exact hall c hpre
  · obtain ⟨d, hd, rfl⟩ := fixed_digit (by decide) hdigit
    exact hexDigit_plain d hd

/-- The digit that the code picks out. -/
theorem nibble_eq (v i : Nat) : (v >>> (i * 4)) &&& 0xF = v / 16 ^ i % 16 := by
  rw [Nat.shiftRight_eq_div_pow, Nat.mul_comm i 4, Nat.pow_mul]
  exact Nat.and_two_pow_sub_one_eq_mod _ 4

end Hex

end ArcMonark.Lib
