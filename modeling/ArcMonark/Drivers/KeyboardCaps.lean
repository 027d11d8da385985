import ArcMonark.Drivers.Keyboard
import Mathlib.Algebra.Ring.Parity

/-! Caps lock (`keyboard_handler`).

The handler flips caps lock on every make code of its key. A key that is held sends its
make code again and again, and the handler keeps no record of which keys are held: caps
lock flips with each of them. `caps_tracks_iff` says that nothing else goes wrong. -/
namespace ArcMonark.Drivers
open Library

/-- The break code of caps lock, of which the handler takes no notice. -/
def scCapsUp : UInt8 := 0xBA

def CapsHeld (bytes : List UInt8) : Prop := Held scCapsDown scCapsUp bytes

instance (bytes : List UInt8) : Decidable (CapsHeld bytes) := inferInstanceAs (Decidable (Held _ _ _))

/-- The presses of caps lock: its make codes that come while it is not held. -/
def capsPresses (bytes : List UInt8) : Nat :=
  (List.range bytes.length).countP fun n => bytes[n]? = some scCapsDown ∧ ¬ CapsHeld (bytes.take n)

/-- After each byte the flag is the parity of the presses. -/
def CapsTracks (bytes : List UInt8) : Prop :=
  ∀ seen, seen <+: bytes → ((scan .start seen).capsLock = 1 ↔ Odd (capsPresses seen))

/-- Caps lock sends no make code while it is held. -/
def CapsUnrepeated (bytes : List UInt8) : Prop :=
  ∀ seen b, seen ++ [b] <+: bytes → ¬ (b = scCapsDown ∧ CapsHeld seen)

theorem capsPresses_snoc (bytes : List UInt8) (b : UInt8) :
    capsPresses (bytes ++ [b]) = capsPresses bytes + if b = scCapsDown ∧ ¬ CapsHeld bytes then 1 else 0 := by
  unfold capsPresses
  rw [List.length_append, List.length_singleton, List.range_succ, List.countP_append]
  congr 1
  · -- The last byte does not reach the positions in front of it.
    refine List.countP_congr fun n hn => ?_
    rw [List.mem_range] at hn
    rw [List.getElem?_append_left hn, List.take_append_of_le_length hn.le]
  · rw [List.countP_singleton, List.getElem?_concat_length, List.take_left]
    simp only [Option.some.injEq, decide_eq_true_eq]

/-- The shift keys, the ring and the event queue do not concern the flag. -/
theorem handler_capsLock (s : Keyboard) (sc : UInt8) :
    (keyboardHandler s sc).1.capsLock = if sc = scCapsDown then s.capsLock ^^^ 1 else s.capsLock := by
  have hstore : ∀ (s : Keyboard) (c : Char), (storeChar s c).capsLock = s.capsLock := fun s c => by
    unfold storeChar
    dsimp only
    split <;> rfl
  have hmodifiers : (updateModifiers s sc).capsLock =
      if sc = scCapsDown then s.capsLock ^^^ 1 else s.capsLock := by
    unfold updateModifiers
    split
    · rename_i hshift
      rcases hshift with rfl | rfl <;> rfl
    · split
      · rename_i hshift
        rcases hshift with rfl | rfl <;> rfl
      · split <;> rfl
  unfold keyboardHandler
  split
  · rename_i hpre
    subst hpre
    rfl
  · rw [← hmodifiers]
    dsimp only
    split
    · split
      · exact hstore _ _
      · rfl
    · rfl

theorem flip_le_one {c : Nat} (h : c ≤ 1) : c ^^^ 1 ≤ 1 := by
  rcases Nat.le_one_iff_eq_zero_or_eq_one.mp h with rfl | rfl <;> decide

theorem flip_eq_one_iff {c : Nat} (h : c ≤ 1) : c ^^^ 1 = 1 ↔ ¬ c = 1 := by
  rcases Nat.le_one_iff_eq_zero_or_eq_one.mp h with rfl | rfl <;> decide

/-- The flag is never anything but 0 and 1. -/
theorem scan_capsLock_le (bytes : List UInt8) : (scan .start bytes).capsLock ≤ 1 := by
  induction bytes using List.reverseRecOn with
  | nil => exact Nat.zero_le _
  | append_singleton bytes b ih =>
    rw [scan_snoc, handler_capsLock]
    split
    · exact flip_le_one ih
    · exact ih

/-- One byte more: the flag stays right unless the make code is a repeat. -/
theorem caps_step {s : Keyboard} {seen : List UInt8} (hle : s.capsLock ≤ 1)
    (h : s.capsLock = 1 ↔ Odd (capsPresses seen)) (b : UInt8) :
    ((keyboardHandler s b).1.capsLock = 1 ↔ Odd (capsPresses (seen ++ [b]))) ↔
      ¬ (b = scCapsDown ∧ CapsHeld seen) := by
  have hflip := flip_eq_one_iff hle
  rw [handler_capsLock, capsPresses_snoc]
  by_cases hb : b = scCapsDown
  · by_cases hheld : CapsHeld seen
    · have hparity : ¬ (¬ Odd (capsPresses seen) ↔ Odd (capsPresses seen)) := not_iff_self
      simpa [hb, hheld, hflip, h] using hparity
    · simp [hb, hheld, hflip, h, Nat.odd_add_one]
  · simp [hb, h]

/-- The key is held for a while, and one press has turned caps lock on and off again. -/
theorem caps_repeat_lost : ¬ CapsTracks [0x3A, 0x3A] := by
  intro h
  have hone : Odd (capsPresses [0x3A, 0x3A]) := by decide
  exact absurd ((h [0x3A, 0x3A] (List.prefix_refl _)).mpr hone) (by decide)

/-- **Caps lock flips once per press** through a stream of scancodes if and only if it
sends no make code while it is held. -/
theorem caps_tracks_iff (bytes : List UInt8) : CapsTracks bytes ↔ CapsUnrepeated bytes := by
  refine forall_prefix_iff ?_ fun seen b _ h => ?_
  · decide
  · rw [scan_snoc]
    exact caps_step (scan_capsLock_le seen) h b

end ArcMonark.Drivers
