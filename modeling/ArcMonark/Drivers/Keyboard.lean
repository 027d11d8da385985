import ArcMonark.Kernel.Event
import ArcMonark.Library.Runs

/-! The keyboard (`drivers/keyboard.c`).

The interrupt handler reads a scancode, keeps track of the modifier keys, puts the
character of a pressed key into a ring for the shell, and reports the key to the event
queue. One flag stands for both shift keys: a release of one of them clears it, also
while the other is held. -/
namespace ArcMonark.Drivers
open Library Kernel

def scancodeAscii : List Char := [
  '\x00', '\x1b', '1', '2', '3', '4', '5', '6', '7', '8',
  '9', '0', '-', '=', '\x08', '\t', 'q', 'w', 'e', 'r',
  't', 'y', 'u', 'i', 'o', 'p', '[', ']', '\n', '\x00',
  'a', 's', 'd', 'f', 'g', 'h', 'j', 'k', 'l', ';',
  '\x27', '\x60', '\x00', '\x5c', 'z', 'x', 'c', 'v', 'b', 'n',
  'm', ',', '.', '/', '\x00', '*', '\x00', ' ']

def scancodeAsciiShift : List Char := [
  '\x00', '\x1b', '!', '@', '#', '$', '%', '^', '&', '*',
  '(', ')', '_', '+', '\x08', '\t', 'Q', 'W', 'E', 'R',
  'T', 'Y', 'U', 'I', 'O', 'P', '\x7b', '\x7d', '\n', '\x00',
  'A', 'S', 'D', 'F', 'G', 'H', 'J', 'K', 'L', ':',
  '\x22', '~', '\x00', '|', 'Z', 'X', 'C', 'V', 'B', 'N',
  'M', '<', '>', '?', '\x00', '*', '\x00', ' ']

def scLshiftDown : UInt8 := 0x2A
def scRshiftDown : UInt8 := 0x36
def scLshiftUp : UInt8 := 0xAA
def scRshiftUp : UInt8 := 0xB6
def scCapsDown : UInt8 := 0x3A

def kbdBufSize : Nat := 256

structure Keyboard where
  shiftDown : Nat
  capsLock : Nat
  kbdBuf : Nat → Char
  /-- Where the next character is written. -/
  kbdHead : Nat
  /-- Where the next character is read. -/
  kbdTail : Nat

/-- The variables as the kernel starts. -/
def Keyboard.start : Keyboard :=
  {shiftDown := 0, capsLock := 0, kbdBuf := fun _ => '\x00', kbdHead := 0, kbdTail := 0}

def isLetter (c : Char) : Bool := decide ('a' ≤ c ∧ c ≤ 'z')

def updateModifiers (s : Keyboard) (sc : UInt8) : Keyboard :=
  if sc = scLshiftDown ∨ sc = scRshiftDown then {s with shiftDown := 1}
  else if sc = scLshiftUp ∨ sc = scRshiftUp then {s with shiftDown := 0}
  else if sc = scCapsDown then {s with capsLock := s.capsLock ^^^ 1}
  else s

/-- The character of a key, or 0; the tables are 0 behind their last entries. -/
def asciiOf (s : Keyboard) (code : UInt8) : Char :=
  let plain := scancodeAscii.getD code.toNat '\x00'
  let shifted := scancodeAsciiShift.getD code.toNat '\x00'
  let c := if s.shiftDown ≠ 0 then shifted else plain
  if s.capsLock ≠ 0 ∧ isLetter plain then
    let upper := s.capsLock ^^^ s.shiftDown
    if upper ≠ 0 then shifted else plain
  else c

/-- Puts a character into the ring, unless it is full. -/
def storeChar (s : Keyboard) (c : Char) : Keyboard :=
  let next := (s.kbdHead + 1) % 2 ^ 32 % kbdBufSize
  if next ≠ s.kbdTail then {s with kbdBuf := Function.update s.kbdBuf s.kbdHead c, kbdHead := next} else s

/-- The handler on a scancode, and the event that it pushes. -/
def keyboardHandler (s : Keyboard) (sc : UInt8) : Keyboard × Option Event :=
  if sc = 0xE0 then (s, none)
  else
    let isBreak := sc &&& 0x80
    let code := sc &&& 0x7F
    let s := updateModifiers s sc
    let c := asciiOf s code
    let s := if isBreak = 0 then if c ≠ '\x00' then storeChar s c else s else s
    (s, some {Event.zero with type := if isBreak ≠ 0 then .keyUp else .keyDown, ch := c, scancode := code})

def keyboardHaskey (s : Keyboard) : Bool := decide (s.kbdHead ≠ s.kbdTail)

/-- The handler on one scancode after another. -/
def scan (s : Keyboard) (bytes : List UInt8) : Keyboard := bytes.foldl (fun s sc => (keyboardHandler s sc).1) s

theorem scan_snoc (s : Keyboard) (bytes : List UInt8) (b : UInt8) :
    scan s (bytes ++ [b]) = (keyboardHandler (scan s bytes) b).1 := by simp [scan]

/-! ### The shift keys -/

/-- The key with these codes is held: its last code is that of a press. -/
def Held (down up : UInt8) (bytes : List UInt8) : Prop :=
  (bytes.filter fun b => b = down ∨ b = up).getLast? = some down

instance (down up : UInt8) (bytes : List UInt8) : Decidable (Held down up bytes) :=
  inferInstanceAs (Decidable (_ = _))

def LeftHeld (bytes : List UInt8) : Prop := Held scLshiftDown scLshiftUp bytes

def RightHeld (bytes : List UInt8) : Prop := Held scRshiftDown scRshiftUp bytes

/-- After each byte the flag tells whether a shift key is held. -/
def ShiftTracks (bytes : List UInt8) : Prop :=
  ∀ seen, seen <+: bytes → ((scan .start seen).shiftDown ≠ 0 ↔ LeftHeld seen ∨ RightHeld seen)

/-- No shift key is released while the other one is held. -/
def ReleasesApart (bytes : List UInt8) : Prop :=
  ∀ seen b, seen ++ [b] <+: bytes → ¬ (b = scLshiftUp ∧ RightHeld seen) ∧ ¬ (b = scRshiftUp ∧ LeftHeld seen)

theorem held_snoc {down up : UInt8} (hne : up ≠ down) (bytes : List UInt8) (b : UInt8) :
    Held down up (bytes ++ [b]) ↔ b = down ∨ b ≠ up ∧ Held down up bytes := by
  unfold Held
  rw [List.filter_append]
  by_cases hdown : b = down
  · simp [hdown]
  · by_cases hup : b = up
    · simp [hup, hne]
    · simp [hdown, hup]

/-- The ring and the event queue do not concern the flag. -/
theorem handler_shiftDown (s : Keyboard) (sc : UInt8) :
    (keyboardHandler s sc).1.shiftDown =
      if sc = scLshiftDown ∨ sc = scRshiftDown then 1
      else if sc = scLshiftUp ∨ sc = scRshiftUp then 0 else s.shiftDown := by
  have hstore : ∀ (s : Keyboard) (c : Char), (storeChar s c).shiftDown = s.shiftDown := fun s c => by
    unfold storeChar
    dsimp only
    split <;> rfl
  have hmodifiers : (updateModifiers s sc).shiftDown =
      if sc = scLshiftDown ∨ sc = scRshiftDown then 1
      else if sc = scLshiftUp ∨ sc = scRshiftUp then 0 else s.shiftDown := by
    unfold updateModifiers
    split
    · rfl
    · split
      · rfl
      · split <;> rfl
  unfold keyboardHandler
  split
  · rename_i hpre
    subst hpre
    rfl
  · rw [← hmodifiers]
    dsimp only
    split
    · split
      · exact hstore _ _
      · rfl
    · rfl

/-- One byte more: the flag stays right unless a release forgets the other key. -/
theorem shift_step {s : Keyboard} {seen : List UInt8} (h : s.shiftDown ≠ 0 ↔ LeftHeld seen ∨ RightHeld seen)
    (b : UInt8) : ((keyboardHandler s b).1.shiftDown ≠ 0 ↔ LeftHeld (seen ++ [b]) ∨ RightHeld (seen ++ [b])) ↔
      ¬ (b = scLshiftUp ∧ RightHeld seen) ∧ ¬ (b = scRshiftUp ∧ LeftHeld seen) := by
  unfold LeftHeld RightHeld at h ⊢
  rw [handler_shiftDown, held_snoc (by decide), held_snoc (by decide)]
  by_cases hld : b = scLshiftDown
  · subst hld
    simp [scLshiftDown, scLshiftUp, scRshiftUp]
  · by_cases hrd : b = scRshiftDown
    · subst hrd
      simp [scRshiftDown, scLshiftUp, scRshiftUp]
    · by_cases hlu : b = scLshiftUp
      · subst hlu
        simp [scLshiftDown, scRshiftDown, scLshiftUp, scRshiftUp]
      · by_cases hru : b = scRshiftUp
        · subst hru
          simp [scLshiftDown, scRshiftDown, scLshiftUp, scRshiftUp]
        · simp [hld, hrd, hlu, hru, h]

/-- The right key is still held, and the flag is cleared. -/
theorem shift_lost : ¬ ShiftTracks [0x2A, 0x36, 0xAA] := by
  intro h
  have hheld : RightHeld [0x2A, 0x36, 0xAA] := show Held _ _ _ by decide
  exact (h [0x2A, 0x36, 0xAA] (List.prefix_refl _)).mpr (.inr hheld) rfl

/-- **The flag tracks the shift keys** through a stream of scancodes if and only if no
shift key is released while the other one is held. -/
theorem shift_tracks_iff (bytes : List UInt8) : ShiftTracks bytes ↔ ReleasesApart bytes := by
  refine forall_prefix_iff ?_ fun seen b _ h => ?_
  · simp [scan, Keyboard.start, LeftHeld, RightHeld, Held]
  · rw [scan_snoc]
    exact shift_step h b

end ArcMonark.Drivers
