import ArcMonark.Lib.Hex
import ArcMonark.Lib.U64ToDec

/-! The serial port (`drivers/serial.c`).

`serial_init` sets the chip's queue of 16 bytes to work, and leaves the chip looped back on
itself if it fails its own test; what it returns says so, and nobody asks. After it a byte is
written when the queue is empty. Here is the chip and what one task writes;
`SerialShared.lean` has many tasks on the one port. -/
namespace ArcMonark.Drivers
open Library Lib

/-! ### The chip -/

/-- A 16550: its registers, and its transmitter. -/
structure Uart where
  ier : Byte
  lcr : Byte
  fcr : Byte
  mcr : Byte
  /-- The divisor latch, its low and its high byte. -/
  dll : Byte
  dlm : Byte
  /-- The last byte received. -/
  rbr : Byte
  /-- The bytes that wait in the transmitter. -/
  queue : List Byte
  /-- What has gone out of the port. -/
  sent : List Byte

namespace Uart

def divisorLatch (u : Uart) : Bool := u.lcr.getLsbD 7

def loopback (u : Uart) : Bool := u.mcr.getLsbD 4

/-- How many bytes the transmitter holds. -/
def room (u : Uart) : Nat := if u.fcr.getLsbD 0 then 16 else 1

/-- A byte for the transmitter. In loopback it is received, changed as the chip changes it;
otherwise it waits for its turn, and it is lost if there is no room for it. -/
def give (echo : Byte → Byte) (u : Uart) (v : Byte) : Uart :=
  if u.loopback then {u with rbr := echo v}
  else if u.queue.length < u.room then {u with queue := u.queue ++ [v]}
  else u

/-- `outb(COM1 + reg, v)`. Bit 2 of the register of the queues empties the transmitter's. -/
def out (echo : Byte → Byte) (u : Uart) (reg : Nat) (v : Byte) : Uart :=
  match reg with
  | 0 => if u.divisorLatch then {u with dll := v} else u.give echo v
  | 1 => if u.divisorLatch then {u with dlm := v} else {u with ier := v}
  | 2 => {u with fcr := v, queue := if v.getLsbD 2 then [] else u.queue}
  | 3 => {u with lcr := v}
  | 4 => {u with mcr := v}
  | _ => u

/-- The transmitter puts its next byte on the line. -/
def transmit (u : Uart) : Uart := {u with queue := u.queue.tail, sent := u.sent ++ u.queue.take 1}

/-- `inb(COM1 + 5)`. Bit 5 says whether the transmitter is empty; `other` has the other bits. -/
def lineStatus (u : Uart) (other : Byte) : Byte := (other &&& 0xDF) ||| if u.queue.isEmpty then 0x20 else 0

section Out
variable (echo : Byte → Byte) {u : Uart} (v : Byte)

theorem out_control : u.out echo 3 v = {u with lcr := v} ∧ u.out echo 4 v = {u with mcr := v} := ⟨rfl, rfl⟩

theorem out_queues (h : v.getLsbD 2 = true) : u.out echo 2 v = {u with fcr := v, queue := []} := by
  rw [out, if_pos h]

theorem out_latch (h : u.lcr = 0x80) :
    u.out echo 0 v = {u with dll := v} ∧ u.out echo 1 v = {u with dlm := v} := by
  have hlatch : u.divisorLatch = true := by
    rw [divisorLatch, h]
    decide
  constructor
  · rw [out, if_pos hlatch]
  · rw [out, if_pos hlatch]

theorem out_data (h : u.divisorLatch = false) : u.out echo 0 v = u.give echo v := by
  rw [out, h, if_neg (by decide)]

theorem out_loopback (h : u.lcr = 0x03) (hmcr : u.mcr = 0x1E) : u.out echo 0 v = {u with rbr := echo v} := by
  have hlatch : u.divisorLatch = false := by
    rw [divisorLatch, h]
    decide
  have hloop : u.loopback = true := by
    rw [loopback, hmcr]
    decide
  rw [out_data echo v hlatch, give, if_pos hloop]

/-- Only the chip's transmitter is changed by a byte for it, outside of loopback. -/
theorem give_open (hloop : u.loopback = false) : u.give echo v =
    {u with queue := if u.queue.length < u.room then u.queue ++ [v] else u.queue} := by
  rw [give, hloop, if_neg (by decide)]
  split <;> rfl

end Out

end Uart

/-- What is returned, and the chip. -/
def serialInit (echo : Byte → Byte) (u : Uart) : Nat × Uart :=
  let u := u.out echo 1 0x00
  let u := u.out echo 3 0x80
  let u := u.out echo 0 0x03
  let u := u.out echo 1 0x00
  let u := u.out echo 3 0x03
  let u := u.out echo 2 0xC7
  let u := u.out echo 4 0x0B
  let u := u.out echo 4 0x1E
  let u := u.out echo 0 0xAE
  if u.rbr ≠ 0xAE then (1, u) else (0, u.out echo 4 0x0F)

/-- Whatever the chip was set to: 38400 baud, eight bits, and an empty queue at work. It is
connected to the port exactly if it echoed the byte of the test, and nothing of the test was sent. -/
theorem serialInit_sets (echo : Byte → Byte) (u : Uart) :
    let r := serialInit echo u
    r.2.room = 16 ∧ r.2.lcr = 0x03 ∧ r.2.dll.toNat + 256 * r.2.dlm.toNat = 3 ∧ r.2.divisorLatch = false ∧
      (r.2.loopback = false ↔ r.1 = 0) ∧ (r.1 = 0 ↔ echo 0xAE = 0xAE) ∧ r.2.queue = [] ∧ r.2.sent = u.sent := by
  have hsent : (u.out echo 1 0x00).sent = u.sent := by
    by_cases h : u.divisorLatch = true
    · rw [Uart.out, if_pos h]
    · rw [Uart.out, if_neg h]
  have hinit : serialInit echo u =
      let u' : Uart := ⟨(u.out echo 1 0x00).ier, 0x03, 0xC7, 0x1E, 0x03, 0x00, echo 0xAE, [], u.sent⟩
      if echo 0xAE ≠ 0xAE then (1, u') else (0, {u' with mcr := 0x0F}) := by
    rw [← hsent, serialInit]
    generalize u.out echo 1 0x00 = u'
    obtain ⟨ier, lcr, fcr, mcr, dll, dlm, rbr, queue, sent⟩ := u'
    simp only [(Uart.out_control echo _).1, (Uart.out_control echo _).2]
    rw [(Uart.out_latch echo 0x03 (u := ⟨ier, 0x80, fcr, mcr, dll, dlm, rbr, queue, sent⟩) rfl).1,
      (Uart.out_latch echo 0x00 (u := ⟨ier, 0x80, fcr, mcr, 0x03, dlm, rbr, queue, sent⟩) rfl).2,
      Uart.out_queues echo 0xC7 (by decide),
      Uart.out_loopback echo 0xAE (u := ⟨ier, 0x03, 0xC7, 0x1E, 0x03, 0x00, rbr, [], sent⟩) rfl rfl]
  have hroom : (if BitVec.getLsbD (0xC7 : Byte) 0 = true then 16 else 1) = 16 := by decide
  have hlatch : BitVec.getLsbD (0x03 : Byte) 7 = false := by decide
  have hconnected : BitVec.getLsbD (0x0F : Byte) 4 = false := by decide
  have hloop : BitVec.getLsbD (0x1E : Byte) 4 ≠ false := by decide
  rw [hinit]
  by_cases hecho : echo 0xAE = 0xAE
  · rw [if_neg (not_not.mpr hecho)]
    exact ⟨hroom, rfl, rfl, hlatch, iff_of_true hconnected rfl, iff_of_true rfl hecho, rfl, rfl⟩
  · rw [if_pos hecho]
    exact ⟨hroom, rfl, rfl, hlatch, iff_of_false hloop Nat.one_ne_zero, iff_of_false Nat.one_ne_zero hecho, rfl, rfl⟩

def txEmpty (u : Uart) (other : Byte) : Byte := u.lineStatus other &&& 0x20

/-- Whatever else the chip reports. -/
theorem txEmpty_iff (u : Uart) (other : Byte) : txEmpty u other ≠ 0 ↔ u.queue = [] := by
  have hother : other &&& 0xDF &&& 0x20 = 0#8 := by
    rw [BitVec.and_assoc]
    exact BitVec.and_zero
  rw [txEmpty, Uart.lineStatus, BitVec.and_or_distrib_right, hother, BitVec.zero_or]
  cases u.queue with
  | nil => decide
  | cons c cs => simp

/-! ### Writing -/

/-- The bytes that `serial_putc` writes. In front of each it waits until `tx_empty`. -/
def serialPutc (c : Byte) : List Byte := if c = 0x0A then [0x0D, c] else [c]

def serialWriteWhile (m : Object) : (fuel s : Nat) → Option (List Byte)
  | 0, _ => none
  | fuel + 1, s => do
    if (← m s) ≠ 0 then return serialPutc (← m s) ++ (← serialWriteWhile m fuel (add64 s 1)) else return []

/-- The bytes that `serial_write` writes, for a string in memory. -/
def serialWrite (m : Object) (s : Nat) : Option (List Byte) := serialWriteWhile m (2 ^ 64) s

/-- The loop of `serial_write_hex`. -/
def serialWriteHexFor (v : Nat) : (fuel : Nat) → (i : Int) → List Byte
  | 0, _ => []
  | fuel + 1, i =>
    if i ≥ 0 then serialPutc (hexDigit ((v >>> i.toNat) &&& 0xF)) ++ serialWriteHexFor v fuel (i - 4) else []

/-- The bytes that `serial_write_hex` writes. -/
def serialWriteHex (v : Nat) : Option (List Byte) := do
  return (← serialWrite (literal "0x") literalAt) ++ serialWriteHexFor v 16 60

/-- A text with the line ends that a terminal wants. -/
def lines (s : List Byte) : List Byte := s.flatMap serialPutc

theorem serialWriteWhile_string {m : Object} {a : Nat} {s : List Byte} (h : StringAt m a s) {fuel : Nat}
    (hfuel : s.length < fuel) : serialWriteWhile m fuel a = some (lines s) := by
  induction h generalizing fuel with
  | stop _ _ hstop =>
    cases fuel with
    | zero => omega
    | succ fuel => simp [serialWriteWhile, hstop, lines]
  | @char a c s _ hchar hc hrest ih =>
    rw [List.length_cons] at hfuel
    cases fuel with
    | zero => omega
    | succ fuel =>
      have hnext := ih (show s.length < fuel by omega)
      rw [serialWriteWhile, hrest.step, hchar]
      simp only [Option.bind_eq_bind, Option.bind_some, if_pos hc, hnext, lines, List.flatMap_cons, Option.pure_def]

theorem serialWrite_string {m : Object} {a : Nat} {s : List Byte} (h : StringAt m a s) :
    serialWrite m a = some (lines s) := by
  have hin := h.inside
  exact serialWriteWhile_string h (by omega)

theorem lines_plain {s : List Byte} (h : ∀ c ∈ s, c ≠ 0x0A) : lines s = s := by
  induction s with
  | nil => rfl
  | cons c s ih =>
    rw [List.forall_mem_cons] at h
    rw [lines, List.flatMap_cons, serialPutc, if_neg h.1]
    exact congrArg (c :: ·) (ih h.2)

theorem lines_numeral (v : Nat) : lines (numeral 10 v) = numeral 10 v := by
  refine lines_plain fun c hc => ?_
  rintro rfl
  exact absurd (numeral_digit (by decide) (by decide) _ hc).1 (by decide)

theorem serialWriteHexFor_eq (v : Nat) {fuel : Nat} (hfuel : fuel ≤ 16) (i : Int) (hi : i = 4 * fuel - 4) :
    serialWriteHexFor v fuel i = (List.range' (16 - fuel) fuel).map fun i => hexDigit (v / 16 ^ (15 - i) % 16) := by
  induction fuel generalizing i with
  | zero => rfl
  | succ fuel ih =>
    have hshift : i.toNat = fuel * 4 := by omega
    have hplain : hexDigit (v / 16 ^ fuel % 16) ≠ 0x0A := (hexDigit_plain _ (Nat.mod_lt _ (by decide))).2
    rw [serialWriteHexFor, if_pos (by omega), ih (by omega) (i - 4) (by omega), hshift, nibble_eq, serialPutc,
      if_neg hplain, List.range'_succ, List.map_cons, show 15 - (16 - (fuel + 1)) = fuel by omega,
      show 16 - (fuel + 1) + 1 = 16 - fuel by omega]
    rfl

/-- `serial_write_hex` writes what `print_hex` shows. -/
theorem serialWriteHex_eq (v : Nat) : serialWriteHex v = some (hexText v) := by
  have hstring := serialWrite_string (literal_string (w := "0x") (.ofList (by decide) (by decide)))
  have hplain : lines (text "0x") = text "0x" := by decide
  rw [serialWriteHex, hstring, hplain, serialWriteHexFor_eq v (Nat.le_refl 16) 60 (by decide)]
  rfl

end ArcMonark.Drivers
