import Mathlib.Data.UInt

/-! The 8042 controller of a PC's keyboard and mouse.

The keyboard, the mouse and the controller itself answer through one output buffer of one
byte, and the status tells whose byte is in it. A byte for the controller or, with a command
in front, for the mouse goes through an input buffer, and the controller takes it in its own
time. `Link` is the controller as a program polls it: `Timing` leaves open after how many
looks at the status it does what it has to do, and a byte written over one that it has not
taken is an overrun. -/
namespace ArcMonark.Library.I8042

theorem exists_byte (b : UInt8) : ∃ i : Fin 256, UInt8.ofNat i = b := ⟨⟨b.toNat, b.toNat_lt⟩, UInt8.ofNat_toNat⟩

inductive Port where
  | data | command
  deriving DecidableEq

/-- Whose byte is in the output buffer. What the controller answers counts as the keyboard's. -/
inductive Source where
  | keyboard | aux
  deriving DecidableEq

/-- For whom the next byte at the data port is. -/
inductive Expects where
  | keyboard | commandByte | aux
  deriving DecidableEq

structure Chip where
  commandByte : UInt8
  expects : Expects
  output : Option (Source × UInt8)
  /-- What a read of the empty buffer returns. -/
  last : UInt8
  /-- The mouse sends its movements. -/
  reporting : Bool
  /-- Bits of the status that have nothing to do with the buffers. -/
  flags : UInt8

namespace Chip

/-- A byte of the source requests an interrupt. -/
def interrupts (c : Chip) : Source → Bool
  | .keyboard => c.commandByte &&& 0x01 ≠ 0
  | .aux => c.commandByte &&& 0x02 ≠ 0

/-- The device of the source has a clock, without which it is silent. -/
def clocked (c : Chip) : Source → Bool
  | .keyboard => c.commandByte &&& 0x10 = 0
  | .aux => c.commandByte &&& 0x20 = 0

def put (c : Chip) (src : Source) (b : UInt8) : Chip := {c with output := some (src, b)}

/-- A read of the data port. -/
def read (c : Chip) : UInt8 × Chip :=
  match c.output with
  | some (_, b) => (b, {c with output := none, last := b})
  | none => (c.last, c)

/-- The status register, with whose byte is in the output buffer and whether one is in the
input buffer. -/
def statusOf (flags : UInt8) (holder : Option Source) (full : Bool) : UInt8 :=
  flags &&& 0xDC ||| (if holder.isSome then 0x01 else 0) ||| (if full then 0x02 else 0) |||
    if holder = some .aux then 0x20 else 0

def status (c : Chip) (full : Bool) : UInt8 := statusOf c.flags (c.output.map Prod.fst) full

theorem statusOf_bits (flags : UInt8) (holder : Option Source) (full : Bool) :
    (statusOf flags holder full &&& 0x01 = 0 ↔ holder = none) ∧
      (statusOf flags holder full &&& 0x02 = 0 ↔ full = false) ∧
      (statusOf flags holder full &&& 0x20 = 0 ↔ holder ≠ some .aux) := by
  obtain ⟨i, rfl⟩ := exists_byte flags
  rcases holder with _ | _ | _ <;> cases full <;> revert i <;> decide +kernel

/-- The mouse takes a command, and acknowledges it. -/
def auxReceive (c : Chip) (b : UInt8) : Chip × Option (Source × UInt8) :=
  if !c.clocked .aux then (c, none)
  else if b = 0xF6 then ({c with reporting := false}, some (.aux, 0xFA))
  else if b = 0xF4 then ({c with reporting := true}, some (.aux, 0xFA))
  else (c, some (.aux, 0xFE))

/-- What a byte from the input buffer does, and what comes back. -/
def receive (c : Chip) : Port → UInt8 → Chip × Option (Source × UInt8)
  | .command, b =>
    if b = 0xA8 then ({c with commandByte := c.commandByte &&& ~~~0x20}, none)
    else if b = 0x20 then (c, some (.keyboard, c.commandByte))
    else if b = 0x60 then ({c with expects := .commandByte}, none)
    else if b = 0xD4 then ({c with expects := .aux}, none)
    else (c, none)
  | .data, b =>
    match c.expects with
    | .keyboard => (c, none)
    | .commandByte => ({c with commandByte := b, expects := .keyboard}, none)
    | .aux => auxReceive {c with expects := .keyboard} b

end Chip

/-- After how many looks at the status the controller takes the `n`th byte, and after how
many more the answer is there. -/
structure Timing where
  taking : Nat → Nat
  answering : Nat → Nat

/-- Who looks that often sees every answer. -/
def Timing.Within (τ : Timing) (looks : Nat) : Prop := ∀ n, τ.taking n + τ.answering n < looks

structure Link where
  chip : Chip
  /-- The byte in the input buffer, and for how long. -/
  input : Option (Nat × Port × UInt8)
  /-- What is under way to the output buffer. -/
  coming : List (Nat × Source × UInt8)
  written : Nat
  overrun : Bool

namespace Link
variable (τ : Timing)

def accept (l : Link) : Link :=
  match l.input with
  | none => l
  | some (n + 1, p, b) => {l with input := some (n, p, b)}
  | some (0, p, b) =>
    {l with
      chip := (l.chip.receive p b).1, input := none
      coming := l.coming ++ (l.chip.receive p b).2.toList.map fun a => (τ.answering l.written, a)}

def deliver (l : Link) : Link :=
  match l.coming with
  | [] => l
  | (n + 1, a) :: rest => {l with coming := (n, a) :: rest}
  | (0, src, b) :: rest => if l.chip.output.isNone then {l with chip := l.chip.put src b, coming := rest} else l

/-- `inb` of the status port; until then the controller has had time. -/
def inStatus (l : Link) : UInt8 × Link :=
  let l := deliver (l.accept τ)
  (l.chip.status l.input.isSome, l)

/-- `inb` of the data port. -/
def inData (l : Link) : UInt8 × Link := (l.chip.read.1, {l with chip := l.chip.read.2})

/-- `outb` to one of the ports. -/
def out (p : Port) (b : UInt8) (l : Link) : Link :=
  {l with
    input := some (τ.taking (l.written + 1), p, b), written := l.written + 1,
    overrun := l.overrun || l.input.isSome}

/-- A program looks at the status until it is as wanted, but so many times at most. -/
def poll (wanted : UInt8 → Bool) : (looks : Nat) → Link → Link
  | 0, l => l
  | looks + 1, l =>
    let (st, l) := l.inStatus τ
    if wanted st then l else poll wanted looks l

end Link

/-! ### Looking at the status -/

section Status
variable (c : Chip) (full : Bool)

theorem status_output : c.status full &&& 0x01 = 0 ↔ c.output = none := by
  rw [Chip.status, (Chip.statusOf_bits _ _ _).1, Option.map_eq_none_iff]

theorem status_input : c.status full &&& 0x02 = 0 ↔ full = false := (Chip.statusOf_bits _ _ _).2.1

theorem status_aux : c.status full &&& 0x20 = 0 ↔ ∀ b, c.output ≠ some (.aux, b) := by
  rw [Chip.status, (Chip.statusOf_bits _ _ _).2.2]
  simp

/-- What the controller takes in does not touch the output buffer. -/
theorem receive_output (p : Port) (b : UInt8) : (c.receive p b).1.output = c.output := by
  cases p with
  | command =>
    unfold Chip.receive
    dsimp only
    repeat' split
    all_goals rfl
  | data =>
    unfold Chip.receive Chip.auxReceive
    dsimp only
    repeat' split
    all_goals rfl

end Status

section Polling
variable {τ : Timing} {c c' : Chip} {p : Port} {b x : UInt8} {src : Source} {n k looks : Nat} {v : Bool}

/-- The input buffer is empty. -/
def inputEmpty (st : UInt8) : Bool := st &&& 0x02 == 0

/-- The output buffer is full. -/
def outputFull (st : UInt8) : Bool := st &&& 0x01 != 0

theorem inputEmpty_status (full : Bool) : inputEmpty (c.status full) = !full := by
  have hbit := status_input c full
  cases full <;> simpa [inputEmpty] using hbit

theorem outputFull_status (full : Bool) : outputFull (c.status full) = c.output.isSome := by
  have hbit := status_output c full
  cases hout : c.output <;> simpa [outputFull, hout] using hbit

theorem poll_congr {wanted : UInt8 → Bool} {l l' : Link} (h : l.inStatus τ = l'.inStatus τ) :
    Link.poll τ wanted (looks + 1) l = Link.poll τ wanted (looks + 1) l' := by
  rw [Link.poll, Link.poll, h]

theorem poll_ready : Link.poll τ inputEmpty (looks + 1) ⟨c, none, [], n, v⟩ = ⟨c, none, [], n, v⟩ :=
  if_pos (inputEmpty_status false)

/-- Until the controller has taken the byte, which is not answered. -/
theorem poll_taken (hb : c.receive p b = (c', none)) (hk : k < looks) :
    Link.poll τ inputEmpty looks ⟨c, some (k, p, b), [], n, v⟩ = ⟨c', none, [], n, v⟩ := by
  obtain ⟨looks, rfl⟩ := Nat.exists_eq_add_of_lt hk
  induction k with
  | zero =>
    have hlook : Link.inStatus τ ⟨c, some (0, p, b), [], n, v⟩ = Link.inStatus τ ⟨c', none, [], n, v⟩ := by
      simp only [Link.inStatus, Link.accept, hb]
      rfl
    rw [poll_congr hlook, poll_ready]
  | succ k ih =>
    have hbusy : ¬inputEmpty (c.status true) = true := by rw [inputEmpty_status]; simp
    rw [show k + 1 + looks + 1 = k + looks + 1 + 1 by omega, Link.poll]
    exact (if_neg hbusy).trans (ih (by omega))

theorem poll_coming (hout : c.output = none) (hk : k < looks) :
    Link.poll τ outputFull looks ⟨c, none, [(k, src, x)], n, v⟩ = ⟨c.put src x, none, [], n, v⟩ := by
  obtain ⟨looks, rfl⟩ := Nat.exists_eq_add_of_lt hk
  induction k with
  | zero =>
    have hlook : Link.inStatus τ ⟨c, none, [(0, src, x)], n, v⟩ =
        ((c.put src x).status false, ⟨c.put src x, none, [], n, v⟩) := by
      simp only [Link.inStatus, Link.accept, Link.deliver, hout]
      rfl
    rw [Link.poll, hlook]
    exact if_pos (outputFull_status false)
  | succ k ih =>
    have hempty : ¬outputFull (c.status false) = true := by rw [outputFull_status, hout]; simp
    rw [show k + 1 + looks + 1 = k + looks + 1 + 1 by omega, Link.poll]
    exact (if_neg hempty).trans (ih (by omega))

/-- Until the answer to the byte is there. -/
theorem poll_answered (hb : c.receive p b = (c', some (src, x))) (hout : c.output = none)
    (hk : k + τ.answering n < looks) :
    Link.poll τ outputFull looks ⟨c, some (k, p, b), [], n, v⟩ = ⟨c'.put src x, none, [], n, v⟩ := by
  have hout' : c'.output = none := by
    have hkept := receive_output c p b
    rwa [hb, hout] at hkept
  obtain ⟨looks, rfl⟩ := Nat.exists_eq_add_of_lt hk
  induction k with
  | zero =>
    -- the answer may be there with the first look
    have hlook : Link.inStatus τ ⟨c, some (0, p, b), [], n, v⟩ =
        Link.inStatus τ ⟨c', none, [(τ.answering n, src, x)], n, v⟩ := by
      simp only [Link.inStatus, Link.accept, hb]
      rfl
    rw [poll_congr hlook, poll_coming hout' (by omega)]
  | succ k ih =>
    have hempty : ¬outputFull (c.status true) = true := by rw [outputFull_status, hout]; simp
    rw [show k + 1 + τ.answering n + looks + 1 = k + τ.answering n + looks + 1 + 1 by omega, Link.poll]
    exact (if_neg hempty).trans (ih (by omega))

end Polling
end ArcMonark.Library.I8042
