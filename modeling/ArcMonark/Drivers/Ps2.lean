import ArcMonark.Drivers.Keyboard
import ArcMonark.Drivers.Mouse
import ArcMonark.Library.I8042
import ArcMonark.Library.Runs

/-! The keyboard and the mouse on one controller.

`keyboard_init` throws away what the firmware left, and `mouse_init` switches the mouse on in
a dialogue with the controller (`mouse_enabled`); no key is struck meanwhile. The answers
come with interrupts of their own, which may still wait when interrupts are let in.

From then on both devices send when they like, through one buffer. `mouse_irq` looks whose
byte it is and `keyboard_handler` does not: each byte goes to its driver (`bytes_routed`),
exactly if the mouse's first byte does not come before the interrupt that is left has been
taken (`mouse_bytes_kept_iff`). -/
namespace ArcMonark.Drivers
open Library I8042

section Code
variable (τ : Timing)

def ps2WaitWrite (l : Link) : Link := l.poll τ inputEmpty 100000

def ps2WaitRead (l : Link) : Link := l.poll τ outputFull 100000

def mouseCmd (cmd : UInt8) (l : Link) : Link :=
  let l := (ps2WaitWrite τ l).out τ .command 0xD4
  (ps2WaitWrite τ l).out τ .data cmd

def mouseRead (l : Link) : UInt8 × Link := (ps2WaitRead τ l).inData

/-- `while (inb(0x64) & 1) inb(0x60);` -/
def drainWhile : (fuel : Nat) → Link → Option Link
  | 0, _ => none
  | fuel + 1, l =>
    let (st, l) := l.inStatus τ
    if st &&& 0x01 ≠ 0 then drainWhile fuel l.inData.2 else some l

/-- The ports in `keyboard_init`. -/
def keyboardInitPorts (fuel : Nat) (l : Link) : Option Link := drainWhile τ fuel l

/-- The ports in `mouse_init`. -/
def mouseInitPorts (fuel : Nat) (l : Link) : Option Link := do
  let l ← drainWhile τ fuel l
  let l := (ps2WaitWrite τ l).out τ .command 0xA8
  let l := (ps2WaitWrite τ l).out τ .command 0x20
  let (status, l) := mouseRead τ l
  let status := status ||| 0x02
  let status := status &&& ~~~0x20
  let l := (ps2WaitWrite τ l).out τ .command 0x60
  let l := (ps2WaitWrite τ l).out τ .data status
  let l := mouseCmd τ 0xF6 l
  let (_, l) := mouseRead τ l
  let l := mouseCmd τ 0xF4 l
  let (_, l) := mouseRead τ l
  return l

/-- Both, as `kmain` calls them. -/
def ps2Init (fuel : Nat) (l : Link) : Option Link := (keyboardInitPorts τ fuel l).bind (mouseInitPorts τ fuel)

end Code

/-- The controller as the firmware leaves it, with bytes that nobody has read. -/
def leftOver (c : Chip) (stale : List (Source × UInt8)) : Link := ⟨c, none, stale.map fun a => (0, a), 0, false⟩

/-! ### The dialogue -/

section Dialogue
variable {τ : Timing} {c c' : Chip} {p : Port} {b x : UInt8} {src : Source} {n : Nat} {v : Bool}

/-- A byte without an answer. -/
theorem told (hτ : τ.Within 100000) (hb : c.receive p b = (c', none)) :
    ps2WaitWrite τ (Link.out τ p b ⟨c, none, [], n, v⟩) = ⟨c', none, [], n + 1, v⟩ := by
  have htime : τ.taking (n + 1) < 100000 := (Nat.le_add_right _ _).trans_lt (hτ (n + 1))
  rw [Link.out, Option.isSome_none, Bool.or_false]
  exact poll_taken hb htime

/-- A byte with an answer. -/
theorem asked (hτ : τ.Within 100000) (hb : c.receive p b = (c', some (src, x))) (hout : c.output = none) :
    mouseRead τ (Link.out τ p b ⟨c, none, [], n, v⟩) =
      (x, ⟨{c' with output := none, last := x}, none, [], n + 1, v⟩) := by
  rw [Link.out, Option.isSome_none, Bool.or_false, mouseRead, ps2WaitRead, poll_answered hb hout (hτ (n + 1))]
  rfl

theorem waitWrite_idle : ps2WaitWrite τ ⟨c, none, [], n, v⟩ = ⟨c, none, [], n, v⟩ := poll_ready

/-- Once the buffer is empty, one byte after another comes and is thrown away. -/
theorem drain_empty (hout : c.output = none) (stale : List (Source × UInt8)) {fuel : Nat}
    (hfuel : stale.length < fuel) :
    ∃ x, drainWhile τ fuel ⟨c, none, stale.map fun a => (0, a), n, v⟩ =
      some ⟨{c with output := none, last := x}, none, [], n, v⟩ := by
  induction stale generalizing c fuel with
  | nil =>
    obtain ⟨fuel, rfl⟩ := Nat.exists_eq_add_of_lt hfuel
    have hempty : ¬c.status false &&& 0x01 ≠ 0 := not_not.mpr ((status_output c false).mpr hout)
    refine ⟨c.last, ?_⟩
    rw [List.length_nil, Nat.zero_add, ← hout]
    exact if_neg hempty
  | cons a stale ih =>
    obtain ⟨fuel, rfl⟩ := Nat.exists_eq_add_of_lt hfuel
    obtain ⟨src, b⟩ := a
    have hlook : Link.inStatus τ ⟨c, none, ((src, b) :: stale).map fun a => (0, a), n, v⟩ =
        ((c.put src b).status false, ⟨c.put src b, none, stale.map fun a => (0, a), n, v⟩) := by
      simp only [Link.inStatus, Link.accept, List.map_cons, Link.deliver, hout]
      rfl
    have hfull : (c.put src b).status false &&& 0x01 ≠ 0 := fun h => by cases (status_output _ _).mp h
    obtain ⟨x, hx⟩ := ih (c := {c with output := none, last := b}) rfl
      (show stale.length < stale.length + 1 + fuel by omega)
    refine ⟨x, ?_⟩
    rw [List.length_cons, drainWhile, hlook]
    exact (if_pos hfull).trans hx

theorem drain_spec (stale : List (Source × UInt8)) {fuel : Nat} (hfuel : stale.length + 1 < fuel) :
    ∃ x, drainWhile τ fuel ⟨c, none, stale.map fun a => (0, a), n, v⟩ =
      some ⟨{c with output := none, last := x}, none, [], n, v⟩ := by
  cases hout : c.output with
  | none => exact drain_empty hout stale (by omega)
  | some a =>
    obtain ⟨src, b⟩ := a
    obtain ⟨fuel, rfl⟩ := Nat.exists_eq_add_of_lt hfuel
    have hlook : Link.inStatus τ ⟨c, none, stale.map fun a => (0, a), n, v⟩ =
        (c.status false, ⟨c, none, stale.map fun a => (0, a), n, v⟩) := by
      cases stale with
      | nil => rfl
      | cons a stale =>
        simp only [Link.inStatus, Link.accept, List.map_cons, Link.deliver, hout]
        rfl
    have hfull : c.status false &&& 0x01 ≠ 0 := fun h => by
      rw [(status_output c false).mp h] at hout
      cases hout
    have hread : c.read.2 = {c with output := none, last := b} := by rw [Chip.read, hout]
    obtain ⟨x, hx⟩ := @drain_empty τ {c with output := none, last := b} n v rfl stale
      (stale.length + 1 + fuel) (by omega)
    refine ⟨x, ?_⟩
    rw [drainWhile, hlook]
    refine (if_pos hfull).trans ?_
    rw [Link.inData, hread]
    exact hx

/-- The command byte that `mouse_init` writes. -/
def enabling (b : UInt8) : UInt8 := (b &&& ~~~0x20 ||| 0x02) &&& ~~~0x20

theorem enabling_bits (b : UInt8) : enabling b &&& 0x02 ≠ 0 ∧ enabling b &&& 0x20 = 0 ∧
    enabling b &&& 0xDD = b &&& 0xDD := by
  obtain ⟨i, rfl⟩ := exists_byte b
  revert i
  decide +kernel

/-- The controller behind `mouse_init`. -/
def enabled (c : Chip) : Chip :=
  {c with
    commandByte := enabling c.commandByte, expects := .keyboard, output := none, last := 0xFA, reporting := true}

/-- A command to the mouse, which acknowledges it. -/
theorem mouseCmd_answered (hτ : τ.Within 100000) {l : Link} (hready : ps2WaitWrite τ l = ⟨c, none, [], n, v⟩)
    (hout : c.output = none) (hb : Chip.auxReceive {c with expects := .keyboard} b = (c', some (.aux, 0xFA))) :
    mouseRead τ (mouseCmd τ b l) = (0xFA, ⟨{c' with output := none, last := 0xFA}, none, [], n + 2, v⟩) := by
  have haux : c.receive .command 0xD4 = ({c with expects := .aux}, none) := rfl
  rw [mouseCmd, hready, told hτ haux]
  exact asked hτ hb hout

theorem mouseInitPorts_spec (hτ : τ.Within 100000) (stale : List (Source × UInt8)) {fuel : Nat}
    (hfuel : stale.length + 1 < fuel) :
    mouseInitPorts τ fuel ⟨c, none, stale.map fun a => (0, a), n, v⟩ = some ⟨enabled c, none, [], n + 8, v⟩ := by
  obtain ⟨x, hdrain⟩ := @drain_spec τ c n v stale fuel hfuel
  have hclock : enabling c.commandByte &&& 0x20 = 0 := (enabling_bits _).2.1
  let c₀ : Chip := {c with output := none, last := x}
  let c₁ : Chip := {c₀ with commandByte := c.commandByte &&& ~~~0x20}
  let c₂ : Chip := {c₁ with last := c.commandByte &&& ~~~0x20}
  let c₃ : Chip := {c₂ with commandByte := enabling c.commandByte, expects := .keyboard}
  let c₄ : Chip := {c₃ with reporting := false, last := 0xFA}
  have hstatus : (c.commandByte &&& ~~~0x20 ||| 0x02) &&& ~~~0x20 = enabling c.commandByte := rfl
  have henable : c₀.receive .command 0xA8 = (c₁, none) := rfl
  have hquery : c₁.receive .command 0x20 = (c₁, some (.keyboard, c.commandByte &&& ~~~0x20)) := rfl
  have hcommand : c₂.receive .command 0x60 = ({c₂ with expects := .commandByte}, none) := rfl
  have hbyte : Chip.receive {c₂ with expects := .commandByte} .data (enabling c.commandByte) = (c₃, none) := rfl
  have hdefaults : Chip.auxReceive {c₃ with expects := .keyboard} 0xF6 =
      ({c₃ with reporting := false}, some (.aux, 0xFA)) :=
    if_neg (by simpa [Chip.clocked] using hclock)
  have hreport : Chip.auxReceive {c₄ with expects := .keyboard} 0xF4 =
      ({c₄ with reporting := true}, some (.aux, 0xFA)) :=
    if_neg (by simpa [Chip.clocked] using hclock)
  rw [mouseInitPorts, hdrain, Option.bind_eq_bind, Option.bind_some]
  dsimp only
  rw [waitWrite_idle, told hτ henable, asked hτ hquery rfl]
  dsimp only
  rw [waitWrite_idle, told hτ hcommand, hstatus, mouseCmd_answered hτ (told hτ hbyte) rfl hdefaults]
  dsimp only
  rw [mouseCmd_answered hτ waitWrite_idle rfl hreport]
  rfl

end Dialogue

theorem ps2Init_spec {τ : Timing} (hτ : τ.Within 100000) (c : Chip) (stale : List (Source × UInt8)) {fuel : Nat}
    (hfuel : stale.length + 1 < fuel) :
    ps2Init τ fuel (leftOver c stale) = some ⟨enabled c, none, [], 8, false⟩ := by
  obtain ⟨x, hdrain⟩ := @drain_spec τ c 0 false stale fuel hfuel
  have hmouse := @mouseInitPorts_spec τ {c with output := none, last := x} 0 false hτ [] fuel (by simp; omega)
  rw [ps2Init, keyboardInitPorts, leftOver, hdrain, Option.bind_some]
  exact hmouse

/-- **The mouse is switched on.** Whatever the firmware leaves in the controller, and whenever
the controller takes a byte and answers, within the 100000 looks that the driver waits: no
byte is written over another, all that was left is thrown away, and every answer is read. At
the end the mouse reports, has its clock and its interrupt, and the rest of the command byte
is as it was. -/
theorem mouse_enabled {τ : Timing} (hτ : τ.Within 100000) (c : Chip) (stale : List (Source × UInt8)) {fuel : Nat}
    (hfuel : stale.length + 1 < fuel) :
    ∃ l, ps2Init τ fuel (leftOver c stale) = some l ∧ l.overrun = false ∧ l.input = none ∧ l.coming = [] ∧
      l.chip.output = none ∧ l.chip.expects = .keyboard ∧ l.chip.reporting = true ∧ l.chip.clocked .aux = true ∧
      l.chip.interrupts .aux = true ∧ l.chip.commandByte &&& 0xDD = c.commandByte &&& 0xDD := by
  obtain ⟨hirq, hclock, hrest⟩ := enabling_bits c.commandByte
  exact ⟨_, ps2Init_spec hτ c stale hfuel, rfl, rfl, rfl, rfl, rfl, rfl, decide_eq_true hclock,
    decide_eq_true hirq, hrest⟩

/-- A slow controller with the mouse's clock off, a byte in its buffer and another to come. -/
theorem mouse_enabled_slow : ∃ l,
    ps2Init ⟨fun _ => 90000, fun _ => 9999⟩ 4
      (leftOver ⟨0x65, .keyboard, some (.keyboard, 0x1C), 0, false, 0x14⟩ [(.keyboard, 0x9C), (.aux, 0x08)]) = some l ∧
      l.chip.reporting = true := by
  obtain ⟨l, hl, _, _, _, _, _, hreporting, _⟩ := @mouse_enabled ⟨fun _ => 90000, fun _ => 9999⟩
    (fun _ => show 90000 + 9999 < 100000 by decide) ⟨0x65, .keyboard, some (.keyboard, 0x1C), 0, false, 0x14⟩
    [(.keyboard, 0x9C), (.aux, 0x08)]
    4 (by decide)
  exact ⟨l, hl, hreporting⟩

/-! ### The interrupts -/

/-- The controller, the devices and the drivers behind the boot. -/
structure Ps2 where
  chip : Chip
  /-- Interrupts that wait to be accepted. -/
  request : Source → Bool
  /-- What the devices have sent, but for what has reached the controller. -/
  wire : Source → List UInt8
  keyboard : Keyboard
  mouse : Mouse
  /-- What the handlers have read. -/
  took : Source → List UInt8

/-- The boot may leave interrupts waiting for bytes that it has read itself. -/
def Ps2.start (chip : Chip) (request : Source → Bool) (mouse : Mouse) : Ps2 :=
  {chip, request, wire := fun _ => [], keyboard := .start, mouse, took := fun _ => []}

/-- A byte comes into the empty buffer. -/
def Ps2.arrive (s : Ps2) (src : Source) (b : UInt8) (rest : List UInt8) : Ps2 :=
  {s with
    chip := s.chip.put src b, wire := Function.update s.wire src rest,
    request := Function.update s.request src (s.request src || s.chip.interrupts src)}

/-- `mouse_irq`, which looks whose byte it is. -/
def mouseTurn (s : Ps2) : Ps2 :=
  let status := s.chip.status false
  let (data, chip) := s.chip.read
  let s := {s with request := Function.update s.request .aux false, mouse := (mouseIrq s.mouse (status, data)).1}
  if status &&& stAuxData ≠ 0 then {s with chip, took := Function.update s.took .aux (s.took .aux ++ [data])} else s

/-- `keyboard_handler`, which does not. -/
def keyboardTurn (s : Ps2) : Ps2 :=
  let (data, chip) := s.chip.read
  {s with
    chip, request := Function.update s.request .keyboard false, keyboard := (keyboardHandler s.keyboard data).1,
    took := Function.update s.took .keyboard (s.took .keyboard ++ [data])}

inductive Ps2Event where
  | send (src : Source) (b : UInt8)
  | arrive (src : Source)
  | accept (src : Source)
  deriving DecidableEq

/-- No byte comes into a full buffer, so the handlers read without being disturbed. The
keyboard's interrupt goes first. -/
inductive Ps2Step (s : Ps2) : Ps2Event → Ps2 → Prop where
  | send {src b} : (src = .aux → s.chip.reporting = true) →
      Ps2Step s (.send src b) {s with wire := Function.update s.wire src (s.wire src ++ [b])}
  | arrive {src b rest} : s.chip.output = none → s.wire src = b :: rest → s.chip.clocked src = true →
      Ps2Step s (.arrive src) (s.arrive src b rest)
  | keyboard : s.request .keyboard = true → Ps2Step s (.accept .keyboard) (keyboardTurn s)
  | mouse : s.request .aux = true → s.request .keyboard = false → Ps2Step s (.accept .aux) (mouseTurn s)

/-- The boot is over. The firmware had the keyboard on, with its interrupt. -/
inductive Booted : Ps2 → Prop where
  | intro {τ c stale fuel l} (left : Source → Bool) (m : Mouse) : Timing.Within τ 100000 → stale.length + 1 < fuel →
      c.commandByte &&& 0x11 = 0x01 → ps2Init τ fuel (leftOver c stale) = some l → Booted (.start l.chip left m)

def ps2 : System Ps2 Ps2Event where
  init := Booted
  step := Ps2Step

/-- No byte of the mouse comes while an interrupt waits that the boot has left. -/
def MouseWaits (s : Ps2) : Ps2Event → Prop
  | .arrive .aux => s.request .keyboard = false
  | _ => True

instance (s : Ps2) : (e : Ps2Event) → Decidable (MouseWaits s e)
  | .arrive .aux => inferInstanceAs (Decidable (_ = _))
  | .arrive .keyboard | .send _ _ | .accept _ => isTrue trivial

/-- What a device has sent. -/
def sent (src : Source) (es : List Ps2Event) : List UInt8 :=
  es.filterMap fun
    | .send src' b => if src' = src then some b else none
    | _ => none

/-- What a device has sent and no handler has read: a byte in the buffer, if it is the device's,
and those behind it. -/
def Ps2.line (s : Ps2) (src : Source) : List UInt8 :=
  (match s.chip.output with
    | some (src', b) => if src' = src then [b] else []
    | none => []) ++ s.wire src

/-! ### Routing -/

section Routing
variable {s s' s₀ : Ps2} {e : Ps2Event} {es es' : List Ps2Event} {src : Source}

theorem sent_append : sent src (es ++ es') = sent src es ++ sent src es' := List.filterMap_append

theorem line_empty (h : s.chip.output = none) (src : Source) : s.line src = s.wire src := by rw [Ps2.line, h]; rfl

theorem line_full {src' : Source} {b : UInt8} (h : s.chip.output = some (src', b)) (src : Source) :
    s.line src = (if src' = src then [b] else []) ++ s.wire src := by rw [Ps2.line, h]

theorem line_send (src' : Source) (b : UInt8) (src : Source) :
    Ps2.line {s with wire := Function.update s.wire src' (s.wire src' ++ [b])} src =
      s.line src ++ sent src [.send src' b] := by
  by_cases hsrc : src' = src
  · subst hsrc
    simp [Ps2.line, sent, Function.update_self]
  · simp [Ps2.line, sent, Function.update_of_ne (Ne.symm hsrc), hsrc]

theorem line_arrive {src' : Source} {b : UInt8} {rest : List UInt8} (hout : s.chip.output = none)
    (hwire : s.wire src' = b :: rest) (src : Source) : (s.arrive src' b rest).line src = s.line src := by
  have hfull : (s.arrive src' b rest).chip.output = some (src', b) := rfl
  rw [line_full hfull, line_empty hout, Ps2.arrive]
  dsimp only
  by_cases hsrc : src' = src
  · subst hsrc
    rw [if_pos rfl, Function.update_self, hwire]
    rfl
  · rw [if_neg hsrc, Function.update_of_ne (Ne.symm hsrc)]
    rfl

theorem line_read {src' : Source} {b : UInt8} (hout : s.chip.output = some (src', b)) (hs : s'.chip.output = none)
    (hs' : s'.wire = s.wire) (src : Source) : s.line src = (if src' = src then [b] else []) ++ s'.line src := by
  rw [line_full hout, line_empty hs, hs']

/-- The status tells whose byte it is. -/
theorem status_set {b : UInt8} (h : s.chip.output = some (.aux, b)) : s.chip.status false &&& stAuxData ≠ 0 :=
  fun hzero => (status_aux s.chip false).mp hzero b h

theorem status_clear (h : ∀ b, s.chip.output ≠ some (.aux, b)) : ¬s.chip.status false &&& stAuxData ≠ 0 :=
  not_not.mpr ((status_aux s.chip false).mpr h)

theorem mouseIrq_aux {b : UInt8} (h : s.chip.output = some (.aux, b)) :
    mouseIrq s.mouse (s.chip.status false, b) = mouseIrq s.mouse (stAuxData, b) := by
  simp only [mouseIrq, if_pos (status_set h)]
  rfl

theorem mouseIrq_other (h : ∀ b, s.chip.output ≠ some (.aux, b)) (b : UInt8) :
    mouseIrq s.mouse (s.chip.status false, b) = (s.mouse, []) := by
  simp only [mouseIrq, if_neg (status_clear h)]

theorem mouseTurn_aux {b : UInt8} (h : s.chip.output = some (.aux, b)) :
    mouseTurn s =
      {s with
        chip := {s.chip with output := none, last := b}, request := Function.update s.request .aux false,
        mouse := (mouseIrq s.mouse (stAuxData, b)).1, took := Function.update s.took .aux (s.took .aux ++ [b])} := by
  have hread : s.chip.read = (b, {s.chip with output := none, last := b}) := by rw [Chip.read, h]
  rw [mouseTurn, hread]
  dsimp only
  rw [if_pos (status_set h), mouseIrq_aux h]

/-- An interrupt of the mouse without its byte does nothing. -/
theorem mouseTurn_other (h : ∀ b, s.chip.output ≠ some (.aux, b)) :
    mouseTurn s = {s with request := Function.update s.request .aux false} := by
  rw [mouseTurn]
  dsimp only
  rw [if_neg (status_clear h), mouseIrq_other h]

/-- Both devices have their clocks and their interrupts. -/
def Ready (c : Chip) : Prop := c.commandByte &&& 0x33 = 0x03

theorem ready_bits {c : Chip} (h : Ready c) (src : Source) : c.clocked src = true ∧ c.interrupts src = true := by
  have hbits : ∀ i : Fin 256, UInt8.ofNat i &&& 0x33 = 0x03 →
      (UInt8.ofNat i &&& 0x10 = 0 ∧ UInt8.ofNat i &&& 0x01 ≠ 0) ∧ UInt8.ofNat i &&& 0x20 = 0 ∧
        UInt8.ofNat i &&& 0x02 ≠ 0 := by
    decide +kernel
  obtain ⟨i, hi⟩ := exists_byte c.commandByte
  obtain ⟨⟨hkeyboard, hkeyboard'⟩, haux, haux'⟩ := hbits i (by rw [hi]; exact h)
  rw [hi] at hkeyboard hkeyboard' haux haux'
  cases src with
  | keyboard => exact ⟨decide_eq_true hkeyboard, decide_eq_true hkeyboard'⟩
  | aux => exact ⟨decide_eq_true haux, decide_eq_true haux'⟩

theorem enabled_ready {c : Chip} (h : c.commandByte &&& 0x11 = 0x01) : Ready (enabled c) := by
  have hbits : ∀ i : Fin 256, UInt8.ofNat i &&& 0x11 = 0x01 → enabling (UInt8.ofNat i) &&& 0x33 = 0x03 := by
    decide +kernel
  obtain ⟨i, hi⟩ := exists_byte c.commandByte
  show enabling c.commandByte &&& 0x33 = 0x03
  rw [← hi]
  exact hbits i (by rw [hi]; exact h)

theorem read_commandByte (c : Chip) : c.read.2.commandByte = c.commandByte := by
  unfold Chip.read
  split <;> rfl

/-- The bytes of a device: its handler has read the first, one may be in the buffer, and the
rest are under way. A byte in the buffer has its interrupt. -/
structure Routed (m₀ : Mouse) (es : List Ps2Event) (s : Ps2) : Prop where
  ready : Ready s.chip
  pending : ∀ src b, s.chip.output = some (src, b) → s.request src = true
  alone : ∀ b, s.chip.output = some (.aux, b) → s.request .keyboard = false
  stale : s.chip.output = none → s.request .keyboard = true → s.took .keyboard = [] ∧ s.chip.last = 0xFA
  keyboard : ∃ stray seen, (stray = [] ∨ stray = [0xFA]) ∧ s.took .keyboard = stray ++ seen ∧
    sent .keyboard es = seen ++ s.line .keyboard
  aux : sent .aux es = s.took .aux ++ s.line .aux
  keys : s.keyboard = scan .start (s.took .keyboard)
  moves : s.mouse = (feed mouseIrq m₀ ((s.took .aux).map fun b => (stAuxData, b))).1

theorem routed_start {c : Chip} (h : c.commandByte &&& 0x11 = 0x01) (left : Source → Bool) (m : Mouse) :
    Routed m [] (.start (enabled c) left m) where
  ready := enabled_ready h
  pending := fun _ _ hout => by cases hout
  alone := fun _ hout => by cases hout
  stale := fun _ _ => ⟨rfl, rfl⟩
  keyboard := ⟨[], [], .inl rfl, rfl, rfl⟩
  aux := rfl
  keys := rfl
  moves := rfl

theorem routed_send {m₀ : Mouse} (h : Routed m₀ es s) (src : Source) (b : UInt8) :
    Routed m₀ (es ++ [.send src b]) {s with wire := Function.update s.wire src (s.wire src ++ [b])} := by
  obtain ⟨stray, seen, hstray, htook, hkeyboard⟩ := h.keyboard
  refine ⟨h.ready, h.pending, h.alone, h.stale, ⟨stray, seen, hstray, htook, ?_⟩, ?_, h.keys, h.moves⟩
  · rw [sent_append, hkeyboard, line_send, List.append_assoc]
  · rw [sent_append, h.aux, line_send, List.append_assoc]

theorem routed_arrive {m₀ : Mouse} (h : Routed m₀ es s) {src : Source} {b : UInt8} {rest : List UInt8}
    (hout : s.chip.output = none) (hwire : s.wire src = b :: rest) (hwait : src = .aux → s.request .keyboard = false) :
    Routed m₀ (es ++ [.arrive src]) (s.arrive src b rest) := by
  obtain ⟨stray, seen, hstray, htook, hkeyboard⟩ := h.keyboard
  have hquiet : ∀ src', sent src' [.arrive src] = [] := fun _ => rfl
  have hline := line_arrive hout hwire
  refine ⟨h.ready, ?_, ?_, ?_, ⟨stray, seen, hstray, htook, ?_⟩, ?_, h.keys, h.moves⟩
  · intro src' b' hput
    cases hput
    simp only [Ps2.arrive, Function.update_self, (ready_bits h.ready src).2, Bool.or_true]
  · intro b' hput
    cases hput
    have hsame : (s.arrive .aux b rest).request .keyboard = s.request .keyboard := by simp [Ps2.arrive]
    exact hsame.trans (hwait rfl)
  · intro hnone
    cases hnone
  · rw [sent_append, hquiet, List.append_nil, hkeyboard, hline]
  · rw [sent_append, hquiet, List.append_nil, h.aux, hline]
    rfl

theorem routed_mouse {m₀ : Mouse} (h : Routed m₀ es s) {b : UInt8} (hout : s.chip.output = some (.aux, b)) :
    Routed m₀ (es ++ [.accept .aux]) (mouseTurn s) := by
  obtain ⟨stray, seen, hstray, htook, hkeyboard⟩ := h.keyboard
  have hquiet : ∀ src', sent src' [.accept .aux] = [] := fun _ => rfl
  have hempty : (mouseTurn s).chip.output = none := by rw [mouseTurn_aux hout]
  have hline := line_read hout hempty (by rw [mouseTurn_aux hout])
  have hother : (mouseTurn s).took .keyboard = s.took .keyboard := by simp [mouseTurn_aux hout]
  have htaken : (mouseTurn s).took .aux = s.took .aux ++ [b] := by simp [mouseTurn_aux hout]
  have hrequest : (mouseTurn s).request .keyboard = s.request .keyboard := by simp [mouseTurn_aux hout]
  refine ⟨?_, ?_, ?_, ?_, ⟨stray, seen, hstray, hother.trans htook, ?_⟩, ?_, ?_, ?_⟩
  · rw [mouseTurn_aux hout]
    exact h.ready
  · intro src b' hfull
    rw [hempty] at hfull
    cases hfull
  · intro b' hfull
    rw [hempty] at hfull
    cases hfull
  · intro _ hpending
    rw [hrequest, h.alone b hout] at hpending
    cases hpending
  · rw [sent_append, hquiet, List.append_nil, hkeyboard, hline]
    rfl
  · rw [sent_append, hquiet, List.append_nil, h.aux, hline, htaken, List.append_assoc]
    rfl
  · rw [hother, ← h.keys, mouseTurn_aux hout]
  · rw [htaken, List.map_append, feed_append, ← h.moves, mouseTurn_aux hout]
    rfl

theorem routed_idle {m₀ : Mouse} (h : Routed m₀ es s) (hfree : s.request .keyboard = false)
    (haux : ∀ b, s.chip.output ≠ some (.aux, b)) : Routed m₀ (es ++ [.accept .aux]) (mouseTurn s) := by
  have hquiet : ∀ src', sent src' (es ++ [.accept .aux]) = sent src' es := fun src' => by
    rw [sent_append]
    exact List.append_nil _
  have hrequest : (mouseTurn s).request .keyboard = s.request .keyboard := by simp [mouseTurn_other haux]
  rw [mouseTurn_other haux] at hrequest ⊢
  refine ⟨h.ready, ?_, fun b hout => absurd hout (haux b), ?_, ?_, ?_, h.keys, h.moves⟩
  · intro src b hout
    cases src with
    | keyboard => exact hrequest.trans (h.pending _ _ hout)
    | aux => exact absurd hout (haux b)
  · intro _ hpending
    rw [hrequest.trans hfree] at hpending
    cases hpending
  · rw [hquiet]
    exact h.keyboard
  · rw [hquiet]
    exact h.aux

/-- The keyboard's handler reads the keyboard's byte, or once what the mouse last answered. -/
theorem routed_keyboard {m₀ : Mouse} (h : Routed m₀ es s) (hpending : s.request .keyboard = true) :
    Routed m₀ (es ++ [.accept .keyboard]) (keyboardTurn s) := by
  obtain ⟨stray, seen, hstray, htook, hkeyboard⟩ := h.keyboard
  have hquiet : ∀ src', sent src' (es ++ [.accept .keyboard]) = sent src' es := fun src' => by
    rw [sent_append]
    exact List.append_nil _
  have hempty : (keyboardTurn s).chip.output = none := by
    rw [keyboardTurn, Chip.read]
    cases hout : s.chip.output <;> simp [hout]
  have htaken : (keyboardTurn s).took .keyboard = s.took .keyboard ++ [s.chip.read.1] := by simp [keyboardTurn]
  have hother : (keyboardTurn s).took .aux = s.took .aux := by simp [keyboardTurn]
  have hrequest : (keyboardTurn s).request .keyboard = false := by simp [keyboardTurn]
  have hnone : ∀ src b, (keyboardTurn s).chip.output ≠ some (src, b) := fun src b hfull => by
    rw [hempty] at hfull
    cases hfull
  refine ⟨?_, fun _ _ hfull => absurd hfull (hnone _ _), fun _ hfull => absurd hfull (hnone _ _), ?_, ?_, ?_, ?_, ?_⟩
  · exact (congrArg (· &&& 0x33) (read_commandByte s.chip)).trans h.ready
  · intro _ hpending'
    rw [hrequest] at hpending'
    cases hpending'
  · cases hout : s.chip.output with
    | none =>
      obtain ⟨hfirst, hlast⟩ := h.stale hout hpending
      have hread : s.chip.read.1 = 0xFA := by rw [Chip.read, hout, hlast]
      rw [hfirst] at htook
      obtain ⟨rfl, rfl⟩ := List.append_eq_nil_iff.mp htook.symm
      refine ⟨[0xFA], [], .inr rfl, ?_, ?_⟩
      · rw [htaken, hfirst, hread]
        rfl
      · rw [hquiet, hkeyboard, line_empty hout, line_empty hempty]
        rfl
    | some a =>
      obtain ⟨src, b⟩ := a
      cases src with
      | aux =>
        rw [h.alone b hout] at hpending
        cases hpending
      | keyboard =>
        have hread : s.chip.read.1 = b := by rw [Chip.read, hout]
        refine ⟨stray, seen ++ [b], hstray, ?_, ?_⟩
        · rw [htaken, htook, hread, List.append_assoc]
        · rw [hquiet, hkeyboard, line_read hout hempty rfl, List.append_assoc]
          rfl
  · rw [hquiet, h.aux, hother]
    cases hout : s.chip.output with
    | none =>
      rw [line_empty hout, line_empty hempty]
      rfl
    | some a =>
      obtain ⟨src, b⟩ := a
      cases src with
      | aux =>
        rw [h.alone b hout] at hpending
        cases hpending
      | keyboard =>
        rw [line_read hout hempty rfl]
        rfl
  · rw [htaken, scan_snoc, ← h.keys]
    rfl
  · rw [hother]
    exact h.moves

theorem routed_step {m₀ : Mouse} (h : Routed m₀ es s) (hwait : MouseWaits s e) (hs : Ps2Step s e s') :
    Routed m₀ (es ++ [e]) s' := by
  cases hs with
  | send _ => exact routed_send h _ _
  | @arrive src b rest hout hwire _ => exact routed_arrive h hout hwire fun haux => by subst haux; exact hwait
  | keyboard hpending => exact routed_keyboard h hpending
  | mouse _ hfree =>
    by_cases haux : ∃ b, s.chip.output = some (.aux, b)
    · obtain ⟨b, hout⟩ := haux
      exact routed_mouse h hout
    · exact routed_idle h hfree fun b hout => haux ⟨b, hout⟩

theorem Booted.routed (h : Booted s) : Routed s.mouse [] s := by
  obtain ⟨left, m, hτ, hfuel, hbyte, hl⟩ := h
  rw [ps2Init_spec hτ _ _ hfuel] at hl
  obtain rfl := Option.some.inj hl
  exact routed_start hbyte left m

theorem routed_run (h₀ : Booted s₀) (hrun : (ps2.restrict MouseWaits).Run s₀ es s) : Routed s₀.mouse es s := by
  induction hrun with
  | nil => exact h₀.routed
  | snoc _ hs ih => exact routed_step ih hs.1 hs.2

/-- Bounds the steps until everything is read. -/
def Ps2.left (s : Ps2) : Nat :=
  3 * ((s.wire .keyboard).length + (s.wire .aux).length) + s.chip.output.isSome.toNat + (s.request .keyboard).toNat

theorem left_keyboardTurn (h : s.request .keyboard = true) : (keyboardTurn s).left < s.left := by
  cases hout : s.chip.output with
  | none => simp [Ps2.left, keyboardTurn, Chip.read, hout, h]
  | some a =>
    simp only [Ps2.left, keyboardTurn, Chip.read, hout, h, Function.update_self, Option.isSome_none, Option.isSome_some,
      Bool.toNat_false, Bool.toNat_true]
    omega

theorem left_mouseTurn {b : UInt8} (h : s.chip.output = some (.aux, b)) : (mouseTurn s).left < s.left := by
  simp only [Ps2.left, mouseTurn_aux h, h, Option.isSome_none, Option.isSome_some, ne_eq, reduceCtorEq,
    not_false_eq_true, Function.update_of_ne, Bool.toNat_false, Bool.toNat_true]
  omega

theorem left_arrive {b : UInt8} {rest : List UInt8} (hout : s.chip.output = none) (hwire : s.wire src = b :: rest) :
    (s.arrive src b rest).left < s.left := by
  have hrequest := ((s.arrive src b rest).request .keyboard).toNat_le
  have hlength : (s.wire src).length = rest.length + 1 := by rw [hwire, List.length_cons]
  have hfull : (s.arrive src b rest).chip.output.isSome = true := rfl
  unfold Ps2.left
  rw [hfull, hout, Option.isSome_none]
  cases src with
  | keyboard =>
    have hother : (s.arrive .keyboard b rest).wire .aux = s.wire .aux := by simp [Ps2.arrive]
    have hsame : (s.arrive .keyboard b rest).wire .keyboard = rest := by simp [Ps2.arrive]
    rw [hother, hsame, Bool.toNat_true, Bool.toNat_false]
    omega
  | aux =>
    have hother : (s.arrive .aux b rest).wire .keyboard = s.wire .keyboard := by simp [Ps2.arrive]
    have hsame : (s.arrive .aux b rest).wire .aux = rest := by simp [Ps2.arrive]
    rw [hother, hsame, Bool.toNat_true, Bool.toNat_false]
    omega

/-- With something unread, some step that sends nothing brings the end nearer. -/
theorem routed_progress {m₀ : Mouse} (h : Routed m₀ es s) (hline : ∃ src, s.line src ≠ []) :
    ∃ e s', MouseWaits s e ∧ Ps2Step s e s' ∧ (∀ src, sent src [e] = []) ∧ s'.left < s.left := by
  by_cases hpending : s.request .keyboard = true
  · exact ⟨.accept .keyboard, _, trivial, .keyboard hpending, fun _ => rfl, left_keyboardTurn hpending⟩
  · have hfree : s.request .keyboard = false := by simpa using hpending
    cases hout : s.chip.output with
    | some a =>
      obtain ⟨src, b⟩ := a
      cases src with
      | keyboard => exact absurd (h.pending _ _ hout) hpending
      | aux => exact ⟨.accept .aux, _, trivial, .mouse (h.pending _ _ hout) hfree, fun _ => rfl, left_mouseTurn hout⟩
    | none =>
      obtain ⟨src, hsrc⟩ := hline
      rw [line_empty hout] at hsrc
      obtain ⟨b, rest, hwire⟩ := List.exists_cons_of_ne_nil hsrc
      refine ⟨.arrive src, _, ?_, .arrive hout hwire (ready_bits h.ready src).1, fun _ => rfl, left_arrive hout hwire⟩
      cases src with
      | keyboard => trivial
      | aux => exact hfree

/-- The devices silent, everything sent is read. -/
theorem routed_drains {m₀ : Mouse} (h : Routed m₀ es s) :
    ∃ es' s', (ps2.restrict MouseWaits).Run s es' s' ∧ (∀ src, sent src es' = []) ∧ (∀ src, s'.line src = []) ∧
      Routed m₀ (es ++ es') s' := by
  generalize hn : s.left = n
  induction n using Nat.strongRecOn generalizing s es with
  | ind n ih =>
    by_cases hline : ∃ src, s.line src ≠ []
    · obtain ⟨e, s', hwait, hs, hquiet, hless⟩ := routed_progress h hline
      obtain ⟨es', s'', hrun, hsent, hempty, hrouted⟩ := ih _ (hn ▸ hless) (routed_step h hwait hs) rfl
      refine ⟨e :: es', s'', .cons ⟨hwait, hs⟩ hrun, fun src => ?_, hempty, ?_⟩
      · rw [show e :: es' = [e] ++ es' from rfl, sent_append, hquiet, hsent]
        rfl
      · rwa [List.append_assoc] at hrouted
    · refine ⟨[], s, .nil, fun _ => rfl, fun src => not_not.mp fun hne => hline ⟨src, hne⟩, ?_⟩
      rwa [List.append_nil]

theorem scan_stray {stray : List UInt8} (h : stray = [] ∨ stray = [0xFA]) (seen : List UInt8) :
    scan .start (stray ++ seen) = scan .start seen := by
  rcases h with rfl | rfl <;> rfl

/-- What both drivers have made of what they have read. -/
theorem Routed.split {m₀ : Mouse} (h : Routed m₀ es s) :
    (∃ seen, sent .keyboard es = seen ++ s.line .keyboard ∧ s.keyboard = scan .start seen) ∧
      ∃ seen, sent .aux es = seen ++ s.line .aux ∧
        s.mouse = (feed mouseIrq m₀ (seen.map fun b => (stAuxData, b))).1 := by
  obtain ⟨stray, seen, hstray, htook, hkeyboard⟩ := h.keyboard
  exact ⟨⟨seen, hkeyboard, by rw [h.keys, htook, scan_stray hstray]⟩, _, h.aux, h.moves⟩

/-- The mouse's first byte came too early: it waits for the keyboard's handler, or that handler
has read it. -/
inductive Astray (es : List Ps2Event) (s : Ps2) : Prop where
  | caught {b} : s.chip.output = some (.aux, b) → s.request .keyboard = true →
      (sent .aux es).length = (s.took .aux).length + (s.line .aux).length → Astray es s
  | lost : (s.request .keyboard = true → ∃ b, s.chip.output = some (.keyboard, b)) →
      (sent .aux es).length = (s.took .aux).length + (s.line .aux).length + 1 → Astray es s

theorem sent_quiet (he : ∀ b, e ≠ .send src b) : sent src (es ++ [e]) = sent src es := by
  have hnone : sent src [e] = [] := by
    cases e with
    | send src' b =>
      have hne : src' ≠ src := fun heq => he b (heq ▸ rfl)
      simp [sent, hne]
    | arrive _ => rfl
    | accept _ => rfl
  rw [sent_append, hnone, List.append_nil]

theorem astray_arrive {m₀ : Mouse} (h : Routed m₀ es s) {b : UInt8} {rest : List UInt8} (hout : s.chip.output = none)
    (hwire : s.wire .aux = b :: rest) (hpending : s.request .keyboard = true) :
    Astray (es ++ [.arrive .aux]) (s.arrive .aux b rest) := by
  refine .caught rfl (by simpa [Ps2.arrive] using hpending) ?_
  rw [sent_quiet (fun _ => by simp), h.aux, line_arrive hout hwire, List.length_append]
  rfl

theorem astray_caught {b : UInt8} (hout : s.chip.output = some (.aux, b)) (hpending : s.request .keyboard = true)
    (hcount : (sent .aux es).length = (s.took .aux).length + (s.line .aux).length) (hs : Ps2Step s e s') :
    Astray (es ++ [e]) s' := by
  cases hs with
  | send _ =>
    refine .caught hout hpending ?_
    rw [sent_append, line_send, List.length_append, List.length_append, hcount, Nat.add_assoc]
  | arrive hnone _ _ =>
    rw [hout] at hnone
    cases hnone
  | keyboard _ =>
    have hempty : (keyboardTurn s).chip.output = none := by simp [keyboardTurn, Chip.read, hout]
    have hline := congrArg List.length (line_read hout hempty rfl .aux)
    have htook : (keyboardTurn s).took .aux = s.took .aux := by simp [keyboardTurn]
    have hread : (keyboardTurn s).request .keyboard = false := by simp [keyboardTurn]
    rw [List.length_append, if_pos rfl, List.length_singleton] at hline
    refine .lost (fun hagain => ?_) ?_
    · rw [hread] at hagain
      cases hagain
    · rw [sent_quiet (fun _ => by simp), htook]
      omega
  | mouse _ hfree =>
    rw [hpending] at hfree
    cases hfree

theorem astray_lost (hfree : s.request .keyboard = true → ∃ b, s.chip.output = some (.keyboard, b))
    (hcount : (sent .aux es).length = (s.took .aux).length + (s.line .aux).length + 1) (hs : Ps2Step s e s') :
    Astray (es ++ [e]) s' := by
  cases hs with
  | send _ =>
    refine .lost hfree ?_
    rw [sent_append, line_send, List.length_append, List.length_append]
    dsimp only
    omega
  | @arrive src b rest hnone hwire _ =>
    refine .lost (fun hpending => ?_) ?_
    · cases src with
      | keyboard => exact ⟨b, rfl⟩
      | aux =>
        have hsame : (s.arrive .aux b rest).request .keyboard = s.request .keyboard := by simp [Ps2.arrive]
        obtain ⟨b', hout⟩ := hfree (hsame ▸ hpending)
        rw [hnone] at hout
        cases hout
    · rw [sent_quiet (fun _ => by simp), line_arrive hnone hwire]
      exact hcount
  | keyboard hpending =>
    obtain ⟨b, hout⟩ := hfree hpending
    have hempty : (keyboardTurn s).chip.output = none := by simp [keyboardTurn, Chip.read, hout]
    have htook : (keyboardTurn s).took .aux = s.took .aux := by simp [keyboardTurn]
    have hread : (keyboardTurn s).request .keyboard = false := by simp [keyboardTurn]
    refine .lost (fun hagain => ?_) ?_
    · rw [hread] at hagain
      cases hagain
    · rw [sent_quiet (fun _ => by simp), htook, hcount, line_read hout hempty rfl]
      rfl
  | mouse _ hidle =>
    by_cases haux : ∃ b, s.chip.output = some (.aux, b)
    · obtain ⟨b, hout⟩ := haux
      have hempty : (mouseTurn s).chip.output = none := by rw [mouseTurn_aux hout]
      have htook : (mouseTurn s).took .aux = s.took .aux ++ [b] := by simp [mouseTurn_aux hout]
      have hsame : (mouseTurn s).request .keyboard = s.request .keyboard := by simp [mouseTurn_aux hout]
      have hline := congrArg List.length (line_read hout hempty (by rw [mouseTurn_aux hout]) .aux)
      rw [List.length_append, if_pos rfl, List.length_singleton] at hline
      refine .lost (fun hpending => ?_) ?_
      · rw [hsame, hidle] at hpending
        cases hpending
      · rw [sent_quiet (fun _ => by simp), htook, List.length_append, List.length_singleton]
        omega
    · have hother : ∀ b, s.chip.output ≠ some (.aux, b) := fun b hout => haux ⟨b, hout⟩
      have hsame : (mouseTurn s).request .keyboard = s.request .keyboard := by simp [mouseTurn_other hother]
      rw [mouseTurn_other hother] at hsame ⊢
      refine .lost (fun hpending => ?_) ?_
      · cases hpending.symm.trans (hsame.trans hidle)
      · rw [sent_quiet (fun _ => by simp)]
        exact hcount

/-- Every run is one in which the mouse waits, or its first byte goes astray. -/
theorem routed_or_astray (h₀ : Booted s₀) (hrun : ps2.Run s₀ es s) :
    (ps2.restrict MouseWaits).Run s₀ es s ∨ Astray es s := by
  induction hrun with
  | nil => exact .inl .nil
  | @snoc es s e s' _ hs ih =>
    rcases ih with hrun | hastray
    · by_cases hwait : MouseWaits s e
      · exact .inl (hrun.snoc ⟨hwait, hs⟩)
      · have hrouted := routed_run h₀ hrun
        have hs' : Ps2Step s e s' := hs
        cases hs' with
        | @arrive src b rest hout hwire _ =>
          cases src with
          | keyboard => exact absurd trivial hwait
          | aux => exact .inr (astray_arrive hrouted hout hwire (by simpa [MouseWaits] using hwait))
        | send _ => exact absurd trivial hwait
        | keyboard _ => exact absurd trivial hwait
        | mouse _ _ => exact absurd trivial hwait
    · cases hastray with
      | caught hout hpending hcount => exact .inr (astray_caught hout hpending hcount hs)
      | lost hfree hcount => exact .inr (astray_lost hfree hcount hs)

end Routing

/-- **Each byte goes to its driver.** Behind the boot the keyboard and the mouse send when
they like, and their bytes and interrupts come in any order, but for the mouse's first byte,
which does not come while an interrupt waits that the boot has left. Then a byte in the
buffer always has its interrupt, the keyboard's driver has been through the first of the
keyboard's bytes and the mouse's through the first of the mouse's, in order and none left
out, and the rest can always be read. -/
theorem bytes_routed {s₀ s : Ps2} {es : List Ps2Event} (h₀ : Booted s₀)
    (hrun : (ps2.restrict MouseWaits).Run s₀ es s) :
    (∀ src b, s.chip.output = some (src, b) → s.request src = true) ∧
    (∃ seen, sent .keyboard es = seen ++ s.line .keyboard ∧ s.keyboard = scan .start seen) ∧
    (∃ seen, sent .aux es = seen ++ s.line .aux ∧
      s.mouse = (feed mouseIrq s₀.mouse (seen.map fun b => (stAuxData, b))).1) ∧
    ∃ es' s', (ps2.restrict MouseWaits).Run s es' s' ∧ (∀ src, sent src es' = []) ∧
      s'.keyboard = scan .start (sent .keyboard es) ∧
      s'.mouse = (feed mouseIrq s₀.mouse ((sent .aux es).map fun b => (stAuxData, b))).1 := by
  have h := routed_run h₀ hrun
  obtain ⟨hkeyboard, hmouse⟩ := h.split
  obtain ⟨es', s', hrun', hquiet, hempty, h'⟩ := routed_drains h
  obtain ⟨⟨keys, hkeys, hscan⟩, moves, hmoves, hfeed⟩ := h'.split
  rw [sent_append, hquiet, hempty, List.append_nil, List.append_nil] at hkeys hmoves
  subst hkeys hmoves
  exact ⟨h.pending, hkeyboard, hmouse, es', s', hrun', hquiet, hscan, hfeed⟩

/-- Behind a boot that has left both interrupts waiting. -/
def bothWait : Ps2 := .start (enabled ⟨0x65, .keyboard, none, 0, false, 0⟩) (fun _ => true) (mouseInit .start 640 480)

theorem bothWait_booted : Booted bothWait :=
  have hτ : Timing.Within ⟨fun _ => 1, fun _ => 1⟩ 100000 := fun _ => show 1 + 1 < 100000 by decide
  .intro _ _ hτ (show 1 < 2 by decide) (by decide) (ps2Init_spec hτ _ [] (by decide))

/-- A key is struck while the mouse's byte is in the buffer. -/
theorem bytes_routed_key : ∃ es s, (ps2.restrict MouseWaits).Run bothWait es s ∧ sent .keyboard es = [0x1E] ∧
    sent .aux es = [0x08] ∧ s.keyboard = scan .start [0x1E] := by
  have hstart : (ps2.restrict MouseWaits).Run bothWait [] bothWait := .nil
  have hboot := hstart.snoc (i := Ps2Event.accept .keyboard) ⟨trivial, .keyboard rfl⟩
  have hsent := hboot.snoc (i := Ps2Event.send .aux 0x08) ⟨trivial, .send fun _ => rfl⟩
  have hmouse := hsent.snoc (i := Ps2Event.arrive .aux) ⟨rfl, .arrive rfl rfl (by decide)⟩
  have hstruck := hmouse.snoc (i := Ps2Event.send .keyboard 0x1E) ⟨trivial, .send fun heq => by cases heq⟩
  have hread := hstruck.snoc (i := Ps2Event.accept .aux) ⟨trivial, .mouse rfl rfl⟩
  have hkey := hread.snoc (i := Ps2Event.arrive .keyboard) ⟨trivial, .arrive rfl rfl (by decide)⟩
  have hrun := hkey.snoc (i := Ps2Event.accept .keyboard) ⟨trivial, .keyboard rfl⟩
  obtain ⟨_, ⟨seen, hkeys, hscan⟩, _, _⟩ := bytes_routed bothWait_booted hrun
  have hseen : [0x1E] = seen ++ [] := hkeys
  rw [List.append_nil] at hseen
  exact ⟨_, _, hrun, rfl, rfl, hscan.trans (congrArg _ hseen.symm)⟩

/-- **The mouse must wait.** With nothing left to read, the mouse's driver has read all that the
mouse sent exactly if its first byte did not come while an interrupt waited that the boot had
left. Otherwise it has missed one byte. -/
theorem mouse_bytes_kept_iff {s₀ s : Ps2} {es : List Ps2Event} (h₀ : Booted s₀) (hrun : ps2.Run s₀ es s)
    (hdone : ∀ src, s.line src = []) :
    (s.took .aux = sent .aux es ↔ (ps2.restrict MouseWaits).Run s₀ es s) ∧
      (¬(ps2.restrict MouseWaits).Run s₀ es s → (s.took .aux).length + 1 = (sent .aux es).length) := by
  have hwaits : (ps2.restrict MouseWaits).Run s₀ es s → s.took .aux = sent .aux es := fun hwait => by
    rw [(routed_run h₀ hwait).aux, hdone, List.append_nil]
  have hmissed : ¬(ps2.restrict MouseWaits).Run s₀ es s →
      (s.took .aux).length + 1 = (sent .aux es).length := fun hno => by
    rcases routed_or_astray h₀ hrun with hwait | ⟨hout, -, -⟩ | ⟨-, hcount⟩
    · exact absurd hwait hno
    · have hline := hdone .aux
      rw [line_full hout] at hline
      cases hline
    · rw [hcount, hdone]
      rfl
  refine ⟨⟨fun hall => not_not.mp fun hno => ?_, hwaits⟩, hmissed⟩
  have hlength := hmissed hno
  rw [hall] at hlength
  omega

/-- The mouse is moved at once. -/
theorem mouse_bytes_kept_iff_early : ∃ es s, ps2.Run bothWait es s ∧ ¬(ps2.restrict MouseWaits).Run bothWait es s ∧
    (s.took .aux).length + 1 = (sent .aux es).length := by
  have hstart : ps2.Run bothWait [] bothWait := .nil
  have hsent := hstart.snoc (i := Ps2Event.send .aux 0x08) (.send fun _ => rfl)
  have hcaught := hsent.snoc (i := Ps2Event.arrive .aux) (.arrive rfl rfl (by decide))
  have hrun := hcaught.snoc (i := Ps2Event.accept .keyboard) (.keyboard rfl)
  obtain ⟨hkept, hmissed⟩ := mouse_bytes_kept_iff bothWait_booted hrun fun src => by cases src <;> rfl
  have hno := mt hkept.mpr (show [] ≠ [0x08] by decide)
  exact ⟨_, _, hrun, hno, hmissed hno⟩

end ArcMonark.Drivers
