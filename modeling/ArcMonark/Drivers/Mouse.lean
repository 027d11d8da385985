import ArcMonark.Kernel.Event
import ArcMonark.Library.Transducer
import Mathlib.Data.Nat.Bitwise

/-! The mouse (`drivers/mouse.c`).

The interrupt handler puts three bytes together into a packet, and a packet moves the
pointer, keeps it on the screen, and reports the move and the button changes to the
event queue. `mouse_replays` says that who sees the events only knows the pointer. -/
namespace ArcMonark.Drivers
open Library Kernel

def stAuxData : UInt8 := 0x20

/-- The conversion of a `uint32_t` to `int`. -/
def toInt (n : UInt32) : Int := n.toInt32.toInt

/-- The bytes of the packet so far. -/
structure PacketState where
  packet0 : UInt8
  packet1 : UInt8
  packet2 : UInt8
  cycle : Nat
  deriving DecidableEq

structure Pointer where
  sX : Int
  sY : Int
  sW : UInt32
  sH : UInt32
  sButtons : UInt8
  deriving DecidableEq

structure Mouse extends PacketState, Pointer
  deriving DecidableEq

/-- The variables as the kernel starts. -/
def Mouse.start : Mouse :=
  {packet0 := 0, packet1 := 0, packet2 := 0, cycle := 0, sX := 0, sY := 0, sW := 640, sH := 480, sButtons := 0}

/-- What a packet says. -/
structure Motion where
  dx : Int
  dy : Int
  buttons : UInt8
  deriving DecidableEq

def mouseInit (s : Mouse) (screenW screenH : UInt32) : Mouse :=
  {s with
    sW := screenW, sH := screenH, sX := (toInt screenW).tdiv 2, sY := (toInt screenH).tdiv 2,
    cycle := 0, sButtons := 0}

/-- The `switch` on `cycle`: a byte is kept, or it completes a packet. -/
def packetByte (s : PacketState) (data : UInt8) : PacketState × List Motion :=
  match s.cycle with
  | 0 => if data &&& 0x08 = 0 then (s, []) else ({s with packet0 := data, cycle := 1}, [])
  | 1 => ({s with packet1 := data, cycle := 2}, [])
  | 2 =>
    let s := {s with packet2 := data, cycle := 0}
    if s.packet0 &&& 0xC0 ≠ 0 then (s, [])
    else
      -- The sign bits of both axes are in the first byte.
      let dx := (s.packet1.toNat : Int) - ((s.packet0.toNat <<< 4 &&& 0x100 : Nat) : Int)
      let dy := (s.packet2.toNat : Int) - ((s.packet0.toNat <<< 3 &&& 0x100 : Nat) : Int)
      (s, [{dx, dy, buttons := s.packet0 &&& 0x07}])
  | _ => (s, [])

/-- A coordinate, kept on the screen. -/
def clamp (v : Int) (size : UInt32) : Int :=
  let v := if v < 0 then 0 else v
  if v ≥ toInt size then toInt size - 1 else v

def moveEvent (s : Pointer) (edx edy : Int) (newBtn : UInt8) : List Event :=
  if edx ≠ 0 ∨ edy ≠ 0 then
    [{Event.zero with
      type := .mouseMove, x := .ofInt s.sX, y := .ofInt s.sY, dx := .ofInt edx, dy := .ofInt edy,
      buttons := newBtn}]
  else []

/-- The event of one button, if it changed. -/
def buttonEvent (s : Pointer) (newBtn changed bit : UInt8) : List Event :=
  if changed &&& bit = 0 then []
  else
    [{Event.zero with
      type := if newBtn &&& bit ≠ 0 then .mouseDown else .mouseUp, button := bit, buttons := newBtn,
      x := .ofInt s.sX, y := .ofInt s.sY}]

/-- A packet moves the pointer. The events are those that are pushed, in order. -/
def move (s : Pointer) (m : Motion) : Pointer × List Event :=
  let oldx := s.sX
  let oldy := s.sY
  -- The screen's y grows downwards.
  let s := {s with sX := clamp (s.sX + m.dx) s.sW, sY := clamp (s.sY - m.dy) s.sH}
  let newBtn := m.buttons
  let changed := newBtn ^^^ s.sButtons
  ({s with sButtons := newBtn},
    moveEvent s (s.sX - oldx) (s.sY - oldy) newBtn ++
      [0x01, 0x02, 0x04].flatMap (buttonEvent s newBtn changed))

/-- The handler, with the status and the data that the controller shows. -/
def mouseIrq (s : Mouse) (port : UInt8 × UInt8) : Mouse × List Event :=
  let (status, data) := port
  if status &&& stAuxData ≠ 0 then
    let (p, ms) := packetByte s.toPacketState data
    let (q, es) := feed move s.toPointer ms
    ({toPacketState := p, toPointer := q}, es)
  else (s, [])

/-! ### The pointer stays on the screen -/

/-- A side of a screen that the events can describe. -/
def Side (n : UInt32) : Prop := 1 ≤ n ∧ n ≤ 32768

structure Pointer.OnScreen (s : Pointer) : Prop where
  width : Side s.sW
  height : Side s.sH
  left : 0 ≤ s.sX
  right : s.sX < s.sW.toNat
  top : 0 ≤ s.sY
  bottom : s.sY < s.sH.toNat
  buttons : s.sButtons < 8

section OnScreen
variable {s : Pointer} {n : UInt32} {m : Motion}

theorem toInt_eq (h : Side n) : toInt n = n.toNat := by
  have hle : n.toNat ≤ 32768 := h.2
  exact BitVec.toInt_eq_toNat_of_lt (show 2 * n.toNat < 2 ^ 32 by omega)

theorem Side.pos (h : Side n) : 0 < n.toNat := h.1

theorem Side.le (h : Side n) : n.toNat ≤ 32768 := h.2

theorem clamp_eq (h : Side n) (v : Int) : clamp v n = max 0 (min v (n.toNat - 1)) := by
  have hpos := h.pos
  unfold clamp
  rw [toInt_eq h]
  dsimp only
  split <;> split <;> omega

theorem clamp_bounds (h : Side n) (v : Int) : 0 ≤ clamp v n ∧ clamp v n < n.toNat := by
  have hpos := h.pos
  rw [clamp_eq h]
  omega

/-- A 9-bit number moves a coordinate by 256 at most. -/
theorem clamp_near (h : Side n) {x d : Int} (hx : 0 ≤ x ∧ x < n.toNat) (hd : -256 ≤ d ∧ d ≤ 256) :
    -256 ≤ clamp (x + d) n - x ∧ clamp (x + d) n - x ≤ 256 := by
  rw [clamp_eq h]
  omega

/-- What a decoded packet can say. -/
structure Motion.Bounded (m : Motion) : Prop where
  dx : -256 ≤ m.dx ∧ m.dx ≤ 255
  dy : -256 ≤ m.dy ∧ m.dy ≤ 255
  buttons : m.buttons < 8

theorem and_bit_eight (k b : Nat) : b <<< k &&& 0x100 = 0 ∨ b <<< k &&& 0x100 = 0x100 := by
  rw [show 0x100 = 2 ^ 8 from rfl, Nat.and_two_pow]
  cases (b <<< k).testBit 8
  · exact .inl (Nat.zero_mul _)
  · exact .inr (Nat.one_mul _)

theorem packetByte_bounded {p : PacketState} {data : UInt8} : ∀ m ∈ (packetByte p data).2, m.Bounded := by
  intro m hm
  unfold packetByte at hm
  split at hm
  · split at hm <;> cases hm
  · cases hm
  · dsimp only at hm
    split at hm
    · cases hm
    · obtain rfl := List.mem_singleton.mp hm
      have h1 := p.packet1.toNat_lt
      have h2 := data.toNat_lt
      have hx := and_bit_eight 4 p.packet0.toNat
      have hy := and_bit_eight 3 p.packet0.toNat
      refine ⟨by dsimp only; omega, by dsimp only; omega, ?_⟩
      exact UInt8.lt_of_le_of_lt UInt8.and_le_right (show (7 : UInt8) < 8 by decide)
  · cases hm

theorem move_onScreen (h : s.OnScreen) (hm : m.buttons < 8) : (move s m).1.OnScreen :=
  ⟨h.width, h.height, (clamp_bounds h.width _).1, (clamp_bounds h.width _).2,
    (clamp_bounds h.height _).1, (clamp_bounds h.height _).2, hm⟩

end OnScreen

/-! ### The events replay to the pointer -/

/-- What the consumer of the events knows. -/
structure Replay where
  x : Int
  y : Int
  buttons : UInt8
  deriving DecidableEq

namespace Replay

def apply (r : Replay) (e : Event) : Replay :=
  match e.type with
  | .mouseMove => {r with x := r.x + e.dx.toInt, y := r.y + e.dy.toInt}
  | .mouseDown => {r with buttons := r.buttons ||| e.button}
  | .mouseUp => {r with buttons := r.buttons &&& ~~~e.button}
  | _ => r

/-- A move moves, a button changes, and the event's own position is the replayed one. -/
def Fits (r : Replay) (e : Event) : Prop :=
  e.x.toInt = (r.apply e).x ∧ e.y.toInt = (r.apply e).y ∧
  match e.type with
  | .mouseMove => e.dx ≠ 0 ∨ e.dy ≠ 0
  | .mouseDown => e.button ∈ [0x01, 0x02, 0x04] ∧ r.buttons &&& e.button = 0
  | .mouseUp => e.button ∈ [0x01, 0x02, 0x04] ∧ r.buttons &&& e.button ≠ 0
  | _ => False

end Replay

/-- The events are replayed in order, and lead from `r` to `r'`. -/
def Replays : Replay → List Event → Replay → Prop := Follows Replay.Fits Replay.apply

def Pointer.view (s : Pointer) : Replay := {x := s.sX, y := s.sY, buttons := s.sButtons}

section Replays
variable {s : Pointer} {m : Motion}

theorem toInt_ofInt {v : Int} {n : UInt32} (h : Side n) (hv : 0 ≤ v ∧ v < n.toNat) : (Int16.ofInt v).toInt = v := by
  have hle := h.le
  exact Int16.toInt_ofInt_of_le (by omega) (by omega)

/-- The move event carries the pointer to its new position. -/
theorem moveEvent_replays {t : Pointer} (ht : t.OnScreen) {newBtn : UInt8}
    (hx : -256 ≤ t.sX - s.sX ∧ t.sX - s.sX ≤ 256) (hy : -256 ≤ t.sY - s.sY ∧ t.sY - s.sY ≤ 256) :
    Replays s.view (moveEvent t (t.sX - s.sX) (t.sY - s.sY) newBtn) {s.view with x := t.sX, y := t.sY} := by
  have hdx : (Int16.ofInt (t.sX - s.sX)).toInt = t.sX - s.sX := Int16.toInt_ofInt_of_le (by omega) (by omega)
  have hdy : (Int16.ofInt (t.sY - s.sY)).toInt = t.sY - s.sY := Int16.toInt_ofInt_of_le (by omega) (by omega)
  unfold moveEvent
  split
  · rename_i hmoved
    refine ⟨⟨?_, ?_, ?_⟩, ?_⟩
    · show (Int16.ofInt t.sX).toInt = s.sX + (Int16.ofInt (t.sX - s.sX)).toInt
      rw [toInt_ofInt ht.width ⟨ht.left, ht.right⟩, hdx]
      omega
    · show (Int16.ofInt t.sY).toInt = s.sY + (Int16.ofInt (t.sY - s.sY)).toInt
      rw [toInt_ofInt ht.height ⟨ht.top, ht.bottom⟩, hdy]
      omega
    · show Int16.ofInt (t.sX - s.sX) ≠ 0 ∨ Int16.ofInt (t.sY - s.sY) ≠ 0
      refine hmoved.imp (fun hne heq => hne ?_) (fun hne heq => hne ?_)
      · rw [← hdx, heq]
        rfl
      · rw [← hdy, heq]
        rfl
    · show ({s.view with x := t.sX, y := t.sY} : Replay) =
        {s.view with x := s.sX + (Int16.ofInt (t.sX - s.sX)).toInt, y := s.sY + (Int16.ofInt (t.sY - s.sY)).toInt}
      rw [hdx, hdy, add_sub_cancel, add_sub_cancel]
  · rename_i hstill
    have hsame : t.sX = s.sX ∧ t.sY = s.sY := by omega
    show ({s.view with x := t.sX, y := t.sY} : Replay) = s.view
    rw [hsame.1, hsame.2]
    rfl

/-- The mask `b` with the one bit taken from `new`. -/
def takeBit (b new bit : UInt8) : UInt8 := b &&& ~~~bit ||| new &&& bit

theorem exists_mask {b : UInt8} (h : b < 8) : ∃ i : Fin 8, UInt8.ofNat i = b :=
  ⟨⟨b.toNat, h⟩, UInt8.ofNat_toNat⟩

/-- A bit that is the same in both masks stays, the others are set or cleared. -/
theorem takeBit_cases {old new bit : UInt8} (hold : old < 8) (hnew : new < 8) (hbit : bit ∈ [0x01, 0x02, 0x04]) :
    ((new ^^^ old) &&& bit = 0 → takeBit old new bit = old) ∧
    ((new ^^^ old) &&& bit ≠ 0 → new &&& bit ≠ 0 → old &&& bit = 0 ∧ takeBit old new bit = old ||| bit) ∧
    ((new ^^^ old) &&& bit ≠ 0 → new &&& bit = 0 → old &&& bit ≠ 0 ∧ takeBit old new bit = old &&& ~~~bit) := by
  obtain ⟨i, rfl⟩ := exists_mask hold
  obtain ⟨j, rfl⟩ := exists_mask hnew
  clear hold hnew
  revert i j bit
  decide +kernel

/-- The bits are taken one after the other, and each sees its own old value. -/
theorem takeBit_all {old new : UInt8} (hold : old < 8) (hnew : new < 8) :
    (takeBit old new 1 < 8 ∧ (new ^^^ takeBit old new 1) &&& 2 = (new ^^^ old) &&& 2) ∧
    (takeBit (takeBit old new 1) new 2 < 8 ∧
      (new ^^^ takeBit (takeBit old new 1) new 2) &&& 4 = (new ^^^ old) &&& 4) ∧
    takeBit (takeBit (takeBit old new 1) new 2) new 4 = new := by
  obtain ⟨i, rfl⟩ := exists_mask hold
  obtain ⟨j, rfl⟩ := exists_mask hnew
  clear hold hnew
  revert i j
  decide +kernel

theorem buttonEvent_replays {t : Pointer} (ht : t.OnScreen) {r : Replay} (hx : r.x = t.sX) (hy : r.y = t.sY)
    {new changed : UInt8} (bit : UInt8) (hr : r.buttons < 8) (hnew : new < 8) (hbit : bit ∈ [0x01, 0x02, 0x04])
    (hchanged : (new ^^^ r.buttons) &&& bit = changed &&& bit) :
    Replays r (buttonEvent t new changed bit) {r with buttons := takeBit r.buttons new bit} := by
  obtain ⟨hsame, hdown, hup⟩ := takeBit_cases hr hnew hbit
  rw [hchanged] at hsame hdown hup
  have hx' : (Int16.ofInt t.sX).toInt = r.x := by rw [toInt_ofInt ht.width ⟨ht.left, ht.right⟩, hx]
  have hy' : (Int16.ofInt t.sY).toInt = r.y := by rw [toInt_ofInt ht.height ⟨ht.top, ht.bottom⟩, hy]
  unfold buttonEvent
  split
  · rename_i hz
    show {r with buttons := takeBit r.buttons new bit} = r
    rw [hsame hz]
  · rename_i hz
    by_cases hset : new &&& bit ≠ 0
    · obtain ⟨hclear, htake⟩ := hdown hz hset
      rw [if_pos hset, htake]
      exact ⟨⟨hx', hy', hbit, hclear⟩, rfl⟩
    · obtain ⟨hheld, htake⟩ := hup hz (not_not.mp hset)
      rw [if_neg hset, htake]
      exact ⟨⟨hx', hy', hbit, hheld⟩, rfl⟩

/-- The events of the three buttons take the replay from the old mask to the new one. -/
theorem buttonEvents_replays {t : Pointer} (ht : t.OnScreen) {old new : UInt8} (hold : old < 8) (hnew : new < 8) :
    Replays {x := t.sX, y := t.sY, buttons := old} ([0x01, 0x02, 0x04].flatMap (buttonEvent t new (new ^^^ old)))
      {x := t.sX, y := t.sY, buttons := new} := by
  obtain ⟨⟨h1, hc1⟩, ⟨h2, hc2⟩, hall⟩ := takeBit_all hold hnew
  have hleft := buttonEvent_replays ht (r := ⟨t.sX, t.sY, old⟩) rfl rfl 1 hold hnew (by decide) rfl
  have hright := buttonEvent_replays ht (r := ⟨t.sX, t.sY, takeBit old new 1⟩) rfl rfl 2 h1 hnew
    (by decide) hc1
  have hmiddle := buttonEvent_replays ht (r := ⟨t.sX, t.sY, takeBit (takeBit old new 1) new 2⟩) rfl rfl 4
    h2 hnew (by decide) hc2
  rw [hall] at hmiddle
  simp only [List.flatMap_cons, List.flatMap_nil, List.append_nil]
  exact hleft.append (hright.append hmiddle)

/-- One packet. -/
theorem move_replays (h : s.OnScreen) (hm : m.Bounded) : Replays s.view (move s m).2 (move s m).1.view := by
  have hdx := hm.dx
  have hdy := hm.dy
  have hx := clamp_near h.width (x := s.sX) (d := m.dx) ⟨h.left, h.right⟩ (by omega)
  have hy := clamp_near h.height (x := s.sY) (d := -m.dy) ⟨h.top, h.bottom⟩ (by omega)
  rw [← Int.sub_eq_add_neg] at hy
  have ht := move_onScreen h hm.buttons
  exact (moveEvent_replays ht hx hy).append (buttonEvents_replays ht h.buttons hm.buttons)

/-- The pointer is on the screen that `mouse_init` was called with. -/
structure Pointer.On (screenW screenH : UInt32) (s : Pointer) : Prop extends s.OnScreen where
  sW_eq : s.sW = screenW
  sH_eq : s.sH = screenH

theorem mouseInit_on (s₀ : Mouse) {screenW screenH : UInt32} (hw : Side screenW) (hh : Side screenH) :
    (mouseInit s₀ screenW screenH).toPointer.On screenW screenH ∧
    (mouseInit s₀ screenW screenH).view = {x := screenW.toNat / 2, y := screenH.toNat / 2, buttons := 0} := by
  have hx : (toInt screenW).tdiv 2 = screenW.toNat / 2 := by
    rw [toInt_eq hw, Int.tdiv_eq_ediv_of_nonneg (Int.natCast_nonneg _)]
  have hy : (toInt screenH).tdiv 2 = screenH.toNat / 2 := by
    rw [toInt_eq hh, Int.tdiv_eq_ediv_of_nonneg (Int.natCast_nonneg _)]
  have hwpos := hw.pos
  have hhpos := hh.pos
  refine ⟨⟨⟨hw, hh, ?_, ?_, ?_, ?_, show (0 : UInt8) < 8 by decide⟩, rfl, rfl⟩, ?_⟩
  · show 0 ≤ (toInt screenW).tdiv 2
    omega
  · show (toInt screenW).tdiv 2 < screenW.toNat
    omega
  · show 0 ≤ (toInt screenH).tdiv 2
    omega
  · show (toInt screenH).tdiv 2 < screenH.toNat
    omega
  · show Replay.mk ((toInt screenW).tdiv 2) ((toInt screenH).tdiv 2) 0 = _
    rw [hx, hy]

/-- One interrupt, from the mouse or not, at any byte of a packet. -/
theorem mouseIrq_replays {screenW screenH : UInt32} {s : Mouse} (h : s.toPointer.On screenW screenH)
    (port : UInt8 × UInt8) :
    (mouseIrq s port).1.toPointer.On screenW screenH ∧
      Replays s.view (mouseIrq s port).2 (mouseIrq s port).1.view := by
  have hstep : ∀ (s : Pointer) (m : Motion), s.On screenW screenH → m.Bounded →
      (move s m).1.On screenW screenH ∧ Replays s.view (move s m).2 (move s m).1.view := fun s m hs hm =>
    ⟨⟨move_onScreen hs.toOnScreen hm.buttons, hs.sW_eq, hs.sH_eq⟩, move_replays hs.toOnScreen hm⟩
  unfold mouseIrq
  dsimp only
  split
  · exact feed_follows hstep h packetByte_bounded
  · exact ⟨h, rfl⟩

end Replays

/-- **Mouse events replay.** After any bytes, the pointer is on the screen, and the
pushed events lead from the middle of the screen and no button to the pointer. -/
theorem mouse_replays (s₀ : Mouse) {screenW screenH : UInt32} (hw : Side screenW) (hh : Side screenH)
    (ports : List (UInt8 × UInt8)) :
    let run := feed mouseIrq (mouseInit s₀ screenW screenH) ports
    (0 ≤ run.1.sX ∧ run.1.sX < screenW.toNat) ∧ (0 ≤ run.1.sY ∧ run.1.sY < screenH.toNat) ∧
    Replays {x := screenW.toNat / 2, y := screenH.toNat / 2, buttons := 0} run.2
      {x := run.1.sX, y := run.1.sY, buttons := run.1.sButtons} := by
  intro run
  obtain ⟨hinit, hview⟩ := mouseInit_on s₀ hw hh
  have hstep : ∀ (s : Mouse) (port : UInt8 × UInt8), s.toPointer.On screenW screenH → True →
      (mouseIrq s port).1.toPointer.On screenW screenH ∧
        Replays s.view (mouseIrq s port).2 (mouseIrq s port).1.view :=
    fun s port hs _ => mouseIrq_replays hs port
  obtain ⟨hon, hreplays⟩ := feed_follows hstep hinit fun p (_ : p ∈ ports) => trivial
  rw [hview] at hreplays
  have hright := hon.right
  have hbottom := hon.bottom
  rw [hon.sW_eq] at hright
  rw [hon.sH_eq] at hbottom
  exact ⟨⟨hon.left, hright⟩, ⟨hon.top, hbottom⟩, hreplays⟩

/-- The left button goes down as the pointer moves five to the right. -/
theorem mouse_replays_click :
    let run := feed mouseIrq (mouseInit .start 640 480) [(0x21, 0x09), (0x21, 5), (0x21, 0)]
    run.1.sX = 325 ∧ run.2.length = 2 ∧
      Replays {x := 320, y := 240, buttons := 0} run.2 {x := run.1.sX, y := run.1.sY, buttons := run.1.sButtons} :=
  ⟨by decide +kernel, by decide +kernel,
    (mouse_replays .start (show Side 640 from ⟨by decide, by decide⟩) (show Side 480 from ⟨by decide, by decide⟩) _).2.2⟩

end ArcMonark.Drivers
