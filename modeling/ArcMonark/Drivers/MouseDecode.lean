import ArcMonark.Drivers.Mouse

/-! What the mouse driver decodes.

A mouse sends *reports*, each encoded as a packet of three bytes. A stream is made of
packets, of noise (single bytes without the bit that marks a first byte) and of packets
with an overflow bit. `mouse_decodes`: from a packet boundary, the driver decodes just
the reports, in order, each once, and is at a packet boundary again. -/
namespace ArcMonark.Drivers
open Library Kernel

/-- What a mouse can report: a move of 9 bits on each axis, and three buttons. -/
structure Report where
  dx : Int
  dy : Int
  buttons : UInt8
  dx_bounds : -256 ≤ dx ∧ dx ≤ 255
  dy_bounds : -256 ≤ dy ∧ dy ≤ 255
  buttons_lt : buttons < 8

namespace Report

def motion (r : Report) : Motion := {dx := r.dx, dy := r.dy, buttons := r.buttons}

/-- The buttons, the bit of a first byte, and the signs. -/
def flags (r : Report) : UInt8 :=
  r.buttons ||| 0x08 ||| (if r.dx < 0 then 0x10 else 0) ||| (if r.dy < 0 then 0x20 else 0)

/-- The standard packet. -/
def encode (r : Report) : List UInt8 := [r.flags, .ofInt r.dx, .ofInt r.dy]

end Report

/-- A piece of a stream. -/
inductive Piece where
  | noise (b : UInt8) (h : b &&& 0x08 = 0)
  | packet (r : Report)
  | overflow (b₀ b₁ b₂ : UInt8) (hfirst : b₀ &&& 0x08 ≠ 0) (hover : b₀ &&& 0xC0 ≠ 0)

namespace Piece

def bytes : Piece → List UInt8
  | noise b _ => [b]
  | packet r => r.encode
  | overflow b₀ b₁ b₂ _ _ => [b₀, b₁, b₂]

def report : Piece → Option Report
  | packet r => some r
  | _ => none

end Piece

def streamBytes (pieces : List Piece) : List UInt8 := pieces.flatMap Piece.bytes

def reports (pieces : List Piece) : List Report := pieces.filterMap Piece.report

theorem streamBytes_append (before after : List Piece) :
    streamBytes (before ++ after) = streamBytes before ++ streamBytes after := List.flatMap_append

theorem reports_append (before after : List Piece) : reports (before ++ after) = reports before ++ reports after :=
  List.filterMap_append

/-- Where a report takes a pointer on a screen of that size. -/
def track (w h : Int) (pos : Int × Int) (r : Report) : Int × Int :=
  (max 0 (min (pos.1 + r.dx) (w - 1)), max 0 (min (pos.2 - r.dy) (h - 1)))

/-- The bytes that come from the mouse. -/
def auxBytes (ports : List (UInt8 × UInt8)) : List UInt8 :=
  (ports.filter fun port => decide (port.1 &&& stAuxData ≠ 0)).map Prod.snd

/-! ### One packet -/

section Decode
variable {p : PacketState} {s : Mouse} {w h : Int}

/-- The flags of a report, read back. -/
theorem flags_read (r : Report) :
    r.flags &&& 0x08 ≠ 0 ∧ r.flags &&& 0xC0 = 0 ∧ r.flags &&& 0x07 = r.buttons ∧
    r.flags.toNat <<< 4 &&& 0x100 = (if r.dx < 0 then 0x100 else 0) ∧
    r.flags.toNat <<< 3 &&& 0x100 = (if r.dy < 0 then 0x100 else 0) := by
  obtain ⟨i, hi⟩ := exists_mask r.buttons_lt
  unfold Report.flags
  rw [← hi]
  clear hi
  split <;> split <;> revert i <;> decide +kernel

/-- A low byte and its sign make the number. -/
theorem low_sign {v : Int} (hv : -256 ≤ v ∧ v ≤ 255) :
    ((UInt8.ofInt v).toNat : Int) - ((if v < 0 then 0x100 else 0 : Nat) : Int) = v := by
  have hlow : ((UInt8.ofInt v).toNat : Int) = v % 256 := by
    show (((v % 2 ^ 8).toNat % 2 ^ 8 : Nat) : Int) = v % 256
    omega
  rw [hlow]
  split <;> omega

theorem feed_noise (hp : p.cycle = 0) {b : UInt8} (hb : b &&& 0x08 = 0) : feed packetByte p [b] = (p, []) := by
  simp only [feed, packetByte, hp, hb, if_true, List.append_nil]

/-- Three bytes, the first of which may start a packet. -/
theorem feed_three (hp : p.cycle = 0) {b₀ : UInt8} (b₁ b₂ : UInt8) (hb : b₀ &&& 0x08 ≠ 0) :
    (feed packetByte p [b₀, b₁, b₂]).1.cycle = 0 ∧
    (feed packetByte p [b₀, b₁, b₂]).2 =
      if b₀ &&& 0xC0 ≠ 0 then []
      else
        [{dx := b₁.toNat - (b₀.toNat <<< 4 &&& 0x100 : Nat), dy := b₂.toNat - (b₀.toNat <<< 3 &&& 0x100 : Nat),
          buttons := b₀ &&& 0x07}] := by
  simp only [feed, packetByte, hp, hb, if_false, List.append_nil, List.nil_append]
  split <;> exact ⟨rfl, rfl⟩

theorem feed_piece (hp : p.cycle = 0) (piece : Piece) :
    (feed packetByte p piece.bytes).1.cycle = 0 ∧
    (feed packetByte p piece.bytes).2 = piece.report.toList.map Report.motion := by
  cases piece with
  | noise b hb =>
    rw [Piece.bytes, feed_noise hp hb]
    exact ⟨hp, rfl⟩
  | packet r =>
    obtain ⟨hfirst, hover, hbuttons, hx, hy⟩ := flags_read r
    obtain ⟨hcycle, hmotion⟩ := feed_three hp (.ofInt r.dx) (.ofInt r.dy) hfirst
    refine ⟨hcycle, hmotion.trans ?_⟩
    rw [if_neg (not_not.mpr hover), hbuttons, hx, hy, low_sign r.dx_bounds, low_sign r.dy_bounds]
    rfl
  | overflow b₀ b₁ b₂ hfirst hover =>
    obtain ⟨hcycle, hmotion⟩ := feed_three hp b₁ b₂ hfirst
    exact ⟨hcycle, hmotion.trans (if_pos hover)⟩

/-! ### A stream -/

theorem feed_stream (hp : p.cycle = 0) (pieces : List Piece) :
    (feed packetByte p (streamBytes pieces)).1.cycle = 0 ∧
    (feed packetByte p (streamBytes pieces)).2 = (reports pieces).map Report.motion := by
  induction pieces generalizing p with
  | nil => exact ⟨hp, rfl⟩
  | cons piece pieces ih =>
    obtain ⟨hcycle, hfirst⟩ := feed_piece hp piece
    obtain ⟨hcycle', hrest⟩ := ih hcycle
    have hsplit : streamBytes (piece :: pieces) = piece.bytes ++ streamBytes pieces := rfl
    rw [hsplit, feed_append]
    refine ⟨hcycle', ?_⟩
    rw [hfirst, hrest, ← List.map_append]
    cases piece <;> rfl

/-- Interrupts of other devices aside, the handler decodes packets and moves the pointer. -/
theorem feed_mouseIrq (s : Mouse) (ports : List (UInt8 × UInt8)) :
    let decoded := feed packetByte s.toPacketState (auxBytes ports)
    let moved := feed move s.toPointer decoded.2
    feed mouseIrq s ports = ({toPacketState := decoded.1, toPointer := moved.1}, moved.2) := by
  induction ports generalizing s with
  | nil => rfl
  | cons port ports ih =>
    by_cases haux : port.1 &&& stAuxData ≠ 0
    · have hbytes : auxBytes (port :: ports) = port.2 :: auxBytes ports := by
        rw [auxBytes, List.filter_cons, if_pos (decide_eq_true haux)]
        rfl
      rw [hbytes]
      simp only [feed, ih, mouseIrq, if_pos haux, feed_append]
    · have hbytes : auxBytes (port :: ports) = auxBytes ports := by
        rw [auxBytes, List.filter_cons, if_neg (by simpa using haux)]
        rfl
      rw [hbytes]
      simp only [feed, ih, mouseIrq, if_neg haux, List.nil_append]

/-- Reports move the pointer as `track` says, and the last one holds the buttons. -/
theorem feed_move {q : Pointer} (hw : Side q.sW) (hh : Side q.sH) (rs : List Report) :
    let moved := (feed move q (rs.map Report.motion)).1
    (moved.sX, moved.sY) = rs.foldl (track q.sW.toNat q.sH.toNat) (q.sX, q.sY) ∧
    moved.sButtons = (rs.getLast?.map Report.buttons).getD q.sButtons := by
  induction rs generalizing q with
  | nil => exact ⟨rfl, rfl⟩
  | cons r rs ih =>
    obtain ⟨hpos, hbuttons⟩ := @ih (move q r.motion).1 hw hh
    have hmoved : ((move q r.motion).1.sX, (move q r.motion).1.sY) = track q.sW.toNat q.sH.toNat (q.sX, q.sY) r :=
      Prod.ext (clamp_eq hw _) (clamp_eq hh _)
    refine ⟨hpos.trans ?_, hbuttons.trans ?_⟩
    · rw [hmoved]
      rfl
    · cases rs with
      | nil => rfl
      | cons r' rs => rw [List.getLast?_cons_cons, List.getLast?_cons, Option.map_some, Option.getD_some, Option.getD_some]

end Decode

/-- **Mouse decoding undoes the encoding.** From a packet boundary, a stream of packets,
noise and overflow packets decodes to its reports and ends at a packet boundary; the
pointer is where the reports take it. An overflow packet at a packet boundary changes
neither the pointer nor the events. -/
theorem mouse_decodes {s : Mouse} (hw : Side s.sW) (hh : Side s.sH) (hcycle : s.cycle = 0) :
    (∀ (pieces : List Piece) (ports : List (UInt8 × UInt8)), auxBytes ports = streamBytes pieces →
      let run := (feed mouseIrq s ports).1
      (feed packetByte s.toPacketState (auxBytes ports)).2 = (reports pieces).map Report.motion ∧
      (run.sX, run.sY) = (reports pieces).foldl (track s.sW.toNat s.sH.toNat) (s.sX, s.sY) ∧
      run.sButtons = ((reports pieces).getLast?.map Report.buttons).getD s.sButtons ∧ run.cycle = 0) ∧
    ∀ (before after : List Piece) (b₀ b₁ b₂ : UInt8) (ports ports' : List (UInt8 × UInt8)),
      b₀ &&& 0x08 ≠ 0 → b₀ &&& 0xC0 ≠ 0 →
      auxBytes ports = streamBytes before ++ streamBytes after →
      auxBytes ports' = streamBytes before ++ [b₀, b₁, b₂] ++ streamBytes after →
      (feed mouseIrq s ports').1.toPointer = (feed mouseIrq s ports).1.toPointer ∧
      (feed mouseIrq s ports').2 = (feed mouseIrq s ports).2 := by
  refine ⟨fun pieces ports hports => ?_, fun before after b₀ b₁ b₂ ports ports' hfirst hover hports hports' => ?_⟩
  · obtain ⟨hend, hdecoded⟩ := feed_stream hcycle pieces
    obtain ⟨hpos, hbuttons⟩ := feed_move hw hh (reports pieces)
    rw [feed_mouseIrq, hports, hdecoded]
    exact ⟨rfl, hpos, hbuttons, hend⟩
  · let lost : Piece := .overflow b₀ b₁ b₂ hfirst hover
    have hsplit : streamBytes before ++ [b₀, b₁, b₂] ++ streamBytes after = streamBytes (before ++ lost :: after) := by
      rw [streamBytes_append, List.append_assoc]
      rfl
    have hreports : reports (before ++ lost :: after) = reports (before ++ after) := by
      rw [reports_append, reports_append]
      rfl
    rw [feed_mouseIrq, feed_mouseIrq, hports, hports', hsplit, ← streamBytes_append, (feed_stream hcycle _).2,
      (feed_stream hcycle _).2, hreports]
    exact ⟨rfl, rfl⟩

/-- Five to the right and one down, behind a byte of noise. -/
def fiveRight : List Piece := [.noise 0x07 (by decide), .packet ⟨5, -1, 0x01, by decide, by decide, by decide⟩]

theorem mouse_decodes_fiveRight :
    let run := (feed mouseIrq .start [(0x21, 0x07), (0x21, 0x29), (0x20, 0x05), (0x01, 0x1E), (0x21, 0xFF)]).1
    (run.sX, run.sY) = (reports fiveRight).foldl (track 640 480) (0, 0) ∧ (run.sX, run.sY) = (5, 1) ∧
      run.cycle = 0 := by
  obtain ⟨_, hpos, _, hend⟩ := (mouse_decodes (s := .start) ⟨by decide, by decide⟩ ⟨by decide, by decide⟩ rfl).1
    fiveRight [(0x21, 0x07), (0x21, 0x29), (0x20, 0x05), (0x01, 0x1E), (0x21, 0xFF)] (by decide +kernel)
  exact ⟨hpos, by decide +kernel, hend⟩

end ArcMonark.Drivers
