import ArcMonark.Gui.GfxSave
import ArcMonark.Mm.HeapClient

/-! The back buffer in the heap.

`gfx_backbuffer_init` gets the back buffer from `kmalloc`, and from then on the primitives
draw into the heap, through the page tables, while other tasks use the heap too and may
take the processor between any two accesses. `drawing_in_heap` says that neither disturbs
the other: the heap goes on as if nobody drew, and each call draws what it draws into a
buffer of its own. -/
namespace ArcMonark.Gui
open Library Mm Virtual
open Heap (HeapBoot HeapEvent HeapRun HeapStep Client client_reachable reachable_writeBytes reachable_memset)

/-! ### The accesses -/

/-- An access of a primitive, at an offset in a buffer. -/
inductive Access where
  /-- A value is stored through `g_fb`. -/
  | put (off : Nat) (v : UInt32)
  /-- A register is loaded through `g_fb`. -/
  | load (off : Nat)
  /-- The register is stored through `g_fb`. -/
  | store (off : Nat)
  /-- The register is stored through `g_hw`. -/
  | display (off : Nat)
  /-- The register is stored to the array of `gfx_copy_out`. -/
  | keep (i : Nat)

/-- `for (i = 0; i < n; i++)` -/
def rounds (n : Nat) (body : Nat → List Access) : List Access := (List.range n).flatMap body

/-- A call of a primitive. The other functions that draw call nothing but these. -/
inductive DrawCall where
  | pixel (x y : Nat) (argb : UInt32)
  | fillRect (x y w h : Nat) (argb : UInt32)
  | blit (src : Nat → UInt32) (x y w h : Nat)
  | char (c : UInt8) (x y : Nat) (fg bg : UInt32)
  | scrollUp (dy : Nat) (argb : UInt32)
  | copyOut (x y w h : Nat)
  | present
  | presentRect (x y w h : Nat)

section Code
variable (g : Framebuffer)

def pixelAccesses (x y : Nat) (argb : UInt32) : List Access :=
  if x ≥ g.width ∨ y ≥ g.height then [] else [.put (y * g.pitch + 4 * x) argb]

/-- The walk of the primitives over a rectangle that is cut off at the edges. -/
def walkAccesses (x y w h : Nat) (body : Nat → Nat → List Access) : List Access :=
  if x ≥ g.width ∨ y ≥ g.height then []
  else rounds (clip y h g.height) fun j => rounds (clip x w g.width) (body j)

/-- Where a primitive finds the point of a rectangle, in row `j` and column `i` of it. -/
def pointOffset (x y j i : Nat) : Nat := (y + j) % 2 ^ 32 * g.pitch + 4 * x + 4 * i

def fillAccesses (x y w h : Nat) (argb : UInt32) : List Access :=
  walkAccesses g x y w h fun j i => [.put (pointOffset g x y j i) argb]

/-- The accesses of a call, in order. -/
def DrawCall.accesses : DrawCall → List Access
  | pixel x y argb => pixelAccesses g x y argb
  | fillRect x y w h argb => fillAccesses g x y w h argb
  | blit src x y w h => walkAccesses g x y w h fun j i => [.put (pointOffset g x y j i) (src (j * w + i))]
  | char c x y fg bg =>
    let uc := if c ≥ 128 then 0x3F else c
    rounds 16 fun row =>
      let bits := glyphRow uc row
      rounds 8 fun col => pixelAccesses g ((x + col) % 2 ^ 32) ((y + row) % 2 ^ 32)
        (if bits &&& 0x80 >>> UInt8.ofNat col ≠ 0 then fg else bg)
  | scrollUp dy argb =>
    if dy = 0 then []
    else if dy ≥ g.height then fillAccesses g 0 0 g.width g.height argb
    else
      (rounds (g.height - dy) fun y => rounds g.width fun x =>
        [.load ((y + dy) % 2 ^ 32 * g.pitch + 4 * x), .store (y * g.pitch + 4 * x)]) ++
      fillAccesses g 0 (g.height - dy) g.width dy argb
  | copyOut x y w h => rounds h fun j => rounds w fun i => [.load (pointOffset g x y j i), .keep (j * w + i)]
  | present => rounds (g.height * g.pitch / 4) fun i => [.load (4 * i), .display (4 * i)]
  | presentRect x y w h =>
    walkAccesses g x y w h fun j i => [.load (pointOffset g x y j i), .display (pointOffset g x y j i)]

end Code

/-- The drawing code's variables, and the machine. -/
structure Screen where
  heap : HeapRun
  /-- `g_fb` -/
  fb : Nat
  /-- What `g_hw` points to. -/
  hw : Mem
  register : UInt32
  /-- The array that `gfx_copy_out` fills. -/
  dst : Nat → UInt32

/-- `*(g_fb + off) = v` -/
def Screen.put (s : Screen) (off : Nat) (v : UInt32) : Except Fault Screen := do
  let m ← writeBytes s.heap.machine (add64 s.fb off) 4 v.toNat
  return {s with heap := ⟨m, s.heap.live⟩}

def Access.run (s : Screen) : Access → Except Fault Screen
  | put off v => s.put off v
  | load off => do
    let v ← readBytes s.heap.machine (add64 s.fb off) 4
    return {s with register := .ofNat v}
  | store off => s.put off s.register
  | display off => .ok {s with hw := s.hw.setWord off s.register}
  | keep i => .ok {s with dst := Function.update s.dst i s.register}

/-- `gfx_backbuffer_init` -/
def backbufferInit (g : Framebuffer) (s : Screen) : Except Fault (Int × Screen) := do
  let bytes := g.height * g.pitch
  let (buf, m) ← Heap.kmalloc s.heap.machine bytes
  if buf = null then return (-1, {s with heap := ⟨m, s.heap.live⟩})
  else
    let m ← Virtual.memset m buf 0 bytes
    return (0, {s with heap := ⟨m, Heap.record buf bytes s.heap.live⟩, fb := buf})

/-! ### Drawing beside other tasks -/

/-- The task that draws has some accesses of its call still to make. -/
structure Painting extends Screen where
  todo : List Access

inductive PaintEvent where
  /-- Another task uses the heap. -/
  | other (e : HeapEvent)
  | call (c : DrawCall)
  | access

/-- The rectangle of a call is one that is clipped, or on the screen where nothing clips it. -/
def DrawCall.Fits (g : Framebuffer) : DrawCall → Prop
  | pixel .. | char .. | scrollUp .. | present => True
  | fillRect x y w h _ | blit _ x y w h | presentRect x y w h => (w < 2 ^ 32 ∧ h < 2 ^ 32) ∧ g.Clips x y w h
  | copyOut x y w h => x + w ≤ g.width ∧ y + h ≤ g.height

inductive PaintStep (g : Framebuffer) (s : Painting) : PaintEvent → Painting → Prop where
  /-- Nobody else has a pointer to the back buffer. -/
  | other {e w} (hs : HeapStep s.heap e w) (hon : ¬e.On s.fb) : PaintStep g s (.other e) {s with heap := w}
  | call {c} (hidle : s.todo = []) (hfits : c.Fits g) : PaintStep g s (.call c) {s with todo := c.accesses g}
  | access {a rest s'} (htodo : s.todo = a :: rest) (hrun : a.run s.toScreen = .ok s') :
      PaintStep g s .access ⟨s', rest⟩

/-- Drawing, from a `gfx_backbuffer_init` on that has got its memory. -/
def painting (B : HeapBoot) (g : Framebuffer) : System Painting PaintEvent where
  init s := ∃ s₀ : Screen, (Heap.heap B).Reachable s₀.heap ∧ backbufferInit g s₀ = .ok (0, s.toScreen) ∧ s.todo = []
  step := PaintStep g

/-! ### On a buffer of its own -/

/-- The drawing code on a back buffer that is not in the heap. -/
structure Canvas where
  hw : Mem
  back : Mem
  register : UInt32
  dst : Nat → UInt32

def Access.draw (c : Canvas) : Access → Canvas
  | put off v => {c with back := c.back.setWord off v}
  | load off => {c with register := c.back.word off}
  | store off => {c with back := c.back.setWord off c.register}
  | display off => {c with hw := c.hw.setWord off c.register}
  | keep i => {c with dst := Function.update c.dst i c.register}

/-- The buffers, and the array of `gfx_copy_out`. -/
abbrev View := Buffers × (Nat → UInt32)

def Canvas.view (c : Canvas) : View := ({hw := c.hw, back := some c.back}, c.dst)

def DrawCall.run (g : Framebuffer) (v : View) : DrawCall → View
  | pixel x y argb => (gfxPixel g v.1 x y argb, v.2)
  | fillRect x y w h argb => (gfxFillRect g v.1 x y w h argb, v.2)
  | blit src x y w h => (gfxBlit g v.1 src x y w h, v.2)
  | char c x y fg bg => (gfxChar g v.1 c x y fg bg, v.2)
  | scrollUp dy argb => (gfxScrollUp g v.1 dy argb, v.2)
  | copyOut x y w h => (v.1, gfxCopyOut g v.1 x y w h v.2)
  | present => (gfxPresent g v.1, v.2)
  | presentRect x y w h => (gfxPresentRect g v.1 x y w h, v.2)

section Views
variable {g : Framebuffer} {x y w h n : Nat}

theorem rounds_succ (body : Nat → List Access) : rounds (n + 1) body = rounds n body ++ body n := by
  simp [rounds, List.range_succ]

/-- The accesses of a loop do what the loop does, if those of each round do what the round does. -/
theorem view_rounds {σ : Type} (f : σ → View) {body : Nat → List Access} {step : Nat → σ → σ} {c : Canvas} {s : σ}
    (start : c.view = f s)
    (round : ∀ i c s, i < n → c.view = f s → ((body i).foldl Access.draw c).view = f (step i s)) :
    ((rounds n body).foldl Access.draw c).view = f (loop n step s) := by
  induction n with
  | zero => exact start
  | succ n ih =>
    rw [rounds_succ, List.foldl_append, loop]
    exact round n _ _ (Nat.lt_succ_self n) (ih fun i c s hi => round i c s (Nat.lt_succ_of_lt hi))

theorem view_pixel (c : Canvas) (argb : UInt32) :
    ((pixelAccesses g x y argb).foldl Access.draw c).view = (gfxPixel g c.view.1 x y argb, c.view.2) := by
  unfold pixelAccesses gfxPixel
  split <;> rfl

/-- The points of a rectangle are drawn. -/
theorem view_walk (c : Canvas) (val : Nat → Nat → UInt32) :
    ((walkAccesses g x y w h fun j i => [.put (pointOffset g x y j i) (val j i)]).foldl Access.draw c).view =
      (if x ≥ g.width ∨ y ≥ g.height then c.view.1 else c.view.1.draw (g.walk x y w h val c.view.1.fb), c.view.2) := by
  unfold walkAccesses
  split
  · rfl
  · refine view_rounds (fun m => ({hw := c.hw, back := some m}, c.dst)) rfl fun j c' m _ hrow => ?_
    refine view_rounds (fun m => ({hw := c.hw, back := some m}, c.dst)) hrow fun i c' m _ hpoint => ?_
    obtain ⟨_, _, _, _⟩ := c'
    cases hpoint
    rfl

theorem view_fill (c : Canvas) (argb : UInt32) :
    ((fillAccesses g x y w h argb).foldl Access.draw c).view = (gfxFillRect g c.view.1 x y w h argb, c.view.2) :=
  view_walk c fun _ _ => argb

/-- Rows are moved up. -/
theorem view_moved (c : Canvas) (dy : Nat) :
    ((rounds (g.height - dy) fun y => rounds g.width fun x =>
      [.load ((y + dy) % 2 ^ 32 * g.pitch + 4 * x), .store (y * g.pitch + 4 * x)]).foldl Access.draw c).view =
      (c.view.1.draw (loop (g.height - dy) (fun y m => loop g.width
        (fun x m => m.setWord (y * g.pitch + 4 * x) (m.word ((y + dy) % 2 ^ 32 * g.pitch + 4 * x))) m) c.view.1.fb),
        c.view.2) := by
  refine view_rounds (fun m => ({hw := c.hw, back := some m}, c.dst)) rfl fun y c' m _ hrow => ?_
  refine view_rounds (fun m => ({hw := c.hw, back := some m}, c.dst)) hrow fun x c' m _ hpoint => ?_
  obtain ⟨_, _, _, _⟩ := c'
  cases hpoint
  rfl

/-- The accesses of a call draw what the call draws. -/
theorem view_accesses (call : DrawCall) (c : Canvas) :
    ((call.accesses g).foldl Access.draw c).view = call.run g c.view := by
  cases call with
  | pixel x y argb => exact view_pixel c argb
  | fillRect x y w h argb => exact view_fill c argb
  | blit src x y w h => exact view_walk c fun j i => src (j * w + i)
  | char ch x y fg bg =>
    unfold DrawCall.accesses DrawCall.run gfxChar
    dsimp only
    refine view_rounds (fun b => (b, c.dst)) rfl fun row c' b _ hrow => ?_
    refine view_rounds (fun b => (b, c.dst)) hrow fun col c' b _ hcol => ?_
    rw [view_pixel, hcol]
  | scrollUp dy argb =>
    unfold DrawCall.accesses DrawCall.run gfxScrollUp
    dsimp only
    split
    · rfl
    · split
      · exact view_fill c argb
      · rw [List.foldl_append, view_fill, view_moved]
  | copyOut x y w h =>
    refine view_rounds (fun d => (c.view.1, d)) rfl fun j c' d _ hrow => ?_
    refine view_rounds (fun d => (c.view.1, d)) hrow fun i c' d _ hpoint => ?_
    obtain ⟨_, _, _, _⟩ := c'
    cases hpoint
    rfl
  | present =>
    refine view_rounds (fun d => ({hw := d, back := some c.back}, c.dst)) rfl fun i c' d _ hword => ?_
    obtain ⟨_, _, _, _⟩ := c'
    cases hword
    rfl
  | presentRect x y w h =>
    show ((walkAccesses g x y w h _).foldl Access.draw c).view = (gfxPresentRect g c.view.1 x y w h, c.dst)
    unfold walkAccesses gfxPresentRect
    rw [Nat.mul_comm x 4]
    dsimp only [Canvas.view]
    split
    · rfl
    · refine view_rounds (fun d => ({hw := d, back := some c.back}, c.dst)) rfl fun j c' d _ hrow => ?_
      refine view_rounds (fun d => ({hw := d, back := some c.back}, c.dst)) hrow fun i c' d _ hpoint => ?_
      obtain ⟨_, _, _, _⟩ := c'
      cases hpoint
      rfl

end Views

/-! ### Inside the buffer -/

def Access.Inside (n : Nat) : Access → Prop
  | put off _ | load off | store off | display off => off + 4 ≤ n
  | keep _ => True

section Inside
variable {g : Framebuffer} {x y w h n size : Nat}

theorem inside_rounds {body : Nat → List Access} (hbody : ∀ i < n, ∀ a ∈ body i, a.Inside size) :
    ∀ a ∈ rounds n body, a.Inside size := by
  intro a ha
  obtain ⟨i, hi, hmem⟩ := List.mem_flatMap.mp ha
  exact hbody i (List.mem_range.mp hi) a hmem

/-- A point on the screen is in the buffer. -/
theorem point_inside (hfits : 4 * g.width ≤ g.pitch) (hx : x < g.width) (hy : y < g.height) :
    y * g.pitch + 4 * x + 4 ≤ g.height * g.pitch :=
  Raster.offset_lt_row (r := g.raster hfits) hx hy

theorem pointOffset_inside (hfits : 4 * g.width ≤ g.pitch) {i j : Nat} (hx : x + i < g.width) (hy : y + j < g.height) :
    pointOffset g x y j i + 4 ≤ g.height * g.pitch := by
  rw [pointOffset, row_address hy]
  exact point_inside hfits hx hy

theorem pixel_inside (hfits : 4 * g.width ≤ g.pitch) (argb : UInt32) :
    ∀ a ∈ pixelAccesses g x y argb, a.Inside (g.height * g.pitch) := by
  unfold pixelAccesses
  split
  · exact fun a ha => absurd ha (List.not_mem_nil)
  · intro a ha
    rw [List.mem_singleton.mp ha]
    exact point_inside hfits (by omega) (by omega)

theorem walk_inside (hfits : 4 * g.width ≤ g.pitch) (hsize : w < 2 ^ 32 ∧ h < 2 ^ 32) (hclips : g.Clips x y w h)
    {body : Nat → Nat → List Access}
    (hbody : ∀ j i, pointOffset g x y j i + 4 ≤ g.height * g.pitch → ∀ a ∈ body j i, a.Inside (g.height * g.pitch)) :
    ∀ a ∈ walkAccesses g x y w h body, a.Inside (g.height * g.pitch) := by
  unfold walkAccesses
  split
  · exact fun a ha => absurd ha (List.not_mem_nil)
  · refine inside_rounds fun j hj => inside_rounds fun i hi => hbody j i ?_
    obtain ⟨⟨_, _, hx⟩, _, _, hy⟩ := walk_visits (by omega) hsize hclips hj hi
    exact pointOffset_inside hfits hx hy

theorem fill_inside (hfits : 4 * g.width ≤ g.pitch) (hsize : w < 2 ^ 32 ∧ h < 2 ^ 32) (hclips : g.Clips x y w h)
    (argb : UInt32) : ∀ a ∈ fillAccesses g x y w h argb, a.Inside (g.height * g.pitch) :=
  walk_inside hfits hsize hclips fun _ _ hin _ ha => by
    rw [List.mem_singleton.mp ha]
    exact hin

/-- A rectangle as wide as the screen is clipped. -/
theorem clips_rows {y h : Nat} (hrows : y + h ≤ g.height) : g.Clips 0 y g.width h := by
  have hwidth := g.width_lt
  have hheight := g.height_lt
  exact .inr (.inr (.inr (.inr ⟨.inl (by omega), .inl (by omega)⟩)))

/-- A call makes its accesses inside the buffers. -/
theorem accesses_inside (hfits : 4 * g.width ≤ g.pitch) {call : DrawCall} (hcall : call.Fits g) :
    ∀ a ∈ call.accesses g, a.Inside (g.height * g.pitch) := by
  have hwidth := g.width_lt
  have hheight := g.height_lt
  cases call with
  | pixel x y argb => exact pixel_inside hfits argb
  | fillRect x y w h argb => exact fill_inside hfits hcall.1 hcall.2 argb
  | blit src x y w h =>
    refine walk_inside hfits hcall.1 hcall.2 fun j i hin a ha => ?_
    rw [List.mem_singleton.mp ha]
    exact hin
  | char c x y fg bg => exact inside_rounds fun _ _ => inside_rounds fun _ _ => pixel_inside hfits _
  | scrollUp dy argb =>
    unfold DrawCall.accesses
    dsimp only
    split
    · exact fun a ha => absurd ha (List.not_mem_nil)
    · split
      · exact fill_inside hfits ⟨hwidth, hheight⟩ (clips_rows (by omega)) argb
      · intro a ha
        rcases List.mem_append.mp ha with hmoved | hfill
        · refine inside_rounds (fun y hy => inside_rounds fun x hx a ha => ?_) a hmoved
          rw [Nat.mod_eq_of_lt (show y + dy < 2 ^ 32 by omega)] at ha
          rcases List.mem_pair.mp ha with rfl | rfl
          · exact point_inside hfits hx (by omega)
          · exact point_inside hfits hx (by omega)
        · exact fill_inside hfits ⟨hwidth, by omega⟩ (clips_rows (by omega)) argb a hfill
  | copyOut x y w h =>
    obtain ⟨hx, hy⟩ := hcall
    refine inside_rounds fun j hj => inside_rounds fun i hi a ha => ?_
    rcases List.mem_pair.mp ha with rfl | rfl
    · exact pointOffset_inside hfits (by omega) (by omega)
    · trivial
  | present =>
    refine inside_rounds fun i hi a ha => ?_
    have hin : 4 * i + 4 ≤ g.height * g.pitch := by omega
    rcases List.mem_pair.mp ha with rfl | rfl <;> exact hin
  | presentRect x y w h =>
    refine walk_inside hfits hcall.1 hcall.2 fun j i hin a ha => ?_
    rcases List.mem_pair.mp ha with rfl | rfl <;> exact hin

end Inside

/-! ### In the heap -/

/-- The screen is the canvas, with its back buffer of `n` bytes in the heap. -/
structure Holds (B : HeapBoot) (n : Nat) (V : Mem) (s : Screen) (c : Canvas) : Prop where
  reachable : (Heap.heap B).Reachable s.heap
  client : Client B V s.heap
  live : (s.fb, n) ∈ s.heap.live
  back : ∀ i < n, V (s.fb + i) = c.back i
  hw : s.hw = c.hw
  register : s.register = c.register
  dst : s.dst = c.dst

section Heap
variable {B : HeapBoot} {n : Nat} {V : Mem} {s : Screen} {c : Canvas}

theorem Holds.put (h : Holds B n V s c) {off : Nat} (hin : off + 4 ≤ n) (v : UInt32) :
    ∃ m, s.put off v = .ok {s with heap := ⟨m, s.heap.live⟩} ∧
      Holds B n (V.store (s.fb + off) 4 v.toNat) {s with heap := ⟨m, s.heap.live⟩}
        {c with back := c.back.setWord off v} := by
  obtain ⟨m, hm, hclient⟩ := h.client.write h.live hin v.toNat
  refine ⟨m, by rw [Screen.put, hm]; rfl, ?_⟩
  exact ⟨reachable_writeBytes h.reachable h.live hin hm, hclient, h.live, Mem.store_piece h.back off 4 v.toNat,
    h.hw, h.register, h.dst⟩

/-- An access does what it does on a buffer of its own, and changes no other byte of the heap. -/
theorem Holds.access (h : Holds B n V s c) {a : Access} (hin : a.Inside n) :
    ∃ s' V', a.run s = .ok s' ∧ Holds B n V' s' (a.draw c) ∧ s'.fb = s.fb ∧ s'.heap.live = s.heap.live ∧
      ∀ i, i < s.fb ∨ s.fb + n ≤ i → V' i = V i := by
  have houtside : ∀ {off : Nat} (v : UInt32), off + 4 ≤ n → ∀ i, i < s.fb ∨ s.fb + n ≤ i →
      V.store (s.fb + off) 4 v.toNat i = V i := fun v hoff i hi => Mem.store_of_outside _ _ (by omega)
  cases a with
  | put off v =>
    obtain ⟨m, hrun, h'⟩ := h.put hin v
    exact ⟨_, _, hrun, h', rfl, rfl, houtside v hin⟩
  | load off =>
    refine ⟨{s with register := c.back.word off}, V, ?_, ⟨h.reachable, h.client, h.live, h.back, h.hw, rfl, h.dst⟩,
      rfl, rfl, fun _ _ => rfl⟩
    rw [Access.run, h.client.read h.live hin, Mem.load_piece h.back hin]
    rfl
  | store off =>
    obtain ⟨m, hrun, h'⟩ := h.put hin s.register
    have hcanvas : Access.draw c (.store off) = {c with back := c.back.setWord off s.register} := by
      rw [Access.draw, h.register]
    exact ⟨_, _, hrun, hcanvas ▸ h', rfl, rfl, houtside s.register hin⟩
  | display off =>
    refine ⟨_, V, rfl, ⟨h.reachable, h.client, h.live, h.back, ?_, h.register, h.dst⟩, rfl, rfl, fun _ _ => rfl⟩
    rw [Access.draw, ← h.hw, ← h.register]
  | keep i =>
    refine ⟨_, V, rfl, ⟨h.reachable, h.client, h.live, h.back, h.hw, h.register, ?_⟩, rfl, rfl, fun _ _ => rfl⟩
    rw [Access.draw, ← h.dst, ← h.register]

/-- What another task does to the heap does not reach the back buffer. -/
theorem Holds.other (h : Holds B n V s c) {e : HeapEvent} {w : HeapRun} (hs : HeapStep s.heap e w) (hon : ¬e.On s.fb) :
    ∃ V', Holds B n V' {s with heap := w} c := by
  obtain ⟨V', hclient, hkept⟩ := h.client.step hs
  obtain ⟨hlive, hsame⟩ := hkept s.fb n h.live hon
  exact ⟨V', h.reachable.step hs, hclient, hlive, fun i hi => (hsame i hi).trans (h.back i hi), h.hw, h.register, h.dst⟩

end Heap

/-! ### Runs -/

/-- The calls of a run, the last one perhaps still under way. -/
def callsOf (es : List PaintEvent) : List DrawCall := es.filterMap fun
  | .call c => some c
  | .other _ | .access => none

/-- What is left of the call makes the buffers what the calls make of them. -/
structure PaintOk (B : HeapBoot) (g : Framebuffer) (v : View) (s : Painting) : Prop where
  inside : ∀ a ∈ s.todo, a.Inside (g.height * g.pitch)
  holds : ∃ V c, Holds B (g.height * g.pitch) V s.toScreen c ∧ (s.todo.foldl Access.draw c).view = v

section Runs
variable {B : HeapBoot} {g : Framebuffer} {v : View} {s s' : Painting} {e : PaintEvent}

theorem PaintOk.step (hfits : 4 * g.width ≤ g.pitch) (h : PaintOk B g v s) (hs : PaintStep g s e s') :
    PaintOk B g ((callsOf [e]).foldl (DrawCall.run g) v) s' := by
  obtain ⟨V, c, hholds, hview⟩ := h.holds
  cases hs with
  | other hs hon =>
    obtain ⟨V', hholds'⟩ := hholds.other hs hon
    exact ⟨h.inside, V', c, hholds', hview⟩
  | @call call hidle hcall =>
    refine ⟨accesses_inside hfits hcall, V, c, hholds, ?_⟩
    rw [hidle] at hview
    rw [view_accesses]
    exact congrArg (call.run g) hview
  | access htodo hrun =>
    rw [htodo, List.foldl_cons] at hview
    have hin := h.inside _ (by rw [htodo]; exact List.mem_cons_self)
    obtain ⟨_, V', hrun', hholds', _⟩ := hholds.access hin
    cases hrun.symm.trans hrun'
    refine ⟨fun a ha => h.inside a ?_, V', _, hholds', hview⟩
    rw [htodo]
    exact List.mem_cons_of_mem _ ha

/-- `gfx_backbuffer_init` has its memory where there are four frames for each page. -/
theorem backbufferInit_ok {V : Mem} {s : Screen} (h : Client B V s.heap) (hne : g.height * g.pitch ≠ 0)
    (hsize : g.height * g.pitch < 2 ^ 63)
    (hfree : 4 * Heap.pagesFor (g.height * g.pitch) ≤ Pmm.pmmFreeFrames s.heap.machine) :
    ∃ s', backbufferInit g s = .ok (0, s') := by
  obtain ⟨p, m, hk, hp, _⟩ := h.serves hne hsize hfree
  obtain ⟨V', h', _⟩ := h.kmalloc hsize hk
  have hlive : (p, g.height * g.pitch) ∈ Heap.record p (g.height * g.pitch) s.heap.live := by
    rw [Heap.record, if_neg hp]
    exact List.mem_cons_self
  obtain ⟨m', _, hset, _⟩ := h'.memset hlive 0 (Nat.le_refl _)
  refine ⟨{s with heap := ⟨m', Heap.record p (g.height * g.pitch) s.heap.live⟩, fb := p}, ?_⟩
  rw [backbufferInit, hk, ok_bind]
  dsimp only
  rw [if_neg hp, hset]
  rfl

/-- `gfx_backbuffer_init` gives a buffer of its own, all zero. -/
theorem painting_init (hsize : g.height * g.pitch < 2 ^ 63) (h : (painting B g).init s) (m : Mem) :
    PaintOk B g ((gfxBackbufferInit g {hw := s.hw, back := none} (some m)).2, s.dst) s := by
  obtain ⟨s₀, hreach, hinit, htodo⟩ := h
  obtain ⟨⟨p, m₁⟩, hk, hinit⟩ := ok_of_bind hinit
  dsimp only at hinit
  split at hinit
  · cases hinit
  · rename_i hne
    obtain ⟨m₂, hset, hinit⟩ := ok_of_bind hinit
    obtain ⟨V, hclient⟩ := client_reachable hreach
    obtain ⟨V₁, hclient₁, _⟩ := hclient.kmalloc hsize hk
    have hreach₁ := hreach.step (.malloc hsize hk)
    have hlive : (p, g.height * g.pitch) ∈ Heap.record p (g.height * g.pitch) s₀.heap.live := by
      rw [Heap.record, if_neg hne]
      exact List.mem_cons_self
    obtain ⟨m₂', V₂, hset', hclient₂, hzero⟩ := hclient₁.memset hlive 0 (Nat.le_refl _)
    cases hset.symm.trans hset'
    have hreach₂ := reachable_memset hreach₁ hlive (Nat.le_refl _) hset
    obtain ⟨s, todo⟩ := s
    cases hinit
    refine ⟨fun a ha => ?_, V₂, ⟨s₀.hw, fun a => if a < g.height * g.pitch then 0 else m a, s₀.register, s₀.dst⟩,
      ⟨hreach₂, hclient₂, hlive, fun i hi => ?_, rfl, rfl, rfl⟩, ?_⟩
    · rw [show todo = [] from htodo] at ha
      exact absurd ha (List.not_mem_nil)
    · rw [hzero i hi]
      exact (if_pos hi).symm
    · rw [show todo = [] from htodo]
      rfl

theorem painting_run (hfits : 4 * g.width ≤ g.pitch) {s₀ : Painting} {es : List PaintEvent} (h₀ : PaintOk B g v s₀)
    (hrun : (painting B g).Run s₀ es s) : PaintOk B g ((callsOf es).foldl (DrawCall.run g) v) s := by
  induction hrun with
  | nil => exact h₀
  | snoc _ hs ih =>
    rw [callsOf, List.filterMap_append, List.foldl_append]
    exact ih.step hfits hs

end Runs

/-- **Drawing and the heap do not disturb each other.** Other tasks may use the heap between any
two accesses of the drawing code. The heap is one that its own calls and clients make; each
access succeeds, and leaves alone what others have in the heap; and between the calls of the
primitives both buffers are what the same calls make of buffers that are not in the heap. -/
theorem drawing_in_heap {B : HeapBoot} {g : Framebuffer} (hfits : 4 * g.width ≤ g.pitch)
    (hsize : g.height * g.pitch < 2 ^ 63) {s₀ s : Painting} {es : List PaintEvent} (h₀ : (painting B g).init s₀)
    (hrun : (painting B g).Run s₀ es s) (m : Mem) :
    (Heap.heap B).Reachable s.heap ∧
    (s.todo ≠ [] → ∃ s', PaintStep g s .access s') ∧
    (∀ s', PaintStep g s .access s' → s'.heap.live = s.heap.live ∧
      ∀ p k, (p, k) ∈ s.heap.live → p ≠ s.fb → ∀ i < k,
        readByte s'.heap.machine (p + i) = readByte s.heap.machine (p + i)) ∧
    (s.todo = [] →
      let v₀ := ((gfxBackbufferInit g {hw := s₀.hw, back := none} (some m)).2, s₀.dst)
      let v := (callsOf es).foldl (DrawCall.run g) v₀
      s.hw = v.1.hw ∧ s.dst = v.2 ∧
        ∀ i < g.height * g.pitch, readByte s.heap.machine (s.fb + i) = .ok (v.1.fb i)) := by
  have hok := painting_run hfits (painting_init hsize h₀ m) hrun
  obtain ⟨V, c, hholds, hview⟩ := hok.holds
  refine ⟨hholds.reachable, fun hne => ?_, fun s' hs => ?_, fun hidle => ?_⟩
  · obtain ⟨a, rest, htodo⟩ := List.exists_cons_of_ne_nil hne
    obtain ⟨s', _, hrun', _⟩ := hholds.access (hok.inside a (by rw [htodo]; exact List.mem_cons_self))
    exact ⟨_, .access htodo hrun'⟩
  · cases hs with
    | access htodo hrun' =>
      obtain ⟨_, V', hrun'', hholds', hfb, hlive, hkept⟩ :=
        hholds.access (hok.inside _ (by rw [htodo]; exact List.mem_cons_self))
      cases hrun'.symm.trans hrun''
      refine ⟨hlive, fun p k hp hne i hi => ?_⟩
      have happart := hholds.client.apart hp hholds.live hne
      rw [hholds.client.readByte hp hi, hholds'.client.readByte (hlive.symm ▸ hp) hi, hkept (p + i) (by omega)]
  · rw [hidle] at hview
    dsimp only
    rw [← hview]
    refine ⟨hholds.hw, hholds.dst, fun i hi => ?_⟩
    rw [hholds.client.readByte hholds.live hi, hholds.back i hi]
    rfl

/-- Another task takes a frame before the one access of a call. -/
theorem drawing_in_heap_preempted : ∃ s₀ s : Painting,
    (painting (Heap.flatHeap (n := 64) (by decide)) smallScreen).init s₀ ∧
    (painting (Heap.flatHeap (n := 64) (by decide)) smallScreen).Run s₀
      [.call (.pixel 1 1 0x12345678), .other .take, .access] s ∧
    readByte s.heap.machine (s.fb + 20) = .ok 0x78 := by
  obtain ⟨A, role, V, m, hmap, hinit, hheld, hfree⟩ := Heap.flatHeap_start (n := 64) (by decide) (by decide)
  have hclient : Client (Heap.flatHeap (n := 64) (by decide)) V ⟨m, []⟩ := ⟨A, role, _, _, hmap, hheld⟩
  obtain ⟨s, hs⟩ := backbufferInit_ok (g := smallScreen) (s := ⟨⟨m, []⟩, 0, fun _ => 0, 0, fun _ => 0⟩) hclient
    (by decide) (by decide) (by rw [hfree]; decide)
  have h₀ : (painting (Heap.flatHeap (n := 64) (by decide)) smallScreen).init ⟨s, []⟩ := ⟨_, .start hinit, hs, rfl⟩
  have hcall := System.Run.nil.snoc (S := painting (Heap.flatHeap (n := 64) (by decide)) smallScreen)
    (PaintStep.call (s := ⟨s, []⟩) (c := .pixel 1 1 0x12345678) rfl trivial)
  have htake := hcall.snoc (PaintStep.other .take fun hon => hon)
  obtain ⟨_, hnext, _⟩ := drawing_in_heap (by decide) (by decide) h₀ htake fun _ => 0
  obtain ⟨s', hs'⟩ := hnext (List.cons_ne_nil _ _)
  have hdone := htake.snoc hs'
  obtain ⟨_, _, _, hidle⟩ := drawing_in_heap (by decide) (by decide) h₀ hdone fun _ => 0
  have htodo : s'.todo = [] := by
    cases hs' with
    | access htodo _ => exact (List.cons.inj htodo).2.symm
  exact ⟨_, s', h₀, hdone, ((hidle htodo).2.2 20 (by decide)).trans rfl⟩

end ArcMonark.Gui
