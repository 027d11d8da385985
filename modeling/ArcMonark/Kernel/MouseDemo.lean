import ArcMonark.Drivers.Mouse
import ArcMonark.Gui.GfxSave

/-! The mouse demo (`cmd_mouse`).

The demo draws its scene once. From then on it redraws three lamps when the buttons change,
and moves the cursor by restoring what was under it, saving what is under its new place,
and drawing it there. What was saved when the cursor came is out of date when a lamp under
it has changed since. -/
namespace ArcMonark.Kernel
open Library Gui Drivers

def curW : Nat := 12

def curH : Nat := 15

def mouseLeft : UInt8 := 0x01

def mouseRight : UInt8 := 0x02

def mouseMiddle : UInt8 := 0x04

def gfxRgb (r g b : UInt32) : UInt32 := (0xFF000000 : UInt32) ||| r <<< 16 ||| g <<< 8 ||| b

/-- The conversion of an `int` to `uint32_t`. -/
def toU32 (n : Int) : Nat := (n % 2 ^ 32).toNat

/-- `X` is the black edge, `o` the filling, and the rest lets through what is under it. -/
def cursorGlyph : List (List Char) := [
  "X           ".toList,
  "XX          ".toList,
  "XoX         ".toList,
  "XooX        ".toList,
  "XoooX       ".toList,
  "XooooX      ".toList,
  "XoooooX     ".toList,
  "XooooooX    ".toList,
  "XoooooooX   ".toList,
  "XoooooXXXX  ".toList,
  "XooXooX     ".toList,
  "XoX XooX    ".toList,
  "XX   XooX   ".toList,
  "X     XooX  ".toList,
  "       XX   ".toList]

def drawCursor (g : Framebuffer) (b : Buffers) (cx cy : Int) (buttons : UInt8) : Buffers :=
  let fill := if buttons &&& mouseLeft ≠ 0 then gfxRgb 255 210 0 else gfxRgb 255 255 255
  let row := fun r b =>
    let row := cursorGlyph.getD r []
    let point := fun c b =>
      if row.getD c ' ' = 'X' then gfxPixel g b (toU32 (cx + (c : Nat))) (toU32 (cy + (r : Nat))) (gfxRgb 0 0 0)
      else if row.getD c ' ' = 'o' then gfxPixel g b (toU32 (cx + (c : Nat))) (toU32 (cy + (r : Nat))) fill
      else b
    loop row.length point b
  loop cursorGlyph.length row b

/-- Green while the button is down. -/
def lamp (b bit : UInt8) : UInt32 := if b &&& bit ≠ 0 then gfxRgb 0 220 0 else gfxRgb 90 90 90

def drawBtns (g : Framebuffer) (buffers : Buffers) (b : UInt8) : Buffers :=
  let buffers := gfxFillRect g buffers 200 2 14 14 (lamp b mouseLeft)
  let buffers := gfxFillRect g buffers 218 2 14 14 (lamp b mouseMiddle)
  gfxFillRect g buffers 236 2 14 14 (lamp b mouseRight)

def gfxText (g : Framebuffer) (b : Buffers) (s : List UInt8) (x y : Nat) (fg bg : UInt32) : Buffers :=
  match s with
  | [] => b
  | c :: s =>
    let b := gfxChar g b c x y fg bg
    let x := (x + 8) % 2 ^ 32
    if (x + 8) % 2 ^ 32 > g.width then gfxText g b s 0 ((y + 16) % 2 ^ 32) fg bg else gfxText g b s x y fg bg

def demoText : List UInt8 :=
  "fare demosu - cikmak icin bir tusa bas".toList.map fun c => .ofNat c.toNat

/-- The scene, all but the lamps. -/
def drawScene (g : Framebuffer) (b : Buffers) : Buffers :=
  let b := gfxClear g b (gfxRgb 25 25 40)
  let b := gfxFillRect g b 0 0 g.width 18 (gfxRgb 50 50 80)
  gfxText g b demoText 6 1 (gfxRgb 200 200 220) (gfxRgb 50 50 80)

/-- What one iteration reads from the mouse. -/
structure Sample where
  x : Int
  y : Int
  buttons : UInt8

/-- A sample on the screen. -/
structure Sample.OnScreen (g : Framebuffer) (s : Sample) : Prop where
  left : 0 ≤ s.x
  right : s.x < g.width
  top : 0 ≤ s.y
  bottom : s.y < g.height

/-- A screen that the cursor fits on, and whose last place an `int` holds. -/
structure CursorFits (g : Framebuffer) : Prop where
  width_ge : curW ≤ g.width
  height_ge : curH ≤ g.height
  width_lt : g.width < 2 ^ 31 + curW
  height_lt : g.height < 2 ^ 31 + curH

/-- The variables of `cmd_mouse`. -/
structure Demo where
  buffers : Buffers
  under : Nat → UInt32
  ox : Int
  oy : Int
  ob : UInt8

/-- `under` is static, and holds what an earlier run left in it. -/
def Demo.start (g : Framebuffer) (b : Buffers) (under : Nat → UInt32) : Demo :=
  {buffers := gfxPresent g (drawBtns g (drawScene g b) 0), under, ox := -1, oy := -1, ob := 0}

/-- `m > (int)(size - cur) ? (int)(size - cur) : m` -/
def keepOn (m : Int) (size cur : Nat) : Int :=
  let last := toInt (.ofNat size - .ofNat cur)
  if m > last then last else m

/-- One iteration of the loop of `cmd_mouse`. -/
def mouseIteration (g : Framebuffer) (s : Demo) (sample : Sample) : Demo :=
  let b := sample.buttons
  let nx := keepOn sample.x g.width curW
  let ny := keepOn sample.y g.height curH
  let moved := nx ≠ s.ox ∨ ny ≠ s.oy
  let btnChanged := b ≠ s.ob
  let buffers := if btnChanged then gfxPresentRect g (drawBtns g s.buffers b) 200 2 52 14 else s.buffers
  if moved ∨ btnChanged then
    let buffers :=
      if moved ∧ s.ox ≥ 0 then
        gfxPresentRect g (gfxBlit g buffers s.under (toU32 s.ox) (toU32 s.oy) curW curH) (toU32 s.ox) (toU32 s.oy)
          curW curH
      else buffers
    let under :=
      if moved ∨ s.ox < 0 then gfxCopyOut g buffers (toU32 nx) (toU32 ny) curW curH s.under else s.under
    let buffers := gfxPresentRect g (drawCursor g buffers nx ny b) (toU32 nx) (toU32 ny) curW curH
    {buffers, under, ox := nx, oy := ny, ob := b}
  else {s with buffers, ob := b}

/-- The demo after so many iterations. -/
def mouseDemo (g : Framebuffer) (b : Buffers) (under : Nat → UInt32) (samples : List Sample) : Demo :=
  samples.foldl (mouseIteration g) (.start g b under)

/-! ### What is drawn -/

/-- A point of the cursor. -/
def cursorColour (buttons : UInt8) (c r : Nat) : Option UInt32 :=
  if (cursorGlyph.getD r []).getD c ' ' = 'X' then some (gfxRgb 0 0 0)
  else if (cursorGlyph.getD r []).getD c ' ' = 'o' then
    some (if buttons &&& mouseLeft ≠ 0 then gfxRgb 255 210 0 else gfxRgb 255 255 255)
  else none

/-- The cursor at its place. -/
def cursorAt (x y : Nat) (buttons : UInt8) : Picture (Option UInt32) := fun i j =>
  if (x ≤ i ∧ i < x + curW) ∧ y ≤ j ∧ j < y + curH then cursorColour buttons (i - x) (j - y) else none

/-- The picture with the lamps. -/
def withLamps (p : Picture UInt32) (b : UInt8) : Picture UInt32 :=
  ((p.patch 200 2 14 14 fun _ _ => lamp b mouseLeft).patch 218 2 14 14 fun _ _ => lamp b mouseMiddle).patch 236 2 14 14
    fun _ _ => lamp b mouseRight

section Drawing
variable {g : Framebuffer} {hfits : 4 * g.width ≤ g.pitch} {b b' : Buffers} {p q : Picture UInt32} {x y w h : Nat}

theorem toU32_eq {n : Nat} (h : n < 2 ^ 32) : toU32 n = n := by
  unfold toU32
  omega

theorem cursorGlyph_width : ∀ r < curH, (cursorGlyph.getD r []).length = curW := by decide

/-- The drawing of the cursor, point by point. -/
theorem drawCursor_eq (g : Framebuffer) (b : Buffers) (cx cy : Int) (buttons : UInt8) :
    drawCursor g b cx cy buttons = loop curH (fun r b => loop curW (fun c b =>
      (cursorColour buttons c r).elim b fun v => gfxPixel g b (toU32 (cx + (c : Nat))) (toU32 (cy + (r : Nat))) v) b) b := by
  have hrows : cursorGlyph.length = curH := rfl
  unfold drawCursor
  rw [hrows]
  refine loop_congr fun r s hr => ?_
  dsimp only
  rw [cursorGlyph_width r hr]
  refine loop_congr fun c s _ => ?_
  unfold cursorColour
  split
  · rfl
  · split <;> rfl

theorem drawCursor_drawn (hd : Drawn (g.raster hfits) b b' p) (hx : x + curW ≤ g.width) (hy : y + curH ≤ g.height)
    (buttons : UInt8) : Drawn (g.raster hfits) b (drawCursor g b' x y buttons) (p.overlay (cursorAt x y buttons)) := by
  have hwidth := g.width_lt
  have hheight := g.height_lt
  have hpatch : p.patch x y curW curH (p.overlay (cursorAt x y buttons)) = p.overlay (cursorAt x y buttons) := by
    funext i j
    by_cases hin : (x ≤ i ∧ i < x + curW) ∧ y ≤ j ∧ j < y + curH
    · exact Picture.patch_inside _ _ _ _ _ _ hin.1 hin.2
    · rw [Picture.patch_outside _ _ _ _ _ _ hin, Picture.overlay, cursorAt, if_neg hin]
      rfl
  rw [← hpatch, drawCursor_eq]
  refine loop_patch (R := Drawn (g.raster hfits) b) hd fun j i s hj hi hstage => ?_
  have hcol : toU32 ((x : Int) + (i : Nat)) = x + i := toU32_eq (n := x + i) (by omega)
  have hrow : toU32 ((y : Int) + (j : Nat)) = y + j := toU32_eq (n := y + j) (by omega)
  have hcolour : p.overlay (cursorAt x y buttons) (x + i) (y + j) = (cursorColour buttons i j).getD (p (x + i) (y + j)) := by
    rw [Picture.overlay, cursorAt, if_pos (by omega), Nat.add_sub_cancel_left, Nat.add_sub_cancel_left]
  rw [hcolour, hcol, hrow]
  cases cursorColour buttons i j with
  | none =>
    -- The point lets through what is under it.
    rw [Option.getD_none, Picture.set_self _ _ _ (Picture.partly_next p _ x y curW j i)]
    exact hstage
  | some v => exact gfxPixel_drawn hstage _ _ _

theorem drawBtns_drawn (hd : Drawn (g.raster hfits) b b' p) (buttons : UInt8) :
    Drawn (g.raster hfits) b (drawBtns g b' buttons) (withLamps p buttons) := by
  have hleft := gfxFillRect_drawn (x := 200) (y := 2) (w := 14) (h := 14) hd (by decide) (by decide) (lamp buttons mouseLeft)
  have hmiddle := gfxFillRect_drawn (x := 218) (y := 2) (w := 14) (h := 14) hleft (by decide) (by decide)
    (lamp buttons mouseMiddle)
  exact gfxFillRect_drawn (x := 236) (y := 2) (w := 14) (h := 14) hmiddle (by decide) (by decide) (lamp buttons mouseRight)

end Drawing

end ArcMonark.Kernel
