import ArcMonark.Drivers.Fb

/-! The console as a text terminal.

A terminal is a grid of cells with a cursor. A printable character goes into the cell
at the cursor, which moves on, and wraps at the end of a row; behind the last row every
row moves up and the last one is blank. `console_refines_terminal`: whatever the
console is told, its drawing buffer is the terminal's picture, the strips beside and
below the grid included. -/
namespace ArcMonark.Drivers
open Library Gui

inductive Cell where
  | blank (bg : UInt32)
  | glyph (uc : UInt8) (fg bg : UInt32)
  deriving DecidableEq

/-- The points of a cell, by column and row. -/
def Cell.point : Cell → Picture UInt32
  | blank bg => fun _ _ => bg
  | glyph uc fg bg => Gui.glyph uc fg bg

structure Terminal where
  cols : Nat
  rows : Nat
  curX : Nat
  curY : Nat
  fg : UInt32
  bg : UInt32
  /-- By column and row. -/
  cells : Nat → Nat → Cell

namespace Terminal

/-- A cleared terminal. -/
def cleared (cols rows : Nat) (fg bg : UInt32) : Terminal :=
  {cols, rows, curX := 0, curY := 0, fg, bg, cells := fun _ _ => .blank bg}

/-- Puts a cell where the cursor is. -/
def write (t : Terminal) (cell : Cell) : Terminal :=
  {t with cells := fun col row => if col = t.curX ∧ row = t.curY then cell else t.cells col row}

/-- Every row moves up by one, and the last one is blank. -/
def scroll (t : Terminal) : Terminal :=
  {t with cells := fun col row => if row + 1 < t.rows then t.cells col (row + 1) else .blank t.bg}

def newline (t : Terminal) : Terminal :=
  if t.curY + 1 < t.rows then {t with curX := 0, curY := t.curY + 1} else {t.scroll with curX := 0}

def put (t : Terminal) (c : UInt8) : Terminal :=
  if c = 0x0A then t.newline
  else if c = 0x0D then {t with curX := 0}
  else if c = 0x08 then Terminal.write {t with curX := t.curX - 1} (.blank t.bg)
  else
    let t := t.write (.glyph (glyphOf c) t.fg t.bg)
    if t.curX + 1 < t.cols then {t with curX := t.curX + 1} else t.newline

/-- What the terminal can be told. The background changes with a clear only. -/
inductive Op where
  | clear
  | put (c : UInt8)
  | print (str : List UInt8)
  | color (fg : UInt32)
  | recolor (fg bg : UInt32)

/-- The calls of the console that an operation stands for. -/
def Op.calls : Op → List ConsoleCall
  | clear => [.clearScreen]
  | put c => [.putchar c]
  | print str => [.print str]
  | color fg => [.color fg]
  | recolor fg bg => [.setColor fg bg, .clearScreen]

def tell (t : Terminal) : Op → Terminal
  | .clear => cleared t.cols t.rows t.fg t.bg
  | .put c => t.put c
  | .print str => (str.takeWhile (· ≠ 0)).foldl put t
  | .color fg => {t with fg}
  | .recolor fg bg => cleared t.cols t.rows fg bg

/-- The picture of a terminal: its cells, and the background around them. -/
def picture (t : Terminal) : Picture UInt32 := fun x y =>
  if x < 8 * t.cols ∧ y < 16 * t.rows then (t.cells (x / 8) (y / 16)).point (x % 8) (y % 16) else t.bg

/-! ### What the operations do to the picture -/

section Picture
variable {t : Terminal} {x y : Nat}

theorem picture_grid (hx : x < 8 * t.cols) (hy : y < 16 * t.rows) :
    t.picture x y = (t.cells (x / 8) (y / 16)).point (x % 8) (y % 16) := if_pos ⟨hx, hy⟩

theorem picture_cell {col row i j : Nat} (hcol : col < t.cols) (hrow : row < t.rows) (hi : i < 8) (hj : j < 16) :
    t.picture (8 * col + i) (16 * row + j) = (t.cells col row).point i j := by
  rw [picture_grid (by omega) (by omega), show (8 * col + i) / 8 = col by omega, show (8 * col + i) % 8 = i by omega,
    show (16 * row + j) / 16 = row by omega, show (16 * row + j) % 16 = j by omega]

theorem picture_strip (h : 8 * t.cols ≤ x ∨ 16 * t.rows ≤ y) : t.picture x y = t.bg := if_neg (by omega)

theorem picture_cleared (cols rows : Nat) (fg bg : UInt32) : (cleared cols rows fg bg).picture = fun _ _ => bg := by
  funext x y
  unfold picture
  split <;> rfl

/-- A cell is a patch of the picture. -/
theorem picture_write (hx : t.curX < t.cols) (hy : t.curY < t.rows) (cell : Cell) :
    (t.write cell).picture =
      t.picture.patch (8 * t.curX) (16 * t.curY) 8 16 fun i j => cell.point (i - 8 * t.curX) (j - 16 * t.curY) := by
  funext x y
  by_cases hin : x / 8 = t.curX ∧ y / 16 = t.curY
  · have hcell : (t.write cell).cells (x / 8) (y / 16) = cell := if_pos hin
    have hgrid : x < 8 * t.cols ∧ y < 16 * t.rows := by omega
    rw [Picture.patch_inside _ _ _ _ _ _ (by omega) (by omega), picture_grid (t := t.write cell) hgrid.1 hgrid.2, hcell,
      show x % 8 = x - 8 * t.curX by omega, show y % 16 = y - 16 * t.curY by omega]
  · have hcell : (t.write cell).cells (x / 8) (y / 16) = t.cells (x / 8) (y / 16) := if_neg hin
    rw [Picture.patch_outside _ _ _ _ _ _ (by omega), picture, hcell]
    rfl

/-- The strip below the grid moves into the last row, and it is background. -/
theorem picture_scroll {height : Nat} (hrows : t.rows = height / 16) (hy : y < height) :
    t.scroll.picture x y = if y + 16 < height then t.picture x (y + 16) else t.bg := by
  by_cases hgrid : x < 8 * t.cols ∧ y / 16 + 1 < t.rows
  · have hcell : t.scroll.cells (x / 8) (y / 16) = t.cells (x / 8) (y / 16 + 1) := if_pos hgrid.2
    have hrow : y < 16 * t.rows := by omega
    rw [if_pos (by omega), picture_grid (t := t.scroll) hgrid.1 hrow, picture_grid hgrid.1 (by omega), hcell, Nat.add_mod_right,
      Nat.add_div_right y (by decide)]
  · have hbg : t.scroll.picture x y = t.bg := by
      by_cases hrow : x < 8 * t.cols ∧ y < 16 * t.rows
      · have hcell : t.scroll.cells (x / 8) (y / 16) = .blank t.bg := if_neg (by omega)
        rw [picture_grid (t := t.scroll) hrow.1 hrow.2, hcell]
        rfl
      · exact if_neg hrow
    rw [hbg]
    split
    · exact (picture_strip (by omega)).symm
    · rfl

end Picture
end Terminal

/-! ### The console displays the terminal -/

structure Displays (g : Framebuffer) (hfits : 4 * g.width ≤ g.pitch) (s : Console) (t : Terminal) : Prop where
  grid : s.OnGrid g
  cols : t.cols = g.width / chW
  rows : t.rows = g.height / chH
  curX : t.curX = s.curX
  curY : t.curY = s.curY
  fg : t.fg = s.conFg
  bg : t.bg = s.conBg
  shows : (g.raster hfits).Shows s.buffers.fb t.picture

section Displays
variable {g : Framebuffer} {hfits : 4 * g.width ≤ g.pitch} {s s' : Console} {t : Terminal} {c : UInt8}

theorem clearScreen_displays (hwidth : 8 ≤ g.width) (hheight : 16 ≤ g.height) (hfits : 4 * g.width ≤ g.pitch)
    (s : Console) :
    Displays g hfits (clearScreen g s) (.cleared (g.width / chW) (g.height / chH) s.conFg s.conBg) := by
  have hd := gfxClear_drawn (.start ((g.raster hfits).shows_self s.buffers.fb)) s.conBg
  refine ⟨⟨?_, ?_⟩, rfl, rfl, rfl, rfl, rfl, rfl, ?_⟩
  · exact Nat.div_pos hwidth (by decide)
  · exact Nat.div_pos hheight (by decide)
  · rw [Terminal.picture_cleared, clearScreen, gfxPresent_fb]
    exact hd.shows

theorem Displays.curX_lt (h : Displays g hfits s t) : t.curX < t.cols := by
  rw [h.curX, h.cols]
  exact h.grid.curX_lt

theorem Displays.curY_lt (h : Displays g hfits s t) : t.curY < t.rows := by
  rw [h.curY, h.rows]
  exact h.grid.curY_lt

/-- A cell that is drawn is written. -/
theorem Displays.write (h : Displays g hfits s t) {b : Buffers} {cell : Cell}
    (hshows : (g.raster hfits).Shows b.fb
      (t.picture.patch (8 * s.curX) (16 * s.curY) 8 16 fun i j => cell.point (i - 8 * s.curX) (j - 16 * s.curY))) :
    Displays g hfits {s with buffers := b} (t.write cell) := by
  refine ⟨⟨h.grid.curX_lt, h.grid.curY_lt⟩, h.cols, h.rows, h.curX, h.curY, h.fg, h.bg, ?_⟩
  rw [Terminal.picture_write h.curX_lt h.curY_lt, h.curX, h.curY]
  exact hshows

theorem Displays.drawCell (h : Displays g hfits s t) (c : UInt8) :
    Displays g hfits (drawCell g s c) (t.write (.glyph (glyphOf c) t.fg t.bg)) := by
  have hwidth := g.width_lt
  have hheight := g.height_lt
  obtain ⟨hx, hy⟩ := h.grid.cell
  refine h.write ?_
  rw [gfxPresentRect_fb, h.fg, h.bg]
  exact (gfxChar_drawn (.start h.shows) (by omega) (by omega) c s.conFg s.conBg).shows

theorem Displays.eraseCell (h : Displays g hfits s t) : Displays g hfits (eraseCell g s) (t.write (.blank t.bg)) := by
  have hwidth := g.width_lt
  have hheight := g.height_lt
  obtain ⟨hx, hy⟩ := h.grid.cell
  refine h.write ?_
  rw [gfxPresentRect_fb, h.bg]
  exact (gfxFillRect_drawn (.start h.shows) (by omega) (by omega) s.conBg).shows

theorem Displays.lineFeed (h : Displays g hfits s t) : Displays g hfits (lineFeed g s) t.newline := by
  have hgrid := (lineFeed_onGrid h.grid).1
  have hrow : t.curY + 1 < t.rows ↔ s.curY + 1 < g.height / chH := by rw [h.curY, h.rows]
  unfold Terminal.newline
  rcases lineFeed_cases h.grid with ⟨hroom, heq⟩ | ⟨hlast, heq⟩
  · rw [if_pos (hrow.mpr hroom)]
    rw [heq] at hgrid ⊢
    exact ⟨hgrid, h.cols, h.rows, rfl, congrArg (· + 1) h.curY, h.fg, h.bg, h.shows⟩
  · rw [if_neg (fun hroom => absurd (hrow.mp hroom) (by omega))]
    rw [heq] at hgrid ⊢
    refine ⟨hgrid, h.cols, h.rows, rfl, h.curY, h.fg, h.bg, ?_⟩
    have hd := gfxScrollUp_drawn (.start h.shows) (show 16 < 2 ^ 32 by decide) s.conBg
    rw [gfxPresent_fb]
    refine hd.shows.congr fun x y _ hy => ?_
    rw [← h.bg]
    exact (Terminal.picture_scroll h.rows hy).symm

theorem Displays.put (h : Displays g hfits s t) (hput : Put g s c s') : Displays g hfits s' (t.put c) := by
  cases hput with
  | newline => exact h.lineFeed
  | home =>
    exact ⟨⟨Nat.zero_lt_of_lt h.grid.curX_lt, h.grid.curY_lt⟩, h.cols, h.rows, rfl, h.curY, h.fg, h.bg, h.shows⟩
  | erase =>
    have hleft : Displays g hfits {s with curX := s.curX - 1} {t with curX := t.curX - 1} :=
      ⟨h.grid.left, h.cols, h.rows, congrArg (· - 1) h.curX, h.curY, h.fg, h.bg, h.shows⟩
    exact hleft.eraseCell
  | plain hc hroom =>
    have hcell := h.drawCell c
    have hroom' : (t.write (.glyph (glyphOf c) t.fg t.bg)).curX + 1 < (t.write (.glyph (glyphOf c) t.fg t.bg)).cols := by
      rw [hcell.curX, hcell.cols]
      exact hroom
    rw [Terminal.put, if_neg hc.1, if_neg hc.2.1, if_neg hc.2.2, if_pos hroom']
    exact ⟨⟨hroom, hcell.grid.curY_lt⟩, hcell.cols, hcell.rows, congrArg (· + 1) hcell.curX, hcell.curY, hcell.fg,
      hcell.bg, hcell.shows⟩
  | wrap hc hlast =>
    have hcell := h.drawCell c
    have hlast' : ¬ (t.write (.glyph (glyphOf c) t.fg t.bg)).curX + 1 < (t.write (.glyph (glyphOf c) t.fg t.bg)).cols := by
      rw [hcell.curX, hcell.cols]
      exact hlast
    rw [Terminal.put, if_neg hc.1, if_neg hc.2.1, if_neg hc.2.2, if_neg hlast']
    exact hcell.lineFeed

theorem Displays.putchar (h : Displays g hfits s t) (c : UInt8) :
    ∃ s', Drivers.putchar g s c = some s' ∧ Displays g hfits s' (t.put c) := by
  obtain ⟨s', hs', hput⟩ := putchar_put h.grid c
  exact ⟨s', hs', h.put hput⟩

theorem Displays.tell (hwidth : 8 ≤ g.width) (hheight : 16 ≤ g.height) (h : Displays g hfits s t) (op : Terminal.Op) :
    ∃ s', calls g s op.calls = some s' ∧ Displays g hfits s' (t.tell op) := by
  cases op with
  | clear =>
    refine ⟨_, rfl, ?_⟩
    rw [Terminal.tell, h.cols, h.rows, h.fg, h.bg]
    exact clearScreen_displays hwidth hheight hfits s
  | put c =>
    obtain ⟨s', hs', h'⟩ := h.putchar c
    refine ⟨s', ?_, h'⟩
    show (Drivers.putchar g s c).bind some = some s'
    rw [hs']
    rfl
  | print str =>
    obtain ⟨s', hs', h'⟩ := print_simulates (R := Displays g hfits) (fun _ _ c hd => hd.putchar c) h str
    refine ⟨s', ?_, h'⟩
    show (print g s str).bind some = some s'
    rw [hs']
    rfl
  | color fg => exact ⟨_, rfl, ⟨h.grid.curX_lt, h.grid.curY_lt⟩, h.cols, h.rows, h.curX, h.curY, rfl, h.bg, h.shows⟩
  | recolor fg bg =>
    refine ⟨_, rfl, ?_⟩
    rw [Terminal.tell, h.cols, h.rows]
    exact clearScreen_displays hwidth hheight hfits (setColor s fg bg)

end Displays

/-- The point of the drawing buffer at a column and a row of the screen. -/
def Console.point (g : Framebuffer) (s : Console) (x y : Nat) : UInt32 := s.buffers.fb.word (y * g.pitch + 4 * x)

/-- **The console is a text terminal.** Cleared, and told anything after that, it
returns, the cursor is on the grid, every cell shows the terminal's cell, what lies
beside and below the grid is background, and the next character scrolls once at most. -/
theorem console_refines_terminal {g : Framebuffer} (hwidth : 8 ≤ g.width) (hheight : 16 ≤ g.height)
    (hfits : 4 * g.width ≤ g.pitch) (s₀ : Console) (ops : List Terminal.Op) :
    ∃ s, calls g s₀ (.clearScreen :: ops.flatMap Terminal.Op.calls) = some s ∧
      let t := ops.foldl Terminal.tell (.cleared (g.width / 8) (g.height / 16) s₀.conFg s₀.conBg)
      (s.curX < g.width / 8 ∧ s.curY < g.height / 16) ∧ (s.curX = t.curX ∧ s.curY = t.curY) ∧
      (∀ col row i j, col < g.width / 8 → row < g.height / 16 → i < 8 → j < 16 →
        s.point g (8 * col + i) (16 * row + j) = (t.cells col row).point i j) ∧
      (∀ x y, x < g.width → y < g.height → 8 * (g.width / 8) ≤ x ∨ 16 * (g.height / 16) ≤ y →
        s.point g x y = s.conBg) ∧
      ∀ c, ∃ s', putchar g s c = some s' ∧ s'.scrolls ≤ s.scrolls + 1 := by
  have hstart := clearScreen_displays hwidth hheight hfits s₀
  obtain ⟨s, hs, h⟩ := calls_simulates (R := Displays g hfits) (fun _ _ op hd => hd.tell hwidth hheight op) hstart ops
  refine ⟨s, hs, ⟨h.grid.curX_lt, h.grid.curY_lt⟩, ⟨h.curX.symm, h.curY.symm⟩, ?_, ?_, ?_⟩
  · intro col row i j hcol hrow hi hj
    refine (h.shows _ _ (show 8 * col + i < g.width by omega) (show 16 * row + j < g.height by omega)).trans ?_
    exact Terminal.picture_cell (Nat.lt_of_lt_of_eq hcol h.cols.symm) (Nat.lt_of_lt_of_eq hrow h.rows.symm) hi hj
  · intro x y hx hy hstrip
    rw [← h.bg]
    refine (h.shows x y hx hy).trans (Terminal.picture_strip ?_)
    rw [h.cols, h.rows]
    exact hstrip
  · intro c
    obtain ⟨s', hs', hput⟩ := putchar_put h.grid c
    exact ⟨s', hs', (hput.onGrid h.grid).2⟩

/-- Two columns and two rows, with a strip on each side and rows of odd length. -/
def twoColumns : Framebuffer :=
  {width := 20, height := 40, pitch := 81, width_lt := by decide, height_lt := by decide, pitch_lt := by decide}

/-- Five letters wrap twice, so that the second pair is in the first row. -/
theorem console_refines_terminal_twoColumns : ∃ s,
    calls twoColumns (.start {hw := fun _ => 0, back := none}) [.clearScreen, .print [0x41, 0x42, 0x43, 0x44, 0x45]] =
      some s ∧ (s.curX, s.curY) = (1, 1) ∧
    ∀ i j, i < 8 → j < 16 → s.point twoColumns i j = glyph 0x43 0xFFFFFFFF 0xFF000000 i j := by
  obtain ⟨s, hs, _, ⟨hx, hy⟩, hcells, _⟩ := console_refines_terminal (g := twoColumns) (by decide) (by decide) (by decide)
    (.start {hw := fun _ => 0, back := none}) [.print [0x41, 0x42, 0x43, 0x44, 0x45]]
  refine ⟨s, hs, Prod.ext hx hy, fun i j hi hj => ?_⟩
  have hcell := hcells 0 0 i j (by decide) (by decide) hi hj
  rwa [Nat.zero_add, Nat.zero_add] at hcell

end ArcMonark.Drivers
