import ArcMonark.Drivers.Terminal
import ArcMonark.Library.Runs
import Mathlib.Data.List.Induction
import Mathlib.Logic.Function.Basic

/-! Reading a line (`drivers/keyboard.c`, `read_line`).

The line is edited twice, in the buffer and on the screen: a character is stored and
shown, a Backspace takes one off both. The buffer counts characters and the console
counts cells. `readLine_edits`: the buffer is right on every stream.
`read_line_shows_iff`: the screen shows the line as long as no Backspace is typed where
the cursor is at the left edge, since the console does not go back to the row above. -/
namespace ArcMonark.Drivers
open Library Gui

/-- The variables of `read_line`, and the console. -/
structure Reading where
  console : Console
  buf : Nat → UInt8
  len : Nat

def Reading.start (console : Console) (buf : Nat → UInt8) : Reading := {console, buf, len := 0}

section Calls
variable (g : Framebuffer) (max : Int)

/-- A round of the loop on the character that `keyboard_getchar` returns, and whether the
line has ended. -/
def readChar (s : Reading) (c : UInt8) : Option (Reading × Bool) :=
  if c = 0x0A then
    (putchar g s.console 0x0A).map fun console => ({s with console, buf := Function.update s.buf s.len 0}, true)
  else if c = 0x08 then
    if s.len > 0 then (putchar g s.console 0x08).map fun console => ({s with console, len := s.len - 1}, false)
    else some (s, false)
  else if s.len < max - 1 then
    (putchar g s.console c).map fun console =>
      ({console, buf := Function.update s.buf s.len c, len := s.len + 1}, false)
  else some (s, false)

/-- `read_line` on a stream of characters; behind its end it waits for the next one. -/
def readLine (s : Reading) : List UInt8 → Option (Reading × Bool)
  | [] => some (s, false)
  | c :: cs => (readChar g max s c).bind fun r => if r.2 then some r else readLine r.1 cs

end Calls

/-! ### The line -/

/-- A Backspace takes the last character off, and a full line takes no more. -/
def edit (max : Int) (line : List UInt8) (c : UInt8) : List UInt8 :=
  if c = 0x08 then line.dropLast else if line.length < max - 1 then line ++ [c] else line

/-- What is typed, edited. -/
def edited (max : Int) (cs : List UInt8) : List UInt8 := cs.foldl (edit max) []

section Edited
variable {max : Int} {line cs : List UInt8} {c : UInt8}

theorem edited_snoc (cs : List UInt8) (c : UInt8) : edited max (cs ++ [c]) = edit max (edited max cs) c := by
  rw [edited, List.foldl_append]
  rfl

theorem edit_erase : edit max line 0x08 = line.dropLast := if_pos rfl

theorem edit_room (hc : c ≠ 0x08) (hroom : line.length < max - 1) : edit max line c = line ++ [c] := by
  rw [edit, if_neg hc, if_pos hroom]

theorem edit_full (hc : c ≠ 0x08) (hfull : ¬ line.length < max - 1) : edit max line c = line := by
  rw [edit, if_neg hc, if_neg hfull]

theorem edit_length (hline : line.length < max) (c : UInt8) : (edit max line c).length < max := by
  unfold edit
  split
  · rw [List.length_dropLast]
    omega
  · split
    · rw [List.length_append, List.length_singleton]
      omega
    · exact hline

/-- The line and its terminating zero fit the buffer. -/
theorem edited_length (hmax : 1 ≤ max) (cs : List UInt8) : (edited max cs).length < max := by
  induction cs using List.reverseRecOn with
  | nil => exact hmax
  | append_singleton cs c ih =>
    rw [edited_snoc]
    exact edit_length ih c

end Edited

/-! ### One character -/

section Typed
variable (g : Framebuffer) (max : Int)

/-- All that a character other than the newline can do. -/
inductive Typed (s : Reading) : UInt8 → Reading → Prop where
  | erase {console} (hsome : 0 < s.len) (hput : Put g s.console 0x08 console) :
      Typed s 0x08 {s with console, len := s.len - 1}
  | empty (hnone : s.len = 0) : Typed s 0x08 s
  | store {c console} (hc : c ≠ 0x0A ∧ c ≠ 0x08) (hroom : s.len < max - 1) (hput : Put g s.console c console) :
      Typed s c {console, buf := Function.update s.buf s.len c, len := s.len + 1}
  | full {c} (hc : c ≠ 0x0A ∧ c ≠ 0x08) (hfull : ¬ s.len < max - 1) : Typed s c s

/-- The buffer holds the characters. -/
structure Reading.Holds (s : Reading) (cs : List UInt8) : Prop where
  len : s.len = cs.length
  char : ∀ n, n < s.len → cs[n]? = some (s.buf n)

end Typed

section OneChar
variable {g : Framebuffer} {max : Int} {s s' : Reading} {line cs : List UInt8} {c : UInt8}

theorem readChar_typed (max : Int) (h : s.console.OnGrid g) (hc : c ≠ 0x0A) :
    ∃ s', readChar g max s c = some (s', false) ∧ Typed g max s c s' := by
  rw [readChar, if_neg hc]
  split
  · rename_i herase
    subst herase
    split
    · rename_i hsome
      obtain ⟨console, hconsole, hput⟩ := putchar_put h 0x08
      exact ⟨_, by rw [hconsole, Option.map_some], .erase hsome hput⟩
    · rename_i hnone
      exact ⟨s, rfl, .empty (Nat.eq_zero_of_not_pos hnone)⟩
  · rename_i herase
    split
    · rename_i hroom
      obtain ⟨console, hconsole, hput⟩ := putchar_put h c
      exact ⟨_, by rw [hconsole, Option.map_some], .store ⟨hc, herase⟩ hroom hput⟩
    · rename_i hfull
      exact ⟨s, rfl, .full ⟨hc, herase⟩ hfull⟩

theorem Typed.onGrid (h : s.console.OnGrid g) (htyped : Typed g max s c s') : s'.console.OnGrid g := by
  cases htyped with
  | erase _ hput => exact (hput.onGrid h).1
  | empty => exact h
  | store _ _ hput => exact (hput.onGrid h).1
  | full => exact h

/-- The buffer is edited like the line. -/
theorem Typed.holds (h : s.Holds line) (htyped : Typed g max s c s') : s'.Holds (edit max line c) := by
  have hlen := h.len
  cases htyped with
  | erase hsome =>
    rw [edit_erase]
    refine ⟨?_, fun n hn => ?_⟩
    · rw [List.length_dropLast, ← hlen]
    · change n < s.len - 1 at hn
      rw [List.getElem?_dropLast, if_pos (by omega)]
      exact h.char n (by omega)
  | empty hnone =>
    obtain rfl : line = [] := List.eq_nil_of_length_eq_zero (hlen.symm.trans hnone)
    exact h
  | store hc hroom =>
    rw [edit_room hc.2 (hlen ▸ hroom)]
    refine ⟨?_, fun n hn => ?_⟩
    · rw [List.length_append, List.length_singleton, ← hlen]
    · show (line ++ [c])[n]? = some (Function.update s.buf s.len c n)
      rcases Nat.lt_succ_iff_lt_or_eq.mp hn with hlt | rfl
      · rw [Function.update_of_ne (Nat.ne_of_lt hlt), List.getElem?_append_left (hlen ▸ hlt)]
        exact h.char n hlt
      · rw [Function.update_self, hlen, List.getElem?_concat_length]
  | full hc hfull =>
    rw [edit_full hc.2 (hlen ▸ hfull)]
    exact h

theorem readLine_append (s : Reading) (cs cs' : List UInt8) :
    readLine g max s (cs ++ cs') =
      (readLine g max s cs).bind fun r => if r.2 then some r else readLine g max r.1 cs' := by
  induction cs generalizing s with
  | nil => rfl
  | cons c cs ih =>
    rw [List.cons_append, readLine, readLine, Option.bind_assoc]
    refine congrArg _ (funext fun r => ?_)
    split
    · rename_i hdone
      rw [Option.bind_some, if_pos hdone]
    · exact ih r.1

theorem readLine_snoc (hs : readLine g max s cs = some (s', false)) (c : UInt8) :
    readLine g max s (cs ++ [c]) = readChar g max s' c := by
  have hlast : readLine g max s' [c] = readChar g max s' c := by
    rw [readLine]
    rcases readChar g max s' c with _ | ⟨_, _ | _⟩ <;> rfl
  rw [readLine_append, hs, ← hlast]
  rfl

/-- The buffer is edited, and the cursor stays on the grid. -/
theorem readLine_edits (max : Int) {s₀ : Console} (hgrid : s₀.OnGrid g) (buf : Nat → UInt8) (hcs : 0x0A ∉ cs) :
    ∃ s, readLine g max (.start s₀ buf) cs = some (s, false) ∧ s.Holds (edited max cs) ∧ s.console.OnGrid g := by
  induction cs using List.reverseRecOn with
  | nil => exact ⟨_, rfl, ⟨rfl, nofun⟩, hgrid⟩
  | append_singleton cs c ih =>
    rw [List.mem_append, not_or, List.mem_singleton] at hcs
    obtain ⟨s, hs, hholds, hgrid'⟩ := ih hcs.1
    obtain ⟨s', hs', htyped⟩ := readChar_typed max hgrid' (Ne.symm hcs.2)
    refine ⟨s', (readLine_snoc hs c).trans hs', ?_, htyped.onGrid hgrid'⟩
    rw [edited_snoc]
    exact htyped.holds hholds

/-- At the newline `read_line` returns the edited line, terminated in its buffer. -/
theorem readLine_returns {s₀ : Console} (hgrid : s₀.OnGrid g) (buf : Nat → UInt8) (hmax : 1 ≤ max) (hcs : 0x0A ∉ cs) :
    ∃ s, readLine g max (.start s₀ buf) (cs ++ [0x0A]) = some (s, true) ∧ s.Holds (edited max cs) ∧
      s.buf s.len = 0 ∧ s.len < max := by
  obtain ⟨s, hs, hholds, hgrid'⟩ := readLine_edits max hgrid buf hcs
  obtain ⟨console, hconsole, _⟩ := putchar_put hgrid' 0x0A
  refine ⟨{s with console, buf := Function.update s.buf s.len 0}, ?_, ⟨hholds.len, fun n hn => ?_⟩, ?_, ?_⟩
  · rw [readLine_snoc hs, readChar, if_pos rfl, hconsole]
    rfl
  · exact (hholds.char n hn).trans (congrArg some (Function.update_of_ne (Nat.ne_of_lt hn) _ _).symm)
  · exact Function.update_self ..
  · rw [hholds.len]
    exact edited_length hmax cs

end OneChar

/-! ### The cells of the screen

They are numbered row by row. -/

/-- The number of the cell that the cursor is on. -/
def Console.cell (g : Framebuffer) (s : Console) : Nat := g.width / 8 * s.curY + s.curX

/-- A point of the cell with a number, in the drawing buffer. -/
def Console.cellPoint (g : Framebuffer) (s : Console) (n i j : Nat) : UInt32 :=
  s.point g (8 * (n % (g.width / 8)) + i) (16 * (n / (g.width / 8)) + j)

/-- Blank from a cell to the end of the screen, and in the strip below the last row, which
a scroll moves up. -/
def Console.BlankFrom (g : Framebuffer) (s : Console) (n : Nat) : Prop :=
  ∀ k i j, n ≤ k → i < 8 → j < 16 → 16 * (k / (g.width / 8)) + j < g.height → s.cellPoint g k i j = s.conBg

section Cells
variable {g : Framebuffer} {s : Console} {n i j : Nat}

theorem Console.OnGrid.eq_cell (h : s.OnGrid g) :
    n = s.cell g ↔ n / (g.width / 8) = s.curY ∧ n % (g.width / 8) = s.curX := by
  have hx : s.curX < g.width / 8 := h.curX_lt
  rw [Nat.div_mod_unique (Nat.zero_lt_of_lt hx), Console.cell]
  omega

/-- The cells up to the cursor are on the screen. -/
theorem Console.OnGrid.above (h : s.OnGrid g) (hn : n ≤ s.cell g) : 16 * (n / (g.width / 8)) + 16 ≤ g.height := by
  have hrow : n / (g.width / 8) ≤ s.curY := by
    rw [← (h.eq_cell.mp rfl).1]
    exact Nat.div_le_div_right hn
  have hcell := h.cell.2
  omega

/-- A cell that is drawn changes, and no other does. -/
theorem cellPoint_write (hfits : 4 * g.width ≤ g.pitch) (h : s.OnGrid g) {b : Buffers} (cell : Cell)
    (hshows : (g.raster hfits).Shows b.fb
      (Picture.patch (s.point g) (8 * s.curX) (16 * s.curY) 8 16 fun x y =>
        cell.point (x - 8 * s.curX) (y - 16 * s.curY)))
    (hi : i < 8) (hj : j < 16) (hn : 16 * (n / (g.width / 8)) + j < g.height) :
    Console.cellPoint g {s with buffers := b} n i j = if n = s.cell g then cell.point i j else s.cellPoint g n i j := by
  have hx : s.curX < g.width / 8 := h.curX_lt
  have hcol := Nat.mod_lt n (Nat.zero_lt_of_lt hx)
  refine (hshows _ _ (show 8 * (n % (g.width / 8)) + i < g.width by omega) hn).trans ?_
  split
  · rename_i heq
    obtain ⟨hrow, hcol⟩ := h.eq_cell.mp heq
    rw [hrow, hcol, Picture.patch_inside _ _ _ _ _ _ (by omega) (by omega), Nat.add_sub_cancel_left,
      Nat.add_sub_cancel_left]
  · rename_i hne
    have hother := mt h.eq_cell.mpr hne
    exact Picture.patch_outside _ _ _ _ _ _ (by omega)

theorem cellPoint_drawCell (hfits : 4 * g.width ≤ g.pitch) (h : s.OnGrid g) (c : UInt8) (hi : i < 8) (hj : j < 16)
    (hn : 16 * (n / (g.width / 8)) + j < g.height) :
    (drawCell g s c).cellPoint g n i j =
      if n = s.cell g then glyph (glyphOf c) s.conFg s.conBg i j else s.cellPoint g n i j := by
  have hwidth := g.width_lt
  have hheight := g.height_lt
  obtain ⟨hx, hy⟩ := h.cell
  have hself := (g.raster hfits).shows_self s.buffers.fb
  refine cellPoint_write hfits h (.glyph (glyphOf c) s.conFg s.conBg) ?_ hi hj hn
  rw [gfxPresentRect_fb]
  exact (gfxChar_drawn (.start hself) (by omega) (by omega) c s.conFg s.conBg).shows

theorem cellPoint_eraseCell (hfits : 4 * g.width ≤ g.pitch) (h : s.OnGrid g) (hi : i < 8) (hj : j < 16)
    (hn : 16 * (n / (g.width / 8)) + j < g.height) :
    (eraseCell g s).cellPoint g n i j = if n = s.cell g then s.conBg else s.cellPoint g n i j := by
  have hwidth := g.width_lt
  have hheight := g.height_lt
  obtain ⟨hx, hy⟩ := h.cell
  have hself := (g.raster hfits).shows_self s.buffers.fb
  refine cellPoint_write hfits h (.blank s.conBg) ?_ hi hj hn
  rw [gfxPresentRect_fb]
  exact (gfxFillRect_drawn (.start hself) (by omega) (by omega) s.conBg).shows

/-- A scroll moves every cell up by the cells of a row. -/
theorem cellPoint_scroll (hfits : 4 * g.width ≤ g.pitch) (hcols : 0 < g.width / 8) (hi : i < 8)
    (hn : 16 * (n / (g.width / 8)) + j < g.height) (curX scrolls : Nat) :
    Console.cellPoint g
        {s with buffers := gfxPresent g (gfxScrollUp g s.buffers 16 s.conBg), curX, scrolls} n i j =
      if 16 * (n / (g.width / 8)) + j + 16 < g.height then s.cellPoint g (n + g.width / 8) i j else s.conBg := by
  have hcol := Nat.mod_lt n hcols
  have hself := (g.raster hfits).shows_self s.buffers.fb
  have hd := gfxScrollUp_drawn (.start hself) (show 16 < 2 ^ 32 by decide) s.conBg
  unfold Console.cellPoint Console.point
  dsimp only
  rw [gfxPresent_fb, Nat.add_mod_right, Nat.add_div_right n hcols]
  refine (hd.shows _ _ (show 8 * (n % (g.width / 8)) + i < g.width by omega) hn).trans ?_
  split
  · rw [show 16 * (n / (g.width / 8) + 1) + j = 16 * (n / (g.width / 8)) + j + 16 by omega]
    rfl
  · rfl

end Cells

/-! ### What the screen shows -/

/-- A text is on the screen, from a cell on: the one where the console `s₀` had its
cursor, moved up with every scroll since. -/
structure Written (g : Framebuffer) (s₀ s : Console) (first : Nat) (text : Nat → UInt8) (len : Nat) : Prop where
  moved : first + g.width / 8 * s.scrolls = s₀.cell g + g.width / 8 * s₀.scrolls
  char : ∀ n i j, n < len → i < 8 → j < 16 →
    s.cellPoint g (first + n) i j = glyph (glyphOf (text n)) s.conFg s.conBg i j
  blank : s₀.BlankFrom g (s₀.cell g) → s.BlankFrom g (first + len)

/-- The screen shows the line, and the cursor is right behind it. -/
structure ShowsLine (g : Framebuffer) (s₀ : Console) (s : Reading) : Prop where
  grid : s.console.OnGrid g
  line : ∃ first, Written g s₀ s.console first s.buf s.len ∧ s.console.cell g = first + s.len

section Written
variable {g : Framebuffer} {s₀ s : Console} {first len : Nat} {text : Nat → UInt8}

/-- The cell at the cursor is the next one of the text. -/
theorem Written.draw (hfits : 4 * g.width ≤ g.pitch) (hgrid : s.OnGrid g) (h : Written g s₀ s first text len)
    (hcell : s.cell g = first + len) (c : UInt8) :
    Written g s₀ (drawCell g s c) first (Function.update text len c) (len + 1) := by
  refine ⟨h.moved, fun n i j hn hi hj => ?_, fun hblank k i j hk hi hj hscreen => ?_⟩
  · have habove := hgrid.above (show first + n ≤ s.cell g by omega)
    rw [cellPoint_drawCell hfits hgrid c hi hj (by omega)]
    rcases Nat.lt_succ_iff_lt_or_eq.mp hn with hlt | rfl
    · rw [if_neg (by omega), Function.update_of_ne (Nat.ne_of_lt hlt)]
      exact h.char n i j hlt hi hj
    · rw [if_pos hcell.symm, Function.update_self]
      rfl
  · rw [cellPoint_drawCell hfits hgrid c hi hj hscreen, if_neg (by omega)]
    exact h.blank hblank k i j (by omega) hi hj hscreen

/-- The cell at the cursor is the last one of the text. -/
theorem Written.erase (hfits : 4 * g.width ≤ g.pitch) (hgrid : s.OnGrid g) (h : Written g s₀ s first text (len + 1))
    (hcell : s.cell g = first + len) : Written g s₀ (eraseCell g s) first text len := by
  refine ⟨h.moved, fun n i j hn hi hj => ?_, fun hblank k i j hk hi hj hscreen => ?_⟩
  · have habove := hgrid.above (show first + n ≤ s.cell g by omega)
    rw [cellPoint_eraseCell hfits hgrid hi hj (by omega), if_neg (by omega)]
    exact h.char n i j (by omega) hi hj
  · rw [cellPoint_eraseCell hfits hgrid hi hj hscreen]
    split
    · rfl
    · exact h.blank hblank k i j (by omega) hi hj hscreen

/-- A scroll moves the text up, if its first row is not the top one. -/
theorem Written.scroll (hfits : 4 * g.width ≤ g.pitch) (hgrid : s.OnGrid g)
    (h : Written g s₀ s (first + g.width / 8) text len) (hcell : s.cell g + 1 = first + g.width / 8 + len) :
    Written g s₀
      {s with
        buffers := gfxPresent g (gfxScrollUp g s.buffers 16 s.conBg), curX := 0, scrolls := s.scrolls + 1}
      first text len := by
  have hcols : 0 < g.width / 8 := Nat.zero_lt_of_lt hgrid.curX_lt
  refine ⟨?_, fun n i j hn hi hj => ?_, fun hblank k i j hk hi hj hscreen => ?_⟩
  · have hmoved := h.moved
    show first + g.width / 8 * (s.scrolls + 1) = _
    rw [Nat.mul_succ]
    omega
  · have habove := hgrid.above (show first + n + g.width / 8 ≤ s.cell g by omega)
    rw [Nat.add_div_right _ hcols] at habove
    rw [cellPoint_scroll hfits hcols hi (by omega), if_pos (by omega), Nat.add_right_comm]
    exact h.char n i j hn hi hj
  · rw [cellPoint_scroll hfits hcols hi hscreen]
    split
    · refine h.blank hblank _ i j (by omega) hi hj ?_
      rw [Nat.add_div_right _ hcols]
      omega
    · rfl

end Written

section ShowsLine
variable {g : Framebuffer} {max : Int} {s₀ : Console} {s s' : Reading} {c : UInt8}

/-- The text stays in the column where it began. -/
theorem Written.column (hgrid₀ : s₀.OnGrid g) {s : Console} {first len : Nat} {text : Nat → UInt8}
    (h : Written g s₀ s first text len) : first % (g.width / 8) = s₀.curX := by
  have hx : s₀.curX < g.width / 8 := hgrid₀.curX_lt
  have hmoved := congrArg (· % (g.width / 8)) h.moved
  simp only [Console.cell, Nat.add_mul_mod_self_left, Nat.mul_add_mod] at hmoved
  rwa [Nat.mod_eq_of_lt hx] at hmoved

theorem ShowsLine.column (hgrid₀ : s₀.OnGrid g) (h : ShowsLine g s₀ s) :
    s.console.curX = (s₀.curX + s.len) % (g.width / 8) := by
  obtain ⟨first, hwritten, hcell⟩ := h.line
  rw [← (h.grid.eq_cell.mp hcell.symm).2, ← hwritten.column hgrid₀, Nat.mod_add_mod]

/-- As long as the console does not scroll, the cursor moves with the line's end. -/
theorem ShowsLine.together (h : ShowsLine g s₀ s) (h' : ShowsLine g s₀ s')
    (hscrolls : s'.console.scrolls = s.console.scrolls) :
    s'.console.cell g + s.len = s.console.cell g + s'.len := by
  obtain ⟨first, hwritten, hcell⟩ := h.line
  obtain ⟨first', hwritten', hcell'⟩ := h'.line
  have hmoved := hwritten.moved
  have hmoved' := hwritten'.moved
  rw [hscrolls] at hmoved'
  omega

/-- The cursor moves on to the next cell of a text that has room for one more. -/
theorem Written.next (hfits : 4 * g.width ≤ g.pitch) (hgrid₀ : s₀.OnGrid g) {s : Console} {first len : Nat}
    {text : Nat → UInt8} (hgrid : s.OnGrid g) (h : Written g s₀ s first text (len + 1))
    (hcell : s.cell g = first + len) (hroom : s₀.curX + (len + 1) < g.width / 8 * (g.height / 16))
    (hlast : ¬ s.curX + 1 < g.width / chW) :
    ∃ first', Written g s₀ (lineFeed g s) first' text (len + 1) ∧ (lineFeed g s).cell g = first' + (len + 1) := by
  have hx : s.curX + 1 = g.width / 8 := Nat.le_antisymm hgrid.curX_lt (Nat.not_lt.mp hlast)
  have hend : g.width / 8 * (s.curY + 1) = s.cell g + 1 := by
    rw [Nat.mul_succ, Console.cell]
    omega
  rcases lineFeed_cases hgrid with ⟨_, heq⟩ | ⟨hrows, heq⟩ <;> rw [heq]
  · refine ⟨first, ⟨h.moved, h.char, h.blank⟩, ?_⟩
    show g.width / 8 * (s.curY + 1) + 0 = _
    omega
  · -- the text has room, so its first row is not the top one, which is lost
    have hfirst : g.width / 8 ≤ first := by
      by_contra hlt
      have hcolumn := h.column hgrid₀
      rw [Nat.mod_eq_of_lt (Nat.not_le.mp hlt)] at hcolumn
      rw [← show s.curY + 1 = g.height / 16 from hrows] at hroom
      omega
    obtain ⟨first', rfl⟩ := Nat.exists_eq_add_of_le' hfirst
    refine ⟨first', h.scroll hfits hgrid (by omega), ?_⟩
    show g.width / 8 * s.curY + 0 = _
    rw [Nat.mul_succ] at hend
    omega

/-- A character that moves the cursor on is shown. -/
theorem ShowsLine.store (hfits : 4 * g.width ≤ g.pitch) (hgrid₀ : s₀.OnGrid g) (h : ShowsLine g s₀ s)
    {console : Console} (hc : c ≠ 0x0A ∧ c ≠ 0x08) (hhome : c ≠ 0x0D)
    (hroom : s₀.curX + (s.len + 1) < g.width / 8 * (g.height / 16)) (hput : Put g s.console c console) :
    ShowsLine g s₀ {console, buf := Function.update s.buf s.len c, len := s.len + 1} := by
  refine ⟨(hput.onGrid h.grid).1, ?_⟩
  obtain ⟨first, hwritten, hcell⟩ := h.line
  have hdrawn := hwritten.draw hfits h.grid hcell c
  cases hput with
  | newline => exact absurd rfl hc.1
  | home => exact absurd rfl hhome
  | erase => exact absurd rfl hc.2
  | plain =>
    refine ⟨first, ⟨hdrawn.moved, hdrawn.char, hdrawn.blank⟩, ?_⟩
    show g.width / 8 * s.console.curY + (s.console.curX + 1) = first + (s.len + 1)
    unfold Console.cell at hcell
    omega
  | wrap _ hlast => exact hdrawn.next hfits hgrid₀ ⟨h.grid.curX_lt, h.grid.curY_lt⟩ hcell hroom hlast

/-- A carriage return is stored like any character, and the cursor goes back to the left edge. -/
theorem ShowsLine.not_home (h : ShowsLine g s₀ s) {buf : Nat → UInt8} {console : Console}
    (hput : Put g s.console 0x0D console) : ¬ ShowsLine g s₀ {console, buf, len := s.len + 1} := by
  intro h'
  cases hput with
  | home =>
    have htogether := h.together h' rfl
    change g.width / 8 * s.console.curY + 0 + s.len = g.width / 8 * s.console.curY + s.console.curX + (s.len + 1)
      at htogether
    omega
  | plain hc => exact hc.2.1 rfl
  | wrap hc => exact hc.2.1 rfl

/-- A Backspace is shown exactly when the cursor is not at the left edge. -/
theorem ShowsLine.erase_iff (hfits : 4 * g.width ≤ g.pitch) (h : ShowsLine g s₀ s) (hsome : 0 < s.len)
    {console : Console} (hput : Put g s.console 0x08 console) :
    ShowsLine g s₀ {s with console, len := s.len - 1} ↔ s.console.curX ≠ 0 := by
  have hgrid' := (hput.onGrid h.grid).1
  cases hput with
  | plain hc => exact absurd rfl hc.2.2
  | wrap hc => exact absurd rfl hc.2.2
  | erase =>
    constructor
    · intro h' hleft
      have htogether := h.together h' rfl
      change g.width / 8 * s.console.curY + (s.console.curX - 1) + s.len =
        g.width / 8 * s.console.curY + s.console.curX + (s.len - 1) at htogether
      omega
    · intro hright
      refine ⟨hgrid', ?_⟩
      obtain ⟨first, hwritten, hcell⟩ := h.line
      have hback : Console.cell g {s.console with curX := s.console.curX - 1} = first + (s.len - 1) := by
        unfold Console.cell at hcell ⊢
        dsimp only
        omega
      obtain ⟨len, hlen⟩ : ∃ len, s.len = len + 1 := ⟨s.len - 1, by omega⟩
      rw [hlen] at hwritten hback
      have hleft : Written g s₀ {s.console with curX := s.console.curX - 1} first s.buf (len + 1) :=
        ⟨hwritten.moved, hwritten.char, hwritten.blank⟩
      refine ⟨first, ?_, hback.trans (by rw [hlen])⟩
      have herased := hleft.erase hfits h.grid.left hback
      rwa [← show s.len - 1 = len by omega] at herased

/-! ### The line on the screen -/

/-- A Backspace that takes a character off is not typed at the left edge, and no carriage
return is stored. -/
def InRow (cols column : Nat) (max : Int) (line : List UInt8) (c : UInt8) : Prop :=
  (c = 0x08 → line ≠ [] → (column + line.length) % cols ≠ 0) ∧ (c = 0x0D → ¬ line.length < max - 1)

instance (cols column : Nat) (max : Int) (line : List UInt8) (c : UInt8) : Decidable (InRow cols column max line c) :=
  inferInstanceAs (Decidable (_ ∧ _))

theorem Typed.shows_iff (hfits : 4 * g.width ≤ g.pitch) (hgrid₀ : s₀.OnGrid g) {line : List UInt8}
    (hholds : s.Holds line) (htyped : Typed g max s c s') (h : ShowsLine g s₀ s)
    (hroom : s₀.curX + s'.len < g.width / 8 * (g.height / 16)) :
    ShowsLine g s₀ s' ↔ InRow (g.width / 8) s₀.curX max line c := by
  have hlen := hholds.len
  have hcolumn := h.column hgrid₀
  cases htyped with
  | erase hsome hput =>
    rw [h.erase_iff hfits hsome hput, hcolumn, hlen]
    have hline : line ≠ [] := List.ne_nil_of_length_pos (hlen ▸ hsome)
    exact ⟨fun hright => ⟨fun _ _ => hright, nofun⟩, fun hrow => hrow.1 rfl hline⟩
  | empty hnone =>
    have hline : line = [] := List.eq_nil_of_length_eq_zero (hlen.symm.trans hnone)
    exact iff_of_true h ⟨fun _ hsome => absurd hline hsome, nofun⟩
  | store hc hstore hput =>
    by_cases hhome : c = 0x0D
    · subst hhome
      exact iff_of_false (h.not_home hput) fun hrow => hrow.2 rfl (hlen ▸ hstore)
    · exact iff_of_true (h.store hfits hgrid₀ hc hhome hroom hput)
        ⟨fun herase => absurd herase hc.2, fun hhome' => absurd hhome' hhome⟩
  | full hc hfull => exact iff_of_true h ⟨fun herase => absurd herase hc.2, fun _ => hlen ▸ hfull⟩

end ShowsLine

/-- Having processed the characters, `read_line` waits for more, and the screen shows the
line. -/
def ShowsAfter (g : Framebuffer) (s₀ : Console) (buf : Nat → UInt8) (max : Int) (cs : List UInt8) : Prop :=
  ∃ s, readLine g max (.start s₀ buf) cs = some (s, false) ∧ ShowsLine g s₀ s

/-- The grid has room for what is before the line in its row, for the line, and for the
cursor behind it. -/
def HasRoom (g : Framebuffer) (s₀ : Console) (max : Int) (cs : List UInt8) : Prop :=
  s₀.curX + (edited max cs).length < g.width / 8 * (g.height / 16)

section ShowsAfter
variable {g : Framebuffer} {s₀ : Console} {buf : Nat → UInt8} {max : Int} {cs : List UInt8}

/-- Room for all that the buffer can hold is room for every line. -/
theorem hasRoom_of_max (hmax : 1 ≤ max) (hroom : s₀.curX + max ≤ (g.width / 8 * (g.height / 16) : Nat))
    (cs : List UInt8) : HasRoom g s₀ max cs := by
  have hlength := edited_length hmax cs
  unfold HasRoom
  omega

theorem showsAfter_nil (hgrid : s₀.OnGrid g) : ShowsAfter g s₀ buf max [] :=
  ⟨_, rfl, hgrid, s₀.cell g, ⟨rfl, fun _ _ _ hn => absurd hn (Nat.not_lt_zero _), id⟩, rfl⟩

/-- One character more. -/
theorem showsAfter_snoc (hfits : 4 * g.width ≤ g.pitch) (hgrid : s₀.OnGrid g) (c : UInt8) (hcs : 0x0A ∉ cs ++ [c])
    (hroom : HasRoom g s₀ max (cs ++ [c])) (h : ShowsAfter g s₀ buf max cs) :
    ShowsAfter g s₀ buf max (cs ++ [c]) ↔ InRow (g.width / 8) s₀.curX max (edited max cs) c := by
  rw [List.mem_append, not_or, List.mem_singleton] at hcs
  obtain ⟨s, hs, hshows⟩ := h
  obtain ⟨s₁, hs₁, hholds, hgrid'⟩ := readLine_edits max hgrid buf hcs.1
  cases hs.symm.trans hs₁
  obtain ⟨s', hs', htyped⟩ := readChar_typed max hgrid' (Ne.symm hcs.2)
  have hnext := (readLine_snoc hs c).trans hs'
  unfold HasRoom at hroom
  rw [edited_snoc, ← (htyped.holds hholds).len] at hroom
  rw [← htyped.shows_iff hfits hgrid hholds hshows hroom]
  constructor
  · rintro ⟨s₂, hs₂, hshows'⟩
    cases hs₂.symm.trans hnext
    exact hshows'
  · exact fun hshows' => ⟨s', hnext, hshows'⟩

end ShowsAfter

/-- **The screen shows the line** after every character before the newline if and only if
each of them is typed in its row. -/
theorem read_line_shows_iff {g : Framebuffer} (hfits : 4 * g.width ≤ g.pitch) {s₀ : Console} (hgrid : s₀.OnGrid g)
    (buf : Nat → UInt8) (max : Int) {cs : List UInt8} (hcs : 0x0A ∉ cs)
    (hroom : ∀ typed, typed <+: cs → HasRoom g s₀ max typed) :
    (∀ typed, typed <+: cs → ShowsAfter g s₀ buf max typed) ↔
      ∀ typed c, typed ++ [c] <+: cs → InRow (g.width / 8) s₀.curX max (edited max typed) c := by
  refine forall_prefix_iff (showsAfter_nil hgrid) fun typed c htyped h => ?_
  exact showsAfter_snoc hfits hgrid c (fun hmem => hcs (htyped.subset hmem)) (hroom _ htyped) h

/-- The small screen after a clear. -/
def clearedScreen : Console := clearScreen twoColumns (.start {hw := fun _ => 0, back := none})

/-- The third letter wraps, and the Backspace takes it off. -/
theorem read_line_shows_iff_twoColumns : ShowsAfter twoColumns clearedScreen (fun _ => 0) 4 [0x61, 0x62, 0x63, 0x08] := by
  refine (read_line_shows_iff (by decide) ⟨by decide, by decide⟩ (fun _ => 0) 4 (by decide) fun typed _ => ?_).mpr ?_ _
    (List.prefix_refl _)
  · exact hasRoom_of_max (by decide) (by decide) typed
  · exact forall_step_iff.mp (by decide)

/-- The second letter ends the row. The Backspace takes it off the line, and not off the
screen, which has room for four. -/
theorem line_not_shown :
    clearedScreen.OnGrid twoColumns ∧
    clearedScreen.curX + 4 ≤ twoColumns.width / 8 * (twoColumns.height / 16) ∧
    ¬ ShowsAfter twoColumns clearedScreen (fun _ => 0) 4 [0x61, 0x62, 0x08] := by
  have hgrid : clearedScreen.OnGrid twoColumns := ⟨by decide, by decide⟩
  refine ⟨hgrid, by decide, fun h => ?_⟩
  have hroom : ∀ cs, HasRoom twoColumns clearedScreen 4 cs := hasRoom_of_max (by decide) (by decide)
  have hnone : ShowsAfter twoColumns clearedScreen (fun _ => 0) 4 [] := showsAfter_nil hgrid
  have hfirst := (showsAfter_snoc (by decide) hgrid 0x61 (by decide) (hroom _) hnone).mpr (by decide)
  have hsecond := (showsAfter_snoc (by decide) hgrid 0x62 (by decide) (hroom _) hfirst).mpr (by decide)
  have hlast := (showsAfter_snoc (by decide) hgrid 0x08 (by decide) (hroom _) hsecond).mp h
  exact absurd hlast (by decide)

end ArcMonark.Drivers
