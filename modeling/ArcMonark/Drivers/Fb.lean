import ArcMonark.Gui.Gfx

/-! The text console (`drivers/fb.c`).

The console writes characters into cells of 8 by 16 points at a cursor. Behind the last
row it scrolls. A character is drawn and its cell alone is presented; a scroll presents
everything; a line feed presents nothing.

The loop that scrolls runs on fuel; `none` is a call that does not return, which happens
on a framebuffer lower than one row only (`scrollWhile_eq`). -/
namespace ArcMonark.Drivers
open Library Gui

def chW : Nat := 8

def chH : Nat := 16

structure Console where
  buffers : Buffers
  curX : Nat
  curY : Nat
  conFg : UInt32
  conBg : UInt32
  /-- How often the console has scrolled; the code does not keep this. -/
  scrolls : Nat

/-- The variables as the kernel starts. -/
def Console.start (buffers : Buffers) : Console :=
  {buffers, curX := 0, curY := 0, conFg := 0xFFFFFFFF, conBg := 0xFF000000, scrolls := 0}

def setColor (s : Console) (fg bg : UInt32) : Console := {s with conFg := fg, conBg := bg}

def color (s : Console) (fg : UInt32) : Console := {s with conFg := fg}

section Calls
variable (g : Framebuffer)

def clearScreen (s : Console) : Console :=
  {s with buffers := gfxPresent g (gfxClear g s.buffers s.conBg), curX := 0, curY := 0}

def conScroll (s : Console) : Console :=
  {s with
    buffers := gfxPresent g (gfxScrollUp g s.buffers chH s.conBg),
    curY := (s.curY + (2 ^ 32 - 1)) % 2 ^ 32, scrolls := s.scrolls + 1}

/-- `while (cur_y >= gfx_height() / CH_H) con_scroll();` -/
def scrollWhile : Nat → Console → Option Console
  | 0, _ => none
  | fuel + 1, s => if s.curY ≥ g.height / chH then scrollWhile fuel (conScroll g s) else some s

/-- `putchar` up to that loop. -/
def putcharAt (s : Console) (c : UInt8) : Console :=
  if c = 0x0A then {s with curX := 0, curY := (s.curY + 1) % 2 ^ 32}
  else if c = 0x0D then {s with curX := 0}
  else if c = 0x08 then
    let s := if s.curX ≠ 0 then {s with curX := s.curX - 1} else s
    let x := s.curX * chW % 2 ^ 32
    let y := s.curY * chH % 2 ^ 32
    {s with buffers := gfxPresentRect g (gfxFillRect g s.buffers x y chW chH s.conBg) x y chW chH}
  else
    let x := s.curX * chW % 2 ^ 32
    let y := s.curY * chH % 2 ^ 32
    let s :=
      {s with
        buffers := gfxPresentRect g (gfxChar g s.buffers c x y s.conFg s.conBg) x y chW chH,
        curX := (s.curX + 1) % 2 ^ 32}
    if s.curX ≥ g.width / chW then {s with curX := 0, curY := (s.curY + 1) % 2 ^ 32} else s

/-- Every round of the loop takes one off the cursor's row, so its row is fuel enough. -/
def putchar (s : Console) (c : UInt8) : Option Console :=
  let s := putcharAt g s c
  scrollWhile g (s.curY + 1) s

/-- Up to the terminating zero. -/
def print (s : Console) : List UInt8 → Option Console
  | [] => some s
  | c :: str => if c = 0 then some s else (putchar g s c).bind (print · str)

inductive ConsoleCall where
  | clearScreen
  | putchar (c : UInt8)
  | print (str : List UInt8)
  | color (fg : UInt32)
  | setColor (fg bg : UInt32)

def call (s : Console) : ConsoleCall → Option Console
  | .clearScreen => some (clearScreen g s)
  | .putchar c => putchar g s c
  | .print str => print g s str
  | .color fg => some (color s fg)
  | .setColor fg bg => some (setColor s fg bg)

def calls (s : Console) : List ConsoleCall → Option Console
  | [] => some s
  | c :: cs => (call g s c).bind (calls · cs)

end Calls

/-! ### One character -/

/-- The cursor is on a cell of the screen. -/
structure Console.OnGrid (g : Framebuffer) (s : Console) : Prop where
  curX_lt : s.curX < g.width / chW
  curY_lt : s.curY < g.height / chH

section Put
variable (g : Framebuffer)

/-- What the loop does to a cursor that is one row too low at most. -/
def settle (s : Console) : Console := if s.curY ≥ g.height / chH then conScroll g s else s

def lineFeed (s : Console) : Console := settle g {s with curX := 0, curY := s.curY + 1}

/-- Draws a character into the cell at the cursor, and presents the cell. -/
def drawCell (s : Console) (c : UInt8) : Console :=
  {s with
    buffers := gfxPresentRect g (gfxChar g s.buffers c (8 * s.curX) (16 * s.curY) s.conFg s.conBg)
      (8 * s.curX) (16 * s.curY) 8 16}

/-- Blanks the cell at the cursor, and presents it. -/
def eraseCell (s : Console) : Console :=
  {s with
    buffers := gfxPresentRect g (gfxFillRect g s.buffers (8 * s.curX) (16 * s.curY) 8 16 s.conBg)
      (8 * s.curX) (16 * s.curY) 8 16}

/-- All that `putchar` can do. -/
inductive Put (s : Console) : UInt8 → Console → Prop where
  | newline : Put s 0x0A (lineFeed g s)
  | home : Put s 0x0D {s with curX := 0}
  | erase : Put s 0x08 (eraseCell g {s with curX := s.curX - 1})
  | plain {c} (hc : c ≠ 0x0A ∧ c ≠ 0x0D ∧ c ≠ 0x08) (hroom : s.curX + 1 < g.width / chW) :
      Put s c {drawCell g s c with curX := s.curX + 1}
  | wrap {c} (hc : c ≠ 0x0A ∧ c ≠ 0x0D ∧ c ≠ 0x08) (hlast : ¬ s.curX + 1 < g.width / chW) :
      Put s c (lineFeed g (drawCell g s c))

end Put

section OnGrid
variable {g : Framebuffer} {s s' : Console} {c : UInt8}

theorem scrollWhile_eq (hrows : 0 < g.height / chH) (hy : s.curY ≤ g.height / chH) :
    scrollWhile g (s.curY + 1) s = some (settle g s) := by
  have hlt := g.height_lt
  have hle := Nat.div_le_self g.height chH
  unfold settle scrollWhile
  split
  · have hup : (conScroll g s).curY = s.curY - 1 := by
      show (s.curY + (2 ^ 32 - 1)) % 2 ^ 32 = s.curY - 1
      omega
    obtain ⟨n, hn⟩ : ∃ n, s.curY = n + 1 := ⟨s.curY - 1, by omega⟩
    rw [hn, scrollWhile, if_neg (by omega)]
  · rfl

theorem putchar_same (h : s.OnGrid g) (hs : putcharAt g s c = s') (hrow : s'.curY = s.curY) :
    putchar g s c = some s' := by
  have hy := h.curY_lt
  rw [← hrow] at hy
  rw [putchar, hs, scrollWhile_eq (Nat.zero_lt_of_lt hy) (Nat.le_of_lt hy)]
  exact congrArg some (if_neg (Nat.not_le.mpr hy))

theorem putchar_down (h : s.OnGrid g) (hs : putcharAt g s c = {s' with curX := 0, curY := s'.curY + 1})
    (hrow : s'.curY = s.curY) : putchar g s c = some (lineFeed g s') := by
  have hy := h.curY_lt
  rw [← hrow] at hy
  rw [putchar, hs]
  exact scrollWhile_eq (Nat.zero_lt_of_lt hy) hy

/-- A cell of the grid lies on the screen. -/
theorem Console.OnGrid.cell (h : s.OnGrid g) : 8 * s.curX + 8 ≤ g.width ∧ 16 * s.curY + 16 ≤ g.height := by
  have hx := h.curX_lt
  have hy := h.curY_lt
  unfold chW at hx
  unfold chH at hy
  omega

/-- The corner of a cell does not wrap around. -/
theorem Console.OnGrid.corner (h : s.OnGrid g) :
    s.curX * chW % 2 ^ 32 = 8 * s.curX ∧ s.curY * chH % 2 ^ 32 = 16 * s.curY := by
  obtain ⟨hx, hy⟩ := h.cell
  have hwidth := g.width_lt
  have hheight := g.height_lt
  unfold chW chH
  omega

/-- The next row is no 32-bit overflow. -/
theorem Console.OnGrid.nextRow (h : s.OnGrid g) : (s.curY + 1) % 2 ^ 32 = s.curY + 1 := by
  have hy := h.cell.2
  have hheight := g.height_lt
  omega

theorem Console.OnGrid.left (h : s.OnGrid g) : Console.OnGrid g {s with curX := s.curX - 1} :=
  ⟨Nat.lt_of_le_of_lt (Nat.sub_le _ _) h.curX_lt, h.curY_lt⟩

theorem putcharAt_newline (h : s.OnGrid g) : putcharAt g s 0x0A = {s with curX := 0, curY := s.curY + 1} := by
  rw [putcharAt, if_pos rfl, h.nextRow]

theorem putcharAt_home : putcharAt g s 0x0D = {s with curX := 0} := rfl

theorem putcharAt_erase (h : s.OnGrid g) : putcharAt g s 0x08 = eraseCell g {s with curX := s.curX - 1} := by
  obtain ⟨hx, hy⟩ := h.left.corner
  have hleft : (if s.curX ≠ 0 then {s with curX := s.curX - 1} else s) = {s with curX := s.curX - 1} := by
    split
    · rfl
    · rename_i hzero
      obtain ⟨_, curX, _⟩ := s
      obtain rfl : curX = 0 := not_not.mp hzero
      rfl
  rw [putcharAt, if_neg (by decide), if_neg (by decide), if_pos rfl, hleft]
  dsimp only at hx hy ⊢
  rw [hx, hy]
  rfl

theorem putcharAt_draw (h : s.OnGrid g) (hc : c ≠ 0x0A ∧ c ≠ 0x0D ∧ c ≠ 0x08) :
    putcharAt g s c =
      if s.curX + 1 < g.width / chW then {drawCell g s c with curX := s.curX + 1}
      else {drawCell g s c with curX := 0, curY := s.curY + 1} := by
  obtain ⟨hx, hy⟩ := h.corner
  have hwidth := g.width_lt
  have hright : (s.curX + 1) % 2 ^ 32 = s.curX + 1 := by
    have hcell := h.cell.1
    omega
  rw [putcharAt, if_neg hc.1, if_neg hc.2.1, if_neg hc.2.2]
  dsimp only
  rw [hx, hy, hright, h.nextRow]
  split
  · rename_i hlast
    rw [if_neg (Nat.not_lt.mpr hlast)]
    rfl
  · rename_i hroom
    rw [if_pos (Nat.not_le.mp hroom)]
    rfl

/-- On the grid `putchar` returns, having done one of these. -/
theorem putchar_put (h : s.OnGrid g) (c : UInt8) : ∃ s', putchar g s c = some s' ∧ Put g s c s' := by
  rcases eq_or_ne c 0x0A with rfl | hnewline
  · exact ⟨_, putchar_down h (putcharAt_newline h) rfl, .newline⟩
  rcases eq_or_ne c 0x0D with rfl | hhome
  · exact ⟨_, putchar_same h putcharAt_home rfl, .home⟩
  rcases eq_or_ne c 0x08 with rfl | herase
  · exact ⟨_, putchar_same h (putcharAt_erase h) rfl, .erase⟩
  have hc := And.intro hnewline (And.intro hhome herase)
  have hdraw := putcharAt_draw h hc
  by_cases hroom : s.curX + 1 < g.width / chW
  · exact ⟨_, putchar_same h (hdraw.trans (if_pos hroom)) rfl, .plain hc hroom⟩
  · exact ⟨_, putchar_down h (hdraw.trans (if_neg hroom)) rfl, .wrap hc hroom⟩

/-- A line feed scrolls from the last row, and moves down from any other. -/
theorem lineFeed_cases (h : s.OnGrid g) :
    (s.curY + 1 < g.height / chH ∧ lineFeed g s = {s with curX := 0, curY := s.curY + 1}) ∨
    (s.curY + 1 = g.height / chH ∧ lineFeed g s =
      {s with
        buffers := gfxPresent g (gfxScrollUp g s.buffers 16 s.conBg), curX := 0, scrolls := s.scrolls + 1}) := by
  have hy := h.curY_lt
  by_cases hlast : s.curY + 1 < g.height / chH
  · exact .inl ⟨hlast, if_neg (Nat.not_le.mpr hlast)⟩
  · have hup : (s.curY + 1 + (2 ^ 32 - 1)) % 2 ^ 32 = s.curY := by
      have hcell := h.cell.2
      have hheight := g.height_lt
      omega
    refine .inr ⟨by omega, (if_pos (Nat.not_lt.mp hlast)).trans ?_⟩
    unfold conScroll
    dsimp only
    rw [hup]
    rfl

theorem lineFeed_onGrid (h : s.OnGrid g) : (lineFeed g s).OnGrid g ∧ (lineFeed g s).scrolls ≤ s.scrolls + 1 := by
  have hcols := Nat.zero_lt_of_lt h.curX_lt
  rcases lineFeed_cases h with ⟨hroom, heq⟩ | ⟨_, heq⟩ <;> rw [heq]
  · exact ⟨⟨hcols, hroom⟩, Nat.le_succ _⟩
  · exact ⟨⟨hcols, h.curY_lt⟩, Nat.le_refl _⟩

/-- The cursor stays on the grid, and the console scrolls once at most. -/
theorem Put.onGrid (h : s.OnGrid g) (hput : Put g s c s') : s'.OnGrid g ∧ s'.scrolls ≤ s.scrolls + 1 := by
  cases hput with
  | newline => exact lineFeed_onGrid h
  | home => exact ⟨⟨Nat.zero_lt_of_lt h.curX_lt, h.curY_lt⟩, Nat.le_succ _⟩
  | erase => exact ⟨⟨h.left.curX_lt, h.curY_lt⟩, Nat.le_succ _⟩
  | plain _ hroom => exact ⟨⟨hroom, h.curY_lt⟩, Nat.le_succ _⟩
  | wrap =>
    have hcell : (drawCell g s c).OnGrid g := ⟨h.curX_lt, h.curY_lt⟩
    exact lineFeed_onGrid hcell

/-! ### Runs -/

/-- What one character does, a string does character by character. -/
theorem print_simulates {τ : Type} {R : Console → τ → Prop} {put : τ → UInt8 → τ}
    (hput : ∀ s t c, R s t → ∃ s', putchar g s c = some s' ∧ R s' (put t c)) {t : τ} (h : R s t) (str : List UInt8) :
    ∃ s', print g s str = some s' ∧ R s' ((str.takeWhile (· ≠ 0)).foldl put t) := by
  induction str generalizing s t with
  | nil => exact ⟨s, rfl, h⟩
  | cons c str ih =>
    by_cases hzero : c = 0
    · subst hzero
      exact ⟨s, rfl, h⟩
    · obtain ⟨s₁, hs₁, h₁⟩ := hput s t c h
      obtain ⟨s', hs', h'⟩ := ih h₁
      refine ⟨s', ?_, ?_⟩
      · rw [print, if_neg hzero, hs₁]
        exact hs'
      · rw [List.takeWhile_cons_of_pos (by simpa using hzero)]
        exact h'

theorem calls_append (s : Console) (cs cs' : List ConsoleCall) :
    calls g s (cs ++ cs') = (calls g s cs).bind (calls g · cs') := by
  induction cs generalizing s with
  | nil => rfl
  | cons c cs ih =>
    simp only [List.cons_append, calls, Option.bind_assoc, ih]

/-- What one block of calls does, a run of blocks does block by block. -/
theorem calls_simulates {τ ι : Type} {R : Console → τ → Prop} {block : ι → List ConsoleCall} {op : τ → ι → τ}
    (hblock : ∀ s t i, R s t → ∃ s', calls g s (block i) = some s' ∧ R s' (op t i)) {t : τ} (h : R s t) (is : List ι) :
    ∃ s', calls g s (is.flatMap block) = some s' ∧ R s' (is.foldl op t) := by
  induction is generalizing s t with
  | nil => exact ⟨s, rfl, h⟩
  | cons i is ih =>
    obtain ⟨s₁, hs₁, h₁⟩ := hblock s t i h
    obtain ⟨s', hs', h'⟩ := ih h₁
    refine ⟨s', ?_, h'⟩
    rw [List.flatMap_cons, calls_append, hs₁]
    exact hs'

theorem print_keeps {P : Console → Prop} (hput : ∀ s c, P s → ∃ s', putchar g s c = some s' ∧ P s') (h : P s)
    (str : List UInt8) : ∃ s', print g s str = some s' ∧ P s' :=
  @print_simulates g s Unit (fun s _ => P s) (fun t _ => t) (fun s _ c => hput s c) () h str

theorem calls_keeps {P : Console → Prop} (hcall : ∀ s c, P s → ∃ s', call g s c = some s' ∧ P s') (h : P s)
    (cs : List ConsoleCall) : ∃ s', calls g s cs = some s' ∧ P s' := by
  have hblock : ∀ s (_ : Unit) c, P s → ∃ s', calls g s [c] = some s' ∧ P s' := fun s _ c hs => by
    obtain ⟨s', hs', h'⟩ := hcall s c hs
    exact ⟨s', by rw [calls, hs', Option.bind_some, calls], h'⟩
  have hrun := @calls_simulates g s Unit _ (fun s _ => P s) (fun c => [c]) (fun t _ => t) hblock () h cs
  rwa [List.flatMap_singleton'] at hrun

end OnGrid

end ArcMonark.Drivers
