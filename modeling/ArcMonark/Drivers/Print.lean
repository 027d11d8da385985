import ArcMonark.Drivers.FbPresent
import ArcMonark.Drivers.Terminal
import ArcMonark.Lib.U64ToDec

/-! Printing from memory (`print` of `drivers/fb.c`).

`print` takes a pointer: to a literal, to a buffer that `u64_to_dec` has filled, or to a
line that was typed. On a terminal it says the string that stands there, and the screen
shows the terminal, with a back buffer or without. -/
namespace ArcMonark.Drivers
open Library Lib Gui

section Print
variable (g : Framebuffer)

/-- `while (*s) putchar(*s++);` -/
def printWhile (m : Object) : (fuel a : Nat) → Console → Option Console
  | 0, _, _ => none
  | fuel + 1, a, s => do
    if (← m a) ≠ 0 then printWhile m fuel (add64 a 1) (← putchar g s (.ofBitVec (← m a))) else return s

/-- `print` of the string at `a`. -/
def printFrom (m : Object) (a : Nat) (s : Console) : Option Console := printWhile g m (2 ^ 64) a s

def printLiteral (w : String) (s : Console) : Option Console := printFrom g (literal w) literalAt s

/-- `print(u64_to_dec(v, buf))`, with the object that the buffer is in. -/
def printDec (m : Object) (v buf : Nat) (tmp : Vector Byte 20) (s : Console) : Option (Console × Object) := do
  let (a, m) ← u64ToDec m v buf tmp
  return (← printFrom g m a s, m)

end Print

/-- One character after another. -/
def Terminal.say (t : Terminal) (s : List Byte) : Terminal := s.foldl (fun t c => t.put (.ofBitVec c)) t

/-! ### The screen -/

/-- The screen shows the terminal: what is drawn into does, and so does the framebuffer. Only
with a back buffer are these two; it is presented by whole words, of which its rows must be. -/
structure Shown (g : Framebuffer) (hfits : 4 * g.width ≤ g.pitch) (s : Console) (t : Terminal) : Prop
    extends Displays g hfits s t where
  screen : 4 ∣ g.pitch → (g.raster hfits).Shows s.buffers.hw t.picture

section Shown
variable {g : Framebuffer} {hfits : 4 * g.width ≤ g.pitch} {s s' : Console} {t : Terminal} {c : UInt8}

theorem clearScreen_shown (hwidth : 8 ≤ g.width) (hheight : 16 ≤ g.height) (hfits : 4 * g.width ≤ g.pitch)
    (s : Console) : Shown g hfits (clearScreen g s) (.cleared (g.width / 8) (g.height / 16) s.conFg s.conBg) where
  toDisplays := clearScreen_displays hwidth hheight hfits s
  screen := fun hpitch =>
    (clearScreen_synced hwidth hheight hfits (fun _ => hpitch) rfl).presented.screen
      (clearScreen_displays hwidth hheight hfits s).shows

theorem Shown.put (h : Shown g hfits s t) (hput : Put g s c s') : Shown g hfits s' (t.put c) where
  toDisplays := h.toDisplays.put hput
  screen := fun hpitch => by
    have hsynced : Synced g hfits s.buffers.back.isSome s := ⟨h.grid, rfl, t.picture, h.shows, h.screen hpitch⟩
    exact (hsynced.put (fun _ => hpitch) hput).presented.screen (h.toDisplays.put hput).shows

theorem Shown.putchar (h : Shown g hfits s t) (c : UInt8) :
    ∃ s', Drivers.putchar g s c = some s' ∧ Shown g hfits s' (t.put c) := by
  obtain ⟨s', hs', hput⟩ := putchar_put h.grid c
  exact ⟨s', hs', h.put hput⟩

theorem Shown.color (h : Shown g hfits s t) (fg : UInt32) : Shown g hfits (color s fg) {t with fg} where
  grid := ⟨h.grid.curX_lt, h.grid.curY_lt⟩
  cols := h.cols
  rows := h.rows
  curX := h.curX
  curY := h.curY
  fg := rfl
  bg := h.bg
  shows := h.shows
  screen := h.screen

end Shown

/-! ### Strings -/

section Say
variable {g : Framebuffer} {hfits : 4 * g.width ≤ g.pitch} {s : Console} {t : Terminal} {m : Object} {a v buf : Nat}
  {str : List Byte} {w : String}

theorem Terminal.say_append (t : Terminal) (s s' : List Byte) : t.say (s ++ s') = (t.say s).say s' := List.foldl_append

theorem printWhile_shown (hstr : StringAt m a str) (h : Shown g hfits s t) {fuel : Nat} (hfuel : str.length < fuel) :
    ∃ s', printWhile g m fuel a s = some s' ∧ Shown g hfits s' (t.say str) := by
  obtain ⟨fuel, rfl⟩ := Nat.exists_eq_succ_of_ne_zero (Nat.ne_zero_of_lt hfuel)
  induction hstr generalizing s t fuel with
  | stop _ _ hstop => exact ⟨s, by simp [printWhile, hstop], h⟩
  | @char a c str _ hchar hc hrest ih =>
    rw [List.length_cons] at hfuel
    obtain ⟨fuel, rfl⟩ := Nat.exists_eq_succ_of_ne_zero (show fuel ≠ 0 by omega)
    obtain ⟨s₁, hs₁, h₁⟩ := h.putchar (.ofBitVec c)
    obtain ⟨s', hs', h'⟩ := ih h₁ fuel (by omega)
    refine ⟨s', ?_, h'⟩
    rw [printWhile, hchar, hrest.step]
    simp only [Option.bind_eq_bind, Option.bind_some, if_pos hc, hs₁]
    exact hs'

theorem printFrom_shown (hstr : StringAt m a str) (h : Shown g hfits s t) :
    ∃ s', printFrom g m a s = some s' ∧ Shown g hfits s' (t.say str) := by
  have hin := hstr.inside
  exact printWhile_shown hstr h (by omega)

theorem printLiteral_shown (hw : IsText w) (h : Shown g hfits s t) :
    ∃ s', printLiteral g w s = some s' ∧ Shown g hfits s' (t.say (text w)) :=
  printFrom_shown (literal_string hw) h

/-- The buffer may hold anything. -/
theorem printDec_shown (tmp : Vector Byte 20) (hroom : m.Room buf 21) (hv : v < 2 ^ 64) (h : Shown g hfits s t) :
    ∃ s' m', printDec g m v buf tmp s = some (s', m') ∧ Shown g hfits s' (t.say (numeral 10 v)) ∧
      m'.Room buf 21 := by
  obtain ⟨m', hdec, hwrote⟩ := u64ToDec_wrote tmp hroom hv
  obtain ⟨m'', hdec', _, hstring⟩ := u64ToDec_string tmp hroom hv
  cases hdec.symm.trans hdec'
  obtain ⟨s', hs', h'⟩ := printFrom_shown hstring h
  refine ⟨s', m', ?_, h', hwrote.room hroom⟩
  rw [printDec, hdec, Option.bind_eq_bind, Option.bind_some]
  dsimp only
  rw [hs']
  rfl

end Say

end ArcMonark.Drivers
