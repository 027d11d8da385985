import ArcMonark.Drivers.Fb

/-! What the console presents.

With a back buffer the console draws a cell and presents just that cell, presents a
scroll and a clear as a whole, and presents nothing for a line feed that does not
scroll. `presented_always`: that is enough for the screen to be the back buffer after
every call. -/
namespace ArcMonark.Drivers
open Library Gui

/-- The framebuffer shows the picture of the drawing buffer; `double` says whether that is a
back buffer. -/
structure Presented (double : Bool) (r : Raster) (b : Buffers) : Prop where
  back : b.back.isSome = double
  same : ∃ p, r.Shows b.fb p ∧ r.Shows b.hw p

theorem Presented.screen {double : Bool} {r : Raster} {b : Buffers} {p : Picture UInt32} (h : Presented double r b)
    (hp : r.Shows b.fb p) : r.Shows b.hw p := by
  obtain ⟨q, hfb, hhw⟩ := h.same
  exact fun x y hx hy => (hhw x y hx hy).trans ((hfb x y hx hy).symm.trans (hp x y hx hy))

section Presented
variable {g : Framebuffer} {hfits : 4 * g.width ≤ g.pitch} {double : Bool} {b b' : Buffers} {p : Picture UInt32}
  {s s' : Console} {c : UInt8} {x y w h : Nat}

/-- What is drawn into the framebuffer itself needs no present. -/
theorem presented_direct (hback : b.back = none) (hd : Drawn (g.raster hfits) b b' p) :
    b'.back = none ∧ Presented false (g.raster hfits) b' := by
  obtain ⟨hnone, hfb⟩ := hd.direct hback
  exact ⟨hnone, by rw [hnone]; rfl, p, hd.shows, hfb ▸ hd.shows⟩

/-- After a full present, whatever was drawn. -/
theorem presented_all (hpitch : double = true → 4 ∣ g.pitch) (hback : b.back.isSome = double)
    (hd : Drawn (g.raster hfits) b b' p) : Presented double (g.raster hfits) (gfxPresent g b') := by
  cases hb : b.back with
  | none =>
    obtain ⟨hnone, hpresented⟩ := presented_direct hb hd
    rw [hb] at hback
    rw [gfxPresent, hnone, ← hback]
    exact hpresented
  | some back =>
    rw [hb] at hback
    obtain ⟨hback', hshows⟩ := gfxPresent_shows (hpitch hback.symm) (hd.kept hb).1 hd.shows
    exact ⟨by rw [hback']; exact hback, p, by rw [gfxPresent_fb]; exact hd.shows, hshows⟩

/-- After a present of the rectangle that was drawn into. -/
theorem presented_rect (hw : x + w < 2 ^ 32) (hh : y + h < 2 ^ 32) (hb : Presented double (g.raster hfits) b)
    {f : Picture UInt32}
    (hdraw : ∀ p, (g.raster hfits).Shows b.fb p → Drawn (g.raster hfits) b b' (p.patch x y w h f)) :
    Presented double (g.raster hfits) (gfxPresentRect g b' x y w h) := by
  obtain ⟨hback, p, hs, hhw⟩ := hb
  have hd := hdraw p hs
  cases hb : b.back with
  | none =>
    obtain ⟨hnone, hpresented⟩ := presented_direct hb hd
    rw [hb] at hback
    rw [gfxPresentRect, hnone, ← hback]
    exact hpresented
  | some back =>
    rw [hb] at hback
    obtain ⟨hkept, hhw'⟩ := hd.kept hb
    obtain ⟨hback', hshows⟩ := gfxPresentRect_shows hkept hd.shows (hhw' ▸ hhw) hw hh
    rw [Picture.patch_patch] at hshows
    exact ⟨by rw [hback']; exact hback, _, by rw [gfxPresentRect_fb]; exact hd.shows, hshows⟩

/-! ### Calls -/

/-- The invariant of a run. -/
structure Synced (g : Framebuffer) (hfits : 4 * g.width ≤ g.pitch) (double : Bool) (s : Console) : Prop where
  grid : s.OnGrid g
  presented : Presented double (g.raster hfits) s.buffers

theorem clearScreen_synced (hwidth : 8 ≤ g.width) (hheight : 16 ≤ g.height) (hfits : 4 * g.width ≤ g.pitch)
    (hpitch : double = true → 4 ∣ g.pitch) (hback : s.buffers.back.isSome = double) :
    Synced g hfits double (clearScreen g s) :=
  ⟨⟨Nat.div_pos hwidth (by decide), Nat.div_pos hheight (by decide)⟩,
    presented_all hpitch hback (gfxClear_drawn (.start ((g.raster hfits).shows_self s.buffers.fb)) s.conBg)⟩

theorem Synced.drawCell (h : Synced g hfits double s) (c : UInt8) : Synced g hfits double (drawCell g s c) := by
  have hwidth := g.width_lt
  have hheight := g.height_lt
  obtain ⟨hx, hy⟩ := h.grid.cell
  exact ⟨⟨h.grid.curX_lt, h.grid.curY_lt⟩, presented_rect (by omega) (by omega) h.presented fun p hp =>
    gfxChar_drawn (.start hp) (by omega) (by omega) c s.conFg s.conBg⟩

theorem Synced.eraseCell (h : Synced g hfits double s) : Synced g hfits double (eraseCell g s) := by
  have hwidth := g.width_lt
  have hheight := g.height_lt
  obtain ⟨hx, hy⟩ := h.grid.cell
  exact ⟨⟨h.grid.curX_lt, h.grid.curY_lt⟩, presented_rect (by omega) (by omega) h.presented fun p hp =>
    gfxFillRect_drawn (.start hp) (by omega) (by omega) s.conBg⟩

theorem Synced.lineFeed (hpitch : double = true → 4 ∣ g.pitch) (h : Synced g hfits double s) :
    Synced g hfits double (lineFeed g s) := by
  refine ⟨(lineFeed_onGrid h.grid).1, ?_⟩
  rcases lineFeed_cases h.grid with ⟨_, heq⟩ | ⟨_, heq⟩ <;> rw [heq]
  · exact h.presented
  · obtain ⟨hback, _, hs, _⟩ := h.presented
    exact presented_all hpitch hback (gfxScrollUp_drawn (.start hs) (by decide) s.conBg)

theorem Synced.put (hpitch : double = true → 4 ∣ g.pitch) (h : Synced g hfits double s) (hput : Put g s c s') :
    Synced g hfits double s' := by
  have hgrid := (hput.onGrid h.grid).1
  cases hput with
  | newline => exact h.lineFeed hpitch
  | home => exact ⟨hgrid, h.presented⟩
  | erase =>
    have hleft : Synced g hfits double {s with curX := s.curX - 1} := ⟨h.grid.left, h.presented⟩
    exact hleft.eraseCell
  | plain => exact ⟨hgrid, (h.drawCell c).presented⟩
  | wrap => exact (h.drawCell c).lineFeed hpitch

theorem Synced.call (hwidth : 8 ≤ g.width) (hheight : 16 ≤ g.height) (hpitch : double = true → 4 ∣ g.pitch)
    (h : Synced g hfits double s) (call : ConsoleCall) :
    ∃ s', Drivers.call g s call = some s' ∧ Synced g hfits double s' := by
  have hput : ∀ s c, Synced g hfits double s → ∃ s', putchar g s c = some s' ∧ Synced g hfits double s' := fun s c hs => by
    obtain ⟨s', hs', hput⟩ := putchar_put hs.grid c
    exact ⟨s', hs', hs.put hpitch hput⟩
  cases call with
  | clearScreen => exact ⟨_, rfl, clearScreen_synced hwidth hheight hfits hpitch h.presented.back⟩
  | putchar c => exact hput s c h
  | print str => exact print_keeps hput h str
  | color fg => exact ⟨_, rfl, ⟨h.grid.curX_lt, h.grid.curY_lt⟩, h.presented⟩
  | setColor fg bg => exact ⟨_, rfl, ⟨h.grid.curX_lt, h.grid.curY_lt⟩, h.presented⟩

end Presented

/-- **Partial present is as good as full present.** With a back buffer, after every
call of a run that begins with a clear, every point of the screen is the back buffer's,
and presenting everything would change none. -/
theorem presented_always {g : Framebuffer} (hwidth : 8 ≤ g.width) (hheight : 16 ≤ g.height)
    (hfits : 4 * g.width ≤ g.pitch) (hpitch : 4 ∣ g.pitch) {s₀ : Console} (hback : s₀.buffers.back ≠ none)
    (cs : List ConsoleCall) :
    ∃ s back, calls g s₀ (.clearScreen :: cs) = some s ∧ s.buffers.back = some back ∧
      ∀ x y, x < g.width → y < g.height →
        s.buffers.hw.word (y * g.pitch + 4 * x) = back.word (y * g.pitch + 4 * x) ∧
        (gfxPresent g s.buffers).hw.word (y * g.pitch + 4 * x) = s.buffers.hw.word (y * g.pitch + 4 * x) := by
  have hstart := clearScreen_synced hwidth hheight hfits (fun _ => hpitch) (Option.isSome_iff_ne_none.mpr hback)
  obtain ⟨s, hs, h⟩ := calls_keeps (fun _ c hd => hd.call hwidth hheight (fun _ => hpitch) c) hstart cs
  obtain ⟨back, hback⟩ := Option.isSome_iff_exists.mp h.presented.back
  obtain ⟨_, p, hshows, hhw⟩ := h.presented
  have hfb : s.buffers.fb = back := by rw [Buffers.fb, hback, Option.getD_some]
  rw [hfb] at hshows
  refine ⟨s, back, hs, hback, fun x y hx hy => ?_⟩
  have hfull := (gfxPresent_shows hpitch hback hshows).2
  exact ⟨(hhw x y hx hy).trans (hshows x y hx hy).symm, (hfull x y hx hy).trans (hhw x y hx hy).symm⟩

/-- Three columns and two rows, in rows of whole words. -/
def threeColumns : Framebuffer :=
  {width := 24, height := 42, pitch := 100, width_lt := by decide, height_lt := by decide, pitch_lt := by decide}

/-- The third character wraps, and the newline scrolls. -/
theorem presented_always_threeColumns :
    let s₀ := Console.start (gfxBackbufferInit threeColumns {hw := fun _ => 0xAA, back := none} (some fun _ => 0x55)).2
    ∃ s back, calls threeColumns s₀ [.clearScreen, .print [0x41, 0x42, 0x43, 0x44, 0x08], .setColor 7 9, .putchar 0x0A] =
      some s ∧ s.buffers.back = some back ∧ s.buffers.hw.word 3992 = back.word 3992 := by
  intro s₀
  obtain ⟨s, back, hs, hback, hpoints⟩ := presented_always (g := threeColumns) (by decide) (by decide) (by decide)
    (by decide) (show s₀.buffers.back ≠ none from nofun) [.print [0x41, 0x42, 0x43, 0x44, 0x08], .setColor 7 9, .putchar 0x0A]
  exact ⟨s, back, hs, hback, (hpoints 23 39 (by decide) (by decide)).1⟩

end ArcMonark.Drivers
