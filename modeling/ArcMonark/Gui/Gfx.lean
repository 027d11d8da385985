import ArcMonark.Library.Raster
import ArcMonark.Gui.Font

/-! The drawing primitives (`gui/gfx.c`).

The primitives draw into the framebuffer itself, or into a back buffer once there is
one; then `gfx_present` and `gfx_present_rect` copy it to the framebuffer. A buffer is
a byte at every offset, a point is the word at its row and column. Coordinates are
32-bit numbers, and so are their sums. What each primitive does to the picture is
stated as a patch of it (`gfxFillRect_drawn`, `gfxScrollUp_drawn`, `gfxChar_drawn`). -/
namespace ArcMonark.Gui
open Library

/-- The framebuffer that `gfx_init` found. -/
structure Framebuffer where
  width : Nat
  height : Nat
  /-- In bytes. -/
  pitch : Nat
  width_lt : width < 2 ^ 32
  height_lt : height < 2 ^ 32
  pitch_lt : pitch < 2 ^ 32

/-- `g_hw` and `g_fb`, which are the same while there is no back buffer. -/
structure Buffers where
  hw : Mem
  back : Option Mem

namespace Buffers

/-- What `g_fb` points to. -/
def fb (b : Buffers) : Mem := b.back.getD b.hw

/-- Writes through `g_fb`. -/
def draw (b : Buffers) (m : Mem) : Buffers :=
  match b.back with
  | none => {b with hw := m}
  | some _ => {b with back := some m}

end Buffers

section Primitives
variable (g : Framebuffer)

/-- `buf` is what `kmalloc` returned. -/
def gfxBackbufferInit (b : Buffers) (buf : Option Mem) : Int × Buffers :=
  let bytes := g.height * g.pitch
  match buf with
  | none => (-1, b)
  | some m => (0, {b with back := some fun a => if a < bytes then 0 else m a})

def gfxPresent (b : Buffers) : Buffers :=
  match b.back with
  | none => b
  | some s =>
    let n := g.height * g.pitch / 4
    {b with hw := loop n (fun i d => d.setWord (4 * i) (s.word (4 * i))) b.hw}

/-- `if (x + w > limit) w = limit - x` -/
def clip (x w limit : Nat) : Nat := if (x + w) % 2 ^ 32 > limit then limit - x else w

def gfxPresentRect (b : Buffers) (x y w h : Nat) : Buffers :=
  match b.back with
  | none => b
  | some s =>
    if x ≥ g.width ∨ y ≥ g.height then b
    else
      let row := fun j d =>
        let off := (y + j) % 2 ^ 32 * g.pitch + x * 4
        loop (clip x w g.width) (fun i d => d.setWord (off + 4 * i) (s.word (off + 4 * i))) d
      {b with hw := loop (clip y h g.height) row b.hw}

def gfxPixel (b : Buffers) (x y : Nat) (argb : UInt32) : Buffers :=
  if x ≥ g.width ∨ y ≥ g.height then b else b.draw (b.fb.setWord (y * g.pitch + 4 * x) argb)

def gfxFillRect (b : Buffers) (x y w h : Nat) (argb : UInt32) : Buffers :=
  if x ≥ g.width ∨ y ≥ g.height then b
  else
    let row := fun j m =>
      loop (clip x w g.width) (fun i m => m.setWord ((y + j) % 2 ^ 32 * g.pitch + 4 * x + 4 * i) argb) m
    b.draw (loop (clip y h g.height) row b.fb)

def gfxClear (b : Buffers) (argb : UInt32) : Buffers := gfxFillRect g b 0 0 g.width g.height argb

/-- `src` is an array of its own, `w` words to a row. -/
def gfxBlit (b : Buffers) (src : Nat → UInt32) (x y w h : Nat) : Buffers :=
  if x ≥ g.width ∨ y ≥ g.height then b
  else
    let cw := clip x w g.width
    let ch := clip y h g.height
    let row := fun j m =>
      loop cw (fun i m => m.setWord ((y + j) % 2 ^ 32 * g.pitch + 4 * x + 4 * i) (src (j * w + i))) m
    b.draw (loop ch row b.fb)

/-- Moves the picture up in place, and fills what is free below. -/
def gfxScrollUp (b : Buffers) (dy : Nat) (argb : UInt32) : Buffers :=
  if dy = 0 then b
  else if dy ≥ g.height then gfxClear g b argb
  else
    let row := fun y m =>
      loop g.width
        (fun x m => m.setWord (y * g.pitch + 4 * x) (m.word ((y + dy) % 2 ^ 32 * g.pitch + 4 * x))) m
    gfxFillRect g (b.draw (loop (g.height - dy) row b.fb)) 0 (g.height - dy) g.width dy argb

def gfxChar (b : Buffers) (c : UInt8) (x y : Nat) (fg bg : UInt32) : Buffers :=
  let uc := if c ≥ 128 then 0x3F else c
  let row := fun row b =>
    let bits := glyphRow uc row
    loop 8
      (fun col b => gfxPixel g b ((x + col) % 2 ^ 32) ((y + row) % 2 ^ 32)
        (if bits &&& 0x80 >>> UInt8.ofNat col ≠ 0 then fg else bg)) b
  loop 16 row b

end Primitives

/-! ### The drawing buffer -/

def Framebuffer.raster (g : Framebuffer) (hfits : 4 * g.width ≤ g.pitch) : Raster :=
  {width := g.width, height := g.height, pitch := g.pitch, fits := hfits}

namespace Buffers

@[simp] theorem draw_fb (b : Buffers) (m : Mem) : (b.draw m).fb = m := by
  unfold draw
  split
  · rename_i hnone
    rw [fb, hnone]
    rfl
  · rfl

@[simp] theorem draw_draw (b : Buffers) (m m' : Mem) : (b.draw m).draw m' = b.draw m' := by
  obtain ⟨hw, _ | back⟩ := b <;> rfl

@[simp] theorem draw_self (b : Buffers) : b.draw b.fb = b := by
  obtain ⟨hw, _ | back⟩ := b <;> rfl

end Buffers

/-- Nothing but the drawing buffer has changed since `b`, and it shows `p` now. -/
structure Drawn (r : Raster) (b b' : Buffers) (p : Picture UInt32) : Prop where
  only : b' = b.draw b'.fb
  shows : r.Shows b'.fb p

theorem Drawn.start {r : Raster} {b : Buffers} {p : Picture UInt32} (h : r.Shows b.fb p) : Drawn r b b p :=
  ⟨b.draw_self.symm, h⟩

theorem Drawn.congr {r : Raster} {b b' : Buffers} {p q : Picture UInt32} (h : Drawn r b b' p)
    (hpq : ∀ x y, x < r.width → y < r.height → p x y = q x y) : Drawn r b b' q :=
  ⟨h.only, h.shows.congr hpq⟩

/-- What is written through `g_fb` is the drawing buffer. -/
theorem Drawn.draw {r : Raster} {b b' : Buffers} {p q : Picture UInt32} (h : Drawn r b b' p) {m : Mem}
    (hm : r.Shows m q) : Drawn r b (b'.draw m) q := by
  refine ⟨?_, by rwa [Buffers.draw_fb]⟩
  rw [Buffers.draw_fb, h.only, Buffers.draw_draw]

/-- Drawing into the back buffer leaves the framebuffer alone. -/
theorem Drawn.kept {r : Raster} {b b' : Buffers} {p : Picture UInt32} {back : Mem} (h : Drawn r b b' p)
    (hback : b.back = some back) : b'.back = some b'.fb ∧ b'.hw = b.hw := by
  have heq : b.draw b'.fb = {b with back := some b'.fb} := by rw [Buffers.draw, hback]
  have hb' := h.only.trans heq
  exact ⟨congrArg Buffers.back hb', (congrArg Buffers.hw hb').trans rfl⟩

/-- Without a back buffer it is the framebuffer that is drawn into. -/
theorem Drawn.direct {r : Raster} {b b' : Buffers} {p : Picture UInt32} (h : Drawn r b b' p) (hback : b.back = none) :
    b'.back = none ∧ b'.fb = b'.hw := by
  have heq : b.draw b'.fb = {b with hw := b'.fb} := by rw [Buffers.draw, hback]
  have hb' := h.only.trans heq
  exact ⟨(congrArg Buffers.back hb').trans hback, (congrArg Buffers.hw hb').symm⟩

/-! ### What the primitives draw -/

section Draw
variable {g : Framebuffer} {hfits : 4 * g.width ≤ g.pitch} {b b' : Buffers} {p q : Picture UInt32} {x y w h : Nat}

theorem clip_eq {limit : Nat} (hx : x < limit) (hw : x + w < 2 ^ 32) : clip x w limit = min w (limit - x) := by
  unfold clip
  rw [Nat.mod_eq_of_lt hw]
  split <;> omega

/-- A walk over the visible part of a rectangle, with the addresses that the source computes. -/
theorem walk_shows {m : Mem} {f : Picture UInt32} {val : Nat → Nat → Mem → UInt32} {addr : Nat → Nat → Nat}
    (hm : (g.raster hfits).Shows m p) (hx : x < g.width) (hy : y < g.height) (hw : x + w < 2 ^ 32) (hh : y + h < 2 ^ 32)
    (haddr : ∀ j i, y + j < g.height → x + i < g.width → addr j i = (g.raster hfits).offset (x + i) (y + j))
    (hval : ∀ j i m', y + j < g.height → x + i < g.width → (g.raster hfits).Shows m' (p.partly x y (clip x w g.width) f j i) →
      val j i m' = f (x + i) (y + j)) :
    (g.raster hfits).Shows
      (loop (clip y h g.height) (fun j m => loop (clip x w g.width) (fun i m => m.setWord (addr j i) (val j i m)) m) m)
      (p.patch x y w h f) := by
  have hcw := clip_eq hx hw
  have hch := clip_eq hy hh
  have hwalk : (g.raster hfits).Shows
      (loop (clip y h g.height) (fun j m => loop (clip x w g.width) (fun i m => m.setWord (addr j i) (val j i m)) m) m)
      (p.patch x y (clip x w g.width) (clip y h g.height) f) := by
    refine loop_patch (R := (g.raster hfits).Shows) hm fun j i m' hj hi hstage => ?_
    have hrow : y + j < g.height := by omega
    have hcol : x + i < g.width := by omega
    rw [haddr j i hrow hcol, hval j i m' hrow hcol hstage]
    exact hstage.set hcol _ _
  refine hwalk.congr fun i j hi hj => ?_
  rw [hcw, hch]
  exact Picture.patch_clip p f x y w h hi hj

theorem row_offset (hfits : 4 * g.width ≤ g.pitch) {j i : Nat} (hy : y + j < g.height) :
    (y + j) % 2 ^ 32 * g.pitch + 4 * x + 4 * i = (g.raster hfits).offset (x + i) (y + j) := by
  rw [Nat.mod_eq_of_lt (Nat.lt_trans hy g.height_lt), Raster.offset, Nat.mul_add, Nat.add_assoc]
  rfl

theorem gfxPixel_drawn (hd : Drawn (g.raster hfits) b b' p) (x y : Nat) (argb : UInt32) :
    Drawn (g.raster hfits) b (gfxPixel g b' x y argb) (p.set x y argb) := by
  unfold gfxPixel
  split
  · rename_i hout
    refine hd.congr fun i j hi hj => (if_neg ?_).symm
    have hwidth : i < g.width := hi
    have hheight : j < g.height := hj
    omega
  · rename_i hin
    exact hd.draw (hd.shows.set (show x < g.width by omega) y argb)

/-- A rectangle that begins off the screen leaves the picture as it is. -/
theorem drawn_outside (hd : Drawn (g.raster hfits) b b' p) (hout : x ≥ g.width ∨ y ≥ g.height) (f : Picture UInt32) :
    Drawn (g.raster hfits) b b' (p.patch x y w h f) := by
  refine hd.congr fun i j hi hj => (Picture.patch_outside _ _ _ _ _ _ ?_).symm
  have hwidth : i < g.width := hi
  have hheight : j < g.height := hj
  omega

/-- `gfx_fill_rect` fills a rectangle that does not wrap around. -/
theorem gfxFillRect_drawn (hd : Drawn (g.raster hfits) b b' p) (hw : x + w < 2 ^ 32) (hh : y + h < 2 ^ 32) (argb : UInt32) :
    Drawn (g.raster hfits) b (gfxFillRect g b' x y w h argb) (p.patch x y w h fun _ _ => argb) := by
  unfold gfxFillRect
  split
  · rename_i hout
    exact drawn_outside hd hout _
  · rename_i hin
    refine hd.draw (walk_shows hd.shows (by omega) (by omega) hw hh ?_ ?_)
    · intro j i hj _
      exact row_offset hfits hj
    · intros
      rfl

/-- `gfx_blit` copies an array into a rectangle that does not wrap around. -/
theorem gfxBlit_drawn (hd : Drawn (g.raster hfits) b b' p) (hw : x + w < 2 ^ 32) (hh : y + h < 2 ^ 32) (src : Nat → UInt32) :
    Drawn (g.raster hfits) b (gfxBlit g b' src x y w h) (p.patch x y w h fun i j => src ((j - y) * w + (i - x))) := by
  unfold gfxBlit
  split
  · rename_i hout
    exact drawn_outside hd hout _
  · rename_i hin
    refine hd.draw (walk_shows hd.shows (by omega) (by omega) hw hh ?_ ?_)
    · intro j i hj _
      exact row_offset hfits hj
    · intro j i _ _ _ _
      rw [Nat.add_sub_cancel_left, Nat.add_sub_cancel_left]

theorem gfxClear_drawn (hd : Drawn (g.raster hfits) b b' p) (argb : UInt32) :
    Drawn (g.raster hfits) b (gfxClear g b' argb) fun _ _ => argb := by
  have hwidth := g.width_lt
  have hheight := g.height_lt
  refine (gfxFillRect_drawn hd (by omega) (by omega) argb).congr fun i j hi hj => ?_
  have hi : i < g.width := hi
  have hj : j < g.height := hj
  exact Picture.patch_inside _ _ _ _ _ _ (by omega) (by omega)

/-- The rows move up in place: each is read before it is written. -/
theorem scrollRows_shows {m : Mem} (hm : (g.raster hfits).Shows m p) {dy : Nat} (hpos : 0 < dy) :
    (g.raster hfits).Shows
      (loop (g.height - dy) (fun y m => loop g.width (fun x m => m.setWord (y * g.pitch + 4 * x)
        (m.word ((y + dy) % 2 ^ 32 * g.pitch + 4 * x))) m) m)
      (p.patch 0 0 g.width (g.height - dy) fun i j => p i (j + dy)) := by
  have hheight := g.height_lt
  refine loop_patch (R := (g.raster hfits).Shows) hm fun j i m' hj hi hstage => ?_
  have hread : m'.word ((j + dy) * g.pitch + 4 * i) = p i (j + dy) := by
    refine (hstage i (j + dy) hi (show j + dy < g.height by omega)).trans ?_
    rw [Picture.partly, Picture.patch_outside _ _ _ _ _ _ (by omega), Picture.patch_outside _ _ _ _ _ _ (by omega)]
  rw [Nat.mod_eq_of_lt (show j + dy < 2 ^ 32 by omega), Nat.zero_add, Nat.zero_add, hread]
  exact hstage.set hi j _

/-- The picture moves up by `dy` rows. -/
theorem gfxScrollUp_drawn (hd : Drawn (g.raster hfits) b b' p) {dy : Nat} (hdy : dy < 2 ^ 32) (argb : UInt32) :
    Drawn (g.raster hfits) b (gfxScrollUp g b' dy argb) fun i j => if j + dy < g.height then p i (j + dy) else argb := by
  unfold gfxScrollUp
  split
  · rename_i hzero
    subst hzero
    exact hd.congr fun i j _ hj => (if_pos hj).symm
  · rename_i hpos
    split
    · rename_i hall
      exact (gfxClear_drawn hd argb).congr fun i j _ _ => (if_neg (by omega)).symm
    · rename_i hsome
      have hwidth := g.width_lt
      have hheight := g.height_lt
      have hmoved := hd.draw (scrollRows_shows hd.shows (show 0 < dy by omega))
      refine (gfxFillRect_drawn hmoved (by omega) (by omega) argb).congr fun i j hi hj => ?_
      have hi : i < g.width := hi
      have hj : j < g.height := hj
      split
      · rw [Picture.patch_outside _ _ _ _ _ _ (by omega), Picture.patch_inside _ _ _ _ _ _ (by omega) (by omega)]
      · exact Picture.patch_inside _ _ _ _ _ _ (by omega) (by omega)

/-- The points of a glyph. -/
def glyph (uc : UInt8) (fg bg : UInt32) : Picture UInt32 := fun col row =>
  if glyphRow uc row &&& 0x80 >>> UInt8.ofNat col ≠ 0 then fg else bg

/-- The glyph that stands for a character. -/
def glyphOf (c : UInt8) : UInt8 := if c ≥ 128 then 0x3F else c

theorem gfxChar_drawn (hd : Drawn (g.raster hfits) b b' p) (hx : x + 8 ≤ 2 ^ 32) (hy : y + 16 ≤ 2 ^ 32) (c : UInt8)
    (fg bg : UInt32) :
    Drawn (g.raster hfits) b (gfxChar g b' c x y fg bg)
      (p.patch x y 8 16 fun i j => glyph (glyphOf c) fg bg (i - x) (j - y)) := by
  refine loop_patch (R := Drawn (g.raster hfits) b) hd fun j i s hj hi hstage => ?_
  rw [Nat.mod_eq_of_lt (show x + i < 2 ^ 32 by omega), Nat.mod_eq_of_lt (show y + j < 2 ^ 32 by omega),
    Nat.add_sub_cancel_left, Nat.add_sub_cancel_left]
  exact gfxPixel_drawn hstage _ _ _

/-! ### What is presented -/

@[simp] theorem gfxPresent_fb (b : Buffers) : (gfxPresent g b).fb = b.fb := by
  unfold gfxPresent
  split
  · rfl
  · rename_i s hs
    rw [Buffers.fb, Buffers.fb, hs]
    rfl

@[simp] theorem gfxPresentRect_fb (b : Buffers) : (gfxPresentRect g b x y w h).fb = b.fb := by
  unfold gfxPresentRect
  split
  · rfl
  · rename_i s hs
    split
    · rfl
    · rw [Buffers.fb, Buffers.fb, hs]
      rfl

/-- Rows of whole words are covered by the words of the whole buffer. -/
theorem gfxPresent_shows (hpitch : 4 ∣ g.pitch) {s : Mem} (hb : b.back = some s) (hs : (g.raster hfits).Shows s p) :
    (gfxPresent g b).back = some s ∧ (g.raster hfits).Shows (gfxPresent g b).hw p := by
  unfold gfxPresent
  rw [hb]
  refine ⟨rfl, fun i j hi hj => ?_⟩
  obtain ⟨k, hk⟩ := hpitch
  have hi : i < g.width := hi
  have hfits' := hfits
  have hcopied : ∀ a < g.height * g.pitch / 4,
      (loop (g.height * g.pitch / 4) (fun i d => d.setWord (4 * i) (s.word (4 * i))) b.hw).word (4 * a) =
        s.word (4 * a) := by
    refine loop_induct (P := fun n (m : Mem) => ∀ a < n, m.word (4 * a) = s.word (4 * a)) (by simp) fun n m _ hm a ha => ?_
    rcases Nat.lt_succ_iff_lt_or_eq.mp ha with hlt | rfl
    · rw [Mem.word_setWord_apart _ _ (by omega), hm a hlt]
    · exact Mem.word_setWord_same _ _ _
  have hoffset : (g.raster hfits).offset i j = 4 * (j * k + i) := by
    show j * g.pitch + 4 * i = 4 * (j * k + i)
    rw [hk, Nat.mul_left_comm, Nat.mul_add]
  have hrows : (j + 1) * k ≤ g.height * k := Nat.mul_le_mul_right _ hj
  have hwords : g.height * g.pitch / 4 = g.height * k := by
    rw [hk, Nat.mul_left_comm]
    exact Nat.mul_div_cancel_left _ (by decide)
  rw [Nat.succ_mul] at hrows
  rw [← hs i j hi hj, hoffset]
  exact hcopied _ (by omega)

/-- A rectangle is copied. -/
theorem gfxPresentRect_shows {s : Mem} (hb : b.back = some s) (hs : (g.raster hfits).Shows s q)
    (hhw : (g.raster hfits).Shows b.hw p) (hw : x + w < 2 ^ 32) (hh : y + h < 2 ^ 32) :
    (gfxPresentRect g b x y w h).back = some s ∧
      (g.raster hfits).Shows (gfxPresentRect g b x y w h).hw (p.patch x y w h q) := by
  unfold gfxPresentRect
  rw [hb]
  dsimp only
  split
  · rename_i hout
    refine ⟨hb, hhw.congr fun i j hi hj => (Picture.patch_outside _ _ _ _ _ _ ?_).symm⟩
    have hi : i < g.width := hi
    have hj : j < g.height := hj
    omega
  · rename_i hin
    have haddr : ∀ j i, y + j < g.height → x + i < g.width →
        (y + j) % 2 ^ 32 * g.pitch + x * 4 + 4 * i = (g.raster hfits).offset (x + i) (y + j) := by
      intro j i hj _
      rw [Nat.mul_comm x 4]
      exact row_offset hfits hj
    refine ⟨rfl, walk_shows hhw (by omega) (by omega) hw hh haddr ?_⟩
    intro j i m' hj hi _
    rw [haddr j i hj hi]
    exact hs _ _ hi hj

end Draw

end ArcMonark.Gui
