import ArcMonark.Gui.GfxClip
import Mathlib.Logic.Function.Basic

/-! Saving what is under a rectangle (`gfx_copy_out`).

`gfx_copy_out` reads a rectangle into an array, row behind row without the padding of the
framebuffer, and `gfx_blit` writes such an array to the screen. `blit_restores` says that
each undoes the other: whatever is drawn inside the rectangle in between, the framebuffer
is as it was, byte by byte. -/
namespace ArcMonark.Gui
open Library

/-- `dst` is an array of its own, `w` words to a row. -/
def gfxCopyOut (g : Framebuffer) (b : Buffers) (x y w h : Nat) (dst : Nat → UInt32) : Nat → UInt32 :=
  let row := fun j d =>
    loop w (fun i d => Function.update d (j * w + i) (b.fb.word ((y + j) % 2 ^ 32 * g.pitch + 4 * x + 4 * i))) d
  loop h row dst

/-! ### Arrays of rows -/

section Rows
variable {α : Type} {w : Nat} {d : Nat → α} {p : Picture α}

/-- The array holds the picture, `w` to a row. -/
def HoldsRows (w : Nat) (d : Nat → α) (p : Picture α) : Prop := ∀ i j, i < w → d (j * w + i) = p i j

theorem row_inj {i j i' j' : Nat} (hi : i < w) (hi' : i' < w) (heq : j * w + i = j' * w + i') : i = i' ∧ j = j' := by
  have hrow := congrArg (· / w) heq
  have hcol := congrArg (· % w) heq
  simp only [Nat.mul_comm _ w, Nat.mul_add_mod, Nat.mod_eq_of_lt hi, Nat.mod_eq_of_lt hi',
    Nat.mul_add_div (show 0 < w by omega), Nat.div_eq_of_lt hi, Nat.div_eq_of_lt hi', Nat.add_zero] at hrow hcol
  exact ⟨hcol, hrow⟩

theorem HoldsRows.update (hd : HoldsRows w d p) {i : Nat} (hi : i < w) (j : Nat) (v : α) :
    HoldsRows w (Function.update d (j * w + i) v) (p.set i j v) := by
  intro i' j' hi'
  unfold Picture.set
  split
  · rename_i hpoint
    rw [hpoint.1, hpoint.2, Function.update_self]
  · rename_i hpoint
    rw [Function.update_of_ne fun heq => hpoint (row_inj hi' hi heq), hd i' j' hi']

end Rows

section CopyOut
variable {g : Framebuffer} {x y w h : Nat} {b : Buffers}

/-- The points of the rectangle, in the array's own coordinates. -/
theorem gfxCopyOut_rows (hy : y + h ≤ g.height) (dst : Nat → UInt32) :
    HoldsRows w (gfxCopyOut g b x y w h dst) (Picture.patch (fun i j => dst (j * w + i)) 0 0 w h
      fun i j => b.fb.word ((y + j) * g.pitch + 4 * (x + i))) := by
  refine loop_patch (R := HoldsRows w) (fun _ _ _ => rfl) fun j i d hj hi hd => ?_
  rw [row_address (show y + j < g.height by omega)]
  rw [Nat.zero_add, Nat.zero_add]
  exact hd.update hi j _

theorem gfxCopyOut_eq (hy : y + h ≤ g.height) (dst : Nat → UInt32) {i j : Nat} (hi : i < w) (hj : j < h) :
    gfxCopyOut g b x y w h dst (j * w + i) = b.fb.word ((y + j) * g.pitch + 4 * (x + i)) := by
  rw [gfxCopyOut_rows hy dst i j hi]
  exact Picture.patch_inside _ _ _ _ _ _ (by omega) (by omega)

end CopyOut

/-! ### Drawing in between -/

/-- A call of a primitive. -/
inductive Call where
  | pixel (x y : Nat) (argb : UInt32)
  | fillRect (x y w h : Nat) (argb : UInt32)
  | blit (src : Nat → UInt32) (x y w h : Nat)

namespace Call

def run (g : Framebuffer) (b : Buffers) : Call → Buffers
  | pixel x y argb => gfxPixel g b x y argb
  | fillRect x y w h argb => gfxFillRect g b x y w h argb
  | blit src x y w h => gfxBlit g b src x y w h

/-- The point is one that the call is about. -/
def Covers (i j : Nat) : Call → Prop
  | pixel x y _ => i = x ∧ j = y
  | fillRect x y w h _ | blit _ x y w h => (x ≤ i ∧ i < x + w) ∧ y ≤ j ∧ j < y + h

/-- The arguments are numbers of 32 bits. -/
def Sized : Call → Prop
  | pixel .. => True
  | fillRect _ _ w h _ | blit _ _ _ w h => w < 2 ^ 32 ∧ h < 2 ^ 32

/-- The call stays inside the rectangle. -/
def Inside (x y w h : Nat) (c : Call) : Prop :=
  c.Sized ∧ ∀ i j, c.Covers i j → (x ≤ i ∧ i < x + w) ∧ y ≤ j ∧ j < y + h

end Call

section Restore
variable {g : Framebuffer} {x y w h : Nat} {b b' : Buffers}

/-- Nothing but the bytes of the rectangle's points has changed in the drawing buffer. -/
def Framebuffer.Within (g : Framebuffer) (x y w h : Nat) (b b' : Buffers) : Prop :=
  b' = b.draw b'.fb ∧ ∀ a, g.Astray x y w h a → b'.fb a = b.fb a

theorem Framebuffer.Within.trans {b'' : Buffers} (hb : g.Within x y w h b b') (hb' : g.Within x y w h b' b'') :
    g.Within x y w h b b'' := by
  refine ⟨?_, fun a ha => (hb'.2 a ha).trans (hb.2 a ha)⟩
  calc
    b'' = b'.draw b''.fb := hb'.1
    _ = (b.draw b'.fb).draw b''.fb := by rw [← hb.1]
    _ = b.draw b''.fb := Buffers.draw_draw _ _ _

/-- A rectangle that is drawn inside another one on the screen is clipped. -/
theorem clips_inside {x' y' w' h' : Nat} (hx : x + w ≤ g.width) (hy : y + h ≤ g.height)
    (hin : ∀ i j, (x' ≤ i ∧ i < x' + w') ∧ y' ≤ j ∧ j < y' + h' → (x ≤ i ∧ i < x + w) ∧ y ≤ j ∧ j < y + h) :
    g.Clips x' y' w' h' := by
  have hwidth := g.width_lt
  have hheight := g.height_lt
  by_cases hempty : w' = 0 ∨ h' = 0
  · exact .inr (.inr (hempty.imp id .inl))
  · have hlast := hin (x' + w' - 1) (y' + h' - 1) ⟨by omega, by omega⟩
    exact .inr (.inr (.inr (.inr ⟨.inl (by omega), .inl (by omega)⟩)))

theorem draws_within {x' y' w' h' : Nat} {f : Picture UInt32} (hdraws : g.Draws x' y' w' h' f b b')
    (hin : ∀ i j, (x' ≤ i ∧ i < x' + w') ∧ y' ≤ j ∧ j < y' + h' → (x ≤ i ∧ i < x + w) ∧ y ≤ j ∧ j < y + h) :
    g.Within x y w h b b' := by
  refine ⟨hdraws.1, fun a ha => hdraws.2.outside a (ha.mono ?_)⟩
  rintro i j ⟨⟨hxi, hix, hi⟩, hyj, hjy, hj⟩
  obtain ⟨hcol, hrow⟩ := hin i j ⟨⟨hxi, hix⟩, hyj, hjy⟩
  exact ⟨⟨hcol.1, hcol.2, hi⟩, hrow.1, hrow.2, hj⟩

/-- A pixel is the one point of its call. -/
theorem gfxPixel_within {i j : Nat} {argb : UInt32} (hin : (x ≤ i ∧ i < x + w) ∧ y ≤ j ∧ j < y + h) :
    g.Within x y w h b (gfxPixel g b i j argb) := by
  unfold gfxPixel
  split
  · exact ⟨b.draw_self.symm, fun _ _ => rfl⟩
  · rename_i hscreen
    rw [Framebuffer.Within, Buffers.draw_fb]
    exact ⟨rfl, fun a ha => Mem.store_of_outside _ _ (ha i j ⟨by omega, by omega⟩)⟩

/-- A call inside the rectangle draws nothing outside of it. -/
theorem Call.run_within (hfits : 4 * g.width ≤ g.pitch) (hx : x + w ≤ g.width) (hy : y + h ≤ g.height) {c : Call}
    (hc : c.Inside x y w h) (b : Buffers) : g.Within x y w h b (c.run g b) := by
  obtain ⟨hsize, hin⟩ := hc
  cases c with
  | pixel i j argb => exact gfxPixel_within (hin i j ⟨rfl, rfl⟩)
  | fillRect x' y' w' h' argb =>
    exact draws_within ((fillsExactly_iff hfits hsize).mpr (clips_inside hx hy hin) b argb) hin
  | blit src x' y' w' h' =>
    exact draws_within ((blitsExactly_iff hfits hsize).mpr (clips_inside hx hy hin) b src) hin

theorem calls_within (hfits : 4 * g.width ≤ g.pitch) (hx : x + w ≤ g.width) (hy : y + h ≤ g.height) {calls : List Call}
    (hcalls : ∀ c ∈ calls, c.Inside x y w h) (b : Buffers) : g.Within x y w h b (calls.foldl (Call.run g) b) := by
  induction calls generalizing b with
  | nil => exact ⟨b.draw_self.symm, fun _ _ => rfl⟩
  | cons c calls ih =>
    have hfirst := c.run_within hfits hx hy (hcalls c List.mem_cons_self) b
    exact hfirst.trans (ih (fun c' hc' => hcalls c' (List.mem_cons_of_mem c hc')) _)

/-- `gfx_blit` of a rectangle that is on the screen. -/
theorem gfxBlit_draws (hfits : 4 * g.width ≤ g.pitch) (hx : x + w ≤ g.width) (hy : y + h ≤ g.height) (b : Buffers)
    (src : Nat → UInt32) : g.Draws x y w h (fun i j => src ((j - y) * w + (i - x))) b (gfxBlit g b src x y w h) := by
  have hwidth := g.width_lt
  have hheight := g.height_lt
  exact (blitsExactly_iff hfits ⟨by omega, by omega⟩).mpr (clips_inside hx hy fun _ _ hin => hin) b src

end Restore

/-- **`gfx_blit` undoes any drawing** over the rectangle that `gfx_copy_out` saved, and
`gfx_copy_out` returns the array that `gfx_blit` drew. -/
theorem blit_restores {g : Framebuffer} {x y w h : Nat} (hfits : 4 * g.width ≤ g.pitch) (hx : x + w ≤ g.width)
    (hy : y + h ≤ g.height) (b : Buffers) (dst : Nat → UInt32) :
    (∀ calls : List Call, (∀ c ∈ calls, c.Inside x y w h) →
      gfxBlit g (calls.foldl (Call.run g) b) (gfxCopyOut g b x y w h dst) x y w h = b) ∧
    ∀ src, ∀ k < w * h, gfxCopyOut g (gfxBlit g b src x y w h) x y w h dst k = src k := by
  constructor
  · intro calls hcalls
    obtain ⟨honly, hout⟩ := calls_within hfits hx hy hcalls b
    obtain ⟨honly', hpainted⟩ := gfxBlit_draws hfits hx hy (calls.foldl (Call.run g) b) (gfxCopyOut g b x y w h dst)
    have hsame : (gfxBlit g (calls.foldl (Call.run g) b) (gfxCopyOut g b x y w h dst) x y w h).fb = b.fb := by
      refine Framebuffer.memory_ext (g := g) x y w h (fun i j hpoint => ?_) fun a ha => ?_
      · obtain ⟨⟨hxi, hix, _⟩, hyj, hjy, _⟩ := id hpoint
        rw [hpainted.inside i j hpoint, gfxCopyOut_eq hy dst (by omega) (by omega), Nat.add_sub_cancel' hxi,
          Nat.add_sub_cancel' hyj]
      · rw [hpainted.outside a ha, hout a ha]
    rw [honly', hsame, honly, Buffers.draw_draw, Buffers.draw_self]
  · intro src k hk
    have hpos : 0 < w := Nat.pos_of_mul_pos_right (show 0 < w * h by omega)
    have hcol : k % w < w := Nat.mod_lt k hpos
    have hrow : k / w < h := Nat.div_lt_of_lt_mul hk
    obtain ⟨_, hpainted⟩ := gfxBlit_draws hfits hx hy b src
    have hpoint : g.OnScreen x y w h (x + k % w) (y + k / w) :=
      ⟨⟨Nat.le_add_right _ _, by omega, by omega⟩, Nat.le_add_right _ _, by omega, by omega⟩
    have hread := gfxCopyOut_eq (b := gfxBlit g b src x y w h) (x := x) hy dst hcol hrow
    rwa [hpainted.inside _ _ hpoint, Nat.add_sub_cancel_left, Nat.add_sub_cancel_left, Nat.div_add_mod'] at hread

/-- One point of the small screen is filled, and restored. -/
theorem blit_restores_smallScreen :
    gfxBlit smallScreen (gfxFillRect smallScreen black 1 0 1 1 white)
      (gfxCopyOut smallScreen black 1 0 2 2 fun _ => white) 1 0 2 2 = black := by
  have hinside : (Call.fillRect 1 0 1 1 white).Inside 1 0 2 2 :=
    ⟨show 1 < 2 ^ 32 ∧ 1 < 2 ^ 32 by decide, fun i j hin => ⟨by have := hin.1; omega, by have := hin.2; omega⟩⟩
  exact (blit_restores (g := smallScreen) (by decide) (by decide) (by decide) black fun _ => white).1
    [.fillRect 1 0 1 1 white] fun c hc => by
      rw [List.mem_singleton.mp hc]
      exact hinside

end ArcMonark.Gui
