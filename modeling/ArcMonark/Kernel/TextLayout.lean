import ArcMonark.Drivers.Terminal
import ArcMonark.Gui.GfxClip
import ArcMonark.Kernel.MouseDemo

/-! Text and outlines (`gui/gfx.c`).

`gfx_text` puts one glyph behind the other and goes on in the next row when there is no room
for another. `text_layout` says where each glyph is: the first row takes what is left of it,
every other one as many as fit, and none is cut off or drawn over. -/
namespace ArcMonark.Kernel
open Library Gui

section Code
variable (g : Framebuffer)

def gfxHline (b : Buffers) (x y len : Nat) (argb : UInt32) : Buffers := gfxFillRect g b x y len 1 argb

def gfxVline (b : Buffers) (x y len : Nat) (argb : UInt32) : Buffers := gfxFillRect g b x y 1 len argb

def gfxRect (b : Buffers) (x y w h : Nat) (argb : UInt32) : Buffers :=
  if w = 0 ∨ h = 0 then b
  else
    let b := gfxHline g b x y w argb
    let b := gfxHline g b x ((y + h + (2 ^ 32 - 1)) % 2 ^ 32) w argb
    let b := gfxVline g b x y h argb
    gfxVline g b ((x + w + (2 ^ 32 - 1)) % 2 ^ 32) y h argb

end Code

/-! ### Outlines -/

section Outline
variable {g : Framebuffer} {hfits : 4 * g.width ≤ g.pitch} {b b' : Buffers} {p : Picture UInt32} {x y w h : Nat}

theorem last_eq {n : Nat} (hpos : 0 < n) (hn : n < 2 ^ 32) : (n + (2 ^ 32 - 1)) % 2 ^ 32 = n - 1 := by omega

/-- `gfx_rect` draws the outline of a rectangle, with nothing inside it. -/
theorem gfxRect_drawn (hd : Drawn (g.raster hfits) b b' p) (hw : x + w < 2 ^ 32) (hh : y + h < 2 ^ 32) (argb : UInt32) :
    Drawn (g.raster hfits) b (gfxRect g b' x y w h argb) fun i j =>
      if ((x ≤ i ∧ i < x + w) ∧ y ≤ j ∧ j < y + h) ∧ (i = x ∨ i + 1 = x + w ∨ j = y ∨ j + 1 = y + h) then argb
      else p i j := by
  unfold gfxRect
  split
  · refine hd.congr fun i j _ _ => (if_neg ?_).symm
    omega
  · rename_i hpos
    rw [last_eq (by omega) hh, last_eq (by omega) hw]
    have htop := gfxFillRect_drawn hd hw (show y + 1 < 2 ^ 32 by omega) argb
    have hbottom := gfxFillRect_drawn htop hw (show y + h - 1 + 1 < 2 ^ 32 by omega) argb
    have hleft := gfxFillRect_drawn hbottom (show x + 1 < 2 ^ 32 by omega) hh argb
    have hright := gfxFillRect_drawn hleft (show x + w - 1 + 1 < 2 ^ 32 by omega) hh argb
    refine hright.congr fun i j _ _ => ?_
    simp only [Picture.patch]
    split_ifs <;> first | rfl | omega

end Outline

/-! ### Text -/

/-- Where the `k`th character of a text from `(x, y)` on belongs. -/
def cellOf (width x y k : Nat) : Nat × Nat :=
  let first := (width - x) / 8
  if k < first then (x + 8 * k, y) else (8 * ((k - first) % (width / 8)), y + 16 * (1 + (k - first) / (width / 8)))

def InCell (c : Nat × Nat) (i j : Nat) : Prop := (c.1 ≤ i ∧ i < c.1 + 8) ∧ c.2 ≤ j ∧ j < c.2 + 16

section Layout
variable {width x y k : Nat}

theorem cellOf_first (hk : k < (width - x) / 8) : cellOf width x y k = (x + 8 * k, y) := if_pos hk

theorem cellOf_below (hk : ¬k < (width - x) / 8) : cellOf width x y k =
    (8 * ((k - (width - x) / 8) % (width / 8)), y + 16 * (1 + (k - (width - x) / 8) / (width / 8))) := if_neg hk

theorem cellOf_zero (hx : x + 8 ≤ width) : cellOf width x y 0 = (x, y) := cellOf_first (by omega)

/-- Behind the first character there is room for another. -/
theorem cellOf_right (hx : x + 16 ≤ width) : cellOf width x y (k + 1) = cellOf width (x + 8) y k := by
  have hroom : (width - x) / 8 = (width - (x + 8)) / 8 + 1 := by omega
  by_cases hk : k < (width - (x + 8)) / 8
  · rw [cellOf_first (by omega), cellOf_first hk]
    exact Prod.ext (by dsimp only; omega) rfl
  · rw [cellOf_below (by omega), cellOf_below hk, hroom, Nat.add_sub_add_right]

/-- The first character is the last in its row. -/
theorem cellOf_down (hx : x + 8 ≤ width) (hend : width < x + 16) :
    cellOf width x y (k + 1) = cellOf width 0 (y + 16) k := by
  have hroom : (width - x) / 8 = 1 := by omega
  rw [cellOf_below (by omega), hroom, Nat.add_sub_cancel]
  by_cases hk : k < width / 8
  · rw [cellOf_first hk, Nat.mod_eq_of_lt hk, Nat.div_eq_of_lt hk, Nat.zero_add]
  · have hcols : 0 < width / 8 := by omega
    rw [cellOf_below hk, Nat.sub_zero, Nat.mod_eq_sub_mod (by omega), Nat.div_eq_sub_div hcols (by omega)]
    exact Prod.ext rfl (by dsimp only; omega)

theorem cellOf_width (hx : x + 8 ≤ width) (k : Nat) : (cellOf width x y k).1 + 8 ≤ width := by
  by_cases hk : k < (width - x) / 8
  · rw [cellOf_first hk]
    dsimp only
    omega
  · have hcol := Nat.mod_lt (k - (width - x) / 8) (show 0 < width / 8 by omega)
    rw [cellOf_below hk]
    dsimp only
    omega

/-- No later character is in the first one's cell. -/
theorem cellOf_apart {i j : Nat} (hin : InCell (x, y) i j) : ¬InCell (cellOf width x y (k + 1)) i j := by
  unfold InCell at hin ⊢
  by_cases hk : k + 1 < (width - x) / 8
  · rw [cellOf_first hk]
    dsimp only at hin ⊢
    omega
  · rw [cellOf_below hk]
    generalize (k + 1 - (width - x) / 8) / (width / 8) = row
    dsimp only at hin ⊢
    omega

end Layout

/-- The characters have their cells, and nothing else is drawn. -/
structure LaidOut (width x y : Nat) (fg bg : UInt32) (s : List UInt8) (p q : Picture UInt32) : Prop where
  glyphs : ∀ k, (hk : k < s.length) → ∀ i j, InCell (cellOf width x y k) i j →
    q i j = glyph (glyphOf s[k]) fg bg (i - (cellOf width x y k).1) (j - (cellOf width x y k).2)
  kept : ∀ i j, (∀ k < s.length, ¬InCell (cellOf width x y k) i j) → q i j = p i j

/-- One glyph, and the rest from the place behind it. -/
theorem LaidOut.cons {width x y x' y' : Nat} {fg bg : UInt32} {c : UInt8} {s : List UInt8} {p q : Picture UInt32}
    (hx : x + 8 ≤ width) (hnext : ∀ k, cellOf width x y (k + 1) = cellOf width x' y' k)
    (h : LaidOut width x' y' fg bg s (p.patch x y 8 16 fun i j => glyph (glyphOf c) fg bg (i - x) (j - y)) q) :
    LaidOut width x y fg bg (c :: s) p q where
  glyphs k hk i j hin := by
    cases k with
    | zero =>
      rw [cellOf_zero hx] at hin ⊢
      have hlater : ∀ k < s.length, ¬InCell (cellOf width x' y' k) i j := fun k _ => by
        rw [← hnext]
        exact cellOf_apart hin
      rw [h.kept i j hlater]
      exact Picture.patch_inside _ _ _ _ _ _ hin.1 hin.2
    | succ k =>
      rw [hnext] at hin ⊢
      exact h.glyphs k (Nat.lt_of_succ_lt_succ hk) i j hin
  kept i j hout := by
    have hfirst := hout 0 (Nat.zero_lt_succ _)
    rw [cellOf_zero hx] at hfirst
    rw [h.kept i j fun k hk => by rw [← hnext]; exact hout (k + 1) (Nat.succ_lt_succ hk)]
    exact Picture.patch_outside _ _ _ _ _ _ hfirst

/-- **Text is laid out in rows.** Each character from `(x, y)` on has a cell of its own, which
is not cut off at the right edge and shows its whole glyph; nothing is drawn outside the
cells. -/
theorem text_layout {g : Framebuffer} {hfits : 4 * g.width ≤ g.pitch} {b b' : Buffers} {p : Picture UInt32} {x y : Nat}
    (hd : Drawn (g.raster hfits) b b' p) (hwidth : g.width + 8 < 2 ^ 32) (hx : x + 8 ≤ g.width) (s : List UInt8)
    (fg bg : UInt32) (hrows : ∀ k < s.length, (cellOf g.width x y k).2 + 16 ≤ 2 ^ 32) :
    (∃ q, Drawn (g.raster hfits) b (gfxText g b' s x y fg bg) q ∧ LaidOut g.width x y fg bg s p q) ∧
      ∀ k, (cellOf g.width x y k).1 + 8 ≤ g.width := by
  refine ⟨?_, cellOf_width hx⟩
  induction s generalizing x y b' p with
  | nil => exact ⟨p, hd, fun k hk => absurd hk (Nat.not_lt_zero k), fun _ _ _ => rfl⟩
  | cons c s ih =>
    have hrow := hrows 0 (Nat.zero_lt_succ _)
    rw [cellOf_zero hx] at hrow
    have hchar := gfxChar_drawn hd (show x + 8 ≤ 2 ^ 32 by omega) hrow c fg bg
    have hright : (x + 8) % 2 ^ 32 = x + 8 := Nat.mod_eq_of_lt (by omega)
    have hroom : (x + 8 + 8) % 2 ^ 32 = x + 16 := Nat.mod_eq_of_lt (by omega)
    rw [gfxText, hright, hroom]
    split
    · rename_i hend
      have hnext : ∀ k, cellOf g.width x y (k + 1) = cellOf g.width 0 (y + 16) k := fun k => cellOf_down hx hend
      cases s with
      | nil =>
        refine ⟨_, hchar, LaidOut.cons hx hnext ⟨fun k hk => absurd hk (Nat.not_lt_zero k), fun _ _ _ => rfl⟩⟩
      | cons d s =>
        have hbelow := hrows 1 (Nat.succ_lt_succ (Nat.zero_lt_succ _))
        rw [hnext, cellOf_zero (by omega)] at hbelow
        rw [Nat.mod_eq_of_lt (show y + 16 < 2 ^ 32 by dsimp only at hbelow; omega)]
        obtain ⟨q, hq, hlaid⟩ := ih hchar (show 0 + 8 ≤ g.width by omega) fun k hk => by
          rw [← hnext]
          exact hrows (k + 1) (Nat.succ_lt_succ hk)
        exact ⟨q, hq, hlaid.cons hx hnext⟩
    · rename_i hgoes
      have hnext : ∀ k, cellOf g.width x y (k + 1) = cellOf g.width (x + 8) y k := fun k => cellOf_right (by omega)
      obtain ⟨q, hq, hlaid⟩ := ih hchar (show x + 8 + 8 ≤ g.width by omega) fun k hk => by
        rw [← hnext]
        exact hrows (k + 1) (Nat.succ_lt_succ hk)
      exact ⟨q, hq, hlaid.cons hx hnext⟩

/-- The third letter has no room in the first row. -/
theorem text_layout_twoRows : ∃ q,
    Drawn (Drivers.twoColumns.raster (by decide)) black
      (gfxText Drivers.twoColumns black [0x61, 0x62, 0x63] 4 0 1 2) q ∧
      q 1 18 = glyph 0x63 1 2 1 2 := by
  have hfits : 4 * Drivers.twoColumns.width ≤ Drivers.twoColumns.pitch := by decide
  have hblack : Drawn (Drivers.twoColumns.raster hfits) black black _ := .start (Raster.shows_self _ _)
  obtain ⟨⟨q, hq, hlaid⟩, _⟩ := text_layout (y := 0) hblack (by decide) (show 4 + 8 ≤ 20 by decide)
    [0x61, 0x62, 0x63] 1 2 (by decide)
  exact ⟨q, hq, hlaid.glyphs 2 (by decide) 1 18 ⟨by decide, by decide⟩⟩

end ArcMonark.Kernel
