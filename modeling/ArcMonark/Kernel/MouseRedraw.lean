import ArcMonark.Kernel.MouseDemo
import ArcMonark.Library.Runs

/-! What the mouse demo shows (`cmd_mouse`).

The demo is two pictures: the background, which is shown with the cursor over it, and the
saved one, of which the part under the cursor counts. `Represents.next` says what an
iteration makes of them. The background stays the scene with its lamps as long as no lamp
under the cursor has changed when the cursor leaves (`redraw_full`). -/
namespace ArcMonark.Kernel
open Library Gui

/-! ### Both buffers -/

/-- The drawing buffer and the framebuffer show the picture. -/
structure Showing (r : Raster) (b : Buffers) (p : Picture UInt32) : Prop where
  fb : r.Shows b.fb p
  hw : r.Shows b.hw p

section Showing
variable {g : Framebuffer} {hfits : 4 * g.width ≤ g.pitch} {b b' : Buffers} {p q saved : Picture UInt32} {x y w h : Nat}

theorem Showing.congr {r : Raster} (h : Showing r b p) (hpq : ∀ x y, p x y = q x y) : Showing r b q :=
  ⟨h.fb.congr fun x y _ _ => hpq x y, h.hw.congr fun x y _ _ => hpq x y⟩

/-- What is drawn inside a rectangle is shown once the rectangle is presented. -/
theorem Showing.present (hb : Showing (g.raster hfits) b p) (hd : Drawn (g.raster hfits) b b' q) (hw : x + w < 2 ^ 32)
    (hh : y + h < 2 ^ 32) (hsame : ∀ i j, ¬ ((x ≤ i ∧ i < x + w) ∧ y ≤ j ∧ j < y + h) → p i j = q i j) :
    Showing (g.raster hfits) (gfxPresentRect g b' x y w h) q := by
  obtain ⟨hw₀, _ | back⟩ := b
  · -- There is one buffer, and nothing is to be presented.
    have hb' : b' = {hw := b'.fb, back := none} := hd.only
    have hpresent : gfxPresentRect g b' x y w h = b' := by
      rw [hb']
      rfl
    have hhw : b'.hw = b'.fb := congrArg Buffers.hw hb'
    rw [hpresent]
    exact ⟨hd.shows, hhw ▸ hd.shows⟩
  · obtain ⟨hback', hhw'⟩ := hd.kept rfl
    have hshows := (gfxPresentRect_shows hback' hd.shows (hhw' ▸ hb.hw) hw hh).2
    refine ⟨?_, hshows.congr fun i j _ _ => ?_⟩
    · rw [gfxPresentRect_fb]
      exact hd.shows
    · by_cases hin : (x ≤ i ∧ i < x + w) ∧ y ≤ j ∧ j < y + h
      · exact Picture.patch_inside _ _ _ _ _ _ hin.1 hin.2
      · rw [Picture.patch_outside _ _ _ _ _ _ hin, hsame i j hin]

/-- A present of everything. -/
theorem showing_all (hpitch : 4 ∣ g.pitch) (hd : Drawn (g.raster hfits) b b' p) :
    Showing (g.raster hfits) (gfxPresent g b') p := by
  obtain ⟨hw₀, _ | back⟩ := b
  · have hb' : b' = {hw := b'.fb, back := none} := hd.only
    have hpresent : gfxPresent g b' = b' := by
      rw [hb']
      rfl
    have hhw : b'.hw = b'.fb := congrArg Buffers.hw hb'
    rw [hpresent]
    exact ⟨hd.shows, hhw ▸ hd.shows⟩
  · have hshows := (gfxPresent_shows hpitch (hd.kept rfl).1 hd.shows).2
    refine ⟨?_, hshows⟩
    rw [gfxPresent_fb]
    exact hd.shows

/-! ### The parts of an iteration -/

/-- The lamps are redrawn when the buttons change. -/
def relamp (p : Picture UInt32) (ob b : UInt8) : Picture UInt32 := if b ≠ ob then withLamps p b else p

/-- A lamp is drawn over what was there. -/
theorem patch_lamp {c d : UInt32} {i j : Nat} (hpq : p i j = q i j)
    (hcd : (x ≤ i ∧ i < x + w) ∧ y ≤ j ∧ j < y + h → c = d) :
    p.patch x y w h (fun _ _ => c) i j = q.patch x y w h (fun _ _ => d) i j := by
  by_cases hin : (x ≤ i ∧ i < x + w) ∧ y ≤ j ∧ j < y + h
  · rw [Picture.patch_inside _ _ _ _ _ _ hin.1 hin.2, Picture.patch_inside _ _ _ _ _ _ hin.1 hin.2, hcd hin]
  · rw [Picture.patch_outside _ _ _ _ _ _ hin, Picture.patch_outside _ _ _ _ _ _ hin, hpq]

theorem withLamps_congr {i j : Nat} (hpq : p i j = q i j) (b : UInt8) : withLamps p b i j = withLamps q b i j :=
  patch_lamp (patch_lamp (patch_lamp hpq fun _ => rfl) fun _ => rfl) fun _ => rfl

theorem relamp_congr {i j : Nat} (hpq : p i j = q i j) (ob b : UInt8) : relamp p ob b i j = relamp q ob b i j := by
  unfold relamp
  split
  · exact withLamps_congr hpq b
  · exact hpq

/-- The lamps are inside the rectangle that is presented. -/
theorem withLamps_outside {i j : Nat} (hout : ¬ ((200 ≤ i ∧ i < 200 + 52) ∧ 2 ≤ j ∧ j < 2 + 14)) (b : UInt8) :
    withLamps p b i j = p i j := by
  unfold withLamps
  rw [Picture.patch_outside _ _ _ _ _ _ (by omega), Picture.patch_outside _ _ _ _ _ _ (by omega),
    Picture.patch_outside _ _ _ _ _ _ (by omega)]

theorem Showing.relamp (hb : Showing (g.raster hfits) b p) (ob buttons : UInt8) :
    Showing (g.raster hfits) (if buttons ≠ ob then gfxPresentRect g (drawBtns g b buttons) 200 2 52 14 else b)
      (relamp p ob buttons) := by
  unfold Kernel.relamp
  split
  · exact hb.present (drawBtns_drawn (.start hb.fb) buttons) (by decide) (by decide)
      fun i j hout => (withLamps_outside hout buttons).symm
  · exact hb

/-- What was saved is put back. -/
theorem Showing.restore (hb : Showing (g.raster hfits) b p) {under : Nat → UInt32} (hx : x + curW ≤ g.width)
    (hy : y + curH ≤ g.height) (hunder : ∀ i j, i < curW → j < curH → under (j * curW + i) = saved (x + i) (y + j)) :
    Showing (g.raster hfits) (gfxPresentRect g (gfxBlit g b under x y curW curH) x y curW curH)
      (p.patch x y curW curH saved) := by
  have hwidth := g.width_lt
  have hheight := g.height_lt
  have hd := gfxBlit_drawn (w := curW) (h := curH) (.start hb.fb) (show x + curW < 2 ^ 32 by omega)
    (show y + curH < 2 ^ 32 by omega) under
  refine hb.present (hd.congr fun i j _ _ => ?_) (by omega) (by omega)
    fun i j hout => (Picture.patch_outside _ _ _ _ _ _ hout).symm
  by_cases hin : (x ≤ i ∧ i < x + curW) ∧ y ≤ j ∧ j < y + curH
  · have hword := hunder (i - x) (j - y) (by omega) (by omega)
    rw [Nat.add_sub_cancel' hin.1.1, Nat.add_sub_cancel' hin.2.1] at hword
    rw [Picture.patch_inside _ _ _ _ _ _ hin.1 hin.2, Picture.patch_inside _ _ _ _ _ _ hin.1 hin.2, hword]
  · rw [Picture.patch_outside _ _ _ _ _ _ hin, Picture.patch_outside _ _ _ _ _ _ hin]

/-- The cursor is drawn. -/
theorem Showing.cursor (hb : Showing (g.raster hfits) b p) (hx : x + curW ≤ g.width) (hy : y + curH ≤ g.height)
    (buttons : UInt8) :
    Showing (g.raster hfits) (gfxPresentRect g (drawCursor g b x y buttons) x y curW curH)
      (p.overlay (cursorAt x y buttons)) := by
  have hwidth := g.width_lt
  have hheight := g.height_lt
  refine hb.present (drawCursor_drawn (.start hb.fb) hx hy buttons) (by omega) (by omega) fun i j hout => ?_
  rw [Picture.overlay, cursorAt, if_neg hout]
  rfl

/-- What is under the cursor's new place is saved. -/
theorem Showing.save (hb : Showing (g.raster hfits) b p) (hx : x + curW ≤ g.width) (hy : y + curH ≤ g.height)
    (under : Nat → UInt32) {i j : Nat} (hi : i < curW) (hj : j < curH) :
    gfxCopyOut g b x y curW curH under (j * curW + i) = p (x + i) (y + j) := by
  rw [gfxCopyOut_eq hy under hi hj]
  exact hb.fb (x + i) (y + j) (show x + i < g.width by omega) (show y + j < g.height by omega)

end Showing

/-! ### The two pictures -/

/-- The cursor's place for a sample: it is kept on the screen as a whole. -/
def place (g : Framebuffer) (s : Sample) : Nat × Nat :=
  (min s.x.toNat (g.width - curW), min s.y.toNat (g.height - curH))

/-- Where the cursor is, what is shown around it, and what has been saved. -/
structure View where
  spot : Nat × Nat
  background : Picture UInt32
  saved : Picture UInt32
  mask : UInt8

/-- The cursor comes to a place. -/
def View.arrive (p : Nat × Nat) (background : Picture UInt32) (mask : UInt8) : View :=
  {spot := p, background, saved := background, mask}

/-- The first iteration, on a scene with its lamps off. -/
def View.first (g : Framebuffer) (scene : Picture UInt32) (s : Sample) : View :=
  .arrive (place g s) (relamp (withLamps scene 0) 0 s.buttons) s.buttons

/-- The saved part of the background is put back where the cursor leaves. -/
def View.left (v : View) (b : UInt8) : Picture UInt32 :=
  (relamp v.background v.mask b).patch v.spot.1 v.spot.2 curW curH v.saved

def View.next (g : Framebuffer) (v : View) (s : Sample) : View :=
  if place g s = v.spot then {v with background := relamp v.background v.mask s.buttons, mask := s.buttons}
  else .arrive (place g s) (v.left s.buttons) s.buttons

/-- The demo's variables and buffers hold the view. -/
structure Represents (g : Framebuffer) (hfits : 4 * g.width ≤ g.pitch) (s : Demo) (v : View) : Prop where
  right : v.spot.1 + curW ≤ g.width
  bottom : v.spot.2 + curH ≤ g.height
  ox : s.ox = v.spot.1
  oy : s.oy = v.spot.2
  ob : s.ob = v.mask
  under : ∀ i j, i < curW → j < curH → s.under (j * curW + i) = v.saved (v.spot.1 + i) (v.spot.2 + j)
  showing : Showing (g.raster hfits) s.buffers (v.background.overlay (cursorAt v.spot.1 v.spot.2 v.mask))

section Iteration
variable {g : Framebuffer} {hfits : 4 * g.width ≤ g.pitch} {s : Demo} {sample : Sample} {v : View} {p : Picture UInt32}

theorem keepOn_eq {m : Int} {size cur : Nat} (hm : 0 ≤ m) (hcur : cur ≤ size) (hsize : size < 2 ^ 31 + cur) :
    keepOn m size cur = (min m.toNat (size - cur) : Nat) := by
  have hlt : (UInt32.ofNat (size - cur)).toNat = size - cur := UInt32.toNat_ofNat_of_lt' (show size - cur < 2 ^ 32 by omega)
  have hlast : Drivers.toInt (.ofNat size - .ofNat cur) = (size - cur : Nat) := by
    rw [← UInt32.ofNat_sub hcur]
    refine (BitVec.toInt_eq_toNat_of_lt (show 2 * (UInt32.ofNat (size - cur)).toNat < 2 ^ 32 by omega)).trans ?_
    exact congrArg Nat.cast hlt
  unfold keepOn
  rw [hlast]
  dsimp only
  split <;> omega

/-- The cursor is drawn at a place that it comes to. -/
theorem represents_arrive {b : Buffers} (hb : Showing (g.raster hfits) b p) {spot : Nat × Nat}
    (hx : spot.1 + curW ≤ g.width) (hy : spot.2 + curH ≤ g.height) (under : Nat → UInt32) (mask : UInt8) :
    Represents g hfits {
      buffers := gfxPresentRect g (drawCursor g b spot.1 spot.2 mask) spot.1 spot.2 curW curH
      under := gfxCopyOut g b spot.1 spot.2 curW curH under
      ox := spot.1
      oy := spot.2
      ob := mask } (.arrive spot p mask) where
  right := hx
  bottom := hy
  ox := rfl
  oy := rfl
  ob := rfl
  under := fun _ _ hi hj => hb.save hx hy under hi hj
  showing := hb.cursor hx hy mask

/-- The lamps do not see the cursor. -/
theorem relamp_overlay {f : Picture (Option UInt32)} {i j : Nat} (hf : f i j = none) (ob b : UInt8) :
    relamp (p.overlay f) ob b i j = relamp p ob b i j := by
  refine relamp_congr ?_ ob b
  rw [Picture.overlay, hf]
  rfl

/-- Both cursors have the same outline. -/
theorem cursorAt_none {x y i j : Nat} {b b' : UInt8} (h : cursorAt x y b i j = none) : cursorAt x y b' i j = none := by
  unfold cursorAt at h ⊢
  split at h
  · rename_i hin
    rw [if_pos hin]
    unfold cursorColour at h ⊢
    split at h
    · cases h
    · split at h
      · cases h
      · rename_i hedge hfill
        rw [if_neg hedge, if_neg hfill]
  · rename_i hout
    exact if_neg hout

/-- A cursor that stays is drawn over itself and over the new lamps. -/
theorem relamp_redraw (x y : Nat) (ob b : UInt8) (i j : Nat) :
    (relamp (p.overlay (cursorAt x y ob)) ob b).overlay (cursorAt x y b) i j = (relamp p ob b).overlay (cursorAt x y b) i j := by
  unfold Picture.overlay
  cases hc : cursorAt x y b i j with
  | none => exact relamp_overlay (cursorAt_none hc) ob b
  | some c => rfl

/-- Restoring what was under the cursor takes the cursor away. -/
theorem relamp_restore (v : View) (b : UInt8) (i j : Nat) :
    (relamp (v.background.overlay (cursorAt v.spot.1 v.spot.2 v.mask)) v.mask b).patch v.spot.1 v.spot.2 curW curH v.saved i j =
      v.left b i j := by
  unfold View.left
  by_cases hin : (v.spot.1 ≤ i ∧ i < v.spot.1 + curW) ∧ v.spot.2 ≤ j ∧ j < v.spot.2 + curH
  · rw [Picture.patch_inside _ _ _ _ _ _ hin.1 hin.2, Picture.patch_inside _ _ _ _ _ _ hin.1 hin.2]
  · rw [Picture.patch_outside _ _ _ _ _ _ hin, Picture.patch_outside _ _ _ _ _ _ hin]
    exact relamp_overlay (if_neg hin) v.mask b

theorem place_right (hg : CursorFits g) (sample : Sample) : (place g sample).1 + curW ≤ g.width :=
  Nat.add_le_of_le_sub hg.width_ge (Nat.min_le_right _ _)

theorem place_bottom (hg : CursorFits g) (sample : Sample) : (place g sample).2 + curH ≤ g.height :=
  Nat.add_le_of_le_sub hg.height_ge (Nat.min_le_right _ _)

/-- An iteration with the numbers that its arithmetic comes to. -/
theorem mouseIteration_eq (hg : CursorFits g) (hon : sample.OnScreen g) (s : Demo) :
    mouseIteration g s sample =
      let b := sample.buttons
      let spot := place g sample
      let moved := (spot.1 : Int) ≠ s.ox ∨ (spot.2 : Int) ≠ s.oy
      let buffers := if b ≠ s.ob then gfxPresentRect g (drawBtns g s.buffers b) 200 2 52 14 else s.buffers
      if moved ∨ b ≠ s.ob then
        let buffers :=
          if moved ∧ s.ox ≥ 0 then
            gfxPresentRect g (gfxBlit g buffers s.under (toU32 s.ox) (toU32 s.oy) curW curH) (toU32 s.ox) (toU32 s.oy)
              curW curH
          else buffers
        let under := if moved ∨ s.ox < 0 then gfxCopyOut g buffers spot.1 spot.2 curW curH s.under else s.under
        let buffers := gfxPresentRect g (drawCursor g buffers spot.1 spot.2 b) spot.1 spot.2 curW curH
        {buffers, under, ox := spot.1, oy := spot.2, ob := b}
      else {s with buffers, ob := b} := by
  have hwidth := g.width_lt
  have hheight := g.height_lt
  have hright := place_right hg sample
  have hbottom := place_bottom hg sample
  have hnx : keepOn sample.x g.width curW = (place g sample).1 := keepOn_eq hon.left hg.width_ge hg.width_lt
  have hny : keepOn sample.y g.height curH = (place g sample).2 := keepOn_eq hon.top hg.height_ge hg.height_lt
  have hx : toU32 ((place g sample).1 : Nat) = (place g sample).1 := toU32_eq (by omega)
  have hy : toU32 ((place g sample).2 : Nat) = (place g sample).2 := toU32_eq (by omega)
  unfold mouseIteration
  rw [hnx, hny]
  dsimp only
  rw [hx, hy]

/-- The first iteration. -/
theorem represents_first (hg : CursorFits g) {scene : Picture UInt32} (hs : Showing (g.raster hfits) s.buffers (withLamps scene 0))
    (hox : s.ox = -1) (hob : s.ob = 0) (hon : sample.OnScreen g) :
    Represents g hfits (mouseIteration g s sample) (.first g scene sample) := by
  have hlamps := hs.relamp s.ob sample.buttons
  have hmoved : ((place g sample).1 : Int) ≠ s.ox ∨ ((place g sample).2 : Int) ≠ s.oy := .inl (by omega)
  have hnone : ¬ ((((place g sample).1 : Int) ≠ s.ox ∨ ((place g sample).2 : Int) ≠ s.oy) ∧ s.ox ≥ 0) :=
    fun h => by
      have := h.2
      omega
  rw [mouseIteration_eq hg hon]
  dsimp only
  rw [if_pos (Or.inl hmoved), if_neg hnone, if_pos (Or.inl hmoved)]
  rw [hob] at hlamps ⊢
  exact represents_arrive hlamps (place_right hg sample) (place_bottom hg sample) s.under sample.buttons

/-- An iteration that does not move the cursor. -/
theorem Represents.stay (hg : CursorFits g) (h : Represents g hfits s v) (hon : sample.OnScreen g)
    (hstay : place g sample = v.spot) :
    Represents g hfits (mouseIteration g s sample)
      {v with background := relamp v.background v.mask sample.buttons, mask := sample.buttons} := by
  have hlamps := h.showing.relamp v.mask sample.buttons
  have hstill : ¬ ((v.spot.1 : Int) ≠ v.spot.1 ∨ (v.spot.2 : Int) ≠ v.spot.2) := by omega
  have hnone : ¬ (((v.spot.1 : Int) ≠ v.spot.1 ∨ (v.spot.2 : Int) ≠ v.spot.2) ∧ (v.spot.1 : Int) ≥ 0) :=
    fun hmoved => hstill hmoved.1
  have hkeep : ¬ (((v.spot.1 : Int) ≠ v.spot.1 ∨ (v.spot.2 : Int) ≠ v.spot.2) ∨ (v.spot.1 : Int) < 0) := by omega
  rw [mouseIteration_eq hg hon]
  dsimp only
  rw [hstay, h.ox, h.oy, h.ob]
  by_cases hbtn : sample.buttons ≠ v.mask
  · rw [if_pos (Or.inr hbtn), if_neg hnone, if_neg hkeep]
    exact {
      right := h.right
      bottom := h.bottom
      ox := rfl
      oy := rfl
      ob := rfl
      under := h.under
      showing := (hlamps.cursor h.right h.bottom sample.buttons).congr (relamp_redraw _ _ _ _) }
  · rw [if_neg fun hmoved => hmoved.elim hstill hbtn]
    have hsame : sample.buttons = v.mask := not_not.mp hbtn
    have hkept : relamp v.background v.mask sample.buttons = v.background := if_neg hbtn
    rw [if_neg hbtn, hkept, hsame]
    exact {
      right := h.right
      bottom := h.bottom
      ox := rfl
      oy := rfl
      ob := rfl
      under := h.under
      showing := h.showing }

/-- An iteration that moves the cursor. -/
theorem Represents.move (hg : CursorFits g) (h : Represents g hfits s v) (hon : sample.OnScreen g)
    (hmove : place g sample ≠ v.spot) :
    Represents g hfits (mouseIteration g s sample) (.arrive (place g sample) (v.left sample.buttons) sample.buttons) := by
  have hwidth := g.width_lt
  have hheight := g.height_lt
  have hright := h.right
  have hbottom := h.bottom
  have hmoved : ((place g sample).1 : Int) ≠ v.spot.1 ∨ ((place g sample).2 : Int) ≠ v.spot.2 := by
    by_contra hsame
    exact hmove (Prod.ext (by omega) (by omega))
  have hlamps := h.showing.relamp v.mask sample.buttons
  have hrestored := (hlamps.restore h.right h.bottom h.under).congr (relamp_restore v sample.buttons)
  rw [mouseIteration_eq hg hon]
  dsimp only
  rw [h.ox, h.oy, h.ob, if_pos (Or.inl hmoved), if_pos ⟨hmoved, Int.natCast_nonneg _⟩, if_pos (Or.inl hmoved),
    toU32_eq (show v.spot.1 < 2 ^ 32 by omega), toU32_eq (show v.spot.2 < 2 ^ 32 by omega)]
  exact represents_arrive hrestored (place_right hg sample) (place_bottom hg sample) s.under sample.buttons

theorem Represents.next (hg : CursorFits g) (h : Represents g hfits s v) (hon : sample.OnScreen g) :
    Represents g hfits (mouseIteration g s sample) (v.next g sample) := by
  unfold View.next
  split
  · rename_i hstay
    exact h.stay hg hon hstay
  · rename_i hmove
    exact h.move hg hon hmove

end Iteration

/-! ### Lamps that are out of date -/

/-- One sample more: the cursor stays, or comes to a new place. -/
def comes (g : Framebuffer) : Option ((Nat × Nat) × UInt8) → Sample → Option ((Nat × Nat) × UInt8)
  | none, s => some (place g s, s.buttons)
  | some (spot, mask), s => some (place g s, if place g s = spot then mask else s.buttons)

/-- Where the cursor is after the samples, and the buttons with which it came there. -/
def arrival (g : Framebuffer) (seen : List Sample) : Option ((Nat × Nat) × UInt8) := seen.foldl (comes g) none

/-- The lamps: their columns and their buttons. -/
def lamps : List (Nat × UInt8) := [(200, mouseLeft), (218, mouseMiddle), (236, mouseRight)]

/-- The cursor's rectangle has a point of the lamp. -/
def OverLamp (spot : Nat × Nat) (column : Nat) : Prop :=
  (column < spot.1 + curW ∧ spot.1 < column + 14) ∧ 2 < spot.2 + curH ∧ spot.2 < 2 + 14

/-- When the cursor leaves a place, the lamps under it are as they were when it came. -/
def LampsKept (g : Framebuffer) (samples : List Sample) : Prop :=
  ∀ seen s, seen ++ [s] <+: samples → ∀ spot mask, arrival g seen = some (spot, mask) → place g s ≠ spot →
    ∀ l ∈ lamps, OverLamp spot l.1 → (mask &&& l.2 = 0 ↔ s.buttons &&& l.2 = 0)

/-- The scene, the lamps and the cursor, all drawn anew. -/
def redraw (g : Framebuffer) (b : Buffers) (s : Sample) : Buffers :=
  drawCursor g (drawBtns g (drawScene g b) s.buttons) (place g s).1 (place g s).2 s.buttons

/-- Both buffers show what a redraw of everything shows. -/
def ShowsRedraw (g : Framebuffer) (b b' : Buffers) (s : Sample) : Prop :=
  ∀ i j, i < g.width → j < g.height →
    b'.fb.word (j * g.pitch + 4 * i) = (redraw g b s).fb.word (j * g.pitch + 4 * i) ∧
    b'.hw.word (j * g.pitch + 4 * i) = (redraw g b s).fb.word (j * g.pitch + 4 * i)

section Redraw
variable {g : Framebuffer} {hfits : 4 * g.width ≤ g.pitch} {b b' : Buffers} {s : Sample} {scene : Picture UInt32}
  {spot : Nat × Nat} {under : Nat → UInt32}

/-- The view as it should be: the background is the scene with its lamps, and the saved
part has the lamps of the arrival. -/
def View.clean (g : Framebuffer) (scene : Picture UInt32) (s : Sample) (mask : UInt8) : View :=
  {spot := place g s, background := withLamps scene s.buttons, saved := withLamps scene mask, mask := s.buttons}

theorem withLamps_withLamps (p : Picture UInt32) (a b : UInt8) : withLamps (withLamps p a) b = withLamps p b := by
  funext i j
  unfold withLamps Picture.patch
  grind

theorem relamp_withLamps (p : Picture UInt32) (a b : UInt8) : relamp (withLamps p a) a b = withLamps p b := by
  unfold relamp
  split
  · exact withLamps_withLamps p a b
  · rename_i hsame
    rw [not_not.mp hsame]

theorem lamp_congr {a b bit : UInt8} (h : a &&& bit = 0 ↔ b &&& bit = 0) : lamp a bit = lamp b bit := by
  unfold lamp
  simp only [ne_eq, h]

/-- Lamps that have not changed look the same. -/
theorem withLamps_kept {a b : UInt8} (hkept : ∀ l ∈ lamps, OverLamp spot l.1 → (a &&& l.2 = 0 ↔ b &&& l.2 = 0)) :
    (withLamps scene b).patch spot.1 spot.2 curW curH (withLamps scene a) = withLamps scene b := by
  have hlamp : ∀ l ∈ lamps, ∀ i j, ((spot.1 ≤ i ∧ i < spot.1 + curW) ∧ spot.2 ≤ j ∧ j < spot.2 + curH) →
      ((l.1 ≤ i ∧ i < l.1 + 14) ∧ 2 ≤ j ∧ j < 2 + 14) → lamp a l.2 = lamp b l.2 := by
    intro l hl i j hin hpoint
    exact lamp_congr (hkept l hl ⟨⟨by omega, by omega⟩, by omega, by omega⟩)
  funext i j
  by_cases hin : (spot.1 ≤ i ∧ i < spot.1 + curW) ∧ spot.2 ≤ j ∧ j < spot.2 + curH
  · rw [Picture.patch_inside _ _ _ _ _ _ hin.1 hin.2]
    refine patch_lamp (patch_lamp (patch_lamp rfl ?_) ?_) ?_
    · exact hlamp (200, mouseLeft) (by decide) i j hin
    · exact hlamp (218, mouseMiddle) (by decide) i j hin
    · exact hlamp (236, mouseRight) (by decide) i j hin
  · exact Picture.patch_outside _ _ _ _ _ _ hin

/-- The next iteration leaves a clean view clean, if the lamps under the cursor are as they were. -/
theorem clean_next {s' : Sample} {mask : UInt8} (hkept : place g s' ≠ place g s →
      ∀ l ∈ lamps, OverLamp (place g s) l.1 → (mask &&& l.2 = 0 ↔ s'.buttons &&& l.2 = 0)) :
    (View.clean g scene s mask).next g s' =
      .clean g scene s' (if place g s' = place g s then mask else s'.buttons) := by
  unfold View.next
  split
  · rename_i hstay
    have hstay : place g s' = place g s := hstay
    rw [if_pos hstay]
    unfold View.clean
    rw [hstay, relamp_withLamps]
  · rename_i hmove
    have hmove : place g s' ≠ place g s := hmove
    rw [if_neg hmove]
    have hleft : (View.clean g scene s mask).left s'.buttons = withLamps scene s'.buttons := by
      unfold View.left View.clean
      dsimp only
      rw [relamp_withLamps]
      exact withLamps_kept (hkept hmove)
    rw [hleft]
    rfl

theorem arrival_snoc (seen : List Sample) (s : Sample) : arrival g (seen ++ [s]) = comes g (arrival g seen) s := by
  simp [arrival]

theorem mouseDemo_snoc (seen : List Sample) (s : Sample) :
    mouseDemo g b under (seen ++ [s]) = mouseIteration g (mouseDemo g b under seen) s := by
  simp [mouseDemo]

/-- The scene as it is drawn. -/
def scenePicture (g : Framebuffer) (hfits : 4 * g.width ≤ g.pitch) (b : Buffers) : Picture UInt32 :=
  fun x y => (drawScene g b).fb.word ((g.raster hfits).offset x y)

theorem start_showing (hfits : 4 * g.width ≤ g.pitch) (hpitch : 4 ∣ g.pitch) (b : Buffers) (under : Nat → UInt32) :
    Showing (g.raster hfits) (Demo.start g b under).buffers (withLamps (scenePicture g hfits b) 0) :=
  showing_all hpitch (drawBtns_drawn (.start ((g.raster hfits).shows_self _)) 0)

/-- **The view stays clean** through a run in which the lamps are kept. -/
theorem mouseDemo_clean (hfits : 4 * g.width ≤ g.pitch) (hg : CursorFits g) (hpitch : 4 ∣ g.pitch) (b : Buffers)
    (under : Nat → UInt32) {samples : List Sample}
    (hon : ∀ s ∈ samples, s.OnScreen g) (hkept : LampsKept g samples) (seen : List Sample) :
    ∀ s, seen ++ [s] <+: samples → ∃ mask, arrival g (seen ++ [s]) = some (place g s, mask) ∧
      Represents g hfits (mouseDemo g b under (seen ++ [s])) (.clean g (scenePicture g hfits b) s mask) := by
  induction seen using List.reverseRecOn with
  | nil =>
    intro s hs
    refine ⟨s.buttons, rfl, ?_⟩
    have hfirst := represents_first hg (start_showing hfits hpitch b under) rfl rfl (hon s (hs.mem (List.mem_singleton_self s)))
    unfold View.first at hfirst
    rw [relamp_withLamps] at hfirst
    exact hfirst
  | append_singleton seen s ih =>
    intro s' hs'
    obtain ⟨mask, harrival, hrep⟩ := ih s ((List.prefix_append _ _).trans hs')
    refine ⟨if place g s' = place g s then mask else s'.buttons, ?_, ?_⟩
    · rw [arrival_snoc, harrival]
      rfl
    · have hnext := hrep.next hg (hon s' (hs'.mem (List.mem_append_right _ (List.mem_singleton_self s'))))
      rw [clean_next fun hmove => hkept _ s' hs' _ mask harrival hmove] at hnext
      rw [mouseDemo_snoc]
      exact hnext

/-- What a redraw shows. -/
theorem redraw_shows (hfits : 4 * g.width ≤ g.pitch) (hg : CursorFits g) (b : Buffers) (s : Sample) :
    (g.raster hfits).Shows (redraw g b s).fb
    ((withLamps (scenePicture g hfits b) s.buttons).overlay (cursorAt (place g s).1 (place g s).2 s.buttons)) :=
  (drawCursor_drawn (drawBtns_drawn (.start ((g.raster hfits).shows_self _)) s.buttons) (place_right hg s)
    (place_bottom hg s) s.buttons).shows

theorem showsRedraw_of_clean (hg : CursorFits g) {d : Demo} {mask : UInt8}
    (h : Represents g hfits d (.clean g (scenePicture g hfits b) s mask)) : ShowsRedraw g b d.buffers s := by
  intro i j hi hj
  have hall := redraw_shows hfits hg b s i j hi hj
  exact ⟨(h.showing.fb i j hi hj).trans hall.symm, (h.showing.hw i j hi hj).trans hall.symm⟩

end Redraw

theorem cursorFits {g : Framebuffer} (hfits : 4 * g.width ≤ g.pitch) (hwidth : 252 ≤ g.width) (hheight : 18 ≤ g.height)
    (htall : g.height < 2 ^ 31 + curH) : CursorFits g := by
  have hpitch := g.pitch_lt
  have hw : curW = 12 := rfl
  have hh : curH = 15 := rfl
  exact ⟨by omega, by omega, by omega, htall⟩

/-- **The partial redraw equals a full redraw** after every iteration, through every run in
which no lamp under the cursor has changed when the cursor leaves it. -/
theorem redraw_full {g : Framebuffer} (hfits : 4 * g.width ≤ g.pitch) (hpitch : 4 ∣ g.pitch) (hwidth : 252 ≤ g.width)
    (hheight : 18 ≤ g.height) (htall : g.height < 2 ^ 31 + curH) (b : Buffers) (under : Nat → UInt32)
    {samples : List Sample} (hon : ∀ s ∈ samples, s.OnScreen g) (hkept : LampsKept g samples) :
    ∀ seen s, seen ++ [s] <+: samples → ShowsRedraw g b (mouseDemo g b under (seen ++ [s])).buffers s := by
  have hg := cursorFits hfits hwidth hheight htall
  intro seen s hs
  obtain ⟨mask, _, hrep⟩ := mouseDemo_clean hfits hg hpitch b under hon hkept seen s hs
  exact showsRedraw_of_clean hg hrep

/-- A screen as small as can be, with a back buffer. -/
def demoScreen : Framebuffer :=
  {width := 252, height := 18, pitch := 1008, width_lt := by decide, height_lt := by decide, pitch_lt := by decide}

def demoBuffers : Buffers := {hw := fun _ => 0, back := some fun _ => 0}

/-- The left button is pressed away from the lamps, while the cursor moves. -/
theorem redraw_full_away :
    ShowsRedraw demoScreen demoBuffers
      (mouseDemo demoScreen demoBuffers (fun _ => 0) [⟨10, 3, 0⟩, ⟨20, 3, 1⟩]).buffers ⟨20, 3, 1⟩ := by
  have hon : ∀ s ∈ [Sample.mk 10 3 0, ⟨20, 3, 1⟩], s.OnScreen demoScreen := by
    intro s hs
    simp only [List.mem_cons, List.not_mem_nil, or_false] at hs
    rcases hs with rfl | rfl <;> exact ⟨by decide, by decide, by decide, by decide⟩
  have hkept : LampsKept demoScreen [Sample.mk 10 3 0, ⟨20, 3, 1⟩] := by
    refine forall_step_iff.mp fun n hn spot mask harrival _ l hl hover => ?_
    match n, hn with
    | 0, _ => cases harrival
    | 1, _ =>
      -- The cursor is at (10, 3), left of the lamps.
      have hspot : (10, 3) = spot := congrArg Prod.fst (Option.some.inj harrival)
      have hcolumn : ∀ l ∈ lamps, 200 ≤ l.1 := by decide
      have hleft := hover.1.1
      have hcol := hcolumn l hl
      rw [← hspot] at hleft
      exact absurd hleft (by
        unfold curW
        omega)
  exact redraw_full (g := demoScreen) (by decide) (by decide) (by decide) (by decide) (by decide) demoBuffers (fun _ => 0)
    hon hkept [⟨10, 3, 0⟩] ⟨20, 3, 1⟩ (List.prefix_refl _)

/-- The left button is pressed with the cursor over its lamp, and the cursor moves away: a
corner of the lamp is dark again. -/
theorem stale_lamp_restored :
    ¬ ShowsRedraw demoScreen demoBuffers
      (mouseDemo demoScreen demoBuffers (fun _ => 0) [⟨200, 2, 0⟩, ⟨200, 2, 1⟩, ⟨100, 2, 1⟩]).buffers ⟨100, 2, 1⟩ := by
  have hfits : 4 * demoScreen.width ≤ demoScreen.pitch := by decide
  have hg := cursorFits hfits (by decide) (by decide) (by decide)
  have hon : ∀ b, (Sample.mk 200 2 b).OnScreen demoScreen := fun _ =>
    ⟨show (0 : Int) ≤ 200 by decide, show (200 : Int) < 252 by decide, show (0 : Int) ≤ 2 by decide,
      show (2 : Int) < 18 by decide⟩
  have hon' : (Sample.mk 100 2 1).OnScreen demoScreen := ⟨by decide, by decide, by decide, by decide⟩
  have hfirst := represents_first hg (start_showing hfits (by decide) demoBuffers fun _ => 0) rfl rfl (hon 0)
  have hpress := hfirst.stay hg (hon 1) rfl
  have hmoved := hpress.move hg hon' (show ((100, 2) : Nat × Nat) ≠ (200, 2) by decide)
  intro hall
  have hx : 200 < demoScreen.width := by decide
  have hy : 2 < demoScreen.height := by decide
  have hdark := hmoved.showing.fb 200 2 hx hy
  have hgreen := redraw_shows hfits hg demoBuffers ⟨100, 2, 1⟩ 200 2 hx hy
  have hsame := (hall 200 2 hx hy).1
  have hlamp : lamp 0 mouseLeft = lamp 1 mouseLeft := hdark.symm.trans (hsame.trans hgreen)
  exact absurd hlamp (by decide)

end ArcMonark.Kernel
