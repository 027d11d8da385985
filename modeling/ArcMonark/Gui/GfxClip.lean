import ArcMonark.Gui.Gfx

/-! Clipping (`gui/gfx.c`).

The primitives that draw a rectangle walk over it, cut off at the right and at the lower
edge of the screen. The test for the cut adds two 32-bit numbers: where the sum wraps
around and is small, nothing is cut off, and the walk leaves the screen. `drawing_clipped`
says for which arguments that happens; for all others a primitive sets the points of the
rectangle that are on the screen and no other byte. -/
namespace ArcMonark.Gui
open Library

/-! ### Rectangles on the screen -/

/-- A point of the rectangle at `(x, y)`, `w` wide and `h` high, that is on the screen. -/
def Framebuffer.OnScreen (g : Framebuffer) (x y w h i j : Nat) : Prop :=
  (x ≤ i ∧ i < x + w ∧ i < g.width) ∧ y ≤ j ∧ j < y + h ∧ j < g.height

/-- A byte that belongs to no point of the rectangle on the screen. -/
def Framebuffer.Astray (g : Framebuffer) (x y w h a : Nat) : Prop :=
  ∀ i j, g.OnScreen x y w h i j → a < j * g.pitch + 4 * i ∨ j * g.pitch + 4 * i + 4 ≤ a

/-- `m'` is `m` with the points of the rectangle set to `f`, as far as they are on the screen. -/
structure Framebuffer.Painted (g : Framebuffer) (x y w h : Nat) (f : Picture UInt32) (m m' : Mem) : Prop where
  inside : ∀ i j, g.OnScreen x y w h i j → m'.word (j * g.pitch + 4 * i) = f i j
  outside : ∀ a, g.Astray x y w h a → m' a = m a

/-- A byte that is none of a rectangle's is none of a part of it either. -/
theorem Framebuffer.Astray.mono {g : Framebuffer} {x y w h x' y' w' h' a : Nat} (ha : g.Astray x y w h a)
    (hpart : ∀ i j, g.OnScreen x' y' w' h' i j → g.OnScreen x y w h i j) : g.Astray x' y' w' h' a :=
  fun i j hpoint => ha i j (hpart i j hpoint)

/-- The points of a rectangle and the bytes around it are the whole memory. -/
theorem Framebuffer.memory_ext {g : Framebuffer} (x y w h : Nat) {m m' : Mem}
    (hpoints : ∀ i j, g.OnScreen x y w h i j → m'.word (j * g.pitch + 4 * i) = m.word (j * g.pitch + 4 * i))
    (hastray : ∀ a, g.Astray x y w h a → m' a = m a) : m' = m := by
  funext a
  by_contra hne
  refine hne (hastray a fun i j hpoint => ?_)
  by_contra hcovered
  exact hne (Mem.agree_of_word (hpoints i j hpoint) a (by omega) (by omega))

/-- The test for the cut sees a rectangle that goes over the limit. -/
def Caught (x w limit : Nat) : Prop := x + w < 2 ^ 32 ∨ limit < (x + w) % 2 ^ 32

/-- The arguments for which the walk stays on the screen. -/
def Framebuffer.Clips (g : Framebuffer) (x y w h : Nat) : Prop :=
  g.width ≤ x ∨ g.height ≤ y ∨ w = 0 ∨ h = 0 ∨ Caught x w g.width ∧ Caught y h g.height

instance (x w limit : Nat) : Decidable (Caught x w limit) := inferInstanceAs (Decidable (_ ∨ _))

instance (g : Framebuffer) (x y w h : Nat) : Decidable (g.Clips x y w h) :=
  inferInstanceAs (Decidable (_ ∨ _ ∨ _ ∨ _ ∨ _ ∧ _))

/-- What is left of a rectangle that is caught. -/
theorem clip_caught {x w limit : Nat} (hx : x < limit) (hw : w < 2 ^ 32) (hlimit : limit < 2 ^ 32)
    (h : Caught x w limit) : clip x w limit = min w (limit - x) := by
  unfold clip
  rcases h with hsum | hover
  · rw [Nat.mod_eq_of_lt hsum]
    split <;> omega
  · rw [if_pos hover]
    omega

/-- A rectangle that is not caught is not cut off. -/
theorem clip_missed {x w limit : Nat} (h : ¬ Caught x w limit) : clip x w limit = w ∧ 2 ^ 32 ≤ x + w := by
  unfold Caught at h
  exact ⟨if_neg (by omega), by omega⟩

/-! ### The walk -/

section Walk
variable (g : Framebuffer) (x y w h : Nat)

/-- The walk of the primitives over a rectangle. -/
def Framebuffer.walk (val : Nat → Nat → UInt32) (m : Mem) : Mem :=
  let row := fun j m =>
    loop (clip x w g.width) (fun i m => m.setWord ((y + j) % 2 ^ 32 * g.pitch + 4 * x + 4 * i) (val j i)) m
  loop (clip y h g.height) row m

theorem gfxFillRect_walk (b : Buffers) (argb : UInt32) :
    gfxFillRect g b x y w h argb =
      if x ≥ g.width ∨ y ≥ g.height then b else b.draw (g.walk x y w h (fun _ _ => argb) b.fb) := rfl

theorem gfxBlit_walk (b : Buffers) (src : Nat → UInt32) :
    gfxBlit g b src x y w h =
      if x ≥ g.width ∨ y ≥ g.height then b else b.draw (g.walk x y w h (fun j i => src (j * w + i)) b.fb) := rfl

/-- The framebuffer after `gfx_present_rect` with a back buffer. -/
theorem gfxPresentRect_hw (hw back : Mem) :
    (gfxPresentRect g {hw := hw, back := some back} x y w h).hw =
      if x ≥ g.width ∨ y ≥ g.height then hw
      else g.walk x y w h (fun j i => back.word ((y + j) % 2 ^ 32 * g.pitch + 4 * x + 4 * i)) hw := by
  unfold gfxPresentRect Framebuffer.walk
  rw [Nat.mul_comm x 4]
  dsimp only
  split <;> rfl

theorem gfxPresentRect_back (b : Buffers) : (gfxPresentRect g b x y w h).back = b.back := by
  obtain ⟨hw, _ | back⟩ := b
  · rfl
  · unfold gfxPresentRect
    dsimp only
    split <;> rfl

/-! ### Rectangles that are caught -/

variable {g x y w h} {val : Nat → Nat → UInt32} {m : Mem} {f : Picture UInt32}

/-- A byte that no word of the walk covers is left alone. -/
theorem walk_outside {a : Nat} (hout : ∀ j i, j < clip y h g.height → i < clip x w g.width →
      a < (y + j) % 2 ^ 32 * g.pitch + 4 * x + 4 * i ∨ (y + j) % 2 ^ 32 * g.pitch + 4 * x + 4 * i + 4 ≤ a) :
    g.walk x y w h val m a = m a := by
  refine loop_induct (P := fun _ (m' : Mem) => m' a = m a) rfl fun j m' hj hm' => ?_
  refine loop_induct (P := fun _ (m' : Mem) => m' a = m a) hm' fun i m'' hi hm'' => ?_
  rw [Mem.setWord, Mem.store_of_outside _ _ (hout j i hj hi), hm'']

/-- A caught rectangle is drawn like what is left of it. -/
theorem walk_cut (hx : x < g.width) (hy : y < g.height) (hw : w < 2 ^ 32) (hh : h < 2 ^ 32)
    (hcx : Caught x w g.width) (hcy : Caught y h g.height) :
    g.walk x y w h val m = g.walk x y (min w (g.width - x)) (min h (g.height - y)) val m := by
  have hwidth := g.width_lt
  have hheight := g.height_lt
  unfold Framebuffer.walk
  rw [clip_caught hx hw hwidth hcx, clip_caught hy hh hheight hcy, clip_eq hx (by omega), clip_eq hy (by omega),
    Nat.min_eq_left (Nat.min_le_right w _), Nat.min_eq_left (Nat.min_le_right h _)]

/-- Each round of the walk is at a point of the rectangle on the screen. -/
theorem walk_visits (hin : x < g.width ∧ y < g.height) (hsize : w < 2 ^ 32 ∧ h < 2 ^ 32) (hclips : g.Clips x y w h)
    {j i : Nat} (hj : j < clip y h g.height) (hi : i < clip x w g.width) : g.OnScreen x y w h (x + i) (y + j) := by
  have hwidth := g.width_lt
  have hheight := g.height_lt
  rcases hclips with hout | hout | rfl | rfl | ⟨hcx, hcy⟩
  · omega
  · omega
  · rw [clip_caught hin.1 hsize.1 hwidth (.inl (by omega))] at hi
    omega
  · rw [clip_caught hin.2 hsize.2 hheight (.inl (by omega))] at hj
    omega
  · rw [clip_caught hin.1 hsize.1 hwidth hcx] at hi
    rw [clip_caught hin.2 hsize.2 hheight hcy] at hj
    exact ⟨by omega, by omega⟩

theorem row_address (hrow : y + j < g.height) (i : Nat) :
    (y + j) % 2 ^ 32 * g.pitch + 4 * x + 4 * i = (y + j) * g.pitch + 4 * (x + i) := by
  rw [Nat.mod_eq_of_lt (Nat.lt_trans hrow g.height_lt), Nat.mul_add, Nat.add_assoc]

theorem walk_painted (hfits : 4 * g.width ≤ g.pitch) (hin : x < g.width ∧ y < g.height)
    (hsize : w < 2 ^ 32 ∧ h < 2 ^ 32) (hclips : g.Clips x y w h)
    (hval : ∀ j i, y + j < g.height → x + i < g.width → val j i = f (x + i) (y + j)) :
    g.Painted x y w h f m (g.walk x y w h val m) := by
  have hwidth := g.width_lt
  have hheight := g.height_lt
  refine ⟨fun i j hpoint => ?_, fun a ha => walk_outside fun j i hj hi => ?_⟩
  · obtain ⟨⟨hxi, hiw, hi⟩, hyj, hjh, hj⟩ := hpoint
    have hcaught : Caught x w g.width ∧ Caught y h g.height := by
      rcases hclips with hout | hout | hout | hout | hcaught
      iterate 4 omega
      exact hcaught
    rw [walk_cut hin.1 hin.2 hsize.1 hsize.2 hcaught.1 hcaught.2]
    have hshows : (g.raster hfits).Shows (g.walk x y (min w (g.width - x)) (min h (g.height - y)) val m) _ :=
      walk_shows ((g.raster hfits).shows_self m) hin.1 hin.2 (by omega) (by omega)
        (fun j i hj _ => row_offset hfits hj) fun j i _ hj hi _ => hval j i hj hi
    exact (hshows i j hi hj).trans (Picture.patch_inside _ _ _ _ _ _ (by omega) (by omega))
  · have hpoint := walk_visits hin hsize hclips hj hi
    rw [row_address hpoint.2.2.2]
    exact ha _ _ hpoint

/-! ### Rectangles that are missed -/

/-- All bits are set. -/
def white : UInt32 := 0xFFFFFFFF

theorem setWord_white (m : Mem) (a b : Nat) : m.setWord a white b = if a ≤ b ∧ b < a + 4 then 0xFF else m b := by
  show m.store a 4 0xFFFFFFFF b = _
  simp only [Mem.store, Mem.set]
  split_ifs <;> first | rfl | omega

theorem word_white (a : Nat) : Mem.word (fun _ => 0xFF) a = white := by
  have hload : Mem.load (fun _ => 0xFF) a 4 = 0xFFFFFFFF := by simp [Mem.load]
  rw [Mem.word, hload]
  rfl

/-- A white walk makes each of its words white. -/
theorem walk_white (m : Mem) {j i : Nat} (hj : j < clip y h g.height) (hi : i < clip x w g.width) :
    g.walk x y w h (fun _ _ => white) m ((y + j) % 2 ^ 32 * g.pitch + 4 * x + 4 * i) = 0xFF := by
  generalize haddr : (y + j) % 2 ^ 32 * g.pitch + 4 * x + 4 * i = a
  have hkeep : ∀ (m' : Mem) b, m' a = 0xFF → m'.setWord b white a = 0xFF := by
    intro m' b hm'
    rw [setWord_white, hm', ite_self]
  refine loop_reaches (P := fun m' : Mem => m' a = 0xFF) hj (fun m' => ?_) fun j' m' hm' => ?_
  · refine loop_reaches (P := fun m' : Mem => m' a = 0xFF) hi (fun m'' => ?_) fun _ m'' => hkeep m'' _
    rw [haddr, setWord_white, if_pos ⟨Nat.le_refl a, Nat.lt_add_of_pos_right (by decide)⟩]
  · exact loop_induct (P := fun _ (m'' : Mem) => m'' a = 0xFF) hm' fun _ m'' _ => hkeep m'' _

/-- The next row begins behind this one. -/
theorem next_row (hfits : 4 * g.width ≤ g.pitch) {j j' : Nat} (hj : j < j') :
    j * g.pitch + 4 * g.width ≤ j' * g.pitch := by
  have hrow : (j + 1) * g.pitch ≤ j' * g.pitch := Nat.mul_le_mul_right _ hj
  rw [Nat.succ_mul] at hrow
  omega

/-- The point behind the end of a row is not one of a rectangle that begins right of the
first column, also where it is the first one of the next row. -/
theorem astray_right (hfits : 4 * g.width ≤ g.pitch) (hx : 0 < x) : g.Astray x y w h (y * g.pitch + 4 * g.width) := by
  rintro i j ⟨⟨hxi, _, hi⟩, hyj, _, _⟩
  rcases Nat.eq_or_lt_of_le hyj with rfl | hlt
  · omega
  · have hnext := next_row hfits hlt
    omega

/-- Nor is one below the last row. -/
theorem astray_below (hfits : 4 * g.width ≤ g.pitch) : g.Astray x y w h (g.height * g.pitch + 4 * x) := by
  rintro i j ⟨⟨_, _, hi⟩, _, _, hj⟩
  have hnext := next_row hfits hj
  omega

theorem clip_pos {limit : Nat} (hx : x < limit) (hw : 0 < w) : 0 < clip x w limit := by
  unfold clip
  split <;> omega

/-- A missed rectangle with a point on the screen is drawn beyond the screen, too. -/
theorem walk_astray (hfits : 4 * g.width ≤ g.pitch) (hsize : w < 2 ^ 32 ∧ h < 2 ^ 32) (hin : x < g.width ∧ y < g.height)
    (hpos : 0 < w ∧ 0 < h) (hmissed : ¬ (Caught x w g.width ∧ Caught y h g.height)) :
    ∃ a, g.Astray x y w h a ∧ ∀ m, g.walk x y w h (fun _ _ => white) m a = 0xFF := by
  have hwidth := g.width_lt
  have hheight := g.height_lt
  by_cases hcx : Caught x w g.width
  · obtain ⟨hall, hsum⟩ := clip_missed fun hcy => hmissed ⟨hcx, hcy⟩
    have hj : g.height - y < clip y h g.height := by omega
    refine ⟨_, astray_below hfits, fun m => ?_⟩
    have hwhite := walk_white m hj (clip_pos hin.1 hpos.1)
    rwa [Nat.add_sub_cancel' (Nat.le_of_lt hin.2), Nat.mod_eq_of_lt hheight] at hwhite
  · obtain ⟨hall, hsum⟩ := clip_missed hcx
    have hi : g.width - x < clip x w g.width := by omega
    refine ⟨_, astray_right hfits (show 0 < x by omega), fun m => ?_⟩
    have hwhite := walk_white m (clip_pos hin.2 hpos.2) hi
    rwa [Nat.add_zero, Nat.mod_eq_of_lt (Nat.lt_trans hin.2 hheight), Nat.add_assoc, ← Nat.mul_add,
      Nat.add_sub_cancel' (Nat.le_of_lt hin.1)] at hwhite

theorem painted_none (hout : x ≥ g.width ∨ y ≥ g.height) : g.Painted x y w h f m m := by
  refine ⟨fun i j hpoint => ?_, fun _ _ => rfl⟩
  unfold Framebuffer.OnScreen at hpoint
  omega

/-- A white walk over a black picture shows whether the rectangle is clipped. -/
theorem clips_of_painted (hfits : 4 * g.width ≤ g.pitch) (hsize : w < 2 ^ 32 ∧ h < 2 ^ 32)
    (hpainted : x < g.width ∧ y < g.height →
      g.Painted x y w h f (fun _ => 0) (g.walk x y w h (fun _ _ => white) fun _ => 0)) : g.Clips x y w h := by
  by_contra hclips
  have hmissed : ¬ (Caught x w g.width ∧ Caught y h g.height) :=
    fun hcaught => hclips (.inr (.inr (.inr (.inr hcaught))))
  unfold Framebuffer.Clips at hclips
  have hin : x < g.width ∧ y < g.height := by omega
  obtain ⟨a, hastray, hwhite⟩ := walk_astray hfits hsize hin (by omega) hmissed
  have hblack : (0xFF : Byte) = 0 := (hwhite _).symm.trans ((hpainted hin).outside a hastray)
  exact absurd hblack (by decide)

end Walk

/-! ### The primitives -/

section Exact
variable (g : Framebuffer) (x y w h : Nat)

/-- Nothing but the points of the rectangle on the screen is drawn, in the drawing buffer. -/
def Framebuffer.Draws (f : Picture UInt32) (b b' : Buffers) : Prop :=
  b' = b.draw b'.fb ∧ g.Painted x y w h f b.fb b'.fb

/-- `gfx_fill_rect` sets the points of the rectangle on the screen, and no other byte. -/
def FillsExactly : Prop := ∀ b argb, g.Draws x y w h (fun _ _ => argb) b (gfxFillRect g b x y w h argb)

/-- `gfx_blit` copies the source to the points of the rectangle on the screen, and sets no other byte. -/
def BlitsExactly : Prop := ∀ b src,
  g.Draws x y w h (fun i j => src ((j - y) * w + (i - x))) b (gfxBlit g b src x y w h)

/-- `gfx_present_rect` copies the points of the rectangle on the screen, sets no other byte, and
reads no other point of the back buffer. -/
def PresentsExactly : Prop := ∀ b : Buffers,
  let b' := gfxPresentRect g b x y w h
  b'.back = b.back ∧ g.Painted x y w h (fun i j => b.fb.word (j * g.pitch + 4 * i)) b.hw b'.hw ∧
    ∀ back back' : Mem, b.back = some back →
      (∀ i j, g.OnScreen x y w h i j → back'.word (j * g.pitch + 4 * i) = back.word (j * g.pitch + 4 * i)) →
      (gfxPresentRect g {b with back := some back'} x y w h).hw = b'.hw

variable {g x y w h} {f : Picture UInt32} {val : Nat → Nat → UInt32} {b b' : Buffers}

theorem draws_walk (hfits : 4 * g.width ≤ g.pitch) (hsize : w < 2 ^ 32 ∧ h < 2 ^ 32) (hclips : g.Clips x y w h)
    (hval : ∀ j i, y + j < g.height → x + i < g.width → val j i = f (x + i) (y + j))
    (hb' : b' = if x ≥ g.width ∨ y ≥ g.height then b else b.draw (g.walk x y w h val b.fb)) :
    g.Draws x y w h f b b' := by
  split at hb'
  · rename_i hout
    rw [hb']
    exact ⟨b.draw_self.symm, painted_none hout⟩
  · rename_i hin
    rw [hb', Framebuffer.Draws, Buffers.draw_fb]
    exact ⟨rfl, walk_painted hfits (by omega) hsize hclips hval⟩

/-- The buffers of a black screen without a back buffer. -/
def black : Buffers := {hw := fun _ => 0, back := none}

theorem clips_of_draws (hfits : 4 * g.width ≤ g.pitch) (hsize : w < 2 ^ 32 ∧ h < 2 ^ 32)
    (hb' : b' = if x ≥ g.width ∨ y ≥ g.height then black else black.draw (g.walk x y w h (fun _ _ => white) black.fb))
    (hdraws : g.Draws x y w h f black b') : g.Clips x y w h := by
  refine clips_of_painted (f := f) hfits hsize fun hin => ?_
  have hpainted := hdraws.2
  rw [hb', if_neg (by omega), Buffers.draw_fb] at hpainted
  exact hpainted

theorem fillsExactly_iff (hfits : 4 * g.width ≤ g.pitch) (hsize : w < 2 ^ 32 ∧ h < 2 ^ 32) :
    FillsExactly g x y w h ↔ g.Clips x y w h := by
  constructor
  · intro hexact
    exact clips_of_draws hfits hsize (gfxFillRect_walk g x y w h black white) (hexact black white)
  · intro hclips b argb
    exact draws_walk hfits hsize hclips (fun _ _ _ _ => rfl) (gfxFillRect_walk g x y w h b argb)

theorem blitsExactly_iff (hfits : 4 * g.width ≤ g.pitch) (hsize : w < 2 ^ 32 ∧ h < 2 ^ 32) :
    BlitsExactly g x y w h ↔ g.Clips x y w h := by
  constructor
  · intro hexact
    exact clips_of_draws hfits hsize (gfxBlit_walk g x y w h black fun _ => white) (hexact black _)
  · intro hclips b src
    refine draws_walk hfits hsize hclips (fun j i _ _ => ?_) (gfxBlit_walk g x y w h b src)
    rw [Nat.add_sub_cancel_left, Nat.add_sub_cancel_left]

/-- Of the back buffer only the points of the rectangle on the screen count. -/
theorem walk_reads (hin : x < g.width ∧ y < g.height) (hsize : w < 2 ^ 32 ∧ h < 2 ^ 32) (hclips : g.Clips x y w h)
    {back back' : Mem} {m : Mem}
    (hsame : ∀ i j, g.OnScreen x y w h i j → back'.word (j * g.pitch + 4 * i) = back.word (j * g.pitch + 4 * i)) :
    g.walk x y w h (fun j i => back'.word ((y + j) % 2 ^ 32 * g.pitch + 4 * x + 4 * i)) m =
      g.walk x y w h (fun j i => back.word ((y + j) % 2 ^ 32 * g.pitch + 4 * x + 4 * i)) m := by
  refine loop_congr fun j m' hj => loop_congr fun i m'' hi => ?_
  have hpoint := walk_visits hin hsize hclips hj hi
  refine congrArg (m''.setWord _) ?_
  dsimp only
  rw [row_address hpoint.2.2.2, hsame _ _ hpoint]

theorem presentsExactly_iff (hfits : 4 * g.width ≤ g.pitch) (hsize : w < 2 ^ 32 ∧ h < 2 ^ 32) :
    PresentsExactly g x y w h ↔ g.Clips x y w h := by
  constructor
  · intro hexact
    have hwhite := hexact {hw := fun _ => 0, back := some fun _ => 0xFF}
    obtain ⟨f, hpainted⟩ : ∃ f, g.Painted x y w h f (fun _ => 0)
        (gfxPresentRect g {hw := fun _ => 0, back := some fun _ => 0xFF} x y w h).hw := ⟨_, hwhite.2.1⟩
    refine clips_of_painted (f := f) hfits hsize fun hin => ?_
    rw [gfxPresentRect_hw, if_neg (by omega)] at hpainted
    simp only [word_white] at hpainted
    exact hpainted
  · rintro hclips ⟨hw, _ | back⟩
    · exact ⟨rfl, ⟨fun _ _ _ => rfl, fun _ _ => rfl⟩, fun _ _ hnone => absurd hnone (by simp)⟩
    · refine ⟨gfxPresentRect_back g x y w h _, ?_, ?_⟩
      · rw [gfxPresentRect_hw]
        split
        · rename_i hout
          exact painted_none hout
        · rename_i hin
          refine walk_painted hfits (by omega) hsize hclips fun j i hrow _ => ?_
          rw [row_address hrow]
          rfl
      · rintro _ back' ⟨⟩ hsame
        rw [gfxPresentRect_hw, gfxPresentRect_hw]
        split
        · rfl
        · rename_i hin
          exact walk_reads (by omega) hsize hclips hsame

/-- **Drawing is clipped to the screen** if and only if the test for the cut catches the
rectangle: its sum does not wrap around, or is beyond the limit all the same. -/
theorem drawing_clipped (hfits : 4 * g.width ≤ g.pitch) (hw : w < 2 ^ 32) (hh : h < 2 ^ 32) :
    (FillsExactly g x y w h ↔ g.Clips x y w h) ∧ (BlitsExactly g x y w h ↔ g.Clips x y w h) ∧
      (PresentsExactly g x y w h ↔ g.Clips x y w h) :=
  ⟨fillsExactly_iff hfits ⟨hw, hh⟩, blitsExactly_iff hfits ⟨hw, hh⟩, presentsExactly_iff hfits ⟨hw, hh⟩⟩

/-- A screen of four columns and two rows. -/
def smallScreen : Framebuffer :=
  {width := 4, height := 2, pitch := 16, width_lt := by decide, height_lt := by decide, pitch_lt := by decide}

/-- A rectangle that is cut off at both edges. -/
theorem drawing_clipped_smallScreen :
    FillsExactly smallScreen 3 1 5 5 ∧ BlitsExactly smallScreen 3 1 5 5 ∧ PresentsExactly smallScreen 3 1 5 5 := by
  have hclips : smallScreen.Clips 3 1 5 5 := by decide
  have hall := drawing_clipped (g := smallScreen) (x := 3) (y := 1) (w := 5) (h := 5)
    (by decide) (by decide) (by decide)
  exact ⟨hall.1.mpr hclips, hall.2.1.mpr hclips, hall.2.2.mpr hclips⟩

/-- One column to the right of the corner and as wide as can be: the sum is 0, and the
walk goes on past the end of the row. -/
theorem wide_rectangle_not_clipped :
    ¬ FillsExactly smallScreen 1 0 (2 ^ 32 - 1) 1 ∧ ¬ BlitsExactly smallScreen 1 0 (2 ^ 32 - 1) 1 ∧
      ¬ PresentsExactly smallScreen 1 0 (2 ^ 32 - 1) 1 := by
  have hfits : 4 * smallScreen.width ≤ smallScreen.pitch := by decide
  have hsize : 2 ^ 32 - 1 < 2 ^ 32 ∧ 1 < 2 ^ 32 := by decide
  have hmissed : ¬ smallScreen.Clips 1 0 (2 ^ 32 - 1) 1 := by decide
  refine ⟨?_, ?_, ?_⟩
  · rwa [fillsExactly_iff hfits hsize]
  · rwa [blitsExactly_iff hfits hsize]
  · rwa [presentsExactly_iff hfits hsize]

end Exact

end ArcMonark.Gui
