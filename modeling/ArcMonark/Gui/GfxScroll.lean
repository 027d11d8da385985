import ArcMonark.Gui.GfxClip

/-! Scrolling (`gfx_scroll_up`).

The picture moves up in place, from the first row down, and what is free below is filled.
`scroll_up_shifts` says so for each point and each byte around the points, and that two
scrolls are one. -/
namespace ArcMonark.Gui
open Library

/-- `m'` is `m` with the picture `dy` rows higher and `argb` below it, and the bytes that
belong to no point, as those behind each row, as they were. -/
structure Framebuffer.Scrolled (g : Framebuffer) (dy : Nat) (argb : UInt32) (m m' : Mem) : Prop where
  points : ∀ x y, x < g.width → y < g.height → m'.word (y * g.pitch + 4 * x) =
    if y + dy < g.height then m.word ((y + dy) * g.pitch + 4 * x) else argb
  padding : ∀ a, g.Astray 0 0 g.width g.height a → m' a = m a

section Scroll
variable {g : Framebuffer} {b : Buffers} {dy : Nat} {argb : UInt32}

/-- A rectangle that is filled is on the screen. -/
theorem fillRect_padding (hfits : 4 * g.width ≤ g.pitch) {x y w h : Nat} (hw : x + w < 2 ^ 32) (hh : y + h < 2 ^ 32)
    {a : Nat} (ha : g.Astray 0 0 g.width g.height a) : (gfxFillRect g b x y w h argb).fb a = b.fb a := by
  have hclips : g.Clips x y w h := .inr (.inr (.inr (.inr ⟨.inl hw, .inl hh⟩)))
  have hdraws := (fillsExactly_iff hfits ⟨by omega, by omega⟩).mpr hclips b argb
  refine hdraws.2.outside a (ha.mono ?_)
  rintro i j ⟨⟨_, _, hi⟩, _, _, hj⟩
  exact ⟨by omega, by omega⟩

/-- The rows that move up do so within the points. -/
theorem scrollRows_padding {m : Mem} {val : Nat → Nat → Mem → UInt32} {rows a : Nat} (hrows : rows ≤ g.height)
    (ha : g.Astray 0 0 g.width g.height a) :
    loop rows (fun y m => loop g.width (fun x m => m.setWord (y * g.pitch + 4 * x) (val y x m)) m) m a = m a := by
  refine loop_induct (P := fun _ (m' : Mem) => m' a = m a) rfl fun y m' hy hm' => ?_
  refine loop_induct (P := fun _ (m' : Mem) => m' a = m a) hm' fun x m'' hx hm'' => ?_
  have hpoint : g.OnScreen 0 0 g.width g.height x y := ⟨by omega, by omega⟩
  rw [Mem.setWord, Mem.store_of_outside _ _ (ha x y hpoint), hm'']

theorem gfxScrollUp_padding (hfits : 4 * g.width ≤ g.pitch) {a : Nat} (ha : g.Astray 0 0 g.width g.height a) :
    (gfxScrollUp g b dy argb).fb a = b.fb a := by
  have hwidth := g.width_lt
  have hheight := g.height_lt
  unfold gfxScrollUp
  split
  · rfl
  · split
    · exact fillRect_padding hfits (by omega) (by omega) ha
    · rw [fillRect_padding hfits (by omega) (by omega) ha, Buffers.draw_fb]
      exact scrollRows_padding (Nat.sub_le _ _) ha

variable (b argb) in
/-- Nothing but the drawing buffer changes. -/
theorem gfxScrollUp_scrolled (hfits : 4 * g.width ≤ g.pitch) (hdy : dy < 2 ^ 32) :
    gfxScrollUp g b dy argb = b.draw (gfxScrollUp g b dy argb).fb ∧
      g.Scrolled dy argb b.fb (gfxScrollUp g b dy argb).fb := by
  have hstart := Drawn.start ((g.raster hfits).shows_self b.fb)
  have hdrawn := gfxScrollUp_drawn hstart hdy argb
  exact ⟨hdrawn.only, hdrawn.shows, fun a ha => gfxScrollUp_padding hfits ha⟩

/-- A scroll of a scroll. -/
theorem Framebuffer.Scrolled.trans {dy' : Nat} {m m' m'' : Mem} (h : g.Scrolled dy argb m m')
    (h' : g.Scrolled dy' argb m' m'') : g.Scrolled (dy + dy') argb m m'' := by
  constructor
  · intro x y hx hy
    rw [h'.points x y hx hy]
    by_cases hfirst : y + dy' < g.height
    · rw [if_pos hfirst, h.points x _ hx hfirst, Nat.add_assoc, Nat.add_comm dy' dy]
    · rw [if_neg hfirst, if_neg (by omega)]
  · intro a ha
    rw [h'.padding a ha, h.padding a ha]

/-- What is scrolled is determined byte by byte. -/
theorem Framebuffer.Scrolled.unique {m m' m'' : Mem} (h : g.Scrolled dy argb m m') (h' : g.Scrolled dy argb m m'') :
    m'' = m' := by
  refine memory_ext 0 0 g.width g.height ?_ fun a ha => (h'.padding a ha).trans (h.padding a ha).symm
  rintro i j ⟨⟨_, _, hi⟩, _, _, hj⟩
  rw [h'.points i j hi hj, h.points i j hi hj]

end Scroll

/-- **Scrolling shifts the picture**: each point becomes the one `dy` rows below it, or
`argb` where there is none, no other byte changes, and two scrolls are one scroll by the
sum. -/
theorem scroll_up_shifts {g : Framebuffer} (hfits : 4 * g.width ≤ g.pitch) (b : Buffers) (argb : UInt32) :
    (∀ dy < 2 ^ 32, gfxScrollUp g b dy argb = b.draw (gfxScrollUp g b dy argb).fb ∧
      g.Scrolled dy argb b.fb (gfxScrollUp g b dy argb).fb) ∧
    ∀ dy dy', dy + dy' < 2 ^ 32 →
      gfxScrollUp g (gfxScrollUp g b dy argb) dy' argb = gfxScrollUp g b (dy + dy') argb := by
  refine ⟨fun dy hdy => gfxScrollUp_scrolled b argb hfits hdy, fun dy dy' hsum => ?_⟩
  obtain ⟨honly, hfirst⟩ := gfxScrollUp_scrolled b argb hfits (show dy < 2 ^ 32 by omega)
  obtain ⟨honly', hsecond⟩ := gfxScrollUp_scrolled (gfxScrollUp g b dy argb) argb hfits
    (show dy' < 2 ^ 32 by omega)
  obtain ⟨honce, hboth⟩ := gfxScrollUp_scrolled b argb hfits hsum
  rw [honly', honce, hboth.unique (hfirst.trans hsecond)]
  rw [honly, Buffers.draw_draw]

/-- On the screen of four columns and two rows, one row and one row are both. -/
theorem scroll_up_shifts_smallScreen :
    gfxScrollUp smallScreen (gfxScrollUp smallScreen black 1 white) 1 white = gfxScrollUp smallScreen black 2 white :=
  (scroll_up_shifts (g := smallScreen) (by decide) black white).2 1 1 (by decide)

end ArcMonark.Gui
