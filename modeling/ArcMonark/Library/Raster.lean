import ArcMonark.Library.Bytes
import Mathlib.Logic.Basic

/-! Pictures, and pictures in memory.

A picture is a colour at every point. `patch` replaces a rectangle of it. A program
that walks over a rectangle, row by row and point by point, and sets each point,
patches the picture (`loop_patch`); what a point is set to may depend on what the walk
has made so far.

A raster lays a picture out in memory: 32-bit words, one row behind the other, each
row `pitch` bytes behind the last and at least as long as its words. Setting a word
sets a point and no other (`Shows.set`). -/
namespace ArcMonark.Library

/-! ### Loops -/

/-- `for (i = 0; i < n; i++)` -/
def loop {σ : Type} : Nat → (Nat → σ → σ) → σ → σ
  | 0, _, s => s
  | n + 1, body, s => body n (loop n body s)

/-- An invariant that counts the rounds. -/
theorem loop_induct {σ : Type} {P : Nat → σ → Prop} {n : Nat} {body : Nat → σ → σ} {s : σ} (start : P 0 s)
    (round : ∀ i s, i < n → P i s → P (i + 1) (body i s)) : P n (loop n body s) := by
  induction n with
  | zero => exact start
  | succ n ih => exact round n _ (Nat.lt_succ_self n) (ih fun i s hi => round i s (Nat.lt_succ_of_lt hi))

/-- What one round brings about and no other round undoes. -/
theorem loop_reaches {σ : Type} {P : σ → Prop} {n k : Nat} {body : Nat → σ → σ} {s : σ} (hk : k < n)
    (reach : ∀ s, P (body k s)) (keep : ∀ i s, P s → P (body i s)) : P (loop n body s) := by
  induction n with
  | zero => exact absurd hk (Nat.not_lt_zero k)
  | succ n ih =>
    rcases Nat.lt_succ_iff_lt_or_eq.mp hk with hlt | rfl
    · exact keep n _ (ih hlt)
    · exact reach _

/-- Two loops whose rounds do the same. -/
theorem loop_congr {σ : Type} {n : Nat} {body body' : Nat → σ → σ} {s : σ}
    (h : ∀ i s, i < n → body i s = body' i s) : loop n body s = loop n body' s := by
  induction n with
  | zero => rfl
  | succ n ih => rw [loop, loop, ih fun i s hi => h i s (Nat.lt_succ_of_lt hi), h n _ (Nat.lt_succ_self n)]

/-! ### Pictures -/

/-- A colour at every point, by column and row. -/
abbrev Picture (α : Type) := Nat → Nat → α

namespace Picture
variable {α : Type}

def set (p : Picture α) (x y : Nat) (v : α) : Picture α := fun i j => if i = x ∧ j = y then v else p i j

/-- Inside the rectangle at `(x, y)`, `w` wide and `h` high, it is `f`. -/
def patch (p : Picture α) (x y w h : Nat) (f : Picture α) : Picture α := fun i j =>
  if (x ≤ i ∧ i < x + w) ∧ y ≤ j ∧ j < y + h then f i j else p i j

/-- The walk over a rectangle has done `j` rows and `i` points of the next one. -/
def partly (p : Picture α) (x y w : Nat) (f : Picture α) (j i : Nat) : Picture α :=
  (p.patch x y w j f).patch x (y + j) i 1 f

/-- `f` where it has a colour. -/
def overlay (p : Picture α) (f : Picture (Option α)) : Picture α := fun i j => (f i j).getD (p i j)

variable (p f : Picture α) (x y w h : Nat)

theorem patch_inside {i j : Nat} (hi : x ≤ i ∧ i < x + w) (hj : y ≤ j ∧ j < y + h) : p.patch x y w h f i j = f i j :=
  if_pos ⟨hi, hj⟩

theorem patch_outside {i j : Nat} (hout : ¬ ((x ≤ i ∧ i < x + w) ∧ y ≤ j ∧ j < y + h)) :
    p.patch x y w h f i j = p i j := if_neg hout

theorem patch_none : p.patch x y 0 h f = p := by
  funext i j
  exact patch_outside _ _ _ _ _ _ (by omega)

theorem patch_zero : p.patch x y w 0 f = p := by
  funext i j
  exact patch_outside _ _ _ _ _ _ (by omega)

/-- One more point of a row. -/
theorem patch_point : (p.patch x y w 1 f).set (x + w) y (f (x + w) y) = p.patch x y (w + 1) 1 f := by
  funext i j
  unfold set
  by_cases hpoint : i = x + w ∧ j = y
  · rw [if_pos hpoint, hpoint.1, hpoint.2, patch_inside _ _ _ _ _ _ (by omega) (by omega)]
  · rw [if_neg hpoint]
    by_cases hrow : (x ≤ i ∧ i < x + w) ∧ j = y
    · rw [patch_inside _ _ _ _ _ _ hrow.1 (by omega), patch_inside _ _ _ _ _ _ (by omega) (by omega)]
    · rw [patch_outside _ _ _ _ _ _ (by omega), patch_outside _ _ _ _ _ _ (by omega)]

/-- One more row. -/
theorem patch_row : (p.patch x y w h f).patch x (y + h) w 1 f = p.patch x y w (h + 1) f := by
  funext i j
  by_cases hrow : (x ≤ i ∧ i < x + w) ∧ j = y + h
  · rw [patch_inside _ _ _ _ _ _ hrow.1 (by omega), patch_inside _ _ _ _ _ _ hrow.1 (by omega)]
  · rw [patch_outside _ _ _ _ _ _ (by omega)]
    by_cases hin : (x ≤ i ∧ i < x + w) ∧ y ≤ j ∧ j < y + h
    · rw [patch_inside _ _ _ _ _ _ hin.1 hin.2, patch_inside _ _ _ _ _ _ hin.1 (by omega)]
    · rw [patch_outside _ _ _ _ _ _ hin, patch_outside _ _ _ _ _ _ (by omega)]

theorem set_self {v : α} (hv : p x y = v) : p.set x y v = p := by
  funext i j
  unfold set
  split
  · rename_i hpoint
    rw [hpoint.1, hpoint.2, hv]
  · rfl

/-- The point that comes next is as it was. -/
theorem partly_next (j i : Nat) : p.partly x y w f j i (x + i) (y + j) = p (x + i) (y + j) := by
  rw [partly, patch_outside _ _ _ _ _ _ (by omega), patch_outside _ _ _ _ _ _ (by omega)]

theorem patch_patch : p.patch x y w h (p.patch x y w h f) = p.patch x y w h f := by
  funext i j
  by_cases hin : (x ≤ i ∧ i < x + w) ∧ y ≤ j ∧ j < y + h
  · rw [patch_inside _ _ _ _ _ _ hin.1 hin.2]
  · rw [patch_outside _ _ _ _ _ _ hin, patch_outside _ _ _ _ _ _ hin]

/-- What is left of a rectangle inside the bounds is seen there like the whole one. -/
theorem patch_clip {W H i j : Nat} (hi : i < W) (hj : j < H) :
    p.patch x y (min w (W - x)) (min h (H - y)) f i j = p.patch x y w h f i j := by
  by_cases hin : (x ≤ i ∧ i < x + w) ∧ y ≤ j ∧ j < y + h
  · rw [patch_inside _ _ _ _ _ _ hin.1 hin.2, patch_inside _ _ _ _ _ _ (by omega) (by omega)]
  · rw [patch_outside _ _ _ _ _ _ hin, patch_outside _ _ _ _ _ _ (by omega)]

end Picture

/-- A walk over a rectangle that sets each point to `f` patches the picture with `f`. -/
theorem loop_patch {α σ : Type} {R : σ → Picture α → Prop} {put : Nat → Nat → σ → σ} {x y w h : Nat}
    {p f : Picture α} {s : σ} (start : R s p)
    (point : ∀ j i s, j < h → i < w → R s (p.partly x y w f j i) →
      R (put j i s) ((p.partly x y w f j i).set (x + i) (y + j) (f (x + i) (y + j)))) :
    R (loop h (fun j s => loop w (put j) s) s) (p.patch x y w h f) := by
  refine loop_induct (P := fun j s => R s (p.patch x y w j f)) ?_ fun j s hj hrows => ?_
  · rw [Picture.patch_zero]
    exact start
  · rw [← Picture.patch_row]
    refine loop_induct (P := fun i s => R s (p.partly x y w f j i)) ?_ fun i s hi hpoints => ?_
    · rw [Picture.partly, Picture.patch_none]
      exact hrows
    · have hpoint := point j i s hj hi hpoints
      rwa [Picture.partly, Picture.patch_point] at hpoint

/-! ### Words of 32 bits -/

namespace Mem

def word (m : Mem) (a : Nat) : UInt32 := .ofNat (m.load a 4)

def setWord (m : Mem) (a : Nat) (v : UInt32) : Mem := m.store a 4 v.toNat

@[simp] theorem word_setWord_same (m : Mem) (a : Nat) (v : UInt32) : (m.setWord a v).word a = v := by
  unfold word setWord
  rw [load_store_same, Nat.mod_eq_of_lt (show v.toNat < 256 ^ 4 from v.toNat_lt), UInt32.ofNat_toNat]

theorem word_setWord_apart (m : Mem) {a b : Nat} (v : UInt32) (h : b + 4 ≤ a ∨ a + 4 ≤ b) :
    (m.setWord a v).word b = m.word b := congrArg UInt32.ofNat (load_store_apart m v.toNat h)

/-- A word determines its bytes. -/
theorem agree_of_word {m m' : Mem} {a : Nat} (h : m'.word a = m.word a) : Agree m m' a (a + 4) := by
  have hnat : ∀ m : Mem, (m.word a).toNat = m.load a 4 := fun m => UInt32.toNat_ofNat_of_lt' (m.load_lt a 4)
  exact load_inj (by rw [← hnat, ← hnat, h])

end Mem

/-! ### Pictures in memory -/

structure Raster where
  width : Nat
  height : Nat
  /-- From one row to the next, in bytes. -/
  pitch : Nat
  fits : 4 * width ≤ pitch

namespace Raster
variable {r : Raster} {m : Mem} {p q : Picture UInt32} {x y : Nat}

/-- Where the point's word is. -/
def offset (r : Raster) (x y : Nat) : Nat := y * r.pitch + 4 * x

/-- The memory holds the picture, as far as it is on the raster. -/
def Shows (r : Raster) (m : Mem) (p : Picture UInt32) : Prop :=
  ∀ x y, x < r.width → y < r.height → m.word (r.offset x y) = p x y

/-- A row ends before the next one begins. -/
theorem offset_lt_row (hx : x < r.width) {y' : Nat} (hy : y < y') : r.offset x y + 4 ≤ y' * r.pitch := by
  have hfits := r.fits
  have hrow : (y + 1) * r.pitch ≤ y' * r.pitch := Nat.mul_le_mul_right _ hy
  rw [Nat.succ_mul] at hrow
  unfold offset
  omega

theorem offset_apart {x' y' : Nat} (hx : x < r.width) (hx' : x' < r.width) (hne : ¬ (x' = x ∧ y' = y)) :
    r.offset x' y' + 4 ≤ r.offset x y ∨ r.offset x y + 4 ≤ r.offset x' y' := by
  rcases Nat.lt_trichotomy y' y with hlt | rfl | hlt
  · exact .inl (Nat.le_trans (offset_lt_row hx' hlt) (Nat.le_add_right _ _))
  · unfold offset
    omega
  · exact .inr (Nat.le_trans (offset_lt_row hx hlt) (Nat.le_add_right _ _))

/-- Setting a word sets a point. -/
theorem Shows.set (h : r.Shows m p) (hx : x < r.width) (y : Nat) (v : UInt32) :
    r.Shows (m.setWord (r.offset x y) v) (p.set x y v) := by
  intro i j hi hj
  unfold Picture.set
  split
  · rename_i hpoint
    rw [hpoint.1, hpoint.2, Mem.word_setWord_same]
  · rename_i hpoint
    rw [Mem.word_setWord_apart m v (offset_apart hx hi hpoint), h i j hi hj]

/-- Off the raster a picture is not seen. -/
theorem Shows.congr (h : r.Shows m p) (hpq : ∀ x y, x < r.width → y < r.height → p x y = q x y) : r.Shows m q :=
  fun x y hx hy => (h x y hx hy).trans (hpq x y hx hy)

/-- What a memory shows. -/
theorem shows_self (r : Raster) (m : Mem) : r.Shows m fun x y => m.word (r.offset x y) := fun _ _ _ _ => rfl

end Raster

end ArcMonark.Library
