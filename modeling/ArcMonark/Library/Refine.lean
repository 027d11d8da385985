import Mathlib.Data.Option.Defs
import Mathlib.Logic.Basic

/-! Programs that do what a specification does.

A program takes a state to a state, or does not return. It does what a specification
does, if from states that a relation pairs both return to paired states, or neither
returns. Sequences, branches and loops over a list do what their parts do. -/
namespace ArcMonark.Library
variable {σ τ ι : Type}

theorem rel_mono {R R' : σ → τ → Prop} (hR : ∀ s t, R s t → R' s t) {x : Option σ} {y : Option τ}
    (h : Option.Rel R x y) : Option.Rel R' x y := by
  cases h with
  | some h => exact .some (hR _ _ h)
  | none => exact .none

def Does (R : σ → τ → Prop) (x : σ → Option σ) (f : τ → Option τ) : Prop := ∀ s t, R s t → Option.Rel R (x s) (f t)

namespace Does
variable {R : σ → τ → Prop} {x y : σ → Option σ} {f h : τ → Option τ} {s : σ} {t : τ}

/-- Where the specification returns, the program does. -/
theorem returns (hx : Does R x f) (hR : R s t) {t' : τ} (hf : f t = some t') : ∃ s', x s = some s' ∧ R s' t' := by
  have hrel := hx s t hR
  rw [hf] at hrel
  generalize x s = r at hrel ⊢
  cases hrel with
  | some hR' => exact ⟨_, rfl, hR'⟩

/-- What always returns. -/
theorem total {f : τ → τ} (hx : ∀ s t, R s t → ∃ s', x s = some s' ∧ R s' (f t)) : Does R x (fun t => some (f t)) := by
  intro s t hR
  obtain ⟨s', hs', hR'⟩ := hx s t hR
  rw [hs']
  exact .some hR'

theorem done : Does R some some := fun _ _ hR => .some hR

/-- A change of the state. -/
theorem change {u : σ → σ} {v : τ → τ} (hR : ∀ s t, R s t → R (u s) (v t)) :
    Does R (fun s => some (u s)) fun t => some (v t) := fun s t h => .some (hR s t h)

/-- What never returns. -/
theorem never : Does R (fun _ => none) fun _ => none := fun _ _ _ => .none

theorem seq (hx : Does R x f) (hy : Does R y h) : Does R (fun s => (x s).bind y) fun t => (f t).bind h := by
  intro s t hR
  have hrel := hx s t hR
  dsimp only
  generalize x s = r at hrel ⊢
  generalize f t = q at hrel ⊢
  cases hrel with
  | some hR' => exact hy _ _ hR'
  | none => exact .none

/-- One input after another. -/
theorem each {x : ι → σ → Option σ} {f : ι → τ → Option τ} (hx : ∀ i, Does R (x i) (f i)) (is : List ι) :
    Does R (fun s => is.foldlM (fun s i => x i s) s) fun t => is.foldlM (fun t i => f i t) t := by
  induction is with
  | nil => exact done
  | cons i is ih =>
    simp only [List.foldlM_cons]
    exact seq (hx i) ih

end Does

end ArcMonark.Library
