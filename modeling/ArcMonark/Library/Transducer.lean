import Mathlib.Data.List.Basic

/-! Machines that read inputs one by one and put out lists.

`feed` runs a machine. `Follows` is an observer that sees the outputs only: each must
fit what it knows so far, and changes what it knows. If the outputs of one step lead
the observer from a view of the state to the view of the next one, then so do those of
a run (`feed_follows`). -/
namespace ArcMonark.Library

section Transducer
variable {σ ι ω ρ : Type} {step : σ → ι → σ × List ω} {fits : ρ → ω → Prop} {apply : ρ → ω → ρ}

/-- The state behind the inputs, and all outputs in order. -/
def feed (step : σ → ι → σ × List ω) (s : σ) : List ι → σ × List ω
  | [] => (s, [])
  | i :: is =>
    let first := step s i
    let rest := feed step first.1 is
    (rest.1, first.2 ++ rest.2)

theorem feed_append (s : σ) (is js : List ι) :
    feed step s (is ++ js) =
      ((feed step (feed step s is).1 js).1, (feed step s is).2 ++ (feed step (feed step s is).1 js).2) := by
  induction is generalizing s with
  | nil => rfl
  | cons i is ih => simp only [List.cons_append, feed, ih, List.append_assoc]

/-- What holds of the outputs of every step. -/
theorem feed_outputs {P : ω → Prop} (hstep : ∀ s i, ∀ o ∈ (step s i).2, P o) (s : σ) (is : List ι) :
    ∀ o ∈ (feed step s is).2, P o := by
  induction is generalizing s with
  | nil => exact fun _ ho => absurd ho List.not_mem_nil
  | cons i is ih => exact fun o ho => (List.mem_append.mp ho).elim (hstep s i o) (ih _ o)

/-- The observer can account for the outputs, and goes from `r` to `r'`. -/
def Follows (fits : ρ → ω → Prop) (apply : ρ → ω → ρ) (r : ρ) : List ω → ρ → Prop
  | [], r' => r' = r
  | o :: os, r' => fits r o ∧ Follows fits apply (apply r o) os r'

theorem Follows.append {r r' r'' : ρ} {os os' : List ω} (h : Follows fits apply r os r')
    (h' : Follows fits apply r' os' r'') : Follows fits apply r (os ++ os') r'' := by
  induction os generalizing r with
  | nil =>
    obtain rfl : r' = r := h
    exact h'
  | cons o os ih => exact ⟨h.1, ih h.2⟩

/-- One step on a proper input keeps the invariant, and its outputs lead from view to
view; so does a run. -/
theorem feed_follows {inv : σ → Prop} {proper : ι → Prop} {view : σ → ρ}
    (hstep : ∀ s i, inv s → proper i →
      inv (step s i).1 ∧ Follows fits apply (view s) (step s i).2 (view (step s i).1))
    {s : σ} (h : inv s) {is : List ι} (his : ∀ i ∈ is, proper i) :
    inv (feed step s is).1 ∧ Follows fits apply (view s) (feed step s is).2 (view (feed step s is).1) := by
  induction is generalizing s with
  | nil => exact ⟨h, rfl⟩
  | cons i is ih =>
    obtain ⟨hinv, hfirst⟩ := hstep s i h (his i List.mem_cons_self)
    obtain ⟨hinv', hrest⟩ := ih hinv fun i hi => his i (List.mem_cons_of_mem _ hi)
    exact ⟨hinv', hfirst.append hrest⟩

end Transducer
end ArcMonark.Library
