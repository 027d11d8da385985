import Mathlib.Data.List.Induction

/-! Systems that take one labelled step after another.

A system is where it may start and what each label may do to a state. What holds
at the start and survives every step holds in every reachable state; a run lists
its labels, so that a property of histories can be stated over them. Where the labels
are the inputs of a machine, a property is stated on every prefix of them; the step
from one prefix to the next decides it (`forall_prefix_iff`). -/
namespace ArcMonark.Library

structure System (σ ι : Type) where
  init : σ → Prop
  step : σ → ι → σ → Prop

namespace System
variable {σ ι : Type}

inductive Reachable (S : System σ ι) : σ → Prop where
  | start {s} : S.init s → Reachable S s
  | step {s i s'} : Reachable S s → S.step s i s' → Reachable S s'

/-- Steps `is` one after another from `s` to `s'`. -/
inductive Run (S : System σ ι) : σ → List ι → σ → Prop where
  | nil {s} : Run S s [] s
  | snoc {s is s' i s''} : Run S s is s' → S.step s' i s'' → Run S s (is ++ [i]) s''

variable {S : System σ ι}

/-- What the start establishes and every step preserves holds throughout. -/
theorem invariant {P : σ → Prop} (start : ∀ s, S.init s → P s)
    (preserved : ∀ s i s', P s → S.step s i s' → P s') {s : σ} (h : S.Reachable s) : P s := by
  induction h with
  | start hi => exact start _ hi
  | step _ hs ih => exact preserved _ _ _ ih hs

theorem Run.reachable {s s' : σ} {is : List ι} (hi : S.init s) (h : S.Run s is s') :
    S.Reachable s' := by
  induction h with
  | nil => exact .start hi
  | snoc _ hs ih => exact .step ih hs

theorem Reachable.run {s s' : σ} {is : List ι} (h : S.Reachable s) (hr : S.Run s is s') : S.Reachable s' := by
  induction hr with
  | nil => exact h
  | snoc _ hs ih => exact .step ih hs

theorem Run.append {s s' s'' : σ} {is js : List ι} (h : S.Run s is s') (h' : S.Run s' js s'') :
    S.Run s (is ++ js) s'' := by
  induction h' with
  | nil => rwa [List.append_nil]
  | snoc _ hs ih =>
    rw [← List.append_assoc]
    exact .snoc ih hs

/-- One step, and then a run. -/
theorem Run.cons {s s' s'' : σ} {i : ι} {is : List ι} (hs : S.step s i s') (h : S.Run s' is s'') :
    S.Run s (i :: is) s'' := (Run.snoc .nil hs).append h

/-- The last step of a run. -/
theorem Run.last {s s'' : σ} {is : List ι} {i : ι} (h : S.Run s (is ++ [i]) s'') :
    ∃ s', S.Run s is s' ∧ S.step s' i s'' := by
  generalize hjs : is ++ [i] = js at h
  cases h with
  | nil => simp at hjs
  | snoc hrun hs =>
    obtain ⟨rfl, rfl⟩ := List.append_singleton_inj.mp hjs
    exact ⟨_, hrun, hs⟩

section Simulation
variable {τ κ : Type} {T : System τ κ} {R : σ → τ → Prop} {s s' : σ} {t : τ} {is : List ι}

/-- What `T` matches step by step, it matches over a run. -/
theorem Run.simulated {f : ι → κ}
    (hstep : ∀ {s i s' t}, R s t → S.step s i s' → ∃ t', T.step t (f i) t' ∧ R s' t') (h : S.Run s is s') (hR : R s t) :
    ∃ t', T.Run t (is.map f) t' ∧ R s' t' := by
  induction h with
  | nil => exact ⟨t, .nil, hR⟩
  | @snoc is _ i _ _ hs ih =>
    obtain ⟨t₁, hrun, hR₁⟩ := ih
    obtain ⟨t', ht, hR'⟩ := hstep hR₁ hs
    refine ⟨t', ?_, hR'⟩
    rw [List.map_append]
    exact .snoc hrun ht

/-- Where `T` has a label for each step of a kind, it follows a run of them. -/
theorem Run.lifted {f : κ → ι} {P : ι → Prop}
    (hstep : ∀ {s i s' t}, P i → R s t → S.step s i s' → ∃ k t', f k = i ∧ T.step t k t' ∧ R s' t')
    (h : S.Run s is s') (his : ∀ i ∈ is, P i) (hR : R s t) : ∃ ks t', ks.map f = is ∧ T.Run t ks t' ∧ R s' t' := by
  induction h with
  | nil => exact ⟨[], t, rfl, .nil, hR⟩
  | @snoc is _ i _ _ hs ih =>
    rw [List.forall_mem_append, List.forall_mem_singleton] at his
    obtain ⟨ks, t₁, rfl, hrun, hR₁⟩ := ih his.1
    obtain ⟨k, t', rfl, ht, hR'⟩ := hstep his.2 hR₁ hs
    exact ⟨ks ++ [k], t', List.map_append, .snoc hrun ht, hR'⟩

end Simulation

/-- The steps of `S` whose states and labels meet `C`. -/
def restrict (S : System σ ι) (C : σ → ι → Prop) : System σ ι where
  init := S.init
  step := fun s i s' => C s i ∧ S.step s i s'

theorem restrict_reachable {C : σ → ι → Prop} {s : σ} (h : (S.restrict C).Reachable s) :
    S.Reachable s := by
  induction h with
  | start hi => exact .start hi
  | step _ hs ih => exact .step ih hs.2

/-- Where every step is allowed, nothing is restricted. -/
theorem reachable_restrict {s : σ} (h : S.Reachable s) : (S.restrict fun _ _ => True).Reachable s := by
  induction h with
  | start hi => exact .start hi
  | step _ hs ih => exact .step ih ⟨trivial, hs⟩

end System

/-! ### Prefixes -/

section Prefixes
variable {ι : Type} {is : List ι}

/-- If `Q` is what keeps `P` from one prefix to the next, then `P` holds of every prefix
exactly when `Q` holds of every step. -/
theorem forall_prefix_iff {P : List ι → Prop} {Q : List ι → ι → Prop} (start : P [])
    (step : ∀ done i, done ++ [i] <+: is → P done → (P (done ++ [i]) ↔ Q done i)) :
    (∀ done, done <+: is → P done) ↔ ∀ done i, done ++ [i] <+: is → Q done i := by
  constructor
  · intro h done i hdone
    exact (step done i hdone (h done ((List.prefix_append done [i]).trans hdone))).mp (h _ hdone)
  · intro h done
    induction done using List.reverseRecOn with
    | nil => exact fun _ => start
    | append_singleton done i ih =>
      intro hdone
      exact (step done i hdone (ih ((List.prefix_append done [i]).trans hdone))).mpr (h done i hdone)

/-- The steps by their numbers. -/
theorem forall_step_iff {Q : List ι → ι → Prop} :
    (∀ n (hn : n < is.length), Q (is.take n) is[n]) ↔ ∀ done i, done ++ [i] <+: is → Q done i := by
  constructor
  · rintro h done i ⟨rest, rfl⟩
    have hstep := h done.length (by simp)
    simpa using hstep
  · intro h n hn
    refine h _ _ ?_
    rw [List.take_append_getElem hn]
    exact List.take_prefix _ _

end Prefixes

end ArcMonark.Library
