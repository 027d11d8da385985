import ArcMonark.Library.Runs
import Mathlib.Data.List.Nodup

/-! Members that take turns.

The members stand in a line. The first one has its turn and goes to the back;
others join and leave anywhere. What matters for a pair of members is who is
ahead of whom: only a turn of the one ahead changes that (`Ahead.step`,
`Ahead.turn`). So between two turns of a member that stays, everyone else who
stays has one turn (`turns_once`). -/
namespace ArcMonark.Library

inductive Move (α : Type) where
  | join (x : α)
  | turn (x : α)
  | leave (x : α)
  deriving DecidableEq

inductive MoveStep {α : Type} : List α → Move α → List α → Prop where
  | join {xs ys x} (hx : x ∉ xs ++ ys) : MoveStep (xs ++ ys) (.join x) (xs ++ x :: ys)
  | turn {xs x} : MoveStep (x :: xs) (.turn x) (xs ++ [x])
  | leave {xs ys x} : MoveStep (xs ++ x :: ys) (.leave x) (xs ++ ys)

/-- A line in which no one stands twice, one move after another. -/
def rounds (α : Type) : System (List α) (Move α) where
  init := List.Nodup
  step := MoveStep

/-- In this line `x` stands ahead of `y`. -/
def Ahead {α : Type} (line : List α) (x y : α) : Prop := [x, y].Sublist line

section Rounds
variable {α : Type} {line line' : List α} {x y u v : α} {m : Move α} {ms : List (Move α)}

theorem MoveStep.nodup (h : MoveStep line m line') (hnodup : line.Nodup) : line'.Nodup := by
  cases h with
  | join hx => exact List.perm_middle.nodup_iff.mpr (List.nodup_cons.mpr ⟨hx, hnodup⟩)
  | turn => exact (List.perm_append_singleton _ _).nodup_iff.mpr hnodup
  | leave => exact (List.nodup_cons.mp (List.perm_middle.nodup_iff.mp hnodup)).2

theorem Ahead.mem_right (h : Ahead line x y) : y ∈ line :=
  h.subset (List.mem_cons_of_mem _ List.mem_cons_self)

/-- Behind the first of a line, it is not seen again. -/
theorem Ahead.not_first (hnodup : (y :: line).Nodup) : ¬ Ahead (y :: line) x y := by
  intro h
  have hy : y ∉ line := (List.nodup_cons.mp hnodup).1
  cases h with
  | cons _ h => exact hy (Ahead.mem_right h)
  | cons_cons _ h => exact hy (h.subset List.mem_cons_self)

/-- Whoever had its turn stands behind those it was ahead of. -/
theorem Ahead.turn (h : Ahead line x y) (hs : MoveStep line (.turn x) line') (hne : x ≠ y) :
    Ahead line' y x := by
  cases hs with
  | @turn xs x =>
    have hy : y ∈ xs := (List.mem_cons.mp h.mem_right).resolve_left hne.symm
    exact (List.singleton_sublist.mpr hy).append (List.Sublist.refl [x])

/-- As long as the one ahead waits and both stay, it remains ahead, and the other one
has no turn. -/
theorem Ahead.step [DecidableEq α] (h : Ahead line x y) (hnodup : line.Nodup) (hs : MoveStep line m line')
    (hturn : m ≠ .turn x) (hx : m ≠ .leave x) (hy : m ≠ .leave y) : Ahead line' x y ∧ m ≠ .turn y := by
  cases hs with
  | @join xs ys z =>
    exact ⟨h.trans ((List.Sublist.refl xs).append (List.sublist_cons_self z ys)), nofun⟩
  | @turn xs z =>
    have hzx : x ≠ z := fun heq => hturn (by rw [heq])
    have hrest : Ahead xs x y := by
      cases h with
      | cons _ h => exact h
      | cons_cons _ h => exact absurd rfl hzx
    refine ⟨hrest.trans (List.sublist_append_left xs [z]), fun heq => ?_⟩
    cases heq
    exact Ahead.not_first hnodup h
  | @leave xs ys z =>
    have hzx : x ≠ z := fun heq => hx (by rw [heq])
    have hzy : y ≠ z := fun heq => hy (by rw [heq])
    have hz : z ∉ xs := fun hz => (List.nodup_append.mp hnodup).2.2 z hz z List.mem_cons_self rfl
    have herase := List.Sublist.erase z h
    rw [List.erase_append_right _ hz, List.erase_cons_head, List.erase_cons_tail (by simpa using hzx),
      List.erase_cons_tail (by simpa using hzy)] at herase
    exact ⟨herase, nofun⟩

/-- Along a run in which `u` waits and both stay, `v` ahead of `u` has its turn at most
once, and is behind `u` from then on. -/
theorem turns_run [DecidableEq α] (h : (rounds α).Run line ms line') (hnodup : line.Nodup)
    (hahead : Ahead line v u) (hne : v ≠ u) (hturn : .turn u ∉ ms) (hu : .leave u ∉ ms) (hv : .leave v ∉ ms) :
    line'.Nodup ∧
      (Ahead line' v u ∧ ms.count (.turn v) = 0 ∨ Ahead line' u v ∧ ms.count (.turn v) = 1) := by
  induction h with
  | nil => exact ⟨hnodup, .inl ⟨hahead, rfl⟩⟩
  | @snoc ms mid m line' hrun hs ih =>
    simp only [List.mem_append, List.mem_singleton, not_or] at hturn hu hv
    obtain ⟨hnodup', hcase⟩ := ih hturn.1 hu.1 hv.1
    refine ⟨MoveStep.nodup hs hnodup', ?_⟩
    rw [List.count_append, List.count_singleton]
    rcases hcase with ⟨hahead', hcount⟩ | ⟨hahead', hcount⟩
    · by_cases hm : m = .turn v
      · subst hm
        refine .inr ⟨hahead'.turn hs hne, ?_⟩
        simp [hcount]
      · obtain ⟨hstill, _⟩ := hahead'.step hnodup' hs hm (Ne.symm hv.2) (Ne.symm hu.2)
        refine .inl ⟨hstill, ?_⟩
        simp [hcount, hm]
    · obtain ⟨hstill, hm⟩ := hahead'.step hnodup' hs (Ne.symm hturn.2) (Ne.symm hu.2) (Ne.symm hv.2)
      refine .inr ⟨hstill, ?_⟩
      simp [hcount, hm]

/-- **Between two turns** of a member that stays, everyone else who stays has one turn. -/
theorem turns_once [DecidableEq α] (h : (rounds α).Run (line ++ [u]) ms (u :: line')) (hnodup : (line ++ [u]).Nodup)
    (hmem : v ∈ line) (hturn : .turn u ∉ ms) (hu : .leave u ∉ ms) (hv : .leave v ∉ ms) :
    ms.count (.turn v) = 1 := by
  have hne : v ≠ u := (List.nodup_append.mp hnodup).2.2 v hmem u List.mem_cons_self
  have hahead : Ahead (line ++ [u]) v u := (List.singleton_sublist.mpr hmem).append (.refl [u])
  obtain ⟨hnodup', ⟨hfirst, _⟩ | ⟨_, hcount⟩⟩ := turns_run h hnodup hahead hne hturn hu hv
  · exact absurd hfirst (Ahead.not_first hnodup')
  · exact hcount

end Rounds

end ArcMonark.Library
