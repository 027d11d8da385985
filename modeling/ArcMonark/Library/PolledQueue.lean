import ArcMonark.Library.Runs
import Mathlib.Data.Fintype.Card
import Mathlib.Algebra.BigOperators.Group.Finset.Basic
import Mathlib.Logic.Function.Basic

/-! Writers that share a queue and look before they put.

A device drains a queue of bounded room and tells its writers only whether the queue is
empty. Each of them looks until it is, and then puts one item; between the two, others may
look and put too. An item that finds no room is lost. The items in the queue and the
writers that have looked are never more than the writers (`fits`): with no more writers
than room nothing is lost, and what comes out of the device is each writer's items in their
order (`delivers`). -/
namespace ArcMonark.Library.PolledQueue

structure State (ι α : Type) where
  queue : List (ι × α)
  /-- What the device has put out, by whom. -/
  out : List (ι × α)
  todo : ι → List α
  /-- The writer has found the queue empty, and puts its next item. -/
  seen : ι → Bool
  /-- What the writer has been told to write so far. -/
  asked : ι → List α

inductive Event (ι α : Type) where
  | ask (t : ι) (xs : List α)
  | look (t : ι)
  | put (t : ι)
  | drain

variable {ι α : Type} [DecidableEq ι]

inductive Step (room : Nat) : State ι α → Event ι α → State ι α → Prop where
  | ask {s t xs} :
      Step room s (.ask t xs)
        {s with todo := Function.update s.todo t (s.todo t ++ xs),
                asked := Function.update s.asked t (s.asked t ++ xs)}
  | look {s t} : s.todo t ≠ [] → s.seen t = false →
      Step room s (.look t) {s with seen := Function.update s.seen t s.queue.isEmpty}
  | put {s t x xs} : s.seen t = true → s.todo t = x :: xs →
      Step room s (.put t)
        {s with queue := if s.queue.length < room then s.queue ++ [(t, x)] else s.queue,
                todo := Function.update s.todo t xs,
                seen := Function.update s.seen t false}
  | drain {s x xs} : s.queue = x :: xs → Step room s .drain {s with queue := xs, out := s.out ++ [x]}

/-- Nobody has written anything yet. -/
def start (ι α : Type) : State ι α where
  queue := []
  out := []
  todo := fun _ => []
  seen := fun _ => false
  asked := fun _ => []

/-- Any number of steps of the writers and the device, in any order. -/
def system (ι α : Type) [DecidableEq ι] (room : Nat) : System (State ι α) (Event ι α) where
  init := fun s => s = start ι α
  step := Step room

/-- The items of one writer. -/
def items (t : ι) (xs : List (ι × α)) : List α := (xs.filter fun x => x.1 = t).map Prod.snd

theorem items_append (t : ι) (xs ys : List (ι × α)) : items t (xs ++ ys) = items t xs ++ items t ys := by
  rw [items, items, items, List.filter_append, List.map_append]

theorem items_singleton (t u : ι) (x : α) : items t [(u, x)] = if u = t then [x] else [] := by
  unfold items
  by_cases h : u = t <;> simp [h]

/-- What a run tells a writer to write. -/
def told (t : ι) (is : List (Event ι α)) : List α :=
  is.flatMap fun
    | .ask u xs => if u = t then xs else []
    | _ => []

theorem asked_told {room : Nat} {s : State ι α} {is : List (Event ι α)}
    (h : (system ι α room).Run (start ι α) is s) (t : ι) : s.asked t = told t is := by
  induction h with
  | nil => rfl
  | @snoc is s₁ i s₂ _ hs ih =>
    rw [told, List.flatMap_append, ← told, ← ih, List.flatMap_singleton]
    cases hs with
    | @ask u xs =>
      dsimp only
      by_cases hut : u = t
      · subst hut
        rw [Function.update_self, if_pos rfl]
      · rw [Function.update_of_ne (Ne.symm hut), if_neg hut, List.append_nil]
    | look => exact (List.append_nil _).symm
    | put => exact (List.append_nil _).symm
    | drain => exact (List.append_nil _).symm

section Invariant
variable [Fintype ι] {room : Nat} {s s' : State ι α} {e : Event ι α}

/-- The writers that have found the queue empty. -/
def seers (s : State ι α) : Finset ι := Finset.univ.filter fun t => s.seen t = true

omit [DecidableEq ι] in
theorem mem_seers {t : ι} : t ∈ seers s ↔ s.seen t = true := by simp [seers]

/-- Everything a writer was told to write is out, queued or still to do. -/
structure Ok (s : State ι α) : Prop where
  fits : s.queue.length + (seers s).card ≤ Fintype.card ι
  kept : ∀ t, items t (s.out ++ s.queue) ++ s.todo t = s.asked t

/-- Whoever looks when the queue is not empty has not seen it empty. -/
theorem look_card {t : ι} (h : s.queue.length + (seers s).card ≤ Fintype.card ι) :
    s.queue.length + (seers {s with seen := Function.update s.seen t s.queue.isEmpty}).card ≤ Fintype.card ι := by
  cases hq : s.queue with
  | nil =>
    rw [List.length_nil, Nat.zero_add]
    exact Finset.card_le_univ _
  | cons x xs =>
    rw [hq] at h
    refine Nat.le_trans (Nat.add_le_add_left (Finset.card_le_card fun u hu => ?_) _) h
    rw [mem_seers] at hu ⊢
    change Function.update s.seen t false u = true at hu
    by_cases hut : u = t
    · subst hut
      rw [Function.update_self] at hu
      cases hu
    · rwa [Function.update_of_ne hut] at hu

/-- Putting an item trades a writer that has looked for an item. -/
theorem put_card {t : ι} (s' : State ι α) (hseen : s.seen t = true)
    (hs' : s'.seen = Function.update s.seen t false) : (seers s').card + 1 = (seers s).card := by
  have herase : seers s' = (seers s).erase t := by
    ext u
    rw [Finset.mem_erase, mem_seers, mem_seers, hs']
    by_cases hut : u = t
    · subst hut
      simp
    · rw [Function.update_of_ne hut]
      exact ⟨fun h => ⟨hut, h⟩, fun h => h.2⟩
  rw [herase]
  exact Finset.card_erase_add_one (mem_seers.mpr hseen)

theorem ok_step (hroom : Fintype.card ι ≤ room) (h : Ok s) (hs : Step room s e s') : Ok s' := by
  cases hs with
  | @ask t xs =>
    refine ⟨h.fits, fun u => ?_⟩
    dsimp only
    by_cases hut : u = t
    · subst hut
      rw [Function.update_self, Function.update_self, ← List.append_assoc, h.kept]
    · rw [Function.update_of_ne hut, Function.update_of_ne hut, h.kept]
  | look _ _ => exact ⟨look_card h.fits, h.kept⟩
  | @put t x xs hseen htodo =>
    have hcard := put_card {s with
      queue := if s.queue.length < room then s.queue ++ [(t, x)] else s.queue
      todo := Function.update s.todo t xs
      seen := Function.update s.seen t false} hseen rfl
    have hlt : s.queue.length < room := by
      have := h.fits
      omega
    refine ⟨?_, fun u => ?_⟩
    · have := h.fits
      dsimp only
      rw [if_pos hlt, List.length_append, List.length_singleton]
      simp only [if_pos hlt] at hcard
      omega
    · dsimp only
      rw [if_pos hlt, ← List.append_assoc, items_append, items_singleton, ← h.kept]
      by_cases hut : u = t
      · subst hut
        rw [Function.update_self, if_pos rfl, htodo, List.append_assoc]
        rfl
      · rw [Function.update_of_ne hut, if_neg (Ne.symm hut), List.append_nil]
  | @drain x xs hq =>
    refine ⟨?_, fun u => ?_⟩
    · have := h.fits
      rw [hq, List.length_cons] at this
      show xs.length + (seers s).card ≤ _
      omega
    · have := h.kept u
      rw [hq] at this
      dsimp only
      rw [List.append_assoc]
      exact this

theorem ok_reachable (hroom : Fintype.card ι ≤ room) (h : (system ι α room).Reachable s) : Ok s := by
  refine System.invariant ?_ (fun _ _ _ => ok_step hroom) h
  rintro s rfl
  exact ⟨by simp [start, seers], fun _ => rfl⟩

/-- **Nothing is lost**: with no more writers than room the queue never overflows. -/
theorem fits (hroom : Fintype.card ι ≤ room) (h : (system ι α room).Reachable s) {t : ι} (hseen : s.seen t = true) :
    s.queue.length < room := by
  have hfits := (ok_reachable hroom h).fits
  have hpos : 0 < (seers s).card := Finset.card_pos.mpr ⟨t, mem_seers.mpr hseen⟩
  omega

/-- **Each writer's items in order**: those out, those queued and those to do are what it was told. -/
theorem delivers (hroom : Fintype.card ι ≤ room) (h : (system ι α room).Reachable s) (t : ι) :
    items t s.out ++ items t s.queue ++ s.todo t = s.asked t := by
  rw [← items_append]
  exact (ok_reachable hroom h).kept t

/-! ### Coming to an end -/

/-- What is left: looks, puts and drains. -/
def left (s : State ι α) : Nat :=
  s.queue.length + ∑ t, (3 * (s.todo t).length + if s.seen t then 0 else 1)

/-- Changing one writer changes its part of the sum. -/
theorem left_update (t : ι) (s s' : State ι α) (htodo : ∀ u, u ≠ t → s'.todo u = s.todo u)
    (hseen : ∀ u, u ≠ t → s'.seen u = s.seen u) :
    left s' + s.queue.length + (3 * (s.todo t).length + if s.seen t then 0 else 1) =
      left s + s'.queue.length + (3 * (s'.todo t).length + if s'.seen t then 0 else 1) := by
  have hrest : ∑ u ∈ Finset.univ.erase t, (3 * (s'.todo u).length + if s'.seen u then 0 else 1) =
      ∑ u ∈ Finset.univ.erase t, (3 * (s.todo u).length + if s.seen u then 0 else 1) := by
    refine Finset.sum_congr rfl fun u hu => ?_
    have hne := Finset.ne_of_mem_erase hu
    rw [htodo u hne, hseen u hne]
  have hsum := Finset.add_sum_erase Finset.univ
    (fun u => 3 * (s.todo u).length + if s.seen u then 0 else 1) (Finset.mem_univ t)
  have hsum' := Finset.add_sum_erase Finset.univ
    (fun u => 3 * (s'.todo u).length + if s'.seen u then 0 else 1) (Finset.mem_univ t)
  unfold left
  omega

/-- While something is left to write or to drain, some step of the writers or the device
does part of it. -/
theorem progress (room : Nat) (h : s.queue ≠ [] ∨ ∃ t, s.todo t ≠ []) :
    ∃ e s', Step room s e s' ∧ (∀ t xs, e ≠ .ask t xs) ∧ left s' < left s := by
  cases hq : s.queue with
  | cons x xs =>
    refine ⟨_, _, .drain hq, nofun, ?_⟩
    show xs.length + ∑ t, (3 * (s.todo t).length + if s.seen t then 0 else 1) < left s
    rw [left, hq, List.length_cons]
    omega
  | nil =>
    obtain ⟨t, ht⟩ := h.resolve_left (not_not.mpr hq)
    cases hseen : s.seen t with
    | false =>
      refine ⟨_, _, .look ht hseen, nofun, ?_⟩
      have hleft := left_update t s {s with seen := Function.update s.seen t s.queue.isEmpty} (fun _ _ => rfl)
        fun u hu => Function.update_of_ne hu _ _
      rw [hseen] at hleft
      simp only [Function.update_self, hq, List.isEmpty_nil, if_true, Bool.false_eq_true, if_false] at hleft
      rw [hq, List.isEmpty_nil]
      omega
    | true =>
      obtain ⟨x, xs, hx⟩ := List.exists_cons_of_ne_nil ht
      refine ⟨_, _, .put hseen hx, nofun, ?_⟩
      have hleft := left_update t s
        {s with queue := if s.queue.length < room then s.queue ++ [(t, x)] else s.queue,
                todo := Function.update s.todo t xs, seen := Function.update s.seen t false}
        (fun u hu => Function.update_of_ne hu _ _) fun u hu => Function.update_of_ne hu _ _
      have hlen : (if s.queue.length < room then s.queue ++ [(t, x)] else s.queue).length ≤ 1 := by
        rw [hq]
        split <;> simp
      rw [hseen, hx] at hleft
      simp only [Function.update_self, hq, List.length_nil, List.length_cons, if_true, Bool.false_eq_true,
        if_false] at hleft hlen ⊢
      omega

/-- From every state the writers and the device can come to an end, with everything out. -/
theorem finishes (room : Nat) (s : State ι α) : ∃ is s', (system ι α room).Run s is s' ∧
    (∀ e ∈ is, ∀ t xs, e ≠ .ask t xs) ∧ s'.queue = [] ∧ ∀ t, s'.todo t = [] := by
  induction hn : left s using Nat.strong_induction_on generalizing s with
  | _ n ih =>
    by_cases h : s.queue ≠ [] ∨ ∃ t, s.todo t ≠ []
    · obtain ⟨e, s₁, hs, he, hlt⟩ := progress room h
      obtain ⟨is, s', hrun, his, hqueue, htodo⟩ := ih _ (hn ▸ hlt) _ rfl
      exact ⟨e :: is, s', .cons hs hrun, List.forall_mem_cons.mpr ⟨he, his⟩, hqueue, htodo⟩
    · push Not at h
      exact ⟨[], s, .nil, nofun, h.1, h.2⟩

end Invariant

end ArcMonark.Library.PolledQueue
