import ArcMonark.Sched.SchedRuns

/-! The scheduler and other clients of its heap.

In `sched` the heap is the scheduler's own once `sched_init` has run. Here the rest of
the kernel may call the heap at any time, and write to what it was given; it leaves
alone what the scheduler keeps there, which is all that the invariant is about
(`SchedInv.other`). -/
namespace ArcMonark.Sched
open Library Mm
open Heap (HeapBoot HeapEvent HeapRun HeapStep)

/-- A pointer to a task of the scheduler's, or to its stack. -/
def Scheduler.Keeps (s : Scheduler) (p : Nat) : Prop :=
  p ∈ s.head :: s.others ∨ p ∈ (alive s.trace).map Prod.snd ∨
    s.zombie ≠ null ∧ (p = s.zombie ∨ getStackBase s s.zombie = .ok p)

inductive SharedEvent where
  | sched (e : SchedEvent)
  /-- Another part of the kernel uses the heap. -/
  | other (e : HeapEvent)

inductive SharedStep (taskTrampoline : Nat) (s : Scheduler) : SharedEvent → Scheduler → Prop where
  | sched {e s'} (hs : SchedStep taskTrampoline s e s') : SharedStep taskTrampoline s (.sched e) s'
  | other {e w} (hs : HeapStep s.heap e w) (hkeep : ∀ p, s.Keeps p → ¬ e.On p) :
      SharedStep taskTrampoline s (.other e) {s with heap := w}

/-- The scheduler on a heap that it shares. -/
def shared (B : HeapBoot) (taskTrampoline : Nat) : System Scheduler SharedEvent where
  init := (sched B taskTrampoline).init
  step := SharedStep taskTrampoline

section Shared
variable {B : HeapBoot} {T : Nat → Task} {s : Scheduler} {taskTrampoline : Nat}

/-- Others change nothing that the invariant is about. -/
theorem SchedInv.other (h : SchedInv B T s) {e : HeapEvent} {w : HeapRun} (hs : HeapStep s.heap e w)
    (hkeep : ∀ p, s.Keeps p → ¬ e.On p) : ∃ T', SchedInv B T' {s with heap := w} := by
  have hbase := fun hz => h.tasks.getStackBase (h.zombie hz).1
  obtain ⟨V, hV, hT⟩ := h.tasks
  obtain ⟨V', hV', hsame⟩ := hV.step hs
  have htask : ∀ u, s.IsTask u → s.Keeps u → (u, sizeofTask) ∈ w.live ∧ taskAt V' u = T u := fun u hu huk => by
    obtain ⟨hlive, hbytes⟩ := hsame u sizeofTask hu (hkeep u huk)
    exact ⟨hlive, (taskAt_congr hbytes).trans (hT u hu)⟩
  have hring : ∀ u ∈ s.head :: s.others, (u, sizeofTask) ∈ w.live ∧ taskAt V' u = T u := fun u hu =>
    htask u (h.member u hu) (.inl hu)
  refine ⟨taskAt V', ⟨V', hV', fun _ _ => rfl⟩, h.ring.congr fun u hu => ?_, fun u hu => (hring u hu).1, h.current,
    fun u hu => ?_, fun u k huk => ?_, h.distinct, fun hz => ?_, ?_⟩
  · exact congrArg Task.next (hring u hu).2
  · rw [(hring u hu).2]
    exact h.state u hu
  · obtain ⟨hstack, hlive⟩ := h.stack u k huk
    have hu : u ∈ s.head :: s.others := List.mem_cons_of_mem _ (List.mem_map.mpr ⟨(u, k), huk, rfl⟩)
    rw [(hring u hu).2]
    exact ⟨hstack, (hsame k kstackSize hlive (hkeep k (.inr (.inl (List.mem_map.mpr ⟨(u, k), huk, rfl⟩))))).1⟩
  · obtain ⟨hztask, hzring, hzstack, hzother⟩ := h.zombie hz
    obtain ⟨hzlive, hzsame⟩ := htask s.zombie hztask (.inr (.inr ⟨hz, .inl rfl⟩))
    refine ⟨hzlive, hzring, ?_, ?_⟩ <;> rw [hzsame]
    · exact (hsame _ kstackSize hzstack (hkeep _ (.inr (.inr ⟨hz, .inr (hbase hz)⟩)))).1
    · exact hzother
  · rw [(hring s.head List.mem_cons_self).2]
    exact h.boot

/-- The invariant holds in every reachable state. -/
theorem shared_reachable (h : (shared B taskTrampoline).Reachable s) : ∃ T, SchedInv B T s := by
  refine System.invariant (S := shared B taskTrampoline) (P := fun s => ∃ T, SchedInv B T s)
    (fun s (hs : (sched B taskTrampoline).init s) => (sched_init hs).1) ?_ h
  rintro s e s' ⟨T, hT⟩ hstep
  cases hstep with
  | sched hs =>
    obtain ⟨T', hT', _⟩ := hT.step hs
    exact ⟨T', hT'⟩
  | other hs hkeep => exact hT.other hs hkeep

end Shared

end ArcMonark.Sched
