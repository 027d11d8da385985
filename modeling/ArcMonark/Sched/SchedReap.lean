import ArcMonark.Sched.SchedZombie

/-! What is freed, and when.

`reap` frees the zombie while `schedule` runs on some task's stack, and the only
test it makes is that the zombie is not the current task. An address can be given
out again once it is freed, so what is told of a task here is told since its latest
creation: it has exited once, and neither it nor its stack was freed or given out
since (`Exited`). -/
namespace ArcMonark.Sched
open Library Mm
open Heap (HeapBoot)

/-! ### The life of a task -/

/-- The act neither frees nor gives out the task `t` or its stack `k`, and is not its exit. -/
def Act.Spares (t k : Nat) : Act → Prop
  | .create u l => u ≠ t ∧ u ≠ k ∧ l ≠ t ∧ l ≠ k
  | .turn _ => True
  | .exit u => u ≠ t
  | .free p => p ≠ t ∧ p ≠ k

/-- `t` was created with the stack `k`, and was left alone since. -/
def Living (t k : Nat) (acts : List Act) : Prop :=
  ∃ later earlier, acts = later ++ .create t k :: earlier ∧ ∀ a ∈ later, a.Spares t k

/-- `t` was created with the stack `k`, exited, and was left alone otherwise. -/
def Exited (t k : Nat) (acts : List Act) : Prop :=
  ∃ later between earlier, acts = later ++ .exit t :: between ++ .create t k :: earlier ∧
    ∀ a ∈ later ++ between, a.Spares t k

section Life
variable {t k : Nat} {a : Act} {acts : List Act}

theorem Living.cons (h : Living t k acts) (ha : a.Spares t k) : Living t k (a :: acts) := by
  obtain ⟨later, earlier, rfl, hspares⟩ := h
  exact ⟨a :: later, earlier, rfl, List.forall_mem_cons.mpr ⟨ha, hspares⟩⟩

theorem Living.exit (h : Living t k acts) : Exited t k (.exit t :: acts) := by
  obtain ⟨later, earlier, rfl, hspares⟩ := h
  exact ⟨[], later, earlier, rfl, hspares⟩

theorem Exited.cons (h : Exited t k acts) (ha : a.Spares t k) : Exited t k (a :: acts) := by
  obtain ⟨later, between, earlier, rfl, hspares⟩ := h
  exact ⟨a :: later, between, earlier, rfl, List.forall_mem_cons.mpr ⟨ha, hspares⟩⟩

end Life

/-- Every task on the list lives, the zombie has exited, and the boot task was not freed. -/
structure Lives (T : Nat → Task) (s : Scheduler) : Prop where
  alive : ∀ t k, (t, k) ∈ alive s.trace → Living t k s.trace
  zombie : s.zombie ≠ null → Exited s.zombie (T s.zombie).base s.trace
  boot : ∀ p, .free p ∈ s.trace → p ≠ s.head

section Proofs
variable {B : HeapBoot} {T T' : Nat → Task} {s s' : Scheduler} {taskTrampoline : Nat} {e : SchedEvent}

/-! ### What the acts leave alone -/

theorem SchedInv.mem_list (h : SchedInv B T s) {t k : Nat} (htk : (t, k) ∈ alive s.trace) :
    s.IsTask t ∧ s.IsStack k ∧ t ∈ s.others := by
  have hmem : t ∈ s.others := List.mem_map.mpr ⟨(t, k), htk, rfl⟩
  exact ⟨h.member t (List.mem_cons_of_mem _ hmem), (h.stack t k htk).2, hmem⟩

/-- Freeing the zombie touches no task on the list. -/
theorem SchedInv.free_spares (h : SchedInv B T s) (hz : s.zombie ≠ null) {t k : Nat}
    (htk : (t, k) ∈ alive s.trace) :
    (Act.free s.zombie).Spares t k ∧ (Act.free (T s.zombie).base).Spares t k := by
  obtain ⟨hztask, hzlist, hzstack, hzother⟩ := h.zombie hz
  obtain ⟨htask, hstack, hmem⟩ := h.mem_list htk
  refine ⟨⟨?_, h.tasks.ne hztask hstack⟩, (h.tasks.ne htask hzstack).symm, ?_⟩
  · exact fun heq => hzlist (heq ▸ List.mem_cons_of_mem _ hmem)
  · exact fun heq => hzother (heq ▸ List.mem_map.mpr ⟨(t, k), htk, rfl⟩)

/-- A new task takes the place of none that lives. -/
theorem SchedInv.create_spares {t k : Nat} {m : Machine} (h' : SchedInv B T' (s.created t k m)) :
    (∀ u l, (u, l) ∈ Sched.alive s.trace → (Act.create t k).Spares u l) ∧
    (s.zombie ≠ null → (Act.create t k).Spares s.zombie (T' s.zombie).base) := by
  have hnew : (t, k) ∈ Sched.alive (s.created t k m).trace := List.mem_cons_self
  obtain ⟨htask, hstack, htmem⟩ := h'.mem_list hnew
  have htlist : t ∉ s.others := (List.nodup_cons.mp (List.nodup_cons.mp h'.ring.nodup).2).1
  have hkother : k ∉ (Sched.alive s.trace).map Prod.snd := (List.nodup_cons.mp h'.distinct).1
  constructor
  · intro u l hul
    obtain ⟨hutask, hlstack, _⟩ := h'.mem_list (List.mem_cons_of_mem _ hul)
    refine ⟨fun heq => htlist ?_, h'.tasks.ne htask hlstack, (h'.tasks.ne hutask hstack).symm, fun heq =>
      hkother ?_⟩
    · exact List.mem_map.mpr ⟨(u, l), hul, heq.symm⟩
    · exact List.mem_map.mpr ⟨(u, l), hul, heq.symm⟩
  · intro hz
    obtain ⟨hztask, hzlist, hzstack, hzother⟩ := h'.zombie hz
    refine ⟨fun heq => hzlist ?_, h'.tasks.ne htask hzstack, (h'.tasks.ne hztask hstack).symm, fun heq =>
      hzother ?_⟩
    · exact heq ▸ List.mem_cons_of_mem _ htmem
    · exact heq ▸ List.mem_map.mpr ⟨(t, k), hnew, rfl⟩

/-! ### Steps -/

theorem Lives.turn (h : Lives T s) (n : Nat) (m : Machine) : Lives T (s.turnTo n m) := by
  refine ⟨fun t k htk => (h.alive t k htk).cons trivial, fun hz => (h.zombie hz).cons trivial, fun p hp => ?_⟩
  exact h.boot p ((List.mem_cons.mp hp).resolve_left nofun)

theorem Lives.reaped (h : Lives T s) (hs : SchedInv B T s) (hz : s.zombie ≠ null) (m : Machine) :
    Lives T (s.reaped (T s.zombie).base m) := by
  obtain ⟨hztask, hzlist, hzstack, _⟩ := hs.zombie hz
  refine ⟨fun t k htk => ?_, fun hz' => absurd rfl hz', fun p hp => ?_⟩
  · obtain ⟨hfree, hfreek⟩ := hs.free_spares hz htk
    exact ((h.alive t k htk).cons hfreek).cons hfree
  · rcases List.mem_cons.mp hp with heq | hp
    · cases heq
      exact fun heq => hzlist (heq ▸ List.mem_cons_self)
    · rcases List.mem_cons.mp hp with heq | hp
      · cases heq
        exact (hs.tasks.ne (hs.member _ List.mem_cons_self) hzstack).symm
      · exact h.boot p hp

theorem Lives.schedule (h : Lives T s) (hs : SchedInv B T s) {s₁ : Scheduler} (hr : Reaped T s s₁)
    (ht : Turned T s₁ s') : Lives T s' := by
  have h₁ : Lives T s₁ := by
    rcases hr with ⟨_, rfl⟩ | ⟨hz, m, rfl⟩
    · exact h
    · exact h.reaped hs hz m
  rcases ht with ⟨_, rfl⟩ | ⟨_, m, rfl⟩
  · exact h₁
  · exact h₁.turn _ m

theorem Lives.create (h : Lives T s) {t k : Nat} {m : Machine} (h' : SchedInv B T' (s.created t k m))
    (hbase : s.zombie ≠ null → (T' s.zombie).base = (T s.zombie).base) : Lives T' (s.created t k m) := by
  obtain ⟨halive, hzombie⟩ := h'.create_spares
  refine ⟨fun u l hul => ?_, fun hz => ?_, fun p hp => ?_⟩
  · rcases List.mem_cons.mp hul with heq | hul
    · cases heq
      exact ⟨[], s.trace, rfl, nofun⟩
    · exact (h.alive u l hul).cons (halive u l hul)
  · have hold := h.zombie hz
    rw [← hbase hz] at hold
    exact hold.cons (hzombie hz)
  · exact h.boot p ((List.mem_cons.mp hp).resolve_left nofun)

theorem Lives.exit (h : Lives T s) (hs : SchedInv B T s) (hne : s.currentTask ≠ s.head) (n : Nat)
    (m₁ m : Machine) : Lives T ((s.leaving m₁).turnTo n m) := by
  refine Lives.turn ⟨fun t k htk => ?_, fun _ => ?_, fun p hp => ?_⟩ n m
  · obtain ⟨htk, hne⟩ := List.mem_filter.mp htk
    exact (h.alive t k htk).cons (Ne.symm (of_decide_eq_true hne))
  · obtain ⟨k, hk⟩ := hs.current_alive hne
    show Exited s.currentTask (T s.currentTask).base (.exit s.currentTask :: s.trace)
    rw [(hs.stack _ k hk).1]
    exact (h.alive _ k hk).exit
  · exact h.boot p ((List.mem_cons.mp hp).resolve_left nofun)

/-- The table may change where the zombie is not. -/
theorem Lives.congr (h : Lives T s) (hag : s.zombie ≠ null → (T' s.zombie).base = (T s.zombie).base) :
    Lives T' s := by
  refine ⟨h.alive, fun hz => ?_, h.boot⟩
  rw [hag hz]
  exact h.zombie hz

theorem Lives.step (h : Lives T s) (hs : SchedInv B T s) (h' : SchedInv B T' s') (he : Effect T s e s')
    (hbase : ∀ t, s.IsTask t → (T' t).base = (T t).base) : Lives T' s' := by
  have hzombie : s'.zombie ≠ null → (T' s'.zombie).base = (T s'.zombie).base := fun hz =>
    hbase _ (hs.zombie_task he hz)
  cases he with
  | create t k m => exact h.create h' hzombie
  | yield hr ht => exact (h.schedule hs hr ht).congr hzombie
  | tick hr ht => exact (h.schedule hs hr ht).congr hzombie
  | exit hne n m₁ m => exact (h.exit hs hne n m₁ m).congr hzombie
  | work m => exact Lives.congr ⟨h.alive, h.zombie, h.boot⟩ hzombie
  | take m => exact Lives.congr ⟨h.alive, h.zombie, h.boot⟩ hzombie

theorem lives_reachable (h : (sched B taskTrampoline).Reachable s) : ∃ T, SchedInv B T s ∧ Lives T s := by
  refine System.invariant (P := fun s => ∃ T, SchedInv B T s ∧ Lives T s) (fun s hs => ?_) ?_ h
  · obtain ⟨⟨T, hT⟩, htrace, hzombie⟩ := sched_init hs
    refine ⟨T, hT, fun t k htk => ?_, fun hz => absurd hzombie hz, fun p hp => ?_⟩
    · rw [htrace] at htk
      cases htk
    · rw [htrace] at hp
      cases hp
  · rintro s e s' ⟨T, hT, hlives⟩ hstep
    obtain ⟨T', h', heffect, hbase⟩ := hT.step hstep
    exact ⟨T', h', hlives.step hT h' heffect hbase⟩

end Proofs

/-! ### `reap` -/

/-- The call enters `schedule` in the state `s₀`. -/
inductive Enters (s : Scheduler) : SchedEvent → Scheduler → Prop where
  | yield {rsp} : Enters s (.yield rsp) s
  | tick {rsp} : Enters s (.tick rsp) s
  | exit {rsp s₁ s₂} (hne : s.currentTask ≠ s.head) (hr₁ : setState s s.currentTask .dead = .ok s₁)
      (hr₂ : listRemove s₁ s₁.currentTask = .ok s₂) :
      Enters s (.exit rsp) {s₂ with zombie := s₂.currentTask, trace := .exit s₂.currentTask :: s₂.trace}

/-- What `reap` owes when, between `s₀` and `s₁`, it frees the task `z` and its stack `k`. -/
structure SafelyFreed (s₀ s₁ : Scheduler) (z k : Nat) : Prop where
  frees : s₁.trace = .free z :: .free k :: s₀.trace
  exited : Exited z k s₀.trace
  live : s₀.IsTask z ∧ s₀.IsStack k
  not_current : z ≠ s₀.currentTask
  not_boot : z ≠ s₀.head
  unreachable : ∃ ts, tasks s₀ = .ok ts ∧ z ∉ ts
  not_next : ∀ rsp s', switchNext s₁ rsp = .ok s' → s'.currentTask ≠ z
  not_running : ∃ stack, getStackBase s₀ s₀.currentTask = .ok stack ∧ stack ≠ k

section Reap
variable {B : HeapBoot} {T : Nat → Task} {s s₀ s' : Scheduler} {taskTrampoline : Nat} {e : SchedEvent}

/-- From where it enters `schedule`, the call does what `schedule` does. -/
theorem Enters.schedule (h : Enters s e s₀) : ∃ rsp, ∀ s', SchedStep taskTrampoline s e s' ↔
    Sched.schedule s₀ rsp = .ok s' := by
  cases h with
  | @yield rsp => exact ⟨rsp, fun s' => ⟨fun h => by cases h; assumption, .yield⟩⟩
  | @tick rsp => exact ⟨rsp, fun s' => ⟨fun h => by cases h; assumption, .tick⟩⟩
  | @exit rsp s₁ s₂ hne hr₁ hr₂ =>
    have hcall : taskExit s rsp = Sched.schedule
        {s₂ with zombie := s₂.currentTask, trace := .exit s₂.currentTask :: s₂.trace} rsp := by
      rw [taskExit, hr₁, ok_bind]
      show (Sched.listRemove s₁ s₁.currentTask >>= fun s => _) = _
      rw [hr₂, ok_bind]
    refine ⟨rsp, fun s' => ⟨fun h => ?_, fun h => .exit hne (hcall.trans h)⟩⟩
    cases h with
    | exit _ hr => exact hcall.symm.trans hr

/-- The state of the heap apart, `task_exit` enters `schedule` with the current task as the zombie. -/
theorem SchedInv.enters_exit (h : SchedInv B T s) {rsp : Nat} (he : Enters s (.exit rsp) s₀) :
    ∃ m, s₀ = s.leaving m := by
  cases he with
  | exit hne hr₁ hr₂ =>
    obtain ⟨_, _, _, m₁, m, hok₁, hok₂, _⟩ := h.unlink
    cases hok₁.symm.trans hr₁
    cases hok₂.symm.trans hr₂
    exact ⟨m, rfl⟩

/-- The zombie of a state between calls may be freed. -/
theorem SchedInv.safelyFreed (h : SchedInv B T s) (hlives : Lives T s) (hz : s.zombie ≠ null) {m : Machine}
    (h₁ : SchedInv B T (s.reaped (T s.zombie).base m)) :
    SafelyFreed s (s.reaped (T s.zombie).base m) s.zombie (T s.zombie).base := by
  obtain ⟨hztask, hzlist, hzstack, hzother⟩ := h.zombie hz
  refine ⟨rfl, hlives.zombie hz, ⟨hztask, hzstack⟩, fun heq => hzlist (heq ▸ h.current),
    fun heq => hzlist (heq ▸ List.mem_cons_self), ⟨_, h.tasks_eq, hzlist⟩, fun rsp s' hr heq => ?_, _,
    h.tasks.getStackBase (h.member _ h.current), fun heq => ?_⟩
  · obtain ⟨_, s'', hok, hturned, _⟩ := h₁.switchNext rsp
    cases hok.symm.trans hr
    rcases hturned with ⟨_, rfl⟩ | ⟨_, m', rfl⟩
    · exact hzlist (heq ▸ h.current)
    · exact hzlist (heq ▸ h.next_mem h.current)
  · by_cases hcur : s.currentTask = s.head
    · obtain ⟨V, hV⟩ := h.tasks.client
      rw [hcur, h.boot] at heq
      exact hV.ne_null hzstack heq.symm
    · obtain ⟨k, hk⟩ := h.current_alive hcur
      rw [(h.stack _ k hk).1] at heq
      exact hzother (heq ▸ List.mem_map.mpr ⟨(_, k), hk, rfl⟩)

end Reap

/-- **Reaping is safe.** Wherever a call enters `schedule`, `reap` frees nothing, or it
frees a task with its stack that has exited, was not freed or given out again since it
was created, is not the current one nor the next one, cannot be reached from the first
task, and whose stack is not the one in use. The boot task is never freed. -/
theorem reap_safe (B : HeapBoot) (taskTrampoline : Nat) {s s₀ : Scheduler} {e : SchedEvent}
    (h : (sched B taskTrampoline).Reachable s) (he : Enters s e s₀) :
    ∃ s₁, reap s₀ = .ok s₁ ∧ (∀ p, .free p ∈ s₁.trace → p ≠ s.head) ∧
      (s₁ = s₀ ∧ (s₀.zombie = null ∨ s₀.zombie = s₀.currentTask) ∨ ∃ k, SafelyFreed s₀ s₁ s₀.zombie k) := by
  obtain ⟨T, hT, hlives⟩ := lives_reachable h
  have hbetween : ∃ s₁, reap s = .ok s₁ ∧ (∀ p, .free p ∈ s₁.trace → p ≠ s.head) ∧
      (s₁ = s ∧ (s.zombie = null ∨ s.zombie = s.currentTask) ∨ ∃ k, SafelyFreed s s₁ s.zombie k) := by
    obtain ⟨s₁, hr, hreaped, h₁⟩ := hT.reap
    refine ⟨s₁, hr, ?_⟩
    rcases hreaped with ⟨hz, rfl⟩ | ⟨hz, m, rfl⟩
    · exact ⟨hlives.boot, .inl ⟨rfl, .inl hz⟩⟩
    · exact ⟨(hlives.reaped hT hz m).boot, .inr ⟨_, hT.safelyFreed hlives hz h₁⟩⟩
  cases e with
  | yield rsp =>
    cases he
    exact hbetween
  | tick rsp =>
    cases he
    exact hbetween
  | exit rsp =>
    -- the zombie is the task that runs, so `reap` passes by
    obtain ⟨m, rfl⟩ := hT.enters_exit he
    refine ⟨s.leaving m, if_neg fun hz => hz.2 rfl, fun p hp => ?_, .inl ⟨rfl, .inr rfl⟩⟩
    exact hlives.boot p ((List.mem_cons.mp hp).resolve_left nofun)
  | create => cases he
  | work => cases he
  | take => cases he

theorem reap_safe_smallSched : ∃ s s₁ k, reap s = .ok s₁ ∧ SafelyFreed s s₁ s.zombie k := by
  obtain ⟨s₀, s, s', hinit, hrun, _, _, hz⟩ := smallSched_exits
  obtain ⟨T, hT⟩ := sched_reachable (hrun.reachable hinit)
  obtain ⟨s₁, hr, _, hcase⟩ := reap_safe (flatSched (n := 128) (by decide)).toHeapBoot 0xFFFFFFFF80001000
    (hrun.reachable hinit) (@Enters.yield _ 0)
  rcases hcase with ⟨_, hnull | hcurrent⟩ | ⟨k, hfreed⟩
  · exact absurd hnull hz
  · exact absurd (hcurrent ▸ hT.current) (hT.zombie hz).2.1
  · exact ⟨s, s₁, k, hr, hfreed⟩

end ArcMonark.Sched
