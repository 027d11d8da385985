import ArcMonark.Sched.SchedRuns

/-! What becomes of the tasks that exit.

`task_exit` puts the task into `zombie`, for another task to free. There is room
for one: a task that exits while another waits there takes its place, and nobody
frees that one any more. -/
namespace ArcMonark.Sched
open Library Mm
open Heap (HeapBoot)

/-- Every task that has called `task_exit` has had its structure and its stack passed
to `kfree` since, or is the zombie. -/
def NoLeak (s : Scheduler) : Prop :=
  ∀ later t k earlier, s.trace = later ++ .exit t :: earlier → (t, k) ∈ alive earlier →
    (.free t ∈ later ∧ .free k ∈ later) ∨ (s.zombie = t ∧ .free t ∉ later)

/-- The same, with what the table has of the zombie's stack. -/
def Accounted (T : Nat → Task) (s : Scheduler) : Prop :=
  ∀ later t k earlier, s.trace = later ++ .exit t :: earlier → (t, k) ∈ alive earlier →
    (.free t ∈ later ∧ .free k ∈ later) ∨
      (s.zombie = t ∧ t ≠ null ∧ (T t).base = k ∧ .free t ∉ later)

/-- The zombie has called `task_exit` and was not freed since. -/
def Pending (s : Scheduler) : Prop :=
  s.zombie ≠ null → ∃ later k earlier, s.trace = later ++ .exit s.zombie :: earlier ∧
    (s.zombie, k) ∈ alive earlier ∧ .free s.zombie ∉ later

section Proofs
variable {B : HeapBoot} {T T' : Nat → Task} {s s' : Scheduler} {taskTrampoline : Nat} {e : SchedEvent}

theorem Accounted.noLeak (h : Accounted T s) : NoLeak s := by
  intro later t k earlier htrace halive
  rcases h later t k earlier htrace halive with hfreed | ⟨hzombie, _, _, hnot⟩
  · exact .inl hfreed
  · exact .inr ⟨hzombie, hnot⟩

/-! ### One act -/

/-- An act that neither exits nor frees a task. -/
def Act.Plain (a : Act) : Prop := (∀ t, a ≠ .exit t) ∧ ∀ p, a ≠ .free p

theorem plain_create (t k : Nat) : (Act.create t k).Plain :=
  ⟨fun _ h => Act.noConfusion h, fun _ h => Act.noConfusion h⟩

theorem plain_turn (t : Nat) : (Act.turn t).Plain :=
  ⟨fun _ h => Act.noConfusion h, fun _ h => Act.noConfusion h⟩

theorem Accounted.plain (h : Accounted T s) {a : Act} (ha : a.Plain) (htrace : s'.trace = a :: s.trace)
    (hzombie : s'.zombie = s.zombie) : Accounted T s' := by
  intro later t k earlier hsplit halive
  rw [htrace] at hsplit
  rcases List.cons_eq_append_iff.mp hsplit with ⟨_, hexit⟩ | ⟨later', rfl, hold⟩
  · exact absurd (List.cons.inj hexit).1.symm (ha.1 t)
  · rcases h later' t k earlier hold halive with ⟨ht, hk⟩ | ⟨hz, hne, hbase, hnot⟩
    · exact .inl ⟨List.mem_cons_of_mem _ ht, List.mem_cons_of_mem _ hk⟩
    · refine .inr ⟨hzombie.trans hz, hne, hbase, fun hmem => ?_⟩
      rcases List.mem_cons.mp hmem with heq | hmem
      · exact ha.2 t heq.symm
      · exact hnot hmem

theorem Pending.plain (h : Pending s) {a : Act} (ha : a.Plain) (htrace : s'.trace = a :: s.trace)
    (hzombie : s'.zombie = s.zombie) : Pending s' := by
  intro hz
  rw [hzombie] at hz ⊢
  obtain ⟨later, k, earlier, hold, halive, hnot⟩ := h hz
  refine ⟨a :: later, k, earlier, by rw [htrace, hold]; rfl, halive, fun hmem => ?_⟩
  rcases List.mem_cons.mp hmem with heq | hmem
  · exact ha.2 _ heq.symm
  · exact hnot hmem

/-- The table may change where the zombie is not. -/
theorem Accounted.congr (h : Accounted T s) (hag : s.zombie ≠ null → (T' s.zombie).base = (T s.zombie).base) :
    Accounted T' s := by
  intro later t k earlier hsplit halive
  rcases h later t k earlier hsplit halive with hfreed | ⟨rfl, hne, hbase, hnot⟩
  · exact .inl hfreed
  · exact .inr ⟨rfl, hne, (hag hne).trans hbase, hnot⟩

/-- Nothing is left to be freed once the zombie is. -/
theorem Accounted.reaped (h : Accounted T s) (m : Machine) : Accounted T (s.reaped (T s.zombie).base m) := by
  intro later t k earlier hsplit halive
  change .free s.zombie :: .free (T s.zombie).base :: s.trace = _ at hsplit
  rcases List.cons_eq_append_iff.mp hsplit with ⟨_, hexit⟩ | ⟨later₁, rfl, hsplit₁⟩
  · cases (List.cons.inj hexit).1
  · rcases List.cons_eq_append_iff.mp hsplit₁ with ⟨_, hexit⟩ | ⟨later₂, rfl, hold⟩
    · cases (List.cons.inj hexit).1
    · rcases h later₂ t k earlier hold halive with ⟨ht, hk⟩ | ⟨rfl, _, rfl, _⟩
      · exact .inl ⟨List.mem_cons_of_mem _ (List.mem_cons_of_mem _ ht),
          List.mem_cons_of_mem _ (List.mem_cons_of_mem _ hk)⟩
      · exact .inl ⟨List.mem_cons_self, List.mem_cons_of_mem _ List.mem_cons_self⟩

/-- A task that exits while no other waits is the zombie. -/
theorem Accounted.exit (h : Accounted T s) (hs : SchedInv B T s) (hzombie : s.zombie = null) (n : Nat)
    (m₁ m : Machine) : Accounted T ((s.leaving m₁).turnTo n m) := by
  intro later t k earlier hsplit halive
  change .turn n :: .exit s.currentTask :: s.trace = _ at hsplit
  rcases List.cons_eq_append_iff.mp hsplit with ⟨_, hexit⟩ | ⟨later₁, rfl, hsplit₁⟩
  · cases (List.cons.inj hexit).1
  · rcases List.cons_eq_append_iff.mp hsplit₁ with ⟨rfl, hexit⟩ | ⟨later₂, rfl, hold⟩
    · obtain ⟨hexit, rfl⟩ := List.cons.inj hexit
      cases hexit
      refine .inr ⟨rfl, hs.tasks.ne_null (hs.member _ hs.current), (hs.stack _ k halive).1, fun hmem => ?_⟩
      cases List.mem_singleton.mp hmem
    · rcases h later₂ t k earlier hold halive with ⟨ht, hk⟩ | ⟨hz, hne, _⟩
      · exact .inl ⟨List.mem_cons_of_mem _ (List.mem_cons_of_mem _ ht),
          List.mem_cons_of_mem _ (List.mem_cons_of_mem _ hk)⟩
      · exact absurd (hz.symm.trans hzombie) hne

/-- **The defect.** When a task exits while another one waits to be freed, that one is lost. -/
theorem Effect.leaks {rsp : Nat} (he : Effect T s (.exit rsp) s') (hs : SchedInv B T s) (h : Pending s)
    (hz : s.zombie ≠ null) : ¬ NoLeak s' := by
  obtain ⟨later, k, earlier, htrace, halive, hnot⟩ := h hz
  intro hleak
  cases he with | exit _ n m₁ m =>
  have hsplit : ((s.leaving m₁).turnTo n m).trace =
      (.turn n :: .exit s.currentTask :: later) ++ .exit s.zombie :: earlier := by
    show .turn n :: .exit s.currentTask :: s.trace = _
    rw [htrace]
    rfl
  rcases hleak _ _ k _ hsplit halive with ⟨hfreed, _⟩ | ⟨hcur, _⟩
  · rcases List.mem_cons.mp hfreed with heq | hfreed
    · cases heq
    · rcases List.mem_cons.mp hfreed with heq | hfreed
      · cases heq
      · exact hnot hfreed
  · change s.currentTask = s.zombie at hcur
    exact (hs.zombie hz).2.1 (hcur ▸ hs.current)

/-! ### Steps -/

theorem Accounted.schedule (h : Accounted T s) {s₁ : Scheduler} (hr : Reaped T s s₁) (ht : Turned T s₁ s') :
    Accounted T s' := by
  have h₁ : Accounted T s₁ := by
    rcases hr with ⟨_, rfl⟩ | ⟨_, m, rfl⟩
    · exact h
    · exact h.reaped m
  rcases ht with ⟨_, rfl⟩ | ⟨_, m, rfl⟩
  · exact h₁
  · exact h₁.plain (plain_turn _) rfl rfl

theorem Pending.schedule (h : Pending s) {s₁ : Scheduler} (hr : Reaped T s s₁) (ht : Turned T s₁ s') :
    Pending s' := by
  have h₁ : Pending s₁ := by
    rcases hr with ⟨_, rfl⟩ | ⟨_, m, rfl⟩
    · exact h
    · exact fun hz => absurd rfl hz
  rcases ht with ⟨_, rfl⟩ | ⟨_, m, rfl⟩
  · exact h₁
  · exact h₁.plain (plain_turn _) rfl rfl

/-- A step leaves no task behind, unless one exits while another waits. -/
theorem Accounted.step (h : Accounted T s) (hs : SchedInv B T s) (he : Effect T s e s')
    (hexit : ∀ rsp, e = .exit rsp → s.zombie = null) : Accounted T s' := by
  cases he with
  | create t k m => exact h.plain (plain_create t k) rfl rfl
  | yield hr ht => exact h.schedule hr ht
  | tick hr ht => exact h.schedule hr ht
  | exit _ n m₁ m => exact h.exit hs (hexit _ rfl) n m₁ m
  | work m => exact h
  | take m => exact h

/-- Whatever the zombie is after a step was a task before it. -/
theorem SchedInv.zombie_task (hs : SchedInv B T s) (he : Effect T s e s') (hz : s'.zombie ≠ null) :
    s.IsTask s'.zombie := by
  have hsched : ∀ s₁, Reaped T s s₁ → Turned T s₁ s' → s.IsTask s'.zombie := by
    intro s₁ hr ht
    have heq : s'.zombie = s₁.zombie := by
      rcases ht with ⟨_, rfl⟩ | ⟨_, m, rfl⟩ <;> rfl
    rw [heq] at hz ⊢
    rcases hr with ⟨_, rfl⟩ | ⟨_, m, rfl⟩
    · exact (hs.zombie hz).1
    · exact absurd rfl hz
  cases he with
  | create t k m => exact (hs.zombie hz).1
  | yield hr ht => exact hsched _ hr ht
  | tick hr ht => exact hsched _ hr ht
  | exit _ n m₁ m => exact hs.member _ hs.current
  | work m => exact (hs.zombie hz).1
  | take m => exact (hs.zombie hz).1

/-- The zombie waits until it is freed. -/
theorem Pending.step (h : Pending s) (hs : SchedInv B T s) (he : Effect T s e s') : Pending s' := by
  cases he with
  | create t k m => exact h.plain (plain_create t k) rfl rfl
  | yield hr ht => exact h.schedule hr ht
  | tick hr ht => exact h.schedule hr ht
  | exit hne n m₁ m =>
    obtain ⟨k, hk⟩ := hs.current_alive hne
    refine fun _ => ⟨[.turn n], k, s.trace, rfl, hk, fun hmem => ?_⟩
    cases List.mem_singleton.mp hmem
  | work m => exact h
  | take m => exact h

theorem pending_reachable (h : (sched B taskTrampoline).Reachable s) : (∃ T, SchedInv B T s) ∧ Pending s := by
  refine System.invariant (P := fun s => (∃ T, SchedInv B T s) ∧ Pending s) (fun s hs => ?_) ?_ h
  · obtain ⟨hT, _, hzombie⟩ := sched_init hs
    exact ⟨hT, fun hz => absurd hzombie hz⟩
  · rintro s e s' ⟨⟨T, hT⟩, hp⟩ hstep
    obtain ⟨T', h', heffect, _⟩ := hT.step hstep
    exact ⟨⟨T', h'⟩, hp.step hT heffect⟩

/-- No task exits while another one waits to be freed. -/
def OneAtATime (s : Scheduler) (e : SchedEvent) : Prop := ∀ rsp, e = .exit rsp → s.zombie = null

theorem accounted_reachable (h : ((sched B taskTrampoline).restrict OneAtATime).Reachable s) :
    ∃ T, SchedInv B T s ∧ Accounted T s := by
  refine System.invariant (P := fun s => ∃ T, SchedInv B T s ∧ Accounted T s) (fun s hs => ?_) ?_ h
  · obtain ⟨⟨T, hT⟩, htrace, _⟩ := sched_init (show (sched B taskTrampoline).init s from hs)
    refine ⟨T, hT, fun later t k earlier hsplit => ?_⟩
    rw [htrace] at hsplit
    exact absurd hsplit.symm (List.append_ne_nil_of_right_ne_nil _ (List.cons_ne_nil _ _))
  · rintro s e s' ⟨T, hT, hacc⟩ ⟨hone, hstep⟩
    obtain ⟨T', h', heffect, hbase⟩ := hT.step hstep
    exact ⟨T', h', (hacc.step hT heffect hone).congr fun hz => hbase _ (hT.zombie_task heffect hz)⟩

/-- An exit while another task waits loses that task. -/
theorem exit_leaks (h : (sched B taskTrampoline).Reachable s) {rsp : Nat}
    (hstep : (sched B taskTrampoline).step s (.exit rsp) s') (hz : s.zombie ≠ null) : ¬ NoLeak s' := by
  obtain ⟨⟨T, hT⟩, hp⟩ := pending_reachable h
  obtain ⟨_, _, heffect, _⟩ := hT.step hstep
  exact heffect.leaks hT hp hz

/-! ### Two tasks that exit one after the other -/

/-- The two tasks of `SchedInv.two_tasks` exit. -/
theorem SchedInv.two_exits (h : SchedInv B T s) {a b : Nat} (hcurrent : s.currentTask = b)
    (hts : s.head :: s.others = [s.head, b, a]) (taskTrampoline rsp rsp' : Nat) :
    ∃ s₁ s₂, SchedStep taskTrampoline s (.exit rsp) s₁ ∧ SchedStep taskTrampoline s₁ (.exit rsp') s₂ ∧
      s₁.zombie = b ∧ b ≠ null := by
  have hnodup := h.ring.nodup
  rw [hts] at hnodup
  have hhead : s.head ∉ [b, a] := (List.nodup_cons.mp hnodup).1
  have hne : s.currentTask ≠ s.head := by
    rw [hcurrent]
    exact fun heq => hhead (heq ▸ List.mem_cons_self)
  obtain ⟨T₁, m₁, m, hr, h₁⟩ := h.exit_next hne
    (show s.head :: s.others = [s.head] ++ s.currentTask :: a :: [] by rw [hts, hcurrent]; rfl) rsp
  have hne' : a ≠ s.head := fun heq => hhead (heq ▸ List.mem_cons_of_mem _ List.mem_cons_self)
  obtain ⟨_, _, _, hr', _⟩ := h₁.exit hne' rsp'
  exact ⟨_, _, .exit hne hr, .exit hne' hr', hcurrent,
    h.tasks.ne_null (h.member b (by rw [hts]; exact List.mem_cons_of_mem _ List.mem_cons_self))⟩

end Proofs

/-- The scheduler of a machine with 128 pages, its kernel linked high up. -/
def smallSched : System Scheduler SchedEvent :=
  sched (flatSched (n := 128) (by decide)).toHeapBoot 0xFFFFFFFF80001000

/-- Two tasks are created, the boot task yields, and the second task exits. -/
def oneExit : List SchedEvent :=
  [.create 0xFFFFFFFF80002000 0, .create 0xFFFFFFFF80002000 1, .yield 0xFFFFFFFF80010000, .exit 0]

/-- The first task can exit while the second one waits to be freed. -/
theorem smallSched_exits : ∃ s₀ s s', smallSched.init s₀ ∧ smallSched.Run s₀ oneExit s ∧
    (smallSched.restrict OneAtATime).Reachable s ∧ smallSched.step s (.exit 0) s' ∧ s.zombie ≠ null := by
  obtain ⟨T, s₀, hinit, h₀, htrace, hz, hleft⟩ := flatSched_start (n := 128) (by decide) (by decide)
    0xFFFFFFFF80001000
  obtain ⟨T', s₁, s₂, s₃, a, b, hs₁, hs₂, hs₃, h₃, hz₃, hcurrent, hts⟩ := h₀.two_tasks htrace hz (by omega)
    0xFFFFFFFF80001000 0xFFFFFFFF80002000 0xFFFFFFFF80010000
  obtain ⟨s₄, s₅, hs₄, hs₅, hz₄, hb⟩ := h₃.two_exits hcurrent hts 0xFFFFFFFF80001000 0 0
  refine ⟨s₀, s₄, s₅, hinit, .snoc (.snoc (.snoc (.snoc .nil hs₁) hs₂) hs₃) hs₄, ?_, hs₅, hz₄ ▸ hb⟩
  have h₁ : (smallSched.restrict OneAtATime).Reachable s₁ :=
    .step (.start hinit) ⟨fun _ heq => SchedEvent.noConfusion heq, hs₁⟩
  have h₂ : (smallSched.restrict OneAtATime).Reachable s₂ :=
    .step h₁ ⟨fun _ heq => SchedEvent.noConfusion heq, hs₂⟩
  have h₃ : (smallSched.restrict OneAtATime).Reachable s₃ :=
    .step h₂ ⟨fun _ heq => SchedEvent.noConfusion heq, hs₃⟩
  exact .step h₃ ⟨fun _ _ => hz₃, hs₄⟩

theorem exited_task_lost : ∃ s₀ s, smallSched.init s₀ ∧ smallSched.Run s₀ (oneExit ++ [.exit 0]) s ∧
    ¬ NoLeak s := by
  obtain ⟨s₀, s, s', hinit, hrun, _, hstep, hz⟩ := smallSched_exits
  exact ⟨s₀, s', hinit, .snoc hrun hstep, exit_leaks (hrun.reachable hinit) hstep hz⟩

/-- **Exited tasks are freed, or wait as the zombie**, in every state of every run in
which no task exits while another one waits; an exit while another one waits loses
the one that waits. -/
theorem exited_tasks_freed (B : HeapBoot) (taskTrampoline : Nat) :
    (∀ s, ((sched B taskTrampoline).restrict OneAtATime).Reachable s → NoLeak s) ∧
    ∀ s rsp s', (sched B taskTrampoline).Reachable s → (sched B taskTrampoline).step s (.exit rsp) s' →
      s.zombie ≠ null → ¬ NoLeak s' := by
  refine ⟨fun s h => ?_, fun s rsp s' h hstep hz => exit_leaks h hstep hz⟩
  obtain ⟨T, _, hacc⟩ := accounted_reachable h
  exact hacc.noLeak

theorem exited_tasks_freed_smallSched : ∃ s s', smallSched.step s (.exit 0) s' ∧ NoLeak s ∧ ¬ NoLeak s' := by
  obtain ⟨_, s, s', _, _, hreach, hstep, hz⟩ := smallSched_exits
  obtain ⟨hkept, hlost⟩ := exited_tasks_freed (flatSched (n := 128) (by decide)).toHeapBoot 0xFFFFFFFF80001000
  exact ⟨s, s', hstep, hkept s hreach, hlost s 0 s' (System.restrict_reachable hreach) hstep hz⟩

end ArcMonark.Sched
