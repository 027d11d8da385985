import ArcMonark.Sched.SchedZombie
import ArcMonark.Library.Rounds

/-! Whose turn it is.

The circular list, read from behind the current task, is a line: the task in front
is next, the current one stands at the back. `schedule` gives the first its turn,
`task_create` lets a task into the line and `task_exit` takes one out of it. So
between two turns of a task every other one has one turn (`bounded_overtaking`). -/
namespace ArcMonark.Sched
open Library Mm
open Heap (HeapBoot)

/-- The tasks on the list in the order of their next turns. -/
def Lined (s : Scheduler) (line : List Nat) : Prop :=
  ∃ as bs, s.head :: s.others = as ++ s.currentTask :: bs ∧ line = bs ++ as ++ [s.currentTask]

/-- What an act does to the line. -/
def Act.moves : Act → List (Move Nat)
  | .create t _ => [.join t]
  | .turn t => [.turn t]
  | .exit t => [.leave t]
  | .free _ => []

/-- The moves behind some acts, the earliest first. -/
def moves (acts : List Act) : List (Move Nat) := acts.reverse.flatMap Act.moves

theorem moves_cons (a : Act) (acts : List Act) : moves (a :: acts) = moves acts ++ a.moves := by
  simp [moves]

theorem moves_append (acts acts' : List Act) : moves (acts ++ acts') = moves acts' ++ moves acts := by
  simp [moves]

/-- A move that one act makes, and no other. -/
theorem mem_moves {acts : List Act} {m : Move Nat} {a : Act} (hm : ∀ a', m ∈ a'.moves ↔ a' = a) :
    m ∈ moves acts ↔ a ∈ acts := by
  simp only [moves, List.mem_flatMap, List.mem_reverse]
  constructor
  · rintro ⟨a', ha, hmem⟩
    exact (hm a').mp hmem ▸ ha
  · exact fun ha => ⟨a, ha, (hm a).mpr rfl⟩

theorem mem_moves_turn {acts : List Act} {t : Nat} : .turn t ∈ moves acts ↔ .turn t ∈ acts :=
  mem_moves fun a => by cases a <;> simp [Act.moves, eq_comm]

theorem mem_moves_leave {acts : List Act} {t : Nat} : .leave t ∈ moves acts ↔ .exit t ∈ acts :=
  mem_moves fun a => by cases a <;> simp [Act.moves, eq_comm]

theorem count_moves_turn (acts : List Act) (t : Nat) :
    (moves acts).count (.turn t) = acts.count (.turn t) := by
  induction acts with
  | nil => rfl
  | cons a acts ih =>
    rw [moves_cons, List.count_append, ih, List.count_cons]
    congr 1
    cases a <;> simp [Act.moves, List.count_singleton]

section Turns
variable {B : HeapBoot} {T : Nat → Task} {s s' : Scheduler} {taskTrampoline : Nat} {e : SchedEvent}
  {line : List Nat}

theorem SchedInv.lined (h : SchedInv B T s) : ∃ line, Lined s line := by
  obtain ⟨as, bs, hsplit⟩ := List.append_of_mem h.current
  exact ⟨_, as, bs, hsplit, rfl⟩

/-- The line holds the tasks on the list. -/
theorem Lined.perm (h : Lined s line) : line.Perm (s.head :: s.others) := by
  obtain ⟨as, bs, hsplit, rfl⟩ := h
  rw [hsplit, List.append_assoc]
  refine List.perm_append_comm.trans ?_
  rw [List.append_assoc]
  exact .refl _

/-! ### The moves of a step -/

/-- A turn: the task in front of the line is the one behind the current task on the
list, and goes to the back. -/
theorem Lined.turn (h : Lined s line) (hr : Ring (fun t => (T t).next) s.head s.others)
    (hne : (T s.currentTask).next ≠ s.currentTask) (m : Machine) :
    ∃ line', Lined (s.turnTo (T s.currentTask).next m) line' ∧
      MoveStep line (.turn (T s.currentTask).next) line' := by
  obtain ⟨as, bs, hsplit, rfl⟩ := h
  have hnext : (T s.currentTask).next = bs.headD s.head := hr.next_eq hsplit
  cases bs with
  | nil =>
    change (T s.currentTask).next = s.head at hnext
    rw [hnext] at hne ⊢
    cases as with
    | nil => exact absurd (List.cons.inj hsplit).1 hne
    | cons a as =>
      obtain ⟨rfl, hothers⟩ := List.cons.inj hsplit
      refine ⟨_, ⟨[], as ++ [s.currentTask], congrArg (_ :: ·) hothers, rfl⟩, ?_⟩
      simpa using @MoveStep.turn _ (as ++ [s.currentTask]) s.head
  | cons b bs =>
    change (T s.currentTask).next = b at hnext
    rw [hnext]
    refine ⟨_, ⟨as ++ [s.currentTask], bs, hsplit.trans (by simp [Scheduler.turnTo]), rfl⟩, ?_⟩
    rw [← List.append_assoc bs]
    exact MoveStep.turn

/-- A new task joins the line behind the boot task. -/
theorem Lined.create (h : Lined s line) {t k : Nat} {m : Machine}
    (hnodup : (s.head :: (s.created t k m).others).Nodup) :
    ∃ line', Lined (s.created t k m) line' ∧ MoveStep line (.join t) line' := by
  have hothers : (s.created t k m).others = t :: s.others := rfl
  rw [hothers] at hnodup
  have ht : t ∉ line := fun hmem => by
    have htlist : t ∈ s.head :: s.others := h.perm.mem_iff.mp hmem
    exact (List.nodup_cons.mp ((List.Perm.swap t s.head s.others).nodup_iff.mp hnodup)).1 htlist
  obtain ⟨as, bs, hsplit, rfl⟩ := h
  cases as with
  | nil =>
    obtain ⟨hhead, rfl⟩ := List.cons.inj hsplit
    refine ⟨t :: s.others ++ [] ++ [s.currentTask], ⟨[], t :: s.others, ?_, rfl⟩, ?_⟩
    · exact congrArg (· :: t :: s.others) hhead
    · exact @MoveStep.join _ [] _ _ (by simpa using ht)
  | cons a as =>
    obtain ⟨rfl, hrest⟩ := List.cons.inj hsplit
    refine ⟨bs ++ (s.head :: t :: as) ++ [s.currentTask], ⟨s.head :: t :: as, bs, ?_, rfl⟩, ?_⟩
    · exact congrArg (s.head :: t :: ·) hrest
    · have hjoin := @MoveStep.join _ (bs ++ [s.head]) (as ++ [s.currentTask]) t (by simpa using ht)
      simpa using hjoin

/-- The exiting task leaves the line from the back, and the first one has its turn. -/
theorem Lined.exit (h : Lined s line) (hr : Ring (fun t => (T t).next) s.head s.others)
    (hne : s.currentTask ≠ s.head) (m₁ m : Machine) :
    ∃ line₁ line', Lined ((s.leaving m₁).turnTo (T s.currentTask).next m) line' ∧
      MoveStep line (.leave s.currentTask) line₁ ∧ MoveStep line₁ (.turn (T s.currentTask).next) line' := by
  obtain ⟨as, bs, hsplit, rfl⟩ := h
  have hnext : (T s.currentTask).next = bs.headD s.head := hr.next_eq hsplit
  have hnodup := hr.nodup
  have hlist : ((s.leaving m₁).turnTo (T s.currentTask).next m).others =
      s.others.filter fun u => decide (u ≠ s.currentTask) := others_exit s.trace s.currentTask
  cases as with
  | nil => exact absurd (List.cons.inj hsplit).1.symm hne
  | cons a as =>
    obtain ⟨rfl, hrest⟩ := List.cons.inj hsplit
    change s.others = as ++ s.currentTask :: bs at hrest
    rw [hrest] at hnodup
    rw [hrest, filter_ne hnodup.of_cons] at hlist
    refine ⟨bs ++ s.head :: as, ?_⟩
    have hleave : MoveStep (bs ++ s.head :: as ++ [s.currentTask]) (.leave s.currentTask) (bs ++ s.head :: as) := by
      simpa using @MoveStep.leave _ (bs ++ s.head :: as) [] s.currentTask
    cases bs with
    | nil =>
      change (T s.currentTask).next = s.head at hnext
      rw [hnext] at hlist ⊢
      refine ⟨_, ⟨[], as, ?_, rfl⟩, hleave, by simpa using MoveStep.turn⟩
      rw [hlist, List.append_nil]
      rfl
    | cons b bs =>
      change (T s.currentTask).next = b at hnext
      rw [hnext] at hlist ⊢
      refine ⟨_, ⟨s.head :: as, bs, ?_, rfl⟩, hleave, ?_⟩
      · rw [hlist]
        rfl
      · simpa using @MoveStep.turn _ (bs ++ s.head :: as) b

/-- `task_exit` hands over to the task behind the current one. -/
theorem SchedInv.exit_eq (h : SchedInv B T s) {rsp : Nat} (hs : SchedStep taskTrampoline s (.exit rsp) s') :
    s.currentTask ≠ s.head ∧ ∃ m₁ m, s' = (s.leaving m₁).turnTo (T s.currentTask).next m := by
  cases hs with
  | exit hne hr =>
    obtain ⟨_, m₁, m, hok, _⟩ := h.exit hne rsp
    cases hok.symm.trans hr
    exact ⟨hne, m₁, m, rfl⟩

/-- Freeing a zombie moves no one. -/
theorem Lined.reaped (h : Lined s line) (k : Nat) (m : Machine) : Lined (s.reaped k m) line := h

/-- `schedule` gives the first one its turn, if there is anyone but the current task. -/
theorem Lined.schedule (h : Lined s line) (hr : Ring (fun t => (T t).next) s.head s.others) {s₁ : Scheduler}
    (hreaped : Reaped T s s₁) (hturned : Turned T s₁ s') :
    ∃ acts line', s'.trace = acts ++ s.trace ∧ Lined s' line' ∧ (rounds Nat).Run line (moves acts) line' := by
  obtain ⟨frees, hframes, hmoves, h₁, hr₁⟩ : ∃ frees, s₁.trace = frees ++ s.trace ∧ moves frees = [] ∧
      Lined s₁ line ∧ Ring (fun t => (T t).next) s₁.head s₁.others := by
    rcases hreaped with ⟨_, rfl⟩ | ⟨_, m, rfl⟩
    · exact ⟨[], rfl, rfl, h, hr⟩
    · exact ⟨[.free _, .free _], rfl, rfl, h.reaped _ m, hr⟩
  rcases hturned with ⟨_, rfl⟩ | ⟨hne, m, rfl⟩
  · exact ⟨frees, line, hframes, h₁, by rw [hmoves]; exact .nil⟩
  · obtain ⟨line', hlined, hstep⟩ := h₁.turn hr₁ hne m
    refine ⟨.turn _ :: frees, line', congrArg (_ :: ·) hframes, hlined, ?_⟩
    rw [moves_cons, hmoves]
    exact .snoc .nil hstep

/-- **A step of the scheduler moves the line.** -/
theorem SchedInv.moves (h : SchedInv B T s) (hl : Lined s line) (hs : SchedStep taskTrampoline s e s') :
    ∃ acts line', s'.trace = acts ++ s.trace ∧ Lined s' line' ∧ (rounds Nat).Run line (moves acts) line' := by
  obtain ⟨T', h', heffect, _⟩ := h.step hs
  cases heffect with
  | create t k m =>
    obtain ⟨line', hlined, hstep⟩ := hl.create (t := t) (k := k) (m := m) h'.ring.nodup
    exact ⟨[.create t k], line', rfl, hlined, .snoc .nil hstep⟩
  | yield hr ht => exact hl.schedule h.ring hr ht
  | tick hr ht => exact hl.schedule h.ring hr ht
  | exit hne n m₁ m =>
    obtain ⟨_, m₁', m', heq⟩ := h.exit_eq hs
    rw [heq]
    obtain ⟨line₁, line', hlined, hleave, hturn⟩ := hl.exit h.ring hne m₁' m'
    exact ⟨[.turn _, .exit s.currentTask], line', rfl, hlined, .snoc (.snoc .nil hleave) hturn⟩
  | work m => exact ⟨[], line, rfl, hl, .nil⟩
  | take m => exact ⟨[], line, rfl, hl, .nil⟩

/-- So does a run. -/
theorem moves_run {es : List SchedEvent} (h : (sched B taskTrampoline).Reachable s) (hl : Lined s line)
    (hrun : (sched B taskTrampoline).Run s es s') :
    ∃ acts line', s'.trace = acts ++ s.trace ∧ Lined s' line' ∧ (rounds Nat).Run line (moves acts) line' ∧
      (sched B taskTrampoline).Reachable s' := by
  induction hrun with
  | nil => exact ⟨[], line, rfl, hl, .nil, h⟩
  | snoc _ hs ih =>
    obtain ⟨acts, line₁, htrace, hl₁, hmoves, hreach⟩ := ih
    obtain ⟨T, hT⟩ := sched_reachable hreach
    obtain ⟨acts', line', htrace', hl', hmoves'⟩ := hT.moves hl₁ hs
    refine ⟨acts' ++ acts, line', ?_, hl', ?_, .step hreach hs⟩
    · rw [htrace', htrace, List.append_assoc]
    · rw [moves_append]
      exact hmoves.append hmoves'

/-! ### The latest turn -/

/-- Whoever had its turn last is the current task. -/
def Latest (s : Scheduler) : Prop := ∀ u, s.trace.head? = some (.turn u) → s.currentTask = u

theorem Latest.step (h : Latest s) (he : Effect T s e s') : Latest s' := by
  have hsched : ∀ s₁, Reaped T s s₁ → Turned T s₁ s' → Latest s' := by
    intro s₁ hr ht u hu
    rcases ht with ⟨_, rfl⟩ | ⟨_, m, rfl⟩
    · rcases hr with ⟨_, rfl⟩ | ⟨_, m, rfl⟩
      · exact h u hu
      · cases hu
    · cases hu
      rfl
  cases he with
  | create t k m => nofun
  | yield hr ht => exact hsched _ hr ht
  | tick hr ht => exact hsched _ hr ht
  | exit hne n m₁ m =>
    intro u hu
    cases hu
    rfl
  | work m => exact h
  | take m => exact h

theorem latest_reachable (h : (sched B taskTrampoline).Reachable s) : Latest s := by
  refine (System.invariant (P := fun s => (∃ T, SchedInv B T s) ∧ Latest s) (fun s hs => ?_) ?_ h).2
  · obtain ⟨hT, htrace, _⟩ := sched_init hs
    refine ⟨hT, fun u hu => ?_⟩
    rw [htrace] at hu
    cases hu
  · rintro s e s' ⟨⟨T, hT⟩, hlatest⟩ hstep
    obtain ⟨T', h', heffect, _⟩ := hT.step hstep
    exact ⟨⟨T', h'⟩, hlatest.step heffect⟩

/-- From the last task on the list, `schedule` turns to the boot task. -/
theorem SchedInv.schedule_wraps (h : SchedInv B T s) (hz : s.zombie = null) {as : List Nat}
    (hts : s.head :: s.others = as ++ [s.currentTask]) (hne : s.head ≠ s.currentTask) (rsp : Nat) :
    ∃ T' m, Sched.schedule s rsp = .ok (s.turnTo s.head m) ∧ SchedInv B T' (s.turnTo s.head m) :=
  h.schedule_turns hz (h.ring.next_eq hts) hne rsp

/-- Two tasks that take turns: the second one has its turn, then the boot task, then
the second one again. -/
theorem SchedInv.two_turns (h : SchedInv B T s) (htrace : s.trace = []) (hz : s.zombie = null)
    (hfree : 24 ≤ s.freeFrames) (taskTrampoline rsp : Nat) :
    ∃ T' s₁ s₂ s₃ s₄ t, SchedStep taskTrampoline s (.create 0 0) s₁ ∧
      SchedStep taskTrampoline s₁ (.yield rsp) s₂ ∧ SchedStep taskTrampoline s₂ (.yield rsp) s₃ ∧
      SchedStep taskTrampoline s₃ (.yield rsp) s₄ ∧ SchedInv B T' s₂ ∧ s₂.head :: s₂.others = [s₂.head, t] ∧
      t ≠ s₂.head ∧ s₂.trace.head? = some (.turn t) ∧ s₄.trace = .turn t :: [.turn s₂.head] ++ s₂.trace := by
  have hcurrent : s.currentTask = s.head := by
    have hmem := h.current
    rw [Scheduler.others, htrace] at hmem
    exact List.mem_singleton.mp hmem
  obtain ⟨T₁, t, k, m₁, hr₁, h₁, _⟩ := h.create_serves hfree taskTrampoline 0 0
  have hlist : s.head :: (s.created t k m₁).others = [s.head, t] := by
    show s.head :: (alive (.create t k :: s.trace)).map Prod.fst = _
    rw [htrace]
    rfl
  have hne : t ≠ s.head := by
    have hnodup := h₁.ring.nodup
    rw [show (s.created t k m₁).others = [t] from (List.cons.inj hlist).2] at hnodup
    exact fun heq => (List.nodup_cons.mp hnodup).1 (List.mem_singleton.mpr heq.symm)
  have hfront : s.head :: (s.created t k m₁).others = [] ++ s.currentTask :: t :: [] := by
    rw [hlist, hcurrent]
    rfl
  obtain ⟨T₂, m₂, hr₂, h₂⟩ := h₁.schedule_next hz hfront rsp
  obtain ⟨T₃, m₃, hr₃, h₃⟩ := h₂.schedule_wraps hz (show _ = [s.head] ++ [t] from hlist) (Ne.symm hne) rsp
  obtain ⟨T₄, m₄, hr₄, _⟩ := h₃.schedule_next hz (show _ = [] ++ s.head :: t :: [] from hlist) rsp
  exact ⟨T₂, _, _, _, _, t, .create hr₁, .yield hr₂, .yield hr₃, .yield hr₄, h₂, hlist, hne, rfl, rfl⟩

end Turns

/-- **Bounded overtaking.** Between two turns of a task, with none in between, every
other task that was on the list at the first and does not exit before the second has
exactly one turn. -/
theorem bounded_overtaking (B : HeapBoot) (taskTrampoline : Nat) {s₁ s₂ : Scheduler} {es : List SchedEvent}
    {u v : Nat} {ts : List Nat} {between : List Act} (h : (sched B taskTrampoline).Reachable s₁)
    (hrun : (sched B taskTrampoline).Run s₁ es s₂) (hfirst : s₁.trace.head? = some (.turn u))
    (hsecond : s₂.trace = .turn u :: between ++ s₁.trace) (hconsecutive : .turn u ∉ between)
    (hsame : .exit u ∉ between) (hts : tasks s₁ = .ok ts) (hv : v ∈ ts) (hne : v ≠ u)
    (hstays : .exit v ∉ between) : between.count (.turn v) = 1 := by
  obtain ⟨T, hT⟩ := sched_reachable h
  obtain ⟨line, hline⟩ := hT.lined
  obtain ⟨acts, line₂, htrace, _, hmoves, _⟩ := moves_run h hline hrun
  cases List.append_cancel_right (htrace.symm.trans hsecond)
  rw [moves_cons] at hmoves
  obtain ⟨line₁, hbetween, hlast⟩ := hmoves.last
  have hcurrent : s₁.currentTask = u := latest_reachable h u hfirst
  have hnodup := hline.perm.nodup_iff.mpr hT.ring.nodup
  have hmem : v ∈ line := hline.perm.mem_iff.mpr (Except.ok.inj (hT.tasks_eq.symm.trans hts) ▸ hv)
  obtain ⟨as, bs, _, rfl⟩ := hline
  rw [hcurrent] at hbetween hnodup hmem
  cases hlast with
  | turn =>
    rw [← count_moves_turn]
    refine turns_once hbetween hnodup ?_ (mt mem_moves_turn.mp hconsecutive) (mt mem_moves_leave.mp hsame)
      (mt mem_moves_leave.mp hstays)
    exact (List.mem_append.mp hmem).resolve_right fun hmem => hne (List.mem_singleton.mp hmem)

theorem bounded_overtaking_smallSched : ∃ (s₁ s₂ : Scheduler) (t : Nat) (between : List Act),
    smallSched.Run s₁ [.yield 0, .yield 0] s₂ ∧ s₂.trace = .turn t :: between ++ s₁.trace ∧ t ≠ s₁.head ∧
    between.count (.turn s₁.head) = 1 := by
  obtain ⟨T, s₀, hinit, h₀, htrace, hz, hleft⟩ := flatSched_start (n := 128) (by decide) (by decide)
    0xFFFFFFFF80001000
  obtain ⟨T', s₁, s₂, s₃, s₄, t, hs₁, hs₂, hs₃, hs₄, h₂, hlist, hne, hfirst, hsecond⟩ :=
    h₀.two_turns htrace hz (by omega) 0xFFFFFFFF80001000 0
  have hrun : smallSched.Run s₂ [.yield 0, .yield 0] s₄ := .snoc (.snoc .nil hs₃) hs₄
  have hts : tasks s₂ = .ok [s₂.head, t] := h₂.tasks_eq.trans (congrArg _ hlist)
  refine ⟨s₂, s₄, t, [.turn s₂.head], hrun, hsecond, hne, ?_⟩
  exact bounded_overtaking _ _ (.step (.step (.start hinit) hs₁) hs₂) hrun hfirst hsecond
    (fun hmem => hne (Act.turn.inj (List.mem_singleton.mp hmem))) (fun hmem => nomatch List.mem_singleton.mp hmem)
    hts List.mem_cons_self (Ne.symm hne) fun hmem => nomatch List.mem_singleton.mp hmem

end ArcMonark.Sched
