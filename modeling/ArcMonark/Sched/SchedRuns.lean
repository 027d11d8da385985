import ArcMonark.Sched.SchedProofs
import ArcMonark.Library.Runs

/-! What holds of the scheduler in every state of every run.

A run begins with `sched_init` on any heap and calls the scheduler in any order;
between the calls the current task uses its stack. The circular list is whole
between the calls (`scheduler_ring`). An exited task is freed, or waits as the
zombie, as long as no task exits while another one waits (`exited_tasks_freed`). -/
namespace ArcMonark.Sched
open Library Mm
open Heap (HeapBoot HeapRun Client heap flatHeap)

/-! ### Steps -/

/-- A call of the scheduler, or what goes on between its calls. -/
inductive SchedEvent where
  | create (entry arg : Nat)
  | yield (rsp : Nat)
  | tick (rsp : Nat)
  | exit (rsp : Nat)
  /-- The current task writes to its stack. -/
  | work (i n x : Nat)
  /-- Another part of the kernel takes a frame. -/
  | take

/-- What each may do; every task but the boot task may exit. -/
inductive SchedStep (taskTrampoline : Nat) (s : Scheduler) : SchedEvent → Scheduler → Prop where
  | create {entry arg t s'} (hr : taskCreate taskTrampoline s entry arg = .ok (t, s')) :
      SchedStep taskTrampoline s (.create entry arg) s'
  | yield {rsp s'} (hr : taskYield s rsp = .ok s') : SchedStep taskTrampoline s (.yield rsp) s'
  | tick {rsp s'} (hr : schedTick s rsp = .ok s') : SchedStep taskTrampoline s (.tick rsp) s'
  | exit {rsp s'} (hne : s.currentTask ≠ s.head) (hr : taskExit s rsp = .ok s') :
      SchedStep taskTrampoline s (.exit rsp) s'
  | work {k i n x m} (hk : getStackBase s s.currentTask = .ok k) (hne : k ≠ null) (hi : i + n ≤ kstackSize)
      (hr : Virtual.writeBytes s.machine (add64 k i) n x = .ok m) :
      SchedStep taskTrampoline s (.work i n x) (s.withMachine m)
  | take : SchedStep taskTrampoline s .take (s.withMachine (Pmm.pmmAllocFrame s.machine).2)

/-- The scheduler on the heap of a machine. -/
def sched (B : HeapBoot) (taskTrampoline : Nat) : System Scheduler SchedEvent where
  init s := ∃ w, (heap B).Reachable w ∧ schedInit (.fresh w) = .ok s
  step := SchedStep taskTrampoline

/-- The scheduler after a step; `T` is the table before it. -/
inductive Effect (T : Nat → Task) (s : Scheduler) : SchedEvent → Scheduler → Prop where
  | create {entry arg} (t k : Nat) (m : Machine) : Effect T s (.create entry arg) (s.created t k m)
  | yield {rsp s₁ s'} (hr : Reaped T s s₁) (ht : Turned T s₁ s') : Effect T s (.yield rsp) s'
  | tick {rsp s₁ s'} (hr : Reaped T s s₁) (ht : Turned T s₁ s') : Effect T s (.tick rsp) s'
  | exit {rsp} (hne : s.currentTask ≠ s.head) (n : Nat) (m₁ m : Machine) :
      Effect T s (.exit rsp) ((s.leaving m₁).turnTo n m)
  | work {i n x} (m : Machine) : Effect T s (.work i n x) (s.withMachine m)
  | take (m : Machine) : Effect T s .take (s.withMachine m)

section Steps
variable {B : HeapBoot} {T : Nat → Task} {s s' : Scheduler} {taskTrampoline : Nat} {e : SchedEvent}

/-- A change to the machine that no task notices. -/
theorem SchedInv.withMachine (h : SchedInv B T s) {m : Machine} (hm : Tasks B T (s.withMachine m)) :
    SchedInv B T (s.withMachine m) :=
  ⟨hm, h.ring, h.member, h.current, h.state, h.stack, h.distinct, h.zombie, h.boot⟩

/-- A stack that is not null is the stack of a created task. -/
theorem SchedInv.own_stack (h : SchedInv B T s) (hne : (T s.currentTask).base ≠ null) :
    s.IsStack (T s.currentTask).base := by
  have hcur : s.currentTask ≠ s.head := fun heq => hne (by rw [heq, h.boot])
  obtain ⟨k, hk⟩ := h.current_alive hcur
  obtain ⟨hbase, hstack⟩ := h.stack _ k hk
  rw [hbase]
  exact hstack

theorem Tasks.take (h : Tasks B T s) : Tasks B T (s.withMachine (Pmm.pmmAllocFrame s.machine).2) := by
  obtain ⟨V, hV, hT⟩ := h
  obtain ⟨V', hV', hsame⟩ := hV.take
  refine ⟨V', hV', fun t ht => ?_⟩
  rw [← hT t ht]
  exact taskAt_congr fun i hi => hsame t sizeofTask ht i hi

/-- **Every step keeps the invariant.** -/
theorem SchedInv.step (h : SchedInv B T s) (hs : SchedStep taskTrampoline s e s') :
    ∃ T', SchedInv B T' s' ∧ Effect T s e s' ∧ ∀ t, s.IsTask t → (T' t).base = (T t).base := by
  cases hs with
  | create hr =>
    obtain ⟨s₁, k, s₂, hr₁, ht, hr₂, hk⟩ := h.create_served hr
    obtain ⟨T', m, hok, h', _, hbase⟩ := h.create hr₁ ht hr₂ hk taskTrampoline _ _
    cases hok.symm.trans hr
    exact ⟨T', h', .create _ _ m, hbase⟩
  | @yield rsp _ hr =>
    obtain ⟨T', s₁, _, hok, hreaped, hturned, h', hbase⟩ := h.schedule rsp
    cases hok.symm.trans hr
    exact ⟨T', h', .yield hreaped hturned, fun t _ => hbase t⟩
  | @tick rsp _ hr =>
    obtain ⟨T', s₁, _, hok, hreaped, hturned, h', hbase⟩ := h.schedule rsp
    cases hok.symm.trans hr
    exact ⟨T', h', .tick hreaped hturned, fun t _ => hbase t⟩
  | @exit rsp _ hne hr =>
    obtain ⟨T', m₁, m, hok, h', hbase⟩ := h.exit hne rsp
    cases hok.symm.trans hr
    exact ⟨T', h', .exit hne _ m₁ m, fun t _ => hbase t⟩
  | @work k i n x m hk hne hi hr =>
    have hbase := (h.tasks.getStackBase (h.member _ h.current)).symm.trans hk
    cases hbase
    obtain ⟨m', hok, h'⟩ := h.tasks.writeStack (h.own_stack hne) hi x
    cases hok.symm.trans hr
    exact ⟨T, h.withMachine h', .work m, fun _ _ => rfl⟩
  | take => exact ⟨T, h.withMachine h.tasks.take, .take _, fun _ _ => rfl⟩

/-- It holds after `sched_init`, with no task created and no zombie. -/
theorem sched_init (hi : (sched B taskTrampoline).init s) :
    (∃ T, SchedInv B T s) ∧ s.trace = [] ∧ s.zombie = null := by
  obtain ⟨w, hw, hr⟩ := hi
  obtain ⟨V, hV⟩ := Heap.client_reachable hw
  obtain ⟨boot, s₁, hr₁, hboot⟩ := schedInit_served hV hr
  obtain ⟨T, s', hok, h', htrace, hzombie⟩ := schedInit_ok hV hr₁ hboot
  cases hok.symm.trans hr
  exact ⟨⟨T, h'⟩, htrace, hzombie⟩

/-- It holds in every reachable state. -/
theorem sched_reachable (h : (sched B taskTrampoline).Reachable s) : ∃ T, SchedInv B T s := by
  refine System.invariant (P := fun s => ∃ T, SchedInv B T s) (fun s hs => (sched_init hs).1) ?_ h
  rintro s e s' ⟨T, hs⟩ hstep
  obtain ⟨T', h', _⟩ := hs.step hstep
  exact ⟨T', h'⟩

/-! ### The tasks that remain -/

/-- The tasks a run has made and not ended, by its own calls: `task_create` adds what it returns,
and `task_exit` drops the task that calls it. -/
def remaining (taskTrampoline : Nat) (s : Scheduler) (ts : List Nat) : SchedEvent → List Nat
  | .create entry arg =>
    match taskCreate taskTrampoline s entry arg with
    | .ok (t, _) => t :: ts
    | .error _ => ts
  | .exit _ => ts.filter fun t => decide (t ≠ s.currentTask)
  | .yield _ | .tick _ | .work _ _ _ | .take => ts

/-- The same runs, with those tasks. -/
def tallied (B : HeapBoot) (taskTrampoline : Nat) : System (Scheduler × List Nat) SchedEvent where
  init p := (sched B taskTrampoline).init p.1 ∧ p.2 = []
  step p e p' := SchedStep taskTrampoline p.1 e p'.1 ∧ p'.2 = remaining taskTrampoline p.1 p.2 e

/-- `schedule` makes no task and ends none. -/
theorem others_scheduled {s₁ : Scheduler} (hr : Reaped T s s₁) (ht : Turned T s₁ s') : s'.others = s.others := by
  have hreaped : s₁.others = s.others := by
    rcases hr with ⟨_, rfl⟩ | ⟨_, m, rfl⟩
    · rfl
    · rfl
  rw [← hreaped]
  rcases ht with ⟨_, rfl⟩ | ⟨_, m, rfl⟩
  · rfl
  · rfl

theorem SchedInv.others_step (h : SchedInv B T s) (hs : SchedStep taskTrampoline s e s') :
    s'.others = remaining taskTrampoline s s.others e := by
  obtain ⟨_, _, heffect, _⟩ := h.step hs
  cases hs with
  | @create entry arg t _ hr =>
    obtain ⟨s₁, k, s₂, hr₁, ht, hr₂, hk⟩ := h.create_served hr
    obtain ⟨_, m, hok, _⟩ := h.create hr₁ ht hr₂ hk taskTrampoline entry arg
    cases hok.symm.trans hr
    rw [remaining, hr]
    rfl
  | yield _ =>
    cases heffect with
    | yield hreaped hturned => exact others_scheduled hreaped hturned
  | tick _ =>
    cases heffect with
    | tick hreaped hturned => exact others_scheduled hreaped hturned
  | exit _ _ =>
    cases heffect with
    | exit _ n m₁ m => exact others_exit s.trace s.currentTask
  | work _ _ _ _ => rfl
  | take => rfl

/-- `others` are the tasks the calls of the run leave, the newest first. -/
theorem others_tallied {p : Scheduler × List Nat} (h : (tallied B taskTrampoline).Reachable p) :
    p.1.others = p.2 ∧ (sched B taskTrampoline).Reachable p.1 := by
  induction h with
  | start hinit =>
    obtain ⟨_, htrace, _⟩ := sched_init hinit.1
    rw [Scheduler.others, htrace, hinit.2]
    exact ⟨rfl, .start hinit.1⟩
  | step _ hs ih =>
    obtain ⟨T, hT⟩ := sched_reachable ih.2
    rw [hT.others_step hs.1, ih.1, hs.2]
    exact ⟨rfl, ih.2.step hs.1⟩

/-- Every run can be tallied. -/
theorem tallied_reachable (h : (sched B taskTrampoline).Reachable s) :
    (tallied B taskTrampoline).Reachable (s, s.others) := by
  induction h with
  | start hinit =>
    obtain ⟨_, htrace, _⟩ := sched_init hinit
    exact .start ⟨hinit, by rw [Scheduler.others, htrace]; rfl⟩
  | step hreach hs ih =>
    obtain ⟨T, hT⟩ := sched_reachable hreach
    exact ih.step ⟨hs, hT.others_step hs⟩

/-! ### The list as it stands in memory -/

/-- The tasks from `t` on, following `next` until it comes back to the first. -/
def tasksFrom (s : Scheduler) : (fuel t : Nat) → Except Fault (List Nat)
  | 0, _ => .error .diverge
  | fuel + 1, t => do
    let next ← getNext s t
    if next = s.head then return [t] else return t :: (← tasksFrom s fuel next)

/-- The circular list. -/
def tasks (s : Scheduler) : Except Fault (List Nat) := tasksFrom s Heap.endless s.head

theorem SchedInv.tasksFrom (h : SchedInv B T s) {as bs : List Nat} {b fuel : Nat}
    (hts : s.head :: s.others = as ++ b :: bs) (hfuel : bs.length < fuel) :
    tasksFrom s fuel b = .ok (b :: bs) := by
  induction bs generalizing as b fuel with
  | nil =>
    obtain ⟨fuel, rfl⟩ := Nat.exists_eq_succ_of_ne_zero (Nat.ne_zero_of_lt hfuel)
    have hb : b ∈ s.head :: s.others := hts ▸ List.mem_append_cons_self
    have hnext : (T b).next = s.head := h.ring.next_eq hts
    rw [Sched.tasksFrom, h.tasks.getNext (h.member b hb), ok_bind, if_pos hnext]
    rfl
  | cons c bs ih =>
    obtain ⟨fuel, rfl⟩ := Nat.exists_eq_succ_of_ne_zero (Nat.ne_zero_of_lt hfuel)
    have hb : b ∈ s.head :: s.others := hts ▸ List.mem_append_cons_self
    have hnext : (T b).next = c := h.ring.next_eq hts
    have hrest := ih (show s.head :: s.others = (as ++ [b]) ++ c :: bs by rw [hts, List.append_assoc]; rfl)
      (show bs.length < fuel by rw [List.length_cons] at hfuel; omega)
    rw [Sched.tasksFrom, h.tasks.getNext (h.member b hb), ok_bind, hnext, if_neg (h.ring.ne_first hts), hrest]
    rfl

/-- The list holds the boot task and the tasks that were created and have not exited. -/
theorem SchedInv.tasks_eq (h : SchedInv B T s) : Sched.tasks s = .ok (s.head :: s.others) := by
  have hlen := h.tasks.length_le h.ring.nodup h.member
  rw [List.length_cons] at hlen
  exact h.tasksFrom (show s.head :: s.others = [] ++ s.head :: s.others from rfl) (by omega)

/-- `list_remove` comes to an end for any task on the list. -/
theorem SchedInv.listRemove (h : SchedInv B T s) {t : Nat} (ht : t ∈ s.head :: s.others) :
    ∃ s', listRemove s t = .ok s' := by
  have htask := h.member t ht
  obtain ⟨p, hp, _, hfind⟩ := h.tasks.findBefore h.ring h.member ht
  obtain ⟨m, hr, _⟩ := h.tasks.setNext (h.member p hp) (h.tasks.lt (h.member _ (h.next_mem ht)))
  refine ⟨s.withMachine m, ?_⟩
  simp only [Sched.listRemove, h.tasks.getNext htask, ok_bind, hfind]
  exact hr

/-- The state of a task on the list tells whether it is the current one. -/
theorem SchedInv.stateIs (h : SchedInv B T s) {t : Nat} (ht : t ∈ s.head :: s.others) (state : TaskState) :
    stateIs s t state = .ok (decide (state = stateUnder s.currentTask t)) := by
  have hcode : ∀ a b : TaskState, a.code = b.code → a = b := by
    intro a b heq
    cases a <;> cases b <;> first | rfl | cases heq
  rw [h.tasks.stateIs (h.member t ht), h.state t ht]
  congr 1
  exact decide_eq_decide.mpr ⟨fun heq => (hcode _ _ heq).symm, fun heq => by rw [heq]⟩

end Steps

/-! ### Free frames -/

/-- The frames that are free. -/
def Scheduler.freeFrames (s : Scheduler) : Nat := Pmm.pmmFreeFrames s.machine

section Frames
variable {B : HeapBoot} {T : Nat → Task} {s s' : Scheduler} {t k : Nat}

/-- A write takes no frame. -/
theorem writeBytes_frames {m m' : Machine} {v n x : Nat} (h : Virtual.writeBytes m v n x = .ok m') :
    Pmm.pmmFreeFrames m' = Pmm.pmmFreeFrames m := by
  induction n generalizing v x m' with
  | zero =>
    cases h
    rfl
  | succ n ih =>
    obtain ⟨m₁, hr₁, hr⟩ := ok_of_bind h
    rw [← ih hr₁]
    unfold Virtual.writeByte at hr
    split at hr
    · split at hr
      · cases hr
        rfl
      · cases hr
    · cases hr

theorem setField_frames {off n x : Nat} (h : setField s t off n x = .ok s') : s'.freeFrames = s.freeFrames := by
  obtain ⟨m, hr, h⟩ := ok_of_bind h
  cases h
  exact writeBytes_frames hr

theorem pushWords_frames {sp sp' : Nat} {ws : List Nat} (h : pushWords s sp ws = .ok (sp', s')) :
    s'.freeFrames = s.freeFrames := by
  induction ws generalizing s sp with
  | nil =>
    cases h
    rfl
  | cons v vs ih =>
    obtain ⟨m, hr, h⟩ := ok_of_bind h
    exact (ih h).trans (writeBytes_frames hr)

theorem listAdd_frames (h : listAdd s t = .ok s') : s'.freeFrames = s.freeFrames := by
  obtain ⟨next, _, h⟩ := ok_of_bind h
  obtain ⟨s₁, hr₁, hr₂⟩ := ok_of_bind h
  exact (setField_frames hr₂).trans (setField_frames hr₁)

theorem buildTask_frames {taskTrampoline entry arg t' : Nat}
    (h : buildTask taskTrampoline s t k entry arg = .ok (t', s')) : s'.freeFrames = s.freeFrames := by
  obtain ⟨⟨sp, s₁⟩, hr₁, h⟩ := ok_of_bind h
  obtain ⟨s₂, hr₂, h⟩ := ok_of_bind h
  obtain ⟨s₃, hr₃, h⟩ := ok_of_bind h
  obtain ⟨s₄, hr₄, h⟩ := ok_of_bind h
  obtain ⟨s₅, hr₅, h⟩ := ok_of_bind h
  obtain ⟨s₆, hr₆, h⟩ := ok_of_bind h
  cases h
  show s₆.freeFrames = s.freeFrames
  calc s₆.freeFrames = ({s₅ with nextTid := add64 s₅.nextTid 1} : Scheduler).freeFrames := listAdd_frames hr₆
    _ = s₅.freeFrames := rfl
    _ = s₄.freeFrames := setField_frames hr₅
    _ = s₃.freeFrames := setField_frames hr₄
    _ = s₂.freeFrames := setField_frames hr₃
    _ = s₁.freeFrames := setField_frames hr₂
    _ = s.freeFrames := pushWords_frames hr₁

/-- `kmalloc` serves as long as there are frames. -/
theorem Tasks.kmalloc_serves (h : Tasks B T s) {size : Nat} (hne : size ≠ 0) (hlt : size < 2 ^ 63)
    (hfree : 4 * Heap.pagesFor size ≤ s.freeFrames) : ∃ p s', Sched.kmalloc s size = .ok (p, s') ∧ p ≠ null ∧
      s.freeFrames ≤ s'.freeFrames + 4 * Heap.pagesFor size := by
  obtain ⟨V, hV⟩ := h.client
  obtain ⟨p, m, hr, hp, hleft⟩ := hV.serves hne hlt hfree
  refine ⟨p, {s with heap := ⟨m, Heap.record p size s.heap.live⟩}, ?_, hp, hleft⟩
  rw [Sched.kmalloc, Scheduler.machine, hr]
  rfl

theorem pagesFor_task : Heap.pagesFor sizeofTask = 1 := by decide

theorem pagesFor_stack : Heap.pagesFor kstackSize = 5 := by decide

/-- `task_create` succeeds as long as there are frames. -/
theorem SchedInv.create_serves (h : SchedInv B T s) (hfree : 24 ≤ s.freeFrames)
    (taskTrampoline entry arg : Nat) :
    ∃ T' t k m, taskCreate taskTrampoline s entry arg = .ok (t, s.created t k m) ∧
      SchedInv B T' (s.created t k m) ∧ s.freeFrames ≤ (s.created t k m).freeFrames + 24 := by
  obtain ⟨t, s₁, hr₁, ht, hleft₁⟩ := h.tasks.kmalloc_serves (show sizeofTask ≠ 0 by decide) (by decide)
    (by rw [pagesFor_task]; omega)
  rw [pagesFor_task] at hleft₁
  obtain ⟨T₁, _, _, h₁, _⟩ := h.tasks.kmalloc (by decide) hr₁
  obtain ⟨k, s₂, hr₂, hk, hleft₂⟩ := h₁.kmalloc_serves (show kstackSize ≠ 0 by decide) (by decide)
    (by rw [pagesFor_stack]; omega)
  rw [pagesFor_stack] at hleft₂
  obtain ⟨T', m, hr, h', _⟩ := h.create hr₁ ht hr₂ hk taskTrampoline entry arg
  refine ⟨T', t, k, m, hr, h', ?_⟩
  have hbuild := hr
  rw [taskCreate, hr₁, ok_bind] at hbuild
  change (Sched.kmalloc s₁ kstackSize >>= fun r => Sched.buildTask taskTrampoline r.2 t r.1 entry arg) = _
    at hbuild
  rw [hr₂, ok_bind] at hbuild
  have hsame : (s.created t k m).freeFrames = s₂.freeFrames := buildTask_frames hbuild
  omega

/-- What `sched_init` does with the block for the boot task. -/
theorem schedInit_rest {w : HeapRun} {boot : Nat} {s₁ : Scheduler}
    (hr₁ : kmalloc (.fresh w) sizeofTask = .ok (boot, s₁)) (hr : schedInit (.fresh w) = .ok s) :
    ∃ s₂ s₃ s₄ s₅, setId s₁ boot s₁.nextTid = .ok s₂ ∧
      setState {s₂ with nextTid := add64 s₂.nextTid 1} boot .running = .ok s₃ ∧ setStackBase s₃ boot null = .ok s₄ ∧
      setNext s₄ boot boot = .ok s₅ ∧ s = {s₅ with head := boot, currentTask := boot} := by
  rw [schedInit, hr₁, ok_bind] at hr
  obtain ⟨s₂, hr₂, hr⟩ := ok_of_bind hr
  obtain ⟨s₃, hr₃, hr⟩ := ok_of_bind hr
  obtain ⟨s₄, hr₄, hr⟩ := ok_of_bind hr
  obtain ⟨s₅, hr₅, hr⟩ := ok_of_bind hr
  cases hr
  exact ⟨s₂, s₃, s₄, s₅, hr₂, hr₃, hr₄, hr₅, rfl⟩

/-- Behind its request `sched_init` takes no frame. -/
theorem schedInit_frames {w : HeapRun} {boot : Nat} {s₁ : Scheduler}
    (hr₁ : kmalloc (.fresh w) sizeofTask = .ok (boot, s₁)) (hr : schedInit (.fresh w) = .ok s) :
    s.freeFrames = s₁.freeFrames := by
  obtain ⟨s₂, s₃, s₄, s₅, hr₂, hr₃, hr₄, hr₅, rfl⟩ := schedInit_rest hr₁ hr
  calc s₅.freeFrames = s₄.freeFrames := setField_frames hr₅
    _ = s₃.freeFrames := setField_frames hr₄
    _ = ({s₂ with nextTid := add64 s₂.nextTid 1} : Scheduler).freeFrames := setField_frames hr₃
    _ = s₂.freeFrames := rfl
    _ = s₁.freeFrames := setField_frames hr₂

/-- `sched_init` succeeds as long as there are frames. -/
theorem schedInit_serves {w : HeapRun} {V : Mem} (hw : Client B V w)
    (hfree : 4 ≤ Pmm.pmmFreeFrames w.machine) :
    ∃ T s, schedInit (.fresh w) = .ok s ∧ SchedInv B T s ∧ s.trace = [] ∧ s.zombie = null ∧
      Pmm.pmmFreeFrames w.machine ≤ s.freeFrames + 4 := by
  have h₀ : Tasks B (taskAt V) (.fresh w) := ⟨V, hw, fun _ _ => rfl⟩
  obtain ⟨boot, s₁, hr₁, hboot, hleft⟩ := h₀.kmalloc_serves (show sizeofTask ≠ 0 by decide) (by decide)
    (by rw [pagesFor_task]; exact hfree)
  rw [pagesFor_task] at hleft
  obtain ⟨T, s, hr, h, htrace, hzombie⟩ := schedInit_ok hw hr₁ hboot
  refine ⟨T, s, hr, h, htrace, hzombie, ?_⟩
  have hsame := schedInit_frames hr₁ hr
  have hw₀ : (Scheduler.fresh w).freeFrames = Pmm.pmmFreeFrames w.machine := rfl
  change Pmm.pmmFreeFrames w.machine ≤ s.freeFrames + 4
  omega

/-! ### Turns -/

/-- Without a zombie, `schedule` turns to the task that `next` of the current one leads to. -/
theorem SchedInv.schedule_turns (h : SchedInv B T s) (hz : s.zombie = null) {n : Nat}
    (hnext : (T s.currentTask).next = n) (hne : n ≠ s.currentTask) (rsp : Nat) :
    ∃ T' m, Sched.schedule s rsp = .ok (s.turnTo n m) ∧ SchedInv B T' (s.turnTo n m) := by
  obtain ⟨T', s₁, s', hr, hreaped, hturned, h', _⟩ := h.schedule rsp
  rcases hreaped with ⟨_, rfl⟩ | ⟨hz', _⟩
  · rcases hturned with ⟨heq, _⟩ | ⟨_, m, rfl⟩
    · exact absurd (hnext.symm.trans heq) hne
    · rw [hnext] at hr h'
      exact ⟨T', m, hr, h'⟩
  · exact absurd hz hz'

/-- On the list, that is the one behind the current task. -/
theorem SchedInv.schedule_next (h : SchedInv B T s) (hz : s.zombie = null) {as bs : List Nat} {n : Nat}
    (hts : s.head :: s.others = as ++ s.currentTask :: n :: bs) (rsp : Nat) :
    ∃ T' m, Sched.schedule s rsp = .ok (s.turnTo n m) ∧ SchedInv B T' (s.turnTo n m) := by
  refine h.schedule_turns hz (h.ring.next_eq hts) ?_ rsp
  have hnodup := h.ring.nodup
  rw [hts] at hnodup
  rintro rfl
  exact (List.nodup_cons.mp (List.nodup_append.mp hnodup).2.1).1 List.mem_cons_self

/-- `task_exit` turns to the next task. -/
theorem SchedInv.exit_next (h : SchedInv B T s) (hne : s.currentTask ≠ s.head) {as bs : List Nat} {n : Nat}
    (hts : s.head :: s.others = as ++ s.currentTask :: n :: bs) (rsp : Nat) :
    ∃ T' m₁ m, Sched.taskExit s rsp = .ok ((s.leaving m₁).turnTo n m) ∧
      SchedInv B T' ((s.leaving m₁).turnTo n m) := by
  have hnext : (T s.currentTask).next = n := h.ring.next_eq hts
  obtain ⟨T', m₁, m, hr, h', _⟩ := h.exit hne rsp
  rw [hnext] at hr h'
  exact ⟨T', m₁, m, hr, h'⟩

/-- Two tasks are created, and the boot task yields to the second. -/
theorem SchedInv.two_tasks (h₀ : SchedInv B T s) (htrace : s.trace = []) (hz : s.zombie = null)
    (hfree : 48 ≤ s.freeFrames) (taskTrampoline entry rsp : Nat) :
    ∃ T' s₁ s₂ s₃ a b, SchedStep taskTrampoline s (.create entry 0) s₁ ∧
      SchedStep taskTrampoline s₁ (.create entry 1) s₂ ∧ SchedStep taskTrampoline s₂ (.yield rsp) s₃ ∧
      SchedInv B T' s₃ ∧ s₃.zombie = null ∧ s₃.currentTask = b ∧ s₃.head :: s₃.others = [s₃.head, b, a] := by
  have hcurrent : s.currentTask = s.head := by
    have hmem := h₀.current
    rw [Scheduler.others, htrace] at hmem
    exact List.mem_singleton.mp hmem
  obtain ⟨T₁, a, ka, m₁, hr₁, h₁, hleft⟩ := h₀.create_serves (by omega) taskTrampoline entry 0
  obtain ⟨T₂, b, kb, m₂, hr₂, h₂, _⟩ := h₁.create_serves (by omega) taskTrampoline entry 1
  have hothers : ((s.created a ka m₁).created b kb m₂).others = [b, a] := by
    show (alive (.create b kb :: .create a ka :: s.trace)).map Prod.fst = [b, a]
    rw [htrace]
    rfl
  have hts : s.head :: ((s.created a ka m₁).created b kb m₂).others = [] ++ s.currentTask :: b :: [a] := by
    rw [hothers, hcurrent]
    rfl
  obtain ⟨T₃, m₃, hr₃, h₃⟩ := h₂.schedule_next hz hts rsp
  exact ⟨T₃, _, _, _, a, b, .create hr₁, .create hr₂, .yield hr₃, h₃, hz, rfl, congrArg (_ :: ·) hothers⟩

end Frames

/-! ### How many tasks there can be -/

/-- A machine whose direct map lies in the upper half, clear of the heap. -/
structure SchedBoot extends HeapBoot where
  higher : 0xFFFF800000000000 ≤ offset
  clear : offset + toLimineMap.totalFrames * pageSize ≤ Heap.heapBase ∨
    Heap.pageAddr toLimineMap.totalFrames ≤ offset

/-- Fewer stacks than a 32-bit number can count fit into memory. -/
theorem SchedInv.count_lt {B : SchedBoot} {T : Nat → Task} {s : Scheduler} (h : SchedInv B.toHeapBoot T s) :
    s.others.length + 1 < 2 ^ 32 := by
  obtain ⟨V, hV⟩ := h.tasks.client
  have hlive : ∀ k ∈ (alive s.trace).map Prod.snd, (k, kstackSize) ∈ s.heap.live := by
    intro k hk
    obtain ⟨⟨t, k⟩, hmem, rfl⟩ := List.mem_map.mp hk
    exact (h.stack t k hmem).2
  have hroom := hV.count_le h.distinct hlive
  have hlen : s.others.length = ((alive s.trace).map Prod.snd).length := by
    rw [Scheduler.others, List.length_map, List.length_map]
  have hdirect := B.direct
  have hhigher := B.higher
  have hclear := B.clear
  unfold Heap.pageAddr Heap.heapBase at hclear
  unfold kstackSize at hroom
  omega

section Flat
variable {n : Nat} (hn : 0 < n ∧ n < 2 ^ 15)

/-- The scheduler of a plain machine. -/
def flatSched : SchedBoot where
  toHeapBoot := flatHeap hn
  higher := show 0xFFFF800000000000 ≤ 0xFFFF800000000000 from Nat.le_refl _
  clear := by
    refine .inl ?_
    rw [show (flatHeap hn).totalFrames = n + 1 from Vmm.flatMap_total hn]
    show 0xFFFF800000000000 + (n + 1) * pageSize ≤ Heap.heapBase
    unfold pageSize Heap.heapBase
    omega

/-- What `sched_init` leaves of the `n` pages. -/
theorem flatSched_start (hlt : 24 < n) (taskTrampoline : Nat) :
    ∃ T s, (sched (flatSched hn).toHeapBoot taskTrampoline).init s ∧
      SchedInv (flatSched hn).toHeapBoot T s ∧ s.trace = [] ∧ s.zombie = null ∧ n - 25 ≤ s.freeFrames := by
  obtain ⟨A, role, V, m, hmap, hinit, hheld, hfree⟩ := Heap.flatHeap_start hn (by omega)
  have hclient : Client (flatHeap hn) V ⟨m, []⟩ := ⟨A, role, _, _, hmap, hheld⟩
  obtain ⟨T, s, hr, h, htrace, hzombie, hleft⟩ := schedInit_serves hclient
    (show 4 ≤ Pmm.pmmFreeFrames m by omega)
  change Pmm.pmmFreeFrames m ≤ s.freeFrames + 4 at hleft
  exact ⟨T, s, ⟨_, .start hinit, hr⟩, h, htrace, hzombie, by omega⟩

end Flat

/-- **The circular list is whole** between the calls of every run: following `next`
from the first task visits the boot task and every task that was created and has
not exited, once each, and nothing else; the current task is on it, running, and
every other task is ready. So the loops of `list_remove`, of `schedule` (also when
`task_exit` calls it) and of `sched_task_count` come to an end, and the last counts
the tasks. -/
theorem scheduler_ring (B : SchedBoot) (taskTrampoline : Nat) {s : Scheduler}
    (h : (sched B.toHeapBoot taskTrampoline).Reachable s) :
    tasks s = .ok (s.head :: s.others) ∧ (s.head :: s.others).Nodup ∧
    s.currentTask ∈ s.head :: s.others ∧
    (∀ t ∈ s.head :: s.others, ∀ state,
      stateIs s t state = .ok (decide (state = stateUnder s.currentTask t))) ∧
    (∀ t ∈ s.head :: s.others, ∃ s', listRemove s t = .ok s') ∧
    (∀ rsp, ∃ s', schedule s rsp = .ok s') ∧
    (s.currentTask ≠ s.head → ∀ rsp, ∃ s', taskExit s rsp = .ok s') ∧
    schedTaskCount s = .ok (s.others.length + 1) := by
  obtain ⟨T, hT⟩ := sched_reachable h
  refine ⟨hT.tasks_eq, hT.ring.nodup, hT.current, fun t ht state => hT.stateIs ht state,
    fun t ht => hT.listRemove ht, fun rsp => ?_, fun hne rsp => ?_, ?_⟩
  · obtain ⟨_, _, s', hr, _⟩ := hT.schedule rsp
    exact ⟨s', hr⟩
  · obtain ⟨_, _, _, hr, _⟩ := hT.exit hne rsp
    exact ⟨_, hr⟩
  · rw [hT.schedTaskCount, Nat.mod_eq_of_lt hT.count_lt]

/-- Two tasks are created, and the second exits in its first turn. -/
theorem scheduler_ring_flatSched : ∃ (s : Scheduler) (t : Nat), tasks s = .ok [s.head, t] ∧ t ≠ s.head ∧
    s.currentTask = t ∧ stateIs s t .running = .ok true ∧ stateIs s s.head .ready = .ok true ∧
    schedTaskCount s = .ok 2 := by
  obtain ⟨T, s, hinit, hT, htrace, hz, hleft⟩ := flatSched_start (n := 128) (by decide) (by decide) 0
  obtain ⟨T₃, s₁, s₂, s₃, a, b, hs₁, hs₂, hs₃, h₃, _, hb, hts⟩ := hT.two_tasks htrace hz (by omega) 0 0 0
  have hnodup := h₃.ring.nodup
  rw [hts] at hnodup
  have hne : s₃.currentTask ≠ s₃.head := by
    rw [hb]
    exact fun heq => (List.nodup_cons.mp hnodup).1 (heq ▸ List.mem_cons_self)
  obtain ⟨T₄, m₁, m, hr, h₄⟩ := h₃.exit_next hne
    (show s₃.head :: s₃.others = [s₃.head] ++ s₃.currentTask :: a :: [] by rw [hts, hb]; rfl) 0
  have hreach := (((System.Reachable.start hinit).step hs₁).step hs₂).step hs₃
  have hothers : ((s₃.leaving m₁).turnTo a m).others = [a] := by
    have hstep : SchedStep 0 s₃ (.exit 0) ((s₃.leaving m₁).turnTo a m) := .exit hne hr
    rw [h₃.others_step hstep, remaining, (List.cons.inj hts).2, hb]
    have hab : a ≠ b := fun heq =>
      (List.nodup_cons.mp (List.nodup_cons.mp hnodup).2).1 (List.mem_singleton.mpr heq.symm)
    simp [hab]
  obtain ⟨htasks, hnodup', _, hstate, _, _, _, hcount⟩ :=
    scheduler_ring (flatSched (n := 128) (by decide)) 0 (hreach.step (.exit hne hr))
  rw [hothers] at htasks hnodup' hstate hcount
  have hahead : a ≠ s₃.head := fun heq => (List.nodup_cons.mp hnodup').1 (List.mem_singleton.mpr heq.symm)
  refine ⟨_, a, htasks, hahead, rfl, ?_, ?_, hcount⟩
  · rw [hstate a (List.mem_cons_of_mem _ List.mem_cons_self)]
    exact congrArg Except.ok (decide_eq_true (if_pos rfl).symm)
  · refine (hstate _ List.mem_cons_self .ready).trans (congrArg Except.ok (decide_eq_true (if_neg ?_).symm))
    exact fun heq => hahead heq.symm

end ArcMonark.Sched
