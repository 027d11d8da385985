import ArcMonark.Sched.Tasks
import ArcMonark.Library.Ring

/-! What the calls of `sched.c` do.

`SchedInv` is the invariant between the calls: the circular list holds the boot
task and the tasks that were created and have not exited, the newest first, all
of them ready but for the current one. Every call keeps it, and no loop on the
list runs for ever. -/
namespace ArcMonark.Sched
open Library Mm
open Heap (HeapBoot HeapRun Client)

/-- The tasks that were created and have not exited, with their stacks. -/
def alive : List Act → List (Nat × Nat)
  | [] => []
  | .create t stack :: as => (t, stack) :: alive as
  | .exit t :: as => (alive as).filter fun a => decide (a.1 ≠ t)
  | .turn _ :: as => alive as
  | .free _ :: as => alive as

/-- The tasks on the list behind the boot task. -/
def Scheduler.others (s : Scheduler) : List Nat := (alive s.trace).map Prod.fst

/-- What the state of a task is while `current` runs. -/
def stateUnder (current t : Nat) : TaskState := if t = current then .running else .ready

structure SchedInv (B : HeapBoot) (T : Nat → Task) (s : Scheduler) : Prop where
  tasks : Tasks B T s
  ring : Ring (fun t => (T t).next) s.head s.others
  member : ∀ t ∈ s.head :: s.others, s.IsTask t
  current : s.currentTask ∈ s.head :: s.others
  state : ∀ t ∈ s.head :: s.others, (T t).state = (stateUnder s.currentTask t).code
  stack : ∀ t k, (t, k) ∈ alive s.trace → (T t).base = k ∧ s.IsStack k
  distinct : ((alive s.trace).map Prod.snd).Nodup
  zombie : s.zombie ≠ null → s.IsTask s.zombie ∧ s.zombie ∉ s.head :: s.others ∧
    s.IsStack (T s.zombie).base ∧ (T s.zombie).base ∉ (alive s.trace).map Prod.snd
  boot : (T s.head).base = null

section Proofs
variable {B : HeapBoot} {T : Nat → Task} {s s' : Scheduler} {t k : Nat}

/-! ### Switching -/

/-- The table after a switch from `c` to `n`. -/
def switched (T : Nat → Task) (c n : Nat) : Nat → Task := fun u =>
  {T u with
    state := if u = n then TaskState.running.code
      else if u = c ∧ (T c).state = TaskState.running.code then TaskState.ready.code else (T u).state}

theorem switched_state (T : Nat → Task) {c n : Nat} (h : t ≠ c) :
    (switched T c n t).state = if t = n then TaskState.running.code else (T t).state := by
  simp [switched, h]

/-- The scheduler after a switch to `n`. -/
def Scheduler.turnTo (s : Scheduler) (n : Nat) (m : Machine) : Scheduler :=
  {s.withMachine m with currentTask := n, trace := .turn n :: s.trace}

@[simp] theorem Scheduler.turnTo_currentTask (s : Scheduler) (n : Nat) (m : Machine) :
    (s.turnTo n m).currentTask = n := rfl

/-- The loop on dead tasks stops at once at one that is not. -/
theorem Tasks.skipDead (h : Tasks B T s) {prev next : Nat} (hn : s.IsTask next)
    (hstop : (T next).state ≠ TaskState.dead.code ∨ next = prev) :
    skipDead s prev Heap.endless next = .ok next := by
  show Sched.skipDead s prev (2 ^ 64 - 1 + 1) next = _
  rw [Sched.skipDead, h.stateIs hn, ok_bind]
  rcases hstop with hstate | rfl
  · simp only [decide_eq_false hstate, Bool.false_and, Bool.false_eq_true, if_false]
    rfl
  · simp only [ne_eq, not_true_eq_false, decide_false, Bool.and_false, Bool.false_eq_true, if_false]
    rfl

/-- A running task becomes ready. -/
theorem Tasks.stopRunning (h : Tasks B T s) (ht : s.IsTask t) :
    ∃ m, stopRunning s t = .ok (s.withMachine m) ∧ Tasks B (fun u => {T u with
      state := if u = t ∧ (T t).state = TaskState.running.code then TaskState.ready.code
        else (T u).state}) (s.withMachine m) := by
  rw [Sched.stopRunning, h.stateIs ht, ok_bind]
  by_cases hrun : (T t).state = TaskState.running.code
  · rw [decide_eq_true hrun, if_pos rfl]
    obtain ⟨m, hr, h'⟩ := h.setState ht .ready
    refine ⟨m, hr, h'.congr fun u _ => ?_⟩
    by_cases hu : u = t
    · rw [hu, Function.update_self]
      simp [hrun]
    · rw [Function.update_of_ne hu]
      simp [hu]
  · rw [decide_eq_false hrun]
    refine ⟨s.machine, rfl, h.congr fun u _ => ?_⟩
    simp [hrun]

/-- `schedule` stays with a task that is alone, and switches to the next one otherwise. -/
theorem Tasks.switchNext (h : Tasks B T s) (hc : s.IsTask s.currentTask) {n : Nat}
    (hnext : (T s.currentTask).next = n) (hn : s.IsTask n)
    (hstop : (T n).state ≠ TaskState.dead.code ∨ n = s.currentTask) (rsp : Nat) :
    (n = s.currentTask → switchNext s rsp = .ok s) ∧
    (n ≠ s.currentTask → ∃ m, switchNext s rsp = .ok (s.turnTo n m) ∧
      Tasks B (switched T s.currentTask n) (s.turnTo n m)) := by
  have hskip : Sched.skipDead s s.currentTask Heap.endless n = .ok n := h.skipDead hn hstop
  constructor
  · intro heq
    simp only [Sched.switchNext, h.getNext hc, ok_bind, hnext, hskip, if_pos heq]
    rfl
  · intro hne
    obtain ⟨m₁, hr₁, h₁⟩ := h.stopRunning hc
    obtain ⟨m₂, hr₂, h₂⟩ := h₁.setState (t := n) hn .running
    obtain ⟨m₃, hr₃, h₃⟩ := (show Tasks B _ (s.turnTo n m₂) from h₂.vars rfl).setRsp
      (t := s.currentTask) hc rsp
    refine ⟨m₃, ?_, h₃.congr fun u _ => ?_⟩
    · simp only [Sched.switchNext, h.getNext hc, ok_bind, hnext, hskip, if_neg hne, hr₁, hr₂]
      exact hr₃
    · by_cases hu : u = n
      · rw [hu, Function.update_self]
        simp [switched]
      · rw [Function.update_of_ne hu]
        simp [switched, hu]

/-! ### Reaping -/

/-- The scheduler after the zombie's stack and structure went to `kfree`. -/
def Scheduler.reaped (s : Scheduler) (base : Nat) (m : Machine) : Scheduler :=
  {s with
    heap := ⟨m, Heap.forget s.zombie (Heap.forget base s.heap.live)⟩
    zombie := null
    trace := .free s.zombie :: .free base :: s.trace}

/-- A zombie off its stack is freed. -/
theorem Tasks.reap (h : Tasks B T s) (hz : s.IsTask s.zombie) (hk : s.IsStack (T s.zombie).base)
    (hne : s.zombie ≠ s.currentTask) :
    ∃ m, reap s = .ok (s.reaped (T s.zombie).base m) ∧ Tasks B T (s.reaped (T s.zombie).base m) := by
  have hbase : (T s.zombie).base ≠ null := by
    obtain ⟨V, hV⟩ := h.client
    exact hV.ne_null hk
  have h₀ : Tasks B T {s with zombie := null} := h.vars rfl
  obtain ⟨m₁, hr₁, h₁⟩ := h₀.kfree ⟨_, hk⟩
  have hlive : (s.zombie, sizeofTask) ∈ Heap.forget (T s.zombie).base s.heap.live :=
    Heap.mem_forget.mpr ⟨hz, h.ne hz hk⟩
  obtain ⟨m₂, hr₂, h₂⟩ := h₁.kfree (k := s.zombie) ⟨_, hlive⟩
  refine ⟨m₂, ?_, h₂⟩
  rw [Sched.reap, if_pos ⟨h.ne_null hz, hne⟩]
  simp only [h₀.getStackBase hz, ok_bind, ne_eq, hbase, not_false_eq_true, if_true, hr₁]
  exact hr₂

theorem Scheduler.reaped_isTask {m : Machine} : (s.reaped k m).IsTask t ↔ s.IsTask t ∧ t ≠ k ∧ t ≠ s.zombie := by
  unfold Scheduler.IsTask Scheduler.reaped
  rw [Heap.mem_forget, Heap.mem_forget, and_assoc]

theorem Scheduler.reaped_isStack {b : Nat} {m : Machine} :
    (s.reaped b m).IsStack k ↔ s.IsStack k ∧ k ≠ b ∧ k ≠ s.zombie := by
  unfold Scheduler.IsStack Scheduler.reaped
  rw [Heap.mem_forget, Heap.mem_forget, and_assoc]

/-- What `reap` may do to the scheduler: nothing, as there is no zombie, or free it. -/
def Reaped (T : Nat → Task) (s s' : Scheduler) : Prop :=
  s.zombie = null ∧ s' = s ∨ s.zombie ≠ null ∧ ∃ m, s' = s.reaped (T s.zombie).base m

theorem SchedInv.reap (h : SchedInv B T s) :
    ∃ s', reap s = .ok s' ∧ Reaped T s s' ∧ SchedInv B T s' := by
  by_cases hz : s.zombie = null
  · exact ⟨s, by rw [Sched.reap, if_neg fun hc => hc.1 hz], .inl ⟨hz, rfl⟩, h⟩
  · obtain ⟨hztask, hzring, hkstack, hkother⟩ := h.zombie hz
    have hne : s.zombie ≠ s.currentTask := fun heq => hzring (heq ▸ h.current)
    obtain ⟨m, hr, htasks⟩ := h.tasks.reap hztask hkstack hne
    refine ⟨_, hr, .inr ⟨hz, m, rfl⟩, htasks, h.ring, fun t ht => ?_, h.current, h.state, fun t k htk => ?_,
      h.distinct, fun hz' => absurd rfl hz', h.boot⟩
    · have htask := h.member t ht
      exact Scheduler.reaped_isTask.mpr ⟨htask, h.tasks.ne htask hkstack, fun heq => hzring (heq ▸ ht)⟩
    · obtain ⟨hbase, hstack⟩ := h.stack t k htk
      refine ⟨hbase, Scheduler.reaped_isStack.mpr ⟨hstack, fun heq => hkother ?_, ?_⟩⟩
      · rw [← heq]
        exact List.mem_map.mpr ⟨(t, k), htk, rfl⟩
      · exact (h.tasks.ne hztask hstack).symm

/-! ### `schedule` -/

theorem SchedInv.next_mem (h : SchedInv B T s) (ht : t ∈ s.head :: s.others) :
    (T t).next ∈ s.head :: s.others := h.ring.next_mem ht

/-- A task on the list is not dead. -/
theorem SchedInv.not_dead (h : SchedInv B T s) (ht : t ∈ s.head :: s.others) :
    (T t).state ≠ TaskState.dead.code := by
  rw [h.state t ht]
  unfold stateUnder
  split <;> decide

/-- What `schedule` makes of the scheduler once it has reaped: it stays with a task
that is alone, or the next task has its turn. -/
def Turned (T : Nat → Task) (s s' : Scheduler) : Prop :=
  (T s.currentTask).next = s.currentTask ∧ s' = s ∨
    (T s.currentTask).next ≠ s.currentTask ∧ ∃ m, s' = s.turnTo (T s.currentTask).next m

/-- A switch from the current task keeps the invariant. -/
theorem SchedInv.switchNext (h : SchedInv B T s) (rsp : Nat) :
    ∃ T' s', switchNext s rsp = .ok s' ∧ Turned T s s' ∧ SchedInv B T' s' ∧ ∀ t, (T' t).base = (T t).base := by
  have hnext := h.next_mem h.current
  obtain ⟨hstay, hswitch⟩ := h.tasks.switchNext (h.member _ h.current) rfl (h.member _ hnext)
    (.inl (h.not_dead hnext)) rsp
  by_cases heq : (T s.currentTask).next = s.currentTask
  · exact ⟨T, s, hstay heq, .inl ⟨heq, rfl⟩, h, fun _ => rfl⟩
  · obtain ⟨m, hr, htasks⟩ := hswitch heq
    refine ⟨_, _, hr, .inr ⟨heq, m, rfl⟩, ⟨htasks, h.ring, h.member, hnext, fun t ht => ?_, h.stack,
      h.distinct, h.zombie, h.boot⟩, fun _ => rfl⟩
    have hstate := h.state t ht
    have hcur := h.state _ h.current
    unfold stateUnder at hstate hcur ⊢
    rw [if_pos rfl] at hcur
    show (if t = (T s.currentTask).next then _ else _) = _
    by_cases ht' : t = (T s.currentTask).next
    · rw [if_pos ht']
      exact congrArg TaskState.code (if_pos ht').symm
    · rw [if_neg ht']
      by_cases htc : t = s.currentTask
      · rw [if_pos ⟨htc, hcur⟩]
        exact congrArg TaskState.code (if_neg ht').symm
      · rw [if_neg fun hc => htc hc.1, hstate, if_neg htc]
        exact congrArg TaskState.code (if_neg ht').symm

/-- **`schedule` returns** in every state between calls, and keeps the invariant. -/
theorem SchedInv.schedule (h : SchedInv B T s) (rsp : Nat) :
    ∃ T' s₁ s', schedule s rsp = .ok s' ∧ Reaped T s s₁ ∧ Turned T s₁ s' ∧ SchedInv B T' s' ∧
      ∀ t, (T' t).base = (T t).base := by
  obtain ⟨s₁, hr₁, hreaped, h₁⟩ := h.reap
  obtain ⟨T', s', hr, hturned, h', hbase⟩ := h₁.switchNext rsp
  refine ⟨T', s₁, s', ?_, hreaped, hturned, h', hbase⟩
  rw [Sched.schedule, if_neg (h.tasks.ne_null (h.member _ h.current)), hr₁, ok_bind, hr]

/-! ### Loops around the list -/

/-- There are fewer tasks than steps in an endless chase. -/
theorem Tasks.length_le (h : Tasks B T s) {ts : List Nat} (hnodup : ts.Nodup)
    (hts : ∀ t ∈ ts, s.IsTask t) : ts.length ≤ Heap.endless := by
  have hsub : ts ⊆ List.range (2 ^ 64) := fun t ht => List.mem_range.mpr (h.lt (hts t ht))
  have hlen := (List.subperm_of_subset hnodup hsub).length_le
  rwa [List.length_range] at hlen

/-- `list_remove` finds the task in front, from any task behind. -/
theorem Tasks.findBefore_suffix (h : Tasks B T s) {zs as bs : List Nat} {b fuel : Nat}
    (hring : Ring (fun t => (T t).next) t zs) (hmem : ∀ u ∈ t :: zs, s.IsTask u)
    (hzs : t :: zs = as ++ b :: bs) (hfuel : bs.length < fuel) :
    ∃ p ∈ t :: zs, (T p).next = t ∧ findBefore s t fuel b = .ok p := by
  induction bs generalizing as b fuel with
  | nil =>
    obtain ⟨fuel, rfl⟩ := Nat.exists_eq_succ_of_ne_zero (Nat.ne_zero_of_lt hfuel)
    have hb : b ∈ t :: zs := by
      rw [hzs]
      simp
    have hnext : (T b).next = t := hring.next_eq hzs
    refine ⟨b, hb, hnext, ?_⟩
    rw [findBefore, h.getNext (hmem b hb), ok_bind, if_pos hnext]
    rfl
  | cons c bs ih =>
    obtain ⟨fuel, rfl⟩ := Nat.exists_eq_succ_of_ne_zero (Nat.ne_zero_of_lt hfuel)
    have hb : b ∈ t :: zs := by
      rw [hzs]
      simp
    have hnext : (T b).next = c := hring.next_eq hzs
    have hct : c ≠ t := hring.ne_first hzs
    obtain ⟨p, hp, hpnext, hfind⟩ := ih (show t :: zs = (as ++ [b]) ++ c :: bs by rw [hzs, List.append_assoc]; rfl)
      (show bs.length < fuel by rw [List.length_cons] at hfuel; omega)
    refine ⟨p, hp, hpnext, ?_⟩
    rw [findBefore, h.getNext (hmem b hb), ok_bind, hnext, if_neg hct, hfind]

/-- The task in front of any task on the list. -/
theorem Tasks.findBefore (h : Tasks B T s) {hd : Nat} {ts : List Nat}
    (hring : Ring (fun t => (T t).next) hd ts) (hmem : ∀ u ∈ hd :: ts, s.IsTask u) (ht : t ∈ hd :: ts) :
    ∃ p ∈ hd :: ts, (T p).next = t ∧ findBefore s t Heap.endless (T t).next = .ok p := by
  obtain ⟨zs, hring', hperm⟩ := hring.rotate ht
  have hmem' : ∀ u ∈ t :: zs, s.IsTask u := fun u hu => hmem u (hperm.mem_iff.mp hu)
  have hlen := h.length_le hring'.nodup hmem'
  rw [List.length_cons] at hlen
  have hstart : ∃ as b bs, t :: zs = as ++ b :: bs ∧ (T t).next = b ∧ bs.length < Heap.endless := by
    have hnext : (T t).next = zs.headD t := hring'.next_eq (show t :: zs = [] ++ t :: zs from rfl)
    cases zs with
    | nil => exact ⟨[], t, [], rfl, hnext, by decide⟩
    | cons z zs =>
      rw [List.length_cons] at hlen
      exact ⟨[t], z, zs, rfl, hnext, by omega⟩
  obtain ⟨as, b, bs, hzs, hnext, hfuel⟩ := hstart
  obtain ⟨p, hp, hpnext, hfind⟩ := h.findBefore_suffix hring' hmem' hzs hfuel
  exact ⟨p, hperm.mem_iff.mp hp, hpnext, by rw [hnext, hfind]⟩

/-- The count from a task on, to the end of the list. -/
theorem SchedInv.countFrom (h : SchedInv B T s) {as bs : List Nat} {b fuel : Nat} (n : Nat)
    (hts : s.head :: s.others = as ++ b :: bs) (hfuel : bs.length < fuel) :
    countFrom s fuel b n = .ok ((n + (bs.length + 1)) % 2 ^ 32) := by
  induction bs generalizing as b fuel n with
  | nil =>
    obtain ⟨fuel, rfl⟩ := Nat.exists_eq_succ_of_ne_zero (Nat.ne_zero_of_lt hfuel)
    have hb : b ∈ s.head :: s.others := hts ▸ List.mem_append_cons_self
    have hnext : (T b).next = s.head := h.ring.next_eq hts
    simp only [Sched.countFrom, h.tasks.stateIs (h.member b hb), ok_bind, h.tasks.getNext (h.member b hb),
      decide_eq_false (h.not_dead hb), hnext, if_true, Bool.false_eq_true, if_false]
    rfl
  | cons c bs ih =>
    obtain ⟨fuel, rfl⟩ := Nat.exists_eq_succ_of_ne_zero (Nat.ne_zero_of_lt hfuel)
    have hb : b ∈ s.head :: s.others := hts ▸ List.mem_append_cons_self
    have hnext : (T b).next = c := h.ring.next_eq hts
    have hch : c ≠ s.head := h.ring.ne_first hts
    have hrest := ih ((n + 1) % 2 ^ 32)
      (show s.head :: s.others = (as ++ [b]) ++ c :: bs by rw [hts, List.append_assoc]; rfl)
      (show bs.length < fuel by rw [List.length_cons] at hfuel; omega)
    simp only [Sched.countFrom, h.tasks.stateIs (h.member b hb), ok_bind, h.tasks.getNext (h.member b hb),
      decide_eq_false (h.not_dead hb), hnext, if_neg hch, Bool.false_eq_true, if_false, hrest]
    rw [List.length_cons]
    congr 1
    omega

/-- **`sched_task_count`** counts the tasks on the list, as a 32-bit number. -/
theorem SchedInv.schedTaskCount (h : SchedInv B T s) :
    schedTaskCount s = .ok ((s.others.length + 1) % 2 ^ 32) := by
  have hlen := h.tasks.length_le h.ring.nodup h.member
  rw [List.length_cons] at hlen
  rw [Sched.schedTaskCount, h.countFrom 0 (show s.head :: s.others = [] ++ s.head :: s.others from rfl)
    (by omega), Nat.zero_add]

/-! ### `task_exit` -/

/-- The alive tasks but for one, in order. -/
theorem others_exit (as : List Act) (t : Nat) :
    (alive (.exit t :: as)).map Prod.fst = ((alive as).map Prod.fst).filter fun u => decide (u ≠ t) := by
  rw [alive, List.filter_map]
  rfl

theorem filter_ne {xs ys : List Nat} (h : (xs ++ t :: ys).Nodup) :
    (xs ++ t :: ys).filter (fun u => decide (u ≠ t)) = xs ++ ys := by
  obtain ⟨_, hys, hapart⟩ := List.nodup_append.mp h
  have hxs : xs.filter (fun u => decide (u ≠ t)) = xs :=
    List.filter_eq_self.mpr fun u hu => decide_eq_true (hapart u hu t List.mem_cons_self)
  have hys' : ys.filter (fun u => decide (u ≠ t)) = ys := by
    refine List.filter_eq_self.mpr fun u hu => decide_eq_true fun heq => ?_
    exact (List.nodup_cons.mp hys).1 (heq ▸ hu)
  rw [List.filter_append, List.filter_cons, hxs, hys']
  simp

/-- The table once `c` is dead and the task `p` in front of it skips it. -/
def unlinked (T : Nat → Task) (c p : Nat) : Nat → Task := fun u =>
  {T u with
    state := if u = c then TaskState.dead.code else (T u).state
    next := if u = p then (T c).next else (T u).next}

theorem unlinked_state (T : Nat → Task) {c : Nat} (p : Nat) (h : t ≠ c) :
    (unlinked T c p t).state = (T t).state := if_neg h

/-- The exiting task is dead, and off the list. -/
theorem SchedInv.unlink (h : SchedInv B T s) :
    ∃ p ∈ s.head :: s.others, (T p).next = s.currentTask ∧ ∃ m₁ m,
      setState s s.currentTask .dead = .ok (s.withMachine m₁) ∧
      listRemove (s.withMachine m₁) s.currentTask = .ok (s.withMachine m) ∧
      Tasks B (unlinked T s.currentTask p) (s.withMachine m) := by
  have hc := h.member _ h.current
  have hn := h.member _ (h.next_mem h.current)
  obtain ⟨m₁, hr₁, h₁⟩ := h.tasks.setState hc .dead
  have h₁ : Tasks B (fun u => {T u with
      state := if u = s.currentTask then TaskState.dead.code else (T u).state}) (s.withMachine m₁) := by
    refine h₁.congr fun u _ => ?_
    by_cases hu : u = s.currentTask
    · rw [hu, Function.update_self]
      simp
    · rw [Function.update_of_ne hu]
      simp [hu]
  obtain ⟨p, hp, hpnext, hfind⟩ := h₁.findBefore h.ring h.member h.current
  obtain ⟨m₂, hr₂, h₂⟩ := h₁.setNext (t := p) (h.member p hp) (h.tasks.lt hn)
  have hget : Sched.getNext (s.withMachine m₁) s.currentTask = .ok (T s.currentTask).next := h₁.getNext hc
  refine ⟨p, hp, hpnext, m₁, m₂, hr₁, ?_, h₂.congr fun u _ => ?_⟩
  · simp only [Sched.listRemove, hget, ok_bind, hfind]
    exact hr₂
  · by_cases hu : u = p
    · rw [hu, Function.update_self]
      simp [unlinked]
    · rw [Function.update_of_ne hu]
      simp [unlinked, hu]

/-- The scheduler when the exiting task calls `schedule`. -/
def Scheduler.leaving (s : Scheduler) (m : Machine) : Scheduler :=
  {s.withMachine m with zombie := s.currentTask, trace := .exit s.currentTask :: s.trace}

/-- Another task than the boot task is not alone on the list. -/
theorem SchedInv.next_ne (h : SchedInv B T s) (ht : t ∈ s.head :: s.others) (hne : t ≠ s.head) :
    (T t).next ≠ t := by
  intro heq
  obtain ⟨zs, hring, hperm⟩ := h.ring.rotate ht
  have hz : zs.headD t = t := (hring.next_eq (show t :: zs = [] ++ t :: zs from rfl)).symm.trans heq
  cases zs with
  | nil => exact hne (List.mem_singleton.mp (hperm.mem_iff.mpr List.mem_cons_self)).symm
  | cons z zs =>
    have hnodup := hring.nodup
    rw [show z = t from hz] at hnodup
    simp at hnodup

/-- What `task_exit` computes: the task in front skips the one that exits, and the next
one has its turn. -/
theorem SchedInv.exit_runs (h : SchedInv B T s) (hne : s.currentTask ≠ s.head) (rsp : Nat) :
    ∃ p ∈ s.head :: s.others, (T p).next = s.currentTask ∧ ∃ m₁ m,
      taskExit s rsp = .ok ((s.leaving m₁).turnTo (T s.currentTask).next m) ∧
      Tasks B (switched (unlinked T s.currentTask p) s.currentTask (T s.currentTask).next)
        ((s.leaving m₁).turnTo (T s.currentTask).next m) := by
  have hc := h.member _ h.current
  have hnmem := h.next_mem h.current
  have hnc := h.next_ne h.current hne
  obtain ⟨p, hp, hpnext, m₀, m₁, hr₀, hr₁, h₁⟩ := h.unlink
  have hpc : p ≠ s.currentTask := fun heq => hnc (by rw [← heq, hpnext, heq])
  have hcnext : (unlinked T s.currentTask p s.currentTask).next = (T s.currentTask).next :=
    if_neg (Ne.symm hpc)
  have h₂ : Tasks B (unlinked T s.currentTask p) (s.leaving m₁) := h₁.vars rfl
  have hnstate : (unlinked T s.currentTask p (T s.currentTask).next).state ≠ TaskState.dead.code := by
    rw [unlinked_state T p hnc]
    exact h.not_dead hnmem
  obtain ⟨m, hr, h₃⟩ := (h₂.switchNext hc hcnext (h.member _ hnmem) (.inl hnstate) rsp).2 hnc
  refine ⟨p, hp, hpnext, m₁, m, ?_, h₃⟩
  rw [Sched.taskExit, hr₀, ok_bind]
  show (Sched.listRemove (s.withMachine m₀) s.currentTask >>= fun s' =>
    Sched.schedule {s' with zombie := s'.currentTask, trace := .exit s'.currentTask :: s'.trace} rsp) = _
  rw [hr₁, ok_bind]
  show Sched.schedule (s.leaving m₁) rsp = _
  have hnull : (s.leaving m₁).currentTask ≠ null := h.tasks.ne_null hc
  have hreap : Sched.reap (s.leaving m₁) = .ok (s.leaving m₁) := if_neg fun hz => hz.2 rfl
  rw [Sched.schedule, if_neg hnull, hreap, ok_bind, hr]

/-- Who stays on a list with a first member that stays. -/
theorem mem_cons_filter {hd c : Nat} {ts : List Nat} (hne : c ≠ hd) :
    t ∈ hd :: ts.filter (fun u => decide (u ≠ c)) ↔ t ∈ hd :: ts ∧ t ≠ c := by
  simp only [List.mem_cons, List.mem_filter, decide_eq_true_eq]
  constructor
  · rintro (rfl | ⟨ht, htc⟩)
    · exact ⟨.inl rfl, hne.symm⟩
    · exact ⟨.inr ht, htc⟩
  · rintro ⟨rfl | ht, htc⟩
    · exact .inl rfl
    · exact .inr ⟨ht, htc⟩

/-- The current task was created, unless it is the boot task. -/
theorem SchedInv.current_alive (h : SchedInv B T s) (hne : s.currentTask ≠ s.head) :
    ∃ k, (s.currentTask, k) ∈ alive s.trace := by
  obtain ⟨⟨t, k⟩, hmem, heq⟩ := List.mem_map.mp ((List.mem_cons.mp h.current).resolve_left hne)
  change t = s.currentTask at heq
  exact ⟨k, heq ▸ hmem⟩

/-- No two tasks share a stack. -/
theorem SchedInv.stack_inj (h : SchedInv B T s) {u l : Nat} (htk : (t, k) ∈ alive s.trace)
    (hul : (u, l) ∈ alive s.trace) (heq : l = k) : u = t :=
  congrArg Prod.fst (List.inj_on_of_nodup_map h.distinct hul htk heq)

/-- The ring closes behind the task that left. -/
theorem SchedInv.exit_ring (h : SchedInv B T s) (hne : s.currentTask ≠ s.head) {p n : Nat}
    (hp : p ∈ s.head :: s.others) (hpnext : (T p).next = s.currentTask) :
    Ring (fun t => (switched (unlinked T s.currentTask p) s.currentTask n t).next) s.head
      (s.others.filter fun u => decide (u ≠ s.currentTask)) := by
  obtain ⟨xs, ys, hsplit⟩ := List.append_of_mem ((List.mem_cons.mp h.current).resolve_left hne)
  have hring := h.ring
  rw [hsplit] at hring hp
  rw [hsplit, filter_ne hring.nodup.of_cons]
  exact hring.remove hp hpnext (if_pos rfl) fun y _ hy => if_neg hy

/-- **`task_exit`** by another task than the boot task hands over to the next task,
leaves a zombie and keeps the invariant. -/
theorem SchedInv.exit (h : SchedInv B T s) (hne : s.currentTask ≠ s.head) (rsp : Nat) :
    ∃ T' m₁ m, taskExit s rsp = .ok ((s.leaving m₁).turnTo (T s.currentTask).next m) ∧
      SchedInv B T' ((s.leaving m₁).turnTo (T s.currentTask).next m) ∧
      ∀ t, (T' t).base = (T t).base := by
  obtain ⟨p, hp, hpnext, m₁, m, hr, htasks⟩ := h.exit_runs hne rsp
  have hothers : ((s.leaving m₁).turnTo (T s.currentTask).next m).others =
      s.others.filter fun u => decide (u ≠ s.currentTask) := others_exit s.trace s.currentTask
  obtain ⟨k, hck⟩ := h.current_alive hne
  obtain ⟨hbase, hstack⟩ := h.stack _ k hck
  have halive : ∀ t k, (t, k) ∈ (alive s.trace).filter (fun a => decide (a.1 ≠ s.currentTask)) →
      (t, k) ∈ alive s.trace ∧ t ≠ s.currentTask := by
    intro t k htk
    obtain ⟨hmem, htc⟩ := List.mem_filter.mp htk
    exact ⟨hmem, of_decide_eq_true htc⟩
  refine ⟨_, m₁, m, hr, ⟨htasks, ?_, fun t ht => ?_, ?_, fun t ht => ?_, fun t k htk => ?_, ?_, fun _ => ?_,
    h.boot⟩, fun t => rfl⟩
  · rw [hothers]
    exact h.exit_ring hne hp hpnext
  · rw [hothers] at ht
    exact h.member t ((mem_cons_filter hne).mp ht).1
  · rw [hothers]
    exact (mem_cons_filter hne).mpr ⟨h.next_mem h.current, h.next_ne h.current hne⟩
  · rw [hothers] at ht
    obtain ⟨hmem, htc⟩ := (mem_cons_filter hne).mp ht
    have hready : stateUnder s.currentTask t = .ready := if_neg htc
    have hfinal : (switched (unlinked T s.currentTask p) s.currentTask (T s.currentTask).next t).state =
        if t = (T s.currentTask).next then TaskState.running.code else TaskState.ready.code := by
      rw [switched_state _ htc, unlinked_state T p htc, h.state t hmem, hready]
    refine hfinal.trans ?_
    show _ = (if t = (T s.currentTask).next then TaskState.running else .ready).code
    split <;> rfl
  · exact h.stack t k (halive t k htk).1
  · exact h.distinct.sublist (List.filter_sublist.map _)
  · refine ⟨h.member _ h.current, fun hmem => ?_, ?_, fun hmem => ?_⟩
    · rw [hothers] at hmem
      exact ((mem_cons_filter hne).mp hmem).2 rfl
    · show s.IsStack (T s.currentTask).base
      rw [hbase]
      exact hstack
    · obtain ⟨⟨u, l⟩, hul, hl⟩ := List.mem_map.mp hmem
      obtain ⟨hmem, huc⟩ := halive u l hul
      exact huc (h.stack_inj hck hmem (hl.trans hbase))

/-! ### `task_create` -/

/-- The scheduler after a task was created. -/
def Scheduler.created (s : Scheduler) (t k : Nat) (m : Machine) : Scheduler :=
  {s with
    heap := ⟨m, (k, kstackSize) :: (t, sizeofTask) :: s.heap.live⟩
    nextTid := add64 s.nextTid 1
    trace := .create t k :: s.trace}

/-- A task goes behind the first one. -/
theorem Tasks.listAdd (h : Tasks B T s) (ht : s.IsTask t) (hhead : s.IsTask s.head) (hth : t ≠ s.head)
    (hnext : s.IsTask (T s.head).next) : ∃ m, listAdd s t = .ok (s.withMachine m) ∧
      Tasks B (fun u => if u = t then {T t with next := (T s.head).next}
        else if u = s.head then {T s.head with next := t} else T u) (s.withMachine m) := by
  obtain ⟨m₁, hr₁, h₁⟩ := h.setNext ht (h.lt hnext)
  obtain ⟨m₂, hr₂, h₂⟩ := h₁.setNext (t := s.head) hhead (h.lt ht)
  refine ⟨m₂, ?_, h₂.congr fun u _ => ?_⟩
  · simp only [Sched.listAdd, h.getNext hhead, ok_bind, hr₁]
    exact hr₂
  · by_cases hu : u = s.head
    · simp [hu, hth.symm]
    · by_cases hut : u = t
      · simp [hut, hth]
      · simp [hu, hut]

/-- The scheduler once the task and its links are written. -/
def Scheduler.built (s : Scheduler) (t k : Nat) (m : Machine) : Scheduler :=
  {s.withMachine m with nextTid := add64 s.nextTid 1, trace := .create t k :: s.trace}

/-- The table with a new task `t` that is not on the list yet. -/
def prepared (T : Nat → Task) (t k : Nat) : Nat → Task := fun u =>
  if u = t then ⟨k, TaskState.ready.code, (T t).next⟩ else T u

/-- The table with a new task `t` behind the first one. -/
def withTask (T : Nat → Task) (head t k : Nat) : Nat → Task := fun u =>
  if u = t then ⟨k, TaskState.ready.code, (T head).next⟩
  else if u = head then {T head with next := t} else T u

theorem Tasks.buildTask (h : Tasks B T s) (hk : s.IsStack k) (ht : s.IsTask t) (hhead : s.IsTask s.head)
    (hth : t ≠ s.head) (hnext : s.IsTask (T s.head).next) (taskTrampoline entry arg : Nat) :
    ∃ m, buildTask taskTrampoline s t k entry arg = .ok (t, s.built t k m) ∧
      Tasks B (withTask T s.head t k) (s.built t k m) := by
  have hklt := h.stack_lt hk
  obtain ⟨sp, m₁, hr₁, h₁⟩ : ∃ sp m, Sched.pushWords s (Sched.stackTop k)
      (initialFrame taskTrampoline entry arg) = .ok (sp, s.withMachine m) ∧
      Tasks B T (s.withMachine m) := by
    rw [h.stackTop hk]
    exact ⟨_, h.pushWords hk _ (show 8 * 7 ≤ kstackSize by decide) (Nat.le_refl _)⟩
  obtain ⟨m₂, hr₂, h₂⟩ := h₁.setRsp (t := t) ht sp
  obtain ⟨m₃, hr₃, h₃⟩ := h₂.setStackBase (t := t) ht hklt
  obtain ⟨m₄, hr₄, h₄⟩ := h₃.setState (t := t) ht .ready
  obtain ⟨m₅, hr₅, h₅⟩ := h₄.setId (t := t) ht s.nextTid
  have h₆ : Tasks B (prepared T t k) {s.withMachine m₅ with nextTid := add64 s.nextTid 1} := by
    refine Tasks.vars (h₅.congr fun u _ => ?_) rfl
    by_cases hu : u = t
    · simp [prepared, hu]
    · simp [prepared, hu]
  have hsame : prepared T t k s.head = T s.head := if_neg hth.symm
  obtain ⟨m, hr, h₇⟩ := h₆.listAdd (t := t) ht hhead hth
    (show s.IsTask (prepared T t k s.head).next by rw [hsame]; exact hnext)
  refine ⟨m, ?_, Tasks.vars (h₇.congr fun u _ => ?_) rfl⟩
  · simp only [Sched.buildTask, hr₁, hr₂, hr₃, hr₄, ok_bind]
    rw [show Sched.setId ((((s.withMachine m₁).withMachine m₂).withMachine m₃).withMachine m₄) t
      ((((s.withMachine m₁).withMachine m₂).withMachine m₃).withMachine m₄).nextTid = _ from hr₅, ok_bind]
    exact congrArg (· >>= _) hr
  · show withTask T s.head t k u = if u = t then {prepared T t k t with next := (prepared T t k s.head).next}
      else if u = s.head then {prepared T t k s.head with next := t} else prepared T t k u
    rw [hsame]
    by_cases hut : u = t
    · simp [withTask, prepared, hut]
    · simp [withTask, prepared, hut]

theorem withTask_same (T : Nat → Task) {head u : Nat} (k : Nat) (hut : u ≠ t) (hu : u ≠ head) :
    withTask T head t k u = T u := by
  rw [withTask, if_neg hut, if_neg hu]

/-- Linking a task in changes no other task's stack or state. -/
theorem withTask_other (T : Nat → Task) {head u : Nat} (k : Nat) (hut : u ≠ t) :
    (withTask T head t k u).base = (T u).base ∧ (withTask T head t k u).state = (T u).state := by
  by_cases hu : u = head
  · rw [withTask, if_neg hut, if_pos hu, hu]
    exact ⟨rfl, rfl⟩
  · rw [withTask_same T k hut hu]
    exact ⟨rfl, rfl⟩

/-- What was live still is. -/
theorem Scheduler.created_live {m : Machine} {q n : Nat} (h : (q, n) ∈ s.heap.live) :
    (q, n) ∈ (s.created t k m).heap.live := List.mem_cons_of_mem _ (List.mem_cons_of_mem _ h)

/-- What `task_create` computes with memory for both; what it was given is new. -/
theorem SchedInv.create_runs (h : SchedInv B T s) {s₁ s₂ : Scheduler}
    (hr₁ : kmalloc s sizeofTask = .ok (t, s₁)) (ht : t ≠ null)
    (hr₂ : kmalloc s₁ kstackSize = .ok (k, s₂)) (hk : k ≠ null) (taskTrampoline entry arg : Nat) :
    ∃ T₂ m, taskCreate taskTrampoline s entry arg = .ok (t, s.created t k m) ∧
      Tasks B (withTask T₂ s.head t k) (s.created t k m) ∧ (∀ u, s.IsTask u → T₂ u = T u) ∧
      (∀ u, s.IsTask u → u ≠ t) ∧ ∀ l, s.IsStack l → l ≠ k := by
  obtain ⟨T₁, m₁, rfl, h₁, hsame₁, hfresh₁⟩ := h.tasks.kmalloc (by decide) hr₁
  obtain ⟨T₂, m₂, rfl, h₂, hsame₂, hfresh₂⟩ := h₁.kmalloc (by decide) hr₂
  have hrec₁ : Heap.record t sizeofTask s.heap.live = (t, sizeofTask) :: s.heap.live := if_neg ht
  have hrec₂ : ∀ live, Heap.record k kstackSize live = (k, kstackSize) :: live := fun _ => if_neg hk
  simp only [hrec₁, hrec₂] at hr₁ h₁ hr₂ h₂ hsame₂ hfresh₂
  have hT : ∀ u, s.IsTask u → T₂ u = T u := fun u hu =>
    (hsame₂ u (List.mem_cons_of_mem _ hu)).trans (hsame₁ u hu)
  have hnew : ∀ u, s.IsTask u → u ≠ t := fun u hu => hfresh₁ u _ hu
  have hhead := h.member s.head List.mem_cons_self
  have hnext := h.member _ (h.next_mem List.mem_cons_self)
  rw [← hT _ hhead] at hnext
  obtain ⟨m, hr, h₃⟩ := h₂.buildTask (t := t) (k := k) List.mem_cons_self
    (List.mem_cons_of_mem _ List.mem_cons_self) (List.mem_cons_of_mem _ (List.mem_cons_of_mem _ hhead))
    (hnew _ hhead).symm (List.mem_cons_of_mem _ (List.mem_cons_of_mem _ hnext)) taskTrampoline entry arg
  refine ⟨T₂, m, ?_, h₃, hT, hnew, fun l hl => hfresh₂ l _ (List.mem_cons_of_mem _ hl)⟩
  rw [taskCreate, hr₁, ok_bind]
  show (Sched.kmalloc _ kstackSize >>= fun r => Sched.buildTask taskTrampoline r.2 t r.1 entry arg) = _
  rw [hr₂, ok_bind, hr]
  rfl

/-- The new task stands behind the first one. -/
theorem SchedInv.create_ring (h : SchedInv B T s) {T₂ : Nat → Task} (hT : ∀ u, s.IsTask u → T₂ u = T u)
    (hnew : ∀ u, s.IsTask u → u ≠ t) :
    Ring (fun u => (withTask T₂ s.head t k u).next) s.head (t :: s.others) := by
  have hhead := h.member s.head List.mem_cons_self
  refine h.ring.insert (fun hmem => hnew t (h.member t hmem) rfl) ?_ ?_ fun u hu => ?_
  · show (withTask T₂ s.head t k t).next = (T s.head).next
    rw [withTask, if_pos rfl, hT _ hhead]
  · show (withTask T₂ s.head t k s.head).next = t
    rw [withTask, if_neg (hnew _ hhead), if_pos rfl]
  · have hutask := h.member u (List.mem_cons_of_mem _ hu)
    have huhead : u ≠ s.head := fun heq => (List.nodup_cons.mp h.ring.nodup).1 (heq ▸ hu)
    show (withTask T₂ s.head t k u).next = (T u).next
    rw [withTask_same T₂ k (hnew u hutask) huhead, hT u hutask]

/-- **`task_create`** with memory for both puts the new task behind the boot task. -/
theorem SchedInv.create (h : SchedInv B T s) {s₁ s₂ : Scheduler}
    (hr₁ : kmalloc s sizeofTask = .ok (t, s₁)) (ht : t ≠ null)
    (hr₂ : kmalloc s₁ kstackSize = .ok (k, s₂)) (hk : k ≠ null) (taskTrampoline entry arg : Nat) :
    ∃ T' m, taskCreate taskTrampoline s entry arg = .ok (t, s.created t k m) ∧
      SchedInv B T' (s.created t k m) ∧ (T' t).base = k ∧
      ∀ u, s.IsTask u → (T' u).base = (T u).base := by
  obtain ⟨T₂, m, hr, htasks, hT, hnew, hfresh⟩ := h.create_runs hr₁ ht hr₂ hk taskTrampoline entry arg
  have hbase : ∀ u, s.IsTask u → (withTask T₂ s.head t k u).base = (T u).base := fun u hu => by
    rw [(withTask_other T₂ k (hnew u hu)).1, hT u hu]
  have hself : withTask T₂ s.head t k t = ⟨k, TaskState.ready.code, (T₂ s.head).next⟩ := if_pos rfl
  -- the list but for the new task
  have hlist : ∀ u, u ∈ s.head :: t :: s.others ↔ u = t ∨ u ∈ s.head :: s.others := by
    intro u
    simp only [List.mem_cons]
    exact or_left_comm
  have htask : (s.created t k m).IsTask t := List.mem_cons_of_mem _ List.mem_cons_self
  refine ⟨_, m, hr, ⟨htasks, h.create_ring hT hnew, fun u hu => ?_, (hlist _).mpr (.inr h.current),
    fun u hu => ?_, fun u l hul => ?_, ?_, fun hz => ?_,
    (hbase _ (h.member s.head List.mem_cons_self)).trans h.boot⟩, congrArg Task.base hself, hbase⟩
  · rcases (hlist u).mp hu with rfl | hu
    · exact htask
    · exact Scheduler.created_live (h.member u hu)
  · rcases (hlist u).mp hu with rfl | hu
    · have hready : stateUnder s.currentTask u = .ready := if_neg (hnew _ (h.member _ h.current)).symm
      rw [hself]
      exact congrArg TaskState.code hready.symm
    · have hutask := h.member u hu
      rw [(withTask_other T₂ k (hnew u hutask)).2, hT u hutask]
      exact h.state u hu
  · rcases List.mem_cons.mp hul with heq | hul
    · cases heq
      exact ⟨congrArg Task.base hself, List.mem_cons_self⟩
    · obtain ⟨hul₁, hul₂⟩ := h.stack u l hul
      have hutask := h.member u (List.mem_cons_of_mem _ (List.mem_map.mpr ⟨(u, l), hul, rfl⟩))
      exact ⟨(hbase u hutask).trans hul₁, Scheduler.created_live hul₂⟩
  · refine List.nodup_cons.mpr ⟨fun hmem => ?_, h.distinct⟩
    obtain ⟨⟨u, l⟩, hul, hl⟩ := List.mem_map.mp hmem
    exact hfresh l (h.stack u l hul).2 hl
  · obtain ⟨hztask, hzring, hzstack, hzother⟩ := h.zombie hz
    have hzbase : (withTask T₂ s.head t k (s.created t k m).zombie).base = (T s.zombie).base := hbase _ hztask
    refine ⟨Scheduler.created_live hztask, fun hmem => ?_, ?_, ?_⟩
    · exact ((hlist _).mp hmem).elim (hnew _ hztask) hzring
    · rw [hzbase]
      exact Scheduler.created_live hzstack
    · rw [hzbase]
      exact List.not_mem_cons_of_ne_of_not_mem (hfresh _ hzstack) hzother

/-! ### Null pointers -/

/-- A field of a null task is not mapped. -/
theorem Tasks.setField_null (h : Tasks B T s) (off n x : Nat) (hoff : off + n < 2 ^ 39) :
    ∃ f, Sched.setField s null off (n + 1) x = .error f := by
  obtain ⟨V, hV⟩ := h.client
  obtain ⟨f, hf⟩ := hV.write_low hoff x
  refine ⟨f, ?_⟩
  have haddr : add64 null off = off := by
    unfold add64 null
    omega
  rw [Sched.setField, haddr, Scheduler.machine, hf, error_bind]

/-- Neither is the stack at a null pointer. -/
theorem Tasks.pushWords_null (h : Tasks B T s) (v : Nat) (vs : List Nat) :
    ∃ f, Sched.pushWords s (Sched.stackTop null) (v :: vs) = .error f := by
  obtain ⟨V, hV⟩ := h.client
  obtain ⟨f, hf⟩ := hV.write_low (v := 0x3ff8) (k := 7) (by decide) v
  refine ⟨f, ?_⟩
  have hsp : sub64 (Sched.stackTop null) 8 = 0x3ff8 := by decide
  rw [Sched.pushWords, hsp, Virtual.write64, Scheduler.machine, hf, error_bind]

/-- Where `task_create` returns, both its allocations succeeded. -/
theorem SchedInv.create_served (h : SchedInv B T s) {taskTrampoline entry arg : Nat}
    (hr : taskCreate taskTrampoline s entry arg = .ok (t, s')) :
    ∃ s₁ k s₂, kmalloc s sizeofTask = .ok (t, s₁) ∧ t ≠ null ∧
      kmalloc s₁ kstackSize = .ok (k, s₂) ∧ k ≠ null := by
  obtain ⟨⟨t', s₁⟩, hr₁, hr⟩ := ok_of_bind hr
  change (kmalloc s₁ kstackSize >>= fun r => Sched.buildTask taskTrampoline r.2 t' r.1 entry arg) = _ at hr
  obtain ⟨⟨k, s₂⟩, hr₂, hr⟩ := ok_of_bind hr
  change Sched.buildTask taskTrampoline s₂ t' k entry arg = _ at hr
  obtain ⟨T₁, m₁, hs₁, h₁, _⟩ := h.tasks.kmalloc (by decide) hr₁
  obtain ⟨T₂, m₂, hs₂, h₂, _⟩ := h₁.kmalloc (by decide) hr₂
  have hk : k ≠ null := by
    rintro rfl
    obtain ⟨f, hf⟩ := h₂.pushWords_null taskTrampoline [0, entry, arg, 0, 0, 0]
    rw [Sched.buildTask, initialFrame, hf] at hr
    cases hr
  have hkstack : s₂.IsStack k := by
    rw [hs₂]
    show (k, kstackSize) ∈ Heap.record k kstackSize _
    rw [Heap.record, if_neg hk]
    exact List.mem_cons_self
  have ht : t' ≠ null := by
    rintro rfl
    obtain ⟨m₃, hr₃, h₃⟩ := h₂.pushWords hkstack (initialFrame taskTrampoline entry arg)
      (show 8 * 7 ≤ kstackSize by decide) (Nat.le_refl _)
    rw [← h₂.stackTop hkstack] at hr₃
    obtain ⟨f, hf⟩ := h₃.setField_null 0 7
      (add64 k (kstackSize - 8 * (initialFrame taskTrampoline entry arg).length)) (by decide)
    rw [Sched.buildTask, hr₃, ok_bind] at hr
    change (setField _ null 0 8 _ >>= _) = _ at hr
    rw [hf] at hr
    cases hr
  obtain ⟨_, _, hok, _⟩ := h.create hr₁ ht hr₂ hk taskTrampoline entry arg
  rw [taskCreate, hr₁, ok_bind] at hok
  change (kmalloc s₁ kstackSize >>= fun r => Sched.buildTask taskTrampoline r.2 t' r.1 entry arg) = _ at hok
  rw [hr₂, ok_bind] at hok
  have heq : t' = t := congrArg Prod.fst (Except.ok.inj (hok.symm.trans hr))
  subst heq
  exact ⟨s₁, k, s₂, hr₁, ht, hr₂, hk⟩

/-! ### `sched_init` -/

/-- The scheduler while `sched_init` fills in the boot task. -/
def bootState (boot : Nat) (live : List (Nat × Nat)) (m : Machine) : Scheduler :=
  {Scheduler.fresh ⟨m, (boot, sizeofTask) :: live⟩ with nextTid := 1}

/-- **`sched_init`** on a heap leaves the boot task alone on the list. -/
theorem schedInit_ok {w : HeapRun} {V : Mem} (hw : Client B V w) {boot : Nat} {s₁ : Scheduler}
    (hr₁ : kmalloc (.fresh w) sizeofTask = .ok (boot, s₁)) (hboot : boot ≠ null) :
    ∃ T s', schedInit (.fresh w) = .ok s' ∧ SchedInv B T s' ∧ s'.trace = [] ∧ s'.zombie = null := by
  have h₀ : Tasks B (taskAt V) (.fresh w) := ⟨V, hw, fun _ _ => rfl⟩
  obtain ⟨T₁, m₁, rfl, h₁, _⟩ := h₀.kmalloc (by decide) hr₁
  have hrec : Heap.record boot sizeofTask w.live = (boot, sizeofTask) :: w.live := if_neg hboot
  simp only [Scheduler.fresh, hrec] at hr₁ h₁
  have htask : (boot, sizeofTask) ∈ (boot, sizeofTask) :: w.live := List.mem_cons_self
  obtain ⟨m₂, hr₂, h₂⟩ := h₁.setId (t := boot) htask 0
  obtain ⟨m₃, hr₃, h₃⟩ := (show Tasks B T₁ (bootState boot w.live m₂) from h₂.vars rfl).setState
    (t := boot) htask .running
  obtain ⟨m₄, hr₄, h₄⟩ := h₃.setStackBase (t := boot) (x := null) htask (by decide)
  obtain ⟨m₅, hr₅, h₅⟩ := h₄.setNext (t := boot) htask (h₁.lt htask)
  have hself : (fun u => if u = boot then (⟨null, TaskState.running.code, boot⟩ : Task) else T₁ u) boot =
      ⟨null, TaskState.running.code, boot⟩ := if_pos rfl
  refine ⟨fun u => if u = boot then ⟨null, TaskState.running.code, boot⟩ else T₁ u,
    {bootState boot w.live m₅ with head := boot, currentTask := boot}, ?_,
    ⟨(h₅.congr fun u _ => ?_).vars rfl, .single ?_, fun u hu => ?_, List.mem_cons_self, fun u hu => ?_,
      (fun _ _ hu => nomatch hu), .nil, fun hz => absurd rfl hz, congrArg Task.base hself⟩, rfl, rfl⟩
  · rw [schedInit, Scheduler.fresh, hr₁, ok_bind]
    show (Sched.setId _ boot 0 >>= fun s => _) = _
    rw [hr₂, ok_bind]
    show (Sched.setState (bootState boot w.live m₂) boot .running >>= fun s => _) = _
    rw [hr₃, ok_bind]
    show (Sched.setStackBase _ boot null >>= fun s => _) = _
    rw [hr₄, ok_bind]
    show (Sched.setNext _ boot boot >>= fun s => _) = _
    rw [hr₅, ok_bind]
    rfl
  · by_cases hu : u = boot
    · simp [hu]
    · simp [hu]
  · exact congrArg Task.next hself
  · rw [List.mem_singleton.mp hu]
    exact htask
  · rw [List.mem_singleton.mp hu]
    have hrun : stateUnder boot boot = .running := if_pos rfl
    refine (congrArg Task.state hself).trans ?_
    show TaskState.running.code = (stateUnder boot boot).code
    rw [hrun]

/-- Where `sched_init` returns, its allocation succeeded. -/
theorem schedInit_served {w : HeapRun} {V : Mem} (hw : Client B V w) (hr : schedInit (.fresh w) = .ok s) :
    ∃ boot s₁, kmalloc (.fresh w) sizeofTask = .ok (boot, s₁) ∧ boot ≠ null := by
  have h₀ : Tasks B (taskAt V) (.fresh w) := ⟨V, hw, fun _ _ => rfl⟩
  obtain ⟨⟨boot, s₁⟩, hr₁, hr⟩ := ok_of_bind hr
  refine ⟨boot, s₁, hr₁, ?_⟩
  rintro rfl
  obtain ⟨T₁, m₁, _, h₁, _⟩ := h₀.kmalloc (by decide) hr₁
  obtain ⟨f, hf⟩ := h₁.setField_null 24 7 s₁.nextTid (by decide)
  change (Sched.setField s₁ null 24 8 s₁.nextTid >>= _) = _ at hr
  rw [hf] at hr
  cases hr

end Proofs

end ArcMonark.Sched
