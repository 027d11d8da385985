import ArcMonark.Cpu.Switch
import ArcMonark.Library.Runs

/-! Tasks that switch between one another.

In a run, tasks are created, the current one computes on its stack and calls
`switch_context` to turn to another one, and tasks that have exited are dropped and
their memory used again. Each task that waits has its context where its `task_t` says
(`KernelInv`), so it goes on as if its call had returned at once
(`context_switch_transparent`). Memory is flat here; `Cpu/SwitchHeap.lean` has the
same tasks on the heap. -/
namespace ArcMonark.Cpu
open Library Library.X86
open Sched (sizeofTask kstackSize stackTop initialFrame)

/-! ### `task_create` -/

/-- The fields of a new `task_t`, and `list_add`. -/
def writeTask (mem : Mem) (head t sp stack id : Nat) : Mem :=
  let mem := mem.store64 t sp
  let mem := mem.store64 (t + 8) stack
  let mem := mem.store (t + 16) 4 Sched.TaskState.ready.code
  let mem := mem.store64 (t + 24) id
  let mem := mem.store64 (t + 32) (mem.load64 (head + 32))
  mem.store64 (head + 32) t

/-- The writes of `task_create`, with the memory it was given for the task at `t` and
its stack. -/
def taskCreate (taskTrampoline : Nat) (mem : Mem) (head t stack id entry arg : Nat) : Mem :=
  let frame := initialFrame taskTrampoline entry arg
  let mem := mem.push (stackTop stack) frame
  writeTask mem head t (stackTop stack - 8 * frame.length) stack id

/-! ### Threads -/

/-- A task, by its `task_t`, and the bytes of its stack. -/
structure Thread where
  task : Nat
  lo : Nat
  hi : Nat

structure Thread.Valid (u : Thread) : Prop where
  top : u.hi < 2 ^ 64
  apart : u.task + sizeofTask ≤ u.lo ∨ u.hi ≤ u.task

/-- Two tasks share no memory. -/
structure Thread.Apart (u v : Thread) : Prop where
  ranges : u.hi ≤ v.lo ∨ v.hi ≤ u.lo
  tasks : u.task + sizeofTask ≤ v.task ∨ v.task + sizeofTask ≤ u.task
  left : u.task + sizeofTask ≤ v.lo ∨ v.hi ≤ u.task
  right : v.task + sizeofTask ≤ u.lo ∨ u.hi ≤ v.task

instance : Std.Symm Thread.Apart := ⟨fun _ _ h => ⟨h.ranges.symm, h.tasks.symm, h.right, h.left⟩⟩

/-- Where a task that is not running has to go on. -/
inductive Saved where
  /-- It called `switch_context` in this context. -/
  | called (ctx : Context)
  /-- It has not run since `task_create` made it. -/
  | created (stack : Nat) (entry arg : Word)

/-- The context a task goes on with. -/
def Saved.context (L : Layout) : Saved → Context
  | .called ctx => ctx
  | .created stack entry arg =>
    ⟨0, entry, arg, 0, 0, 0, BitVec.ofNat 64 (stackTop stack), L.taskTrampoline⟩

/-- The processor and its tasks. `saved` keeps the history of the tasks that are not
running, for stating what becomes of them; nothing reads it. -/
structure Kernel where
  cpu : State
  threads : List Thread
  current : Nat
  head : Nat
  saved : Nat → Saved

namespace Kernel
variable (s : Kernel) (L : Layout)

/-- The saved stack pointer of a task. -/
def savedRsp (u : Thread) : Nat := s.cpu.mem.load64 u.task

/-- The bytes that keep the context of a task that is not running: its saved stack
pointer, and its frame. -/
def Guarded (a : Nat) : Prop :=
  ∃ u ∈ s.threads, u.task ≠ s.current ∧
    (u.task ≤ a ∧ a < u.task + 8 ∨ s.savedRsp u ≤ a ∧ a < s.savedRsp u + frameSize)

/-- The current task has called `switch_context(&prev->rsp, next->rsp)` from its own stack. -/
structure Calls (n : Thread) : Prop where
  target : n ∈ s.threads
  other : n.task ≠ s.current
  rip : s.cpu.rip = L.switchContext
  rdi : (s.cpu.reg .rdi).toNat = s.current
  rsi : (s.cpu.reg .rsi).toNat = s.savedRsp n
  room : ∀ w ∈ s.threads, w.task = s.current →
    w.lo + 48 ≤ (s.cpu.reg .rsp).toNat ∧ (s.cpu.reg .rsp).toNat + 8 ≤ w.hi

def created (t stack id : Nat) (entry arg : Word) : Kernel :=
  {s with
    cpu := {s.cpu with
      mem := taskCreate L.taskTrampoline.toNat s.cpu.mem s.head t stack id entry.toNat arg.toNat}
    threads := ⟨t, stack, stack + kstackSize⟩ :: s.threads
    saved := Function.update s.saved t (.created stack entry arg)}

/-- The tasks once `cpu` has come out of `switch_context`. -/
def switched (n : Thread) (cpu : State) : Kernel :=
  {s with
    cpu
    current := n.task
    saved := Function.update s.saved s.current (.called (callContext s.cpu))}

end Kernel

inductive KernelEvent where
  | create (t stack id : Nat) (entry arg : Word)
  /-- The current task computes. -/
  | work
  | switch (n : Thread)
  /-- A task has exited, and never runs again. -/
  | drop (t : Nat)

inductive KernelStep (L : Layout) (s : Kernel) : KernelEvent → Kernel → Prop where
  /-- Both allocations give memory that no task has. -/
  | create {t stack id entry arg} (hvalid : Thread.Valid ⟨t, stack, stack + kstackSize⟩)
      (hfresh : ∀ u ∈ s.threads, Thread.Apart ⟨t, stack, stack + kstackSize⟩ u) :
      KernelStep L s (.create t stack id entry arg) (s.created L t stack id entry arg)
  | work {cpu} (hkeep : ∀ a, s.Guarded a → cpu.mem a = s.cpu.mem a) : KernelStep L s .work {s with cpu}
  | switch {n cpu} (hcall : s.Calls L n) (hruns : L.steps 15 s.cpu = some cpu) :
      KernelStep L s (.switch n) (s.switched n cpu)
  | drop {t} (hcurrent : t ≠ s.current) (hhead : t ≠ s.head) :
      KernelStep L s (.drop t) {s with threads := s.threads.filter fun u => decide (u.task ≠ t)}

/-- At first there is the boot task. -/
def kernel (L : Layout) : System Kernel KernelEvent where
  init s := ∃ boot : Thread, boot.Valid ∧ s.threads = [boot] ∧ s.current = boot.task ∧ s.head = boot.task
  step := KernelStep L

/-! ### The invariant -/

/-- A task's context is kept on its stack. -/
structure Suspended (mem : Mem) (u : Thread) (ctx : Context) : Prop where
  low : u.lo ≤ mem.load64 u.task
  high : mem.load64 u.task + frameSize ≤ u.hi
  kept : Kept mem (mem.load64 u.task) ctx

structure KernelInv (L : Layout) (s : Kernel) : Prop where
  valid : ∀ u ∈ s.threads, u.Valid
  apart : s.threads.Pairwise Thread.Apart
  current : ∃ u ∈ s.threads, u.task = s.current
  head : ∃ u ∈ s.threads, u.task = s.head
  frame : ∀ u ∈ s.threads, u.task ≠ s.current → Suspended s.cpu.mem u ((s.saved u.task).context L)

section Invariant
variable {L : Layout} {s s' : Kernel} {mem mem' : Mem} {u v n : Thread} {ctx : Context}

/-- A context is kept as long as its bytes are. -/
theorem Suspended.congr (h : Suspended mem u ctx) (hfield : mem.Agree mem' u.task (u.task + 8))
    (hframe : mem.Agree mem' (mem.load64 u.task) (mem.load64 u.task + frameSize)) : Suspended mem' u ctx := by
  have hsame : mem'.load64 u.task = mem.load64 u.task := Mem.load64_congr hfield
  refine ⟨?_, ?_, ?_⟩ <;> rw [hsame]
  · exact h.low
  · exact h.high
  · exact h.kept.congr hframe

/-- A context is kept as long as the task's memory is. -/
theorem Suspended.outside (h : Suspended mem u ctx) (hfield : mem.Agree mem' u.task (u.task + 8))
    (hstack : mem.Agree mem' u.lo u.hi) : Suspended mem' u ctx :=
  h.congr hfield (hstack.mono h.low h.high)

theorem KernelInv.apart_of_ne (h : KernelInv L s) (hu : u ∈ s.threads) (hv : v ∈ s.threads) (hne : u ≠ v) :
    u.Apart v := h.apart.forall hu hv hne

/-- A task has one stack. -/
theorem KernelInv.unique (h : KernelInv L s) (hu : u ∈ s.threads) (hv : v ∈ s.threads)
    (heq : u.task = v.task) : u = v := by
  by_contra hne
  have hapart := (h.apart_of_ne hu hv hne).tasks
  unfold sizeofTask at hapart
  omega

/-- No task's stack holds a `task_t`. -/
theorem KernelInv.task_apart (h : KernelInv L s) (hu : u ∈ s.threads) (hv : v ∈ s.threads) :
    u.task + sizeofTask ≤ v.lo ∨ v.hi ≤ u.task := by
  by_cases heq : u = v
  · subst heq
    exact (h.valid u hu).apart
  · exact (h.apart_of_ne hu hv heq).left

/-! ### Creation -/

/-- The top of a stack, rounded down. -/
theorem stackTop_bounds {stack : Nat} (h : stack + kstackSize < 2 ^ 64) : stackTop stack % 16 = 0 ∧
    stackTop stack ≤ stack + kstackSize ∧ stack + kstackSize < stackTop stack + 16 := by
  have htop : stackTop stack = (stack + kstackSize) / 2 ^ 4 * 2 ^ 4 := by
    rw [stackTop, add64_eq h, and_bits (by decide), Nat.mod_eq_of_lt h]
  omega

variable {head t sp stack id b : Nat}

theorem writeTask_of_outside (mem : Mem) (ht : b < t ∨ t + sizeofTask ≤ b)
    (hh : b < head + 32 ∨ head + 40 ≤ b) : writeTask mem head t sp stack id b = mem b := by
  unfold sizeofTask at ht
  unfold writeTask
  rw [Mem.store64_of_outside _ _ (by omega), Mem.store64_of_outside _ _ (by omega),
    Mem.store64_of_outside _ _ (by omega), Mem.store_of_outside _ _ (by omega),
    Mem.store64_of_outside _ _ (by omega), Mem.store64_of_outside _ _ (by omega)]

theorem writeTask_rsp (mem : Mem) (hsp : sp < 2 ^ 64) (hh : t + 8 ≤ head + 32 ∨ head + 40 ≤ t) :
    (writeTask mem head t sp stack id).load64 t = sp := by
  unfold writeTask
  rw [Mem.load64_store64_apart _ _ (by omega), Mem.load64_store64_apart _ _ (by omega),
    Mem.load64_store64_apart _ _ (by omega), Mem.load64, Mem.load_store_apart _ _ (by omega), ← Mem.load64,
    Mem.load64_store64_apart _ _ (by omega), Mem.load64_store64_same _ _ hsp]

/-- `task_create` writes to the new memory and to one link. -/
theorem taskCreate_of_outside (mem : Mem) (taskTrampoline entry arg : Nat) (hlt : stack + kstackSize < 2 ^ 64)
    (hstack : b < stack ∨ stack + kstackSize ≤ b) (ht : b < t ∨ t + sizeofTask ≤ b)
    (hh : b < head + 32 ∨ head + 40 ≤ b) :
    taskCreate taskTrampoline mem head t stack id entry arg b = mem b := by
  obtain ⟨_, hle, hgt⟩ := stackTop_bounds hlt
  unfold kstackSize at hle hgt hstack
  have hlen : (initialFrame taskTrampoline entry arg).length = 7 := rfl
  unfold taskCreate
  rw [writeTask_of_outside _ ht hh, Mem.push_of_outside _ (by omega) (by omega)]

/-- **The frame that `task_create` builds** stands at the top of the stack, where the task's
saved stack pointer says. -/
theorem taskCreate_frame (mem : Mem) (id : Nat) {taskTrampoline entry arg : Nat} (htramp : taskTrampoline < 2 ^ 64)
    (hentry : entry < 2 ^ 64) (harg : arg < 2 ^ 64) (hvalid : Thread.Valid ⟨t, stack, stack + kstackSize⟩)
    (hhead : head + sizeofTask ≤ stack ∨ stack + kstackSize ≤ head)
    (ht : t + sizeofTask ≤ head ∨ head + sizeofTask ≤ t) :
    (taskCreate taskTrampoline mem head t stack id entry arg).load64 t = stackTop stack - frameSize ∧
    (taskCreate taskTrampoline mem head t stack id entry arg).words (stackTop stack - frameSize) 7 =
      (initialFrame taskTrampoline entry arg).reverse := by
  have htop := hvalid.top
  have hown := hvalid.apart
  obtain ⟨_, hle, hgt⟩ := stackTop_bounds htop
  change t + sizeofTask ≤ stack ∨ stack + kstackSize ≤ t at hown
  change stack + kstackSize < 2 ^ 64 at htop
  obtain ⟨frame, hframe⟩ : ∃ frame, frame = initialFrame taskTrampoline entry arg := ⟨_, rfl⟩
  have hlen : frame.length = 7 := by
    rw [hframe]
    rfl
  have hwords : ∀ w ∈ frame, w < 2 ^ 64 := by
    rw [hframe]
    simp only [initialFrame, List.mem_cons, List.not_mem_nil, or_false]
    omega
  have hcreate : taskCreate taskTrampoline mem head t stack id entry arg =
      writeTask (mem.push (stackTop stack) frame) head t (stackTop stack - 8 * frame.length) stack id := by
    rw [hframe]
    rfl
  have hsize : frameSize = 8 * frame.length := by rw [hlen, frameSize]
  unfold sizeofTask kstackSize at *
  rw [hcreate, hsize]
  refine ⟨writeTask_rsp _ (by omega) (by omega), ?_⟩
  have hag : (mem.push (stackTop stack) frame).Agree (writeTask (mem.push (stackTop stack) frame) head t
      (stackTop stack - 8 * frame.length) stack id) (stackTop stack - 8 * frame.length) (stackTop stack) :=
    fun b hb hb' => writeTask_of_outside _ (by unfold sizeofTask; omega) (by omega)
  rw [Mem.words_congr (hag.mono (Nat.le_refl _) (by omega)), ← hframe, ← hlen]
  exact Mem.words_push _ (by omega) hwords

/-- It is the one `switch_context` would have left. -/
theorem taskCreate_suspended (L : Layout) (mem : Mem) (entry arg : Word)
    (hvalid : Thread.Valid ⟨t, stack, stack + kstackSize⟩)
    (hhead : head + sizeofTask ≤ stack ∨ stack + kstackSize ≤ head)
    (ht : t + sizeofTask ≤ head ∨ head + sizeofTask ≤ t) :
    Suspended (taskCreate L.taskTrampoline.toNat mem head t stack id entry.toNat arg.toNat)
      ⟨t, stack, stack + kstackSize⟩ ((Saved.created stack entry arg).context L) := by
  obtain ⟨hrsp, hframe⟩ := taskCreate_frame mem id L.taskTrampoline.isLt entry.isLt arg.isLt hvalid hhead ht
  have htop := hvalid.top
  obtain ⟨_, hle, hgt⟩ := stackTop_bounds htop
  change stack + kstackSize < 2 ^ 64 at htop
  unfold kstackSize at *
  refine ⟨?_, ?_, ?_, ?_⟩ <;> rw [hrsp]
  · show stack ≤ _
    unfold frameSize
    omega
  · show _ ≤ stack + 16384
    unfold frameSize
    omega
  · exact hframe
  · show (BitVec.ofNat 64 (stackTop stack)).toNat = _
    rw [BitVec.toNat_ofNat, Nat.mod_eq_of_lt (by omega)]
    unfold frameSize
    omega

theorem KernelInv.create (h : KernelInv L s) {entry arg : Word}
    (hvalid : Thread.Valid ⟨t, stack, stack + kstackSize⟩)
    (hfresh : ∀ u ∈ s.threads, Thread.Apart ⟨t, stack, stack + kstackSize⟩ u) :
    KernelInv L (s.created L t stack id entry arg) := by
  obtain ⟨cur, hcur, hcurtask⟩ := h.current
  obtain ⟨hd, hhd, hhdtask⟩ := h.head
  refine ⟨fun u hu => ?_, List.pairwise_cons.mpr ⟨hfresh, h.apart⟩, ⟨cur, List.mem_cons_of_mem _ hcur, hcurtask⟩,
    ⟨hd, List.mem_cons_of_mem _ hhd, hhdtask⟩, fun u hu hne => ?_⟩
  · rcases List.mem_cons.mp hu with rfl | hu
    · exact hvalid
    · exact h.valid u hu
  · have happart := hfresh hd hhd
    have htasks := happart.tasks
    have hhead := happart.right
    rw [hhdtask] at htasks hhead
    show Suspended (taskCreate L.taskTrampoline.toNat s.cpu.mem s.head t stack id entry.toNat arg.toNat) u
      ((Function.update s.saved t (.created stack entry arg) u.task).context L)
    rcases List.mem_cons.mp hu with rfl | hu
    · rw [Function.update_self]
      exact taskCreate_suspended L s.cpu.mem entry arg hvalid hhead htasks
    · have hu' := hfresh u hu
      have htu : t + sizeofTask ≤ u.task ∨ u.task + sizeofTask ≤ t := hu'.tasks
      have hranges : stack + kstackSize ≤ u.lo ∨ u.hi ≤ stack := hu'.ranges
      have hleft : t + sizeofTask ≤ u.lo ∨ u.hi ≤ t := hu'.left
      have hright : u.task + sizeofTask ≤ stack ∨ stack + kstackSize ≤ u.task := hu'.right
      have hut : u.task ≠ t := by
        unfold sizeofTask at htu
        rintro heq
        omega
      have hheadu := h.task_apart hhd hu
      have hsame : u.task = s.head ∨ s.head + sizeofTask ≤ u.task ∨ u.task + sizeofTask ≤ s.head := by
        by_cases heq : u = hd
        · exact .inl (heq ▸ hhdtask)
        · have := (h.apart_of_ne hu hhd heq).tasks
          rw [hhdtask] at this
          exact .inr this.symm
      rw [hhdtask] at hheadu
      rw [Function.update_of_ne hut]
      unfold sizeofTask at htu hheadu hsame hleft hright
      refine (h.frame u hu hne).outside (fun b hb hb' => ?_) (fun b hb hb' => ?_)
      · refine taskCreate_of_outside _ _ _ _ hvalid.top (by omega) ?_ (by omega)
        unfold sizeofTask
        omega
      · refine taskCreate_of_outside _ _ _ _ hvalid.top (by omega) ?_ (by omega)
        unfold sizeofTask
        omega

/-! ### The other steps -/

theorem KernelInv.work (h : KernelInv L s) {cpu : State}
    (hkeep : ∀ a, s.Guarded a → cpu.mem a = s.cpu.mem a) : KernelInv L {s with cpu} := by
  refine ⟨h.valid, h.apart, h.current, h.head, fun u hu hne => ?_⟩
  exact (h.frame u hu hne).congr (fun a hlo hhi => hkeep a ⟨u, hu, hne, .inl ⟨hlo, hhi⟩⟩)
    fun a hlo hhi => hkeep a ⟨u, hu, hne, .inr ⟨hlo, hhi⟩⟩

theorem KernelInv.drop (h : KernelInv L s) (hcurrent : t ≠ s.current) (hhead : t ≠ s.head) :
    KernelInv L {s with threads := s.threads.filter fun u => decide (u.task ≠ t)} := by
  have hleft : ∀ u, u ∈ s.threads.filter (fun u => decide (u.task ≠ t)) → u ∈ s.threads :=
    fun u hu => (List.mem_filter.mp hu).1
  have hkeep : ∀ x, t ≠ x → (∃ u ∈ s.threads, u.task = x) →
      ∃ u ∈ s.threads.filter (fun u => decide (u.task ≠ t)), u.task = x := by
    rintro x hx ⟨u, hu, rfl⟩
    exact ⟨u, List.mem_filter.mpr ⟨hu, decide_eq_true hx.symm⟩, rfl⟩
  exact ⟨fun u hu => h.valid u (hleft u hu), h.apart.filter _, hkeep _ hcurrent h.current,
    hkeep _ hhead h.head, fun u hu hne => h.frame u (hleft u hu) hne⟩

/-! ### The switch -/

/-- `switch_context` writes to the caller's stack and to one field. -/
theorem switchedMem_of_outside {c : State} (hroom : 48 ≤ (c.reg .rsp).toNat)
    (hb : b < (c.reg .rsp).toNat - 48 ∨ (c.reg .rsp).toNat ≤ b)
    (hfield : b < (c.reg .rdi).toNat ∨ (c.reg .rdi).toNat + 8 ≤ b) : switchedMem c b = c.mem b := by
  unfold switchedMem
  rw [Mem.store64_of_outside _ _ hfield, Mem.push_of_outside _ hroom hb]

/-- The task that called finds its context where its `task_t` says. -/
theorem switchedMem_suspended {c : State} (hlow : u.lo + 48 ≤ (c.reg .rsp).toNat)
    (hhigh : (c.reg .rsp).toNat + 8 ≤ u.hi) (hvalid : u.Valid) (hfield : (c.reg .rdi).toNat = u.task) :
    Suspended (switchedMem c) u (callContext c) := by
  have htop := hvalid.top
  have hown := hvalid.apart
  unfold sizeofTask at hown
  obtain ⟨ws, hws⟩ : ∃ ws, ws = [c.reg .rbp, c.reg .rbx, c.reg .r12, c.reg .r13, c.reg .r14, c.reg .r15].map
    BitVec.toNat := ⟨_, rfl⟩
  have hlen : ws.length = 6 := by
    rw [hws]
    rfl
  have hwords : ∀ w ∈ ws, w < 2 ^ 64 := by
    intro w hw
    rw [hws] at hw
    obtain ⟨x, _, rfl⟩ := List.mem_map.mp hw
    exact x.isLt
  have hmem : switchedMem c = (c.mem.push (c.reg .rsp).toNat ws).store64 u.task ((c.reg .rsp).toNat - 48) := by
    rw [hws, ← hfield]
    rfl
  have hrsp : (switchedMem c).load64 u.task = (c.reg .rsp).toNat - 48 := by
    rw [hmem, Mem.load64_store64_same _ _ (by omega)]
  refine ⟨?_, ?_, ?_, ?_⟩ <;> rw [hrsp]
  · omega
  · unfold frameSize
    omega
  · have hag : (c.mem.push (c.reg .rsp).toNat ws).Agree (switchedMem c) u.lo u.hi := fun b hb hb' => by
      rw [hmem]
      exact Mem.store64_of_outside _ _ (by omega)
    have hsplit : (switchedMem c).words ((c.reg .rsp).toNat - 48) 6 = ws.reverse := by
      rw [Mem.words_congr (hag.mono (by omega) (by omega)), ← hlen]
      have hroom : 8 * ws.length ≤ (c.reg .rsp).toNat := by omega
      have hpush := Mem.words_push c.mem hroom hwords
      rwa [hlen] at hpush ⊢
    have hlast : (switchedMem c).load64 ((c.reg .rsp).toNat - 48 + 8 * 6) = c.mem.load64 (c.reg .rsp).toNat := by
      rw [show (c.reg .rsp).toNat - 48 + 8 * 6 = (c.reg .rsp).toNat by omega]
      refine Mem.load64_congr fun b hb hb' => switchedMem_of_outside (by omega) (.inr hb) ?_
      rw [hfield]
      omega
    have hret : (c.read64 (c.reg .rsp)).toNat = c.mem.load64 (c.reg .rsp).toNat := by
      rw [State.read64, BitVec.toNat_ofNat, Nat.mod_eq_of_lt (Mem.load64_lt _ _)]
    rw [Mem.words_snoc, hsplit, hlast, hws, ← hret]
    rfl
  · show (c.reg .rsp + 8).toNat = _
    have hup : (c.reg .rsp + 8).toNat = (c.reg .rsp).toNat + 8 :=
      toNat_add_ofNat (a := c.reg .rsp) (k := 8) (by omega)
    rw [hup]
    unfold frameSize
    omega

/-- The switch does not touch the memory of the other tasks. -/
theorem KernelInv.switchedMem_agree (h : KernelInv L s) (hc : s.Calls L n) (hu : u ∈ s.threads)
    (hne : u.task ≠ s.current) : s.cpu.mem.Agree (switchedMem s.cpu) u.task (u.task + 8) ∧
      s.cpu.mem.Agree (switchedMem s.cpu) u.lo u.hi := by
  obtain ⟨w, hw, hwtask⟩ := h.current
  obtain ⟨hlow, hhigh⟩ := hc.room w hw hwtask
  have huw : u ≠ w := fun heq => hne (by rw [heq, hwtask])
  obtain ⟨hranges, htasks, hleft, hright⟩ := h.apart_of_ne hu hw huw
  have hrdi := hc.rdi
  rw [hwtask] at htasks hright
  unfold sizeofTask at htasks hleft hright
  exact ⟨fun b hb hb' => switchedMem_of_outside (by omega) (by omega) (by omega),
    fun b hb hb' => switchedMem_of_outside (by omega) (by omega) (by omega)⟩

theorem KernelInv.switch (h : KernelInv L s) (hc : s.Calls L n) :
    ∃ cpu, L.steps 15 s.cpu = some cpu ∧ context cpu = (s.saved n.task).context L ∧
      KernelInv L (s.switched n cpu) := by
  obtain ⟨w, hw, hwtask⟩ := h.current
  obtain ⟨hlow, hhigh⟩ := hc.room w hw hwtask
  have hother : ∀ u ∈ s.threads, u.task ≠ s.current →
      Suspended (switchedMem s.cpu) u ((s.saved u.task).context L) := fun u hu hne =>
    (h.frame u hu hne).outside (h.switchedMem_agree hc hu hne).1 (h.switchedMem_agree hc hu hne).2
  have hrsi : (switchedMem s.cpu).load64 n.task = (s.cpu.reg .rsi).toNat := by
    rw [Mem.load64_congr (h.switchedMem_agree hc hc.target hc.other).1, hc.rsi]
    rfl
  have hkept := (hother n hc.target hc.other).kept
  rw [hrsi] at hkept
  obtain ⟨hcontext, hmem⟩ := switchContext_spec (by omega) hkept
  refine ⟨_, switchContext_runs L hc.rip, hcontext, h.valid, h.apart, ⟨n, hc.target, rfl⟩, h.head,
    fun u hu _ => ?_⟩
  show Suspended (runAll switchContext s.cpu).mem u
    ((Function.update s.saved s.current (.called (callContext s.cpu)) u.task).context L)
  rw [hmem]
  by_cases hcur : u.task = s.current
  · obtain rfl : u = w := h.unique hu hw (hcur.trans hwtask.symm)
    rw [hcur, Function.update_self]
    exact switchedMem_suspended hlow hhigh (h.valid u hu) (hc.rdi.trans hwtask.symm)
  · rw [Function.update_of_ne hcur]
    exact hother u hu hcur

theorem KernelInv.step (h : KernelInv L s) {e : KernelEvent} (hs : KernelStep L s e s') : KernelInv L s' := by
  cases hs with
  | create hvalid hfresh => exact h.create hvalid hfresh
  | work hkeep => exact h.work hkeep
  | switch hcall hruns =>
    obtain ⟨cpu, hok, _, h'⟩ := h.switch hcall
    cases hok.symm.trans hruns
    exact h'
  | drop hcurrent hhead => exact h.drop hcurrent hhead

theorem kernel_reachable (h : (kernel L).Reachable s) : KernelInv L s := by
  refine System.invariant (fun s hs => ?_) (fun s e s' hs hstep => hs.step hstep) h
  obtain ⟨boot, hvalid, hthreads, hcurrent, hhead⟩ := hs
  refine ⟨?_, ?_, ?_, ?_, ?_⟩ <;> simp only [hthreads, List.mem_singleton, forall_eq]
  · exact hvalid
  · exact List.pairwise_singleton _ _
  · exact ⟨boot, rfl, hcurrent.symm⟩
  · exact ⟨boot, rfl, hhead.symm⟩
  · exact fun hne => absurd hcurrent.symm hne

end Invariant

/-- **Context switches are transparent.** In every run, a call of `switch_context`
comes out in the task it turns to. One that called it before goes on with the
registers, the stack pointer and the address of its own call. One that never ran
goes on in `task_trampoline`, on top of its stack, and calls its entry with its
argument and a stack pointer that is 8 modulo 16; where the entry returns to,
`task_exit` is called. -/
theorem context_switch_transparent (L : Layout) {s : Kernel} (h : (kernel L).Reachable s) {n : Thread}
    (hc : s.Calls L n) : ∃ cpu, L.steps 15 s.cpu = some cpu ∧
    (∀ ctx, s.saved n.task = .called ctx → context cpu = ctx) ∧
    ∀ stack entry arg, s.saved n.task = .created stack entry arg →
      cpu.rip = L.taskTrampoline ∧ cpu.reg .rbx = entry ∧ cpu.reg .r12 = arg ∧
      cpu.reg .rsp = BitVec.ofNat 64 (stackTop stack) ∧ stackTop stack % 16 = 0 ∧
      ∃ c, L.steps 3 cpu = some c ∧ c.rip = entry ∧ c.reg .rdi = arg ∧ (c.reg .rsp).toNat % 16 = 8 ∧
        ∀ d, d.rip = c.read64 (c.reg .rsp) → ∃ d', L.steps 1 d = some d' ∧ d'.rip = L.taskExit := by
  obtain ⟨cpu, hruns, hcontext, _⟩ := (kernel_reachable h).switch hc
  refine ⟨cpu, hruns, fun ctx hctx => ?_, fun stack entry arg hcreated => ?_⟩
  · rw [hcontext, hctx]
    rfl
  · rw [hcreated] at hcontext
    have hrip : cpu.rip = L.taskTrampoline := congrArg Context.rip hcontext
    have hrbx : cpu.reg .rbx = entry := congrArg Context.rbx hcontext
    have hr12 : cpu.reg .r12 = arg := congrArg Context.r12 hcontext
    have hrsp : cpu.reg .rsp = BitVec.ofNat 64 (stackTop stack) := congrArg Context.rsp hcontext
    obtain ⟨c, hc', _, hcrip, hcrdi, hcrsp, hret⟩ := taskTrampoline_spec L hrip
    have hmod : stackTop stack % 16 = 0 := and_bits_mod (show 4 ≤ 64 by decide) _
    refine ⟨hrip, hrbx, hr12, hrsp, hmod, c, hc', hcrip.trans hrbx, hcrdi.trans hr12, ?_, hret⟩
    rw [hcrsp, hrsp, BitVec.toNat_sub, BitVec.toNat_ofNat]
    show (2 ^ 64 - 8 + stackTop stack % 2 ^ 64) % 2 ^ 64 % 16 = 8
    omega

/-! ### A boot task and one other -/

/-- The processor as `own` calls `switch_context` for `next`, with `x` in `rbx`. -/
def calling (L : Layout) (s : Kernel) (own next : Thread) (x : Word) : State :=
  {s.cpu with
    reg := fun r =>
      if r = .rsp then BitVec.ofNat 64 (own.lo + 48)
      else if r = .rdi then BitVec.ofNat 64 own.task
      else if r = .rsi then BitVec.ofNat 64 (s.savedRsp next)
      else if r = .rbx then x else 0
    rip := L.switchContext}

theorem KernelInv.calls {L : Layout} {s : Kernel} (h : KernelInv L s) {own next : Thread}
    (hown : own ∈ s.threads) (hcur : own.task = s.current) (hnext : next ∈ s.threads)
    (hne : next.task ≠ s.current) (htask : own.task < 2 ^ 64) (hroom : own.lo + 56 ≤ own.hi) (x : Word) :
    Kernel.Calls {s with cpu := calling L s own next x} L next := by
  have htop := (h.valid own hown).top
  have hrsp : ((calling L s own next x).reg .rsp).toNat = own.lo + 48 := by
    show (BitVec.ofNat 64 (own.lo + 48)).toNat = _
    rw [BitVec.toNat_ofNat, Nat.mod_eq_of_lt (by omega)]
  refine ⟨hnext, hne, rfl, ?_, ?_, fun w hw hwcur => ?_⟩
  · show (BitVec.ofNat 64 own.task).toNat = s.current
    rw [BitVec.toNat_ofNat, Nat.mod_eq_of_lt htask, hcur]
  · show (BitVec.ofNat 64 (s.savedRsp next)).toNat = s.savedRsp next
    rw [BitVec.toNat_ofNat]
    exact Nat.mod_eq_of_lt (Mem.load64_lt _ _)
  · obtain rfl : w = own := h.unique hw hown (hwcur.trans hcur.symm)
    rw [hrsp]
    omega

def smallLayout : Layout := ⟨0xFFFFFFFF80001000, 0xFFFFFFFF80003000⟩

def bootThread : Thread := ⟨0xFFFFA00000000020, 0xFFFFFFFF80010000, 0xFFFFFFFF80014000⟩

def otherThread : Thread := ⟨0xFFFFA00000000080, 0xFFFFA000000000D0, 0xFFFFA000000040D0⟩

/-- Before the first `task_create`. -/
def bootKernel : Kernel where
  cpu := ⟨fun _ => 0, 0, true, fun _ => 0⟩
  threads := [bootThread]
  current := bootThread.task
  head := bootThread.task
  saved := fun _ => .created 0 0 0

/-- Then there are two tasks. -/
def twoTasks : Kernel :=
  bootKernel.created smallLayout otherThread.task otherThread.lo 1 0xFFFFFFFF80002000 7

theorem twoTasks_reachable : (kernel smallLayout).Reachable twoTasks := by
  refine .step (.start ⟨bootThread, ⟨by decide, by decide⟩, rfl, rfl, rfl⟩)
    (.create ⟨by decide, by decide⟩ fun u hu => ?_)
  rw [List.mem_singleton.mp hu]
  exact ⟨by decide, by decide, by decide, by decide⟩

/-- The boot task turns to the other one, with 5 in `rbx`. -/
def bootCalls : Kernel := {twoTasks with cpu := calling smallLayout twoTasks bootThread otherThread 5}

theorem bootCalls_reachable : (kernel smallLayout).Reachable bootCalls ∧
    bootCalls.Calls smallLayout otherThread := by
  have hinv := kernel_reachable twoTasks_reachable
  exact ⟨.step twoTasks_reachable (.work fun _ _ => rfl),
    hinv.calls (List.mem_cons_of_mem _ List.mem_cons_self) rfl List.mem_cons_self (by decide) (by decide)
      (by decide) 5⟩

/-- The other task turns back to the boot task. -/
theorem otherCalls_reachable : ∃ s, (kernel smallLayout).Reachable s ∧ s.Calls smallLayout bootThread ∧
    s.current = otherThread.task ∧ s.saved bootThread.task = .called (callContext bootCalls.cpu) := by
  obtain ⟨hboot, hcalls⟩ := bootCalls_reachable
  obtain ⟨cpu, hruns, _, hinv⟩ := (kernel_reachable hboot).switch hcalls
  refine ⟨{bootCalls.switched otherThread cpu with
      cpu := calling smallLayout (bootCalls.switched otherThread cpu) otherThread bootThread 0},
    .step (.step hboot (.switch hcalls hruns)) (.work fun _ _ => rfl), ?_, rfl, ?_⟩
  · exact hinv.calls List.mem_cons_self rfl (List.mem_cons_of_mem _ List.mem_cons_self)
      (show bootThread.task ≠ otherThread.task by decide) (by decide) (by decide) 0
  · show Function.update bootCalls.saved bootThread.task (.called (callContext bootCalls.cpu)) bootThread.task = _
    exact Function.update_self ..

theorem context_switch_transparent_twoTasks :
    (∃ cpu, smallLayout.steps 15 bootCalls.cpu = some cpu ∧ cpu.rip = smallLayout.taskTrampoline ∧
      cpu.reg .r12 = 7) ∧
    ∃ (s : Kernel) (cpu : State), s.current = otherThread.task ∧ smallLayout.steps 15 s.cpu = some cpu ∧
      cpu.reg .rbx = 5 := by
  obtain ⟨hboot, hcalls⟩ := bootCalls_reachable
  obtain ⟨s, hs, hcalls', hcurrent, hsaved⟩ := otherCalls_reachable
  obtain ⟨cpu, hruns, _, hcreated⟩ := context_switch_transparent smallLayout hboot hcalls
  obtain ⟨cpu', hruns', hcalled, _⟩ := context_switch_transparent smallLayout hs hcalls'
  have hnew : bootCalls.saved otherThread.task = .created otherThread.lo 0xFFFFFFFF80002000 7 := by
    show Function.update bootKernel.saved otherThread.task _ otherThread.task = _
    exact Function.update_self ..
  obtain ⟨hrip, _, hr12, _⟩ := hcreated _ _ _ hnew
  exact ⟨⟨cpu, hruns, hrip, hr12⟩, s, cpu', hcurrent, hruns', congrArg Context.rbx (hcalled _ hsaved)⟩

end ArcMonark.Cpu
