import ArcMonark.Mm.HeapRuns

/-! The task scheduler (`sched/sched.c`).

Tasks are `task_t` structures on the heap, in a circular list that begins at the
boot task; each but the boot task has a stack on the heap too. Each function runs
as a whole: interrupts are off wherever the list changes, and what `task_create`
does before it links its task touches only memory that no one else has yet. Of a
context switch the scheduler sees that the outgoing task's stack pointer is stored
(`Cpu/Switch.lean` has the rest). -/
namespace ArcMonark.Sched
open Library Mm

/-- `task_state_t`. -/
inductive TaskState where
  | ready
  | running
  | dead
  deriving DecidableEq, Repr

/-- The number behind the enumerator. -/
def TaskState.code : TaskState → Nat
  | .ready => 0
  | .running => 1
  | .dead => 2

/-- `sizeof(task_t)` -/
def sizeofTask : Nat := 40

def kstackSize : Nat := 0x4000

/-- What the scheduler did, for stating properties of its runs; nothing reads it. -/
inductive Act where
  /-- `task_create` made a task with this stack. -/
  | create (t stack : Nat)
  /-- `schedule` made a task the current one. -/
  | turn (t : Nat)
  /-- A task called `task_exit`. -/
  | exit (t : Nat)
  /-- `reap` passed a pointer to `kfree`. -/
  | free (ptr : Nat)
  deriving DecidableEq, Repr

/-- The machine with its heap, and the variables of `sched.c`. -/
structure Scheduler where
  heap : Heap.HeapRun
  currentTask : Nat
  head : Nat
  nextTid : Nat
  zombie : Nat
  /-- The latest act first. -/
  trace : List Act

/-- Before `sched_init`. -/
def Scheduler.fresh (w : Heap.HeapRun) : Scheduler :=
  {heap := w, currentTask := null, head := null, nextTid := 0, zombie := null, trace := []}

def Scheduler.machine (s : Scheduler) : Machine := s.heap.machine

def Scheduler.withMachine (s : Scheduler) (m : Machine) : Scheduler :=
  {s with heap := {s.heap with machine := m}}

/-! ### Memory -/

def kmalloc (s : Scheduler) (size : Nat) : Except Fault (Nat × Scheduler) := do
  let (p, m) ← Heap.kmalloc s.machine size
  return (p, {s with heap := ⟨m, Heap.record p size s.heap.live⟩})

def kfree (s : Scheduler) (ptr : Nat) : Except Fault Scheduler := do
  let m ← Heap.kfree s.machine ptr
  return {s with heap := ⟨m, Heap.forget ptr s.heap.live⟩, trace := .free ptr :: s.trace}

/-- `n` bytes of the structure at `t`, from `off` on. -/
def getField (s : Scheduler) (t off n : Nat) : Except Fault Nat :=
  Virtual.readBytes s.machine (add64 t off) n

def setField (s : Scheduler) (t off n x : Nat) : Except Fault Scheduler := do
  let m ← Virtual.writeBytes s.machine (add64 t off) n x
  return s.withMachine m

/-! The fields of `task_t`: `rsp`, `stack_base`, `state`, `id`, `next`. -/

def setRsp (s : Scheduler) (t x : Nat) : Except Fault Scheduler := setField s t 0 8 x

def getStackBase (s : Scheduler) (t : Nat) : Except Fault Nat := getField s t 8 8

def setStackBase (s : Scheduler) (t x : Nat) : Except Fault Scheduler := setField s t 8 8 x

/-- `t->state == state` -/
def stateIs (s : Scheduler) (t : Nat) (state : TaskState) : Except Fault Bool := do
  return decide ((← getField s t 16 4) = state.code)

def setState (s : Scheduler) (t : Nat) (state : TaskState) : Except Fault Scheduler :=
  setField s t 16 4 state.code

def setId (s : Scheduler) (t x : Nat) : Except Fault Scheduler := setField s t 24 8 x

def getNext (s : Scheduler) (t : Nat) : Except Fault Nat := getField s t 32 8

def setNext (s : Scheduler) (t x : Nat) : Except Fault Scheduler := setField s t 32 8 x

/-! ### The circular list -/

def listAdd (s : Scheduler) (t : Nat) : Except Fault Scheduler := do
  let s ← setNext s t (← getNext s s.head)
  setNext s s.head t

/-- `while (p->next != t) p = p->next` -/
def findBefore (s : Scheduler) (t : Nat) : (fuel p : Nat) → Except Fault Nat
  | 0, _ => .error .diverge
  | fuel + 1, p => do
    let next ← getNext s p
    if next = t then return p else findBefore s t fuel next

def listRemove (s : Scheduler) (t : Nat) : Except Fault Scheduler := do
  let p ← findBefore s t Heap.endless (← getNext s t)
  setNext s p (← getNext s t)

/-! ### Tasks -/

/-- Frees the zombie, unless the kernel still runs on its stack. -/
def reap (s : Scheduler) : Except Fault Scheduler :=
  if s.zombie ≠ null ∧ s.zombie ≠ s.currentTask then do
    let z := s.zombie
    let s := {s with zombie := null}
    let base ← getStackBase s z
    let s ← if base ≠ null then kfree s base else pure s
    kfree s z
  else .ok s

def schedInit (s : Scheduler) : Except Fault Scheduler := do
  let (boot, s) ← kmalloc s sizeofTask
  let s ← setId s boot s.nextTid
  let s := {s with nextTid := add64 s.nextTid 1}
  let s ← setState s boot .running
  let s ← setStackBase s boot null
  let s ← setNext s boot boot
  return {s with head := boot, currentTask := boot}

/-- `*(--sp) = v`, for one word after the other; the pointer to the last one. -/
def pushWords (s : Scheduler) (sp : Nat) : List Nat → Except Fault (Nat × Scheduler)
  | [] => .ok (sp, s)
  | v :: vs => do
    let sp := sub64 sp 8
    let m ← Virtual.write64 s.machine sp v
    pushWords (s.withMachine m) sp vs

/-- What `task_create` pushes: a return address, and what `switch_context` will pop. -/
def initialFrame (taskTrampoline entry arg : Nat) : List Nat :=
  [taskTrampoline, 0, entry, arg, 0, 0, 0]

/-- The top of a stack, rounded down to 16 bytes. -/
def stackTop (stack : Nat) : Nat := add64 stack kstackSize &&& bits 4 64

/-- `task_create` once it has its memory. -/
def buildTask (taskTrampoline : Nat) (s : Scheduler) (t stack entry arg : Nat) :
    Except Fault (Nat × Scheduler) := do
  let (sp, s) ← pushWords s (stackTop stack) (initialFrame taskTrampoline entry arg)
  let s ← setRsp s t sp
  let s ← setStackBase s t stack
  let s ← setState s t .ready
  let s ← setId s t s.nextTid
  let s := {s with nextTid := add64 s.nextTid 1}
  let s ← listAdd s t
  return (t, {s with trace := .create t stack :: s.trace})

def taskCreate (taskTrampoline : Nat) (s : Scheduler) (entry arg : Nat) :
    Except Fault (Nat × Scheduler) := do
  let (t, s) ← kmalloc s sizeofTask
  let (stack, s) ← kmalloc s kstackSize
  buildTask taskTrampoline s t stack entry arg

/-- `while (next->state == TASK_DEAD && next != prev) next = next->next` -/
def skipDead (s : Scheduler) (prev : Nat) : (fuel next : Nat) → Except Fault Nat
  | 0, _ => .error .diverge
  | fuel + 1, next => do
    if (← stateIs s next .dead) && decide (next ≠ prev) then skipDead s prev fuel (← getNext s next)
    else return next

/-- `if (prev->state == TASK_RUNNING) prev->state = TASK_READY` -/
def stopRunning (s : Scheduler) (prev : Nat) : Except Fault Scheduler := do
  if ← stateIs s prev .running then setState s prev .ready else return s

/-- `schedule` once it has reaped: `rsp` is the stack pointer that `switch_context`
stores for the task it leaves. -/
def switchNext (s : Scheduler) (rsp : Nat) : Except Fault Scheduler := do
  let prev := s.currentTask
  let next ← skipDead s prev Heap.endless (← getNext s prev)
  if next = prev then return s
  else
    let s ← stopRunning s prev
    let s ← setState s next .running
    let s := {s with currentTask := next, trace := .turn next :: s.trace}
    setRsp s prev rsp

def schedule (s : Scheduler) (rsp : Nat) : Except Fault Scheduler :=
  if s.currentTask = null then .ok s
  else do
    let s ← reap s
    switchNext s rsp

def schedTick (s : Scheduler) (rsp : Nat) : Except Fault Scheduler := schedule s rsp

def taskYield (s : Scheduler) (rsp : Nat) : Except Fault Scheduler := schedule s rsp

/-- The task that calls this never comes back from `schedule`. -/
def taskExit (s : Scheduler) (rsp : Nat) : Except Fault Scheduler := do
  let s ← setState s s.currentTask .dead
  let s ← listRemove s s.currentTask
  let s := {s with zombie := s.currentTask, trace := .exit s.currentTask :: s.trace}
  schedule s rsp

/-- The loop of `sched_task_count` with `n` tasks counted before `t`. -/
def countFrom (s : Scheduler) : (fuel t n : Nat) → Except Fault Nat
  | 0, _, _ => .error .diverge
  | fuel + 1, t, n => do
    let n := if ← stateIs s t .dead then n else (n + 1) % 2 ^ 32
    let t ← getNext s t
    if t = s.head then return n else countFrom s fuel t n

def schedTaskCount (s : Scheduler) : Except Fault Nat := countFrom s Heap.endless s.head 0

end ArcMonark.Sched
