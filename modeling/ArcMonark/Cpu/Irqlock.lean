import ArcMonark.Library.Interrupts

/-! The kernel's critical sections (`irqlock.h`).

The functions that share data with the timer interrupt or with other tasks, as far as
their accesses to that data, their calls and the interrupt flag go: `sched.c`,
`heap.c`, `event.c`, the timer handler of `timer.c` and the two routines of
`switch.asm`. A branch may go either way here, a loop may run any number of times, and
`schedule` may choose any other task that has not exited: every run of the kernel is
among the runs of this one. -/
namespace ArcMonark.Irqlock
open Library
open Program (Move)

/-- What tasks and interrupt handlers share. -/
inductive Shared where
  /-- `head` of `sched.c`, and the tasks on its list. -/
  | ring
  | currentTask
  | zombie
  /-- `head` of `heap.c`, and the blocks on its list. -/
  | blocks
  | qHead
  | qTail
  deriving DecidableEq

inductive Routine where
  | listAdd | listRemove | reap | taskCreate | schedule | schedTick | taskYield | taskExit | schedTaskCount
  | splitBlock | extendHeap | kmalloc | kfree
  | eventPoll
  | irq0Timer | taskTrampoline
  /-- A task's own code. -/
  | entry
  | kmain
  deriving DecidableEq

open Code Routine Shared

/-- The calls that a task makes. -/
def calls : List Routine := [taskYield, kmalloc, kfree, eventPoll, schedTaskCount, taskCreate, taskExit]

/-- One of them. -/
def anyOf : List (Code Shared Routine) → Code Shared Routine
  | [] => skip
  | a :: as => either a (anyOf as)

def body : Routine → Code Shared Routine
  -- `t->next = head->next; head->next = t`
  | listAdd => block [touch ring, touch ring, spawn]
  | listRemove => block [
      touch ring,
      repeating (touch ring) (touch ring),
      touch ring, touch ring]
  | reap => block [
      touch zombie,
      whenever (block [touch zombie, touch currentTask]) (block [
        touch zombie, touch zombie,
        either skip (call kfree),
        call kfree])]
  -- what it writes before it links the task is its own
  | taskCreate => block [
      call kmalloc, call kmalloc,
      save,
      call listAdd,
      restore]
  | schedule => block [
      touch currentTask,
      either skip (block [
        call reap,
        touch currentTask,
        touch ring,
        repeating (touch ring) (touch ring),
        -- `if (next == prev) return`
        either skip (block [
          whenever (touch ring) (touch ring),
          touch ring,
          touch currentTask,
          -- `switch_context`, with the stack pointers of both tasks
          touch ring,
          switch])])]
  | schedTick => call schedule
  | taskYield => block [save, call schedule, restore]
  | taskExit => block [
      clear,
      touch currentTask, touch ring,
      touch currentTask, call listRemove, retire,
      touch currentTask, touch zombie,
      call schedule,
      hang]
  | schedTaskCount => block [
      save,
      touch ring,
      touch ring, touch ring, touch ring,
      loop (block [touch ring, touch ring, touch ring]),
      restore]
  | splitBlock => block [
      touch blocks,
      either skip (block [
        touch blocks, touch blocks, touch blocks, touch blocks,
        whenever (touch blocks) (touch blocks),
        touch blocks, touch blocks])]
  -- `grow_pages` may fail before the list is looked at
  | extendHeap => either skip (block [
      touch blocks, touch blocks, touch blocks,
      touch blocks, repeating (touch blocks) (touch blocks),
      touch blocks, touch blocks,
      whenever (touch blocks) (block [touch blocks, touch blocks])])
  | kmalloc => either skip (block [
      save,
      touch blocks,
      loop (block [touch blocks, touch blocks, touch blocks]),
      -- a block fits, or the heap grows, or it cannot
      either skip (call extendHeap),
      either restore (block [
        call splitBlock,
        touch blocks, touch blocks,
        restore])])
  | kfree => either skip (block [
      save,
      touch blocks,
      either restore (block [
        touch blocks, touch blocks,
        whenever (block [touch blocks, touch blocks]) (block [
          touch blocks, touch blocks, whenever (touch blocks) (touch blocks)]),
        whenever (block [touch blocks, touch blocks]) (block [
          touch blocks, touch blocks, whenever (touch blocks) (touch blocks)]),
        restore])])
  | eventPoll => block [
      save,
      touch qTail, touch qHead,
      either restore (block [
        touch qTail,
        touch qTail,
        restore])]
  -- the gate saved the flag and cleared it; `iretq` puts it back
  | irq0Timer => block [call schedTick, restore]
  | taskTrampoline => block [set, call entry, call taskExit, clear, hang]
  | entry => loop (either set (either clear (anyOf (calls.map call))))
  -- from its `sti` on, `kmain` is the code of the boot task
  | kmain => block [set, call entry, hang]

/-- How each wants to be called. -/
def pre : Routine → Mode
  | listAdd | listRemove | reap | schedule | schedTick | splitBlock | extendHeap => .masked
  | taskCreate | taskYield | taskExit | schedTaskCount | kmalloc | kfree | eventPoll => .called
  | irq0Timer => .held
  | taskTrampoline => .lost
  | entry => .free
  | kmain => .free

/-- The kernel on one processor. -/
def kernel : Program Shared Routine where
  body := body
  pre := pre
  boot := kmain
  trampoline := taskTrampoline
  handler := irq0Timer

theorem kernel_checked : kernel.Checked where
  bodies f := by cases f <;> exact ⟨_, rfl, rfl⟩
  boot := rfl
  trampoline := rfl
  handler := rfl

/-- **Interrupt-flag discipline.** In every run of any number of tasks, with a timer
interrupt wherever the flag is set: what the calls share is touched only with the flag
cleared; a call returns to its task with the flag as it was at the call; and the code
of a fresh task is entered with the flag set. -/
theorem interrupt_discipline {s : Processor Shared Routine} (h : kernel.system.Reachable s) :
    (∀ v, s.next = some (.touch v) → s.flag = false) ∧
    (∀ f ∈ calls, ∀ flag, s.Returns f flag → s.flag = flag) ∧
    (s.next = some (.call entry) → s.flag = true) := by
  have hcalled : ∀ f ∈ calls, kernel.pre f ≠ .free := by decide
  exact ⟨fun v hv => kernel_checked.touches h hv, fun f hf flag hr => kernel_checked.returns h hr (hcalled f hf),
    fun hn => kernel_checked.enters h hn rfl⟩

/-- The boot task alone, with the flag cleared. -/
def booted : Processor Shared Routine where
  flag := false
  current := 0
  stack t := if t = 0 then [⟨kmain, [body kmain], false, false⟩] else []
  live t := t = 0

theorem booted_reachable : kernel.system.Reachable booted :=
  .start ⟨rfl, fun _ ht => if_neg ht, fun _ ht => of_decide_eq_true ht⟩

/-- The moves `mvs`, each as soon as it is open. -/
def inTurn (mvs : List Move) : List Move := mvs.flatMap fun mv => List.replicate 16 .go ++ [mv]

/-- With the flag set, the boot task calls `task_create` and then `task_yield`, and the processor goes
on with the new task, up to its own code. -/
def secondTask : Processor Shared Routine :=
  kernel.play booted (inTurn [
    .again, .right, .right, .right, .right, .right, .right, .right, .left, .left, .left, .spawn 1,
    .again, .right, .right, .left, .right, .right, .done, .right, .right, .switch 1] ++ List.replicate 3 .go)

/-- The timer interrupts that. -/
def interrupted : Processor Shared Routine :=
  kernel.play secondTask ([.go, .interrupt] ++ List.replicate 4 .go)

/-- The handler's `schedule` goes back to the boot task, which comes to the end of `task_yield`. -/
def backAgain : Processor Shared Routine :=
  kernel.play interrupted (inTurn [.right, .right, .done, .right, .right, .switch 0] ++ List.replicate 7 .go)

theorem interrupt_discipline_schedule :
    (kernel.system.Reachable secondTask ∧ secondTask.current = 1 ∧ secondTask.next = some (.call entry) ∧
      secondTask.flag = true) ∧
    (kernel.system.Reachable interrupted ∧ interrupted.current = 1 ∧
      interrupted.next = some (.touch .currentTask) ∧ interrupted.flag = false) ∧
    kernel.system.Reachable backAgain ∧ backAgain.current = 0 ∧ backAgain.Returns taskYield true ∧
      backAgain.flag = true := by
  have h₁ : kernel.system.Reachable secondTask := Program.play_reachable booted_reachable _
  have h₂ : kernel.system.Reachable interrupted := Program.play_reachable h₁ _
  have h₃ : kernel.system.Reachable backAgain := Program.play_reachable h₂ _
  have hentry : secondTask.next = some (.call entry) := by decide +kernel
  have htouch : interrupted.next = some (.touch .currentTask) := by decide +kernel
  have htop : (backAgain.stack backAgain.current).head? = some ⟨taskYield, [], true, true⟩ := by decide +kernel
  have hreturns : backAgain.Returns taskYield true := ⟨true, List.head?_eq_some_iff.mp htop⟩
  exact ⟨⟨h₁, by decide +kernel, hentry, (interrupt_discipline h₁).2.2 hentry⟩,
    ⟨h₂, by decide +kernel, htouch, (interrupt_discipline h₂).1 _ htouch⟩,
    h₃, by decide +kernel, hreturns, (interrupt_discipline h₃).2.1 taskYield (by decide) _ hreturns⟩

end ArcMonark.Irqlock
