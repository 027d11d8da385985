import ArcMonark.Drivers.ReadLine
import ArcMonark.Kernel.Lang
import ArcMonark.Kernel.MouseDemo
import ArcMonark.Kernel.Event
import ArcMonark.Lib.Strcmp
import ArcMonark.Mm.PmmRuns
import ArcMonark.Sched.SchedShared

/-! The shell (`kernel/kernel.c`).

`kmain` reads a line and runs it as a command, for ever. The commands print, and most of
them ask another part of the kernel for what they print: `Input` is what one round of the
loop is given by the keyboard, the memory managers, the mouse, the scheduler and the event
queue. `none` is a command that does not come back: `events` waits for its Escape, and
`threads` stops with the kernel where `task_create` runs into a page fault. -/
namespace ArcMonark.Kernel
open Library Lib Drivers Gui
open Sched (Scheduler)

/-- The local variables of a command: the object with its buffer of 21 bytes, and what is in
the array of each call of `u64_to_dec`. -/
structure Locals where
  m : Object
  buf : Nat
  tmp : Nat → Vector Byte 20

/-- The scheduler as `cmd_threads` finds it: at each of its three calls of `task_create`, and then
at one call of `sched_task_count` after another. Other tasks run between them: the states are any
reachable ones, those of a real run among them. -/
structure Background where
  boot : Sched.SchedBoot
  taskTrampoline : BitVec 64
  /-- Where `demo_worker` is. -/
  demoWorker : BitVec 64
  sched : Nat → Scheduler
  reachable : ∀ n, (Sched.shared boot.toHeapBoot taskTrampoline.toNat).Reachable (sched n)

structure Input (g : Framebuffer) where
  /-- The line that is typed, without its newline. -/
  typed : List UInt8
  plain : ∀ c ∈ typed, c ≠ 0x0A ∧ c ≠ 0
  locals : Locals
  room : locals.m.Room locals.buf 21
  /-- The memory managers, with a frame allocator that works. -/
  machine : Machine
  frames : ∃ P, Mm.Pmm.Allocator P machine
  heap : machine.usedBytes < 2 ^ 64
  /-- What the mouse demo reads from the mouse until a key is pressed. -/
  samples : List Sample
  onScreen : ∀ sample ∈ samples, sample.OnScreen g
  tasks : Background
  /-- What `event_poll` gives, without the calls that give nothing. -/
  events : List Event

structure Shell where
  console : Console
  settings : Settings
  /-- The line buffer of `kmain`. -/
  line : Nat → UInt8
  /-- The local variables of the command that runs. -/
  locals : Locals
  /-- What the mouse demo has saved. -/
  under : Nat → UInt32
  /-- What has been written to ports, with the ports. -/
  ports : List (Nat × Nat)

section Code
variable (g : Framebuffer)

namespace Shell

def clearScreen (s : Shell) : Shell := {s with console := Drivers.clearScreen g s.console}

def color (s : Shell) (fg : UInt32) : Shell := {s with console := Drivers.color s.console fg}

def setColor (s : Shell) (fg bg : UInt32) : Shell := {s with console := Drivers.setColor s.console fg bg}

def outw (s : Shell) (port v : Nat) : Shell := {s with ports := s.ports ++ [(port, v)]}

def putchar (c : UInt8) (s : Shell) : Option Shell :=
  (Drivers.putchar g s.console c).map fun console => {s with console}

/-- `print` of a literal. -/
def print (w : String) (s : Shell) : Option Shell := (printLiteral g w s.console).map fun console => {s with console}

def printFrom (m : Object) (a : Nat) (s : Shell) : Option Shell :=
  (Drivers.printFrom g m a s.console).map fun console => {s with console}

/-- `print(msg(id))` -/
def printMsg (id : MsgId) (s : Shell) : Option Shell :=
  (Kernel.printMsg g s.settings id s.console).map fun console => {s with console}

/-- `print(u64_to_dec(v, buf))` -/
def printDec (v : Nat) (s : Shell) : Option Shell :=
  (Drivers.printDec g s.locals.m v s.locals.buf (s.locals.tmp 0) s.console).map fun r =>
    {s with console := r.1, locals := {s.locals with m := r.2, tmp := fun n => s.locals.tmp (n + 1)}}

end Shell

/-- `streq` with a literal. -/
def streqTo (m : Object) (a : Nat) (w : String) : Option Int := streq m (literal w) a literalAt

def cmdLang (m : Object) (arg : Nat) (s : Shell) : Option Shell := do
  if (← streqTo m arg "tr") ≠ 0 then
    let s ← Shell.printMsg g .langSet {s with settings := {s.settings with language := .tr}}
    s.putchar g 0x0A
  else if (← streqTo m arg "en") ≠ 0 then
    let s ← Shell.printMsg g .langSet {s with settings := {s.settings with language := .en}}
    s.putchar g 0x0A
  else s.print g "?\n"

/-- `cmd_theme` behind its branches. -/
def themeSet (s : Shell) : Option Shell := do
  let s ← ((s.setColor s.settings.fg s.settings.bg).clearScreen g).printMsg g .themeSet
  s.putchar g 0x0A

def cmdTheme (m : Object) (arg : Nat) (s : Shell) : Option Shell := do
  if (← streqTo m arg "dark") ≠ 0 then themeSet g {s with settings := {s.settings with fg := darkFg, bg := darkBg}}
  else if (← streqTo m arg "light") ≠ 0 then
    themeSet g {s with settings := {s.settings with fg := lightFg, bg := lightBg}}
  else s.print g "?\n"

def cmdMem (machine : Machine) (s : Shell) : Option Shell := do
  let freeMib := Mm.Pmm.pmmFreeFrames machine * pageSize % 2 ^ 64 / (1024 * 1024)
  let s ← s.print g "total frames : "
  let s ← s.printDec g (Mm.Pmm.pmmTotalFrames machine)
  let s ← s.putchar g 0x0A
  let s ← s.print g "used  frames : "
  let s ← s.printDec g (Mm.Pmm.pmmUsedFrames machine)
  let s ← s.putchar g 0x0A
  let s ← s.print g "free  frames : "
  let s ← s.printDec g (Mm.Pmm.pmmFreeFrames machine)
  let s ← s.putchar g 0x0A
  let s ← s.print g "free  ram MiB: "
  let s ← s.printDec g freeMib
  let s ← s.putchar g 0x0A
  let s ← s.print g "heap  used  B: "
  let s ← s.printDec g (Mm.Heap.heapUsedBytes machine)
  s.putchar g 0x0A

/-- In QEMU this turns the machine off. -/
def cmdClose (s : Shell) : Shell := (s.outw 0x604 0x2000).outw 0xB004 0x2000

def cmdMouse (samples : List Sample) (s : Shell) : Option Shell :=
  let demo := mouseDemo g s.console.buffers s.under samples
  let s := {s with console := {s.console with buffers := demo.buffers}, under := demo.under}
  (s.clearScreen g).print g "mouse demo bitti\n"

/-- The `n`th call of `task_create`, for a worker with this number. It gives nothing where it faults. -/
def Background.create (b : Background) (n id : Nat) : Option (Nat × Scheduler) :=
  (Sched.taskCreate b.taskTrampoline.toNat (b.sched n) b.demoWorker.toNat id).toOption

/-- `sched_task_count`, as the call with this number. -/
def Background.count (b : Background) (n : Nat) : Option Nat := (Sched.schedTaskCount (b.sched n)).toOption

/-- The loop of `cmd_threads`: the number of the call behind it. It sleeps after each call that
finds more than one task. -/
def tasksFor (b : Background) : (fuel n : Nat) → Option Nat
  | 0, n => some n
  | fuel + 1, n => do if (← b.count n) > 1 then tasksFor b fuel (n + 1) else return n + 1

def cmdThreads (b : Background) (s : Shell) : Option Shell := do
  let s ← s.print g "3 arka plan task baslatiliyor (cikti seri portta)\n"
  let _ ← b.create 0 1
  let _ ← b.create 1 2
  let _ ← b.create 2 3
  let s ← s.print g "canli task: "
  let s ← s.printDec g (← b.count 3)
  let s ← s.putchar g 0x0A
  let n ← tasksFor b 40 4
  let s ← s.print g "bitince canli task: "
  let s ← s.printDec g (← b.count n)
  s.putchar g 0x0A

/-- `if (e.ch) putchar(e.ch); else print("?");` -/
def printKey (e : Event) (s : Shell) : Option Shell :=
  if e.ch ≠ '\x00' then s.putchar g (.ofNat e.ch.toNat) else s.print g "?"

/-- What `cmd_events` prints of an event. -/
def printEvent (e : Event) (s : Shell) : Option Shell := do
  if e.type = .keyDown then
    let s ← s.print g "tus  : '"
    let s ← printKey g e s
    let s ← s.print g "'  sc="
    let s ← s.printDec g e.scancode.toNat
    s.putchar g 0x0A
  else if e.type = .mouseDown then
    let s ← s.print g "fare down btn="
    let s ← s.printDec g e.button.toNat
    let s ← s.print g " @"
    let s ← s.printDec g e.x.toUInt16.toNat
    let s ← s.print g ","
    let s ← s.printDec g e.y.toUInt16.toNat
    s.putchar g 0x0A
  else if e.type = .mouseUp then
    let s ← s.print g "fare up   btn="
    let s ← s.printDec g e.button.toNat
    s.putchar g 0x0A
  else return s

/-- The loop of `cmd_events`. Behind the last event it waits for the next one. -/
def eventsWhile : List Event → Shell → Option Shell
  | [], _ => none
  | e :: es, s =>
    if e.type = .keyDown ∧ e.scancode = 0x01 then some s
    else do eventsWhile es (← printEvent g e s)

def cmdEvents (events : List Event) (s : Shell) : Option Shell := do
  let s ← s.print g "olay dongusu - cikmak icin ESC\n"
  let s ← eventsWhile g events s
  s.print g "olay dongusu bitti\n"

def runCommand (input : Input g) (m : Object) (cmd : Nat) (s : Shell) : Option Shell := do
  if (← m cmd) = 0 then return s
  else if (← streqTo m cmd "help") ≠ 0 then
    let s ← s.printMsg g .helpList
    s.putchar g 0x0A
  else if (← streqTo m cmd "clear") ≠ 0 then return s.clearScreen g
  else if (← streqTo m cmd "about") ≠ 0 then
    let s ← s.printMsg g .about
    s.putchar g 0x0A
  else if (← streqTo m cmd "mem") ≠ 0 then cmdMem g input.machine s
  else if (← streqTo m cmd "mouse") ≠ 0 then cmdMouse g input.samples s
  else if (← streqTo m cmd "threads") ≠ 0 then cmdThreads g input.tasks s
  else if (← streqTo m cmd "events") ≠ 0 then cmdEvents g input.events s
  else
    let arg ← strStartsWith m (literal "lang ") cmd literalAt
    if arg ≠ null then cmdLang g m arg s
    else
      let arg ← strStartsWith m (literal "theme ") cmd literalAt
      if arg ≠ null then cmdTheme g m arg s
      else if (← streqTo m cmd "close") ≠ 0 then return cmdClose s
      else
        let s ← s.printMsg g .unknownCmd
        let s ← s.printFrom g m cmd
        s.putchar g 0x0A

/-- Where the line buffer of `kmain` stands. -/
def lineAt : Nat := 0x2000

/-- The line buffer as an object. -/
def lineObject (line : Nat → UInt8) : Object := fun a =>
  if lineAt ≤ a ∧ a < lineAt + lineMax then some (line (a - lineAt)).toBitVec else none

/-- `kmain` up to its loop: the settings, and what it prints. -/
def kmainStart (s : Shell) : Option Shell := do
  let s := {s with settings := settingsInit}
  let s ← ((s.setColor s.settings.fg s.settings.bg).clearScreen g).printMsg g .welcome
  let s ← s.putchar g 0x0A
  let s ← s.printMsg g .helpHint
  s.print g "\n\n"

/-- One round of the loop of `kmain`. -/
def kmainRound (input : Input g) (s : Shell) : Option Shell := do
  let s ← (s.color colorRed).print g prompt
  let s := s.color colorWhite
  let (reading, _) ← readLine g lineMax (.start s.console s.line) (input.typed ++ [0x0A])
  let s := {s with console := reading.console, line := reading.buf, locals := input.locals}
  runCommand g input (lineObject s.line) lineAt s

/-- `kmain` on so many lines. -/
def kmain (inputs : List (Input g)) (s : Shell) : Option Shell := do
  let s ← kmainStart g s
  inputs.foldlM (fun s input => kmainRound g input s) s

end Code

end ArcMonark.Kernel
