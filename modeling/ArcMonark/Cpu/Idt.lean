import ArcMonark.Library.Words
import Mathlib.Logic.Function.Basic
import Mathlib.Data.List.Induction
import Mathlib.Data.List.FinRange

/-! The interrupt table (`cpu/idt.c`, `cpu/exceptions.c`) and what the processor finds in it.

`idt_set_gate` spreads a handler's address over three fields of a packed entry. The gates
are set in the order of the boot, some of them twice: the table that results is told for
every vector (`bootIdt_gate`). -/
namespace ArcMonark.Cpu

def kernelCs : Nat := 0x28

def idtIntGate : Nat := 0x8E

structure IdtEntry where
  offsetLow : Nat
  selector : Nat
  ist : Nat
  typeAttr : Nat
  offsetMid : Nat
  offsetHigh : Nat
  zero : Nat
  deriving DecidableEq

/-- `idt`, which starts out zeroed. -/
abbrev Idt := Nat → IdtEntry

def Idt.zeroed : Idt := fun _ => ⟨0, 0, 0, 0, 0, 0, 0⟩

def idtSetGate (idt : Idt) (vec handler flags : Nat) : Idt :=
  Function.update idt vec
    { offsetLow := handler &&& 0xFFFF
      selector := kernelCs
      ist := 0
      typeAttr := flags
      offsetMid := (handler >>> 16) &&& 0xFFFF
      offsetHigh := (handler >>> 32) &&& 0xFFFFFFFF
      zero := 0 }

/-! ### Handlers -/

/-- The functions whose addresses are put into the table. -/
inductive Handler where
  /-- `exc0` to `exc31` -/
  | exc (n : Fin 32)
  | pageFault
  | irq0Timer
  | keyboardHandler
  | mouseIrq
  deriving DecidableEq

/-- Where the functions of the kernel are: each has its own 64-bit address. -/
structure Image where
  addr : Handler → Nat
  addr_lt : ∀ h, addr h < 2 ^ 64
  addr_inj : ∀ h h', addr h = addr h' → h = h'

/-- `EXC_NOERR` or `EXC_ERR` of the handlers in order: whether they take an error code,
and their messages. -/
def exceptions : List (Bool × String) := [
  (false, "#DE Divide Error"), (false, "#DB Debug"), (false, "NMI"), (false, "#BP Breakpoint"),
  (false, "#OF Overflow"), (false, "#BR BOUND Range Exceeded"), (false, "#UD Invalid Opcode"),
  (false, "#NM Device Not Available"), (true, "#DF Double Fault"), (false, "Coprocessor Segment Overrun"),
  (true, "#TS Invalid TSS"), (true, "#NP Segment Not Present"), (true, "#SS Stack-Segment Fault"),
  (true, "#GP General Protection Fault"), (true, "#PF Page Fault"), (false, "Reserved (15)"),
  (false, "#MF x87 FPU Error"), (true, "#AC Alignment Check"), (false, "#MC Machine Check"),
  (false, "#XM SIMD FP Exception"), (false, "#VE Virtualization"), (true, "#CP Control Protection"),
  (false, "Reserved (22)"), (false, "Reserved (23)"), (false, "Reserved (24)"), (false, "Reserved (25)"),
  (false, "Reserved (26)"), (false, "Reserved (27)"), (false, "#HV Hypervisor Injection"),
  (true, "#VC VMM Communication"), (true, "#SD Security Exception"), (false, "Reserved (31)")]

/-- Whether a handler is written for a frame with an error code. -/
def Handler.takesError : Handler → Bool
  | .exc n => (exceptions[n]?).any Prod.fst
  | .pageFault => true
  | _ => false

section Tables
variable (c : Image)

/-- The gates that are set, in order: vector, handler and flags. -/
def exceptionsInstall : List (Nat × Handler × Nat) :=
  (List.finRange 32).map fun i => (i.val, .exc i, idtIntGate)

def idtInit : List (Nat × Handler × Nat) := exceptionsInstall ++ [(14, .pageFault, idtIntGate)]

/-- Those of `kmain`, `keyboard_init` and `mouse_init`. -/
def bootGates : List (Nat × Handler × Nat) :=
  idtInit ++ [(0x20, .irq0Timer, idtIntGate), (0x21, .keyboardHandler, idtIntGate), (0x2C, .mouseIrq, idtIntGate)]

def setGates (idt : Idt) (gates : List (Nat × Handler × Nat)) : Idt :=
  gates.foldl (fun idt g => idtSetGate idt g.1 (c.addr g.2.1) g.2.2) idt

end Tables

/-! ### The processor's side -/

/-- What an entry says: where to go, and whether interrupts are off there. -/
structure Gate where
  target : Nat
  selector : Nat
  masks : Bool
  deriving DecidableEq

/-- A present interrupt or trap gate. -/
def IdtEntry.gate (e : IdtEntry) : Option Gate :=
  if e.typeAttr.testBit 7 && (e.typeAttr % 16 == 0xE || e.typeAttr % 16 == 0xF) then
    some ⟨e.offsetLow + 2 ^ 16 * e.offsetMid + 2 ^ 32 * e.offsetHigh, e.selector, e.typeAttr % 16 == 0xE⟩
  else none

/-- The vectors for which the processor pushes an error code. -/
def pushesError (vec : Nat) : Bool := [8, 10, 11, 12, 13, 14, 17, 21, 29, 30].contains vec

/-! ### The table after the boot -/

theorem idtSetGate_same (idt : Idt) (vec : Nat) {handler flags : Nat} (h : handler < 2 ^ 64)
    (hflags : flags.testBit 7 = true) (htype : flags % 16 = 0xE) :
    (idtSetGate idt vec handler flags vec).gate = some ⟨handler, kernelCs, true⟩ := by
  have hlow : handler &&& 0xFFFF = handler % 2 ^ 16 := Nat.and_two_pow_sub_one_eq_mod handler 16
  have hmid : (handler >>> 16) &&& 0xFFFF = handler / 2 ^ 16 % 2 ^ 16 := by
    rw [Nat.shiftRight_eq_div_pow]
    exact Nat.and_two_pow_sub_one_eq_mod _ 16
  have hhigh : (handler >>> 32) &&& 0xFFFFFFFF = handler / 2 ^ 32 % 2 ^ 32 := by
    rw [Nat.shiftRight_eq_div_pow]
    exact Nat.and_two_pow_sub_one_eq_mod _ 32
  have hwhole : handler % 2 ^ 16 + 2 ^ 16 * (handler / 2 ^ 16 % 2 ^ 16) +
      2 ^ 32 * (handler / 2 ^ 32 % 2 ^ 32) = handler := by omega
  rw [idtSetGate, Function.update_self, IdtEntry.gate]
  simp only [hflags, htype, hlow, hmid, hhigh, hwhole, beq_self_eq_true, Bool.true_or, Bool.and_self, if_true]

theorem idtSetGate_ne (idt : Idt) {vec vec' : Nat} (handler flags : Nat) (h : vec' ≠ vec) :
    idtSetGate idt vec handler flags vec' = idt vec' := Function.update_of_ne h _ _

/-- The last gate set for a vector is its gate. -/
theorem setGates_gate (c : Image) {idt : Idt} {gates : List (Nat × Handler × Nat)} {vec : Nat}
    (hflags : ∀ g ∈ gates, g.2.2 = idtIntGate) :
    (setGates c idt gates vec).gate =
      match gates.reverse.find? (fun g => g.1 == vec) with
      | some g => some ⟨c.addr g.2.1, kernelCs, true⟩
      | none => (idt vec).gate := by
  induction gates using List.reverseRecOn with
  | nil => rfl
  | append_singleton gates g ih =>
    have hrest := ih fun g' hg' => hflags g' (List.mem_append_left _ hg')
    have hg := hflags g (by simp)
    rw [setGates, List.foldl_append, List.foldl_cons, List.foldl_nil, List.reverse_append]
    change (idtSetGate (setGates c idt gates) g.1 (c.addr g.2.1) g.2.2 vec).gate = _
    by_cases hvec : g.1 = vec
    · subst hvec
      rw [hg, idtSetGate_same _ _ (c.addr_lt _) (by decide) (by decide)]
      simp
    · rw [idtSetGate_ne _ _ _ (Ne.symm hvec), hrest]
      simp [beq_false_of_ne hvec]

/-- The handler of each vector. -/
def handlerOf (vec : Nat) : Option Handler :=
  if vec = 14 then some .pageFault
  else if h : vec < 32 then some (.exc ⟨vec, h⟩)
  else if vec = 0x20 then some .irq0Timer
  else if vec = 0x21 then some .keyboardHandler
  else if vec = 0x2C then some .mouseIrq
  else none

theorem bootGates_find (vec : Nat) :
    (bootGates.reverse.find? fun g => g.1 == vec).map (fun g => g.2.1) = handlerOf vec := by
  by_cases hlt : vec < 45
  · have hall : ∀ v < 45, (bootGates.reverse.find? fun g => g.1 == v).map (fun g => g.2.1) = handlerOf v := by
      decide
    exact hall vec hlt
  · have hnone : bootGates.reverse.find? (fun g => g.1 == vec) = none := by
      refine List.find?_eq_none.mpr fun g hg => ?_
      have hle : ∀ g ∈ bootGates.reverse, g.1 < 45 := by decide
      have := hle g hg
      simp only [beq_iff_eq]
      omega
    rw [hnone, handlerOf]
    grind

/-- **The table after the boot**: every exception and the three interrupts have their
interrupt gate, and no other vector has one. -/
theorem bootIdt_gate (c : Image) (vec : Nat) :
    (setGates c Idt.zeroed bootGates vec).gate =
      (handlerOf vec).map fun h => ⟨c.addr h, kernelCs, true⟩ := by
  rw [setGates_gate c (by decide), ← bootGates_find]
  cases bootGates.reverse.find? fun g => g.1 == vec with
  | none =>
    show IdtEntry.gate ⟨0, 0, 0, 0, 0, 0, 0⟩ = none
    decide
  | some g => rfl

/-- A handler expects an error code exactly where the processor pushes one. -/
theorem handlerOf_takesError {vec : Nat} {h : Handler} (hh : handlerOf vec = some h) :
    h.takesError = pushesError vec := by
  by_cases hlt : vec < 45
  · have hall : ∀ v < 45, ∀ h ∈ handlerOf v, h.takesError = pushesError v := by decide
    exact hall vec hlt h hh
  · have hnone : handlerOf vec = none := by
      rw [handlerOf]
      grind
    rw [hnone] at hh
    cases hh

/-- Every function at an address of its own. -/
def smallImage : Image where
  addr
    | .exc n => 0x1000 + 16 * n
    | .pageFault => 0x2000
    | .irq0Timer => 0x2010
    | .keyboardHandler => 0x2020
    | .mouseIrq => 0x2030
  addr_lt h := by cases h <;> dsimp only <;> omega
  addr_inj h h' heq := by cases h <;> cases h' <;> dsimp only at heq <;> grind

end ArcMonark.Cpu
