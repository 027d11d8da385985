import ArcMonark.Library.X86
import ArcMonark.Sched.Sched

/-! The context switch (`cpu/switch.asm`).

`switch_context` stores the registers a callee must keep below the stack pointer of
the task it leaves, and loads those of the task it turns to. What it leaves there is
a frame of seven words; `task_create` builds the same by hand (`Sched.initialFrame`),
with the trampoline for a return address. -/
namespace ArcMonark.Cpu
open Library Library.X86

/-- Where the linker put the two routines, and `task_exit`. -/
structure Layout where
  text : Word
  taskExit : Word

def switchContext : List Instr :=
  [.push .rbp, .push .rbx, .push .r12, .push .r13, .push .r14, .push .r15,
    .store .rdi .rsp, .mov .rsp .rsi,
    .pop .r15, .pop .r14, .pop .r13, .pop .r12, .pop .rbx, .pop .rbp, .ret]

/-- `hang` is the label on the `cli`. -/
def taskTrampoline (taskExit hang : Word) : List Instr :=
  [.sti, .mov .rdi .r12, .callReg .rbx, .call taskExit, .cli, .hlt, .jmp hang]

namespace Layout
variable (L : Layout)

def switchContext : Word := L.text

def taskTrampoline : Word := L.text + BitVec.ofNat 64 (byteSize Cpu.switchContext)

def hang : Word := L.taskTrampoline + 11

/-- The routines, one behind the other. -/
def code : List Instr := Cpu.switchContext ++ Cpu.taskTrampoline L.taskExit L.hang

theorem byteSize_lt : byteSize L.code < 2 ^ 64 := by
  simp [code, Cpu.switchContext, Cpu.taskTrampoline, byteSize, Instr.size, Reg.extended]

/-- `n` instructions. -/
def steps (n : Nat) (c : State) : Option State := X86.steps L.code L.text n c

end Layout

/-! ### Contexts -/

/-- What a task finds when it goes on: the registers a callee must keep, its stack
pointer and the place where it goes on. -/
structure Context where
  rbp : Word
  rbx : Word
  r12 : Word
  r13 : Word
  r14 : Word
  r15 : Word
  rsp : Word
  rip : Word

/-- The context of a task that runs. -/
def context (c : State) : Context :=
  ⟨c.reg .rbp, c.reg .rbx, c.reg .r12, c.reg .r13, c.reg .r14, c.reg .r15, c.reg .rsp, c.rip⟩

/-- The context of the caller, on entry to a routine: the return address is on the stack. -/
def callContext (c : State) : Context :=
  {context c with rsp := c.reg .rsp + 8, rip := c.read64 (c.reg .rsp)}

/-- The words in which a context is kept, from the saved stack pointer up. -/
def Context.frame (ctx : Context) : List Nat :=
  [ctx.r15, ctx.r14, ctx.r13, ctx.r12, ctx.rbx, ctx.rbp, ctx.rip].map BitVec.toNat

/-- The bytes of a frame. -/
def frameSize : Nat := 56

/-- A context is kept at `sp`. -/
def Kept (mem : Mem) (sp : Nat) (ctx : Context) : Prop :=
  mem.words sp 7 = ctx.frame ∧ ctx.rsp.toNat = sp + frameSize

theorem Kept.congr {mem mem' : Mem} {sp : Nat} {ctx : Context} (h : Kept mem sp ctx)
    (hag : mem.Agree mem' sp (sp + frameSize)) : Kept mem' sp ctx :=
  ⟨(Mem.words_congr hag).trans h.1, h.2⟩

/-! ### `switch_context` -/

section Switch
variable (L : Layout) {c : State}

/-- The bytes of memory that `switch_context` writes: six words of the stack, and
the field for the stack pointer. -/
def switchedMem (c : State) : Mem :=
  (c.mem.push (c.reg .rsp).toNat ([c.reg .rbp, c.reg .rbx, c.reg .r12, c.reg .r13, c.reg .r14,
    c.reg .r15].map BitVec.toNat)).store64 (c.reg .rdi).toNat ((c.reg .rsp).toNat - 48)

theorem switchContext_runs (hrip : c.rip = L.switchContext) :
    L.steps 15 c = some (runAll Cpu.switchContext c) := by
  refine steps_straight (show L.code = [] ++ Cpu.switchContext ++ _ from rfl) L.byteSize_lt (by decide) ?_
  rw [hrip]
  exact (BitVec.add_zero _).symm

/-- **`switch_context`** leaves the caller's frame where the field for its stack
pointer says, and goes on with the context that is kept at `rsi`. -/
theorem switchContext_spec (hroom : 48 ≤ (c.reg .rsp).toNat) {ctx : Context}
    (hkept : Kept (switchedMem c) (c.reg .rsi).toNat ctx) :
    context (runAll switchContext c) = ctx ∧ (runAll switchContext c).mem = switchedMem c := by
  obtain ⟨c₁, hc₁⟩ : ∃ c₁, c₁ = runAll (List.map Instr.push [.rbp, .rbx, .r12, .r13, .r14, .r15]) c := ⟨_, rfl⟩
  obtain ⟨c₂, hc₂⟩ : ∃ c₂, c₂ = runAll [.store .rdi .rsp, .mov .rsp .rsi] c₁ := ⟨_, rfl⟩
  obtain ⟨c₃, hc₃⟩ : ∃ c₃, c₃ = runAll (List.map Instr.pop [.r15, .r14, .r13, .r12, .rbx, .rbp]) c₂ := ⟨_, rfl⟩
  have hsplit : switchContext = List.map Instr.push [.rbp, .rbx, .r12, .r13, .r14, .r15] ++
      ([Instr.store .rdi .rsp, .mov .rsp .rsi] ++
        (List.map Instr.pop [.r15, .r14, .r13, .r12, .rbx, .rbp] ++ [Instr.ret])) := rfl
  have hrun : runAll switchContext c = Instr.ret.run c₃ := by
    rw [hsplit, runAll_append, runAll_append, runAll_append, ← hc₁, ← hc₂, ← hc₃]
    rfl
  -- the registers go onto the old stack
  obtain ⟨hmem₁, hsp₁, hreg₁⟩ := pushAll_spec
    (show Reg.rsp ∉ [.rbp, .rbx, .r12, .r13, .r14, .r15] by decide) c hroom
  rw [← hc₁] at hmem₁ hsp₁ hreg₁
  have hmem₂ : c₂.mem = switchedMem c := by
    have hstore : c₂.mem = c₁.mem.store64 (c₁.reg .rdi).toNat (c₁.reg .rsp).toNat := by
      rw [hc₂]
      rfl
    rw [hstore, hmem₁, hsp₁, hreg₁ .rdi (by decide)]
    rfl
  have hsp₂ : c₂.reg .rsp = c.reg .rsi := by
    rw [hc₂, ← hreg₁ .rsi (by decide)]
    exact State.set_same ..
  -- and come off the new one
  have hrsp := hkept.2
  have hlt := ctx.rsp.isLt
  unfold frameSize at hrsp
  obtain ⟨hmem₃, hsp₃, hvals, _⟩ := popAll_spec
    (show Reg.rsp ∉ [.r15, .r14, .r13, .r12, .rbx, .rbp] by decide) (by decide) c₂ (by rw [hsp₂]; show _ + 48 < _; omega)
  rw [← hc₃] at hmem₃ hsp₃ hvals
  rw [hsp₂] at hsp₃ hvals
  rw [hmem₂] at hvals hmem₃
  have hframe := hkept.1
  rw [Mem.words_snoc, show 6 = [Reg.r15, .r14, .r13, .r12, .rbx, .rbp].length from rfl, ← hvals] at hframe
  simp only [Context.frame, List.map_cons, List.map_nil, List.cons_append, List.nil_append, List.cons.injEq,
    and_true, BitVec.toNat_inj] at hframe
  obtain ⟨h15, h14, h13, h12, hbx, hbp, hip⟩ := hframe
  have hsp : c₃.reg .rsp + 8 = ctx.rsp := by
    refine BitVec.eq_of_toNat_eq ?_
    change (c₃.reg .rsp).toNat = _ + 48 at hsp₃
    rw [hrsp]
    exact (toNat_add_ofNat (a := c₃.reg .rsp) (k := 8) (by omega)).trans (by omega)
  have hrip : c₃.read64 (c₃.reg .rsp) = ctx.rip := by
    refine BitVec.eq_of_toNat_eq ?_
    rw [← hip, State.read64, hmem₃, hsp₃, BitVec.toNat_ofNat, Nat.mod_eq_of_lt (Mem.load64_lt _ _)]
  refine ⟨?_, by rw [hrun]; exact hmem₃⟩
  rw [hrun]
  show Context.mk (c₃.reg .rbp) (c₃.reg .rbx) (c₃.reg .r12) (c₃.reg .r13) (c₃.reg .r14) (c₃.reg .r15)
    (c₃.reg .rsp + 8) (c₃.read64 (c₃.reg .rsp)) = ctx
  rw [h15, h14, h13, h12, hbx, hbp, hsp, hrip]

/-! ### `task_trampoline` -/

/-- **`task_trampoline`** enables interrupts and calls `rbx` with `r12`; where that
returns to, `task_exit` is called. -/
theorem taskTrampoline_spec (hrip : c.rip = L.taskTrampoline) :
    ∃ c', L.steps 3 c = some c' ∧ c'.interrupts = true ∧ c'.rip = c.reg .rbx ∧
      c'.reg .rdi = c.reg .r12 ∧ c'.reg .rsp = c.reg .rsp - 8 ∧
      ∀ d, d.rip = c'.read64 (c'.reg .rsp) → ∃ d', L.steps 1 d = some d' ∧ d'.rip = L.taskExit := by
  have hruns : L.steps 3 c = some (runAll [.sti, .mov .rdi .r12, .callReg .rbx] c) :=
    steps_straight (show L.code = Cpu.switchContext ++ [.sti, .mov .rdi .r12, .callReg .rbx] ++ _ from rfl)
      L.byteSize_lt (by decide) hrip
  obtain ⟨c₂, hc₂⟩ : ∃ c₂, c₂ = runAll [.sti, .mov .rdi .r12] c := ⟨_, rfl⟩
  have hrun : runAll [.sti, .mov .rdi .r12, .callReg .rbx] c = (Instr.callReg .rbx).run c₂ := by
    rw [hc₂]
    rfl
  have hon : c₂.interrupts = true := by
    rw [hc₂]
    rfl
  have hdi : c₂.reg .rdi = c.reg .r12 := by
    rw [hc₂]
    exact State.set_same ..
  have hreg : ∀ q, q ≠ .rdi → c₂.reg q = c.reg q := fun q hq => by
    rw [hc₂]
    exact State.set_ne _ _ hq
  have hrip₂ : c₂.rip + 2 = L.taskTrampoline + 6 := by
    rw [hc₂, ← hrip]
    show c.rip + 1 + 3 + 2 = c.rip + 6
    rw [BitVec.add_assoc, BitVec.add_assoc]
    rfl
  obtain ⟨c₃, hc₃⟩ : ∃ c₃, c₃ = ({c₂ with rip := c₂.rip + 2} : State).pushValue (c₂.rip + 2) := ⟨_, rfl⟩
  have hlast : (Instr.callReg .rbx).run c₂ = {c₃ with rip := c₂.reg .rbx} := by
    rw [hc₃]
    rfl
  have hsp₃ : c₃.reg .rsp = c.reg .rsp - 8 := by
    rw [hc₃, ← hreg .rsp (by decide)]
    exact State.pushValue_rsp ..
  rw [hrun, hlast] at hruns
  refine ⟨_, hruns, ?_, hreg .rbx (by decide), ?_, hsp₃, fun d hd => ?_⟩
  · rw [hc₃]
    exact hon
  · show c₃.reg .rdi = _
    rw [hc₃, ← hdi]
    exact State.pushValue_ne ({c₂ with rip := c₂.rip + 2} : State) _ (by decide)
  · -- the word on top of the stack is the address behind the call
    have hret : d.rip = L.taskTrampoline + 6 := by
      rw [hd, ← hrip₂]
      show c₃.read64 (c₃.reg .rsp) = _
      rw [hsp₃, ← hreg .rsp (by decide), hc₃]
      exact State.pushValue_top ..
    refine ⟨_, steps_straight (show L.code = (Cpu.switchContext ++ [.sti, .mov .rdi .r12, .callReg .rbx]) ++
      [.call L.taskExit] ++ _ from rfl) L.byteSize_lt (by simp) ?_, rfl⟩
    rw [hret, byteSize_append, BitVec.ofNat_add, ← BitVec.add_assoc]
    rfl

end Switch

end ArcMonark.Cpu
