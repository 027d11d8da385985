import ArcMonark.Library.Stack
import Mathlib.Data.BitVec

/-! A piece of the x86-64 instruction set.

A program is a listing of instructions that begins at an address; each takes as
many bytes as its encoding. `steps` runs it an instruction at a time. Code that
does not jump runs through (`steps_straight`), and a block of pushes or pops does
to memory and registers what one would expect (`pushAll_spec`, `popAll_spec`). -/
namespace ArcMonark.Library.X86

abbrev Word := BitVec 64

inductive Reg where
  | rax | rbx | rcx | rdx | rsi | rdi | rbp | rsp
  | r8 | r9 | r10 | r11 | r12 | r13 | r14 | r15
  deriving DecidableEq, Repr

/-- Whether an encoding of the register takes a prefix byte of its own. -/
def Reg.extended : Reg → Bool
  | .r8 | .r9 | .r10 | .r11 | .r12 | .r13 | .r14 | .r15 => true
  | _ => false

structure State where
  reg : Reg → Word
  rip : Word
  /-- Whether interrupts are enabled. -/
  interrupts : Bool
  mem : Mem

inductive Instr where
  | push (r : Reg)
  | pop (r : Reg)
  /-- `mov [base], src` -/
  | store (base src : Reg)
  /-- `mov dst, src` -/
  | mov (dst src : Reg)
  | callReg (r : Reg)
  | call (target : Word)
  | jmp (target : Word)
  | ret
  | sti
  | cli
  | hlt
  deriving DecidableEq, Repr

/-- The bytes of an instruction. A base register that would mean another form
of addressing takes a byte more; a jump is a short one. -/
def Instr.size : Instr → Nat
  | .push r | .pop r => if r.extended then 2 else 1
  | .store base _ => if base = .rsp ∨ base = .rbp ∨ base = .r12 ∨ base = .r13 then 4 else 3
  | .mov _ _ => 3
  | .callReg r => if r.extended then 3 else 2
  | .call _ => 5
  | .jmp _ => 2
  | .ret | .sti | .cli | .hlt => 1

namespace State

def set (c : State) (r : Reg) (v : Word) : State := {c with reg := Function.update c.reg r v}

@[simp] theorem set_same (c : State) (r : Reg) (v : Word) : (c.set r v).reg r = v := Function.update_self ..

theorem set_ne (c : State) {r q : Reg} (v : Word) (h : q ≠ r) : (c.set r v).reg q = c.reg q :=
  Function.update_of_ne h _ _

def read64 (c : State) (a : Word) : Word := BitVec.ofNat 64 (c.mem.load64 a.toNat)

def write64 (c : State) (a v : Word) : State := {c with mem := c.mem.store64 a.toNat v.toNat}

def pushValue (c : State) (v : Word) : State :=
  let sp := c.reg .rsp - 8
  (c.write64 sp v).set .rsp sp

theorem pushValue_rsp (c : State) (v : Word) : (c.pushValue v).reg .rsp = c.reg .rsp - 8 := set_same ..

theorem pushValue_ne (c : State) (v : Word) {r : Reg} (h : r ≠ .rsp) : (c.pushValue v).reg r = c.reg r :=
  set_ne _ _ h

/-- A pushed word is on top of the stack. -/
theorem pushValue_top (c : State) (v : Word) : (c.pushValue v).read64 (c.reg .rsp - 8) = v := by
  have hmem : (c.pushValue v).mem = c.mem.store64 (c.reg .rsp - 8).toNat v.toNat := rfl
  rw [read64, hmem, Mem.load64_store64_same _ _ v.isLt, BitVec.ofNat_toNat, BitVec.setWidth_eq]

end State

/-- What an instruction does, once `rip` is behind it. `hlt` waits where it is. -/
def Instr.exec : Instr → State → State
  | .push r, c => c.pushValue (c.reg r)
  | .pop r, c => (c.set .rsp (c.reg .rsp + 8)).set r (c.read64 (c.reg .rsp))
  | .store base src, c => c.write64 (c.reg base) (c.reg src)
  | .mov dst src, c => c.set dst (c.reg src)
  | .callReg r, c => {c.pushValue c.rip with rip := c.reg r}
  | .call target, c => {c.pushValue c.rip with rip := target}
  | .jmp target, c => {c with rip := target}
  | .ret, c => {c.set .rsp (c.reg .rsp + 8) with rip := c.read64 (c.reg .rsp)}
  | .sti, c => {c with interrupts := true}
  | .cli, c => {c with interrupts := false}
  | .hlt, c => {c with rip := c.rip - 1}

/-- The bytes of a listing. -/
def byteSize : List Instr → Nat
  | [] => 0
  | i :: is => i.size + byteSize is

/-- The instruction that begins at an offset. -/
def instrAt : List Instr → Nat → Option Instr
  | [], _ => none
  | i :: is, offset =>
    if offset = 0 then some i else if offset < i.size then none else instrAt is (offset - i.size)

/-- An instruction as it runs: `rip` moves behind it first. -/
def Instr.run (i : Instr) (c : State) : State := i.exec {c with rip := c.rip + BitVec.ofNat 64 i.size}

/-- One instruction of the listing at `text`, if there is one at `rip`. -/
def step (code : List Instr) (text : Word) (c : State) : Option State :=
  (instrAt code (c.rip - text).toNat).map (Instr.run · c)

def steps (code : List Instr) (text : Word) : Nat → State → Option State
  | 0, c => some c
  | n + 1, c => (step code text c).bind (steps code text n)

/-! ### Straight code -/

/-- An instruction that goes on with the next one. -/
def Instr.straight : Instr → Bool
  | .push _ | .pop _ | .store _ _ | .mov _ _ | .sti | .cli => true
  | _ => false

theorem Instr.exec_rip {i : Instr} (h : i.straight = true) (c : State) : (i.exec c).rip = c.rip := by
  cases i with
  | push | pop | store | mov | sti | cli => rfl
  | callReg | call | jmp | ret | hlt => cases h

/-- Instructions, one after the other. -/
def runAll (is : List Instr) (c : State) : State := is.foldl (fun c i => i.run c) c

theorem runAll_append (is js : List Instr) (c : State) : runAll (is ++ js) c = runAll js (runAll is c) :=
  List.foldl_append ..

theorem byteSize_append (is js : List Instr) : byteSize (is ++ js) = byteSize is + byteSize js := by
  induction is with
  | nil => rw [List.nil_append, byteSize, Nat.zero_add]
  | cons i is ih => rw [List.cons_append, byteSize, byteSize, ih, Nat.add_assoc]

theorem Instr.size_pos (i : Instr) : 0 < i.size := by
  unfold Instr.size
  split <;> (try split) <;> decide

theorem instrAt_append (is : List Instr) (i : Instr) (js : List Instr) :
    instrAt (is ++ i :: js) (byteSize is) = some i := by
  induction is with
  | nil => rfl
  | cons j is ih =>
    have hpos := j.size_pos
    rw [List.cons_append, instrAt, byteSize, if_neg (by omega), if_neg (by omega), Nat.add_sub_cancel_left, ih]

/-- **Straight code runs through**, to its last instruction, which may jump. -/
theorem steps_straight {code is js ks : List Instr} {text : Word} {c : State} (hcode : code = is ++ js ++ ks)
    (hlt : byteSize code < 2 ^ 64) (hstraight : ∀ i ∈ js.dropLast, i.straight = true)
    (hrip : c.rip = text + BitVec.ofNat 64 (byteSize is)) :
    steps code text js.length c = some (runAll js c) := by
  induction js generalizing is c with
  | nil => rfl
  | cons i js ih =>
    have hsize : byteSize is < 2 ^ 64 := by
      rw [hcode, byteSize_append, byteSize_append] at hlt
      omega
    have hoff : (c.rip - text).toNat = byteSize is := by
      rw [hrip, BitVec.add_comm, BitVec.add_sub_cancel, BitVec.toNat_ofNat, Nat.mod_eq_of_lt hsize]
    have hat : instrAt code (byteSize is) = some i := by
      rw [hcode, List.append_assoc]
      exact instrAt_append is i _
    rw [List.length_cons, steps, step, hoff, hat]
    cases js with
    | nil => rfl
    | cons j js =>
      have hi : i.straight = true := hstraight i (by simp)
      refine ih (show code = (is ++ [i]) ++ (j :: js) ++ ks by rw [hcode]; simp) (fun k hk => hstraight k ?_) ?_
      · simp only [List.dropLast_cons_cons, List.mem_cons] at hk ⊢
        exact .inr hk
      · show (i.exec _).rip = _
        rw [Instr.exec_rip hi]
        show c.rip + BitVec.ofNat 64 i.size = _
        rw [hrip, byteSize_append, BitVec.ofNat_add, BitVec.add_assoc]
        congr 3

/-! ### Blocks of pushes and pops -/

theorem toNat_sub_ofNat {a : Word} {k : Nat} (h : k ≤ a.toNat) : (a - BitVec.ofNat 64 k).toNat = a.toNat - k := by
  have ha := a.isLt
  rw [BitVec.toNat_sub_of_le]
  · rw [BitVec.toNat_ofNat, Nat.mod_eq_of_lt (by omega)]
  · rw [BitVec.le_def, BitVec.toNat_ofNat, Nat.mod_eq_of_lt (by omega)]
    exact h

theorem toNat_add_ofNat {a : Word} {k : Nat} (h : a.toNat + k < 2 ^ 64) :
    (a + BitVec.ofNat 64 k).toNat = a.toNat + k := by
  rw [BitVec.toNat_add, BitVec.toNat_ofNat, Nat.mod_eq_of_lt (show k < 2 ^ 64 by omega), Nat.mod_eq_of_lt h]

/-- A block of pushes stores the registers below the stack pointer. -/
theorem pushAll_spec {rs : List Reg} (hrs : .rsp ∉ rs) (c : State) (hroom : 8 * rs.length ≤ (c.reg .rsp).toNat) :
    (runAll (rs.map .push) c).mem = c.mem.push (c.reg .rsp).toNat (rs.map fun r => (c.reg r).toNat) ∧
    ((runAll (rs.map .push) c).reg .rsp).toNat = (c.reg .rsp).toNat - 8 * rs.length ∧
    ∀ r, r ≠ .rsp → (runAll (rs.map .push) c).reg r = c.reg r := by
  induction rs generalizing c with
  | nil => exact ⟨rfl, rfl, fun _ _ => rfl⟩
  | cons r rs ih =>
    obtain ⟨hr, hrs⟩ := List.ne_and_not_mem_of_not_mem_cons hrs
    rw [List.length_cons] at hroom ⊢
    obtain ⟨c', hc'⟩ : ∃ c', c' = (Instr.push r).run c := ⟨_, rfl⟩
    have hdown : (c.reg .rsp - 8).toNat = (c.reg .rsp).toNat - 8 :=
      toNat_sub_ofNat (a := c.reg .rsp) (k := 8) (by omega)
    have hsp : (c'.reg .rsp).toNat = (c.reg .rsp).toNat - 8 := by
      rw [hc', ← hdown]
      exact congrArg BitVec.toNat (State.pushValue_rsp ..)
    have hmem : c'.mem = c.mem.store64 ((c.reg .rsp).toNat - 8) (c.reg r).toNat := by
      rw [hc', ← hdown]
      rfl
    have hreg : ∀ q, q ≠ .rsp → c'.reg q = c.reg q := fun q hq => by
      rw [hc']
      exact State.pushValue_ne _ _ hq
    obtain ⟨hmem', hsp', hreg'⟩ := ih hrs c' (by omega)
    have hvals : (rs.map fun q => (c'.reg q).toNat) = rs.map fun q => (c.reg q).toNat :=
      List.map_congr_left fun q hq => by rw [hreg q fun heq => hrs (heq ▸ hq)]
    have hrun : runAll ((r :: rs).map .push) c = runAll (rs.map .push) c' := by
      rw [hc']
      rfl
    refine ⟨?_, ?_, fun q hq => ?_⟩
    · rw [hrun, hmem', hmem, hsp, hvals]
      rfl
    · rw [hrun, hsp', hsp]
      omega
    · rw [hrun, hreg' q hq, hreg q hq]

/-- A block of pops loads the registers from the stack pointer up. -/
theorem popAll_spec {rs : List Reg} (hrs : .rsp ∉ rs) (hnodup : rs.Nodup) (c : State)
    (hroom : (c.reg .rsp).toNat + 8 * rs.length < 2 ^ 64) :
    (runAll (rs.map .pop) c).mem = c.mem ∧
    ((runAll (rs.map .pop) c).reg .rsp).toNat = (c.reg .rsp).toNat + 8 * rs.length ∧
    (rs.map fun r => ((runAll (rs.map .pop) c).reg r).toNat) = c.mem.words (c.reg .rsp).toNat rs.length ∧
    ∀ r, r ≠ .rsp → r ∉ rs → (runAll (rs.map .pop) c).reg r = c.reg r := by
  induction rs generalizing c with
  | nil => exact ⟨rfl, rfl, rfl, fun _ _ _ => rfl⟩
  | cons r rs ih =>
    obtain ⟨hr, hrs⟩ := List.ne_and_not_mem_of_not_mem_cons hrs
    obtain ⟨hnot, hnodup⟩ := List.nodup_cons.mp hnodup
    rw [List.length_cons] at hroom ⊢
    obtain ⟨c', hc'⟩ : ∃ c', c' = (Instr.pop r).run c := ⟨_, rfl⟩
    have hsp : (c'.reg .rsp).toNat = (c.reg .rsp).toNat + 8 := by
      rw [hc', ← toNat_add_ofNat (a := c.reg .rsp) (k := 8) (by omega)]
      exact congrArg BitVec.toNat ((State.set_ne _ _ hr).trans (State.set_same ..))
    have hmem : c'.mem = c.mem := by
      rw [hc']
      rfl
    have hval : (c'.reg r).toNat = c.mem.load64 (c.reg .rsp).toNat := by
      have hself : c'.reg r = c.read64 (c.reg .rsp) := by
        rw [hc']
        exact State.set_same ..
      rw [hself, State.read64, BitVec.toNat_ofNat, Nat.mod_eq_of_lt (Mem.load64_lt _ _)]
    have hreg : ∀ q, q ≠ .rsp → q ≠ r → c'.reg q = c.reg q := fun q hq hqr => by
      rw [hc']
      exact (State.set_ne _ _ hqr).trans (State.set_ne _ _ hq)
    obtain ⟨hmem', hsp', hvals, hreg'⟩ := ih hrs hnodup c' (by omega)
    have hrun : runAll ((r :: rs).map .pop) c = runAll (rs.map .pop) c' := by
      rw [hc']
      rfl
    rw [hrun]
    refine ⟨hmem'.trans hmem, by omega, ?_, fun q hq hmem => ?_⟩
    · rw [List.map_cons, hvals, hreg' r (Ne.symm hr) hnot, hval, hmem, hsp]
      rfl
    · obtain ⟨hqr, hqrs⟩ := List.ne_and_not_mem_of_not_mem_cons hmem
      rw [hreg' q hq hqrs, hreg q hq hqr]

end ArcMonark.Library.X86
