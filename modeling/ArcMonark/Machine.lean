import ArcMonark.Library.Bytes
import ArcMonark.Library.Words

/-! The machine under the kernel's memory management.

There is one physical memory. The frame bitmap and the page tables are reached
through the bootloader's direct map, which puts physical address `p` at virtual
address `p + hhdm_offset`; the heap is reached through the page tables
themselves (`Mm/Vmm.lean`). The other fields are the static variables of `pmm.c`,
`vmm.c` and `heap.c`, and the control register that holds the table root. -/
namespace ArcMonark
open Library

/-- How a run of kernel code can fail to return. -/
inductive Fault where
  /-- A page table was indexed through a null pointer. -/
  | nullTable
  /-- An address that is not mapped, or not writable, was accessed. -/
  | pageFault (addr : Nat)
  /-- A pointer chase that never ends. -/
  | diverge
  /-- The kernel stopped on purpose (`cli; hlt` for ever). -/
  | halt
  deriving DecidableEq, Repr

theorem ok_bind {α β : Type} (a : α) (f : α → Except Fault β) : (Except.ok a >>= f) = f a := rfl

theorem error_bind {α β : Type} (e : Fault) (f : α → Except Fault β) :
    ((Except.error e : Except Fault α) >>= f) = .error e := rfl

/-- What returns ran each of its parts. -/
theorem ok_of_bind {α β : Type} {x : Except Fault α} {f : α → Except Fault β} {b : β}
    (h : (x >>= f) = .ok b) : ∃ a, x = .ok a ∧ f a = .ok b := by
  cases x with
  | error e => cases h
  | ok a => exact ⟨a, rfl, h⟩

structure Machine where
  ram : Mem
  cr3 : Nat
  -- pmm.c
  hhdmOffset : Nat
  bitmap : Nat
  totalFrames : Nat
  usedFrames : Nat
  bitmapSize : Nat
  -- vmm.c
  kernelPml4 : Nat
  -- heap.c
  heapEnd : Nat
  head : Nat
  usedBytes : Nat

/-- A machine before its kernel runs: the given memory and table root, every
static variable zero. -/
def Machine.fresh (ram : Mem) (cr3 : Nat) : Machine :=
  {ram, cr3, hhdmOffset := 0, bitmap := 0, totalFrames := 0, usedFrames := 0, bitmapSize := 0,
    kernelPml4 := 0, heapEnd := 0, head := 0, usedBytes := 0}

def pageSize : Nat := 4096

/-- The null pointer. -/
def null : Nat := 0

/-- The physical address behind a pointer into the direct map. -/
def Machine.direct (m : Machine) (v : Nat) : Nat := sub64 v m.hhdmOffset

/-- `memset` at a physical address. -/
def memset (ram : Mem) (dest : Nat) (value : Byte) : Nat → Mem
  | 0 => ram
  | n + 1 => (memset ram dest value n).set (dest + n) value

theorem memset_apply (ram : Mem) (dest : Nat) (value : Byte) (n a : Nat) :
    memset ram dest value n a = if dest ≤ a ∧ a < dest + n then value else ram a := by
  induction n with
  | zero =>
    have : ¬ (dest ≤ a ∧ a < dest + 0) := by omega
    rw [if_neg this]
    rfl
  | succ n ih =>
    by_cases ha : a = dest + n
    · have : dest ≤ a ∧ a < dest + (n + 1) := by omega
      rw [if_pos this, memset, ha, Mem.set_same]
    · have : (dest ≤ a ∧ a < dest + n) ↔ (dest ≤ a ∧ a < dest + (n + 1)) := by omega
      rw [memset, Mem.set_ne _ _ ha, ih]
      simp only [this]

theorem memset_inside (ram : Mem) (value : Byte) {dest n a : Nat} (h : dest ≤ a)
    (h' : a < dest + n) : memset ram dest value n a = value := by
  rw [memset_apply, if_pos ⟨h, h'⟩]

theorem memset_outside (ram : Mem) (value : Byte) {dest n a : Nat} (h : a < dest ∨ dest + n ≤ a) :
    memset ram dest value n a = ram a := by
  rw [memset_apply, if_neg (by omega)]

end ArcMonark
