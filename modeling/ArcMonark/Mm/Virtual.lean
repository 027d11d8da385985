import ArcMonark.Mm.Vmm

/-! Accesses to virtual memory.

The kernel reads and writes its heap through the page tables that `cr3` points
to, a byte at a time here; words are little-endian. An address that is not
mapped, or a write to a page that is not writable, is a page fault. -/
namespace ArcMonark.Mm.Virtual
open Library Vmm

def readByte (m : Machine) (v : Nat) : Except Fault Byte :=
  match walk m.ram m.cr3 v with
  | some t => .ok (m.ram t.phys)
  | none => .error (.pageFault v)

def writeByte (m : Machine) (v : Nat) (b : Byte) : Except Fault Machine :=
  match walk m.ram m.cr3 v with
  | some t => if t.write then .ok {m with ram := m.ram.set t.phys b} else .error (.pageFault v)
  | none => .error (.pageFault v)

/-- `n` bytes from `v` up, as a number. -/
def readBytes (m : Machine) (v : Nat) : Nat → Except Fault Nat
  | 0 => .ok 0
  | n + 1 => do
    let b ← readByte m v
    let rest ← readBytes m (add64 v 1) n
    return b.toNat + 256 * rest

/-- The low `n` bytes of `x` from `v` up. -/
def writeBytes (m : Machine) (v : Nat) : Nat → Nat → Except Fault Machine
  | 0, _ => .ok m
  | n + 1, x => do
    let m ← writeBytes m (add64 v 1) n (x / 256)
    writeByte m v (BitVec.ofNat 8 x)

def read64 (m : Machine) (v : Nat) : Except Fault Nat := readBytes m v 8

def write64 (m : Machine) (v x : Nat) : Except Fault Machine := writeBytes m v 8 x

def memset (m : Machine) (dest : Nat) (value : Byte) : Nat → Except Fault Machine
  | 0 => .ok m
  | n + 1 => do
    let m ← memset m dest value n
    writeByte m (add64 dest n) value

/-- `memcpy`, from byte `i` on, with `n` bytes to go. -/
def memcpyFrom (m : Machine) (dest src i : Nat) : Nat → Except Fault Machine
  | 0 => .ok m
  | n + 1 => do
    let b ← readByte m (add64 src i)
    let m ← writeByte m (add64 dest i) b
    memcpyFrom m dest src (i + 1) n

def memcpy (m : Machine) (dest src count : Nat) : Except Fault Machine :=
  memcpyFrom m dest src 0 count

end ArcMonark.Mm.Virtual
