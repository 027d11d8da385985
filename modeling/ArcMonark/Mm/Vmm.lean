import ArcMonark.Mm.Pmm

/-! Four-level page tables (`mm/vmm.c`) and the walk the processor makes of them.

Tables are reached through the direct map; `walk` is the hardware's side, from
the physical address of the root. -/
namespace ArcMonark.Mm.Vmm
open Library Pmm

def pagePresent : Nat := 1 <<< 0
def pageWrite : Nat := 1 <<< 1
def pageUser : Nat := 1 <<< 2
def pageAddrMask : Nat := 0x000FFFFFFFFFF000

def pml4Index (v : Nat) : Nat := (v >>> 39) &&& 0x1FF
def pdptIndex (v : Nat) : Nat := (v >>> 30) &&& 0x1FF
def pdIndex (v : Nat) : Nat := (v >>> 21) &&& 0x1FF
def ptIndex (v : Nat) : Nat := (v >>> 12) &&& 0x1FF

def physToVirt (m : Machine) (phys : Nat) : Nat := add64 phys m.hhdmOffset

/-- The physical address of `table[index]`. -/
def slotAddr (m : Machine) (table index : Nat) : Nat := m.direct (add64 table (8 * index))

/-- `table[index]` -/
def tableGet (m : Machine) (table index : Nat) : Nat := m.ram.load64 (slotAddr m table index)

/-- `table[index] = value` -/
def tableSet (m : Machine) (table index value : Nat) : Machine :=
  {m with ram := m.ram.store64 (slotAddr m table index) value}

/-- `memset(p, 0, PAGE_SIZE)` of a direct-map pointer. -/
def zeroPage (m : Machine) (p : Nat) : Machine :=
  {m with ram := memset m.ram (m.direct p) 0 pageSize}

/-- The table below an entry, made if it is missing and `allocate` says so; null
if there is none. Looking into a null table is a fault. -/
def getNextLevel (m : Machine) (table index : Nat) (allocate : Bool) :
    Except Fault (Nat × Machine) :=
  if table = null then .error .nullTable
  else if tableGet m table index &&& pagePresent ≠ 0 then
    .ok (physToVirt m (tableGet m table index &&& pageAddrMask), m)
  else if !allocate then .ok (null, m)
  else
    let (frame, m) := pmmAllocFrame m
    if frame = null then .ok (null, m)
    else
      let next := physToVirt m frame
      let m := zeroPage m next
      .ok (next, tableSet m table index (frame ||| pagePresent ||| pageWrite ||| pageUser))

def vmmMap (m : Machine) (pml4 virt phys flags : Nat) : Except Fault Machine := do
  let (pdpt, m) ← getNextLevel m pml4 (pml4Index virt) true
  let (pd, m) ← getNextLevel m pdpt (pdptIndex virt) true
  let (pt, m) ← getNextLevel m pd (pdIndex virt) true
  if pt = null then .error .nullTable
  else .ok (tableSet m pt (ptIndex virt) ((phys &&& pageAddrMask) ||| flags ||| pagePresent))

def vmmUnmap (m : Machine) (pml4 virt : Nat) : Except Fault Machine := do
  let (pdpt, m) ← getNextLevel m pml4 (pml4Index virt) false
  if pdpt = null then return m
  let (pd, m) ← getNextLevel m pdpt (pdptIndex virt) false
  if pd = null then return m
  let (pt, m) ← getNextLevel m pd (pdIndex virt) false
  if pt = null then return m
  return tableSet m pt (ptIndex virt) 0

/-- `n` entries from index `i` on, copied from one table to another. -/
def copyEntries (m : Machine) (dest src i : Nat) : Nat → Machine
  | 0 => m
  | n + 1 => copyEntries (tableSet m dest i (tableGet m src i)) dest src (i + 1) n

def vmmInit (m : Machine) : Machine :=
  let current := physToVirt m (m.cr3 &&& pageAddrMask)
  let (newPhys, m) := pmmAllocFrame m
  let m := {m with kernelPml4 := physToVirt m newPhys}
  let m := zeroPage m m.kernelPml4
  let m := copyEntries m m.kernelPml4 current 256 256
  {m with cr3 := newPhys}

/-! ### The hardware walk -/

/-- Where an address leads and what it allows. -/
structure Translation where
  phys : Nat
  write : Bool
  user : Bool
  nx : Bool
  deriving DecidableEq, Repr

/-- Entry `index` of the table at a physical address. -/
def entryAt (ram : Mem) (table index : Nat) : Nat := ram.load64 (table + 8 * index)

def present (e : Nat) : Bool := e.testBit 0

/-- Bit 7 of a PDPT or PD entry: it maps a large page and is no table. -/
def large (e : Nat) : Bool := e.testBit 7

/-- The index into the table of a level, 3 for the root and 0 for the last. -/
def levelIndex (level v : Nat) : Nat := (v >>> (12 + 9 * level)) &&& 0x1FF

/-- The page an entry of a level maps: the entry's address bits above the page's
size, the address's bits below it. -/
def leafPhys (level e v : Nat) : Nat :=
  (e &&& pageAddrMask) / 2 ^ (12 + 9 * level) * 2 ^ (12 + 9 * level) + v % 2 ^ (12 + 9 * level)

/-- The walk from a table of the given level, with what the levels above allow. -/
def walkFrom (ram : Mem) (v : Nat) : (level table : Nat) → (write user nx : Bool) → Option Translation
  | 0, table, write, user, nx =>
    let e := entryAt ram table (levelIndex 0 v)
    if present e then
      some ⟨leafPhys 0 e v, write && e.testBit 1, user && e.testBit 2, nx || e.testBit 63⟩
    else none
  | level + 1, table, write, user, nx =>
    let e := entryAt ram table (levelIndex (level + 1) v)
    if present e then
      if large e && level != 2 then
        some ⟨leafPhys (level + 1) e v, write && e.testBit 1, user && e.testBit 2,
          nx || e.testBit 63⟩
      else walkFrom ram v level (e &&& pageAddrMask) (write && e.testBit 1) (user && e.testBit 2)
        (nx || e.testBit 63)
    else none

/-- The translation of `v` through the tables rooted at physical address `root`. -/
def walk (ram : Mem) (root v : Nat) : Option Translation := walkFrom ram v 3 root true true false

end ArcMonark.Mm.Vmm
