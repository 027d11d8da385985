import ArcMonark.Mm.Virtual

/-! The kernel heap (`mm/heap.c`).

Blocks lie in virtual memory from `HEAP_BASE` up, each behind a header that links
it to its neighbours in address order; the heap grows page by page at its end.
`irq_save` and `irq_restore` keep a call whole and have no other part here. -/
namespace ArcMonark.Mm.Heap
open Library Pmm Vmm Virtual

def heapBase : Nat := 0xFFFFA00000000000
def heapInitPages : Nat := 16
def align : Nat := 16

/-- `sizeof(block_t)` -/
def sizeofBlock : Nat := 32

/-! ### Block headers -/

def getSize (m : Machine) (b : Nat) : Except Fault Nat := read64 m b

def getFree (m : Machine) (b : Nat) : Except Fault Bool := do
  return (← readByte m (add64 b 8)) != 0#8

def getNext (m : Machine) (b : Nat) : Except Fault Nat := read64 m (add64 b 16)

def getPrev (m : Machine) (b : Nat) : Except Fault Nat := read64 m (add64 b 24)

def setSize (m : Machine) (b size : Nat) : Except Fault Machine := write64 m b size

def setFree (m : Machine) (b : Nat) (free : Bool) : Except Fault Machine :=
  writeByte m (add64 b 8) (if free then 1 else 0)

def setNext (m : Machine) (b next : Nat) : Except Fault Machine := write64 m (add64 b 16) next

def setPrev (m : Machine) (b prev : Nat) : Except Fault Machine := write64 m (add64 b 24) prev

/-- `if (next) next->prev = b` -/
def linkBack (m : Machine) (next b : Nat) : Except Fault Machine :=
  if next ≠ null then setPrev m next b else .ok m

/-! ### Growing -/

/-- False when the frames ran out, with the pages mapped until then still there. -/
def growPages (m : Machine) : Nat → Except Fault (Bool × Machine)
  | 0 => .ok (true, m)
  | pages + 1 =>
    let (frame, m) := pmmAllocFrame m
    if frame = null then .ok (false, m)
    else do
      let m ← vmmMap m m.kernelPml4 m.heapEnd frame pageWrite
      growPages {m with heapEnd := add64 m.heapEnd pageSize} pages

def heapInit (m : Machine) : Except Fault Machine := do
  let (grown, m) ← growPages {m with heapEnd := heapBase} heapInitPages
  if !grown then .error .halt
  else
    let m := {m with head := heapBase}
    let m ← setSize m m.head (heapInitPages * pageSize - sizeofBlock)
    let m ← setFree m m.head true
    let m ← setNext m m.head null
    let m ← setPrev m m.head null
    return {m with usedBytes := 0}

/-! ### Lists -/

/-- More steps than any list of blocks has: a chase that takes them all has no end. -/
def endless : Nat := 2 ^ 64

/-- `b->free && b->size >= size` -/
def fits (m : Machine) (b size : Nat) : Except Fault Bool := do
  if ← getFree m b then return decide (size ≤ (← getSize m b)) else return false

/-- The first block from `b` on that fits; null if none does. -/
def findFit (m : Machine) (size : Nat) : (fuel b : Nat) → Except Fault Nat
  | 0, _ => .error .diverge
  | fuel + 1, b =>
    if b = null then .ok null
    else do
      if ← fits m b size then return b else findFit m size fuel (← getNext m b)

/-- `while (last->next) last = last->next` -/
def lastBlock (m : Machine) : (fuel last : Nat) → Except Fault Nat
  | 0, _ => .error .diverge
  | fuel + 1, last => do
    let next ← getNext m last
    if next = null then return last else lastBlock m fuel next

/-! ### `kmalloc` and `kfree` -/

def splitBlock (m : Machine) (b size : Nat) : Except Fault Machine := do
  let remaining := sub64 (← getSize m b) size
  if remaining < sizeofBlock + align then return m
  else
    let nb := add64 (add64 b sizeofBlock) size
    let m ← setSize m nb (sub64 remaining sizeofBlock)
    let m ← setFree m nb true
    let m ← setNext m nb (← getNext m b)
    let m ← setPrev m nb b
    let m ← linkBack m (← getNext m nb) nb
    let m ← setSize m b size
    setNext m b nb

/-- `extend_heap` once the pages are there: the new block `nb` joins the list,
and the last block absorbs it if that is free. -/
def appendBlock (m : Machine) (nb size : Nat) : Except Fault (Nat × Machine) := do
  let m ← setSize m nb size
  let m ← setFree m nb true
  let m ← setNext m nb null
  let last ← lastBlock m endless m.head
  let m ← setNext m last nb
  let m ← setPrev m nb last
  if ← getFree m last then
    let m ← setSize m last (add64 (← getSize m last) (add64 sizeofBlock (← getSize m nb)))
    let m ← setNext m last null
    return (last, m)
  else return (nb, m)

def extendHeap (m : Machine) (minSize : Nat) : Except Fault (Nat × Machine) := do
  let need := alignUp (add64 minSize sizeofBlock) pageSize
  let pages := need / pageSize
  let nb := m.heapEnd
  let (grown, m) ← growPages m pages
  if !grown then return (null, m)
  else appendBlock m nb (sub64 (pages * pageSize) sizeofBlock)

/-- `kmalloc` once it has a block. -/
def takeBlock (m : Machine) (b size : Nat) : Except Fault (Nat × Machine) := do
  let m ← splitBlock m b size
  let m ← setFree m b false
  let used := add64 m.usedBytes (← getSize m b)
  return (add64 b sizeofBlock, {m with usedBytes := used})

def kmalloc (m : Machine) (size : Nat) : Except Fault (Nat × Machine) :=
  if size = 0 then .ok (null, m)
  else do
    let size := alignUp size align
    let b ← findFit m size endless m.head
    if b ≠ null then takeBlock m b size
    else
      let (b, m) ← extendHeap m size
      if b = null then return (null, m) else takeBlock m b size

/-- `b->next && b->next->free`: `b` absorbs the block behind it. -/
def mergeNext (m : Machine) (b : Nat) : Except Fault Machine := do
  let next ← getNext m b
  if next = null then return m
  else if ← getFree m next then
    let m ← setSize m b (add64 (← getSize m b) (add64 sizeofBlock (← getSize m next)))
    let m ← setNext m b (← getNext m (← getNext m b))
    linkBack m (← getNext m b) b
  else return m

/-- `b->prev && b->prev->free`: the block before `b` absorbs it. -/
def mergePrev (m : Machine) (b : Nat) : Except Fault Machine := do
  let prev ← getPrev m b
  if prev = null then return m
  else if ← getFree m prev then
    let m ← setSize m prev (add64 (← getSize m prev) (add64 sizeofBlock (← getSize m b)))
    let m ← setNext m (← getPrev m b) (← getNext m b)
    linkBack m (← getNext m b) (← getPrev m b)
  else return m

def kfree (m : Machine) (ptr : Nat) : Except Fault Machine :=
  if ptr = null then .ok m
  else do
    let b := sub64 ptr sizeofBlock
    if ← getFree m b then return m
    else
      let m ← setFree m b true
      let m := {m with usedBytes := sub64 m.usedBytes (← getSize m b)}
      let m ← mergeNext m b
      mergePrev m b

def krealloc (m : Machine) (ptr size : Nat) : Except Fault (Nat × Machine) :=
  if ptr = null then kmalloc m size
  else if size = 0 then do
    let m ← kfree m ptr
    return (null, m)
  else do
    let b := sub64 ptr sizeofBlock
    let newSize := alignUp size align
    if newSize ≤ (← getSize m b) then return (ptr, m)
    else
      let (np, m) ← kmalloc m size
      if np = null then return (null, m)
      else
        let m ← memcpy m np ptr (← getSize m b)
        let m ← kfree m ptr
        return (np, m)

def heapUsedBytes (m : Machine) : Nat := m.usedBytes

end ArcMonark.Mm.Heap
