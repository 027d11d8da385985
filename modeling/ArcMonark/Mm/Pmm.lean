import ArcMonark.Machine
import ArcMonark.Library.Bitmap

/-! The physical frame allocator (`mm/pmm.c`).

One bit per frame, set when the frame is used, in a bitmap that `pmm_init` puts
at the start of the first usable memory-map entry long enough for it. -/
namespace ArcMonark.Mm.Pmm
open Library

/-- `struct limine_memmap_entry`. -/
structure MemmapEntry where
  base : Nat
  length : Nat
  type : Nat
  deriving DecidableEq, Repr

def limineMemmapUsable : Nat := 0

/-- The physical address of `bitmap[f / 8]`. -/
def bmpByte (m : Machine) (f : Nat) : Nat := m.direct (add64 m.bitmap (f / 8))

def bmpSet (m : Machine) (f : Nat) : Machine :=
  {m with ram := m.ram.set (bmpByte m f) (m.ram (bmpByte m f) ||| Bitmap.mask f)}

def bmpClear (m : Machine) (f : Nat) : Machine :=
  {m with ram := m.ram.set (bmpByte m f) (m.ram (bmpByte m f) &&& ~~~ Bitmap.mask f)}

def bmpTest (m : Machine) (f : Nat) : Bool := m.ram (bmpByte m f) &&& Bitmap.mask f != 0#8

/-- `bmp_clear(f); used_frames--` -/
def clearFrame (m : Machine) (f : Nat) : Machine :=
  {bmpClear m f with usedFrames := sub64 m.usedFrames 1}

/-- `bmp_set(f); used_frames++` -/
def setFrame (m : Machine) (f : Nat) : Machine :=
  {bmpSet m f with usedFrames := add64 m.usedFrames 1}

/-! ### `pmm_init` -/

/-- How often a loop `for (i = 0; i < length; i += PAGE_SIZE)` runs. -/
def pageSteps (length : Nat) : Nat := (length + (pageSize - 1)) / pageSize

def highestTop : List MemmapEntry → Nat → Nat
  | [], highest => highest
  | e :: rest, highest =>
    if e.type ≠ limineMemmapUsable then highestTop rest highest
    else
      let top := add64 e.base e.length
      highestTop rest (if top > highest then top else highest)

/-- The first usable entry that can hold the bitmap, as a pointer; null if none can. -/
def placeBitmap (hhdmOffset bitmapSize : Nat) : List MemmapEntry → Nat
  | [] => null
  | e :: rest =>
    if e.type ≠ limineMemmapUsable then placeBitmap hhdmOffset bitmapSize rest
    else if e.length ≥ bitmapSize then add64 e.base hhdmOffset
    else placeBitmap hhdmOffset bitmapSize rest

/-- Clears the frames of the first `n` pages from `base`. -/
def clearPages (m : Machine) (base : Nat) : Nat → Machine
  | 0 => m
  | n + 1 => clearFrame (clearPages m base n) (add64 base (n * pageSize) / pageSize)

def clearUsable (m : Machine) : List MemmapEntry → Machine
  | [] => m
  | e :: rest =>
    if e.type ≠ limineMemmapUsable then clearUsable m rest
    else clearUsable (clearPages m e.base (pageSteps e.length)) rest

/-- Sets the frames of the first `n` pages from `base`. -/
def setPages (m : Machine) (base : Nat) : Nat → Machine
  | 0 => m
  | n + 1 => setFrame (setPages m base n) (add64 base (n * pageSize) / pageSize)

/-- `pmm_init` up to the placement of the bitmap. -/
def sizeBitmap (m : Machine) (entries : List MemmapEntry) (offset : Nat) : Machine :=
  let totalFrames := highestTop entries 0 / pageSize
  let bitmapSize := (totalFrames + 7) / 8
  {m with
    hhdmOffset := offset
    totalFrames := totalFrames
    bitmapSize := bitmapSize
    bitmap := placeBitmap offset bitmapSize entries}

/-- Every frame used. -/
def fillBitmap (m : Machine) : Machine :=
  {m with
    ram := memset m.ram (m.direct m.bitmap) 0xFF m.bitmapSize
    usedFrames := m.totalFrames}

/-- The kernel stops when the bootloader left a request unanswered. -/
def pmmInit (m : Machine) (memmap : Option (List MemmapEntry)) (hhdm : Option Nat) :
    Except Fault Machine :=
  match memmap, hhdm with
  | some entries, some offset =>
    let m := clearUsable (fillBitmap (sizeBitmap m entries offset)) entries
    let bmpPhys := sub64 m.bitmap m.hhdmOffset
    .ok (setPages m bmpPhys (pageSteps m.bitmapSize))
  | _, _ => .error .halt

/-! ### At run time -/

/-- The search loop with `n` frames to look at from frame `i`. -/
def allocScan (m : Machine) (i : Nat) : Nat → Nat × Machine
  | 0 => (null, m)
  | n + 1 =>
    if !bmpTest m i then (i * pageSize, setFrame m i)
    else allocScan m (i + 1) n

/-- The address of a free frame, now used; null when there is none. -/
def pmmAllocFrame (m : Machine) : Nat × Machine := allocScan m 1 (m.totalFrames - 1)

def pmmFreeFrame (m : Machine) (frame : Nat) : Machine :=
  let idx := frame / pageSize
  if !bmpTest m idx then m else clearFrame m idx

def pmmTotalFrames (m : Machine) : Nat := m.totalFrames

def pmmUsedFrames (m : Machine) : Nat := m.usedFrames

def pmmFreeFrames (m : Machine) : Nat := sub64 m.totalFrames m.usedFrames

end ArcMonark.Mm.Pmm
