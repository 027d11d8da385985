import ArcMonark.Library.Bytes
import ArcMonark.Library.Words
import ArcMonark.Library.Bitmap
import ArcMonark.Library.Blocks
import ArcMonark.Library.Runs
import ArcMonark.Library.Cache
import ArcMonark.Library.Refine
import ArcMonark.Library.Rounds
import ArcMonark.Library.RingBuffer
import ArcMonark.Library.DropQueue
import ArcMonark.Library.PolledQueue
import ArcMonark.Library.Trie
import ArcMonark.Library.X86
import ArcMonark.Library.Interrupts
import ArcMonark.Library.I8259
import ArcMonark.Library.I8042
import ArcMonark.Mm.Pmm
import ArcMonark.Mm.PmmProofs
import ArcMonark.Mm.PmmInit
import ArcMonark.Mm.PmmRuns
import ArcMonark.Mm.PmmMaps
import ArcMonark.Mm.PmmBadFree
import ArcMonark.Mm.Vmm
import ArcMonark.Mm.VmmTables
import ArcMonark.Mm.VmmWalk
import ArcMonark.Mm.VmmProofs
import ArcMonark.Mm.VmmRuns
import ArcMonark.Mm.Tlb
import ArcMonark.Mm.VmmLargePages
import ArcMonark.Mm.Heap
import ArcMonark.Mm.HeapPages
import ArcMonark.Mm.HeapMemory
import ArcMonark.Mm.HeapList
import ArcMonark.Mm.HeapOps
import ArcMonark.Mm.HeapProofs
import ArcMonark.Mm.HeapRuns
import ArcMonark.Mm.HeapFailure
import ArcMonark.Mm.HeapDoubleFree
import ArcMonark.Mm.HeapTiled
import ArcMonark.Mm.HeapFirstFit
import ArcMonark.Mm.HeapRealloc
import ArcMonark.Mm.HeapSizes
import ArcMonark.Sched.SchedTurns
import ArcMonark.Sched.SchedReap
import ArcMonark.Sched.SchedFailure
import ArcMonark.Cpu.SwitchHeap
import ArcMonark.Cpu.Irqlock
import ArcMonark.Cpu.Timer
import ArcMonark.Cpu.Pic
import ArcMonark.Cpu.Panic
import ArcMonark.Lib.Memmove
import ArcMonark.Lib.Memcmp
import ArcMonark.Lib.U64ToDec
import ArcMonark.Lib.Hex
import ArcMonark.Kernel.Event
import ArcMonark.Drivers.KeyboardRing
import ArcMonark.Drivers.KeyboardExtended
import ArcMonark.Drivers.KeyboardTyping
import ArcMonark.Drivers.MouseDecode
import ArcMonark.Drivers.Terminal
import ArcMonark.Drivers.FbPresent
import ArcMonark.Drivers.ReadLine
import ArcMonark.Drivers.Ps2
import ArcMonark.Drivers.Polling
import ArcMonark.Drivers.Print
import ArcMonark.Drivers.Serial
import ArcMonark.Drivers.SerialShared
import ArcMonark.Gui.GfxScroll
import ArcMonark.Gui.GfxSave
import ArcMonark.Gui.BackBuffer
import ArcMonark.Kernel.MouseRedraw
import ArcMonark.Kernel.TextLayout
import ArcMonark.Kernel.DemoWorker
import ArcMonark.Kernel.ShellRuns
