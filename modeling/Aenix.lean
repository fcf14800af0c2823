import Aenix.Lib.Loop
import Aenix.Lib.Pointer
import Aenix.Scheduler.ProcessList
import Aenix.Lib.IA32
import Aenix.Process.Registers
import Aenix.Syscall.Entry
import Aenix.Lib.Frames
import Aenix.Mem
import Aenix.Pfa.Basic
import Aenix.Pfa.FrameMap
import Aenix.Pfa.Numbering
import Aenix.Pfa.Allocate
import Aenix.Pfa.Ownership
import Aenix.Kmalloc.Basic
import Aenix.Kmalloc.FreeList
import Aenix.Kmalloc.Heap
import Aenix.Kmalloc.Take
import Aenix.Kmalloc.Grow
import Aenix.Kmalloc.Safety
import Aenix.Kmalloc.Order
import Aenix.Pfa.MemoryMap
import Aenix.Pfa.Regions
import Aenix.Pfa.Bitmap
import Aenix.Pfa.Free
import Aenix.Paging.Basic
import Aenix.Paging.Tables
import Aenix.Paging.Rounds
import Aenix.Paging.Map
import Aenix.Paging.Unmap
import Aenix.Paging.Active
import Aenix.Lib.After
import Aenix.Process.Basic
import Aenix.Process.Failure
import Aenix.Process.Labels
import Aenix.Process.World
import Aenix.Process.Window
import Aenix.Process.Directory
import Aenix.Process.Copy
import Aenix.Paging.Slot
import Aenix.Process.Slot
import Aenix.Process.Child
import Aenix.Process.Standing
import Aenix.Process.Delete
import Aenix.Process.Built
import Aenix.Process.Reclaim
import Aenix.Paging.Create
import Aenix.Process.Refused
import Aenix.Process.Load
import Aenix.Process.Whole
import Aenix.Process.Exit
import Aenix.Process.Isolation
import Aenix.Process.Fork
import Aenix.Process.Start
import Aenix.Paging.Loader
import Aenix.Pfa.Init
import Aenix.Process.Boot
import Aenix.Keyboard.Basic
import Aenix.Keyboard.Fifo
import Aenix.Keyboard.Read
import Aenix.Keyboard.Shift
import Aenix.Console.Fb
import Aenix.Console.Terminal
import Aenix.Lib.Digits
import Aenix.Console.Numbers
import Aenix.Vfs.Basic
import Aenix.Vfs.Mount
import Aenix.Vfs.MountList
import Aenix.Vfs.Walk
import Aenix.Vfs.Resolve
import Aenix.Devfs.Devices
import Aenix.Lib.Trace
import Aenix.Scheduler.Interrupt
import Aenix.Scheduler.System
import Aenix.Scheduler.Steps
import Aenix.Scheduler.RoundRobin
import Aenix.Scheduler.Pids
import Aenix.Scheduler.Wait
import Aenix.Scheduler.Transparent
import Aenix.Scheduler.Linking
import Aenix.Scheduler.Insertion
import Aenix.Scheduler.Refinement
import Aenix.Aefs.Assign
import Aenix.Aefs.Chain
import Aenix.Aefs.Faithful
import Aenix.Aefs.Layout
import Aenix.Aefs.Entries
import Aenix.Aefs.Rdaefs
import Aenix.Paging.Atomic
import Aenix.Paging.Clear
import Aenix.Paging.Find
import Aenix.Paging.Rights
import Aenix.Paging.Temporary
import Aenix.Scheduler.Boot
import Aenix.Scheduler.Lost
import Aenix.Syscall.Files
import Aenix.Syscall.Open
import Aenix.Aefs.Paths
import Aenix.Vfs.Mounted
import Aenix.Syscall.Server
