import Os506.Lib.Linked
import Os506.Lib.DoublyLinked
import Os506.Lib.Run
import Os506.Lib.CopyOnWrite
import Os506.Lib.Ring
import Os506.Lib.Bytes
import Os506.Lib.Stored
import Os506.Lib.Pool
import Os506.Lib.Copy
import Os506.Lib.Numeral
import Os506.Ktime
import Os506.Devices.Ahci
import Os506.Memory.PMap
import Os506.Memory.PMapHistory
import Os506.Memory.Boot
import Os506.Memory.Freelist
import Os506.Memory.Walk
import Os506.Memory.Frames
import Os506.Memory.Paging
import Os506.Memory.Tree
import Os506.Memory.Physical
import Os506.Memory.MapPage
import Os506.Memory.BootPaging
import Os506.Memory.Exhaustion
import Os506.Memory.Mirror
import Os506.Memory.Forking
import Os506.Memory.Sharing
import Os506.Memory.Remap
import Os506.Memory.Visits
import Os506.Memory.Layout
import Os506.Memory.Elf
import Os506.Memory.Brk
import Os506.Memory.Faults
import Os506.Memory.Accesses
import Os506.Memory.Loading
import Os506.Memory.Image
import Os506.Memory.Arguments
import Os506.Memory.ArgumentBounds
import Os506.Memory.ElfSafety
import Os506.Memory.ElfLoading
import Os506.Memory.Demand
import Os506.Memory.ForkWalk
import Os506.Memory.Progress
import Os506.Memory.Isolation
import Os506.Memory.Nodes
import Os506.Memory.LeafCounts
import Os506.Memory.TaskPool
import Os506.Memory.VmaLists
import Os506.Memory.Spaces
import Os506.Memory.Memmove
import Os506.Task
import Os506.SyscallTable
import Os506.Scheduler.Schedule
import Os506.Scheduler.Syscalls
import Os506.Scheduler.Frame
import Os506.Scheduler.Queues
import Os506.Scheduler.Append
import Os506.Scheduler.Dispatch
import Os506.Scheduler.Yield
import Os506.Scheduler.Invariant
import Os506.Scheduler.Steps
import Os506.Scheduler.Blocking
import Os506.Scheduler.Spawning
import Os506.Scheduler.Effect
import Os506.Scheduler.Runs
import Os506.Scheduler.Dispatched
import Os506.Scheduler.Execve
import Os506.Scheduler.Family
import Os506.Scheduler.Waiting
import Os506.Scheduler.Children
import Os506.Scheduler.Ps
import Os506.Files.Pipe
import Os506.Files.Tarfs
import Os506.Files.Descriptors
import Os506.Files.Lifetime
import Os506.Files.Validation
import Os506.Files.Syspipe
import Os506.Files.Archive
import Os506.Files.Lookup
import Os506.Files.Readdir
import Os506.Files.Listing
import Os506.Files.Reading
import Os506.Files.Records
import Os506.Terminal.Buffer
import Os506.Terminal.Discipline
import Os506.Terminal.Putchar
import Os506.Terminal.Lines
import Os506.Terminal.Keyboard
import Os506.Terminal.Screen
import Os506.Terminal.Kprintf
import Os506.Libc.Malloc
import Os506.Libc.Refusal
import Os506.Libc.Compare
import Os506.Libc.Stdio
import Os506.Libc.Strtok
import Os506.Shell.Parser
import Os506.Shell.Bounds
import Os506.Memory.Kmalloc
import Os506.Memory.Kmmap
import Os506.Memory.KernelHeap
import Os506.Memory.HeapBoot
import Os506.Files.Paths
import Os506.Files.Chdir
import Os506.Files.Confinement
import Os506.Files.ElfProcess
import Os506.Interrupts.Switching
import Os506.Interrupts.Dispatch
import Os506.Shell.Session
import Os506.Devices.Pci
import Os506.Terminal.Clock
