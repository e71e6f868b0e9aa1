import SRos.Ata.Blocks
import SRos.Ata.Drive
import SRos.Ata.Emulated
import SRos.Ata.Model
import SRos.Ata.Transfer
import SRos.Drivers.Buffers
import SRos.Drivers.Fork
import SRos.Drivers.Mappings
import SRos.Drivers.Model
import SRos.Drivers.Pci
import SRos.Drivers.PciScan
import SRos.Drivers.Receive
import SRos.Drivers.Ring
import SRos.Drivers.Screen
import SRos.Drivers.Vbe
import SRos.Drivers.Vga
import SRos.Elf.Accesses
import SRos.Elf.Exec
import SRos.Elf.Frames
import SRos.Elf.Image
import SRos.Elf.Loading
import SRos.Elf.Loads
import SRos.Elf.Model
import SRos.Elf.Progress
import SRos.Elf.Ranges
import SRos.Elf.Segments
import SRos.Elf.Spared
import SRos.Elf.Start
import SRos.Elf.Unwinding
import SRos.Entry.Interrupts
import SRos.Entry.Preemption
import SRos.Entry.Processor
import SRos.Entry.Saved
import SRos.Entry.Stubs
import SRos.Entry.Switching
import SRos.Fs.Abstract
import SRos.Fs.Accesses
import SRos.Fs.Bounds
import SRos.Fs.Concurrent
import SRos.Fs.Confined
import SRos.Fs.Content
import SRos.Fs.Crash
import SRos.Fs.Create
import SRos.Fs.Directory
import SRos.Fs.Entries
import SRos.Fs.Failure
import SRos.Fs.File
import SRos.Fs.Image
import SRos.Fs.Interleaved
import SRos.Fs.Invariant
import SRos.Fs.Listing
import SRos.Fs.Loose
import SRos.Fs.Model
import SRos.Fs.Names
import SRos.Fs.OnDrive
import SRos.Fs.Outage
import SRos.Fs.Ownership
import SRos.Fs.Paths
import SRos.Fs.Positions
import SRos.Fs.Reboot
import SRos.Fs.Recover
import SRos.Fs.Reopen
import SRos.Fs.Requests
import SRos.Fs.Shared
import SRos.Fs.Sharing
import SRos.Fs.System
import SRos.Fs.Unique
import SRos.Gui.Clicks
import SRos.Gui.Clipping
import SRos.Gui.Console
import SRos.Gui.Creation
import SRos.Gui.Cursor
import SRos.Gui.Descriptor
import SRos.Gui.Desk
import SRos.Gui.Font
import SRos.Gui.Hiding
import SRos.Gui.Hit
import SRos.Gui.Model
import SRos.Gui.Overhang
import SRos.Gui.Paint
import SRos.Gui.Partition
import SRos.Gui.Printf
import SRos.Gui.Stack
import SRos.Gui.System
import SRos.Gui.Terminal
import SRos.Heap.Canonical
import SRos.Heap.Fit
import SRos.Heap.Intact
import SRos.Heap.Invariant
import SRos.Heap.Layout
import SRos.Heap.Model
import SRos.Heap.Operations
import SRos.Heap.Request
import SRos.Heap.Structure
import SRos.Input.Model
import SRos.Input.Modifiers
import SRos.Input.Packets
import SRos.Input.Rings
import SRos.Ipc.Abstract
import SRos.Ipc.Blocking
import SRos.Ipc.Clock
import SRos.Ipc.Destroy
import SRos.Ipc.Invariant
import SRos.Ipc.Linkage
import SRos.Ipc.MessageQueue
import SRos.Ipc.Model
import SRos.Ipc.Objects
import SRos.Ipc.Return
import SRos.Ipc.Scheduling
import SRos.Ipc.Semaphore
import SRos.Ipc.Stacks
import SRos.Ipc.Step
import SRos.Ipc.System
import SRos.Ipc.Table
import SRos.Ipc.View
import SRos.Ipc.Wakeup
import SRos.Kernel.Descriptors
import SRos.Kernel.Machine
import SRos.Kernel.Ports
import SRos.Kernel.Strings
import SRos.Lib.Bitmap
import SRos.Lib.Bytes
import SRos.Lib.Cut
import SRos.Lib.Fields
import SRos.Lib.Issued
import SRos.Lib.LinkedList
import SRos.Lib.Loop
import SRos.Lib.Queue
import SRos.Lib.Recent
import SRos.Lib.RingBuffer
import SRos.Lib.Run
import SRos.Lib.Search
import SRos.Lib.Simulation
import SRos.Lib.Stores
import SRos.Lib.Threads
import SRos.Lib.Tiling
import SRos.Lib.Traced
import SRos.Lib.Words
import SRos.Lib.X86
import SRos.Paging.Alloc
import SRos.Paging.Boot
import SRos.Paging.Clone
import SRos.Paging.Confined
import SRos.Paging.Family
import SRos.Paging.Guard
import SRos.Paging.Install
import SRos.Paging.Isolation
import SRos.Paging.Layout
import SRos.Paging.Map
import SRos.Paging.Model
import SRos.Paging.Permissions
import SRos.Paging.Pointers
import SRos.Paging.Pops
import SRos.Paging.Private
import SRos.Paging.Regular
import SRos.Paging.Space
import SRos.Paging.Stores
import SRos.Paging.Translate
import SRos.Process.Frames
import SRos.Process.Isolation
import SRos.Process.Model
import SRos.Process.Owners
import SRos.Process.Reaping
import SRos.Process.Spaces
import SRos.Process.Steps
import SRos.Sched.Contexts
import SRos.Sched.Effects
import SRos.Sched.Linked
import SRos.Sched.Model
import SRos.Sched.RoundRobin
import SRos.Sched.Wait
import SRos.Shell.Commands
import SRos.Shell.Draft
import SRos.Shell.Enter
import SRos.Shell.Hex
import SRos.Shell.History
import SRos.Shell.Inside
import SRos.Shell.Keys
import SRos.Shell.Model
import SRos.Shell.Tokens
import SRos.Shell.Writes
