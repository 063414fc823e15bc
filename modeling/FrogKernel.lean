import FrogKernel.Lib.Runs
import FrogKernel.Lib.Bytes
import FrogKernel.Lib.DList
import FrogKernel.Lib.Links
import FrogKernel.Lib.Ring
import FrogKernel.Userspace.ContextSwitch
import FrogKernel.Lib.Paths
import FrogKernel.Lib.AllocLog
import FrogKernel.Lib.Spaces
import FrogKernel.Initrd.InitrdFs
import FrogKernel.Initrd.Listing
import FrogKernel.Memory.Pmm
import FrogKernel.Memory.KernelAreas
import FrogKernel.Memory.BootFrames
import FrogKernel.Memory.KheapGrowth
import FrogKernel.Memory.Marks
import FrogKernel.Memory.MemoryMap
import FrogKernel.Memory.TagWalks
import FrogKernel.Memory.UnmapPage
import FrogKernel.Vfs.FdTables
import FrogKernel.Vfs.FindMount
import FrogKernel.Vfs.Mounts
import FrogKernel.Userspace.UserBuffer
import FrogKernel.Userspace.Switching
import FrogKernel.Userspace.SyscallAbi
import FrogKernel.Userspace.Readers
import FrogKernel.Userspace.Leaks
import FrogKernel.Userspace.WakeUps
import FrogKernel.Userspace.PageLoop
import FrogKernel.Userspace.ProcessList
import FrogKernel.Userspace.Translations
import FrogKernel.Userspace.KernelHalf
import FrogKernel.Userspace.UserPointers
import FrogKernel.Devices.TtyRuns
import FrogKernel.Devices.Enter
import FrogKernel.Devices.Keyboard
import FrogKernel.Devices.Mouse
import FrogKernel.Devices.Pit
import FrogKernel.Devices.Uptime
import FrogKernel.Framebuffer.Console
import FrogKernel.Lib.Traces
import FrogKernel.Userspace.Layout
import FrogKernel.Userspace.SpawnArgs
import FrogKernel.Userspace.FileReads
import FrogKernel.Thread.SchedulerRing
import FrogKernel.Memory.KheapCalls
import FrogKernel.Vfs.Opening
import FrogKernel.Userspace.SpawnFailure
import FrogKernel.Lib.Loops
import FrogKernel.Lib.StringAccesses
import FrogKernel.Initrd.Scanning
import FrogKernel.Initrd.Extents
import FrogKernel.Initrd.HeaderFields
import FrogKernel.Vfs.FileCalls
import FrogKernel.Vfs.DirNames
import FrogKernel.Vfs.Streams
import FrogKernel.Devices.Ioctl
import FrogKernel.Devices.Fb
import FrogKernel.Lib.Raster
import FrogKernel.Framebuffer.Screen
import FrogKernel.Framebuffer.Printing
import FrogKernel.Framebuffer.Backspacing
import FrogKernel.Vfs.Components
import FrogKernel.Vfs.Unmounting
import FrogKernel.Misc.StrayWrites
import FrogKernel.Misc.Decimals
import FrogKernel.Devices.EarlyKeys
import FrogKernel.Misc.Itoa
import FrogKernel.Misc.Memmove
import FrogKernel.Ksym.StackTrace
import FrogKernel.Serial.Serial
import FrogKernel.Userspace.WallClock
import FrogKernel.Interrupts.Delivery
import FrogKernel.Interrupts.Pic
import FrogKernel.Memory.BootPaging
import FrogKernel.Devices.Typing
import FrogKernel.Memory.KheapCoalescing
import FrogKernel.Userspace.Turns
import FrogKernel.Vfs.Devices
import FrogKernel.Initrd.Remap
import FrogKernel.Userspace.Spawning
import FrogKernel.Framebuffer.Swapping
import FrogKernel.Userspace.Stdout
