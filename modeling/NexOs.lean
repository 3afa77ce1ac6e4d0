import NexOs.Storage.BackupHeader
import NexOs.Storage.Checksums
import NexOs.Storage.VerifierGap
import NexOs.Storage.CacheRuns
import NexOs.Nexfs.Burst
import NexOs.Nexfs.Space
import NexOs.Nexfs.Crash
import NexOs.Host.PartitionNames
import NexOs.Host.Delete
import NexOs.Fat.Links
import NexOs.Fat.Format
import NexOs.Fat.ShortNames
import NexOs.Runtime.RoundRobin
import NexOs.Runtime.WaitQueue
import NexOs.Host.ManualInstall
import NexOs.Kernel.HeapRuns
import NexOs.Kernel.PageRuns
import NexOs.Runtime.Handles
import NexOs.Kernel.Runtime
import NexOs.Runtime.VfsLookup
import NexOs.Usb.Events
import NexOs.Kernel.Ps2
import NexOs.Userspace.Structure
import NexOs.Usb.Descriptor
import NexOs.Kernel.Monitor
import NexOs.Kernel.PageWalk
