import Pke.Console.Printing
import Pke.Files.BlockLaws
import Pke.Files.CachePages
import Pke.Files.Creation
import Pke.Files.Enumeration
import Pke.Files.FileBounds
import Pke.Files.HashLaws
import Pke.Files.OpenLaws
import Pke.Files.StaleDescriptors
import Pke.Files.Transfers
import Pke.Files.WorkingDirectory
import Pke.Loader.ErrorLine
import Pke.Loader.Numbers
import Pke.Loader.SharedBuffer
import Pke.Memory.AllocatorRefines
import Pke.Memory.Copying
import Pke.Memory.ExecHeap
import Pke.Memory.ForkFidelity
import Pke.Memory.HeapLimit
import Pke.Memory.LockedAllocator
import Pke.Memory.PageMaps
import Pke.Processes.Reaping
import Pke.Processes.SemaphoreLedger
import Pke.Processes.Startup
import Pke.Processes.WaitExit
import Pke.Traps.RoundTrip
