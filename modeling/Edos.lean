import Edos.Efs.Eviction
import Edos.Fs.DirtyPages
import Edos.Fs.FailedWrite
import Edos.Fs.FileTime
import Edos.Fs.LinkPath
import Edos.Fs.Truncate
import Edos.Fs.Writeback
import Edos.Fsck.Counts
import Edos.Fsck.Walks
import Edos.Ipc.Fifo
import Edos.Journal.Atomicity
import Edos.Journal.Fsync
import Edos.Journal.History
import Edos.Journal.Retire
import Edos.Journal.RingSpace
import Edos.Journal.WriteAhead
import Edos.Memory.AddressSearch
import Edos.Memory.FreeCount
import Edos.Memory.Mappings
import Edos.Memory.Shootdown
import Edos.Memory.Snapshot
import Edos.Net.Loopback
import Edos.Net.TcpFlow
import Edos.Sched.Broadcast
import Edos.Sched.RunQueue
