import Audhsos.Memory.PageFunction
import Audhsos.Virtio.QueueSpec
import Audhsos.User.MemoryServerRun
import Audhsos.Ipc.NotifyRun
import Audhsos.Paging.Run
import Audhsos.Objects.PoolHistory
import Audhsos.Ipc.Undo
import Audhsos.Sched.DeadlineRun
import Audhsos.Ipc.Transfer
import Audhsos.Syscall.Creation
import Audhsos.Syscall.Gate
import Audhsos.Sched.Policy
import Audhsos.Tcp.Timeout
import Audhsos.Tcp.Table
import Audhsos.Tcp.Window
import Audhsos.Memory.FrameAllocator
import Audhsos.Memory.MemoryMap
import Audhsos.Tcp.Announcing
import Audhsos.Fat.Boot
import Audhsos.Ip.RoundTrip
import Audhsos.Ip.Route
import Audhsos.Deflate.Canonical
import Audhsos.Deflate.Decode
import Audhsos.Json.Quote
import Audhsos.X509.Name
import Audhsos.Ssh.Channel
