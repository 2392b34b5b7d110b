import Kandelo.Exchange.Ids
import Kandelo.Fork.RoundTrip
import Kandelo.Instrument.Bind
import Kandelo.Ipc.MessageQueue
import Kandelo.Ipc.Semaphore
import Kandelo.Ipc.SharedMemory
import Kandelo.Lock.Refinement
import Kandelo.Memory.Ceiling
import Kandelo.Memory.Remap
import Kandelo.Mqueue.Notify
import Kandelo.Overlay.Recovery
import Kandelo.Path
import Kandelo.Pipe.Bytes
import Kandelo.Process.Sessions
import Kandelo.Process.WaitEvents
import Kandelo.Pshared.Barrier
import Kandelo.Pty.Pair
import Kandelo.Rootfs.Directory
import Kandelo.Shared.Durability
import Kandelo.Shared.SysvAgreement
import Kandelo.Signal.MaskRuns
import Kandelo.Signal.TimerRuns
import Kandelo.Wait.Deadlines
import Kandelo.Wait.Futex
