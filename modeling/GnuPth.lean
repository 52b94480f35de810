import GnuPth.Sync.MutexFifo
import GnuPth.Sync.RwlockRuns
import GnuPth.Sync.Cleanup
import GnuPth.Sync.JoinProtocol
import GnuPth.Doorbell
import GnuPth.Sched.Earliest
import GnuPth.Sched.Shutdown
import GnuPth.Keys
import GnuPth.Once
import GnuPth.Arrival
import GnuPth.Sync.Directed
import GnuPth.Sync.BarrierResults
import GnuPth.Sync.LazyMutex
import GnuPth.Sync.Releaseall
import GnuPth.Io.Mode
import GnuPth.Io.Extra
import GnuPth.Io.Blocking
import GnuPth.Io.Offset
import GnuPth.Sched.Dead
import GnuPth.Manager.Agree
import GnuPth.Manager.Signals
import GnuPth.Manager.Failed
import GnuPth.Manager.Stamps
import GnuPth.Manager.Epoll
import GnuPth.Manager.Turns
import GnuPth.Pqueue.Range
import GnuPth.Sched.Favournew
import GnuPth.Sched.Ageing
import GnuPth.Sync.AwaitCount
import GnuPth.Sync.Broadcast
import GnuPth.Sched.Requests
import GnuPth.Io.Conserve
import GnuPth.Io.Guarded
import GnuPth.Io.Poll
import GnuPth.Io.Tiov
import GnuPth.Sched.Punctual
import GnuPth.Event
import GnuPth.Nanosleep
import GnuPth.Process
import GnuPth.Io.Faked
