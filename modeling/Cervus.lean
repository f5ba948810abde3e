import Cervus.Pmm.DoubleFree
import Cervus.Mm.Permission
import Cervus.Net.RoundTrip
import Cervus.Fs.Stage
import Cervus.Fs.Dirent
import Cervus.Fs.Endless
import Cervus.Fs.Epoll
import Cervus.Fs.Crash
import Cervus.Fs.LockMap
import Cervus.Sched.Spec
import Cervus.Ipc.Pipe
import Cervus.Sched.Futex
import Cervus.Fs.Fd
import Cervus.Ipc.Sem
import Cervus.Sched.Pid
import Cervus.Fs.Chroot
import Cervus.Pc.Run
import Cervus.Net.Tcp.Edge
import Cervus.Net.Tcp.Outside
import Cervus.Sched.Kmutex
import Cervus.Signal.Queue
import Cervus.Signal.Transparent
import Cervus.Crypto.ChaCha20Poly1305
import Cervus.Crypto.P256Verify
import Cervus.Pthread.RwLockSafe
import Cervus.Tls.Order
import Cervus.Json.RoundTrip
import Cervus.Fat32.World
import Cervus.Kmem.Large
