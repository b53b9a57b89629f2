import Yotta.Core.Delivery
import Yotta.Core.Rejection
import Yotta.Server.Sockets
import Yotta.Picohttp.ChunkedBody
import Yotta.Picohttp.FastPath
import Yotta.Process.Signals
import Yotta.Process.EnvBounds
import Yotta.Process.Generations
import Yotta.Process.Handover
import Yotta.Process.Ownership
import Yotta.Process.Upgrade
import Yotta.Process.Workers
import Yotta.Server.HeaderOrder
import Yotta.Server.Heads
import Yotta.Server.KeepAlive
import Yotta.Server.Refusal
import Yotta.Server.UrlBounds
import Yotta.Server.Traversal
import Yotta.Server.Wakeup
import Yotta.Server.Readback
import Yotta.Server.Writes
