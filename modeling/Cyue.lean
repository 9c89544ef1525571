import Cyue.Browser.Client
import Cyue.Browser.Pending
import Cyue.Browser.Settles
import Cyue.Emittable.Commands
import Cyue.Emittable.Mailbox
import Cyue.Emittable.RemoveOwn
import Cyue.Emittable.Turns
import Cyue.Emittable.Watchers
import Cyue.Fiber.Once
import Cyue.Fiber.Unwatched
import Cyue.Fiber.World
import Cyue.Handler.ClientConn
import Cyue.Handler.Datagram
import Cyue.Handler.Descriptor
import Cyue.Handler.Intact
import Cyue.Handler.Messages
import Cyue.Handler.Notify
import Cyue.Handler.Outcome
import Cyue.Handler.Reconnect
import Cyue.Handler.Refused
import Cyue.Handler.Session
import Cyue.Handler.SessionEvents
import Cyue.Http.Chunked
import Cyue.Http.Delivery
import Cyue.Http.Extensions
import Cyue.Http.Fsm
import Cyue.Http.Length
import Cyue.Http.Lookup
import Cyue.Http.Query
import Cyue.Http.Segments
import Cyue.Http.Sender
import Cyue.Http.Transfer
import Cyue.Http.Unframed
import Cyue.Http.Url
import Cyue.Lib.Fuel
import Cyue.Lib.Region
import Cyue.Lib.Sieve
import Cyue.Lib.Throwing
import Cyue.Lua.Coherence
import Cyue.Lua.Discipline
import Cyue.Lua.Framed
import Cyue.Lua.Future
import Cyue.Lua.Namespace
import Cyue.Lua.Pack
import Cyue.Lua.Procs
import Cyue.Lua.Protect
import Cyue.Lua.Response
import Cyue.Lua.RoundTrip
import Cyue.Lua.Unpack
import Cyue.Mpak.Bounded
import Cyue.Mpak.Descent
import Cyue.Mpak.Ordered
import Cyue.Mpak.Sequence
import Cyue.Mpak.Signed
import Cyue.Net.Attach
import Cyue.Net.Chunk
import Cyue.Net.Entitled
import Cyue.Net.Failure
import Cyue.Net.Mixed
import Cyue.Net.RawStream
import Cyue.Net.Vectored
import Cyue.Rpc.Delivery
import Cyue.Rpc.Packing
import Cyue.Rpc.PushArray
import Cyue.Rpc.Validate
import Cyue.Timer.Bounds
import Cyue.Timer.Start
import Cyue.Util.Allocator
import Cyue.Util.Base64
import Cyue.Util.Fifo
import Cyue.Util.FiniteMap
import Cyue.Util.Merge
import Cyue.Util.Number
import Cyue.Util.Prime
import Cyue.Util.Removal
import Cyue.Util.Sbuf
import Cyue.Util.Shalloc
import Cyue.Util.Spinlk
import Cyue.Util.Split
import Cyue.Util.Sweep
import Cyue.Util.Utf8
import Cyue.Util.Window
import Cyue.Ws.Agreement
import Cyue.Ws.Control
import Cyue.Ws.Duplex
import Cyue.Ws.Handover
import Cyue.Ws.Sending
import Cyue.Ws.Termination
