import Avant.Socket.Io

/-!
# A pooled connection

Model of `src/connection/connection.{h,cpp}`: the flags and the two buffers that the contexts of
all protocols share, with the socket they own. `onAlloc` runs when a pool slot is given to a
client and when an HTTP connection is kept alive, `onRelease` when the slot is returned.
`Event` is what the event loop passes to a context's `on_event`, together with the answers the
kernel and OpenSSL give while the event is handled.

Left out: the file descriptor and the gid (`Mgr.lean` keeps them), the traffic records, and the
epoll registration (`event_mod`), which decides when an event comes and not what it does.
-/

namespace Avant.Conn

open Avant.Lib Avant.Socket

/-- `connection`, with its `socket`. -/
structure Connection where
  recvBuffer : Bytes := []
  sendBuffer : Bytes := []
  closedFlag : Bool := false
  isClose : Bool := false
  isReady : Bool := false
  /-- `socket::get_ssl_accepted` -/
  sslAccepted : Bool := false
  /-- the bytes `socket::send` has accepted so far -/
  wire : Bytes := []
  deriving DecidableEq

namespace Connection

/-- `connection::on_alloc`. -/
def onAlloc (c : Connection) : Connection :=
  { c with
    recvBuffer := []
    sendBuffer := []
    closedFlag := false
    isClose := false
    isReady := false }

/-- `connection::on_release`. -/
def onRelease (c : Connection) : Connection :=
  { c with
    recvBuffer := []
    sendBuffer := []
    closedFlag := true
    isClose := false
    isReady := false }

/-- `set_is_ready(true)`. -/
def markReady (c : Connection) : Connection := { c with isReady := true }

/-- `set_is_close(true)`. -/
def markClose (c : Connection) : Connection := { c with isClose := true }

/-- The receive buffer becomes `b`. -/
def setRecvBuffer (b : Bytes) (c : Connection) : Connection := { c with recvBuffer := b }

/-- `try_send_flush` of `stream_ctx` and `ipc_stream_ctx`: send until the buffer is empty or the
socket takes no more; an error marks the connection for closing. -/
def trySendFlush (sends : List SendResult) (c : Connection) : Connection :=
  let r := flushLoop sends c.sendBuffer c.wire
  { c with sendBuffer := r.1, wire := r.2.1, isClose := c.isClose || r.2.2 }

/-- `send_data` of `stream_ctx`: `-1` on a closing connection, `-2` on one that is not ready. -/
def sendData (data : Bytes) (flush : Bool) (sends : List SendResult) (c : Connection) :
    Connection × Int :=
  if c.isClose || c.closedFlag then (c, -1)
  else if !c.isReady then (c, -2)
  else
    let c := { c with sendBuffer := c.sendBuffer ++ data }
    (if flush then c.trySendFlush sends else c, 0)

end Connection

/-- The answer of `SSL_accept`, as the contexts read it: `1`; `0` or an error that asks to be
called again; any other error. -/
inductive SslAccept
  | accepted
  | pending
  | failed
  deriving DecidableEq

/-- An event of a connection and what the calls made while it is handled will answer. -/
structure Event where
  err : Bool := false
  read : Bool := false
  write : Bool := false
  sslAccept : SslAccept := .accepted
  recvs : List RecvResult := []
  sends : List SendResult := []
  deriving DecidableEq

end Avant.Conn
