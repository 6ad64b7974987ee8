import Avant.Conn.Connection
import Avant.Proto.Frame

/-!
# Stream connections

Model of `src/connection/stream_ctx.cpp` and of the connection hooks of `src/app/stream_app.cpp`:
`onCreate`, `onEvent` with all of its exits, and `onProcessConnection`, the loop that cuts the
receive buffer into packages. The calls the application receives are recorded in order. Its
handlers only forward to the other thread, so what matters of them here is whether they throw:
`AppThrows` says so per call.

`stream_ctx::try_send_flush` and `send_data` are those of `Connection`.
-/

namespace Avant.Conn

open Avant.Lib Avant.Proto Avant.Socket

/-- A call of a hook of the stream application. -/
inductive AppCall (π : Type)
  | newConnection
  | recvPackage (p : π)
  | closeConnection
  deriving DecidableEq

/-- Which hooks throw while an event is handled. -/
structure AppThrows (π : Type) where
  newConnection : Bool := false
  recvPackage : π → Bool := fun _ => false

/-- `stream_ctx`, its connection, and the calls made so far. -/
structure StreamCtx (π : Type) where
  conn : Connection := {}
  /-- `conn_ptr` and `worker_ptr` are set -/
  attached : Bool := false
  appLayerNotified : Bool := false
  calls : List (AppCall π) := []
  deriving DecidableEq

namespace StreamCtx

variable {π : Type}

/-- `conn_ptr->set_is_close(true)`. -/
def setIsClose (s : StreamCtx π) : StreamCtx π := { s with conn := { s.conn with isClose := true } }

/-- The receive buffer becomes `b`. -/
def setRecvBuffer (b : Bytes) (s : StreamCtx π) : StreamCtx π :=
  { s with conn := { s.conn with recvBuffer := b } }

/-- `on_recv_package` is called with each of `ps`. -/
def deliver (ps : List π) (s : StreamCtx π) : StreamCtx π :=
  { s with calls := s.calls ++ ps.map .recvPackage }

/-- The connection becomes ready and is announced to the application; `true` when the hook
threw. -/
def announce (throws : AppThrows π) (s : StreamCtx π) : StreamCtx π × Bool :=
  ({ s with
      conn := { s.conn with isReady := true }
      appLayerNotified := true
      calls := s.calls ++ [.newConnection] }, throws.newConnection)

/-- `stream_ctx::on_create`. -/
def onCreate (useSsl : Bool) (throws : AppThrows π) (s : StreamCtx π) : StreamCtx π :=
  let s := { s with appLayerNotified := false, attached := true }
  if useSsl then s
  else
    let (s, err) := s.announce throws
    if err then s.setIsClose else s

/-- `worker::close_client_fd`, as the context sees it: the slot goes back to the pool and
`on_close` detaches the context. -/
def closeClientFd (s : StreamCtx π) : StreamCtx π :=
  { s with conn := s.conn.onRelease, attached := false }

/-- The most packages one call of `on_process_connection` handles. -/
def maxPackageNumPerLoop : Nat := 2147483647

/-- `stream_app::on_process_connection`; `true` when `on_recv_package` threw. -/
def onProcessConnection (parse : ParseFromArray π) (throws : AppThrows π) (s : StreamCtx π) :
    StreamCtx π × Bool :=
  if s.conn.recvBuffer.length > 2048000 then (s.setIsClose, false)
  else
    let r := frameLoop (streamFrameStep parse) throws.recvPackage maxPackageNumPerLoop
      s.conn.recvBuffer
    let s := (s.deliver r.1).setRecvBuffer r.2.1
    match r.2.2 with
    | .left => (s, false)
    | .refused => (s.setIsClose, false)
    | .threw => (s, true)

/-- The TLS part of `on_event`; `false` when the event ends there. -/
def sslStep (useSsl : Bool) (throws : AppThrows π) (ev : Event) (s : StreamCtx π) :
    StreamCtx π × Bool :=
  if useSsl && !s.conn.sslAccepted then
    match ev.sslAccept with
    | .accepted =>
      let (s, err) := { s with conn := { s.conn with sslAccepted := true } }.announce throws
      if err then (s.setIsClose, false) else (s, true)
    | .pending => (s, false)
    | .failed => (s.setIsClose, false)
  else (s, true)

/-- The application is called when there is something in the receive buffer. -/
def processStep (parse : ParseFromArray π) (throws : AppThrows π) (s : StreamCtx π) :
    StreamCtx π × Bool :=
  if s.conn.recvBuffer.length > 0 then s.onProcessConnection parse throws else (s, false)

/-- The rest of `on_event`: read, process, write. -/
def readProcessWrite (parse : ParseFromArray π) (throws : AppThrows π) (ev : Event)
    (s : StreamCtx π) : StreamCtx π :=
  match if ev.read then recvLoop 10240 ev.recvs [] else some [] with
  | none => s.setIsClose
  | some bytes =>
    let s := s.setRecvBuffer (s.conn.recvBuffer ++ bytes)
    let (s, err) := s.processStep parse throws
    if err then s.setIsClose
    else if ev.write then { s with conn := s.conn.trySendFlush ev.sends }
    else s

/-- `stream_ctx::on_event`. -/
def onEvent (useSsl : Bool) (parse : ParseFromArray π) (throws : AppThrows π) (s : StreamCtx π)
    (ev : Event) : StreamCtx π :=
  if !s.attached then s
  else
    let s := if ev.err then s.setIsClose else s
    if s.conn.isClose then
      let s := if s.conn.isReady then { s with calls := s.calls ++ [.closeConnection] } else s
      s.closeClientFd
    else
      match s.sslStep useSsl throws ev with
      | (s, false) => s
      | (s, true) => s.readProcessWrite parse throws ev

/-- `stream_app::send_sync_package` of a packed package. -/
def sendSyncPackage (data : Bytes) (sends : List SendResult) (s : StreamCtx π) :
    StreamCtx π × Int :=
  if s.conn.sendBuffer.length > 1024000 then (s.setIsClose, -1)
  else
    let r := s.conn.sendData data true sends
    ({ s with conn := r.1 }, r.2)

/-- The packages `on_recv_package` was given, in order. -/
def packages (s : StreamCtx π) : List π :=
  s.calls.filterMap fun
    | .recvPackage p => some p
    | _ => none

section Fields

variable (s : StreamCtx π) (b : Bytes) (ps : List π)

@[simp] theorem setRecvBuffer_recvBuffer : (s.setRecvBuffer b).conn.recvBuffer = b := rfl

@[simp] theorem setRecvBuffer_packages : (s.setRecvBuffer b).packages = s.packages := rfl

@[simp] theorem deliver_packages : (s.deliver ps).packages = s.packages ++ ps := by
  simp only [packages, deliver, List.filterMap_append, List.filterMap_map, Function.comp_def,
    List.filterMap_some]

end Fields

end StreamCtx

end Avant.Conn
