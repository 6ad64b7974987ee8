import Mathlib.Data.List.Sort
import Avant.App.WebsocketFrame
import Avant.Conn.HttpCtx
import Avant.Conn.StreamCtx
import Avant.Lib.CString

/-!
# WebSocket connections

Model of `src/connection/websocket_ctx.{h,cpp}` and of the connection hooks of
`src/app/websocket_app.cpp`: `onCreate`, `onEvent` with all of its exits, one definition for each
of its phases (TLS, handshake, read and process, write), the frame loop `onProcessConnection`, and
the calls that come in between events: `sendSyncPackage`, and the close command of the other
thread.

llhttp is a parameter, as in `HttpCtx.lean`, and so is the value of `Sec-WebSocket-Accept`. The
callbacks gather the request in an `HttpMessage`; its `recvEnd` is `http_processed` here.

`trace` records what happened on the connection, in order. Nothing reads it.

Left out: `record_recv_bytes` and `record_sent_bytes`, and the epoll registration.
-/

namespace Avant.Conn

open Avant.Lib Avant.Lib.Http Avant.Socket Avant.App

/-- llhttp as this context uses it. A piece is accepted with `HPE_OK` or `HPE_PAUSED_UPGRADE`. -/
structure UpgradeParser (P : Type) extends Parser P where
  /-- `llhttp_get_upgrade` -/
  upgrade : P → Bool

/-- What the context takes from the rest of the program. -/
structure WebsocketApp (P π : Type) where
  useSsl : Bool
  llhttp : UpgradeParser P
  /-- `ProtoPackage::ParseFromArray` -/
  parse : Bytes → Option π
  /-- the base64 form of the SHA-1 digest -/
  acceptKey : Bytes → Bytes

/-- What happens on a connection. -/
inductive WsStep (π : Type)
  /-- `on_new_connection` -/
  | newConnection
  /-- `on_process_frame`, with the message -/
  | processFrame (message : Bytes)
  /-- the message is forwarded to the other thread -/
  | forward (p : π)
  /-- `on_close_connection` -/
  | closeConnection
  /-- `set_is_close(true)` -/
  | marked
  deriving DecidableEq

/-- An event, with the answers to the send of the handshake's response. -/
structure WsEvent (π : Type) extends Event where
  handshakeSends : List SendResult := []
  throws : AppThrows π := {}

/-! ## The handshake request -/

namespace HttpMessage

/-- The callbacks of `init_ws_llhttp_settings`: those of `http_ctx`, but for the body, which must
be empty. -/
def wsCallback (m : HttpMessage) : Callback → HttpMessage × Bool
  | .data .body bs => (m, bs.length = 0)
  | cb => m.callback cb

def wsRunCallbacks : List Callback → HttpMessage → HttpMessage × Bool
  | [], m => (m, true)
  | cb :: cbs, m =>
    match m.wsCallback cb with
    | (m, true) => wsRunCallbacks cbs m
    | (m, false) => (m, false)

def wsExecute {P : Type} (L : UpgradeParser P) (p : P) (bs : Bytes) (m : HttpMessage) :
    P × HttpMessage × Bool :=
  let (p, cbs, ok) := L.execute p bs
  let (m, ok') := m.wsRunCallbacks cbs
  (p, m, ok && ok')

end HttpMessage

/-- The order of the keys of a `std::map<std::string, …>`. -/
def bytesLe : Bytes → Bytes → Bool
  | [], _ => true
  | _ :: _, [] => false
  | a :: as, b :: bs => a < b || (a == b && bytesLe as bs)

/-- The values of `Sec-WebSocket-Key` and `Sec-WebSocket-Version`: field names in any case, of
several spellings the last in the order of the map, and the first value of each. -/
def handshakeFields (hs : Headers) (kv : Bytes × Bytes) : Bytes × Bytes :=
  (hs.insertionSort fun a b => bytesLe a.1 b.1 = true).foldl
    (fun kv h =>
      match h.2 with
      | [] => kv
      | v :: _ =>
        if h.1.map toLower = ascii "sec-websocket-key" then (v, kv.2)
        else if h.1.map toLower = ascii "sec-websocket-version" then (kv.1, v)
        else kv) kv

/-- The response of a completed handshake. -/
def handshakeResponse (accept : Bytes) : Bytes :=
  ascii "HTTP/1.1 101 Switching Protocols\r\n" ++ ascii "Upgrade: websocket\r\n" ++
    ascii "Connection: Upgrade\r\n" ++ ascii "Sec-WebSocket-Accept: " ++ accept ++
    ascii "\r\n\r\n"

/-! ## The context -/

/-- `websocket_ctx`, its connection, and what happened so far. -/
structure WebsocketCtx (P π : Type) where
  conn : Connection := {}
  /-- `conn_ptr` and `worker_ptr` are set -/
  attached : Bool := false
  appLayerNotified : Bool := false
  parser : P
  msg : HttpMessage := {}
  secWebsocketKey : Bytes := []
  secWebsocketVersion : Bytes := []
  isUpgrade : Bool := false
  isConnected : Bool := false
  frameFirstOpcode : UInt8 := 0
  framePayloadData : Bytes := []
  trace : List (WsStep π) := []
  deriving DecidableEq

namespace WebsocketCtx

variable {P π : Type} (A : WebsocketApp P π)

/-- One more entry of the trace. -/
def record (x : WsStep π) (s : WebsocketCtx P π) : WebsocketCtx P π :=
  { s with trace := s.trace ++ [x] }

/-- `conn_ptr->set_is_close(true)`. -/
def setIsClose (s : WebsocketCtx P π) : WebsocketCtx P π :=
  { s with conn := { s.conn with isClose := true } }.record .marked

/-- `websocket_ctx::on_create`. -/
def onCreate (s : WebsocketCtx P π) : WebsocketCtx P π :=
  { s with
    appLayerNotified := false
    attached := true
    parser := A.llhttp.init
    msg := {}
    secWebsocketKey := []
    secWebsocketVersion := []
    isUpgrade := false
    isConnected := false
    frameFirstOpcode := 0
    framePayloadData := [] }

/-- `worker::close_client_fd`, as the context sees it. -/
def closeClientFd (s : WebsocketCtx P π) : WebsocketCtx P π :=
  { s with conn := s.conn.onRelease, attached := false }

/-- What a send loop left in the send buffer, and what reached the socket. -/
def withSent (buf wire : Bytes) (s : WebsocketCtx P π) : WebsocketCtx P π :=
  { s with conn := { s.conn with sendBuffer := buf, wire := wire } }

/-- `websocket_ctx::try_send_flush`. -/
def trySendFlush (sends : List SendResult) (s : WebsocketCtx P π) : WebsocketCtx P π :=
  let r := flushLoop sends s.conn.sendBuffer s.conn.wire
  if r.2.2 then (s.withSent r.1 r.2.1).setIsClose else s.withSent r.1 r.2.1

/-- `websocket_ctx::send_data`, with `flush` at its default. -/
def sendData (data : Bytes) (sends : List SendResult) (s : WebsocketCtx P π) :
    WebsocketCtx P π × Int :=
  if s.conn.isClose || s.conn.closedFlag then (s, -1)
  else if !s.conn.isReady then (s, -2)
  else ((s.withSent (s.conn.sendBuffer ++ data) s.conn.wire).trySendFlush sends, 0)

/-- `websocket_app::send_sync_package`. -/
def sendSyncPackage (firstByte : UInt8) (data : Bytes) (sends : List SendResult)
    (s : WebsocketCtx P π) : WebsocketCtx P π × Int :=
  if s.conn.sendBuffer.length > 1024000 then (s.setIsClose, -1)
  else s.sendData (syncFrame firstByte data) sends

/-- What `send_sync_package` does: too much is waiting, or the connection takes nothing, or the
frame goes behind what is waiting. -/
theorem sendSyncPackage_cases (firstByte : UInt8) (data : Bytes) (sends : List SendResult)
    (s : WebsocketCtx P π) :
    (s.sendSyncPackage firstByte data sends).1 = s.setIsClose ∨
      (s.sendSyncPackage firstByte data sends).1 = s ∨
      ∃ buf, (s.sendSyncPackage firstByte data sends).1 =
        (s.withSent buf s.conn.wire).trySendFlush sends := by
  unfold sendSyncPackage sendData
  split_ifs
  · exact .inl rfl
  · exact .inr (.inl rfl)
  · exact .inr (.inl rfl)
  · exact .inr (.inr ⟨_, rfl⟩)

/-! ### The frame loop -/

/-- `websocket_app::on_process_frame`; `true` when it threw. -/
def onProcessFrame (throws : AppThrows π) (s : WebsocketCtx P π) : WebsocketCtx P π × Bool :=
  let message := s.framePayloadData
  let s := { s with framePayloadData := [] }.record (.processFrame message)
  match A.parse message with
  | none => (s.setIsClose, false)
  | some p => (s.record (.forward p), throws.recvPackage p)

/-- How a turn of the frame loop ends: the loop is left, an exception is thrown, or it goes on
behind a frame, which was final or not. -/
inductive LoopTurn
  | leave
  | threw
  | next (fin : Bool)
  deriving DecidableEq

/-- The opcode of a TEXT or BINARY frame is kept, also of one that is not complete. -/
def noteOpcode (s : WebsocketCtx P π) : WebsocketCtx P π :=
  match s.conn.recvBuffer with
  | [] => s
  | b :: _ =>
    match n2WebsocketFrameType (b &&& 0x0f) with
    | .textFrame | .binaryFrame => { s with frameFirstOpcode := b &&& 0x0f }
    | _ => s

/-- The payload of a frame is appended to the message, and the frame taken off the buffer. -/
def takeFrame (f : WebsocketFrame) (index : Nat) (s : WebsocketCtx P π) : WebsocketCtx P π :=
  { s with
    framePayloadData := s.framePayloadData ++ f.payloadData
    conn := { s.conn with recvBuffer := s.conn.recvBuffer.drop index } }

/-- One turn of the loop of `on_process_connection`. -/
def frameTurn (throws : AppThrows π) (s : WebsocketCtx P π) : WebsocketCtx P π × LoopTurn :=
  let s := s.noteOpcode
  match parseFrame s.conn.recvBuffer with
  | .wait => (s, .leave)
  | .refused => (s.setIsClose, .leave)
  | .lengthError => (s, .threw)
  | .frame f index =>
    let s := s.takeFrame f index
    if f.fin then
      let (s, err) := s.onProcessFrame A throws
      (s, if err then .threw else .next true)
    else (s, .next false)

/-- The most messages one call of `on_process_connection` handles. -/
def maxPackageNumPerLoop : Nat := 2147483647

/-- The loop of `on_process_connection`, `n` messages in; `true` when it threw. Every turn that
goes on takes bytes off the buffer, so as many turns as there are bytes, and one more, are
enough. -/
def frameLoop (throws : AppThrows π) : Nat → Nat → WebsocketCtx P π → WebsocketCtx P π × Bool
  | 0, _, s => (s, false)
  | fuel + 1, n, s =>
    match s.frameTurn A throws with
    | (s, .leave) => (s, false)
    | (s, .threw) => (s, true)
    | (s, .next false) => frameLoop throws fuel n s
    | (s, .next true) =>
      if n + 1 ≥ maxPackageNumPerLoop then (s, false) else frameLoop throws fuel (n + 1) s

/-- `websocket_app::on_process_connection`; `true` when it threw. -/
def onProcessConnection (throws : AppThrows π) (s : WebsocketCtx P π) :
    WebsocketCtx P π × Bool :=
  match s.frameLoop A throws (s.conn.recvBuffer.length + 1) 0 with
  | (s, true) => (s, true)
  | (s, false) =>
    if s.conn.recvBuffer.length > 1024000 then (s.setIsClose, false)
    else if s.framePayloadData.length > 1024000 then (s.setIsClose, false)
    else (s, false)

/-! ### Events -/

/-- The TLS part of `on_event`; `false` when the event ends there. -/
def sslStep (ev : WsEvent π) (s : WebsocketCtx P π) : WebsocketCtx P π × Bool :=
  if A.useSsl && !s.conn.sslAccepted then
    match ev.sslAccept with
    | .accepted => ({ s with conn := { s.conn with sslAccepted := true } }, true)
    | .pending => (s, false)
    | .failed => (s.setIsClose, false)
  else (s, true)

/-- The read loop of the handshake, with `len` bytes of its buffer used; the answers of `recv`
that are left for the rest of the event, or `none` when the peer is gone or llhttp refused. -/
def handshakeRecv : List RecvResult → Nat → WebsocketCtx P π →
    WebsocketCtx P π × Option (List RecvResult)
  | [], _, s => (s, some [])
  | r :: rs, len, s =>
    if len < 10240 then
      match r with
      | .data bs =>
        match s.msg.wsExecute A.llhttp s.parser bs with
        | (p, m, true) =>
          handshakeRecv rs (len + bs.length)
            { s with parser := p, msg := m, isUpgrade := s.isUpgrade || A.llhttp.upgrade p }
        | (p, m, false) => ({ s with parser := p, msg := m }, none)
      | .again => (s, some rs)
      | .intr => handshakeRecv rs len s
      | .closed => (s, none)
    else (s, some (r :: rs))

/-- The key and the version of the request. -/
def withKeys (k v : Bytes) (s : WebsocketCtx P π) : WebsocketCtx P π :=
  { s with secWebsocketKey := k, secWebsocketVersion := v }

/-- The connection is ready: the response stands in the send buffer, with the key and the version
that were read. -/
def upgraded (k v response : Bytes) (s : WebsocketCtx P π) : WebsocketCtx P π :=
  { s with
    secWebsocketKey := k
    secWebsocketVersion := v
    conn := { s.conn with sendBuffer := s.conn.sendBuffer ++ response, isReady := true }
    isConnected := true }

/-- The application is notified of the connection. -/
def notified (s : WebsocketCtx P π) : WebsocketCtx P π :=
  { s with appLayerNotified := true }.record .newConnection

/-- The answer to a handshake request that is complete: the connection is refused, or becomes
ready and is announced to the application. `false` when the event ends there. -/
def upgradeStep (ev : WsEvent π) (s : WebsocketCtx P π) : WebsocketCtx P π × Bool :=
  let kv := handshakeFields s.msg.headers (s.secWebsocketKey, s.secWebsocketVersion)
  if kv.1 = [] ∨ kv.2 ≠ ascii "13" then
    ((s.withKeys kv.1 kv.2).setIsClose, false)
  else
    let response :=
      handshakeResponse (A.acceptKey (kv.1 ++ ascii "258EAFA5-E914-47DA-95CA-C5AB0DC85B11"))
    let s := ((s.upgraded kv.1 kv.2 response).trySendFlush ev.handshakeSends).notified
    if ev.throws.newConnection then (s.setIsClose, false) else (s, true)

/-- The handshake part of `on_event`: the answers of `recv` left for the rest of the event, or
`none` when the event ends there. -/
def handshakeStep (ev : WsEvent π) (s : WebsocketCtx P π) :
    WebsocketCtx P π × Option (List RecvResult) :=
  if s.isConnected then (s, some ev.recvs)
  else if s.msg.recvEnd then (s.setIsClose, none)
  else
    match if ev.read then s.handshakeRecv A ev.recvs 0 else (s, some ev.recvs) with
    | (s, none) => (s.setIsClose, none)
    | (s, some recvs) =>
      if !s.msg.recvEnd then (s, none)
      else if !s.isUpgrade then (s.setIsClose, none)
      else
        match s.upgradeStep A ev with
        | (s, false) => (s, none)
        | (s, true) => (s, some recvs)

/-- The bytes of an event join the receive buffer. -/
def appendRecv (bytes : Bytes) (s : WebsocketCtx P π) : WebsocketCtx P π :=
  { s with conn := { s.conn with recvBuffer := s.conn.recvBuffer ++ bytes } }

/-- The application is called when there is something in the receive buffer. -/
def processStep (throws : AppThrows π) (s : WebsocketCtx P π) : WebsocketCtx P π × Bool :=
  if s.conn.recvBuffer.length > 0 then s.onProcessConnection A throws else (s, false)

/-- The rest of `on_event`: read, process, write. -/
def readProcessWrite (ev : WsEvent π) (recvs : List RecvResult) (s : WebsocketCtx P π) :
    WebsocketCtx P π :=
  match if ev.read then recvLoop 10240 recvs [] else some [] with
  | none => s.setIsClose
  | some bytes =>
    let (s, err) := (s.appendRecv bytes).processStep A ev.throws
    if err then s.setIsClose
    else if ev.write then s.trySendFlush ev.sends
    else s

/-- The end of a connection that is marked: the application is told if it knows of it. -/
def closeEvent (s : WebsocketCtx P π) : WebsocketCtx P π :=
  (if s.conn.isReady then s.record .closeConnection else s).closeClientFd

/-- `websocket_ctx::on_event`. -/
def onEvent (s : WebsocketCtx P π) (ev : WsEvent π) : WebsocketCtx P π :=
  if !s.attached then s
  else
    let s := if ev.err then s.setIsClose else s
    if s.conn.isClose then s.closeEvent
    else
      match s.sslStep A ev with
      | (s, false) => s
      | (s, true) =>
        match s.handshakeStep A ev with
        | (s, none) => s
        | (s, some recvs) => s.readProcessWrite A ev recvs

/-! ## What the phases of an event can do -/

variable {A} {ev : WsEvent π} {s : WebsocketCtx P π}

/-- The answers of `recv` that a read loop of the handshake leaves. -/
def leftRecvs (A : WebsocketApp P π) (ev : WsEvent π) (s : WebsocketCtx P π) : List RecvResult :=
  if s.isConnected || !ev.read then ev.recvs else (s.handshakeRecv A ev.recvs 0).2.getD []

/-- The TLS handshake is through, or not. -/
def withSslAccepted (b : Bool) (s : WebsocketCtx P π) : WebsocketCtx P π :=
  { s with conn := { s.conn with sslAccepted := b } }

/-- The ways out of the TLS part. -/
theorem sslStep_cases (A : WebsocketApp P π) (ev : WsEvent π) (s : WebsocketCtx P π) :
    s.sslStep A ev = (s, false) ∨ s.sslStep A ev = (s.setIsClose, false) ∨
      ∃ b, s.sslStep A ev = (s.withSslAccepted b, true) := by
  unfold sslStep
  split
  · cases ev.sslAccept with
    | accepted => exact .inr (.inr ⟨true, rfl⟩)
    | pending => exact .inl rfl
    | failed => exact .inr (.inl rfl)
  · exact .inr (.inr ⟨s.conn.sslAccepted, rfl⟩)

/-- The request and the state of the parser, which the handshake alone changes. -/
def withRequest (p : P) (m : HttpMessage) (upgrade : Bool) (s : WebsocketCtx P π) :
    WebsocketCtx P π :=
  { s with parser := p, msg := m, isUpgrade := upgrade }

theorem handshakeRecv_eq (A : WebsocketApp P π) :
    ∀ (rs : List RecvResult) (len : Nat) (s : WebsocketCtx P π),
      ∃ p m u, (s.handshakeRecv A rs len).1 = s.withRequest p m u
  | [], _, s => ⟨s.parser, s.msg, s.isUpgrade, rfl⟩
  | r :: rs, len, s => by
    have hsame : ∃ p m u, s = s.withRequest p m u := ⟨s.parser, s.msg, s.isUpgrade, rfl⟩
    unfold handshakeRecv
    split
    · cases r with
      | data bs =>
        simp only
        split
        · rename_i p m _
          obtain ⟨p', m', u', h⟩ := handshakeRecv_eq A rs (len + bs.length)
            (s.withRequest p m (s.isUpgrade || A.llhttp.upgrade p))
          exact ⟨p', m', u', h⟩
        · exact ⟨_, _, s.isUpgrade, rfl⟩
      | again => exact hsame
      | intr => exact handshakeRecv_eq A rs len s
      | closed => exact hsame
    · exact hsame

/-- The TLS handshake has no say in what the read loop does. -/
theorem handshakeRecv_withSslAccepted (A : WebsocketApp P π) (b : Bool) :
    ∀ (rs : List RecvResult) (len : Nat) (s : WebsocketCtx P π),
      ((s.withSslAccepted b).handshakeRecv A rs len).2 = (s.handshakeRecv A rs len).2
  | [], _, _ => rfl
  | r :: rs, len, s => by
    unfold handshakeRecv
    by_cases hlen : len < 10240
    · rw [if_pos hlen, if_pos hlen]
      cases r with
      | data bs =>
        have hexec : (s.withSslAccepted b).msg.wsExecute A.llhttp (s.withSslAccepted b).parser bs =
            s.msg.wsExecute A.llhttp s.parser bs := rfl
        simp only [hexec]
        split
        · rename_i p m _
          exact handshakeRecv_withSslAccepted A b rs (len + bs.length)
            (s.withRequest p m (s.isUpgrade || A.llhttp.upgrade p))
        · rfl
      | again => rfl
      | intr => exact handshakeRecv_withSslAccepted A b rs len s
      | closed => rfl
    · rw [if_neg hlen, if_neg hlen]

theorem leftRecvs_withSslAccepted (A : WebsocketApp P π) (ev : WsEvent π) (b : Bool)
    (s : WebsocketCtx P π) : (s.withSslAccepted b).leftRecvs A ev = s.leftRecvs A ev := by
  rw [leftRecvs, leftRecvs, handshakeRecv_withSslAccepted]
  rfl

/-- The ways out of the handshake: it was through before; the event ends there, perhaps with the
connection marked; or the request is complete and asks for an upgrade. -/
theorem handshakeStep_cases (A : WebsocketApp P π) (ev : WsEvent π) (s : WebsocketCtx P π) :
    (s.isConnected = true ∧ s.handshakeStep A ev = (s, some (s.leftRecvs A ev))) ∨
    (s.isConnected = false ∧ ∃ p m u,
      s.handshakeStep A ev = (s.withRequest p m u, none) ∨
      s.handshakeStep A ev = ((s.withRequest p m u).setIsClose, none) ∨
      s.handshakeStep A ev = (((s.withRequest p m u).upgradeStep A ev).1,
        if ((s.withRequest p m u).upgradeStep A ev).2 then some (s.leftRecvs A ev) else none)) := by
  cases hconn : s.isConnected with
  | true => exact .inl ⟨rfl, by simp [handshakeStep, leftRecvs, hconn]⟩
  | false =>
    refine .inr ⟨rfl, ?_⟩
    unfold handshakeStep
    rw [if_neg (by simp [hconn])]
    split
    · exact ⟨s.parser, s.msg, s.isUpgrade, .inr (.inl rfl)⟩
    · obtain ⟨p, m, u, hreq⟩ : ∃ p m u,
          (if ev.read then s.handshakeRecv A ev.recvs 0 else (s, some ev.recvs)).1 =
            s.withRequest p m u := by
        split
        · exact handshakeRecv_eq A ev.recvs 0 s
        · exact ⟨s.parser, s.msg, s.isUpgrade, rfl⟩
      have hleft : (if ev.read then s.handshakeRecv A ev.recvs 0 else (s, some ev.recvs)).2.getD [] =
          s.leftRecvs A ev := by
        cases hread : ev.read <;> simp [leftRecvs, hconn, hread]
      refine ⟨p, m, u, ?_⟩
      generalize (if ev.read then s.handshakeRecv A ev.recvs 0 else (s, some ev.recvs)) = r
        at hreq hleft
      obtain ⟨s₁, left⟩ := r
      obtain rfl : s₁ = s.withRequest p m u := hreq
      cases left with
      | none => exact .inr (.inl rfl)
      | some recvs =>
        obtain rfl : recvs = s.leftRecvs A ev := hleft
        by_cases hend : (!(s.withRequest p m u).msg.recvEnd) = true
        · exact .inl (if_pos hend)
        · by_cases hup : (!(s.withRequest p m u).isUpgrade) = true
          · exact .inr (.inl ((if_neg hend).trans (if_pos hup)))
          · refine .inr (.inr ((if_neg hend).trans ((if_neg hup).trans ?_)))
            rcases (s.withRequest p m u).upgradeStep A ev with ⟨s₂, ok⟩
            cases ok <;> rfl

/-- The ways out of the answer to a handshake request. -/
theorem upgradeStep_cases (A : WebsocketApp P π) (ev : WsEvent π) (s : WebsocketCtx P π) :
    (∃ k v, s.upgradeStep A ev = ((s.withKeys k v).setIsClose, false)) ∨
    ∃ k v r,
      s.upgradeStep A ev =
        (((s.upgraded k v r).trySendFlush ev.handshakeSends).notified.setIsClose, false) ∨
      s.upgradeStep A ev = (((s.upgraded k v r).trySendFlush ev.handshakeSends).notified, true) := by
  let kv := handshakeFields s.msg.headers (s.secWebsocketKey, s.secWebsocketVersion)
  by_cases hkv : kv.1 = [] ∨ kv.2 ≠ ascii "13"
  · exact .inl ⟨kv.1, kv.2, if_pos hkv⟩
  · refine .inr ⟨kv.1, kv.2, handshakeResponse (A.acceptKey
      (kv.1 ++ ascii "258EAFA5-E914-47DA-95CA-C5AB0DC85B11")), ?_⟩
    cases hthrow : ev.throws.newConnection with
    | true => exact .inl ((if_neg hkv).trans (if_pos hthrow))
    | false => exact .inr ((if_neg hkv).trans (if_neg (by simp [hthrow])))

/-- The ways an event can go. -/
theorem onEvent_cases (A : WebsocketApp P π) (s : WebsocketCtx P π) (ev : WsEvent π) :
    (s.attached = false ∧ s.onEvent A ev = s) ∨
    s.attached = true ∧
      ((ev.err = true ∧ s.onEvent A ev = s.setIsClose.closeEvent) ∨
      (s.conn.isClose = true ∧ s.onEvent A ev = s.closeEvent) ∨
      (ev.err = false ∧ s.conn.isClose = false ∧
        (s.onEvent A ev = s ∨ s.onEvent A ev = s.setIsClose ∨ (s.sslStep A ev).2 = true ∧
        ∃ b, ((s.withSslAccepted b).handshakeStep A ev).2 = none ∧
            s.onEvent A ev = ((s.withSslAccepted b).handshakeStep A ev).1 ∨
          ∃ recvs, ((s.withSslAccepted b).handshakeStep A ev).2 = some recvs ∧
            s.onEvent A ev =
              ((s.withSslAccepted b).handshakeStep A ev).1.readProcessWrite A ev recvs))) := by
  cases hatt : s.attached with
  | false => exact .inl ⟨rfl, if_pos (by simp [hatt])⟩
  | true =>
    refine .inr ⟨rfl, ?_⟩
    have hne : (!s.attached) ≠ true := by simp [hatt]
    cases herr : ev.err with
    | true =>
      refine .inl ⟨rfl, (if_neg hne).trans ?_⟩
      rw [herr]
      rfl
    | false =>
      refine .inr ?_
      cases hclose : s.conn.isClose with
      | true =>
        refine .inl ⟨rfl, (if_neg hne).trans ?_⟩
        rw [herr]
        exact if_pos hclose
      | false =>
        have hon : s.onEvent A ev = match s.sslStep A ev with
            | (s, false) => s
            | (s, true) =>
              match s.handshakeStep A ev with
              | (s, none) => s
              | (s, some recvs) => s.readProcessWrite A ev recvs := by
          refine (if_neg hne).trans ?_
          rw [herr]
          exact if_neg (by simp [hclose])
        refine .inr ⟨rfl, rfl, ?_⟩
        rw [hon]
        rcases sslStep_cases A ev s with h | h | ⟨b, h⟩
        · exact .inl (by rw [h])
        · exact .inr (.inl (by rw [h]))
        · refine .inr (.inr ⟨by rw [h], b, ?_⟩)
          rw [h]
          simp only
          generalize (s.withSslAccepted b).handshakeStep A ev = r
          rcases r with ⟨s₁, _ | recvs⟩
          · exact .inl ⟨rfl, rfl⟩
          · exact .inr ⟨recvs, rfl, rfl⟩

end WebsocketCtx

end Avant.Conn
