import Avant.Conn.Connection
import Avant.Lib.HttpParser

/-!
# HTTP connections

Model of `src/connection/http_ctx.{h,cpp}` and of the body hooks of `src/app/http_app.cpp`:
`onCreate`, the callbacks given to llhttp, and `onEvent` with all of its exits, one definition for
each of its phases (TLS, read, process, write, keep-alive).

Two parts are parameters. The parser is a `Lib.Http.Parser`, what `llhttp_init` and
`llhttp_execute` are used as. The handlers of the application are an `HttpApp`: what one run of a
handler did to the context, given the request and the answers of the operating system.

`trace` records what happened on the connection, in order. Nothing reads it; the properties of
runs are stated over it.

Left out: `ptr`, which belongs to the handlers; the `upgrade` flag of llhttp, which is only
logged; the receive buffer, where `on_body` puts bytes that `http_app::on_body` clears at once.
-/

namespace Avant.Conn

open Avant.Lib Avant.Lib.Http Avant.Socket

/-! ## The request -/

/-- `http_ctx::headers`: the values of each header. The keys stand in the order they came in,
which nothing reads. -/
abbrev Headers := List (Bytes × List Bytes)

/-- `http_ctx::add_header`. -/
def addHeader (key value : Bytes) : Headers → Headers
  | [] => [(key, [value])]
  | (k, vs) :: hs => if k = key then (k, vs ++ [value]) :: hs else (k, vs) :: addHeader key value hs

/-- `header_exist_keep_live` of `process_callback`. -/
def headerExistKeepLive (hs : Headers) : Bool :=
  match hs.lookup (ascii "Connection") with
  | none => false
  | some vs => vs.contains (ascii "keep-alive")

/-- What the callbacks gather of a request. -/
structure HttpMessage where
  url : Bytes := []
  method : Bytes := []
  protocol : Bytes := []
  version : Bytes := []
  headers : Headers := []
  headFieldTmp : Bytes := []
  headValueTmp : Bytes := []
  recvBodySize : Nat := 0
  recvEnd : Bool := false
  deriving DecidableEq

/-- What a handler sees of a request. -/
structure HttpRequest where
  method : Bytes
  url : Bytes
  protocol : Bytes
  version : Bytes
  headers : Headers
  deriving DecidableEq

/-- `max_body_size` -/
def maxBodySize : Nat := 2048000

/-- `http_app::on_body_before` accepts. -/
def onBodyBefore (bodySize length : Nat) : Bool := bodySize + length ≤ maxBodySize

/-- `http_app::on_body` accepts. It is called when `bodySize` already counts the `length` bytes. -/
def onBody (bodySize length : Nat) : Bool := bodySize + length ≤ maxBodySize

namespace HttpMessage

/-- A data callback of llhttp: the bytes are appended to a string, which must not grow beyond
`limit`. -/
def gather (limit : Nat) (old bs : Bytes) : Bytes × Bool :=
  (old ++ bs, (old ++ bs).length ≤ limit)

def onProtocol (bs : Bytes) (m : HttpMessage) : HttpMessage × Bool :=
  ({ m with protocol := (gather 10 m.protocol bs).1 }, (gather 10 m.protocol bs).2)

def onUrl (bs : Bytes) (m : HttpMessage) : HttpMessage × Bool :=
  ({ m with url := (gather 10240 m.url bs).1 }, (gather 10240 m.url bs).2)

def onMethod (bs : Bytes) (m : HttpMessage) : HttpMessage × Bool :=
  ({ m with method := (gather 10 m.method bs).1 }, (gather 10 m.method bs).2)

def onVersion (bs : Bytes) (m : HttpMessage) : HttpMessage × Bool :=
  ({ m with version := (gather 10 m.version bs).1 }, (gather 10 m.version bs).2)

def onHeaderField (bs : Bytes) (m : HttpMessage) : HttpMessage × Bool :=
  ({ m with headFieldTmp := (gather 1024 m.headFieldTmp bs).1 }, (gather 1024 m.headFieldTmp bs).2)

def onHeaderValue (bs : Bytes) (m : HttpMessage) : HttpMessage × Bool :=
  ({ m with headValueTmp := (gather 20480 m.headValueTmp bs).1 },
    (gather 20480 m.headValueTmp bs).2)

def onHeaderFieldComplete (m : HttpMessage) : HttpMessage := { m with headValueTmp := [] }

def onHeaderValueComplete (m : HttpMessage) : HttpMessage :=
  { m with
    headers := addHeader m.headFieldTmp m.headValueTmp m.headers
    headFieldTmp := []
    headValueTmp := [] }

/-- The `on_body` callback, without the receive buffer: the bytes are counted between the two
hooks. -/
def onBodyData (bs : Bytes) (m : HttpMessage) : HttpMessage × Bool :=
  if onBodyBefore m.recvBodySize bs.length then
    ({ m with recvBodySize := m.recvBodySize + bs.length },
      onBody (m.recvBodySize + bs.length) bs.length)
  else (m, false)

/-- The callbacks of `init_llhttp_settings`; `false` when one returns nonzero. Chunked bodies are
not supported. -/
def callback (m : HttpMessage) : Callback → HttpMessage × Bool
  | .data .protocol bs => m.onProtocol bs
  | .data .url bs => m.onUrl bs
  | .data .method bs => m.onMethod bs
  | .data .version bs => m.onVersion bs
  | .data .headerField bs => m.onHeaderField bs
  | .data .headerValue bs => m.onHeaderValue bs
  | .data .body bs => m.onBodyData bs
  | .data .chunkExtensionName _ | .data .chunkExtensionValue _ => (m, false)
  | .mark .headerFieldComplete => (m.onHeaderFieldComplete, true)
  | .mark .headerValueComplete => (m.onHeaderValueComplete, true)
  | .mark .chunkHeader | .mark .chunkComplete | .mark .chunkExtensionNameComplete
  | .mark .chunkExtensionValueComplete => (m, false)
  | .mark .messageComplete => ({ m with recvEnd := true }, true)
  | .mark .messageBegin | .mark .methodComplete | .mark .urlComplete | .mark .protocolComplete
  | .mark .versionComplete | .mark .headersComplete => (m, true)

/-- The callbacks of one `llhttp_execute`, up to the first that returns nonzero. -/
def runCallbacks : List Callback → HttpMessage → HttpMessage × Bool
  | [], m => (m, true)
  | cb :: cbs, m =>
    match m.callback cb with
    | (m, true) => runCallbacks cbs m
    | (m, false) => (m, false)

/-- `llhttp_execute` on the bytes of one `recv`; `false` when it does not return `HPE_OK`. -/
def execute {P : Type} (L : Parser P) (p : P) (bs : Bytes) (m : HttpMessage) :
    P × HttpMessage × Bool :=
  let (p, cbs, ok) := L.execute p bs
  let (m, ok') := m.runCallbacks cbs
  (p, m, ok && ok')

def request (m : HttpMessage) : HttpRequest :=
  ⟨m.method, m.url, m.protocol, m.version, m.headers⟩

end HttpMessage

/-! ## The read loop -/

/-- What makes `on_event` give up on an exchange. -/
inductive Failure
  /-- llhttp or one of the callbacks refused the bytes -/
  | parse
  /-- end of stream, or an error of `recv` -/
  | recv
  /-- an error of `send`, or nothing taken -/
  | send
  /-- an exception of a handler -/
  | handler
  /-- there is no callback to go on with -/
  | missing
  deriving DecidableEq

/-- What the read loop of `on_event` leads to: the parser and the message behind it, what each
`recv` returned, and the failure it ended in, if it did. -/
structure ReadResult (P : Type) where
  parser : P
  msg : HttpMessage
  taken : List Bytes := []
  failure : Option Failure := none

/-- The read loop of `on_event`, with `len` bytes of its buffer used. -/
def HttpMessage.recvLoop {P : Type} (L : Parser P) :
    List RecvResult → Nat → P → HttpMessage → ReadResult P
  | [], _, p, m => { parser := p, msg := m }
  | r :: rs, len, p, m =>
    if len < 10240 then
      match r with
      | .data bs =>
        match m.execute L p bs with
        | (p, m, true) =>
          let r := recvLoop L rs (len + bs.length) p m
          { r with taken := bs :: r.taken }
        | (p, m, false) => { parser := p, msg := m, taken := [bs], failure := some .parse }
      | .again => { parser := p, msg := m }
      | .intr => recvLoop L rs len p m
      | .closed => { parser := p, msg := m, failure := some .recv }
    else { parser := p, msg := m }

/-! ## The handlers -/

/-- What one run of a handler did: the bytes it appended to the send buffer, whether it marked the
response finished, the `write_end_callback` it installed, and whether it threw. -/
structure HandlerRun (κ : Type) where
  append : Bytes := []
  responseEnd : Bool := false
  writeEnd : Option κ := none
  threw : Bool := false

/-- A run of `process_callback`: when it returns, the response is finished or there is a
`write_end_callback` that will go on with it. -/
structure ProcessRun (κ : Type) extends HandlerRun κ where
  answers : threw = false → responseEnd = true ∨ writeEnd.isSome = true

/-- The application, with `ω` for what the operating system answers it. A value of `κ` is a
`write_end_callback` with the response object it works on. -/
structure HttpApp (κ ω : Type) where
  /-- `on_new_connection`; `true` when it throws -/
  onNewConnection : Bool → ω → Bool
  /-- `process_callback` behind the reading of the headers; `none` when that threw, before
  `keep_alive` was set -/
  processCallback : HttpRequest → ω → Option (ProcessRun κ)
  writeEndCallback : κ → ω → HandlerRun κ

/-- An event, with what the operating system answers the handlers. -/
structure HttpEvent (ω : Type) extends Event where
  os : ω

/-! ## The context -/

/-- What happens on a connection. -/
inductive HttpTrace
  /-- `on_create`, with its argument `keep_alive` -/
  | create (keepAlive : Bool)
  /-- `recv` returned bytes -/
  | recv (bs : Bytes)
  /-- `recv_end` is set, by `on_message_complete` -/
  | recvEnd
  /-- `process_connection` -/
  | process (r : HttpRequest)
  /-- a handler appended to the send buffer -/
  | append (bs : Bytes)
  /-- a handler marked the response finished -/
  | responseEnd
  /-- `send` took bytes -/
  | sent (bs : Bytes)
  | failed (f : Failure)
  /-- `close_client_fd` -/
  | close
  deriving DecidableEq

/-- What the read loop adds to the trace. -/
def ReadResult.trace {P : Type} (r : ReadResult P) : List HttpTrace :=
  r.taken.map .recv ++ if r.msg.recvEnd then [.recvEnd] else []

/-- What a run of a handler adds to the trace. -/
def HandlerRun.trace {κ : Type} (r : HandlerRun κ) : List HttpTrace :=
  .append r.append :: if r.responseEnd then [.responseEnd] else []

/-- `http_ctx` and its connection. -/
structure HttpCtx (P κ : Type) where
  conn : Connection := {}
  /-- `conn_ptr` and `worker_ptr` are set -/
  attached : Bool := false
  appLayerNotified : Bool := false
  msg : HttpMessage := {}
  processCallback : Bool := false
  writeEndCallback : Option κ := none
  destoryCallback : Bool := false
  keepAlive : Bool := false
  /-- `http_parser_obj` -/
  parser : P
  processEnd : Bool := false
  responseEnd : Bool := false
  everythingEnd : Bool := false
  trace : List HttpTrace := []

namespace HttpCtx

variable {P κ ω : Type} (L : Parser P) (app : HttpApp κ ω) (useSsl : Bool)

def log (e : HttpTrace) (s : HttpCtx P κ) : HttpCtx P κ := { s with trace := s.trace ++ [e] }

/-- `conn_ptr->set_is_close(true)`. -/
def setIsClose (s : HttpCtx P κ) : HttpCtx P κ := { s with conn := { s.conn with isClose := true } }

/-- An exchange is given up: `set_everything_end(true)`. -/
def fail (f : Failure) (s : HttpCtx P κ) : HttpCtx P κ :=
  { s with everythingEnd := true }.log (.failed f)

/-- The connection becomes ready and is announced to the application; when the hook throws, the
connection will be closed by the next event. -/
def announce (keepAlive : Bool) (os : ω) (s : HttpCtx P κ) : HttpCtx P κ :=
  let s := { s with conn := { s.conn with isReady := true }, appLayerNotified := true }
  if app.onNewConnection keepAlive os then s.setIsClose.log (.failed .handler) else s

/-- The fields `on_create` resets. -/
def reset (keepAlive : Bool) (s : HttpCtx P κ) : HttpCtx P κ :=
  { s with
    attached := true
    appLayerNotified := false
    msg := {}
    processCallback := false
    writeEndCallback := none
    destoryCallback := false
    keepAlive := keepAlive
    parser := L.init
    processEnd := false
    responseEnd := false
    everythingEnd := false }

/-- `http_ctx::on_create`. -/
def onCreate (keepAlive : Bool) (os : ω) (s : HttpCtx P κ) : HttpCtx P κ :=
  let s := (s.reset L keepAlive).log (.create keepAlive)
  if !useSsl || keepAlive then s.announce app keepAlive os else s

/-- The `destory_callback` is run, if there is one, and dropped. -/
def destory (s : HttpCtx P κ) : HttpCtx P κ := { s with destoryCallback := false }

/-- `worker::close_client_fd`, as the context sees it: the slot goes back to the pool and
`on_close` detaches the context. -/
def closeClientFd (s : HttpCtx P κ) : HttpCtx P κ :=
  { s.destory with conn := s.conn.onRelease, attached := false }.log .close

/-- The TLS part of `on_event`; `false` when the event ends there. -/
def sslStep (ev : HttpEvent ω) (s : HttpCtx P κ) : HttpCtx P κ × Bool :=
  if useSsl && !s.conn.sslAccepted then
    match ev.sslAccept with
    | .accepted =>
      ({ s with conn := { s.conn with sslAccepted := true } }.announce app false ev.os,
        !app.onNewConnection false ev.os)
    | .pending => (s, false)
    | .failed => (s.setIsClose, false)
  else (s, true)

/-! ### Reading -/

/-- What the read loop leaves in the context. -/
def applyRead (r : ReadResult P) (s : HttpCtx P κ) : HttpCtx P κ :=
  let s := { s with parser := r.parser, msg := r.msg, trace := s.trace ++ r.trace }
  match r.failure with
  | some f => s.fail f
  | none => s

def readPhase (ev : HttpEvent ω) (s : HttpCtx P κ) : HttpCtx P κ :=
  if !s.msg.recvEnd && !s.everythingEnd && ev.read then
    s.applyRead (s.msg.recvLoop L ev.recvs 0 s.parser)
  else s

/-! ### Processing -/

/-- What a handler's run does to the context, an exception apart. -/
def applyRun (r : HandlerRun κ) (s : HttpCtx P κ) : HttpCtx P κ :=
  { s with
    conn := { s.conn with sendBuffer := s.conn.sendBuffer ++ r.append }
    responseEnd := s.responseEnd || r.responseEnd
    writeEndCallback := r.writeEnd.or s.writeEndCallback
    trace := s.trace ++ r.trace }

/-- A run of a handler, with the `catch` of `on_event`. -/
def handlerRun (r : HandlerRun κ) (s : HttpCtx P κ) : HttpCtx P κ :=
  if r.threw then (s.applyRun r).fail .handler else s.applyRun r

/-- `http_app::process_connection`: the callbacks are installed. -/
def processConnection (s : HttpCtx P κ) : HttpCtx P κ :=
  { s with destoryCallback := true, processCallback := true }.log (.process s.msg.request)

/-- `process_callback`. -/
def runProcessCallback (os : ω) (s : HttpCtx P κ) : HttpCtx P κ :=
  match app.processCallback s.msg.request os with
  | none => s.fail .handler
  | some r => { s with keepAlive := headerExistKeepLive s.msg.headers }.handlerRun r.toHandlerRun

def processPhase (ev : HttpEvent ω) (s : HttpCtx P κ) : HttpCtx P κ :=
  if !s.everythingEnd && s.msg.recvEnd && !s.processEnd then
    let s := { s with processEnd := true }.processConnection
    if s.processCallback then s.runProcessCallback app ev.os else s.fail .missing
  else s

/-! ### Writing -/

/-- `send` took the first `n` bytes of the send buffer. -/
def sentBytes (n : Nat) (s : HttpCtx P κ) : HttpCtx P κ :=
  { s with
    conn :=
      { s.conn with
        sendBuffer := s.conn.sendBuffer.drop n
        wire := s.conn.wire ++ s.conn.sendBuffer.take n } }.log (.sent (s.conn.sendBuffer.take n))

/-- The send loop of `on_event`. `EINTR` tries again. -/
def sendLoop : List SendResult → HttpCtx P κ → HttpCtx P κ
  | [], s => s
  | r :: rs, s =>
    if s.conn.sendBuffer = [] then s
    else
      match r with
      | .sent n => sendLoop rs (s.sentBytes n)
      | .again => s
      | .intr => sendLoop rs s
      | .zero => s.fail .send
      | .failed => { s with responseEnd := true }.fail .send

/-- With the response finished and the send buffer empty, the exchange has ended. -/
def settle (s : HttpCtx P κ) : HttpCtx P κ :=
  if s.conn.sendBuffer = [] ∧ s.responseEnd = true then { s with everythingEnd := true } else s

/-- The send buffer is empty and the response not finished: the `write_end_callback` is run. -/
def writeEnd (os : ω) (s : HttpCtx P κ) : HttpCtx P κ :=
  match s.writeEndCallback with
  | some k => (s.handlerRun (app.writeEndCallback k os)).settle
  | none => (s.fail .missing).settle

/-- What is in the send buffer goes to a socket that is writable. -/
def sendPhase (ev : HttpEvent ω) (s : HttpCtx P κ) : HttpCtx P κ :=
  if ev.write then s.sendLoop ev.sends else s

def writePhase (ev : HttpEvent ω) (s : HttpCtx P κ) : HttpCtx P κ :=
  if !s.everythingEnd && s.processEnd then
    let s := s.sendPhase ev
    if s.conn.sendBuffer = [] ∧ s.responseEnd = false then s.writeEnd app ev.os else s
  else s

/-! ### The end of an exchange -/

/-- The connection and its context are used for a further request. -/
def reuse (os : ω) (s : HttpCtx P κ) : HttpCtx P κ :=
  { s with conn := s.conn.onAlloc }.onCreate L app useSsl true os

/-- An exchange that has ended gives way to the next, if the connection is kept alive. -/
def keepAliveStep (os : ω) (s : HttpCtx P κ) : HttpCtx P κ :=
  if s.everythingEnd then
    if s.keepAlive then s.destory.reuse L app useSsl os else s.destory
  else s

/-- A connection without an exchange is marked for closing. -/
def closeStep (s : HttpCtx P κ) : HttpCtx P κ := if s.everythingEnd then s.setIsClose else s

def endPhase (ev : HttpEvent ω) (s : HttpCtx P κ) : HttpCtx P κ :=
  (s.settle.keepAliveStep L app useSsl ev.os).closeStep

/-- The phases of `on_event` behind the TLS part. -/
def phases (ev : HttpEvent ω) (s : HttpCtx P κ) : HttpCtx P κ :=
  (((s.readPhase L ev).processPhase app ev).writePhase app ev).endPhase L app useSsl ev

/-- `http_ctx::on_event`. -/
def onEvent (s : HttpCtx P κ) (ev : HttpEvent ω) : HttpCtx P κ :=
  if !s.attached then s
  else
    let s := if ev.err then s.setIsClose else s
    if s.conn.isClose then s.destory.closeClientFd
    else
      match s.sslStep app useSsl ev with
      | (s, false) => s
      | (s, true) => s.phases L app useSsl ev

/-- A client is accepted: the slot is allocated and the context created. -/
def accepted (os : ω) : HttpCtx P κ :=
  { conn := Connection.onAlloc {}, parser := L.init : HttpCtx P κ }.onCreate L app useSsl false os

/-! ## What writing can do -/

variable {app} {s t : HttpCtx P κ} {runs : Bool}

/-- The updates that writing is made of; those of a callback only if `runs`. -/
inductive Writes (runs : Bool) (s : HttpCtx P κ) : HttpCtx P κ → Prop
  | refl : Writes runs s s
  | sent {t : HttpCtx P κ} (h : Writes runs s t) (n : Nat) : Writes runs s (t.sentBytes n)
  | finish {t : HttpCtx P κ} (h : Writes runs s t) : Writes runs s { t with responseEnd := true }
  | fail {t : HttpCtx P κ} (h : Writes runs s t) (f : Failure) : Writes runs s (t.fail f)
  | ended {t : HttpCtx P κ} (h : Writes runs s t) : Writes runs s { t with everythingEnd := true }
  | run {t : HttpCtx P κ} (h : Writes runs s t) (hruns : runs = true) (r : HandlerRun κ) :
      Writes runs s (t.applyRun r)

theorem Writes.sendLoop (h : Writes runs s t) (rs : List SendResult) :
    Writes runs s (t.sendLoop rs) := by
  induction rs generalizing t with
  | nil => exact h
  | cons r rs ih =>
    rw [HttpCtx.sendLoop.eq_def]
    dsimp only
    split_ifs
    · exact h
    · cases r with
      | sent n => exact ih (h.sent n)
      | again => exact h
      | intr => exact ih h
      | zero => exact h.fail .send
      | failed => exact h.finish.fail .send

theorem sendPhase_writes (runs : Bool) (ev : HttpEvent ω) (s : HttpCtx P κ) :
    Writes runs s (s.sendPhase ev) := by
  rw [sendPhase]
  split_ifs
  · exact Writes.refl.sendLoop ev.sends
  · exact .refl

theorem Writes.settle (h : Writes runs s t) : Writes runs s t.settle := by
  rw [HttpCtx.settle]
  split_ifs
  · exact h.ended
  · exact h

theorem Writes.handlerRun (h : Writes true s t) (r : HandlerRun κ) :
    Writes true s (t.handlerRun r) := by
  rw [HttpCtx.handlerRun]
  split_ifs
  · exact (h.run rfl r).fail .handler
  · exact h.run rfl r

theorem Writes.writeEnd (h : Writes true s t) (os : ω) : Writes true s (t.writeEnd app os) := by
  rw [HttpCtx.writeEnd]
  split
  · exact (h.handlerRun _).settle
  · exact (h.fail .missing).settle

theorem writePhase_writes (ev : HttpEvent ω) (s : HttpCtx P κ) :
    Writes true s (s.writePhase app ev) := by
  rw [writePhase]
  split_ifs
  · dsimp only
    split_ifs
    · exact (sendPhase_writes true ev s).writeEnd ev.os
    · exact sendPhase_writes true ev s
  · exact .refl

/-- What writing leaves alone. -/
theorem Writes.frame (h : Writes runs s t) :
    t.keepAlive = s.keepAlive ∧ t.processEnd = s.processEnd ∧ t.attached = s.attached ∧
      t.destoryCallback = s.destoryCallback := by
  induction h with
  | refl => exact ⟨rfl, rfl, rfl, rfl⟩
  | sent _ _ ih | finish _ ih | fail _ _ ih | ended _ ih | run _ _ _ ih => exact ih

end HttpCtx

end Avant.Conn
