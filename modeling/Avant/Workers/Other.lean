import Avant.App.OtherApp
import Avant.Conn.Mgr
import Avant.Lib.Machine
import Avant.Proto.Wire

/-!
# The IPC connections of the other thread

Model of the IPC part of `src/workers/other.cpp`, of `src/connection/ipc_stream_ctx.cpp` and of
the hooks of `src/app/other_app.cpp` that concern a connection: dialling the peers
(`ipc_client_to_connect`), accepting (`on_new_ipc_client_fd`), events (`ipc_stream_ctx::on_event`)
and closing (`close_ipc_client_fd`), which dials again. The maps are those of `App/OtherApp.lean`,
the connections those of `Conn/Mgr.lean`; which gids are live is what the manager says.

`close_ipc_client_fd` and `ipc_client_to_connect` call each other, so both take the depth of such
calls as fuel. A connection that cannot be set up is closed before it is in any map, hence the
inner call closes without dialling: `Ok.closeIpcClientFd` says that more fuel makes no
difference.

The kernel never hands out the number of a file descriptor that is open, so `accept` does not
return that of a connection. Nothing is assumed of the gids.

Left out: the epoll registrations, the traffic records, the tunnel and UDP.

Results:
* `Ok.step`: what a step preserves;
* **`identity_maps`**: in every state reached, the authenticated pairs are mutually inverse, so are
  the maps of the dialled connections, every gid in them and in `m_remote2this_gid` has a
  connection, and no connection is both dialled and accepted.
-/

namespace Avant.Workers

open Avant.Lib Avant.App Avant.Conn Avant.Proto Avant.Socket

/-- How far the set-up of an IPC connection gets behind `alloc_connection`. -/
inductive IpcSetup
  /-- no `ipc_stream_ctx` -/
  | noCtx
  | epollFailed
  /-- `on_create` is called: the answers to what it sends, and whether the hook throws -/
  | ok (sends : List SendResult) (throws : Bool)

/-- What one attempt to dial a peer meets. -/
structure Dial where
  /-- of `client_socket` -/
  fd : Int := -1
  /-- of `other_gen_gid` -/
  gid : Nat := 0
  /-- the slot that `unused_set` gives -/
  it : Nat := 0
  setup : IpcSetup := .noCtx

/-- The bytes of packages. -/
structure IpcCodec (π : Type) where
  /-- `pack_package` -/
  pack : IpcPackage π → Bytes
  /-- `ProtoPackage::ParseFromArray` -/
  parse : ParseFromArray (IpcPackage π)

/-- `PROTO_CMD_IPC_STREAM_AUTH_HANDSHAKE` -/
def ipcStreamAuthHandshake : Int := 9

/-- The packages as protobuf writes them. -/
def ipcCodec : IpcCodec ProtoPackage where
  pack
    | .handshake info =>
      packPackage (serializePackage ⟨ipcStreamAuthHandshake, bytesField 0x0a (info.getD [])⟩)
    | .message p => packPackage (serializePackage p)
  parse data size :=
    if size < 0 then none
    else
      (parsePackage (data.take size.toNat)).map fun p =>
        if p.cmd = ipcStreamAuthHandshake then
          .handshake ((readBytesField 0x0a p.protocol).map Prod.fst)
        else .message p

/-- An event of an IPC connection. -/
structure IpcEvent (π : Type) extends Event where
  /-- the answers to the sends of the packages that are answered, one list for each package -/
  replies : List (List SendResult) := []
  /-- whether `on_recv_package` throws -/
  throws : IpcPackage π → Bool := fun _ => false
  /-- what dialling meets, if the connection is closed -/
  dials : List Dial := []

/-- The other thread. -/
structure OtherThread where
  tunnelFd : Int
  /-- the app ids of `ipc_json` -/
  ipcJson : List AppId
  ids : Other
  /-- `ipc_connection_mgr` -/
  mgr : ConnMgr
  /-- the live gids are those of the manager -/
  live : ∀ gid, ids.live gid = (mgr.getConnByGid gid).isSome

namespace OtherThread

variable {π : Type}

/-- The connections and the maps become others. -/
def update (s : OtherThread) (mgr : ConnMgr) (ids : Other) : OtherThread :=
  ⟨s.tunnelFd, s.ipcJson, ids.withLive fun gid => (mgr.getConnByGid gid).isSome, mgr, fun _ => rfl⟩

/-- The maps change. -/
def setIds (ids : Other) (s : OtherThread) : OtherThread := s.update s.mgr ids

/-- The connection at place `i`. -/
def conn (s : OtherThread) (i : Nat) : Connection := (s.mgr.pool i).conn

/-- The connection at place `i` changes. -/
def modify (i : Nat) (f : Connection → Connection) (s : OtherThread) : OtherThread :=
  s.update (s.mgr.setConn i (f (s.conn i))) s.ids

/-- `ipc_stream_ctx::send_data`, with `flush` at its default. -/
def sendData (i : Nat) (data : Bytes) (sends : List SendResult) : OtherThread → OtherThread :=
  modify i fun c => (c.sendData data true sends).1

/-- `on_new_connection_remote2this` and `on_new_connection_this2remote`: the side that accepted
says who it is. -/
def onNewConnection (C : IpcCodec π) (i : Nat) (gid : Gid) (sends : List SendResult)
    (s : OtherThread) : OtherThread :=
  if s.ids.isRemote2this gid then s.sendData i (C.pack s.ids.whoami) sends else s

/-- `ipc_stream_ctx::on_create`. -/
def onCreate (C : IpcCodec π) (i : Nat) (gid : Gid) (sends : List SendResult) (throws : Bool)
    (s : OtherThread) : OtherThread :=
  let s := (s.modify i Connection.markReady).onNewConnection C i gid sends
  if throws then s.modify i Connection.markClose else s

/-- `alloc_connection`. -/
def alloc (fd : Int) (gid it : Nat) (s : OtherThread) : OtherThread :=
  s.update (s.mgr.allocConnection fd gid it).2 s.ids

/-- The loop of `ipc_client_to_connect`; `close` is `close_ipc_client_fd`. -/
def connectLoop (C : IpcCodec π) (close : Int → OtherThread → OtherThread) :
    List AppId → List Dial → OtherThread → OtherThread
  | [], _, s => s
  | appId :: items, dials, s =>
    let d := dials.headD {}
    let next := connectLoop C close items dials.tail
    if appId = s.ids.appId then next s
    else if (s.ids.this2remoteAppid2gid appId).isSome then next s
    else if d.fd ≤ 0 then next s
    else if (s.mgr.allocConnection d.fd d.gid d.it).1 ≠ 0 then next s
    else
      match d.setup with
      | .noCtx | .epollFailed => next (close d.fd (s.alloc d.fd d.gid d.it))
      | .ok sends throws =>
        let s := s.alloc d.fd d.gid d.it
        let s := s.setIds (s.ids.addThis2remote appId d.gid)
        next (s.onCreate C d.it d.gid sends throws)

/-- `other::close_ipc_client_fd`, with calls of it and of `ipc_client_to_connect` nested `depth`
deep at most. -/
def closeIpcClientFd (C : IpcCodec π) : Nat → List Dial → Int → OtherThread → OtherThread
  | 0, _, _, s => s
  | depth + 1, dials, fd, s =>
    match s.mgr.gidOf fd with
    | none => s
    | some gid =>
      let s := s.update (s.mgr.releaseConnection fd).2 s.ids
      let s :=
        if s.ids.isThis2remote gid then
          let s := s.setIds (s.ids.eraseThis2remote gid)
          connectLoop C (closeIpcClientFd C depth []) s.ipcJson dials s
        else s
      s.setIds (s.ids.eraseRemote2this gid)

/-- The calls are nested no deeper. -/
def depth : Nat := 2

/-- `other::ipc_client_to_connect`. -/
def ipcClientToConnect (C : IpcCodec π) (dials : List Dial) (s : OtherThread) : OtherThread :=
  connectLoop C (closeIpcClientFd C depth []) s.ipcJson dials s

/-- `other::on_new_ipc_client_fd`. -/
def onNewIpcClientFd (C : IpcCodec π) (fd : Int) (gid it : Nat) (setup : IpcSetup)
    (s : OtherThread) : OtherThread :=
  if fd < 0 then s
  else if (s.mgr.allocConnection fd gid it).1 ≠ 0 then s.closeIpcClientFd C depth [] fd
  else
    let s := s.alloc fd gid it
    match setup with
    | .noCtx | .epollFailed => closeIpcClientFd C depth [] fd s
    | .ok sends throws =>
      let s := s.setIds (s.ids.addRemote2this gid)
      s.onCreate C it gid sends throws

/-! ### Events -/

/-- What `on_recv_package` sends back, which is one package at most. -/
def answer (C : IpcCodec π) (i : Nat) (qs : List (IpcPackage π)) (sends : List SendResult)
    (s : OtherThread) : OtherThread :=
  match qs with
  | [] => s
  | q :: _ => s.sendData i (C.pack q) sends

/-- `other_app::on_recv_package` for each of the packages of an event. -/
def recvPackages (C : IpcCodec π) (gid : Gid) (i : Nat) :
    List (IpcPackage π) → List (List SendResult) → OtherThread → OtherThread
  | [], _, s => s
  | p :: ps, replies, s =>
    let r := s.ids.onRecvPackage gid p
    let s := s.setIds r.1
    recvPackages C gid i ps replies.tail (s.answer C i r.2.1 (replies.headD []))

/-- `other_app::on_process_connection`, when there is something in the receive buffer; `true` when
it threw. Every package takes bytes off the buffer, so as many turns as there are bytes are
enough. -/
def processStep (C : IpcCodec π) (gid : Gid) (i : Nat) (ev : IpcEvent π) (s : OtherThread) :
    OtherThread × Bool :=
  let c := s.conn i
  if c.recvBuffer = [] then (s, false)
  else if c.recvBuffer.length > 2048000 then (s.modify i Connection.markClose, false)
  else
    let r := frameLoop (otherFrameStep C.parse) ev.throws c.recvBuffer.length c.recvBuffer
    let s := s.modify i (Connection.setRecvBuffer r.2.1)
    (recvPackages C gid i r.1 ev.replies s, r.2.2 = .threw)

/-- `ipc_stream_ctx::on_event` behind its close branch: read, process, write. -/
def readProcessWrite (C : IpcCodec π) (gid : Gid) (i : Nat) (ev : IpcEvent π) (s : OtherThread) :
    OtherThread :=
  match if ev.read then recvLoop 10240 ev.recvs [] else some [] with
  | none => s.modify i Connection.markClose
  | some bytes =>
    let r := processStep C gid i ev
      (s.modify i fun c => c.setRecvBuffer (c.recvBuffer ++ bytes))
    if r.2 then r.1.modify i Connection.markClose
    else if ev.write then r.1.modify i (Connection.trySendFlush ev.sends)
    else r.1

/-- `other::on_ipc_client_event`, with `ipc_stream_ctx::on_event`. -/
def onIpcClientEvent (C : IpcCodec π) (fd : Int) (ev : IpcEvent π) (s : OtherThread) :
    OtherThread :=
  match s.mgr.getConn fd with
  | none => s.closeIpcClientFd C depth [] fd
  | some i =>
    let gid := (s.mgr.pool i).gid
    if ev.err || (s.conn i).isClose then
      let s := if (s.conn i).isReady then s.setIds (s.ids.onCloseConnection gid) else s
      s.closeIpcClientFd C depth ev.dials fd
    else s.readProcessWrite C gid i ev

/-! ### Runs -/

/-- What the thread does. -/
inductive Label (π : Type)
  /-- `ipc_client_to_connect`, at the start of the thread -/
  | connect (dials : List Dial)
  | accept (fd : Int) (gid it : Nat) (setup : IpcSetup)
  | event (fd : Int) (ev : IpcEvent π)
  /-- `other_lua_send_ipc_package` -/
  | send (appId : AppId) (p : IpcPackage π) (sends : List SendResult)

/-- One step. `accept` does not return the number of a file descriptor that is open. -/
def step (C : IpcCodec π) (s : OtherThread) : Label π → Option OtherThread
  | .connect dials => some (s.ipcClientToConnect C dials)
  | .accept fd gid it setup =>
    if fd ∉ s.mgr.fd2gid then some (s.onNewIpcClientFd C fd gid it setup) else none
  | .event fd ev => if fd ≠ s.tunnelFd then some (s.onIpcClientEvent C fd ev) else none
  | .send appId p sends =>
    match s.ids.otherLuaSendIpcPackage appId with
    | none => some s
    | some gid =>
      match s.mgr.getConnByGid gid with
      | none => some s
      | some i => some (s.sendData i (C.pack p) sends)

/-- A thread that has its tunnel, with gid 0, and no peer. -/
def start (appId : AppId) (ipcJson : List AppId) (poolCapacity : Nat) (tunnelFd : Int)
    (it : Fin (poolCapacity + 1)) : OtherThread :=
  let mgr := ((ConnMgr.init poolCapacity).allocConnection tunnelFd 0 it).2
  ⟨tunnelFd, ipcJson, { appId := appId, live := fun gid => (mgr.getConnByGid gid).isSome }, mgr,
    fun _ => rfl⟩

/-! ## The maps and the connections -/

variable {C : IpcCodec π} {n : Nat} {new : Option Int} {s s' : OtherThread} {fd : Int} {gid i : Nat}

/-- The maps are consistent, and every connection is ready, but for the tunnel's and perhaps one
that is being set up. -/
structure Ok (n : Nat) (new : Option Int) (s : OtherThread) : Prop where
  mgr : s.mgr.Ok n
  ids : s.ids.Consistent
  ready : ∀ fd c, fd ≠ s.tunnelFd → some fd ≠ new → s.mgr.connOf fd = some c → c.isReady = true

variable {ids : Other} {it : Nat}

theorem update_ids {mgr : ConnMgr} (h : ∀ gid, ids.live gid = (mgr.getConnByGid gid).isSome) :
    (s.update mgr ids).ids = ids := by
  have hlive : (fun gid => (mgr.getConnByGid gid).isSome) = ids.live := funext fun gid => (h gid).symm
  show ids.withLive (fun gid => (mgr.getConnByGid gid).isSome) = ids
  rw [hlive]
  rfl

theorem setIds_ids (h : ids.live = s.ids.live) : (s.setIds ids).ids = ids :=
  update_ids fun gid => by rw [h, s.live]

@[simp] theorem modify_ids (i : Nat) (f : Connection → Connection) (s : OtherThread) :
    (s.modify i f).ids = s.ids := update_ids s.live

theorem Ok.setIds (h : Ok n new s) (hids : ids.Consistent) (hlive : ids.live = s.ids.live) :
    Ok n new (s.setIds ids) :=
  ⟨h.mgr, (setIds_ids hlive).symm ▸ hids, h.ready⟩

/-- A gid that some connection has is live. -/
theorem Ok.live_of_gidOf (h : Ok n new s) (hgid : s.mgr.gidOf fd = some gid) :
    s.ids.live gid = true := by
  rw [s.live]
  exact (h.mgr.getConnByGid_isSome gid).mpr ⟨fd, hgid⟩

/-- A connection changes and stays ready if it was. -/
theorem Ok.modify (h : Ok n new s) (hi : s.mgr.getConn fd = some i) {f : Connection → Connection}
    (hf : ∀ c, c.isReady = true → (f c).isReady = true) : Ok n new (s.modify i f) := by
  refine ⟨h.mgr.setConn i _, (modify_ids i f s).symm ▸ h.ids, fun fd' c htunnel hnew hconn => ?_⟩
  have hconn : (s.mgr.setConn i (f (s.conn i))).connOf fd' = some c := hconn
  rw [h.mgr.connOf_setConn hi] at hconn
  split at hconn
  · rename_i heq
    subst heq
    cases hconn
    exact hf _ (h.ready fd' _ htunnel hnew (by rw [ConnMgr.connOf, hi]; rfl))
  · exact h.ready fd' c htunnel hnew hconn

/-- `set_is_ready(true)` of the connection that is being set up. -/
theorem Ok.markReady (h : Ok n (some fd) s) (hi : s.mgr.getConn fd = some i) :
    Ok n none (s.modify i Connection.markReady) := by
  have h' := h.modify hi (f := Connection.markReady) fun _ _ => rfl
  refine ⟨h'.mgr, h'.ids, fun fd' c htunnel _ hconn => ?_⟩
  by_cases heq : fd' = fd
  · have hconn' : (s.mgr.setConn i (s.conn i).markReady).connOf fd' = some c := hconn
    rw [h.mgr.connOf_setConn hi, if_pos heq] at hconn'
    exact Option.some.inj hconn' ▸ rfl
  · exact h'.ready fd' c htunnel (by simpa using heq) hconn

theorem isReady_sendData (data : Bytes) (sends : List SendResult) (c : Connection) :
    (c.sendData data true sends).1.isReady = c.isReady := by
  unfold Connection.sendData
  split_ifs <;> rfl

theorem Ok.sendData (h : Ok n new s) (hi : s.mgr.getConn fd = some i) (data : Bytes)
    (sends : List SendResult) : Ok n new (s.sendData i data sends) :=
  h.modify hi fun c hc => (isReady_sendData data sends c).trans hc

theorem Ok.markClose (h : Ok n new s) (hi : s.mgr.getConn fd = some i) :
    Ok n new (s.modify i Connection.markClose) := h.modify hi fun _ hc => hc

/-- `on_create` makes a connection ready. -/
theorem Ok.onCreate (h : Ok n (some fd) s) (hi : s.mgr.getConn fd = some i) (sends : List SendResult)
    (throws : Bool) : Ok n none (s.onCreate C i gid sends throws) := by
  have hready := h.markReady hi
  have hnew : Ok n none ((s.modify i Connection.markReady).onNewConnection C i gid sends) ∧
      ((s.modify i Connection.markReady).onNewConnection C i gid sends).mgr.getConn fd = some i := by
    unfold onNewConnection
    split
    · exact ⟨hready.sendData hi _ sends, hi⟩
    · exact ⟨hready, hi⟩
  unfold OtherThread.onCreate
  simp only
  split
  · exact hnew.1.markClose hnew.2
  · exact hnew.1

/-- A new connection is in no map. -/
structure Unlisted (gid : Gid) (ids : Other) : Prop where
  authenticated : ids.gid2appid gid = none
  dialled : ids.this2remoteGid2appid gid = none
  accepted : ids.remote2thisGid gid = false

/-- `alloc_connection` succeeds. -/
theorem Ok.alloc (h : Ok n none s) (hcode : (s.mgr.allocConnection fd gid it).1 = 0) :
    Ok n (some fd) (s.alloc fd gid it) ∧ (s.alloc fd gid it).mgr.getConn fd = some it ∧
      (s.alloc fd gid it).mgr.gidOf fd = some gid ∧ Unlisted gid (s.alloc fd gid it).ids := by
  have hnot : s.ids.live gid = false := by
    cases hlive : s.ids.live gid with
    | false => rfl
    | true =>
      rw [s.live, h.mgr.getConnByGid_isSome] at hlive
      obtain ⟨fd', hfd'⟩ := hlive
      rw [h.mgr.gidOf_eq, h.mgr.inverse, ConnMgr.Ok.alloc_gid2fd hcode] at hfd'
      simp at hfd'
  obtain ⟨hauth, hdial, hacc⟩ := h.ids.of_not_live hnot
  refine ⟨⟨(h.mgr.alloc fd gid it).1, h.ids.mono fun g hg => ?_, fun fd' c htunnel hne hconn => ?_⟩,
    (h.mgr.getConn_alloc hcode fd).trans (if_pos rfl),
    (h.mgr.gidOf_alloc hcode fd).trans (if_pos rfl), hauth, hdial, hacc⟩
  · show ((s.mgr.allocConnection fd gid it).2.getConnByGid g).isSome = true
    rw [ConnMgr.Ok.getConnByGid_alloc hcode]
    split
    · rfl
    · rwa [← s.live]
  · have hconn : (s.mgr.allocConnection fd gid it).2.connOf fd' = some c := hconn
    rw [h.mgr.connOf_alloc hcode, if_neg (by simpa using hne)] at hconn
    exact h.ready fd' c htunnel (by simp) hconn

/-! ### The maps of `OtherApp.lean`

Where nothing fails, a connection changes the maps as the functions of the same names there do. -/

@[simp] theorem onCreate_ids (s : OtherThread) (sends : List SendResult) (throws : Bool) :
    (s.onCreate C i gid sends throws).ids = s.ids := by
  unfold OtherThread.onCreate onNewConnection OtherThread.sendData
  simp only
  split_ifs <;> simp

theorem alloc_ids (hcode : (s.mgr.allocConnection fd gid it).1 = 0) :
    (s.alloc fd gid it).ids = s.ids.withLive (Function.update s.ids.live gid true) := by
  have hlive : (fun g => ((s.mgr.allocConnection fd gid it).2.getConnByGid g).isSome) =
      Function.update s.ids.live gid true := by
    funext g
    rw [ConnMgr.Ok.getConnByGid_alloc hcode]
    by_cases hg : g = gid
    · simp [hg]
    · simp [hg, s.live]
  show s.ids.withLive (fun g => ((s.mgr.allocConnection fd gid it).2.getConnByGid g).isSome) = _
  rw [hlive]

/-- A connection that is accepted. -/
theorem onNewIpcClientFd_ids (hfd : 0 ≤ fd) (hcode : (s.mgr.allocConnection fd gid it).1 = 0)
    (sends : List SendResult) (throws : Bool) :
    (s.onNewIpcClientFd C fd gid it (.ok sends throws)).ids =
      (s.ids.onNewIpcClientFd gid : Other × List (IpcPackage π)).1 := by
  unfold OtherThread.onNewIpcClientFd
  rw [if_neg (by omega), if_neg (not_not.mpr hcode)]
  have hlive : ((s.alloc fd gid it).ids.addRemote2this gid).live = (s.alloc fd gid it).ids.live := rfl
  simp only [onCreate_ids]
  rw [setIds_ids hlive, alloc_ids hcode]
  rfl

/-- A turn of the loop over the peers: one that is skipped there is skipped here, one that is dialled
there changes the maps here. -/
theorem connectLoop_ids {close : Int → OtherThread → OtherThread} {appId : AppId}
    {items : List AppId} {d : Dial} {dials : List Dial} {sends : List SendResult} {throws : Bool}
    (hfd : 0 < d.fd) (hcode : (s.mgr.allocConnection d.fd d.gid d.it).1 = 0)
    (hsetup : d.setup = .ok sends throws) :
    ∃ t, connectLoop C close (appId :: items) (d :: dials) s = connectLoop C close items dials t ∧
      t.ids = (s.ids.ipcClientToConnect appId d.gid).getD s.ids := by
  rw [connectLoop, Other.ipcClientToConnect]
  simp only [List.headD_cons, List.tail_cons, if_neg (Int.not_le.mpr hfd), hcode, ne_eq,
    not_true_eq_false, if_false, hsetup]
  split_ifs
  · exact ⟨s, rfl, rfl⟩
  · exact ⟨s, rfl, rfl⟩
  · refine ⟨_, rfl, ?_⟩
    have hlive : ((s.alloc d.fd d.gid d.it).ids.addThis2remote appId d.gid).live =
        (s.alloc d.fd d.gid d.it).ids.live := rfl
    rw [onCreate_ids, setIds_ids hlive, alloc_ids hcode]
    rfl

/-! ### Steps -/

/-- `release_connection`, with the maps as `close_ipc_client_fd` leaves them. -/
theorem Ok.release (h : Ok n new s) (hnew : new = none ∨ new = some fd)
    (hgid : s.mgr.gidOf fd = some gid) (hauth : s.ids.gid2appid gid = none) :
    Ok n none (s.update (s.mgr.releaseConnection fd).2
      ((s.ids.eraseThis2remote gid).eraseRemote2this gid)) := by
  refine ⟨(h.mgr.release fd).1, h.ids.close hauth fun g hg => ?_, fun fd' c htunnel _ hconn => ?_⟩
  · rw [h.mgr.getConnByGid_release hgid, if_neg hg, s.live]
  · have hconn : (s.mgr.releaseConnection fd).2.connOf fd' = some c := hconn
    by_cases heq : fd' = fd
    · have hnone := (h.mgr.gidOf_release fd fd').trans (if_pos heq)
      have : (s.mgr.releaseConnection fd).2.connOf fd' = none := by
        simpa [ConnMgr.gidOf, ConnMgr.connOf] using hnone
      simp [this] at hconn
    · rw [h.mgr.connOf_release hgid heq] at hconn
      refine h.ready fd' c htunnel ?_ hconn
      rcases hnew with rfl | rfl
      · simp
      · simpa using heq

/-- A connection that was not dialled is closed, and nothing is dialled. -/
theorem closeIpcClientFd_undialled (hgid : s.mgr.gidOf fd = some gid)
    (hdial : s.ids.this2remoteGid2appid gid = none) (depth : Nat) (dials : List Dial) :
    closeIpcClientFd C (depth + 1) dials fd s =
      s.update (s.mgr.releaseConnection fd).2
        ((s.ids.eraseThis2remote gid).eraseRemote2this gid) := by
  rw [Other.eraseThis2remote_of_none hdial]
  unfold closeIpcClientFd
  simp only [hgid]
  rw [if_neg (by simp [Other.isThis2remote, OtherThread.update, Other.withLive, hdial])]
  rfl

/-- A connection that was dialled is closed, and the peers are dialled again. -/
theorem closeIpcClientFd_dialled (h : s.ids.Consistent) (hgid : s.mgr.gidOf fd = some gid)
    {appId : AppId} (hdial : s.ids.this2remoteGid2appid gid = some appId) (depth : Nat)
    (dials : List Dial) :
    closeIpcClientFd C (depth + 1) dials fd s =
      let s := connectLoop C (closeIpcClientFd C depth []) s.ipcJson dials
        (s.update (s.mgr.releaseConnection fd).2
          ((s.ids.eraseThis2remote gid).eraseRemote2this gid))
      s.setIds (s.ids.eraseRemote2this gid) := by
  have hacc : (s.ids.eraseThis2remote gid).remote2thisGid gid = false := by
    have := h.disjoint gid appId hdial
    simpa [Other.eraseThis2remote, hdial] using this
  rw [Other.eraseRemote2this_of_false hacc]
  conv_lhs => unfold closeIpcClientFd
  simp only [hgid]
  rw [if_pos (by simp [Other.isThis2remote, OtherThread.update, Other.withLive, hdial])]
  simp only [OtherThread.setIds, OtherThread.update, Other.eraseThis2remote_withLive]
  rfl

/-- **Dialling** keeps the maps in step, where a connection that cannot be set up is closed as
one that was not dialled; how else `close` goes on does not matter. -/
theorem Ok.connectLoop {close close' : Int → OtherThread → OtherThread}
    (hclose : ∀ {s : OtherThread} {fd gid}, Ok n (some fd) s → s.mgr.gidOf fd = some gid →
      Unlisted gid s.ids → Ok n none (close fd s) ∧ close' fd s = close fd s) :
    ∀ (items : List AppId) (dials : List Dial) {s : OtherThread}, Ok n none s →
      Ok n none (connectLoop C close items dials s) ∧
        connectLoop C close' items dials s = connectLoop C close items dials s
  | [], _, _, h => ⟨h, rfl⟩
  | appId :: items, dials, s, h => by
    have ih : ∀ {s : OtherThread}, Ok n none s →
        Ok n none (OtherThread.connectLoop C close items dials.tail s) ∧
          OtherThread.connectLoop C close' items dials.tail s =
            OtherThread.connectLoop C close items dials.tail s :=
      fun h => Ok.connectLoop hclose items dials.tail h
    unfold OtherThread.connectLoop
    simp only
    split
    · exact ih h
    · split
      · exact ih h
      · rename_i happ
        split
        · exact ih h
        · split
          · exact ih h
          · rename_i hcode
            obtain ⟨hok, hconn, hgid, hun⟩ := h.alloc (not_not.mp hcode)
            obtain ⟨hclosed, heq⟩ := hclose hok hgid hun
            split
            · rw [heq]
              exact ih hclosed
            · rw [heq]
              exact ih hclosed
            · rename_i sends throws _
              have hlive := hok.live_of_gidOf hgid
              have hids := hok.ids.addThis2remote hlive hun.dialled hun.accepted
                (Option.not_isSome_iff_eq_none.mp happ)
              exact ih ((hok.setIds hids rfl).onCreate hconn sends throws)

/-- A connection that cannot be set up is closed, at whatever depth. -/
theorem Ok.close_unlisted (h : Ok n (some fd) s) (hgid : s.mgr.gidOf fd = some gid)
    (hun : Unlisted gid s.ids) (k k' : Nat) (dials dials' : List Dial) :
    Ok n none (OtherThread.closeIpcClientFd C (k + 1) dials fd s) ∧
      OtherThread.closeIpcClientFd C (k' + 1) dials' fd s =
        OtherThread.closeIpcClientFd C (k + 1) dials fd s := by
  rw [closeIpcClientFd_undialled hgid hun.dialled, closeIpcClientFd_undialled hgid hun.dialled]
  exact ⟨h.release (.inr rfl) hgid hun.authenticated, rfl⟩

/-- **Closing** keeps the maps in step, when the connection is no longer authenticated; deeper
calls make no difference. -/
theorem Ok.closeIpcClientFd (h : Ok n none s)
    (hauth : ∀ gid, s.mgr.gidOf fd = some gid → s.ids.gid2appid gid = none) (dials : List Dial) :
    Ok n none (s.closeIpcClientFd C depth dials fd) ∧
      ∀ k, s.closeIpcClientFd C (depth + k) dials fd = s.closeIpcClientFd C depth dials fd := by
  cases hgid : s.mgr.gidOf fd with
  | none =>
    have heq : ∀ k, s.closeIpcClientFd C (k + 1) dials fd = s := fun k => by
      rw [OtherThread.closeIpcClientFd, hgid]
    exact ⟨(heq 1).symm ▸ h, fun k => by
      rw [show depth + k = k + 1 + 1 by rw [depth]; omega, heq]
      exact (heq 1).symm⟩
  | some gid =>
    have hrel := h.release (.inl rfl) hgid (hauth gid hgid)
    cases hdial : s.ids.this2remoteGid2appid gid with
    | none =>
      have heq : ∀ k, s.closeIpcClientFd C (k + 1) dials fd = _ := fun k =>
        closeIpcClientFd_undialled hgid hdial k dials
      exact ⟨(heq 1).symm ▸ hrel, fun k => by
        rw [show depth + k = k + 1 + 1 by rw [depth]; omega, heq]
        exact (heq 1).symm⟩
    | some appId =>
      let s₁ := s.update (s.mgr.releaseConnection fd).2
        ((s.ids.eraseThis2remote gid).eraseRemote2this gid)
      have hloop : ∀ k, Ok n none (OtherThread.connectLoop C (OtherThread.closeIpcClientFd C 1 [])
            s.ipcJson dials s₁) ∧
          OtherThread.connectLoop C (OtherThread.closeIpcClientFd C (k + 1) []) s.ipcJson dials s₁ =
            OtherThread.connectLoop C (OtherThread.closeIpcClientFd C 1 []) s.ipcJson dials s₁ :=
        fun k => Ok.connectLoop (fun hok hgid hun => hok.close_unlisted hgid hun 0 k [] []) s.ipcJson
          dials hrel
      have heq : ∀ k, s.closeIpcClientFd C (k + 1 + 1) dials fd = _ := fun k => by
        rw [closeIpcClientFd_dialled h.ids hgid hdial, (hloop k).2]
      refine ⟨?_, fun k => ?_⟩
      · rw [depth, heq 0]
        exact (hloop 0).1.setIds ((hloop 0).1.ids.eraseRemote2this gid) rfl
      · rw [show depth + k = k + 1 + 1 by rw [depth]; omega, heq]
        exact (heq 0).symm

/-- **Accepting** keeps the maps in step. -/
theorem Ok.onNewIpcClientFd (h : Ok n none s) (hfd : s.mgr.gidOf fd = none) (gid it : Nat)
    (setup : IpcSetup) : Ok n none (s.onNewIpcClientFd C fd gid it setup) := by
  unfold OtherThread.onNewIpcClientFd
  split
  · exact h
  · split
    · exact (h.closeIpcClientFd (by simp [hfd]) []).1
    · rename_i hcode
      obtain ⟨hok, hconn, hgid, hun⟩ := h.alloc (not_not.mp hcode)
      have hclose : Ok n none ((s.alloc fd gid it).closeIpcClientFd C depth [] fd) :=
        (hok.close_unlisted hgid hun 1 1 [] []).1
      cases setup with
      | noCtx => exact hclose
      | epollFailed => exact hclose
      | ok sends throws =>
        have hids := hok.ids.addRemote2this (hok.live_of_gidOf hgid) hun.dialled
        exact (hok.setIds hids rfl).onCreate hconn sends throws

/-! ### Events -/

theorem onRecvPackage_live (ids : Other) (gid : Gid) (p : IpcPackage π) :
    (ids.onRecvPackage gid p).1.live = ids.live := by
  cases p with
  | handshake info =>
    cases info with
    | none => rfl
    | some appId =>
      show (ids.authenticate appId gid).live = ids.live
      unfold Other.authenticate
      split_ifs <;> rfl
  | message p =>
    unfold Other.onRecvPackage
    simp only
    split <;> rfl

/-- The packages of an event, on a connection that is there. -/
theorem Ok.recvPackages :
    ∀ (ps : List (IpcPackage π)) (replies : List (List SendResult)) {s' : OtherThread},
      Ok n none s' → s'.mgr.getConn fd = some i → s'.mgr.gidOf fd = some gid →
      Ok n none (recvPackages C gid i ps replies s') ∧
        (recvPackages C gid i ps replies s').mgr.getConn fd = some i
  | [], _, _, h, hi, _ => ⟨h, hi⟩
  | p :: ps, replies, s', h, hi, hgid' => by
    have hset := h.setIds (h.ids.onRecvPackage (h.live_of_gidOf hgid') p)
      (onRecvPackage_live s'.ids gid p)
    unfold OtherThread.recvPackages
    refine Ok.recvPackages ps replies.tail ?_ ?_ ?_
    all_goals
      unfold answer
      split
    · exact hset
    · exact hset.sendData hi _ _
    · exact hi
    · exact hi
    · exact hgid'
    · exact (ConnMgr.gidOf_setConn _ i _ fd).trans hgid'

/-- The loop of `on_process_connection` ends by itself, if `ParseFromArray` refuses a negative size:
more turns change nothing. -/
theorem processStep_turns (C : IpcCodec π) (hparse : ∀ data size, size < 0 → C.parse data size = none)
    (throws : IpcPackage π → Bool) (buf : Bytes) {m : Nat} (hm : buf.length ≤ m) :
    frameLoop (otherFrameStep C.parse) throws m buf =
      frameLoop (otherFrameStep C.parse) throws buf.length buf :=
  frameLoop_turns (fun h => otherFrameStep_shorter hparse h) m buf.length hm le_rfl

/-- A package, and a size of 2⁶⁴ - 1, to which the eight bytes of the header are added. -/
theorem processStep_turns_wrapped :
    let buf := ipcCodec.pack (.handshake (some (ascii "B"))) ++ List.replicate 8 255
    frameLoop (otherFrameStep ipcCodec.parse) (fun _ => false) 99 buf =
        frameLoop (otherFrameStep ipcCodec.parse) (fun _ => false) buf.length buf ∧
      (frameLoop (otherFrameStep ipcCodec.parse) (fun _ => false) 99 buf).1 =
        [.handshake (some (ascii "B"))] :=
  ⟨processStep_turns ipcCodec (fun _ _ h => if_pos h) _ _ (by decide +kernel), by decide +kernel⟩

/-- **An event** that does not close its connection. -/
theorem Ok.readProcessWrite (h : Ok n none s) (hi : s.mgr.getConn fd = some i)
    (hgid : s.mgr.gidOf fd = some gid) (ev : IpcEvent π) :
    Ok n none (s.readProcessWrite C gid i ev) := by
  have hprocess : ∀ {s' : OtherThread}, Ok n none s' → s'.mgr.getConn fd = some i →
      s'.mgr.gidOf fd = some gid → Ok n none (processStep C gid i ev s').1 ∧
        (processStep C gid i ev s').1.mgr.getConn fd = some i := by
    intro s' h' hi' hgid'
    unfold processStep
    simp only
    split
    · exact ⟨h', hi'⟩
    · split
      · exact ⟨h'.markClose hi', hi'⟩
      · exact Ok.recvPackages _ _ (h'.modify hi' fun _ hc => hc) hi'
          ((ConnMgr.gidOf_setConn _ i _ fd).trans hgid')
  unfold OtherThread.readProcessWrite
  split
  · exact h.markClose hi
  · rename_i bytes _
    obtain ⟨hok, hi'⟩ := hprocess
      (h.modify hi (f := fun c => c.setRecvBuffer (c.recvBuffer ++ bytes)) fun _ hc => hc) hi
      ((ConnMgr.gidOf_setConn _ i _ fd).trans hgid)
    simp only
    split_ifs
    · exact hok.markClose hi'
    · exact hok.modify hi' fun _ hc => hc
    · exact hok

/-- **An event** keeps the maps in step. -/
theorem Ok.onIpcClientEvent (h : Ok n none s) (hfd : fd ≠ s.tunnelFd) (ev : IpcEvent π) :
    Ok n none (s.onIpcClientEvent C fd ev) := by
  unfold OtherThread.onIpcClientEvent
  cases hi : s.mgr.getConn fd with
  | none =>
    have hnone : s.mgr.gidOf fd = none := by simp [ConnMgr.gidOf, hi]
    exact (h.closeIpcClientFd (by simp [hnone]) []).1
  | some i =>
    have hgid := ConnMgr.Ok.gidOf_of_getConn hi
    have hready : (s.conn i).isReady = true :=
      h.ready fd _ hfd (by simp) (by rw [ConnMgr.connOf, hi]; rfl)
    simp only [hready, if_true]
    split
    · -- the application forgets the pair of the connection before it is closed
      have hlive : (s.ids.onCloseConnection (s.mgr.pool i).gid).live = s.ids.live := by
        unfold Other.onCloseConnection
        split <;> rfl
      obtain ⟨hids, hauth⟩ := h.ids.onCloseConnection (s.mgr.pool i).gid
      refine ((h.setIds hids hlive).closeIpcClientFd (fun g hg => ?_) _).1
      obtain rfl := Option.some.inj (hgid.symm.trans hg)
      rw [setIds_ids hlive]
      exact hauth
    · exact h.readProcessWrite hi hgid ev

/-- **What a step preserves.** -/
theorem Ok.step (h : Ok n none s) {l : Label π} (hstep : s.step C l = some s') : Ok n none s' := by
  cases l with
  | connect dials =>
    cases hstep
    exact (Ok.connectLoop (fun hok hgid hun => hok.close_unlisted hgid hun 1 1 [] []) s.ipcJson dials
      h).1
  | accept fd gid it setup =>
    obtain ⟨hfd, hs⟩ := Option.ite_none_right_eq_some.mp hstep
    cases hs
    exact h.onNewIpcClientFd ((h.mgr.gidOf_eq fd).trans (AList.lookup_eq_none.mpr hfd)) gid it setup
  | event fd ev =>
    obtain ⟨hfd, hs⟩ := Option.ite_none_right_eq_some.mp hstep
    cases hs
    exact h.onIpcClientEvent hfd ev
  | send appId p sends =>
    unfold OtherThread.step at hstep
    simp only at hstep
    split at hstep
    · cases hstep
      exact h
    · rename_i gid _
      split at hstep
      · cases hstep
        exact h
      · rename_i i hi
        cases hstep
        obtain ⟨fd, hfd⟩ := (h.mgr.getConnByGid_isSome gid).mp (by simp [hi])
        exact h.sendData ((h.mgr.getConn_of_gidOf hfd).trans hi) _ sends

theorem ok_start (appId : AppId) (ipcJson : List AppId) (poolCapacity : Nat) (tunnelFd : Int)
    (it : Fin (poolCapacity + 1)) :
    Ok (poolCapacity + 1) none (start appId ipcJson poolCapacity tunnelFd it) := by
  have hok := ConnMgr.Ok.init poolCapacity
  have hcode := ConnMgr.alloc_init poolCapacity tunnelFd 0 it
  refine ⟨(hok.alloc _ _ _).1, .init appId _, fun fd c htunnel _ hconn => ?_⟩
  have hconn : ((ConnMgr.init poolCapacity).allocConnection tunnelFd 0 it).2.connOf fd = some c :=
    hconn
  rw [hok.connOf_alloc hcode, if_neg (show fd ≠ tunnelFd from htunnel)] at hconn
  simp [ConnMgr.connOf, ConnMgr.getConn, ConnMgr.init] at hconn

/-- What the maps of the other thread promise: each pair of maps is mutually inverse, every gid in
them and in `m_remote2this_gid` belongs to a connection of the manager, and no gid is both among
the dialled and among the accepted ones. -/
structure IdentityMaps (s : OtherThread) : Prop where
  authenticated : ∀ gid appId, s.ids.gid2appid gid = some appId ↔ s.ids.appid2gid appId = some gid
  dialled : ∀ gid appId,
    s.ids.this2remoteGid2appid gid = some appId ↔ s.ids.this2remoteAppid2gid appId = some gid
  authenticatedLive : ∀ gid appId, s.ids.gid2appid gid = some appId →
    ∃ i, s.mgr.getConnByGid gid = some i
  dialledLive : ∀ gid appId, s.ids.this2remoteGid2appid gid = some appId →
    ∃ i, s.mgr.getConnByGid gid = some i
  acceptedLive : ∀ gid, s.ids.remote2thisGid gid = true → ∃ i, s.mgr.getConnByGid gid = some i
  disjoint : ∀ gid, ¬ (s.ids.isThis2remote gid = true ∧ s.ids.isRemote2this gid = true)

theorem Ok.identityMaps (h : Ok n new s) : IdentityMaps s where
  authenticated := h.ids.authenticated
  dialled := h.ids.dialled
  authenticatedLive gid appId hg := by
    have := h.ids.authenticatedLive gid appId hg
    rwa [s.live, Option.isSome_iff_exists] at this
  dialledLive gid appId hg := by
    have := h.ids.dialledLive gid appId hg
    rwa [s.live, Option.isSome_iff_exists] at this
  acceptedLive gid hg := by
    have := h.ids.acceptedLive gid hg
    rwa [s.live, Option.isSome_iff_exists] at this
  disjoint gid hboth := by
    obtain ⟨appId, hdial⟩ := Option.isSome_iff_exists.mp hboth.1
    exact absurd (h.ids.disjoint gid appId hdial) (by simpa [Other.isRemote2this] using hboth.2)

/-- **The identity maps agree with the connections** in every state that connects, accepts,
handshakes with whatever app ids, closes and reconnects lead to. -/
theorem identity_maps (C : IpcCodec π) (appId : AppId) (ipcJson : List AppId) (poolCapacity : Nat)
    (tunnelFd : Int) (it : Fin (poolCapacity + 1)) (ls : List (Label π)) (s : OtherThread)
    (hrun : exec (step C) (start appId ipcJson poolCapacity tunnelFd it) ls = some s) :
    IdentityMaps s :=
  (exec_invariant (fun h _ hstep => h.step hstep)
    (ok_start appId ipcJson poolCapacity tunnelFd it) (along_true ls _) hrun).identityMaps

/-- Process `A` dials `B`, which says who it is. Another connection is accepted and says that it is
`B`, too. The first one breaks and is dialled again. -/
theorem identity_maps_reconnect :
    let hello := ipcCodec.pack (.handshake (some (ascii "B")))
    let ls : List (Label ProtoPackage) := [
      .connect [{}, ⟨7, 1, 1, .ok [] false⟩], .accept 8 2 2 (.ok [] false),
      .event 7 { read := true, recvs := [.data hello] },
      .event 8 { read := true, recvs := [.data hello] },
      .event 7 { err := true, dials := [{}, ⟨7, 3, 1, .ok [] false⟩] }]
    ∃ s, exec (step ipcCodec) (start (ascii "A") [ascii "A", ascii "B"] 4 3 0) ls = some s ∧
      (s.ids.appid2gid (ascii "B") = none ∧ s.ids.this2remoteAppid2gid (ascii "B") = some 3 ∧
        s.ids.isRemote2this 2 = true) ∧ IdentityMaps s := by
  intro hello ls
  exact exists_exec (by decide +kernel) fun s hrun h =>
    ⟨h, identity_maps ipcCodec (ascii "A") [ascii "A", ascii "B"] 4 3 0 ls s hrun⟩

end OtherThread

end Avant.Workers
