import Avant.Conn.Mgr
import Avant.Tunnel.Net

/-!
# Messages from one client to others

Model of `worker::send_client_forward_message` and of the way its messages take: the calling worker
handles its own clients at once (`on_tunnel_process` on a package it makes itself), and gives the main
thread a tunnel package for the other workers; the main thread forwards it
(`server::on_tunnel_process`), and each of them hands it to its clients
(`worker::on_tunnel_process`, `handle_tunnel_client_forward_message`). The maps and the pool of a
worker are the manager of `Conn/Mgr.lean`.

`deliveries` is the way through the tunnels, with every tunnel package delivered once (which
`Delivery.lean` shows of the drained tunnels).

A `std::set<uint64_t>` is the ascending list of its elements (`GidSet`).
-/

namespace Avant.Workers

open Avant.Lib Avant.Proto Avant.Global Avant.Conn Avant.Tunnel

/-- `task::task_type`. -/
inductive TaskType
  | http
  | stream
  | websocket
  | none
  deriving DecidableEq

/-- `std::set<uint64_t>`, in the order of iteration. -/
abbrev GidSet := { l : List Nat // l.Pairwise (· < ·) }

/-- `server::server_gen_gid`: 32 bits of time, 23 bits of `m_gid_seq`, and nine for the worker. -/
def serverGenGid (latestTickTime gidSeq : Nat) : Nat :=
  (latestTickTime <<< 32) % 2 ^ 64 ||| (gidSeq &&& 0x7FFFFF) <<< 9

/-- `real_gid` of `server::on_listen_event`. -/
def realGid (gid targetWorkerIdx : Nat) : Nat := gid ||| targetWorkerIdx

/-- The clients of worker `w` have its index in the low nine bits of their gid, where the main thread
put it when it dispatched them. The worker's end of the tunnel has a slot, too, but no context. -/
def Owned (w : Nat) (m : ConnMgr) : Prop :=
  ∀ gid i, m.gid2index.lookup gid = some i → (m.pool i).hasCtx = true → gid &&& 0x1FF = w

/-- The workers of a process, by index. -/
structure Process where
  workerCnt : Nat
  type : TaskType
  /-- the slots of each pool -/
  slots : Nat
  /-- `worker_connection_mgr` -/
  mgr : Nat → ConnMgr
  ok : ∀ w, (mgr w).Ok slots
  owned : ∀ w < workerCnt, Owned w (mgr w)

/-- A call of `on_client_forward_message`. -/
structure ForwardCall where
  worker : Nat
  /-- the connection, by its place in the worker's pool -/
  index : Nat
  self : Bool
  message : ProtoTunnelClientForwardMessage
  tunnelPackage : ProtoTunnelPackage
  deriving DecidableEq

/-- What `worker::on_tunnel_process` does with a package. -/
inductive TunnelOutcome
  /-- another command, or a message that does not parse -/
  | dropped
  /-- `on_new_client_fd` -/
  | newClient (package : ProtoPackage)
  | clientForward (calls : List ForwardCall)
  /-- the application's `on_worker_tunnel` -/
  | user (tunnelPackage : ProtoTunnelPackage)
  deriving DecidableEq

section Worker

variable (pb : Protobuf) (type : TaskType) (w : Nat) (m : ConnMgr)

/-- The condition under which `handle_tunnel_client_forward_message` calls the application. -/
def takesForward (i : Nat) : Bool :=
  let c := m.pool i
  !(c.conn.closedFlag || c.conn.isClose) &&
    match type with
    | .stream | .websocket => c.conn.isReady && c.hasCtx
    | .http | .none => false

/-- `worker::handle_tunnel_client_forward_message`, for the connection at place `i`. -/
def handleTunnelClientForwardMessage (message : ProtoTunnelClientForwardMessage)
    (tunnelPackage : ProtoTunnelPackage) (i : Nat) : List ForwardCall :=
  if takesForward type m i then
    [⟨w, i, (m.pool i).gid = message.sourceGid, message, tunnelPackage⟩]
  else []

/-- The part of `worker::on_tunnel_process` for `PROTO_CMD_TUNNEL_CLIENT_FORWARD_MESSAGE`. -/
def clientForward (message : ProtoTunnelClientForwardMessage) (tunnelPackage : ProtoTunnelPackage) :
    List ForwardCall :=
  if message.targetGid = [] then
    m.gid2index.entries.flatMap fun e =>
      match m.getConnByIdx e.2 with
      | none => []
      | some i =>
        if (m.pool i).conn.closedFlag || (m.pool i).conn.isClose then []
        else handleTunnelClientForwardMessage type w m message tunnelPackage i
  else
    message.targetGid.flatMap fun gid =>
      if workerTunnelId w ≠ hashGid2workerTunnelId gid then []
      else
        match m.getConnByGid gid with
        | none => []
        | some i => handleTunnelClientForwardMessage type w m message tunnelPackage i

/-- `worker::on_tunnel_process`. -/
def onTunnelProcess (package : ProtoPackage) : TunnelOutcome :=
  match pb.openPackage package with
  | none => .dropped
  | some t =>
    if t.innerProtoPackage.cmd = ProtoCmd.tunnelMain2workerNewClient then .newClient t.innerProtoPackage
    else if t.innerProtoPackage.cmd = ProtoCmd.tunnelClientForwardMessage then
      match pb.clientForward.parse t.innerProtoPackage.protocol with
      | none => .dropped
      | some message => .clientForward (clientForward type w m message t)
    else .user t

/-- The calls of `on_client_forward_message` among what a package leads to. -/
def TunnelOutcome.calls : TunnelOutcome → List ForwardCall
  | .clientForward calls => calls
  | .dropped | .newClient _ | .user _ => []

/-- `pack_package(package, forwardMessage, PROTO_CMD_TUNNEL_CLIENT_FORWARD_MESSAGE)`. -/
def packForward (message : ProtoTunnelClientForwardMessage) : ProtoPackage :=
  ⟨ProtoCmd.tunnelClientForwardMessage, (pb.clientForward.serialize message).getD []⟩

/-- `pack_package(package, tunnelPackage, PROTO_CMD_TUNNEL_PACKAGE)`. -/
def packTunnelPackage (t : ProtoTunnelPackage) : ProtoPackage :=
  ⟨ProtoCmd.tunnelPackage, (pb.tunnel.serialize t).getD []⟩

/-- The branch "inner this worker" of `send_client_forward_message`. -/
def innerThisWorker (message : ProtoTunnelClientForwardMessage) : List ForwardCall :=
  (onTunnelProcess pb type w m (packTunnelPackage pb
    ⟨workerTunnelId w, [workerTunnelId w], packForward pb message⟩)).calls

variable (workerCnt : Nat) (S : UnorderedSet)

/-- `target_tunnel_id`, in the order of its iteration: the gids of each worker. -/
def targetTunnelId (dest : GidSet) : List (Int × List Nat) :=
  (S.toList (dest.1.map hashGid2workerTunnelId)).map fun id =>
    (id, dest.1.filter fun gid => hashGid2workerTunnelId gid = id)

/-- What `send_client_forward_message` does: the code returned, its own calls of
`on_client_forward_message`, and its calls of `tunnel_forward`. -/
structure ForwardResult where
  code : Int
  calls : List ForwardCall := []
  forwards : List (List Int × ProtoPackage) := []

/-- `worker::send_client_forward_message`. -/
def sendClientForwardMessage (sourceGid : Nat) (destConnGid : GidSet) (package : ProtoPackage) :
    ForwardResult :=
  if hashGid2workerTunnelId sourceGid ≠ workerTunnelId w then { code := -1 }
  else if destConnGid.1 = [] then
    let message : ProtoTunnelClientForwardMessage := ⟨sourceGid, [], package⟩
    let others := (workerAllTunnelId workerCnt).filter (· ≠ workerTunnelId w)
    { code := 0
      calls := if workerTunnelId w ∈ workerAllTunnelId workerCnt then
          innerThisWorker pb type w m message
        else []
      forwards := if others = [] then [] else [(others, packForward pb message)] }
  else
    { code := 0
      calls := (targetTunnelId S destConnGid).flatMap fun g =>
        if g.1 = workerTunnelId w then innerThisWorker pb type w m ⟨sourceGid, g.2, package⟩ else []
      forwards := (targetTunnelId S destConnGid).filterMap fun g =>
        if g.1 = workerTunnelId w then none
        else some ([g.1], packForward pb ⟨sourceGid, g.2, package⟩) }

end Worker

/-! ## Through the main thread -/

section Process

variable (pb : Protobuf) (S : UnorderedSet) (P : Process)

/-- What reaches which thread of a call of `tunnel_forward` by thread `id`: the packages they parse
out of their tunnels. -/
def deliveries (id : Int) (dest : List Int) (message : ProtoPackage) : List (Int × ProtoPackage) :=
  if destTunnelIdSet P.workerCnt S dest = [] then []
  else
    match mainTunnelProcess P.workerCnt pb S
        (packTunnelPackage pb ⟨id, destTunnelIdSet P.workerCnt S dest, message⟩) with
    | none => []
    | some (t, all) => all.filterMap fun d =>
        match mainTunnelForward P.workerCnt pb t.sourceTunnelsId d t.innerProtoPackage with
        | .error _ => none
        | .ok _ => some (d, packTunnelPackage pb ⟨t.sourceTunnelsId, [d], t.innerProtoPackage⟩)

/-- The calls of `on_client_forward_message` in the thread with a tunnel id, for a package from its
tunnel. -/
def Process.callsAt (id : Int) (package : ProtoPackage) : List ForwardCall :=
  if isWorkerTunnelId P.workerCnt id then
    let w := (workerIdxByTunnelId id).toNat
    (onTunnelProcess pb P.type w (P.mgr w) package).calls
  else []

/-- All the calls of `on_client_forward_message` that a call of `send_client_forward_message` by worker
`w` leads to. -/
def Process.forwardCalls (w sourceGid : Nat) (destConnGid : GidSet) (package : ProtoPackage) :
    List ForwardCall :=
  let r := sendClientForwardMessage pb P.type w (P.mgr w) P.workerCnt S sourceGid destConnGid package
  r.calls ++ r.forwards.flatMap fun f =>
    (deliveries pb S P (workerTunnelId w) f.1 f.2).flatMap fun x => P.callsAt pb x.1 x.2

end Process

end Avant.Workers
