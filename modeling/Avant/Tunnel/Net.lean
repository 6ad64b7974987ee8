import Avant.Global.TunnelId
import Avant.Lib.Relay
import Avant.Proto.Package

/-!
# The tunnels of a process

Every worker, and the other thread, has a socket pair to the main thread, with a send and a receive
buffer at either end, and the main thread forwards between them. Model of the tunnel code of
`src/server/server.cpp`, `src/workers/worker.cpp` and `src/workers/other.cpp`
(`on_tunnel_event`, `on_tunnel_process`, `try_send_flush_tunnel`, `tunnel_forward`): a thread's buffers
and socket towards the main thread are a `Pipe` (`up`), those towards the thread another (`down`),
both under the thread's tunnel id.

The threads run concurrently, and a step is one operation of one of them: a call of
`tunnel_forward`, a `send` or `recv` that moves some bytes, a turn of a loop that cuts a package out
of a receive buffer. The main thread's turn takes several: `on_tunnel_process` forwards to one
destination after the other, with sends in between, and the frame is removed behind it. A `send` or
`recv` that would block changes nothing and is no step. What a thread does next is left open, so
the runs of `step` include those of the threads as they are written.

Left out: a socket pair that fails or is closed (it stops the process), and epoll.
-/

namespace Avant.Tunnel

open Avant.Lib Avant.Proto Avant.Global

/-- `server::on_tunnel_process` under way, called from `on_tunnel_event`. -/
structure MainTurn where
  /-- whose tunnel the package came from -/
  id : Int
  /-- `sizeof(data_size) + data_size` -/
  size : Nat
  tunnelPackage : ProtoTunnelPackage
  /-- the part of `all_target` not forwarded to yet -/
  todo : List Int
  deriving DecidableEq

/-- The tunnels, by tunnel id. -/
structure Net where
  /-- the thread's send buffer, the socket pair, the main thread's receive buffer -/
  up : Int → Pipe := fun _ => {}
  /-- the main thread's send buffer, the socket pair, the thread's receive buffer -/
  down : Int → Pipe := fun _ => {}
  turn : Option MainTurn := none
  /-- the tunnel packages a thread has processed -/
  processed : Int → List ProtoTunnelPackage := fun _ => []
  /-- the arguments of all calls of `tunnel_forward` by a thread -/
  forwarded : Int → List (List Int × ProtoPackage) := fun _ => []

/-- What happens next. -/
inductive NetLabel
  /-- thread `id` calls `tunnel_forward` -/
  | forward (id : Int) (dest : List Int) (message : ProtoPackage)
  /-- the main thread calls `server::tunnel_forward` in its own name -/
  | mainForward (dest : Int) (message : ProtoPackage)
  /-- `send` takes `n` bytes from thread `id` -/
  | send (id : Int) (n : Nat)
  /-- the main thread receives `n` bytes from thread `id` -/
  | mainRecv (id : Int) (n : Nat)
  /-- the main thread cuts a package out of the receive buffer for thread `id` -/
  | mainFrame (id : Int)
  /-- it forwards the package to the next destination -/
  | mainPass
  /-- it has forwarded the package -/
  | mainDone
  /-- `send` takes `n` bytes for thread `id` from the main thread -/
  | mainSend (id : Int) (n : Nat)
  /-- thread `id` receives `n` bytes -/
  | recv (id : Int) (n : Nat)
  /-- thread `id` cuts a package out of its receive buffer and processes it -/
  | frame (id : Int)

section Functions

variable (workerCnt : Nat) (pb : Protobuf) (S : UnorderedSet)

/-- `dest_tunnel_id_set` of `worker::tunnel_forward` and `other::tunnel_forward`. -/
def destTunnelIdSet (dest : List Int) : List Int :=
  S.toList (dest.filter fun d => mainTunnelId ≠ d && isTunnelId workerCnt d)

/-- `worker::tunnel_forward` and `other::tunnel_forward` in thread `id`: what is appended to the send
buffer, or the error returned. -/
def tunnelForward (id : Int) (dest : List Int) (message : ProtoPackage) : Except Int Bytes :=
  if destTunnelIdSet workerCnt S dest = [] then .error (-1)
  else .ok (pb.packTunnel ⟨id, destTunnelIdSet workerCnt S dest, message⟩)

/-- `server::tunnel_forward`: what is appended to the send buffer for `dest`, or the error returned. -/
def mainTunnelForward (source dest : Int) (message : ProtoPackage) : Except Int Bytes :=
  if isTunnelId workerCnt source = false then .error (-1)
  else if isTunnelId workerCnt dest = false then .error (-2)
  else if hasTunnel workerCnt dest = false then .error (-3)
  else .ok (pb.packTunnel ⟨source, [dest], message⟩)

/-- `all_target` of `server::on_tunnel_process`; `none` when the source is not defined. -/
def allTarget (source : Int) (target : List Int) : Option (List Int) :=
  if source = otherTunnelId then
    if target = [] then some (S.toList (workerAllTunnelId workerCnt))
    else some (S.toList (target.filter fun t => t ≠ mainTunnelId && isWorkerTunnelId workerCnt t))
  else if isWorkerTunnelId workerCnt source then
    if target = [] then some (S.toList (workerAllTunnelId workerCnt))
    else some (S.toList (target.filter fun t =>
      t ≠ mainTunnelId && (t = otherTunnelId || isWorkerTunnelId workerCnt t)))
  else none

/-- `server::on_tunnel_process` up to its last loop: the tunnel package and where it goes. -/
def mainTunnelProcess (p : ProtoPackage) : Option (ProtoTunnelPackage × List Int) :=
  (pb.openPackage p).bind fun t =>
    (allTarget workerCnt S t.sourceTunnelsId t.targetTunnelsId).map fun all => (t, all)

/-! ### Where packages go -/

section Destinations

variable {workerCnt pb S}

theorem mem_destTunnelIdSet {dest : List Int} {d : Int} :
    d ∈ destTunnelIdSet workerCnt S dest ↔ d ∈ dest ∧ hasTunnel workerCnt d = true := by
  rw [destTunnelIdSet, UnorderedSet.mem_toList, List.mem_filter, Bool.and_eq_true, isTunnelId_iff,
    decide_eq_true_eq]
  constructor
  · rintro ⟨hd, hne, ht | ht⟩
    · exact ⟨hd, ht⟩
    · exact absurd ht.symm hne
  · rintro ⟨hd, ht⟩
    exact ⟨hd, (ne_main_of_hasTunnel ht).symm, .inl ht⟩

/-- Where the main thread forwards what a thread gave it: to the threads with a tunnel among the
targets, but not back to the other thread. -/
theorem allTarget_eq {id : Int} {target : List Int} (hid : hasTunnel workerCnt id = true)
    (htarget : target ≠ []) :
    ∃ all, allTarget workerCnt S id target = some all ∧ all.Nodup ∧
      (∀ d ∈ all, d ∈ target ∧ hasTunnel workerCnt d = true) ∧
      ∀ d, isWorkerTunnelId workerCnt d = true → d ∈ target → d ∈ all := by
  unfold allTarget
  by_cases ho : id = otherTunnelId
  · rw [if_pos ho, if_neg htarget]
    refine ⟨_, rfl, S.nodup _, fun d hd => ?_, fun d hw hd => ?_⟩
    · rw [UnorderedSet.mem_toList, List.mem_filter, Bool.and_eq_true] at hd
      exact ⟨hd.1, hasTunnel_of_worker hd.2.2⟩
    · rw [UnorderedSet.mem_toList, List.mem_filter, Bool.and_eq_true, decide_eq_true_eq]
      exact ⟨hd, ne_main_of_hasTunnel (hasTunnel_of_worker hw), hw⟩
  · have hw : isWorkerTunnelId workerCnt id = true := (hasTunnel_iff.mp hid).resolve_right ho
    rw [if_neg ho, if_pos hw, if_neg htarget]
    refine ⟨_, rfl, S.nodup _, fun d hd => ?_, fun d hw hd => ?_⟩
    · rw [UnorderedSet.mem_toList, List.mem_filter, Bool.and_eq_true, Bool.or_eq_true,
        decide_eq_true_eq] at hd
      refine ⟨hd.1, hasTunnel_iff.mpr ?_⟩
      rcases hd.2.2 with h | h
      · exact .inr (of_decide_eq_true h)
      · exact .inl h
    · rw [UnorderedSet.mem_toList, List.mem_filter, Bool.and_eq_true, Bool.or_eq_true,
        decide_eq_true_eq]
      exact ⟨hd, ne_main_of_hasTunnel (hasTunnel_of_worker hw), .inr hw⟩

theorem mainTunnelForward_ok {source dest : Int} {m : ProtoPackage}
    (hsource : isTunnelId workerCnt source = true) (hdest : hasTunnel workerCnt dest = true) :
    mainTunnelForward workerCnt pb source dest m = .ok (pb.packTunnel ⟨source, [dest], m⟩) := by
  have hd : isTunnelId workerCnt dest = true := isTunnelId_iff.mpr (.inl hdest)
  simp [mainTunnelForward, hsource, hd, hdest]

end Destinations

/-! ## The network -/

namespace Net

/-- A part of the network changes at one thread. -/
def setUp (s : Net) (id : Int) (p : Pipe) : Net := { s with up := Function.update s.up id p }

@[inherit_doc setUp]
def setDown (s : Net) (id : Int) (p : Pipe) : Net := { s with down := Function.update s.down id p }

/-- The call is recorded. -/
def note (s : Net) (id : Int) (dest : List Int) (message : ProtoPackage) : Net :=
  { s with forwarded := Function.update s.forwarded id (s.forwarded id ++ [(dest, message)]) }

/-- The package is recorded. -/
def process (s : Net) (id : Int) (t : ProtoTunnelPackage) : Net :=
  { s with processed := Function.update s.processed id (s.processed id ++ [t]) }

/-- One operation of one thread. -/
def step (s : Net) : NetLabel → Option Net
  | .forward id dest message =>
    if hasTunnel workerCnt id then
      match tunnelForward workerCnt pb S id dest message with
      | .error _ => some (s.note id dest message)
      | .ok data => some ((s.note id dest message).setUp id ((s.up id).append data))
    else none
  | .mainForward dest message =>
    match mainTunnelForward workerCnt pb mainTunnelId dest message with
    | .error _ => some (s.note mainTunnelId [dest] message)
    | .ok data => some ((s.note mainTunnelId [dest] message).setDown dest ((s.down dest).append data))
  | .send id n => some (s.setUp id ((s.up id).send n))
  | .mainRecv id n => some (s.setUp id ((s.up id).recv n))
  | .mainFrame id =>
    if s.turn = none then
      match tunnelFrameStep (parseSlice pb.package.parse) (s.up id).recvBuf with
      | .wait | .refuse => none
      | .skip r => some (s.setUp id { s.up id with recvBuf := r })
      | .package p r =>
        match mainTunnelProcess workerCnt pb S p with
        | none => some (s.setUp id { s.up id with recvBuf := r })
        | some (t, all) =>
          let size := addU64 8 (toh64FromBuffer (s.up id).recvBuf)
          some { s with turn := some ⟨id, size, t, all⟩ }
    else none
  | .mainPass =>
    match s.turn with
    | some ⟨id, size, t, dest :: todo⟩ =>
      let s := { s with turn := some ⟨id, size, t, todo⟩ }
      match mainTunnelForward workerCnt pb t.sourceTunnelsId dest t.innerProtoPackage with
      | .error _ => some s
      | .ok data => some (s.setDown dest ((s.down dest).append data))
    | _ => none
  | .mainDone =>
    match s.turn with
    | some ⟨id, size, _, []⟩ =>
      some ({ s with turn := none }.setUp id
        { s.up id with recvBuf := moveReadPtrN (s.up id).recvBuf size })
    | _ => none
  | .mainSend id n => some (s.setDown id ((s.down id).send n))
  | .recv id n => some (s.setDown id ((s.down id).recv n))
  | .frame id =>
    match tunnelFrameStep (parseSlice pb.package.parse) (s.down id).recvBuf with
    | .wait | .refuse => none
    | .skip r => some (s.setDown id { s.down id with recvBuf := r })
    | .package p r =>
      match pb.openPackage p with
      | none => some (s.setDown id { s.down id with recvBuf := r })
      | some t => some ((s.process id t).setDown id { s.down id with recvBuf := r })

end Net

end Functions

end Avant.Tunnel
