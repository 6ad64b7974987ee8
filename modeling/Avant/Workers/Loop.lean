import Avant.Conn.Mgr
import Avant.Conn.WebsocketCtx
import Avant.Lib.Machine
import Avant.Timers.Manager

/-!
# The loop of a worker

Model of the event loop of a worker thread (`worker::operator()`, `close_client_fd`,
`on_client_event`, `on_new_client_fd` in `src/workers/worker.cpp`), of the kernel as far as it
hands out file descriptors and keeps the epoll registrations, and of the other threads as far as
they open and close file descriptors. One label is one piece of work of a thread, and the labels
of different threads come in any order: the main thread may accept a client, and get the number of
a file descriptor that the worker closed a moment before, at any point of the worker's iteration.

What a connection does with an event is a parameter, a `CtxKind`: `on_event` may close its own
file descriptor and no other, and may notify the application layer, which deletes the timeout.

Ghost state, which nothing reads: `epoll` says for which connection a file descriptor was
registered, `Batch.snap` what that was when `epoll_wait` returned, `delivered` which events were
passed to `on_event`, and `ended` the contexts of the connections that were released.

Left out: the counters (`Server/Dispatch.lean`), the tunnel's own framing (`Tunnel`), the tick
hook and the stop flag.

Results:
* **`no_stale_event`**: in every run, an event is passed to the connection that was registered
  for its file descriptor when `epoll_wait` returned.
-/

namespace Avant.Workers

open Avant.Lib Avant.Conn Avant.Proto Avant.Socket Avant.Timers

/-- A kind of connection context, as the worker uses it. -/
structure CtxKind where
  /-- the context, with its connection -/
  Ctx : Type
  /-- an event, with the answers of the kernel and of OpenSSL while it is handled -/
  Ev : Type
  /-- what `on_create` meets -/
  New : Type
  /-- what a message of the tunnel makes the application do with a connection -/
  Call : Type
  onCreate : New → Ctx
  onEvent : Ctx → Ev → Ctx
  call : Ctx → Call → Ctx
  /-- `conn_ptr` is set: the context has not closed its connection -/
  attached : Ctx → Bool
  /-- `get_app_layer_notified` -/
  notified : Ctx → Bool

/-- What a message of the tunnel asks of a connection. -/
inductive ClientCall
  /-- a forwarded package is sent to the client, or the text of a broadcast -/
  | forward (broadcast : Bool) (data : Bytes) (sends : List SendResult)
  /-- the other thread asks to close it -/
  | close

/-- The connection of a slot that was used before, with the socket of a new client. -/
def reused (useSsl : Bool) (c : Connection) : Connection :=
  { c.onAlloc with sslAccepted := c.sslAccepted && !useSsl, wire := [] }

/-- `handle_tunnel_client_forward_message` does nothing for such a connection. -/
def notForwarded (c : Connection) : Bool := c.closedFlag || c.isClose || !c.isReady

/-- `task_type::STREAM_TASK`. A slot keeps the context of its last connection. -/
def streamKind {π : Type} (useSsl : Bool) (parse : ParseFromArray π) : CtxKind where
  Ctx := StreamCtx π
  Ev := AppThrows π × Event
  New := StreamCtx π × AppThrows π
  Call := ClientCall
  onCreate x :=
    { x.1 with conn := reused useSsl x.1.conn, calls := [] }.onCreate useSsl x.2
  onEvent s ev := s.onEvent useSsl parse ev.1 ev.2
  call s
    | .forward _ data sends =>
      if notForwarded s.conn then s else (s.sendSyncPackage data sends).1
    | .close => s.setIsClose
  attached s := s.attached
  notified s := s.appLayerNotified

/-- `task_type::WEBSOCKET_TASK`. -/
def websocketKind {P π : Type} (A : WebsocketApp P π) : CtxKind where
  Ctx := WebsocketCtx P π
  Ev := WsEvent π
  New := WebsocketCtx P π
  Call := ClientCall
  onCreate s := { s with conn := reused A.useSsl s.conn, trace := [] }.onCreate A
  onEvent s ev := s.onEvent A ev
  call s
    | .forward broadcast data sends =>
      if notForwarded s.conn then s
      else (s.sendSyncPackage (if broadcast then 0x81 else 0x82) data sends).1
    | .close => s.setIsClose
  attached s := s.attached
  notified s := s.appLayerNotified

/-- Why a connection was released. -/
inductive Cause
  /-- its context closed it while it handled an event -/
  | event
  /-- the timeout between accept and `on_new_connection` -/
  | timeout
  /-- `on_new_client_fd` could not set it up -/
  | setup
  /-- there was no connection -/
  | missing
  deriving DecidableEq

/-- What becomes of a new client behind `alloc_connection`. -/
inductive Setup (K : CtxKind)
  | noCtx
  | epollFailed
  | sslFailed
  | ok (new : K.New)

/-- An event passed to `on_event`: the file descriptor, the connection, and the one that was
registered when `epoll_wait` returned. -/
structure Delivery where
  fd : Int
  gid : Nat
  registered : Option Nat
  deriving DecidableEq

/-- The events of one `epoll_wait` that are left, and `timeout_fd_copy`. -/
structure Batch (K : CtxKind) where
  rest : List (Int × K.Ev)
  timeoutFdCopy : List Int
  snap : Int → Option Nat

/-- Where the worker is in an iteration. -/
inductive Phase (K : CtxKind)
  /-- in `epoll_wait` -/
  | idle
  /-- closing the file descriptors of `m_timeout_fd` -/
  | timeouts (todo : List Int) (b : Batch K)
  | events (b : Batch K)
  /-- in `on_tunnel_event` -/
  | tunnel (b : Batch K)

structure Worker (K : CtxKind) where
  tunnelFd : Int
  /-- `worker_connection_mgr` -/
  mgr : ConnMgr
  /-- the contexts of the connections in use, by gid -/
  ctx : Nat → Option K.Ctx := fun _ => none
  epoll : Int → Option Nat
  /-- `m_conn_timeout_timer_manager`; a callback is the file descriptor it closes -/
  timers : Manager Int := {}
  latestTick : Nat := 0
  /-- `m_closed_fd` -/
  closedFd : List Int := []
  phase : Phase K := .idle
  /-- the clients that the main thread has accepted for this worker and the tunnel still holds -/
  inbox : List (Int × Nat) := []
  /-- the other file descriptors that the process has open -/
  foreign : Finset Int := ∅
  delivered : List Delivery := []
  ended : List (K.Ctx × Cause) := []

/-- What a step does. -/
inductive Label (K : CtxKind)
  /-- the main thread accepts a client and dispatches it -/
  | accept (fd : Int) (gid : Nat)
  /-- another thread opens a file descriptor for itself -/
  | otherOpen (fd : Int)
  | otherClose (fd : Int)
  /-- `epoll_wait` returns, at time `now` -/
  | wait (batch : List (Int × K.Ev)) (now : Nat)
  /-- a file descriptor of `m_timeout_fd` is closed, in the order of the set -/
  | closeTimeout (fd : Int)
  /-- the next event of the batch -/
  | event
  /-- the next message of the tunnel is a new client -/
  | newClient (it : Nat) (setup : Setup K)
  /-- the next message of the tunnel concerns a connection -/
  | call (gid : Nat) (c : K.Call)
  | tunnelDone

namespace Worker

variable {K : CtxKind}

/-- The worker goes on to `p`. -/
def enter (p : Phase K) (w : Worker K) : Worker K := { w with phase := p }

/-- The kernel hands out a number to another thread. -/
def opened (fd : Int) (inbox : List (Int × Nat)) (w : Worker K) : Worker K :=
  { w with inbox := inbox, foreign := insert fd w.foreign }

/-- A file descriptor that is not a connection's is closed. -/
def dropped (fd : Int) (w : Worker K) : Worker K := { w with foreign := w.foreign.erase fd }

/-- `close_client_fd` of a connection that is there. -/
def released (cause : Cause) (fd : Int) (gid : Nat) (w : Worker K) : Worker K :=
  { w with
    timers := w.timers.markDelete gid
    epoll := Function.update w.epoll fd none
    mgr := (w.mgr.releaseConnection fd).2
    ctx := Function.update w.ctx gid none
    ended := w.ended ++ ((w.ctx gid).map fun c => (c, cause)).toList
    closedFd := fd :: w.closedFd }

/-- `worker::close_client_fd`. -/
def closeClientFd (cause : Cause) (fd : Int) (w : Worker K) : Worker K :=
  match w.mgr.gidOf fd with
  | some gid => w.released cause fd gid
  | none => { w.dropped fd with closedFd := fd :: w.closedFd }

/-- The context of a connection changes; once the application layer is notified, the timeout is
gone. -/
def setCtx (gid : Nat) (c : K.Ctx) (w : Worker K) : Worker K :=
  { w with
    ctx := Function.update w.ctx gid (some c)
    timers := if K.notified c then w.timers.markDelete gid else w.timers }

/-- An event is passed to `on_event`. -/
def deliver (d : Delivery) (w : Worker K) : Worker K := { w with delivered := w.delivered ++ [d] }

/-- `worker::on_client_event`. -/
def onClientEvent (fd : Int) (ev : K.Ev) (snap : Int → Option Nat) (w : Worker K) : Worker K :=
  match w.mgr.gidOf fd with
  | none => if fd ∈ w.closedFd then w else w.closeClientFd .missing fd
  | some gid =>
    match w.ctx gid with
    -- only the tunnel's connection has no context, and its events do not come here
    | none => w
    | some c =>
      let w := (w.deliver ⟨fd, gid, snap fd⟩).setCtx gid (K.onEvent c ev)
      if K.attached (K.onEvent c ev) then w else w.closeClientFd .event fd

/-- A connection is in the pool, and its file descriptor registered or not. -/
def allocated (fd : Int) (gid it : Nat) (registered : Bool) (w : Worker K) : Worker K :=
  { w with
    mgr := (w.mgr.allocConnection fd gid it).2
    foreign := w.foreign.erase fd
    epoll := if registered then Function.update w.epoll fd (some gid) else w.epoll }

/-- The timeout of a connection: once, after 5 seconds. -/
def timeoutTimer (fd : Int) (gid : Nat) (w : Worker K) : Timer Int :=
  Timer.make gid w.latestTick 1 5 fd

def setTimers (timers : Manager Int) (w : Worker K) : Worker K := { w with timers := timers }

/-- `worker::on_new_client_fd`. -/
def onNewClientFd (fd : Int) (gid it : Nat) (setup : Setup K) (w : Worker K) : Worker K :=
  if fd < 0 then w
  else if (w.mgr.allocConnection fd gid it).1 ≠ 0 then w.closeClientFd .setup fd
  else
    match setup with
    | .noCtx | .epollFailed => (w.allocated fd gid it false).closeClientFd .setup fd
    | .sslFailed => (w.allocated fd gid it true).closeClientFd .setup fd
    | .ok new =>
      let w := w.allocated fd gid it true
      match w.timers.add (w.timeoutTimer fd gid) with
      | (_, false) => w.closeClientFd .setup fd
      | (timers, true) => (w.setTimers timers).setCtx gid (K.onCreate new)

/-- The callback of a timeout: the file descriptor it puts into `m_timeout_fd`, unless the
connection is gone or the application layer notified. -/
def timedOut (w : Worker K) (t : Timer Int) : Option Int :=
  match w.mgr.getConnByGid t.id with
  | none => none
  | some _ => if (w.ctx t.id).any K.notified then none else some t.callback

/-- The start of an iteration. -/
def tick (now : Nat) (timers : Manager Int) (w : Worker K) : Worker K :=
  { w with closedFd := [], latestTick := now, timers := timers }

/-- What `epoll_wait` returns to: the timeouts of the second, if it is a new one. -/
def startIteration (batch : List (Int × K.Ev)) (now : Nat) (w : Worker K) : Worker K :=
  if w.latestTick ≠ now then
    let r := w.timers.checkAndHandle now
    let timeoutFd := (r.2.filterMap w.timedOut).dedup
    (w.tick now r.1).enter
      (if timeoutFd = [] then .events ⟨batch, [], w.epoll⟩
        else .timeouts timeoutFd ⟨batch, timeoutFd, w.epoll⟩)
  else (w.tick w.latestTick w.timers).enter (.events ⟨batch, [], w.epoll⟩)

/-- The next event of the batch. -/
def nextEvent (b : Batch K) (w : Worker K) : Worker K :=
  match b.rest with
  | [] => w.enter .idle
  | (fd, ev) :: rest =>
    let b' : Batch K := ⟨rest, b.timeoutFdCopy, b.snap⟩
    if fd < 0 then w.enter (.events b')
    else if fd ∈ b.timeoutFdCopy then w.enter (.events b')
    else if fd = w.tunnelFd then w.enter (.tunnel b')
    else (w.enter (.events b')).onClientEvent fd ev b.snap

/-- The messages that the tunnel still holds. -/
def setInbox (inbox : List (Int × Nat)) (w : Worker K) : Worker K := { w with inbox := inbox }

/-- The kernel has the number to give. -/
def Free (w : Worker K) (fd : Int) : Prop :=
  0 ≤ fd ∧ fd ∉ w.mgr.fd2gid ∧ fd ∉ w.foreign

instance (w : Worker K) (fd : Int) : Decidable (w.Free fd) :=
  inferInstanceAs (Decidable (_ ∧ _ ∧ _))

/-- What `epoll_wait` can return: registered file descriptors, each once. -/
def Returned (w : Worker K) (batch : List (Int × K.Ev)) : Prop :=
  (batch.map Prod.fst).Nodup ∧ ∀ fd ∈ batch.map Prod.fst, (w.epoll fd).isSome

instance (w : Worker K) (batch : List (Int × K.Ev)) : Decidable (w.Returned batch) :=
  inferInstanceAs (Decidable (_ ∧ _))

/-- One step. -/
def step (w : Worker K) : Label K → Option (Worker K)
  | .accept fd gid =>
    if w.Free fd then some (w.opened fd (w.inbox ++ [(fd, gid)])) else none
  | .otherOpen fd => if w.Free fd then some (w.opened fd w.inbox) else none
  | .otherClose fd =>
    -- a client that was dispatched is the worker's to close
    if fd ∉ w.inbox.map Prod.fst then some (w.dropped fd) else none
  | .wait batch now =>
    match w.phase with
    | .idle => if w.Returned batch then some (w.startIteration batch now) else none
    | _ => none
  | .closeTimeout fd =>
    match w.phase with
    | .timeouts todo b =>
      if fd ∈ todo then
        some ((w.closeClientFd .timeout fd).enter
          (if todo.erase fd = [] then .events b else .timeouts (todo.erase fd) b))
      else none
    | _ => none
  | .event =>
    match w.phase with
    | .events b => some (w.nextEvent b)
    | _ => none
  | .newClient it setup =>
    match w.phase, w.inbox with
    | .tunnel _, (fd, gid) :: inbox =>
      some ((w.setInbox inbox).onNewClientFd fd gid it setup)
    | _, _ => none
  | .call gid c =>
    match w.phase, w.ctx gid with
    | .tunnel _, some ctx => some (w.setCtx gid (K.call ctx c))
    | _, _ => none
  | .tunnelDone =>
    match w.phase with
    | .tunnel b => some (w.enter (.events b))
    | _ => none

/-- A worker that has its tunnel and no client. The tunnel's connection has gid 0. -/
def start (poolCapacity : Nat) (tunnelFd : Int) (it : Fin (poolCapacity + 1)) : Worker K where
  tunnelFd := tunnelFd
  mgr := ((ConnMgr.init poolCapacity).allocConnection tunnelFd 0 it).2
  epoll := Function.update (fun _ => none) tunnelFd (some 0)

/-- What a step can do. -/
inductive Moves (w : Worker K) : Worker K → Prop
  | accept (fd : Int) (gid : Nat) (hfree : w.Free fd) :
    Moves w (w.opened fd (w.inbox ++ [(fd, gid)]))
  | otherOpen (fd : Int) (hfree : w.Free fd) : Moves w (w.opened fd w.inbox)
  | otherClose (fd : Int) (hfd : fd ∉ w.inbox.map Prod.fst) : Moves w (w.dropped fd)
  | wait (batch : List (Int × K.Ev)) (now : Nat) (hphase : w.phase = .idle)
    (hret : w.Returned batch) : Moves w (w.startIteration batch now)
  | closeTimeout (fd : Int) (todo : List Int) (b : Batch K) (hphase : w.phase = .timeouts todo b)
    (hfd : fd ∈ todo) :
    Moves w ((w.closeClientFd .timeout fd).enter
      (if todo.erase fd = [] then .events b else .timeouts (todo.erase fd) b))
  | event (b : Batch K) (hphase : w.phase = .events b) : Moves w (w.nextEvent b)
  | newClient (b : Batch K) (fd : Int) (gid : Nat) (inbox : List (Int × Nat)) (it : Nat)
    (setup : Setup K) (hphase : w.phase = .tunnel b) (hinbox : w.inbox = (fd, gid) :: inbox) :
    Moves w ((w.setInbox inbox).onNewClientFd fd gid it setup)
  | call (b : Batch K) (gid : Nat) (ctx : K.Ctx) (c : K.Call) (hphase : w.phase = .tunnel b)
    (hctx : w.ctx gid = some ctx) : Moves w (w.setCtx gid (K.call ctx c))
  | tunnelDone (b : Batch K) (hphase : w.phase = .tunnel b) : Moves w (w.enter (.events b))

theorem moves_of_step {w w' : Worker K} {l : Label K} (hstep : w.step l = some w') :
    Moves w w' := by
  unfold step at hstep
  cases l with
  | accept fd gid =>
    obtain ⟨hfree, hw⟩ := Option.ite_none_right_eq_some.mp hstep
    exact Option.some.inj hw ▸ .accept fd gid hfree
  | otherOpen fd =>
    obtain ⟨hfree, hw⟩ := Option.ite_none_right_eq_some.mp hstep
    exact Option.some.inj hw ▸ .otherOpen fd hfree
  | otherClose fd =>
    obtain ⟨hfd, hw⟩ := Option.ite_none_right_eq_some.mp hstep
    exact Option.some.inj hw ▸ .otherClose fd hfd
  | wait batch now =>
    simp only at hstep
    split at hstep
    · rename_i hphase
      obtain ⟨hret, hw⟩ := Option.ite_none_right_eq_some.mp hstep
      exact Option.some.inj hw ▸ .wait batch now hphase hret
    · simp at hstep
  | closeTimeout fd =>
    simp only at hstep
    split at hstep
    · rename_i todo b hphase
      obtain ⟨hfd, hw⟩ := Option.ite_none_right_eq_some.mp hstep
      exact Option.some.inj hw ▸ .closeTimeout fd todo b hphase hfd
    · simp at hstep
  | event =>
    simp only at hstep
    split at hstep
    · rename_i b hphase
      exact Option.some.inj hstep ▸ .event b hphase
    · simp at hstep
  | newClient it setup =>
    simp only at hstep
    split at hstep
    · rename_i b fd gid inbox hphase hinbox
      exact Option.some.inj hstep ▸ .newClient b fd gid inbox it setup hphase hinbox
    · simp at hstep
  | call gid c =>
    simp only at hstep
    split at hstep
    · rename_i b ctx hphase hctx
      exact Option.some.inj hstep ▸ .call b gid ctx c hphase hctx
    · simp at hstep
  | tunnelDone =>
    simp only at hstep
    split at hstep
    · rename_i b hphase
      exact Option.some.inj hstep ▸ .tunnelDone b hphase
    · simp at hstep

/-! ## The file descriptors of a worker -/

variable {n : Nat} {w w₁ w' : Worker K} {fd : Int} {gid : Nat}

/-- The worker and the kernel agree on the file descriptors: what is registered is in use, for the
connection it is registered for, and what others have open is not. A timeout is for a connection
in use, and has its file descriptor. -/
structure Agrees (n : Nat) (w : Worker K) : Prop where
  mgr : w.mgr.Ok n
  epoll : ∀ fd gid, w.epoll fd = some gid → w.mgr.gidOf fd = some gid
  foreign : ∀ fd ∈ w.foreign, w.mgr.gidOf fd = none
  timersOk : w.timers.Ok
  timers : ∀ gid fd, (gid, fd) ∈ w.timers.tags → w.mgr.gidOf fd = some gid

/-- From `w` to `w'` no file descriptor but `fd` changes, and no ghost but the contexts that
ended. -/
structure Touches (fd : Int) (w w' : Worker K) : Prop where
  gidOf : ∀ fd' ≠ fd, w'.mgr.gidOf fd' = w.mgr.gidOf fd'
  epoll : ∀ fd' ≠ fd, w'.epoll fd' = w.epoll fd'
  foreign : ∀ fd' ≠ fd, fd' ∈ w.foreign → fd' ∈ w'.foreign
  phase : w'.phase = w.phase
  inbox : w'.inbox = w.inbox
  delivered : w'.delivered = w.delivered

theorem Touches.refl (fd : Int) (w : Worker K) : Touches fd w w :=
  ⟨fun _ _ => rfl, fun _ _ => rfl, fun _ _ h => h, rfl, rfl, rfl⟩

theorem Touches.trans (h : Touches fd w w₁) (h' : Touches fd w₁ w') : Touches fd w w' :=
  ⟨fun fd' hne => (h'.gidOf fd' hne).trans (h.gidOf fd' hne),
    fun fd' hne => (h'.epoll fd' hne).trans (h.epoll fd' hne),
    fun fd' hne hmem => h'.foreign fd' hne (h.foreign fd' hne hmem),
    h'.phase.trans h.phase, h'.inbox.trans h.inbox, h'.delivered.trans h.delivered⟩

/-- Closing a file descriptor. -/
theorem Agrees.closeClientFd (h : Agrees n w) (cause : Cause) (fd : Int) :
    Agrees n (w.closeClientFd cause fd) ∧ Touches fd w (w.closeClientFd cause fd) := by
  unfold Worker.closeClientFd
  cases hgid : w.mgr.gidOf fd with
  | none =>
    exact ⟨{ h with foreign := fun fd' hmem => h.foreign fd' (Finset.mem_of_mem_erase hmem) },
      fun _ _ => rfl, fun _ _ => rfl, fun fd' hne hmem => Finset.mem_erase.mpr ⟨hne, hmem⟩,
      rfl, rfl, rfl⟩
  | some gid =>
    refine ⟨⟨(h.mgr.release fd).1, fun fd' g hreg => ?_, fun fd' hmem => ?_,
        (Manager.markDelete_spec h.timersOk gid).1, fun g fd' hmem => ?_⟩,
      fun fd' hne => (h.mgr.gidOf_release fd fd').trans (if_neg hne),
      fun fd' hne => Function.update_of_ne hne _ _, fun _ _ hmem => hmem, rfl, rfl, rfl⟩
    · refine (h.mgr.gidOf_release fd fd').trans ?_
      by_cases heq : fd' = fd
      · subst heq
        simp [released] at hreg
      · rw [if_neg heq]
        exact h.epoll fd' g (by simpa [released, heq] using hreg)
    · refine (h.mgr.gidOf_release fd fd').trans ?_
      split
      · rfl
      · exact h.foreign fd' hmem
    · obtain ⟨hold, hne⟩ := (Manager.mem_tags_markDelete h.timersOk).mp hmem
      refine (h.mgr.gidOf_release fd fd').trans ((if_neg ?_).trans (h.timers g fd' hold))
      rintro rfl
      exact hne (Option.some.inj ((h.timers g fd' hold).symm.trans hgid))

theorem Agrees.setCtx (h : Agrees n w) (gid : Nat) (c : K.Ctx) :
    Agrees n (w.setCtx gid c) := by
  refine ⟨h.mgr, h.epoll, h.foreign, ?_, fun g fd hmem => h.timers g fd ?_⟩
  · show Manager.Ok (if _ then _ else _)
    split
    · exact (Manager.markDelete_spec h.timersOk gid).1
    · exact h.timersOk
  · change (g, fd) ∈ Manager.tags (if _ then _ else _) at hmem
    split at hmem
    · exact ((Manager.mem_tags_markDelete h.timersOk).mp hmem).1
    · exact hmem

theorem touches_setCtx (fd : Int) (gid : Nat) (c : K.Ctx) (w : Worker K) :
    Touches fd w (w.setCtx gid c) :=
  ⟨fun _ _ => rfl, fun _ _ => rfl, fun _ _ h => h, rfl, rfl, rfl⟩

/-- A file descriptor that others had open gets a connection. -/
theorem Agrees.allocated (h : Agrees n w) {it : Nat} (registered : Bool)
    (hcode : (w.mgr.allocConnection fd gid it).1 = 0) :
    Agrees n (w.allocated fd gid it registered) ∧
      Touches fd w (w.allocated fd gid it registered) := by
  have hnew : w.mgr.gidOf fd = none := by
    rw [h.mgr.gidOf_eq, (ConnMgr.Ok.alloc_fd2gid hcode).1]
  refine ⟨⟨(h.mgr.alloc fd gid it).1, fun fd' g hreg => ?_, fun fd' hmem => ?_, h.timersOk,
      fun g fd' hmem => ?_⟩,
    fun fd' hne => (h.mgr.gidOf_alloc hcode fd').trans (if_neg hne),
    fun fd' hne => ?_, fun fd' hne hmem => Finset.mem_erase.mpr ⟨hne, hmem⟩, rfl, rfl, rfl⟩
  · refine (h.mgr.gidOf_alloc hcode fd').trans ?_
    by_cases heq : fd' = fd
    · subst heq
      have hold : w.epoll fd' ≠ some g := fun hg => by
        have := h.epoll fd' g hg
        simp [hnew] at this
      cases registered with
      | false => exact absurd hreg hold
      | true => simpa [Worker.allocated] using hreg
    · rw [if_neg heq]
      refine h.epoll fd' g ?_
      cases registered with
      | false => exact hreg
      | true => simpa [Worker.allocated, heq] using hreg
  · refine (h.mgr.gidOf_alloc hcode fd').trans ?_
    rw [if_neg (Finset.ne_of_mem_erase hmem)]
    exact h.foreign fd' (Finset.mem_of_mem_erase hmem)
  · refine (h.mgr.gidOf_alloc hcode fd').trans ((if_neg ?_).trans (h.timers g fd' hmem))
    rintro rfl
    have := h.timers g fd' hmem
    simp [hnew] at this
  · cases registered with
    | false => rfl
    | true => exact Function.update_of_ne hne _ _

theorem Agrees.onNewClientFd (h : Agrees n w) (fd : Int) (gid it : Nat) (setup : Setup K) :
    Agrees n (w.onNewClientFd fd gid it setup) ∧
      Touches fd w (w.onNewClientFd fd gid it setup) := by
  unfold Worker.onNewClientFd
  split
  · exact ⟨h, .refl fd w⟩
  · split
    · exact h.closeClientFd .setup fd
    · rename_i hcode
      have hcode := not_not.mp hcode
      have hclose : ∀ registered, Agrees n ((w.allocated fd gid it registered).closeClientFd .setup fd) ∧
          Touches fd w ((w.allocated fd gid it registered).closeClientFd .setup fd) := by
        intro registered
        obtain ⟨ha, ht⟩ := h.allocated registered hcode
        obtain ⟨ha', ht'⟩ := ha.closeClientFd .setup fd
        exact ⟨ha', ht.trans ht'⟩
      cases setup with
      | noCtx => exact hclose false
      | epollFailed => exact hclose false
      | sslFailed => exact hclose true
      | ok new =>
        simp only
        split
        · exact hclose true
        · rename_i timers hadd
          obtain ⟨ha, ht⟩ := h.allocated true hcode
          have ha' : Agrees n ((w.allocated fd gid it true).setTimers timers) := by
            refine ⟨ha.mgr, ha.epoll, ha.foreign, ?_, fun g fd' hmem => ?_⟩
            · have := ha.timersOk.add ((w.allocated fd gid it true).timeoutTimer fd gid)
              rwa [hadd] at this
            · have hmem' := (Manager.mem_tags_add ha.timersOk (congrArg Prod.snd hadd)).mp
                (by rw [hadd]; exact hmem)
              rcases hmem' with htag | ⟨hold, -⟩
              · obtain ⟨rfl, rfl⟩ := Prod.mk.inj htag
                exact (h.mgr.gidOf_alloc hcode _).trans (if_pos rfl)
              · exact ha.timers g fd' hold
          have ht' := touches_setCtx fd gid (K.onCreate new)
            ((w.allocated fd gid it true).setTimers timers)
          exact ⟨ha'.setCtx gid _, ht.trans ⟨ht'.gidOf, ht'.epoll, ht'.foreign, rfl, rfl, rfl⟩⟩

/-! ## Stale events -/

/-- The events left of a batch are for connections that are registered as they were when
`epoll_wait` returned, but for those of `timeout_fd_copy`. -/
structure BatchOk (epoll : Int → Option Nat) (b : Batch K) : Prop where
  once : (b.rest.map Prod.fst).Nodup
  kept : ∀ fd ∈ b.rest.map Prod.fst, fd ∉ b.timeoutFdCopy →
    epoll fd = b.snap fd ∧ (b.snap fd).isSome

/-- Where the worker is: the batch it handles, and the timeouts it has still to close. -/
def PhaseOk (mgr : ConnMgr) (epoll : Int → Option Nat) : Phase K → Prop
  | .idle => True
  | .timeouts todo b => BatchOk epoll b ∧ todo.Nodup ∧
      ∀ fd ∈ todo, fd ∈ b.timeoutFdCopy ∧ ∃ gid, mgr.gidOf fd = some gid
  | .events b => BatchOk epoll b
  | .tunnel b => BatchOk epoll b

/-- The invariant of a worker. -/
structure Safe (n : Nat) (w : Worker K) : Prop where
  agrees : Agrees n w
  inboxOnce : (w.inbox.map Prod.fst).Nodup
  inboxOpen : ∀ fd ∈ w.inbox.map Prod.fst, fd ∈ w.foreign
  phase : PhaseOk w.mgr w.epoll w.phase
  delivered : ∀ d ∈ w.delivered, d.registered = some d.gid

variable {b : Batch K}

/-- A batch does not mind what happens to a file descriptor it has no event for. -/
theorem BatchOk.congr {epoll epoll' : Int → Option Nat} (h : BatchOk epoll b)
    (heq : ∀ fd' ≠ fd, epoll' fd' = epoll fd')
    (hfd : ∀ fd' ∈ b.rest.map Prod.fst, fd' ∉ b.timeoutFdCopy → fd' ≠ fd) : BatchOk epoll' b :=
  ⟨h.once, fun fd' hmem hcopy => by
    rw [heq fd' (hfd fd' hmem hcopy)]
    exact h.kept fd' hmem hcopy⟩

/-- Nothing is registered for a file descriptor that others have open. -/
theorem Agrees.ne_of_foreign (h : Agrees n w) (hb : BatchOk w.epoll b) (hfd : fd ∈ w.foreign) :
    ∀ fd' ∈ b.rest.map Prod.fst, fd' ∉ b.timeoutFdCopy → fd' ≠ fd := by
  rintro fd' hmem hcopy rfl
  obtain ⟨heq, hsome⟩ := hb.kept fd' hmem hcopy
  obtain ⟨g, hg⟩ := Option.isSome_iff_exists.mp hsome
  have hlive := h.epoll fd' g (heq.trans hg)
  rw [h.foreign fd' hfd] at hlive
  simp at hlive

variable (h : Safe n w)

include h

theorem Safe.touches (ha : Agrees n w') (ht : Touches fd w w') (hinbox : fd ∉ w.inbox.map Prod.fst)
    (hphase : PhaseOk w'.mgr w'.epoll w'.phase) : Safe n w' where
  agrees := ha
  inboxOnce := ht.inbox ▸ h.inboxOnce
  inboxOpen fd' hmem := by
    rw [ht.inbox] at hmem
    exact ht.foreign fd' (ne_of_mem_of_not_mem hmem hinbox) (h.inboxOpen fd' hmem)
  phase := hphase
  delivered := ht.delivered ▸ h.delivered

/-- The worker goes on; nothing else happens. -/
theorem Safe.enter {p : Phase K} (hp : PhaseOk w.mgr w.epoll p) : Safe n (w.enter p) :=
  { h with agrees := { h.agrees with }, phase := hp }

/-- A connection in use is closed. -/
theorem Safe.notMem_inbox (hlive : w.mgr.gidOf fd = some gid) :
    fd ∉ w.inbox.map Prod.fst := fun hmem => by
  rw [h.agrees.foreign fd (h.inboxOpen fd hmem)] at hlive
  simp at hlive

/-- **An event goes to the connection it is for.** -/
theorem Safe.onClientEvent (hphase : w.phase = .events b) {ev : K.Ev} {snap : Int → Option Nat}
    (hsnap : w.epoll fd = snap fd) (hsome : (snap fd).isSome) (hfd : fd ∉ b.rest.map Prod.fst) :
    Safe n (w.onClientEvent fd ev snap) := by
  obtain ⟨gid, hgid⟩ := Option.isSome_iff_exists.mp hsome
  have hlive := h.agrees.epoll fd gid (hsnap.trans hgid)
  have hb : BatchOk w.epoll b := by
    have := h.phase
    rwa [hphase] at this
  have hne : ∀ fd' ∈ b.rest.map Prod.fst, fd' ∉ b.timeoutFdCopy → fd' ≠ fd :=
    fun fd' hmem _ heq => hfd (heq ▸ hmem)
  unfold Worker.onClientEvent
  simp only [hlive]
  cases hctx : w.ctx gid with
  | none => exact h
  | some c =>
    simp only
    -- the delivery is to the connection that is registered
    have hdeliver : Safe n ((w.deliver ⟨fd, gid, snap fd⟩).setCtx gid (K.onEvent c ev)) := by
      have ha : Agrees n (w.deliver ⟨fd, gid, snap fd⟩) :=
        { h.agrees with }
      exact { h with
        agrees := ha.setCtx gid _
        delivered := List.forall_mem_append.mpr
          ⟨h.delivered, List.forall_mem_singleton.mpr hgid⟩ }
    split
    · exact hdeliver
    · obtain ⟨ha, ht⟩ := hdeliver.agrees.closeClientFd .event fd
      refine hdeliver.touches ha ht (h.notMem_inbox hlive) ?_
      rw [show (closeClientFd _ _ _).phase = .events b from ht.phase.trans hphase]
      exact hb.congr ht.epoll hne

theorem Safe.nextEvent (hphase : w.phase = .events b) : Safe n (w.nextEvent b) := by
  have hb : BatchOk w.epoll b := by
    have := h.phase
    rwa [hphase] at this
  unfold Worker.nextEvent
  cases hrest : b.rest with
  | nil => exact h.enter trivial
  | cons e rest =>
    obtain ⟨fd, ev⟩ := e
    obtain ⟨once, kept⟩ := hb
    rw [hrest, List.map_cons] at once kept
    obtain ⟨hnot, hnodup⟩ := List.nodup_cons.mp once
    have hb' : BatchOk w.epoll ⟨rest, b.timeoutFdCopy, b.snap⟩ :=
      ⟨hnodup, fun fd' hmem => kept fd' (List.mem_cons_of_mem fd hmem)⟩
    simp only
    split
    · exact h.enter hb'
    · split
      · exact h.enter hb'
      · rename_i hcopy
        split
        · exact h.enter hb'
        · obtain ⟨hsnap, hsome⟩ := kept fd List.mem_cons_self hcopy
          exact (h.enter (p := .events _) hb').onClientEvent rfl hsnap hsome hnot

omit h in
theorem timedOut_callback {t : Timer Int} (h : w.timedOut t = some fd) : t.callback = fd := by
  unfold timedOut at h
  split at h
  · simp at h
  · exact (Option.ite_none_left_eq_some.mp h).2 |> Option.some.inj

theorem Safe.startIteration {batch : List (Int × K.Ev)} (hret : w.Returned batch) (now : Nat) :
    Safe n (w.startIteration batch now) := by
  have hb : ∀ copy, BatchOk w.epoll ⟨batch, copy, w.epoll⟩ := fun copy =>
    ⟨hret.1, fun fd hmem _ => ⟨rfl, hret.2 fd hmem⟩⟩
  have htick : ∀ now {timers : Manager Int}, timers.Ok → (∀ x ∈ timers.tags, x ∈ w.timers.tags) →
      Safe n (w.tick now timers) := fun _ _ hok htags =>
    { h with agrees := ⟨h.agrees.mgr, h.agrees.epoll, h.agrees.foreign, hok,
        fun g fd hmem => h.agrees.timers g fd (htags _ hmem)⟩ }
  unfold Worker.startIteration
  split
  · obtain ⟨hok, hleft, hran⟩ := Manager.checkAndHandle_spec h.agrees.timersOk now
    refine (htick now hok hleft).enter ?_
    split
    · exact hb []
    · refine ⟨hb _, List.nodup_dedup _, fun fd hmem => ⟨hmem, ?_⟩⟩
      obtain ⟨t, ht, hout⟩ := List.mem_filterMap.mp (List.mem_dedup.mp hmem)
      exact ⟨t.id, h.agrees.timers t.id fd (timedOut_callback hout ▸ hran t ht)⟩
  · exact (htick _ h.agrees.timersOk fun _ hx => hx).enter (p := .events _) (hb [])

/-- A timeout is closed. -/
theorem Safe.closeTimeout {todo : List Int} (hphase : w.phase = .timeouts todo b) (hfd : fd ∈ todo)
    :
    Safe n ((w.closeClientFd .timeout fd).enter
      (if todo.erase fd = [] then .events b else .timeouts (todo.erase fd) b)) := by
  have hp := h.phase
  rw [hphase] at hp
  obtain ⟨hb, hnodup, hcopy⟩ := hp
  obtain ⟨-, gid, hlive⟩ := hcopy fd hfd
  obtain ⟨ha, ht⟩ := h.agrees.closeClientFd .timeout fd
  have hb' : BatchOk (w.closeClientFd .timeout fd).epoll b :=
    hb.congr ht.epoll fun fd' _ hnot heq => hnot (heq ▸ (hcopy fd hfd).1)
  have hp' : PhaseOk (w.closeClientFd .timeout fd).mgr (w.closeClientFd .timeout fd).epoll
      (if todo.erase fd = [] then .events b else .timeouts (todo.erase fd) b) := by
    split
    · exact hb'
    · refine ⟨hb', hnodup.erase fd, fun fd' hmem => ?_⟩
      obtain ⟨hne, hmem⟩ := hnodup.mem_erase_iff.mp hmem
      rw [ht.gidOf fd' hne]
      exact hcopy fd' hmem
  have hagrees : Agrees n ((w.closeClientFd .timeout fd).enter
      (if todo.erase fd = [] then .events b else .timeouts (todo.erase fd) b)) :=
    { ha with }
  refine ⟨hagrees, ht.inbox ▸ h.inboxOnce, fun fd' hmem => ?_, hp', ht.delivered ▸ h.delivered⟩
  have hmem : fd' ∈ w.inbox.map Prod.fst := ht.inbox ▸ hmem
  exact ht.foreign fd' (ne_of_mem_of_not_mem hmem (h.notMem_inbox hlive)) (h.inboxOpen fd' hmem)

/-- The message of a new client is handled. -/
theorem Safe.newClient (hphase : w.phase = .tunnel b) {inbox : List (Int × Nat)}
    (hinbox : w.inbox = (fd, gid) :: inbox) (it : Nat) (setup : Setup K) :
    Safe n ((w.setInbox inbox).onNewClientFd fd gid it setup) := by
  have hb : BatchOk w.epoll b := by
    have := h.phase
    rwa [hphase] at this
  have honce := h.inboxOnce
  have hopen := h.inboxOpen
  rw [hinbox, List.map_cons] at honce hopen
  obtain ⟨hnot, hnodup⟩ := List.nodup_cons.mp honce
  have h' : Safe n (w.setInbox inbox) :=
    ⟨{ h.agrees with }, hnodup,
      fun fd' hmem => hopen fd' (List.mem_cons_of_mem fd hmem), h.phase, h.delivered⟩
  obtain ⟨ha, ht⟩ := h'.agrees.onNewClientFd fd gid it setup
  refine h'.touches ha ht hnot ?_
  rw [ht.phase.trans hphase]
  exact hb.congr ht.epoll (h.agrees.ne_of_foreign hb (hopen fd List.mem_cons_self))

/-- The kernel hands out a number. -/
theorem Safe.opened (hfree : w.Free fd) {inbox : List (Int × Nat)}
    (honce : (inbox.map Prod.fst).Nodup)
    (hopen : ∀ fd' ∈ inbox.map Prod.fst, fd' ∈ insert fd w.foreign) :
    Safe n (w.opened fd inbox) := by
  refine ⟨{ h.agrees with foreign := fun fd' hmem => ?_ },
    honce, hopen, h.phase, h.delivered⟩
  rcases Finset.mem_insert.mp hmem with rfl | hmem
  · exact (h.agrees.mgr.gidOf_eq fd').trans (AList.lookup_eq_none.mpr hfree.2.1)
  · exact h.agrees.foreign fd' hmem

/-- **What a step preserves.** -/
theorem Safe.moves (hmove : Moves w w') : Safe n w' := by
  cases hmove with
  | accept fd gid hfree =>
    refine h.opened hfree ?_ fun fd' hmem => ?_
    · rw [List.map_append, List.nodup_append]
      refine ⟨h.inboxOnce, by simp, ?_⟩
      rintro fd' hmem _ hfd rfl
      obtain rfl : fd' = fd := by simpa using hfd
      exact hfree.2.2 (h.inboxOpen fd' hmem)
    · rw [List.map_append, List.mem_append] at hmem
      rcases hmem with hmem | hmem
      · exact Finset.mem_insert_of_mem (h.inboxOpen fd' hmem)
      · obtain rfl : fd' = fd := by simpa using hmem
        exact Finset.mem_insert_self fd' _
  | otherOpen fd hfree =>
    exact h.opened hfree h.inboxOnce fun fd' hmem =>
      Finset.mem_insert_of_mem (h.inboxOpen fd' hmem)
  | otherClose fd hfd =>
    refine { h with
      agrees := { h.agrees with
        foreign := fun fd' hmem => h.agrees.foreign fd' (Finset.mem_of_mem_erase hmem) }
      inboxOpen := fun fd' hmem => ?_ }
    exact Finset.mem_erase.mpr ⟨ne_of_mem_of_not_mem hmem hfd, h.inboxOpen fd' hmem⟩
  | wait batch now _ hret => exact h.startIteration hret now
  | closeTimeout fd todo b hphase hfd => exact h.closeTimeout hphase hfd
  | event b hphase => exact h.nextEvent hphase
  | newClient b fd gid inbox it setup hphase hinbox => exact h.newClient hphase hinbox it setup
  | call b gid ctx c =>
    exact { h with agrees := h.agrees.setCtx gid _ }
  | tunnelDone b hphase =>
    have hb := h.phase
    rw [hphase] at hb
    exact h.enter (p := .events b) hb

omit h

theorem safe_start (poolCapacity : Nat) (tunnelFd : Int) (it : Fin (poolCapacity + 1)) :
    Safe (poolCapacity + 1) (start poolCapacity tunnelFd it : Worker K) := by
  have hok := ConnMgr.Ok.init poolCapacity
  have hcode := ConnMgr.alloc_init poolCapacity tunnelFd 0 it
  refine ⟨⟨(hok.alloc _ _ _).1, fun fd gid hreg => ?_, by simp [start], Manager.Ok.empty,
    by simp [start, Manager.tags]⟩, by simp [start], by simp [start], trivial, by simp [start]⟩
  refine (hok.gidOf_alloc hcode fd).trans ?_
  by_cases heq : fd = tunnelFd
  · subst heq
    simpa [start] using hreg
  · simp [start, heq] at hreg

/-- **No stale event reaches a reused file descriptor.** Whatever the contexts do, and in whatever
order timeouts, closes, new clients and the other threads' work come, an event is passed to a
connection only if that connection was registered for the file descriptor when `epoll_wait`
returned. -/
theorem no_stale_event (K : CtxKind) (poolCapacity : Nat) (tunnelFd : Int)
    (it : Fin (poolCapacity + 1)) (ls : List (Label K)) (w : Worker K)
    (hrun : exec step (start poolCapacity tunnelFd it) ls = some w) :
    ∀ d ∈ w.delivered, d.registered = some d.gid :=
  (exec_invariant (fun h _ hstep => h.moves (moves_of_step hstep))
    (safe_start poolCapacity tunnelFd it)
    (along_true ls _) hrun).delivered

/-- Client 1 at file descriptor 5 does not get through its TLS handshake and is timed out. The main
thread gets the number 5 for client 2 before the worker handles its events, which are one of the
tunnel, with the message of client 2, and one of client 1, which is not delivered. -/
theorem no_stale_event_reused :
    let K := streamKind (π := Unit) true fun _ _ => none
    let ev : AppThrows Unit × Event := ({}, { sslAccept := .pending })
    let ls : List (Label K) := [
      .accept 5 1, .wait [(3, ev)] 0, .event, .newClient 1 (.ok ({}, {})), .tunnelDone, .event,
      .wait [(3, ev), (5, ev)] 5, .closeTimeout 5, .accept 5 2,
      .event, .newClient 1 (.ok ({}, {})), .tunnelDone, .event, .event,
      .wait [(5, ev)] 5, .event]
    ∃ w, exec step (start 4 3 0) ls = some w ∧
      w.delivered = [⟨5, 2, some 2⟩] ∧ ∀ d ∈ w.delivered, d.registered = some d.gid := by
  intro K ev ls
  exact exists_exec (by decide +kernel) fun w hrun h => ⟨h, no_stale_event K 4 3 0 ls w hrun⟩

end Worker

end Avant.Workers
