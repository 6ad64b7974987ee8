import Avant.Socket.Io
import Avant.Tunnel.Fifo

/-!
# The tunnel handlers as written

`Net.lean` leaves open what a thread does next. Here are the functions of the threads, with their
loops: `try_send_flush_tunnel`, `tunnel_forward`, `on_tunnel_process` and `on_tunnel_event` of
`src/server/server.cpp` (the main thread) and of `src/workers/worker.cpp` and
`src/workers/other.cpp` (a thread). What the kernel answers, and which calls of `tunnel_forward` an
application makes for a package, are inputs.

A socket pair that fails sets `to_stop` and leaves the buffers as they are; the flag is left out.

Results:
* `Turns.packageLoop_fuel`: the loop over a receive buffer ends by itself;
* **`handle_reaches`**: a call of a handler is a run of the network;
* **`handlers_fifo`**: so the tunnels are queues under the handlers, too.
-/

namespace Avant.Tunnel

open Avant.Lib Avant.Proto Avant.Global
open Avant.Socket (SendResult flushLoop flushLoop_eq)

/-! ## Reading and sending -/

/-- `buffer_size` of `on_tunnel_event`. -/
def bufferSize : Nat := 1024000

/-- The read loop of `on_tunnel_event`: what it leaves in the socket, and its buffer. The numbers are
those of the bytes the calls of `recv` find. A call that finds none ends the loop, whatever its
errno is. -/
def recvLoop : List Nat → Bytes → Bytes → Bytes × Bytes
  | [], wire, buffer => (wire, buffer)
  | n :: ns, wire, buffer =>
    if buffer.length < bufferSize then
      let len := min n (bufferSize - buffer.length)
      if wire.take len = [] then (wire, buffer)
      else recvLoop ns (wire.drop len) (buffer ++ wire.take len)
    else (wire, buffer)

theorem recvLoop_eq (ns : List Nat) (wire buffer : Bytes) :
    ∃ n, recvLoop ns wire buffer = (wire.drop n, buffer ++ wire.take n) := by
  induction ns generalizing wire buffer with
  | nil => exact ⟨0, by simp [recvLoop]⟩
  | cons n ns ih =>
    rw [recvLoop]
    dsimp only
    split_ifs
    · exact ⟨0, by simp⟩
    · obtain ⟨k, hk⟩ := ih (wire.drop (min n (bufferSize - buffer.length)))
        (buffer ++ wire.take (min n (bufferSize - buffer.length)))
      exact ⟨_, by rw [hk, List.drop_drop, List.append_assoc, ← List.take_add]⟩
    · exact ⟨0, by simp⟩

/-- `on_tunnel_event` up to the loop over the receive buffer. -/
def readTunnel (p : Pipe) (ns : List Nat) : Pipe :=
  let (wire, buffer) := recvLoop ns p.wire []
  { p with wire := wire, recvBuf := p.recvBuf ++ buffer }

/-- `try_send_flush_tunnel`, with what the calls of `send` answer. -/
def trySendFlushTunnel (p : Pipe) (rs : List SendResult) : Pipe :=
  { p with sendBuf := (flushLoop rs p.sendBuf p.wire).1, wire := (flushLoop rs p.sendBuf p.wire).2.1 }

theorem readTunnel_eq (p : Pipe) (ns : List Nat) : ∃ n, readTunnel p ns = p.recv n := by
  obtain ⟨n, hn⟩ := recvLoop_eq ns p.wire []
  exact ⟨n, by rw [readTunnel, hn]; rfl⟩

theorem trySendFlushTunnel_eq (p : Pipe) (rs : List SendResult) :
    ∃ n, trySendFlushTunnel p rs = p.send n := by
  obtain ⟨n, hbuf, hwire⟩ := flushLoop_eq rs p.sendBuf p.wire
  exact ⟨n, by rw [trySendFlushTunnel, hbuf, hwire]; rfl⟩

/-! ## The functions of the threads -/

/-- A call of `tunnel_forward` by an application, with what the sends of its flush answer: nothing,
when `flush` is false. -/
structure ForwardArgs where
  dest : List Int
  message : ProtoPackage
  flush : List SendResult

section Functions

variable (workerCnt : Nat) (pb : Protobuf) (S : UnorderedSet)

/-- `server::tunnel_forward`. -/
def Net.mainForward (s : Net) (source dest : Int) (message : ProtoPackage) (flush : List SendResult) :
    Net :=
  match mainTunnelForward workerCnt pb source dest message with
  | .error _ => s
  | .ok data => s.setDown dest (trySendFlushTunnel ((s.down dest).append data) flush)

/-- `worker::tunnel_forward` and `other::tunnel_forward` in thread `id`. -/
def Net.forward (s : Net) (id : Int) (c : ForwardArgs) : Net :=
  match tunnelForward workerCnt pb S id c.dest c.message with
  | .error _ => s.note id c.dest c.message
  | .ok data =>
    (s.note id c.dest c.message).setUp id (trySendFlushTunnel ((s.up id).append data) c.flush)

/-- The last loop of `server::on_tunnel_process`, with the answers to each flush. -/
def forwardAll (t : ProtoTunnelPackage) :
    List Int → Net × List (List SendResult) → Net × List (List SendResult)
  | [], x => x
  | dest :: todo, (s, fs) =>
    forwardAll t todo
      (s.mainForward workerCnt pb t.sourceTunnelsId dest t.innerProtoPackage (fs.headD []), fs.tail)

/-- `server::on_tunnel_process`. -/
def mainOnTunnelProcess (p : ProtoPackage) (x : Net × List (List SendResult)) :
    Net × List (List SendResult) :=
  match mainTunnelProcess workerCnt pb S p with
  | none => x
  | some (t, all) => forwardAll workerCnt pb t all x

/-- `on_tunnel_process` in thread `id`, with the calls the application makes for each package. -/
def onTunnelProcess (id : Int) (p : ProtoPackage) (x : Net × List (List ForwardArgs)) :
    Net × List (List ForwardArgs) :=
  match pb.openPackage p with
  | none => x
  | some t =>
    ((x.2.headD []).foldl (fun s c => s.forward workerCnt pb S id c) (x.1.process id t), x.2.tail)

end Functions

/-! ## Events

`on_tunnel_event` is one function with three texts: it reads from one end of a socket pair, takes the
packages out of the receive buffer, and flushes what goes the other way. -/

/-- Where a thread finds the buffers of one direction of a socket pair. -/
structure End where
  get : Net → Pipe
  set : Net → Pipe → Net

/-- From thread `id` to the main thread. -/
def upEnd (id : Int) : End := ⟨fun s => s.up id, fun s p => s.setUp id p⟩

/-- From the main thread to thread `id`. -/
def downEnd (id : Int) : End := ⟨fun s => s.down id, fun s p => s.setDown id p⟩

/-- An event of a tunnel, with what the calls made while it is handled answer. -/
structure TunnelEvent (κ : Type) where
  /-- `event & READ` -/
  read : Bool
  /-- `event & WRITE` -/
  write : Bool
  recv : List Nat
  /-- what `on_tunnel_process` gets -/
  process : κ
  flush : List SendResult

section Events

variable {κ : Type} (pb : Protobuf) (recvEnd sendEnd : End)
  (process : ProtoPackage → Net × κ → Net × κ)

/-- The loop over the receive buffer, for at most `fuel` packages. A frame is removed behind the
call of `on_tunnel_process`. -/
def packageLoop : Nat → Net × κ → Net × κ
  | 0, x => x
  | fuel + 1, x =>
    let buf := (recvEnd.get x.1).recvBuf
    if buf = [] then x
    else
      match tunnelFrameStep (parseSlice pb.package.parse) buf with
      | .wait | .refuse => x
      | .skip r => (recvEnd.set x.1 { recvEnd.get x.1 with recvBuf := r }, x.2)
      | .package p _ =>
        let y := process p x
        let rest := moveReadPtrN (recvEnd.get y.1).recvBuf (addU64 8 (toh64FromBuffer buf))
        packageLoop fuel (recvEnd.set y.1 { recvEnd.get y.1 with recvBuf := rest }, y.2)

/-- The part of `on_tunnel_event` under `READ`. -/
def readEvent (s : Net) (e : TunnelEvent κ) : Net :=
  let s := recvEnd.set s (readTunnel (recvEnd.get s) e.recv)
  (packageLoop pb recvEnd process (recvEnd.get s).recvBuf.length (s, e.process)).1

/-- `on_tunnel_event`. -/
def onTunnelEvent (s : Net) (e : TunnelEvent κ) : Net :=
  let s := if e.read then readEvent pb recvEnd process s e else s
  if e.write then sendEnd.set s (trySendFlushTunnel (sendEnd.get s) e.flush) else s

end Events

section Handlers

variable (workerCnt : Nat) (pb : Protobuf) (S : UnorderedSet)

/-- What a thread is woken up for, or does on its own. -/
inductive Handler
  /-- the main thread has an event of the tunnel of thread `id` -/
  | mainEvent (id : Int) (e : TunnelEvent (List (List SendResult)))
  /-- the main thread forwards a package of its own, to a new client's worker -/
  | mainForward (dest : Int) (message : ProtoPackage) (flush : List SendResult)
  /-- thread `id` has an event of its tunnel -/
  | event (id : Int) (e : TunnelEvent (List (List ForwardArgs)))
  /-- an application forwards a package in thread `id` -/
  | forward (id : Int) (c : ForwardArgs)

/-- `on_tunnel_event` of `server`, for the tunnel of thread `id`. -/
def mainOnTunnelEvent (s : Net) (id : Int) (e : TunnelEvent (List (List SendResult))) : Net :=
  onTunnelEvent pb (upEnd id) (downEnd id) (mainOnTunnelProcess workerCnt pb S) s e

/-- `on_tunnel_event` of `worker` and `other`, in thread `id`. -/
def threadOnTunnelEvent (s : Net) (id : Int) (e : TunnelEvent (List (List ForwardArgs))) : Net :=
  onTunnelEvent pb (downEnd id) (upEnd id) (onTunnelProcess workerCnt pb S id) s e

/-- A call of a handler. -/
def handle (s : Net) : Handler → Option Net
  | .mainEvent id e => some (mainOnTunnelEvent workerCnt pb S s id e)
  | .mainForward dest message flush =>
    some ((s.note mainTunnelId [dest] message).mainForward workerCnt pb mainTunnelId dest message flush)
  | .event id e =>
    if hasTunnel workerCnt id then some (threadOnTunnelEvent workerCnt pb S s id e) else none
  | .forward id c => if hasTunnel workerCnt id then some (s.forward workerCnt pb S id c) else none

/-- The serialisations a handler's calls of `tunnel_forward` lead to succeed. -/
def Handler.Serialises : Handler → Prop
  | .mainEvent _ _ => True
  | .mainForward dest message _ => Tunnel.Serialises workerCnt pb S (.mainForward dest message)
  | .event id e => ∀ cs ∈ e.process, ∀ c ∈ cs,
      Tunnel.Serialises workerCnt pb S (.forward id c.dest c.message)
  | .forward id c => Tunnel.Serialises workerCnt pb S (.forward id c.dest c.message)

end Handlers

/-! ## The handlers are runs -/

section Runs

variable (workerCnt : Nat) (pb : Protobuf) (S : UnorderedSet)

/-- A run of the network in which all serialisations succeed. -/
abbrev Runs : Net → Net → Prop :=
  Reaches (Net.step workerCnt pb S) fun _ l => Serialises workerCnt pb S l

/-- A run between two states in which the main thread is not within a turn. -/
def IdleRun (s s' : Net) : Prop := s.turn = none → Runs workerCnt pb S s s' ∧ s'.turn = none

variable {workerCnt pb S} {s s₁ s' : Net} {id : Int}

namespace IdleRun

theorem refl (s : Net) : IdleRun workerCnt pb S s s := fun h => ⟨.refl s, h⟩

theorem trans (h : IdleRun workerCnt pb S s s₁) (h' : IdleRun workerCnt pb S s₁ s') :
    IdleRun workerCnt pb S s s' := by
  intro hidle
  obtain ⟨hrun, hidle₁⟩ := h hidle
  obtain ⟨hrun', hidle'⟩ := h' hidle₁
  exact ⟨hrun.trans hrun', hidle'⟩

theorem of_runs (h : Runs workerCnt pb S s s') (hturn : s'.turn = s.turn) :
    IdleRun workerCnt pb S s s' :=
  fun hidle => ⟨h, hturn.trans hidle⟩

end IdleRun

/-! ### Reading, sending, forwarding -/

theorem setUp_setUp (p q : Pipe) : (s.setUp id p).setUp id q = s.setUp id q := by
  simp [Net.setUp]

theorem setDown_setDown (p q : Pipe) : (s.setDown id p).setDown id q = s.setDown id q := by
  simp [Net.setDown]

@[simp] theorem up_setUp (p : Pipe) : (s.setUp id p).up id = p := by simp [Net.setUp]

@[simp] theorem down_setDown (p : Pipe) : (s.setDown id p).down id = p := by simp [Net.setDown]

theorem flush_runs (s : Net) (id : Int) (rs : List SendResult) :
    Runs workerCnt pb S s (s.setUp id (trySendFlushTunnel (s.up id) rs)) := by
  obtain ⟨n, hn⟩ := trySendFlushTunnel_eq (s.up id) rs
  rw [hn]
  exact .single (i := .send id n) rfl trivial

theorem mainFlush_runs (s : Net) (id : Int) (rs : List SendResult) :
    Runs workerCnt pb S s (s.setDown id (trySendFlushTunnel (s.down id) rs)) := by
  obtain ⟨n, hn⟩ := trySendFlushTunnel_eq (s.down id) rs
  rw [hn]
  exact .single (i := .mainSend id n) rfl trivial

theorem read_runs (s : Net) (id : Int) (ns : List Nat) :
    Runs workerCnt pb S s (s.setDown id (readTunnel (s.down id) ns)) := by
  obtain ⟨n, hn⟩ := readTunnel_eq (s.down id) ns
  rw [hn]
  exact .single (i := .recv id n) rfl trivial

theorem mainRead_runs (s : Net) (id : Int) (ns : List Nat) :
    Runs workerCnt pb S s (s.setUp id (readTunnel (s.up id) ns)) := by
  obtain ⟨n, hn⟩ := readTunnel_eq (s.up id) ns
  rw [hn]
  exact .single (i := .mainRecv id n) rfl trivial

theorem append_runs (data : Bytes) (rs : List SendResult)
    (h : Runs workerCnt pb S s (s₁.setUp id ((s₁.up id).append data))) :
    Runs workerCnt pb S s (s₁.setUp id (trySendFlushTunnel ((s₁.up id).append data) rs)) := by
  have hflush := h.trans (flush_runs _ id rs)
  rwa [up_setUp, setUp_setUp] at hflush

theorem mainAppend_runs (data : Bytes) (rs : List SendResult)
    (h : Runs workerCnt pb S s (s₁.setDown id ((s₁.down id).append data))) :
    Runs workerCnt pb S s (s₁.setDown id (trySendFlushTunnel ((s₁.down id).append data) rs)) := by
  have hflush := h.trans (mainFlush_runs _ id rs)
  rwa [down_setDown, setDown_setDown] at hflush

/-- A call of `tunnel_forward` in a thread. -/
theorem forward_idleRun (hid : hasTunnel workerCnt id = true) {c : ForwardArgs}
    (hc : Serialises workerCnt pb S (.forward id c.dest c.message)) :
    IdleRun workerCnt pb S s (s.forward workerCnt pb S id c) := by
  rw [Net.forward]
  cases hfwd : tunnelForward workerCnt pb S id c.dest c.message with
  | error e =>
    exact .of_runs (.single (by simp [Net.step, hid, hfwd]) hc) rfl
  | ok data =>
    have hstep : s.step workerCnt pb S (.forward id c.dest c.message) =
        some ((s.note id c.dest c.message).setUp id ((s.up id).append data)) := by
      simp [Net.step, hid, hfwd]
    exact .of_runs (append_runs data c.flush (.single hstep hc)) rfl

/-- Calls of `tunnel_forward`, one after the other. -/
theorem foldl_forward_idleRun (hid : hasTunnel workerCnt id = true) (cs : List ForwardArgs)
    (hcs : ∀ c ∈ cs, Serialises workerCnt pb S (.forward id c.dest c.message)) :
    IdleRun workerCnt pb S s (cs.foldl (fun s c => s.forward workerCnt pb S id c) s) := by
  induction cs generalizing s with
  | nil => exact .refl s
  | cons c cs ih =>
    exact (forward_idleRun hid (hcs c List.mem_cons_self)).trans
      (ih fun c' hc' => hcs c' (List.mem_cons_of_mem _ hc'))

/-! ### A turn of the main thread -/

/-- The main thread is in another turn, or in none. -/
def Net.withTurn (s : Net) (u : Option MainTurn) : Net := { s with turn := u }

theorem withTurn_eq_self {u : Option MainTurn} (h : s.turn = u) : s.withTurn u = s := by
  subst h
  rfl

theorem mainForward_withTurn (u : Option MainTurn) (source dest : Int) (m : ProtoPackage)
    (rs : List SendResult) :
    (s.withTurn u).mainForward workerCnt pb source dest m rs =
      (s.mainForward workerCnt pb source dest m rs).withTurn u := by
  unfold Net.mainForward
  split <;> rfl

/-- Forwarding writes to the threads only. -/
theorem mainForward_frame (source dest : Int) (m : ProtoPackage) (rs : List SendResult) :
    (s.mainForward workerCnt pb source dest m rs).up = s.up ∧
      (s.mainForward workerCnt pb source dest m rs).forwarded = s.forwarded ∧
      (s.mainForward workerCnt pb source dest m rs).turn = s.turn := by
  unfold Net.mainForward
  split <;> exact ⟨rfl, rfl, rfl⟩

theorem forwardAll_frame (t : ProtoTunnelPackage) (todo : List Int)
    (x : Net × List (List SendResult)) :
    (forwardAll workerCnt pb t todo x).1.up = x.1.up ∧
      (forwardAll workerCnt pb t todo x).1.forwarded = x.1.forwarded ∧
      (forwardAll workerCnt pb t todo x).1.turn = x.1.turn := by
  induction todo generalizing x with
  | nil => exact ⟨rfl, rfl, rfl⟩
  | cons dest todo ih =>
    rcases x with ⟨s, fs⟩
    rw [forwardAll, (ih _).1, (ih _).2.1, (ih _).2.2]
    exact mainForward_frame _ _ _ _

variable {size : Nat} {t : ProtoTunnelPackage} {r : Bytes}

/-- A package is forwarded to the next destination. -/
theorem mainPass_runs {dest : Int} {todo : List Int} (s : Net) (rs : List SendResult) :
    Runs workerCnt pb S (s.withTurn (some ⟨id, size, t, dest :: todo⟩))
      ((s.mainForward workerCnt pb t.sourceTunnelsId dest t.innerProtoPackage rs).withTurn
        (some ⟨id, size, t, todo⟩)) := by
  rw [← mainForward_withTurn]
  rw [Net.mainForward]
  cases hfwd : mainTunnelForward workerCnt pb t.sourceTunnelsId dest t.innerProtoPackage with
  | error e =>
    exact .single (i := .mainPass) (by simp [Net.step, Net.withTurn, hfwd]) trivial
  | ok data =>
    refine mainAppend_runs data rs (.single (i := .mainPass) ?_ trivial)
    simp [Net.step, Net.withTurn, hfwd]

theorem forwardAll_runs (todo : List Int) (x : Net × List (List SendResult)) :
    Runs workerCnt pb S (x.1.withTurn (some ⟨id, size, t, todo⟩))
      ((forwardAll workerCnt pb t todo x).1.withTurn (some ⟨id, size, t, []⟩)) := by
  induction todo generalizing x with
  | nil => exact .refl _
  | cons dest todo ih =>
    rcases x with ⟨s, fs⟩
    rw [forwardAll]
    exact (mainPass_runs s (fs.headD [])).trans (ih (_, fs.tail))

theorem mainDone_runs (hidle : s.turn = none) (hr : moveReadPtrN (s.up id).recvBuf size = r) :
    Runs workerCnt pb S (s.withTurn (some ⟨id, size, t, []⟩))
      (s.setUp id { s.up id with recvBuf := r }) := by
  refine .single (i := .mainDone) ?_ trivial
  rw [← hr]
  nth_rewrite 2 [← withTurn_eq_self hidle]
  rfl

/-- What is left behind a package is what is removed behind its processing. -/
theorem rest_of_package {π : Type} {parse : ParseFromArray π} {buf : Bytes} {p : π}
    (h : tunnelFrameStep parse buf = .package p r) :
    moveReadPtrN buf (addU64 8 (toh64FromBuffer buf)) = r := by
  unfold tunnelFrameStep at h
  dsimp only at h
  split_ifs at h
  unfold takeFrame at h
  dsimp only at h
  split_ifs at h
  split at h
  · simp at h
  · simp only [FrameStep.package.injEq] at h
    exact h.2

/-- **A turn of the main thread** is a run: it cuts out the package, forwards it to one destination
after the other, and removes it. -/
theorem mainTurn_idleRun {p : ProtoPackage} (fs : List (List SendResult))
    (hframe : tunnelFrameStep (parseSlice pb.package.parse) (s.up id).recvBuf = .package p r) :
    IdleRun workerCnt pb S s ((mainOnTunnelProcess workerCnt pb S p (s, fs)).1.setUp id
      { s.up id with recvBuf := r }) := by
  intro hidle
  rw [mainOnTunnelProcess]
  cases hproc : mainTunnelProcess workerCnt pb S p with
  | none =>
    exact ⟨.single (i := .mainFrame id) (by simp [Net.step, hidle, hframe, hproc]) trivial, hidle⟩
  | some ta =>
    rcases ta with ⟨t, all⟩
    obtain ⟨hup, -, hturn⟩ : (forwardAll workerCnt pb t all (s, fs)).1.up = s.up ∧ _ ∧
        (forwardAll workerCnt pb t all (s, fs)).1.turn = s.turn := forwardAll_frame t all (s, fs)
    have hbegin : s.step workerCnt pb S (.mainFrame id) = some (s.withTurn
        (some ⟨id, addU64 8 (toh64FromBuffer (s.up id).recvBuf), t, all⟩)) := by
      simp [Net.step, Net.withTurn, hidle, hframe, hproc]
    refine ⟨.head hbegin trivial ((forwardAll_runs all (s, fs)).trans ?_), hturn.trans hidle⟩
    rw [← hup] at hframe ⊢
    exact mainDone_runs (hturn.trans hidle) (rest_of_package hframe)

/-! ### A turn of a thread -/

/-- What a thread does for one package leaves its receive buffer alone. -/
theorem foldl_forward_setDown (cs : List ForwardArgs) (p : Pipe) :
    cs.foldl (fun s c => s.forward workerCnt pb S id c) (s.setDown id p) =
      (cs.foldl (fun s c => s.forward workerCnt pb S id c) s).setDown id p := by
  induction cs generalizing s with
  | nil => rfl
  | cons c cs ih =>
    have hc : (s.setDown id p).forward workerCnt pb S id c =
        (s.forward workerCnt pb S id c).setDown id p := by
      unfold Net.forward
      split <;> rfl
    rw [List.foldl_cons, List.foldl_cons, hc, ih]

/-- **A turn of a thread** is a run: it takes the package, and forwards what the application wants. -/
theorem turn_idleRun (hid : hasTunnel workerCnt id = true) {p : ProtoPackage}
    {css : List (List ForwardArgs)}
    (hcss : ∀ cs ∈ css, ∀ c ∈ cs, Serialises workerCnt pb S (.forward id c.dest c.message))
    (hframe : tunnelFrameStep (parseSlice pb.package.parse) (s.down id).recvBuf = .package p r) :
    IdleRun workerCnt pb S s ((onTunnelProcess workerCnt pb S id p (s, css)).1.setDown id
      { s.down id with recvBuf := r }) := by
  rw [onTunnelProcess]
  cases hopen : pb.openPackage p with
  | none =>
    exact .of_runs (.single (i := .frame id) (by simp [Net.step, hframe, hopen]) trivial) rfl
  | some t =>
    have hstep : s.step workerCnt pb S (.frame id) =
        some ((s.process id t).setDown id { s.down id with recvBuf := r }) := by
      simp [Net.step, hframe, hopen]
    have hhead : ∀ c ∈ css.headD [], Serialises workerCnt pb S (.forward id c.dest c.message) := by
      cases css with
      | nil => simp
      | cons cs css => exact hcss cs List.mem_cons_self
    -- the package is removed last, but the forwards do not touch that buffer
    rw [← foldl_forward_setDown]
    exact (IdleRun.of_runs (.single hstep trivial) rfl).trans (foldl_forward_idleRun hid _ hhead)

/-! ### Events -/

/-- A package that is cut out makes the buffer shorter: its size cannot wrap, in a buffer whose size
is a `size_t`. -/
theorem length_lt_of_package {π : Type} {parse : ParseFromArray π} {buf : Bytes} {p : π}
    (hbuf : buf.length < 2 ^ 64) (h : tunnelFrameStep parse buf = .package p r) :
    r.length < buf.length := by
  have hr := rest_of_package h
  unfold tunnelFrameStep at h
  dsimp only at h
  split_ifs at h with h8 hwait
  rw [Bool.or_eq_true, decide_eq_true_eq, decide_eq_true_eq, not_or] at hwait
  rw [← hr, moveReadPtrN_eq, List.length_drop, addU64]
  omega

section Events

variable {κ : Type}

/-- A relation that the turns of the loop over a receive buffer keep: `on_tunnel_process` does not
touch the buffer it is called from. -/
structure Turns (pb : Protobuf) (R : Net → Net → Prop) (recvEnd : End)
    (process : ProtoPackage → Net × κ → Net × κ) (ok : κ → Prop) : Prop where
  refl : ∀ s, R s s
  trans : ∀ {s s₁ s'}, R s s₁ → R s₁ s' → R s s'
  skip : ∀ s r, tunnelFrameStep (parseSlice pb.package.parse) (recvEnd.get s).recvBuf = .skip r →
    R s (recvEnd.set s { recvEnd.get s with recvBuf := r })
  package : ∀ s k p r, ok k →
    tunnelFrameStep (parseSlice pb.package.parse) (recvEnd.get s).recvBuf = .package p r →
    R s (recvEnd.set (process p (s, k)).1 { recvEnd.get s with recvBuf := r })
  ok_process : ∀ s k p, ok k → ok (process p (s, k)).2
  get_process : ∀ s k p, recvEnd.get (process p (s, k)).1 = recvEnd.get s
  get_set : ∀ s p, recvEnd.get (recvEnd.set s p) = p

namespace Turns

variable {R : Net → Net → Prop} {recvEnd : End} {process : ProtoPackage → Net × κ → Net × κ}
  {ok : κ → Prop} (H : Turns pb R recvEnd process ok)

include H

theorem packageLoop (fuel : Nat) (s : Net) (k : κ) (hk : ok k) :
    R s (packageLoop pb recvEnd process fuel (s, k)).1 := by
  induction fuel generalizing s k with
  | zero => exact H.refl s
  | succ fuel ih =>
    rw [Tunnel.packageLoop]
    dsimp only
    split_ifs
    · exact H.refl s
    · cases hframe : tunnelFrameStep (parseSlice pb.package.parse) (recvEnd.get s).recvBuf with
      | wait | refuse => exact H.refl s
      | skip r => exact H.skip s r hframe
      | package p r =>
        dsimp only
        rw [H.get_process, rest_of_package hframe]
        exact H.trans (H.package s k p r hk hframe) (ih _ _ (H.ok_process s k p hk))

/-- Behind the first package. -/
theorem packageLoop_of_package (fuel : Nat) (s : Net) {k : κ} (hk : ok k) {p : ProtoPackage} {r : Bytes}
    (hne : (recvEnd.get s).recvBuf ≠ [])
    (hframe : tunnelFrameStep (parseSlice pb.package.parse) (recvEnd.get s).recvBuf = .package p r) :
    R (recvEnd.set (process p (s, k)).1 { recvEnd.get s with recvBuf := r })
      (Tunnel.packageLoop pb recvEnd process (fuel + 1) (s, k)).1 := by
  rw [Tunnel.packageLoop]
  dsimp only
  rw [if_neg hne, hframe]
  dsimp only
  rw [H.get_process, rest_of_package hframe]
  exact H.packageLoop fuel _ _ (H.ok_process s k p hk)

/-- **The loop ends by itself**: with a turn for each byte of the buffer, more turns change nothing. -/
theorem packageLoop_fuel (n m : Nat) (s : Net) (k : κ)
    (hs : (recvEnd.get s).recvBuf.length < 2 ^ 64) (hn : (recvEnd.get s).recvBuf.length ≤ n)
    (hm : (recvEnd.get s).recvBuf.length ≤ m) :
    Tunnel.packageLoop pb recvEnd process n (s, k) =
      Tunnel.packageLoop pb recvEnd process m (s, k) := by
  induction n generalizing m s k with
  | zero =>
    have hnil := List.eq_nil_of_length_eq_zero (Nat.le_zero.mp hn)
    cases m <;> simp [Tunnel.packageLoop, hnil]
  | succ n ih =>
    cases m with
    | zero =>
      have hnil := List.eq_nil_of_length_eq_zero (Nat.le_zero.mp hm)
      simp [Tunnel.packageLoop, hnil]
    | succ m =>
      rw [Tunnel.packageLoop, Tunnel.packageLoop]
      split_ifs with hnil
      · rfl
      · cases hframe : tunnelFrameStep (parseSlice pb.package.parse) (recvEnd.get s).recvBuf with
        | wait | refuse | skip r => rfl
        | package p r =>
          have hlt := length_lt_of_package hs hframe
          dsimp only
          rw [H.get_process, rest_of_package hframe]
          refine ih m _ _ ?_ ?_ ?_ <;> rw [H.get_set] <;> dsimp only <;> omega

end Turns

/-- A handler whose parts are runs is a run. -/
theorem onTunnelEvent_idleRun {recvEnd sendEnd : End} {process : ProtoPackage → Net × κ → Net × κ}
    {ok : κ → Prop} (H : Turns pb (IdleRun workerCnt pb S) recvEnd process ok)
    (hread : ∀ s ns, IdleRun workerCnt pb S s (recvEnd.set s (readTunnel (recvEnd.get s) ns)))
    (hflush : ∀ s rs,
      IdleRun workerCnt pb S s (sendEnd.set s (trySendFlushTunnel (sendEnd.get s) rs)))
    (e : TunnelEvent κ) (he : ok e.process) :
    IdleRun workerCnt pb S s (onTunnelEvent pb recvEnd sendEnd process s e) := by
  have hpart : IdleRun workerCnt pb S s (if e.read then readEvent pb recvEnd process s e else s) := by
    split_ifs
    · exact (hread s e.recv).trans (H.packageLoop _ _ e.process he)
    · exact .refl s
  rw [onTunnelEvent]
  by_cases hwrite : e.write = true
  · rw [if_pos hwrite]
    exact hpart.trans (hflush _ _)
  · rw [if_neg hwrite]
    exact hpart

end Events

theorem mainOnTunnelProcess_frame (p : ProtoPackage) (x : Net × List (List SendResult)) :
    (mainOnTunnelProcess workerCnt pb S p x).1.up = x.1.up ∧
      (mainOnTunnelProcess workerCnt pb S p x).1.forwarded = x.1.forwarded := by
  unfold mainOnTunnelProcess
  split
  · exact ⟨rfl, rfl⟩
  · exact ⟨(forwardAll_frame _ _ x).1, (forwardAll_frame _ _ x).2.1⟩

theorem down_onTunnelProcess (p : ProtoPackage) (x : Net × List (List ForwardArgs)) :
    (onTunnelProcess workerCnt pb S id p x).1.down id = x.1.down id := by
  unfold onTunnelProcess
  split
  · rfl
  · rename_i t _
    have hself : (x.1.process id t).setDown id (x.1.down id) = x.1.process id t := by
      simp [Net.setDown, Net.process]
    dsimp only
    rw [← hself, foldl_forward_setDown, down_setDown]

/-- `server::on_tunnel_event`. -/
theorem mainTurns (id : Int) :
    Turns pb (IdleRun workerCnt pb S) (upEnd id) (mainOnTunnelProcess workerCnt pb S)
      fun _ => True where
  refl := .refl
  trans := .trans
  skip s r hframe := by
    intro hidle
    change tunnelFrameStep _ (s.up id).recvBuf = _ at hframe
    have hstep : s.step workerCnt pb S (.mainFrame id) =
        some (s.setUp id { s.up id with recvBuf := r }) := by simp [Net.step, hidle, hframe]
    exact ⟨.single hstep trivial, hidle⟩
  package s k p r _ hframe := mainTurn_idleRun k hframe
  ok_process _ _ _ h := h
  get_process s k p := congrFun (mainOnTunnelProcess_frame p (s, k)).1 id
  get_set s p := up_setUp p

/-- `on_tunnel_event` of `worker` and `other`. -/
theorem threadTurns (hid : hasTunnel workerCnt id = true) :
    Turns pb (IdleRun workerCnt pb S) (downEnd id) (onTunnelProcess workerCnt pb S id) fun css =>
      ∀ cs ∈ css, ∀ c ∈ cs, Serialises workerCnt pb S (.forward id c.dest c.message) where
  refl := .refl
  trans := .trans
  skip s r hframe := by
    change tunnelFrameStep _ (s.down id).recvBuf = _ at hframe
    have hstep : s.step workerCnt pb S (.frame id) =
        some (s.setDown id { s.down id with recvBuf := r }) := by simp [Net.step, hframe]
    exact .of_runs (.single hstep trivial) rfl
  package s k p r hk hframe := turn_idleRun hid hk hframe
  ok_process s k p hk := by
    unfold onTunnelProcess
    split
    · exact hk
    · exact fun cs hcs => hk cs (List.mem_of_mem_tail hcs)
  get_process s k p := down_onTunnelProcess p (s, k)
  get_set s p := down_setDown p

/-! ### The handlers -/

/-- **A call of a handler is a run of the network.** -/
theorem handle_reaches {h : Handler} (hser : h.Serialises workerCnt pb S)
    (hh : handle workerCnt pb S s h = some s') : IdleRun workerCnt pb S s s' := by
  cases h with
  | mainEvent id e =>
    cases hh
    exact onTunnelEvent_idleRun (mainTurns id) (fun s ns => .of_runs (mainRead_runs s id ns) rfl)
      (fun s rs => .of_runs (mainFlush_runs s id rs) rfl) e trivial
  | mainForward dest message rs =>
    cases hh
    rw [Net.mainForward]
    cases hfwd : mainTunnelForward workerCnt pb mainTunnelId dest message with
    | error e =>
      exact .of_runs (.single (i := .mainForward dest message) (by simp [Net.step, hfwd]) hser) rfl
    | ok data =>
      refine .of_runs (mainAppend_runs data rs (.single (i := .mainForward dest message) ?_ hser)) rfl
      rw [Net.step, hfwd]
      rfl
  | event id e =>
    rw [handle] at hh
    split_ifs at hh with hid
    cases hh
    exact onTunnelEvent_idleRun (threadTurns hid) (fun s ns => .of_runs (read_runs s id ns) rfl)
      (fun s rs => .of_runs (flush_runs s id rs) rfl) e hser
  | forward id c =>
    rw [handle] at hh
    split_ifs at hh with hid
    cases hh
    exact forward_idleRun hid hser

theorem Relayed.of_runs (h : Relayed workerCnt pb S s) (hrun : Runs workerCnt pb S s s') :
    Relayed workerCnt pb S s' :=
  hrun.invariant (fun hs hser hstep => sim_step hs hser hstep) h

/-- Every sequence of calls of handlers leads to a state of the network, between two turns. -/
theorem relayed_of_handlers {hs : List Handler} (hser : ∀ h ∈ hs, h.Serialises workerCnt pb S)
    (hrun : exec (handle workerCnt pb S) {} hs = some s) : Relayed workerCnt pb S s ∧ s.turn = none := by
  have halong : Along (handle workerCnt pb S) (fun _ h => h.Serialises workerCnt pb S) {} hs :=
    along_of_forall _ hser
  refine @exec_invariant _ _ _ _ (fun s => Relayed workerCnt pb S s ∧ s.turn = none) ?_ _ _ _
    ⟨relayed_init, rfl⟩ halong hrun
  rintro s h s' ⟨hs, hidle⟩ hser hh
  obtain ⟨hreach, hidle'⟩ := handle_reaches hser hh hidle
  exact ⟨hs.of_runs hreach, hidle'⟩

end Runs

/-- **The tunnels are queues under the handlers**: in every sequence of events and calls of
`tunnel_forward`, whatever the kernel answers and the applications forward, what a worker has processed
from a thread are the first of the messages forwarded to it, in order, and all of them when the
buffers have drained. -/
theorem handlers_fifo {workerCnt : Nat} {pb : Protobuf} {S : UnorderedSet} {hs : List Handler} {s : Net}
    (hser : ∀ h ∈ hs, h.Serialises workerCnt pb S)
    (hrun : exec (handle workerCnt pb S) {} hs = some s) (x : Int) {d : Int}
    (hd : isWorkerTunnelId workerCnt d = true) :
    s.processedFrom d x <+: s.forwardedTo x d ∧
      (s.Drained → s.processedFrom d x = s.forwardedTo x d) :=
  (relayed_of_handlers hser hrun).1.fifo x hd

/-- Worker 0 forwards to worker 1; its flush sends five bytes, an event the others. -/
def zeroToOne : List Handler :=
  [.forward 0 ⟨[1], ⟨7, [65]⟩, [.sent 5, .again]⟩, .event 0 ⟨false, true, [], [], [.sent 99]⟩,
    .mainEvent 0 ⟨true, false, [4, 99], [[.sent 99]], []⟩, .event 1 ⟨true, false, [99], [], []⟩]

theorem handlers_fifo_zero_to_one :
    ∃ s, exec (handle 2 proto3 .inOrder) {} zeroToOne = some s ∧ s.processedFrom 1 0 = [⟨7, [65]⟩] ∧
      s.processedFrom 1 0 <+: s.forwardedTo 0 1 := by
  have hfirst : Serialises 2 proto3 .inOrder (.forward 0 [1] ⟨7, [65]⟩) := by decide +kernel
  have hser : ∀ h ∈ zeroToOne, h.Serialises 2 proto3 .inOrder := by
    simp [zeroToOne, Handler.Serialises, hfirst]
  exact exists_exec (by decide +kernel) fun s hs h => ⟨h, (handlers_fifo hser hs 0 (by decide)).1⟩

end Avant.Tunnel
