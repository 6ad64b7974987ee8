import Avant.Workers.Loop

/-!
# What the application layer sees of a connection

The hooks of the application that concern a connection, over every run of a worker
(`Loop.lean`): `on_new_connection`, the messages, `on_close_connection`. A context is `Lawful` when
each of its operations keeps the calls in order by itself; what the worker adds is that it releases
a connection only where its context has closed it, or where the timeout finds that it was not
announced.

Results:
* `lawful_stream`, `lawful_websocket`: the contexts of both kinds are lawful;
* `Ordered.step`: what a step of a worker with lawful contexts preserves;
* **`life_cycle`**: for stream and WebSocket connections, in every run.
-/

namespace Avant.Workers

open Avant.Lib Avant.Conn Avant.Proto Avant.Socket Avant.Timers

/-- What the application layer is told of a connection. -/
inductive Life
  /-- `on_new_connection` -/
  | announced
  /-- a message is processed -/
  | message
  /-- `on_close_connection` -/
  | closed
  deriving DecidableEq

/-- The calls of one connection are in order: it is announced at most once and before any message,
and its end is told at most once and only if it was announced. -/
structure InOrder (xs : List Life) : Prop where
  announcedOnce : xs.count .announced ≤ 1
  announcedFirst : ∀ pre post, xs = pre ++ .message :: post → .announced ∈ pre
  closedOnce : xs.count .closed ≤ 1
  closedLast : ∀ pre post, xs = pre ++ .closed :: post → .announced ∈ pre

/-- The calls of a connection that is there: none before it is announced, messages behind that. -/
def Running (announced : Bool) (xs : List Life) : Prop :=
  if announced then ∃ ms, xs = .announced :: ms ∧ ∀ m ∈ ms, m = .message else xs = []

/-- The calls of a connection that was released: it was never announced, or it was told. -/
def Finished (xs : List Life) : Prop :=
  xs = [] ∨ ∃ ms, xs = .announced :: ms ++ [.closed] ∧ ∀ m ∈ ms, m = .message

theorem InOrder.nil : InOrder [] := ⟨by simp, by simp, by simp, by simp⟩

/-- What follows the announcement of a connection is messages, and perhaps its end. -/
theorem InOrder.announced {ms tail : List Life} (hms : ∀ m ∈ ms, m = .message)
    (htail : tail = [] ∨ tail = [.closed]) : InOrder (.announced :: ms ++ tail) := by
  have hcount : ∀ x, x ≠ .message → ms.count x = 0 := fun x hx =>
    List.count_eq_zero.mpr fun hmem => hx (hms x hmem)
  have hann := hcount .announced (by decide)
  have hclosed := hcount .closed (by decide)
  have hfirst : ∀ x, x ≠ .announced → ∀ pre post, .announced :: ms ++ tail = pre ++ x :: post →
      .announced ∈ pre := by
    intro x hx pre post heq
    cases pre with
    | nil =>
      rw [List.nil_append, List.cons_append] at heq
      exact absurd (List.cons.inj heq).1.symm hx
    | cons y pre =>
      rw [List.cons_append, List.cons_append] at heq
      exact (List.cons.inj heq).1 ▸ List.mem_cons_self
  refine ⟨?_, hfirst .message (by decide), ?_, hfirst .closed (by decide)⟩
  · rcases htail with rfl | rfl <;> simp [hann]
  · rcases htail with rfl | rfl <;> simp [hclosed]

variable {b : Bool} {xs : List Life}

theorem Running.inOrder (h : Running b xs) : InOrder xs := by
  unfold Running at h
  split at h
  · obtain ⟨ms, rfl, hms⟩ := h
    simpa using InOrder.announced hms (.inl rfl)
  · exact h ▸ .nil

theorem Finished.inOrder (h : Finished xs) : InOrder xs := by
  rcases h with rfl | ⟨ms, rfl, hms⟩
  · exact .nil
  · exact InOrder.announced hms (.inr rfl)

theorem Finished.closed (h : Finished xs) (hann : .announced ∈ xs) : .closed ∈ xs := by
  rcases h with rfl | ⟨ms, rfl, -⟩
  · simp at hann
  · simp

theorem Running.append {ms : List Life} (h : Running b xs) (hms : ∀ m ∈ ms, m = .message)
    (hb : b = true ∨ ms = []) : Running b (xs ++ ms) := by
  rcases hb with rfl | rfl
  · obtain ⟨ms', rfl, hms'⟩ := h
    refine ⟨ms' ++ ms, rfl, fun m hm => ?_⟩
    exact (List.mem_append.mp hm).elim (hms' m) (hms m)
  · rwa [List.append_nil]

/-- The end of a connection is told if it was announced. -/
theorem Running.finish (h : Running b xs) : Finished (if b then xs ++ [.closed] else xs) := by
  cases b with
  | true =>
    obtain ⟨ms, rfl, hms⟩ := h
    exact .inr ⟨ms, rfl, hms⟩
  | false => exact .inl h

/-- What the life cycle needs to know of a context. -/
structure AppView where
  /-- the context has a connection -/
  attached : Bool
  /-- `get_is_ready` -/
  ready : Bool
  /-- `get_app_layer_notified` -/
  notified : Bool
  /-- the handshake that comes before the announcement is through -/
  through : Bool
  life : List Life

namespace AppView

variable {v v₁ v' : AppView}

/-- A connection is ready when it was announced, which is when its handshake was through. -/
structure Ok (v : AppView) : Prop where
  ready : v.ready = v.notified
  through : v.notified = v.through
  running : Running v.notified v.life

/-- From `v` to `v'` nothing happens but messages. -/
structure Grows (v v' : AppView) : Prop where
  attached : v'.attached = v.attached
  ready : v'.ready = v.ready
  notified : v'.notified = v.notified
  through : v'.through = v.through
  life : ∃ ms, v'.life = v.life ++ ms ∧ ∀ m ∈ ms, m = .message

theorem Grows.of_eq (h : v' = v) : Grows v v' :=
  h ▸ ⟨rfl, rfl, rfl, rfl, [], (List.append_nil _).symm, by simp⟩

theorem Grows.trans (h : Grows v v₁) (h' : Grows v₁ v') : Grows v v' := by
  obtain ⟨ms, hlife, hms⟩ := h.life
  obtain ⟨ms', hlife', hms'⟩ := h'.life
  refine ⟨h'.attached.trans h.attached, h'.ready.trans h.ready, h'.notified.trans h.notified,
    h'.through.trans h.through, ms ++ ms', by rw [hlife', hlife, List.append_assoc], fun m hm => ?_⟩
  exact (List.mem_append.mp hm).elim (hms m) (hms' m)

/-- Messages are in order once the connection is announced. -/
theorem Ok.grows (h : v.Ok) (hthrough : v.through = true) (hg : Grows v v') : v'.Ok := by
  have hnotified : v.notified = true := h.through.trans hthrough
  obtain ⟨ms, hlife, hms⟩ := hg.life
  refine ⟨by rw [hg.ready, hg.notified, h.ready], by rw [hg.notified, hg.through, h.through], ?_⟩
  rw [hg.notified, hlife]
  exact h.running.append hms (.inl hnotified)

/-- The announcement. -/
def announce (v : AppView) : AppView :=
  { v with ready := true, notified := true, through := true, life := v.life ++ [.announced] }

theorem Ok.announce (h : v.Ok) (hthrough : v.through = false) : v.announce.Ok := by
  have hlife : v.life = [] := by
    have := h.running
    rwa [h.through, hthrough] at this
  exact ⟨rfl, rfl, [], by simp [AppView.announce, hlife], by simp⟩

/-- The end: the application is told of it if the connection is ready. -/
def close (v : AppView) : AppView :=
  { v with attached := false, life := if v.ready then v.life ++ [.closed] else v.life }

theorem Ok.close (h : v.Ok) : Finished v.close.life := by
  have := h.running.finish
  rwa [← h.ready] at this

end AppView

/-- The contexts of a kind keep the calls in order. -/
structure Lawful (K : CtxKind) (view : K.Ctx → AppView) : Prop where
  attached : ∀ c, K.attached c = (view c).attached
  notified : ∀ c, K.notified c = (view c).notified
  create : ∀ new, (view (K.onCreate new)).attached = true ∧ (view (K.onCreate new)).Ok
  event : ∀ c ev, (view c).attached = true → (view c).Ok →
    ((view (K.onEvent c ev)).attached = true ∧ (view (K.onEvent c ev)).Ok) ∨
      ((view (K.onEvent c ev)).attached = false ∧ Finished (view (K.onEvent c ev)).life)
  call : ∀ c x, (view c).attached = true → (view c).Ok →
    (view (K.call c x)).attached = true ∧ (view (K.call c x)).Ok

/-! ## Stream connections -/

section Stream

variable {π : Type} {useSsl : Bool} {parse : ParseFromArray π}

def Life.ofAppCall : AppCall π → Life
  | .newConnection => .announced
  | .recvPackage _ => .message
  | .closeConnection => .closed

/-- What the life cycle needs to know of a stream context. -/
def streamView (useSsl : Bool) (s : StreamCtx π) : AppView where
  attached := s.attached
  ready := s.conn.isReady
  notified := s.appLayerNotified
  through := !useSsl || s.conn.sslAccepted
  life := s.calls.map Life.ofAppCall

variable (throws : AppThrows π)

/-- The announcement behind a TLS handshake. -/
theorem streamView_accepted (s : StreamCtx π) :
    streamView true ({ s with conn := { s.conn with sslAccepted := true } }.announce throws).1 =
      (streamView true s).announce := by
  simp [streamView, StreamCtx.announce, AppView.announce, Life.ofAppCall]

theorem grows_deliver (useSsl : Bool) (ps : List π) (s : StreamCtx π) :
    (streamView useSsl s).Grows (streamView useSsl (s.deliver ps)) := by
  refine ⟨rfl, rfl, rfl, rfl, ps.map fun _ => .message, ?_, by simp⟩
  simp [streamView, StreamCtx.deliver, Life.ofAppCall, Function.comp_def]

theorem grows_processStep (useSsl : Bool) (parse : ParseFromArray π) (throws : AppThrows π)
    (s : StreamCtx π) :
    (streamView useSsl s).Grows (streamView useSsl (s.processStep parse throws).1) := by
  unfold StreamCtx.processStep
  split
  · unfold StreamCtx.onProcessConnection
    split
    · exact .of_eq rfl
    · simp only
      generalize frameLoop _ _ _ _ = r
      have hgrows := grows_deliver useSsl r.1 s
      cases r.2.2 with
      | left => exact hgrows.trans (.of_eq rfl)
      | refused => exact hgrows.trans (.of_eq rfl)
      | threw => exact hgrows.trans (.of_eq rfl)
  · exact .of_eq rfl

theorem grows_readProcessWrite (useSsl : Bool) (parse : ParseFromArray π) (throws : AppThrows π)
    (ev : Event) (s : StreamCtx π) :
    (streamView useSsl s).Grows (streamView useSsl (s.readProcessWrite parse throws ev)) := by
  unfold StreamCtx.readProcessWrite
  split
  · exact .of_eq rfl
  · rename_i bytes _
    have hgrows := grows_processStep useSsl parse throws
      (s.setRecvBuffer (s.conn.recvBuffer ++ bytes))
    simp only
    split
    · exact hgrows.trans (.of_eq rfl)
    · split
      · exact hgrows.trans (.of_eq rfl)
      · exact hgrows

/-- The TLS part announces the connection, ends the event, or has nothing to do. -/
theorem streamView_sslStep (ev : Event) (s : StreamCtx π) (h : (streamView useSsl s).Ok) :
    (streamView useSsl (s.sslStep useSsl throws ev).1).attached = s.attached ∧
      (streamView useSsl (s.sslStep useSsl throws ev).1).Ok ∧
      ((s.sslStep useSsl throws ev).2 = true →
        (streamView useSsl (s.sslStep useSsl throws ev).1).through = true) := by
  unfold StreamCtx.sslStep
  split
  · rename_i htls
    obtain ⟨rfl, hacc⟩ : useSsl = true ∧ s.conn.sslAccepted = false := by simpa using htls
    cases ev.sslAccept with
    | accepted =>
      have hok := h.announce (by simp [streamView, hacc])
      rw [← streamView_accepted throws] at hok
      simp only
      split
      · exact ⟨rfl, hok, by simp⟩
      · exact ⟨rfl, hok, fun _ => rfl⟩
    | pending => exact ⟨rfl, h, by simp⟩
    | failed => exact ⟨rfl, h, by simp⟩
  · rename_i htls
    refine ⟨rfl, h, fun _ => ?_⟩
    cases useSsl with
    | false => rfl
    | true => simpa [streamView] using htls

theorem streamView_onEvent (s : StreamCtx π) (ev : Event)
    (hatt : (streamView useSsl s).attached = true) (h : (streamView useSsl s).Ok) :
    ((streamView useSsl (s.onEvent useSsl parse throws ev)).attached = true ∧
        (streamView useSsl (s.onEvent useSsl parse throws ev)).Ok) ∨
      ((streamView useSsl (s.onEvent useSsl parse throws ev)).attached = false ∧
        Finished (streamView useSsl (s.onEvent useSsl parse throws ev)).life) := by
  have hatt' : s.attached = true := hatt
  unfold StreamCtx.onEvent
  rw [if_neg (by simp [hatt'])]
  -- a mark for closing does not show
  obtain ⟨s₁, hs₁, hview⟩ : ∃ s₁, (if ev.err then s.setIsClose else s) = s₁ ∧
      streamView useSsl s₁ = streamView useSsl s := by
    refine ⟨_, rfl, ?_⟩
    split <;> rfl
  simp only [hs₁]
  rw [← hview] at h hatt
  split
  · refine .inr ⟨rfl, ?_⟩
    have hfin := h.close
    have hlife : (streamView useSsl (if s₁.conn.isReady then
        { s₁ with calls := s₁.calls ++ [.closeConnection] } else s₁).closeClientFd).life =
          (streamView useSsl s₁).close.life := by
      cases hready : s₁.conn.isReady <;>
        simp [streamView, AppView.close, StreamCtx.closeClientFd, Life.ofAppCall, hready]
    rw [hlife]
    exact hfin
  · refine .inl ?_
    obtain ⟨hatt₂, hok₂, hthrough⟩ := streamView_sslStep throws ev s₁ h
    generalize s₁.sslStep useSsl throws ev = r at hatt₂ hok₂ hthrough
    obtain ⟨s₂, more⟩ := r
    cases more with
    | false => exact ⟨hatt₂.trans hatt, hok₂⟩
    | true =>
      have hg := grows_readProcessWrite useSsl parse throws ev s₂
      exact ⟨hg.attached.trans (hatt₂.trans hatt), hok₂.grows (hthrough rfl) hg⟩

theorem streamView_onCreate (s : StreamCtx π) (hcalls : s.calls = [])
    (hready : s.conn.isReady = false) (htls : useSsl = true → s.conn.sslAccepted = false) :
    (streamView useSsl (s.onCreate useSsl throws)).attached = true ∧
      (streamView useSsl (s.onCreate useSsl throws)).Ok := by
  unfold StreamCtx.onCreate
  cases useSsl with
  | true =>
    exact ⟨rfl, hready, by simp [streamView, htls], by simp [streamView, hcalls, Running]⟩
  | false =>
    have hok : (streamView false ({ s with appLayerNotified := false, attached := true }.announce
        throws).1).Ok :=
      ⟨rfl, rfl, [], by simp [streamView, StreamCtx.announce, hcalls, Life.ofAppCall], by simp⟩
    simp only [Bool.false_eq_true, if_false]
    split
    · exact ⟨rfl, hok⟩
    · exact ⟨rfl, hok⟩

/-- What the application does with a connection between its events does not show. -/
theorem streamView_sendSyncPackage (data : Bytes) (sends : List SendResult) (s : StreamCtx π) :
    streamView useSsl (s.sendSyncPackage data sends).1 = streamView useSsl s := by
  unfold StreamCtx.sendSyncPackage Connection.sendData
  split_ifs <;> rfl

theorem lawful_stream (useSsl : Bool) (parse : ParseFromArray π) :
    Lawful (streamKind useSsl parse) (streamView useSsl) where
  attached _ := rfl
  notified _ := rfl
  create new := streamView_onCreate new.2 _ rfl rfl (by rintro rfl; simp [reused])
  event s ev hatt h := streamView_onEvent ev.1 s ev.2 hatt h
  call s x hatt h := by
    cases x with
    | forward broadcast data sends =>
      have hsame : ∀ s : StreamCtx π, streamView useSsl (if notForwarded s.conn then s
          else (s.sendSyncPackage data sends).1) = streamView useSsl s := by
        intro s
        split
        · rfl
        · exact streamView_sendSyncPackage data sends s
      exact ⟨(congrArg AppView.attached (hsame s)).trans hatt, (hsame s).symm ▸ h⟩
    | close => exact ⟨hatt, h.ready, h.through, h.running⟩

end Stream

/-! ## WebSocket connections -/

section Websocket

variable {P π : Type} {A : WebsocketApp P π}

def Life.ofWsStep : WsStep π → Option Life
  | .newConnection => some .announced
  | .processFrame _ => some .message
  | .closeConnection => some .closed
  | .forward _ => none
  | .marked => none

/-- What the life cycle needs to know of a WebSocket context. -/
def websocketView (s : WebsocketCtx P π) : AppView where
  attached := s.attached
  ready := s.conn.isReady
  notified := s.appLayerNotified
  through := s.isConnected
  life := s.trace.filterMap Life.ofWsStep

theorem websocketView_setIsClose (s : WebsocketCtx P π) :
    websocketView s.setIsClose = websocketView s := by
  simp [websocketView, WebsocketCtx.setIsClose, WebsocketCtx.record, Life.ofWsStep]

theorem websocketView_trySendFlush (sends : List SendResult) (s : WebsocketCtx P π) :
    websocketView (s.trySendFlush sends) = websocketView s := by
  unfold WebsocketCtx.trySendFlush
  simp only
  split
  · exact websocketView_setIsClose _
  · rfl

theorem websocketView_sendSyncPackage (firstByte : UInt8) (data : Bytes) (sends : List SendResult)
    (s : WebsocketCtx P π) :
    websocketView (s.sendSyncPackage firstByte data sends).1 = websocketView s := by
  unfold WebsocketCtx.sendSyncPackage WebsocketCtx.sendData
  split_ifs
  · exact websocketView_setIsClose s
  · rfl
  · rfl
  · exact websocketView_trySendFlush sends _

theorem grows_onProcessFrame (throws : AppThrows π) (s : WebsocketCtx P π) :
    (websocketView s).Grows (websocketView (s.onProcessFrame A throws).1) := by
  have hmessage : (websocketView s).Grows (websocketView
      ({ s with framePayloadData := [] }.record (.processFrame s.framePayloadData))) :=
    ⟨rfl, rfl, rfl, rfl, [.message],
      by simp [websocketView, WebsocketCtx.record, Life.ofWsStep], by simp⟩
  unfold WebsocketCtx.onProcessFrame
  simp only
  split
  · exact hmessage.trans (.of_eq (websocketView_setIsClose _))
  · refine hmessage.trans (.of_eq ?_)
    simp [websocketView, WebsocketCtx.record, Life.ofWsStep]

theorem grows_frameTurn (throws : AppThrows π) (s : WebsocketCtx P π) :
    (websocketView s).Grows (websocketView (s.frameTurn A throws).1) := by
  have hnote : websocketView s.noteOpcode = websocketView s := by
    unfold WebsocketCtx.noteOpcode
    repeat' split
    all_goals rfl
  unfold WebsocketCtx.frameTurn
  simp only
  split
  · exact .of_eq hnote
  · exact .of_eq ((websocketView_setIsClose _).trans hnote)
  · exact .of_eq hnote
  · rename_i f index _
    have htake : (websocketView s).Grows (websocketView (s.noteOpcode.takeFrame f index)) :=
      .of_eq hnote
    split
    · exact htake.trans (grows_onProcessFrame throws _)
    · exact htake

theorem grows_frameLoop (throws : AppThrows π) :
    ∀ (fuel n : Nat) (s : WebsocketCtx P π),
      (websocketView s).Grows (websocketView (s.frameLoop A throws fuel n).1)
  | 0, _, _ => .of_eq rfl
  | fuel + 1, n, s => by
    have hturn := grows_frameTurn (A := A) throws s
    unfold WebsocketCtx.frameLoop
    generalize s.frameTurn A throws = r at hturn
    obtain ⟨s₁, turn⟩ := r
    cases turn with
    | leave => exact hturn
    | threw => exact hturn
    | next fin =>
      cases fin with
      | false => exact hturn.trans (grows_frameLoop throws fuel n s₁)
      | true =>
        simp only
        split
        · exact hturn
        · exact hturn.trans (grows_frameLoop throws fuel (n + 1) s₁)

theorem grows_wsProcessStep (throws : AppThrows π) (s : WebsocketCtx P π) :
    (websocketView s).Grows (websocketView (s.processStep A throws).1) := by
  unfold WebsocketCtx.processStep
  split
  · have hloop := grows_frameLoop (A := A) throws (s.conn.recvBuffer.length + 1) 0 s
    unfold WebsocketCtx.onProcessConnection
    generalize s.frameLoop A throws _ 0 = r at hloop
    obtain ⟨s₁, err⟩ := r
    cases err with
    | true => exact hloop
    | false =>
      simp only
      split_ifs
      · exact hloop.trans (.of_eq (websocketView_setIsClose s₁))
      · exact hloop.trans (.of_eq (websocketView_setIsClose s₁))
      · exact hloop
  · exact .of_eq rfl

theorem grows_wsReadProcessWrite (ev : WsEvent π) (recvs : List RecvResult)
    (s : WebsocketCtx P π) :
    (websocketView s).Grows (websocketView (s.readProcessWrite A ev recvs)) := by
  unfold WebsocketCtx.readProcessWrite
  split
  · exact .of_eq (websocketView_setIsClose s)
  · rename_i bytes _
    have hgrows : (websocketView s).Grows (websocketView
        ((s.appendRecv bytes).processStep A ev.throws).1) :=
      grows_wsProcessStep (A := A) ev.throws (s.appendRecv bytes)
    simp only
    split_ifs
    · exact hgrows.trans (.of_eq (websocketView_setIsClose _))
    · exact hgrows.trans (.of_eq (websocketView_trySendFlush ev.sends _))
    · exact hgrows

/-- The announcement behind the handshake. -/
theorem websocketView_notified (k v r : Bytes) (sends : List SendResult) (s : WebsocketCtx P π) :
    websocketView ((s.upgraded k v r).trySendFlush sends).notified = (websocketView s).announce := by
  have hsend := websocketView_trySendFlush sends (s.upgraded k v r)
  generalize (s.upgraded k v r).trySendFlush sends = s₁ at hsend
  have hatt := congrArg AppView.attached hsend
  have hready := congrArg AppView.ready hsend
  have hthrough := congrArg AppView.through hsend
  have hlife := congrArg AppView.life hsend
  simp only [websocketView, WebsocketCtx.upgraded] at hatt hready hthrough hlife
  simp [websocketView, AppView.announce, WebsocketCtx.notified, WebsocketCtx.record, Life.ofWsStep,
    *]

/-- The handshake announces the connection, ends the event, or has nothing to do. -/
theorem websocketView_handshakeStep (ev : WsEvent π) (s : WebsocketCtx P π)
    (h : (websocketView s).Ok) :
    (websocketView (s.handshakeStep A ev).1).attached = s.attached ∧
      (websocketView (s.handshakeStep A ev).1).Ok ∧
      ∀ recvs, (s.handshakeStep A ev).2 = some recvs →
        (websocketView (s.handshakeStep A ev).1).through = true := by
  rcases WebsocketCtx.handshakeStep_cases A ev s with
    ⟨hconn, hstep⟩ | ⟨hconn, p, m, u, hstep | hstep | hstep⟩
  · rw [hstep]
    exact ⟨rfl, h, fun _ _ => hconn⟩
  · rw [hstep]
    exact ⟨rfl, h, by simp⟩
  · rw [hstep, websocketView_setIsClose]
    exact ⟨rfl, h, by simp⟩
  · rw [hstep]
    rcases WebsocketCtx.upgradeStep_cases A ev (s.withRequest p m u) with
      ⟨k, v, hup⟩ | ⟨k, v, r, hup | hup⟩
    · rw [hup, websocketView_setIsClose]
      exact ⟨rfl, h, by simp⟩
    all_goals
      have hview := websocketView_notified k v r ev.handshakeSends (s.withRequest p m u)
      have hok : (websocketView (s.withRequest p m u)).announce.Ok := h.announce hconn
    · rw [hup, websocketView_setIsClose, hview]
      exact ⟨rfl, hok, by simp⟩
    · rw [hup, hview]
      exact ⟨rfl, hok, fun _ _ => rfl⟩

theorem websocketView_closeEvent (s : WebsocketCtx P π) :
    websocketView s.closeEvent =
      { (websocketView s).close with ready := (s.conn.onRelease).isReady } := by
  cases hready : s.conn.isReady <;>
    simp [websocketView, AppView.close, WebsocketCtx.closeEvent, WebsocketCtx.closeClientFd,
      WebsocketCtx.record, Life.ofWsStep, hready]

theorem websocketView_onEvent (s : WebsocketCtx P π) (ev : WsEvent π)
    (hatt : (websocketView s).attached = true) (h : (websocketView s).Ok) :
    ((websocketView (s.onEvent A ev)).attached = true ∧ (websocketView (s.onEvent A ev)).Ok) ∨
      ((websocketView (s.onEvent A ev)).attached = false ∧
        Finished (websocketView (s.onEvent A ev)).life) := by
  rcases WebsocketCtx.onEvent_cases A s ev with ⟨hdet, -⟩ | ⟨-, hcases⟩
  · exact absurd (hatt.symm.trans hdet) (by simp)
  rcases hcases with ⟨-, hev⟩ | ⟨-, hev⟩ | ⟨-, -, hcases⟩
  · rw [hev, websocketView_closeEvent, websocketView_setIsClose]
    exact .inr ⟨rfl, h.close⟩
  · rw [hev, websocketView_closeEvent]
    exact .inr ⟨rfl, h.close⟩
  refine .inl ?_
  rcases hcases with hev | hev | ⟨-, b, ⟨hnone, hev⟩ | ⟨recvs, hsome, hev⟩⟩
  · rw [hev]
    exact ⟨hatt, h⟩
  · rw [hev, websocketView_setIsClose]
    exact ⟨hatt, h⟩
  all_goals
    rw [hev]
    obtain ⟨hatt', hok, hthrough⟩ :=
      websocketView_handshakeStep (A := A) ev (s.withSslAccepted b) h
  · exact ⟨hatt'.trans hatt, hok⟩
  · have hg := grows_wsReadProcessWrite (A := A) ev recvs
      ((s.withSslAccepted b).handshakeStep A ev).1
    exact ⟨hg.attached.trans (hatt'.trans hatt), hok.grows (hthrough recvs hsome) hg⟩

theorem lawful_websocket (A : WebsocketApp P π) : Lawful (websocketKind A) websocketView where
  attached _ := rfl
  notified _ := rfl
  create _ := ⟨rfl, rfl, rfl, rfl⟩
  event s ev hatt h := websocketView_onEvent s ev hatt h
  call s x hatt h := by
    cases x with
    | forward broadcast data sends =>
      have hsame : ∀ s : WebsocketCtx P π, websocketView (if notForwarded s.conn then s
          else (s.sendSyncPackage (if broadcast then 0x81 else 0x82) data sends).1) =
            websocketView s := by
        intro s
        split
        · rfl
        · exact websocketView_sendSyncPackage _ data sends s
      exact ⟨(congrArg AppView.attached (hsame s)).trans hatt, (hsame s).symm ▸ h⟩
    | close =>
      have hsame := websocketView_setIsClose s
      exact ⟨(congrArg AppView.attached hsame).trans hatt, hsame.symm ▸ h⟩

end Websocket

/-! ## A worker with lawful contexts -/

namespace Worker

variable {K : CtxKind} {view : K.Ctx → AppView} {n : Nat} {w w' : Worker K} {fd : Int} {gid : Nat}

/-- How a connection may end. -/
structure Ended (view : K.Ctx → AppView) (e : K.Ctx × Cause) : Prop where
  finished : Finished (view e.1).life
  timeout : e.2 = .timeout → (view e.1).life = []

/-- The contexts of the connections in use, and of those that were released. -/
structure Lives (view : K.Ctx → AppView) (w : Worker K) : Prop where
  used : ∀ gid c, w.ctx gid = some c → ∃ fd, w.mgr.gidOf fd = some gid
  alive : ∀ gid c, w.ctx gid = some c → (view c).attached = true ∧ (view c).Ok
  ended : ∀ e ∈ w.ended, Ended view e

/-- The connections that are about to be timed out are not announced. -/
def Silent (view : K.Ctx → AppView) (w : Worker K) : Prop :=
  ∀ todo b, w.phase = .timeouts todo b → ∀ fd ∈ todo, ∀ gid c, w.mgr.gidOf fd = some gid →
    w.ctx gid = some c → (view c).notified = false

/-- A connection is released, with the context `c?`. -/
theorem Lives.released (h : Lives view w) (hok : w.mgr.Ok n) {cause : Cause}
    (hgid : w.mgr.gidOf fd = some gid) {c? : Option K.Ctx}
    (hended : ∀ c ∈ c?, Ended view (c, cause)) {w₁ : Worker K} (hmgr : w₁.mgr = w.mgr)
    (hctx : w₁.ctx = Function.update w.ctx gid c?) (hold : w₁.ended = w.ended) :
    Lives view (w₁.released cause fd gid) := by
  have hother : ∀ g c, (w₁.released cause fd gid).ctx g = some c → g ≠ gid ∧ w.ctx g = some c := by
    intro g c hc
    by_cases hg : g = gid
    · subst hg
      simp [Worker.released] at hc
    · exact ⟨hg, by simpa [Worker.released, hctx, hg] using hc⟩
  refine ⟨fun g c hc => ?_, fun g c hc => h.alive g c (hother g c hc).2, fun e he => ?_⟩
  · obtain ⟨hne, hc⟩ := hother g c hc
    obtain ⟨fd', hfd'⟩ := h.used g c hc
    refine ⟨fd', ?_⟩
    show (w₁.mgr.releaseConnection fd).2.gidOf fd' = some g
    rw [hmgr, hok.gidOf_release, if_neg, hfd']
    rintro rfl
    exact hne (Option.some.inj (hfd'.symm.trans hgid))
  · rcases List.mem_append.mp he with he | he
    · exact h.ended e (hold ▸ he)
    · rw [hctx, Function.update_self] at he
      obtain ⟨c, hc, rfl⟩ : ∃ c, c? = some c ∧ (c, cause) = e := by simpa using he
      exact hended c hc

/-- A connection is closed, or a file descriptor that has none. -/
theorem Lives.closeClientFd (h : Lives view w) (hok : w.mgr.Ok n) {cause : Cause}
    (hended : ∀ gid c, w.mgr.gidOf fd = some gid → w.ctx gid = some c → Ended view (c, cause)) :
    Lives view (w.closeClientFd cause fd) := by
  unfold Worker.closeClientFd
  cases hgid : w.mgr.gidOf fd with
  | none => exact { h with }
  | some gid =>
    exact h.released hok hgid (fun c hc => hended gid c hgid hc) rfl
      (Function.update_eq_self gid w.ctx).symm rfl

theorem Lives.setCtx (h : Lives view w) (hused : ∃ fd, w.mgr.gidOf fd = some gid) {c : K.Ctx}
    (hc : (view c).attached = true ∧ (view c).Ok) : Lives view (w.setCtx gid c) := by
  have hsplit : ∀ g c', (w.setCtx gid c).ctx g = some c' → g = gid ∧ c' = c ∨ w.ctx g = some c' := by
    intro g c' hc'
    by_cases hg : g = gid
    · subst hg
      refine .inl ⟨rfl, Option.some.inj (hc'.symm.trans ?_)⟩
      exact Function.update_self g (some c) w.ctx
    · exact .inr (by simpa [Worker.setCtx, hg] using hc')
  refine ⟨fun g c' hc' => ?_, fun g c' hc' => ?_, h.ended⟩
  · rcases hsplit g c' hc' with ⟨rfl, -⟩ | hold
    · exact hused
    · exact h.used g c' hold
  · rcases hsplit g c' hc' with ⟨-, rfl⟩ | hold
    · exact hc
    · exact h.alive g c' hold

/-- A connection that is allocated has no context yet. -/
theorem Lives.allocated (h : Lives view w) (hok : w.mgr.Ok n) {it : Nat} (registered : Bool)
    (hcode : (w.mgr.allocConnection fd gid it).1 = 0) :
    Lives view (w.allocated fd gid it registered) ∧ w.ctx gid = none := by
  constructor
  · refine ⟨fun g c hc => ?_, h.alive, h.ended⟩
    obtain ⟨fd', hfd'⟩ := h.used g c hc
    refine ⟨fd', (hok.gidOf_alloc hcode fd').trans ((if_neg ?_).trans hfd')⟩
    rintro rfl
    rw [hok.gidOf_eq, (ConnMgr.Ok.alloc_fd2gid hcode).1] at hfd'
    simp at hfd'
  · by_contra hne
    obtain ⟨c, hc⟩ := Option.ne_none_iff_exists'.mp hne
    obtain ⟨fd', hfd'⟩ := h.used gid c hc
    rw [hok.gidOf_eq, hok.inverse, ConnMgr.Ok.alloc_gid2fd hcode] at hfd'
    simp at hfd'

theorem Lives.onNewClientFd (law : Lawful K view) (h : Lives view w) (ha : Agrees n w)
    (hnew : w.mgr.gidOf fd = none) (gid it : Nat) (setup : Setup K) :
    Lives view (w.onNewClientFd fd gid it setup) := by
  unfold Worker.onNewClientFd
  split
  · exact h
  · split
    · exact h.closeClientFd ha.mgr fun g c hg => by simp [hnew] at hg
    · rename_i hcode
      have hcode := not_not.mp hcode
      have hclose : ∀ registered,
          Lives view ((w.allocated fd gid it registered).closeClientFd .setup fd) := by
        intro registered
        obtain ⟨hlives, hctx⟩ := h.allocated ha.mgr registered hcode
        refine hlives.closeClientFd (ha.mgr.alloc fd gid it).1 fun g c hg hc => ?_
        have hg' := (ha.mgr.gidOf_alloc hcode fd).symm.trans hg
        rw [if_pos rfl] at hg'
        cases hg'
        exact absurd (hctx.symm.trans hc) (by simp)
      cases setup with
      | noCtx => exact hclose false
      | epollFailed => exact hclose false
      | sslFailed => exact hclose true
      | ok new =>
        simp only
        split
        · exact hclose true
        · rename_i timers _
          obtain ⟨hlives, -⟩ := h.allocated ha.mgr true hcode
          have hlives' : Lives view ((w.allocated fd gid it true).setTimers timers) :=
            { hlives with }
          exact hlives'.setCtx ⟨fd, (ha.mgr.gidOf_alloc hcode fd).trans (if_pos rfl)⟩
            (law.create new)

/-- **An event** leaves the calls of its connection in order, or ends it. -/
theorem Lives.onClientEvent (law : Lawful K view) (h : Lives view w) (ha : Agrees n w)
    (hlive : w.mgr.gidOf fd = some gid) (ev : K.Ev) (snap : Int → Option Nat) :
    Lives view (w.onClientEvent fd ev snap) := by
  unfold Worker.onClientEvent
  simp only [hlive]
  cases hctx : w.ctx gid with
  | none => exact h
  | some c =>
    obtain ⟨hatt, hok⟩ := h.alive gid c hctx
    simp only
    rcases law.event c ev hatt hok with ⟨hatt', hok'⟩ | ⟨hdet, hfin⟩
    · rw [if_pos ((law.attached _).trans hatt')]
      have h' : Lives view (w.deliver ⟨fd, gid, snap fd⟩) := { h with }
      exact h'.setCtx ⟨fd, hlive⟩ ⟨hatt', hok'⟩
    · rw [if_neg (by simp [law.attached, hdet])]
      have hended : ∀ c' ∈ some (K.onEvent c ev), Ended view (c', .event) := by
        intro c' hc'
        cases hc'
        exact ⟨hfin, by simp⟩
      have hclose : ((w.deliver ⟨fd, gid, snap fd⟩).setCtx gid (K.onEvent c ev)).closeClientFd
          .event fd = ((w.deliver ⟨fd, gid, snap fd⟩).setCtx gid (K.onEvent c ev)).released
            .event fd gid := by
        unfold Worker.closeClientFd
        rw [show ((w.deliver ⟨fd, gid, snap fd⟩).setCtx gid (K.onEvent c ev)).mgr.gidOf fd =
          some gid from hlive]
      rw [hclose]
      exact h.released ha.mgr hlive hended rfl rfl rfl

/-- The invariant of a worker with lawful contexts. -/
structure Ordered (view : K.Ctx → AppView) (n : Nat) (w : Worker K) : Prop where
  safe : Safe n w
  lives : Lives view w
  silent : Silent view w

/-- No timeout is closed outside of the phase for it. -/
theorem silent_of_phase (h : ∀ todo b, w.phase ≠ .timeouts todo b) : Silent view w :=
  fun todo b hphase => absurd hphase (h todo b)

theorem phase_onClientEvent (h : Agrees n w) (fd : Int) (ev : K.Ev) (snap : Int → Option Nat) :
    (w.onClientEvent fd ev snap).phase = w.phase := by
  unfold Worker.onClientEvent
  split
  · split
    · rfl
    · exact (h.closeClientFd .missing fd).2.phase
  · split
    · rfl
    · rename_i gid _ _ c _
      have ha : Agrees n (w.deliver ⟨fd, gid, snap fd⟩) :=
        { h with }
      simp only
      split
      · rfl
      · exact ((ha.setCtx gid _).closeClientFd .event fd).2.phase

/-- The next event of a batch. -/
theorem Ordered.nextEvent (law : Lawful K view) (h : Ordered view n w) {b : Batch K}
    (hphase : w.phase = .events b) :
    Lives view (w.nextEvent b) ∧ Silent view (w.nextEvent b) := by
  have hb : BatchOk w.epoll b := by
    have := h.safe.phase
    rwa [hphase] at this
  have hlives : ∀ p, Lives view (w.enter p) := fun _ => { h.lives with }
  have hagrees : ∀ p, Agrees n (w.enter p) := fun _ =>
    { h.safe.agrees with }
  have henter : ∀ p : Phase K, (∀ todo b, p ≠ .timeouts todo b) →
      Lives view (w.enter p) ∧ Silent view (w.enter p) :=
    fun p hp => ⟨hlives p, silent_of_phase hp⟩
  unfold Worker.nextEvent
  cases hrest : b.rest with
  | nil => exact henter .idle (by simp)
  | cons e rest =>
    obtain ⟨fd, ev⟩ := e
    simp only
    split
    · exact henter (.events _) (by simp)
    · split
      · exact henter (.events _) (by simp)
      · rename_i hcopy
        split
        · exact henter (.tunnel _) (by simp)
        · obtain ⟨hsnap, hsome⟩ := hb.kept fd (by simp [hrest]) hcopy
          obtain ⟨gid, hgid⟩ := Option.isSome_iff_exists.mp hsome
          have hlive := h.safe.agrees.epoll fd gid (hsnap.trans hgid)
          let p : Phase K := .events ⟨rest, b.timeoutFdCopy, b.snap⟩
          refine ⟨(hlives p).onClientEvent law (hagrees p) hlive ev b.snap, silent_of_phase ?_⟩
          intro todo b'
          rw [phase_onClientEvent (hagrees p)]
          simp [Worker.enter]

/-- A timeout finds a connection that is not announced. -/
theorem silent_startIteration (law : Lawful K view) (h : Safe n w) (batch : List (Int × K.Ev))
    (now : Nat) : Silent view (w.startIteration batch now) := by
  unfold Worker.startIteration
  split
  · rintro todo b hphase fd hfd gid c hgid hctx
    obtain ⟨-, -, hran⟩ := Manager.checkAndHandle_spec h.agrees.timersOk now
    simp only [Worker.enter] at hphase
    split at hphase
    · simp at hphase
    · obtain ⟨rfl, -⟩ := Phase.timeouts.inj hphase
      obtain ⟨t, ht, hout⟩ := List.mem_filterMap.mp (List.mem_dedup.mp hfd)
      have hid : w.mgr.gidOf fd = some t.id :=
        h.agrees.timers t.id fd (timedOut_callback hout ▸ hran t ht)
      obtain rfl : t.id = gid := Option.some.inj (hid.symm.trans hgid)
      have hc : w.ctx t.id = some c := hctx
      unfold timedOut at hout
      split at hout
      · simp at hout
      · rw [hc] at hout
        have hnot := (Option.ite_none_left_eq_some.mp hout).1
        rw [← law.notified]
        simpa using hnot
  · exact silent_of_phase fun _ _ => by simp [Worker.enter]

/-- Closing takes contexts away. -/
theorem ctx_of_closeClientFd {cause : Cause} {c : K.Ctx}
    (h : (w.closeClientFd cause fd).ctx gid = some c) : w.ctx gid = some c := by
  unfold Worker.closeClientFd at h
  split at h
  · rename_i g _
    by_cases hg : gid = g
    · subst hg
      simp [Worker.released] at h
    · simpa [Worker.released, hg] using h
  · exact h

/-- A connection that was not announced is timed out. -/
theorem Ordered.closeTimeout (h : Ordered view n w) {todo : List Int} {b : Batch K}
    (hphase : w.phase = .timeouts todo b) (hfd : fd ∈ todo) :
    Ordered view n ((w.closeClientFd .timeout fd).enter
      (if todo.erase fd = [] then .events b else .timeouts (todo.erase fd) b)) := by
  have hnodup : todo.Nodup := by
    have := h.safe.phase
    rw [hphase] at this
    exact this.2.1
  have hlives : Lives view (w.closeClientFd .timeout fd) := by
    refine h.lives.closeClientFd h.safe.agrees.mgr fun g c hg hc => ?_
    have hnot := h.silent todo b hphase fd hfd g c hg hc
    have hlife : (view c).life = [] := by
      have := (h.lives.alive g c hc).2.running
      rwa [hnot] at this
    exact ⟨.inl hlife, fun _ => hlife⟩
  refine ⟨h.safe.closeTimeout hphase hfd, { hlives with }, ?_⟩
  rintro todo' b' hphase' fd' hfd' g c hg hc
  simp only [Worker.enter] at hphase'
  split at hphase'
  · simp at hphase'
  · obtain ⟨rfl, -⟩ := Phase.timeouts.inj hphase'
    obtain ⟨hne, hmem⟩ := hnodup.mem_erase_iff.mp hfd'
    have hg' := ((h.safe.agrees.closeClientFd .timeout fd).2.gidOf fd' hne).symm.trans hg
    refine h.silent todo b hphase fd' hmem g c hg' ?_
    exact ctx_of_closeClientFd hc

/-- **What a step preserves**, where the contexts are lawful. -/
theorem Ordered.moves (law : Lawful K view) (h : Ordered view n w) (hmove : Moves w w') :
    Ordered view n w' := by
  have hsafe := h.safe.moves hmove
  cases hmove with
  | accept fd gid hfree =>
    exact ⟨hsafe, { h.lives with }, h.silent⟩
  | otherOpen fd hfree =>
    exact ⟨hsafe, { h.lives with }, h.silent⟩
  | otherClose fd hfd =>
    exact ⟨hsafe, { h.lives with }, h.silent⟩
  | wait batch now hphase hret =>
    refine ⟨hsafe, ?_, silent_startIteration law h.safe batch now⟩
    unfold Worker.startIteration
    split
    · exact { h.lives with }
    · exact { h.lives with }
  | closeTimeout fd todo b hphase hfd => exact h.closeTimeout hphase hfd
  | event b hphase =>
    obtain ⟨hlives, hsilent⟩ := h.nextEvent law hphase
    exact ⟨hsafe, hlives, hsilent⟩
  | newClient b fd gid inbox it setup hphase hinbox =>
    have hfd : fd ∈ w.inbox.map Prod.fst := by simp [hinbox]
    have ha : Agrees n (w.setInbox inbox) :=
      { h.safe.agrees with }
    have hlives : Lives view (w.setInbox inbox) := { h.lives with }
    refine ⟨hsafe, hlives.onNewClientFd law ha
      (h.safe.agrees.foreign fd (h.safe.inboxOpen fd hfd)) gid it setup, silent_of_phase ?_⟩
    intro todo b'
    rw [(ha.onNewClientFd fd gid it setup).2.phase.trans hphase]
    simp
  | call b gid ctx c hphase hctx =>
    obtain ⟨hatt, hok⟩ := h.lives.alive gid ctx hctx
    refine ⟨hsafe, h.lives.setCtx (h.lives.used gid ctx hctx) (law.call ctx c hatt hok),
      silent_of_phase fun todo b' => ?_⟩
    rw [show (w.setCtx gid (K.call ctx c)).phase = .tunnel b from hphase]
    simp
  | tunnelDone b hphase =>
    exact ⟨hsafe, { h.lives with },
      silent_of_phase fun _ _ => by simp [Worker.enter]⟩

theorem ordered_start (poolCapacity : Nat) (tunnelFd : Int) (it : Fin (poolCapacity + 1)) :
    Ordered view (poolCapacity + 1) (start poolCapacity tunnelFd it) :=
  ⟨safe_start poolCapacity tunnelFd it, ⟨by simp [start], by simp [start], by simp [start]⟩,
    silent_of_phase fun _ _ => by simp [start]⟩

/-- The life cycle of every connection a worker has or had: the calls are in order; what was
released was told of its end if it was announced; and what was timed out was never announced. -/
structure LifeCycle (view : K.Ctx → AppView) (w : Worker K) : Prop where
  live : ∀ gid c, w.ctx gid = some c → InOrder (view c).life
  released : ∀ e ∈ w.ended, InOrder (view e.1).life
  told : ∀ e ∈ w.ended, .announced ∈ (view e.1).life → .closed ∈ (view e.1).life
  timedOut : ∀ e ∈ w.ended, e.2 = .timeout → .announced ∉ (view e.1).life

theorem Ordered.lifeCycle (h : Ordered view n w) : LifeCycle view w where
  live gid c hc := (h.lives.alive gid c hc).2.running.inOrder
  released e he := (h.lives.ended e he).finished.inOrder
  told e he hann := (h.lives.ended e he).finished.closed hann
  timedOut e he hcause := by
    rw [(h.lives.ended e he).timeout hcause]
    simp

theorem lifeCycle_run (law : Lawful K view) {poolCapacity : Nat} {tunnelFd : Int}
    {it : Fin (poolCapacity + 1)} {ls : List (Label K)}
    (hrun : exec step (start poolCapacity tunnelFd it) ls = some w) : LifeCycle view w :=
  (exec_invariant (fun h _ hstep => Ordered.moves law h (moves_of_step hstep))
    (ordered_start poolCapacity tunnelFd it) (along_true ls _) hrun).lifeCycle

/-- **The life cycle of stream and WebSocket connections.** In every run of a worker, whatever the
events, the TLS outcomes, the ticks and the exceptions of the application are: the application is
told of a connection at most once and before any of its messages, of its end at most once and only
if it was told of the connection, always before the connection is released; and the timeout
releases only connections it was never told of. -/
theorem life_cycle (poolCapacity : Nat) (tunnelFd : Int) (it : Fin (poolCapacity + 1)) :
    (∀ (π : Type) (useSsl : Bool) (parse : ParseFromArray π)
      (ls : List (Label (streamKind useSsl parse))) (w : Worker (streamKind useSsl parse)),
      exec step (start poolCapacity tunnelFd it) ls = some w → LifeCycle (streamView useSsl) w) ∧
    ∀ (P π : Type) (A : WebsocketApp P π) (ls : List (Label (websocketKind A)))
      (w : Worker (websocketKind A)),
      exec step (start poolCapacity tunnelFd it) ls = some w → LifeCycle websocketView w :=
  ⟨fun _ useSsl parse _ _ hrun => lifeCycle_run (lawful_stream useSsl parse) hrun,
    fun _ _ A _ _ hrun => lifeCycle_run (lawful_websocket A) hrun⟩

/-- A stream connection over TLS: the handshake is through at the second event, the peer closes at
the third, and the connection is released at the fourth. -/
theorem life_cycle_tls :
    let K := streamKind (π := Unit) true fun _ _ => none
    let ev (a : SslAccept) (rs : List RecvResult) : AppThrows Unit × Event :=
      ({}, { read := true, sslAccept := a, recvs := rs })
    let ls : List (Label K) := [
      .accept 5 1, .wait [(3, ev .pending [])] 0, .event, .newClient 1 (.ok ({}, {})), .tunnelDone,
      .event, .wait [(5, ev .pending [])] 1, .event, .event, .wait [(5, ev .accepted [])] 1, .event,
      .event, .wait [(5, ev .accepted [.closed])] 2, .event, .event, .wait [(5, ev .accepted [])] 2,
      .event]
    ∃ w, exec step (start 4 3 0) ls = some w ∧
      w.ended.map (fun e => ((streamView true e.1).life, e.2)) = [([.announced, .closed], .event)] ∧
      LifeCycle (streamView true) w := by
  intro K ev ls
  exact exists_exec (by decide +kernel) fun w hrun h =>
    ⟨h, (life_cycle 4 3 0).1 Unit true _ ls w hrun⟩

end Worker

end Avant.Workers
