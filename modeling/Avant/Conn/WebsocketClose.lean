import Avant.Conn.WebsocketFraming
import Avant.Lib.HttpRequest
import Avant.Lib.Machine
import Avant.Proto.Wire

/-!
# What a WebSocket connection forwards after it is marked for closing

A mark takes effect at the next event. Where the mark is set inside the frame loop, because a
message does not parse, the loop goes on: `on_process_frame` returns nothing that would end it,
other than the branch of a refused opcode, which leaves the loop. The same holds of a mark set by
the send of the handshake's response.

Results:
* **`silent_of_orderly`**: in every run in which no message that parses stands behind one that
  does not in what an event reads (an event that finds the connection marked reads nothing), and no mark is set by the send of a handshake's response before
  such a message, no message is forwarded after a mark;
* `not_silent_two_messages`: two messages in one read, of which the first does not parse.
-/

namespace Avant.Conn

open Avant.Lib Avant.Lib.Ws Avant.Socket Avant.App

variable {P π : Type}

/-- A message is forwarded. -/
def WsStep.isForward : WsStep π → Bool
  | .forward _ => true
  | _ => false

/-- What can happen to a connection: an event, a package that the application sends it, or the
close command of the other thread. -/
inductive WsInput (π : Type)
  | event (ev : WsEvent π)
  | sendSync (firstByte : UInt8) (data : Bytes) (sends : List SendResult)
  | closeByOther

namespace WebsocketCtx

variable {A : WebsocketApp P π} {throws : AppThrows π} {ev : WsEvent π}
  {s s₁ s' : WebsocketCtx P π}

/-- One input. A connection that was closed is not found by its gid. -/
def step (A : WebsocketApp P π) (s : WebsocketCtx P π) : WsInput π → Option (WebsocketCtx P π)
  | .event ev => some (s.onEvent A ev)
  | .sendSync firstByte data sends =>
    some (if s.attached then (s.sendSyncPackage firstByte data sends).1 else s)
  | .closeByOther => some (if s.attached then s.setIsClose else s)

/-- No message is forwarded after the connection is marked for closing. -/
def Silent (s : WebsocketCtx P π) : Prop :=
  s.trace.Pairwise fun a b => a = .marked → b.isForward = false

/-- The receive buffer of an event, with all the bytes it reads behind the handshake. -/
def frameBytes (A : WebsocketApp P π) (ev : WsEvent π) (s : WebsocketCtx P π) : Bytes :=
  s.conn.recvBuffer ++
    ((if ev.read then recvLoop 10240 (s.leftRecvs A ev) [] else some []).getD [])

/-- The messages that are complete in a buffer, up to the first frame that is not allowed. -/
def completeMessages (pending buf : Bytes) : List Bytes :=
  (reassemble pending ((frames.decAll buf.length buf).1.takeWhile fun w => allowed w.opcode)).1

/-- The condition of an event: behind a message that does not parse none of those that the event
completes parses; and where the event sends the response of a handshake, no answer to that is an
error, or none of the messages parses. -/
structure Orderly (A : WebsocketApp P π) (ev : WsEvent π) (s : WebsocketCtx P π) : Prop where
  messages : (completeMessages s.framePayloadData (s.frameBytes A ev)).Pairwise
    fun m m' => (A.parse m).isNone → (A.parse m').isNone
  handshake : s.isConnected = false →
    (∀ r ∈ ev.handshakeSends, r ≠ .zero ∧ r ≠ .failed) ∨
      ∀ m ∈ completeMessages s.framePayloadData (s.frameBytes A ev), (A.parse m).isNone

/-- The event gets as far as the handshake and the frames. -/
def enters (A : WebsocketApp P π) (ev : WsEvent π) (s : WebsocketCtx P π) : Bool :=
  s.attached && !ev.err && !s.conn.isClose && (s.sslStep A ev).2

/-- The condition of a step. -/
def OrderlyInput (A : WebsocketApp P π) (s : WebsocketCtx P π) : WsInput π → Prop
  | .event ev => s.enters A ev = true → s.Orderly A ev
  | _ => True

/-! ## Marks -/

/-- A connection that is not marked has no mark in its trace. -/
def Clean (s : WebsocketCtx P π) : Prop := s.conn.isClose = false → .marked ∉ s.trace

/-- From `s` to `s'` nothing is forwarded, and a mark shows. -/
structure Mute (s s' : WebsocketCtx P π) : Prop where
  trace : ∃ xs, s'.trace = s.trace ++ xs ∧ ∀ x ∈ xs, x.isForward = false
  clean : s.Clean → s'.Clean

theorem Mute.trans (h : Mute s s₁) (h' : Mute s₁ s') : Mute s s' := by
  obtain ⟨xs, hxs, hx⟩ := h.trace
  obtain ⟨ys, hys, hy⟩ := h'.trace
  refine ⟨⟨xs ++ ys, by rw [hys, hxs, List.append_assoc], fun x hx' => ?_⟩,
    fun hc => h'.clean (h.clean hc)⟩
  exact (List.mem_append.mp hx').elim (hx x) (hy x)

theorem Mute.of_eq (htrace : s'.trace = s.trace) (hclose : s'.conn.isClose = s.conn.isClose) :
    Mute s s' :=
  ⟨⟨[], by rw [htrace, List.append_nil], by simp⟩,
    fun hc h => htrace ▸ hc (hclose ▸ h)⟩

theorem Mute.refl (s : WebsocketCtx P π) : Mute s s := .of_eq rfl rfl

theorem mute_setIsClose (s : WebsocketCtx P π) : Mute s s.setIsClose :=
  ⟨⟨[.marked], rfl, by simp [WsStep.isForward]⟩, fun _ h => by simp [setIsClose, record] at h⟩

theorem mute_record {x : WsStep π} (hx : x.isForward = false) (hm : x ≠ .marked)
    (s : WebsocketCtx P π) : Mute s (s.record x) := by
  refine ⟨⟨[x], rfl, by simpa using hx⟩, fun hc h => ?_⟩
  have := hc h
  simp only [record, List.mem_append, List.mem_singleton]
  rintro (h' | h')
  · exact this h'
  · exact hm h'.symm

theorem mute_trySendFlush (sends : List SendResult) (s : WebsocketCtx P π) :
    Mute s (s.trySendFlush sends) := by
  have hsent : ∀ b w, Mute s (s.withSent b w) := fun _ _ => .of_eq rfl rfl
  unfold trySendFlush
  simp only
  split
  · exact (hsent _ _).trans (mute_setIsClose _)
  · exact hsent _ _

theorem silent_of_forward_absent {xs ys : List (WsStep π)}
    (h : xs.Pairwise fun a b => a = .marked → b.isForward = false)
    (hy : ∀ y ∈ ys, y.isForward = false ∨ .marked ∉ xs ++ ys) :
    (xs ++ ys).Pairwise fun a b => a = .marked → b.isForward = false := by
  rw [List.pairwise_append]
  refine ⟨h, List.pairwise_of_forall_mem_list fun a ha b hb hm => ?_, fun a ha b hb hm => ?_⟩
  · exact (hy b hb).resolve_right fun hno => hno (List.mem_append_right _ (hm ▸ ha))
  · exact (hy b hb).resolve_right fun hno => hno (List.mem_append_left _ (hm ▸ ha))

theorem Silent.append (h : s.Silent) {xs : List (WsStep π)} (hxs : s'.trace = s.trace ++ xs)
    (hx : ∀ x ∈ xs, x.isForward = false) : s'.Silent := by
  rw [Silent, hxs]
  exact silent_of_forward_absent h fun x hx' => .inl (hx x hx')

theorem Silent.mute (h : s.Silent) (hm : Mute s s') : s'.Silent := by
  obtain ⟨xs, hxs, hx⟩ := hm.trace
  exact h.append hxs hx

/-! ## The frame loop -/

/-- Messages handled in an order in which none that parses follows one that does not, or of which
none parses. -/
theorem silent_handled {xs : List (WsStep π)} {ms : List Bytes}
    (h : xs.Pairwise fun a b => a = .marked → b.isForward = false)
    (hms : (.marked ∉ xs ∧ ms.Pairwise fun m m' => (A.parse m).isNone → (A.parse m').isNone) ∨
      ∀ m ∈ ms, (A.parse m).isNone) :
    (xs ++ ms.flatMap (handled A)).Pairwise fun a b => a = .marked → b.isForward = false := by
  induction ms generalizing xs with
  | nil => simpa using h
  | cons m ms ih =>
    rw [List.flatMap_cons, ← List.append_assoc]
    cases hp : A.parse m with
    | none =>
      -- from here on no message parses
      refine ih (silent_of_forward_absent h fun y hy => .inl ?_) (.inr fun m' hm' => ?_)
      · rw [handled, hp] at hy
        simp only [List.mem_cons, List.not_mem_nil, or_false] at hy
        rcases hy with rfl | rfl <;> rfl
      · rcases hms with ⟨-, hpair⟩ | hall
        · exact (List.pairwise_cons.mp hpair).1 m' hm' (by simp [hp])
        · exact hall m' (List.mem_cons_of_mem _ hm')
    | some p =>
      obtain ⟨hclean, hpair⟩ : .marked ∉ xs ∧ (m :: ms).Pairwise
          fun m m' => (A.parse m).isNone → (A.parse m').isNone := by
        rcases hms with hleft | hall
        · exact hleft
        · simpa [hp] using hall m List.mem_cons_self
      have hclean' : .marked ∉ xs ++ handled A m := by
        rw [handled, hp]
        simpa using hclean
      exact ih (silent_of_forward_absent h fun y _ => .inr hclean')
        (.inl ⟨hclean', (List.pairwise_cons.mp hpair).2⟩)

theorem Taken.clean {ws : List Frame} (h : Taken A ws s s') (hc : s.Clean) : s'.Clean := by
  intro hclose
  rw [h.isClose, Bool.or_eq_false_iff, List.any_eq_false] at hclose
  rw [h.trace, List.mem_append, List.mem_flatMap]
  rintro (hmark | ⟨m, hm, hmark⟩)
  · exact hc hclose.1 hmark
  · have hsome := hclose.2 m hm
    unfold handled at hmark
    cases hp : A.parse m with
    | none => simp [hp] at hsome
    | some p => simp [hp] at hmark

/-- The messages the loop handles are among those that are complete in the buffer. -/
theorem Taken.messages_prefix {ws : List Frame} (h : Taken A ws s s') :
    (reassemble s.framePayloadData ws).1 <+:
      completeMessages s.framePayloadData s.conn.recvBuffer := by
  have hlen : ws.length ≤ s.conn.recvBuffer.length := by
    have := FrameCodec.length_le_encAll (F := frames) ws
    rw [h.buffer, List.length_append]
    omega
  have hpre : ws <+: (frames.decAll s.conn.recvBuffer.length s.conn.recvBuffer).1 := by
    have := FrameCodec.prefix_decAll (F := frames) hlen s'.conn.recvBuffer
    rwa [← h.buffer] at this
  obtain ⟨t, ht⟩ := hpre
  rw [completeMessages, ← ht, List.takeWhile_append_of_pos h.opcodes, reassemble_append]
  exact List.prefix_append _ _

/-- What an event does behind the frames: it may mark the connection and flush the send buffer. -/
inductive Wraps (s : WebsocketCtx P π) : WebsocketCtx P π → Prop
  | refl : Wraps s s
  | mark {t : WebsocketCtx P π} (h : Wraps s t) : Wraps s t.setIsClose
  | flush {t : WebsocketCtx P π} (h : Wraps s t) (sends : List SendResult) :
      Wraps s (t.trySendFlush sends)

theorem Wraps.mute (h : Wraps s s') : Mute s s' := by
  induction h with
  | refl => exact .refl s
  | mark _ ih => exact ih.trans (mute_setIsClose _)
  | flush _ sends ih => exact ih.trans (mute_trySendFlush sends _)

theorem onProcessConnection_taken (A : WebsocketApp P π) (throws : AppThrows π)
    (s : WebsocketCtx P π) :
    ∃ ws s₁, Taken A ws s s₁ ∧ Wraps s₁ (s.onProcessConnection A throws).1 := by
  obtain ⟨ws, s₁, htaken, hend⟩ := frameLoop_taken A throws (s.conn.recvBuffer.length + 1) 0 s
  refine ⟨ws, s₁, htaken, ?_⟩
  have hwraps : Wraps s₁ (s.frameLoop A throws (s.conn.recvBuffer.length + 1) 0).1 := by
    generalize s.frameLoop A throws (s.conn.recvBuffer.length + 1) 0 = result at hend
    cases hend with
    | refused h => exact .mark .refl
    | _ => exact .refl
  unfold onProcessConnection
  split
  · rename_i heq
    rwa [heq] at hwraps
  · rename_i heq
    rw [heq] at hwraps
    split_ifs
    · exact .mark hwraps
    · exact .mark hwraps
    · exact hwraps

theorem taken_refl (A : WebsocketApp P π) (s : WebsocketCtx P π) : Taken A [] s s :=
  ⟨by simp, rfl, rfl, (List.append_nil _).symm, (Bool.or_false _).symm, rfl⟩

/-- The rest of an event behind the handshake: it reads, the loop takes frames, and nothing else
forwards. -/
theorem readProcessWrite_taken (A : WebsocketApp P π) (ev : WsEvent π) (recvs : List RecvResult)
    (s : WebsocketCtx P π) :
    ∃ ws s₁, Taken A ws (s.appendRecv
        ((if ev.read then recvLoop 10240 recvs [] else some []).getD [])) s₁ ∧
      Wraps s₁ (s.readProcessWrite A ev recvs) := by
  unfold readProcessWrite
  cases hread : (if ev.read then recvLoop 10240 recvs [] else some []) with
  | none =>
    have happend : s.appendRecv [] = s := by simp [appendRecv]
    rw [Option.getD_none, happend]
    exact ⟨[], s, taken_refl A s, .mark .refl⟩
  | some bytes =>
    rw [Option.getD_some]
    obtain ⟨ws, s₁, htaken, hwraps⟩ : ∃ ws s₁, Taken A ws (s.appendRecv bytes) s₁ ∧
        Wraps s₁ ((s.appendRecv bytes).processStep A ev.throws).1 := by
      unfold processStep
      split
      · exact onProcessConnection_taken A ev.throws _
      · exact ⟨[], _, taken_refl A _, .refl⟩
    refine ⟨ws, s₁, htaken, ?_⟩
    simp only
    split_ifs
    · exact .mark hwraps
    · exact .flush hwraps _
    · exact hwraps

/-! ## Events and runs -/

/-- What every run keeps. -/
structure Kept (s : WebsocketCtx P π) : Prop where
  silent : s.Silent
  clean : s.attached = true → s.Clean

theorem Kept.mute (h : s.Kept) (ha : s.attached = true) (hm : Mute s s') : s'.Kept :=
  ⟨h.silent.mute hm, fun _ => hm.clean (h.clean ha)⟩

/-- The part of an event that handles frames, behind the handshake. -/
theorem readProcessWrite_kept (hsilent : s.Silent) (hclean : s.Clean) {recvs : List RecvResult}
    {buf : Bytes}
    (hbuf : buf = s.conn.recvBuffer ++
      ((if ev.read then recvLoop 10240 recvs [] else some []).getD []))
    (hms : (.marked ∉ s.trace ∧ (completeMessages s.framePayloadData buf).Pairwise
        fun m m' => (A.parse m).isNone → (A.parse m').isNone) ∨
      ∀ m ∈ completeMessages s.framePayloadData buf, (A.parse m).isNone) :
    (s.readProcessWrite A ev recvs).Kept := by
  obtain ⟨ws, s₁, htaken, hwraps⟩ := readProcessWrite_taken A ev recvs s
  have hmute := hwraps.mute
  have hpre : (reassemble s.framePayloadData ws).1 <+: completeMessages s.framePayloadData buf := by
    rw [hbuf]
    exact htaken.messages_prefix
  have hsilent₁ : s₁.Silent := by
    rw [Silent, htaken.trace]
    refine silent_handled hsilent (hms.imp (fun h => ⟨h.1, ?_⟩) fun h m hm => ?_)
    · exact h.2.sublist hpre.sublist
    · exact h m (hpre.subset hm)
  have hclean₁ : s₁.Clean := htaken.clean (s := s.appendRecv _) hclean
  exact ⟨hsilent₁.mute hmute, fun _ => hmute.clean hclean₁⟩

theorem mute_upgraded (k v r : Bytes) (s : WebsocketCtx P π) : Mute s (s.upgraded k v r) :=
  .of_eq rfl rfl

theorem mute_notified (s : WebsocketCtx P π) : Mute s s.notified := by
  have h : Mute s { s with appLayerNotified := true } := .of_eq rfl rfl
  exact h.trans (mute_record rfl (by simp) _)

/-- The flush of the handshake's response does not touch the receive side. -/
theorem trySendFlush_framePayloadData (sends : List SendResult) (s : WebsocketCtx P π) :
    (s.trySendFlush sends).framePayloadData = s.framePayloadData ∧
      (s.trySendFlush sends).conn.recvBuffer = s.conn.recvBuffer := by
  unfold trySendFlush
  simp only
  split <;> exact ⟨rfl, rfl⟩

theorem trySendFlush_trace {sends : List SendResult} (h : ∀ r ∈ sends, r ≠ .zero ∧ r ≠ .failed)
    (s : WebsocketCtx P π) : (s.trySendFlush sends).trace = s.trace := by
  have hflush : (flushLoop sends s.conn.sendBuffer s.conn.wire).2.2 = false :=
    StreamCtx.flushLoop_quiet h
  unfold trySendFlush
  simp only [hflush, Bool.false_eq_true, if_false]
  rfl

theorem Silent.closeEvent (h : s.Silent) : s.closeEvent.Silent := by
  unfold WebsocketCtx.closeEvent
  split
  · have htrace : (s.record .closeConnection).closeClientFd.trace =
        s.trace ++ [.closeConnection] := rfl
    exact h.append htrace (by simp [WsStep.isForward])
  · exact h

/-- The part of an event that handles frames, where a handshake is completed in it. -/
theorem upgrade_kept {s₀ : WebsocketCtx P π} {k v r : Bytes} (hsilent : s.Silent) (hclean : s.Clean)
    (hmark : .marked ∉ s.trace) (ho : s₀.Orderly A ev) (hconn : s₀.isConnected = false)
    (hpend : s₀.framePayloadData = s.framePayloadData)
    (hbuf : s₀.conn.recvBuffer = s.conn.recvBuffer) :
    (((s.upgraded k v r).trySendFlush ev.handshakeSends).notified.readProcessWrite A ev
      (s₀.leftRecvs A ev)).Kept := by
  set s₁ := ((s.upgraded k v r).trySendFlush ev.handshakeSends).notified with hs₁
  have hmute : Mute s s₁ :=
    ((mute_upgraded k v r s).trans (mute_trySendFlush _ _)).trans (mute_notified _)
  obtain ⟨hpay, hrecv⟩ := trySendFlush_framePayloadData ev.handshakeSends (s.upgraded k v r)
  have hpay₁ : s₁.framePayloadData = s₀.framePayloadData := hpay.trans hpend.symm
  have hrecv₁ : s₁.conn.recvBuffer = s₀.conn.recvBuffer := hrecv.trans hbuf.symm
  have hbytes : s₀.frameBytes A ev = s₁.conn.recvBuffer ++
      ((if ev.read then recvLoop 10240 (s₀.leftRecvs A ev) [] else some []).getD []) := by
    rw [hrecv₁]
    rfl
  refine readProcessWrite_kept (hsilent.mute hmute) (hmute.clean hclean) hbytes ?_
  rw [hpay₁]
  rcases ho.handshake hconn with hsends | hnone
  · refine .inl ⟨?_, ho.messages⟩
    have htrace : s₁.trace = s.trace ++ [.newConnection] := by
      show (trySendFlush _ (s.upgraded k v r)).trace ++ _ = _
      rw [trySendFlush_trace hsends]
      rfl
    rw [htrace]
    simpa using hmark
  · exact .inr hnone

theorem Orderly.withSslAccepted (ho : s.Orderly A ev) (b : Bool) :
    (s.withSslAccepted b).Orderly A ev := by
  have hbytes : (s.withSslAccepted b).frameBytes A ev = s.frameBytes A ev := by
    rw [frameBytes, frameBytes, leftRecvs_withSslAccepted]
    rfl
  exact ⟨hbytes ▸ ho.messages, hbytes ▸ ho.handshake⟩

/-- **An orderly event** keeps what every run keeps. -/
theorem onEvent_kept (h : s.Kept) (ho : s.enters A ev = true → s.Orderly A ev) :
    (s.onEvent A ev).Kept := by
  rcases onEvent_cases A s ev with ⟨-, hev⟩ | ⟨hatt, hcases⟩
  · rwa [hev]
  have hc := h.clean hatt
  rcases hcases with ⟨-, hev⟩ | ⟨-, hev⟩ | ⟨herr, hclose, hcases⟩
  · rw [hev]
    exact ⟨(h.silent.mute (mute_setIsClose s)).closeEvent,
      fun hdet => by simp [closeEvent, closeClientFd] at hdet⟩
  · rw [hev]
    exact ⟨h.silent.closeEvent, fun hdet => by simp [closeEvent, closeClientFd] at hdet⟩
  have hmark := hc hclose
  rcases hcases with hev | hev | ⟨hready, b, ⟨hnone, hev⟩ | ⟨recvs, hsome, hev⟩⟩
  · rwa [hev]
  · rw [hev]
    exact h.mute hatt (mute_setIsClose s)
  all_goals
    rw [hev]
    have ho := ho (by simp [enters, hatt, herr, hclose, hready])
    have hssl : Mute s (s.withSslAccepted b) := .of_eq rfl rfl
    have hreq : ∀ p m u, Mute s ((s.withSslAccepted b).withRequest p m u) :=
      fun _ _ _ => .of_eq rfl rfl
    rcases handshakeStep_cases A ev (s.withSslAccepted b) with
      ⟨hconn, hstep⟩ | ⟨hconn, p, m, u, hstep | hstep | hstep⟩
  · simp [hstep] at hnone
  · rw [hstep]
    exact h.mute hatt (hreq p m u)
  · rw [hstep]
    exact h.mute hatt ((hreq p m u).trans (mute_setIsClose _))
  · -- the request is answered, and the event ends there
    rw [hstep]
    refine h.mute hatt ((hreq p m u).trans ?_)
    rcases upgradeStep_cases A ev ((s.withSslAccepted b).withRequest p m u) with
      ⟨k, v, hup⟩ | ⟨k, v, r, hup | hup⟩
    · have hkeys : Mute ((s.withSslAccepted b).withRequest p m u)
          (((s.withSslAccepted b).withRequest p m u).withKeys k v) := .of_eq rfl rfl
      rw [hup]
      exact hkeys.trans (mute_setIsClose _)
    · rw [hup]
      exact (((mute_upgraded k v r _).trans (mute_trySendFlush _ _)).trans
        (mute_notified _)).trans (mute_setIsClose _)
    · simp [hstep, hup] at hnone
  · rw [hstep] at hsome ⊢
    cases hsome
    exact readProcessWrite_kept (h.silent.mute hssl) (hssl.clean hc) rfl
      (.inl ⟨hmark, (ho.withSslAccepted b).messages⟩)
  · simp [hstep] at hsome
  · simp [hstep] at hsome
  · rcases upgradeStep_cases A ev ((s.withSslAccepted b).withRequest p m u) with
      ⟨k, v, hup⟩ | ⟨k, v, r, hup | hup⟩
    · simp [hstep, hup] at hsome
    · simp [hstep, hup] at hsome
    · rw [hstep, hup] at hsome ⊢
      cases hsome
      exact upgrade_kept (h.silent.mute (hreq p m u)) ((hreq p m u).clean hc) hmark
        (ho.withSslAccepted b) hconn rfl rfl

theorem mute_sendSyncPackage (firstByte : UInt8) (data : Bytes) (sends : List SendResult)
    (s : WebsocketCtx P π) : Mute s (s.sendSyncPackage firstByte data sends).1 := by
  rcases sendSyncPackage_cases firstByte data sends s with h | h | ⟨buf, h⟩
  · exact h ▸ mute_setIsClose s
  · exact h.symm ▸ .refl s
  · have hsent : Mute s (s.withSent buf s.conn.wire) := .of_eq rfl rfl
    exact h ▸ hsent.trans (mute_trySendFlush sends _)

theorem Kept.step (h : s.Kept) {i : WsInput π} (hi : s.OrderlyInput A i)
    (hstep : s.step A i = some s') : s'.Kept := by
  have hif : ∀ {t : WebsocketCtx P π}, Mute s t → (if s.attached then t else s).Kept := by
    intro t ht
    split
    · rename_i hatt
      exact h.mute hatt ht
    · exact h
  cases i with
  | event ev =>
    cases hstep
    exact onEvent_kept h hi
  | sendSync firstByte data sends =>
    cases hstep
    exact hif (mute_sendSyncPackage firstByte data sends s)
  | closeByOther =>
    cases hstep
    exact hif (mute_setIsClose s)

/-- A connection as `on_new_client_fd` sets it up. -/
def created (A : WebsocketApp P π) : WebsocketCtx P π :=
  onCreate A { parser := A.llhttp.init, conn := ({} : Connection).onAlloc }

/-- **Nothing is forwarded after a mark**, in every run whose events are orderly. -/
theorem silent_of_orderly {inputs : List (WsInput π)}
    (halong : Along (step A) (OrderlyInput A) (created A) inputs)
    (hrun : exec (step A) (created A) inputs = some s) : s.Silent := by
  have hstart : (created A).Kept := ⟨List.Pairwise.nil, fun _ _ => by simp [created, onCreate]⟩
  exact (exec_invariant (fun h hi hstep => Kept.step h hi hstep) hstart halong hrun).silent

instance : Decidable (s.Orderly A ev) :=
  decidable_of_iff
    (((completeMessages s.framePayloadData (s.frameBytes A ev)).Pairwise
      fun m m' => (A.parse m).isNone → (A.parse m').isNone) ∧
    (s.isConnected = false →
      (∀ r ∈ ev.handshakeSends, r ≠ .zero ∧ r ≠ .failed) ∨
        ∀ m ∈ completeMessages s.framePayloadData (s.frameBytes A ev), (A.parse m).isNone))
    ⟨fun h => ⟨h.1, h.2⟩, fun h => ⟨h.messages, h.handshake⟩⟩

instance : ∀ i : WsInput π, Decidable (s.OrderlyInput A i)
  | .event ev => inferInstanceAs (Decidable (s.enters A ev = true → s.Orderly A ev))
  | .sendSync _ _ _ | .closeByOther => inferInstanceAs (Decidable True)

/-- The application of packages, over plain TCP. -/
def packageApp : WebsocketApp Http.Reading Proto.ProtoPackage where
  useSsl := false
  llhttp := { Http.requestParser with upgrade := fun _ => true }
  parse := Proto.parsePackage
  acceptKey := id

/-- The request of a handshake. -/
def upgradeRequest : Http.Request where
  method := ascii "GET"
  url := ascii "/"
  headers := [(ascii "Upgrade", ascii "websocket"), (ascii "Connection", ascii "Upgrade"),
    (ascii "Sec-WebSocket-Key", ascii "k"), (ascii "Sec-WebSocket-Version", ascii "13")]

/-- A read event that finds these bytes. -/
def readInput (bs : Bytes) : WsInput Proto.ProtoPackage :=
  .event { read := true, recvs := [.data bs, .again], handshakeSends := [.sent 300] }

/-- A package, and behind it a message that is none: the package is forwarded, and then the
connection closed. -/
theorem silent_of_orderly_close :
    ∃ s, exec (step packageApp) (created packageApp)
        [readInput upgradeRequest.text, readInput [0x82, 2, 0x08, 1, 0x82, 1, 0xff],
          readInput [0x82, 2, 0x08, 1]] = some s ∧
      (.marked ∈ s.trace ∧ s.attached = false) ∧ s.Silent := by
  have halong : Along (step packageApp) (OrderlyInput packageApp) (created packageApp)
      [readInput upgradeRequest.text, readInput [0x82, 2, 0x08, 1, 0x82, 1, 0xff],
        readInput [0x82, 2, 0x08, 1]] := by decide +kernel
  exact exists_exec (by decide +kernel) fun s hrun h => ⟨h, silent_of_orderly halong hrun⟩

/-- **A package is forwarded after the mark**: a message that does not parse and a package, in one
read. -/
theorem not_silent_two_messages :
    ∃ s, exec (step packageApp) (created packageApp)
        [readInput upgradeRequest.text, readInput [0x82, 1, 0xff, 0x82, 2, 0x08, 1]] = some s ∧
      ¬ s.Silent := by
  refine exists_exec (by decide +kernel) fun s _ (htrace : s.trace = [.newConnection,
    .processFrame [0xff], .marked, .processFrame [0x08, 1], .forward ⟨1, []⟩]) hsilent => ?_
  rw [Silent, htrace] at hsilent
  simp [WsStep.isForward] at hsilent

end WebsocketCtx

end Avant.Conn
