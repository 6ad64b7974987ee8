import Avant.Conn.StreamFraming
import Avant.Conn.WebsocketCtx

/-!
# WebSocket framing and the way the bytes are cut

`Taken ws s s'` is all that the frame loop does with frames `ws` at the head of the receive
buffer: they are taken off, their payloads run together to messages (`Ws.reassemble`), and each
message is handled (`handled`). `frameLoop_taken` says of every buffer which frames those are and
why the loop ended behind them (`LoopEnd`).

Results:
* **`run_messages`**: a stream of allowed frames, read in events of any sizes, is handed to
  `on_process_frame` message by message, whatever the sizes, and nothing is left in the buffer.
-/

namespace Avant.Conn

open Avant.Lib Avant.Lib.Ws Avant.Socket Avant.App

namespace WebsocketCtx

variable {P π : Type} {A : WebsocketApp P π} {throws : AppThrows π} {s s₁ s' : WebsocketCtx P π}

/-! ## The frame loop -/

/-- What `on_process_frame` does with a message. -/
def handled (A : WebsocketApp P π) (message : Bytes) : List (WsStep π) :=
  match A.parse message with
  | none => [.processFrame message, .marked]
  | some p => [.processFrame message, .forward p]

/-- The part of a context that the frame loop does not touch. -/
def outside (s : WebsocketCtx P π) : WebsocketCtx P π :=
  { s with
    conn := { s.conn with recvBuffer := [], isClose := false }
    frameFirstOpcode := 0
    framePayloadData := []
    trace := [] }

/-- The frames `ws` were taken off the buffer, and the messages they complete handled. -/
structure Taken (A : WebsocketApp P π) (ws : List Frame) (s s' : WebsocketCtx P π) : Prop where
  opcodes : ∀ w ∈ ws, allowed w.opcode = true
  buffer : s.conn.recvBuffer = frames.encAll ws ++ s'.conn.recvBuffer
  payload : s'.framePayloadData = (reassemble s.framePayloadData ws).2
  trace : s'.trace = s.trace ++ (reassemble s.framePayloadData ws).1.flatMap (handled A)
  isClose : s'.conn.isClose =
    (s.conn.isClose || (reassemble s.framePayloadData ws).1.any fun m => (A.parse m).isNone)
  same : s'.outside = s.outside

variable {ws u : List Frame} {w : Frame} {rest : Bytes} {ev : WsEvent π}

theorem Taken.trans {ws' : List Frame} (h : Taken A ws s s₁) (h' : Taken A ws' s₁ s') :
    Taken A (ws ++ ws') s s' := by
  have hr := reassemble_append s.framePayloadData ws ws'
  have hp := h.payload
  refine ⟨fun w hw => ?_, ?_, ?_, ?_, ?_, h'.same.trans h.same⟩
  · exact (List.mem_append.mp hw).elim (h.opcodes w) (h'.opcodes w)
  · rw [h.buffer, h'.buffer, FrameCodec.encAll_append, List.append_assoc]
  · rw [h'.payload, hr, hp]
  · rw [h'.trace, h.trace, hr, hp, List.flatMap_append, List.append_assoc]
  · rw [h'.isClose, h.isClose, hr, hp, List.any_append, Bool.or_assoc]

theorem noteOpcode_eq (s : WebsocketCtx P π) : ∃ o, s.noteOpcode = { s with frameFirstOpcode := o } := by
  unfold noteOpcode
  split
  · exact ⟨s.frameFirstOpcode, rfl⟩
  · split
    · exact ⟨_, rfl⟩
    · exact ⟨_, rfl⟩
    · exact ⟨s.frameFirstOpcode, rfl⟩

theorem taken_noteOpcode (s : WebsocketCtx P π) : Taken A [] s s.noteOpcode := by
  obtain ⟨o, ho⟩ := noteOpcode_eq s
  rw [ho]
  exact ⟨by simp, rfl, rfl, (List.append_nil _).symm, (Bool.or_false _).symm, rfl⟩

@[simp] theorem noteOpcode_recvBuffer (s : WebsocketCtx P π) :
    s.noteOpcode.conn.recvBuffer = s.conn.recvBuffer := by
  obtain ⟨o, ho⟩ := noteOpcode_eq s
  rw [ho]

/-- A message is handled: `on_process_frame`, as a step of the trace. -/
theorem onProcessFrame_taken (throws : AppThrows π) {r : Bytes} (ha : allowed w.opcode = true)
    (hbuf : s.conn.recvBuffer = w.enc ++ r) (hfin : w.fin = true) :
    Taken A [w] s ((s.takeFrame (.ofFrame w) w.enc.length).onProcessFrame A throws).1 ∧
      (((s.takeFrame (.ofFrame w) w.enc.length).onProcessFrame A throws).2 = true →
        ∃ p, .forward p ∈ ((s.takeFrame (.ofFrame w) w.enc.length).onProcessFrame A throws).1.trace ∧
          throws.recvPackage p = true) := by
  have hdrop : s.conn.recvBuffer.drop w.enc.length = r := by rw [hbuf, List.drop_left]
  have hre : reassemble s.framePayloadData [w] = ([s.framePayloadData ++ w.payload], []) := by
    simp [reassemble, hfin]
  have hmem : ∀ w' ∈ [w], allowed w'.opcode = true := by
    intro w' hw'
    rwa [List.mem_singleton.mp hw']
  have henc : frames.encAll [w] = w.enc := List.append_nil _
  unfold onProcessFrame
  cases hp : A.parse (s.framePayloadData ++ w.payload) with
  | none =>
    simp only [takeFrame, WebsocketFrame.ofFrame, hp]
    refine ⟨⟨hmem, ?_, ?_, ?_, ?_, rfl⟩, by simp⟩
    · rw [henc, hbuf]
      exact congrArg _ (by rw [← hbuf]; exact hdrop.symm)
    · rw [hre]
      rfl
    · simp [hre, handled, hp, setIsClose, record]
    · simp [hre, hp, setIsClose, record]
  | some p =>
    simp only [takeFrame, WebsocketFrame.ofFrame, hp]
    refine ⟨⟨hmem, ?_, ?_, ?_, ?_, rfl⟩, fun hthrow => ⟨p, by simp [record], hthrow⟩⟩
    · rw [henc, hbuf]
      exact congrArg _ (by rw [← hbuf]; exact hdrop.symm)
    · rw [hre]
      rfl
    · simp [hre, handled, hp, record]
    · simp [hre, hp, record]

/-- A turn of the loop on a buffer that starts with an allowed frame. -/
theorem frameTurn_frame (throws : AppThrows π) {r : Bytes} (ha : allowed w.opcode = true)
    (hbuf : s.conn.recvBuffer = w.enc ++ r) :
    ∃ s₁, Taken A [w] s s₁ ∧
      (s.frameTurn A throws = (s₁, .next w.fin) ∨ s.frameTurn A throws = (s₁, .threw) ∧
        ∃ p, .forward p ∈ s₁.trace ∧ throws.recvPackage p = true) := by
  have hnote : s.noteOpcode.conn.recvBuffer = w.enc ++ r := by rw [noteOpcode_recvBuffer, hbuf]
  have hparse : parseFrame s.noteOpcode.conn.recvBuffer = .frame (.ofFrame w) w.enc.length := by
    rw [hnote]
    exact parseFrame_enc ha r
  have hstart : Taken A [] s s.noteOpcode := taken_noteOpcode s
  have hturn : s.frameTurn A throws =
      if w.fin then
        (((s.noteOpcode.takeFrame (.ofFrame w) w.enc.length).onProcessFrame A throws).1,
          if ((s.noteOpcode.takeFrame (.ofFrame w) w.enc.length).onProcessFrame A throws).2
          then .threw else .next true)
      else (s.noteOpcode.takeFrame (.ofFrame w) w.enc.length, .next false) := by
    unfold frameTurn
    simp only [hparse]
    rfl
  rw [hturn]
  cases hfin : w.fin with
  | true =>
    obtain ⟨htaken, hthrow⟩ := onProcessFrame_taken (A := A) throws ha hnote hfin
    refine ⟨_, hstart.trans htaken, ?_⟩
    simp only [if_true]
    split
    · rename_i herr
      exact .inr ⟨rfl, hthrow herr⟩
    · exact .inl rfl
  | false =>
    refine ⟨s.noteOpcode.takeFrame (.ofFrame w) w.enc.length,
      hstart.trans ⟨fun w' hw' => ?_, ?_, ?_, ?_, ?_, rfl⟩, .inl rfl⟩
    · rwa [List.mem_singleton.mp hw']
    · rw [takeFrame, hnote, List.drop_left]
      simp [frames]
    · simp [takeFrame, WebsocketFrame.ofFrame, reassemble, hfin]
    · simp [takeFrame, reassemble, hfin]
    · simp [takeFrame, reassemble, hfin]

/-- Why the loop ended, `n` messages and `fuel` turns after it started, behind the frames `ws` and
in the state `s₁`: what it returns. -/
inductive LoopEnd (throws : AppThrows π) (fuel n : Nat) (ws : List Frame) (s₁ : WebsocketCtx P π) :
    WebsocketCtx P π × Bool → Prop
  | wait (h : parseFrame s₁.conn.recvBuffer = .wait) : LoopEnd throws fuel n ws s₁ (s₁, false)
  | refused (h : parseFrame s₁.conn.recvBuffer = .refused) :
      LoopEnd throws fuel n ws s₁ (s₁.setIsClose, false)
  | lengthError (h : parseFrame s₁.conn.recvBuffer = .lengthError) :
      LoopEnd throws fuel n ws s₁ (s₁, true)
  | threw (p : π) (hp : .forward p ∈ s₁.trace) (h : throws.recvPackage p = true) :
      LoopEnd throws fuel n ws s₁ (s₁, true)
  | full (h : maxPackageNumPerLoop ≤ n + ws.countP (·.fin)) :
      LoopEnd throws fuel n ws s₁ (s₁, false)
  | noFuel (h : ws.length = fuel) : LoopEnd throws fuel n ws s₁ (s₁, false)

theorem LoopEnd.cons {fuel n : Nat} {r : WebsocketCtx P π × Bool}
    (h : LoopEnd throws fuel (n + if w.fin then 1 else 0) ws s₁ r) :
    LoopEnd throws (fuel + 1) n (w :: ws) s₁ r := by
  cases h with
  | wait h => exact .wait h
  | refused h => exact .refused h
  | lengthError h => exact .lengthError h
  | threw p hp h => exact .threw p hp h
  | full h =>
    refine .full ?_
    rw [List.countP_cons]
    omega
  | noFuel h => exact .noFuel (by rw [List.length_cons, h])

/-- **The frame loop**, on every buffer: the frames it takes, and why it ends behind them. -/
theorem frameLoop_taken (A : WebsocketApp P π) (throws : AppThrows π) :
    ∀ (fuel n : Nat) (s : WebsocketCtx P π), ∃ ws s₁, Taken A ws s s₁ ∧
      LoopEnd throws fuel n ws s₁ (s.frameLoop A throws fuel n)
  | 0, n, s => ⟨[], s, ⟨by simp, rfl, rfl, (List.append_nil _).symm, (Bool.or_false _).symm, rfl⟩,
      .noFuel rfl⟩
  | fuel + 1, n, s => by
    have hstart : Taken A [] s s.noteOpcode := taken_noteOpcode s
    have hsame : s.noteOpcode.conn.recvBuffer = s.conn.recvBuffer := noteOpcode_recvBuffer s
    cases hparse : parseFrame s.conn.recvBuffer with
    | wait =>
      rw [← hsame] at hparse
      refine ⟨[], _, hstart, ?_⟩
      rw [frameLoop, frameTurn, hparse]
      exact .wait hparse
    | refused =>
      rw [← hsame] at hparse
      refine ⟨[], _, hstart, ?_⟩
      rw [frameLoop, frameTurn, hparse]
      exact .refused hparse
    | lengthError =>
      rw [← hsame] at hparse
      refine ⟨[], _, hstart, ?_⟩
      rw [frameLoop, frameTurn, hparse]
      exact .lengthError hparse
    | frame f index =>
      obtain ⟨w, hbuf, -, -, ha⟩ := frame_of_parseFrame hparse
      obtain ⟨s₁, htaken, hturn | ⟨hturn, p, hp, hthrow⟩⟩ :=
        frameTurn_frame (A := A) throws ha hbuf
      · rw [frameLoop, hturn]
        cases hfin : w.fin with
        | false =>
          obtain ⟨ws, s₂, htaken', hend⟩ := frameLoop_taken A throws fuel n s₁
          exact ⟨w :: ws, s₂, htaken.trans htaken', .cons (by simpa [hfin] using hend)⟩
        | true =>
          simp only
          split
          · rename_i hfull
            refine ⟨[w], s₁, htaken, .full ?_⟩
            simpa [hfin] using hfull
          · obtain ⟨ws, s₂, htaken', hend⟩ := frameLoop_taken A throws fuel (n + 1) s₁
            exact ⟨w :: ws, s₂, htaken.trans htaken', .cons (by simpa [hfin] using hend)⟩
      · rw [frameLoop, hturn]
        exact ⟨[w], s₁, htaken, .threw p hp hthrow⟩

/-! ## A stream of frames -/

/-- The messages `on_process_frame` was called with, in order. -/
def messages (s : WebsocketCtx P π) : List Bytes :=
  s.trace.filterMap fun
    | .processFrame m => some m
    | _ => none

/-- Frames the application can take: allowed opcodes, frames and messages within the limits, also
the message that is not complete, and messages that parse. `pending` is there of the first. -/
structure Acceptable (A : WebsocketApp P π) (pending : Bytes) (fs : List Frame) : Prop where
  opcodes : ∀ w ∈ fs, allowed w.opcode = true
  frameSizes : ∀ w ∈ fs, w.enc.length ≤ 1024000
  messageSizes : ∀ m ∈ (reassemble pending fs).1, m.length ≤ 1024000
  restSize : (reassemble pending fs).2.length ≤ 1024000
  parses : ∀ m ∈ (reassemble pending fs).1, (A.parse m).isSome = true

/-- An event in which nothing fails; `recv` returns at most what it is asked for. -/
structure Quiet (ev : WsEvent π) : Prop extends StreamCtx.Quiet ev.toEvent where
  throws : ∀ p, ev.throws.recvPackage p = false
  size : (StreamCtx.gathered ev.toEvent).length ≤ 10240

/-- The handshake is through and the connection not marked for closing. -/
structure Open (s : WebsocketCtx P π) : Prop where
  attached : s.attached = true
  isClose : s.conn.isClose = false
  isConnected : s.isConnected = true

theorem messages_handled {ms : List Bytes} (h : s'.trace = s.trace ++ ms.flatMap (handled A)) :
    s'.messages = s.messages ++ ms := by
  have hone : ∀ m, (handled A m).filterMap
      (fun | .processFrame m => some m | _ => none) = [m] := by
    intro m
    unfold handled
    cases A.parse m <;> rfl
  rw [messages, h, List.filterMap_append, ← messages, List.filterMap_flatMap]
  simp only [hone, List.flatMap_singleton']

theorem pending_le {pending : Bytes} {fs : List Frame} {L : Nat}
    (hm : ∀ m ∈ (reassemble pending fs).1, m.length ≤ L)
    (hr : (reassemble pending fs).2.length ≤ L) : pending.length ≤ L := by
  induction fs generalizing pending with
  | nil => exact hr
  | cons f fs ih =>
    rw [reassemble] at hm hr
    split at hm
    · have := hm _ List.mem_cons_self
      rw [List.length_append] at this
      omega
    · rename_i hfin
      rw [if_neg hfin] at hr
      have := ih hm hr
      rw [List.length_append] at this
      omega

theorem Acceptable.drop {pending : Bytes} {fs : List Frame} (h : Acceptable A pending (ws ++ fs)) :
    Acceptable A (reassemble pending ws).2 fs := by
  have hr := reassemble_append pending ws fs
  have hms := h.messageSizes
  have hrest := h.restSize
  have hparses := h.parses
  rw [hr] at hms hrest hparses
  exact ⟨fun w hw => h.opcodes w (List.mem_append_right _ hw),
    fun w hw => h.frameSizes w (List.mem_append_right _ hw),
    fun m hm => hms m (List.mem_append_right _ hm), hrest,
    fun m hm => hparses m (List.mem_append_right _ hm)⟩

/-- The parser on the received part of a stream of allowed frames: it waits for more, or it finds
a frame. -/
theorem parseFrame_stream {buf : Bytes} (hs : buf ++ rest = frames.encAll u)
    (ha : ∀ w ∈ u, allowed w.opcode = true) :
    parseFrame buf = .wait ∧ frames.dec buf = none ∨ ∃ f n, parseFrame buf = .frame f n := by
  cases hd : frames.dec buf with
  | some wr =>
    obtain ⟨w, r⟩ := wr
    obtain ⟨u', rfl, -⟩ := FrameCodec.dec_of_stream hs hd
    rw [frames.dec_eq_some.mp hd]
    exact .inr ⟨_, _, parseFrame_enc (ha w List.mem_cons_self) r⟩
  | none =>
    refine .inl ⟨?_, rfl⟩
    cases u with
    | nil =>
      have hbuf : buf = [] := (List.append_eq_nil_iff.mp hs).1
      rw [hbuf]
      rfl
    | cons w u => exact parseFrame_wait hd (ha w List.mem_cons_self) hs

/-- A part of a frame is shorter than the frame. -/
theorem length_le_of_dec_none {buf : Bytes} {L : Nat} (hs : buf ++ rest = frames.encAll u)
    (hd : frames.dec buf = none) (hL : ∀ w ∈ u, w.enc.length ≤ L) : buf.length ≤ L := by
  cases u with
  | nil =>
    have hbuf : buf = [] := (List.append_eq_nil_iff.mp hs).1
    simp [hbuf]
  | cons w u =>
    have hw := hL w List.mem_cons_self
    by_contra hlong
    have htake : buf.take w.enc.length = w.enc := by
      have h₁ : (buf ++ rest).take w.enc.length = buf.take w.enc.length :=
        List.take_append_of_le_length (by omega)
      rw [← h₁, hs, FrameCodec.encAll_cons]
      exact List.take_left
    have hfound : frames.dec buf = some (w, buf.drop w.enc.length) := by
      refine frames.dec_eq_some.mpr ?_
      show buf = w.enc ++ buf.drop w.enc.length
      rw [← htake, List.length_take, Nat.min_eq_left (by omega), List.take_append_drop]
    rw [hd] at hfound
    simp at hfound

/-- **One call of the loop** on a part of a stream of acceptable frames: it takes all that are
complete, and neither fails nor marks the connection. -/
theorem onProcessConnection_stream (hclose : s.conn.isClose = false)
    (hacc : Acceptable A s.framePayloadData u) (hthrows : ∀ p, throws.recvPackage p = false)
    (hs : s.conn.recvBuffer ++ rest = frames.encAll u)
    (hlen : s.conn.recvBuffer.length < maxPackageNumPerLoop) :
    ∃ ws u' s₁, u = ws ++ u' ∧ s.onProcessConnection A throws = (s₁, false) ∧ Taken A ws s s₁ ∧
      s₁.conn.isClose = false ∧ s₁.conn.recvBuffer ++ rest = frames.encAll u' ∧
      frames.dec s₁.conn.recvBuffer = none := by
  obtain ⟨ws, s₁, htaken, hend⟩ :=
    frameLoop_taken A throws (s.conn.recvBuffer.length + 1) 0 s
  have hbuf := htaken.buffer
  obtain ⟨u', rfl, hs'⟩ := FrameCodec.encAll_of_stream (F := frames) (hbuf ▸ hs)
  have hws : ws.length ≤ s.conn.recvBuffer.length := by
    have := FrameCodec.length_le_encAll (F := frames) ws
    rw [hbuf, List.length_append]
    omega
  have hacc' : Acceptable A s₁.framePayloadData u' := htaken.payload ▸ hacc.drop
  have hclose₁ : s₁.conn.isClose = false := by
    rw [htaken.isClose, hclose, Bool.false_or, List.any_eq_false]
    intro m hm
    have := hacc.parses m (by rw [reassemble_append]; exact List.mem_append_left _ hm)
    rw [Option.isNone_iff_eq_none]
    exact Option.isSome_iff_ne_none.mp this
  -- the parser is at the end of what has been received
  have hwait : s.frameLoop A throws (s.conn.recvBuffer.length + 1) 0 = (s₁, false) ∧
      frames.dec s₁.conn.recvBuffer = none := by
    have hnext := parseFrame_stream hs' hacc'.opcodes
    generalize s.frameLoop A throws (s.conn.recvBuffer.length + 1) 0 = result at hend ⊢
    cases hend with
    | wait h =>
      rcases hnext with ⟨-, hd⟩ | ⟨f, n, hf⟩
      · exact ⟨rfl, hd⟩
      · simp [h] at hf
    | refused h | lengthError h =>
      rcases hnext with ⟨hw, -⟩ | ⟨f, n, hf⟩
      · simp [h] at hw
      · simp [h] at hf
    | threw p hp h => simp [hthrows p] at h
    | full h =>
      have := List.countP_le_length (p := fun w : Frame => w.fin) (l := ws)
      omega
    | noFuel h => omega
  refine ⟨ws, u', s₁, rfl, ?_, htaken, hclose₁, hs', hwait.2⟩
  have hlong : s₁.conn.recvBuffer.length ≤ 1024000 :=
    length_le_of_dec_none hs' hwait.2 hacc'.frameSizes
  have hpend : s₁.framePayloadData.length ≤ 1024000 :=
    pending_le hacc'.messageSizes hacc'.restSize
  rw [onProcessConnection, hwait.1]
  simp only
  rw [if_neg (by omega), if_neg (by omega)]

/-- What an event leads to, beside the receive buffer. -/
structure Progress (ws : List Frame) (s s' : WebsocketCtx P π) : Prop where
  isOpen : s'.Open
  payload : s'.framePayloadData = (reassemble s.framePayloadData ws).2
  messages : s'.messages = s.messages ++ (reassemble s.framePayloadData ws).1

theorem sslStep_quiet (hq : Quiet ev) (s : WebsocketCtx P π) :
    ∃ b, s.sslStep A ev = ({ s with conn := { s.conn with sslAccepted := b } }, true) := by
  unfold sslStep
  split
  · rw [hq.sslAccept]
    exact ⟨true, rfl⟩
  · exact ⟨s.conn.sslAccepted, rfl⟩

theorem trySendFlush_quiet (hq : Quiet ev) (s : WebsocketCtx P π) :
    ∃ b w, s.trySendFlush ev.sends = { s with conn := { s.conn with sendBuffer := b, wire := w } } := by
  have hflush : (flushLoop ev.sends s.conn.sendBuffer s.conn.wire).2.2 = false :=
    StreamCtx.flushLoop_quiet hq.sends
  unfold trySendFlush
  simp only [hflush, Bool.false_eq_true, if_false]
  exact ⟨_, _, rfl⟩

/-- The loop of the application, where there is something in the buffer. -/
theorem processStep_stream (ho : s.Open) (hacc : Acceptable A s.framePayloadData u)
    (hthrows : ∀ p, throws.recvPackage p = false) (hs : s.conn.recvBuffer ++ rest = frames.encAll u)
    (hlen : s.conn.recvBuffer.length < maxPackageNumPerLoop) :
    ∃ ws u' s₁, u = ws ++ u' ∧
      s.processStep A throws = (s₁, false) ∧ Progress ws s s₁ ∧
      s₁.conn.recvBuffer ++ rest = frames.encAll u' ∧ frames.dec s₁.conn.recvBuffer = none := by
  unfold processStep
  split
  · obtain ⟨ws, u', s₁, hu, hproc, htaken, hclose, hs', hd⟩ :=
      onProcessConnection_stream ho.isClose hacc hthrows hs hlen
    refine ⟨ws, u', s₁, hu, hproc, ⟨⟨?_, hclose, ?_⟩, htaken.payload, messages_handled htaken.trace⟩,
      hs', hd⟩
    · exact (congrArg WebsocketCtx.attached htaken.same).trans ho.attached
    · exact (congrArg WebsocketCtx.isConnected htaken.same).trans ho.isConnected
  · rename_i hempty
    have hnil : s.conn.recvBuffer = [] := List.length_eq_zero_iff.mp (by omega)
    refine ⟨[], u, s, rfl, rfl, ⟨ho, rfl, (List.append_nil _).symm⟩, hs, ?_⟩
    rw [hnil]
    exact FrameCodec.dec_nil

theorem onEvent_open (ho : s.Open) (hq : Quiet ev) :
    ∃ b, s.onEvent A ev =
      { s with conn := { s.conn with sslAccepted := b } }.readProcessWrite A ev ev.recvs := by
  obtain ⟨b, hssl⟩ := sslStep_quiet (A := A) hq s
  have herr : (if ev.err then s.setIsClose else s) = s := by rw [hq.err]; rfl
  refine ⟨b, ?_⟩
  unfold onEvent
  rw [if_neg (by simp [ho.attached]), herr, if_neg (by simp [ho.isClose]), hssl]
  simp only
  rw [handshakeStep, if_pos ho.isConnected]

/-- **One event** reads on in the stream: it takes the frames that are complete. -/
theorem onEvent_stream (ho : s.Open) (hq : Quiet ev) (hacc : Acceptable A s.framePayloadData u)
    (hd : frames.dec s.conn.recvBuffer = none)
    (hs : s.conn.recvBuffer ++ (StreamCtx.gathered ev.toEvent ++ rest) = frames.encAll u) :
    ∃ ws u', u = ws ++ u' ∧ Progress ws s (s.onEvent A ev) ∧
      (s.onEvent A ev).conn.recvBuffer ++ rest = frames.encAll u' ∧
      frames.dec (s.onEvent A ev).conn.recvBuffer = none := by
  obtain ⟨b, hevent⟩ := onEvent_open (A := A) ho hq
  set bs := StreamCtx.gathered ev.toEvent with hbs
  set s₀ : WebsocketCtx P π := { s with conn := { s.conn with sslAccepted := b } }
  have hlen : (s₀.appendRecv bs).conn.recvBuffer.length < maxPackageNumPerLoop := by
    have h₁ : s.conn.recvBuffer.length ≤ 1024000 := length_le_of_dec_none hs hd hacc.frameSizes
    have h₂ : bs.length ≤ 10240 := hq.size
    simp only [appendRecv, List.length_append, maxPackageNumPerLoop, s₀]
    omega
  obtain ⟨ws, u', s₁, hu, hproc, hprog, hs', hd'⟩ :=
    processStep_stream (s := s₀.appendRecv bs) { ho with } hacc
      hq.throws (by simpa [appendRecv, s₀] using hs) hlen
  have hread : (if ev.read then recvLoop 10240 ev.recvs [] else some []) = some bs := by
    rw [hbs, StreamCtx.gathered]
    split
    · obtain ⟨bytes, hbytes⟩ : ∃ bytes, recvLoop 10240 ev.recvs [] = some bytes :=
        StreamCtx.recvLoop_ne_none hq.recvs
      rw [hbytes, Option.getD_some]
    · rfl
  have hend : s.onEvent A ev = if ev.write then s₁.trySendFlush ev.sends else s₁ := by
    rw [hevent, readProcessWrite, hread]
    simp only [hproc, Bool.false_eq_true, if_false]
  rw [hend]
  split
  · obtain ⟨b', w', hflush⟩ := trySendFlush_quiet hq s₁
    rw [hflush]
    exact ⟨ws, u', hu, ⟨{ hprog.isOpen with },
      hprog.payload, hprog.messages⟩, hs', hd'⟩
  · exact ⟨ws, u', hu, { hprog with }, hs', hd'⟩

/-- A sequence of events. -/
def run (A : WebsocketApp P π) (s : WebsocketCtx P π) (evs : List (WsEvent π)) :
    WebsocketCtx P π :=
  evs.foldl (onEvent A) s

theorem run_stream {evs : List (WsEvent π)} (ho : s.Open) (hq : ∀ ev ∈ evs, Quiet ev)
    (hacc : Acceptable A s.framePayloadData u) (hd : frames.dec s.conn.recvBuffer = none)
    (hs : s.conn.recvBuffer ++ (evs.map fun ev => StreamCtx.gathered ev.toEvent).flatten =
      frames.encAll u) :
    Progress u s (s.run A evs) ∧ (s.run A evs).conn.recvBuffer = [] := by
  induction evs generalizing s u with
  | nil =>
    rw [List.map_nil, List.flatten_nil, List.append_nil] at hs
    have hu : u = [] := by
      cases u with
      | nil => rfl
      | cons w u =>
        rw [hs, FrameCodec.encAll_cons, FrameCodec.dec_enc_append] at hd
        simp at hd
    subst hu
    exact ⟨⟨ho, rfl, (List.append_nil _).symm⟩, hs⟩
  | cons ev evs ih =>
    rw [List.map_cons, List.flatten_cons] at hs
    obtain ⟨ws, u', rfl, hprog, hs', hd'⟩ :=
      onEvent_stream ho (hq ev List.mem_cons_self) hacc hd hs
    have hacc' : Acceptable A (s.onEvent A ev).framePayloadData u' := hprog.payload ▸ hacc.drop
    obtain ⟨hrun, hbuf⟩ :=
      ih hprog.isOpen (fun ev' h => hq ev' (List.mem_cons_of_mem _ h)) hacc' hd' hs'
    refine ⟨⟨hrun.isOpen, ?_, ?_⟩, hbuf⟩
    · rw [reassemble_append, ← hprog.payload]
      exact hrun.payload
    · rw [reassemble_append, ← hprog.payload, ← List.append_assoc, ← hprog.messages]
      exact hrun.messages

/-- **The cuts do not matter.** A stream of frames with the opcodes TEXT, BINARY and CONTINUATION,
masked or not and with any length form, each frame and each message of at most 1024000 bytes and
every message a package, is read from a connection behind its handshake. Whatever parts of it the
events read, `on_process_frame` is called with the payloads of the fragments of each message in a
row, in order, and no byte is left. -/
theorem run_messages (A : WebsocketApp P π) (s : WebsocketCtx P π) (fs : List Frame)
    (evs : List (WsEvent π)) (ho : s.Open) (hbuf : s.conn.recvBuffer = [])
    (hpend : s.framePayloadData = []) (hacc : Acceptable A [] fs) (hq : ∀ ev ∈ evs, Quiet ev)
    (hbytes : (evs.map fun ev => StreamCtx.gathered ev.toEvent).flatten = frames.encAll fs) :
    (s.run A evs).messages = s.messages ++ (reassemble [] fs).1 ∧
      (s.run A evs).framePayloadData = (reassemble [] fs).2 ∧
      (s.run A evs).conn.recvBuffer = [] ∧ (s.run A evs).Open := by
  obtain ⟨hprog, hrest⟩ := run_stream (s := s) ho hq (hpend ▸ hacc)
    (by rw [hbuf]; exact FrameCodec.dec_nil) (by rw [hbuf]; exact hbytes)
  have hp := hprog.payload
  have hm := hprog.messages
  rw [hpend] at hp hm
  exact ⟨hm, hp, hrest, hprog.isOpen⟩

/-- An application without TLS for which every message is a package. -/
def plainApp : WebsocketApp Unit Bytes where
  useSsl := false
  llhttp := { init := (), execute := fun _ _ => ((), [], true), upgrade := fun _ => false }
  parse := some
  acceptKey := id

/-- A connection behind its handshake. -/
def connected : WebsocketCtx Unit Bytes where
  conn := { isReady := true }
  attached := true
  isConnected := true
  parser := ()

/-- A message in two fragments: TEXT, masked, with a 16-bit length, and CONTINUATION with FIN. -/
def twoFragments : List Frame :=
  [⟨0x01, .ext16, some ⟨[1, 2, 3, 4], rfl⟩, ascii "ab", by decide⟩,
    ⟨0x80, .short, none, ascii "c", by decide⟩]

/-- A read event that finds these bytes. -/
def readWs (bs : Bytes) : WsEvent Bytes := { read := true, recvs := [.data bs, .again] }

theorem readWs_quiet {bs : Bytes} (h : bs.length ≤ 10240) : Quiet (readWs bs) where
  err := rfl
  sslAccept := rfl
  recvs := by simp [readWs]
  sends := by simp [readWs]
  throws _ := rfl
  size := by simpa [readWs, StreamCtx.gathered, recvLoop] using h

/-- The two fragments, cut in the extended length and in the second frame. -/
theorem run_messages_two_fragments :
    (connected.run plainApp [readWs [0x01, 0xfe, 0], readWs [2, 1, 2, 3, 4, 0x60, 0x60, 0x80],
      readWs [1, 0x63]]).messages = [ascii "abc"] := by
  have hacc : Acceptable plainApp [] twoFragments :=
    ⟨by decide, by decide, by decide, by decide, by decide⟩
  have h := run_messages plainApp connected twoFragments
    [readWs [0x01, 0xfe, 0], readWs [2, 1, 2, 3, 4, 0x60, 0x60, 0x80], readWs [1, 0x63]]
    ⟨rfl, rfl, rfl⟩ rfl rfl hacc (by simp [readWs_quiet]) (by decide)
  rw [h.1]
  decide

end WebsocketCtx

end Avant.Conn
