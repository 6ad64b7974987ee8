import Avant.Conn.HttpReuse

/-!
# Responses under every schedule of sends

A response is made piece by piece: `process_callback` appends the first to the send buffer, and
`write_end_callback` the next one each time the buffer is empty, until it marks the response
finished. In between, `send` takes what it likes, event after event.

`Script` says of a run of a handler which pieces it and its successors append, whatever the
operating system answers within an assumption `ok`. `Delivered` is what a connection then does with
the response.

Results:
* `between_of_run`: in every run, the send buffer is empty while no request has been processed;
* **`delivered_of_script`**: under every schedule, what is sent is a part of the response from its
  start; the connection is ended or used again only when all of it was sent, unless a send fails or
  an error event comes; and only so many events can find it open in which a send takes bytes;
* `Delivered.whole_of_draining`: so all of it is sent when the socket takes bytes often enough;
* `follows_of_threw`: when `process_callback` throws, nothing is sent beyond what it had appended.
-/

namespace Avant.Conn

open Avant.Lib Avant.Lib.Http Avant.Socket

/-! ## A response in a trace -/

namespace HttpTrace

def isProcess : HttpTrace → Bool
  | .process _ => true
  | _ => false

/-- The exchange is over: the context is created anew, or the connection is closed. -/
def isEnd : HttpTrace → Bool
  | .create _ | .close => true
  | _ => false

/-- What follows the first request that is processed, up to the end of its exchange. -/
def response (tr : List HttpTrace) : List HttpTrace :=
  ((tr.dropWhile fun e => !e.isProcess).drop 1).takeWhile fun e => !e.isEnd

/-- The bytes go out as a response of `total` asks: in order, and marked finished only when all
were appended. -/
structure Follows (total : Bytes) (seg : List HttpTrace) : Prop where
  sent : sentOut seg <+: total
  finished : .responseEnd ∈ seg → appended seg = total

/-- All of the response was sent, and it was marked finished. -/
def Whole (total : Bytes) (seg : List HttpTrace) : Prop :=
  sentOut seg = total ∧ .responseEnd ∈ seg

theorem response_eq {pre seg tail : List HttpTrace} (r : HttpRequest)
    (hpre : ∀ e ∈ pre, e.isProcess = false) (hseg : ∀ e ∈ seg, e.isEnd = false)
    (htail : ∀ e ∈ tail.head?, e.isEnd = true) :
    response (pre ++ .process r :: (seg ++ tail)) = seg := by
  have hdrop : (pre ++ .process r :: (seg ++ tail)).dropWhile (fun e => !e.isProcess) =
      .process r :: (seg ++ tail) := by
    rw [List.dropWhile_append_of_pos fun e he => by simp [hpre e he],
      List.dropWhile_cons_of_neg (by simp [isProcess])]
  rw [response, hdrop, List.drop_succ_cons, List.drop_zero,
    List.takeWhile_append_of_pos fun e he => by simp [hseg e he]]
  cases tail with
  | nil => simp
  | cons e tail => simp [htail e rfl]

end HttpTrace

/-- A send of the event takes bytes, if there are any. -/
def HttpEvent.productive {ω : Type} (ev : HttpEvent ω) : Bool :=
  ev.write &&
    match ev.sends with
    | .sent (_ + 1) :: _ => true
    | _ => false

/-- No send of the event fails or takes nothing. -/
def HttpEvent.Smooth {ω : Type} (ev : HttpEvent ω) : Prop :=
  SendResult.zero ∉ ev.sends ∧ SendResult.failed ∉ ev.sends

namespace HttpCtx

open HttpTrace

/-- **The runs of a response**: the pieces that `r` and the callbacks behind it append, up to the
run that marks the response finished. -/
inductive Script {κ ω : Type} (app : HttpApp κ ω) (ok : ω → Prop) : HandlerRun κ → List Bytes → Prop
  | last {r : HandlerRun κ} (hthrew : r.threw = false) (hend : r.responseEnd = true) :
    Script app ok r [r.append]
  | more {r : HandlerRun κ} {k : κ} {ps : List Bytes} (hthrew : r.threw = false)
    (hend : r.responseEnd = false) (hnext : r.writeEnd = some k)
    (hrest : ∀ os, ok os → Script app ok (app.writeEndCallback k os) ps) :
    Script app ok r (r.append :: ps)

variable {P κ ω : Type} (L : Parser P) (app : HttpApp κ ω) (useSsl : Bool)

/-- The event completes a request `r`, or finds one that was not processed yet, and gets as far as
`process_connection`. -/
structure Processes (s : HttpCtx P κ) (ev : HttpEvent ω) (r : HttpRequest) : Prop where
  attached : s.attached = true
  isClose : s.conn.isClose = false
  err : ev.err = false
  ssl : (s.sslStep app useSsl ev).2 = true
  read : (s.inHand L ev).2 = none
  handles : s.handles L ev = true
  request : (s.inHand L ev).1.request = r

/-- What happened on the connection since it was `s`. -/
def since (s s' : HttpCtx P κ) : List HttpTrace := s'.trace.drop s.trace.length

/-- The connection is still in the exchange it was in, or began, at `s`. -/
structure StillOpen (s s' : HttpCtx P κ) : Prop where
  attached : s'.attached = true
  isClose : s'.conn.isClose = false
  unended : ∀ e ∈ since s s', e.isEnd = false

/-- **What becomes of a response** of `total` to the request that the first of the events `evs`
processes: what was sent is a part of it, from its start; the exchange is left only when all of it
was sent, unless a send fails or an error event comes; and the exchange is open only for so many
events in which a send takes bytes. -/
structure Delivered (total : Bytes) (bound : Nat) (s : HttpCtx P κ) (evs : List (HttpEvent ω))
    (s' : HttpCtx P κ) : Prop where
  follows : Follows total (response (since s s'))
  whole : ¬ StillOpen s s' → .failed .send ∉ response (since s s') → (∀ ev ∈ evs, ev.err = false) →
    Whole total (response (since s s'))
  smooth : (∀ ev ∈ evs, ev.Smooth) → .failed .send ∉ response (since s s')
  bounded : StillOpen s s' → evs.countP HttpEvent.productive ≤ bound

/-- What holds between events. -/
structure Between (s : HttpCtx P κ) : Prop where
  ended : s.attached = true → s.conn.isClose = false → s.everythingEnd = false
  fresh : s.processEnd = false → s.conn.sendBuffer = [] ∧ s.responseEnd = false

variable {L app useSsl} {s s' : HttpCtx P κ} {ev : HttpEvent ω}

/-! ## Frames -/

/-- What the TLS part of an event leaves as it was when it lets the event go on. -/
structure Passed (useSsl : Bool) (s t : HttpCtx P κ) : Prop where
  attached : t.attached = s.attached
  isClose : t.conn.isClose = s.conn.isClose
  sendBuffer : t.conn.sendBuffer = s.conn.sendBuffer
  msg : t.msg = s.msg
  parser : t.parser = s.parser
  processEnd : t.processEnd = s.processEnd
  responseEnd : t.responseEnd = s.responseEnd
  everythingEnd : t.everythingEnd = s.everythingEnd
  trace : t.trace = s.trace
  secured : (useSsl && !t.conn.sslAccepted) = false

theorem sslStep_passed (h : (s.sslStep app useSsl ev).2 = true) :
    Passed useSsl s (s.sslStep app useSsl ev).1 := by
  rw [sslStep] at h ⊢
  split_ifs at h ⊢ with hssl
  · cases hacc : ev.sslAccept with
    | accepted =>
      rw [hacc] at h
      have hnew : app.onNewConnection false ev.os = false := by simpa using h
      simp only [announce, hnew, Bool.false_eq_true, if_false]
      exact ⟨rfl, rfl, rfl, rfl, rfl, rfl, rfl, rfl, rfl, by simp⟩
    | pending | failed => simp [hacc] at h
  · exact ⟨rfl, rfl, rfl, rfl, rfl, rfl, rfl, rfl, rfl, by simpa using hssl⟩

theorem sslStep_of_secured (h : (useSsl && !s.conn.sslAccepted) = false) (ev : HttpEvent ω) :
    s.sslStep app useSsl ev = (s, true) := by
  rw [sslStep, if_neg (by simp [h])]

/-- What reading leaves alone. -/
theorem readPhase_frame (L : Parser P) (ev : HttpEvent ω) (s : HttpCtx P κ) :
    (s.readPhase L ev).conn = s.conn ∧ (s.readPhase L ev).attached = s.attached ∧
      (s.readPhase L ev).processEnd = s.processEnd ∧
      (s.readPhase L ev).responseEnd = s.responseEnd := by
  rw [readPhase]
  split_ifs
  · rw [applyRead]
    split <;> exact ⟨rfl, rfl, rfl, rfl⟩
  · exact ⟨rfl, rfl, rfl, rfl⟩

/-- A request is processed in a run that leaves this known. -/
theorem processPhase_or (app : HttpApp κ ω) (ev : HttpEvent ω) (s : HttpCtx P κ) :
    s.processPhase app ev = s ∨ (s.processPhase app ev).processEnd = true := by
  rw [processPhase]
  split_ifs
  · right
    have hrun (t : HttpCtx P κ) (r : HandlerRun κ) :
        (t.handlerRun r).processEnd = t.processEnd := by
      rw [handlerRun]
      split_ifs <;> rfl
    dsimp only
    split_ifs
    · rw [runProcessCallback]
      split
      · rfl
      · rw [hrun]
        rfl
    · rfl
  · exact .inl rfl

/-- Before a request is processed, nothing is written. -/
theorem writePhase_or (app : HttpApp κ ω) (ev : HttpEvent ω) (s : HttpCtx P κ) :
    s.writePhase app ev = s ∨ (s.writePhase app ev).processEnd = true := by
  have hp := (@writePhase_writes _ _ _ app ev s).frame.2.1
  rw [writePhase] at hp ⊢
  split_ifs at hp ⊢ with hwrite
  · exact .inr (hp.trans (Bool.and_eq_true_iff.mp hwrite).2)
  · exact .inl rfl

/-! ## Traces grow -/

theorem trace_writes {runs : Bool} (h : Writes runs s t) : s.trace <+: t.trace := by
  induction h with
  | refl => exact List.prefix_refl _
  | finish _ ih | ended _ ih => exact ih
  | sent _ _ ih | fail _ _ ih | run _ _ _ ih => exact ih.trans (List.prefix_append _ _)

theorem trace_readPhase (L : Parser P) (ev : HttpEvent ω) (s : HttpCtx P κ) :
    s.trace <+: (s.readPhase L ev).trace := by
  rw [readPhase]
  split_ifs
  · rw [applyRead]
    split
    · exact (List.prefix_append _ _).trans (List.prefix_append _ _)
    · exact List.prefix_append _ _
  · exact List.prefix_refl _

theorem trace_processPhase (app : HttpApp κ ω) (ev : HttpEvent ω) (s : HttpCtx P κ) :
    s.trace <+: (s.processPhase app ev).trace := by
  rw [processPhase]
  split_ifs
  · have hprocess : s.trace <+: ({ s with processEnd := true }.processConnection).trace :=
      List.prefix_append _ _
    dsimp only
    split_ifs
    · rw [runProcessCallback]
      split
      · exact hprocess.trans (List.prefix_append _ _)
      · refine List.IsPrefix.trans ?_ (trace_writes (Writes.refl.handlerRun _))
        exact hprocess
    · exact hprocess.trans (List.prefix_append _ _)
  · exact List.prefix_refl _

theorem trace_announce {tr : List HttpTrace} (h : tr <+: s.trace) (k : Bool) (os : ω) :
    tr <+: (s.announce app k os).trace := by
  rw [announce]
  split_ifs
  · exact h.trans (List.prefix_append _ _)
  · exact h

/-- A context that is created says so first. -/
theorem trace_onCreate (k : Bool) (os : ω) (s : HttpCtx P κ) :
    s.trace ++ [.create k] <+: (s.onCreate L app useSsl k os).trace := by
  have hlog : s.trace ++ [.create k] <+: ((s.reset L k).log (.create k)).trace :=
    List.prefix_refl _
  rw [onCreate]
  split_ifs
  · exact trace_announce hlog k os
  · exact hlog

theorem trace_endPhase (s : HttpCtx P κ) :
    s.trace <+: (s.endPhase L app useSsl ev).trace := by
  have hclose : ∀ t : HttpCtx P κ, t.closeStep.trace = t.trace := by
    intro t
    rw [closeStep]
    split_ifs <;> rfl
  rw [endPhase, hclose, keepAliveStep]
  refine (trace_writes (Writes.refl : Writes true s s).settle).trans ?_
  split_ifs
  · have hcreate : s.settle.trace ++ [.create true] <+:
        (s.settle.destory.reuse L app useSsl ev.os).trace :=
      trace_onCreate true ev.os { s.settle.destory with conn := s.settle.conn.onAlloc }
    exact (List.prefix_append _ _).trans hcreate
  · exact List.prefix_refl _
  · exact List.prefix_refl _

theorem trace_phases (s : HttpCtx P κ) : s.trace <+: (s.phases L app useSsl ev).trace :=
  (trace_readPhase L ev s).trans <| (trace_processPhase app ev _).trans <|
    (trace_writes (writePhase_writes ev _)).trans (trace_endPhase _)

/-- **The trace only grows.** -/
theorem trace_onEvent (L : Parser P) (app : HttpApp κ ω) (useSsl : Bool) (s : HttpCtx P κ)
    (ev : HttpEvent ω) : s.trace <+: (s.onEvent L app useSsl ev).trace := by
  have hssl : s.trace <+: (s.sslStep app useSsl ev).1.trace := by
    rw [sslStep]
    split_ifs
    · cases ev.sslAccept with
      | accepted =>
        exact trace_announce (s := { s with conn := { s.conn with sslAccepted := true } })
          (List.prefix_refl s.trace) false ev.os
      | pending | failed => exact List.prefix_refl _
    · exact List.prefix_refl _
  rw [onEvent]
  split_ifs with hattached herr
  · exact List.prefix_refl _
  · exact List.prefix_append _ _
  · dsimp only
    split_ifs
    · exact List.prefix_append _ _
    · generalize s.sslStep app useSsl ev = p at hssl
      rcases p with ⟨t, _ | _⟩
      · exact hssl
      · exact hssl.trans (trace_phases t)

/-! ## Between events -/

theorem between_onCreate (k : Bool) (os : ω) (hbuf : s.conn.sendBuffer = []) :
    (s.onCreate L app useSsl k os).Between := by
  refine ⟨fun _ _ => onCreate_everythingEnd k os s, fun _ => ?_⟩
  rw [onCreate]
  split_ifs
  · rw [announce]
    split_ifs <;> exact ⟨hbuf, rfl⟩
  · exact ⟨hbuf, rfl⟩

/-- An event leaves a connection marked for closing, or without an exchange that has ended. -/
theorem between_endPhase
    (hs : s.processEnd = false → s.conn.sendBuffer = [] ∧ s.responseEnd = false) :
    (s.endPhase L app useSsl ev).Between := by
  have hs' : s.settle.processEnd = false →
      s.settle.conn.sendBuffer = [] ∧ s.settle.responseEnd = false := by
    rw [settle]
    split_ifs <;> exact hs
  have hclosed : ∀ t : HttpCtx P κ, (t.processEnd = false → t.conn.sendBuffer = [] ∧
      t.responseEnd = false) → t.closeStep.Between := by
    intro t ht
    rw [closeStep]
    split_ifs with hend
    · exact ⟨fun _ h => by simp [setIsClose] at h, ht⟩
    · exact ⟨fun _ _ => by simpa using hend, ht⟩
  rw [endPhase, keepAliveStep]
  split_ifs
  · exact hclosed _ (between_onCreate true ev.os rfl).fresh
  · exact hclosed _ hs'
  · exact hclosed _ hs'

theorem Between.phases
    (hs : s.processEnd = false → s.conn.sendBuffer = [] ∧ s.responseEnd = false) :
    (s.phases L app useSsl ev).Between := by
  obtain ⟨hconn, -, hprocess, hresponse⟩ := readPhase_frame L ev s
  refine between_endPhase fun hp => ?_
  rcases writePhase_or app ev ((s.readPhase L ev).processPhase app ev) with h | h
  · rw [h] at hp ⊢
    rcases processPhase_or app ev (s.readPhase L ev) with h' | h'
    · rw [h'] at hp ⊢
      rw [hconn, hresponse]
      exact hs (hprocess.symm.trans hp)
    · simp [h'] at hp
  · simp [h] at hp

theorem Between.onEvent (hs : s.Between) : (s.onEvent L app useSsl ev).Between := by
  have hclosed : s.destory.closeClientFd.Between :=
    ⟨fun h => by simp [closeClientFd, log] at h, fun h => ⟨rfl, (hs.fresh h).2⟩⟩
  rw [HttpCtx.onEvent]
  split_ifs with hattached herr
  · exact hs
  · exact hclosed
  · dsimp only
    split_ifs with hclose
    · exact hclosed
    · cases hssl : s.sslStep app useSsl ev with
      | mk t b =>
        cases b with
        | true =>
          have hpass : Passed useSsl s (s.sslStep app useSsl ev).1 := sslStep_passed (by rw [hssl])
          rw [hssl] at hpass
          refine Between.phases fun hp => ?_
          rw [hpass.sendBuffer, hpass.responseEnd]
          exact hs.fresh (hpass.processEnd.symm.trans hp)
        | false =>
          have hlive := hs.ended (by simpa using hattached) (by simpa using hclose)
          rw [sslStep] at hssl
          split_ifs at hssl
          · cases hacc : ev.sslAccept with
            | accepted =>
              rw [hacc] at hssl
              obtain ⟨rfl, -⟩ := Prod.mk.inj hssl
              rw [announce]
              split_ifs <;> exact ⟨fun _ _ => hlive, hs.fresh⟩
            | pending | failed =>
              rw [hacc] at hssl
              obtain ⟨rfl, -⟩ := Prod.mk.inj hssl
              exact ⟨fun _ _ => hlive, hs.fresh⟩
          · simp at hssl

/-- **In every run**, with no condition on its events. -/
theorem between_of_run {os : ω} {evs : List (HttpEvent ω)}
    (hrun : exec (step L app useSsl) (accepted L app useSsl os) evs = some s) : s.Between := by
  have halong : Along (step L app useSsl) (fun _ _ => True) (accepted L app useSsl os) evs :=
    along_true evs _
  refine exec_invariant (fun hs _ hstep => ?_) (between_onCreate false os rfl) halong hrun
  cases hstep
  exact hs.onEvent

/-! ## A response on its way -/

/-- The bytes and pieces that are still to come, with what is in the send buffer. -/
def pending (rest : List Bytes) (s : HttpCtx P κ) : Nat :=
  s.conn.sendBuffer.length + rest.flatten.length + rest.length

/-- A response of `total` is under way: `seg` is the trace since it began, behind `base`, and `rest`
are the pieces still to come. -/
structure Holding (useSsl : Bool) (base : List HttpTrace) (total : Bytes) (seg : List HttpTrace)
    (rest : List Bytes) (s : HttpCtx P κ) : Prop where
  attached : s.attached = true
  isClose : s.conn.isClose = false
  secured : (useSsl && !s.conn.sslAccepted) = false
  recvEnd : s.msg.recvEnd = true
  processEnd : s.processEnd = true
  everythingEnd : s.everythingEnd = false
  trace : s.trace = base ++ seg
  entries : ∀ e ∈ seg, e.isEnd = false
  unfailed : .failed .send ∉ seg
  bytes : sentOut seg ++ s.conn.sendBuffer = appended seg
  total : appended seg ++ rest.flatten = total

/-- The pieces to come are none when the response is finished, and else those of the callback. -/
def Remaining (app : HttpApp κ ω) (ok : ω → Prop) (seg : List HttpTrace) (rest : List Bytes)
    (s : HttpCtx P κ) : Prop :=
  s.responseEnd = true ∧ .responseEnd ∈ seg ∧ rest = [] ∨
    s.responseEnd = false ∧ .responseEnd ∉ seg ∧ ∃ k, s.writeEndCallback = some k ∧
      ∀ os, ok os → Script app ok (app.writeEndCallback k os) rest

structure Streaming (app : HttpApp κ ω) (ok : ω → Prop) (useSsl : Bool) (base : List HttpTrace)
    (total : Bytes) (seg : List HttpTrace) (rest : List Bytes) (s : HttpCtx P κ) : Prop
    extends Holding useSsl base total seg rest s where
  remaining : Remaining app ok seg rest s

/-- How a response ends: when it was `calm`, with all of it sent or because a send failed; and when
it was `smooth`, no send failed. -/
structure Ending (total : Bytes) (calm smooth : Prop) (seg : List HttpTrace) : Prop where
  entries : ∀ e ∈ seg, e.isEnd = false
  follows : Follows total seg
  reason : calm → .failed .send ∉ seg → Whole total seg
  unfailed : smooth → .failed .send ∉ seg

/-- The exchange has ended. -/
structure Stopped (base : List HttpTrace) (total : Bytes) (calm smooth : Prop)
    (seg : List HttpTrace) (s : HttpCtx P κ) : Prop extends Ending total calm smooth seg where
  everythingEnd : s.everythingEnd = true
  trace : s.trace = base ++ seg

/-- The connection has left the exchange: it is used again, closed, or marked for closing. -/
def Parted (base seg : List HttpTrace) (s : HttpCtx P κ) : Prop :=
  ∃ tail, s.trace = base ++ (seg ++ tail) ∧
    (tail = [] ∧ s.conn.isClose = true ∨ ∃ e tail', tail = e :: tail' ∧ e.isEnd = true)

section Response

variable {ok : ω → Prop} {base seg : List HttpTrace} {total : Bytes} {rest : List Bytes}
  {r : HandlerRun κ} {calm smooth : Prop}

theorem Holding.follows (hs : s.Holding useSsl base total seg rest)
    (hend : .responseEnd ∈ seg → rest = []) : Follows total seg := by
  refine ⟨?_, fun h => ?_⟩
  · rw [← hs.total, ← hs.bytes, List.append_assoc]
    exact List.prefix_append _ _
  · rw [← hs.total, hend h]
    simp

theorem Streaming.follows (hs : s.Streaming app ok useSsl base total seg rest) :
    Follows total seg := by
  refine hs.toHolding.follows fun h => ?_
  rcases hs.remaining with ⟨-, -, hrest⟩ | ⟨-, hno, -⟩
  · exact hrest
  · exact absurd h hno

theorem Script.cases {ps : List Bytes} (h : Script app ok r ps) :
    r.threw = false ∧ ∃ ps', ps = r.append :: ps' ∧
      (r.responseEnd = true ∧ ps' = [] ∨
        r.responseEnd = false ∧ ∃ k, r.writeEnd = some k ∧
          ∀ os, ok os → Script app ok (app.writeEndCallback k os) ps') := by
  cases h with
  | last hthrew hend => exact ⟨hthrew, [], rfl, .inl ⟨hend, rfl⟩⟩
  | more hthrew hend hnext hrest => exact ⟨hthrew, _, rfl, .inr ⟨hend, _, hnext, hrest⟩⟩

theorem isEnd_runTrace {e : HttpTrace} (h : e ∈ r.trace) : e.isEnd = false := by
  rw [HandlerRun.trace, List.mem_cons] at h
  rcases h with rfl | h
  · rfl
  · split_ifs at h
    · rw [List.mem_singleton.mp h]
      rfl
    · simp at h

theorem unfailed_runTrace {f : Failure} : .failed f ∉ r.trace := by
  rw [HandlerRun.trace]
  split_ifs <;> simp

theorem responseEnd_mem_runTrace : .responseEnd ∈ r.trace ↔ r.responseEnd = true := by
  rw [HandlerRun.trace]
  split_ifs with h <;> simp [h]

/-- **A run of a handler moves one piece into the send buffer.** -/
theorem Holding.handlerRun (hs : s.Holding useSsl base total seg rest)
    (hend : s.responseEnd = false) (hseg : .responseEnd ∉ seg) (hscript : Script app ok r rest) :
    ∃ rest', (s.handlerRun r).Streaming app ok useSsl base total (seg ++ r.trace) rest' ∧
      pending rest' (s.handlerRun r) + 1 = pending rest s := by
  obtain ⟨hthrew, rest', rfl, hnext⟩ := hscript.cases
  rw [HttpCtx.handlerRun, if_neg (by simp [hthrew])]
  have hbytes : sentOut (seg ++ r.trace) ++ (s.conn.sendBuffer ++ r.append) =
      appended (seg ++ r.trace) := by
    rw [sentOut_append, appended_append, (bytes_runTrace r).1, (bytes_runTrace r).2,
      List.append_nil, ← List.append_assoc, hs.bytes]
  have htotal : appended (seg ++ r.trace) ++ rest'.flatten = total := by
    rw [appended_append, (bytes_runTrace r).2, ← hs.total]
    simp
  have htrace : (s.applyRun r).trace = base ++ (seg ++ r.trace) := by
    rw [← List.append_assoc, ← hs.trace]
    rfl
  have hentries : ∀ e ∈ seg ++ r.trace, e.isEnd = false :=
    List.forall_mem_append.mpr ⟨hs.entries, fun _ => isEnd_runTrace⟩
  have hunfailed : .failed .send ∉ seg ++ r.trace := by
    rw [List.mem_append, not_or]
    exact ⟨hs.unfailed, unfailed_runTrace⟩
  refine ⟨rest', { hs with
    trace := htrace, entries := hentries, unfailed := hunfailed
    bytes := hbytes, total := htotal, remaining := ?_ }, ?_⟩
  · rcases hnext with ⟨hresp, hrest⟩ | ⟨hresp, k, hk, hscript⟩
    · refine .inl ⟨by simp [applyRun, hresp], ?_, hrest⟩
      exact List.mem_append_right _ (responseEnd_mem_runTrace.mpr hresp)
    · refine .inr ⟨by simp [applyRun, hend, hresp], ?_, k, by simp [applyRun, hk], hscript⟩
      rw [List.mem_append, responseEnd_mem_runTrace, hresp]
      simpa using hseg
  · simp only [pending, applyRun, List.length_append, List.flatten_cons, List.length_cons]
    omega

/-! ### Sending -/

variable (hs : s.Streaming app ok useSsl base total seg rest)

include hs

theorem Streaming.sentBytes (n : Nat) :
    (s.sentBytes n).Streaming app ok useSsl base total
      (seg ++ [.sent (s.conn.sendBuffer.take n)]) rest := by
  have htrace : (s.sentBytes n).trace = base ++ (seg ++ [.sent (s.conn.sendBuffer.take n)]) := by
    rw [← List.append_assoc, ← hs.trace]
    rfl
  have hentries : ∀ e ∈ seg ++ [.sent (s.conn.sendBuffer.take n)], e.isEnd = false :=
    List.forall_mem_append.mpr ⟨hs.entries, List.forall_mem_singleton.mpr rfl⟩
  have happended : appended (seg ++ [.sent (s.conn.sendBuffer.take n)]) = appended seg := by
    simp [appended]
  have hbytes : sentOut (seg ++ [.sent (s.conn.sendBuffer.take n)]) ++ s.conn.sendBuffer.drop n =
      appended (seg ++ [.sent (s.conn.sendBuffer.take n)]) := by
    rw [happended, ← hs.bytes, sentOut_append]
    simp [sentOut]
  refine { hs with
    trace := htrace, entries := hentries, unfailed := by simpa using hs.unfailed
    bytes := hbytes, total := happended.symm ▸ hs.total, remaining := ?_ }
  rcases hs.remaining with ⟨hend, hmem, hrest⟩ | ⟨hend, hmem, hk⟩
  · exact .inl ⟨hend, List.mem_append_left _ hmem, hrest⟩
  · exact .inr ⟨hend, by simpa using hmem, hk⟩

/-- A send that fails stops the response where it is. -/
theorem Streaming.failed {t : HttpCtx P κ} (hend : t.everythingEnd = true)
    (htrace : t.trace = s.trace ++ [.failed .send]) (hrough : ¬ smooth) :
    t.Stopped base total True smooth (seg ++ [.failed .send]) := by
  have hsent : sentOut (seg ++ [.failed .send]) = sentOut seg := by simp [sentOut]
  have happended : appended (seg ++ [.failed .send]) = appended seg := by simp [appended]
  refine ⟨⟨?_, ⟨?_, fun h => ?_⟩, fun _ h => absurd (by simp) h, fun h => absurd h hrough⟩, hend,
    by rw [htrace, hs.trace, List.append_assoc]⟩
  · exact List.forall_mem_append.mpr ⟨hs.entries, List.forall_mem_singleton.mpr rfl⟩
  · rw [hsent]
    exact hs.follows.sent
  · rw [happended]
    exact hs.follows.finished (by simpa using h)

/-- The send loop takes bytes from the buffer, or stops the response with bytes left in it. -/
theorem Streaming.sendLoop {rs : List SendResult}
    (hsmooth : smooth → SendResult.zero ∉ rs ∧ SendResult.failed ∉ rs) :
    (∃ seg', (s.sendLoop rs).Streaming app ok useSsl base total seg' rest ∧
      (s.sendLoop rs).responseEnd = s.responseEnd ∧
      (s.sendLoop rs).conn.sendBuffer.length ≤ s.conn.sendBuffer.length) ∨
    ∃ seg', (s.sendLoop rs).Stopped base total True smooth seg' ∧
      (s.sendLoop rs).conn.sendBuffer ≠ [] := by
  induction rs generalizing s seg with
  | nil => exact .inl ⟨seg, hs, rfl, Nat.le_refl _⟩
  | cons r rs ih =>
    have hrest : smooth → SendResult.zero ∉ rs ∧ SendResult.failed ∉ rs := fun h =>
      ⟨fun hz => (hsmooth h).1 (List.mem_cons_of_mem r hz),
        fun hf => (hsmooth h).2 (List.mem_cons_of_mem r hf)⟩
    rw [HttpCtx.sendLoop.eq_def]
    dsimp only
    split_ifs with hbuf
    · exact .inl ⟨seg, hs, rfl, Nat.le_refl _⟩
    · cases r with
      | sent n =>
        have hdrop : (s.sentBytes n).conn.sendBuffer.length ≤ s.conn.sendBuffer.length := by
          simp [HttpCtx.sentBytes, log]
        rcases ih (hs.sentBytes n) hrest with ⟨seg', h, hend, hle⟩ | h
        · exact .inl ⟨seg', h, hend, hle.trans hdrop⟩
        · exact .inr h
      | again => exact .inl ⟨seg, hs, rfl, Nat.le_refl _⟩
      | intr => exact ih hs hrest
      | zero => exact .inr ⟨_, hs.failed rfl rfl fun h => (hsmooth h).1 (by simp), hbuf⟩
      | failed => exact .inr ⟨_, hs.failed rfl rfl fun h => (hsmooth h).2 (by simp), hbuf⟩

theorem Streaming.sendPhase (ev : HttpEvent ω) :
    (∃ seg', (s.sendPhase ev).Streaming app ok useSsl base total seg' rest ∧
      (s.sendPhase ev).responseEnd = s.responseEnd ∧
      (s.sendPhase ev).conn.sendBuffer.length ≤ s.conn.sendBuffer.length ∧
      (ev.productive = true → s.conn.sendBuffer ≠ [] →
        (s.sendPhase ev).conn.sendBuffer.length < s.conn.sendBuffer.length)) ∨
    ∃ seg', (s.sendPhase ev).Stopped base total True ev.Smooth seg' ∧
      (s.sendPhase ev).conn.sendBuffer ≠ [] := by
  rw [HttpCtx.sendPhase]
  split_ifs with hwrite
  · by_cases hprod : ev.productive = true ∧ s.conn.sendBuffer ≠ []
    · obtain ⟨hprod, hbuf⟩ := hprod
      obtain ⟨n, rs, hsends⟩ : ∃ n rs, ev.sends = .sent (n + 1) :: rs := by
        rw [HttpEvent.productive, Bool.and_eq_true] at hprod
        have hmatch := hprod.2
        split at hmatch
        · exact ⟨_, _, by assumption⟩
        · cases hmatch
      have hloop : s.sendLoop ev.sends = (s.sentBytes (n + 1)).sendLoop rs := by
        rw [hsends, HttpCtx.sendLoop, if_neg hbuf]
      have hless : (s.sentBytes (n + 1)).conn.sendBuffer.length < s.conn.sendBuffer.length := by
        have hpos := List.length_pos_iff.mpr hbuf
        simp [HttpCtx.sentBytes, log]
        omega
      rw [hloop]
      have hsmooth : ev.Smooth → SendResult.zero ∉ rs ∧ SendResult.failed ∉ rs := fun h => by
        rw [HttpEvent.Smooth, hsends] at h
        exact ⟨fun hz => h.1 (List.mem_cons_of_mem _ hz), fun hf => h.2 (List.mem_cons_of_mem _ hf)⟩
      rcases (hs.sentBytes (n + 1)).sendLoop hsmooth with ⟨seg', h, hend, hle⟩ | h
      · exact .inl ⟨seg', h, hend, by omega, fun _ _ => by omega⟩
      · exact .inr h
    · have hsmooth : ev.Smooth → SendResult.zero ∉ ev.sends ∧ SendResult.failed ∉ ev.sends := id
      rcases hs.sendLoop hsmooth with ⟨seg', h, hend, hle⟩ | h
      · exact .inl ⟨seg', h, hend, hle, fun hp hb => absurd ⟨hp, hb⟩ hprod⟩
      · exact .inr h
  · refine .inl ⟨seg, hs, rfl, Nat.le_refl _, fun hp => ?_⟩
    simp [HttpEvent.productive, hwrite] at hp

/-! ### The end of an event -/

/-- A response that is under way after an event has bytes to send, or a callback to ask. -/
def Idle (s : HttpCtx P κ) : Prop := s.conn.sendBuffer ≠ [] ∨ s.responseEnd = false

theorem Streaming.settle : s.settle = s ∧ s.Idle ∨ s.settle.Stopped base total True smooth seg := by
  rw [HttpCtx.settle]
  split_ifs with hdone
  · refine .inr ⟨⟨hs.entries, hs.follows, fun _ _ => ?_, fun _ => hs.unfailed⟩, rfl, hs.trace⟩
    rcases hs.remaining with ⟨-, hmem, hrest⟩ | ⟨hend, -, -⟩
    · refine ⟨?_, hmem⟩
      rw [← hs.total, ← hs.bytes, hdone.1, hrest]
      simp
    · rw [hdone.2] at hend
      cases hend
  · rw [not_and_or, Bool.not_eq_true] at hdone
    exact .inl ⟨rfl, hdone⟩

omit hs

theorem Stopped.settle (hs : s.Stopped base total calm smooth seg) :
    s.settle.Stopped base total calm smooth seg := by
  rw [HttpCtx.settle]
  split_ifs
  · exact ⟨hs.toEnding, rfl, hs.trace⟩
  · exact hs

theorem Stopped.endPhase (hs : s.Stopped base total calm smooth seg) :
    (s.endPhase L app useSsl ev).Parted base seg := by
  have hend := hs.settle.everythingEnd
  rw [HttpCtx.endPhase, keepAliveStep, if_pos hend]
  split_ifs
  · have hfresh : (s.settle.destory.reuse L app useSsl ev.os).everythingEnd = false :=
      onCreate_everythingEnd true ev.os _
    have hcreate : s.settle.trace ++ [.create true] <+:
        (s.settle.destory.reuse L app useSsl ev.os).trace :=
      trace_onCreate true ev.os { s.settle.destory with conn := s.settle.conn.onAlloc }
    obtain ⟨t, ht⟩ := hcreate
    rw [closeStep, if_neg (by simp [hfresh])]
    exact ⟨.create true :: t, by rw [← ht, hs.settle.trace]; simp, .inr ⟨_, _, rfl, rfl⟩⟩
  · have hend' : s.settle.destory.everythingEnd = true := hend
    rw [closeStep, if_pos hend']
    refine ⟨[], ?_, .inl ⟨rfl, rfl⟩⟩
    rw [List.append_nil, ← hs.settle.trace]
    rfl

/-- The connection has left the exchange. -/
def Left (base : List HttpTrace) (total : Bytes) (calm smooth : Prop) (s : HttpCtx P κ) : Prop :=
  ∃ seg, s.Parted base seg ∧ Ending total calm smooth seg

theorem Stopped.left (hs : s.Stopped base total calm smooth seg) :
    (s.endPhase L app useSsl ev).Left base total calm smooth :=
  ⟨seg, hs.endPhase, hs.toEnding⟩

theorem Streaming.endPhase (hs : s.Streaming app ok useSsl base total seg rest) :
    s.endPhase L app useSsl ev = s ∧ s.Idle ∨
      (s.endPhase L app useSsl ev).Left base total True ev.Smooth := by
  have hsettled : s.settle = s ∧ s.Idle ∨ s.settle.Stopped base total True ev.Smooth seg :=
    hs.settle
  rcases hsettled with ⟨hsettle, hidle⟩ | hstopped
  · refine .inl ⟨?_, hidle⟩
    rw [HttpCtx.endPhase, hsettle, keepAliveStep, if_neg (by simp [hs.everythingEnd]), closeStep,
      if_neg (by simp [hs.everythingEnd])]
  · have htwice : s.settle.settle = s.settle := by
      have h := hstopped.everythingEnd
      generalize s.settle = t at h
      rw [HttpCtx.settle]
      split_ifs
      · rw [← h]
      · rfl
    have hleft : (s.settle.endPhase L app useSsl ev).Left base total True ev.Smooth := hstopped.left
    rw [HttpCtx.endPhase, htwice] at hleft
    exact .inr hleft

/-- The callback is asked for the next piece. -/
theorem Streaming.writeEnd (hs : s.Streaming app ok useSsl base total seg rest)
    (hend : s.responseEnd = false) (hok : ok ev.os) :
    let t := (s.writeEnd app ev.os).endPhase L app useSsl ev
    (∃ seg' rest', t.Streaming app ok useSsl base total seg' rest' ∧ t.Idle ∧
      pending rest' t + 1 = pending rest s) ∨ t.Left base total True ev.Smooth := by
  intro t
  obtain ⟨-, hno, k, hk, hscript⟩ := hs.remaining.resolve_left (by simp [hend])
  obtain ⟨rest', hnext, hpending⟩ := hs.toHolding.handlerRun hend hno (hscript ev.os hok)
  have ht : t = (s.handlerRun (app.writeEndCallback k ev.os)).settle.endPhase L app useSsl ev := by
    show (s.writeEnd app ev.os).endPhase L app useSsl ev = _
    rw [HttpCtx.writeEnd, hk]
  rw [ht]
  have hsettled : (s.handlerRun (app.writeEndCallback k ev.os)).settle = _ ∧ _ ∨
      (s.handlerRun (app.writeEndCallback k ev.os)).settle.Stopped base total True ev.Smooth _ :=
    hnext.settle
  rcases hsettled with ⟨hsettle, -⟩ | hstopped
  · rw [hsettle]
    have hend' : (s.handlerRun (app.writeEndCallback k ev.os)).endPhase L app useSsl ev = _ ∧ _ ∨
        _ := hnext.endPhase
    rcases hend' with ⟨hsame, hidle⟩ | hleft
    · rw [hsame]
      exact .inl ⟨_, rest', hnext, hidle, hpending⟩
    · exact .inr hleft
  · exact .inr hstopped.left

/-- **The end of an event**, behind the processing: a response that is under way stays so, with
less to come when bytes were taken or a piece was asked for, or the connection leaves the
exchange. -/
theorem Streaming.finish (hs : s.Streaming app ok useSsl base total seg rest) (hok : ok ev.os) :
    let t := (s.writePhase app ev).endPhase L app useSsl ev
    (∃ seg' rest', t.Streaming app ok useSsl base total seg' rest' ∧ t.Idle ∧
      pending rest' t ≤ pending rest s ∧
      (ev.productive = true → s.Idle → pending rest' t < pending rest s)) ∨
    t.Left base total True ev.Smooth := by
  intro t
  have hpending : ∀ u : HttpCtx P κ, pending rest u =
      u.conn.sendBuffer.length + rest.flatten.length + rest.length := fun _ => rfl
  have ht : t = (if (s.sendPhase ev).conn.sendBuffer = [] ∧ (s.sendPhase ev).responseEnd = false
      then (s.sendPhase ev).writeEnd app ev.os else s.sendPhase ev).endPhase L app useSsl ev := by
    show (s.writePhase app ev).endPhase L app useSsl ev = _
    rw [HttpCtx.writePhase, if_pos (by simp [hs.everythingEnd, hs.processEnd])]
  rw [ht]
  rcases hs.sendPhase ev with ⟨seg', hsent, hsame, hle, hless⟩ | ⟨seg', hstopped, hbuf⟩
  · split_ifs with hdrained
    · rcases hsent.writeEnd (L := L) hdrained.2 hok with ⟨seg'', rest', h, hidle, hnext⟩ | hleft
      · rw [hpending] at hnext
        exact .inl ⟨seg'', rest', h, hidle, by rw [hpending]; omega, fun _ _ => by
          rw [hpending]; omega⟩
      · exact .inr hleft
    · have hend : (s.sendPhase ev).endPhase L app useSsl ev = _ ∧ _ ∨ _ := hsent.endPhase
      rcases hend with ⟨hend, hidle⟩ | hleft
      · rw [hend]
        refine .inl ⟨seg', rest, hsent, hidle, by rw [hpending, hpending]; omega, fun hp hi => ?_⟩
        -- the callback was not asked, so there were bytes to send
        have hbuf : s.conn.sendBuffer ≠ [] := by
          intro hempty
          have hzero : (s.sendPhase ev).conn.sendBuffer = [] := by
            rw [hempty] at hle
            exact List.length_eq_zero_iff.mp (Nat.le_zero.mp hle)
          exact hdrained ⟨hzero, hsame.trans (hi.resolve_left (not_not.mpr hempty))⟩
        have := hless hp hbuf
        rw [hpending, hpending]
        omega
      · exact .inr hleft
  · rw [if_neg fun h => hbuf h.1]
    exact .inr hstopped.left

/-! ## Events and runs -/

theorem Left.mono {calm' smooth' : Prop} (hs : s.Left base total calm smooth) (h : calm' → calm)
    (h' : smooth' → smooth) : s.Left base total calm' smooth' := by
  obtain ⟨seg, hparted, hend⟩ := hs
  exact ⟨seg, hparted, hend.entries, hend.follows, fun hc => hend.reason (h hc),
    fun hc => hend.unfailed (h' hc)⟩

theorem Parted.onEvent (hs : s.Parted base seg) : (s.onEvent L app useSsl ev).Parted base seg := by
  obtain ⟨tail, htrace, htail⟩ := hs
  rcases htail with ⟨rfl, hclose⟩ | ⟨e, tail, rfl, he⟩
  · by_cases hattached : s.attached = true
    · refine ⟨[.close], ?_, .inr ⟨_, _, rfl, rfl⟩⟩
      have hev : s.onEvent L app useSsl ev =
          (if ev.err then s.setIsClose else s).destory.closeClientFd := by
        rw [HttpCtx.onEvent, if_neg (by simp [hattached])]
        dsimp only
        rw [if_pos]
        split_ifs
        · rfl
        · exact hclose
      have hset : (if ev.err then s.setIsClose else s).trace = s.trace := by split_ifs <;> rfl
      rw [hev]
      show (if ev.err then s.setIsClose else s).trace ++ [.close] = _
      rw [hset, htrace]
      simp
    · have hev : s.onEvent L app useSsl ev = s := by
        rw [HttpCtx.onEvent, if_pos (by simpa using hattached)]
      rw [hev]
      exact ⟨[], htrace, .inl ⟨rfl, hclose⟩⟩
  · obtain ⟨t, ht⟩ := trace_onEvent L app useSsl s ev
    refine ⟨e :: (tail ++ t), ?_, .inr ⟨e, _, rfl, he⟩⟩
    rw [← ht, htrace]
    simp

variable {evs : List (HttpEvent ω)} {req : HttpRequest} {pre : List HttpTrace} {bound : Nat}

/-- A connection that has left an exchange does not come back to it. -/
theorem Left.run (hs : s.Left base total calm smooth)
    (hrun : exec (step L app useSsl) s evs = some s') : s'.Left base total calm smooth := by
  have halong : Along (step L app useSsl) (fun _ _ => True) s evs := along_true evs s
  refine exec_invariant (fun hs _ hstep => ?_) hs halong hrun
  cases hstep
  obtain ⟨seg, hparted, hend⟩ := hs
  exact ⟨seg, hparted.onEvent, hend⟩

/-- **The step lemma**. -/
theorem Streaming.onEvent (hs : s.Streaming app ok useSsl base total seg rest) (hidle : s.Idle)
    (hok : ok ev.os) :
    let t := s.onEvent L app useSsl ev
    (∃ seg' rest', t.Streaming app ok useSsl base total seg' rest' ∧ t.Idle ∧
      pending rest' t ≤ pending rest s ∧
      (ev.productive = true → pending rest' t < pending rest s)) ∨
    t.Left base total (ev.err = false) ev.Smooth := by
  intro t
  cases herr : ev.err with
  | true =>
    refine .inr ⟨seg, ⟨[.close], ?_, .inr ⟨_, _, rfl, rfl⟩⟩, hs.entries, hs.follows, nofun,
      fun _ => hs.unfailed⟩
    have ht : t = s.setIsClose.destory.closeClientFd := by
      show s.onEvent L app useSsl ev = _
      rw [HttpCtx.onEvent, if_neg (by simp [hs.attached])]
      simp [herr, setIsClose]
    rw [ht]
    show s.trace ++ [.close] = _
    rw [hs.trace]
    simp
  | false =>
    have ht : t = (s.writePhase app ev).endPhase L app useSsl ev := by
      have hread : s.readPhase L ev = s := by
        rw [HttpCtx.readPhase, if_neg (by simp [hs.recvEnd])]
      have hprocess : s.processPhase app ev = s := by
        rw [HttpCtx.processPhase, if_neg (by simp [hs.processEnd])]
      show s.onEvent L app useSsl ev = _
      rw [HttpCtx.onEvent, if_neg (by simp [hs.attached])]
      simp only [herr, Bool.false_eq_true, if_false, hs.isClose, sslStep_of_secured hs.secured]
      rw [HttpCtx.phases, hread, hprocess]
    rw [ht]
    rcases hs.finish (L := L) hok with ⟨seg', rest', h, hi, hle, hless⟩ | hleft
    · exact .inl ⟨seg', rest', h, hi, hle, fun hp => hless hp hidle⟩
    · exact .inr (hleft.mono (fun _ => trivial) id)

/-- **The run lemma**: a response that is still under way has used up what its events took. -/
theorem Streaming.run (hs : s.Streaming app ok useSsl base total seg rest) (hidle : s.Idle)
    (hok : ∀ ev ∈ evs, ok ev.os) (hrun : exec (step L app useSsl) s evs = some s') :
    (∃ seg' rest', s'.Streaming app ok useSsl base total seg' rest' ∧
      evs.countP HttpEvent.productive + pending rest' s' ≤ pending rest s) ∨
    s'.Left base total (∀ ev ∈ evs, ev.err = false) (∀ ev ∈ evs, ev.Smooth) := by
  induction evs generalizing s seg rest with
  | nil =>
    obtain rfl : s = s' := Option.some.inj hrun
    exact .inl ⟨seg, rest, hs, by simp⟩
  | cons ev evs ih =>
    obtain ⟨s₁, hstep, hrun'⟩ := exec_cons_eq_some.mp hrun
    cases hstep
    rcases hs.onEvent (L := L) hidle (hok ev List.mem_cons_self) with
      ⟨seg₁, rest₁, h₁, hidle₁, hle, hless⟩ | hleft
    · rcases ih h₁ hidle₁ (fun e he => hok e (List.mem_cons_of_mem ev he)) hrun' with
        ⟨seg', rest', h', hbound⟩ | hleft
      · refine .inl ⟨seg', rest', h', ?_⟩
        rw [List.countP_cons]
        split_ifs with hprod
        · have := hless hprod
          omega
        · omega
      · exact .inr (hleft.mono (fun h e he => h e (List.mem_cons_of_mem ev he))
          fun h e he => h e (List.mem_cons_of_mem ev he))
    · exact .inr ((hleft.run hrun').mono (fun h => h ev List.mem_cons_self)
        fun h => h ev List.mem_cons_self)

/-! ## The first event -/

/-- A request has been read, and nothing was written yet. -/
structure Read (useSsl : Bool) (s : HttpCtx P κ) (r : HttpRequest) (pre : List HttpTrace)
    (u : HttpCtx P κ) : Prop where
  attached : u.attached = true
  isClose : u.conn.isClose = false
  secured : (useSsl && !u.conn.sslAccepted) = false
  sendBuffer : u.conn.sendBuffer = []
  recvEnd : u.msg.recvEnd = true
  request : u.msg.request = r
  processEnd : u.processEnd = false
  responseEnd : u.responseEnd = false
  everythingEnd : u.everythingEnd = false
  trace : u.trace = s.trace ++ pre
  entries : ∀ e ∈ pre, e.isProcess = false ∧ e.isEnd = false

/-- The reading of an event that processes a request. -/
theorem Processes.read_phase (hs : s.Between) (hp : s.Processes L app useSsl ev req) :
    ∃ pre, Read useSsl s req pre ((s.sslStep app useSsl ev).1.readPhase L ev) := by
  have hpass := sslStep_passed hp.ssl
  have hhandles := hp.handles
  have hread := hp.read
  have hrequest := hp.request
  have hend := hs.ended hp.attached hp.isClose
  rw [HttpCtx.handles, Bool.and_eq_true, Bool.not_eq_true'] at hhandles
  obtain ⟨hrecv, hprocess⟩ := hhandles
  obtain ⟨hbuf, hresponse⟩ := hs.fresh hprocess
  have hin : (s.sslStep app useSsl ev).1.inHand L ev = s.inHand L ev := by
    rw [inHand, inHand, hpass.msg, hpass.parser]
  generalize (s.sslStep app useSsl ev).1 = t at hpass hin
  rw [← hin] at hread hrecv hrequest
  have hmsg := (readPhase_msg (s := t) L ev (hpass.everythingEnd.trans hend)).1
  obtain ⟨hconn, hattached, hprocess', hresponse'⟩ := readPhase_frame L ev t
  have hphase : t.readPhase L ev = _ := readPhase_eq (hpass.everythingEnd.trans hend)
  obtain ⟨pre, htrace, hentries, hend'⟩ : ∃ pre, (t.readPhase L ev).trace = t.trace ++ pre ∧
      (∀ e ∈ pre, e.isProcess = false ∧ e.isEnd = false) ∧
      (t.readPhase L ev).everythingEnd = false := by
    rw [inHand] at hread
    rw [hphase]
    split_ifs at hread ⊢
    · have hnone : (t.msg.recvLoop L ev.recvs 0 t.parser).failure = none := hread
      refine ⟨(t.msg.recvLoop L ev.recvs 0 t.parser).trace, ?_, fun e he => ?_, ?_⟩
      · rw [applyRead, hnone]
      · rcases mem_readTrace he with rfl | ⟨bs, rfl⟩ <;> exact ⟨rfl, rfl⟩
      · rw [applyRead, hnone]
        exact hpass.everythingEnd.trans hend
    · exact ⟨[], by simp, by simp, hpass.everythingEnd.trans hend⟩
  refine ⟨pre, hattached.trans (hpass.attached.trans hp.attached), ?_, ?_, ?_, ?_, ?_,
    hprocess'.trans (hpass.processEnd.trans hprocess),
    hresponse'.trans (hpass.responseEnd.trans hresponse), hend', ?_, hentries⟩
  · rw [hconn, hpass.isClose]
    exact hp.isClose
  · rw [hconn]
    exact hpass.secured
  · rw [hconn, hpass.sendBuffer]
    exact hbuf
  · rw [hmsg]
    exact hrecv
  · rw [hmsg]
    exact hrequest
  · rw [htrace, hpass.trace]

/-- What processing makes of a request that was read. -/
theorem Read.processPhase {run : ProcessRun κ} {u : HttpCtx P κ} (hu : Read useSsl s req pre u)
    (hrun : app.processCallback req ev.os = some run) :
    ∃ v : HttpCtx P κ, u.processPhase app ev = v.handlerRun run.toHandlerRun ∧
      v.responseEnd = false ∧
      ∀ ps : List Bytes,
        v.Holding useSsl (s.trace ++ pre ++ [.process req]) ps.flatten [] ps := by
  have hmsg : ({ u with processEnd := true }.processConnection).msg.request = req := hu.request
  refine ⟨{ { u with processEnd := true }.processConnection with
    keepAlive := headerExistKeepLive u.msg.headers }, ?_, hu.responseEnd, fun ps => ?_⟩
  · rw [processPhase_eq hu.everythingEnd, if_pos (by simp [hu.recvEnd, hu.processEnd]),
      runProcessCallback, hmsg, hrun]
    rfl
  · refine ⟨hu.attached, hu.isClose, hu.secured, hu.recvEnd, rfl, hu.everythingEnd, ?_, by simp,
      by simp, ?_, ?_⟩
    · show u.trace ++ [.process u.msg.request] = _
      rw [hu.trace, hu.request, List.append_nil]
    · exact hu.sendBuffer
    · rfl

theorem onEvent_of_processes (hp : s.Processes L app useSsl ev req) :
    s.onEvent L app useSsl ev = (s.sslStep app useSsl ev).1.phases L app useSsl ev := by
  have hssl := hp.ssl
  rw [HttpCtx.onEvent, if_neg (by simp [hp.attached])]
  simp only [hp.err, Bool.false_eq_true, if_false, hp.isClose]
  generalize s.sslStep app useSsl ev = p at hssl
  obtain ⟨t, b⟩ := p
  obtain rfl : b = true := hssl
  rfl

/-! ## The results -/

/-- Where a response stands in the trace. -/
theorem response_since {tail : List HttpTrace}
    (htrace : s'.trace = s.trace ++ pre ++ [.process req] ++ (seg ++ tail))
    (hpre : ∀ e ∈ pre, e.isProcess = false ∧ e.isEnd = false) (hseg : ∀ e ∈ seg, e.isEnd = false)
    (htail : tail = [] ∨ ∃ e tail', tail = e :: tail' ∧ e.isEnd = true) :
    since s s' = pre ++ .process req :: (seg ++ tail) ∧ response (since s s') = seg := by
  have hsince : since s s' = pre ++ .process req :: (seg ++ tail) := by
    rw [since, htrace]
    simp
  refine ⟨hsince, ?_⟩
  rw [hsince]
  refine response_eq req (fun e he => (hpre e he).1) hseg fun e he => ?_
  rcases htail with rfl | ⟨e', tail', rfl, he'⟩
  · simp at he
  · obtain rfl : e' = e := by simpa using he
    exact he'

/-- A response that is under way, at the end of a run. -/
theorem Streaming.delivered
    (hs : s'.Streaming app ok useSsl (s.trace ++ pre ++ [.process req]) total seg rest)
    (hpre : ∀ e ∈ pre, e.isProcess = false ∧ e.isEnd = false)
    (hbound : evs.countP HttpEvent.productive ≤ bound) : Delivered total bound s evs s' := by
  have htrace : s'.trace = s.trace ++ pre ++ [.process req] ++ (seg ++ []) := by
    rw [List.append_nil]
    exact hs.trace
  obtain ⟨hsince, hresponse⟩ := response_since htrace hpre hs.entries (.inl rfl)
  refine ⟨hresponse ▸ hs.follows, fun hno => absurd ⟨hs.attached, hs.isClose, fun e he => ?_⟩ hno,
    fun _ => hresponse ▸ hs.unfailed, fun _ => hbound⟩
  rw [hsince, List.append_nil, List.mem_append, List.mem_cons] at he
  rcases he with he | rfl | he
  · exact (hpre e he).2
  · rfl
  · exact hs.entries e he

/-- A response whose exchange was left. -/
theorem Left.delivered
    (hs : s'.Left (s.trace ++ pre ++ [.process req]) total (∀ ev ∈ evs, ev.err = false)
      (∀ ev ∈ evs, ev.Smooth))
    (hpre : ∀ e ∈ pre, e.isProcess = false ∧ e.isEnd = false) : Delivered total bound s evs s' := by
  obtain ⟨seg, ⟨tail, htrace, htail⟩, hend⟩ := hs
  obtain ⟨hsince, hresponse⟩ := response_since htrace hpre hend.entries (htail.imp_left And.left)
  refine ⟨hresponse ▸ hend.follows, fun _ hsend hcalm => ?_,
    fun hsmooth => hresponse ▸ hend.unfailed hsmooth, fun hopen => ?_⟩
  · rw [hresponse] at hsend ⊢
    exact hend.reason hcalm hsend
  · exfalso
    rcases htail with ⟨-, hclose⟩ | ⟨e, tail, rfl, he⟩
    · rw [hopen.isClose] at hclose
      cases hclose
    · have := hopen.unended e (by rw [hsince]; simp)
      rw [he] at this
      cases this

/-- **A response is delivered under every schedule**: to a request that is processed in any state
the connection can be in between events, with pieces that a script gives, and whatever events
follow. -/
theorem delivered_of_script {run : ProcessRun κ} {pieces : List Bytes} (hs : s.Between)
    (hp : s.Processes L app useSsl ev req) (hrun : app.processCallback req ev.os = some run)
    (hscript : Script app ok run.toHandlerRun pieces) (hok : ok ev.os) (hoks : ∀ e ∈ evs, ok e.os)
    (hexec : exec (step L app useSsl) s (ev :: evs) = some s') :
    Delivered pieces.flatten (pieces.flatten.length + pieces.length) s (ev :: evs) s' := by
  obtain ⟨s₁, hstep, hexec⟩ := exec_cons_eq_some.mp hexec
  cases hstep
  obtain ⟨pre, hread⟩ := hp.read_phase hs
  obtain ⟨v, hphase, hend, hholding⟩ := hread.processPhase hrun
  obtain ⟨rest, hstream, hpending⟩ := (hholding pieces).handlerRun hend (by simp) hscript
  have hbound : pending pieces v = pieces.flatten.length + pieces.length := by
    have hbuf : v.conn.sendBuffer = [] := by simpa [sentOut, appended] using (hholding pieces).bytes
    rw [pending, hbuf]
    simp
  rw [← hphase] at hstream hpending
  rw [onEvent_of_processes hp, HttpCtx.phases] at hexec
  rcases hstream.finish (L := L) hok with ⟨seg', rest', h, hidle, hle, -⟩ | hleft
  · rcases h.run hidle hoks hexec with ⟨seg'', rest'', h'', hcount⟩ | hleft
    · refine h''.delivered hread.entries ?_
      rw [List.countP_cons]
      split_ifs <;> omega
    · refine (hleft.mono (fun h e he => ?_) fun h e he => ?_).delivered hread.entries
      · exact h e (List.mem_cons_of_mem ev he)
      · exact h e (List.mem_cons_of_mem ev he)
  · exact ((hleft.run hexec).mono (fun _ => trivial) fun h => h ev List.mem_cons_self).delivered
      hread.entries

/-- When `process_callback` throws, nothing is sent beyond what it had appended. -/
theorem follows_of_threw {run : ProcessRun κ} (hs : s.Between)
    (hp : s.Processes L app useSsl ev req) (hrun : app.processCallback req ev.os = some run)
    (hthrew : run.threw = true) (hexec : exec (step L app useSsl) s (ev :: evs) = some s') :
    Follows run.append (response (since s s')) := by
  obtain ⟨s₁, hstep, hexec⟩ := exec_cons_eq_some.mp hexec
  cases hstep
  obtain ⟨pre, hread⟩ := hp.read_phase hs
  obtain ⟨v, hphase, -, hholding⟩ := hread.processPhase hrun
  have hstopped : (v.handlerRun run.toHandlerRun).Stopped (s.trace ++ pre ++ [.process req])
      run.append False False (run.trace ++ [.failed .handler]) := by
    rw [handlerRun, if_pos hthrew]
    refine ⟨⟨?_, ⟨?_, fun _ => ?_⟩, False.elim, False.elim⟩, rfl, ?_⟩
    · exact List.forall_mem_append.mpr
        ⟨fun _ => isEnd_runTrace, List.forall_mem_singleton.mpr rfl⟩
    · rw [sentOut_append, (bytes_runTrace run.toHandlerRun).1]
      exact List.nil_prefix
    · rw [appended_append, (bytes_runTrace run.toHandlerRun).2]
      exact List.append_nil _
    · show v.trace ++ run.trace ++ [.failed .handler] = _
      rw [(hholding []).trace]
      simp
  rw [onEvent_of_processes hp, HttpCtx.phases, hphase,
    writePhase_of_end hstopped.everythingEnd] at hexec
  obtain ⟨seg, ⟨tail, htrace, htail⟩, hend⟩ := hstopped.left.run hexec
  rw [(response_since htrace hread.entries hend.entries (htail.imp_left And.left)).2]
  exact hend.follows

/-! ## Requests that can come -/

/-- The callbacks can gather this request: no limit stands against it. -/
def Gathered (req : HttpRequest) : Prop :=
  ∃ cbs m, ({} : HttpMessage).runCallbacks cbs = (m, true) ∧ m.recvEnd = true ∧ m.request = req

/-- A parser that reports the same callbacks whatever it is fed. -/
def reporting (cbs : List Callback) : Parser Unit where
  init := ()
  execute _ _ := ((), cbs, true)

/-- An event with something to read. -/
def readEvent (os : ω) : HttpEvent ω where
  read := true
  recvs := [.data []]
  os := os

/-- Every such request is processed on some connection. -/
theorem exists_processes (hreq : Gathered req) (hnew : ∀ k os, app.onNewConnection k os = false)
    (os₀ os : ω) :
    ∃ L : Parser Unit, (accepted L app false os₀).Processes L app false (readEvent os) req := by
  obtain ⟨cbs, m, hcbs, hend, hrequest⟩ := hreq
  have hrun : ({} : HttpMessage).recvLoop (reporting cbs) (readEvent os).recvs 0 () =
      { parser := (), msg := m, taken := [[]] } := by
    simp [HttpMessage.recvLoop, readEvent, HttpMessage.execute, reporting, hcbs]
  have hin : (accepted (reporting cbs) app false os₀).inHand (reporting cbs) (readEvent os) =
      (m, none) := by
    have hread : (readEvent os).read = true := rfl
    simp only [inHand, accepted, onCreate, announce, hnew, Bool.not_false, Bool.true_or, if_true,
      Bool.false_eq_true, if_false, log, reset, hread, Bool.and_self]
    rw [show (reporting cbs).init = () from rfl, hrun]
  refine ⟨reporting cbs, ?_, ?_, rfl, rfl, by rw [hin], ?_, by rw [hin]; exact hrequest⟩
  · simp [accepted, onCreate, announce, hnew, log, reset]
  · simp [accepted, onCreate, announce, hnew, log, reset, Connection.onAlloc]
  · rw [handles, hin, hend]
    simp [accepted, onCreate, announce, hnew, log, reset]

/-! ## Schedules that come to an end -/

/-- `n` events in which the socket takes a byte. -/
def draining (os : ω) (n : Nat) : List (HttpEvent ω) :=
  List.replicate n { write := true, sends := [.sent 1], os := os }

theorem exec_step (s : HttpCtx P κ) (evs : List (HttpEvent ω)) :
    ∃ s', exec (step L app useSsl) s evs = some s' := by
  induction evs generalizing s with
  | nil => exact ⟨s, rfl⟩
  | cons ev evs ih => exact ih (s.onEvent L app useSsl ev)

/-- A response is delivered as a whole when the socket takes a byte often enough. -/
theorem Delivered.whole_of_draining {n : Nat} {os : ω}
    (h : Delivered total bound s (ev :: draining os n) s') (hn : bound < n) (hsmooth : ev.Smooth)
    (herr : ev.err = false) : Whole total (response (since s s')) := by
  have hmem : ∀ e ∈ ev :: draining os n, e.Smooth ∧ e.err = false := by
    intro e he
    rcases List.mem_cons.mp he with rfl | he
    · exact ⟨hsmooth, herr⟩
    · rw [List.eq_of_mem_replicate he]
      exact ⟨⟨by simp, by simp⟩, rfl⟩
  have hcount : n ≤ (ev :: draining os n).countP HttpEvent.productive := by
    have hdrain : (draining os n).countP HttpEvent.productive = n := by
      rw [draining, List.countP_replicate]
      exact if_pos rfl
    rw [List.countP_cons, hdrain]
    omega
  refine h.whole (fun hopen => ?_) (h.smooth fun e he => (hmem e he).1) fun e he => (hmem e he).2
  have := h.bounded hopen
  omega

end Response

end HttpCtx

end Avant.Conn
