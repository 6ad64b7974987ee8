import Avant.Conn.HttpCtx
import Avant.Lib.HttpRequest
import Avant.Lib.Machine

/-!
# When an HTTP connection is used again

`on_event` ends an exchange by setting `everything_end`, from the exits of success and from those
of failure alike, and then asks `keep_alive` whether to close the connection or to use it for a
further request. The flag is the one the last handler left, so it may still be that of an earlier
request.

Results:
* **`proper_of_spared`**: in every run in which no failure strikes while the flag is on, a
  connection is used again only after a complete exchange, and after a failure it is closed and
  no further request is processed (`Proper`);
* `not_proper_after_parse_error`: a request that does not parse, on a connection that is kept
  alive.
-/

namespace Avant.Conn

open Avant.Lib Avant.Lib.Http Avant.Socket

/-! ## Exchanges -/

namespace HttpTrace

/-- A request can be read, or is processed, from here on. -/
def begins : HttpTrace → Bool
  | .create _ | .process _ => true
  | _ => false

def isCreate : HttpTrace → Bool
  | .create _ => true
  | _ => false

/-- Neither the beginning of an exchange nor a failure. -/
def plain : HttpTrace → Bool
  | .create _ | .failed _ => false
  | _ => true

/-- The part of a trace behind the last `on_create`. -/
def exchange (tr : List HttpTrace) : List HttpTrace :=
  tr.foldl (fun ex e => if e.isCreate then [] else ex ++ [e]) []

/-- The bytes handlers appended to the send buffer. -/
def appended (tr : List HttpTrace) : Bytes :=
  tr.flatMap fun
    | .append bs => bs
    | _ => []

/-- The bytes `send` took. -/
def sentOut (tr : List HttpTrace) : Bytes :=
  tr.flatMap fun
    | .sent bs => bs
    | _ => []

def Unfailed (tr : List HttpTrace) : Prop := ∀ f, .failed f ∉ tr

/-- An exchange that came to its end: the request was parsed, the response marked finished, all
its bytes were sent, and nothing failed. -/
structure Complete (ex : List HttpTrace) : Prop where
  parsed : .recvEnd ∈ ex
  finished : .responseEnd ∈ ex
  sent : sentOut ex = appended ex
  unfailed : Unfailed ex

/-- Every further use of the connection comes after a complete exchange. -/
def ReuseOk (tr : List HttpTrace) : Prop :=
  ∀ pre post, tr = pre ++ .create true :: post → Complete (exchange pre)

/-- Nothing begins after a failure. -/
def StopOk (tr : List HttpTrace) : Prop :=
  ∀ pre f post, tr = pre ++ .failed f :: post → ∀ e ∈ post, e.begins = false

variable {tr ts : List HttpTrace} {e : HttpTrace}

theorem exchange_snoc (tr : List HttpTrace) (e : HttpTrace) :
    exchange (tr ++ [e]) = if e.isCreate then [] else exchange tr ++ [e] := by
  simp [exchange]

theorem exchange_append (h : ∀ e ∈ ts, e.isCreate = false) :
    exchange (tr ++ ts) = exchange tr ++ ts := by
  induction ts using List.reverseRecOn with
  | nil => simp
  | append_singleton ts e ih =>
    have he : e.isCreate = false := h e (by simp)
    rw [← List.append_assoc, exchange_snoc, ih fun e' he' => h e' (List.mem_append_left _ he')]
    simp [he]

@[simp] theorem appended_append : appended (tr ++ ts) = appended tr ++ appended ts :=
  List.flatMap_append

@[simp] theorem sentOut_append : sentOut (tr ++ ts) = sentOut tr ++ sentOut ts :=
  List.flatMap_append

theorem mem_of_mem_exchange (h : e ∈ exchange tr) : e ∈ tr := by
  induction tr using List.reverseRecOn with
  | nil => simp [exchange] at h
  | append_singleton tr e' ih =>
    rw [exchange_snoc] at h
    split_ifs at h with he'
    · simp at h
    · rcases List.mem_append.mp h with h | h
      · exact List.mem_append_left _ (ih h)
      · exact List.mem_append_right _ h

theorem Unfailed.exchange (h : Unfailed tr) : Unfailed (exchange tr) :=
  fun f hf => h f (mem_of_mem_exchange hf)

theorem isCreate_of_plain (h : e.plain = true) : e.isCreate = false := by
  cases e with
  | create | failed => cases h
  | _ => rfl

theorem unfailed_of_plain (h : ∀ e ∈ ts, e.plain = true) : Unfailed ts := fun _ hf =>
  absurd (h _ hf) (by simp [plain])

theorem Unfailed.append (h : Unfailed tr) (hts : Unfailed ts) : Unfailed (tr ++ ts) := fun f hf =>
  (List.mem_append.mp hf).elim (h f) (hts f)

theorem ReuseOk.snoc (h : ReuseOk tr) (he : e = .create true → Complete (exchange tr)) :
    ReuseOk (tr ++ [e]) := by
  intro pre post heq
  rcases post.eq_nil_or_concat with rfl | ⟨post, e', rfl⟩
  · obtain ⟨rfl, hcreate⟩ := List.append_inj' heq rfl
    exact he (by simpa using hcreate)
  · rw [List.concat_eq_append, ← List.cons_append, ← List.append_assoc] at heq
    exact h pre post (List.append_inj' heq rfl).1

theorem ReuseOk.append (h : ReuseOk tr) (hts : ∀ e ∈ ts, e.isCreate = false) :
    ReuseOk (tr ++ ts) := by
  induction ts using List.reverseRecOn with
  | nil => simpa using h
  | append_singleton ts e ih =>
    rw [← List.append_assoc]
    refine (ih fun e' he' => hts e' (List.mem_append_left _ he')).snoc ?_
    rintro rfl
    exact absurd (hts (.create true) (by simp)) (by decide)

theorem Unfailed.stopOk (h : Unfailed tr) : StopOk tr := by
  rintro pre f post rfl
  exact absurd (by simp) (h f)

theorem StopOk.snoc (h : StopOk tr) (he : e.begins = false) : StopOk (tr ++ [e]) := by
  intro pre f post heq e' he'
  rcases post.eq_nil_or_concat with rfl | ⟨post, e'', rfl⟩
  · simp at he'
  · rw [List.concat_eq_append, ← List.cons_append, ← List.append_assoc] at heq
    obtain ⟨rfl, hlast⟩ := List.append_inj' heq rfl
    rw [List.concat_eq_append, ← hlast] at he'
    exact List.forall_mem_append.mpr
      ⟨h pre f post rfl, List.forall_mem_singleton.mpr he⟩ e' he'

end HttpTrace

/-! ## Runs -/

namespace HttpCtx

open HttpTrace

variable {P κ ω : Type} (L : Parser P) (app : HttpApp κ ω) (useSsl : Bool)

/-- One event. -/
def step (s : HttpCtx P κ) (ev : HttpEvent ω) : Option (HttpCtx P κ) :=
  some (s.onEvent L app useSsl ev)

/-- The connection was closed, or will be by the next event. -/
def Closing (s : HttpCtx P κ) : Prop := s.conn.isClose = true ∨ s.attached = false

/-- **What keep-alive should be**: the connection is used for a further request only after a
complete exchange; after a failure it is closed, and no request is read or processed. -/
structure Proper (s : HttpCtx P κ) : Prop where
  reuse : ReuseOk s.trace
  stop : StopOk s.trace
  closing : ¬ Unfailed s.trace → s.Closing

/-- The message when the reads of an event are done, and the failure they ended in. -/
def inHand (s : HttpCtx P κ) (ev : HttpEvent ω) : HttpMessage × Option Failure :=
  if !s.msg.recvEnd && ev.read then
    ((s.msg.recvLoop L ev.recvs 0 s.parser).msg, (s.msg.recvLoop L ev.recvs 0 s.parser).failure)
  else (s.msg, none)

/-- The event completes a request or finds one that was not processed yet. -/
def handles (s : HttpCtx P κ) (ev : HttpEvent ω) : Bool :=
  (s.inHand L ev).1.recvEnd && !s.processEnd

/-- The context an event brings to its phases; none when it ends before them. -/
def entering (s : HttpCtx P κ) (ev : HttpEvent ω) : Option (HttpCtx P κ) :=
  if s.attached && !ev.err && !s.conn.isClose && (s.sslStep app useSsl ev).2 then
    some (s.sslStep app useSsl ev).1
  else none

/-- `Q` holds where an event enters its phases. -/
def Entered (Q : HttpCtx P κ → HttpEvent ω → Prop) (s : HttpCtx P κ) (ev : HttpEvent ω) : Prop :=
  ∀ t ∈ s.entering app useSsl ev, Q t ev

/-- A request was read and nothing has failed: the handler is called. -/
def due (s : HttpCtx P κ) : Bool := !s.everythingEnd && s.msg.recvEnd && !s.processEnd

/-- One of the sends of an event fails, with `n` bytes to send. -/
def sendFails : List SendResult → Nat → Bool
  | [], _ => false
  | r :: rs, n =>
    n != 0 &&
      match r with
      | .sent k => sendFails rs (n - k)
      | .again => false
      | .intr => sendFails rs n
      | .zero | .failed => true

/-- The `write_end_callback` that an event runs, with the send buffer drained. -/
def dueWriteEnd (ev : HttpEvent ω) (s : HttpCtx P κ) : Option κ :=
  if !s.everythingEnd && s.processEnd then
    let s := s.sendPhase ev
    if s.conn.sendBuffer = [] ∧ s.responseEnd = false then s.writeEndCallback else none
  else none

/-- A send of the event fails, or the `write_end_callback` it runs throws. -/
def writeFails (ev : HttpEvent ω) (s : HttpCtx P κ) : Bool :=
  !s.everythingEnd && s.processEnd && ev.write && sendFails ev.sends s.conn.sendBuffer.length ||
    (s.dueWriteEnd ev).any fun k => (app.writeEndCallback k ev.os).threw

/-- **No failure strikes while the connection is kept alive.** Up to the point where the handler
has read the headers of a request, it is the `keep_alive` of the previous one that must be off;
behind it, the request must not carry `Connection: keep-alive`. -/
structure Spared (s : HttpCtx P κ) (ev : HttpEvent ω) : Prop where
  read : (s.inHand L ev).2 ≠ none → s.keepAlive = false
  early : (s.readPhase L ev).due = true →
    (app.processCallback (s.readPhase L ev).msg.request ev.os).isNone →
    (s.readPhase L ev).keepAlive = false
  late : (s.readPhase L ev).due = true →
    (app.processCallback (s.readPhase L ev).msg.request ev.os).any (·.threw) →
    headerExistKeepLive (s.readPhase L ev).msg.headers = false
  write : ((s.readPhase L ev).processPhase app ev).writeFails app ev = true →
    ((s.readPhase L ev).processPhase app ev).keepAlive = false

variable {L app useSsl} {s : HttpCtx P κ} {ev : HttpEvent ω}

/-! ## The states between and within events -/

/-- An exchange is going on and nothing has failed. -/
structure Going (s : HttpCtx P κ) : Prop where
  attached : s.attached = true
  isClose : s.conn.isClose = false
  everythingEnd : s.everythingEnd = false
  reuse : ReuseOk s.trace
  unfailed : Unfailed s.trace
  parsed : s.msg.recvEnd = true → .recvEnd ∈ exchange s.trace
  processed : s.processEnd = true → s.msg.recvEnd = true
  finished : s.responseEnd = true → .responseEnd ∈ exchange s.trace ∧ s.processEnd = true
  bytes : sentOut (exchange s.trace) ++ s.conn.sendBuffer = appended (exchange s.trace)

/-- A request that was processed has a response that is finished, or a callback to finish it. -/
structure Live (s : HttpCtx P κ) : Prop extends s.Going where
  answering : s.processEnd = true → s.responseEnd = true ∨ s.writeEndCallback.isSome = true

/-- The exchange has come to its end. -/
structure Ended (s : HttpCtx P κ) : Prop where
  everythingEnd : s.everythingEnd = true
  isClose : s.conn.isClose = false
  reuse : ReuseOk s.trace
  unfailed : Unfailed s.trace
  complete : Complete (exchange s.trace)

/-- Something failed in this event, with `keep_alive` off. -/
structure Doomed (s : HttpCtx P κ) : Prop where
  everythingEnd : s.everythingEnd = true
  keepAlive : s.keepAlive = false
  reuse : ReuseOk s.trace
  stop : StopOk s.trace

/-- The connection is done with. -/
structure Done (s : HttpCtx P κ) : Prop where
  closing : s.Closing
  reuse : ReuseOk s.trace
  stop : StopOk s.trace

theorem Live.proper (hs : s.Live) : s.Proper :=
  ⟨hs.reuse, hs.unfailed.stopOk, fun h => absurd hs.unfailed h⟩

theorem Done.proper (hs : s.Done) : s.Proper := ⟨hs.reuse, hs.stop, fun _ => hs.closing⟩

theorem Going.setIsClose (hs : s.Going) : s.setIsClose.Done :=
  ⟨.inl rfl, hs.reuse, hs.unfailed.stopOk⟩

/-- A failure while `keep_alive` is off. -/
theorem Going.fail (hs : s.Going) (hk : s.keepAlive = false) (f : Failure) : (s.fail f).Doomed :=
  ⟨rfl, hk, hs.reuse.snoc (by simp), hs.unfailed.stopOk.snoc rfl⟩

/-- The response is finished and sent. -/
theorem Going.ended (hs : s.Going) (hbuf : s.conn.sendBuffer = []) (hend : s.responseEnd = true) :
    Ended { s with everythingEnd := true } := by
  obtain ⟨hfinished, hprocessed⟩ := hs.finished hend
  refine ⟨rfl, hs.isClose, hs.reuse, hs.unfailed, hs.parsed (hs.processed hprocessed), hfinished,
    ?_, hs.unfailed.exchange⟩
  have hbytes := hs.bytes
  rwa [hbuf, List.append_nil] at hbytes

/-- **What keeps an exchange going**: entries of the trace that neither begin an exchange nor fail
it, and say so when a flag is set and where bytes went. -/
theorem Going.extend (hs : s.Going) {s' : HttpCtx P κ} {ts : List HttpTrace}
    (htrace : s'.trace = s.trace ++ ts) (hplain : ∀ e ∈ ts, e.plain = true)
    (hattached : s'.attached = true) (hclose : s'.conn.isClose = false)
    (hend : s'.everythingEnd = false)
    (hparsed : s'.msg.recvEnd = true → s.msg.recvEnd = true ∨ .recvEnd ∈ ts)
    (hprocessed : s'.processEnd = true → s'.msg.recvEnd = true)
    (hfinished : s'.responseEnd = true →
      (s.responseEnd = true ∨ .responseEnd ∈ ts) ∧ s'.processEnd = true)
    (hbytes : sentOut ts ++ s'.conn.sendBuffer = s.conn.sendBuffer ++ appended ts) : s'.Going := by
  have hcreate : ∀ e ∈ ts, e.isCreate = false := fun e he => isCreate_of_plain (hplain e he)
  have hex : exchange s'.trace = exchange s.trace ++ ts := by rw [htrace, exchange_append hcreate]
  refine ⟨hattached, hclose, hend, htrace ▸ hs.reuse.append hcreate,
    htrace ▸ hs.unfailed.append (unfailed_of_plain hplain), fun h => ?_, hprocessed, fun h => ?_, ?_⟩
  · rw [hex, List.mem_append]
    exact (hparsed h).imp_left hs.parsed
  · rw [hex, List.mem_append]
    exact ⟨(hfinished h).1.imp_left fun h => (hs.finished h).1, (hfinished h).2⟩
  · rw [hex, sentOut_append, appended_append, List.append_assoc, hbytes, ← List.append_assoc,
      hs.bytes]

/-! ### Reading -/

theorem readPhase_eq (he : s.everythingEnd = false) :
    s.readPhase L ev =
      if !s.msg.recvEnd && ev.read then s.applyRead (s.msg.recvLoop L ev.recvs 0 s.parser)
      else s := by
  simp [readPhase, he]

theorem mem_readTrace {r : ReadResult P} {e : HttpTrace} (h : e ∈ r.trace) :
    e = .recvEnd ∨ ∃ bs, e = .recv bs := by
  rw [ReadResult.trace, List.mem_append, List.mem_map] at h
  rcases h with ⟨bs, -, rfl⟩ | h
  · exact .inr ⟨bs, rfl⟩
  · split_ifs at h
    · exact .inl (by simpa using h)
    · simp at h

theorem bytes_readTrace (r : ReadResult P) : sentOut r.trace = [] ∧ appended r.trace = [] := by
  constructor <;>
  · refine List.flatMap_eq_nil_iff.mpr fun e he => ?_
    rcases mem_readTrace he with rfl | ⟨bs, rfl⟩ <;> rfl

/-- The part of a read that does not fail. -/
theorem Live.applyRead (hs : s.Live) (hr : s.msg.recvEnd = false) (r : ReadResult P) :
    Live { s with parser := r.parser, msg := r.msg, trace := s.trace ++ r.trace } := by
  have hprocess : s.processEnd = true → r.msg.recvEnd = true := by
    intro h
    rw [hs.processed h] at hr
    cases hr
  refine ⟨hs.toGoing.extend rfl (fun e he => ?_) hs.attached hs.isClose hs.everythingEnd
    (fun h => .inr ?_) hprocess (fun h => ⟨.inl h, (hs.finished h).2⟩) ?_, hs.answering⟩
  · rcases mem_readTrace he with rfl | ⟨bs, rfl⟩ <;> rfl
  · have h : r.msg.recvEnd = true := h
    simp [ReadResult.trace, h]
  · simp [bytes_readTrace]

/-- Reading goes on with the exchange, or fails while `keep_alive` is off. -/
theorem Live.readPhase (hs : s.Live) (hread : (s.inHand L ev).2 ≠ none → s.keepAlive = false) :
    (s.readPhase L ev).Live ∨ (s.readPhase L ev).Doomed := by
  rw [readPhase_eq hs.everythingEnd]
  rw [inHand] at hread
  split_ifs at hread ⊢ with hreads
  · have hlive := hs.applyRead (by simpa using And.left (by simpa using hreads))
      (s.msg.recvLoop L ev.recvs 0 s.parser)
    rw [HttpCtx.applyRead]
    cases hf : (s.msg.recvLoop L ev.recvs 0 s.parser).failure with
    | none => exact .inl hlive
    | some f => exact .inr (hlive.fail (hread (by simp [hf])) f)
  · exact .inl hs

/-- What reading leaves alone, and what it makes of the message. -/
theorem readPhase_msg (L : Parser P) (ev : HttpEvent ω) (he : s.everythingEnd = false) :
    (s.readPhase L ev).msg = (s.inHand L ev).1 ∧ (s.readPhase L ev).keepAlive = s.keepAlive ∧
      (s.readPhase L ev).processEnd = s.processEnd := by
  rw [readPhase_eq he, inHand]
  split_ifs
  · rw [HttpCtx.applyRead]
    split <;> exact ⟨rfl, rfl, rfl⟩
  · exact ⟨rfl, rfl, rfl⟩

/-! ### Handlers -/

theorem bytes_runTrace (r : HandlerRun κ) :
    sentOut r.trace = [] ∧ appended r.trace = r.append := by
  rw [HandlerRun.trace]
  split_ifs <;> simp [sentOut, appended]

theorem Going.applyRun (hs : s.Going) (hp : s.processEnd = true) (r : HandlerRun κ) :
    (s.applyRun r).Going := by
  have hend : r.responseEnd = true → .responseEnd ∈ r.trace := fun h => by simp [HandlerRun.trace, h]
  refine hs.extend rfl (fun e he => ?_) hs.attached hs.isClose hs.everythingEnd .inl hs.processed
    (fun h => ⟨(Bool.or_eq_true_iff.mp h).imp_right hend, hp⟩) ?_
  · rw [HandlerRun.trace, List.mem_cons] at he
    rcases he with rfl | he
    · rfl
    · split_ifs at he
      · obtain rfl := List.mem_singleton.mp he
        rfl
      · simp at he
  · simp [bytes_runTrace, HttpCtx.applyRun]

/-- A handler goes on with the exchange, or throws while `keep_alive` is off. -/
theorem Going.handlerRun (hs : s.Going) (hp : s.processEnd = true) {r : HandlerRun κ}
    (hanswer : r.threw = false →
      r.responseEnd = true ∨ (r.writeEnd.or s.writeEndCallback).isSome = true)
    (hthrew : r.threw = true → s.keepAlive = false) :
    (s.handlerRun r).Live ∨ (s.handlerRun r).Doomed := by
  have hgoing := hs.applyRun hp r
  rw [HttpCtx.handlerRun]
  split_ifs with ht
  · exact .inr (hgoing.fail (hthrew ht) .handler)
  · refine .inl ⟨hgoing, fun _ => ?_⟩
    rcases hanswer (by simpa using ht) with h | h
    · exact .inl (by simp [HttpCtx.applyRun, h])
    · exact .inr h

/-! ### Processing -/

theorem Going.processConnection (hs : s.Going) (hr : s.msg.recvEnd = true) :
    ({ s with processEnd := true }.processConnection).Going := by
  have htrace : ({ s with processEnd := true }.processConnection).trace =
      s.trace ++ [.process s.msg.request] := rfl
  exact hs.extend htrace (by simp [plain]) hs.attached hs.isClose hs.everythingEnd .inl
    (fun _ => hr) (fun h => ⟨.inl h, rfl⟩)
    (by simp [sentOut, appended, HttpCtx.processConnection, log])

theorem Going.setKeepAlive (hs : s.Going) (k : Bool) : Going { s with keepAlive := k } :=
  { hs with }

theorem processPhase_eq (he : s.everythingEnd = false) :
    s.processPhase app ev =
      if s.msg.recvEnd && !s.processEnd then
        ({ s with processEnd := true }.processConnection).runProcessCallback app ev.os
      else s := by
  simp [processPhase, he, processConnection, log]

/-- Processing goes on with the exchange, or throws while `keep_alive` is off. -/
theorem Live.processPhase (hs : s.Live)
    (hearly : s.due = true → (app.processCallback s.msg.request ev.os).isNone → s.keepAlive = false)
    (hlate : s.due = true → (app.processCallback s.msg.request ev.os).any (·.threw) →
      headerExistKeepLive s.msg.headers = false) :
    (s.processPhase app ev).Live ∨ (s.processPhase app ev).Doomed := by
  rw [processPhase_eq hs.everythingEnd]
  split_ifs with hnow
  · have hdue : s.due = true := by rwa [due, hs.everythingEnd, Bool.not_false, Bool.true_and]
    have hgoing := hs.toGoing.processConnection (And.left (by simpa using hnow))
    have hmsg : ({ s with processEnd := true }.processConnection).msg = s.msg := rfl
    rw [runProcessCallback, hmsg]
    cases hrun : app.processCallback s.msg.request ev.os with
    | none => exact .inr (hgoing.fail (hearly hdue (by simp [hrun])) .handler)
    | some r =>
      refine (hgoing.setKeepAlive _).handlerRun rfl (fun ht => ?_) fun ht =>
        hlate hdue (by simp [hrun, ht])
      refine (r.answers ht).imp_right fun h => ?_
      simp [Option.isSome_or, h]
  · exact .inl hs

/-! ### Writing -/

theorem Live.sentBytes (hs : s.Live) (n : Nat) : (s.sentBytes n).Live := by
  have htrace : (s.sentBytes n).trace = s.trace ++ [.sent (s.conn.sendBuffer.take n)] := rfl
  exact ⟨hs.toGoing.extend htrace (by simp [plain]) hs.attached hs.isClose hs.everythingEnd .inl
    hs.processed (fun h => ⟨.inl h, (hs.finished h).2⟩)
    (by simp [sentOut, appended, HttpCtx.sentBytes, log]), hs.answering⟩

/-- Sending goes on with the exchange, or fails while `keep_alive` is off and with bytes left. -/
theorem Live.sendLoop {rs : List SendResult} (hs : s.Live)
    (hfail : sendFails rs s.conn.sendBuffer.length = true → s.keepAlive = false) :
    (s.sendLoop rs).Live ∨ (s.sendLoop rs).Doomed ∧ (s.sendLoop rs).conn.sendBuffer ≠ [] := by
  induction rs generalizing s with
  | nil => exact .inl hs
  | cons r rs ih =>
    rw [HttpCtx.sendLoop.eq_def]
    dsimp only
    split_ifs with hbuf
    · exact .inl hs
    · have hlen : (s.conn.sendBuffer.length != 0) = true := by simpa using hbuf
      simp only [sendFails.eq_def (_ :: _), hlen, Bool.true_and] at hfail
      cases r with
      | sent n =>
        refine ih (hs.sentBytes n) fun h => hfail ?_
        rwa [HttpCtx.sentBytes, log, List.length_drop] at h
      | again => exact .inl hs
      | intr => exact ih hs hfail
      | zero => exact .inr ⟨hs.fail (hfail rfl) .send, hbuf⟩
      | failed =>
        have hd := hs.fail (hfail rfl) .send
        exact .inr ⟨{ hd with everythingEnd := rfl }, hbuf⟩

theorem Live.settle (hs : s.Live) : s.settle.Live ∨ s.settle.Ended := by
  rw [HttpCtx.settle]
  split_ifs with hdone
  · exact .inr (hs.ended hdone.1 hdone.2)
  · exact .inl hs

theorem Doomed.settle (hs : s.Doomed) : s.settle.Doomed := by
  rw [HttpCtx.settle]
  split_ifs
  · exact { hs with everythingEnd := rfl }
  · exact hs

theorem Live.writeEnd (hs : s.Live) (hp : s.processEnd = true) (hend : s.responseEnd = false)
    {os : ω} (hfail : ∀ k ∈ s.writeEndCallback, (app.writeEndCallback k os).threw = true →
      s.keepAlive = false) :
    (s.writeEnd app os).Live ∨ (s.writeEnd app os).Ended ∨ (s.writeEnd app os).Doomed := by
  have hk := (hs.answering hp).resolve_left (by simp [hend])
  obtain ⟨k, hk⟩ := Option.isSome_iff_exists.mp hk
  have hrun := hs.toGoing.handlerRun hp (r := app.writeEndCallback k os)
    (fun _ => .inr (by simp [hk])) (hfail k hk)
  rw [HttpCtx.writeEnd, hk]
  rcases hrun with hlive | hdoomed
  · exact hlive.settle.imp_right .inl
  · exact .inr (.inr hdoomed.settle)

/-- Writing goes on with the exchange, ends it, or fails while `keep_alive` is off. -/
theorem Live.writePhase (hs : s.Live) (hfail : s.writeFails app ev = true → s.keepAlive = false) :
    (s.writePhase app ev).Live ∨ (s.writePhase app ev).Ended ∨ (s.writePhase app ev).Doomed := by
  rw [writeFails, dueWriteEnd, hs.everythingEnd] at hfail
  rw [HttpCtx.writePhase, hs.everythingEnd]
  by_cases hp : s.processEnd = true
  · simp only [hp, Bool.not_false, Bool.and_self, if_true, Bool.true_and] at hfail ⊢
    obtain ⟨hkeep, hprocess, -⟩ := (sendPhase_writes false ev s).frame
    have hsent : (s.sendPhase ev).Live ∨
        (s.sendPhase ev).Doomed ∧ (s.sendPhase ev).conn.sendBuffer ≠ [] := by
      rw [HttpCtx.sendPhase]
      split_ifs with hwrite
      · exact hs.sendLoop fun h => hfail (by simp [hwrite, h])
      · exact .inl hs
    split_ifs at hfail ⊢ with hdrained
    · rcases hsent with hlive | ⟨-, hbuf⟩
      · refine hlive.writeEnd (hprocess.trans hp) hdrained.2 fun k hk ht => hkeep.trans (hfail ?_)
        rw [Option.mem_def.mp hk, Option.any_some, ht, Bool.or_true]
      · exact absurd hdrained.1 hbuf
    · exact hsent.imp_right fun h => .inr h.1
  · rw [if_neg (by simpa using hp)]
    exact .inl hs

/-! ### The end of an exchange -/

theorem onCreate_everythingEnd (k : Bool) (os : ω) (s : HttpCtx P κ) :
    (s.onCreate L app useSsl k os).everythingEnd = false := by
  rw [onCreate]
  split_ifs
  · rw [announce]
    split_ifs <;> rfl
  · rfl

/-- What the application does not refuse is as live as before. -/
theorem Live.announce (hs : s.Live) (k : Bool) (os : ω) :
    (app.onNewConnection k os = false → (s.announce app k os).Live) ∧
      (app.onNewConnection k os = true → (s.announce app k os).Done) := by
  constructor
  · intro h
    rw [HttpCtx.announce, if_neg (by simp [h])]
    exact { hs with }
  · intro h
    rw [HttpCtx.announce, if_pos h]
    exact ⟨.inl rfl, hs.reuse.snoc (by simp), hs.unfailed.stopOk.snoc rfl⟩

/-- A context that is created is ready for an exchange, or was refused by the application. -/
theorem onCreate_live (k : Bool) (os : ω) (hclose : s.conn.isClose = false)
    (hbuf : s.conn.sendBuffer = []) (hunfailed : Unfailed s.trace)
    (hreuse : ReuseOk (s.trace ++ [.create k])) :
    (s.onCreate L app useSsl k os).Live ∨ (s.onCreate L app useSsl k os).Done := by
  have hex : exchange (s.trace ++ [.create k]) = [] := by simp [exchange_snoc, isCreate]
  have hlive : ((s.reset L k).log (.create k)).Live := by
    refine ⟨⟨rfl, hclose, rfl, hreuse, hunfailed.append (by simp [Unfailed]), nofun, nofun, nofun,
      ?_⟩, nofun⟩
    show sentOut (exchange (s.trace ++ [.create k])) ++ s.conn.sendBuffer =
      appended (exchange (s.trace ++ [.create k]))
    rw [hex, hbuf]
    rfl
  rw [onCreate]
  split_ifs
  · cases h : app.onNewConnection k os with
    | false => exact .inl ((hlive.announce k os).1 h)
    | true => exact .inr ((hlive.announce k os).2 h)
  · exact .inl hlive

theorem Ended.keepAliveStep (hs : s.Ended) (os : ω) :
    (s.keepAliveStep L app useSsl os).closeStep.Live ∨
      (s.keepAliveStep L app useSsl os).closeStep.Done := by
  rw [HttpCtx.keepAliveStep, if_pos hs.everythingEnd, closeStep]
  by_cases hk : s.keepAlive = true
  · have hfresh : (s.destory.reuse L app useSsl os).everythingEnd = false :=
      onCreate_everythingEnd true os _
    rw [if_pos hk, if_neg (by simp [hfresh])]
    exact onCreate_live true os rfl rfl hs.unfailed (hs.reuse.snoc fun _ => hs.complete)
  · have hend : s.destory.everythingEnd = true := hs.everythingEnd
    rw [if_neg hk, if_pos hend]
    exact .inr ⟨.inl rfl, hs.reuse, hs.unfailed.stopOk⟩

theorem Ended.endPhase (hs : s.Ended) :
    (s.endPhase L app useSsl ev).Live ∨ (s.endPhase L app useSsl ev).Done := by
  have hsettle : s.settle = s := by
    rw [HttpCtx.settle]
    split_ifs
    · rw [← hs.everythingEnd]
    · rfl
  rw [HttpCtx.endPhase, hsettle]
  exact hs.keepAliveStep ev.os

theorem Doomed.endPhase (hs : s.Doomed) : (s.endPhase L app useSsl ev).Done := by
  have hd := hs.settle
  have hend : s.settle.destory.everythingEnd = true := hd.everythingEnd
  rw [HttpCtx.endPhase, HttpCtx.keepAliveStep, if_pos hd.everythingEnd,
    if_neg (by simp [hd.keepAlive]), closeStep, if_pos hend]
  exact ⟨.inl rfl, hd.reuse, hd.stop⟩

theorem Live.endPhase (hs : s.Live) :
    (s.endPhase L app useSsl ev).Live ∨ (s.endPhase L app useSsl ev).Done := by
  rw [HttpCtx.endPhase]
  rcases hs.settle with hlive | hended
  · rw [HttpCtx.keepAliveStep, if_neg (by simp [hlive.everythingEnd]), closeStep,
      if_neg (by simp [hlive.everythingEnd])]
    exact .inl hlive
  · exact hended.keepAliveStep ev.os

/-! ## Events and runs -/

/-- The TLS part of an event goes on with the exchange, or ends the event. -/
theorem Live.sslStep (hs : s.Live) (app : HttpApp κ ω) (useSsl : Bool) (ev : HttpEvent ω) :
    (s.sslStep app useSsl ev).1.Live ∨
      (s.sslStep app useSsl ev).2 = false ∧ (s.sslStep app useSsl ev).1.Done := by
  rw [HttpCtx.sslStep]
  split_ifs
  · cases ev.sslAccept with
    | accepted =>
      have hlive : Live { s with conn := { s.conn with sslAccepted := true } } :=
        { hs with }
      cases h : app.onNewConnection false ev.os with
      | false => exact .inl ((hlive.announce false ev.os).1 h)
      | true => exact .inr ⟨rfl, (hlive.announce false ev.os).2 h⟩
    | pending => exact .inl hs
    | failed => exact .inr ⟨rfl, hs.setIsClose⟩
  · exact .inl hs

/-- After a failure the other phases of the event are skipped. -/
theorem processPhase_of_end (he : s.everythingEnd = true) : s.processPhase app ev = s := by
  simp [HttpCtx.processPhase, he]

theorem writePhase_of_end (he : s.everythingEnd = true) : s.writePhase app ev = s := by
  simp [HttpCtx.writePhase, he]

theorem Live.phases (hs : s.Live) (hev : s.Spared L app ev) :
    (s.phases L app useSsl ev).Live ∨ (s.phases L app useSsl ev).Done := by
  rw [HttpCtx.phases]
  rcases hs.readPhase hev.read with hread | hread
  · rcases hread.processPhase hev.early hev.late with hlive | hdoomed
    · rcases hlive.writePhase hev.write with h | h | h
      · exact h.endPhase
      · exact h.endPhase
      · exact .inr h.endPhase
    · rw [writePhase_of_end hdoomed.everythingEnd]
      exact .inr hdoomed.endPhase
  · rw [processPhase_of_end hread.everythingEnd, writePhase_of_end hread.everythingEnd]
    exact .inr hread.endPhase

theorem closeClientFd_done (hreuse : ReuseOk s.trace) (hstop : StopOk s.trace) :
    s.closeClientFd.Done :=
  ⟨.inr rfl, hreuse.snoc (by simp), hstop.snoc rfl⟩

/-- **The step lemma**: an event keeps an exchange going, turns it into the next one, or closes
the connection. -/
theorem Live.onEvent (hs : s.Live) (hev : s.Entered app useSsl (Spared L app) ev) :
    (s.onEvent L app useSsl ev).Live ∨ (s.onEvent L app useSsl ev).Done := by
  rw [HttpCtx.onEvent, if_neg (by simp [hs.attached])]
  cases herr : ev.err with
  | true => exact .inr (closeClientFd_done hs.reuse hs.unfailed.stopOk)
  | false =>
    have hssl := hs.sslStep app useSsl ev
    simp only [Entered, entering, hs.attached, herr, hs.isClose, Bool.not_false, Bool.true_and,
      Bool.false_eq_true, if_false] at hev ⊢
    revert hssl hev
    rcases s.sslStep app useSsl ev with ⟨t, _ | _⟩
    · rintro (hlive | ⟨-, hdone⟩) -
      · exact .inl hlive
      · exact .inr hdone
    · rintro (hlive | ⟨hfalse, -⟩) hev
      · exact hlive.phases (hev t rfl)
      · cases hfalse

/-- Nothing happens on a connection that is done with, but that it is closed. -/
theorem Done.onEvent (hs : s.Done) : (s.onEvent L app useSsl ev).Done := by
  rw [HttpCtx.onEvent]
  split_ifs with hattached herr
  · exact hs
  · exact closeClientFd_done hs.reuse hs.stop
  · have hclose : s.conn.isClose = true := hs.closing.resolve_right (by simpa using hattached)
    dsimp only
    rw [if_pos hclose]
    exact closeClientFd_done hs.reuse hs.stop

/-- Where a connection can be between events. -/
def Settled (s : HttpCtx P κ) : Prop := s.Live ∨ s.Done

theorem accepted_settled (os : ω) : (accepted L app useSsl os : HttpCtx P κ).Settled := by
  refine onCreate_live false os rfl rfl (by simp [Unfailed]) ?_
  have hnil : ReuseOk [] := fun _ _ h => by simp at h
  exact hnil.snoc (by simp)

theorem Settled.step (hs : s.Settled) (hev : s.Entered app useSsl (Spared L app) ev)
    {s' : HttpCtx P κ} (hstep : s.step L app useSsl ev = some s') : s'.Settled := by
  cases hstep
  rcases hs with hlive | hdone
  · exact hlive.onEvent hev
  · exact .inr hdone.onEvent

/-- **Keep-alive is proper in every run in which no failure strikes while it is on**: a connection
is used for a further request only after a complete exchange; after a failure it is closed and
processes no request. -/
theorem proper_of_spared {os : ω} {evs : List (HttpEvent ω)} {s : HttpCtx P κ}
    (halong : Along (step L app useSsl) (Entered app useSsl (Spared L app))
      (accepted L app useSsl os) evs)
    (hrun : exec (step L app useSsl) (accepted L app useSsl os) evs = some s) : s.Proper := by
  have hsettled : s.Settled :=
    exec_invariant (fun hs hev hstep => Settled.step hs hev hstep) (accepted_settled os) halong hrun
  exact hsettled.elim Live.proper Done.proper

instance decidableEntered {Q : HttpCtx P κ → HttpEvent ω → Prop} [∀ s ev, Decidable (Q s ev)] :
    Decidable (s.Entered app useSsl Q ev) :=
  inferInstanceAs (Decidable (∀ t ∈ s.entering app useSsl ev, Q t ev))

instance decidableSpared : Decidable (s.Spared L app ev) :=
  decidable_of_iff (_ ∧ _ ∧ _ ∧ _)
    ⟨fun h => ⟨h.1, h.2.1, h.2.2.1, h.2.2.2⟩, fun h => ⟨h.read, h.early, h.late, h.write⟩⟩

/-- An application that finds nothing, and says so at once. -/
def notFoundApp : HttpApp Unit Unit where
  onNewConnection _ _ := false
  processCallback _ _ :=
    some { append := ascii "HTTP/1.1 404 Not Found\r\nContent-Length: 0\r\n\r\n", responseEnd := true,
           answers := fun _ => .inl rfl }
  writeEndCallback _ _ := {}

/-- A `GET` of the root, with `Connection: keep-alive` or without. -/
def getRoot (keepAlive : Bool) : Request where
  method := ascii "GET"
  url := ascii "/"
  headers := if keepAlive then [(ascii "Connection", ascii "keep-alive")] else []

/-- An event that reads `bs` and gets `r` from `send`. -/
def exchangeEvent (bs : Bytes) (r : SendResult) : HttpEvent Unit where
  read := true
  write := true
  recvs := [.data bs]
  sends := [r]
  os := ()

theorem proper_of_spared_send_failure :
    let evs := [exchangeEvent (getRoot true).text (.sent 300),
      exchangeEvent (getRoot false).text .failed, exchangeEvent [] .again]
    ∃ s : HttpCtx Reading Unit,
      exec (step requestParser notFoundApp false) (accepted requestParser notFoundApp false ()) evs =
        some s ∧ .create true ∈ s.trace ∧ .failed .send ∈ s.trace ∧ s.Proper := by
  intro evs
  have halong : Along (step requestParser notFoundApp false)
      (Entered notFoundApp false (Spared requestParser notFoundApp))
      (accepted requestParser notFoundApp false ()) evs := by decide +kernel
  refine exists_exec (by decide +kernel) fun s hrun
    (h : .create true ∈ s.trace ∧ .failed .send ∈ s.trace) => ?_
  exact ⟨h.1, h.2, proper_of_spared halong hrun⟩

/-- **A parse error on a connection that is kept alive**: bytes that are no request end the second
exchange, `keep_alive` is still that of the first request, and the connection is used for a third
one. -/
theorem not_proper_after_parse_error :
    let evs := [exchangeEvent (getRoot true).text (.sent 300), exchangeEvent (ascii "get") .again,
      exchangeEvent (getRoot true).text (.sent 300)]
    ∃ s : HttpCtx Reading Unit,
      exec (step requestParser notFoundApp false) (accepted requestParser notFoundApp false ()) evs =
        some s ∧ ¬ s.Proper := by
  intro evs
  refine exists_exec (by decide +kernel) fun s _
    (hs : .failed .parse ∈ s.trace ∧ s.attached = true ∧ s.conn.isClose = false) hproper => ?_
  rcases hproper.closing fun h => h .parse hs.1 with h | h
  · simp [h] at hs
  · simp [h] at hs

end HttpCtx

end Avant.Conn
