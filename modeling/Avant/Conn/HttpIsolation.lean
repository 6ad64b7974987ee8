import Avant.Conn.HttpMessageRead
import Avant.Conn.HttpReuse

/-!
# Requests that share a connection

A client sends requests one behind the other on a connection that is kept alive, and their bytes
reach `recv` in pieces of any length. `on_event` reads until the socket would block, also behind
the end of a request; llhttp goes on with the next one, and its callbacks append to the strings
of the first.

Results:
* **`isolated_of_inTurn`**: in every run in which no read goes beyond the end of the request in
  progress, `process_connection` is called once for each request, in order, with the method, url
  and headers of that request (`Isolated`). The peer may end the stream at any time but in the event
  that completes a request, which is then not processed;
* `not_isolated_when_pipelined`: two requests in one read.
-/

namespace Avant.Conn

open Avant.Lib Avant.Lib.Http Avant.Socket

/-! ## What a trace says about requests -/

/-- A trace, as far as requests go: the number of times the connection was used again, the bytes
read since and altogether, and the requests processed. -/
structure Ledger where
  reuses : Nat := 0
  taken : Bytes := []
  received : Bytes := []
  processed : List HttpRequest := []
  deriving DecidableEq

def Ledger.enter (l : Ledger) : HttpTrace → Ledger
  | .create true => { l with reuses := l.reuses + 1, taken := [] }
  | .create false => { l with taken := [] }
  | .recv bs => { l with taken := l.taken ++ bs, received := l.received ++ bs }
  | .process r => { l with processed := l.processed ++ [r] }
  | _ => l

theorem foldl_enter_recv (ds : List Bytes) (l : Ledger) :
    (ds.map HttpTrace.recv).foldl Ledger.enter l =
      { l with taken := l.taken ++ ds.flatten, received := l.received ++ ds.flatten } := by
  induction ds generalizing l with
  | nil => simp
  | cons d ds ih => simp [ih, Ledger.enter]

/-- A request on the wire: a text that the parser reads as a request within the limits. -/
structure WireRequest {P : Type} (L : Parser P) where
  text : Bytes
  request : Request
  reads : L.Reads text request.document
  limits : HttpMessage.Limits request

namespace WireRequest

variable {P : Type} {L : Parser P}

/-- What the handler is to see. -/
def view (w : WireRequest L) : HttpRequest := HttpMessage.view w.request

theorem text_ne_nil (w : WireRequest L) : w.text ≠ [] := by
  intro h
  have := w.reads.whole [] h.symm
  simp [Parser.made, Request.document, Request.startDocument] at this

end WireRequest

/-- **Each request is processed once, in order, and as it was sent**: the bytes read are those of
the first requests and a proper part of the next, and `process_connection` was called for exactly
these requests. -/
def Isolated {P : Type} {L : Parser P} (ws : List (WireRequest L)) (l : Ledger) : Prop :=
  ∃ n rest, l.received = (ws.take n).flatMap (·.text) ++ rest ∧
    (∀ w, ws[n]? = some w → rest <+: w.text ∧ rest ≠ w.text) ∧ (ws[n]? = none → rest = []) ∧
    l.processed = (ws.take n).map (·.view)

namespace HttpCtx

variable {P κ ω : Type} {L : Parser P} {app : HttpApp κ ω} {useSsl : Bool}
  {ws : List (WireRequest L)} {s s' : HttpCtx P κ} {ev : HttpEvent ω}

def ledger (s : HttpCtx P κ) : Ledger := s.trace.foldl Ledger.enter {}

/-- What the reads of an event lead to. -/
def reading (L : Parser P) (s : HttpCtx P κ) (ev : HttpEvent ω) : ReadResult P :=
  if !s.msg.recvEnd && !s.everythingEnd && ev.read then s.msg.recvLoop L ev.recvs 0 s.parser
  else { parser := s.parser, msg := s.msg }

/-- **The reads of an event stay within the request in progress**: each fits the buffer, what they
return is a further part of the request in turn, and nothing comes behind the end of the stream. An
event that completes a request does not read the end of the stream, too. -/
structure InTurn (ws : List (WireRequest L)) (s : HttpCtx P κ) (ev : HttpEvent ω) : Prop where
  fits : ∀ bs ∈ (s.reading L ev).taken, bs.length ≤ 10240
  turn : (s.reading L ev).taken = [] ∨ .failed .recv ∉ s.trace ∧ ∃ w,
    ws[s.ledger.reuses]? = some w ∧ s.ledger.taken ++ (s.reading L ev).taken.flatten <+: w.text
  present : (s.reading L ev).msg.recvEnd = true → (s.reading L ev).failure = none

/-! ## The states of a connection -/

/-- What two states have in common when nothing was read and no request was begun. -/
structure Same (s s' : HttpCtx P κ) : Prop where
  ledger : s'.ledger = s.ledger
  msg : s'.msg = s.msg
  parser : s'.parser = s.parser
  processEnd : s'.processEnd = s.processEnd
  attached : s'.attached = s.attached
  isClose : s'.conn.isClose = s.conn.isClose

/-- The connection is up, and its requests up to the one in progress were processed. -/
structure Upright (ws : List (WireRequest L)) (s : HttpCtx P κ) : Prop where
  attached : s.attached = true
  isClose : s.conn.isClose = false
  received : s.ledger.received = (ws.take s.ledger.reuses).flatMap (·.text) ++ s.ledger.taken

/-- A request is being read, or none has come yet. -/
structure Waiting (ws : List (WireRequest L)) (s : HttpCtx P κ) : Prop extends s.Upright ws where
  processed : s.ledger.processed = (ws.take s.ledger.reuses).map (·.view)
  recvEnd : s.msg.recvEnd = false
  processEnd : s.processEnd = false
  responseEnd : s.responseEnd = false
  everythingEnd : s.everythingEnd = false
  parsed : ∃ cs, cs.flatten = s.ledger.taken ∧ s.parser = L.feed L.init cs ∧
    s.msg = ({} : HttpMessage).tokens (L.made L.init cs)
  part : ∀ w, ws[s.ledger.reuses]? = some w → s.ledger.taken <+: w.text
  exhausted : ws[s.ledger.reuses]? = none → s.ledger.taken = []

/-- A request was read and not yet processed. -/
structure Complete (ws : List (WireRequest L)) (s : HttpCtx P κ) : Prop extends s.Upright ws where
  processed : s.ledger.processed = (ws.take s.ledger.reuses).map (·.view)
  processEnd : s.processEnd = false
  everythingEnd : s.everythingEnd = false
  whole : ∃ w, ws[s.ledger.reuses]? = some w ∧ s.ledger.taken = w.text ∧
    s.msg = ({} : HttpMessage).tokens w.request.document

/-- A request was processed, and its response is on its way. -/
structure Answering (ws : List (WireRequest L)) (s : HttpCtx P κ) : Prop extends s.Upright ws where
  processed : s.ledger.processed = (ws.take (s.ledger.reuses + 1)).map (·.view)
  recvEnd : s.msg.recvEnd = true
  processEnd : s.processEnd = true
  whole : ∃ w, ws[s.ledger.reuses]? = some w ∧ s.ledger.taken = w.text

/-- The stream ended before the request in progress did: nothing more is read. -/
structure Lost (ws : List (WireRequest L)) (s : HttpCtx P κ) : Prop where
  isolated : Isolated ws s.ledger
  ended : .failed .recv ∈ s.trace
  recvEnd : s.msg.recvEnd = false
  processEnd : s.processEnd = false
  responseEnd : s.responseEnd = false

theorem Complete.recvEnd (hs : s.Complete ws) : s.msg.recvEnd = true := by
  obtain ⟨w, -, -, hmsg⟩ := hs.whole
  rw [hmsg, HttpMessage.message_document]

theorem take_succ_of_getElem? {w : WireRequest L} {n : Nat} (hw : ws[n]? = some w) :
    ws.take (n + 1) = ws.take n ++ [w] := by
  rw [List.take_add_one, hw]
  rfl

theorem Waiting.isolated (hs : s.Waiting ws) : Isolated ws s.ledger := by
  refine ⟨_, _, hs.received, fun w hw => ⟨hs.part w hw, fun htext => ?_⟩, hs.exhausted, hs.processed⟩
  -- a request that was read to its end would have set recv_end
  obtain ⟨cs, hcs, -, hmsg⟩ := hs.parsed
  have hend := hs.recvEnd
  rw [hmsg, w.reads.whole cs (hcs.trans htext), HttpMessage.message_document] at hend
  cases hend

theorem Answering.isolated (hs : s.Answering ws) : Isolated ws s.ledger := by
  obtain ⟨w, hw, htaken⟩ := hs.whole
  refine ⟨s.ledger.reuses + 1, [], ?_, fun w' _ => ⟨List.nil_prefix, w'.text_ne_nil.symm⟩,
    fun _ => rfl, hs.processed⟩
  rw [hs.received, htaken, take_succ_of_getElem? hw]
  simp

@[simp] theorem ledger_log (e : HttpTrace) (s : HttpCtx P κ) :
    (s.log e).ledger = s.ledger.enter e := by
  simp [ledger, log]

/-! ### Phases that read nothing -/

namespace Same

theorem refl (s : HttpCtx P κ) : Same s s := ⟨rfl, rfl, rfl, rfl, rfl, rfl⟩

theorem trans {s'' : HttpCtx P κ} (h : Same s s') (h' : Same s' s'') : Same s s'' :=
  ⟨h'.ledger.trans h.ledger, h'.msg.trans h.msg, h'.parser.trans h.parser,
    h'.processEnd.trans h.processEnd, h'.attached.trans h.attached, h'.isClose.trans h.isClose⟩

/-- Writing reads nothing and begins no request. -/
theorem writes (h : Writes true s s') : Same s s' := by
  induction h with
  | refl => exact refl s
  | sent _ _ ih | fail _ _ ih => exact ih.trans ⟨ledger_log _ _, rfl, rfl, rfl, rfl, rfl⟩
  | finish _ ih | ended _ ih => exact ih.trans ⟨rfl, rfl, rfl, rfl, rfl, rfl⟩
  | @run t _ _ r ih =>
    refine ih.trans (?_ : Same t (t.applyRun r))
    refine ⟨?_, rfl, rfl, rfl, rfl, rfl⟩
    rw [applyRun, HttpCtx.ledger, HttpCtx.ledger, List.foldl_append, HandlerRun.trace]
    split_ifs <;> rfl

end Same

theorem Upright.same (hs : s.Upright ws) (h : Same s s') : s'.Upright ws :=
  ⟨h.attached.trans hs.attached, h.isClose.trans hs.isClose, by rw [h.ledger]; exact hs.received⟩

theorem Answering.same (hs : s.Answering ws) (h : Same s s') : s'.Answering ws :=
  ⟨hs.toUpright.same h, by rw [h.ledger]; exact hs.processed, by rw [h.msg]; exact hs.recvEnd,
    h.processEnd.trans hs.processEnd, by rw [h.ledger]; exact hs.whole⟩

/-! ### Reading and processing -/

/-- What the read loop leaves in the context, a failure apart. -/
def took (r : ReadResult P) (s : HttpCtx P κ) : HttpCtx P κ :=
  { s with parser := r.parser, msg := r.msg, trace := s.trace ++ r.trace }

theorem ledger_took (r : ReadResult P) (s : HttpCtx P κ) :
    (s.took r).ledger =
      { s.ledger with
        taken := s.ledger.taken ++ r.taken.flatten
        received := s.ledger.received ++ r.taken.flatten } := by
  show (s.trace ++ r.trace).foldl Ledger.enter {} = _
  rw [List.foldl_append, ReadResult.trace, List.foldl_append, foldl_enter_recv]
  split_ifs <;> rfl

/-- Pieces of the request in turn were taken. -/
theorem Waiting.took (hs : s.Waiting ws) {w : WireRequest L}
    (hw : ws[s.ledger.reuses]? = some w) {cs : List Bytes} (hcs : cs.flatten = s.ledger.taken)
    {r : ReadResult P} (hpre : (cs ++ r.taken).flatten <+: w.text)
    (hparser : r.parser = L.feed L.init (cs ++ r.taken))
    (hmsg : r.msg = ({} : HttpMessage).tokens (L.made L.init (cs ++ r.taken))) :
    (s.took r).Waiting ws ∨ (s.took r).Complete ws := by
  have hledger := ledger_took r s
  have hreuses : (s.took r).ledger.reuses = s.ledger.reuses := by rw [hledger]
  have htaken : (s.took r).ledger.taken = (cs ++ r.taken).flatten := by
    rw [hledger, List.flatten_append, hcs]
  have hprocessed : (s.took r).ledger.processed =
      (ws.take (s.took r).ledger.reuses).map (·.view) := by
    rw [hledger]
    exact hs.processed
  have hup : (s.took r).Upright ws := by
    refine ⟨hs.attached, hs.isClose, ?_⟩
    rw [hledger, ← List.append_assoc, ← hs.received]
  cases hend : r.msg.recvEnd with
  | false =>
    refine .inl ⟨hup, hprocessed, hend, hs.processEnd, hs.responseEnd, hs.everythingEnd,
      ⟨cs ++ r.taken, htaken.symm, hparser, hmsg⟩, ?_, ?_⟩
    · intro w' hw'
      rw [hreuses, hw] at hw'
      cases hw'
      rw [htaken]
      exact hpre
    · intro hnone
      rw [hreuses, hw] at hnone
      cases hnone
  | true =>
    -- the message is complete, so the pieces are the whole text
    have hcomplete : .mark .messageComplete ∈ L.made L.init (cs ++ r.taken) := by
      rw [hmsg, HttpMessage.recvEnd_tokens] at hend
      exact hend.resolve_left (by decide)
    have htext := w.reads.complete _ hpre hcomplete
    refine .inr ⟨hup, hprocessed, hs.processEnd, hs.everythingEnd, w, hreuses ▸ hw,
      htaken.trans htext, ?_⟩
    rw [← w.reads.whole _ htext]
    exact hmsg

theorem took_nothing (h : s.msg.recvEnd = false) (f : Option Failure) :
    s.took { parser := s.parser, msg := s.msg, failure := f } = s := by
  simp [took, ReadResult.trace, h]

theorem readPhase_reading (h : s.msg.recvEnd = false) :
    s.readPhase L ev =
      (s.reading L ev).failure.elim (s.took (s.reading L ev)) fun f =>
        (s.took (s.reading L ev)).fail f := by
  rw [HttpCtx.readPhase, reading]
  split_ifs
  · rw [applyRead]
    cases (s.msg.recvLoop L ev.recvs 0 s.parser).failure <;> rfl
  · exact (took_nothing h none).symm

/-- Reads that take nothing find nothing to read, or the end of the stream. -/
theorem reading_of_taken_nil (htaken : (s.reading L ev).taken = []) :
    ∃ f, (f = none ∨ f = some .recv) ∧
      s.reading L ev = { parser := s.parser, msg := s.msg, failure := f } := by
  rw [reading] at htaken ⊢
  split_ifs at htaken ⊢
  · exact HttpMessage.recvLoop_of_taken_nil htaken
  · exact ⟨none, .inl rfl, rfl⟩

/-- What was read is a part of the request in turn, or all of it; or there was nothing to read. -/
theorem Waiting.reading (hs : s.Waiting ws) (hev : s.InTurn ws ev) :
    ((s.took (s.reading L ev)).Waiting ws ∨ (s.took (s.reading L ev)).Complete ws) ∧
      ((s.reading L ev).failure = none ∨ (s.reading L ev).failure = some .recv) := by
  by_cases hnone : (s.reading L ev).taken = []
  · obtain ⟨f, hf, hr⟩ := reading_of_taken_nil hnone
    rw [hr, took_nothing hs.recvEnd]
    exact ⟨.inl hs, hf⟩
  · obtain ⟨-, w, hw, hpre⟩ := hev.turn.resolve_left hnone
    obtain ⟨cs, hcs, hparser, hmsg⟩ := hs.parsed
    have hr : s.reading L ev = s.msg.recvLoop L ev.recvs 0 s.parser := by
      rw [HttpCtx.reading] at hnone ⊢
      exact if_pos (by by_contra h; simp [h] at hnone)
    rw [← hcs, ← List.flatten_append] at hpre
    rw [hparser, hmsg] at hr
    obtain ⟨f, hf, hloop⟩ :=
      HttpMessage.recvLoop_reads w.reads w.limits (congrArg _ hr.symm) hev.fits hpre
    rw [hloop] at hr
    rw [hr]
    exact ⟨hs.took hw hcs (by rw [hr] at hpre; exact hpre) (by rw [hr]) (by rw [hr]), hf⟩

/-- Reading stays within the request, comes to its end, or to that of the stream. -/
theorem Waiting.readPhase (hs : s.Waiting ws) (hev : s.InTurn ws ev) :
    (s.readPhase L ev).Waiting ws ∨ (s.readPhase L ev).Complete ws ∨
      (s.readPhase L ev).Lost ws := by
  obtain ⟨ht, hf⟩ := hs.reading hev
  rw [readPhase_reading hs.recvEnd]
  rcases hf with hf | hf
  · rw [hf]
    exact ht.imp_right .inl
  · have hend : (s.reading L ev).msg.recvEnd = false := by
      by_contra h
      rw [hev.present (by simpa using h)] at hf
      cases hf
    have hwaiting := ht.resolve_right fun hcomplete => by
      have h : (s.reading L ev).msg.recvEnd = true := hcomplete.recvEnd
      rw [hend] at h
      cases h
    rw [hf]
    refine .inr (.inr ⟨?_, List.mem_append_right _ List.mem_cons_self, hend, hs.processEnd,
      hs.responseEnd⟩)
    exact (ledger_log _ _).symm ▸ hwaiting.isolated

/-- A request that was read is processed in the same event, as it was sent. -/
theorem Complete.processPhase (hs : s.Complete ws) : (s.processPhase app ev).Answering ws := by
  obtain ⟨w, hw, htaken, hmsg⟩ := hs.whole
  have hend := hs.recvEnd
  have hview : s.msg.request = w.view := by
    rw [hmsg]
    exact HttpMessage.request_document w.request
  have hledger : ({ s with processEnd := true }.processConnection).ledger =
      { s.ledger with processed := s.ledger.processed ++ [w.view] } := by
    rw [← hview]
    exact ledger_log _ _
  have hanswering : ({ s with processEnd := true }.processConnection).Answering ws := by
    refine ⟨⟨hs.attached, hs.isClose, by rw [hledger]; exact hs.received⟩, ?_, hend, rfl, w,
      by rw [hledger]; exact hw, by rw [hledger]; exact htaken⟩
    rw [hledger, take_succ_of_getElem? hw, hs.processed]
    simp
  rw [processPhase_eq hs.everythingEnd, if_pos (by simp [hend, hs.processEnd]), runProcessCallback]
  split
  · exact hanswering.same (.writes (Writes.refl.fail _))
  · refine hanswering.same (Same.trans ?_ (.writes (Writes.refl.handlerRun _)))
    exact ⟨rfl, rfl, rfl, rfl, rfl, rfl⟩

/-! ### The end of an exchange -/

/-- The connection is over, or its stream, and what was processed on it is in order. -/
def Over (ws : List (WireRequest L)) (s : HttpCtx P κ) : Prop :=
  (s.Closing ∨ s.Lost ws) ∧ Isolated ws s.ledger

theorem Lost.over (hs : s.Lost ws) : s.Over ws := ⟨.inr hs, hs.isolated⟩

theorem Lost.same (hs : s.Lost ws) (h : Same s s') (hresponse : s'.responseEnd = s.responseEnd)
    (htrace : s'.trace = s.trace) : s'.Lost ws :=
  ⟨h.ledger.symm ▸ hs.isolated, htrace.symm ▸ hs.ended, h.msg.symm ▸ hs.recvEnd,
    h.processEnd.trans hs.processEnd, hresponse.trans hs.responseEnd⟩

theorem Waiting.same (hs : s.Waiting ws) (h : Same s s') (hresponse : s'.responseEnd = false)
    (hend : s'.everythingEnd = false) : s'.Waiting ws := by
  refine ⟨hs.toUpright.same h, ?_, h.msg ▸ hs.recvEnd, h.processEnd.trans hs.processEnd, hresponse,
    hend, ?_, ?_, ?_⟩
  · rw [h.ledger]; exact hs.processed
  · rw [h.ledger, h.parser, h.msg]; exact hs.parsed
  · rw [h.ledger]; exact hs.part
  · rw [h.ledger]; exact hs.exhausted

theorem Waiting.announce (hs : s.Waiting ws) (k : Bool) (os : ω) :
    (app.onNewConnection k os = false → (s.announce app k os).Waiting ws) ∧
      (app.onNewConnection k os = true → (s.announce app k os).Over ws) := by
  constructor
  · intro h
    rw [HttpCtx.announce, if_neg (by simp [h])]
    exact hs.same ⟨rfl, rfl, rfl, rfl, rfl, rfl⟩ hs.responseEnd hs.everythingEnd
  · intro h
    rw [HttpCtx.announce, if_pos h]
    refine ⟨.inl (.inl rfl), ?_⟩
    rw [ledger_log]
    exact hs.isolated

/-- A context that is created waits for the next request. -/
theorem onCreate_waiting (k : Bool) (os : ω) (hclose : s.conn.isClose = false)
    (hreceived : s.ledger.received =
      (ws.take (s.ledger.enter (.create k)).reuses).flatMap (·.text))
    (hprocessed : s.ledger.processed =
      (ws.take (s.ledger.enter (.create k)).reuses).map (·.view)) :
    (s.onCreate L app useSsl k os).Waiting ws ∨ (s.onCreate L app useSsl k os).Over ws := by
  have hledger : ((s.reset L k).log (.create k)).ledger =
      { s.ledger with reuses := (s.ledger.enter (.create k)).reuses, taken := [] } := by
    rw [ledger_log]
    cases k <;> rfl
  have hwaiting : ((s.reset L k).log (.create k)).Waiting ws := by
    refine ⟨⟨rfl, hclose, ?_⟩, ?_, rfl, rfl, rfl, rfl, ⟨[], ?_, rfl, rfl⟩, ?_, ?_⟩
    · rw [hledger, List.append_nil]; exact hreceived
    · rw [hledger]; exact hprocessed
    · rw [hledger]; rfl
    · rw [hledger]; exact fun w _ => List.nil_prefix
    · rw [hledger]; exact fun _ => rfl
  rw [onCreate]
  split_ifs
  · cases h : app.onNewConnection k os with
    | false => exact .inl ((hwaiting.announce k os).1 h)
    | true => exact .inr ((hwaiting.announce k os).2 h)
  · exact .inl hwaiting

theorem Waiting.rest (hs : s.Waiting ws) :
    ((s.processPhase app ev).writePhase app ev).endPhase L app useSsl ev = s := by
  have hprocess : s.processPhase app ev = s := by simp [HttpCtx.processPhase, hs.recvEnd]
  have hwrite : s.writePhase app ev = s := by simp [HttpCtx.writePhase, hs.processEnd]
  have hsettle : s.settle = s := by simp [HttpCtx.settle, hs.responseEnd]
  rw [hprocess, hwrite, HttpCtx.endPhase, hsettle]
  simp [HttpCtx.keepAliveStep, closeStep, hs.everythingEnd]

theorem Lost.readPhase (hs : s.Lost ws) (hev : s.InTurn ws ev) : (s.readPhase L ev).Lost ws := by
  have hnone := hev.turn.resolve_right fun h => h.1 hs.ended
  obtain ⟨f, hf, hr⟩ := reading_of_taken_nil hnone
  rw [readPhase_reading hs.recvEnd, hr, took_nothing hs.recvEnd]
  rcases hf with rfl | rfl
  · exact hs
  · refine { hs with isolated := ?_, ended := List.mem_append_left _ hs.ended }
    exact (ledger_log _ _).symm ▸ hs.isolated

/-- Whatever becomes of the connection, it has nothing to process. -/
theorem Lost.rest (hs : s.Lost ws) :
    (((s.processPhase app ev).writePhase app ev).endPhase L app useSsl ev).Lost ws := by
  have hprocess : s.processPhase app ev = s := by simp [HttpCtx.processPhase, hs.recvEnd]
  have hwrite : s.writePhase app ev = s := by simp [HttpCtx.writePhase, hs.processEnd]
  have hsettle : s.settle = s := by simp [HttpCtx.settle, hs.responseEnd]
  have hstep : (s.keepAliveStep L app useSsl ev.os).Lost ws := by
    rw [HttpCtx.keepAliveStep]
    split_ifs
    · have hreset : ((s.destory.reset L true).log (.create true)).Lost ws := by
        refine ⟨?_, List.mem_append_left _ hs.ended, rfl, rfl, rfl⟩
        exact (ledger_log _ _).symm ▸ hs.isolated
      rw [HttpCtx.reuse, onCreate, if_pos (by simp), HttpCtx.announce]
      split_ifs
      · refine ⟨?_, List.mem_append_left _ hreset.ended, rfl, rfl, rfl⟩
        exact (ledger_log _ _).symm ▸ hreset.isolated
      · exact ⟨hreset.isolated, hreset.ended, rfl, rfl, rfl⟩
    · exact { hs with }
    · exact hs
  rw [hprocess, hwrite, HttpCtx.endPhase, hsettle, closeStep]
  split_ifs
  · exact { hstep with }
  · exact hstep

theorem Answering.endPhase (hs : s.Answering ws) :
    (s.endPhase L app useSsl ev).Waiting ws ∨ (s.endPhase L app useSsl ev).Answering ws ∨
      (s.endPhase L app useSsl ev).Over ws := by
  have ht := hs.same (.writes Writes.refl.settle)
  rw [HttpCtx.endPhase]
  generalize s.settle = t at ht
  rw [HttpCtx.keepAliveStep]
  by_cases hend : t.everythingEnd = true
  · rw [if_pos hend]
    by_cases hkeep : t.keepAlive = true
    · have hfresh : (t.destory.reuse L app useSsl ev.os).everythingEnd = false :=
        onCreate_everythingEnd true ev.os _
      have hreceived : t.ledger.received = (ws.take (t.ledger.reuses + 1)).flatMap (·.text) := by
        obtain ⟨w, hw, htaken⟩ := ht.whole
        rw [ht.received, htaken, take_succ_of_getElem? hw]
        simp
      have hnext : (t.destory.reuse L app useSsl ev.os).Waiting ws ∨
          (t.destory.reuse L app useSsl ev.os).Over ws := by
        refine onCreate_waiting true ev.os rfl ?_ ?_
        · exact hreceived
        · exact ht.processed
      rw [if_pos hkeep, closeStep, if_neg (by simp [hfresh])]
      exact hnext.imp_right .inr
    · have hend' : t.destory.everythingEnd = true := hend
      rw [if_neg hkeep, closeStep, if_pos hend']
      exact .inr (.inr ⟨.inl (.inl rfl), ht.isolated⟩)
  · rw [if_neg hend, closeStep, if_neg hend]
    exact .inr (.inl ht)

/-! ## Events and runs -/

theorem Waiting.phases (hs : s.Waiting ws) (hev : s.InTurn ws ev) :
    (s.phases L app useSsl ev).Waiting ws ∨ (s.phases L app useSsl ev).Answering ws ∨
      (s.phases L app useSsl ev).Over ws := by
  rw [HttpCtx.phases]
  rcases hs.readPhase hev with hwaiting | hcomplete | hlost
  · rw [hwaiting.rest]
    exact .inl hwaiting
  · exact (hcomplete.processPhase.same (.writes (writePhase_writes ev _))).endPhase
  · exact .inr (.inr hlost.rest.over)

theorem Answering.phases (hs : s.Answering ws) :
    (s.phases L app useSsl ev).Waiting ws ∨ (s.phases L app useSsl ev).Answering ws ∨
      (s.phases L app useSsl ev).Over ws := by
  have hread : s.readPhase L ev = s := by simp [HttpCtx.readPhase, hs.recvEnd]
  have hprocess : s.processPhase app ev = s := by simp [HttpCtx.processPhase, hs.processEnd]
  rw [HttpCtx.phases, hread, hprocess]
  exact (hs.same (.writes (writePhase_writes ev s))).endPhase

/-- Where a connection can be between events. -/
def InOrder (ws : List (WireRequest L)) (s : HttpCtx P κ) : Prop :=
  s.Waiting ws ∨ s.Answering ws ∨ s.Over ws

theorem InOrder.isolated (hs : s.InOrder ws) : Isolated ws s.ledger := by
  rcases hs with hwaiting | hanswering | hover
  · exact hwaiting.isolated
  · exact hanswering.isolated
  · exact hover.2

theorem accepted_inOrder (ws : List (WireRequest L)) (os : ω) :
    (accepted L app useSsl os : HttpCtx P κ).InOrder ws :=
  (onCreate_waiting false os rfl rfl rfl).imp_right .inr

theorem closeClientFd_over (hs : Isolated ws s.ledger) : s.closeClientFd.Over ws := by
  refine ⟨.inl (.inr rfl), ?_⟩
  rw [closeClientFd, ledger_log]
  exact hs

/-- The TLS part of an event leaves what was read and processed alone, or ends the connection. -/
theorem sslStep_cases (app : HttpApp κ ω) (useSsl : Bool) (ev : HttpEvent ω) (s : HttpCtx P κ) :
    Same s (s.sslStep app useSsl ev).1 ∧
        (s.sslStep app useSsl ev).1.responseEnd = s.responseEnd ∧
        (s.sslStep app useSsl ev).1.everythingEnd = s.everythingEnd ∧
        (s.sslStep app useSsl ev).1.trace = s.trace ∨
      (s.sslStep app useSsl ev).2 = false ∧ (s.sslStep app useSsl ev).1.Closing ∧
        (s.sslStep app useSsl ev).1.ledger = s.ledger := by
  rw [HttpCtx.sslStep]
  split_ifs
  · cases ev.sslAccept with
    | accepted =>
      dsimp only
      rw [HttpCtx.announce]
      cases h : app.onNewConnection false ev.os with
      | false => exact .inl ⟨⟨rfl, rfl, rfl, rfl, rfl, rfl⟩, rfl, rfl, rfl⟩
      | true => exact .inr ⟨rfl, .inl rfl, ledger_log _ _⟩
    | pending => exact .inl ⟨Same.refl s, rfl, rfl, rfl⟩
    | failed => exact .inr ⟨rfl, .inl rfl, rfl⟩
  · exact .inl ⟨Same.refl s, rfl, rfl, rfl⟩

/-- **The step lemma**: an event that reads within the request in turn keeps the connection in
order. -/
theorem InOrder.onEvent (hs : s.InOrder ws) (hev : s.Entered app useSsl (InTurn ws) ev) :
    (s.onEvent L app useSsl ev).InOrder ws := by
  have hisolated := hs.isolated
  rw [HttpCtx.onEvent]
  split_ifs with hattached herr
  · exact hs
  · exact .inr (.inr (closeClientFd_over hisolated))
  · dsimp only
    split_ifs with hclose
    · exact .inr (.inr (closeClientFd_over hisolated))
    · have hup : s.attached = true := by simpa using hattached
      simp only [Entered, entering, hup, herr, hclose, Bool.not_false, Bool.true_and] at hev
      have hssl := sslStep_cases app useSsl ev s
      revert hssl hev
      rcases s.sslStep app useSsl ev with ⟨t, go⟩
      rintro hev (⟨hsame, hresponse, hend, htrace⟩ | ⟨rfl, hclosing, hledger⟩)
      · have hup : t.Waiting ws ∨ t.Answering ws ∨ t.Lost ws := by
          rcases hs with hs | hs | ⟨(hs | hs) | hs, -⟩
          · exact .inl (hs.same hsame (hresponse.trans hs.responseEnd) (hend.trans hs.everythingEnd))
          · exact .inr (.inl (hs.same hsame))
          · exact absurd hs hclose
          · simp [hs] at hattached
          · exact .inr (.inr (hs.same hsame hresponse htrace))
        cases go with
        | false => exact hup.imp_right (Or.imp_right Lost.over)
        | true =>
          rcases hup with hs | hs | hs
          · exact hs.phases (hev t rfl)
          · exact hs.phases
          · exact .inr (.inr (hs.readPhase (hev t rfl)).rest.over)
      · exact .inr (.inr ⟨.inl hclosing, by rw [hledger]; exact hisolated⟩)

theorem InOrder.step (hs : s.InOrder ws) (hev : s.Entered app useSsl (InTurn ws) ev)
    (hstep : s.step L app useSsl ev = some s') : s'.InOrder ws := by
  cases hstep
  exact hs.onEvent hev

/-- **Requests do not get into each other's way in any run in which no read goes beyond the end
of the request in progress**: however the bytes are cut, whatever the handlers do and the sends
answer, `process_connection` was called once for each request that was read, in order, with the
method, url and headers of that request. -/
theorem isolated_of_inTurn {os : ω} {evs : List (HttpEvent ω)}
    (halong : Along (step L app useSsl) (Entered app useSsl (InTurn ws))
      (accepted L app useSsl os) evs)
    (hrun : exec (step L app useSsl) (accepted L app useSsl os) evs = some s) :
    Isolated ws s.ledger := by
  have horder : s.InOrder ws :=
    exec_invariant (fun hs hev hstep => InOrder.step hs hev hstep) (accepted_inOrder ws os) halong
      hrun
  exact horder.isolated

instance decidableInTurn : Decidable (s.InTurn ws ev) :=
  decidable_of_iff
    ((∀ bs ∈ (s.reading L ev).taken, bs.length ≤ 10240) ∧
      ((s.reading L ev).taken = [] ∨ .failed .recv ∉ s.trace ∧
        (ws[s.ledger.reuses]?).any (fun w => decide
          (s.ledger.taken ++ (s.reading L ev).taken.flatten <+: w.text)) = true) ∧
      ((s.reading L ev).msg.recvEnd = true → (s.reading L ev).failure = none))
    (by
      simp only [Option.any_eq_true, decide_eq_true_eq]
      exact ⟨fun h => ⟨h.1, h.2.1, h.2.2⟩, fun h => ⟨h.fits, h.turn, h.present⟩⟩)

/-- A `GET` that asks for the connection to be kept alive. -/
def keepAliveGet (url : Bytes) : Request where
  method := ascii "GET"
  url := url
  headers := [(ascii "Connection", ascii "keep-alive")]

theorem keepAliveGet_wellFormed {url : Bytes} (hurl : ∀ b ∈ url, isVisible b = true) :
    (keepAliveGet url).WellFormed := by
  have hmethod : ∀ b ∈ ascii "GET", isUpper b = true := by decide +kernel
  have hprotocol : ∀ b ∈ ascii "HTTP", isUpper b = true := by decide +kernel
  have hversion : ∀ b ∈ ascii "1.1", isVisible b = true := by decide +kernel
  refine ⟨by simp [keepAliveGet, ascii], hmethod, hurl, hprotocol, hversion, fun h hh => ?_, rfl⟩
  obtain rfl := List.mem_singleton.mp hh
  exact ⟨by decide +kernel, by decide +kernel, by decide +kernel, by decide +kernel⟩

/-- Such a request on the wire. -/
def wireGet (url : Bytes) (hurl : ∀ b ∈ url, isVisible b = true) (hlen : url.length ≤ 10240) :
    WireRequest requestParser where
  text := (keepAliveGet url).text
  request := keepAliveGet url
  reads := Request.reads (keepAliveGet_wellFormed hurl)
  limits := by
    have hheaders : ∀ h ∈ [(ascii "Connection", ascii "keep-alive")],
        h.1.length ≤ 1024 ∧ h.2.length ≤ 20480 := by decide +kernel
    exact ⟨hlen, by simp [keepAliveGet, ascii], by simp [keepAliveGet, ascii],
      by simp [keepAliveGet, ascii], hheaders, by simp [keepAliveGet, maxBodySize]⟩

/-- Two requests on one connection. -/
def twoGets : List (WireRequest requestParser) :=
  [wireGet (ascii "/a") (by decide +kernel) (by decide +kernel),
    wireGet (ascii "/b") (by decide +kernel) (by decide +kernel)]

/-- The texts of the two requests. -/
def textA : Bytes := (keepAliveGet (ascii "/a")).text

def textB : Bytes := (keepAliveGet (ascii "/b")).text

theorem isolated_of_inTurn_two_gets :
    let evs := [exchangeEvent (textA.take 10) .again, exchangeEvent (textA.drop 10) (.sent 300),
      exchangeEvent textB (.sent 300), { exchangeEvent [] .again with recvs := [.closed] }]
    ∃ s : HttpCtx Reading Unit,
      exec (step requestParser notFoundApp false) (accepted requestParser notFoundApp false ()) evs =
        some s ∧ s.ledger.processed = twoGets.map (·.view) ∧ Isolated twoGets s.ledger := by
  intro evs
  have halong : Along (step requestParser notFoundApp false)
      (Entered notFoundApp false (InTurn twoGets)) (accepted requestParser notFoundApp false ()) evs :=
    by decide +kernel
  exact exists_exec (by decide +kernel) fun s hrun h => ⟨h, isolated_of_inTurn halong hrun⟩

/-- **Two requests in one read**: llhttp goes on with the second in the same call, its callbacks
append to the strings of the first, and one request is processed, which nobody sent. -/
theorem not_isolated_when_pipelined :
    ∃ s : HttpCtx Reading Unit,
      exec (step requestParser notFoundApp false) (accepted requestParser notFoundApp false ())
        [exchangeEvent (textA ++ textB) (.sent 300)] = some s ∧ ¬ Isolated twoGets s.ledger := by
  refine exists_exec (by decide +kernel) fun s _
    (hs : s.ledger.received = textA ++ textB ∧ s.ledger.processed.length = 1) => ?_
  rintro ⟨n, rest, hreceived, hpart, -, hprocessed⟩
  -- one request was processed, so the bytes of the second should still be coming
  have hcount : s.ledger.processed.length = min n 2 := by
    rw [hprocessed, List.length_map, List.length_take]
    rfl
  obtain rfl : n = 1 := by omega
  have htext : textA ++ textB = textA ++ rest := hs.1 ▸ hreceived
  exact (hpart (wireGet (ascii "/b") (by decide +kernel) (by decide +kernel)) rfl).2
    (List.append_cancel_left htext).symm

end HttpCtx

end Avant.Conn
