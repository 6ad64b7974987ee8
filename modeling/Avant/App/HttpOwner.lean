import Avant.App.HttpBody
import Avant.Lib.RawPtr

/-!
# Who destroys a response object

An `avant_http_app_reponse` lives behind `ctx.ptr`. `process_callback` allocates it, the
`write_end_callback` works on it, and the `destory_callback` destroys it, at the end of an exchange
or when the connection is closed. `OwnedCtx` runs a connection together with the pointer: each
phase of `on_event` does to the pointer what its callbacks do, and `ctx_onEvent` says that the
connection under it is the one of `HttpCtx.lean`.

The handlers are those of `HttpApp.lean`, where an exception may now leave a handler between any
two of its steps. Besides events, a connection may be closed from outside at any time, as the
worker does with those that time out.

* `released_once`: in every run in which `new DIR_TYPE` does not fail behind a response object,
  every object is destroyed once, and none is used afterwards.

In the branch of a directory the response object is deleted when there is no memory for `DIR_TYPE`,
and `ctx.ptr` is left as it is: `released_twice`.
-/

namespace Avant.App

open Avant.Lib Avant.Conn
open Avant.Lib.Http (Parser)

/-! ## Exceptions -/

/-- Where an exception leaves a handler: the steps with `ctx.ptr` that are behind it, and what it
did to the context by then. -/
structure Cut where
  steps : Nat
  done : HandlerRun WriteEnd := {}

/-- The answer of a handler that an exception leaves. -/
def Answer.cut (a : Answer) : Option Cut → Answer
  | none => a
  | some c => { run := { c.done with threw := true }, ops := a.ops.take c.steps }

/-- What the operating system answers the handlers during one event, and the exceptions that leave
them. -/
structure OwnerOs where
  os : HttpOs
  onNewConnection : Bool := false
  /-- `process_callback` is left while it reads the headers, before `keep_alive` is set -/
  headers : Bool := false
  process : Option Cut := none
  write : Option Cut := none

/-- A run of `process_callback`. -/
def processRun (cfg : HttpConfig) (r : HttpRequest) (w : OwnerOs) : Answer :=
  (processAnswer cfg r w.os).cut w.process

/-- A run of `write_end_callback`. -/
def writeRun (k : WriteEnd) (w : OwnerOs) : Answer := (writeEnd k w.os).cut w.write

theorem complete_processRun (cfg : HttpConfig) (r : HttpRequest) (w : OwnerOs) :
    (processRun cfg r w).Complete := by
  rw [processRun]
  cases w.process with
  | none => exact complete_processAnswer cfg r w.os
  | some c => exact fun h => Bool.noConfusion h

/-- The handlers under a connection, with exceptions. -/
def ownerApp (cfg : HttpConfig) : HttpApp WriteEnd OwnerOs where
  onNewConnection _ w := w.onNewConnection
  processCallback r w :=
    if w.headers then none
    else some { (processRun cfg r w).run with answers := complete_processRun cfg r w }
  writeEndCallback k w := (writeRun k w).run

/-- Without exceptions, the handlers are those of `HttpApp.lean`. -/
theorem ownerApp_of_no_exception (cfg : HttpConfig) (os : HttpOs) :
    (∀ k, (ownerApp cfg).onNewConnection k { os } = (httpApp cfg).onNewConnection k os) ∧
      (∀ r, (ownerApp cfg).processCallback r { os } = (httpApp cfg).processCallback r os) ∧
      ∀ k, (ownerApp cfg).writeEndCallback k { os } = (httpApp cfg).writeEndCallback k os :=
  ⟨fun _ => rfl, fun _ => rfl, fun _ => rfl⟩

/-! ## The pointer -/

/-- What a step of a handler does to `ctx.ptr`. -/
def PtrOp.apply (p : RawPtr) : PtrOp → RawPtr
  | .store => p.store
  | .delete => p.delete
  | .use => p.use

/-- A handler runs. -/
def runOps (ops : List PtrOp) (p : RawPtr) : RawPtr := ops.foldl PtrOp.apply p.enter

/-- The steps of `process_callback`. -/
def processOps (cfg : HttpConfig) (r : HttpRequest) (w : OwnerOs) : List PtrOp :=
  if w.headers then [] else (processRun cfg r w).ops

/-- A connection, and the response objects of its `ctx.ptr`. -/
structure OwnedCtx (P : Type) where
  ctx : HttpCtx P WriteEnd
  res : RawPtr := {}

namespace OwnedCtx

variable {P : Type} (L : Parser P) (cfg : HttpConfig) (useSsl : Bool)

/-- The `destory_callback` is run, if there is one, and dropped. -/
def destory (o : OwnedCtx P) : OwnedCtx P where
  ctx := o.ctx.destory
  res := if o.ctx.destoryCallback then o.res.enter.release else o.res

/-- `worker::close_client_fd`; `on_close` runs the `destory_callback`. -/
def closeClientFd (o : OwnedCtx P) : OwnedCtx P where
  ctx := o.ctx.closeClientFd
  res := o.destory.res

/-- `on_create` sets `ctx.ptr` to null. -/
def reuse (w : OwnerOs) (o : OwnedCtx P) : OwnedCtx P where
  ctx := o.ctx.reuse L (ownerApp cfg) useSsl w
  res := o.res.clear

def readPhase (ev : HttpEvent OwnerOs) (o : OwnedCtx P) : OwnedCtx P :=
  { o with ctx := o.ctx.readPhase L ev }

def processPhase (ev : HttpEvent OwnerOs) (o : OwnedCtx P) : OwnedCtx P where
  ctx := o.ctx.processPhase (ownerApp cfg) ev
  res := if o.ctx.due then runOps (processOps cfg o.ctx.msg.request ev.os) o.res else o.res

def writePhase (ev : HttpEvent OwnerOs) (o : OwnedCtx P) : OwnedCtx P where
  ctx := o.ctx.writePhase (ownerApp cfg) ev
  res :=
    match o.ctx.dueWriteEnd ev with
    | some k => runOps (writeRun k ev.os).ops o.res
    | none => o.res

def keepAliveStep (w : OwnerOs) (o : OwnedCtx P) : OwnedCtx P :=
  if o.ctx.everythingEnd then
    if o.ctx.keepAlive then o.destory.reuse L cfg useSsl w else o.destory
  else o

def endPhase (ev : HttpEvent OwnerOs) (o : OwnedCtx P) : OwnedCtx P :=
  let o := { o with ctx := o.ctx.settle }.keepAliveStep L cfg useSsl ev.os
  { o with ctx := o.ctx.closeStep }

def phases (ev : HttpEvent OwnerOs) (o : OwnedCtx P) : OwnedCtx P :=
  (((o.readPhase L ev).processPhase cfg ev).writePhase cfg ev).endPhase L cfg useSsl ev

/-- `http_ctx::on_event`. -/
def onEvent (o : OwnedCtx P) (ev : HttpEvent OwnerOs) : OwnedCtx P :=
  if !o.ctx.attached then o
  else
    let o := { o with ctx := if ev.err then o.ctx.setIsClose else o.ctx }
    if o.ctx.conn.isClose then o.destory.closeClientFd
    else
      match o.ctx.sslStep (ownerApp cfg) useSsl ev with
      | (s, false) => { o with ctx := s }
      | (s, true) => { o with ctx := s }.phases L cfg useSsl ev

/-- A client is accepted. -/
def accepted (w : OwnerOs) : OwnedCtx P where
  ctx := HttpCtx.accepted L (ownerApp cfg) useSsl w

theorem ctx_keepAliveStep (w : OwnerOs) (o : OwnedCtx P) :
    (o.keepAliveStep L cfg useSsl w).ctx = o.ctx.keepAliveStep L (ownerApp cfg) useSsl w := by
  rw [keepAliveStep, HttpCtx.keepAliveStep]
  split_ifs <;> rfl

theorem ctx_phases (ev : HttpEvent OwnerOs) (o : OwnedCtx P) :
    (o.phases L cfg useSsl ev).ctx = o.ctx.phases L (ownerApp cfg) useSsl ev := by
  show (OwnedCtx.keepAliveStep L cfg useSsl ev.os _).ctx.closeStep = _
  rw [ctx_keepAliveStep]
  rfl

/-- **The connection under the pointer is the one of `on_event`.** -/
theorem ctx_onEvent (o : OwnedCtx P) (ev : HttpEvent OwnerOs) :
    (o.onEvent L cfg useSsl ev).ctx = o.ctx.onEvent L (ownerApp cfg) useSsl ev := by
  rw [onEvent, HttpCtx.onEvent]
  simp only
  generalize (if ev.err then o.ctx.setIsClose else o.ctx) = s
  split_ifs
  · rfl
  · rfl
  · obtain ⟨t, passed⟩ := s.sslStep (ownerApp cfg) useSsl ev
    cases passed with
    | false => rfl
    | true => exact ctx_phases L cfg useSsl ev _

/-! ## Runs -/

/-- What happens to a connection. -/
inductive Label
  | event (ev : HttpEvent OwnerOs)
  /-- the worker closes the connection by itself -/
  | close

/-- A step of a connection. One that is closed gets no more events, and is not closed again. -/
def step (o : OwnedCtx P) : Label → Option (OwnedCtx P)
  | .event ev => some (o.onEvent L cfg useSsl ev)
  | .close => if o.ctx.attached then some o.closeClientFd else none

/-- There is no memory for the `DIR_TYPE` of a response object, on the way to the page of a
directory. -/
def DirAllocFails (cfg : HttpConfig) (r : HttpRequest) (os : HttpOs) : Prop :=
  (r.method = ascii "GET" ∨ r.method = ascii "HEAD") ∧
    (∃ tPath, staticPath cfg.staticDir r.url = .path tPath) ∧
    andThen os.pathExists os.isRegularFile = some false ∧
    andThen os.existsAgain os.isDirectory = some true ∧ os.newResponse = true ∧ os.newDir = false

/-- The step processes no request for which this happens. -/
def DirAllocated (o : OwnedCtx P) : Label → Prop
  | .event ev => ∀ r, o.ctx.Processes L (ownerApp cfg) useSsl ev r → ¬ DirAllocFails cfg r ev.os.os
  | .close => True

/-- **Every response object is destroyed once**, and `ctx.ptr` never refers to one that was when a
callback runs: an object that is not destroyed yet is the one of `ctx.ptr`, a callback will destroy
it, and none is left when the exchange or the connection has ended. -/
structure ReleasedOnce (o : OwnedCtx P) : Prop where
  valid : o.res.fault = false
  once : o.res.destroyed.Nodup
  held : ∀ i < o.res.next, i ∉ o.res.destroyed →
    o.res.ptr = some i ∧ o.ctx.destoryCallback = true
  all : o.ctx.attached = false ∨ o.ctx.processEnd = false ∨ o.ctx.everythingEnd = true →
    ∀ i < o.res.next, i ∈ o.res.destroyed

/-! ## What the handlers do with the pointer -/

/-- The first step stores an object, and the others use it. -/
def StoresFirst (ops : List PtrOp) : Prop :=
  ops = [] ∨ ∃ uses, ops = .store :: uses ∧ ∀ op ∈ uses, op = .use

/-- A handler keeps to that, and does not go on without an object. -/
structure Stores (a : Answer) : Prop where
  first : StoresFirst a.ops
  goes_on : a.run.threw = false → a.run.writeEnd ≠ none → a.ops ≠ []

variable {ops : List PtrOp} {os : HttpOs} {p : RawPtr}

theorem StoresFirst.take (h : StoresFirst ops) (n : Nat) : StoresFirst (ops.take n) := by
  rcases h with rfl | ⟨uses, rfl, huses⟩
  · exact .inl List.take_nil
  · cases n with
    | zero => exact .inl rfl
    | succ n => exact .inr ⟨uses.take n, rfl, fun op hop => huses op (List.mem_of_mem_take hop)⟩

theorem Stores.cut {a : Answer} (h : Stores a) (c : Option Cut) : Stores (a.cut c) := by
  cases c with
  | none => exact h
  | some c => exact ⟨h.first.take c.steps, fun hthrew => Bool.noConfusion hthrew⟩

theorem stores_finished (response : Bytes) (h : StoresFirst ops) :
    Stores (.finished response ops) :=
  ⟨h, fun _ hnone => absurd rfl hnone⟩

theorem storesFirst_nil : StoresFirst [] := .inl rfl

theorem storesFirst_store : StoresFirst [.store, .use] := .inr ⟨[.use], rfl, by simp⟩

/-- A `write_end_callback` only uses the object. -/
theorem eq_use_of_mem_writeEnd {k : WriteEnd} {op : PtrOp} (h : op ∈ (writeEnd k os).ops) :
    op = .use := by
  cases k with
  | file isHttpHeadMethod partialResponse resp =>
    cases isHttpHeadMethod with
    | true => simp [writeEnd, fileWriteEnd] at h
    | false => simpa [writeEnd, fileWriteEnd] using h
  | dir page alreadySize =>
    rw [writeEnd, dirWriteEnd] at h
    split_ifs at h <;> simpa using h

theorem stores_startResponse (head : Bytes) (k : WriteEnd) (os : HttpOs) :
    Stores (startResponse head k os [.store, .use]) := by
  refine ⟨.inr ⟨.use :: (writeEnd k os).ops, rfl, fun op hop => ?_⟩,
    fun _ _ => by simp [startResponse]⟩
  rcases List.mem_cons.mp hop with rfl | hop
  · rfl
  · exact eq_use_of_mem_writeEnd hop

/-- **Every exit of `process_callback` leaves the object to `ctx.ptr`**, but the one where there is
no memory for `DIR_TYPE`. -/
theorem stores_processAnswer {cfg : HttpConfig} {r : HttpRequest} (h : ¬ DirAllocFails cfg r os) :
    Stores (processAnswer cfg r os) :=
  processAnswer_forms cfg (stores_finished · storesFirst_nil) (stores_finished · storesFirst_store)
    (stores_startResponse · · os) ⟨storesFirst_nil, fun hthrew => Bool.noConfusion hthrew⟩
    fun hmethod hpath hregular hdirectory hnew hdir =>
      absurd ⟨hmethod, hpath, hregular, hdirectory, hnew, hdir⟩ h

theorem foldl_uses {p : RawPtr} (h : p.Sound) (hp : p.ptr ≠ none) :
    ∀ {ops : List PtrOp}, (∀ op ∈ ops, op = .use) → ops.foldl PtrOp.apply p = p
  | [], _ => rfl
  | op :: ops, hops => by
    obtain rfl : op = .use := hops op List.mem_cons_self
    rw [List.foldl_cons]
    show ops.foldl PtrOp.apply p.use = p
    rw [h.use_eq hp]
    exact foldl_uses h hp fun op hop => hops op (List.mem_cons_of_mem _ hop)

/-- A handler that only uses the object leaves everything as it is. -/
theorem runOps_uses (h : p.Sound) (hp : p.ptr ≠ none) (hops : ∀ op ∈ ops, op = .use) :
    runOps ops p = p := by
  rw [runOps, h.enter_eq, foldl_uses h hp hops]

/-- A handler that begins with storing an object, where there is none. -/
theorem runOps_storesFirst (h : p.Sound) (hp : p.ptr = none) (hops : StoresFirst ops) :
    (runOps ops p).Sound ∧ (ops ≠ [] → (runOps ops p).ptr ≠ none) := by
  rw [runOps, h.enter_eq]
  rcases hops with rfl | ⟨uses, rfl, huses⟩
  · exact ⟨h, fun hne => absurd rfl hne⟩
  · have hstored : p.store.ptr ≠ none := Option.some_ne_none _
    have hfold : uses.foldl PtrOp.apply p.store = p.store :=
      foldl_uses (h.store hp) hstored huses
    have hrun : (PtrOp.store :: uses).foldl PtrOp.apply p = p.store := hfold
    rw [hrun]
    exact ⟨h.store hp, fun _ => hstored⟩

/-! ## What the phases do with the pointer -/

/-- A part of `on_event` that runs no callback. -/
structure Kept (s t : HttpCtx P WriteEnd) : Prop where
  attached : t.attached = s.attached
  processEnd : t.processEnd = s.processEnd
  destoryCallback : t.destoryCallback = s.destoryCallback
  writeEndCallback : t.writeEndCallback = s.writeEndCallback
  everythingEnd : t.everythingEnd = false → s.everythingEnd = false

namespace Kept

variable {s t u : HttpCtx P WriteEnd}

theorem refl (s : HttpCtx P WriteEnd) : Kept s s := ⟨rfl, rfl, rfl, rfl, id⟩

theorem trans (h : Kept s t) (h' : Kept t u) : Kept s u :=
  ⟨h'.attached.trans h.attached, h'.processEnd.trans h.processEnd,
    h'.destoryCallback.trans h.destoryCallback, h'.writeEndCallback.trans h.writeEndCallback,
    fun he => h.everythingEnd (h'.everythingEnd he)⟩

theorem setIsClose (s : HttpCtx P WriteEnd) : Kept s s.setIsClose := ⟨rfl, rfl, rfl, rfl, id⟩

theorem fail (f : Failure) (s : HttpCtx P WriteEnd) : Kept s (s.fail f) :=
  ⟨rfl, rfl, rfl, rfl, fun h => Bool.noConfusion h⟩

/-- Writing, up to the callback. -/
theorem writes (h : HttpCtx.Writes false s t) : Kept s t := by
  induction h with
  | refl => exact refl s
  | sent _ _ ih | finish _ ih => exact ih.trans ⟨rfl, rfl, rfl, rfl, id⟩
  | fail _ f ih => exact ih.trans (fail f _)
  | ended _ ih => exact ih.trans ⟨rfl, rfl, rfl, rfl, fun h => Bool.noConfusion h⟩
  | run _ hruns => exact Bool.noConfusion hruns

theorem settle (s : HttpCtx P WriteEnd) : Kept s s.settle := writes HttpCtx.Writes.refl.settle

theorem closeStep (s : HttpCtx P WriteEnd) : Kept s s.closeStep := by
  rw [HttpCtx.closeStep]
  split_ifs
  · exact setIsClose s
  · exact refl s

theorem sslStep (app : HttpApp WriteEnd OwnerOs) (useSsl : Bool) (ev : HttpEvent OwnerOs)
    (s : HttpCtx P WriteEnd) : Kept s (s.sslStep app useSsl ev).1 := by
  rw [HttpCtx.sslStep]
  split_ifs
  · cases ev.sslAccept with
    | accepted =>
      simp only [HttpCtx.announce]
      split_ifs <;> exact ⟨rfl, rfl, rfl, rfl, id⟩
    | pending => exact refl s
    | failed => exact setIsClose s
  · exact refl s

theorem readPhase (L : Parser P) (ev : HttpEvent OwnerOs) (s : HttpCtx P WriteEnd) :
    Kept s (s.readPhase L ev) := by
  rw [HttpCtx.readPhase]
  split_ifs
  · rw [HttpCtx.applyRead]
    split
    · exact ⟨rfl, rfl, rfl, rfl, fun h => Bool.noConfusion h⟩
    · exact ⟨rfl, rfl, rfl, rfl, id⟩
  · exact refl s

end Kept

/-- What holds between the phases: the object of `ctx.ptr` came with the request that was
processed, the `destory_callback` is there to destroy it, and the `write_end_callback` finds it. -/
structure Owned (o : OwnedCtx P) : Prop where
  sound : o.res.Sound
  fresh : o.ctx.processEnd = false → o.res.ptr = none ∧ o.ctx.writeEndCallback = none
  held : o.res.ptr ≠ none → o.ctx.destoryCallback = true ∧ o.ctx.attached = true
  waiting : o.ctx.attached = true → o.ctx.everythingEnd = false →
    o.ctx.writeEndCallback ≠ none → o.res.ptr ≠ none

variable {L cfg useSsl} {o : OwnedCtx P} {ev : HttpEvent OwnerOs}

theorem Owned.kept (h : o.Owned) {t : HttpCtx P WriteEnd} (hk : Kept o.ctx t) :
    Owned { o with ctx := t } := by
  refine ⟨h.sound, ?_, ?_, ?_⟩
  · show t.processEnd = false → o.res.ptr = none ∧ t.writeEndCallback = none
    rw [hk.processEnd, hk.writeEndCallback]
    exact h.fresh
  · show o.res.ptr ≠ none → t.destoryCallback = true ∧ t.attached = true
    rw [hk.destoryCallback, hk.attached]
    exact h.held
  · show t.attached = true → t.everythingEnd = false → t.writeEndCallback ≠ none → o.res.ptr ≠ none
    rw [hk.attached, hk.writeEndCallback]
    exact fun ha he => h.waiting ha (hk.everythingEnd he)

variable {s : HttpCtx P WriteEnd}

/-- With no object left, and none expected. -/
theorem Owned.of_null (hp : p.Sound) (hnull : p.ptr = none)
    (hfresh : s.processEnd = false → s.writeEndCallback = none)
    (hwaiting : s.attached = true → s.everythingEnd = false → s.writeEndCallback = none) :
    Owned { ctx := s, res := p } :=
  ⟨hp, fun h => ⟨hnull, hfresh h⟩, fun h => absurd hnull h,
    fun ha he h => absurd (hwaiting ha he) h⟩

/-- The `destory_callback` leaves no object. -/
theorem Owned.destory (h : o.Owned) : o.destory.res.Sound ∧ o.destory.res.ptr = none := by
  rw [OwnedCtx.destory]
  split_ifs with hcallback
  · rw [h.sound.enter_eq]
    exact h.sound.release
  · refine ⟨h.sound, ?_⟩
    by_contra hptr
    exact hcallback (h.held hptr).1

/-- What a handler's run leaves of the context. -/
theorem handlerRun_frame (r : HandlerRun WriteEnd) (s : HttpCtx P WriteEnd) :
    (s.handlerRun r).attached = s.attached ∧ (s.handlerRun r).processEnd = s.processEnd ∧
      (s.handlerRun r).destoryCallback = s.destoryCallback ∧
      (s.handlerRun r).writeEndCallback = r.writeEnd.or s.writeEndCallback ∧
      ((s.handlerRun r).everythingEnd = false → r.threw = false) := by
  rw [HttpCtx.handlerRun]
  split_ifs with hthrew
  · exact ⟨rfl, rfl, rfl, rfl, fun h => Bool.noConfusion h⟩
  · exact ⟨rfl, rfl, rfl, rfl, fun _ => by simpa using hthrew⟩

variable (app : HttpApp WriteEnd OwnerOs)

theorem runProcessCallback_frame (w : OwnerOs) (s : HttpCtx P WriteEnd) :
    (s.runProcessCallback app w).attached = s.attached ∧
      (s.runProcessCallback app w).processEnd = s.processEnd ∧
      (s.runProcessCallback app w).destoryCallback = s.destoryCallback ∧
      ((s.runProcessCallback app w).everythingEnd = false →
        ∃ r, app.processCallback s.msg.request w = some r ∧ r.threw = false ∧
          (s.runProcessCallback app w).writeEndCallback = r.writeEnd.or s.writeEndCallback) := by
  rw [HttpCtx.runProcessCallback]
  cases app.processCallback s.msg.request w with
  | none => exact ⟨rfl, rfl, rfl, fun h => Bool.noConfusion h⟩
  | some r =>
    obtain ⟨ha, hp, hd, hw, he⟩ := handlerRun_frame r.toHandlerRun
      { s with keepAlive := headerExistKeepLive s.msg.headers }
    exact ⟨ha, hp, hd, fun h => ⟨r, rfl, he h, hw⟩⟩

/-- The context behind a request that was processed. -/
theorem processPhase_of_due (ev : HttpEvent OwnerOs) (hdue : s.due = true) :
    (s.processPhase app ev).attached = s.attached ∧ (s.processPhase app ev).processEnd = true ∧
      (s.processPhase app ev).destoryCallback = true ∧
      ((s.processPhase app ev).everythingEnd = false →
        ∃ r, app.processCallback s.msg.request ev.os = some r ∧ r.threw = false ∧
          (s.processPhase app ev).writeEndCallback = r.writeEnd.or s.writeEndCallback) := by
  have hphase : s.processPhase app ev =
      ({ s with processEnd := true }.processConnection).runProcessCallback app ev.os :=
    (if_pos hdue).trans (if_pos rfl)
  rw [hphase]
  exact runProcessCallback_frame app ev.os ({ s with processEnd := true }.processConnection)

theorem Owned.processPhase (h : o.Owned) (ha : o.ctx.attached = true)
    (hdir : o.ctx.due = true → ¬ DirAllocFails cfg o.ctx.msg.request ev.os.os) :
    (o.processPhase cfg ev).Owned ∧ (o.processPhase cfg ev).ctx.attached = true := by
  by_cases hdue : o.ctx.due = true
  · have hpending : o.ctx.processEnd = false := by
      rw [HttpCtx.due, Bool.and_eq_true, Bool.not_eq_true'] at hdue
      exact hdue.2
    obtain ⟨hnull, hnone⟩ := h.fresh hpending
    obtain ⟨hattached, hprocess, hdestory, hend⟩ :=
      processPhase_of_due (ownerApp cfg) ev hdue
    have hstores : Stores (processRun cfg o.ctx.msg.request ev.os) :=
      (stores_processAnswer (hdir hdue)).cut ev.os.process
    have hfirst : StoresFirst (processOps cfg o.ctx.msg.request ev.os) := by
      rw [processOps]
      split_ifs
      · exact storesFirst_nil
      · exact hstores.first
    obtain ⟨hsound, hptr⟩ := runOps_storesFirst h.sound hnull hfirst
    have hres : (o.processPhase cfg ev).res =
        runOps (processOps cfg o.ctx.msg.request ev.os) o.res := if_pos hdue
    refine ⟨⟨?_, fun hp => ?_, fun _ => ⟨hdestory, hattached.trans ha⟩, fun _ he hwrite => ?_⟩,
      hattached.trans ha⟩
    · rw [hres]
      exact hsound
    · exact absurd (hp.symm.trans hprocess) (by decide)
    · obtain ⟨r, hr, hthrew, hcallback⟩ := hend he
      rw [hres]
      apply hptr
      have hheaders : ev.os.headers = false := by
        by_contra hheaders
        simp [ownerApp, hheaders] at hr
      have hr : _ = some r := hr
      rw [ownerApp] at hr
      simp only [hheaders, Bool.false_eq_true, if_false, Option.some.injEq] at hr
      subst hr
      rw [processOps, hheaders]
      refine hstores.goes_on hthrew fun hno => hwrite ?_
      show (HttpCtx.processPhase _ _ _).writeEndCallback = none
      rw [hcallback, hnone]
      exact (Option.or_none).trans hno
  · have hsame : o.processPhase cfg ev = o := by
      rw [OwnedCtx.processPhase, if_neg hdue, HttpCtx.processPhase]
      rw [HttpCtx.due] at hdue
      rw [if_neg hdue]
    rw [hsame]
    exact ⟨h, ha⟩

theorem ops_writeRun (k : WriteEnd) (w : OwnerOs) : ∀ op ∈ (writeRun k w).ops, op = .use := by
  intro op hop
  rw [writeRun] at hop
  cases hcut : w.write with
  | none =>
    rw [hcut] at hop
    exact eq_use_of_mem_writeEnd hop
  | some c =>
    rw [hcut] at hop
    exact eq_use_of_mem_writeEnd (List.mem_of_mem_take hop)

/-- The `write_end_callback` finds the object, and leaves it. -/
theorem Owned.writePhase (h : o.Owned) (ha : o.ctx.attached = true) :
    (o.writePhase cfg ev).Owned := by
  have hsend := Kept.writes (HttpCtx.sendPhase_writes false ev o.ctx)
  rw [OwnedCtx.writePhase, HttpCtx.dueWriteEnd, HttpCtx.writePhase]
  simp only
  split_ifs with hwrite
  · obtain ⟨hend, hprocess⟩ : o.ctx.everythingEnd = false ∧ o.ctx.processEnd = true := by
      simpa using hwrite
    cases hcallback : (o.ctx.sendPhase ev).writeEndCallback with
    | none =>
      have hmissing : (o.ctx.sendPhase ev).writeEnd (ownerApp cfg) ev.os =
          ((o.ctx.sendPhase ev).fail .missing).settle := by
        rw [HttpCtx.writeEnd, hcallback]
      rw [hmissing]
      exact h.kept ((hsend.trans (Kept.fail .missing _)).trans (Kept.settle _))
    | some k =>
      have hptr : o.res.ptr ≠ none := by
        refine h.waiting ha hend ?_
        rw [← hsend.writeEndCallback, hcallback]
        exact Option.some_ne_none k
      obtain ⟨-, hprocess', hattached, hdestory⟩ :=
        (@HttpCtx.Writes.writeEnd _ _ _ (ownerApp cfg) (o.ctx.sendPhase ev) _ .refl ev.os).frame
      show Owned { ctx := _, res := runOps (writeRun k ev.os).ops o.res }
      rw [runOps_uses h.sound hptr (ops_writeRun k ev.os)]
      refine ⟨h.sound, fun hp => ?_, fun _ => ⟨?_, ?_⟩, fun _ _ _ => hptr⟩
      · have hp : ((o.ctx.sendPhase ev).writeEnd (ownerApp cfg) ev.os).processEnd = false := hp
        rw [hprocess', hsend.processEnd, hprocess] at hp
        exact Bool.noConfusion hp
      · exact (hdestory.trans hsend.destoryCallback).trans (h.held hptr).1
      · exact (hattached.trans hsend.attached).trans ha
  · exact h.kept hsend
  · exact h

theorem Owned.keepAliveStep (h : o.Owned) (w : OwnerOs) :
    (o.keepAliveStep L cfg useSsl w).Owned ∧
      ((o.keepAliveStep L cfg useSsl w).ctx.everythingEnd = true →
        (o.keepAliveStep L cfg useSsl w).res.ptr = none) := by
  obtain ⟨hsound, hnull⟩ := h.destory
  rw [OwnedCtx.keepAliveStep]
  split_ifs with hend hkeep
  · have hclear : o.destory.res.clear = o.destory.res := RawPtr.Sound.clear_eq hnull
    have hnone : ((o.destory.reuse L cfg useSsl w).ctx).writeEndCallback = none := by
      show (HttpCtx.onCreate _ _ _ _ _ _).writeEndCallback = none
      rw [HttpCtx.onCreate]
      simp only [HttpCtx.announce]
      split_ifs <;> rfl
    rw [OwnedCtx.reuse] at hnone ⊢
    rw [hclear]
    exact ⟨.of_null hsound hnull (fun _ => hnone) (fun _ _ => hnone), fun _ => hnull⟩
  · have hended : o.ctx.destory.everythingEnd = true := hend
    refine ⟨.of_null hsound hnull (fun hp => (h.fresh hp).2) fun _ he => ?_, fun _ => hnull⟩
    rw [hended] at he
    exact Bool.noConfusion he
  · exact ⟨h, fun he => absurd he hend⟩

/-! ## What an event does with the pointer -/

/-- What holds between events: besides, no object is left of an exchange that has ended. -/
structure Resting (o : OwnedCtx P) : Prop extends Owned o where
  ended : o.ctx.everythingEnd = true → o.res.ptr = none

theorem sslStep_everythingEnd (useSsl : Bool) (ev : HttpEvent OwnerOs) (s : HttpCtx P WriteEnd) :
    (s.sslStep app useSsl ev).1.everythingEnd = s.everythingEnd := by
  rw [HttpCtx.sslStep]
  split_ifs
  · cases ev.sslAccept with
    | accepted =>
      simp only [HttpCtx.announce]
      split_ifs <;> rfl
    | pending | failed => rfl
  · rfl

theorem closeStep_everythingEnd (s : HttpCtx P WriteEnd) :
    s.closeStep.everythingEnd = s.everythingEnd := by
  rw [HttpCtx.closeStep]
  split_ifs <;> rfl

/-- An event that comes to the processing phase processes a request. -/
theorem processes_of_due (ha : o.ctx.attached = true) (hclose : o.ctx.conn.isClose = false)
    (herr : ev.err = false) (hssl : (o.ctx.sslStep (ownerApp cfg) useSsl ev).2 = true)
    (hdue : ((o.ctx.sslStep (ownerApp cfg) useSsl ev).1.readPhase L ev).due = true) :
    o.ctx.Processes L (ownerApp cfg) useSsl ev
      ((o.ctx.sslStep (ownerApp cfg) useSsl ev).1.readPhase L ev).msg.request := by
  have hpass := HttpCtx.sslStep_passed hssl
  have hin : (o.ctx.sslStep (ownerApp cfg) useSsl ev).1.inHand L ev = o.ctx.inHand L ev := by
    rw [HttpCtx.inHand, HttpCtx.inHand, hpass.msg, hpass.parser]
  generalize (o.ctx.sslStep (ownerApp cfg) useSsl ev).1 = t at hpass hin hdue ⊢
  obtain ⟨⟨hend, hrecv⟩, hprocess⟩ : ((t.readPhase L ev).everythingEnd = false ∧
      (t.readPhase L ev).msg.recvEnd = true) ∧ (t.readPhase L ev).processEnd = false := by
    simpa [HttpCtx.due] using hdue
  have hstart := (Kept.readPhase L ev t).everythingEnd hend
  obtain ⟨hmsg, -, hsame⟩ := HttpCtx.readPhase_msg L ev hstart
  have hread : (t.inHand L ev).2 = none := by
    rw [HttpCtx.readPhase_eq hstart] at hend
    rw [HttpCtx.inHand]
    split_ifs at hend ⊢
    · cases hf : (t.msg.recvLoop L ev.recvs 0 t.parser).failure with
      | none => rfl
      | some f =>
        rw [HttpCtx.applyRead, hf] at hend
        exact Bool.noConfusion hend
    · rfl
  refine ⟨ha, hclose, herr, hssl, hin ▸ hread, ?_, ?_⟩
  · rw [HttpCtx.handles, ← hin, ← hmsg, hrecv, ← hpass.processEnd, ← hsame, hprocess]
    rfl
  · rw [hmsg, hin]

theorem Owned.phases (h : o.Owned) (ha : o.ctx.attached = true)
    (hdir : (o.ctx.readPhase L ev).due = true →
      ¬ DirAllocFails cfg (o.ctx.readPhase L ev).msg.request ev.os.os) :
    (o.phases L cfg useSsl ev).Resting := by
  have hread : (o.readPhase L ev).Owned := h.kept (Kept.readPhase L ev o.ctx)
  have hattached : (o.readPhase L ev).ctx.attached = true :=
    (Kept.readPhase L ev o.ctx).attached.trans ha
  obtain ⟨hprocess, hattached⟩ := hread.processPhase hattached hdir
  have hwrite : (((o.readPhase L ev).processPhase cfg ev).writePhase cfg ev).Owned :=
    hprocess.writePhase hattached
  have hsettle := hwrite.kept (Kept.settle _)
  refine ⟨hsettle.keepAliveStep ev.os |>.1.kept (Kept.closeStep _), fun he => ?_⟩
  refine (hsettle.keepAliveStep ev.os).2 ?_
  rw [← closeStep_everythingEnd]
  exact he

/-- Closing a connection destroys the object. -/
theorem Owned.closed (h : o.Owned) (hattached : s.attached = false)
    (hprocess : s.processEnd = o.ctx.processEnd)
    (hwrite : s.writeEndCallback = o.ctx.writeEndCallback) :
    Resting { ctx := s, res := o.destory.res } := by
  obtain ⟨hsound, hnull⟩ := h.destory
  refine ⟨.of_null hsound hnull (fun hp => ?_) fun ha => ?_, fun _ => hnull⟩
  · rw [hwrite]
    exact (h.fresh (hprocess.symm.trans hp)).2
  · exact absurd (ha.symm.trans hattached) (by simp)

theorem Owned.closeClientFd (h : o.Owned) : o.closeClientFd.Resting := h.closed rfl rfl rfl

/-- The second `destory_callback` finds none. -/
theorem Owned.destory_closeClientFd (h : o.Owned) : o.destory.closeClientFd.Resting :=
  h.closed rfl rfl rfl

theorem Resting.onEvent (h : o.Resting) (hdir : o.DirAllocated L cfg useSsl (.event ev)) :
    (o.onEvent L cfg useSsl ev).Resting := by
  rw [OwnedCtx.onEvent]
  by_cases hattached : o.ctx.attached = true
  · rw [if_neg (by simp [hattached])]
    cases herr : ev.err with
    | true => exact (h.toOwned.kept (Kept.setIsClose o.ctx)).destory_closeClientFd
    | false =>
      cases hclose : o.ctx.conn.isClose with
      | true =>
        simp only [Bool.false_eq_true, if_false, hclose, if_true]
        exact h.toOwned.destory_closeClientFd
      | false =>
        simp only [Bool.false_eq_true, if_false, hclose]
        have hkept := Kept.sslStep (ownerApp cfg) useSsl ev o.ctx
        have hended := sslStep_everythingEnd (ownerApp cfg) useSsl ev o.ctx
        have hspare (hssl : (o.ctx.sslStep (ownerApp cfg) useSsl ev).2 = true) :=
          fun hdue => hdir _ (processes_of_due hattached hclose herr hssl hdue)
        generalize o.ctx.sslStep (ownerApp cfg) useSsl ev = r at hkept hended hspare ⊢
        obtain ⟨t, passed⟩ := r
        cases passed with
        | false => exact ⟨h.toOwned.kept hkept, fun he => h.ended (hended ▸ he)⟩
        | true =>
          exact (h.toOwned.kept hkept).phases (hkept.attached.trans hattached) (hspare rfl)
  · rw [if_pos (by simpa using hattached)]
    exact h

/-- **The step lemma.** -/
theorem Resting.step (h : o.Resting) {l : Label} (hdir : o.DirAllocated L cfg useSsl l)
    {o' : OwnedCtx P} (hstep : o.step L cfg useSsl l = some o') : o'.Resting := by
  cases l with
  | event ev =>
    cases hstep
    exact h.onEvent hdir
  | close =>
    rw [OwnedCtx.step] at hstep
    split_ifs at hstep
    cases hstep
    exact h.closeClientFd

theorem resting_accepted (w : OwnerOs) : (accepted L cfg useSsl w).Resting := by
  have hnone : (HttpCtx.accepted L (ownerApp cfg) useSsl w).writeEndCallback = none := by
    rw [HttpCtx.accepted, HttpCtx.onCreate]
    simp only [HttpCtx.announce]
    split_ifs <;> rfl
  exact ⟨.of_null .empty rfl (fun _ => hnone) (fun _ _ => hnone), fun _ => rfl⟩

theorem Resting.releasedOnce (h : o.Resting) : o.ReleasedOnce := by
  refine ⟨h.sound.fault, h.sound.once, fun i hi hmem => ?_, fun hend => ?_⟩
  · have hptr := (h.sound.owned i hi).resolve_left hmem
    exact ⟨hptr, (h.held (by simp [hptr])).1⟩
  · refine h.sound.all_destroyed ?_
    rcases hend with hattached | hprocess | hended
    · by_contra hptr
      rw [(h.held hptr).2] at hattached
      exact Bool.noConfusion hattached
    · exact (h.fresh hprocess).1
    · exact h.ended hended

/-- **Every response object is destroyed exactly once**, on every connection and in every run of
events, exceptions and closings in which `new DIR_TYPE` does not fail behind a response object. -/
theorem released_once {ls : List Label} {w : OwnerOs} {o : OwnedCtx P}
    (hdir : Along (step L cfg useSsl) (DirAllocated L cfg useSsl) (accepted L cfg useSsl w) ls)
    (hrun : exec (step L cfg useSsl) (accepted L cfg useSsl w) ls = some o) : o.ReleasedOnce := by
  have hresting : o.Resting := exec_invariant (fun h hok hstep => h.step hok hstep)
    (resting_accepted w) hdir hrun
  exact hresting.releasedOnce

/-- A request for `/` on a socket that takes what it is given. -/
def request (os : HttpOs) : Label :=
  .event { (requestEvent (ascii "GET") [] os).toEvent with sends := [.sent 1000], os := { os } }

/-- A file is sent to its end, over two events. -/
theorem released_once_hello :
    let ls := [request hello, request hello]
    ∃ o, exec (step Http.requestParser plainConfig false)
        (accepted Http.requestParser plainConfig false { os := hello }) ls = some o ∧
      o.res = { next := 1, destroyed := [0] } ∧ o.ReleasedOnce := by
  intro ls
  have hdir (o : OwnedCtx Http.Reading) :
      o.DirAllocated Http.requestParser plainConfig false (request hello) :=
    fun r _ hfails => absurd hfails.2.2.2.2.2 (by decide)
  refine exists_exec (by decide +kernel) fun o hrun h => ⟨h, released_once ?_ hrun⟩
  exact ⟨hdir _, fun o _ => ⟨hdir o, fun _ _ => trivial⟩⟩

/-- **There is no memory for `DIR_TYPE`**: the response object is deleted by `process_callback`,
and once more by the `destory_callback`. -/
theorem released_twice :
    ∃ o, exec (step Http.requestParser plainConfig false)
        (accepted Http.requestParser plainConfig false { os := {} })
        [request { isRegularFile := some false, newDir := false }] = some o ∧
      o.res.destroyed = [0, 0] ∧ ¬ o.ReleasedOnce := by
  refine exists_exec (by decide +kernel) fun o _ hdestroyed => ⟨hdestroyed, fun h => ?_⟩
  have honce := h.once
  rw [hdestroyed] at honce
  exact absurd honce (by decide)

end OwnedCtx

end Avant.App
