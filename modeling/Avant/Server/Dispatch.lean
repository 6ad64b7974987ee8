import Avant.Lib.Machine

/-!
# Accepting clients and handing them to the workers

Model of the connection counters and of everything that touches them: the accept loop and
`server::on_listen_event` of the main thread (`src/server/server.cpp`), and thread start,
`on_new_client_fd` and `close_client_fd` of the workers (`src/workers/worker.cpp`). The threads
share `m_curr_connection_num` and the workers' `worker_connection_num`, which are atomic; every
load, store, `fetch_add` and `fetch_sub` is a step of its own here, and the steps of the threads
interleave freely. So the main thread has a program counter (`MainPc`) inside its two loops, and
a worker one inside `close_client_fd`.

A client is *dispatched* when the main thread has added it to a worker's counter, and *closed*
when the worker has entered `close_client_fd` for it, which happens when it gives up on creating
the connection, too; `dispatched` and `closed` count these per worker. In between it is on its way
through the tunnel or waiting there (`inbox`), or holds a slot of the worker's pool (`live`).

`worker::operator()` **stores zero** into the worker's own counter when the thread starts, whatever
the main thread has done by then.

Results, with the invariant of `LoadBound.lean` on top:
* `acct_step`: a step keeps the accounts, if a worker that starts has no client yet;
* **`quiescent_counts`**: in a run whose workers all start so, the counters are exact whenever
  nothing is in progress.
-/

namespace Avant.Server

open Avant.Lib

/-- The configuration, in the ranges `config_mgr::init` admits (`WORKER_NUM_MAX`,
`CLIENT_CNT_MAX`). -/
structure Config where
  workerCnt : Nat
  maxClientCnt : Nat
  acceptPerTick : Nat
  workerCnt_pos : 0 < workerCnt := by decide
  workerCnt_le : workerCnt ≤ 511 := by decide
  maxClientCnt_pos : 0 < maxClientCnt := by decide
  maxClientCnt_le : maxClientCnt ≤ 8388607 := by decide

/-- Where the main thread is. -/
inductive MainPc
  /-- outside the two loops -/
  | wait
  /-- at the head of the accept loop, with `batch` clients accepted -/
  | accept (loop batch : Nat)
  /-- a client was accepted; about to load `m_curr_connection_num` -/
  | load (loop batch : Nat)
  /-- about to add one to it -/
  | add (loop batch : Nat)
  /-- in `on_listen_event`, `n` clients still to dispatch -/
  | dispatch (n : Nat)
  /-- about to load the counter of worker `idx`; `n` clients come behind this one -/
  | scan (n idx target : Nat) (num : Int)
  /-- about to add one to the counter of worker `target` -/
  | assign (n target : Nat)
  /-- about to forward the client to worker `target` -/
  | forward (n target : Nat)
  /-- forwarding failed; about to subtract one from `m_curr_connection_num` -/
  | refuse (n : Nat)
  deriving DecidableEq

/-- Where a worker is with respect to `close_client_fd`. -/
inductive WorkerPc
  | run
  /-- the connection is released; about to subtract from `worker_connection_num` -/
  | subNum
  /-- about to subtract from `curr_connection_num` -/
  | subCurr
  deriving DecidableEq

/-- A worker: whether its thread has run its start-up code, its counter, and its clients. -/
structure Worker where
  started : Bool := false
  /-- `worker_connection_num` -/
  num : Int := 0
  pc : WorkerPc := .run
  /-- clients forwarded to the worker that it has not yet taken out of the tunnel -/
  inbox : Nat := 0
  /-- clients that hold a slot of the pool -/
  live : Nat := 0
  dispatched : Nat := 0
  closed : Nat := 0
  deriving DecidableEq

namespace Worker

/-- The main thread adds a client to the worker's counter. -/
def assign (k : Worker) : Worker := { k with num := k.num + 1, dispatched := k.dispatched + 1 }

/-- The main thread forwards a client to the worker. -/
def forward (k : Worker) : Worker := { k with inbox := k.inbox + 1 }

/-- The start-up code of `worker::operator()`. -/
def start (k : Worker) : Worker := { k with started := true, num := 0 }

/-- `on_new_client_fd`, when it succeeds. -/
def create (k : Worker) : Worker := { k with inbox := k.inbox - 1, live := k.live + 1 }

/-- `on_new_client_fd`, when it fails and calls `close_client_fd`. -/
def giveUp (k : Worker) : Worker :=
  { k with inbox := k.inbox - 1, pc := .subNum, closed := k.closed + 1 }

/-- `close_client_fd` of a connection, up to its release. -/
def release (k : Worker) : Worker :=
  { k with live := k.live - 1, pc := .subNum, closed := k.closed + 1 }

/-- `worker_connection_num.fetch_sub(1)`. -/
def subNum (k : Worker) : Worker := { k with num := k.num - 1, pc := .subCurr }

/-- Behind `curr_connection_num->fetch_sub(1)`. -/
def resume (k : Worker) : Worker := { k with pc := .run }

end Worker

/-- The shared counter, the main thread and the workers. -/
structure State (cfg : Config) where
  /-- `m_curr_connection_num` -/
  curr : Int := 0
  main : MainPc := .wait
  workers : Fin cfg.workerCnt → Worker

/-- What happens next. -/
inductive Label (cfg : Config)
  /-- the listening socket is readable -/
  | listen
  /-- `accept` returns a client, or fails -/
  | accept (ok : Bool)
  /-- the main thread takes its next step -/
  | main
  /-- the thread of worker `w` starts -/
  | start (w : Fin cfg.workerCnt)
  /-- worker `w` takes a client out of its tunnel; `ok` when nothing but the pool can fail -/
  | newClient (w : Fin cfg.workerCnt) (ok : Bool)
  /-- worker `w` closes a client -/
  | close (w : Fin cfg.workerCnt)
  /-- worker `w` takes the next step of `close_client_fd` -/
  | worker (w : Fin cfg.workerCnt)

/-- `ceil(max_client_cnt / worker_cnt)`: the quotient of two integers below `2 ^ 53` rounds up to
the same integer in `double`. -/
def Config.share (cfg : Config) : Nat := (cfg.maxClientCnt + cfg.workerCnt - 1) / cfg.workerCnt

/-- `worker_max_client_cnt`. -/
def Config.workerMaxClientCnt (cfg : Config) : Nat := cfg.share + cfg.workerCnt + 1

/-- The slots of a worker's pool: `connection_mgr::init` makes one more than it is asked for. -/
def Config.poolSlots (cfg : Config) : Nat := cfg.workerMaxClientCnt + 1

namespace State

variable {cfg : Config}

/-- The server before its threads start, its counters set to zero by `server::start`. -/
def init (cfg : Config) : State cfg := { workers := fun _ => {} }

/-- Every worker has started and no client is connected. -/
def ready (cfg : Config) : State cfg := { workers := fun _ => { started := true } }

/-- Worker `w` becomes `f` of what it was. -/
def modify (s : State cfg) (w : Fin cfg.workerCnt) (f : Worker → Worker) : State cfg :=
  { s with workers := Function.update s.workers w (f (s.workers w)) }

@[simp] theorem modify_curr (s : State cfg) (w : Fin cfg.workerCnt) (f : Worker → Worker) :
    (s.modify w f).curr = s.curr := rfl

@[simp] theorem modify_main (s : State cfg) (w : Fin cfg.workerCnt) (f : Worker → Worker) :
    (s.modify w f).main = s.main := rfl

theorem modify_workers (s : State cfg) (w : Fin cfg.workerCnt) (f : Worker → Worker)
    (v : Fin cfg.workerCnt) :
    (s.modify w f).workers v = if v = w then f (s.workers w) else s.workers v :=
  Function.update_apply _ _ _ _

/-- The accept loop is left. -/
def endAccept (batch : Nat) : MainPc := if batch = 0 then .wait else .dispatch batch

/-- One step of the main thread, for everything but the answer of `accept`. -/
def stepMain (s : State cfg) : Option (State cfg) :=
  match s.main with
  | .wait => none
  | .accept loop batch =>
    if loop < cfg.acceptPerTick then none else some { s with main := endAccept batch }
  | .load loop batch =>
    if s.curr ≥ cfg.maxClientCnt then some { s with main := endAccept batch }
    else some { s with main := .add loop batch }
  | .add loop batch => some { s with curr := s.curr + 1, main := .accept (loop + 1) (batch + 1) }
  | .dispatch 0 => some { s with main := .wait }
  | .dispatch (n + 1) => some { s with main := .scan n 0 0 0 }
  | .scan n idx target num =>
    if h : idx < cfg.workerCnt then
      let val := (s.workers ⟨idx, h⟩).num
      if target = idx then some { s with main := .scan n (idx + 1) target val }
      else if val ≤ num then some { s with main := .scan n (idx + 1) idx val }
      else some { s with main := .scan n (idx + 1) target num }
    else some { s with main := .assign n (target &&& 0x1FF) }
  | .assign n target =>
    if h : target < cfg.workerCnt then
      some { s.modify ⟨target, h⟩ Worker.assign with main := .forward n target }
    else none
  | .forward n target =>
    -- `tunnel_forward` refuses what is not the tunnel of a worker
    if h : target < cfg.workerCnt then
      some { s.modify ⟨target, h⟩ Worker.forward with main := .dispatch n }
    else some { s with main := .refuse n }
  | .refuse n => some { s with curr := s.curr - 1, main := .dispatch n }

/-- One step of the system. -/
def step (s : State cfg) : Label cfg → Option (State cfg)
  | .listen => if s.main = .wait then some { s with main := .accept 0 0 } else none
  | .accept ok =>
    match s.main with
    | .accept loop batch =>
      if loop < cfg.acceptPerTick then
        some { s with main := if ok then .load loop batch else endAccept batch }
      else none
    | _ => none
  | .main => s.stepMain
  | .start w =>
    if (s.workers w).started then none
    else some (s.modify w Worker.start)
  | .newClient w ok =>
    let k := s.workers w
    if k.started ∧ k.pc = .run ∧ 0 < k.inbox then
      -- the tunnel itself holds a slot of the pool
      if k.live + 1 < cfg.poolSlots ∧ ok then some (s.modify w Worker.create)
      else some (s.modify w Worker.giveUp)
    else none
  | .close w =>
    let k := s.workers w
    if k.started ∧ k.pc = .run ∧ 0 < k.live then some (s.modify w Worker.release) else none
  | .worker w =>
    match (s.workers w).pc with
    | .run => none
    | .subNum => some (s.modify w Worker.subNum)
    | .subCurr => some { s.modify w Worker.resume with curr := s.curr - 1 }

/-- No accept, dispatch or close is in progress. -/
def Quiescent (s : State cfg) : Prop := s.main = .wait ∧ ∀ w, (s.workers w).pc = .run

/-- The accounts are in order: every worker's counter is the number of its clients, none of them
below zero, and the total is their sum. -/
def Balanced (s : State cfg) : Prop :=
  (∀ w, (s.workers w).closed ≤ (s.workers w).dispatched ∧
    (s.workers w).num = (s.workers w).dispatched - (s.workers w).closed) ∧
    s.curr = ∑ w, (s.workers w).num

/-- A worker that starts has not been given a client yet. -/
def StartsEmpty (s : State cfg) : Label cfg → Prop
  | .start w => (s.workers w).dispatched = 0
  | _ => True

/-! ## The accounts between the steps -/

/-- Clients counted in `m_curr_connection_num` and not yet in a worker's counter. -/
def pending : MainPc → Nat
  | .wait => 0
  | .accept _ batch | .load _ batch | .add _ batch => batch
  | .dispatch n => n
  | .scan n _ _ _ | .assign n _ => n + 1
  | .forward n _ | .refuse n => n

/-- The client on its way to worker `w`, between its counter and its tunnel. -/
def onItsWay (m : MainPc) (w : Fin cfg.workerCnt) : Nat :=
  match m with
  | .forward _ target => if target = w then 1 else 0
  | _ => 0

/-- A worker the main thread has in hand exists, and forwarding to it does not fail. -/
def TargetOk (cfg : Config) : MainPc → Prop
  | .scan _ _ target _ | .assign _ target | .forward _ target => target < cfg.workerCnt
  | .refuse _ => False
  | _ => True

/-- A client that is closed and still in the worker's counter. -/
def late : WorkerPc → Int
  | .subNum => 1
  | .run | .subCurr => 0

/-- A client that is no longer in the worker's counter and still in the shared one. -/
def owed : WorkerPc → Int
  | .subCurr => 1
  | .run | .subNum => 0

/-- What a worker still contributes to `m_curr_connection_num`. -/
def counted (k : Worker) : Int := k.num + owed k.pc

/-- The accounts of one worker, with `n` clients on their way to it. -/
structure WorkerOk (n : Nat) (k : Worker) : Prop where
  num : k.num = k.dispatched - k.closed + late k.pc
  held : k.dispatched = k.closed + k.inbox + k.live + n
  idle : k.started = false → k.pc = .run ∧ k.closed = 0

namespace WorkerOk

variable {n : Nat} {k : Worker}

variable (h : WorkerOk n k)

include h

theorem assign : WorkerOk (n + 1) k.assign := by
  have hnum := h.num
  have hheld := h.held
  refine ⟨?_, ?_, h.idle⟩
  · simp only [Worker.assign]
    omega
  · simp only [Worker.assign]
    omega

omit h in
theorem forward (h : WorkerOk (n + 1) k) : WorkerOk n k.forward := by
  have hheld := h.held
  refine ⟨h.num, ?_, h.idle⟩
  simp only [Worker.forward]
  omega

/-- A worker without a client has a counter of zero, and storing zero changes nothing. -/
theorem num_of_start (hstart : k.started = false) (hd : k.dispatched = 0) : k.num = 0 := by
  obtain ⟨hpc, hclosed⟩ := h.idle hstart
  rw [h.num, hpc, hd, hclosed]
  rfl

theorem start (hstart : k.started = false) (hd : k.dispatched = 0) : WorkerOk n k.start := by
  refine ⟨?_, h.held, fun h => absurd h (by simp [Worker.start])⟩
  have hnum := h.num
  rw [h.num_of_start hstart hd] at hnum
  exact hnum

theorem create (hinbox : 0 < k.inbox) : WorkerOk n k.create := by
  have hheld := h.held
  refine ⟨h.num, ?_, h.idle⟩
  simp only [Worker.create]
  omega

/-- Entering `close_client_fd`: one client less, with the counter still to follow. -/
theorem giveUp (hstarted : k.started = true) (hpc : k.pc = .run) (hinbox : 0 < k.inbox) :
    WorkerOk n k.giveUp := by
  have hnum := h.num
  have hheld := h.held
  rw [hpc] at hnum
  refine ⟨?_, ?_, fun hs => absurd (hs.symm.trans hstarted) (by simp)⟩
  · simp only [Worker.giveUp, late] at hnum ⊢
    omega
  · simp only [Worker.giveUp]
    omega

theorem release (hstarted : k.started = true) (hpc : k.pc = .run) (hlive : 0 < k.live) :
    WorkerOk n k.release := by
  have hnum := h.num
  have hheld := h.held
  rw [hpc] at hnum
  refine ⟨?_, ?_, fun hs => absurd (hs.symm.trans hstarted) (by simp)⟩
  · simp only [Worker.release, late] at hnum ⊢
    omega
  · simp only [Worker.release]
    omega

theorem subNum (hpc : k.pc = .subNum) : WorkerOk n k.subNum := by
  have hnum := h.num
  rw [hpc] at hnum
  refine ⟨?_, h.held, fun hs => absurd ((h.idle hs).1.symm.trans hpc) (by simp)⟩
  simp only [Worker.subNum, late] at hnum ⊢
  omega

theorem resume (hpc : k.pc = .subCurr) : WorkerOk n k.resume := by
  have hnum := h.num
  rw [hpc] at hnum
  refine ⟨?_, h.held, fun hs => absurd ((h.idle hs).1.symm.trans hpc) (by simp)⟩
  exact hnum

end WorkerOk

/-- The accounts of the system. -/
structure Acct (s : State cfg) : Prop where
  worker : ∀ w, WorkerOk (onItsWay s.main w) (s.workers w)
  curr : s.curr = ∑ w, counted (s.workers w) + pending s.main
  target : TargetOk cfg s.main

theorem acct_init : Acct (init cfg) :=
  ⟨fun _ => ⟨rfl, rfl, fun _ => ⟨rfl, rfl⟩⟩, by simp [init, counted, owed, pending], trivial⟩

theorem acct_ready : Acct (ready cfg) :=
  ⟨fun _ => ⟨rfl, rfl, fun h => absurd h (by simp [ready])⟩, by simp [ready, counted, owed, pending],
    trivial⟩

variable {s : State cfg}

variable (hs : Acct s)

include hs

theorem Acct.target_of {m : MainPc} (hm : s.main = m) : TargetOk cfg m :=
  hm ▸ hs.target

/-- A step of the main thread from `m` on to `m'` that leaves the workers alone. -/
theorem acct_main {m m' : MainPc} {curr : Int} (hm : s.main = m)
    (hway : ∀ w : Fin cfg.workerCnt, onItsWay m' w = onItsWay m w)
    (hcurr : curr - pending m' = s.curr - pending m) (htarget : TargetOk cfg m') :
    Acct { s with curr := curr, main := m' } := by
  subst hm
  refine ⟨fun w => ?_, ?_, htarget⟩
  · show WorkerOk (onItsWay m' w) (s.workers w)
    rw [hway]
    exact hs.worker w
  · show curr = ∑ w, counted (s.workers w) + pending m'
    have := hs.curr
    omega

/-- A step that changes one worker. -/
theorem acct_modify {w : Fin cfg.workerCnt} {f : Worker → Worker} {m : MainPc} {curr : Int}
    (hw : WorkerOk (onItsWay m w) (f (s.workers w)))
    (hway : ∀ v, v ≠ w → onItsWay m v = onItsWay s.main v)
    (hcurr : curr - pending m - counted (f (s.workers w)) =
      s.curr - pending s.main - counted (s.workers w))
    (htarget : TargetOk cfg m) : Acct { s.modify w f with curr := curr, main := m } := by
  refine ⟨fun v => ?_, ?_, htarget⟩
  · show WorkerOk (onItsWay m v) ((s.modify w f).workers v)
    rw [modify_workers]
    split
    · rename_i hv
      rwa [hv]
    · rename_i hv
      rw [hway v hv]
      exact hs.worker v
  · show curr = ∑ v, counted (Function.update s.workers w (f (s.workers w)) v) + pending m
    rw [sum_update (fun _ => counted)]
    have := hs.curr
    omega

/-- A step of a worker that leaves the main thread and the shared counter alone. -/
theorem acct_worker {w : Fin cfg.workerCnt} {f : Worker → Worker}
    (hw : WorkerOk (onItsWay s.main w) (f (s.workers w)))
    (hcurr : counted (f (s.workers w)) = counted (s.workers w)) : Acct (s.modify w f) :=
  acct_modify hs hw (fun _ _ => rfl) (by rw [hcurr]) hs.target

/-- Leaving the accept loop, whichever way, keeps the clients accepted so far. -/
theorem acct_endAccept {m : MainPc} (hm : s.main = m)
    (hway : ∀ w : Fin cfg.workerCnt, onItsWay m w = 0) :
    Acct { s with main := endAccept (pending m) } := by
  unfold endAccept
  split
  · rename_i h0
    exact acct_main hs hm (fun w => (hway w).symm) (by rw [h0]; rfl) trivial
  · exact acct_main hs hm (fun w => (hway w).symm) rfl trivial

omit hs

/-- Nine bits hold the index of every worker. -/
theorem and_0x1FF {target : Nat} (h : target < cfg.workerCnt) : target &&& 0x1FF = target := by
  have := cfg.workerCnt_le
  rw [show 0x1FF = 2 ^ 9 - 1 from rfl, Nat.and_two_pow_sub_one_eq_mod]
  exact Nat.mod_eq_of_lt (by omega)

/-- **The main thread keeps the accounts.** -/
theorem acct_stepMain {s' : State cfg} (hs : Acct s) (h : s.stepMain = some s') : Acct s' := by
  unfold stepMain at h
  cases hm : s.main with
  | wait => simp [hm] at h
  | accept loop batch =>
    simp only [hm] at h
    split at h
    · simp at h
    · cases h
      exact acct_endAccept hs hm fun _ => rfl
  | load loop batch =>
    simp only [hm] at h
    split at h
    · cases h
      exact acct_endAccept hs hm fun _ => rfl
    · cases h
      exact acct_main hs hm (fun _ => rfl) rfl trivial
  | add loop batch =>
    simp only [hm] at h
    cases h
    exact acct_main hs hm (fun _ => rfl) (by simp [pending]) trivial
  | dispatch n =>
    cases n with
    | zero =>
      simp only [hm] at h
      cases h
      exact acct_main hs hm (fun _ => rfl) rfl trivial
    | succ n =>
      simp only [hm] at h
      cases h
      exact acct_main hs hm (fun _ => rfl) rfl cfg.workerCnt_pos
  | scan n idx target num =>
    have htarget : target < cfg.workerCnt := hs.target_of hm
    simp only [hm] at h
    split at h
    · rename_i hidx
      split at h
      · cases h
        exact acct_main hs hm (fun _ => rfl) rfl htarget
      · split at h
        · cases h
          exact acct_main hs hm (fun _ => rfl) rfl hidx
        · cases h
          exact acct_main hs hm (fun _ => rfl) rfl htarget
    · cases h
      refine acct_main hs hm (fun _ => rfl) rfl ?_
      show target &&& 0x1FF < cfg.workerCnt
      rwa [and_0x1FF htarget]
  | assign n target =>
    have htarget : target < cfg.workerCnt := hs.target_of hm
    simp only [hm, dif_pos htarget] at h
    cases h
    have hw := hs.worker ⟨target, htarget⟩
    rw [hm] at hw
    refine acct_modify hs ?_ (fun v hv => ?_) ?_ htarget
    · simpa [onItsWay] using hw.assign
    · have : target ≠ v := fun h => hv (Fin.ext h.symm)
      simp [hm, onItsWay, this]
    · simp only [hm, pending, counted, Worker.assign, modify_curr]
      omega
  | forward n target =>
    have htarget : target < cfg.workerCnt := hs.target_of hm
    simp only [hm, dif_pos htarget] at h
    cases h
    have hw := hs.worker ⟨target, htarget⟩
    rw [hm] at hw
    refine acct_modify hs ?_ (fun v hv => ?_) ?_ trivial
    · exact WorkerOk.forward (by simpa [onItsWay] using hw)
    · have : target ≠ v := fun h => hv (Fin.ext h.symm)
      simp [hm, onItsWay, this]
    · simp only [hm, pending, counted, Worker.forward, modify_curr]
  | refuse n => exact (hs.target_of hm).elim

/-- **Every step keeps the accounts**, if a worker that starts has no client yet. -/
theorem acct_step {s' : State cfg} {l : Label cfg} (hs : Acct s) (hok : StartsEmpty s l)
    (h : s.step l = some s') : Acct s' := by
  cases l with
  | listen =>
    rw [step] at h
    split at h
    · rename_i hm
      cases h
      exact acct_main hs hm (fun _ => rfl) rfl trivial
    · simp at h
  | accept ok =>
    rw [step] at h
    split at h
    · rename_i loop batch hm
      split at h
      · cases h
        cases ok with
        | true => exact acct_main hs hm (fun _ => rfl) rfl trivial
        | false => exact acct_endAccept hs hm fun _ => rfl
      · simp at h
    · simp at h
  | main => exact acct_stepMain hs h
  | start w =>
    rw [step] at h
    split at h
    · simp at h
    · rename_i hstart
      rw [Bool.not_eq_true] at hstart
      cases h
      refine acct_worker hs ((hs.worker w).start hstart hok) ?_
      simp [counted, Worker.start, (hs.worker w).num_of_start hstart hok]
  | newClient w ok =>
    rw [step] at h
    split at h
    · rename_i hc
      obtain ⟨hstarted, hpc, hinbox⟩ := hc
      split at h
      · cases h
        exact acct_worker hs ((hs.worker w).create hinbox) rfl
      · cases h
        refine acct_worker hs ((hs.worker w).giveUp hstarted hpc hinbox) ?_
        simp [counted, Worker.giveUp, owed, hpc]
    · simp at h
  | close w =>
    rw [step] at h
    split at h
    · rename_i hc
      obtain ⟨hstarted, hpc, hlive⟩ := hc
      cases h
      refine acct_worker hs ((hs.worker w).release hstarted hpc hlive) ?_
      simp [counted, Worker.release, owed, hpc]
    · simp at h
  | worker w =>
    rw [step] at h
    cases hpc : (s.workers w).pc with
    | run => simp [hpc] at h
    | subNum =>
      simp only [hpc] at h
      cases h
      refine acct_worker hs ((hs.worker w).subNum hpc) ?_
      simp [counted, Worker.subNum, owed, hpc]
    | subCurr =>
      simp only [hpc] at h
      cases h
      refine acct_modify hs ((hs.worker w).resume hpc) (fun _ _ => rfl) ?_ hs.target
      simp only [counted, Worker.resume, hpc, owed, modify_main]
      omega

/-- Nothing is in progress, so nothing is late or owed. -/
theorem Acct.balanced (hs : Acct s) (hq : Quiescent s) : Balanced s := by
  obtain ⟨hmain, hpc⟩ := hq
  constructor
  · intro w
    have hnum := (hs.worker w).num
    have hheld := (hs.worker w).held
    rw [hpc w] at hnum
    refine ⟨by omega, ?_⟩
    simpa [late] using hnum
  · have hcurr := hs.curr
    simpa [hmain, pending, counted, owed, hpc] using hcurr

/-- **The counters are exact whenever nothing is in progress**, in every run in which no worker
starts after a client was dispatched to it. -/
theorem quiescent_counts (cfg : Config) (ls : List (Label cfg)) (s : State cfg)
    (hstart : Along step StartsEmpty (init cfg) ls) (hrun : exec step (init cfg) ls = some s)
    (hq : Quiescent s) : Balanced s :=
  (exec_invariant acct_step acct_init hstart hrun).balanced hq

/-- One worker, one client. -/
abbrev oneWorker : Config := { workerCnt := 1, maxClientCnt := 1, acceptPerTick := 1 }

/-- The main thread accepts one client and dispatches it to the only worker. -/
def dispatchOne : List (Label oneWorker) :=
  [.listen, .accept true, .main, .main, .main, .main, .main, .main, .main, .main, .main]

instance (s : State cfg) : Decidable (Quiescent s) :=
  inferInstanceAs (Decidable (s.main = .wait ∧ ∀ w, (s.workers w).pc = .run))

instance (s : State cfg) : ∀ l, Decidable (StartsEmpty s l)
  | .start w => inferInstanceAs (Decidable ((s.workers w).dispatched = 0))
  | .listen | .accept _ | .main | .newClient _ _ | .close _ | .worker _ => isTrue trivial

/-- The worker starts, is given a client and creates its connection. -/
theorem quiescent_counts_start_first :
    ∃ s, exec step (init oneWorker) (.start 0 :: dispatchOne ++ [.newClient 0 true]) = some s ∧
      (s.workers 0).live = 1 ∧ Balanced s := by
  refine exists_exec (by decide +kernel) fun s hrun (h : (s.workers 0).live = 1 ∧ Quiescent s) => ?_
  exact ⟨h.1, quiescent_counts _ _ s (by decide +kernel) hrun h.2⟩

/-- **The start-up store comes too late**: a client is dispatched before the worker's thread runs,
and its counter ends at zero with the client unclosed. -/
theorem quiescent_counts_start_late :
    ∃ s, exec step (init oneWorker) (dispatchOne ++ [.start 0]) = some s ∧ Quiescent s ∧
      ¬ Balanced s := by
  refine exists_exec (by decide +kernel) fun s _ (h : Quiescent s ∧
    (s.workers 0).num ≠ (s.workers 0).dispatched - (s.workers 0).closed) => ?_
  exact ⟨h.1, fun hbalanced => h.2 (hbalanced.1 0).2⟩

end State

end Avant.Server
