import Avant.Lib.Machine

/-!
# Hot reload

`SIGUSR1` asks for a reload of all Lua states. Its handler sets `g_reload_request`
(`src/system/signal_channel.h`), the main thread finds it in `process_signal_requests`
(`src/server/server.cpp`) and sets a flag for each Lua state (`lua_plugin::reload`,
`src/app/lua_plugin.cpp`); each thread finds its own in a tick, clears it and reloads.

A step is one access to a variable that threads share, in any order of the threads. The flags of
the workers are a `std::vector<bool>`: 64 of them share a word, and to set or clear one is a load and
a store of the word. (Without a lock C++ promises nothing here; that each is done at once is the
mildest reading.)

Left out: the self-pipe, which only ends the main thread's wait (every turn calls
`process_signal_requests`), and what a stop does, except that it drops a reload.

Results:
* `kept_step`: a reload that is due stays on its way, where no second worker writes to the flags;
* **`reload_none_lost`**: so no reload of the main thread or the other thread gets lost, and none of
  a worker exactly when there is at most one.
-/

namespace Avant.Server

open Avant.Lib

/-- The Lua states: of the main thread, of each worker, of the other thread. -/
inductive LuaVm
  | main
  | worker (idx : Nat)
  | other
  deriving DecidableEq

/-- Their flags are in one word. -/
@[grind] def LuaVm.sameWord : LuaVm → LuaVm → Bool
  | .worker i, .worker j => i / 64 = j / 64
  | u, v => u = v

/-- Where the main thread is. -/
inductive MainAt
  /-- outside `process_signal_requests` -/
  | loop
  /-- it has loaded `g_stop_request` -/
  | stopLoaded (stopRequested : Bool)
  /-- it has found `g_reload_request` set -/
  | reloadFound (stopRequested : Bool)
  /-- in `lua_plugin::reload`, before the flag of worker `i` -/
  | setting (i : Nat)
  /-- it has loaded the word of that flag -/
  | storing (i : Nat) (word : LuaVm → Bool)

/-- It is in `lua_plugin::reload`, before the flag of a Lua state. -/
@[grind] def MainAt.sets : MainAt → LuaVm → Prop
  | .setting i, .worker idx | .storing i _, .worker idx => i ≤ idx
  | .setting _, .other | .storing _ _, .other => True
  | _, _ => False

/-- Where a thread is in its tick. -/
inductive TickAt
  | idle
  /-- it has found its flag set -/
  | found
  /-- it has loaded the word of the flag -/
  | storing (word : LuaVm → Bool)
  /-- it has cleared the flag -/
  | reload

/-- What the threads share, and where they are. -/
structure Control where
  /-- `g_stop_request` -/
  stopRequest : Bool := false
  /-- `g_reload_request` -/
  reloadRequest : Bool := false
  /-- `lua_state_be_reload`, `worker_lua_state_be_reload`, `other_lua_state_be_reload` -/
  flag : LuaVm → Bool := fun _ => false
  mainAt : MainAt := .loop
  tickAt : LuaVm → TickAt := fun _ => .idle
  /-- the Lua states that have begun no reload since the last `SIGUSR1` -/
  due : LuaVm → Bool := fun _ => false

/-- What happens next. -/
inductive ControlLabel
  /-- `signal_usr1` -/
  | usr1
  /-- `signal_term` or `signal_int` -/
  | term
  /-- the main thread goes on with `process_signal_requests`, or calls it -/
  | main
  /-- a thread goes on with its tick, or begins one -/
  | tick (vm : LuaVm)

namespace Control

/-- The word of a flag is stored as it was loaded, except for the flag. -/
def storeFlag (s : Control) (word : LuaVm → Bool) (vm : LuaVm) (b : Bool) : Control :=
  { s with flag := Function.update (fun u => if u.sameWord vm then word u else s.flag u) vm b }

/-- `process_signal_requests`. -/
def processSignalRequests (workerCnt : Nat) (s : Control) : Control :=
  match s.mainAt with
  | .loop => { s with mainAt := .stopLoaded s.stopRequest }
  | .stopLoaded stopRequested =>
    { s with mainAt := if s.reloadRequest then .reloadFound stopRequested else .loop }
  | .reloadFound stopRequested =>
    if stopRequested then { s with reloadRequest := false, mainAt := .loop }
    else
      { s with
        reloadRequest := false, flag := Function.update s.flag .main true, mainAt := .setting 0 }
  | .setting i =>
    if i < workerCnt then { s with mainAt := .storing i s.flag }
    else { s with flag := Function.update s.flag .other true, mainAt := .loop }
  | .storing i word => { s.storeFlag word (.worker i) true with mainAt := .setting (i + 1) }

/-- `on_main_tick`, `on_worker_tick` and `on_other_tick`. -/
def onTick (s : Control) (vm : LuaVm) : Control :=
  let go (s : Control) (t : TickAt) : Control := { s with tickAt := Function.update s.tickAt vm t }
  match s.tickAt vm with
  | .idle => if s.flag vm then go s .found else s
  | .found => go s (.storing s.flag)
  | .storing word => go (s.storeFlag word vm false) .reload
  | .reload => go { s with due := Function.update s.due vm false } .idle

/-- The main thread begins no tick within `process_signal_requests`. -/
def mayTick (workerCnt : Nat) (s : Control) : LuaVm → Bool
  | .main => (s.mainAt matches .loop)
  | .worker idx => idx < workerCnt
  | .other => true

/-- One access of one thread. -/
def step (workerCnt : Nat) (s : Control) : ControlLabel → Option Control
  | .usr1 => some { s with reloadRequest := true, due := fun _ => true }
  | .term => some { s with stopRequest := true }
  | .main => if s.tickAt .main matches .idle then some (s.processSignalRequests workerCnt) else none
  | .tick vm => if s.mayTick workerCnt vm then some (s.onTick vm) else none

/-- A reload is on its way: it is requested, its flag is about to be set or is set, or its thread
has found the flag. -/
@[grind] def Coming (s : Control) (vm : LuaVm) : Prop :=
  s.reloadRequest = true ∨ s.mainAt.sets vm ∨ s.flag vm = true ∨ s.tickAt vm ≠ .idle

/-- In every run, a reload that is due is on its way, or the process is to stop. -/
def NoneLost (workerCnt : Nat) (vm : LuaVm) : Prop :=
  ∀ ls s, exec (step workerCnt) {} ls = some s → s.due vm = true →
    s.Coming vm ∨ s.stopRequest = true

/-! ## No second worker -/

/-- What the runs keep for a Lua state. -/
structure Kept (workerCnt : Nat) (vm : LuaVm) (s : Control) : Prop where
  coming : s.due vm = true → s.Coming vm ∨ s.stopRequest = true
  stop : s.mainAt = .stopLoaded true ∨ s.mainAt = .reloadFound true → s.stopRequest = true
  storing : ∀ i word, s.mainAt = .storing i word → i < workerCnt

variable {workerCnt : Nat} {vm u : LuaVm} {s s' : Control}

section Alone

variable (hvm : ∀ idx, vm = .worker idx → idx = 0 ∧ workerCnt = 1)

include hvm

/-- The main thread goes on. -/
theorem Kept.processSignalRequests (h : Kept workerCnt vm s) :
    Kept workerCnt vm (s.processSignalRequests workerCnt) := by
  obtain ⟨hcoming, hstop, hstoring⟩ := h
  unfold Control.processSignalRequests storeFlag
  cases hat : s.mainAt with
  | loop | stopLoaded _ | storing _ _ =>
    constructor <;> cases vm <;> grind [Function.update_apply]
  | reloadFound _ | setting _ =>
    dsimp only
    split <;> constructor <;> cases vm <;> grind [Function.update_apply]

/-- A thread goes on. What it clears is its own flag, and there is no other one in the word. -/
theorem Kept.onTick (h : Kept workerCnt vm s) (hu : ∀ idx, u = .worker idx → idx < workerCnt) :
    Kept workerCnt vm (s.onTick u) := by
  unfold Control.onTick
  dsimp only
  have hword (hne : vm ≠ u) : vm.sameWord u = false := by cases vm <;> cases u <;> grind
  split
  · split
    · refine ⟨?_, h.stop, h.storing⟩
      by_cases heq : vm = u
      · simp [Coming, heq]
      · simpa [Coming, heq] using h.coming
    · exact h
  all_goals
    refine ⟨?_, h.stop, h.storing⟩
    by_cases heq : vm = u
    · simp [Coming, heq]
    · simpa [Coming, storeFlag, heq, hword] using h.coming

/-- **A reload that is due stays on its way.** -/
theorem kept_step {l : ControlLabel} (h : Kept workerCnt vm s)
    (hstep : s.step workerCnt l = some s') : Kept workerCnt vm s' := by
  cases l with
  | usr1 =>
    cases hstep
    exact ⟨fun _ => .inl (.inl rfl), h.stop, h.storing⟩
  | term =>
    cases hstep
    exact ⟨fun _ => .inr rfl, fun _ => rfl, h.storing⟩
  | main =>
    rw [step] at hstep
    split_ifs at hstep
    cases hstep
    exact h.processSignalRequests hvm
  | tick u =>
    rw [step] at hstep
    split_ifs at hstep with hu
    cases hstep
    refine h.onTick hvm fun idx heq => ?_
    subst heq
    exact of_decide_eq_true hu

theorem noneLost : NoneLost workerCnt vm := by
  intro ls s hrun
  have hinit : Kept workerCnt vm {} := ⟨by simp, by simp, by simp⟩
  exact (exec_invariant (fun h _ hstep => kept_step hvm h hstep) hinit (along_true ls _) hrun).coming

end Alone

/-! ## A second worker -/

/-- Worker 0 loads the word when its own flag has been set, and stores it when that of worker 1
has. -/
def lostRun : List ControlLabel :=
  [.usr1, .main, .main, .main, .main, .main, .tick (.worker 0), .tick (.worker 0), .main, .main,
    .tick (.worker 0)]

/-- **The reload of worker 1 gets lost**, however many more workers there are. -/
theorem not_noneLost (n : Nat) : ¬ NoneLost (n + 2) (.worker 1) := by
  intro h
  rcases h lostRun _ rfl rfl with (hrequest | hsets | hflag | htick) | hstop
  · exact Bool.false_ne_true hrequest
  · exact Nat.not_succ_le_self 1 hsets
  · exact Bool.false_ne_true hflag
  · exact htick rfl
  · exact Bool.false_ne_true hstop

/-- **Which reloads may get lost**: none of the main thread or the other thread, and none of a
worker exactly when there is at most one. -/
theorem reload_none_lost (workerCnt : Nat) :
    NoneLost workerCnt .main ∧ NoneLost workerCnt .other ∧
      ((∀ idx < workerCnt, NoneLost workerCnt (.worker idx)) ↔ workerCnt ≤ 1) := by
  refine ⟨noneLost nofun, noneLost nofun, fun h => ?_, fun hle idx hidx => noneLost ?_⟩
  · by_contra hgt
    obtain ⟨n, rfl⟩ : ∃ n, workerCnt = n + 2 := ⟨workerCnt - 2, by omega⟩
    exact not_noneLost n (h 1 (by omega))
  · intro j hj
    cases hj
    omega

end Control

end Avant.Server
