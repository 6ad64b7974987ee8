import Avant.Server.Dispatch

/-!
# No worker is given more than its share

The main thread looks for the worker with the smallest counter by loading the counters one after
the other, while the workers go on closing clients. So the minimum it finds is the minimum of
values that were never all true at once. It is still good enough: while the main thread scans,
counters only fall. `ScanOk` is what the scan knows at worker `idx`: the value it holds, taken `idx`
times, and the counters not yet loaded add up to less than `max_client_cnt`. At the end the value
is at most a `1 / worker_cnt` of that, and the counter it was loaded from is at most the value.

The total is bounded because only the main thread adds to `m_curr_connection_num`, and because a
worker takes a client off its own counter **before** it takes it off the shared one.

Results:
* `load_step`: a step keeps the bounds;
* **`load_bound`**: from a state in which all workers have started, no worker ever has more than
  `ceil(max_client_cnt / worker_cnt)` clients, and its pool has a free slot.
-/

namespace Avant.Server

open Avant.Lib

namespace State

variable {cfg : Config}

/-- The counters of the workers from `idx` on. -/
def numFrom (s : State cfg) (idx : Nat) : Int :=
  ∑ w : Fin cfg.workerCnt, if idx ≤ w.1 then (s.workers w).num else 0

/-- What the scan knows when it has come to worker `idx`. -/
structure ScanOk (s : State cfg) (idx target : Nat) (num : Int) : Prop where
  idx_le : idx ≤ cfg.workerCnt
  first : idx = 0 → target = 0
  behind : 0 < idx → target < idx
  room : num * idx + s.numFrom idx < cfg.maxClientCnt
  low : ∀ h : target < cfg.workerCnt, 0 < idx → (s.workers ⟨target, h⟩).num ≤ num

/-- The bound at each place of the main thread. -/
def MainOk (s : State cfg) : MainPc → Prop
  | .add _ _ => s.curr < cfg.maxClientCnt
  | .scan _ idx target num => ScanOk s idx target num
  | .assign _ target => ∀ h : target < cfg.workerCnt, (s.workers ⟨target, h⟩).num < cfg.share
  | _ => True

/-- The bounds on the counters. -/
structure Load (s : State cfg) : Prop where
  started : ∀ w, (s.workers w).started = true
  curr : s.curr ≤ cfg.maxClientCnt
  num : ∀ w, (s.workers w).num ≤ cfg.share
  main : MainOk s s.main

theorem load_ready : Load (ready cfg) :=
  ⟨fun _ => rfl, Int.natCast_nonneg _, fun _ => Int.natCast_nonneg _, trivial⟩

variable {s s' : State cfg}

theorem numFrom_mono (h : ∀ w, (s'.workers w).num ≤ (s.workers w).num) (idx : Nat) :
    s'.numFrom idx ≤ s.numFrom idx := by
  refine Finset.sum_le_sum fun w _ => ?_
  split
  · exact h w
  · exact Int.le_refl 0

theorem numFrom_succ (s : State cfg) {idx : Nat} (h : idx < cfg.workerCnt) :
    s.numFrom idx = (s.workers ⟨idx, h⟩).num + s.numFrom (idx + 1) := by
  have hsplit : ∀ w : Fin cfg.workerCnt, (if idx ≤ w.1 then (s.workers w).num else 0) =
      (if w = ⟨idx, h⟩ then (s.workers w).num else 0) +
        if idx + 1 ≤ w.1 then (s.workers w).num else 0 := by
    intro w
    rcases Nat.lt_trichotomy w.1 idx with hw | hw | hw
    · simp [Fin.ext_iff, Nat.not_le.mpr hw, Nat.ne_of_lt hw, show ¬ idx + 1 ≤ w.1 by omega]
    · simp [Fin.ext_iff, hw]
    · simp [Fin.ext_iff, Nat.le_of_lt hw, Nat.ne_of_gt hw, show idx + 1 ≤ w.1 from hw]
  unfold numFrom
  rw [Finset.sum_congr rfl fun w _ => hsplit w, Finset.sum_add_distrib, Finset.sum_ite_eq']
  simp

theorem numFrom_workerCnt (s : State cfg) : s.numFrom cfg.workerCnt = 0 := by
  refine Finset.sum_eq_zero fun w _ => ?_
  rw [if_neg (Nat.not_le.mpr w.2)]

/-- **Workers only make room**: the bounds survive whatever lowers the counters and leaves the
main thread where it is. -/
theorem load_mono (hs : Load s) (hmain : s'.main = s.main) (hcurr : s'.curr ≤ s.curr)
    (hstarted : ∀ w, (s'.workers w).started = true)
    (hnum : ∀ w, (s'.workers w).num ≤ (s.workers w).num) : Load s' := by
  refine ⟨hstarted, Int.le_trans hcurr hs.curr, fun w => Int.le_trans (hnum w) (hs.num w), ?_⟩
  have hm := hs.main
  rw [hmain]
  cases h : s.main with
  | add loop batch =>
    rw [h] at hm
    exact Int.lt_of_le_of_lt hcurr hm
  | scan n idx target num =>
    rw [h] at hm
    refine { hm with room := ?_, low := fun ht hidx => ?_ }
    · have := numFrom_mono hnum idx
      have := hm.room
      omega
    · exact Int.le_trans (hnum _) (hm.low ht hidx)
  | assign n target =>
    rw [h] at hm
    exact fun ht => Int.lt_of_le_of_lt (hnum _) (hm ht)
  | wait | accept _ _ | load _ _ | dispatch _ | forward _ _ | refuse _ => trivial

/-! ## The scan -/

namespace ScanOk

variable {s : State cfg} {idx target : Nat} {num : Int}

/-- The first worker is loaded without a comparison. -/
theorem take_first (hs : ScanOk s idx target num) (h : idx < cfg.workerCnt) (ht : target = idx) :
    ScanOk s (idx + 1) target (s.workers ⟨idx, h⟩).num := by
  have hidx : idx = 0 := by
    by_contra hne
    have := hs.behind (Nat.pos_of_ne_zero hne)
    omega
  have hroom := hs.room
  rw [numFrom_succ s h] at hroom
  subst hidx ht
  refine ⟨h, fun h0 => absurd h0 (by simp), fun _ => Nat.zero_lt_one, ?_, fun _ _ => Int.le_refl _⟩
  simpa using hroom

/-- A counter that is not larger than the value held replaces it. -/
theorem take_lower (hs : ScanOk s idx target num) (h : idx < cfg.workerCnt)
    (hle : (s.workers ⟨idx, h⟩).num ≤ num) :
    ScanOk s (idx + 1) idx (s.workers ⟨idx, h⟩).num := by
  have hroom := hs.room
  rw [numFrom_succ s h] at hroom
  refine ⟨h, fun h0 => absurd h0 (by simp), fun _ => Nat.lt_succ_self _, ?_, fun _ _ => Int.le_refl _⟩
  have hmul := Int.mul_le_mul_of_nonneg_right hle (Int.natCast_nonneg idx)
  rw [Int.natCast_succ, Int.mul_add, Int.mul_one]
  omega

/-- A larger counter is passed by. -/
theorem keep (hs : ScanOk s idx target num) (h : idx < cfg.workerCnt) (ht : target ≠ idx)
    (hlt : ¬ (s.workers ⟨idx, h⟩).num ≤ num) : ScanOk s (idx + 1) target num := by
  have hpos : 0 < idx := by
    by_contra hne
    have h0 : idx = 0 := by omega
    exact ht (by rw [hs.first h0, h0])
  have hroom := hs.room
  rw [numFrom_succ s h] at hroom
  refine ⟨h, fun h0 => absurd h0 (by simp), fun _ => Nat.lt_succ_of_lt (hs.behind hpos), ?_,
    fun ht' _ => hs.low ht' hpos⟩
  rw [Int.natCast_succ, Int.mul_add, Int.mul_one]
  omega

/-- **At the end of the scan** the value found, one more, is a share. -/
theorem lt_share (hs : ScanOk s cfg.workerCnt target num) : num < cfg.share := by
  have hroom := hs.room
  rw [numFrom_workerCnt] at hroom
  by_contra hge
  have hpos := cfg.workerCnt_pos
  have hceil : cfg.maxClientCnt ≤ cfg.share * cfg.workerCnt := by
    have := Nat.lt_div_mul_add hpos (a := cfg.maxClientCnt + cfg.workerCnt - 1)
    unfold Config.share
    omega
  have hmul := Int.mul_le_mul_of_nonneg_right (Int.not_lt.mp hge)
    (Int.natCast_nonneg cfg.workerCnt)
  have hcast : (cfg.maxClientCnt : Int) ≤ cfg.share * cfg.workerCnt := by exact_mod_cast hceil
  omega

end ScanOk

/-! ## The steps -/

/-- A step of the main thread that leaves the counters alone. -/
theorem load_main (hs : Load s) {m : MainPc} (hm : MainOk s m) : Load { s with main := m } := by
  refine { hs with main := ?_ }
  cases m with
  | scan n idx target num => exact { hm with }
  | add _ _ => exact hm
  | assign _ _ => exact hm
  | wait | accept _ _ | load _ _ | dispatch _ | forward _ _ | refuse _ => trivial

/-- A step of a worker that keeps it running and does not raise its counter. -/
theorem load_worker (hs : Load s) {w : Fin cfg.workerCnt} {f : Worker → Worker}
    (hstarted : (f (s.workers w)).started = (s.workers w).started)
    (hnum : (f (s.workers w)).num ≤ (s.workers w).num) : Load (s.modify w f) := by
  refine load_mono hs rfl (Int.le_refl _) (fun v => ?_) fun v => ?_
  · rw [modify_workers]
    split
    · rw [hstarted]
      exact hs.started w
    · exact hs.started v
  · rw [modify_workers]
    split
    · rename_i hv
      rwa [hv]
    · exact Int.le_refl _

theorem mainOk_endAccept (batch : Nat) : MainOk s (endAccept batch) := by
  unfold endAccept
  split <;> trivial

/-- Before a scan there is room for the client it is made for. -/
theorem scanOk_start (ha : Acct s) (hs : Load s) {n : Nat} (hm : s.main = .dispatch (n + 1)) :
    ScanOk s 0 0 0 := by
  refine ⟨Nat.zero_le _, fun _ => rfl, fun h => absurd h (by simp), ?_, fun _ h => absurd h (by simp)⟩
  have hcounted : s.numFrom 0 ≤ ∑ w, counted (s.workers w) := by
    refine Finset.sum_le_sum fun w _ => ?_
    rw [if_pos (Nat.zero_le _), counted]
    cases (s.workers w).pc <;> simp [owed]
  have hcurr := ha.curr
  have hmax := hs.curr
  rw [hm] at hcurr
  simp only [pending, Int.natCast_succ] at hcurr
  omega

/-- **The main thread keeps the bounds.** -/
theorem load_stepMain (ha : Acct s) (hs : Load s) (h : s.stepMain = some s') : Load s' := by
  have hmain := hs.main
  unfold stepMain at h
  cases hm : s.main with
  | wait => simp [hm] at h
  | accept loop batch =>
    simp only [hm] at h
    split at h
    · simp at h
    · cases h
      exact load_main hs (mainOk_endAccept batch)
  | load loop batch =>
    simp only [hm] at h
    split at h
    · cases h
      exact load_main hs (mainOk_endAccept batch)
    · rename_i hlt
      cases h
      exact load_main hs (Int.not_le.mp hlt)
  | add loop batch =>
    rw [hm] at hmain
    simp only [hm] at h
    cases h
    exact ⟨hs.started, hmain, hs.num, trivial⟩
  | dispatch n =>
    cases n with
    | zero =>
      simp only [hm] at h
      cases h
      exact load_main hs trivial
    | succ n =>
      simp only [hm] at h
      cases h
      exact load_main hs (scanOk_start ha hs hm)
  | scan n idx target num =>
    have hscan : ScanOk s idx target num := by rwa [hm] at hmain
    simp only [hm] at h
    split at h
    · rename_i hidx
      split at h
      · rename_i ht
        cases h
        exact load_main hs (hscan.take_first hidx ht)
      · rename_i ht
        split at h
        · rename_i hle
          cases h
          exact load_main hs (hscan.take_lower hidx hle)
        · rename_i hle
          cases h
          exact load_main hs (hscan.keep hidx ht hle)
    · rename_i hidx
      obtain rfl : idx = cfg.workerCnt := Nat.le_antisymm hscan.idx_le (Nat.le_of_not_lt hidx)
      have htarget : target < cfg.workerCnt := ha.target_of hm
      cases h
      refine load_main hs fun ht => ?_
      simp only [and_0x1FF htarget]
      exact Int.lt_of_le_of_lt (hscan.low htarget cfg.workerCnt_pos) hscan.lt_share
  | assign n target =>
    have htarget : target < cfg.workerCnt := ha.target_of hm
    have hlt : (s.workers ⟨target, htarget⟩).num < cfg.share := by
      rw [hm] at hmain
      exact hmain htarget
    simp only [hm, dif_pos htarget] at h
    cases h
    refine ⟨fun w => ?_, hs.curr, fun w => ?_, trivial⟩
    · simp only [modify_workers]
      split
      · exact hs.started _
      · exact hs.started w
    · simp only [modify_workers]
      split
      · exact hlt
      · exact hs.num w
  | forward n target =>
    have htarget : target < cfg.workerCnt := ha.target_of hm
    simp only [hm, dif_pos htarget] at h
    cases h
    exact load_main (m := .dispatch n)
      (load_worker (w := ⟨target, htarget⟩) (f := Worker.forward) hs rfl (Int.le_refl _)) trivial
  | refuse n => exact (ha.target_of hm).elim

/-- **Every step keeps the bounds.** -/
theorem load_step {l : Label cfg} (ha : Acct s) (hs : Load s) (h : s.step l = some s') :
    Load s' := by
  cases l with
  | listen =>
    rw [step] at h
    split at h
    · cases h
      exact load_main hs trivial
    · simp at h
  | accept ok =>
    rw [step] at h
    split at h
    · split at h
      · cases h
        cases ok with
        | true => exact load_main hs trivial
        | false => exact load_main hs (mainOk_endAccept _)
      · simp at h
    · simp at h
  | main => exact load_stepMain ha hs h
  | start w =>
    rw [step, if_pos (hs.started w)] at h
    simp at h
  | newClient w ok =>
    rw [step] at h
    split at h
    · split at h
      · cases h
        exact load_worker hs rfl (Int.le_refl _)
      · cases h
        exact load_worker hs rfl (Int.le_refl _)
    · simp at h
  | close w =>
    rw [step] at h
    split at h
    · cases h
      exact load_worker hs rfl (Int.le_refl _)
    · simp at h
  | worker w =>
    rw [step] at h
    split at h
    · simp at h
    · cases h
      exact load_worker hs rfl (Int.sub_le_self _ (by decide))
    · cases h
      refine load_mono (load_worker (w := w) (f := Worker.resume) hs rfl (Int.le_refl _)) rfl
        (Int.sub_le_self _ (by decide)) (fun v => ?_) fun _ => Int.le_refl _
      exact (load_worker (w := w) (f := Worker.resume) hs rfl (Int.le_refl _)).started v

/-- Accounts and bounds together: no worker is left to start. -/
theorem acct_load_step {l : Label cfg} (hs : Acct s ∧ Load s) (h : s.step l = some s') :
    Acct s' ∧ Load s' := by
  refine ⟨acct_step hs.1 ?_ h, load_step hs.1 hs.2 h⟩
  cases l with
  | start w =>
    rw [step, if_pos (hs.2.started w)] at h
    simp at h
  | listen | accept _ | main | newClient _ _ | close _ | worker _ => trivial

/-- **The load of a worker.** From a server whose workers have all started, in every interleaving
of accepts, dispatches and closes, a worker never has more than its share of clients dispatched
and not closed, and `alloc_connection` finds a free slot in its pool. -/
theorem load_bound (cfg : Config) (ls : List (Label cfg)) (s : State cfg)
    (hrun : exec step (ready cfg) ls = some s) (w : Fin cfg.workerCnt) :
    (s.workers w).dispatched ≤ (s.workers w).closed + cfg.share ∧
      (s.workers w).live + 1 < cfg.poolSlots := by
  obtain ⟨ha, hl⟩ : Acct s ∧ Load s :=
    exec_invariant (fun hs _ h => acct_load_step hs h) ⟨acct_ready, load_ready⟩
      (along_true ls _) hrun
  have hnum := (ha.worker w).num
  have hheld := (ha.worker w).held
  have hshare := hl.num w
  have hlate : 0 ≤ late (s.workers w).pc := by cases (s.workers w).pc <;> decide
  unfold Config.poolSlots Config.workerMaxClientCnt
  omega

/-- Two workers. -/
abbrev twoWorkers : Config := { workerCnt := 2, maxClientCnt := 3, acceptPerTick := 2 }

/-- Two clients are accepted at once. The first goes to worker 1, which closes it while the main
thread looks for a worker for the second, after it has loaded the counter of worker 0. -/
def closeDuringScan : List (Label twoWorkers) :=
  [.listen, .accept true, .main, .main, .accept true, .main, .main, .main] ++
    List.replicate 6 .main ++ [.newClient 1 true, .main, .main, .close 1, .worker 1, .main,
      .worker 1] ++ List.replicate 3 .main ++ [.newClient 1 true]

theorem load_bound_close_during_scan :
    ∃ s, exec step (ready twoWorkers) closeDuringScan = some s ∧
      ((s.workers 1).live = 1 ∧ (s.workers 1).dispatched = 2 ∧ (s.workers 1).closed = 1) ∧
      (s.workers 1).dispatched ≤ (s.workers 1).closed + twoWorkers.share ∧
      (s.workers 1).live + 1 < twoWorkers.poolSlots :=
  exists_exec (by decide +kernel) fun s hrun h => ⟨h, load_bound twoWorkers _ s hrun 1⟩

end State

end Avant.Server
