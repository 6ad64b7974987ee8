import Mathlib.Data.Nat.Bitwise
import Avant.Lib.Epoch
import Avant.Server.Dispatch
import Avant.Workers.Forward

/-!
# The gids of connections

Model of the two generators of gids: `server::server_gen_gid` with the accept loop and
`on_listen_event` (`src/server/server.cpp`), which give every client its gid, and
`other::other_gen_gid` (`src/workers/other.cpp`) for the connections to other processes. Both keep
a sequence number and the second of the latest tick, and both set the number back to zero when the
second they read **differs** from that; the clock is `system_clock`, so it may have been set back.

`scanWorkers` is the scan for a worker without the threads; `scan_run` says that the one of
`Dispatch.lean`, between whose steps the workers take theirs, finds what it finds.

The generators are compared with the counter of `Lib/Epoch.lean`, the seconds being its epochs
(`Tracks`); `gidOf_inj` says that a gid holds its stamp.

Results:
* **`gids_nodup`**: in a run in which the clock does not return to a second in which it has issued a
  gid, no gid is issued twice, by either generator.
-/

namespace Avant.Server

open Avant.Lib

/-- `m_gid_seq` and `m_latest_tick_time`, of the server or of the other thread. -/
structure GidGen where
  gidSeq : Nat := 0
  latestTickTime : Nat
  deriving DecidableEq

namespace GidGen

/-- The tick of the two main loops. -/
def tick (now : Nat) (g : GidGen) : GidGen :=
  if g.latestTickTime ≠ now then ⟨0, now⟩ else g

/-- `m_gid_seq++`. -/
def advance (g : GidGen) : GidGen := ⟨(g.gidSeq + 1) % 2 ^ 64, g.latestTickTime⟩

/-- `server::server_gen_gid`, with what it does to `m_gid_seq`. -/
def serverGenGid (g : GidGen) : Nat × GidGen :=
  (Workers.serverGenGid g.latestTickTime g.gidSeq, g.advance)

/-- `other::other_gen_gid`. -/
def otherGenGid (g : GidGen) : Nat × GidGen :=
  ((g.latestTickTime <<< 32) % 2 ^ 64 ||| g.gidSeq, g.advance)

/-- The gids of `n` clients that one accept loop takes. -/
def acceptGids : Nat → GidGen → List Nat × GidGen
  | 0, g => ([], g)
  | n + 1, g =>
    let r := acceptGids n g.serverGenGid.2
    (g.serverGenGid.1 :: r.1, r.2)

end GidGen

/-- The loop of `on_listen_event` over the workers from `idx` on, with what it loads of each. -/
def scanWorkers : Nat → Nat → Int → List Int → Nat
  | _, target, _, [] => target
  | idx, target, num, load :: loads =>
    if target = idx then scanWorkers (idx + 1) target load loads
    else if load ≤ num then scanWorkers (idx + 1) idx load loads
    else scanWorkers (idx + 1) target num loads

/-- `target_worker_idx`: 9 bits. -/
def targetWorkerIdx (loads : List Int) : Nat := scanWorkers 0 0 0 loads &&& 0x1FF

/-- `real_gid`, for the connection counters that `on_listen_event` found. -/
def realGid (gid : Nat) (loads : List Int) : Nat := Workers.realGid gid (targetWorkerIdx loads)

/-! ## The scan of the main thread -/

section Scan

variable {cfg : Config} {s s' : State cfg} {ls : List (Label cfg)} {n idx target : Nat} {num : Int}

/-- The label of the main thread. -/
def Label.isMain : Label cfg → Bool
  | .main => true
  | _ => false

/-- The main thread is in `on_listen_event`. -/
def MainPc.dispatching : MainPc → Bool
  | .scan .. | .assign .. => true
  | _ => false

/-- The others leave the main thread where it is. -/
theorem main_of_step {l : Label cfg} (hl : l.isMain = false) (hpc : s.main.dispatching = true)
    (h : s.step l = some s') : s'.main = s.main := by
  cases l with
  | main => cases hl
  | listen =>
    obtain ⟨hm, -⟩ := Option.ite_none_right_eq_some.mp h
    simp [hm, MainPc.dispatching] at hpc
  | accept ok =>
    rw [State.step] at h
    split at h
    · simp_all [MainPc.dispatching]
    · cases h
  | start w =>
    obtain ⟨-, h⟩ := Option.ite_none_left_eq_some.mp h
    cases h
    rfl
  | newClient w ok =>
    obtain ⟨-, h⟩ := Option.ite_none_right_eq_some.mp h
    split_ifs at h <;> · cases h; rfl
  | close w =>
    obtain ⟨-, h⟩ := Option.ite_none_right_eq_some.mp h
    cases h
    rfl
  | worker w =>
    rw [State.step] at h
    split at h <;> · cases h <;> rfl

/-- **The scan finds what `scanWorkers` finds** in the counters it loads, whatever the workers do in
between. -/
theorem scan_run (hidx : idx ≤ cfg.workerCnt) (hmain : s.main = .scan n idx target num)
    (hcount : ls.countP Label.isMain = cfg.workerCnt - idx + 1)
    (hrun : exec State.step s ls = some s') :
    ∃ loads, loads.length = cfg.workerCnt - idx ∧
      s'.main = .assign n (scanWorkers idx target num loads &&& 0x1FF) := by
  induction ls generalizing s idx target num with
  | nil => simp at hcount
  | cons l ls ih =>
    obtain ⟨s₁, h₁, hrun⟩ := exec_cons_eq_some.mp hrun
    cases hl : l.isMain with
    | false =>
      have hm := main_of_step hl (by rw [hmain]; rfl) h₁
      rw [List.countP_cons_of_neg (by simp [hl])] at hcount
      exact ih hidx (hm.trans hmain) hcount hrun
    | true =>
      rw [List.countP_cons_of_pos hl] at hcount
      obtain rfl : l = .main := by
        cases l <;> first | rfl | cases hl
      rw [State.step, State.stepMain, hmain] at h₁
      dsimp only at h₁
      split_ifs at h₁ with hlt ht hle <;> cases h₁
      · obtain ⟨loads, hlen, hend⟩ := ih hlt rfl (by omega) hrun
        exact ⟨_ :: loads, by simp; omega, by rw [scanWorkers, if_pos ht]; exact hend⟩
      · obtain ⟨loads, hlen, hend⟩ := ih hlt rfl (by omega) hrun
        exact ⟨_ :: loads, by simp; omega, by rw [scanWorkers, if_neg ht, if_pos hle]; exact hend⟩
      · obtain ⟨loads, hlen, hend⟩ := ih hlt rfl (by omega) hrun
        exact ⟨_ :: loads, by simp; omega, by rw [scanWorkers, if_neg ht, if_neg hle]; exact hend⟩
      · -- the scan is done, and nobody else moves the main thread
        have hnone : ∀ l ∈ ls, l.isMain = false := by
          simpa using List.countP_eq_zero.mp (by omega : ls.countP Label.isMain = 0)
        refine ⟨[], by simp; omega, ?_⟩
        exact exec_invariant (fun hm hl h => (main_of_step hl (by rw [hm]; rfl) h).trans hm) rfl
          (along_of_forall _ hnone) hrun

end Scan

/-! ## The two threads -/

/-- A generator and the gids issued for connections, in order. -/
structure GidState where
  gen : GidGen
  issued : List Nat := []
  deriving DecidableEq

namespace GidState

/-- The start of a main loop, at second `now`. -/
def init (now : Nat) : GidState := { gen := { latestTickTime := now } }

/-- A tick, at which the clock shows `now`. -/
def tick (now : Nat) (s : GidState) : GidState := { s with gen := s.gen.tick now }

end GidState

/-- What the main thread does: ticks, the gids of the tunnels at start-up, and the clients of a
listen event, with the counters found for each. -/
inductive ServerLabel
  | tick (now : Nat)
  | tunnel
  | listen (loads : List (List Int))
  deriving DecidableEq

/-- A step of the main thread. -/
def serverStep (s : GidState) : ServerLabel → Option GidState
  | .tick now => some (s.tick now)
  | .tunnel => some { s with gen := s.gen.serverGenGid.2 }
  | .listen loads =>
    let r := s.gen.acceptGids loads.length
    some { s with gen := r.2, issued := s.issued ++ List.zipWith realGid r.1 loads }

/-- What the other thread does: ticks, and new connections. -/
inductive OtherLabel
  | tick (now : Nat)
  | connection
  deriving DecidableEq

/-- A step of the other thread. -/
def otherStep (s : GidState) : OtherLabel → Option GidState
  | .tick now => some (s.tick now)
  | .connection =>
    some { s with gen := s.gen.otherGenGid.2, issued := s.issued ++ [s.gen.otherGenGid.1] }

/-- The clock shows less than 2³² seconds. -/
def Shows (now : Nat) : Prop := now < 2 ^ 32

/-- `n` more gids keep the number since the last change of the second below 2²³. -/
def Room (n : Nat) (s : GidState) : Prop := s.gen.gidSeq + n < 2 ^ 23

/-- The clock does not return to a second it has left, if a gid was issued in it. -/
def NoReturn (now : Nat) (s : GidState) : Prop :=
  now = s.gen.latestTickTime ∨ ∀ gid ∈ s.issued, gid / 2 ^ 32 ≠ now

instance (now : Nat) : Decidable (Shows now) := inferInstanceAs (Decidable (_ < _))
instance (n : Nat) (s : GidState) : Decidable (Room n s) := inferInstanceAs (Decidable (_ < _))
instance (now : Nat) (s : GidState) : Decidable (NoReturn now s) :=
  inferInstanceAs (Decidable (_ ∨ _))

/-- The readings and numbers of gids that are considered, of the server. -/
def ServerFits (s : GidState) : ServerLabel → Prop
  | .tick now => Shows now
  | .tunnel => Room 1 s
  | .listen loads => Room loads.length s

/-- The readings and numbers of gids that are considered, of the other thread. -/
def OtherFits (s : GidState) : OtherLabel → Prop
  | .tick now => Shows now
  | .connection => Room 1 s

/-- A tick of the server does not return to a second with a gid. -/
def ServerForward (s : GidState) : ServerLabel → Prop
  | .tick now => NoReturn now s
  | _ => True

/-- A tick of the other thread does not return to a second with a gid. -/
def OtherForward (s : GidState) : OtherLabel → Prop
  | .tick now => NoReturn now s
  | _ => True

instance (s : GidState) : (l : ServerLabel) → Decidable (ServerFits s l)
  | .tick now => inferInstanceAs (Decidable (Shows now))
  | .tunnel => inferInstanceAs (Decidable (Room 1 s))
  | .listen loads => inferInstanceAs (Decidable (Room loads.length s))

instance (s : GidState) : (l : OtherLabel) → Decidable (OtherFits s l)
  | .tick now => inferInstanceAs (Decidable (Shows now))
  | .connection => inferInstanceAs (Decidable (Room 1 s))

instance (s : GidState) : (l : ServerLabel) → Decidable (ServerForward s l)
  | .tick now => inferInstanceAs (Decidable (NoReturn now s))
  | .tunnel | .listen _ => isTrue trivial

instance (s : GidState) : (l : OtherLabel) → Decidable (OtherForward s l)
  | .tick now => inferInstanceAs (Decidable (NoReturn now s))
  | .connection => isTrue trivial

/-! ## What a gid holds -/

/-- A gid made of a second, a number and, in `k` bits, the index of a worker. -/
def gidOf (k : Nat) (x : (Nat × Nat) × Nat) : Nat := x.1.1 * 2 ^ 32 + x.1.2 * 2 ^ k + x.2

/-- A stamp and an index whose parts do not overlap in a gid. -/
structure Small (k : Nat) (x : (Nat × Nat) × Nat) : Prop where
  second : x.1.1 < 2 ^ 32
  number : x.1.2 < 2 ^ 23
  worker : x.2 < 2 ^ k

section Parts

variable {t q k : Nat}

theorem shifted_eq (h : t < 2 ^ 32) : (t <<< 32) % 2 ^ 64 = t * 2 ^ 32 := by
  rw [Nat.shiftLeft_eq]
  exact Nat.mod_eq_of_lt (by omega)

theorem targetWorkerIdx_lt (loads : List Int) : targetWorkerIdx loads < 2 ^ 9 := by
  unfold targetWorkerIdx
  rw [show 0x1FF = 2 ^ 9 - 1 from rfl, Nat.and_two_pow_sub_one_eq_mod]
  exact Nat.mod_lt _ (by decide)

/-- The three parts of a client's gid. -/
theorem realGid_eq (ht : t < 2 ^ 32) (hq : q < 2 ^ 23) (loads : List Int) :
    realGid (GidGen.serverGenGid ⟨q, t⟩).1 loads = gidOf 9 ((t, q), targetWorkerIdx loads) := by
  have hmask : q &&& 0x7FFFFF = q := by
    rw [show 0x7FFFFF = 2 ^ 23 - 1 from rfl, Nat.and_two_pow_sub_one_eq_mod]
    exact Nat.mod_eq_of_lt hq
  have hgid : (GidGen.serverGenGid ⟨q, t⟩).1 = (t * 2 ^ 23 + q) <<< 9 := by
    show (t <<< 32) % 2 ^ 64 ||| (q &&& 0x7FFFFF) <<< 9 = _
    have hlt : q <<< 9 < 2 ^ 32 := by rw [Nat.shiftLeft_eq]; omega
    rw [shifted_eq ht, hmask, ← Nat.shiftLeft_eq t 32, ← Nat.shiftLeft_add_eq_or_of_lt hlt]
    simp only [Nat.shiftLeft_eq]
    omega
  rw [realGid, Workers.realGid, hgid,
    ← Nat.shiftLeft_add_eq_or_of_lt (targetWorkerIdx_lt loads), Nat.shiftLeft_eq]
  show _ = t * 2 ^ 32 + q * 2 ^ 9 + targetWorkerIdx loads
  omega

theorem otherGid_eq (ht : t < 2 ^ 32) (hq : q < 2 ^ 23) :
    (GidGen.otherGenGid ⟨q, t⟩).1 = gidOf 0 ((t, q), 0) := by
  show (t <<< 32) % 2 ^ 64 ||| q = _
  rw [shifted_eq ht, ← Nat.shiftLeft_eq t 32,
    ← Nat.shiftLeft_add_eq_or_of_lt (show q < 2 ^ 32 by omega), Nat.shiftLeft_eq]
  show _ = t * 2 ^ 32 + q * 2 ^ 0 + 0
  omega

/-- Quotient and remainder are determined. -/
theorem quotient_inj {m a r a' r' : Nat} (hr : r < m) (hr' : r' < m)
    (h : a * m + r = a' * m + r') : a = a' ∧ r = r' := by
  have hdiv := congrArg (· / m) h
  have hm : 0 < m := Nat.zero_lt_of_lt hr
  simp only [Nat.mul_comm _ m, Nat.mul_add_div hm, Nat.div_eq_of_lt hr, Nat.div_eq_of_lt hr',
    Nat.add_zero] at hdiv
  exact ⟨hdiv, Nat.add_left_cancel (hdiv ▸ h)⟩

theorem Small.low (hk : k ≤ 9) {x : (Nat × Nat) × Nat} (hx : Small k x) :
    x.1.2 * 2 ^ k + x.2 < 2 ^ 32 := by
  have hpow : 2 ^ k ≤ 2 ^ 9 := Nat.pow_le_pow_right (by decide) hk
  calc x.1.2 * 2 ^ k + x.2 < x.1.2 * 2 ^ k + 2 ^ k := Nat.add_lt_add_left hx.worker _
    _ = (x.1.2 + 1) * 2 ^ k := by rw [Nat.add_mul, Nat.one_mul]
    _ ≤ 2 ^ 23 * 2 ^ 9 := Nat.mul_le_mul hx.number hpow
    _ = 2 ^ 32 := by decide

/-- The second of a gid. -/
theorem gidOf_div (hk : k ≤ 9) {x : (Nat × Nat) × Nat} (hx : Small k x) :
    gidOf k x / 2 ^ 32 = x.1.1 := by
  have := hx.low hk
  unfold gidOf
  omega

/-- **A gid holds its stamp**, and the worker. -/
theorem gidOf_inj (hk : k ≤ 9) {x y : (Nat × Nat) × Nat} (hx : Small k x) (hy : Small k y)
    (h : gidOf k x = gidOf k y) : x = y := by
  obtain ⟨⟨t, q⟩, w⟩ := x
  obtain ⟨⟨t', q'⟩, w'⟩ := y
  unfold gidOf at h
  rw [Nat.add_assoc, Nat.add_assoc] at h
  obtain ⟨ht, hrest⟩ := quotient_inj (hx.low hk) (hy.low hk) h
  obtain ⟨hq, hw⟩ := quotient_inj hx.worker hy.worker hrest
  simp_all

end Parts

/-! ## The generators and the counter -/

/-- The generator of `s` is at the counter `c`. -/
structure Tracks (s : GidState) (c : EpochCounter Nat) : Prop where
  epoch : c.epoch = s.gen.latestTickTime
  count : c.count = s.gen.gidSeq
  distinct : c.Distinct
  second : c.epoch < 2 ^ 32

/-- The gids that were issued hold the stamps of a counter, in order. -/
def Stamped (k : Nat) (s : GidState) : Prop :=
  ∃ c, Tracks s c ∧ ∃ xs : List ((Nat × Nat) × Nat), s.issued = xs.map (gidOf k) ∧
    xs.map Prod.fst = c.stamps ∧ ∀ x ∈ xs, Small k x

variable {s s' : GidState} {c : EpochCounter Nat} {k n now : Nat}

/-- **Stamped gids are distinct.** -/
theorem Stamped.nodup (hk : k ≤ 9) (h : Stamped k s) : s.issued.Nodup := by
  obtain ⟨c, hc, xs, hissued, hfst, hsmall⟩ := h
  have hstamps : (xs.map Prod.fst).Nodup := hfst ▸ hc.distinct.nodup
  rw [hissued]
  exact (List.Nodup.of_map _ hstamps).map_on
    fun x hx y hy hxy => gidOf_inj hk (hsmall x hx) (hsmall y hy) hxy

theorem stamped_init (h : Shows now) : Stamped k (.init now) :=
  ⟨.start now, ⟨rfl, rfl, EpochCounter.distinct_start now, h⟩, [], rfl, rfl, by simp⟩

/-- A tick. -/
theorem Stamped.tick (hk : k ≤ 9) (h : Stamped k s) (hshows : Shows now) (hback : NoReturn now s) :
    Stamped k (s.tick now) := by
  obtain ⟨c, hc, xs, hissued, hfst, hsmall⟩ := h
  by_cases hnow : s.gen.latestTickTime = now
  · have hsame : s.tick now = s := by
      simp [GidState.tick, GidGen.tick, hnow]
    rw [hsame]
    exact ⟨c, hc, xs, hissued, hfst, hsmall⟩
  · have hnew : s.tick now = ⟨⟨0, now⟩, s.issued⟩ := by
      simp [GidState.tick, GidGen.tick, hnow]
    have hturn : c.turn now = ⟨now, 0, c.stamps⟩ :=
      if_neg fun he => hnow (hc.epoch.symm.trans he.symm)
    have hdistinct : (c.turn now).Distinct := by
      refine hc.distinct.turn (.inr ?_)
      rw [← hfst]
      intro _ hmem hx
      obtain ⟨x, hxs, rfl⟩ := List.mem_map.mp hmem
      refine hback.resolve_left (Ne.symm hnow) (gidOf k x) ?_ ((gidOf_div hk (hsmall x hxs)).trans hx)
      exact hissued ▸ List.mem_map_of_mem hxs
    rw [hturn] at hdistinct
    rw [hnew]
    exact ⟨⟨now, 0, c.stamps⟩, ⟨rfl, rfl, hdistinct, hshows⟩, xs, hissued, hfst, hsmall⟩

/-- `n` numbers are given out, and go into gids. -/
theorem Stamped.take {gids : List Nat} (h : Stamped k s) (hroom : Room n s)
    (ys : List ((Nat × Nat) × Nat))
    (hys : ∀ c, Tracks s c → gids = ys.map (gidOf k) ∧ ys.map Prod.fst = c.next n ∧
      ∀ x ∈ ys, x.2 < 2 ^ k) :
    Stamped k ⟨⟨s.gen.gidSeq + n, s.gen.latestTickTime⟩, s.issued ++ gids⟩ := by
  obtain ⟨c, hc, xs, hissued, hfst, hsmall⟩ := h
  obtain ⟨hgids, hnext, hworker⟩ := hys c hc
  refine ⟨c.take n, ⟨hc.epoch, congrArg (· + n) hc.count, hc.distinct.take n, hc.second⟩, xs ++ ys,
    by rw [hissued, hgids, List.map_append], by rw [List.map_append, hfst, hnext]; rfl,
    List.forall_mem_append.mpr ⟨hsmall, fun x hx => ?_⟩⟩
  obtain ⟨hepoch, -, hlt⟩ := EpochCounter.mem_next (hnext ▸ List.mem_map_of_mem hx)
  unfold Room at hroom
  rw [hc.count] at hlt
  exact ⟨hepoch ▸ hc.second, by omega, hworker x hx⟩

/-- The gids of a listen event, each with its worker. -/
theorem acceptGids_eq : ∀ (loads : List (List Int)) (g : GidGen), g.latestTickTime < 2 ^ 32 →
    g.gidSeq + loads.length < 2 ^ 23 →
    List.zipWith realGid (g.acceptGids loads.length).1 loads =
        (List.zip ((List.range loads.length).map fun i => (g.latestTickTime, g.gidSeq + i))
          (loads.map targetWorkerIdx)).map (gidOf 9) ∧
      (g.acceptGids loads.length).2 = ⟨g.gidSeq + loads.length, g.latestTickTime⟩
  | [], _, _, _ => ⟨rfl, rfl⟩
  | l :: loads, g, ht, hq => by
    rw [List.length_cons] at hq
    have hadvance : g.serverGenGid.2 = ⟨g.gidSeq + 1, g.latestTickTime⟩ :=
      congrArg (GidGen.mk · _) (Nat.mod_eq_of_lt (by omega))
    obtain ⟨hgids, hgen⟩ := acceptGids_eq loads ⟨g.gidSeq + 1, g.latestTickTime⟩ ht
      (by show g.gidSeq + 1 + loads.length < _; omega)
    rw [List.length_cons, GidGen.acceptGids, hadvance]
    constructor
    · have hshift : (fun i => (g.latestTickTime, g.gidSeq + i)) ∘ Nat.succ =
          fun i => (g.latestTickTime, g.gidSeq + 1 + i) := by
        funext i
        simp only [Function.comp_apply, Nat.succ_eq_add_one]
        rw [Nat.add_right_comm, Nat.add_assoc]
      rw [List.zipWith_cons_cons, hgids, realGid_eq (q := g.gidSeq) ht (by omega), List.map_cons,
        List.range_succ_eq_map, List.map_cons, List.map_map, hshift, List.zip_cons_cons,
        List.map_cons]
      rfl
    · simp only [hgen]
      congr 1
      omega

/-- A step of the main thread keeps the gids stamped. -/
theorem stamped_serverStep {l : ServerLabel} (h : Stamped 9 s)
    (hok : ServerFits s l ∧ ServerForward s l) (hstep : serverStep s l = some s') :
    Stamped 9 s' := by
  cases l with
  | tick now =>
    obtain rfl : s.tick now = s' := Option.some.inj hstep
    exact h.tick (by decide) hok.1 hok.2
  | tunnel =>
    have hroom : Room 1 s := hok.1
    have hadvance : s.gen.serverGenGid.2 = ⟨s.gen.gidSeq + 1, s.gen.latestTickTime⟩ := by
      unfold Room at hroom
      exact congrArg (GidGen.mk · _) (Nat.mod_eq_of_lt (by omega))
    cases hstep
    rw [hadvance]
    obtain ⟨c, hc, hxs⟩ := h
    exact ⟨c.skip 1, ⟨hc.epoch, congrArg (· + 1) hc.count, hc.distinct.skip 1, hc.second⟩, hxs⟩
  | listen loads =>
    have hroom : Room loads.length s := hok.1
    have htime : s.gen.latestTickTime < 2 ^ 32 := by
      obtain ⟨c, hc, -⟩ := h
      exact hc.epoch ▸ hc.second
    obtain ⟨hgids, hgen⟩ := acceptGids_eq loads s.gen htime hroom
    cases hstep
    simp only [hgids, hgen]
    refine h.take hroom _ fun c hc => ⟨rfl, ?_, fun x hx => ?_⟩
    · rw [List.map_fst_zip (by simp), EpochCounter.next, hc.epoch, hc.count]
    · obtain ⟨l, -, hl⟩ := List.mem_map.mp (List.of_mem_zip hx).2
      exact hl ▸ targetWorkerIdx_lt l

/-- A step of the other thread keeps the gids stamped. -/
theorem stamped_otherStep {l : OtherLabel} (h : Stamped 0 s)
    (hok : OtherFits s l ∧ OtherForward s l) (hstep : otherStep s l = some s') :
    Stamped 0 s' := by
  cases l with
  | tick now =>
    obtain rfl : s.tick now = s' := Option.some.inj hstep
    exact h.tick (by decide) hok.1 hok.2
  | connection =>
    have hroom : Room 1 s := hok.1
    have htime : s.gen.latestTickTime < 2 ^ 32 := by
      obtain ⟨c, hc, -⟩ := h
      exact hc.epoch ▸ hc.second
    have hlt : s.gen.gidSeq + 1 < 2 ^ 23 := hroom
    have hadvance : s.gen.otherGenGid.2 = ⟨s.gen.gidSeq + 1, s.gen.latestTickTime⟩ :=
      congrArg (GidGen.mk · _) (Nat.mod_eq_of_lt (by omega))
    cases hstep
    rw [hadvance]
    refine h.take hroom [((s.gen.latestTickTime, s.gen.gidSeq), 0)] fun c hc => ?_
    refine ⟨congrArg (fun x => [x]) (otherGid_eq htime (Nat.lt_of_succ_lt hlt)), ?_, by simp⟩
    simp [EpochCounter.next, hc.epoch, hc.count]

/-! ## The result -/

/-- **Gids are distinct** in every run in which the clock does not return to a second in which a gid
was issued: those of the clients, and those of the connections of the other thread. -/
theorem gids_nodup (start : Nat) (hstart : Shows start) :
    (∀ (ls : List ServerLabel) (s : GidState),
      Along serverStep (fun s l => ServerFits s l ∧ ServerForward s l) (.init start) ls →
      exec serverStep (.init start) ls = some s → s.issued.Nodup) ∧
    (∀ (ls : List OtherLabel) (s : GidState),
      Along otherStep (fun s l => OtherFits s l ∧ OtherForward s l) (.init start) ls →
      exec otherStep (.init start) ls = some s → s.issued.Nodup) := by
  constructor
  · intro ls s halong hrun
    exact Stamped.nodup (k := 9) (by decide)
      (exec_invariant stamped_serverStep (stamped_init hstart) halong hrun)
  · intro ls s halong hrun
    exact Stamped.nodup (k := 0) (by decide)
      (exec_invariant stamped_otherStep (stamped_init hstart) halong hrun)

/-- A server with two workers that starts at second 100; the clock is set back by a second, and
returns to one in which no client came. And the same of the other thread. -/
theorem gids_nodup_forward :
    ([429496729600 + 1536, 429496729600 + 2049, 425201762305] : List Nat).Nodup ∧
      ([429496729600, 425201762304] : List Nat).Nodup := by
  obtain ⟨hserver, hother⟩ := gids_nodup 100 (by decide)
  refine ⟨hserver [.tunnel, .tunnel, .tunnel, .listen [[0, 2], [1, 1]], .tick 100, .tick 99, .tick 98,
    .tick 99, .listen [[1, 1]]] ⟨⟨1, 99⟩, _⟩ (by decide) (by decide), ?_⟩
  exact hother [.connection, .tick 99, .tick 98, .tick 99, .connection] ⟨⟨1, 99⟩, _⟩
    (by decide) (by decide)

/-- **The clock returns**: it goes back from second 100 to 99 and forth again. The sequence starts
anew at 100, and the second client gets the gid of the first. -/
theorem gids_repeat :
    (∃ ls s, Along serverStep ServerFits (.init 100) ls ∧
      exec serverStep (.init 100) ls = some s ∧ ¬ s.issued.Nodup) ∧
    (∃ ls s, Along otherStep OtherFits (.init 100) ls ∧
      exec otherStep (.init 100) ls = some s ∧ ¬ s.issued.Nodup) := by
  refine ⟨⟨[.tick 101, .listen [[0]], .tick 100, .tick 101, .listen [[0]]],
    ⟨⟨1, 101⟩, [433791696896, 433791696896]⟩, by decide, by decide, by decide⟩, ?_⟩
  exact ⟨[.connection, .tick 99, .tick 100, .connection],
    ⟨⟨1, 100⟩, [429496729600, 429496729600]⟩, by decide, by decide, by decide⟩

end Avant.Server
