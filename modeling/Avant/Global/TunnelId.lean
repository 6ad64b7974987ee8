import Mathlib.Data.List.Dedup
import Mathlib.Tactic.Ring

/-!
# Tunnel ids

Model of `src/global/tunnel_id.h`: the threads of a process are told apart by an `int`, the workers
by their index. `workerCnt` is `m_worker_cnt`.

`UnorderedSet` stands for the iteration order of `std::unordered_set<int>`, about which the standard
says nothing but that every element comes once.
-/

namespace Avant.Global

/-- `PROTO_TUNNEL_WORKER_MIN`. -/
def workerTunnelIdMin : Int := 0

/-- `PROTO_TUNNEL_ID_OTHER`. -/
def otherTunnelId : Int := -1

/-- `PROTO_TUNNEL_ID_MAIN`. -/
def mainTunnelId : Int := -2

/-- `tunnel_id::get_worker_tunnel_id`. -/
def workerTunnelId (workerIdx : Nat) : Int := workerTunnelIdMin + workerIdx

/-- `tunnel_id::get_worker_idx_by_tunnel_id`. -/
def workerIdxByTunnelId (id : Int) : Int := id - workerTunnelIdMin

/-- `tunnel_id::hash_gid_2_worker_tunnel_id`. -/
def hashGid2workerTunnelId (gid : Nat) : Int := workerTunnelId (gid &&& 0x1FF)

variable (workerCnt : Nat)

/-- `tunnel_id::get_worker_tunnel_id_max`. -/
def workerTunnelIdMax : Int := workerCnt - 1

/-- `tunnel_id::is_worker_tunnel_id`. -/
def isWorkerTunnelId (id : Int) : Bool :=
  workerTunnelIdMin ≤ id && id ≤ workerTunnelIdMax workerCnt

/-- `tunnel_id::is_tunnel_id`. -/
def isTunnelId (id : Int) : Bool :=
  isWorkerTunnelId workerCnt id || otherTunnelId = id || mainTunnelId = id

/-- `tunnel_id::get_worker_all_tunnel_id`. -/
def workerAllTunnelId : List Int := (List.range workerCnt).map workerTunnelId

/-- The thread has a tunnel to the main thread. -/
def hasTunnel (id : Int) : Bool := isWorkerTunnelId workerCnt id || otherTunnelId = id

variable {workerCnt}

@[simp] theorem workerTunnelId_inj {i j : Nat} : workerTunnelId i = workerTunnelId j ↔ i = j := by
  simp [workerTunnelId]

theorem isWorkerTunnelId_workerTunnelId {i : Nat} (h : i < workerCnt) :
    isWorkerTunnelId workerCnt (workerTunnelId i) = true := by
  rw [isWorkerTunnelId, Bool.and_eq_true, decide_eq_true_eq, decide_eq_true_eq]
  unfold workerTunnelIdMin workerTunnelIdMax workerTunnelId workerTunnelIdMin
  omega

variable {id : Int}

theorem isWorkerTunnelId_iff : isWorkerTunnelId workerCnt id = true ↔ 0 ≤ id ∧ id < workerCnt := by
  rw [isWorkerTunnelId, Bool.and_eq_true, decide_eq_true_eq, decide_eq_true_eq]
  unfold workerTunnelIdMin workerTunnelIdMax
  omega

theorem hasTunnel_iff :
    hasTunnel workerCnt id = true ↔ isWorkerTunnelId workerCnt id = true ∨ id = otherTunnelId := by
  rw [hasTunnel, Bool.or_eq_true, decide_eq_true_eq, @eq_comm _ id]

theorem isTunnelId_iff :
    isTunnelId workerCnt id = true ↔ hasTunnel workerCnt id = true ∨ id = mainTunnelId := by
  rw [isTunnelId, Bool.or_eq_true, decide_eq_true_eq, @eq_comm _ id, hasTunnel]

theorem hasTunnel_of_worker (h : isWorkerTunnelId workerCnt id = true) :
    hasTunnel workerCnt id = true :=
  hasTunnel_iff.mpr (.inl h)

theorem ne_main_of_hasTunnel (h : hasTunnel workerCnt id = true) : id ≠ mainTunnelId := by
  rintro rfl
  rcases hasTunnel_iff.mp h with hw | ho
  · have := (isWorkerTunnelId_iff.mp hw).1
    simp [mainTunnelId] at this
  · simp [mainTunnelId, otherTunnelId] at ho

theorem mem_workerAllTunnelId :
    id ∈ workerAllTunnelId workerCnt ↔ isWorkerTunnelId workerCnt id = true := by
  rw [isWorkerTunnelId_iff, workerAllTunnelId, List.mem_map]
  constructor
  · rintro ⟨i, hi, rfl⟩
    rw [List.mem_range] at hi
    simp only [workerTunnelId, workerTunnelIdMin]
    omega
  · rintro ⟨h0, hlt⟩
    refine ⟨id.toNat, List.mem_range.mpr (by omega), ?_⟩
    simp only [workerTunnelId, workerTunnelIdMin]
    omega

/-- The order in which `std::unordered_set<int>` iterates over the elements inserted into it. -/
structure UnorderedSet where
  toList : List Int → List Int
  perm : ∀ l, (toList l).Perm l.dedup

namespace UnorderedSet

variable (S : UnorderedSet)

theorem nodup (l : List Int) : (S.toList l).Nodup := (S.perm l).nodup_iff.mpr l.nodup_dedup

@[simp] theorem mem_toList {l : List Int} {x : Int} : x ∈ S.toList l ↔ x ∈ l := by
  rw [(S.perm l).mem_iff, List.mem_dedup]

/-- Iteration in the order of insertion. -/
def inOrder : UnorderedSet := ⟨List.dedup, fun _ => .refl _⟩

end UnorderedSet

end Avant.Global
