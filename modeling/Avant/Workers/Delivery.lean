import Avant.Tunnel.Event
import Avant.Workers.Routing

/-!
# Client forward messages in the tunnels

`Forward.lean` takes it that a call of `tunnel_forward` reaches the workers as `deliveries` says.
The network of `Tunnel/Net.lean` does this: **`tunnel_deliveries`**.
-/

namespace Avant.Workers

open Avant.Lib Avant.Proto Avant.Global Avant.Tunnel

variable (pb : Protobuf) (S : UnorderedSet) (P : Process) (s : Net)

/-- The packages that the calls of `tunnel_forward` by thread `x` deliver to thread `d`. -/
def delivered (x d : Int) : List ProtoPackage :=
  (s.forwarded x).flatMap fun f =>
    ((deliveries pb S P x f.1 f.2).filter (·.1 = d)).map (·.2)

/-- The packages from thread `x` that thread `d` has processed. -/
def processedPackages (d x : Int) : List ProtoPackage :=
  ((s.processed d).filter (·.sourceTunnelsId = x)).map (packTunnelPackage pb)

variable {pb S P s} {w v : Nat}

theorem processedPackages_eq (hs : Relayed P.workerCnt pb S s) (d x : Int) :
    processedPackages pb s d x =
      (s.processedFrom d x).map fun m => packTunnelPackage pb ⟨x, [d], m⟩ := by
  obtain ⟨r, hs⟩ := hs
  rw [processedPackages, Net.processedFrom, hs.processed]
  induction r.out d with
  | nil => rfl
  | cons y ys ih => by_cases hy : y.1 = x <;> simp_all

/-- The calls that have been made serialise, where those of the run do. -/
theorem serialises_step {n : Nat} {s s' : Net} {x : Int} {l : NetLabel} (hx : x ≠ mainTunnelId)
    (h : ∀ f ∈ s.forwarded x, Serialises n pb S (.forward x f.1 f.2))
    (hl : Serialises n pb S l) (hstep : s.step n pb S l = some s') :
    ∀ f ∈ s'.forwarded x, Serialises n pb S (.forward x f.1 f.2) := by
  cases l <;> simp only [Net.step] at hstep <;> (repeat' split at hstep) <;> cases hstep <;>
    try exact h
  all_goals
    -- a call is recorded
    simp only [Net.setUp, Net.setDown, Net.note, Function.update_apply]
    split_ifs <;> grind

/-- One call delivers one package to each worker it names. -/
theorem filter_deliveries (hw : w < P.workerCnt) (hv : v < P.workerCnt) {dest : List Int}
    {m : ProtoPackage} (h : pb.Packs ⟨workerTunnelId w, destTunnelIdSet P.workerCnt S dest, m⟩) :
    ((deliveries pb S P (workerTunnelId w) dest m).filter (·.1 = workerTunnelId v)).map (·.2) =
      if workerTunnelId v ∈ dest then
        [packTunnelPackage pb ⟨workerTunnelId w, [workerTunnelId v], m⟩]
      else [] := by
  obtain ⟨all, hall, hnodup, hsub, hsup⟩ := deliveries_eq hw (Option.isSome_of_isSome_bind h)
  have hmem : workerTunnelId v ∈ all ↔ workerTunnelId v ∈ dest :=
    ⟨hsub _, hsup _ (isWorkerTunnelId_workerTunnelId hv)⟩
  have hone : all.filter (· = workerTunnelId v) =
      if workerTunnelId v ∈ dest then [workerTunnelId v] else [] := by
    rw [List.filter_eq, hnodup.count]
    simp only [hmem]
    split <;> rfl
  rw [hall, List.filter_map, List.map_map]
  simp only [Function.comp_def, hone]
  split <;> rfl

/-- **The tunnels do what `deliveries` says.** In every run of the threads, the packages from worker
`w` that worker `v` has processed are the first of those that the calls of `tunnel_forward` by `w`
deliver to `v`, in order, and all of them once the buffers have drained. -/
theorem tunnel_deliveries {ls : List NetLabel} (hw : w < P.workerCnt) (hv : v < P.workerCnt)
    (hser : ∀ l ∈ ls, Serialises P.workerCnt pb S l)
    (hrun : exec (Net.step P.workerCnt pb S) {} ls = some s) :
    processedPackages pb s (workerTunnelId v) (workerTunnelId w) <+:
        delivered pb S P s (workerTunnelId w) (workerTunnelId v) ∧
      (s.Drained → processedPackages pb s (workerTunnelId v) (workerTunnelId w) =
        delivered pb S P s (workerTunnelId w) (workerTunnelId v)) := by
  have hreach : Runs P.workerCnt pb S {} s := ⟨ls, along_of_forall _ hser, hrun⟩
  have hcalls : ∀ f ∈ s.forwarded (workerTunnelId w), Serialises P.workerCnt pb S (.forward _ f.1 f.2) :=
    hreach.invariant (fun h => serialises_step (ne_main_of_hasTunnel (hasTunnel_of_worker
      (isWorkerTunnelId_workerTunnelId hw))) h) nofun
  have hs : Relayed P.workerCnt pb S s := relayed_init.of_runs hreach
  have hdelivered : delivered pb S P s (workerTunnelId w) (workerTunnelId v) =
      (s.forwardedTo (workerTunnelId w) (workerTunnelId v)).map fun m =>
        packTunnelPackage pb ⟨workerTunnelId w, [workerTunnelId v], m⟩ := by
    rw [Net.forwardedTo, List.map_filterMap, List.filterMap_eq_flatMap_toList]
    refine List.flatMap_congr fun f hf => ?_
    rw [filter_deliveries hw hv (hcalls f hf).1]
    split <;> rfl
  obtain ⟨hfirst, hall⟩ := hs.fifo (workerTunnelId w) (isWorkerTunnelId_workerTunnelId hv)
  rw [hdelivered, processedPackages_eq hs]
  exact ⟨hfirst.map _, fun hdrained => congrArg _ (hall hdrained)⟩

theorem tunnel_deliveries_two_to_one :
    ∃ s, exec (Net.step 2 proto3 .inOrder) {} twoToOne = some s ∧
      (processedPackages proto3 s 1 0).length = 1 ∧
      processedPackages proto3 s 1 0 <+: delivered proto3 .inOrder twoWorkers s 0 1 := by
  have hser : ∀ l ∈ twoToOne, Serialises 2 proto3 .inOrder l := by decide +kernel
  exact exists_exec (by decide +kernel) fun s hs h => ⟨h, (tunnel_deliveries (P := twoWorkers)
    (w := 0) (v := 1) (by decide) (by decide) hser hs).1⟩

end Avant.Workers
