import Avant.Lib.Once
import Avant.Proto.Wire
import Avant.Workers.Forward

/-!
# Client forward messages reach their clients once

The calls that a `send_client_forward_message` leads to hit each client it is for exactly once
(`Lib/Once.lean`), piece by piece: a worker's own loop over its clients, the main thread's loop over
the workers, and the caller's split between itself and the others.

Results:
* `realGid_and`, `Owned.alloc`, `Owned.setCtx`, `Owned.release`: gids name the worker that owns the
  connection;
* `hitsOnce_clientForward`: one worker's loops;
* `hitsOnce_deliveries`: the way through the main thread;
* **`forward_once`**: each client that is live, ready and not closing, and whose gid is in the set
  (or any, for an empty set), gets exactly one call, and nothing else gets one.
-/

namespace Avant.Workers

open Avant.Lib Avant.Proto Avant.Global Avant.Conn Avant.Tunnel

/-! ## Gids name workers -/

/-- The gid of a client names the worker it is dispatched to. -/
theorem realGid_and (latestTickTime gidSeq : Nat) {idx : Nat} (h : idx < 512) :
    realGid (serverGenGid latestTickTime gidSeq) idx &&& 0x1FF = idx := by
  have hlow : serverGenGid latestTickTime gidSeq % 2 ^ 9 = 0 := by
    rw [serverGenGid, Nat.or_mod_two_pow, Nat.shiftLeft_eq, Nat.shiftLeft_eq]
    have h₁ : latestTickTime * 2 ^ 32 % 2 ^ 64 % 2 ^ 9 = 0 := by omega
    have h₂ : (gidSeq &&& 0x7FFFFF) * 2 ^ 9 % 2 ^ 9 = 0 := by omega
    rw [h₁, h₂]
    rfl
  calc realGid (serverGenGid latestTickTime gidSeq) idx &&& 0x1FF
      = (serverGenGid latestTickTime gidSeq ||| idx) % 2 ^ 9 := Nat.and_two_pow_sub_one_eq_mod _ 9
    _ = serverGenGid latestTickTime gidSeq % 2 ^ 9 ||| idx % 2 ^ 9 := Nat.or_mod_two_pow
    _ = idx := by rw [hlow, Nat.mod_eq_of_lt h, Nat.zero_or]

namespace Owned

variable {w : Nat} {m : ConnMgr}

theorem init (w poolCapacity : Nat) : Owned w (ConnMgr.init poolCapacity) := by
  intro gid i h
  simp [ConnMgr.init] at h

/-- A slot is given to a client of the worker, or to something without a context. -/
theorem alloc (h : Owned w m) {fd : Int} {gid it : Nat}
    (hgid : gid &&& 0x1FF = w ∨ (m.pool it).hasCtx = false)
    (hfresh : ∀ g, m.gid2index.lookup g ≠ some it) :
    Owned w (m.allocConnection fd gid it).2 := by
  unfold ConnMgr.allocConnection
  split_ifs with hfd hg hidx hempty hit
  · exact h
  · exact h
  · exact h
  · exact h
  swap
  · exact h
  intro g i hg hctx
  dsimp only at hg hctx
  rw [lookup_insert_eq] at hg
  split_ifs at hg with hgg
  · cases hg
    rw [Function.update_self] at hctx
    subst hgg
    rcases hgid with hgid | hno
    · exact hgid
    · exact absurd (hctx.symm.trans hno) (by simp)
  · have hne : i ≠ it := by
      rintro rfl
      exact hfresh g hg
    rw [Function.update_of_ne hne] at hctx
    exact h g i hg hctx

theorem release (h : Owned w m) (fd : Int) : Owned w (m.releaseConnection fd).2 := by
  unfold ConnMgr.releaseConnection
  split
  · exact h
  split
  · exact h
  split
  · exact h
  · rename_i gid _ _ _ index hidx
    intro g i hg hctx
    dsimp only at hg hctx
    rw [lookup_erase_eq] at hg
    split_ifs at hg
    by_cases hi : i = index
    · subst hi
      rw [Function.update_self] at hctx
      exact h g i hg hctx
    · rw [Function.update_of_ne hi] at hctx
      exact h g i hg hctx

/-- `on_new_client_fd` creates the context of a client. -/
theorem setCtx (h : Owned w m) {i : Nat}
    (hgid : ∀ g, m.gid2index.lookup g = some i → g &&& 0x1FF = w) : Owned w (m.setCtx i) := by
  intro g j hg hctx
  by_cases hj : j = i
  · subst hj
    exact hgid g hg
  · rw [ConnMgr.setCtx_pool, Function.update_of_ne hj] at hctx
    exact h g j hg hctx

theorem setConn (h : Owned w m) (i : Nat) (c : Connection) : Owned w (m.setConn i c) := by
  intro g j hg hctx
  by_cases hj : j = i
  · subst hj
    rw [ConnMgr.setConn_pool, Function.update_self] at hctx
    exact h g j hg hctx
  · rw [ConnMgr.setConn_pool, Function.update_of_ne hj] at hctx
    exact h g j hg hctx

end Owned

/-! ## One worker -/

/-- The connection a call is about. -/
def ForwardCall.target (c : ForwardCall) : Nat × Nat := (c.worker, c.index)

/-- The clients of a worker that a message is for. -/
def Addresses (type : TaskType) (w : Nat) (m : ConnMgr) (message : ProtoTunnelClientForwardMessage)
    (i : Nat) : Prop :=
  takesForward type m i = true ∧ ∃ gid, m.gid2index.lookup gid = some i ∧
    (message.targetGid = [] ∨ gid ∈ message.targetGid ∧ hashGid2workerTunnelId gid = workerTunnelId w)

section OneWorker

variable {type : TaskType} {w n : Nat} {m : ConnMgr} {message : ProtoTunnelClientForwardMessage}
  {t : ProtoTunnelPackage}

/-- The connections `on_tunnel_process` goes through. -/
def visited (w : Nat) (m : ConnMgr) (message : ProtoTunnelClientForwardMessage) : List Nat :=
  if message.targetGid = [] then m.gid2index.entries.map (·.2)
  else message.targetGid.filterMap fun gid =>
    if workerTunnelId w = hashGid2workerTunnelId gid then m.getConnByGid gid else none

theorem clientForward_eq (hok : m.Ok n) : clientForward type w m message t =
    ((visited w m message).filter (takesForward type m)).map fun i =>
      ⟨w, i, (m.pool i).gid = message.sourceGid, message, t⟩ := by
  rw [← flatMap_ite_singleton]
  unfold clientForward visited
  by_cases hall : message.targetGid = []
  · rw [if_pos hall, if_pos hall, List.flatMap_map]
    refine List.flatMap_congr fun e he => ?_
    have hlt : e.2 < m.poolCapacity := by
      rw [hok.poolCapacity_eq]
      exact hok.lt_of_lookup (AList.mem_lookup_iff.mpr he)
    have hidx : m.getConnByIdx e.2 = some e.2 := by
      rw [ConnMgr.getConnByIdx, if_neg (by omega)]
    simp only [hidx]
    split
    · rename_i hclosed
      simp [takesForward, hclosed]
    · rfl
  · rw [if_neg hall, if_neg hall, flatMap_filterMap]
    refine List.flatMap_congr fun gid _ => ?_
    by_cases hw : workerTunnelId w = hashGid2workerTunnelId gid
    · rw [if_neg (not_not.mpr hw), if_pos hw]
      cases m.getConnByGid gid <;> rfl
    · rw [if_pos hw, if_neg hw]
      rfl

theorem visited_nodup (hok : m.Ok n) (hgids : message.targetGid.Nodup) :
    (visited w m message).Nodup := by
  unfold visited
  split
  · refine List.Nodup.map_on ?_ m.gid2index.nodupKeys.nodup
    rintro ⟨g, i⟩ he ⟨g', i'⟩ he' (rfl : i = i')
    have := hok.injective g g' i (AList.mem_lookup_iff.mpr he) (AList.mem_lookup_iff.mpr he')
    rw [this]
  · refine hgids.filterMap ?_
    intro g g' i hi hi'
    simp only [ConnMgr.getConnByGid, Option.mem_def] at hi hi'
    split_ifs at hi hi'
    exact hok.injective g g' i hi hi'

theorem mem_visited {i : Nat} : i ∈ visited w m message ↔
    ∃ gid, m.gid2index.lookup gid = some i ∧ (message.targetGid = [] ∨
      gid ∈ message.targetGid ∧ hashGid2workerTunnelId gid = workerTunnelId w) := by
  unfold visited
  split
  · rename_i hall
    rw [List.mem_map]
    constructor
    · rintro ⟨e, he, rfl⟩
      exact ⟨e.1, AList.mem_lookup_iff.mpr he, .inl hall⟩
    · rintro ⟨gid, hgid, -⟩
      exact ⟨⟨gid, i⟩, AList.mem_lookup_iff.mp hgid, rfl⟩
  · rename_i hall
    rw [List.mem_filterMap]
    constructor
    · rintro ⟨gid, hmem, h⟩
      split_ifs at h with hw
      exact ⟨gid, h, .inr ⟨hmem, hw.symm⟩⟩
    · rintro ⟨gid, hgid, h⟩
      obtain ⟨hmem, hw⟩ := h.resolve_left hall
      exact ⟨gid, hmem, by rwa [if_pos hw.symm]⟩

/-- **One worker's loops** call the application once for each client the message is for. -/
theorem hitsOnce_clientForward (hok : m.Ok n) (hgids : message.targetGid.Nodup) :
    HitsOnce ForwardCall.target (clientForward type w m message t)
      fun k => k.1 = w ∧ Addresses type w m message k.2 := by
  rw [clientForward_eq hok]
  refine (HitsOnce.filter_map (visited_nodup hok hgids) ?_).congr ?_
  · intro i j h
    exact (Prod.mk.inj h).2
  · rintro ⟨w', i⟩
    simp only [mem_visited, ForwardCall.target, Prod.mk.injEq, Addresses]
    constructor
    · rintro ⟨j, hj, hp, rfl, rfl⟩
      exact ⟨rfl, hp, hj⟩
    · rintro ⟨rfl, hp, hj⟩
      exact ⟨i, hj, hp, rfl, rfl⟩

end OneWorker

/-! ## Through the main thread -/

section Packages

variable {pb : Protobuf} {S : UnorderedSet} {P : Process}

theorem openPackage_packTunnelPackage {t : ProtoTunnelPackage}
    (h : (pb.tunnel.serialize t).isSome = true) :
    pb.openPackage (packTunnelPackage pb t) = some t := by
  obtain ⟨b, hb⟩ := Option.isSome_iff_exists.mp h
  rw [packTunnelPackage, hb, Protobuf.openPackage, if_neg (by simp)]
  exact pb.tunnel.parse_serialize hb

variable {message : ProtoTunnelClientForwardMessage} {w : Nat}

/-- A worker that gets a client forward message goes through its clients. -/
theorem onTunnelProcess_forward {type : TaskType} {m : ConnMgr} {source : Int} {target : List Int}
    (hmessage : (pb.clientForward.serialize message).isSome = true)
    (htunnel : (pb.tunnel.serialize ⟨source, target, packForward pb message⟩).isSome = true) :
    (onTunnelProcess pb type w m
      (packTunnelPackage pb ⟨source, target, packForward pb message⟩)).calls =
      clientForward type w m message ⟨source, target, packForward pb message⟩ := by
  obtain ⟨b, hb⟩ := Option.isSome_iff_exists.mp hmessage
  have hparse : pb.clientForward.parse (packForward pb message).protocol = some message := by
    rw [packForward, hb]
    exact pb.clientForward.parse_serialize hb
  have hcmd : (packForward pb message).cmd = ProtoCmd.tunnelClientForwardMessage := rfl
  rw [onTunnelProcess, openPackage_packTunnelPackage htunnel]
  simp only [hcmd, hparse]
  rw [if_neg (by decide), if_pos trivial, TunnelOutcome.calls]

variable (pb S P) in
/-- The serialisations of a message from worker `w` to the threads `dest` succeed. -/
def SerialisesForward (w : Nat) (dest : List Int) (message : ProtoTunnelClientForwardMessage) : Prop :=
  (pb.clientForward.serialize message).isSome = true ∧
    (pb.tunnel.serialize ⟨workerTunnelId w, destTunnelIdSet P.workerCnt S dest,
      packForward pb message⟩).isSome = true ∧
    ∀ d ∈ dest, (pb.tunnel.serialize ⟨workerTunnelId w, [d], packForward pb message⟩).isSome = true

instance (w : Nat) (dest : List Int) (message : ProtoTunnelClientForwardMessage) :
    Decidable (SerialisesForward pb S P w dest message) :=
  inferInstanceAs (Decidable (_ ∧ _ ∧ ∀ d ∈ _, _))

/-- **The main thread** forwards one package to each worker it is for. -/
theorem deliveries_eq (hw : w < P.workerCnt) {dest : List Int} {message : ProtoPackage}
    (hser : (pb.tunnel.serialize
      ⟨workerTunnelId w, destTunnelIdSet P.workerCnt S dest, message⟩).isSome = true) :
    ∃ all : List Int, deliveries pb S P (workerTunnelId w) dest message =
        all.map (fun d => (d, packTunnelPackage pb ⟨workerTunnelId w, [d], message⟩)) ∧
      all.Nodup ∧ (∀ d ∈ all, d ∈ dest) ∧
      ∀ d, isWorkerTunnelId P.workerCnt d = true → d ∈ dest → d ∈ all := by
  unfold deliveries
  by_cases hset : destTunnelIdSet P.workerCnt S dest = []
  · refine ⟨[], if_pos hset, List.nodup_nil, by simp, fun d hd hmem => ?_⟩
    have : d ∈ destTunnelIdSet P.workerCnt S dest :=
      mem_destTunnelIdSet.mpr ⟨hmem, hasTunnel_of_worker hd⟩
    rwa [hset] at this
  · have hid : hasTunnel P.workerCnt (workerTunnelId w) = true :=
      hasTunnel_of_worker (isWorkerTunnelId_workerTunnelId hw)
    obtain ⟨all, hall, hnodup, hsub, hsup⟩ := allTarget_eq (S := S) hid hset
    refine ⟨all, ?_, hnodup, fun d hd => (mem_destTunnelIdSet.mp (hsub d hd).1).1,
      fun d hd hmem => hsup d hd (mem_destTunnelIdSet.mpr ⟨hmem, hasTunnel_of_worker hd⟩)⟩
    have hproc : mainTunnelProcess P.workerCnt pb S (packTunnelPackage pb
        ⟨workerTunnelId w, destTunnelIdSet P.workerCnt S dest, message⟩) =
        some (⟨workerTunnelId w, destTunnelIdSet P.workerCnt S dest, message⟩, all) := by
      rw [mainTunnelProcess, openPackage_packTunnelPackage hser, Option.bind_some]
      simp [hall]
    rw [if_neg hset, hproc]
    dsimp only
    rw [← List.filterMap_eq_map]
    refine List.filterMap_congr fun d hd => ?_
    rw [mainTunnelForward_ok (isTunnelId_iff.mpr (.inl hid)) (hsub d hd).2]
    rfl

/-- **Through the main thread**, each client of the workers among `dest` is called once. -/
theorem hitsOnce_deliveries (hw : w < P.workerCnt) {dest : List Int}
    (hser : SerialisesForward pb S P w dest message) (hgids : message.targetGid.Nodup) :
    HitsOnce ForwardCall.target
      ((deliveries pb S P (workerTunnelId w) dest (packForward pb message)).flatMap fun x =>
        P.callsAt pb x.1 x.2)
      fun k => k.1 < P.workerCnt ∧ workerTunnelId k.1 ∈ dest ∧
        Addresses P.type k.1 (P.mgr k.1) message k.2 := by
  obtain ⟨all, hall, hnodup, hsub, hsup⟩ := deliveries_eq hw hser.2.1
  rw [hall, List.flatMap_map]
  have hone : ∀ d ∈ all, HitsOnce ForwardCall.target
      (P.callsAt pb d (packTunnelPackage pb ⟨workerTunnelId w, [d], packForward pb message⟩))
      fun k => k.1 < P.workerCnt ∧ workerTunnelId k.1 = d ∧
        Addresses P.type k.1 (P.mgr k.1) message k.2 := by
    intro d hd
    unfold Process.callsAt
    by_cases hworker : isWorkerTunnelId P.workerCnt d = true
    · have hbound := isWorkerTunnelId_iff.mp hworker
      have hidx : workerTunnelId (workerIdxByTunnelId d).toNat = d := by
        simp only [workerTunnelId, workerIdxByTunnelId, workerTunnelIdMin]
        omega
      rw [if_pos hworker]
      dsimp only
      rw [onTunnelProcess_forward hser.1 (hser.2.2 d (hsub d hd))]
      refine (hitsOnce_clientForward (P.ok _) hgids).congr ?_
      rintro ⟨v, i⟩
      constructor
      · rintro ⟨rfl, h⟩
        refine ⟨?_, hidx, h⟩
        simp only [workerIdxByTunnelId, workerTunnelIdMin]
        omega
      · rintro ⟨-, hv, h⟩
        have : v = (workerIdxByTunnelId d).toNat := by
          rw [← hidx, workerTunnelId_inj] at hv
          exact hv
        subst this
        exact ⟨rfl, h⟩
    · rw [if_neg hworker]
      refine HitsOnce.nil fun k hk => hworker ?_
      rw [← hk.2.1]
      exact isWorkerTunnelId_workerTunnelId hk.1
  refine (HitsOnce.flatMap hnodup hone ?_).congr fun k => ?_
  · rintro d - d' - k ⟨-, rfl, -⟩ ⟨-, rfl, -⟩
    rfl
  · constructor
    · rintro ⟨d, hd, hlt, rfl, h⟩
      exact ⟨hlt, hsub _ hd, h⟩
    · rintro ⟨hlt, hd, h⟩
      exact ⟨_, hsup _ (isWorkerTunnelId_workerTunnelId hlt) hd, hlt, rfl, h⟩

/-- **The calling worker** calls each of its own clients once. -/
theorem hitsOnce_innerThisWorker (hser : SerialisesForward pb S P w [workerTunnelId w] message)
    (hgids : message.targetGid.Nodup) :
    HitsOnce ForwardCall.target (innerThisWorker pb P.type w (P.mgr w) message)
      fun k => k.1 = w ∧ Addresses P.type w (P.mgr w) message k.2 := by
  rw [innerThisWorker, onTunnelProcess_forward hser.1 (hser.2.2 _ (List.mem_singleton_self _))]
  exact hitsOnce_clientForward (P.ok w) hgids

end Packages

/-! ## The whole way -/

section Routing

variable (pb : Protobuf) (S : UnorderedSet) (P : Process)

/-- The messages `send_client_forward_message` makes, and the threads each of them is for. -/
def Process.sends (w sourceGid : Nat) (destConnGid : GidSet) (package : ProtoPackage) :
    List (List Int × ProtoTunnelClientForwardMessage) :=
  if destConnGid.1 = [] then
    [([workerTunnelId w], ⟨sourceGid, [], package⟩),
      ((workerAllTunnelId P.workerCnt).filter (· ≠ workerTunnelId w), ⟨sourceGid, [], package⟩)]
  else (targetTunnelId S destConnGid).map fun g => ([g.1], ⟨sourceGid, g.2, package⟩)

/-- A connection that is ready and not closing, with a stream or websocket context. -/
def Reachable (type : TaskType) (c : Slot) : Prop :=
  c.conn.closedFlag = false ∧ c.conn.isClose = false ∧ c.conn.isReady = true ∧ c.hasCtx = true ∧
    (type = .stream ∨ type = .websocket)

instance (type : TaskType) (c : Slot) : Decidable (Reachable type c) :=
  inferInstanceAs (Decidable (_ ∧ _ ∧ _ ∧ _ ∧ (_ ∨ _)))

/-- The connections a message is for: live, and with a gid in the set unless the set is empty. -/
def Receives (destConnGid : GidSet) (w i : Nat) : Prop :=
  w < P.workerCnt ∧ Reachable P.type ((P.mgr w).pool i) ∧
    ∃ gid, (P.mgr w).gid2index.lookup gid = some i ∧ (destConnGid.1 = [] ∨ gid ∈ destConnGid.1)

variable {pb S P}

theorem takesForward_iff {type : TaskType} {m : ConnMgr} {i : Nat} :
    takesForward type m i = true ↔ Reachable type (m.pool i) := by
  unfold takesForward Reachable
  cases type <;> simp [and_assoc]

theorem Process.hash_eq {w gid i : Nat} (hw : w < P.workerCnt)
    (h : (P.mgr w).gid2index.lookup gid = some i) (htakes : Reachable P.type ((P.mgr w).pool i)) :
    hashGid2workerTunnelId gid = workerTunnelId w := by
  rw [hashGid2workerTunnelId, P.owned w hw gid i h htakes.2.2.2.1]

/-- An empty set: the caller's clients, and those of all other workers. -/
theorem hitsOnce_broadcast {w sourceGid : Nat} {destConnGid : GidSet} {package : ProtoPackage}
    (hw : w < P.workerCnt) (hsource : hashGid2workerTunnelId sourceGid = workerTunnelId w)
    (hempty : destConnGid.1 = [])
    (hser : ∀ x ∈ P.sends S w sourceGid destConnGid package, SerialisesForward pb S P w x.1 x.2) :
    HitsOnce ForwardCall.target (P.forwardCalls pb S w sourceGid destConnGid package)
      fun k => Receives P destConnGid k.1 k.2 := by
  have hmem : workerTunnelId w ∈ workerAllTunnelId P.workerCnt :=
    mem_workerAllTunnelId.mpr (isWorkerTunnelId_workerTunnelId hw)
  rw [Process.sends, if_pos hempty] at hser
  have hinner := hitsOnce_innerThisWorker (hser _ List.mem_cons_self) List.nodup_nil
  have hother := hitsOnce_deliveries hw (hser _ (List.mem_cons_of_mem _ List.mem_cons_self))
    List.nodup_nil
  have hcalls : P.forwardCalls pb S w sourceGid destConnGid package =
      innerThisWorker pb P.type w (P.mgr w) ⟨sourceGid, [], package⟩ ++
        (deliveries pb S P (workerTunnelId w)
          ((workerAllTunnelId P.workerCnt).filter (· ≠ workerTunnelId w))
          (packForward pb ⟨sourceGid, [], package⟩)).flatMap fun x => P.callsAt pb x.1 x.2 := by
    unfold Process.forwardCalls sendClientForwardMessage
    rw [if_neg (not_not.mpr hsource), if_pos hempty]
    dsimp only
    rw [if_pos hmem]
    congr 1
    split
    · rename_i hnone
      have : destTunnelIdSet P.workerCnt S [] = [] := by
        rw [List.eq_nil_iff_forall_not_mem]
        exact fun d hd => absurd (mem_destTunnelIdSet.mp hd).1 (by simp)
      rw [hnone, deliveries, if_pos this]
      rfl
    · rw [List.flatMap_singleton]
  rw [hcalls]
  refine (hinner.append hother ?_).congr ?_
  · rintro ⟨v, i⟩ ⟨rfl, -⟩ ⟨-, hmem, -⟩
    simp at hmem
  · rintro ⟨v, i⟩
    unfold Receives Addresses
    simp only [takesForward_iff]
    constructor
    · rintro (⟨rfl, htakes, gid, hgid, -⟩ | ⟨hlt, -, htakes, gid, hgid, -⟩)
      · exact ⟨hw, htakes, gid, hgid, .inl hempty⟩
      · exact ⟨hlt, htakes, gid, hgid, .inl hempty⟩
    · rintro ⟨hlt, htakes, gid, hgid, -⟩
      by_cases hv : v = w
      · subst hv
        exact .inl ⟨rfl, htakes, gid, hgid, .inl trivial⟩
      · refine .inr ⟨hlt, ?_, htakes, gid, hgid, .inl trivial⟩
        rw [List.mem_filter, mem_workerAllTunnelId]
        exact ⟨isWorkerTunnelId_workerTunnelId hlt, by simpa using hv⟩

/-- The group of one worker: handled at once, or forwarded to it. -/
theorem hitsOnce_group {w : Nat} {id : Int} {message : ProtoTunnelClientForwardMessage}
    (hw : w < P.workerCnt) (hser : SerialisesForward pb S P w [id] message)
    (hgids : message.targetGid.Nodup) : HitsOnce ForwardCall.target
      ((if id = workerTunnelId w then innerThisWorker pb P.type w (P.mgr w) message else []) ++
        if id = workerTunnelId w then []
        else (deliveries pb S P (workerTunnelId w) [id] (packForward pb message)).flatMap fun x =>
          P.callsAt pb x.1 x.2)
      fun k => k.1 < P.workerCnt ∧ workerTunnelId k.1 = id ∧
        Addresses P.type k.1 (P.mgr k.1) message k.2 := by
  by_cases hidw : id = workerTunnelId w
  · subst hidw
    rw [if_pos rfl, if_pos rfl, List.append_nil]
    refine (hitsOnce_innerThisWorker hser hgids).congr fun k => ?_
    constructor
    · rintro ⟨rfl, h⟩
      exact ⟨hw, rfl, h⟩
    · rintro ⟨-, hk, h⟩
      rw [workerTunnelId_inj] at hk
      exact ⟨hk, hk ▸ h⟩
  · rw [if_neg hidw, if_neg hidw, List.nil_append]
    refine (hitsOnce_deliveries hw hser hgids).congr fun k => ?_
    rw [List.mem_singleton]

/-- A set with gids: the clients of each worker are in that worker's group. -/
theorem hitsOnce_groups {w sourceGid : Nat} {destConnGid : GidSet} {package : ProtoPackage}
    (hw : w < P.workerCnt) (hsource : hashGid2workerTunnelId sourceGid = workerTunnelId w)
    (hne : destConnGid.1 ≠ [])
    (hser : ∀ x ∈ P.sends S w sourceGid destConnGid package, SerialisesForward pb S P w x.1 x.2) :
    HitsOnce ForwardCall.target (P.forwardCalls pb S w sourceGid destConnGid package)
      fun k => Receives P destConnGid k.1 k.2 := by
  have hsorted : destConnGid.1.Nodup := destConnGid.2.imp Nat.ne_of_lt
  let group (id : Int) : ProtoTunnelClientForwardMessage :=
    ⟨sourceGid, destConnGid.1.filter fun gid => hashGid2workerTunnelId gid = id, package⟩
  let ids := S.toList (destConnGid.1.map hashGid2workerTunnelId)
  have hgroup : ∀ id ∈ ids, SerialisesForward pb S P w [id] (group id) := by
    intro id hid
    rw [Process.sends, if_neg hne, targetTunnelId, List.map_map] at hser
    exact hser _ (List.mem_map.mpr ⟨id, hid, rfl⟩)
  have hcalls : P.forwardCalls pb S w sourceGid destConnGid package =
      (ids.flatMap fun id =>
        if id = workerTunnelId w then innerThisWorker pb P.type w (P.mgr w) (group id) else []) ++
      ids.flatMap fun id =>
        if id = workerTunnelId w then []
        else (deliveries pb S P (workerTunnelId w) [id] (packForward pb (group id))).flatMap fun x =>
          P.callsAt pb x.1 x.2 := by
    unfold Process.forwardCalls sendClientForwardMessage
    rw [if_neg (not_not.mpr hsource), if_neg hne]
    dsimp only
    rw [flatMap_filterMap, targetTunnelId, List.flatMap_map, List.flatMap_map]
    congr 1
    refine List.flatMap_congr fun id _ => ?_
    dsimp only
    split <;> rfl
  rw [hcalls]
  refine ((HitsOnce.flatMap (S.nodup _) (fun id hid => hitsOnce_group hw (hgroup id hid)
    (hsorted.filter _)) ?_).perm (List.flatMap_append_perm ..).symm).congr ?_
  · rintro id - id' - k ⟨-, rfl, -⟩ ⟨-, rfl, -⟩
    rfl
  · rintro ⟨v, i⟩
    unfold Receives Addresses
    simp only [takesForward_iff]
    constructor
    · rintro ⟨id, hid, hlt, -, htakes, gid, hgid, hnil | ⟨h, -⟩⟩
      · -- the group of a worker in the map is not empty
        obtain ⟨g, hg, rfl⟩ := List.mem_map.mp (S.mem_toList.mp hid)
        have : g ∈ (group (hashGid2workerTunnelId g)).targetGid :=
          List.mem_filter.mpr ⟨hg, by simp⟩
        rw [hnil] at this
        exact absurd this (by simp)
      · exact ⟨hlt, htakes, gid, hgid, .inr (List.mem_filter.mp h).1⟩
    · rintro ⟨hlt, htakes, gid, hgid, h⟩
      have hdest := h.resolve_left hne
      have hhash := P.hash_eq hlt hgid htakes
      exact ⟨_, S.mem_toList.mpr (List.mem_map.mpr ⟨gid, hdest, hhash⟩), hlt, rfl, htakes, gid, hgid,
        .inr ⟨List.mem_filter.mpr ⟨hdest, by simpa using hhash⟩, hhash⟩⟩

end Routing

/-- **Client forward messages reach their clients once.** A call of `send_client_forward_message` by
worker `w`, for a client of its own, leads to exactly one call of `on_client_forward_message` for each
connection that is live, ready and not closing, with a stream or websocket context, and has its gid in
the set; for an empty set, for each such connection of every worker; and to none for any other
connection. -/
theorem forward_once (pb : Protobuf) (S : UnorderedSet) (P : Process) (w sourceGid : Nat)
    (destConnGid : GidSet) (package : ProtoPackage) (hw : w < P.workerCnt)
    (hsource : hashGid2workerTunnelId sourceGid = workerTunnelId w)
    (hser : ∀ x ∈ P.sends S w sourceGid destConnGid package, SerialisesForward pb S P w x.1 x.2)
    (v i : Nat) :
    (Receives P destConnGid v i →
      ((P.forwardCalls pb S w sourceGid destConnGid package).map ForwardCall.target).count (v, i) = 1) ∧
    (¬ Receives P destConnGid v i →
      ((P.forwardCalls pb S w sourceGid destConnGid package).map ForwardCall.target).count (v, i) = 0) := by
  by_cases hempty : destConnGid.1 = []
  · exact (hitsOnce_broadcast hw hsource hempty hser).count_eq (v, i)
  · exact (hitsOnce_groups hw hsource hempty hser).count_eq (v, i)

/-- A worker's manager with its end of the tunnel. -/
def tunnelMgr : ConnMgr := ((ConnMgr.init 1).allocConnection 3 0 1).2

/-- The same with one client, which has been announced to the application. -/
def oneClientMgr (w : Nat) : ConnMgr :=
  ((tunnelMgr.allocConnection 7 (512 + w) 0).2.setCtx 0).setConn 0 { isReady := true }

theorem tunnelMgr_ok : tunnelMgr.Ok 2 := ((ConnMgr.Ok.init 1).alloc 3 0 1).1

theorem oneClientMgr_ok (w : Nat) : (oneClientMgr w).Ok 2 :=
  (((tunnelMgr_ok.alloc 7 (512 + w) 0).1).setCtx 0).setConn 0 _

theorem oneClientMgr_owned {w : Nat} (hw : w < 2) : Owned w (oneClientMgr w) := by
  have hw' : w = 0 ∨ w = 1 := by omega
  have hgid : (512 + w) &&& 0x1FF = w := by
    rcases hw' with rfl | rfl <;> decide
  have hslot : ((tunnelMgr.allocConnection 7 (512 + w) 0).2.pool 0).gid = 512 + w := by
    rcases hw' with rfl | rfl <;> decide +kernel
  have hmgr : Owned w tunnelMgr :=
    (Owned.init w 1).alloc (.inr rfl) ((ConnMgr.Ok.init 1).fresh (by decide))
  have halloc : Owned w (tunnelMgr.allocConnection 7 (512 + w) 0).2 :=
    hmgr.alloc (.inl hgid) (tunnelMgr_ok.fresh (by decide))
  refine (halloc.setCtx fun g hg => ?_).setConn 0 _
  rwa [← (tunnelMgr_ok.alloc 7 (512 + w) 0).1.gid_eq hg, hslot]

/-- Two workers with a client each. -/
def twoWorkers : Process where
  workerCnt := 2
  type := .stream
  slots := 2
  mgr := oneClientMgr
  ok := oneClientMgr_ok
  owned _ hw := oneClientMgr_owned hw

/-- The client of worker 0 sends a message to that of worker 1. -/
theorem forward_once_two_workers :
    Receives twoWorkers ⟨[513], by simp⟩ 1 0 ∧
      ((twoWorkers.forwardCalls proto3 .inOrder 0 512 ⟨[513], by simp⟩ ⟨7, [65]⟩).map
        ForwardCall.target).count (1, 0) = 1 := by
  have hrec : Receives twoWorkers ⟨[513], by simp⟩ 1 0 := by
    refine ⟨by decide, ?_, 513, by decide +kernel, .inr (by decide)⟩
    decide +kernel
  have hser : ∀ x ∈ twoWorkers.sends .inOrder 0 512 ⟨[513], by simp⟩ ⟨7, [65]⟩,
      SerialisesForward proto3 .inOrder twoWorkers 0 x.1 x.2 := by
    decide +kernel
  exact ⟨hrec, (forward_once proto3 .inOrder twoWorkers 0 512 ⟨[513], by simp⟩ ⟨7, [65]⟩ (by decide)
    (by decide) hser 1 0).1 hrec⟩

end Avant.Workers
