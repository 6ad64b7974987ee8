import Avant.Proto.Wire
import Avant.Tunnel.Net

/-!
# The tunnels are queues

The network of `Net.lean` simulates the `Relay` of `Lib/Relay.lean`: its pipes carry, as frames, the
packages the relay holds in its queues (`Carries`, `Sim`), an operation that only moves bytes changes
nothing there, and each of the others is a step of the relay.

`Protobuf` may fail to serialise; the packages of a run must not be of that kind (`Serialises`).

Results:
* `Carries.turn`: the loop over a receive buffer finds the first package of the pipe, or waits;
* `sim_step`: the simulation;
* **`tunnel_fifo`**: in every run, what a worker has processed from a thread are the first of the
  packages that thread has forwarded to it, and all of them once the buffers have drained.
-/

namespace Avant.Tunnel

open Avant.Lib Avant.Proto Avant.Global

/-! ## What a pipe carries -/

/-- The pipe holds the frames of these packages, from the receiving end. -/
def Carries (pb : Protobuf) (p : Pipe) (ts : List ProtoTunnelPackage) : Prop :=
  p.content = frame64.encAll (ts.map pb.frame) ∧ ∀ t ∈ ts, pb.Packs t

namespace Carries

variable {pb : Protobuf} {p q : Pipe} {t : ProtoTunnelPackage} {ts : List ProtoTunnelPackage}

theorem nil : Carries pb {} [] := ⟨rfl, by simp⟩

theorem congr (h : Carries pb p ts) (hq : q.content = p.content) : Carries pb q ts :=
  ⟨hq.trans h.1, h.2⟩

theorem append (h : Carries pb p ts) (ht : pb.Packs t) :
    Carries pb (p.append (pb.packTunnel t)) (ts ++ [t]) := by
  refine ⟨?_, ?_⟩
  · rw [Pipe.content_append, h.1, Protobuf.packTunnel_eq ht]
    simp
  · intro u hu
    rw [List.mem_append, List.mem_singleton] at hu
    rcases hu with hu | rfl
    · exact h.2 u hu
    · exact ht

/-- **A turn of a loop over the receive buffer** waits, or finds the first package of the pipe. -/
theorem turn (h : Carries pb p ts) :
    tunnelFrameStep (parseSlice pb.package.parse) p.recvBuf = .wait ∨
      ∃ t ts' u r, ts = t :: ts' ∧ pb.openPackage u = some t ∧
        tunnelFrameStep (parseSlice pb.package.parse) p.recvBuf = .package u r ∧
        p.recvBuf = frame64.enc (pb.frame t) ++ r ∧ Carries pb { p with recvBuf := r } ts' := by
  cases hdec : lenDec 8 p.recvBuf with
  | none => exact .inl (tunnelFrameStep_wait hdec)
  | some mr =>
    rcases mr with ⟨m, r⟩
    obtain ⟨ms', hms, hcontent⟩ := Pipe.content_takeFrame (F := frame64) h.1 hdec
    obtain ⟨t, ts', rfl, rfl, rfl⟩ := List.map_eq_cons_iff.mp hms
    have ht : pb.Packs t := h.2 t List.mem_cons_self
    obtain ⟨u, hu, hopen⟩ := Protobuf.openPackage_frame ht
    refine .inr ⟨t, ts', u, r, rfl, hopen, ?_, lenDec_eq_some.mp hdec, hcontent,
      fun v hv => h.2 v (List.mem_cons_of_mem _ hv)⟩
    rw [tunnelFrameStep_dec hdec (Protobuf.frame_length_lt ht), classify, hu]

theorem eq_nil (h : Carries pb p ts) (hp : p.content = []) : ts = [] := by
  have := h.1
  rw [hp] at this
  simpa using frame64.encAll_eq_nil.mp this.symm

end Carries

/-! ## What was forwarded and what was processed -/

namespace Net

/-- The messages thread `x` has forwarded to thread `d`, in the order of the calls. -/
def forwardedTo (s : Net) (x d : Int) : List ProtoPackage :=
  (s.forwarded x).filterMap fun c => if d ∈ c.1 then some c.2 else none

/-- The messages thread `d` has processed as coming from thread `x`. -/
def processedFrom (s : Net) (d x : Int) : List ProtoPackage :=
  (s.processed d).filterMap fun t => if t.sourceTunnelsId = x then some t.innerProtoPackage else none

/-- All buffers and sockets are empty. -/
def Drained (s : Net) : Prop := ∀ id, (s.up id).content = [] ∧ (s.down id).content = []

/-- The package the main thread has cut out of its buffer for thread `id` and not removed yet. -/
def current (s : Net) (id : Int) : List ProtoTunnelPackage :=
  match s.turn with
  | none => []
  | some u => if u.id = id then [u.tunnelPackage] else []

/-- The copies the main thread still has to make in its turn. -/
def copies (s : Net) : List (Int × Int × ProtoPackage) :=
  match s.turn with
  | none => []
  | some u => u.todo.map fun d => (u.id, d, u.tunnelPackage.innerProtoPackage)

end Net

section Simulation

variable (workerCnt : Nat) (pb : Protobuf) (S : UnorderedSet)

/-- The serialisations a call leads to succeed: in the calling thread, and in the main thread for
each destination. -/
def Serialises : NetLabel → Prop
  | .forward id dest message =>
    pb.Packs ⟨id, destTunnelIdSet workerCnt S dest, message⟩ ∧
      ∀ d ∈ destTunnelIdSet workerCnt S dest, pb.Packs ⟨id, [d], message⟩
  | .mainForward dest message => pb.Packs ⟨mainTunnelId, [dest], message⟩
  | _ => True

instance : ∀ l, Decidable (Serialises workerCnt pb S l)
  | .forward _ _ _ => inferInstanceAs (Decidable (_ ∧ ∀ d ∈ _, _))
  | .mainForward _ _ => inferInstanceAs (Decidable (Protobuf.Packs _ _))
  | .send _ _ | .mainRecv _ _ | .mainFrame _ | .mainPass | .mainDone | .mainSend _ _ | .recv _ _
  | .frame _ => isTrue trivial

/-- Where the main thread forwards a package. -/
def targets (t : ProtoTunnelPackage) : List Int :=
  (allTarget workerCnt S t.sourceTunnelsId t.targetTunnelsId).getD []

/-- A package on its way from thread `id` to the main thread. -/
structure Routed (id : Int) (t : ProtoTunnelPackage) : Prop where
  tunnel : hasTunnel workerCnt id = true
  source : t.sourceTunnelsId = id
  target : t.targetTunnelsId ≠ []
  packs : ∀ d ∈ targets workerCnt S t, pb.Packs ⟨id, [d], t.innerProtoPackage⟩

/-- The main thread's turn handles the first frame of its buffer. -/
structure TurnOk (s : Net) (u : MainTurn) : Prop where
  tunnel : hasTunnel workerCnt u.id = true
  source : u.tunnelPackage.sourceTunnelsId = u.id
  size : u.size = (frame64.enc (pb.frame u.tunnelPackage)).length
  received : u.size ≤ (s.up u.id).recvBuf.length
  todo : ∀ d ∈ u.todo, hasTunnel workerCnt d = true ∧
    pb.Packs ⟨u.id, [d], u.tunnelPackage.innerProtoPackage⟩

/-- The network `s` is where the relay `r` is. -/
structure Sim (s : Net) (r : Relay Int ProtoPackage) : Prop where
  fifo : ∀ x d, r.Fifo x d
  up : ∀ id, ∃ ts, Carries pb (s.up id) (s.current id ++ ts) ∧
    (∀ t ∈ ts, Routed workerCnt pb S id t) ∧
    r.up id = ts.map fun t => (targets workerCnt S t, t.innerProtoPackage)
  turn : ∀ u, s.turn = some u → TurnOk workerCnt pb s u
  hub : r.hub = s.copies
  down : ∀ d, Carries pb (s.down d) ((r.down d).map fun x => ⟨x.1, [d], x.2⟩)
  processed : ∀ d, s.processed d = (r.out d).map fun x => ⟨x.1, [d], x.2⟩
  put : ∀ x d, isWorkerTunnelId workerCnt d = true → Relay.addressed d (r.put x) = s.forwardedTo x d

variable {workerCnt pb S}

variable {m : ProtoPackage}

/-- A list without duplicates addresses each of its members once. -/
theorem addressed_singleton {d : Int} {ds : List Int} (hds : ds.Nodup) :
    Relay.addressed d [(ds, m)] = if d ∈ ds then [m] else [] := by
  have hcount : (ds.filter (· = d)).length = if d ∈ ds then 1 else 0 := by
    rw [← List.countP_eq_length_filter]
    have := hds.count (a := d)
    rw [← this, List.count]
    congr 1
  simp only [Relay.addressed, List.flatMap_cons, List.flatMap_nil, List.append_nil, List.map_const',
    hcount]
  split <;> rfl

/-! ### Steps -/

variable {s : Net} {r : Relay Int ProtoPackage}

variable {id : Int} {s' : Net}

/-- The main thread forwards such a package to threads that have a tunnel. -/
theorem Routed.all {t : ProtoTunnelPackage} (h : Routed workerCnt pb S id t) :
    allTarget workerCnt S t.sourceTunnelsId t.targetTunnelsId = some (targets workerCnt S t) ∧
      ∀ d ∈ targets workerCnt S t, hasTunnel workerCnt d = true := by
  obtain ⟨all, hall, -, hsub, -⟩ := allTarget_eq (S := S) (h.source ▸ h.tunnel) h.target
  have htargets : targets workerCnt S t = all := by rw [targets, hall, Option.getD_some]
  rw [htargets]
  exact ⟨hall, fun d hd => (hsub d hd).2⟩

/-- A turn stays right while its buffer only grows. -/
theorem TurnOk.congr {u : MainTurn} (h : TurnOk workerCnt pb s u)
    (hlen : (s.up u.id).recvBuf.length ≤ (s'.up u.id).recvBuf.length) : TurnOk workerCnt pb s' u :=
  { h with received := Nat.le_trans h.received hlen }

theorem length_recvBuf_update {f : Int → Pipe} {p : Pipe}
    (hlen : (f id).recvBuf.length ≤ p.recvBuf.length) (e : Int) :
    (f e).recvBuf.length ≤ (Function.update f id p e).recvBuf.length := by
  by_cases he : e = id
  · subst he
    rwa [Function.update_self]
  · rw [Function.update_of_ne he]

namespace Sim

/-- Bytes that move towards the main thread change nothing. -/
theorem setUp (hs : Sim workerCnt pb S s r) {id : Int} {p : Pipe} (hp : p.content = (s.up id).content)
    (hlen : (s.up id).recvBuf.length ≤ p.recvBuf.length) : Sim workerCnt pb S (s.setUp id p) r := by
  refine { hs with up := fun e => ?_, turn := fun u hu => ?_ }
  · obtain ⟨ts, hc, hrest⟩ := hs.up e
    refine ⟨ts, ?_, hrest⟩
    show Carries pb (Function.update s.up id p e) (s.current e ++ ts)
    by_cases he : e = id
    · subst he
      rw [Function.update_self]
      exact hc.congr hp
    · rwa [Function.update_of_ne he]
  · exact (hs.turn u hu).congr (length_recvBuf_update hlen _)

/-- Bytes that move towards a thread change nothing. -/
theorem setDown (hs : Sim workerCnt pb S s r) {id : Int} {p : Pipe}
    (hp : p.content = (s.down id).content) : Sim workerCnt pb S (s.setDown id p) r := by
  refine { hs with turn := fun u hu => ?_, down := fun d => ?_ }
  · exact (hs.turn u hu).congr (Nat.le_refl _)
  · show Carries pb (Function.update s.down id p d) _
    by_cases hd : d = id
    · subst hd
      rw [Function.update_self]
      exact (hs.down d).congr hp
    · rw [Function.update_of_ne hd]
      exact hs.down d

end Sim

theorem forwardedTo_note (id : Int) (dest : List Int) (m : ProtoPackage) (x d : Int) :
    (s.note id dest m).forwardedTo x d =
      s.forwardedTo x d ++ if x = id ∧ d ∈ dest then [m] else [] := by
  unfold Net.forwardedTo Net.note
  dsimp only
  by_cases hx : x = id
  · subst hx
    rw [Function.update_self, List.filterMap_append]
    by_cases hd : d ∈ dest <;> simp [hd]
  · rw [Function.update_of_ne hx, if_neg fun h => hx h.1, List.append_nil]

theorem current_of_idle (h : s.turn = none) (id : Int) : s.current id = [] := by
  simp [Net.current, h]

theorem copies_of_idle (h : s.turn = none) : s.copies = [] := by simp [Net.copies, h]

/-- The size of the frame at the head of a buffer. -/
theorem addU64_toh64FromBuffer {p : Payload 8} (hp : p.1.length < 2 ^ 31) (rest : Bytes) :
    addU64 8 (toh64FromBuffer (frame64.enc p ++ rest)) = (frame64.enc p).length := by
  have hsize : toh64FromBuffer (lenEnc 8 p ++ rest) = p.1.length := declared_lenEnc 8 p rest
  show addU64 8 (toh64FromBuffer (lenEnc 8 p ++ rest)) = (lenEnc 8 p).length
  rw [hsize, length_lenEnc]
  unfold addU64
  omega

variable (hs : Sim workerCnt pb S s r)

include hs

/-- A call that appends nothing is not a call to a worker. -/
theorem sim_note {dest : List Int} (hdest : ∀ d ∈ dest, isWorkerTunnelId workerCnt d = false) :
    Sim workerCnt pb S (s.note id dest m) r := by
  refine { hs with
    turn := fun u hu => (hs.turn u hu).congr (Nat.le_refl _)
    put := fun x d hd => ?_ }
  have hno : d ∉ dest := fun hmem => by simp [hdest d hmem] at hd
  rw [forwardedTo_note, if_neg fun h => hno h.2, List.append_nil]
  exact hs.put x d hd

/-- A thread calls `tunnel_forward`. -/
theorem sim_forward {dest : List Int} (hser : Serialises workerCnt pb S (.forward id dest m))
    (hstep : s.step workerCnt pb S (.forward id dest m) = some s') :
    ∃ r', Sim workerCnt pb S s' r' := by
  rw [Net.step] at hstep
  split at hstep
  · rename_i hid
    by_cases hset : destTunnelIdSet workerCnt S dest = []
    · rw [tunnelForward, if_pos hset] at hstep
      cases hstep
      refine ⟨r, sim_note hs fun d hd => ?_⟩
      by_contra hw
      have hmem : d ∈ destTunnelIdSet workerCnt S dest :=
        mem_destTunnelIdSet.mpr ⟨hd, hasTunnel_of_worker (by simpa using hw)⟩
      rw [hset] at hmem
      exact absurd hmem (by simp)
    · rw [tunnelForward, if_neg hset] at hstep
      cases hstep
      obtain ⟨all, hall, hnodup, hsub, hsup⟩ := allTarget_eq (S := S) hid hset
      have htargets : targets workerCnt S ⟨id, destTunnelIdSet workerCnt S dest, m⟩ = all := by
        rw [targets, hall, Option.getD_some]
      refine ⟨_, fun x d => Relay.fifo_step hs.fifo (.put r id all m) x d, fun e => ?_,
        fun u hu => (hs.turn u hu).congr ?_, hs.hub, hs.down, hs.processed, fun x d hd => ?_⟩
      · obtain ⟨ts, hc, hrouted, hup⟩ := hs.up e
        show ∃ ts, Carries pb (Function.update s.up id _ e) (s.current e ++ ts) ∧ _ ∧
          Function.update r.up id (r.up id ++ [(all, m)]) e = _
        by_cases he : e = id
        · subst he
          refine ⟨ts ++ [⟨e, destTunnelIdSet workerCnt S dest, m⟩], ?_, ?_, ?_⟩
          · rw [Function.update_self, ← List.append_assoc]
            exact hc.append hser.1
          · intro t ht
            rw [List.mem_append, List.mem_singleton] at ht
            rcases ht with ht | rfl
            · exact hrouted t ht
            · refine ⟨hid, rfl, hset, fun d hd => ?_⟩
              rw [htargets] at hd
              exact hser.2 d (hsub d hd).1
          · rw [Function.update_self, hup, List.map_append, List.map_singleton, htargets]
        · rw [Function.update_of_ne he, Function.update_of_ne he]
          exact ⟨ts, hc, hrouted, hup⟩
      · refine length_recvBuf_update (p := (s.up id).append _) ?_ u.id
        exact Nat.le_refl _
      · show Relay.addressed d (Function.update r.put id (r.put id ++ [(all, m)]) x) =
          (s.note id dest m).forwardedTo x d
        rw [forwardedTo_note]
        by_cases hx : x = id
        · subst hx
          have hmem : d ∈ all ↔ d ∈ dest := by
            constructor
            · intro h
              exact (mem_destTunnelIdSet.mp (hsub d h).1).1
            · intro h
              exact hsup d hd (mem_destTunnelIdSet.mpr ⟨h, hasTunnel_of_worker hd⟩)
          rw [Function.update_self, Relay.addressed_append, hs.put x d hd, addressed_singleton hnodup]
          simp [hmem]
        · rw [Function.update_of_ne hx, if_neg fun h => hx h.1, List.append_nil]
          exact hs.put x d hd
  · simp at hstep

/-- The relay's hub has nothing of the main thread. -/
theorem Sim.main_quiet : r.up mainTunnelId = [] ∧ ∀ c ∈ r.hub, c.1 ≠ mainTunnelId := by
  refine ⟨?_, fun c hc => ?_⟩
  · obtain ⟨ts, -, hrouted, hup⟩ := hs.up mainTunnelId
    cases ts with
    | nil => exact hup
    | cons t ts => exact absurd rfl (ne_main_of_hasTunnel (hrouted t List.mem_cons_self).tunnel)
  · rw [hs.hub, Net.copies] at hc
    split at hc
    · simp at hc
    · rename_i u hu
      rw [List.mem_map] at hc
      obtain ⟨d, -, rfl⟩ := hc
      exact ne_main_of_hasTunnel (hs.turn u hu).tunnel

/-- A package put into the pipe towards `dest`. -/
theorem carries_down {x dest : Int} (hpack : pb.Packs ⟨x, [dest], m⟩) (d : Int) :
    Carries pb
      (Function.update s.down dest ((s.down dest).append (pb.packTunnel ⟨x, [dest], m⟩)) d)
      ((Function.update r.down dest (r.down dest ++ [(x, m)]) d).map fun y => ⟨y.1, [d], y.2⟩) := by
  by_cases hd : d = dest
  · subst hd
    rw [Function.update_self, Function.update_self, List.map_append]
    exact (hs.down d).append hpack
  · rw [Function.update_of_ne hd, Function.update_of_ne hd]
    exact hs.down d

/-- The main thread calls `tunnel_forward` in its own name. -/
theorem sim_mainForward {dest : Int} (hser : Serialises workerCnt pb S (.mainForward dest m))
    (hstep : s.step workerCnt pb S (.mainForward dest m) = some s') :
    ∃ r', Sim workerCnt pb S s' r' := by
  rw [Net.step] at hstep
  by_cases hdest : hasTunnel workerCnt dest = true
  · rw [mainTunnelForward_ok (isTunnelId_iff.mpr (.inr rfl)) hdest] at hstep
    cases hstep
    obtain ⟨hup, hhub⟩ := hs.main_quiet
    refine ⟨_, fun x d => Relay.fifo_step hs.fifo (.inject r mainTunnelId dest m hup hhub) x d, hs.up,
      fun u hu => (hs.turn u hu).congr (Nat.le_refl _), hs.hub, carries_down hs hser, hs.processed,
      fun x d hd => ?_⟩
    show Relay.addressed d (Function.update r.put mainTunnelId (r.put mainTunnelId ++ [([dest], m)]) x) =
      (s.note mainTunnelId [dest] m).forwardedTo x d
    rw [forwardedTo_note]
    by_cases hx : x = mainTunnelId
    · subst hx
      rw [Function.update_self, Relay.addressed_append, hs.put _ d hd,
        addressed_singleton (List.nodup_singleton dest)]
      simp
    · rw [Function.update_of_ne hx, if_neg fun h => hx h.1, List.append_nil]
      exact hs.put x d hd
  · have hnote : s' = s.note mainTunnelId [dest] m := by
      have herr : ∃ e, mainTunnelForward workerCnt pb mainTunnelId dest m = .error e := by
        unfold mainTunnelForward
        split
        · exact ⟨_, rfl⟩
        · split
          · exact ⟨_, rfl⟩
          · exact ⟨-3, if_pos (by simpa using hdest)⟩
      obtain ⟨e, he⟩ := herr
      rw [he] at hstep
      exact (Option.some.inj hstep).symm
    subst hnote
    refine ⟨r, sim_note hs fun d hd => ?_⟩
    rw [List.mem_singleton] at hd
    subst hd
    by_contra hw
    exact hdest (hasTunnel_of_worker (by simpa using hw))

/-- The main thread begins a turn. -/
theorem sim_mainFrame (hstep : s.step workerCnt pb S (.mainFrame id) = some s') :
    ∃ r', Sim workerCnt pb S s' r' := by
  rw [Net.step] at hstep
  split at hstep
  · rename_i hidle
    obtain ⟨ts, hc, hrouted, hup⟩ := hs.up id
    rw [current_of_idle hidle, List.nil_append] at hc
    rcases hc.turn with hwait | ⟨t, ts', p, rest, rfl, hopen, hframe, hbuf, -⟩
    · simp [hwait] at hstep
    · have ht := hrouted t List.mem_cons_self
      have hpacks : pb.Packs t := hc.2 t List.mem_cons_self
      have hhub : r.hub = [] := by rw [hs.hub, copies_of_idle hidle]
      obtain ⟨hall, htunnel⟩ := ht.all
      have hproc : mainTunnelProcess workerCnt pb S p = some (t, targets workerCnt S t) := by
        simp [mainTunnelProcess, hopen, hall]
      have hsize : addU64 8 (toh64FromBuffer (s.up id).recvBuf) =
          (frame64.enc (pb.frame t)).length := by
        rw [hbuf, addU64_toh64FromBuffer (Protobuf.frame_length_lt hpacks)]
      rw [hframe] at hstep
      simp only [hproc, hsize] at hstep
      cases hstep
      refine ⟨_, fun x d => Relay.fifo_step hs.fifo (.pick r id (targets workerCnt S t)
        t.innerProtoPackage _ hhub hup) x d, fun e => ?_, fun u hu => ?_, rfl, hs.down, hs.processed,
        hs.put⟩
      · dsimp only
        by_cases he : e = id
        · subst he
          rw [Function.update_self]
          refine ⟨ts', ?_, fun v hv => hrouted v (List.mem_cons_of_mem _ hv), rfl⟩
          simpa [Net.current] using hc
        · rw [Function.update_of_ne he]
          obtain ⟨us, hus, hrest⟩ := hs.up e
          refine ⟨us, ?_, hrest⟩
          rw [current_of_idle hidle] at hus
          simpa [Net.current, Ne.symm he] using hus
      · cases hu
        refine ⟨ht.tunnel, ht.source, rfl, ?_, fun d hd => ⟨htunnel d hd, ht.packs d hd⟩⟩
        show _ ≤ (s.up id).recvBuf.length
        rw [hbuf, List.length_append]
        exact Nat.le_add_right _ _
  · simp at hstep

/-- The main thread forwards to the next destination. -/
theorem sim_mainPass (hstep : s.step workerCnt pb S .mainPass = some s') :
    ∃ r', Sim workerCnt pb S s' r' := by
  rw [Net.step] at hstep
  split at hstep
  · rename_i id size t dest todo hturn
    have hok := hs.turn _ hturn
    obtain ⟨hdest, hpack⟩ := hok.todo dest List.mem_cons_self
    have hsource : t.sourceTunnelsId = id := hok.source
    have hhub : r.hub = (id, dest, t.innerProtoPackage) ::
        todo.map fun d => (id, d, t.innerProtoPackage) := by
      rw [hs.hub, Net.copies, hturn]
      rfl
    simp only [mainTunnelForward_ok (m := t.innerProtoPackage)
      (hsource ▸ isTunnelId_iff.mpr (.inl hok.tunnel)) hdest, Option.some.injEq] at hstep
    subst hstep
    rw [hsource]
    refine ⟨_, fun x d => Relay.fifo_step hs.fifo (.pass r id dest t.innerProtoPackage _ hhub) x d,
      fun e => ?_, fun u hu => ?_, rfl, carries_down hs hpack, hs.processed, hs.put⟩
    · obtain ⟨ts, hc, hrest⟩ := hs.up e
      refine ⟨ts, ?_, hrest⟩
      simpa [Net.current, hturn, Net.setDown] using hc
    · cases hu
      exact { hok with todo := fun d hd => hok.todo d (List.mem_cons_of_mem _ hd) }
  · simp at hstep

/-- The main thread ends its turn. -/
theorem sim_mainDone (hstep : s.step workerCnt pb S .mainDone = some s') :
    ∃ r', Sim workerCnt pb S s' r' := by
  rw [Net.step] at hstep
  split at hstep
  · rename_i id size t hturn
    have hok := hs.turn _ hturn
    cases hstep
    refine ⟨r, hs.fifo, fun e => ?_, fun u hu => ?_, ?_, hs.down, hs.processed, hs.put⟩
    · obtain ⟨ts, hc, hrest⟩ := hs.up e
      refine ⟨ts, ?_, hrest⟩
      show Carries pb (Function.update s.up id _ e) ([] ++ ts)
      by_cases he : e = id
      · subst he
        rw [Function.update_self, moveReadPtrN_eq, List.nil_append]
        simp only [Net.current, hturn, if_true, List.singleton_append] at hc
        refine ⟨?_, fun v hv => hc.2 v (List.mem_cons_of_mem _ hv)⟩
        have hsize : size = (frame64.enc (pb.frame t)).length := hok.size
        have hreceived : size ≤ (s.up e).recvBuf.length := hok.received
        rw [hsize] at hreceived ⊢
        exact Pipe.content_drop (by simpa using hc.1) hreceived
      · rw [Function.update_of_ne he]
        simpa [Net.current, hturn, Ne.symm he] using hc
    · exact absurd hu (by simp [Net.setUp])
    · rw [hs.hub, Net.copies, hturn]
      rfl
  · simp at hstep

/-- A thread processes a package. -/
theorem sim_frame (hstep : s.step workerCnt pb S (.frame id) = some s') :
    ∃ r', Sim workerCnt pb S s' r' := by
  rw [Net.step] at hstep
  rcases (hs.down id).turn with hwait | ⟨t, ts', p, rest, hts, hopen, hframe, -, hc⟩
  · simp [hwait] at hstep
  · obtain ⟨x, rest', hdown, rfl, rfl⟩ := List.map_eq_cons_iff.mp hts
    rw [hframe] at hstep
    simp only [hopen, Option.some.injEq] at hstep
    subst hstep
    refine ⟨_, fun y d => Relay.fifo_step hs.fifo (.take r id x rest' hdown) y d, hs.up,
      fun u hu => (hs.turn u hu).congr (Nat.le_refl _), hs.hub, fun d => ?_, fun d => ?_, hs.put⟩
    · show Carries pb (Function.update s.down id _ d) ((Function.update r.down id rest' d).map _)
      by_cases hd : d = id
      · subst hd
        rw [Function.update_self, Function.update_self]
        exact hc
      · rw [Function.update_of_ne hd, Function.update_of_ne hd]
        exact hs.down d
    · show Function.update s.processed id _ d = (Function.update r.out id _ d).map _
      by_cases hd : d = id
      · subst hd
        rw [Function.update_self, Function.update_self, hs.processed d, List.map_append]
        rfl
      · rw [Function.update_of_ne hd, Function.update_of_ne hd]
        exact hs.processed d

omit hs

variable (workerCnt pb S) in
/-- The network is where some relay is. -/
def Relayed (s : Net) : Prop := ∃ r, Sim workerCnt pb S s r

theorem relayed_init : Relayed workerCnt pb S {} :=
  ⟨{}, fun _ _ => rfl, fun _ => ⟨[], Carries.nil, by simp, rfl⟩, fun _ h => absurd h (by simp), rfl,
    fun _ => Carries.nil, fun _ => rfl, fun _ _ _ => rfl⟩

/-- **Every operation of a thread is a step of the relay**, or moves bytes. -/
theorem sim_step {l : NetLabel} (hs : Relayed workerCnt pb S s) (hser : Serialises workerCnt pb S l)
    (hstep : s.step workerCnt pb S l = some s') : Relayed workerCnt pb S s' := by
  obtain ⟨r, hs⟩ := hs
  cases l with
  | forward id dest m => exact sim_forward hs hser hstep
  | mainForward dest m => exact sim_mainForward hs hser hstep
  | send id n =>
    cases hstep
    exact ⟨r, hs.setUp (Pipe.content_send n) (Nat.le_refl _)⟩
  | mainRecv id n =>
    cases hstep
    exact ⟨r, hs.setUp (Pipe.content_recv n) (by simp [Pipe.recv])⟩
  | mainFrame id => exact sim_mainFrame hs hstep
  | mainPass => exact sim_mainPass hs hstep
  | mainDone => exact sim_mainDone hs hstep
  | mainSend id n =>
    cases hstep
    exact ⟨r, hs.setDown (Pipe.content_send n)⟩
  | recv id n =>
    cases hstep
    exact ⟨r, hs.setDown (Pipe.content_recv n)⟩
  | frame id => exact sim_frame hs hstep

/-- What a thread has processed is what the relay's destination has taken. -/
theorem Sim.processedFrom_eq (hs : Sim workerCnt pb S s r) (d x : Int) :
    s.processedFrom d x = Relay.sentBy x (r.out d) := by
  rw [Net.processedFrom, hs.processed, List.filterMap_map]
  rfl

/-- A drained network holds nothing back. -/
theorem Sim.of_drained (hs : Sim workerCnt pb S s r) (hdrained : s.Drained) :
    (∀ x, r.up x = []) ∧ r.hub = [] ∧ ∀ d, r.down d = [] := by
  have hup : ∀ id, s.current id = [] ∧ r.up id = [] := by
    intro id
    obtain ⟨ts, hc, -, hr⟩ := hs.up id
    obtain ⟨hcur, hts⟩ := List.append_eq_nil_iff.mp (hc.eq_nil (hdrained id).1)
    exact ⟨hcur, by rw [hr, hts, List.map_nil]⟩
  refine ⟨fun x => (hup x).2, ?_, fun d => ?_⟩
  · cases hturn : s.turn with
    | none => rw [hs.hub, copies_of_idle hturn]
    | some u =>
      have := (hup u.id).1
      simp [Net.current, hturn] at this
  · exact List.map_eq_nil_iff.mp ((hs.down d).eq_nil (hdrained d).2)

theorem Relayed.fifo (hs : Relayed workerCnt pb S s) (x : Int) {d : Int}
    (hd : isWorkerTunnelId workerCnt d = true) :
    s.processedFrom d x <+: s.forwardedTo x d ∧
      (s.Drained → s.processedFrom d x = s.forwardedTo x d) := by
  obtain ⟨r, hs⟩ := hs
  rw [hs.processedFrom_eq, ← hs.put x d hd]
  refine ⟨(hs.fifo x d).isPrefix, fun hdrained => ?_⟩
  obtain ⟨hup, hhub, hdown⟩ := hs.of_drained hdrained
  exact (hs.fifo x d).of_drained (hup x) hhub (hdown d)

end Simulation

/-- **The tunnels are queues.** In every run of the threads, whatever the sends and receives move
and however the threads take turns: what worker `d` has processed from thread `x` are the first of
the messages that `x` has forwarded to it, in order, each once and unaltered; and when all buffers
have drained they are all of them. -/
theorem tunnel_fifo (workerCnt : Nat) (pb : Protobuf) (S : UnorderedSet) (ls : List NetLabel) (s : Net)
    (hser : ∀ l ∈ ls, Serialises workerCnt pb S l)
    (hrun : exec (Net.step workerCnt pb S) {} ls = some s) (x d : Int)
    (hd : isWorkerTunnelId workerCnt d = true) :
    s.processedFrom d x <+: s.forwardedTo x d ∧
      (s.Drained → s.processedFrom d x = s.forwardedTo x d) := by
  have hinit : Relayed workerCnt pb S {} := relayed_init
  have halong : Along (Net.step workerCnt pb S) (fun _ l => Serialises workerCnt pb S l) {} ls :=
    along_of_forall _ hser
  have hs : Relayed workerCnt pb S s :=
    exec_invariant (fun hs hser hstep => sim_step hs hser hstep) hinit halong hrun
  exact hs.fifo x hd

/-- Worker 0 and the other thread both forward to worker 1; the bytes move in pieces, and the main
thread forwards the package of worker 0 while half of the other one is there. -/
def twoToOne : List NetLabel :=
  [.forward 0 [1, -2, 1] ⟨7, [65]⟩, .forward (-1) [1] ⟨8, [66]⟩, .send 0 5, .send (-1) 9, .send 0 99,
    .mainRecv 0 20, .mainRecv (-1) 12, .mainRecv 0 99, .mainFrame 0, .mainPass, .mainSend 1 3,
    .mainDone, .mainForward 1 ⟨2, []⟩, .mainSend 1 99, .recv 1 4, .recv 1 99, .frame 1]

theorem tunnel_fifo_two_to_one :
    ∃ s, exec (Net.step 2 proto3 .inOrder) {} twoToOne = some s ∧ s.processedFrom 1 0 = [⟨7, [65]⟩] ∧
      s.processedFrom 1 (-1) = [] ∧ s.forwardedTo (-1) 1 = [⟨8, [66]⟩] ∧
      s.processedFrom 1 0 <+: s.forwardedTo 0 1 ∧
      (s.Drained → s.processedFrom 1 (-1) = s.forwardedTo (-1) 1) := by
  have hser : ∀ l ∈ twoToOne, Serialises 2 proto3 .inOrder l := by decide +kernel
  refine exists_exec (by decide +kernel) fun s hs (h : s.processedFrom 1 0 = [⟨7, [65]⟩] ∧
    s.processedFrom 1 (-1) = [] ∧ s.forwardedTo (-1) 1 = [⟨8, [66]⟩]) => ?_
  exact ⟨h.1, h.2.1, h.2.2, (tunnel_fifo 2 proto3 .inOrder twoToOne s hser hs 0 1 (by decide)).1,
    (tunnel_fifo 2 proto3 .inOrder twoToOne s hser hs (-1) 1 (by decide)).2⟩

end Avant.Tunnel
