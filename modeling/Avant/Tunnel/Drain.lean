import Avant.Tunnel.Event

/-!
# The tunnels can drain

`handlers_fifo` promises that every message is processed once the buffers have drained. Here: from
every state between two calls of handlers there are events that drain them, in which no application
calls `tunnel_forward`. First each thread sends what is in its buffer, and the main thread receives
and forwards it; then the same towards each worker. The events are handled as written, with a kernel
that takes and gives all bytes that there are.

Results:
* `exists_all_empty`: one direction of all tunnels can be drained, where each pipe that is not empty
  can get lighter;
* `exists_drained`: so both can be, one after the other;
* **`exists_all_processed`**: so no message is lost: there are events after which all that has been
  forwarded to a worker is processed.
-/

namespace Avant.Tunnel

open Avant.Lib Avant.Proto Avant.Global
open Avant.Socket (flushLoop)

variable {workerCnt : Nat} {pb : Protobuf} {S : UnorderedSet} {s s' : Net} {p : Pipe}

/-- An event in which no application calls `tunnel_forward`. -/
def Handler.Quiet : Handler → Prop
  | .mainEvent _ _ => True
  | .event _ e => e.process = []
  | .mainForward _ _ _ | .forward _ _ => False

theorem Handler.Quiet.serialises {h : Handler} (hq : h.Quiet) : h.Serialises workerCnt pb S := by
  cases h with
  | mainEvent id e => trivial
  | event id e =>
    have he : e.process = [] := hq
    simp [Handler.Serialises, he]
  | mainForward | forward => exact hq.elim

/-! ## One direction -/

/-- What the bytes of a pipe still have to do. -/
def weight (p : Pipe) : Nat := 3 * p.sendBuf.length + 2 * p.wire.length + p.recvBuf.length

theorem weight_flush (h : p.sendBuf ≠ []) :
    weight (trySendFlushTunnel p [.sent p.sendBuf.length]) < weight p := by
  have hpos : 0 < p.sendBuf.length := List.length_pos_iff.mpr h
  simp only [weight, trySendFlushTunnel, flushLoop, if_neg h, List.drop_length, List.take_length,
    List.length_append, List.length_nil]
  omega

theorem weight_read (h : p.wire ≠ []) : weight (readTunnel p [p.wire.length]) < weight p := by
  have hpos : 0 < p.wire.length := List.length_pos_iff.mpr h
  obtain ⟨k, hk, hkpos⟩ : ∃ k, k = min p.wire.length (bufferSize - 0) ∧ 0 < k :=
    ⟨_, rfl, lt_min hpos (by decide)⟩
  have htake : p.wire.take k ≠ [] := List.ne_nil_of_length_pos (by rw [List.length_take]; omega)
  have hloop : recvLoop [p.wire.length] p.wire [] = (p.wire.drop k, p.wire.take k) := by
    rw [recvLoop, List.length_nil, if_pos (by decide)]
    dsimp only
    rw [← hk, if_neg htake]
    rfl
  simp only [weight, readTunnel, hloop, List.length_drop, List.length_append, List.length_take]
  omega

theorem readTunnel_nil (h : p.wire = []) : readTunnel p [p.wire.length] = p := by
  obtain ⟨sendBuf, wire, recvBuf⟩ := p
  subst h
  simp [readTunnel, recvLoop]

/-- A pipe whose bytes have all been received starts with a complete package. -/
theorem Carries.package {ts : List ProtoTunnelPackage} (h : Carries pb p ts) (hbuf : p.sendBuf = [])
    (hwire : p.wire = []) (hne : p.recvBuf ≠ []) :
    ∃ u r, r.length < p.recvBuf.length ∧
      tunnelFrameStep (parseSlice pb.package.parse) p.recvBuf = .package u r := by
  have hcontent : p.recvBuf = frame64.encAll (ts.map pb.frame) := by
    simpa [Pipe.content, hbuf, hwire] using h.1
  rcases h.turn with hwait | ⟨t, ts', u, r, rfl, -, hframe, hrest, -⟩
  · -- the loop cannot wait: the first frame is there
    exfalso
    cases ts with
    | nil => exact hne hcontent
    | cons t ts =>
      have hdec : frame64.dec p.recvBuf = some (pb.frame t, frame64.encAll (ts.map pb.frame)) := by
        rw [hcontent, List.map_cons, FrameCodec.encAll_cons, FrameCodec.dec_enc_append]
      rw [tunnelFrameStep_dec hdec (Protobuf.frame_length_lt (h.2 t List.mem_cons_self)),
        classify] at hwait
      split at hwait <;> simp at hwait
  · refine ⟨u, r, ?_, hframe⟩
    rw [hrest, List.length_append]
    have : 0 < (frame64.enc (pb.frame t)).length :=
      List.length_pos_iff.mpr (frame64.enc_ne_nil _)
    omega

variable (workerCnt pb S) in
/-- An event makes one of the pipes lighter and leaves the others alone. -/
def Progress (c : Net → Int → Pipe) (I : Net → Prop) (s : Net) (id : Int) : Prop :=
  ∃ h s', handle workerCnt pb S s h = some s' ∧ h.Quiet ∧ I s' ∧ weight (c s' id) < weight (c s id) ∧
    ∀ e ≠ id, c s' e = c s e

variable (workerCnt pb S) in
/-- Quiet events lead from one state to another. -/
abbrev Quietly : Net → Net → Prop := Reaches (handle workerCnt pb S) fun _ h => h.Quiet

/-- Where this is so of each pipe that is not empty, all of them can be drained. -/
theorem exists_all_empty (c : Net → Int → Pipe) (I : Net → Prop) (ids : List Int)
    (hprogress : ∀ s, I s → ∀ e ∈ ids, (c s e).content ≠ [] → Progress workerCnt pb S c I s e)
    (hs : I s) : ∃ s', Quietly workerCnt pb S s s' ∧ I s' ∧ ∀ e ∈ ids, (c s' e).content = [] := by
  refine Reaches.of_measure (fun s => (ids.map fun e => weight (c s e)).sum) (fun s hs => ?_) hs
  by_cases hempty : ∀ e ∈ ids, (c s e).content = []
  · exact .inl hempty
  · obtain ⟨e, he, hne⟩ : ∃ e ∈ ids, (c s e).content ≠ [] := by simpa using hempty
    obtain ⟨h, s', hh, hquiet, hs', hlt, hsame⟩ := hprogress s hs e he hne
    refine .inr ⟨s', .single hh hquiet, hs', List.sum_lt_sum _ _ (fun e' _ => ?_) ⟨e, he, hlt⟩⟩
    by_cases heq : e' = e
    · exact heq ▸ hlt.le
    · rw [hsame e' heq]

/-- The pipe of `id` does not get heavier; the other pipes and `frame` stay as they are. -/
def Settles {φ : Type} (c : Net → Int → Pipe) (frame : Net → φ) (id : Int) (s s' : Net) : Prop :=
  weight (c s' id) ≤ weight (c s id) ∧ (∀ e ≠ id, c s' e = c s e) ∧ frame s' = frame s

theorem Settles.trans {φ : Type} {c : Net → Int → Pipe} {frame : Net → φ} {id : Int} {s₁ : Net}
    (h : Settles c frame id s s₁) (h' : Settles c frame id s₁ s') : Settles c frame id s s' :=
  ⟨h'.1.trans h.1, fun e he => (h'.2.1 e he).trans (h.2.1 e he), h'.2.2.trans h.2.2⟩

/-- What is cut off a buffer makes it no longer. -/
theorem length_le_of_skip {π : Type} {parse : ParseFromArray π} {buf r : Bytes}
    (h : tunnelFrameStep parse buf = .skip r) : r.length ≤ buf.length := by
  have hdrop : ∃ n, r = buf.drop n := by
    unfold tunnelFrameStep takeFrame at h
    dsimp only at h
    split_ifs at h
    · exact ⟨8, by simpa using h.symm⟩
    · split at h
      · exact ⟨_, by simpa using h.symm⟩
      · cases h
  obtain ⟨n, rfl⟩ := hdrop
  rw [List.length_drop]
  omega

theorem length_le_of_package {π : Type} {parse : ParseFromArray π} {buf r : Bytes} {u : π}
    (h : tunnelFrameStep parse buf = .package u r) : r.length ≤ buf.length := by
  rw [← rest_of_package h, moveReadPtrN_eq, List.length_drop]
  omega

theorem weight_recvBuf {r : Bytes} (h : r.length ≤ p.recvBuf.length) :
    weight { p with recvBuf := r } ≤ weight p := by
  simp only [weight]
  omega

/-- What the main thread does to the tunnels it receives from. -/
theorem mainSettles (workerCnt : Nat) (S : UnorderedSet) (id : Int) :
    Turns pb (Settles Net.up Net.forwarded id) (upEnd id) (mainOnTunnelProcess workerCnt pb S)
      fun _ => True where
  refl s := ⟨le_rfl, fun _ _ => rfl, rfl⟩
  trans := .trans
  skip s r hframe :=
    ⟨(congrArg weight (up_setUp _)).trans_le (weight_recvBuf (length_le_of_skip hframe)),
      fun e he => Function.update_of_ne he _ _, rfl⟩
  package s k u r _ hframe := by
    obtain ⟨hup, hforwarded⟩ := @mainOnTunnelProcess_frame workerCnt pb S u (s, k)
    refine ⟨(congrArg weight (up_setUp _)).trans_le (weight_recvBuf (length_le_of_package hframe)),
      fun e he => ?_, hforwarded⟩
    exact (Function.update_of_ne he _ _).trans (congrFun hup e)
  ok_process _ _ _ h := h
  get_process s k u := congrFun (mainOnTunnelProcess_frame u (s, k)).1 id
  get_set s p := up_setUp p

/-- What a thread does whose application forwards nothing. -/
theorem threadSettles (workerCnt : Nat) (S : UnorderedSet) (id : Int) :
    Turns pb (Settles Net.down (fun s => (s.up, s.forwarded)) id) (downEnd id)
      (onTunnelProcess workerCnt pb S id) fun css => css = [] where
  refl s := ⟨le_rfl, fun _ _ => rfl, rfl⟩
  trans := .trans
  skip s r hframe :=
    ⟨(congrArg weight (down_setDown _)).trans_le (weight_recvBuf (length_le_of_skip hframe)),
      fun e he => Function.update_of_ne he _ _, rfl⟩
  package s k u r hk hframe := by
    subst hk
    refine ⟨(congrArg weight (down_setDown _)).trans_le
      (weight_recvBuf (length_le_of_package hframe)), fun e he => ?_, ?_⟩
    · refine (Function.update_of_ne he _ _).trans ?_
      unfold onTunnelProcess
      split <;> rfl
    · unfold onTunnelProcess
      split <;> rfl
  ok_process s k u hk := by
    subst hk
    unfold onTunnelProcess
    split <;> rfl
  get_process s k u := down_onTunnelProcess u (s, k)
  get_set s p := down_setDown p

/-- **An event that reads**: what has been sent on a pipe gets nearer, or is processed. -/
theorem readEvent_settles {κ φ : Type} {c : Net → Int → Pipe} {frame : Net → φ} {id : Int}
    {recvEnd : End} {process : ProtoPackage → Net × κ → Net × κ} {ok : κ → Prop}
    (H : Turns pb (Settles c frame id) recvEnd process ok) (hget : ∀ s, recvEnd.get s = c s id)
    (hset : ∀ s p, (∀ e ≠ id, c (recvEnd.set s p) e = c s e) ∧ frame (recvEnd.set s p) = frame s)
    {ts : List ProtoTunnelPackage} (hcarries : Carries pb (c s id) ts)
    (hbuf : (c s id).sendBuf = []) (hne : (c s id).content ≠ []) {e : TunnelEvent κ}
    (he : ok e.process) (hrecv : e.recv = [(c s id).wire.length]) :
    weight (c (readEvent pb recvEnd process s e) id) < weight (c s id) ∧
      Settles c frame id s (readEvent pb recvEnd process s e) := by
  have hself : ∀ s p, c (recvEnd.set s p) id = p := fun s p => by rw [← hget, H.get_set]
  rw [readEvent, hrecv, hget s]
  -- the state behind the read loop
  generalize hs₁ : recvEnd.set s (readTunnel (c s id) [(c s id).wire.length]) = s₁
  have hpipe : c s₁ id = readTunnel (c s id) [(c s id).wire.length] := hs₁ ▸ hself s _
  have hothers := hs₁ ▸ hset s (readTunnel (c s id) [(c s id).wire.length])
  suffices hlt : weight (c (packageLoop pb recvEnd process (recvEnd.get s₁).recvBuf.length
      (s₁, e.process)).1 id) < weight (c s id) from
    have hloop := H.packageLoop (recvEnd.get s₁).recvBuf.length s₁ e.process he
    ⟨hlt, hlt.le, fun e' he' => (hloop.2.1 e' he').trans (hothers.1 e' he'),
      hloop.2.2.trans hothers.2⟩
  by_cases hwire : (c s id).wire = []
  · rw [readTunnel_nil hwire] at hpipe
    have hrest : (c s id).recvBuf ≠ [] := fun hnil =>
      hne (Pipe.content_eq_nil_iff.mpr ⟨hnil, hwire, hbuf⟩)
    obtain ⟨u, r, hlt, hframe⟩ := hcarries.package hbuf hwire hrest
    obtain ⟨fuel, hfuel⟩ := Nat.exists_eq_succ_of_ne_zero (List.length_pos_iff.mpr hrest).ne'
    rw [← hpipe] at hlt hframe hrest hfuel
    rw [hget, hfuel]
    have hloop := (H.packageLoop_of_package fuel s₁ he ((hget s₁).symm ▸ hrest)
      ((hget s₁).symm ▸ hframe)).1
    rw [hself, hget] at hloop
    refine hloop.trans_lt ?_
    rw [hpipe] at hlt ⊢
    simp only [weight]
    omega
  · refine (H.packageLoop _ s₁ _ he).1.trans_lt ?_
    rw [hpipe]
    exact weight_read hwire

/-! ## All tunnels -/

variable (workerCnt pb S) in
/-- Between two calls of handlers, with these calls of `tunnel_forward` so far. -/
structure Calm (calls : Int → List (List Int × ProtoPackage)) (s : Net) : Prop where
  relayed : Relayed workerCnt pb S s
  idle : s.turn = none
  forwarded : s.forwarded = calls

variable {calls : Int → List (List Int × ProtoPackage)} {id : Int}

theorem Calm.of_handle {h : Handler} (hs : Calm workerCnt pb S calls s)
    (hh : handle workerCnt pb S s h = some s') (hquiet : h.Quiet) (hforwarded : s'.forwarded = s.forwarded) :
    Calm workerCnt pb S calls s' := by
  obtain ⟨hrun, hidle⟩ := handle_reaches hquiet.serialises hh hs.idle
  exact ⟨hs.relayed.of_runs hrun, hidle, hforwarded.trans hs.forwarded⟩

/-- Nothing is on its way from a thread that does not exist. -/
theorem Calm.content_up (h : Calm workerCnt pb S calls s) (hid : hasTunnel workerCnt id = false) :
    (s.up id).content = [] := by
  obtain ⟨r, hsim⟩ := h.relayed
  obtain ⟨ts, hcarries, hrouted, -⟩ := hsim.up id
  rw [current_of_idle h.idle, List.nil_append] at hcarries
  cases ts with
  | nil => exact hcarries.1
  | cons t ts =>
    have := (hrouted t List.mem_cons_self).tunnel
    rw [hid] at this
    exact absurd this (by simp)

/-- Something on its way from a thread gets nearer to the main thread, or is forwarded. -/
theorem Calm.up_progress (h : Calm workerCnt pb S calls s) (hid : hasTunnel workerCnt id = true)
    (hne : (s.up id).content ≠ []) :
    Progress workerCnt pb S Net.up (Calm workerCnt pb S calls) s id := by
  by_cases hbuf : (s.up id).sendBuf = []
  · obtain ⟨r, hsim⟩ := h.relayed
    obtain ⟨ts, hcarries, -⟩ := hsim.up id
    rw [current_of_idle h.idle, List.nil_append] at hcarries
    obtain ⟨hlt, -, hothers, hforwarded⟩ := readEvent_settles (mainSettles workerCnt S id)
      (fun _ => rfl) (fun s p => ⟨fun e he => Function.update_of_ne he _ _, rfl⟩) hcarries hbuf hne
      (e := ⟨true, false, [(s.up id).wire.length], [], []⟩) trivial rfl
    have hh : handle workerCnt pb S s
        (.mainEvent id ⟨true, false, [(s.up id).wire.length], [], []⟩) = some _ := rfl
    exact ⟨_, _, hh, trivial, h.of_handle hh trivial hforwarded, hlt, hothers⟩
  · have hh : handle workerCnt pb S s
        (.event id ⟨false, true, [], [], [.sent (s.up id).sendBuf.length]⟩) = some
          (s.setUp id (trySendFlushTunnel (s.up id) [.sent (s.up id).sendBuf.length])) := if_pos hid
    refine ⟨_, _, hh, rfl, h.of_handle hh rfl rfl, ?_, fun e he => Function.update_of_ne he _ _⟩
    rw [up_setUp]
    exact weight_flush hbuf

variable (workerCnt pb S) in
/-- Nothing is on its way to the main thread. -/
def UpEmpty (calls : Int → List (List Int × ProtoPackage)) (s : Net) : Prop :=
  Calm workerCnt pb S calls s ∧ ∀ e, (s.up e).content = []

/-- Something on its way to a thread gets nearer, or is processed. -/
theorem UpEmpty.down_progress (h : UpEmpty workerCnt pb S calls s)
    (hid : hasTunnel workerCnt id = true) (hne : (s.down id).content ≠ []) :
    Progress workerCnt pb S Net.down (UpEmpty workerCnt pb S calls) s id := by
  by_cases hbuf : (s.down id).sendBuf = []
  · obtain ⟨r, hsim⟩ := h.1.relayed
    obtain ⟨hlt, -, hothers, hframe⟩ := readEvent_settles (threadSettles workerCnt S id)
      (fun _ => rfl) (fun s p => ⟨fun e he => Function.update_of_ne he _ _, rfl⟩) (hsim.down id) hbuf hne
      (e := ⟨true, false, [(s.down id).wire.length], [], []⟩) rfl rfl
    have hh : handle workerCnt pb S s
        (.event id ⟨true, false, [(s.down id).wire.length], [], []⟩) = some _ := if_pos hid
    obtain ⟨hup, hforwarded⟩ := Prod.mk.inj hframe
    exact ⟨_, _, hh, rfl, ⟨h.1.of_handle hh rfl hforwarded, fun e => (congrFun hup e) ▸ h.2 e⟩, hlt,
      hothers⟩
  · have hh : handle workerCnt pb S s
        (.mainEvent id ⟨false, true, [], [], [.sent (s.down id).sendBuf.length]⟩) = some
          (s.setDown id (trySendFlushTunnel (s.down id) [.sent (s.down id).sendBuf.length])) := rfl
    refine ⟨_, _, hh, trivial, ⟨h.1.of_handle hh trivial rfl, h.2⟩, ?_,
      fun e he => Function.update_of_ne he _ _⟩
    rw [down_setDown]
    exact weight_flush hbuf

/-- **The tunnels can be drained**, without a further call of `tunnel_forward`. -/
theorem exists_drained (hs : Calm workerCnt pb S calls s) :
    ∃ s', Quietly workerCnt pb S s s' ∧ UpEmpty workerCnt pb S calls s' ∧
      ∀ d, isWorkerTunnelId workerCnt d = true → (s'.down d).content = [] := by
  have htunnel : ∀ e, e ∈ otherTunnelId :: workerAllTunnelId workerCnt ↔
      hasTunnel workerCnt e = true := fun e => by
    rw [List.mem_cons, mem_workerAllTunnelId, or_comm, ← hasTunnel_iff]
  obtain ⟨s₁, hrun, hcalm, hup⟩ := exists_all_empty Net.up (Calm workerCnt pb S calls)
    (otherTunnelId :: workerAllTunnelId workerCnt)
    (fun _ h e he hne => h.up_progress ((htunnel e).mp he) hne) hs
  have hempty : UpEmpty workerCnt pb S calls s₁ := by
    refine ⟨hcalm, fun e => ?_⟩
    by_cases he : hasTunnel workerCnt e = true
    · exact hup e ((htunnel e).mpr he)
    · exact hcalm.content_up (by simpa using he)
  obtain ⟨s₂, hrun', hempty', hdown⟩ := exists_all_empty Net.down (UpEmpty workerCnt pb S calls)
    (workerAllTunnelId workerCnt) (fun _ h e he hne =>
      h.down_progress ((htunnel e).mp (List.mem_cons_of_mem _ he)) hne) hempty
  exact ⟨s₂, hrun.trans hrun', hempty', fun d hd => hdown d (mem_workerAllTunnelId.mpr hd)⟩

/-- Then a worker has processed all that was forwarded to it. -/
theorem UpEmpty.processedFrom_eq (h : UpEmpty workerCnt pb S calls s) (x : Int) {d : Int}
    (hd : isWorkerTunnelId workerCnt d = true) (hdown : (s.down d).content = []) :
    s.processedFrom d x = s.forwardedTo x d := by
  obtain ⟨r, hsim⟩ := h.1.relayed
  obtain ⟨ts, hcarries, -, hup⟩ := hsim.up x
  rw [current_of_idle h.1.idle, List.nil_append] at hcarries
  rw [hcarries.eq_nil (h.2 x), List.map_nil] at hup
  rw [hsim.processedFrom_eq, ← hsim.put x d hd]
  exact (hsim.fifo x d).of_drained hup (hsim.hub.trans (copies_of_idle h.1.idle))
    (List.map_eq_nil_iff.mp ((hsim.down d).eq_nil hdown))

/-- **No message is lost**: after every sequence of events and calls of `tunnel_forward` there are
events, in which nothing is forwarded, after which every worker has processed all that was forwarded
to it. -/
theorem exists_all_processed {hs : List Handler} (hser : ∀ h ∈ hs, h.Serialises workerCnt pb S)
    (hrun : exec (handle workerCnt pb S) {} hs = some s) :
    ∃ hs' s', (∀ h ∈ hs', h.Quiet) ∧ exec (handle workerCnt pb S) s hs' = some s' ∧
      s'.forwarded = s.forwarded ∧ ∀ x d, isWorkerTunnelId workerCnt d = true →
        s'.processedFrom d x = s.forwardedTo x d := by
  obtain ⟨hrelayed, hidle⟩ := relayed_of_handlers hser hrun
  have hcalm : Calm workerCnt pb S s.forwarded s := ⟨hrelayed, hidle, rfl⟩
  obtain ⟨s', ⟨hs', halong, hrun'⟩, hempty, hdown⟩ := exists_drained hcalm
  refine ⟨hs', s', forall_of_along halong hrun', hrun', hempty.1.forwarded, fun x d hd => ?_⟩
  rw [hempty.processedFrom_eq x hd (hdown d hd), Net.forwardedTo, hempty.1.forwarded]
  rfl

/-- Worker 0 has forwarded to worker 1, and five bytes of it are sent. -/
theorem exists_all_processed_zero_to_one :
    ∃ s hs' s', exec (handle 2 proto3 .inOrder) {} (zeroToOne.take 1) = some s ∧
      s.processedFrom 1 0 = [] ∧ (∀ h ∈ hs', Handler.Quiet h) ∧
      exec (handle 2 proto3 .inOrder) s hs' = some s' ∧ s'.processedFrom 1 0 = s.forwardedTo 0 1 ∧
      s.forwardedTo 0 1 = [⟨7, [65]⟩] := by
  have hfirst : Serialises 2 proto3 .inOrder (.forward 0 [1] ⟨7, [65]⟩) := by decide +kernel
  have hser : ∀ h ∈ zeroToOne.take 1, h.Serialises 2 proto3 .inOrder := by
    simp [zeroToOne, Handler.Serialises, hfirst]
  obtain ⟨s, hs, hnone, hone⟩ : ∃ s, exec (handle 2 proto3 .inOrder) {} (zeroToOne.take 1) = some s ∧
      s.processedFrom 1 0 = [] ∧ s.forwardedTo 0 1 = [⟨7, [65]⟩] :=
    exists_exec (by decide +kernel) fun s _ h => h
  obtain ⟨hs', s', hquiet, hrun', -, hall⟩ := exists_all_processed hser hs
  exact ⟨s, hs', s', hs, hnone, hquiet, hrun', hall 0 1 (by decide), hone⟩

end Avant.Tunnel
