import Avant.Conn.StreamCtx

/-!
# Stream framing and the way the bytes are cut

A client sends frames, the connection reads their bytes in as many events as the kernel likes.
`onEvent` appends what it read to the receive buffer and runs the loop once. The loop leaves at
the first frame it drops, one that is empty or does not parse, although complete frames may
stand behind it; they wait for the next event.

The receive buffer is therefore the queue of `Lib/BlockQueue.lean`: frames join it as their last
byte arrives (`FrameCodec.arrivals`), a dropped frame is a stop element, and one event is one
service. `Sim` is that correspondence, `onEvent_sim` its step, `run_sim` the run; a buffer of
more than 2048000 bytes closes the connection instead (`Dead`, which no event leaves).

Results:
* **`run_settled_iff`**: the packages delivered are those of the parsable frames, and nothing is
  left in the buffer of the open connection, exactly when `Paced`: no tail of the events
  completes frames that need more services than it has events, and the frames still waiting never
  exceed the limit of the buffer.
-/

namespace Avant.Conn

open Avant.Lib Avant.Proto Avant.Socket

namespace StreamCtx

variable {π : Type} {useSsl : Bool} {parse : Bytes → Option π} {s : StreamCtx π} {ev : Event}

/-- A sequence of events, with an application that does not throw. -/
def run (useSsl : Bool) (parse : Bytes → Option π) (s : StreamCtx π) (evs : List Event) :
    StreamCtx π :=
  evs.foldl (onEvent useSsl (parseSlice parse) {}) s

/-- The bytes an event reads. -/
def gathered (ev : Event) : Bytes :=
  (if ev.read then recvLoop 10240 ev.recvs [] else some []).getD []

/-- An event in which nothing fails: no error flag, a TLS handshake that is through, a peer that
is there, and sends that deliver or would block. -/
structure Quiet (ev : Event) : Prop where
  err : ev.err = false
  sslAccept : ev.sslAccept = .accepted
  recvs : .closed ∉ ev.recvs
  sends : ∀ r ∈ ev.sends, r ≠ .zero ∧ r ≠ .failed

/-- The connection is attached and not marked for closing. -/
def Open (s : StreamCtx π) : Prop := s.attached = true ∧ s.conn.isClose = false

/-- The connection was closed, or will be by the next event. -/
def Dead (s : StreamCtx π) : Prop := s.attached = false ∨ s.conn.isClose = true

/-- What a stream of frames should have led to, from `s` to `s'`: the connection is open, the
packages of the parsable frames were delivered in order, and nothing waits. -/
def Settled (parse : Bytes → Option π) (fs : List (Payload 8)) (s s' : StreamCtx π) : Prop :=
  s'.Open ∧ s'.packages = s.packages ++ fs.filterMap (fun p => framePackage parse p.1) ∧
    s'.conn.recvBuffer = []

/-- Bytes of a list of frames. -/
def frameBytes (l : List (Payload 8)) : Nat := (frame64.encAll l).length

/-- The frames, cut into reads of the given lengths, keep pace with the events: behind any of
them, the frames completed need at most as many services as there are events (`passes`: one for
each dropped frame, one more if others follow the last of those); and whatever the events before
an event could not serve, counted from any earlier event on, fits the receive buffer together
with what the event reads. -/
def Paced (parse : Bytes → Option π) (fs : List (Payload 8)) (ns : List Nat) : Prop :=
  let xs := frame64.arrivals fs 0 ns
  (∀ k ≤ xs.length, passes (ending parse) ((xs.map Prod.fst).drop k).flatten ≤ xs.length - k) ∧
    ∀ i, ∀ h : i < xs.length, ∀ k ≤ i,
      frameBytes (backlogFrom (ending parse) ((xs.take i).map Prod.fst) k) +
        (frameBytes xs[i].1 + xs[i].2) ≤ 2048000

/-! ## One event -/

theorem recvLoop_ne_none {size : Nat} :
    ∀ {rs : List RecvResult} {acc : Bytes}, .closed ∉ rs → ∃ bs, recvLoop size rs acc = some bs
  | [], acc, _ => ⟨acc, rfl⟩
  | r :: rs, acc, h => by
    have hrs : .closed ∉ rs := fun hc => h (List.mem_cons_of_mem _ hc)
    unfold recvLoop
    split
    · cases r with
      | data bs => exact recvLoop_ne_none hrs
      | again => exact ⟨acc, rfl⟩
      | intr => exact recvLoop_ne_none hrs
      | closed => exact absurd List.mem_cons_self h
    · exact ⟨acc, rfl⟩

theorem flushLoop_quiet :
    ∀ {rs : List SendResult} {buf wire : Bytes}, (∀ r ∈ rs, r ≠ .zero ∧ r ≠ .failed) →
      (flushLoop rs buf wire).2.2 = false
  | [], _, _, _ => rfl
  | r :: rs, buf, wire, h => by
    have hr := h r List.mem_cons_self
    unfold flushLoop
    split
    · rfl
    · cases r with
      | sent n => exact flushLoop_quiet fun r' hr' => h r' (List.mem_cons_of_mem _ hr')
      | again | intr => rfl
      | zero => exact absurd rfl hr.1
      | failed => exact absurd rfl hr.2

/-- What the framing reads of a state: the flags, the receive buffer and the packages. -/
def SameFraming (s s' : StreamCtx π) : Prop :=
  s'.attached = s.attached ∧ s'.conn.isClose = s.conn.isClose ∧
    s'.conn.recvBuffer = s.conn.recvBuffer ∧ s'.packages = s.packages

theorem sslStep_quiet (useSsl : Bool) (s : StreamCtx π) (hq : Quiet ev) :
    ∃ s', s.sslStep useSsl {} ev = (s', true) ∧ SameFraming s s' := by
  unfold sslStep
  split
  · rw [hq.sslAccept]
    refine ⟨_, rfl, rfl, rfl, rfl, ?_⟩
    simp [packages]
  · exact ⟨s, rfl, rfl, rfl, rfl, rfl⟩

theorem onEvent_quiet (useSsl : Bool) (parse : Bytes → Option π) (ho : s.Open) (hq : Quiet ev) :
    ∃ s', SameFraming s s' ∧ s.onEvent useSsl (parseSlice parse) {} ev =
      s'.readProcessWrite (parseSlice parse) {} ev := by
  obtain ⟨s', hssl, hsame⟩ := sslStep_quiet useSsl s hq
  refine ⟨s', hsame, ?_⟩
  unfold onEvent
  simp only [ho.1, ho.2, hq.err, hssl, Bool.not_true, Bool.false_eq_true, if_false]

/-- The loop of the application is a no-op on an empty buffer, so the test for one before it
does not matter. -/
theorem processStep_eq :
    s.processStep (parseSlice parse) {} = s.onProcessConnection (parseSlice parse) {} := by
  unfold processStep
  split
  · rfl
  · rename_i h
    obtain ⟨⟨recvBuffer, _, _, _, _, _, _⟩, _, _, _⟩ := s
    obtain rfl : recvBuffer = [] := List.length_eq_zero_iff.mp (Nat.eq_zero_of_not_pos h)
    simp [onProcessConnection, maxPackageNumPerLoop, frameLoop, deliver, setRecvBuffer]

/-- What an event read joins the buffer and is processed; writing changes neither. -/
theorem readProcessWrite_quiet (hq : Quiet ev) {s₁ : StreamCtx π}
    (hproc : (s.setRecvBuffer (s.conn.recvBuffer ++ gathered ev)).onProcessConnection
      (parseSlice parse) {} = (s₁, false)) :
    SameFraming s₁ (s.readProcessWrite (parseSlice parse) {} ev) := by
  obtain ⟨bs, hbs⟩ : ∃ bs, (if ev.read then recvLoop 10240 ev.recvs [] else some []) = some bs := by
    split
    · exact recvLoop_ne_none hq.recvs
    · exact ⟨[], rfl⟩
  have hg : gathered ev = bs := by rw [gathered, hbs, Option.getD_some]
  rw [hg] at hproc
  unfold readProcessWrite
  simp only [hbs, processStep_eq, hproc, Bool.false_eq_true, if_false]
  split
  · refine ⟨rfl, ?_, rfl, rfl⟩
    show (s₁.conn.isClose || _) = s₁.conn.isClose
    rw [flushLoop_quiet hq.sends, Bool.or_false]
  · exact ⟨rfl, rfl, rfl, rfl⟩

/-- The bytes of a frame that is not complete make the loop wait. -/
theorem streamFrameStep_wait {u : List (Payload 8)} {a : Nat} (hu : ∀ p ∈ u, p.1.length ≤ 10240)
    (hpart : frame64.dec ((frame64.encAll u).take a) = none) :
    streamFrameStep (parseSlice parse) ((frame64.encAll u).take a) = .wait := by
  set part := (frame64.encAll u).take a with hdef
  unfold streamFrameStep
  by_cases h8 : 8 ≤ part.length
  · cases u with
    | nil => simp [hdef] at h8
    | cons p u =>
      have hsize : toh64FromBuffer part = p.1.length := by
        have htake : part.take 8 = (frame64.encAll (p :: u)).take 8 := by
          rw [hdef, List.length_take] at h8
          rw [hdef, List.take_take, Nat.min_eq_left (by omega)]
        rw [toh64FromBuffer, htake]
        exact declared_lenEnc 8 p _
      have hp : p.1.length ≤ 10240 := hu p List.mem_cons_self
      have hshort : part.length < 8 + p.1.length := by
        by_contra hc
        have hd : ¬(8 ≤ part.length ∧ 8 + declared 8 part ≤ part.length) := by
          intro hb
          have : lenDec 8 part = none := hpart
          rw [lenDec, dif_pos hb] at this
          exact absurd this (by simp)
        exact hd ⟨h8, by rw [show declared 8 part = p.1.length from hsize]; omega⟩
      have hadd : addU64 p.1.length 8 = p.1.length + 8 := by unfold addU64; omega
      rw [if_pos h8]
      simp only [hsize, hadd]
      rw [if_neg (by simpa [onRecvedPacksize] using hp), if_pos (by omega)]
  · rw [if_neg h8]

theorem length_lt_maxPackageNumPerLoop {l : List (Payload 8)} (h : frameBytes l ≤ 2048000) :
    l.length < maxPackageNumPerLoop := by
  have hlen : 8 * l.length ≤ frameBytes l := mul_length_le_flatMap fun p _ =>
    (Nat.le_add_right 8 _).trans_eq (length_lenEnc 8 p).symm
  unfold maxPackageNumPerLoop
  omega

/-- **One call of the loop is one service** of the frames in the buffer. -/
theorem onProcessConnection_frames {l u : List (Payload 8)} {a : Nat}
    (hl : ∀ p ∈ l, p.1.length ≤ 10240) (hu : ∀ p ∈ u, p.1.length ≤ 10240)
    (hpart : frame64.dec ((frame64.encAll u).take a) = none)
    (hbuf : s.conn.recvBuffer = frame64.encAll l ++ (frame64.encAll u).take a)
    (hlim : s.conn.recvBuffer.length ≤ 2048000) :
    s.onProcessConnection (parseSlice parse) {} =
      ((s.deliver ((served (ending parse) l).filterMap fun p => framePackage parse p.1)).setRecvBuffer
        (frame64.encAll (serve (ending parse) l) ++ (frame64.encAll u).take a), false) := by
  have hbytes : frameBytes l ≤ 2048000 := by
    rw [hbuf, List.length_append] at hlim
    exact Nat.le_trans (Nat.le_add_right _ _) hlim
  have hwait : streamFrameStep (parseSlice parse) ((frame64.encAll u).take a) = .wait :=
    streamFrameStep_wait hu hpart
  have hloop := frameLoop_encAll (fun _ => hwait) maxPackageNumPerLoop l
    (length_lt_maxPackageNumPerLoop hbytes)
    fun p hp r => streamFrameStep_dec (lenDec_eq_some.mpr rfl) (hl p hp)
  unfold onProcessConnection
  rw [if_neg (by omega)]
  simp only [hbuf, hloop]

/-! ## The simulation -/

/-- The receive buffer as a queue: the frames `q` wait, `a` bytes of the frames `u` still to be
completed are there, and the packages delivered, with those of the frames to come, are `want`. -/
structure Sim (parse : Bytes → Option π) (want : List π) (s : StreamCtx π)
    (q u : List (Payload 8)) (a : Nat) : Prop where
  isOpen : s.Open
  sizes : ∀ p ∈ q ++ u, p.1.length ≤ 10240
  buffer : s.conn.recvBuffer = frame64.encAll q ++ (frame64.encAll u).take a
  read_le : a ≤ (frame64.encAll u).length
  incomplete : frame64.dec ((frame64.encAll u).take a) = none
  packages : s.packages ++ (q ++ u).filterMap (fun p => framePackage parse p.1) = want

/-- The frames in the buffer after an event, with the bytes of an incomplete one, fit. -/
def fits (l : List (Payload 8)) (a : Nat) : Bool := frameBytes l + a ≤ 2048000

/-- **One event**: what it reads completes the frames that `cut` says, and the queue is served;
or the buffer is over its limit and the connection is marked for closing. -/
theorem onEvent_sim (useSsl : Bool) {want : List π} {q u : List (Payload 8)} {a : Nat} {rest : Bytes}
    (hsim : Sim parse want s q u a) (hq : Quiet ev)
    (hbytes : (frame64.encAll u).take a ++ (gathered ev ++ rest) = frame64.encAll u) :
    let c := frame64.cut u (a + (gathered ev).length)
    (fits (q ++ c.1) c.2.2 = true →
      Sim parse want (s.onEvent useSsl (parseSlice parse) {} ev)
        (serve (ending parse) (q ++ c.1)) c.2.1 c.2.2 ∧
      (frame64.encAll c.2.1).take c.2.2 ++ rest = frame64.encAll c.2.1) ∧
    (fits (q ++ c.1) c.2.2 = false → (s.onEvent useSsl (parseSlice parse) {} ev).Dead) := by
  intro c
  obtain ⟨s', ⟨hatt, hcl, hrb, hpk⟩, hev⟩ :=
    onEvent_quiet useSsl parse hsim.isOpen hq
  have hread : a + (gathered ev).length ≤ (frame64.encAll u).length := by
    have := congrArg List.length hbytes
    simp only [List.length_append, List.length_take, Nat.min_eq_left hsim.read_le] at this
    omega
  have hcut : c.1 ++ c.2.1 = u := FrameCodec.cut_append u _
  have htake : (frame64.encAll u).take a ++ gathered ev =
      frame64.encAll c.1 ++ (frame64.encAll c.2.1).take c.2.2 := by
    have hlen : ((frame64.encAll u).take a ++ gathered ev).length = a + (gathered ev).length := by
      rw [List.length_append, List.length_take, Nat.min_eq_left hsim.read_le]
    have hfirst : ((frame64.encAll u).take a ++ gathered ev ++ rest).take
        (a + (gathered ev).length) = (frame64.encAll u).take a ++ gathered ev :=
      List.take_left' hlen
    rw [← FrameCodec.cut_take, ← hfirst, List.append_assoc, hbytes]
  have hbuf : s'.conn.recvBuffer ++ gathered ev =
      frame64.encAll (q ++ c.1) ++ (frame64.encAll c.2.1).take c.2.2 := by
    rw [hrb, hsim.buffer, List.append_assoc, htake, FrameCodec.encAll_append, List.append_assoc]
  have hpartle : c.2.2 ≤ (frame64.encAll c.2.1).length := FrameCodec.cut_part_le hread
  have hlen : (s'.conn.recvBuffer ++ gathered ev).length = frameBytes (q ++ c.1) + c.2.2 := by
    rw [hbuf, List.length_append, List.length_take, Nat.min_eq_left hpartle, frameBytes]
  have hsizes : ∀ p ∈ q ++ c.1 ++ c.2.1, p.1.length ≤ 10240 := by
    rw [List.append_assoc, hcut]
    exact hsim.sizes
  rw [hev]
  constructor
  · intro hfits
    have hlim : (s'.conn.recvBuffer ++ gathered ev).length ≤ 2048000 := by
      simpa [hlen, fits] using hfits
    obtain ⟨hatt', hcl', hrb', hpk'⟩ := readProcessWrite_quiet hq <|
      onProcessConnection_frames (fun p hp => hsizes p (List.mem_append_left _ hp))
        (fun p hp => hsizes p (List.mem_append_right _ hp)) (FrameCodec.dec_cut_part hread) hbuf hlim
    refine ⟨⟨⟨hatt'.trans (hatt.trans hsim.isOpen.1), hcl'.trans (hcl.trans hsim.isOpen.2)⟩, ?_,
      hrb', hpartle, FrameCodec.dec_cut_part hread, ?_⟩, ?_⟩
    · intro p hp
      apply hsizes
      rw [List.mem_append] at hp ⊢
      exact hp.imp_left fun h => (serve_suffix _).subset h
    · rw [hpk', setRecvBuffer_packages, deliver_packages, setRecvBuffer_packages, hpk,
        List.append_assoc, ← List.filterMap_append, ← List.append_assoc,
        served_append_serve, List.append_assoc, hcut]
      exact hsim.packages
    · have hall : frame64.encAll u = frame64.encAll c.1 ++ frame64.encAll c.2.1 := by
        rw [← FrameCodec.encAll_append, hcut]
      rw [← List.append_assoc, htake, List.append_assoc, hall] at hbytes
      exact List.append_cancel_left hbytes
  · intro hfits
    have hover : ¬ frameBytes (q ++ c.1) + c.2.2 ≤ 2048000 := by simpa [fits] using hfits
    have hproc : (s'.setRecvBuffer (s'.conn.recvBuffer ++ gathered ev)).onProcessConnection
        (parseSlice parse) {} =
          ((s'.setRecvBuffer (s'.conn.recvBuffer ++ gathered ev)).setIsClose, false) := by
      unfold onProcessConnection
      rw [if_pos (by rw [setRecvBuffer_recvBuffer, hlen]; omega)]
    exact .inr (readProcessWrite_quiet hq hproc).2.1

/-! ## A whole run -/

/-- An event does not bring a closing connection back. -/
theorem onEvent_dead (h : s.Dead) : (s.onEvent useSsl (parseSlice parse) {} ev).Dead := by
  unfold onEvent
  split
  · exact h
  · rename_i hatt
    obtain h | h := h
    · simp [h] at hatt
    · have hclose : (if ev.err then s.setIsClose else s).conn.isClose = true := by
        split
        · rfl
        · exact h
      simp only [hclose, if_true]
      exact .inl rfl

theorem run_dead (h : s.Dead) (evs : List Event) : (s.run useSsl parse evs).Dead := by
  induction evs generalizing s with
  | nil => exact h
  | cons ev evs ih => exact ih (onEvent_dead h)

/-- **A run**: when all bytes have been read, the queue of frames, limited by the size of the
buffer, says what is left, and whether the connection was closed. -/
theorem run_sim (useSsl : Bool) {want : List π} :
    ∀ {evs : List Event} {s : StreamCtx π} {q u : List (Payload 8)} {a : Nat},
      Sim parse want s q u a → (∀ ev ∈ evs, Quiet ev) →
      (frame64.encAll u).take a ++ (evs.map gathered).flatten = frame64.encAll u →
      match (frame64.arrivals u a (evs.map fun ev => (gathered ev).length)).foldl
          (limitedStep (ending parse) fits) (some q) with
      | none => (s.run useSsl parse evs).Dead
      | some q' => Sim parse want (s.run useSsl parse evs) q' [] 0
  | [], s, q, u, a, hsim, _, hbytes => by
    -- all bytes are there, so no frame is incomplete
    have hu : u = [] := by
      have hd := hsim.incomplete
      rw [List.map_nil, List.flatten_nil, List.append_nil] at hbytes
      rw [hbytes] at hd
      cases u with
      | nil => rfl
      | cons p u =>
        rw [FrameCodec.encAll_cons, FrameCodec.dec_enc_append] at hd
        exact absurd hd (by simp)
    subst hu
    have hb := hsim.buffer
    rw [FrameCodec.encAll_nil, List.take_nil] at hb
    exact ⟨hsim.isOpen, hsim.sizes, hb, Nat.zero_le _, FrameCodec.dec_nil, hsim.packages⟩
  | ev :: evs, s, q, u, a, hsim, hq, hbytes => by
    rw [List.map_cons, List.flatten_cons] at hbytes
    obtain ⟨hserve, hover⟩ := onEvent_sim useSsl hsim (hq ev List.mem_cons_self) hbytes
    have hevs : ∀ ev' ∈ evs, Quiet ev' := fun ev' h => hq ev' (List.mem_cons_of_mem _ h)
    rw [List.map_cons, FrameCodec.arrivals, List.foldl_cons, limitedStep, Option.bind_some]
    cases hfits : fits (q ++ (frame64.cut u (a + (gathered ev).length)).1)
        (frame64.cut u (a + (gathered ev).length)).2.2 with
    | true =>
      obtain ⟨hsim', hrest⟩ := hserve hfits
      rw [if_pos rfl]
      exact run_sim useSsl hsim' hevs hrest
    | false =>
      simp only [Bool.false_eq_true, if_false, foldl_limitedStep_none]
      exact run_dead (hover hfits) evs

/-- A batch fits behind the backlog when it does behind every part of it that `backlogFrom`
sees. -/
theorem fits_backlog_iff (stop : Payload 8 → Bool) (xs : List (List (Payload 8)))
    (x : List (Payload 8)) (a : Nat) :
    fits (backlog stop xs ++ x) a = true ↔
      ∀ k ≤ xs.length, frameBytes (backlogFrom stop xs k) + (frameBytes x + a) ≤ 2048000 := by
  have hmono : ∀ {l l' : List (Payload 8)}, l <:+ l' →
      frameBytes l + (frameBytes x + a) ≤ frameBytes l' + (frameBytes x + a) := by
    rintro l l' ⟨p, rfl⟩
    simp [frameBytes]
  have happ : frameBytes (backlog stop xs ++ x) + a =
      frameBytes (backlog stop xs) + (frameBytes x + a) := by
    simp only [frameBytes, FrameCodec.encAll_append, List.length_append, Nat.add_assoc]
  rw [fits, decide_eq_true_eq, happ]
  exact weight_backlog_le_iff hmono xs 2048000

/-- The two conditions of `Paced` are those of the limited queue. -/
theorem paced_iff (parse : Bytes → Option π) (fs : List (Payload 8)) (ns : List Nat) :
    Paced parse fs ns ↔
      limitedBacklog (ending parse) fits (frame64.arrivals fs 0 ns) = some [] := by
  rw [limitedBacklog_eq_some, eq_comm, backlog_eq_nil_iff]
  refine and_congr ?_ (forall_congr' fun i => forall_congr' fun hi => ?_)
  · simp only [backlogFrom, iterate_serve_eq_nil, List.length_map]
  · have hlen : (((frame64.arrivals fs 0 ns).take i).map Prod.fst).length = i := by
      rw [List.length_map, List.length_take, Nat.min_eq_left (Nat.le_of_lt hi)]
    rw [fits_backlog_iff, hlen]

/-- The frames settle iff the limited queue of their arrivals ends up empty. -/
theorem settled_iff_limitedBacklog (useSsl : Bool) {fs : List (Payload 8)} {evs : List Event}
    (hs : s.Open) (hempty : s.conn.recvBuffer = []) (hfs : ∀ p ∈ fs, p.1.length ≤ 10240)
    (hq : ∀ ev ∈ evs, Quiet ev) (hbytes : (evs.map gathered).flatten = frame64.encAll fs) :
    Settled parse fs s (s.run useSsl parse evs) ↔
      limitedBacklog (ending parse) fits
        (frame64.arrivals fs 0 (evs.map fun ev => (gathered ev).length)) = some [] := by
  set want := s.packages ++ fs.filterMap (fun p => framePackage parse p.1) with hwant
  have hsim : Sim parse want s [] fs 0 :=
    ⟨hs, hfs, by simp [hempty], Nat.zero_le _, FrameCodec.dec_nil, hwant.symm⟩
  have hrun := run_sim useSsl hsim hq (by simpa using hbytes)
  rw [limitedBacklog]
  split at hrun
  · -- over the limit: the connection is gone
    rename_i hnone
    rw [hnone]
    refine ⟨fun hset => ?_, fun h => absurd h (by simp)⟩
    obtain hdead | hdead := hrun
    · exact absurd hdead (by simp [hset.1.1])
    · exact absurd hdead (by simp [hset.1.2])
  · rename_i q' hsome
    rw [hsome, Option.some.injEq]
    have hb := hrun.buffer
    have hp := hrun.packages
    rw [FrameCodec.encAll_nil, List.take_nil, List.append_nil] at hb
    rw [List.append_nil] at hp
    constructor
    · intro hset
      exact frame64.encAll_eq_nil.mp (hb ▸ hset.2.2)
    · rintro rfl
      exact ⟨hrun.isOpen, by rwa [List.filterMap_nil, List.append_nil] at hp, hb⟩

/-- **Framing and the cuts.** A stream of frames of at most 10240 bytes, read from an open
connection with an empty receive buffer in events in which nothing fails, leads to the packages
of its parsable frames in order, and to an empty buffer, exactly when the frames keep pace with
the events. -/
theorem run_settled_iff (useSsl : Bool) (parse : Bytes → Option π) (s : StreamCtx π)
    (fs : List (Payload 8)) (evs : List Event) (hs : s.Open) (hempty : s.conn.recvBuffer = [])
    (hfs : ∀ p ∈ fs, p.1.length ≤ 10240) (hq : ∀ ev ∈ evs, Quiet ev)
    (hbytes : (evs.map gathered).flatten = frame64.encAll fs) :
    Settled parse fs s (s.run useSsl parse evs) ↔
      Paced parse fs (evs.map fun ev => (gathered ev).length) := by
  rw [paced_iff]
  exact settled_iff_limitedBacklog useSsl hs hempty hfs hq hbytes

/-- A read event that finds these bytes. -/
def readEvent (bs : Bytes) : Event := { read := true, recvs := [.data bs, .again] }

theorem readEvent_quiet (bs : Bytes) : Quiet (readEvent bs) :=
  ⟨rfl, rfl, by simp [readEvent], by simp [readEvent]⟩

/-- A connection that has just been set up, without TLS. -/
def created : StreamCtx Bytes := onCreate false {} {}

def frameA : Payload 8 := ⟨ascii "a", by decide⟩

def frameEmpty : Payload 8 := ⟨[], Nat.pow_pos (Nat.succ_pos 255)⟩

/-- A frame cut in the middle of its header, and an empty one at the end of a read: the package
is delivered and nothing is left. -/
theorem run_settled_two_reads :
    Settled some [frameA, frameEmpty] created
      (created.run false some
        [readEvent [0, 0, 0], readEvent ([0, 0, 0, 0, 1, 97] ++ [0, 0, 0, 0, 0, 0, 0, 0])]) :=
  (run_settled_iff false some created [frameA, frameEmpty] _ (by unfold Open; decide) (by decide)
    (by decide) (by simp [readEvent_quiet]) (by decide)).mpr (by unfold Paced; decide)

/-- **A complete frame is left waiting**: an empty frame and one with a payload, in one read.
The loop leaves at the empty one. -/
theorem run_not_settled_one_read :
    ¬ Settled some [frameEmpty, frameA] created
      (created.run false some
        [readEvent ([0, 0, 0, 0, 0, 0, 0, 0] ++ [0, 0, 0, 0, 0, 0, 0, 1, 97])]) := by
  intro h
  exact absurd h.2.2 (by decide)

end StreamCtx

end Avant.Conn
