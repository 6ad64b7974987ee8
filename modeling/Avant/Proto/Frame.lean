import Avant.Lib.BlockQueue
import Avant.Lib.Framing

/-!
# Reading length-prefixed packages out of a receive buffer

Model of `src/proto/proto_util.cpp` (`ton64`, `toh64_from_buffer`, `pack_package`) and of the four
loops that cut packages out of a `vec_str_buffer`:

* `server::on_tunnel_event`, `worker::on_tunnel_event`, `other::on_tunnel_event` (one loop,
  written three times): `tunnelFrameStep`;
* `other_app::on_process_connection` (the IPC connections): `otherFrameStep`;
* `stream_app::on_process_connection` (the clients): `streamFrameStep`.

One turn of a loop is a function from the buffer to a `FrameStep`; `frameLoop` repeats it. The
loops differ in how they decide that the leading frame is complete, and in the size check of the
stream application. They agree on the rest: a frame of length zero, or one that does not parse,
is dropped and **ends the loop**, whatever else the buffer holds.

`ParseFromArray` takes the buffer behind the header and the declared length converted to `int`;
protobuf itself is a parameter. `uint64_t` arithmetic is on `Nat`, reduced modulo `2 ^ 64` where
the source adds.

Results:
* `tunnelFrameStep_dec`, `tunnelFrameStep_wait`: a turn of the tunnel loop is the decoder of
  `lenFrame 8`, whatever the length in the header;
* **`otherFrameStep_agrees_iff`**: a turn of the IPC loop decides as the tunnel loop does, and
  removes the frame it announces, exactly when its addition does not wrap.
-/

namespace Avant.Proto

open Avant.Lib

/-- `uint64_t` addition. -/
def addU64 (a b : Nat) : Nat := (a + b) % 2 ^ 64

/-- The conversion of a `uint64_t` to the `int` parameter of `ParseFromArray`. -/
def toInt32 (n : Nat) : Int := ((n + 2 ^ 31) % 2 ^ 32 : Nat) - 2 ^ 31

theorem toInt32_eq {n : Nat} (h : n < 2 ^ 31) : toInt32 n = n := by
  unfold toInt32
  omega

/-- `toh64_from_buffer`: the first eight bytes, big-endian. -/
def toh64FromBuffer (buf : Bytes) : Nat := ofBe (buf.take 8)

variable {buf : Bytes}

theorem toh64FromBuffer_lt (h : 8 ≤ buf.length) : toh64FromBuffer buf < 2 ^ 64 :=
  declared_lt h

/-- `pack_package(std::string &, …)` after serialisation: the length in network order, then the
serialised package; the empty string when the serialisation failed. -/
def packPackage : Option Bytes → Bytes
  | none => []
  | some data => beBytes 8 data.length ++ data

/-- `vec_str_buffer::move_read_ptr_n`. -/
def moveReadPtrN (buf : Bytes) (n : Nat) : Bytes := buf.drop (min n buf.length)

@[simp] theorem moveReadPtrN_eq (buf : Bytes) (n : Nat) : moveReadPtrN buf n = buf.drop n := by
  unfold moveReadPtrN
  rcases Nat.le_total n buf.length with h | h
  · rw [Nat.min_eq_left h]
  · rw [Nat.min_eq_right h, List.drop_length, List.drop_eq_nil_of_le h]

/-! ## One turn of a loop -/

/-- What one turn of a loop does with the buffer it is given. -/
inductive FrameStep (π : Type)
  /-- the leading frame is not complete: leave the loop -/
  | wait
  /-- the declared length is refused: mark the connection for closing and return -/
  | refuse
  /-- a frame was dropped (empty, or not parsable): leave the loop -/
  | skip (rest : Bytes)
  /-- a package was cut out: handle it and go on -/
  | package (p : π) (rest : Bytes)
  deriving DecidableEq

/-- The loop took the leading frame for complete. -/
def FrameStep.complete {π : Type} : FrameStep π → Bool
  | .skip _ | .package _ _ => true
  | .wait | .refuse => false

/-- The buffer a turn leaves behind, from the buffer it was given. -/
def FrameStep.rest {π : Type} (buf : Bytes) : FrameStep π → Bytes
  | .skip r | .package _ r => r
  | .wait | .refuse => buf

/-- `ProtoPackage::ParseFromArray(data, size)`, as called on the buffer behind the header. -/
abbrev ParseFromArray (π : Type) := Bytes → Int → Option π

/-- `ParseFromArray` on a size that lies within the data reads exactly that slice. -/
def parseSlice {π : Type} (parse : Bytes → Option π) : ParseFromArray π :=
  fun data size => parse (data.take size.toNat)

variable {π : Type}

/-- The part of a turn behind the completeness check, shared by all the loops. -/
def takeFrame (parse : ParseFromArray π) (buf : Bytes) : FrameStep π :=
  let dataSize := toh64FromBuffer buf
  if dataSize = 0 then .skip (moveReadPtrN buf 8)
  else
    match parse (buf.drop 8) (toInt32 dataSize) with
    | none => .skip (moveReadPtrN buf (addU64 8 dataSize))
    | some p => .package p (moveReadPtrN buf (addU64 8 dataSize))

/-- A turn of the loop in `server::on_tunnel_event` (and in `worker::` and
`other::on_tunnel_event`). -/
def tunnelFrameStep (parse : ParseFromArray π) (buf : Bytes) : FrameStep π :=
  if 8 ≤ buf.length then
    let dataSize := toh64FromBuffer buf
    if dataSize > buf.length || dataSize > buf.length - 8 then .wait
    else takeFrame parse buf
  else .wait

/-- A turn of the loop in `other_app::on_process_connection`. -/
def otherFrameStep (parse : ParseFromArray π) (buf : Bytes) : FrameStep π :=
  if 8 ≤ buf.length then
    let dataSize := toh64FromBuffer buf
    if addU64 dataSize 8 > buf.length then .wait
    else takeFrame parse buf
  else .wait

/-- `stream_app::on_recved_packsize`. -/
def onRecvedPacksize (size : Nat) : Bool := size ≤ 10240

/-- A turn of the loop in `stream_app::on_process_connection`. -/
def streamFrameStep (parse : ParseFromArray π) (buf : Bytes) : FrameStep π :=
  if 8 ≤ buf.length then
    let dataSize := toh64FromBuffer buf
    if onRecvedPacksize dataSize = false then .refuse
    else if addU64 dataSize 8 > buf.length then .wait
    else takeFrame parse buf
  else .wait

/-! ## A turn is the frame decoder -/

/-- The frames of all these loops: eight bytes of length. -/
abbrev frame64 : FrameCodec UInt8 (Payload 8) := lenFrame 8 (by decide)

/-- The package a frame carries: none when the frame is empty or does not parse. -/
def framePackage (parse : Bytes → Option π) (p : Bytes) : Option π :=
  if p = [] then none else parse p

/-- What becomes of a complete frame. -/
def classify (parse : Bytes → Option π) (p r : Bytes) : FrameStep π :=
  match framePackage parse p with
  | none => .skip r
  | some q => .package q r

theorem takeFrame_lenEnc (parse : Bytes → Option π) (p : Payload 8) (r : Bytes)
    (hp : p.1.length < 2 ^ 31) :
    takeFrame (parseSlice parse) (lenEnc 8 p ++ r) = classify parse p.1 r := by
  have hsize : toh64FromBuffer (lenEnc 8 p ++ r) = p.1.length := declared_lenEnc 8 p r
  have hbody : (lenEnc 8 p ++ r).drop 8 = p.1 ++ r := by
    rw [lenEnc, List.append_assoc, List.drop_left' (length_beBytes _ _)]
  have hrest : (lenEnc 8 p ++ r).drop (addU64 8 p.1.length) = r := by
    have hadd : addU64 8 p.1.length = 8 + p.1.length := by unfold addU64; omega
    rw [hadd]
    exact List.drop_left' (length_lenEnc 8 p)
  unfold takeFrame classify framePackage parseSlice
  simp only [hsize, hbody, moveReadPtrN_eq, toInt32_eq hp, Int.toNat_natCast, hrest,
    List.take_left]
  by_cases h0 : p.1 = []
  · simp [h0]
  · rw [if_neg (by simpa using h0), if_neg h0]

/-- **A turn of the tunnel loop on a complete frame** drops it or hands its package on. -/
theorem tunnelFrameStep_dec {parse : Bytes → Option π} {r : Bytes} {p : Payload 8}
    (h : lenDec 8 buf = some (p, r)) (hp : p.1.length < 2 ^ 31) :
    tunnelFrameStep (parseSlice parse) buf = classify parse p.1 r := by
  obtain rfl := lenDec_eq_some.mp h
  have hlen : (lenEnc 8 p ++ r).length = 8 + p.1.length + r.length := by simp
  have hsize : toh64FromBuffer (lenEnc 8 p ++ r) = p.1.length := declared_lenEnc 8 p r
  unfold tunnelFrameStep
  rw [if_pos (by omega)]
  simp only [hsize, hlen]
  rw [if_neg (by simp; omega)]
  exact takeFrame_lenEnc parse p r hp

/-- **A turn of the tunnel loop waits** exactly when the decoder finds no frame. -/
theorem tunnelFrameStep_wait {parse : ParseFromArray π} (h : lenDec 8 buf = none) :
    tunnelFrameStep parse buf = .wait := by
  unfold lenDec at h
  unfold tunnelFrameStep
  split_ifs at h with hb
  by_cases h8 : 8 ≤ buf.length
  · rw [if_pos h8]
    have hshort : buf.length < 8 + toh64FromBuffer buf := by
      by_contra hc
      exact hb ⟨h8, Nat.le_of_not_lt hc⟩
    rw [if_pos (by simp; omega)]
  · rw [if_neg h8]

/-- The size check of the stream application passes, and its sum cannot wrap, on every frame the
application accepts: there a turn is the decoder, too. -/
theorem streamFrameStep_dec {parse : Bytes → Option π} {r : Bytes} {p : Payload 8}
    (h : lenDec 8 buf = some (p, r)) (hp : p.1.length ≤ 10240) :
    streamFrameStep (parseSlice parse) buf = classify parse p.1 r := by
  obtain rfl := lenDec_eq_some.mp h
  have hlen : (lenEnc 8 p ++ r).length = 8 + p.1.length + r.length := by simp
  have hsize : toh64FromBuffer (lenEnc 8 p ++ r) = p.1.length := declared_lenEnc 8 p r
  have hadd : addU64 p.1.length 8 = p.1.length + 8 := by unfold addU64; omega
  unfold streamFrameStep
  rw [if_pos (by omega)]
  simp only [hsize, hlen, hadd]
  rw [if_neg (by simpa [onRecvedPacksize] using hp), if_neg (by omega)]
  exact takeFrame_lenEnc parse p r (by omega)

/-! ## The loops -/

/-- How a loop ended: it ran out of complete frames or dropped one, it refused a length, or the
handler of a package threw. -/
inductive LoopExit
  | left
  | refused
  | threw
  deriving DecidableEq

/-- The loop around a turn: the packages handed to the handler in order, the buffer left, and
the way out. At most `n` packages are handled. -/
def frameLoop (step : Bytes → FrameStep π) (throws : π → Bool) :
    Nat → Bytes → List π × Bytes × LoopExit
  | 0, buf => ([], buf, .left)
  | n + 1, buf =>
    if buf = [] then ([], buf, .left)
    else
      match step buf with
      | .wait => ([], buf, .left)
      | .refuse => ([], buf, .refused)
      | .skip r => ([], r, .left)
      | .package p r =>
        if throws p then ([p], r, .threw)
        else
          let q := frameLoop step throws n r
          (p :: q.1, q.2)

/-- Where every package takes bytes off the buffer, as many turns as there are bytes are enough. -/
theorem frameLoop_turns {step : Bytes → FrameStep π} {throws : π → Bool}
    (hstep : ∀ {buf p r}, step buf = .package p r → r.length < buf.length) :
    ∀ (m n : Nat) {buf : Bytes}, buf.length ≤ m → buf.length ≤ n →
      frameLoop step throws m buf = frameLoop step throws n buf
  | 0, n, buf, hm, _ => by
    obtain rfl := List.length_eq_zero_iff.mp (Nat.le_zero.mp hm)
    cases n <;> rfl
  | m + 1, 0, buf, _, hn => by
    obtain rfl := List.length_eq_zero_iff.mp (Nat.le_zero.mp hn)
    rfl
  | m + 1, n + 1, buf, hm, hn => by
    unfold frameLoop
    split
    · rfl
    · split
      · rfl
      · rfl
      · rfl
      · rename_i p r hpkg
        have hlt := hstep hpkg
        rw [frameLoop_turns hstep m n (by omega) (by omega)]

/-- A frame that ends the loop. -/
def ending (parse : Bytes → Option π) (p : Payload 8) : Bool := (framePackage parse p.1).isNone

/-- **The loop serves one block**: on complete frames `l` and an incomplete one, it hands on the
packages up to the first frame that is dropped, and leaves what stands behind that frame. -/
theorem frameLoop_encAll {parse : Bytes → Option π} {step : Bytes → FrameStep π} {part : Bytes}
    (hpart : part ≠ [] → step part = .wait) :
    ∀ (n : Nat) (l : List (Payload 8)), l.length < n →
      (∀ p ∈ l, ∀ r, step (lenEnc 8 p ++ r) = classify parse p.1 r) →
      frameLoop step (fun _ => false) n (frame64.encAll l ++ part) =
        ((served (ending parse) l).filterMap fun p => framePackage parse p.1,
          frame64.encAll (serve (ending parse) l) ++ part, .left)
  | n + 1, [], _, _ => by
    by_cases h : part = []
    · simp [frameLoop, served, serve, h]
    · simp [frameLoop, served, serve, h, hpart h]
  | n + 1, p :: l, hn, hstep => by
    have hne : frame64.encAll (p :: l) ++ part ≠ [] := by
      simp [frame64.enc_ne_nil p]
    have hturn : step (frame64.encAll (p :: l) ++ part) =
        classify parse p.1 (frame64.encAll l ++ part) := by
      rw [FrameCodec.encAll_cons, List.append_assoc]
      exact hstep p List.mem_cons_self _
    rw [frameLoop, if_neg hne, hturn]
    cases hq : framePackage parse p.1 with
    | none =>
      have hend : ending parse p = true := by simp [ending, hq]
      simp [classify, hq, served, serve, hend]
    | some q =>
      have hend : ending parse p = false := by simp [ending, hq]
      have ih := frameLoop_encAll hpart n l (Nat.lt_of_succ_lt_succ hn)
        fun p' hp' => hstep p' (List.mem_cons_of_mem _ hp')
      simp [classify, hq, served, serve, hend, ih]

/-! ## The IPC loop against the tunnel loop -/

/-- What a reader of 64-bit lengths owes its caller on one buffer: it takes the leading frame
for complete exactly when the tunnel loop does, so only when header and payload are there, and
it then removes exactly that frame. -/
def ReadsFrame (parse : ParseFromArray π) (buf : Bytes) : Prop :=
  (otherFrameStep parse buf).complete = (tunnelFrameStep parse buf).complete ∧
    ((otherFrameStep parse buf).complete = true →
      8 + toh64FromBuffer buf ≤ buf.length ∧
        (otherFrameStep parse buf).rest buf = buf.drop (8 + toh64FromBuffer buf))

variable (parse : ParseFromArray π)

theorem takeFrame_complete (buf : Bytes) : (takeFrame parse buf).complete = true := by
  unfold takeFrame
  simp only
  split
  · rfl
  · split <;> rfl

/-- Whatever parsing says, a frame whose length does not wrap is removed whole. -/
theorem takeFrame_rest (h : 8 + toh64FromBuffer buf < 2 ^ 64) :
    (takeFrame parse buf).rest buf = buf.drop (8 + toh64FromBuffer buf) := by
  have hadd : addU64 8 (toh64FromBuffer buf) = 8 + toh64FromBuffer buf := Nat.mod_eq_of_lt h
  unfold takeFrame
  simp only [moveReadPtrN_eq, hadd]
  split
  · rename_i h0
    rw [h0]
    rfl
  · split <;> rfl

/-- Both loops wait on a buffer without a whole header. -/
theorem readsFrame_of_short (h : buf.length < 8) : ReadsFrame parse buf := by
  unfold ReadsFrame otherFrameStep tunnelFrameStep
  rw [if_neg (by omega), if_neg (by omega)]
  simp [FrameStep.complete]

/-- **The IPC loop reads frames correctly exactly when its addition does not wrap**: on a buffer
with a header, when the declared length is below `2 ^ 64 - 8`. -/
theorem otherFrameStep_agrees_iff (parse : ParseFromArray π) (buf : Bytes)
    (hbuf : buf.length ≤ 2048000) :
    ReadsFrame parse buf ↔ (8 ≤ buf.length → toh64FromBuffer buf < 2 ^ 64 - 8) := by
  by_cases h8 : 8 ≤ buf.length
  · have hlt := toh64FromBuffer_lt h8
    constructor
    · rintro ⟨-, hread⟩ -
      -- past the bound the sum wraps below the eight bytes of the header, so the loop goes on
      by_contra hbig
      have hwrap : ¬ addU64 (toh64FromBuffer buf) 8 > buf.length := by unfold addU64; omega
      have hc : (otherFrameStep parse buf).complete = true := by
        unfold otherFrameStep
        rw [if_pos h8]
        simp only
        rw [if_neg hwrap]
        exact takeFrame_complete parse buf
      have := (hread hc).1
      omega
    · intro hsmall
      have hn := hsmall h8
      have hadd : addU64 (toh64FromBuffer buf) 8 = toh64FromBuffer buf + 8 :=
        Nat.mod_eq_of_lt (by omega)
      unfold ReadsFrame otherFrameStep tunnelFrameStep
      simp only [if_pos h8, hadd]
      by_cases hw : toh64FromBuffer buf + 8 > buf.length
      · rw [if_pos hw, if_pos (by simp; omega)]
        simp [FrameStep.complete]
      · rw [if_neg hw, if_neg (by simp; omega)]
        exact ⟨rfl, fun _ => ⟨by omega, takeFrame_rest parse (by omega)⟩⟩
  · exact ⟨fun _ h => absurd h h8, fun _ => readsFrame_of_short parse (by omega)⟩

/-- A package takes bytes off the buffer, also where the sum wraps: there the size is negative as an
`int`, and `ParseFromArray` refuses it. -/
theorem otherFrameStep_shorter {parse : ParseFromArray π}
    (hparse : ∀ data size, size < 0 → parse data size = none) {r : Bytes} {p : π}
    (h : otherFrameStep parse buf = .package p r) : r.length < buf.length := by
  unfold otherFrameStep at h
  split at h
  · rename_i h8
    simp only at h
    split at h
    · simp at h
    · have hlt := toh64FromBuffer_lt h8
      unfold takeFrame at h
      simp only at h
      split at h
      · simp at h
      · split at h
        · simp at h
        · rename_i q hq
          have hsmall : toh64FromBuffer buf < 2 ^ 64 - 8 := by
            by_contra hbig
            have hneg : toInt32 (toh64FromBuffer buf) < 0 := by unfold toInt32; omega
            rw [hparse _ _ hneg] at hq
            simp at hq
          have hadd : addU64 8 (toh64FromBuffer buf) = 8 + toh64FromBuffer buf :=
            Nat.mod_eq_of_lt (by omega)
          obtain ⟨-, rfl⟩ := FrameStep.package.inj h
          rw [moveReadPtrN_eq, hadd, List.length_drop]
          omega
  · simp at h

/-- Three bytes of a payload of three: both loops take the frame and remove its eleven bytes. -/
theorem otherFrameStep_agrees_abc :
    ReadsFrame (parseSlice fun p => some p) ([0, 0, 0, 0, 0, 0, 0, 3] ++ ascii "abcd") ∧
      (8 ≤ ([0, 0, 0, 0, 0, 0, 0, 3] ++ ascii "abcd" : Bytes).length →
        toh64FromBuffer ([0, 0, 0, 0, 0, 0, 0, 3] ++ ascii "abcd") < 2 ^ 64 - 8) :=
  ⟨(otherFrameStep_agrees_iff _ _ (by decide)).mpr fun _ => by decide, fun _ => by decide⟩

/-- **The sum wraps**: eight bytes announcing `2 ^ 64 - 8` more are taken for a complete frame,
and none of them is removed. -/
theorem otherFrameStep_wraps :
    ¬ ReadsFrame (fun _ _ => (none : Option Unit)) [255, 255, 255, 255, 255, 255, 255, 248] := by
  unfold ReadsFrame
  decide

end Avant.Proto
