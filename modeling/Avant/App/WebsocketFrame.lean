import Mathlib.Data.Nat.Bitwise
import Avant.Lib.WebSocket

/-!
# The frames of the websocket application

Model of the two ends of the frame format in `src/app/websocket_app.cpp`. `parseFrame` is one turn
of the loop of `on_process_connection` up to the point where the frame is taken off the receive
buffer, block by block and with its 64-bit arithmetic. `syncFrame` is the frame that
`send_sync_package` builds.

`parseFrame` is compared with the codec of `Lib/WebSocket.lean`: it takes a frame off the buffer
exactly when the codec finds one there and its opcode is allowed (`parseFrame_enc`,
`parseFrame_of_dec_none`), and waits as long as a frame of the codec is incomplete
(`parseFrame_wait`).

Results:
* **`parseFrame_syncFrame`**: the parser gets back what `send_sync_package` wrote, masked or not,
  and takes exactly the frame.
-/

namespace Avant.App

open Avant.Lib Avant.Lib.Ws

/-- `websocket_frame_type`. -/
inductive WebsocketFrameType
  | connectionCloseFrame
  | textFrame
  | binaryFrame
  | pong
  | ping
  | continuationFrame
  | furtherNonControl
  | furtherControl
  | error
  deriving DecidableEq

/-- `n_2_websocket_frame_type`. -/
def n2WebsocketFrameType (n : UInt8) : WebsocketFrameType :=
  let n := n &&& 0x0f
  if n = 0x1 then .textFrame
  else if n = 0x2 then .binaryFrame
  else if n = 0x0 then .continuationFrame
  else if n ≥ 0x3 ∧ n ≤ 0x7 then .furtherNonControl
  else if n ≥ 0xb ∧ n ≤ 0xf then .furtherControl
  else if n = 0x8 then .connectionCloseFrame
  else if n = 0x9 then .ping
  else if n = 0xa then .pong
  else .error

/-- `websocket_frame_type_2_n`, with its index left at the default of zero. -/
def websocketFrameType2N : WebsocketFrameType → UInt8
  | .textFrame => 0x1
  | .binaryFrame => 0x2
  | .continuationFrame => 0x0
  | .furtherNonControl => 0x3
  | .furtherControl => 0xb
  | .connectionCloseFrame => 0x8
  | .ping => 0x9
  | .pong => 0xa
  | .error => 0x8

/-- `websocket_frame`. -/
structure WebsocketFrame where
  fin : Bool
  opcode : UInt8
  mask : Bool
  payloadLength : Nat
  maskingKey : Bytes
  payloadData : Bytes
  deriving DecidableEq

/-- Where a turn of the frame loop leads. -/
inductive FrameTurn
  /-- more bytes are needed -/
  | wait
  /-- the opcode is not allowed -/
  | refused
  /-- the constructor of `payload_data` throws `std::length_error` -/
  | lengthError
  /-- a frame, which ends at `index` -/
  | frame (f : WebsocketFrame) (index : Nat)
  deriving DecidableEq

/-- The opcodes the loop goes on with. -/
def allowed (opcode : UInt8) : Bool :=
  match n2WebsocketFrameType opcode with
  | .textFrame | .binaryFrame | .continuationFrame => true
  | _ => false

/-- `std::string::max_size()` -/
def stringMaxSize : Nat := 2 ^ 63 - 1

/-- The block of the extended length: the length and the index behind it, or `none` when bytes are
missing. `ntohs` and `ntohl` of the copied bytes are their big-endian value. -/
def extendedLength (data : Bytes) (payloadLength index : Nat) : Option (Nat × Nat) :=
  if payloadLength = 126 then
    if index + 1 ≥ data.length then none
    else some (ofBe ((data.drop index).take 2), index + 2)
  else if payloadLength = 127 then
    if index + 7 ≥ data.length then none
    else
      let high := ofBe ((data.drop index).take 4)
      let low := ofBe ((data.drop (index + 4)).take 4)
      some (high <<< 32 ||| low, index + 8)
  else some (payloadLength, index)

/-- The block of the masking key: the key and the index behind it. -/
def maskingKey (data : Bytes) (mask : Bool) (index : Nat) : Option (Bytes × Nat) :=
  if mask then
    if index + 3 ≥ data.length then none
    else some ((data.drop index).take 4, index + 4)
  else some ([], index)

/-- The blocks between the first byte and the payload: mask bit, length, key, and the index the
payload starts at. -/
def parseHeader (data : Bytes) : Option (Bool × Nat × Bytes × Nat) :=
  if 1 ≥ data.length then none
  else
    let mask := data.getD 1 0 &&& 0x80 != 0
    match extendedLength data (data.getD 1 0 &&& 0x7f).toNat 2 with
    | none => none
    | some (payloadLength, index) =>
      match maskingKey data mask index with
      | none => none
      | some (key, index) => some (mask, payloadLength, key, index)

/-- `index + payload_length - 1 >= all_data_len`, in `uint64_t`. -/
def payloadMissing (index payloadLength allDataLen : Nat) : Bool :=
  (index + payloadLength + (2 ^ 64 - 1)) % 2 ^ 64 ≥ allDataLen

/-- One turn of the loop of `on_process_connection` on the bytes of the receive buffer. -/
def parseFrame (data : Bytes) : FrameTurn :=
  if data.length = 0 then .wait
  else if !allowed (data.getD 0 0 &&& 0x0f) then .refused
  else
    match parseHeader data with
    | none => .wait
    | some (mask, payloadLength, key, index) =>
      if payloadMissing index payloadLength data.length then .wait
      else if payloadLength > stringMaxSize then .lengthError
      else
        let payload := (data.drop index).take payloadLength
        .frame
          { fin := data.getD 0 0 &&& 0x80 != 0
            opcode := data.getD 0 0 &&& 0x0f
            mask := mask
            payloadLength := payloadLength
            maskingKey := key
            payloadData := if mask then Ws.mask key payload else payload }
          (index + payloadLength)

/-! ## The parser and the codec -/

theorem high_bit (b : UInt8) : (b &&& 0x80 != 0) = decide (128 ≤ b.toNat) := by
  have h : ∀ n < 256, (UInt8.ofNat n &&& 0x80 != 0) = decide (128 ≤ n) := by decide +kernel
  simpa using h b.toNat b.toNat_lt

theorem low_bits (b : UInt8) : (b &&& 0x7f).toNat = b.toNat % 128 := by
  rw [UInt8.toNat_and]
  exact Nat.and_two_pow_sub_one_eq_mod b.toNat 7

/-- The two `ntohl` halves of the 64-bit length are one big-endian number. -/
theorem two_halves {t : Bytes} (h : 8 ≤ t.length) :
    ofBe (t.take 4) <<< 32 ||| ofBe ((t.drop 4).take 4) = ofBe (t.take 8) := by
  have hlow : ((t.drop 4).take 4).length = 4 := by simp; omega
  have hlt : ofBe ((t.drop 4).take 4) < 2 ^ 32 := by
    have := ofBe_lt ((t.drop 4).take 4)
    rwa [hlow] at this
  have hsplit : t.take 8 = t.take 4 ++ (t.drop 4).take 4 := List.take_add (i := 4) (j := 4)
  rw [← Nat.shiftLeft_add_eq_or_of_lt hlt, hsplit, ofBe_append, hlow, Nat.shiftLeft_eq]
  norm_num

section Header

variable (b₀ b₁ : UInt8) (t : Bytes)

theorem extendedLength_cons (c : Nat) :
    extendedLength (b₀ :: b₁ :: t) c 2 =
      if (LenForm.ofCode c).width ≤ t.length then
        some ((LenForm.ofCode c).length c (t.take (LenForm.ofCode c).width),
          2 + (LenForm.ofCode c).width)
      else none := by
  by_cases h126 : c = 126
  · subst h126
    have hlen : (b₀ :: b₁ :: t).length = t.length + 2 := rfl
    simp only [extendedLength, LenForm.ofCode, LenForm.width, LenForm.length, if_true, reduceCtorEq,
      if_false, hlen, List.drop_succ_cons, List.drop_zero]
    by_cases h : 2 ≤ t.length
    · rw [if_neg (by omega), if_pos h]
    · rw [if_pos (by omega), if_neg h]
  · by_cases h127 : c = 127
    · subst h127
      have hlen : (b₀ :: b₁ :: t).length = t.length + 2 := rfl
      simp only [extendedLength, LenForm.ofCode, LenForm.width, LenForm.length, if_true,
        reduceCtorEq, if_false, hlen, List.drop_succ_cons, List.drop_zero, Nat.reduceEqDiff]
      by_cases h : 8 ≤ t.length
      · rw [if_neg (by omega), if_pos h, two_halves h]
      · rw [if_pos (by omega), if_neg h]
    · simp [extendedLength, LenForm.ofCode, LenForm.width, LenForm.length, h126, h127]

theorem maskingKey_cons {w : Nat} (hw : w ≤ t.length) :
    maskingKey (b₀ :: b₁ :: t) (decide (128 ≤ b₁.toNat)) (2 + w) =
      if w + Frame.keyLen b₁ ≤ t.length then
        some ((t.drop w).take (Frame.keyLen b₁), 2 + w + Frame.keyLen b₁)
      else none := by
  have hdrop : (b₀ :: b₁ :: t).drop (2 + w) = t.drop w := by
    rw [Nat.add_comm]
    rfl
  unfold maskingKey Frame.keyLen
  by_cases h : 128 ≤ b₁.toNat
  · simp only [h, decide_true, if_true, hdrop, List.length_cons]
    by_cases hlen : w + 4 ≤ t.length
    · rw [if_neg (by omega), if_pos hlen]
    · rw [if_pos (by omega), if_neg hlen]
  · simp [h, hw]

/-- The header of a buffer, in the terms of the codec. -/
theorem parseHeader_cons :
    parseHeader (b₀ :: b₁ :: t) =
      let f := LenForm.ofCode (b₁.toNat % 128)
      if f.width + Frame.keyLen b₁ ≤ t.length then
        some (decide (128 ≤ b₁.toNat), f.length (b₁.toNat % 128) (t.take f.width),
          (t.drop f.width).take (Frame.keyLen b₁), 2 + f.width + Frame.keyLen b₁)
      else none := by
  have hb : (b₀ :: b₁ :: t).getD 1 0 = b₁ := rfl
  unfold parseHeader
  rw [if_neg (by simp)]
  simp only [hb, low_bits, high_bit, extendedLength_cons]
  by_cases hw : (LenForm.ofCode (b₁.toNat % 128)).width ≤ t.length
  · simp only [hw, if_true, maskingKey_cons b₀ b₁ t hw]
    split_ifs <;> rfl
  · rw [if_neg hw, if_neg (by omega)]

end Header

/-- A frame of the codec as the loop reports it. -/
def WebsocketFrame.ofFrame (w : Frame) : WebsocketFrame where
  fin := w.fin
  opcode := w.opcode
  mask := w.key.isSome
  payloadLength := w.payload.length
  maskingKey := keyBytes w.key
  payloadData := w.payload

variable {data r : Bytes} {w : Frame}

theorem parseHeader_enc (w : Frame) (r : Bytes) :
    parseHeader (w.enc ++ r) = some (w.key.isSome, w.payload.length, keyBytes w.key,
      2 + w.form.width + (keyBytes w.key).length) := by
  have hcode : LenForm.ofCode (w.form.code w.payload.length) = w.form := LenForm.ofCode_code w.fits
  have hmask : decide (128 ≤ w.second.toNat) = w.key.isSome := by
    have := LenForm.code_lt w.fits
    rw [Frame.second_toNat]
    cases w.key with
    | none => simpa using this
    | some k => simp
  have henc : w.enc ++ r = w.first :: w.second :: (beBytes w.form.width w.payload.length ++
      (keyBytes w.key ++ (masked w.key w.payload ++ r))) := by
    simp [Frame.enc]
  rw [henc, parseHeader_cons]
  simp only [Frame.second_code, hcode, Frame.keyLen_second, hmask]
  rw [if_pos (by simp), List.take_left' (length_beBytes _ _), List.drop_left' (length_beBytes _ _),
    List.take_left, LenForm.length_code w.fits]

theorem length_enc (w : Frame) :
    w.enc.length = 2 + w.form.width + (keyBytes w.key).length + w.payload.length := by
  simp only [Frame.enc, List.length_cons, List.length_append, length_beBytes, length_masked]
  omega

theorem parseFrame_enc (ha : allowed w.opcode = true) (r : Bytes) :
    parseFrame (w.enc ++ r) = .frame (.ofFrame w) w.enc.length := by
  have hlen := length_enc w
  have hlt : w.payload.length < 2 ^ 63 := LenForm.fits_lt w.fits
  have hwidth : w.form.width ≤ 8 := by cases w.form <;> decide
  have hkey : (keyBytes w.key).length ≤ 4 := by
    cases w.key with
    | none => simp [keyBytes]
    | some k => simp [keyBytes, k.2]
  have hfirst : (w.enc ++ r).getD 0 0 = w.first := rfl
  have hthere : payloadMissing (2 + w.form.width + (keyBytes w.key).length) w.payload.length
      (w.enc ++ r).length = false := by
    simp only [payloadMissing, List.length_append, hlen, decide_eq_false_iff_not]
    omega
  have hpayload : ((w.enc ++ r).drop (2 + w.form.width + (keyBytes w.key).length)).take
      w.payload.length = masked w.key w.payload := by
    have henc : w.enc ++ r = (w.first :: w.second :: (beBytes w.form.width w.payload.length ++
        keyBytes w.key)) ++ (masked w.key w.payload ++ r) := by simp [Frame.enc]
    rw [henc, List.drop_left' (by simp; omega), List.take_left' (length_masked _ _)]
  have hunmask : (if w.key.isSome then Ws.mask (keyBytes w.key) (masked w.key w.payload)
      else masked w.key w.payload) = w.payload := by
    cases w.key with
    | none => rfl
    | some k => simp [keyBytes, masked]
  unfold parseFrame
  rw [if_neg (by rw [List.length_append]; omega), hfirst]
  have ha' : allowed (w.first &&& 0x0f) = true := ha
  simp only [ha', Bool.not_true, Bool.false_eq_true, if_false, parseHeader_enc, hthere, hpayload,
    hunmask]
  rw [if_neg (by unfold stringMaxSize; omega), ← hlen]
  rfl

theorem parseFrame_refused (ha : allowed w.opcode = false) (r : Bytes) :
    parseFrame (w.enc ++ r) = .refused := by
  have hfirst : (w.enc ++ r).getD 0 0 = w.first := rfl
  have ha' : allowed (w.first &&& 0x0f) = false := ha
  unfold parseFrame
  rw [if_neg (by rw [List.length_append, length_enc]; omega), hfirst, ha']
  rfl

theorem fits_of_le {c : Nat} {ext : Bytes} (hc : c < 128)
    (hext : ext.length = (LenForm.ofCode c).width)
    (hle : (LenForm.ofCode c).length c ext ≤ stringMaxSize) :
    (LenForm.ofCode c).Fits ((LenForm.ofCode c).length c ext) := by
  by_cases h126 : c = 126
  · subst h126
    have hlt := ofBe_lt ext
    rw [show ext.length = 2 from hext] at hlt
    exact hlt
  · by_cases h127 : c = 127
    · subst h127
      exact Nat.lt_of_le_of_lt hle (by decide)
    · have hshort : LenForm.ofCode c = .short := by rw [LenForm.ofCode, if_neg h126, if_neg h127]
      rw [hshort]
      show c ≤ 125
      omega

/-- **The parser takes nothing that is not a frame**: it takes one off the buffer only where the
codec finds one, also where the arithmetic wraps. -/
theorem parseFrame_of_dec_none (h : Frame.dec data = none) (f : WebsocketFrame) (n : Nat) :
    parseFrame data ≠ .frame f n := by
  intro hp
  unfold parseFrame at hp
  split_ifs at hp with h0 ha
  match data with
  | [] => simp at h0
  | [b] => simp [parseHeader] at hp
  | b₀ :: b₁ :: t =>
    rw [parseHeader_cons] at hp
    simp only at hp
    by_cases hhead : (LenForm.ofCode (b₁.toNat % 128)).width + Frame.keyLen b₁ ≤ t.length
    · rw [if_pos hhead] at hp
      simp only at hp
      split at hp
      · simp at hp
      rename_i hmiss
      split at hp
      · simp at hp
      rename_i hmax
      rw [Frame.dec] at h
      split at h
      · simp at h
      rename_i hnot
      refine hnot ⟨hhead, fits_of_le (Nat.mod_lt _ (by decide)) ?_ (by omega), ?_⟩
      · rw [List.length_take]
        omega
      · have hwidth : (LenForm.ofCode (b₁.toNat % 128)).width ≤ 8 := by
          cases LenForm.ofCode (b₁.toNat % 128) <;> decide
        have hkey : Frame.keyLen b₁ ≤ 4 := by unfold Frame.keyLen; split <;> omega
        rw [List.length_drop]
        simp only [payloadMissing, List.length_cons, decide_eq_true_eq, stringMaxSize]
          at hmiss hmax
        omega
    · rw [if_neg hhead] at hp
      simp at hp

/-- What the parser takes off the buffer is a frame of the codec. -/
theorem frame_of_parseFrame {f : WebsocketFrame} {n : Nat} (h : parseFrame data = .frame f n) :
    ∃ w : Frame, data = w.enc ++ data.drop n ∧ n = w.enc.length ∧ f = .ofFrame w ∧
      allowed w.opcode = true := by
  cases hd : Frame.dec data with
  | none => exact absurd h (parseFrame_of_dec_none hd f n)
  | some wr =>
    obtain ⟨w, r⟩ := wr
    have hdata := Frame.enc_of_dec hd
    have ha : allowed w.opcode = true := by
      by_contra hna
      rw [hdata, parseFrame_refused (Bool.eq_false_iff.mpr hna)] at h
      simp at h
    rw [hdata, parseFrame_enc ha r, FrameTurn.frame.injEq] at h
    obtain ⟨rfl, rfl⟩ := h
    exact ⟨w, by rw [hdata, List.drop_left], rfl, rfl, ha⟩

/-- The parser waits only where no frame is there as a whole. -/
theorem dec_of_parseFrame_wait (h : parseFrame data = .wait) : Frame.dec data = none := by
  by_contra hd
  obtain ⟨⟨w, r⟩, hd⟩ := Option.ne_none_iff_exists'.mp hd
  rw [Frame.enc_of_dec hd] at h
  cases ha : allowed w.opcode with
  | true => simp [parseFrame_enc ha] at h
  | false => simp [parseFrame_refused ha] at h

/-- A refusal is one of the first byte. -/
theorem first_of_parseFrame_refused (h : parseFrame data = .refused) :
    ∃ b ∈ data.head?, allowed (b &&& 0x0f) = false := by
  match data with
  | [] => simp [parseFrame] at h
  | b :: d =>
    refine ⟨b, rfl, ?_⟩
    by_contra ha
    have ha' : allowed ((b :: d).getD 0 0 &&& 0x0f) = true := by
      rw [Bool.not_eq_false] at ha
      exact ha
    unfold parseFrame at h
    rw [if_neg (by simp), ha'] at h
    cases hh : parseHeader (b :: d) with
    | none => simp [hh] at h
    | some x =>
      simp only [hh, Bool.not_true, Bool.false_eq_true, if_false] at h
      split_ifs at h

/-- An exception is one of the length that the header announces. -/
theorem header_of_parseFrame_lengthError (h : parseFrame data = .lengthError) :
    ∃ mask payloadLength key index, parseHeader data = some (mask, payloadLength, key, index) ∧
      stringMaxSize < payloadLength := by
  unfold parseFrame at h
  split_ifs at h
  cases hh : parseHeader data with
  | none => simp [hh] at h
  | some x =>
    obtain ⟨mask, payloadLength, key, index⟩ := x
    simp only [hh] at h
    split_ifs at h with _ hlong
    exact ⟨mask, payloadLength, key, index, rfl, hlong⟩

theorem parseHeader_append {x : Bool × Nat × Bytes × Nat} (h : parseHeader data = some x)
    (t : Bytes) : parseHeader (data ++ t) = some x := by
  match data with
  | [] | [_] => simp [parseHeader] at h
  | b₀ :: b₁ :: d =>
    rw [parseHeader_cons] at h
    simp only at h
    split_ifs at h with hhead
    rw [List.cons_append, List.cons_append, parseHeader_cons]
    simp only
    rw [if_pos (by rw [List.length_append]; omega), List.take_append_of_le_length (by omega),
      List.drop_append_of_le_length (by omega),
      List.take_append_of_le_length (by rw [List.length_drop]; omega)]
    exact h

/-- **The parser waits** while it has only a part of a frame. -/
theorem parseFrame_wait (hd : Frame.dec data = none) (ha : allowed w.opcode = true) {t : Bytes}
    (hpart : data ++ t = w.enc ++ r) : parseFrame data = .wait := by
  match data with
  | [] => rfl
  | b :: d =>
    have hb : b = w.first := (List.cons.inj hpart).1
    have ha' : allowed ((b :: d).getD 0 0 &&& 0x0f) = true := by
      subst hb
      exact ha
    cases hh : parseHeader (b :: d) with
    | none => simp [parseFrame, hh, ha', -List.getD_eq_getElem?_getD]
    | some x =>
      have hx := parseHeader_append hh t
      rw [hpart, parseHeader_enc, Option.some.injEq] at hx
      have hlt : w.payload.length < 2 ^ 63 := LenForm.fits_lt w.fits
      have hnot := parseFrame_of_dec_none hd
      subst hx
      unfold parseFrame at hnot ⊢
      simp only [ha', hh, List.length_cons, Nat.add_eq_zero_iff, Nat.succ_ne_self, and_false,
        if_false, Bool.not_true, Bool.false_eq_true] at hnot ⊢
      split
      · rfl
      · rename_i hmiss
        rw [if_neg hmiss, if_neg (by unfold stringMaxSize; omega)] at hnot
        exact absurd rfl (hnot _ _)

/-! ## What `send_sync_package` writes -/

/-- The length bytes of the frame. -/
def syncLength (messageLength : Nat) : Bytes :=
  if messageLength ≤ 125 then [UInt8.ofNat messageLength]
  else if messageLength ≤ 0xffff then
    [126, UInt8.ofNat (messageLength >>> 8 &&& 0xff), UInt8.ofNat (messageLength &&& 0xff)]
  else
    127 :: [7, 6, 5, 4, 3, 2, 1, 0].map fun i => UInt8.ofNat (messageLength >>> (8 * i) &&& 0xff)

/-- The frame that `send_sync_package` builds. -/
def syncFrame (firstByte : UInt8) (data : Bytes) : Bytes :=
  firstByte :: (syncLength data.length ++ data)

/-- The mask bit of the first of the length bytes. -/
def setMaskBit : Bytes → Bytes
  | [] => []
  | b :: bs => (b ||| 0x80) :: bs

/-- The same frame as a client sends it: mask bit, key, and the payload XORed with the key. -/
def maskedSyncFrame (firstByte : UInt8) (key data : Bytes) : Bytes :=
  firstByte :: (setMaskBit (syncLength data.length) ++ (key ++ Ws.mask key data))

/-- The length form `send_sync_package` chooses. -/
def syncForm (n : Nat) : LenForm :=
  if n ≤ 125 then .short else if n ≤ 0xffff then .ext16 else .ext64

theorem syncForm_fits {n : Nat} (h : n < 2 ^ 63) : (syncForm n).Fits n := by
  unfold syncForm
  split_ifs with h₁ h₂
  · exact h₁
  · exact Nat.lt_of_le_of_lt h₂ (by decide)
  · exact h

theorem ofNat_shift_and (n k : Nat) :
    UInt8.ofNat (n >>> (8 * k) &&& 0xff) = UInt8.ofNat (n / 256 ^ k) := by
  have hpow : 2 ^ (8 * k) = 256 ^ k := by rw [pow_mul]; norm_num
  have hand : n >>> (8 * k) &&& 0xff = n / 256 ^ k % 2 ^ 8 := by
    rw [Nat.shiftRight_eq_div_pow, hpow]
    exact Nat.and_two_pow_sub_one_eq_mod _ 8
  rw [hand]
  apply UInt8.toNat_inj.mp
  simp

theorem syncLength_eq (n : Nat) :
    syncLength n = UInt8.ofNat ((syncForm n).code n) :: beBytes (syncForm n).width n := by
  unfold syncLength syncForm
  split_ifs with h₁ h₂
  · rfl
  · have h1 := ofNat_shift_and n 1
    have h0 := ofNat_shift_and n 0
    simp only [Nat.mul_zero, Nat.shiftRight_zero, Nat.mul_one, pow_zero, pow_one, Nat.div_one]
      at h0 h1
    rw [h0, h1]
    rfl
  · simp only [List.map_cons, List.map_nil, ofNat_shift_and, LenForm.width, LenForm.code, beBytes,
      Nat.div_div_eq_div_mul, List.nil_append, List.cons_append]
    norm_num
    rfl

/-- The frame of the codec that `send_sync_package` writes, with or without a key. -/
def syncWire (firstByte : UInt8) (key : Option Key) (data : Bytes) (h : data.length < 2 ^ 63) :
    Frame :=
  ⟨firstByte, syncForm data.length, key, data, syncForm_fits h⟩

theorem syncFrame_eq (firstByte : UInt8) (data : Bytes) (h : data.length < 2 ^ 63) :
    syncFrame firstByte data = (syncWire firstByte none data h).enc := by
  simp [syncFrame, syncLength_eq, Frame.enc, syncWire, Frame.second, keyBytes, masked]

theorem or_high_bit : ∀ n < 128, UInt8.ofNat n ||| 0x80 = UInt8.ofNat (128 + n) := by decide +kernel

theorem maskedSyncFrame_eq (firstByte : UInt8) (key : Key) (data : Bytes)
    (h : data.length < 2 ^ 63) :
    maskedSyncFrame firstByte key.1 data = (syncWire firstByte (some key) data h).enc := by
  have hcode := or_high_bit _ (LenForm.code_lt (syncForm_fits h))
  simp [maskedSyncFrame, syncLength_eq, setMaskBit, hcode, Frame.enc, syncWire, Frame.second,
    keyBytes, masked]

/-- **What was sent is what is read.** With FIN and TEXT or BINARY in the first byte, the parser
takes the frame that `send_sync_package` builds off the buffer, up to its last byte and as a final
frame with the payload that went in; and also the masked frame that a client makes of it. -/
theorem parseFrame_syncFrame (firstByte : UInt8)
    (hfirst : firstByte = 0x80 ||| websocketFrameType2N .textFrame ∨
      firstByte = 0x80 ||| websocketFrameType2N .binaryFrame)
    (payload : Bytes) (hlen : payload.length < 2 ^ 63) (trailing : Bytes) :
    (∃ f, parseFrame (syncFrame firstByte payload ++ trailing) =
        .frame f (syncFrame firstByte payload).length ∧
      f.fin = true ∧ f.payloadData = payload) ∧
    ∀ key : Bytes, key.length = 4 →
      ∃ f, parseFrame (maskedSyncFrame firstByte key payload ++ trailing) =
          .frame f (maskedSyncFrame firstByte key payload).length ∧
        f.fin = true ∧ f.payloadData = payload := by
  have hallowed : allowed (firstByte &&& 0x0f) = true := by
    rcases hfirst with rfl | rfl <;> decide
  have hfin : (firstByte &&& 0x80 != 0) = true := by
    rcases hfirst with rfl | rfl <;> decide
  constructor
  · rw [syncFrame_eq firstByte payload hlen]
    exact ⟨_, parseFrame_enc (w := syncWire firstByte none payload hlen) hallowed trailing, hfin, rfl⟩
  · intro key hkey
    rw [maskedSyncFrame_eq firstByte ⟨key, hkey⟩ payload hlen]
    exact ⟨_, parseFrame_enc (w := syncWire firstByte (some ⟨key, hkey⟩) payload hlen) hallowed
      trailing, hfin, rfl⟩

/-- A payload at the border between the 7-bit and the 16-bit length, plain and masked. -/
theorem parseFrame_syncFrame_126 :
    (∃ f, parseFrame (syncFrame 0x82 (List.replicate 126 7) ++ [1, 2]) =
        .frame f (syncFrame 0x82 (List.replicate 126 7)).length ∧
      f.fin = true ∧ f.payloadData = List.replicate 126 7) ∧
    ∃ f, parseFrame (maskedSyncFrame 0x82 [9, 8, 7, 6] (List.replicate 126 7) ++ [1, 2]) =
        .frame f (maskedSyncFrame 0x82 [9, 8, 7, 6] (List.replicate 126 7)).length ∧
      f.fin = true ∧ f.payloadData = List.replicate 126 7 :=
  have h := parseFrame_syncFrame 0x82 (.inr rfl) (List.replicate 126 7) (by simp) [1, 2]
  ⟨h.1, h.2 [9, 8, 7, 6] rfl⟩

end Avant.App
