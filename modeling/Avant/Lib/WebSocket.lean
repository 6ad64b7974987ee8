import Avant.Lib.Framing

/-!
# WebSocket frames

The wire format of RFC 6455, section 5.2: a first byte (FIN, reserved bits, opcode), a second one
(mask bit and a 7-bit length), an extended length of two or eight bytes if the 7-bit one is 126 or
127, a 4-byte key if the mask bit is set, and the payload, XORed with the key. `Frame` is a frame
as it is written, so the sender's choice of a length form is part of it; `frames` is the
`FrameCodec` of the format.

A message is the payloads of its fragments in a row, up to the one with FIN. `reassemble` cuts a
list of frames into messages.
-/

namespace Avant.Lib.Ws

/-! ## The payload length -/

/-- How a frame writes the length of its payload. -/
inductive LenForm
  | short
  | ext16
  | ext64
  deriving DecidableEq

namespace LenForm

/-- The number of bytes of the extended length. -/
def width : LenForm → Nat
  | short => 0
  | ext16 => 2
  | ext64 => 8

/-- The 7-bit length field of a payload of `n` bytes. -/
def code (n : Nat) : LenForm → Nat
  | short => n
  | ext16 => 126
  | ext64 => 127

/-- The lengths a form can write. The top bit of the 64-bit form is zero. -/
def Fits (n : Nat) : LenForm → Prop
  | short => n ≤ 125
  | ext16 => n < 2 ^ 16
  | ext64 => n < 2 ^ 63

instance (n : Nat) (f : LenForm) : Decidable (f.Fits n) := by
  cases f <;> unfold Fits <;> infer_instance

/-- The form a 7-bit length field announces. -/
def ofCode (c : Nat) : LenForm :=
  if c = 126 then ext16 else if c = 127 then ext64 else short

/-- The length that a field `c` and the extended bytes `ext` announce. -/
def length (c : Nat) (ext : Bytes) (f : LenForm) : Nat :=
  if f = short then c else ofBe ext

variable {n : Nat} {f : LenForm}

theorem ofCode_code (h : f.Fits n) : ofCode (f.code n) = f := by
  cases f with
  | short =>
    have hn : n ≤ 125 := h
    rw [code, ofCode, if_neg (by omega), if_neg (by omega)]
  | ext16 | ext64 => rfl

theorem code_lt (h : f.Fits n) : f.code n < 128 := by
  cases f with
  | short =>
    have hn : n ≤ 125 := h
    exact Nat.lt_of_le_of_lt hn (by decide)
  | ext16 | ext64 => simp [code]

theorem fits_lt (h : f.Fits n) : n < 2 ^ 63 := by
  cases f <;> simp only [Fits] at h <;> omega

theorem fits_lt_width (h : f.Fits n) (hf : f ≠ short) : n < 256 ^ f.width := by
  cases f <;> simp only [Fits, width] at h ⊢
  · exact absurd rfl hf
  · exact h
  · omega

theorem length_code (h : f.Fits n) : f.length (f.code n) (beBytes f.width n) = n := by
  unfold length
  split
  · rename_i hf
    rw [hf, code]
  · rename_i hf
    exact ofBe_beBytes (fits_lt_width h hf)

/-- A field below 128 is the code of the length it announces. -/
theorem code_length {c : Nat} {ext : Bytes} (hext : ext.length = (ofCode c).width) :
    (ofCode c).code ((ofCode c).length c ext) = c ∧
      beBytes (ofCode c).width ((ofCode c).length c ext) = ext := by
  by_cases h126 : c = 126
  · subst h126
    have hlen : ext.length = 2 := hext
    exact ⟨rfl, by simpa [ofCode, length, width, hlen] using beBytes_ofBe ext⟩
  · by_cases h127 : c = 127
    · subst h127
      have hlen : ext.length = 8 := hext
      exact ⟨rfl, by simpa [ofCode, length, width, hlen] using beBytes_ofBe ext⟩
    · have hshort : ofCode c = short := by rw [ofCode, if_neg h126, if_neg h127]
      rw [hshort] at hext ⊢
      obtain rfl : ext = [] := List.length_eq_zero_iff.mp hext
      exact ⟨rfl, rfl⟩

end LenForm

/-! ## The mask -/

/-- Byte `i` is XORed with byte `i % 4` of the key. -/
def mask (key bs : Bytes) : Bytes := bs.mapIdx fun i b => b ^^^ key.getD (i % 4) 0

@[simp] theorem length_mask (key bs : Bytes) : (mask key bs).length = bs.length := by simp [mask]

/-- **Masking twice** gives the bytes back. -/
@[simp] theorem mask_mask (key bs : Bytes) : mask key (mask key bs) = bs := by
  apply List.ext_getElem (by simp)
  intro i h₁ h₂
  simp only [mask, List.getElem_mapIdx, UInt8.xor_assoc, UInt8.xor_self, UInt8.xor_zero]

/-! ## Frames -/

/-- A masking key. -/
abbrev Key := { k : Bytes // k.length = 4 }

/-- A frame: `payload` is the data before it is masked. -/
structure Frame where
  first : UInt8
  form : LenForm
  key : Option Key
  payload : Bytes
  fits : form.Fits payload.length
  deriving DecidableEq

/-- The bytes of the key, if there is one. -/
def keyBytes : Option Key → Bytes
  | none => []
  | some k => k.1

/-- The payload as it is written. -/
def masked : Option Key → Bytes → Bytes
  | none, p => p
  | some k, p => mask k.1 p

@[simp] theorem length_masked (k : Option Key) (p : Bytes) : (masked k p).length = p.length := by
  cases k <;> simp [masked]

@[simp] theorem masked_masked (k : Option Key) (p : Bytes) : masked k (masked k p) = p := by
  cases k <;> simp [masked]

namespace Frame

/-- The FIN bit. -/
def fin (f : Frame) : Bool := f.first &&& 0x80 != 0

def opcode (f : Frame) : UInt8 := f.first &&& 0x0f

/-- The second byte: the mask bit and the 7-bit length. -/
def second (f : Frame) : UInt8 :=
  UInt8.ofNat ((if f.key.isSome then 128 else 0) + f.form.code f.payload.length)

def enc (f : Frame) : Bytes :=
  f.first :: f.second :: (beBytes f.form.width f.payload.length ++
    (keyBytes f.key ++ masked f.key f.payload))

/-- The length of the key that a second byte announces. -/
def keyLen (second : UInt8) : Nat := if 128 ≤ second.toNat then 4 else 0

/-- The key at the head of some bytes. -/
def takeKey (second : UInt8) (b : Bytes) : Option Key :=
  if h : 128 ≤ second.toNat ∧ (b.take 4).length = 4 then some ⟨b.take 4, h.2⟩ else none

/-- The frame at the head of a buffer, if it is there as a whole. -/
def dec : Bytes → Option (Frame × Bytes)
  | first :: second :: b =>
    let c := second.toNat % 128
    let f := LenForm.ofCode c
    let len := f.length c (b.take f.width)
    let body := b.drop (f.width + keyLen second)
    if h : f.width + keyLen second ≤ b.length ∧ f.Fits len ∧ len ≤ body.length then
      some (⟨first, f, takeKey second (b.drop f.width),
        masked (takeKey second (b.drop f.width)) (body.take len),
        by rw [length_masked, List.length_take, Nat.min_eq_left h.2.2]; exact h.2.1⟩,
        body.drop len)
    else none
  | _ => none

variable {f : Frame} {b r : Bytes}

theorem second_toNat (f : Frame) :
    f.second.toNat = (if f.key.isSome then 128 else 0) + f.form.code f.payload.length := by
  have := LenForm.code_lt f.fits
  rw [second, UInt8.toNat_ofNat']
  split <;> omega

theorem second_code (f : Frame) : f.second.toNat % 128 = f.form.code f.payload.length := by
  have := LenForm.code_lt f.fits
  rw [second_toNat]
  split <;> omega

theorem keyLen_second (f : Frame) : keyLen f.second = (keyBytes f.key).length := by
  have := LenForm.code_lt f.fits
  unfold keyLen
  rw [second_toNat]
  cases f.key with
  | none => simpa [keyBytes] using this
  | some k => simp [keyBytes, k.2]

theorem takeKey_second (f : Frame) (t : Bytes) : takeKey f.second (keyBytes f.key ++ t) = f.key := by
  have hcode := LenForm.code_lt f.fits
  have hsecond := second_toNat f
  unfold takeKey
  cases hkey : f.key with
  | none =>
    rw [hkey] at hsecond
    simp only [Option.isSome_none, Bool.false_eq_true, if_false, Nat.zero_add] at hsecond
    rw [dif_neg (by omega)]
  | some k =>
    rw [hkey] at hsecond
    simp only [Option.isSome_some, if_true] at hsecond
    have htake : (k.1 ++ t).take 4 = k.1 := List.take_left' k.2
    simp only [keyBytes, htake]
    rw [dif_pos ⟨by omega, k.2⟩]

theorem dec_enc (f : Frame) (r : Bytes) : dec (f.enc ++ r) = some (f, r) := by
  obtain ⟨first, form, key, payload, fits⟩ := f
  set f : Frame := ⟨first, form, key, payload, fits⟩ with hf
  have hcode : f.second.toNat % 128 = form.code payload.length := second_code f
  have hform : LenForm.ofCode (form.code payload.length) = form := LenForm.ofCode_code fits
  have hkl : keyLen f.second = (keyBytes key).length := keyLen_second f
  -- what stands behind the extended length, and behind the key
  set t := masked key payload ++ r with ht
  have hdrop : (beBytes form.width payload.length ++ (keyBytes key ++ t)).drop form.width =
      keyBytes key ++ t := List.drop_left' (length_beBytes _ _)
  have hbody : (beBytes form.width payload.length ++ (keyBytes key ++ t)).drop
      (form.width + keyLen f.second) = t := by
    rw [← List.drop_drop, hdrop, hkl, List.drop_left]
  have hlen : form.length (form.code payload.length)
      ((beBytes form.width payload.length ++ (keyBytes key ++ t)).take form.width) =
        payload.length := by
    rw [List.take_left' (length_beBytes _ _)]
    exact LenForm.length_code fits
  have hkey : takeKey f.second (keyBytes key ++ t) = key := takeKey_second f t
  have henc : f.enc ++ r =
      first :: f.second :: (beBytes form.width payload.length ++ (keyBytes key ++ t)) := by
    simp [enc, hf, ht]
  rw [henc, dec]
  simp only [hcode, hform, hlen, hdrop, hbody, hkey]
  have hpay : t.take payload.length = masked key payload := List.take_left' (length_masked _ _)
  have hrest : t.drop payload.length = r := List.drop_left' (length_masked _ _)
  rw [dif_pos ⟨by simp [hkl], fits, by simp [ht]⟩, hrest]
  simp only [hpay, masked_masked, hf]

theorem second_eq {s : UInt8} {k : Option Key} {c : Nat} (hk : k.isSome = decide (128 ≤ s.toNat))
    (hc : c = s.toNat % 128) : UInt8.ofNat ((if k.isSome then 128 else 0) + c) = s := by
  have hs : s.toNat < 256 := s.toNat_lt
  apply UInt8.toNat_inj.mp
  rw [UInt8.toNat_ofNat', hk]
  simp only [decide_eq_true_eq]
  split <;> omega

theorem takeKey_isSome {s : UInt8} (h : keyLen s ≤ b.length) :
    (takeKey s b).isSome = decide (128 ≤ s.toNat) ∧ keyBytes (takeKey s b) = b.take (keyLen s) := by
  unfold takeKey
  unfold keyLen at h ⊢
  by_cases hs : 128 ≤ s.toNat
  · rw [if_pos hs] at h ⊢
    have hlen : (b.take 4).length = 4 := by rw [List.length_take]; omega
    rw [dif_pos ⟨hs, hlen⟩]
    exact ⟨by simp [hs], rfl⟩
  · rw [dif_neg fun hc => hs hc.1, if_neg hs]
    exact ⟨by simp [hs], rfl⟩

theorem enc_of_dec (h : dec b = some (f, r)) : b = f.enc ++ r := by
  match b with
  | [] | [_] => simp [dec] at h
  | first :: second :: b =>
    rw [dec] at h
    split at h
    · rename_i hb
      obtain ⟨hhead, hfits, hlen⟩ := hb
      rw [Option.some.injEq, Prod.mk.injEq] at h
      obtain ⟨rfl, rfl⟩ := h
      let form := LenForm.ofCode (second.toNat % 128)
      let len := form.length (second.toNat % 128) (b.take form.width)
      let key := takeKey second (b.drop form.width)
      let body := b.drop (form.width + keyLen second)
      have hext : (b.take form.width).length = form.width := by
        rw [List.length_take]
        exact Nat.min_eq_left (Nat.le_of_add_right_le hhead)
      obtain ⟨hcode, hbe⟩ : form.code len = second.toNat % 128 ∧
          beBytes form.width len = b.take form.width := LenForm.code_length hext
      obtain ⟨hsome, hkey⟩ : key.isSome = decide (128 ≤ second.toNat) ∧
          keyBytes key = (b.drop form.width).take (keyLen second) :=
        takeKey_isSome (by rw [List.length_drop]; exact Nat.le_sub_of_add_le' hhead)
      have hpay : (masked key (body.take len)).length = len := by
        rw [length_masked, List.length_take]
        exact Nat.min_eq_left hlen
      show first :: second :: b =
        first :: UInt8.ofNat ((if key.isSome then 128 else 0) +
          form.code (masked key (body.take len)).length) ::
          (beBytes form.width (masked key (body.take len)).length ++
            (keyBytes key ++ masked key (masked key (body.take len)))) ++ body.drop len
      rw [hpay, second_eq hsome hcode, hbe, masked_masked, hkey, List.cons_append, List.cons_append,
        List.append_assoc, List.append_assoc, List.take_append_drop]
      show first :: second :: b = first :: second :: (b.take form.width ++
        ((b.drop form.width).take (keyLen second) ++ b.drop (form.width + keyLen second)))
      rw [← List.drop_drop, List.take_append_drop, List.take_append_drop]
    · simp at h

end Frame

/-- The frames of the format. -/
def frames : FrameCodec UInt8 Frame where
  enc := Frame.enc
  dec := Frame.dec
  dec_eq_some := ⟨Frame.enc_of_dec, fun h => h ▸ Frame.dec_enc _ _⟩
  enc_ne_nil f := by simp [Frame.enc]

/-! ## Messages -/

/-- The messages of a list of frames, when `pending` is there of one already, and what is there of
the message behind them. -/
def reassemble : Bytes → List Frame → List Bytes × Bytes
  | pending, [] => ([], pending)
  | pending, f :: fs =>
    if f.fin then
      ((pending ++ f.payload) :: (reassemble [] fs).1, (reassemble [] fs).2)
    else reassemble (pending ++ f.payload) fs

theorem reassemble_append (pending : Bytes) (fs gs : List Frame) :
    reassemble pending (fs ++ gs) =
      ((reassemble pending fs).1 ++ (reassemble (reassemble pending fs).2 gs).1,
        (reassemble (reassemble pending fs).2 gs).2) := by
  induction fs generalizing pending with
  | nil => rfl
  | cons f fs ih =>
    rw [List.cons_append, reassemble, reassemble]
    split
    · rw [ih]
      rfl
    · exact ih _

/-! ## Fragmentation

Section 5.4: a message is one frame with the opcode TEXT or BINARY and FIN, or such a frame
without FIN, frames with the opcode CONTINUATION without it, and one of these with it. -/

/-- The frames of one message. -/
structure IsMessage (g : List Frame) : Prop where
  first : ∃ f ∈ g.head?, f.opcode = 1 ∨ f.opcode = 2
  rest : ∀ f ∈ g.tail, f.opcode = 0
  last : ∃ f ∈ g.getLast?, f.fin = true
  front : ∀ f ∈ g.dropLast, f.fin = false

/-- Every frame is a CONTINUATION exactly if a message was begun and has not ended before it;
`begun` says so of the first. -/
def fragmented : Bool → List Frame → Bool
  | _, [] => true
  | begun, f :: fs => (decide (f.opcode = 0) == begun) && fragmented (!f.fin) fs

/-- The frames cut behind every FIN, when `part` is there of the first message already. -/
def split : List Frame → List Frame → List (List Frame)
  | _, [] => []
  | part, f :: fs => if f.fin then (part ++ [f]) :: split [] fs else split (part ++ [f]) fs

/-- The payloads of some frames in a row. -/
def payloads (fs : List Frame) : Bytes := fs.flatMap Frame.payload

/-- A message without its last frames. -/
structure IsPart (begun : Bool) (part : List Frame) : Prop where
  begun : begun = !part.isEmpty
  first : ∀ f ∈ part.head?, f.opcode = 1 ∨ f.opcode = 2
  rest : ∀ f ∈ part.tail, f.opcode = 0
  front : ∀ f ∈ part, f.fin = false

/-- The next frame of a fragmented message. -/
theorem IsPart.snoc {begun : Bool} {part : List Frame} {f : Frame} (h : IsPart begun part)
    (hop : f.opcode = 0 ∨ f.opcode = 1 ∨ f.opcode = 2)
    (hnext : decide (f.opcode = 0) = begun) :
    (∃ g ∈ (part ++ [f]).head?, g.opcode = 1 ∨ g.opcode = 2) ∧
      ∀ g ∈ (part ++ [f]).tail, g.opcode = 0 := by
  cases part with
  | nil =>
    have hne : f.opcode ≠ 0 := of_decide_eq_false (hnext.trans h.begun)
    exact ⟨⟨f, rfl, hop.resolve_left hne⟩, by simp⟩
  | cons g part =>
    have hzero : f.opcode = 0 := of_decide_eq_true (hnext.trans h.begun)
    exact ⟨⟨g, rfl, h.first g rfl⟩,
      List.forall_mem_append.mpr ⟨h.rest, List.forall_mem_singleton.mpr hzero⟩⟩

end Avant.Lib.Ws
