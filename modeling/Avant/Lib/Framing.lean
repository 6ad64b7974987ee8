import Avant.Lib.BigEndian

/-!
# Self-delimiting frames over a byte stream

A `FrameCodec` writes messages so that a reader holding any prefix of a stream of them can tell
whether the first one is complete, and where it ends: `dec b = some (m, r)` exactly when `b` is
the encoding of `m` followed by `r`. Nothing is said about how the stream is cut into pieces,
and `dec_of_stream` is what makes the cuts irrelevant: a reader that has received only `buf` of
a stream `encAll ms` and finds a complete frame has found the first message of `ms`, and what is
left of its buffer, followed by the part still to come, is the stream of the others. `cut` and
`arrivals` say which messages each piece of a stream completes.

`lenFrame k` is the instance used below: the payload's length in `k` big-endian bytes, then the
payload.
-/

namespace Avant.Lib

/-- A self-delimiting code: `dec` recognises exactly the encodings, and nothing encodes to the
empty string. -/
structure FrameCodec (α μ : Type) where
  enc : μ → List α
  dec : List α → Option (μ × List α)
  dec_eq_some : ∀ {b m r}, dec b = some (m, r) ↔ b = enc m ++ r
  enc_ne_nil : ∀ m, enc m ≠ []

namespace FrameCodec

variable {α μ : Type} (F : FrameCodec α μ)

/-- The stream of a list of messages. -/
def encAll (ms : List μ) : List α := ms.flatMap F.enc

variable {ms : List μ}

@[simp] theorem encAll_nil : F.encAll [] = [] := rfl

@[simp] theorem encAll_cons (m : μ) (ms : List μ) : F.encAll (m :: ms) = F.enc m ++ F.encAll ms :=
  rfl

@[simp] theorem encAll_append (ms ns : List μ) :
    F.encAll (ms ++ ns) = F.encAll ms ++ F.encAll ns := by
  simp [encAll]

theorem encAll_eq_nil : F.encAll ms = [] ↔ ms = [] := by
  cases ms with
  | nil => simp
  | cons m ms => simp [F.enc_ne_nil m]

@[simp] theorem dec_enc_append (m : μ) (r : List α) : F.dec (F.enc m ++ r) = some (m, r) :=
  F.dec_eq_some.mpr rfl

variable {F}

/-- More bytes do not change the frame a buffer starts with. -/
theorem dec_append {b r : List α} {m : μ} (h : F.dec b = some (m, r)) (t : List α) :
    F.dec (b ++ t) = some (m, r ++ t) := by
  rw [F.dec_eq_some.mp h, List.append_assoc]
  exact F.dec_enc_append m (r ++ t)

theorem dec_nil : F.dec [] = none := by
  cases h : F.dec [] with
  | none => rfl
  | some mr =>
    have := F.dec_eq_some.mp (h.trans (congrArg some (Prod.mk.eta (p := mr)).symm))
    exact absurd (List.append_eq_nil_iff.mp this.symm).1 (F.enc_ne_nil _)

/-- **The cuts do not matter**: a complete frame at the head of the received part of a stream is
the stream's first message. -/
theorem dec_of_stream {buf tail r : List α} {m : μ} (hs : buf ++ tail = F.encAll ms)
    (h : F.dec buf = some (m, r)) : ∃ ms', ms = m :: ms' ∧ r ++ tail = F.encAll ms' := by
  have hd := dec_append h tail
  rw [hs] at hd
  cases ms with
  | nil => rw [encAll_nil, dec_nil] at hd; exact absurd hd (by simp)
  | cons n ns =>
    rw [encAll_cons, dec_enc_append, Option.some.injEq, Prod.mk.injEq] at hd
    obtain ⟨rfl, hr⟩ := hd
    exact ⟨ns, rfl, hr.symm⟩

/-- The same for several messages at the head of the received part. -/
theorem encAll_of_stream {l : List μ} {rest tail : List α}
    (hs : F.encAll l ++ rest ++ tail = F.encAll ms) :
    ∃ ms', ms = l ++ ms' ∧ rest ++ tail = F.encAll ms' := by
  induction l generalizing ms with
  | nil => exact ⟨ms, rfl, by simpa using hs⟩
  | cons m l ih =>
    have hd : F.dec (F.encAll (m :: l) ++ rest) = some (m, F.encAll l ++ rest) := by
      rw [encAll_cons, List.append_assoc]
      exact F.dec_enc_append m _
    obtain ⟨ms₁, rfl, hs₁⟩ := dec_of_stream hs hd
    obtain ⟨ms', rfl, hs'⟩ := ih hs₁
    exact ⟨ms', rfl, hs'⟩

variable (F) in
/-- The messages at the head of a buffer and what is left behind them, `n` messages at most. -/
def decAll : Nat → List α → List μ × List α
  | 0, b => ([], b)
  | n + 1, b =>
    match F.dec b with
    | none => ([], b)
    | some (m, r) => (m :: (decAll n r).1, (decAll n r).2)

theorem prefix_decAll {l : List μ} {n : Nat} (hn : l.length ≤ n) (rest : List α) :
    l <+: (F.decAll n (F.encAll l ++ rest)).1 := by
  induction l generalizing n with
  | nil => exact List.nil_prefix
  | cons m l ih =>
    obtain ⟨n, rfl⟩ : ∃ k, n = k + 1 := ⟨n - 1, by rw [List.length_cons] at hn; omega⟩
    rw [encAll_cons, List.append_assoc, decAll, dec_enc_append]
    exact List.cons_prefix_cons.mpr ⟨rfl, ih (Nat.le_of_succ_le_succ hn)⟩

/-- A message takes at least one element. -/
theorem length_le_encAll (l : List μ) : l.length ≤ (F.encAll l).length :=
  (Nat.one_mul _).symm.trans_le
    (mul_length_le_flatMap fun m _ => List.length_pos_iff.mpr (F.enc_ne_nil m))

/-! ### A stream cut into pieces -/

variable (F)

/-- The first `n` elements of the stream of `ms`: the messages they complete, the messages still
to come, and how many elements of the first of those are already there. -/
def cut : List μ → Nat → List μ × List μ × Nat
  | [], n => ([], [], n)
  | m :: ms, n =>
    if (F.enc m).length ≤ n then
      let c := cut ms (n - (F.enc m).length)
      (m :: c.1, c.2)
    else ([], m :: ms, n)

/-- The messages each of a sequence of pieces completes, from the lengths of the pieces, with the
number of elements each leaves of an incomplete one. `a` elements of the stream have been read
before. -/
def arrivals : List μ → Nat → List Nat → List (List μ × Nat)
  | _, _, [] => []
  | ms, a, n :: ns =>
    let c := F.cut ms (a + n)
    (c.1, c.2.2) :: arrivals c.2.1 c.2.2 ns

variable {F}

/-- An incomplete message is not taken for a complete one. -/
theorem dec_take_enc {m : μ} {a : Nat} (h : a < (F.enc m).length) (t : List α) :
    F.dec ((F.enc m ++ t).take a) = none := by
  have htake : (F.enc m ++ t).take a = (F.enc m).take a := List.take_append_of_le_length (by omega)
  rw [htake]
  cases hd : F.dec ((F.enc m).take a) with
  | none => rfl
  | some nr =>
    have hstream : (F.enc m).take a ++ (F.enc m).drop a = F.encAll [m] := by simp
    obtain ⟨ms', hm, -⟩ := dec_of_stream hstream hd
    have hlen := congrArg List.length (F.dec_eq_some.mp hd)
    rw [List.cons.injEq] at hm
    rw [← hm.1, List.length_append, List.length_take] at hlen
    omega

theorem cut_append (ms : List μ) (n : Nat) : (F.cut ms n).1 ++ (F.cut ms n).2.1 = ms := by
  induction ms generalizing n with
  | nil => rfl
  | cons m ms ih =>
    unfold cut
    split
    · rw [List.cons_append, ih]
    · rfl

/-- The elements read are the completed messages and the part of the next one. -/
theorem cut_take (ms : List μ) (n : Nat) :
    (F.encAll ms).take n =
      F.encAll (F.cut ms n).1 ++ (F.encAll (F.cut ms n).2.1).take (F.cut ms n).2.2 := by
  induction ms generalizing n with
  | nil => simp [cut]
  | cons m ms ih =>
    unfold cut
    split
    · rename_i h
      simp only [encAll_cons, List.take_append, List.take_of_length_le h, List.append_assoc, ih]
    · simp

theorem cut_part_le {n : Nat} (h : n ≤ (F.encAll ms).length) :
    (F.cut ms n).2.2 ≤ (F.encAll (F.cut ms n).2.1).length := by
  induction ms generalizing n with
  | nil => simpa [cut] using h
  | cons m ms ih =>
    unfold cut
    split
    · rw [encAll_cons, List.length_append] at h
      exact ih (by omega)
    · exact h

theorem dec_cut_part {n : Nat} (h : n ≤ (F.encAll ms).length) :
    F.dec ((F.encAll (F.cut ms n).2.1).take (F.cut ms n).2.2) = none := by
  induction ms generalizing n with
  | nil => simp [cut, dec_nil]
  | cons m ms ih =>
    unfold cut
    split
    · rw [encAll_cons, List.length_append] at h
      exact ih (by omega)
    · rename_i hlt
      exact dec_take_enc (Nat.lt_of_not_le hlt) _

end FrameCodec

/-! ## Length-prefixed frames -/

/-- A payload whose length fits the `k` bytes of a header. -/
abbrev Payload (k : Nat) := { p : Bytes // p.length < 256 ^ k }

/-- The length a buffer's first `k` bytes declare. -/
def declared (k : Nat) (b : Bytes) : Nat := ofBe (b.take k)

theorem declared_lt {k : Nat} {b : Bytes} (h : k ≤ b.length) : declared k b < 256 ^ k := by
  have := ofBe_lt (b.take k)
  rwa [List.length_take_of_le h] at this

/-- `k` big-endian bytes of length, then the payload. -/
def lenEnc (k : Nat) (p : Payload k) : Bytes := beBytes k p.1.length ++ p.1

/-- The frame at the head of a buffer, if its header and payload are there. -/
def lenDec (k : Nat) (b : Bytes) : Option (Payload k × Bytes) :=
  if h : k ≤ b.length ∧ k + declared k b ≤ b.length then
    some (⟨(b.drop k).take (declared k b), lt_of_le_of_lt (List.length_take_le _ _)
      (declared_lt h.1)⟩, b.drop (k + declared k b))
  else none

@[simp] theorem length_lenEnc (k : Nat) (p : Payload k) : (lenEnc k p).length = k + p.1.length := by
  simp [lenEnc]

theorem declared_lenEnc (k : Nat) (p : Payload k) (r : Bytes) :
    declared k (lenEnc k p ++ r) = p.1.length := by
  have htake : (lenEnc k p ++ r).take k = beBytes k p.1.length := by
    rw [lenEnc, List.append_assoc]
    exact List.take_left' (length_beBytes _ _)
  rw [declared, htake, ofBe_beBytes p.2]

/-- A buffer with a whole frame is that frame's encoding, followed by the rest. -/
theorem lenEnc_split {k : Nat} {b : Bytes} (h : k ≤ b.length) :
    b = beBytes k (declared k b) ++ ((b.drop k).take (declared k b) ++
      b.drop (k + declared k b)) := by
  have hhead : beBytes k (declared k b) = b.take k := by
    have := beBytes_ofBe (b.take k)
    rwa [List.length_take_of_le h] at this
  rw [hhead, ← List.drop_drop, List.take_append_drop, List.take_append_drop]

theorem lenDec_eq_some {k : Nat} {b r : Bytes} {p : Payload k} :
    lenDec k b = some (p, r) ↔ b = lenEnc k p ++ r := by
  constructor
  · intro h
    unfold lenDec at h
    split at h
    · rename_i hb
      rw [Option.some.injEq, Prod.mk.injEq] at h
      obtain ⟨rfl, rfl⟩ := h
      have hlen : ((b.drop k).take (declared k b)).length = declared k b := by
        rw [List.length_take, List.length_drop]
        omega
      rw [lenEnc, hlen, List.append_assoc]
      exact lenEnc_split hb.1
    · exact absurd h (by simp)
  · rintro rfl
    have hd := declared_lenEnc k p r
    have hb : k ≤ (lenEnc k p ++ r).length ∧
        k + declared k (lenEnc k p ++ r) ≤ (lenEnc k p ++ r).length := by
      rw [hd, List.length_append, length_lenEnc]
      omega
    unfold lenDec
    rw [dif_pos hb, Option.some.injEq, Prod.mk.injEq]
    refine ⟨Subtype.ext ?_, ?_⟩
    · show ((lenEnc k p ++ r).drop k).take (declared k (lenEnc k p ++ r)) = p.1
      rw [hd, lenEnc, List.append_assoc, List.drop_left' (length_beBytes _ _), List.take_left]
    · rw [hd]
      exact List.drop_left' (length_lenEnc k p)

/-- The length-prefixed frames with a header of `k` bytes. -/
def lenFrame (k : Nat) (hk : 0 < k) : FrameCodec UInt8 (Payload k) where
  enc := lenEnc k
  dec := lenDec k
  dec_eq_some := lenDec_eq_some
  enc_ne_nil p h := by
    have := congrArg List.length h
    simp at this
    omega

end Avant.Lib
