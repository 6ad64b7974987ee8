import Avant.Lib.CString

/-!
# The chunked transfer coding

RFC 7230, section 4.1, without extensions and trailers: a body is a sequence of chunks, each the
length of its data in hexadecimal, CRLF, the data and CRLF, and ends with a chunk of length zero.
The data of the other chunks is not empty, so that the zero chunk comes once and last.

* `decode_encode`: a body that was written as chunks is read as these chunks, and no further.
-/

namespace Avant.Lib.Chunked

def crlf : Bytes := [13, 10]

/-! ## Lengths -/

/-- The hexadecimal digit of a number below 16. -/
def hexDigit (n : Nat) : UInt8 := UInt8.ofNat (if n < 10 then 0x30 + n else 0x57 + n)

/-- The digits of `n` that `turns` divisions by sixteen give. -/
def hexLoop : Nat → Nat → Bytes
  | 0, _ => []
  | turns + 1, n =>
    if n < 16 then [hexDigit n] else hexLoop turns (n / 16) ++ [hexDigit (n % 16)]

/-- `n` in hexadecimal, without leading zeros. -/
def hex (n : Nat) : Bytes := hexLoop (n + 1) n

/-- The number that digits denote. -/
def hexNumber (ds : Bytes) : Nat := hexFold 0 ds

theorem hexValue_hexDigit : ∀ {n : Nat}, n < 16 → hexValue (hexDigit n) = some n := by decide

theorem hexNumber_snoc (ds : Bytes) (d : UInt8) :
    hexNumber (ds ++ [d]) = hexNumber ds * 16 + (hexValue d).getD 0 := by
  simp [hexNumber, hexFold]

theorem hexNumber_hexLoop {turns n : Nat} (h : n < turns) : hexNumber (hexLoop turns n) = n := by
  induction turns generalizing n with
  | zero => omega
  | succ turns ih =>
    unfold hexLoop
    split
    · rename_i hn
      simp [hexNumber, hexFold, hexValue_hexDigit hn]
    · rw [hexNumber_snoc, ih (by omega), hexValue_hexDigit (Nat.mod_lt n (by decide)),
        Option.getD_some]
      omega

theorem isSome_of_mem_hexLoop {turns n : Nat} {d : UInt8} (hd : d ∈ hexLoop turns n) :
    (hexValue d).isSome = true := by
  induction turns generalizing n with
  | zero => simp [hexLoop] at hd
  | succ turns ih =>
    unfold hexLoop at hd
    split at hd
    · rename_i hn
      rw [List.mem_singleton.mp hd, hexValue_hexDigit hn]
      rfl
    · rcases List.mem_append.mp hd with hd | hd
      · exact ih hd
      · rw [List.mem_singleton.mp hd, hexValue_hexDigit (Nat.mod_lt n (by decide))]
        rfl

theorem isSome_of_mem_hex {n : Nat} {d : UInt8} (hd : d ∈ hex n) : (hexValue d).isSome = true :=
  isSome_of_mem_hexLoop hd

theorem hex_ne_nil (n : Nat) : hex n ≠ [] := by
  unfold hex hexLoop
  split <;> simp

/-! ## Chunks -/

/-- A chunk of data. -/
def chunk (data : Bytes) : Bytes := hex data.length ++ crlf ++ data ++ crlf

/-- The end of a body. -/
def lastChunk : Bytes := ascii "0\r\n\r\n"

/-- A body of chunks. -/
def encode (cs : List Bytes) : Bytes := cs.flatMap chunk ++ lastChunk

/-- The length at the head of a chunk, and what stands behind its line. -/
def takeLength (b : Bytes) : Option (Nat × Bytes) :=
  let digits := b.takeWhile fun d => (hexValue d).isSome
  let rest := b.drop digits.length
  if digits ≠ [] ∧ rest.take 2 = crlf then some (hexNumber digits, rest.drop 2) else none

/-- The data of the chunks at the head of some bytes, up to the last one, and what stands behind
it. -/
def decode : Nat → Bytes → Option (List Bytes × Bytes)
  | 0, _ => none
  | fuel + 1, b =>
    match takeLength b with
    | none => none
    | some (0, rest) => if rest.take 2 = crlf then some ([], rest.drop 2) else none
    | some (n + 1, rest) =>
      if (rest.drop (n + 1)).take 2 = crlf then
        match decode fuel (rest.drop (n + 3)) with
        | none => none
        | some (cs, rest') => some (rest.take (n + 1) :: cs, rest')
      else none

theorem takeLength_hex (n : Nat) (rest : Bytes) :
    takeLength (hex n ++ crlf ++ rest) = some (n, rest) := by
  have hcr : (hexValue 13).isSome = false := by decide
  have hdigits : (hex n ++ crlf ++ rest).takeWhile (fun d => (hexValue d).isSome) = hex n := by
    rw [List.append_assoc, List.takeWhile_append_of_pos fun d hd => isSome_of_mem_hex hd]
    simp [crlf, hcr]
  unfold takeLength
  simp only [hdigits]
  rw [List.append_assoc, List.drop_left, if_pos ⟨hex_ne_nil n, rfl⟩,
    show hexNumber (hex n) = n from hexNumber_hexLoop (Nat.lt_succ_self n)]
  rfl

/-- **What was written as chunks is read as these chunks**, whatever stands behind. -/
theorem decode_encode {cs : List Bytes} (hne : ∀ c ∈ cs, c ≠ []) (rest : Bytes) {fuel : Nat}
    (hfuel : cs.length < fuel) : decode fuel (encode cs ++ rest) = some (cs, rest) := by
  induction cs generalizing fuel with
  | nil =>
    cases fuel with
    | zero => simp at hfuel
    | succ fuel =>
      have hzero : encode [] ++ rest = hex 0 ++ crlf ++ (crlf ++ rest) := rfl
      rw [decode, hzero, takeLength_hex]
      rfl
  | cons c cs ih =>
    cases fuel with
    | zero => simp at hfuel
    | succ fuel =>
      obtain ⟨n, hn⟩ : ∃ n, c.length = n + 1 :=
        Nat.exists_eq_succ_of_ne_zero fun h0 => hne c (by simp) (List.length_eq_zero_iff.mp h0)
      have hsplit : encode (c :: cs) ++ rest =
          hex (n + 1) ++ crlf ++ (c ++ (crlf ++ (encode cs ++ rest))) := by
        simp [encode, chunk, hn]
      have hnext : (c ++ (crlf ++ (encode cs ++ rest))).drop (n + 3) = encode cs ++ rest := by
        rw [show n + 3 = c.length + 2 by omega, ← List.drop_drop, List.drop_left]
        rfl
      rw [decode, hsplit, takeLength_hex]
      have hend : (crlf ++ (encode cs ++ rest)).take 2 = crlf := rfl
      simp only
      rw [← hn, List.drop_left, if_pos hend, hnext, List.take_left,
        ih (fun c' hc' => hne c' (List.mem_cons_of_mem _ hc')) (by simpa using hfuel)]

end Avant.Lib.Chunked
