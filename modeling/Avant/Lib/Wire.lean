import Avant.Lib.BigEndian

/-!
# The wire format of protocol buffers

Base-128 varints, and the fields of a proto3 message with a one-byte tag: numbers, byte strings,
embedded messages and packed lists of numbers. A field with its default value is not written, and a
reader that does not find its tag returns the default. Each reader gives back what its writer
wrote and leaves the rest, provided the rest does not start with the same tag, which holds when a
message's fields are written in the order of their numbers.

The readers accept the fields of a message in that order only, which is the order of every
serialiser.
-/

namespace Avant.Lib

/-- The base-128 digits of `n`, least significant first, at most `k` of them. -/
def varint : Nat → Nat → Bytes
  | 0, _ => []
  | k + 1, n =>
    if n < 128 then [UInt8.ofNat n] else UInt8.ofNat (n % 128 + 128) :: varint k (n / 128)

/-- A varint of at most `k` bytes at the head of a buffer. -/
def readVarint : Nat → Bytes → Option (Nat × Bytes)
  | 0, _ => none
  | _ + 1, [] => none
  | k + 1, b :: bs =>
    if b.toNat < 128 then some (b.toNat, bs)
    else (readVarint k bs).map fun r => (b.toNat - 128 + 128 * r.1, r.2)

theorem varint_ne_nil (k n : Nat) : varint (k + 1) n ≠ [] := by
  rw [varint]
  split <;> simp

theorem readVarint_varint : ∀ (k n : Nat) (r : Bytes), n < 128 ^ (k + 1) →
    readVarint (k + 1) (varint (k + 1) n ++ r) = some (n, r)
  | k, n, r, h => by
    rw [varint]
    by_cases hn : n < 128
    · have hb : (UInt8.ofNat n).toNat = n := by
        rw [UInt8.toNat_ofNat']
        omega
      rw [if_pos hn, List.singleton_append, readVarint, hb, if_pos hn]
    · have hb : (UInt8.ofNat (n % 128 + 128)).toNat = n % 128 + 128 := by
        rw [UInt8.toNat_ofNat']
        omega
      rw [if_neg hn, List.cons_append, readVarint, hb, if_neg (by omega)]
      cases k with
      | zero => exact absurd h (by omega)
      | succ k =>
        have hq : n / 128 < 128 ^ (k + 1) := by
          rw [pow_succ] at h
          exact Nat.div_lt_of_lt_mul (by rwa [Nat.mul_comm] at h)
        rw [readVarint_varint k (n / 128) r hq, Option.map_some]
        simp only [Option.some.injEq, Prod.mk.injEq, and_true]
        omega

/-- The numbers of a packed list. -/
def readVarints : Nat → Bytes → Option (List Nat)
  | _, [] => some []
  | 0, _ :: _ => none
  | k + 1, b :: bs =>
    (readVarint 10 (b :: bs)).bind fun r => (readVarints k r.2).map fun ns => r.1 :: ns

theorem readVarints_varint : ∀ (k : Nat) (ns : List Nat), ns.length ≤ k → (∀ n ∈ ns, n < 2 ^ 64) →
    readVarints k (ns.flatMap (varint 10)) = some ns
  | _, [], _, _ => by simp [readVarints]
  | k + 1, n :: ns, hk, hns => by
    have hn : n < 128 ^ 10 := lt_trans (hns n List.mem_cons_self) (by decide)
    have ih := readVarints_varint k ns (by simpa using hk)
      fun m hm => hns m (List.mem_cons_of_mem n hm)
    rw [List.flatMap_cons]
    cases hv : varint 10 n with
    | nil => exact absurd hv (varint_ne_nil 9 n)
    | cons b bs =>
      rw [List.cons_append, readVarints, ← List.cons_append, ← hv, readVarint_varint 9 n _ hn]
      simp [ih]

/-! ## Fields -/

/-- A number, with the tag of its field. -/
def varintField (tag : UInt8) (n : Nat) : Bytes := if n = 0 then [] else tag :: varint 10 n

/-- A byte string that is there, with its tag and length. -/
def lenField (tag : UInt8) (b : Bytes) : Bytes := tag :: (varint 10 b.length ++ b)

/-- A byte string, if it is not empty. -/
def bytesField (tag : UInt8) (b : Bytes) : Bytes := if b = [] then [] else lenField tag b

/-- A packed list of numbers. -/
def packedField (tag : UInt8) (ns : List Nat) : Bytes := bytesField tag (ns.flatMap (varint 10))

/-- The field's value and the rest, if the buffer starts with its tag. -/
def readField {α : Type} (tag : UInt8) (default : α) (read : Bytes → Option (α × Bytes)) :
    Bytes → Option (α × Bytes)
  | [] => some (default, [])
  | t :: bs => if t = tag then read bs else some (default, t :: bs)

/-- A length and as many bytes. -/
def readLen (bs : Bytes) : Option (Bytes × Bytes) :=
  (readVarint 10 bs).bind fun r =>
    if r.1 ≤ r.2.length then some (r.2.take r.1, r.2.drop r.1) else none

def readVarintField (tag : UInt8) : Bytes → Option (Nat × Bytes) := readField tag 0 (readVarint 10)

def readBytesField (tag : UInt8) : Bytes → Option (Bytes × Bytes) := readField tag [] readLen

def readPackedField (tag : UInt8) (bs : Bytes) : Option (List Nat × Bytes) :=
  (readBytesField tag bs).bind fun r => (readVarints r.1.length r.1).map fun ns => (ns, r.2)

section RoundTrip

variable (tag : UInt8) (r : Bytes)

variable {tag r} in
theorem readField_absent {α : Type} (default : α) (read : Bytes → Option (α × Bytes))
    (hr : r.head? ≠ some tag) : readField tag default read r = some (default, r) := by
  cases r with
  | nil => rfl
  | cons t bs =>
    have ht : t ≠ tag := fun h => hr (by rw [h, List.head?_cons])
    rw [readField, if_neg ht]

theorem readVarintField_varintField {n : Nat} (hn : n < 2 ^ 64) (hr : r.head? ≠ some tag) :
    readVarintField tag (varintField tag n ++ r) = some (n, r) := by
  unfold varintField readVarintField
  by_cases h0 : n = 0
  · rw [if_pos h0, List.nil_append, readField_absent 0 _ hr, h0]
  · rw [if_neg h0, List.cons_append, readField, if_pos rfl]
    exact readVarint_varint 9 n r (lt_trans hn (by decide))

theorem readLen_lenField {b : Bytes} (hb : b.length < 2 ^ 64) :
    readLen (varint 10 b.length ++ b ++ r) = some (b, r) := by
  have hread := readVarint_varint 9 b.length (b ++ r) (lt_trans hb (by decide))
  rw [readLen, List.append_assoc, hread, Option.bind_some, if_pos (by simp), List.take_left,
    List.drop_left]

theorem readBytesField_lenField {b : Bytes} (hb : b.length < 2 ^ 64) :
    readBytesField tag (lenField tag b ++ r) = some (b, r) := by
  rw [lenField, List.cons_append, readBytesField, readField, if_pos rfl]
  exact readLen_lenField r hb

theorem readBytesField_bytesField {b : Bytes} (hb : b.length < 2 ^ 64) (hr : r.head? ≠ some tag) :
    readBytesField tag (bytesField tag b ++ r) = some (b, r) := by
  unfold bytesField
  by_cases h0 : b = []
  · rw [if_pos h0, List.nil_append, readBytesField, readField_absent [] _ hr, h0]
  · rw [if_neg h0]
    exact readBytesField_lenField tag r hb

theorem readPackedField_packedField {ns : List Nat} (hns : ∀ n ∈ ns, n < 2 ^ 64)
    (hlen : (packedField tag ns).length < 2 ^ 64) (hr : r.head? ≠ some tag) :
    readPackedField tag (packedField tag ns ++ r) = some (ns, r) := by
  have hbytes : (ns.flatMap (varint 10)).length < 2 ^ 64 := by
    unfold packedField bytesField at hlen
    split at hlen
    · rename_i h0
      rw [h0]
      decide
    · simp only [lenField, List.length_cons, List.length_append] at hlen
      omega
  have hcount : ns.length ≤ (ns.flatMap (varint 10)).length := (Nat.one_mul _).symm.trans_le
    (mul_length_le_flatMap fun n _ => List.length_pos_iff.mpr (varint_ne_nil 9 n))
  rw [readPackedField, packedField, readBytesField_bytesField tag r hbytes hr, Option.bind_some,
    readVarints_varint _ ns hcount hns, Option.map_some]

end RoundTrip

/-- The tag a field starts with, or nothing. -/
theorem head?_bytesField_append {tag tag' : UInt8} {b r : Bytes} (h : tag ≠ tag')
    (hr : r.head? ≠ some tag') : (bytesField tag b ++ r).head? ≠ some tag' := by
  unfold bytesField
  split
  · rwa [List.nil_append]
  · simpa [lenField] using h

end Avant.Lib
