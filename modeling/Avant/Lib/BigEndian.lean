import Mathlib.Data.List.Induction
import Mathlib.Tactic.Ring

/-!
# Byte strings and big-endian numbers

`Bytes` is the type of every buffer, socket and string of the development. `beBytes k n` writes
the low `k` bytes of `n`, most significant first; `ofBe` reads such a string back.

* `ofBe_beBytes`: reading what was written gives the number back, when it fits `k` bytes.
* `beBytes_ofBe`: writing what was read gives the bytes back, so a `k`-byte header has exactly
  one spelling.
-/

namespace Avant.Lib

/-- A byte string. -/
abbrev Bytes := List UInt8

/-- An ASCII literal as bytes. -/
def ascii (s : String) : Bytes := s.toList.map Char.toUInt8

/-- Pieces of at least `k` elements make a list of at least `k` times as many. -/
theorem mul_length_le_flatMap {α β : Type} {f : α → List β} {k : Nat} {l : List α}
    (h : ∀ a ∈ l, k ≤ (f a).length) : k * l.length ≤ (l.flatMap f).length := by
  induction l with
  | nil => exact Nat.zero_le _
  | cons a l ih =>
    obtain ⟨ha, hl⟩ := List.forall_mem_cons.mp h
    rw [List.flatMap_cons, List.length_append, List.length_cons, Nat.mul_succ, Nat.add_comm]
    exact Nat.add_le_add ha (ih hl)

/-- The low `k` bytes of `n`, most significant first. -/
def beBytes : Nat → Nat → Bytes
  | 0, _ => []
  | k + 1, n => beBytes k (n / 256) ++ [UInt8.ofNat n]

/-- The number a big-endian byte string denotes. -/
def ofBe (bs : Bytes) : Nat := bs.foldl (fun n b => n * 256 + b.toNat) 0

@[simp] theorem length_beBytes : ∀ k n, (beBytes k n).length = k
  | 0, _ => rfl
  | k + 1, n => by simp [beBytes, length_beBytes k]

@[simp] theorem ofBe_snoc (bs : Bytes) (b : UInt8) : ofBe (bs ++ [b]) = ofBe bs * 256 + b.toNat := by
  simp [ofBe]

theorem ofBe_append (as bs : Bytes) : ofBe (as ++ bs) = ofBe as * 256 ^ bs.length + ofBe bs := by
  induction bs using List.reverseRecOn with
  | nil => simp [ofBe]
  | append_singleton bs b ih =>
    rw [← List.append_assoc, ofBe_snoc, ofBe_snoc, ih, List.length_append, List.length_singleton,
      pow_succ]
    ring

theorem ofBe_lt (bs : Bytes) : ofBe bs < 256 ^ bs.length := by
  induction bs using List.reverseRecOn with
  | nil => decide
  | append_singleton bs b ih =>
    have hb : b.toNat < 256 := b.toNat_lt
    rw [ofBe_snoc, List.length_append, List.length_singleton, pow_succ]
    omega

theorem ofBe_beBytes : ∀ {k n : Nat}, n < 256 ^ k → ofBe (beBytes k n) = n
  | 0, n, h => by simp only [pow_zero] at h; simp [beBytes, ofBe]; omega
  | k + 1, n, h => by
    have hq : n / 256 < 256 ^ k := by
      rw [pow_succ] at h
      exact Nat.div_lt_of_lt_mul (by rwa [Nat.mul_comm] at h)
    rw [beBytes, ofBe_snoc, ofBe_beBytes hq, UInt8.toNat_ofNat']
    omega

theorem beBytes_ofBe (bs : Bytes) : beBytes bs.length (ofBe bs) = bs := by
  induction bs using List.reverseRecOn with
  | nil => rfl
  | append_singleton bs b ih =>
    have hb : b.toNat < 256 := b.toNat_lt
    have hq : (ofBe bs * 256 + b.toNat) / 256 = ofBe bs := by omega
    have hlow : UInt8.ofNat (ofBe bs * 256 + b.toNat) = b := by
      apply UInt8.toNat_inj.mp
      rw [UInt8.toNat_ofNat']
      omega
    rw [List.length_append, List.length_singleton, beBytes, ofBe_snoc, hq, ih, hlow]

end Avant.Lib
